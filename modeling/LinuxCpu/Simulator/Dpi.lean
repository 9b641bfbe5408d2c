import LinuxCpu.Lib.ByteMemory
import Mathlib.Data.BitVec

/-! The simulated memory behind the cores: `memory.c` and the calls of `dpi.c`. -/

namespace LinuxCpu.Simulator

open ByteMemory

def configMbase : BitVec 64 := 0x80000000
def configMsize : BitVec 64 := 0x8000000
def configSerialMmio : BitVec 64 := 0xa00003f8

/-- Host memory seen from the array `pmem`: index `i < CONFIG_MSIZE` is
`pmem[i]`, the other indices are what surrounds the array in the host. -/
abbrev Pmem := Mem 64

structure Host where
  pmem : Pmem
  console : List (BitVec 8)

/-- The lengths `host_read` and `host_write` accept; any other asserts. -/
inductive Len | byte | half | word | dword
  deriving DecidableEq

def Len.bytes : Len → Nat
  | .byte => 1
  | .half => 2
  | .word => 4
  | .dword => 8

/-- `pmem + paddr - CONFIG_MBASE`, as an index into `pmem`. -/
def guestToHost (paddr : BitVec 64) : BitVec 64 := paddr - configMbase

def hostRead (p : Pmem) (addr : BitVec 64) (len : Len) : BitVec 64 :=
  (load p addr len.bytes).setWidth 64

def hostWrite (p : Pmem) (addr : BitVec 64) (len : Len) (data : BitVec 64) : Pmem :=
  store p addr len.bytes data

def pmemRead (p : Pmem) (addr : BitVec 64) (len : Len) : BitVec 64 :=
  hostRead p (guestToHost addr) len

def pmemWrite (p : Pmem) (addr : BitVec 64) (len : Len) (data : BitVec 64) : Pmem :=
  hostWrite p (guestToHost addr) len data

def dpiInstrMemRead (h : Host) (addr : BitVec 64) : BitVec 32 :=
  if configMbase ≤ addr ∧ addr < configMbase + configMsize then
    (pmemRead h.pmem addr .word).setWidth 32
  else 0

def dpiMemRead (h : Host) (addr : BitVec 64) (len : Len) : BitVec 64 :=
  if addr = 0 then 0 else pmemRead h.pmem addr len

def dpiMemWrite (h : Host) (addr data : BitVec 64) (len : Len) : Host :=
  if addr = configSerialMmio then
    { h with console := h.console ++ [data.setWidth 8] }
  else { h with pmem := pmemWrite h.pmem addr len data }

def Pmem.guest (p : Pmem) : Mem 64 := fun a => p (guestToHost a)

theorem dist_guestToHost (a x : BitVec 64) : dist (guestToHost a) (guestToHost x) = dist a x := by
  exact congrArg BitVec.toNat (sub_sub_sub_cancel_right x a configMbase)

theorem guestToHost_add (a b : BitVec 64) : guestToHost (a + b) = guestToHost a + b :=
  add_sub_right_comm a b configMbase

theorem guest_pmemWrite (p : Pmem) (a : BitVec 64) (len : Len) (data : BitVec 64) :
    (pmemWrite p a len data).guest = store p.guest a len.bytes data := by
  funext x
  simp only [Pmem.guest, pmemWrite, hostWrite, store, dist_guestToHost]

theorem pmemRead_guest (p : Pmem) (a : BitVec 64) (len : Len) :
    pmemRead p a len = (load p.guest a len.bytes).setWidth 64 := by
  refine congrArg (BitVec.setWidth 64) (load_ext fun j _ => ?_)
  rw [Pmem.guest, guestToHost_add]

end LinuxCpu.Simulator
