import LinuxCpu.Simulator.Dpi

/-! Which elements of `pmem` the entry points of `memory.c` and `dpi.c` touch. -/

namespace LinuxCpu.Simulator

open ByteMemory

/-- A call as the host carries it out: the indices of `pmem` it touches, what it
returns, the memory it leaves, and whether it ends in a panic. -/
structure Traced where
  touched : List (BitVec 64)
  data : BitVec 64
  host : Host
  panics : Bool

namespace Traced

def putChar (h : Host) (data : BitVec 64) : Host :=
  { h with console := h.console ++ [data.setWidth 8] }

variable (h : Host) (addr : BitVec 64) (len : Len)

def pmemRead : Traced where
  touched := span (guestToHost addr) len.bytes
  data := Simulator.pmemRead h.pmem addr len
  host := h
  panics := false

def pmemWrite (data : BitVec 64) : Traced where
  touched := span (guestToHost addr) len.bytes
  data := 0
  host := { h with pmem := Simulator.pmemWrite h.pmem addr len data }
  panics := false

def reject : Traced := ⟨[], 0, h, false⟩

def outOfBound : Traced := ⟨[], 0, h, true⟩

/-- The last address it admits lies behind `pmem`. -/
def inPmem : Bool := decide (configMbase ≤ addr) && decide (addr ≤ configMbase + configMsize)

def paddrRead : Traced := if inPmem addr then pmemRead h addr len else outOfBound h

def paddrWrite (data : BitVec 64) : Traced :=
  if inPmem addr then pmemWrite h addr len data else outOfBound h

def dpiInstrMemRead : Traced :=
  if configMbase ≤ addr ∧ addr < configMbase + configMsize then pmemRead h addr .word
  else reject h

def dpiMemRead : Traced := if addr = 0 then reject h else pmemRead h addr len

def dpiMemWrite (data : BitVec 64) : Traced :=
  if addr = configSerialMmio then
    { reject h with host := putChar h data }
  else pmemWrite h addr len data

theorem dpiInstrMemRead_data :
    (dpiInstrMemRead h addr).data.setWidth 32 = Simulator.dpiInstrMemRead h addr := by
  rw [dpiInstrMemRead, Simulator.dpiInstrMemRead]
  split_ifs <;> rfl

theorem dpiMemRead_data : (dpiMemRead h addr len).data = Simulator.dpiMemRead h addr len := by
  rw [dpiMemRead, Simulator.dpiMemRead]
  split_ifs <;> rfl

theorem dpiMemWrite_host (data : BitVec 64) :
    (dpiMemWrite h addr len data).host = Simulator.dpiMemWrite h addr data len := by
  rw [dpiMemWrite, Simulator.dpiMemWrite]
  split_ifs <;> rfl

end Traced

/-- The accesses of a core, with the length of their own bytes, and the calls of
`paddr_read` and `paddr_write`. -/
inductive GuestAccess
  | fetch (addr : BitVec 64)
  | load (addr : BitVec 64) (len : Len)
  | store (addr : BitVec 64) (len : Len) (data : BitVec 64)
  | paddrRead (addr : BitVec 64) (len : Len)
  | paddrWrite (addr : BitVec 64) (len : Len) (data : BitVec 64)

namespace GuestAccess

def addr : GuestAccess → BitVec 64
  | .fetch a | .load a _ | .store a _ _ | .paddrRead a _ | .paddrWrite a _ _ => a

def len : GuestAccess → Len
  | .fetch _ => .word
  | .load _ l | .store _ l _ | .paddrRead _ l | .paddrWrite _ l _ => l

/-- The length the call passes on: `memory.v` asks eight bytes for any load. -/
def asked : GuestAccess → Len
  | .load _ _ => .dword
  | a => a.len

def run (h : Host) : GuestAccess → Traced
  | .fetch a => .dpiInstrMemRead h a
  | .load a _ => .dpiMemRead h a .dword
  | .store a l data => .dpiMemWrite h a l data
  | .paddrRead a l => .paddrRead h a l
  | .paddrWrite a l data => .paddrWrite h a l data

def perform (h : Host) : GuestAccess → Traced
  | .fetch a => .pmemRead h a .word
  | .load a _ => .pmemRead h a .dword
  | .store a l data => .pmemWrite h a l data
  | .paddrRead a l => .pmemRead h a l
  | .paddrWrite a l data => .pmemWrite h a l data

def divert (h : Host) : GuestAccess → Traced
  | .store _ _ data => { Traced.reject h with host := Traced.putChar h data }
  | .paddrRead _ _ | .paddrWrite _ _ _ => .outOfBound h
  | _ => .reject h

def admitted : GuestAccess → Bool
  | .fetch a => configMbase ≤ a ∧ a < configMbase + configMsize
  | .load a _ => a ≠ 0
  | .store a _ _ => a ≠ configSerialMmio
  | .paddrRead a _ | .paddrWrite a _ _ => Traced.inPmem a

def Inside (addr : BitVec 64) (n : Nat) : Prop :=
  configMbase.toNat ≤ addr.toNat ∧ addr.toNat + n ≤ configMbase.toNat + configMsize.toNat

instance (addr : BitVec 64) (n : Nat) : Decidable (Inside addr n) :=
  inferInstanceAs (Decidable (_ ∧ _))

/-- The access touches only `pmem`, and is performed if its own bytes lie in it. -/
def Safe (h : Host) (a : GuestAccess) : Prop :=
  (∀ i ∈ (a.run h).touched, i.toNat < configMsize.toNat) ∧
    (Inside a.addr a.len.bytes → a.run h = a.perform h)

section Run

variable (h : Host) {a : GuestAccess}

theorem run_of_admitted (ha : a.admitted = true) : a.run h = a.perform h := by
  cases a with
  | fetch addr => exact if_pos (of_decide_eq_true ha)
  | load addr l => exact if_neg (of_decide_eq_true ha)
  | store addr l data => exact if_neg (of_decide_eq_true ha)
  | paddrRead addr l => exact if_pos ha
  | paddrWrite addr l data => exact if_pos ha

theorem run_of_not_admitted (ha : a.admitted = false) : a.run h = a.divert h := by
  cases a with
  | fetch addr => exact if_neg (of_decide_eq_false ha)
  | load addr l => exact if_pos (of_not_not (of_decide_eq_false ha))
  | store addr l data => exact if_pos (of_not_not (of_decide_eq_false ha))
  | paddrRead addr l => exact if_neg (Bool.eq_false_iff.mp ha)
  | paddrWrite addr l data => exact if_neg (Bool.eq_false_iff.mp ha)

theorem touched_divert (a : GuestAccess) : (a.divert h).touched = [] := by
  cases a <;> rfl

theorem pmem_divert (a : GuestAccess) : (a.divert h).host.pmem = h.pmem := by
  cases a <;> rfl

theorem touched_perform (a : GuestAccess) :
    (a.perform h).touched = span (guestToHost a.addr) a.asked.bytes := by
  cases a <;> rfl

theorem pmem_run (a : GuestAccess) {i : BitVec 64} (hi : i ∉ (a.run h).touched) :
    (a.run h).host.pmem i = h.pmem i := by
  cases ha : a.admitted with
  | false => rw [run_of_not_admitted h ha, pmem_divert]
  | true =>
    rw [run_of_admitted h ha] at hi ⊢
    cases a with
    | store addr l data => exact store_of_not_mem_span h.pmem data hi
    | paddrWrite addr l data => exact store_of_not_mem_span h.pmem data hi
    | _ => rfl

theorem data_run {h' : Host} (a : GuestAccess)
    (hh : ∀ i ∈ (a.run h).touched, h.pmem i = h'.pmem i) :
    (a.run h).data = (a.run h').data := by
  cases ha : a.admitted with
  | false =>
    rw [run_of_not_admitted h ha, run_of_not_admitted h' ha]
    cases a <;> rfl
  | true =>
    rw [run_of_admitted h ha] at hh ⊢
    rw [run_of_admitted h' ha]
    cases a with
    | store addr l data => rfl
    | paddrWrite addr l data => rfl
    | _ => exact congrArg (BitVec.setWidth 64) (load_congr hh)

end Run

theorem inside_iff (addr : BitVec 64) {n : Nat} (hn : 0 < n) (hn8 : n ≤ 8) :
    (∀ i ∈ span (guestToHost addr) n, i.toNat < configMsize.toNat) ↔ Inside addr n := by
  rw [span_lt_iff hn (by omega) (by decide), Inside, guestToHost, BitVec.toNat_sub]
  have hb : configMbase.toNat = 0x80000000 := rfl
  have hs : configMsize.toNat = 0x8000000 := rfl
  have ha := addr.isLt
  omega

theorem inPmem_of_inside {addr : BitVec 64} {n : Nat} (h : Inside addr n) :
    Traced.inPmem addr = true := by
  obtain ⟨hl, hr⟩ := h
  have hle := Nat.le_trans (Nat.le_add_right _ _) hr
  simp only [Traced.inPmem, Bool.and_eq_true, decide_eq_true_eq]
  exact ⟨BitVec.le_def.mpr hl, BitVec.le_def.mpr hle⟩

theorem not_inside_zero (n : Nat) : ¬ Inside 0 n := fun h => absurd h.1 (by decide)

theorem not_inside_serial (n : Nat) : ¬ Inside configSerialMmio n := fun h =>
  absurd (Nat.le_trans (Nat.le_add_right _ _) h.2) (by decide)

theorem admitted_of_inside {a : GuestAccess} (ha : Inside a.addr a.len.bytes) :
    a.admitted = true := by
  cases a with
  | fetch addr =>
    have hlt := Nat.lt_of_lt_of_le (Nat.lt_add_of_pos_right (show 0 < 4 by decide)) ha.2
    exact decide_eq_true ⟨BitVec.le_def.mpr ha.1, BitVec.lt_def.mpr hlt⟩
  | load addr l =>
    apply decide_eq_true
    intro h0
    cases h0
    exact not_inside_zero _ ha
  | store addr l data =>
    apply decide_eq_true
    intro h0
    cases h0
    exact not_inside_serial _ ha
  | paddrRead addr l => exact inPmem_of_inside ha
  | paddrWrite addr l data => exact inPmem_of_inside ha

/-- An access is safe exactly when its range test turns it away or the bytes the
call asks for lie in memory. -/
theorem safe_iff (h : Host) (a : GuestAccess) :
    a.Safe h ↔ (a.admitted = true → Inside a.addr a.asked.bytes) := by
  have h8 : 0 < a.asked.bytes ∧ a.asked.bytes ≤ 8 := by
    cases a.asked <;> decide
  cases ha : a.admitted with
  | false =>
    refine iff_of_true ⟨?_, fun hi => ?_⟩ fun hc => by cases hc
    · rw [run_of_not_admitted h ha, touched_divert]
      exact fun i hi => by cases hi
    · cases ha.symm.trans (admitted_of_inside hi)
  | true =>
    rw [Safe, run_of_admitted h ha, touched_perform, inside_iff _ h8.1 h8.2]
    exact ⟨fun hs _ => hs.1, fun hs => ⟨hs rfl, fun _ => rfl⟩⟩

/-- `lb` of the last byte of memory reads seven bytes behind it. -/
theorem not_safe_last_byte : ¬ (GuestAccess.load 0x87ffffff .byte).Safe ⟨fun _ => 0, []⟩ := by
  intro h
  exact absurd (h.1 configMsize (by decide)) (by decide)

end GuestAccess

end LinuxCpu.Simulator
