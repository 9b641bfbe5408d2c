import LinuxCpu.Lib.Clocked
import Mathlib.Data.BitVec
import Mathlib.Logic.Function.Basic

/-! The simulator around a device under test: `sim.c` and `difftest.c`. -/

universe u v

namespace LinuxCpu.Simulator

structure Commit where
  pc : BitVec 64
  instr : BitVec 32
  prePc : BitVec 64
  deriving DecidableEq

abbrev Gpr := BitVec 5 → BitVec 64

/-- The verilated `dut`: a clock cycle under a value of `rst`, the output ports,
and the register file behind `reg_ptr`. -/
structure Dut (σ : Type u) where
  edge : Bool → σ → σ
  commit : σ → Bool
  commitPc : σ → BitVec 64
  commitPrePc : σ → BitVec 64
  commitInstr : σ → BitVec 32
  curPc : σ → BitVec 64
  regfile : σ → Gpr

structure CpuState where
  gpr : Gpr
  pc : BitVec 64

/-- The shared object behind `ref_difftest_exec` and, in the direction
`DIFFTEST_TO_DUT`, `ref_difftest_regcpy`. -/
structure Ref (ρ : Type v) where
  exec : Nat → ρ → ρ
  regcpy : ρ → CpuState

inductive SimState | simRunning | simStop | simEnd | simAbort | simQuit
  deriving DecidableEq

structure Check where
  ref : CpuState
  pc : BitVec 64
  nextPc : BitVec 64
  gpr : Gpr

structure Sim (σ : Type u) (ρ : Type v) where
  dut : σ
  clkCount : BitVec 64
  cpu : CpuState
  ref : ρ
  state : SimState
  /-- The calls of `instr_trace` so far. -/
  itrace : List (BitVec 64 × BitVec 64)
  checks : List Check

/-- What is printed before an `exit(1)`: the values of the reference, then of
the device. -/
inductive Report
  | resetPc (pc : BitVec 64)
  | pc (pc ref dut : BitVec 64)
  | gpr (pc : BitVec 64) (i : Nat) (ref dut : BitVec 64)
  deriving DecidableEq

/-- A call returns, the process exits, or a loop still waits when its fuel is
spent. -/
inductive Outcome (α : Type u)
  | returned (s : α)
  | exited (report : Report) (s : α)
  | waiting

def checkregs (ref : CpuState) (pc nextPc : BitVec 64) (gpr : Gpr) : Option Report :=
  if nextPc ≠ ref.pc then some (.pc pc ref.pc nextPc)
  else (List.range 32).findSome? fun i =>
    if ref.gpr (BitVec.ofNat 5 i) ≠ gpr (BitVec.ofNat 5 i) then
      some (.gpr pc i (ref.gpr (BitVec.ofNat 5 i)) (gpr (BitVec.ofNat 5 i)))
    else none

namespace Sim

variable {σ : Type u} {ρ : Type v} (D : Dut σ) (R : Ref ρ)

def npcSingleCycle (rst : Bool) (s : Sim σ ρ) : Sim σ ρ :=
  { s with dut := D.edge rst s.dut, clkCount := s.clkCount + 1 }

def updateCpuState (s : Sim σ ρ) : Sim σ ρ :=
  { s with cpu := ⟨D.regfile s.dut, D.curPc s.dut⟩ }

def npcReset (n : Nat) (s : Sim σ ρ) : Sim σ ρ := (npcSingleCycle D true)^[n] s

def npcInit (s : Sim σ ρ) : Outcome (Sim σ ρ) :=
  let s := updateCpuState D (npcReset D 1 s)
  if s.cpu.pc ≠ 0x80000000 then .exited (.resetPc s.cpu.pc) s else .returned s

def instrTrace (pc instr : BitVec 64) (s : Sim σ ρ) : Sim σ ρ :=
  { s with itrace := s.itrace ++ [(pc, instr)] }

def difftestStep (pc nextPc : BitVec 64) (s : Sim σ ρ) : Outcome (Sim σ ρ) :=
  let ref := R.exec 1 s.ref
  let refR := R.regcpy ref
  let s := { s with ref := ref, checks := s.checks ++ [⟨refR, pc, nextPc, s.cpu.gpr⟩] }
  match checkregs refR pc nextPc s.cpu.gpr with
  | none => .returned s
  | some report => .exited report s

/-- `while(dut.commit != 1) npc_single_cycle();` -/
def waitCommit : Nat → Sim σ ρ → Outcome (Sim σ ρ)
  | 0, s => if D.commit s.dut then .returned s else .waiting
  | fuel + 1, s =>
    if D.commit s.dut then .returned s else waitCommit fuel (npcSingleCycle D false s)

/-- Every wait of the loop gets the same `fuel`. -/
def execute (fuel : Nat) : Nat → Sim σ ρ → Outcome (Sim σ ρ)
  | 0, s => .returned s
  | n + 1, s =>
    match waitCommit D fuel s with
    | .returned s =>
      let commitPc := D.commitPc s.dut
      let commitPrePc := D.commitPrePc s.dut
      let commitInstr := (D.commitInstr s.dut).setWidth 64
      if D.commitInstr s.dut = 0x00100073 then
        .returned { instrTrace commitPc commitInstr s with state := .simEnd }
      else
        let s := updateCpuState D (npcSingleCycle D false s)
        match difftestStep R commitPc commitPrePc (instrTrace commitPc commitInstr s) with
        | .returned s => execute fuel n s
        | o => o
    | o => o

def cpuExec (fuel n : Nat) (s : Sim σ ρ) : Outcome (Sim σ ρ) :=
  match s.state with
  | .simEnd | .simAbort => .returned s
  | _ =>
    match execute D R fuel n { s with state := .simRunning } with
    | .returned s =>
      match s.state with
      | .simRunning => .returned { s with state := .simStop }
      | _ => .returned s
    | o => o

end Sim

end LinuxCpu.Simulator
