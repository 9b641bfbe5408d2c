import LinuxCpu.RiscV.Semantics

/-! Runs of a hart without an environment on the program `fetch` gives. -/

namespace LinuxCpu.RiscV

open ByteMemory

/-- A call of the environment that nobody takes moves on to the next instruction. -/
def Instr.step (i : Instr) (s : State w) : State w := (i.exec s).getD { s with pc := s.pc + 4 }

def State.fetch (s : State w) : BitVec 32 := load s.mem s.pc 4

theorem Instr.step_pc (i : Instr) (s : State w) :
    (i.step s).pc = (i.transfer s.pc (s.get i.rs1) (s.get i.rs2)).getD (s.pc + 4) := by
  cases i <;> rfl

theorem Instr.step_regs (i : Instr) (s : State w) (r : Reg) :
    (i.step s).regs r = if i.dest = some r ∧ r ≠ 0 then i.value s else s.regs r := by
  have hset (rd : Reg) (v : BitVec w) :
      (s.set rd v).regs r = if some rd = some r ∧ r ≠ 0 then v else s.regs r := by
    rw [State.set]
    by_cases h0 : rd = 0
    · rw [if_pos h0, if_neg fun h => h.2 (Option.some.inj h.1 ▸ h0)]
    · rw [if_neg h0]
      by_cases hr : rd = r
      · subst hr
        exact (Function.update_self ..).trans (if_pos ⟨rfl, h0⟩).symm
      · rw [if_neg fun h => hr (Option.some.inj h.1)]
        exact Function.update_of_ne (Ne.symm hr) ..
  cases i with
  | branch | store | fence | ecall | ebreak => exact (if_neg fun h => by cases h.1).symm
  | _ => exact hset _ _

def Instr.write? (i : Instr) (s : State w) : Option (Write w w) :=
  match i with
  | .store op rs1 rs2 imm => some ⟨s.get rs1 + imm.signExtend w, op.len, s.get rs2⟩
  | _ => none

theorem Instr.step_mem (i : Instr) (s : State w) :
    (i.step s).mem = (i.write? s).elim s.mem fun x => ByteMemory.store s.mem x.addr x.len x.data := by
  cases i with
  | branch | store | fence | ecall | ebreak => rfl
  | _ =>
    have hset (rd : Reg) (v : BitVec w) : (s.set rd v).mem = s.mem := by
      rw [State.set]
      split <;> rfl
    exact hset _ _

structure Retirement (w : Nat) where
  pc : BitVec w
  instr : BitVec 32
  nextPc : BitVec w
  deriving DecidableEq

section Runs

variable (fetch : State w → BitVec 32) (ok : Instr → State w → Prop)

/-- The instruction at `pc`, which `ok` admits, takes `s` to `t`. -/
def Step (s t : State w) : Prop := ∃ i : Instr, fetch s = i.encode ∧ ok i s ∧ t = i.step s

inductive Run : State w → List (Retirement w) → State w → Prop
  | nil : Run s [] s
  | cons : Step fetch ok s t → Run t rs u → Run s (⟨s.pc, fetch s, t.pc⟩ :: rs) u

end Runs

variable {fetch : State w → BitVec 32} {ok ok' : Instr → State w → Prop}

theorem Run.single (h : Step fetch ok s t) : Run fetch ok s [⟨s.pc, fetch s, t.pc⟩] t :=
  .cons h .nil

theorem Run.append (h : Run fetch ok s rs t) (h' : Run fetch ok t rs' u) :
    Run fetch ok s (rs ++ rs') u := by
  induction h with
  | nil => exact h'
  | cons hs _ ih => exact .cons hs (ih h')

theorem Step.mono (h : Step fetch ok s t) (hok : ∀ i, ok i s → ok' i s) : Step fetch ok' s t := by
  obtain ⟨i, hf, hi, ht⟩ := h
  exact ⟨i, hf, hok i hi, ht⟩

theorem Run.mono (h : Run fetch ok s rs t) (hok : ∀ i s, ok i s → ok' i s) :
    Run fetch ok' s rs t := by
  induction h with
  | nil => exact .nil
  | cons hs _ ih => exact .cons (hs.mono fun i => hok i _) ih

end LinuxCpu.RiscV
