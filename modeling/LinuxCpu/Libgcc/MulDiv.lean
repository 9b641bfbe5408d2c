import LinuxCpu.Libgcc.Mul
import LinuxCpu.Libgcc.SignedDiv

/-! `libgcc` in place of the M extension. -/

namespace LinuxCpu.Libgcc

open RiscV

/-- The code that is called for an instruction of the M extension, and where it
is entered. -/
def routine : MulDivOp → Option (List Instr × Nat)
  | .mul => some (MuldiS.code, 0)
  | op => (DivS.entry op).map (DivS.code, ·)

variable {w : Nat} {fetch : State w → BitVec 32} {ok : Instr → State w → Prop} {base : BitVec w}
  {s : State w}

theorem routine_returns {op : MulDivOp} {code : List Instr} {k : Nat}
    (hop : routine op = some (code, k)) (h : Loaded fetch ok base code s.mem) (hw : 1 < w)
    (hb : base.toNat % 4 = 0) (hpc : s.pc = slot base k) :
    Returns fetch ok (10 * w + 16) s (op.eval (s.get Asm.a0) (s.get Asm.a1)) := by
  by_cases hm : op = .mul
  · subst hm
    cases hop
    exact (muldi3_returns h hw (hpc.trans (slot_zero base))).mono (by omega)
  · have hop : (DivS.entry op).map (DivS.code, ·) = some (code, k) := by
      cases op with
      | mul => exact absurd rfl hm
      | _ => exact hop
    obtain ⟨j, hj, hjk⟩ := Option.map_eq_some_iff.mp hop
    cases hjk
    exact DivS.entry_returns h hw hb hj hpc

/-- For every instruction of the M extension but the high products there is a
routine that does the same in base instructions, whatever the operands: it
returns to its caller with the result in `a0`, and changes nothing but
registers that a caller saves. -/
theorem routine_computes (op : MulDivOp) (code : List Instr) (k : Nat) (base : BitVec w)
    (s : State w) (hop : routine op = some (code, k)) (h : Loaded fetch ok base code s.mem)
    (hw : 1 < w) (hb : base.toNat % 4 = 0) (hpc : s.pc = slot base k) :
    ∃ rs t, rs.length ≤ 10 * w + 16 ∧ Run fetch ok s rs t ∧ t.pc = s.get Asm.ra &&& ~~~1 ∧
      t.get Asm.a0 = op.eval (s.get Asm.a0) (s.get Asm.a1) ∧ t.mem = s.mem ∧
      ∀ r, Frame.has r = false → t.regs r = s.regs r :=
  (routine_returns hop h hw hb hpc).exists_run

theorem routine_computes_rem :
    let fetch := fun s : State 32 => rom 0x80000000 DivS.code s.pc
    let s : State 32 :=
      ⟨0x80000084, fun r => if r = Asm.a0 then -7 else if r = Asm.a1 then 2 else 0x80001001,
        fun _ => 0⟩
    ∃ rs t, rs.length ≤ 336 ∧ Run fetch (fun _ _ => True) s rs t ∧ t.pc = 0x80001000 ∧
      t.get Asm.a0 = -1 ∧ t.mem = s.mem ∧ ∀ r, Frame.has r = false → t.regs r = s.regs r := by
  intro fetch s
  obtain ⟨rs, t, hl, hr, hpc, ha, hrest⟩ := routine_computes .rem DivS.code DivS.moddi3 0x80000000
    s rfl (Loaded.rom (by decide) s.mem) (by decide) rfl rfl
  exact ⟨rs, t, hl, hr, hpc.trans (by decide), ha.trans (by decide), hrest⟩

end LinuxCpu.Libgcc
