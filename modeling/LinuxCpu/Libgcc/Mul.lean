import LinuxCpu.Lib.BitSerial
import LinuxCpu.RiscV.Program
import Mathlib.Data.BitVec

/-! `muldi3.S` of `libgcc`: multiplication on a hart without the M extension. -/

namespace LinuxCpu.Libgcc

open RiscV Asm

namespace MuldiS

def L1 : Nat := 2
def L2 : Nat := 5

def rel (k label : Nat) : Int := label - k

/-- `__muldi3`, or `__mulsi3` where registers have 32 bits. -/
def code : List Instr :=
  [mv a2 a0,
    li a0 0,
    -- .L1
    .opImm .andi a3 a1 1,
    beqz a3 (rel 3 L2),
    .opReg .add a0 a0 a2,
    -- .L2
    srli a1 a1 1,
    slli a2 a2 1,
    bnez a1 (rel 7 L1),
    ret]

end MuldiS

open MuldiS

variable {w : Nat} {fetch : State w → BitVec 32} {ok : Instr → State w → Prop} {base : BitVec w}
  {s : State w} (ra' t0' : BitVec w) {p acc m n x : BitVec w}

theorem and_one_eq_zero_iff (hw : 0 < w) (n : BitVec w) : n &&& 1#w = 0 ↔ n.toNat % 2 = 0 := by
  rw [← BitVec.toNat_inj, BitVec.toNat_and, BitVec.toNat_ofNat,
    Nat.mod_eq_of_lt (Nat.one_lt_two_pow (by omega)), Nat.and_one_is_mod]
  exact Iff.rfl

theorem toNat_ushiftRight_one (n : BitVec w) : (n >>> 1).toNat = n.toNat / 2 := by
  rw [BitVec.toNat_ushiftRight, Nat.shiftRight_eq_div_pow, Nat.pow_one]

theorem shiftLeft_one (m : BitVec w) : m <<< 1 = 2 * m := by
  apply BitVec.eq_of_toNat_eq
  rw [two_mul, BitVec.toNat_shiftLeft, BitVec.toNat_add, Nat.shiftLeft_eq, Nat.pow_one,
    Nat.mul_two]

theorem add_odd (h : Loaded fetch ok base MuldiS.code s.mem) (hw : 0 < w)
    (hi : ShiftAdd.Inv p acc m n.toNat) :
    ∃ acc' x', Reach fetch ok 3 (s.on base L1 ⟨ra', t0', acc, n, m, x⟩)
        (s.on base L2 ⟨ra', t0', acc', n, m, x'⟩) ∧
      ShiftAdd.Inv p acc' (2 * m) (n.toNat / 2) := by
  have hbit : Reach fetch ok 1 (s.on base L1 ⟨ra', t0', acc, n, m, x⟩)
      (s.on base 3 ⟨ra', t0', acc, n, m, n &&& 1#w⟩) := by
    rw [← signExtend_one w]
    exact h.andi (by rfl : MuldiS.code[L1]? = some (.opImm .andi a3 a1 1)) rfl rfl
  have hk : MuldiS.code[3]? = some (beqz a3 (rel 3 L2)) := rfl
  rcases Nat.mod_two_eq_zero_or_one n.toNat with heven | hodd
  · have h0 : n &&& 1#w = 0 := (and_one_eq_zero_iff hw n).mpr heven
    have hskip : Reach fetch ok 1 (s.on base 3 ⟨ra', t0', acc, n, m, n &&& 1#w⟩)
        (s.on base L2 ⟨ra', t0', acc, n, m, n &&& 1#w⟩) :=
      h.taken (f := ⟨ra', t0', acc, n, m, n &&& 1#w⟩) hk (.inl rfl) (.inr rfl) (by decide)
        (beq_iff_eq.mpr h0)
    exact ⟨acc, _, (hbit.trans hskip).mono (by decide), hi.even heven⟩
  · have h0 : n &&& 1#w ≠ 0 := by
      rw [Ne, and_one_eq_zero_iff hw, hodd]
      decide
    have hadd : Reach fetch ok (1 + 1) (s.on base 3 ⟨ra', t0', acc, n, m, n &&& 1#w⟩)
        (s.on base L2 ⟨ra', t0', acc + m, n, m, n &&& 1#w⟩) :=
      (h.next (f := ⟨ra', t0', acc, n, m, n &&& 1#w⟩) hk (.inl rfl) (.inr rfl)
        (beq_eq_false_iff_ne.mpr h0)).trans
        (h.opReg (by rfl : MuldiS.code[4]? = some (.opReg .add a0 a0 a2)) rfl (.inl rfl)
          (.inl rfl))
    exact ⟨acc + m, _, (hbit.trans hadd).mono (by decide), hi.odd hodd⟩

theorem shift_both (h : Loaded fetch ok base MuldiS.code s.mem) (hw : 1 < w) :
    Reach fetch ok (1 + 1) (s.on base L2 ⟨ra', t0', acc, n, m, x⟩)
      (s.on base 7 ⟨ra', t0', acc, n >>> 1, 2 * m, x⟩) := by
  rw [← shiftLeft_one]
  exact (h.srli (f := ⟨ra', t0', acc, n, m, x⟩)
    (by rfl : MuldiS.code[L2]? = some (srli a1 a1 1)) rfl rfl hw).trans
    (h.slli (by rfl : MuldiS.code[6]? = some (slli a2 a2 1)) rfl rfl hw)

theorem pass (h : Loaded fetch ok base MuldiS.code s.mem) (hw : 1 < w)
    (hi : ShiftAdd.Inv p acc m n.toNat) :
    ∃ acc' x', Reach fetch ok 5 (s.on base L1 ⟨ra', t0', acc, n, m, x⟩)
        (s.on base 7 ⟨ra', t0', acc', n >>> 1, 2 * m, x'⟩) ∧
      ShiftAdd.Inv p acc' (2 * m) (n >>> 1).toNat := by
  obtain ⟨acc', x', hadd, hi'⟩ := add_odd ra' t0' h (Nat.zero_lt_of_lt hw) hi (x := x)
  rw [← toNat_ushiftRight_one] at hi'
  exact ⟨acc', x', hadd.trans (shift_both ra' t0' h hw), hi'⟩

theorem last_pass (h : Loaded fetch ok base MuldiS.code s.mem) (hw : 1 < w) (h0 : n >>> 1 = 0)
    (hi : ShiftAdd.Inv p acc m n.toNat) :
    ∃ x', Reach fetch ok 6 (s.on base L1 ⟨ra', t0', acc, n, m, x⟩)
      (s.on base 8 ⟨ra', t0', p, n >>> 1, 2 * m, x'⟩) := by
  obtain ⟨acc', x', hpass, hi'⟩ := pass ra' t0' h hw hi (x := x)
  have hz : (n >>> 1).toNat = 0 := congrArg BitVec.toNat h0
  rw [hz] at hi'
  obtain rfl := hi'.finish
  have hout : Reach fetch ok 1 (s.on base 7 ⟨ra', t0', acc', n >>> 1, 2 * m, x'⟩)
      (s.on base 8 ⟨ra', t0', acc', n >>> 1, 2 * m, x'⟩) :=
    h.next (f := ⟨ra', t0', acc', n >>> 1, 2 * m, x'⟩)
      (by rfl : MuldiS.code[7]? = some (bnez a1 (rel 7 L1))) (.inl rfl) (.inr rfl)
      (bne_eq_false_iff_eq.mpr h0)
  exact ⟨x', hpass.trans hout⟩

theorem multiply (h : Loaded fetch ok base MuldiS.code s.mem) (hw : 1 < w) {j : Nat}
    (hn : n.toNat < 2 ^ (j + 1)) (hi : ShiftAdd.Inv p acc m n.toNat) :
    ∃ n' m' x', Reach fetch ok (6 * (j + 1)) (s.on base L1 ⟨ra', t0', acc, n, m, x⟩)
      (s.on base 8 ⟨ra', t0', p, n', m', x'⟩) := by
  induction j generalizing acc n m x with
  | zero =>
    have hz : n.toNat / 2 = 0 := Nat.div_eq_of_lt hn
    have h0 : n >>> 1 = 0 := BitVec.eq_of_toNat_eq ((toNat_ushiftRight_one n).trans hz)
    obtain ⟨x', hr⟩ := last_pass ra' t0' h hw h0 hi (x := x)
    exact ⟨_, _, x', hr⟩
  | succ j ih =>
    by_cases h0 : n >>> 1 = 0
    · obtain ⟨x', hr⟩ := last_pass ra' t0' h hw h0 hi (x := x)
      exact ⟨_, _, x', hr.mono (by omega)⟩
    · obtain ⟨acc', x', hpass, hi'⟩ := pass ra' t0' h hw hi (x := x)
      have hback : Reach fetch ok 1 (s.on base 7 ⟨ra', t0', acc', n >>> 1, 2 * m, x'⟩)
          (s.on base L1 ⟨ra', t0', acc', n >>> 1, 2 * m, x'⟩) :=
        h.taken (f := ⟨ra', t0', acc', n >>> 1, 2 * m, x'⟩)
          (by rfl : MuldiS.code[7]? = some (bnez a1 (rel 7 L1))) (.inl rfl) (.inr rfl)
          (by decide) (bne_iff_ne.mpr h0)
      have hlt : (n >>> 1).toNat < 2 ^ (j + 1) := by
        rw [toNat_ushiftRight_one]
        rw [Nat.pow_succ] at hn
        omega
      obtain ⟨n', m', y, hrest⟩ := ih hlt hi' (x := x')
      exact ⟨n', m', y, ((hpass.trans hback).trans hrest).mono (by omega)⟩

theorem mul_eval (a b : BitVec w) : MulDivOp.mul.eval a b = a * b := by
  rw [MulDivOp.eval, BitVec.ofInt_mul, BitVec.ofInt_toInt, BitVec.ofInt_toInt]

theorem muldi3_returns (h : Loaded fetch ok base MuldiS.code s.mem) (hw : 1 < w)
    (hpc : s.pc = base) :
    Returns fetch ok (6 * w + 3) s (MulDivOp.mul.eval (s.get a0) (s.get a1)) := by
  have hs : s = s.on base 0 s.frame := by
    rw [State.on, slot_zero, ← hpc, State.put_frame]
  let f := s.frame
  have hinit : Reach fetch ok (1 + 1) (s.on base 0 f)
      (s.on base L1 ⟨f.ra, f.t0, 0, f.a1, f.a0, f.a3⟩) :=
    (h.mv (f := f) (by rfl : MuldiS.code[0]? = some (mv a2 a0)) rfl rfl).trans
      (h.li (by rfl : MuldiS.code[1]? = some (li a0 0)) rfl (signExtend_zero 12 w))
  have hinv : ShiftAdd.Inv (f.a0 * f.a1) 0 f.a0 f.a1.toNat := by
    have hb := ShiftAdd.Inv.start f.a0 f.a1.toNat
    rwa [BitVec.natCast_eq_ofNat, BitVec.ofNat_toNat, BitVec.setWidth_eq] at hb
  have hb : f.a1.toNat < 2 ^ (w - 1 + 1) := by
    rw [Nat.sub_add_cancel (Nat.le_of_lt hw)]
    exact f.a1.isLt
  obtain ⟨n', m', x', hmul⟩ := multiply f.ra f.t0 h hw hb hinv (x := f.a3)
  have hret : Reach fetch ok 1 (s.on base 8 ⟨f.ra, f.t0, f.a0 * f.a1, n', m', x'⟩)
      (s.put (f.ra &&& ~~~1) ⟨f.ra, f.t0, f.a0 * f.a1, n', m', x'⟩) :=
    h.jr (f := ⟨f.ra, f.t0, f.a0 * f.a1, n', m', x'⟩) (by rfl : MuldiS.code[8]? = some ret) rfl
  have hrun := (hinit.trans hmul).trans hret
  rw [← hs] at hrun
  rw [Returns, mul_eval]
  exact ⟨_, hrun.mono (by omega), rfl⟩

end LinuxCpu.Libgcc
