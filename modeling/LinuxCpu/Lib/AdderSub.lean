import Mathlib.Algebra.Order.Ring.Int
import Mathlib.Data.BitVec
import Mathlib.Tactic.Ring

/-! Subtraction and comparison by one adder with carry, and shifts by at least the
width. -/

namespace LinuxCpu.AdderSub

section Adder

def sum (a b c : BitVec w) : BitVec (w + 1) :=
  a.setWidth (w + 1) + b.setWidth (w + 1) + c.setWidth (w + 1)

theorem setWidth_sum (a b c : BitVec w) : (sum a b c).setWidth w = a + b + c := by
  rw [sum, BitVec.setWidth_add _ _ (Nat.le_succ w), BitVec.setWidth_add _ _ (Nat.le_succ w)]
  simp

theorem sub_eq_add_not (a b : BitVec w) : a + ~~~b + 1 = a - b := by
  rw [BitVec.add_assoc, BitVec.sub_eq_add_neg, BitVec.neg_eq_not_add]
  rfl

theorem msb_sum_not (hw : 0 < w) (a b : BitVec w) :
    (sum a (~~~b) 1).msb = decide (b.toNat ≤ a.toNat) := by
  have ha := a.isLt
  have hb := b.isLt
  have hpow : 2 ^ (w + 1) = 2 * 2 ^ w := Nat.pow_succ'
  have hone : 1 < 2 ^ w := Nat.one_lt_two_pow (Nat.ne_of_gt hw)
  have h1 : (1 : BitVec w).toNat = 1 := Nat.mod_eq_of_lt hone
  have hsum : (sum a (~~~b) 1).toNat = a.toNat + (2 ^ w - 1 - b.toNat) + 1 := by
    simp only [sum, BitVec.toNat_add, BitVec.toNat_setWidth, BitVec.toNat_not, Nat.add_mod_mod,
      Nat.mod_add_mod, h1]
    exact Nat.mod_eq_of_lt (by omega)
  rw [BitVec.msb_eq_decide, hsum, decide_eq_decide, Nat.add_sub_cancel]
  omega

theorem msb_sub_of_msb_eq {a b : BitVec w} (h : a.msb = b.msb) : (a - b).msb = a.ult b := by
  have ha := a.isLt
  have hb := b.isLt
  rw [BitVec.msb_eq_decide, BitVec.msb_eq_decide, decide_eq_decide] at h
  cases w with
  | zero =>
    rw [BitVec.eq_nil a, BitVec.eq_nil b]
    rfl
  | succ w =>
    have hpow : 2 ^ (w + 1) = 2 * 2 ^ w := Nat.pow_succ'
    rw [Nat.add_sub_cancel] at h
    rw [BitVec.msb_eq_decide, BitVec.ult, decide_eq_decide, Nat.add_sub_cancel, BitVec.toNat_sub]
    by_cases hlt : a.toNat < b.toNat
    · rw [Nat.mod_eq_of_lt (by omega)]
      omega
    · rw [Nat.mod_eq_sub_mod (by omega), Nat.mod_eq_of_lt (by omega)]
      omega

theorem slt_eq_signs (a b : BitVec w) :
    a.slt b = (a.msb && !b.msb || !(a.msb ^^ b.msb) && (a - b).msb) := by
  by_cases h : a.msb = b.msb
  · rw [BitVec.slt_eq_ult_of_msb_eq h, msb_sub_of_msb_eq h, h]
    cases b.msb <;> simp
  · rw [BitVec.slt_eq_not_ult_of_msb_neq h, BitVec.ult_eq_msb_of_msb_neq h, Bool.eq_not_of_ne h]
    cases b.msb <;> simp

end Adder

section Shift

variable {a : BitVec w} {k n : Nat}

theorem shiftLeft_eq_zero_iff (hk : k < w) : a <<< k = 0 ↔ 2 ^ (w - k) ∣ a.toNat := by
  have hpow : 2 ^ w = 2 ^ (w - k) * 2 ^ k := by
    rw [← Nat.pow_add, Nat.sub_add_cancel (Nat.le_of_lt hk)]
  calc
    a <<< k = 0 ↔ (a.toNat * 2 ^ k) % 2 ^ w = 0 := by
      rw [← BitVec.toNat_inj, BitVec.toNat_shiftLeft, Nat.shiftLeft_eq]
      rfl
    _ ↔ 2 ^ (w - k) * 2 ^ k ∣ a.toNat * 2 ^ k := by rw [← Nat.dvd_iff_mod_eq_zero, hpow]
    _ ↔ 2 ^ (w - k) ∣ a.toNat := Nat.mul_dvd_mul_iff_right (Nat.two_pow_pos k)

theorem ushiftRight_eq_zero_iff : a >>> k = 0 ↔ a.toNat < 2 ^ k := by
  rw [← BitVec.toNat_inj, BitVec.toNat_ushiftRight, Nat.shiftRight_eq_div_pow]
  exact Nat.div_eq_zero_iff_lt (Nat.two_pow_pos k)

theorem ediv_eq_sign_iff {x d : Int} (hd : 0 < d) :
    x / d = (if x < 0 then -1 else 0) ↔ -d ≤ x ∧ x < d := by
  rw [Int.ediv_eq_iff_of_pos hd]
  by_cases hx : x < 0
  · rw [if_pos hx]
    omega
  · rw [if_neg hx]
    omega

theorem sshiftRight_eq_iff (hn : w ≤ n) :
    a.sshiftRight n = a.sshiftRight k ↔ -2 ^ k ≤ a.toInt ∧ a.toInt < 2 ^ k := by
  have hpow : (2 : Int) ^ w ≤ 2 ^ n := by
    exact_mod_cast Nat.pow_le_pow_right (by decide : 0 < 2) hn
  have hlo := BitVec.le_two_mul_toInt (x := a)
  have hhi := BitVec.two_mul_toInt_lt (x := a)
  have hsign : a.toInt / 2 ^ n = if a.toInt < 0 then -1 else 0 :=
    (ediv_eq_sign_iff (Int.pow_pos (by decide))).mpr ⟨by omega, by omega⟩
  rw [← BitVec.toInt_inj, BitVec.toInt_sshiftRight, BitVec.toInt_sshiftRight,
    Int.shiftRight_eq_div_pow, Int.shiftRight_eq_div_pow]
  push_cast
  rw [hsign, eq_comm]
  exact ediv_eq_sign_iff (Int.pow_pos (by decide))

end Shift

end LinuxCpu.AdderSub
