import Mathlib.Data.Nat.Bitwise
import Mathlib.Tactic.Positivity

namespace LinuxCpu.Bits

def bits (w : Nat) (l : List Bool) : BitVec w := (BitVec.ofBoolListBE l).setWidth w

@[simp] theorem getElem_bits (l : List Bool) (i : Nat) (h : i < w) :
    (bits w l)[i] = (decide (i < l.length) && l.getD (l.length - 1 - i) false) := by
  simp [bits]

def hot (w : Nat) : Option Nat → BitVec w
  | some k => BitVec.twoPow w k
  | none => 0

@[simp] theorem getElem_hot (k : Option Nat) (j : Nat) (h : j < w) :
    (hot w k)[j] = (k == some j) := by
  cases k with
  | none => exact BitVec.getElem_zero h
  | some k =>
    rw [hot, BitVec.getElem_twoPow, Bool.eq_iff_iff, decide_eq_true_eq, beq_iff_eq,
      Option.some.injEq]
    exact eq_comm

theorem getLsbD_hot (k : Option Nat) (h : j < w) : (hot w k).getLsbD j = (k == some j) := by
  rw [BitVec.getLsbD_eq_getElem h, getElem_hot]

theorem toNat_append_add (x : BitVec n) (y : BitVec m) :
    (x ++ y).toNat = x.toNat * 2 ^ m + y.toNat := by
  rw [BitVec.toNat_append, ← Nat.shiftLeft_add_eq_or_of_lt y.isLt, Nat.shiftLeft_eq]

theorem extractLsb'_append_low (x : BitVec n) (y : BitVec m) : (x ++ y).extractLsb' 0 m = y := by
  apply BitVec.eq_of_toNat_eq
  rw [BitVec.extractLsb'_toNat, Nat.shiftRight_zero, toNat_append_add, Nat.mul_add_mod_self_right,
    Nat.mod_eq_of_lt y.isLt]

theorem extractLsb'_append_high (x : BitVec n) (y : BitVec m) : (x ++ y).extractLsb' m n = x := by
  apply BitVec.eq_of_toNat_eq
  rw [BitVec.extractLsb'_toNat, Nat.shiftRight_eq_div_pow, toNat_append_add, Nat.mul_comm,
    Nat.mul_add_div (Nat.two_pow_pos m), Nat.div_eq_of_lt y.isLt, Nat.add_zero,
    Nat.mod_eq_of_lt x.isLt]

theorem fill_append_eq_signExtend (x : BitVec n) {b : Bool} (h : b = x.msb) :
    BitVec.fill k b ++ x = x.signExtend (k + n) := by
  subst h
  apply BitVec.eq_of_getLsbD_eq
  intro i hi
  simp only [BitVec.getLsbD_append, BitVec.getLsbD_fill, BitVec.getLsbD_signExtend, hi,
    decide_true, Bool.true_and]
  split
  · rfl
  · simp [show i - n < k by omega]

theorem fill_extractLsb'_eq_signExtend (x : BitVec n) (hm : 0 < m) :
    BitVec.fill k (x.getLsbD (m - 1)) ++ x.extractLsb' 0 m =
      (x.extractLsb' 0 m).signExtend (k + m) := by
  apply fill_append_eq_signExtend _
  rw [BitVec.msb_eq_getLsbD_last, BitVec.getLsbD_extractLsb', decide_eq_true (by omega),
    Bool.true_and, Nat.zero_add]

theorem zero_append_eq_setWidth (x : BitVec n) : 0#k ++ x = x.setWidth (k + n) := by
  apply BitVec.eq_of_toNat_eq
  rw [toNat_append_add, BitVec.toNat_setWidth, BitVec.toNat_ofNat, Nat.zero_mod, Nat.zero_mul,
    Nat.zero_add, Nat.mod_eq_of_lt]
  exact Nat.lt_of_lt_of_le x.isLt (Nat.pow_le_pow_right (by omega) (by omega))

theorem extractLsb'_zero_eq_setWidth (x : BitVec n) (h : k ≤ n) :
    x.extractLsb' 0 k = x.setWidth k :=
  (BitVec.setWidth_eq_extractLsb' h).symm

theorem extractLsb'_extractLsb' (x : BitVec n) (h : i + k ≤ m) :
    (x.extractLsb' j m).extractLsb' i k = x.extractLsb' (j + i) k := by
  apply BitVec.eq_of_getLsbD_eq
  intro t ht
  simp only [BitVec.getLsbD_extractLsb', ht, decide_true, Bool.true_and, Nat.add_assoc]
  simp only [show i + t < m by omega, decide_true, Bool.true_and]

theorem extractLsb'_ofInt (z : Int) (n m : Nat) :
    (BitVec.ofInt (n + m) z).extractLsb' n m = BitVec.ofInt m (z / 2 ^ n) := by
  have hdiv : z % 2 ^ (n + m) / 2 ^ n = z / 2 ^ n + 2 ^ m * -(z / 2 ^ (n + m)) := by
    rw [Int.emod_def, Int.pow_add, Int.mul_assoc, Int.sub_eq_add_neg, ← Int.mul_neg, ← Int.mul_neg,
      Int.add_mul_ediv_left _ _ (Int.pow_ne_zero (by decide))]
  have hnn : 0 ≤ z % ((2 ^ (n + m) : Nat) : Int) := Int.emod_nonneg _ (by positivity)
  apply BitVec.eq_of_toInt_eq
  rw [BitVec.toInt_extractLsb', BitVec.toInt_ofInt, BitVec.toNat_ofInt, Nat.shiftRight_eq_div_pow]
  push_cast
  rw [Int.toNat_of_nonneg (by exact_mod_cast hnn), hdiv]
  exact_mod_cast Int.add_mul_bmod_self_left ..

theorem fill_and (b : Bool) (x : BitVec w) : BitVec.fill w b &&& x = if b then x else 0 := by
  cases b with
  | false =>
    rw [BitVec.fill_false, BitVec.zero_and, if_neg Bool.false_ne_true]
    rfl
  | true => rw [BitVec.fill_true, BitVec.allOnes_and, if_pos rfl]

theorem append_halves (x : BitVec (w + w)) : x.extractLsb' w w ++ x.setWidth w = x := by
  apply BitVec.eq_of_getLsbD_eq
  intro i hi
  simp only [BitVec.getLsbD_append, BitVec.getLsbD_setWidth, BitVec.getLsbD_extractLsb']
  split
  · next h => rw [decide_eq_true h, Bool.true_and]
  · next h => rw [decide_eq_true (by omega), Bool.true_and, Nat.add_sub_cancel' (by omega)]

theorem append_add_append (high low high' low' : BitVec w) (hw : 0 < w) :
    (high ++ low) + (high' ++ low') =
      (high + high' + if low + low' < low then 1 else 0) ++ (low + low') := by
  have hl := low.isLt
  have hl' := low'.isLt
  have hp := Nat.two_pow_pos w
  have hone : (1#w).toNat = 1 := by
    rw [BitVec.toNat_ofNat, Nat.mod_eq_of_lt (Nat.one_lt_two_pow (by omega))]
  have hcarry : (if low + low' < low then 1#w else 0#w).toNat =
      (low.toNat + low'.toNat) / 2 ^ w := by
    by_cases h : low.toNat + low'.toNat < 2 ^ w
    · have hnot : ¬ low + low' < low := by
        rw [BitVec.lt_def, BitVec.toNat_add, Nat.mod_eq_of_lt h]
        omega
      rw [if_neg hnot, Nat.div_eq_of_lt h]
      rfl
    · have hdiv : (low.toNat + low'.toNat) / 2 ^ w = 1 := Nat.div_eq_of_lt_le (by omega) (by omega)
      have hmod := Nat.div_add_mod (low.toNat + low'.toNat) (2 ^ w)
      rw [hdiv] at hmod
      have hlt : low + low' < low := by
        rw [BitVec.lt_def, BitVec.toNat_add]
        omega
      rw [if_pos hlt, hdiv, hone]
  have hsum : (high ++ low).toNat + (high' ++ low').toNat =
      (high.toNat + high'.toNat) * 2 ^ w + (low.toNat + low'.toNat) := by
    rw [toNat_append_add, toNat_append_add, Nat.add_mul]
    omega
  apply BitVec.eq_of_toNat_eq
  generalize (if low + low' < low then 1#w else 0#w) = carry at hcarry ⊢
  rw [BitVec.toNat_add, hsum, Nat.pow_add, Nat.mod_mul, Nat.mul_add_mod_self_right,
    Nat.mul_comm (_ + _), Nat.mul_add_div hp, toNat_append_add, BitVec.toNat_add _ carry, hcarry,
    BitVec.toNat_add high, BitVec.toNat_add low, Nat.mod_add_mod, Nat.mul_comm, Nat.add_comm]

theorem funnel (high low : BitVec w) (hk : k < w) :
    high <<< (w - k) ||| low >>> k = ((high ++ low) >>> k).setWidth w := by
  apply BitVec.eq_of_getLsbD_eq
  intro i hi
  simp only [BitVec.getLsbD_or, BitVec.getLsbD_shiftLeft, BitVec.getLsbD_ushiftRight,
    BitVec.getLsbD_setWidth, BitVec.getLsbD_append, hi, decide_true, Bool.true_and]
  by_cases h : k + i < w
  · rw [if_pos h, decide_eq_true (by omega : i < w - k)]
    rfl
  · rw [if_neg h, decide_eq_false (by omega : ¬ i < w - k), BitVec.getLsbD_of_ge low _ (by omega),
      Bool.or_false, (by omega : i - (w - k) = k + i - w)]
    rfl

theorem low_shiftLeft (high low : BitVec w) (k : Nat) :
    low <<< k = ((high ++ low) <<< k).setWidth w := by
  apply BitVec.eq_of_getLsbD_eq
  intro i hi
  simp only [BitVec.getLsbD_shiftLeft, BitVec.getLsbD_setWidth, BitVec.getLsbD_append, hi,
    decide_true, Bool.true_and, decide_eq_true (by omega : i < w + w)]
  rw [if_pos (by omega)]

theorem extractLsb'_shiftLeft (x : BitVec (w + w)) (hk : k ≤ w) :
    (x <<< k).extractLsb' w w = (x >>> (w - k)).setWidth w := by
  apply BitVec.eq_of_getLsbD_eq
  intro i hi
  simp only [BitVec.getLsbD_extractLsb', BitVec.getLsbD_shiftLeft, BitVec.getLsbD_setWidth,
    BitVec.getLsbD_ushiftRight, hi, decide_true, Bool.true_and,
    decide_eq_true (by omega : w + i < w + w), decide_eq_false (by omega : ¬ w + i < k),
    Bool.not_false, (by omega : w + i - k = w - k + i)]

theorem fill_word (v : BitVec 32) : BitVec.fill 32 (v.getLsbD 31) ++ v = v.signExtend 64 :=
  fill_append_eq_signExtend v rfl

theorem fill_low (v : BitVec 64) : BitVec.fill 32 (v.getLsbD 31) ++ v.extractLsb' 0 32 =
    (v.setWidth 32).signExtend 64 := by
  rw [← extractLsb'_zero_eq_setWidth v (by decide)]
  exact fill_extractLsb'_eq_signExtend v (by decide)

end LinuxCpu.Bits
