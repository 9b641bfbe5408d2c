import LinuxCpu.Lib.Bits
import LinuxCpu.Libgcc.Mul
import Mathlib.Tactic.LinearCombination

/-! `multi3.c` and `ashldi3.c` of `libgcc`, on numbers of two words. -/

namespace LinuxCpu.Libgcc

open RiscV

variable {w : Nat}

def low (u : BitVec (w + w)) : BitVec w := u.setWidth w

def high (u : BitVec (w + w)) : BitVec w := u.extractLsb' w w

def muluw3 (a b : BitVec w) : BitVec w := MulDivOp.mul.eval a b

namespace Multi3

structure Locals (w : Nat) where
  uLow : BitVec w
  vLow : BitVec w
  wLow : BitVec w
  wHigh : BitVec w
  wHighTmp : BitVec w

def body (s : Locals w) : Locals w :=
  let newWLow := s.wLow + s.uLow
  let wHighTmp2x := s.wHighTmp <<< 1
  let wHighTmp := s.wHighTmp + s.wHigh
  let odd := s.vLow &&& 1 ≠ 0
  let carry := if newWLow < s.wLow then 1 else 0
  let uLowMsb := s.uLow >>> (w - 1)
  { wLow := if odd then newWLow else s.wLow
    wHigh := if odd then carry + wHighTmp else s.wHigh
    vLow := s.vLow >>> 1
    uLow := s.uLow <<< 1
    wHighTmp := uLowMsb ||| wHighTmp2x }

/-- `do ... while (v_low)`, for as many passes as there is fuel. -/
def loop : Nat → Locals w → Option (Locals w)
  | 0, _ => none
  | fuel + 1, s =>
    let s := body s
    if s.vLow = 0 then some s else loop fuel s

end Multi3

open Multi3

def multi3 (fuel : Nat) (u v : BitVec (w + w)) : Option (BitVec (w + w)) := do
  let s ← loop fuel ⟨low u, low v, 0, 0, 0⟩
  let wHigh := if high u ≠ 0 then s.wHigh + muluw3 (low v) (high u) else s.wHigh
  let wHigh := if high v ≠ 0 then wHigh + muluw3 (low u) (high v) else wHigh
  return wHigh ++ s.wLow

/-- `none` where a shift amount is negative or as large as a word. -/
def ashldi3 (u : BitVec (w + w)) (b : Int) : Option (BitVec (w + w)) :=
  let shift (op : BitVec w → Nat → BitVec w) (x : BitVec w) (n : Int) : Option (BitVec w) :=
    if 0 ≤ n ∧ n < w then some (op x n.toNat) else none
  if b = 0 then some u
  else
    let bm := w - b
    if bm ≤ 0 then do
      let wHigh ← shift (· <<< ·) (low u) (-bm)
      return wHigh ++ 0#w
    else do
      let carries ← shift (· >>> ·) (low u) bm
      let wLow ← shift (· <<< ·) (low u) b
      let upper ← shift (· <<< ·) (high u) b
      return (upper ||| carries) ++ wLow

namespace Multi3

variable {p : BitVec (w + w)} {s : Locals w}

def Inv (p : BitVec (w + w)) (s : Locals w) : Prop :=
  ShiftAdd.Inv p (s.wHigh ++ s.wLow) (s.wHighTmp ++ s.uLow) s.vLow.toNat

theorem doubled (hw : 0 < w) (x y : BitVec w) :
    (y >>> (w - 1) ||| x <<< 1) ++ (y <<< 1) = (2 : BitVec (w + w)) * (x ++ y) := by
  have hfun := Bits.funnel x y (by omega : w - 1 < w)
  rw [(by omega : w - (w - 1) = 1)] at hfun
  rw [BitVec.or_comm, hfun, ← Bits.extractLsb'_shiftLeft _ hw, Bits.low_shiftLeft x y,
    Bits.append_halves, shiftLeft_one]

theorem Inv.body (h : Inv p s) (hw : 0 < w) : Inv p (body s) := by
  have hm := doubled hw s.wHighTmp s.uLow
  have hn := toNat_ushiftRight_one s.vLow
  have hodd := and_one_eq_zero_iff hw s.vLow
  rcases Nat.mod_two_eq_zero_or_one s.vLow.toNat with h0 | h1
  · have h' := ShiftAdd.Inv.even h h0
    rw [← hn, ← hm] at h'
    have hz : ¬ s.vLow &&& 1 ≠ 0 := not_not.mpr (hodd.mpr h0)
    rw [Inv, Multi3.body]
    simp only [if_neg hz]
    exact h'
  · have h' := ShiftAdd.Inv.odd h h1
    rw [← hn, ← hm, Bits.append_add_append _ _ _ _ hw] at h'
    have hnz : s.vLow &&& 1 ≠ 0 := fun h0 => by
      rw [hodd.mp h0] at h1
      cases h1
    rw [Inv, Multi3.body]
    simp only [if_pos hnz]
    rwa [add_comm s.wHigh, add_comm _ (ite _ _ _)] at h'

theorem Inv.last (h : Inv p s) (hw : 0 < w) (h0 : (Multi3.body s).vLow = 0) (fuel : Nat) :
    ∃ s', loop (fuel + 1) s = some s' ∧ s'.wHigh ++ s'.wLow = p := by
  have hb : ShiftAdd.Inv p _ _ (Multi3.body s).vLow.toNat := h.body hw
  rw [h0] at hb
  exact ⟨Multi3.body s, if_pos h0, hb.finish⟩

theorem Inv.loop (hw : 0 < w) {j fuel : Nat} (h : Inv p s) (hn : s.vLow.toNat < 2 ^ (j + 1))
    (hf : j < fuel) : ∃ s', loop fuel s = some s' ∧ s'.wHigh ++ s'.wLow = p := by
  induction j generalizing s fuel with
  | zero =>
    obtain ⟨fuel, rfl⟩ : ∃ n, fuel = n + 1 := ⟨fuel - 1, by omega⟩
    refine h.last hw (BitVec.eq_of_toNat_eq ?_) fuel
    exact (toNat_ushiftRight_one s.vLow).trans (Nat.div_eq_of_lt hn)
  | succ j ih =>
    obtain ⟨fuel, rfl⟩ : ∃ n, fuel = n + 1 := ⟨fuel - 1, by omega⟩
    by_cases h0 : (Multi3.body s).vLow = 0
    · exact h.last hw h0 fuel
    · have hmore : Multi3.loop (fuel + 1) s = Multi3.loop fuel (Multi3.body s) := if_neg h0
      have hv : (Multi3.body s).vLow.toNat = s.vLow.toNat / 2 := toNat_ushiftRight_one s.vLow
      rw [hmore]
      refine ih (h.body hw) ?_ (by omega)
      rw [Nat.pow_succ] at hn
      omega

end Multi3

section Product

theorem eq_cast {n : Nat} (x : BitVec n) : x = (x.toNat : BitVec n) := by
  rw [BitVec.natCast_eq_ofNat, BitVec.ofNat_toNat, BitVec.setWidth_eq]

theorem append_eq_cast (x y : BitVec w) :
    x ++ y = (x.toNat : BitVec (w + w)) * 2 ^ w + (y.toNat : BitVec (w + w)) := by
  rw [eq_cast (x ++ y), Bits.toNat_append_add]
  push_cast
  rfl

theorem two_pow_mul_two_pow : (2 : BitVec (w + w)) ^ w * 2 ^ w = 0 := by
  have h : ((2 ^ (w + w) : Nat) : BitVec (w + w)) = 0 := by
    apply BitVec.eq_of_toNat_eq
    rw [BitVec.natCast_eq_ofNat, BitVec.toNat_ofNat, Nat.mod_self]
    rfl
  push_cast at h
  rw [← h, pow_add]

theorem mod_mul_two_pow (n : Nat) :
    ((n % 2 ^ w : Nat) : BitVec (w + w)) * 2 ^ w = (n : BitVec (w + w)) * 2 ^ w := by
  conv_rhs => rw [← Nat.div_add_mod n (2 ^ w)]
  push_cast
  rw [add_mul, mul_right_comm, two_pow_mul_two_pow, zero_mul, zero_add]

theorem mul_halves (u v : BitVec (w + w)) :
    u * v = (0#w ++ low u) * (0#w ++ low v) + ((low v * high u + low u * high v) ++ 0#w) := by
  have hu : u = high u ++ low u := (Bits.append_halves u).symm
  have hv : v = high v ++ low v := (Bits.append_halves v).symm
  have hx : (low v * high u + low u * high v).toNat =
      ((low v).toNat * (high u).toNat + (low u).toNat * (high v).toNat) % 2 ^ w := by
    rw [BitVec.toNat_add, BitVec.toNat_mul, BitVec.toNat_mul, ← Nat.add_mod]
  conv_lhs => rw [hu, hv]
  rw [append_eq_cast, append_eq_cast, append_eq_cast, append_eq_cast, append_eq_cast, hx,
    mod_mul_two_pow]
  rw [BitVec.toNat_zero]
  push_cast
  linear_combination ((high u).toNat * (high v).toNat : BitVec (w + w)) * two_pow_mul_two_pow

end Product

theorem add_muluw3 (x a b : BitVec w) :
    (if b ≠ 0 then x + muluw3 a b else x) = x + a * b := by
  rw [muluw3, mul_eval]
  split
  · rfl
  · next h => rw [not_not.mp h, mul_zero, add_zero]

theorem multi3_eq (hw : 0 < w) (u v : BitVec (w + w)) : multi3 w u v = some (u * v) := by
  have hinv : Multi3.Inv ((0#w ++ low u) * (0#w ++ low v)) ⟨low u, low v, 0, 0, 0⟩ := by
    have hv : 0#w ++ low v = ((low v).toNat : BitVec (w + w)) := by
      rw [append_eq_cast, BitVec.toNat_zero, Nat.cast_zero, zero_mul, zero_add]
    have h0 : 0#w ++ 0#w = (0 : BitVec (w + w)) := by
      rw [append_eq_cast, BitVec.toNat_zero, Nat.cast_zero, zero_mul, zero_add]
    rw [Multi3.Inv, hv]
    change ShiftAdd.Inv _ (0#w ++ 0#w) (0#w ++ low u) (low v).toNat
    rw [h0]
    exact ShiftAdd.Inv.start _ _
  have hlow : (low v).toNat < 2 ^ (w - 1 + 1) := by
    rw [Nat.sub_add_cancel hw]
    exact (low v).isLt
  obtain ⟨s, hs, hp⟩ := hinv.loop hw hlow (Nat.sub_lt hw Nat.one_pos)
  have hsum := Bits.append_add_append s.wHigh s.wLow (low v * high u + low u * high v) 0#w hw
  rw [BitVec.add_zero, if_neg (BitVec.lt_irrefl _), hp, ← mul_halves, add_zero, ← add_assoc] at hsum
  rw [multi3, hs, Option.bind_eq_bind, Option.bind_some, hsum, ← add_muluw3, ← add_muluw3]
  rfl

theorem ashldi3_word (u : BitVec (w + w)) {n : Nat} (h : w ≤ n) (hn : n < w + w) :
    (low u <<< (n - w)) ++ 0#w = u <<< n := by
  apply BitVec.eq_of_getLsbD_eq
  intro i hi
  simp only [low, BitVec.getLsbD_append, BitVec.getLsbD_shiftLeft, BitVec.getLsbD_setWidth,
    BitVec.getLsbD_zero, hi, decide_true, Bool.true_and]
  by_cases hw : i < w
  · rw [if_pos hw, decide_eq_true (by omega : i < n)]
    rfl
  · rw [if_neg hw, decide_eq_true (by omega : i - w < w), (by omega : i - w - (n - w) = i - n),
      decide_eq_true (by omega : i - n < w), Bool.true_and, Bool.true_and,
      decide_eq_decide.mpr (by omega : i - w < n - w ↔ i < n)]

theorem ashldi3_bits (u : BitVec (w + w)) {n : Nat} (h0 : 0 < n) (h : n < w) :
    (high u <<< n ||| low u >>> (w - n)) ++ (low u <<< n) = u <<< n := by
  have hu : high u ++ low u = u := Bits.append_halves u
  have hfun := Bits.funnel (high u) (low u) (by omega : w - n < w)
  rw [Nat.sub_sub_self h.le, hu, ← Bits.extractLsb'_shiftLeft _ h.le] at hfun
  rw [hfun, Bits.low_shiftLeft (high u) (low u), hu, Bits.append_halves]

theorem ashldi3_eq (hw : 0 < w) (u : BitVec (w + w)) (b : Int) :
    ashldi3 u b = if 0 ≤ b ∧ b < 2 * w then some (u <<< b.toNat) else none := by
  by_cases h0 : b = 0
  · subst h0
    have hu : u <<< (0 : Int).toNat = u := BitVec.shiftLeft_zero ..
    rw [ashldi3, if_pos rfl, if_pos (by omega), hu]
  rw [ashldi3]
  simp only [if_neg h0]
  by_cases hbm : w - b ≤ 0
  · rw [if_pos hbm]
    by_cases h2 : b < 2 * w
    · obtain ⟨n, rfl⟩ : ∃ n : Nat, b = n := ⟨b.toNat, by omega⟩
      have hn : (-((w : Int) - n)).toNat = n - w := by omega
      rw [if_pos (by omega), if_pos (by omega), hn]
      simp only [Option.bind_eq_bind, Option.bind_some, ashldi3_word u (by omega : w ≤ n) (by omega)]
      rfl
    · rw [if_neg (by omega), if_neg (by omega)]
      rfl
  · rw [if_neg hbm]
    by_cases hb : 0 ≤ b
    · obtain ⟨n, rfl⟩ : ∃ n : Nat, b = n := ⟨b.toNat, by omega⟩
      have hn : ((w : Int) - n).toNat = w - n := by omega
      rw [if_pos (by omega), if_pos (by omega), if_pos (by omega), if_pos (by omega), hn]
      simp only [Option.bind_eq_bind, Option.bind_some, Int.toNat_natCast,
        ashldi3_bits u (by omega : 0 < n) (by omega)]
      rfl
    · rw [if_neg (by omega)]
      exact (if_neg (by omega)).symm

/-- Products and shifts of numbers of two words are those of the numbers. -/
theorem doubleWord_eq (hw : 0 < w) (u v : BitVec (w + w)) (b : Int) :
    multi3 w u v = some (u * v) ∧
      ashldi3 u b = if 0 ≤ b ∧ b < 2 * w then some (u <<< b.toNat) else none :=
  ⟨multi3_eq hw u v, ashldi3_eq hw u b⟩

theorem doubleWord_eq_long :
    multi3 32 0xffffffff00000001 0x123456789 = some (0xdcba987823456789 : BitVec (32 + 32)) ∧
      ashldi3 (0x123456789 : BitVec (32 + 32)) 33 = some 0x468acf1200000000 := by
  have h := doubleWord_eq (w := 32) (by decide) 0xffffffff00000001 0x123456789 0
  have h' := doubleWord_eq (w := 32) (by decide) 0x123456789 0 33
  exact ⟨h.1.trans (by decide), h'.2.trans (by decide)⟩

end LinuxCpu.Libgcc
