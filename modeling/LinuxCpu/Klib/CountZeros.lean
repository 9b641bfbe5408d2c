import LinuxCpu.Lib.Bits
import Mathlib.Data.Nat.Log

/-! `__clzsi2`, `__ctzsi2`, `__clzdi2` and `__ctzdi2` of klib. -/

namespace LinuxCpu.Klib

open Bits

abbrev SuInt := BitVec 32
abbrev DuInt := BitVec 64

def isZero (x : SuInt) : SuInt := if x = 0 then 1 else 0

def clzsi2 (a : SuInt) : SuInt :=
  let x := a
  let t := isZero (x &&& 0xFFFF0000) <<< 4
  let x := x >>> (16 - t).toNat
  let r := t
  let t := isZero (x &&& 0xFF00) <<< 3
  let x := x >>> (8 - t).toNat
  let r := r + t
  let t := isZero (x &&& 0xF0) <<< 2
  let x := x >>> (4 - t).toNat
  let r := r + t
  let t := isZero (x &&& 0xC) <<< 1
  let x := x >>> (2 - t).toNat
  let r := r + t
  r + ((2 - x) &&& -isZero (x &&& 2))

def ctzsi2 (a : SuInt) : SuInt :=
  let x := a
  let t := isZero (x &&& 0x0000FFFF) <<< 4
  let x := x >>> t.toNat
  let r := t
  let t := isZero (x &&& 0x00FF) <<< 3
  let x := x >>> t.toNat
  let r := r + t
  let t := isZero (x &&& 0x0F) <<< 2
  let x := x >>> t.toNat
  let r := r + t
  let t := isZero (x &&& 0x3) <<< 1
  let x := x >>> t.toNat
  let x := x &&& 3
  let r := r + t
  r + ((2 - x >>> 1) &&& -isZero (x &&& 1))

/-- `f` is all ones where `high` is 0. -/
def clzdi2 (a : DuInt) : SuInt :=
  let low : SuInt := a.setWidth 32
  let high : SuInt := a.extractLsb' 32 32
  let f := -isZero high
  clzsi2 ((high &&& ~~~f) ||| (low &&& f)) + (f &&& 32)

def ctzdi2 (a : DuInt) : SuInt :=
  let low : SuInt := a.setWidth 32
  let high : SuInt := a.extractLsb' 32 32
  let f := -isZero low
  ctzsi2 ((high &&& f) ||| (low &&& ~~~f)) + (f &&& 32)

theorem select_high (c p q : SuInt) :
    (p &&& ~~~(-isZero c)) ||| (q &&& -isZero c) = if c = 0 then q else p := by
  have hones : (-1 : SuInt) = BitVec.allOnes 32 := rfl
  rw [isZero]
  split
  · rw [hones, BitVec.not_allOnes, BitVec.and_zero, BitVec.zero_or, BitVec.and_allOnes]
  · change (p &&& BitVec.allOnes 32) ||| (q &&& 0#32) = p
    rw [BitVec.and_zero, BitVec.or_zero, BitVec.and_allOnes]

theorem and_isZero (c : SuInt) : (-isZero c &&& 32).toNat = if c = 0 then 32 else 0 := by
  rw [isZero]
  split <;> rfl

section Leading

variable {x mask : SuInt} {h e : Nat}

def upper (h : Nat) : SuInt := BitVec.ofNat 32 ((2 ^ h - 1) <<< h)

theorem and_upper_eq_zero_iff (hh : h ≤ 16) (hx : x.toNat < 2 ^ (2 * h)) :
    x &&& upper h = 0 ↔ x.toNat < 2 ^ h := by
  have hmask : (upper h).toNat = (2 ^ h - 1) <<< h := by
    rw [upper, BitVec.toNat_ofNat, Nat.mod_eq_of_lt]
    have h1 : 2 ^ h ≤ 2 ^ 16 := Nat.pow_le_pow_right (by decide) hh
    have h2 : (2 ^ h - 1) * 2 ^ h < 2 ^ 16 * 2 ^ 16 :=
      Nat.mul_lt_mul_of_lt_of_le (by have := Nat.two_pow_pos h; omega) h1 (Nat.two_pow_pos 16)
    rwa [Nat.shiftLeft_eq]
  have hand : (x &&& upper h).toNat = x.toNat / 2 ^ h * 2 ^ h := by
    have hdiv : x.toNat / 2 ^ h < 2 ^ h := by
      rw [Nat.div_lt_iff_lt_mul (Nat.two_pow_pos h), ← Nat.pow_add, ← Nat.two_mul]
      exact hx
    rw [BitVec.toNat_and, hmask]
    apply Nat.eq_of_testBit_eq
    intro i
    rw [Nat.testBit_and, Nat.testBit_shiftLeft, ← Nat.shiftLeft_eq, Nat.testBit_shiftLeft,
      Nat.testBit_two_pow_sub_one, Nat.testBit_div_two_pow]
    by_cases hi : h ≤ i
    · simp only [hi, decide_true, Bool.true_and, Nat.sub_add_cancel]
      by_cases hi2 : i - h < h
      · rw [decide_eq_true hi2, Bool.and_true]
      · have : x.toNat.testBit i = false :=
          Nat.testBit_lt_two_pow (Nat.lt_of_lt_of_le hx (Nat.pow_le_pow_right (by decide) (by omega)))
        rw [this, Bool.false_and]
    · simp [hi]
  rw [← BitVec.toNat_inj, hand]
  change x.toNat / 2 ^ h * 2 ^ h = 0 ↔ _
  rw [Nat.mul_eq_zero, or_iff_left (Nat.two_pow_pos h).ne', Nat.div_eq_zero_iff,
    or_iff_right (Nat.two_pow_pos h).ne']

theorem toNat_flag_shl (he : e ≤ 4) : (isZero 0 <<< e).toNat = 2 ^ e := by
  have h1 : (1 : SuInt).toNat = 1 := rfl
  rw [isZero, if_pos rfl, BitVec.toNat_shiftLeft, h1, Nat.one_shiftLeft,
    Nat.mod_eq_of_lt (Nat.pow_lt_pow_right (by decide) (by omega))]

theorem clz_stage {t : SuInt} (he : e ≤ 4) (h0 : x ≠ 0) (hx : x.toNat < 2 ^ (2 * 2 ^ e))
    (ht : t = isZero (x &&& upper (2 ^ e)) <<< e) :
    let x' := x >>> (BitVec.ofNat 32 (2 ^ e) - t).toNat
    x' ≠ 0 ∧ x'.toNat < 2 ^ 2 ^ e ∧ t.toNat ≤ 2 ^ e ∧
      t.toNat + Nat.log 2 x.toNat = 2 ^ e + Nat.log 2 x'.toNat := by
  intro x'
  have hle : 2 ^ e ≤ 16 := Nat.pow_le_pow_right (by decide) he
  have hof : (BitVec.ofNat 32 (2 ^ e)).toNat = 2 ^ e := by
    rw [BitVec.toNat_ofNat, Nat.mod_eq_of_lt (by omega)]
  by_cases hs : x.toNat < 2 ^ 2 ^ e
  · have hn : t.toNat = 2 ^ e := by
      rw [ht, (and_upper_eq_zero_iff hle hx).mpr hs, toNat_flag_shl he]
    have hx' : x' = x := by
      have : BitVec.ofNat 32 (2 ^ e) - t = 0 := by
        rw [BitVec.eq_of_toNat_eq (hof.trans hn.symm), BitVec.sub_self]
        rfl
      change x >>> (BitVec.ofNat 32 (2 ^ e) - t).toNat = x
      rw [this]
      rfl
    rw [hx', hn]
    exact ⟨h0, hs, Nat.le_refl _, rfl⟩
  · have hne : x &&& upper (2 ^ e) ≠ 0 := (and_upper_eq_zero_iff hle hx).not.mpr hs
    have hn : t = 0 := by
      rw [ht, isZero, if_neg hne]
      exact BitVec.zero_shiftLeft e
    have hsub : BitVec.ofNat 32 (2 ^ e) - t = BitVec.ofNat 32 (2 ^ e) := by
      rw [hn]
      exact BitVec.sub_zero _
    have hx' : x'.toNat = x.toNat / 2 ^ 2 ^ e := by
      change (x >>> (BitVec.ofNat 32 (2 ^ e) - t).toNat).toNat = _
      rw [hsub, hof, BitVec.toNat_ushiftRight, Nat.shiftRight_eq_div_pow]
    have hpos : 0 < x.toNat / 2 ^ 2 ^ e :=
      Nat.div_pos (Nat.le_of_not_lt hs) (Nat.two_pow_pos _)
    refine ⟨fun h => ?_, ?_, ?_, ?_⟩
    · rw [← hx', h] at hpos
      exact Nat.lt_irrefl 0 hpos
    · rw [hx', Nat.div_lt_iff_lt_mul (Nat.two_pow_pos _), ← Nat.pow_add, ← Nat.two_mul]
      exact hx
    · rw [hn]
      exact Nat.zero_le _
    · have hlog : 2 ^ e ≤ Nat.log 2 x.toNat :=
        Nat.le_log_of_pow_le (by decide) (Nat.le_of_not_lt hs)
      rw [hx', Nat.log_div_base_pow, hn, Nat.add_sub_cancel' hlog]
      exact Nat.zero_add _

theorem clz_last (h0 : x ≠ 0) (hx : x.toNat < 2 ^ 2) :
    ((2 - x) &&& -isZero (x &&& 2)).toNat + Nat.log 2 x.toNat = 1 := by
  have hcases : x = 1 ∨ x = 2 ∨ x = 3 := by
    have h0 : x.toNat ≠ 0 := fun h => h0 (BitVec.eq_of_toNat_eq h)
    have h3 : x.toNat = 1 ∨ x.toNat = 2 ∨ x.toNat = 3 := by omega
    exact h3.imp BitVec.eq_of_toNat_eq (Or.imp BitVec.eq_of_toNat_eq BitVec.eq_of_toNat_eq)
  rcases hcases with rfl | rfl | rfl <;> decide +kernel

theorem clzsi2_log {a : SuInt} (h0 : a ≠ 0) : (clzsi2 a).toNat + Nat.log 2 a.toNat = 31 := by
  let t₁ := isZero (a &&& 0xFFFF0000) <<< 4
  let x₁ := a >>> (16 - t₁).toNat
  let t₂ := isZero (x₁ &&& 0xFF00) <<< 3
  let x₂ := x₁ >>> (8 - t₂).toNat
  let t₃ := isZero (x₂ &&& 0xF0) <<< 2
  let x₃ := x₂ >>> (4 - t₃).toNat
  let t₄ := isZero (x₃ &&& 0xC) <<< 1
  let x₄ := x₃ >>> (2 - t₄).toNat
  obtain ⟨n₁, l₁, b₁, e₁⟩ := clz_stage (x := a) (t := t₁) (e := 4) (by decide) h0 a.isLt rfl
  obtain ⟨n₂, l₂, b₂, e₂⟩ := clz_stage (x := x₁) (t := t₂) (e := 3) (by decide) n₁ l₁ rfl
  obtain ⟨n₃, l₃, b₃, e₃⟩ := clz_stage (x := x₂) (t := t₃) (e := 2) (by decide) n₂ l₂ rfl
  obtain ⟨n₄, l₄, b₄, e₄⟩ := clz_stage (x := x₃) (t := t₄) (e := 1) (by decide) n₃ l₃ rfl
  have e₅ := clz_last (x := x₄) n₄ l₄
  have hsum : clzsi2 a = t₁ + t₂ + t₃ + t₄ + ((2 - x₄) &&& -isZero (x₄ &&& 2)) := rfl
  change t₁.toNat + _ = 16 + Nat.log 2 x₁.toNat at e₁
  change t₂.toNat + _ = 8 + Nat.log 2 x₂.toNat at e₂
  change t₃.toNat + _ = 4 + Nat.log 2 x₃.toNat at e₃
  change t₄.toNat + _ = 2 + Nat.log 2 x₄.toNat at e₄
  simp only [hsum, BitVec.toNat_add]
  omega

theorem clz_log {w : Nat} {a : BitVec w} (h0 : a ≠ 0) :
    a.clz.toNat + Nat.log 2 a.toNat + 1 = w := by
  have hlt := BitVec.lt_def.mp (BitVec.clz_lt_iff_ne_zero.mpr h0)
  rw [BitVec.natCast_eq_ofNat, BitVec.toNat_ofNat, Nat.mod_eq_of_lt Nat.lt_two_pow_self] at hlt
  have hlo := BitVec.two_pow_sub_clz_le_toNat_of_ne_zero (Nat.zero_lt_of_lt hlt) h0
  have hhi := BitVec.toNat_lt_two_pow_sub_clz (x := a)
  have hlog : Nat.log 2 a.toNat = w - 1 - a.clz.toNat := by
    apply Nat.log_eq_of_pow_le_of_lt_pow hlo
    rwa [(by omega : w - 1 - a.clz.toNat + 1 = w - a.clz.toNat)]
  omega

theorem clzsi2_eq (a : SuInt) : clzsi2 a = a.clz := by
  by_cases h0 : a = 0
  · subst h0
    decide +kernel
  · have hlog := clzsi2_log h0
    have hclz := clz_log h0
    apply BitVec.eq_of_toNat_eq
    omega

end Leading

theorem toNat_halves (a : DuInt) :
    a.toNat = (a.extractLsb' 32 32).toNat * 2 ^ 32 + (a.setWidth 32).toNat := by
  rw [BitVec.extractLsb'_toNat, BitVec.toNat_setWidth, Nat.shiftRight_eq_div_pow]
  omega

theorem clzdi2_eq (a : DuInt) : (clzdi2 a).toNat = a.clz.toNat := by
  by_cases h0 : a = 0
  · subst h0
    decide +kernel
  have hclz := clz_log h0
  have ha := toNat_halves a
  rw [clzdi2, select_high]
  generalize a.extractLsb' 32 32 = high at ha ⊢
  generalize a.setWidth 32 = low at ha ⊢
  have hlow := low.isLt
  rw [BitVec.toNat_add, and_isZero]
  by_cases hh : high = 0
  · subst hh
    have hl : low ≠ 0 := by
      rintro rfl
      exact h0 (BitVec.eq_of_toNat_eq ha)
    have hlog := clzsi2_log hl
    have hal : a.toNat = low.toNat := ha.trans (by simp)
    rw [hal] at hclz
    rw [if_pos rfl, if_pos rfl]
    omega
  · have hlog := clzsi2_log hh
    have hdiv : high.toNat = a.toNat / 2 ^ 32 := by omega
    have h32 : 32 ≤ Nat.log 2 a.toNat := by
      have hpos : high.toNat ≠ 0 := fun h => hh (BitVec.eq_of_toNat_eq h)
      exact Nat.le_log_of_pow_le (by decide) (by omega)
    rw [hdiv, Nat.log_div_base_pow] at hlog
    rw [if_neg hh, if_neg hh]
    omega

section Trailing

variable {x a : SuInt} {r e : Nat}

theorem and_lower_eq_zero_iff {h : Nat} (hh : h ≤ 32) (x : SuInt) :
    x &&& BitVec.ofNat 32 (2 ^ h - 1) = 0 ↔ x.toNat % 2 ^ h = 0 := by
  have hmask : (BitVec.ofNat 32 (2 ^ h - 1)).toNat = 2 ^ h - 1 := by
    have hle : 2 ^ h ≤ 2 ^ 32 := Nat.pow_le_pow_right (by decide) hh
    have := Nat.two_pow_pos h
    rw [BitVec.toNat_ofNat, Nat.mod_eq_of_lt (by omega)]
  rw [← BitVec.toNat_inj, BitVec.toNat_and, hmask, Nat.and_two_pow_sub_one_eq_mod]
  exact Iff.rfl

/-- What is left of a word and what has been dropped; a bit of the window is set. -/
structure Dropped (a x : SuInt) (r h : Nat) : Prop where
  value : a.toNat = x.toNat * 2 ^ r
  window : x.toNat % 2 ^ h ≠ 0

theorem ctz_stage {t : SuInt} (he : e ≤ 4) (hd : Dropped a x r (2 * 2 ^ e))
    (ht : t = isZero (x &&& BitVec.ofNat 32 (2 ^ 2 ^ e - 1)) <<< e) :
    Dropped a (x >>> t.toNat) (r + t.toNat) (2 ^ e) ∧ t.toNat ≤ 2 ^ e := by
  have hle : 2 ^ e ≤ 16 := Nat.pow_le_pow_right (by decide) he
  have hlow := and_lower_eq_zero_iff (by omega : 2 ^ e ≤ 32) x
  by_cases hs : x.toNat % 2 ^ 2 ^ e = 0
  · have hn : t.toNat = 2 ^ e := by rw [ht, hlow.mpr hs, toNat_flag_shl he]
    have hx' : (x >>> t.toNat).toNat = x.toNat / 2 ^ 2 ^ e := by
      rw [hn, BitVec.toNat_ushiftRight, Nat.shiftRight_eq_div_pow]
    have hmul : x.toNat / 2 ^ 2 ^ e * 2 ^ 2 ^ e = x.toNat :=
      Nat.div_mul_cancel (Nat.dvd_of_mod_eq_zero hs)
    refine ⟨⟨?_, fun h => hd.window ?_⟩, hn.le⟩
    · rw [hx', hn, hd.value, Nat.add_comm, Nat.pow_add, ← Nat.mul_assoc, hmul]
    · rw [hx'] at h
      rw [Nat.two_mul, Nat.pow_add, Nat.mod_mul, hs, h]
      rfl
  · have hn : t = 0 := by
      rw [ht, isZero, if_neg (hlow.not.mpr hs)]
      exact BitVec.zero_shiftLeft e
    subst hn
    exact ⟨⟨hd.value, hs⟩, Nat.zero_le _⟩

theorem ctz_last (hd : Dropped a x r 2) :
    ∃ y, a.toNat = y * 2 ^ (r + ((2 - (x &&& 3) >>> 1) &&& -isZero (x &&& 3 &&& 1)).toNat) ∧
      y % 2 = 1 ∧ ((2 - (x &&& 3) >>> 1) &&& -isZero (x &&& 3 &&& 1)).toNat ≤ 1 := by
  have h3 : (x &&& 3).toNat = x.toNat % 4 :=
    (BitVec.toNat_and ..).trans (Nat.and_two_pow_sub_one_eq_mod _ 2)
  have hlt : x.toNat % 4 < 4 := Nat.mod_lt _ (by decide)
  have hw := hd.window
  have hcases : x &&& 3 = 1 ∨ x &&& 3 = 2 ∨ x &&& 3 = 3 := by
    have h : (x &&& 3).toNat = 1 ∨ (x &&& 3).toNat = 2 ∨ (x &&& 3).toNat = 3 := by omega
    exact h.imp BitVec.eq_of_toNat_eq (Or.imp BitVec.eq_of_toNat_eq BitVec.eq_of_toNat_eq)
  have hv := hd.value
  rcases hcases with h | h | h <;> rw [h] at h3 ⊢
  · exact ⟨x.toNat, hv, by change 1 = _ at h3; omega, by decide⟩
  · change 2 = _ at h3
    refine ⟨x.toNat / 2, ?_, by omega, by decide⟩
    change _ = _ * 2 ^ (r + 1)
    rw [hv, Nat.pow_succ', ← Nat.mul_assoc, Nat.div_mul_cancel (by omega)]
  · exact ⟨x.toNat, hv, by change 3 = _ at h3; omega, by decide⟩

theorem ctz_of_odd {w : Nat} {a : BitVec w} {y c : Nat} (ha : a.toNat = y * 2 ^ c)
    (hy : y % 2 = 1) : a.ctz.toNat = c := by
  have h0 : a ≠ 0 := by
    rintro rfl
    have hpos : 0 < y * 2 ^ c := Nat.mul_pos (by omega) (Nat.two_pow_pos c)
    exact absurd ha (Nat.ne_of_lt hpos)
  have hbit : a.getLsbD c = true := by
    rw [BitVec.getLsbD, ha, Nat.testBit_mul_two_pow]
    simp [Nat.testBit_zero, hy]
  have hfalse (i : Nat) (hi : i < c) : a.getLsbD i = false := by
    rw [BitVec.getLsbD, ha, Nat.testBit_mul_two_pow, decide_eq_false (Nat.not_le_of_lt hi),
      Bool.false_and]
  rcases Nat.lt_trichotomy a.ctz.toNat c with h | h | h
  · cases (hfalse _ h).symm.trans (BitVec.getLsbD_true_ctz_of_ne_zero h0)
  · exact h
  · cases (BitVec.getLsbD_false_of_lt_ctz h).symm.trans hbit

theorem ctzsi2_odd (h0 : a ≠ 0) : ∃ y, a.toNat = y * 2 ^ (ctzsi2 a).toNat ∧ y % 2 = 1 ∧
    (ctzsi2 a).toNat < 32 := by
  let t₁ := isZero (a &&& 0x0000FFFF) <<< 4
  let x₁ := a >>> t₁.toNat
  let t₂ := isZero (x₁ &&& 0x00FF) <<< 3
  let x₂ := x₁ >>> t₂.toNat
  let t₃ := isZero (x₂ &&& 0x0F) <<< 2
  let x₃ := x₂ >>> t₃.toNat
  let t₄ := isZero (x₃ &&& 0x3) <<< 1
  let x₄ := x₃ >>> t₄.toNat
  have d₀ : Dropped a a 0 32 := by
    refine ⟨(Nat.mul_one _).symm, fun h => h0 (BitVec.eq_of_toNat_eq ?_)⟩
    rwa [Nat.mod_eq_of_lt a.isLt] at h
  obtain ⟨d₁, b₁⟩ := ctz_stage (t := t₁) (e := 4) (by decide) d₀ rfl
  obtain ⟨d₂, b₂⟩ := ctz_stage (t := t₂) (e := 3) (by decide) d₁ rfl
  obtain ⟨d₃, b₃⟩ := ctz_stage (t := t₃) (e := 2) (by decide) d₂ rfl
  obtain ⟨d₄, b₄⟩ := ctz_stage (t := t₄) (e := 1) (by decide) d₃ rfl
  obtain ⟨y, hv, hy, b₅⟩ := ctz_last (x := x₄) d₄
  have hsum : (ctzsi2 a).toNat = 0 + t₁.toNat + t₂.toNat + t₃.toNat + t₄.toNat +
      ((2 - (x₄ &&& 3) >>> 1) &&& -isZero (x₄ &&& 3 &&& 1)).toNat := by
    have h : ctzsi2 a = t₁ + t₂ + t₃ + t₄ +
      ((2 - (x₄ &&& 3) >>> 1) &&& -isZero (x₄ &&& 3 &&& 1)) := rfl
    simp only [h, BitVec.toNat_add]
    omega
  rw [← hsum] at hv
  refine ⟨y, hv, hy, ?_⟩
  have hle : 2 ^ (ctzsi2 a).toNat ≤ a.toNat := by
    rw [hv]
    exact Nat.le_mul_of_pos_left _ (by omega)
  exact (Nat.pow_lt_pow_iff_right (by decide)).mp (Nat.lt_of_le_of_lt hle a.isLt)

theorem ctzsi2_eq (a : SuInt) : ctzsi2 a = a.ctz := by
  by_cases h0 : a = 0
  · subst h0
    decide +kernel
  · obtain ⟨y, hv, hy, -⟩ := ctzsi2_odd h0
    exact BitVec.eq_of_toNat_eq (ctz_of_odd hv hy).symm

theorem ctzdi2_eq (a : DuInt) : (ctzdi2 a).toNat = a.ctz.toNat := by
  by_cases h0 : a = 0
  · subst h0
    decide +kernel
  have ha := toNat_halves a
  rw [ctzdi2, BitVec.or_comm, select_high]
  generalize a.extractLsb' 32 32 = high at ha ⊢
  generalize a.setWidth 32 = low at ha ⊢
  rw [BitVec.toNat_add, and_isZero]
  by_cases hl : low = 0
  · subst hl
    have hh : high ≠ 0 := by
      rintro rfl
      exact h0 (BitVec.eq_of_toNat_eq ha)
    obtain ⟨y, hv, hy, hlt⟩ := ctzsi2_odd hh
    have hval : a.toNat = y * 2 ^ ((ctzsi2 high).toNat + 32) := by
      rw [ha.trans (Nat.add_zero _), hv, Nat.pow_add, Nat.mul_assoc]
    rw [if_pos rfl, if_pos rfl, ctz_of_odd hval hy]
    omega
  · obtain ⟨y, hv, hy, hlt⟩ := ctzsi2_odd hl
    have hpow : 2 ^ (32 - (ctzsi2 low).toNat) * 2 ^ (ctzsi2 low).toNat = 2 ^ 32 := by
      rw [← Nat.pow_add, Nat.sub_add_cancel hlt.le]
    have hval : a.toNat =
        (high.toNat * 2 ^ (32 - (ctzsi2 low).toNat) + y) * 2 ^ (ctzsi2 low).toNat := by
      rw [ha, hv, Nat.add_mul, Nat.mul_assoc, hpow]
    have heven : 2 ∣ high.toNat * 2 ^ (32 - (ctzsi2 low).toNat) :=
      Dvd.dvd.mul_left (dvd_pow_self 2 (by omega)) _
    rw [if_neg hl, if_neg hl, ctz_of_odd hval (by omega)]
    omega

end Trailing

/-- Each function counts the zeros it is named for, also those of 0. -/
theorem countZeros_eq (a : SuInt) (b : DuInt) :
    clzsi2 a = a.clz ∧ ctzsi2 a = a.ctz ∧ (clzdi2 b).toNat = b.clz.toNat ∧
      (ctzdi2 b).toNat = b.ctz.toNat :=
  ⟨clzsi2_eq a, ctzsi2_eq a, clzdi2_eq b, ctzdi2_eq b⟩

end LinuxCpu.Klib
