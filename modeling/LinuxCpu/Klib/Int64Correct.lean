import LinuxCpu.Klib.Int64

namespace LinuxCpu.Klib

open Restoring

namespace Udwords

theorem all_ofAll (x : DuInt) : (ofAll x).all = x := by
  apply BitVec.eq_of_getLsbD_eq
  intro i hi
  simp only [all, ofAll, BitVec.getLsbD_append, BitVec.getLsbD_setWidth, BitVec.getLsbD_extractLsb']
  split
  · next h => simp [h]
  · next h => rw [decide_eq_true (by omega), Bool.true_and, Nat.add_sub_cancel' (by omega)]

theorem toNat_all (u : Udwords) : u.all.toNat = u.high.toNat * 2 ^ 32 + u.low.toNat :=
  Bits.toNat_append_add ..

theorem toNat_all_low {u : Udwords} (h : u.high = 0) : u.all.toNat = u.low.toNat := by
  simp [toNat_all, h]

theorem toNat_all_high {u : Udwords} (h : u.low = 0) : u.all.toNat = u.high.toNat * 2 ^ 32 := by
  simp [toNat_all, h]

end Udwords

open Udwords

namespace Udivmoddi4

section Pass

theorem toNat_shl_or (x c : SuInt) (hc : c.toNat ≤ 1) :
    (x <<< 1 ||| c).toNat = 2 * (x.toNat % 2 ^ 31) + c.toNat := by
  have hor := Nat.two_pow_add_eq_or_of_lt (i := 1) (b := c.toNat) (by omega) (x.toNat % 2 ^ 31)
  rw [BitVec.toNat_or, BitVec.toNat_shiftLeft, Nat.shiftLeft_eq, (by omega :
    x.toNat * 2 ^ 1 % 2 ^ 32 = 2 ^ 1 * (x.toNat % 2 ^ 31)), ← hor]

theorem toNat_last (x : SuInt) : (x >>> 31).toNat = x.toNat / 2 ^ 31 := by
  rw [BitVec.toNat_ushiftRight, Nat.shiftRight_eq_div_pow]

theorem toNat_shift_all (u : Udwords) (c : SuInt) (hc : c.toNat ≤ 1) :
    (all ⟨u.low <<< 1 ||| c, u.high <<< 1 ||| u.low >>> 31⟩).toNat =
      (2 * u.all.toNat + c.toNat) % 2 ^ 64 := by
  have hl := u.low.isLt
  have hh := u.high.isLt
  have ht : (u.low >>> 31).toNat ≤ 1 := by
    rw [toNat_last]
    omega
  rw [toNat_all, toNat_all, toNat_shl_or _ _ hc, toNat_shl_or _ _ ht, toNat_last]
  omega

theorem toNat_top (u : Udwords) : (u.high >>> 31).toNat = u.all.toNat / 2 ^ 63 := by
  have hl := u.low.isLt
  rw [toNat_last, toNat_all]
  omega

theorem sshiftRight_last (x : DuInt) : x.sshiftRight 63 = if x.msb then -1 else 0 := by
  have hones : (-1 : DuInt) = BitVec.allOnes 64 := rfl
  apply BitVec.eq_of_getLsbD_eq
  intro i hi
  rw [BitVec.getLsbD_sshiftRight, hones, decide_eq_false (by omega : ¬ 64 ≤ i), Bool.not_false,
    Bool.true_and]
  have hbit : (if 63 + i < 64 then x.getLsbD (63 + i) else x.msb) = x.msb := by
    split
    · next h => rw [BitVec.msb_eq_getLsbD_last, (by omega : 63 + i = 64 - 1)]
    · rfl
  rw [hbit]
  cases x.msb with
  | false => exact BitVec.getLsbD_zero.symm
  | true => exact (BitVec.getLsbD_allOnes.trans (decide_eq_true hi)).symm

variable {d : Udwords} {t : Registers}

/-- The sign of `d - r - 1` tells whether `d` fits. -/
theorem msb_sub (hr : t.r.all.toNat < 2 * d.all.toNat)
    (hs : d.all.toNat ≤ 2 ^ 63 ∨ 2 ^ 63 ≤ t.r.all.toNat) :
    (d.all - t.r.all - 1).msb = decide (d.all.toNat ≤ t.r.all.toNat) := by
  have hd := d.all.isLt
  have hr' := t.r.all.isLt
  have h1 : (1 : DuInt).toNat = 1 := rfl
  rw [BitVec.msb_eq_decide, decide_eq_decide, BitVec.toNat_sub, BitVec.toNat_sub, h1]
  omega

theorem reduce_sub (hr : t.r.all.toNat < 2 * d.all.toNat)
    (hs : d.all.toNat ≤ 2 ^ 63 ∨ 2 ^ 63 ≤ t.r.all.toNat) (hle : d.all.toNat ≤ t.r.all.toNat) :
    reduce d t = { t with carry := 1, r := ofAll (t.r.all - d.all) } := by
  have hones : (-1 : DuInt) = BitVec.allOnes 64 := rfl
  rw [reduce, sshiftRight_last, msb_sub hr hs, decide_eq_true hle, if_pos rfl, hones,
    BitVec.and_allOnes]
  rfl

theorem reduce_keep (hr : t.r.all.toNat < 2 * d.all.toNat)
    (hs : d.all.toNat ≤ 2 ^ 63 ∨ 2 ^ 63 ≤ t.r.all.toNat) (hlt : t.r.all.toNat < d.all.toNat) :
    reduce d t = { t with carry := 0, r := ofAll t.r.all } := by
  have h0 : t.r.all - (d.all &&& 0) = t.r.all :=
    (congrArg (t.r.all - ·) BitVec.and_zero).trans (BitVec.sub_zero _)
  rw [reduce, sshiftRight_last, msb_sub hr hs, decide_eq_false (by omega),
    if_neg Bool.false_ne_true, h0]
  rfl

end Pass

def Divided (n : Nat) (d : Udwords) (k : Nat) (t : Registers) : Prop :=
  ∃ p, Inv n d.all.toNat k p t.r.all.toNat ∧ Register 64 n k p t.q.all.toNat ∧
    t.carry.toNat = p % 2

/-- For a divisor above `2 ^ 63` there is one pass, with the whole dividend. -/
def Safe (n : Nat) (d : Udwords) (k : Nat) : Prop :=
  d.all.toNat ≤ 2 ^ 63 ∨ k ≤ 1 ∧ 2 ^ 63 ≤ n

theorem Divided.pass {n k : Nat} {d : Udwords} {t : Registers} (h : Divided n d (k + 1) t)
    (hn : n < 2 ^ 64) (hs : Safe n d (k + 1)) : Divided n d k (reduce d (shiftIn t)) := by
  obtain ⟨p, hi, hq, hc⟩ := h
  have hshift := hi.shift
  have hrem := hi.rem
  have hnext : next n k < 2 := Nat.mod_lt _ (by decide)
  have hdiv : n / 2 ^ k < 2 ^ 64 := Nat.lt_of_le_of_lt (Nat.div_le_self ..) hn
  have hbit : (t.q.high >>> 31).toNat = next n k := (toNat_top _).trans hq.top
  have hr : (shiftIn t).r.all.toNat = 2 * t.r.all.toNat + next n k := by
    rw [shiftIn, toNat_shift_all _ _ (by omega), hbit, Nat.mod_eq_of_lt (by omega)]
  have hcarry : t.carry.toNat ≤ 1 := by omega
  have hq' : (shiftIn t).q.all.toNat = (2 * t.q.all.toNat + p % 2) % 2 ^ 64 := by
    rw [shiftIn, toNat_shift_all _ _ hcarry, hc]
  have hlt : (shiftIn t).r.all.toNat < 2 * d.all.toNat := by omega
  have hsafe : d.all.toNat ≤ 2 ^ 63 ∨ 2 ^ 63 ≤ (shiftIn t).r.all.toNat := by
    rcases hs with hd | ⟨hk, hn63⟩
    · exact .inl hd
    · have hk0 : k = 0 := by omega
      subst hk0
      rw [Nat.pow_zero, Nat.div_one] at hshift
      rcases Nat.eq_zero_or_pos p with rfl | hp
      · exact .inr (by omega)
      · have := Nat.mul_le_mul_left d.all.toNat (by omega : 2 ≤ 2 * p)
        exact .inl (by omega)
  by_cases hle : d.all.toNat ≤ (shiftIn t).r.all.toNat
  · have hi' := hi.sub (hr ▸ hle)
    rw [reduce_sub hlt hsafe hle]
    refine ⟨2 * p + 1, ?_, ?_, by change 1 = _; omega⟩
    · rwa [all_ofAll, BitVec.toNat_sub_of_le (BitVec.le_def.mpr hle), hr]
    · rw [hq']
      exact hq.shift (by omega) (hi'.quotient_lt hn (Nat.le_of_succ_le hq.le))
  · have hi' := hi.keep (by omega)
    rw [reduce_keep hlt hsafe (by omega)]
    refine ⟨2 * p, ?_, ?_, by change 0 = _; omega⟩
    · rwa [all_ofAll, hr]
    · rw [hq']
      exact hq.shift (by omega) (hi'.quotient_lt hn (Nat.le_of_succ_le hq.le))

theorem Divided.loop {n k : Nat} {d : Udwords} {t : Registers} (h : Divided n d k t)
    (hn : n < 2 ^ 64) (hs : Safe n d k) :
    let t' := divLoop d k t
    (t'.q.all <<< 1 ||| t'.carry.setWidth 64).toNat = n / d.all.toNat ∧
      t'.r.all.toNat = n % d.all.toNat := by
  induction k generalizing t with
  | zero =>
    obtain ⟨p, hi, hq, hc⟩ := h
    obtain ⟨hdiv, hmod⟩ := hi.finish
    have hp := hi.quotient_lt hn (Nat.zero_le 64)
    refine ⟨?_, hmod.symm⟩
    change (t.q.all <<< 1 ||| t.carry.setWidth 64).toNat = _
    have hor := Nat.two_pow_add_eq_or_of_lt (i := 1) (b := p % 2) (by omega) (p / 2)
    rw [BitVec.toNat_or, BitVec.toNat_shiftLeft, BitVec.toNat_setWidth, hc, hq.finish,
      Nat.shiftLeft_eq, hdiv, Nat.mod_eq_of_lt (by omega), Nat.mod_eq_of_lt (by omega),
      Nat.mul_comm, ← hor]
    omega
  | succ k ih => exact ih (h.pass hn hs) (hs.imp_right fun hs => ⟨by omega, hs.2⟩)

theorem shl_of_lt {x y : SuInt} (h : y.toNat < 32) : shl x y = some (x <<< y.toNat) := if_pos h

theorem shr_of_lt {x y : SuInt} (h : y.toNat < 32) : shr x y = some (x >>> y.toNat) := if_pos h

theorem funnel (u : Udwords) {k : Nat} (hk : k < 32) :
    u.high <<< (32 - k) ||| u.low >>> k = (u.all >>> k).setWidth 32 :=
  Bits.funnel u.high u.low hk

theorem low_shiftLeft (u : Udwords) (k : Nat) : u.low <<< k = (u.all <<< k).setWidth 32 :=
  Bits.low_shiftLeft u.high u.low k

theorem high_ushiftRight (u : Udwords) {k : Nat} (hk : k < 32) :
    u.high >>> k = (u.all >>> k).extractLsb' 32 32 := by
  apply BitVec.eq_of_getLsbD_eq
  intro i hi
  simp only [all, BitVec.getLsbD_ushiftRight, BitVec.getLsbD_extractLsb', BitVec.getLsbD_append, hi,
    decide_true, Bool.true_and]
  rw [if_neg (by omega), (by omega : k + (32 + i) - 32 = k + i)]

def enter (n : Udwords) (sr : SuInt) : Special :=
  .loop sr (ofAll (n.all <<< (64 - sr.toNat))) (ofAll (n.all >>> sr.toNat))

theorem ofAll_shiftLeft (u : Udwords) {k : Nat} (hk : k ≤ 32) :
    ofAll (u.all <<< (64 - k)) = ⟨0, u.low <<< (32 - k)⟩ := by
  have hlow : (u.all <<< (64 - k)).setWidth 32 = 0 := by
    apply BitVec.eq_of_getLsbD_eq
    intro i hi
    rw [BitVec.getLsbD_setWidth, BitVec.getLsbD_shiftLeft, decide_eq_true (by omega : i < 64 - k)]
    simp
  have hhigh : (u.all <<< (64 - k)).extractLsb' 32 32 = u.low <<< (32 - k) := by
    rw [low_shiftLeft u]
    apply BitVec.eq_of_getLsbD_eq
    intro i hi
    simp only [BitVec.getLsbD_extractLsb', BitVec.getLsbD_shiftLeft, BitVec.getLsbD_setWidth, hi,
      decide_true, Bool.true_and, decide_eq_true (by omega : 32 + i < 64),
      decide_eq_true (by omega : i < 64), (by omega : 32 + i - (64 - k) = i - (32 - k)),
      (by omega : 32 + i < 64 - k ↔ i < 32 - k)]
  rw [ofAll, hlow, hhigh]

theorem ofAll_ushiftRight (u : Udwords) {k : Nat} (hk : 32 ≤ k) :
    ofAll (u.all >>> k) = ⟨u.high >>> (k - 32), 0⟩ := by
  have hlow : (u.all >>> k).setWidth 32 = u.high >>> (k - 32) := by
    apply BitVec.eq_of_getLsbD_eq
    intro i hi
    simp only [all, BitVec.getLsbD_setWidth, BitVec.getLsbD_ushiftRight, BitVec.getLsbD_append, hi,
      decide_true, Bool.true_and]
    rw [if_neg (by omega), (by omega : k + i - 32 = k - 32 + i)]
  have hhigh : (u.all >>> k).extractLsb' 32 32 = 0 := by
    apply BitVec.eq_of_getLsbD_eq
    intro i hi
    rw [BitVec.getLsbD_extractLsb', BitVec.getLsbD_ushiftRight,
      BitVec.getLsbD_of_ge _ _ (by omega)]
    simp
  rw [ofAll, hlow, hhigh]

theorem splitBelow_eq (n : Udwords) {sr : SuInt} (h0 : 0 < sr.toNat) (hlt : sr.toNat < 32) :
    splitBelow n sr = some (enter n sr) := by
  have hsub : (32 - sr).toNat = 32 - sr.toNat :=
    BitVec.toNat_sub_of_le (BitVec.le_def.mpr hlt.le)
  rw [splitBelow, shl_of_lt (by omega), shl_of_lt (by omega), shr_of_lt hlt, shr_of_lt hlt, hsub,
    enter, ofAll_shiftLeft n hlt.le, ofAll, ← funnel n hlt, ← high_ushiftRight n hlt]
  rfl

theorem splitAt_eq (n : Udwords) : splitAt n 32 = some (enter n 32) := by
  have hq := ofAll_shiftLeft n (Nat.le_refl 32)
  have hr := ofAll_ushiftRight n (Nat.le_refl 32)
  rw [Nat.sub_self, BitVec.shiftLeft_zero] at hq
  rw [Nat.sub_self, BitVec.ushiftRight_zero] at hr
  rw [splitAt, ← hq, ← hr]
  rfl

theorem splitAbove_eq (n : Udwords) {sr : SuInt} (h0 : 32 < sr.toNat) (hlt : sr.toNat < 64) :
    splitAbove n sr = some (enter n sr) := by
  have hsub : (64 - sr).toNat = 64 - sr.toNat :=
    BitVec.toNat_sub_of_le (BitVec.le_def.mpr hlt.le)
  have hsub' : (sr - 32).toNat = sr.toNat - 32 :=
    BitVec.toNat_sub_of_le (BitVec.le_def.mpr h0.le)
  have hhigh : (n.all <<< (64 - sr.toNat)).extractLsb' 32 32 =
      (n.all >>> (sr.toNat - 32)).setWidth 32 := by
    have h := Bits.extractLsb'_shiftLeft (w := 32) n.all (by omega : 64 - sr.toNat ≤ 32)
    rwa [(by omega : 32 - (64 - sr.toNat) = sr.toNat - 32)] at h
  have hfun := funnel n (by omega : sr.toNat - 32 < 32)
  rw [(by omega : 32 - (sr.toNat - 32) = 64 - sr.toNat)] at hfun
  rw [splitAbove, shl_of_lt (by omega), shl_of_lt (by omega), shr_of_lt (by omega),
    shr_of_lt (by omega), hsub, hsub', enter, ofAll_ushiftRight n h0.le, ofAll, hhigh, ← hfun,
    ← low_shiftLeft n]
  rfl

variable {n d : Udwords}

inductive Starts (n d : Udwords) : Special → Prop
  | ret {q rem : DuInt} : q.toNat = n.all.toNat / d.all.toNat →
      rem.toNat = n.all.toNat % d.all.toNat → Starts n d (.ret q rem)
  | loop {sr : SuInt} : sr.toNat < 64 → n.all.toNat / 2 ^ sr.toNat < d.all.toNat →
      Safe n.all.toNat d sr.toNat → Starts n d (enter n sr)

theorem Starts.zero (h : n.all.toNat < d.all.toNat) : Starts n d (.ret 0 n.all) :=
  .ret (Nat.div_eq_of_lt h).symm (Nat.mod_eq_of_lt h).symm

theorem Starts.enter {sr : SuInt} (hsr : sr.toNat + Nat.log 2 d.all.toNat =
    Nat.log 2 n.all.toNat + 1) (h0 : 0 < sr.toNat) (hlt : sr.toNat < 64)
    (hd : d.all.toNat ≠ 0) (hn : n.all.toNat ≠ 0) : Starts n d (enter n sr) := by
  have hn1 := Nat.lt_pow_succ_log_self (by decide : 1 < 2) n.all.toNat
  have hd1 := Nat.pow_log_le_self 2 hd
  refine .loop hlt (Nat.div_lt_of_lt_mul ?_) ?_
  · rw [Nat.succ_eq_add_one, ← hsr, Nat.pow_add] at hn1
    exact Nat.lt_of_lt_of_le hn1 (Nat.mul_le_mul_left _ hd1)
  · by_cases hle : d.all.toNat ≤ 2 ^ 63
    · exact .inl hle
    · have hd63 : 63 ≤ Nat.log 2 d.all.toNat := Nat.le_log_of_pow_le (by decide) (by omega)
      have hn63 : Nat.log 2 n.all.toNat < 64 := Nat.log_lt_of_lt_pow hn n.all.isLt
      have hge := (Nat.le_log_iff_pow_le (by decide) hn).mp
        (by omega : 63 ≤ Nat.log 2 n.all.toNat)
      exact .inr ⟨by omega, hge⟩

theorem log_all (u : Udwords) (h : u.high ≠ 0) :
    Nat.log 2 u.all.toNat = 32 + Nat.log 2 u.high.toNat := by
  have hl := u.low.isLt
  have hpos : u.high.toNat ≠ 0 := fun h0 => h (BitVec.eq_of_toNat_eq h0)
  have hdiv : u.high.toNat = u.all.toNat / 2 ^ 32 := by
    rw [toNat_all]
    omega
  have h32 : 32 ≤ Nat.log 2 u.all.toNat :=
    Nat.le_log_of_pow_le (by decide) (by rw [toNat_all]; omega)
  rw [hdiv, Nat.log_div_base_pow, Nat.add_sub_cancel' h32]

theorem builtinClz_of_ne {x : SuInt} (h : x ≠ 0) : builtinClz x = some (clzsi2 x) := if_neg h

theorem builtinCtz_of_ne {x : SuInt} (h : x ≠ 0) : builtinCtz x = some (ctzsi2 x) := if_neg h

theorem clz_sub (hn : n.high ≠ 0) (hd : d.high ≠ 0) :
    let sr := clzsi2 d.high - clzsi2 n.high
    Nat.log 2 n.all.toNat < Nat.log 2 d.all.toNat ∧ 31 < sr.toNat ∨
      sr.toNat + Nat.log 2 d.all.toNat = Nat.log 2 n.all.toNat ∧
        sr.toNat + Nat.log 2 d.high.toNat ≤ 31 := by
  intro sr
  have h1 := clzsi2_log hn
  have h2 := clzsi2_log hd
  have hsr : sr.toNat = (2 ^ 32 - (clzsi2 n.high).toNat + (clzsi2 d.high).toNat) % 2 ^ 32 :=
    BitVec.toNat_sub ..
  rw [log_all n hn, log_all d hd]
  omega

theorem lt_of_log_lt {a b : Nat} (h : Nat.log 2 a < Nat.log 2 b) : a < b :=
  Nat.lt_of_not_le fun hle => Nat.not_lt_of_le (Nat.log_mono_right hle) h

theorem toNat_ne_zero {w : Nat} {x : BitVec w} (h : x ≠ 0) : x.toNat ≠ 0 :=
  fun h0 => h (BitVec.eq_of_toNat_eq h0)

theorem toNat_sub_one {x : SuInt} (h : x ≠ 0) : (x - 1).toNat = x.toNat - 1 :=
  BitVec.toNat_sub_of_le (BitVec.le_def.mpr (Nat.pos_of_ne_zero (toNat_ne_zero h)))

theorem toNat_succ {x : SuInt} (h : x.toNat + 1 < 2 ^ 32) : (x + 1).toNat = x.toNat + 1 :=
  BitVec.toNat_add_of_lt h

theorem and_sub_one {x : SuInt} (h : x ≠ 0) : x &&& (x - 1) = 0 ↔ ∃ k, x.toNat = 2 ^ k := by
  rw [← BitVec.toNat_inj, BitVec.toNat_and, toNat_sub_one h]
  exact Nat.and_sub_one_eq_zero_iff_isPowerOfTwo (toNat_ne_zero h)

theorem log_pos {x : SuInt} (h : x ≠ 0) (hp : ¬ x &&& (x - 1) = 0) : 0 < Nat.log 2 x.toNat := by
  refine Nat.log_pos (by decide) ?_
  have h0 := toNat_ne_zero h
  have h1 : x.toNat ≠ 1 := fun h1 => hp ((and_sub_one h).mpr ⟨0, h1⟩)
  omega

theorem all_ne_zero {u : Udwords} (h : u.high ≠ 0) : u.all.toNat ≠ 0 := by
  have h0 := toNat_ne_zero h
  rw [toNat_all]
  omega

theorem toNat_ctz {x : SuInt} (h : x ≠ 0) (hp : x &&& (x - 1) = 0) :
    x.toNat = 2 ^ (ctzsi2 x).toNat ∧ (ctzsi2 x).toNat < 32 := by
  obtain ⟨k, hk⟩ := (and_sub_one h).mp hp
  obtain ⟨y, hy, hodd, hlt⟩ := ctzsi2_odd h
  have hc : x.ctz.toNat = k := ctz_of_odd (y := 1) (by rw [hk, Nat.one_mul]) rfl
  rw [ctzsi2_eq, hc] at hlt ⊢
  exact ⟨hk, hlt⟩

theorem toNat_and_sub_one {x y : SuInt} {k : Nat} (hy : y.toNat = 2 ^ k) :
    (x &&& (y - 1)).toNat = x.toNat % 2 ^ k := by
  have h : y ≠ 0 := by
    rintro rfl
    exact absurd hy (Nat.ne_of_lt (Nat.two_pow_pos k))
  rw [BitVec.toNat_and, toNat_sub_one h, hy, Nat.and_two_pow_sub_one_eq_mod]

theorem special_words (hnh : n.high = 0) (hdh : d.high = 0) (hdl : d.low ≠ 0) :
    ∃ sp, special n d = some sp ∧ Starts n d sp := by
  have hn := toNat_all_low hnh
  have hd := toNat_all_low hdh
  rw [special, if_pos hnh, if_pos hdh, umod, udiv, if_neg hdl, if_neg hdl]
  refine ⟨_, rfl, .ret ?_ ?_⟩
  · rw [hn, hd, BitVec.toNat_setWidth_of_le (by decide), BitVec.toNat_udiv]
  · rw [hn, hd, BitVec.toNat_setWidth_of_le (by decide), BitVec.toNat_umod]

theorem special_high (hnh : n.high ≠ 0) (hdl : d.low = 0) (hdh : d.high ≠ 0) :
    ∃ sp, special n d = some sp ∧ Starts n d sp := by
  have hd := toNat_all_high hdl
  rw [special, if_neg hnh, if_pos hdl, if_neg hdh]
  by_cases hnl : n.low = 0
  · have hn := toNat_all_high hnl
    rw [if_pos hnl, umod, udiv, if_neg hdh, if_neg hdh]
    refine ⟨_, rfl, .ret ?_ ?_⟩
    · rw [hn, hd, BitVec.toNat_setWidth_of_le (by decide), BitVec.toNat_udiv,
        Nat.mul_div_mul_right _ _ (by decide)]
    · rw [hn, hd, toNat_all_high rfl, Nat.mul_mod_mul_right, BitVec.toNat_umod]
  have hdiv : n.all.toNat / 2 ^ 32 = n.high.toNat := by
    have hl := n.low.isLt
    rw [toNat_all]
    omega
  have hmod : n.all.toNat % 2 ^ 32 = n.low.toNat := by
    have hl := n.low.isLt
    rw [toNat_all]
    omega
  rw [if_neg hnl]
  by_cases hp : d.high &&& (d.high - 1) = 0
  · obtain ⟨hk, hlt⟩ := toNat_ctz hdh hp
    rw [if_pos hp, builtinCtz_of_ne hdh, Option.bind_eq_bind, Option.bind_some, shr_of_lt hlt]
    refine ⟨_, rfl, .ret ?_ ?_⟩
    · rw [hd, hk, BitVec.toNat_setWidth_of_le (by decide), BitVec.toNat_ushiftRight,
        Nat.shiftRight_eq_div_pow, Nat.mul_comm, ← Nat.div_div_eq_div_mul, hdiv]
    · rw [hd, toNat_all, toNat_and_sub_one hk, hk, Nat.mul_comm (2 ^ _), Nat.mod_mul, hdiv, hmod,
        Nat.add_comm, Nat.mul_comm]
  · rw [if_neg hp]
    simp only [builtinClz_of_ne hdh, builtinClz_of_ne hnh, Option.bind_eq_bind, Option.bind_some]
    rcases clz_sub hnh hdh with ⟨hlog, hbig⟩ | ⟨hsr, hle⟩
    · rw [if_pos (BitVec.lt_def.mpr (Nat.lt_of_le_of_lt (by decide) hbig))]
      exact ⟨_, rfl, .zero (lt_of_log_lt hlog)⟩
    · generalize clzsi2 d.high - clzsi2 n.high = sr at hsr hle ⊢
      have hpos := log_pos hdh hp
      have hsucc := toNat_succ (by omega : sr.toNat + 1 < 2 ^ 32)
      have hlt : ¬ (32 - 2 : SuInt) < sr := fun h => by
        have h : 30 < sr.toNat := BitVec.lt_def.mp h
        omega
      rw [if_neg hlt, splitBelow_eq n (by omega) (by omega)]
      exact ⟨_, rfl, .enter (by omega) (by omega) (by omega) (all_ne_zero hdh) (all_ne_zero hnh)⟩

theorem special_shift (hnh : n.high ≠ 0) (hdl : d.low ≠ 0) (hdh : d.high = 0)
    (hp : d.low &&& (d.low - 1) = 0) : ∃ sp, special n d = some sp ∧ Starts n d sp := by
  obtain ⟨hk, hlt⟩ := toNat_ctz hdl hp
  have hd := (toNat_all_low hdh).trans hk
  have hrem : ((n.low &&& (d.low - 1)).setWidth 64).toNat = n.all.toNat % d.all.toNat := by
    have hl := n.low.isLt
    have hmod : n.low.toNat = n.all.toNat % 2 ^ 32 := by
      rw [toNat_all]
      omega
    rw [hd, BitVec.toNat_setWidth_of_le (by decide), toNat_and_sub_one hk, hmod,
      Nat.mod_mod_of_dvd _ (Nat.pow_dvd_pow 2 hlt.le)]
  rw [special, if_neg hnh, if_neg hdl, if_pos hdh, if_pos hp]
  by_cases h1 : d.low = 1
  · have hone : d.all.toNat = 1 := by rw [toNat_all_low hdh, h1]; rfl
    rw [if_pos h1]
    exact ⟨_, rfl, .ret (by rw [hone, Nat.div_one]) hrem⟩
  · have hpos : 0 < (ctzsi2 d.low).toNat := by
      refine Nat.pos_of_ne_zero fun h0 => h1 (BitVec.eq_of_toNat_eq ?_)
      rw [hk, h0]
      rfl
    have hsub : (32 - ctzsi2 d.low).toNat = 32 - (ctzsi2 d.low).toNat :=
      BitVec.toNat_sub_of_le (BitVec.le_def.mpr hlt.le)
    rw [if_neg h1, builtinCtz_of_ne hdl, Option.bind_eq_bind, Option.bind_some, shr_of_lt hlt,
      shl_of_lt (by omega), shr_of_lt hlt, hsub]
    simp only [Option.bind_some]
    rw [funnel n hlt, high_ushiftRight n hlt]
    refine ⟨_, rfl, .ret ?_ hrem⟩
    have hq := all_ofAll (n.all >>> (ctzsi2 d.low).toNat)
    rw [ofAll] at hq
    rw [hq, hd, BitVec.toNat_ushiftRight, Nat.shiftRight_eq_div_pow]

theorem special_low (hnh : n.high ≠ 0) (hdl : d.low ≠ 0) (hdh : d.high = 0)
    (hp : ¬ d.low &&& (d.low - 1) = 0) : ∃ sp, special n d = some sp ∧ Starts n d sp := by
  have hn := log_all n hnh
  have hd := toNat_all_low hdh
  have h1 := clzsi2_log hnh
  have h2 := clzsi2_log hdl
  have hpos : 0 < Nat.log 2 d.low.toNat := log_pos hdl hp
  have hsr : (1 + 32 + clzsi2 d.low - clzsi2 n.high).toNat + Nat.log 2 d.all.toNat =
      Nat.log 2 n.all.toNat + 1 := by
    have h33 : (1 + 32 : SuInt).toNat = 33 := rfl
    rw [hn, hd, BitVec.toNat_sub, BitVec.toNat_add, h33]
    omega
  have hd0 : d.all.toNat ≠ 0 := hd ▸ toNat_ne_zero hdl
  rw [special, if_neg hnh, if_neg hdl, if_pos hdh, if_neg hp]
  simp only [builtinClz_of_ne hdl, builtinClz_of_ne hnh, Option.bind_eq_bind, Option.bind_some]
  generalize 1 + 32 + clzsi2 d.low - clzsi2 n.high = sr at hsr ⊢
  have hlog : Nat.log 2 d.all.toNat = Nat.log 2 d.low.toNat := congrArg (Nat.log 2) hd
  have hent : Starts n d (enter n sr) :=
    .enter hsr (by omega) (by omega) hd0 (all_ne_zero hnh)
  by_cases h32 : sr = 32
  · rw [if_pos h32, h32, splitAt_eq, ← h32]
    exact ⟨_, rfl, hent⟩
  rw [if_neg h32]
  by_cases hlt : sr < 32
  · rw [if_pos hlt, splitBelow_eq n (by omega) (BitVec.lt_def.mp hlt)]
    exact ⟨_, rfl, hent⟩
  · have hge : ¬ sr.toNat < 32 := fun h => hlt (BitVec.lt_def.mpr h)
    have hne : sr.toNat ≠ 32 := fun h => h32 (BitVec.eq_of_toNat_eq h)
    rw [if_neg hlt, splitAbove_eq n (by omega) (by omega)]
    exact ⟨_, rfl, hent⟩

theorem special_both (hnh : n.high ≠ 0) (hdl : d.low ≠ 0) (hdh : d.high ≠ 0) :
    ∃ sp, special n d = some sp ∧ Starts n d sp := by
  rw [special, if_neg hnh, if_neg hdl, if_neg hdh]
  simp only [builtinClz_of_ne hdh, builtinClz_of_ne hnh, Option.bind_eq_bind, Option.bind_some]
  rcases clz_sub hnh hdh with ⟨hlog, hbig⟩ | ⟨hsr, hle⟩
  · have h31 : (32 - 1 : SuInt).toNat = 31 := rfl
    rw [if_pos (BitVec.lt_def.mpr (h31 ▸ hbig))]
    exact ⟨_, rfl, .zero (lt_of_log_lt hlog)⟩
  · generalize clzsi2 d.high - clzsi2 n.high = sr at hsr hle ⊢
    have hsucc := toNat_succ (by omega : sr.toNat + 1 < 2 ^ 32)
    have hlt : ¬ (32 - 1 : SuInt) < sr := fun h => by
      have h : 31 < sr.toNat := BitVec.lt_def.mp h
      omega
    have hent : Starts n d (enter n (sr + 1)) :=
      .enter (by omega) (by omega) (by omega) (all_ne_zero hdh) (all_ne_zero hnh)
    rw [if_neg hlt]
    by_cases h32 : sr + 1 = 32
    · rw [if_pos h32, h32, splitAt_eq, ← h32]
      exact ⟨_, rfl, hent⟩
    · have hne : (sr + 1).toNat ≠ 32 := fun h => h32 (BitVec.eq_of_toNat_eq h)
      rw [if_neg h32, splitBelow_eq n (by omega) (by omega)]
      exact ⟨_, rfl, hent⟩

theorem special_starts (hd : d.all ≠ 0) : ∃ sp, special n d = some sp ∧ Starts n d sp := by
  have hd : d.high = 0 → d.low ≠ 0 := by
    rintro hh hl
    exact hd (BitVec.eq_of_toNat_eq ((toNat_all_low hh).trans (by rw [hl]; rfl)))
  by_cases hdh : d.high = 0
  · by_cases hnh : n.high = 0
    · exact special_words hnh hdh (hd hdh)
    · by_cases hp : d.low &&& (d.low - 1) = 0
      · exact special_shift hnh (hd hdh) hdh hp
      · exact special_low hnh (hd hdh) hdh hp
  · by_cases hnh : n.high = 0
    · have hlt : n.all.toNat < d.all.toNat := by
        have h0 := toNat_ne_zero hdh
        have hl := n.low.isLt
        rw [toNat_all_low hnh, toNat_all d]
        omega
      rw [special, if_pos hnh, if_neg hdh]
      refine ⟨_, rfl, .ret (Nat.div_eq_of_lt hlt).symm ?_⟩
      rw [Nat.mod_eq_of_lt hlt, toNat_all_low hnh]
      exact BitVec.toNat_setWidth_of_le (by decide)
    · by_cases hdl : d.low = 0
      · exact special_high hnh hdl hdh
      · exact special_both hnh hdl hdh

theorem Divided.start {k : Nat} (hk : k < 64) (h : n.all.toNat / 2 ^ k < d.all.toNat) :
    Divided n.all.toNat d k ⟨0, ofAll (n.all <<< (64 - k)), ofAll (n.all >>> k)⟩ := by
  have hq : (ofAll (n.all <<< (64 - k))).all.toNat = n.all.toNat % 2 ^ k * 2 ^ (64 - k) := by
    have hpow : 2 ^ 64 = 2 ^ k * 2 ^ (64 - k) := by
      rw [← Nat.pow_add]
      congr 1
      omega
    rw [all_ofAll, BitVec.toNat_shiftLeft, Nat.shiftLeft_eq, hpow, Nat.mul_mod_mul_right]
  have hr : (ofAll (n.all >>> k)).all.toNat = n.all.toNat / 2 ^ k := by
    rw [all_ofAll, BitVec.toNat_ushiftRight, Nat.shiftRight_eq_div_pow]
  refine ⟨0, ?_, ?_, rfl⟩
  · rw [hr]
    exact .start h
  · rw [hq]
    exact .start hk.le

end Udivmoddi4

open Udivmoddi4

theorem Udivmoddi4.special_zero (n : Udwords) : special n ⟨0, 0⟩ = none := by
  rw [special]
  by_cases hnh : n.high = 0
  · rw [if_pos hnh, if_pos rfl]
    rfl
  · rw [if_neg hnh, if_pos rfl, if_pos rfl]
    rfl

/-- Quotient and remainder of any two numbers, and nothing undefined on the way
unless the divisor is 0. -/
theorem udivmoddi4_eq (a b : DuInt) :
    udivmoddi4 a b = if b = 0 then none else some (a / b, a % b) := by
  by_cases hb : b = 0
  · subst hb
    have h0 : Udwords.ofAll 0 = ⟨0, 0⟩ := by decide
    rw [if_pos rfl, udivmoddi4, h0, special_zero]
    rfl
  · rw [if_neg hb, udivmoddi4]
    have ha : (ofAll a).all = a := all_ofAll a
    have hd : (ofAll b).all = b := all_ofAll b
    obtain ⟨sp, hsp, hst⟩ := special_starts (n := ofAll a) (d := ofAll b) (hd.symm ▸ hb)
    rw [hsp]
    cases hst with
    | @ret q rem hq hr =>
      rw [ha, hd, ← BitVec.toNat_udiv] at hq
      rw [ha, hd, ← BitVec.toNat_umod] at hr
      rw [← BitVec.eq_of_toNat_eq hq, ← BitVec.eq_of_toNat_eq hr]
      rfl
    | @loop sr hlt hdiv hsafe =>
      obtain ⟨hq, hr⟩ := (Divided.start hlt hdiv).loop (BitVec.isLt _) hsafe
      rw [ha, hd, ← BitVec.toNat_udiv] at hq
      rw [ha, hd, ← BitVec.toNat_umod] at hr
      rw [← BitVec.eq_of_toNat_eq hq, ← BitVec.eq_of_toNat_eq hr]
      simp only [enter, Option.bind_eq_bind, Option.bind_some, Option.pure_def, ha]

theorem negateIf_ite (s : Bool) (y : DuInt) :
    negateIf (if s then -1 else 0) y = if s then -y else y := by
  rw [negateIf]
  cases s with
  | false => exact (congrArg (· - 0) BitVec.xor_zero).trans (BitVec.sub_zero y)
  | true =>
    have hone : -BitVec.allOnes 64 = 1#64 := by decide
    change (y ^^^ BitVec.allOnes 64) - BitVec.allOnes 64 = -y
    rw [BitVec.xor_allOnes, BitVec.sub_eq_add_neg, hone, ← BitVec.neg_eq_not_add]

theorem negateIf_sign (x y : DuInt) : negateIf (sign x) y = if x.msb then -y else y := by
  rw [sign, sshiftRight_last, negateIf_ite]

theorem negateIf_signs (x y z : DuInt) :
    negateIf (sign x ^^^ sign y) z = if x.msb ^^ y.msb then -z else z := by
  have hxor : sign x ^^^ sign y = if x.msb ^^ y.msb then -1 else 0 := by
    rw [sign, sign, sshiftRight_last, sshiftRight_last]
    cases x.msb <;> cases y.msb <;> rfl
  rw [hxor, negateIf_ite]

theorem negateIf_sign_eq_zero_iff (b : DuInt) : negateIf (sign b) b = 0 ↔ b = 0 := by
  rw [negateIf_sign]
  cases b.msb with
  | false => exact Iff.rfl
  | true => exact BitVec.neg_eq_zero_iff

theorem divdi3_eq (a b : DuInt) : divdi3 a b = if b = 0 then none else some (a.sdiv b) := by
  have hdiv : negateIf (sign a ^^^ sign b) (negateIf (sign a) a / negateIf (sign b) b) =
      a.sdiv b := by
    rw [negateIf_signs, negateIf_sign, negateIf_sign, BitVec.sdiv_eq]
    cases a.msb <;> cases b.msb <;> rfl
  rw [divdi3, udivdi3, udivmoddi4_eq]
  simp only [negateIf_sign_eq_zero_iff]
  split
  · rfl
  · exact congrArg some hdiv

theorem moddi3_eq (a b : DuInt) : moddi3 a b = if b = 0 then none else some (a.srem b) := by
  have hmod : negateIf (sign a) (negateIf (sign a) a % negateIf (sign b) b) = a.srem b := by
    rw [negateIf_sign, negateIf_sign, negateIf_sign, BitVec.srem_eq]
    cases a.msb <;> cases b.msb <;> rfl
  rw [moddi3, umoddi3, udivmoddi4_eq]
  simp only [negateIf_sign_eq_zero_iff]
  split
  · rfl
  · exact congrArg some hmod

theorem sub_sdiv_mul (a b : DuInt) : a - a.sdiv b * b = a.srem b := by
  have hq : a.sdiv b = BitVec.ofInt 64 (a.toInt.tdiv b.toInt) := by
    apply BitVec.eq_of_toInt_eq
    rw [BitVec.toInt_sdiv, BitVec.toInt_ofInt]
  have ha := BitVec.ofInt_toInt (x := a)
  have hb := BitVec.ofInt_toInt (x := b)
  have hr := BitVec.ofInt_toInt (x := a.srem b)
  rw [BitVec.toInt_srem, Int.tmod_def, Int.sub_eq_add_neg, BitVec.ofInt_add, BitVec.ofInt_neg,
    BitVec.ofInt_mul, ha, hb, ← hq] at hr
  rw [← hr, BitVec.mul_comm, BitVec.sub_eq_add_neg]

theorem divmoddi4_eq (a b : DuInt) :
    divmoddi4 a b = if b = 0 then none else some (a.sdiv b, a.srem b) := by
  rw [divmoddi4, divdi3_eq]
  split
  · rfl
  · exact congrArg some (congrArg (a.sdiv b, ·) (sub_sdiv_mul a b))

/-- The six functions divide whatever they are given, rounding towards zero where
numbers have signs, and only a zero divisor is undefined. -/
theorem int64_eq (a b : DuInt) :
    udivmoddi4 a b = (if b = 0 then none else some (a / b, a % b)) ∧
      udivdi3 a b = (if b = 0 then none else some (a / b)) ∧
      umoddi3 a b = (if b = 0 then none else some (a % b)) ∧
      divmoddi4 a b = (if b = 0 then none else some (a.sdiv b, a.srem b)) ∧
      divdi3 a b = (if b = 0 then none else some (a.sdiv b)) ∧
      moddi3 a b = (if b = 0 then none else some (a.srem b)) := by
  refine ⟨udivmoddi4_eq a b, ?_, ?_, divmoddi4_eq a b, divdi3_eq a b, moddi3_eq a b⟩
  · rw [udivdi3, udivmoddi4_eq]
    split <;> rfl
  · rw [umoddi3, udivmoddi4_eq]
    split <;> rfl

end LinuxCpu.Klib
