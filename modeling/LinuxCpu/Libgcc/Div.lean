import LinuxCpu.Lib.BitSerial
import LinuxCpu.RiscV.Program

/-! `div.S` of `libgcc`: division on a hart without the M extension. -/

namespace LinuxCpu.Libgcc

open RiscV Asm

namespace DivS

def divdi3 : Nat := 0
def udivdi3 : Nat := 2
def L1 : Nat := 8
def L2 : Nat := 12
def L3 : Nat := 13
def L4 : Nat := 16
def L5 : Nat := 19
def umoddi3 : Nat := 20
def L10 : Nat := 24
def L11 : Nat := 28
def L12 : Nat := 29
def moddi3 : Nat := 33
def L30 : Nat := 36
def L31 : Nat := 39
def L32 : Nat := 41

def rel (k label : Nat) : Int := label - k

/-- `div.S` from `__divdi3` to the end of `__moddi3`, the same for both widths. -/
def code : List Instr :=
  [ -- __divdi3
    bltz a0 (rel 0 L10),
    bltz a1 (rel 1 L11),
    -- __udivdi3
    mv a2 a1,
    mv a1 a0,
    li a0 (-1),
    beqz a2 (rel 5 L5),
    li a3 1,
    bgeu a2 a1 (rel 7 L2),
    -- .L1
    blez a2 (rel 8 L2),
    slli a2 a2 1,
    slli a3 a3 1,
    bgtu a1 a2 (rel 11 L1),
    -- .L2
    li a0 0,
    -- .L3
    bltu a1 a2 (rel 13 L4),
    .opReg .sub a1 a1 a2,
    .opReg .or a0 a0 a3,
    -- .L4
    srli a3 a3 1,
    srli a2 a2 1,
    bnez a3 (rel 18 L3),
    -- .L5
    ret,
    -- __umoddi3
    mv t0 ra,
    jal (rel 21 udivdi3),
    mv a0 a1,
    jr t0,
    -- .L10
    neg a0 a0,
    bgtz a1 (rel 25 L12),
    neg a1 a1,
    j (rel 27 udivdi3),
    -- .L11
    neg a1 a1,
    -- .L12
    mv t0 ra,
    jal (rel 30 udivdi3),
    neg a0 a0,
    jr t0,
    -- __moddi3
    mv t0 ra,
    bltz a1 (rel 34 L31),
    bltz a0 (rel 35 L32),
    -- .L30
    jal (rel 36 udivdi3),
    mv a0 a1,
    jr t0,
    -- .L31
    neg a1 a1,
    bgez a0 (rel 40 L30),
    -- .L32
    neg a0 a0,
    jal (rel 42 udivdi3),
    neg a0 a1,
    jr t0]

end DivS

open DivS

variable {w : Nat} {fetch : State w → BitVec 32} {ok : Instr → State w → Prop} {base : BitVec w}
  {s : State w} (ra' t0' : BitVec w)

theorem bge_zero {d : BitVec w} (h : 0 < d.toNat) : BranchOp.bge.taken 0 d = d.msb := by
  have hd := BitVec.toInt_neg_iff (x := d)
  have hm := BitVec.msb_eq_true_iff_two_mul_ge (x := d)
  have h0 : d.toInt ≠ 0 := by
    rw [← BitVec.toInt_zero (w := w), Ne, BitVec.toInt_inj]
    rintro rfl
    exact absurd h (by simp)
  have hz : (0 : BitVec w).toInt = 0 := BitVec.toInt_zero
  rw [BranchOp.taken, hz, Bool.eq_iff_iff, decide_eq_true_iff, hm]
  omega

theorem toNat_double {d : BitVec w} (h : d.msb = false) : (d <<< 1).toNat = 2 * d.toNat := by
  have := BitVec.msb_eq_false_iff_two_mul_lt.mp h
  rw [BitVec.toNat_shiftLeft, Nat.shiftLeft_eq, Nat.mod_eq_of_lt (by omega)]
  omega

theorem exponent_lt {d : BitVec w} {b j : Nat} (hb : 0 < b) (hd : d.toNat = b * 2 ^ j) :
    j < w := by
  have hle : 2 ^ j ≤ d.toNat := hd ▸ Nat.le_mul_of_pos_left _ hb
  exact (Nat.pow_lt_pow_iff_right (by decide)).mp (Nat.lt_of_le_of_lt hle d.isLt)

section Normalize

theorem normalize (h : Loaded fetch ok base DivS.code s.mem) (hw : 1 < w) {q a d m : BitVec w}
    {b j : Nat} (hb : 0 < b) (hd : d.toNat = b * 2 ^ j) (hm : m.toNat = 2 ^ j)
    (hlt : d.toNat < a.toNat) (n : Nat) (hn : w ≤ j + n) :
    ∃ d' m' j', Reach fetch ok (4 * n) (s.on base L1 ⟨ra', t0', q, a, d, m⟩)
        (s.on base L2 ⟨ra', t0', q, a, d', m'⟩) ∧
      d'.toNat = b * 2 ^ j' ∧ m'.toNat = 2 ^ j' ∧ a.toNat < 2 * d'.toNat ∧ j' < w := by
  induction n generalizing d m j with
  | zero =>
    have := exponent_lt hb hd
    omega
  | succ n ih =>
    have hpos : 0 < d.toNat := hd ▸ Nat.mul_pos hb (Nat.two_pow_pos j)
    cases hs : d.msb with
    | true =>
      have hhalf := BitVec.msb_eq_true_iff_two_mul_ge.mp hs
      have ha := a.isLt
      refine ⟨d, m, j, Reach.mono ?_ (by omega : 1 ≤ _), hd, hm, by omega, exponent_lt hb hd⟩
      exact h.taken (k := L1) (f := ⟨ra', t0', q, a, d, m⟩) rfl (.inr rfl) (.inl rfl) (by decide)
        ((bge_zero hpos).trans hs)
    | false =>
      have hd2 : (d <<< 1).toNat = b * 2 ^ (j + 1) := by
        rw [toNat_double hs, hd, Nat.pow_succ]
        ring
      have hm2 : (m <<< 1).toNat = 2 ^ (j + 1) := by
        have hlt := BitVec.msb_eq_false_iff_two_mul_lt.mp hs
        have hle : 2 ^ j ≤ b * 2 ^ j := Nat.le_mul_of_pos_left _ hb
        rw [toNat_double (BitVec.msb_eq_false_iff_two_mul_lt.mpr (by omega)), hm, Nat.pow_succ,
          Nat.mul_comm]
      have hdouble : Reach fetch ok (1 + (1 + 1)) (s.on base L1 ⟨ra', t0', q, a, d, m⟩)
          (s.on base 11 ⟨ra', t0', q, a, d <<< 1, m <<< 1⟩) :=
        (h.next (f := ⟨ra', t0', q, a, d, m⟩)
          (by rfl : DivS.code[L1]? = some (blez a2 (rel 8 L2))) (.inr rfl) (.inl rfl)
          ((bge_zero hpos).trans hs)).trans
          ((h.slli (by rfl : DivS.code[9]? = some (slli a2 a2 1)) rfl rfl hw).trans
            (h.slli (by rfl : DivS.code[10]? = some (slli a3 a3 1)) rfl rfl hw))
      by_cases hle : (d <<< 1).toNat < a.toNat
      · have hback : Reach fetch ok 1 (s.on base 11 ⟨ra', t0', q, a, d <<< 1, m <<< 1⟩)
            (s.on base L1 ⟨ra', t0', q, a, d <<< 1, m <<< 1⟩) :=
          h.taken (f := ⟨ra', t0', q, a, d <<< 1, m <<< 1⟩)
            (by rfl : DivS.code[11]? = some (bgtu a1 a2 (rel 11 L1))) (.inl rfl) (.inl rfl)
            (by decide) (decide_eq_true hle)
        obtain ⟨d', m', j', hr, hrest⟩ := ih hd2 hm2 hle (by omega)
        exact ⟨d', m', j', ((hdouble.trans hback).trans hr).mono (by omega), hrest⟩
      · have hout : Reach fetch ok 1 (s.on base 11 ⟨ra', t0', q, a, d <<< 1, m <<< 1⟩)
            (s.on base L2 ⟨ra', t0', q, a, d <<< 1, m <<< 1⟩) :=
          h.next (f := ⟨ra', t0', q, a, d <<< 1, m <<< 1⟩)
            (by rfl : DivS.code[11]? = some (bgtu a1 a2 (rel 11 L1))) (.inl rfl) (.inl rfl)
            (decide_eq_false hle)
        exact ⟨d <<< 1, m <<< 1, j + 1, (hdouble.trans hout).mono (by omega), hd2, hm2, by omega,
          exponent_lt hb hd2⟩

end Normalize

section Divide

variable {q r d m : BitVec w} {a b i : Nat}

theorem attempt (h : Loaded fetch ok base DivS.code s.mem) (hd : d.toNat = b * 2 ^ i)
    (hm : m.toNat = 2 ^ i) (hi : ShiftSub.Inv a b (i + 1) q.toNat r.toNat) :
    ∃ q' r', Reach fetch ok 3 (s.on base L3 ⟨ra', t0', q, r, d, m⟩)
        (s.on base L4 ⟨ra', t0', q', r', d, m⟩) ∧
      ShiftSub.Inv a b i q'.toNat r'.toNat := by
  by_cases hlt : r.toNat < d.toNat
  · refine ⟨q, r, Reach.mono ?_ (by decide : 1 ≤ 3), hi.skip (hd ▸ hlt)⟩
    exact h.taken (f := ⟨ra', t0', q, r, d, m⟩)
      (by rfl : DivS.code[L3]? = some (.branch .bltu a1 a2 (offset 12 (rel 13 L4)))) (.inl rfl)
      (.inl rfl) (by decide) (decide_eq_true hlt)
  · have hsub := hi.sub (hd ▸ Nat.le_of_not_lt hlt)
    have hq : (q ||| m).toNat = q.toNat + 2 ^ i := by
      rw [BitVec.toNat_or, hm, hi.or_eq]
    have hr : (r - d).toNat = r.toNat - b * 2 ^ i := by
      rw [BitVec.toNat_sub_of_le (BitVec.le_def.mpr (Nat.le_of_not_lt hlt)), hd]
    refine ⟨q ||| m, r - d, ?_, by rw [hq, hr]; exact hsub⟩
    exact (h.next (f := ⟨ra', t0', q, r, d, m⟩)
      (by rfl : DivS.code[L3]? = some (bltu a1 a2 (rel 13 L4))) (.inl rfl) (.inl rfl)
      (decide_eq_false hlt)).trans
      ((h.opReg (by rfl : DivS.code[14]? = some (.opReg .sub a1 a1 a2)) rfl (.inl rfl)
        (.inl rfl)).trans
        (h.opReg (by rfl : DivS.code[15]? = some (.opReg .or a0 a0 a3)) rfl (.inl rfl) (.inl rfl)))

theorem toNat_half {x : BitVec w} (c : Nat) (hx : x.toNat = c * 2 ^ (i + 1)) :
    (x >>> 1).toNat = c * 2 ^ i := by
  rw [BitVec.toNat_ushiftRight, hx, Nat.shiftRight_eq_div_pow, Nat.pow_succ, ← Nat.mul_assoc]
  exact Nat.mul_div_cancel _ (by decide)

theorem halve (h : Loaded fetch ok base DivS.code s.mem) (hw : 1 < w) :
    Reach fetch ok (1 + 1) (s.on base L4 ⟨ra', t0', q, r, d, m⟩)
      (s.on base 18 ⟨ra', t0', q, r, d >>> 1, m >>> 1⟩) :=
  (h.srli (f := ⟨ra', t0', q, r, d, m⟩)
    (by rfl : DivS.code[L4]? = some (srli a3 a3 1)) rfl rfl hw).trans
    (h.srli (by rfl : DivS.code[17]? = some (srli a2 a2 1)) rfl rfl hw)

theorem divide (h : Loaded fetch ok base DivS.code s.mem) (hw : 1 < w)
    (hd : d.toNat = b * 2 ^ i) (hm : m.toNat = 2 ^ i)
    (hi : ShiftSub.Inv a b (i + 1) q.toNat r.toNat) :
    ∃ q' r' d' m', Reach fetch ok (6 * (i + 1)) (s.on base L3 ⟨ra', t0', q, r, d, m⟩)
        (s.on base L5 ⟨ra', t0', q', r', d', m'⟩) ∧
      q'.toNat = a / b ∧ r'.toNat = a % b := by
  induction i generalizing q r d m with
  | zero =>
    obtain ⟨q', r', ht, hi'⟩ := attempt ra' t0' h hd hm hi
    obtain ⟨hdiv, hmod⟩ := hi'.finish
    have hm0 : m >>> 1 = 0 := by
      apply BitVec.eq_of_toNat_eq
      rw [BitVec.toNat_ushiftRight, hm]
      rfl
    refine ⟨q', r', d >>> 1, m >>> 1, ?_, hdiv.symm, hmod.symm⟩
    refine ((ht.trans (halve ra' t0' h hw)).trans (Reach.mono ?_ (by decide : 1 ≤ 1))).mono (by omega)
    exact h.next (f := ⟨ra', t0', q', r', d >>> 1, m >>> 1⟩)
      (by rfl : DivS.code[18]? = some (bnez a3 (rel 18 L3))) (.inl rfl) (.inr rfl)
      (bne_eq_false_iff_eq.mpr hm0)
  | succ i ih =>
    obtain ⟨q', r', ht, hi'⟩ := attempt ra' t0' h hd hm hi
    have hm1 : (m >>> 1).toNat = 2 ^ i := by
      rw [toNat_half 1 (by rw [hm, Nat.one_mul]), Nat.one_mul]
    have hne : m >>> 1 ≠ 0 := by
      intro h0
      rw [h0] at hm1
      exact absurd hm1 (Nat.ne_of_lt (Nat.two_pow_pos i))
    obtain ⟨q'', r'', d'', m'', hrest, hdiv, hmod⟩ := ih (toNat_half b hd) hm1 hi'
    refine ⟨q'', r'', d'', m'', ?_, hdiv, hmod⟩
    have hback : Reach fetch ok 1 (s.on base 18 ⟨ra', t0', q', r', d >>> 1, m >>> 1⟩)
        (s.on base L3 ⟨ra', t0', q', r', d >>> 1, m >>> 1⟩) :=
      h.taken (f := ⟨ra', t0', q', r', d >>> 1, m >>> 1⟩)
        (by rfl : DivS.code[18]? = some (bnez a3 (rel 18 L3))) (.inl rfl) (.inr rfl) (by decide)
        (bne_iff_ne.mpr hne)
    exact (((ht.trans (halve ra' t0' h hw)).trans hback).trans hrest).mono (by omega)

end Divide

theorem bit_zero_of_even {x : BitVec w} (h : x.toNat % 2 = 0) : x &&& ~~~1 = x := by
  apply BitVec.eq_of_getLsbD_eq
  intro i hi
  cases i with
  | zero =>
    have h0 : x.getLsbD 0 = false := by
      rw [BitVec.getLsbD, Nat.testBit_zero, h]
      rfl
    rw [BitVec.getLsbD_and, h0, Bool.false_and]
  | succ i => simp [hi]

theorem slot_even (hw : 1 < w) (hb : base.toNat % 4 = 0) (k : Nat) :
    slot base k &&& ~~~1 = slot base k := by
  apply bit_zero_of_even
  have h2 : 2 ∣ 2 ^ w := dvd_pow_self 2 (by omega)
  rw [slot, BitVec.toNat_add, BitVec.toNat_ofNat, Nat.add_mod_mod, Nat.mod_mod_of_dvd _ h2]
  omega

theorem scale (h : Loaded fetch ok base DivS.code s.mem) (hw : 1 < w) (q a : BitVec w)
    {b : BitVec w} (hb : 0 < b.toNat) :
    ∃ d m i, Reach fetch ok (4 * w + 1) (s.on base 7 ⟨ra', t0', q, a, b, 1⟩)
        (s.on base L2 ⟨ra', t0', q, a, d, m⟩) ∧
      d.toNat = b.toNat * 2 ^ i ∧ m.toNat = 2 ^ i ∧ a.toNat < 2 * d.toNat ∧ i < w := by
  have hone : (1 : BitVec w).toNat = 2 ^ 0 := by
    change (1#w).toNat = 1
    rw [BitVec.toNat_ofNat, Nat.mod_eq_of_lt (Nat.one_lt_two_pow (by omega))]
  have hb0 : b.toNat = b.toNat * 2 ^ 0 := by rw [Nat.pow_zero, Nat.mul_one]
  by_cases hle : a.toNat ≤ b.toNat
  · refine ⟨b, 1, 0, Reach.mono ?_ (Nat.le_add_left 1 _), hb0, hone, by omega, by omega⟩
    exact h.taken (f := ⟨ra', t0', q, a, b, 1⟩)
      (by rfl : DivS.code[7]? = some (bgeu a2 a1 (rel 7 L2))) (.inl rfl) (.inl rfl) (by decide)
      (decide_eq_true hle)
  · have hnext : Reach fetch ok 1 (s.on base 7 ⟨ra', t0', q, a, b, 1⟩)
        (s.on base L1 ⟨ra', t0', q, a, b, 1⟩) :=
      h.next (f := ⟨ra', t0', q, a, b, 1⟩)
        (by rfl : DivS.code[7]? = some (bgeu a2 a1 (rel 7 L2))) (.inl rfl) (.inl rfl)
        (decide_eq_false hle)
    obtain ⟨d, m, i, hr, hrest⟩ := normalize ra' t0' h hw (q := q) hb hb0 hone
      (Nat.lt_of_not_le hle) w (by omega)
    exact ⟨d, m, i, (hnext.trans hr).mono (by omega), hrest⟩

/-- `__udivdi3` leaves the quotient in `a0` and the remainder in `a1`. -/
theorem udivdi3_returns (h : Loaded fetch ok base DivS.code s.mem) (hw : 1 < w)
    (a b x y : BitVec w) :
    ∃ d m, Reach fetch ok (10 * w + 8) (s.on base udivdi3 ⟨ra', t0', a, b, x, y⟩)
      (s.put (ra' &&& ~~~1) ⟨ra', t0', divUnsigned a b, remUnsigned a b, d, m⟩) := by
  have hinit : Reach fetch ok (1 + (1 + 1)) (s.on base udivdi3 ⟨ra', t0', a, b, x, y⟩)
      (s.on base 5 ⟨ra', t0', BitVec.allOnes w, a, b, y⟩) :=
    (h.mv (f := ⟨ra', t0', a, b, x, y⟩) (by rfl : DivS.code[udivdi3]? = some (mv a2 a1))
      rfl rfl).trans ((h.mv (by rfl : DivS.code[3]? = some (mv a1 a0)) rfl rfl).trans
        (h.li (by rfl : DivS.code[4]? = some (li a0 (-1))) rfl (signExtend_neg_one w)))
  have hret (q r d m : BitVec w) : Reach fetch ok 1 (s.on base L5 ⟨ra', t0', q, r, d, m⟩)
      (s.put (ra' &&& ~~~1) ⟨ra', t0', q, r, d, m⟩) :=
    h.jr (f := ⟨ra', t0', q, r, d, m⟩) (by rfl : DivS.code[L5]? = some ret) rfl
  by_cases hb : b = 0
  · refine ⟨b, y, ?_⟩
    have hskip : Reach fetch ok 1 (s.on base 5 ⟨ra', t0', BitVec.allOnes w, a, b, y⟩)
        (s.on base L5 ⟨ra', t0', BitVec.allOnes w, a, b, y⟩) :=
      h.taken (f := ⟨ra', t0', BitVec.allOnes w, a, b, y⟩)
        (by rfl : DivS.code[5]? = some (beqz a2 (rel 5 L5))) (.inl rfl) (.inr rfl) (by decide)
        (beq_iff_eq.mpr hb)
    rw [divUnsigned, remUnsigned, if_pos hb, if_pos hb]
    exact ((hinit.trans hskip).trans (hret ..)).mono (by omega)
  · have hpos : 0 < b.toNat := Nat.pos_of_ne_zero fun h0 => hb (BitVec.eq_of_toNat_eq h0)
    have hone : Reach fetch ok (1 + 1) (s.on base 5 ⟨ra', t0', BitVec.allOnes w, a, b, y⟩)
        (s.on base 7 ⟨ra', t0', BitVec.allOnes w, a, b, 1⟩) :=
      (h.next (f := ⟨ra', t0', BitVec.allOnes w, a, b, y⟩)
        (by rfl : DivS.code[5]? = some (beqz a2 (rel 5 L5))) (.inl rfl) (.inr rfl)
        (beq_eq_false_iff_ne.mpr hb)).trans
        (h.li (by rfl : DivS.code[6]? = some (li a3 1)) rfl (signExtend_one w))
    obtain ⟨d, m, i, hscale, hd, hm, hlt, hi⟩ := scale ra' t0' h hw (BitVec.allOnes w) a hpos
    have hzero : Reach fetch ok 1 (s.on base L2 ⟨ra', t0', BitVec.allOnes w, a, d, m⟩)
        (s.on base L3 ⟨ra', t0', 0, a, d, m⟩) :=
      h.li (f := ⟨ra', t0', BitVec.allOnes w, a, d, m⟩)
        (by rfl : DivS.code[L2]? = some (li a0 0)) rfl (signExtend_zero 12 w)
    have hinv : ShiftSub.Inv a.toNat b.toNat (i + 1) (0 : BitVec w).toNat a.toNat :=
      ShiftSub.Inv.start (by rw [Nat.pow_succ, ← Nat.mul_assoc, ← hd]; omega)
    obtain ⟨q, r, d', m', hdiv, hq, hr⟩ := divide ra' t0' h hw hd hm hinv
    have hq : divUnsigned a b = q := by
      rw [divUnsigned, if_neg hb, ← hq, BitVec.ofNat_toNat, BitVec.setWidth_eq]
    have hr : remUnsigned a b = r := by
      rw [remUnsigned, if_neg hb, ← hr, BitVec.ofNat_toNat, BitVec.setWidth_eq]
    refine ⟨d', m', ?_⟩
    rw [hq, hr]
    exact (((((hinit.trans hone).trans hscale).trans hzero).trans hdiv).trans (hret ..)).mono
      (by omega)

end LinuxCpu.Libgcc
