import LinuxCpu.Libgcc.Div

/-! The entries of `div.S` that call `__udivdi3`. -/

namespace LinuxCpu.Libgcc

open RiscV Asm DivS

section Signs

variable {w : Nat} {a b : BitVec w}

theorem divUnsigned_of_ne (hb : b ≠ 0) : divUnsigned a b = a / b := by
  rw [divUnsigned, if_neg hb, ← BitVec.toNat_udiv, BitVec.ofNat_toNat, BitVec.setWidth_eq]

theorem remUnsigned_eq (a b : BitVec w) : remUnsigned a b = a % b := by
  rw [remUnsigned]
  split
  · next hb => rw [hb]; exact BitVec.umod_zero.symm
  · rw [← BitVec.toNat_umod, BitVec.ofNat_toNat, BitVec.setWidth_eq]

theorem divSigned_of_ne (hb : b ≠ 0) : divSigned a b = a.sdiv b := by
  rw [divSigned, if_neg hb]
  split
  · next h =>
    rw [h.1, h.2, ← BitVec.neg_one_eq_allOnes, BitVec.intMin_sdiv_neg_one]
  · next h =>
    have hne : a ≠ BitVec.intMin w ∨ b ≠ -1#w := by
      rw [BitVec.neg_one_eq_allOnes]
      exact Decidable.not_and_iff_or_not.mp h
    rw [← BitVec.toInt_sdiv_of_ne_or_ne a b hne, BitVec.ofInt_toInt]

theorem remSigned_eq (hw : 0 < w) (a b : BitVec w) : remSigned a b = a.srem b := by
  rw [remSigned, ← BitVec.toInt_srem, BitVec.ofInt_toInt]
  split
  · next hb => rw [hb]; exact BitVec.srem_zero.symm
  split
  · next h =>
    apply BitVec.eq_of_toInt_eq
    rw [BitVec.toInt_srem, h.2, BitVec.toInt_allOnes, if_pos hw, Int.tmod_neg, Int.tmod_one]
    exact BitVec.toInt_zero
  · rfl

theorem divSigned_pos (ha : a.msb = false) (hb : b.msb = false) :
    divSigned a b = divUnsigned a b := by
  by_cases h0 : b = 0
  · rw [divSigned, divUnsigned, if_pos h0, if_pos h0]
  · rw [divSigned_of_ne h0, divUnsigned_of_ne h0, BitVec.sdiv_eq, ha, hb]
    rfl

theorem divSigned_neg_right (ha : a.msb = false) (hb : b.msb = true) :
    divSigned a b = -divUnsigned a (-b) := by
  have h0 : b ≠ 0 := by
    rintro rfl
    cases BitVec.msb_zero.symm.trans hb
  rw [divSigned_of_ne h0, divUnsigned_of_ne (BitVec.neg_eq_zero_iff.not.mpr h0), BitVec.sdiv_eq,
    ha, hb]
  rfl

theorem divSigned_neg_left (ha : a.msb = true) (hb : b.msb = false) (h0 : b ≠ 0) :
    divSigned a b = -divUnsigned (-a) b := by
  rw [divSigned_of_ne h0, divUnsigned_of_ne h0, BitVec.sdiv_eq, ha, hb]
  rfl

theorem divSigned_neg_neg (ha : a.msb = true) (hb : b.msb = true ∨ b = 0) :
    divSigned a b = divUnsigned (-a) (-b) := by
  by_cases h0 : b = 0
  · have hn : -b = 0 := BitVec.neg_eq_zero_iff.mpr h0
    rw [divSigned, divUnsigned, if_pos h0, if_pos hn]
  · rw [divSigned_of_ne h0, divUnsigned_of_ne (BitVec.neg_eq_zero_iff.not.mpr h0), BitVec.sdiv_eq,
      ha, hb.resolve_right h0]
    rfl

theorem remSigned_of_msb (hw : 0 < w) (a b : BitVec w) :
    remSigned a b =
      let r := remUnsigned (if a.msb then -a else a) (if b.msb then -b else b)
      if a.msb then -r else r := by
  rw [remSigned_eq hw, BitVec.srem_eq]
  cases a.msb <;> cases b.msb <;> exact (remUnsigned_eq _ _).symm ▸ rfl

end Signs

variable {w : Nat} {fetch : State w → BitVec 32} {ok : Instr → State w → Prop} {base : BitVec w}
  {s : State w} (ra' t0' : BitVec w)

theorem call_udivdi3 (h : Loaded fetch ok base DivS.code s.mem) (hw : 1 < w)
    (hb : base.toNat % 4 = 0) {k : Nat} (hk : DivS.code[k]? = some (jal (rel k udivdi3)))
    (hk' : k < 1024) (a b x y : BitVec w) :
    ∃ d m, Reach fetch ok (10 * w + 9) (s.on base k ⟨ra', t0', a, b, x, y⟩)
      (s.on base (k + 1)
        ⟨slot base (k + 1), t0', divUnsigned a b, remUnsigned a b, d, m⟩) := by
  have hjal : Reach fetch ok 1 (s.on base k ⟨ra', t0', a, b, x, y⟩)
      (s.on base udivdi3 ⟨slot base (k + 1), t0', a, b, x, y⟩) :=
    h.jal hk (by rw [rel, udivdi3]; omega)
  obtain ⟨d, m, hret⟩ := udivdi3_returns (slot base (k + 1)) t0' h hw a b x y
  rw [slot_even hw hb] at hret
  exact ⟨d, m, (hjal.trans hret).mono (by omega)⟩

theorem umoddi3_returns (h : Loaded fetch ok base DivS.code s.mem) (hw : 1 < w)
    (hb : base.toNat % 4 = 0) (a b x y : BitVec w) :
    ∃ f, Reach fetch ok (10 * w + 12) (s.on base umoddi3 ⟨ra', t0', a, b, x, y⟩)
        (s.put (ra' &&& ~~~1) f) ∧ f.a0 = remUnsigned a b := by
  have hmv : Reach fetch ok 1 (s.on base umoddi3 ⟨ra', t0', a, b, x, y⟩)
      (s.on base 21 ⟨ra', ra', a, b, x, y⟩) :=
    h.mv (by rfl : DivS.code[umoddi3]? = some (mv t0 ra)) rfl rfl
  obtain ⟨d, m, hcall⟩ := call_udivdi3 ra' ra' h hw hb (by rfl : DivS.code[21]? = _) (by decide)
    a b x y
  have hout : Reach fetch ok (1 + 1)
      (s.on base 22 ⟨slot base 22, ra', divUnsigned a b, remUnsigned a b, d, m⟩)
      (s.put (ra' &&& ~~~1) ⟨slot base 22, ra', remUnsigned a b, remUnsigned a b, d, m⟩) :=
    (h.mv (f := ⟨slot base 22, ra', divUnsigned a b, remUnsigned a b, d, m⟩)
      (by rfl : DivS.code[22]? = some (mv a0 a1)) rfl rfl).trans
      (h.jr (by rfl : DivS.code[23]? = some (jr t0)) rfl)
  exact ⟨_, ((hmv.trans hcall).trans hout).mono (by omega), rfl⟩

theorem blt_zero (x : BitVec w) : BranchOp.blt.taken x 0 = x.msb := by
  have hz : (0 : BitVec w).toInt = 0 := BitVec.toInt_zero
  rw [BranchOp.taken, hz, BitVec.msb_eq_toInt]

theorem bge_zero_right (x : BitVec w) : BranchOp.bge.taken x 0 = !x.msb := by
  have hz : (0 : BitVec w).toInt = 0 := BitVec.toInt_zero
  rw [BranchOp.taken, hz, BitVec.msb_eq_toInt, Bool.eq_iff_iff]
  simp

theorem zero_blt_eq_true_iff (x : BitVec w) :
    BranchOp.blt.taken 0 x = true ↔ x.msb = false ∧ x ≠ 0 := by
  have hz : (0 : BitVec w).toInt = 0 := BitVec.toInt_zero
  rw [BranchOp.taken, hz, BitVec.msb_eq_toInt, decide_eq_true_iff, decide_eq_false_iff_not, Ne,
    ← BitVec.toInt_inj, hz]
  omega

theorem negated (h : Loaded fetch ok base DivS.code s.mem) (hw : 1 < w)
    (hb : base.toNat % 4 = 0) (a b x y : BitVec w) :
    ∃ f, Reach fetch ok (10 * w + 12) (s.on base L12 ⟨ra', t0', a, b, x, y⟩)
        (s.put (ra' &&& ~~~1) f) ∧ f.a0 = -divUnsigned a b := by
  have hmv : Reach fetch ok 1 (s.on base L12 ⟨ra', t0', a, b, x, y⟩)
      (s.on base 30 ⟨ra', ra', a, b, x, y⟩) :=
    h.mv (by rfl : DivS.code[L12]? = some (mv t0 ra)) rfl rfl
  obtain ⟨d, m, hcall⟩ := call_udivdi3 ra' ra' h hw hb (by rfl : DivS.code[30]? = _) (by decide)
    a b x y
  have hout : Reach fetch ok (1 + 1)
      (s.on base 31 ⟨slot base 31, ra', divUnsigned a b, remUnsigned a b, d, m⟩)
      (s.put (ra' &&& ~~~1) ⟨slot base 31, ra', -divUnsigned a b, remUnsigned a b, d, m⟩) :=
    (h.neg (f := ⟨slot base 31, ra', divUnsigned a b, remUnsigned a b, d, m⟩)
      (by rfl : DivS.code[31]? = some (neg a0 a0)) rfl rfl).trans
      (h.jr (by rfl : DivS.code[32]? = some (jr t0)) rfl)
  exact ⟨_, ((hmv.trans hcall).trans hout).mono (by omega), rfl⟩

theorem divdi3_returns (h : Loaded fetch ok base DivS.code s.mem) (hw : 1 < w)
    (hb : base.toNat % 4 = 0) (a b x y : BitVec w) :
    ∃ f, Reach fetch ok (10 * w + 15) (s.on base divdi3 ⟨ra', t0', a, b, x, y⟩)
        (s.put (ra' &&& ~~~1) f) ∧ f.a0 = divSigned a b := by
  cases ha : a.msb with
  | false =>
    have h0 : Reach fetch ok 1 (s.on base divdi3 ⟨ra', t0', a, b, x, y⟩)
        (s.on base 1 ⟨ra', t0', a, b, x, y⟩) :=
      h.next (f := ⟨ra', t0', a, b, x, y⟩)
        (by rfl : DivS.code[divdi3]? = some (bltz a0 (rel 0 L10))) (.inl rfl) (.inr rfl)
        ((blt_zero a).trans ha)
    cases hbs : b.msb with
    | false =>
      have h1 : Reach fetch ok 1 (s.on base 1 ⟨ra', t0', a, b, x, y⟩)
          (s.on base udivdi3 ⟨ra', t0', a, b, x, y⟩) :=
        h.next (f := ⟨ra', t0', a, b, x, y⟩)
          (by rfl : DivS.code[1]? = some (bltz a1 (rel 1 L11))) (.inl rfl) (.inr rfl)
          ((blt_zero b).trans hbs)
      obtain ⟨d, m, hret⟩ := udivdi3_returns ra' t0' h hw a b x y
      exact ⟨_, ((h0.trans h1).trans hret).mono (by omega), (divSigned_pos ha hbs).symm⟩
    | true =>
      have h1 : Reach fetch ok (1 + 1) (s.on base 1 ⟨ra', t0', a, b, x, y⟩)
          (s.on base L12 ⟨ra', t0', a, -b, x, y⟩) :=
        (h.taken (f := ⟨ra', t0', a, b, x, y⟩)
          (by rfl : DivS.code[1]? = some (bltz a1 (rel 1 L11))) (.inl rfl) (.inr rfl) (by decide)
          ((blt_zero b).trans hbs)).trans
          (h.neg (by rfl : DivS.code[L11]? = some (neg a1 a1)) rfl rfl)
      obtain ⟨f, hret, hf⟩ := negated ra' t0' h hw hb a (-b) x y
      exact ⟨f, ((h0.trans h1).trans hret).mono (by omega),
        hf.trans (divSigned_neg_right ha hbs).symm⟩
  | true =>
    have h0 : Reach fetch ok (1 + 1) (s.on base divdi3 ⟨ra', t0', a, b, x, y⟩)
        (s.on base 25 ⟨ra', t0', -a, b, x, y⟩) :=
      (h.taken (f := ⟨ra', t0', a, b, x, y⟩)
        (by rfl : DivS.code[divdi3]? = some (bltz a0 (rel 0 L10))) (.inl rfl) (.inr rfl)
        (by decide) ((blt_zero a).trans ha)).trans
        (h.neg (by rfl : DivS.code[L10]? = some (neg a0 a0)) rfl rfl)
    by_cases hbs : b.msb = false ∧ b ≠ 0
    · have h1 : Reach fetch ok 1 (s.on base 25 ⟨ra', t0', -a, b, x, y⟩)
          (s.on base L12 ⟨ra', t0', -a, b, x, y⟩) :=
        h.taken (f := ⟨ra', t0', -a, b, x, y⟩)
          (by rfl : DivS.code[25]? = some (bgtz a1 (rel 25 L12))) (.inr rfl) (.inl rfl)
          (by decide) ((zero_blt_eq_true_iff b).mpr hbs)
      obtain ⟨f, hret, hf⟩ := negated ra' t0' h hw hb (-a) b x y
      exact ⟨f, ((h0.trans h1).trans hret).mono (by omega),
        hf.trans (divSigned_neg_left ha hbs.1 hbs.2).symm⟩
    · have h1 : Reach fetch ok (1 + (1 + 1)) (s.on base 25 ⟨ra', t0', -a, b, x, y⟩)
          (s.on base udivdi3 ⟨ra', t0', -a, -b, x, y⟩) :=
        (h.next (f := ⟨ra', t0', -a, b, x, y⟩)
          (by rfl : DivS.code[25]? = some (bgtz a1 (rel 25 L12))) (.inr rfl) (.inl rfl)
          (Bool.eq_false_iff.mpr ((zero_blt_eq_true_iff b).not.mpr hbs))).trans
          ((h.neg (by rfl : DivS.code[26]? = some (neg a1 a1)) rfl rfl).trans
            (h.j (by rfl : DivS.code[27]? = some (j (rel 27 udivdi3))) (by decide)))
      obtain ⟨d, m, hret⟩ := udivdi3_returns ra' t0' h hw (-a) (-b) x y
      have hsign : b.msb = true ∨ b = 0 := by
        cases hm : b.msb with
        | true => exact .inl rfl
        | false => exact .inr (Decidable.not_not.mp fun h0 => hbs ⟨hm, h0⟩)
      exact ⟨_, ((h0.trans h1).trans hret).mono (by omega), (divSigned_neg_neg ha hsign).symm⟩

theorem kept (h : Loaded fetch ok base DivS.code s.mem) (hw : 1 < w) (hb : base.toNat % 4 = 0)
    (a b x y : BitVec w) :
    ∃ f, Reach fetch ok (10 * w + 11) (s.on base L30 ⟨ra', t0', a, b, x, y⟩)
        (s.put (t0' &&& ~~~1) f) ∧ f.a0 = remUnsigned a b := by
  obtain ⟨d, m, hcall⟩ := call_udivdi3 ra' t0' h hw hb (by rfl : DivS.code[L30]? = _) (by decide)
    a b x y
  have hout : Reach fetch ok (1 + 1)
      (s.on base 37 ⟨slot base 37, t0', divUnsigned a b, remUnsigned a b, d, m⟩)
      (s.put (t0' &&& ~~~1) ⟨slot base 37, t0', remUnsigned a b, remUnsigned a b, d, m⟩) :=
    (h.mv (f := ⟨slot base 37, t0', divUnsigned a b, remUnsigned a b, d, m⟩)
      (by rfl : DivS.code[37]? = some (mv a0 a1)) rfl rfl).trans
      (h.jr (by rfl : DivS.code[38]? = some (jr t0)) rfl)
  exact ⟨_, (hcall.trans hout).mono (by omega), rfl⟩

theorem turned (h : Loaded fetch ok base DivS.code s.mem) (hw : 1 < w) (hb : base.toNat % 4 = 0)
    (a b x y : BitVec w) :
    ∃ f, Reach fetch ok (10 * w + 12) (s.on base L32 ⟨ra', t0', a, b, x, y⟩)
        (s.put (t0' &&& ~~~1) f) ∧ f.a0 = -remUnsigned (-a) b := by
  have hneg : Reach fetch ok 1 (s.on base L32 ⟨ra', t0', a, b, x, y⟩)
      (s.on base 42 ⟨ra', t0', -a, b, x, y⟩) :=
    h.neg (by rfl : DivS.code[L32]? = some (neg a0 a0)) rfl rfl
  obtain ⟨d, m, hcall⟩ := call_udivdi3 ra' t0' h hw hb (by rfl : DivS.code[42]? = _) (by decide)
    (-a) b x y
  have hout : Reach fetch ok (1 + 1)
      (s.on base 43 ⟨slot base 43, t0', divUnsigned (-a) b, remUnsigned (-a) b, d, m⟩)
      (s.put (t0' &&& ~~~1)
        ⟨slot base 43, t0', -remUnsigned (-a) b, remUnsigned (-a) b, d, m⟩) :=
    (h.neg (f := ⟨slot base 43, t0', divUnsigned (-a) b, remUnsigned (-a) b, d, m⟩)
      (by rfl : DivS.code[43]? = some (neg a0 a1)) rfl rfl).trans
      (h.jr (by rfl : DivS.code[44]? = some (jr t0)) rfl)
  exact ⟨_, ((hneg.trans hcall).trans hout).mono (by omega), rfl⟩

theorem moddi3_returns (h : Loaded fetch ok base DivS.code s.mem) (hw : 1 < w)
    (hb : base.toNat % 4 = 0) (a b x y : BitVec w) :
    ∃ f, Reach fetch ok (10 * w + 16) (s.on base moddi3 ⟨ra', t0', a, b, x, y⟩)
        (s.put (ra' &&& ~~~1) f) ∧ f.a0 = remSigned a b := by
  have hrem := remSigned_of_msb (Nat.lt_trans Nat.zero_lt_one hw) a b
  have hmv : Reach fetch ok 1 (s.on base moddi3 ⟨ra', t0', a, b, x, y⟩)
      (s.on base 34 ⟨ra', ra', a, b, x, y⟩) :=
    h.mv (by rfl : DivS.code[moddi3]? = some (mv t0 ra)) rfl rfl
  cases hbs : b.msb with
  | false =>
    have h1 : Reach fetch ok 1 (s.on base 34 ⟨ra', ra', a, b, x, y⟩)
        (s.on base 35 ⟨ra', ra', a, b, x, y⟩) :=
      h.next (f := ⟨ra', ra', a, b, x, y⟩)
        (by rfl : DivS.code[34]? = some (bltz a1 (rel 34 L31))) (.inl rfl) (.inr rfl)
        ((blt_zero b).trans hbs)
    cases ha : a.msb with
    | false =>
      have h2 : Reach fetch ok 1 (s.on base 35 ⟨ra', ra', a, b, x, y⟩)
          (s.on base L30 ⟨ra', ra', a, b, x, y⟩) :=
        h.next (f := ⟨ra', ra', a, b, x, y⟩)
          (by rfl : DivS.code[35]? = some (bltz a0 (rel 35 L32))) (.inl rfl) (.inr rfl)
          ((blt_zero a).trans ha)
      obtain ⟨f, hret, hf⟩ := kept ra' ra' h hw hb a b x y
      rw [ha, hbs] at hrem
      exact ⟨f, (((hmv.trans h1).trans h2).trans hret).mono (by omega), hf.trans hrem.symm⟩
    | true =>
      have h2 : Reach fetch ok 1 (s.on base 35 ⟨ra', ra', a, b, x, y⟩)
          (s.on base L32 ⟨ra', ra', a, b, x, y⟩) :=
        h.taken (f := ⟨ra', ra', a, b, x, y⟩)
          (by rfl : DivS.code[35]? = some (bltz a0 (rel 35 L32))) (.inl rfl) (.inr rfl)
          (by decide) ((blt_zero a).trans ha)
      obtain ⟨f, hret, hf⟩ := turned ra' ra' h hw hb a b x y
      rw [ha, hbs] at hrem
      exact ⟨f, (((hmv.trans h1).trans h2).trans hret).mono (by omega), hf.trans hrem.symm⟩
  | true =>
    have h1 : Reach fetch ok (1 + 1) (s.on base 34 ⟨ra', ra', a, b, x, y⟩)
        (s.on base 40 ⟨ra', ra', a, -b, x, y⟩) :=
      (h.taken (f := ⟨ra', ra', a, b, x, y⟩)
        (by rfl : DivS.code[34]? = some (bltz a1 (rel 34 L31))) (.inl rfl) (.inr rfl) (by decide)
        ((blt_zero b).trans hbs)).trans
        (h.neg (by rfl : DivS.code[L31]? = some (neg a1 a1)) rfl rfl)
    cases ha : a.msb with
    | false =>
      have h2 : Reach fetch ok 1 (s.on base 40 ⟨ra', ra', a, -b, x, y⟩)
          (s.on base L30 ⟨ra', ra', a, -b, x, y⟩) :=
        h.taken (f := ⟨ra', ra', a, -b, x, y⟩)
          (by rfl : DivS.code[40]? = some (bgez a0 (rel 40 L30))) (.inl rfl) (.inr rfl)
          (by decide) ((bge_zero_right a).trans (by rw [ha]; rfl))
      obtain ⟨f, hret, hf⟩ := kept ra' ra' h hw hb a (-b) x y
      rw [ha, hbs] at hrem
      exact ⟨f, (((hmv.trans h1).trans h2).trans hret).mono (by omega), hf.trans hrem.symm⟩
    | true =>
      have h2 : Reach fetch ok 1 (s.on base 40 ⟨ra', ra', a, -b, x, y⟩)
          (s.on base L32 ⟨ra', ra', a, -b, x, y⟩) :=
        h.next (f := ⟨ra', ra', a, -b, x, y⟩)
          (by rfl : DivS.code[40]? = some (bgez a0 (rel 40 L30))) (.inl rfl) (.inr rfl)
          ((bge_zero_right a).trans (by rw [ha]; rfl))
      obtain ⟨f, hret, hf⟩ := turned ra' ra' h hw hb a (-b) x y
      rw [ha, hbs] at hrem
      exact ⟨f, (((hmv.trans h1).trans h2).trans hret).mono (by omega), hf.trans hrem.symm⟩

namespace DivS

/-- The functions of `div.S` that stand for an instruction of the M extension. -/
def entry : MulDivOp → Option Nat
  | .divu => some udivdi3
  | .remu => some umoddi3
  | .div => some divdi3
  | .rem => some moddi3
  | _ => none

end DivS

/-- Each function of `div.S` returns what its instruction computes, for every
dividend and divisor. -/
theorem DivS.entry_returns (h : Loaded fetch ok base DivS.code s.mem) (hw : 1 < w)
    (hb : base.toNat % 4 = 0) {op : MulDivOp} {k : Nat} (hk : DivS.entry op = some k)
    (hpc : s.pc = slot base k) :
    Returns fetch ok (10 * w + 16) s (op.eval (s.get a0) (s.get a1)) := by
  have hs : s = s.on base k s.frame := by
    rw [State.on, ← hpc, State.put_frame]
  rw [Returns]
  cases op with
  | divu =>
    cases hk
    obtain ⟨d, m, hr⟩ := udivdi3_returns s.frame.ra s.frame.t0 h hw s.frame.a0 s.frame.a1
      s.frame.a2 s.frame.a3
    rw [← hs] at hr
    exact ⟨_, hr.mono (by omega), rfl⟩
  | remu =>
    cases hk
    obtain ⟨f, hr, hf⟩ := umoddi3_returns s.frame.ra s.frame.t0 h hw hb s.frame.a0 s.frame.a1
      s.frame.a2 s.frame.a3
    rw [← hs] at hr
    exact ⟨f, hr.mono (by omega), hf⟩
  | div =>
    cases hk
    obtain ⟨f, hr, hf⟩ := divdi3_returns s.frame.ra s.frame.t0 h hw hb s.frame.a0 s.frame.a1
      s.frame.a2 s.frame.a3
    rw [← hs] at hr
    exact ⟨f, hr.mono (by omega), hf⟩
  | rem =>
    cases hk
    obtain ⟨f, hr, hf⟩ := moddi3_returns s.frame.ra s.frame.t0 h hw hb s.frame.a0 s.frame.a1
      s.frame.a2 s.frame.a3
    rw [← hs] at hr
    exact ⟨f, hr.mono (by omega), hf⟩
  | mul | mulh | mulhsu | mulhu => cases hk

end LinuxCpu.Libgcc
