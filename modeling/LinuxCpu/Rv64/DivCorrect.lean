import LinuxCpu.Rv64.ExecuteM
import LinuxCpu.Rv64.DecodeTable

namespace LinuxCpu.Rv64

open RiscV Bits

theorem toInt_eq_zero_iff (a : BitVec w) : a.toInt = 0 ↔ a = 0 := by
  rw [← BitVec.toInt_inj, BitVec.ofNat_eq_ofNat, BitVec.toInt_zero]

theorem divSigned_of_ne_zero (a b : BitVec w) (hb : b ≠ 0) :
    divSigned a b = BitVec.ofInt w (a.toInt.tdiv b.toInt) := by
  rw [divSigned, if_neg hb]
  split
  · next h =>
    obtain ⟨rfl, rfl⟩ := h
    have hw : 0 < w := by
      apply Nat.pos_of_ne_zero
      rintro rfl
      exact hb (BitVec.eq_of_toNat_eq rfl)
    rw [BitVec.toInt_allOnes, if_pos hw, Int.tdiv_neg, Int.tdiv_one, BitVec.ofInt_neg,
      BitVec.ofInt_toInt, BitVec.neg_intMin]
  · rfl

theorem remSigned_eq_zero_iff (a b : BitVec w) :
    remSigned a b = 0 ↔ b.toInt ∣ a.toInt := by
  rw [remSigned]
  split
  · next hb =>
    rw [(toInt_eq_zero_iff b).mpr hb, Int.zero_dvd, toInt_eq_zero_iff]
  split
  · next hb h =>
    have hw : 0 < w := by
      apply Nat.pos_of_ne_zero
      rintro rfl
      exact hb (BitVec.eq_of_toNat_eq (by rw [h.2]; rfl))
    rw [h.2, BitVec.toInt_allOnes, if_pos hw]
    exact iff_of_true rfl (Int.neg_dvd.mpr (Int.one_dvd _))
  · rw [← BitVec.toInt_srem, BitVec.ofInt_toInt, ← toInt_eq_zero_iff, BitVec.toInt_srem,
      Int.dvd_iff_tmod_eq_zero]

theorem remUnsigned_eq_zero_iff (a b : BitVec w) :
    remUnsigned a b = 0 ↔ b.toNat ∣ a.toNat := by
  rw [remUnsigned, Nat.dvd_iff_mod_eq_zero]
  split
  · next hb =>
    subst hb
    rw [← BitVec.toNat_inj]
    simp
  · rw [← BitVec.toNat_inj, BitVec.toNat_ofNat,
      Nat.mod_eq_of_lt (Nat.lt_of_le_of_lt (Nat.mod_le ..) a.isLt)]
    rfl

def Instr.isDivision : Instr → Bool
  | .mulDiv op _ _ _ => op == .div || op == .divu || op == .rem || op == .remu
  | .mulDivW op _ _ _ => op != .mulw
  | _ => false

/-- Where the core divides right: a remainder has to be zero, and a zero low
half of a W divisor has to come with a zero upper half. -/
def Instr.DividesRight (i : Instr) (a b : Word) : Prop :=
  match i with
  | .mulDiv .rem _ _ _ => b.toInt ∣ a.toInt
  | .mulDiv .remu _ _ _ => b.toNat ∣ a.toNat
  | .mulDivW .divw _ _ _ | .mulDivW .divuw _ _ _ => b.setWidth 32 = 0 → b = 0
  | .mulDivW .remw _ _ _ => (b.setWidth 32).toInt ∣ (a.setWidth 32).toInt
  | .mulDivW .remuw _ _ _ => (b.setWidth 32).toNat ∣ (a.setWidth 32).toNat
  | _ => True

namespace MExecute

open Execute

section Result

variable {e : RegE}

theorem aluSrc1_regdata1 (ho : e.opcodeInfo = hot 12 (some k)) (hk : k = 6 ∨ k = 7) :
    aluSrc1 e = e.regdata1 := by
  obtain rfl | rfl := hk <;> simp [aluSrc1, opAluReg, opAluRegw, ho]

theorem aluSrc2_regdata2 (ho : e.opcodeInfo = hot 12 (some k)) (hk : k = 6 ∨ k = 7) :
    aluSrc2 e = e.regdata2 := by
  obtain rfl | rfl := hk <;> simp [aluSrc2, opAluReg, opAluRegw, ho]

variable (D : Divider)

theorem aluResult_muldiv (ho : e.opcodeInfo = hot 12 (some k)) (hk : k = 6 ∨ k = 7)
    (ha : e.aluInfo = hot 28 (some j)) (hj : j < 8) :
    aluResult e D =
      (if j = 7 then
        if aluSrc2 e == 0 then 0xffffffffffffffff
        else if aluSrc1 e == 0x8000000000000000 && aluSrc2 e == 0xffffffffffffffff then
          0x8000000000000000
        else D.sdiv (aluSrc1 e) (aluSrc2 e)
      else if j = 6 then
        if aluSrc2 e == 0 then 0xffffffffffffffff else D.udiv (aluSrc1 e) (aluSrc2 e)
      else if j = 5 then
        if aluSrc2 e == 0 then 0xffffffffffffffff
        else if aluSrc1 e == 0xffffffff80000000 && aluSrc2 e == 0xffffffffffffffff then
          0xffffffff80000000
        else BitVec.fill 32 ((divResult e D).getLsbD 31) ++ divResult e D
      else if j = 4 then
        if aluSrc2 e == 0 then 0xffffffffffffffff
        else BitVec.fill 32 ((udivResult e D).getLsbD 31) ++ udivResult e D
      else 0) := by
  have hk : ¬ (k = 11 ∨ k = 10 ∨ k = 9 ∨ k = 8 ∨ k = 3 ∨ k = 2 ∨ k = 1) := by omega
  have hj : ¬ (j = 18 ∨ j = 27 ∨ j = 17 ∨ j = 26 ∨ j = 16 ∨ j = 25 ∨ j = 15 ∨ j = 24 ∨ j = 23 ∨
    j = 22 ∨ j = 19 ∨ j = 20 ∨ j = 13 ∨ j = 21 ∨ j = 14 ∨ j = 12 ∨ j = 11 ∨ j = 10 ∨ j = 9 ∨
    j = 8) := by omega
  simp only [not_or] at hk hj
  simp only [aluResult, opLui, opAuipc, opBranch, opStore, opJal, opJalr, opLoad, aluAnd, aluAdd,
    aluSub, aluSll, aluSlt, aluSltu, aluXor, aluOr, aluSra, aluSrl, aluAddw, aluSubw, aluSllw,
    aluSrlw, aluSraw, aluMul, aluMulh, aluMulhsu, aluMulhu, aluMulw, aluDiv, aluDivu, aluDivw,
    aluDivuw, ho, ha, hk, hj, getLsbD_hot, Nat.reduceLT, Option.some_beq_some, beq_iff_eq,
    reduceIte]

end Result

section Values

variable (D : Divider) (a b : Word)

theorem div_value :
    (if b == 0 then 0xffffffffffffffff
      else if a == 0x8000000000000000 && b == 0xffffffffffffffff then 0x8000000000000000
      else D.sdiv a b) = divSigned a b := by
  by_cases hb : b = 0
  · rw [if_pos (beq_iff_eq.mpr hb), divSigned, if_pos hb]
    rfl
  · rw [if_neg (mt beq_iff_eq.mp hb), D.sdiv_eq a b hb, divSigned, if_neg hb]
    simp only [Bool.and_eq_true, beq_iff_eq]
    split
    · next h => exact (if_pos h).trans h.1 |>.symm
    · next h => exact (if_neg h).symm

theorem divu_value :
    (if b == 0 then 0xffffffffffffffff else D.udiv a b) = divUnsigned a b := by
  by_cases hb : b = 0
  · rw [if_pos (beq_iff_eq.mpr hb), divUnsigned, if_pos hb]
    rfl
  · rw [if_neg (mt beq_iff_eq.mp hb), D.udiv_eq a b hb, divUnsigned, if_neg hb]

theorem divw_value (hb : b.extractLsb' 0 32 = 0 → b = 0) :
    ((if b == 0 then 0xffffffffffffffff
      else if a == 0xffffffff80000000 && b == 0xffffffffffffffff then 0xffffffff80000000
      else BitVec.fill 32 ((D.sdiv (a.extractLsb' 0 32) (b.extractLsb' 0 32)).getLsbD 31) ++
        D.sdiv (a.extractLsb' 0 32) (b.extractLsb' 0 32) : Word)) =
      (divSigned (a.extractLsb' 0 32) (b.extractLsb' 0 32)).signExtend 64 := by
  by_cases h0 : b = 0
  · subst h0
    rfl
  have hl := mt hb h0
  rw [if_neg (mt beq_iff_eq.mp h0)]
  split
  · next h =>
    obtain ⟨rfl, rfl⟩ : a = _ ∧ b = _ := by simpa only [Bool.and_eq_true, beq_iff_eq] using h
    decide
  · rw [fill_word, D.sdiv_eq _ _ hl, divSigned_of_ne_zero _ _ hl]

theorem divuw_value (hb : b.extractLsb' 0 32 = 0 → b = 0) :
    ((if b == 0 then 0xffffffffffffffff
      else BitVec.fill 32 ((D.udiv (a.extractLsb' 0 32) (b.extractLsb' 0 32)).getLsbD 31) ++
        D.udiv (a.extractLsb' 0 32) (b.extractLsb' 0 32) : Word)) =
      (divUnsigned (a.extractLsb' 0 32) (b.extractLsb' 0 32)).signExtend 64 := by
  by_cases h0 : b = 0
  · subst h0
    rfl
  have hl := mt hb h0
  rw [if_neg (mt beq_iff_eq.mp h0), fill_word, D.udiv_eq _ _ hl, divUnsigned,
    if_neg hl]

theorem divw_value_zero (hb : b ≠ 0) (hl : b.extractLsb' 0 32 = 0) :
    ((if b == 0 then 0xffffffffffffffff
      else if a == 0xffffffff80000000 && b == 0xffffffffffffffff then 0xffffffff80000000
      else
        BitVec.fill 32 ((Divider.zero.sdiv (a.extractLsb' 0 32) (b.extractLsb' 0 32)).getLsbD 31) ++
          Divider.zero.sdiv (a.extractLsb' 0 32) (b.extractLsb' 0 32) : Word)) = 0 := by
  have hf : ¬ (a == 0xffffffff80000000 && b == 0xffffffffffffffff) = true := by
    intro h
    obtain ⟨-, rfl⟩ : a = _ ∧ b = _ := by simpa only [Bool.and_eq_true, beq_iff_eq] using h
    exact absurd hl (by decide)
  have hz : Divider.zero.sdiv (a.extractLsb' 0 32) (0 : BitVec 32) = 0 := by
    change BitVec.ofInt 32 (Int.tdiv _ (0#32).toInt) = 0
    rw [BitVec.toInt_zero, Int.tdiv_zero]
    rfl
  rw [if_neg (mt beq_iff_eq.mp hb), if_neg hf, fill_word, hl, hz]
  rfl

theorem divuw_value_zero (hb : b ≠ 0) (hl : b.extractLsb' 0 32 = 0) :
    ((if b == 0 then 0xffffffffffffffff
      else
        BitVec.fill 32 ((Divider.zero.udiv (a.extractLsb' 0 32) (b.extractLsb' 0 32)).getLsbD 31) ++
          Divider.zero.udiv (a.extractLsb' 0 32) (b.extractLsb' 0 32) : Word)) = 0 := by
  have hz : Divider.zero.udiv (a.extractLsb' 0 32) (0 : BitVec 32) = 0 := by
    change BitVec.ofNat 32 (_ / (0#32).toNat) = 0
    rw [BitVec.toNat_zero, Nat.div_zero]
    rfl
  rw [if_neg (mt beq_iff_eq.mp hb), fill_word, hl, hz]
  rfl

end Values

section Result

variable {e : RegE} (D : Divider)

theorem aluResult_div (ho : e.opcodeInfo = hot 12 (some 7)) (ha : e.aluInfo = hot 28 (some 7)) :
    aluResult e D = divSigned (aluSrc1 e) (aluSrc2 e) :=
  (aluResult_muldiv D ho (.inr rfl) ha (by decide)).trans (div_value ..)

theorem aluResult_divu (ho : e.opcodeInfo = hot 12 (some 7)) (ha : e.aluInfo = hot 28 (some 6)) :
    aluResult e D = divUnsigned (aluSrc1 e) (aluSrc2 e) :=
  (aluResult_muldiv D ho (.inr rfl) ha (by decide)).trans (divu_value ..)

theorem aluResult_divw_iff (ho : e.opcodeInfo = hot 12 (some 6))
    (ha : e.aluInfo = hot 28 (some 5)) :
    (∀ D, MulDivWOp.divw.eval (aluSrc1 e) (aluSrc2 e) = aluResult e D) ↔
      ((aluSrc2 e).setWidth 32 = 0 → aluSrc2 e = 0) := by
  have hr := fun D => aluResult_muldiv D ho (.inl rfl) ha (by decide)
  simp only [MulDivWOp.eval, ← extractLsb'_zero_eq_setWidth _ (show 32 ≤ 64 by decide)]
  constructor
  · intro h hl
    by_contra hb
    have h := (h .zero).trans ((hr .zero).trans (divw_value_zero (aluSrc1 e) (aluSrc2 e) hb hl))
    rw [hl, MulDivWOp.eval32, divSigned, if_pos rfl] at h
    exact absurd h (by decide)
  · intro h D
    exact ((hr D).trans (divw_value D _ _ h)).symm

theorem aluResult_divuw_iff (ho : e.opcodeInfo = hot 12 (some 6))
    (ha : e.aluInfo = hot 28 (some 4)) :
    (∀ D, MulDivWOp.divuw.eval (aluSrc1 e) (aluSrc2 e) = aluResult e D) ↔
      ((aluSrc2 e).setWidth 32 = 0 → aluSrc2 e = 0) := by
  have hr := fun D => aluResult_muldiv D ho (.inl rfl) ha (by decide)
  simp only [MulDivWOp.eval, ← extractLsb'_zero_eq_setWidth _ (show 32 ≤ 64 by decide)]
  constructor
  · intro h hl
    by_contra hb
    have h := (h .zero).trans ((hr .zero).trans (divuw_value_zero (aluSrc1 e) (aluSrc2 e) hb hl))
    rw [hl, MulDivWOp.eval32, divUnsigned, if_pos rfl] at h
    exact absurd h (by decide)
  · intro h D
    exact ((hr D).trans (divuw_value D _ _ h)).symm

theorem aluResult_rem (ho : e.opcodeInfo = hot 12 (some k)) (hk : k = 6 ∨ k = 7)
    (ha : e.aluInfo = hot 28 (some j)) (hj : j < 4) : aluResult e D = 0 := by
  have hj' : ¬ (j = 7 ∨ j = 6 ∨ j = 5 ∨ j = 4) := by omega
  simp only [not_or] at hj'
  rw [aluResult_muldiv D ho hk ha (by omega)]
  simp only [hj', reduceIte]

end Result

theorem forall_some_eq_iff {x : Divider → Word} (hx : ∀ D, x D = 0) (v : Word) :
    (∀ D, some v = some (x D)) ↔ v = 0 := by
  simp only [hx, Option.some_inj]
  exact ⟨fun h => h .zero, fun h _ => h⟩

theorem signExtend_eq_zero_iff (v : BitVec 32) : v.signExtend 64 = 0 ↔ v = 0 := by
  rw [← toInt_eq_zero_iff, ← toInt_eq_zero_iff, BitVec.toInt_signExtend_of_le (by decide)]

def Divides (i : Instr) (f : Forward) (regfile : Regfile) (r : RegD) : Prop :=
  ∀ D, i.muldiv (operand f regfile i.rs1) (operand f regfile i.rs2) =
    some (execute D (RegE.issue f regfile r)).aluResult

theorem divides_iff (i : Instr) (f : Forward) (regfile : Regfile) (r : RegD)
    (h : r.instr = i.encode) (hd : Instr.isDivision i) :
    Divides i f regfile r ↔
      Instr.DividesRight i (operand f regfile i.rs1) (operand f regfile i.rs2) := by
  have ho := issue_opcodeInfo f regfile h
  have ha := issue_aluInfo f regfile h
  have h1 := issue_regdata1 f regfile h
  have h2 := issue_regdata2 f regfile h
  cases i with
  | mulDiv op rd rs1 rs2 =>
    have hs1 := (aluSrc1_regdata1 ho (.inr rfl)).trans (h1 rfl)
    have hs2 := (aluSrc2_regdata2 ho (.inr rfl)).trans (h2 rfl)
    cases op with
    | div =>
      refine iff_of_true (fun D => ?_) trivial
      rw [← hs1, ← hs2]
      exact congrArg some (aluResult_div D ho ha).symm
    | divu =>
      refine iff_of_true (fun D => ?_) trivial
      rw [← hs1, ← hs2]
      exact congrArg some (aluResult_divu D ho ha).symm
    | rem =>
      have hr := fun D => aluResult_rem D ho (.inr rfl) ha (by decide)
      exact (forall_some_eq_iff hr _).trans (remSigned_eq_zero_iff ..)
    | remu =>
      have hr := fun D => aluResult_rem D ho (.inr rfl) ha (by decide)
      exact (forall_some_eq_iff hr _).trans (remUnsigned_eq_zero_iff ..)
    | _ => cases hd
  | mulDivW op rd rs1 rs2 =>
    have hs1 := (aluSrc1_regdata1 ho (.inl rfl)).trans (h1 rfl)
    have hs2 := (aluSrc2_regdata2 ho (.inl rfl)).trans (h2 rfl)
    cases op with
    | divw =>
      have hw := aluResult_divw_iff ho ha
      rw [hs1, hs2] at hw
      exact (forall_congr' fun D => Option.some_inj).trans hw
    | divuw =>
      have hw := aluResult_divuw_iff ho ha
      rw [hs1, hs2] at hw
      exact (forall_congr' fun D => Option.some_inj).trans hw
    | remw =>
      have hr := fun D => aluResult_rem D ho (.inl rfl) ha (by decide)
      exact (forall_some_eq_iff hr _).trans
        ((signExtend_eq_zero_iff _).trans (remSigned_eq_zero_iff ..))
    | remuw =>
      have hr := fun D => aluResult_rem D ho (.inl rfl) ha (by decide)
      exact (forall_some_eq_iff hr _).trans
        ((signExtend_eq_zero_iff _).trans (remUnsigned_eq_zero_iff ..))
    | mulw => cases hd
  | _ => cases hd

theorem divides_iff_divw :
    Divides (.mulDivW .divw 3 1 2) .idle (fun _ => 7) ⟨0x80000000, 0x0220c1bb, .zero⟩ ↔
      Instr.DividesRight (.mulDivW .divw 3 1 2) 7 7 :=
  divides_iff (.mulDivW .divw 3 1 2) .idle (fun _ => 7) ⟨0x80000000, 0x0220c1bb, .zero⟩
    (by decide) rfl

/-- `rem x3, x1, x2` of 7 and 2 gives 0 for 1. -/
theorem not_divides_rem :
    (Instr.mulDiv .rem 3 1 2).encode = 0x0220e1b3 ∧
      ¬ Divides (.mulDiv .rem 3 1 2) .idle (Function.update (fun _ => 2) 1 7)
        ⟨0x80000000, 0x0220e1b3, .zero⟩ := by
  refine ⟨by decide, fun h => ?_⟩
  exact absurd (h .zero) (by decide)

end MExecute

end LinuxCpu.Rv64
