import LinuxCpu.Rv64.DivCorrect

namespace LinuxCpu.Rv64

open RiscV Bits

def Instr.isMultiplication : Instr → Bool
  | .mulDiv op _ _ _ => op == .mul || op == .mulh || op == .mulhsu || op == .mulhu
  | .mulDivW op _ _ _ => op == .mulw
  | _ => false

namespace MExecute

open Execute

theorem signedExt_eq (x : Word) : signedExt x = BitVec.ofInt 128 x.toInt :=
  fill_append_eq_signExtend x rfl

theorem unsignedExt_eq (x : Word) : unsignedExt x = BitVec.ofInt 128 x.toNat := by
  rw [unsignedExt, zero_append_eq_setWidth]
  exact (BitVec.ofNat_toNat 128 x).symm

section Values

variable (a b : Word)

theorem mul_value : a * b = BitVec.ofInt 64 (a.toInt * b.toInt) := by
  rw [BitVec.ofInt_mul, BitVec.ofInt_toInt, BitVec.ofInt_toInt]

theorem mulh_value : (signedExt a * signedExt b).extractLsb' 64 64 =
    BitVec.ofInt 64 (a.toInt * b.toInt / 2 ^ 64) := by
  rw [signedExt_eq, signedExt_eq, ← BitVec.ofInt_mul]
  exact extractLsb'_ofInt _ 64 64

theorem mulhsu_value : (signedExt a * unsignedExt b).extractLsb' 64 64 =
    BitVec.ofInt 64 (a.toInt * b.toNat / 2 ^ 64) := by
  rw [signedExt_eq, unsignedExt_eq, ← BitVec.ofInt_mul]
  exact extractLsb'_ofInt _ 64 64

theorem mulhu_value : (unsignedExt a * unsignedExt b).extractLsb' 64 64 =
    BitVec.ofNat 64 (a.toNat * b.toNat / 2 ^ 64) := by
  rw [unsignedExt_eq, unsignedExt_eq, ← BitVec.ofInt_mul]
  exact extractLsb'_ofInt _ 64 64

theorem mulw_value : BitVec.fill 32 ((a * b).getLsbD 31) ++ (a * b).extractLsb' 0 32 =
    (a.setWidth 32 * b.setWidth 32).signExtend 64 := by
  apply (fill_low (a * b)).trans
  rw [BitVec.setWidth_mul _ _ (by decide)]

end Values

section Result

variable {e : RegE} (D : Divider)

theorem aluResult_mul (ho : e.opcodeInfo = hot 12 (some k)) (hk : k = 6 ∨ k = 7)
    (ha : e.aluInfo = hot 28 (some j)) (hj : 8 ≤ j ∧ j ≤ 12) :
    aluResult e D =
      (if j = 12 then aluSrc1 e * aluSrc2 e
      else if j = 11 then (extMulResult e).extractLsb' 64 64
      else if j = 10 then (suExtMulResult e).extractLsb' 64 64
      else if j = 9 then (uExtMulResult e).extractLsb' 64 64
      else BitVec.fill 32 ((aluSrc1 e * aluSrc2 e).getLsbD 31) ++
        (aluSrc1 e * aluSrc2 e).extractLsb' 0 32) := by
  have hk : ¬ (k = 11 ∨ k = 10 ∨ k = 9 ∨ k = 8 ∨ k = 3 ∨ k = 2 ∨ k = 1) := by omega
  obtain ⟨hj8, hj12⟩ := hj
  simp only [not_or] at hk
  interval_cases j <;>
    simp [aluResult, opLui, opAuipc, opBranch, opStore, opJal, opJalr, opLoad, aluAnd, aluAdd,
      aluSub, aluSll, aluSlt, aluSltu, aluXor, aluOr, aluSra, aluSrl, aluAddw, aluSubw, aluSllw,
      aluSrlw, aluSraw, aluMul, aluMulh, aluMulhsu, aluMulhu, aluMulw, ho, ha, hk]

end Result

/-- The result is the exact product's part that the M extension specifies. -/
theorem multiplies (D : Divider) (i : Instr) (f : Forward) (regfile : Regfile) (r : RegD)
    (h : r.instr = i.encode) (hm : Instr.isMultiplication i) :
    i.muldiv (operand f regfile i.rs1) (operand f regfile i.rs2) =
      some (execute D (RegE.issue f regfile r)).aluResult := by
  have ho := issue_opcodeInfo f regfile h
  have ha := issue_aluInfo f regfile h
  have h1 := issue_regdata1 f regfile h
  have h2 := issue_regdata2 f regfile h
  cases i with
  | mulDiv op rd rs1 rs2 =>
    have hs1 := (aluSrc1_regdata1 ho (.inr rfl)).trans (h1 rfl)
    have hs2 := (aluSrc2_regdata2 ho (.inr rfl)).trans (h2 rfl)
    rw [← hs1, ← hs2]
    apply congrArg some
    cases op with
    | mul =>
      exact ((aluResult_mul D ho (.inr rfl) ha (by decide)).trans (mul_value ..)).symm
    | mulh =>
      exact ((aluResult_mul D ho (.inr rfl) ha (by decide)).trans (mulh_value ..)).symm
    | mulhsu =>
      exact ((aluResult_mul D ho (.inr rfl) ha (by decide)).trans (mulhsu_value ..)).symm
    | mulhu =>
      exact ((aluResult_mul D ho (.inr rfl) ha (by decide)).trans (mulhu_value ..)).symm
    | _ => cases hm
  | mulDivW op rd rs1 rs2 =>
    have hs1 := (aluSrc1_regdata1 ho (.inl rfl)).trans (h1 rfl)
    have hs2 := (aluSrc2_regdata2 ho (.inl rfl)).trans (h2 rfl)
    rw [← hs1, ← hs2]
    apply congrArg some
    cases op with
    | mulw =>
      exact ((aluResult_mul D ho (.inl rfl) ha (by decide)).trans (mulw_value ..)).symm
    | _ => cases hm
  | _ => cases hm

theorem multiplies_mulhsu :
    (Instr.mulDiv .mulhsu 3 1 2).muldiv (-1 : Word) (-1) =
      some (execute .zero
        (RegE.issue .idle (fun _ => -1) ⟨0x80000000, 0x0220a1b3, .zero⟩)).aluResult :=
  multiplies .zero (.mulDiv .mulhsu 3 1 2) .idle (fun _ => -1) ⟨0x80000000, 0x0220a1b3, .zero⟩
    (by decide) rfl

end MExecute

end LinuxCpu.Rv64
