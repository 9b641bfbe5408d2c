import LinuxCpu.Rv64.DecodeTable
import LinuxCpu.Rv64.Stages

namespace LinuxCpu.Rv64

open RiscV Bits

def Instr.isLong : Instr → Bool
  | .shiftImm op _ _ shamt => ShiftOp.long op shamt
  | _ => false

def Instr.shamt : Instr → Nat
  | .shiftImm _ _ _ shamt => shamt.toNat
  | _ => 0

theorem low_five (b : Word) : (b.extractLsb' 0 5).toNat = (b.setWidth 32).toNat % 32 := by
  simp only [BitVec.extractLsb'_toNat, BitVec.toNat_setWidth, Nat.shiftRight_zero]
  omega

theorem addw_eq (a b : Word) :
    BitVec.fill 32 ((a + b).getLsbD 31) ++ (a + b).extractLsb' 0 32 = evalW .add a b := by
  rw [fill_low, BitVec.setWidth_add _ _ (by decide)]
  rfl

theorem subw_eq (a b : Word) :
    BitVec.fill 32 ((a - b).getLsbD 31) ++ (a - b).extractLsb' 0 32 = evalW .sub a b := by
  have h : (a - b).setWidth 32 = a.setWidth 32 - b.setWidth 32 := by
    apply BitVec.eq_of_toNat_eq
    simp only [BitVec.toNat_setWidth, BitVec.toNat_sub]
    omega
  rw [fill_low, h]
  rfl

theorem sllw_eq (a b : Word) :
    BitVec.fill 32 ((a <<< b.extractLsb' 0 5).getLsbD 31) ++
        (a <<< b.extractLsb' 0 5).extractLsb' 0 32 =
      evalW .sll a b := by
  rw [fill_low, BitVec.shiftLeft_eq', BitVec.setWidth_shiftLeft_of_le (by decide), low_five]
  rfl

theorem srlw_eq (a b : Word) :
    BitVec.fill 32 ((a.extractLsb' 0 32 >>> b.extractLsb' 0 5).getLsbD 31) ++
      a.extractLsb' 0 32 >>> b.extractLsb' 0 5 = evalW .srl a b := by
  rw [fill_word, BitVec.ushiftRight_eq', low_five, extractLsb'_zero_eq_setWidth _ (by decide)]
  rfl

theorem sraw_eq (a b : Word) :
    BitVec.fill 32 (((a.extractLsb' 0 32).sshiftRight' (b.extractLsb' 0 5)).getLsbD 31) ++
      (a.extractLsb' 0 32).sshiftRight' (b.extractLsb' 0 5) = evalW .sra a b := by
  rw [fill_word, BitVec.sshiftRight_eq', low_five, extractLsb'_zero_eq_setWidth _ (by decide)]
  rfl

theorem slt_eq (a b : Word) : (if a.slt b then 1 else 0) = RegOp.slt.eval a b := by
  simp only [BitVec.slt_iff_toInt_lt]
  rfl

theorem sltu_eq (a b : Word) : (if a.ult b then 1 else 0) = RegOp.sltu.eval a b := by
  simp only [BitVec.ult_iff_toNat_lt]
  rfl

namespace LinuxExecute

open Execute

section Result

variable {e : RegE}

theorem aluResult_reg (ho : e.opcodeInfo = hot 12 (some k)) (hk : k = 5 ∨ k = 7)
    (ha : e.aluInfo = hot 28 (some (RegOp.aluBit op))) :
    aluResult e = op.eval (aluSrc1 e) (aluSrc2 e) := by
  have hk : ¬ (k = 11 ∨ k = 10 ∨ k = 9 ∨ k = 8 ∨ k = 3 ∨ k = 2 ∨ k = 1) := by omega
  simp only [not_or] at hk
  cases op <;>
    simp [aluResult, opLui, opAuipc, opBranch, opStore, opJal, opJalr, opLoad, aluAnd, aluAdd,
      aluSub, aluSll, aluSlt, aluSltu, aluXor, aluOr, aluSra, aluSrl, ho, ha, hk, RegOp.aluBit]
  case slt => exact slt_eq ..
  case sltu => exact sltu_eq ..
  all_goals rfl

theorem aluResult_regw (ho : e.opcodeInfo = hot 12 (some k)) (hk : k = 4 ∨ k = 6)
    (ha : e.aluInfo = hot 28 (some (RegWOp.aluBit op))) :
    aluResult e = evalW op.toRegOp (aluSrc1 e) (aluSrc2 e) := by
  have hk : ¬ (k = 11 ∨ k = 10 ∨ k = 9 ∨ k = 8 ∨ k = 3 ∨ k = 2 ∨ k = 1) := by omega
  simp only [not_or] at hk
  cases op <;>
    simp only [aluResult, opLui, opAuipc, opBranch, opStore, opJal, opJalr, opLoad, aluAnd, aluAdd,
      aluSub, aluSll, aluSlt, aluSltu, aluXor, aluOr, aluSra, aluSrl, aluAddw, aluSubw, aluSllw,
      aluSrlw, aluSraw, ho, ha, hk, RegWOp.aluBit, getLsbD_hot, Nat.reduceLT,
      Option.some_beq_some, beq_iff_eq, Nat.reduceEqDiff, Nat.succ_ne_self, reduceIte]
  case addw => exact addw_eq ..
  case subw => exact subw_eq ..
  case sllw => exact sllw_eq ..
  case srlw => exact srlw_eq ..
  case sraw => exact sraw_eq ..

theorem aluResult_none (ho : e.opcodeInfo = hot 12 (some k)) (hk : k = 5 ∨ k = 7)
    (ha : e.aluInfo = hot 28 none) : aluResult e = 0 := by
  have hk : ¬ (k = 11 ∨ k = 10 ∨ k = 9 ∨ k = 8 ∨ k = 3 ∨ k = 2 ∨ k = 1) := by omega
  simp only [not_or] at hk
  simp [aluResult, opLui, opAuipc, opBranch, opStore, opJal, opJalr, opLoad, aluAnd, aluAdd,
      aluSub, aluSll, aluSlt, aluSltu, aluXor, aluOr, aluSra, aluSrl, aluAddw, aluSubw, aluSllw,
      aluSrlw, aluSraw, ho, ha, hk]

theorem aluSrc1_regdata1 (ho : e.opcodeInfo = hot 12 (some k)) (hk : 4 ≤ k ∧ k < 8) :
    aluSrc1 e = e.regdata1 := by
  obtain ⟨hk, hk'⟩ := hk
  interval_cases k <;> simp [aluSrc1, opAluReg, opAluRegw, opAluImm, opAluImmw, ho]

theorem aluSrc2_regdata2 (ho : e.opcodeInfo = hot 12 (some k)) (hk : k = 6 ∨ k = 7) :
    aluSrc2 e = e.regdata2 := by
  obtain rfl | rfl := hk <;> simp [aluSrc2, opAluReg, opAluRegw, ho]

theorem aluSrc2_imm (ho : e.opcodeInfo = hot 12 (some k)) (hk : k = 4 ∨ k = 5) :
    aluSrc2 e = e.imm := by
  obtain rfl | rfl := hk <;> simp [aluSrc2, opAluReg, opAluRegw, opAluImm, opAluImmw, ho]

end Result

theorem shamt_imm (f6 shamt : BitVec 6) :
    ((f6 ++ shamt).signExtend 64).toNat % 64 = shamt.toNat := by
  have h : (f6 ++ shamt).signExtend 64 = BitVec.fill 52 (f6 ++ shamt).msb ++ (f6 ++ shamt) :=
    (fill_append_eq_signExtend (k := 52) _ rfl).symm
  rw [h, toNat_append_add, toNat_append_add]
  omega

theorem shamtw_imm (f6 : BitVec 6) (shamt : BitVec 5) :
    ((f6 ++ 0#1 ++ shamt).signExtend 64).toNat % 32 = shamt.toNat := by
  have h : (f6 ++ 0#1 ++ shamt).signExtend 64 =
      BitVec.fill 52 (f6 ++ 0#1 ++ shamt).msb ++ (f6 ++ 0#1 ++ shamt) :=
    (fill_append_eq_signExtend (k := 52) _ rfl).symm
  rw [h, toNat_append_add, toNat_append_add]
  omega

section Issue

variable (f : Forward) (regfile : Regfile) {r : RegD}

theorem aluResult_issue (h : r.instr = i.encode) (hl : ¬ Instr.isLong i)
    (hv : i.compute r.pc (operand f regfile i.rs1) (operand f regfile i.rs2) = some v) :
    aluResult (RegE.issue f regfile r) = v := by
  have ho := issue_opcodeInfo f regfile h
  have ha := issue_aluInfo f regfile h
  have hi := issue_imm f regfile h
  have h1 := issue_regdata1 f regfile h
  have h2 := issue_regdata2 f regfile h
  cases i with
  | lui rd imm =>
    rw [← Option.some.inj hv]
    simp [aluResult, opLui, ho, Instr.opcodeBit, hi, Instr.imm]
  | auipc rd imm =>
    rw [← Option.some.inj hv]
    simp [aluResult, opLui, opAuipc, ho, Instr.opcodeBit, hi, Instr.imm]
    rfl
  | opReg op rd rs1 rs2 =>
    rw [← Option.some.inj hv, aluResult_reg ho (.inr rfl) ha, aluSrc1_regdata1 ho (by decide),
      aluSrc2_regdata2 ho (.inr rfl), h1 rfl, h2 rfl]
  | opImm op rd rs1 imm =>
    rw [← Option.some.inj hv, aluResult_reg ho (.inl rfl) ha, aluSrc1_regdata1 ho (by decide),
      aluSrc2_imm ho (.inr rfl), h1 rfl, hi]
    rfl
  | opRegW op rd rs1 rs2 =>
    rw [← Option.some.inj hv, aluResult_regw ho (.inr rfl) ha, aluSrc1_regdata1 ho (by decide),
      aluSrc2_regdata2 ho (.inl rfl), h1 rfl, h2 rfl]
  | addiw rd rs1 imm =>
    have ha : (RegE.issue f regfile r).aluInfo = hot 28 (some (RegWOp.aluBit .addw)) := ha
    rw [← Option.some.inj hv, aluResult_regw ho (.inl rfl) ha,
      aluSrc1_regdata1 ho (by decide), aluSrc2_imm ho (.inl rfl), h1 rfl, hi]
    rfl
  | shiftImm op rd rs1 shamt =>
    rw [Instr.aluBit, if_neg (show ¬ ShiftOp.long op shamt = true from hl)] at ha
    rw [← Option.some.inj hv, aluResult_reg ho (.inl rfl) ha, aluSrc1_regdata1 ho (by decide),
      aluSrc2_imm ho (.inr rfl), h1 rfl, hi]
    refine shift_congr op _ ((shamt_imm ..).trans ?_)
    have := shamt.isLt
    rw [BitVec.toNat_setWidth]
    omega
  | shiftImmW op rd rs1 shamt =>
    rw [← Option.some.inj hv, aluResult_regw ho (.inl rfl) ha, aluSrc1_regdata1 ho (by decide),
      aluSrc2_imm ho (.inl rfl), h1 rfl, hi]
    have hop : (ShiftOp.toRegWOp op).toRegOp = op.toRegOp := by cases op <;> rfl
    rw [hop]
    refine congrArg (BitVec.signExtend 64) (shift_congr op _ ?_)
    have hs := shamtw_imm op.funct6 shamt
    have := shamt.isLt
    simp only [BitVec.toNat_setWidth, Instr.imm]
    omega
  | _ => cases hv

theorem aluResult_issue_long (h : r.instr = i.encode) (hl : Instr.isLong i) :
    aluResult (RegE.issue f regfile r) = 0 := by
  have ho := issue_opcodeInfo f regfile h
  have ha := issue_aluInfo f regfile h
  cases i with
  | shiftImm op rd rs1 shamt =>
    rw [Instr.aluBit, if_pos (show ShiftOp.long op shamt = true from hl)] at ha
    exact aluResult_none ho (.inl rfl) ha
  | _ => cases hl

end Issue

end LinuxExecute

theorem sshiftRight_eq_zero (a : Word) (k : Nat) (hk : k < 64) :
    a.sshiftRight k = 0 ↔ a.toNat < 2 ^ k := by
  have hp : 2 ^ k ≤ 2 ^ 63 := Nat.pow_le_pow_right (by decide) (by omega)
  rw [← BitVec.toNat_inj]
  change _ = 0 ↔ _
  cases hm : a.msb with
  | false =>
    rw [BitVec.toNat_sshiftRight_of_msb_false hm, Nat.shiftRight_eq_div_pow,
      Nat.div_eq_zero_iff]
    simp
  | true =>
    have := BitVec.le_toNat_of_msb_true hm
    have := Nat.div_le_self (2 ^ 64 - 1 - a.toNat) (2 ^ k)
    rw [BitVec.toNat_sshiftRight_of_msb_true hm, Nat.shiftRight_eq_div_pow]
    omega

theorem ushiftRight_eq_zero (a : Word) (k : Nat) : a >>> k = 0 ↔ a.toNat < 2 ^ k := by
  rw [← BitVec.toNat_inj, BitVec.toNat_ushiftRight]
  change _ = 0 ↔ _
  rw [Nat.shiftRight_eq_div_pow, Nat.div_eq_zero_iff]
  simp

theorem compute_eq_zero_of_long (hl : Instr.isLong i) (hv : i.compute pc a b = some v) :
    v = (0 : Word) ↔ a.toNat < 2 ^ Instr.shamt i := by
  cases i with
  | shiftImm op rd rs1 shamt =>
    have hs : (shamt.setWidth 64).toNat % 64 = shamt.toNat := by
      have := shamt.isLt
      rw [BitVec.toNat_setWidth]
      omega
    rw [← Option.some.inj hv]
    cases op with
    | sll => cases hl
    | srl => exact (congrArg (a >>> · = 0) hs).to_iff.trans (ushiftRight_eq_zero ..)
    | sra =>
      exact (congrArg (a.sshiftRight · = 0) hs).to_iff.trans (sshiftRight_eq_zero _ _ shamt.isLt)
  | _ => cases hl

namespace LinuxExecute

def Computes (i : Instr) (f : Forward) (regfile : Regfile) (r : RegD) (memdata : Word) : Prop :=
  let wb := (RegE.issue f regfile r).retire execute memdata
  wb.regWen = true ∧ i.dest = some wb.rd ∧
    i.compute r.pc (operand f regfile i.rs1) (operand f regfile i.rs2) = some wb.data

instance : Decidable (Computes i f regfile r memdata) :=
  inferInstanceAs (Decidable (_ ∧ _ ∧ _))

/-- Right shifts by 32 or more are not recognised: those give 0. -/
theorem computes_iff (i : Instr) (f : Forward) (regfile : Regfile) (r : RegD) (memdata : Word)
    (h : r.instr = i.encode)
    (hc : (i.compute r.pc (operand f regfile i.rs1) (operand f regfile i.rs2)).isSome) :
    Computes i f regfile r memdata ↔
      (Instr.isLong i → (operand f regfile i.rs1).toNat < 2 ^ Instr.shamt i) := by
  obtain ⟨v, hv⟩ := Option.isSome_iff_exists.mp hc
  obtain ⟨rd, hd⟩ : ∃ rd, i.dest = some rd := by
    cases i with
    | lui rd | auipc rd | opImm _ rd | shiftImm _ rd | opReg _ rd | addiw rd | shiftImmW _ rd
    | opRegW _ rd => exact ⟨rd, rfl⟩
    | _ => cases hv
  have hw : (RegE.issue f regfile r).regWen = true := by rw [issue_regWen f regfile h, hd]; rfl
  have hrd : (RegE.issue f regfile r).rd = rd := issue_rd f regfile h hd
  have hdata : ((RegE.issue f regfile r).retire execute memdata).data =
      aluResult (RegE.issue f regfile r) := by
    have ho := issue_opcodeInfo f regfile h
    simp only [RegE.retire, writeBack, RegW.load, RegM.load, ho, getLsbD_hot, Nat.reduceLT]
    cases i <;> first | rfl | cases hv
  rw [Computes, hv, hdata]
  by_cases hl : Instr.isLong i
  · rw [aluResult_issue_long f regfile h hl, Option.some_inj, compute_eq_zero_of_long hl hv]
    exact ⟨fun ⟨_, _, hz⟩ _ => hz, fun hz => ⟨hw, hd.trans (congrArg some hrd.symm), hz hl⟩⟩
  · rw [aluResult_issue f regfile h hl hv]
    exact ⟨fun _ hl' => absurd hl' hl, fun _ => ⟨hw, hd.trans (congrArg some hrd.symm), rfl⟩⟩

theorem computes_iff_add :
    Computes (.opReg .add 3 1 2) .idle (fun _ => 5) ⟨0x80000000, 0x002081b3, .zero⟩ 0 ↔
      (Instr.isLong (.opReg .add 3 1 2) → 5 < 2 ^ 0) :=
  computes_iff (.opReg .add 3 1 2) .idle (fun _ => 5) ⟨0x80000000, 0x002081b3, .zero⟩ 0
    (by decide) rfl

/-- `srli x1, x2, 32` with `x2 = 2^32` gives 0 for 1. -/
theorem not_computes_srli_32 :
    ¬ Computes (.shiftImm .srl 1 2 32) .idle (fun _ => 0x100000000)
      ⟨0x80000000, 0x02015093, .zero⟩ 0 ∧
    (Instr.shiftImm .srl 1 2 32).encode = 0x02015093 := by
  decide

end LinuxExecute

end LinuxCpu.Rv64
