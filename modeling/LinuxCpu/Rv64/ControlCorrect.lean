import LinuxCpu.Rv64.DecodeTable

namespace LinuxCpu.Rv64

open RiscV Bits

section Issue

variable (f : Forward) (regfile : Regfile) {r : RegD} {i : Instr}

theorem needJump_issue (h : r.instr = i.encode) :
    Execute.needJump (RegE.issue f regfile r) =
      (i.transfer r.pc (operand f regfile i.rs1) (operand f regfile i.rs2)).isSome := by
  have ho := issue_opcodeInfo f regfile h
  have hb := issue_branchInfo f regfile h
  cases i with
  | branch op rs1 rs2 offset =>
    have h1 := issue_regdata1 f regfile h rfl
    have h2 := issue_regdata2 f regfile h rfl
    simp only [Instr.transfer, apply_ite Option.isSome, Option.isSome_some, Option.isSome_none]
    cases op <;>
      simp [Execute.needJump, Execute.instBeq, Execute.instBne, Execute.instBlt, Execute.instBge,
        Execute.instBltu, Execute.instBgeu, Execute.opJal, Execute.opJalr, ho, hb, h1, h2,
        Instr.opcodeBit, Instr.branchBit, BranchOp.bit, BranchOp.taken]
    all_goals rfl
  | _ =>
    simp [Execute.needJump, Execute.instBeq, Execute.instBne, Execute.instBlt, Execute.instBge,
      Execute.instBltu, Execute.instBgeu, Execute.opJal, Execute.opJalr, ho, hb,
      Instr.opcodeBit, Instr.branchBit, Instr.transfer]

namespace LinuxExecute

open Execute

theorem jumpPc_issue (h : r.instr = i.encode)
    (ht : i.transfer r.pc (operand f regfile i.rs1) (operand f regfile i.rs2) = some t) :
    (execute (RegE.issue f regfile r)).jumpPc = t := by
  have ho := issue_opcodeInfo f regfile h
  have hi := issue_imm f regfile h
  have hn := needJump_issue f regfile h
  rw [ht] at hn
  cases i with
  | jal rd offset =>
    rw [← Option.some.inj ht]
    simp [execute, outputs, jumpPc, aluResult, aluSrc1, aluSrc2, opLui, opAuipc, opBranch,
      opStore, opJal, opJalr, opLoad, opAluReg, opAluRegw, opAluImm, opAluImmw, ho, hi,
      Instr.opcodeBit, Instr.imm]
    rfl
  | jalr rd rs1 imm =>
    rw [← Option.some.inj ht]
    simp [execute, outputs, jumpPc, aluResult, aluSrc1, aluSrc2, opLui, opAuipc, opBranch,
      opStore, opJal, opJalr, opLoad, opAluReg, opAluRegw, opAluImm, opAluImmw, ho, hi,
      issue_regdata1 f regfile h rfl, Instr.opcodeBit, Instr.imm]
  | branch op rs1 rs2 offset =>
    have ht : r.pc + (offset ++ 0#1).signExtend 64 = t := by
      simp only [Instr.transfer] at ht
      split at ht
      · exact Option.some.inj ht
      · cases ht
    rw [← ht]
    simp [execute, outputs, jumpPc, aluResult, aluSrc1, aluSrc2, opLui, opAuipc, opBranch,
      opJal, opJalr, opAluReg, opAluRegw, opAluImm, opAluImmw, ho, hi, hn,
      Instr.opcodeBit, Instr.imm]
    rfl
  | _ => cases ht

theorem commitInfo_issue (h : r.instr = i.encode) :
    (execute (RegE.issue f regfile r)).commitInfo =
      { r.commitInfo with
        prePc := (i.transfer r.pc (operand f regfile i.rs1) (operand f regfile i.rs2)).getD
          r.commitInfo.prePc } := by
  have hn := needJump_issue f regfile h
  cases ht : i.transfer r.pc (operand f regfile i.rs1) (operand f regfile i.rs2) with
  | none =>
    rw [ht] at hn
    exact if_neg (by rw [hn]; decide)
  | some t =>
    rw [ht] at hn
    apply (if_pos hn).trans
    rw [← jumpPc_issue f regfile h ht]
    rfl

theorem retire_jump (memdata : Word) (h : r.instr = i.encode) (hj : i.isJump) :
    let wb := (RegE.issue f regfile r).retire execute memdata
    wb.regWen = true ∧ i.dest = some wb.rd ∧ wb.data = r.pc + 4 := by
  have ho := issue_opcodeInfo f regfile h
  have hw := issue_regWen f regfile h
  cases i with
  | jal rd offset =>
    refine ⟨hw, congrArg some (issue_rd f regfile h rfl).symm, ?_⟩
    simp only [RegE.retire, writeBack, RegW.load, RegM.load, ho, getLsbD_hot, Nat.reduceLT]
    rfl
  | jalr rd rs1 imm =>
    refine ⟨hw, congrArg some (issue_rd f regfile h rfl).symm, ?_⟩
    simp only [RegE.retire, writeBack, RegW.load, RegM.load, ho, getLsbD_hot, Nat.reduceLT]
    rfl
  | _ => cases hj

theorem retire_branch (memdata : Word) (h : r.instr = i.encode) (hb : i.isBranch) :
    ((RegE.issue f regfile r).retire execute memdata).regWen = false := by
  have hw := issue_regWen f regfile h
  cases i with
  | branch => exact hw
  | _ => cases hb

/-- Control is transferred exactly when and where RV64I says, and the commit
record follows. -/
theorem control_transfer (i : Instr) (f : Forward) (regfile : Regfile) (r : RegD)
    (memdata : Word) (h : r.instr = i.encode) (hp : r.commitInfo.prePc = r.pc + 4) :
    let e := RegE.issue f regfile r
    let wb := e.retire execute memdata
    let target := i.transfer r.pc (operand f regfile i.rs1) (operand f regfile i.rs2)
    (execute e).needJump = target.isSome ∧
      (∀ t, target = some t → (execute e).jumpPc = t) ∧
      (i.isJump → wb.regWen = true ∧ i.dest = some wb.rd ∧ wb.data = r.pc + 4) ∧
      (i.isBranch → wb.regWen = false) ∧
      (execute e).commitInfo = { r.commitInfo with prePc := target.getD (r.pc + 4) } := by
  intro e wb target
  refine ⟨needJump_issue f regfile h, fun t ht => jumpPc_issue f regfile h ht,
    retire_jump f regfile memdata h, retire_branch f regfile memdata h, ?_⟩
  rw [commitInfo_issue f regfile h, hp]

theorem control_transfer_bne :
    let r : RegD := ⟨0x80000010, 0xfe209ee3, ⟨true, 0xfe209ee3, 0x80000014, 0x80000010⟩⟩
    let e := RegE.issue .idle (BitVec.setWidth 64) r
    (execute e).needJump = true ∧ (execute e).jumpPc = 0x8000000c ∧
      (execute e).commitInfo.prePc = 0x8000000c := by
  have h := control_transfer (.branch .bne 1 2 0xffe) .idle (BitVec.setWidth 64)
    ⟨0x80000010, 0xfe209ee3, ⟨true, 0xfe209ee3, 0x80000014, 0x80000010⟩⟩ 0 (by decide) (by decide)
  exact ⟨h.1, h.2.1 _ rfl, congrArg CommitInfo.prePc h.2.2.2.2⟩

end LinuxExecute

end Issue

end LinuxCpu.Rv64
