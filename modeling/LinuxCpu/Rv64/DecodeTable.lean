import LinuxCpu.Rv64.Stages
import LinuxCpu.RiscV.Semantics
import Mathlib.Tactic.IntervalCases

namespace LinuxCpu.Rv64

open RiscV Bits

def RegOp.aluBit : RegOp → Nat
  | .add => 27
  | .sub => 26
  | .sll => 25
  | .slt => 24
  | .sltu => 23
  | .xor => 22
  | .srl => 21
  | .sra => 20
  | .or => 19
  | .and => 18

def RegWOp.aluBit : RegWOp → Nat
  | .addw => 17
  | .subw => 16
  | .sllw => 15
  | .srlw => 14
  | .sraw => 13

def MulDivOp.aluBit : MulDivOp → Nat
  | .mul => 12
  | .mulh => 11
  | .mulhsu => 10
  | .mulhu => 9
  | .div => 7
  | .divu => 6
  | .rem => 3
  | .remu => 2

def MulDivWOp.aluBit : MulDivWOp → Nat
  | .mulw => 8
  | .divw => 5
  | .divuw => 4
  | .remw => 1
  | .remuw => 0

def ShiftOp.toRegWOp : ShiftOp → RegWOp
  | .sll => .sllw
  | .srl => .srlw
  | .sra => .sraw

def BranchOp.bit : BranchOp → Nat
  | .beq => 5
  | .bne => 4
  | .blt => 3
  | .bge => 2
  | .bltu => 1
  | .bgeu => 0

def LoadOp.bit : LoadOp → Nat
  | .lb => 10
  | .lh => 9
  | .lw => 8
  | .ld => 7
  | .lbu => 6
  | .lhu => 5
  | .lwu => 4

def StoreOp.bit : StoreOp → Nat
  | .sb => 3
  | .sh => 2
  | .sw => 1
  | .sd => 0

def Instr.opcodeBit : Instr → Option Nat
  | .lui .. => some 11
  | .auipc .. => some 10
  | .jal .. => some 9
  | .jalr .. => some 8
  | .opReg .. | .mulDiv .. => some 7
  | .opRegW .. | .mulDivW .. => some 6
  | .opImm .. | .shiftImm .. => some 5
  | .addiw .. | .shiftImmW .. => some 4
  | .load .. => some 3
  | .store .. => some 2
  | .branch .. => some 1
  | .ecall | .ebreak => some 0
  | .fence .. => none

/-- A right shift by 32 or more: its top shift-amount bit falls in `func7`. -/
def ShiftOp.long (op : ShiftOp) (shamt : BitVec 6) : Bool := op != .sll && shamt.msb

def Instr.aluBit : Instr → Option Nat
  | .opReg op _ _ _ => some (RegOp.aluBit op)
  | .opImm op _ _ _ => some (RegOp.aluBit op.toRegOp)
  | .shiftImm op _ _ shamt =>
    if ShiftOp.long op shamt then none else some (RegOp.aluBit op.toRegOp)
  | .opRegW op _ _ _ => some (RegWOp.aluBit op)
  | .addiw .. => some 17
  | .shiftImmW op _ _ _ => some (RegWOp.aluBit (ShiftOp.toRegWOp op))
  | .mulDiv op _ _ _ => some (MulDivOp.aluBit op)
  | .mulDivW op _ _ _ => some (MulDivWOp.aluBit op)
  | _ => none

def Instr.branchBit : Instr → Option Nat
  | .branch op _ _ _ => some (BranchOp.bit op)
  | _ => none

def Instr.loadStoreBit : Instr → Option Nat
  | .load op _ _ _ => some (LoadOp.bit op)
  | .store op _ _ _ => some (StoreOp.bit op)
  | _ => none

namespace Decode

def opcodeBit (opcode : BitVec 7) : Option Nat :=
  match opcode.toNat with
  | 0b0110111 => some 11
  | 0b0010111 => some 10
  | 0b1101111 => some 9
  | 0b1100111 => some 8
  | 0b0110011 => some 7
  | 0b0111011 => some 6
  | 0b0010011 => some 5
  | 0b0011011 => some 4
  | 0b0000011 => some 3
  | 0b0100011 => some 2
  | 0b1100011 => some 1
  | 0b1110011 => some 0
  | _ => none

variable (w : BitVec 32)

theorem opcodeInfo_hot : opcodeInfo w = hot 12 (opcodeBit (opcode w)) := by
  simp only [opcodeInfo, instLui, instAuipc, instJal, instJalr, instAluReg, instAluRegw,
    instAluImm, instAluImmw, instLoad, instStore, instBranch, instSystem]
  generalize opcode w = o
  revert o
  decide

theorem regWen_eq : regWen w = (opcodeBit (opcode w)).any fun k => 3 ≤ k && k ≤ 11 := by
  simp only [regWen, instIType, instUType, instRType, instJType, instLui, instAuipc, instJal,
    instJalr, instAluReg, instAluRegw, instAluImm, instAluImmw, instLoad]
  generalize opcode w = o
  revert o
  decide

end Decode

def Instr.opcode : Instr → BitVec 7
  | .lui .. => 0b0110111
  | .auipc .. => 0b0010111
  | .jal .. => 0b1101111
  | .jalr .. => 0b1100111
  | .branch .. => 0b1100011
  | .load .. => 0b0000011
  | .store .. => 0b0100011
  | .opImm .. | .shiftImm .. => 0b0010011
  | .addiw .. | .shiftImmW .. => 0b0011011
  | .opReg .. | .mulDiv .. => 0b0110011
  | .opRegW .. | .mulDivW .. => 0b0111011
  | .fence .. => 0b0001111
  | .ecall | .ebreak => 0b1110011

variable (i : Instr)

theorem opcode_encode : Decode.opcode i.encode = Instr.opcode i := by
  cases i <;> exact word_opcode ..

theorem opcodeInfo_encode : Decode.opcodeInfo i.encode = hot 12 (Instr.opcodeBit i) := by
  rw [Decode.opcodeInfo_hot, opcode_encode]
  cases i <;> rfl

theorem branchInfo_encode : Decode.branchInfo i.encode = hot 6 (Instr.branchBit i) := by
  simp only [Decode.branchInfo, Decode.instBeq, Decode.instBne, Decode.instBlt, Decode.instBge,
    Decode.instBltu, Decode.instBgeu, Decode.instBranch, opcode_encode]
  cases i with
  | branch op rs1 rs2 offset =>
    have h3 : Decode.func3 (Instr.branch op rs1 rs2 offset).encode = op.funct3 := word_funct3 ..
    simp only [Decode.func3Is, h3, Instr.opcode, Instr.branchBit]
    cases op <;> decide
  | _ => simp [Instr.opcode, Instr.branchBit]; decide

theorem loadStoreInfo_encode :
    Decode.loadStoreInfo i.encode = hot 11 (Instr.loadStoreBit i) := by
  simp only [Decode.loadStoreInfo, Decode.instLb, Decode.instLh, Decode.instLw, Decode.instLd,
    Decode.instLbu, Decode.instLhu, Decode.instLwu, Decode.instSb, Decode.instSh, Decode.instSw,
    Decode.instSd, Decode.instLoad, Decode.instStore, opcode_encode]
  cases i with
  | load op rd rs1 imm =>
    have h3 : Decode.func3 (Instr.load op rd rs1 imm).encode = op.funct3 := word_funct3 ..
    simp only [Decode.func3Is, h3, Instr.opcode, Instr.loadStoreBit]
    cases op <;> decide
  | store op rs1 rs2 imm =>
    have h3 : Decode.func3 (Instr.store op rs1 rs2 imm).encode = op.funct3 := word_funct3 ..
    simp only [Decode.func3Is, h3, Instr.opcode, Instr.loadStoreBit]
    cases op <;> decide
  | _ => simp [Instr.opcode, Instr.loadStoreBit]; decide

theorem aluInfo_encode : Decode.aluInfo i.encode = hot 28 (Instr.aluBit i) := by
  simp only [Decode.aluInfo, Decode.instAdd, Decode.instSub, Decode.instSll, Decode.instSlt,
    Decode.instSltu, Decode.instXor, Decode.instSrl, Decode.instSra, Decode.instOr,
    Decode.instAnd, Decode.instAddw, Decode.instSubw, Decode.instSllw, Decode.instSrlw,
    Decode.instSraw, Decode.instMul, Decode.instMulh, Decode.instMulhsu, Decode.instMulhu,
    Decode.instDiv, Decode.instDivu, Decode.instRem, Decode.instRemu, Decode.instMulw,
    Decode.instDivw, Decode.instDivuw, Decode.instRemw, Decode.instRemuw, Decode.instAddi,
    Decode.instSlli, Decode.instSlti, Decode.instSltiu, Decode.instXori, Decode.instSrli,
    Decode.instSrai, Decode.instOri, Decode.instAndi, Decode.instAddiw, Decode.instSlliw,
    Decode.instSrliw, Decode.instSraiw, Decode.instAluReg, Decode.instAluRegw,
    Decode.instAluImm, Decode.instAluImmw, opcode_encode, Decode.func3Is, Decode.func7Is]
  cases i with
  | opReg op rd rs1 rs2 =>
    have h3 : Decode.func3 (Instr.opReg op rd rs1 rs2).encode = op.funct3 := word_funct3 ..
    have h7 : Decode.func7 (Instr.opReg op rd rs1 rs2).encode = op.funct7 := word_funct7 ..
    simp only [h3, h7, Instr.opcode, Instr.aluBit]
    cases op <;> decide
  | mulDiv op rd rs1 rs2 =>
    have h3 : Decode.func3 (Instr.mulDiv op rd rs1 rs2).encode = op.funct3 := word_funct3 ..
    have h7 : Decode.func7 (Instr.mulDiv op rd rs1 rs2).encode = 1 := word_funct7 ..
    simp only [h3, h7, Instr.opcode, Instr.aluBit]
    cases op <;> decide
  | opRegW op rd rs1 rs2 =>
    have h3 : Decode.func3 (Instr.opRegW op rd rs1 rs2).encode = op.funct3 := word_funct3 ..
    have h7 : Decode.func7 (Instr.opRegW op rd rs1 rs2).encode = op.funct7 := word_funct7 ..
    simp only [h3, h7, Instr.opcode, Instr.aluBit]
    cases op <;> decide
  | mulDivW op rd rs1 rs2 =>
    have h3 : Decode.func3 (Instr.mulDivW op rd rs1 rs2).encode = op.funct3 := word_funct3 ..
    have h7 : Decode.func7 (Instr.mulDivW op rd rs1 rs2).encode = 1 := word_funct7 ..
    simp only [h3, h7, Instr.opcode, Instr.aluBit]
    cases op <;> decide
  | opImm op rd rs1 imm =>
    have h3 : Decode.func3 (Instr.opImm op rd rs1 imm).encode = op.funct3 := word_funct3 ..
    cases op <;> simp [h3, Instr.opcode, Instr.aluBit, ImmOp.funct3] <;> decide
  | shiftImm op rd rs1 shamt =>
    have h3 : Decode.func3 (Instr.shiftImm op rd rs1 shamt).encode = op.funct3 := word_funct3 ..
    have h7 : Decode.func7 (Instr.shiftImm op rd rs1 shamt).encode =
        op.funct6 ++ BitVec.ofBool shamt.msb := (word_funct7 ..).trans (funct7_shift ..)
    obtain hs | hs := Bool.eq_false_or_eq_true shamt.msb <;>
      simp only [h3, h7, Instr.opcode, Instr.aluBit, ShiftOp.long, hs] <;>
      cases op <;> decide
  | shiftImmW op rd rs1 shamt =>
    have h3 : Decode.func3 (Instr.shiftImmW op rd rs1 shamt).encode = op.funct3 := word_funct3 ..
    have h7 : Decode.func7 (Instr.shiftImmW op rd rs1 shamt).encode = op.funct6 ++ 0#1 :=
      (word_funct7 ..).trans (funct7_shiftW ..)
    simp only [h3, h7, Instr.opcode, Instr.aluBit]
    cases op <;> decide
  | addiw rd rs1 imm =>
    have h3 : Decode.func3 (Instr.addiw rd rs1 imm).encode = 0 := word_funct3 ..
    simp [h3, Instr.opcode, Instr.aluBit]
    decide
  | _ => simp [Instr.opcode, Instr.aluBit]; decide

theorem instIImm_eq (w : BitVec 32) :
    Decode.instIImm w = (w.extractLsb' 20 12).signExtend 64 :=
  fill_append_eq_signExtend _ (by simp only [BitVec.msb_extractLsb']; rfl)

theorem instSImm_eq (w : BitVec 32) :
    Decode.instSImm w = (w.extractLsb' 25 7 ++ w.extractLsb' 7 5).signExtend 64 :=
  fill_append_eq_signExtend _ (by simp only [BitVec.msb_append, BitVec.msb_extractLsb']; rfl)

theorem instBImm_eq (w : BitVec 32) :
    Decode.instBImm w = (w.extractLsb' 31 1 ++ w.extractLsb' 7 1 ++ w.extractLsb' 25 6 ++
      w.extractLsb' 8 4 ++ 0#1).signExtend 64 :=
  fill_append_eq_signExtend _ (by simp only [BitVec.msb_append, BitVec.msb_extractLsb']; rfl)

theorem instJImm_eq (w : BitVec 32) :
    Decode.instJImm w = (w.extractLsb' 31 1 ++ w.extractLsb' 12 8 ++ w.extractLsb' 20 1 ++
      w.extractLsb' 21 10 ++ 0#1).signExtend 64 :=
  fill_append_eq_signExtend _ (by simp only [BitVec.msb_append, BitVec.msb_extractLsb']; rfl)

theorem instUImm_eq (w : BitVec 32) :
    Decode.instUImm w = (w.extractLsb' 12 20 ++ 0#12).signExtend 64 :=
  fill_append_eq_signExtend _ (by simp only [BitVec.msb_append, BitVec.msb_extractLsb']; rfl)

def Instr.imm : Instr → Word
  | .lui _ imm | .auipc _ imm => (imm ++ 0#12).signExtend 64
  | .jal _ offset => (offset ++ 0#1).signExtend 64
  | .branch _ _ _ offset => (offset ++ 0#1).signExtend 64
  | .jalr _ _ imm | .load _ _ _ imm | .store _ _ _ imm | .opImm _ _ _ imm | .addiw _ _ imm =>
    imm.signExtend 64
  | .shiftImm op _ _ shamt => (op.funct6 ++ shamt).signExtend 64
  | .shiftImmW op _ _ shamt => (op.funct6 ++ 0#1 ++ shamt).signExtend 64
  | _ => 0

theorem imm_encode : Decode.imm i.encode = Instr.imm i := by
  simp only [Decode.imm, Decode.instIType, Decode.instSType, Decode.instBType, Decode.instJType,
    Decode.instUType, Decode.instRType, Decode.instLoad, Decode.instJalr, Decode.instAluImm,
    Decode.instAluImmw, Decode.instStore, Decode.instBranch, Decode.instJal, Decode.instLui,
    Decode.instAuipc, Decode.instAluReg, Decode.instAluRegw, opcode_encode]
  cases i with
  | lui | auipc =>
    simp only [Instr.opcode, Instr.imm, Instr.encode]
    exact (instUImm_eq _).trans (by rw [uType_imm])
  | jal =>
    exact (instJImm_eq _).trans (congrArg (fun x => (x ++ 0#1).signExtend 64) (jType_offset ..))
  | branch =>
    exact (instBImm_eq _).trans (congrArg (fun x => (x ++ 0#1).signExtend 64) (bType_offset ..))
  | store => exact (instSImm_eq _).trans (congrArg (·.signExtend 64) (sType_imm ..))
  | jalr | load | opImm | addiw | shiftImm | shiftImmW =>
    exact (instIImm_eq _).trans (congrArg (·.signExtend 64) (iType_imm ..))
  | opReg | opRegW | mulDiv | mulDivW | fence | ecall | ebreak => rfl

theorem regWen_encode : Decode.regWen i.encode = i.dest.isSome := by
  rw [Decode.regWen_eq, opcode_encode]
  cases i <;> rfl

theorem rd_encode (h : i.dest = some rd) : Decode.rd i.encode = rd := by
  cases i <;> cases h <;> exact word_rd ..

def Instr.hasRs1 : Instr → Bool
  | .lui .. | .auipc .. | .jal .. | .fence .. | .ecall | .ebreak => false
  | _ => true

def Instr.hasRs2 : Instr → Bool
  | .branch .. | .store .. | .opReg .. | .opRegW .. | .mulDiv .. | .mulDivW .. => true
  | _ => false

theorem rs1_encode (h : Instr.hasRs1 i) : Decode.rs1 i.encode = i.rs1 := by
  cases i <;> first | exact word_rs1 .. | cases h

theorem rs2_encode (h : Instr.hasRs2 i) : Decode.rs2 i.encode = i.rs2 := by
  cases i <;> first | exact word_rs2 .. | cases h

section Issue

variable (f : Forward) (regfile : Regfile) {r : RegD} {i : Instr} (h : r.instr = i.encode)

include h

theorem issue_opcodeInfo : (RegE.issue f regfile r).opcodeInfo = hot 12 (Instr.opcodeBit i) := by
  rw [← opcodeInfo_encode, ← h]
  rfl

theorem issue_aluInfo : (RegE.issue f regfile r).aluInfo = hot 28 (Instr.aluBit i) := by
  rw [← aluInfo_encode, ← h]
  rfl

theorem issue_branchInfo : (RegE.issue f regfile r).branchInfo = hot 6 (Instr.branchBit i) := by
  rw [← branchInfo_encode, ← h]
  rfl

theorem issue_loadStoreInfo :
    (RegE.issue f regfile r).loadStoreInfo = hot 11 (Instr.loadStoreBit i) := by
  rw [← loadStoreInfo_encode, ← h]
  rfl

theorem issue_imm : (RegE.issue f regfile r).imm = Instr.imm i := by
  rw [← imm_encode, ← h]
  rfl

theorem issue_regWen : (RegE.issue f regfile r).regWen = i.dest.isSome := by
  rw [← regWen_encode, ← h]
  rfl

theorem issue_rd (hd : i.dest = some rd) : (RegE.issue f regfile r).rd = rd := by
  rw [← rd_encode i hd, ← h]
  rfl

theorem issue_regdata1 (hr : Instr.hasRs1 i) :
    (RegE.issue f regfile r).regdata1 = operand f regfile i.rs1 := by
  rw [← rs1_encode i hr, ← h]
  rfl

theorem issue_regdata2 (hr : Instr.hasRs2 i) :
    (RegE.issue f regfile r).regdata2 = operand f regfile i.rs2 := by
  rw [← rs2_encode i hr, ← h]
  rfl

end Issue

end LinuxCpu.Rv64
