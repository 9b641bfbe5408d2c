import LinuxCpu.Lib.Bits
import Mathlib.Tactic.IntervalCases

/-! The unprivileged RISC-V integer instructions and the multiply-divide
extension, with their 32-bit encodings. -/

namespace LinuxCpu.RiscV

open Bits

abbrev Reg := BitVec 5

inductive BranchOp | beq | bne | blt | bge | bltu | bgeu
  deriving DecidableEq

inductive LoadOp | lb | lh | lw | ld | lbu | lhu | lwu
  deriving DecidableEq

inductive StoreOp | sb | sh | sw | sd
  deriving DecidableEq

inductive ImmOp | addi | slti | sltiu | xori | ori | andi
  deriving DecidableEq

inductive ShiftOp | sll | srl | sra
  deriving DecidableEq

inductive RegOp | add | sub | sll | slt | sltu | xor | srl | sra | or | and
  deriving DecidableEq

inductive RegWOp | addw | subw | sllw | srlw | sraw
  deriving DecidableEq

inductive MulDivOp | mul | mulh | mulhsu | mulhu | div | divu | rem | remu
  deriving DecidableEq

inductive MulDivWOp | mulw | divw | divuw | remw | remuw
  deriving DecidableEq

/-- Branch and jump offsets are stored without their bit 0, which is zero. -/
inductive Instr
  | lui (rd : Reg) (imm : BitVec 20)
  | auipc (rd : Reg) (imm : BitVec 20)
  | jal (rd : Reg) (offset : BitVec 20)
  | jalr (rd rs1 : Reg) (imm : BitVec 12)
  | branch (op : BranchOp) (rs1 rs2 : Reg) (offset : BitVec 12)
  | load (op : LoadOp) (rd rs1 : Reg) (imm : BitVec 12)
  | store (op : StoreOp) (rs1 rs2 : Reg) (imm : BitVec 12)
  | opImm (op : ImmOp) (rd rs1 : Reg) (imm : BitVec 12)
  | shiftImm (op : ShiftOp) (rd rs1 : Reg) (shamt : BitVec 6)
  | opReg (op : RegOp) (rd rs1 rs2 : Reg)
  | addiw (rd rs1 : Reg) (imm : BitVec 12)
  | shiftImmW (op : ShiftOp) (rd rs1 : Reg) (shamt : BitVec 5)
  | opRegW (op : RegWOp) (rd rs1 rs2 : Reg)
  | mulDiv (op : MulDivOp) (rd rs1 rs2 : Reg)
  | mulDivW (op : MulDivWOp) (rd rs1 rs2 : Reg)
  | fence (rd rs1 : Reg) (imm : BitVec 12)
  | ecall
  | ebreak
  deriving DecidableEq

def word (funct7 : BitVec 7) (rs2 rs1 : Reg) (funct3 : BitVec 3) (rd : Reg)
    (opcode : BitVec 7) : BitVec 32 :=
  funct7 ++ rs2 ++ rs1 ++ funct3 ++ rd ++ opcode

def iType (imm : BitVec 12) (rs1 : Reg) (funct3 : BitVec 3) (rd : Reg) (opcode : BitVec 7) :
    BitVec 32 :=
  word (imm.extractLsb' 5 7) (imm.extractLsb' 0 5) rs1 funct3 rd opcode

def sType (imm : BitVec 12) (rs2 rs1 : Reg) (funct3 : BitVec 3) (opcode : BitVec 7) : BitVec 32 :=
  word (imm.extractLsb' 5 7) rs2 rs1 funct3 (imm.extractLsb' 0 5) opcode

def bType (offset : BitVec 12) (rs2 rs1 : Reg) (funct3 : BitVec 3) (opcode : BitVec 7) :
    BitVec 32 :=
  word (offset.extractLsb' 11 1 ++ offset.extractLsb' 4 6) rs2 rs1 funct3
    (offset.extractLsb' 0 4 ++ offset.extractLsb' 10 1) opcode

def uType (imm : BitVec 20) (rd : Reg) (opcode : BitVec 7) : BitVec 32 :=
  word (imm.extractLsb' 13 7) (imm.extractLsb' 8 5) (imm.extractLsb' 3 5) (imm.extractLsb' 0 3)
    rd opcode

def jType (offset : BitVec 20) (rd : Reg) (opcode : BitVec 7) : BitVec 32 :=
  word (offset.extractLsb' 19 1 ++ offset.extractLsb' 4 6)
    (offset.extractLsb' 0 4 ++ offset.extractLsb' 10 1)
    (offset.extractLsb' 14 5) (offset.extractLsb' 11 3) rd opcode

theorem toNat_word (f7 : BitVec 7) (rs2 rs1 : Reg) (f3 : BitVec 3) (rd : Reg) (opc : BitVec 7) :
    (word f7 rs2 rs1 f3 rd opc).toNat =
      ((((f7.toNat * 32 + rs2.toNat) * 32 + rs1.toNat) * 8 + f3.toNat) * 32 + rd.toNat) * 128 +
        opc.toNat := by
  rw [word]
  erw [toNat_append_add]
  simp only [toNat_append_add, Nat.reducePow]

section Fields

variable (f7 : BitVec 7) (rs2 rs1 : Reg) (f3 : BitVec 3) (rd : Reg) (opc : BitVec 7)

@[simp] theorem word_opcode : (word f7 rs2 rs1 f3 rd opc).extractLsb' 0 7 = opc := by
  apply BitVec.eq_of_toNat_eq
  simp only [BitVec.extractLsb'_toNat, Nat.shiftRight_eq_div_pow, toNat_word]
  omega

@[simp] theorem word_rd : (word f7 rs2 rs1 f3 rd opc).extractLsb' 7 5 = rd := by
  apply BitVec.eq_of_toNat_eq
  simp only [BitVec.extractLsb'_toNat, Nat.shiftRight_eq_div_pow, toNat_word]
  omega

@[simp] theorem word_funct3 : (word f7 rs2 rs1 f3 rd opc).extractLsb' 12 3 = f3 := by
  apply BitVec.eq_of_toNat_eq
  simp only [BitVec.extractLsb'_toNat, Nat.shiftRight_eq_div_pow, toNat_word]
  omega

@[simp] theorem word_rs1 : (word f7 rs2 rs1 f3 rd opc).extractLsb' 15 5 = rs1 := by
  apply BitVec.eq_of_toNat_eq
  simp only [BitVec.extractLsb'_toNat, Nat.shiftRight_eq_div_pow, toNat_word]
  omega

@[simp] theorem word_rs2 : (word f7 rs2 rs1 f3 rd opc).extractLsb' 20 5 = rs2 := by
  apply BitVec.eq_of_toNat_eq
  simp only [BitVec.extractLsb'_toNat, Nat.shiftRight_eq_div_pow, toNat_word]
  omega

@[simp] theorem word_funct7 : (word f7 rs2 rs1 f3 rd opc).extractLsb' 25 7 = f7 := by
  apply BitVec.eq_of_toNat_eq
  simp only [BitVec.extractLsb'_toNat, Nat.shiftRight_eq_div_pow, toNat_word]
  omega

end Fields

@[simp] theorem iType_imm (imm : BitVec 12) (rs1 : Reg) (f3 : BitVec 3) (rd : Reg)
    (opc : BitVec 7) : (iType imm rs1 f3 rd opc).extractLsb' 20 12 = imm := by
  apply BitVec.eq_of_toNat_eq
  simp only [iType, BitVec.extractLsb'_toNat, Nat.shiftRight_eq_div_pow, toNat_word]
  omega

theorem sType_imm (imm : BitVec 12) (rs2 rs1 : Reg) (f3 : BitVec 3) (opc : BitVec 7) :
    (sType imm rs2 rs1 f3 opc).extractLsb' 25 7 ++ (sType imm rs2 rs1 f3 opc).extractLsb' 7 5 =
      imm := by
  rw [sType, word_funct7, word_rd]
  exact BitVec.extractLsb'_append_extractLsb'

theorem bType_offset (offset : BitVec 12) (rs2 rs1 : Reg) (f3 : BitVec 3) (opc : BitVec 7) :
    (bType offset rs2 rs1 f3 opc).extractLsb' 31 1 ++
      (bType offset rs2 rs1 f3 opc).extractLsb' 7 1 ++
      (bType offset rs2 rs1 f3 opc).extractLsb' 25 6 ++
      (bType offset rs2 rs1 f3 opc).extractLsb' 8 4 = offset := by
  have hf : (bType offset rs2 rs1 f3 opc).extractLsb' 25 7 = _ := word_funct7 ..
  have hd : (bType offset rs2 rs1 f3 opc).extractLsb' 7 5 = _ := word_rd ..
  have h31 : (bType offset rs2 rs1 f3 opc).extractLsb' 31 1 = _ :=
    (extractLsb'_extractLsb' _ (by decide)).symm.trans (congrArg (·.extractLsb' 6 1) hf)
  have h25 : (bType offset rs2 rs1 f3 opc).extractLsb' 25 6 = _ :=
    (extractLsb'_extractLsb' _ (by decide)).symm.trans (congrArg (·.extractLsb' 0 6) hf)
  have h7 : (bType offset rs2 rs1 f3 opc).extractLsb' 7 1 = _ :=
    (extractLsb'_extractLsb' _ (by decide)).symm.trans (congrArg (·.extractLsb' 0 1) hd)
  have h8 : (bType offset rs2 rs1 f3 opc).extractLsb' 8 4 = _ :=
    (extractLsb'_extractLsb' _ (by decide)).symm.trans (congrArg (·.extractLsb' 1 4) hd)
  rw [h31, h25, h7, h8]
  apply BitVec.eq_of_getLsbD_eq
  intro i hi
  simp only [BitVec.getLsbD_append, BitVec.getLsbD_extractLsb']
  interval_cases i <;> simp

theorem uType_imm (imm : BitVec 20) (rd : Reg) (opc : BitVec 7) :
    (uType imm rd opc).extractLsb' 12 20 = imm := by
  apply BitVec.eq_of_toNat_eq
  simp only [uType, BitVec.extractLsb'_toNat, Nat.shiftRight_eq_div_pow, toNat_word]
  omega

theorem word_rs1_funct3 (f7 : BitVec 7) (rs2 rs1 : Reg) (f3 : BitVec 3) (rd : Reg)
    (opc : BitVec 7) : (word f7 rs2 rs1 f3 rd opc).extractLsb' 12 8 = rs1 ++ f3 := by
  apply BitVec.eq_of_toNat_eq
  simp only [BitVec.extractLsb'_toNat, Nat.shiftRight_eq_div_pow, toNat_word, toNat_append_add]
  omega

theorem word_funct7_rs2 (f7 : BitVec 7) (rs2 rs1 : Reg) (f3 : BitVec 3) (rd : Reg)
    (opc : BitVec 7) : (word f7 rs2 rs1 f3 rd opc).extractLsb' 20 12 = f7 ++ rs2 := by
  apply BitVec.eq_of_toNat_eq
  simp only [BitVec.extractLsb'_toNat, Nat.shiftRight_eq_div_pow, toNat_word, toNat_append_add]
  omega

theorem jType_offset (offset : BitVec 20) (rd : Reg) (opc : BitVec 7) :
    (jType offset rd opc).extractLsb' 31 1 ++ (jType offset rd opc).extractLsb' 12 8 ++
      (jType offset rd opc).extractLsb' 20 1 ++ (jType offset rd opc).extractLsb' 21 10 =
      offset := by
  have hi : (jType offset rd opc).extractLsb' 20 12 = _ := word_funct7_rs2 ..
  have h31 : (jType offset rd opc).extractLsb' 31 1 = _ :=
    (extractLsb'_extractLsb' _ (by decide)).symm.trans (congrArg (·.extractLsb' 11 1) hi)
  have h20 : (jType offset rd opc).extractLsb' 20 1 = _ :=
    (extractLsb'_extractLsb' _ (by decide)).symm.trans (congrArg (·.extractLsb' 0 1) hi)
  have h21 : (jType offset rd opc).extractLsb' 21 10 = _ :=
    (extractLsb'_extractLsb' _ (by decide)).symm.trans (congrArg (·.extractLsb' 1 10) hi)
  have h12 : (jType offset rd opc).extractLsb' 12 8 = _ := word_rs1_funct3 ..
  rw [h31, h12, h20, h21]
  apply BitVec.eq_of_getLsbD_eq
  intro i hi
  simp only [BitVec.getLsbD_append, BitVec.getLsbD_extractLsb']
  interval_cases i <;> simp

theorem funct7_shift (f6 : BitVec 6) (shamt : BitVec 6) :
    (f6 ++ shamt).extractLsb' 5 7 = f6 ++ BitVec.ofBool shamt.msb := by
  apply BitVec.eq_of_getLsbD_eq
  intro i hi
  simp only [BitVec.getLsbD_append, BitVec.getLsbD_extractLsb', BitVec.msb_eq_getLsbD_last]
  interval_cases i <;> simp

theorem funct7_shiftW (f6 : BitVec 6) (shamt : BitVec 5) :
    (f6 ++ 0#1 ++ shamt).extractLsb' 5 7 = f6 ++ 0#1 := by
  apply BitVec.eq_of_getLsbD_eq
  intro i hi
  simp only [BitVec.getLsbD_append, BitVec.getLsbD_extractLsb']
  interval_cases i <;> simp

def BranchOp.funct3 : BranchOp → BitVec 3
  | .beq => 0b000
  | .bne => 0b001
  | .blt => 0b100
  | .bge => 0b101
  | .bltu => 0b110
  | .bgeu => 0b111

def LoadOp.funct3 : LoadOp → BitVec 3
  | .lb => 0b000
  | .lh => 0b001
  | .lw => 0b010
  | .ld => 0b011
  | .lbu => 0b100
  | .lhu => 0b101
  | .lwu => 0b110

def StoreOp.funct3 : StoreOp → BitVec 3
  | .sb => 0b000
  | .sh => 0b001
  | .sw => 0b010
  | .sd => 0b011

def ImmOp.funct3 : ImmOp → BitVec 3
  | .addi => 0b000
  | .slti => 0b010
  | .sltiu => 0b011
  | .xori => 0b100
  | .ori => 0b110
  | .andi => 0b111

def ShiftOp.funct3 : ShiftOp → BitVec 3
  | .sll => 0b001
  | .srl => 0b101
  | .sra => 0b101

def ShiftOp.funct6 : ShiftOp → BitVec 6
  | .sll => 0b000000
  | .srl => 0b000000
  | .sra => 0b010000

def RegOp.funct3 : RegOp → BitVec 3
  | .add => 0b000
  | .sub => 0b000
  | .sll => 0b001
  | .slt => 0b010
  | .sltu => 0b011
  | .xor => 0b100
  | .srl => 0b101
  | .sra => 0b101
  | .or => 0b110
  | .and => 0b111

def RegOp.funct7 : RegOp → BitVec 7
  | .sub | .sra => 0b0100000
  | _ => 0b0000000

def RegWOp.funct3 : RegWOp → BitVec 3
  | .addw => 0b000
  | .subw => 0b000
  | .sllw => 0b001
  | .srlw => 0b101
  | .sraw => 0b101

def RegWOp.funct7 : RegWOp → BitVec 7
  | .subw | .sraw => 0b0100000
  | _ => 0b0000000

def MulDivOp.funct3 : MulDivOp → BitVec 3
  | .mul => 0b000
  | .mulh => 0b001
  | .mulhsu => 0b010
  | .mulhu => 0b011
  | .div => 0b100
  | .divu => 0b101
  | .rem => 0b110
  | .remu => 0b111

def MulDivWOp.funct3 : MulDivWOp → BitVec 3
  | .mulw => 0b000
  | .divw => 0b100
  | .divuw => 0b101
  | .remw => 0b110
  | .remuw => 0b111

def Instr.encode : Instr → BitVec 32
  | .lui rd imm => uType imm rd 0b0110111
  | .auipc rd imm => uType imm rd 0b0010111
  | .jal rd offset => jType offset rd 0b1101111
  | .jalr rd rs1 imm => iType imm rs1 0b000 rd 0b1100111
  | .branch op rs1 rs2 offset => bType offset rs2 rs1 op.funct3 0b1100011
  | .load op rd rs1 imm => iType imm rs1 op.funct3 rd 0b0000011
  | .store op rs1 rs2 imm => sType imm rs2 rs1 op.funct3 0b0100011
  | .opImm op rd rs1 imm => iType imm rs1 op.funct3 rd 0b0010011
  | .shiftImm op rd rs1 shamt => iType (op.funct6 ++ shamt) rs1 op.funct3 rd 0b0010011
  | .opReg op rd rs1 rs2 => word op.funct7 rs2 rs1 op.funct3 rd 0b0110011
  | .addiw rd rs1 imm => iType imm rs1 0b000 rd 0b0011011
  | .shiftImmW op rd rs1 shamt => iType (op.funct6 ++ 0#1 ++ shamt) rs1 op.funct3 rd 0b0011011
  | .opRegW op rd rs1 rs2 => word op.funct7 rs2 rs1 op.funct3 rd 0b0111011
  | .mulDiv op rd rs1 rs2 => word 0b0000001 rs2 rs1 op.funct3 rd 0b0110011
  | .mulDivW op rd rs1 rs2 => word 0b0000001 rs2 rs1 op.funct3 rd 0b0111011
  | .fence rd rs1 imm => iType imm rs1 0b000 rd 0b0001111
  | .ecall => word 0 0 0 0b000 0 0b1110011
  | .ebreak => word 0 1 0 0b000 0 0b1110011

def Instr.isLoad : Instr → Bool
  | .load .. => true
  | _ => false

def Instr.isStore : Instr → Bool
  | .store .. => true
  | _ => false

def Instr.isBranch : Instr → Bool
  | .branch .. => true
  | _ => false

def Instr.isJump : Instr → Bool
  | .jal .. | .jalr .. => true
  | _ => false

def Instr.isSystem : Instr → Bool
  | .fence .. | .ecall | .ebreak => true
  | _ => false

/-- The instructions of RV32I; its shift amounts have five bits. -/
def Instr.rv32i : Instr → Bool
  | .load op _ _ _ => op != .ld && op != .lwu
  | .store op _ _ _ => op != .sd
  | .shiftImm _ _ _ shamt => !shamt.msb
  | .addiw .. | .shiftImmW .. | .opRegW .. | .mulDiv .. | .mulDivW .. => false
  | _ => true

example : (Instr.opImm .addi 1 0 5).encode = 0x00500093 := by decide

end LinuxCpu.RiscV
