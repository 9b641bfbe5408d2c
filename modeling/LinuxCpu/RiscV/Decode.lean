import LinuxCpu.RiscV.Semantics

namespace LinuxCpu.RiscV

open Bits

def BranchOp.ofFunct3 : BitVec 3 → Option BranchOp
  | 0b000 => some .beq
  | 0b001 => some .bne
  | 0b100 => some .blt
  | 0b101 => some .bge
  | 0b110 => some .bltu
  | 0b111 => some .bgeu
  | _ => none

def LoadOp.ofFunct3 : BitVec 3 → Option LoadOp
  | 0b000 => some .lb
  | 0b001 => some .lh
  | 0b010 => some .lw
  | 0b011 => some .ld
  | 0b100 => some .lbu
  | 0b101 => some .lhu
  | 0b110 => some .lwu
  | _ => none

def StoreOp.ofFunct3 : BitVec 3 → Option StoreOp
  | 0b000 => some .sb
  | 0b001 => some .sh
  | 0b010 => some .sw
  | 0b011 => some .sd
  | _ => none

def ImmOp.ofFunct3 : BitVec 3 → Option ImmOp
  | 0b000 => some .addi
  | 0b010 => some .slti
  | 0b011 => some .sltiu
  | 0b100 => some .xori
  | 0b110 => some .ori
  | 0b111 => some .andi
  | _ => none

def ShiftOp.ofFunct (f6 : BitVec 6) (f3 : BitVec 3) : Option ShiftOp :=
  if f3 = 0b001 ∧ f6 = 0 then some .sll
  else if f3 = 0b101 ∧ f6 = 0 then some .srl
  else if f3 = 0b101 ∧ f6 = 0b010000 then some .sra
  else none

def RegOp.ofFunct (f7 : BitVec 7) (f3 : BitVec 3) : Option RegOp :=
  [.add, .sub, .sll, .slt, .sltu, .xor, .srl, .sra, .or, .and].find? fun op =>
    op.funct7 == f7 && op.funct3 == f3

def RegWOp.ofFunct (f7 : BitVec 7) (f3 : BitVec 3) : Option RegWOp :=
  [.addw, .subw, .sllw, .srlw, .sraw].find? fun op => op.funct7 == f7 && op.funct3 == f3

def MulDivOp.ofFunct3 : BitVec 3 → MulDivOp
  | 0b000 => .mul
  | 0b001 => .mulh
  | 0b010 => .mulhsu
  | 0b011 => .mulhu
  | 0b100 => .div
  | 0b101 => .divu
  | 0b110 => .rem
  | _ => .remu

def MulDivWOp.ofFunct3 : BitVec 3 → Option MulDivWOp
  | 0b000 => some .mulw
  | 0b100 => some .divw
  | 0b101 => some .divuw
  | 0b110 => some .remw
  | 0b111 => some .remuw
  | _ => none

namespace Instr

section Fields

variable (w : BitVec 32)

def funct3 : BitVec 3 := w.extractLsb' 12 3
def funct7 : BitVec 7 := w.extractLsb' 25 7
def immI : BitVec 12 := w.extractLsb' 20 12
def immS : BitVec 12 := w.extractLsb' 25 7 ++ w.extractLsb' 7 5
def immU : BitVec 20 := w.extractLsb' 12 20

def offsetB : BitVec 12 :=
  w.extractLsb' 31 1 ++ w.extractLsb' 7 1 ++ w.extractLsb' 25 6 ++ w.extractLsb' 8 4

def offsetJ : BitVec 20 :=
  w.extractLsb' 31 1 ++ w.extractLsb' 12 8 ++ w.extractLsb' 20 1 ++ w.extractLsb' 21 10

def fieldRd : Reg := w.extractLsb' 7 5
def fieldRs1 : Reg := w.extractLsb' 15 5
def fieldRs2 : Reg := w.extractLsb' 20 5

def decodeImm : Option Instr :=
  match ImmOp.ofFunct3 (funct3 w) with
  | some op => some (.opImm op (fieldRd w) (fieldRs1 w) (immI w))
  | none => (ShiftOp.ofFunct (w.extractLsb' 26 6) (funct3 w)).map fun op =>
    .shiftImm op (fieldRd w) (fieldRs1 w) (w.extractLsb' 20 6)

def decodeImmW : Option Instr :=
  if funct3 w = 0 then some (.addiw (fieldRd w) (fieldRs1 w) (immI w))
  else if w.extractLsb' 25 1 = 0 then
    (ShiftOp.ofFunct (w.extractLsb' 26 6) (funct3 w)).map fun op =>
      .shiftImmW op (fieldRd w) (fieldRs1 w) (fieldRs2 w)
  else none

def decodeReg : Option Instr :=
  if funct7 w = 1 then
    some (.mulDiv (MulDivOp.ofFunct3 (funct3 w)) (fieldRd w) (fieldRs1 w) (fieldRs2 w))
  else (RegOp.ofFunct (funct7 w) (funct3 w)).map fun op =>
    .opReg op (fieldRd w) (fieldRs1 w) (fieldRs2 w)

def decodeRegW : Option Instr :=
  if funct7 w = 1 then (MulDivWOp.ofFunct3 (funct3 w)).map fun op =>
    .mulDivW op (fieldRd w) (fieldRs1 w) (fieldRs2 w)
  else (RegWOp.ofFunct (funct7 w) (funct3 w)).map fun op =>
    .opRegW op (fieldRd w) (fieldRs1 w) (fieldRs2 w)

def decode : Option Instr :=
  match w.extractLsb' 0 7 with
  | 0b0110111 => some (.lui (fieldRd w) (immU w))
  | 0b0010111 => some (.auipc (fieldRd w) (immU w))
  | 0b1101111 => some (.jal (fieldRd w) (offsetJ w))
  | 0b1100111 => if funct3 w = 0 then some (.jalr (fieldRd w) (fieldRs1 w) (immI w)) else none
  | 0b1100011 => (BranchOp.ofFunct3 (funct3 w)).map fun op =>
    .branch op (fieldRs1 w) (fieldRs2 w) (offsetB w)
  | 0b0000011 => (LoadOp.ofFunct3 (funct3 w)).map fun op =>
    .load op (fieldRd w) (fieldRs1 w) (immI w)
  | 0b0100011 => (StoreOp.ofFunct3 (funct3 w)).map fun op =>
    .store op (fieldRs1 w) (fieldRs2 w) (immS w)
  | 0b0010011 => decodeImm w
  | 0b0011011 => decodeImmW w
  | 0b0110011 => decodeReg w
  | 0b0111011 => decodeRegW w
  | 0b0001111 => if funct3 w = 0 then some (.fence (fieldRd w) (fieldRs1 w) (immI w)) else none
  | 0b1110011 =>
    if w = ecall.encode then some .ecall else if w = ebreak.encode then some .ebreak else none
  | _ => none

end Fields

section Formats

variable (imm : BitVec 12) (imm' : BitVec 20) (rs2 rs1 : Reg) (f3 : BitVec 3) (rd : Reg)
  (opc : BitVec 7)

theorem iType_fields :
    (iType imm rs1 f3 rd opc).extractLsb' 0 7 = opc ∧ fieldRd (iType imm rs1 f3 rd opc) = rd ∧
      funct3 (iType imm rs1 f3 rd opc) = f3 ∧ fieldRs1 (iType imm rs1 f3 rd opc) = rs1 ∧
      immI (iType imm rs1 f3 rd opc) = imm :=
  ⟨word_opcode .., word_rd .., word_funct3 .., word_rs1 .., iType_imm ..⟩

theorem sType_fields :
    (sType imm rs2 rs1 f3 opc).extractLsb' 0 7 = opc ∧ funct3 (sType imm rs2 rs1 f3 opc) = f3 ∧
      fieldRs1 (sType imm rs2 rs1 f3 opc) = rs1 ∧ fieldRs2 (sType imm rs2 rs1 f3 opc) = rs2 ∧
      immS (sType imm rs2 rs1 f3 opc) = imm :=
  ⟨word_opcode .., word_funct3 .., word_rs1 .., word_rs2 .., sType_imm ..⟩

theorem bType_fields :
    (bType imm rs2 rs1 f3 opc).extractLsb' 0 7 = opc ∧ funct3 (bType imm rs2 rs1 f3 opc) = f3 ∧
      fieldRs1 (bType imm rs2 rs1 f3 opc) = rs1 ∧ fieldRs2 (bType imm rs2 rs1 f3 opc) = rs2 ∧
      offsetB (bType imm rs2 rs1 f3 opc) = imm :=
  ⟨word_opcode .., word_funct3 .., word_rs1 .., word_rs2 .., bType_offset ..⟩

theorem uType_fields :
    (uType imm' rd opc).extractLsb' 0 7 = opc ∧ fieldRd (uType imm' rd opc) = rd ∧
      immU (uType imm' rd opc) = imm' :=
  ⟨word_opcode .., word_rd .., uType_imm ..⟩

theorem jType_fields :
    (jType imm' rd opc).extractLsb' 0 7 = opc ∧ fieldRd (jType imm' rd opc) = rd ∧
      offsetJ (jType imm' rd opc) = imm' :=
  ⟨word_opcode .., word_rd .., jType_offset ..⟩

theorem rType_fields (f7 : BitVec 7) :
    (word f7 rs2 rs1 f3 rd opc).extractLsb' 0 7 = opc ∧ fieldRd (word f7 rs2 rs1 f3 rd opc) = rd ∧
      funct3 (word f7 rs2 rs1 f3 rd opc) = f3 ∧ fieldRs1 (word f7 rs2 rs1 f3 rd opc) = rs1 ∧
      fieldRs2 (word f7 rs2 rs1 f3 rd opc) = rs2 ∧ funct7 (word f7 rs2 rs1 f3 rd opc) = f7 :=
  ⟨word_opcode .., word_rd .., word_funct3 .., word_rs1 .., word_rs2 .., word_funct7 ..⟩

theorem iType_bits {n : Nat} (k : Nat) (hk : k + n ≤ 12) :
    (iType imm rs1 f3 rd opc).extractLsb' (20 + k) n = imm.extractLsb' k n := by
  have hi : (iType imm rs1 f3 rd opc).extractLsb' 20 12 = imm := iType_imm ..
  rw [← extractLsb'_extractLsb' _ hk, hi]

theorem iType_shift (f6 shamt : BitVec 6) :
    (iType (f6 ++ shamt) rs1 f3 rd opc).extractLsb' 26 6 = f6 ∧
      (iType (f6 ++ shamt) rs1 f3 rd opc).extractLsb' 20 6 = shamt :=
  ⟨(iType_bits _ rs1 f3 rd opc 6 (by decide)).trans (extractLsb'_append_high f6 shamt),
    (iType_bits _ rs1 f3 rd opc 0 (by decide)).trans (extractLsb'_append_low f6 shamt)⟩

theorem iType_shiftW (f6 : BitVec 6) (shamt : BitVec 5) :
    (iType (f6 ++ 0#1 ++ shamt) rs1 f3 rd opc).extractLsb' 26 6 = f6 ∧
      (iType (f6 ++ 0#1 ++ shamt) rs1 f3 rd opc).extractLsb' 25 1 = 0 ∧
      fieldRs2 (iType (f6 ++ 0#1 ++ shamt) rs1 f3 rd opc) = shamt := by
  have h7 : (f6 ++ 0#1 ++ shamt).extractLsb' 5 7 = f6 ++ 0#1 := extractLsb'_append_high ..
  refine ⟨?_, ?_, ?_⟩
  · apply (iType_bits _ rs1 f3 rd opc 6 (by decide)).trans
    apply (extractLsb'_extractLsb' (i := 1) (j := 5) (k := 6) (m := 7) _ (by decide)).symm.trans
    rw [h7]
    exact extractLsb'_append_high f6 0#1
  · apply (iType_bits _ rs1 f3 rd opc 5 (by decide)).trans
    apply (extractLsb'_extractLsb' (i := 0) (j := 5) (k := 1) (m := 7) _ (by decide)).symm.trans
    rw [h7]
    exact extractLsb'_append_low f6 0#1
  · exact (iType_bits _ rs1 f3 rd opc 0 (by decide)).trans (extractLsb'_append_low _ shamt)

end Formats

theorem decode_encode (i : Instr) : decode i.encode = some i := by
  cases i with
  | lui | auipc => simp [decode, encode, uType_fields]
  | jal => simp [decode, encode, jType_fields]
  | jalr | fence => simp [decode, encode, iType_fields]
  | branch op => cases op <;> simp [decode, encode, bType_fields, BranchOp.funct3, BranchOp.ofFunct3]
  | load op => cases op <;> simp [decode, encode, iType_fields, LoadOp.funct3, LoadOp.ofFunct3]
  | store op => cases op <;> simp [decode, encode, sType_fields, StoreOp.funct3, StoreOp.ofFunct3]
  | opImm op =>
    cases op <;> simp [decode, decodeImm, encode, iType_fields, ImmOp.funct3, ImmOp.ofFunct3]
  | shiftImm op =>
    cases op <;> simp [decode, decodeImm, encode, iType_fields, iType_shift, ShiftOp.funct3,
      ShiftOp.funct6, ImmOp.ofFunct3, ShiftOp.ofFunct]
  | opReg op =>
    cases op <;> simp [decode, decodeReg, encode, rType_fields, RegOp.funct3, RegOp.funct7,
      RegOp.ofFunct]
  | addiw => simp [decode, decodeImmW, encode, iType_fields]
  | shiftImmW op =>
    simp only [decode, decodeImmW, encode, iType_fields, iType_shiftW]
    cases op <;> rfl
  | opRegW op =>
    cases op <;> simp [decode, decodeRegW, encode, rType_fields, RegWOp.funct3, RegWOp.funct7,
      RegWOp.ofFunct]
  | mulDiv op =>
    cases op <;> simp [decode, decodeReg, encode, rType_fields, MulDivOp.funct3, MulDivOp.ofFunct3]
  | mulDivW op =>
    cases op <;> simp [decode, decodeRegW, encode, rType_fields, MulDivWOp.funct3,
      MulDivWOp.ofFunct3]
  | ecall | ebreak => decide

theorem encode_injective {i j : Instr} (h : i.encode = j.encode) : i = j :=
  Option.some.inj (by rw [← decode_encode, ← decode_encode, h])

end Instr

end LinuxCpu.RiscV
