import LinuxCpu.Lib.AdderSub
import LinuxCpu.RiscV.Decode
import LinuxCpu.RiscV.Run
import LinuxCpu.Rv32.SingleCycleCorrect
import LinuxCpu.Rv32.TaoShuRv

namespace LinuxCpu.Rv32.TaoShuRv

open RiscV Bits ByteMemory AdderSub

namespace Alu

theorem ofBool_word (p : Bool) : 0#31 ++ BitVec.ofBool p = if p then (1 : Word) else 0 := by
  cases p <;> rfl

theorem adderResult_eq (op : AluOp) (a b : Word) :
    adderResult op a b = if inverts op then a - b else a + b := by
  have hsum : ∀ x c : Word,
      (a.setWidth 33 + x.setWidth 33 + c.setWidth 33).setWidth 32 = a + x + c := setWidth_sum a
  rw [adderResult, adder, hsum]
  split
  · exact sub_eq_add_not a b
  · exact BitVec.add_zero _

theorem sltResult_eq (a b : Word) : sltResult .slt a b = if a.toInt < b.toInt then 1 else 0 := by
  have hm (x : Word) : x.getLsbD 31 = x.msb := (BitVec.msb_eq_getLsbD_last x).symm
  have hs : (a.getLsbD 31 && !b.getLsbD 31 ||
      (a.getLsbD 31 == b.getLsbD 31) && (adderResult .slt a b).getLsbD 31) = a.slt b := by
    have hd : adderResult .slt a b = a - b := adderResult_eq ..
    rw [slt_eq_signs, hd, hm, hm, hm]
    cases a.msb <;> cases b.msb <;> rfl
  rw [sltResult, hs, ofBool_word]
  simp only [BitVec.slt_iff_toInt_lt]

theorem sltuResult_eq (a b : Word) :
    sltuResult .sltu a b = if a.toNat < b.toNat then 1 else 0 := by
  have hc : adderCout .sltu a b = decide (b.toNat ≤ a.toNat) :=
    (BitVec.msb_eq_getLsbD_last _).symm.trans (msb_sum_not (by decide) a b)
  rw [sltuResult, hc, ofBool_word, ← decide_not]
  simp only [decide_eq_true_eq, Nat.not_le]

theorem toNat_shamt (b : Word) : (b.extractLsb' 0 5).toNat = b.toNat % 32 := by
  rw [BitVec.extractLsb'_toNat, Nat.shiftRight_zero]

theorem srResult_srl (a b : Word) : srResult .srl a b = a >>> (b.toNat % 32) := by
  have hf : (AluOp.srl == .sra && a.getLsbD 31) = false := rfl
  rw [srResult, hf, BitVec.fill_false, BitVec.ushiftRight_eq', toNat_shamt]
  apply BitVec.eq_of_getLsbD_eq
  intro i hi
  simp only [BitVec.getLsbD_setWidth, BitVec.getLsbD_ushiftRight, BitVec.getLsbD_append, hi,
    decide_true, Bool.true_and]
  split
  · rfl
  · next h => rw [BitVec.getLsbD_of_ge a _ (Nat.le_of_not_lt h), BitVec.getLsbD_zero]

theorem srResult_sra (a b : Word) : srResult .sra a b = a.sshiftRight (b.toNat % 32) := by
  have hf : (AluOp.sra == .sra && a.getLsbD 31) = a.msb := (BitVec.msb_eq_getLsbD_last a).symm
  have hb : b.toNat % 32 < 32 := Nat.mod_lt _ (by decide)
  rw [srResult, hf, BitVec.ushiftRight_eq', toNat_shamt]
  apply BitVec.eq_of_getLsbD_eq
  intro i hi
  simp only [BitVec.getLsbD_setWidth, BitVec.getLsbD_ushiftRight, BitVec.getLsbD_append,
    BitVec.getLsbD_sshiftRight, BitVec.getLsbD_fill, hi, decide_true, Bool.true_and]
  rw [decide_eq_false (by omega : ¬ 32 ≤ i)]
  split
  · rfl
  · rw [decide_eq_true (by omega : b.toNat % 32 + i - 32 < 32), Bool.and_true]
    rfl

end Alu

def AluOp.ofRegOp : RegOp → AluOp
  | .add => .add
  | .sub => .sub
  | .sll => .sll
  | .slt => .slt
  | .sltu => .sltu
  | .xor => .xor
  | .srl => .srl
  | .sra => .sra
  | .or => .or
  | .and => .and

open Alu in
theorem alu_eq (op : AluOp) (a b : Word) :
    alu op a b = match op with
      | .add | .sub => adderResult op a b
      | .slt => sltResult op a b
      | .sltu => sltuResult op a b
      | .and => a &&& b
      | .or => a ||| b
      | .xor => a ^^^ b
      | .lui => b
      | .sll => sllResult a b
      | .srl | .sra => srResult op a b
      | .xxx => 0 := by
  simp only [alu, fill_and]
  cases op <;> simp

open Alu in
theorem alu_regOp (op : RegOp) (a b : Word) : alu (.ofRegOp op) a b = op.eval a b := by
  rw [alu_eq]
  cases op with
  | add | sub => exact adderResult_eq _ a b
  | slt => exact sltResult_eq a b
  | sltu => exact sltuResult_eq a b
  | sll => exact congrArg (a <<< ·) (toNat_shamt b)
  | srl => exact srResult_srl a b
  | sra => exact srResult_sra a b
  | _ => rfl

theorem decode_word (f7 : BitVec 7) (rs2 rs1 : Reg) (f3 : BitVec 3) (rd : Reg) (opc : BitVec 7) :
    Id.decode (word f7 rs2 rs1 f3 rd opc) = Id.wires opc f3 f7 (f7 ++ rs2) := by
  rw [Id.decode, Id.opcode, word_opcode, Id.funct3, word_funct3, Id.funct7, word_funct7,
    word_funct7_rs2]

def rdCtrl : LoadOp → BitVec 3
  | .lb => 0b001
  | .lbu => 0b010
  | .lh => 0b011
  | .lhu => 0b100
  | .lw => 0b101
  | .ld | .lwu => 0b000

def wrCtrl : StoreOp → BitVec 2
  | .sb => 0b01
  | .sh => 0b10
  | .sw => 0b11
  | .sd => 0b00

namespace Wires

def idle : Wires :=
  ⟨false, false, false, false, false, false, false, false, 0b00, .xxx, 0b000, 0b00, false⟩

def ofInstr : Instr → Wires
  | .lui .. => { idle with uType := true, noRdata1 := true, rfWrSel := 0b10, aluCtrl := .lui }
  | .auipc .. => { idle with uType := true, noRdata1 := true, rfWrSel := 0b10, aluCtrl := .add }
  | .jal .. => { idle with jumpType := true, noRdata1 := true, rfWrSel := 0b01, aluCtrl := .add }
  | .jalr .. => { idle with iType := true, jalr := true, rfWrSel := 0b01, aluCtrl := .add }
  | .branch .. => { idle with bType := true, aluCtrl := .add }
  | .load op .. =>
    { idle with iType := true, rfWrSel := 0b11, aluCtrl := .add, dmRdCtrl := rdCtrl op }
  | .store op .. => { idle with sType := true, aluCtrl := .add, dmWrCtrl := wrCtrl op }
  | .opImm op .. => { idle with iType := true, rfWrSel := 0b10, aluCtrl := .ofRegOp op.toRegOp }
  | .shiftImm op .. => { idle with iType := true, rfWrSel := 0b10, aluCtrl := .ofRegOp op.toRegOp }
  | .opReg op .. => { idle with rType := true, rfWrSel := 0b10, aluCtrl := .ofRegOp op }
  | .ecall => { idle with noRdata1 := true }
  | .ebreak => { idle with noRdata1 := true, ebreak := true }
  | _ => idle

end Wires

theorem decode_encode {i : Instr} (h : i.rv32i = true) : Id.decode i.encode = .ofInstr i := by
  cases i with
  | load op =>
    refine (decode_word ..).trans ?_
    cases op with
    | ld | lwu => cases h
    | _ => rfl
  | store op =>
    refine (decode_word ..).trans ?_
    cases op with
    | sd => cases h
    | _ => rfl
  | branch op | opImm op | opReg op =>
    refine (decode_word ..).trans ?_
    cases op <;> rfl
  | shiftImm op _ _ shamt =>
    refine (decode_word ..).trans ?_
    have hs : shamt.msb = false := by simpa [Instr.rv32i] using h
    rw [funct7_shift, hs]
    cases op <;> rfl
  | addiw | shiftImmW | opRegW | mulDiv | mulDivW => cases h
  | lui | auipc | jal | jalr | fence => exact decode_word ..
  | ecall | ebreak => decide

theorem idImm_eq (inst : Word) (w : Wires) : Id.idImm inst w = Id.imm inst w := by
  simp only [Id.idImm, Id.imm, fill_and]
  cases w.uType <;> cases w.bType <;> cases w.jumpType <;> cases w.iType <;> cases w.sType <;> simp

theorem fill_append_sign (b : Bool) (x : BitVec n) :
    BitVec.fill (k + 1) b ++ x = (BitVec.ofBool b ++ x).signExtend (k + 1 + n) := by
  apply BitVec.eq_of_getLsbD_eq
  intro i hi
  have hm : (BitVec.ofBool b ++ x).msb = b := by
    rw [BitVec.msb_append]
    simp
  rw [BitVec.getLsbD_append, BitVec.getLsbD_signExtend, BitVec.getLsbD_append, hm,
    BitVec.getLsbD_fill, decide_eq_true hi, Bool.true_and]
  by_cases hx : i < n
  · rw [if_pos hx, if_pos (by omega), if_pos hx]
  · rw [if_neg hx, decide_eq_true (by omega : i - n < k + 1), Bool.and_true]
    split
    · next h =>
      rw [show i - n = 0 by omega]
      cases b <;> rfl
    · rfl

theorem ofBool_getLsbD (x : BitVec n) (k : Nat) :
    BitVec.ofBool (x.getLsbD k) = x.extractLsb' k 1 := by
  apply BitVec.eq_of_getLsbD_eq
  intro i hi
  obtain rfl : i = 0 := by omega
  simp

theorem imm_bType (offset : BitVec 12) (rs2 rs1 : Reg) (f3 : BitVec 3) (opc : BitVec 7) {w : Wires}
    (hu : w.uType = false) (hb : w.bType = true) :
    Id.imm (bType offset rs2 rs1 f3 opc) w = (offset ++ 0#1).signExtend 32 := by
  rw [Id.imm, hu, hb, if_neg Bool.false_ne_true, if_pos rfl, fill_append_sign, ofBool_getLsbD]
  refine congrArg (BitVec.signExtend 32) (BitVec.eq_of_toNat_eq ?_)
  conv_rhs => rw [← bType_offset offset rs2 rs1 f3 opc]
  simp only [toNat_append_add]
  ring

theorem imm_jType (offset : BitVec 20) (rd : Reg) (opc : BitVec 7) {w : Wires}
    (hu : w.uType = false) (hb : w.bType = false) (hj : w.jumpType = true) :
    Id.imm (jType offset rd opc) w = (offset ++ 0#1).signExtend 32 := by
  rw [Id.imm, hu, hb, hj, if_neg Bool.false_ne_true, if_neg Bool.false_ne_true, if_pos rfl,
    fill_append_sign, ofBool_getLsbD]
  refine congrArg (BitVec.signExtend 32) (BitVec.eq_of_toNat_eq ?_)
  conv_rhs => rw [← jType_offset offset rd opc]
  simp only [toNat_append_add]
  ring

def immediate : Instr → Word
  | .lui _ imm | .auipc _ imm => imm ++ 0#12
  | .jal _ offset => (offset ++ 0#1).signExtend 32
  | .branch _ _ _ offset => (offset ++ 0#1).signExtend 32
  | .jalr _ _ imm | .load _ _ _ imm | .store _ _ _ imm | .opImm _ _ _ imm => imm.signExtend 32
  | .shiftImm op _ _ shamt => (op.funct6 ++ shamt).signExtend 32
  | _ => 0

theorem imm_encode (i : Instr) : Id.imm i.encode (.ofInstr i) = immediate i := by
  cases i with
  | lui rd imm => exact congrArg (· ++ 0#12) (uType_imm imm rd _)
  | auipc rd imm => exact congrArg (· ++ 0#12) (uType_imm imm rd _)
  | jal => exact imm_jType _ _ _ rfl rfl rfl
  | branch => exact imm_bType _ _ _ _ _ rfl rfl
  | jalr rd rs1 imm => exact valC_iType imm rs1 _ rd _
  | load op rd rs1 imm => exact valC_iType imm rs1 _ rd _
  | opImm op rd rs1 imm => exact valC_iType imm rs1 _ rd _
  | shiftImm op rd rs1 shamt => exact valC_iType _ rs1 _ rd _
  | store op rs1 rs2 imm => exact valC_sType imm rs2 rs1 _ _
  | _ => rfl

structure Operands (i : Instr) (q : State 32) (a b : Word) : Prop where
  rs1 : (Wires.ofInstr i).noRdata1 = false → a = q.get (Id.rs1 i.encode)
  rs2 : ((Wires.ofInstr i).bType || (Wires.ofInstr i).sType || (Wires.ofInstr i).rType) = true →
    b = q.get (Id.rs2 i.encode)

section Instruction

variable {i : Instr} {q : State 32} {a b : Word}

theorem Operands.eq_rs1 (ho : Operands i q a b) {r : Reg}
    (hn : (Wires.ofInstr i).noRdata1 = false) (hr : Id.rs1 i.encode = r) : a = q.get r :=
  hr ▸ ho.rs1 hn

theorem Operands.eq_rs2 (ho : Operands i q a b) {r : Reg}
    (hn : ((Wires.ofInstr i).bType || (Wires.ofInstr i).sType || (Wires.ofInstr i).rType) = true)
    (hr : Id.rs2 i.encode = r) : b = q.get r :=
  hr ▸ ho.rs2 hn

variable (i q a b) in
def issued : IdToExe := Id.toExe ⟨q.pc, i.encode⟩ a b true

theorem issued_eq (h : i.rv32i = true) :
    let w := Wires.ofInstr i
    issued i q a b =
      { pc := q.pc
        src1IsPc := !(w.rType || w.iType || w.sType)
        src2IsImm := !w.rType
        rfWrEn := (w.uType || w.rType || w.iType || w.jumpType) && Id.rd i.encode != 0
        imm := immediate i
        rs1Value := a
        rs2Value := b
        rfWrSel := w.rfWrSel
        aluCtrl := w.aluCtrl
        dmWrCtrl := w.dmWrCtrl
        dmRdCtrl := w.dmRdCtrl
        regWaddr := Id.rd i.encode
        instEbreak := w.ebreak } := by
  simp only [issued, Id.toExe, decode_encode h, idImm_eq, imm_encode, Bool.and_true]

theorem aluResult_issued (h : i.rv32i = true) :
    let w := Wires.ofInstr i
    (issued i q a b).aluResult =
      alu w.aluCtrl (if w.rType || w.iType || w.sType then a else q.pc)
        (if w.rType then b else immediate i) := by
  simp only [issued_eq h, IdToExe.aluResult]
  cases (Wires.ofInstr i).rType <;> cases (Wires.ofInstr i).iType <;>
    cases (Wires.ofInstr i).sType <;> rfl

theorem rd_encode {rd : Reg} (hd : i.dest = some rd) : Id.rd i.encode = rd := by
  cases i with
  | branch | store | fence | ecall | ebreak => cases hd
  | _ =>
    cases hd
    exact word_rd ..

theorem rs1_encode (hn : (Wires.ofInstr i).noRdata1 = false) (hs : i.isSystem = false) :
    Id.rs1 i.encode = i.rs1 := by
  cases i with
  | lui | auipc | jal => cases hn
  | fence | ecall | ebreak => cases hs
  | _ => exact word_rs1 ..

theorem rs2_encode
    (hn : ((Wires.ofInstr i).bType || (Wires.ofInstr i).sType || (Wires.ofInstr i).rType) = true) :
    Id.rs2 i.encode = i.rs2 := by
  cases i with
  | branch | store | opReg => exact word_rs2 ..
  | _ => cases hn

theorem rfWrEn_issued (h : i.rv32i = true) :
    (issued i q a b).rfWrEn = i.dest.any fun rd => rd != 0 := by
  rw [issued_eq h]
  cases hd : i.dest with
  | none =>
    cases i with
    | branch | store | fence | ecall | ebreak => rfl
    | _ => cases hd
  | some rd =>
    rw [rd_encode hd]
    cases i with
    | branch | store | fence | ecall | ebreak => cases hd
    | addiw | shiftImmW | opRegW | mulDiv | mulDivW => cases h
    | _ => rfl

theorem isLoad_issued (h : i.rv32i = true) : (issued i q a b).isLoad = i.isLoad := by
  rw [IdToExe.isLoad, issued_eq h]
  cases i with
  | load op =>
    cases op with
    | ld | lwu => cases h
    | _ => rfl
  | _ => rfl

theorem instEbreak_issued (h : i.rv32i = true) :
    (issued i q a b).instEbreak = (i.encode == Instr.ebreak.encode) := by
  rw [issued_eq h]
  by_cases hi : i = .ebreak
  · rw [hi, beq_self_eq_true]
    rfl
  · rw [beq_eq_false_iff_ne.mpr fun he => hi (Instr.encode_injective he)]
    cases i with
    | ebreak => exact absurd rfl hi
    | _ => rfl

section Result

variable (e : IdToExe) (m : Mem 32)

theorem finalResult_of_link (h : e.rfWrSel = 0b01) : (e.toMem m).finalResult = e.pc + 4 := by
  simp [IdToExe.toMem, ExeToMem.finalResult, h]

theorem finalResult_of_alu (h : e.rfWrSel = 0b10) : (e.toMem m).finalResult = e.aluResult := by
  simp [IdToExe.toMem, ExeToMem.finalResult, h]

theorem finalResult_of_load (h : e.rfWrSel = 0b11) :
    (e.toMem m).finalResult = Dmem.rdata e.dmRdCtrl e.aluResult m := by
  simp [IdToExe.toMem, ExeToMem.finalResult, h]

end Result

theorem rdata_eq (op : LoadOp) (m : Mem 32) (addr : Word) (hd : op ≠ .ld) (hu : op ≠ .lwu) :
    Dmem.rdata (rdCtrl op) addr m = op.read m addr := by
  rw [← valM_eq op m addr hd hu]
  cases op with
  | ld => exact absurd rfl hd
  | lwu => exact absurd rfl hu
  | _ => rfl

theorem dmemEdge_eq (op : StoreOp) (addr v : Word) (m : Mem 32) (h : op ≠ .sd) :
    Dmem.edge (wrCtrl op) addr v m = store m addr op.len v := by
  cases op with
  | sd => exact absurd rfl h
  | _ => rfl

theorem toNat_shiftImm (op : ShiftOp) (shamt : BitVec 6) :
    ((op.funct6 ++ shamt).signExtend 32).toNat % 32 = (shamt.setWidth 32).toNat % 32 := by
  have hm : (op.funct6 ++ shamt).msb = false := by
    rw [BitVec.msb_append]
    cases op <;> rfl
  rw [BitVec.signExtend_eq_setWidth_of_msb_false hm, BitVec.toNat_setWidth, BitVec.toNat_setWidth,
    toNat_append_add]
  omega

theorem finalResult_issued (h : i.rv32i = true) (ho : Operands i q a b) (hd : i.dest.isSome) :
    ((issued i q a b).toMem q.mem).finalResult = i.value q := by
  have he := issued_eq (q := q) (a := a) (b := b) h
  have halu := aluResult_issued (q := q) (a := a) (b := b) h
  cases i with
  | jal | jalr => exact finalResult_of_link _ _ (congrArg (·.rfWrSel) he)
  | load op rd rs1 imm =>
    have ha := ho.eq_rs1 rfl (word_rs1 ..)
    obtain ⟨hd, hu⟩ : op ≠ .ld ∧ op ≠ .lwu := by simpa [Instr.rv32i] using h
    have hc : (issued (.load op rd rs1 imm) q a b).dmRdCtrl = rdCtrl op :=
      congrArg (·.dmRdCtrl) he
    rw [finalResult_of_load _ _ (congrArg (·.rfWrSel) he), hc, halu, rdata_eq op _ _ hd hu, ha]
    exact congrArg (op.read q.mem) (alu_regOp .add _ _)
  | opReg op rd rs1 rs2 =>
    have ha := ho.eq_rs1 rfl (word_rs1 ..)
    have hb := ho.eq_rs2 rfl (word_rs2 ..)
    rw [finalResult_of_alu _ _ (congrArg (·.rfWrSel) he), halu, ha, hb]
    exact alu_regOp ..
  | opImm op rd rs1 imm =>
    have ha := ho.eq_rs1 rfl (word_rs1 ..)
    rw [finalResult_of_alu _ _ (congrArg (·.rfWrSel) he), halu, ha]
    exact alu_regOp ..
  | shiftImm op rd rs1 shamt =>
    have ha := ho.eq_rs1 rfl (word_rs1 ..)
    rw [finalResult_of_alu _ _ (congrArg (·.rfWrSel) he), halu, ha]
    exact (alu_regOp ..).trans (shift_congr op _ (toNat_shiftImm op shamt))
  | lui rd imm =>
    rw [finalResult_of_alu _ _ (congrArg (·.rfWrSel) he), halu]
    exact (alu_eq ..).trans (BitVec.signExtend_eq _).symm
  | auipc rd imm =>
    rw [finalResult_of_alu _ _ (congrArg (·.rfWrSel) he), halu]
    exact (alu_regOp .add _ _).trans (congrArg (q.pc + ·) (BitVec.signExtend_eq _).symm)
  | branch | store | fence | ecall | ebreak => cases hd
  | addiw | shiftImmW | opRegW | mulDiv | mulDivW => cases h

theorem finalResult_early (h : i.rv32i = true) (m : Mem 32) (hd : i.dest.isSome)
    (hl : i.isLoad = false) (hj : i.isJump = false) :
    ((issued i q a b).toMem m).finalResult = (issued i q a b).aluResult := by
  have he := issued_eq (q := q) (a := a) (b := b) h
  cases i with
  | load => cases hl
  | jal | jalr => cases hj
  | branch | store | fence | ecall | ebreak => cases hd
  | addiw | shiftImmW | opRegW | mulDiv | mulDivW => cases h
  | _ => exact finalResult_of_alu _ _ (congrArg (·.rfWrSel) he)

theorem dmemEdge_issued (h : i.rv32i = true) (ho : Operands i q a b) :
    Dmem.edge (issued i q a b).dmWrCtrl (issued i q a b).aluResult (issued i q a b).rs2Value q.mem =
      (i.step q).mem := by
  have he := issued_eq (q := q) (a := a) (b := b) h
  have halu := aluResult_issued (q := q) (a := a) (b := b) h
  rw [Instr.step_mem]
  cases i with
  | store op rs1 rs2 imm =>
    have ha := ho.eq_rs1 rfl (word_rs1 ..)
    have hb := ho.eq_rs2 rfl (word_rs2 ..)
    have hs : op ≠ .sd := by simpa [Instr.rv32i] using h
    have hc : (issued (.store op rs1 rs2 imm) q a b).dmWrCtrl = wrCtrl op :=
      congrArg (·.dmWrCtrl) he
    have hv : (issued (.store op rs1 rs2 imm) q a b).rs2Value = b := rfl
    rw [hc, hv, halu, dmemEdge_eq op _ _ _ hs, ha, hb]
    exact congrArg (store q.mem · op.len _) (alu_regOp .add _ _)
  | addiw | shiftImmW | opRegW | mulDiv | mulDivW => cases h
  | _ => rw [he]; rfl

theorem branchEn_word (f7 : BitVec 7) (rs2 rs1 : Reg) (f3 : BitVec 3) (rd : Reg)
    (opc : BitVec 7) :
    let w := word f7 rs2 rs1 f3 rd opc
    Id.branchEn (Id.opcode w) (Id.funct3 w) a b = Id.branchEn opc f3 a b := by
  intro w
  rw [Id.opcode, word_opcode, Id.funct3, word_funct3]

theorem branchEn_encode : Id.branchEn (Id.opcode i.encode) (Id.funct3 i.encode) a b =
    match i with
    | .branch op .. => op.taken a b
    | _ => false := by
  cases i with
  | branch op =>
    refine (branchEn_word ..).trans ?_
    cases op <;> rfl
  | ecall | ebreak => exact branchEn_word ..
  | _ => exact branchEn_word ..

theorem branchTaken_issued (h : i.rv32i = true) (ho : Operands i q a b) :
    Id.branchTaken ⟨q.pc, i.encode⟩ a b true =
      (i.transfer q.pc (q.get i.rs1) (q.get i.rs2)).isSome := by
  rw [Id.branchTaken, branchEn_encode, decode_encode h]
  cases i with
  | branch op rs1 rs2 offset =>
    have ha := ho.eq_rs1 rfl (word_rs1 ..)
    have hb := ho.eq_rs2 rfl (word_rs2 ..)
    change ((op.taken a b || false || false) && true) =
      Option.isSome (if op.taken (q.get rs1) (q.get rs2) then some _ else none)
    rw [ha, hb]
    cases op.taken (q.get rs1) (q.get rs2) <;> rfl
  | _ => rfl

theorem branchTarget_issued (h : i.rv32i = true) (ho : Operands i q a b) {t : Word}
    (ht : i.transfer q.pc (q.get i.rs1) (q.get i.rs2) = some t)
    (hj : ∀ rd rs1 imm, i = .jalr rd rs1 imm →
      (q.get rs1 + imm.signExtend 32) &&& ~~~1 = q.get rs1 + imm.signExtend 32) :
    Id.branchTarget ⟨q.pc, i.encode⟩ a = t := by
  rw [Id.branchTarget, decode_encode h, imm_encode]
  cases i with
  | jal rd offset => exact Option.some.inj ht
  | jalr rd rs1 imm =>
    have ha := ho.eq_rs1 rfl (word_rs1 ..)
    rw [ha, ← Option.some.inj ht]
    exact (hj rd rs1 imm rfl).symm
  | branch op rs1 rs2 offset =>
    rw [Instr.transfer] at ht
    split at ht
    · exact Option.some.inj ht
    · cases ht
  | _ => cases ht

end Instruction

end LinuxCpu.Rv32.TaoShuRv
