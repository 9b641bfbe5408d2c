import LinuxCpu.Rv32.SingleCycle
import LinuxCpu.RiscV.Semantics

namespace LinuxCpu.Rv32

open RiscV Bits ByteMemory

section Ctrl

variable (lt eq : Bool)

theorem ctrl_word (f7 : BitVec 7) (rs2 rs1 : Reg) (f3 : BitVec 3) (rd : Reg) {opc : BitVec 7}
    (h : opc ≠ 0b1110011 ∨ f3 ≠ 0) : ctrl (word f7 rs2 rs1 f3 rd opc) lt eq =
      Ctrl.outputs (opc.extractLsb' 2 5) f3 f7 false false lt eq := by
  have ho : Ctrl.opcode (word f7 rs2 rs1 f3 rd opc) = opc.extractLsb' 2 5 := by
    rw [Ctrl.opcode, ← extractLsb'_extractLsb' (i := 2) (j := 0) (m := 7) _ (by decide),
      word_opcode]
  have hne : ∀ w : BitVec 32, w.extractLsb' 0 7 = 0b1110011 → w.extractLsb' 12 3 = 0 →
      (word f7 rs2 rs1 f3 rd opc == w) = false := by
    intro w hw h3
    rw [beq_eq_false_iff_ne]
    rintro rfl
    cases h with
    | inl h => exact h ((word_opcode ..).symm.trans hw)
    | inr h => exact h ((word_funct3 ..).symm.trans h3)
  rw [ctrl, ho, Ctrl.func3, word_funct3, Ctrl.func7, word_funct7, Ctrl.rv32Ecall,
    hne _ (by decide) (by decide), Ctrl.rv32Mret, hne _ (by decide) (by decide)]

def RegOp.aluSel : RegOp → AluSel
  | .add => .add
  | .sub => .sub
  | .sll => .sll
  | .slt => .slt
  | .sltu => .sltu
  | .xor => .xor
  | .srl => .srl
  | .sra => .sra
  | .or => .or
  | .and => .and

theorem ctrl_lui (rd : Reg) (imm : BitVec 20) : ctrl (Instr.lui rd imm).encode lt eq =
    ⟨.pc, .valC, .selValC, true, .valE, .uType, .valP, .noRw, .none⟩ :=
  ctrl_word _ _ _ _ _ _ _ (.inl (by decide))

theorem ctrl_auipc (rd : Reg) (imm : BitVec 20) : ctrl (Instr.auipc rd imm).encode lt eq =
    ⟨.pc, .valC, .add, true, .valE, .uType, .valP, .noRw, .none⟩ :=
  ctrl_word _ _ _ _ _ _ _ (.inl (by decide))

theorem ctrl_opReg (op : RegOp) (rd rs1 rs2 : Reg) :
    ctrl (Instr.opReg op rd rs1 rs2).encode lt eq =
      ⟨.valA, .valB, RegOp.aluSel op, true, .valE, .rType, .valP, .noRw, .none⟩ := by
  apply (ctrl_word _ _ _ _ _ _ _ (.inl (by decide))).trans
  cases op <;> rfl

theorem ctrl_opImm (op : ImmOp) (rd rs1 : Reg) (imm : BitVec 12) :
    ctrl (Instr.opImm op rd rs1 imm).encode lt eq =
      ⟨.valA, .valC, RegOp.aluSel op.toRegOp, true, .valE, .iType, .valP, .noRw, .none⟩ := by
  apply (ctrl_word _ _ _ _ _ _ _ (.inl (by decide))).trans
  cases op <;> rfl

theorem ctrl_shiftImm (op : ShiftOp) (rd rs1 : Reg) {shamt : BitVec 6} (h : shamt.msb = false) :
    ctrl (Instr.shiftImm op rd rs1 shamt).encode lt eq =
      ⟨.valA, .valC, RegOp.aluSel op.toRegOp, true, .valE, .iShamt, .valP, .noRw, .none⟩ := by
  apply (ctrl_word _ _ _ _ _ _ _ (.inl (by decide))).trans
  rw [funct7_shift, h]
  cases op <;> rfl

theorem ctrl_jal (rd : Reg) (offset : BitVec 20) : ctrl (Instr.jal rd offset).encode lt eq =
    ⟨.pc, .valC, .add, true, .valP, .jType, .valE, .noRw, .none⟩ :=
  ctrl_word _ _ _ _ _ _ _ (.inl (by decide))

theorem ctrl_jalr (rd rs1 : Reg) (imm : BitVec 12) : ctrl (Instr.jalr rd rs1 imm).encode lt eq =
    ⟨.valA, .valC, .jalr, true, .valP, .iType, .valE, .noRw, .none⟩ :=
  ctrl_word _ _ _ _ _ _ _ (.inl (by decide))

def LoadOp.memRw : LoadOp → MemRw
  | .lb => .lb
  | .lh => .lh
  | .lw => .lw
  | .lbu => .lbu
  | .lhu => .lhu
  | .ld | .lwu => .noRw

def StoreOp.memRw : StoreOp → MemRw
  | .sb => .sb
  | .sh => .sh
  | .sw => .sw
  | .sd => .noRw

theorem ctrl_load (op : LoadOp) (rd rs1 : Reg) (imm : BitVec 12) :
    ctrl (Instr.load op rd rs1 imm).encode lt eq =
      ⟨.valA, .valC, .add, true, .valM, .iType, .valP, LoadOp.memRw op, .none⟩ := by
  apply (ctrl_word _ _ _ _ _ _ _ (.inl (by decide))).trans
  cases op <;> rfl

theorem ctrl_store (op : StoreOp) (rs1 rs2 : Reg) (imm : BitVec 12) :
    ctrl (Instr.store op rs1 rs2 imm).encode lt eq =
      ⟨.valA, .valC, .add, false, .valM, .sType, .valP, StoreOp.memRw op, .none⟩ := by
  apply (ctrl_word _ _ _ _ _ _ _ (.inl (by decide))).trans
  cases op <;> rfl

def BranchOp.decision (op : BranchOp) (lt eq : Bool) : Bool :=
  match op with
  | .beq => eq
  | .bne => !eq
  | .blt | .bltu => lt
  | .bge | .bgeu => !lt

theorem ctrl_branch (op : BranchOp) (rs1 rs2 : Reg) (offset : BitVec 12) :
    ctrl (Instr.branch op rs1 rs2 offset).encode lt eq =
      ⟨.pc, .valC, .add, false, .valM, .bType,
        if BranchOp.decision op lt eq then .valE else .valP, .noRw, .none⟩ := by
  apply (ctrl_word _ _ _ _ _ _ _ (.inl (by decide))).trans
  cases op <;> cases lt <;> cases eq <;> rfl

end Ctrl

theorem signExtend_shiftLeft_one (x : BitVec k) (n : Nat) :
    x.signExtend n <<< 1 = (x ++ 0#1).signExtend n := by
  apply BitVec.eq_of_getLsbD_eq
  intro i hi
  have hm : (x ++ 0#1).msb = x.msb := by
    rw [BitVec.msb_append]
    split
    · next hk =>
      subst hk
      simp [BitVec.msb_eq_getLsbD_last]
    · rfl
  cases i with
  | zero =>
    simp only [BitVec.getLsbD_shiftLeft, BitVec.getLsbD_signExtend, BitVec.getLsbD_append]
    simp
  | succ i =>
    simp only [BitVec.getLsbD_shiftLeft, BitVec.getLsbD_signExtend, BitVec.getLsbD_append, hm, hi,
      decide_true, Bool.true_and, Nat.add_sub_cancel]
    simp [show i < n by omega]

theorem valC_iType (imm : BitVec 12) (rs1 : Reg) (f3 : BitVec 3) (rd : Reg) (opc : BitVec 7) :
    Idu.valC (iType imm rs1 f3 rd opc) .iType = imm.signExtend 32 :=
  (fill_append_eq_signExtend _ (by rw [BitVec.msb_extractLsb']; rfl)).trans
    (congrArg (·.signExtend 32) (iType_imm ..))

theorem valC_sType (imm : BitVec 12) (rs2 rs1 : Reg) (f3 : BitVec 3) (opc : BitVec 7) :
    Idu.valC (sType imm rs2 rs1 f3 opc) .sType = imm.signExtend 32 :=
  (fill_append_eq_signExtend _
    (by simp only [BitVec.msb_append, BitVec.msb_extractLsb']; rfl)).trans
    (congrArg (·.signExtend 32) (sType_imm ..))

theorem valC_bType (offset : BitVec 12) (rs2 rs1 : Reg) (f3 : BitVec 3) (opc : BitVec 7) :
    Idu.valC (bType offset rs2 rs1 f3 opc) .bType = (offset ++ 0#1).signExtend 32 := by
  rw [← signExtend_shiftLeft_one]
  refine congrArg (fun x : Word => x <<< 1) ((fill_append_eq_signExtend _ ?_).trans
    (congrArg (·.signExtend 32) (bType_offset ..)))
  simp only [BitVec.msb_append, BitVec.msb_extractLsb']
  rfl

theorem valC_jType (offset : BitVec 20) (rd : Reg) (opc : BitVec 7) :
    Idu.valC (jType offset rd opc) .jType = (offset ++ 0#1).signExtend 32 := by
  rw [← signExtend_shiftLeft_one]
  refine congrArg (fun x : Word => x <<< 1) ((fill_append_eq_signExtend _ ?_).trans
    (congrArg (·.signExtend 32) (jType_offset ..)))
  simp only [BitVec.msb_append, BitVec.msb_extractLsb']
  rfl

theorem valC_uType (imm : BitVec 20) (rd : Reg) (opc : BitVec 7) :
    Idu.valC (uType imm rd opc) .uType = (imm ++ 0#12).signExtend 32 := by
  rw [Idu.valC, uType_imm, BitVec.signExtend_eq]

theorem toNat_valC_iShamt (f6 shamt : BitVec 6) (rs1 : Reg) (f3 : BitVec 3) (rd : Reg)
    (opc : BitVec 7) :
    (Idu.valC (iType (f6 ++ shamt) rs1 f3 rd opc) .iShamt).toNat % 32 = shamt.toNat % 32 := by
  have h : (iType (f6 ++ shamt) rs1 f3 rd opc).extractLsb' 20 5 =
      (f6 ++ shamt).extractLsb' 0 5 := word_rs2 ..
  rw [Idu.valC, h, toNat_append_add, BitVec.extractLsb'_toNat, toNat_append_add]
  omega

theorem valE_regOp (op : RegOp) (a b : Word) : Exu.valE (RegOp.aluSel op) a b = op.eval a b := by
  have hs : (b.extractLsb' 0 5).toNat = b.toNat % 32 := by
    rw [BitVec.extractLsb'_toNat, Nat.shiftRight_zero]
  cases op with
  | sll => exact congrArg (a <<< ·) hs
  | srl => exact congrArg (a >>> ·) hs
  | sra => exact congrArg (a.sshiftRight ·) hs
  | slt => simp only [Exu.valE, RegOp.aluSel, BitVec.slt_iff_toInt_lt]; rfl
  | sltu => simp only [Exu.valE, RegOp.aluSel, BitVec.ult_iff_toNat_lt]; rfl
  | _ => rfl

theorem low_tmp (m : Mem 32) (a : Word) (h : k ≤ 4) :
    (dpiMemRead m a 4).extractLsb' 0 (8 * k) = load m a k := by
  rw [extractLsb'_zero_eq_setWidth _ (by omega)]
  exact setWidth_load m a h

theorem valM_eq (op : LoadOp) (m : Mem 32) (a : Word) (hd : op ≠ .ld) (hu : op ≠ .lwu) :
    Memu.valM (LoadOp.memRw op) (Memu.tmp (LoadOp.memRw op) m a) = op.read m a := by
  cases op with
  | lb =>
    exact (fill_extractLsb'_eq_signExtend (m := 8) _ (by decide)).trans
      (congrArg (BitVec.signExtend 32) (low_tmp (k := 1) m a (by decide)))
  | lh =>
    exact (fill_extractLsb'_eq_signExtend (m := 16) _ (by decide)).trans
      (congrArg (BitVec.signExtend 32) (low_tmp (k := 2) m a (by decide)))
  | lw => exact (BitVec.setWidth_eq _).trans (BitVec.signExtend_eq _).symm
  | lbu =>
    exact (zero_append_eq_setWidth _).trans
      (congrArg (BitVec.setWidth 32) (low_tmp (k := 1) m a (by decide)))
  | lhu =>
    exact (zero_append_eq_setWidth _).trans
      (congrArg (BitVec.setWidth 32) (low_tmp (k := 2) m a (by decide)))
  | ld => exact absurd rfl hd
  | lwu => exact absurd rfl hu

theorem memuEdge_eq (op : StoreOp) (a v : Word) (m : Mem 32) (h : op ≠ .sd) :
    Memu.edge (StoreOp.memRw op) a v m = store m a op.len v := by
  cases op with
  | sd => exact absurd rfl h
  | _ => rfl

theorem decision_eq (op : BranchOp) (rs1 rs2 : Reg) (offset : BitVec 12) (a b : Word) :
    let w := (Instr.branch op rs1 rs2 offset).encode
    let brUn := Ctrl.brUn (Ctrl.opcode w) (Ctrl.func3 w)
    BranchOp.decision op (BrJmp.brLt brUn a b) (BrJmp.brEq brUn a b) = op.taken a b := by
  intro w brUn
  have ho : Ctrl.opcode w = 0b11000 := by
    rw [Ctrl.opcode, ← extractLsb'_extractLsb' (i := 2) (j := 0) (m := 7) _ (by decide)]
    exact congrArg (·.extractLsb' 2 5) (word_opcode ..)
  have h3 : Ctrl.func3 w = op.funct3 := word_funct3 ..
  simp only [brUn, ho, h3]
  cases op with
  | bge => exact decide_not.symm.trans (decide_eq_decide.mpr Int.not_lt)
  | bgeu => exact decide_not.symm.trans (decide_eq_decide.mpr Nat.not_lt)
  | _ => rfl

namespace Cpu

variable {s : Cpu} {w : Word} {c : Control}

theorem edge_of_ctrl (hw : s.instr = w) (hc : ∀ lt eq, ctrl w lt eq = c) :
    s.edge false =
      let valA := s.regfile (Idu.rs1 w)
      let valB := s.regfile (Idu.rs2 w)
      let valC := Idu.valC w c.valCSel
      let valE := exu c valA valB valC s.pc
      let valM := Memu.valM c.memRw (Memu.tmp c.memRw s.mem valE)
      let valW := wbu c.wbSel (s.pc + 4) valM valE (Csr.valR c.csrFlag valC s.csr)
      { pc := pcuEdge false c.pcSel valE (Csr.valP c.csrFlag s.csr) (s.pc + 4)
        regfile := reguEdge false c.regWen (Idu.rd w) valW s.regfile
        csr := Csr.edge false c.csrFlag s.pc valA valC s.csr
        mem := Memu.edge c.memRw valE valB s.mem } := by
  subst hw
  rw [Cpu.edge, hc]

theorem edge_valE {vA : ValASel} {vB : ValBSel} {alu : AluSel} {vC : ValCSel} {rd : Reg} {v : Word}
    (hw : s.instr = w)
    (hc : ∀ lt eq, ctrl w lt eq = ⟨vA, vB, alu, true, .valE, vC, .valP, .noRw, .none⟩)
    (hrd : Idu.rd w = rd)
    (hv : Exu.valE alu (Exu.valA vA (s.regfile (Idu.rs1 w)) s.pc)
      (Exu.valB vB (s.regfile (Idu.rs2 w)) (Idu.valC w vC)) = v) :
    s.edge false = { s with pc := s.pc + 4, regfile := reguEdge false true rd v s.regfile } := by
  rw [edge_of_ctrl hw hc, hrd, ← hv]
  rfl

theorem edge_compute {i : Instr} (hw : s.instr = i.encode) (hi : i.rv32i) {rd : Reg} {v : Word}
    (hd : i.dest = some rd)
    (hv : i.compute s.pc (s.regfile i.rs1) (s.regfile i.rs2) = some v) :
    s.edge false = { s with pc := s.pc + 4, regfile := reguEdge false true rd v s.regfile } := by
  cases i with
  | lui rd imm =>
    cases hd
    apply edge_valE hw (fun _ _ => ctrl_lui ..) (word_rd ..)
    exact (valC_uType ..).trans (Option.some.inj hv)
  | auipc rd imm =>
    cases hd
    apply edge_valE hw (fun _ _ => ctrl_auipc ..) (word_rd ..)
    exact (congrArg (s.pc + ·) (valC_uType ..)).trans (Option.some.inj hv)
  | opReg op rd rs1 rs2 =>
    cases hd
    apply edge_valE hw (fun _ _ => ctrl_opReg ..) (word_rd ..)
    rw [valE_regOp, ← Option.some.inj hv]
    exact congrArg₂ (fun a b => op.eval (s.regfile a) (s.regfile b)) (word_rs1 ..) (word_rs2 ..)
  | opImm op rd rs1 imm =>
    cases hd
    apply edge_valE hw (fun _ _ => ctrl_opImm ..) (word_rd ..)
    rw [valE_regOp, ← Option.some.inj hv]
    exact congrArg₂ (fun a b => op.toRegOp.eval (s.regfile a) b) (word_rs1 ..) (valC_iType ..)
  | shiftImm op rd rs1 shamt =>
    cases hd
    have hm : shamt.msb = false := by simpa [Instr.rv32i] using hi
    apply edge_valE hw (fun _ _ => ctrl_shiftImm _ _ op rd rs1 hm) (word_rd ..)
    rw [valE_regOp, ← Option.some.inj hv]
    have h1 : Idu.rs1 (Instr.shiftImm op rd rs1 shamt).encode = rs1 := word_rs1 ..
    rw [h1]
    refine shift_congr op _ ((toNat_valC_iShamt ..).trans ?_)
    have := shamt.isLt
    rw [BitVec.toNat_setWidth]
    omega
  | _ => cases hv <;> cases hi

theorem edge_jal {rd : Reg} {offset : BitVec 20} (hw : s.instr = (Instr.jal rd offset).encode) :
    s.edge false =
      { s with
        pc := s.pc + (offset ++ 0#1).signExtend 32
        regfile := reguEdge false true rd (s.pc + 4) s.regfile } := by
  have hd : Idu.rd (Instr.jal rd offset).encode = rd := word_rd ..
  rw [edge_of_ctrl hw fun _ _ => ctrl_jal .., hd, ← valC_jType offset rd 0b1101111]
  rfl

theorem edge_jalr {rd rs1 : Reg} {imm : BitVec 12}
    (hw : s.instr = (Instr.jalr rd rs1 imm).encode) :
    s.edge false =
      { s with
        pc := (s.regfile rs1 + imm.signExtend 32) &&& ~~~1
        regfile := reguEdge false true rd (s.pc + 4) s.regfile } := by
  have hd : Idu.rd (Instr.jalr rd rs1 imm).encode = rd := word_rd ..
  have h1 : Idu.rs1 (Instr.jalr rd rs1 imm).encode = rs1 := word_rs1 ..
  rw [edge_of_ctrl hw fun _ _ => ctrl_jalr .., hd, h1, ← valC_iType imm rs1 0b000 rd 0b1100111]
  rfl

theorem edge_load {op : LoadOp} {rd rs1 : Reg} {imm : BitVec 12}
    (hw : s.instr = (Instr.load op rd rs1 imm).encode) (hd : op ≠ .ld) (hu : op ≠ .lwu) :
    s.edge false =
      { s with
        pc := s.pc + 4
        regfile :=
          reguEdge false true rd (op.read s.mem (s.regfile rs1 + imm.signExtend 32))
            s.regfile } := by
  have hrd : Idu.rd (Instr.load op rd rs1 imm).encode = rd := word_rd ..
  have h1 : Idu.rs1 (Instr.load op rd rs1 imm).encode = rs1 := word_rs1 ..
  rw [edge_of_ctrl hw fun _ _ => ctrl_load .., hrd, h1, ← valM_eq op _ _ hd hu,
    ← valC_iType imm rs1 op.funct3 rd 0b0000011]
  cases op <;> rfl

theorem edge_store {op : StoreOp} {rs1 rs2 : Reg} {imm : BitVec 12}
    (hw : s.instr = (Instr.store op rs1 rs2 imm).encode) (h : op ≠ .sd) :
    s.edge false =
      { s with
        pc := s.pc + 4
        mem := store s.mem (s.regfile rs1 + imm.signExtend 32) op.len (s.regfile rs2) } := by
  have h1 : Idu.rs1 (Instr.store op rs1 rs2 imm).encode = rs1 := word_rs1 ..
  have h2 : Idu.rs2 (Instr.store op rs1 rs2 imm).encode = rs2 := word_rs2 ..
  rw [edge_of_ctrl hw fun _ _ => ctrl_store .., h1, h2, ← memuEdge_eq op _ _ _ h,
    ← valC_sType imm rs2 rs1 op.funct3 0b0100011]
  rfl

theorem edge_branch {op : BranchOp} {rs1 rs2 : Reg} {offset : BitVec 12}
    (hw : s.instr = (Instr.branch op rs1 rs2 offset).encode) :
    s.edge false =
      { s with
        pc := if op.taken (s.regfile rs1) (s.regfile rs2) then
            s.pc + (offset ++ 0#1).signExtend 32 else s.pc + 4 } := by
  have h1 : Idu.rs1 (Instr.branch op rs1 rs2 offset).encode = rs1 := word_rs1 ..
  have h2 : Idu.rs2 (Instr.branch op rs1 rs2 offset).encode = rs2 := word_rs2 ..
  rw [Cpu.edge, hw, h1, h2, ctrl_branch, decision_eq,
    ← valC_bType offset rs2 rs1 op.funct3 0b1100011]
  split <;> rfl

def arch (s : Cpu) : State 32 := ⟨s.pc, s.regfile, s.mem⟩

theorem get_arch (h : s.regfile 0 = 0) (r : Reg) : s.arch.get r = s.regfile r := by
  rw [State.get]
  split
  · next hr => rw [hr, h]
  · rfl

theorem arch_set (s : Cpu) (rd : Reg) (v pc : Word) :
    { s.arch.set rd v with pc } =
      ({ s with pc, regfile := reguEdge false true rd v s.regfile } : Cpu).arch := by
  by_cases h : rd = 0
  · subst h
    rfl
  · rw [State.set, if_neg h]
    have hr : reguEdge false true rd v s.regfile = Function.update s.regfile rd v :=
      if_pos (bne_iff_ne.mpr h)
    rw [hr]
    rfl

theorem edge_arch (h0 : s.regfile 0 = 0) {i : Instr} (hw : s.instr = i.encode) (hi : i.rv32i)
    (hs : ¬ i.isSystem) : some (s.edge false).arch = i.exec s.arch := by
  cases i with
  | lui | auipc | opReg | opImm | shiftImm =>
    rw [edge_compute hw hi rfl rfl, ← arch_set]
    simp only [Instr.rs1, Instr.rs2, ← get_arch h0]
    rfl
  | jal rd offset =>
    rw [edge_jal hw, ← arch_set]
    rfl
  | jalr rd rs1 imm =>
    rw [edge_jalr hw, ← arch_set, ← get_arch h0]
    rfl
  | branch op rs1 rs2 offset =>
    rw [edge_branch hw, exec_branch, get_arch h0, get_arch h0]
    rfl
  | load op rd rs1 imm =>
    simp only [Instr.rv32i, Bool.and_eq_true, bne_iff_ne] at hi
    rw [edge_load hw hi.1 hi.2, ← arch_set, ← get_arch h0]
    rfl
  | store op rs1 rs2 imm =>
    rw [edge_store hw (bne_iff_ne.mp hi), ← get_arch h0, ← get_arch h0]
    rfl
  | addiw | shiftImmW | opRegW | mulDiv | mulDivW => cases hi
  | fence | ecall | ebreak => exact absurd rfl hs

theorem edge_csr {i : Instr} (hw : s.instr = i.encode) (hi : i.rv32i) (hs : ¬ i.isSystem) :
    (s.edge false).csr = s.csr := by
  cases i with
  | lui | auipc | opReg | opImm | shiftImm => rw [edge_compute hw hi rfl rfl]
  | jal => rw [edge_jal hw]
  | jalr => rw [edge_jalr hw]
  | branch => rw [edge_branch hw]
  | load op rd rs1 imm =>
    simp only [Instr.rv32i, Bool.and_eq_true, bne_iff_ne] at hi
    rw [edge_load hw hi.1 hi.2]
  | store => rw [edge_store hw (bne_iff_ne.mp hi)]
  | addiw | shiftImmW | opRegW | mulDiv | mulDivW => cases hi
  | fence | ecall | ebreak => exact absurd rfl hs

/-- From every state a reset leads to, whatever memory holds, one edge is one
instruction of RV32I. -/
theorem edge_implements (h : Reachable s) (m : Mem 32) (i : Instr) (hi : i.rv32i)
    (hs : ¬ i.isSystem) (hw : ({ s with mem := m } : Cpu).instr = i.encode) :
    let s' := ({ s with mem := m } : Cpu).edge false
    some s'.arch = i.exec ⟨s.pc, s.regfile, m⟩ ∧ s'.regfile 0 = 0 ∧ s'.csr = s.csr :=
  ⟨edge_arch (s := { s with mem := m }) h.x0 hw hi hs,
    edge_x0 false (s := { s with mem := m }) h.x0,
    edge_csr hw hi hs⟩

theorem edge_implements_addi :
    let s := (⟨0, fun _ => 0, ⟨0, 0, 0, 0⟩, fun _ => 0⟩ : Cpu).edge true
    let m := store (fun _ => 0) s.pc 4 (0xfff00093 : Word)
    let s' := ({ s with mem := m } : Cpu).edge false
    some s'.arch = (Instr.opImm .addi 1 0 (-1)).exec ⟨s.pc, s.regfile, m⟩ ∧ s'.regfile 0 = 0 ∧
      s'.csr = s.csr :=
  edge_implements (.reset ⟨0, fun _ => 0, ⟨0, 0, 0, 0⟩, fun _ => 0⟩)
    (store (fun _ => 0) 0x80000000 4 (0xfff00093 : Word)) (.opImm .addi 1 0 (-1)) rfl (by decide)
    (by decide)

end Cpu

end LinuxCpu.Rv32
