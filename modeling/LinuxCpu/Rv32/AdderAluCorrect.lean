import LinuxCpu.Lib.AdderSub
import LinuxCpu.RiscV.Semantics
import LinuxCpu.Rv32.AdderAlu

namespace LinuxCpu.Rv32.AdderAlu

open RiscV Bits AdderSub

inductive Kind
  | opReg (op : RegOp)
  | opImm (op : ImmOp)
  | shiftImm (op : ShiftOp)
  | branch (op : BranchOp)
  | jal | jalr | lui | auipc | load | store
  deriving DecidableEq

def opBit : RegOp → Nat
  | .add => 9
  | .sub => 8
  | .sll => 7
  | .slt => 6
  | .sltu => 5
  | .xor => 4
  | .srl => 3
  | .sra => 2
  | .or => 1
  | .and => 0

def branchBit : BranchOp → Nat
  | .beq => 5
  | .bne => 4
  | .blt => 3
  | .bge => 2
  | .bltu => 1
  | .bgeu => 0

namespace Kind

def opcodeInfo : Kind → BitVec 10
  | opImm _ | shiftImm _ => hot 10 (some 9)
  | opReg _ => hot 10 (some 8)
  | branch _ => hot 10 (some 7)
  | jal => hot 10 (some 6)
  | jalr => hot 10 (some 5)
  | load => hot 10 (some 4)
  | store => hot 10 (some 3)
  | lui => hot 10 (some 2)
  | auipc => hot 10 (some 1)

def aluInfo : Kind → BitVec 10
  | opReg op => hot 10 (some (opBit op))
  | opImm op => hot 10 (some (opBit op.toRegOp))
  | shiftImm op => hot 10 (some (opBit op.toRegOp))
  | _ => hot 10 none

def branchInfo : Kind → BitVec 6
  | branch op => hot 6 (some (branchBit op))
  | _ => hot 6 none

section Spec

variable (pc a b imm : Word)

def result : Kind → Option Word
  | opReg op => some (op.eval a b)
  | opImm op => some (op.toRegOp.eval a imm)
  | shiftImm op => some (op.toRegOp.eval a imm)
  | jal | jalr => some (pc + 4)
  | lui => some imm
  | auipc => some (pc + imm)
  | branch _ | load | store => none

def address : Kind → Option Word
  | load | store => some (a + imm)
  | _ => none

def jump : Kind → Bool
  | branch op => op.taken a b
  | _ => false

def operation : Kind → Option (RegOp × Word)
  | opReg op => some (op, b)
  | opImm op => some (op.toRegOp, imm)
  | shiftImm op => some (op.toRegOp, imm)
  | _ => none

end Spec

structure Meets (k : Kind) (pc a b imm : Word) (o : Outputs) : Prop where
  result : ∀ v ∈ k.result pc a b imm, o.aluResult = v
  address : ∀ v ∈ k.address a imm, o.memAddr = v
  jump : o.aluBranchJump = k.jump a b

end Kind

/-- A shift of `a` by `k` leaves nothing, or only the sign. -/
def ShiftsOut (a : Word) (k : Nat) : ShiftOp → Prop
  | .sll => 2 ^ (32 - k) ∣ a.toNat
  | .srl => a.toNat < 2 ^ k
  | .sra => -2 ^ k ≤ a.toInt ∧ a.toInt < 2 ^ k

def shifter (a : Word) (n : BitVec 6) : ShiftOp → Word
  | .sll => a <<< n
  | .srl => a >>> n
  | .sra => a.sshiftRight' n

theorem toNat_low_six (b : Word) :
    (b.extractLsb' 0 6).toNat = if b.getLsbD 5 then 32 + b.toNat % 32 else b.toNat % 32 := by
  have h5 : b.getLsbD 5 = decide (b.toNat / 32 % 2 = 1) := by
    rw [← BitVec.testBit_toNat, Nat.testBit_eq_decide_div_mod_eq]
  rw [h5, BitVec.extractLsb'_toNat, Nat.shiftRight_zero]
  split
  case isTrue h =>
    rw [decide_eq_true_eq] at h
    omega
  case isFalse h =>
    rw [decide_eq_true_eq] at h
    omega

theorem shifter_of_five (op : ShiftOp) (a : Word) {b : Word} (h : b.getLsbD 5 = false) :
    shifter a (b.extractLsb' 0 6) op = op.toRegOp.eval a b := by
  have hn : (b.extractLsb' 0 6).toNat = b.toNat % 32 := by
    rw [toNat_low_six, h]
    rfl
  cases op with
  | sll => exact congrArg (a <<< ·) hn
  | srl => exact congrArg (a >>> ·) hn
  | sra => exact congrArg a.sshiftRight hn

theorem shifter_eq_iff_of_five (op : ShiftOp) (a : Word) {b : Word} (h : b.getLsbD 5 = true) :
    shifter a (b.extractLsb' 0 6) op = op.toRegOp.eval a b ↔ ShiftsOut a (b.toNat % 32) op := by
  have hn : (b.extractLsb' 0 6).toNat = 32 + b.toNat % 32 := by
    rw [toNat_low_six, h]
    rfl
  have hlt : b.toNat % 32 < 32 := Nat.mod_lt _ (by decide)
  cases op with
  | sll =>
    have hz : shifter a (b.extractLsb' 0 6) .sll = 0 := by
      rw [shifter, BitVec.shiftLeft_eq', hn]
      exact BitVec.shiftLeft_eq_zero (Nat.le_add_right ..)
    rw [hz, eq_comm]
    exact shiftLeft_eq_zero_iff hlt
  | srl =>
    have hz : shifter a (b.extractLsb' 0 6) .srl = 0 := by
      rw [shifter, BitVec.ushiftRight_eq', hn]
      exact BitVec.ushiftRight_eq_zero (Nat.le_add_right ..)
    rw [hz, eq_comm]
    exact ushiftRight_eq_zero_iff
  | sra =>
    rw [shifter, BitVec.sshiftRight_eq', hn]
    exact sshiftRight_eq_iff (Nat.le_add_right ..)

theorem shifter_eq_iff (op : ShiftOp) (a b : Word) :
    shifter a (b.extractLsb' 0 6) op = op.toRegOp.eval a b ↔
      b.getLsbD 5 = false ∨ ShiftsOut a (b.toNat % 32) op := by
  cases h : b.getLsbD 5 with
  | false => exact iff_of_true (shifter_of_five op a h) (.inl rfl)
  | true => rw [shifter_eq_iff_of_five op a h, Bool.true_eq_false, false_or]

section Combination

variable {i : Inputs} {k : Kind}

structure Carries (i : Inputs) (k : Kind) : Prop where
  opcodeInfo : i.opcodeInfo = k.opcodeInfo
  aluInfo : i.aluInfo = k.aluInfo
  branchInfo : i.branchInfo = k.branchInfo

def Kind.op1 (i : Inputs) : Kind → Word
  | jal | jalr | auipc => i.pc
  | lui => 0
  | _ => i.rs1Data

def Kind.op2 (i : Inputs) : Kind → Word
  | jal | jalr => 4
  | lui | auipc | opImm _ | shiftImm _ | load | store => i.imm
  | _ => i.rs2Data

theorem aluOp1_eq (h : Carries i k) : aluOp1 i = k.op1 i := by
  cases k <;>
    simp [aluOp1, opJal, opJalr, opAuipc, opLui, h.opcodeInfo, Kind.opcodeInfo, Kind.op1]

theorem aluOp2_eq (h : Carries i k) : aluOp2 i = k.op2 i := by
  cases k <;>
    simp [aluOp2, opJal, opJalr, opAuipc, opLui, opAluImm, opLoad, opStore, h.opcodeInfo,
      Kind.opcodeInfo, Kind.op2]

def unit (i : Inputs) : RegOp → Word
  | .add | .sub => aluAddSubResult i
  | .sll => aluSllResult i
  | .slt => aluSltResult i
  | .sltu => aluSltuResult i
  | .xor => aluXorResult i
  | .srl => aluSrlResult i
  | .sra => aluSraResult i
  | .or => aluOrResult i
  | .and => aluAndResult i

def subtracts (i : Inputs) : Bool := resultSelSub i || aluSlt i || aluSltu i

section Select

variable {n : Nat} {op : RegOp}

theorem aluOpResult_of_op (ho : i.opcodeInfo = hot 10 (some n)) (hn : n = 8 ∨ n = 9)
    (ha : i.aluInfo = hot 10 (some (opBit op))) : aluOpResult i = unit i op := by
  have hn : ¬ (n = 7 ∨ n = 6 ∨ n = 5 ∨ n = 2 ∨ n = 1) := by omega
  simp only [not_or] at hn
  simp only [aluOpResult, fill_and]
  cases op <;>
    simp [resultSelAddSub, resultSelAdd, resultSelSub, aluAdd, aluSub, aluSll, aluSlt, aluSltu,
      aluXor, aluSrl, aluSra, aluOr, aluAnd, opJal, opJalr, opLui, opAuipc, opBranch, ho, ha, hn,
      opBit, unit]

theorem subtracts_of_op (ho : i.opcodeInfo = hot 10 (some n)) (hn : n = 8 ∨ n = 9)
    (ha : i.aluInfo = hot 10 (some (opBit op))) :
    subtracts i = (op == .sub || op == .slt || op == .sltu) := by
  have hn : (n == 7) = false := beq_false_of_ne (by omega)
  cases op <;>
    simp [subtracts, resultSelSub, aluSub, aluSlt, aluSltu, opBranch, ho, ha, hn, opBit]

end Select

theorem adderSum_of_subtracts (h : subtracts i = true) :
    adderSum i = sum (aluOp1 i) (~~~aluOp2 i) 1 := by
  rw [subtracts] at h
  rw [adderSum, adderOp1, adderOp2, adderCin, if_pos h, if_pos h]
  rfl

theorem aluAddSubResult_of_subtracts (h : subtracts i = true) :
    aluAddSubResult i = aluOp1 i - aluOp2 i := by
  rw [aluAddSubResult, adderResult, adderSum_of_subtracts h, setWidth_sum, sub_eq_add_not]

theorem aluAddSubResult_of_not_subtracts (h : subtracts i = false) :
    aluAddSubResult i = aluOp1 i + aluOp2 i := by
  rw [subtracts] at h
  have hsum : adderSum i = sum (aluOp1 i) (aluOp2 i) 0 := by
    rw [adderSum, adderOp1, adderOp2, adderCin, h, if_neg Bool.false_ne_true,
      if_neg Bool.false_ne_true]
    rfl
  rw [aluAddSubResult, adderResult, hsum, setWidth_sum]
  exact BitVec.add_zero _

theorem adderCout_of_subtracts (h : subtracts i = true) :
    adderCout i = decide ((aluOp2 i).toNat ≤ (aluOp1 i).toNat) := by
  rw [adderCout, adderSum_of_subtracts h]
  exact msb_sum_not (by decide) ..

theorem lessThan_of_subtracts (h : subtracts i = true) :
    lessThan i = decide ((aluOp1 i).toInt < (aluOp2 i).toInt) := by
  rw [lessThan, aluAddSubResult_of_subtracts h, ← BitVec.slt_eq_decide]
  exact (slt_eq_signs (aluOp1 i) (aluOp2 i)).symm

theorem append_ofBool (b : Bool) : (0#31 ++ BitVec.ofBool b : Word) = if b then 1 else 0 := by
  cases b <;> rfl

theorem unit_eq {op : RegOp} (hop : ∀ s : ShiftOp, op ≠ s.toRegOp)
    (h : subtracts i = (op == .sub || op == .slt || op == .sltu)) :
    unit i op = op.eval (aluOp1 i) (aluOp2 i) := by
  cases op with
  | add => exact aluAddSubResult_of_not_subtracts h
  | sub => exact aluAddSubResult_of_subtracts h
  | slt =>
    rw [unit, aluSltResult, append_ofBool, lessThan_of_subtracts h]
    simp only [decide_eq_true_eq]
    rfl
  | sltu =>
    rw [unit, aluSltuResult, append_ofBool, adderCout_of_subtracts h]
    simp only [← decide_not, Nat.not_le, decide_eq_true_eq]
    rfl
  | xor | or | and => rfl
  | sll => exact absurd rfl (hop .sll)
  | srl => exact absurd rfl (hop .srl)
  | sra => exact absurd rfl (hop .sra)

theorem unit_eq_of_shift (i : Inputs) (op : ShiftOp) :
    unit i op.toRegOp = shifter (aluOp1 i) ((aluOp2 i).extractLsb' 0 6) op := by
  cases op <;> rfl

theorem unit_eq_iff {op : RegOp}
    (h : subtracts i = (op == .sub || op == .slt || op == .sltu)) :
    unit i op = op.eval (aluOp1 i) (aluOp2 i) ↔
      ∀ s : ShiftOp, op = s.toRegOp →
        (aluOp2 i).getLsbD 5 = false ∨ ShiftsOut (aluOp1 i) ((aluOp2 i).toNat % 32) s := by
  constructor
  · rintro heq s rfl
    rw [unit_eq_of_shift] at heq
    exact (shifter_eq_iff s _ _).mp heq
  · intro hs
    by_cases hop : ∃ s : ShiftOp, op = s.toRegOp
    · obtain ⟨s, rfl⟩ := hop
      rw [unit_eq_of_shift]
      exact (shifter_eq_iff s _ _).mpr (hs s rfl)
    · exact unit_eq (fun s he => hop ⟨s, he⟩) h

theorem subtracts_of_branch {op : BranchOp} (h : Carries i (.branch op)) : subtracts i = true := by
  simp [subtracts, resultSelSub, opBranch, h.opcodeInfo, Kind.opcodeInfo]

theorem xor_bne_zero (a b : Word) : (a ^^^ b != 0) = (a != b) := by
  rw [Bool.eq_iff_iff, bne_iff_ne, bne_iff_ne]
  exact not_congr BitVec.xor_eq_zero_iff

theorem aluBranchJump_of_branch {op : BranchOp} (h : Carries i (.branch op)) :
    aluBranchJump i = op.taken i.rs1Data i.rs2Data := by
  have h1 : aluOp1 i = i.rs1Data := aluOp1_eq h
  have h2 : aluOp2 i = i.rs2Data := aluOp2_eq h
  have hsub := subtracts_of_branch h
  have hlt := lessThan_of_subtracts hsub
  have hout := adderCout_of_subtracts hsub
  rw [h1, h2] at hlt hout
  have hne : notEqual i = (i.rs1Data != i.rs2Data) := by
    rw [notEqual, aluXorResult, h1, h2]
    exact xor_bne_zero ..
  cases op <;>
    simp only [aluBranchJump, branchBeq, branchBne, branchBlt, branchBge, branchBltu, branchBgeu,
      h.branchInfo, Kind.branchInfo, branchBit, equal, greaterThan, greaterThanU, lessThanU,
      hne, hlt, hout, BranchOp.taken, getLsbD_hot, Nat.reduceLT, ← decide_not, Int.not_lt,
      Nat.not_le]
  all_goals simp [bne]

theorem aluBranchJump_of_none (h : i.branchInfo = hot 6 none) : aluBranchJump i = false := by
  simp [aluBranchJump, branchBeq, branchBne, branchBlt, branchBge, branchBltu, branchBgeu, h]

theorem subtracts_of_none (ho : i.opcodeInfo = hot 10 (some n)) (hn : n ≠ 7)
    (ha : i.aluInfo = hot 10 none) : subtracts i = false := by
  simp [subtracts, resultSelSub, aluSub, aluSlt, aluSltu, opBranch, ho, ha, hn]

theorem aluOpResult_of_none (ho : i.opcodeInfo = hot 10 (some n))
    (hn : n = 6 ∨ n = 5 ∨ n = 2 ∨ n = 1) (ha : i.aluInfo = hot 10 none) :
    aluOpResult i = aluOp1 i + aluOp2 i := by
  rw [← aluAddSubResult_of_not_subtracts (subtracts_of_none ho (by omega) ha)]
  simp only [aluOpResult, fill_and]
  simp [resultSelAddSub, resultSelAdd, resultSelSub, aluAdd, aluSub, aluSll, aluSlt, aluSltu,
    aluXor, aluSrl, aluSra, aluOr, aluAnd, opJal, opJalr, opLui, opAuipc, opBranch, ho, ha]
  omega

end Combination

def Kind.inputs (k : Kind) (loadStoreInfo : BitVec 8) (pc rs1Data rs2Data imm : Word) : Inputs where
  opcodeInfo := k.opcodeInfo
  aluInfo := k.aluInfo
  branchInfo := k.branchInfo
  loadStoreInfo
  pc
  rs1Data
  rs2Data
  imm

theorem Kind.carries (k : Kind) (loadStoreInfo : BitVec 8) (pc a b imm : Word) :
    Carries (k.inputs loadStoreInfo pc a b imm) k :=
  ⟨rfl, rfl, rfl⟩

theorem Kind.meets_iff_of_operation {k : Kind} {pc a b imm c : Word} {op : RegOp} {o : Outputs}
    (hop : k.operation b imm = some (op, c)) (hj : o.aluBranchJump = false) :
    k.Meets pc a b imm o ↔ o.aluResult = op.eval a c := by
  cases k with
  | opReg _ | opImm _ | shiftImm _ =>
    cases hop
    exact ⟨fun h => h.result _ rfl, fun h => ⟨fun v hv => h.trans (Option.some.inj hv), nofun, hj⟩⟩
  | _ => cases hop

theorem alu_meets_iff_of_operation {i : Inputs} {k : Kind} {pc a b imm c : Word} {n : Nat}
    {op : RegOp} (ho : i.opcodeInfo = hot 10 (some n)) (hn : n = 8 ∨ n = 9)
    (ha : i.aluInfo = hot 10 (some (opBit op))) (hb : i.branchInfo = hot 6 none)
    (h1 : aluOp1 i = a) (h2 : aluOp2 i = c) (hop : k.operation b imm = some (op, c)) :
    k.Meets pc a b imm (alu i) ↔
      ∀ (s : ShiftOp) (d : Word), k.operation b imm = some (s.toRegOp, d) →
        d.getLsbD 5 = false ∨ ShiftsOut a (d.toNat % 32) s := by
  have hout : (alu i).aluResult = unit i op := aluOpResult_of_op ho hn ha
  have hiff := unit_eq_iff (subtracts_of_op ho hn ha)
  rw [h1, h2] at hiff
  rw [Kind.meets_iff_of_operation hop (aluBranchJump_of_none hb), hout, hiff, hop]
  constructor
  · intro hs s d he
    cases he
    exact hs s rfl
  · intro hs s he
    cases he
    exact hs s _ rfl

/-- RV32I is computed exactly where a shift has bit 5 of its second operand clear or
shifts everything out. -/
theorem alu_meets_iff (k : Kind) (loadStoreInfo : BitVec 8) (pc a b imm : Word) :
    k.Meets pc a b imm (alu (k.inputs loadStoreInfo pc a b imm)) ↔
      ∀ (s : ShiftOp) (d : Word), k.operation b imm = some (s.toRegOp, d) →
        d.getLsbD 5 = false ∨ ShiftsOut a (d.toNat % 32) s := by
  have h := k.carries loadStoreInfo pc a b imm
  have h1 := aluOp1_eq h
  have h2 := aluOp2_eq h
  cases k with
  | opReg op =>
    exact alu_meets_iff_of_operation h.opcodeInfo (.inl rfl) h.aluInfo h.branchInfo h1 h2 rfl
  | opImm op =>
    exact alu_meets_iff_of_operation h.opcodeInfo (.inr rfl) h.aluInfo h.branchInfo h1 h2 rfl
  | shiftImm op =>
    exact alu_meets_iff_of_operation h.opcodeInfo (.inr rfl) h.aluInfo h.branchInfo h1 h2 rfl
  | branch op =>
    exact iff_of_true ⟨nofun, nofun, aluBranchJump_of_branch h⟩ nofun
  | jal | jalr | auipc =>
    have hsum := aluOpResult_of_none h.opcodeInfo (by decide) h.aluInfo
    rw [h1, h2] at hsum
    exact iff_of_true ⟨fun v hv => hsum.trans (Option.some.inj hv), nofun,
      aluBranchJump_of_none h.branchInfo⟩ nofun
  | lui =>
    have hsum := aluOpResult_of_none h.opcodeInfo (by decide) h.aluInfo
    rw [h1, h2] at hsum
    have himm := hsum.trans (BitVec.zero_add imm)
    exact iff_of_true ⟨fun v hv => himm.trans (Option.some.inj hv), nofun,
      aluBranchJump_of_none h.branchInfo⟩ nofun
  | load | store =>
    have hsub := subtracts_of_none h.opcodeInfo (by decide) h.aluInfo
    have haddr := aluAddSubResult_of_not_subtracts hsub
    rw [h1, h2] at haddr
    exact iff_of_true ⟨nofun, fun v hv => haddr.trans (Option.some.inj hv),
      aluBranchJump_of_none h.branchInfo⟩ nofun

/-- SLL of 1 by 32 gives 0 instead of 1. -/
theorem alu_not_meets :
    ¬ ∀ (k : Kind) (loadStoreInfo : BitVec 8) (pc a b imm : Word),
      k.Meets pc a b imm (alu (k.inputs loadStoreInfo pc a b imm)) := by
  intro h
  have hres := (h (.opReg .sll) 0 0 1 32 0).result 1 (by decide)
  exact absurd hres (by decide)

end LinuxCpu.Rv32.AdderAlu
