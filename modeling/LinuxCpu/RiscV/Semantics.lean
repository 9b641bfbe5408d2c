import LinuxCpu.RiscV.Syntax
import LinuxCpu.Lib.ByteMemory
import Mathlib.Logic.Function.Basic

/-! What the instructions do, for registers of any width `w` (32 or 64). -/

namespace LinuxCpu.RiscV

open ByteMemory

structure State (w : Nat) where
  pc : BitVec w
  regs : Reg → BitVec w
  mem : Mem w

def State.get (s : State w) (r : Reg) : BitVec w := if r = 0 then 0 else s.regs r

def State.set (s : State w) (r : Reg) (v : BitVec w) : State w :=
  if r = 0 then s else { s with regs := Function.update s.regs r v }

def RegOp.eval (op : RegOp) (a b : BitVec w) : BitVec w :=
  match op with
  | .add => a + b
  | .sub => a - b
  | .sll => a <<< (b.toNat % w)
  | .slt => if a.toInt < b.toInt then 1 else 0
  | .sltu => if a.toNat < b.toNat then 1 else 0
  | .xor => a ^^^ b
  | .srl => a >>> (b.toNat % w)
  | .sra => a.sshiftRight (b.toNat % w)
  | .or => a ||| b
  | .and => a &&& b

def ImmOp.toRegOp : ImmOp → RegOp
  | .addi => .add
  | .slti => .slt
  | .sltiu => .sltu
  | .xori => .xor
  | .ori => .or
  | .andi => .and

def ShiftOp.toRegOp : ShiftOp → RegOp
  | .sll => .sll
  | .srl => .srl
  | .sra => .sra

theorem shift_congr (op : ShiftOp) (a : BitVec w) {b c : BitVec w}
    (h : b.toNat % w = c.toNat % w) : op.toRegOp.eval a b = op.toRegOp.eval a c := by
  cases op <;> simp only [ShiftOp.toRegOp, RegOp.eval, h]

def RegWOp.toRegOp : RegWOp → RegOp
  | .addw => .add
  | .subw => .sub
  | .sllw => .sll
  | .srlw => .srl
  | .sraw => .sra

def evalW (op : RegOp) (a b : BitVec w) : BitVec w :=
  (op.eval (a.setWidth 32) (b.setWidth 32)).signExtend w

/-- Quotients round towards zero; a zero divisor gives all ones, and overflow
the dividend. -/
def divSigned (a b : BitVec w) : BitVec w :=
  if b = 0 then BitVec.allOnes w
  else if a = BitVec.intMin w ∧ b = BitVec.allOnes w then a
  else BitVec.ofInt w (a.toInt.tdiv b.toInt)

def divUnsigned (a b : BitVec w) : BitVec w :=
  if b = 0 then BitVec.allOnes w else BitVec.ofNat w (a.toNat / b.toNat)

/-- A zero divisor leaves the dividend as remainder, and overflow leaves 0. -/
def remSigned (a b : BitVec w) : BitVec w :=
  if b = 0 then a
  else if a = BitVec.intMin w ∧ b = BitVec.allOnes w then 0
  else BitVec.ofInt w (a.toInt.tmod b.toInt)

def remUnsigned (a b : BitVec w) : BitVec w :=
  if b = 0 then a else BitVec.ofNat w (a.toNat % b.toNat)

def MulDivOp.eval (op : MulDivOp) (a b : BitVec w) : BitVec w :=
  match op with
  | .mul => BitVec.ofInt w (a.toInt * b.toInt)
  | .mulh => BitVec.ofInt w (a.toInt * b.toInt / 2 ^ w)
  | .mulhsu => BitVec.ofInt w (a.toInt * b.toNat / 2 ^ w)
  | .mulhu => BitVec.ofNat w (a.toNat * b.toNat / 2 ^ w)
  | .div => divSigned a b
  | .divu => divUnsigned a b
  | .rem => remSigned a b
  | .remu => remUnsigned a b

def MulDivWOp.eval32 (op : MulDivWOp) (a b : BitVec 32) : BitVec 32 :=
  match op with
  | .mulw => a * b
  | .divw => divSigned a b
  | .divuw => divUnsigned a b
  | .remw => remSigned a b
  | .remuw => remUnsigned a b

def MulDivWOp.eval (op : MulDivWOp) (a b : BitVec w) : BitVec w :=
  (op.eval32 (a.setWidth 32) (b.setWidth 32)).signExtend w

def BranchOp.taken (op : BranchOp) (a b : BitVec w) : Bool :=
  match op with
  | .beq => a == b
  | .bne => a != b
  | .blt => decide (a.toInt < b.toInt)
  | .bge => decide (b.toInt ≤ a.toInt)
  | .bltu => decide (a.toNat < b.toNat)
  | .bgeu => decide (b.toNat ≤ a.toNat)

def LoadOp.len : LoadOp → Nat
  | .lb | .lbu => 1
  | .lh | .lhu => 2
  | .lw | .lwu => 4
  | .ld => 8

def LoadOp.extend (op : LoadOp) (w : Nat) (v : BitVec k) : BitVec w :=
  match op with
  | .lb | .lh | .lw | .ld => v.signExtend w
  | .lbu | .lhu | .lwu => v.setWidth w

def LoadOp.read (op : LoadOp) (m : Mem w) (a : BitVec w) : BitVec w :=
  op.extend w (load m a op.len)

def StoreOp.len : StoreOp → Nat
  | .sb => 1
  | .sh => 2
  | .sw => 4
  | .sd => 8

def Instr.compute (i : Instr) (pc a b : BitVec w) : Option (BitVec w) :=
  match i with
  | .lui _ imm => some ((imm ++ 0#12).signExtend w)
  | .auipc _ imm => some (pc + (imm ++ 0#12).signExtend w)
  | .opImm op _ _ imm => some (op.toRegOp.eval a (imm.signExtend w))
  | .shiftImm op _ _ shamt => some (op.toRegOp.eval a (shamt.setWidth w))
  | .opReg op _ _ _ => some (op.eval a b)
  | .addiw _ _ imm => some (evalW .add a (imm.signExtend w))
  | .shiftImmW op _ _ shamt => some (evalW op.toRegOp a (shamt.setWidth w))
  | .opRegW op _ _ _ => some (evalW op.toRegOp a b)
  | _ => none

def Instr.muldiv (i : Instr) (a b : BitVec w) : Option (BitVec w) :=
  match i with
  | .mulDiv op _ _ _ => some (op.eval a b)
  | .mulDivW op _ _ _ => some (op.eval a b)
  | _ => none

def Instr.transfer (i : Instr) (pc a b : BitVec w) : Option (BitVec w) :=
  match i with
  | .jal _ offset => some (pc + (offset ++ 0#1).signExtend w)
  | .jalr _ _ imm => some ((a + imm.signExtend w) &&& ~~~1)
  | .branch op _ _ offset =>
    if op.taken a b then some (pc + (offset ++ 0#1).signExtend w) else none
  | _ => none

def Instr.rs1 : Instr → Reg
  | .jalr _ rs1 _ | .branch _ rs1 _ _ | .load _ _ rs1 _ | .store _ rs1 _ _ | .opImm _ _ rs1 _
  | .shiftImm _ _ rs1 _ | .opReg _ _ rs1 _ | .addiw _ rs1 _ | .shiftImmW _ _ rs1 _
  | .opRegW _ _ rs1 _ | .mulDiv _ _ rs1 _ | .mulDivW _ _ rs1 _ => rs1
  | _ => 0

def Instr.rs2 : Instr → Reg
  | .branch _ _ rs2 _ | .store _ _ rs2 _ | .opReg _ _ _ rs2 | .opRegW _ _ _ rs2
  | .mulDiv _ _ _ rs2 | .mulDivW _ _ _ rs2 => rs2
  | _ => 0

def Instr.dest : Instr → Option Reg
  | .lui rd _ | .auipc rd _ | .jal rd _ | .jalr rd _ _ | .load _ rd _ _ | .opImm _ rd _ _
  | .shiftImm _ rd _ _ | .opReg _ rd _ _ | .addiw rd _ _ | .shiftImmW _ rd _ _ | .opRegW _ rd _ _
  | .mulDiv _ rd _ _ | .mulDivW _ rd _ _ => some rd
  | _ => none

def Instr.value (i : Instr) (s : State w) : BitVec w :=
  let a := s.get i.rs1
  let b := s.get i.rs2
  match i with
  | .jal .. | .jalr .. => s.pc + 4
  | .load op _ _ imm => op.read s.mem (a + imm.signExtend w)
  | .mulDiv .. | .mulDivW .. => (i.muldiv a b).getD 0
  | i => (i.compute s.pc a b).getD 0

/-- One instruction of the user-level machine; `none` where the environment
takes over. -/
def Instr.exec (i : Instr) (s : State w) : Option (State w) :=
  let a := s.get i.rs1
  let b := s.get i.rs2
  match i with
  | .ecall | .ebreak => none
  | .store op _ _ imm =>
    some { s with
      pc := s.pc + 4
      mem := ByteMemory.store s.mem (a + imm.signExtend w) op.len b }
  | i =>
    let pc := (i.transfer s.pc a b).getD (s.pc + 4)
    match i.dest with
    | some rd => some { s.set rd (i.value s) with pc }
    | none => some { s with pc }

theorem exec_branch (op : BranchOp) (rs1 rs2 : Reg) (offset : BitVec 12) (s : State w) :
    (Instr.branch op rs1 rs2 offset).exec s =
      some { s with
        pc := if op.taken (s.get rs1) (s.get rs2) then s.pc + (offset ++ 0#1).signExtend w
          else s.pc + 4 } := by
  change some
    { s with pc := (if op.taken (s.get rs1) (s.get rs2) then some _ else none).getD _ } = _
  split <;> rfl

end LinuxCpu.RiscV
