import LinuxCpu.Lib.Bits
import LinuxCpu.Rv32.SingleCycle

/-! `alu` of `single-cycle-cpu-master`; `execute` wires its ports to it one by one. -/

namespace LinuxCpu.Rv32.AdderAlu

structure Inputs where
  opcodeInfo : BitVec 10
  aluInfo : BitVec 10
  branchInfo : BitVec 6
  loadStoreInfo : BitVec 8
  pc : Word
  rs1Data : Word
  rs2Data : Word
  imm : Word
  deriving DecidableEq

structure Outputs where
  aluResult : Word
  memAddr : Word
  aluBranchJump : Bool
  deriving DecidableEq

section Wires

variable (i : Inputs)

def opAluImm : Bool := i.opcodeInfo.getLsbD 9
def opAlu : Bool := i.opcodeInfo.getLsbD 8
def opBranch : Bool := i.opcodeInfo.getLsbD 7
def opJal : Bool := i.opcodeInfo.getLsbD 6
def opJalr : Bool := i.opcodeInfo.getLsbD 5
def opLoad : Bool := i.opcodeInfo.getLsbD 4
def opStore : Bool := i.opcodeInfo.getLsbD 3
def opLui : Bool := i.opcodeInfo.getLsbD 2
def opAuipc : Bool := i.opcodeInfo.getLsbD 1

def aluAdd : Bool := i.aluInfo.getLsbD 9
def aluSub : Bool := i.aluInfo.getLsbD 8
def aluSll : Bool := i.aluInfo.getLsbD 7
def aluSlt : Bool := i.aluInfo.getLsbD 6
def aluSltu : Bool := i.aluInfo.getLsbD 5
def aluXor : Bool := i.aluInfo.getLsbD 4
def aluSrl : Bool := i.aluInfo.getLsbD 3
def aluSra : Bool := i.aluInfo.getLsbD 2
def aluOr : Bool := i.aluInfo.getLsbD 1
def aluAnd : Bool := i.aluInfo.getLsbD 0

def branchBeq : Bool := i.branchInfo.getLsbD 5
def branchBne : Bool := i.branchInfo.getLsbD 4
def branchBlt : Bool := i.branchInfo.getLsbD 3
def branchBge : Bool := i.branchInfo.getLsbD 2
def branchBltu : Bool := i.branchInfo.getLsbD 1
def branchBgeu : Bool := i.branchInfo.getLsbD 0

def resultSelAdd : Bool := aluAdd i || opJal i || opJalr i || opLui i || opAuipc i
def resultSelSub : Bool := aluSub i || opBranch i
def resultSelAddSub : Bool := resultSelAdd i || resultSelSub i

def aluOp1 : Word :=
  if opJal i || opJalr i || opAuipc i then i.pc
  else if opLui i then 0
  else i.rs1Data

def aluOp2 : Word :=
  if opLui i || opAuipc i || opAluImm i || opLoad i || opStore i then i.imm
  else if opJal i || opJalr i then 4
  else i.rs2Data

def adderOp1 : Word := aluOp1 i

def adderOp2 : Word :=
  if resultSelSub i || aluSlt i || aluSltu i then ~~~aluOp2 i else aluOp2 i

def adderCin : Bool := if resultSelSub i || aluSlt i || aluSltu i then true else false

def adderSum : BitVec 33 :=
  (adderOp1 i).setWidth 33 + (adderOp2 i).setWidth 33 +
    (0#31 ++ BitVec.ofBool (adderCin i)).setWidth 33

def adderCout : Bool := (adderSum i).getLsbD 32

def adderResult : Word := (adderSum i).setWidth 32

def aluAddSubResult : Word := adderResult i

def lessThan : Bool :=
  (aluOp1 i).getLsbD 31 && !(aluOp2 i).getLsbD 31 ||
    !((aluOp1 i).getLsbD 31 ^^ (aluOp2 i).getLsbD 31) && (aluAddSubResult i).getLsbD 31

def aluSltResult : Word := 0#31 ++ BitVec.ofBool (lessThan i)

def aluSltuResult : Word := 0#31 ++ BitVec.ofBool (!adderCout i)

/-- Six bits, though the operands have 32. -/
def shiftOp2 : BitVec 6 := (aluOp2 i).extractLsb' 0 6

def aluSllResult : Word := aluOp1 i <<< shiftOp2 i
def aluSrlResult : Word := aluOp1 i >>> shiftOp2 i
def aluSraResult : Word := (aluOp1 i).sshiftRight' (shiftOp2 i)

def aluAndResult : Word := aluOp1 i &&& aluOp2 i
def aluOrResult : Word := aluOp1 i ||| aluOp2 i
def aluXorResult : Word := aluOp1 i ^^^ aluOp2 i

def aluOpResult : Word :=
  BitVec.fill 32 (resultSelAddSub i) &&& aluAddSubResult i |||
  BitVec.fill 32 (aluSll i) &&& aluSllResult i |||
  BitVec.fill 32 (aluSlt i) &&& aluSltResult i |||
  BitVec.fill 32 (aluSltu i) &&& aluSltuResult i |||
  BitVec.fill 32 (aluXor i) &&& aluXorResult i |||
  BitVec.fill 32 (aluSrl i) &&& aluSrlResult i |||
  BitVec.fill 32 (aluSra i) &&& aluSraResult i |||
  BitVec.fill 32 (aluOr i) &&& aluOrResult i |||
  BitVec.fill 32 (aluAnd i) &&& aluAndResult i

def notEqual : Bool := aluXorResult i != 0
def equal : Bool := !notEqual i
def lessThanU : Bool := !adderCout i
def greaterThan : Bool := !lessThan i
def greaterThanU : Bool := !lessThanU i

def aluBranchJump : Bool :=
  branchBeq i && equal i || branchBne i && notEqual i || branchBlt i && lessThan i ||
    branchBge i && greaterThan i || branchBltu i && lessThanU i || branchBgeu i && greaterThanU i

end Wires

def alu (i : Inputs) : Outputs where
  aluResult := aluOpResult i
  memAddr := aluAddSubResult i
  aluBranchJump := aluBranchJump i

end LinuxCpu.Rv32.AdderAlu
