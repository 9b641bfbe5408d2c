import LinuxCpu.Rv64.Decode

/-! `execute.v` of `linux_cpu`, over the register `regE` that feeds it. -/

namespace LinuxCpu.Rv64

/-- The 161-bit record `{commit, instr, pre_pc, pc}` an instruction carries. -/
structure CommitInfo where
  commit : Bool
  instr : BitVec 32
  prePc : Word
  pc : Word
  deriving DecidableEq

def CommitInfo.zero : CommitInfo := ⟨false, 0, 0, 0⟩

structure RegE where
  regdata1 : Word
  regdata2 : Word
  imm : Word
  pc : Word
  rd : BitVec 5
  regWen : Bool
  aluInfo : BitVec 28
  loadStoreInfo : BitVec 11
  opcodeInfo : BitVec 12
  branchInfo : BitVec 6
  commitInfo : CommitInfo

structure ExecuteOut where
  commitInfo : CommitInfo
  aluResult : Word
  needJump : Bool
  jumpPc : Word

namespace Execute

section Wires

variable (e : RegE)

def opLui : Bool := e.opcodeInfo.getLsbD 11
def opAuipc : Bool := e.opcodeInfo.getLsbD 10
def opJal : Bool := e.opcodeInfo.getLsbD 9
def opJalr : Bool := e.opcodeInfo.getLsbD 8
def opAluReg : Bool := e.opcodeInfo.getLsbD 7
def opAluRegw : Bool := e.opcodeInfo.getLsbD 6
def opAluImm : Bool := e.opcodeInfo.getLsbD 5
def opAluImmw : Bool := e.opcodeInfo.getLsbD 4
def opLoad : Bool := e.opcodeInfo.getLsbD 3
def opStore : Bool := e.opcodeInfo.getLsbD 2
def opBranch : Bool := e.opcodeInfo.getLsbD 1

def aluRemuw : Bool := e.aluInfo.getLsbD 0
def aluRemw : Bool := e.aluInfo.getLsbD 1
def aluRemu : Bool := e.aluInfo.getLsbD 2
def aluRem : Bool := e.aluInfo.getLsbD 3
def aluDivuw : Bool := e.aluInfo.getLsbD 4
def aluDivw : Bool := e.aluInfo.getLsbD 5
def aluDivu : Bool := e.aluInfo.getLsbD 6
def aluDiv : Bool := e.aluInfo.getLsbD 7
def aluMulw : Bool := e.aluInfo.getLsbD 8
def aluMulhu : Bool := e.aluInfo.getLsbD 9
def aluMulhsu : Bool := e.aluInfo.getLsbD 10
def aluMulh : Bool := e.aluInfo.getLsbD 11
def aluMul : Bool := e.aluInfo.getLsbD 12
def aluSraw : Bool := e.aluInfo.getLsbD 13
def aluSrlw : Bool := e.aluInfo.getLsbD 14
def aluSllw : Bool := e.aluInfo.getLsbD 15
def aluSubw : Bool := e.aluInfo.getLsbD 16
def aluAddw : Bool := e.aluInfo.getLsbD 17
def aluAnd : Bool := e.aluInfo.getLsbD 18
def aluOr : Bool := e.aluInfo.getLsbD 19
def aluSra : Bool := e.aluInfo.getLsbD 20
def aluSrl : Bool := e.aluInfo.getLsbD 21
def aluXor : Bool := e.aluInfo.getLsbD 22
def aluSltu : Bool := e.aluInfo.getLsbD 23
def aluSlt : Bool := e.aluInfo.getLsbD 24
def aluSll : Bool := e.aluInfo.getLsbD 25
def aluSub : Bool := e.aluInfo.getLsbD 26
def aluAdd : Bool := e.aluInfo.getLsbD 27

def instBeq : Bool := e.branchInfo.getLsbD 5
def instBne : Bool := e.branchInfo.getLsbD 4
def instBlt : Bool := e.branchInfo.getLsbD 3
def instBge : Bool := e.branchInfo.getLsbD 2
def instBltu : Bool := e.branchInfo.getLsbD 1
def instBgeu : Bool := e.branchInfo.getLsbD 0

def needJump : Bool :=
  if instBeq e && e.regdata1 == e.regdata2 then true
  else if instBne e && e.regdata1 != e.regdata2 then true
  else if instBlt e && e.regdata1.slt e.regdata2 then true
  else if instBge e && e.regdata2.sle e.regdata1 then true
  else if instBltu e && e.regdata1.ult e.regdata2 then true
  else if instBgeu e && e.regdata2.ule e.regdata1 then true
  else if opJal e || opJalr e then true
  else false

def jumpPc (aluResult : Word) : Word :=
  if opJalr e then aluResult &&& ~~~1
  else if opJal e then aluResult
  else if needJump e then aluResult
  else 0

def commitInfo (aluResult : Word) : CommitInfo :=
  if needJump e then { e.commitInfo with prePc := jumpPc e aluResult } else e.commitInfo

end Wires

/-- The jump and commit outputs are the same text in every core; only the
result they are computed from differs. -/
def outputs (aluResult : RegE → Word) (e : RegE) : ExecuteOut where
  commitInfo := commitInfo e (aluResult e)
  aluResult := aluResult e
  needJump := needJump e
  jumpPc := jumpPc e (aluResult e)

end Execute

namespace LinuxExecute

open Execute

section Wires

variable (e : RegE)

def aluSrc1 : Word :=
  if opAluReg e || opAluRegw e then e.regdata1
  else if opAluImm e || opAluImmw e then e.regdata1
  else if opBranch e then e.pc
  else if opStore e then e.regdata1
  else if opLoad e then e.regdata1
  else if opJal e then e.pc
  else if opJalr e then e.regdata1
  else 0

def aluSrc2 : Word :=
  if opAluReg e || opAluRegw e then e.regdata2
  else if opAluImm e || opAluImmw e then e.imm
  else if opBranch e then e.imm
  else if opStore e then e.imm
  else if opLoad e then e.imm
  else if opJal e then e.imm
  else if opJalr e then e.imm
  else 0

def aluResult : Word :=
  let s1 := aluSrc1 e
  let s2 := aluSrc2 e
  let s1w := s1.extractLsb' 0 32
  if opLui e then e.imm
  else if opAuipc e then e.pc + e.imm
  else if opBranch e then s1 + s2
  else if opStore e then s1 + s2
  else if opJal e then s1 + s2
  else if opJalr e then s1 + s2
  else if opLoad e then s1 + s2
  else if aluAnd e then s1 &&& s2
  else if aluAdd e then s1 + s2
  else if aluSub e then s1 - s2
  else if aluSll e then s1 <<< s2.extractLsb' 0 6
  else if aluSlt e then if s1.slt s2 then 1 else 0
  else if aluSltu e then if s1.ult s2 then 1 else 0
  else if aluXor e then s1 ^^^ s2
  else if aluOr e then s1 ||| s2
  else if aluSra e then s1.sshiftRight' (s2.extractLsb' 0 6)
  else if aluSrl e then s1 >>> s2.extractLsb' 0 6
  else if aluAddw e then BitVec.fill 32 ((s1 + s2).getLsbD 31) ++ (s1 + s2).extractLsb' 0 32
  else if aluSubw e then BitVec.fill 32 ((s1 - s2).getLsbD 31) ++ (s1 - s2).extractLsb' 0 32
  else if aluSllw e then
    BitVec.fill 32 ((s1 <<< s2.extractLsb' 0 5).getLsbD 31) ++
      (s1 <<< s2.extractLsb' 0 5).extractLsb' 0 32
  else if aluSrlw e then
    BitVec.fill 32 ((s1w >>> s2.extractLsb' 0 5).getLsbD 31) ++ s1w >>> s2.extractLsb' 0 5
  else if aluSraw e then
    BitVec.fill 32 ((s1w.sshiftRight' (s2.extractLsb' 0 5)).getLsbD 31) ++
      s1w.sshiftRight' (s2.extractLsb' 0 5)
  else 0

end Wires

def execute : RegE → ExecuteOut := outputs aluResult

end LinuxExecute

end LinuxCpu.Rv64
