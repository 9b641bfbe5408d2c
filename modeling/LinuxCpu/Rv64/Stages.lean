import LinuxCpu.Rv64.Execute
import LinuxCpu.Simulator.Dpi

/-! The stages the RV64 cores share: `pc.v`, `regD.v`, `regE.v`, `regM.v`,
`memory.v`, `regW.v`, `write_back.v` and `ctrl.v`. A register takes its
present contents last and returns them after the clock edge. -/

namespace LinuxCpu.Rv64

open Simulator

def pcEdge (rst stall bubble : Bool) (jumpPc : Word) (needJump : Bool) (pc : Word) : Word :=
  if rst || bubble then 0x80000000
  else if stall then pc
  else if needJump then jumpPc
  else pc + 4

structure FetchOut where
  pc : Word
  instr : BitVec 32
  commitInfo : CommitInfo

structure RegD where
  pc : Word
  instr : BitVec 32
  commitInfo : CommitInfo

def RegD.clear : RegD := ⟨0, 0, CommitInfo.zero⟩

def RegD.load (f : FetchOut) : RegD := ⟨f.pc, f.instr, f.commitInfo⟩

def RegD.edge (rst bubble stall : Bool) (f : FetchOut) (q : RegD) : RegD :=
  if rst || bubble then RegD.clear
  else if !stall then RegD.load f
  else q

/-- `regE_o_imm` is the one register the bubble branch leaves alone. -/
def RegE.clear (q : RegE) : RegE where
  regdata1 := 0
  regdata2 := 0
  imm := q.imm
  pc := 0
  rd := 0
  regWen := false
  aluInfo := 0
  loadStoreInfo := 0
  opcodeInfo := 0
  branchInfo := 0
  commitInfo := CommitInfo.zero

def RegE.load (d : DecodeOut) (r : RegD) : RegE where
  regdata1 := d.regdata1
  regdata2 := d.regdata2
  imm := d.imm
  pc := r.pc
  rd := d.rd
  regWen := d.regWen
  aluInfo := d.aluInfo
  loadStoreInfo := d.loadStoreInfo
  opcodeInfo := d.opcodeInfo
  branchInfo := d.branchInfo
  commitInfo := r.commitInfo

def RegE.issue (f : Forward) (regfile : Regfile) (r : RegD) : RegE :=
  RegE.load (decode r.instr f regfile) r

def RegE.edge (rst bubble stall : Bool) (d : DecodeOut) (r : RegD) (q : RegE) : RegE :=
  if rst || bubble then q.clear
  else if !stall then RegE.load d r
  else q

structure RegM where
  loadStoreInfo : BitVec 11
  opcodeInfo : BitVec 12
  regdata2 : Word
  aluResult : Word
  pc : Word
  rd : BitVec 5
  regWen : Bool
  commitInfo : CommitInfo

def RegM.clear : RegM where
  loadStoreInfo := 0
  opcodeInfo := 0
  regdata2 := 0
  aluResult := 0
  pc := 0
  rd := 0
  regWen := false
  commitInfo := CommitInfo.zero

def RegM.load (e : RegE) (x : ExecuteOut) : RegM where
  loadStoreInfo := e.loadStoreInfo
  opcodeInfo := e.opcodeInfo
  regdata2 := e.regdata2
  aluResult := x.aluResult
  pc := e.pc
  rd := e.rd
  regWen := e.regWen
  commitInfo := x.commitInfo

def RegM.edge (rst bubble stall : Bool) (e : RegE) (x : ExecuteOut) (q : RegM) : RegM :=
  if rst || bubble then RegM.clear
  else if stall then q
  else RegM.load e x

namespace Memory

section Wires

variable (m : RegM)

def instLb : Bool := m.loadStoreInfo.getLsbD 10
def instLh : Bool := m.loadStoreInfo.getLsbD 9
def instLw : Bool := m.loadStoreInfo.getLsbD 8
def instLd : Bool := m.loadStoreInfo.getLsbD 7
def instLbu : Bool := m.loadStoreInfo.getLsbD 6
def instLhu : Bool := m.loadStoreInfo.getLsbD 5
def instLwu : Bool := m.loadStoreInfo.getLsbD 4
def instSb : Bool := m.loadStoreInfo.getLsbD 3
def instSh : Bool := m.loadStoreInfo.getLsbD 2
def instSw : Bool := m.loadStoreInfo.getLsbD 1
def instSd : Bool := m.loadStoreInfo.getLsbD 0

def instLoad : Bool :=
  instLb m || instLh m || instLw m || instLd m || instLbu m || instLhu m || instLwu m

/-- A load asks for eight bytes whatever its width. -/
def memRdata (h : Host) : Word := if instLoad m then dpiMemRead h m.aluResult .dword else 0

def memdata (h : Host) : Word :=
  let r := memRdata m h
  if instLb m then BitVec.fill 56 (r.getLsbD 7) ++ r.extractLsb' 0 8
  else if instLh m then BitVec.fill 48 (r.getLsbD 15) ++ r.extractLsb' 0 16
  else if instLw m then BitVec.fill 32 (r.getLsbD 31) ++ r.extractLsb' 0 32
  else if instLd m then r.extractLsb' 0 64
  else if instLbu m then 0#56 ++ r.extractLsb' 0 8
  else if instLhu m then 0#48 ++ r.extractLsb' 0 16
  else if instLwu m then 0#32 ++ r.extractLsb' 0 32
  else 0

/-- The store at the clock edge; it does not look at `rst`. -/
def edge (h : Host) : Host :=
  if instSb m then dpiMemWrite h m.aluResult m.regdata2 .byte
  else if instSh m then dpiMemWrite h m.aluResult m.regdata2 .half
  else if instSw m then dpiMemWrite h m.aluResult m.regdata2 .word
  else if instSd m then dpiMemWrite h m.aluResult m.regdata2 .dword
  else h

end Wires

end Memory

structure RegW where
  rd : BitVec 5
  regWen : Bool
  memdata : Word
  opcodeInfo : BitVec 12
  aluResult : Word
  pc : Word
  commitInfo : CommitInfo

def RegW.clear : RegW where
  rd := 0
  regWen := false
  memdata := 0
  opcodeInfo := 0
  aluResult := 0
  pc := 0
  commitInfo := CommitInfo.zero

def RegW.load (m : RegM) (memdata : Word) : RegW where
  rd := m.rd
  regWen := m.regWen
  memdata := memdata
  opcodeInfo := m.opcodeInfo
  aluResult := m.aluResult
  pc := m.pc
  commitInfo := m.commitInfo

def RegW.edge (rst bubble stall : Bool) (m : RegM) (memdata : Word) (q : RegW) : RegW :=
  if rst || bubble then RegW.clear
  else if stall then q
  else RegW.load m memdata

def writeBack (w : RegW) : Regfile.WriteBack where
  rd := w.rd
  data :=
    if w.opcodeInfo.getLsbD 9 || w.opcodeInfo.getLsbD 8 then w.pc + 4
    else if w.opcodeInfo.getLsbD 3 then w.memdata
    else w.aluResult
  regWen := w.regWen

def RegE.retire (exec : RegE → ExecuteOut) (e : RegE) (memdata : Word) : Regfile.WriteBack :=
  writeBack (RegW.load (RegM.load e (exec e)) memdata)

def forwardOf (e : RegE) (x : ExecuteOut) (m : RegM) (memdata : Word) (w : RegW) : Forward where
  executeAluResult := x.aluResult
  regERd := e.rd
  regERegWen := e.regWen
  regMOpcodeInfo := m.opcodeInfo
  regMAluResult := m.aluResult
  memoryMemdata := memdata
  regMRd := m.rd
  regMRegWen := m.regWen
  regWOpcodeInfo := w.opcodeInfo
  regWPc := w.pc
  regWAluResult := w.aluResult
  regWMemdata := w.memdata
  regWRd := w.rd
  regWRegWen := w.regWen

structure Ctrl where
  fetchStall : Bool
  regFStall : Bool
  regDStall : Bool
  regEStall : Bool
  regMStall : Bool
  regWStall : Bool
  fetchBubble : Bool
  regFBubble : Bool
  regDBubble : Bool
  regEBubble : Bool
  regMBubble : Bool
  regWBubble : Bool

def loadUse (opcodeInfo : BitVec 12) (rd rs1 rs2 : BitVec 5) : Bool :=
  (rd == rs1 || rd == rs2) && opcodeInfo.getLsbD 3

def ctrl (needJump : Bool) (opcodeInfo : BitVec 12) (rd rs1 rs2 : BitVec 5) : Ctrl :=
  let loadUse := loadUse opcodeInfo rd rs1 rs2
  let branchBubble := needJump
  { regFBubble := false
    fetchBubble := branchBubble
    regDBubble := branchBubble
    regEBubble := branchBubble || loadUse
    regMBubble := false
    regWBubble := false
    fetchStall := loadUse
    regFStall := loadUse
    regDStall := loadUse
    regEStall := false
    regMStall := false
    regWStall := false }

end LinuxCpu.Rv64
