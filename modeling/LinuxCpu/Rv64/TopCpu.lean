import LinuxCpu.Lib.Clocked
import LinuxCpu.Rv64.ExecuteM
import LinuxCpu.Rv64.Fetch
import LinuxCpu.Simulator.Sim

/-! `top_cpu.v`: the five-stage core of `linux_cpu` and `cache-cpu`, the core of
`pipeline_cpu`, and the machine that runs one whole instruction a step. -/

namespace LinuxCpu.Rv64

open Simulator

def CommitInfo.port (info : CommitInfo) : Option Commit :=
  if info.commit then some ⟨info.pc, info.instr, info.prePc⟩ else none

def fetchAt (imem : Word → BitVec 32) (pc : Word) : FetchOut :=
  ⟨pc, imem pc, ⟨true, imem pc, pc + 4, pc⟩⟩

/-- The registers of `top_cpu`. The cache is idealised: its output register
loads the word of a constant instruction memory. -/
structure TopCpu where
  pc : Word
  fetch : RegFetch
  icacheInstr : BitVec 32
  regD : RegD
  regE : RegE
  regM : RegM
  regW : RegW
  regfile : Regfile
  host : Host

section Cores

variable (exec : RegE → ExecuteOut) (imem : Word → BitVec 32)

/-- `linux_cpu` and `cache-cpu` differ in `execute` alone. -/
def TopCpu.edge (rst : Bool) (s : TopCpu) : TopCpu :=
  let x := exec s.regE
  let memdata := Memory.memdata s.regM s.host
  let d := decode s.regD.instr (forwardOf s.regE x s.regM memdata s.regW) s.regfile
  let c := ctrl x.needJump s.regE.opcodeInfo s.regE.rd d.rs1 d.rs2
  { pc := pcEdge rst c.regFStall c.regFBubble x.jumpPc x.needJump s.pc
    fetch := RegFetch.edge rst c.fetchBubble c.fetchStall s.pc s.fetch
    icacheInstr :=
      if rst || c.fetchBubble then 0
      else if !c.fetchStall then imem s.pc
      else s.icacheInstr
    regD := RegD.edge rst c.regDBubble c.regDStall (s.fetch.out s.icacheInstr) s.regD
    regE := RegE.edge rst c.regEBubble c.regEStall d s.regD s.regE
    regM := RegM.edge rst c.regMBubble c.regMStall s.regE x s.regM
    regW := RegW.edge rst c.regWBubble c.regWStall s.regM memdata s.regW
    regfile := Regfile.edge rst (writeBack s.regW) s.regfile
    host := Memory.edge s.regM s.host }

def TopCpu.machine : Clocked TopCpu Commit where
  edge := TopCpu.edge exec imem false
  port s := s.regW.commitInfo.port

/-- The registers of `pipeline_cpu`: its `fetch` is combinational. -/
structure PipelineCpu where
  pc : Word
  regD : RegD
  regE : RegE
  regM : RegM
  regW : RegW
  regfile : Regfile
  host : Host

namespace PipelineCpu

/-- The stalls and bubbles of `ctrl` reach no register. -/
def edge (rst : Bool) (s : PipelineCpu) : PipelineCpu :=
  let x := exec s.regE
  let memdata := Memory.memdata s.regM s.host
  let d := decode s.regD.instr (forwardOf s.regE x s.regM memdata s.regW) s.regfile
  { pc := if rst then 0x80000000 else if x.needJump then x.jumpPc else s.pc + 4
    regD := if rst then RegD.clear else RegD.load (fetchAt imem s.pc)
    regE := if rst then s.regE.clear else RegE.load d s.regD
    regM := if rst then RegM.clear else RegM.load s.regE x
    regW := if rst then RegW.clear else RegW.load s.regM memdata
    regfile := Regfile.edge rst (writeBack s.regW) s.regfile
    host := Memory.edge s.regM s.host }

def machine : Clocked PipelineCpu Commit where
  edge := edge exec imem false
  port s := s.regW.commitInfo.port

end PipelineCpu

structure Seq where
  pc : Word
  regfile : Regfile
  host : Host

namespace Seq

variable (t : Seq)

def regD : RegD := RegD.load (fetchAt imem t.pc)

def regE : RegE := RegE.issue .idle t.regfile (regD imem t)

def regM : RegM := RegM.load (regE imem t) (exec (regE imem t))

def regW : RegW := RegW.load (regM exec imem t) (Memory.memdata (regM exec imem t) t.host)

def next : Seq where
  pc :=
    if (exec (regE imem t)).needJump then (exec (regE imem t)).jumpPc else t.pc + 4
  regfile := Regfile.edge false (writeBack (regW exec imem t)) t.regfile
  host := Memory.edge (regM exec imem t) t.host

def machine : Stream Seq Commit where
  next := next exec imem
  out t := ⟨t.pc, imem t.pc, (next exec imem t).pc⟩

end Seq

end Cores

end LinuxCpu.Rv64
