import LinuxCpu.Rv64.Stages

/-! `icache.v` and `fetch.v`. -/

namespace LinuxCpu.Rv64

inductive Way | way0 | way1
  deriving DecidableEq

/-- `{valid, tag, data}`, the 181 bits of a cache line. -/
structure Line where
  valid : Bool
  tag : BitVec 52
  data : BitVec 128

def pcTag (pc : Word) : BitVec 52 := pc.extractLsb' 12 52
def pcIndex (pc : Word) : BitVec 8 := pc.extractLsb' 4 8
def pcOffset (pc : Word) : BitVec 4 := pc.extractLsb' 0 4

def Line.hit (line : Line) (tag : BitVec 52) : Bool := line.tag == tag && line.valid

structure Icache where
  cache : BitVec 8 → Way → Line
  instr : BitVec 32

namespace Icache

section Wires

variable (imem : Word → BitVec 32) (pc : Word) (c : Icache)

/-- A missing line is read from `pc` on, wherever in its block `pc` lies. -/
def memoryData : BitVec 128 := imem (pc + 12) ++ imem (pc + 8) ++ imem (pc + 4) ++ imem pc

def cacheHitIndex0 : Bool := (c.cache (pcIndex pc) .way0).hit (pcTag pc)
def cacheHitIndex1 : Bool := (c.cache (pcIndex pc) .way1).hit (pcTag pc)

def select (data : BitVec 128) (offset : BitVec 4) (old : BitVec 32) : BitVec 32 :=
  if offset = 0 then data.extractLsb' 0 32
  else if offset = 4 then data.extractLsb' 32 32
  else if offset = 8 then data.extractLsb' 64 32
  else if offset = 12 then data.extractLsb' 96 32
  else old

/-- `victim` is the way a miss fills, `none` an index outside the array. -/
def fill (victim : Option Way) : BitVec 8 → Way → Line :=
  match victim with
  | some way =>
    Function.update c.cache (pcIndex pc)
      (Function.update (c.cache (pcIndex pc)) way ⟨true, pcTag pc, memoryData imem pc⟩)
  | none => c.cache

def edge (victim : Option Way) (rst bubble stall : Bool) : Icache :=
  if rst || bubble then { c with instr := 0 }
  else if !stall then
    if cacheHitIndex0 pc c then
      { c with instr := select (c.cache (pcIndex pc) .way0).data (pcOffset pc) c.instr }
    else if cacheHitIndex1 pc c then
      { c with instr := select (c.cache (pcIndex pc) .way1).data (pcOffset pc) c.instr }
    else
      { cache := fill imem pc c victim
        instr := select (memoryData imem pc) (pcOffset pc) c.instr }
  else c

end Wires

end Icache

structure RegFetch where
  pc : Word
  commit : Bool

def RegFetch.edge (rst bubble stall : Bool) (pc : Word) (q : RegFetch) : RegFetch :=
  if rst || bubble then ⟨0, false⟩
  else if !stall then ⟨pc, true⟩
  else q

def RegFetch.out (q : RegFetch) (instr : BitVec 32) : FetchOut where
  pc := q.pc
  instr := instr
  commitInfo := ⟨q.commit, instr, q.pc + 4, q.pc⟩

structure FetchIn where
  rst : Bool
  stall : Bool
  bubble : Bool
  pc : Word

structure Fetch where
  reg : RegFetch
  icache : Icache

namespace Fetch

/-- `fetch` of `linux_cpu`, whose cache fills way 0. -/
def edge (imem : Word → BitVec 32) (s : Fetch) (i : FetchIn) : Fetch where
  reg := RegFetch.edge i.rst i.bubble i.stall i.pc s.reg
  icache := Icache.edge imem i.pc s.icache (some .way0) i.rst i.bubble i.stall

def out (s : Fetch) : FetchOut := s.reg.out s.icache.instr

def run (imem : Word → BitVec 32) (s : Fetch) : List FetchIn → Fetch
  | [] => s
  | i :: ins => run imem (s.edge imem i) ins

end Fetch

end LinuxCpu.Rv64
