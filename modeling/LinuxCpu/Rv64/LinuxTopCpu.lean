import LinuxCpu.Rv64.LinuxDifftest

/-! `top_cpu` of `linux_cpu` with `icache` itself, and the wait of the simulator
for its next commit. -/

namespace LinuxCpu.Rv64

open Simulator

structure TopCpu.Bubbles (s : TopCpu) : Prop where
  fetch : s.fetch.commit = false → s.icacheInstr = 0
  regD : s.regD.commitInfo.commit = false → s.regD.instr = 0
  regE : s.regE.commitInfo.commit = false → s.regE.opcodeInfo = 0 ∧ s.regE.branchInfo = 0

namespace TopCpu

section Edge

variable {alu : RegE → Word} {imem : Word → BitVec 32} {s : TopCpu}

theorem bubbles_reset (exec : RegE → ExecuteOut) (s : TopCpu) :
    (s.edge exec imem true).Bubbles where
  fetch _ := rfl
  regD _ := rfl
  regE _ := ⟨rfl, rfl⟩

theorem Bubbles.issue (h : s.Bubbles) (hc : s.regD.commitInfo.commit = false) (f : Forward) :
    (RegE.issue f s.regfile s.regD).opcodeInfo = 0 ∧
      (RegE.issue f s.regfile s.regD).branchInfo = 0 := by
  obtain ⟨-, -, ho, hb⟩ := Decode.zero_word
  have hi := h.regD hc
  exact ⟨(congrArg Decode.opcodeInfo hi).trans ho, (congrArg Decode.branchInfo hi).trans hb⟩

theorem Bubbles.edge (h : s.Bubbles) : (s.edge (Execute.outputs alu) imem false).Bubbles := by
  rw [edge_eq]
  constructor
  · cases Execute.needJump s.regE with
    | true => exact fun _ => rfl
    | false =>
      cases s.loadUse with
      | true => exact h.fetch
      | false => exact fun hc => by cases hc
  · cases Execute.needJump s.regE with
    | true => exact fun _ => rfl
    | false =>
      cases s.loadUse with
      | true => exact h.regD
      | false => exact h.fetch
  · cases Execute.needJump s.regE with
    | true => exact fun _ => ⟨rfl, rfl⟩
    | false =>
      cases s.loadUse with
      | true => exact fun _ => ⟨rfl, rfl⟩
      | false => exact fun hc => h.issue hc _

theorem Bubbles.edge_advance (h : s.Bubbles) (hE : s.regE.commitInfo.commit = false) :
    s.edge (Execute.outputs alu) imem false =
      assemble (s.back.next alu (s.back.issue alu s.regD)) (s.pc + 4) ⟨s.pc, true⟩ (imem s.pc)
        (RegD.load (s.fetch.out s.icacheInstr)) := by
  obtain ⟨ho, hb⟩ := h.regE hE
  apply edge_of_advance (needJump_of_zero ho hb)
  simp [loadUse, Rv64.loadUse, ho]

end Edge

end TopCpu

theorem Icache.instr_edge (imem : Word → BitVec 32) (pc : Word) (c : Icache) (victim : Option Way)
    (rst bubble stall : Bool) :
    (c.edge imem pc victim rst bubble stall).instr =
      if rst || bubble then 0
      else if !stall then (c.edge imem pc victim rst bubble stall).instr
      else c.instr := by
  cases rst <;> cases bubble <;> cases stall <;> rfl

structure LinuxTopCpu where
  pc : Word
  fetch : Fetch
  regD : RegD
  regE : RegE
  regM : RegM
  regW : RegW
  regfile : Regfile
  host : Host

namespace LinuxTopCpu

section Model

variable (exec : RegE → ExecuteOut) (imem : Host → Word → BitVec 32)

/-- `imem` is `dpi_instr_mem_read`, called in a memory that stores may change. -/
def edge (rst : Bool) (s : LinuxTopCpu) : LinuxTopCpu :=
  let x := exec s.regE
  let memdata := Memory.memdata s.regM s.host
  let d := decode s.regD.instr (forwardOf s.regE x s.regM memdata s.regW) s.regfile
  let c := ctrl x.needJump s.regE.opcodeInfo s.regE.rd d.rs1 d.rs2
  { pc := pcEdge rst c.regFStall c.regFBubble x.jumpPc x.needJump s.pc
    fetch := s.fetch.edge (imem s.host) ⟨rst, c.fetchStall, c.fetchBubble, s.pc⟩
    regD := RegD.edge rst c.regDBubble c.regDStall s.fetch.out s.regD
    regE := RegE.edge rst c.regEBubble c.regEStall d s.regD s.regE
    regM := RegM.edge rst c.regMBubble c.regMStall s.regE x s.regM
    regW := RegW.edge rst c.regWBubble c.regWStall s.regM memdata s.regW
    regfile := Regfile.edge rst (writeBack s.regW) s.regfile
    host := Memory.edge s.regM s.host }

def dut : Dut LinuxTopCpu where
  edge := edge exec imem
  commit s := s.regW.commitInfo.commit
  commitPc s := s.regW.commitInfo.pc
  commitPrePc s := s.regW.commitInfo.prePc
  commitInstr s := s.regW.commitInfo.instr
  curPc := pc
  regfile := regfile

def core (s : LinuxTopCpu) : TopCpu :=
  ⟨s.pc, s.fetch.reg, s.fetch.icache.instr, s.regD, s.regE, s.regM, s.regW, s.regfile, s.host⟩

/-- In each cycle the cache acts as some instruction memory. -/
theorem core_edge (rst : Bool) (s : LinuxTopCpu) :
    (s.edge exec imem rst).core =
      s.core.edge exec (fun _ => (s.edge exec imem rst).fetch.icache.instr) rst := by
  let q := s.edge exec imem rst
  exact congrArg (TopCpu.mk q.pc q.fetch.reg · q.regD q.regE q.regM q.regW q.regfile q.host)
    (Icache.instr_edge ..)

end Model

section Wait

variable {alu : RegE → Word} {imem : Host → Word → BitVec 32} {s : LinuxTopCpu}

theorem bubbles_edge (h : s.core.Bubbles) :
    (s.edge (Execute.outputs alu) imem false).core.Bubbles := by
  rw [core_edge]
  exact h.edge

theorem bubbles_iterate (exec : RegE → ExecuteOut) (s : LinuxTopCpu) (n : Nat) :
    ((edge (Execute.outputs alu) imem false)^[n] (s.edge exec imem true)).core.Bubbles := by
  induction n with
  | zero =>
    rw [Function.iterate_zero_apply, core_edge]
    exact TopCpu.bubbles_reset exec s.core
  | succ n ih =>
    rw [Function.iterate_succ_apply']
    exact bubbles_edge ih

theorem commitsWithin_regW (hW : s.regW.commitInfo.commit = true) :
    (dut (Execute.outputs alu) imem).CommitsWithin 0 s := .here hW

theorem commitsWithin_regM (hM : s.regM.commitInfo.commit = true) :
    (dut (Execute.outputs alu) imem).CommitsWithin 1 s := .next (commitsWithin_regW hM)

theorem commitsWithin_regE (hE : s.regE.commitInfo.commit = true) :
    (dut (Execute.outputs alu) imem).CommitsWithin 2 s :=
  .next (commitsWithin_regM ((BackEnd.commit_outputs s.regE).trans hE))

theorem edge_advance (h : s.core.Bubbles) (hE : s.regE.commitInfo.commit = false) :
    let q := s.edge (Execute.outputs alu) imem false
    q.fetch.reg.commit = true ∧ q.regD.commitInfo.commit = s.fetch.reg.commit ∧
      q.regE.commitInfo.commit = s.regD.commitInfo.commit := by
  intro q
  have hq := (core_edge (Execute.outputs alu) imem false s).trans (h.edge_advance hE)
  exact ⟨congrArg (·.fetch.commit) hq, congrArg (·.regD.commitInfo.commit) hq,
    congrArg (·.regE.commitInfo.commit) hq⟩

theorem commitsWithin_regD (h : s.core.Bubbles) (hD : s.regD.commitInfo.commit = true) :
    (dut (Execute.outputs alu) imem).CommitsWithin 3 s := by
  cases hE : s.regE.commitInfo.commit with
  | true => exact (commitsWithin_regE hE).mono (by decide)
  | false => exact .next (commitsWithin_regE ((edge_advance h hE).2.2.trans hD))

theorem commitsWithin_fetch (h : s.core.Bubbles) (hF : s.fetch.reg.commit = true) :
    (dut (Execute.outputs alu) imem).CommitsWithin 4 s := by
  cases hE : s.regE.commitInfo.commit with
  | true => exact (commitsWithin_regE hE).mono (by decide)
  | false => exact .next (commitsWithin_regD (bubbles_edge h) ((edge_advance h hE).2.1.trans hF))

theorem commitsWithin (h : s.core.Bubbles) :
    (dut (Execute.outputs alu) imem).CommitsWithin 5 s := by
  cases hE : s.regE.commitInfo.commit with
  | true => exact (commitsWithin_regE hE).mono (by decide)
  | false => exact .next (commitsWithin_fetch (bubbles_edge h) (edge_advance h hE).1)

end Wait

end LinuxTopCpu

/-- From every state behind a reset `linux_cpu` commits within five edges, so
the simulator's wait ends. -/
theorem LinuxExecute.waitCommit_returns {ρ : Type*} (imem : Host → Word → BitVec 32)
    (s₀ : LinuxTopCpu) (n : Nat) (sim : Sim LinuxTopCpu ρ) :
    let D := LinuxTopCpu.dut execute imem
    let s := (D.edge false)^[n] (D.edge true s₀)
    (∃ k ≤ 5, D.commit ((D.edge false)^[k] s) = true) ∧
      ∃ sim', D.commit sim'.dut = true ∧
        ∀ fuel, Sim.waitCommit D (fuel + 5) { sim with dut := s } = .returned sim' := by
  intro D s
  have h : D.CommitsWithin 5 s :=
    LinuxTopCpu.commitsWithin (LinuxTopCpu.bubbles_iterate execute s₀ n)
  exact ⟨h, Sim.waitCommit_of_commitsWithin { sim with dut := s } h⟩

end LinuxCpu.Rv64
