import LinuxCpu.Rv64.IsaRefine
import LinuxCpu.Rv64.LinuxTopCpu

namespace LinuxCpu.Rv64

open RiscV Simulator

namespace TopCpu

variable {alu : RegE → Word} {imem : Word → BitVec 32} {ok : Instr → State 64 → Prop}

def wait (s : TopCpu) : Nat :=
  if s.regW.commitInfo.commit then 0
  else if s.regM.commitInfo.commit then 1
  else if s.regE.commitInfo.commit then 2
  else if s.regD.commitInfo.commit then 3
  else if s.fetch.commit then 4
  else 5

theorem wait_le (s : TopCpu) : s.wait ≤ 5 := by
  rw [wait]
  split_ifs <;> decide

theorem wait_edge (h : s.Bubbles) (hp : (machine (Execute.outputs alu) imem).port s = none) :
    (s.edge (Execute.outputs alu) imem false).wait < s.wait := by
  have hW : s.regW.commitInfo.commit = false := by
    cases hc : s.regW.commitInfo.commit with
    | false => rfl
    | true => cases (if_pos hc).symm.trans hp
  have hwM : (s.edge (Execute.outputs alu) imem false).regW.commitInfo.commit =
      s.regM.commitInfo.commit := rfl
  have hwE : (s.edge (Execute.outputs alu) imem false).regM.commitInfo.commit =
      s.regE.commitInfo.commit := BackEnd.commit_outputs s.regE
  cases hE : s.regE.commitInfo.commit with
  | true =>
    simp only [wait, hW, hwM, hwE, hE, Bool.false_eq_true, if_false, if_true]
    split_ifs <;> decide
  | false =>
    have he : s.edge (Execute.outputs alu) imem false = _ := h.edge_advance hE
    have hwD : (s.edge (Execute.outputs alu) imem false).regE.commitInfo.commit =
        s.regD.commitInfo.commit := by rw [he]; rfl
    have hwF : (s.edge (Execute.outputs alu) imem false).regD.commitInfo.commit =
        s.fetch.commit := by rw [he]; rfl
    have hF : (s.edge (Execute.outputs alu) imem false).fetch.commit = true := by rw [he]; rfl
    simp only [wait, hW, hwM, hwE, hE, hwD, hwF, hF, Bool.false_eq_true, if_false, if_true]
    split_ifs <;> decide

theorem progress : (machine (Execute.outputs alu) imem).Progress Bubbles wait where
  keep h := h.edge
  down h hp := wait_edge h hp

theorem commits_run (hs : Stable alu) (hc : Computes alu ok) (exec : RegE → ExecuteOut)
    (s₀ : TopCpu)
    (h : Run (imem ·.pc) (fun i s => ok i s ∧ Instr.InMemory i s)
      (s₀.edge exec imem true).reset.arch rs a) :
    let M := machine (Execute.outputs alu) imem
    let s := s₀.edge exec imem true
    ∃ n ≤ 6 * rs.length, M.trace (n + 1) s = rs.map Retirement.commit ∧
      (M.after (n + 1) s).regfile.regdata = a.regs ∧
      (M.after n s).host.pmem.guest = a.mem := by
  intro M s
  have ht : s.Tracks alu imem s.reset := tracks_reset exec s₀
  obtain ⟨htake, ha⟩ := Seq.run_arch hc h s.reset rfl
  obtain ⟨n, hn, hl⟩ := progress.exists_trace_succ wait_le
    (bubbles_reset exec s₀ : s.Bubbles) (M := M) rfl rs.length
  refine ⟨n, hn, ?_, ?_, ?_⟩
  · rw [((stuttering hs).run ht (n + 1)).1, hl, htake]
  · have hr := ((stuttering hs).run ht (n + 1)).2.back.regfile
    rw [hl] at hr
    rw [← ha]
    exact congrArg Regfile.regdata hr
  · have hh := ((stuttering hs).run ht n).2.back.host_eq
    rw [← hl, M.trace_succ, List.length_append, Nat.add_comm, Stream.after_add] at ha
    rw [← ha]
    exact congrArg (·.pmem.guest) hh

def zero : TopCpu where
  pc := 0
  fetch := ⟨0, false⟩
  icacheInstr := 0
  regD := RegD.clear
  regE := RegE.issue .idle (fun _ => 0) RegD.clear
  regM := RegM.clear
  regW := RegW.clear
  regfile _ := 0
  host := ⟨fun _ => 0, []⟩

end TopCpu

/-- `linux_cpu` commits every run of RV64I, in order and with its values, at six
cycles an instruction at most. -/
theorem LinuxExecute.topCpu_executes (imem : Word → BitVec 32) (s₀ : TopCpu)
    (rs : List (Retirement 64)) (a : State 64) :
    let M := TopCpu.machine execute imem
    let s := s₀.edge execute imem true
    Run (imem ·.pc) (fun i q => Implements i q ∧ Instr.InMemory i q)
        ⟨0x80000000, s.regfile.regdata, s.host.pmem.guest⟩ rs a →
      ∃ n ≤ 6 * rs.length, M.trace (n + 1) s = rs.map Retirement.commit ∧
        (M.after (n + 1) s).regfile.regdata = a.regs ∧ (M.after n s).host.pmem.guest = a.mem :=
  fun h => TopCpu.commits_run aluResult_stable aluResult_result execute s₀ h

theorem LinuxExecute.topCpu_executes_addi :
    let imem : Word → BitVec 32 := fun a => if a = 0x80000000 then 0x00500093 else 0x00108133
    let M := TopCpu.machine execute imem
    let s := TopCpu.zero.edge execute imem true
    ∃ n ≤ 12, M.trace (n + 1) s =
        [⟨0x80000000, 0x00500093, 0x80000004⟩, ⟨0x80000004, 0x00108133, 0x80000008⟩] ∧
      (M.after (n + 1) s).regfile.regdata 2 = 10 := by
  intro imem M s
  obtain ⟨n, hn, ht, hr, -⟩ := topCpu_executes imem TopCpu.zero
    [⟨0x80000000, 0x00500093, 0x80000004⟩, ⟨0x80000004, 0x00108133, 0x80000008⟩] _
    (.cons ⟨.opImm .addi 1 0 5, by decide, ⟨nofun, trivial⟩, rfl⟩
      (.cons ⟨.opReg .add 2 1 1, by decide, ⟨nofun, trivial⟩, rfl⟩ .nil))
  exact ⟨n, hn, ht, (congrFun hr 2).trans (by decide +kernel)⟩

/-- `cache-cpu` commits every run of what it implements of RV64IM. -/
theorem MExecute.cacheCpu_executes (D : Divider) (imem : Word → BitVec 32) (s₀ : TopCpu)
    (rs : List (Retirement 64)) (a : State 64) :
    let M := TopCpu.machine (execute D) imem
    let s := s₀.edge (execute D) imem true
    Run (imem ·.pc) (fun i q => Implements i q ∧ Instr.InMemory i q)
        ⟨0x80000000, s.regfile.regdata, s.host.pmem.guest⟩ rs a →
      ∃ n ≤ 6 * rs.length, M.trace (n + 1) s = rs.map Retirement.commit ∧
        (M.after (n + 1) s).regfile.regdata = a.regs ∧ (M.after n s).host.pmem.guest = a.mem :=
  fun h => TopCpu.commits_run (aluResult_stable D) (aluResult_result D) (execute D) s₀ h

theorem MExecute.cacheCpu_executes_mulhu :
    let imem : Word → BitVec 32 := fun a => if a = 0x80000000 then 0x00500093 else 0x0210b133
    let M := TopCpu.machine (execute .zero) imem
    let s := TopCpu.zero.edge (execute .zero) imem true
    ∃ n ≤ 12, M.trace (n + 1) s =
        [⟨0x80000000, 0x00500093, 0x80000004⟩, ⟨0x80000004, 0x0210b133, 0x80000008⟩] ∧
      (M.after (n + 1) s).regfile.regdata 2 = 0 := by
  intro imem M s
  obtain ⟨n, hn, ht, hr, -⟩ := cacheCpu_executes .zero imem TopCpu.zero
    [⟨0x80000000, 0x00500093, 0x80000004⟩, ⟨0x80000004, 0x0210b133, 0x80000008⟩] _
    (.cons ⟨.opImm .addi 1 0 5, by decide, ⟨nofun, trivial⟩, rfl⟩
      (.cons ⟨.mulDiv .mulhu 2 1 1, by decide, ⟨trivial, trivial⟩, rfl⟩ .nil))
  exact ⟨n, hn, ht, (congrFun hr 2).trans (by decide +kernel)⟩

end LinuxCpu.Rv64
