import LinuxCpu.RiscV.Decode
import LinuxCpu.Rv64.IsaTopCpu
import LinuxCpu.Rv64.LinuxDifftest

namespace LinuxCpu.Simulator

open RiscV

/-- The reference shows the state of a hart, and one call of
`ref_difftest_exec(1)` is one instruction the environment has no part in. -/
structure Ref.Executes {ρ : Type*} (R : Ref ρ) (imem : BitVec 64 → BitVec 32)
    (view : ρ → State 64) : Prop where
  regcpy : ∀ r, R.regcpy r = ⟨(view r).regs, (view r).pc⟩
  exec : ∀ r (i : Instr) q, imem (view r).pc = i.encode → i.exec (view r) = some q → view (R.exec 1 r) = q

def hart (imem : BitVec 64 → BitVec 32) : Ref (State 64) where
  exec n := (fun q => ((Instr.decode (imem q.pc)).bind (·.exec q)).getD q)^[n]
  regcpy q := ⟨q.regs, q.pc⟩

theorem hart_executes (imem : BitVec 64 → BitVec 32) : (hart imem).Executes imem id where
  regcpy _ := rfl
  exec r i q hf hq := by
    change ((Instr.decode (imem r.pc)).bind (·.exec r)).getD r = q
    have hf : imem r.pc = i.encode := hf
    rw [hf, Instr.decode_encode, Option.bind_some]
    exact congrArg (·.getD r) hq

namespace Sim

variable {σ ρ : Type*} {D : Dut σ} {R : Ref ρ} {write : σ → Option (BitVec 5 × BitVec 64)}
  {s₀ s : Sim σ ρ} {cs : List Retired} {c : Retired} {m fuel : Nat}

theorem Handled.execute_ebreak (h : Handled D R write s₀ cs s) (hf : m ≤ fuel)
    (hcs : cs ++ [c] <+: (D.machine write).trace m s₀.dut) (he : c.instr = 0x00100073) (n : Nat) :
    ∃ t s', execute D R fuel (n + 1) s = .returned s' ∧ s'.state = .simEnd ∧
      s'.dut = (D.machine write).after t s₀.dut ∧ (D.machine write).trace t s₀.dut = cs ∧
      s'.ref = s.ref ∧ s'.checks = s.checks ∧
      s'.itrace = s.itrace ++ [(c.pc, c.instr.setWidth 64)] := by
  obtain ⟨t, ht, -, hdut, -⟩ := h.cycles
  have hlt : ((D.machine write).trace t s₀.dut).length <
      ((D.machine write).trace m s₀.dut).length := by
    rw [ht]
    exact Nat.lt_of_lt_of_le (by simp) hcs.length_le
  obtain ⟨k, o, hkm, hnone, hsome, hk⟩ := (D.machine write).exists_next hlt
  have htrace : (D.machine write).trace (k + t + 1) s₀.dut = cs ++ [o] := by
    rw [Clocked.trace_succ_of_some _ (by rw [Clocked.after_add]; exact hsome), hk, ht]
  have ho : cs ++ [o] = cs ++ [c] := by
    have hpre := (D.machine write).trace_le (Nat.succ_le_of_lt hkm) s₀.dut
    rw [Nat.succ_eq_add_one, htrace] at hpre
    exact (List.prefix_of_prefix_length_le hpre hcs (by simp)).eq_of_length (by simp)
  obtain rfl : o = c := List.singleton_inj.mp (List.append_cancel_left ho)
  rw [← hdut] at hnone hsome
  obtain ⟨-, hpc, hinstr, -⟩ := commit_of_some hsome
  have hkf : k ≤ fuel := by omega
  rw [execute, waitCommit_eq hkf s hnone hsome]
  simp only [hpc, hinstr, he, if_true]
  exact ⟨k + t, _, rfl, rfl, by rw [instrTrace, hdut, Clocked.after_add], hk.trans ht, rfl, rfl,
    rfl⟩

end Sim

end LinuxCpu.Simulator

namespace LinuxCpu.Rv64

open RiscV Simulator

theorem Regfile.edge_zero (wb : Regfile.WriteBack) (regfile : Regfile) :
    Regfile.edge false wb regfile 0 = regfile 0 := by
  rw [Regfile.edge, if_neg Bool.false_ne_true]
  split
  · next h =>
    rw [Bool.and_eq_true, bne_iff_ne] at h
    exact Function.update_of_ne h.2.symm ..
  · rfl

theorem Regfile.regdata_of_zero {regfile : Regfile} (h : regfile 0 = 0) :
    regfile.regdata = regfile := by
  funext r
  rw [regdata]
  split
  · next hr => rw [hr, h]
  · rfl

namespace Seq

variable {alu : RegE → Word} {imem : Word → BitVec 32} {ok : Instr → State 64 → Prop} {ρ : Type*}
  {R : Ref ρ} {view : ρ → State 64} {t : Seq}

theorem regfile_zero (h : t.regfile 0 = 0) (n : Nat) :
    ((Seq.machine (Execute.outputs alu) imem).after n t).regfile 0 = 0 := by
  induction n with
  | zero => exact h
  | succ n ih =>
    rw [Stream.after_succ]
    exact (Regfile.edge_zero ..).trans ih

def Admits (ok : Instr → State 64 → Prop) (i : Instr) (q : State 64) : Prop :=
  (ok i q ∧ (i.exec q).isSome) ∧ Instr.InMemory i q

theorem view_run (hc : Computes alu ok) (hR : R.Executes imem view)
    (h : Run (imem ·.pc) (Admits ok) a rs a') (t : Seq) (ht : t.arch = a) {r : ρ}
    (hr : view r = a) {j : Nat} (hj : j ≤ rs.length) :
    view ((R.exec 1)^[j] r) = ((Seq.machine (Execute.outputs alu) imem).after j t).arch := by
  induction h generalizing t r j with
  | nil =>
    cases Nat.le_zero.mp hj
    exact hr.trans ht.symm
  | cons hs _ ih =>
    subst ht
    cases j with
    | zero => exact hr
    | succ j =>
      obtain ⟨i, hf, ⟨⟨hi, he⟩, hm⟩, rfl⟩ := hs
      obtain ⟨q, hq⟩ := Option.isSome_iff_exists.mp he
      have hstep : i.step t.arch = q := by rw [Instr.step, hq, Option.getD_some]
      rw [Function.iterate_succ_apply]
      refine ih (t.next (Execute.outputs alu) imem) (arch_next hf hm (hc hf hi)) ?_
        (Nat.le_of_succ_le_succ hj)
      rw [hstep]
      exact hR.exec r i q (hr ▸ hf) (hr ▸ hq)

theorem not_ebreak (h : Run (imem ·.pc) (Admits ok) a rs a') :
    ∀ x ∈ rs, x.instr ≠ Instr.ebreak.encode := by
  induction h with
  | nil => exact nofun
  | cons hs _ ih =>
    obtain ⟨i, hf, ⟨⟨-, he⟩, -⟩, rfl⟩ := hs
    rintro x (_ | ⟨_, hx⟩)
    · intro hb
      cases Instr.encode_injective (hf.symm.trans hb)
      cases he
    · exact ih x hx

end Seq

namespace TopCpu

variable {alu : RegE → Word} {imem : Word → BitVec 32} {ok : Instr → State 64 → Prop} {ρ : Type*}
  {R : Ref ρ} {view : ρ → State 64} {s : TopCpu} {t : Seq}

theorem regcpy_run (hc : Computes alu ok) (hR : R.Executes imem view)
    (h : Run (imem ·.pc) (Seq.Admits ok) t.arch rs a) (h0 : t.regfile 0 = 0) {r : ρ}
    (hr : view r = t.arch) {j : Nat} (hj : j ≤ rs.length) :
    R.regcpy ((R.exec 1)^[j] r) = (Seq.ref (Execute.outputs alu) imem).regcpy
      (((Seq.ref (Execute.outputs alu) imem).exec 1)^[j] t) := by
  have hz : ((Seq.machine (Execute.outputs alu) imem).after j t).regfile.regdata = _ :=
    Regfile.regdata_of_zero (Seq.regfile_zero h0 j)
  rw [hR.regcpy, Seq.view_run hc hR h t rfl hr hj]
  change _ = CpuState.mk ((Seq.machine (Execute.outputs alu) imem).after j t).regfile _
  rw [← hz]
  rfl

theorem checks_pass_run (hs : Stable alu) (hc : Computes alu ok) (hR : R.Executes imem view)
    (h : Run (imem ·.pc) (Seq.Admits ok) t.arch rs a) (ht : s.Tracks alu imem t)
    (h0 : t.regfile 0 = 0) {r : ρ} (hr : view r = t.arch) {cs : List Retired} {m : Nat}
    (hcs : cs <+: ((dut (Execute.outputs alu) imem).machine write).trace m s)
    (hl : cs.length ≤ rs.length) : ∀ k ∈ R.checks s.regfile r cs, ¬ k.Differs := by
  have hchecks : R.checks s.regfile r cs =
      (Seq.ref (Execute.outputs alu) imem).checks s.regfile t cs := by
    apply List.ext_getElem
    · rw [Ref.length_checks, Ref.length_checks]
    · intro i hi _
      rw [Ref.length_checks] at hi
      have hcpy := regcpy_run hc hR h h0 hr (Nat.le_trans hi hl)
      simp only [Ref.checks, List.getElem_mapIdx]
      rw [hcpy]
  rw [hchecks]
  exact checks_pass hs ht hcs

theorem retired_run (hs : Stable alu) (hc : Computes alu ok) (hok : ∀ q, ok .ebreak q)
    (h : Run (imem ·.pc) (Seq.Admits ok) (s.edge (Execute.outputs alu) imem true).reset.arch rs a)
    (hb : imem a.pc = Instr.ebreak.encode) :
    ∃ n ≤ 6 * (rs.length + 1), ∃ cs c,
      ((dut (Execute.outputs alu) imem).machine write).trace (n + 1)
        (s.edge (Execute.outputs alu) imem true) = cs ++ [c] ∧
      cs.map Retired.toCommit = rs.map Retirement.commit ∧
      c.toCommit = ⟨a.pc, Instr.ebreak.encode, a.pc + 4⟩ := by
  have hrun : Run (imem ·.pc) (fun i q => ok i q ∧ Instr.InMemory i q)
      (s.edge (Execute.outputs alu) imem true).reset.arch
      (rs ++ [⟨a.pc, imem a.pc, (Instr.step .ebreak a).pc⟩]) (Instr.step .ebreak a) :=
    (h.mono fun i q hq => ⟨hq.1.1, hq.2⟩).append (.single ⟨.ebreak, hb, ⟨hok a, trivial⟩, rfl⟩)
  obtain ⟨n, hn, ht, -⟩ := commits_run hs hc (Execute.outputs alu) s hrun
  rw [List.length_append, List.length_singleton] at hn
  rw [machine_eq_map, Clocked.trace_map, List.map_append, List.map_eq_append_iff] at ht
  obtain ⟨cs, l, htrace, hcs, hl⟩ := ht
  obtain ⟨c, rfl, hc⟩ := List.map_eq_singleton_iff.mp hl
  refine ⟨n, hn, cs, c, htrace, hcs, hc.trans ?_⟩
  rw [hb]
  rfl

/-- A run up to an `ebreak` ends the simulation without a report. -/
theorem execute_run (hs : Stable alu) (hc : Computes alu ok) (hok : ∀ q, ok .ebreak q)
    (hR : R.Executes imem view) (s₀ : Sim TopCpu ρ)
    (hdut : s₀.dut = s.edge (Execute.outputs alu) imem true)
    (hr : view s₀.ref = s₀.dut.reset.arch)
    (h : Run (imem ·.pc) (Seq.Admits ok) (view s₀.ref) rs a)
    (hb : imem a.pc = Instr.ebreak.encode) {n fuel : Nat} (hn : rs.length < n)
    (hf : 6 * (rs.length + 1) < fuel) :
    ∃ s', Sim.execute (dut (Execute.outputs alu) imem) R fuel n s₀ = .returned s' ∧
      s'.state = .simEnd ∧ view s'.ref = a ∧ s'.dut.regfile = a.regs ∧
      s'.itrace = s₀.itrace ++ (rs.map fun x => (x.pc, x.instr.setWidth 64)) ++
        [(a.pc, 0x00100073)] ∧
      s'.checks.length = s₀.checks.length + rs.length := by
  have ht : s₀.dut.Tracks alu imem s₀.dut.reset := by
    rw [hdut]
    exact tracks_reset _ s
  have h0 : s₀.dut.reset.regfile 0 = 0 := by
    rw [hdut]
    exact Function.update_self 0 0 s.regfile
  rw [hr] at h
  obtain ⟨m, hm, cs, c, htrace, hcs, hce⟩ := retired_run hs hc hok (hdut ▸ h) hb
  rw [← hdut] at htrace
  have hl : cs.length = rs.length := by
    have := congrArg List.length hcs
    rwa [List.length_map, List.length_map] at this
  have hpre : cs <+: ((dut (Execute.outputs alu) imem).machine write).trace (m + 1) s₀.dut :=
    htrace ▸ List.prefix_append ..
  have hne (x : Retired) (hx : x ∈ cs) : x.instr ≠ 0x00100073 := by
    have hx : x.toCommit ∈ rs.map Retirement.commit := hcs ▸ List.mem_map_of_mem hx
    obtain ⟨y, hy, hyx⟩ := List.mem_map.mp hx
    exact (congrArg Commit.instr hyx) ▸ Seq.not_ebreak h y hy
  obtain ⟨s₁, hs₁, hrun⟩ := Sim.execute_add (R := R) s₀ (writesOnCommit hs ht)
    (Nat.le_trans (Nat.succ_le_succ hm) hf) hpre hne
    (checks_pass_run hs hc hR h ht h0 hr hpre hl.le)
  obtain ⟨k, s₂, hend, hstate, hdut₂, hk, href, hchecks, hitrace⟩ := hs₁.execute_ebreak
    (Nat.le_trans (Nat.succ_le_succ hm) hf) (htrace ▸ List.prefix_rfl)
    (congrArg Commit.instr hce) (n - rs.length - 1)
  have hreg := ((stuttering hs).run ht k).2.back.regfile
  obtain ⟨-, ha⟩ := Seq.run_arch hc (h.mono fun i q hq => ⟨hq.1.1, hq.2⟩) s₀.dut.reset rfl
  refine ⟨s₂, ?_, hstate, ?_, ?_, ?_, ?_⟩
  · rw [← hend, ← hrun, hl]
    congr 1
    omega
  · rw [href, hs₁.ref, hl, Seq.view_run hc hR h s₀.dut.reset rfl hr (Nat.le_refl _)]
    exact ha
  · have hlen : ((machine (Execute.outputs alu) imem).trace k s₀.dut).length = rs.length := by
      rw [machine_eq_map, Clocked.trace_map, hk, List.length_map, hl]
    rw [hlen] at hreg
    rw [hdut₂, ← ha]
    exact hreg.trans (Regfile.regdata_of_zero (Seq.regfile_zero h0 _)).symm
  · have hmap : (cs.map fun c => (c.pc, c.instr.setWidth 64)) =
        rs.map fun x => (x.pc, x.instr.setWidth 64) := by
      have := congrArg (List.map fun c : Commit => (c.pc, c.instr.setWidth 64)) hcs
      rwa [List.map_map, List.map_map] at this
    rw [hitrace, hs₁.itrace, hmap]
    congr
    · exact congrArg Commit.pc hce
    · exact congrArg (fun c : Commit => c.instr.setWidth 64) hce
  · rw [hchecks, hs₁.checks, List.length_append, Ref.length_checks, hl]

end TopCpu

/-- From its reset on, the simulator runs `linux_cpu` in step with the reference
until an `ebreak` ends the simulation: every instruction is compared, none of the
comparisons fails. -/
theorem LinuxExecute.cpuExec_ends {ρ : Type*} (imem : Word → BitVec 32) (R : Ref ρ)
    (view : ρ → State 64) (s : Sim TopCpu ρ) (rs : List (Retirement 64)) (a : State 64)
    (n fuel : Nat) (hR : R.Executes imem view) :
    let D := TopCpu.dut execute imem
    let s₁ := Sim.updateCpuState D (Sim.npcReset D 1 s)
    Sim.npcInit D s = .returned s₁ ∧
      (view s₁.ref = ⟨s₁.cpu.pc, s₁.cpu.gpr, s₁.dut.host.pmem.guest⟩ →
        Run (imem ·.pc) (Seq.Admits Implements) (view s₁.ref) rs a →
        imem a.pc = Instr.ebreak.encode → rs.length < n → 6 * (rs.length + 1) < fuel →
        s.state ≠ .simEnd → s.state ≠ .simAbort →
        ∃ s', Sim.cpuExec D R fuel n s₁ = .returned s' ∧ s'.state = .simEnd ∧
          view s'.ref = a ∧ s'.dut.regfile = a.regs ∧
          s'.itrace = s.itrace ++ (rs.map fun x => (x.pc, x.instr.setWidth 64)) ++
            [(a.pc, 0x00100073)] ∧
          s'.checks.length = s.checks.length + rs.length) := by
  intro D s₁
  have hinit : Sim.npcInit D s = .returned s₁ := by
    rw [Sim.npcInit]
    exact if_neg fun hpc => hpc rfl
  refine ⟨hinit, fun hv h hb hn hf he ha => ?_⟩
  have h0 : s₁.dut.reset.regfile 0 = 0 := Function.update_self 0 0 s.dut.regfile
  have hr : view s₁.ref = s₁.dut.reset.arch :=
    hv.trans (congrArg (State.mk _ · _) (Regfile.regdata_of_zero h0).symm)
  obtain ⟨s', hs', hend, hrest⟩ := TopCpu.execute_run aluResult_stable aluResult_result
    (fun _ => nofun) hR { s₁ with state := .simRunning } rfl hr h hb hn hf
  refine ⟨s', ?_, hend, hrest⟩
  have hstate : s₁.state = s.state := rfl
  rw [Sim.cpuExec, hstate]
  cases hs : s.state with
  | simEnd => exact absurd hs he
  | simAbort => exact absurd hs ha
  | _ =>
    have hs' : Sim.execute D R fuel n { s₁ with state := .simRunning } = .returned s' := hs'
    simp only [hs', hend]

theorem LinuxExecute.cpuExec_ends_addi :
    let imem : Word → BitVec 32 := fun a =>
      if a = 0x80000000 then 0x00500093 else if a = 0x80000004 then 0x00108133 else 0x00100073
    let D := TopCpu.dut execute imem
    let d := TopCpu.zero.edge execute imem true
    let s : Sim TopCpu (State 64) :=
      ⟨TopCpu.zero, 0, ⟨fun _ => 0, 0⟩, ⟨d.pc, d.regfile, d.host.pmem.guest⟩, .simStop, [], []⟩
    ∃ s', Sim.cpuExec D (hart imem) 19 3 (Sim.updateCpuState D (Sim.npcReset D 1 s)) =
        .returned s' ∧
      s'.state = .simEnd ∧ s'.dut.regfile 2 = 10 ∧
      s'.itrace = [(0x80000000, 0x00500093), (0x80000004, 0x00108133), (0x80000008, 0x00100073)] ∧
      s'.checks.length = 2 := by
  intro imem D d s
  obtain ⟨s', hs', hend, -, hr, hi, hc⟩ := (cpuExec_ends imem (hart imem) id s
    [⟨0x80000000, 0x00500093, 0x80000004⟩, ⟨0x80000004, 0x00108133, 0x80000008⟩] _ 3 19
    (hart_executes imem)).2 rfl
    (.cons ⟨.opImm .addi 1 0 5, by decide, ⟨⟨nofun, rfl⟩, trivial⟩, rfl⟩
      (.cons ⟨.opReg .add 2 1 1, by decide, ⟨⟨nofun, rfl⟩, trivial⟩, rfl⟩ .nil))
    (by decide) (by decide) (by decide) nofun nofun
  exact ⟨s', hs', hend, (congrFun hr 2).trans (by decide +kernel), hi, hc⟩

end LinuxCpu.Rv64
