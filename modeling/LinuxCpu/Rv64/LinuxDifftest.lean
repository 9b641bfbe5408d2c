import LinuxCpu.Rv64.LinuxRefine
import LinuxCpu.Simulator.SimCorrect

namespace LinuxCpu.Rv64

open Simulator

def Regfile.WriteBack.write (wb : Regfile.WriteBack) : Option (BitVec 5 × Word) :=
  if wb.regWen && wb.rd != 0 then some (wb.rd, wb.data) else none

def Seq.ref (exec : RegE → ExecuteOut) (imem : Word → BitVec 32) : Ref Seq where
  exec n := (Seq.next exec imem)^[n]
  regcpy t := ⟨t.regfile, t.pc⟩

namespace TopCpu

section Model

variable (exec : RegE → ExecuteOut) (imem : Word → BitVec 32)

def dut : Dut TopCpu where
  edge := TopCpu.edge exec imem
  commit s := s.regW.commitInfo.commit
  commitPc s := s.regW.commitInfo.pc
  commitPrePc s := s.regW.commitInfo.prePc
  commitInstr s := s.regW.commitInfo.instr
  curPc := pc
  regfile := regfile

def write (s : TopCpu) : Option (BitVec 5 × Word) := (writeBack s.regW).write

theorem machine_eq_map :
    TopCpu.machine exec imem = ((dut exec imem).machine write).map Retired.toCommit := by
  have hport : (TopCpu.machine exec imem).port =
      (((dut exec imem).machine write).map Retired.toCommit).port := by
    funext s
    change s.regW.commitInfo.port =
      Option.map Retired.toCommit (if s.regW.commitInfo.commit then _ else _)
    rw [CommitInfo.port]
    cases s.regW.commitInfo.commit <;> rfl
  exact congrArg (Clocked.mk (TopCpu.edge exec imem false)) hport

end Model

theorem regfile_edge (wb : Regfile.WriteBack) (regfile : Regfile) (c : Commit) :
    Regfile.edge false wb regfile = Retired.apply regfile ⟨c, wb.write⟩ := by
  rw [Regfile.edge, Regfile.WriteBack.write, Retired.apply, if_neg Bool.false_ne_true]
  cases wb.regWen && wb.rd != 0 <;> rfl

variable {alu : RegE → Word} {imem : Word → BitVec 32} {s : TopCpu} {t : Seq}

theorem writesOnCommit (ha : Stable alu) (h : s.Tracks alu imem t) :
    (dut (Execute.outputs alu) imem).WritesOnCommit write s := by
  intro n
  have hR := ((stuttering ha).run h n).2
  rw [Clocked.after_succ]
  change Tracks alu imem (((dut (Execute.outputs alu) imem).machine write).after n s) _ at hR
  generalize ((dut (Execute.outputs alu) imem).machine write).after n s = q at hR
  change Regfile.edge false (writeBack q.regW) q.regfile = _
  cases hc : q.regW.commitInfo.commit with
  | true =>
    have hp : ((dut (Execute.outputs alu) imem).machine write).port q =
        some ⟨⟨q.regW.commitInfo.pc, q.regW.commitInfo.instr, q.regW.commitInfo.prePc⟩, q.write⟩ :=
      if_pos hc
    rw [hp]
    exact regfile_edge _ _ _
  | false =>
    have hv : ¬ q.regW.commitInfo.commit := by
      rw [hc]
      exact Bool.false_ne_true
    have hp : ((dut (Execute.outputs alu) imem).machine write).port q = none := if_neg hv
    have hw : q.regW.regWen = false := hR.back.regW_idle hv
    rw [hp, Regfile.edge, if_neg Bool.false_ne_true, writeBack, hw]
    rfl

theorem commits_eq (ha : Stable alu) (h : s.Tracks alu imem t) {cs : List Retired} {m : Nat}
    (hcs : cs <+: ((dut (Execute.outputs alu) imem).machine write).trace m s) :
    cs.map Retired.toCommit = (Seq.machine (Execute.outputs alu) imem).take cs.length t ∧
      cs.foldl Retired.apply s.regfile =
        ((Seq.machine (Execute.outputs alu) imem).after cs.length t).regfile := by
  obtain ⟨n, rfl⟩ := Clocked.exists_trace_eq _ hcs
  obtain ⟨htrace, hR⟩ := (stuttering ha).run h n
  have hlen : (((dut (Execute.outputs alu) imem).machine write).trace n s).length =
      ((TopCpu.machine (Execute.outputs alu) imem).trace n s).length := by
    rw [machine_eq_map, Clocked.trace_map, List.length_map]
  have hregs : ((TopCpu.machine (Execute.outputs alu) imem).after n s).regfile =
      (((dut (Execute.outputs alu) imem).machine write).trace n s).foldl Retired.apply s.regfile :=
    (writesOnCommit ha h).after n
  rw [hlen, ← Clocked.trace_map, ← machine_eq_map, ← hregs]
  exact ⟨htrace, hR.back.regfile⟩

theorem checks_pass (ha : Stable alu) (h : s.Tracks alu imem t) {cs : List Retired} {m : Nat}
    (hcs : cs <+: ((dut (Execute.outputs alu) imem).machine write).trace m s) :
    ∀ k ∈ (Seq.ref (Execute.outputs alu) imem).checks s.regfile t cs, ¬ k.Differs := by
  intro k hk
  obtain ⟨i, hi, rfl⟩ := List.mem_mapIdx.mp hk
  obtain ⟨hcommits, -⟩ := commits_eq ha h hcs
  have htake : cs.take (i + 1) <+: cs := List.take_prefix _ cs
  have hregs := (commits_eq ha h (htake.trans hcs)).2
  rw [List.length_take_of_le hi] at hregs
  have hc : (cs[i]).toCommit = (Seq.machine (Execute.outputs alu) imem).out
      ((Seq.machine (Execute.outputs alu) imem).after i t) := by
    have hget := congrArg (·[i]?) hcommits
    simpa [Stream.take, hi] using hget
  have hpre : (cs[i]).prePc = ((Seq.machine (Execute.outputs alu) imem).after (i + 1) t).pc := by
    rw [hc, Stream.after_succ]
    rfl
  rintro (hpc | ⟨r, hr⟩)
  · exact hpc hpre
  · exact hr (congrFun hregs r)

end TopCpu

theorem LinuxExecute.execute_passes (imem : Word → BitVec 32) (s : Sim TopCpu Seq)
    (n m fuel : Nat) :
    let D := TopCpu.dut execute imem
    let R := Seq.ref execute imem
    let s₀ := { Sim.npcReset D 1 s with ref := (Sim.npcReset D 1 s).dut.reset }
    let cs := ((D.machine TopCpu.write).trace m s₀.dut).take n
    cs.length = n → m ≤ fuel → (∀ c ∈ cs, c.instr ≠ 0x00100073) →
      ∃ s', Sim.execute D R fuel n s₀ = .returned s' ∧ Sim.Handled D R TopCpu.write s₀ cs s' := by
  intro D R s₀ cs hn hf he
  have h : s₀.dut.Tracks aluResult imem s₀.ref := TopCpu.tracks_reset execute s.dut
  have hcs : cs <+: (D.machine TopCpu.write).trace m s₀.dut := List.take_prefix n _
  obtain ⟨s', hs', hrun⟩ := Sim.execute_add (R := R) s₀
    (TopCpu.writesOnCommit aluResult_stable h) hf hcs he (TopCpu.checks_pass aluResult_stable h hcs)
  exact ⟨s', hn ▸ hrun 0, hs'⟩

end LinuxCpu.Rv64
