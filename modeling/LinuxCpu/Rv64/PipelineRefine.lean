import LinuxCpu.Rv64.BackEnd

/-! `top_cpu` of `pipeline_cpu`, whose registers neither stall nor flush, against
the sequential machine. -/

namespace LinuxCpu.Rv64

open Bits Simulator BackEnd

namespace Seq

variable (imem : Word → BitVec 32) (t : Seq)

def loadFeeds : Bool :=
  let e := t.regE imem
  let instr := imem (t.pc + 4)
  let opcodeInfo := Decode.opcodeInfo instr
  e.opcodeInfo.getLsbD 3 && e.rd != 0 &&
    (usesRegdata1 opcodeInfo && e.rd == Decode.rs1 instr ||
      usesRegdata2 opcodeInfo && e.rd == Decode.rs2 instr)

def Smooth : Prop := Execute.needJump (t.regE imem) = false ∧ t.loadFeeds imem = false

variable {imem} {t}

theorem loadFeeds_of_not_load (h : (Decode.opcodeInfo (imem t.pc)).getLsbD 3 = false) :
    t.loadFeeds imem = false := by
  have h : (t.regE imem).opcodeInfo.getLsbD 3 = false := h
  rw [loadFeeds, h, Bool.false_and, Bool.false_and]

theorem Smooth.not_feeds (h : t.Smooth imem) (h3 : (t.regE imem).opcodeInfo.getLsbD 3 = true)
    (h0 : (t.regE imem).rd ≠ 0) :
    (usesRegdata1 (Decode.opcodeInfo (imem (t.pc + 4))) →
        (t.regE imem).rd ≠ Decode.rs1 (imem (t.pc + 4))) ∧
      (usesRegdata2 (Decode.opcodeInfo (imem (t.pc + 4))) →
        (t.regE imem).rd ≠ Decode.rs2 (imem (t.pc + 4))) := by
  have hf := h.2
  simp only [loadFeeds, h3, bne_iff_ne.mpr h0, Bool.true_and, Bool.or_eq_false_iff] at hf
  constructor
  · intro hu he
    rw [hu, beq_iff_eq.mpr he] at hf
    cases hf.1
  · intro hu he
    rw [hu, beq_iff_eq.mpr he] at hf
    cases hf.2

end Seq

namespace PipelineCpu

variable (alu : RegE → Word) (imem : Word → BitVec 32)

def back (s : PipelineCpu) : BackEnd := ⟨s.regE, s.regM, s.regW, s.regfile, s.host⟩

def nextF (s : PipelineCpu) (t : Seq) : Word :=
  if s.regD.commitInfo.commit then s.back.nextD alu imem t + 4 else s.back.nextD alu imem t

structure Tracks (s : PipelineCpu) (t : Seq) : Prop where
  back : s.back.Tracks alu imem t
  regD : s.regD.commitInfo.commit → s.regD = RegD.load (fetchAt imem (s.back.nextD alu imem t))
  regD_idle : ¬ s.regD.commitInfo.commit → s.regD.instr = 0
  pc : s.pc = s.nextF alu imem t
  jump : s.regM.commitInfo.commit →
    s.regM.opcodeInfo.getLsbD 8 = false ∧ s.regM.opcodeInfo.getLsbD 9 = false

variable {alu} {imem} {s : PipelineCpu} {t : Seq}

theorem edge_back : (s.edge (Execute.outputs alu) imem false).back =
    s.back.next alu (s.back.issue alu s.regD) := rfl

theorem Tracks.needJump_of_smooth (h : s.Tracks alu imem t)
    (hs : s.regE.commitInfo.commit → (s.back.seqE alu imem t).Smooth imem) :
    Execute.needJump s.regE = false := by
  by_cases hv : s.regE.commitInfo.commit
  · exact (h.back.needJump hv).trans (hs hv).1
  · exact h.back.needJump_idle hv

theorem Tracks.back_issue (ha : Stable alu) (h : s.Tracks alu imem t)
    (hs : s.regE.commitInfo.commit → (s.back.seqE alu imem t).Smooth imem) :
    (s.back.next alu (s.back.issue alu s.regD)).Tracks alu imem (s.back.seqM alu imem t) := by
  refine h.back.next ha (fun hv => ?_) fun hv => issue_idle (h.regD_idle hv)
  have hd : s.regD = RegD.load (fetchAt imem (s.back.nextD alu imem t)) := h.regD hv
  rw [hd]
  apply h.back.issue ha (h.needJump_of_smooth hs) h.jump rfl
  intro h3 h0
  have hv : s.regE.commitInfo.commit := by
    by_contra hv
    rw [(h.back.regE_idle hv).2.2.1] at h3
    cases h3
  obtain ⟨_, _, he, -⟩ := h.back.regE hv
  have hp : s.back.nextD alu imem t = (s.back.seqE alu imem t).pc + 4 :=
    (if_pos hv).trans (by rw [he]; rfl)
  rw [hp, he]
  rw [he] at h3 h0
  exact (hs hv).not_feeds h3 h0

theorem Tracks.edge (ha : Stable alu) (h : s.Tracks alu imem t)
    (hs : s.regE.commitInfo.commit → (s.back.seqE alu imem t).Smooth imem) :
    (s.edge (Execute.outputs alu) imem false).Tracks alu imem (s.back.seqM alu imem t) := by
  have hj := h.needJump_of_smooth hs
  have hD : (s.back.next alu (s.back.issue alu s.regD)).nextD alu imem (s.back.seqM alu imem t) =
      s.nextF alu imem t := by
    by_cases hv : s.regD.commitInfo.commit
    · have hp : s.regD.pc = s.back.nextD alu imem t := congrArg RegD.pc (h.regD hv)
      rw [nextF, if_pos hv, ← hp]
      exact if_pos hv
    · rw [nextF, if_neg hv, h.back.nextD_eq hj, ← BackEnd.seqE_next (s.back.issue alu s.regD)]
      exact if_neg hv
  have hp : (s.edge (Execute.outputs alu) imem false).pc = s.pc + 4 :=
    if_neg (show ¬ Execute.needJump s.regE = true by rw [hj]; exact Bool.false_ne_true)
  exact
    { back := h.back_issue ha hs
      regD := fun _ => by
        rw [edge_back, hD, ← h.pc]
        rfl
      regD_idle := fun hc => absurd rfl hc
      pc := by
        rw [hp, nextF, edge_back, hD, ← h.pc]
        rfl
      jump := h.back.next_jump_bits hj (s.back.issue alu s.regD) }

structure Filled (s : PipelineCpu) (c : Nat) : Prop where
  regD : s.regD.commitInfo.commit ↔ 1 ≤ c
  regE : s.regE.commitInfo.commit ↔ 2 ≤ c
  regM : s.regM.commitInfo.commit ↔ 3 ≤ c
  regW : s.regW.commitInfo.commit ↔ 4 ≤ c

theorem Filled.edge {c : Nat} (h : s.Filled c) :
    (s.edge (Execute.outputs alu) imem false).Filled (c + 1) where
  regD := iff_of_true rfl (Nat.le_add_left 1 c)
  regE := h.regD.trans Nat.succ_le_succ_iff.symm
  regM := (iff_of_eq (congrArg (· = true) (commit_outputs s.regE))).trans
    (h.regE.trans Nat.succ_le_succ_iff.symm)
  regW := h.regM.trans Nat.succ_le_succ_iff.symm

theorem filled_reset (exec : RegE → ExecuteOut) (s : PipelineCpu) :
    (s.edge exec imem true).Filled 0 := by
  constructor <;> exact iff_of_false Bool.false_ne_true (Nat.not_succ_le_zero _)

theorem Filled.after (h : s.Filled 0) (c : Nat) :
    ((machine (Execute.outputs alu) imem).after c s).Filled c := by
  induction c with
  | zero => exact h
  | succ c ih =>
    rw [Clocked.after_succ]
    exact ih.edge

theorem tracks_reset (exec : RegE → ExecuteOut) (s : PipelineCpu) :
    (s.edge exec imem true).Tracks alu imem
      ⟨0x80000000, (s.edge exec imem true).regfile, (s.edge exec imem true).host⟩ where
  back :=
    { regfile := rfl
      host := rfl
      regW := fun hc => by cases hc
      regW_idle := fun _ => rfl
      regM := fun hc => by cases hc
      regM_idle := fun _ => ⟨rfl, rfl⟩
      regE := fun hc => by cases hc
      regE_idle := fun _ => ⟨rfl, rfl, rfl, rfl⟩ }
  regD hc := by cases hc
  regD_idle _ := rfl
  pc := rfl
  jump hc := by cases hc

theorem Filled.seqM {c : Nat} (h : s.Filled c) :
    s.back.seqM alu imem ((Seq.machine (Execute.outputs alu) imem).after (c - 4) t) =
      (Seq.machine (Execute.outputs alu) imem).after (c - 3) t := by
  by_cases hc : 4 ≤ c
  · rw [show c - 3 = c - 4 + 1 by omega, Stream.after_succ]
    exact if_pos (h.regW.mpr hc)
  · rw [show c - 3 = c - 4 by omega]
    exact if_neg fun hv => hc (h.regW.mp hv)

theorem Filled.seqE {c : Nat} (h : s.Filled c) :
    s.back.seqE alu imem ((Seq.machine (Execute.outputs alu) imem).after (c - 4) t) =
      (Seq.machine (Execute.outputs alu) imem).after (c - 2) t := by
  rw [BackEnd.seqE, h.seqM]
  by_cases hc : 3 ≤ c
  · rw [show c - 2 = c - 3 + 1 by omega, Stream.after_succ]
    exact if_pos (h.regM.mpr hc)
  · rw [show c - 2 = c - 3 by omega]
    exact if_neg fun hv => hc (h.regM.mp hv)

section Run

variable (hf : s.Filled 0) (h : s.Tracks alu imem t) (ha : Stable alu)

include hf

theorem seqM_after (c : Nat) :
    ((machine (Execute.outputs alu) imem).after c s).back.seqM alu imem
        ((Seq.machine (Execute.outputs alu) imem).after (c - 4) t) =
      (Seq.machine (Execute.outputs alu) imem).after (c + 1 - 4) t := (hf.after c).seqM

include h ha

/-- As long as the instructions behind `execute` are smooth, all stages keep
to the sequential machine; those from `regM`, from `regW` and the register file
do so a cycle longer each. -/
theorem Tracks.after (c : Nat)
    (hs : ∀ i, i + 2 < c → ((Seq.machine (Execute.outputs alu) imem).after i t).Smooth imem) :
    ((machine (Execute.outputs alu) imem).after c s).Tracks alu imem
      ((Seq.machine (Execute.outputs alu) imem).after (c - 4) t) := by
  induction c with
  | zero => exact h
  | succ c ih =>
    rw [← seqM_after hf c, Clocked.after_succ]
    apply (ih fun i hi => hs i (by omega)).edge ha
    intro hv
    have h2 := (hf.after c).regE.mp hv
    rw [(hf.after c).seqE]
    exact hs (c - 2) (by omega)

theorem Tracks.after_tracksM (c : Nat)
    (hs : ∀ i, i + 3 < c → ((Seq.machine (Execute.outputs alu) imem).after i t).Smooth imem) :
    ((machine (Execute.outputs alu) imem).after c s).back.TracksM alu imem
      ((Seq.machine (Execute.outputs alu) imem).after (c - 4) t) := by
  cases c with
  | zero => exact h.back.toTracksM
  | succ c =>
    rw [← seqM_after hf c, Clocked.after_succ]
    exact (h.after hf ha c fun i hi => hs i (by omega)).back.nextM ha _

theorem Tracks.after_tracksW (c : Nat)
    (hs : ∀ i, i + 4 < c → ((Seq.machine (Execute.outputs alu) imem).after i t).Smooth imem) :
    ((machine (Execute.outputs alu) imem).after c s).back.TracksW alu imem
      ((Seq.machine (Execute.outputs alu) imem).after (c - 4) t) := by
  cases c with
  | zero => exact h.back.toTracksW
  | succ c =>
    rw [← seqM_after hf c, Clocked.after_succ]
    exact (h.after_tracksM hf ha c fun i hi => hs i (by omega)).next _

theorem Tracks.after_regfile (c : Nat)
    (hs : ∀ i, i + 5 < c → ((Seq.machine (Execute.outputs alu) imem).after i t).Smooth imem) :
    ((machine (Execute.outputs alu) imem).after c s).regfile =
      ((Seq.machine (Execute.outputs alu) imem).after (c - 4) t).regfile := by
  cases c with
  | zero => exact h.back.regfile
  | succ c =>
    rw [← seqM_after hf c, Clocked.after_succ]
    have hw := h.after_tracksW hf ha c fun i hi => hs i (by omega)
    generalize (machine (Execute.outputs alu) imem).after c s = q at hw
    exact hw.regfile_next (issue alu q.back q.regD)

theorem Tracks.trace_eq (n : Nat)
    (hs : ∀ i, i + 5 < n → ((Seq.machine (Execute.outputs alu) imem).after i t).Smooth imem) :
    (machine (Execute.outputs alu) imem).trace n s =
      (Seq.machine (Execute.outputs alu) imem).take (n - 4) t := by
  induction n with
  | zero => rfl
  | succ n ih =>
    have hp := (h.after_tracksW hf ha n fun i hi => hs i (by omega)).port
    have hF : ((machine (Execute.outputs alu) imem).after n s).Filled n := hf.after n
    have hc := hF.regW
    by_cases h4 : 4 ≤ n
    · rw [Clocked.trace_succ_of_some _ (hp.trans (if_pos (hc.mpr h4))),
        ih fun i hi => hs i (by omega), show n + 1 - 4 = n - 4 + 1 by omega, Stream.take_succ]
    · rw [Clocked.trace_succ_of_none _ (hp.trans (if_neg fun hv => h4 (hc.mp hv))),
        ih fun i hi => hs i (by omega), show n + 1 - 4 = n - 4 by omega]

end Run

def zero : PipelineCpu where
  pc := 0
  regD := RegD.clear
  regE := RegE.issue .idle (fun _ => 0) RegD.clear
  regM := RegM.clear
  regW := RegW.clear
  regfile _ := 0
  host := ⟨fun _ => 0, []⟩

end PipelineCpu

/-- On a run without a jump and without a load in use `pipeline_cpu` commits the
sequential run, one instruction a cycle. -/
theorem MExecute.pipelineCpu_refines (D : Divider) (imem : Word → BitVec 32) (s₀ : PipelineCpu)
    (n : Nat) :
    let M := PipelineCpu.machine (execute D) imem
    let S := Seq.machine (execute D) imem
    let s := s₀.edge (execute D) imem true
    let t : Seq := ⟨0x80000000, s.regfile, s.host⟩
    (∀ i, i + 5 < n → (S.after i t).Smooth imem) →
      M.trace n s = S.take (n - 4) t ∧ (M.after n s).regfile = (S.after (n - 4) t).regfile := by
  intro M S s t hs
  have hf : s.Filled 0 := PipelineCpu.filled_reset _ s₀
  have h : s.Tracks (aluResult · D) imem t := PipelineCpu.tracks_reset _ s₀
  exact ⟨h.trace_eq hf (aluResult_stable D) n hs, h.after_regfile hf (aluResult_stable D) n hs⟩

theorem MExecute.pipelineCpu_refines_addi :
    let M := PipelineCpu.machine (execute .zero) fun _ => 0x00108093
    let S := Seq.machine (execute .zero) fun _ => 0x00108093
    let s := PipelineCpu.zero.edge (execute .zero) (fun _ => 0x00108093) true
    let t : Seq := ⟨0x80000000, s.regfile, s.host⟩
    M.trace 8 s = S.take 4 t ∧ (M.after 8 s).regfile = (S.after 4 t).regfile :=
  pipelineCpu_refines .zero (fun _ => 0x00108093) .zero 8 fun _ _ =>
    ⟨needJump_of_hot (w := 0x00108093) (k := 5) rfl rfl (by decide) (by decide),
      Seq.loadFeeds_of_not_load (by decide)⟩

/-- Behind `jal x0, 8` the instruction at the next address commits. -/
theorem MExecute.pipelineCpu_not_refines_jal :
    let imem : Word → BitVec 32 := fun a => if a = 0x80000000 then 0x0080006f else 0x00108093
    let M := PipelineCpu.machine (execute .zero) imem
    let S := Seq.machine (execute .zero) imem
    let s := PipelineCpu.zero.edge (execute .zero) imem true
    let t : Seq := ⟨0x80000000, s.regfile, s.host⟩
    ¬ M.trace 6 s = S.take (M.trace 6 s).length t := by
  decide +kernel

end LinuxCpu.Rv64
