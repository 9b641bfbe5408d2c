import LinuxCpu.Rv64.BackEnd

namespace LinuxCpu.Rv64

open Bits Simulator

namespace TopCpu

variable (alu : RegE → Word) (imem : Word → BitVec 32)

def back (s : TopCpu) : BackEnd := ⟨s.regE, s.regM, s.regW, s.regfile, s.host⟩

def nextF (s : TopCpu) (t : Seq) : Word :=
  if s.regD.commitInfo.commit then s.back.nextD alu imem t + 4 else s.back.nextD alu imem t

def nextPc (s : TopCpu) (t : Seq) : Word :=
  if s.fetch.commit then s.nextF alu imem t + 4 else s.nextF alu imem t

structure Tracks (s : TopCpu) (t : Seq) : Prop where
  back : s.back.Tracks alu imem t
  regD : s.regD.commitInfo.commit → s.regD = RegD.load (fetchAt imem (s.back.nextD alu imem t))
  regD_idle : ¬ s.regD.commitInfo.commit → s.regD.instr = 0
  fetch : s.fetch.commit → s.fetch.pc = s.nextF alu imem t ∧ s.icacheInstr = imem s.fetch.pc
  fetch_idle : ¬ s.fetch.commit → s.icacheInstr = 0
  pc : s.pc = s.nextPc alu imem t
  jump : s.regM.commitInfo.commit → s.regD.commitInfo.commit →
    s.regM.opcodeInfo.getLsbD 8 = false ∧ s.regM.opcodeInfo.getLsbD 9 = false

variable {alu} {imem} {s : TopCpu} {t : Seq}

def loadUse (s : TopCpu) : Bool :=
  Rv64.loadUse s.regE.opcodeInfo s.regE.rd (Decode.rs1 s.regD.instr) (Decode.rs2 s.regD.instr)

def assemble (b : BackEnd) (pc : Word) (fetch : RegFetch) (icacheInstr : BitVec 32) (regD : RegD) :
    TopCpu :=
  ⟨pc, fetch, icacheInstr, regD, b.regE, b.regM, b.regW, b.regfile, b.host⟩

theorem assemble_back (b : BackEnd) (pc : Word) (fetch : RegFetch) (icacheInstr : BitVec 32)
    (regD : RegD) : (assemble b pc fetch icacheInstr regD).back = b := rfl

theorem edge_eq : s.edge (Execute.outputs alu) imem false =
    assemble
      (s.back.next alu (if Execute.needJump s.regE || s.loadUse then s.regE.clear
        else s.back.issue alu s.regD))
      (pcEdge false s.loadUse false (Execute.outputs alu s.regE).jumpPc (Execute.needJump s.regE)
        s.pc)
      (RegFetch.edge false (Execute.needJump s.regE) s.loadUse s.pc s.fetch)
      (if false || Execute.needJump s.regE then 0 else if !s.loadUse then imem s.pc
        else s.icacheInstr)
      (RegD.edge false (Execute.needJump s.regE) s.loadUse (s.fetch.out s.icacheInstr) s.regD) :=
  rfl

theorem edge_of_jump (hj : Execute.needJump s.regE = true) (hl : s.loadUse = false) :
    s.edge (Execute.outputs alu) imem false =
      assemble (s.back.next alu s.regE.clear) (Execute.outputs alu s.regE).jumpPc ⟨0, false⟩ 0
        RegD.clear := by
  rw [edge_eq, hj, hl]
  rfl

theorem edge_of_loadUse (hj : Execute.needJump s.regE = false) (hl : s.loadUse = true) :
    s.edge (Execute.outputs alu) imem false =
      assemble (s.back.next alu s.regE.clear) s.pc s.fetch s.icacheInstr s.regD := by
  rw [edge_eq, hj, hl]
  rfl

theorem edge_of_advance (hj : Execute.needJump s.regE = false) (hl : s.loadUse = false) :
    s.edge (Execute.outputs alu) imem false =
      assemble (s.back.next alu (s.back.issue alu s.regD)) (s.pc + 4) ⟨s.pc, true⟩ (imem s.pc)
        (RegD.load (s.fetch.out s.icacheInstr)) := by
  rw [edge_eq, hj, hl]
  rfl

theorem Tracks.loadUse_of_jump (h : s.Tracks alu imem t) (hj : Execute.needJump s.regE = true) :
    s.loadUse = false := by
  cases hl : s.regE.opcodeInfo.getLsbD 3 with
  | false => rw [loadUse, Rv64.loadUse, hl, Bool.and_false]
  | true => cases (h.back.needJump_of_load hl).symm.trans hj

theorem Tracks.back_bubble (ha : Stable alu) (h : s.Tracks alu imem t) :
    (s.back.next alu s.regE.clear).Tracks alu imem (s.back.seqM alu imem t) :=
  h.back.next ha (fun hc => by cases hc) fun _ => ⟨rfl, rfl, rfl, rfl⟩

theorem Tracks.back_issue (ha : Stable alu) (h : s.Tracks alu imem t)
    (hj : Execute.needJump s.regE = false) (hl : s.loadUse = false) :
    (s.back.next alu (s.back.issue alu s.regD)).Tracks alu imem (s.back.seqM alu imem t) := by
  refine h.back.next ha (fun hv => ?_) fun hv => BackEnd.issue_idle (h.regD_idle hv)
  have hd : s.regD = RegD.load (fetchAt imem (s.back.nextD alu imem t)) := h.regD hv
  have hn : ∀ rs, rs = Decode.rs1 s.regD.instr ∨ rs = Decode.rs2 s.regD.instr →
      s.regE.opcodeInfo.getLsbD 3 = true → s.regE.rd ≠ rs := by
    intro rs hrs h3 hr
    have hu : s.loadUse = true := by
      rw [loadUse, Rv64.loadUse, Bool.and_eq_true, Bool.or_eq_true, beq_iff_eq, beq_iff_eq]
      exact ⟨hrs.imp hr.trans hr.trans, h3⟩
    cases hl.symm.trans hu
  rw [hd] at hn ⊢
  exact h.back.issue ha hj (fun hm => h.jump hm hv) rfl fun h3 _ =>
    ⟨fun _ => hn _ (.inl rfl) h3, fun _ => hn _ (.inr rfl) h3⟩

theorem Tracks.edge_jump (ha : Stable alu) (h : s.Tracks alu imem t)
    (hj : Execute.needJump s.regE = true) :
    (s.edge (Execute.outputs alu) imem false).Tracks alu imem (s.back.seqM alu imem t) := by
  rw [edge_of_jump hj (h.loadUse_of_jump hj)]
  exact
    { back := h.back_bubble ha
      regD := fun hc => by cases hc
      regD_idle := fun _ => rfl
      fetch := fun hc => by cases hc
      fetch_idle := fun _ => rfl
      pc := (h.back.seqD_pc_of_jump ha hj).symm.trans
        (congrArg Seq.pc (BackEnd.seqE_next s.regE.clear).symm)
      jump := fun _ hc => by cases hc }

theorem Tracks.edge_loadUse (ha : Stable alu) (h : s.Tracks alu imem t)
    (hj : Execute.needJump s.regE = false) (hl : s.loadUse = true) :
    (s.edge (Execute.outputs alu) imem false).Tracks alu imem (s.back.seqM alu imem t) := by
  rw [edge_of_loadUse hj hl]
  have hD : (s.back.next alu s.regE.clear).nextD alu imem (s.back.seqM alu imem t) =
      s.back.nextD alu imem t :=
    (congrArg Seq.pc (BackEnd.seqE_next s.regE.clear)).trans (h.back.nextD_eq hj).symm
  have hF : nextF alu imem (assemble (s.back.next alu s.regE.clear) s.pc s.fetch s.icacheInstr
      s.regD) (s.back.seqM alu imem t) = s.nextF alu imem t := by
    rw [nextF, assemble_back, hD]
    rfl
  exact
    { back := h.back_bubble ha
      regD := fun hv => (h.regD hv).trans (by rw [assemble_back, hD])
      regD_idle := h.regD_idle
      fetch := fun hv => by
        rw [hF]
        exact h.fetch hv
      fetch_idle := h.fetch_idle
      pc := by
        rw [nextPc, hF]
        exact h.pc
      jump := fun hv _ => h.back.next_jump_bits hj s.regE.clear hv }

theorem Tracks.edge_advance (ha : Stable alu) (h : s.Tracks alu imem t)
    (hj : Execute.needJump s.regE = false) (hl : s.loadUse = false) :
    (s.edge (Execute.outputs alu) imem false).Tracks alu imem (s.back.seqM alu imem t) := by
  rw [edge_of_advance hj hl]
  have hD : (s.back.next alu (s.back.issue alu s.regD)).nextD alu imem (s.back.seqM alu imem t) =
      s.nextF alu imem t := by
    by_cases hv : s.regD.commitInfo.commit
    · have hp : s.regD.pc = s.back.nextD alu imem t := congrArg RegD.pc (h.regD hv)
      rw [nextF, if_pos hv, ← hp]
      exact if_pos hv
    · rw [nextF, if_neg hv, h.back.nextD_eq hj, ← BackEnd.seqE_next (s.back.issue alu s.regD)]
      exact if_neg hv
  have hF : nextF alu imem
      (assemble (s.back.next alu (s.back.issue alu s.regD)) (s.pc + 4) ⟨s.pc, true⟩
        (imem s.pc) (RegD.load (s.fetch.out s.icacheInstr))) (s.back.seqM alu imem t) =
      s.nextPc alu imem t := by
    rw [nextF, assemble_back, hD]
    rfl
  exact
    { back := h.back_issue ha hj hl
      regD := fun hv => by
        obtain ⟨hp, hi⟩ := h.fetch hv
        have hc : s.fetch.commit = true := hv
        change RegD.load (s.fetch.out s.icacheInstr) = _
        rw [assemble_back, hD, ← hp, RegFetch.out, hi, hc]
        rfl
      regD_idle := h.fetch_idle
      fetch := fun _ => by
        rw [hF]
        exact ⟨h.pc, rfl⟩
      fetch_idle := fun hc => absurd rfl hc
      pc := by
        rw [nextPc, hF, ← h.pc]
        rfl
      jump := fun hv _ => h.back.next_jump_bits hj (s.back.issue alu s.regD) hv }

theorem Tracks.edge (ha : Stable alu) (h : s.Tracks alu imem t) :
    (s.edge (Execute.outputs alu) imem false).Tracks alu imem (s.back.seqM alu imem t) := by
  cases hj : Execute.needJump s.regE with
  | true => exact h.edge_jump ha hj
  | false =>
    cases hl : s.loadUse with
    | true => exact h.edge_loadUse ha hj hl
    | false => exact h.edge_advance ha hj hl

def reset (s : TopCpu) : Seq := ⟨s.pc, s.regfile, s.host⟩

theorem tracks_reset (exec : RegE → ExecuteOut) (s : TopCpu) :
    (s.edge exec imem true).Tracks alu imem (s.edge exec imem true).reset where
  back :=
    { regfile := rfl
      host := rfl
      regW := fun hc => by cases hc
      regW_idle := fun _ => rfl
      regM := fun hc => by cases hc
      regM_idle := fun _ => ⟨rfl, rfl⟩
      regE := fun hc => by cases hc
      regE_idle := fun _ => ⟨rfl, rfl, rfl, rfl⟩ }
  regD hc := by cases hc
  regD_idle _ := rfl
  fetch hc := by cases hc
  fetch_idle _ := rfl
  pc := rfl
  jump hc := by cases hc

/-- Every cycle either shows no commit and leaves the sequential machine
where it is, or shows its next one. -/
theorem stuttering (ha : Stable alu) :
    Stuttering (machine (Execute.outputs alu) imem) (Seq.machine (Execute.outputs alu) imem)
      (Tracks alu imem) where
  idle {s t} h hp := by
    have hc := h.back.commit_of_none hp
    have hs := h.edge ha
    rwa [BackEnd.seqM, if_neg hc] at hs
  emit {s t o} h hp := by
    obtain ⟨hc, ho⟩ := h.back.commit_of_some hp
    have hs := h.edge ha
    rw [BackEnd.seqM, if_pos hc] at hs
    exact ⟨ho, hs⟩

end TopCpu

/-- `linux_cpu` commits a prefix of the sequential run from the state it is
reset to. Its register file is the sequential one after the commits before the
present cycle, its memory that after the commits up to it. -/
theorem LinuxExecute.topCpu_refines (imem : Word → BitVec 32) (s₀ : TopCpu) (n : Nat) :
    let M := TopCpu.machine execute imem
    let S := Seq.machine execute imem
    let s := s₀.edge execute imem true
    let t : Seq := ⟨0x80000000, s.regfile, s.host⟩
    M.trace n s = S.take (M.trace n s).length t ∧
      (M.after n s).regfile = (S.after (M.trace n s).length t).regfile ∧
      (M.after n s).host = (S.after (M.trace (n + 1) s).length t).host := by
  intro M S s t
  have h : s.Tracks aluResult imem t := TopCpu.tracks_reset execute s₀
  obtain ⟨htrace, hR⟩ := (TopCpu.stuttering aluResult_stable).run h n
  refine ⟨htrace, hR.back.regfile, ?_⟩
  rw [M.trace_succ, List.length_append, Nat.add_comm, S.after_add]
  exact hR.back.host_eq

end LinuxCpu.Rv64
