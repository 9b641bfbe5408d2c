import LinuxCpu.Rv64.TopCpu
import LinuxCpu.Rv64.DecodeFacts

namespace LinuxCpu.Rv64

open Bits Simulator

def usesRegdata1 (op : BitVec 12) : Bool :=
  op.getLsbD 1 || op.getLsbD 2 || op.getLsbD 3 || op.getLsbD 4 || op.getLsbD 5 ||
    op.getLsbD 6 || op.getLsbD 7 || op.getLsbD 8

def usesRegdata2 (op : BitVec 12) : Bool :=
  op.getLsbD 1 || op.getLsbD 2 || op.getLsbD 6 || op.getLsbD 7

def RegE.Agrees (e e' : RegE) : Prop :=
  ∃ a b, e = { e' with regdata1 := a, regdata2 := b } ∧
    (usesRegdata1 e'.opcodeInfo → a = e'.regdata1) ∧ (usesRegdata2 e'.opcodeInfo → b = e'.regdata2)

def RegM.Agrees (m m' : RegM) : Prop :=
  ∃ b, m = { m' with regdata2 := b } ∧ (m'.opcodeInfo.getLsbD 2 → b = m'.regdata2)

theorem RegE.Agrees.refl (e : RegE) : e.Agrees e := ⟨_, _, rfl, fun _ => rfl, fun _ => rfl⟩

def Stable (alu : RegE → Word) : Prop := ∀ {e e' : RegE}, e.Agrees e' → alu e = alu e'

theorem Stable.of_regdata1 {f : RegE → Word} (h2 : ∀ e b, f { e with regdata2 := b } = f e)
    (h1 : ∀ e a, usesRegdata1 e.opcodeInfo = false → f { e with regdata1 := a } = f e) :
    Stable f := by
  rintro _ e ⟨a, b, rfl, ha, -⟩
  apply (h2 { e with regdata1 := a } b).trans
  cases hu : usesRegdata1 e.opcodeInfo with
  | false => exact h1 e a hu
  | true => rw [ha hu]

theorem Stable.of_regdata2 {f : RegE → Word} (h1 : ∀ e a, f { e with regdata1 := a } = f e)
    (h2 : ∀ e b, usesRegdata2 e.opcodeInfo = false → f { e with regdata2 := b } = f e) :
    Stable f := by
  rintro _ e ⟨a, b, rfl, -, hb⟩
  apply (h1 { e with regdata2 := b } a).trans
  cases hu : usesRegdata2 e.opcodeInfo with
  | false => exact h2 e b hu
  | true => rw [hb hu]

section Sources

open Execute

theorem LinuxExecute.aluSrc1_stable : Stable LinuxExecute.aluSrc1 := by
  apply Stable.of_regdata1 (fun _ _ => rfl)
  intro e a hu
  simp only [usesRegdata1, Bool.or_eq_false_iff] at hu
  simp only [aluSrc1, opAluReg, opAluRegw, opAluImm, opAluImmw, opBranch, opStore, opLoad, opJal,
    opJalr, hu]
  rfl

theorem LinuxExecute.aluSrc2_stable : Stable LinuxExecute.aluSrc2 := by
  apply Stable.of_regdata2 (fun _ _ => rfl)
  intro e b hu
  simp only [usesRegdata2, Bool.or_eq_false_iff] at hu
  simp only [aluSrc2, opAluReg, opAluRegw, opAluImm, opAluImmw, opBranch, opStore, opLoad, opJal,
    opJalr, hu]
  rfl

theorem LinuxExecute.aluResult_stable : Stable LinuxExecute.aluResult := by
  intro e e' h
  have h1 := aluSrc1_stable h
  have h2 := aluSrc2_stable h
  obtain ⟨a, b, rfl, -⟩ := h
  simp only [aluResult, h1, h2]
  rfl

theorem MExecute.aluSrc1_stable : Stable MExecute.aluSrc1 := by
  apply Stable.of_regdata1 (fun _ _ => rfl)
  intro e a hu
  simp only [usesRegdata1, Bool.or_eq_false_iff] at hu
  simp only [aluSrc1, opAluReg, opAluRegw, opAluImm, opAluImmw, opBranch, opStore, opLoad, opJal,
    opJalr, opLui, opAuipc, hu]
  rfl

theorem MExecute.aluSrc2_stable : Stable MExecute.aluSrc2 := by
  apply Stable.of_regdata2 (fun _ _ => rfl)
  intro e b hu
  simp only [usesRegdata2, Bool.or_eq_false_iff] at hu
  simp only [aluSrc2, opAluReg, opAluRegw, opAluImm, opAluImmw, opBranch, opStore, opLoad, opJal,
    opJalr, opLui, opAuipc, hu]
  rfl

theorem MExecute.aluResult_stable (D : Divider) : Stable (MExecute.aluResult · D) := by
  intro e e' h
  change aluResult e D = aluResult e' D
  have h1 := aluSrc1_stable h
  have h2 := aluSrc2_stable h
  obtain ⟨a, b, rfl, -⟩ := h
  unfold aluResult extMulResult suExtMulResult uExtMulResult divResult udivResult
  rw [h1, h2]
  rfl

end Sources

theorem needJump_stable {e e' : RegE} (h : e.Agrees e') (w : BitVec 32)
    (ho : e'.opcodeInfo = Decode.opcodeInfo w) (hb : e'.branchInfo = Decode.branchInfo w) :
    Execute.needJump e = Execute.needJump e' := by
  obtain ⟨a, b, rfl, h1, h2⟩ := h
  by_cases h : (Decode.opcodeInfo w).getLsbD 1 = true
  · rw [h1 (by simp [usesRegdata1, ho, h]), h2 (by simp [usesRegdata2, ho, h])]
  · have hz := Decode.branchInfo_eq_zero (by simpa only [Bool.not_eq_true] using h)
    rw [hz] at hb
    simp [Execute.needJump, Execute.instBeq, Execute.instBne, Execute.instBlt, Execute.instBge,
      Execute.instBltu, Execute.instBgeu, Execute.opJal, Execute.opJalr, hb]

theorem outputs_stable {alu : RegE → Word} (ha : Stable alu) {e e' : RegE} (h : e.Agrees e')
    (w : BitVec 32) (ho : e'.opcodeInfo = Decode.opcodeInfo w)
    (hb : e'.branchInfo = Decode.branchInfo w) :
    Execute.outputs alu e = Execute.outputs alu e' := by
  have hn := needJump_stable h w ho hb
  have ha := ha h
  obtain ⟨a, b, rfl, -⟩ := h
  simp only [Execute.outputs, Execute.commitInfo, Execute.jumpPc, hn, ha]
  rfl

theorem edge_stable {m m' : RegM} (h : m.Agrees m') (w : BitVec 32)
    (ho : m'.opcodeInfo = Decode.opcodeInfo w) (hl : m'.loadStoreInfo = Decode.loadStoreInfo w)
    (host : Host) : Memory.edge m host = Memory.edge m' host := by
  obtain ⟨b, rfl, h2⟩ := h
  by_cases h : (Decode.opcodeInfo w).getLsbD 2 = true
  · rw [h2 (by rw [ho]; exact h)]
  · obtain ⟨h0, h1, h2, h3⟩ := Decode.store_bits_eq_false (by simpa only [Bool.not_eq_true] using h)
    simp only [Memory.edge, Memory.instSb, Memory.instSh, Memory.instSw, Memory.instSd, hl,
      h0, h1, h2, h3]
    rfl

theorem memdata_stable {m m' : RegM} (h : m.Agrees m') (host : Host) :
    Memory.memdata m host = Memory.memdata m' host := by
  obtain ⟨b, rfl, -⟩ := h
  rfl

theorem regdata_edge (wb : Regfile.WriteBack) (regfile : Regfile) (rs : BitVec 5) :
    (Regfile.edge false wb regfile).regdata rs =
      if wb.rd != 0 && wb.regWen && wb.rd == rs then wb.data else regfile.regdata rs := by
  by_cases h : (wb.rd != 0 && wb.regWen && wb.rd == rs) = true
  · rw [if_pos h]
    simp only [Bool.and_eq_true, bne_iff_ne, beq_iff_eq] at h
    obtain ⟨⟨h0, hw⟩, rfl⟩ := h
    have he : (wb.regWen && wb.rd != 0) = true := by rw [hw, bne_iff_ne.mpr h0, Bool.true_and]
    rw [Regfile.regdata, if_neg h0, Regfile.edge, if_neg Bool.false_ne_true, if_pos he]
    exact Function.update_self ..
  · rw [if_neg h]
    simp only [Bool.and_eq_true, bne_iff_ne, beq_iff_eq, not_and] at h
    by_cases h0 : rs = 0
    · rw [Regfile.regdata, Regfile.regdata, if_pos h0, if_pos h0]
    · simp only [Regfile.regdata, if_neg h0, Regfile.edge, Bool.false_eq_true, if_false]
      split
      · next hw =>
        rw [Bool.and_eq_true, bne_iff_ne] at hw
        exact Function.update_of_ne (h ⟨hw.2, hw.1⟩ ·.symm) ..
      · rfl

theorem writeBack_data (w : RegW) {k : Nat} (h : w.opcodeInfo = hot 12 (some k)) :
    (writeBack w).data =
      if k = 9 ∨ k = 8 then w.pc + 4 else if k = 3 then w.memdata else w.aluResult := by
  simp only [writeBack, h, getLsbD_hot, Nat.reduceLT, Option.some_beq_some, Bool.or_eq_true,
    beq_iff_eq]

section Forward

variable (e : RegE) (x : ExecuteOut) (m : RegM) (memdata : Word) (w : RegW) (rs : BitVec 5)
  (base : Word)

theorem forward_regE (h : (e.rd != 0 && e.regWen && e.rd == rs) = true) :
    Decode.forward (forwardOf e x m memdata w) rs base = x.aluResult := if_pos h

theorem forward_regM (he : ¬ (e.rd != 0 && e.regWen && e.rd == rs) = true)
    (h : (m.rd != 0 && m.regWen && m.rd == rs) = true) {k : Nat}
    (hk : m.opcodeInfo = hot 12 (some k)) (hr : 3 ≤ k ∧ k ≤ 11 ∧ k ≠ 8 ∧ k ≠ 9) :
    Decode.forward (forwardOf e x m memdata w) rs base =
      (writeBack (RegW.load m memdata)).data := by
  rw [writeBack_data (RegW.load m memdata) hk]
  obtain ⟨h3, h11, h8, h9⟩ := hr
  simp only [Decode.forward, forwardOf, if_neg he, h, Bool.true_and, Decode.selAluResult,
    Decode.selMemdata, hk, getLsbD_hot, Nat.reduceLT, Option.some_beq_some]
  interval_cases k <;> simp [RegW.load] at *

theorem forward_regW (he : ¬ (e.rd != 0 && e.regWen && e.rd == rs) = true)
    (hm : ¬ (m.rd != 0 && m.regWen && m.rd == rs) = true)
    (h : (w.rd != 0 && w.regWen && w.rd == rs) = true) {k : Nat}
    (hk : w.opcodeInfo = hot 12 (some k)) (hr : 3 ≤ k ∧ k ≤ 11) :
    Decode.forward (forwardOf e x m memdata w) rs base = (writeBack w).data := by
  rw [writeBack_data w hk]
  simp only [Bool.not_eq_true] at hm
  obtain ⟨h3, h11⟩ := hr
  simp only [Decode.forward, forwardOf, if_neg he, hm, h, Bool.false_and, Bool.true_and,
    Decode.selAluResult, Decode.selMemdata, Decode.selPc, hk, getLsbD_hot, Nat.reduceLT,
    Option.some_beq_some]
  interval_cases k <;> simp

theorem forward_base (he : ¬ (e.rd != 0 && e.regWen && e.rd == rs) = true)
    (hm : ¬ (m.rd != 0 && m.regWen && m.rd == rs) = true)
    (hw : ¬ (w.rd != 0 && w.regWen && w.rd == rs) = true) :
    Decode.forward (forwardOf e x m memdata w) rs base = base := by
  simp only [Bool.not_eq_true] at hm hw
  simp only [Decode.forward, forwardOf, if_neg he, hm, hw, Bool.false_and, Bool.false_eq_true,
    if_false]

end Forward

structure BackEnd where
  regE : RegE
  regM : RegM
  regW : RegW
  regfile : Regfile
  host : Host

namespace BackEnd

variable (alu : RegE → Word) (imem : Word → BitVec 32)

def next (b : BackEnd) (e : RegE) : BackEnd where
  regE := e
  regM := RegM.load b.regE (Execute.outputs alu b.regE)
  regW := RegW.load b.regM (Memory.memdata b.regM b.host)
  regfile := Regfile.edge false (writeBack b.regW) b.regfile
  host := Memory.edge b.regM b.host

/-- The sequential state the instruction in `regM`, in `regE` and behind
`regE` starts from, when the one in `regW` starts from `t`. -/
def seqM (b : BackEnd) (t : Seq) : Seq :=
  if b.regW.commitInfo.commit then t.next (Execute.outputs alu) imem else t

def seqE (b : BackEnd) (t : Seq) : Seq :=
  if b.regM.commitInfo.commit then (b.seqM alu imem t).next (Execute.outputs alu) imem
  else b.seqM alu imem t

def seqD (b : BackEnd) (t : Seq) : Seq :=
  if b.regE.commitInfo.commit then (b.seqE alu imem t).next (Execute.outputs alu) imem
  else b.seqE alu imem t

def nextD (b : BackEnd) (t : Seq) : Word :=
  if b.regE.commitInfo.commit then b.regE.pc + 4 else (b.seqE alu imem t).pc

structure TracksW (b : BackEnd) (t : Seq) : Prop where
  regfile : b.regfile = t.regfile
  regW : b.regW.commitInfo.commit → b.regW = t.regW (Execute.outputs alu) imem
  regW_idle : ¬ b.regW.commitInfo.commit → b.regW.regWen = false

structure TracksM (b : BackEnd) (t : Seq) : Prop extends b.TracksW alu imem t where
  host : b.host = (b.seqM alu imem t).host
  regM : b.regM.commitInfo.commit →
    b.regM.Agrees ((b.seqM alu imem t).regM (Execute.outputs alu) imem)
  regM_idle : ¬ b.regM.commitInfo.commit → b.regM.regWen = false ∧ b.regM.loadStoreInfo = 0

structure Tracks (b : BackEnd) (t : Seq) : Prop extends b.TracksM alu imem t where
  regE : b.regE.commitInfo.commit → b.regE.Agrees ((b.seqE alu imem t).regE imem)
  regE_idle : ¬ b.regE.commitInfo.commit → b.regE.regWen = false ∧ b.regE.loadStoreInfo = 0 ∧
    b.regE.opcodeInfo = 0 ∧ b.regE.branchInfo = 0

variable {alu} {imem} {b : BackEnd} {t : Seq}

theorem commit_outputs (e : RegE) :
    (Execute.outputs alu e).commitInfo.commit = e.commitInfo.commit := by
  change (Execute.commitInfo e (alu e)).commit = _
  rw [Execute.commitInfo]
  split <;> rfl

theorem seqM_next (e : RegE) :
    (b.next alu e).seqM alu imem (b.seqM alu imem t) = b.seqE alu imem t := rfl

theorem seqE_next (e : RegE) :
    (b.next alu e).seqE alu imem (b.seqM alu imem t) = b.seqD alu imem t := by
  have hc : (b.next alu e).regM.commitInfo.commit = b.regE.commitInfo.commit :=
    commit_outputs b.regE
  rw [seqE, hc, seqM_next]
  rfl

theorem TracksW.regfile_next (h : b.TracksW alu imem t) (e : RegE) :
    (b.next alu e).regfile = (b.seqM alu imem t).regfile := by
  change Regfile.edge false (writeBack b.regW) b.regfile = _
  by_cases hv : b.regW.commitInfo.commit
  · rw [seqM, if_pos hv, h.regW hv, h.regfile]
    rfl
  · rw [seqM, if_neg hv, ← h.regfile, Regfile.edge, if_neg Bool.false_ne_true, if_neg]
    rw [writeBack, h.regW_idle hv]
    exact Bool.false_ne_true

theorem TracksM.next (h : b.TracksM alu imem t) (e : RegE) :
    (b.next alu e).TracksW alu imem (b.seqM alu imem t) where
  regfile := h.regfile_next e
  regW hv := by
    have hm := h.regM hv
    change RegW.load b.regM (Memory.memdata b.regM b.host) = _
    rw [memdata_stable hm, h.host]
    obtain ⟨_, hm, -⟩ := hm
    rw [hm]
    rfl
  regW_idle hv := (h.regM_idle hv).1

theorem Tracks.nextM (ha : Stable alu) (h : b.Tracks alu imem t) (e : RegE) :
    (b.next alu e).TracksM alu imem (b.seqM alu imem t) where
  toTracksW := h.toTracksM.next e
  host := by
    change Memory.edge b.regM b.host = (b.seqE alu imem t).host
    by_cases hv : b.regM.commitInfo.commit
    · rw [seqE, if_pos hv, h.host]
      exact edge_stable (h.regM hv) (imem (b.seqM alu imem t).pc) rfl rfl _
    · have hl := (h.regM_idle hv).2
      rw [seqE, if_neg hv, ← h.host]
      simp [Memory.edge, Memory.instSb, Memory.instSh, Memory.instSw, Memory.instSd, hl]
  regM hv := by
    have hv : b.regE.commitInfo.commit := (commit_outputs b.regE).symm.trans hv
    have hx := outputs_stable ha (h.regE hv) (imem (b.seqE alu imem t).pc) rfl rfl
    obtain ⟨_, d, he, -, hd⟩ := h.regE hv
    refine ⟨d, ?_, fun hs => hd ?_⟩
    · change RegM.load b.regE (Execute.outputs alu b.regE) = _
      rw [hx, he]
      rfl
    · have hs : ((b.seqE alu imem t).regE imem).opcodeInfo.getLsbD 2 = true := hs
      simp [usesRegdata2, hs]
  regM_idle hv := by
    have hv : ¬ b.regE.commitInfo.commit := fun hc => hv ((commit_outputs b.regE).trans hc)
    exact ⟨(h.regE_idle hv).1, (h.regE_idle hv).2.1⟩

theorem Tracks.next (ha : Stable alu) (h : b.Tracks alu imem t) {e : RegE}
    (he : e.commitInfo.commit → e.Agrees ((b.seqD alu imem t).regE imem))
    (hi : ¬ e.commitInfo.commit → e.regWen = false ∧ e.loadStoreInfo = 0 ∧ e.opcodeInfo = 0 ∧
      e.branchInfo = 0) :
    (b.next alu e).Tracks alu imem (b.seqM alu imem t) where
  toTracksM := h.nextM ha e
  regE := by
    rw [seqE_next]
    exact he
  regE_idle := hi

theorem Tracks.needJump (h : b.Tracks alu imem t) (hv : b.regE.commitInfo.commit) :
    Execute.needJump b.regE = Execute.needJump ((b.seqE alu imem t).regE imem) :=
  needJump_stable (h.regE hv) (imem (b.seqE alu imem t).pc) rfl rfl

theorem Tracks.needJump_idle (h : b.Tracks alu imem t) (hv : ¬ b.regE.commitInfo.commit) :
    Execute.needJump b.regE = false :=
  needJump_of_zero (h.regE_idle hv).2.2.1 (h.regE_idle hv).2.2.2

theorem Tracks.next_jump_bits (h : b.Tracks alu imem t) (hj : Execute.needJump b.regE = false)
    (e : RegE) (hv : (b.next alu e).regM.commitInfo.commit) :
    (b.next alu e).regM.opcodeInfo.getLsbD 8 = false ∧
      (b.next alu e).regM.opcodeInfo.getLsbD 9 = false := by
  obtain ⟨_, _, he, -⟩ := h.regE ((commit_outputs b.regE).symm.trans hv)
  have ho : b.regE.opcodeInfo = Decode.opcodeInfo (imem (b.seqE alu imem t).pc) :=
    congrArg RegE.opcodeInfo he
  have hb : ∀ k, k = 8 ∨ k = 9 → b.regE.opcodeInfo.getLsbD k = false := by
    intro k h89
    cases hc : b.regE.opcodeInfo.getLsbD k with
    | false => rfl
    | true =>
      have hh := ho.trans (Decode.hot_of_getLsbD ((congrArg (·.getLsbD k) ho).symm.trans hc))
      cases hj.symm.trans (needJump_of_jump hh h89)
  exact ⟨hb 8 (.inl rfl), hb 9 (.inr rfl)⟩

theorem Tracks.regdata_seqD (h : b.Tracks alu imem t) (rs : BitVec 5) :
    (b.seqD alu imem t).regfile.regdata rs =
      if b.regE.rd != 0 && b.regE.regWen && b.regE.rd == rs then
        (writeBack ((b.seqE alu imem t).regW (Execute.outputs alu) imem)).data
      else (b.seqE alu imem t).regfile.regdata rs := by
  by_cases hv : b.regE.commitInfo.commit
  · obtain ⟨_, _, he, -⟩ := h.regE hv
    rw [seqD, if_pos hv, he]
    exact regdata_edge ..
  · rw [seqD, if_neg hv, (h.regE_idle hv).1, Bool.and_false, Bool.false_and]
    rfl

theorem Tracks.regdata_seqE (h : b.Tracks alu imem t) (rs : BitVec 5) :
    (b.seqE alu imem t).regfile.regdata rs =
      if b.regM.rd != 0 && b.regM.regWen && b.regM.rd == rs then
        (writeBack ((b.seqM alu imem t).regW (Execute.outputs alu) imem)).data
      else (b.seqM alu imem t).regfile.regdata rs := by
  by_cases hv : b.regM.commitInfo.commit
  · obtain ⟨_, hm, -⟩ := h.regM hv
    rw [seqE, if_pos hv, hm]
    exact regdata_edge ..
  · rw [seqE, if_neg hv, (h.regM_idle hv).1, Bool.and_false, Bool.false_and]
    rfl

theorem Tracks.regdata_seqM (h : b.Tracks alu imem t) (rs : BitVec 5) :
    (b.seqM alu imem t).regfile.regdata rs =
      if b.regW.rd != 0 && b.regW.regWen && b.regW.rd == rs then
        (writeBack b.regW).data
      else b.regfile.regdata rs := by
  by_cases hv : b.regW.commitInfo.commit
  · rw [seqM, if_pos hv, h.regW hv, h.regfile]
    exact regdata_edge ..
  · rw [seqM, if_neg hv, h.regW_idle hv, h.regfile, Bool.and_false, Bool.false_and]
    rfl

theorem Tracks.regE_hot (h : b.Tracks alu imem t) (hw : b.regE.regWen = true) :
    b.regE.commitInfo.commit ∧ ∃ k, b.regE.opcodeInfo = hot 12 (some k) ∧ 3 ≤ k ∧ k ≤ 11 := by
  by_cases hv : b.regE.commitInfo.commit
  · obtain ⟨_, _, he, -⟩ := h.regE hv
    refine ⟨hv, ?_⟩
    rw [he] at hw ⊢
    exact Decode.hot_of_regWen hw
  · rw [(h.regE_idle hv).1] at hw
    cases hw

theorem Tracks.regM_hot (h : b.Tracks alu imem t) (hw : b.regM.regWen = true) :
    b.regM.commitInfo.commit ∧ ∃ k, b.regM.opcodeInfo = hot 12 (some k) ∧ 3 ≤ k ∧ k ≤ 11 := by
  by_cases hv : b.regM.commitInfo.commit
  · obtain ⟨_, hm, -⟩ := h.regM hv
    refine ⟨hv, ?_⟩
    rw [hm] at hw ⊢
    exact Decode.hot_of_regWen hw
  · rw [(h.regM_idle hv).1] at hw
    cases hw

theorem Tracks.regW_hot (h : b.Tracks alu imem t) (hw : b.regW.regWen = true) :
    ∃ k, b.regW.opcodeInfo = hot 12 (some k) ∧ 3 ≤ k ∧ k ≤ 11 := by
  by_cases hv : b.regW.commitInfo.commit
  · rw [h.regW hv] at hw ⊢
    exact Decode.hot_of_regWen hw
  · rw [h.regW_idle hv] at hw
    cases hw

/-- The forwarding network gives `decode` the operand of the sequential
machine: no jump is in `regM`, none is taken in `regE`, and what `regE` loads
is not read. -/
theorem Tracks.operand (ha : Stable alu) (h : b.Tracks alu imem t) (rs : BitVec 5)
    (hj : Execute.needJump b.regE = false)
    (hl : ¬ (b.regE.opcodeInfo.getLsbD 3 = true ∧ b.regE.rd ≠ 0 ∧ b.regE.rd = rs))
    (hm : b.regM.commitInfo.commit →
      b.regM.opcodeInfo.getLsbD 8 = false ∧ b.regM.opcodeInfo.getLsbD 9 = false) :
    Rv64.operand (forwardOf b.regE (Execute.outputs alu b.regE) b.regM
      (Memory.memdata b.regM b.host) b.regW) b.regfile rs =
      (b.seqD alu imem t).regfile.regdata rs := by
  rw [Rv64.operand, h.regdata_seqD, h.regdata_seqE, h.regdata_seqM]
  by_cases he : (b.regE.rd != 0 && b.regE.regWen && b.regE.rd == rs) = true
  · rw [forward_regE _ _ _ _ _ _ _ he, if_pos he]
    simp only [Bool.and_eq_true, bne_iff_ne, beq_iff_eq] at he
    obtain ⟨hv, k, hk, h3, h11⟩ := h.regE_hot he.1.2
    have hE := h.regE hv
    have h89 : ¬ (k = 8 ∨ k = 9) := fun h89 => by
      rw [needJump_of_jump hk h89] at hj
      cases hj
    have hk3 : k ≠ 3 := by
      rintro rfl
      exact hl ⟨by rw [hk]; rfl, he.1.1, he.2⟩
    obtain ⟨_, _, hr, -⟩ := hE
    rw [writeBack_data _ (k := k) (by rw [← hk, hr]; rfl), if_neg (by omega), if_neg hk3]
    exact ha (h.regE hv)
  by_cases hM : (b.regM.rd != 0 && b.regM.regWen && b.regM.rd == rs) = true
  · have hw := hM
    simp only [Bool.and_eq_true] at hw
    obtain ⟨hv, k, hk, h3, h11⟩ := h.regM_hot hw.1.2
    have h89 : k ≠ 8 ∧ k ≠ 9 := by
      have hm := hm hv
      simpa [hk] using hm
    rw [forward_regM _ _ _ _ _ _ _ he hM hk ⟨h3, h11, h89⟩, if_neg he, if_pos hM, h.host,
      memdata_stable (h.regM hv)]
    obtain ⟨_, hr, -⟩ := h.regM hv
    rw [hr]
    rfl
  by_cases hW : (b.regW.rd != 0 && b.regW.regWen && b.regW.rd == rs) = true
  · have hw := hW
    simp only [Bool.and_eq_true] at hw
    obtain ⟨k, hk, hr⟩ := h.regW_hot hw.1.2
    rw [forward_regW _ _ _ _ _ _ _ he hM hW hk hr, if_neg he, if_neg hM, if_pos hW]
  · rw [forward_base _ _ _ _ _ _ _ he hM hW, if_neg he, if_neg hM, if_neg hW]

theorem TracksW.port (h : b.TracksW alu imem t) :
    b.regW.commitInfo.port =
      if b.regW.commitInfo.commit then some ((Seq.machine (Execute.outputs alu) imem).out t)
      else none := by
  by_cases hv : b.regW.commitInfo.commit
  · rw [CommitInfo.port, if_pos hv, if_pos hv, h.regW hv]
    apply congrArg some
    have hi : (t.regW (Execute.outputs alu) imem).commitInfo =
        Execute.commitInfo (t.regE imem) (alu (t.regE imem)) := rfl
    have hp : ((Seq.machine (Execute.outputs alu) imem).out t).prePc =
        if Execute.needJump (t.regE imem) then Execute.jumpPc (t.regE imem) (alu (t.regE imem))
        else t.pc + 4 := rfl
    rw [hi, Execute.commitInfo]
    split
    · next hn =>
      rw [if_pos hn] at hp
      exact congrArg (Commit.mk t.pc (imem t.pc)) hp.symm
    · next hn =>
      rw [if_neg hn] at hp
      exact congrArg (Commit.mk t.pc (imem t.pc)) hp.symm
  · rw [CommitInfo.port, if_neg hv, if_neg hv]

theorem TracksW.commit_of_none (h : b.TracksW alu imem t) (hp : b.regW.commitInfo.port = none) :
    ¬ b.regW.commitInfo.commit := by
  intro hc
  rw [h.port, if_pos hc] at hp
  cases hp

theorem TracksW.commit_of_some (h : b.TracksW alu imem t) {o : Commit}
    (hp : b.regW.commitInfo.port = some o) :
    b.regW.commitInfo.commit ∧ o = (Seq.machine (Execute.outputs alu) imem).out t := by
  rw [h.port] at hp
  split at hp
  · next hc => exact ⟨hc, (Option.some.inj hp).symm⟩
  · cases hp

theorem TracksM.host_eq (h : b.TracksM alu imem t) :
    b.host = ((Seq.machine (Execute.outputs alu) imem).after
      b.regW.commitInfo.port.toList.length t).host := by
  rw [h.host, h.port, BackEnd.seqM]
  split <;> rfl

theorem Tracks.nextD_eq (h : b.Tracks alu imem t) (hj : Execute.needJump b.regE = false) :
    b.nextD alu imem t = (b.seqD alu imem t).pc := by
  by_cases hv : b.regE.commitInfo.commit
  · rw [h.needJump hv] at hj
    obtain ⟨_, _, he, -⟩ := h.regE hv
    rw [nextD, seqD, if_pos hv, if_pos hv, he]
    exact (if_neg (show ¬ Execute.needJump _ = true by rw [hj]; exact Bool.false_ne_true)).symm
  · rw [nextD, seqD, if_neg hv, if_neg hv]

theorem Tracks.seqD_pc_of_jump (ha : Stable alu) (h : b.Tracks alu imem t)
    (hj : Execute.needJump b.regE = true) :
    (b.seqD alu imem t).pc = (Execute.outputs alu b.regE).jumpPc := by
  by_cases hv : b.regE.commitInfo.commit
  · have hx := outputs_stable ha (h.regE hv) (imem (b.seqE alu imem t).pc) rfl rfl
    rw [h.needJump hv] at hj
    rw [hx, seqD, if_pos hv]
    exact if_pos hj
  · rw [h.needJump_idle hv] at hj
    cases hj

theorem Tracks.needJump_of_load (h : b.Tracks alu imem t)
    (hl : b.regE.opcodeInfo.getLsbD 3 = true) :
    Execute.needJump b.regE = false := by
  by_cases hv : b.regE.commitInfo.commit
  · obtain ⟨_, _, he, -⟩ := h.regE hv
    rw [h.needJump hv]
    rw [he] at hl
    exact needJump_of_hot (w := imem (b.seqE alu imem t).pc) rfl rfl
      (Decode.hot_of_getLsbD hl) (by decide)
  · exact h.needJump_idle hv

variable (alu)

def issue (b : BackEnd) (r : RegD) : RegE :=
  RegE.issue (forwardOf b.regE (Execute.outputs alu b.regE) b.regM (Memory.memdata b.regM b.host)
    b.regW) b.regfile r

variable {alu}

theorem issue_idle {r : RegD} (h : r.instr = 0) : (b.issue alu r).regWen = false ∧
    (b.issue alu r).loadStoreInfo = 0 ∧ (b.issue alu r).opcodeInfo = 0 ∧
    (b.issue alu r).branchInfo = 0 := by
  rw [issue, RegE.issue, h]
  exact Decode.zero_word

theorem Tracks.issue (ha : Stable alu) (h : b.Tracks alu imem t)
    (hj : Execute.needJump b.regE = false)
    (hm : b.regM.commitInfo.commit →
      b.regM.opcodeInfo.getLsbD 8 = false ∧ b.regM.opcodeInfo.getLsbD 9 = false)
    {w : BitVec 32} (hw : w = imem (b.nextD alu imem t))
    (hl : b.regE.opcodeInfo.getLsbD 3 = true → b.regE.rd ≠ 0 →
      (usesRegdata1 (Decode.opcodeInfo w) → b.regE.rd ≠ Decode.rs1 w) ∧
        (usesRegdata2 (Decode.opcodeInfo w) → b.regE.rd ≠ Decode.rs2 w)) :
    (b.issue alu (RegD.load (fetchAt imem (b.nextD alu imem t)))).Agrees
      ((b.seqD alu imem t).regE imem) := by
  rw [h.nextD_eq hj] at hw ⊢
  subst hw
  refine ⟨_, _, rfl, fun hu => ?_, fun hu => ?_⟩
  · exact h.operand ha _ hj (fun ⟨h3, h0, hr⟩ => (hl h3 h0).1 hu hr) hm
  · exact h.operand ha _ hj (fun ⟨h3, h0, hr⟩ => (hl h3 h0).2 hu hr) hm

end BackEnd

end LinuxCpu.Rv64
