import LinuxCpu.Rv64.IsaTopCpu
import LinuxCpu.Rv64.TextFetch

/-! `linux_cpu` with its cache, its instructions in the memory its stores write. -/

namespace LinuxCpu.Rv64

open RiscV Simulator ByteMemory

/-- `i` and the three words behind it are text, it jumps to the start of a block
only, and it does not write text. -/
structure Instr.Fits (T : Text) (i : Instr) (s : State 64) : Prop where
  window : T.lo ≤ s.pc.toNat ∧ s.pc.toNat + 12 < T.hi
  jump : ∀ target, i.transfer s.pc (s.get i.rs1) (s.get i.rs2) = some target →
    target.toNat % 16 = 0
  store : ∀ x, i.write? s = some x → x.addr.toNat + x.len ≤ T.lo ∨ T.hi ≤ x.addr.toNat

section Text

variable {T : Text} {i : Instr} {s : State 64}

theorem Instr.Fits.mem_step (h : Instr.Fits T i s) (ha : T.Holds a) :
    (i.step s).mem a = s.mem a := by
  rw [Instr.step_mem]
  cases hw : i.write? s with
  | none => rfl
  | some x =>
    apply store_out
    intro hd
    have hs := h.store x hw
    have hl := T.lo_mem
    have he : configMbase.toNat = 0x80000000 := rfl
    have hx := x.addr.isLt
    have hlen : x.len ≤ 8 := by
      cases i with
      | store op =>
        have hop : op.len ≤ 8 := by cases op <;> decide
        cases hw
        exact hop
      | _ => cases hw
    have hn : a.toNat = (x.addr.toNat + dist x.addr a) % 2 ^ 64 := by
      have ha := congrArg BitVec.toNat (eq_add_of_dist (rfl : dist x.addr a = _))
      rw [BitVec.toNat_add, BitVec.toNat_ofNat] at ha
      omega
    obtain ⟨hlo, hhi⟩ := ha
    omega

theorem Instr.Fits.aligned_step (h : Instr.Fits T i s) (ha : s.pc.toNat % 4 = 0) :
    (i.step s).pc.toNat % 4 = 0 := by
  rw [Instr.step_pc]
  cases ht : i.transfer s.pc (s.get i.rs1) (s.get i.rs2) with
  | none =>
    change (s.pc + 4).toNat % 4 = 0
    rw [BitVec.toNat_add]
    change (s.pc.toNat + 4) % 2 ^ 64 % 4 = 0
    omega
  | some target =>
    have := h.jump target ht
    change target.toNat % 4 = 0
    omega

theorem Instr.Fits.holds (h : Instr.Fits T i s) : T.Holds s.pc :=
  ⟨h.window.1, Nat.lt_of_le_of_lt (Nat.le_add_right _ _) h.window.2⟩

variable {ok : Instr → State 64 → Prop} {imem : Word → BitVec 32} {m : Mem 64}

theorem Run.of_text (hok : ∀ i s, ok i s → Instr.Fits T i s)
    (hi : ∀ pc, T.Holds pc → pc.toNat % 4 = 0 → imem pc = load m pc 4)
    (h : Run State.fetch ok s rs t) (ha : s.pc.toNat % 4 = 0)
    (hm : ∀ x, T.Holds x → s.mem x = m x) : Run (imem ·.pc) ok s rs t := by
  induction h with
  | nil => exact .nil
  | cons hs _ ih =>
    obtain ⟨i, hf, hi', rfl⟩ := hs
    have hfit := hok i _ hi'
    have hw := (hi _ hfit.holds ha).trans (Text.load_congr hm hfit.holds ha).symm
    have hr := ih (hfit.aligned_step ha) fun x hx => (hfit.mem_step hx).trans (hm x hx)
    rw [State.fetch, ← hw]
    exact .cons ⟨i, hw.trans hf, hi', rfl⟩ hr

end Text

theorem TopCpu.edge_congr {s : TopCpu} {alu : RegE → Word} {imem imem' : Word → BitVec 32}
    (h : Execute.needJump s.regE = false → s.loadUse = false → imem s.pc = imem' s.pc) :
    s.edge (Execute.outputs alu) imem false = s.edge (Execute.outputs alu) imem' false := by
  rw [edge_eq, edge_eq]
  cases hj : Execute.needJump s.regE with
  | true => rfl
  | false =>
    cases hl : s.loadUse with
    | true => rfl
    | false => rw [h hj hl]

namespace LinuxTopCpu

variable {alu : RegE → Word} {imem : Word → BitVec 32} {fetchMem : Host → Word → BitVec 32}
  {T : Text} {s : LinuxTopCpu} {t : Seq}

def machine (exec : RegE → ExecuteOut) (fetchMem : Host → Word → BitVec 32) :
    Clocked LinuxTopCpu Commit where
  edge := edge exec fetchMem false
  port s := s.regW.commitInfo.port

structure Follows (alu : RegE → Word) (imem : Word → BitVec 32) (T : Text) (s : LinuxTopCpu)
    (t : Seq) : Prop where
  tracks : s.core.Tracks alu imem t
  serves : s.fetch.icache.Serves imem T
  ready : s.fetch.icache.Ready s.pc

structure Meets (alu : RegE → Word) (imem : Word → BitVec 32) (T : Text) (u : Seq) : Prop where
  aligned : u.pc.toNat % 4 = 0
  window : T.lo ≤ u.pc.toNat ∧ u.pc.toNat + 12 < T.hi
  jump : Execute.needJump (u.regE imem) = true →
    (u.next (Execute.outputs alu) imem).pc.toNat % 16 = 0

theorem add_words (p : Word) (j : Nat) :
    p + BitVec.ofNat 64 (4 * j) + 4 = p + BitVec.ofNat 64 (4 * (j + 1)) := by
  rw [BitVec.add_assoc, Nat.mul_succ, BitVec.ofNat_add]
  rfl

theorem Follows.pc_eq (h : s.Follows alu imem T t) :
    ∃ j ≤ 3, s.pc = (s.core.back.seqE alu imem t).pc + BitVec.ofNat 64 (4 * j) := by
  have hD : ∃ j ≤ 1, s.core.back.nextD alu imem t =
      (s.core.back.seqE alu imem t).pc + BitVec.ofNat 64 (4 * j) := by
    by_cases hE : s.core.back.regE.commitInfo.commit
    · obtain ⟨_, _, he, -⟩ := h.tracks.back.regE hE
      refine ⟨1, Nat.le_refl 1, (if_pos hE).trans ?_⟩
      rw [he]
      rfl
    · exact ⟨0, Nat.zero_le 1, (if_neg hE).trans (BitVec.add_zero _).symm⟩
  have hF : ∃ j ≤ 2, s.core.nextF alu imem t =
      (s.core.back.seqE alu imem t).pc + BitVec.ofNat 64 (4 * j) := by
    obtain ⟨j, hj, hD⟩ := hD
    by_cases hc : s.core.regD.commitInfo.commit
    · exact ⟨j + 1, by omega, (if_pos hc).trans (by rw [hD, add_words])⟩
    · exact ⟨j, by omega, (if_neg hc).trans hD⟩
  obtain ⟨j, hj, hF⟩ := hF
  have hpc : s.pc = s.core.nextPc alu imem t := h.tracks.pc
  by_cases hc : s.core.fetch.commit
  · exact ⟨j + 1, by omega, hpc.trans ((if_pos hc).trans (by rw [hF, add_words]))⟩
  · exact ⟨j, by omega, hpc.trans ((if_neg hc).trans hF)⟩

theorem Follows.pc_text (h : s.Follows alu imem T t)
    (hu : Meets alu imem T (s.core.back.seqE alu imem t)) :
    T.Holds s.pc ∧ s.pc.toNat % 4 = 0 := by
  obtain ⟨j, hj, hpc⟩ := h.pc_eq
  have ha := hu.aligned
  have hw := hu.window
  have hm := T.hi_mem
  have he : configMbase.toNat + configMsize.toNat = 0x88000000 := rfl
  have hn : s.pc.toNat = (s.core.back.seqE alu imem t).pc.toNat + 4 * j := by
    rw [hpc, BitVec.toNat_add, BitVec.toNat_ofNat]
    omega
  rw [Text.Holds, hn]
  omega

theorem icache_edge : (s.edge (Execute.outputs alu) fetchMem false).fetch.icache =
    Icache.edge (fetchMem s.host) s.pc s.fetch.icache (some .way0) false
      (Execute.needJump s.regE) s.core.loadUse := rfl

theorem Follows.jumpPc (ha : Stable alu) (h : s.Follows alu imem T t)
    (hu : Meets alu imem T (s.core.back.seqE alu imem t))
    (hj : Execute.needJump s.regE = true) :
    pcOffset (Execute.outputs alu s.regE).jumpPc = 0 := by
  have hc : s.core.back.regE.commitInfo.commit = true := by
    by_contra hc
    cases (h.tracks.back.needJump_idle hc).symm.trans hj
  have hd := h.tracks.back.seqD_pc_of_jump ha hj
  rw [BackEnd.seqD, if_pos hc] at hd
  rw [pcOffset_eq_zero_iff]
  exact hd ▸ hu.jump ((h.tracks.back.needJump hc).symm.trans hj)

/-- The edge is that of the core on `imem`, and the cache goes on serving it. -/
theorem Follows.edge (ha : Stable alu) (h : s.Follows alu imem T t)
    (hu : Meets alu imem T (s.core.back.seqE alu imem t))
    (hm : ∀ a, T.Holds a → a.toNat % 4 = 0 → fetchMem s.host a = imem a) :
    let q := s.edge (Execute.outputs alu) fetchMem false
    q.core = s.core.edge (Execute.outputs alu) imem false ∧
      q.fetch.icache.Serves imem T ∧ q.fetch.icache.Ready q.pc := by
  intro q
  suffices hc : (Execute.needJump s.regE = false → s.core.loadUse = false →
      q.fetch.icache.instr = imem s.pc) ∧
      q.fetch.icache.Serves imem T ∧ q.fetch.icache.Ready q.pc by
    have hcore : q.core =
        s.core.edge (Execute.outputs alu) (fun _ => q.fetch.icache.instr) false := core_edge ..
    exact ⟨hcore.trans (TopCpu.edge_congr hc.1), hc.2⟩
  have hic : q.fetch.icache = _ := icache_edge
  have hpc : q.pc = pcEdge false s.core.loadUse false (Execute.outputs alu s.regE).jumpPc
      (Execute.needJump s.regE) s.pc := rfl
  rw [hic, hpc]
  cases hj : Execute.needJump s.regE with
  | true =>
    refine ⟨nofun, h.serves.of_cache rfl, .inl ?_⟩
    rw [h.tracks.loadUse_of_jump hj]
    exact h.jumpPc ha hu hj
  | false =>
    cases hl : s.core.loadUse with
    | true => exact ⟨nofun, h.serves, h.ready⟩
    | false =>
      obtain ⟨hT, h4⟩ := h.pc_text hu
      obtain ⟨hserves, hready, hinstr⟩ := h.serves.load h.ready hT h4 hm
      exact ⟨fun _ _ => hinstr, hserves, hready⟩

variable {ok : Instr → State 64 → Prop} {m : Mem 64}

structure OnText (alu : RegE → Word) (imem : Word → BitVec 32) (T : Text) (m : Mem 64) (u : Seq) :
    Prop where
  meets : Meets alu imem T u
  mem : ∀ x, T.Holds x → u.host.pmem.guest x = m x

theorem meets_run (hc : Computes alu ok) (hok : ∀ i s, ok i s → Instr.Fits T i s)
    (h : Run (imem ·.pc) (fun i s => ok i s ∧ Instr.InMemory i s) a rs a') (t : Seq)
    (ht : t.arch = a) (h4 : t.pc.toNat % 4 = 0)
    (hm : ∀ x, T.Holds x → t.host.pmem.guest x = m x) {j : Nat} (hj : j < rs.length) :
    OnText alu imem T m ((Seq.machine (Execute.outputs alu) imem).after j t) := by
  induction h generalizing t j with
  | nil => cases hj
  | cons hs _ ih =>
    subst ht
    obtain ⟨i, hf, ⟨hi, hin⟩, rfl⟩ := hs
    have hfit := hok i _ hi
    have hn := Seq.arch_next hf hin (hc hf hi)
    cases j with
    | zero =>
      refine ⟨⟨h4, hfit.window, fun hj => ?_⟩, hm⟩
      have hJ : Execute.needJump (t.regE imem) = _ :=
        needJump_issue .idle t.regfile (r := t.regD imem) hf
      obtain ⟨target, htr⟩ := Option.isSome_iff_exists.mp (hJ.symm.trans hj)
      have htr : i.transfer t.arch.pc (t.arch.get i.rs1) (t.arch.get i.rs2) = some target := by
        rw [t.arch_get, t.arch_get]
        exact htr
      have hpc : (t.next (Execute.outputs alu) imem).pc = target := by
        rw [Seq.next_pc hf (hc hf hi), Instr.step_pc, htr]
        rfl
      change (t.next (Execute.outputs alu) imem).pc.toNat % 16 = 0
      rw [hpc]
      exact hfit.jump target htr
    | succ j =>
      have hpc : (t.next (Execute.outputs alu) imem).pc = (i.step t.arch).pc :=
        congrArg State.pc hn
      have hmem : (t.next (Execute.outputs alu) imem).host.pmem.guest = (i.step t.arch).mem :=
        congrArg State.mem hn
      refine ih (t.next (Execute.outputs alu) imem) hn ?_ (fun x hx => ?_)
        (Nat.lt_of_succ_lt_succ hj)
      · rw [hpc]
        exact hfit.aligned_step h4
      · rw [hmem, hfit.mem_step hx]
        exact hm x hx

theorem seqM_after (alu : RegE → Word) (imem : Word → BitVec 32) (b : BackEnd) (t : Seq) :
    ∃ j ≤ 1, b.seqM alu imem t = (Seq.machine (Execute.outputs alu) imem).after j t := by
  rw [BackEnd.seqM]
  split
  · exact ⟨1, Nat.le_refl 1, rfl⟩
  · exact ⟨0, Nat.zero_le 1, rfl⟩

theorem seqE_after (alu : RegE → Word) (imem : Word → BitVec 32) (b : BackEnd) (t : Seq) :
    ∃ j ≤ 2, b.seqE alu imem t = (Seq.machine (Execute.outputs alu) imem).after j t := by
  obtain ⟨j, hj, hM⟩ := seqM_after alu imem b t
  rw [BackEnd.seqE]
  split
  · exact ⟨j + 1, by omega, by rw [hM, Stream.after_succ]; rfl⟩
  · exact ⟨j, by omega, hM⟩

theorem after_core (hs : Stable alu)
    (hi : ∀ a, T.Holds a → a.toNat % 4 = 0 → imem a = load m a 4)
    (hf : s.Follows alu imem T t) {k : Nat}
    (hu : ∀ j ≤ k + 2, OnText alu imem T m ((Seq.machine (Execute.outputs alu) imem).after j t))
    (n : Nat) :
    let M := machine (Execute.outputs alu) dpiInstrMemRead
    let M' := TopCpu.machine (Execute.outputs alu) imem
    (M'.trace n s.core).length ≤ k →
      (M.after n s).core = M'.after n s.core ∧
        (M.after n s).fetch.icache.Serves imem T ∧
        (M.after n s).fetch.icache.Ready (M.after n s).pc := by
  intro M M' hk
  induction n with
  | zero => exact ⟨rfl, hf.serves, hf.ready⟩
  | succ n ih =>
    have hle := (M'.trace_le (Nat.le_succ n) s.core).length_le.trans hk
    obtain ⟨hcore, hserves, hready⟩ := ih hle
    have ht := ((TopCpu.stuttering hs).run hf.tracks n).2
    rw [← hcore] at ht
    have hfol : (M.after n s).Follows alu imem T _ := ⟨ht, hserves, hready⟩
    rw [M.after_succ, M'.after_succ, ← hcore]
    refine hfol.edge hs ?_ fun a ha h4 => ?_
    · obtain ⟨j, hj, hE⟩ := seqE_after alu imem (M.after n s).core.back
        ((Seq.machine (Execute.outputs alu) imem).after (M'.trace n s.core).length t)
      rw [hE, ← Stream.after_add]
      exact (hu _ (by omega)).meets
    · obtain ⟨j, hj, hM⟩ := seqM_after alu imem (M.after n s).core.back
        ((Seq.machine (Execute.outputs alu) imem).after (M'.trace n s.core).length t)
      have hhost : (M.after n s).host = _ := ht.back.host.trans (congrArg Seq.host hM)
      rw [hi a ha h4, Text.dpiInstrMemRead_eq _ ha, hhost, ← Stream.after_add]
      exact Text.load_congr (hu _ (by omega)).mem ha h4

theorem core_reset (exec : RegE → ExecuteOut) (imem : Word → BitVec 32) (s₀ : LinuxTopCpu) :
    (s₀.edge exec fetchMem true).core = s₀.core.edge exec imem true := rfl

theorem pc_reset (exec : RegE → ExecuteOut) (s₀ : LinuxTopCpu) :
    (s₀.edge exec fetchMem true).pc = 0x80000000 := rfl

theorem follows_reset (exec : RegE → ExecuteOut) (s₀ : LinuxTopCpu)
    (h0 : ∀ idx way, (s₀.fetch.icache.cache idx way).valid = false) :
    (s₀.edge exec fetchMem true).Follows alu imem T (s₀.edge exec fetchMem true).core.reset where
  tracks := by
    rw [core_reset exec imem]
    exact TopCpu.tracks_reset exec s₀.core
  serves :=
    { way1 := fun idx => h0 idx .way1
      hit := fun q _ hq => by
        have hv : (s₀.fetch.icache.cache (pcIndex q) .way0).valid = true :=
          (Icache.cacheHitIndex0_iff.mp hq).2
        cases (h0 _ _).symm.trans hv }
  ready := by
    left
    rw [pc_reset]
    rfl

theorem commits_run (hs : Stable alu) (hc : Computes alu ok)
    (hok : ∀ i s, ok i s → Instr.Fits T i s) (exec : RegE → ExecuteOut) (s₀ : LinuxTopCpu)
    (h0 : ∀ idx way, (s₀.fetch.icache.cache idx way).valid = false)
    (h : Run State.fetch (fun i s => ok i s ∧ Instr.InMemory i s)
      (s₀.edge exec dpiInstrMemRead true).core.reset.arch rs a)
    (h' : Run State.fetch (fun i s => ok i s ∧ Instr.InMemory i s) a rs' b)
    (hrs : 3 ≤ rs'.length) :
    let M := machine (Execute.outputs alu) dpiInstrMemRead
    let s := s₀.edge exec dpiInstrMemRead true
    ∃ n ≤ 6 * rs.length, M.trace (n + 1) s = rs.map Retirement.commit ∧
      (M.after (n + 1) s).regfile.regdata = a.regs ∧
      (M.after n s).host.pmem.guest = a.mem := by
  intro M s
  let imem : Word → BitVec 32 := fun pc => load s.host.pmem.guest pc 4
  have hpc : s.pc = 0x80000000 := pc_reset exec s₀
  have ha : s.core.reset.arch.pc.toNat % 4 = 0 := by
    change s.pc.toNat % 4 = 0
    rw [hpc]
    rfl
  have htext {rs : List (Retirement 64)} {a : State 64}
      (h : Run State.fetch (fun i s => ok i s ∧ Instr.InMemory i s) s.core.reset.arch rs a) :
      Run (imem ·.pc) (fun i s => ok i s ∧ Instr.InMemory i s) s.core.reset.arch rs a :=
    Run.of_text (fun i q hq => hok i q hq.1) (fun _ _ _ => rfl) h ha fun _ _ => rfl
  have hu (j : Nat) (hj : j ≤ rs.length + 2) : OnText alu imem T s.host.pmem.guest
      ((Seq.machine (Execute.outputs alu) imem).after j s.core.reset) :=
    meets_run hc hok (htext (h.append h')) s.core.reset rfl ha (fun _ _ => rfl)
      (by rw [List.length_append]; omega)
  let M' := TopCpu.machine (Execute.outputs alu) imem
  have hcore (n : Nat) (hn : (M'.trace n s.core).length ≤ rs.length) :
      (M.after n s).core = M'.after n s.core :=
    (after_core hs (fun _ _ _ => rfl) (follows_reset exec s₀ h0) hu n hn).1
  obtain ⟨n, hn, ht, hr, hm⟩ := TopCpu.commits_run hs hc exec s₀.core (htext h)
  have hle (j : Nat) (hj : j ≤ n + 1) : (M'.trace j s.core).length ≤ rs.length := by
    have hl := (M'.trace_le hj s.core).length_le
    rwa [show M'.trace (n + 1) s.core = _ from ht, List.length_map] at hl
  have hregs : (M.after (n + 1) s).regfile = (M'.after (n + 1) s.core).regfile :=
    congrArg TopCpu.regfile (hcore _ (hle _ (Nat.le_refl _)))
  have hhost : (M.after n s).host = (M'.after n s.core).host :=
    congrArg TopCpu.host (hcore _ (hle _ (Nat.le_succ _)))
  refine ⟨n, hn, ?_, ?_, ?_⟩
  · rw [← ht]
    exact M.trace_congr fun j hj =>
      congrArg M'.port (hcore j (hle j (Nat.le_of_lt hj)))
  · rw [hregs]
    exact hr
  · rw [hhost]
    exact hm

def zero (pmem : Pmem) : LinuxTopCpu where
  pc := 0
  fetch := ⟨⟨0, false⟩, ⟨fun _ _ => ⟨false, 0, 0⟩, 0⟩⟩
  regD := TopCpu.zero.regD
  regE := TopCpu.zero.regE
  regM := TopCpu.zero.regM
  regW := TopCpu.zero.regW
  regfile _ := 0
  host := ⟨pmem, []⟩

end LinuxTopCpu

/-- `linux_cpu`, whose cache is filled from the memory its stores write, commits
every run of RV64I that leaves its text alone and jumps to blocks. -/
theorem LinuxExecute.linuxTopCpu_executes (T : Text) (s₀ : LinuxTopCpu)
    (rs rs' : List (Retirement 64)) (a b : State 64) :
    let M := LinuxTopCpu.machine execute dpiInstrMemRead
    let s := s₀.edge execute dpiInstrMemRead true
    let ok : Instr → State 64 → Prop :=
      fun i q => (Implements i q ∧ Instr.Fits T i q) ∧ Instr.InMemory i q
    (∀ idx way, (s₀.fetch.icache.cache idx way).valid = false) →
      Run State.fetch ok ⟨0x80000000, s.regfile.regdata, s.host.pmem.guest⟩ rs a →
      Run State.fetch ok a rs' b → 3 ≤ rs'.length →
      ∃ n ≤ 6 * rs.length, M.trace (n + 1) s = rs.map Retirement.commit ∧
        (M.after (n + 1) s).regfile.regdata = a.regs ∧ (M.after n s).host.pmem.guest = a.mem :=
  fun h0 h h' hrs => LinuxTopCpu.commits_run aluResult_stable
    (fun hf hi hr => aluResult_result hf hi.1 hr) (fun _ _ hi => hi.2) execute s₀ h0 h h' hrs

theorem LinuxExecute.linuxTopCpu_executes_sb :
    let words : BitVec 192 := 0x000000130000001300000013#96 ++ 0x0020802302a0011300001097#96
    let M := LinuxTopCpu.machine execute dpiInstrMemRead
    let s := (LinuxTopCpu.zero fun a => words.extractLsb' (8 * a.toNat) 8).edge execute
      dpiInstrMemRead true
    ∃ n ≤ 18, M.trace (n + 1) s =
        [⟨0x80000000, 0x00001097, 0x80000004⟩, ⟨0x80000004, 0x02a00113, 0x80000008⟩,
          ⟨0x80000008, 0x00208023, 0x8000000c⟩] ∧
      (M.after n s).host.pmem.guest 0x80001000 = 42 := by
  intro words M s
  let T : Text := ⟨0x80000000, 0x80000030, rfl, rfl, by decide, by decide⟩
  let ok : Instr → State 64 → Prop :=
    fun i q => (Implements i q ∧ Instr.Fits T i q) ∧ Instr.InMemory i q
  let nop : Instr := .opImm .addi 0 0 0
  let q₀ : State 64 := ⟨0x80000000, s.regfile.regdata, s.host.pmem.guest⟩
  let q₁ := (Instr.auipc 1 1).step q₀
  let q₂ := (Instr.opImm .addi 2 0 42).step q₁
  let q₃ := (Instr.store .sb 1 2 0).step q₂
  have hnop (q : State 64) (hq : State.fetch q = nop.encode)
      (hw : T.lo ≤ q.pc.toNat ∧ q.pc.toNat + 12 < T.hi) :
      Step State.fetch ok q (nop.step q) :=
    ⟨nop, hq, ⟨⟨nofun, hw, nofun, nofun⟩, trivial⟩, rfl⟩
  have h₀ : Step State.fetch ok q₀ q₁ :=
    ⟨.auipc 1 1, by decide +kernel, ⟨⟨nofun, by decide, nofun, nofun⟩, trivial⟩, rfl⟩
  have h₁ : Step State.fetch ok q₁ q₂ :=
    ⟨.opImm .addi 2 0 42, by decide +kernel, ⟨⟨nofun, by decide, nofun, nofun⟩, trivial⟩, rfl⟩
  have haddr : q₂.get 1 + (0 : BitVec 12).signExtend 64 = 0x80001000 := by decide +kernel
  have hout (x : Write 64 64) (hx : (Instr.store .sb 1 2 0).write? q₂ = some x) :
      x.addr.toNat + x.len ≤ T.lo ∨ T.hi ≤ x.addr.toNat := by
    rw [← Option.some.inj hx]
    right
    exact Nat.le_trans (by decide) (Nat.le_of_eq (congrArg BitVec.toNat haddr).symm)
  have hin : GuestAccess.Inside (q₂.get 1 + (0 : BitVec 12).signExtend 64) 1 := by
    rw [haddr]
    decide
  have h₂ : Step State.fetch ok q₂ q₃ :=
    ⟨.store .sb 1 2 0, by decide +kernel, ⟨⟨nofun, by decide, nofun, hout⟩, hin⟩, rfl⟩
  obtain ⟨n, hn, ht, -, hm⟩ := linuxTopCpu_executes T
    (LinuxTopCpu.zero fun a => words.extractLsb' (8 * a.toNat) 8) _ _ _ _ (fun _ _ => rfl)
    (.cons h₀ (.cons h₁ (.single h₂)))
    (.cons (hnop q₃ (by decide +kernel) (by decide +kernel))
      (.cons (hnop (nop.step q₃) (by decide +kernel) (by decide +kernel))
        (.single (hnop (nop.step (nop.step q₃)) (by decide +kernel) (by decide +kernel)))))
    (by decide)
  exact ⟨n, hn, ht.trans (by decide +kernel), (congrFun hm _).trans (by decide +kernel)⟩

end LinuxCpu.Rv64
