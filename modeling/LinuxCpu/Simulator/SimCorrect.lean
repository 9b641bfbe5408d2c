import LinuxCpu.Simulator.Sim

universe u v

namespace LinuxCpu.Simulator

structure Retired extends Commit where
  write : Option (BitVec 5 × BitVec 64)

def Retired.apply (gpr : Gpr) (c : Retired) : Gpr :=
  match c.write with
  | none => gpr
  | some (rd, data) => Function.update gpr rd data

namespace Dut

variable {σ : Type u} (D : Dut σ) (write : σ → Option (BitVec 5 × BitVec 64))

/-- The device under a low `rst`; `write` is what the instruction of a commit
cycle writes. -/
def machine : Clocked σ Retired where
  edge := D.edge false
  port s :=
    if D.commit s then
      some ⟨⟨D.commitPc s, D.commitInstr s, D.commitPrePc s⟩, write s⟩
    else none

/-- From `s` on, the register file is written only at the edge that ends a
commit cycle, by the instruction of that cycle. -/
abbrev WritesOnCommit (s : σ) : Prop := (D.machine write).Folds D.regfile Retired.apply s

def CommitsWithin (n : Nat) (s : σ) : Prop := ∃ k ≤ n, D.commit ((D.edge false)^[k] s) = true

namespace CommitsWithin

variable {D} {s : σ} {m n : Nat}

theorem here (h : D.commit s = true) : D.CommitsWithin 0 s := ⟨0, Nat.le_refl 0, h⟩

theorem next (h : D.CommitsWithin n (D.edge false s)) : D.CommitsWithin (n + 1) s := by
  obtain ⟨k, hk, hc⟩ := h
  exact ⟨k + 1, Nat.succ_le_succ hk, hc⟩

theorem mono (h : D.CommitsWithin m s) (hmn : m ≤ n) : D.CommitsWithin n s := by
  obtain ⟨k, hk, hc⟩ := h
  exact ⟨k, Nat.le_trans hk hmn, hc⟩

theorem commit (h : D.CommitsWithin 0 s) : D.commit s = true := by
  obtain ⟨k, hk, hc⟩ := h
  cases Nat.le_zero.mp hk
  exact hc

theorem edge (h : D.CommitsWithin (n + 1) s) (hs : D.commit s = false) :
    D.CommitsWithin n (D.edge false s) := by
  obtain ⟨k, hk, hc⟩ := h
  cases k with
  | zero => cases hs.symm.trans hc
  | succ k => exact ⟨k, Nat.le_of_succ_le_succ hk, hc⟩

end CommitsWithin

end Dut

def Check.Differs (k : Check) : Prop := k.nextPc ≠ k.ref.pc ∨ ∃ r, k.gpr r ≠ k.ref.gpr r

def Check.report (k : Check) : Option Report := checkregs k.ref k.pc k.nextPc k.gpr

theorem Check.report_eq_none (k : Check) : k.report = none ↔ ¬ k.Differs := by
  rw [report, checkregs, Differs]
  split
  case isTrue h => simp [h]
  case isFalse h =>
    simp only [List.findSome?_eq_none_iff, h, false_or, not_exists, Decidable.not_not,
      List.mem_range, ite_eq_right_iff, reduceCtorEq, imp_false]
    constructor
    · intro hall r
      have hr := hall r.toNat r.isLt
      rw [BitVec.ofNat_toNat, BitVec.setWidth_eq] at hr
      exact hr.symm
    · intro hall i _
      exact (hall _).symm

instance (k : Check) : Decidable k.Differs :=
  decidable_of_iff (¬ k.report = none) (by rw [k.report_eq_none, Classical.not_not])

def FirstDiffers (ks : List Check) (i : Nat) : Prop :=
  ∃ hi : i < ks.length, ks[i].Differs ∧ ∀ k ∈ ks.take i, ¬ k.Differs

theorem exists_firstDiffers {ks : List Check} (h : ¬ ∀ k ∈ ks, ¬ k.Differs) :
    ∃ i, FirstDiffers ks i := by
  induction ks with
  | nil => simp at h
  | cons k ks ih =>
    by_cases hk : k.Differs
    · exact ⟨0, Nat.succ_pos _, hk, by simp⟩
    · obtain ⟨i, hi, hd, hnone⟩ := ih (by simpa [hk] using h)
      exact ⟨i + 1, Nat.succ_lt_succ hi, hd, by simpa [hk] using hnone⟩

/-- The comparisons for the commits `cs` of a device that starts with `gpr` and
a reference that starts in `r`: the `i`-th is of the reference after `i`
instructions with the `i`-th `commit_pre_pc` and the first `i` writes. -/
def Ref.checks {ρ : Type v} (R : Ref ρ) (gpr : Gpr) (r : ρ) (cs : List Retired) : List Check :=
  cs.mapIdx fun i c =>
    ⟨R.regcpy ((R.exec 1)^[i + 1] r), c.pc, c.prePc, (cs.take (i + 1)).foldl Retired.apply gpr⟩

namespace Ref

variable {ρ : Type v} (R : Ref ρ) (gpr : Gpr) (r : ρ)

def check (cs : List Retired) (c : Retired) : Check :=
  ⟨R.regcpy (R.exec 1 ((R.exec 1)^[cs.length] r)), c.pc, c.prePc,
    (cs ++ [c]).foldl Retired.apply gpr⟩

@[simp] theorem length_checks (cs : List Retired) : (R.checks gpr r cs).length = cs.length :=
  List.length_mapIdx

theorem checks_take (cs : List Retired) (i : Nat) :
    R.checks gpr r (cs.take i) = (R.checks gpr r cs).take i := by
  apply List.ext_getElem
  · simp
  · intro j hj _
    rw [length_checks, List.length_take, Nat.lt_min] at hj
    simp [checks, List.take_take, Nat.min_eq_left (Nat.succ_le_of_lt hj.1)]

theorem checks_concat (cs : List Retired) (c : Retired) :
    R.checks gpr r (cs ++ [c]) = R.checks gpr r cs ++ [R.check gpr r cs c] := by
  rw [checks, List.mapIdx_concat, Function.iterate_succ_apply', List.take_of_length_le (by simp)]
  congr 1
  apply List.ext_getElem
  · simp
  · intro i hi _
    rw [List.length_mapIdx] at hi
    simp [checks, List.take_append_of_le_length (Nat.succ_le_of_lt hi)]

end Ref

namespace Sim

variable {σ : Type u} {ρ : Type v} (D : Dut σ) (R : Ref ρ)
variable (write : σ → Option (BitVec 5 × BitVec 64))

/-- `s` is what `execute` makes of `s₀` by handling the commits `cs`, the first
ones of the device: the last of their edges is the last edge so far. -/
structure Handled (s₀ : Sim σ ρ) (cs : List Retired) (s : Sim σ ρ) : Prop where
  cycles : ∃ t, (D.machine write).trace t s₀.dut = cs ∧
    (∀ j < t, (D.machine write).trace j s₀.dut ≠ cs) ∧
    s.dut = (D.machine write).after t s₀.dut ∧ s.clkCount = s₀.clkCount + BitVec.ofNat 64 t
  cpu : cs ≠ [] → s.cpu = ⟨D.regfile s.dut, D.curPc s.dut⟩
  ref : s.ref = (R.exec 1)^[cs.length] s₀.ref
  itrace : s.itrace = s₀.itrace ++ cs.map fun c => (c.pc, c.instr.setWidth 64)
  checks : s.checks = s₀.checks ++ R.checks (D.regfile s₀.dut) s₀.ref cs
  state : s.state = s₀.state

variable {D R write}

theorem commit_of_none {d : σ} (h : (D.machine write).port d = none) : D.commit d = false := by
  cases hc : D.commit d with
  | false => rfl
  | true => cases (if_pos hc).symm.trans h

theorem commit_of_some {d : σ} {c : Retired} (h : (D.machine write).port d = some c) :
    D.commit d = true ∧ D.commitPc d = c.pc ∧ D.commitInstr d = c.instr ∧
      D.commitPrePc d = c.prePc := by
  cases hc : D.commit d with
  | false => cases (if_neg (hc ▸ Bool.false_ne_true)).symm.trans h
  | true =>
    cases (if_pos hc).symm.trans h
    exact ⟨rfl, rfl, rfl, rfl⟩

theorem add_ofNat_succ (c : BitVec 64) (k : Nat) :
    c + BitVec.ofNat 64 k + 1 = c + BitVec.ofNat 64 (k + 1) := by
  rw [BitVec.ofNat_add, ← BitVec.add_assoc]
  rfl

theorem waitCommit_eq {fuel k : Nat} (hk : k ≤ fuel) (s : Sim σ ρ)
    (hnone : ∀ j < k, (D.machine write).port ((D.machine write).after j s.dut) = none)
    {c : Retired} (hsome : (D.machine write).port ((D.machine write).after k s.dut) = some c) :
    waitCommit D fuel s = .returned
      { s with
        dut := (D.machine write).after k s.dut
        clkCount := s.clkCount + BitVec.ofNat 64 k } := by
  induction k generalizing fuel s with
  | zero =>
    have hc := (commit_of_some hsome).1
    rw [Clocked.after_zero] at hc ⊢
    rw [BitVec.add_zero]
    cases fuel with
    | zero => exact if_pos hc
    | succ fuel => exact if_pos hc
  | succ k ih =>
    cases fuel with
    | zero => exact absurd hk (Nat.not_succ_le_zero k)
    | succ fuel =>
      have hc := commit_of_none (hnone 0 k.succ_pos)
      rw [Clocked.after_zero] at hc
      rw [waitCommit, hc, if_neg Bool.false_ne_true,
        ih (Nat.le_of_succ_le_succ hk) (npcSingleCycle D false s)
          (fun j hj => hnone (j + 1) (Nat.succ_lt_succ hj)) hsome]
      rw [← add_ofNat_succ, add_right_comm]
      rfl

theorem waitCommit_of_commitsWithin {n : Nat} (s : Sim σ ρ) (h : D.CommitsWithin n s.dut) :
    ∃ s', D.commit s'.dut = true ∧ ∀ fuel, waitCommit D (fuel + n) s = .returned s' := by
  induction n generalizing s with
  | zero =>
    have hc := h.commit
    refine ⟨s, hc, fun fuel => ?_⟩
    cases fuel with
    | zero => exact if_pos hc
    | succ fuel => exact if_pos hc
  | succ n ih =>
    cases hc : D.commit s.dut with
    | true => exact ⟨s, hc, fun fuel => if_pos hc⟩
    | false =>
      obtain ⟨s', hs', hwait⟩ := ih (npcSingleCycle D false s) (h.edge hc)
      refine ⟨s', hs', fun fuel => ?_⟩
      rw [← hwait fuel]
      exact if_neg (hc ▸ Bool.false_ne_true)

variable (D R write)

def handle (k : Nat) (c : Retired) (s : Sim σ ρ) : Sim σ ρ :=
  let d := (D.machine write).after (k + 1) s.dut
  { dut := d
    clkCount := s.clkCount + BitVec.ofNat 64 (k + 1)
    cpu := ⟨D.regfile d, D.curPc d⟩
    ref := R.exec 1 s.ref
    state := s.state
    itrace := s.itrace ++ [(c.pc, c.instr.setWidth 64)]
    checks := s.checks ++ [⟨R.regcpy (R.exec 1 s.ref), c.pc, c.prePc, D.regfile d⟩] }

variable {D R write}

theorem execute_succ {fuel k : Nat} (hk : k ≤ fuel) (s : Sim σ ρ)
    (hnone : ∀ j < k, (D.machine write).port ((D.machine write).after j s.dut) = none)
    {c : Retired} (hsome : (D.machine write).port ((D.machine write).after k s.dut) = some c)
    (he : c.instr ≠ 0x00100073) (n : Nat) :
    execute D R fuel (n + 1) s =
      match checkregs (R.regcpy (R.exec 1 s.ref)) c.pc c.prePc
        (D.regfile ((D.machine write).after (k + 1) s.dut)) with
      | none => execute D R fuel n (handle D R write k c s)
      | some report => .exited report (handle D R write k c s) := by
  obtain ⟨-, hpc, hinstr, hpre⟩ := commit_of_some hsome
  have hdut : D.edge false ((D.machine write).after k s.dut) =
      (D.machine write).after (k + 1) s.dut := ((D.machine write).after_succ k s.dut).symm
  rw [execute, waitCommit_eq hk s hnone hsome]
  simp only [hpc, hinstr, hpre, if_neg he, instrTrace, updateCpuState, npcSingleCycle, hdut,
    add_ofNat_succ, difftestStep]
  cases checkregs (R.regcpy (R.exec 1 s.ref)) c.pc c.prePc
    (D.regfile ((D.machine write).after (k + 1) s.dut)) <;> rfl

variable {s₀ s : Sim σ ρ} {cs : List Retired} {c : Retired} {m fuel : Nat}

theorem Handled.execute_succ (h : Handled D R write s₀ cs s) (hw : D.WritesOnCommit write s₀.dut)
    (hf : m ≤ fuel) (hcs : cs ++ [c] <+: (D.machine write).trace m s₀.dut)
    (he : c.instr ≠ 0x00100073) :
    ∃ s', Handled D R write s₀ (cs ++ [c]) s' ∧ ∀ n, execute D R fuel (n + 1) s =
      match (R.check (D.regfile s₀.dut) s₀.ref cs c).report with
      | none => execute D R fuel n s'
      | some report => .exited report s' := by
  obtain ⟨t, ht, -, hdut, hclk⟩ := h.cycles
  have hlt : ((D.machine write).trace t s₀.dut).length <
      ((D.machine write).trace m s₀.dut).length := by
    rw [ht]
    exact Nat.lt_of_lt_of_le (by simp) hcs.length_le
  obtain ⟨k, o, hkm, hnone, hsome, hk⟩ := (D.machine write).exists_next hlt
  rw [← hdut] at hnone hsome
  rw [ht] at hk
  have htrace : (D.machine write).trace (k + t + 1) s₀.dut = cs ++ [o] := by
    rw [Clocked.trace_succ_of_some _ (by rw [Clocked.after_add, ← hdut]; exact hsome), hk]
  have ho : cs ++ [o] = cs ++ [c] := by
    have hpre := (D.machine write).trace_le (Nat.succ_le_of_lt hkm) s₀.dut
    rw [Nat.succ_eq_add_one, htrace] at hpre
    exact (List.prefix_of_prefix_length_le hpre hcs (by simp)).eq_of_length (by simp)
  obtain rfl : o = c := List.singleton_inj.mp (List.append_cancel_left ho)
  have hafter : (D.machine write).after (k + 1) s.dut =
      (D.machine write).after (k + t + 1) s₀.dut := by
    rw [hdut, ← Clocked.after_add, Nat.add_right_comm]
  have hreg : D.regfile ((D.machine write).after (k + 1) s.dut) =
      (cs ++ [o]).foldl Retired.apply (D.regfile s₀.dut) := by
    rw [hafter, hw.after, htrace]
  refine ⟨handle D R write k o s, ?_, fun n => ?_⟩
  · exact
      { cycles := by
          refine ⟨k + t + 1, htrace, fun j hj heq => ?_, hafter, ?_⟩
          · have hle := ((D.machine write).trace_le (Nat.le_of_lt_succ hj) s₀.dut).length_le
            rw [heq, hk, List.length_append] at hle
            exact Nat.not_succ_le_self _ hle
          · rw [handle, hclk, BitVec.add_assoc, ← BitVec.ofNat_add, ← Nat.add_assoc,
              Nat.add_comm t k]
        cpu := fun _ => rfl
        ref := by
          rw [handle, h.ref, List.length_append, List.length_singleton,
            Function.iterate_succ_apply']
        itrace := by
          rw [handle, h.itrace, List.map_append, List.append_assoc]
          rfl
        checks := by
          rw [handle, h.checks, R.checks_concat, List.append_assoc, hreg, h.ref]
          rfl
        state := h.state }
  · rw [Sim.execute_succ (Nat.le_of_lt (Nat.lt_of_le_of_lt (Nat.le_add_right k t) hkm) |>.trans hf)
      s hnone hsome he n, hreg, h.ref]
    rfl

/-- The state after the commits `cs`, if no comparison up to there fails, is the one
from which `execute` goes on. -/
theorem execute_add (s₀ : Sim σ ρ) (hw : D.WritesOnCommit write s₀.dut) (hf : m ≤ fuel)
    (hcs : cs <+: (D.machine write).trace m s₀.dut) (he : ∀ c ∈ cs, c.instr ≠ 0x00100073)
    (hk : ∀ k ∈ R.checks (D.regfile s₀.dut) s₀.ref cs, ¬ k.Differs) :
    ∃ s, Handled D R write s₀ cs s ∧
      ∀ n, execute D R fuel (cs.length + n) s₀ = execute D R fuel n s := by
  induction cs using List.reverseRecOn with
  | nil =>
    refine ⟨s₀, ?_, fun n => by rw [List.length_nil, Nat.zero_add]⟩
    exact
      { cycles := ⟨0, rfl, fun j hj => absurd hj (Nat.not_lt_zero j), rfl, (BitVec.add_zero _).symm⟩
        cpu := fun hne => absurd rfl hne
        ref := rfl
        itrace := (List.append_nil _).symm
        checks := (List.append_nil _).symm
        state := rfl }
  | append_singleton cs c ih =>
    rw [R.checks_concat] at hk
    obtain ⟨s, hs, hrun⟩ := ih ((List.prefix_append cs [c]).trans hcs)
      (fun c hc => he c (List.mem_append_left _ hc)) fun k hk' => hk k (List.mem_append_left _ hk')
    obtain ⟨s', hs', hstep⟩ := hs.execute_succ hw hf hcs (he c (by simp))
    refine ⟨s', hs', fun n => ?_⟩
    have hpass := (Check.report_eq_none _).mpr
      (hk _ (List.mem_append_right _ (List.mem_singleton_self _)))
    rw [List.length_append, List.length_singleton, Nat.add_assoc, Nat.add_comm 1, hrun, hstep,
      hpass]

theorem Handled.length_eq {cs' : List Retired} (h : Handled D R write s₀ cs s)
    (h' : Handled D R write s₀ cs' s) : cs.length = cs'.length := by
  have heq := congrArg List.length (h.checks.symm.trans h'.checks)
  rwa [List.length_append, List.length_append, Ref.length_checks, Ref.length_checks,
    Nat.add_left_cancel_iff] at heq

theorem execute_exit (s₀ : Sim σ ρ) (hw : D.WritesOnCommit write s₀.dut) (hf : m ≤ fuel)
    (hcs : cs ++ [c] <+: (D.machine write).trace m s₀.dut)
    (he : ∀ c' ∈ cs ++ [c], c'.instr ≠ 0x00100073)
    (hk : ∀ k ∈ R.checks (D.regfile s₀.dut) s₀.ref cs, ¬ k.Differs)
    (hc : (R.check (D.regfile s₀.dut) s₀.ref cs c).Differs) (n : Nat) :
    ∃ report s, execute D R fuel (cs.length + (n + 1)) s₀ = .exited report s ∧
      Handled D R write s₀ (cs ++ [c]) s := by
  obtain ⟨s, hs, hrun⟩ := execute_add s₀ hw hf ((List.prefix_append cs [c]).trans hcs)
    (fun c hc => he c (List.mem_append_left _ hc)) hk
  obtain ⟨s', hs', hstep⟩ := hs.execute_succ hw hf hcs (he c (by simp))
  cases hr : (R.check (D.regfile s₀.dut) s₀.ref cs c).report with
  | none => exact absurd hc ((Check.report_eq_none _).mp hr)
  | some report => exact ⟨report, s', by rw [hrun, hstep, hr], hs'⟩

theorem execute_first (s₀ : Sim σ ρ) (hw : D.WritesOnCommit write s₀.dut) (hf : m ≤ fuel)
    (hcs : cs <+: (D.machine write).trace m s₀.dut) (he : ∀ c ∈ cs, c.instr ≠ 0x00100073) {i : Nat}
    (hi : FirstDiffers (R.checks (D.regfile s₀.dut) s₀.ref cs) i) :
    ∃ report s, execute D R fuel cs.length s₀ = .exited report s ∧
      Handled D R write s₀ (cs.take (i + 1)) s := by
  obtain ⟨hi, hd, hnone⟩ := hi
  have hi' : i < cs.length := R.length_checks _ _ cs ▸ hi
  have htake : cs.take i ++ [cs[i]] = cs.take (i + 1) := List.take_append_getElem hi'
  have hcat := R.checks_concat (D.regfile s₀.dut) s₀.ref (cs.take i) cs[i]
  rw [htake, R.checks_take, R.checks_take, ← List.take_append_getElem hi] at hcat
  rw [List.singleton_inj.mp (List.append_cancel_left hcat)] at hd
  rw [← R.checks_take] at hnone
  have hpre : cs.take (i + 1) <+: cs := List.take_prefix _ cs
  have hrun := execute_exit s₀ hw hf (htake ▸ hpre.trans hcs)
    (fun c hc => he c (List.mem_of_mem_take (htake ▸ hc))) hnone hd (cs.length - (i + 1))
  rwa [htake, List.length_take_of_le (Nat.le_of_lt hi'), Nat.add_comm _ 1, ← Nat.add_assoc,
    Nat.add_sub_cancel' hi'] at hrun

/-- The loop neither skips nor repeats a commit, and `checkregs` reports the
first comparison that fails. -/
theorem execute_lockstep (D : Dut σ) (R : Ref ρ) (write : σ → Option (BitVec 5 × BitVec 64))
    (s₀ : Sim σ ρ) (hw : D.WritesOnCommit write s₀.dut) (n m fuel : Nat)
    (hn : n ≤ ((D.machine write).trace m s₀.dut).length) (hf : m ≤ fuel)
    (he : ∀ c ∈ ((D.machine write).trace m s₀.dut).take n, c.instr ≠ 0x00100073) :
    let cs := ((D.machine write).trace m s₀.dut).take n
    let checks := R.checks (D.regfile s₀.dut) s₀.ref cs
    ((∀ k ∈ checks, ¬ k.Differs) ↔
      ∃ s, execute D R fuel n s₀ = .returned s ∧ Handled D R write s₀ cs s) ∧
    ∀ i < n, FirstDiffers checks i ↔ ∃ report s, execute D R fuel n s₀ = .exited report s ∧
      Handled D R write s₀ (cs.take (i + 1)) s := by
  intro cs checks
  have hlen : cs.length = n := List.length_take_of_le hn
  have hpre : cs <+: (D.machine write).trace m s₀.dut := List.take_prefix n _
  have hpass : (∀ k ∈ checks, ¬ k.Differs) →
      ∃ s, execute D R fuel n s₀ = .returned s ∧ Handled D R write s₀ cs s := by
    intro hall
    obtain ⟨s, hs, hrun⟩ := execute_add s₀ hw hf hpre he hall
    exact ⟨s, hlen ▸ hrun 0, hs⟩
  have hfail : ∀ i, FirstDiffers checks i → ∃ report s, execute D R fuel n s₀ = .exited report s ∧
      Handled D R write s₀ (cs.take (i + 1)) s := by
    intro i hi
    rw [← hlen]
    exact execute_first s₀ hw hf hpre he hi
  refine ⟨⟨hpass, ?_⟩, fun i hin => ⟨hfail i, ?_⟩⟩
  · rintro ⟨s, hs, -⟩
    by_contra hall
    obtain ⟨i, hi⟩ := exists_firstDiffers hall
    obtain ⟨_, _, hs', -⟩ := hfail i hi
    cases hs.symm.trans hs'
  · rintro ⟨report, s, hs, hh⟩
    by_cases hall : ∀ k ∈ checks, ¬ k.Differs
    · obtain ⟨_, hs', -⟩ := hpass hall
      cases hs.symm.trans hs'
    · obtain ⟨j, hj⟩ := exists_firstDiffers hall
      obtain ⟨_, _, hs', hh'⟩ := hfail j hj
      cases hs.symm.trans hs'
      have hjn : j < cs.length := R.length_checks _ _ cs ▸ hj.1
      have hij := hh.length_eq hh'
      rw [List.length_take_of_le (hlen ▸ hin), List.length_take_of_le hjn, Nat.succ_inj] at hij
      exact hij ▸ hj

/-- A device that counts its cycles and commits `addi x1, x1, 1` in every one
but the multiples of three. -/
def pulse : Dut (Nat × Gpr) where
  edge _ s := (s.1 + 1, if s.1 % 3 = 0 then s.2 else Function.update s.2 1 (s.2 1 + 1))
  commit s := s.1 % 3 ≠ 0
  commitPc s := 0x80000000 + 4 * s.2 1
  commitPrePc s := 0x80000004 + 4 * s.2 1
  commitInstr _ := 0x00108093
  curPc s := 0x80000000 + 4 * s.2 1
  regfile := Prod.snd

def adder : Ref (BitVec 64) where
  exec n x := x + BitVec.ofNat 64 n
  regcpy x := ⟨Function.update (fun _ => 0) 1 x, 0x80000000 + 4 * x⟩

def pulseWrite (s : Nat × Gpr) : Option (BitVec 5 × BitVec 64) := some (1, s.2 1 + 1)

def pulseStart : Sim (Nat × Gpr) (BitVec 64) :=
  ⟨(0, fun _ => 0), 0, ⟨fun _ => 0, 0⟩, 0, .simRunning, [], []⟩

theorem pulse_writesOnCommit (s : Nat × Gpr) : pulse.WritesOnCommit pulseWrite s := by
  intro t
  rw [Clocked.after_succ]
  generalize (pulse.machine pulseWrite).after t s = q
  by_cases hq : q.1 % 3 = 0
  · simp [Dut.machine, pulse, hq]
  · simp [Dut.machine, pulse, hq, Retired.apply, pulseWrite]

theorem execute_lockstep_pulse :
    ∃ s, execute pulse adder 5 3 pulseStart = .returned s ∧
      Handled pulse adder pulseWrite pulseStart
        (((pulse.machine pulseWrite).trace 5 pulseStart.dut).take 3) s :=
  (execute_lockstep pulse adder pulseWrite pulseStart (pulse_writesOnCommit _) 3 5 5
    (by decide) (by decide) (by decide)).1.mp (by decide)

end Sim

end LinuxCpu.Simulator
