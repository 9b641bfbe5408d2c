import LinuxCpu.Rv32.TaoShuRvRefine

namespace LinuxCpu.Rv32.TaoShuRv

open RiscV ByteMemory

theorem any_reads (i : Instr) (h : i.rv32i = true) (last : Option Instr) :
    (!(Wires.ofInstr i).noRdata1 && feeds last (Id.rs1 i.encode) ||
      ((Wires.ofInstr i).bType || (Wires.ofInstr i).sType || (Wires.ofInstr i).rType) &&
        feeds last (Id.rs2 i.encode)) = (reads i).any (feeds last) := by
  have hnone (x y : Bool) :
      (false && x || false && y) = (feeds last 0 || (feeds last 0 || false)) := by
    rw [feeds_zero]
    rfl
  have hone (x y : Bool) : (true && x || false && y) = (x || (feeds last 0 || false)) := by
    rw [feeds_zero]
    rfl
  have htwo (x y : Bool) : (true && x || true && y) = (x || (y || false)) := by
    rw [Bool.true_and, Bool.true_and, Bool.or_false]
  cases i with
  | lui | auipc | jal | ecall | ebreak => exact hnone _ _
  | jalr | load | opImm | shiftImm =>
    rw [rs1_encode rfl rfl]
    exact hone _ _
  | branch | store | opReg =>
    rw [rs1_encode rfl rfl, rs2_encode rfl]
    exact htwo _ _
  | fence rd rs1 imm =>
    have h1 : Id.rs1 (Instr.fence rd rs1 imm).encode = rs1 := word_rs1 ..
    rw [h1]
    rfl
  | addiw | shiftImmW | opRegW | mulDiv | mulDivW => cases h

namespace Cpu

def committed (x : Retirement 32) : Word × Bool := (x.pc, x.instr == Instr.ebreak.encode)

/-- The core as seen at the end of `id_stage`. -/
def issues : Clocked Cpu (Word × Bool) := { machine with port := issue }

section Steps

variable {s : Cpu} {i : Instr} {last : Option Instr}

theorem issue_of_not (h : s.idToExeValid = false) : issues.port s = none := by
  change s.issue = none
  rw [issue, h]
  rfl

theorem loadsInto_of_not (h : s.exeValid = false) (r : Reg) : s.loadsInto r = false := by
  rw [loadsInto, h]
  rfl

theorem loadsInto_of_issues (h : Issues s i) (r : Reg) :
    (edge false s).loadsInto r = feeds (some i) r := by
  have hreg : (edge false s).exeReg = issued i s.arch s.rs1Value s.rs2Value := by
    rw [edge_exeReg, h.idToExeValid, if_pos rfl, h.idToExe_eq]
  have hw := rfWrEn_issued (q := s.arch) (a := s.rs1Value) (b := s.rs2Value) h.ok.rv32i
  rw [loadsInto, edge_exeValid, h.idToExeValid, hreg, isLoad_issued h.ok.rv32i, Bool.true_and]
  cases hl : i.isLoad with
  | false => exact (feeds_of_not_load hl r).symm
  | true =>
    cases i with
    | load op rd rs1 imm =>
      have ha : (issued (.load op rd rs1 imm) s.arch s.rs1Value s.rs2Value).regWaddr = rd :=
        word_rd ..
      change (true && IdToExe.rfWrEn _ && r == IdToExe.regWaddr _) = _
      rw [hw, ha]
      rfl
    | _ => cases hl

theorem Inv.idReadyGo_eq (h : Inv s) (hv : s.idValid = true) (hf : s.arch.fetch = i.encode)
    (hi : i.rv32i = true) (hl : ∀ r, s.loadsInto r = feeds last r) :
    s.idReadyGo = !(reads i).any (feeds last) := by
  have hinst : s.idReg.inst = i.encode := congrArg IfToId.inst (h.idReg_eq hv hf)
  have hw : s.wires = .ofInstr i := by rw [wires, hinst, decode_encode hi]
  rw [← any_reads i hi, idReadyGo, useRfRdata1, useRfRdata2, hv, hw, hinst, hl, hl,
    Bool.true_and, Bool.true_and, Bool.not_or]

theorem Inv.steps_stall (h : Inv s) (hv : s.idValid = true) (hf : s.arch.fetch = i.encode)
    (hi : Implements i s.arch) (hl : ∀ r, s.loadsInto r = feeds last r) :
    ∃ s', issues.Steps (stall last i) s [] s' ∧ Issues s' i ∧ s'.arch = s.arch := by
  have hr := h.idReadyGo_eq hv hf hi.rv32i hl
  cases hany : (reads i).any (feeds last) with
  | false =>
    rw [stall, hany]
    exact ⟨s, .refl s, ⟨h, hv, hr.trans (by rw [hany]; rfl), hf, hi⟩, rfl⟩
  | true =>
    rw [hany] at hr
    have hn : s.idToExeValid = false := by rw [idToExeValid, hr]; exact Bool.and_false _
    obtain ⟨h', ha⟩ := h.edge_idle hn
    have hv' : (edge false s).idValid = true :=
      (congrArg Front.idValid (front_stalled (h.next hv).1 hv hr)).trans hv
    have hl' : ∀ r, (edge false s).loadsInto r = feeds none r :=
      loadsInto_of_not ((edge_exeValid s).trans hn)
    have hready := h'.idReadyGo_eq hv' (ha ▸ hf) hi.rv32i hl'
    rw [stall, hany]
    refine ⟨edge false s, .edge_of_none (issue_of_not hn), ⟨h', hv', ?_, ha ▸ hf, ha ▸ hi⟩, ha⟩
    rw [hready, Bool.not_eq_true', List.any_eq_false]
    exact fun _ _ => Bool.false_ne_true

theorem issue_of_issues (h : Issues s i) :
    issues.port s = some (committed ⟨s.arch.pc, s.arch.fetch, (i.step s.arch).pc⟩) := by
  change s.issue = _
  rw [issue, h.idToExeValid, if_pos rfl, h.idToExe_eq, instEbreak_issued h.ok.rv32i, committed,
    h.word]
  rfl

theorem Issues.steps_next (h : Issues s i) :
    ∃ s', issues.Steps (1 + bubble i s.arch) s
        [committed ⟨s.arch.pc, s.arch.fetch, (i.step s.arch).pc⟩] s' ∧
      Inv s' ∧ s'.idValid = true ∧ s'.arch = i.step s.arch ∧
      ∀ r, s'.loadsInto r = feeds (some i) r := by
  have hfirst := Clocked.Steps.edge_of_some (issue_of_issues h)
  have hf1 : (edge false s).ifValid = true := congrArg Front.ifValid h.edge_front
  have hv1 : (edge false s).idValid = !s.branchTaken := congrArg Front.idValid h.edge_front
  rw [h.branchTaken_eq] at hv1
  cases ht : i.transfer s.arch.pc (s.arch.get i.rs1) (s.arch.get i.rs2) with
  | none =>
    rw [ht] at hv1
    rw [bubble, ht]
    exact ⟨_, hfirst, h.inv_edge, hv1, h.edge_arch, loadsInto_of_issues h⟩
  | some t =>
    rw [ht] at hv1
    have hn : (edge false s).idToExeValid = false := by
      rw [Cpu.idToExeValid, hv1]
      rfl
    obtain ⟨hinv, harch⟩ := h.inv_edge.edge_idle hn
    have hv2 : (edge false (edge false s)).idValid = true :=
      (congrArg Front.idValid (front_empty hv1)).trans hf1
    have hl : i.isLoad = false := by
      cases i with
      | load => cases ht
      | _ => rfl
    rw [bubble, ht]
    refine ⟨_, hfirst.trans (.edge_of_none (issue_of_not hn)), hinv, hv2,
      harch.trans h.edge_arch, fun r => ?_⟩
    rw [feeds_of_not_load hl]
    exact loadsInto_of_not ((edge_exeValid _).trans hn) r

/-- A run leaves `id_stage` in its time. -/
theorem Inv.steps_run {q t : State 32} {rs : List (Retirement 32)} {n : Nat}
    (hr : Timed last q rs n t) (h : Inv s) (hv : s.idValid = true) (ha : s.arch = q)
    (hl : ∀ r, s.loadsInto r = feeds last r) :
    ∃ s', issues.Steps n s (rs.map committed) s' ∧ s'.arch = t := by
  induction hr generalizing s with
  | nil => exact ⟨s, .refl s, ha⟩
  | cons hf hi _ ih =>
    subst ha
    obtain ⟨s₁, hsteps, hissues, harch⟩ := h.steps_stall hv hf hi hl
    obtain ⟨s₂, hnext, hinv, hv₂, harch₂, hl₂⟩ := hissues.steps_next
    rw [harch] at hnext harch₂
    obtain ⟨s₃, hrest, ht⟩ := ih hinv hv₂ harch₂ hl₂
    exact ⟨s₃, (hsteps.trans hnext).trans hrest, ht⟩

end Steps

section Reset

variable (s : Cpu)

theorem reset_inv : Inv (edge true s) where
  next h := nomatch h
  held h := nomatch h
  fetched h := nomatch h
  exe h := nomatch h
  early h := nomatch h
  mem h := nomatch h
  wb h := nomatch h
  settled h := nomatch h

theorem reset_arch :
    (edge true s).arch = ⟨memBase, (edge true s).written, (edge true s).mem⟩ := by
  have hw : (edge true s).dataSramWrCtrl = 0 := BitVec.and_zero
  have hpc : (edge true s).pc = memBase := by
    change memBase - 4 + 4 = memBase
    decide
  have hm : (edge true s).memory = (edge true s).mem := by
    rw [memory, hw]
    rfl
  rw [arch, hpc, hm]
  rfl

theorem reset_steps : ∃ s', issues.Steps 2 (edge true s) [] s' ∧ Inv s' ∧ s'.idValid = true ∧
    s'.arch = (edge true s).arch ∧ ∀ r, s'.loadsInto r = feeds none r := by
  let s₀ := edge true s
  have hn₀ : s₀.idToExeValid = false := rfl
  obtain ⟨h₁, ha₁⟩ := (reset_inv s).edge_idle hn₀
  have hv₁ : (edge false s₀).idValid = false := congrArg Front.idValid (front_empty (s := s₀) rfl)
  have hf₁ : (edge false s₀).ifValid = true := congrArg Front.ifValid (front_empty (s := s₀) rfl)
  have hn₁ : (edge false s₀).idToExeValid = false := by
    rw [idToExeValid, hv₁]
    rfl
  obtain ⟨h₂, ha₂⟩ := h₁.edge_idle hn₁
  exact ⟨edge false (edge false s₀),
    (Clocked.Steps.edge_of_none (issue_of_not hn₀)).trans (.edge_of_none (issue_of_not hn₁)), h₂,
    (congrArg Front.idValid (front_empty hv₁)).trans hf₁, ha₂.trans ha₁,
    loadsInto_of_not ((edge_exeValid _).trans hn₁)⟩

theorem reset_trace : machine.trace 3 (edge true s) = [] := by
  apply machine.trace_eq_nil
  intro j hj
  interval_cases j
  · rfl
  · change (edge false (edge true s)).commit = none
    rw [commit, edge_wbValid]
    rfl
  · change (edge false (edge false (edge true s))).commit = none
    rw [commit, edge_wbValid, edge_memValid]
    rfl

end Reset

/-- The pipeline runs RV32I: each instruction of a run is committed in order,
after a cycle of its own, one more if it uses what the load before it has
loaded, and one more if it transfers control. -/
theorem pipeline_executes (s₀ : Cpu) (rs : List (Retirement 32)) (t : State 32)
    (hr : Run State.fetch Implements ⟨memBase, (edge true s₀).written, (edge true s₀).mem⟩ rs t) :
    let s := edge true s₀
    ∃ n, Timed none ⟨memBase, s.written, s.mem⟩ rs n t ∧ rs.length ≤ n ∧ n ≤ 2 * rs.length ∧
      machine.trace (n + 5) s = rs.map committed ∧ (machine.after (n + 3) s).mem = t.mem ∧
      ∀ r, (machine.after (n + 5) s).rdata r = t.get r := by
  intro s
  obtain ⟨n, hn, hlo, hhi⟩ := Timed.exists_of_run hr none
  obtain ⟨s₁, hreset, hinv, hv, ha, hl⟩ := reset_steps s₀
  obtain ⟨s₂, hrun, ht⟩ := hinv.steps_run hn hv (ha.trans (reset_arch s₀)) hl
  have hsteps := hreset.trans hrun
  rw [List.nil_append] at hsteps
  have hafter : machine.after (2 + n) s = s₂ := hsteps.after
  have hdrain : machine.after (n + 5) s = machine.after 3 s₂ := by
    rw [← hafter, ← machine.after_add, (by omega : n + 5 = 3 + (2 + n))]
  refine ⟨n, hn, hlo, ?_, ?_, ?_, fun r => ?_⟩
  · have := hhi 0 fun i => Nat.le_of_eq (stall_of_not_feeds (fun _ => rfl) i)
    omega
  · rw [(by omega : n + 5 = 3 + (2 + n)), machine.trace_of_delay commit_drained, reset_trace]
    exact hsteps.trace
  · have hm : machine.after (n + 3) s = edge false s₂ := by
      rw [← hafter, (by omega : n + 3 = 2 + n + 1)]
      exact machine.after_succ ..
    rw [hm, ← ht]
    rfl
  · rw [hdrain, rdata, rf_drained, ← ht, State.get]
    by_cases h0 : r = 0
    · rw [if_pos h0, if_pos (beq_iff_eq.mpr h0)]
    · rw [if_neg h0, if_neg (mt beq_iff_eq.mp h0)]
      rfl

/-- `lw x2, 0(x1)` behind `auipc x1, 0`, `beq x2, x2, 8` that waits for it, and
`sw x2, 16(x1)` and `ebreak` where it goes. -/
theorem pipeline_executes_beq :
    let words : BitVec 192 := 0x001000730020a82300100193002104630000a10300000097
    let m : Mem 32 := fun a => words.extractLsb' (8 * (a - 0x80000000).toNat) 8
    let s := edge true ⟨false, 0, false, ⟨0, 0⟩, false,
      ⟨0, false, false, false, 0, 0, 0, 0, .xxx, 0, 0, 0, false⟩, false,
      ⟨0, 0, 0, false, 0, 0, false⟩, false, ⟨0, 0, false, 0, false⟩, fun _ => 0, m⟩
    ∃ n, 5 ≤ n ∧ n ≤ 10 ∧
      machine.trace (n + 5) s = [(0x80000000, false), (0x80000004, false), (0x80000008, false),
        (0x80000010, false), (0x80000014, true)] ∧
      (machine.after (n + 5) s).rdata 2 = 0x97 := by
  intro words m s
  let q₀ : State 32 := ⟨memBase, s.written, s.mem⟩
  let q₁ := (Instr.auipc 1 0).step q₀
  let q₂ := (Instr.load .lw 2 1 0).step q₁
  let q₃ := (Instr.branch .beq 2 2 4).step q₂
  let q₄ := (Instr.store .sw 1 2 16).step q₃
  have h₀ : Step State.fetch Implements q₀ q₁ :=
    ⟨.auipc 1 0, by decide +kernel, .plain rfl rfl rfl, rfl⟩
  have h₁ : Step State.fetch Implements q₁ q₂ :=
    ⟨.load .lw 2 1 0, by decide +kernel, .plain rfl rfl rfl, rfl⟩
  have h₂ : Step State.fetch Implements q₂ q₃ :=
    ⟨.branch .beq 2 2 4, by decide +kernel, .plain rfl rfl rfl, rfl⟩
  have h₃ : Step State.fetch Implements q₃ q₄ := by
    refine ⟨.store .sw 1 2 16, by decide +kernel, ⟨rfl, fun _ _ _ h => (nomatch h), ?_⟩, rfl⟩
    intro x hx
    cases hx
    decide +kernel
  have h₄ : Step State.fetch Implements q₄ (Instr.ebreak.step q₄) :=
    ⟨.ebreak, by decide +kernel, .plain rfl rfl rfl, rfl⟩
  obtain ⟨n, -, hlo, hhi, htrace, -, hregs⟩ := pipeline_executes _ _ _
    (.cons h₀ (.cons h₁ (.cons h₂ (.cons h₃ (.single h₄)))))
  exact ⟨n, hlo, hhi, htrace.trans (by decide +kernel), (hregs 2).trans (by decide +kernel)⟩

end Cpu

end LinuxCpu.Rv32.TaoShuRv
