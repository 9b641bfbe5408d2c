import LinuxCpu.Rv32.TaoShuRvCorrect
import LinuxCpu.Rv32.TaoShuRvTiming

/-! `TaoShuRV` as a pipeline: what its stages hold between two instructions of
RV32I, and when each instruction leaves `id_stage`. -/

namespace LinuxCpu.Rv32.TaoShuRv

open RiscV ByteMemory

namespace RfWrite

variable (w : RfWrite)

def onto (valid : Bool) (rf : Regfile) : Regfile := fun r =>
  if valid && w.wrEn && r == w.waddr then w.wdata else rf r

@[simp] theorem onto_false (rf : Regfile) : w.onto false rf = rf := rfl

theorem onto_onto (rf : Regfile) : w.onto true (w.onto true rf) = w.onto true rf := by
  funext r
  simp only [onto]
  split <;> rfl

theorem onto_of_match {rf : Regfile} {valid : Bool} {r : Reg}
    (h : (valid && w.wrEn && r == w.waddr) = true) : w.onto valid rf r = w.wdata := if_pos h

theorem onto_of_not {rf : Regfile} {valid : Bool} {r : Reg}
    (h : ¬ (valid && w.wrEn && r == w.waddr) = true) : w.onto valid rf r = rf r := if_neg h

theorem update_eq_onto (rf : Regfile) :
    (if w.wrEn then Function.update rf w.waddr w.wdata else rf) = w.onto true rf := by
  funext r
  cases hw : w.wrEn with
  | false => simp [onto, hw]
  | true => by_cases hr : r = w.waddr <;> simp [onto, hw, hr, Function.update_of_ne]

end RfWrite

namespace Cpu

section Wires

variable (s : Cpu)

@[simp] theorem wbAllowIn_eq : s.wbAllowIn = true := Bool.or_true _

@[simp] theorem memAllowIn_eq : s.memAllowIn = true := by simp [memAllowIn]

@[simp] theorem exeAllowIn_eq : s.exeAllowIn = true := by simp [exeAllowIn]

@[simp] theorem ifToIdValid_eq : s.ifToIdValid = s.ifValid := Bool.and_true _

def written : Regfile := s.wbReg.toId.onto true s.rf

def memory : Mem 32 := Dmem.edge s.dataSramWrCtrl s.exeReg.aluResult s.exeReg.rs2Value s.mem

/-- The registers as the instructions before the one in `id_stage` leave them. -/
def regs : Regfile :=
  (s.exeReg.toMem s.mem).bypass.onto s.exeValid (s.memReg.bypass.onto s.memValid s.written)

def pc : Word := if s.idValid then s.idReg.pc else if s.ifValid then s.ifPc else s.ifPc + 4

def arch : State 32 := ⟨s.pc, s.regs, s.memory⟩

def issue : Option (Word × Bool) :=
  if s.idToExeValid then some (s.idToExe.pc, s.idToExe.instEbreak) else none

end Wires

section Edge

variable (s : Cpu)

theorem edge_rf : (edge false s).rf = s.written := s.wbReg.toId.update_eq_onto s.rf

theorem edge_wbReg : (edge false s).wbReg = if s.memValid then s.memReg.toWb else s.wbReg := by
  simp [edge, memToWbValid]

theorem edge_wbValid : (edge false s).wbValid = s.memValid := by simp [edge, memToWbValid]

theorem edge_written : (edge false s).written = s.memReg.bypass.onto s.memValid s.written := by
  rw [written, edge_rf, edge_wbReg]
  cases s.memValid with
  | true => rfl
  | false => exact s.wbReg.toId.onto_onto s.rf

theorem edge_exeReg : (edge false s).exeReg = if s.idToExeValid then s.idToExe else s.exeReg := by
  simp [edge]

theorem edge_exeValid : (edge false s).exeValid = s.idToExeValid := by simp [edge]

theorem edge_memReg :
    (edge false s).memReg = if s.exeValid then s.exeReg.toMem s.mem else s.memReg := by
  simp [edge, exeToMemValid]

theorem edge_memValid : (edge false s).memValid = s.exeValid := by simp [edge, exeToMemValid]

theorem edge_memBypass (rf : Regfile) :
    (edge false s).memReg.bypass.onto (edge false s).memValid rf =
      (s.exeReg.toMem s.mem).bypass.onto s.exeValid rf := by
  rw [edge_memReg, edge_memValid]
  cases s.exeValid <;> rfl

theorem edge_regs : (edge false s).regs =
    (s.idToExe.toMem s.memory).bypass.onto s.idToExeValid s.regs := by
  have hm : (edge false s).mem = s.memory := rfl
  rw [regs, edge_memBypass, edge_written, edge_exeReg, edge_exeValid, hm]
  cases s.idToExeValid <;> rfl

theorem edge_memory : (edge false s).memory =
    if s.idToExeValid then
      Dmem.edge s.idToExe.dmWrCtrl s.idToExe.aluResult s.idToExe.rs2Value s.memory
    else s.memory := by
  have hm : (edge false s).mem = s.memory := rfl
  rw [memory, dataSramWrCtrl, edge_exeReg, edge_exeValid, hm, BitVec.and_comm, Bits.fill_and]
  cases s.idToExeValid <;> rfl

theorem rf_drained : (machine.after 3 s).rf = s.regs := by
  change (edge false (edge false (edge false s))).rf = _
  rw [edge_rf, edge_written, edge_written, edge_memBypass]
  rfl

/-- An instruction is committed three edges after it leaves `id_stage`. -/
theorem commit_drained : machine.port (machine.after 3 s) = s.issue := by
  change (edge false (edge false (edge false s))).commit = _
  rw [commit, edge_wbValid, edge_wbReg, edge_memValid, edge_memReg, edge_exeValid, edge_exeReg]
  cases h : s.idToExeValid <;> simp [issue, h, ExeToMem.toWb, IdToExe.toMem]

end Edge

/-- An instruction neither writes `x0` nor is it bypassed to `id_stage` before
its result is there; what `if_stage` reads and what `id_stage` holds is what
memory will hold. -/
structure Inv (s : Cpu) : Prop where
  next : s.idValid = true → s.ifValid = true ∧ s.ifPc = s.idReg.pc + 4
  held : s.idValid = true → s.idReg.inst = dpiMemRead s.memory s.idReg.pc 4
  fetched : s.ifValid = true → dpiMemRead s.mem s.ifPc 4 = dpiMemRead s.memory s.ifPc 4
  exe : s.exeValid = true → s.exeReg.rfWrEn = true → s.exeReg.regWaddr ≠ 0
  early : s.idValid = true → s.exeValid = true → s.exeReg.rfWrEn = true →
    s.exeReg.isLoad = false → (s.exeReg.toMem s.mem).finalResult = s.exeReg.aluResult
  mem : s.memValid = true → s.memReg.rfWrEn = true → s.memReg.regWaddr ≠ 0
  wb : s.wbValid = true → s.wbReg.rfWrEn = true → s.wbReg.regWaddr ≠ 0
  settled : s.idValid = true → s.wbValid = false → s.written = s.rf

section Read

variable {s : Cpu}

theorem get_arch {r : Reg} (h : r ≠ 0) : s.arch.get r = s.regs r := if_neg h

theorem Inv.rsValue_eq (h : Inv s) (hv : s.idValid = true) {r : Reg}
    (hl : s.loadsInto r = false) : s.rsValue r = s.arch.get r := by
  by_cases he : (s.exeValid && s.exeReg.bypass.wrEn && r == s.exeReg.bypass.waddr) = true
  · obtain ⟨⟨hev, hew⟩, hr⟩ : (s.exeValid = true ∧ s.exeReg.rfWrEn = true) ∧
        r = s.exeReg.regWaddr := by simpa [IdToExe.bypass] using he
    have hnl : s.exeReg.isLoad = false := by
      simpa [loadsInto, IdToExe.bypass, hev, hew, hr] using hl
    have hr0 : r ≠ 0 := hr ▸ h.exe hev hew
    rw [get_arch hr0, rsValue, if_pos he, regs,
      RfWrite.onto_of_match (s.exeReg.toMem s.mem).bypass he]
    exact (h.early hv hev hew hnl).symm
  have hregs : s.regs r = s.memReg.bypass.onto s.memValid s.written r :=
    RfWrite.onto_of_not (s.exeReg.toMem s.mem).bypass he
  by_cases hm : (s.memValid && s.memReg.bypass.wrEn && r == s.memReg.bypass.waddr) = true
  · obtain ⟨⟨hmv, hmw⟩, hr⟩ : (s.memValid = true ∧ s.memReg.rfWrEn = true) ∧
        r = s.memReg.regWaddr := by simpa [ExeToMem.bypass] using hm
    rw [get_arch (hr ▸ h.mem hmv hmw), rsValue, if_neg he, if_pos hm, hregs,
      RfWrite.onto_of_match _ hm]
  rw [RfWrite.onto_of_not _ hm] at hregs
  by_cases hw : (s.wbValid && s.wbReg.toId.wrEn && r == s.wbReg.toId.waddr) = true
  · obtain ⟨⟨hwv, hww⟩, hr⟩ : (s.wbValid = true ∧ s.wbReg.rfWrEn = true) ∧
        r = s.wbReg.regWaddr := by simpa [MemToWb.toId] using hw
    have hmatch : (true && s.wbReg.toId.wrEn && r == s.wbReg.toId.waddr) = true := hwv ▸ hw
    rw [get_arch (hr ▸ h.wb hwv hww), rsValue, if_neg he, if_neg hm, if_pos hw, hregs, written,
      RfWrite.onto_of_match _ hmatch]
  -- what `regfile` holds is written already, or no instruction waits to write it
  have hrf : s.written r = s.rf r := by
    cases hwv : s.wbValid with
    | true => exact RfWrite.onto_of_not _ (hwv ▸ hw)
    | false => exact congrFun (h.settled hv hwv) r
  rw [rsValue, if_neg he, if_neg hm, if_neg hw, rdata, State.get]
  by_cases hr : r = 0
  · rw [if_pos hr, if_pos (beq_iff_eq.mpr hr)]
  · rw [if_neg hr, if_neg (mt beq_iff_eq.mp hr), ← hrf]
    exact hregs.symm

end Read

structure Front where
  ifValid : Bool
  ifPc : Word
  idValid : Bool
  idReg : IfToId

def front (s : Cpu) : Front := ⟨s.ifValid, s.ifPc, s.idValid, s.idReg⟩

section FrontEdge

variable {s : Cpu}

theorem front_stalled (hf : s.ifValid = true) (hv : s.idValid = true)
    (hr : s.idReadyGo = false) : (edge false s).front = s.front := by
  simp [front, edge, ifAllowIn, idAllowIn, branchTakenCancel, hf, hv, hr]

theorem front_empty (hv : s.idValid = false) : (edge false s).front =
    ⟨true, s.ifPc + 4, s.ifValid, if s.ifValid then s.ifToId else s.idReg⟩ := by
  simp [front, edge, ifAllowIn, idAllowIn, branchTakenCancel, nextpc, branchTaken, Id.branchTaken,
    hv]

theorem front_issued (hf : s.ifValid = true) (hv : s.idValid = true) (hr : s.idReadyGo = true) :
    (edge false s).front = ⟨true, s.nextpc, !s.branchTaken, s.ifToId⟩ := by
  cases hb : s.branchTaken <;>
    simp [front, edge, ifAllowIn, idAllowIn, branchTakenCancel, hf, hv, hr, hb]

end FrontEdge

section Idle

variable {s : Cpu}

theorem Inv.edge_back (h : Inv s) :
    ((edge false s).memValid = true → (edge false s).memReg.rfWrEn = true →
        (edge false s).memReg.regWaddr ≠ 0) ∧
      ((edge false s).wbValid = true → (edge false s).wbReg.rfWrEn = true →
        (edge false s).wbReg.regWaddr ≠ 0) ∧
      ((edge false s).wbValid = false → (edge false s).written = (edge false s).rf) := by
  rw [edge_memValid, edge_memReg, edge_wbValid, edge_wbReg, edge_written, edge_rf]
  refine ⟨fun hv => ?_, fun hv => ?_, fun hv => ?_⟩
  · rw [if_pos hv]
    exact h.exe hv
  · rw [if_pos hv]
    exact h.mem hv
  · rw [hv, RfWrite.onto_false]

/-- A cycle in which nothing leaves `id_stage` changes nothing the architecture
sees, whether a load holds `id_stage` up or a transfer has emptied it. -/
theorem Inv.edge_idle (h : Inv s) (hi : s.idToExeValid = false) :
    Inv (edge false s) ∧ (edge false s).arch = s.arch := by
  have hregs : (edge false s).regs = s.regs := by rw [edge_regs, hi, RfWrite.onto_false]
  have hmem : (edge false s).memory = s.memory := by
    rw [edge_memory, hi]
    rfl
  have hexe : (edge false s).exeValid = false := s.edge_exeValid.trans hi
  obtain ⟨hmemory, hwb, hset⟩ := h.edge_back
  have harch (hpc : (edge false s).pc = s.pc) : (edge false s).arch = s.arch := by
    rw [arch, arch, hpc, hregs, hmem]
  cases hv : s.idValid with
  | false =>
    have hf := front_empty hv
    have h1 : (edge false s).ifValid = true := congrArg Front.ifValid hf
    have h2 : (edge false s).ifPc = s.ifPc + 4 := congrArg Front.ifPc hf
    have h3 : (edge false s).idValid = s.ifValid := congrArg Front.idValid hf
    have h4 : s.ifValid = true → (edge false s).idReg = s.ifToId := fun he =>
      (congrArg Front.idReg hf).trans (if_pos he)
    constructor
    · exact
        { next := fun he => ⟨h1, by rw [h2, h4 (h3 ▸ he)]; rfl⟩
          held := fun he => by
            rw [h4 (h3 ▸ he), hmem]
            exact h.fetched (h3 ▸ he)
          fetched := fun _ => congrArg (dpiMemRead · _ 4) hmem.symm
          exe := fun he => absurd he (by rw [hexe]; exact Bool.false_ne_true)
          early := fun _ he => absurd he (by rw [hexe]; exact Bool.false_ne_true)
          mem := hmemory
          wb := hwb
          settled := fun _ => hset }
    · apply harch
      rw [pc, pc, h1, h2, h3, hv, if_pos rfl, if_neg Bool.false_ne_true]
      split
      · next he => rw [h4 he]; rfl
      · rfl
  | true =>
    have hr : s.idReadyGo = false := by rwa [idToExeValid, hv, Bool.true_and] at hi
    have hf := front_stalled (h.next hv).1 hv hr
    have h1 : (edge false s).ifValid = s.ifValid := congrArg Front.ifValid hf
    have h2 : (edge false s).ifPc = s.ifPc := congrArg Front.ifPc hf
    have h3 : (edge false s).idValid = s.idValid := congrArg Front.idValid hf
    have h4 : (edge false s).idReg = s.idReg := congrArg Front.idReg hf
    constructor
    · exact
        { next := fun _ => by
            rw [h1, h2, h4]
            exact h.next hv
          held := fun _ => by
            rw [h4, hmem]
            exact h.held hv
          fetched := fun _ => congrArg (dpiMemRead · _ 4) hmem.symm
          exe := fun he => absurd he (by rw [hexe]; exact Bool.false_ne_true)
          early := fun _ he => absurd he (by rw [hexe]; exact Bool.false_ne_true)
          mem := hmemory
          wb := hwb
          settled := fun _ => hset }
    · apply harch
      rw [pc, pc, h1, h2, h3, h4]

end Idle

structure Issues (s : Cpu) (i : Instr) : Prop where
  inv : Inv s
  valid : s.idValid = true
  ready : s.idReadyGo = true
  word : s.arch.fetch = i.encode
  ok : Implements i s.arch

section Issue

variable {s : Cpu} {i : Instr}

theorem Inv.idReg_eq (h : Inv s) (hv : s.idValid = true) (hf : s.arch.fetch = i.encode) :
    s.idReg = ⟨s.arch.pc, i.encode⟩ := by
  have hpc : s.arch.pc = s.idReg.pc := if_pos hv
  have hinst : s.idReg.inst = i.encode := by
    rw [← hf, State.fetch, hpc]
    exact (h.held hv).trans (BitVec.setWidth_eq _)
  rw [hpc, ← hinst]

namespace Issues

theorem idReg_eq (h : Issues s i) : s.idReg = ⟨s.arch.pc, i.encode⟩ :=
  h.inv.idReg_eq h.valid h.word

theorem idToExeValid (h : Issues s i) : s.idToExeValid = true := by
  rw [Cpu.idToExeValid, h.valid, h.ready]
  rfl

theorem idToExe_eq (h : Issues s i) : s.idToExe = issued i s.arch s.rs1Value s.rs2Value := by
  rw [idToExe, h.idReg_eq, h.valid]
  rfl

theorem operands (h : Issues s i) : Operands i s.arch s.rs1Value s.rs2Value := by
  have hinst : s.idReg.inst = i.encode := congrArg IfToId.inst h.idReg_eq
  have hw : s.wires = .ofInstr i := by rw [wires, hinst, decode_encode h.ok.rv32i]
  have hr := h.ready
  rw [idReadyGo, Bool.and_eq_true, Bool.not_eq_true', Bool.not_eq_true', useRfRdata1, useRfRdata2,
    h.valid, hw, hinst, Bool.true_and, Bool.true_and] at hr
  constructor
  · intro hn
    have hl : s.loadsInto (Id.rs1 i.encode) = false := by simpa [hn] using hr.1
    rw [rs1Value, hinst]
    exact h.inv.rsValue_eq h.valid hl
  · intro hn
    have hl : s.loadsInto (Id.rs2 i.encode) = false := by simpa [hn] using hr.2
    rw [rs2Value, hinst]
    exact h.inv.rsValue_eq h.valid hl

theorem edge_regs (h : Issues s i) : (edge false s).regs = (i.step s.arch).regs := by
  rw [Cpu.edge_regs, h.idToExeValid, h.idToExe_eq]
  let w := ((issued i s.arch s.rs1Value s.rs2Value).toMem s.memory).bypass
  have hw : w.wrEn = i.dest.any fun rd => rd != 0 :=
    rfWrEn_issued (a := s.rs1Value) (b := s.rs2Value) h.ok.rv32i
  funext r
  change w.onto true s.regs r = _
  rw [Instr.step_regs]
  cases hd : i.dest with
  | none =>
    rw [if_neg fun hn => nomatch hn.1]
    exact w.onto_of_not (by simp [hw, hd])
  | some rd =>
    have ha : w.waddr = rd := rd_encode hd
    by_cases hm : some rd = some r ∧ r ≠ 0
    · obtain ⟨rfl, h0⟩ : rd = r ∧ r ≠ 0 := ⟨Option.some.inj hm.1, hm.2⟩
      rw [if_pos hm, ← finalResult_issued h.ok.rv32i h.operands (hd ▸ rfl)]
      exact w.onto_of_match (by simpa [hw, hd, ha] using h0)
    · rw [if_neg hm]
      refine w.onto_of_not fun hn => hm ?_
      obtain ⟨h0, rfl⟩ : rd ≠ 0 ∧ r = rd := by simpa [hw, hd, ha] using hn
      exact ⟨rfl, h0⟩

theorem edge_memory (h : Issues s i) : (edge false s).memory = (i.step s.arch).mem := by
  rw [Cpu.edge_memory, h.idToExeValid, if_pos rfl, h.idToExe_eq]
  exact dmemEdge_issued h.ok.rv32i h.operands

theorem branchTaken_eq (h : Issues s i) :
    s.branchTaken = (i.transfer s.arch.pc (s.arch.get i.rs1) (s.arch.get i.rs2)).isSome := by
  rw [branchTaken, h.idReg_eq, h.valid]
  exact branchTaken_issued h.ok.rv32i h.operands

theorem ifPc_eq (h : Issues s i) : s.ifPc = s.arch.pc + 4 := by
  rw [(h.inv.next h.valid).2, h.idReg_eq]

theorem nextpc_eq (h : Issues s i) :
    s.nextpc = if s.branchTaken then (i.step s.arch).pc else s.arch.pc + 4 + 4 := by
  rw [nextpc]
  cases hb : s.branchTaken with
  | false => rw [if_neg Bool.false_ne_true, if_neg Bool.false_ne_true, h.ifPc_eq]
  | true =>
    obtain ⟨t, ht⟩ := Option.isSome_iff_exists.mp (h.branchTaken_eq ▸ hb)
    rw [if_pos rfl, if_pos rfl, branchTarget, h.idReg_eq, Instr.step_pc, ht]
    exact branchTarget_issued h.ok.rv32i h.operands ht h.ok.even

theorem edge_front (h : Issues s i) :
    (edge false s).front = ⟨true, s.nextpc, !s.branchTaken, s.ifToId⟩ :=
  front_issued (h.inv.next h.valid).1 h.valid h.ready

theorem edge_pc (h : Issues s i) : (edge false s).pc = (i.step s.arch).pc := by
  have h1 : (edge false s).ifValid = true := congrArg Front.ifValid h.edge_front
  have h2 : (edge false s).ifPc = s.nextpc := congrArg Front.ifPc h.edge_front
  have h3 : (edge false s).idValid = !s.branchTaken := congrArg Front.idValid h.edge_front
  have h4 : (edge false s).idReg = s.ifToId := congrArg Front.idReg h.edge_front
  rw [pc, h1, h2, h3, h4, if_pos rfl, h.nextpc_eq]
  have hb := h.branchTaken_eq
  cases ht : i.transfer s.arch.pc (s.arch.get i.rs1) (s.arch.get i.rs2) with
  | some t =>
    rw [hb, ht]
    rfl
  | none =>
    rw [hb, ht, Instr.step_pc, ht]
    exact h.ifPc_eq

theorem edge_arch (h : Issues s i) : (edge false s).arch = i.step s.arch := by
  rw [arch, h.edge_pc, h.edge_regs, h.edge_memory]

end Issues

theorem Issues.inv_edge (h : Issues s i) : Inv (edge false s) := by
  obtain ⟨hmem, hwb, hset⟩ := h.inv.edge_back
  have h1 : (edge false s).ifPc = s.nextpc := congrArg Front.ifPc h.edge_front
  have h2 : (edge false s).idValid = !s.branchTaken := congrArg Front.idValid h.edge_front
  have h3 : (edge false s).idReg = s.ifToId := congrArg Front.idReg h.edge_front
  have hreg : (edge false s).exeReg = issued i s.arch s.rs1Value s.rs2Value := by
    rw [edge_exeReg, h.idToExeValid, if_pos rfl, h.idToExe_eq]
  have hdest : (edge false s).exeReg.rfWrEn = true → ∃ rd, i.dest = some rd ∧ rd ≠ 0 := by
    rw [hreg, rfWrEn_issued h.ok.rv32i]
    cases hd : i.dest with
    | none => exact fun hn => absurd hn Bool.false_ne_true
    | some rd => exact fun hn => ⟨rd, rfl, bne_iff_ne.mp hn⟩
  exact
    { next := fun hn => by
        rw [h2, Bool.not_eq_true'] at hn
        refine ⟨congrArg Front.ifValid h.edge_front, ?_⟩
        rw [h1, h.nextpc_eq, hn, h3, if_neg Bool.false_ne_true, ← h.ifPc_eq]
        rfl
      held := fun _ => by
        have hpc : s.ifToId.pc = s.arch.pc + 4 + BitVec.ofNat 32 0 :=
          h.ifPc_eq.trans (BitVec.add_zero _).symm
        rw [h3, h.edge_memory, h.ok.load_step hpc (by decide)]
        exact h.inv.fetched (h.inv.next h.valid).1
      fetched := fun _ => by
        rw [h1, h.edge_memory, h.nextpc_eq]
        split
        · next hb =>
          obtain ⟨t, ht⟩ := Option.isSome_iff_exists.mp (h.branchTaken_eq ▸ hb)
          rw [Instr.step_mem, write?_of_transfer ht]
          rfl
        · exact (h.ok.load_step (k := 4) rfl (by decide)).symm
      exe := fun _ hw => by
        obtain ⟨rd, hd, h0⟩ := hdest hw
        rw [hreg]
        exact fun hz => h0 ((rd_encode hd).symm.trans hz)
      early := fun hn _ hw hl => by
        obtain ⟨rd, hd, -⟩ := hdest hw
        rw [h2, Bool.not_eq_true', h.branchTaken_eq] at hn
        rw [hreg, isLoad_issued h.ok.rv32i] at hl
        rw [hreg]
        exact finalResult_early h.ok.rv32i _ (hd ▸ rfl) hl (isJump_of_not_transfer hn)
      mem := hmem
      wb := hwb
      settled := fun _ => hset }

end Issue

end Cpu

end LinuxCpu.Rv32.TaoShuRv
