import LinuxCpu.Rv64.Architecture
import LinuxCpu.Rv64.AluCorrect
import LinuxCpu.Rv64.ExecuteAgree
import LinuxCpu.Rv64.LinuxRefine
import LinuxCpu.Rv64.MulCorrect

namespace LinuxCpu.Rv64

open RiscV Bits Simulator ByteMemory

def RegE.sum (e : RegE) (k : Nat) : Word := (if k = 9 ∨ k = 1 then e.pc else e.regdata1) + e.imm

section Sum

variable {e : RegE} {k : Nat}

open Execute

theorem LinuxExecute.aluResult_sum (ho : e.opcodeInfo = hot 12 (some k))
    (hk : k = 9 ∨ k = 8 ∨ k = 3 ∨ k = 2 ∨ k = 1) : LinuxExecute.aluResult e = e.sum k := by
  rcases hk with rfl | rfl | rfl | rfl | rfl <;>
    simp [aluResult, aluSrc1, aluSrc2, opLui, opAuipc, opBranch, opStore, opJal, opJalr, opLoad,
      opAluReg, opAluRegw, opAluImm, opAluImmw, ho, RegE.sum]

theorem MExecute.aluResult_sum (D : Divider) (ho : e.opcodeInfo = hot 12 (some k))
    (hk : k = 9 ∨ k = 8 ∨ k = 3 ∨ k = 2 ∨ k = 1) : MExecute.aluResult e D = e.sum k := by
  rcases hk with rfl | rfl | rfl | rfl | rfl <;>
    simp [aluResult, aluSrc1, aluSrc2, opLui, opAuipc, opBranch, opStore, opJal, opJalr, opLoad,
      opAluReg, opAluRegw, opAluImm, opAluImmw, ho, RegE.sum]

end Sum

section Result

variable {imem : Word → BitVec 32} {t : Seq} {i : Instr}

theorem compute_arch (hc : (i.compute t.pc (t.arch.get i.rs1) (t.arch.get i.rs2)).isSome) :
    i.compute t.pc (t.regfile.regdata i.rs1) (t.regfile.regdata i.rs2) =
      some (i.value t.arch) := by
  rw [← t.arch_get, ← t.arch_get]
  cases i with
  | lui | auipc | opImm | shiftImm | opReg | addiw | shiftImmW | opRegW => rfl
  | _ => cases hc

/-- RV64I, but for right shifts by 32 or more that do not give 0. -/
def LinuxExecute.Implements (i : Instr) (s : State 64) : Prop :=
  match i with
  | .mulDiv .. | .mulDivW .. => False
  | i => Instr.isLong i → i.value s = 0

theorem LinuxExecute.aluResult_result (h : imem t.pc = i.encode) (hi : Implements i t.arch)
    (hr : Instr.hasResult i) : aluResult (t.regE imem) = Instr.result i t.arch := by
  have ho : (t.regE imem).opcodeInfo = hot 12 (Instr.opcodeBit i) :=
    issue_opcodeInfo .idle t.regfile (r := t.regD imem) h
  have hm : (t.regE imem).imm = Instr.imm i := issue_imm .idle t.regfile (r := t.regD imem) h
  have h1 (hs : Instr.hasRs1 i) : (t.regE imem).regdata1 = t.arch.get i.rs1 := by
    rw [t.arch_get]
    exact issue_regdata1 .idle t.regfile (r := t.regD imem) h hs
  have hv (hc : (i.compute t.pc (t.arch.get i.rs1) (t.arch.get i.rs2)).isSome)
      (hl : Instr.isLong i → i.value t.arch = 0) :
      aluResult (t.regE imem) = i.value t.arch := by
    by_cases hi : Instr.isLong i
    · rw [hl hi]
      exact aluResult_issue_long .idle t.regfile (r := t.regD imem) h hi
    · exact aluResult_issue .idle t.regfile (r := t.regD imem) h hi (compute_arch hc)
  cases i with
  | jal | branch => rw [aluResult_sum ho (by decide), RegE.sum, hm]; rfl
  | jalr | load | store => rw [aluResult_sum ho (by decide), RegE.sum, hm, h1 rfl]; rfl
  | fence | ecall | ebreak => cases hr
  | mulDiv | mulDivW => cases hi
  | _ => exact hv rfl hi

/-- RV64IM, but for those shifts, remainders that are not 0 and W divisors whose
low half alone is 0. -/
def MExecute.Implements (i : Instr) (s : State 64) : Prop :=
  match i with
  | .mulDiv .. | .mulDivW .. => Instr.DividesRight i (s.get i.rs1) (s.get i.rs2)
  | i => Instr.isLong i → i.value s = 0

namespace MExecute

variable (D : Divider)

theorem sources_arch (h : imem t.pc = i.encode) (ho : (t.regE imem).opcodeInfo = hot 12 (some k))
    (hk : k = 6 ∨ k = 7) (h1 : Instr.hasRs1 i) (h2 : Instr.hasRs2 i) :
    aluSrc1 (t.regE imem) = t.arch.get i.rs1 ∧ aluSrc2 (t.regE imem) = t.arch.get i.rs2 := by
  rw [t.arch_get, t.arch_get, aluSrc1_regdata1 ho hk, aluSrc2_regdata2 ho hk]
  exact ⟨issue_regdata1 .idle t.regfile (r := t.regD imem) h h1,
    issue_regdata2 .idle t.regfile (r := t.regD imem) h h2⟩

theorem aluResult_mulDiv (h : imem t.pc = (Instr.mulDiv op rd rs1 rs2).encode)
    (hd : Instr.DividesRight (.mulDiv op rd rs1 rs2) (t.arch.get rs1) (t.arch.get rs2)) :
    aluResult (t.regE imem) D = op.eval (t.arch.get rs1) (t.arch.get rs2) := by
  have ho : (t.regE imem).opcodeInfo = hot 12 (some 7) :=
    issue_opcodeInfo .idle t.regfile (r := t.regD imem) h
  have ha : (t.regE imem).aluInfo = hot 28 (some (MulDivOp.aluBit op)) :=
    issue_aluInfo .idle t.regfile (r := t.regD imem) h
  obtain ⟨h1, h2⟩ : aluSrc1 (t.regE imem) = t.arch.get rs1 ∧ aluSrc2 (t.regE imem) = t.arch.get rs2 :=
    sources_arch h ho (.inr rfl) rfl rfl
  rw [← h1, ← h2] at hd ⊢
  cases op with
  | mul => exact (aluResult_mul D ho (.inr rfl) ha (by decide)).trans (mul_value ..)
  | mulh => exact (aluResult_mul D ho (.inr rfl) ha (by decide)).trans (mulh_value ..)
  | mulhsu => exact (aluResult_mul D ho (.inr rfl) ha (by decide)).trans (mulhsu_value ..)
  | mulhu => exact (aluResult_mul D ho (.inr rfl) ha (by decide)).trans (mulhu_value ..)
  | div => exact aluResult_div D ho ha
  | divu => exact aluResult_divu D ho ha
  | rem =>
    exact (aluResult_rem D ho (.inr rfl) ha (by decide)).trans
      ((remSigned_eq_zero_iff _ _).mpr hd).symm
  | remu =>
    exact (aluResult_rem D ho (.inr rfl) ha (by decide)).trans
      ((remUnsigned_eq_zero_iff _ _).mpr hd).symm

theorem aluResult_mulDivW (h : imem t.pc = (Instr.mulDivW op rd rs1 rs2).encode)
    (hd : Instr.DividesRight (.mulDivW op rd rs1 rs2) (t.arch.get rs1) (t.arch.get rs2)) :
    aluResult (t.regE imem) D = op.eval (t.arch.get rs1) (t.arch.get rs2) := by
  have ho : (t.regE imem).opcodeInfo = hot 12 (some 6) :=
    issue_opcodeInfo .idle t.regfile (r := t.regD imem) h
  have ha : (t.regE imem).aluInfo = hot 28 (some (MulDivWOp.aluBit op)) :=
    issue_aluInfo .idle t.regfile (r := t.regD imem) h
  obtain ⟨h1, h2⟩ : aluSrc1 (t.regE imem) = t.arch.get rs1 ∧ aluSrc2 (t.regE imem) = t.arch.get rs2 :=
    sources_arch h ho (.inl rfl) rfl rfl
  rw [← h1, ← h2] at hd ⊢
  cases op with
  | mulw => exact (aluResult_mul D ho (.inl rfl) ha (by decide)).trans (mulw_value ..)
  | divw => exact ((aluResult_divw_iff ho ha).mpr hd D).symm
  | divuw => exact ((aluResult_divuw_iff ho ha).mpr hd D).symm
  | remw =>
    exact (aluResult_rem D ho (.inl rfl) ha (by decide)).trans
      ((signExtend_eq_zero_iff _).mpr ((remSigned_eq_zero_iff _ _).mpr hd)).symm
  | remuw =>
    exact (aluResult_rem D ho (.inl rfl) ha (by decide)).trans
      ((signExtend_eq_zero_iff _).mpr ((remUnsigned_eq_zero_iff _ _).mpr hd)).symm

theorem aluResult_result (h : imem t.pc = i.encode) (hi : Implements i t.arch)
    (hr : Instr.hasResult i) : aluResult (t.regE imem) D = Instr.result i t.arch := by
  have ho : (t.regE imem).opcodeInfo = hot 12 (Instr.opcodeBit i) :=
    issue_opcodeInfo .idle t.regfile (r := t.regD imem) h
  have ha : (t.regE imem).aluInfo = hot 28 (Instr.aluBit i) :=
    issue_aluInfo .idle t.regfile (r := t.regD imem) h
  have hl (hi : LinuxExecute.Implements i t.arch)
      (he : LinuxExecute.aluResult (t.regE imem) = aluResult (t.regE imem) D) :
      aluResult (t.regE imem) D = Instr.result i t.arch :=
    he.symm.trans (LinuxExecute.aluResult_result h hi hr)
  have hop (h11 : Instr.opcodeBit i ≠ some 11) (h10 : Instr.opcodeBit i ≠ some 10)
      (hb : ∀ k, Instr.aluBit i = some k → 13 ≤ k ∧ k < 28) :
      LinuxExecute.aluResult (t.regE imem) = aluResult (t.regE imem) D :=
    aluResult_agree_op D ho h11 h10 ha hb
  cases i with
  | mulDiv => exact aluResult_mulDiv D h hi
  | mulDivW => exact aluResult_mulDivW D h hi
  | fence | ecall | ebreak => cases hr
  | jal | jalr | branch | load | store =>
    exact hl hi ((LinuxExecute.aluResult_sum ho (by decide)).trans
      (aluResult_sum D ho (by decide)).symm)
  | lui => exact hl hi (aluResult_agree_lui D ho rfl)
  | auipc => exact hl hi (aluResult_agree_auipc D ho rfl)
  | shiftImm op rd rs1 shamt =>
    refine hl hi (hop (by simp [Instr.opcodeBit]) (by simp [Instr.opcodeBit]) fun k hk => ?_)
    rw [Instr.aluBit] at hk
    split at hk
    · cases hk
    · cases op <;> cases hk <;> decide
  | addiw =>
    refine hl hi (hop (by simp [Instr.opcodeBit]) (by simp [Instr.opcodeBit]) fun k hk => ?_)
    cases hk
    decide
  | opImm op | opReg op | shiftImmW op | opRegW op =>
    refine hl hi (hop (by simp [Instr.opcodeBit]) (by simp [Instr.opcodeBit]) fun k hk => ?_)
    cases op <;> cases hk <;> decide

end MExecute

end Result

def Retirement.commit (x : Retirement 64) : Commit := ⟨x.pc, x.instr, x.nextPc⟩

section Runs

variable {alu : RegE → Word} {imem : Word → BitVec 32} {ok : Instr → State 64 → Prop}

def Computes (alu : RegE → Word) (ok : Instr → State 64 → Prop) : Prop :=
  ∀ {imem : Word → BitVec 32} {t : Seq} {i : Instr}, imem t.pc = i.encode → ok i t.arch →
    Instr.hasResult i → alu (t.regE imem) = Instr.result i t.arch

theorem Seq.run_arch (ha : Computes alu ok)
    (h : Run (imem ·.pc) (fun i s => ok i s ∧ Instr.InMemory i s) a rs a') (t : Seq)
    (ht : t.arch = a) :
    (Seq.machine (Execute.outputs alu) imem).take rs.length t = rs.map Retirement.commit ∧
      ((Seq.machine (Execute.outputs alu) imem).after rs.length t).arch = a' := by
  induction h generalizing t with
  | nil => exact ⟨rfl, ht⟩
  | cons hs _ ih =>
    subst ht
    obtain ⟨i, hf, ⟨hi, hm⟩, rfl⟩ := hs
    have hn := arch_next hf hm (ha hf hi)
    obtain ⟨htake, hafter⟩ := ih (t.next (Execute.outputs alu) imem) hn
    refine ⟨?_, hafter⟩
    rw [List.length_cons, Stream.take_cons, List.map_cons]
    exact congrArg₂ List.cons
      (congrArg (Commit.mk t.pc (imem t.pc)) (congrArg State.pc hn)) htake

end Runs

end LinuxCpu.Rv64
