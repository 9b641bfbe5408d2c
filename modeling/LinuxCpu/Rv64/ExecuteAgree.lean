import LinuxCpu.Rv64.DecodeFacts

namespace LinuxCpu.Rv64

open Bits Execute

section Sources

variable {e : RegE}

theorem aluSrc1_agree (hl : opLui e = false) (ha : opAuipc e = false) :
    MExecute.aluSrc1 e = LinuxExecute.aluSrc1 e := by
  rw [MExecute.aluSrc1, LinuxExecute.aluSrc1, hl, ha]
  rfl

theorem aluSrc2_agree (hl : opLui e = false) (ha : opAuipc e = false) :
    MExecute.aluSrc2 e = LinuxExecute.aluSrc2 e := by
  rw [MExecute.aluSrc2, LinuxExecute.aluSrc2, hl, ha]
  rfl

end Sources

section Result

variable {e : RegE} (D : Divider) {o j : Option Nat} (ho : e.opcodeInfo = hot 12 o)

include ho

theorem aluResult_agree_lui (hl : o = some 11) :
    LinuxExecute.aluResult e = MExecute.aluResult e D := by
  subst hl
  simp [LinuxExecute.aluResult, MExecute.aluResult, MExecute.aluSrc1, MExecute.aluSrc2, opLui,
    opJal, opJalr, opAluReg, opAluRegw, opAluImm, opAluImmw, opLoad, opStore, opBranch, ho]

theorem aluResult_agree_auipc (ha : o = some 10) :
    LinuxExecute.aluResult e = MExecute.aluResult e D := by
  subst ha
  simp [LinuxExecute.aluResult, MExecute.aluResult, MExecute.aluSrc1, MExecute.aluSrc2, opLui,
    opAuipc, opJal, opJalr, opAluReg, opAluRegw, opAluImm, opAluImmw, opLoad, opStore, opBranch, ho]

theorem aluResult_agree_op (hl : o ≠ some 11) (hp : o ≠ some 10) (ha : e.aluInfo = hot 28 j)
    (hj : ∀ k, j = some k → 13 ≤ k ∧ k < 28) :
    LinuxExecute.aluResult e = MExecute.aluResult e D := by
  have hlui : opLui e = false := by simp [opLui, ho, hl]
  have hauipc : opAuipc e = false := by simp [opAuipc, ho, hp]
  rw [LinuxExecute.aluResult, MExecute.aluResult, aluSrc1_agree hlui hauipc,
    aluSrc2_agree hlui hauipc, hlui, hauipc]
  generalize LinuxExecute.aluSrc1 e = s1
  generalize LinuxExecute.aluSrc2 e = s2
  simp only [aluAnd, aluAdd, aluSub, aluSll, aluSlt, aluSltu, aluXor, aluOr, aluSra, aluSrl,
    aluAddw, aluSubw, aluSllw, aluSrlw, aluSraw, aluMul, aluMulh, aluMulhsu, aluMulhu, aluMulw,
    aluDiv, aluDivu, aluDivw, aluDivuw, ha, getLsbD_hot, Nat.reduceLT]
  cases j with
  | none => simp
  | some j =>
    obtain ⟨h13, h28⟩ := hj j rfl
    interval_cases j <;>
      simp only [Option.some_beq_some, Nat.reduceBEq, Bool.false_eq_true, if_false, if_true]

end Result

/-- A word with no bit of the M extension in its `alu_info`, the low 13 bits. -/
theorem execute_agree (D : Divider) (instr : BitVec 32) (regdata1 regdata2 pc : Word)
    (info : CommitInfo) (hm : (Decode.aluInfo instr).extractLsb' 0 13 = 0) :
    LinuxExecute.execute (RegE.load (Decode.outputs instr regdata1 regdata2) ⟨pc, instr, info⟩) =
      MExecute.execute D
        (RegE.load (Decode.outputs instr regdata1 regdata2) ⟨pc, instr, info⟩) := by
  have hj : ∀ k, ((List.range 28).find? fun k => (Decode.aluInfo instr).getLsbD k) = some k →
      13 ≤ k ∧ k < 28 := by
    intro k hk
    refine ⟨Nat.le_of_not_lt fun h13 => ?_, List.mem_range.mp (List.mem_of_find?_eq_some hk)⟩
    have hbit := congrArg (·.getLsbD k) hm
    simp only [BitVec.getLsbD_extractLsb', h13, decide_true, Bool.true_and, Nat.zero_add] at hbit
    exact absurd ((List.find?_some hk).symm.trans hbit) (by simp)
  have ho := Decode.opcodeInfo_hot instr
  have ha := Decode.aluInfo_hot instr
  generalize hw : RegE.load (Decode.outputs instr regdata1 regdata2) ⟨pc, instr, info⟩ = e
  have ho : e.opcodeInfo = hot 12 (Decode.opcodeBit (Decode.opcode instr)) := by
    rw [← ho, ← hw]
    rfl
  have hr : LinuxExecute.aluResult e = MExecute.aluResult e D := by
    by_cases hl : Decode.opcodeBit (Decode.opcode instr) = some 11
    · exact aluResult_agree_lui D ho hl
    · by_cases hp : Decode.opcodeBit (Decode.opcode instr) = some 10
      · exact aluResult_agree_auipc D ho hp
      · exact aluResult_agree_op D ho hl hp (by rw [← ha, ← hw]; rfl) hj
  rw [LinuxExecute.execute, MExecute.execute, outputs, outputs, hr]

theorem execute_agree_sraw :
    LinuxExecute.execute
        (RegE.load (Decode.outputs 0x4020d1bb (-8) 1) ⟨0x80000000, 0x4020d1bb, .zero⟩) =
      MExecute.execute .zero
        (RegE.load (Decode.outputs 0x4020d1bb (-8) 1) ⟨0x80000000, 0x4020d1bb, .zero⟩) :=
  execute_agree .zero 0x4020d1bb (-8) 1 0x80000000 .zero (by decide)

end LinuxCpu.Rv64
