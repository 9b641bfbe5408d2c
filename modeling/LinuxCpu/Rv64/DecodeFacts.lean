import LinuxCpu.Rv64.DecodeTable
import LinuxCpu.Rv64.ExecuteM

namespace LinuxCpu.Rv64

open Bits

namespace Decode

theorem hot_of_regWen {w : BitVec 32} (h : regWen w) :
    ∃ k, opcodeInfo w = hot 12 (some k) ∧ 3 ≤ k ∧ k ≤ 11 := by
  rw [regWen_eq] at h
  rw [opcodeInfo_hot]
  cases hk : opcodeBit (opcode w) with
  | none => rw [hk] at h; cases h
  | some k =>
    rw [hk, Option.any_some, Bool.and_eq_true, decide_eq_true_eq, decide_eq_true_eq] at h
    exact ⟨k, rfl, h⟩

theorem hot_of_getLsbD {w : BitVec 32} {k : Nat} (h : (opcodeInfo w).getLsbD k = true) :
    opcodeInfo w = hot 12 (some k) := by
  have hk : k < 12 := BitVec.lt_of_getLsbD h
  rw [opcodeInfo_hot] at h ⊢
  rw [getLsbD_hot _ hk, beq_iff_eq] at h
  rw [h]

/-- No word has two `alu_info` bits: the four ALU opcodes exclude one another,
and so do the three values of `func7` that `decode` knows. -/
theorem aluInfo_hot (w : BitVec 32) :
    aluInfo w = hot 28 ((List.range 28).find? fun k => (aluInfo w).getLsbD k) := by
  have hopcode : ∀ o : BitVec 7, [o == 0b0110011, o == 0b0111011, o == 0b0010011,
      o == 0b0011011].count true ≤ 1 := by decide
  have hfunc7 : ∀ f : BitVec 7, [f == 0, f == 0b0100000, f == 1].count true ≤ 1 := by decide
  replace hopcode := hopcode (opcode w)
  replace hfunc7 := hfunc7 (func7 w)
  simp only [aluInfo, instAdd, instSub, instSll, instSlt, instSltu, instXor, instSrl, instSra,
    instOr, instAnd, instAddw, instSubw, instSllw, instSrlw, instSraw, instMul, instMulh,
    instMulhsu, instMulhu, instDiv, instDivu, instRem, instRemu, instMulw, instDivw, instDivuw,
    instRemw, instRemuw, instAddi, instSlli, instSlti, instSltiu, instXori, instSrli, instSrai,
    instOri, instAndi, instAddiw, instSlliw, instSrliw, instSraiw, instAluReg, instAluRegw,
    instAluImm, instAluImmw, func3Is, func7Is]
  generalize func3 w = f
  generalize (opcode w == 0b0110011) = reg at *
  generalize (opcode w == 0b0111011) = regw at *
  generalize (opcode w == 0b0010011) = imm at *
  generalize (opcode w == 0b0011011) = immw at *
  generalize (func7 w == 0b0000000) = z at *
  generalize (func7 w == 0b0100000) = s at *
  generalize (func7 w == 0b0000001) = m at *
  revert reg regw imm immw z s m f
  decide +kernel

theorem branchInfo_eq_zero {w : BitVec 32} (h : (opcodeInfo w).getLsbD 1 = false) :
    branchInfo w = 0 := by
  have h : instBranch w = false := by simpa [opcodeInfo] using h
  simp [branchInfo, instBeq, instBne, instBlt, instBge, instBltu, instBgeu, h]
  decide

theorem store_bits_eq_false {w : BitVec 32} (h : (opcodeInfo w).getLsbD 2 = false) :
    (loadStoreInfo w).getLsbD 0 = false ∧ (loadStoreInfo w).getLsbD 1 = false ∧
      (loadStoreInfo w).getLsbD 2 = false ∧ (loadStoreInfo w).getLsbD 3 = false := by
  have h : instStore w = false := by simpa [opcodeInfo] using h
  have hs : ∀ b, (instStore w && b) = false := fun b => by rw [h, Bool.false_and]
  simp only [loadStoreInfo, BitVec.getLsbD_eq_getElem, Nat.reduceLT, getElem_bits]
  exact ⟨hs _, hs _, hs _, hs _⟩

theorem zero_word :
    regWen 0 = false ∧ loadStoreInfo 0 = 0 ∧ opcodeInfo 0 = 0 ∧ branchInfo 0 = 0 := by
  decide

end Decode

theorem needJump_of_zero {e : RegE} (ho : e.opcodeInfo = 0) (hb : e.branchInfo = 0) :
    Execute.needJump e = false := by
  simp [Execute.needJump, Execute.instBeq, Execute.instBne, Execute.instBlt, Execute.instBge,
    Execute.instBltu, Execute.instBgeu, Execute.opJal, Execute.opJalr, ho, hb]

theorem needJump_of_hot {w : BitVec 32} {e : RegE} {k : Nat}
    (ho : e.opcodeInfo = Decode.opcodeInfo w) (hb : e.branchInfo = Decode.branchInfo w)
    (hk : Decode.opcodeInfo w = hot 12 (some k)) (h : k ≠ 1 ∧ k ≠ 8 ∧ k ≠ 9) :
    Execute.needJump e = false := by
  have hz : Decode.branchInfo w = 0 := Decode.branchInfo_eq_zero (by simp [hk, h.1])
  simp [Execute.needJump, Execute.instBeq, Execute.instBne, Execute.instBlt, Execute.instBge,
    Execute.instBltu, Execute.instBgeu, Execute.opJal, Execute.opJalr, ho, hb, hk, hz, h]

theorem needJump_of_jump {e : RegE} {k : Nat} (ho : e.opcodeInfo = hot 12 (some k))
    (h : k = 8 ∨ k = 9) : Execute.needJump e = true := by
  simp [Execute.needJump, Execute.opJal, Execute.opJalr, ho, h.symm]

end LinuxCpu.Rv64
