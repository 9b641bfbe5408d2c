import LinuxCpu.RiscV.Run
import LinuxCpu.Rv64.BackEnd
import LinuxCpu.Rv64.ControlCorrect
import LinuxCpu.Rv64.MemoryCorrect

namespace LinuxCpu.Rv64

open RiscV Bits Simulator ByteMemory

def Instr.result (i : Instr) (s : State 64) : Word :=
  match i with
  | .jal _ offset => s.pc + (offset ++ 0#1).signExtend 64
  | .branch _ _ _ offset => s.pc + (offset ++ 0#1).signExtend 64
  | .jalr _ rs1 imm | .load _ _ rs1 imm | .store _ rs1 _ imm => s.get rs1 + imm.signExtend 64
  | i => i.value s

def Instr.hasResult : Instr → Bool
  | .fence .. | .ecall | .ebreak => false
  | _ => true

/-- What the instruction accesses is the guest's memory; a load is given eight
bytes whatever its width. -/
def Instr.InMemory (i : Instr) (s : State 64) : Prop :=
  match i with
  | .load _ _ rs1 imm => GuestAccess.Inside (s.get rs1 + imm.signExtend 64) 8
  | .store op rs1 _ imm => GuestAccess.Inside (s.get rs1 + imm.signExtend 64) op.len
  | _ => True

theorem edge_of_not_store (m : RegM) (host : Host)
    (hb : m.loadStoreInfo = hot 11 (Instr.loadStoreBit i)) (hs : i.isStore = false) :
    Memory.edge m host = host := by
  cases i with
  | load op => cases op <;>
      simp [Memory.edge, Memory.instSb, Memory.instSh, Memory.instSw, Memory.instSd, hb,
        Instr.loadStoreBit, LoadOp.bit]
  | store => cases hs
  | _ =>
    simp [Memory.edge, Memory.instSb, Memory.instSh, Memory.instSw, Memory.instSd, hb,
      Instr.loadStoreBit]

namespace Seq

def arch (t : Seq) : State 64 := ⟨t.pc, t.regfile.regdata, t.host.pmem.guest⟩

@[simp] theorem arch_get (t : Seq) (r : Reg) : t.arch.get r = t.regfile.regdata r := by
  change (if r = 0 then 0 else t.regfile.regdata r) = _
  split
  · next h => rw [h]; rfl
  · rfl

section Step

variable {alu : RegE → Word} {imem : Word → BitVec 32} {t : Seq} {i : Instr}

theorem next_pc (h : imem t.pc = i.encode)
    (ha : Instr.hasResult i → alu (t.regE imem) = Instr.result i t.arch) :
    (t.next (Execute.outputs alu) imem).pc = (i.step t.arch).pc := by
  have hn : Execute.needJump (t.regE imem) = _ := needJump_issue .idle t.regfile (r := t.regD imem) h
  have ho : (t.regE imem).opcodeInfo = _ := issue_opcodeInfo .idle t.regfile (r := t.regD imem) h
  rw [Instr.step_pc, arch_get, arch_get]
  change (if Execute.needJump (t.regE imem) then Execute.jumpPc (t.regE imem) (alu (t.regE imem))
    else t.pc + 4) = (i.transfer t.pc (t.regfile.regdata i.rs1) (t.regfile.regdata i.rs2)).getD _
  change Execute.needJump (t.regE imem) =
    (i.transfer t.pc (t.regfile.regdata i.rs1) (t.regfile.regdata i.rs2)).isSome at hn
  cases ht : i.transfer t.pc (t.regfile.regdata i.rs1) (t.regfile.regdata i.rs2) with
  | none => rw [hn, ht]; rfl
  | some target =>
    have hn : Execute.needJump (t.regE imem) = true := by rw [hn, ht]; rfl
    rw [if_pos hn]
    change _ = target
    rw [Execute.jumpPc, hn, Execute.opJalr, Execute.opJal, ho]
    cases i with
    | jal rd offset =>
      rw [← Option.some.inj ht, ha rfl]
      simp [Instr.opcodeBit, Instr.result, arch]
    | jalr rd rs1 imm =>
      rw [← Option.some.inj ht, ha rfl]
      simp [Instr.opcodeBit, Instr.result, Instr.rs1]
    | branch op rs1 rs2 offset =>
      have hv : t.pc + (offset ++ 0#1).signExtend 64 = target := by
        simp only [Instr.transfer] at ht
        split at ht
        · exact Option.some.inj ht
        · cases ht
      rw [ha rfl]
      simp [Instr.opcodeBit, Instr.result, arch, hv]
    | _ => cases ht

theorem memdata_load (h : imem t.pc = i.encode) (hm : Instr.InMemory i t.arch)
    (ha : alu (t.regE imem) = Instr.result i t.arch) (hi : i = .load op rd rs1 imm) :
    Memory.memdata (t.regM (Execute.outputs alu) imem) t.host = i.value t.arch := by
  subst hi
  have hb : (t.regM (Execute.outputs alu) imem).loadStoreInfo = hot 11 (some (LoadOp.bit op)) :=
    issue_loadStoreInfo .idle t.regfile (r := t.regD imem) h
  have hr : (t.regM (Execute.outputs alu) imem).aluResult =
      t.arch.get rs1 + imm.signExtend 64 := ha
  have h0 : t.arch.get rs1 + imm.signExtend 64 ≠ 0 := fun h0 =>
    GuestAccess.not_inside_zero 8 (h0 ▸ hm)
  rw [memdata_of_bit _ _ op hb (hr ▸ h0), hr]
  rfl

theorem writeBack_value (h : imem t.pc = i.encode) (hm : Instr.InMemory i t.arch)
    (ha : Instr.hasResult i → alu (t.regE imem) = Instr.result i t.arch) (hd : i.dest = some rd) :
    (writeBack (t.regW (Execute.outputs alu) imem)).data = i.value t.arch := by
  have ho : (t.regW (Execute.outputs alu) imem).opcodeInfo = hot 12 (Instr.opcodeBit i) :=
    issue_opcodeInfo .idle t.regfile (r := t.regD imem) h
  cases i with
  | jal | jalr => exact writeBack_data _ ho
  | load op rd rs1 imm =>
    exact (writeBack_data _ ho).trans (memdata_load h hm (ha rfl) rfl)
  | branch | store | fence | ecall | ebreak => cases hd
  | _ => exact (writeBack_data _ ho).trans (ha rfl)

theorem next_regs (h : imem t.pc = i.encode) (hm : Instr.InMemory i t.arch)
    (ha : Instr.hasResult i → alu (t.regE imem) = Instr.result i t.arch) :
    (t.next (Execute.outputs alu) imem).regfile.regdata = (i.step t.arch).regs := by
  funext r
  have hw : (writeBack (t.regW (Execute.outputs alu) imem)).regWen = i.dest.isSome :=
    issue_regWen .idle t.regfile (r := t.regD imem) h
  rw [Instr.step_regs]
  apply (regdata_edge (writeBack (t.regW (Execute.outputs alu) imem)) t.regfile r).trans
  cases hd : i.dest with
  | none =>
    rw [hd] at hw
    simp [hw, arch]
  | some rd =>
    have hrd : (writeBack (t.regW (Execute.outputs alu) imem)).rd = rd :=
      issue_rd .idle t.regfile (r := t.regD imem) h hd
    rw [hd] at hw
    rw [hw, hrd, writeBack_value h hm ha hd]
    by_cases hr : rd = r
    · subst hr
      simp [arch]
    · simp [hr, arch]

theorem next_mem (h : imem t.pc = i.encode) (hm : Instr.InMemory i t.arch)
    (ha : Instr.hasResult i → alu (t.regE imem) = Instr.result i t.arch) :
    (t.next (Execute.outputs alu) imem).host.pmem.guest = (i.step t.arch).mem := by
  have hb : (t.regM (Execute.outputs alu) imem).loadStoreInfo = hot 11 (Instr.loadStoreBit i) :=
    issue_loadStoreInfo .idle t.regfile (r := t.regD imem) h
  rw [Instr.step_mem]
  change (Memory.edge (t.regM (Execute.outputs alu) imem) t.host).pmem.guest = _
  cases i with
  | store op rs1 rs2 imm =>
    have hr : (t.regM (Execute.outputs alu) imem).aluResult =
        t.arch.get rs1 + imm.signExtend 64 := ha rfl
    have hd : (t.regM (Execute.outputs alu) imem).regdata2 = t.regfile.regdata rs2 :=
      issue_regdata2 .idle t.regfile (r := t.regD imem) h rfl
    have hin : GuestAccess.Inside (t.arch.get rs1 + imm.signExtend 64) op.len := hm
    have hs : t.arch.get rs1 + imm.signExtend 64 ≠ configSerialMmio := fun hs =>
      GuestAccess.not_inside_serial _ (hs ▸ hin)
    rw [(edge_of_bit _ _ op hb (hr ▸ hs)).1, hr, hd, ← arch_get]
    rfl
  | _ => rw [edge_of_not_store _ _ hb rfl]; rfl

/-- One step of the sequential machine is one instruction. -/
theorem arch_next (h : imem t.pc = i.encode) (hm : Instr.InMemory i t.arch)
    (ha : Instr.hasResult i → alu (t.regE imem) = Instr.result i t.arch) :
    (t.next (Execute.outputs alu) imem).arch = i.step t.arch :=
  congr (congr (congrArg State.mk (next_pc h ha)) (next_regs h hm ha)) (next_mem h hm ha)

end Step

end Seq

end LinuxCpu.Rv64
