import LinuxCpu.Rv64.DecodeTable
import LinuxCpu.Simulator.Memory

namespace LinuxCpu.Rv64

open RiscV Bits Simulator ByteMemory

section Issue

variable (f : Forward) (regfile : Regfile) {r : RegD} {i : Instr}

open Execute LinuxExecute in
theorem aluResult_issue_address (h : r.instr = i.encode) (ha : i.isLoad || i.isStore) :
    aluResult (RegE.issue f regfile r) = operand f regfile i.rs1 + Instr.imm i := by
  have ho := issue_opcodeInfo f regfile h
  have hi := issue_imm f regfile h
  have h1 := issue_regdata1 f regfile h
  cases i with
  | load op rd rs1 imm =>
    simp [aluResult, aluSrc1, aluSrc2, opLui, opAuipc, opBranch, opStore, opJal, opJalr, opLoad,
      opAluReg, opAluRegw, opAluImm, opAluImmw, ho, hi, h1 rfl, Instr.opcodeBit]
  | store op rs1 rs2 imm =>
    simp [aluResult, aluSrc1, aluSrc2, opLui, opAuipc, opBranch, opStore, opAluReg, opAluRegw,
      opAluImm, opAluImmw, ho, hi, h1 rfl, Instr.opcodeBit]
  | _ => cases ha

end Issue

namespace Memory

def storeLen (m : RegM) : Option Len :=
  if instSb m then some .byte
  else if instSh m then some .half
  else if instSw m then some .word
  else if instSd m then some .dword
  else none

theorem edge_eq_run (m : RegM) (h : Host) :
    Memory.edge m h =
      (storeLen m).elim h fun len =>
        ((GuestAccess.store m.aluResult len m.regdata2).run h).host := by
  rw [Memory.edge, storeLen]
  split_ifs <;> first | exact (Traced.dpiMemWrite_host ..).symm | rfl

theorem memRdata_eq_run (m : RegM) (h : Host) (len : Len) :
    memRdata m h =
      if instLoad m then ((GuestAccess.load m.aluResult len).run h).data else 0 := by
  rw [GuestAccess.run, Traced.dpiMemRead_data]
  rfl

end Memory

theorem low_load (g : Mem 64) (a : Word) (h : k ≤ 8) :
    ((load g a 8).setWidth 64).extractLsb' 0 (8 * k) = load g a k := by
  rw [extractLsb'_zero_eq_setWidth _ (by omega)]
  exact setWidth_load g a h

theorem cut_load (op : LoadOp) (x : Word) (g : Mem 64) (a : Word)
    (hx : ∀ k ≤ 8, x.extractLsb' 0 (8 * k) = load g a k) :
    (match op with
    | .lb => BitVec.fill 56 (x.getLsbD 7) ++ x.extractLsb' 0 8
    | .lh => BitVec.fill 48 (x.getLsbD 15) ++ x.extractLsb' 0 16
    | .lw => BitVec.fill 32 (x.getLsbD 31) ++ x.extractLsb' 0 32
    | .ld => x.extractLsb' 0 64
    | .lbu => 0#56 ++ x.extractLsb' 0 8
    | .lhu => 0#48 ++ x.extractLsb' 0 16
    | .lwu => 0#32 ++ x.extractLsb' 0 32) = op.read g a := by
  cases op with
  | lb =>
    exact (fill_extractLsb'_eq_signExtend (m := 8) x (by decide)).trans
      (congrArg (BitVec.signExtend 64) (hx 1 (by decide)))
  | lh =>
    exact (fill_extractLsb'_eq_signExtend (m := 16) x (by decide)).trans
      (congrArg (BitVec.signExtend 64) (hx 2 (by decide)))
  | lw =>
    exact (fill_extractLsb'_eq_signExtend (m := 32) x (by decide)).trans
      (congrArg (BitVec.signExtend 64) (hx 4 (by decide)))
  | ld => exact (hx 8 (by decide)).trans (BitVec.signExtend_eq _).symm
  | lbu =>
    exact (zero_append_eq_setWidth _).trans
      (congrArg (BitVec.setWidth 64) (hx 1 (by decide)))
  | lhu =>
    exact (zero_append_eq_setWidth _).trans
      (congrArg (BitVec.setWidth 64) (hx 2 (by decide)))
  | lwu =>
    exact (zero_append_eq_setWidth _).trans
      (congrArg (BitVec.setWidth 64) (hx 4 (by decide)))

theorem memdata_of_bit (m : RegM) (host : Host) (op : LoadOp)
    (hb : m.loadStoreInfo = hot 11 (some (LoadOp.bit op))) (ha : m.aluResult ≠ 0) :
    Memory.memdata m host = op.read host.pmem.guest m.aluResult := by
  have hr : dpiMemRead host m.aluResult .dword =
      (load host.pmem.guest m.aluResult 8).setWidth 64 := by
    rw [dpiMemRead, if_neg ha, pmemRead_guest]
    rfl
  have hx : ∀ k ≤ 8, (dpiMemRead host m.aluResult .dword).extractLsb' 0 (8 * k) =
      load host.pmem.guest m.aluResult k := by
    intro k hk
    rw [hr, low_load _ _ hk]
  rw [← cut_load op _ _ _ hx]
  cases op <;>
    simp only [Memory.memdata, Memory.memRdata, Memory.instLoad, Memory.instLb, Memory.instLh,
      Memory.instLw, Memory.instLd, Memory.instLbu, Memory.instLhu, Memory.instLwu, hb,
      getLsbD_hot, Nat.reduceLT, LoadOp.bit] <;> rfl

theorem edge_of_bit (m : RegM) (host : Host) (op : StoreOp)
    (hb : m.loadStoreInfo = hot 11 (some (StoreOp.bit op))) (ha : m.aluResult ≠ configSerialMmio) :
    (Memory.edge m host).pmem.guest = store host.pmem.guest m.aluResult op.len m.regdata2 ∧
      (Memory.edge m host).console = host.console := by
  cases op <;>
    simp [Memory.edge, Memory.instSb, Memory.instSh, Memory.instSw, Memory.instSd, hb,
      StoreOp.bit, dpiMemWrite, ha, guest_pmemWrite] <;> rfl

structure Access where
  instr : Instr
  isAccess : instr.isLoad || instr.isStore
  regfile : Regfile
  pc : Word

namespace Access

variable (x : Access)

def regE : RegE := RegE.issue .idle x.regfile ⟨x.pc, x.instr.encode, .zero⟩

def regM : RegM := RegM.load x.regE (LinuxExecute.execute x.regE)

def addr : Word := x.regfile.regdata x.instr.rs1 + Instr.imm x.instr

def InRange : Prop :=
  configMbase.toNat ≤ x.addr.toNat ∧ x.addr.toNat + 8 ≤ configMbase.toNat + configMsize.toNat

instance : Decidable x.InRange := inferInstanceAs (Decidable (_ ∧ _))

def write? : Option (Write 64 64) :=
  match x.instr with
  | .store op _ rs2 _ => some ⟨x.addr, op.len, x.regfile.regdata rs2⟩
  | _ => none

def run (h : Host) : List Access → Host
  | [] => h
  | x :: xs => run (Memory.edge x.regM h) xs

theorem run_append (h : Host) (xs ys : List Access) : run h (xs ++ ys) = run (run h xs) ys := by
  induction xs generalizing h with
  | nil => rfl
  | cons x xs ih => exact ih _

theorem regM_loadStoreInfo : x.regM.loadStoreInfo = hot 11 (Instr.loadStoreBit x.instr) :=
  issue_loadStoreInfo .idle x.regfile rfl

theorem regM_aluResult : x.regM.aluResult = x.addr :=
  aluResult_issue_address .idle x.regfile rfl x.isAccess

variable {x}

theorem InRange.ne_zero (hx : x.InRange) : x.addr ≠ 0 := by
  intro h
  have := hx.1
  rw [h] at this
  exact absurd this (by decide)

theorem InRange.ne_serial (hx : x.InRange) : x.addr ≠ configSerialMmio := by
  intro h
  have := hx.2
  rw [h] at this
  exact absurd this (by decide)

theorem edge_load (h : Host) (hl : x.instr.isLoad) : Memory.edge x.regM h = h := by
  have hb := x.regM_loadStoreInfo
  cases hx : x.instr with
  | load op rd rs1 imm =>
    rw [hx] at hb
    cases op <;>
      simp [Memory.edge, Memory.instSb, Memory.instSh, Memory.instSw, Memory.instSd, hb,
        Instr.loadStoreBit, LoadOp.bit]
  | _ => rw [hx] at hl; cases hl

theorem edge_store (hx : x.InRange) (h : Host) (hs : x.instr = .store op rs1 rs2 imm) :
    (Memory.edge x.regM h).pmem.guest =
        store h.pmem.guest x.addr op.len (x.regfile.regdata rs2) ∧
      (Memory.edge x.regM h).console = h.console := by
  have hb := x.regM_loadStoreInfo
  have he : x.instr.encode = (Instr.store op rs1 rs2 imm).encode := congrArg Instr.encode hs
  have hd : x.regM.regdata2 = x.regfile.regdata rs2 :=
    issue_regdata2 .idle x.regfile (r := ⟨x.pc, x.instr.encode, .zero⟩) he rfl
  rw [hs] at hb
  have he := edge_of_bit x.regM h op hb (x.regM_aluResult ▸ hx.ne_serial)
  rwa [x.regM_aluResult, hd] at he

/-- Memory holds at every address the byte last stored there. -/
theorem run_guest (h : Host) (xs : List Access) (hx : ∀ x ∈ xs, x.InRange) :
    (run h xs).pmem.guest = lastByte h.pmem.guest (xs.filterMap write?) := by
  induction xs using List.reverseRecOn with
  | nil => rfl
  | append_singleton xs x ih =>
    have ih := ih fun y hy => hx y (List.mem_append_left _ hy)
    have hr : x.InRange := hx x (List.mem_append_right _ (List.mem_singleton_self x))
    rw [run_append, List.filterMap_append]
    change (Memory.edge x.regM (run h xs)).pmem.guest = _
    cases hi : x.instr with
    | load op rd rs1 imm =>
      have hw : [x].filterMap write? = [] := by simp [write?, hi]
      rw [edge_load _ (by rw [hi]; rfl), hw, List.append_nil, ih]
    | store op rs1 rs2 imm =>
      have hw : [x].filterMap write? = [⟨x.addr, op.len, x.regfile.regdata rs2⟩] := by
        simp [write?, hi]
      rw [(edge_store hr _ hi).1, hw, lastByte_append, ih]
    | _ =>
      have := x.isAccess
      rw [hi] at this
      cases this

theorem retire_load (hx : x.InRange) (h : Host) (hl : x.instr = .load op rd rs1 imm) :
    x.regE.retire LinuxExecute.execute (Memory.memdata x.regM h) =
      ⟨rd, op.read h.pmem.guest x.addr, true⟩ := by
  have he : x.instr.encode = (Instr.load op rd rs1 imm).encode := congrArg Instr.encode hl
  have ho := issue_opcodeInfo .idle x.regfile (r := ⟨x.pc, x.instr.encode, .zero⟩) he
  have hw := issue_regWen .idle x.regfile (r := ⟨x.pc, x.instr.encode, .zero⟩) he
  have hrd := issue_rd .idle x.regfile (r := ⟨x.pc, x.instr.encode, .zero⟩) he rfl
  have hb := x.regM_loadStoreInfo
  rw [hl] at hb
  have hm := memdata_of_bit x.regM h op hb (x.regM_aluResult ▸ hx.ne_zero)
  rw [x.regM_aluResult] at hm
  rw [RegE.retire, writeBack, hm]
  simp only [RegW.load, RegM.load, regE, ho, hw, hrd, getLsbD_hot, Nat.reduceLT]
  rfl

/-- In any run a load returns, extended as its type says, the bytes last
stored, and a store changes the bytes it addresses and no others. -/
theorem run_correct (h : Host) (xs : List Access) (x : Access)
    (hr : ∀ y ∈ xs ++ [x], y.InRange) :
    (∀ op rd rs1 imm, x.instr = .load op rd rs1 imm →
      x.regE.retire LinuxExecute.execute (Memory.memdata x.regM (run h xs)) =
        ⟨rd, op.read (lastByte h.pmem.guest (xs.filterMap write?)) x.addr, true⟩) ∧
    (x.instr.isLoad → run h (xs ++ [x]) = run h xs) ∧
    (∀ op rs1 rs2 imm, x.instr = .store op rs1 rs2 imm →
      (run h (xs ++ [x])).console = (run h xs).console ∧
      ∀ a, (run h (xs ++ [x])).pmem.guest a =
        if dist x.addr a < op.len then
          (x.regfile.regdata rs2).extractLsb' (8 * dist x.addr a) 8
        else (run h xs).pmem.guest a) := by
  have hx : x.InRange := hr x (List.mem_append_right _ (List.mem_singleton_self x))
  have hg := run_guest h xs fun y hy => hr y (List.mem_append_left _ hy)
  refine ⟨fun op rd rs1 imm hl => ?_, fun hl => ?_, fun op rs1 rs2 imm hs => ?_⟩
  · rw [retire_load hx _ hl, hg]
  · rw [run_append]
    exact edge_load _ hl
  · have he := edge_store hx (run h xs) hs
    rw [run_append]
    exact ⟨he.2, fun a => congrFun he.1 a⟩

theorem run_correct_sd_lb :
    (regE ⟨.load .lb 3 1 4, rfl, fun _ => 0x80000100, 0⟩).retire LinuxExecute.execute
      (Memory.memdata (regM ⟨.load .lb 3 1 4, rfl, fun _ => 0x80000100, 0⟩)
        (run ⟨fun _ => 0, []⟩ [⟨.store .sd 1 2 1, rfl, fun _ => 0x80000100, 0⟩])) =
      ⟨3, 0xffffffffffffff80, true⟩ :=
  (run_correct ⟨fun _ => 0, []⟩ [⟨.store .sd 1 2 1, rfl, fun _ => 0x80000100, 0⟩]
    ⟨.load .lb 3 1 4, rfl, fun _ => 0x80000100, 0⟩ (by decide)).1 .lb 3 1 4 rfl

end Access

end LinuxCpu.Rv64
