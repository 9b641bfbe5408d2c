import LinuxCpu.Lib.Clocked
import LinuxCpu.Libgcc.MulDiv
import LinuxCpu.Rv32.Trap

/-! Programs of RV32I on `single-cycle-cpu`, which fetches them from the memory
it stores to. -/

namespace LinuxCpu.Rv32

open RiscV ByteMemory

/-- RV32I without FENCE, ECALL and EBREAK. -/
def Implements (i : Instr) (_ : State 32) : Prop := i.rv32i = true ∧ ¬ i.isSystem

namespace Cpu

def machine : Stream Cpu (Retirement 32) where
  next := Cpu.edge false
  out s := ⟨s.pc, s.instr, (s.edge false).pc⟩

theorem instr_arch (s : Cpu) : s.instr = s.arch.fetch := BitVec.setWidth_eq _

theorem edge_step {s : Cpu} (h0 : s.regfile 0 = 0) (h : Step State.fetch Implements s.arch t) :
    (s.edge false).arch = t ∧ (s.edge false).csr = s.csr := by
  obtain ⟨i, hf, ⟨hi, hs⟩, rfl⟩ := h
  have hw : s.instr = i.encode := s.instr_arch.trans hf
  refine ⟨?_, edge_csr hw hi hs⟩
  rw [Instr.step, ← edge_arch h0 hw hi hs]
  rfl

theorem executed (h : Run State.fetch Implements a rs t) (s : Cpu) (h0 : s.regfile 0 = 0)
    (ha : s.arch = a) :
    machine.take rs.length s = rs ∧ (machine.after rs.length s).arch = t ∧
      (machine.after rs.length s).csr = s.csr := by
  induction h generalizing s with
  | nil => exact ⟨rfl, ha, rfl⟩
  | @cons a b rs t hs _ ih =>
    subst ha
    obtain ⟨hb, hcsr⟩ := edge_step h0 hs
    obtain ⟨htake, harch, hrest⟩ := ih (s.edge false) (edge_x0 false h0) hb
    refine ⟨?_, harch, hrest.trans hcsr⟩
    rw [List.length_cons, machine.take_cons, ← s.instr_arch, ← hb]
    exact congrArg (_ :: ·) htake

/-- From every state a reset leads to and for whatever memory holds, a run of
RV32I takes as many cycles as it has instructions. -/
theorem executes {s : Cpu} (h : Reachable s) (m : Mem 32) (rs : List (Retirement 32))
    (t : State 32) (hr : Run State.fetch Implements ⟨s.pc, s.regfile, m⟩ rs t) :
    let s' : Cpu := { s with mem := m }
    machine.take rs.length s' = rs ∧ (machine.after rs.length s').arch = t ∧
      (machine.after rs.length s').csr = s.csr :=
  executed hr { s with mem := m } h.x0 rfl

/-- `auipc x1, 0`, `lw x2, 16(x1)` and `sw x2, 12(x1)` put `addi x3, x0, 7`
behind them. -/
theorem executes_patched :
    let words : BitVec 160 := 0x00700193000000000020a6230100a10300000097
    let m : Mem 32 := fun a => words.extractLsb' (8 * (a - 0x80000000).toNat) 8
    let s : Cpu := { (⟨0, fun _ => 0, ⟨0, 0, 0, 0⟩, m⟩ : Cpu).edge true with mem := m }
    machine.take 4 s = [⟨0x80000000, 0x00000097, 0x80000004⟩,
        ⟨0x80000004, 0x0100a103, 0x80000008⟩, ⟨0x80000008, 0x0020a623, 0x8000000c⟩,
        ⟨0x8000000c, 0x00700193, 0x80000010⟩] ∧
      (machine.after 4 s).regfile 3 = 7 := by
  intro words m s
  let q₀ : State 32 := ⟨s.pc, s.regfile, m⟩
  let q₁ := (Instr.auipc 1 0).step q₀
  let q₂ := (Instr.load .lw 2 1 16).step q₁
  let q₃ := (Instr.store .sw 1 2 12).step q₂
  let q₄ := (Instr.opImm .addi 3 0 7).step q₃
  have h₀ : Step State.fetch Implements q₀ q₁ := ⟨.auipc 1 0, by decide +kernel, ⟨rfl, by decide⟩, rfl⟩
  have h₁ : Step State.fetch Implements q₁ q₂ :=
    ⟨.load .lw 2 1 16, by decide +kernel, ⟨rfl, by decide⟩, rfl⟩
  have h₂ : Step State.fetch Implements q₂ q₃ :=
    ⟨.store .sw 1 2 12, by decide +kernel, ⟨rfl, by decide⟩, rfl⟩
  have h₃ : Step State.fetch Implements q₃ q₄ :=
    ⟨.opImm .addi 3 0 7, by decide +kernel, ⟨rfl, by decide⟩, rfl⟩
  obtain ⟨ht, ha, -⟩ := executes (.reset ⟨0, fun _ => 0, ⟨0, 0, 0, 0⟩, m⟩) m _ _
    (.cons h₀ (.cons h₁ (.cons h₂ (.single h₃))))
  exact ⟨ht.trans (by decide +kernel), (congrArg (·.regs 3) ha).trans (by decide +kernel)⟩

theorem CodeAt.load_slot {m : Mem 32} {code : List Word} {a w : Word} {k : Nat}
    (h : CodeAt m a code) (hk : code[k]? = some w) : load m (slot a k) 4 = w := by
  induction code generalizing a k with
  | nil => cases hk
  | cons v code ih =>
    cases k with
    | zero =>
      cases hk
      rw [slot_zero, ← h.1]
      exact (BitVec.setWidth_eq _).symm
    | succ k =>
      rw [Nat.add_comm, ← slot_add a 1 k]
      exact ih h.2 hk

theorem CodeAt.loaded {m : Mem 32} {base : Word} {code : List Instr}
    (h : CodeAt m base (code.map Instr.encode)) (hok : ∀ i ∈ code, ∀ s, Implements i s) :
    Loaded State.fetch Implements base code m where
  fetch k i hk s hm hpc := by
    rw [State.fetch, hm, hpc]
    exact h.load_slot (by rw [List.getElem?_map, hk]; rfl)
  ok := hok

theorem routine_implements {op : MulDivOp} {code : List Instr} {k : Nat}
    (hop : Libgcc.routine op = some (code, k)) : ∀ i ∈ code, ∀ s, Implements i s := by
  have hdiv : ∀ i ∈ Libgcc.DivS.code, i.rv32i = true ∧ ¬ i.isSystem := by decide
  have hmul : ∀ i ∈ Libgcc.MuldiS.code, i.rv32i = true ∧ ¬ i.isSystem := by decide
  cases op with
  | mul =>
    cases hop
    exact fun i hi _ => hmul i hi
  | div | divu | rem | remu =>
    cases hop
    exact fun i hi _ => hdiv i hi
  | mulh | mulhsu | mulhu => cases hop

/-- With `libgcc` in memory the core multiplies and divides: a call comes back
with what the M extension says in `a0`, and what its caller keeps is kept. -/
theorem mulDiv_returns {s : Cpu} (h : Reachable s) (m : Mem 32) (op : MulDivOp)
    (code : List Instr) (k : Nat) (base : Word) (hop : Libgcc.routine op = some (code, k))
    (hc : CodeAt m base (code.map Instr.encode)) (hb : base.toNat % 4 = 0)
    (hpc : s.pc = slot base k) :
    ∃ n ≤ 336,
      let t := machine.after n { s with mem := m }
      t.pc = s.regfile Asm.ra &&& ~~~1 ∧
        t.regfile Asm.a0 = op.eval (s.regfile Asm.a0) (s.regfile Asm.a1) ∧ t.mem = m ∧
        t.csr = s.csr ∧ ∀ r, Frame.has r = false → t.regfile r = s.regfile r := by
  let q : State 32 := ⟨s.pc, s.regfile, m⟩
  obtain ⟨rs, t, hl, hr, hpc, ha, hm, hregs⟩ := (Libgcc.routine_returns (s := q) hop
    (hc.loaded (routine_implements hop)) (by decide) hb hpc).exists_run
  obtain ⟨-, harch, hcsr⟩ := executed hr { s with mem := m } h.x0 rfl
  subst harch
  exact ⟨rs.length, hl, hpc, ha, hm, hcsr, hregs⟩

theorem mulDiv_returns_div :
    let m : Mem 32 := fun a =>
      let d := (a - 0x80000000).toNat
      ((Libgcc.DivS.code.map Instr.encode).getD (d / 4) 0).extractLsb' (8 * (d % 4)) 8
    let s : Cpu := (⟨0, fun r => if r = Asm.a0 then -7 else if r = Asm.a1 then 2 else 0x80001000,
      ⟨0, 0, 0, 0⟩, m⟩ : Cpu).edge true
    ∃ n ≤ 336,
      let t := machine.after n { s with mem := m }
      t.pc = 0x80001000 ∧ t.regfile Asm.a0 = -3 ∧ t.mem = m ∧ t.csr = s.csr ∧
        ∀ r, Frame.has r = false → t.regfile r = s.regfile r := by
  intro m s
  obtain ⟨n, hn, hpc, ha, hrest⟩ := mulDiv_returns
    (.reset ⟨0, fun r => if r = Asm.a0 then -7 else if r = Asm.a1 then 2 else 0x80001000,
      ⟨0, 0, 0, 0⟩, m⟩) m .div Libgcc.DivS.code Libgcc.DivS.divdi3 0x80000000 rfl
    (by decide +kernel) rfl rfl
  exact ⟨n, hn, hpc.trans (by decide), ha.trans (by decide), hrest⟩

end Cpu

end LinuxCpu.Rv32
