import LinuxCpu.RiscV.Run
import LinuxCpu.Rv32.SingleCycle

namespace LinuxCpu.Rv32.TaoShuRv

open RiscV ByteMemory

/-- What the core is promised: RV32I, whose indirect jumps go to even addresses
and whose stores leave the two words behind them alone, which are in
`id_stage` and `if_stage` by then. -/
structure Implements (i : Instr) (q : State 32) : Prop where
  rv32i : i.rv32i = true
  even : ∀ rd rs1 imm, i = .jalr rd rs1 imm →
    (q.get rs1 + imm.signExtend 32) &&& ~~~1 = q.get rs1 + imm.signExtend 32
  ahead : ∀ x ∈ i.write? q, ∀ j < 8, ¬ dist x.addr (q.pc + 4 + BitVec.ofNat 32 j) < x.len

section Promises

variable {i : Instr}

theorem Implements.load_step {q : State 32} (hi : Implements i q) {a : Word} {k : Nat}
    (ha : a = q.pc + 4 + BitVec.ofNat 32 k) (hk : k + 4 ≤ 8) :
    dpiMemRead (i.step q).mem a 4 = dpiMemRead q.mem a 4 := by
  rw [Instr.step_mem]
  cases hx : i.write? q with
  | none => rfl
  | some x =>
    refine congrArg (BitVec.setWidth 32) (load_store_disjoint _ _ fun j hj => ?_)
    rw [ha, BitVec.add_assoc (q.pc + 4), ← BitVec.ofNat_add]
    exact hi.ahead x hx _ (by omega)

theorem write?_of_transfer {q : State 32} {pc a b t : Word} (h : i.transfer pc a b = some t) :
    i.write? q = none := by
  cases i with
  | store => cases h
  | _ => rfl

theorem isJump_of_not_transfer {pc a b : Word} (h : (i.transfer pc a b).isSome = false) :
    i.isJump = false := by
  cases i with
  | jal | jalr => cases h
  | _ => rfl

theorem Implements.plain {q : State 32} (h : i.rv32i = true) (hj : i.isJump = false)
    (hs : i.isStore = false) : Implements i q where
  rv32i := h
  even rd rs1 imm he := by
    subst he
    cases hj
  ahead x hx := by
    cases i with
    | store => cases hs
    | _ => cases hx

end Promises

/-- A FENCE waits for the register its unused field names. -/
def reads : Instr → List Reg
  | .fence _ rs1 _ => [rs1]
  | i => [i.rs1, i.rs2]

def feeds (last : Option Instr) (r : Reg) : Bool :=
  match last with
  | some (.load _ rd _ _) => rd != 0 && r == rd
  | _ => false

def stall (last : Option Instr) (i : Instr) : Nat := if (reads i).any (feeds last) then 1 else 0

def bubble (i : Instr) (q : State 32) : Nat :=
  if (i.transfer q.pc (q.get i.rs1) (q.get i.rs2)).isSome then 1 else 0

/-- A run behind the instruction `last`, with the cycles it takes. -/
inductive Timed : Option Instr → State 32 → List (Retirement 32) → Nat → State 32 → Prop
  | nil : Timed last q [] 0 q
  | cons : q.fetch = i.encode → Implements i q → Timed (some i) (i.step q) rs n t →
    Timed last q (⟨q.pc, q.fetch, (i.step q).pc⟩ :: rs) (stall last i + (1 + bubble i q) + n) t

theorem feeds_of_not_load {i : Instr} (h : i.isLoad = false) (r : Reg) :
    feeds (some i) r = false := by
  cases i with
  | load => cases h
  | _ => rfl

theorem feeds_zero (last : Option Instr) : feeds last 0 = false := by
  unfold feeds
  split
  · next rd _ _ =>
    by_cases h : rd = 0
    · rw [h]
      rfl
    · rw [beq_eq_false_iff_ne.mpr (Ne.symm h), Bool.and_false]
  · rfl

theorem stall_le (last : Option Instr) (i : Instr) : stall last i ≤ 1 := by
  rw [stall]
  split <;> omega

theorem stall_of_not_feeds {last : Option Instr} (h : ∀ r, feeds last r = false) (i : Instr) :
    stall last i = 0 := by
  refine if_neg fun ha => ?_
  obtain ⟨r, -, hr⟩ := List.any_eq_true.mp ha
  exact Bool.false_ne_true ((h r).symm.trans hr)

theorem bubble_add_stall_le (i j : Instr) (q : State 32) : bubble i q + stall (some i) j ≤ 1 := by
  cases hl : i.isLoad with
  | false =>
    rw [stall_of_not_feeds (feeds_of_not_load hl), bubble]
    split <;> omega
  | true =>
    have hb : bubble i q = 0 := by
      cases i with
      | load => rfl
      | _ => cases hl
    rw [hb, Nat.zero_add]
    exact stall_le ..

theorem Timed.exists_of_run {q t : State 32} {rs : List (Retirement 32)}
    (h : Run State.fetch Implements q rs t) (last : Option Instr) :
    ∃ n, Timed last q rs n t ∧ rs.length ≤ n ∧
      ∀ c, (∀ i, stall last i ≤ c) → n ≤ c + 2 * rs.length := by
  induction h generalizing last with
  | nil => exact ⟨0, .nil, Nat.le_refl 0, fun _ _ => Nat.zero_le _⟩
  | @cons q _ rs _ hs _ ih =>
    obtain ⟨i, hf, hi, rfl⟩ := hs
    obtain ⟨n, hn, hlo, hhi⟩ := ih (some i)
    refine ⟨_, .cons hf hi hn, by rw [List.length_cons]; omega, fun c hc => ?_⟩
    have hst := hc i
    have hrest := hhi (1 - bubble i q) fun j => Nat.le_sub_of_add_le' (bubble_add_stall_le i j q)
    have hb : bubble i q ≤ 1 := Nat.le_of_add_right_le (bubble_add_stall_le i i q)
    rw [List.length_cons]
    omega

end LinuxCpu.Rv32.TaoShuRv
