import LinuxCpu.RiscV.Run

/-! Assembled code: instructions at consecutive words, jumps by the number of
instructions they skip, and what is reached in how many of them. -/

namespace LinuxCpu.RiscV

open ByteMemory

namespace Asm

abbrev zero : Reg := 0
abbrev ra : Reg := 1
abbrev t0 : Reg := 5
abbrev a0 : Reg := 10
abbrev a1 : Reg := 11
abbrev a2 : Reg := 12
abbrev a3 : Reg := 13

def offset (n : Nat) (d : Int) : BitVec n := BitVec.ofInt n (2 * d)

def li (rd : Reg) (imm : BitVec 12) : Instr := .opImm .addi rd zero imm
def mv (rd rs : Reg) : Instr := .opImm .addi rd rs 0
def neg (rd rs : Reg) : Instr := .opReg .sub rd zero rs
def sextW (rd rs : Reg) : Instr := .addiw rd rs 0
def slli (rd rs : Reg) (shamt : BitVec 6) : Instr := .shiftImm .sll rd rs shamt
def srli (rd rs : Reg) (shamt : BitVec 6) : Instr := .shiftImm .srl rd rs shamt
def j (d : Int) : Instr := .jal zero (offset 20 d)
def jal (d : Int) : Instr := .jal ra (offset 20 d)
def jr (rs : Reg) : Instr := .jalr zero rs 0
def ret : Instr := jr ra
def beq (rs1 rs2 : Reg) (d : Int) : Instr := .branch .beq rs1 rs2 (offset 12 d)
def bne (rs1 rs2 : Reg) (d : Int) : Instr := .branch .bne rs1 rs2 (offset 12 d)
def blt (rs1 rs2 : Reg) (d : Int) : Instr := .branch .blt rs1 rs2 (offset 12 d)
def bge (rs1 rs2 : Reg) (d : Int) : Instr := .branch .bge rs1 rs2 (offset 12 d)
def bltu (rs1 rs2 : Reg) (d : Int) : Instr := .branch .bltu rs1 rs2 (offset 12 d)
def bgeu (rs1 rs2 : Reg) (d : Int) : Instr := .branch .bgeu rs1 rs2 (offset 12 d)
def beqz (rs : Reg) (d : Int) : Instr := beq rs zero d
def bnez (rs : Reg) (d : Int) : Instr := bne rs zero d
def bltz (rs : Reg) (d : Int) : Instr := blt rs zero d
def bgez (rs : Reg) (d : Int) : Instr := bge rs zero d
def bgtz (rs : Reg) (d : Int) : Instr := blt zero rs d
def blez (rs : Reg) (d : Int) : Instr := bge zero rs d
def bgtu (rs1 rs2 : Reg) (d : Int) : Instr := bltu rs2 rs1 d

end Asm

def slot (base : BitVec w) (k : Nat) : BitVec w := base + BitVec.ofNat w (4 * k)

theorem slot_zero (base : BitVec w) : slot base 0 = base := BitVec.add_zero base

theorem slot_add (base : BitVec w) (m k : Nat) : slot (slot base m) k = slot base (m + k) := by
  rw [slot, slot, slot, BitVec.add_assoc, ← BitVec.ofNat_add, Nat.mul_add]

theorem slot_succ (base : BitVec w) (k : Nat) : slot base k + 4 = slot base (k + 1) :=
  slot_add base k 1

theorem slot_offset {n : Nat} (base : BitVec w) {k k' : Nat} (d : Int) (hk : (k : Int) + d = k')
    (hlo : -2 ^ (n - 1) ≤ 2 * d) (hhi : 2 * d < 2 ^ (n - 1)) (hn : 0 < n) :
    slot base k + (Asm.offset n d ++ 0#1).signExtend w = slot base k' := by
  have hd : (Asm.offset n d ++ 0#1).signExtend w = BitVec.ofInt w (4 * d) := by
    rw [BitVec.signExtend, BitVec.toInt_append_zero, Asm.offset,
      BitVec.toInt_ofInt_eq_self hn hlo hhi]
    congr 1
    omega
  have hk : (4 * k : Nat) + 4 * d = ((4 * k' : Nat) : Int) := by omega
  rw [slot, slot, hd, BitVec.add_assoc, ← BitVec.ofInt_natCast, ← BitVec.ofInt_add, hk,
    BitVec.ofInt_natCast]

section Reach

variable (fetch : State w → BitVec 32) (ok : Instr → State w → Prop)

def Reach (n : Nat) (s t : State w) : Prop := ∃ rs, rs.length ≤ n ∧ Run fetch ok s rs t

/-- `code` lies at `base`, for as long as memory is `m`, and all of it is
admitted. -/
structure Loaded (base : BitVec w) (code : List Instr) (m : Mem w) : Prop where
  fetch : ∀ k i, code[k]? = some i → ∀ s : State w, s.mem = m → s.pc = slot base k →
    fetch s = i.encode
  ok : ∀ i ∈ code, ∀ s, ok i s

end Reach

variable {fetch : State w → BitVec 32} {ok : Instr → State w → Prop} {m n : Nat} {s t u : State w}

theorem Reach.refl (n : Nat) (s : State w) : Reach fetch ok n s s := ⟨[], Nat.zero_le n, .nil⟩

theorem Reach.trans (h : Reach fetch ok m s t) (h' : Reach fetch ok n t u) :
    Reach fetch ok (m + n) s u := by
  obtain ⟨rs, hl, h⟩ := h
  obtain ⟨rs', hl', h'⟩ := h'
  refine ⟨rs ++ rs', ?_, h.append h'⟩
  rw [List.length_append]
  exact Nat.add_le_add hl hl'

theorem Reach.mono (h : Reach fetch ok m s t) (hn : m ≤ n) : Reach fetch ok n s t := by
  obtain ⟨rs, hl, h⟩ := h
  exact ⟨rs, Nat.le_trans hl hn, h⟩

namespace Loaded

variable {base : BitVec w} {code : List Instr} {mem : Mem w}

theorem step (h : Loaded fetch ok base code mem) {k : Nat} {i : Instr} (hi : code[k]? = some i)
    (hm : s.mem = mem) (hpc : s.pc = slot base k) : Reach fetch ok 1 s (i.step s) :=
  ⟨[_], Nat.le_refl 1, .single
    ⟨i, h.fetch k i hi s hm hpc, h.ok i (List.mem_of_getElem? hi) s, rfl⟩⟩

end Loaded

def rom (base : BitVec w) (code : List Instr) (a : BitVec w) : BitVec 32 :=
  (code[(a - base).toNat / 4]?.map Instr.encode).getD 0

theorem Loaded.rom {base : BitVec w} {code : List Instr} (hw : 4 * code.length ≤ 2 ^ w)
    (mem : Mem w) : Loaded (RiscV.rom base code ·.pc) (fun _ _ => True) base code mem where
  fetch k i hk s _ hpc := by
    have hlt : k < code.length := (List.getElem?_eq_some_iff.mp hk).1
    have hd : (slot base k - base).toNat = 4 * k := by
      rw [slot, BitVec.add_comm, BitVec.add_sub_cancel, BitVec.toNat_ofNat,
        Nat.mod_eq_of_lt (by omega)]
    rw [RiscV.rom, hpc, hd, Nat.mul_div_cancel_left k (by decide), hk]
    rfl
  ok _ _ _ := trivial

/-- What a leaf routine may change: the registers a caller saves, as far as the
routines here use them. -/
structure Frame (w : Nat) where
  ra : BitVec w
  t0 : BitVec w
  a0 : BitVec w
  a1 : BitVec w
  a2 : BitVec w
  a3 : BitVec w

namespace Frame

def has (r : Reg) : Bool :=
  r == Asm.ra || r == Asm.t0 || r == Asm.a0 || r == Asm.a1 || r == Asm.a2 || r == Asm.a3

def get (f : Frame w) (r : Reg) : BitVec w :=
  if r = Asm.ra then f.ra else if r = Asm.t0 then f.t0 else if r = Asm.a0 then f.a0
  else if r = Asm.a1 then f.a1 else if r = Asm.a2 then f.a2 else if r = Asm.a3 then f.a3 else 0

def set (f : Frame w) (r : Reg) (v : BitVec w) : Frame w :=
  if r = Asm.ra then { f with ra := v } else if r = Asm.t0 then { f with t0 := v }
  else if r = Asm.a0 then { f with a0 := v } else if r = Asm.a1 then { f with a1 := v }
  else if r = Asm.a2 then { f with a2 := v } else if r = Asm.a3 then { f with a3 := v } else f

theorem has_iff {r : Reg} : has r = true ↔
    r = Asm.ra ∨ r = Asm.t0 ∨ r = Asm.a0 ∨ r = Asm.a1 ∨ r = Asm.a2 ∨ r = Asm.a3 := by
  simp [has, or_assoc]

end Frame

def State.put (s : State w) (pc : BitVec w) (f : Frame w) : State w where
  pc := pc
  regs r := if Frame.has r then f.get r else s.regs r
  mem := s.mem

def State.frame (s : State w) : Frame w :=
  ⟨s.regs Asm.ra, s.regs Asm.t0, s.regs Asm.a0, s.regs Asm.a1, s.regs Asm.a2, s.regs Asm.a3⟩

theorem State.put_frame (s : State w) : s.put s.pc s.frame = s := by
  have hregs : (s.put s.pc s.frame).regs = s.regs := by
    funext r
    change (if Frame.has r then s.frame.get r else s.regs r) = s.regs r
    split
    · next h => rcases Frame.has_iff.mp h with rfl | rfl | rfl | rfl | rfl | rfl <;> rfl
    · rfl
  exact congrArg (State.mk s.pc · s.mem) hregs

theorem State.put_get (s : State w) (pc : BitVec w) (f : Frame w) {r : Reg}
    (h : Frame.has r = true ∨ r = 0) : (s.put pc f).get r = f.get r := by
  rcases h with h | rfl
  · rcases Frame.has_iff.mp h with rfl | rfl | rfl | rfl | rfl | rfl <;> rfl
  · rfl

theorem State.put_set (s : State w) (pc pc' : BitVec w) (f : Frame w) {r : Reg} (v : BitVec w)
    (h : Frame.has r = true) :
    { (s.put pc f).set r v with pc := pc' } = s.put pc' (f.set r v) := by
  have h0 : r ≠ 0 := by
    rintro rfl
    cases h
  have hregs : Function.update (s.put pc f).regs r v = (s.put pc' (f.set r v)).regs := by
    funext x
    by_cases hx : x = r
    · subst hx
      rw [Function.update_self]
      change v = if Frame.has x then (f.set x v).get x else s.regs x
      rw [if_pos h]
      rcases Frame.has_iff.mp h with rfl | rfl | rfl | rfl | rfl | rfl <;> rfl
    · rw [Function.update_of_ne hx]
      change (if Frame.has x then f.get x else s.regs x) =
        if Frame.has x then (f.set r v).get x else s.regs x
      split
      · next hx' =>
        rcases Frame.has_iff.mp h with rfl | rfl | rfl | rfl | rfl | rfl <;>
          rcases Frame.has_iff.mp hx' with rfl | rfl | rfl | rfl | rfl | rfl <;>
          first | rfl | exact absurd rfl hx
      · rfl
  rw [State.set, if_neg h0]
  exact congrArg (State.mk pc' · s.mem) hregs

abbrev State.on (s : State w) (base : BitVec w) (k : Nat) (f : Frame w) : State w :=
  s.put (slot base k) f

/-- The routine `s` is about to enter returns `v` to its caller. -/
def Returns (fetch : State w → BitVec 32) (ok : Instr → State w → Prop) (n : Nat) (s : State w)
    (v : BitVec w) : Prop :=
  ∃ f, Reach fetch ok n s (s.put (s.get Asm.ra &&& ~~~1) f) ∧ f.a0 = v

theorem Returns.mono (h : Returns fetch ok m s v) (hn : m ≤ n) : Returns fetch ok n s v := by
  obtain ⟨f, hr, hf⟩ := h
  exact ⟨f, hr.mono hn, hf⟩

theorem Returns.exists_run (h : Returns fetch ok n s v) :
    ∃ rs t, rs.length ≤ n ∧ Run fetch ok s rs t ∧ t.pc = s.get Asm.ra &&& ~~~1 ∧
      t.get Asm.a0 = v ∧ t.mem = s.mem ∧ ∀ r, Frame.has r = false → t.regs r = s.regs r := by
  obtain ⟨f, ⟨rs, hl, hr⟩, hf⟩ := h
  exact ⟨rs, _, hl, hr, rfl, hf, rfl, fun r hr => if_neg (Bool.not_eq_true _ ▸ hr)⟩

theorem signExtend_zero (n w : Nat) : (0 : BitVec n).signExtend w = 0#w :=
  congrArg (BitVec.ofInt w) BitVec.toInt_zero

theorem signExtend_one (w : Nat) : (1 : BitVec 12).signExtend w = 1#w :=
  congrArg (BitVec.ofInt w) (by decide : (1 : BitVec 12).toInt = 1)

theorem signExtend_neg_one (w : Nat) : (-1 : BitVec 12).signExtend w = BitVec.allOnes w := by
  rw [BitVec.signExtend, (by decide : (-1 : BitVec 12).toInt = -1), BitVec.ofInt_neg,
    ← BitVec.neg_one_eq_allOnes]
  rfl

namespace Loaded

variable {base : BitVec w} {code : List Instr} {s : State w} {f : Frame w} {k k' : Nat}
  {rd rs rs1 rs2 : Reg}

theorem write (h : Loaded fetch ok base code s.mem) {i : Instr} (hk : code[k]? = some i)
    (hd : i.dest = some rd) (hr : Frame.has rd = true)
    (ht : ∀ pc a b : BitVec w, i.transfer pc a b = none) :
    Reach fetch ok 1 (s.on base k f)
      (s.on base (k + 1) (f.set rd (i.value (s.on base k f)))) := by
  have hstep : i.step (s.on base k f) =
      s.on base (k + 1) (f.set rd (i.value (s.on base k f))) := by
    change _ = s.put (slot base (k + 1)) _
    rw [← slot_succ, ← State.put_set s (slot base k) _ f _ hr]
    cases i with
    | jal | jalr => cases ht 0 0 0
    | branch | store | fence | ecall | ebreak => cases hd
    | _ => cases hd; rfl
  rw [← hstep]
  exact h.step hk rfl rfl

theorem li (h : Loaded fetch ok base code s.mem) {imm : BitVec 12} {v : BitVec w}
    (hk : code[k]? = some (Asm.li rd imm)) (hr : Frame.has rd = true)
    (hv : imm.signExtend w = v) :
    Reach fetch ok 1 (s.on base k f) (s.on base (k + 1) (f.set rd v)) := by
  have hv : (Asm.li rd imm).value (s.on base k f) = v := (BitVec.zero_add _).trans hv
  exact hv ▸ h.write hk rfl hr fun _ _ _ => rfl

theorem mv (h : Loaded fetch ok base code s.mem) (hk : code[k]? = some (Asm.mv rd rs))
    (hr : Frame.has rd = true) (hs : Frame.has rs = true) :
    Reach fetch ok 1 (s.on base k f)
      (s.on base (k + 1) (f.set rd (f.get rs))) := by
  have hv : (Asm.mv rd rs).value (s.on base k f) = f.get rs := by
    change (s.on base k f).get rs + (0 : BitVec 12).signExtend w = _
    rw [State.put_get s _ f (.inl hs), signExtend_zero, BitVec.add_zero]
  exact hv ▸ h.write hk rfl hr fun _ _ _ => rfl

theorem sextW (h : Loaded fetch ok base code s.mem) (hk : code[k]? = some (Asm.sextW rd rs))
    (hr : Frame.has rd = true) (hs : Frame.has rs = true) :
    Reach fetch ok 1 (s.on base k f)
      (s.on base (k + 1) (f.set rd (((f.get rs).setWidth 32).signExtend w))) := by
  have hv : (Asm.sextW rd rs).value (s.on base k f) =
      ((f.get rs).setWidth 32).signExtend w := by
    change evalW .add ((s.on base k f).get rs) ((0 : BitVec 12).signExtend w) = _
    rw [State.put_get s _ f (.inl hs), evalW, RegOp.eval, signExtend_zero,
      BitVec.setWidth_zero, BitVec.add_zero]
  exact hv ▸ h.write hk rfl hr fun _ _ _ => rfl

theorem opReg (h : Loaded fetch ok base code s.mem) {op : RegOp}
    (hk : code[k]? = some (.opReg op rd rs1 rs2)) (hr : Frame.has rd = true)
    (h1 : Frame.has rs1 = true ∨ rs1 = 0) (h2 : Frame.has rs2 = true ∨ rs2 = 0) :
    Reach fetch ok 1 (s.on base k f)
      (s.on base (k + 1) (f.set rd (op.eval (f.get rs1) (f.get rs2)))) := by
  have hv : (Instr.opReg op rd rs1 rs2).value (s.on base k f) =
      op.eval (f.get rs1) (f.get rs2) := by
    rw [← State.put_get s (slot base k) f h1, ← State.put_get s (slot base k) f h2]
    rfl
  exact hv ▸ h.write hk rfl hr fun _ _ _ => rfl

theorem neg (h : Loaded fetch ok base code s.mem) (hk : code[k]? = some (Asm.neg rd rs))
    (hr : Frame.has rd = true) (hs : Frame.has rs = true) :
    Reach fetch ok 1 (s.on base k f) (s.on base (k + 1) (f.set rd (-f.get rs))) := by
  have hv : RegOp.sub.eval (f.get 0) (f.get rs) = -f.get rs := BitVec.zero_sub _
  exact hv ▸ h.opReg hk hr (.inr rfl) (.inl hs)

theorem andi (h : Loaded fetch ok base code s.mem) {imm : BitVec 12}
    (hk : code[k]? = some (.opImm .andi rd rs imm)) (hr : Frame.has rd = true)
    (hs : Frame.has rs = true) :
    Reach fetch ok 1 (s.on base k f)
      (s.on base (k + 1) (f.set rd (f.get rs &&& imm.signExtend w))) := by
  have hv : (Instr.opImm .andi rd rs imm).value (s.on base k f) =
      f.get rs &&& imm.signExtend w := by
    rw [← State.put_get s (slot base k) f (.inl hs)]
    rfl
  exact hv ▸ h.write hk rfl hr fun _ _ _ => rfl

theorem shift (h : Loaded fetch ok base code s.mem) {op : ShiftOp} {shamt : BitVec 6}
    (hk : code[k]? = some (.shiftImm op rd rs shamt)) (hr : Frame.has rd = true)
    (hs : Frame.has rs = true) :
    Reach fetch ok 1 (s.on base k f) (s.on base (k + 1)
      (f.set rd (op.toRegOp.eval (f.get rs) (shamt.setWidth w)))) := by
  have hv : (Instr.shiftImm op rd rs shamt).value (s.on base k f) =
      op.toRegOp.eval (f.get rs) (shamt.setWidth w) := by
    rw [← State.put_get s (slot base k) f (.inl hs)]
    rfl
  exact hv ▸ h.write hk rfl hr fun _ _ _ => rfl

theorem shamt_mod {shamt : BitVec 6} (h : shamt.toNat < w) :
    (shamt.setWidth w).toNat % w = shamt.toNat := by
  rw [BitVec.toNat_setWidth, Nat.mod_eq_of_lt (Nat.lt_trans h Nat.lt_two_pow_self),
    Nat.mod_eq_of_lt h]

theorem slli (h : Loaded fetch ok base code s.mem) {shamt : BitVec 6}
    (hk : code[k]? = some (Asm.slli rd rs shamt)) (hr : Frame.has rd = true)
    (hs : Frame.has rs = true) (hw : shamt.toNat < w) :
    Reach fetch ok 1 (s.on base k f)
      (s.on base (k + 1) (f.set rd (f.get rs <<< shamt.toNat))) := by
  have hv := h.shift hk hr hs (f := f)
  rwa [ShiftOp.toRegOp, RegOp.eval, shamt_mod hw] at hv

theorem srli (h : Loaded fetch ok base code s.mem) {shamt : BitVec 6}
    (hk : code[k]? = some (Asm.srli rd rs shamt)) (hr : Frame.has rd = true)
    (hs : Frame.has rs = true) (hw : shamt.toNat < w) :
    Reach fetch ok 1 (s.on base k f)
      (s.on base (k + 1) (f.set rd (f.get rs >>> shamt.toNat))) := by
  have hv := h.shift hk hr hs (f := f)
  rwa [ShiftOp.toRegOp, RegOp.eval, shamt_mod hw] at hv

theorem step_branch {op : BranchOp} {offset : BitVec 12} (h1 : Frame.has rs1 = true ∨ rs1 = 0)
    (h2 : Frame.has rs2 = true ∨ rs2 = 0) (pc : BitVec w) :
    (Instr.branch op rs1 rs2 offset).step (s.put pc f) =
      s.put (if op.taken (f.get rs1) (f.get rs2) then pc + (offset ++ 0#1).signExtend w
        else pc + 4) f := by
  rw [Instr.step, exec_branch, State.put_get s _ f h1, State.put_get s _ f h2]
  rfl

theorem taken (h : Loaded fetch ok base code s.mem) {op : BranchOp} {d : Int}
    (hk : code[k]? = some (.branch op rs1 rs2 (Asm.offset 12 d)))
    (h1 : Frame.has rs1 = true ∨ rs1 = 0) (h2 : Frame.has rs2 = true ∨ rs2 = 0)
    (hd : (k : Int) + d = k' ∧ -1024 ≤ d ∧ d < 1024)
    (ht : op.taken (f.get rs1) (f.get rs2) = true) :
    Reach fetch ok 1 (s.on base k f) (s.on base k' f) := by
  have hstep : (Instr.branch op rs1 rs2 (Asm.offset 12 d)).step (s.on base k f) =
      s.on base k' f := by
    rw [step_branch h1 h2, if_pos ht,
      slot_offset base d hd.1 (by omega) (by omega) (by decide)]
  rw [← hstep]
  exact h.step hk rfl rfl

theorem next (h : Loaded fetch ok base code s.mem) {op : BranchOp} {offset : BitVec 12}
    (hk : code[k]? = some (.branch op rs1 rs2 offset))
    (h1 : Frame.has rs1 = true ∨ rs1 = 0) (h2 : Frame.has rs2 = true ∨ rs2 = 0)
    (ht : op.taken (f.get rs1) (f.get rs2) = false) :
    Reach fetch ok 1 (s.on base k f) (s.on base (k + 1) f) := by
  have hstep : (Instr.branch op rs1 rs2 offset).step (s.on base k f) = s.on base (k + 1) f := by
    rw [step_branch h1 h2, ht, if_neg Bool.false_ne_true, slot_succ]
  rw [← hstep]
  exact h.step hk rfl rfl

theorem jal (h : Loaded fetch ok base code s.mem) {d : Int}
    (hk : code[k]? = some (Asm.jal d)) (hd : (k : Int) + d = k' ∧ -1024 ≤ d ∧ d < 1024) :
    Reach fetch ok 1 (s.on base k f)
      (s.on base k' { f with ra := slot base (k + 1) }) := by
  have hstep : (Asm.jal d).step (s.on base k f) =
      s.on base k' { f with ra := slot base (k + 1) } := by
    change _ = s.put (slot base k') _
    rw [← slot_offset base d hd.1 (by omega) (by omega) (by decide : 0 < 20), ← slot_succ]
    exact State.put_set s (slot base k) _ f (r := Asm.ra) _ rfl
  rw [← hstep]
  exact h.step hk rfl rfl

theorem j (h : Loaded fetch ok base code s.mem) {d : Int}
    (hk : code[k]? = some (Asm.j d)) (hd : (k : Int) + d = k' ∧ -1024 ≤ d ∧ d < 1024) :
    Reach fetch ok 1 (s.on base k f) (s.on base k' f) := by
  have hstep : (Asm.j d).step (s.on base k f) = s.on base k' f := by
    change _ = s.put (slot base k') f
    rw [← slot_offset base d hd.1 (by omega) (by omega) (by decide : 0 < 20)]
    rfl
  rw [← hstep]
  exact h.step hk rfl rfl

theorem jr (h : Loaded fetch ok base code s.mem) (hk : code[k]? = some (Asm.jr rs))
    (hs : Frame.has rs = true) :
    Reach fetch ok 1 (s.on base k f) (s.put (f.get rs &&& ~~~1) f) := by
  have hstep : (Asm.jr rs).step (s.on base k f) = s.put (f.get rs &&& ~~~1) f := by
    change s.put (((s.on base k f).get rs + (0 : BitVec 12).signExtend w) &&& ~~~1) f = _
    rw [State.put_get s _ f (.inl hs), signExtend_zero, BitVec.add_zero]
  rw [← hstep]
  exact h.step hk rfl rfl

end Loaded

end LinuxCpu.RiscV
