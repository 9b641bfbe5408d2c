import LinuxCpu.Rv32.SingleCycleCorrect

/-! `trap.S` of the abstract machine, for `XLEN = 4` and 32 registers, on
`single-cycle-cpu`. -/

namespace LinuxCpu.Rv32

open RiscV ByteMemory

def ecall : Word := 0x00000073

def mret : Word := 0x30200073

def csrrw (rd : Reg) (csr : BitVec 12) (rs1 : Reg) : Word := iType csr rs1 0b001 rd 0b1110011

def csrrs (rd : Reg) (csr : BitVec 12) (rs1 : Reg) : Word := iType csr rs1 0b010 rd 0b1110011

namespace Trap

def xlen : Nat := 4
def nrRegs : Nat := 32

/-- `REGS`: all but `x0` and the stack pointer. -/
def regs : List Nat := 1 :: (List.range 32).drop 3

def contextSize : Nat := (nrRegs + 3 + 1) * xlen
def offsetCause : Nat := (nrRegs + 0) * xlen
def offsetStatus : Nat := (nrRegs + 1) * xlen
def offsetEpc : Nat := (nrRegs + 2) * xlen

def lw (rd : Reg) (offset : Nat) : Word := (Instr.load .lw rd 2 (BitVec.ofNat 12 offset)).encode

def sw (rs : Reg) (offset : Nat) : Word := (Instr.store .sw 2 rs (BitVec.ofNat 12 offset)).encode

def push (n : Nat) : Word := sw (BitVec.ofNat 5 n) (n * xlen)

def pop (n : Nat) : Word := lw (BitVec.ofNat 5 n) (n * xlen)

def addi (rd rs1 : Reg) (imm : BitVec 12) : Word := (Instr.opImm .addi rd rs1 imm).encode

/-- Up to the call of `__am_irq_handle`, at `handler` halfwords from the `jal`. -/
def enter (handler : BitVec 20) : List Word :=
  addi 2 2 (-BitVec.ofNat 12 contextSize) :: regs.map push ++
    [csrrs 5 0x342 0, csrrs 6 0x300 0, csrrs 7 0x341 0,
      sw 5 offsetCause, sw 6 offsetStatus, sw 7 offsetEpc,
      addi 10 2 0, (Instr.jal 1 handler).encode]

def leave : List Word :=
  [lw 6 offsetStatus, lw 7 offsetEpc, csrrw 0 0x300 6, csrrw 0 0x341 7] ++
    regs.map pop ++ [addi 2 2 (BitVec.ofNat 12 contextSize), mret]

def amAsmTrap (handler : BitVec 20) : List Word := enter handler ++ leave

/-- A handler that writes to a frame of its own, overwrites `t0` and `a0` and returns. -/
def clobber : List Word :=
  [addi 2 2 (-BitVec.ofNat 12 contextSize), addi 5 0 42, sw 5 0, addi 10 5 1,
    addi 2 2 (BitVec.ofNat 12 contextSize), (Instr.jalr 0 1 0).encode]

end Trap

theorem ctrl_ecall (lt eq : Bool) : ctrl ecall lt eq =
    ⟨.valA, .valB, .add, false, .valM, .zero, .csrValP, .noRw, .ecall⟩ := by
  cases lt <;> cases eq <;> decide

theorem ctrl_mret (lt eq : Bool) : ctrl mret lt eq =
    ⟨.valA, .valB, .add, false, .valM, .zero, .csrValP, .noRw, .mret⟩ := by
  cases lt <;> cases eq <;> decide

theorem ctrl_csrrw (rd : Reg) (csr : BitVec 12) (rs1 : Reg) (lt eq : Bool) :
    ctrl (csrrw rd csr rs1) lt eq =
      ⟨.valA, .valC, .add, true, .valR, .iType, .valP, .noRw, .csrrw⟩ :=
  ctrl_word _ _ _ _ _ _ _ (.inr (by decide))

theorem ctrl_csrrs (rd : Reg) (csr : BitVec 12) (rs1 : Reg) (lt eq : Bool) :
    ctrl (csrrs rd csr rs1) lt eq =
      ⟨.valA, .valC, .add, true, .valR, .iType, .valP, .noRw, .csrrs⟩ :=
  ctrl_word _ _ _ _ _ _ _ (.inr (by decide))

namespace Cpu

variable {s : Cpu}

theorem edge_ecall (hw : s.instr = ecall) : s.edge false =
    { s with pc := s.csr.mtvec, csr := { s.csr with mepc := s.pc + 4, mcause := 1 } } := by
  rw [edge_of_ctrl hw ctrl_ecall]
  rfl

theorem edge_mret (hw : s.instr = mret) : s.edge false = { s with pc := s.csr.mepc } := by
  rw [edge_of_ctrl hw ctrl_mret]
  rfl

variable {rd rs1 : Reg} {csr : BitVec 12}

theorem edge_csrrw (hw : s.instr = csrrw rd csr rs1) : s.edge false =
    { s with
      pc := s.pc + 4
      regfile :=
        reguEdge false true rd (Csr.valR .csrrw (csr.signExtend 32) s.csr) s.regfile
      csr := s.csr.write (csr.signExtend 32) fun _ => s.regfile rs1 } := by
  have hd : Idu.rd (csrrw rd csr rs1) = rd := word_rd ..
  have h1 : Idu.rs1 (csrrw rd csr rs1) = rs1 := word_rs1 ..
  rw [edge_of_ctrl hw fun _ _ => ctrl_csrrw .., hd, h1,
    ← valC_iType csr rs1 0b001 rd 0b1110011]
  rfl

theorem edge_csrrs (hw : s.instr = csrrs rd csr rs1) : s.edge false =
    { s with
      pc := s.pc + 4
      regfile :=
        reguEdge false true rd (Csr.valR .csrrs (csr.signExtend 32) s.csr) s.regfile
      csr := s.csr.write (csr.signExtend 32) fun old => s.regfile rs1 ||| old } := by
  have hd : Idu.rd (csrrs rd csr rs1) = rd := word_rd ..
  have h1 : Idu.rs1 (csrrs rd csr rs1) = rs1 := word_rs1 ..
  rw [edge_of_ctrl hw fun _ _ => ctrl_csrrs .., hd, h1,
    ← valC_iType csr rs1 0b010 rd 0b1110011]
  rfl

theorem reguEdge_of_ne {r : Reg} {regWen : Bool} {v : Word} {regfile : Regfile} (h : r ≠ rd) :
    reguEdge false regWen rd v regfile r = regfile r := by
  unfold reguEdge
  rw [if_neg Bool.false_ne_true]
  split
  · exact Function.update_of_ne h v regfile
  · rfl

theorem reguEdge_self {v : Word} {regfile : Regfile} (h : rd ≠ 0) :
    reguEdge false true rd v regfile rd = v := by
  have he : reguEdge false true rd v regfile = Function.update regfile rd v :=
    if_pos (bne_iff_ne.mpr h)
  rw [he]
  exact Function.update_self rd v regfile

def CodeAt (m : Mem 32) (a : Word) : List Word → Prop
  | [] => True
  | w :: code => dpiMemRead m a 4 = w ∧ CodeAt m (a + 4) code

instance (m : Mem 32) : (a : Word) → (code : List Word) → Decidable (CodeAt m a code)
  | _, [] => isTrue trivial
  | a, _ :: code =>
    have := instDecidableCodeAt m (a + 4) code
    inferInstanceAs (Decidable (_ ∧ _))

theorem add_four_ofNat (a : Word) (n : Nat) :
    a + 4 + BitVec.ofNat 32 n = a + BitVec.ofNat 32 (4 + n) := by
  rw [BitVec.ofNat_add, BitVec.add_assoc]
  rfl

theorem CodeAt.congr {m m' : Mem 32} {a : Word} {code : List Word} (h : CodeAt m a code)
    (hm : ∀ j < 4 * code.length, m' (a + BitVec.ofNat 32 j) = m (a + BitVec.ofNat 32 j)) :
    CodeAt m' a code := by
  induction code generalizing a with
  | nil => trivial
  | cons w code ih =>
    rw [List.length_cons] at hm
    refine ⟨?_, ih h.2 fun j hj => ?_⟩
    · rw [← h.1, dpiMemRead, dpiMemRead, load_ext fun j hj => hm j (by omega)]
    · rw [add_four_ofNat]
      exact hm (4 + j) (by omega)

theorem CodeAt.append {m : Mem 32} {a : Word} {pre code : List Word}
    (h : CodeAt m a (pre ++ code)) :
    CodeAt m (a + BitVec.ofNat 32 (4 * pre.length)) code := by
  induction pre generalizing a with
  | nil => simpa using h
  | cons w pre ih =>
    have ih := ih h.2
    rwa [add_four_ofNat, Nat.add_comm] at ih

def run (n : Nat) (s : Cpu) : Cpu := (Cpu.edge false)^[n] s

theorem run_zero (s : Cpu) : s.run 0 = s := rfl

theorem run_succ (n : Nat) (s : Cpu) : s.run (n + 1) = (s.edge false).run n :=
  Function.iterate_succ_apply ..

theorem run_add (m n : Nat) (s : Cpu) : s.run (m + n) = (s.run m).run n := by
  rw [run, Nat.add_comm, Function.iterate_add_apply]
  rfl

/-- `code` comes next, and no byte of it is in the frame at `b`. -/
structure Ready (b : Word) (s : Cpu) (code : List Word) : Prop where
  loaded : CodeAt s.mem s.pc code
  apart : ∀ j < 4 * code.length, ¬ dist b (s.pc + BitVec.ofNat 32 j) < Trap.contextSize
  x0 : s.regfile 0 = 0

namespace Ready

variable {b w : Word} {code : List Word}

theorem instr (h : s.Ready b (w :: code)) : s.instr = w := h.loaded.1

theorem next {s' : Cpu} (h : s.Ready b (w :: code)) (he : s.edge false = s')
    (hpc : s'.pc = s.pc + 4)
    (hm : ∀ x, ¬ dist b x < Trap.contextSize → s'.mem x = s.mem x) : s'.Ready b code := by
  have ha : ∀ j < 4 * code.length,
      ¬ dist b (s.pc + 4 + BitVec.ofNat 32 j) < Trap.contextSize := by
    intro j hj
    rw [add_four_ofNat]
    exact h.apart (4 + j) (by rw [List.length_cons]; omega)
  constructor
  · rw [hpc]
    exact h.loaded.2.congr fun j hj => hm _ (ha j hj)
  · rw [hpc]
    exact ha
  · rw [← he]
    exact edge_x0 false h.x0

variable {rd rs rs1 : Reg} {offset : Nat}

theorem frame_addr (hb : s.regfile 2 = b) (ho : offset + 4 ≤ Trap.contextSize) :
    s.regfile 2 + (BitVec.ofNat 12 offset).signExtend 32 = b + BitVec.ofNat 32 offset := by
  have h : ∀ n < 144, (BitVec.ofNat 12 n).signExtend 32 = BitVec.ofNat 32 n := by decide
  rw [hb, h offset (by change offset + 4 ≤ 144 at ho; omega)]

theorem sw (h : s.Ready b (Trap.sw rs offset :: code)) (hb : s.regfile 2 = b)
    (ho : offset + 4 ≤ Trap.contextSize) : ∃ s', s.edge false = s' ∧ s' = { s with
      pc := s.pc + 4
      mem := store s.mem (b + BitVec.ofNat 32 offset) 4 (s.regfile rs) } ∧ s'.Ready b code := by
  have he := edge_store h.instr (by decide)
  rw [frame_addr hb ho] at he
  exact ⟨_, he, rfl, h.next he rfl fun x hx => store_outside s.mem b x _ ho hx⟩

theorem lw (h : s.Ready b (Trap.lw rd offset :: code)) (hb : s.regfile 2 = b)
    (ho : offset + 4 ≤ Trap.contextSize) : ∃ s', s.edge false = s' ∧ s' = { s with
      pc := s.pc + 4
      regfile := reguEdge false true rd (load s.mem (b + BitVec.ofNat 32 offset) 4) s.regfile } ∧
      s'.Ready b code := by
  have he := edge_load h.instr (by decide) (by decide)
  have hv : LoadOp.lw.read s.mem (b + BitVec.ofNat 32 offset) =
      load s.mem (b + BitVec.ofNat 32 offset) 4 := BitVec.signExtend_eq _
  rw [frame_addr hb ho, hv] at he
  exact ⟨_, he, rfl, h.next he rfl fun _ _ => rfl⟩

theorem addi {imm : BitVec 12} (h : s.Ready b (Trap.addi rd rs1 imm :: code)) :
    ∃ s', s.edge false = s' ∧ s' = { s with
      pc := s.pc + 4
      regfile := reguEdge false true rd (s.regfile rs1 + imm.signExtend 32) s.regfile } ∧
      s'.Ready b code :=
  have he := edge_compute h.instr rfl rfl rfl
  ⟨_, he, rfl, h.next he rfl fun _ _ => rfl⟩

theorem csrrs (h : s.Ready b (csrrs rd csr rs1 :: code)) : ∃ s', s.edge false = s' ∧ s' = { s with
      pc := s.pc + 4
      regfile := reguEdge false true rd (Csr.valR .csrrs (csr.signExtend 32) s.csr) s.regfile
      csr := s.csr.write (csr.signExtend 32) fun old => s.regfile rs1 ||| old } ∧
      s'.Ready b code :=
  ⟨_, edge_csrrs h.instr, rfl, h.next (edge_csrrs h.instr) rfl fun _ _ => rfl⟩

theorem csrrw (h : s.Ready b (csrrw rd csr rs1 :: code)) : ∃ s', s.edge false = s' ∧ s' = { s with
      pc := s.pc + 4
      regfile := reguEdge false true rd (Csr.valR .csrrw (csr.signExtend 32) s.csr) s.regfile
      csr := s.csr.write (csr.signExtend 32) fun _ => s.regfile rs1 } ∧ s'.Ready b code :=
  ⟨_, edge_csrrw h.instr, rfl, h.next (edge_csrrw h.instr) rfl fun _ _ => rfl⟩

def pushed (b : Word) (regfile : Regfile) (ns : List Nat) (m : Mem 32) : Mem 32 :=
  ns.foldl (fun m n => store m (b + BitVec.ofNat 32 (n * Trap.xlen)) 4
    (regfile (BitVec.ofNat 5 n))) m

def popped (b : Word) (m : Mem 32) (ns : List Nat) (regfile : Regfile) : Regfile :=
  ns.foldl (fun regfile n => reguEdge false true (BitVec.ofNat 5 n)
    (load m (b + BitVec.ofNat 32 (n * Trap.xlen)) 4) regfile) regfile

theorem slot_le {n : Nat} (h : n < Trap.nrRegs) : n * Trap.xlen + 4 ≤ Trap.contextSize := by
  change n < 32 at h
  change n * 4 + 4 ≤ 144
  omega

theorem reg_ne {k n : Nat} (hk : k < Trap.nrRegs) (hn : n < Trap.nrRegs) (h : k ≠ n) :
    BitVec.ofNat 5 k ≠ BitVec.ofNat 5 n := by
  intro he
  have he := congrArg BitVec.toNat he
  change k < 2 ^ 5 at hk
  change n < 2 ^ 5 at hn
  rw [BitVec.toNat_ofNat, BitVec.toNat_ofNat, Nat.mod_eq_of_lt hk, Nat.mod_eq_of_lt hn] at he
  exact h he

theorem push (ns : List Nat) (h : s.Ready b (ns.map Trap.push ++ code)) (hb : s.regfile 2 = b)
    (hn : ∀ n ∈ ns, n < Trap.nrRegs) : ∃ s', s.run ns.length = s' ∧ s' = { s with
      pc := s.pc + BitVec.ofNat 32 (4 * ns.length)
      mem := pushed b s.regfile ns s.mem } ∧ s'.Ready b code := by
  induction ns generalizing s with
  | nil => exact ⟨s, rfl, by simp [pushed], h⟩
  | cons n ns ih =>
    obtain ⟨_, he, rfl, h⟩ := h.sw hb (slot_le (hn n (List.mem_cons_self ..)))
    have ih := ih h hb fun k hk => hn k (List.mem_cons_of_mem _ hk)
    rw [List.length_cons, run_succ, he, Nat.mul_add, Nat.add_comm, ← add_four_ofNat]
    exact ih

theorem pop (ns : List Nat) (h : s.Ready b (ns.map Trap.pop ++ code)) (hb : s.regfile 2 = b)
    (hn : ∀ n ∈ ns, n < Trap.nrRegs ∧ n ≠ 2) : ∃ s', s.run ns.length = s' ∧ s' = { s with
      pc := s.pc + BitVec.ofNat 32 (4 * ns.length)
      regfile := popped b s.mem ns s.regfile } ∧ s'.Ready b code := by
  induction ns generalizing s with
  | nil => exact ⟨s, rfl, by simp [popped], h⟩
  | cons n ns ih =>
    obtain ⟨hn32, hn2⟩ := hn n (List.mem_cons_self ..)
    obtain ⟨_, he, rfl, h⟩ := h.lw hb (slot_le hn32)
    have h2 : (2 : Reg) ≠ BitVec.ofNat 5 n := reg_ne (k := 2) (by decide) hn32 hn2.symm
    have ih := ih h ((reguEdge_of_ne h2).trans hb) fun k hk => hn k (List.mem_cons_of_mem _ hk)
    rw [List.length_cons, run_succ, he, Nat.mul_add, Nat.add_comm, ← add_four_ofNat]
    exact ih

theorem load_pushed_of_apart (regfile : Regfile) (m : Mem 32) {ns : List Nat} {q : Nat}
    (hn : ∀ n ∈ ns, n < Trap.nrRegs) (hq : q + 4 ≤ Trap.contextSize)
    (ha : ∀ n ∈ ns, n * Trap.xlen + 4 ≤ q ∨ q + 4 ≤ n * Trap.xlen) :
    load (pushed b regfile ns m) (b + BitVec.ofNat 32 q) 4 = load m (b + BitVec.ofNat 32 q) 4 := by
  induction ns generalizing m with
  | nil => rfl
  | cons n ns ih =>
    have hb : Trap.contextSize ≤ 2 ^ 32 := by decide
    refine (ih _ (fun k hk => hn k (List.mem_cons_of_mem _ hk))
      fun k hk => ha k (List.mem_cons_of_mem _ hk)).trans ?_
    exact load_store_offset m b _ (ha n (List.mem_cons_self ..))
      ((slot_le (hn n (List.mem_cons_self ..))).trans hb) (hq.trans hb)

theorem load_pushed (regfile : Regfile) (m : Mem 32) {ns : List Nat} {n : Nat}
    (hn : ∀ n ∈ ns, n < Trap.nrRegs) (h : n ∈ ns) :
    load (pushed b regfile ns m) (b + BitVec.ofNat 32 (n * Trap.xlen)) 4 =
      regfile (BitVec.ofNat 5 n) := by
  induction ns generalizing m with
  | nil => cases h
  | cons k ns ih =>
    have hns : ∀ n ∈ ns, n < Trap.nrRegs := fun k hk => hn k (List.mem_cons_of_mem _ hk)
    by_cases hm : n ∈ ns
    · exact ih _ hns hm
    · obtain rfl : n = k := (List.mem_cons.mp h).resolve_right hm
      refine (load_pushed_of_apart regfile _ hns (slot_le (hn n h)) fun k hk => ?_).trans ?_
      · have hne : n ≠ k := fun he => hm (he ▸ hk)
        change k * 4 + 4 ≤ n * 4 ∨ n * 4 + 4 ≤ k * 4
        omega
      · exact (load_store_same m _ 4 _ (by decide)).trans (BitVec.setWidth_eq _)

theorem pushed_outside (regfile : Regfile) (m : Mem 32) {ns : List Nat} {x : Word}
    (hn : ∀ n ∈ ns, n < Trap.nrRegs) (hx : ¬ dist b x < Trap.contextSize) :
    pushed b regfile ns m x = m x := by
  induction ns generalizing m with
  | nil => rfl
  | cons n ns ih =>
    refine (ih _ fun k hk => hn k (List.mem_cons_of_mem _ hk)).trans ?_
    exact store_outside m b x _ (slot_le (hn n (List.mem_cons_self ..))) hx

theorem popped_of_not_mem (m : Mem 32) (regfile : Regfile) {ns : List Nat} {r : Reg}
    (h : ∀ n ∈ ns, r ≠ BitVec.ofNat 5 n) : popped b m ns regfile r = regfile r := by
  induction ns generalizing regfile with
  | nil => rfl
  | cons n ns ih =>
    refine (ih _ fun k hk => h k (List.mem_cons_of_mem _ hk)).trans ?_
    exact reguEdge_of_ne (h n (List.mem_cons_self ..))

theorem popped_of_mem (m : Mem 32) (regfile : Regfile) {ns : List Nat} {n : Nat}
    (hn : ∀ n ∈ ns, n < Trap.nrRegs ∧ n ≠ 0) (h : n ∈ ns) :
    popped b m ns regfile (BitVec.ofNat 5 n) = load m (b + BitVec.ofNat 32 (n * Trap.xlen)) 4 := by
  induction ns generalizing regfile with
  | nil => cases h
  | cons k ns ih =>
    by_cases hm : n ∈ ns
    · exact ih _ (fun k hk => hn k (List.mem_cons_of_mem _ hk)) hm
    · obtain rfl : n = k := (List.mem_cons.mp h).resolve_right hm
      obtain ⟨hn32, hn0⟩ := hn n h
      have hns : ∀ k ∈ ns, BitVec.ofNat 5 n ≠ BitVec.ofNat 5 k := fun k hk =>
        reg_ne hn32 (hn k (List.mem_cons_of_mem _ hk)).1 fun he => hm (he ▸ hk)
      exact (popped_of_not_mem m (reguEdge false true (BitVec.ofNat 5 n) _ regfile) hns).trans
        (reguEdge_self (reg_ne (n := 0) hn32 (by decide) hn0))

theorem regs_lt : ∀ n ∈ Trap.regs, n < Trap.nrRegs ∧ n ≠ 0 ∧ n ≠ 2 := by decide

theorem write_read (h : s.regfile 0 = 0) (csrIdx : Word) (c : Csr) :
    c.write csrIdx (fun old => s.regfile 0 ||| old) = c := by
  have hz : ∀ old, s.regfile 0 ||| old = old := fun old => by
    rw [h]
    exact BitVec.zero_or
  simp only [hz, Csr.write]
  split
  · rfl
  split
  · rfl
  split
  · rfl
  split <;> rfl

end Ready

open Ready in
structure Entered (b : Word) (handler : BitVec 20) (s e : Cpu) : Prop where
  pc : e.pc = s.pc + BitVec.ofNat 32 152 + (handler ++ 0#1).signExtend 32
  ra : e.regfile 1 = s.pc + BitVec.ofNat 32 156
  sp : e.regfile 2 = b
  csr : e.csr = s.csr
  outside : ∀ x, ¬ dist b x < Trap.contextSize → e.mem x = s.mem x
  regs : ∀ n ∈ Trap.regs,
    load e.mem (b + BitVec.ofNat 32 (n * Trap.xlen)) 4 = s.regfile (BitVec.ofNat 5 n)
  status : load e.mem (b + BitVec.ofNat 32 Trap.offsetStatus) 4 = s.csr.mstatus
  epc : load e.mem (b + BitVec.ofNat 32 Trap.offsetEpc) 4 = s.csr.mepc

theorem Ready.enter {b : Word} {handler : BitVec 20} {code : List Word}
    (h : s.Ready b (Trap.enter handler ++ code))
    (hb : s.regfile 2 + (-BitVec.ofNat 12 Trap.contextSize).signExtend 32 = b) :
    Entered b handler s (s.run 39) := by
  rw [Trap.enter, List.cons_append, List.cons_append, List.append_assoc] at h
  obtain ⟨s1, e1, hs1, h1⟩ := h.addi
  have hsp1 : s1.regfile 2 = b := by
    simp only [hs1, reguEdge_self (show (2 : Reg) ≠ 0 by decide), hb]
  obtain ⟨s2, e2, hs2, h2⟩ := h1.push Trap.regs hsp1 fun n hn => (regs_lt n hn).1
  obtain ⟨s3, e3, hs3, h3⟩ := h2.csrrs
  obtain ⟨s4, e4, hs4, h4⟩ := h3.csrrs
  obtain ⟨s5, e5, hs5, h5⟩ := h4.csrrs
  have hc2 : s2.csr = s.csr := by simp only [hs2, hs1]
  have hc3 : s3.csr = s.csr := by simp only [hs3, write_read h2.x0, hc2]
  have hc4 : s4.csr = s.csr := by simp only [hs4, write_read h3.x0, hc3]
  have hc5 : s5.csr = s.csr := by simp only [hs5, write_read h4.x0, hc4]
  have hr5 : ∀ r, r ≠ 5 → r ≠ 6 → r ≠ 7 → s5.regfile r = s1.regfile r := by
    intro r h5 h6 h7
    simp only [hs5, hs4, hs3, hs2, reguEdge_of_ne h5, reguEdge_of_ne h6, reguEdge_of_ne h7]
  have hstatus : s5.regfile 6 = s.csr.mstatus := by
    simp only [hs5, hs4, reguEdge_of_ne (show (6 : Reg) ≠ 7 by decide),
      reguEdge_self (show (6 : Reg) ≠ 0 by decide), hc3]
    rfl
  have hepc : s5.regfile 7 = s.csr.mepc := by
    simp only [hs5, reguEdge_self (show (7 : Reg) ≠ 0 by decide), hc4]
    rfl
  have hsp5 : s5.regfile 2 = b := (hr5 2 (by decide) (by decide) (by decide)).trans hsp1
  obtain ⟨s6, e6, hs6, h6⟩ := h5.sw hsp5 (by decide)
  obtain ⟨s7, e7, hs7, h7⟩ := h6.sw (by rw [hs6, hsp5]) (by decide)
  obtain ⟨s8, e8, hs8, h8⟩ := h7.sw (by rw [hs7, hs6, hsp5]) (by decide)
  obtain ⟨s9, e9, hs9, h9⟩ := h8.addi
  have e10 := edge_jal h9.instr
  have hrun : s.run 39 = s9.edge false := by
    rw [show 39 = Trap.regs.length + 8 + 1 from rfl, run_succ, e1, run_add, e2]
    simp only [run_succ, run_zero, e3, e4, e5, e6, e7, e8, e9]
  have hpc : s9.pc = s.pc + BitVec.ofNat 32 152 := by
    simp only [hs9, hs8, hs7, hs6, hs5, hs4, hs3, hs2, hs1]
    rw [show Trap.regs.length = 30 from rfl]
    simp [BitVec.add_assoc]
  have hm : s9.mem = store (store (store (pushed b s1.regfile Trap.regs s.mem)
      (b + BitVec.ofNat 32 Trap.offsetCause) 4 (s5.regfile 5))
      (b + BitVec.ofNat 32 Trap.offsetStatus) 4 s.csr.mstatus)
      (b + BitVec.ofNat 32 Trap.offsetEpc) 4 s.csr.mepc := by
    simp only [hs9, hs8, hs7, hs6, hstatus, hepc]
    simp only [hs5, hs4, hs3, hs2, hs1]
  have hr9 : ∀ r, r ≠ 5 → r ≠ 6 → r ≠ 7 → r ≠ 10 → s9.regfile r = s1.regfile r := by
    intro r h5 h6 h7 h10
    simp only [hs9, hs8, hs7, hs6, reguEdge_of_ne h10, hr5 r h5 h6 h7]
  rw [hrun, e10]
  constructor
  · simp only [hpc]
  · simp only [reguEdge_self (show (1 : Reg) ≠ 0 by decide), hpc]
    rw [BitVec.add_assoc]
    rfl
  · simp only [reguEdge_of_ne (show (2 : Reg) ≠ 1 by decide)]
    exact (hr9 2 (by decide) (by decide) (by decide) (by decide)).trans hsp1
  · simp only [hs9, hs8, hs7, hs6, hc5]
  · intro x hx
    rw [hm, store_outside _ b x _ (by decide) hx, store_outside _ b x _ (by decide) hx,
      store_outside _ b x _ (by decide) hx, pushed_outside _ _ (fun n hn => (regs_lt n hn).1) hx]
  · intro n hn
    obtain ⟨hn32, hn0, hn2⟩ := regs_lt n hn
    have hlt : n * Trap.xlen + 4 ≤ Trap.offsetCause := by
      change n < 32 at hn32
      change n * 4 + 4 ≤ 128
      omega
    have hle : n * Trap.xlen + 4 ≤ 2 ^ 32 := hlt.trans (by decide)
    have h2 : BitVec.ofNat 5 n ≠ (2 : Reg) := reg_ne (n := 2) hn32 (by decide) hn2
    have hreg : s1.regfile (BitVec.ofNat 5 n) = s.regfile (BitVec.ofNat 5 n) := by
      simp only [hs1, reguEdge_of_ne h2]
    rw [hm, load_store_offset _ _ _ (.inr (hlt.trans (by decide))) (by decide) hle,
      load_store_offset _ _ _ (.inr (hlt.trans (by decide))) (by decide) hle,
      load_store_offset _ _ _ (.inr hlt) (by decide) hle,
      load_pushed _ _ (fun n hn => (regs_lt n hn).1) hn, hreg]
  · rw [hm, load_store_offset _ _ _ (by decide) (by decide) (by decide)]
    exact (load_store_same _ _ 4 _ (by decide)).trans (BitVec.setWidth_eq _)
  · rw [hm]
    exact (load_store_same _ _ 4 _ (by decide)).trans (BitVec.setWidth_eq _)

structure Left (b : Word) (s s' : Cpu) : Prop where
  pc : s'.pc = load s.mem (b + BitVec.ofNat 32 Trap.offsetEpc) 4
  sp : s'.regfile 2 = b + BitVec.ofNat 32 Trap.contextSize
  regs : ∀ n ∈ Trap.regs,
    s'.regfile (BitVec.ofNat 5 n) = load s.mem (b + BitVec.ofNat 32 (n * Trap.xlen)) 4
  mstatus : s'.csr.mstatus = load s.mem (b + BitVec.ofNat 32 Trap.offsetStatus) 4
  mtvec : s'.csr.mtvec = s.csr.mtvec
  mem : s'.mem = s.mem

theorem Ready.leave {b : Word} (h : s.Ready b Trap.leave) (hb : s.regfile 2 = b) :
    (s.run 35).instr = mret ∧ Left b s (s.run 36) := by
  rw [Trap.leave, List.append_assoc] at h
  obtain ⟨s1, e1, hs1, h1⟩ := h.lw hb (by decide)
  have hsp1 : s1.regfile 2 = b := by
    simp only [hs1, reguEdge_of_ne (show (2 : Reg) ≠ 6 by decide), hb]
  obtain ⟨s2, e2, hs2, h2⟩ := h1.lw hsp1 (by decide)
  obtain ⟨s3, e3, hs3, h3⟩ := h2.csrrw
  obtain ⟨s4, e4, hs4, h4⟩ := h3.csrrw
  have hx0 : ∀ v regfile, reguEdge false true 0 v regfile = regfile := fun _ _ => rfl
  have hsp4 : s4.regfile 2 = b := by
    simp only [hs4, hs3, hs2, hx0, reguEdge_of_ne (show (2 : Reg) ≠ 7 by decide), hsp1]
  have hwstatus : ∀ f (c : Csr), c.write (BitVec.signExtend 32 (0x300 : BitVec 12)) f =
      { c with mstatus := f c.mstatus } := fun _ _ => rfl
  have hwepc : ∀ f (c : Csr), c.write (BitVec.signExtend 32 (0x341 : BitVec 12)) f =
      { c with mepc := f c.mepc } := fun _ _ => rfl
  have h6 : s2.regfile 6 = load s.mem (b + BitVec.ofNat 32 Trap.offsetStatus) 4 := by
    simp only [hs2, hs1, reguEdge_of_ne (show (6 : Reg) ≠ 7 by decide),
      reguEdge_self (show (6 : Reg) ≠ 0 by decide)]
  have h7 : s3.regfile 7 = load s.mem (b + BitVec.ofNat 32 Trap.offsetEpc) 4 := by
    simp only [hs3, hx0, hs2, hs1, reguEdge_self (show (7 : Reg) ≠ 0 by decide)]
  have hc4 : s4.csr = { s.csr with
      mstatus := load s.mem (b + BitVec.ofNat 32 Trap.offsetStatus) 4
      mepc := load s.mem (b + BitVec.ofNat 32 Trap.offsetEpc) 4 } := by
    rw [← h6, ← h7]
    simp only [hs4, hwepc]
    simp only [hs3, hwstatus]
    simp only [hs2, hs1]
  have hm4 : s4.mem = s.mem := by simp only [hs4, hs3, hs2, hs1]
  obtain ⟨s5, e5, hs5, h5⟩ := h4.pop Trap.regs hsp4 fun n hn =>
    ⟨(regs_lt n hn).1, (regs_lt n hn).2.2⟩
  obtain ⟨s6, e6, hs6, h6'⟩ := h5.addi
  have e7 := edge_mret h6'.instr
  have hrun : s.run 35 = s6 := by
    rw [show 35 = 4 + (Trap.regs.length + 1) from rfl, run_add, run_add]
    simp only [run_succ, run_zero, e1, e2, e3, e4, e5, e6]
  have hrun' : s.run 36 = s6.edge false := by
    rw [show 36 = 35 + 1 from rfl, run_add, hrun]
    rfl
  have hm6 : s6.mem = s.mem := by simp only [hs6, hs5, hm4]
  have hc6 : s6.csr = s4.csr := by simp only [hs6, hs5]
  rw [hrun, hrun', e7]
  refine ⟨h6'.instr, ?_⟩
  have hr6 : ∀ r, r ≠ 2 → s6.regfile r = popped b s.mem Trap.regs s4.regfile r := by
    intro r h2
    simp only [hs6, reguEdge_of_ne h2, hs5, hm4]
  constructor
  · simp only [hc6, hc4]
  · have hsp5 : s5.regfile 2 = b := by
      have hn2 : ∀ n ∈ Trap.regs, (2 : Reg) ≠ BitVec.ofNat 5 n := fun n hn =>
        reg_ne (k := 2) (by decide) (regs_lt n hn).1 (regs_lt n hn).2.2.symm
      simp only [hs5, popped_of_not_mem _ _ hn2, hsp4]
    simp only [hs6, reguEdge_self (show (2 : Reg) ≠ 0 by decide), hsp5]
    rfl
  · intro n hn
    obtain ⟨hn32, hn0, hn2⟩ := regs_lt n hn
    apply (hr6 _ (reg_ne (n := 2) hn32 (by decide) hn2)).trans
    exact popped_of_mem s.mem s4.regfile (fun n hn => ⟨(regs_lt n hn).1, (regs_lt n hn).2.1⟩) hn
  · simp only [hc6, hc4]
  · simp only [hc6, hc4]
  · exact hm6

/-- `clobber` returns with `sp` and the CSRs as they were and one word of its own
frame written. -/
theorem Ready.clobber {b : Word} (h : s.Ready b Trap.clobber)
    (hb : s.regfile 2 + (-BitVec.ofNat 12 Trap.contextSize).signExtend 32 = b) :
    (s.run 6).pc = s.regfile 1 &&& ~~~1 ∧ (s.run 6).regfile 2 = s.regfile 2 ∧
      (s.run 6).csr = s.csr ∧ ∃ v : Word, (s.run 6).mem = store s.mem (b + BitVec.ofNat 32 0) 4 v := by
  obtain ⟨s1, e1, hs1, h1⟩ := h.addi
  have hsp1 : s1.regfile 2 = b := by
    simp only [hs1, reguEdge_self (show (2 : Reg) ≠ 0 by decide), hb]
  obtain ⟨s2, e2, hs2, h2⟩ := h1.addi
  have hsp2 : s2.regfile 2 = b := by
    simp only [hs2, reguEdge_of_ne (show (2 : Reg) ≠ 5 by decide), hsp1]
  obtain ⟨s3, e3, hs3, h3⟩ := h2.sw hsp2 (by decide)
  obtain ⟨s4, e4, hs4, h4⟩ := h3.addi
  obtain ⟨s5, e5, hs5, h5⟩ := h4.addi
  have e6 := edge_jalr h5.instr
  have hra : s5.regfile 1 = s.regfile 1 := by
    simp only [hs5, hs4, hs3, hs2, hs1, reguEdge_of_ne (show (1 : Reg) ≠ 2 by decide),
      reguEdge_of_ne (show (1 : Reg) ≠ 5 by decide), reguEdge_of_ne (show (1 : Reg) ≠ 10 by decide)]
  have hsp : s5.regfile 2 = s.regfile 2 := by
    have hsp4 : s4.regfile 2 = b := by
      simp only [hs4, hs3, reguEdge_of_ne (show (2 : Reg) ≠ 10 by decide), hsp2]
    simp only [hs5, reguEdge_self (show (2 : Reg) ≠ 0 by decide), hsp4]
    rw [← hb, BitVec.add_assoc]
    exact BitVec.add_zero _
  have hrun : s.run 6 = { s5 with pc := s.regfile 1 &&& ~~~1 } := by
    simp only [run_succ, run_zero, e1, e2, e3, e4, e5, e6]
    have hx0 : ∀ v regfile, reguEdge false true 0 v regfile = regfile := fun _ _ => rfl
    have hz : (0 : BitVec 12).signExtend 32 = 0#32 := rfl
    rw [hx0, hz, BitVec.add_zero, hra]
  rw [hrun]
  refine ⟨rfl, hsp, ?_, s2.regfile 5, ?_⟩
  · simp only [hs5, hs4, hs3]
    simp only [hs2, hs1]
  · simp only [hs5, hs4, hs3]
    simp only [hs2, hs1]

def frame (s : Cpu) : Word := s.regfile 2 - BitVec.ofNat 32 Trap.contextSize

/-- `__am_irq_handle`, entered in `e`, returns in `r`: it keeps to the calling
convention, leaves the frame and `mtvec` as they are, and the rest of the stub in
its place. -/
structure Handled (e r : Cpu) : Prop where
  pc : r.pc = e.regfile 1
  sp : r.regfile 2 = e.regfile 2
  frame : ∀ x, dist (e.regfile 2) x < Trap.contextSize → r.mem x = e.mem x
  code : CodeAt r.mem r.pc Trap.leave
  mtvec : r.csr.mtvec = e.csr.mtvec

theorem run_x0 (n : Nat) (h : s.regfile 0 = 0) : (s.run n).regfile 0 = 0 := by
  induction n generalizing s with
  | zero => exact h
  | succ n ih =>
    rw [run_succ]
    exact ih (edge_x0 false h)

theorem reg_cases : ∀ r : Reg, r = 0 ∨ r = 2 ∨ ∃ n ∈ Trap.regs, r = BitVec.ofNat 5 n := by decide

section Trap

variable (hs : Reachable s) (handler : BitVec 20)
  (hcode : CodeAt s.mem s.csr.mtvec (Trap.amAsmTrap handler)) (hw : s.instr = ecall)
  (hframe : ∀ j < 300, ¬ dist s.frame (s.csr.mtvec + BitVec.ofNat 32 j) < Trap.contextSize)

include hs hcode hw hframe

theorem entered : Entered s.frame handler
    { s with pc := s.csr.mtvec, csr := { s.csr with mepc := s.pc + 4, mcause := 1 } }
    (s.run 40) := by
  have hb : s.regfile 2 + (-BitVec.ofNat 12 Trap.contextSize).signExtend 32 = s.frame := by
    rw [frame, sub_eq_add_neg]
    rfl
  have h : (s.edge false).Ready s.frame (Trap.enter handler ++ Trap.leave) := by
    rw [edge_ecall hw]
    exact ⟨hcode, hframe, hs.x0⟩
  have hE := h.enter (by rw [edge_ecall hw]; exact hb)
  rwa [← run_succ, edge_ecall hw] at hE

/-- A trap taken by `ecall` comes back behind it with all registers as they
were, however long the handler runs; the stub writes in the frame only. -/
theorem trap_returns (k : Nat) (hk : Handled (s.run 40) ((s.run 40).run k)) :
    let e := s.run 40
    let r := e.run k
    let s' := r.run 36
    e.pc = s.csr.mtvec + BitVec.ofNat 32 152 + (handler ++ 0#1).signExtend 32 ∧
      (r.run 35).instr = mret ∧ s'.pc = s.pc + 4 ∧ s'.regfile = s.regfile ∧
      s'.csr.mstatus = s.csr.mstatus ∧ s'.csr.mtvec = s.csr.mtvec ∧
      (∀ x, ¬ dist s.frame x < Trap.contextSize → e.mem x = s.mem x) ∧ s'.mem = r.mem := by
  intro e r s'
  have hE : Entered s.frame handler _ e := entered hs handler hcode hw hframe
  have hmt : (s.run 40).csr.mtvec = s.csr.mtvec := by rw [hE.csr]
  have hfb : ∀ q, q + 4 ≤ Trap.contextSize → load r.mem (s.frame + BitVec.ofNat 32 q) 4 =
      load e.mem (s.frame + BitVec.ofNat 32 q) 4 := by
    intro q hq
    refine load_ext fun j hj => hk.frame _ ?_
    have hq : q + 4 ≤ 144 := hq
    rw [hE.sp, BitVec.add_assoc, ← BitVec.ofNat_add, dist_add _ (by omega)]
    change q + j < 144
    omega
  have hR : r.Ready s.frame Trap.leave := by
    have hpc : r.pc = s.csr.mtvec + BitVec.ofNat 32 156 := hk.pc.trans hE.ra
    refine ⟨hk.code, fun j hj => ?_, run_x0 k (run_x0 40 hs.x0)⟩
    rw [hpc, BitVec.add_assoc, ← BitVec.ofNat_add]
    exact hframe _ (Nat.add_lt_add_left hj 156)
  obtain ⟨hmret, hL⟩ := hR.leave (hk.sp.trans hE.sp)
  refine ⟨hE.pc, hmret, ?_, ?_, ?_, ?_, hE.outside, hL.mem⟩
  · rw [hL.pc, hfb _ (by decide), hE.epc]
  · funext x
    obtain rfl | rfl | ⟨n, hn, rfl⟩ := reg_cases x
    · rw [hs.x0]
      exact run_x0 36 (run_x0 k (run_x0 40 hs.x0))
    · rw [hL.sp, frame, BitVec.sub_add_cancel]
    · rw [hL.regs n hn, hfb _ (Ready.slot_le (Ready.regs_lt n hn).1), hE.regs n hn]
  · rw [hL.mstatus, hfb _ (by decide), hE.status]
  · rw [hL.mtvec, hk.mtvec, hmt]

/-- `clobber` apart from the frame and from its own, which lies below. -/
theorem handled_clobber {a b : Word}
    (ha : s.csr.mtvec + BitVec.ofNat 32 152 + (handler ++ 0#1).signExtend 32 = a)
    (hr : CodeAt s.mem a Trap.clobber) (hb : b = s.frame - BitVec.ofNat 32 Trap.contextSize)
    (hout : ∀ j < 24, ¬ dist s.frame (a + BitVec.ofNat 32 j) < Trap.contextSize)
    (hapart : ∀ j < 24, ¬ dist b (a + BitVec.ofNat 32 j) < Trap.contextSize)
    (hlow : ∀ j < 300, ¬ dist b (s.csr.mtvec + BitVec.ofNat 32 j) < Trap.contextSize)
    (heven : (s.csr.mtvec + BitVec.ofNat 32 156) &&& ~~~1 = s.csr.mtvec + BitVec.ofNat 32 156) :
    Handled (s.run 40) ((s.run 40).run 6) := by
  have hE := entered hs handler hcode hw hframe
  have hleave : CodeAt s.mem (s.csr.mtvec + BitVec.ofNat 32 156) Trap.leave :=
    CodeAt.append hcode
  have h0 : (s.run 40).Ready b Trap.clobber := by
    refine ⟨?_, ?_, run_x0 40 hs.x0⟩
    · rw [hE.pc, ha]
      exact hr.congr fun j hj => hE.outside _ (hout j hj)
    · rw [hE.pc, ha]
      exact hapart
  have hcode : CodeAt (s.run 40).mem (s.csr.mtvec + BitVec.ofNat 32 156) Trap.leave := by
    refine hleave.congr fun j hj => hE.outside _ ?_
    have hj : 156 + j < 300 := Nat.add_lt_add_left hj 156
    exact fun hd => hframe _ hj (by rwa [BitVec.ofNat_add, ← BitVec.add_assoc])
  generalize s.run 40 = e at hE h0 hcode
  have hsp : e.regfile 2 + (-BitVec.ofNat 12 Trap.contextSize).signExtend 32 = b := by
    rw [hE.sp, hb, sub_eq_add_neg]
    rfl
  obtain ⟨hpc, hkept, hcsr, v, hmem⟩ := h0.clobber hsp
  have houtside : ∀ x, ¬ dist b x < Trap.contextSize → (e.run 6).mem x = e.mem x := fun x hx => by
    rw [hmem]
    exact store_outside e.mem b x _ (by decide) hx
  have hret : (e.run 6).pc = e.regfile 1 := by rw [hpc, hE.ra, heven]
  refine ⟨hret, hkept, fun x hx => ?_, ?_, by rw [hcsr]⟩
  · refine houtside x fun hd => ?_
    rw [hE.sp, ByteMemory.dist] at hx
    rw [hb, ByteMemory.dist, sub_sub_eq_add_sub, add_sub_right_comm, BitVec.toNat_add] at hd
    change (x - s.frame).toNat < 144 at hx
    change ((x - s.frame).toNat + 144) % 2 ^ 32 < 144 at hd
    omega
  · rw [hret, hE.ra]
    refine hcode.congr fun j hj => houtside _ ?_
    have hj : 156 + j < 300 := Nat.add_lt_add_left hj 156
    exact fun hd => hlow _ hj (by rwa [BitVec.ofNat_add, ← BitVec.add_assoc])

end Trap

namespace Trap

/-- Words of code from address 0 on, and an `ecall` at the reset address. -/
def image (code : List Word) : Mem 32 := fun a =>
  if a.toNat < 4 * code.length then (code.getD (a.toNat / 4) 0).extractLsb' (8 * (a.toNat % 4)) 8
  else if dist 0x80000000 a < 4 then ecall.extractLsb' (8 * dist 0x80000000 a) 8
  else 0

end Trap

/-- After a reset `mtvec` is 0; there the stub calls `clobber`. -/
theorem trap_returns_clobber :
    let s := (⟨0x80000004, fun _ => 0x80002000, ⟨0, 0, 0, 0⟩,
      Trap.image (Trap.amAsmTrap 74 ++ Trap.clobber)⟩ : Cpu).edge true
    let e := s.run 40
    let r := e.run 6
    let s' := r.run 36
    e.pc = s.csr.mtvec + BitVec.ofNat 32 152 + (74#20 ++ 0#1).signExtend 32 ∧
      (r.run 35).instr = mret ∧ s'.pc = s.pc + 4 ∧ s'.regfile = s.regfile ∧
      s'.csr.mstatus = s.csr.mstatus ∧ s'.csr.mtvec = s.csr.mtvec ∧
      (∀ x, ¬ dist s.frame x < Trap.contextSize → e.mem x = s.mem x) ∧ s'.mem = r.mem := by
  refine trap_returns (.reset _) 74 ?_ ?_ ?_ 6
    (handled_clobber (.reset _) 74 ?_ ?_ ?_ rfl ?_ rfl ?_ ?_ ?_ ?_)
  all_goals decide +kernel

end Cpu

end LinuxCpu.Rv32
