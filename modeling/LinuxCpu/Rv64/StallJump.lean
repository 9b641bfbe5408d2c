import LinuxCpu.Rv64.DecodeFacts
import LinuxCpu.Rv64.LinuxTopCpu

namespace LinuxCpu.Rv64

open Bits Simulator

structure RegE.Decoded (e : RegE) : Prop where
  oneHot : ∀ i j, e.opcodeInfo.getLsbD i → e.opcodeInfo.getLsbD j → i = j
  branch : ∀ i, e.branchInfo.getLsbD i → e.opcodeInfo.getLsbD 1
  loadStore : ∀ i, e.loadStoreInfo.getLsbD i → e.opcodeInfo.getLsbD 3 ∨ e.opcodeInfo.getLsbD 2
  regWen : e.regWen → ∃ k, 3 ≤ k ∧ e.opcodeInfo.getLsbD k

namespace Decode

variable {w : BitVec 32}

theorem opcodeInfo_unique {i j : Nat} (h : (opcodeInfo w).getLsbD i = true)
    (h' : (opcodeInfo w).getLsbD j = true) : i = j := by
  have hj : j < 12 := BitVec.lt_of_getLsbD h'
  rw [hot_of_getLsbD h, getLsbD_hot _ hj, beq_iff_eq] at h'
  exact Option.some.inj h'

theorem loadStoreInfo_eq_zero (h3 : (opcodeInfo w).getLsbD 3 = false)
    (h2 : (opcodeInfo w).getLsbD 2 = false) : loadStoreInfo w = 0 := by
  have hl : instLoad w = false := by simpa [opcodeInfo] using h3
  have hs : instStore w = false := by simpa [opcodeInfo] using h2
  simp [loadStoreInfo, instLb, instLh, instLw, instLd, instLbu, instLhu, instLwu, instSb, instSh,
    instSw, instSd, hl, hs]
  decide

end Decode

namespace RegE.Decoded

theorem clear (e : RegE) : e.clear.Decoded where
  oneHot i j h := by simp [RegE.clear] at h
  branch i h := by simp [RegE.clear] at h
  loadStore i h := by simp [RegE.clear] at h
  regWen h := by simp [RegE.clear] at h

theorem load {w : BitVec 32} {e : RegE} (ho : e.opcodeInfo = Decode.opcodeInfo w)
    (hb : e.branchInfo = Decode.branchInfo w) (hl : e.loadStoreInfo = Decode.loadStoreInfo w)
    (hw : e.regWen = Decode.regWen w) : e.Decoded where
  oneHot i j h h' := by
    rw [ho] at h h'
    exact Decode.opcodeInfo_unique h h'
  branch i h := by
    rw [ho]
    by_contra h1
    rw [hb, Decode.branchInfo_eq_zero (Bool.eq_false_iff.mpr h1)] at h
    exact absurd h (by simp)
  loadStore i h := by
    rw [ho]
    by_contra hn
    rw [not_or] at hn
    rw [hl, Decode.loadStoreInfo_eq_zero (Bool.eq_false_iff.mpr hn.1)
      (Bool.eq_false_iff.mpr hn.2)] at h
    exact absurd h (by simp)
  regWen h := by
    obtain ⟨k, hk, h3, h11⟩ := Decode.hot_of_regWen (hw ▸ h)
    refine ⟨k, h3, ?_⟩
    rw [ho, hk, getLsbD_hot _ (Nat.lt_succ_of_le h11), beq_iff_eq]

variable {e : RegE}

theorem not_needJump (h : e.Decoded) (h3 : e.opcodeInfo.getLsbD 3) :
    Execute.needJump e = false := by
  have hop : ∀ j, j ≠ 3 → e.opcodeInfo.getLsbD j = false := by
    intro j hne
    exact Bool.eq_false_iff.mpr fun ht => hne (h.oneHot j 3 ht h3)
  have hbr : ∀ i, e.branchInfo.getLsbD i = false := by
    intro i
    exact Bool.eq_false_iff.mpr fun ht => Bool.eq_false_iff.mp (hop 1 (by decide)) (h.branch i ht)
  simp only [Execute.needJump, Execute.instBeq, Execute.instBne, Execute.instBlt, Execute.instBge,
    Execute.instBltu, Execute.instBgeu, Execute.opJal, Execute.opJalr, hbr, hop 8 (by decide),
    hop 9 (by decide), Bool.false_and, Bool.or_false]
  rfl

end RegE.Decoded

namespace LinuxTopCpu

/-- A clock edge, or the rise of `rst` that `regE` alone answers at once. -/
inductive Event | clock (rst : Bool) | rstRise

section Model

variable (imem : Host → Word → BitVec 32)

def step (s : LinuxTopCpu) : Event → LinuxTopCpu
  | .clock rst => edge LinuxExecute.execute imem rst s
  | .rstRise => { s with regE := s.regE.clear }

def run (s : LinuxTopCpu) (events : List Event) : LinuxTopCpu := events.foldl (step imem) s

def loadUse (s : LinuxTopCpu) : Bool := s.core.loadUse

def needJump (s : LinuxTopCpu) : Bool := (LinuxExecute.execute s.regE).needJump

end Model

section Step

variable (imem : Host → Word → BitVec 32) {s : LinuxTopCpu}

def forward (s : LinuxTopCpu) : Forward :=
  forwardOf s.regE (LinuxExecute.execute s.regE) s.regM (Memory.memdata s.regM s.host) s.regW

theorem regE_edge : (edge LinuxExecute.execute imem false s).regE =
    if s.needJump || s.loadUse then s.regE.clear
    else RegE.issue s.forward s.regfile s.regD := rfl

theorem pc_edge : (edge LinuxExecute.execute imem false s).pc =
    pcEdge false s.loadUse false (LinuxExecute.execute s.regE).jumpPc s.needJump s.pc := rfl

theorem regE_step (event : Event) :
    (step imem s event).regE = s.regE.clear ∨
      s.loadUse = false ∧ (step imem s event).regE = RegE.issue s.forward s.regfile s.regD := by
  cases event with
  | rstRise => exact .inl rfl
  | clock rst =>
    cases rst with
    | true => exact .inl rfl
    | false =>
      have hE : (step imem s (.clock false)).regE = _ := regE_edge imem
      rw [hE]
      cases hj : s.needJump with
      | true => exact .inl rfl
      | false =>
        cases hl : s.loadUse with
        | true => exact .inl rfl
        | false => exact .inr ⟨rfl, rfl⟩

theorem decoded_step (event : Event) : (step imem s event).regE.Decoded := by
  obtain h | ⟨-, h⟩ := regE_step imem (s := s) event
  · rw [h]
    exact .clear _
  · rw [h]
    exact .load (w := s.regD.instr) rfl rfl rfl rfl

theorem decoded_run (s₀ : LinuxTopCpu) (events : List Event) :
    (run imem (edge LinuxExecute.execute imem true s₀) events).regE.Decoded := by
  obtain rfl | ⟨events, event, rfl⟩ := List.eq_nil_or_concat events
  · exact decoded_step imem (.clock true)
  · rw [run, List.concat_eq_append, List.foldl_append]
    exact decoded_step imem event

theorem loadUse_imp (h : s.loadUse = true) : s.regE.opcodeInfo.getLsbD 3 = true :=
  (Bool.and_eq_true_iff.mp h).2

theorem loadUse_of_clear {e : RegE} (h : s.regE = e.clear) : s.loadUse = false := by
  apply Bool.eq_false_iff.mpr
  intro hl
  have h3 := loadUse_imp hl
  rw [h] at h3
  simp [RegE.clear] at h3

theorem loadUse_step (h : s.loadUse = true) (event : Event) :
    (step imem s event).loadUse = false := by
  obtain hc | ⟨hl, -⟩ := regE_step imem (s := s) event
  · exact loadUse_of_clear hc
  · cases h.symm.trans hl

end Step

structure StallSafe (imem : Host → Word → BitVec 32) (s : LinuxTopCpu) : Prop where
  exclusive : ¬ (s.loadUse = true ∧ s.needJump = true)
  decoded : s.regE.Decoded
  single : s.loadUse = true → ∀ event, (step imem s event).loadUse = false
  jumps : s.needJump = true →
    (edge LinuxExecute.execute imem false s).pc = (LinuxExecute.execute s.regE).jumpPc

/-- A stall never swallows a jump, in every run behind a reset. -/
theorem stall_safe (imem : Host → Word → BitVec 32) (s₀ : LinuxTopCpu) (events : List Event) :
    StallSafe imem (run imem (edge LinuxExecute.execute imem true s₀) events) := by
  have hd := decoded_run imem s₀ events
  have hx : ∀ s : LinuxTopCpu, s.regE.Decoded → ¬ (s.loadUse = true ∧ s.needJump = true) := by
    rintro s hd ⟨hl, hj⟩
    cases hj.symm.trans (hd.not_needJump (loadUse_imp hl))
  constructor
  · exact hx _ hd
  · exact hd
  · exact fun hl event => loadUse_step imem hl event
  · intro hj
    have hl := Bool.eq_false_iff.mpr fun hl => hx _ hd ⟨hl, hj⟩
    rw [pc_edge imem, hl, hj]
    rfl

end LinuxTopCpu

end LinuxCpu.Rv64
