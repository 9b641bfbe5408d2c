import LinuxCpu.Rv64.FetchCorrect
import LinuxCpu.Simulator.Dpi

/-! The instruction cache of `linux_cpu` on a text segment that nothing writes,
entered at the start of a block. -/

namespace LinuxCpu.Rv64

open Bits Simulator ByteMemory

/-- Whole blocks of simulated memory, the addresses from `lo` to `hi - 1`. -/
structure Text where
  lo : Nat
  hi : Nat
  lo_block : lo % 16 = 0
  hi_block : hi % 16 = 0
  lo_mem : configMbase.toNat ≤ lo
  hi_mem : hi ≤ configMbase.toNat + configMsize.toNat

namespace Text

def Holds (T : Text) (a : Word) : Prop := T.lo ≤ a.toNat ∧ a.toNat < T.hi

instance (T : Text) (a : Word) : Decidable (T.Holds a) := inferInstanceAs (Decidable (_ ∧ _))

variable {T : Text}

theorem Holds.add (h : T.Holds a) (ha : a.toNat % 4 = 0) {j : Nat} (hj : j < 4) :
    T.Holds (a + BitVec.ofNat 64 j) := by
  have hm := T.hi_mem
  have hb := T.hi_block
  have he : configMbase.toNat + configMsize.toNat = 0x88000000 := rfl
  obtain ⟨hl, hh⟩ := h
  have hn : (a + BitVec.ofNat 64 j).toNat = a.toNat + j := by
    rw [BitVec.toNat_add, BitVec.toNat_ofNat]
    omega
  rw [Holds, hn]
  omega

theorem load_congr (h : ∀ x, T.Holds x → m x = m' x) (ha : T.Holds a) (h4 : a.toNat % 4 = 0) :
    load m a 4 = load m' a 4 :=
  load_ext fun _ hj => h _ (ha.add h4 hj)

theorem dpiInstrMemRead_eq (host : Host) (ha : T.Holds a) :
    dpiInstrMemRead host a = load host.pmem.guest a 4 := by
  have hr : configMbase ≤ a ∧ a < configMbase + configMsize := by
    have hl := Nat.le_trans T.lo_mem ha.1
    have hh := Nat.lt_of_lt_of_le ha.2 T.hi_mem
    exact ⟨BitVec.le_def.mpr hl, BitVec.lt_def.mpr hh⟩
  rw [dpiInstrMemRead, if_pos hr, pmemRead_guest]
  exact (BitVec.setWidth_setWidth_of_le _ (by decide)).trans (BitVec.setWidth_eq _)

end Text

def blockBase (pc : Word) : Word := pcTag pc ++ pcIndex pc ++ 0#4

theorem blockBase_add (pc : Word) : blockBase pc + (pcOffset pc).setWidth 64 = pc := by
  apply BitVec.eq_of_toNat_eq
  have hpc := pc.isLt
  simp only [blockBase, pcTag, pcIndex, pcOffset, BitVec.toNat_add, toNat_append_add,
    BitVec.toNat_setWidth, BitVec.extractLsb'_toNat, Nat.shiftRight_eq_div_pow, BitVec.toNat_ofNat]
  omega

theorem toNat_pcOffset (pc : Word) : (pcOffset pc).toNat = pc.toNat % 16 := by
  simp [pcOffset, BitVec.extractLsb'_toNat]

theorem pcOffset_eq_zero_iff (pc : Word) : pcOffset pc = 0 ↔ pc.toNat % 16 = 0 := by
  rw [← BitVec.toNat_inj, toNat_pcOffset]
  rfl

theorem blockBase_of_offset {pc : Word} (h : pcOffset pc = 0) : blockBase pc = pc := by
  have hb := blockBase_add pc
  rw [h] at hb
  exact (BitVec.add_zero _).symm.trans hb

theorem blockBase_congr {p q : Word} (hi : pcIndex p = pcIndex q) (ht : pcTag p = pcTag q) :
    blockBase p = blockBase q := by
  rw [blockBase, blockBase, hi, ht]

theorem next_in_block {pc : Word} (ha : pc.toNat % 4 = 0) (h : (pc + 4).toNat % 16 ≠ 0) :
    pcIndex (pc + 4) = pcIndex pc ∧ pcTag (pc + 4) = pcTag pc := by
  have hpc := pc.isLt
  have hn : (pc + 4).toNat = (pc.toNat + 4) % 2 ^ 64 := BitVec.toNat_add ..
  constructor <;> apply BitVec.eq_of_toNat_eq <;>
    simp only [pcIndex, pcTag, BitVec.extractLsb'_toNat, Nat.shiftRight_eq_div_pow, hn] <;>
    rw [hn] at h <;> omega

namespace Icache

structure Serves (imem : Word → BitVec 32) (T : Text) (c : Icache) : Prop where
  way1 : ∀ idx, (c.cache idx .way1).valid = false
  hit : ∀ q, T.Holds q → cacheHitIndex0 q c →
    (c.cache (pcIndex q) .way0).data = memoryData imem (blockBase q)

/-- An access in the middle of a block will hit. -/
def Ready (pc : Word) (c : Icache) : Prop := pcOffset pc = 0 ∨ cacheHitIndex0 pc c

variable {imem imem' : Word → BitVec 32} {T : Text} {c c' : Icache} {pc : Word}

theorem Serves.of_cache (h : Serves imem T c) (hc : c'.cache = c.cache) : Serves imem T c' where
  way1 idx := by rw [hc, h.way1]
  hit q hq hp := by
    rw [cacheHitIndex0_iff, hc] at hp
    rw [hc]
    exact h.hit q hq (cacheHitIndex0_iff.mpr hp)

theorem Ready.of_cache (h : Ready pc c) (hc : c'.cache = c.cache) : Ready pc c' :=
  h.imp_right fun hp => by
    rw [cacheHitIndex0_iff, hc]
    exact cacheHitIndex0_iff.mp hp

theorem memoryData_congr (h : ∀ a, T.Holds a → a.toNat % 4 = 0 → imem' a = imem a)
    (hp : T.Holds pc) (h0 : pcOffset pc = 0) : memoryData imem' pc = memoryData imem pc := by
  have h0 := (pcOffset_eq_zero_iff pc).mp h0
  have hm := T.hi_mem
  have hb := T.hi_block
  have he : configMbase.toNat + configMsize.toNat = 0x88000000 := rfl
  obtain ⟨hl, hh⟩ := hp
  have hat (j : Nat) (hj : j < 16) (hj4 : j % 4 = 0) :
      imem' (pc + BitVec.ofNat 64 j) = imem (pc + BitVec.ofNat 64 j) := by
    have hn : (pc + BitVec.ofNat 64 j).toNat = pc.toNat + j := by
      rw [BitVec.toNat_add, BitVec.toNat_ofNat]
      omega
    exact h _ ⟨by omega, by omega⟩ (by omega)
  have h4 : imem' (pc + 4) = imem (pc + 4) := hat 4 (by decide) rfl
  have h8 : imem' (pc + 8) = imem (pc + 8) := hat 8 (by decide) rfl
  have h12 : imem' (pc + 12) = imem (pc + 12) := hat 12 (by decide) rfl
  have h0 : imem' pc = imem pc := h pc ⟨hl, hh⟩ (by omega)
  rw [memoryData, memoryData, h12, h8, h4, h0]

/-- A ready access in the segment loads the word at `pc`, from whatever memory
agrees on the segment, and leaves the cache ready for the word behind it. -/
theorem Serves.load (h : Serves imem T c) (hr : Ready pc c) (hp : T.Holds pc)
    (ha : pc.toNat % 4 = 0) (hm : ∀ a, T.Holds a → a.toNat % 4 = 0 → imem' a = imem a) :
    let c' := edge imem' pc c (some .way0) false false false
    Serves imem T c' ∧ Ready (pc + 4) c' ∧ c'.instr = imem pc := by
  intro c'
  have hal : Aligned pc := by
    apply BitVec.eq_of_toNat_eq
    rw [BitVec.extractLsb'_toNat]
    exact ha
  have h1 : ¬ cacheHitIndex1 pc c := by simp [cacheHitIndex1, Line.hit, h.way1]
  have hready (hc : cacheHitIndex0 pc c') : Ready (pc + 4) c' := by
    by_cases h16 : (pc + 4).toNat % 16 = 0
    · exact .inl ((pcOffset_eq_zero_iff _).mpr h16)
    · obtain ⟨hi, ht⟩ := next_in_block ha h16
      right
      rw [cacheHitIndex0_iff, hi, ht]
      exact cacheHitIndex0_iff.mp hc
  by_cases h0 : cacheHitIndex0 pc c
  · have he : c' =
        { c with instr := select (c.cache (pcIndex pc) .way0).data (pcOffset pc) c.instr } :=
      if_pos h0
    refine ⟨h.of_cache (by rw [he]), hready (by rw [he]; exact h0), ?_⟩
    rw [he]
    change select _ _ _ = _
    rw [h.hit pc hp h0, select_memoryData imem _ _ hal, blockBase_add]
  · have hoff : pcOffset pc = 0 := hr.resolve_right h0
    have he : c' =
        { cache := fill imem' pc c (some .way0)
          instr := select (memoryData imem' pc) (pcOffset pc) c.instr } :=
      (if_neg h0).trans (if_neg h1)
    have hd : memoryData imem' pc = memoryData imem pc := memoryData_congr hm hp hoff
    have hcache : c'.cache = fill imem' pc c (some .way0) := congrArg Icache.cache he
    have hself : cacheHitIndex0 pc c' := by
      rw [cacheHitIndex0_iff, hcache, fill_self]
      exact ⟨rfl, rfl⟩
    refine ⟨⟨fun idx => ?_, fun q hq hc => ?_⟩, hready hself, ?_⟩
    · rw [hcache, fill_way1, h.way1]
    · rw [cacheHitIndex0_iff, hcache] at hc
      rw [hcache]
      by_cases hi : pcIndex pc = pcIndex q
      · rw [← hi, fill_self] at hc ⊢
        rw [blockBase_congr hi.symm hc.1.symm, blockBase_of_offset hoff]
        exact hd
      · rw [fill_of_ne hi] at hc ⊢
        exact h.hit q hq (cacheHitIndex0_iff.mpr hc)
    · rw [he]
      change select _ _ _ = _
      rw [hd, select_memoryData imem _ _ hal, hoff]
      exact congrArg imem (BitVec.add_zero pc)

end Icache

end LinuxCpu.Rv64
