import LinuxCpu.Rv64.Fetch
import Mathlib.Data.BitVec
import Mathlib.Data.List.Induction

namespace LinuxCpu.Rv64

open Bits

def Aligned (pc : Word) : Prop := pc.extractLsb' 0 2 = 0

/-- The access whose miss read in the line that an access to `pc` uses; the
accesses before it are listed latest first. Another block of the same set
replaces the line. -/
def filledBy : List Word → Word → Word
  | [], pc => pc
  | q :: hist, pc =>
    if pcIndex q = pcIndex pc then if pcTag q = pcTag pc then filledBy hist q else pc
    else filledBy hist pc

namespace FetchIn

def loads (i : FetchIn) : Bool := !i.rst && !i.bubble && !i.stall

def accesses (ins : List FetchIn) : List Word := ((ins.filter loads).map pc).reverse

theorem accesses_append (ins : List FetchIn) (i : FetchIn) :
    accesses (ins ++ [i]) = if i.loads then i.pc :: accesses ins else accesses ins := by
  rw [accesses, List.filter_append]
  cases h : i.loads <;> simp [accesses, h]

end FetchIn

namespace Icache

variable (imem : Word → BitVec 32)

theorem extractLsb'_four (x3 x2 x1 x0 : BitVec 32) :
    (x3 ++ x2 ++ x1 ++ x0).extractLsb' 0 32 = x0 ∧
    (x3 ++ x2 ++ x1 ++ x0).extractLsb' 32 32 = x1 ∧
    (x3 ++ x2 ++ x1 ++ x0).extractLsb' 64 32 = x2 ∧
    (x3 ++ x2 ++ x1 ++ x0).extractLsb' 96 32 = x3 := by
  refine ⟨?_, ?_, ?_, ?_⟩ <;> apply BitVec.eq_of_toNat_eq <;>
    simp only [BitVec.extractLsb'_toNat, Nat.shiftRight_eq_div_pow, toNat_append_add] <;> omega

theorem pcOffset_of_aligned {pc : Word} (h : Aligned pc) :
    pcOffset pc = 0 ∨ pcOffset pc = 4 ∨ pcOffset pc = 8 ∨ pcOffset pc = 12 := by
  have hd : ∀ o : BitVec 4, o.extractLsb' 0 2 = 0 → o = 0 ∨ o = 4 ∨ o = 8 ∨ o = 12 := by decide
  exact hd _ ((extractLsb'_extractLsb' pc (by decide)).trans h)

theorem select_memoryData (p pc : Word) (ha : Aligned pc) (old : BitVec 32) :
    select (memoryData imem p) (pcOffset pc) old = imem (p + (pcOffset pc).setWidth 64) := by
  obtain ⟨h0, h1, h2, h3⟩ := extractLsb'_four (imem (p + 12)) (imem (p + 8)) (imem (p + 4)) (imem p)
  obtain h | h | h | h := pcOffset_of_aligned ha <;> rw [h]
  · exact h0.trans (congrArg imem (BitVec.add_zero p).symm)
  · exact h1
  · exact h2
  · exact h3

/-- The cache after the accesses `hist`: way 1 stays invalid, and way 0 holds
what the access that filled the line read. -/
structure Holds (hist : List Word) (c : Icache) : Prop where
  way1 : ∀ idx, (c.cache idx .way1).valid = false
  hit : ∀ pc, cacheHitIndex0 pc c →
    (c.cache (pcIndex pc) .way0).data = memoryData imem (filledBy hist pc)
  miss : ∀ pc, ¬ cacheHitIndex0 pc c → filledBy hist pc = pc

theorem Holds.empty {c : Icache} (h : ∀ idx way, (c.cache idx way).valid = false) :
    Holds imem [] c where
  way1 idx := h idx .way1
  hit pc hc := by simp [cacheHitIndex0, Line.hit, h] at hc
  miss _ _ := rfl

section Fill

variable {imem} {pc : Word} {c : Icache}

theorem fill_self : fill imem pc c (some .way0) (pcIndex pc) .way0 =
    ⟨true, pcTag pc, memoryData imem pc⟩ := by
  simp [fill]

theorem fill_way1 (idx : BitVec 8) : fill imem pc c (some .way0) idx .way1 = c.cache idx .way1 := by
  by_cases h : idx = pcIndex pc
  · simp [fill, h]
  · simp [fill, h]

theorem fill_of_ne {idx : BitVec 8} (h : pcIndex pc ≠ idx) :
    fill imem pc c (some .way0) idx = c.cache idx :=
  Function.update_of_ne h.symm ..

end Fill

theorem cacheHitIndex0_iff {pc : Word} {c : Icache} : cacheHitIndex0 pc c ↔
    (c.cache (pcIndex pc) .way0).tag = pcTag pc ∧ (c.cache (pcIndex pc) .way0).valid := by
  rw [cacheHitIndex0, Line.hit, Bool.and_eq_true, beq_iff_eq]

variable {imem} {hist : List Word} {c : Icache}

theorem Holds.of_cache (h : Holds imem hist c) {c' : Icache} (hc : c'.cache = c.cache) :
    Holds imem hist c' where
  way1 idx := by rw [hc, h.way1]
  hit pc hp := by
    rw [cacheHitIndex0_iff, hc] at hp
    rw [hc, h.hit pc (cacheHitIndex0_iff.mpr hp)]
  miss pc hp := by
    rw [cacheHitIndex0_iff, hc] at hp
    exact h.miss pc (mt cacheHitIndex0_iff.mp hp)

theorem Holds.of_hit (h : Holds imem hist c) {pc : Word} (h0 : cacheHitIndex0 pc c) :
    Holds imem (pc :: hist) c where
  way1 := h.way1
  hit q hq := by
    rw [filledBy]
    split
    · next hi =>
      have ht := (cacheHitIndex0_iff.mp h0).1
      rw [hi, (cacheHitIndex0_iff.mp hq).1] at ht
      rw [if_pos ht.symm, ← h.hit pc h0, hi]
    · exact h.hit q hq
  miss q hq := by
    rw [filledBy]
    split
    · next hi =>
      rw [if_neg]
      intro ht
      have hh := cacheHitIndex0_iff.mp h0
      rw [hi, ht] at hh
      exact hq (cacheHitIndex0_iff.mpr hh)
    · exact h.miss q hq

theorem Holds.of_miss (h : Holds imem hist c) {pc : Word} (h0 : ¬ cacheHitIndex0 pc c)
    {c' : Icache} (hc : c'.cache = fill imem pc c (some .way0)) :
    Holds imem (pc :: hist) c' where
  way1 idx := by rw [hc, fill_way1, h.way1]
  hit q hq := by
    rw [cacheHitIndex0_iff, hc] at hq
    rw [filledBy, hc]
    split
    · next hi =>
      rw [← hi, fill_self] at hq ⊢
      rw [if_pos hq.1, h.miss pc h0]
    · next hi =>
      rw [fill_of_ne hi] at hq ⊢
      exact h.hit q (cacheHitIndex0_iff.mpr hq)
  miss q hq := by
    rw [cacheHitIndex0_iff, hc] at hq
    rw [filledBy]
    split
    · next hi =>
      rw [← hi, fill_self] at hq
      exact if_neg fun ht => hq ⟨ht, rfl⟩
    · next hi =>
      rw [fill_of_ne hi] at hq
      exact h.miss q (mt cacheHitIndex0_iff.mp hq)

theorem Holds.load (h : Holds imem hist c) (pc : Word) (ha : Aligned pc) :
    Holds imem (pc :: hist) (edge imem pc c (some .way0) false false false) ∧
      (edge imem pc c (some .way0) false false false).instr =
        imem (filledBy hist pc + (pcOffset pc).setWidth 64) := by
  have h1 : ¬ cacheHitIndex1 pc c := by simp [cacheHitIndex1, Line.hit, h.way1]
  by_cases h0 : cacheHitIndex0 pc c
  · have he : edge imem pc c (some .way0) false false false =
        { c with instr := select (c.cache (pcIndex pc) .way0).data (pcOffset pc) c.instr } :=
      if_pos h0
    rw [he, h.hit pc h0, select_memoryData imem _ _ ha]
    exact ⟨(h.of_hit h0).of_cache rfl, rfl⟩
  · have he : edge imem pc c (some .way0) false false false =
        { cache := fill imem pc c (some .way0)
          instr := select (memoryData imem pc) (pcOffset pc) c.instr } :=
      (if_neg h0).trans (if_neg h1)
    rw [he, select_memoryData imem _ _ ha, h.miss pc h0]
    exact ⟨h.of_miss h0 rfl, rfl⟩

end Icache

namespace Fetch

variable (imem : Word → BitVec 32)

theorem run_append (s : Fetch) (xs ys : List FetchIn) :
    run imem s (xs ++ ys) = run imem (run imem s xs) ys := by
  induction xs generalizing s with
  | nil => rfl
  | cons i xs ih => exact ih _

def Transparent (s : Fetch) : Prop := s.out.commitInfo.commit → s.out.instr = imem s.out.pc

theorem edge_loads {s : Fetch} {i : FetchIn} (h : i.loads) :
    s.edge imem i =
      ⟨⟨i.pc, true⟩, Icache.edge imem i.pc s.icache (some .way0) false false false⟩ := by
  simp only [FetchIn.loads, Bool.and_eq_true, Bool.not_eq_true'] at h
  simp [edge, RegFetch.edge, h]

theorem edge_of_not_loads {s : Fetch} {i : FetchIn} (h : ¬ i.loads) :
    (s.edge imem i).icache.cache = s.icache.cache ∧
      (Transparent imem s → Transparent imem (s.edge imem i)) := by
  by_cases hr : i.rst || i.bubble
  · have he : s.edge imem i = ⟨⟨0, false⟩, { s.icache with instr := 0 }⟩ := by
      rw [edge, RegFetch.edge, Icache.edge, if_pos hr, if_pos hr]
    rw [he]
    refine ⟨rfl, fun _ hc => ?_⟩
    cases hc
  · have hs : ¬ (!i.stall) := by
      intro hs
      simp only [Bool.or_eq_true, not_or, Bool.not_eq_true] at hr
      exact h (by rw [FetchIn.loads, hr.1, hr.2, hs]; rfl)
    have he : s.edge imem i = s := by
      rw [edge, RegFetch.edge, Icache.edge, if_neg hr, if_neg hr, if_neg hs, if_neg hs]
    rw [he]
    exact ⟨rfl, id⟩

/-- The cache after any cycles holds what their accesses filled in. -/
theorem run_holds {s : Fetch} (hs : Icache.Holds imem [] s.icache) (ins : List FetchIn)
    (ha : ∀ i ∈ ins, Aligned i.pc) :
    Icache.Holds imem (FetchIn.accesses ins) (run imem s ins).icache := by
  induction ins using List.reverseRecOn with
  | nil => exact hs
  | append_singleton ins i ih =>
    have ih := ih fun j hj => ha j (List.mem_append_left _ hj)
    rw [run_append, FetchIn.accesses_append]
    change Icache.Holds imem _ (edge imem (run imem s ins) i).icache
    split
    · next hl =>
      rw [edge_loads imem hl]
      exact (ih.load i.pc (ha i (List.mem_append_right _ (List.mem_singleton_self i)))).1
    · next hl => exact ih.of_cache (edge_of_not_loads imem hl).1

theorem transparent_loads {s : Fetch} {hist : List Word} (h : Icache.Holds imem hist s.icache)
    {i : FetchIn} (hl : i.loads) (ha : Aligned i.pc) :
    Transparent imem (s.edge imem i) ↔
      imem (filledBy hist i.pc + (pcOffset i.pc).setWidth 64) = imem i.pc := by
  rw [edge_loads imem hl, ← (h.load i.pc ha).2]
  exact ⟨fun ht => ht rfl, fun ht _ => ht⟩

/-- Fetch is transparent throughout exactly when every access finds the word
it names at its offset from the access that filled its line. -/
theorem transparent_iff (s : Fetch) (hs : ∀ idx way, (s.icache.cache idx way).valid = false)
    (reset : FetchIn) (hr : reset.rst = true) (ins : List FetchIn)
    (ha : ∀ i ∈ ins, Aligned i.pc) :
    (∀ ins₁ ins₂, ins = ins₁ ++ ins₂ → Transparent imem (run imem s (reset :: ins₁))) ↔
    (∀ ins₁ i ins₂, ins = ins₁ ++ i :: ins₂ → i.loads →
      imem (filledBy (FetchIn.accesses ins₁) i.pc + (pcOffset i.pc).setWidth 64) = imem i.pc) := by
  have hl : ¬ reset.loads := by simp [FetchIn.loads, hr]
  have h0 : Icache.Holds imem [] (s.edge imem reset).icache :=
    (Icache.Holds.empty imem hs).of_cache (edge_of_not_loads imem hl).1
  have ht : Transparent imem (s.edge imem reset) := by
    intro hc
    simp [edge, out, RegFetch.edge, hr, RegFetch.out] at hc
  change (∀ ins₁ ins₂, _ → Transparent imem (run imem (s.edge imem reset) ins₁)) ↔ _
  constructor
  · intro h ins₁ i ins₂ he hi
    subst he
    have hh := run_holds imem h0 ins₁ fun j hj => ha j (List.mem_append_left _ hj)
    rw [← transparent_loads imem hh hi (ha i (by simp))]
    have hr := h (ins₁ ++ [i]) ins₂ (by simp)
    rwa [run_append] at hr
  · intro h ins₁
    induction ins₁ using List.reverseRecOn with
    | nil => exact fun _ _ => ht
    | append_singleton ins₁ i ih =>
      intro ins₂ he
      have he' : ins = ins₁ ++ i :: ins₂ := by simpa using he
      have hp := ih (i :: ins₂) he'
      rw [run_append]
      change Transparent imem (edge imem _ i)
      by_cases hi : i.loads
      · have hh := run_holds imem h0 ins₁ fun j hj => ha j (by rw [he']; simp [hj])
        rw [transparent_loads imem hh hi (ha i (by rw [he']; simp))]
        exact h ins₁ i ins₂ he' hi
      · exact (edge_of_not_loads imem hi).2 hp

def cold : Fetch := ⟨⟨0, false⟩, ⟨fun _ _ => ⟨false, 0, 0⟩, 0⟩⟩

/-- A fill, a hit, the eviction of the line, and a fill in the middle of its block. -/
def visits : List FetchIn :=
  [⟨false, false, false, 0x80000000⟩, ⟨false, false, false, 0x80000004⟩,
    ⟨false, false, false, 0x80001000⟩, ⟨false, false, false, 0x80000008⟩]

theorem transparent_iff_visits :
    (∀ ins₁ ins₂, visits = ins₁ ++ ins₂ → Transparent (BitVec.setWidth 32)
      (run (BitVec.setWidth 32) cold (⟨true, false, false, 0⟩ :: ins₁))) ↔
    (∀ ins₁ i ins₂, visits = ins₁ ++ i :: ins₂ → i.loads →
      (filledBy (FetchIn.accesses ins₁) i.pc + (pcOffset i.pc).setWidth 64).setWidth 32 =
        i.pc.setWidth 32) :=
  transparent_iff (BitVec.setWidth 32) cold (fun _ _ => rfl) ⟨true, false, false, 0⟩ rfl
    visits (by simp [visits, Aligned])

/-- A miss in the middle of a block: the word at `0x80000008` for the one at
`0x80000004`. -/
theorem not_transparent_mid_block :
    Aligned 0x80000004 ∧
    ¬ Transparent (BitVec.setWidth 32) (run (BitVec.setWidth 32) cold
      [⟨true, false, false, 0⟩, ⟨false, false, false, 0x80000004⟩]) := by
  refine ⟨rfl, fun h => ?_⟩
  exact absurd (h rfl) (by decide)

end Fetch

end LinuxCpu.Rv64
