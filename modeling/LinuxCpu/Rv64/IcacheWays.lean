import LinuxCpu.Lib.SetAssoc
import LinuxCpu.Rv64.FetchCorrect

/-! The two ways of a set, in `icache` of `cache-cpu` and of `linux_cpu`. -/

namespace LinuxCpu.Rv64

open SetAssoc

instance : Fintype Way := ⟨{.way0, .way1}, fun way => by cases way <;> decide⟩

/-- The way an index names; a write to any other index is discarded. -/
def Way.ofIndex (randVal : Int) : Option Way :=
  if randVal = 0 then some .way0 else if randVal = 1 then some .way1 else none

def Way.other : Way → Way
  | .way0 => .way1
  | .way1 => .way0

structure IcacheIn extends FetchIn where
  randVal : Int

/-- `linux_cpu` fills way 0. -/
def FetchIn.fixed (i : FetchIn) : IcacheIn := { i with randVal := 0 }

namespace Icache

variable (imem : Word → BitVec 32)

def next (c : Icache) (i : IcacheIn) : Icache :=
  edge imem i.pc c (Way.ofIndex i.randVal) i.rst i.bubble i.stall

def run (c : Icache) (ins : List IcacheIn) : Icache := ins.foldl (next imem) c

theorem run_append (c : Icache) (ins : List IcacheIn) (i : IcacheIn) :
    run imem c (ins ++ [i]) = next imem (run imem c ins) i :=
  List.foldl_append

theorem fetch_edge_icache (s : Fetch) (i : FetchIn) :
    (s.edge imem i).icache = next imem s.icache i.fixed := rfl

def tags (c : Icache) (idx : BitVec 8) (way : Way) : Option (BitVec 52) :=
  if (c.cache idx way).valid then some (c.cache idx way).tag else none

variable {imem} {c : Icache} {idx : BitVec 8} {way : Way} {tag : BitVec 52} {i : IcacheIn}

theorem tags_eq_some_iff : tags c idx way = some tag ↔ (c.cache idx way).hit tag := by
  rw [tags, Line.hit, Bool.and_eq_true, beq_iff_eq]
  cases h : (c.cache idx way).valid <;> simp

theorem tags_ne_none_iff : tags c idx way ≠ none ↔ (c.cache idx way).valid := by
  rw [tags]
  cases h : (c.cache idx way).valid <;> simp

theorem resident_iff {pc : Word} :
    Resident (tags c (pcIndex pc)) (pcTag pc) ↔ cacheHitIndex0 pc c ∨ cacheHitIndex1 pc c := by
  constructor
  · rintro ⟨way, h⟩
    cases way with
    | way0 => exact .inl (tags_eq_some_iff.mp h)
    | way1 => exact .inr (tags_eq_some_iff.mp h)
  · rintro (h | h)
    · exact ⟨.way0, tags_eq_some_iff.mpr h⟩
    · exact ⟨.way1, tags_eq_some_iff.mpr h⟩

theorem tags_congr {c' : Icache} (h : c'.cache = c.cache) : tags c' = tags c := by
  funext idx way
  rw [tags, tags, h]

theorem next_of_not_loads (h : i.loads = false) : (next imem c i).cache = c.cache := by
  rw [next, edge]
  cases hr : i.rst || i.bubble with
  | true => rw [if_pos rfl]
  | false =>
    have hs : i.stall = true := by simpa [FetchIn.loads, Bool.or_eq_false_iff.mp hr] using h
    rw [if_neg Bool.false_ne_true, hs, if_neg (by decide)]

theorem next_of_hit (h : cacheHitIndex0 i.pc c ∨ cacheHitIndex1 i.pc c) :
    (next imem c i).cache = c.cache := by
  cases hl : i.loads with
  | false => exact next_of_not_loads hl
  | true =>
    simp only [FetchIn.loads, Bool.and_eq_true, Bool.not_eq_true'] at hl
    rw [next, edge, hl.1.1, hl.1.2, hl.2, if_neg (by decide), if_pos (by decide)]
    by_cases h0 : cacheHitIndex0 i.pc c
    · rw [if_pos h0]
    · rw [if_neg h0, if_pos (h.resolve_left h0)]

theorem next_of_miss (hl : i.loads) (h : ¬ (cacheHitIndex0 i.pc c ∨ cacheHitIndex1 i.pc c)) :
    (next imem c i).cache = fill imem i.pc c (Way.ofIndex i.randVal) := by
  simp only [FetchIn.loads, Bool.and_eq_true, Bool.not_eq_true'] at hl
  rw [next, edge, hl.1.1, hl.1.2, hl.2, if_neg (by decide), if_pos (by decide),
    if_neg fun h0 => h (.inl h0), if_neg fun h1 => h (.inr h1)]

theorem fill_ne (victim : Option Way) {pc : Word} (h : idx ≠ pcIndex pc) :
    fill imem pc c victim idx = c.cache idx := by
  cases victim with
  | none => rfl
  | some way => exact Function.update_of_ne h ..

theorem fill_ne_way {pc : Word} {victim : Way} (h : way ≠ victim) :
    fill imem pc c (some victim) idx way = c.cache idx way := by
  by_cases hi : idx = pcIndex pc
  · cases hi
    rw [fill, Function.update_self, Function.update_of_ne h]
  · rw [fill_ne _ hi]

theorem tags_fill {pc : Word} (victim : Option Way) {c' : Icache}
    (h : c'.cache = fill imem pc c victim) :
    tags c' (pcIndex pc) = SetAssoc.fill (tags c (pcIndex pc)) (pcTag pc) victim := by
  funext way
  rw [tags, h]
  cases victim with
  | none => rfl
  | some w =>
    rw [SetAssoc.fill]
    by_cases hw : way = w
    · cases hw
      rw [fill, Function.update_self, Function.update_self, Function.update_self, if_pos rfl]
    · rw [fill_ne_way hw, Function.update_of_ne hw, tags]

theorem access_next (hl : i.loads) :
    Access (tags c (pcIndex i.pc)) (pcTag i.pc) (Way.ofIndex i.randVal)
      (tags (next imem c i) (pcIndex i.pc)) := by
  by_cases h : cacheHitIndex0 i.pc c ∨ cacheHitIndex1 i.pc c
  · rw [tags_congr (next_of_hit h)]
    exact .hit (resident_iff.mpr h)
  · rw [tags_fill _ (next_of_miss hl h)]
    exact .miss (mt resident_iff.mp h)

theorem tags_next_ne (h : idx ≠ pcIndex i.pc) : tags (next imem c i) idx = tags c idx := by
  cases hl : i.loads with
  | false => rw [tags_congr (next_of_not_loads hl)]
  | true =>
    by_cases hh : cacheHitIndex0 i.pc c ∨ cacheHitIndex1 i.pc c
    · rw [tags_congr (next_of_hit hh)]
    · funext way
      rw [tags, tags, next_of_miss hl hh, fill_ne _ h]

theorem unique_next (h : ∀ idx, Unique (tags c idx)) (idx : BitVec 8) :
    Unique (tags (next imem c i) idx) := by
  by_cases hi : idx = pcIndex i.pc
  · cases hi
    cases hl : i.loads with
    | false =>
      rw [tags_congr (next_of_not_loads hl)]
      exact h _
    | true => exact (access_next hl).unique (h _)
  · rw [tags_next_ne hi]
    exact h idx

def Invalid (c : Icache) : Prop := ∀ idx way, (c.cache idx way).valid = false

theorem Invalid.tags (h : Invalid c) (idx : BitVec 8) (way : Way) : tags c idx way = none :=
  if_neg (by rw [h]; exact Bool.false_ne_true)

theorem unique_run (hc : Invalid c) (ins : List IcacheIn) (idx : BitVec 8) :
    Unique (tags (run imem c ins) idx) := by
  induction ins using List.reverseRecOn generalizing idx with
  | nil =>
    intro way _ _ h _
    rw [run, List.foldl_nil, hc.tags] at h
    cases h
  | append_singleton ins i ih =>
    rw [run_append]
    exact unique_next ih idx

def edgeTesting (first second : Way) (imem : Word → BitVec 32) (pc : Word) (c : Icache)
    (victim : Option Way) (rst bubble stall : Bool) : Icache :=
  if rst || bubble then { c with instr := 0 }
  else if !stall then
    if (c.cache (pcIndex pc) first).hit (pcTag pc) then
      { c with instr := select (c.cache (pcIndex pc) first).data (pcOffset pc) c.instr }
    else if (c.cache (pcIndex pc) second).hit (pcTag pc) then
      { c with instr := select (c.cache (pcIndex pc) second).data (pcOffset pc) c.instr }
    else
      { cache := fill imem pc c victim
        instr := select (memoryData imem pc) (pcOffset pc) c.instr }
  else c

theorem edgeTesting_order {pc : Word} (h : ¬ (cacheHitIndex0 pc c ∧ cacheHitIndex1 pc c))
    (victim : Option Way) (rst bubble stall : Bool) :
    edgeTesting .way1 .way0 imem pc c victim rst bubble stall =
      edge imem pc c victim rst bubble stall := by
  rw [cacheHitIndex0, cacheHitIndex1] at h
  rw [edgeTesting, edge, cacheHitIndex0, cacheHitIndex1]
  congr 2
  by_cases h0 : (c.cache (pcIndex pc) .way0).hit (pcTag pc) = true
  · rw [if_neg fun h1 => h ⟨h0, h1⟩, if_pos h0, if_pos h0]
  · by_cases h1 : (c.cache (pcIndex pc) .way1).hit (pcTag pc) = true
    · rw [if_pos h1, if_neg h0, if_pos h1]
    · rw [if_neg h1, if_neg h0, if_neg h0, if_neg h1]

structure WaysApart (imem : Word → BitVec 32) (c : Icache) : Prop where
  tags : ∀ idx, ¬ ((c.cache idx .way0).valid ∧ (c.cache idx .way1).valid ∧
    (c.cache idx .way0).tag = (c.cache idx .way1).tag)
  oneHit : ∀ pc, ¬ (cacheHitIndex0 pc c ∧ cacheHitIndex1 pc c)
  order : ∀ i : IcacheIn, edgeTesting .way1 .way0 imem i.pc c (Way.ofIndex i.randVal) i.rst
    i.bubble i.stall = next imem c i
  oneLine : ∀ i : IcacheIn, ∃ way, ∀ idx way', (idx, way') ≠ (pcIndex i.pc, way) →
    (next imem c i).cache idx way' = c.cache idx way'
  kept : ∀ i : IcacheIn,
    i.rst ∨ i.bubble ∨ i.stall ∨ cacheHitIndex0 i.pc c ∨ cacheHitIndex1 i.pc c →
      (next imem c i).cache = c.cache

theorem tags_ne_of_unique (h : Unique (tags c idx)) :
    ¬ ((c.cache idx .way0).valid ∧ (c.cache idx .way1).valid ∧
      (c.cache idx .way0).tag = (c.cache idx .way1).tag) := by
  rintro ⟨h0, h1, ht⟩
  have hways : Way.way0 = Way.way1 := h (if_pos h0) ((if_pos h1).trans (congrArg some ht.symm))
  cases hways

theorem oneHit_of_unique {pc : Word} (h : Unique (tags c (pcIndex pc))) :
    ¬ (cacheHitIndex0 pc c ∧ cacheHitIndex1 pc c) := by
  rintro ⟨h0, h1⟩
  have hways : Way.way0 = Way.way1 := h (tags_eq_some_iff.mpr h0) (tags_eq_some_iff.mpr h1)
  cases hways

theorem exists_line_next (i : IcacheIn) : ∃ way, ∀ idx way', (idx, way') ≠ (pcIndex i.pc, way) →
    (next imem c i).cache idx way' = c.cache idx way' := by
  by_cases h : i.loads = true ∧ ¬ (cacheHitIndex0 i.pc c ∨ cacheHitIndex1 i.pc c)
  · rw [next_of_miss h.1 h.2]
    cases Way.ofIndex i.randVal with
    | none => exact ⟨.way0, fun _ _ _ => rfl⟩
    | some victim =>
      refine ⟨victim, fun idx way' hne => ?_⟩
      by_cases hw : way' = victim
      · rw [fill_ne]
        rintro rfl
        exact hne (hw ▸ rfl)
      · exact fill_ne_way hw
  · refine ⟨.way0, fun idx way' _ => ?_⟩
    cases hl : i.loads with
    | false => rw [next_of_not_loads hl]
    | true => rw [next_of_hit (by_contra fun hh => h ⟨hl, hh⟩)]

/-- The ways stay apart in every run from a cache without valid lines. -/
theorem ways_apart (imem : Word → BitVec 32) (c : Icache) (hc : Invalid c)
    (ins : List IcacheIn) : WaysApart imem (run imem c ins) where
  tags idx := tags_ne_of_unique (unique_run hc ins idx)
  oneHit pc := oneHit_of_unique (unique_run hc ins (pcIndex pc))
  order i := edgeTesting_order (oneHit_of_unique (unique_run hc ins (pcIndex i.pc))) ..
  oneLine := exists_line_next
  kept i h := by
    obtain h | h | h | h := h
    · exact next_of_not_loads (by simp [FetchIn.loads, h])
    · exact next_of_not_loads (by simp [FetchIn.loads, h])
    · exact next_of_not_loads (by simp [FetchIn.loads, h])
    · exact next_of_hit h

def empty : Icache := ⟨fun _ _ => ⟨false, 0, 0⟩, 0⟩

theorem empty_invalid : Invalid empty := fun _ _ => rfl

/-- Tags 0 and 1 fill both ways of set 0, a stall and a hit change nothing, a write to
way -1 is lost, and tag 2 takes the place of tag 0. -/
theorem ways_apart_evicts :
    let c := run (fun _ => 0) empty
      [⟨⟨false, false, false, 0⟩, 0⟩, ⟨⟨false, false, false, 0x1000⟩, 1⟩,
        ⟨⟨false, true, false, 0x3000⟩, 0⟩, ⟨⟨false, false, false, 8⟩, 1⟩,
        ⟨⟨false, false, false, 0x3000⟩, -1⟩, ⟨⟨false, false, false, 0x2000⟩, 0⟩]
    (tags c 0 .way0 = some 2 ∧ tags c 0 .way1 = some 1) ∧ WaysApart (fun _ => 0) c :=
  ⟨by decide, ways_apart _ _ empty_invalid _⟩

end Icache

end LinuxCpu.Rv64
