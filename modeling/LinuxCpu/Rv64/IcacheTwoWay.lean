import LinuxCpu.Rv64.IcacheWays
import Mathlib.Data.List.Infix

namespace LinuxCpu.Rv64

open SetAssoc

namespace IcacheIn

def accesses (ins : List IcacheIn) : List Word := FetchIn.accesses (ins.map toFetchIn)

def gives (i : IcacheIn) : Bool := i.loads && (Way.ofIndex i.randVal).isSome

/-- The tags of a set that were given a way. -/
def given (ins : List IcacheIn) (idx : BitVec 8) : Finset (BitVec 52) :=
  ((ins.filter fun i => i.gives && pcIndex i.pc == idx).map fun i => pcTag i.pc).toFinset

def firstGiven (ins : List IcacheIn) (idx : BitVec 8) : Option IcacheIn :=
  ins.find? fun i => i.gives && pcIndex i.pc == idx

variable {ins : List IcacheIn} {i j : IcacheIn} {idx : BitVec 8} {t : BitVec 52} {pc : Word}

theorem mem_accesses : pc ∈ accesses ins ↔ ∃ j ∈ ins, j.loads ∧ j.pc = pc := by
  simp [accesses, FetchIn.accesses, and_assoc]

theorem accesses_fixed (fins : List FetchIn) :
    accesses (fins.map FetchIn.fixed) = FetchIn.accesses fins := by
  rw [accesses, List.map_map]
  exact congrArg FetchIn.accesses (List.map_id fins)

theorem mem_given :
    t ∈ given ins idx ↔ ∃ j ∈ ins, j.gives ∧ pcIndex j.pc = idx ∧ pcTag j.pc = t := by
  simp [given, and_assoc]

theorem given_append (hl : i.loads) : given (ins ++ [i]) (pcIndex i.pc) =
    if (Way.ofIndex i.randVal).isSome then insert (pcTag i.pc) (given ins (pcIndex i.pc))
    else given ins (pcIndex i.pc) := by
  have hg : i.gives = (Way.ofIndex i.randVal).isSome := by rw [gives, hl, Bool.true_and]
  rw [given, List.filter_append, List.map_append, List.toFinset_append]
  cases h : (Way.ofIndex i.randVal).isSome with
  | false => simp [hg, h, given]
  | true => simp [hg, h, given, Finset.union_comm]

theorem not_gives_at (h : i.loads = false ∨ idx ≠ pcIndex i.pc) :
    (i.gives && pcIndex i.pc == idx) = false := by
  obtain h | h := h
  · simp [gives, h]
  · simp [h.symm]

theorem given_append_of_not (h : i.loads = false ∨ idx ≠ pcIndex i.pc) :
    given (ins ++ [i]) idx = given ins idx := by
  rw [given, List.filter_append, List.filter_singleton, not_gives_at h]
  simp [given]

theorem mem_of_firstGiven (h : firstGiven ins idx = some j) :
    j.gives ∧ pcIndex j.pc = idx ∧ pcTag j.pc ∈ given ins idx := by
  have hj := List.find?_some h
  rw [Bool.and_eq_true, beq_iff_eq] at hj
  exact ⟨hj.1, hj.2, mem_given.mpr ⟨j, List.mem_of_find?_eq_some h, hj.1, hj.2, rfl⟩⟩

theorem exists_way_of_firstGiven (h : firstGiven ins idx = some j) :
    ∃ way, Way.ofIndex j.randVal = some way :=
  Option.isSome_iff_exists.mp (Bool.and_eq_true_iff.mp (mem_of_firstGiven h).1).2

theorem exists_firstGiven (h : t ∈ given ins idx) : ∃ j, firstGiven ins idx = some j := by
  obtain ⟨j, hj, hg, hidx, -⟩ := mem_given.mp h
  apply Option.isSome_iff_exists.mp
  apply List.find?_isSome.mpr
  exact ⟨j, hj, by rw [hg, hidx, beq_self_eq_true]; rfl⟩

theorem firstGiven_append : firstGiven (ins ++ [i]) idx =
    (firstGiven ins idx).or (if i.gives && pcIndex i.pc == idx then some i else none) := by
  rw [firstGiven, List.find?_append, List.find?_singleton]
  rfl

theorem firstGiven_append_of_not (h : i.loads = false ∨ idx ≠ pcIndex i.pc) :
    firstGiven (ins ++ [i]) idx = firstGiven ins idx := by
  rw [firstGiven_append, not_gives_at h, if_neg Bool.false_ne_true, Option.or_none]

end IcacheIn

namespace Icache

open IcacheIn

def Hit (c : Icache) (pc : Word) : Prop := cacheHitIndex0 pc c ∨ cacheHitIndex1 pc c

instance (c : Icache) (pc : Word) : Decidable (Hit c pc) := inferInstanceAs (Decidable (_ ∨ _))

/-- The set of `i` has been accessed with two tags and with no third, `i` included. -/
def SeesTwo (pre : List IcacheIn) (i : IcacheIn) : Prop :=
  ∃ p ∈ accesses pre, ∃ q ∈ accesses pre,
    pcIndex p = pcIndex i.pc ∧ pcIndex q = pcIndex i.pc ∧ pcTag p ≠ pcTag q ∧
      ∀ r ∈ i.pc :: accesses pre, pcIndex r = pcIndex i.pc →
        pcTag r = pcTag p ∨ pcTag r = pcTag q

/-- A two-way cache: a miss leaves a valid line alone as long as the other way is
invalid, and of two tags of a set alone both stay. -/
structure TwoWay (imem : Word → BitVec 32) (c : Icache) (ins : List IcacheIn) : Prop where
  keeps : ∀ pre i, pre ++ [i] <+: ins → i.loads → ¬ Hit (run imem c pre) i.pc → ∀ way,
    ((run imem c pre).cache (pcIndex i.pc) way).valid →
      ¬ ((run imem c pre).cache (pcIndex i.pc) way.other).valid →
        (run imem c (pre ++ [i])).cache (pcIndex i.pc) way =
          (run imem c pre).cache (pcIndex i.pc) way
  hits : ∀ pre i, pre ++ [i] <+: ins → i.loads → SeesTwo pre i → Hit (run imem c pre) i.pc

def FrugalRun (imem : Word → BitVec 32) (c : Icache) (ins : List IcacheIn) : Prop :=
  ∀ pre i, pre ++ [i] <+: ins → i.loads → ¬ Hit (run imem c pre) i.pc →
    ∀ way, Way.ofIndex i.randVal = some way →
      ((run imem c pre).cache (pcIndex i.pc) way).valid →
        ((run imem c pre).cache (pcIndex i.pc) way.other).valid

/-- As long as a set was given a way for one tag only, no access with another tag
names that way. -/
def SparesRun (ins : List IcacheIn) : Prop :=
  ∀ pre i, pre ++ [i] <+: ins → i.loads → ∀ j ∈ firstGiven pre (pcIndex i.pc),
    given pre (pcIndex i.pc) = {pcTag j.pc} → pcTag i.pc ≠ pcTag j.pc →
      Way.ofIndex i.randVal ≠ Way.ofIndex j.randVal

/-- Where a set sees two tags, each was given a way before. -/
def GivenRun (ins : List IcacheIn) : Prop :=
  ∀ pre i, pre ++ [i] <+: ins → i.loads → SeesTwo pre i →
    ∃ j ∈ pre, j.gives ∧ pcIndex j.pc = pcIndex i.pc ∧ pcTag j.pc = pcTag i.pc

variable {imem : Word → BitVec 32} {c : Icache} {ins pre : List IcacheIn} {i : IcacheIn}

theorem FrugalRun.init (h : FrugalRun imem c ins) (hp : pre <+: ins) : FrugalRun imem c pre :=
  fun pre' i hp' => h pre' i (hp'.trans hp)

theorem FrugalRun.concat (h : FrugalRun imem c ins)
    (hi : i.loads → ¬ Hit (run imem c ins) i.pc → ∀ way, Way.ofIndex i.randVal = some way →
      ((run imem c ins).cache (pcIndex i.pc) way).valid →
        ((run imem c ins).cache (pcIndex i.pc) way.other).valid) :
    FrugalRun imem c (ins ++ [i]) := by
  intro pre j hp
  obtain he | hp := List.prefix_concat_iff.mp hp
  · obtain ⟨hpre, hj⟩ := List.append_inj' he rfl
    cases hpre
    cases List.singleton_injective hj
    exact hi
  · exact h pre j hp

theorem FrugalRun.last (h : FrugalRun imem c (ins ++ [i])) (hl : i.loads)
    (hh : ¬ Hit (run imem c ins) i.pc) :
    Frugal (tags (run imem c ins) (pcIndex i.pc)) (Way.ofIndex i.randVal) := by
  intro way hv hw way'
  have hother := h ins i (List.prefix_refl _) hl hh way hv (tags_ne_none_iff.mp hw)
  cases way <;> cases way'
  · exact hw
  · exact tags_ne_none_iff.mpr hother
  · exact tags_ne_none_iff.mpr hother
  · exact hw

theorem serves_run (hc : Invalid c) (h : FrugalRun imem c ins) (idx : BitVec 8) :
    Serves (tags (run imem c ins) idx) (given ins idx) := by
  induction ins using List.reverseRecOn generalizing idx with
  | nil => exact Serves.empty (hc.tags idx)
  | append_singleton ins i ih =>
    have ih := ih (h.init (List.prefix_append ..))
    rw [run_append]
    by_cases hi : idx = pcIndex i.pc
    · cases hi
      cases hl : i.loads with
      | false =>
        rw [tags_congr (next_of_not_loads hl), given_append_of_not (.inl hl)]
        exact ih _
      | true =>
        rw [given_append hl]
        exact (ih _).access (access_next hl) fun hres => h.last hl (mt resident_iff.mpr hres)
    · rw [tags_next_ne hi, given_append_of_not (.inr hi)]
      exact ih idx

theorem tags_next_first {way : Way} (hl : i.loads)
    (hserves : Serves (tags c (pcIndex i.pc)) (given ins (pcIndex i.pc)))
    (hf : firstGiven ins (pcIndex i.pc) = none) (hw : Way.ofIndex i.randVal = some way) :
    tags (next imem c i) (pcIndex i.pc) way = some (pcTag i.pc) := by
  have haccess : Access (tags c (pcIndex i.pc)) (pcTag i.pc) (Way.ofIndex i.randVal)
      (tags (next imem c i) (pcIndex i.pc)) := access_next hl
  generalize tags (next imem c i) (pcIndex i.pc) = s' at haccess ⊢
  cases haccess with
  | hit hres =>
    obtain ⟨w, hres⟩ := hres
    obtain ⟨j, hj⟩ := exists_firstGiven (hserves.given w _ hres)
    cases hf.symm.trans hj
  | miss _ =>
    rw [hw, SetAssoc.fill]
    exact Function.update_self ..

theorem tags_next_given {way : Way} {t : BitVec 52} (hl : i.loads)
    (hway : tags c (pcIndex i.pc) way = some t)
    (hd : given (ins ++ [i]) (pcIndex i.pc) ⊆ {t}) :
    tags (next imem c i) (pcIndex i.pc) way = some t := by
  have haccess : Access (tags c (pcIndex i.pc)) (pcTag i.pc) (Way.ofIndex i.randVal)
      (tags (next imem c i) (pcIndex i.pc)) := access_next hl
  generalize tags (next imem c i) (pcIndex i.pc) = s' at haccess ⊢
  cases haccess with
  | hit _ => exact hway
  | miss hres =>
    rw [given_append hl] at hd
    cases hv : Way.ofIndex i.randVal with
    | none => exact hway
    | some w =>
      rw [hv] at hd
      have ht : pcTag i.pc = t := Finset.mem_singleton.mp (hd (Finset.mem_insert_self ..))
      exact absurd ⟨way, hway.trans (congrArg some ht.symm)⟩ hres

/-- What the way that was given first holds as long as its tag is the only one. -/
theorem first_run (hc : Invalid c) (h : FrugalRun imem c ins) {j : IcacheIn} {idx : BitVec 8}
    {way : Way} (hj : firstGiven ins idx = some j) (hd : given ins idx = {pcTag j.pc})
    (hw : Way.ofIndex j.randVal = some way) :
    tags (run imem c ins) idx way = some (pcTag j.pc) := by
  induction ins using List.reverseRecOn with
  | nil => cases hj
  | append_singleton ins i ih =>
    have hpre := h.init (List.prefix_append ..)
    rw [run_append]
    by_cases hi : i.loads = false ∨ idx ≠ pcIndex i.pc
    · rw [firstGiven_append_of_not hi] at hj
      rw [given_append_of_not hi] at hd
      have hkept : tags (next imem (run imem c ins) i) idx = tags (run imem c ins) idx := by
        obtain hl | hi := hi
        · rw [tags_congr (next_of_not_loads hl)]
        · exact tags_next_ne hi
      rw [hkept]
      exact ih hpre hj hd
    · obtain ⟨hl, rfl⟩ : i.loads = true ∧ idx = pcIndex i.pc := by simpa using hi
      rw [firstGiven_append] at hj
      cases hf : firstGiven ins (pcIndex i.pc) with
      | none =>
        rw [hf, Option.none_or] at hj
        cases (Option.ite_none_right_eq_some.mp hj).2
        exact tags_next_first hl (serves_run hc hpre _) hf hw
      | some j' =>
        rw [hf, Option.some_or] at hj
        cases hj
        refine tags_next_given hl (ih hpre hf ?_) hd.subset
        have hsub : given ins (pcIndex i.pc) ⊆ {pcTag j.pc} := fun t ht => by
          obtain ⟨k, hk, hkt⟩ := mem_given.mp ht
          exact hd ▸ mem_given.mpr ⟨k, List.mem_append_left _ hk, hkt⟩
        exact (Finset.subset_singleton_iff.mp hsub).resolve_left
          (Finset.ne_empty_of_mem (mem_of_firstGiven hf).2.2)

/-- A tag alone in its set lies in the way given first. -/
theorem exists_first_of_card (hc : Invalid c) (h : FrugalRun imem c ins) {idx : BitVec 8}
    {way : Way} {t : BitVec 52} (ht : tags (run imem c ins) idx way = some t)
    (hcard : (given ins idx).card ≤ 1) :
    ∃ j ∈ firstGiven ins idx, given ins idx = {pcTag j.pc} ∧ pcTag j.pc = t ∧
      Way.ofIndex j.randVal = some way := by
  have hserves : Serves (tags (run imem c ins) idx) (given ins idx) := serves_run hc h _
  have hmem := hserves.given way t ht
  obtain ⟨j, hj⟩ := exists_firstGiven hmem
  have hjt : pcTag j.pc = t := Finset.card_le_one.mp hcard _ (mem_of_firstGiven hj).2.2 _ hmem
  have hd : given ins idx = {pcTag j.pc} := Finset.eq_singleton_iff_unique_mem.mpr
    ⟨hjt ▸ hmem, fun u hu => Finset.card_le_one.mp hcard u hu _ (hjt ▸ hmem)⟩
  obtain ⟨first, hf⟩ := exists_way_of_firstGiven hj
  have hfirst : tags (run imem c ins) idx first = some (pcTag j.pc) := first_run hc h hj hd hf
  have hsame : way = first := hserves.unique ht (hfirst.trans (congrArg some hjt))
  exact ⟨j, hj, hd, hjt, hsame ▸ hf⟩

/-- On a frugal run a miss is frugal exactly if it spares the way given first while
the set has one tag. -/
theorem frugal_iff_spares (hc : Invalid c) (h : FrugalRun imem c pre) :
    (¬ Hit (run imem c pre) i.pc → Frugal (tags (run imem c pre) (pcIndex i.pc))
      (Way.ofIndex i.randVal)) ↔
    ∀ j ∈ firstGiven pre (pcIndex i.pc), given pre (pcIndex i.pc) = {pcTag j.pc} →
      pcTag i.pc ≠ pcTag j.pc → Way.ofIndex i.randVal ≠ Way.ofIndex j.randVal := by
  have hserves : Serves (tags (run imem c pre) (pcIndex i.pc)) (given pre (pcIndex i.pc)) :=
    serves_run hc h _
  constructor
  · intro hfrugal j hj hd hne he
    obtain ⟨way, hw⟩ := exists_way_of_firstGiven hj
    have hway : tags (run imem c pre) (pcIndex i.pc) way = some (pcTag j.pc) :=
      first_run hc h hj hd hw
    have honly : ∀ {w t}, tags (run imem c pre) (pcIndex i.pc) w = some t → t = pcTag j.pc :=
      fun hw => Finset.mem_singleton.mp (hd ▸ hserves.given _ _ hw)
    have hmiss : ¬ Hit (run imem c pre) i.pc := fun hh => by
      obtain ⟨w, hw⟩ := resident_iff.mpr hh
      exact hne (honly hw)
    have hother := hfrugal hmiss way (he.trans hw) (hway ▸ Option.some_ne_none _) way.other
    obtain ⟨t, ht⟩ := Option.ne_none_iff_exists'.mp hother
    have hsame := hserves.unique hway (ht.trans (congrArg some (honly ht)))
    cases way <;> cases hsame
  · intro hspares hmiss way hv hway
    obtain ⟨t, ht⟩ := Option.ne_none_iff_exists'.mp hway
    by_cases hcard : Fintype.card Way ≤ (given pre (pcIndex i.pc)).card
    · exact hserves.full hcard
    · have hone : (given pre (pcIndex i.pc)).card ≤ 1 :=
        Nat.le_of_lt_succ (Nat.lt_of_not_le hcard)
      obtain ⟨j, hj, hd, hjt, hf⟩ := exists_first_of_card hc h ht hone
      have hne : pcTag i.pc ≠ pcTag j.pc := fun he =>
        hmiss (resident_iff.mp ⟨way, ht.trans (congrArg some (he.trans hjt).symm)⟩)
      exact absurd (hv.trans hf.symm) (hspares j hj hd hne)

theorem frugalRun_iff (hc : Invalid c) : FrugalRun imem c ins ↔ SparesRun ins := by
  constructor
  · intro h pre i hp hl
    have hpre := h.init ((List.prefix_append ..).trans hp)
    exact (frugal_iff_spares hc hpre).mp fun hh => (h.init hp).last hl hh
  · intro h
    induction ins using List.reverseRecOn with
    | nil =>
      intro pre i hp
      simp at hp
    | append_singleton ins i ih =>
      have hpre := ih fun pre i hp => h pre i (hp.trans (List.prefix_append ..))
      apply hpre.concat
      intro hl hh way hv hway
      have hfrugal := (frugal_iff_spares hc hpre).mpr (h ins i (List.prefix_refl _) hl) hh
      exact tags_ne_none_iff.mp (hfrugal way hv (tags_ne_none_iff.mpr hway) way.other)

theorem SeesTwo.card_given (h : SeesTwo pre i) :
    (given pre (pcIndex i.pc)).card ≤ Fintype.card Way := by
  obtain ⟨p, -, q, -, -, -, -, hall⟩ := h
  have hsub : given pre (pcIndex i.pc) ⊆ {pcTag p, pcTag q} := by
    intro t ht
    obtain ⟨j, hj, hg, hidx, rfl⟩ := mem_given.mp ht
    have hl : j.loads = true := (Bool.and_eq_true_iff.mp hg).1
    have htag := hall j.pc (.tail _ (mem_accesses.mpr ⟨j, hj, hl, rfl⟩)) hidx
    simpa using htag
  exact (Finset.card_le_card hsub).trans Finset.card_le_two

theorem fill_way_ne {way : Way} {pc : Word} (hh : ¬ Hit c pc)
    (hv : (c.cache (pcIndex pc) way).valid) :
    fill imem pc c (some way) (pcIndex pc) way ≠ c.cache (pcIndex pc) way := by
  intro he
  rw [fill, Function.update_self, Function.update_self] at he
  apply hh
  apply resident_iff.mp
  refine ⟨way, (if_pos hv).trans ?_⟩
  rw [← he]

theorem twoWay_iff (hc : Invalid c) :
    TwoWay imem c ins ↔ FrugalRun imem c ins ∧ GivenRun ins := by
  constructor
  · intro h
    have hfrugal : FrugalRun imem c ins := by
      intro pre i hp hl hh way hv hway
      by_contra hother
      have heq := h.keeps pre i hp hl hh way hway hother
      rw [run_append, next_of_miss hl hh, hv] at heq
      exact fill_way_ne hh hway heq
    refine ⟨hfrugal, fun pre i hp hl hs => ?_⟩
    have hserves := serves_run hc (hfrugal.init ((List.prefix_append ..).trans hp)) (pcIndex i.pc)
    obtain ⟨way, hway⟩ := resident_iff.mpr (h.hits pre i hp hl hs)
    exact mem_given.mp (hserves.given way _ hway)
  · rintro ⟨hfrugal, hgiven⟩
    constructor
    · intro pre i hp hl hh way hway hother
      rw [run_append, next_of_miss hl hh]
      cases hv : Way.ofIndex i.randVal with
      | none => rfl
      | some victim =>
        apply fill_ne_way
        rintro rfl
        exact hother (hfrugal pre i hp hl hh way hv hway)
    · intro pre i hp hl hs
      have hserves := serves_run hc (hfrugal.init ((List.prefix_append ..).trans hp)) (pcIndex i.pc)
      apply resident_iff.mp
      exact hserves.resident hs.card_given _ (mem_given.mpr (hgiven pre i hp hl hs))

section Fixed

variable {fins : List FetchIn}

theorem fixed_append (fins : List FetchIn) (i : FetchIn) :
    (fins ++ [i]).map FetchIn.fixed = fins.map FetchIn.fixed ++ [i.fixed] := List.map_append

def OneTag (fins : List FetchIn) : Prop :=
  ∀ p ∈ FetchIn.accesses fins, ∀ q ∈ FetchIn.accesses fins,
    pcIndex p = pcIndex q → pcTag p = pcTag q

theorem OneTag.init {i : FetchIn} (h : OneTag (fins ++ [i])) : OneTag fins := by
  have hsub : ∀ p ∈ FetchIn.accesses fins, p ∈ FetchIn.accesses (fins ++ [i]) := by
    intro p hp
    rw [FetchIn.accesses_append]
    split
    · exact .tail _ hp
    · exact hp
  exact fun p hp q hq => h p (hsub p hp) q (hsub q hq)

theorem frugalRun_of_oneTag (hc : Invalid c) (h : OneTag fins) :
    FrugalRun imem c (fins.map FetchIn.fixed) := by
  induction fins using List.reverseRecOn with
  | nil =>
    intro pre i hp
    simp at hp
  | append_singleton fins i ih =>
    have ih := ih h.init
    rw [fixed_append]
    apply ih.concat
    intro hl hh way _ hv
    -- the valid line was accessed, so it has the one tag of its set
    have htag : tags (run imem c (fins.map FetchIn.fixed)) (pcIndex i.pc) way = some _ := if_pos hv
    obtain ⟨j, hj, hg, hidx, hjt⟩ := mem_given.mp ((serves_run hc ih _).given _ _ htag)
    have hp : j.pc ∈ FetchIn.accesses fins := by
      rw [← accesses_fixed]
      exact mem_accesses.mpr ⟨j, hj, (Bool.and_eq_true_iff.mp hg).1, rfl⟩
    have hacc : FetchIn.accesses (fins ++ [i]) = i.pc :: FetchIn.accesses fins := by
      rw [FetchIn.accesses_append]
      exact if_pos hl
    have heq := h j.pc (hacc ▸ .tail _ hp) i.pc (hacc ▸ .head _) hidx
    rw [← hjt, heq] at htag
    exact absurd (resident_iff.mp ⟨way, htag⟩) hh

theorem givenRun_of_oneTag (h : OneTag fins) : GivenRun (fins.map FetchIn.fixed) := by
  rintro pre i hp - ⟨p, hpm, q, hqm, hpi, hqi, hne, -⟩
  have hsub : ∀ r ∈ accesses pre, r ∈ FetchIn.accesses fins := by
    intro r hr
    rw [← accesses_fixed]
    obtain ⟨j, hj, hl, hjr⟩ := mem_accesses.mp hr
    have hj := ((List.prefix_append ..).trans hp).subset hj
    exact mem_accesses.mpr ⟨j, hj, hl, hjr⟩
  exact absurd (h p (hsub p hpm) q (hsub q hqm) (hpi.trans hqi.symm)) hne

structure InWay0 (imem : Word → BitVec 32) (c : Icache) (ins : List IcacheIn) (idx : BitVec 8) :
    Prop where
  way1 : tags (run imem c ins) idx .way1 = none
  way0 : ∀ t ∈ given ins idx, tags (run imem c ins) idx .way0 = some t

theorem InWay0.nil (hc : Invalid c) (idx : BitVec 8) : InWay0 imem c [] idx where
  way1 := hc.tags idx .way1
  way0 t ht := absurd ht (Finset.notMem_empty t)

theorem InWay0.of_tags {idx : BitVec 8} (hw : InWay0 imem c ins idx)
    (hs : given (ins ++ [i]) idx = given ins idx)
    (ht : tags (next imem (run imem c ins) i) idx = tags (run imem c ins) idx) :
    InWay0 imem c (ins ++ [i]) idx where
  way1 := by
    rw [run_append, ht]
    exact hw.way1
  way0 := by
    rw [run_append, ht, hs]
    exact hw.way0

theorem given_append_way0 (hl : i.loads) (hv : Way.ofIndex i.randVal = some .way0) :
    given (ins ++ [i]) (pcIndex i.pc) = insert (pcTag i.pc) (given ins (pcIndex i.pc)) := by
  rw [given_append hl, hv]
  rfl

theorem InWay0.hit (hw : InWay0 imem c ins (pcIndex i.pc))
    (hv : Way.ofIndex i.randVal = some .way0) (hl : i.loads) (hh : Hit (run imem c ins) i.pc) :
    InWay0 imem c (ins ++ [i]) (pcIndex i.pc) := by
  have htags : tags (next imem (run imem c ins) i) = tags (run imem c ins) :=
    tags_congr (next_of_hit hh)
  constructor
  · rw [run_append, htags]
    exact hw.way1
  · intro t ht
    rw [given_append_way0 hl hv] at ht
    rw [run_append, htags]
    obtain rfl | ht := Finset.mem_insert.mp ht
    · apply tags_eq_some_iff.mpr
      apply hh.resolve_right
      intro h1
      cases hw.way1.symm.trans (tags_eq_some_iff.mpr h1)
    · exact hw.way0 t ht

theorem InWay0.miss (hw : InWay0 imem c ins (pcIndex i.pc)) (h : FrugalRun imem c (ins ++ [i]))
    (hv : Way.ofIndex i.randVal = some .way0) (hl : i.loads)
    (hh : ¬ Hit (run imem c ins) i.pc) : InWay0 imem c (ins ++ [i]) (pcIndex i.pc) := by
  have hfrugal := h.last hl hh
  have hmiss : (next imem (run imem c ins) i).cache = _ := next_of_miss hl hh
  have htags := tags_fill _ hmiss
  rw [hv] at hfrugal htags
  constructor
  · rw [run_append, htags, SetAssoc.fill, Function.update_of_ne (by decide)]
    exact hw.way1
  · intro t ht
    rw [given_append_way0 hl hv] at ht
    rw [run_append, htags]
    obtain rfl | ht := Finset.mem_insert.mp ht
    · rw [SetAssoc.fill, Function.update_self]
    · have hne := hw.way0 t ht ▸ Option.some_ne_none t
      exact absurd hw.way1 (hfrugal .way0 rfl hne .way1)

theorem InWay0.concat {idx : BitVec 8} (hw : InWay0 imem c ins idx)
    (h : FrugalRun imem c (ins ++ [i])) (hv : Way.ofIndex i.randVal = some .way0) :
    InWay0 imem c (ins ++ [i]) idx := by
  by_cases hi : idx = pcIndex i.pc
  · cases hi
    cases hl : i.loads with
    | false =>
      apply hw.of_tags (given_append_of_not (.inl hl))
      rw [tags_congr (next_of_not_loads hl)]
    | true =>
      by_cases hh : Hit (run imem c ins) i.pc
      · exact hw.hit hv hl hh
      · exact hw.miss h hv hl hh
  · exact hw.of_tags (given_append_of_not (.inr hi)) (tags_next_ne hi)

theorem inWay0_of_frugal (hc : Invalid c) (h : FrugalRun imem c (fins.map FetchIn.fixed))
    (idx : BitVec 8) : InWay0 imem c (fins.map FetchIn.fixed) idx := by
  induction fins using List.reverseRecOn with
  | nil => exact InWay0.nil hc idx
  | append_singleton fins i ih =>
    rw [fixed_append] at h ⊢
    exact (ih (h.init (List.prefix_append ..))).concat h rfl

theorem mem_given_of_accesses {p : Word} (hp : p ∈ FetchIn.accesses fins) :
    pcTag p ∈ given (fins.map FetchIn.fixed) (pcIndex p) := by
  rw [← accesses_fixed] at hp
  obtain ⟨j, hj, hl, hjp⟩ := mem_accesses.mp hp
  obtain ⟨i, -, rfl⟩ := List.mem_map.mp hj
  have hg : i.fixed.gives := Bool.and_eq_true_iff.mpr ⟨hl, rfl⟩
  exact mem_given.mpr ⟨_, hj, hg, congrArg pcIndex hjp, congrArg pcTag hjp⟩

theorem twoWay_fixed_iff (hc : Invalid c) :
    TwoWay imem c (fins.map FetchIn.fixed) ↔ OneTag fins := by
  rw [twoWay_iff hc]
  constructor
  · rintro ⟨h, -⟩ p hp q hq hpq
    have hw := inWay0_of_frugal hc h (pcIndex q)
    have hpt := hw.way0 _ (hpq ▸ mem_given_of_accesses hp)
    have hqt := hw.way0 _ (mem_given_of_accesses hq)
    exact Option.some.inj (hpt.symm.trans hqt)
  · intro h
    exact ⟨frugalRun_of_oneTag hc h, givenRun_of_oneTag h⟩

end Fixed

/-- The cache of `linux_cpu` is two-way exactly as long as no set sees two tags; that of
`cache-cpu`, as long as no second tag of a set is given the way of its first and both
tags of a set that sees two were given a way. -/
theorem icache_twoWay (imem : Word → BitVec 32) (c : Icache) (hc : Invalid c) :
    (∀ fins : List FetchIn, TwoWay imem c (fins.map FetchIn.fixed) ↔ OneTag fins) ∧
      ∀ ins : List IcacheIn, TwoWay imem c ins ↔ SparesRun ins ∧ GivenRun ins :=
  ⟨fun _ => twoWay_fixed_iff hc, fun _ => by rw [twoWay_iff hc, frugalRun_iff hc]⟩

theorem forall_prefix_concat {α : Type*} {P : List α → α → Prop} {l : List α} :
    (∀ pre a, pre ++ [a] <+: l → P pre a) ↔ ∀ k : Fin l.length, P (l.take k) l[k] := by
  constructor
  · intro h k
    apply h
    rw [Fin.getElem_fin, List.take_concat_get']
    exact List.take_prefix ..
  · rintro h pre a ⟨rest, rfl⟩
    simpa using h ⟨pre.length, by simp⟩

def first : FetchIn := ⟨false, false, false, 0⟩
def second : FetchIn := ⟨false, false, false, 0x1000⟩

def twice : List IcacheIn := [⟨first, 1⟩, ⟨second, 0⟩, ⟨first, 0⟩, ⟨second, -1⟩]

theorem twice_given : GivenRun twice := by
  refine forall_prefix_concat.mpr fun (k : Fin 4) => ?_
  match k with
  | 0 =>
    rintro - ⟨p, hp, -⟩
    cases hp
  | 1 =>
    rintro - ⟨p, hp, q, hq, -, -, hne, -⟩
    cases List.mem_singleton.mp hp
    cases List.mem_singleton.mp hq
    exact absurd rfl hne
  | 2 => exact fun _ _ => ⟨_, .head _, by decide⟩
  | 3 => exact fun _ _ => ⟨_, .tail _ (.head _), by decide⟩

theorem icache_twoWay_twice :
    TwoWay (fun _ => 0) empty
        ([first, { first with pc := 4 }, { second with stall := true }].map FetchIn.fixed) ∧
      TwoWay (fun _ => 0) empty twice :=
  ⟨((icache_twoWay _ empty empty_invalid).1 _).mpr
      (by simp [OneTag, FetchIn.accesses, FetchIn.loads, first, second]; decide),
    ((icache_twoWay _ empty empty_invalid).2 _).mpr
      ⟨forall_prefix_concat.mpr (by decide), twice_given⟩⟩

/-- The second block takes the place of the first beside an invalid line. -/
theorem icache_not_twoWay :
    (¬ ∀ fins : List FetchIn, TwoWay (fun _ => 0) empty (fins.map FetchIn.fixed)) ∧
      ¬ ∀ ins : List IcacheIn, (∀ i ∈ ins, i.randVal = -1 ∨ i.randVal = 0 ∨ i.randVal = 1) →
        TwoWay (fun _ => 0) empty ins := by
  have hno : ¬ TwoWay (fun _ => 0) empty ([first.fixed] ++ [second.fixed]) := by
    intro h
    have hline := h.keeps [first.fixed] second.fixed (List.prefix_refl _) rfl (by decide) .way0
      (by decide) (by decide)
    exact absurd (congrArg Line.tag hline) (by decide)
  constructor
  · intro h
    exact hno (h [first, second])
  · intro h
    exact hno (h [first.fixed, second.fixed] (by simp [FetchIn.fixed]))

end Icache

end LinuxCpu.Rv64
