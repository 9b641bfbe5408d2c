import Mathlib.Data.Finset.Card
import Mathlib.Data.Fintype.Card
import Mathlib.Logic.Function.Basic

/-! One set of a set-associative cache, as the tag each way holds. A missing tag
goes to a way of the cache's choice, or nowhere. -/

universe u v

namespace LinuxCpu.SetAssoc

variable {Way : Type u} {Tag : Type v}

section Lines

variable (s : Way → Option Tag)

def Resident (t : Tag) : Prop := ∃ way, s way = some t

def Unique : Prop := ∀ ⦃way way' t⦄, s way = some t → s way' = some t → way = way'

/-- A way in use is chosen only if all are in use. -/
def Frugal (victim : Option Way) : Prop :=
  ∀ way, victim = some way → s way ≠ none → ∀ way', s way' ≠ none

/-- What holds of a set after accesses that gave a way to the tags `d`. -/
structure Serves [Fintype Way] (d : Finset Tag) : Prop where
  unique : Unique s
  given : ∀ way t, s way = some t → t ∈ d
  resident : d.card ≤ Fintype.card Way → ∀ t ∈ d, Resident s t
  full : Fintype.card Way ≤ d.card → ∀ way, s way ≠ none

end Lines

section Serves

variable [Fintype Way] {s : Way → Option Tag} {d : Finset Tag}

theorem Serves.empty (h : ∀ way, s way = none) : Serves s ∅ where
  unique way _ _ hw _ := by
    rw [h way] at hw
    cases hw
  given way t hw := by
    rw [h way] at hw
    cases hw
  resident _ t ht := absurd ht (Finset.notMem_empty t)
  full hd way := absurd hd (Nat.not_le_of_lt (Fintype.card_pos_iff.mpr ⟨way⟩))

theorem Serves.exists_free (h : Serves s d) (hd : d.card < Fintype.card Way) :
    ∃ way, s way = none := by
  by_contra hall
  have hsome : ∀ way, ∃ t, s way = some t :=
    fun way => Option.ne_none_iff_exists'.mp fun hn => hall ⟨way, hn⟩
  choose tag htag using hsome
  have hinj : Function.Injective tag := by
    intro way way' he
    exact h.unique (htag way) (he ▸ htag way')
  have hle : (Finset.univ : Finset Way).card ≤ d.card :=
    Finset.card_le_card_of_injOn tag (fun way _ => h.given way _ (htag way)) hinj.injOn
  exact Nat.not_le_of_lt hd hle

theorem ne_none_of_resident (hd : Fintype.card Way ≤ d.card) (h : ∀ t ∈ d, Resident s t)
    (way : Way) : s way ≠ none := by
  have : Nonempty Way := ⟨way⟩
  choose! place hplace using h
  have hinj : Set.InjOn place d := by
    intro t ht u hu he
    exact Option.some.inj ((hplace t ht).symm.trans ((congrArg s he).trans (hplace u hu)))
  have hsurj : Set.SurjOn place d (Finset.univ : Finset Way) :=
    Finset.surjOn_of_injOn_of_card_le place (fun t _ => Finset.mem_coe.mpr (Finset.mem_univ _))
      hinj hd
  obtain ⟨t, ht, rfl⟩ := hsurj (Finset.mem_coe.mpr (Finset.mem_univ way))
  rw [hplace t ht]
  exact Option.some_ne_none t

end Serves

variable [DecidableEq Way] {s s' : Way → Option Tag} {t : Tag} {victim : Option Way}

def fill (s : Way → Option Tag) (t : Tag) : Option Way → Way → Option Tag
  | some way => Function.update s way (some t)
  | none => s

inductive Access (s : Way → Option Tag) (t : Tag) (victim : Option Way) :
    (Way → Option Tag) → Prop
  | hit : Resident s t → Access s t victim s
  | miss : ¬ Resident s t → Access s t victim (fill s t victim)

theorem Unique.fill (hu : Unique s) (ht : ¬ Resident s t) : Unique (fill s t victim) := by
  cases victim with
  | none => exact hu
  | some w =>
    intro way way' u h h'
    rw [SetAssoc.fill, Function.update_apply] at h h'
    by_cases hw : way = w
    · by_cases hw' : way' = w
      · exact hw.trans hw'.symm
      · rw [if_pos hw] at h
        rw [if_neg hw', ← h] at h'
        exact absurd ⟨way', h'⟩ ht
    · rw [if_neg hw] at h
      by_cases hw' : way' = w
      · rw [if_pos hw'] at h'
        rw [← h'] at h
        exact absurd ⟨way, h⟩ ht
      · rw [if_neg hw'] at h'
        exact hu h h'

theorem Access.unique (ha : Access s t victim s') (hu : Unique s) : Unique s' := by
  cases ha with
  | hit _ => exact hu
  | miss ht => exact hu.fill ht

variable [Fintype Way] [DecidableEq Tag] {d : Finset Tag}

theorem Serves.resident_miss {w : Way} (h : Serves s d) (ht : ¬ Resident s t)
    (hv : Frugal s (some w)) (hcard : (insert t d).card ≤ Fintype.card Way) {u : Tag}
    (hu : u ∈ insert t d) : Resident (fill s t (some w)) u := by
  obtain rfl | hu := Finset.mem_insert.mp hu
  · exact ⟨w, Function.update_self ..⟩
  · -- the tags so far are all resident, so `t` is new and a way is free
    have hres := h.resident ((Finset.card_le_card (Finset.subset_insert t d)).trans hcard)
    have hnew : t ∉ d := fun hmem => ht (hres t hmem)
    rw [Finset.card_insert_of_notMem hnew] at hcard
    obtain ⟨free, hnone⟩ := h.exists_free hcard
    obtain ⟨way, hway⟩ := hres u hu
    have hne : way ≠ w := by
      rintro rfl
      exact hv way rfl (hway ▸ Option.some_ne_none u) free hnone
    exact ⟨way, (Function.update_of_ne hne ..).trans hway⟩

theorem Serves.full_miss {w : Way} (h : Serves s d) (ht : ¬ Resident s t)
    (hv : Frugal s (some w)) (hcard : Fintype.card Way ≤ (insert t d).card) (way : Way) :
    fill s t (some w) way ≠ none := by
  by_cases hd : Fintype.card Way ≤ d.card
  · rw [fill, Function.update_apply]
    split_ifs
    · exact Option.some_ne_none t
    · exact h.full hd way
  · have hle : (insert t d).card ≤ Fintype.card Way :=
      (Finset.card_insert_le t d).trans (Nat.lt_of_not_le hd)
    exact ne_none_of_resident hcard (fun u hu => h.resident_miss ht hv hle hu) way

theorem Serves.miss {w : Way} (h : Serves s d) (ht : ¬ Resident s t)
    (hv : Frugal s (some w)) : Serves (fill s t (some w)) (insert t d) where
  unique := h.unique.fill ht
  given way u hu := by
    rw [fill, Function.update_apply] at hu
    by_cases hw : way = w
    · rw [if_pos hw] at hu
      exact Finset.mem_insert.mpr (.inl (Option.some.inj hu).symm)
    · rw [if_neg hw] at hu
      exact Finset.mem_insert_of_mem (h.given way u hu)
  resident hcard _ hu := h.resident_miss ht hv hcard hu
  full hcard := h.full_miss ht hv hcard

/-- With frugal choices every tag that got a way stays until there are more of them
than ways. -/
theorem Serves.access (h : Serves s d) (ha : Access s t victim s')
    (hv : ¬ Resident s t → Frugal s victim) :
    Serves s' (if victim.isSome then insert t d else d) := by
  cases ha with
  | hit ht =>
    obtain ⟨way, hway⟩ := ht
    rw [Finset.insert_eq_of_mem (h.given way t hway), ite_self]
    exact h
  | miss ht =>
    cases victim with
    | none => exact h
    | some w => exact h.miss ht (hv ht)

end LinuxCpu.SetAssoc
