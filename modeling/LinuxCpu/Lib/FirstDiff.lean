import Mathlib.Data.List.GetD
import Mathlib.Order.Lattice.Nat
import Mathlib.Order.PiLex

/-! Comparing lists by the first place where they differ. A list that is longer
than another is compared there with a given end mark. -/

universe u v

namespace LinuxCpu.FirstDiff

section Marked

variable {α : Type u} {p q : List α}

/-- The end mark is in neither list, or the lists end together. -/
def Marked (z : α) (p q : List α) : Prop := (z ∉ p ∧ z ∉ q) ∨ p.length = q.length

theorem Marked.symm {z : α} (h : Marked z p q) : Marked z q p := by
  obtain ⟨hp, hq⟩ | h := h
  · exact .inl ⟨hq, hp⟩
  · exact .inr h.symm

theorem Marked.tail {z a b : α} (h : Marked z (a :: p) (b :: q)) : Marked z p q := by
  obtain ⟨hp, hq⟩ | h := h
  · exact .inl ⟨fun hz => hp (.tail _ hz), fun hz => hq (.tail _ hz)⟩
  · exact .inr (Nat.succ.inj h)

theorem Marked.ne_of_nil {z b : α} (h : Marked z [] (b :: q)) : b ≠ z := by
  obtain ⟨-, hq⟩ | h := h
  · intro hb
    exact hq (hb ▸ .head _)
  · cases h

end Marked

variable {α : Type u} {β : Type v} [DecidableEq α]

def common : List α → List α → Nat
  | a :: p, b :: q => if a = b then common p q + 1 else 0
  | _, _ => 0

section Common

variable {p q : List α}

theorem common_cons_self (a : α) : common (a :: p) (a :: q) = common p q + 1 := if_pos rfl

theorem common_cons_ne {a b : α} (h : a ≠ b) : common (a :: p) (b :: q) = 0 := if_neg h

theorem common_nil (p : List α) : common p [] = 0 := by
  cases p <;> rfl

theorem common_comm (p q : List α) : common p q = common q p := by
  induction p generalizing q with
  | nil => exact (common_nil q).symm
  | cons a p ih =>
    cases q with
    | nil => rfl
    | cons b q =>
      by_cases h : a = b
      · cases h
        rw [common_cons_self, common_cons_self, ih]
      · rw [common_cons_ne h, common_cons_ne (Ne.symm h)]

theorem common_le_left (p q : List α) : common p q ≤ p.length := by
  induction p generalizing q with
  | nil => exact Nat.le_refl 0
  | cons a p ih =>
    cases q with
    | nil => exact Nat.zero_le _
    | cons b q =>
      by_cases h : a = b
      · cases h
        rw [common_cons_self]
        exact Nat.succ_le_succ (ih q)
      · rw [common_cons_ne h]
        exact Nat.zero_le _

theorem common_le_right (p q : List α) : common p q ≤ q.length := by
  rw [common_comm]
  exact common_le_left q p

theorem getD_eq_of_lt (z : α) {i : Nat} (h : i < common p q) : p.getD i z = q.getD i z := by
  induction p generalizing q i with
  | nil => cases h
  | cons a p ih =>
    cases q with
    | nil => cases h
    | cons b q =>
      by_cases hab : a = b
      · cases hab
        rw [common_cons_self] at h
        cases i with
        | zero => rfl
        | succ i => exact ih (Nat.lt_of_succ_lt_succ h)
      · rw [common_cons_ne hab] at h
        cases h

theorem eq_of_getD {z : α} (hm : Marked z p q)
    (h : p.getD (common p q) z = q.getD (common p q) z) : p = q := by
  induction p generalizing q with
  | nil =>
    cases q with
    | nil => rfl
    | cons b q => exact absurd h.symm hm.ne_of_nil
  | cons a p ih =>
    cases q with
    | nil => exact absurd h hm.symm.ne_of_nil
    | cons b q =>
      by_cases hab : a = b
      · cases hab
        rw [common_cons_self] at h
        rw [ih hm.tail h]
      · rw [common_cons_ne hab] at h
        exact absurd h hab

theorem common_self (p : List α) : common p p = p.length := by
  induction p with
  | nil => rfl
  | cons a p ih => rw [common_cons_self, ih, List.length_cons]

theorem getD_common_self (z : α) (p : List α) : p.getD (common p p) z = z := by
  rw [common_self, List.getD_eq_default p z (Nat.le_refl _)]

theorem common_eq (z : α) {k : Nat} (hp : k ≤ p.length) (hq : k ≤ q.length)
    (hsame : ∀ i < k, p.getD i z = q.getD i z)
    (hstop : k < p.length → k < q.length → p.getD k z ≠ q.getD k z) : common p q = k := by
  induction k generalizing p q with
  | zero =>
    cases p with
    | nil => rfl
    | cons a p =>
      cases q with
      | nil => rfl
      | cons b q => exact common_cons_ne (hstop (Nat.succ_pos _) (Nat.succ_pos _))
  | succ k ih =>
    cases p with
    | nil => cases hp
    | cons a p =>
      cases q with
      | nil => cases hq
      | cons b q =>
        have hab : a = b := hsame 0 (Nat.succ_pos k)
        cases hab
        rw [common_cons_self, ih (Nat.le_of_succ_le_succ hp) (Nat.le_of_succ_le_succ hq)]
        · intro i hi
          exact hsame (i + 1) (Nat.succ_lt_succ hi)
        · intro h h'
          exact hstop (Nat.succ_lt_succ h) (Nat.succ_lt_succ h')

theorem lt_iff [LT α] {z : α} (hirr : ∀ a : α, ¬ a < a) (hmin : ∀ a : α, ¬ a < z)
    (hpos : ∀ a : α, a ≠ z → z < a) (hm : Marked z p q) :
    p < q ↔ p.getD (common p q) z < q.getD (common p q) z := by
  induction p generalizing q with
  | nil =>
    cases q with
    | nil => exact iff_of_false (List.not_lt_nil _) (hirr z)
    | cons b q => exact iff_of_true (List.nil_lt_cons b q) (hpos b hm.ne_of_nil)
  | cons a p ih =>
    cases q with
    | nil => exact iff_of_false (List.not_lt_nil _) (hmin a)
    | cons b q =>
      by_cases hab : a = b
      · cases hab
        rw [common_cons_self, List.cons_lt_cons_iff]
        exact ⟨fun h => (ih hm.tail).mp (h.resolve_left (hirr a)).2,
          fun h => .inr ⟨rfl, (ih hm.tail).mpr h⟩⟩
      · rw [common_cons_ne hab, List.cons_lt_cons_iff]
        exact ⟨fun h => h.resolve_right fun h => hab h.1, .inl⟩

end Common

variable [LinearOrder β]

/-- A list as the sequence of its values, with that of the end mark behind them. -/
def sequence (f : α → β) (z : α) (p : List α) : Lex (Nat → β) := toLex fun i => f (p.getD i z)

section Sequence

variable {f : α → β} {z : α} {p q : List α}

theorem sequence_lt (h : f (p.getD (common p q) z) < f (q.getD (common p q) z)) :
    sequence f z p < sequence f z q :=
  ⟨common p q, fun _ hi => congrArg f (getD_eq_of_lt z hi), h⟩

theorem sequence_le_iff (hf : Function.Injective f) (hm : Marked z p q) :
    sequence f z p ≤ sequence f z q ↔
      f (p.getD (common p q) z) ≤ f (q.getD (common p q) z) := by
  constructor
  · intro h
    by_contra hlt
    have hlt := not_le.mp hlt
    rw [common_comm p q] at hlt
    exact not_le.mpr (sequence_lt hlt) h
  · intro h
    obtain h | h := lt_or_eq_of_le h
    · exact le_of_lt (sequence_lt h)
    · rw [eq_of_getD hm (hf h)]

theorem value_le_trans {r : List α} (hf : Function.Injective f) (hpq : Marked z p q)
    (hqr : Marked z q r) (hpr : Marked z p r)
    (h : f (p.getD (common p q) z) ≤ f (q.getD (common p q) z))
    (h' : f (q.getD (common q r) z) ≤ f (r.getD (common q r) z)) :
    f (p.getD (common p r) z) ≤ f (r.getD (common p r) z) := by
  rw [← sequence_le_iff hf hpq] at h
  rw [← sequence_le_iff hf hqr] at h'
  rw [← sequence_le_iff hf hpr]
  exact le_trans h h'

theorem common_le_max {r : List α} (hf : Function.Injective f) (hpq : Marked z p q)
    (hqr : Marked z q r) (h : f (p.getD (common p q) z) ≤ f (q.getD (common p q) z))
    (h' : f (q.getD (common q r) z) ≤ f (r.getD (common q r) z)) :
    common p r ≤ max (common p q) (common q r) := by
  by_contra hlt
  have hp := getD_eq_of_lt z (p := p) (q := r) (i := common p q) (by omega)
  have hr := getD_eq_of_lt z (p := p) (q := r) (i := common q r) (by omega)
  obtain hk | hk | hk := Nat.lt_trichotomy (common p q) (common q r)
  · cases eq_of_getD hpq (hp.trans (getD_eq_of_lt z hk).symm)
    omega
  · rw [← hk, ← hp] at h'
    cases eq_of_getD hpq (hf (le_antisymm h h'))
    omega
  · cases eq_of_getD hqr ((getD_eq_of_lt z hk).symm.trans hr)
    omega

end Sequence

end LinuxCpu.FirstDiff
