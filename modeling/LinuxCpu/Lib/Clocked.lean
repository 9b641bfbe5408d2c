import Mathlib.Logic.Function.Iterate
import Mathlib.Data.List.Infix

/-! Clocked machines with a port that shows at most one item a cycle, streams
that show one item a step, and the stuttering simulation that relates them. -/

universe u v w

namespace LinuxCpu

structure Clocked (σ : Type u) (ω : Type v) where
  edge : σ → σ
  port : σ → Option ω

namespace Clocked

variable {σ : Type u} {ω : Type v} (M : Clocked σ ω)

def after (n : Nat) (s : σ) : σ := M.edge^[n] s

@[simp] theorem after_zero (s : σ) : M.after 0 s = s := rfl

theorem after_succ (n : Nat) (s : σ) : M.after (n + 1) s = M.edge (M.after n s) :=
  Function.iterate_succ_apply' ..

theorem after_add (m n : Nat) (s : σ) : M.after (m + n) s = M.after m (M.after n s) :=
  Function.iterate_add_apply ..

def trace (n : Nat) (s : σ) : List ω := (List.range n).filterMap fun t => M.port (M.after t s)

theorem trace_succ (n : Nat) (s : σ) :
    M.trace (n + 1) s = M.trace n s ++ (M.port (M.after n s)).toList := by
  rw [trace, trace, List.range_succ, List.filterMap_append]
  cases h : M.port (M.after n s) <;> simp [h]

theorem trace_succ_of_none {n : Nat} {s : σ} (h : M.port (M.after n s) = none) :
    M.trace (n + 1) s = M.trace n s := by
  simp [trace_succ, h]

theorem trace_succ_of_some {n : Nat} {s : σ} {o : ω} (h : M.port (M.after n s) = some o) :
    M.trace (n + 1) s = M.trace n s ++ [o] := by
  simp [trace_succ, h]

theorem trace_le {m n : Nat} (h : m ≤ n) (s : σ) : M.trace m s <+: M.trace n s := by
  induction h with
  | refl => exact List.prefix_rfl
  | step _ ih => exact ih.trans (M.trace_succ _ s ▸ List.prefix_append ..)

theorem exists_trace_eq {m : Nat} {s : σ} {l : List ω} (h : l <+: M.trace m s) :
    ∃ t, M.trace t s = l := by
  induction m with
  | zero => exact ⟨0, (List.prefix_nil.mp h).symm⟩
  | succ m ih =>
    cases hp : M.port (M.after m s) with
    | none => exact ih (M.trace_succ_of_none hp ▸ h)
    | some o =>
      rw [M.trace_succ_of_some hp, List.prefix_concat_iff] at h
      rcases h with rfl | h
      · exact ⟨m + 1, M.trace_succ_of_some hp⟩
      · exact ih h

theorem trace_congr {σ' : Type*} {M' : Clocked σ' ω} {s : σ} {s' : σ'} {n : Nat}
    (h : ∀ j < n, M.port (M.after j s) = M'.port (M'.after j s')) :
    M.trace n s = M'.trace n s' :=
  List.filterMap_congr fun j hj => h j (List.mem_range.mp hj)

def map {ω' : Type*} (f : ω → ω') : Clocked σ ω' where
  edge := M.edge
  port s := (M.port s).map f

theorem trace_map {ω' : Type*} (f : ω → ω') (n : Nat) (s : σ) :
    (M.map f).trace n s = (M.trace n s).map f := by
  induction n with
  | zero => rfl
  | succ n ih =>
    rw [trace_succ, trace_succ, List.map_append, ih]
    change _ ++ ((M.port (M.after n s)).map f).toList = _
    cases M.port (M.after n s) <;> rfl

theorem exists_next {t m : Nat} {s : σ} (h : (M.trace t s).length < (M.trace m s).length) :
    ∃ k o, k + t < m ∧ (∀ j < k, M.port (M.after j (M.after t s)) = none) ∧
      M.port (M.after k (M.after t s)) = some o ∧ M.trace (k + t) s = M.trace t s := by
  have htm : t ≤ m := Nat.le_of_not_le fun hm => Nat.not_le_of_lt h (M.trace_le hm s).length_le
  induction htm using Nat.decreasingInduction with
  | self => exact absurd h (Nat.lt_irrefl _)
  | of_succ t htm ih =>
    cases hp : M.port (M.after t s) with
    | some o => exact ⟨0, o, (Nat.zero_add t).symm ▸ htm, fun _ hj => absurd hj (Nat.not_lt_zero _),
        hp, congrArg (M.trace · s) (Nat.zero_add t)⟩
    | none =>
      rw [← M.trace_succ_of_none hp] at h ⊢
      obtain ⟨k, o, hk, hnone, hsome, htrace⟩ := ih h
      rw [← Nat.succ_add_eq_add_succ] at hk htrace
      rw [M.after_succ] at hnone hsome
      refine ⟨k + 1, o, hk, fun j hj => ?_, hsome, htrace⟩
      cases j with
      | zero => exact hp
      | succ j => exact hnone j (Nat.lt_of_succ_lt_succ hj)

section Folds

variable {γ : Type*} (view : σ → γ) (act : γ → ω → γ)

/-- In the run from `s`, `view` changes only at an edge that ends a cycle with
an item, and by that item. -/
def Folds (s : σ) : Prop :=
  ∀ t, view (M.after (t + 1) s) =
    (M.port (M.after t s)).elim (view (M.after t s)) (act (view (M.after t s)))

variable {M view act}

theorem Folds.after {s : σ} (h : M.Folds view act s) (t : Nat) :
    view (M.after t s) = (M.trace t s).foldl act (view s) := by
  induction t with
  | zero => rfl
  | succ t ih =>
    rw [h t, M.trace_succ, List.foldl_append, ← ih]
    cases M.port (M.after t s) <;> rfl

end Folds

section Progress

/-- Along a run in `I` the port shows an item after at most `wait` cycles without. -/
structure Progress (I : σ → Prop) (wait : σ → Nat) : Prop where
  keep : ∀ {s}, I s → I (M.edge s)
  down : ∀ {s}, I s → M.port s = none → wait (M.edge s) < wait s

variable {M} {I : σ → Prop} {wait : σ → Nat}

theorem Progress.after (h : M.Progress I wait) {s : σ} (hs : I s) (n : Nat) : I (M.after n s) := by
  induction n with
  | zero => exact hs
  | succ n ih =>
    rw [M.after_succ]
    exact h.keep ih

theorem Progress.exists_port (h : M.Progress I wait) {s : σ} (hs : I s) :
    ∃ k ≤ wait s, (∀ j < k, M.port (M.after j s) = none) ∧ (M.port (M.after k s)).isSome := by
  induction hw : wait s using Nat.strong_induction_on generalizing s with
  | _ w ih =>
    cases hp : M.port s with
    | some o => exact ⟨0, Nat.zero_le _, fun j hj => absurd hj (Nat.not_lt_zero j), by simp [hp]⟩
    | none =>
      have hd := h.down hs hp
      rw [hw] at hd
      obtain ⟨k, hk, hnone, hsome⟩ := ih _ hd (h.keep hs) rfl
      refine ⟨k + 1, by omega, fun j hj => ?_, hsome⟩
      cases j with
      | zero => exact hp
      | succ j => exact hnone j (Nat.lt_of_succ_lt_succ hj)

theorem trace_add (m n : Nat) (s : σ) :
    M.trace (m + n) s = M.trace m s ++ M.trace n (M.after m s) := by
  induction n with
  | zero => simp [trace]
  | succ n ih =>
    rw [← Nat.add_assoc, trace_succ, trace_succ, ih, List.append_assoc, ← M.after_add,
      Nat.add_comm m n]

theorem trace_eq_nil {n : Nat} {s : σ} (h : ∀ j < n, M.port (M.after j s) = none) :
    M.trace n s = [] := by
  rw [trace, List.filterMap_eq_nil_iff]
  exact fun j hj => h j (List.mem_range.mp hj)

theorem Progress.exists_trace (h : M.Progress I wait) {b : Nat} (hb : ∀ s, wait s ≤ b) {s : σ}
    (hs : I s) (n : Nat) : ∃ m ≤ (b + 1) * n, (M.trace m s).length = n := by
  induction n with
  | zero => exact ⟨0, Nat.zero_le _, rfl⟩
  | succ n ih =>
    obtain ⟨m, hm, hl⟩ := ih
    obtain ⟨k, hk, hnone, hsome⟩ := h.exists_port (h.after hs m)
    obtain ⟨o, ho⟩ := Option.isSome_iff_exists.mp hsome
    have := hb (M.after m s)
    refine ⟨m + (k + 1), by rw [Nat.mul_succ]; omega, ?_⟩
    rw [trace_add, trace_succ_of_some _ ho, trace_eq_nil hnone, List.length_append, hl]
    rfl

theorem Progress.exists_trace_succ (h : M.Progress I wait) {b : Nat} (hb : ∀ s, wait s ≤ b)
    {s : σ} (hs : I s) (h0 : M.port s = none) (n : Nat) :
    ∃ m ≤ (b + 1) * n, (M.trace (m + 1) s).length = n := by
  obtain ⟨m, hm, hl⟩ := h.exists_trace hb hs n
  cases m with
  | zero => exact ⟨0, hm, (congrArg List.length (M.trace_succ_of_none (n := 0) h0)).trans hl⟩
  | succ m => exact ⟨m, by omega, hl⟩

end Progress

structure Steps (n : Nat) (s : σ) (l : List ω) (s' : σ) : Prop where
  after : M.after n s = s'
  trace : M.trace n s = l

namespace Steps

variable {M} {m n : Nat} {s s' s'' : σ} {l l' : List ω}

theorem refl (s : σ) : M.Steps 0 s [] s := ⟨rfl, rfl⟩

theorem edge (s : σ) : M.Steps 1 s (M.port s).toList (M.edge s) := ⟨rfl, M.trace_succ 0 s⟩

theorem edge_of_none (h : M.port s = none) : M.Steps 1 s [] (M.edge s) := by
  simpa [h] using Steps.edge (M := M) s

theorem edge_of_some {o : ω} (h : M.port s = some o) : M.Steps 1 s [o] (M.edge s) := by
  simpa [h] using Steps.edge (M := M) s

theorem trans (h : M.Steps m s l s') (h' : M.Steps n s' l' s'') :
    M.Steps (m + n) s (l ++ l') s'' where
  after := by rw [Nat.add_comm, M.after_add, h.after, h'.after]
  trace := by rw [M.trace_add, h.after, h.trace, h'.trace]

end Steps

theorem trace_of_delay {early : σ → Option ω} {d : Nat}
    (h : ∀ s, M.port (M.after d s) = early s) (n : Nat) (s : σ) :
    M.trace (d + n) s = M.trace d s ++ ({ M with port := early } : Clocked σ ω).trace n s := by
  rw [trace_add]
  refine congrArg (M.trace d s ++ ·) (M.trace_congr fun j _ => ?_)
  rw [← M.after_add, Nat.add_comm, M.after_add]
  exact h _

end Clocked

structure Stream (τ : Type u) (ω : Type v) where
  next : τ → τ
  out : τ → ω

namespace Stream

variable {τ : Type u} {ω : Type v} (S : Stream τ ω)

def after (n : Nat) (t : τ) : τ := S.next^[n] t

@[simp] theorem after_zero (t : τ) : S.after 0 t = t := rfl

theorem after_succ (n : Nat) (t : τ) : S.after (n + 1) t = S.next (S.after n t) :=
  Function.iterate_succ_apply' ..

theorem after_add (m n : Nat) (t : τ) : S.after (m + n) t = S.after m (S.after n t) :=
  Function.iterate_add_apply ..

def take (n : Nat) (t : τ) : List ω := (List.range n).map fun i => S.out (S.after i t)

@[simp] theorem length_take (n : Nat) (t : τ) : (S.take n t).length = n := by simp [take]

theorem take_succ (n : Nat) (t : τ) : S.take (n + 1) t = S.take n t ++ [S.out (S.after n t)] := by
  simp [take, List.range_succ]

theorem take_cons (n : Nat) (t : τ) : S.take (n + 1) t = S.out t :: S.take n (S.next t) := by
  simp only [take, List.range_succ_eq_map, List.map_cons, List.map_map]
  rfl

end Stream

/-- `R` relates a clocked machine to a stream it refines: a cycle without an
item keeps the stream where it is, a cycle with one shows the stream's next item
and advances it. -/
structure Stuttering {σ τ : Type u} {ω : Type v} (M : Clocked σ ω) (S : Stream τ ω)
    (R : σ → τ → Prop) : Prop where
  idle : ∀ {s t}, R s t → M.port s = none → R (M.edge s) t
  emit : ∀ {s t o}, R s t → M.port s = some o → o = S.out t ∧ R (M.edge s) (S.next t)

namespace Stuttering

variable {σ τ : Type u} {ω : Type v} {M : Clocked σ ω} {S : Stream τ ω} {R : σ → τ → Prop}

/-- The items shown are the stream's first ones, and the state reached is
related to the stream advanced by as many. -/
theorem run (sim : Stuttering M S R) {s : σ} {t : τ} (h : R s t) (n : Nat) :
    M.trace n s = S.take (M.trace n s).length t ∧
      R (M.after n s) (S.after (M.trace n s).length t) := by
  induction n with
  | zero => exact ⟨rfl, h⟩
  | succ n ih =>
    obtain ⟨htrace, hR⟩ := ih
    cases hp : M.port (M.after n s) with
    | none =>
      rw [M.trace_succ_of_none hp, M.after_succ]
      exact ⟨htrace, sim.idle hR hp⟩
    | some o =>
      obtain ⟨ho, hR'⟩ := sim.emit hR hp
      rw [M.trace_succ_of_some hp, M.after_succ, List.length_append, List.length_singleton,
        S.take_succ, S.after_succ, ← htrace, ho]
      exact ⟨rfl, hR'⟩

end Stuttering

/-! Buffers under arbitrary input signals: what they accept, hold and give up. -/

namespace Buffer

variable {σ : Type u} {ι : Type v} {α : Type w} (edge : ι → σ → σ)

def run (s : σ) : List ι → σ
  | [] => s
  | i :: is => run (edge i s) is

def items (port : ι → σ → Option α) (s : σ) : List ι → List α
  | [] => []
  | i :: is => (port i s).toList ++ items port (edge i s) is

/-- In each cycle the items a buffer gives up come before those it holds, and
those it accepts behind them. -/
def Lossless (accepts leaves : ι → σ → Option α) (held : σ → List α) : Prop :=
  ∀ i s, (leaves i s).toList ++ held (edge i s) = held s ++ (accepts i s).toList

namespace Lossless

variable {edge} {accepts leaves : ι → σ → Option α} {held : σ → List α}

theorem run (h : Lossless edge accepts leaves held) (s : σ) (is : List ι) :
    items edge leaves s is ++ held (run edge s is) = held s ++ items edge accepts s is := by
  induction is generalizing s with
  | nil => exact (List.append_nil _).symm
  | cons i is ih =>
    rw [items, items, Buffer.run, List.append_assoc, ih, ← List.append_assoc, h i s,
      List.append_assoc]

theorem accepted_eq (h : Lossless edge accepts leaves held) {s : σ} (hs : held s = [])
    (is : List ι) :
    items edge accepts s is = items edge leaves s is ++ held (Buffer.run edge s is) := by
  rw [h.run, hs]
  rfl

end Lossless

end Buffer

end LinuxCpu
