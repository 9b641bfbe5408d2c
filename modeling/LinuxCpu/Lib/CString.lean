import Mathlib.Data.BitVec
import Mathlib.Logic.Function.Basic

/-! Strings ended by a zero byte, and the array a program writes one into piece
by piece. -/

namespace LinuxCpu.CString

abbrev Byte := BitVec 8

def Spells : (Nat → Byte) → List Byte → Prop
  | f, [] => f 0 = 0
  | f, c :: s => f 0 = c ∧ c ≠ 0 ∧ Spells (fun i => f (i + 1)) s

namespace Spells

variable {f : Nat → Byte} {s s' : List Byte}

theorem getElem (h : Spells f s) {i : Nat} (hi : i < s.length) : f i = s[i] := by
  induction s generalizing f i with
  | nil => cases hi
  | cons c s ih =>
    cases i with
    | zero => exact h.1
    | succ i => exact ih h.2.2 (Nat.lt_of_succ_lt_succ hi)

theorem nul (h : Spells f s) : f s.length = 0 := by
  induction s generalizing f with
  | nil => exact h
  | cons c s ih => exact ih h.2.2

theorem getD (h : Spells f s) {i : Nat} (hi : i ≤ s.length) : f i = s.getD i 0 := by
  obtain hi | rfl := Nat.lt_or_eq_of_le hi
  · rw [h.getElem hi, List.getElem_eq_getD 0]
  · rw [h.nul]
    simp

theorem ne_zero (h : Spells f s) {c : Byte} (hc : c ∈ s) : c ≠ 0 := by
  induction s generalizing f with
  | nil => cases hc
  | cons d s ih =>
    cases hc with
    | head => exact h.2.1
    | tail _ hc => exact ih h.2.2 hc

theorem unique (h : Spells f s) (h' : Spells f s') : s = s' := by
  induction s generalizing f s' with
  | nil =>
    cases s' with
    | nil => rfl
    | cons c s' => exact absurd (h'.1.symm.trans h) h'.2.1
  | cons c s ih =>
    cases s' with
    | nil => exact absurd (h.1.symm.trans h') h.2.1
    | cons d s' => rw [← h.1, ← h'.1, ih h.2.2 h'.2.2]

theorem of_getElem (hs : ∀ i (hi : i < s.length), f i = s[i]) (h0 : f s.length = 0)
    (hne : ∀ c ∈ s, c ≠ 0) : Spells f s := by
  induction s generalizing f with
  | nil => exact h0
  | cons c s ih =>
    refine ⟨hs 0 (Nat.succ_pos _), hne c (.head _), ih (fun i hi => ?_) h0 fun d hd => ?_⟩
    · exact hs (i + 1) (Nat.succ_lt_succ hi)
    · exact hne d (.tail _ hd)

theorem of_getD (hs : ∀ i ≤ s.length, f i = s.getD i 0) (hne : ∀ c ∈ s, c ≠ 0) : Spells f s := by
  refine of_getElem (fun i hi => ?_) ?_ hne
  · rw [hs i (Nat.le_of_lt hi), List.getElem_eq_getD 0]
  · rw [hs _ (Nat.le_refl _)]
    simp

end Spells

def literal (s : List Byte) : Nat → Byte := fun i => s.getD i 0

theorem literal_spells {s : List Byte} (hne : ∀ c ∈ s, c ≠ 0) : Spells (literal s) s :=
  .of_getD (fun _ _ => rfl) hne

theorem length_lt_of_spells {f : BitVec w → Byte} {s : List Byte}
    (h : Spells (fun i => f (BitVec.ofNat w i)) s) : s.length < 2 ^ w := by
  by_contra hl
  have hl : 2 ^ w ≤ s.length := Nat.le_of_not_lt hl
  have hk : s.length - 2 ^ w < s.length :=
    Nat.sub_lt (Nat.lt_of_lt_of_le (Nat.two_pow_pos w) hl) (Nat.two_pow_pos w)
  have he : BitVec.ofNat w (s.length - 2 ^ w) = BitVec.ofNat w s.length := by
    apply BitVec.eq_of_toNat_eq
    rw [BitVec.toNat_ofNat, BitVec.toNat_ofNat, ← Nat.mod_eq_sub_mod hl]
  have hc := h.getElem hk
  rw [he, h.nul] at hc
  exact h.ne_zero (List.getElem_mem hk) hc.symm

/-- An array, indexed from some element on, and the indices written so far. -/
structure Buf where
  data : Int → Byte
  written : List Int

namespace Buf

def zeros : Buf := ⟨fun _ => 0, []⟩

def set (b : Buf) (i : Int) (c : Byte) : Buf := ⟨Function.update b.data i c, i :: b.written⟩

variable (b : Buf) (c : Byte)

theorem set_data (i j : Int) : (b.set i c).data j = if j = i then c else b.data j :=
  Function.update_apply ..

@[simp] theorem set_same (i : Int) : (b.set i c).data i = c := Function.update_self ..

theorem set_ne {i j : Int} (h : j ≠ i) : (b.set i c).data j = b.data j := Function.update_of_ne h ..

end Buf

/-- From `b` to `b'` the characters of `t` are put at `o`, and nothing else is
changed but, perhaps, the element behind them. -/
structure Puts (t : List Byte) (o : Int) (b b' : Buf) : Prop where
  inside : ∀ i (hi : i < t.length), b'.data (o + i) = t[i] ∧ o + i ∈ b'.written
  outside : ∀ j, j < o ∨ o + t.length < j → b'.data j = b.data j
  written : ∀ j ∈ b'.written, j ∈ b.written ∨ o ≤ j ∧ j ≤ o + t.length
  mono : ∀ j ∈ b.written, j ∈ b'.written

namespace Puts

variable {t t' : List Byte} {o : Int} {b b' b'' : Buf}

theorem nil (o : Int) (b : Buf) : Puts [] o b b where
  inside i hi := by cases hi
  outside _ _ := rfl
  written _ hj := .inl hj
  mono _ hj := hj

theorem singleton (c : Byte) (o : Int) (b : Buf) : Puts [c] o b (b.set o c) where
  inside i hi := by
    cases Nat.lt_one_iff.mp hi
    exact ⟨by simp, by simp [Buf.set]⟩
  outside j hj := b.set_ne c (by simp at hj; omega)
  written j hj := by
    cases hj with
    | head => exact .inr ⟨Int.le_refl o, by simp⟩
    | tail _ hj => exact .inl hj
  mono _ hj := .tail _ hj

theorem append (h : Puts t o b b') (h' : Puts t' (o + t.length) b' b'') :
    Puts (t ++ t') o b b'' where
  inside i hi := by
    by_cases hl : i < t.length
    · obtain ⟨hd, hw⟩ := h.inside i hl
      rw [List.getElem_append_left hl, h'.outside _ (.inl (by omega))]
      exact ⟨hd, h'.mono _ hw⟩
    · rw [List.length_append] at hi
      have he : o + t.length + (i - t.length : Nat) = o + i := by omega
      rw [List.getElem_append_right (Nat.le_of_not_lt hl), ← he]
      exact h'.inside (i - t.length) (by omega)
  outside j hj := by
    rw [List.length_append] at hj
    rw [h'.outside j (by omega), h.outside j (by omega)]
  written j hj := by
    rw [List.length_append]
    obtain hj | hj := h'.written j hj
    · obtain hj | hj := h.written j hj
      · exact .inl hj
      · exact .inr ⟨hj.1, by omega⟩
    · exact .inr ⟨by omega, by omega⟩
  mono j hj := h'.mono j (h.mono j hj)

theorem cons {c : Byte} (h : Puts t (o + 1) (b.set o c) b') : Puts (c :: t) o b b' :=
  (singleton c o b).append h

theorem terminate (h : Puts t o b b') (c : Byte) : Puts t o b (b'.set (o + t.length) c) where
  inside i hi := ⟨(b'.set_ne c (by omega)).trans (h.inside i hi).1, .tail _ (h.inside i hi).2⟩
  outside j hj := (b'.set_ne c (by omega)).trans (h.outside j hj)
  written j hj := by
    cases hj with
    | head => exact .inr ⟨by omega, Int.le_refl _⟩
    | tail _ hj => exact h.written j hj
  mono j hj := .tail _ (h.mono j hj)

theorem spells (h : Puts t 0 b b') (hne : ∀ c ∈ t, c ≠ 0) :
    Spells (fun i => (b'.set t.length 0).data i) t := by
  refine Spells.of_getElem (fun i hi => ?_) (Buf.set_same ..) hne
  rw [Buf.set_ne _ _ (by omega), ← (h.inside i hi).1, Int.zero_add]

end Puts

end LinuxCpu.CString
