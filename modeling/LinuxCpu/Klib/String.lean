import LinuxCpu.Lib.CString

/-! `strlen` and `strcpy` of klib, and the ways a C function of the model stops
without a result. -/

namespace LinuxCpu.Klib

open CString

/-- The `fuel` of a loop is spent, an `int` leaves its range, or an assertion
fails. -/
inductive Stop | fuel | overflow | assertion
  deriving DecidableEq

theorem ok_bind (a : α) (f : α → Except Stop β) : (Except.ok a >>= f) = f a := rfl

theorem exists_of_bind {x : Except Stop α} {f : α → Except Stop β} {b : β}
    (h : (x >>= f) = .ok b) : ∃ a, x = .ok a ∧ f a = .ok b := by
  cases x with
  | error e => cases h
  | ok a => exact ⟨a, rfl, h⟩

def intMin : Int := -2147483648
def intMax : Int := 2147483647

def int (x : Int) : Except Stop Int :=
  if intMin ≤ x ∧ x ≤ intMax then .ok x else .error .overflow

theorem int_eq {x : Int} (h : -2147483648 ≤ x ∧ x ≤ 2147483647) : int x = .ok x := if_pos h

theorem int_of_lt {x : Int} (h : 2147483647 < x) : int x = .error .overflow :=
  if_neg fun hx => absurd hx.2 (Int.not_le.mpr h)

def ch (c : Char) : Byte := BitVec.ofNat 8 c.toNat

/-- A `char *`, indexed by a `size_t` of `w` bits. -/
abbrev Chars (w : Nat) := BitVec w → Byte

section Strings

variable (s : Chars w)

/-- `while(s[i] != '\0') i++;` -/
def strlenFrom : Nat → BitVec w → Except Stop (BitVec w)
  | 0, _ => .error .fuel
  | fuel + 1, i => if s i ≠ 0 then strlenFrom fuel (i + 1) else .ok i

def strlen (fuel : Nat) : Except Stop (BitVec w) := strlenFrom s fuel 0

/-- `for( ; i < len; ++i) dst[i] = src[i]; dst[i] = '\0';`, with the turns left
of the loop. -/
def strcpyFrom (dst : Int) : Nat → BitVec w → Buf → Buf
  | 0, i, b => b.set (dst + i.toNat) 0
  | n + 1, i, b => strcpyFrom dst n (i + 1) (b.set (dst + i.toNat) (s i))

/-- `dst` is an index of the array `b`; `src` is `none` for a null pointer. -/
def strcpy (fuel : Nat) (b : Buf) (dst : Int) (src : Option (Chars w)) : Except Stop Buf :=
  match src with
  | none => .error .assertion
  | some src => do
    let len ← strlen src fuel
    return strcpyFrom src dst len.toNat 0 b

end Strings

abbrev Chars.Spells (s : Chars w) (t : List Byte) : Prop :=
  CString.Spells (fun i => s (BitVec.ofNat w i)) t

variable {s : Chars w} {t : List Byte}

theorem ofNat_succ (i : Nat) : BitVec.ofNat w i + 1 = BitVec.ofNat w (i + 1) := by
  rw [BitVec.ofNat_add]
  rfl

theorem toNat_ofNat_of_le {n : BitVec w} {i : Nat} (h : i ≤ n.toNat) :
    (BitVec.ofNat w i).toNat = i := by
  rw [BitVec.toNat_ofNat, Nat.mod_eq_of_lt (Nat.lt_of_le_of_lt h n.isLt)]

theorem ofNat_lt_iff {n : BitVec w} {i : Nat} (h : i ≤ n.toNat) :
    BitVec.ofNat w i < n ↔ i < n.toNat := by
  rw [BitVec.lt_def, toNat_ofNat_of_le h]

theorem ofNat_eq_iff {n : BitVec w} {i : Nat} (h : i ≤ n.toNat) :
    BitVec.ofNat w i = n ↔ i = n.toNat := by
  rw [← BitVec.toNat_inj, toNat_ofNat_of_le h]

theorem spells_succ {i : Nat} (h : CString.Spells (fun j => s (BitVec.ofNat w (i + (j + 1)))) t) :
    CString.Spells (fun j => s (BitVec.ofNat w (i + 1 + j))) t := by
  simpa only [Nat.add_assoc, Nat.add_comm 1] using h

theorem strlenFrom_eq {fuel : Nat} (hf : t.length < fuel) (i : Nat)
    (h : CString.Spells (fun j => s (BitVec.ofNat w (i + j))) t) :
    strlenFrom s fuel (BitVec.ofNat w i) = .ok (BitVec.ofNat w (i + t.length)) := by
  induction t generalizing fuel i with
  | nil =>
    cases fuel with
    | zero => cases hf
    | succ fuel => exact if_neg (not_not_intro h)
  | cons c t ih =>
    cases fuel with
    | zero => cases hf
    | succ fuel =>
      obtain ⟨h0, hc, ht⟩ := h
      have h0 : s (BitVec.ofNat w i) = c := h0
      rw [strlenFrom, h0, if_pos hc, ofNat_succ,
        ih (Nat.lt_of_succ_lt_succ hf) (i + 1) (spells_succ ht), List.length_cons,
        Nat.add_right_comm, Nat.add_assoc]

theorem strlen_eq {fuel : Nat} (h : s.Spells t) (hf : t.length < fuel) :
    strlen s fuel = .ok (BitVec.ofNat w t.length) := by
  have h0 := strlenFrom_eq (s := s) hf 0 (by simpa only [Nat.zero_add] using h)
  rwa [Nat.zero_add] at h0

theorem exists_spells_of_strlenFrom {fuel i : Nat} {n : BitVec w}
    (h : strlenFrom s fuel (BitVec.ofNat w i) = .ok n) :
    ∃ t, CString.Spells (fun j => s (BitVec.ofNat w (i + j))) t ∧ t.length < fuel := by
  induction fuel generalizing i with
  | zero => cases h
  | succ fuel ih =>
    rw [strlenFrom] at h
    by_cases hc : s (BitVec.ofNat w i) = 0
    · exact ⟨[], hc, Nat.succ_pos fuel⟩
    · rw [if_pos hc, ofNat_succ] at h
      obtain ⟨t, ht, hl⟩ := ih h
      refine ⟨s (BitVec.ofNat w i) :: t, ⟨rfl, hc, ?_⟩, Nat.succ_lt_succ hl⟩
      simpa only [Nat.add_assoc, Nat.add_comm 1] using ht

theorem exists_spells_of_strlen {fuel : Nat} {n : BitVec w} (h : strlen s fuel = .ok n) :
    ∃ t, s.Spells t ∧ t.length < fuel := by
  obtain ⟨t, ht, hl⟩ := exists_spells_of_strlenFrom (s := s) (i := 0) h
  exact ⟨t, by simpa only [Nat.zero_add] using ht, hl⟩

theorem strcpyFrom_puts (dst : Int) (b : Buf) {i : Nat} (hi : i + t.length < 2 ^ w)
    (h : CString.Spells (fun j => s (BitVec.ofNat w (i + j))) t) :
    Puts t (dst + i) b (strcpyFrom s dst t.length (BitVec.ofNat w i) b) ∧
      (strcpyFrom s dst t.length (BitVec.ofNat w i) b).data (dst + i + t.length) = 0 := by
  induction t generalizing i b with
  | nil =>
    have hi : (BitVec.ofNat w i).toNat = i := by
      rw [BitVec.toNat_ofNat, Nat.mod_eq_of_lt (by simpa using hi)]
    simp only [List.length_nil, strcpyFrom, hi]
    exact ⟨by simpa using (Puts.nil (dst + i) b).terminate 0, by simp⟩
  | cons c t ih =>
    obtain ⟨h0, -, ht⟩ := h
    have h0 : s (BitVec.ofNat w i) = c := h0
    have hi' : (BitVec.ofNat w i).toNat = i := by
      rw [BitVec.toNat_ofNat, Nat.mod_eq_of_lt (Nat.lt_of_le_of_lt (Nat.le_add_right ..) hi)]
    rw [List.length_cons, ← Nat.succ_add_eq_add_succ] at hi
    obtain ⟨hput, hnul⟩ := ih (b.set (dst + i) c) hi (spells_succ ht)
    rw [List.length_cons, strcpyFrom, h0, hi', ofNat_succ]
    have he : dst + ((i + 1 : Nat) : Int) = dst + i + 1 := by omega
    rw [he] at hput hnul
    exact ⟨hput.cons, by rw [← hnul]; congr 1; omega⟩

theorem strcpy_eq {fuel : Nat} (b : Buf) (dst : Int) (h : s.Spells t) (hf : t.length < fuel) :
    ∃ b', strcpy fuel b dst (some s) = .ok b' ∧ Puts t dst b b' ∧
      b'.data (dst + t.length) = 0 := by
  have hl : (BitVec.ofNat w t.length).toNat = t.length := by
    rw [BitVec.toNat_ofNat, Nat.mod_eq_of_lt (length_lt_of_spells h)]
  have hput := strcpyFrom_puts (s := s) (i := 0) dst b
    (by simpa using length_lt_of_spells h) (by simpa using h)
  refine ⟨strcpyFrom s dst t.length 0 b, ?_, by simpa using hput.1, by simpa using hput.2⟩
  rw [strcpy, strlen_eq h hf]
  change Except.ok (strcpyFrom s dst (BitVec.ofNat w t.length).toNat 0 b) = _
  rw [hl]

end LinuxCpu.Klib
