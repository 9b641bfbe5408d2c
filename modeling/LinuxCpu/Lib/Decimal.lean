import LinuxCpu.Lib.CString
import Mathlib.Data.Nat.Digits.Lemmas

namespace LinuxCpu.Decimal

open CString

def digit (d : Nat) : Byte := BitVec.ofNat 8 (d + 48)

def decimal (n : Nat) : List Byte :=
  if n = 0 then [digit 0] else ((Nat.digits 10 n).map digit).reverse

def decimalInt (n : Int) : List Byte :=
  if n < 0 then 0x2d :: decimal n.natAbs else decimal n.natAbs

theorem toNat_digit {d : Nat} (h : d < 10) : (digit d).toNat = d + 48 := by
  rw [digit, BitVec.toNat_ofNat]
  omega

theorem digit_ne_zero {d : Nat} (h : d < 10) : digit d ≠ 0 := by
  intro h0
  have := toNat_digit h
  rw [h0] at this
  cases this

theorem exists_digit_of_mem {n : Nat} {c : Byte} (h : c ∈ decimal n) : ∃ d < 10, c = digit d := by
  rw [decimal] at h
  split_ifs at h with h0
  · exact ⟨0, by decide, List.mem_singleton.mp h⟩
  · obtain ⟨d, hd, rfl⟩ := List.mem_map.mp (List.mem_reverse.mp h)
    exact ⟨d, Nat.digits_lt_base (by decide) hd, rfl⟩

theorem ne_zero_of_mem_decimal {n : Nat} {c : Byte} (h : c ∈ decimal n) : c ≠ 0 := by
  obtain ⟨d, hd, rfl⟩ := exists_digit_of_mem h
  exact digit_ne_zero hd

theorem ne_zero_of_mem_decimalInt {n : Int} {c : Byte} (h : c ∈ decimalInt n) : c ≠ 0 := by
  rw [decimalInt] at h
  split_ifs at h
  · cases h with
    | head => decide
    | tail _ h => exact ne_zero_of_mem_decimal h
  · exact ne_zero_of_mem_decimal h

theorem length_digits_le {n k : Nat} (h : n < 10 ^ k) : (Nat.digits 10 n).length ≤ k :=
  (Nat.digits_length_le_iff (by decide) n).mpr h

theorem length_decimal_le {n k : Nat} (h : n < 10 ^ k) (hk : 0 < k) : (decimal n).length ≤ k := by
  rw [decimal]
  split_ifs
  · exact hk
  · rw [List.length_reverse, List.length_map]
    exact length_digits_le h

theorem length_decimalInt_le {n : Int} {k : Nat} (h : n.natAbs < 10 ^ k) (hk : 0 < k) :
    (decimalInt n).length ≤ k + 1 := by
  have hl := length_decimal_le h hk
  rw [decimalInt]
  split_ifs
  · exact Nat.succ_le_succ hl
  · exact Nat.le_succ_of_le hl

theorem decimal_of_lt {n : Nat} (h : n < 10) : decimal n = [digit n] := by
  rw [decimal]
  split_ifs with h0
  · rw [h0]
  · rw [Nat.digits_of_lt 10 n h0 h]
    rfl

theorem decimal_of_le {n : Nat} (h : 10 ≤ n) :
    decimal n = decimal (n / 10) ++ [digit (n % 10)] := by
  rw [decimal, decimal, if_neg (by omega), if_neg (by omega),
    Nat.digits_def' (by decide) (by omega), List.map_cons, List.reverse_cons]

def valueFrom (x : Nat) (s : List Byte) : Nat := s.foldl (fun x c => 10 * x + (c.toNat - 48)) x

def value (s : List Byte) : Nat := valueFrom 0 s

theorem valueFrom_cons (x : Nat) {d : Nat} (h : d < 10) (s : List Byte) :
    valueFrom x (digit d :: s) = valueFrom (10 * x + d) s := by
  rw [valueFrom, List.foldl_cons, toNat_digit h, Nat.add_sub_cancel]
  rfl

theorem le_valueFrom (x : Nat) (s : List Byte) : x ≤ valueFrom x s := by
  induction s generalizing x with
  | nil => exact Nat.le_refl x
  | cons c s ih => exact Nat.le_trans (by omega) (ih (10 * x + (c.toNat - 48)))

theorem value_append_digit (s : List Byte) {d : Nat} (h : d < 10) :
    value (s ++ [digit d]) = 10 * value s + d := by
  rw [value, valueFrom, List.foldl_append, List.foldl_cons, toNat_digit h, Nat.add_sub_cancel]
  rfl

theorem value_decimal (n : Nat) : value (decimal n) = n := by
  induction n using Nat.strong_induction_on with
  | _ n ih =>
    by_cases h : n < 10
    · rw [decimal_of_lt h]
      exact value_append_digit [] h |>.trans (Nat.zero_add n)
    · rw [decimal_of_le (Nat.le_of_not_lt h), value_append_digit _ (Nat.mod_lt n (by decide)),
        ih (n / 10) (by omega)]
      omega

theorem decimal_injective : Function.Injective decimal :=
  Function.LeftInverse.injective value_decimal

theorem decimal_ne_nil (n : Nat) : decimal n ≠ [] := by
  by_cases h : n < 10
  · rw [decimal_of_lt h]
    exact List.cons_ne_nil _ _
  · rw [decimal_of_le (Nat.le_of_not_lt h)]
    exact List.append_ne_nil_of_right_ne_nil _ (List.cons_ne_nil _ _)

theorem decimalInt_ne_nil (n : Int) : decimalInt n ≠ [] := by
  rw [decimalInt]
  split_ifs
  · exact List.cons_ne_nil _ _
  · exact decimal_ne_nil _

theorem minus_not_mem_decimal (n : Nat) : 0x2d ∉ decimal n := by
  intro h
  obtain ⟨d, hd, hc⟩ := exists_digit_of_mem h
  have hc := congrArg BitVec.toNat hc
  rw [toNat_digit hd] at hc
  have h2d : (0x2d : Byte).toNat = 45 := rfl
  omega

theorem decimalInt_injective : Function.Injective decimalInt := by
  intro m n h
  rw [decimalInt, decimalInt] at h
  split_ifs at h with hm hn hn
  · have := decimal_injective (List.cons.inj h).2
    omega
  · exact absurd (h ▸ List.mem_cons_self) (minus_not_mem_decimal n.natAbs)
  · exact absurd (h ▸ List.mem_cons_self) (minus_not_mem_decimal m.natAbs)
  · have := decimal_injective h
    omega

end LinuxCpu.Decimal
