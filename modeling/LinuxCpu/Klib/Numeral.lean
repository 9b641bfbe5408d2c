import LinuxCpu.Klib.Stdio
import LinuxCpu.Lib.Decimal

namespace LinuxCpu.Klib

open CString Decimal

theorem swapStr_eq (fuel : Nat) (str : Buf) {l r : Int} (hl : 0 ≤ l) (hlr : l ≤ r + 2)
    (hr : r < 2147483647) (hf : r + 2 < l + fuel) :
    ∃ s, swapStr fuel str l r = .ok s ∧ (∀ k, l ≤ k → k ≤ r → s.data k = str.data (l + r - k)) ∧
      ∀ k, k < l ∨ r < k → s.data k = str.data k := by
  induction fuel generalizing str l r with
  | zero => exact absurd hf (by omega)
  | succ fuel ih =>
    rw [swapStr]
    by_cases h : l ≤ r
    · rw [if_pos h, int_eq (by omega), int_eq (by omega)]
      obtain ⟨s, hs, hin, hout⟩ := ih ((str.set l (str.data r)).set r (str.data l)) (l := l + 1)
        (r := r - 1) (by omega) (by omega) (by omega) (by omega)
      refine ⟨s, hs, fun k hk hk' => ?_, fun k hk => ?_⟩
      · by_cases hkl : k = l ∨ k = r
        · rw [hout k (by omega), Buf.set_data, Buf.set_data]
          split_ifs <;> congr 1 <;> omega
        · rw [hin k (by omega) (by omega), Buf.set_ne _ _ (by omega), Buf.set_ne _ _ (by omega)]
          congr 1
          omega
      · rw [hout k (by omega), Buf.set_ne _ _ (by omega), Buf.set_ne _ _ (by omega)]
    · exact ⟨str, if_neg h, fun k hk hk' => absurd (Int.le_trans hk hk') h, fun k _ => rfl⟩

theorem intDigits_eq (fuel : Nat) {n : Nat} (str : Buf) {i : Int} (hi : 0 ≤ i)
    (hm : i + (Nat.digits 10 n).length ≤ 2147483647) (hf : (Nat.digits 10 n).length < fuel) :
    ∃ s, intDigits fuel str i n = .ok (s, i + (Nat.digits 10 n).length) ∧
      Puts ((Nat.digits 10 n).map digit) i str s := by
  induction fuel generalizing str i n with
  | zero => cases hf
  | succ fuel ih =>
    by_cases hn : n = 0
    · cases hn
      exact ⟨str, by simp [intDigits], Puts.nil i str⟩
    · rw [Nat.digits_def' (by decide) (Nat.pos_of_ne_zero hn)] at hm hf ⊢
      rw [List.length_cons] at hm hf
      have hd : ((n : Int).tmod 10 + 48) = (n % 10 + 48 : Nat) := rfl
      have hlt : n % 10 < 10 := Nat.mod_lt n (by decide)
      obtain ⟨s, hs, hput⟩ := ih (str.set i (digit (n % 10))) (i := i + 1) (n := n / 10) (by omega)
        (by omega) (by omega)
      refine ⟨s, ?_, hput.cons⟩
      rw [intDigits, if_pos (by omega), hd, int_eq (by omega), int_eq (by omega)]
      change intDigits fuel (str.set i (BitVec.ofInt 8 (n % 10 + 48 : Nat))) (i + 1)
        (n / 10 : Nat) = _
      rw [BitVec.ofInt_natCast, ← digit, hs, List.length_cons]
      congr 2
      omega

theorem digit_mod (num : BitVec 32) :
    (num % 10 + 48).setWidth 8 = digit (num.toNat % 10) := by
  apply BitVec.eq_of_toNat_eq
  have h10 : (10 : BitVec 32).toNat = 10 := rfl
  have h48 : (48 : BitVec 32).toNat = 48 := rfl
  rw [digit, BitVec.toNat_setWidth, BitVec.toNat_add, BitVec.toNat_umod, BitVec.toNat_ofNat, h10,
    h48]
  omega

theorem uintDigits_eq (fuel : Nat) (str : Buf) {i : Int} (num : BitVec 32) (hi : 0 ≤ i)
    (hm : i + (Nat.digits 10 num.toNat).length ≤ 2147483647)
    (hf : (Nat.digits 10 num.toNat).length < fuel) :
    ∃ s, uintDigits fuel str i num = .ok (s, i + (Nat.digits 10 num.toNat).length) ∧
      Puts ((Nat.digits 10 num.toNat).map digit) i str s := by
  induction fuel generalizing str i num with
  | zero => cases hf
  | succ fuel ih =>
    by_cases hn : num = 0
    · cases hn
      exact ⟨str, by simp [uintDigits], Puts.nil i str⟩
    · have hpos : 0 < num.toNat := Nat.pos_of_ne_zero fun h => hn (BitVec.eq_of_toNat_eq h)
      have hdiv : (num / 10).toNat = num.toNat / 10 := BitVec.toNat_udiv
      rw [Nat.digits_def' (by decide) hpos, List.length_cons] at hm hf
      rw [← hdiv] at hm hf
      obtain ⟨s, hs, hput⟩ := ih (str.set i (digit (num.toNat % 10))) (i := i + 1) (num / 10)
        (by omega) (by omega) (by omega)
      rw [Nat.digits_def' (by decide) hpos, ← hdiv]
      refine ⟨s, ?_, hput.cons⟩
      rw [uintDigits, if_pos (show num > 0 from BitVec.lt_def.mpr hpos), int_eq (by omega),
        digit_mod]
      change uintDigits fuel (str.set i (digit (num.toNat % 10))) (i + 1) (num / 10) = _
      rw [hs, List.length_cons]
      congr 2
      omega

theorem swapStr_spells (fuel : Nat) {b str : Buf} (sgn : List Byte) {ds : List Byte}
    (hput : Puts (sgn ++ ds) 0 b str) (hne : ∀ c ∈ sgn ++ ds.reverse, c ≠ 0)
    (hd : 0 < ds.length) (hm : sgn.length + ds.length ≤ 2147483647)
    (hf : sgn.length + ds.length + 1 < sgn.length + fuel) :
    ∃ s, (do
        let r ← int ((sgn.length + ds.length : Nat) - 1)
        swapStr fuel (str.set (sgn.length + ds.length : Nat) 0) sgn.length r) = .ok s ∧
      Spells (fun i => s.data i) (sgn ++ ds.reverse) := by
  rw [int_eq (by omega)]
  obtain ⟨s, hs, hin, hout⟩ := swapStr_eq fuel
    (str.set (sgn.length + ds.length : Nat) 0) (l := sgn.length)
    (r := (sgn.length + ds.length : Nat) - 1) (by omega) (by omega) (by omega) (by omega)
  have hdata : ∀ i (hi : i < (sgn ++ ds).length),
      (str.set (sgn.length + ds.length : Nat) 0).data i = (sgn ++ ds)[i] := by
    intro i hi
    rw [List.length_append] at hi
    rw [Buf.set_ne _ _ (by omega), ← (hput.inside i (by rwa [List.length_append])).1, Int.zero_add]
  refine ⟨s, hs, Spells.of_getElem (fun i hi => ?_) ?_ hne⟩
  · rw [List.length_append, List.length_reverse] at hi
    by_cases hl : i < sgn.length
    · rw [hout i (.inl (by omega)), hdata i (by rw [List.length_append]; omega),
        List.getElem_append_left hl, List.getElem_append_left hl]
    · have he : (sgn.length : Int) + ((sgn.length + ds.length : Nat) - 1) - i =
          (sgn.length + (ds.length - 1 - (i - sgn.length)) : Nat) := by omega
      rw [hin i (by omega) (by omega), he, hdata _ (by rw [List.length_append]; omega),
        List.getElem_append_right (by omega), List.getElem_append_right (by omega),
        List.getElem_reverse]
      congr 1
      omega
  · rw [List.length_append, List.length_reverse, hout _ (.inr (by omega)), Buf.set_same]

theorem length_digits_lt (num : BitVec 32) : (Nat.digits 10 num.toNat).length ≤ 10 :=
  length_digits_le (Nat.lt_trans num.isLt (by decide))

theorem uintToStr_eq {fuel : Nat} (hf : 13 ≤ fuel) (num : BitVec 32) :
    ∃ s, uintToStr fuel .zeros num = .ok s ∧ Spells (fun i => s.data i) (decimal num.toNat) := by
  by_cases h0 : num = 0
  · cases h0
    exact ⟨_, rfl, rfl, by decide, rfl⟩
  · have hn : num.toNat ≠ 0 := fun h => h0 (BitVec.eq_of_toNat_eq h)
    have hl := length_digits_lt num
    have hpos : 0 < (Nat.digits 10 num.toNat).length :=
      List.length_pos_iff.mpr (Nat.digits_ne_nil_iff_ne_zero.mpr hn)
    obtain ⟨str, hs, hput⟩ := uintDigits_eq fuel .zeros (i := 0) num (by decide)
      (by omega) (by omega)
    have hdec : decimal num.toNat = ((Nat.digits 10 num.toNat).map digit).reverse := if_neg hn
    obtain ⟨s, hs', hsp⟩ := swapStr_spells fuel [] hput
      (fun c hc => ne_zero_of_mem_decimal (hdec ▸ hc)) (by simpa using hpos) (by simp; omega)
      (by simp; omega)
    refine ⟨s, ?_, hdec ▸ hsp⟩
    rw [uintToStr, if_neg h0, hs, ← hs']
    simp [ok_bind]

theorem intDigits_spells {fuel n : Nat} {str : Buf} (sgn : List Byte) (hput : Puts sgn 0 .zeros str)
    (hs0 : ∀ c ∈ sgn, c ≠ 0) (hl : sgn.length ≤ 1) (hn : n ≠ 0) (hn' : n < 10 ^ 10)
    (hf : 13 ≤ fuel) :
    ∃ s, (do
        let (str, i) ← intDigits fuel str sgn.length n
        let r ← int (i - 1)
        swapStr fuel (str.set i 0) sgn.length r) = .ok s ∧
      Spells (fun i => s.data i) (sgn ++ decimal n) := by
  have hlen := length_digits_le hn'
  have hpos : 0 < (Nat.digits 10 n).length :=
    List.length_pos_iff.mpr (Nat.digits_ne_nil_iff_ne_zero.mpr hn)
  have hdec : decimal n = ((Nat.digits 10 n).map digit).reverse := if_neg hn
  obtain ⟨str', hs', hput'⟩ := intDigits_eq fuel str (i := sgn.length) (n := n) (by omega)
    (by omega) (by omega)
  obtain ⟨s, hs, hsp⟩ := swapStr_spells fuel sgn
    (hput.append (by rw [Int.zero_add]; exact hput'))
    (fun c hc => by
      obtain hc | hc := List.mem_append.mp hc
      · exact hs0 c hc
      · exact ne_zero_of_mem_decimal (hdec ▸ hc))
    (by rw [List.length_map]; exact hpos) (by rw [List.length_map]; omega)
    (by rw [List.length_map]; omega)
  refine ⟨s, ?_, hdec ▸ hsp⟩
  rw [hs', ← hs, List.length_map]
  rfl

theorem putAll_puts (str : Buf) (i : Int) (cs : List Byte) : Puts cs i str (putAll str i cs) := by
  induction cs generalizing str i with
  | nil => exact Puts.nil i str
  | cons c cs ih => exact (ih (str.set i c) (i + 1)).cons

theorem intToStr_eq {fuel : Nat} (hf : 13 ≤ fuel) (num : Int) (h : intMin ≤ num ∧ num ≤ intMax) :
    ∃ s, intToStr fuel .zeros num = .ok s ∧ Spells (fun i => s.data i) (decimalInt num) := by
  by_cases hmin : num = intMin
  · cases hmin
    refine ⟨_, rfl, ?_⟩
    exact (putAll_puts .zeros 0 (decimalInt intMin)).spells fun c hc => ne_zero_of_mem_decimalInt hc
  · have hM : intMax = 2147483647 := rfl
    have hm : intMin = -2147483648 := rfl
    rw [intToStr, if_neg hmin]
    by_cases h0 : num = 0
    · cases h0
      obtain ⟨s, hs, hsp⟩ := swapStr_spells fuel []
        (Puts.singleton (ch '0') 0 .zeros) (by decide) (by decide) (by decide)
        (by simp; omega)
      refine ⟨s, ?_, hsp⟩
      rw [← hs, if_pos rfl]
      cases fuel with
      | zero => cases hf
      | succ fuel => rfl
    · by_cases hneg : num < 0
      · obtain ⟨s, hs, hsp⟩ := intDigits_spells (n := num.natAbs) [ch '-']
          (Puts.singleton (ch '-') 0 .zeros) (by decide) (by decide) (by omega) (by omega) hf
        refine ⟨s, ?_, ?_⟩
        · rw [if_neg h0, if_pos hneg, int_eq (by omega),
            show -num = (num.natAbs : Int) by omega, ← hs]
          rfl
        · rw [decimalInt, if_pos hneg]
          exact hsp
      · obtain ⟨s, hs, hsp⟩ := intDigits_spells (n := num.natAbs) []
          (Puts.nil 0 .zeros) (by decide) (by decide) (by omega) (by omega) hf
        refine ⟨s, ?_, ?_⟩
        · rw [if_neg h0, if_neg hneg, ← hs, show (num.natAbs : Int) = num by omega]
          rfl
        · rw [decimalInt, if_neg hneg]
          exact hsp

end LinuxCpu.Klib
