import LinuxCpu.Klib.VsprintfCorrect

/-! `atoi` of klib, and whether it reads what `sprintf` has printed. -/

namespace LinuxCpu.Klib

open CString Decimal

section Atoi

variable (nptr : Nat → Byte)

/-- `while (*nptr == ' ') { nptr ++; }` -/
def atoiSpaces : Nat → Nat → Except Stop Nat
  | 0, _ => .error .fuel
  | fuel + 1, p => if nptr p = ch ' ' then atoiSpaces fuel (p + 1) else .ok p

/-- `while (*nptr >= '0' && *nptr <= '9')` -/
def atoiDigits : Nat → Nat → Int → Except Stop Int
  | 0, _, _ => .error .fuel
  | fuel + 1, p, x =>
    if ch '0' ≤ nptr p ∧ nptr p ≤ ch '9' then do
      let x ← int (x * 10)
      let x ← int (x + (nptr p).toNat)
      let x ← int (x - 48)
      atoiDigits fuel (p + 1) x
    else .ok x

def atoi (fuel : Nat) : Except Stop Int := do
  let p ← atoiSpaces nptr fuel 0
  atoiDigits nptr fuel p 0

end Atoi

variable {nptr : Nat → Byte}

theorem atoiDigits_digit {fuel p x d : Nat} (hd : d < 10) (h : nptr p = digit d) :
    atoiDigits nptr (fuel + 1) p x =
      if 10 * x + d + 48 ≤ 2147483647 then atoiDigits nptr fuel (p + 1) (10 * x + d : Nat)
      else .error .overflow := by
  have h9 : ch '0' ≤ digit d ∧ digit d ≤ ch '9' := by
    rw [BitVec.le_def, BitVec.le_def, toNat_digit hd]
    exact ⟨Nat.le_add_left 48 d, Nat.add_le_add_right (Nat.le_of_lt_succ hd) 48⟩
  rw [atoiDigits, h, if_pos h9, toNat_digit hd]
  by_cases hx : (x : Int) * 10 ≤ 2147483647
  · rw [int_eq (by omega), ok_bind]
    by_cases hs : 10 * x + d + 48 ≤ 2147483647
    · rw [if_pos hs, int_eq (by omega), ok_bind, int_eq (by omega), ok_bind]
      congr 1
      omega
    · rw [if_neg hs, int_of_lt (by omega)]
      rfl
  · rw [int_of_lt (by omega), if_neg (by omega)]
    rfl

theorem atoiDigits_eq {ds : List Byte} {fuel p x : Nat} (hd : ∀ c ∈ ds, ∃ d < 10, c = digit d)
    (h : Spells (fun i => nptr (p + i)) ds) (hf : ds.length < fuel) :
    atoiDigits nptr fuel p x =
      if ds = [] ∨ valueFrom x ds + 48 ≤ 2147483647 then .ok (valueFrom x ds : Nat)
      else .error .overflow := by
  induction ds generalizing fuel p x with
  | nil =>
    cases fuel with
    | zero => cases hf
    | succ fuel =>
      have h0 : nptr p = 0 := h
      rw [if_pos (.inl rfl), atoiDigits, h0]
      rfl
  | cons c ds ih =>
    cases fuel with
    | zero => cases hf
    | succ fuel =>
      obtain ⟨hc, -, ht⟩ := spells_tail h
      obtain ⟨d, hlt, rfl⟩ := hd c (.head _)
      have hle := le_valueFrom (10 * x + d) ds
      rw [atoiDigits_digit hlt hc, valueFrom_cons x hlt,
        ih (fun c hc => hd c (.tail _ hc)) ht (Nat.lt_of_succ_lt_succ hf)]
      by_cases hn : ds = []
      · cases hn
        simp only [valueFrom, List.foldl_nil, true_or, if_true, List.cons_ne_nil, false_or]
      · simp only [hn, List.cons_ne_nil, false_or]
        by_cases hx : valueFrom (10 * x + d) ds + 48 ≤ 2147483647
        · rw [if_pos (by omega)]
        · rw [if_neg hx, ite_self]

theorem atoi_decimal {n fuel : Nat} (h : Spells nptr (decimal n))
    (hf : (decimal n).length < fuel) :
    atoi nptr fuel = if n + 48 ≤ 2147483647 then .ok (n : Int) else .error .overflow := by
  have h0 : atoiSpaces nptr fuel 0 = .ok 0 := by
    cases fuel with
    | zero => cases hf
    | succ fuel =>
      apply if_neg
      intro hsp
      have hpos := List.length_pos_iff.mpr (decimal_ne_nil n)
      obtain ⟨d, hd, hc⟩ := exists_digit_of_mem (List.getElem_mem hpos)
      have hc := congrArg BitVec.toNat ((h.getElem hpos).symm.trans hsp |>.symm.trans hc)
      rw [toNat_digit hd] at hc
      have h32 : (ch ' ').toNat = 32 := rfl
      omega
  have hd := atoiDigits_eq (p := 0) (x := 0) (fun c => exists_digit_of_mem)
    (by simpa only [Nat.zero_add] using h) hf
  rw [atoi, h0, ok_bind]
  apply hd.trans
  simp only [decimal_ne_nil, false_or]
  rw [show valueFrom 0 (decimal n) = n from value_decimal n]

theorem atoi_minus {s : List Byte} {fuel : Nat} (h : Spells nptr (0x2d :: s)) (hf : 0 < fuel) :
    atoi nptr fuel = .ok 0 := by
  cases fuel with
  | zero => cases hf
  | succ fuel =>
    have h0 : nptr 0 = 0x2d := h.1
    rw [atoi, atoiSpaces, h0]
    change atoiDigits nptr (fuel + 1) 0 0 = _
    rw [atoiDigits, h0]
    rfl

section RoundTrip

variable {abi : Abi}

theorem Rendered.spells {out : Int → Byte} {s : List Byte} {ap k : Nat} {st : Vs}
    (h : Rendered out s ap k st) (hne : ∀ b ∈ s, b ≠ 0) : Spells (fun i => st.out.data i) s :=
  Spells.of_getElem h.text h.nul hne

theorem sprintf_d (c : Caller abi) (out : Int → Byte) :
    Renders c (literal [ch '%', ch 'd']) out (decimalInt (vaInt c 2).1.toInt) 2 1 := by
  have hsp : Spells (literal [ch '%', ch 'd']) [ch '%', ch 'd'] := literal_spells (by decide)
  have hp : parse [ch '%', ch 'd'] = some [.conv .d] := by decide
  have hfetch : FetchesAll c [.conv .d] 2 [decimalInt (vaInt c 2).1.toInt] 3 := .cons .d .nil
  have hl := length_decimalInt_le (natAbs_toInt_lt (vaInt c 2).1) (by decide)
  have hrend := hfetch.renders hsp hp ?_ out
  · rwa [List.flatten_singleton] at hrend
  · rw [List.flatten_singleton]
    omega

def atoiOf (n : Int) : Except Stop Int :=
  if n < 0 then .ok 0 else if n ≤ 2147483599 then .ok n else .error .overflow

theorem atoi_decimalInt {nptr : Nat → Byte} {n : Int} {fuel : Nat} (h : Spells nptr (decimalInt n))
    (hf : (decimalInt n).length < fuel) : atoi nptr fuel = atoiOf n := by
  rw [decimalInt] at h hf
  rw [atoiOf]
  by_cases hn : n < 0
  · rw [if_pos hn] at h hf ⊢
    exact atoi_minus h (Nat.zero_lt_of_lt hf)
  · rw [if_neg hn] at h hf ⊢
    have hnat : (n.natAbs : Int) = n := by omega
    rw [atoi_decimal h hf, hnat]
    split_ifs <;> first | rfl | omega

theorem atoi_sprintf_d (c : Caller abi) (out : Int → Byte) :
    ∃ N, ∀ fuel ≥ N, ∃ st reads,
      sprintf c (literal [ch '%', ch 'd']) fuel out = .ok (st, reads) ∧
      atoi (fun i => st.out.data i) fuel = atoiOf (vaInt c 2).1.toInt := by
  obtain ⟨N, h⟩ := sprintf_d c out
  refine ⟨max N 12, fun fuel hf => ?_⟩
  obtain ⟨st, reads, hrun, hr⟩ := h fuel (by omega)
  have hl := length_decimalInt_le (natAbs_toInt_lt (vaInt c 2).1) (by decide)
  exact ⟨st, reads, hrun,
    atoi_decimalInt (hr.spells fun b => ne_zero_of_mem_decimalInt) (by omega)⟩

/-- `atoi` returns the `int` that `sprintf` has printed with `%d`, and no `int` of
the two overflows. -/
def RoundTrips (abi : Abi) (n : BitVec 32) : Prop :=
  ∀ (c : Caller abi) (out : Int → Byte), (vaInt c 2).1 = n →
    ∃ N, ∀ fuel ≥ N, ∃ st reads,
      sprintf c (literal [ch '%', ch 'd']) fuel out = .ok (st, reads) ∧
      atoi (fun i => st.out.data i) fuel = .ok n.toInt

theorem atoiOf_of_roundTrips {n : BitVec 32} (h : RoundTrips abi n) :
    atoiOf n.toInt = .ok n.toInt := by
  have hn : (n.setWidth abi.xlen).setWidth 32 = n := by
    rw [BitVec.setWidth_setWidth_of_le _ abi.le_xlen, BitVec.setWidth_eq]
  obtain ⟨N, h⟩ := h ⟨fun _ => 0, fun _ => n.setWidth abi.xlen⟩ (fun _ => 0) hn
  obtain ⟨N', h'⟩ := atoi_sprintf_d ⟨fun _ => 0, fun _ => n.setWidth abi.xlen⟩ fun _ => 0
  obtain ⟨st, reads, hrun, ha⟩ := h (max N N') (Nat.le_max_left ..)
  obtain ⟨st', reads', hrun', ha'⟩ := h' (max N N') (Nat.le_max_right ..)
  cases hrun.symm.trans hrun'
  have hv : (vaInt ⟨fun _ => 0, fun _ => n.setWidth abi.xlen⟩ 2).1 = n := hn
  rw [hv] at ha'
  exact ha'.symm.trans ha

/-- `atoi` reads what `%d` prints for the numbers from 0 up to 48 below the
largest. -/
theorem roundTrips_iff (abi : Abi) (n : BitVec 32) :
    RoundTrips abi n ↔ 0 ≤ n.toInt ∧ n.toInt ≤ 2147483599 := by
  constructor
  · intro h
    have h := atoiOf_of_roundTrips h
    rw [atoiOf] at h
    split_ifs at h with hneg hle
    · have h0 := Except.ok.inj h
      omega
    · exact ⟨Int.not_lt.mp hneg, hle⟩
  · rintro ⟨h0, hle⟩ c out rfl
    have h := atoi_sprintf_d c out
    rwa [atoiOf, if_neg (Int.not_lt.mpr h0), if_pos hle] at h

/-- The text of -1 is read as 0, and on that of the largest `int` the sum of
`atoi` overflows. -/
theorem not_roundTrips :
    (∃ N, ∀ fuel ≥ N, ∃ st reads,
      sprintf (⟨fun _ => 0, fun _ => -1⟩ : Caller .lp64) (literal [ch '%', ch 'd']) fuel
        (fun _ => 0) = .ok (st, reads) ∧ atoi (fun i => st.out.data i) fuel = .ok 0) ∧
    (∃ N, ∀ fuel ≥ N, ∃ st reads,
      sprintf (⟨fun _ => 0, fun _ => 2147483647⟩ : Caller .lp64) (literal [ch '%', ch 'd']) fuel
        (fun _ => 0) = .ok (st, reads) ∧
      atoi (fun i => st.out.data i) fuel = .error .overflow) ∧
    ¬ RoundTrips .lp64 (-1) ∧ ¬ RoundTrips .lp64 2147483647 := by
  refine ⟨atoi_sprintf_d _ _, atoi_sprintf_d _ _, fun h => ?_, fun h => ?_⟩
  · cases atoiOf_of_roundTrips h
  · cases atoiOf_of_roundTrips h

end RoundTrip

end LinuxCpu.Klib
