import LinuxCpu.Klib.String
import LinuxCpu.Lib.FirstDiff

/-! `strcmp`, `strncmp` and `memcmp` of klib. -/

namespace LinuxCpu.Klib

open CString FirstDiff

inductive PlainChar | unsigned | signed
  deriving DecidableEq

def PlainChar.value : PlainChar → Byte → Int
  | .unsigned, b => b.toNat
  | .signed, b => b.toInt

section Model

variable (char : PlainChar)

section Index

variable (s1 s2 : Chars w)

/-- `for( ; s1[i] == s2[i]; ++i)` -/
def strcmpFrom : Nat → Int → Except Stop Int
  | 0, _ => .error .fuel
  | fuel + 1, i =>
    let j := BitVec.ofInt w i
    if char.value (s1 j) = char.value (s2 j) then
      if s1 j = 0 then .ok 0
      else do
        let next ← int (i + 1)
        strcmpFrom fuel next
    else .ok (char.value (s1 j) - char.value (s2 j))

/-- `for( ; i < n && s1[i] == s2[i]; ++i)` -/
def strncmpFrom (n : BitVec w) : Nat → Int → Except Stop Int
  | 0, _ => .error .fuel
  | fuel + 1, i =>
    let j := BitVec.ofInt w i
    if j < n ∧ char.value (s1 j) = char.value (s2 j) then
      if s1 j = 0 then .ok 0
      else do
        let next ← int (i + 1)
        strncmpFrom n fuel next
    else if j = n then .ok 0
    else .ok (char.value (s1 j) - char.value (s2 j))

/-- `for(size_t i = 0; i < n; ++i)` -/
def memcmpFrom (n : BitVec w) : Nat → BitVec w → Except Stop Int
  | 0, _ => .error .fuel
  | fuel + 1, i =>
    if i < n then
      if char.value (s1 i) ≠ char.value (s2 i) then .ok (char.value (s1 i) - char.value (s2 i))
      else memcmpFrom n fuel (i + 1)
    else .ok 0

end Index

def strcmp (s1 s2 : Option (Chars w)) (fuel : Nat) : Except Stop Int :=
  match s1, s2 with
  | some s1, some s2 => strcmpFrom char s1 s2 fuel 0
  | _, _ => .error .assertion

def strncmp (s1 s2 : Option (Chars w)) (n : BitVec w) (fuel : Nat) : Except Stop Int :=
  match s1, s2 with
  | some s1, some s2 => strncmpFrom char s1 s2 n fuel 0
  | _, _ => .ok 0

def memcmp (s1 s2 : Chars w) (n : BitVec w) (fuel : Nat) : Except Stop Int :=
  memcmpFrom char s1 s2 n fuel 0

end Model

theorem PlainChar.value_injective (char : PlainChar) : Function.Injective char.value := by
  intro a b h
  cases char with
  | unsigned => exact BitVec.eq_of_toNat_eq (Int.ofNat.inj h)
  | signed => exact BitVec.toInt_inj.mp h

def block (s : Chars w) (i : Nat) : Nat → List Byte
  | 0 => []
  | n + 1 => s (BitVec.ofNat w i) :: block s (i + 1) n

theorem length_block (s : Chars w) (i n : Nat) : (block s i n).length = n := by
  induction n generalizing i with
  | zero => rfl
  | succ n ih => exact congrArg (· + 1) (ih (i + 1))

def firstDiff (char : PlainChar) (p q : List Byte) : Int :=
  char.value (p.getD (common p q) 0) - char.value (q.getD (common p q) 0)

section Loops

variable (char : PlainChar) {s1 s2 : Chars w} {fuel i k : Nat}

theorem strcmpFrom_eq
    (hsame : ∀ j < k, s1 (BitVec.ofNat w j) = s2 (BitVec.ofNat w j) ∧ s1 (BitVec.ofNat w j) ≠ 0)
    (hstop : s1 (BitVec.ofNat w k) = s2 (BitVec.ofNat w k) → s1 (BitVec.ofNat w k) = 0)
    (hi : i ≤ k) (hmax : i ≤ 2147483647) (hf : k - i < fuel) :
    strcmpFrom char s1 s2 fuel i =
      if k ≤ 2147483647 then
        .ok (char.value (s1 (BitVec.ofNat w k)) - char.value (s2 (BitVec.ofNat w k)))
      else .error .overflow := by
  induction fuel generalizing i with
  | zero => cases hf
  | succ fuel ih =>
    rw [strcmpFrom, BitVec.ofInt_natCast]
    obtain h | rfl := Nat.lt_or_eq_of_le hi
    · obtain ⟨heq, h0⟩ := hsame i h
      rw [if_pos (congrArg _ heq), if_neg h0]
      by_cases hm : i + 1 ≤ 2147483647
      · rw [int_eq (by omega), ok_bind]
        exact ih (i := i + 1) h hm (by omega)
      · rw [int_of_lt (by omega), if_neg (by omega)]
        rfl
    · rw [if_pos hmax]
      by_cases heq : s1 (BitVec.ofNat w i) = s2 (BitVec.ofNat w i)
      · rw [if_pos (congrArg _ heq), if_pos (hstop heq), heq, Int.sub_self]
      · exact if_neg fun h => heq (char.value_injective h)

theorem strncmpFrom_eq {n : BitVec w}
    (hsame : ∀ j < k, s1 (BitVec.ofNat w j) = s2 (BitVec.ofNat w j) ∧ s1 (BitVec.ofNat w j) ≠ 0)
    (hstop : k < n.toNat → s1 (BitVec.ofNat w k) = s2 (BitVec.ofNat w k) →
      s1 (BitVec.ofNat w k) = 0)
    (hk : k ≤ n.toNat) (hi : i ≤ k) (hmax : i ≤ 2147483647) (hf : k - i < fuel) :
    strncmpFrom char s1 s2 n fuel i =
      if k ≤ 2147483647 then
        .ok (if k < n.toNat then
          char.value (s1 (BitVec.ofNat w k)) - char.value (s2 (BitVec.ofNat w k)) else 0)
      else .error .overflow := by
  induction fuel generalizing i with
  | zero => cases hf
  | succ fuel ih =>
    have hlt : BitVec.ofNat w i < n ↔ i < n.toNat := ofNat_lt_iff (hi.trans hk)
    rw [strncmpFrom, BitVec.ofInt_natCast]
    obtain h | rfl := Nat.lt_or_eq_of_le hi
    · obtain ⟨heq, h0⟩ := hsame i h
      rw [if_pos ⟨hlt.mpr (Nat.lt_of_lt_of_le h hk), congrArg _ heq⟩, if_neg h0]
      by_cases hm : i + 1 ≤ 2147483647
      · rw [int_eq (by omega), ok_bind]
        exact ih (i := i + 1) h hm (by omega)
      · rw [int_of_lt (by omega), if_neg (by omega)]
        rfl
    · rw [if_pos hmax]
      by_cases hn : i < n.toNat
      · have hne : BitVec.ofNat w i ≠ n := mt (ofNat_eq_iff hk).mp (Nat.ne_of_lt hn)
        rw [if_pos hn]
        by_cases heq : s1 (BitVec.ofNat w i) = s2 (BitVec.ofNat w i)
        · rw [if_pos ⟨hlt.mpr hn, congrArg _ heq⟩, if_pos (hstop hn heq), heq, Int.sub_self]
        · rw [if_neg fun h => heq (char.value_injective h.2), if_neg hne]
      · have he : BitVec.ofNat w i = n :=
          (ofNat_eq_iff hk).mpr (Nat.le_antisymm hk (Nat.le_of_not_lt hn))
        rw [if_neg hn, if_neg fun h => hn (hlt.mp h.1), if_pos he]

theorem memcmpFrom_eq {n : BitVec w}
    (hsame : ∀ j < k, s1 (BitVec.ofNat w j) = s2 (BitVec.ofNat w j))
    (hstop : k < n.toNat → s1 (BitVec.ofNat w k) ≠ s2 (BitVec.ofNat w k))
    (hk : k ≤ n.toNat) (hi : i ≤ k) (hf : k - i < fuel) :
    memcmpFrom char s1 s2 n fuel (BitVec.ofNat w i) =
      .ok (if k < n.toNat then
        char.value (s1 (BitVec.ofNat w k)) - char.value (s2 (BitVec.ofNat w k)) else 0) := by
  induction fuel generalizing i with
  | zero => cases hf
  | succ fuel ih =>
    have hlt : BitVec.ofNat w i < n ↔ i < n.toNat := ofNat_lt_iff (hi.trans hk)
    rw [memcmpFrom]
    obtain h | rfl := Nat.lt_or_eq_of_le hi
    · rw [if_pos (hlt.mpr (Nat.lt_of_lt_of_le h hk)),
        if_neg (not_not_intro (congrArg _ (hsame i h))), ofNat_succ]
      exact ih (i := i + 1) h (by omega)
    · by_cases hn : i < n.toNat
      · rw [if_pos (hlt.mpr hn), if_pos hn, if_pos fun h => hstop hn (char.value_injective h)]
      · rw [if_neg (mt hlt.mp hn), if_neg hn]

end Loops

inductive Compare | strcmp | strncmp | memcmp
  deriving DecidableEq

namespace Compare

def run (char : PlainChar) (n : BitVec w) (s1 s2 : Chars w) : Compare → Nat → Except Stop Int
  | .strcmp => Klib.strcmp char (some s1) (some s2)
  | .strncmp => Klib.strncmp char (some s1) (some s2) n
  | .memcmp => Klib.memcmp char s1 s2 n

/-- `p` is what is compared of `s`: up to the first NUL, at most `n` characters of
that for `strncmp`, exactly `n` bytes for `memcmp`. -/
def Part (n : BitVec w) (s : Chars w) (p : List Byte) : Compare → Prop
  | .strcmp => s.Spells p
  | .strncmp => ∃ t, s.Spells t ∧ p = t.take n.toNat
  | .memcmp => p = block s 0 n.toNat

def range (n : BitVec w) (p q : List Byte) : Compare → Nat
  | .strcmp => min p.length q.length + 1
  | .strncmp | .memcmp => min n.toNat (min p.length q.length + 1)

/-- The index of `strcmp` and `strncmp` is an `int`. -/
def Counts (f : Compare) (p q : List Byte) : Prop := f = .memcmp ∨ common p q ≤ 2147483647

instance (f : Compare) (p q : List Byte) : Decidable (f.Counts p q) :=
  inferInstanceAs (Decidable (_ ∨ _))

section Parts

variable {f : Compare} {n : BitVec w} {s s1 s2 : Chars w} {p q : List Byte}

theorem Part.marked (h1 : f.Part n s1 p) (h2 : f.Part n s2 q) : Marked 0 p q := by
  cases f with
  | strcmp => exact .inl ⟨fun h => h1.ne_zero h rfl, fun h => h2.ne_zero h rfl⟩
  | strncmp =>
    obtain ⟨t1, h1, rfl⟩ := h1
    obtain ⟨t2, h2, rfl⟩ := h2
    exact .inl ⟨fun h => h1.ne_zero (List.mem_of_mem_take h) rfl,
      fun h => h2.ne_zero (List.mem_of_mem_take h) rfl⟩
  | memcmp =>
    cases h1
    cases h2
    exact .inr ((length_block s1 0 _).trans (length_block s2 0 _).symm)

theorem getD_block (s : Chars w) (i : Nat) {j m : Nat} (h : j < m) :
    (block s i m).getD j 0 = s (BitVec.ofNat w (i + j)) := by
  induction m generalizing i j with
  | zero => cases h
  | succ m ih =>
    cases j with
    | zero => rfl
    | succ j =>
      rw [← Nat.succ_add_eq_add_succ i j]
      exact ih (i + 1) (Nat.lt_of_succ_lt_succ h)

theorem Part.byte (h : f.Part n s p) {j : Nat} (hj : j ≤ p.length)
    (hn : f ≠ .strcmp → j < n.toNat) : s (BitVec.ofNat w j) = p.getD j 0 := by
  cases f with
  | strcmp => exact CString.Spells.getD h hj
  | strncmp =>
    have hn := hn nofun
    obtain ⟨t, h, rfl⟩ := h
    rw [List.length_take] at hj
    rw [h.getD (by omega)]
    simp [List.getD, hn]
  | memcmp =>
    cases h
    rw [getD_block s 0 (hn nofun), Nat.zero_add]

theorem Part.length_le (h : f.Part n s p) (hf : f ≠ .strcmp) : p.length ≤ n.toNat := by
  cases f with
  | strcmp => exact absurd rfl hf
  | strncmp =>
    obtain ⟨t, -, rfl⟩ := h
    exact List.length_take_le ..
  | memcmp =>
    cases h
    exact Nat.le_of_eq (length_block s 0 _)

theorem Part.same (h1 : f.Part n s1 p) (h2 : f.Part n s2 q) {j : Nat} (hj : j < common p q) :
    s1 (BitVec.ofNat w j) = s2 (BitVec.ofNat w j) := by
  have hp := Nat.lt_of_lt_of_le hj (common_le_left p q)
  have hq := Nat.lt_of_lt_of_le hj (common_le_right p q)
  rw [h1.byte (Nat.le_of_lt hp) fun hf => Nat.lt_of_lt_of_le hp (h1.length_le hf),
    h2.byte (Nat.le_of_lt hq) fun hf => Nat.lt_of_lt_of_le hq (h2.length_le hf),
    getD_eq_of_lt 0 hj]

theorem Part.ne_zero (h : f.Part n s p) (hf : f ≠ .memcmp) {j : Nat} (hj : j < p.length) :
    s (BitVec.ofNat w j) ≠ 0 := by
  rw [h.byte (Nat.le_of_lt hj) fun hf => Nat.lt_of_lt_of_le hj (h.length_le hf),
    ← List.getElem_eq_getD (h := hj) 0]
  have hmem := List.getElem_mem hj
  cases f with
  | strcmp => exact CString.Spells.ne_zero h hmem
  | strncmp =>
    obtain ⟨t, h, rfl⟩ := h
    exact h.ne_zero (List.mem_of_mem_take hmem)
  | memcmp => exact absurd rfl hf

theorem Part.eq_of_same (h1 : f.Part n s1 p) (h2 : f.Part n s2 q)
    (hn : f ≠ .strcmp → common p q < n.toNat)
    (h : s1 (BitVec.ofNat w (common p q)) = s2 (BitVec.ofNat w (common p q))) : p = q := by
  rw [h1.byte (common_le_left p q) hn, h2.byte (common_le_right p q) hn] at h
  exact eq_of_getD (h1.marked h2) h

theorem Part.nul_of_same (h1 : f.Part n s1 p) (h2 : f.Part n s2 q)
    (hn : f ≠ .strcmp → common p q < n.toNat)
    (h : s1 (BitVec.ofNat w (common p q)) = s2 (BitVec.ofNat w (common p q))) :
    s1 (BitVec.ofNat w (common p q)) = 0 := by
  have hbyte := h1.byte (common_le_left p q) hn
  cases h1.eq_of_same h2 hn h
  rw [hbyte, getD_common_self]

theorem Part.diff (char : PlainChar) (h1 : f.Part n s1 p) (h2 : f.Part n s2 q)
    (hn : f ≠ .strcmp → common p q < n.toNat) :
    char.value (s1 (BitVec.ofNat w (common p q))) - char.value (s2 (BitVec.ofNat w (common p q))) =
      firstDiff char p q := by
  rw [h1.byte (common_le_left p q) hn, h2.byte (common_le_right p q) hn]
  rfl

theorem Part.diff_of_ne (char : PlainChar) (h1 : f.Part n s1 p) (h2 : f.Part n s2 q)
    (hf : f ≠ .strcmp) :
    (if common p q < n.toNat then
      char.value (s1 (BitVec.ofNat w (common p q))) - char.value (s2 (BitVec.ofNat w (common p q)))
    else 0) = firstDiff char p q := by
  by_cases hn : common p q < n.toNat
  · rw [if_pos hn]
    exact h1.diff char h2 fun _ => hn
  · have hp := h1.length_le hf
    have hq := h2.length_le hf
    rw [if_neg hn, firstDiff, List.getD_eq_default p 0 (by omega),
      List.getD_eq_default q 0 (by omega), Int.sub_self]

end Parts

section Results

variable {char : PlainChar} {f : Compare} {n : BitVec w} {s1 s2 : Chars w} {p q : List Byte}
  {fuel : Nat}

theorem run_eq (h1 : f.Part n s1 p) (h2 : f.Part n s2 q) (hf : common p q < fuel) :
    f.run char n s1 s2 fuel =
      if f.Counts p q then .ok (firstDiff char p q) else .error .overflow := by
  have hsame : ∀ j < common p q, s1 (BitVec.ofNat w j) = s2 (BitVec.ofNat w j) :=
    fun j hj => h1.same h2 hj
  have hlt : ∀ j < common p q, j < p.length :=
    fun j hj => Nat.lt_of_lt_of_le hj (common_le_left p q)
  cases f with
  | strcmp =>
    have heq := strcmpFrom_eq char (i := 0)
      (fun j hj => ⟨hsame j hj, h1.ne_zero nofun (hlt j hj)⟩)
      (h1.nul_of_same h2 (absurd rfl)) (Nat.zero_le _) (Nat.zero_le _) hf
    rw [h1.diff char h2 (absurd rfl)] at heq
    simpa [run, Klib.strcmp, Counts] using heq
  | strncmp =>
    have hle := (common_le_left p q).trans (h1.length_le nofun)
    have heq := strncmpFrom_eq char (i := 0)
      (fun j hj => ⟨hsame j hj, h1.ne_zero nofun (hlt j hj)⟩)
      (fun hn => h1.nul_of_same h2 fun _ => hn) hle (Nat.zero_le _) (Nat.zero_le _) hf
    rw [h1.diff_of_ne char h2 nofun] at heq
    simpa [run, Klib.strncmp, Counts] using heq
  | memcmp =>
    have hle := (common_le_left p q).trans (h1.length_le nofun)
    have heq := memcmpFrom_eq char (i := 0) hsame
      (fun hn h => by
        cases h1.eq_of_same h2 (fun _ => hn) h
        rw [common_self, h1, length_block] at hn
        exact Nat.lt_irrefl _ hn) hle (Nat.zero_le _) hf
    rw [h1.diff_of_ne char h2 nofun] at heq
    simpa [run, Klib.memcmp, Counts] using heq

end Results

end Compare

def Returns (f : Nat → Except Stop Int) (r : Int) : Prop :=
  ∃ k, ∀ fuel, k ≤ fuel → f fuel = .ok r

theorem Returns.unique {f : Nat → Except Stop Int} {r r' : Int} (h : Returns f r)
    (h' : Returns f r') : r = r' := by
  obtain ⟨k, h⟩ := h
  obtain ⟨k', h'⟩ := h'
  have heq := (h (max k k') (Nat.le_max_left ..)).symm.trans (h' (max k k') (Nat.le_max_right ..))
  exact Except.ok.inj heq

/-- `f` returns how `p` and `q` stand in the lexicographic order of unsigned bytes. -/
def Orders (f : Nat → Except Stop Int) (p q : List Byte) : Prop :=
  ∃ r, Returns f r ∧ (r = 0 ↔ p = q) ∧ (r < 0 ↔ p < q) ∧ (0 < r ↔ q < p)

/-- `char` is unsigned, or the first bytes that differ are on one side of `0x80`. -/
def SameSide (char : PlainChar) (p q : List Byte) : Prop :=
  char = .unsigned ∨ (p.getD (common p q) 0).msb = (q.getD (common p q) 0).msb

theorem PlainChar.value_lt_iff (char : PlainChar) (a b : Byte) :
    (char.value a < char.value b ↔ a < b) ↔ char = .unsigned ∨ a.msb = b.msb := by
  have ha := BitVec.msb_eq_decide a
  have hb := BitVec.msb_eq_decide b
  rw [BitVec.lt_def]
  cases char with
  | unsigned => simp [value]
  | signed =>
    simp only [value, BitVec.toInt_eq_msb_cond, ha, hb]
    have := a.isLt
    have := b.isLt
    simp
    omega

theorem bytes_lt_iff {p q : List Byte} (hm : Marked 0 p q) :
    p < q ↔ p.getD (common p q) 0 < q.getD (common p q) 0 :=
  lt_iff (fun _ => BitVec.lt_irrefl _) (fun _ => BitVec.not_lt_zero)
    (fun b h => (BitVec.pos_iff_ne_zero b).mpr h) hm

theorem firstDiff_eq_zero_iff {char : PlainChar} {p q : List Byte} (hm : Marked 0 p q) :
    firstDiff char p q = 0 ↔ p = q := by
  constructor
  · intro h
    exact eq_of_getD hm (char.value_injective (Int.eq_of_sub_eq_zero h))
  · rintro rfl
    exact Int.sub_self _

theorem firstDiff_comm (char : PlainChar) (p q : List Byte) :
    firstDiff char q p = -firstDiff char p q := by
  rw [firstDiff, firstDiff, common_comm, Int.neg_sub]

theorem firstDiff_neg_iff (char : PlainChar) {p q : List Byte} (hm : Marked 0 p q) :
    (firstDiff char p q < 0 ↔ p < q) ↔ SameSide char p q := by
  rw [SameSide, ← char.value_lt_iff, bytes_lt_iff hm, firstDiff, sub_neg]

theorem SameSide.symm {char : PlainChar} {p q : List Byte} (h : SameSide char p q) :
    SameSide char q p := by
  rw [SameSide, common_comm]
  exact h.imp_right Eq.symm

namespace Compare

variable {char : PlainChar} {f g : Compare} {n n' : BitVec w} {s1 s2 s3 : Chars w}
  {p q r p' q' : List Byte} {x y : Int}

theorem returns_iff (h1 : f.Part n s1 p) (h2 : f.Part n s2 q) :
    Returns (f.run char n s1 s2) x ↔ f.Counts p q ∧ x = firstDiff char p q := by
  constructor
  · rintro ⟨k, h⟩
    have hrun := h (max k (common p q + 1)) (Nat.le_max_left ..)
    rw [run_eq h1 h2 (Nat.le_max_right ..)] at hrun
    by_cases hc : f.Counts p q
    · rw [if_pos hc] at hrun
      exact ⟨hc, (Except.ok.inj hrun).symm⟩
    · rw [if_neg hc] at hrun
      cases hrun
  · rintro ⟨hc, rfl⟩
    refine ⟨common p q + 1, fun fuel hf => ?_⟩
    rw [run_eq h1 h2 hf, if_pos hc]

theorem orders_iff (h1 : f.Part n s1 p) (h2 : f.Part n s2 q) :
    Orders (f.run char n s1 s2) p q ↔ f.Counts p q ∧ SameSide char p q := by
  have hm := h1.marked h2
  constructor
  · rintro ⟨x, hx, -, hlt, -⟩
    obtain ⟨hc, rfl⟩ := (returns_iff h1 h2).mp hx
    exact ⟨hc, (firstDiff_neg_iff char hm).mp hlt⟩
  · rintro ⟨hc, hs⟩
    refine ⟨_, (returns_iff h1 h2).mpr ⟨hc, rfl⟩, firstDiff_eq_zero_iff hm,
      (firstDiff_neg_iff char hm).mpr hs, ?_⟩
    rw [← (firstDiff_neg_iff char hm.symm).mpr hs.symm, firstDiff_comm]
    omega

theorem Counts.symm (h : f.Counts p q) : f.Counts q p := by
  rwa [Counts, common_comm]

theorem returns_neg (h1 : f.Part n s1 p) (h2 : f.Part n s2 q)
    (h : Returns (f.run char n s1 s2) x) : Returns (f.run char n s2 s1) (-x) := by
  obtain ⟨hc, rfl⟩ := (returns_iff h1 h2).mp h
  exact (returns_iff h2 h1).mpr ⟨hc.symm, (firstDiff_comm char p q).symm⟩

theorem returns_trans (h1 : f.Part n s1 p) (h2 : f.Part n s2 q) (h3 : f.Part n s3 r)
    (hx : Returns (f.run char n s1 s2) x) (hx0 : x ≤ 0) (hy : Returns (f.run char n s2 s3) y)
    (hy0 : y ≤ 0) : ∃ z, Returns (f.run char n s1 s3) z ∧ z ≤ 0 := by
  obtain ⟨hc, rfl⟩ := (returns_iff h1 h2).mp hx
  obtain ⟨hc', rfl⟩ := (returns_iff h2 h3).mp hy
  have hx0 := sub_nonpos.mp hx0
  have hy0 := sub_nonpos.mp hy0
  have hmax : common p r ≤ max (common p q) (common q r) :=
    common_le_max char.value_injective (h1.marked h2) (h2.marked h3) hx0 hy0
  have hpr : f.Counts p r := by
    obtain hf | hc := hc
    · exact .inl hf
    · exact hc'.imp_right fun hc' => hmax.trans (max_le hc hc')
  refine ⟨_, (returns_iff h1 h3).mpr ⟨hpr, rfl⟩, sub_nonpos.mpr ?_⟩
  exact value_le_trans char.value_injective (h1.marked h2) (h2.marked h3) (h1.marked h3) hx0 hy0

theorem le_of_lt_range {j : Nat} (hj : j < f.range n p q) :
    j ≤ p.length ∧ j ≤ q.length ∧ (f ≠ .strcmp → j < n.toNat) := by
  cases f with
  | strcmp =>
    simp only [range] at hj
    exact ⟨by omega, by omega, absurd rfl⟩
  | strncmp | memcmp =>
    simp only [range] at hj
    exact ⟨by omega, by omega, fun _ => by omega⟩

theorem common_lt_range (h1 : f.Part n s1 p) (h2 : f.Part n s2 q) (hne : p ≠ q) :
    common p q < f.range n p q := by
  have hp := common_le_left p q
  have hq := common_le_right p q
  have hn : f ≠ .strcmp → common p q < n.toNat := by
    intro hf
    have hpn := h1.length_le hf
    have hqn := h2.length_le hf
    by_contra hk
    apply hne
    apply eq_of_getD (h1.marked h2)
    rw [List.getD_eq_default p 0 (by omega), List.getD_eq_default q 0 (by omega)]
  cases f with
  | strcmp =>
    simp only [range]
    omega
  | strncmp | memcmp =>
    have hn := hn nofun
    simp only [range]
    omega

theorem firstDiff_range (char : PlainChar) (h1 : f.Part n s1 p) (h2 : f.Part n s2 q) :
    firstDiff char p q =
      firstDiff char (block s1 0 (f.range n p q)) (block s2 0 (f.range n p q)) := by
  have hp : ∀ j < f.range n p q, (block s1 0 (f.range n p q)).getD j 0 = p.getD j 0 := by
    intro j hj
    obtain ⟨hjp, -, hn⟩ := le_of_lt_range hj
    rw [getD_block s1 0 hj, Nat.zero_add, h1.byte hjp hn]
  have hq : ∀ j < f.range n p q, (block s2 0 (f.range n p q)).getD j 0 = q.getD j 0 := by
    intro j hj
    obtain ⟨-, hjq, hn⟩ := le_of_lt_range hj
    rw [getD_block s2 0 hj, Nat.zero_add, h2.byte hjq hn]
  by_cases hne : p = q
  · cases hne
    have heq : block s1 0 (f.range n p p) = block s2 0 (f.range n p p) := by
      apply List.ext_getElem
      · rw [length_block, length_block]
      · intro j hj hj'
        rw [List.getElem_eq_getD 0, List.getElem_eq_getD 0]
        rw [length_block] at hj
        rw [hp j hj, hq j hj]
    rw [heq, firstDiff, firstDiff, Int.sub_self, Int.sub_self]
  · have hk := common_lt_range h1 h2 hne
    have hcommon : common (block s1 0 (f.range n p q)) (block s2 0 (f.range n p q)) =
        common p q := by
      apply common_eq 0
      · rw [length_block]
        exact Nat.le_of_lt hk
      · rw [length_block]
        exact Nat.le_of_lt hk
      · intro j hj
        rw [hp j (hj.trans hk), hq j (hj.trans hk), getD_eq_of_lt 0 hj]
      · intro _ _ h
        rw [hp _ hk, hq _ hk] at h
        exact hne (eq_of_getD (h1.marked h2) h)
    rw [firstDiff, firstDiff, hcommon, hp _ hk, hq _ hk]

theorem returns_agree (h1 : f.Part n s1 p) (h2 : f.Part n s2 q)
    (h1' : g.Part n' s1 p') (h2' : g.Part n' s2 q') (hr : f.range n p q = g.range n' p' q')
    (hx : Returns (f.run char n s1 s2) x) (hy : Returns (g.run char n' s1 s2) y) : x = y := by
  obtain ⟨-, rfl⟩ := (returns_iff h1 h2).mp hx
  obtain ⟨-, rfl⟩ := (returns_iff h1' h2').mp hy
  rw [firstDiff_range char h1 h2, firstDiff_range char h1' h2', hr]

end Compare

/-- What every result that is returned keeps: the functions are antisymmetric and
transitive, and two of them agree where they compare the same range. -/
structure Consistent (w : Nat) (char : PlainChar) : Prop where
  antisymm : ∀ (f : Compare) (n : BitVec w) (s1 s2 : Chars w) (p q : List Byte) (x : Int),
    f.Part n s1 p → f.Part n s2 q → Returns (f.run char n s1 s2) x →
      Returns (f.run char n s2 s1) (-x)
  trans : ∀ (f : Compare) (n : BitVec w) (s1 s2 s3 : Chars w) (p q r : List Byte) (x y : Int),
    f.Part n s1 p → f.Part n s2 q → f.Part n s3 r →
      Returns (f.run char n s1 s2) x → x ≤ 0 → Returns (f.run char n s2 s3) y → y ≤ 0 →
        ∃ z, Returns (f.run char n s1 s3) z ∧ z ≤ 0
  agree : ∀ (f g : Compare) (n n' : BitVec w) (s1 s2 : Chars w) (p q p' q' : List Byte)
      (x y : Int),
    f.Part n s1 p → f.Part n s2 q → g.Part n' s1 p' → g.Part n' s2 q' →
      f.range n p q = g.range n' p' q' →
        Returns (f.run char n s1 s2) x → Returns (g.run char n' s1 s2) y → x = y

/-- The order of unsigned bytes comes out exactly where no index passes `INT_MAX` and
the first bytes that differ have the same sign. -/
theorem compare_orders (char : PlainChar) :
    (∀ (f : Compare) (n : BitVec w) (s1 s2 : Chars w) (p q : List Byte),
      f.Part n s1 p → f.Part n s2 q →
        (Orders (f.run char n s1 s2) p q ↔ f.Counts p q ∧ SameSide char p q)) ∧
      Consistent w char := by
  constructor
  · intro f n s1 s2 p q h1 h2
    exact Compare.orders_iff h1 h2
  · constructor
    · intro f n s1 s2 p q x h1 h2 hx
      exact Compare.returns_neg h1 h2 hx
    · intro f n s1 s2 s3 p q r x y h1 h2 h3 hx hx0 hy hy0
      exact Compare.returns_trans h1 h2 h3 hx hx0 hy hy0
    · intro f g n n' s1 s2 p q p' q' x y h1 h2 h1' h2' hr hx hy
      exact Compare.returns_agree h1 h2 h1' h2' hr hx hy

def letters (s : List Byte) : Chars 32 := fun i => s.getD i.toNat 0

theorem letters_spells {s : List Byte} (hne : ∀ c ∈ s, c ≠ 0) (hl : s.length < 2 ^ 32) :
    (letters s).Spells s := by
  refine Spells.of_getD (fun i hi => ?_) hne
  rw [letters, BitVec.toNat_ofNat, Nat.mod_eq_of_lt (Nat.lt_of_le_of_lt hi hl)]

theorem compare_orders_linux :
    let p := [ch 'l', ch 'i', ch 'n', ch 'u', ch 'x', ch '-', ch 'c', ch 'p', ch 'u']
    let q := [ch 'l', ch 'i', ch 'n', ch 'u', ch 'x', ch '-', ch 'n', ch 'p', ch 'c']
    Orders (Compare.strcmp.run .signed 0 (letters p) (letters q)) p q ∧
      Orders (Compare.strncmp.run .signed 6 (letters p) (letters q)) (p.take 6) (q.take 6) ∧
      Orders (Compare.memcmp.run .signed 9 (letters p) (letters q)) p q := by
  intro p q
  have hp : (letters p).Spells p := letters_spells (by decide) (by decide)
  have hq : (letters q).Spells q := letters_spells (by decide) (by decide)
  refine ⟨?_, ?_, ?_⟩
  · exact ((compare_orders .signed).1 .strcmp 0 _ _ p q hp hq).mpr
      ⟨.inr (by decide), .inr (by decide)⟩
  · exact ((compare_orders .signed).1 .strncmp 6 _ _ (p.take 6) (q.take 6) ⟨p, hp, rfl⟩
      ⟨q, hq, rfl⟩).mpr
      ⟨.inr (by decide), .inr (by decide)⟩
  · exact ((compare_orders .signed).1 .memcmp 9 (letters p) (letters q) p q rfl rfl).mpr
      ⟨.inl rfl, .inr (by decide)⟩

/-- With signed `char` the byte `0x80` comes before `'a'`. -/
theorem strcmp_not_orders :
    ¬ ∀ (char : PlainChar) (f : Compare) (n : BitVec 32) (s1 s2 : Chars 32) (p q : List Byte),
      f.Part n s1 p → f.Part n s2 q → Orders (f.run char n s1 s2) p q := by
  intro h
  have h1 : Compare.strcmp.Part 0 (letters [0x80]) [0x80] :=
    letters_spells (by decide) (by decide)
  have h2 : Compare.strcmp.Part 0 (letters [0x61]) [0x61] :=
    letters_spells (by decide) (by decide)
  have horders := h .signed .strcmp 0 _ _ _ _ h1 h2
  obtain ⟨-, hs⟩ := (Compare.orders_iff h1 h2).mp horders
  obtain hs | hs := hs
  · cases hs
  · exact absurd hs (by decide)

end LinuxCpu.Klib
