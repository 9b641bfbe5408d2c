import LinuxCpu.Klib.Numeral

/-! What a format and its arguments mean: the pieces of the format, the texts
they stand for, and the texts `va_arg` finds for them. -/

namespace LinuxCpu.Klib

open CString Decimal

inductive Kind | d | s | u
  deriving DecidableEq

def Kind.letter : Kind → Byte
  | .d => ch 'd'
  | .s => ch 's'
  | .u => ch 'u'

inductive Piece
  | char (b : Byte)
  | conv (k : Kind)
  deriving DecidableEq

def Piece.ofDirective (b : Byte) : Piece :=
  if b = ch 'd' then .conv .d
  else if b = ch 's' then .conv .s
  else if b = ch 'u' then .conv .u
  else .char b

/-- The pieces of a format, `none` if a `%` is its last character. -/
def parse : List Byte → Option (List Piece)
  | [] => some []
  | [b] => if b = ch '%' then none else some [.char b]
  | b :: k :: bs =>
    if b = ch '%' then (parse bs).map (Piece.ofDirective k :: ·)
    else (parse (k :: bs)).map (.char b :: ·)

def convs : List Piece → List Kind
  | [] => []
  | .char _ :: ps => convs ps
  | .conv k :: ps => k :: convs ps

def convTexts : List Piece → List (List Byte) → List (List Byte)
  | .char _ :: ps, _ :: ts => convTexts ps ts
  | .conv _ :: ps, t :: ts => t :: convTexts ps ts
  | _, _ => []

theorem parse_char {b : Byte} (hb : b ≠ ch '%') (bs : List Byte) :
    parse (b :: bs) = (parse bs).map (.char b :: ·) := by
  cases bs with
  | nil => exact if_neg hb
  | cons k bs => exact if_neg hb

theorem parse_directive (k : Byte) (bs : List Byte) :
    parse (ch '%' :: k :: bs) = (parse bs).map (Piece.ofDirective k :: ·) := if_pos rfl

/-- Induction along a format as `vsprintf` scans it. -/
@[elab_as_elim] theorem format_induction {motive : List Byte → Prop} (nil : motive [])
    (cut : motive [ch '%']) (directive : ∀ k bs, motive bs → motive (ch '%' :: k :: bs))
    (char : ∀ b bs, b ≠ ch '%' → motive bs → motive (b :: bs)) (text : List Byte) :
    motive text := by
  induction text using parse.induct with
  | case1 => exact nil
  | case2 => exact cut
  | case3 b hb => exact char b [] hb nil
  | case4 k bs ih => exact directive k bs ih
  | case5 b k bs hb ih => exact char b (k :: bs) hb ih

theorem ofDirective_eq_conv {b : Byte} {k : Kind} (h : Piece.ofDirective b = .conv k) :
    b = k.letter := by
  rw [Piece.ofDirective] at h
  split_ifs at h with hd hs hu
  · cases h
    exact hd
  · cases h
    exact hs
  · cases h
    exact hu

theorem ofDirective_ne_zero {b b' : Byte} (hb : b ≠ 0) (h : Piece.ofDirective b = .char b') :
    b' ≠ 0 := by
  rw [Piece.ofDirective] at h
  split_ifs at h
  cases h
  exact hb

inductive Arg
  | int (n : BitVec 32)
  | str (s : List Byte)
  | uint (n : BitVec 32)

def Arg.kind : Arg → Kind
  | .int _ => .d
  | .str _ => .s
  | .uint _ => .u

def Arg.text : Arg → List Byte
  | .int n => decimalInt n.toInt
  | .str s => s
  | .uint n => decimal n.toNat

def render : List Piece → List Arg → Option (List Byte)
  | [], _ => some []
  | .char b :: ps, args => (render ps args).map (b :: ·)
  | .conv _ :: _, [] => none
  | .conv k :: ps, a :: args =>
    if a.kind = k then (render ps args).map (a.text ++ ·) else none

section Fetch

variable {abi : Abi} (c : Caller abi)

/-- Slot `ap` passes `a`: the low half of a wide slot holds a number, and a
string lies behind a pointer. -/
def Caller.Holds (ap : Nat) : Arg → Prop
  | .int n | .uint n => (c.slots ap).setWidth 32 = n
  | .str t => ∃ s, c.str (c.slots ap) = some s ∧ s.Spells t

def Caller.Passes : Nat → List Arg → Prop
  | _, [] => True
  | ap, a :: args => c.Holds ap a ∧ Caller.Passes (ap + 1) args

/-- The text of a piece with what `va_arg` finds for it at `ap`, and the slot
that comes next. -/
inductive Fetches : Piece → Nat → List Byte → Nat → Prop
  | char : Fetches (.char b) ap [b] ap
  | d : Fetches (.conv .d) ap (decimalInt (vaInt c ap).1.toInt) (vaInt c ap).2
  | s : c.str (vaPtr c ap).1 = some s → s.Spells t → Fetches (.conv .s) ap t (vaPtr c ap).2
  | u : Fetches (.conv .u) ap (decimal ((vaUint64 c ap).1.setWidth 32 : BitVec 32).toNat)
      (vaUint64 c ap).2

inductive FetchesAll : List Piece → Nat → List (List Byte) → Nat → Prop
  | nil : FetchesAll [] ap [] ap
  | cons : Fetches c p ap t ap₁ → FetchesAll ps ap₁ ts ap' → FetchesAll (p :: ps) ap (t :: ts) ap'

variable {c} {p : Piece} {t t' : List Byte} {ap ap' ap'' : Nat}

theorem Fetches.unique (h : Fetches c p ap t ap') (h' : Fetches c p ap t' ap'') :
    t = t' ∧ ap' = ap'' := by
  cases h with
  | char =>
    cases h'
    exact ⟨rfl, rfl⟩
  | d =>
    cases h'
    exact ⟨rfl, rfl⟩
  | s hp hs =>
    cases h' with
    | s hp' hs' =>
      cases hp.symm.trans hp'
      exact ⟨Spells.unique hs hs', rfl⟩
  | u =>
    cases h'
    exact ⟨rfl, rfl⟩

theorem Fetches.ne_zero (h : Fetches c p ap t ap') (hp : ∀ b, p = .char b → b ≠ 0) {b : Byte}
    (hb : b ∈ t) : b ≠ 0 := by
  cases h with
  | char =>
    cases List.mem_singleton.mp hb
    exact hp b rfl
  | d => exact ne_zero_of_mem_decimalInt hb
  | s _ hs => exact Spells.ne_zero hs hb
  | u => exact ne_zero_of_mem_decimal hb

theorem FetchesAll.cons_inv {ps : List Piece} {ts : List (List Byte)}
    (h : FetchesAll c (p :: ps) ap ts ap') :
    ∃ t us ap₁, ts = t :: us ∧ Fetches c p ap t ap₁ ∧ FetchesAll c ps ap₁ us ap' := by
  cases h with
  | cons h hs => exact ⟨_, _, _, rfl, h, hs⟩

theorem Fetches.le (h : Fetches c p ap t ap') : ap ≤ ap' := by
  cases h with
  | char => exact Nat.le_refl ap
  | u =>
    cases abi with
    | lp64 => exact Nat.le_add_right ap 1
    | ilp32 => exact Nat.le_trans (Nat.le_add_right ..) (Nat.le_add_right ..)
  | _ => exact Nat.le_add_right ap 1

theorem FetchesAll.le {ps : List Piece} {ts : List (List Byte)} (h : FetchesAll c ps ap ts ap') :
    ap ≤ ap' := by
  induction h with
  | nil => exact Nat.le_refl _
  | cons hf _ ih => exact Nat.le_trans hf.le ih

theorem FetchesAll.unique {ps : List Piece} {ts us : List (List Byte)}
    (h : FetchesAll c ps ap ts ap') (h' : FetchesAll c ps ap us ap'') : ts = us ∧ ap' = ap'' := by
  induction h generalizing us with
  | nil =>
    cases h'
    exact ⟨rfl, rfl⟩
  | cons hf _ ih =>
    obtain ⟨t, us, ap₁, rfl, hf', h'⟩ := h'.cons_inv
    obtain ⟨rfl, rfl⟩ := hf.unique hf'
    obtain ⟨rfl, rfl⟩ := ih h'
    exact ⟨rfl, rfl⟩

end Fetch

/-- The conversions take one slot each: always on `lp64`; on `ilp32` if a `%u`
comes last only and finds its slot aligned. -/
def inStep : Abi → Nat → List Kind → Bool
  | _, _, [] => true
  | .ilp32, ap, .u :: ks => ap % 2 == 0 && ks.isEmpty
  | abi, ap, _ :: ks => inStep abi (ap + 1) ks

theorem inStep_lp64 (ap : Nat) (ks : List Kind) : inStep .lp64 ap ks = true := by
  induction ks generalizing ap with
  | nil => rfl
  | cons k ks ih => cases k <;> exact ih (ap + 1)

section InStep

variable {abi : Abi} {c : Caller abi}

theorem inStep_conv {k : Kind} {ap : Nat} {ks : List Kind} (hk : k ≠ .u) :
    inStep abi ap (k :: ks) = inStep abi (ap + 1) ks := by
  cases k with
  | u => exact absurd rfl hk
  | _ => cases abi <;> rfl

theorem fetches_of_holds {ap : Nat} {a : Arg} {ks : List Kind} (h : c.Holds ap a)
    (hs : inStep abi ap (a.kind :: ks) = true) :
    ∃ ap', Fetches c (.conv a.kind) ap a.text ap' ∧ (ks ≠ [] ∨ abi = .lp64 → ap' = ap + 1) ∧
      inStep abi (ap + 1) ks = true := by
  cases a with
  | int n =>
    cases h
    exact ⟨ap + 1, .d, fun _ => rfl, (inStep_conv (k := .d) (by decide)).symm.trans hs⟩
  | str t =>
    obtain ⟨s, hp, ht⟩ := h
    exact ⟨ap + 1, .s hp ht, fun _ => rfl, (inStep_conv (k := .s) (by decide)).symm.trans hs⟩
  | uint n =>
    have h : (c.slots ap).setWidth 32 = n := h
    cases abi with
    | lp64 =>
      have hn : ((vaUint64 c ap).1.setWidth 32 : BitVec 32) = n := by
        rw [← h]
        exact BitVec.setWidth_setWidth_of_le _ (by decide)
      have hu : Fetches c (.conv .u) ap _ _ := .u
      rw [hn] at hu
      exact ⟨ap + 1, hu, fun _ => rfl, inStep_lp64 _ _⟩
    | ilp32 =>
      obtain ⟨ha, hks⟩ := (Bool.and_eq_true _ _).mp hs
      cases List.isEmpty_iff.mp hks
      have ha : ap + ap % 2 = ap := by
        rw [beq_iff_eq.mp ha]
        rfl
      have hn : ((vaUint64 c ap).1.setWidth 32 : BitVec 32) = n := by
        rw [← h, ← congrArg c.slots ha]
        exact BitVec.setWidth_append_eq_right
      have hu : Fetches c (.conv .u) ap _ _ := .u
      rw [hn] at hu
      refine ⟨_, hu, fun h => ?_, rfl⟩
      obtain h | h := h
      · exact absurd rfl h
      · cases h

theorem fetchesAll_of_convs_nil {ps : List Piece} {args : List Arg} {s : List Byte} (ap : Nat)
    (hc : convs ps = []) (hr : render ps args = some s) :
    ∃ ts, FetchesAll c ps ap ts ap ∧ ts.flatten = s ∧ convTexts ps ts = [] := by
  induction ps generalizing s with
  | nil =>
    cases hr
    exact ⟨[], .nil, rfl, rfl⟩
  | cons p ps ih =>
    cases p with
    | char b =>
      obtain ⟨s', hr', rfl⟩ := Option.map_eq_some_iff.mp hr
      obtain ⟨ts, hf, rfl, ht⟩ := ih hc hr'
      exact ⟨[b] :: ts, .cons .char hf, rfl, ht⟩
    | conv k => cases hc

theorem fetchesAll_of_passes {ps : List Piece} {args : List Arg} {s : List Byte} {ap : Nat}
    (hs : inStep abi ap (convs ps) = true) (hpass : c.Passes ap args)
    (hr : render ps args = some s) :
    ∃ ts ap', FetchesAll c ps ap ts ap' ∧ ts.flatten = s ∧
      convTexts ps ts = (args.take (convs ps).length).map Arg.text ∧
      (abi = .lp64 → ap' = ap + (convs ps).length) := by
  induction ps generalizing args s ap with
  | nil =>
    cases hr
    exact ⟨[], ap, .nil, rfl, rfl, fun _ => rfl⟩
  | cons p ps ih =>
    cases p with
    | char b =>
      obtain ⟨s', hr', rfl⟩ := Option.map_eq_some_iff.mp hr
      obtain ⟨ts, ap', hf, rfl, ht, ha⟩ := ih hs hpass hr'
      exact ⟨[b] :: ts, ap', .cons .char hf, rfl, ht, ha⟩
    | conv k =>
      cases args with
      | nil => cases hr
      | cons a args =>
        obtain ⟨hh, hpass⟩ := hpass
        rw [render] at hr
        split_ifs at hr with hk
        cases hk
        obtain ⟨s', hr', rfl⟩ := Option.map_eq_some_iff.mp hr
        obtain ⟨ap₁, hf, ha₁, hs⟩ := fetches_of_holds hh hs
        by_cases hc : convs ps = []
        · obtain ⟨ts, hfs, rfl, ht⟩ := fetchesAll_of_convs_nil (c := c) ap₁ hc hr'
          refine ⟨a.text :: ts, ap₁, .cons hf hfs, rfl, ?_, fun h => ?_⟩
          · rw [convTexts, convs, ht, hc]
            rfl
          · rw [ha₁ (.inr h), convs, hc]
            rfl
        · cases ha₁ (.inl hc)
          obtain ⟨ts, ap', hfs, rfl, ht, ha⟩ := ih hs hpass hr'
          refine ⟨a.text :: ts, ap', .cons hf hfs, rfl, ?_, fun h => ?_⟩
          · rw [convTexts, convs, ht]
            rfl
          · rw [ha h, convs, List.length_cons]
            omega

end InStep

end LinuxCpu.Klib
