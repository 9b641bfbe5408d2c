import LinuxCpu.Klib.VsprintfCorrect

namespace LinuxCpu.Klib

open CString Decimal

section Conversions

variable {abi : Abi} (c : Caller abi) (fmt : Nat → Byte) (fuel : Nat)

/-- The states in front of and behind each conversion that the loop of `vsprintf`
executes. -/
def conversionsFrom : Nat → Nat → Vs → List (Vs × Vs)
  | 0, _, _ => []
  | n + 1, pos, st =>
    if fmt pos = 0 then []
    else if fmt pos = ch '%' then
      match directive c fuel st (fmt (pos + 1)), Piece.ofDirective (fmt (pos + 1)) with
      | .ok st', .conv _ => (st, st') :: conversionsFrom n (pos + 2) st'
      | .ok st', .char _ => conversionsFrom n (pos + 2) st'
      | .error _, _ => []
    else
      match putChar st (fmt pos) with
      | .ok st' => conversionsFrom n (pos + 1) st'
      | .error _ => []

def conversions (out : Int → Byte) (ap : Nat) : List (Vs × Vs) :=
  conversionsFrom c fmt fuel fuel 0 (.start out ap)

end Conversions

/-- Between these states `t` is put in `out`, from the first `out_index` up to the
second. -/
structure Stores (t : List Byte) (st st' : Vs) : Prop where
  puts : Puts t st.outIndex st.out st'.out
  outIndex : st'.outIndex = wrap (st.outIndex + t.length)

def StoresAll (ts : List (List Byte)) (steps : List (Vs × Vs)) : Prop :=
  List.Forall₂ (fun t step => Stores t step.1 step.2) ts steps

/-- Called with arguments of the kinds of its conversions, and a text no longer
than an `int` counts, `vsprintf` stores each argument in `out` by its own conversion. -/
def PrintsInStep (abi : Abi) (fmt : Nat → Byte) (ps : List Piece) (ap : Nat) : Prop :=
  ∀ (c : Caller abi) (out : Int → Byte) (args : List Arg) (s : List Byte),
    c.Passes ap args → render ps args = some s → s.length ≤ 2147483647 →
    ∃ N, ∀ fuel ≥ N, ∃ st reads, vsprintf c fmt fuel out ap = .ok (st, reads) ∧
      StoresAll ((args.take (convs ps).length).map Arg.text) (conversions c fmt fuel out ap)

theorem Stores.unique {t t' : List Byte} {st st' : Vs} (h : Stores t st st')
    (h' : Stores t' st st') (ht : t.length < 2 ^ 32) (ht' : t'.length < 2 ^ 32) : t = t' := by
  have hl : t.length = t'.length := by
    have ho := h.outIndex.symm.trans h'.outIndex
    rw [wrap_eq, wrap_eq] at ho
    omega
  refine List.ext_getElem hl fun i hi hi' => ?_
  exact (h.puts.inside i hi).1.symm.trans (h'.puts.inside i hi').1

theorem StoresAll.unique {ts us : List (List Byte)} {steps : List (Vs × Vs)}
    (h : StoresAll ts steps) (h' : StoresAll us steps) (ht : ∀ t ∈ ts, t.length < 2 ^ 32)
    (hu : ∀ t ∈ us, t.length < 2 ^ 32) : ts = us := by
  refine List.left_unique_forall₂' (fun t step t' hs hs' => ?_)
    ((List.forall₂_and_left ts steps).mpr ⟨ht, h⟩) ((List.forall₂_and_left us steps).mpr ⟨hu, h'⟩)
  exact hs.2.unique hs'.2 hs.1 hs'.1

section Conversions

variable {abi : Abi} {c : Caller abi} {fmt : Nat → Byte} {fuel m pos : Nat} {st st' : Vs}

theorem conversionsFrom_nul (h : fmt pos = 0) :
    conversionsFrom c fmt fuel (m + 1) pos st = [] := if_pos h

theorem conversionsFrom_char {b : Byte} (h : fmt pos = b) (h0 : b ≠ 0) (hb : b ≠ ch '%')
    (hd : putChar st b = .ok st') :
    conversionsFrom c fmt fuel (m + 1) pos st = conversionsFrom c fmt fuel m (pos + 1) st' := by
  rw [conversionsFrom, h, if_neg h0, if_neg hb, hd]

theorem conversionsFrom_directive {k : Byte} (h : fmt pos = ch '%') (hk : fmt (pos + 1) = k)
    (hd : directive c fuel st k = .ok st') :
    conversionsFrom c fmt fuel (m + 1) pos st =
      match Piece.ofDirective k with
      | .conv _ => (st, st') :: conversionsFrom c fmt fuel m (pos + 2) st'
      | .char _ => conversionsFrom c fmt fuel m (pos + 2) st' := by
  rw [conversionsFrom, h, if_neg (by decide), if_pos rfl, hk, hd]
  cases Piece.ofDirective k <;> rfl

/-- A run that ends has stored what `va_arg` finds for its conversions. -/
theorem storesAll_conversionsFrom {text : List Byte} {ps : List Piece} {ts : List (List Byte)}
    {ap : Nat} {reads : List Nat} {r : Vs × List Nat} (hf : 13 ≤ fuel)
    (hsp : Spells (fun i => fmt (pos + i)) text) (hp : parse text = some ps)
    (hlow : -2147483648 ≤ st.outIndex) (hfetch : FetchesAll c ps st.ap ts ap)
    (h : vsprintfFrom c fmt fuel m pos reads st = .ok r) :
    StoresAll (convTexts ps ts) (conversionsFrom c fmt fuel m pos st) := by
  induction text using format_induction generalizing m pos reads st ps ts with
  | nil =>
    cases m with
    | zero => cases h
    | succ m =>
      cases hp
      have h0 : fmt pos = 0 := hsp
      rw [conversionsFrom_nul h0]
      exact .nil
  | cut => cases hp
  | directive k bs ih =>
    cases m with
    | zero => cases h
    | succ m =>
      obtain ⟨hb, -, ht⟩ := spells_tail hsp
      obtain ⟨hk, -, ht⟩ := spells_tail ht
      rw [parse_directive] at hp
      obtain ⟨qs, hq, rfl⟩ := map_eq_some_cons hp
      rw [vsprintfFrom_directive hb hk] at h
      obtain ⟨st₁, hd, h⟩ := exists_of_bind h
      obtain ⟨t, us, ap₁, rfl, hft, hfetch⟩ := hfetch.cons_inv
      obtain ⟨t', he⟩ := emits_of_ofDirective hf hlow hd
      obtain ⟨rfl, rfl⟩ := hft.unique he.fetch
      have hrest := ih ht hq (he.outIndex ▸ wrap_ge _) hfetch h
      rw [conversionsFrom_directive hb hk hd]
      cases hpk : Piece.ofDirective k with
      | conv kind => exact .cons ⟨he.puts, he.outIndex⟩ hrest
      | char b => exact hrest
  | char b bs hb ih =>
    cases m with
    | zero => cases h
    | succ m =>
      obtain ⟨hc, h0, ht⟩ := spells_tail hsp
      rw [parse_char hb] at hp
      obtain ⟨qs, hq, rfl⟩ := map_eq_some_cons hp
      rw [vsprintfFrom_char hc h0 hb] at h
      obtain ⟨st₁, hd, h⟩ := exists_of_bind h
      obtain ⟨t, us, ap₁, rfl, hft, hfetch⟩ := hfetch.cons_inv
      have he := emits_of_putChar (c := c) hlow hd
      obtain ⟨rfl, rfl⟩ := hft.unique he.fetch
      have hrest := ih ht hq (he.outIndex ▸ wrap_ge _) hfetch h
      rw [conversionsFrom_char hc h0 hb hd]
      exact hrest

theorem storesAll_conversions {text : List Byte} {ps : List Piece} {ts : List (List Byte)}
    {ap ap' : Nat} {out : Int → Byte} {reads : List Nat} (hf : 13 ≤ fuel) (hsp : Spells fmt text)
    (hp : parse text = some ps) (hfetch : FetchesAll c ps ap ts ap')
    (h : vsprintf c fmt fuel out ap = .ok (st, reads)) :
    StoresAll (convTexts ps ts) (conversions c fmt fuel out ap) := by
  obtain ⟨r, hrun, -⟩ := exists_of_bind h
  exact storesAll_conversionsFrom hf (by simpa only [Nat.zero_add] using hsp) hp
    (by change (-2147483648 : Int) ≤ 0; decide) hfetch hrun

end Conversions

def least : List Piece → Nat
  | [] => 0
  | .conv .s :: ps => least ps
  | _ :: ps => least ps + 1

theorem least_le {ps : List Piece} {args : List Arg} {s : List Byte} (h : render ps args = some s) :
    least ps ≤ s.length := by
  induction ps generalizing args s with
  | nil => exact Nat.zero_le _
  | cons p ps ih =>
    cases p with
    | char b =>
      obtain ⟨s', hr, rfl⟩ := Option.map_eq_some_iff.mp h
      exact Nat.succ_le_succ (ih hr)
    | conv k =>
      cases args with
      | nil => cases h
      | cons a args =>
        rw [render] at h
        split_ifs at h with hk
        cases hk
        obtain ⟨s', hr, rfl⟩ := Option.map_eq_some_iff.mp h
        have hl := ih hr
        rw [List.length_append]
        cases a with
        | int n =>
          have := List.length_pos_iff.mpr (decimalInt_ne_nil n.toInt)
          simp only [least, Arg.kind, Arg.text]
          omega
        | str t => exact Nat.le_trans hl (Nat.le_add_left ..)
        | uint n =>
          have := List.length_pos_iff.mpr (decimal_ne_nil n.toNat)
          simp only [least, Arg.kind, Arg.text]
          omega

section Convs

variable {abi : Abi} {c : Caller abi}

theorem FetchesAll.convs {ps : List Piece} {ts : List (List Byte)} {ap ap' : Nat}
    (h : FetchesAll c ps ap ts ap') :
    FetchesAll c ((convs ps).map .conv) ap (convTexts ps ts) ap' := by
  induction h with
  | nil => exact .nil
  | @cons p ap t ap₁ ps ts ap' hf _ ih =>
    cases p with
    | char b =>
      cases hf
      exact ih
    | conv k => exact .cons hf ih

end Convs

def parityArg (ap : Nat) : Kind → Arg
  | .d => .int (BitVec.ofNat 32 (ap % 2))
  | .s => .str []
  | .u => .uint (BitVec.ofNat 32 (ap % 2))

def parityArgs : Nat → List Kind → List Arg
  | _, [] => []
  | ap, k :: ks => parityArg ap k :: parityArgs (ap + 1) ks

/-- From slot `ap` on lie the `parityArgs`, with the strings at address 2; behind
them, the parity of each slot. At address 1 lies no empty string. -/
structure Parity (c : Caller .ilp32) (ap : Nat) (ks : List Kind) : Prop where
  one : c.mem 1 ≠ 0
  two : c.mem 2 = 0
  slots : ∀ j, c.slots (ap + j) = if ks[j]? = some .s then 2 else BitVec.ofNat 32 ((ap + j) % 2)

def Caller.parity (ap : Nat) (ks : List Kind) : Caller .ilp32 where
  mem a := if a = 1 then ch 'x' else 0
  slots i := if ap ≤ i ∧ ks[i - ap]? = some .s then 2 else BitVec.ofNat 32 (i % 2)

theorem Caller.parity_parity (ap : Nat) (ks : List Kind) : Parity (.parity ap ks) ap ks where
  one := show ch 'x' ≠ 0 by decide
  two := rfl
  slots j := by
    simp only [Caller.parity, Nat.le_add_right, true_and, Nat.add_sub_cancel_left]
    rfl

namespace Parity

variable {c : Caller .ilp32} {ap ap' : Nat} {k : Kind} {ks : List Kind} {t : List Byte}

theorem tail (h : Parity c ap (k :: ks)) : Parity c (ap + 1) ks where
  one := h.one
  two := h.two
  slots j := by
    have hj := h.slots (j + 1)
    rwa [List.getElem?_cons_succ, Nat.add_comm j, ← Nat.add_assoc] at hj

theorem holds (h : Parity c ap (k :: ks)) : c.Holds ap (parityArg ap k) := by
  have hs : c.slots ap = if k = .s then 2 else BitVec.ofNat 32 (ap % 2) := by
    simpa using h.slots 0
  cases k with
  | d => exact (congrArg (BitVec.setWidth 32) hs).trans (BitVec.setWidth_eq _)
  | s =>
    rw [if_pos rfl] at hs
    refine ⟨fun i => c.mem (2 + i), ?_, h.two⟩
    rw [hs]
    rfl
  | u => exact (congrArg (BitVec.setWidth 32) hs).trans (BitVec.setWidth_eq _)

theorem passes (h : Parity c ap ks) : c.Passes ap (parityArgs ap ks) := by
  induction ks generalizing ap with
  | nil => trivial
  | cons k ks ih => exact ⟨h.holds, ih h.tail⟩

theorem slots_succ_ne (h : Parity c ap ks) : c.slots (ap + 1) ≠ BitVec.ofNat 32 (ap % 2) := by
  rw [h.slots 1]
  intro he
  have hn := congrArg BitVec.toNat he
  split_ifs at hn
  · change 2 = _ at hn
    rw [BitVec.toNat_ofNat] at hn
    omega
  · rw [BitVec.toNat_ofNat, BitVec.toNat_ofNat] at hn
    omega

theorem fetches_d_ne (h : Parity c ap ks) (hf : Fetches c (.conv .d) (ap + 1) t ap') :
    t ≠ (parityArg ap .d).text := by
  cases hf with
  | d =>
    intro he
    apply h.slots_succ_ne
    rw [← BitVec.toInt_inj.mp (decimalInt_injective he)]
    exact (BitVec.setWidth_eq _).symm

theorem fetches_u_ne (h : Parity c ap ks) {a : Nat} (ha : a + a % 2 = ap + 1)
    (hf : Fetches c (.conv .u) a t ap') : t ≠ (parityArg ap .u).text := by
  cases hf with
  | u =>
    intro he
    apply h.slots_succ_ne
    rw [← BitVec.toNat_inj.mp (decimal_injective he), ← ha]
    apply (BitVec.setWidth_eq _).symm.trans
    exact (BitVec.setWidth_append_eq_right).symm

theorem fetches_s_nil (h : Parity c ap ks) (hf : Fetches c (.conv .s) (ap + 1) [] ap') :
    ks[1]? = some .s ∧ ap' = ap + 2 := by
  cases hf with
  | s hp hs =>
    refine ⟨?_, rfl⟩
    by_contra hk
    have hsl : c.slots (ap + 1) = BitVec.ofNat 32 ((ap + 1) % 2) := by
      rw [h.slots 1, if_neg hk]
    change c.str (c.slots (ap + 1)) = some _ at hp
    rw [hsl] at hp
    obtain h2 | h2 : (ap + 1) % 2 = 0 ∨ (ap + 1) % 2 = 1 := by omega
    · rw [h2] at hp
      cases hp
    · rw [h2] at hp
      cases hp
      exact h.one hs

theorem strings_ne (h : Parity c ap (.s :: ks)) {ts : List (List Byte)}
    (hf : FetchesAll c ((Kind.s :: ks).map .conv) (ap + 1) ts ap') :
    ts ≠ (parityArgs ap (.s :: ks)).map Arg.text := by
  induction ks generalizing ap ts with
  | nil =>
    obtain ⟨t, us, ap₁, rfl, hf, -⟩ := hf.cons_inv
    intro he
    cases (List.cons.inj he).1
    cases (h.fetches_s_nil hf).1
  | cons k ks ih =>
    obtain ⟨t, us, ap₁, rfl, hf, hfs⟩ := hf.cons_inv
    intro he
    obtain ⟨ht, hts⟩ := List.cons.inj he
    cases ht
    obtain ⟨hk, rfl⟩ := h.fetches_s_nil hf
    cases Option.some.inj hk
    exact ih h.tail hfs hts

/-- Behind a `%u` that took one slot too many, at an even slot, the next argument
is missed. -/
theorem behind_ne (h : Parity c ap (k :: ks)) (hap : (ap + 1) % 2 = 0) {ts : List (List Byte)}
    (hf : FetchesAll c ((k :: ks).map .conv) (ap + 1) ts ap') :
    ts ≠ (parityArgs ap (k :: ks)).map Arg.text := by
  cases k with
  | s => exact h.strings_ne hf
  | d =>
    obtain ⟨t, us, ap₁, rfl, hf, -⟩ := hf.cons_inv
    exact fun he => h.fetches_d_ne hf (List.cons.inj he).1
  | u =>
    obtain ⟨t, us, ap₁, rfl, hf, -⟩ := hf.cons_inv
    exact fun he => h.fetches_u_ne (by omega) hf (List.cons.inj he).1

theorem texts_ne (h : Parity c ap ks) (hs : inStep .ilp32 ap ks = false) {ts : List (List Byte)}
    (hf : FetchesAll c (ks.map .conv) ap ts ap') : ts ≠ (parityArgs ap ks).map Arg.text := by
  induction ks generalizing ap ts with
  | nil => cases hs
  | cons k ks ih =>
    obtain ⟨t, us, ap₁, rfl, hq, hqs⟩ := hf.cons_inv
    intro he
    obtain ⟨ht, hts⟩ := List.cons.inj he
    cases k with
    | d =>
      cases hq
      exact ih h.tail hs hqs hts
    | s =>
      cases hq
      exact ih h.tail hs hqs hts
    | u =>
      by_cases hap : ap % 2 = 0
      · cases ks with
        | nil =>
          rw [inStep, hap] at hs
          cases hs
        | cons k ks =>
          have hnext : ap₁ = ap + 1 + 1 :=
            (hq.unique .u).2.trans (congrArg (ap + · + 2) hap)
          exact h.tail.behind_ne (by omega) (hnext ▸ hqs) hts
      · exact h.fetches_u_ne (by omega) hq ht

end Parity

theorem kind_parityArg (ap : Nat) (k : Kind) : (parityArg ap k).kind = k := by
  cases k <;> rfl

theorem length_text_parityArg (ap : Nat) {k : Kind} (hk : k ≠ .s) :
    (parityArg ap k).text.length = 1 := by
  have hm : ap % 2 < 2 := Nat.mod_lt ap (by decide)
  cases k with
  | s => exact absurd rfl hk
  | d =>
    have h : ∀ m < 2, (decimalInt (BitVec.ofNat 32 m).toInt).length = 1 := by decide
    exact h _ hm
  | u =>
    have h : ∀ m < 2, (decimal (BitVec.ofNat 32 m).toNat).length = 1 := by decide
    exact h _ hm

theorem length_parityArgs (ap : Nat) (ks : List Kind) :
    (parityArgs ap ks).length = ks.length := by
  induction ks generalizing ap with
  | nil => rfl
  | cons k ks ih => exact congrArg (· + 1) (ih (ap + 1))

theorem render_parityArgs (ap : Nat) (ps : List Piece) :
    ∃ s, render ps (parityArgs ap (convs ps)) = some s ∧ s.length = least ps := by
  induction ps generalizing ap with
  | nil => exact ⟨[], rfl, rfl⟩
  | cons p ps ih =>
    cases p with
    | char b =>
      obtain ⟨s, hr, hl⟩ := ih ap
      exact ⟨b :: s, by rw [convs, render, hr]; rfl, congrArg (· + 1) hl⟩
    | conv k =>
      obtain ⟨s, hr, hl⟩ := ih (ap + 1)
      refine ⟨(parityArg ap k).text ++ s, ?_, ?_⟩
      · rw [convs, parityArgs, render, if_pos (kind_parityArg ap k), hr]
        rfl
      · rw [List.length_append, hl]
        cases k with
        | s => exact Nat.zero_add _
        | d =>
          rw [length_text_parityArg ap (by decide), Nat.add_comm]
          rfl
        | u =>
          rw [length_text_parityArg ap (by decide), Nat.add_comm]
          rfl

theorem Fetches.length_lt {c : Caller .ilp32} {p : Piece} {t : List Byte} {ap ap' : Nat}
    (h : Fetches c p ap t ap') : t.length < 2 ^ 32 := by
  cases h with
  | char => exact Nat.one_lt_two_pow (by decide)
  | d =>
    have hl : (decimalInt (vaInt c ap).1.toInt).length ≤ 11 :=
      length_decimalInt_le (natAbs_toInt_lt _) (by decide)
    exact Nat.lt_of_le_of_lt hl (by decide)
  | s _ hs => exact length_lt_of_spells hs
  | u =>
    have hl : (decimal ((vaUint64 c ap).1.setWidth 32 : BitVec 32).toNat).length ≤ 11 :=
      length_decimal_le (Nat.lt_trans (BitVec.isLt _) (by decide)) (by decide)
    exact Nat.lt_of_le_of_lt hl (by decide)

theorem FetchesAll.length_lt {c : Caller .ilp32} {ps : List Piece} {ts : List (List Byte)}
    {ap ap' : Nat} (h : FetchesAll c ps ap ts ap') : ∀ t ∈ ts, t.length < 2 ^ 32 := by
  induction h with
  | nil => exact fun t ht => by cases ht
  | cons hf _ ih =>
    intro t ht
    obtain rfl | ht := List.mem_cons.mp ht
    · exact hf.length_lt
    · exact ih t ht

section InStep

variable {abi : Abi} {c : Caller abi} {fmt : Nat → Byte} {text s : List Byte} {ps : List Piece}
  {args : List Arg} {out : Int → Byte} {ap fuel : Nat} {st : Vs} {reads : List Nat}

theorem storesAll_of_inStep (hsp : Spells fmt text) (hp : parse text = some ps)
    (hs : inStep abi ap (convs ps) = true) (hpass : c.Passes ap args)
    (hr : render ps args = some s) (hf : 13 ≤ fuel)
    (h : vsprintf c fmt fuel out ap = .ok (st, reads)) :
    StoresAll ((args.take (convs ps).length).map Arg.text) (conversions c fmt fuel out ap) := by
  obtain ⟨ts, ap', hfetch, -, ht, -⟩ := fetchesAll_of_passes hs hpass hr
  exact ht ▸ storesAll_conversions hf hsp hp hfetch h

theorem rendered_of_inStep (hsp : Spells fmt text) (hp : parse text = some ps)
    (hs : inStep abi ap (convs ps) = true) (hpass : c.Passes ap args)
    (hr : render ps args = some s) (hf : 13 ≤ fuel)
    (h : vsprintf c fmt fuel out ap = .ok (st, reads)) (hl : s.length ≤ 2147483647) :
    Rendered out s ap (st.ap - ap) st := by
  obtain ⟨ts, ap', hfetch, rfl, -, -⟩ := fetchesAll_of_passes hs hpass hr
  obtain ⟨us, st', hruns, rfl⟩ := exists_runs hf hsp hp h
  cases (hruns.fetches.unique hfetch).1
  exact hruns.rendered_finish hl

theorem printsInStep_of_inStep (hsp : Spells fmt text) (hp : parse text = some ps)
    (hs : inStep abi ap (convs ps) = true) : PrintsInStep abi fmt ps ap := by
  intro c out args s hpass hr hl
  obtain ⟨ts, ap', hfetch, rfl, -, -⟩ := fetchesAll_of_passes hs hpass hr
  refine ⟨13 + text.length + ts.flatten.length, fun fuel hfuel => ?_⟩
  obtain ⟨st, reads, hrun, -, -⟩ := vsprintf_runs hsp hp hfetch (hfetch.room (by omega)) hfuel out
  exact ⟨st.finish, reads, hrun, storesAll_of_inStep hsp hp hs hpass hr (by omega) hrun⟩

end InStep

theorem length_text_parityArgs_lt (ap : Nat) (ks : List Kind) :
    ∀ t ∈ (parityArgs ap ks).map Arg.text, t.length < 2 ^ 32 := by
  induction ks generalizing ap with
  | nil => exact fun t ht => by cases ht
  | cons k ks ih =>
    intro t ht
    obtain rfl | ht := List.mem_cons.mp ht
    · by_cases hk : k = .s
      · cases hk
        exact Nat.two_pow_pos 32
      · rw [length_text_parityArg ap hk]
        exact Nat.one_lt_two_pow (by decide)
    · exact ih (ap + 1) t ht

theorem not_printsInStep {fmt : Nat → Byte} {text : List Byte} {ps : List Piece} {ap : Nat}
    (hsp : Spells fmt text) (hp : parse text = some ps)
    (hs : inStep .ilp32 ap (convs ps) = false) (hl : least ps ≤ 2147483647) :
    ¬ PrintsInStep .ilp32 fmt ps ap := by
  intro h
  have hpar := Caller.parity_parity ap (convs ps)
  obtain ⟨s, hr, hlen⟩ := render_parityArgs ap ps
  obtain ⟨N, h⟩ := h _ (fun _ => 0) _ s hpar.passes hr (hlen ▸ hl)
  obtain ⟨st, reads, hrun, hstores⟩ := h (max N 13) (Nat.le_max_left ..)
  rw [← length_parityArgs ap (convs ps), List.take_length] at hstores
  obtain ⟨ts, st', hruns, -⟩ := exists_runs (Nat.le_max_right ..) hsp hp hrun
  have hfetch := hruns.fetches
  have hstores' := storesAll_conversions (Nat.le_max_right ..) hsp hp hfetch hrun
  exact hpar.texts_ne hs hfetch.convs
    (hstores'.unique hstores hfetch.convs.length_lt (length_text_parityArgs_lt ap (convs ps)))

/-- A format keeps its conversions and arguments in step exactly when `inStep`
says so, or when it is too long for any arguments. In step it stores the right
arguments in texts of any length, and leaves the text in `out` if it fits an `int`. -/
theorem printsInStep_iff (abi : Abi) (fmt : Nat → Byte) {text : List Byte} {ps : List Piece}
    (ap : Nat) (hsp : Spells fmt text) (hp : parse text = some ps) :
    (PrintsInStep abi fmt ps ap ↔ inStep abi ap (convs ps) = true ∨ 2147483647 < least ps) ∧
      (inStep abi ap (convs ps) = true → ∀ (c : Caller abi) (out : Int → Byte) (args : List Arg)
        (s : List Byte) (fuel : Nat) (st : Vs) (reads : List Nat), c.Passes ap args →
        render ps args = some s → 13 ≤ fuel → vsprintf c fmt fuel out ap = .ok (st, reads) →
        StoresAll ((args.take (convs ps).length).map Arg.text) (conversions c fmt fuel out ap) ∧
          (s.length ≤ 2147483647 → Rendered out s ap (st.ap - ap) st)) := by
  refine ⟨⟨fun h => ?_, fun h => ?_⟩, fun hs c out args s fuel st reads hpass hr hf hrun => ?_⟩
  · cases hs : inStep abi ap (convs ps) with
    | true => exact .inl rfl
    | false =>
      cases abi with
      | lp64 => cases (inStep_lp64 ap (convs ps)).symm.trans hs
      | ilp32 => exact .inr (Nat.lt_of_not_le fun hl => not_printsInStep hsp hp hs hl h)
  · obtain hs | hl := h
    · exact printsInStep_of_inStep hsp hp hs
    · intro c out args s _ hr hs
      exact absurd (Nat.le_trans (least_le hr) hs) (Nat.not_le.mpr hl)
  · exact ⟨storesAll_of_inStep hsp hp hs hpass hr hf hrun,
      rendered_of_inStep hsp hp hs hpass hr hf hrun⟩

theorem printsInStep_iff_d_s_u :
    let fmt := literal [ch '%', ch 'd', ch '%', ch 's', ch '%', ch 'u']
    (PrintsInStep .ilp32 fmt [.conv .d, .conv .s, .conv .u] 2 ↔
      inStep .ilp32 2 [.d, .s, .u] = true ∨ 2147483647 < least [.conv .d, .conv .s, .conv .u]) ∧
    (inStep .ilp32 2 [.d, .s, .u] = true → ∀ (c : Caller .ilp32) (out : Int → Byte)
      (args : List Arg) (s : List Byte) (fuel : Nat) (st : Vs) (reads : List Nat),
      c.Passes 2 args → render [.conv .d, .conv .s, .conv .u] args = some s → 13 ≤ fuel →
      vsprintf c fmt fuel out 2 = .ok (st, reads) →
      StoresAll ((args.take 3).map Arg.text) (conversions c fmt fuel out 2) ∧
        (s.length ≤ 2147483647 → Rendered out s 2 (st.ap - 2) st)) :=
  printsInStep_iff .ilp32 _ 2 (literal_spells (by decide)) (show parse _ = _ by decide)

/-- `%u%d` in `sprintf`, with 7 and 5 passed and 9 in the slot behind them: `out`
holds `79`. -/
theorem not_printsInStep_u_d :
    let c : Caller .ilp32 := ⟨fun _ => 0, fun i => if i = 2 then 7 else if i = 3 then 5 else 9⟩
    let fmt := literal [ch '%', ch 'u', ch '%', ch 'd']
    c.Passes 2 [.uint 7, .int 5] ∧
      Renders c fmt (fun _ => 0) [ch '7', ch '9'] 2 3 ∧
      ¬ PrintsInStep .ilp32 fmt [.conv .u, .conv .d] 2 := by
  intro c fmt
  have hsp : Spells fmt [ch '%', ch 'u', ch '%', ch 'd'] := literal_spells (by decide)
  have hp : parse [ch '%', ch 'u', ch '%', ch 'd'] = some [.conv .u, .conv .d] := by decide
  have hd : Fetches c (.conv .d) 4 (decimalInt 9) 5 := .d
  have hu : Fetches c (.conv .u) 2 _ _ := .u
  have hn : ((vaUint64 c 2).1.setWidth 32 : BitVec 32) = 7 := BitVec.setWidth_append_eq_right
  rw [hn] at hu
  have hfetch : FetchesAll c [.conv .u, .conv .d] 2 [decimal 7, decimalInt 9] 5 :=
    .cons hu (.cons hd .nil)
  have hpass : c.Passes 2 [.uint 7, .int 5] := ⟨rfl, rfl, trivial⟩
  refine ⟨hpass, hfetch.renders hsp hp (by decide) fun _ => 0, fun h => ?_⟩
  obtain ⟨N, h⟩ := h c (fun _ => 0) [.uint 7, .int 5] [ch '7', ch '5'] hpass (by decide) (by decide)
  obtain ⟨st, reads, hrun, hstores⟩ := h (max N 13) (Nat.le_max_left ..)
  have hstores' := storesAll_conversions (Nat.le_max_right ..) hsp hp hfetch hrun
  exact absurd (hstores'.unique hstores (by decide) (by decide)) (by decide)

end LinuxCpu.Klib
