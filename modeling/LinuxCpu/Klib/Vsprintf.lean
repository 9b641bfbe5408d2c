import LinuxCpu.Klib.Format

namespace LinuxCpu.Klib

open CString Decimal

/-- What becomes of a `size_t` of value `x` in an `int`. -/
def wrap (x : Int) : Int := x.bmod (2 ^ 32)

theorem wrap_eq (x : Int) :
    wrap x = if x % 4294967296 < 2147483648 then x % 4294967296
      else x % 4294967296 - 4294967296 := rfl

theorem wrap_wrap_add (x y : Int) : wrap (wrap x + y) = wrap (x + y) := Int.bmod_add_bmod

theorem wrap_of_le {x : Int} (h0 : 0 ≤ x) (h : x ≤ 2147483647) : wrap x = x := by
  rw [wrap_eq]
  omega

theorem addSize_eq (hw : 32 ≤ w) (o : Int) (len : BitVec w) :
    addSize o len = wrap (o + len.toNat) := by
  have hx : BitVec.ofInt w o + len = BitVec.ofInt w (o + len.toNat) := by
    rw [BitVec.ofInt_add, BitVec.ofInt_natCast, BitVec.ofNat_toNat, BitVec.setWidth_eq]
  have hd : 2 ^ 32 ∣ 2 ^ w := Nat.pow_dvd_pow 2 hw
  rw [addSize, hx, BitVec.toInt_setWidth, ← Int.bmod_bmod_of_dvd hd, ← BitVec.toInt_eq_toNat_bmod,
    BitVec.toInt_ofInt, Int.bmod_bmod_of_dvd hd]
  rfl

theorem Abi.le_xlen (abi : Abi) : 32 ≤ abi.xlen := by
  cases abi <;> decide

section Step

variable {st st' : Vs} {fuel : Nat} {t : List Byte}

theorem putStr_eq (hw : 32 ≤ w) {s : Chars w} (h : s.Spells t) (hf : t.length < fuel) (st : Vs) :
    ∃ out, putStr fuel st (some s) = .ok
        { st with out := out, outIndex := wrap (st.outIndex + t.length) } ∧
      Puts t st.outIndex st.out out := by
  obtain ⟨out, hout, hput, -⟩ := strcpy_eq st.out st.outIndex h hf
  have hl : (BitVec.ofNat w t.length).toNat = t.length := by
    rw [BitVec.toNat_ofNat, Nat.mod_eq_of_lt (length_lt_of_spells h)]
  refine ⟨out, ?_, hput⟩
  rw [putStr, hout]
  simp only [ok_bind]
  rw [strlen_eq h hf]
  simp only [ok_bind]
  rw [addSize_eq hw, hl]
  rfl

theorem exists_spells_of_putStr {s : Option (Chars w)} (h : putStr fuel st s = .ok st') :
    ∃ s', s = some s' ∧ ∃ t, s'.Spells t ∧ t.length < fuel := by
  cases s with
  | none => cases h
  | some s =>
    refine ⟨s, rfl, ?_⟩
    cases hl : strlen s fuel with
    | error e =>
      rw [putStr, strcpy, hl] at h
      cases h
    | ok n => exact exists_spells_of_strlen hl

end Step

theorem chars_spells {s : Buf} {t : List Byte} (h : Spells (fun i => s.data i) t)
    (hw : t.length < 2 ^ w) : (chars s : Chars w).Spells t := by
  have hn : ∀ {i : Nat}, i ≤ t.length → (BitVec.ofNat w i).toNat = i := fun hi => by
    rw [BitVec.toNat_ofNat, Nat.mod_eq_of_lt (Nat.lt_of_le_of_lt hi hw)]
  refine Spells.of_getElem (fun i hi => ?_) ?_ fun b hb => h.ne_zero hb
  · rw [chars, hn (Nat.le_of_lt hi)]
    exact h.getElem hi
  · rw [chars, hn (Nat.le_refl _)]
    exact h.nul

section Piece

variable {abi : Abi} (c : Caller abi)

structure Emits (p : Piece) (t : List Byte) (st st' : Vs) : Prop where
  fetch : Fetches c p st.ap t st'.ap
  room : ∀ b, p = .char b → st.outIndex < 2147483647
  outIndex : st'.outIndex = wrap (st.outIndex + t.length)
  puts : Puts t st.outIndex st.out st'.out

variable {c} {st st' : Vs} {fuel : Nat}

theorem putChar_emits (hlow : -2147483648 ≤ st.outIndex) (h : st.outIndex < 2147483647) (b : Byte) :
    ∃ st', putChar st b = .ok st' ∧ Emits c (.char b) [b] st st' := by
  refine ⟨{ st with out := st.out.set st.outIndex b, outIndex := st.outIndex + 1 }, ?_, ?_⟩
  · rw [putChar, int_eq (by omega)]
    rfl
  · exact
      { fetch := .char
        room := fun _ _ => h
        outIndex := by
          rw [wrap_eq]
          simp only [List.length_singleton]
          omega
        puts := Puts.singleton b st.outIndex st.out }

theorem emits_of_putChar (hlow : -2147483648 ≤ st.outIndex) {b : Byte}
    (h : putChar st b = .ok st') : Emits c (.char b) [b] st st' := by
  by_cases hi : st.outIndex < 2147483647
  · obtain ⟨st'', hst, he⟩ := putChar_emits (c := c) hlow hi b
    cases hst.symm.trans h
    exact he
  · rw [putChar, int_of_lt (by omega)] at h
    cases h

theorem natAbs_toInt_lt (n : BitVec 32) : n.toInt.natAbs < 10 ^ 10 := by
  have h := n.isLt
  rw [BitVec.toInt_eq_toNat_cond]
  split_ifs <;> omega

theorem numeral_fetches {k : Kind} {s : Buf} {numeral : List Byte} {ap ap₁ : Nat}
    (hsp : Spells (fun i => s.data i) numeral) (hl : numeral.length ≤ 11)
    (hk : Fetches c (.conv k) ap numeral ap₁) (t : List Byte) (ap' : Nat) :
    Fetches c (.conv k) ap t ap' ↔
      ap' = ap₁ ∧ ∃ s', some (chars s : Chars abi.xlen) = some s' ∧ s'.Spells t := by
  have hs : (chars s : Chars abi.xlen).Spells numeral :=
    chars_spells hsp (Nat.lt_of_le_of_lt hl
      (Nat.lt_of_lt_of_le (by decide) (Nat.pow_le_pow_right (by decide) abi.le_xlen)))
  constructor
  · intro h
    obtain ⟨rfl, rfl⟩ := hk.unique h
    exact ⟨rfl, _, rfl, hs⟩
  · rintro ⟨rfl, s', hs', ht⟩
    cases hs'
    cases Spells.unique hs ht
    exact hk

theorem directive_conv (hf : 13 ≤ fuel) (st : Vs) (k : Kind) :
    ∃ (src : Option (Chars abi.xlen)) (ap : Nat),
      directive c fuel st k.letter = putStr fuel { st with ap := ap } src ∧
      ∀ t ap', Fetches c (.conv k) st.ap t ap' ↔ ap' = ap ∧ ∃ s, src = some s ∧ s.Spells t := by
  cases k with
  | d =>
    obtain ⟨s, hs, hsp⟩ := intToStr_eq hf (vaInt c st.ap).1.toInt
      ⟨BitVec.le_toInt _, Int.le_of_lt_add_one (BitVec.toInt_lt)⟩
    have hl : (decimalInt (vaInt c st.ap).1.toInt).length ≤ 11 :=
      length_decimalInt_le (natAbs_toInt_lt _) (by decide)
    refine ⟨some (chars s), (vaInt c st.ap).2, ?_, numeral_fetches hsp hl .d⟩
    change (intToStr fuel .zeros (vaInt c st.ap).1.toInt >>= _) = _
    rw [hs]
    rfl
  | s =>
    refine ⟨c.str (vaPtr c st.ap).1, (vaPtr c st.ap).2, rfl, fun t ap' => ⟨fun h => ?_, ?_⟩⟩
    · cases h with
      | s hp hs => exact ⟨rfl, _, hp, hs⟩
    · rintro ⟨rfl, s, hp, hs⟩
      exact .s hp hs
  | u =>
    obtain ⟨s, hs, hsp⟩ := uintToStr_eq hf ((vaUint64 c st.ap).1.setWidth 32)
    have hl : (decimal ((vaUint64 c st.ap).1.setWidth 32 : BitVec 32).toNat).length ≤ 11 :=
      length_decimal_le (Nat.lt_trans (BitVec.isLt _) (by decide)) (by decide)
    refine ⟨some (chars s), (vaUint64 c st.ap).2, ?_, numeral_fetches hsp hl .u⟩
    change (uintToStr fuel .zeros ((vaUint64 c st.ap).1.setWidth 32) >>= _) = _
    rw [hs]
    rfl

theorem directive_emits {k : Kind} {t : List Byte} {ap : Nat} (hf : 13 ≤ fuel)
    (h : Fetches c (.conv k) st.ap t ap) (ht : t.length < fuel) :
    ∃ st', directive c fuel st k.letter = .ok st' ∧ Emits c (.conv k) t st st' := by
  obtain ⟨src, ap₁, hdir, hiff⟩ := directive_conv (c := c) hf st k
  obtain ⟨rfl, s, rfl, hs⟩ := (hiff t ap).mp h
  obtain ⟨out, hput, hputs⟩ := putStr_eq abi.le_xlen hs ht { st with ap := ap }
  rw [hdir, hput]
  refine ⟨_, rfl, ?_⟩
  exact
    { fetch := h
      room := fun b hb => by cases hb
      outIndex := rfl
      puts := hputs }

theorem emits_of_directive {k : Kind} (hf : 13 ≤ fuel)
    (h : directive c fuel st k.letter = .ok st') : ∃ t, Emits c (.conv k) t st st' := by
  obtain ⟨src, ap₁, hdir, hiff⟩ := directive_conv (c := c) hf st k
  rw [hdir] at h
  obtain ⟨s, rfl, t, hs, ht⟩ := exists_spells_of_putStr h
  have hfetch := (hiff t ap₁).mpr ⟨rfl, s, rfl, hs⟩
  obtain ⟨st'', hst, he⟩ := directive_emits hf hfetch ht
  cases (hdir.symm.trans hst).symm.trans h
  exact ⟨t, he⟩

theorem directive_char (c : Caller abi) (fuel : Nat) (st : Vs) {b b' : Byte}
    (h : Piece.ofDirective b = .char b') :
    b' = b ∧ directive c fuel st b = putChar st b := by
  rw [Piece.ofDirective] at h
  rw [directive]
  split_ifs at h with hd hs hu
  cases h
  exact ⟨rfl, by rw [if_neg hd, if_neg hs, if_neg hu]⟩

end Piece

section Loop

variable {abi : Abi} (c : Caller abi)

inductive Runs : List Piece → List (List Byte) → Vs → Vs → Prop
  | nil : Runs [] [] st st
  | cons : Emits c p t st st₁ → Runs ps ts st₁ st' → Runs (p :: ps) (t :: ts) st st'

/-- Behind `n` characters no `out_index++` leaves the range of `int`. -/
def Room : List Piece → List (List Byte) → Nat → Prop
  | .char _ :: ps, t :: ts, n => wrap n < 2147483647 ∧ Room ps ts (n + t.length)
  | .conv _ :: ps, t :: ts, n => Room ps ts (n + t.length)
  | _, _, _ => True

theorem Room.tail {p : Piece} {t : List Byte} {ps : List Piece} {ts : List (List Byte)} {n : Nat}
    (h : Room (p :: ps) (t :: ts) n) : Room ps ts (n + t.length) := by
  cases p with
  | char b => exact h.2
  | conv k => exact h

theorem wrap_ge (x : Int) : -2147483648 ≤ wrap x := by
  rw [wrap_eq]
  omega

variable {c} {fmt : Nat → Byte} {fuel : Nat}

theorem vsprintfFrom_nul {m pos : Nat} {reads : List Nat} {st : Vs} (h : fmt pos = 0) :
    vsprintfFrom c fmt fuel (m + 1) pos reads st = .ok (st, pos :: reads) := if_pos h

theorem vsprintfFrom_char {m pos : Nat} {reads : List Nat} {st : Vs} {b : Byte} (h : fmt pos = b)
    (h0 : b ≠ 0) (hb : b ≠ ch '%') :
    vsprintfFrom c fmt fuel (m + 1) pos reads st =
      putChar st b >>= vsprintfFrom c fmt fuel m (pos + 1) (pos :: reads) := by
  rw [vsprintfFrom, h, if_neg h0, if_neg hb]

theorem vsprintfFrom_directive {m pos : Nat} {reads : List Nat} {st : Vs} {k : Byte}
    (h : fmt pos = ch '%') (hk : fmt (pos + 1) = k) :
    vsprintfFrom c fmt fuel (m + 1) pos reads st =
      directive c fuel st k >>=
        vsprintfFrom c fmt fuel m (pos + 2) ((pos + 1) :: pos :: reads) := by
  rw [vsprintfFrom, h, if_neg (by decide), if_pos rfl, hk]

theorem emits_of_ofDirective {k : Byte} {st st' : Vs} (hf : 13 ≤ fuel)
    (hlow : -2147483648 ≤ st.outIndex) (h : directive c fuel st k = .ok st') :
    ∃ t, Emits c (Piece.ofDirective k) t st st' := by
  cases hp : Piece.ofDirective k with
  | char b =>
    obtain ⟨rfl, hd⟩ := directive_char c fuel st hp
    exact ⟨[b], emits_of_putChar hlow (hd.symm.trans h)⟩
  | conv kind =>
    cases ofDirective_eq_conv hp
    exact emits_of_directive hf h

theorem mem_reads {m pos : Nat} {reads reads' : List Nat} {st st' : Vs}
    (h : vsprintfFrom c fmt fuel m pos reads st = .ok (st', reads')) {r : Nat}
    (hr : r ∈ pos :: reads) : r ∈ reads' := by
  induction m generalizing pos reads st with
  | zero => cases h
  | succ m ih =>
    rw [vsprintfFrom] at h
    split_ifs at h with h0 hb
    · cases h
      exact hr
    · obtain ⟨st₁, -, h⟩ := exists_of_bind h
      exact ih h (.tail _ (.tail _ hr))
    · obtain ⟨st₁, -, h⟩ := exists_of_bind h
      exact ih h (.tail _ hr)

theorem map_eq_some_cons {p : Piece} {o : Option (List Piece)} {ps : List Piece}
    (h : o.map (p :: ·) = some ps) : ∃ qs, o = some qs ∧ ps = p :: qs := by
  cases o with
  | none => cases h
  | some qs =>
    cases h
    exact ⟨qs, rfl, rfl⟩

theorem spells_tail {pos : Nat} {b : Byte} {bs : List Byte}
    (h : Spells (fun i => fmt (pos + i)) (b :: bs)) :
    fmt pos = b ∧ b ≠ 0 ∧ Spells (fun i => fmt (pos + 1 + i)) bs := by
  obtain ⟨hb, h0, ht⟩ := h
  refine ⟨hb, h0, ?_⟩
  simpa only [Nat.add_assoc, Nat.add_comm 1] using ht

/-- A run that ends has appended the pieces of the format, or has read past its
end. -/
theorem runs_of_vsprintfFrom {text : List Byte} {m pos : Nat} {reads reads' : List Nat}
    {st st' : Vs} (hf : 13 ≤ fuel) (hsp : Spells (fun i => fmt (pos + i)) text)
    (hlow : -2147483648 ≤ st.outIndex)
    (h : vsprintfFrom c fmt fuel m pos reads st = .ok (st', reads')) :
    (∃ ps ts, parse text = some ps ∧ Runs c ps ts st st') ∨
      parse text = none ∧ pos + text.length + 1 ∈ reads' := by
  induction text using format_induction generalizing m pos reads st with
  | nil =>
    cases m with
    | zero => cases h
    | succ m =>
      have h0 : fmt pos = 0 := hsp
      rw [vsprintfFrom_nul h0] at h
      cases h
      exact .inl ⟨[], [], rfl, .nil⟩
  | cut =>
    cases m with
    | zero => cases h
    | succ m =>
      obtain ⟨hb, -, hk⟩ := spells_tail hsp
      rw [vsprintfFrom_directive hb hk] at h
      obtain ⟨st₁, -, h⟩ := exists_of_bind h
      exact .inr ⟨rfl, mem_reads h (.head _)⟩
  | directive k bs ih =>
    cases m with
    | zero => cases h
    | succ m =>
      obtain ⟨hb, -, ht⟩ := spells_tail hsp
      obtain ⟨hk, -, ht⟩ := spells_tail ht
      rw [vsprintfFrom_directive hb hk] at h
      obtain ⟨st₁, hd, h⟩ := exists_of_bind h
      obtain ⟨t, he⟩ := emits_of_ofDirective hf hlow hd
      obtain ⟨ps, ts, hp, hr⟩ | ⟨hp, hr⟩ := ih ht (he.outIndex ▸ wrap_ge _) h
      · exact .inl ⟨_, t :: ts, by rw [parse_directive, hp]; rfl, .cons he hr⟩
      · refine .inr ⟨by rw [parse_directive, hp]; rfl, ?_⟩
        rwa [List.length_cons, List.length_cons,
          show pos + (bs.length + 1 + 1) + 1 = pos + 1 + 1 + bs.length + 1 by omega]
  | char b bs hb ih =>
    cases m with
    | zero => cases h
    | succ m =>
      obtain ⟨hc, h0, ht⟩ := spells_tail hsp
      rw [vsprintfFrom_char hc h0 hb] at h
      obtain ⟨st₁, hd, h⟩ := exists_of_bind h
      have he := emits_of_putChar (c := c) hlow hd
      obtain ⟨ps, ts, hp, hr⟩ | ⟨hp, hr⟩ := ih ht (he.outIndex ▸ wrap_ge _) h
      · exact .inl ⟨_, [b] :: ts, by rw [parse_char hb, hp]; rfl, .cons he hr⟩
      · refine .inr ⟨by rw [parse_char hb, hp]; rfl, ?_⟩
        rwa [List.length_cons, show pos + (bs.length + 1) + 1 = pos + 1 + bs.length + 1 by omega]

theorem Emits.outIndex_eq {p : Piece} {t : List Byte} {st st' : Vs} {n : Nat}
    (h : Emits c p t st st') (hst : st.outIndex = wrap n) :
    st'.outIndex = wrap (n + t.length : Nat) := by
  rw [h.outIndex, hst, wrap_wrap_add]
  rfl

theorem directive_ofDirective {k : Byte} {st : Vs} {t : List Byte} {ap : Nat} (hf : 13 ≤ fuel)
    (hlow : -2147483648 ≤ st.outIndex) (h : Fetches c (Piece.ofDirective k) st.ap t ap)
    (ht : t.length < fuel) (hroom : ∀ b, Piece.ofDirective k = .char b → st.outIndex < 2147483647) :
    ∃ st', directive c fuel st k = .ok st' ∧ Emits c (Piece.ofDirective k) t st st' := by
  cases hp : Piece.ofDirective k with
  | char b =>
    obtain ⟨rfl, hd⟩ := directive_char c fuel st hp
    rw [hp] at h
    cases h
    rw [hd]
    exact putChar_emits hlow (hroom b hp) b
  | conv kind =>
    cases ofDirective_eq_conv hp
    exact directive_emits hf (hp ▸ h) ht

theorem vsprintfFrom_runs (c : Caller abi) (fuel m pos : Nat) (reads : List Nat) (st : Vs)
    {text : List Byte} {ps : List Piece} {ts : List (List Byte)} {n ap : Nat} (hf : 13 ≤ fuel)
    (hsp : Spells (fun i => fmt (pos + i)) text) (hp : parse text = some ps)
    (hfetch : FetchesAll c ps st.ap ts ap) (hroom : Room ps ts n) (hst : st.outIndex = wrap n)
    (hts : ∀ t ∈ ts, t.length < fuel) (hm : text.length < m) :
    ∃ st' reads', vsprintfFrom c fmt fuel m pos reads st = .ok (st', reads') ∧
      Runs c ps ts st st' ∧ ∀ r ∈ reads', r ∈ reads ∨ r ≤ pos + text.length := by
  induction text using format_induction generalizing m pos n reads st ps ts with
  | nil =>
    cases m with
    | zero => cases hm
    | succ m =>
      have h0 : fmt pos = 0 := hsp
      cases hp
      cases hfetch
      refine ⟨st, pos :: reads, vsprintfFrom_nul h0, .nil, fun r hr => ?_⟩
      cases hr with
      | head => exact .inr (Nat.le_refl _)
      | tail _ hr => exact .inl hr
  | cut => cases hp
  | directive k bs ih =>
    cases m with
    | zero => cases hm
    | succ m =>
      obtain ⟨hb, -, ht⟩ := spells_tail hsp
      obtain ⟨hk, -, ht⟩ := spells_tail ht
      rw [parse_directive] at hp
      obtain ⟨qs, hq, rfl⟩ := map_eq_some_cons hp
      obtain ⟨t, us, ap₁, rfl, h, hfetch⟩ := hfetch.cons_inv
      obtain ⟨st₁, hd, he⟩ := directive_ofDirective hf (hst ▸ wrap_ge _) h (hts t (.head _))
        fun b hb => by
          rw [hb] at hroom
          exact hst ▸ hroom.1
      obtain ⟨st', reads', hrun, hruns, hreads⟩ := ih _ _ ((pos + 1) :: pos :: reads) st₁ ht hq
        ((h.unique he.fetch).2 ▸ hfetch) hroom.tail (he.outIndex_eq hst)
        (fun t ht => hts t (.tail _ ht))
        (Nat.lt_of_succ_lt (Nat.lt_of_succ_lt_succ hm))
      refine ⟨st', reads', ?_, .cons he hruns, fun r hr => ?_⟩
      · rw [vsprintfFrom_directive hb hk, hd]
        exact hrun
      · rw [List.length_cons, List.length_cons]
        obtain hr | hr := hreads r hr
        · rw [List.mem_cons, List.mem_cons] at hr
          obtain rfl | rfl | hr := hr
          · exact .inr (by omega)
          · exact .inr (by omega)
          · exact .inl hr
        · exact .inr (by omega)
  | char b bs hb ih =>
    cases m with
    | zero => cases hm
    | succ m =>
      obtain ⟨hc, h0, ht⟩ := spells_tail hsp
      rw [parse_char hb] at hp
      obtain ⟨qs, hq, rfl⟩ := map_eq_some_cons hp
      obtain ⟨t, us, ap₁, rfl, h, hfetch⟩ := hfetch.cons_inv
      cases h
      obtain ⟨hr, hroom⟩ := hroom
      have hlow : -2147483648 ≤ st.outIndex := hst ▸ wrap_ge _
      have hlt : st.outIndex < 2147483647 := hst ▸ hr
      obtain ⟨st₁, hd, he⟩ := putChar_emits (c := c) hlow hlt b
      obtain ⟨st', reads', hrun, hruns, hreads⟩ := ih _ _ (pos :: reads) st₁ ht hq
        ((Fetches.char.unique he.fetch).2 ▸ hfetch) hroom (he.outIndex_eq hst)
        (fun t ht => hts t (.tail _ ht)) (Nat.lt_of_succ_lt_succ hm)
      refine ⟨st', reads', ?_, .cons he hruns, fun r hr => ?_⟩
      · rw [vsprintfFrom_char hc h0 hb, hd]
        exact hrun
      · rw [List.length_cons]
        obtain hr | hr := hreads r hr
        · rw [List.mem_cons] at hr
          obtain rfl | hr := hr
          · exact .inr (by omega)
          · exact .inl hr
        · exact .inr (by omega)

end Loop

section Runs

variable {abi : Abi} {c : Caller abi} {ps : List Piece} {ts : List (List Byte)} {st st' : Vs}

theorem Runs.fetches (h : Runs c ps ts st st') : FetchesAll c ps st.ap ts st'.ap := by
  induction h with
  | nil => exact .nil
  | cons he _ ih => exact .cons he.fetch ih

theorem Runs.room (h : Runs c ps ts st st') {n : Nat} (hst : st.outIndex = wrap n) :
    Room ps ts n := by
  induction h generalizing n with
  | nil => trivial
  | @cons p t st st₁ ps ts st' he _ ih =>
    have hr := ih (he.outIndex_eq hst)
    cases p with
    | char b => exact ⟨hst ▸ he.room b rfl, hr⟩
    | conv k => exact hr

theorem Runs.outIndex (h : Runs c ps ts st st') {n : Nat} (hst : st.outIndex = wrap n) :
    st'.outIndex = wrap (n + ts.flatten.length : Nat) := by
  induction h generalizing n with
  | nil => exact hst
  | cons he _ ih =>
    rw [ih (he.outIndex_eq hst), List.flatten_cons, List.length_append, Nat.add_assoc]

theorem Runs.puts (h : Runs c ps ts st st') {n : Nat} (hst : st.outIndex = n)
    (hl : n + ts.flatten.length ≤ 2147483647) : Puts ts.flatten n st.out st'.out := by
  induction h generalizing n with
  | nil => exact Puts.nil n _
  | @cons p t st st₁ ps ts st' he _ ih =>
    rw [List.flatten_cons, List.length_append] at hl
    have hst₁ : st₁.outIndex = (n + t.length : Nat) := by
      rw [he.outIndex, hst, wrap_of_le (by omega) (by omega)]
      rfl
    exact (hst ▸ he.puts).append (ih hst₁ (by omega))

/-- In front of `out_index` there is never a zero, even when it has wrapped. -/
theorem Runs.ne_zero (h : Runs c ps ts st st') (hp : ∀ b, .char b ∈ ps → b ≠ 0)
    (hst : ∀ i, 0 ≤ i → i < st.outIndex → st.out.data i ≠ 0) (hlow : -2147483648 ≤ st.outIndex)
    {i : Int} (hi : 0 ≤ i) (hi' : i < st'.outIndex) : st'.out.data i ≠ 0 := by
  induction h with
  | nil => exact hst i hi hi'
  | @cons p t st st₁ ps ts st' he _ ih =>
    refine ih (fun b hb => hp b (.tail _ hb)) (fun j hj hj' => ?_) (he.outIndex ▸ wrap_ge _) hi'
    by_cases hl : j < st.outIndex
    · rw [he.puts.outside j (.inl hl)]
      exact hst j hj hl
    · have hlt : j < st.outIndex + t.length := by
        rw [he.outIndex, wrap_eq] at hj'
        omega
      have hk : st.outIndex + ((j - st.outIndex).toNat : Int) = j := by omega
      have hk' : (j - st.outIndex).toNat < t.length := by omega
      rw [← hk, (he.puts.inside _ hk').1]
      exact he.fetch.ne_zero (fun b hb => hp b (hb ▸ .head _)) (List.getElem_mem _)

end Runs

end LinuxCpu.Klib
