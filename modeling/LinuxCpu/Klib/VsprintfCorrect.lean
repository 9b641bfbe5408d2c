import LinuxCpu.Klib.Vsprintf

namespace LinuxCpu.Klib

open CString Decimal

section Whole

variable {abi : Abi} {c : Caller abi} {fmt : Nat → Byte} {text : List Byte} {ap : Nat}

theorem length_le_flatten {t : List Byte} {ts : List (List Byte)} (h : t ∈ ts) :
    t.length ≤ ts.flatten.length := (List.sublist_flatten_of_mem h).length_le

theorem vsprintf_runs {ps : List Piece} {ts : List (List Byte)} {ap' fuel : Nat}
    (hsp : Spells fmt text) (hp : parse text = some ps) (hfetch : FetchesAll c ps ap ts ap')
    (hroom : Room ps ts 0) (hf : 13 + text.length + ts.flatten.length ≤ fuel) (out : Int → Byte) :
    ∃ st reads, vsprintf c fmt fuel out ap = .ok (st.finish, reads) ∧
      Runs c ps ts (.start out ap) st ∧ ∀ r ∈ reads, r ≤ text.length := by
  obtain ⟨st, reads, hrun, hruns, hreads⟩ := vsprintfFrom_runs c fuel fuel 0 [] (.start out ap)
    (by omega) (by simpa only [Nat.zero_add] using hsp) hp hfetch hroom rfl
    (fun t ht => by have := length_le_flatten ht; omega) (by omega)
  refine ⟨st, reads, ?_, hruns, fun r hr => ?_⟩
  · rw [vsprintf, hrun]
    rfl
  · obtain hr | hr := hreads r hr
    · cases hr
    · rwa [Nat.zero_add] at hr

theorem runs_of_vsprintf {fuel : Nat} {out : Int → Byte} {q : Vs} {reads : List Nat}
    (hf : 13 ≤ fuel) (hsp : Spells fmt text) (h : vsprintf c fmt fuel out ap = .ok (q, reads)) :
    (∃ ps ts st, parse text = some ps ∧ Runs c ps ts (.start out ap) st ∧ q = st.finish) ∨
      parse text = none ∧ text.length + 1 ∈ reads := by
  obtain ⟨⟨st, reads'⟩, hrun, h⟩ := exists_of_bind h
  cases h
  obtain ⟨ps, ts, hp, hr⟩ | ⟨hp, hr⟩ := runs_of_vsprintfFrom hf
    (by simpa only [Nat.zero_add] using hsp) (by change (-2147483648 : Int) ≤ 0; decide) hrun
  · exact .inl ⟨ps, ts, st, hp, hr, rfl⟩
  · exact .inr ⟨hp, by rwa [Nat.zero_add] at hr⟩

theorem exists_runs {ps : List Piece} {fuel : Nat} {out : Int → Byte} {q : Vs} {reads : List Nat}
    (hf : 13 ≤ fuel) (hsp : Spells fmt text) (hp : parse text = some ps)
    (h : vsprintf c fmt fuel out ap = .ok (q, reads)) :
    ∃ ts st, Runs c ps ts (.start out ap) st ∧ q = st.finish := by
  obtain ⟨ps', ts, st, hp', hruns, hq⟩ | ⟨hp', -⟩ := runs_of_vsprintf hf hsp h
  · cases hp.symm.trans hp'
    exact ⟨ts, st, hruns, hq⟩
  · cases hp.symm.trans hp'

theorem Runs.spells_finish {ps : List Piece} {ts : List (List Byte)} {out : Int → Byte} {st : Vs}
    (h : Runs c ps ts (.start out ap) st) (hp : ∀ b, .char b ∈ ps → b ≠ 0)
    (h0 : 0 ≤ st.outIndex) :
    Spells (fun i => st.finish.out.data i)
      ((List.range st.outIndex.toNat).map fun i : Nat => st.out.data i) := by
  have hn : ((st.outIndex.toNat : Nat) : Int) = st.outIndex := Int.toNat_of_nonneg h0
  refine Spells.of_getElem (fun i hi => ?_) ?_ fun b hb => ?_
  · rw [List.length_map, List.length_range] at hi
    rw [Vs.finish, Buf.set_ne _ _ (by omega), List.getElem_map, List.getElem_range]
  · rw [List.length_map, List.length_range, hn]
    exact Buf.set_same ..
  · obtain ⟨i, hi, rfl⟩ := List.mem_map.mp hb
    have hi := List.mem_range.mp hi
    refine h.ne_zero hp (fun j hj hj' => ?_) (by change (-2147483648 : Int) ≤ 0; decide)
      (Int.natCast_nonneg i) (by omega)
    change j < 0 at hj'
    omega

theorem Runs.outIndex_start {ps : List Piece} {ts : List (List Byte)} {out : Int → Byte} {st : Vs}
    (h : Runs c ps ts (.start out ap) st) : st.outIndex = wrap ts.flatten.length := by
  rw [h.outIndex (n := 0) rfl, Nat.zero_add]

theorem FetchesAll.room {ps : List Piece} {ts : List (List Byte)} {ap' n : Nat}
    (h : FetchesAll c ps ap ts ap') (hl : n + ts.flatten.length ≤ 2147483647) : Room ps ts n := by
  induction h generalizing n with
  | nil => trivial
  | cons hf _ ih =>
    rw [List.flatten_cons, List.length_append, ← Nat.add_assoc] at hl
    have hr := ih hl
    cases hf with
    | char =>
      rw [List.length_singleton] at hl
      exact ⟨by rw [wrap_of_le (by omega) (by omega)]; omega, hr⟩
    | _ => exact hr

end Whole

def Caller.passing (abi : Abi) (s : List Byte) : Caller abi :=
  ⟨fun a => s.getD (a.toNat - 1) 0, fun _ => 1⟩

theorem Caller.passing_holds {abi : Abi} {s : List Byte} (ap : Nat) (hne : ∀ b ∈ s, b ≠ 0)
    (hl : s.length + 1 < 2 ^ abi.xlen) : (Caller.passing abi s).Holds ap (.str s) := by
  have h1 : (1 : BitVec abi.xlen) ≠ 0 := by cases abi <;> decide
  refine ⟨_, if_neg h1, Spells.of_getD (fun i hi => ?_) hne⟩
  change s.getD ((1 + BitVec.ofNat abi.xlen i).toNat - 1) 0 = _
  rw [BitVec.add_comm, ofNat_succ, BitVec.toNat_ofNat, Nat.mod_eq_of_lt (by omega),
    Nat.add_sub_cancel]

/-- `out` holds `s` with its terminator and is otherwise as before, the length of
`s` is returned, and `k` slots are taken. -/
structure Rendered (out : Int → Byte) (s : List Byte) (ap k : Nat) (st : Vs) : Prop where
  text : ∀ i (hi : i < s.length), st.out.data i = s[i]
  nul : st.out.data s.length = 0
  rest : ∀ j, j < 0 ∨ s.length < j → st.out.data j = out j
  written : ∀ j ∈ st.out.written, 0 ≤ j ∧ j ≤ s.length
  outIndex : st.outIndex = s.length
  ap : st.ap = ap + k

def Renders (c : Caller abi) (fmt : Nat → Byte) (out : Int → Byte) (s : List Byte) (ap k : Nat) :
    Prop :=
  ∃ N, ∀ fuel ≥ N, ∃ st reads, vsprintf c fmt fuel out ap = .ok (st, reads) ∧
    Rendered out s ap k st

theorem Runs.rendered {c : Caller abi} {ps : List Piece} {ts : List (List Byte)}
    {out : Int → Byte} {ap k : Nat} {st : Vs} (h : Runs c ps ts (.start out ap) st)
    (hl : ts.flatten.length ≤ 2147483647) (ha : st.ap = ap + k) :
    Rendered out ts.flatten ap k st.finish := by
  have hput : Puts ts.flatten 0 ⟨out, []⟩ st.out := h.puts (n := 0) rfl (by omega)
  have ho : st.outIndex = ts.flatten.length := by
    rw [h.outIndex_start, wrap_of_le (by omega) (by omega)]
  have hterm := hput.terminate 0
  rw [Int.zero_add] at hterm
  rw [Vs.finish, ho]
  exact
    { text := fun i hi => by rw [← (hterm.inside i hi).1, Int.zero_add]
      nul := Buf.set_same ..
      rest := fun j hj => hterm.outside j (by omega)
      written := fun j hj => by
        obtain hj | hj := hterm.written j hj
        · cases hj
        · exact ⟨hj.1, by omega⟩
      outIndex := rfl
      ap := ha }

theorem Runs.rendered_finish {c : Caller abi} {ps : List Piece} {ts : List (List Byte)}
    {out : Int → Byte} {ap : Nat} {st : Vs} (h : Runs c ps ts (.start out ap) st)
    (hl : ts.flatten.length ≤ 2147483647) : Rendered out ts.flatten ap (st.ap - ap) st.finish := by
  have ha : ap ≤ st.ap := h.fetches.le
  exact h.rendered hl (by omega)

theorem FetchesAll.renders {c : Caller abi} {fmt : Nat → Byte} {text : List Byte} {ps : List Piece}
    {ts : List (List Byte)} {ap ap' : Nat} (hf : FetchesAll c ps ap ts ap') (hsp : Spells fmt text)
    (hp : parse text = some ps) (hl : ts.flatten.length ≤ 2147483647) (out : Int → Byte) :
    Renders c fmt out ts.flatten ap (ap' - ap) := by
  refine ⟨13 + text.length + ts.flatten.length, fun fuel hfuel => ?_⟩
  obtain ⟨st, reads, hrun, hruns, -⟩ := vsprintf_runs hsp hp hf (hf.room (by omega)) hfuel out
  refine ⟨st.finish, reads, hrun, ?_⟩
  rw [← (hruns.fetches.unique hf).2]
  exact hruns.rendered_finish hl

/-- `vsprintf` renders a format whose text fits an `int`. -/
theorem vsprintf_renders (c : Caller .lp64) (fmt : Nat → Byte) {text : List Byte}
    {ps : List Piece} {args : List Arg} {s : List Byte} (out : Int → Byte) (ap : Nat)
    (hsp : Spells fmt text) (hp : parse text = some ps) (hpass : c.Passes ap args)
    (hr : render ps args = some s) (hl : s.length ≤ 2147483647) :
    Renders c fmt out s ap (convs ps).length := by
  obtain ⟨ts, ap', hf, rfl, -, ha⟩ := fetchesAll_of_passes (inStep_lp64 ap (convs ps)) hpass hr
  have hrend := hf.renders hsp hp hl out
  rwa [ha rfl, Nat.add_sub_cancel_left] at hrend

/-- `vsprintf` ends with nothing read behind the first zero of its format, the
characters of `text`, and returns the length of the string it leaves in `out`. -/
def Contained (c : Caller abi) (fmt : Nat → Byte) (text : List Byte) (out : Int → Byte) (ap : Nat) :
    Prop :=
  ∃ N, ∀ fuel ≥ N, ∃ st reads, vsprintf c fmt fuel out ap = .ok (st, reads) ∧
    (∀ r ∈ reads, r ≤ text.length) ∧ ∃ s, Spells (fun i => st.out.data i) s ∧ st.outIndex = s.length

theorem char_ne_zero {text : List Byte} {ps : List Piece} (h : parse text = some ps)
    (hne : ∀ b ∈ text, b ≠ 0) {b : Byte} (hb : .char b ∈ ps) : b ≠ 0 := by
  induction text using format_induction generalizing ps with
  | nil =>
    cases h
    cases hb
  | cut => cases h
  | directive k bs ih =>
    rw [parse_directive] at h
    obtain ⟨qs, hq, rfl⟩ := map_eq_some_cons h
    obtain hb | hb := List.mem_cons.mp hb
    · exact ofDirective_ne_zero (hne k (.tail _ (.head _))) hb.symm
    · exact ih hq (fun b hb => hne b (.tail _ (.tail _ hb))) hb
  | char a bs ha ih =>
    rw [parse_char ha] at h
    obtain ⟨qs, hq, rfl⟩ := map_eq_some_cons h
    obtain hb | hb := List.mem_cons.mp hb
    · cases hb
      exact hne b (.head _)
    · exact ih hq (fun b hb => hne b (.tail _ hb)) hb

/-- `vsprintf` stays in its format exactly when no `%` is its last character,
every `%s` finds a string, and `out_index` neither overflows nor ends negative. -/
theorem contained_iff {abi : Abi} (c : Caller abi) (fmt : Nat → Byte) {text : List Byte}
    (out : Int → Byte) (ap : Nat) (hsp : Spells fmt text) :
    Contained c fmt text out ap ↔ ∃ ps ts ap', parse text = some ps ∧
      FetchesAll c ps ap ts ap' ∧ Room ps ts 0 ∧ 0 ≤ wrap ts.flatten.length := by
  constructor
  · rintro ⟨N, h⟩
    obtain ⟨q, reads, hrun, hreads, s, -, hs⟩ := h (max N 13) (Nat.le_max_left ..)
    obtain ⟨ps, ts, st, hp, hr, rfl⟩ | ⟨-, hr⟩ := runs_of_vsprintf (Nat.le_max_right ..) hsp hrun
    · refine ⟨ps, ts, st.ap, hp, hr.fetches, hr.room (n := 0) rfl, ?_⟩
      have hs : st.outIndex = s.length := hs
      rw [← hr.outIndex_start, hs]
      exact Int.natCast_nonneg _
    · exact absurd (hreads _ hr) (Nat.not_succ_le_self _)
  · rintro ⟨ps, ts, ap', hp, hfetch, hroom, h0⟩
    refine ⟨13 + text.length + ts.flatten.length, fun fuel hf => ?_⟩
    obtain ⟨st, reads, hrun, hr, hreads⟩ := vsprintf_runs hsp hp hfetch hroom hf out
    have h0 : 0 ≤ st.outIndex := hr.outIndex_start ▸ h0
    refine ⟨st.finish, reads, hrun, hreads, _,
      hr.spells_finish (fun b hb => char_ne_zero hp (fun b => hsp.ne_zero) hb) h0, ?_⟩
    rw [List.length_map, List.length_range, Int.toNat_of_nonneg h0]
    rfl

theorem vsprintf_renders_hi :
    Renders (.passing .lp64 [ch 'h', ch 'i'])
      (literal [ch '%', ch 's', ch '%', ch 'd', ch '%', ch '%']) (fun _ => 0)
      [ch 'h', ch 'i', ch '1', ch '%'] 1 2 :=
  vsprintf_renders (.passing .lp64 [ch 'h', ch 'i']) _ (fun _ => 0) 1 (literal_spells (by decide))
    (show parse _ = some [.conv .s, .conv .d, .char (ch '%')] by decide)
    (show Caller.Passes _ 1 [.str [ch 'h', ch 'i'], .int 1] from
      ⟨Caller.passing_holds 1 (by decide) (by decide), rfl, trivial⟩) (by decide) (by decide)

theorem not_renders_of_lt {abi : Abi} {c : Caller abi} {fmt : Nat → Byte} {text s : List Byte}
    {ps : List Piece} (out : Int → Byte) (ap k : Nat) (hsp : Spells fmt text)
    (hp : parse text = some ps) (hl : 2147483647 < s.length) : ¬ Renders c fmt out s ap k := by
  rintro ⟨N, h⟩
  obtain ⟨q, reads, hrun, hq⟩ := h (max N 13) (Nat.le_max_left ..)
  obtain ⟨ts, st, hr, rfl⟩ := exists_runs (Nat.le_max_right ..) hsp hp hrun
  have ho := hr.outIndex_start
  have hs : st.outIndex = s.length := hq.outIndex
  rw [wrap_eq] at ho
  omega

theorem ne_zero_of_mem_replicate {n : Nat} {b b' : Byte} (hb : b ≠ 0)
    (h : b' ∈ List.replicate n b) : b' ≠ 0 := by
  rw [List.eq_of_mem_replicate h]
  exact hb

/-- A `%s` with 2 ^ 31 characters: the length does not fit the result. -/
theorem not_vsprintf_renders :
    let s := List.replicate (2 ^ 31) (ch 'x')
    let c := Caller.passing .lp64 s
    Spells (literal [ch '%', ch 's']) [ch '%', ch 's'] ∧
      parse [ch '%', ch 's'] = some [.conv .s] ∧ c.Passes 1 [.str s] ∧
      render [.conv .s] [.str s] = some s ∧
      ¬ Renders c (literal [ch '%', ch 's']) (fun _ => 0) s 1 1 := by
  intro s c
  have hl : s.length = 2 ^ 31 := List.length_replicate
  have hsp : Spells (literal [ch '%', ch 's']) [ch '%', ch 's'] := literal_spells (by decide)
  have hp : parse [ch '%', ch 's'] = some [.conv .s] := by decide
  have hne : ∀ b ∈ s, b ≠ 0 := fun b => ne_zero_of_mem_replicate (by decide)
  refine ⟨hsp, hp, ⟨Caller.passing_holds 1 hne ?_, trivial⟩, ?_, ?_⟩
  · rw [hl]
    decide
  · exact congrArg some (List.append_nil s)
  · exact not_renders_of_lt _ _ _ hsp hp (by rw [hl]; decide)

theorem contained_d_s_percent :
    Contained (.passing .lp64 [ch 'h', ch 'i'])
      (literal [ch '%', ch 'd', ch '%', ch 's', ch '%', ch '%'])
      [ch '%', ch 'd', ch '%', ch 's', ch '%', ch '%'] (fun _ => 0) 1 := by
  obtain ⟨s, hp, hs⟩ : Caller.Holds (.passing .lp64 [ch 'h', ch 'i']) 2 (.str [ch 'h', ch 'i']) :=
    Caller.passing_holds 2 (by decide) (by decide)
  refine (contained_iff _ _ _ 1 (literal_spells (by decide))).mpr
    ⟨[.conv .d, .conv .s, .char (ch '%')], _, _, by decide,
      .cons .d (.cons (.s hp hs) (.cons .char .nil)), ?_, ?_⟩
  · exact ⟨by decide, trivial⟩
  · decide

/-- `%` as the whole format. -/
theorem not_contained_percent :
    ¬ Contained (Caller.passing .lp64 []) (literal [ch '%']) [ch '%'] (fun _ => 0) 1 := by
  rintro ⟨N, h⟩
  obtain ⟨q, reads, hrun, hreads, -⟩ := h (max N 13) (Nat.le_max_left ..)
  obtain ⟨ps, ts, st, hp, -⟩ | ⟨-, hr⟩ :=
    runs_of_vsprintf (Nat.le_max_right ..) (literal_spells (by decide)) hrun
  · cases hp
  · exact absurd (hreads _ hr) (by decide)

end LinuxCpu.Klib
