import LinuxCpu.Klib.VsprintfCorrect

namespace LinuxCpu.Klib

open CString

section Runs

variable {abi : Abi} {c : Caller abi} {ps : List Piece} {ts : List (List Byte)} {st st' : Vs}

theorem Runs.mono (h : Runs c ps ts st st') {j : Int} (hj : j ∈ st.out.written) :
    j ∈ st'.out.written := by
  induction h with
  | nil => exact hj
  | cons he _ ih => exact ih (he.puts.mono j hj)

theorem Runs.mem_written (h : Runs c ps ts st st') {n m : Nat} (hst : st.outIndex = n)
    (hn : n ≤ m) (hm : m < n + ts.flatten.length) (hmax : m ≤ 2147483647) :
    (m : Int) ∈ st'.out.written := by
  induction h generalizing n with
  | nil => exact absurd (Nat.lt_of_le_of_lt hn hm) (Nat.lt_irrefl n)
  | @cons p t st st₁ ps ts st' he hs ih =>
    rw [List.flatten_cons, List.length_append] at hm
    by_cases hl : n + t.length ≤ m
    · refine ih (n := n + t.length) ?_ hl (by omega)
      rw [he.outIndex, hst, wrap_of_le (by omega) (by omega)]
      rfl
    · have hj := (he.puts.inside (m - n) (by omega)).2
      rw [hst, show (n : Int) + (m - n : Nat) = m by omega] at hj
      exact hs.mono hj

end Runs

theorem putchFrom_eq {out : Buf} {s : List Byte} {i : Int} {fuel : Nat} (hi : 0 ≤ i)
    (hs : ∀ k (hk : k < s.length), out.data (i + k) = s[k]) (hm : i + s.length ≤ 2147483647)
    (hf : s.length < fuel) (console : List Byte) :
    putchFrom out (i + s.length) fuel i console = .ok (console ++ s) := by
  induction s generalizing i fuel console with
  | nil =>
    cases fuel with
    | zero => cases hf
    | succ fuel =>
      rw [putchFrom, if_neg (by simp), List.append_nil]
  | cons b s ih =>
    cases fuel with
    | zero => cases hf
    | succ fuel =>
      rw [List.length_cons] at hm hf ⊢
      have hb : out.data i = b := by
        rw [← Int.add_zero i]
        exact hs 0 (Nat.succ_pos _)
      have htail : ∀ k (hk : k < s.length), out.data (i + 1 + k) = s[k] := fun k hk => by
        rw [Int.add_assoc, Int.add_comm 1]
        exact hs (k + 1) (Nat.succ_lt_succ hk)
      have hnum : i + (s.length + 1 : Nat) = i + 1 + s.length := by omega
      rw [putchFrom, if_pos (by omega), int_eq (by omega), hb, hnum]
      apply (ih (by omega) htail (by omega) (by omega) _).trans
      rw [List.append_assoc, List.singleton_append]

section Printf

variable {abi : Abi} {c : Caller abi} {fmt : Nat → Byte} {text s : List Byte} {ps : List Piece}

/-- `printf` ends, has written indices of its buffer only, has given `s` to
`putch`, and returns its length. -/
def PrintfSafe (c : Caller abi) (fmt : Nat → Byte) (s : List Byte) : Prop :=
  ∃ N, ∀ fuel ≥ N, ∃ st console, printf c fmt fuel = .ok (st, console) ∧
    (∀ j ∈ st.out.written, 0 ≤ j ∧ j < bufSize) ∧ console = s ∧ st.outIndex = s.length

theorem Rendered.console {out : Int → Byte} {ap k : Nat} {st : Vs} (h : Rendered out s ap k st)
    (hl : s.length ≤ 2147483647) {fuel : Nat} (hf : s.length < fuel) :
    putchFrom st.out st.outIndex fuel 0 [] = .ok s := by
  rw [h.outIndex, ← Int.zero_add s.length]
  refine putchFrom_eq (Int.le_refl 0) (fun i hi => ?_) (by omega) hf []
  rw [Int.zero_add]
  exact h.text i hi

theorem printfSafe_of_fetchesAll {ts : List (List Byte)} {ap' : Nat} (hsp : Spells fmt text)
    (hp : parse text = some ps) (hf : FetchesAll c ps 1 ts ap') (hl : ts.flatten.length < 1024) :
    PrintfSafe c fmt ts.flatten := by
  obtain ⟨N, h⟩ := hf.renders hsp hp (by omega) fun _ => 0
  refine ⟨max N 1024, fun fuel hfuel => ?_⟩
  obtain ⟨st, reads, hrun, hr⟩ := h fuel (by omega)
  refine ⟨st, ts.flatten, ?_, fun j hj => ?_, rfl, hr.outIndex⟩
  · rw [printf, hrun, ok_bind]
    change (putchFrom st.out st.outIndex fuel 0 [] >>= _) = _
    rw [hr.console (by omega) (by omega)]
    rfl
  · have hj := hr.written j hj
    rw [bufSize]
    omega

theorem fetchesAll_of_printfSafe (hsp : Spells fmt text) (hp : parse text = some ps)
    (h : PrintfSafe c fmt s) :
    (∃ ts ap', FetchesAll c ps 1 ts ap' ∧ ts.flatten = s) ∧ s.length < 1024 := by
  obtain ⟨N, h⟩ := h
  obtain ⟨q, console, hrun, hwrite, hcons, -⟩ := h (max N 1037) (Nat.le_max_left ..)
  obtain ⟨⟨q', reads⟩, hv, hrun⟩ := exists_of_bind hrun
  obtain ⟨console', hput, hrun⟩ := exists_of_bind hrun
  cases hrun
  obtain ⟨ts, st, hruns, rfl⟩ := exists_runs (by omega) hsp hp hv
  -- beyond its last element the buffer is not written
  have hle : ts.flatten.length ≤ 1024 := by
    by_contra hlt
    have hmem := hruns.mem_written (n := 0) (m := 1024) rfl (by decide) (by omega) (by decide)
    exact absurd (hwrite 1024 (.tail _ hmem)).2 (by decide)
  have hr := hruns.rendered_finish (by omega)
  have hput' := hr.console (by omega) (show ts.flatten.length < max N 1037 by omega)
  cases hput.symm.trans hput'
  refine ⟨⟨ts, st.ap, hruns.fetches, hcons⟩, ?_⟩
  -- and the last element is left for the zero
  have hlast := (hwrite st.outIndex (.head _)).2
  have ho : st.outIndex = ts.flatten.length := hr.outIndex
  rw [ho, bufSize] at hlast
  rw [← hcons]
  omega

/-- `printf` is safe exactly when the texts of the arguments are found and, with
a zero behind them, fit its buffer; for conversions in step the length decides. -/
theorem printfSafe_iff {abi : Abi} (c : Caller abi) (fmt : Nat → Byte) {text s : List Byte}
    {ps : List Piece} {args : List Arg} (hsp : Spells fmt text) (hp : parse text = some ps)
    (hpass : c.Passes 1 args) (hr : render ps args = some s) :
    (PrintfSafe c fmt s ↔ (∃ ts ap', FetchesAll c ps 1 ts ap' ∧ ts.flatten = s) ∧
      s.length < 1024) ∧
    (inStep abi 1 (convs ps) = true → (PrintfSafe c fmt s ↔ s.length < 1024)) := by
  have hiff : PrintfSafe c fmt s ↔ (∃ ts ap', FetchesAll c ps 1 ts ap' ∧ ts.flatten = s) ∧
      s.length < 1024 := by
    refine ⟨fetchesAll_of_printfSafe hsp hp, ?_⟩
    rintro ⟨⟨ts, ap', hf, rfl⟩, hl⟩
    exact printfSafe_of_fetchesAll hsp hp hf hl
  refine ⟨hiff, fun hs => hiff.trans ⟨And.right, fun hl => ⟨?_, hl⟩⟩⟩
  obtain ⟨ts, ap', hf, ht, -⟩ := fetchesAll_of_passes hs hpass hr
  exact ⟨ts, ap', hf, ht⟩

theorem printfSafe_iff_hi :
    let c := Caller.passing .lp64 [ch 'h', ch 'i']
    (PrintfSafe c (literal [ch '%', ch 's']) [ch 'h', ch 'i'] ↔
      (∃ ts ap', FetchesAll c [.conv .s] 1 ts ap' ∧ ts.flatten = [ch 'h', ch 'i']) ∧
        [ch 'h', ch 'i'].length < 1024) ∧
    (inStep .lp64 1 (convs [.conv .s]) = true →
      (PrintfSafe c (literal [ch '%', ch 's']) [ch 'h', ch 'i'] ↔
        [ch 'h', ch 'i'].length < 1024)) :=
  printfSafe_iff (.passing .lp64 [ch 'h', ch 'i']) _ (literal_spells (by decide))
    (show parse _ = _ by decide)
    (show Caller.Passes _ 1 [.str [ch 'h', ch 'i']] from
      ⟨Caller.passing_holds 1 (by decide) (by decide), trivial⟩) (by decide)

/-- `%s` with 1024 characters: the zero behind them is written past the buffer. -/
theorem not_printfSafe :
    let s := List.replicate 1024 (ch 'x')
    let c := Caller.passing .lp64 s
    c.Passes 1 [.str s] ∧ render [.conv .s] [.str s] = some s ∧
      ¬ PrintfSafe c (literal [ch '%', ch 's']) s := by
  intro s c
  have hl : s.length = 1024 := List.length_replicate
  have hne : ∀ b ∈ s, b ≠ 0 := fun b => ne_zero_of_mem_replicate (by decide)
  refine ⟨⟨Caller.passing_holds 1 hne ?_, trivial⟩, congrArg some (List.append_nil s), fun h => ?_⟩
  · rw [hl]
    decide
  · have hp : parse [ch '%', ch 's'] = some [.conv .s] := by decide
    have hlt := (fetchesAll_of_printfSafe (literal_spells (by decide)) hp h).2
    omega

end Printf

end LinuxCpu.Klib
