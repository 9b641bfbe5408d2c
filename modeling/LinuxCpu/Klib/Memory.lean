import LinuxCpu.Klib.String
import LinuxCpu.Lib.ByteMemory

/-! `memmove` and `memcpy` of klib. -/

namespace LinuxCpu.Klib

open ByteMemory CString

section Model

variable (d s n : BitVec w)

/-- `for(int i = 0; i < n; ++i) d[i] = s[i];` -/
def moveUp : Nat → Int → Mem w → Except Stop (Mem w)
  | 0, _, _ => .error .fuel
  | fuel + 1, i, m =>
    let j := BitVec.ofInt w i
    if j < n then do
      let next ← int (i + 1)
      moveUp fuel next (Function.update m (d + j) (m (s + j)))
    else .ok m

/-- `for(int i = n - 1; i >= 0; --i) d[i] = s[i];` -/
def moveDown : Nat → Int → Mem w → Except Stop (Mem w)
  | 0, _, _ => .error .fuel
  | fuel + 1, i, m =>
    let j := BitVec.ofInt w i
    if 0 ≤ i then do
      let next ← int (i - 1)
      moveDown fuel next (Function.update m (d + j) (m (s + j)))
    else .ok m

/-- `for(size_t i = 0; i < n; ++i) d[i] = s[i];` -/
def copyUp : Nat → BitVec w → Mem w → Except Stop (Mem w)
  | 0, _, _ => .error .fuel
  | fuel + 1, i, m =>
    if i < n then copyUp fuel (i + 1) (Function.update m (d + i) (m (s + i))) else .ok m

variable (fuel : Nat) (m : Mem w)

/-- The pointer returned and the memory left; a null pointer is 0. -/
def memmove (dst src n : BitVec w) : Except Stop (BitVec w × Mem w) :=
  if dst = 0 ∨ src = 0 then .ok (0, m)
  else if n = 0 then .ok (dst, m)
  else if dst < src then do
    let m ← moveUp dst src n fuel 0 m
    return (dst, m)
  else do
    let m ← moveDown dst src fuel ((n - 1).setWidth 32).toInt m
    return (dst, m)

def memcpyError : List Byte := "Error: Calling Memcpy with Null Pointer\n".toList.map ch

/-- As `memmove`, with what is printed. -/
def memcpy (out src n : BitVec w) : Except Stop (BitVec w × Mem w × List Byte) :=
  if out = 0 ∨ src = 0 then .ok (0, m, memcpyError)
  else do
    let m ← copyUp out src n fuel 0 m
    return (out, m, [])

end Model

section Correct

variable {d s n : BitVec w} {m : Mem w} {fuel : Nat}

theorem copied_step_up {j : Nat} (hw : j < 2 ^ w)
    (hsrc : copied m d s 0 j (s + BitVec.ofNat w j) = m (s + BitVec.ofNat w j)) :
    Function.update (copied m d s 0 j) (d + BitVec.ofNat w j)
      (copied m d s 0 j (s + BitVec.ofNat w j)) = copied m d s 0 (j + 1) := by
  rw [hsrc, copied_succ m d s (Nat.zero_le j) hw]

theorem moveUp_eq (hn : n.toNat < 2 ^ 31)
    (hsrc : ∀ j < n.toNat, copied m d s 0 j (s + BitVec.ofNat w j) = m (s + BitVec.ofNat w j))
    {j : Nat} (hj : j ≤ n.toNat) (hf : n.toNat - j < fuel) :
    moveUp d s n fuel j (copied m d s 0 j) = .ok (copied m d s 0 n.toNat) := by
  induction fuel generalizing j with
  | zero => cases hf
  | succ fuel ih =>
    have hlt : BitVec.ofNat w j < n ↔ j < n.toNat := ofNat_lt_iff hj
    rw [moveUp, BitVec.ofInt_natCast]
    by_cases h : j < n.toNat
    · rw [if_pos (hlt.mpr h), int_eq (by omega), ok_bind,
        copied_step_up (Nat.lt_trans h n.isLt) (hsrc j h)]
      exact ih (j := j + 1) h (by omega)
    · rw [if_neg (mt hlt.mp h), Nat.le_antisymm hj (Nat.le_of_not_lt h)]

theorem copyUp_eq (hsrc : ∀ j < n.toNat,
      copied m d s 0 j (s + BitVec.ofNat w j) = m (s + BitVec.ofNat w j))
    {j : Nat} (hj : j ≤ n.toNat) (hf : n.toNat - j < fuel) :
    copyUp d s n fuel (BitVec.ofNat w j) (copied m d s 0 j) = .ok (copied m d s 0 n.toNat) := by
  induction fuel generalizing j with
  | zero => cases hf
  | succ fuel ih =>
    have hlt : BitVec.ofNat w j < n ↔ j < n.toNat := ofNat_lt_iff hj
    rw [copyUp]
    by_cases h : j < n.toNat
    · rw [if_pos (hlt.mpr h), ofNat_succ, copied_step_up (Nat.lt_trans h n.isLt) (hsrc j h)]
      exact ih (j := j + 1) h (by omega)
    · rw [if_neg (mt hlt.mp h), Nat.le_antisymm hj (Nat.le_of_not_lt h)]

theorem moveDown_eq {k : Nat} (hk : k < 2 ^ 31) (hpow : k ≤ 2 ^ w)
    (hsrc : ∀ j < k, copied m d s (j + 1) k (s + BitVec.ofNat w j) = m (s + BitVec.ofNat w j))
    {j : Nat} (hj : j ≤ k) (hf : j < fuel) :
    moveDown d s fuel ((j : Int) - 1) (copied m d s j k) = .ok (copied m d s 0 k) := by
  induction fuel generalizing j with
  | zero => cases hf
  | succ fuel ih =>
    rw [moveDown]
    cases j with
    | zero => exact if_neg (by decide)
    | succ j =>
      have he : ((j + 1 : Nat) : Int) - 1 = j := by omega
      rw [he, if_pos (Int.natCast_nonneg j), int_eq (by omega), ok_bind, BitVec.ofInt_natCast,
        hsrc j hj, ← copied_pred m d s hj (by omega)]
      exact ih (by omega) (by omega)

theorem toInt_pred (hw : 32 ≤ w) (h0 : n ≠ 0) (hn : n.toNat < 2 ^ 31) :
    ((n - 1).setWidth 32).toInt = (n.toNat : Int) - 1 := by
  have hpos : 0 < n.toNat := Nat.pos_of_ne_zero fun h => h0 (BitVec.eq_of_toNat_eq h)
  have h1 : (1 : BitVec w).toNat = 1 := by
    rw [BitVec.ofNat_eq_ofNat, BitVec.toNat_ofNat]
    exact Nat.mod_eq_of_lt (Nat.one_lt_two_pow (by omega))
  have hp : (n - 1).toNat = n.toNat - 1 := by
    rw [BitVec.toNat_sub_of_le (by rw [BitVec.le_def, h1]; exact hpos), h1]
  rw [BitVec.toInt_eq_toNat_cond, BitVec.toNat_setWidth, hp, Nat.mod_eq_of_lt (by omega)]
  split_ifs <;> omega

theorem memmove_eq (hw : 32 ≤ w) (m : Mem w) (hd : d ≠ 0) (hs : s ≠ 0) (hn : n.toNat < 2 ^ 31)
    (hdst : d.toNat + n.toNat ≤ 2 ^ w) (hsrc : s.toNat + n.toNat ≤ 2 ^ w) (hf : n.toNat < fuel) :
    memmove fuel m d s n = .ok (d, copied m d s 0 n.toNat) := by
  rw [memmove, if_neg (not_or.mpr ⟨hd, hs⟩)]
  by_cases h0 : n = 0
  · rw [if_pos h0, h0, BitVec.ofNat_eq_ofNat, BitVec.toNat_ofNat, Nat.zero_mod, copied_self]
  · rw [if_neg h0]
    by_cases h : d < s
    · have hup := moveUp_eq hn (fun j hj => copied_of_not m d s fun hx =>
        Nat.not_lt.mpr (dist_source_up h hsrc hj) hx.2) (Nat.zero_le _) hf
      rw [copied_self] at hup
      rw [if_pos h]
      change (moveUp d s n fuel (0 : Nat) m >>= _) = _
      rw [hup]
      rfl
    · have hdown := moveDown_eq hn n.isLt.le (fun j hj =>
        copied_of_not m d s (dist_source_down h hdst hj)) (Nat.le_refl _) hf
      rw [copied_self] at hdown
      rw [if_neg h, toInt_pred hw h0 hn, hdown]
      rfl

theorem memcpy_eq (m : Mem w) (hd : d ≠ 0) (hs : s ≠ 0)
    (hdis : ∀ x ∈ span d n.toNat, x ∉ span s n.toNat) (hf : n.toNat < fuel) :
    memcpy fuel m d s n = .ok (d, copied m d s 0 n.toNat, []) := by
  have hcopy := copyUp_eq (m := m) (fun j hj => copied_of_not m d s fun hx =>
    hdis _ (mem_span_of_dist (Nat.lt_trans hx.2 hj))
      (List.mem_map.mpr ⟨j, List.mem_range.mpr hj, rfl⟩)) (Nat.zero_le _) hf
  rw [copied_self] at hcopy
  rw [memcpy, if_neg (not_or.mpr ⟨hd, hs⟩)]
  change (copyUp d s n fuel (BitVec.ofNat w 0) m >>= _) = _
  rw [hcopy]
  rfl

end Correct

/-- `memmove` moves a block of fewer than `2 ^ 31` bytes, however source and
destination overlap; if they do not, so does `memcpy`. -/
theorem memmove_moves (hw : 32 ≤ w) (m : Mem w) (dst src n : BitVec w) (hd : dst ≠ 0)
    (hs : src ≠ 0) (hn : n.toNat < 2 ^ 31) (hdst : dst.toNat + n.toNat ≤ 2 ^ w)
    (hsrc : src.toNat + n.toNat ≤ 2 ^ w) :
    ∃ m', (∀ fuel > n.toNat, memmove fuel m dst src n = .ok (dst, m')) ∧
      (∀ j < n.toNat, m' (dst + BitVec.ofNat w j) = m (src + BitVec.ofNat w j)) ∧
      (∀ x ∉ span dst n.toNat, m' x = m x) ∧
      ((∀ x ∈ span dst n.toNat, x ∉ span src n.toNat) →
        ∀ fuel > n.toNat, memcpy fuel m dst src n = .ok (dst, m', [])) := by
  refine ⟨copied m dst src 0 n.toNat, fun fuel hf => ?_, fun j hj => ?_, fun x hx => ?_,
    fun hdis fuel hf => ?_⟩
  · exact memmove_eq hw m hd hs hn hdst hsrc hf
  · exact copied_add m dst src (Nat.zero_le j) hj (Nat.lt_trans hj n.isLt)
  · exact copied_of_not_mem_span m dst src hx
  · exact memcpy_eq m hd hs hdis hf

theorem memmove_moves_overlap :
    let m : Mem 64 := fun x => x.setWidth 8
    ∃ m', (∀ fuel > 3, memmove fuel m 0x1001 0x1000 3 = .ok (0x1001, m')) ∧
      (∀ j < 3, m' (0x1001 + BitVec.ofNat 64 j) = m (0x1000 + BitVec.ofNat 64 j)) ∧
      (∀ x ∉ span 0x1001 3, m' x = m x) ∧
      ((∀ x ∈ span (0x1001 : BitVec 64) 3, x ∉ span 0x1000 3) →
        ∀ fuel > 3, memcpy fuel m 0x1001 0x1000 3 = .ok (0x1001, m', [])) :=
  memmove_moves (by decide) _ 0x1001 0x1000 3 (by decide) (by decide) (by decide) (by decide)
    (by decide)

end LinuxCpu.Klib
