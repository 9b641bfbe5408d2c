import LinuxCpu.Lib.Bits
import Mathlib.Data.BitVec

/-! Little-endian byte memories over an arbitrary address width, with the
byte-level laws of loads and stores and the last-writer reading of a history. -/

namespace LinuxCpu.ByteMemory

open Bits

abbrev Mem (w : Nat) := BitVec w → BitVec 8

def load (m : Mem w) (a : BitVec w) : (n : Nat) → BitVec (8 * n)
  | 0 => 0#0
  | n + 1 => load m (a + 1) n ++ m a

def dist (a x : BitVec w) : Nat := (x - a).toNat

def store (m : Mem w) (a : BitVec w) (n : Nat) (v : BitVec k) : Mem w := fun x =>
  if dist a x < n then v.extractLsb' (8 * dist a x) 8 else m x

theorem getLsbD_load (m : Mem w) (a : BitVec w) (n i : Nat) :
    (load m a n).getLsbD i =
      (decide (i < 8 * n) && (m (a + BitVec.ofNat w (i / 8))).getLsbD (i % 8)) := by
  induction n generalizing a i with
  | zero => simp [load]
  | succ n ih =>
    rw [load]
    by_cases h : i < 8
    · rw [BitVec.getLsbD_append, if_pos h]
      simp [show i / 8 = 0 by omega, show i % 8 = i by omega, show i < 8 * (n + 1) by omega]
    · rw [BitVec.getLsbD_append, if_neg h, ih]
      have e : a + 1 + BitVec.ofNat w ((i - 8) / 8) = a + BitVec.ofNat w (i / 8) := by
        change a + BitVec.ofNat w 1 + _ = _
        rw [BitVec.add_assoc, ← BitVec.ofNat_add, show 1 + (i - 8) / 8 = i / 8 by omega]
      rw [e, show (i - 8) % 8 = i % 8 by omega]
      congr 1
      simp only [decide_eq_decide]
      omega

theorem load_ext {m m' : Mem w} {a b : BitVec w} {n : Nat}
    (h : ∀ j < n, m (a + BitVec.ofNat w j) = m' (b + BitVec.ofNat w j)) :
    load m a n = load m' b n := by
  apply BitVec.eq_of_getLsbD_eq
  intro i hi
  simp only [getLsbD_load, hi, decide_true, Bool.true_and]
  rw [h (i / 8) (by omega)]

theorem setWidth_load (m : Mem w) (a : BitVec w) {n k : Nat} (h : k ≤ n) :
    (load m a n).setWidth (8 * k) = load m a k := by
  apply BitVec.eq_of_getLsbD_eq
  intro i hi
  simp only [BitVec.getLsbD_setWidth, getLsbD_load, hi, decide_true, Bool.true_and]
  simp only [show i < 8 * n by omega, decide_true, Bool.true_and]

theorem dist_add (a : BitVec w) {j : Nat} (h : j < 2 ^ w) : dist a (a + BitVec.ofNat w j) = j := by
  rw [dist, BitVec.add_comm, BitVec.add_sub_cancel, BitVec.toNat_ofNat, Nat.mod_eq_of_lt h]

theorem eq_add_of_dist {a x : BitVec w} {j : Nat} (h : dist a x = j) :
    x = a + BitVec.ofNat w j := by
  rw [← h, dist, BitVec.ofNat_toNat, BitVec.setWidth_eq, add_sub_cancel]

theorem store_out (m : Mem w) {a x : BitVec w} {n : Nat} (v : BitVec k)
    (h : ¬ dist a x < n) : store m a n v x = m x := if_neg h

theorem store_in (m : Mem w) {a x : BitVec w} {n : Nat} (v : BitVec k)
    (h : dist a x < n) : store m a n v x = v.extractLsb' (8 * dist a x) 8 := if_pos h

theorem store_add (m : Mem w) (a : BitVec w) {n j : Nat} (v : BitVec k) (h : j < n)
    (hw : j < 2 ^ w) : store m a n v (a + BitVec.ofNat w j) = v.extractLsb' (8 * j) 8 := by
  rw [store_in, dist_add a hw]
  rwa [dist_add a hw]

theorem load_store_same (m : Mem w) (a : BitVec w) (n : Nat) (v : BitVec k) (hw : n ≤ 2 ^ w) :
    load (store m a n v) a n = v.setWidth (8 * n) := by
  apply BitVec.eq_of_getLsbD_eq
  intro i hi
  simp only [getLsbD_load, hi, decide_true, Bool.true_and, BitVec.getLsbD_setWidth]
  rw [store_add m a v (show i / 8 < n by omega) (by omega), BitVec.getLsbD_extractLsb',
    show 8 * (i / 8) + i % 8 = i by omega]
  simp [Nat.mod_lt]

theorem load_store_disjoint (m : Mem w) {a b : BitVec w} {n l : Nat} (v : BitVec k)
    (h : ∀ j < l, ¬ dist a (b + BitVec.ofNat w j) < n) :
    load (store m a n v) b l = load m b l :=
  load_ext fun j hj => store_out m v (h j hj)

theorem dist_add_left (a x : BitVec w) {p : Nat} (h : p ≤ dist a x) :
    dist (a + BitVec.ofNat w p) x = dist a x - p := by
  have hp : p < 2 ^ w := Nat.lt_of_le_of_lt h (x - a).isLt
  have he : (BitVec.ofNat w p).toNat = p := by rw [BitVec.toNat_ofNat, Nat.mod_eq_of_lt hp]
  rw [dist, sub_add_eq_sub_sub, BitVec.toNat_sub_of_le (by rw [BitVec.le_def, he]; exact h), he]
  rfl

theorem dist_of_lt (a : BitVec w) {p q : Nat} (h : q < p) (hp : p < 2 ^ w) :
    dist (a + BitVec.ofNat w p) (a + BitVec.ofNat w q) = 2 ^ w - (p - q) := by
  have hq : q < 2 ^ w := Nat.lt_trans h hp
  rw [dist, add_sub_add_left_eq_sub, BitVec.toNat_sub, BitVec.toNat_ofNat, BitVec.toNat_ofNat,
    Nat.mod_eq_of_lt hp, Nat.mod_eq_of_lt hq, Nat.mod_eq_of_lt (by omega)]
  omega

theorem store_outside (m : Mem w) (a x : BitVec w) {n p l : Nat} (v : BitVec k) (h : p + l ≤ n)
    (hx : ¬ dist a x < n) : store m (a + BitVec.ofNat w p) l v x = m x := by
  apply store_out
  rw [dist_add_left a x (by omega)]
  omega

theorem load_store_offset (m : Mem w) (a : BitVec w) {p q l n : Nat} (v : BitVec k)
    (h : p + l ≤ q ∨ q + n ≤ p) (hp : p + l ≤ 2 ^ w) (hq : q + n ≤ 2 ^ w) :
    load (store m (a + BitVec.ofNat w p) l v) (a + BitVec.ofNat w q) n =
      load m (a + BitVec.ofNat w q) n := by
  apply load_store_disjoint
  intro j hj hl
  rw [BitVec.add_assoc, ← BitVec.ofNat_add] at hl
  have hd : dist a (a + BitVec.ofNat w (q + j)) = q + j := dist_add a (by omega)
  obtain h | h := h
  · rw [dist_add_left a _ (by rw [hd]; omega), hd] at hl
    omega
  · rw [dist_of_lt a (by omega) (by omega)] at hl
    omega

def span (a : BitVec w) (n : Nat) : List (BitVec w) :=
  (List.range n).map fun j => a + BitVec.ofNat w j

theorem mem_span_of_dist {a x : BitVec w} {n : Nat} (h : dist a x < n) : x ∈ span a n :=
  List.mem_map.mpr ⟨dist a x, List.mem_range.mpr h, (eq_add_of_dist rfl).symm⟩

theorem load_congr {m m' : Mem w} {a : BitVec w} {n : Nat} (h : ∀ x ∈ span a n, m x = m' x) :
    load m a n = load m' a n :=
  load_ext fun j hj => h _ (List.mem_map.mpr ⟨j, List.mem_range.mpr hj, rfl⟩)

theorem store_of_not_mem_span (m : Mem w) {a x : BitVec w} {n : Nat} (v : BitVec k)
    (h : x ∉ span a n) : store m a n v x = m x :=
  store_out m v fun hd => h (mem_span_of_dist hd)

theorem span_lt_iff {a : BitVec w} {n size : Nat} (hn : 0 < n) (hw : n ≤ 2 ^ w)
    (hs : size < 2 ^ w) : (∀ x ∈ span a n, x.toNat < size) ↔ a.toNat + n ≤ size := by
  constructor
  · intro h
    by_contra hlt
    have ha : a.toNat < size := h a (mem_span_of_dist (by rw [dist, sub_self]; exact hn))
    have hj : size - a.toNat < n := by omega
    have hx := h (a + BitVec.ofNat w (size - a.toNat))
      (List.mem_map.mpr ⟨_, List.mem_range.mpr hj, rfl⟩)
    rw [BitVec.toNat_add, BitVec.toNat_ofNat, Nat.mod_eq_of_lt (Nat.lt_of_lt_of_le hj hw),
      Nat.add_sub_cancel' (Nat.le_of_lt ha), Nat.mod_eq_of_lt hs] at hx
    exact Nat.lt_irrefl _ hx
  · intro h x hx
    obtain ⟨j, hj, rfl⟩ := List.mem_map.mp hx
    have hj : j < n := List.mem_range.mp hj
    rw [BitVec.toNat_add, BitVec.toNat_ofNat, Nat.mod_eq_of_lt (Nat.lt_of_lt_of_le hj hw),
      Nat.mod_eq_of_lt (by omega)]
    omega

/-- The bytes `lo` to `hi - 1` of the block at `src` copied to that at `dst`. -/
def copied (m : Mem w) (dst src : BitVec w) (lo hi : Nat) : Mem w := fun x =>
  if lo ≤ dist dst x ∧ dist dst x < hi then m (src + (x - dst)) else m x

section Copied

variable (m : Mem w) (dst src : BitVec w)

theorem copied_self (k : Nat) : copied m dst src k k = m := by
  funext x
  exact if_neg fun h => Nat.lt_irrefl _ (Nat.lt_of_le_of_lt h.1 h.2)

theorem copied_add {lo hi j : Nat} (hlo : lo ≤ j) (hhi : j < hi) (hw : j < 2 ^ w) :
    copied m dst src lo hi (dst + BitVec.ofNat w j) = m (src + BitVec.ofNat w j) := by
  rw [copied, dist_add dst hw, if_pos ⟨hlo, hhi⟩, add_sub_cancel_left]

theorem copied_of_not {lo hi : Nat} {x : BitVec w} (h : ¬ (lo ≤ dist dst x ∧ dist dst x < hi)) :
    copied m dst src lo hi x = m x := if_neg h

theorem copied_succ {lo j : Nat} (hlo : lo ≤ j) (hw : j < 2 ^ w) :
    copied m dst src lo (j + 1) =
      Function.update (copied m dst src lo j) (dst + BitVec.ofNat w j)
        (m (src + BitVec.ofNat w j)) := by
  funext x
  by_cases h : dist dst x = j
  · rw [eq_add_of_dist h, Function.update_self, copied_add m dst src hlo (Nat.lt_succ_self j) hw]
  · have hx : x ≠ dst + BitVec.ofNat w j := fun hx => h (hx ▸ dist_add dst hw)
    rw [Function.update_of_ne hx, copied, copied]
    congr 1
    rw [eq_iff_iff]
    omega

theorem copied_pred {j hi : Nat} (hhi : j < hi) (hw : j < 2 ^ w) :
    copied m dst src j hi =
      Function.update (copied m dst src (j + 1) hi) (dst + BitVec.ofNat w j)
        (m (src + BitVec.ofNat w j)) := by
  funext x
  by_cases h : dist dst x = j
  · rw [eq_add_of_dist h, Function.update_self,
      copied_add m dst src (Nat.le_refl j) hhi hw]
  · have hx : x ≠ dst + BitVec.ofNat w j := fun hx => h (hx ▸ dist_add dst hw)
    rw [Function.update_of_ne hx, copied, copied]
    congr 1
    rw [eq_iff_iff]
    omega

theorem copied_of_not_mem_span {n : Nat} {x : BitVec w} (h : x ∉ span dst n) :
    copied m dst src 0 n x = m x :=
  copied_of_not m dst src fun hx => h (mem_span_of_dist hx.2)

end Copied

theorem dist_source_up {dst src : BitVec w} {j n : Nat} (h : dst < src)
    (hs : src.toNat + n ≤ 2 ^ w) (hj : j < n) : j ≤ dist dst (src + BitVec.ofNat w j) := by
  have h := BitVec.lt_def.mp h
  have hdst := dst.isLt
  rw [dist, BitVec.toNat_sub, BitVec.toNat_add, BitVec.toNat_ofNat,
    Nat.mod_eq_of_lt (by omega : j < 2 ^ w), Nat.mod_eq_of_lt (by omega : src.toNat + j < 2 ^ w),
    show 2 ^ w - dst.toNat + (src.toNat + j) = 2 ^ w + (src.toNat - dst.toNat + j) by omega,
    Nat.add_mod_left, Nat.mod_eq_of_lt (by omega)]
  omega

theorem dist_source_down {dst src : BitVec w} {j n : Nat} (h : ¬ dst < src)
    (hd : dst.toNat + n ≤ 2 ^ w) (hj : j < n) :
    ¬ (j + 1 ≤ dist dst (src + BitVec.ofNat w j) ∧ dist dst (src + BitVec.ofNat w j) < n) := by
  have h := mt BitVec.lt_def.mpr h
  rw [dist, BitVec.toNat_sub, BitVec.toNat_add, BitVec.toNat_ofNat,
    Nat.mod_eq_of_lt (by omega : j < 2 ^ w), Nat.mod_eq_of_lt (by omega : src.toNat + j < 2 ^ w)]
  by_cases hle : dst.toNat ≤ src.toNat + j
  · rw [show 2 ^ w - dst.toNat + (src.toNat + j) = 2 ^ w + (src.toNat + j - dst.toNat) by omega,
      Nat.add_mod_left, Nat.mod_eq_of_lt (by omega)]
    omega
  · rw [Nat.mod_eq_of_lt (by omega)]
    omega

structure Write (w : Nat) (k : Nat) where
  addr : BitVec w
  len : Nat
  data : BitVec k

def Write.covers (s : Write w k) (x : BitVec w) : Bool := decide (dist s.addr x < s.len)

def Write.byteAt (s : Write w k) (x : BitVec w) : BitVec 8 :=
  s.data.extractLsb' (8 * dist s.addr x) 8

def lastByte (m : Mem w) (ss : List (Write w k)) (x : BitVec w) : BitVec 8 :=
  match ss.reverse.find? (·.covers x) with
  | some s => s.byteAt x
  | none => m x

theorem lastByte_append (m : Mem w) (ss : List (Write w k)) (s : Write w k) :
    lastByte m (ss ++ [s]) = store (lastByte m ss) s.addr s.len s.data := by
  funext x
  by_cases h : dist s.addr x < s.len
  · simp [lastByte, Write.covers, Write.byteAt, store, h]
  · simp [lastByte, Write.covers, store, h]

end LinuxCpu.ByteMemory
