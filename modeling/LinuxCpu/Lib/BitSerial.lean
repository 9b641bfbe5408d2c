import Mathlib.Algebra.Ring.Nat
import Mathlib.Data.Nat.Init
import Mathlib.Tactic.Ring

/-! Multiplication and division bit by bit: by shifting and adding, where the
multiplicand is doubled while the multiplier is halved; by shifting and subtracting,
where multiples of the divisor by powers of two are tried on what is left of the
dividend, the largest first; and with restoring, where the bits of the dividend are
brought down one by one and the divisor is subtracted where it fits. There the
dividend leaves a register at the top while the quotient enters it at the bottom,
one bit late. -/

namespace LinuxCpu.ShiftAdd

/-- Of the product `p` there is `acc`, and `m` times `n` is still to be added. -/
def Inv {R : Type*} [CommSemiring R] (p acc m : R) (n : Nat) : Prop := acc + m * n = p

variable {R : Type*} [CommSemiring R] {p acc m : R} {n : Nat}

theorem Inv.start (m : R) (n : Nat) : Inv (m * n) 0 m n := zero_add _

theorem halves (m : R) (n : Nat) : m * n = 2 * m * (n / 2 : Nat) + m * (n % 2 : Nat) := by
  conv_lhs => rw [← Nat.div_add_mod n 2]
  push_cast
  ring

theorem Inv.odd (h : Inv p acc m n) (hn : n % 2 = 1) : Inv p (acc + m) (2 * m) (n / 2) := by
  rw [Inv, halves, hn, Nat.cast_one] at h
  rw [Inv, ← h]
  ring

theorem Inv.even (h : Inv p acc m n) (hn : n % 2 = 0) : Inv p acc (2 * m) (n / 2) := by
  rwa [Inv, halves, hn, Nat.cast_zero, mul_zero, add_zero] at h

theorem Inv.finish (h : Inv p acc m 0) : acc = p := by
  rwa [Inv, Nat.cast_zero, mul_zero, add_zero] at h

end LinuxCpu.ShiftAdd

namespace LinuxCpu.ShiftSub

/-- The powers below `2 ^ j` are still to be tried: what is left of `a`, and the
quotient so far. -/
structure Inv (a b j q r : Nat) : Prop where
  sum : r + b * q = a
  rem : r < b * 2 ^ j
  low : 2 ^ j ∣ q

variable {a b j q r : Nat}

theorem Inv.start (h : a < b * 2 ^ j) : Inv a b j 0 a where
  sum := rfl
  rem := h
  low := Nat.dvd_zero _

theorem Inv.or_eq (h : Inv a b (j + 1) q r) : q ||| 2 ^ j = q + 2 ^ j := by
  obtain ⟨x, rfl⟩ := h.low
  exact (Nat.two_pow_add_eq_or_of_lt (Nat.pow_lt_pow_right (by decide) (Nat.lt_succ_self j)) x).symm

theorem Inv.low_pred (h : Inv a b (j + 1) q r) : 2 ^ j ∣ q :=
  (Nat.pow_dvd_pow 2 (Nat.le_succ j)).trans h.low

theorem Inv.sub (h : Inv a b (j + 1) q r) (hr : b * 2 ^ j ≤ r) :
    Inv a b j (q + 2 ^ j) (r - b * 2 ^ j) where
  sum := by
    have := h.sum
    rw [Nat.mul_add]
    omega
  rem := by
    have := h.rem
    rw [Nat.pow_succ, ← Nat.mul_assoc] at this
    omega
  low := (Nat.dvd_add_right h.low_pred).mpr (Nat.dvd_refl _)

theorem Inv.skip (h : Inv a b (j + 1) q r) (hr : r < b * 2 ^ j) : Inv a b j q r where
  sum := h.sum
  rem := hr
  low := h.low_pred

theorem Inv.finish (h : Inv a b 0 q r) : a / b = q ∧ a % b = r := by
  have hr : r < b := by simpa using h.rem
  exact (Nat.div_mod_unique (Nat.zero_lt_of_lt hr)).mpr ⟨h.sum, hr⟩

end LinuxCpu.ShiftSub

namespace LinuxCpu.Restoring

/-- But for its lowest `k` bits, `n` has been divided by `d`. -/
structure Inv (n d k p r : Nat) : Prop where
  sum : n / 2 ^ k = d * p + r
  rem : r < d

/-- A register of `w` bits with the lowest `k` bits of `n` at the top and `p`
without its last bit at the bottom. -/
structure Register (w n k p q : Nat) : Prop where
  value : q = n % 2 ^ k * 2 ^ (w - k) + p / 2
  room : p < 2 ^ (w - k)
  le : k ≤ w

variable {w n d k p q r : Nat}

def next (n k : Nat) : Nat := n / 2 ^ k % 2

theorem div_pow (n k : Nat) : n / 2 ^ k = 2 * (n / 2 ^ (k + 1)) + next n k := by
  rw [next, Nat.pow_succ, ← Nat.div_div_eq_div_mul, Nat.div_add_mod]

theorem mod_pow_succ (n k : Nat) : n % 2 ^ (k + 1) = next n k * 2 ^ k + n % 2 ^ k := by
  rw [next, Nat.pow_succ, Nat.mod_mul]
  ring

theorem Inv.start (h : n / 2 ^ k < d) : Inv n d k 0 (n / 2 ^ k) where
  sum := by rw [Nat.mul_zero, Nat.zero_add]
  rem := h

theorem Inv.shift (h : Inv n d (k + 1) p r) : n / 2 ^ k = d * (2 * p) + (2 * r + next n k) := by
  rw [div_pow, h.sum]
  ring

theorem Inv.sub (h : Inv n d (k + 1) p r) (hd : d ≤ 2 * r + next n k) :
    Inv n d k (2 * p + 1) (2 * r + next n k - d) where
  sum := by
    rw [h.shift, Nat.mul_add]
    omega
  rem := by
    have := h.rem
    have : next n k < 2 := Nat.mod_lt _ (by decide)
    omega

theorem Inv.keep (h : Inv n d (k + 1) p r) (hd : 2 * r + next n k < d) :
    Inv n d k (2 * p) (2 * r + next n k) where
  sum := h.shift
  rem := hd

theorem Inv.finish (h : Inv n d 0 p r) : n / d = p ∧ n % d = r := by
  have hs := h.sum
  rw [Nat.pow_zero, Nat.div_one] at hs
  refine (Nat.div_mod_unique (Nat.zero_lt_of_lt h.rem)).mpr ⟨?_, h.rem⟩
  rw [hs, Nat.add_comm]

theorem Inv.quotient_lt (h : Inv n d k p r) (hn : n < 2 ^ w) (hk : k ≤ w) : p < 2 ^ (w - k) := by
  have hle : p ≤ d * p := Nat.le_mul_of_pos_left p (Nat.zero_lt_of_lt h.rem)
  have hs := h.sum
  have hlt : n / 2 ^ k < 2 ^ (w - k) := by
    rw [Nat.div_lt_iff_lt_mul (Nat.two_pow_pos k), ← Nat.pow_add, Nat.sub_add_cancel hk]
    exact hn
  omega

theorem Register.start (hk : k ≤ w) : Register w n k 0 (n % 2 ^ k * 2 ^ (w - k)) where
  value := rfl
  room := Nat.two_pow_pos _
  le := hk

theorem Register.split (h : Register w n (k + 1) p q) :
    ∃ x, q = next n k * 2 ^ (w - 1) + x ∧ 2 * x + p % 2 = n % 2 ^ k * 2 ^ (w - k) + p ∧
      2 * x + p % 2 < 2 ^ w := by
  have hle := h.le
  have htop : 2 ^ k * 2 ^ (w - (k + 1)) = 2 ^ (w - 1) := by
    rw [← Nat.pow_add]
    congr 1
    omega
  have hrest : 2 * 2 ^ (w - (k + 1)) = 2 ^ (w - k) := by
    rw [← Nat.pow_succ']
    congr 1
    omega
  have hall : 2 ^ k * 2 ^ (w - k) = 2 ^ w := by
    rw [← Nat.pow_add]
    congr 1
    omega
  have hmod : (n % 2 ^ k + 1) * 2 ^ (w - k) ≤ 2 ^ k * 2 ^ (w - k) :=
    Nat.mul_le_mul_right _ (Nat.mod_lt _ (Nat.two_pow_pos k))
  have hroom := h.room
  have hx : 2 * (n % 2 ^ k * 2 ^ (w - (k + 1)) + p / 2) + p % 2 =
      n % 2 ^ k * 2 ^ (w - k) + p := by
    rw [Nat.mul_add, Nat.mul_left_comm, hrest]
    omega
  refine ⟨n % 2 ^ k * 2 ^ (w - (k + 1)) + p / 2, ?_, hx, ?_⟩
  · rw [h.value, mod_pow_succ, Nat.add_mul, Nat.mul_assoc, htop, Nat.add_assoc]
  · rw [hx]
    rw [Nat.add_mul, Nat.one_mul] at hmod
    omega

theorem Register.top (h : Register w n (k + 1) p q) : q / 2 ^ (w - 1) = next n k := by
  obtain ⟨x, hq, -, hx⟩ := h.split
  have hw : 2 ^ w = 2 * 2 ^ (w - 1) := by
    rw [← Nat.pow_succ']
    congr 1
    have := h.le
    omega
  rw [hq, Nat.add_comm, Nat.add_mul_div_right _ _ (Nat.two_pow_pos _), Nat.div_eq_of_lt (by omega),
    Nat.zero_add]

theorem Register.shift (h : Register w n (k + 1) p q) {p' : Nat} (hp : p' / 2 = p)
    (hroom : p' < 2 ^ (w - k)) : Register w n k p' ((2 * q + p % 2) % 2 ^ w) where
  value := by
    obtain ⟨x, hq, hx, hlt⟩ := h.split
    have hw : 2 * 2 ^ (w - 1) = 2 ^ w := by
      rw [← Nat.pow_succ']
      congr 1
      have := h.le
      omega
    rw [hq, Nat.mul_add, Nat.mul_left_comm, hw, Nat.add_assoc, Nat.mul_add_mod_self_right,
      Nat.mod_eq_of_lt hlt, hx, hp]
  room := hroom
  le := Nat.le_of_succ_le h.le

theorem Register.finish (h : Register w n 0 p q) : q = p / 2 := by
  rw [h.value, Nat.pow_zero, Nat.mod_one, Nat.zero_mul, Nat.zero_add]

end LinuxCpu.Restoring
