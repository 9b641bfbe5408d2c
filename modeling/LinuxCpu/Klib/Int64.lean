import LinuxCpu.Klib.CountZeros
import LinuxCpu.Lib.BitSerial

/-! `__udivmoddi4` of klib, 64-bit division in 32-bit words, and the functions
that call it. `none` is what C leaves undefined: a zero divisor, a shift by the
width or more, or a count of the zeros of 0. Signed numbers are two's complement
and wrap, as the file assumes. -/

namespace LinuxCpu.Klib

structure Udwords where
  low : SuInt
  high : SuInt
  deriving DecidableEq

namespace Udwords

def all (u : Udwords) : DuInt := u.high ++ u.low

def ofAll (x : DuInt) : Udwords := ⟨x.setWidth 32, x.extractLsb' 32 32⟩

end Udwords

section Operators

variable (x y : SuInt)

def shl : Option SuInt := if y.toNat < 32 then some (x <<< y.toNat) else none
def shr : Option SuInt := if y.toNat < 32 then some (x >>> y.toNat) else none
def udiv : Option SuInt := if y = 0 then none else some (x / y)
def umod : Option SuInt := if y = 0 then none else some (x % y)
def builtinClz : Option SuInt := if x = 0 then none else some (clzsi2 x)
def builtinCtz : Option SuInt := if x = 0 then none else some (ctzsi2 x)

end Operators

namespace Udivmoddi4

inductive Special
  | ret (q rem : DuInt)
  | loop (sr : SuInt) (q r : Udwords)

/-- For `sr < n_uword_bits`. -/
def splitBelow (n : Udwords) (sr : SuInt) : Option Special := do
  let qHigh ← shl n.low (32 - sr)
  let rHigh ← shr n.high sr
  let rUpper ← shl n.high (32 - sr)
  let rLower ← shr n.low sr
  return .loop sr ⟨0, qHigh⟩ ⟨rUpper ||| rLower, rHigh⟩

/-- For `sr == n_uword_bits`. -/
def splitAt (n : Udwords) (sr : SuInt) : Option Special :=
  some (.loop sr ⟨0, n.low⟩ ⟨n.high, 0⟩)

/-- For `sr > n_uword_bits`. -/
def splitAbove (n : Udwords) (sr : SuInt) : Option Special := do
  let qLow ← shl n.low (64 - sr)
  let qUpper ← shl n.high (64 - sr)
  let qLower ← shr n.low (sr - 32)
  let rLow ← shr n.high (sr - 32)
  return .loop sr ⟨qLow, qUpper ||| qLower⟩ ⟨rLow, 0⟩

def special (n d : Udwords) : Option Special :=
  if n.high = 0 then
    if d.high = 0 then do
      let rem ← umod n.low d.low
      let q ← udiv n.low d.low
      return .ret (q.setWidth 64) (rem.setWidth 64)
    else some (.ret 0 (n.low.setWidth 64))
  else if d.low = 0 then
    if d.high = 0 then do
      let rem ← umod n.high d.low
      let q ← udiv n.high d.low
      return .ret (q.setWidth 64) (rem.setWidth 64)
    else if n.low = 0 then do
      let rHigh ← umod n.high d.high
      let q ← udiv n.high d.high
      return .ret (q.setWidth 64) (Udwords.all ⟨0, rHigh⟩)
    else if d.high &&& (d.high - 1) = 0 then do
      let shift ← builtinCtz d.high
      let q ← shr n.high shift
      return .ret (q.setWidth 64) (Udwords.all ⟨n.low, n.high &&& (d.high - 1)⟩)
    else do
      let sr := (← builtinClz d.high) - (← builtinClz n.high)
      if 32 - 2 < sr then return .ret 0 n.all
      else splitBelow n (sr + 1)
  else if d.high = 0 then
    if d.low &&& (d.low - 1) = 0 then
      let rem := (n.low &&& (d.low - 1)).setWidth 64
      if d.low = 1 then some (.ret n.all rem)
      else do
        let sr ← builtinCtz d.low
        let qHigh ← shr n.high sr
        let qUpper ← shl n.high (32 - sr)
        let qLower ← shr n.low sr
        return .ret (Udwords.all ⟨qUpper ||| qLower, qHigh⟩) rem
    else do
      let sr := 1 + 32 + (← builtinClz d.low) - (← builtinClz n.high)
      if sr = 32 then splitAt n sr
      else if sr < 32 then splitBelow n sr
      else splitAbove n sr
  else do
    let sr := (← builtinClz d.high) - (← builtinClz n.high)
    if 32 - 1 < sr then return .ret 0 n.all
    else if sr + 1 = 32 then splitAt n (sr + 1)
    else splitBelow n (sr + 1)

structure Registers where
  carry : SuInt
  q : Udwords
  r : Udwords

/-- `r:q = ((r:q) << 1) | carry` -/
def shiftIn (s : Registers) : Registers where
  carry := s.carry
  r := ⟨s.r.low <<< 1 ||| s.q.high >>> 31, s.r.high <<< 1 ||| s.r.low >>> 31⟩
  q := ⟨s.q.low <<< 1 ||| s.carry, s.q.high <<< 1 ||| s.q.low >>> 31⟩

/-- The subtraction without a branch; `s` is the sign of `d - r - 1`. -/
def reduce (d : Udwords) (t : Registers) : Registers :=
  let s := (d.all - t.r.all - 1).sshiftRight 63
  { t with
    carry := (s &&& 1).setWidth 32
    r := .ofAll (t.r.all - (d.all &&& s)) }

/-- `for (; sr > 0; --sr)` -/
def divLoop (d : Udwords) : Nat → Registers → Registers
  | 0, t => t
  | sr + 1, t => divLoop d sr (reduce d (shiftIn t))

end Udivmoddi4

open Udivmoddi4

/-- The quotient, and what `*rem` receives. -/
def udivmoddi4 (a b : DuInt) : Option (DuInt × DuInt) := do
  let d := Udwords.ofAll b
  match ← special (.ofAll a) d with
  | .ret q rem => return (q, rem)
  | .loop sr q r =>
    let t := divLoop d sr.toNat ⟨0, q, r⟩
    return (t.q.all <<< 1 ||| t.carry.setWidth 64, t.r.all)

def udivdi3 (a b : DuInt) : Option DuInt := (udivmoddi4 a b).map (·.1)

def umoddi3 (a b : DuInt) : Option DuInt := (udivmoddi4 a b).map (·.2)

/-- `x < 0 ? -1 : 0` -/
def sign (x : DuInt) : DuInt := x.sshiftRight 63

/-- Negated where `s == -1`. -/
def negateIf (s x : DuInt) : DuInt := (x ^^^ s) - s

def divdi3 (a b : DuInt) : Option DuInt := do
  let s_a := sign a
  let s_b := sign b
  let q ← udivdi3 (negateIf s_a a) (negateIf s_b b)
  return negateIf (s_a ^^^ s_b) q

def moddi3 (a b : DuInt) : Option DuInt := do
  let s := sign a
  let r ← umoddi3 (negateIf s a) (negateIf (sign b) b)
  return negateIf s r

def divmoddi4 (a b : DuInt) : Option (DuInt × DuInt) := do
  let d ← divdi3 a b
  return (d, a - d * b)

end LinuxCpu.Klib
