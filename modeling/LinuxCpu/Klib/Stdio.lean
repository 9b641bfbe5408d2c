import LinuxCpu.Klib.String

/-! `stdio.c` of klib over the argument-passing of the RISC-V targets. -/

namespace LinuxCpu.Klib

open CString

def chars (b : Buf) : Chars w := fun i => b.data i.toNat

/-- `while(l <= r)` of `swap_str`. -/
def swapStr : Nat → Buf → Int → Int → Except Stop Buf
  | 0, _, _, _ => .error .fuel
  | fuel + 1, str, l, r =>
    if l ≤ r then do
      let tmp := str.data l
      let str := (str.set l (str.data r)).set r tmp
      let l ← int (l + 1)
      let r ← int (r - 1)
      swapStr fuel str l r
    else .ok str

/-- `while(num != 0)` of `int_to_str`. -/
def intDigits : Nat → Buf → Int → Int → Except Stop (Buf × Int)
  | 0, _, _, _ => .error .fuel
  | fuel + 1, str, i, num =>
    if num ≠ 0 then do
      let d ← int (num.tmod 10 + 48)
      let next ← int (i + 1)
      intDigits fuel (str.set i (BitVec.ofInt 8 d)) next (num.tdiv 10)
    else .ok (str, i)

def putAll (str : Buf) (i : Int) : List Byte → Buf
  | [] => str
  | c :: cs => putAll (str.set i c) (i + 1) cs

def intToStr (fuel : Nat) (str : Buf) (num : Int) : Except Stop Buf :=
  if num = intMin then
    .ok ((putAll str 0 (['-', '2', '1', '4', '7', '4', '8', '3', '6', '4', '8'].map ch)).set 11 0)
  else do
    let (str, i, l, num) ←
      if num = 0 then pure (str.set 0 (ch '0'), 1, 0, num)
      else if num < 0 then do
        let num ← int (-num)
        pure (str.set 0 (ch '-'), 1, 1, num)
      else pure (str, 0, 0, num)
    let (str, i) ← intDigits fuel str i num
    let r ← int (i - 1)
    swapStr fuel (str.set i 0) l r

/-- `while(num > 0)` of `uint_to_str`. -/
def uintDigits : Nat → Buf → Int → BitVec 32 → Except Stop (Buf × Int)
  | 0, _, _, _ => .error .fuel
  | fuel + 1, str, i, num =>
    if num > 0 then do
      let next ← int (i + 1)
      uintDigits fuel (str.set i ((num % 10 + 48).setWidth 8)) next (num / 10)
    else .ok (str, i)

def uintToStr (fuel : Nat) (str : Buf) (num : BitVec 32) : Except Stop Buf :=
  if num = 0 then .ok ((str.set 0 (ch '0')).set 1 0)
  else do
    let (str, i) ← uintDigits fuel str 0 num
    let r ← int (i - 1)
    swapStr fuel (str.set i 0) 0 r

inductive Abi | lp64 | ilp32
  deriving DecidableEq

def Abi.xlen : Abi → Nat
  | .lp64 => 64
  | .ilp32 => 32

/-- What a function with variable arguments sees of its caller: the memory, which
it only reads, and the slots its `va_list` walks over. -/
structure Caller (abi : Abi) where
  mem : Chars abi.xlen
  slots : Nat → BitVec abi.xlen

section Stdio

variable {abi : Abi}

def vaInt (c : Caller abi) (ap : Nat) : BitVec 32 × Nat := ((c.slots ap).setWidth 32, ap + 1)

def vaPtr (c : Caller abi) (ap : Nat) : BitVec abi.xlen × Nat := (c.slots ap, ap + 1)

/-- `va_arg(ap, uint64_t)`: on `ilp32` an aligned pair of slots. -/
def vaUint64 (c : Caller abi) (ap : Nat) : BitVec 64 × Nat :=
  match abi with
  | .lp64 => ((c.slots ap).setWidth 64, ap + 1)
  | .ilp32 =>
    let ap := ap + ap % 2
    (((c.slots (ap + 1)).setWidth 32 : BitVec 32) ++ ((c.slots ap).setWidth 32 : BitVec 32), ap + 2)

def Caller.str (c : Caller abi) (p : BitVec abi.xlen) : Option (Chars abi.xlen) :=
  if p = 0 then none else some fun i => c.mem (p + i)

structure Vs where
  out : Buf
  outIndex : Int
  ap : Nat

/-- `out_index += strlen(s)`: the sum is a `size_t`. -/
def addSize (outIndex : Int) (len : BitVec w) : Int :=
  ((BitVec.ofInt w outIndex + len).setWidth 32).toInt

section Vsprintf

variable (c : Caller abi) (fmt : Nat → Byte) (fuel : Nat)

/-- `strcpy(out + out_index, s); out_index += strlen(s);` -/
def putStr (st : Vs) (s : Option (Chars w)) : Except Stop Vs := do
  let out ← strcpy fuel st.out st.outIndex s
  match s with
  | none => .error .assertion
  | some s =>
    let len ← strlen s fuel
    return { st with out := out, outIndex := addSize st.outIndex len }

/-- `out[out_index++] = c;` -/
def putChar (st : Vs) (b : Byte) : Except Stop Vs := do
  let next ← int (st.outIndex + 1)
  return { st with out := st.out.set st.outIndex b, outIndex := next }

/-- The `switch` behind a `%`. -/
def directive (st : Vs) (b : Byte) : Except Stop Vs :=
  if b = ch 'd' then do
    let (num, ap) := vaInt c st.ap
    let s ← intToStr fuel .zeros num.toInt
    putStr fuel { st with ap := ap } (some (chars s : Chars abi.xlen))
  else if b = ch 's' then
    let (str, ap) := vaPtr c st.ap
    putStr fuel { st with ap := ap } (c.str str)
  else if b = ch 'u' then do
    let (num, ap) := vaUint64 c st.ap
    let s ← uintToStr fuel .zeros (num.setWidth 32)
    putStr fuel { st with ap := ap } (some (chars s : Chars abi.xlen))
  else putChar st b

/-- `while(*fmt != '\0')`, with `fmt` at `pos`; `reads` are the positions read. -/
def vsprintfFrom : Nat → Nat → List Nat → Vs → Except Stop (Vs × List Nat)
  | 0, _, _, _ => .error .fuel
  | n + 1, pos, reads, st =>
    if fmt pos = 0 then .ok (st, pos :: reads)
    else if fmt pos = ch '%' then do
      let st ← directive c fuel st (fmt (pos + 1))
      vsprintfFrom n (pos + 2) ((pos + 1) :: pos :: reads) st
    else do
      let st ← putChar st (fmt pos)
      vsprintfFrom n (pos + 1) (pos :: reads) st

def Vs.start (out : Int → Byte) (ap : Nat) : Vs := ⟨⟨out, []⟩, 0, ap⟩

def Vs.finish (st : Vs) : Vs := { st with out := st.out.set st.outIndex 0 }

/-- The `va_list` starts at slot `ap`; the value returned is `outIndex`. -/
def vsprintf (out : Int → Byte) (ap : Nat) : Except Stop (Vs × List Nat) := do
  let (st, reads) ← vsprintfFrom c fmt fuel fuel 0 [] (.start out ap)
  return (st.finish, reads)

def sprintf (out : Int → Byte) : Except Stop (Vs × List Nat) := vsprintf c fmt fuel out 2

/-- `for(int i = 0; i < num; ++i) putch(out[i]);` -/
def putchFrom (out : Buf) (num : Int) : Nat → Int → List Byte → Except Stop (List Byte)
  | 0, _, _ => .error .fuel
  | n + 1, i, console =>
    if i < num then do
      let next ← int (i + 1)
      putchFrom out num n next (console ++ [out.data i])
    else .ok console

def bufSize : Int := 1024

/-- The result with the characters given to `putch`. -/
def printf : Except Stop (Vs × List Byte) := do
  let (st, _) ← vsprintf c fmt fuel (fun _ => 0) 1
  let console ← putchFrom st.out st.outIndex fuel 0 []
  return (st, console)

end Vsprintf

end Stdio

end LinuxCpu.Klib
