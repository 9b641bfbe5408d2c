import LinuxCpu.Rv64.Execute

/-! `execute.v` of `cache-cpu` and `pipeline_cpu`, with the M extension. -/

namespace LinuxCpu.Rv64

/-- The divider that synthesis or simulation puts for `/`: the truncated
quotient modulo `2^w`, so that the least integer over `-1` wraps to itself, and
anything at all for a zero divisor. -/
structure Divider where
  sdiv : {w : Nat} → BitVec w → BitVec w → BitVec w
  udiv : {w : Nat} → BitVec w → BitVec w → BitVec w
  sdiv_eq : ∀ {w : Nat} (a b : BitVec w), b ≠ 0 → sdiv a b = BitVec.ofInt w (a.toInt.tdiv b.toInt)
  udiv_eq : ∀ {w : Nat} (a b : BitVec w), b ≠ 0 → udiv a b = BitVec.ofNat w (a.toNat / b.toNat)

def Divider.zero : Divider where
  sdiv a b := BitVec.ofInt _ (a.toInt.tdiv b.toInt)
  udiv a b := BitVec.ofNat _ (a.toNat / b.toNat)
  sdiv_eq _ _ _ := rfl
  udiv_eq _ _ _ := rfl

namespace MExecute

open Execute

section Wires

variable (e : RegE)

def aluSrc1 : Word :=
  if opAluReg e || opAluRegw e then e.regdata1
  else if opAluImm e || opAluImmw e then e.regdata1
  else if opBranch e then e.pc
  else if opStore e then e.regdata1
  else if opLoad e then e.regdata1
  else if opJal e then e.pc
  else if opJalr e then e.regdata1
  else if opLui e then 0
  else if opAuipc e then e.pc
  else 0

def aluSrc2 : Word :=
  if opAluReg e || opAluRegw e then e.regdata2
  else if opAluImm e || opAluImmw e then e.imm
  else if opBranch e then e.imm
  else if opStore e then e.imm
  else if opLoad e then e.imm
  else if opJal e then e.imm
  else if opJalr e then e.imm
  else if opLui e then e.imm
  else if opAuipc e then e.imm
  else 0

def signedExt (x : Word) : BitVec 128 := BitVec.fill 64 (x.getLsbD 63) ++ x
def unsignedExt (x : Word) : BitVec 128 := 0#64 ++ x

def extMulResult : BitVec 128 := signedExt (aluSrc1 e) * signedExt (aluSrc2 e)
def suExtMulResult : BitVec 128 := signedExt (aluSrc1 e) * unsignedExt (aluSrc2 e)
def uExtMulResult : BitVec 128 := unsignedExt (aluSrc1 e) * unsignedExt (aluSrc2 e)

variable (D : Divider)

def divResult : BitVec 32 := D.sdiv ((aluSrc1 e).extractLsb' 0 32) ((aluSrc2 e).extractLsb' 0 32)
def udivResult : BitVec 32 := D.udiv ((aluSrc1 e).extractLsb' 0 32) ((aluSrc2 e).extractLsb' 0 32)

/-- The remainders have no case here. -/
def aluResult : Word :=
  let s1 := aluSrc1 e
  let s2 := aluSrc2 e
  let s1w := s1.extractLsb' 0 32
  if opLui e then s1 + s2
  else if opAuipc e then s1 + s2
  else if opBranch e then s1 + s2
  else if opStore e then s1 + s2
  else if opJal e then s1 + s2
  else if opJalr e then s1 + s2
  else if opLoad e then s1 + s2
  else if aluAnd e then s1 &&& s2
  else if aluAdd e then s1 + s2
  else if aluAddw e then BitVec.fill 32 ((s1 + s2).getLsbD 31) ++ (s1 + s2).extractLsb' 0 32
  else if aluSub e then s1 - s2
  else if aluSubw e then BitVec.fill 32 ((s1 - s2).getLsbD 31) ++ (s1 - s2).extractLsb' 0 32
  else if aluSll e then s1 <<< s2.extractLsb' 0 6
  else if aluSllw e then
    BitVec.fill 32 ((s1 <<< s2.extractLsb' 0 5).getLsbD 31) ++
      (s1 <<< s2.extractLsb' 0 5).extractLsb' 0 32
  else if aluSlt e then if s1.slt s2 then 1 else 0
  else if aluSltu e then if s1.ult s2 then 1 else 0
  else if aluXor e then s1 ^^^ s2
  else if aluOr e then s1 ||| s2
  else if aluSra e then s1.sshiftRight' (s2.extractLsb' 0 6)
  else if aluSraw e then
    BitVec.fill 32 ((s1w.sshiftRight' (s2.extractLsb' 0 5)).getLsbD 31) ++
      s1w.sshiftRight' (s2.extractLsb' 0 5)
  else if aluSrl e then s1 >>> s2.extractLsb' 0 6
  else if aluSrlw e then
    BitVec.fill 32 ((s1w >>> s2.extractLsb' 0 5).getLsbD 31) ++ s1w >>> s2.extractLsb' 0 5
  else if aluMul e then s1 * s2
  else if aluMulh e then (extMulResult e).extractLsb' 64 64
  else if aluMulhsu e then (suExtMulResult e).extractLsb' 64 64
  else if aluMulhu e then (uExtMulResult e).extractLsb' 64 64
  else if aluMulw e then BitVec.fill 32 ((s1 * s2).getLsbD 31) ++ (s1 * s2).extractLsb' 0 32
  else if aluDiv e then
    if s2 == 0 then 0xffffffffffffffff
    else if s1 == 0x8000000000000000 && s2 == 0xffffffffffffffff then 0x8000000000000000
    else D.sdiv s1 s2
  else if aluDivu e then if s2 == 0 then 0xffffffffffffffff else D.udiv s1 s2
  -- The zero test reads all 64 bits of the divisor, the divider only the low half.
  else if aluDivw e then
    if s2 == 0 then 0xffffffffffffffff
    else if s1 == 0xffffffff80000000 && s2 == 0xffffffffffffffff then 0xffffffff80000000
    else BitVec.fill 32 ((divResult e D).getLsbD 31) ++ divResult e D
  else if aluDivuw e then
    if s2 == 0 then 0xffffffffffffffff
    else BitVec.fill 32 ((udivResult e D).getLsbD 31) ++ udivResult e D
  else 0

end Wires

def execute (D : Divider) : RegE → ExecuteOut := outputs fun e => aluResult e D

end MExecute

end LinuxCpu.Rv64
