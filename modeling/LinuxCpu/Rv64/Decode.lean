import LinuxCpu.Lib.Bits
import Mathlib.Logic.Function.Basic

/-! `decode.v` and `regfile.v`, the same files in `linux_cpu`, `cache-cpu` and
`pipeline_cpu`. -/

namespace LinuxCpu.Rv64

open Bits

abbrev Word := BitVec 64
abbrev Regfile := BitVec 5 → Word

namespace Decode

section Wires

variable (instr : BitVec 32)

def opcode : BitVec 7 := instr.extractLsb' 0 7
def rd : BitVec 5 := instr.extractLsb' 7 5
def func3 : BitVec 3 := instr.extractLsb' 12 3
def rs1 : BitVec 5 := instr.extractLsb' 15 5
def rs2 : BitVec 5 := instr.extractLsb' 20 5
def func7 : BitVec 7 := instr.extractLsb' 25 7

def instLui : Bool := opcode instr == 0b0110111
def instAuipc : Bool := opcode instr == 0b0010111
def instJal : Bool := opcode instr == 0b1101111
def instJalr : Bool := opcode instr == 0b1100111
def instAluReg : Bool := opcode instr == 0b0110011
def instAluRegw : Bool := opcode instr == 0b0111011
def instAluImm : Bool := opcode instr == 0b0010011
def instAluImmw : Bool := opcode instr == 0b0011011
def instLoad : Bool := opcode instr == 0b0000011
def instStore : Bool := opcode instr == 0b0100011
def instBranch : Bool := opcode instr == 0b1100011
def instSystem : Bool := opcode instr == 0b1110011

def func3Is (f : BitVec 3) : Bool := func3 instr == f
def func7Is (f : BitVec 7) : Bool := func7 instr == f

def instAdd : Bool := instAluReg instr && func3Is instr 0b000 && func7Is instr 0b0000000
def instSub : Bool := instAluReg instr && func3Is instr 0b000 && func7Is instr 0b0100000
def instSll : Bool := instAluReg instr && func3Is instr 0b001 && func7Is instr 0b0000000
def instSlt : Bool := instAluReg instr && func3Is instr 0b010 && func7Is instr 0b0000000
def instSltu : Bool := instAluReg instr && func3Is instr 0b011 && func7Is instr 0b0000000
def instXor : Bool := instAluReg instr && func3Is instr 0b100 && func7Is instr 0b0000000
def instSrl : Bool := instAluReg instr && func3Is instr 0b101 && func7Is instr 0b0000000
def instSra : Bool := instAluReg instr && func3Is instr 0b101 && func7Is instr 0b0100000
def instOr : Bool := instAluReg instr && func3Is instr 0b110 && func7Is instr 0b0000000
def instAnd : Bool := instAluReg instr && func3Is instr 0b111 && func7Is instr 0b0000000
def instAddw : Bool := instAluRegw instr && func3Is instr 0b000 && func7Is instr 0b0000000
def instSubw : Bool := instAluRegw instr && func3Is instr 0b000 && func7Is instr 0b0100000
def instSllw : Bool := instAluRegw instr && func3Is instr 0b001 && func7Is instr 0b0000000
def instSrlw : Bool := instAluRegw instr && func3Is instr 0b101 && func7Is instr 0b0000000
def instSraw : Bool := instAluRegw instr && func3Is instr 0b101 && func7Is instr 0b0100000

def instMul : Bool := instAluReg instr && func3Is instr 0b000 && func7Is instr 0b0000001
def instMulh : Bool := instAluReg instr && func3Is instr 0b001 && func7Is instr 0b0000001
def instMulhsu : Bool := instAluReg instr && func3Is instr 0b010 && func7Is instr 0b0000001
def instMulhu : Bool := instAluReg instr && func3Is instr 0b011 && func7Is instr 0b0000001
def instDiv : Bool := instAluReg instr && func3Is instr 0b100 && func7Is instr 0b0000001
def instDivu : Bool := instAluReg instr && func3Is instr 0b101 && func7Is instr 0b0000001
def instRem : Bool := instAluReg instr && func3Is instr 0b110 && func7Is instr 0b0000001
def instRemu : Bool := instAluReg instr && func3Is instr 0b111 && func7Is instr 0b0000001
def instMulw : Bool := instAluRegw instr && func3Is instr 0b000 && func7Is instr 0b0000001
def instDivw : Bool := instAluRegw instr && func3Is instr 0b100 && func7Is instr 0b0000001
def instDivuw : Bool := instAluRegw instr && func3Is instr 0b101 && func7Is instr 0b0000001
def instRemw : Bool := instAluRegw instr && func3Is instr 0b110 && func7Is instr 0b0000001
def instRemuw : Bool := instAluRegw instr && func3Is instr 0b111 && func7Is instr 0b0000001

def instAddi : Bool := instAluImm instr && func3Is instr 0b000
def instSlli : Bool := instAluImm instr && func3Is instr 0b001
def instSlti : Bool := instAluImm instr && func3Is instr 0b010
def instSltiu : Bool := instAluImm instr && func3Is instr 0b011
def instXori : Bool := instAluImm instr && func3Is instr 0b100
-- The shift amount's top bit is `func7[0]`, so only amounts below 32 match.
def instSrli : Bool := instAluImm instr && func3Is instr 0b101 && func7Is instr 0b0000000
def instSrai : Bool := instAluImm instr && func3Is instr 0b101 && func7Is instr 0b0100000
def instOri : Bool := instAluImm instr && func3Is instr 0b110
def instAndi : Bool := instAluImm instr && func3Is instr 0b111

def instAddiw : Bool := instAluImmw instr && func3Is instr 0b000
def instSlliw : Bool := instAluImmw instr && func3Is instr 0b001 && func7Is instr 0b0000000
def instSrliw : Bool := instAluImmw instr && func3Is instr 0b101 && func7Is instr 0b0000000
def instSraiw : Bool := instAluImmw instr && func3Is instr 0b101 && func7Is instr 0b0100000

def instLb : Bool := instLoad instr && func3Is instr 0b000
def instLh : Bool := instLoad instr && func3Is instr 0b001
def instLw : Bool := instLoad instr && func3Is instr 0b010
def instLd : Bool := instLoad instr && func3Is instr 0b011
def instLbu : Bool := instLoad instr && func3Is instr 0b100
def instLhu : Bool := instLoad instr && func3Is instr 0b101
def instLwu : Bool := instLoad instr && func3Is instr 0b110

def instSb : Bool := instStore instr && func3Is instr 0b000
def instSh : Bool := instStore instr && func3Is instr 0b001
def instSw : Bool := instStore instr && func3Is instr 0b010
def instSd : Bool := instStore instr && func3Is instr 0b011

def instBeq : Bool := instBranch instr && func3Is instr 0b000
def instBne : Bool := instBranch instr && func3Is instr 0b001
def instBlt : Bool := instBranch instr && func3Is instr 0b100
def instBge : Bool := instBranch instr && func3Is instr 0b101
def instBltu : Bool := instBranch instr && func3Is instr 0b110
def instBgeu : Bool := instBranch instr && func3Is instr 0b111

def opcodeInfo : BitVec 12 := bits 12
  [instLui instr, instAuipc instr, instJal instr, instJalr instr, instAluReg instr,
    instAluRegw instr, instAluImm instr, instAluImmw instr, instLoad instr, instStore instr,
    instBranch instr, instSystem instr]

def branchInfo : BitVec 6 := bits 6
  [instBeq instr, instBne instr, instBlt instr, instBge instr, instBltu instr, instBgeu instr]

def loadStoreInfo : BitVec 11 := bits 11
  [instLb instr, instLh instr, instLw instr, instLd instr, instLbu instr, instLhu instr,
    instLwu instr, instSb instr, instSh instr, instSw instr, instSd instr]

def aluInfo : BitVec 28 := bits 28
  [instAdd instr || instAddi instr,
    instSub instr,
    instSll instr || instSlli instr,
    instSlt instr || instSlti instr,
    instSltu instr || instSltiu instr,
    instXor instr || instXori instr,
    instSrl instr || instSrli instr,
    instSra instr || instSrai instr,
    instOr instr || instOri instr,
    instAnd instr || instAndi instr,
    instAddw instr || instAddiw instr,
    instSubw instr,
    instSllw instr || instSlliw instr,
    instSrlw instr || instSrliw instr,
    instSraw instr || instSraiw instr,
    instMul instr,
    instMulh instr,
    instMulhsu instr,
    instMulhu instr,
    instMulw instr,
    instDiv instr,
    instDivu instr,
    instDivw instr,
    instDivuw instr,
    instRem instr,
    instRemu instr,
    instRemw instr,
    instRemuw instr]

def instIImm : Word := BitVec.fill 52 (instr.getLsbD 31) ++ instr.extractLsb' 20 12
def instSImm : Word :=
  BitVec.fill 52 (instr.getLsbD 31) ++ (instr.extractLsb' 25 7 ++ instr.extractLsb' 7 5)
def instBImm : Word :=
  BitVec.fill 51 (instr.getLsbD 31) ++
    (instr.extractLsb' 31 1 ++ instr.extractLsb' 7 1 ++ instr.extractLsb' 25 6 ++
      instr.extractLsb' 8 4 ++ 0#1)
def instJImm : Word :=
  BitVec.fill 43 (instr.getLsbD 31) ++
    (instr.extractLsb' 31 1 ++ instr.extractLsb' 12 8 ++ instr.extractLsb' 20 1 ++
      instr.extractLsb' 21 10 ++ 0#1)
def instUImm : Word := BitVec.fill 32 (instr.getLsbD 31) ++ (instr.extractLsb' 12 20 ++ 0#12)
def instRImm : Word := 0

def instIType : Bool :=
  instLoad instr || instJalr instr || instAluImm instr || instAluImmw instr
def instUType : Bool := instLui instr || instAuipc instr
def instJType : Bool := instJal instr
def instRType : Bool := instAluReg instr || instAluRegw instr
def instSType : Bool := instStore instr
def instBType : Bool := instBranch instr

def imm : Word :=
  if instIType instr then instIImm instr
  else if instSType instr then instSImm instr
  else if instBType instr then instBImm instr
  else if instJType instr then instJImm instr
  else if instUType instr then instUImm instr
  else if instRType instr then instRImm
  else 0

def regWen : Bool := instIType instr || instUType instr || instRType instr || instJType instr

end Wires

end Decode

namespace Regfile

def regdata (regfile : Regfile) (rs : BitVec 5) : Word := if rs = 0 then 0 else regfile rs

structure WriteBack where
  rd : BitVec 5
  data : Word
  regWen : Bool

def edge (rst : Bool) (wb : WriteBack) (regfile : Regfile) : Regfile :=
  if rst then Function.update regfile 0 0
  else if wb.regWen && wb.rd != 0 then Function.update regfile wb.rd wb.data
  else regfile

end Regfile

structure Forward where
  executeAluResult : Word
  regERd : BitVec 5
  regERegWen : Bool
  regMOpcodeInfo : BitVec 12
  regMAluResult : Word
  memoryMemdata : Word
  regMRd : BitVec 5
  regMRegWen : Bool
  regWOpcodeInfo : BitVec 12
  regWPc : Word
  regWAluResult : Word
  regWMemdata : Word
  regWRd : BitVec 5
  regWRegWen : Bool

structure DecodeOut where
  aluInfo : BitVec 28
  opcodeInfo : BitVec 12
  branchInfo : BitVec 6
  loadStoreInfo : BitVec 11
  regdata1 : Word
  regdata2 : Word
  imm : Word
  rs1 : BitVec 5
  rs2 : BitVec 5
  rd : BitVec 5
  regWen : Bool

namespace Decode

def selAluResult (opcodeInfo : BitVec 12) : Bool :=
  opcodeInfo.getLsbD 1 || opcodeInfo.getLsbD 4 || opcodeInfo.getLsbD 5 || opcodeInfo.getLsbD 6 ||
    opcodeInfo.getLsbD 7 || opcodeInfo.getLsbD 10 || opcodeInfo.getLsbD 11

def selMemdata (opcodeInfo : BitVec 12) : Bool := opcodeInfo.getLsbD 3

def selPc (opcodeInfo : BitVec 12) : Bool := opcodeInfo.getLsbD 8 || opcodeInfo.getLsbD 9

def forward (f : Forward) (rs : BitVec 5) (regfileData : Word) : Word :=
  if f.regERd != 0 && f.regERegWen && f.regERd == rs then f.executeAluResult
  else if f.regMRd != 0 && f.regMRegWen && f.regMRd == rs && selAluResult f.regMOpcodeInfo then
    f.regMAluResult
  else if f.regMRd != 0 && f.regMRegWen && f.regMRd == rs && selMemdata f.regMOpcodeInfo then
    f.memoryMemdata
  else if f.regWRd != 0 && f.regWRegWen && f.regWRd == rs && selAluResult f.regWOpcodeInfo then
    f.regWAluResult
  else if f.regWRd != 0 && f.regWRegWen && f.regWRd == rs && selMemdata f.regWOpcodeInfo then
    f.regWMemdata
  else if f.regWRd != 0 && f.regWRegWen && f.regWRd == rs && selPc f.regWOpcodeInfo then
    f.regWPc + 4
  else regfileData

def outputs (instr : BitVec 32) (regdata1 regdata2 : Word) : DecodeOut where
  aluInfo := aluInfo instr
  opcodeInfo := opcodeInfo instr
  branchInfo := branchInfo instr
  loadStoreInfo := loadStoreInfo instr
  regdata1 := regdata1
  regdata2 := regdata2
  imm := imm instr
  rs1 := rs1 instr
  rs2 := rs2 instr
  rd := rd instr
  regWen := regWen instr

end Decode

def operand (f : Forward) (regfile : Regfile) (rs : BitVec 5) : Word :=
  Decode.forward f rs (regfile.regdata rs)

def Forward.idle : Forward := ⟨0, 0, false, 0, 0, 0, 0, false, 0, 0, 0, 0, 0, false⟩

def decode (instr : BitVec 32) (f : Forward) (regfile : Regfile) : DecodeOut :=
  Decode.outputs instr (operand f regfile (Decode.rs1 instr))
    (operand f regfile (Decode.rs2 instr))

end LinuxCpu.Rv64
