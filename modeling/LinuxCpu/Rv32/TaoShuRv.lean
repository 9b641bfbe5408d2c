import LinuxCpu.Lib.Clocked
import LinuxCpu.Rv32.SingleCycle

/-! `TaoShuRV`: `if_stage`, `id_stage` with `regfile`, `exe_stage` with `alu` and
`mem`, `mem_stage`, `wb_stage`, and `cpu` around them. -/

namespace LinuxCpu.Rv32.TaoShuRv

open ByteMemory

inductive AluOp
  | add | sub | sll | slt | sltu | xor | srl | sra | or | and | lui | xxx
  deriving DecidableEq

def memBase : Word := 0x80000000

namespace Alu

section Wires

variable (op : AluOp) (src1 src2 : Word)

def inverts : Bool := op == .sub || op == .slt || op == .sltu

def adder : BitVec 33 :=
  let adderB := if inverts op then ~~~src2 else src2
  let adderCin : Word := if inverts op then 1 else 0
  src1.setWidth 33 + adderB.setWidth 33 + adderCin.setWidth 33

def adderCout : Bool := (adder op src1 src2).getLsbD 32

def adderResult : Word := (adder op src1 src2).setWidth 32

def sltResult : Word :=
  0#31 ++ BitVec.ofBool ((src1.getLsbD 31 && !src2.getLsbD 31) ||
    ((src1.getLsbD 31 == src2.getLsbD 31) && (adderResult op src1 src2).getLsbD 31))

def sltuResult : Word := 0#31 ++ BitVec.ofBool (!adderCout op src1 src2)

def sllResult : Word := src1 <<< src2.extractLsb' 0 5

/-- The low half of a double word that starts with copies of the sign. -/
def srResult : Word :=
  ((BitVec.fill 32 (op == .sra && src1.getLsbD 31) ++ src1) >>> src2.extractLsb' 0 5).setWidth 32

end Wires

end Alu

open Alu in
def alu (op : AluOp) (src1 src2 : Word) : Word :=
  (BitVec.fill 32 (op == .add || op == .sub) &&& adderResult op src1 src2) |||
    (BitVec.fill 32 (op == .slt) &&& sltResult op src1 src2) |||
    (BitVec.fill 32 (op == .sltu) &&& sltuResult op src1 src2) |||
    (BitVec.fill 32 (op == .and) &&& (src1 &&& src2)) |||
    (BitVec.fill 32 (op == .or) &&& (src1 ||| src2)) |||
    (BitVec.fill 32 (op == .xor) &&& (src1 ^^^ src2)) |||
    (BitVec.fill 32 (op == .lui) &&& src2) |||
    (BitVec.fill 32 (op == .sll) &&& sllResult src1 src2) |||
    (BitVec.fill 32 (op == .srl || op == .sra) &&& srResult op src1 src2)

structure IfToId where
  pc : Word
  inst : Word
  deriving DecidableEq

structure IdToExe where
  pc : Word
  src1IsPc : Bool
  src2IsImm : Bool
  rfWrEn : Bool
  imm : Word
  rs1Value : Word
  rs2Value : Word
  rfWrSel : BitVec 2
  aluCtrl : AluOp
  dmWrCtrl : BitVec 2
  dmRdCtrl : BitVec 3
  regWaddr : BitVec 5
  instEbreak : Bool
  deriving DecidableEq

structure ExeToMem where
  pc : Word
  aluResult : Word
  rfWrSel : BitVec 2
  rfWrEn : Bool
  regWaddr : BitVec 5
  dataSramRdata : Word
  instEbreak : Bool
  deriving DecidableEq

structure MemToWb where
  pc : Word
  finalResult : Word
  rfWrEn : Bool
  regWaddr : BitVec 5
  instEbreak : Bool
  deriving DecidableEq

/-- A bypass to `id_stage`, and the bus from `wb_stage` to its register file. -/
structure RfWrite where
  wrEn : Bool
  waddr : BitVec 5
  wdata : Word
  deriving DecidableEq

/-- What leaves the decoder; `noRdata1` are the instructions that `use_rf_rdata1` leaves out. -/
structure Wires where
  uType : Bool
  jumpType : Bool
  bType : Bool
  rType : Bool
  iType : Bool
  sType : Bool
  jalr : Bool
  noRdata1 : Bool
  rfWrSel : BitVec 2
  aluCtrl : AluOp
  dmRdCtrl : BitVec 3
  dmWrCtrl : BitVec 2
  ebreak : Bool
  deriving DecidableEq

namespace Id

section Wires

variable (opcode : BitVec 7) (funct3 : BitVec 3) (funct7 : BitVec 7) (csr : BitVec 12)

def rv32Lui : Bool := opcode == 0b0110111
def rv32Auipc : Bool := opcode == 0b0010111
def rv32Branch : Bool := opcode == 0b1100011
def rv32Jal : Bool := opcode == 0b1101111
def rv32Jalr : Bool := opcode == 0b1100111
def rv32Load : Bool := opcode == 0b0000011
def rv32Store : Bool := opcode == 0b0100011
def rv32AluImm : Bool := opcode == 0b0010011
def rv32Alu : Bool := opcode == 0b0110011
def rv32System : Bool := opcode == 0b1110011

def instJalr : Bool := rv32Jalr opcode && funct3 == 0b000

def instBeq : Bool := rv32Branch opcode && funct3 == 0b000
def instBne : Bool := rv32Branch opcode && funct3 == 0b001
def instBlt : Bool := rv32Branch opcode && funct3 == 0b100
def instBge : Bool := rv32Branch opcode && funct3 == 0b101
def instBltu : Bool := rv32Branch opcode && funct3 == 0b110
def instBgeu : Bool := rv32Branch opcode && funct3 == 0b111

def instLb : Bool := rv32Load opcode && funct3 == 0b000
def instLh : Bool := rv32Load opcode && funct3 == 0b001
def instLw : Bool := rv32Load opcode && funct3 == 0b010
def instLbu : Bool := rv32Load opcode && funct3 == 0b100
def instLhu : Bool := rv32Load opcode && funct3 == 0b101

def instSb : Bool := rv32Store opcode && funct3 == 0b000
def instSh : Bool := rv32Store opcode && funct3 == 0b001
def instSw : Bool := rv32Store opcode && funct3 == 0b010

def instAddi : Bool := rv32AluImm opcode && funct3 == 0b000
def instSlti : Bool := rv32AluImm opcode && funct3 == 0b010
def instSltiu : Bool := rv32AluImm opcode && funct3 == 0b011
def instXori : Bool := rv32AluImm opcode && funct3 == 0b100
def instOri : Bool := rv32AluImm opcode && funct3 == 0b110
def instAndi : Bool := rv32AluImm opcode && funct3 == 0b111
def instSlli : Bool := rv32AluImm opcode && funct3 == 0b001 && funct7 == 0b0000000
def instSrli : Bool := rv32AluImm opcode && funct3 == 0b101 && funct7 == 0b0000000
def instSrai : Bool := rv32AluImm opcode && funct3 == 0b101 && funct7 == 0b0100000

def instAdd : Bool := rv32Alu opcode && funct3 == 0b000 && funct7 == 0b0000000
def instSub : Bool := rv32Alu opcode && funct3 == 0b000 && funct7 == 0b0100000
def instSll : Bool := rv32Alu opcode && funct3 == 0b001 && funct7 == 0b0000000
def instSlt : Bool := rv32Alu opcode && funct3 == 0b010 && funct7 == 0b0000000
def instSltu : Bool := rv32Alu opcode && funct3 == 0b011 && funct7 == 0b0000000
def instXor : Bool := rv32Alu opcode && funct3 == 0b100 && funct7 == 0b0000000
def instSrl : Bool := rv32Alu opcode && funct3 == 0b101 && funct7 == 0b0000000
def instSra : Bool := rv32Alu opcode && funct3 == 0b101 && funct7 == 0b0100000
def instOr : Bool := rv32Alu opcode && funct3 == 0b110 && funct7 == 0b0000000
def instAnd : Bool := rv32Alu opcode && funct3 == 0b111 && funct7 == 0b0000000

def instEcall : Bool := rv32System opcode && funct3 == 0b000 && csr == 0b000000000000
def instEbreak : Bool := rv32System opcode && funct3 == 0b000 && csr == 0b000000000001
def instMret : Bool := rv32System opcode && funct3 == 0b000 && csr == 0b001100000010

def instCsrrwi : Bool := rv32System opcode && funct3 == 0b101
def instCsrrsi : Bool := rv32System opcode && funct3 == 0b110
def instCsrrci : Bool := rv32System opcode && funct3 == 0b111

def instUType : Bool := rv32Lui opcode || rv32Auipc opcode

def instJumpType : Bool := rv32Jal opcode

def instBType : Bool :=
  instBeq opcode funct3 || instBne opcode funct3 || instBlt opcode funct3 ||
    instBge opcode funct3 || instBltu opcode funct3 || instBgeu opcode funct3

def instRType : Bool :=
  instAdd opcode funct3 funct7 || instSub opcode funct3 funct7 || instSll opcode funct3 funct7 ||
    instSlt opcode funct3 funct7 || instSltu opcode funct3 funct7 ||
    instXor opcode funct3 funct7 || instSrl opcode funct3 funct7 || instSra opcode funct3 funct7 ||
    instOr opcode funct3 funct7 || instAnd opcode funct3 funct7

def instLoads : Bool :=
  instLb opcode funct3 || instLh opcode funct3 || instLw opcode funct3 ||
    instLbu opcode funct3 || instLhu opcode funct3

def instRegImm : Bool :=
  instAddi opcode funct3 || instSlti opcode funct3 || instSltiu opcode funct3 ||
    instXori opcode funct3 || instOri opcode funct3 || instAndi opcode funct3 ||
    instSlli opcode funct3 funct7 || instSrli opcode funct3 funct7 || instSrai opcode funct3 funct7

def instIType : Bool :=
  instJalr opcode funct3 || instLoads opcode funct3 || instRegImm opcode funct3 funct7

def instSType : Bool := instSb opcode funct3 || instSh opcode funct3 || instSw opcode funct3

def instAddType : Bool :=
  rv32Auipc opcode || rv32Jal opcode || instJalr opcode funct3 || instBType opcode funct3 ||
    instSType opcode funct3 || instLoads opcode funct3 || instAdd opcode funct3 funct7 ||
    instAddi opcode funct3

def rfWrSel : BitVec 2 :=
  if rv32Jal opcode || instJalr opcode funct3 then 0b01
  else if instRegImm opcode funct3 funct7 || instJalr opcode funct3 ||
    instRType opcode funct3 funct7 || instUType opcode then 0b10
  else if instLoads opcode funct3 then 0b11
  else 0b00

def aluCtrl : AluOp :=
  if instAddType opcode funct3 funct7 then .add
  else if instSub opcode funct3 funct7 then .sub
  else if instSll opcode funct3 funct7 || instSlli opcode funct3 funct7 then .sll
  else if instSrl opcode funct3 funct7 || instSrli opcode funct3 funct7 then .srl
  else if instSra opcode funct3 funct7 || instSrai opcode funct3 funct7 then .sra
  else if instSlt opcode funct3 funct7 || instSlti opcode funct3 then .slt
  else if instSltu opcode funct3 funct7 || instSltiu opcode funct3 then .sltu
  else if instXor opcode funct3 funct7 || instXori opcode funct3 then .xor
  else if instOr opcode funct3 funct7 || instOri opcode funct3 then .or
  else if instAnd opcode funct3 funct7 || instAndi opcode funct3 then .and
  else if rv32Lui opcode then .lui
  else .xxx

def dmRdCtrl : BitVec 3 :=
  if instLb opcode funct3 then 0b001
  else if instLbu opcode funct3 then 0b010
  else if instLh opcode funct3 then 0b011
  else if instLhu opcode funct3 then 0b100
  else if instLw opcode funct3 then 0b101
  else 0b000

def dmWrCtrl : BitVec 2 :=
  if instSb opcode funct3 then 0b01
  else if instSh opcode funct3 then 0b10
  else if instSw opcode funct3 then 0b11
  else 0b00

def wires : Wires where
  uType := instUType opcode
  jumpType := instJumpType opcode
  bType := instBType opcode funct3
  rType := instRType opcode funct3 funct7
  iType := instIType opcode funct3 funct7
  sType := instSType opcode funct3
  jalr := instJalr opcode funct3
  noRdata1 :=
    instUType opcode || instJumpType opcode || instCsrrwi opcode funct3 ||
      instCsrrsi opcode funct3 || instCsrrci opcode funct3 || instEcall opcode funct3 csr ||
      instEbreak opcode funct3 csr || instMret opcode funct3 csr
  rfWrSel := rfWrSel opcode funct3 funct7
  aluCtrl := aluCtrl opcode funct3 funct7
  dmRdCtrl := dmRdCtrl opcode funct3
  dmWrCtrl := dmWrCtrl opcode funct3
  ebreak := instEbreak opcode funct3 csr

def branchEn (rs1Value rs2Value : Word) : Bool :=
  if instBeq opcode funct3 then rs1Value == rs2Value
  else if instBne opcode funct3 then rs1Value != rs2Value
  else if instBlt opcode funct3 then rs1Value.slt rs2Value
  else if instBge opcode funct3 then rs2Value.sle rs1Value
  else if instBltu opcode funct3 then rs1Value.ult rs2Value
  else if instBgeu opcode funct3 then rs2Value.ule rs1Value
  else false

end Wires

section Fields

variable (inst : Word)

def opcode : BitVec 7 := inst.extractLsb' 0 7
def rd : BitVec 5 := inst.extractLsb' 7 5
def funct3 : BitVec 3 := inst.extractLsb' 12 3
def rs1 : BitVec 5 := inst.extractLsb' 15 5
def rs2 : BitVec 5 := inst.extractLsb' 20 5
def funct7 : BitVec 7 := inst.extractLsb' 25 7

def decode : Wires := wires (opcode inst) (funct3 inst) (funct7 inst) (inst.extractLsb' 20 12)

def imm (w : Wires) : Word :=
  if w.uType then inst.extractLsb' 12 20 ++ 0#12
  else if w.bType then
    BitVec.fill 20 (inst.getLsbD 31) ++ (inst.extractLsb' 7 1 ++ inst.extractLsb' 25 6 ++
      inst.extractLsb' 8 4 ++ 0#1)
  else if w.jumpType then
    BitVec.fill 12 (inst.getLsbD 31) ++ (inst.extractLsb' 12 8 ++ inst.extractLsb' 20 1 ++
      inst.extractLsb' 21 10 ++ 0#1)
  else if w.iType then BitVec.fill 20 (inst.getLsbD 31) ++ inst.extractLsb' 20 12
  else if w.sType then
    BitVec.fill 20 (inst.getLsbD 31) ++ (inst.extractLsb' 25 7 ++ inst.extractLsb' 7 5)
  else 0

def idImm (w : Wires) : Word :=
  (BitVec.fill 32 w.iType &&& imm inst w) ||| (BitVec.fill 32 w.sType &&& imm inst w) |||
    (BitVec.fill 32 w.bType &&& imm inst w) ||| (BitVec.fill 32 w.jumpType &&& imm inst w) |||
    (BitVec.fill 32 w.uType &&& imm inst w)

end Fields

section Stage

variable (r : IfToId) (rs1Value rs2Value : Word)

def branchTaken (valid : Bool) : Bool :=
  (branchEn (opcode r.inst) (funct3 r.inst) rs1Value rs2Value || (decode r.inst).jalr ||
    (decode r.inst).jumpType) && valid

def branchTarget : Word :=
  let w := decode r.inst
  if w.bType || w.jumpType then r.pc + imm r.inst w
  else if w.jalr then rs1Value + imm r.inst w
  else 0

def toExe (valid : Bool) : IdToExe :=
  let w := decode r.inst
  { pc := r.pc
    src1IsPc := !(w.rType || w.iType || w.sType)
    src2IsImm := !w.rType
    rfWrEn := (w.uType || w.rType || w.iType || w.jumpType) && rd r.inst != 0 && valid
    imm := idImm r.inst w
    rs1Value
    rs2Value
    rfWrSel := w.rfWrSel
    aluCtrl := w.aluCtrl
    dmWrCtrl := w.dmWrCtrl
    dmRdCtrl := w.dmRdCtrl
    regWaddr := rd r.inst
    instEbreak := w.ebreak }

end Stage

end Id

namespace Dmem

def rdata (rdCtrl : BitVec 3) (addr : Word) (m : Mem 32) : Word :=
  let memOut := dpiMemRead m addr 4
  match rdCtrl with
  | 0b001 => BitVec.fill 24 (memOut.getLsbD 7) ++ memOut.extractLsb' 0 8
  | 0b010 => 0#24 ++ memOut.extractLsb' 0 8
  | 0b011 => BitVec.fill 16 (memOut.getLsbD 15) ++ memOut.extractLsb' 0 16
  | 0b100 => 0#16 ++ memOut.extractLsb' 0 16
  | 0b101 => memOut
  | _ => 0

def edge (wrCtrl : BitVec 2) (addr wdata : Word) (m : Mem 32) : Mem 32 :=
  if wrCtrl == 0b11 then dpiMemWrite m addr wdata 4
  else if wrCtrl == 0b10 then dpiMemWrite m addr wdata 2
  else if wrCtrl == 0b01 then dpiMemWrite m addr wdata 1
  else m

end Dmem

namespace IdToExe

variable (e : IdToExe)

def aluResult : Word :=
  alu e.aluCtrl (if e.src1IsPc then e.pc else e.rs1Value)
    (if e.src2IsImm then e.imm else e.rs2Value)

def isLoad : Bool := e.dmRdCtrl != 0

def toMem (m : Mem 32) : ExeToMem where
  pc := e.pc
  aluResult := e.aluResult
  rfWrSel := e.rfWrSel
  rfWrEn := e.rfWrEn
  regWaddr := e.regWaddr
  dataSramRdata := Dmem.rdata e.dmRdCtrl e.aluResult m
  instEbreak := e.instEbreak

def bypass : RfWrite := ⟨e.rfWrEn, e.regWaddr, e.aluResult⟩

end IdToExe

namespace ExeToMem

variable (e : ExeToMem)

def finalResult : Word :=
  match e.rfWrSel with
  | 0b01 => e.pc + 4
  | 0b10 => e.aluResult
  | 0b11 => e.dataSramRdata
  | _ => 0

def toWb : MemToWb := ⟨e.pc, e.finalResult, e.rfWrEn, e.regWaddr, e.instEbreak⟩

def bypass : RfWrite := ⟨e.rfWrEn, e.regWaddr, e.finalResult⟩

end ExeToMem

def MemToWb.toId (e : MemToWb) : RfWrite := ⟨e.rfWrEn, e.regWaddr, e.finalResult⟩

structure Cpu where
  ifValid : Bool
  ifPc : Word
  idValid : Bool
  idReg : IfToId
  exeValid : Bool
  exeReg : IdToExe
  memValid : Bool
  memReg : ExeToMem
  wbValid : Bool
  wbReg : MemToWb
  rf : Regfile
  mem : Mem 32

namespace Cpu

section Wires

variable (s : Cpu)

def wbAllowIn : Bool := !s.wbValid || true
def memAllowIn : Bool := !s.memValid || (true && s.wbAllowIn)
def exeAllowIn : Bool := !s.exeValid || (true && s.memAllowIn)

def wires : Wires := Id.decode s.idReg.inst

def useRfRdata1 : Bool := s.idValid && !s.wires.noRdata1

def useRfRdata2 : Bool := s.idValid && (s.wires.bType || s.wires.sType || s.wires.rType)

/-- The load in `exe_stage` has not read what `raddr` will hold. -/
def loadsInto (raddr : BitVec 5) : Bool :=
  s.exeValid && s.exeReg.isLoad && s.exeReg.bypass.wrEn && raddr == s.exeReg.bypass.waddr

def idReadyGo : Bool :=
  !(s.useRfRdata1 && s.loadsInto (Id.rs1 s.idReg.inst)) &&
    !(s.useRfRdata2 && s.loadsInto (Id.rs2 s.idReg.inst))

def idAllowIn : Bool := !s.idValid || (s.idReadyGo && s.exeAllowIn)
def idToExeValid : Bool := s.idValid && s.idReadyGo
def ifToIdValid : Bool := s.ifValid && true
def ifAllowIn : Bool := !s.ifValid || (true && s.idAllowIn)
def exeToMemValid : Bool := s.exeValid && true
def memToWbValid : Bool := s.memValid && true

def rdata (raddr : BitVec 5) : Word := if raddr == 0 then 0 else s.rf raddr

/-- `rs1_value` and `rs2_value`. -/
def rsValue (raddr : BitVec 5) : Word :=
  let exe := s.exeReg.bypass
  let mem := s.memReg.bypass
  let wb := s.wbReg.toId
  if s.exeValid && exe.wrEn && raddr == exe.waddr then exe.wdata
  else if s.memValid && mem.wrEn && raddr == mem.waddr then mem.wdata
  else if s.wbValid && wb.wrEn && raddr == wb.waddr then wb.wdata
  else s.rdata raddr

def rs1Value : Word := s.rsValue (Id.rs1 s.idReg.inst)
def rs2Value : Word := s.rsValue (Id.rs2 s.idReg.inst)

def branchTaken : Bool := Id.branchTaken s.idReg s.rs1Value s.rs2Value s.idValid

def branchTarget : Word := Id.branchTarget s.idReg s.rs1Value

def branchTakenCancel : Bool :=
  s.idValid && s.idReadyGo && s.branchTaken && s.exeAllowIn

def ifToId : IfToId := ⟨s.ifPc, dpiMemRead s.mem s.ifPc 4⟩

def nextpc : Word := if s.branchTaken then s.branchTarget else s.ifPc + 4

def idToExe : IdToExe := Id.toExe s.idReg s.rs1Value s.rs2Value s.idValid

def dataSramWrCtrl : BitVec 2 := s.exeReg.dmWrCtrl &&& BitVec.fill 2 s.exeValid

/-- `commit` with `commit_pre_pc` and `wb_inst_ebreak`. On the latter alone, whether
`wb_valid` is set or not, `dpi_ebreak` is called. -/
def commit : Option (Word × Bool) :=
  if s.wbValid then some (s.wbReg.pc, s.wbReg.instEbreak) else none

end Wires

/-- No stage register is reset, and `regfile` writes what `wb_stage` holds
whether it is valid or not. -/
def edge (rst : Bool) (s : Cpu) : Cpu where
  ifValid :=
    if rst then false
    else if s.ifAllowIn then !rst
    else if s.branchTakenCancel then false
    else s.ifValid
  ifPc := if rst then memBase - 4 else if s.ifAllowIn && !rst then s.nextpc else s.ifPc
  idValid :=
    if rst then false
    else if s.branchTakenCancel then false
    else if s.idAllowIn then s.ifToIdValid
    else s.idValid
  idReg := if s.idAllowIn && s.ifToIdValid then s.ifToId else s.idReg
  exeValid := if rst then false else if s.exeAllowIn then s.idToExeValid else s.exeValid
  exeReg := if s.exeAllowIn && s.idToExeValid then s.idToExe else s.exeReg
  memValid := if rst then false else if s.memAllowIn then s.exeToMemValid else s.memValid
  memReg := if s.memAllowIn && s.exeToMemValid then s.exeReg.toMem s.mem else s.memReg
  wbValid := if rst then false else if s.wbAllowIn then s.memToWbValid else s.wbValid
  wbReg := if s.wbAllowIn && s.memToWbValid then s.memReg.toWb else s.wbReg
  rf :=
    if rst then Function.update s.rf 0 0
    else if s.wbReg.toId.wrEn then Function.update s.rf s.wbReg.toId.waddr s.wbReg.toId.wdata
    else s.rf
  mem := Dmem.edge s.dataSramWrCtrl s.exeReg.aluResult s.exeReg.rs2Value s.mem

def machine : Clocked Cpu (Word × Bool) where
  edge := edge false
  port := commit

end Cpu

end LinuxCpu.Rv32.TaoShuRv
