import LinuxCpu.Lib.ByteMemory
import Mathlib.Logic.Function.Basic

/-! `single-cycle-cpu`: `CTRL`, `IDU` with `REGU`, `EXU`, `BR_JMP`, `MEMU`,
`WBU`, `CSR`, `PCU`, and `cpu_top` around them. -/

namespace LinuxCpu.Rv32

open ByteMemory

abbrev Word := BitVec 32

inductive AluSel
  | add | sub | sll | slt | sltu | xor | srl | sra | or | and | jalr | selValC
  deriving DecidableEq

inductive ValCSel
  | uType | iType | iShamt | sType | rType | bType | jType | zero
  deriving DecidableEq

inductive MemRw
  | lb | lbu | lh | lhu | lw | sb | sh | sw | noRw
  deriving DecidableEq

inductive PcSel
  | valP | valE | csrValP
  deriving DecidableEq

inductive WbSel
  | valE | valM | valP | valR
  deriving DecidableEq

inductive ValASel
  | valA | pc
  deriving DecidableEq

inductive ValBSel
  | valB | valC
  deriving DecidableEq

inductive CsrFlag
  | none | csrrw | csrrs | ecall | mret
  deriving DecidableEq

/-- The outputs of `CTRL`, but for `CTRL_o_br_un`. -/
structure Control where
  valASel : ValASel
  valBSel : ValBSel
  aluSel : AluSel
  regWen : Bool
  wbSel : WbSel
  valCSel : ValCSel
  pcSel : PcSel
  memRw : MemRw
  csrFlag : CsrFlag
  deriving DecidableEq

namespace Ctrl

section Wires

variable (opcode : BitVec 5) (func3 : BitVec 3) (func7 : BitVec 7)

def func7_00 : Bool := func7.extractLsb' 5 2 == 0b00
def func7_01 : Bool := func7.extractLsb' 5 2 == 0b01

def rv32Csrrw : Bool := opcode == 0b11100 && func3 == 0b001
def rv32Csrrs : Bool := opcode == 0b11100 && func3 == 0b010

def rv32Lui : Bool := opcode == 0b01101
def rv32Auipc : Bool := opcode == 0b00101

def rv32AddiFam : Bool := opcode == 0b00100
def rv32Addi : Bool := opcode == 0b00100 && func3 == 0b000
def rv32Slli : Bool := opcode == 0b00100 && func3 == 0b001 && func7_00 func7
def rv32Slti : Bool := opcode == 0b00100 && func3 == 0b010
def rv32Sltiu : Bool := opcode == 0b00100 && func3 == 0b011
def rv32Xori : Bool := opcode == 0b00100 && func3 == 0b100
def rv32Srli : Bool := opcode == 0b00100 && func3 == 0b101 && func7_00 func7
def rv32Srai : Bool := opcode == 0b00100 && func3 == 0b101 && func7_01 func7
def rv32Ori : Bool := opcode == 0b00100 && func3 == 0b110
def rv32Andi : Bool := opcode == 0b00100 && func3 == 0b111

def rv32AddFam : Bool := opcode == 0b01100
def rv32Add : Bool := opcode == 0b01100 && func3 == 0b000 && func7_00 func7
def rv32Sub : Bool := opcode == 0b01100 && func3 == 0b000 && func7_01 func7
def rv32Sll : Bool := opcode == 0b01100 && func3 == 0b001 && func7_00 func7
def rv32Slt : Bool := opcode == 0b01100 && func3 == 0b010 && func7_00 func7
def rv32Sltu : Bool := opcode == 0b01100 && func3 == 0b011 && func7_00 func7
def rv32Xor : Bool := opcode == 0b01100 && func3 == 0b100 && func7_00 func7
def rv32Srl : Bool := opcode == 0b01100 && func3 == 0b101 && func7_00 func7
def rv32Sra : Bool := opcode == 0b01100 && func3 == 0b101 && func7_01 func7
def rv32Or : Bool := opcode == 0b01100 && func3 == 0b110 && func7_00 func7
def rv32And : Bool := opcode == 0b01100 && func3 == 0b111 && func7_00 func7

def rv32Load : Bool := opcode == 0b00000
def rv32Lb : Bool := opcode == 0b00000 && func3 == 0b000
def rv32Lh : Bool := opcode == 0b00000 && func3 == 0b001
def rv32Lw : Bool := opcode == 0b00000 && func3 == 0b010
def rv32Lbu : Bool := opcode == 0b00000 && func3 == 0b100
def rv32Lhu : Bool := opcode == 0b00000 && func3 == 0b101

def rv32Save : Bool := opcode == 0b01000
def rv32Sb : Bool := opcode == 0b01000 && func3 == 0b000
def rv32Sh : Bool := opcode == 0b01000 && func3 == 0b001
def rv32Sw : Bool := opcode == 0b01000 && func3 == 0b010

def rv32Jal : Bool := opcode == 0b11011
def rv32Jalr : Bool := opcode == 0b11001 && func3 == 0b000

def rv32BeqFam : Bool := opcode == 0b11000
def rv32Beq : Bool := opcode == 0b11000 && func3 == 0b000
def rv32Bne : Bool := opcode == 0b11000 && func3 == 0b001
def rv32Blt : Bool := opcode == 0b11000 && func3 == 0b100
def rv32Bge : Bool := opcode == 0b11000 && func3 == 0b101
def rv32Bltu : Bool := opcode == 0b11000 && func3 == 0b110
def rv32Bgeu : Bool := opcode == 0b11000 && func3 == 0b111

def rv32IType : Bool :=
  rv32Load opcode || rv32AddiFam opcode || rv32Jalr opcode func3 || rv32Csrrs opcode func3 ||
    rv32Csrrw opcode func3
def rv32RType : Bool := rv32AddFam opcode
def rv32UType : Bool := rv32Lui opcode || rv32Auipc opcode
def rv32JType : Bool := rv32Jal opcode
def rv32SType : Bool := rv32Save opcode
def rv32BType : Bool := rv32BeqFam opcode

def valASel : ValASel :=
  if rv32IType opcode func3 || rv32RType opcode || rv32SType opcode then .valA
  else if rv32UType opcode || rv32JType opcode || rv32BType opcode then .pc
  else .valA

def valBSel : ValBSel :=
  if rv32RType opcode then .valB
  else if rv32IType opcode func3 || rv32SType opcode || rv32BType opcode || rv32UType opcode ||
    rv32JType opcode then .valC
  else .valB

def aluSel : AluSel :=
  if rv32Add opcode func3 func7 || rv32Addi opcode func3 then .add
  else if rv32Sub opcode func3 func7 then .sub
  else if rv32Sll opcode func3 func7 || rv32Slli opcode func3 func7 then .sll
  else if rv32Slt opcode func3 func7 || rv32Slti opcode func3 then .slt
  else if rv32Sltu opcode func3 func7 || rv32Sltiu opcode func3 then .sltu
  else if rv32Xor opcode func3 func7 || rv32Xori opcode func3 then .xor
  else if rv32Srl opcode func3 func7 || rv32Srli opcode func3 func7 then .srl
  else if rv32Sra opcode func3 func7 || rv32Srai opcode func3 func7 then .sra
  else if rv32Or opcode func3 func7 || rv32Ori opcode func3 then .or
  else if rv32And opcode func3 func7 || rv32Andi opcode func3 then .and
  else if rv32Jalr opcode func3 then .jalr
  else if rv32Lui opcode then .selValC
  else .add

def regWen : Bool :=
  rv32IType opcode func3 || rv32RType opcode || rv32UType opcode || rv32JType opcode

def wbSel : WbSel :=
  if rv32RType opcode || rv32AddiFam opcode || rv32UType opcode then .valE
  else if rv32Load opcode then .valM
  else if rv32Jalr opcode func3 || rv32JType opcode then .valP
  else if rv32Csrrw opcode func3 || rv32Csrrs opcode func3 then .valR
  else .valM

def brUn : Bool := rv32Bltu opcode func3 || rv32Bgeu opcode func3

def pcSel (rv32Ecall rv32Mret brLt brEq : Bool) : PcSel :=
  if rv32Beq opcode func3 && brEq then .valE
  else if rv32Bne opcode func3 && !brEq then .valE
  else if rv32Blt opcode func3 && brLt then .valE
  else if rv32Bge opcode func3 && !brLt then .valE
  else if rv32Bltu opcode func3 && brLt then .valE
  else if rv32Bgeu opcode func3 && !brLt then .valE
  else if rv32Jal opcode || rv32Jalr opcode func3 then .valE
  else if rv32Ecall || rv32Mret then .csrValP
  else .valP

def memRw : MemRw :=
  if rv32Lb opcode func3 then .lb
  else if rv32Lbu opcode func3 then .lbu
  else if rv32Lh opcode func3 then .lh
  else if rv32Lhu opcode func3 then .lhu
  else if rv32Lw opcode func3 then .lw
  else if rv32Sb opcode func3 then .sb
  else if rv32Sh opcode func3 then .sh
  else if rv32Sw opcode func3 then .sw
  else .noRw

def valCSel : ValCSel :=
  if rv32UType opcode then .uType
  else if rv32IType opcode func3 then
    if rv32Slli opcode func3 func7 || rv32Srli opcode func3 func7 ||
        rv32Srai opcode func3 func7 then
      .iShamt
    else .iType
  else if rv32SType opcode then .sType
  else if rv32RType opcode then .rType
  else if rv32BType opcode then .bType
  else if rv32JType opcode then .jType
  else .zero

def csrFlag (rv32Ecall rv32Mret : Bool) : CsrFlag :=
  if rv32Csrrw opcode func3 then .csrrw
  else if rv32Csrrs opcode func3 then .csrrs
  else if rv32Ecall then .ecall
  else if rv32Mret then .mret
  else .none

def outputs (rv32Ecall rv32Mret brLt brEq : Bool) : Control where
  valASel := valASel opcode func3
  valBSel := valBSel opcode func3
  aluSel := aluSel opcode func3 func7
  regWen := regWen opcode func3
  wbSel := wbSel opcode func3
  valCSel := valCSel opcode func3 func7
  pcSel := pcSel opcode func3 rv32Ecall rv32Mret brLt brEq
  memRw := memRw opcode func3
  csrFlag := csrFlag opcode func3 rv32Ecall rv32Mret

end Wires

def opcode (instr : Word) : BitVec 5 := instr.extractLsb' 2 5
def func3 (instr : Word) : BitVec 3 := instr.extractLsb' 12 3
def func7 (instr : Word) : BitVec 7 := instr.extractLsb' 25 7

def rv32Ecall (instr : Word) : Bool := instr == 0x00000073
def rv32Mret (instr : Word) : Bool := instr == 0x30200073

end Ctrl

open Ctrl in
def ctrl (instr : Word) (brLt brEq : Bool) : Control :=
  outputs (opcode instr) (func3 instr) (func7 instr) (rv32Ecall instr) (rv32Mret instr) brLt brEq

abbrev Regfile := BitVec 5 → Word

/-- `REGU`: entry 0 is never written, but a read of it is not masked. -/
def reguEdge (rst regWen : Bool) (rd : BitVec 5) (valW : Word) (regfile : Regfile) : Regfile :=
  if rst then Function.update regfile 0 0
  else if regWen && rd != 0 then Function.update regfile rd valW
  else regfile

namespace Idu

variable (instr : Word)

def rs1 : BitVec 5 := instr.extractLsb' 15 5
def rs2 : BitVec 5 := instr.extractLsb' 20 5
def rd : BitVec 5 := instr.extractLsb' 7 5

def valC : ValCSel → Word
  | .uType => instr.extractLsb' 12 20 ++ 0#12
  | .iType => BitVec.fill 20 (instr.getLsbD 31) ++ instr.extractLsb' 20 12
  | .iShamt => 0#27 ++ instr.extractLsb' 20 5
  | .sType => BitVec.fill 20 (instr.getLsbD 31) ++ (instr.extractLsb' 25 7 ++ instr.extractLsb' 7 5)
  | .rType => 0
  | .bType =>
    (BitVec.fill 20 (instr.getLsbD 31) ++ (instr.extractLsb' 31 1 ++ instr.extractLsb' 7 1 ++
      instr.extractLsb' 25 6 ++ instr.extractLsb' 8 4)) <<< 1
  | .jType =>
    (BitVec.fill 12 (instr.getLsbD 31) ++ (instr.extractLsb' 31 1 ++ instr.extractLsb' 12 8 ++
      instr.extractLsb' 20 1 ++ instr.extractLsb' 21 10)) <<< 1
  | .zero => 0

end Idu

namespace Exu

def valA (sel : ValASel) (valA pc : Word) : Word :=
  match sel with
  | .valA => valA
  | .pc => pc

def valB (sel : ValBSel) (valB valC : Word) : Word :=
  match sel with
  | .valB => valB
  | .valC => valC

def valE (sel : AluSel) (valA valB : Word) : Word :=
  match sel with
  | .add => valA + valB
  | .sub => valA - valB
  | .sll => valA <<< valB.extractLsb' 0 5
  | .slt => if valA.slt valB then 1 else 0
  | .sltu => if valA.ult valB then 1 else 0
  | .xor => valA ^^^ valB
  | .srl => valA >>> valB.extractLsb' 0 5
  | .sra => valA.sshiftRight' (valB.extractLsb' 0 5)
  | .or => valA ||| valB
  | .and => valA &&& valB
  | .jalr => (valA + valB) &&& ~~~1
  | .selValC => valB

end Exu

def exu (c : Control) (valA valB valC pc : Word) : Word :=
  Exu.valE c.aluSel (Exu.valA c.valASel valA pc) (Exu.valB c.valBSel valB valC)

namespace BrJmp

def brEq (_brUn : Bool) (valA valB : Word) : Bool := valA == valB

def brLt (brUn : Bool) (valA valB : Word) : Bool :=
  if brUn then valA.ult valB else valA.slt valB

end BrJmp

/-- `dpi_mem_read` and `dpi_mem_write` on a little-endian byte memory. -/
def dpiMemRead (m : Mem 32) (addr : Word) (len : Nat) : Word := (load m addr len).setWidth 32

def dpiMemWrite (m : Mem 32) (addr data : Word) (len : Nat) : Mem 32 := store m addr len data

namespace Memu

/-- A load reads four bytes whatever its width. -/
def tmp (rw : MemRw) (m : Mem 32) (addr : Word) : Word :=
  match rw with
  | .lb | .lh | .lw | .lbu | .lhu => dpiMemRead m addr 4
  | _ => 0

def valM (rw : MemRw) (tmp : Word) : Word :=
  match rw with
  | .lb => BitVec.fill 24 (tmp.getLsbD 7) ++ tmp.extractLsb' 0 8
  | .lh => BitVec.fill 16 (tmp.getLsbD 15) ++ tmp.extractLsb' 0 16
  | .lw => tmp
  | .lbu => 0#24 ++ tmp.extractLsb' 0 8
  | .lhu => 0#16 ++ tmp.extractLsb' 0 16
  | _ => tmp

/-- The store at the clock edge; it does not look at `rst`. -/
def edge (rw : MemRw) (addr data : Word) (m : Mem 32) : Mem 32 :=
  match rw with
  | .sb => dpiMemWrite m addr data 1
  | .sh => dpiMemWrite m addr data 2
  | .sw => dpiMemWrite m addr data 4
  | _ => m

end Memu

def wbu (sel : WbSel) (valP valM valE valR : Word) : Word :=
  match sel with
  | .valM => valM
  | .valE => valE
  | .valP => valP
  | .valR => valR

structure Csr where
  mstatus : Word
  mtvec : Word
  mcause : Word
  mepc : Word
  deriving DecidableEq

namespace Csr

def valR (flag : CsrFlag) (csrIdx : Word) (c : Csr) : Word :=
  let rw := flag == .csrrs || flag == .csrrw
  if csrIdx == 0x300 && rw then c.mstatus
  else if csrIdx == 0x305 && rw then c.mtvec
  else if csrIdx == 0x341 && rw then c.mepc
  else if csrIdx == 0x342 && rw then c.mcause
  else 0

def valP (flag : CsrFlag) (c : Csr) : Word :=
  match flag with
  | .ecall => c.mtvec
  | .mret => c.mepc
  | _ => 0

def write (csrIdx : Word) (f : Word → Word) (c : Csr) : Csr :=
  if csrIdx = 0x300 then { c with mstatus := f c.mstatus }
  else if csrIdx = 0x305 then { c with mtvec := f c.mtvec }
  else if csrIdx = 0x341 then { c with mepc := f c.mepc }
  else if csrIdx = 0x342 then { c with mcause := f c.mcause }
  else c

def edge (rst : Bool) (flag : CsrFlag) (pc valA valC : Word) (c : Csr) : Csr :=
  if rst then ⟨0x1800, 0, 0, 0⟩
  else match flag with
    | .csrrw => c.write valC fun _ => valA
    | .csrrs => c.write valC fun old => valA ||| old
    | .ecall => { c with mepc := pc + 4, mcause := 1 }
    | .mret => c
    | .none => c

end Csr

def pcuEdge (rst : Bool) (sel : PcSel) (valE csrValP valP : Word) : Word :=
  if rst then 0x80000000
  else match sel with
    | .valE => valE
    | .csrValP => csrValP
    | .valP => valP

structure Cpu where
  pc : Word
  regfile : Regfile
  csr : Csr
  mem : Mem 32

namespace Cpu

def instr (s : Cpu) : Word := dpiMemRead s.mem s.pc 4

def edge (rst : Bool) (s : Cpu) : Cpu :=
  let instr := s.instr
  let valA := s.regfile (Idu.rs1 instr)
  let valB := s.regfile (Idu.rs2 instr)
  let brUn := Ctrl.brUn (Ctrl.opcode instr) (Ctrl.func3 instr)
  let c := ctrl instr (BrJmp.brLt brUn valA valB) (BrJmp.brEq brUn valA valB)
  let valC := Idu.valC instr c.valCSel
  let valE := exu c valA valB valC s.pc
  let valM := Memu.valM c.memRw (Memu.tmp c.memRw s.mem valE)
  let valP := s.pc + 4
  let valW := wbu c.wbSel valP valM valE (Csr.valR c.csrFlag valC s.csr)
  { pc := pcuEdge rst c.pcSel valE (Csr.valP c.csrFlag s.csr) valP
    regfile := reguEdge rst c.regWen (Idu.rd instr) valW s.regfile
    csr := Csr.edge rst c.csrFlag s.pc valA valC s.csr
    mem := Memu.edge c.memRw valE valB s.mem }

/-- The states a reset and any edges after it lead to. -/
inductive Reachable : Cpu → Prop
  | reset (s : Cpu) : Reachable (s.edge true)
  | edge (rst : Bool) {s : Cpu} : Reachable s → Reachable (s.edge rst)

theorem reguEdge_zero (rst regWen : Bool) (rd : BitVec 5) (valW : Word) {regfile : Regfile}
    (h : regfile 0 = 0) : reguEdge rst regWen rd valW regfile 0 = 0 := by
  unfold reguEdge
  split
  · exact Function.update_self 0 (0 : Word) regfile
  · split
    · next hw =>
      rw [Bool.and_eq_true, bne_iff_ne] at hw
      rw [Function.update_of_ne hw.2.symm, h]
    · exact h

theorem edge_x0 (rst : Bool) {s : Cpu} (h : s.regfile 0 = 0) : (s.edge rst).regfile 0 = 0 :=
  reguEdge_zero _ _ _ _ h

theorem Reachable.x0 {s : Cpu} (h : Reachable s) : s.regfile 0 = 0 := by
  induction h with
  | reset s => exact Function.update_self 0 (0 : Word) s.regfile
  | edge rst _ ih => exact edge_x0 rst ih

end Cpu

end LinuxCpu.Rv32
