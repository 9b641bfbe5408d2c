import LinuxCpu.Lib.Bits
import LinuxCpu.Lib.ByteMemory
import LinuxCpu.Lib.Clocked
import LinuxCpu.RiscV.Syntax
import LinuxCpu.RiscV.Semantics
import LinuxCpu.Simulator.Dpi
import LinuxCpu.Simulator.Sim
import LinuxCpu.Rv64.Decode
import LinuxCpu.Rv64.Execute
import LinuxCpu.Rv64.Stages
import LinuxCpu.Rv64.DecodeTable
import LinuxCpu.Rv64.AluCorrect
import LinuxCpu.Rv64.ControlCorrect
import LinuxCpu.Rv64.MemoryCorrect
import LinuxCpu.Rv64.ExecuteM
import LinuxCpu.Rv64.DivCorrect
import LinuxCpu.Rv64.Fetch
import LinuxCpu.Rv64.FetchCorrect
import LinuxCpu.Rv64.TopCpu
import LinuxCpu.Rv64.DecodeFacts
import LinuxCpu.Rv64.BackEnd
import LinuxCpu.Rv64.LinuxRefine
import LinuxCpu.Rv64.PipelineRefine
import LinuxCpu.Rv32.SingleCycle
import LinuxCpu.Rv32.SingleCycleCorrect
import LinuxCpu.Rv32.Trap
import LinuxCpu.Simulator.SimCorrect
import LinuxCpu.Rv64.LinuxDifftest
import LinuxCpu.Rv64.MulCorrect
import LinuxCpu.Rv64.ExecuteAgree
import LinuxCpu.Rv64.LinuxTopCpu
import LinuxCpu.Rv64.ReadyValid
import LinuxCpu.Simulator.Memory
import LinuxCpu.Klib.String
import LinuxCpu.Klib.Stdio
import LinuxCpu.Klib.Numeral
import LinuxCpu.Klib.Format
import LinuxCpu.Klib.Vsprintf
import LinuxCpu.Klib.VsprintfCorrect
import LinuxCpu.Klib.InStep
import LinuxCpu.Klib.PrintfCorrect
import LinuxCpu.Klib.Stdlib
import LinuxCpu.Klib.Memory
import LinuxCpu.Lib.FirstDiff
import LinuxCpu.Klib.Compare
import LinuxCpu.Rv32.AdderAluCorrect
import LinuxCpu.Rv64.IcacheTwoWay
import LinuxCpu.Rv64.StallJump
import LinuxCpu.RiscV.Decode
import LinuxCpu.RiscV.Run
import LinuxCpu.Rv64.Architecture
import LinuxCpu.Rv64.IsaRefine
import LinuxCpu.Rv64.IsaTopCpu
import LinuxCpu.Rv64.IsaDifftest
import LinuxCpu.Rv64.TextFetch
import LinuxCpu.Rv64.IsaLinuxTopCpu
import LinuxCpu.RiscV.Program
import LinuxCpu.Lib.BitSerial
import LinuxCpu.Libgcc.Div
import LinuxCpu.Libgcc.SignedDiv
import LinuxCpu.Libgcc.Mul
import LinuxCpu.Libgcc.MulDiv
import LinuxCpu.Libgcc.DoubleWord
import LinuxCpu.Rv32.IsaRun
import LinuxCpu.Klib.CountZeros
import LinuxCpu.Klib.Int64
import LinuxCpu.Klib.Int64Correct
import LinuxCpu.Rv32.TaoShuRv
import LinuxCpu.Rv32.TaoShuRvCorrect
import LinuxCpu.Rv32.TaoShuRvTiming
import LinuxCpu.Rv32.TaoShuRvRefine
import LinuxCpu.Rv32.TaoShuRvRun
