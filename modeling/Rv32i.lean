import Rv32i.Lib.Ternary
import Rv32i.Lib.Bracket
import Rv32i.Lib.Rightmost
import Rv32i.Lib.Lockstep
import Rv32i.Lib.Regex
import Rv32i.Isa.Encoding
import Rv32i.Isa.Step
import Rv32i.Nemu.Memory
import Rv32i.Nemu.Overlap
import Rv32i.Nemu.Inst
import Rv32i.Nemu.Table
import Rv32i.Lib.Wildcard
import Rv32i.Nemu.Pattern
import Rv32i.Nemu.Invalid
import Rv32i.Nemu.Refine
import Rv32i.Nemu.Compute
import Rv32i.Nemu.Control
import Rv32i.Nemu.MulDiv
import Rv32i.Nemu.LoadStore
import Rv32i.Nemu.Sdb.Expr
import Rv32i.Nemu.Sdb.Syntax
import Rv32i.Nemu.Sdb.MainOp
import Rv32i.Nemu.Sdb.Eval
import Rv32i.Nemu.Sdb.Lexing
import Rv32i.Nemu.Sdb.MakeToken
import Rv32i.Nemu.Sdb.Tokenise
import Rv32i.Nemu.Sdb.Reading
import Rv32i.Nemu.Sdb.Termination
import Rv32i.Nemu.Sdb.Answer
import Rv32i.Nemu.Sdb.Watchpoint
import Rv32i.Nemu.CpuExec
import Rv32i.Nemu.Sdb.Command
import Rv32i.Nemu.Ended
import Rv32i.Nemu.Sdb.CmdX
import Rv32i.Nemu.Frame
import Rv32i.Nemu.Device.Map
import Rv32i.Nemu.Device.Bounds
import Rv32i.Lib.Dispatch
import Rv32i.Nemu.Device.Mmio
import Rv32i.Nemu.Sdb.Pool
import Rv32i.Nemu.Sdb.Determined
import Rv32i.Nemu.Sdb.CheckWp
import Rv32i.Nemu.Sdb.CmdW
import Rv32i.Nemu.Watching
import Rv32i.Nemu.Stepping
import Rv32i.Chisel.Unsupported
import Rv32i.Lib.Line
import Rv32i.Lib.Bytes
import Rv32i.Lib.ByteShift
import Rv32i.Lib.Chunks
import Rv32i.Isa.Assemble
import Rv32i.Minirv.Base
import Rv32i.Minirv.Stack
import Rv32i.Minirv.Tables
import Rv32i.Minirv.Macros
import Rv32i.Minirv.Compare
import Rv32i.Minirv.Equal
import Rv32i.Minirv.Branch
import Rv32i.Minirv.Shift
import Rv32i.Minirv.Logic
import Rv32i.Minirv.Access
import Rv32i.Chisel.Modules
import Rv32i.Chisel.Top
import Rv32i.Chisel.Assembler
import Rv32i.Chisel.Decode
import Rv32i.Chisel.Fibonacci
import Rv32i.Am.NativeVme
import Rv32i.Am.NativeAudio
import Rv32i.Lib.RingBuffer
import Rv32i.Am.Keys
import Rv32i.Am.NativeInput
import Rv32i.Nemu.Device.Keyboard
import Rv32i.Nemu.Device.Sdcard
import Rv32i.Nemu.X86
import Rv32i.Lib.Radix
import Rv32i.Am.QemuVme
import Rv32i.Am.QemuRun
import Rv32i.Am.QemuWalk
import Rv32i.Rtl.NextPc
import Rv32i.Nemu.Sdb.Matching
import Rv32i.Nemu.Sdb.Item
import Rv32i.Nemu.Sdb.Node
import Rv32i.Nemu.Sdb.Recursion
import Rv32i.Lib.Halves
import Rv32i.Lib.CountZeros
import Rv32i.Klib.Udivmod
import Rv32i.Klib.Signed
import Rv32i.Klib.CountZeros
import Rv32i.Isa.Machine
import Rv32i.Isa.Asm
import Rv32i.Am.LibgccDiv
import Rv32i.Am.LibgccMul
import Rv32i.Nemu.Following
import Rv32i.QemuDiff.Host
import Rv32i.Npc.Gcd
import Rv32i.Microbench.Bf
import Rv32i.Kernels.ThreadOs
import Rv32i.Isa.Privileged
import Rv32i.Am.Trap
