import LispMachine.HeapRuns
import LispMachine.FifoInv
import LispMachine.MachineStep
import LispMachine.AsmNames
import LispMachine.ReaderRound
import LispMachine.Namespace
import LispMachine.Returns
import LispMachine.Scope
import LispMachine.EvalRun
import LispMachine.NumObjBits
import LispMachine.NumObjRead
import LispMachine.AsmHeapInv
import LispMachine.CompExpr
import LispMachine.InitSafe
import LispMachine.FreeGuard
import LispMachine.Intact
import LispMachine.Restore
import LispMachine.Quoting
import LispMachine.Queue
import LispMachine.CompileNums
import LispMachine.CompileNames
import LispMachine.CompileJumps
import LispMachine.BalanceCheck
import LispMachine.Bytes
import LispMachine.KernelTree
import LispMachine.KernelFormat
import LispMachine.MutateRuns
import LispMachine.MutateTrees
import LispMachine.Levels
