import Xv6.Lib.Crash
import Xv6.Lib.CInt
import Xv6.Lib.Act
import Xv6.Lib.Twin
import Xv6.Lib.Sum
import Xv6.Lib.Trans
import Xv6.Lib.Path
import Xv6.Lib.Tiling
import Xv6.Params
import Xv6.Memmove
import Xv6.Log.Model
import Xv6.Log.CrashAtomic
import Xv6.Log.Group
import Xv6.Log.GroupCommit
import Xv6.Vm.PageTable
import Xv6.Vm.Model
import Xv6.Vm.Pages
import Xv6.Vm.Words
import Xv6.Vm.Walk
import Xv6.Vm.Unmap
import Xv6.Vm.WordTree
import Xv6.Vm.WordMap
import Xv6.Vm.Grow
import Xv6.Vm.Cost
import Xv6.Vm.Fill
import Xv6.Vm.Resize
import Xv6.Vm.Free
import Xv6.Vm.Balance
import Xv6.Vm.Masked
import Xv6.Vm.CopyExact
import Xv6.Vm.CopyStr
import Xv6.Vm.Copy
import Xv6.Vm.CopyTable
import Xv6.File.Model
import Xv6.File.Spec
import Xv6.File.Content
import Xv6.File.FailedWrite
import Xv6.File.ReadRange
import Xv6.File.Sharing
import Xv6.File.Refs
import Xv6.File.Pipes
import Xv6.Proc.Model
import Xv6.Proc.Exec
import Xv6.Proc.Tables
import Xv6.Proc.Syscall
import Xv6.Proc.Space
import Xv6.Proc.Refs
import Xv6.Proc.RefCalls
import Xv6.Proc.VmaTable
import Xv6.Proc.ExecMappings
import Xv6.Proc.Munmap
import Xv6.Proc.KmemOk
import Xv6.Proc.PageFault
import Xv6.Proc.Access
import Xv6.Proc.Fork
import Xv6.Proc.ReadOnly
import Xv6.Proc.Sbrk
import Xv6.Proc.Grants
import Xv6.Proc.Agree
import Xv6.Proc.FaultAddress
import Xv6.Proc.Mmap
import Xv6.Proc.Ledger
import Xv6.Proc.LedgerCalls
import Xv6.Proc.LedgerMake
import Xv6.Proc.LedgerRun
import Xv6.Proc.Ownership
import Xv6.Proc.RefCounts
import Xv6.Proc.Masked
import Xv6.Proc.PrivatePages
import Xv6.Proc.Teardown
import Xv6.Sched.Model
import Xv6.Sched.Tree
import Xv6.Sched.Kill
import Xv6.Sched.Waiting
import Xv6.Sched.Cpu
import Xv6.Sched.Switch
import Xv6.Sched.OneCpu
import Xv6.Pipe.Model
import Xv6.Pipe.Fifo
import Xv6.Pipe.Read
import Xv6.Pipe.Wakeup
import Xv6.Virtio.Model
import Xv6.Virtio.Chains
import Xv6.Virtio.Requests
import Xv6.Virtio.Invariant
import Xv6.Virtio.Steps
import Xv6.Virtio.Completion
import Xv6.Sh.Grammar
import Xv6.Sh.Parser
import Xv6.Sh.Lexing
import Xv6.Sh.Loops
import Xv6.Sh.Parsing
import Xv6.Sh.Terminate
import Xv6.Sh.Run
import Xv6.Sh.Wiring
import Xv6.Sh.Pool
import Xv6.Sh.Redirs
import Xv6.Sh.Refs
import Xv6.Sh.Ledger
import Xv6.Sh.Pipeline
import Xv6.Console.Model
import Xv6.Console.Ring
import Xv6.Console.Discipline
import Xv6.Sleep.Model
import Xv6.Sleep.Wakeup
import Xv6.Sleep.Lock
import Xv6.Log.Waiting
import Xv6.Intr.Model
import Xv6.Intr.Follows
import Xv6.Umalloc.Model
import Xv6.Umalloc.FreeList
import Xv6.Umalloc.Alloc
import Xv6.Umalloc.Asked
import Xv6.Grep.Match
import Xv6.Grep.Lines
import Xv6.Namex
import Xv6.Sched.Ancestors
