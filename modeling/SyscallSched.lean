import SyscallSched.Foundation.ArrayQueue
import SyscallSched.Foundation.Loop
import SyscallSched.Simulators.Mlfqs.Model
import SyscallSched.Simulators.Process
import SyscallSched.Simulators.Mlfqs.Fifo
import SyscallSched.Simulators.Mlfqs.Invariant
import SyscallSched.Simulators.Mlfqs.Correctness
import SyscallSched.Simulators.Mlfqs.WorkConserving
import SyscallSched.Simulators.Mlfqs.ArrayBound
import SyscallSched.Simulators.Mlfq.Model
import SyscallSched.Foundation.Ring
import SyscallSched.Simulators.Mlfq.Invariant
import SyscallSched.Simulators.Mlfq.NoLoss
import SyscallSched.Simulators.Mlfq.WorkConserving
import SyscallSched.Simulators.Lottery.Invariant
import SyscallSched.Foundation.Makespan
import SyscallSched.Simulators.Lottery.Correctness
import SyscallSched.Simulators.Lottery.Makespan
import SyscallSched.Simulators.Annealing.Best
import SyscallSched.Foundation.Ownership
import SyscallSched.Foundation.Total
import SyscallSched.Xv6.Alloc
import SyscallSched.Xv6.Boot
import SyscallSched.Xv6.Child
import SyscallSched.Xv6.Safety
import SyscallSched.Foundation.Digits
import SyscallSched.Xv6.Family.Cycle
import SyscallSched.Xv6.Fs.Admission
import SyscallSched.Xv6.Fs.Atomicity
import SyscallSched.Xv6.Lock.Balance
import SyscallSched.Xv6.Utilization
import SyscallSched.Foundation.Program
import SyscallSched.Xv6.Fs.BlockOwnership
import SyscallSched.Xv6.Mkfs.Append
import SyscallSched.Xv6.Mkfs.Counter
import SyscallSched.Xv6.Mkfs.WellFormed
import SyscallSched.Simulators.Annealing.Cooling
import SyscallSched.Simulators.Mlfq.Turns
import SyscallSched.Simulators.Mlfqs.Bypass
import SyscallSched.Xv6.AddressSpace
import SyscallSched.Xv6.Pipes.Fifo
import SyscallSched.Xv6.Pipes.Wakeup
import SyscallSched.Xv6.Files.Closed
import SyscallSched.Xv6.Files.Effects
import SyscallSched.Xv6.Files.OpenFiles
import SyscallSched.Foundation.LinkedRing
import SyscallSched.Shell.Commands
import SyscallSched.Umalloc.Free
import SyscallSched.Umalloc.Heap
import SyscallSched.Xv6.Fs.Content
import SyscallSched.Xv6.Fs.Directory
import SyscallSched.Xv6.Mkfs.Contents
import SyscallSched.Xv6.Mkfs.Kernel
import SyscallSched.Xv6.Fs.Coherence
import SyscallSched.Xv6.Fs.CoherentRuns
import SyscallSched.Simulators.Annealing.Idle
import SyscallSched.Simulators.Lottery.Model
import SyscallSched.Simulators.Mlfq.BubbleSort
import SyscallSched.Simulators.Mlfqs.FirstTurn
import SyscallSched.Simulators.Mlfqs.ShortestFirst
import SyscallSched.Xv6.Bio.Model
import SyscallSched.Xv6.Bio.Structure
import SyscallSched.Xv6.Console.Discipline
import SyscallSched.Xv6.Virtio.Chains
import SyscallSched.Xv6.Virtio.Protocol
import SyscallSched.Xv6.Virtio.Requests
import SyscallSched.Xv6.Virtio.Soundness
import SyscallSched.Foundation.NameTree
import SyscallSched.Xv6.Links.Counts
import SyscallSched.Xv6.Links.Files
import SyscallSched.Xv6.Links.Names
import SyscallSched.Xv6.Links.Runs
import SyscallSched.Simulators.Mlfq.Response
import SyscallSched.Simulators.Mlfqs.Requeue
import SyscallSched.Simulators.Mlfqs.Response
import SyscallSched.Simulators.Response
import SyscallSched.Xv6.Family.Priority
import SyscallSched.Xv6.ExecReport
import SyscallSched.Xv6.Files.ForkCopy
import SyscallSched.Xv6.GrowReport
import SyscallSched.Xv6.Fs.Footprint
import SyscallSched.Foundation.SlotMap
import SyscallSched.Xv6.Fs.DirMap
import SyscallSched.Foundation.Components
import SyscallSched.Foundation.Continuation
import SyscallSched.Grep.Filter
import SyscallSched.Xv6.Fs.Itable
import SyscallSched.Xv6.Fs.Resolve
import SyscallSched.Xv6.Pipes.Loss
import SyscallSched.Xv6.UserCopy
import SyscallSched.Xv6.Printf
import SyscallSched.Shell.Nulterminate
import SyscallSched.Simulators.Mlfqs.Membership
import SyscallSched.Umalloc.Request
import SyscallSched.Xv6.PageMap
import SyscallSched.Xv6.PageTable
import SyscallSched.Foundation.Terminated
import SyscallSched.Xv6.UserString
import SyscallSched.Foundation.Routine
import SyscallSched.Xv6.Smp.Core
import SyscallSched.Xv6.Smp.Kernel
import SyscallSched.Xv6.Smp.Run
import SyscallSched.Xv6.Smp.Safety
