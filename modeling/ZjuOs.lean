import ZjuOs.BuddyTree
import ZjuOs.Rounding
import ZjuOs.Defs
import ZjuOs.Buddy
import ZjuOs.BuddyTables
import ZjuOs.BuddyOps
import ZjuOs.AllocatorRuns
import ZjuOs.Memory
import ZjuOs.Exec
import ZjuOs.Radix
import ZjuOs.Sharing
import ZjuOs.Machine
import ZjuOs.Vm
import ZjuOs.Proc
import ZjuOs.Trap
import ZjuOs.Syscall
import ZjuOs.Schedule
import ZjuOs.TaskTable
import ZjuOs.Epochs
import ZjuOs.Access
import ZjuOs.Pages
import ZjuOs.BlockRefs
import ZjuOs.Pte
import ZjuOs.Trace
import ZjuOs.PageTable
import ZjuOs.Paging
import ZjuOs.PagingSteps
import ZjuOs.Copies
import ZjuOs.Areas
import ZjuOs.Faults
import ZjuOs.Shares
import ZjuOs.Loops
import ZjuOs.Spawn
import ZjuOs.CowFork
import ZjuOs.UserMap
import ZjuOs.Mmaps
import ZjuOs.Carried
import ZjuOs.Boot
import ZjuOs.Elf
import ZjuOs.TaskInit
import ZjuOs.Trees
import ZjuOs.SetupVm
import ZjuOs.Runs
import ZjuOs.Progress
import ZjuOs.Board
import ZjuOs.AllocatorLaws
import ZjuOs.Accounting
import ZjuOs.Tlb
import ZjuOs.KernelHalf
import ZjuOs.Leaks
import ZjuOs.DirectMap
import ZjuOs.Retries
import ZjuOs.FileCopies
import ZjuOs.Contents
import ZjuOs.Shortage
import ZjuOs.Console
import ZjuOs.Reading
import ZjuOs.IsoC
import ZjuOs.ForkList
import ZjuOs.Leakage
import ZjuOs.Grants
import ZjuOs.PrivateMemory
import ZjuOs.Isolation
import ZjuOs.Rv64
import ZjuOs.Entry
import ZjuOs.TrapFrames
import ZjuOs.Switches
import ZjuOs.Protection
import ZjuOs.ForkReturns
import ZjuOs.FirstEntry
import ZjuOs.Fairness
import ZjuOs.EarlyMap
import ZjuOs.EagerFork
import ZjuOs.Timer
import ZjuOs.TrapHandler
import ZjuOs.Scheduling
