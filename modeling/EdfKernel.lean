import EdfKernel.Library.BinaryHeap
import EdfKernel.Library.DemandBound
import EdfKernel.Library.Run
import EdfKernel.Library.Buddies
import EdfKernel.Library.LinkedList
import EdfKernel.Library.Rings
import EdfKernel.Library.DeltaList
import EdfKernel.Library.RingBuffer
import EdfKernel.Kernel.State
import EdfKernel.Sched.Heap
import EdfKernel.Sched.MyClass
import EdfKernel.Sched.Core
import EdfKernel.Sched.RunQueue
import EdfKernel.Sched.Timers
import EdfKernel.Process.Relations
import EdfKernel.Process.Lifecycle
import EdfKernel.Process.Frames
import EdfKernel.Sched.Schedulability
import EdfKernel.Process.Step
import EdfKernel.Process.Transition
import EdfKernel.Process.Pids
import EdfKernel.Process.Family
import EdfKernel.Process.Wakeups
import EdfKernel.Process.Places
import EdfKernel.Process.Links
import EdfKernel.Process.Table
import EdfKernel.Process.Exit
import EdfKernel.Process.Sleeps
import EdfKernel.Process.Invariant
import EdfKernel.Process.SleepSteps
import EdfKernel.Process.WaitScan
import EdfKernel.Process.TableSteps
import EdfKernel.Process.Reachable
import EdfKernel.Process.SleepProtocol
import EdfKernel.Process.ChildExit
import EdfKernel.Process.IdleFallback
import EdfKernel.Process.Wakes
import EdfKernel.Process.Ticks
import EdfKernel.Process.TickReturns
import EdfKernel.Process.QueueOrder
import EdfKernel.Process.Deadlines
import EdfKernel.Process.DeadlineClock
import EdfKernel.Process.CounterRanges
import EdfKernel.Process.DeadlinePanics
import EdfKernel.Process.Precedence
import EdfKernel.Process.Capacity
import EdfKernel.Process.Crowd
import EdfKernel.Process.ExitStatus
import EdfKernel.Process.Syscalls
import EdfKernel.Library.Intervals
import EdfKernel.Mm.Layout
import EdfKernel.Mm.Pages
import EdfKernel.Mm.Pmm
import EdfKernel.Mm.Shmem
import EdfKernel.Mm.RbTree
import EdfKernel.Mm.RbBalance
import EdfKernel.Mm.RbCode
import EdfKernel.Mm.RbLinks
import EdfKernel.Mm.RbInsert
import EdfKernel.Mm.RbRemove
import EdfKernel.Mm.RbLookup
import EdfKernel.Mm.RbRuns
import EdfKernel.Mm.Vmm
import EdfKernel.Mm.VmaSet
import EdfKernel.Mm.Fault
import EdfKernel.Mm.Evict
import EdfKernel.Mm.Machine
import EdfKernel.Mm.UserAccess
import EdfKernel.Mm.VmaLookup
import EdfKernel.Mm.Tables
import EdfKernel.Mm.FaultOutcome
import EdfKernel.Mm.AreaEdits
import EdfKernel.Mm.Unmap
import EdfKernel.Mm.Lengths
import EdfKernel.Mm.Brk
import EdfKernel.Mm.Buddy
import EdfKernel.Mm.BuddyBlocks
import EdfKernel.Mm.BuddyFree
import EdfKernel.Mm.BuddyAlloc
import EdfKernel.Mm.BuddyRuns
import EdfKernel.Mm.BuddyAccounting
import EdfKernel.Mm.BuddyCanonical
import EdfKernel.Library.CyclicList
import EdfKernel.User.Malloc
import EdfKernel.User.HeapInvariant
import EdfKernel.User.HeapGrowth
import EdfKernel.User.MallocLoop
import EdfKernel.User.MallocRuns
import EdfKernel.Process.Departures
import EdfKernel.Process.WaitCalls
import EdfKernel.Process.WaitReturns
import EdfKernel.Process.Killed
import EdfKernel.Process.GroupExit
import EdfKernel.Sched.HeapRuns
import EdfKernel.Process.PidHistory
import EdfKernel.Debug.StabSearch
import EdfKernel.Mm.UnmappedArea
import EdfKernel.Mm.SwapSlots
import EdfKernel.Mm.LoadIcode
import EdfKernel.Mm.NewAreas
import EdfKernel.Mm.LoadPages
import EdfKernel.Mm.LoadUnwind
import EdfKernel.Mm.LoadSegments
import EdfKernel.Mm.LoadSafety
import EdfKernel.Mm.LoadFaithful
import EdfKernel.Mm.NewFrames
import EdfKernel.Library.Rounds
import EdfKernel.User.MallocSizes
import EdfKernel.User.RequestRuns
import EdfKernel.Sched.MlfqRuns
import EdfKernel.Driver.Console
import EdfKernel.Debug.Monitor
import EdfKernel.Text.PrintParse
import EdfKernel.Mm.PageInit
import EdfKernel.Mm.RangeWalks
import EdfKernel.Mm.AreaRuns
import EdfKernel.Mm.SharedRuns
import EdfKernel.Mm.SlabRuns
import EdfKernel.Mm.RunBalance
import EdfKernel.Mm.Accounting
import EdfKernel.Mm.SwapIn
import EdfKernel.Mm.Teardown
