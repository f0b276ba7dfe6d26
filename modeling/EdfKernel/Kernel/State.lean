import Mathlib.Algebra.Group.Nat.Defs
import Mathlib.Logic.Function.Basic

/-!
# Process descriptors and the kernel state

The data of `proc.h`, `heap.h` and `sched.h` that the scheduler and the process
functions read and write.  Descriptors are named by their addresses, and memory
keeps its last content when a descriptor is freed, so a field that no function
has set holds whatever was there before.

The intrusive `proc_list`, hash chains, thread-group rings, `timer_list` and
`kswapd_done` are lists of addresses in link order.  `cptr`, `optr` and `yptr`
stay pointers.  What a process has on its kernel stack while it is not in user
mode is the record `KStack`; the register context, page directory address and
name of a process are not read by any function modelled here.
-/

namespace EdfKernel

/-- Address of a `proc_struct`. -/
abbrev ProcPtr := Nat

/-- Address of an `mm_struct`. -/
abbrev MmPtr := Nat

/-- `enum proc_state`. -/
inductive ProcState
  | uninit
  | sleeping
  | runnable
  | zombie
  deriving DecidableEq, Repr

/-! ## Constants -/

def maxProcess : Int := 4096

def maxPid : Int := maxProcess * 2

def procMaxDeadline : Int := 7000

def maxHeapSize : Nat := 1024

def pfExiting : UInt32 := 0x00000001

def wtInterrupted : UInt32 := 0x80000000

def wtChild : UInt32 := 0x00000001 ||| wtInterrupted

def wtTimer : UInt32 := 0x00000002 ||| wtInterrupted

def wtKswapd : UInt32 := 0x00000003

def cloneVm : UInt32 := 0x00000100

def cloneThread : UInt32 := 0x00000200

def eBadProc : Int := 2

def eInval : Int := 3

def eNoMem : Int := 4

def eNoFreeProc : Int := 5

def eInvalElf : Int := 8

def eKilled : Int := 9

/-! ## Where a process is in the kernel -/

/-- The bodies of the kernel threads. -/
inductive KThread
  | initMain
  | kswapdMain
  | userMain
  deriving DecidableEq, Repr

/-- Where a kernel function returns to: the end of `trap` for a system call made
in user mode, the user mode set up by `kernel_execve`'s own system call, the
place in `init_main` that stores `kswapd`, or the body of a kernel thread. -/
inductive Caller
  | trap
  | kernelExecve
  | initKswapd
  | thread (fn : KThread)
  deriving DecidableEq, Repr

/-- What `do_fork`, `do_forkRT` or `kernel_thread` was asked to create. -/
inductive ForkKind
  | user
  | realTime (ct pt : Int)
  | kernel (fn : KThread)
  deriving DecidableEq, Repr

/-- A kernel function at a place where it asks for memory or for a lock. -/
inductive Work
  | fork (flags : UInt32) (kind : ForkKind) (caller : Caller)
  | forkChild (flags : UInt32) (child : ProcPtr) (caller : Caller)
  | execName (caller : Caller)
  | execLoad (caller : Caller)
  | pgfault
  | memory
  deriving DecidableEq, Repr

/-- The next code a process executes.  `mark` positions lie between marking the
process as sleeping and the call of `schedule`; `sched` positions are inside a
call of `schedule`. -/
inductive Pc
  | user
  | cpuIdle
  | idleSched
  | thread (fn : KThread)
  | threadSched (fn : KThread)
  | initKswapd
  | forkret (fn : Option KThread)
  | tail
  | tailResched
  | tailSched
  | work (w : Work)
  | lockSched (w : Work)
  | freeMark (w : Work)
  | freeSched (w : Work)
  | forkWake (child : ProcPtr) (caller : Caller)
  | wait (pid : Int) (caller : Caller)
  | waitState (pid : Int) (caller : Caller)
  | waitMark (pid : Int) (caller : Caller)
  | waitSched (pid : Int) (caller : Caller)
  | sleepMark (caller : Caller)
  | sleepSched (caller : Caller)
  | exit
  | exitSched
  | dead
  deriving DecidableEq, Repr

/-- What is on the kernel stack: the place to continue at, the value the last
kernel function returned, and the `wakeup_flags` of the `wait_t` that
`try_free_pages` keeps there. -/
structure KStack where
  pc : Pc
  ret : Int
  wakeupFlags : UInt32
  deriving DecidableEq, Repr

/-- `struct proc_struct`. -/
structure ProcStruct where
  state : ProcState
  pid : Int
  runs : Int
  kstack : KStack
  needResched : Bool
  parent : Option ProcPtr
  mm : Option MmPtr
  flags : UInt32
  exitCode : Int
  waitState : UInt32
  cptr : Option ProcPtr
  yptr : Option ProcPtr
  optr : Option ProcPtr
  rq : Option Nat
  timeSlice : Int
  isRT : Bool
  computeTime : Int
  periodTime : Int
  ct : Int
  pt : Int
  deriving DecidableEq, Repr

/-- `struct heap_entry`. -/
structure HeapEntry where
  proc : ProcPtr
  x : Int
  deriving DecidableEq, Repr

/-- `struct process_heap`; `size` is the length of `entry`. -/
structure ProcessHeap where
  entry : List HeapEntry
  deriving DecidableEq, Repr

/-- `timer_t`: `expires` counts from the timer before it in `timer_list`. -/
structure Timer where
  expires : Nat
  proc : ProcPtr
  deriving DecidableEq, Repr

/-- The process and scheduler variables of the kernel. -/
structure Kernel where
  procs : ProcPtr → ProcStruct
  /-- the descriptors `kmalloc` has handed out and `kfree` has not taken back -/
  allocated : ProcPtr → Bool
  procList : List ProcPtr
  hashList : Nat → List ProcPtr
  /-- the thread-group rings of more than one process, each from some member on -/
  threadGroups : List (List ProcPtr)
  nrProcess : Int
  lastPid : Int
  nextSafe : Int
  current : ProcPtr
  idleproc : ProcPtr
  initproc : ProcPtr
  kswapd : Option ProcPtr
  heap : ProcessHeap
  procNum : Int
  timerList : List Timer
  kswapdDone : List ProcPtr
  mmCount : MmPtr → Int
  /-- the address spaces that have not been torn down -/
  mmAlive : MmPtr → Bool

/-! ## How the kernel stops -/

/-- The places where the code panics. -/
inductive Panic
  | wakeupZombie
  | timerNotInterruptible
  | timerExpired
  | addTimerExpires
  | addTimerLinked
  | forkWaitState
  | forkTimeSlice
  | freePagesPost
  | freePagesByKswapd
  | dequeue
  | pickNextEmpty
  | currentMissed
  | queuedMissed
  | queuedNegative
  | idleExit
  | initExit
  | exitReturned
  | waitIdleOrInit
  | execFailed
  | kswapdInit
  deriving DecidableEq, Repr

/-- The loops that may not end. -/
inductive Spin
  | heapPush
  | heapGettop
  | getPid
  | adoptChildren
  deriving DecidableEq, Repr

/-- Why a step does not return: a panic, an endless loop with interrupts
disabled, or the event not being possible at this point of the code. -/
inductive Stop
  | panic (site : Panic)
  | spin (loop : Spin)
  | disabled
  deriving DecidableEq, Repr

namespace Kernel

/-- Write to the descriptor at one address. -/
def modify (k : Kernel) (p : ProcPtr) (change : ProcStruct → ProcStruct) : Kernel :=
  { k with procs := Function.update k.procs p (change (k.procs p)) }

section Modify

variable (k : Kernel) (p : ProcPtr) (change : ProcStruct → ProcStruct)

@[simp]
theorem modify_procs_self : (k.modify p change).procs p = change (k.procs p) :=
  Function.update_self ..

theorem modify_procs_of_ne {q : ProcPtr} (ne : q ≠ p) :
    (k.modify p change).procs q = k.procs q :=
  Function.update_of_ne ne ..

theorem modify_procs (q : ProcPtr) :
    (k.modify p change).procs q = if q = p then change (k.procs p) else k.procs q :=
  Function.update_apply ..

/-- A field that the change keeps is the same for every process. -/
theorem modify_field {α : Type*} (field : ProcStruct → α)
    (same : field (change (k.procs p)) = field (k.procs p)) (q : ProcPtr) :
    field ((k.modify p change).procs q) = field (k.procs q) := by
  by_cases own : q = p
  · subst q
    simpa using same
  · rw [modify_procs_of_ne _ _ _ own]

@[simp] theorem modify_allocated : (k.modify p change).allocated = k.allocated := rfl
@[simp] theorem modify_procList : (k.modify p change).procList = k.procList := rfl
@[simp] theorem modify_hashList : (k.modify p change).hashList = k.hashList := rfl
@[simp] theorem modify_threadGroups : (k.modify p change).threadGroups = k.threadGroups := rfl
@[simp] theorem modify_nrProcess : (k.modify p change).nrProcess = k.nrProcess := rfl
@[simp] theorem modify_lastPid : (k.modify p change).lastPid = k.lastPid := rfl
@[simp] theorem modify_nextSafe : (k.modify p change).nextSafe = k.nextSafe := rfl
@[simp] theorem modify_current : (k.modify p change).current = k.current := rfl
@[simp] theorem modify_idleproc : (k.modify p change).idleproc = k.idleproc := rfl
@[simp] theorem modify_initproc : (k.modify p change).initproc = k.initproc := rfl
@[simp] theorem modify_kswapd : (k.modify p change).kswapd = k.kswapd := rfl
@[simp] theorem modify_heap : (k.modify p change).heap = k.heap := rfl
@[simp] theorem modify_procNum : (k.modify p change).procNum = k.procNum := rfl
@[simp] theorem modify_timerList : (k.modify p change).timerList = k.timerList := rfl
@[simp] theorem modify_kswapdDone : (k.modify p change).kswapdDone = k.kswapdDone := rfl
@[simp] theorem modify_mmCount : (k.modify p change).mmCount = k.mmCount := rfl
@[simp] theorem modify_mmAlive : (k.modify p change).mmAlive = k.mmAlive := rfl

end Modify

/-- Write to the descriptor at an address that may be `NULL`. -/
def modifySome (k : Kernel) : Option ProcPtr → (ProcStruct → ProcStruct) → Kernel
  | some p, change => k.modify p change
  | none, _ => k

theorem modifySome_procs (k : Kernel) (o : Option ProcPtr) (change : ProcStruct → ProcStruct)
    (q : ProcPtr) :
    (k.modifySome o change).procs q = if o = some q then change (k.procs q) else k.procs q := by
  cases o with
  | none => rfl
  | some p =>
      rw [modifySome, modify_procs]
      by_cases own : q = p
      · subst q
        simp
      · simp [own, Ne.symm own]

/-- A field that a change keeps. -/
theorem field_modify {α : Type*} {k : Kernel} {p q : ProcPtr} {change : ProcStruct → ProcStruct}
    {value : α} (field : ProcStruct → α) (rest : field (k.procs q) = value)
    (same : field (change (k.procs p)) = field (k.procs p)) :
    field ((k.modify p change).procs q) = value :=
  (k.modify_field p change field same q).trans rest

theorem field_modifySome {α : Type*} {k : Kernel} {o : Option ProcPtr} {q : ProcPtr}
    {change : ProcStruct → ProcStruct} {value : α} (field : ProcStruct → α)
    (rest : field (k.procs q) = value)
    (same : ∀ s, field (change s) = field s) :
    field ((k.modifySome o change).procs q) = value := by
  rw [modifySome_procs]
  split
  · exact (same _).trans rest
  · exact rest

end Kernel

end EdfKernel
