import EdfKernel.Process.Lifecycle

/-!
# Steps of the kernel

One step is what the current process executes between two places where it can
be descheduled or interrupted, or one timer interrupt.  All gates of the `idt`
are trap gates, so a timer interrupt can arrive at every step; taken in the
kernel it only runs `run_timer_list`.

The bodies of `init_main` and `kswapd_main` are read loosely: each may make any
of its calls in any order, so the runs here include those of the code.
-/

namespace EdfKernel

open Library

/-- The system calls that touch processes; `memory` stands for the others. -/
inductive Syscall
  | fork
  | forkRT (ct pt : Int)
  | clone (flags : UInt32)
  | exit (errorCode : Int)
  | exitThread (errorCode : Int)
  | wait (pid : Int)
  | exec
  | sleep (time : Nat)
  | kill (pid : Int)
  | yield
  | memory
  deriving DecidableEq, Repr

/-- The calls made by the bodies of the kernel threads. -/
inductive KCall
  | kernelThread (fn : KThread)
  | wait
  | schedule
  | wakeKswapd
  | wakeupAll
  | sleep
  | execve
  deriving DecidableEq, Repr

/-- What happens next on the processor. -/
inductive Event
  /-- the timer interrupt -/
  | tick
  /-- the current process makes a system call in user mode -/
  | syscall (call : Syscall)
  /-- the current process takes a page fault in user mode -/
  | pgfault
  /-- the current process takes another exception in user mode -/
  | fault
  /-- the current kernel thread makes a call -/
  | kcall (call : KCall)
  /-- `alloc_pages` finds no page -/
  | noPage
  /-- `lock` finds the lock taken -/
  | lockBusy
  /-- the current kernel function fails with an error code -/
  | fail (errorCode : Int)
  /-- the current kernel code goes on; `address` is what `kmalloc` returns -/
  | go (address : Nat)
  deriving DecidableEq, Repr

/-- The place a kernel function returns to. -/
def Caller.pc : Caller → Pc
  | .trap => .tail
  | .kernelExecve => .user
  | .initKswapd => .initKswapd
  | .thread fn => .thread fn

/-- The functions that take a lock at this place. -/
def Work.locks : Work → Bool
  | .forkChild .. => true
  | .execName _ => true
  | .pgfault => true
  | .memory => true
  | _ => false

namespace Kernel

/-- The place where the current process continues. -/
def pc (k : Kernel) : Pc :=
  (k.procs k.current).kstack.pc

/-- The current process goes on at `pc`. -/
def goto (k : Kernel) (pc : Pc) : Kernel :=
  k.modify k.current fun s => { s with kstack := { s.kstack with pc := pc } }

/-- The current kernel function returns `ret` to its caller. -/
def returnTo (k : Kernel) (caller : Caller) (ret : Int) : Kernel :=
  k.modify k.current fun s => { s with kstack := { s.kstack with pc := caller.pc, ret := ret } }

/-- The current process calls `schedule` and will go on at `pc`. -/
def scheduleTo (k : Kernel) (pc : Pc) : Except Stop Kernel :=
  (k.goto pc).schedule

/-- `do_exit_thread`, up to `__do_exit`. -/
def exitThread (k : Kernel) (errorCode : Int) : Kernel :=
  (k.modify k.current fun s => { s with exitCode := errorCode }).goto .exit

/-- `do_exit`, up to `__do_exit`. -/
def doExit (k : Kernel) (errorCode : Int) : Except Stop Kernel := do
  let k ← k.exitGroup errorCode
  return k.exitThread errorCode

/-- `may_killed` followed by the code at `pc`. -/
def mayKilled (k : Kernel) (pc : Pc) : Kernel :=
  if (k.procs k.current).flags &&& pfExiting ≠ 0 then k.goto .exit else k.goto pc

/-- `do_fork`, `do_forkRT` and `kernel_thread` up to `alloc_proc`. -/
def doFork (k : Kernel) (cloneFlags : UInt32) (kind : ForkKind) (caller : Caller) : Kernel :=
  if maxProcess ≤ k.nrProcess then k.returnTo caller (-eNoFreeProc)
  else k.goto (.work (.fork cloneFlags kind caller))

/-- `do_wait` from its label `repeat` on. -/
def waitRepeat (k : Kernel) (pid : Int) (caller : Caller) : Except Stop Kernel :=
  match k.waitScan pid with
  | .found proc => do
      let k ← k.reap proc
      match caller with
      | .trap => return k.goto (.work .memory)
      | _ => return k.returnTo caller 0
  | .haskid =>
      let k := k.modify k.current fun s => { s with state := .sleeping }
      .ok (k.goto (.waitState pid caller))
  | .nokid => .ok (k.returnTo caller (-eBadProc))

/-- `do_sleep` up to its call of `schedule`. -/
def doSleep (k : Kernel) (time : Nat) (caller : Caller) : Except Stop Kernel :=
  if time = 0 then .ok (k.returnTo caller 0)
  else do
    let k ← k.sleepMark time
    return k.goto (.sleepMark caller)

/-- `try_free_pages` up to its call of `schedule`; without a swap daemon the
allocation fails and the caller tries no further. -/
def tryFreePages (k : Kernel) (w : Work) : Except Stop Kernel :=
  match k.kswapd with
  | none => .error .disabled
  | some kswapd => do
      let k ← k.freePagesMark kswapd
      return k.goto (.freeMark w)

/-- The timer interrupt; in user mode `trap` goes on to its end. -/
def tick (wrap : Int → Int) (k : Kernel) : Except Stop Kernel :=
  match k.pc with
  | .user => (k.goto .tail).runTimerList wrap
  | _ => k.runTimerList wrap

/-- `syscall` in user mode. -/
def syscall (wrap : Int → Int) (k : Kernel) : Syscall → Except Stop Kernel
  | .fork => .ok (k.doFork 0 .user .trap)
  | .forkRT ct pt => .ok (k.doFork 0 (.realTime (wrap ct) (wrap pt)) .trap)
  | .clone flags => .ok (k.doFork flags .user .trap)
  | .exit errorCode => k.doExit errorCode
  | .exitThread errorCode => .ok (k.exitThread errorCode)
  | .wait pid => .ok (k.goto (.wait pid .trap))
  | .exec => .ok (k.goto (.work (.execName .trap)))
  | .sleep time => k.doSleep time .trap
  | .kill pid => do
      let (ret, k) ← k.doKill pid (-eKilled)
      return k.returnTo .trap ret
  | .yield =>
      .ok ((k.modify k.current fun s => { s with needResched := true }).returnTo .trap 0)
  | .memory => .ok (k.goto (.work .memory))

/-- `init_main` after the creation of `kswapd_main`. -/
def setKswapd (k : Kernel) : Except Stop Kernel :=
  let pid := (k.procs k.current).kstack.ret
  if pid ≤ 0 then .error (.panic .kswapdInit)
  else .ok ({ k with kswapd := k.findProc pid }.goto (.thread .initMain))

/-- A call made by a kernel thread body. -/
def kcall (k : Kernel) : KThread → KCall → Except Stop Kernel
  | .initMain, .kernelThread .kswapdMain =>
      if k.kswapd = none then .ok (k.doFork cloneVm (.kernel .kswapdMain) .initKswapd)
      else .error .disabled
  | .initMain, .kernelThread .userMain =>
      .ok (k.doFork cloneVm (.kernel .userMain) (.thread .initMain))
  | .initMain, .wait => .ok (k.goto (.wait 0 (.thread .initMain)))
  | .initMain, .schedule => k.scheduleTo (.threadSched .initMain)
  | .initMain, .wakeKswapd =>
      match k.kswapd with
      | some kswapd =>
          if (k.procs kswapd).waitState = wtTimer then k.wakeupProc kswapd else .ok k
      | none => .error .disabled
  | .kswapdMain, .wakeupAll => k.kswapdWakeupAll
  | .kswapdMain, .sleep => k.doSleep 1000 (.thread .kswapdMain)
  | .userMain, .execve => .ok (k.goto (.work (.execName .kernelExecve)))
  | _, _ => .error .disabled

/-- The current process continues a function that has the memory and the locks
it asked for. -/
def workDone (k : Kernel) (address : Nat) : Work → Except Stop Kernel
  | .fork flags kind caller => do
      let k ← k.forkAlloc kind address
      return k.goto (.work (.forkChild flags address caller))
  | .forkChild flags child caller => do
      let k ← k.forkLink flags child address
      return k.goto (.forkWake child caller)
  | .execName caller => .ok ((k.dropMm k.current).goto (.work (.execLoad caller)))
  | .execLoad caller => do
      let k ← k.execFinish address
      return k.returnTo caller 0
  | .pgfault => .ok (k.goto .tail)
  | .memory => .ok (k.returnTo .trap 0)

/-- The current process continues a function that has failed. -/
def workFailed (k : Kernel) (errorCode : Int) : Work → Except Stop Kernel
  | .fork _ _ caller => .ok (k.returnTo caller (-eNoMem))
  | .forkChild _ child caller => .ok ((k.freeProc child).returnTo caller (-eNoMem))
  | .execName .trap => .ok (k.returnTo .trap (-eInval))
  | .execName _ => .error (.panic .execFailed)
  | .execLoad _ => k.doExit errorCode
  | .pgfault => k.doExit (-eKilled)
  | .memory => .ok (k.returnTo .trap errorCode)

/-- The current process executes the kernel code it is at. -/
def go (k : Kernel) (address : Nat) : Except Stop Kernel :=
  match k.pc with
  | .cpuIdle =>
      if (k.procs k.current).needResched then k.scheduleTo .idleSched else .ok k
  | .idleSched => .ok (k.goto .cpuIdle)
  | .threadSched fn => .ok (k.goto (.thread fn))
  | .initKswapd => k.setKswapd
  | .forkret none => .ok (k.goto .user)
  | .forkret (some fn) => .ok (k.goto (.thread fn))
  | .tail => .ok (k.mayKilled .tailResched)
  | .tailResched =>
      if (k.procs k.current).needResched then k.scheduleTo .tailSched else .ok (k.goto .user)
  | .tailSched => .ok (k.goto .user)
  | .work w => k.workDone address w
  | .lockSched w => .ok (k.goto (.work w))
  | .freeMark w => k.scheduleTo (.freeSched w)
  | .freeSched w => do
      let k ← k.freePagesPost
      return k.goto (.work w)
  | .forkWake child caller => do
      let k ← k.wakeupProc child
      return k.returnTo caller (k.procs child).pid
  | .wait pid caller => k.waitRepeat pid caller
  | .waitState pid caller =>
      .ok ((k.modify k.current fun s => { s with waitState := wtChild }).goto
        (.waitMark pid caller))
  | .waitMark pid caller => k.scheduleTo (.waitSched pid caller)
  | .waitSched pid caller => .ok (k.mayKilled (.wait pid caller))
  | .sleepMark caller => k.scheduleTo (.sleepSched caller)
  | .sleepSched caller => .ok ((k.delTimer k.current).returnTo caller 0)
  | .exit => do
      let k ← k.exitProc
      return k.goto .exitSched
  | .exitSched => k.scheduleTo .dead
  | .dead => .error (.panic .exitReturned)
  | .user => .error .disabled
  | .thread _ => .error .disabled

/-- One step of the kernel. -/
def step (wrap : Int → Int) (k : Kernel) : Event → Except Stop Kernel
  | .tick => k.tick wrap
  | .syscall call =>
      match k.pc with
      | .user => k.syscall wrap call
      | _ => .error .disabled
  | .pgfault =>
      match k.pc with
      | .user => .ok (k.goto (.work .pgfault))
      | _ => .error .disabled
  | .fault =>
      match k.pc with
      | .user => k.doExit (-eKilled)
      | _ => .error .disabled
  | .kcall call =>
      match k.pc with
      | .thread fn => k.kcall fn call
      | _ => .error .disabled
  | .noPage =>
      match k.pc with
      | .work w => k.tryFreePages w
      | _ => .error .disabled
  | .lockBusy =>
      match k.pc with
      | .work w => if w.locks then k.scheduleTo (.lockSched w) else .error .disabled
      | _ => .error .disabled
  | .fail errorCode =>
      match k.pc with
      | .work w => k.workFailed errorCode w
      | _ => .error .disabled
  | .go address => k.go address

/-! ## Boot -/

/-- The descriptor of the idle process as `proc_init` leaves it. -/
def bootIdle (s : ProcStruct) : ProcStruct :=
  { s with
    state := .runnable
    pid := 0
    runs := 0
    kstack := ⟨.cpuIdle, 1, 0⟩
    needResched := true
    parent := none
    mm := none
    flags := 0
    waitState := 0
    cptr := some 1
    yptr := none
    optr := none
    rq := none
    timeSlice := 0 }

/-- The descriptor of the init process as `proc_init` leaves it. -/
def bootInit (s : ProcStruct) : ProcStruct :=
  { s with
    state := .runnable
    pid := 1
    runs := 0
    kstack := ⟨.forkret (some .initMain), 0, 0⟩
    needResched := false
    parent := some 0
    mm := none
    flags := 0
    waitState := 0
    cptr := none
    yptr := none
    optr := none
    rq := some 0
    timeSlice := 0
    isRT := false
    pt := procMaxDeadline }

/-- The kernel when `cpu_idle` starts: the idle process at address 0, the init
process that `proc_init` has forked at address 1, and any content in the rest of
the memory. -/
def boot (memory : ProcPtr → ProcStruct) : Kernel where
  procs p := if p = 0 then bootIdle (memory 0) else if p = 1 then bootInit (memory 1) else memory p
  allocated p := decide (p = 0 ∨ p = 1)
  procList := [1]
  hashList chain := if chain = pidHashfn 1 then [1] else []
  threadGroups := []
  nrProcess := 2
  lastPid := 1
  nextSafe := maxPid
  current := 0
  idleproc := 0
  initproc := 1
  kswapd := none
  heap := ⟨[⟨1, procMaxDeadline⟩]⟩
  procNum := 1
  timerList := []
  kswapdDone := []
  mmCount _ := 0
  mmAlive _ := false

end Kernel

end EdfKernel
