import EdfKernel.Process.Relations

/-!
# Creating, ending and waiting for processes

The functions of `proc.c`, and `try_free_pages` and `kswapd_wakeup_all` of
`swap.c`, cut where a process can be descheduled: each definition is the code
between two such places.  Addresses that `kmalloc` returns are arguments; it
never returns an address that is in use.
-/

namespace EdfKernel

open Library

namespace Kernel

/-! ## do_fork -/

/-- `alloc_proc` with the memory `kmalloc` returned at `proc`.  The exit code and
the deadline counters keep what the memory held. -/
def allocProc (k : Kernel) (proc : ProcPtr) : Except Stop Kernel :=
  if k.allocated proc then .error .disabled
  else
    let k := { k with allocated := Function.update k.allocated proc true }
    .ok <| k.modify proc fun s =>
      { s with
        state := .uninit
        pid := -1
        runs := 0
        kstack := ⟨.forkret none, 0, 0⟩
        needResched := false
        parent := none
        mm := none
        flags := 0
        waitState := 0
        cptr := none
        yptr := none
        optr := none
        rq := none
        timeSlice := 0 }

/-- `kfree` of a descriptor. -/
def freeProc (k : Kernel) (proc : ProcPtr) : Kernel :=
  { k with allocated := Function.update k.allocated proc false }

/-- The deadline fields that `do_fork` and `do_forkRT` set. -/
def forkDeadline (kind : ForkKind) (s : ProcStruct) : ProcStruct :=
  match kind with
  | .realTime ct pt =>
      { s with isRT := true, computeTime := ct, periodTime := pt, ct := 0, pt := pt }
  | _ => { s with isRT := false, pt := procMaxDeadline }

/-- Where a new process starts: `forkret` goes to the trap frame of its parent,
or to the body of a kernel thread. -/
def forkEntry : ForkKind → Pc
  | .kernel fn => .forkret (some fn)
  | _ => .forkret none

/-- `do_fork` and `do_forkRT` from `alloc_proc` to the first allocation. -/
def forkAlloc (k : Kernel) (kind : ForkKind) (child : ProcPtr) : Except Stop Kernel := do
  let k ← k.allocProc child
  let k := k.modify child fun s => { s with parent := some k.current }
  if (k.procs k.current).waitState ≠ 0 then .error (.panic .forkWaitState)
  else if (k.procs k.current).timeSlice < 0 then .error (.panic .forkTimeSlice)
  else
    let half := (k.procs k.current).timeSlice / 2
    let k := k.modify child fun s => { s with timeSlice := half }
    let k := k.modify k.current fun s => { s with timeSlice := s.timeSlice - half }
    .ok <| k.modify child fun s =>
      { forkDeadline kind s with kstack := ⟨forkEntry kind, 0, 0⟩ }

/-- `copy_mm` when it succeeds; `mm` is the address of a new address space. -/
def copyMm (k : Kernel) (cloneFlags : UInt32) (child : ProcPtr) (mm : MmPtr) :
    Except Stop Kernel :=
  match (k.procs k.current).mm with
  | none => .ok k
  | some oldmm =>
      if cloneFlags &&& cloneVm ≠ 0 then
        let k := { k with mmCount := Function.update k.mmCount oldmm (k.mmCount oldmm + 1) }
        .ok (k.modify child fun s => { s with mm := some oldmm })
      else if k.mmAlive mm then .error .disabled
      else
        let k := { k with
          mmAlive := Function.update k.mmAlive mm true
          mmCount := Function.update k.mmCount mm (0 + 1) }
        .ok (k.modify child fun s => { s with mm := some mm })

/-- `do_fork` from `copy_mm` to the end of its section with interrupts disabled. -/
def forkLink (k : Kernel) (cloneFlags : UInt32) (child : ProcPtr) (mm : MmPtr) :
    Except Stop Kernel := do
  let k ← k.copyMm cloneFlags child mm
  let (pid, k) ← k.getPid
  let k := k.modify child fun s => { s with pid := pid }
  let k := k.hashProc child
  let k := k.setLinks child k.current
  return if cloneFlags &&& cloneThread ≠ 0 then k.joinThread k.current child else k

/-! ## __do_kill -/

/-- `__do_kill` with its return value. -/
def killProc (k : Kernel) (proc : ProcPtr) (errorCode : Int) : Except Stop (Int × Kernel) :=
  if (k.procs proc).flags &&& pfExiting = 0 then do
    let k := k.modify proc fun s =>
      { s with flags := s.flags ||| pfExiting, exitCode := errorCode }
    let k ←
      (if (k.procs proc).waitState &&& wtInterrupted ≠ 0 then k.wakeupProc proc else .ok k)
    return (0, k)
  else .ok (-eKilled, k)

/-- `do_kill` with its return value. -/
def doKill (k : Kernel) (pid : Int) (errorCode : Int) : Except Stop (Int × Kernel) :=
  match k.findProc pid with
  | some proc => k.killProc proc errorCode
  | none => .ok (-eInval, k)

/-- Kill the listed processes one after the other. -/
def killAll (errorCode : Int) : List ProcPtr → Kernel → Except Stop Kernel
  | [], k => .ok k
  | proc :: rest, k => do
      let (_, k) ← k.killProc proc errorCode
      killAll errorCode rest k

/-! ## do_exit -/

/-- The loop of `do_exit` over the other members of the ring. -/
def exitGroup (k : Kernel) (errorCode : Int) : Except Stop Kernel :=
  killAll errorCode (k.threadRing k.current).tail k

/-- A process gives up its address space, which is torn down with its last user. -/
def dropMm (k : Kernel) (proc : ProcPtr) : Kernel :=
  match (k.procs proc).mm with
  | none => k
  | some mm =>
      let count := k.mmCount mm - 1
      let k := { k with mmCount := Function.update k.mmCount mm count }
      let k := if count = 0 then
          { k with mmAlive := Function.update k.mmAlive mm false }
        else k
      k.modify proc fun s => { s with mm := none }

/-- The loop of `__do_exit` over the parent's ring. -/
def wakeWaiting : List ProcPtr → Kernel → Except Stop Kernel
  | [], k => .ok k
  | proc :: rest, k => do
      let k ← (if (k.procs proc).waitState = wtChild then k.wakeupProc proc else .ok k)
      wakeWaiting rest k

/-- The links of one round of the loop of `__do_exit` that moves the children of
`proc`: the first child goes to the front of the children of `parent`. -/
def adoptLinks (k : Kernel) (proc parent child : ProcPtr) : Kernel :=
  let k := k.modify proc fun s => { s with cptr := (k.procs child).optr }
  let k := k.modify child fun s => { s with yptr := none }
  let k := k.modify child fun s => { s with optr := (k.procs parent).cptr }
  let k := k.modifySome (k.procs child).optr fun s => { s with yptr := some child }
  let k := k.modify child fun s => { s with parent := some parent }
  k.modify parent fun s => { s with cptr := some child }

/-- One round of the loop of `__do_exit` that moves the children of `proc`. -/
def adoptFirst (k : Kernel) (proc parent child : ProcPtr) : Except Stop Kernel :=
  let k := k.adoptLinks proc parent child
  if (k.procs child).state = .zombie ∧ (k.procs parent).waitState = wtChild then
    k.wakeupProc parent
  else .ok k

/-- The loop of `__do_exit` that moves the children of `proc` to `parent`. -/
def adoptChildren : Nat → Kernel → ProcPtr → ProcPtr → Except Stop Kernel
  | fuel, k, proc, parent =>
      match (k.procs proc).cptr with
      | none => .ok k
      | some child =>
          match fuel with
          | 0 => .error (.spin .adoptChildren)
          | fuel + 1 => do
              let k ← k.adoptFirst proc parent child
              adoptChildren fuel k proc parent

/-- `__do_exit` up to its call of `schedule`. -/
def exitProc (k : Kernel) : Except Stop Kernel :=
  if k.current = k.idleproc then .error (.panic .idleExit)
  else if k.current = k.initproc then .error (.panic .initExit)
  else do
    let k := k.dropMm k.current
    let k := k.modify k.current fun s => { s with state := .zombie }
    let k ← (match (k.procs k.current).parent with
      | some parent => wakeWaiting (k.threadRing parent) k
      | none => .ok k)
    let next := k.nextThread k.current
    let parent := if next = k.current then k.initproc else next
    let k := k.deThread k.current
    adoptChildren k.procList.length k k.current parent

/-! ## do_wait -/

/-- What one scan of `do_wait` finds. -/
inductive WaitScan
  | found (proc : ProcPtr)
  | haskid
  | nokid
  deriving DecidableEq, Repr

/-- Scan the children of one process for a zombie. -/
def scanChildren (k : Kernel) : Nat → Option ProcPtr → WaitScan
  | _, none => .nokid
  | 0, some _ => .haskid
  | fuel + 1, some proc =>
      if (k.procs proc).state = .zombie then .found proc
      else
        match scanChildren k fuel (k.procs proc).optr with
        | .found zombie => .found zombie
        | _ => .haskid

/-- The scan of `do_wait` over the ring of the current process for any child. -/
def scanAny (k : Kernel) : List ProcPtr → WaitScan
  | [] => .nokid
  | cproc :: rest =>
      match k.scanChildren k.procList.length (k.procs cproc).cptr with
      | .found zombie => .found zombie
      | .haskid =>
          match scanAny k rest with
          | .found zombie => .found zombie
          | _ => .haskid
      | .nokid => scanAny k rest

/-- The scan of `do_wait` for the process `proc` that has the requested pid. -/
def scanOne (k : Kernel) (proc : ProcPtr) : List ProcPtr → WaitScan
  | [] => .nokid
  | cproc :: rest =>
      if (k.procs proc).parent = some cproc then
        if (k.procs proc).state = .zombie then .found proc else .haskid
      else scanOne k proc rest

/-- `do_wait` from its label `repeat` to the decision. -/
def waitScan (k : Kernel) (pid : Int) : WaitScan :=
  if pid ≠ 0 then
    match k.findProc pid with
    | some proc => k.scanOne proc (k.threadRing k.current)
    | none => .nokid
  else k.scanAny (k.threadRing k.current)

/-- `do_wait` from its label `found` to the release of the descriptor. -/
def reap (k : Kernel) (proc : ProcPtr) : Except Stop Kernel :=
  if proc = k.idleproc ∨ proc = k.initproc then .error (.panic .waitIdleOrInit)
  else .ok (((k.unhashProc proc).removeLinks proc).freeProc proc)

/-! ## do_execve -/

/-- `do_execve` after `load_icode` has succeeded with the address space `mm`. -/
def execFinish (k : Kernel) (mm : MmPtr) : Except Stop Kernel :=
  if k.mmAlive mm then .error .disabled
  else
    let k := { k with
      mmAlive := Function.update k.mmAlive mm true
      mmCount := Function.update k.mmCount mm (0 + 1) }
    let k := k.modify k.current fun s => { s with mm := some mm }
    let k := k.deThread k.current
    .ok <| k.modify k.current fun s =>
      { s with isRT := true, computeTime := 1, periodTime := 10, pt := 10, ct := 0 }

/-! ## do_sleep and try_free_pages -/

/-- `do_sleep` up to its call of `schedule`. -/
def sleepMark (k : Kernel) (time : Nat) : Except Stop Kernel :=
  let k := k.modify k.current fun s =>
    { s with state := .sleeping, waitState := wtTimer }
  k.addTimer k.current time

/-- `try_free_pages` up to its call of `schedule`, when it does not return at
once. -/
def freePagesMark (k : Kernel) (kswapd : ProcPtr) : Except Stop Kernel :=
  if k.current = kswapd then .error (.panic .freePagesByKswapd)
  else
    let k := k.modify k.current fun s =>
      { s with
        state := .sleeping
        waitState := wtKswapd
        kstack := { s.kstack with wakeupFlags := wtInterrupted } }
    let k := { k with kswapdDone := k.kswapdDone ++ [k.current] }
    if (k.procs kswapd).waitState = wtTimer then k.wakeupProc kswapd else .ok k

/-- The assertion of `try_free_pages` after its call of `schedule`. -/
def freePagesPost (k : Kernel) : Except Stop Kernel :=
  if k.current ∈ k.kswapdDone ∨ (k.procs k.current).kstack.wakeupFlags ≠ wtKswapd then
    .error (.panic .freePagesPost)
  else .ok k

/-- The loop of `wakeup_queue` on `kswapd_done`, which deletes every record. -/
def wakeupQueue : Nat → Kernel → Except Stop Kernel
  | 0, k => .ok k
  | fuel + 1, k =>
      match k.kswapdDone with
      | [] => .ok k
      | proc :: rest => do
          let k := { k with kswapdDone := rest }
          let k := k.modify proc fun s =>
            { s with kstack := { s.kstack with wakeupFlags := wtKswapd } }
          let k ← k.wakeupProc proc
          wakeupQueue fuel k

/-- `kswapd_wakeup_all`. -/
def kswapdWakeupAll (k : Kernel) : Except Stop Kernel :=
  wakeupQueue k.kswapdDone.length k

end Kernel

end EdfKernel
