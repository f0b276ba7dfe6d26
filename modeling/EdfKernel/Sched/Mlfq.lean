import EdfKernel.Kernel.State
import EdfKernel.Library.Run
import Mathlib.Algebra.Group.Int.Defs

/-!
# The multi-level feedback queue

`sched_MLFQ.c` on top of `sched_RR.c`, with `sched_init`, `wakeup_proc` and `schedule` of
`sched.c` under `MLFQ_sched_class`, and what `do_fork` does to time slices.  A run queue is
named by its index in `__rq`, and a `run_list` is the list of the processes on it in link
order.
-/

namespace EdfKernel

open Library

/-- `struct run_queue`. -/
structure LevelQueue where
  runList : List ProcPtr
  procNum : Int
  maxTimeSlice : Int
  linkPrev : Nat
  linkNext : Nat
  deriving DecidableEq, Repr

/-- The scheduler variables and the process descriptors. -/
structure Mlfq where
  queues : Nat → LevelQueue
  procs : ProcPtr → ProcStruct
  allocated : ProcPtr → Bool
  current : ProcPtr
  idleproc : ProcPtr

/-- Why a function of the scheduling class does not return, or an event is not possible. -/
inductive MlfqStop
  | alreadyLinked
  | notLinked
  | nullQueue
  | wakeupZombie
  | forkWaitState
  | forkTimeSlice
  | endless
  | disabled
  deriving DecidableEq, Repr

/-- The number of elements of `__rq`. -/
def nrQueues : Nat := 4

namespace Mlfq

/-! ## Writes -/

/-- Write to one run queue. -/
def setQueue (m : Mlfq) (rq : Nat) (change : LevelQueue → LevelQueue) : Mlfq :=
  { m with queues := Function.update m.queues rq (change (m.queues rq)) }

/-- Write to the descriptor at one address. -/
def modify (m : Mlfq) (proc : ProcPtr) (change : ProcStruct → ProcStruct) : Mlfq :=
  { m with procs := Function.update m.procs proc (change (m.procs proc)) }

/-- `!list_empty(&(proc->run_link))`. -/
def Linked (m : Mlfq) (proc : ProcPtr) : Prop :=
  ∃ rq < nrQueues, proc ∈ (m.queues rq).runList

instance decidableLinked (m : Mlfq) (proc : ProcPtr) : Decidable (m.Linked proc) :=
  inferInstanceAs (Decidable (∃ rq < nrQueues, _))

/-! ## sched_RR.c -/

def rrInit (m : Mlfq) (rq : Nat) : Mlfq :=
  m.setQueue rq fun queue => { queue with runList := [], procNum := 0 }

/-- The time slice that `RR_enqueue` leaves a process. -/
def rrSlice (timeSlice maxTimeSlice : Int) : Int :=
  if timeSlice = 0 ∨ maxTimeSlice < timeSlice then maxTimeSlice else timeSlice

def rrEnqueue (m : Mlfq) (rq : Nat) (proc : ProcPtr) : Except MlfqStop Mlfq :=
  if m.Linked proc then .error .alreadyLinked
  else
    let m := m.setQueue rq fun queue => { queue with runList := queue.runList ++ [proc] }
    let m := m.modify proc fun s =>
      { s with timeSlice := rrSlice s.timeSlice (m.queues rq).maxTimeSlice }
    let m := m.modify proc fun s => { s with rq := some rq }
    .ok (m.setQueue rq fun queue => { queue with procNum := queue.procNum + 1 })

/-- `list_del_init`: the process leaves the list that it is linked in. -/
def unlink (m : Mlfq) (proc : ProcPtr) : Mlfq :=
  { m with queues := fun rq =>
      { m.queues rq with runList := (m.queues rq).runList.erase proc } }

def rrDequeue (m : Mlfq) (rq : Nat) (proc : ProcPtr) : Except MlfqStop Mlfq :=
  if ¬m.Linked proc ∨ (m.procs proc).rq ≠ some rq then .error .notLinked
  else
    let m := m.unlink proc
    .ok (m.setQueue rq fun queue => { queue with procNum := queue.procNum - 1 })

def rrPickNext (m : Mlfq) (rq : Nat) : Option ProcPtr :=
  (m.queues rq).runList.head?

def rrProcTick (m : Mlfq) (proc : ProcPtr) : Mlfq :=
  let m :=
    if 0 < (m.procs proc).timeSlice then
      m.modify proc fun s => { s with timeSlice := s.timeSlice - 1 }
    else m
  if (m.procs proc).timeSlice = 0 then m.modify proc fun s => { s with needResched := true }
  else m

/-! ## sched_MLFQ.c -/

/-- The loop of `MLFQ_init`. -/
def mlfqInitLoop (list : Nat) : Nat → Nat → Mlfq → Except MlfqStop Mlfq
  | 0, _, _ => .error .endless
  | fuel + 1, le, m =>
      let m := m.rrInit le
      let le := (m.queues le).linkNext
      if le ≠ list then mlfqInitLoop list fuel le m else .ok m

def mlfqInit (m : Mlfq) (rq : Nat) : Except MlfqStop Mlfq :=
  mlfqInitLoop rq nrQueues rq m

/-- The queue that `MLFQ_enqueue` chooses. -/
def chooseQueue (m : Mlfq) (rq : Nat) (proc : ProcPtr) : Nat :=
  match (m.procs proc).rq with
  | none => rq
  | some own =>
      if (m.procs proc).timeSlice = 0 then
        let nrq := (m.queues own).linkNext
        if nrq = rq then own else nrq
      else rq

def mlfqEnqueue (m : Mlfq) (rq : Nat) (proc : ProcPtr) : Except MlfqStop Mlfq :=
  if m.Linked proc then .error .alreadyLinked else m.rrEnqueue (m.chooseQueue rq proc) proc

/-- `MLFQ_dequeue`, which does not read its run queue. -/
def mlfqDequeue (m : Mlfq) (proc : ProcPtr) : Except MlfqStop Mlfq :=
  if ¬m.Linked proc then .error .notLinked
  else
    match (m.procs proc).rq with
    | none => .error .nullQueue
    | some own => m.rrDequeue own proc

/-- The loop of `MLFQ_pick_next`. -/
def mlfqPickNextLoop (m : Mlfq) (list : Nat) : Nat → Nat → Except MlfqStop (Option ProcPtr)
  | 0, _ => .error .endless
  | fuel + 1, le =>
      match m.rrPickNext le with
      | some next => .ok (some next)
      | none =>
          let le := (m.queues le).linkNext
          if le ≠ list then m.mlfqPickNextLoop list fuel le else .ok none

def mlfqPickNext (m : Mlfq) (rq : Nat) : Except MlfqStop (Option ProcPtr) :=
  m.mlfqPickNextLoop rq nrQueues rq

/-- `MLFQ_proc_tick`, which does not read its run queue. -/
def mlfqProcTick (m : Mlfq) (proc : ProcPtr) : Mlfq :=
  m.rrProcTick proc

/-! ## sched.c -/

/-- `list_add_before` on the links of two run queues. -/
def linkBefore (m : Mlfq) (listelm elm : Nat) : Mlfq :=
  let prev := (m.queues listelm).linkPrev
  let m := m.setQueue listelm fun queue => { queue with linkPrev := elm }
  let m := m.setQueue prev fun queue => { queue with linkNext := elm }
  m.setQueue elm fun queue => { queue with linkPrev := prev, linkNext := listelm }

/-- A round of the loop of `sched_init`. -/
def initQueue (m : Mlfq) (i : Nat) : Mlfq :=
  let m := m.linkBefore 0 i
  m.setQueue i fun queue => { queue with maxTimeSlice := (m.queues 0).maxTimeSlice * 2 ^ i }

/-- `sched_init` with `MLFQ_sched_class`. -/
def schedInit (m : Mlfq) : Except MlfqStop Mlfq :=
  let m := m.setQueue 0 fun queue => { queue with linkPrev := 0, linkNext := 0, maxTimeSlice := 8 }
  ((List.range' 1 (nrQueues - 1)).foldl initQueue m).mlfqInit 0

def schedClassEnqueue (m : Mlfq) (proc : ProcPtr) : Except MlfqStop Mlfq :=
  if proc ≠ m.idleproc then m.mlfqEnqueue 0 proc else .ok m

def schedClassProcTick (m : Mlfq) (proc : ProcPtr) : Mlfq :=
  if proc ≠ m.idleproc then m.mlfqProcTick proc
  else m.modify proc fun s => { s with needResched := true }

/-- `wakeup_proc`; waking a runnable process is only a warning. -/
def wakeupProc (m : Mlfq) (proc : ProcPtr) : Except MlfqStop Mlfq :=
  if (m.procs proc).state = .zombie then .error .wakeupZombie
  else if (m.procs proc).state ≠ .runnable then
    let m := m.modify proc fun s => { s with state := .runnable, waitState := 0 }
    if proc ≠ m.current then m.schedClassEnqueue proc else .ok m
  else .ok m

/-- The first half of `schedule`. -/
def requeue (m : Mlfq) : Except MlfqStop Mlfq :=
  let m := m.modify m.current fun s => { s with needResched := false }
  if (m.procs m.current).state = .runnable then m.schedClassEnqueue m.current else .ok m

/-- The second half of `schedule`. -/
def switchNext (m : Mlfq) : Except MlfqStop Mlfq := do
  let next ← m.mlfqPickNext 0
  let m ← (match next with
    | some proc => m.mlfqDequeue proc
    | none => .ok m)
  let proc := next.getD m.idleproc
  let m := m.modify proc fun s => { s with runs := s.runs + 1 }
  return { m with current := proc }

def schedule (m : Mlfq) : Except MlfqStop Mlfq := do
  let m ← m.requeue
  m.switchNext

/-! ## proc.c -/

/-- `do_fork` and `do_forkRT` up to the first allocation that can sleep, with the memory
`kmalloc` returned at `child`. -/
def fork (m : Mlfq) (child : ProcPtr) : Except MlfqStop Mlfq :=
  if m.allocated child then .error .disabled
  else
    let m := { m with allocated := Function.update m.allocated child true }
    let m := m.modify child fun s =>
      { s with
        state := .uninit
        runs := 0
        needResched := false
        waitState := 0
        rq := none
        timeSlice := 0 }
    if (m.procs m.current).waitState ≠ 0 then .error .forkWaitState
    else if (m.procs m.current).timeSlice < 0 then .error .forkTimeSlice
    else
      let half := (m.procs m.current).timeSlice / 2
      let m := m.modify child fun s => { s with timeSlice := half }
      .ok (m.modify m.current fun s => { s with timeSlice := s.timeSlice - half })

/-- `kfree` of a descriptor. -/
def freeProc (m : Mlfq) (proc : ProcPtr) : Mlfq :=
  { m with allocated := Function.update m.allocated proc false }

/-! ## Runs -/

/-- What happens to the scheduler.  A fork goes on with the wakeup of its child, or frees it
where an allocation fails; a process that blocks or exits goes on with a call of `schedule`;
a process is freed by `do_wait` after it has exited. -/
inductive Event
  | fork (child : ProcPtr)
  | wakeup (proc : ProcPtr)
  | tick
  | schedule
  | block (waitState : UInt32)
  | exit
  | free (proc : ProcPtr)
  deriving DecidableEq, Repr

/-- The current process is not the idle one and runs. -/
def Runs (m : Mlfq) : Prop :=
  m.current ≠ m.idleproc ∧ (m.procs m.current).state = .runnable

instance decidableRuns (m : Mlfq) : Decidable m.Runs :=
  inferInstanceAs (Decidable (_ ∧ _))

/-- A process that is not there yet or not there any more. -/
def Gone (m : Mlfq) (proc : ProcPtr) : Prop :=
  m.allocated proc = true ∧ proc ≠ m.current ∧
    ((m.procs proc).state = .zombie ∨ (m.procs proc).state = .uninit)

instance decidableGone (m : Mlfq) (proc : ProcPtr) : Decidable (m.Gone proc) :=
  inferInstanceAs (Decidable (_ ∧ _ ∧ _))

def step (m : Mlfq) : Event → Except MlfqStop Mlfq
  | .fork child => m.fork child
  | .wakeup proc => if m.allocated proc then m.wakeupProc proc else .error .disabled
  | .tick => .ok (m.schedClassProcTick m.current)
  | .schedule => m.schedule
  | .block waitState =>
      if m.Runs then
        .ok (m.modify m.current fun s => { s with state := .sleeping, waitState := waitState })
      else .error .disabled
  | .exit =>
      if m.Runs then .ok (m.modify m.current fun s => { s with state := .zombie })
      else .error .disabled
  | .free proc => if m.Gone proc then .ok (m.freeProc proc) else .error .disabled

/-- The kernel before `sched_init`: the static run queues are zero, and the idle process at
address 0 is what `proc_init` makes of the memory there. -/
def boot (memory : ProcPtr → ProcStruct) : Mlfq where
  queues _ := ⟨[], 0, 0, 0, 0⟩
  procs p :=
    if p = 0 then
      { memory 0 with
        state := .runnable
        runs := 0
        needResched := true
        waitState := 0
        rq := none
        timeSlice := 0 }
    else memory p
  allocated p := decide (p = 0)
  current := 0
  idleproc := 0

end Mlfq

end EdfKernel
