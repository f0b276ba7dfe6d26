import EdfKernel.Sched.MyClass

/-!
# The scheduler core

`sched.c` with `MY_sched_class` installed: waking a process, choosing the next
one, and the timer interrupt.  A step of these functions runs with interrupts
disabled.
-/

namespace EdfKernel

open Library

/-- The search of `add_timer` for the place of a timer; every timer counts from
the one before it. -/
def insertTimer : Timer → List Timer → List Timer
  | timer, [] => [timer]
  | timer, next :: rest =>
      if timer.expires < next.expires then
        timer :: { next with expires := next.expires - timer.expires } :: rest
      else next :: insertTimer { timer with expires := timer.expires - next.expires } rest

/-- `del_timer` on the list: the timer after the deleted one takes over its
count. -/
def removeTimer (proc : ProcPtr) : List Timer → List Timer
  | [] => []
  | timer :: rest =>
      if timer.proc = proc then
        match rest with
        | [] => []
        | next :: rest =>
            if timer.expires ≠ 0 then
              { next with expires := next.expires + timer.expires } :: rest
            else next :: rest
      else timer :: removeTimer proc rest

namespace Kernel

/-- `sched_class_enqueue`. -/
def schedClassEnqueue (k : Kernel) (proc : ProcPtr) : Except Stop Kernel :=
  if proc ≠ k.idleproc then k.myEnqueue proc else .ok k

/-- `sched_class_proc_tick`. -/
def schedClassProcTick (wrap : Int → Int) (k : Kernel) (proc : ProcPtr) :
    Except Stop Kernel :=
  if proc ≠ k.idleproc then k.myProcTick wrap proc
  else .ok (k.modify proc fun s => { s with needResched := true })

/-- `wakeup_proc`; waking a runnable process is only a warning. -/
def wakeupProc (k : Kernel) (proc : ProcPtr) : Except Stop Kernel :=
  if (k.procs proc).state = .zombie then .error (.panic .wakeupZombie)
  else if (k.procs proc).state ≠ .runnable then
    let k := k.modify proc fun s => { s with state := .runnable, waitState := 0 }
    if proc ≠ k.current then k.schedClassEnqueue proc else .ok k
  else .ok k

/-- The first half of `schedule`: the current process goes back to the queue if it
is still runnable. -/
def requeue (k : Kernel) : Except Stop Kernel :=
  let k := k.modify k.current fun s => { s with needResched := false }
  if (k.procs k.current).state = .runnable then k.schedClassEnqueue k.current else .ok k

/-- The second half of `schedule`: the chosen process leaves the queue and becomes
the current one; it goes on at the place its kernel stack holds. -/
def switchNext (k : Kernel) : Except Stop Kernel := do
  let next ← k.myPickNext
  let k ← (match next with
    | some proc => k.myDequeue proc
    | none => .ok k)
  let proc := next.getD k.idleproc
  let k := k.modify proc fun s => { s with runs := s.runs + 1 }
  return { k with current := proc }

/-- `schedule`. -/
def schedule (k : Kernel) : Except Stop Kernel := do
  let k ← k.requeue
  k.switchNext

/-- `add_timer` for a timer on the stack of `proc`. -/
def addTimer (k : Kernel) (proc : ProcPtr) (expires : Nat) : Except Stop Kernel :=
  if expires = 0 then .error (.panic .addTimerExpires)
  else if proc ∈ k.timerList.map Timer.proc then .error (.panic .addTimerLinked)
  else .ok { k with timerList := insertTimer ⟨expires, proc⟩ k.timerList }

/-- `del_timer` for the timer on the stack of `proc`. -/
def delTimer (k : Kernel) (proc : ProcPtr) : Kernel :=
  { k with timerList := removeTimer proc k.timerList }

/-- The loop of `run_timer_list` over the timers that have expired. -/
def fireTimers : Nat → Kernel → Except Stop Kernel
  | 0, k => .ok k
  | fuel + 1, k =>
      match k.timerList with
      | [] => .ok k
      | timer :: rest =>
          if timer.expires ≠ 0 then .ok k
          else if (k.procs timer.proc).waitState ≠ 0 ∧
              (k.procs timer.proc).waitState &&& wtInterrupted = 0 then
            .error (.panic .timerNotInterruptible)
          else do
            let k ← k.wakeupProc timer.proc
            fireTimers fuel { k with timerList := rest }

/-- `run_timer_list`. -/
def runTimerList (wrap : Int → Int) (k : Kernel) : Except Stop Kernel := do
  let k ←
    (match k.timerList with
    | [] => .ok k
    | timer :: rest =>
        if timer.expires = 0 then .error (.panic .timerExpired)
        else
          let timerList := { timer with expires := timer.expires - 1 } :: rest
          fireTimers timerList.length { k with timerList := timerList })
  k.schedClassProcTick wrap k.current

end Kernel

/-! ## The timer list -/

theorem insertTimer_procs (timer : Timer) (timers : List Timer) :
    ((insertTimer timer timers).map Timer.proc).Perm (timer.proc :: timers.map Timer.proc) := by
  induction timers generalizing timer with
  | nil => exact List.Perm.refl _
  | cons next rest ih =>
      unfold insertTimer
      split
      · exact List.Perm.refl _
      · exact (List.Perm.cons _ (ih _)).trans (List.Perm.swap _ _ _)

theorem removeTimer_procs (proc : ProcPtr) (timers : List Timer) :
    (removeTimer proc timers).map Timer.proc = (timers.map Timer.proc).erase proc := by
  induction timers with
  | nil => rfl
  | cons timer rest ih =>
      unfold removeTimer
      by_cases own : timer.proc = proc
      · rw [if_pos own, List.map_cons, own, List.erase_cons_head]
        cases rest with
        | nil => rfl
        | cons next rest =>
            simp only
            split <;> rfl
      · rw [if_neg own, List.map_cons, List.map_cons, ih, List.erase_cons_tail]
        simpa using own

end EdfKernel
