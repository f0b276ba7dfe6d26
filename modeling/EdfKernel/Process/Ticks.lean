import EdfKernel.Process.Wakes

/-!
# Timers that expire

Which processes a timer interrupt wakes is known before it: their timers are the
first ones on the list that run out with this tick.  Each of them that sleeps and
is not the current process is pushed on the heap.
-/

namespace EdfKernel

open Library

/-- The timer list one tick later. -/
def countTick : List Timer → List Timer
  | [] => []
  | timer :: rest => { timer with expires := timer.expires - 1 } :: rest

/-- The processes of the timers that have run out. -/
def expired (timers : List Timer) : List ProcPtr :=
  (timers.takeWhile fun timer => decide (timer.expires = 0)).map Timer.proc

theorem countTick_procs (timers : List Timer) :
    (countTick timers).map Timer.proc = timers.map Timer.proc := by
  cases timers <;> rfl

theorem expired_cons_of_zero {timer : Timer} {rest : List Timer} (zero : timer.expires = 0) :
    expired (timer :: rest) = timer.proc :: expired rest := by
  simp [expired, zero]

theorem expired_cons_of_ne {timer : Timer} {rest : List Timer} (positive : timer.expires ≠ 0) :
    expired (timer :: rest) = [] := by
  simp [expired, positive]

theorem expired_subset (timers : List Timer) : expired timers ⊆ timers.map Timer.proc :=
  List.map_subset _ (List.takeWhile_subset _)

namespace Kernel

variable {wrap : Int → Int} {k k' m : Kernel} {event : Event} {p q : ProcPtr} {pc : Pc}

/-- A process that enters the heap when it is woken. -/
def Sleeps (k : Kernel) (p : ProcPtr) : Prop :=
  p ≠ k.current ∧ (k.procs p).state ≠ .runnable

instance (k : Kernel) : DecidablePred k.Sleeps :=
  fun _ => inferInstanceAs (Decidable (_ ∧ _))

/-- The first timer has not run out. -/
def TimersRun (k : Kernel) : Prop :=
  ∀ timer ∈ k.timerList.head?, timer.expires ≠ 0

/-- From `k` to `k'` the processes of `woken` were woken and pushed on the heap; only the
current process may have been woken besides. -/
structure Fired (k k' : Kernel) (woken : List ProcPtr) : Prop where
  frame : (k'.setTimers []).unwoken = (k.setTimers []).unwoken
  length : k'.heap.entry.length = k.heap.entry.length + woken.length
  state : ∀ q, q ≠ k.current →
    ((k'.procs q).state = .runnable ↔ (k.procs q).state = .runnable ∨ q ∈ woken)

namespace Fired

variable {first second : List ProcPtr}

theorem current (fired : k.Fired k' first) : k'.current = k.current :=
  (congrArg Kernel.current fired.frame :)

/-- The processes that sleep are those that have not been woken. -/
theorem sleeps (fired : k.Fired k' first) (q : ProcPtr) :
    k'.Sleeps q ↔ k.Sleeps q ∧ q ∉ first := by
  rw [Sleeps, Sleeps, fired.current, and_assoc]
  refine and_congr_right fun other => ?_
  rw [ne_eq, fired.state q other, not_or]

theorem refl (k : Kernel) : k.Fired k [] where
  frame := rfl
  length := rfl
  state q _ := by simp

theorem trans (before : k.Fired m first) (after : m.Fired k' second) :
    k.Fired k' (first ++ second) where
  frame := after.frame.trans before.frame
  length := by
    rw [after.length, before.length, List.length_append, Nat.add_assoc]
  state q other := by
    rw [after.state q (before.current ▸ other), before.state q other, List.mem_append, or_assoc]

theorem setTimers (fired : k.Fired k' first) (timers : List Timer) :
    k.Fired (k'.setTimers timers) first where
  frame := fired.frame
  length := fired.length
  state := fired.state

theorem of_setTimers {timers : List Timer} (fired : (k.setTimers timers).Fired k' first) :
    k.Fired k' first where
  frame := fired.frame
  length := fired.length
  state := fired.state

end Fired

/-- What comes of waking the processes of `woken`: they are pushed on the heap if it has
room for all of them. -/
def Pushes (k : Kernel) (woken : List ProcPtr) (result : Except Stop Kernel) : Prop :=
  (k.heap.entry.length + woken.length ≤ maxHeapSize → ∃ k', result = .ok k' ∧ k.Fired k' woken) ∧
    (maxHeapSize < k.heap.entry.length + woken.length → result = .error (.spin .heapPush))

namespace Pushes

variable {first second : List ProcPtr} {result : Except Stop Kernel}
  {rest : Kernel → Except Stop Kernel}

theorem refl (fits : k.heap.entry.length ≤ maxHeapSize) : k.Pushes [] (.ok k) :=
  ⟨fun _ => ⟨k, rfl, .refl k⟩, fun total => absurd fits (not_le.mpr total)⟩

theorem bind (before : k.Pushes first result)
    (after : ∀ m, result = .ok m → k.Fired m first → m.heap.entry.length ≤ maxHeapSize →
      m.Pushes second (rest m)) : k.Pushes (first ++ second) (result >>= rest) := by
  unfold Pushes
  rw [List.length_append, ← Nat.add_assoc]
  by_cases room : k.heap.entry.length + first.length ≤ maxHeapSize
  · obtain ⟨m, done, fired⟩ := before.1 room
    obtain ⟨enough, full⟩ := after m done fired (fired.length ▸ room)
    rw [fired.length] at enough full
    rw [done]
    constructor
    · intro total
      obtain ⟨k', rested, more⟩ := enough total
      exact ⟨k', rested, fired.trans more⟩
    · exact full
  · rw [before.2 (not_le.mp room)]
    exact ⟨fun total => absurd ((Nat.le_add_right _ _).trans total) room, fun _ => rfl⟩

theorem of_setTimers {timers : List Timer} (pushes : (k.setTimers timers).Pushes first result) :
    k.Pushes first result := by
  refine ⟨fun total => ?_, pushes.2⟩
  obtain ⟨k', done, fired⟩ := pushes.1 total
  exact ⟨k', done, fired.of_setTimers⟩

end Pushes

/-! ## Waking one process -/

/-- The process, if it enters the heap when it is woken. -/
def sleeper (k : Kernel) (p : ProcPtr) : List ProcPtr :=
  if k.Sleeps p then [p] else []

theorem myEnqueue_of_lt (room : k.heap.entry.length < maxHeapSize) :
    ∃ k', k.myEnqueue p = .ok k' ∧ k'.heap.entry.length = k.heap.entry.length + 1 := by
  have pushed : ∃ heap, heapPush k.heap ⟨p, (k.procs p).pt⟩ = .ok heap := heapPush_of_lt room
  obtain ⟨heap, push⟩ := pushed
  have enqueued : ∃ k', k.myEnqueue p = .ok k' := by
    refine ⟨_, bind_eq_ok_iff.mpr ⟨heap, ?_, rfl⟩⟩
    simpa using push
  obtain ⟨k', enqueued⟩ := enqueued
  obtain ⟨heap', _, perm, _, rfl⟩ := myEnqueue_eq_ok enqueued
  exact ⟨_, enqueued, perm.length_eq⟩

theorem myEnqueue_of_full (full : maxHeapSize ≤ k.heap.entry.length) :
    k.myEnqueue p = .error (.spin .heapPush) := by
  simp [myEnqueue, heapPush, full, bind, Except.bind]

theorem wakeupProc_of_not_sleeps (notZombie : (k.procs p).state ≠ .zombie)
    (awake : ¬k.Sleeps p) : ∃ k', k.wakeupProc p = .ok k' ∧ k'.heap = k.heap := by
  unfold wakeupProc
  rw [if_neg notZombie]
  by_cases runnable : (k.procs p).state = .runnable
  · exact ⟨k, by simp [runnable], rfl⟩
  · have current : p = k.current := by
      by_contra other
      exact awake ⟨other, runnable⟩
    rw [if_pos runnable]
    change ∃ k', (if p ≠ k.current then (k.awaken p).schedClassEnqueue p else .ok (k.awaken p)) =
      .ok k' ∧ k'.heap = k.heap
    rw [if_neg (not_not.mpr current)]
    exact ⟨k.awaken p, rfl, rfl⟩

/-- A sleeping process is pushed on the heap when it is woken. -/
theorem wakeupProc_of_sleeps (notZombie : (k.procs p).state ≠ .zombie)
    (notIdle : p ≠ k.idleproc) (sleeps : k.Sleeps p) :
    k.wakeupProc p = (k.awaken p).myEnqueue p := by
  unfold wakeupProc
  rw [if_neg notZombie, if_pos sleeps.2]
  change (if p ≠ k.current then (k.awaken p).schedClassEnqueue p else .ok (k.awaken p)) = _
  rw [if_pos sleeps.1, schedClassEnqueue]
  exact if_pos notIdle

theorem wakeupProc_state (woken : k.wakeupProc p = .ok k') (other : q ≠ k.current) :
    (k'.procs q).state = .runnable ↔ (k.procs q).state = .runnable ∨ q ∈ k.sleeper p := by
  by_cases own : q = p
  · subst q
    simp [wakeupProc_awake woken, sleeper, Sleeps, other, em]
  · have apart : q ∉ k.sleeper p := by
      unfold sleeper
      split <;> simp [own]
    simp [wakeupProc_procs_of_ne woken own, apart]

theorem wakeupProc_push (notZombie : (k.procs p).state ≠ .zombie)
    (notIdle : k.Sleeps p → p ≠ k.idleproc) (fits : k.heap.entry.length ≤ maxHeapSize) :
    k.Pushes (k.sleeper p) (k.wakeupProc p) := by
  have fired : ∀ k', k.wakeupProc p = .ok k' →
      k'.heap.entry.length = k.heap.entry.length + (k.sleeper p).length →
      k.Fired k' (k.sleeper p) := fun k' woken length =>
    { frame := congrArg (Kernel.setTimers · []) (wakeupProc_unwoken woken)
      length := length
      state := fun q other => wakeupProc_state woken other }
  unfold Pushes
  by_cases sleeps : k.Sleeps p
  · have wakes := wakeupProc_of_sleeps notZombie (notIdle sleeps) sleeps
    have one : (k.sleeper p).length = 1 := by simp [sleeper, sleeps]
    rw [one] at fired ⊢
    constructor
    · intro total
      have pushes : ∃ m, (k.awaken p).myEnqueue p = .ok m ∧
          m.heap.entry.length = k.heap.entry.length + 1 := myEnqueue_of_lt total
      obtain ⟨m, pushed, longer⟩ := pushes
      exact ⟨m, wakes.trans pushed, fired m (wakes.trans pushed) longer⟩
    · intro total
      have full : maxHeapSize ≤ (k.awaken p).heap.entry.length := Nat.lt_succ_iff.mp total
      exact wakes.trans (myEnqueue_of_full full)
  · obtain ⟨m, woken, heap⟩ := wakeupProc_of_not_sleeps notZombie sleeps
    have none : (k.sleeper p).length = 0 := by simp [sleeper, sleeps]
    rw [none] at fired ⊢
    exact ⟨fun _ => ⟨m, woken, fired m woken (by rw [heap, Nat.add_zero])⟩,
      fun total => absurd fits (not_le.mpr total)⟩

/-! ## The timers that expire at a tick -/

/-- One round of the loop over the timers that have run out. -/
theorem fireTimers_succ {fuel : Nat} {timer : Timer} {rest : List Timer} (waits : k.TimersWait)
    (list : k.timerList = timer :: rest) (zero : timer.expires = 0) :
    fireTimers (fuel + 1) k =
      k.wakeupProc timer.proc >>= fun m => fireTimers fuel (m.setTimers rest) := by
  have timed : k.Timed timer.proc := by simp [Timed, list]
  have interruptible : ¬((k.procs timer.proc).waitState ≠ 0 ∧
      (k.procs timer.proc).waitState &&& wtInterrupted = 0) := by
    rintro ⟨waiting, notInterruptible⟩
    rcases waits timer.proc timed with asleep | awake
    · exact asleep.interruptible notInterruptible
    · exact waiting awake.2
  rw [fireTimers, list]
  simp only [ne_eq, zero, not_true_eq_false, if_false]
  rw [if_neg interruptible]
  rfl

theorem TimersWait.not_zombie (waits : k.TimersWait) (timed : k.Timed p) :
    (k.procs p).state ≠ .zombie := by
  rcases waits p timed with asleep | awake
  · rw [asleep.asleep]
    decide
  · rw [awake.1]
    decide

theorem TimersWait.dormant (waits : k.TimersWait) (timed : k.Timed p) (sleeps : k.Sleeps p) :
    k.Dormant p :=
  (waits p timed).resolve_right fun awake => sleeps.2 awake.1

/-- The processes of a list of timers that enter the heap when they are woken. -/
def sleepers (k : Kernel) (timers : List Timer) : List ProcPtr :=
  (expired timers).filter fun p => decide (k.Sleeps p)

theorem sleepers_cons_of_zero {timer : Timer} {rest : List Timer} (zero : timer.expires = 0) :
    k.sleepers (timer :: rest) = k.sleeper timer.proc ++ k.sleepers rest := by
  rw [sleepers, expired_cons_of_zero zero, List.filter_cons, sleeper]
  by_cases sleeps : k.Sleeps timer.proc
  · simp [sleeps, sleepers]
  · simp [sleeps, sleepers]

/-- Waking one process changes nothing for the timers of others. -/
theorem Fired.sleepers (fired : k.Fired m (k.sleeper p)) {rest : List Timer}
    (apart : p ∉ rest.map Timer.proc) : m.sleepers rest = k.sleepers rest := by
  apply List.filter_congr
  intro q mem
  have other : q ∉ k.sleeper p := by
    unfold sleeper
    split
    · rw [List.mem_singleton]
      rintro rfl
      exact apart (expired_subset rest mem)
    · exact List.not_mem_nil
  rw [decide_eq_decide, fired.sleeps, and_iff_left other]

/-- The timers that have run out wake their processes. -/
theorem fireTimers_push {fuel : Nat} (enough : k.timerList.length ≤ fuel)
    (nodup : (k.timerList.map Timer.proc).Nodup) (queue : RunQueue k) (waits : k.TimersWait)
    (fits : k.heap.entry.length ≤ maxHeapSize) :
    k.Pushes (k.sleepers k.timerList) (fireTimers fuel k) := by
  induction fuel generalizing k with
  | zero =>
      have empty : k.timerList = [] := by simpa using enough
      rw [empty]
      exact .refl fits
  | succ fuel ih =>
      cases list : k.timerList with
      | nil =>
          have done : fireTimers (fuel + 1) k = .ok k := by simp [fireTimers, list]
          rw [done]
          exact .refl fits
      | cons timer rest =>
          by_cases zero : timer.expires = 0
          · have timed : k.Timed timer.proc := by simp [Timed, list]
            rw [list, List.map_cons, List.nodup_cons] at nodup
            rw [fireTimers_succ waits list zero, sleepers_cons_of_zero zero]
            refine (wakeupProc_push (waits.not_zombie timed)
              (fun sleeps => (waits.dormant timed sleeps).notIdle) fits).bind ?_
            intro m woken fired room
            obtain ⟨_, queueWoken, waitsWoken⟩ := wakeTimer_spec queue waits list woken
            have loop := ih (k := m.setTimers rest) (by simpa [setTimers, list] using enough)
              nodup.2 queueWoken waitsWoken room
            have same : (m.setTimers rest).sleepers rest = k.sleepers rest :=
              (fired.setTimers rest).sleepers nodup.1
            rw [show (m.setTimers rest).timerList = rest from rfl, same] at loop
            exact loop.of_setTimers
          · have done : fireTimers (fuel + 1) k = .ok k := by simp [fireTimers, list, zero]
            have none : k.sleepers (timer :: rest) = [] := by
              simp [sleepers, expired_cons_of_ne zero]
            rw [done, none]
            exact .refl fits

/-- The loop stops at a timer that has not run out. -/
theorem fireTimers_timersRun {fuel : Nat} (enough : k.timerList.length ≤ fuel)
    (fired : fireTimers fuel k = .ok k') : k'.TimersRun := by
  induction fuel generalizing k with
  | zero =>
      have empty : k.timerList = [] := by simpa using enough
      cases fired
      simp [TimersRun, empty]
  | succ fuel ih =>
      unfold fireTimers at fired
      split at fired
      · rename_i empty
        cases fired
        simp [TimersRun, empty]
      · rename_i timer rest list
        split at fired
        · rename_i runs
          cases fired
          simp [TimersRun, list, runs]
        · split at fired
          · cases fired
          · obtain ⟨m, woken, after⟩ := bind_eq_ok_iff.mp fired
            refine ih ?_ after
            simpa [list] using enough

/-! ## Counting down -/

/-- The processes that a timer interrupt finds on the heap, after it has woken those whose
timers run out with it. -/
def Due (k : Kernel) (p : ProcPtr) : Prop :=
  k.Ready p ∨ p ∈ k.sleepers (countTick k.timerList)

/-- The heap has room for the processes that a timer interrupt wakes. -/
def TickFits (k : Kernel) : Prop :=
  k.heap.entry.length + (k.sleepers (countTick k.timerList)).length ≤ maxHeapSize

instance : DecidablePred TickFits :=
  fun _ => inferInstanceAs (Decidable (_ ≤ _))

theorem countDown_eq (runs : k.TimersRun) :
    k.countDown = fireTimers k.timerList.length (k.setTimers (countTick k.timerList)) := by
  unfold countDown
  cases list : k.timerList with
  | nil =>
      have same : k.setTimers (countTick []) = k := by
        rw [setTimers, countTick, ← list]
      rw [same]
      rfl
  | cons timer rest =>
      have positive : timer.expires ≠ 0 := runs timer (by simp [list])
      simp only [if_neg positive]
      rfl

theorem countDown_timersRun (counted : k.countDown = .ok k') : k'.TimersRun := by
  unfold countDown at counted
  split at counted
  · rename_i empty
    cases counted
    simp [TimersRun, empty]
  · split at counted
    · cases counted
    · exact fireTimers_timersRun (k := k.setTimers _) le_rfl counted

theorem Rouses.setCount (k : Kernel) : k.Rouses (k.setTimers (countTick k.timerList)) := by
  have same := countTick_procs k.timerList
  refine setTimers_rouses (same ▸ .refl _) fun q timed => .inl ?_
  rw [same]
  exact timed

/-- A timer interrupt wakes the processes whose timers run out with it. -/
theorem countDown_push (inv : k.Inv) (runs : k.TimersRun)
    (fits : k.heap.entry.length ≤ maxHeapSize) :
    k.Pushes (k.sleepers (countTick k.timerList)) k.countDown := by
  rw [countDown_eq runs]
  have waits := (Rouses.setCount k).timersWait inv.timersWait
  have enough : (countTick k.timerList).length ≤ k.timerList.length := by
    cases k.timerList <;> exact le_rfl
  have nodup : ((countTick k.timerList).map Timer.proc).Nodup := by
    rw [countTick_procs]
    exact inv.others.timers
  exact (fireTimers_push enough nodup (setTimers_runQueue inv.others.queue _) waits fits).of_setTimers

/-- After the timers have fired the heap holds the processes that are due. -/
theorem Fired.ready (inv : k.Inv) (fired : k.Fired m (k.sleepers (countTick k.timerList)))
    (p : ProcPtr) : m.Ready p ↔ k.Due p := by
  have allocated : m.allocated = k.allocated := (congrArg Kernel.allocated fired.frame :)
  have idleproc : m.idleproc = k.idleproc := (congrArg Kernel.idleproc fired.frame :)
  have dormant : p ∈ k.sleepers (countTick k.timerList) → k.Dormant p ∧ p ≠ k.current := by
    intro mem
    obtain ⟨inExpired, sleeps⟩ := List.mem_filter.mp mem
    have timed : k.Timed p := by
      rw [Timed, ← countTick_procs]
      exact expired_subset _ inExpired
    exact ⟨inv.timersWait.dormant timed (of_decide_eq_true sleeps), (of_decide_eq_true sleeps).1⟩
  rw [Due, Ready, Ready, Contends, Contends, allocated, idleproc, fired.current]
  constructor
  · rintro ⟨⟨isAllocated, runnable, notIdle⟩, other⟩
    rcases (fired.state p other).mp runnable with old | woken
    · exact .inl ⟨⟨isAllocated, old, notIdle⟩, other⟩
    · exact .inr woken
  · rintro (⟨⟨isAllocated, runnable, notIdle⟩, other⟩ | woken)
    · exact ⟨⟨isAllocated, (fired.state p other).mpr (.inl runnable), notIdle⟩, other⟩
    · obtain ⟨asleep, other⟩ := dormant woken
      exact ⟨⟨asleep.allocated, (fired.state p other).mpr (.inr woken), asleep.notIdle⟩, other⟩

theorem schedClassProcTick_untimed (nodup : (k.heap.entry.map HeapEntry.proc).Nodup)
    (ticked : k.schedClassProcTick wrap p = .ok k') : k'.untimed = k.untimed := by
  unfold schedClassProcTick at ticked
  split at ticked
  · exact myProcTick_untimed nodup ticked
  · cases ticked
    exact untimed_modify k p _ rfl

/-- A timer interrupt changes no flags, no exit code and no place. -/
theorem runTimerList_fate (inv : k.Inv) (runs : k.TimersRun)
    (fits : k.heap.entry.length ≤ maxHeapSize) (ticked : k.runTimerList wrap = .ok k')
    (q : ProcPtr) : (k'.procs q).fate = (k.procs q).fate := by
  obtain ⟨m, counted, charged⟩ := bind_eq_ok_iff.mp ticked
  change k.countDown = .ok m at counted
  have queue := (countDown_spec inv.others.queue inv.timersWait counted).2
  have pushes := countDown_push inv runs fits
  have woken : (m.procs q).fate = (k.procs q).fate := by
    by_cases room : k.TickFits
    · obtain ⟨m', counted', fired⟩ := pushes.1 room
      cases counted.symm.trans counted'
      exact (congrArg (fun m => (m.procs q).fate) fired.frame :)
    · cases counted.symm.trans (pushes.2 (not_le.mp room))
  exact (congrArg (fun m => (m.procs q).fate)
    (schedClassProcTick_untimed queue.nodup charged) :).trans woken

/-! ## Every reachable state -/

/-- The first timer runs, and the heap has not outgrown its array. -/
structure Clocked (k : Kernel) : Prop where
  runs : k.TimersRun
  fits : k.heap.entry.length ≤ maxHeapSize

theorem insertTimer_timersRun {time : Nat} (positive : time ≠ 0) (runs : k.TimersRun) :
    (k.setTimers (insertTimer ⟨time, p⟩ k.timerList)).TimersRun := by
  unfold TimersRun setTimers
  cases list : k.timerList with
  | nil => simp [insertTimer, positive]
  | cons next rest =>
      have first : next.expires ≠ 0 := runs next (by simp [list])
      simp only [insertTimer]
      split
      · simp [positive]
      · simp [first]

theorem removeTimer_timersRun (runs : k.TimersRun) :
    (k.setTimers (removeTimer p k.timerList)).TimersRun := by
  unfold TimersRun setTimers
  cases list : k.timerList with
  | nil => simp [removeTimer]
  | cons timer rest =>
      have first : timer.expires ≠ 0 := runs timer (by simp [list])
      simp only [removeTimer]
      split
      · cases rest with
        | nil => simp
        | cons next rest => simp [first]
      · simp [first]

theorem Wakes.fits {victims : ProcPtr → Prop} (wakes : k.Wakes victims k')
    (fits : k.heap.entry.length ≤ maxHeapSize) : k'.heap.entry.length ≤ maxHeapSize := by
  induction wakes with
  | refl => exact fits
  | wake _ woken ih =>
      rcases wakeupProc_heap woken with same | ⟨x, pushed⟩
      · exact same ▸ ih
      · exact heapPush_fits pushed
  | write _ writes ih => exact writes.heap ▸ ih

theorem schedule_fits (fits : k.heap.entry.length ≤ maxHeapSize) (scheduled : k.schedule = .ok k') :
    k'.heap.entry.length ≤ maxHeapSize := by
  obtain ⟨m, requeued, switched⟩ := bind_eq_ok_iff.mp scheduled
  have room : m.heap.entry.length ≤ maxHeapSize := by
    rcases requeue_heap requeued with same | ⟨x, pushed⟩
    · exact same ▸ fits
    · exact heapPush_fits pushed
  obtain ⟨nonempty, rfl⟩ := switchNext_eq_ok switched
  have length := (heapPop_spec nonempty).1.length_eq
  rw [List.length_cons] at length
  exact (Nat.le_of_succ_le (length ▸ le_rfl)).trans room

theorem schedClassProcTick_length (nodup : (k.heap.entry.map HeapEntry.proc).Nodup)
    (ticked : k.schedClassProcTick wrap p = .ok k') :
    k'.heap.entry.length = k.heap.entry.length := by
  unfold schedClassProcTick at ticked
  split at ticked
  · obtain ⟨m, charged, _, _, rfl⟩ := (myProcTick_eq_ok_iff nodup).mp ticked
    rw [← myChargeTick_heap charged]
    split <;> simp [aged]
  · cases ticked
    rfl

theorem Clocked.tick (clocked : k.Clocked) (inv : k.Inv) (ticked : k.runTimerList wrap = .ok k') :
    k'.Clocked := by
  obtain ⟨m, counted, charged⟩ := bind_eq_ok_iff.mp ticked
  change k.countDown = .ok m at counted
  have queue := (countDown_spec inv.others.queue inv.timersWait counted).2
  have pushes := countDown_push inv clocked.runs clocked.fits
  have list : k'.timerList = m.timerList :=
    (congrArg Kernel.timerList (schedClassProcTick_untimed queue.nodup charged) :)
  constructor
  · rw [TimersRun, list]
    exact countDown_timersRun counted
  · rw [schedClassProcTick_length queue.nodup charged]
    by_cases room : k.TickFits
    · obtain ⟨m', counted', fired⟩ := pushes.1 room
      cases counted.symm.trans counted'
      rw [fired.length]
      exact room
    · cases counted.symm.trans (pushes.2 (not_le.mp room))

theorem Clocked.turns (clocked : k.Clocked) (inv : k.Inv) (turns : k.Turns wrap event k') :
    k'.Clocked := by
  cases turns with
  | tick m called start ticked =>
      rcases start with rfl | ⟨user, rfl⟩
      · exact clocked.tick inv ticked
      · have moves : k.pc.Moves k.flagged .tail := user ▸ .userTail
        have there := inv.move moves (goto_movedTo k _ (by rintro ⟨⟩))
        have same : (k.goto .tail).Clocked := ⟨clocked.runs, clocked.fits⟩
        exact same.tick there ticked
  | schedule pc parks scheduled =>
      have list : k'.timerList = k.timerList :=
        (congrArg Kernel.timerList (schedule_unsched scheduled) :)
      refine ⟨?_, @schedule_fits (k.goto pc) _ clocked.fits scheduled⟩
      rw [TimersRun, list]
      exact clocked.runs
  | wakes timers list wakes =>
      refine ⟨?_, wakes.fits clocked.fits⟩
      have same : k'.timerList = timers := wakes.timerList
      rw [TimersRun, same]
      rcases list with rfl | ⟨time, positive, rfl⟩ | rfl
      · exact clocked.runs
      · exact insertTimer_timersRun positive clocked.runs
      · exact removeTimer_timersRun clocked.runs

/-- A step changes the fate of its victims only. -/
theorem Transition.fate (transition : Transition wrap k event k') (inv : k.Inv)
    (clocked : k.Clocked) (notVictim : ¬k.Victim event q) :
    (k'.procs q).fate = (k.procs q).fate := by
  have other : q ≠ k.current := fun own => notVictim (.inl own)
  have moved : ∀ pc, ((k.goto pc).procs q).fate = (k.procs q).fate :=
    fun pc => congrArg ProcStruct.fate (modify_procs_of_ne _ _ _ other)
  cases transition.turns inv with
  | tick m called start ticked =>
      rcases start with rfl | ⟨user, rfl⟩
      · exact runTimerList_fate inv clocked.runs clocked.fits ticked q
      · have moves : k.pc.Moves k.flagged .tail := user ▸ .userTail
        have there := inv.move moves (goto_movedTo k _ (by rintro ⟨⟩))
        exact (runTimerList_fate there clocked.runs clocked.fits ticked q).trans (moved .tail)
  | schedule pc parks scheduled =>
      exact (congrArg (fun m => (m.procs q).fate) (schedule_unsched scheduled) :).trans (moved pc)
  | wakes timers list wakes => exact wakes.fate notVictim

theorem Reachable.clocked (reachable : Reachable wrap k) : k.Clocked := by
  obtain ⟨memory, events, run⟩ := reachable
  have both : k.Inv ∧ k.Clocked := by
    refine @Run.exec_invariant _ _ _ _ (fun k => k.Inv ∧ k.Clocked) ?_ _ _ _ ?_ run
    · intro k event next there stepped
      exact ⟨there.1.step stepped, there.2.turns there.1 ((Transition.of_step stepped).turns there.1)⟩
    · exact ⟨boot_inv memory, by rintro _ ⟨⟩, Nat.succ_le_succ (Nat.zero_le _)⟩
  exact both.2

end Kernel

end EdfKernel
