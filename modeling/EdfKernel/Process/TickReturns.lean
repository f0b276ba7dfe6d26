import EdfKernel.Process.Ticks

/-!
# Timer interrupts that return

`MY_proc_tick` asks for the top of the heap after it has charged the current process and
aged the queue.  When the current process is the only one that runs, the heap is empty
and `heap_gettop` does not return.
-/

namespace EdfKernel

open Library

/-- `MY_proc_tick` does not panic on the current process. -/
def ProcStruct.OnTime (wrap : Int → Int) (s : ProcStruct) : Prop :=
  s.isRT = true → ¬((s.serve wrap).pt = 0 ∧ (s.serve wrap).ct < (s.serve wrap).computeTime)

/-- What `MY_proc_tick` reads of a process. -/
def ProcStruct.budget (s : ProcStruct) : Bool × Int × Int × Int :=
  (s.isRT, s.computeTime, s.ct, s.pt)

theorem ProcStruct.onTime_congr {wrap : Int → Int} {s s' : ProcStruct}
    (same : s'.budget = s.budget) : s'.OnTime wrap ↔ s.OnTime wrap := by
  simp only [budget, Prod.mk.injEq] at same
  obtain ⟨isRT, computeTime, ct, pt⟩ := same
  unfold OnTime serve
  rw [isRT, computeTime, ct]
  split <;> simp only [computeTime, ct, pt]

theorem ProcStruct.meetsDeadline_congr {wrap : Int → Int} {s s' : ProcStruct}
    (same : s'.budget = s.budget) : (s'.age wrap).MeetsDeadline ↔ (s.age wrap).MeetsDeadline := by
  simp only [budget, Prod.mk.injEq] at same
  obtain ⟨isRT, computeTime, ct, pt⟩ := same
  simp only [MeetsDeadline, age, computeTime, ct, pt]

namespace Kernel

variable {wrap : Int → Int} {k k' m : Kernel} {p q : ProcPtr}

/-! ## MY_proc_tick -/

theorem myChargeTick_of_onTime (onTime : (k.procs p).OnTime wrap) :
    ∃ m, k.myChargeTick wrap p = .ok m := by
  unfold myChargeTick
  by_cases realTime : (k.procs p).isRT = true
  · rw [if_neg (by simp [realTime])]
    unfold ProcStruct.chargeTick
    simp only [if_neg (onTime realTime)]
    split
    · exact ⟨_, rfl⟩
    · exact ⟨_, rfl⟩
  · rw [if_pos (by simpa using realTime)]
    exact ⟨_, rfl⟩

theorem myChargeTick_of_late (late : ¬(k.procs p).OnTime wrap) :
    k.myChargeTick wrap p = .error (.panic .currentMissed) := by
  obtain ⟨realTime, missed⟩ := Classical.not_imp.mp late
  unfold myChargeTick
  rw [if_neg (by simp [realTime]), ProcStruct.chargeTick]
  simp only [if_pos (not_not.mp missed)]
  rfl

theorem myProcTick_of_late (late : ¬(k.procs p).OnTime wrap) :
    k.myProcTick wrap p = .error (.panic .currentMissed) := by
  simp [myProcTick, myChargeTick_of_late late, bind, Except.bind]

/-- With nothing queued the question for an earlier deadline does not return. -/
theorem myProcTick_of_empty (onTime : (k.procs p).OnTime wrap) (empty : k.heap.entry = []) :
    k.myProcTick wrap p = .error (.spin .heapGettop) := by
  obtain ⟨m, charged⟩ := myChargeTick_of_onTime onTime
  have heap := myChargeTick_heap charged
  have swept : m.tickDecreasePtHeap wrap = .ok { m with heap := ⟨[]⟩ } := by
    unfold tickDecreasePtHeap
    rw [heap, empty]
    rfl
  simp [myProcTick, charged, swept, heapExistEarlierDeadline, heapGettop, heapEmpty, bind,
    Except.bind]

/-- With a process queued a tick returns or panics. -/
theorem myProcTick_ne_spin (nodup : (k.heap.entry.map HeapEntry.proc).Nodup)
    (nonempty : k.heap.entry ≠ []) (loop : Spin) :
    k.myProcTick wrap p ≠ .error (.spin loop) := by
  intro spins
  rcases bind_eq_error_iff.mp spins with atCharge | ⟨m, charged, after⟩
  · by_cases onTime : (k.procs p).OnTime wrap
    · obtain ⟨m, charged⟩ := myChargeTick_of_onTime onTime
      cases atCharge.symm.trans charged
    · cases atCharge.symm.trans (myChargeTick_of_late onTime)
  · rw [← myChargeTick_heap charged] at nodup nonempty
    rcases bind_eq_error_iff.mp after with atSweep | ⟨aged, swept, asked⟩
    · rcases bind_eq_error_iff.mp atSweep with inLoop | ⟨_, _, impossible⟩
      · rcases tickDecreasePtLoop_eq_error inLoop with missed | negative
        · cases missed
        · cases negative
      · cases impossible
    · obtain ⟨rfl, _⟩ := (tickDecreasePtHeap_eq_ok_iff nodup).mp swept
      have queued : heapEmpty (m.aged wrap).heap = false := by
        rw [heapEmpty_eq_false_iff]
        simpa [Kernel.aged] using nonempty
      rw [heapExistEarlierDeadline, heapGettop, queued] at asked
      cases asked

theorem myProcTick_ne_disabled : k.myProcTick wrap p ≠ .error .disabled := by
  intro stops
  rcases bind_eq_error_iff.mp stops with atCharge | ⟨m, charged, after⟩
  · by_cases onTime : (k.procs p).OnTime wrap
    · obtain ⟨m, charged⟩ := myChargeTick_of_onTime onTime
      cases atCharge.symm.trans charged
    · cases atCharge.symm.trans (myChargeTick_of_late onTime)
  · rcases bind_eq_error_iff.mp after with atSweep | ⟨aged, swept, asked⟩
    · rcases bind_eq_error_iff.mp atSweep with inLoop | ⟨_, _, impossible⟩
      · rcases tickDecreasePtLoop_eq_error inLoop with missed | negative
        · cases missed
        · cases negative
      · cases impossible
    · rcases bind_eq_error_iff.mp asked with atTop | ⟨_, _, impossible⟩
      · unfold heapExistEarlierDeadline heapGettop at atTop
        split at atTop
        · cases atTop
        · cases atTop
      · cases impossible

/-- A tick returns when a process is queued and no deadline is missed. -/
theorem myProcTick_returns_iff (nodup : (k.heap.entry.map HeapEntry.proc).Nodup)
    (notQueued : p ∉ k.heap.entry.map HeapEntry.proc) :
    (∃ k', k.myProcTick wrap p = .ok k') ↔
      (k.procs p).OnTime wrap ∧
        (∀ q ∈ k.heap.entry.map HeapEntry.proc, ((k.procs q).age wrap).MeetsDeadline) ∧
        k.heap.entry ≠ [] := by
  have procs : ∀ m, k.myChargeTick wrap p = .ok m →
      ∀ q ∈ k.heap.entry.map HeapEntry.proc, m.procs q = k.procs q := by
    intro m charged q mem
    have other : q ≠ p := by
      rintro rfl
      exact notQueued mem
    rcases myChargeTick_eq_ok charged with ⟨_, rfl⟩ | ⟨_, _, _, rfl⟩
    · exact modify_procs_of_ne _ _ _ other
    · exact modify_procs_of_ne _ _ _ other
  constructor
  · rintro ⟨k', ticked⟩
    obtain ⟨m, charged, meets, nonempty, _⟩ := (myProcTick_eq_ok_iff nodup).mp ticked
    refine ⟨?_, ?_, ?_⟩
    · by_contra late
      cases charged.symm.trans (myChargeTick_of_late late)
    · intro q mem
      obtain ⟨e, inHeap, rfl⟩ := List.mem_map.mp mem
      rw [← procs m charged _ mem]
      exact meets e (myChargeTick_heap charged ▸ inHeap)
    · rw [← myChargeTick_heap charged]
      simpa [Kernel.aged] using nonempty
  · rintro ⟨onTime, meets, nonempty⟩
    obtain ⟨m, charged⟩ := myChargeTick_of_onTime onTime
    have heap := myChargeTick_heap charged
    refine ⟨_, (myProcTick_eq_ok_iff nodup).mpr ⟨m, charged, ?_, ?_, rfl⟩⟩
    · intro e inHeap
      have mem : e.proc ∈ k.heap.entry.map HeapEntry.proc := List.mem_map_of_mem (heap ▸ inHeap)
      rw [procs m charged _ mem]
      exact meets _ mem
    · simpa [Kernel.aged, heap] using nonempty

/-- `MY_proc_tick` panics exactly where a deadline is missed. -/
theorem myProcTick_misses_iff (nodup : (k.heap.entry.map HeapEntry.proc).Nodup)
    (notQueued : p ∉ k.heap.entry.map HeapEntry.proc) :
    (∃ site, k.myProcTick wrap p = .error (.panic site)) ↔
      ¬(k.procs p).OnTime wrap ∨
        ∃ q ∈ k.heap.entry.map HeapEntry.proc, ¬((k.procs q).age wrap).MeetsDeadline := by
  constructor
  · rintro ⟨site, panics⟩
    by_contra onTime
    obtain ⟨charged, meets⟩ := not_or.mp onTime
    have charges := not_not.mp charged
    by_cases empty : k.heap.entry = []
    · cases panics.symm.trans (myProcTick_of_empty charges empty)
    · have returns := (myProcTick_returns_iff nodup notQueued).mpr
        ⟨charges, fun q mem => not_not.mp fun late => meets ⟨q, mem, late⟩, empty⟩
      obtain ⟨k', ticked⟩ := returns
      cases panics.symm.trans ticked
  · intro missed
    cases ticked : k.myProcTick wrap p with
    | ok k' =>
        obtain ⟨charges, meets, _⟩ := (myProcTick_returns_iff nodup notQueued).mp ⟨k', ticked⟩
        rcases missed with late | ⟨q, mem, late⟩
        · exact absurd charges late
        · exact absurd (meets q mem) late
    | error stop =>
        cases stop with
        | panic site => exact ⟨site, rfl⟩
        | spin loop =>
            by_cases empty : k.heap.entry = []
            · rcases missed with late | ⟨q, mem, _⟩
              · cases ticked.symm.trans (myProcTick_of_late late)
              · rw [empty] at mem
                cases mem
            · exact absurd ticked (myProcTick_ne_spin nodup empty loop)
        | disabled => exact absurd ticked myProcTick_ne_disabled

/-! ## run_timer_list -/

/-- With room on the heap a timer interrupt comes to `MY_proc_tick`, on the processes that
are due. -/
theorem runTimerList_eq_myProcTick (inv : k.Inv) (clocked : k.Clocked)
    (notIdle : k.current ≠ k.idleproc) (room : k.TickFits) :
    ∃ m : Kernel, k.runTimerList wrap = m.myProcTick wrap k.current ∧
      (m.heap.entry.map HeapEntry.proc).Nodup ∧
      (∀ q, (m.procs q).budget = (k.procs q).budget) ∧
      (∀ q, q ∈ m.heap.entry.map HeapEntry.proc ↔ k.Due q) ∧
      k.current ∉ m.heap.entry.map HeapEntry.proc := by
  obtain ⟨m, counted, fired⟩ := (countDown_push inv clocked.runs clocked.fits).1 room
  obtain ⟨_, queue⟩ := countDown_spec inv.others.queue inv.timersWait counted
  have idleproc : m.idleproc = k.idleproc := (congrArg Kernel.idleproc fired.frame :)
  refine ⟨m, ?_, queue.nodup, ?_, ?_, ?_⟩
  · have listed : k.runTimerList wrap = k.countDown >>= fun m =>
      m.schedClassProcTick wrap m.current := rfl
    rw [listed, counted]
    change m.schedClassProcTick wrap m.current = _
    rw [schedClassProcTick, if_pos (by rw [fired.current, idleproc]; exact notIdle), fired.current]
  · exact fun q => (congrArg (fun m => (m.procs q).budget) fired.frame :)
  · exact fun q => (queue.mem_iff q).trans (fired.ready inv q)
  · intro mem
    exact ((queue.mem_iff _).mp mem).2 fired.current.symm

theorem runTimerList_of_full (inv : k.Inv) (clocked : k.Clocked) (full : ¬k.TickFits) :
    k.runTimerList wrap = .error (.spin .heapPush) := by
  have listed : k.runTimerList wrap = k.countDown >>= fun m =>
    m.schedClassProcTick wrap m.current := rfl
  rw [listed, (countDown_push inv clocked.runs clocked.fits).2 (not_le.mp full)]
  rfl

/-- When `run_timer_list` returns, and when it does not come back. -/
theorem runTimerList_returns_iff (inv : k.Inv) (clocked : k.Clocked)
    (notIdle : k.current ≠ k.idleproc) :
    ((∀ loop, k.runTimerList wrap ≠ .error (.spin loop)) ↔
      k.TickFits ∧ ((k.procs k.current).OnTime wrap → ∃ p, k.Due p)) ∧
    ((∃ k', k.runTimerList wrap = .ok k') ↔
      k.TickFits ∧ (k.procs k.current).OnTime wrap ∧
        (∀ p, k.Due p → ((k.procs p).age wrap).MeetsDeadline) ∧ ∃ p, k.Due p) := by
  by_cases room : k.TickFits
  · obtain ⟨m, ticks, nodup, same, due, notQueued⟩ :=
      @runTimerList_eq_myProcTick wrap _ inv clocked notIdle room
    have nonempty : m.heap.entry ≠ [] ↔ ∃ p, k.Due p := by
      rw [ne_eq, ← List.map_eq_nil_iff, List.eq_nil_iff_forall_not_mem, not_forall]
      exact exists_congr fun p => not_not.trans (due p)
    have onTime : (m.procs k.current).OnTime wrap ↔ (k.procs k.current).OnTime wrap :=
      ProcStruct.onTime_congr (same k.current)
    rw [ticks, ← onTime, ← nonempty]
    constructor
    · rw [and_iff_right room]
      constructor
      · intro returns charged empty
        exact returns .heapGettop (myProcTick_of_empty charged empty)
      · intro queued loop
        by_cases charged : (m.procs k.current).OnTime wrap
        · exact myProcTick_ne_spin nodup (queued charged) loop
        · intro spins
          cases (myProcTick_of_late charged).symm.trans spins
    · rw [and_iff_right room, myProcTick_returns_iff nodup notQueued]
      refine and_congr_right fun _ => and_congr_left fun _ => forall_congr' fun p => ?_
      rw [due, ProcStruct.meetsDeadline_congr (same p)]
  · have full := @runTimerList_of_full wrap _ inv clocked room
    constructor
    · exact ⟨fun returns => absurd full (returns _), fun both => absurd both.1 room⟩
    · refine ⟨?_, fun all => absurd all.1 room⟩
      rintro ⟨k', ticked⟩
      cases full.symm.trans ticked

/-- When `run_timer_list` panics. -/
theorem runTimerList_misses_iff (inv : k.Inv) (clocked : k.Clocked)
    (notIdle : k.current ≠ k.idleproc) :
    (∃ site, k.runTimerList wrap = .error (.panic site)) ↔
      k.TickFits ∧ (¬(k.procs k.current).OnTime wrap ∨
        ∃ p, k.Due p ∧ ¬((k.procs p).age wrap).MeetsDeadline) := by
  by_cases room : k.TickFits
  · obtain ⟨m, ticks, nodup, same, due, notQueued⟩ :=
      @runTimerList_eq_myProcTick wrap _ inv clocked notIdle room
    rw [ticks, and_iff_right room, myProcTick_misses_iff nodup notQueued,
      ProcStruct.onTime_congr (same k.current)]
    refine or_congr_right (exists_congr fun p => ?_)
    rw [due, ProcStruct.meetsDeadline_congr (same p)]
  · have full := @runTimerList_of_full wrap _ inv clocked room
    refine ⟨?_, fun both => absurd both.1 room⟩
    rintro ⟨site, panics⟩
    cases full.symm.trans panics

/-! ## The timer interrupt -/

section Goto

variable (k : Kernel) (pc : Pc)

theorem goto_sleepers (timers : List Timer) : (k.goto pc).sleepers timers = k.sleepers timers := by
  apply List.filter_congr
  intro q _
  have state : ((k.goto pc).procs q).state = (k.procs q).state :=
    k.modify_field k.current _ ProcStruct.state rfl q
  rw [decide_eq_decide, Sleeps, Sleeps, state]
  rfl

theorem goto_due (p : ProcPtr) : (k.goto pc).Due p ↔ k.Due p := by
  have state : ((k.goto pc).procs p).state = (k.procs p).state :=
    k.modify_field k.current _ ProcStruct.state rfl p
  have timerList : (k.goto pc).timerList = k.timerList := rfl
  rw [Due, Due, timerList, goto_sleepers, Ready, Ready, Contends, Contends, state]
  rfl

theorem goto_tickFits : (k.goto pc).TickFits ↔ k.TickFits := by
  have timerList : (k.goto pc).timerList = k.timerList := rfl
  rw [TickFits, TickFits, timerList, goto_sleepers]
  rfl

theorem goto_budget (p : ProcPtr) : ((k.goto pc).procs p).budget = (k.procs p).budget :=
  k.modify_field k.current _ ProcStruct.budget rfl p

theorem goto_onTime : ((k.goto pc).procs (k.goto pc).current).OnTime wrap ↔
    (k.procs k.current).OnTime wrap :=
  ProcStruct.onTime_congr (k.goto_budget pc k.current)

theorem goto_meetsDeadline (p : ProcPtr) : (((k.goto pc).procs p).age wrap).MeetsDeadline ↔
    ((k.procs p).age wrap).MeetsDeadline :=
  ProcStruct.meetsDeadline_congr (k.goto_budget pc p)

end Goto

/-- A timer interrupt runs `run_timer_list`, in user mode on its way to the end of `trap`. -/
theorem step_tick_eq (reachable : Reachable wrap k) :
    ∃ m, (m = k ∨ m = k.goto .tail) ∧ k.step wrap .tick = m.runTimerList wrap ∧ m.Inv ∧
      m.Clocked := by
  have inv := reachable.inv
  have clocked := reachable.clocked
  by_cases user : k.pc = .user
  · have moves : k.pc.Moves k.flagged .tail := user ▸ .userTail
    have there := inv.move moves (goto_movedTo k _ (by rintro ⟨⟩))
    refine ⟨k.goto .tail, .inr rfl, ?_, there, ⟨clocked.runs, clocked.fits⟩⟩
    simp only [step, tick, user]
  · refine ⟨k, .inl rfl, ?_, inv, clocked⟩
    change k.tick wrap = _
    unfold tick
    split
    · contradiction
    · rfl

theorem tick_ne_spin_iff (reachable : Reachable wrap k) (notIdle : k.current ≠ k.idleproc) :
    (∀ loop, k.step wrap .tick ≠ .error (.spin loop)) ↔
      k.TickFits ∧ ((k.procs k.current).OnTime wrap → ∃ p, k.Due p) := by
  obtain ⟨m, rfl | rfl, ticks, inv, clocked⟩ := step_tick_eq reachable
  · rw [ticks]
    exact (runTimerList_returns_iff inv clocked notIdle).1
  · have returns := (@runTimerList_returns_iff wrap _ inv clocked notIdle).1
    simp only [goto_due, goto_tickFits, goto_onTime] at returns
    rw [ticks]
    exact returns

theorem tick_eq_ok_iff (reachable : Reachable wrap k) (notIdle : k.current ≠ k.idleproc) :
    (∃ k', k.step wrap .tick = .ok k') ↔
      k.TickFits ∧ (k.procs k.current).OnTime wrap ∧
        (∀ p, k.Due p → ((k.procs p).age wrap).MeetsDeadline) ∧ ∃ p, k.Due p := by
  obtain ⟨m, rfl | rfl, ticks, inv, clocked⟩ := step_tick_eq reachable
  · rw [ticks]
    exact (runTimerList_returns_iff inv clocked notIdle).2
  · have returns := (@runTimerList_returns_iff wrap _ inv clocked notIdle).2
    simp only [goto_due, goto_tickFits, goto_onTime, goto_meetsDeadline] at returns
    rw [ticks]
    exact returns

/-- A timer interrupt that arrives in a process other than the idle one comes back, unless
it fills the heap or finds it empty; it returns when besides no deadline is missed. -/
theorem tick_returns_iff (reachable : Reachable wrap k) (notIdle : k.current ≠ k.idleproc) :
    ((∀ loop, k.step wrap .tick ≠ .error (.spin loop)) ↔
      k.TickFits ∧ ((k.procs k.current).OnTime wrap → ∃ p, k.Due p)) ∧
    ((∃ k', k.step wrap .tick = .ok k') ↔
      k.TickFits ∧ (k.procs k.current).OnTime wrap ∧
        (∀ p, k.Due p → ((k.procs p).age wrap).MeetsDeadline) ∧ ∃ p, k.Due p) :=
  ⟨tick_ne_spin_iff reachable notIdle, tick_eq_ok_iff reachable notIdle⟩

/-- A timer interrupt panics at a missed deadline, and nowhere else. -/
theorem tick_misses_iff (reachable : Reachable wrap k) (notIdle : k.current ≠ k.idleproc) :
    (∃ site, k.step wrap .tick = .error (.panic site)) ↔
      k.TickFits ∧ (¬(k.procs k.current).OnTime wrap ∨
        ∃ p, k.Due p ∧ ¬((k.procs p).age wrap).MeetsDeadline) := by
  obtain ⟨m, rfl | rfl, ticks, inv, clocked⟩ := step_tick_eq reachable
  · rw [ticks]
    exact runTimerList_misses_iff inv clocked notIdle
  · have misses := @runTimerList_misses_iff wrap _ inv clocked notIdle
    simp only [goto_due, goto_tickFits, goto_onTime, goto_meetsDeadline] at misses
    rw [ticks]
    exact misses

/-- A user process and its child that has not run yet. -/
theorem tick_returns_forked :
    ∃ k, Run.exec (step wrapInt32) (boot fun _ => blank) (firstUser ++ forked .fork 4) = .ok k ∧
      ∀ loop, k.step wrapInt32 .tick ≠ .error (.spin loop) := by
  obtain ⟨k, run, notIdle, fits, queued⟩ := Run.exec_of_decide
    (fun k : Kernel => k.current ≠ k.idleproc ∧ k.TickFits ∧ 4 ∈ k.heap.entry.map HeapEntry.proc)
    (by decide +kernel : (Run.exec (step wrapInt32) (boot fun _ => blank)
      (firstUser ++ forked .fork 4)).map _ = .ok true)
  have reachable : Reachable wrapInt32 k := ⟨_, _, run⟩
  have due : k.Due 4 := .inl ((reachable.inv.others.queue.mem_iff 4).mp queued)
  exact ⟨k, run, (tick_returns_iff reachable notIdle).1.mpr ⟨fits, fun _ => ⟨4, due⟩⟩⟩

/-- The only user process runs while the init process waits for it. -/
theorem tick_spins :
    ¬∀ k, Reachable wrapInt32 k → k.current ≠ k.idleproc →
      ∀ loop, k.step wrapInt32 .tick ≠ .error (.spin loop) := by
  intro returns
  obtain ⟨k, run, notIdle, stops⟩ := Run.exec_of_decide
    (fun k : Kernel => k.current ≠ k.idleproc ∧
      reason (k.step wrapInt32 .tick) = some (.spin .heapGettop))
    (by decide +kernel : (Run.exec (step wrapInt32) (boot fun _ => blank) firstUser).map _ =
      .ok true)
  exact returns k ⟨_, _, run⟩ notIdle .heapGettop (reason_eq_some_iff.mp stops)

end Kernel

end EdfKernel
