import EdfKernel.Process.CounterRanges

/-!
# Panics at the deadlines of processes that have none

The heap holds the processes that are not real-time under a `pt` as well, and
`tick_decrease_pt_heap` ages and checks them like the others.  Nothing ever raises their `pt`:
it starts at `PROC_MAX_DEADLINE` and drops by one with every tick spent on the heap.
-/

namespace EdfKernel

open Library

namespace Kernel

variable {k k' : Kernel} {event : Event} {p q : ProcPtr}

/-- A live process that is not real-time. -/
def Ordinary (k : Kernel) (q : ProcPtr) : Prop :=
  k.allocated q = true ∧ q ≠ k.idleproc ∧ (k.procs q).isRT = false

/-- No real-time process misses its deadline at the next timer interrupt. -/
def RealTimeMeets (k : Kernel) : Prop :=
  (k.procs k.current).OnTime wrapInt32 ∧
    ∀ q, k.Due q → (k.procs q).isRT = true → ((k.procs q).age wrapInt32).MeetsDeadline

/-- Every process on the heap that is not real-time has some of its `PROC_MAX_DEADLINE` ticks
left, more than one if the memory of its `ct` and `compute_time` makes it look unfinished. -/
def OrdinaryLast (k : Kernel) : Prop :=
  ∀ q, k.Due q → (k.procs q).isRT = false →
    (k.procs q).pt ≠ 0 ∧ ((k.procs q).pt = 1 → (k.procs q).computeTime ≤ (k.procs q).ct)

/-! ## The `pt` of a process that is not real-time -/

/-- `pt` of the processes that are not real-time starts at the maximum and only drops. -/
def OrdinaryRange (k : Kernel) : Prop :=
  ∀ q, k.Ordinary q → 0 ≤ (k.procs q).pt ∧ (k.procs q).pt ≤ procMaxDeadline

theorem ordinary_of_deadline (idleproc : k'.idleproc = k.idleproc)
    (allocated : k'.allocated q = true → k.allocated q = true)
    (isRT : (k'.procs q).isRT = (k.procs q).isRT) (ordinary : k'.Ordinary q) : k.Ordinary q :=
  ⟨allocated ordinary.1, idleproc ▸ ordinary.2.1, isRT ▸ ordinary.2.2⟩

theorem Due.ordinary (reachable : Reachable wrapInt32 k) (due : k.Due q)
    (isRT : (k.procs q).isRT = false) : k.Ordinary q := by
  rcases due with ready | woken
  · exact ⟨ready.1.1, ready.1.2.2, isRT⟩
  · obtain ⟨inExpired, sleeps⟩ := List.mem_filter.mp woken
    have inv := reachable.inv
    have timed : k.Timed q := by
      rw [Timed, ← countTick_procs]
      exact expired_subset _ inExpired
    have dormant := inv.timersWait.dormant timed (of_decide_eq_true sleeps)
    exact ⟨dormant.allocated, dormant.notIdle, isRT⟩

theorem age_ordinary {s : ProcStruct} (range : 0 ≤ s.pt ∧ s.pt ≤ procMaxDeadline) :
    (s.age wrapInt32).MeetsDeadline ↔ s.pt ≠ 0 ∧ (s.pt = 1 → s.computeTime ≤ s.ct) := by
  have high : s.pt ≤ 7000 := range.2
  have pt : wrapInt32 (s.pt - 1) = s.pt - 1 :=
    ProcStruct.wrapInt32_of_range (by omega) (by omega)
  simp only [ProcStruct.MeetsDeadline, ProcStruct.age, pt]
  omega

theorem tick_ordinaryRange (reachable : Reachable wrapInt32 k) (range : k.OrdinaryRange)
    (ticked : k.step wrapInt32 .tick = .ok k') : k'.OrdinaryRange := by
  have after := step_ticked reachable ticked
  intro q ordinary'
  have ordinary := ordinary_of_deadline after.idleproc (fun live => after.allocated ▸ live)
    (tick_identity reachable ticked q).1 ordinary'
  have before := range q ordinary
  have of_pt : (k'.procs q).pt = (k.procs q).pt →
      0 ≤ (k'.procs q).pt ∧ (k'.procs q).pt ≤ procMaxDeadline := fun same => same ▸ before
  by_cases idle : k.current = k.idleproc
  · exact of_pt (congrArg (fun d => d.2.2.2.2) (after.idle idle q))
  · by_cases own : q = k.current
    · subst own
      apply of_pt
      have charged : (k.procs k.current).charge wrapInt32 = k.procs k.current := by
        rw [ProcStruct.charge, if_pos ordinary.2.2]
      exact congrArg (fun d => d.2.2.2.2) (charged ▸ after.own idle)
    · by_cases due : k.Due q
      · have aged : (k'.procs q).pt = wrapInt32 ((k.procs q).pt - 1) :=
          congrArg (fun d => d.2.2.2.2) (after.due idle q due)
        have meets := ((tick_eq_ok_iff reachable idle).mp ⟨k', ticked⟩).2.2.1 q due
        have left := ((age_ordinary before).mp meets).1
        have high : (k.procs q).pt ≤ 7000 := before.2
        rw [aged, ProcStruct.wrapInt32_of_range (by omega) (by omega)]
        constructor
        · omega
        · exact (by omega : (k.procs q).pt - 1 ≤ 7000)
      · exact of_pt (congrArg (fun d => d.2.2.2.2) (after.rest idle q own due))

theorem step_ordinaryRange (reachable : Reachable wrapInt32 k) (range : k.OrdinaryRange)
    (stepped : k.step wrapInt32 event = .ok k') : k'.OrdinaryRange := by
  by_cases ticks : event = .tick
  · subst ticks
    exact tick_ordinaryRange reachable range stepped
  · intro q ordinary'
    obtain ⟨idleproc, ⟨same, allocated⟩ | assigned⟩ := step_counters reachable.inv ticks stepped q
    · have ordinary := ordinary_of_deadline idleproc allocated (congrArg Prod.fst same) ordinary'
      have pt : (k'.procs q).pt = (k.procs q).pt := congrArg (fun d => d.2.2.2.2) same
      exact pt ▸ range q ordinary
    · have isRT := ordinary'.2.2
      have start : (0 : Int) ≤ procMaxDeadline ∧ procMaxDeadline ≤ procMaxDeadline :=
        ⟨by decide, le_rfl⟩
      generalize counters : (k'.procs q).deadline = d at assigned
      have pt : (k'.procs q).pt = d.2.2.2.2 := congrArg (fun d => d.2.2.2.2) counters
      have class_ : (k'.procs q).isRT = d.1 := congrArg Prod.fst counters
      cases assigned with
      | @fork flags kind caller q source free =>
          cases kind with
          | realTime ct pt => cases isRT.symm.trans class_
          | user => exact pt ▸ start
          | kernel fn => exact pt ▸ start
      | execve source => cases isRT.symm.trans class_

theorem reachable_ordinaryRange (reachable : Reachable wrapInt32 k) : k.OrdinaryRange := by
  obtain ⟨memory, events, run⟩ := reachable
  have all : Reachable wrapInt32 k ∧ k.OrdinaryRange := by
    refine @Run.exec_invariant _ _ _ (step wrapInt32)
      (fun k => Reachable wrapInt32 k ∧ k.OrdinaryRange) ?_ _ _ _ ?_ run
    · rintro k event next ⟨reachable, range⟩ stepped
      exact ⟨reachable.step stepped, step_ordinaryRange reachable range stepped⟩
    · refine ⟨⟨memory, [], rfl⟩, fun q ordinary => ?_⟩
      have isInit : q = 1 :=
        (of_decide_eq_true ordinary.1 : q = 0 ∨ q = 1).resolve_left ordinary.2.1
      subst isInit
      have start : (0 : Int) ≤ procMaxDeadline := by decide
      exact ⟨start, le_rfl⟩
  exact all.2

/-! ## Panics -/

theorem tick_idle_ne_panic (reachable : Reachable wrapInt32 k) (idle : k.current = k.idleproc)
    (site : Panic) : k.step wrapInt32 .tick ≠ .error (.panic site) := by
  have quiet : ∀ m : Kernel, m.Inv → m.Clocked → m.current = m.idleproc →
      m.runTimerList wrapInt32 ≠ .error (.panic site) := by
    intro m inv clocked idle panics
    by_cases room : m.TickFits
    · obtain ⟨n, counted, fired⟩ := (countDown_push inv clocked.runs clocked.fits).1 room
      have idleproc : n.idleproc = m.idleproc := (congrArg Kernel.idleproc fired.frame :)
      have listed : m.runTimerList wrapInt32 = m.countDown >>= fun n =>
        n.schedClassProcTick wrapInt32 n.current := rfl
      rw [listed, counted] at panics
      change n.schedClassProcTick wrapInt32 n.current = _ at panics
      rw [schedClassProcTick, if_neg (by rw [fired.current, idleproc]; exact not_not.mpr idle)]
        at panics
      cases panics
    · cases panics.symm.trans (runTimerList_of_full inv clocked room)
  obtain ⟨m, rfl | rfl, ticks, inv, clocked⟩ := step_tick_eq reachable
  · rw [ticks]
    exact quiet m inv clocked idle
  · rw [ticks]
    exact quiet _ inv clocked idle

/-- While the real-time processes meet their deadlines a timer interrupt panics exactly when a
process on the heap that is not real-time has used up its `PROC_MAX_DEADLINE` ticks. -/
theorem tick_panics_iff (reachable : Reachable wrapInt32 k)
    (meets : k.current ≠ k.idleproc → k.RealTimeMeets) :
    (∀ site, k.step wrapInt32 .tick ≠ .error (.panic site)) ↔
      (k.current ≠ k.idleproc → k.TickFits → k.OrdinaryLast) := by
  by_cases idle : k.current = k.idleproc
  · simp [idle, tick_idle_ne_panic reachable idle]
  · have range := reachable_ordinaryRange reachable
    obtain ⟨onTime, realTime⟩ := meets idle
    rw [← not_exists, tick_misses_iff reachable idle]
    simp only [idle, ne_eq, not_false_eq_true, true_implies, onTime, not_true_eq_false, false_or,
      not_and, not_exists, not_not]
    refine forall_congr' fun _ => forall_congr' fun q => forall_congr' fun due => ?_
    cases isRT : (k.procs q).isRT with
    | true => simp [realTime q due isRT]
    | false =>
        rw [age_ordinary (range q (due.ordinary reachable isRT))]
        simp

/-- In a run in which no real-time process misses its deadline `tick_decrease_pt_heap` and
`MY_proc_tick` never panic exactly when at every timer interrupt the processes on the heap that
are not real-time have some of their `PROC_MAX_DEADLINE` ticks left. -/
theorem deadline_panics {memory : ProcPtr → ProcStruct} {events : List Event}
    (meets : Run.Along (step wrapInt32) (fun k event => event = .tick →
      k.current ≠ k.idleproc → k.RealTimeMeets) (boot memory) events) :
    Run.Along (step wrapInt32) (fun k event => event = .tick →
        ∀ site, k.step wrapInt32 .tick ≠ .error (.panic site)) (boot memory) events ↔
      Run.Along (step wrapInt32) (fun k event => event = .tick →
        k.current ≠ k.idleproc → k.TickFits → k.OrdinaryLast) (boot memory) events := by
  refine Run.along_congr (fun k event next => Reachable.step) ?_ ⟨memory, [], rfl⟩ meets
  intro k event reachable given
  exact forall_congr' fun called => tick_panics_iff reachable (given called)

/-- A user process and its child, and one timer interrupt. -/
theorem deadline_panics_forked :
    Run.Along (step wrapInt32) (fun k event => event = .tick → k.current ≠ k.idleproc →
      k.TickFits → k.OrdinaryLast) (boot fun _ => blank)
      (firstUser ++ forked .fork 4 ++ [.tick]) := by
  obtain ⟨k, run, quiet, onTime, isRT, heap⟩ := Run.exec_of_decide
    (fun k : Kernel => expired (countTick k.timerList) = [] ∧
      ¬(((k.procs k.current).serve wrapInt32).pt = 0 ∧
        ((k.procs k.current).serve wrapInt32).ct <
          ((k.procs k.current).serve wrapInt32).computeTime) ∧
      (k.procs 4).isRT = false ∧ k.heap.entry.map HeapEntry.proc = [4])
    (by decide +kernel : (Run.exec (step wrapInt32) (boot fun _ => blank)
      (firstUser ++ forked .fork 4)).map _ = .ok true)
  obtain ⟨k', after⟩ := Run.exec_of_decide (fun _ : Kernel => True)
    (by decide +kernel : (Run.exec (step wrapInt32) (boot fun _ => blank)
      (firstUser ++ forked .fork 4 ++ [.tick])).map _ = .ok true)
  have meets : Run.Along (step wrapInt32) (fun k event => event = .tick →
      k.current ≠ k.idleproc → k.RealTimeMeets) (boot fun _ => blank)
      (firstUser ++ forked .fork 4 ++ [.tick]) := by
    refine Run.along_append (Run.along_of_forall ?_ _) fun middle before => ?_
    · intro event mem state called
      subst called
      exact absurd mem (by decide)
    · cases run.symm.trans before
      refine ⟨fun _ _ => ⟨fun _ => onTime, fun q due realTime => ?_⟩, fun _ _ => trivial⟩
      have queue := (Reachable.inv ⟨_, _, run⟩).others.queue
      have queued := (queue.ready_iff_mem q).mp (due.ready quiet)
      rw [heap, List.mem_singleton] at queued
      cases (queued ▸ realTime).symm.trans isRT
  apply (deadline_panics meets).mp
  refine Run.along_append (Run.along_of_forall ?_ _) fun middle before => ?_
  · intro event mem state called
    subst called
    exact absurd mem (by decide)
  · refine ⟨fun _ site panics => ?_, fun _ _ => trivial⟩
    have ticked : Run.exec (step wrapInt32) middle [.tick] = .ok k' := by
      have all := after.1
      rw [Run.exec_append, before] at all
      exact all
    rw [Run.exec, panics] at ticked
    cases ticked

/-! ## A process that waits too long -/

/-- A process that is not real-time is in the kernel, no timer runs, and the only process that
waits for the processor is `p`, which is not real-time either. -/
structure Starves (k : Kernel) (p : ProcPtr) : Prop where
  reachable : Reachable wrapInt32 k
  inKernel : k.pc ≠ .user
  timers : k.timerList = []
  notIdle : k.current ≠ k.idleproc
  own : (k.procs k.current).isRT = false
  ready : ∀ q, k.Ready q ↔ q = p
  ordinary : (k.procs p).isRT = false

namespace Starves

theorem due (starves : k.Starves p) (q : ProcPtr) : k.Due q ↔ q = p := by
  rw [← starves.ready q]
  constructor
  · intro due
    refine due.ready ?_
    rw [starves.timers]
    rfl
  · exact .inl

theorem realTimeMeets (starves : k.Starves p) : k.RealTimeMeets := by
  constructor
  · intro realTime
    cases realTime.symm.trans starves.own
  · intro q due realTime
    cases (((starves.due q).mp due) ▸ realTime).symm.trans starves.ordinary

/-- A timer interrupt takes a tick from the process that waits. -/
theorem tick (starves : k.Starves p) (lasts : k.OrdinaryLast) :
    ∃ k', k.step wrapInt32 .tick = .ok k' ∧ k'.Starves p ∧
      (k'.procs p).pt = (k.procs p).pt - 1 := by
  have reachable := starves.reachable
  have ready := (starves.ready p).mpr rfl
  have fits : k.TickFits := by
    unfold TickFits
    rw [starves.timers]
    exact reachable.clocked.fits
  have isDue : k.Due p := .inl ready
  have range := reachable_ordinaryRange reachable p (isDue.ordinary reachable starves.ordinary)
  have meets : ∀ q, k.Due q → ((k.procs q).age wrapInt32).MeetsDeadline := by
    intro q due
    obtain rfl := (starves.due q).mp due
    exact (age_ordinary range).mpr (lasts q due starves.ordinary)
  obtain ⟨k', ticked⟩ := (tick_eq_ok_iff reachable starves.notIdle).mpr
    ⟨fits, starves.realTimeMeets.1, meets, p, isDue⟩
  have after := step_ticked reachable ticked
  have frame : k'.untimed = k.untimed := by
    have ticks : k.step wrapInt32 .tick = k.schedClassProcTick wrapInt32 k.current := by
      have quiet : k.runTimerList wrapInt32 = k.schedClassProcTick wrapInt32 k.current := by
        unfold runTimerList
        rw [starves.timers]
        rfl
      rw [← quiet, step, Kernel.tick]
      split
      · rename_i user
        exact absurd user starves.inKernel
      · rfl
    exact schedClassProcTick_untimed reachable.inv.others.queue.nodup (ticks ▸ ticked)
  have current : k'.current = k.current := (congrArg Kernel.current frame :)
  have field : ∀ {α : Type} (f : ProcStruct → α), (∀ s : ProcStruct, f s.untimed = f s) →
      ∀ q, f (k'.procs q) = f (k.procs q) := by
    intro α f same q
    rw [← same, ← same (k.procs q)]
    exact (congrArg (fun m => f (m.procs q)) frame :)
  have contends : ∀ q, k'.Ready q ↔ k.Ready q := by
    intro q
    rw [Ready, Ready, Contends, Contends, field ProcStruct.state fun _ => rfl, after.allocated,
      after.idleproc, current]
  have aged := after.due starves.notIdle p isDue
  refine ⟨k', ticked, ⟨reachable.step ticked, ?_, ?_, ?_, ?_, fun q => ?_, ?_⟩, ?_⟩
  · rw [Kernel.pc, field (fun s => s.kstack.pc) fun _ => rfl, current]
    exact starves.inKernel
  · exact (congrArg Kernel.timerList frame :).trans starves.timers
  · rw [current, after.idleproc]
    exact starves.notIdle
  · rw [(tick_identity reachable ticked _).1, current]
    exact starves.own
  · exact (contends q).trans (starves.ready q)
  · rw [(tick_identity reachable ticked _).1]
    exact starves.ordinary
  · have high : (k.procs p).pt ≤ 7000 := range.2
    have pt : (k'.procs p).pt = wrapInt32 ((k.procs p).pt - 1) :=
      congrArg (fun d => d.2.2.2.2) aged
    rw [pt, ProcStruct.wrapInt32_of_range (by omega) (by omega)]

/-- After as many ticks as the process has left, it has none. -/
theorem wear_out {n : Nat} (starves : k.Starves p) (left : (k.procs p).pt = n) :
    ∃ events k', Run.Along (step wrapInt32) (fun k event => event = .tick →
        k.current ≠ k.idleproc → k.RealTimeMeets) k events ∧
      Run.exec (step wrapInt32) k events = .ok k' ∧ k'.Starves p ∧ ¬k'.OrdinaryLast := by
  induction n generalizing k with
  | zero =>
      refine ⟨[], k, trivial, rfl, starves, fun lasts => ?_⟩
      have some := (lasts p ((starves.due p).mpr rfl) starves.ordinary).1
      exact some left
  | succ n ih =>
      by_cases lasts : k.OrdinaryLast
      · obtain ⟨m, ticked, starves', left'⟩ := starves.tick lasts
        obtain ⟨events, k', along, run, final⟩ := ih starves' (by omega)
        refine ⟨.tick :: events, k', ⟨fun _ _ => starves.realTimeMeets, fun next taken => ?_⟩, ?_,
          final⟩
        · cases ticked.symm.trans taken
          exact along
        · simp only [Run.exec, ticked, run]
      · exact ⟨[], k, trivial, rfl, starves, lasts⟩

end Starves

/-- The first user process and its first child find no page and wait for `kswapd`, which frees
none; the second child waits for the processor. -/
def shortage : List Event :=
  firstUser ++ forked .fork 4 ++ forked .fork 5 ++
    [.pgfault, .noPage, .go 0, .go 0, .pgfault, .noPage, .go 0, .go 0]

theorem shortage_starves :
    ∃ k, Run.exec (step wrapInt32) (boot fun _ => blank) shortage = .ok k ∧
      k.Starves 5 ∧ (k.procs 5).pt = (7000 : Nat) := by
  obtain ⟨k, run, place, timers, notIdle, own, heap, ordinary, left⟩ := Run.exec_of_decide
    (fun k : Kernel => k.pc = .thread .kswapdMain ∧ k.timerList = [] ∧ k.current ≠ k.idleproc ∧
      (k.procs k.current).isRT = false ∧ k.heap.entry.map HeapEntry.proc = [5] ∧
      (k.procs 5).isRT = false ∧ (k.procs 5).pt = 7000)
    (by decide +kernel : (Run.exec (step wrapInt32) (boot fun _ => blank) shortage).map _ =
      .ok true)
  have reachable : Reachable wrapInt32 k := ⟨_, _, run⟩
  refine ⟨k, run, ⟨reachable, ?_, timers, notIdle, own, fun q => ?_, ordinary⟩, left⟩
  · rw [place]
    nofun
  · rw [reachable.inv.others.queue.ready_iff_mem q, heap, List.mem_singleton]

/-- Without any real-time process that misses a deadline another process wears out. -/
theorem deadline_panics_ordinary :
    ¬∀ (memory : ProcPtr → ProcStruct) (events : List Event),
      Run.Along (step wrapInt32) (fun k event => event = .tick →
        k.current ≠ k.idleproc → k.RealTimeMeets) (boot memory) events →
      Run.Along (step wrapInt32) (fun k event => event = .tick →
        ∀ site, k.step wrapInt32 .tick ≠ .error (.panic site)) (boot memory) events := by
  intro claimed
  obtain ⟨k, run, starves, left⟩ := shortage_starves
  obtain ⟨events, k', along, ran, starves', worn⟩ := starves.wear_out left
  have reached : Run.exec (step wrapInt32) (boot fun _ => blank) (shortage ++ events) =
      .ok k' := by
    rw [Run.exec_append, run]
    exact ran
  have meets : Run.Along (step wrapInt32) (fun k event => event = .tick →
      k.current ≠ k.idleproc → k.RealTimeMeets) (boot fun _ => blank)
      (shortage ++ events ++ [.tick]) := by
    refine Run.along_append (Run.along_append (Run.along_of_forall ?_ _) ?_) ?_
    · intro event mem state called
      subst called
      exact absurd mem (by decide)
    · intro middle before
      cases run.symm.trans before
      exact along
    · intro middle before
      cases reached.symm.trans before
      exact ⟨fun _ _ => starves'.realTimeMeets, fun _ _ => trivial⟩
  have quiet := (Run.along_of_append (claimed _ _ meets) reached).1 rfl
  have lasts := (tick_panics_iff starves'.reachable fun _ => starves'.realTimeMeets).mp quiet
  refine worn (lasts starves'.notIdle ?_)
  unfold TickFits
  rw [starves'.timers]
  exact starves'.reachable.clocked.fits

end Kernel

end EdfKernel
