import EdfKernel.Process.Deadlines

/-!
# The deadline clock of real-time processes

`pt` is meant to be the number of ticks to the deadline of the current job.  A timer interrupt
only lowers it for the current process, while its job has compute time left, and for the
processes that it finds on the heap; with the idle process current it lowers none.  The clock of
a process that sleeps stands still.
-/

namespace EdfKernel

open Library

namespace Kernel

variable {wrap : Int → Int} {k k' : Kernel} {event : Event} {q : ProcPtr}

/-- The timer interrupt completes the job of the process. -/
def Completes (wrap : Int → Int) (k : Kernel) (q : ProcPtr) : Prop :=
  k.current ≠ k.idleproc ∧ q = k.current ∧
    ((k.procs q).serve wrap).ct = (k.procs q).computeTime

instance (wrap : Int → Int) (k : Kernel) (q : ProcPtr) : Decidable (k.Completes wrap q) :=
  inferInstanceAs (Decidable (_ ∧ _ ∧ _))

/-- One tick less to the deadline, and one period more after a completed job. -/
def Elapses (wrap : Int → Int) (k : Kernel) (q : ProcPtr) (k' : Kernel) : Prop :=
  wrap (k'.procs q).pt =
    wrap ((k.procs q).pt - 1 + if k.Completes wrap q then (k.procs q).periodTime else 0)

/-- The timer interrupt counts for the process: it is on the processor with compute time left
in its job, or on the heap when the heap is swept. -/
def CountsFor (k : Kernel) (q : ProcPtr) : Prop :=
  k.current ≠ k.idleproc ∧
    ((q = k.current ∧ (k.procs q).ct < (k.procs q).computeTime) ∨ k.Due q)

/-! ## Machine integers -/

theorem wrapInt32_wrap_add (m n : Int) : wrapInt32 (wrapInt32 m + n) = wrapInt32 (m + n) :=
  Int.bmod_add_bmod

@[simp]
theorem wrapInt32_wrapInt32 (n : Int) : wrapInt32 (wrapInt32 n) = wrapInt32 n :=
  Int.bmod_bmod

theorem wrapInt32_add_sub_one_ne (m n : Int) : wrapInt32 (m - 1 + n) ≠ wrapInt32 (m + n) := by
  intro same
  have shifted : wrapInt32 (m + n + -1) = wrapInt32 (m + n + 0) := by
    rw [show m + n + -1 = m - 1 + n by omega, add_zero]
    exact same
  have cancelled : Int.bmod (-1) (2 ^ 32) = Int.bmod 0 (2 ^ 32) :=
    (Int.bmod_add_cancel_left _).mp shifted
  exact absurd cancelled (by decide)

/-! ## One timer interrupt -/

theorem Due.ne_current (due : k.Due q) : q ≠ k.current := by
  rcases due with ready | woken
  · exact ready.2
  · exact (of_decide_eq_true (List.mem_filter.mp woken).2).1

theorem charge_elapses (realTime : (k.procs k.current).isRT = true)
    (notIdle : k.current ≠ k.idleproc)
    (charged : (k'.procs k.current).deadline =
      ((k.procs k.current).charge wrapInt32).deadline) :
    k.Elapses wrapInt32 k.current k' ↔
      (k.procs k.current).ct < (k.procs k.current).computeTime := by
  have pt : (k'.procs k.current).pt = ((k.procs k.current).charge wrapInt32).pt :=
    congrArg (fun d => d.2.2.2.2) charged
  have completes : k.Completes wrapInt32 k.current ↔
      ((k.procs k.current).serve wrapInt32).ct = (k.procs k.current).computeTime := by
    simp [Completes, notIdle]
  unfold Elapses
  rw [pt]
  simp only [completes]
  unfold ProcStruct.charge
  rw [if_neg (by simp [realTime])]
  by_cases unfinished : (k.procs k.current).ct < (k.procs k.current).computeTime
  · simp only [iff_true_intro unfinished, iff_true]
    simp only [ProcStruct.serve, if_pos unfinished]
    split
    · simp [ProcStruct.release, wrapInt32_wrap_add]
    · simp
  · have served : (k.procs k.current).serve wrapInt32 = k.procs k.current := by
      rw [ProcStruct.serve, if_neg unfinished]
    simp only [iff_false_intro unfinished, iff_false, served]
    split
    · simp only [ProcStruct.release, wrapInt32_wrapInt32]
      exact (wrapInt32_add_sub_one_ne _ _).symm
    · exact fun same => wrapInt32_add_sub_one_ne _ 0 (same.symm.trans (by rw [add_zero]))

/-- A timer interrupt counts for a real-time process exactly when it lowers its `pt`. -/
theorem tick_elapses_iff (reachable : Reachable wrapInt32 k)
    (realTime : (k.procs q).isRT = true) (ticked : k.step wrapInt32 .tick = .ok k') :
    k.Elapses wrapInt32 q k' ↔ k.CountsFor q := by
  have after := step_ticked reachable ticked
  have still : ¬k.Completes wrapInt32 q → (k'.procs q).deadline = (k.procs q).deadline →
      ¬k.Elapses wrapInt32 q k' := by
    intro incomplete same elapses
    have pt : (k'.procs q).pt = (k.procs q).pt := congrArg (fun d => d.2.2.2.2) same
    unfold Elapses at elapses
    rw [pt, if_neg incomplete] at elapses
    exact wrapInt32_add_sub_one_ne _ 0 (elapses.symm.trans (by rw [add_zero]))
  by_cases idle : k.current = k.idleproc
  · have incomplete : ¬k.Completes wrapInt32 q := fun completes => completes.1 idle
    simp [CountsFor, idle, still incomplete (after.idle idle q)]
  · by_cases own : q = k.current
    · subst own
      have notDue : ¬k.Due k.current := fun due => due.ne_current rfl
      rw [charge_elapses realTime idle (after.own idle)]
      simp [CountsFor, idle, notDue]
    · have incomplete : ¬k.Completes wrapInt32 q := fun completes => own completes.2.1
      by_cases due : k.Due q
      · have pt : (k'.procs q).pt = wrapInt32 ((k.procs q).pt - 1) :=
          congrArg (fun d => d.2.2.2.2) (after.due idle q due)
        simp [CountsFor, idle, due, Elapses, pt, incomplete]
      · simp [CountsFor, own, due, still incomplete (after.rest idle q own due)]

/-! ## Runs -/

/-- The jobs of the process that a run completes. -/
def jobs (wrap : Int → Int) (q : ProcPtr) : Kernel → List Event → Int
  | _, [] => 0
  | k, event :: events =>
      match k.step wrap event with
      | .error _ => 0
      | .ok next =>
          (if event = .tick ∧ k.Completes wrap q then 1 else 0) + jobs wrap q next events

/-- The step keeps the clock of the process: as a timer interrupt it counts for it, and it does
not set its counters. -/
def KeepsClock (q : ProcPtr) (k : Kernel) (event : Event) : Prop :=
  (event = .tick → k.CountsFor q) ∧ ∀ counters, ¬k.Assigns event q counters

theorem step_realTime (reachable : Reachable wrapInt32 k) (keeps : KeepsClock q k event)
    (stepped : k.step wrapInt32 event = .ok k') :
    (k'.procs q).isRT = (k.procs q).isRT ∧ (k'.procs q).periodTime = (k.procs q).periodTime := by
  have of_deadline : ∀ s s' : ProcStruct, s'.deadline = s.deadline →
      s'.isRT = s.isRT ∧ s'.periodTime = s.periodTime :=
    fun s s' same => ⟨congrArg Prod.fst same, congrArg (fun d => d.2.2.1) same⟩
  by_cases ticks : event = .tick
  · subst ticks
    have after := step_ticked reachable stepped
    obtain ⟨notIdle, ⟨rfl, _⟩ | due⟩ := keeps.1 rfl
    · obtain ⟨isRT, period⟩ := of_deadline _ _ (after.own notIdle)
      rw [isRT, period]
      unfold ProcStruct.charge
      split
      · exact ⟨rfl, rfl⟩
      · split
        · unfold ProcStruct.release ProcStruct.serve
          split <;> exact ⟨rfl, rfl⟩
        · unfold ProcStruct.serve
          split <;> exact ⟨rfl, rfl⟩
    · exact of_deadline ((k.procs q).age wrapInt32) (k'.procs q) (after.due notIdle q due)
  · rcases (step_counters reachable.inv ticks stepped q).kept with ⟨same, _⟩ | assigned
    · exact of_deadline _ _ same
    · exact absurd assigned (keeps.2 _)

theorem step_clock (reachable : Reachable wrapInt32 k) (realTime : (k.procs q).isRT = true)
    (keeps : KeepsClock q k event) (stepped : k.step wrapInt32 event = .ok k') :
    wrapInt32 (k'.procs q).pt = wrapInt32 ((k.procs q).pt - (if event = .tick then 1 else 0) +
      (if event = .tick ∧ k.Completes wrapInt32 q then 1 else 0) * (k.procs q).periodTime) := by
  by_cases ticks : event = .tick
  · subst ticks
    have elapses := (tick_elapses_iff reachable realTime stepped).mpr (keeps.1 rfl)
    unfold Elapses at elapses
    rw [elapses]
    by_cases completes : k.Completes wrapInt32 q
    · simp [completes]
    · simp [completes]
  · rcases (step_counters reachable.inv ticks stepped q).kept with ⟨same, _⟩ | assigned
    · have pt : (k'.procs q).pt = (k.procs q).pt := congrArg (fun d => d.2.2.2.2) same
      simp [ticks, pt]
    · exact absurd assigned (keeps.2 _)

/-- The deadline clock over a run that keeps it. -/
theorem run_clock {events : List Event} (reachable : Reachable wrapInt32 k)
    (realTime : (k.procs q).isRT = true)
    (along : Run.Along (step wrapInt32) (KeepsClock q) k events)
    (run : Run.exec (step wrapInt32) k events = .ok k') :
    wrapInt32 (k'.procs q).pt = wrapInt32 ((k.procs q).pt - events.count .tick +
      jobs wrapInt32 q k events * (k.procs q).periodTime) := by
  induction events generalizing k with
  | nil =>
      cases run
      simp [jobs]
  | cons event events ih =>
      obtain ⟨next, stepped, rest⟩ := Run.exec_cons_eq_ok_iff.mp run
      obtain ⟨isRT, period⟩ := step_realTime reachable along.1 stepped
      have later := ih (reachable.step stepped) (isRT.trans realTime) (along.2 next stepped) rest
      have now := step_clock reachable realTime along.1 stepped
      rw [period] at later
      rw [later, jobs, stepped]
      set done : Int := if event = .tick ∧ k.Completes wrapInt32 q then 1 else 0
      set tick : Int := if event = .tick then 1 else 0
      set left : Int := jobs wrapInt32 q next events * (k.procs q).periodTime - events.count .tick
      have counted : ((event :: events).count .tick : Int) = events.count .tick + tick := by
        rw [List.count_cons]
        by_cases ticks : event = .tick
        · simp [ticks, tick]
        · simp [ticks, tick]
      calc wrapInt32 ((next.procs q).pt - events.count .tick +
            jobs wrapInt32 q next events * (k.procs q).periodTime)
          = wrapInt32 (wrapInt32 (next.procs q).pt + left) := by
            rw [wrapInt32_wrap_add]
            congr 1
            ring
        _ = wrapInt32 (wrapInt32 ((k.procs q).pt - tick + done * (k.procs q).periodTime) +
              left) := by rw [now]
        _ = wrapInt32 ((k.procs q).pt - ((event :: events).count .tick : Int) +
              (done + jobs wrapInt32 q next events) * (k.procs q).periodTime) := by
            rw [wrapInt32_wrap_add, counted]
            congr 1
            ring

/-- The deadline clock of a real-time process.  A timer interrupt lowers `pt` by one, and adds
the period when it completes the job, exactly when the processor is not idle and the process
either has it, with compute time left in its job, or is on the heap when it is swept.  Over a
run of such interrupts `pt` is what it was less the ticks, plus a period for each job. -/
theorem deadline_clock (reachable : Reachable wrapInt32 k) (realTime : (k.procs q).isRT = true) :
    (∀ k', k.step wrapInt32 .tick = .ok k' → (k.Elapses wrapInt32 q k' ↔ k.CountsFor q)) ∧
      ∀ events k', Run.Along (step wrapInt32) (KeepsClock q) k events →
        Run.exec (step wrapInt32) k events = .ok k' →
          wrapInt32 (k'.procs q).pt = wrapInt32 ((k.procs q).pt - events.count .tick +
            jobs wrapInt32 q k events * (k.procs q).periodTime) :=
  ⟨fun _ ticked => tick_elapses_iff reachable realTime ticked,
    fun _ _ along run => run_clock reachable realTime along run⟩

/-- The first user process has the processor, and a child of it waits. -/
theorem deadline_clock_running :
    ∃ k k', Run.exec (step wrapInt32) (boot fun _ => blank) (firstUser ++ forked .fork 4) = .ok k ∧
      k.step wrapInt32 .tick = .ok k' ∧ k.Elapses wrapInt32 3 k' := by
  obtain ⟨k, run, ticks, notIdle, own, realTime, unfinished⟩ := Run.exec_of_decide
    (fun k : Kernel => reason (k.step wrapInt32 .tick) = none ∧ k.current ≠ k.idleproc ∧
      3 = k.current ∧ (k.procs 3).isRT = true ∧ (k.procs 3).ct < (k.procs 3).computeTime)
    (by decide +kernel : (Run.exec (step wrapInt32) (boot fun _ => blank)
      (firstUser ++ forked .fork 4)).map _ = .ok true)
  cases ticked : k.step wrapInt32 .tick with
  | error stop =>
      rw [ticked] at ticks
      cases ticks
  | ok k' =>
      refine ⟨k, k', run, ticked, ?_⟩
      exact ((deadline_clock ⟨_, _, run⟩ realTime).1 k' ticked).mpr
        ⟨notIdle, .inl ⟨own, unfinished⟩⟩

/-- The first user process sleeps with 10 ticks to its deadline while its children run. -/
theorem deadline_clock_stands :
    ¬∀ k k' q, Reachable wrapInt32 k → k.allocated q = true → (k.procs q).state ≠ .zombie →
      (k.procs q).isRT = true → k.step wrapInt32 .tick = .ok k' → k.Elapses wrapInt32 q k' := by
  intro claimed
  obtain ⟨k, run, live, notZombie, realTime, stands⟩ := Run.exec_of_decide
    (fun k : Kernel => k.allocated 3 = true ∧ (k.procs 3).state ≠ .zombie ∧
      (k.procs 3).isRT = true ∧
      (k.step wrapInt32 .tick).map (fun k' => decide ((k.procs 3).pt = 10 ∧
        (k'.procs 3).pt = 10 ∧ ¬k.Completes wrapInt32 3)) = .ok true)
    (by decide +kernel : (Run.exec (step wrapInt32) (boot fun _ => blank)
      (firstUser ++ forked .fork 4 ++ forked .fork 5 ++ [.syscall (.sleep 5), .go 0])).map _ =
        .ok true)
  cases ticked : k.step wrapInt32 .tick with
  | error stop =>
      rw [ticked] at stands
      cases stands
  | ok k' =>
      rw [ticked] at stands
      obtain ⟨before, after, incomplete⟩ := of_decide_eq_true (Except.ok.inj stands)
      have elapses := claimed k k' 3 ⟨_, _, run⟩ live notZombie realTime ticked
      rw [Elapses, before, after, if_neg incomplete] at elapses
      exact absurd elapses (by decide)

end Kernel

end EdfKernel
