import EdfKernel.Process.DeadlineClock
import EdfKernel.Process.TickReturns

/-!
# The ranges of the deadline counters

`proc.h` gives the ranges `0~compute_time` for `ct` and `period_time~0` for `pt`.  A job that is
completed before its deadline leaves them: the period is added to what is left of the last one.
-/

namespace EdfKernel

open Library

namespace ProcStruct

variable {s s' : ProcStruct}

/-- The counters are in the ranges that `proc.h` gives. -/
def InRange (s : ProcStruct) : Prop :=
  0 ≤ s.ct ∧ s.ct ≤ s.computeTime ∧ 0 ≤ s.pt ∧ s.pt ≤ s.periodTime ∧
    s.periodTime ≤ procMaxDeadline

/-- The ticks to the deadline once the process has had the processor for one more. -/
def remaining (s : ProcStruct) : Int :=
  if s.ct < s.computeTime then s.pt - 1 else s.pt

/-- A tick on the processor completes the job at its deadline, and no earlier, or leaves an
unfinished job some time. -/
def EndsOnTime (s : ProcStruct) : Prop :=
  if s.computeTime ≤ s.ct + 1 then s.remaining ≤ 0 ∧ 0 ≤ s.remaining + s.periodTime
  else 0 ≤ s.remaining

@[simp]
theorem charge_isRT (wrap : Int → Int) (s : ProcStruct) : (s.charge wrap).isRT = s.isRT := by
  unfold charge release serve
  split
  · rfl
  · split <;> split <;> rfl

@[simp]
theorem charge_computeTime (wrap : Int → Int) (s : ProcStruct) :
    (s.charge wrap).computeTime = s.computeTime := by
  unfold charge release serve
  split
  · rfl
  · split <;> split <;> rfl

theorem inRange_congr (same : s'.deadline = s.deadline) : s'.InRange ↔ s.InRange := by
  simp only [deadline, Prod.mk.injEq] at same
  obtain ⟨_, computeTime, periodTime, ct, pt⟩ := same
  rw [InRange, InRange, computeTime, periodTime, ct, pt]

theorem wrapInt32_of_range {n : Int} (low : -2 ^ 31 ≤ n) (high : n < 2 ^ 31) :
    wrapInt32 n = n := by
  unfold wrapInt32
  apply Int.bmod_eq_of_le <;> omega

/-- A tick on the processor keeps the ranges exactly when the job ends on time. -/
theorem charge_inRange_iff (realTime : s.isRT = true) (inRange : s.InRange)
    (int : s.computeTime < 2 ^ 31) : (s.charge wrapInt32).InRange ↔ s.EndsOnTime := by
  obtain ⟨ctLow, ctHigh, ptLow, ptHigh, period⟩ := inRange
  have bound : s.periodTime ≤ 7000 := period
  by_cases unfinished : s.ct < s.computeTime
  · have ct : wrapInt32 (s.ct + 1) = s.ct + 1 := wrapInt32_of_range (by omega) (by omega)
    have pt : wrapInt32 (s.pt - 1) = s.pt - 1 := wrapInt32_of_range (by omega) (by omega)
    have served : s.serve wrapInt32 = { s with ct := s.ct + 1, pt := s.pt - 1 } := by
      rw [serve, if_pos unfinished, ct, pt]
    by_cases done : s.ct + 1 = s.computeTime
    · have next : wrapInt32 (s.pt - 1 + s.periodTime) = s.pt - 1 + s.periodTime :=
        wrapInt32_of_range (by omega) (by omega)
      have charged : s.charge wrapInt32 = { s with
          ct := 0, pt := s.pt - 1 + s.periodTime, needResched := true } := by
        simp [charge, realTime, served, done, release, next]
      rw [charged, InRange, EndsOnTime, if_pos done.ge, remaining, if_pos unfinished]
      simp only
      omega
    · have charged : s.charge wrapInt32 = { s with ct := s.ct + 1, pt := s.pt - 1 } := by
        simp [charge, realTime, served, done]
      rw [charged, InRange, EndsOnTime, if_neg (by omega), remaining, if_pos unfinished]
      simp only
      omega
  · have served : s.serve wrapInt32 = s := by
      rw [serve, if_neg unfinished]
    have done : s.ct = s.computeTime := by omega
    have next : wrapInt32 (s.pt + s.periodTime) = s.pt + s.periodTime :=
      wrapInt32_of_range (by omega) (by omega)
    have charged : s.charge wrapInt32 = { s with
        ct := 0, pt := s.pt + s.periodTime, needResched := true } := by
      simp [charge, realTime, served, done, release, next]
    rw [charged, InRange, EndsOnTime, if_pos (by omega), remaining, if_neg unfinished]
    simp only
    omega

/-- A process that waits for the processor without missing its deadline stays in range. -/
theorem age_inRange (inRange : s.InRange) (meets : (s.age wrapInt32).MeetsDeadline) :
    (s.age wrapInt32).InRange := by
  obtain ⟨ctLow, ctHigh, ptLow, ptHigh, period⟩ := inRange
  have bound : s.periodTime ≤ 7000 := period
  have pt : wrapInt32 (s.pt - 1) = s.pt - 1 := wrapInt32_of_range (by omega) (by omega)
  have notNegative : 0 ≤ s.pt - 1 := by
    have := meets.2
    simp only [age, pt] at this
    omega
  refine ⟨ctLow, ctHigh, ?_, ?_, period⟩
  · simpa only [age, pt] using notNegative
  · simp only [age, pt]
    omega

end ProcStruct

namespace Kernel

variable {k k' : Kernel} {event : Event} {q : ProcPtr}

/-- A live real-time process; the idle process, whose `isRT` nobody sets, is none. -/
def RealTime (k : Kernel) (q : ProcPtr) : Prop :=
  k.allocated q = true ∧ q ≠ k.idleproc ∧ (k.procs q).isRT = true

/-- The counters of every live real-time process are in range. -/
def CountersInRange (k : Kernel) : Prop :=
  ∀ q, k.RealTime q → (k.procs q).InRange

/-- The compute time of every live real-time process is an `int`. -/
def IntBudgets (k : Kernel) : Prop :=
  ∀ q, k.RealTime q → (k.procs q).computeTime < 2 ^ 31

/-- The arguments with which `do_forkRT` goes on when it gets a descriptor. -/
def forkRTArgs (k : Kernel) : Event → Option (Int × Int)
  | .go _ =>
      match k.pc with
      | .work (.fork _ (.realTime ct pt) _) => some (ct, pt)
      | _ => none
  | _ => none

/-- `do_forkRT` gets a budget that is an `int` and not negative and a period up to
`PROC_MAX_DEADLINE`, and the job of the process that a timer interrupt charges ends on time. -/
def KeepsRange (k : Kernel) (event : Event) : Prop :=
  (∀ args ∈ k.forkRTArgs event,
    0 ≤ args.1 ∧ args.1 < 2 ^ 31 ∧ 0 ≤ args.2 ∧ args.2 ≤ procMaxDeadline) ∧
  (event = .tick → k.current ≠ k.idleproc → (k.procs k.current).isRT = true →
    (k.procs k.current).EndsOnTime)

instance (s : ProcStruct) : Decidable s.EndsOnTime :=
  inferInstanceAs (Decidable (if s.computeTime ≤ s.ct + 1 then
    s.remaining ≤ 0 ∧ 0 ≤ s.remaining + s.periodTime else 0 ≤ s.remaining))

instance (k : Kernel) (event : Event) : Decidable (k.KeepsRange event) :=
  inferInstanceAs (Decidable (_ ∧ _))

theorem realTime_of_deadline (idleproc : k'.idleproc = k.idleproc)
    (allocated : k'.allocated q = true → k.allocated q = true)
    (isRT : (k'.procs q).isRT = (k.procs q).isRT) (realTime : k'.RealTime q) : k.RealTime q :=
  ⟨allocated realTime.1, idleproc ▸ realTime.2.1, isRT ▸ realTime.2.2⟩

/-! ## The timer interrupt -/

section Tick

variable (reachable : Reachable wrapInt32 k) (ticked : k.step wrapInt32 .tick = .ok k')
include reachable ticked

theorem tick_identity (q : ProcPtr) :
    (k'.procs q).isRT = (k.procs q).isRT ∧ (k'.procs q).computeTime = (k.procs q).computeTime := by
  have after := step_ticked reachable ticked
  have of_deadline : ∀ s s' : ProcStruct, s'.deadline = s.deadline →
      s'.isRT = s.isRT ∧ s'.computeTime = s.computeTime :=
    fun s s' same => ⟨congrArg Prod.fst same, congrArg (fun d => d.2.1) same⟩
  by_cases idle : k.current = k.idleproc
  · exact of_deadline _ _ (after.idle idle q)
  · by_cases own : q = k.current
    · subst own
      obtain ⟨isRT, computeTime⟩ := of_deadline _ _ (after.own idle)
      rw [isRT, computeTime]
      exact ⟨ProcStruct.charge_isRT _ _, ProcStruct.charge_computeTime _ _⟩
    · by_cases due : k.Due q
      · exact of_deadline ((k.procs q).age wrapInt32) _ (after.due idle q due)
      · exact of_deadline _ _ (after.rest idle q own due)

theorem tick_realTime_iff (q : ProcPtr) : k'.RealTime q ↔ k.RealTime q := by
  have after := step_ticked reachable ticked
  rw [RealTime, RealTime, after.allocated, after.idleproc, (tick_identity reachable ticked q).1]

theorem tick_intBudgets (ints : k.IntBudgets) : k'.IntBudgets := by
  intro q realTime
  rw [(tick_identity reachable ticked q).2]
  exact ints q ((tick_realTime_iff reachable ticked q).mp realTime)

/-- A timer interrupt keeps the ranges exactly when the job that it charges ends on time. -/
theorem tick_inRange_iff (inRange : k.CountersInRange) (ints : k.IntBudgets) :
    k'.CountersInRange ↔ (k.current ≠ k.idleproc → (k.procs k.current).isRT = true →
      (k.procs k.current).EndsOnTime) := by
  have after := step_ticked reachable ticked
  have live : k.allocated k.current = true := reachable.inv.others.allocated
  have own : ∀ (notIdle : k.current ≠ k.idleproc) (isRT : (k.procs k.current).isRT = true),
      (k'.procs k.current).InRange ↔ (k.procs k.current).EndsOnTime := by
    intro notIdle isRT
    have realTime : k.RealTime k.current := ⟨live, notIdle, isRT⟩
    rw [ProcStruct.inRange_congr (after.own notIdle)]
    exact ProcStruct.charge_inRange_iff isRT (inRange _ realTime) (ints _ realTime)
  constructor
  · intro kept notIdle isRT
    have realTime : k.RealTime k.current := ⟨live, notIdle, isRT⟩
    exact (own notIdle isRT).mp (kept _ ((tick_realTime_iff reachable ticked _).mpr realTime))
  · intro onTime q realTime'
    have realTime := (tick_realTime_iff reachable ticked q).mp realTime'
    by_cases idle : k.current = k.idleproc
    · exact (ProcStruct.inRange_congr (after.idle idle q)).mpr (inRange q realTime)
    · by_cases isOwn : q = k.current
      · subst isOwn
        exact (own idle realTime.2.2).mpr (onTime idle realTime.2.2)
      · by_cases due : k.Due q
        · have meets := ((tick_eq_ok_iff reachable idle).mp ⟨k', ticked⟩).2.2.1 q due
          exact (ProcStruct.inRange_congr (after.due idle q due)).mpr
            (ProcStruct.age_inRange (inRange q realTime) meets)
        · exact (ProcStruct.inRange_congr (after.rest idle q isOwn due)).mpr (inRange q realTime)

end Tick

/-! ## The other steps -/

theorem step_inRange (reachable : Reachable wrapInt32 k) (inRange : k.CountersInRange)
    (ints : k.IntBudgets) (keeps : k.KeepsRange event)
    (stepped : k.step wrapInt32 event = .ok k') : k'.CountersInRange ∧ k'.IntBudgets := by
  by_cases ticks : event = .tick
  · subst ticks
    exact ⟨(tick_inRange_iff reachable stepped inRange ints).mpr (keeps.2 rfl),
      tick_intBudgets reachable stepped ints⟩
  · have all : ∀ q, k'.RealTime q →
        (k'.procs q).InRange ∧ (k'.procs q).computeTime < 2 ^ 31 := by
      intro q realTime'
      obtain ⟨idleproc, ⟨same, allocated⟩ | assigned⟩ :=
        step_counters reachable.inv ticks stepped q
      · have realTime := realTime_of_deadline idleproc allocated (congrArg Prod.fst same) realTime'
        have computeTime : (k'.procs q).computeTime = (k.procs q).computeTime :=
          congrArg (fun d => d.2.1) same
        rw [ProcStruct.inRange_congr same, computeTime]
        exact ⟨inRange q realTime, ints q realTime⟩
      · have isRT := realTime'.2.2
        generalize counters : (k'.procs q).deadline = d at assigned
        cases assigned with
        | @fork flags kind caller q source free =>
            have new : ∀ ct pt, kind = .realTime ct pt →
                (k'.procs q).InRange ∧ (k'.procs q).computeTime < 2 ^ 31 := by
              rintro ct pt rfl
              have args : (ct, pt) ∈ k.forkRTArgs (.go q) := by simp [forkRTArgs, source]
              obtain ⟨ctLow, ctHigh, ptLow, ptHigh⟩ := keeps.1 _ args
              simp only [ProcStruct.deadline, forkDeadline, Prod.mk.injEq] at counters
              obtain ⟨_, computeTime, periodTime, isCt, isPt⟩ := counters
              rw [ProcStruct.InRange, computeTime, periodTime, isCt, isPt]
              exact ⟨⟨le_rfl, ctLow, ptLow, le_rfl, ptHigh⟩, ctHigh⟩
            cases kind with
            | realTime ct pt => exact new ct pt rfl
            | user => cases isRT.symm.trans (congrArg Prod.fst counters :)
            | kernel fn => cases isRT.symm.trans (congrArg Prod.fst counters :)
        | execve source =>
            simp only [ProcStruct.deadline, Prod.mk.injEq] at counters
            obtain ⟨_, computeTime, periodTime, ct, pt⟩ := counters
            rw [ProcStruct.InRange, computeTime, periodTime, ct, pt]
            decide
    exact ⟨fun q realTime => (all q realTime).1, fun q realTime => (all q realTime).2⟩

theorem boot_not_realTime (memory : ProcPtr → ProcStruct) : ¬(boot memory).RealTime q := by
  rintro ⟨live, notIdle, realTime⟩
  have isInit : q = 1 := (of_decide_eq_true live : q = 0 ∨ q = 1).resolve_left notIdle
  subst isInit
  cases realTime

/-! ## Every run -/

/-- In a run in which `do_forkRT` only gets the arguments that `proc.h` allows, and in which
every job that a timer interrupt charges ends on time, the counters stay in the ranges that
`proc.h` gives; the next timer interrupt keeps them there exactly when the job that it charges
ends on time. -/
theorem counters_in_range {memory : ProcPtr → ProcStruct} {events : List Event}
    (along : Run.Along (step wrapInt32) KeepsRange (boot memory) events)
    (run : Run.exec (step wrapInt32) (boot memory) events = .ok k) :
    k.CountersInRange ∧
      ∀ k', k.step wrapInt32 .tick = .ok k' →
        (k'.CountersInRange ↔ (k.current ≠ k.idleproc → (k.procs k.current).isRT = true →
          (k.procs k.current).EndsOnTime)) := by
  have all : Reachable wrapInt32 k ∧ k.CountersInRange ∧ k.IntBudgets := by
    refine @Run.exec_invariant_along _ _ _ (step wrapInt32)
      (fun k => Reachable wrapInt32 k ∧ k.CountersInRange ∧ k.IntBudgets) KeepsRange
        ?_ _ _ _ ?_ along run
    · rintro k event next ⟨reachable, inRange, ints⟩ keeps stepped
      exact ⟨reachable.step stepped, step_inRange reachable inRange ints keeps stepped⟩
    · exact ⟨⟨memory, [], rfl⟩, fun q realTime => absurd realTime (boot_not_realTime memory),
        fun q realTime => absurd realTime (boot_not_realTime memory)⟩
  exact ⟨all.2.1, fun k' ticked => tick_inRange_iff all.1 ticked all.2.1 all.2.2⟩

/-- The first user process creates a real-time process with a job of one tick in every tick,
and sleeps; the new process completes its jobs on time. -/
def onTime : List Event :=
  firstUser ++ forked (.forkRT 1 1) 4 ++ forked .fork 5 ++
    [.syscall (.sleep 5), .go 0, .go 0, .tick, .go 0, .go 0, .go 0, .tick]

theorem counters_in_range_one :
    ∃ k, Run.exec (step wrapInt32) (boot fun _ => blank) onTime = .ok k ∧ k.CountersInRange := by
  obtain ⟨k, run, _⟩ := Run.exec_of_decide (fun k : Kernel => k.current = 4)
    (by decide +kernel : (Run.exec (step wrapInt32) (boot fun _ => blank) onTime).map _ = .ok true)
  have along : Run.Along (step wrapInt32) KeepsRange (boot fun _ => blank) onTime := by
    decide +kernel
  exact ⟨k, run, (counters_in_range along run).1⟩

/-- A real-time process with a job of one tick in every 10 ticks has completed a job after one
tick, and its deadline is 19 ticks away. -/
theorem counters_out_of_range :
    ¬∀ k k', Reachable wrapInt32 k → k.step wrapInt32 .tick = .ok k' → k'.CountersInRange := by
  intro claimed
  obtain ⟨k, run, live, notIdle, realTime, leaves⟩ := Run.exec_of_decide
    (fun k : Kernel => k.allocated 4 = true ∧ 4 ≠ k.idleproc ∧ (k.procs 4).isRT = true ∧
      (k.step wrapInt32 .tick).map (fun k' => decide ((k'.procs 4).periodTime = 10 ∧
        (k'.procs 4).pt = 19)) = .ok true)
    (by decide +kernel : (Run.exec (step wrapInt32) (boot fun _ => blank)
      (firstUser ++ forked (.forkRT 1 10) 4 ++ forked .fork 5 ++
        [.syscall (.sleep 5), .go 0, .go 0])).map _ = .ok true)
  cases ticked : k.step wrapInt32 .tick with
  | error stop =>
      rw [ticked] at leaves
      cases leaves
  | ok k' =>
      rw [ticked] at leaves
      obtain ⟨period, pt⟩ := of_decide_eq_true (Except.ok.inj leaves)
      have reachable : Reachable wrapInt32 k := ⟨_, _, run⟩
      have stays := (tick_realTime_iff reachable ticked 4).mpr ⟨live, notIdle, realTime⟩
      obtain ⟨_, _, _, inPeriod, _⟩ := claimed k k' reachable ticked 4 stays
      rw [period, pt] at inPeriod
      exact absurd inPeriod (by decide)

end Kernel

end EdfKernel
