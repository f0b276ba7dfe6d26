import EdfKernel.Process.QueueOrder

/-!
# Precedence of real-time processes

`do_fork` gives a process that is not real-time the deadline `PROC_MAX_DEADLINE`, so that
real-time processes are picked before it.  The heap only compares deadlines: periods may be
longer than `PROC_MAX_DEADLINE`, a period is added to `pt` with every job, and the deadline of a
process that waits comes nearer.
-/

namespace EdfKernel

open Library

namespace Kernel

variable {wrap : Int → Int} {k k' : Kernel} {event : Event} {p q : ProcPtr} {pc : Pc}

/-- A runnable real-time process. -/
def RunnableRealTime (k : Kernel) (p : ProcPtr) : Prop :=
  k.Contends p ∧ (k.procs p).isRT = true

/-- A runnable process that is not real-time. -/
def RunnableOrdinary (k : Kernel) (p : ProcPtr) : Prop :=
  k.Contends p ∧ (k.procs p).isRT = false

/-- `schedule` has not picked a process that is not real-time while a real-time one is
runnable. -/
def Precedes (k : Kernel) : Prop :=
  (∃ p, k.RunnableRealTime p) → (k.procs k.current).isRT = true

/-- Some runnable real-time process is due before every runnable process that is not. -/
def RealTimeFirst (k : Kernel) : Prop :=
  ∃ p, k.RunnableRealTime p ∧ ∀ q, k.RunnableOrdinary q → (k.procs p).pt < (k.procs q).pt

/-- Some runnable process that is not real-time is due before every real-time one. -/
def OrdinaryFirst (k : Kernel) : Prop :=
  ∃ q, k.RunnableOrdinary q ∧ ∀ p, k.RunnableRealTime p → (k.procs q).pt < (k.procs p).pt

/-- What `schedule` compares stays the same while it runs. -/
theorem scheduleTo_same (scheduled : k.scheduleTo pc = .ok k') :
    (∀ p, k'.Contends p ↔ k.Contends p) ∧ (∀ p, (k'.procs p).isRT = (k.procs p).isRT) ∧
      ∀ p, (k'.procs p).pt = (k.procs p).pt := by
  have frame : k'.unsched = { (k.goto pc).unsched with current := k'.current } :=
    schedule_unsched scheduled
  have moved : ∀ {α : Type} (f : ProcStruct → α),
      (∀ s : ProcStruct, f { s with kstack := { s.kstack with pc := pc } } = f s) →
        ∀ p, f ((k.goto pc).procs p) = f (k.procs p) :=
    fun f same p => k.modify_field k.current _ f (same _) p
  refine ⟨fun p => ?_, fun p => ?_, fun p => ?_⟩
  · rw [contends_iff_of_unsched frame, Contends, Contends, moved ProcStruct.state fun _ => rfl]
    rfl
  · exact (congrArg (fun m => (m.procs p).isRT) frame :).trans
      (moved ProcStruct.isRT (fun _ => rfl) p)
  · exact (congrArg (fun m => (m.procs p).pt) frame :).trans (moved ProcStruct.pt (fun _ => rfl) p)

theorem goto_foremost (k : Kernel) (pc : Pc) : (k.goto pc).foremost = k.foremost := by
  have moved : ∀ {α : Type} (f : ProcStruct → α),
      (∀ s : ProcStruct, f { s with kstack := { s.kstack with pc := pc } } = f s) →
        ∀ p, f ((k.goto pc).procs p) = f (k.procs p) :=
    fun f same p => k.modify_field k.current _ f (same _) p
  have contends : (k.goto pc).Contends (k.goto pc).current ↔ k.Contends k.current := by
    rw [Contends, Contends, moved ProcStruct.state fun _ => rfl]
    rfl
  simp only [foremost, contends, moved ProcStruct.pt fun _ => rfl]
  rfl

/-- In a run whose timer interrupts keep the order of the queue `schedule` picks a real-time
process if one is due before all runnable processes that are not, and it passes over the
runnable real-time processes if one that is not is due before all of them.  When the first ones
of both kinds are due at once, the top of the heap decides, and the current process comes last. -/
theorem realTime_precedes {memory : ProcPtr → ProcStruct} {events : List Event}
    (along : Run.Along (step wrap) (KeepsOrder wrap) (boot memory) events)
    (run : Run.exec (step wrap) (boot memory) events = .ok k)
    (scheduled : k.scheduleTo pc = .ok k') :
    (((∃ p, k.RunnableRealTime p) → k.RealTimeFirst) → k'.Precedes) ∧
      ((∃ p, k.RunnableRealTime p) → k.OrdinaryFirst → ¬k'.Precedes) ∧
      (k'.Precedes ↔ ((∃ p, k.RunnableRealTime p) → (k.procs k.foremost).isRT = true)) := by
  obtain ⟨contends, isRT, pt⟩ := scheduleTo_same scheduled
  obtain ⟨runs, least, first⟩ := run_first along run scheduled
  have picked : ∀ p, k.Contends p → (k.procs k'.current).pt ≤ (k.procs p).pt := by
    intro p contending
    rw [← pt, ← pt]
    exact least p ((contends p).mpr contending)
  have realTime : ∀ p, k'.RunnableRealTime p ↔ k.RunnableRealTime p := fun p =>
    and_congr (contends p) (by rw [isRT])
  rw [Precedes, isRT, exists_congr realTime]
  refine ⟨?_, ?_, ?_⟩
  · intro first some
    obtain ⟨p, runnable, before⟩ := first some
    by_contra ordinary
    have current : k.RunnableOrdinary k'.current :=
      ⟨(contends _).mp runs, Bool.eq_false_iff.mpr ordinary⟩
    exact absurd (picked p runnable.1) (not_le.mpr (before _ current))
  · rintro some ⟨q, runnable, before⟩ precedes
    have current : k.RunnableRealTime k'.current := ⟨(contends _).mp runs, precedes some⟩
    exact absurd (picked q runnable.1) (not_le.mpr (before _ current))
  · rw [first, goto_foremost]

/-- The first user process and its child, which is not real-time. -/
theorem realTime_precedes_forked :
    ∃ k, Run.exec (step wrapInt32) (boot fun _ => blank) (firstUser ++ forked .fork 4) = .ok k ∧
      ∀ pc k', k.scheduleTo pc = .ok k' → k'.Precedes := by
  obtain ⟨k, run, own, realTime, heap, ordinary, before⟩ := Run.exec_of_decide
    (fun k : Kernel => (k.allocated 3 = true ∧ (k.procs 3).state = .runnable ∧ 3 ≠ k.idleproc) ∧
      (k.procs 3).isRT = true ∧ k.heap.entry.map HeapEntry.proc = [4] ∧ k.current = 3 ∧
      (k.procs 3).pt < (k.procs 4).pt)
    (by decide +kernel : (Run.exec (step wrapInt32) (boot fun _ => blank)
      (firstUser ++ forked .fork 4)).map _ = .ok true)
  have along : Run.Along (step wrapInt32) (KeepsOrder wrapInt32) (boot fun _ => blank)
      (firstUser ++ forked .fork 4) := by
    apply Run.along_of_forall
    intro event mem state called
    subst called
    exact absurd mem (by decide)
  refine ⟨k, run, fun pc k' scheduled => ?_⟩
  refine (realTime_precedes along run scheduled).1 fun _ => ⟨3, ⟨own, realTime⟩, ?_⟩
  intro q other
  have queue := (Reachable.inv ⟨_, _, run⟩).others.queue
  have waits : k.Ready q := by
    refine ⟨other.1, ?_⟩
    rw [ordinary]
    rintro rfl
    cases realTime.symm.trans other.2
  have queued := (queue.ready_iff_mem q).mp waits
  rw [heap, List.mem_singleton] at queued
  exact queued ▸ before

/-- A real-time process with a job of one tick in every 8000 ticks waits, and so does a process
that is not real-time, due in 7000 ticks. -/
theorem realTime_passed_over :
    ¬∀ (memory : ProcPtr → ProcStruct) (events : List Event) (k : Kernel),
      (∀ ct pt, .syscall (.forkRT ct pt) ∈ events → 1 ≤ ct ∧ ct ≤ pt) →
      Run.exec (step wrapInt32) (boot memory) events = .ok k →
      ∀ pc k', k.scheduleTo pc = .ok k' → k'.Precedes := by
  intro claimed
  obtain ⟨k, run, passes⟩ := Run.exec_of_decide
    (fun k : Kernel => (k.scheduleTo (.sleepSched .trap)).map (fun k' =>
      decide ((k'.allocated 5 = true ∧ (k'.procs 5).state = .runnable ∧ 5 ≠ k'.idleproc) ∧
        (k'.procs 5).isRT = true ∧ (k'.procs k'.current).isRT = false)) = .ok true)
    (by decide +kernel : (Run.exec (step wrapInt32) (boot fun _ => blank)
      (firstUser ++ forked .fork 4 ++ forked (.forkRT 1 8000) 5 ++
        [.syscall (.sleep 5)])).map _ = .ok true)
  cases scheduled : k.scheduleTo (.sleepSched .trap) with
  | error stop =>
      rw [scheduled] at passes
      cases passes
  | ok k' =>
      rw [scheduled] at passes
      obtain ⟨runnable, realTime, picked⟩ := of_decide_eq_true (Except.ok.inj passes)
      have arguments : ∀ ct pt, Event.syscall (.forkRT ct pt) ∈
          firstUser ++ forked .fork 4 ++ forked (.forkRT 1 8000) 5 ++ [.syscall (.sleep 5)] →
          1 ≤ ct ∧ ct ≤ pt := by
        intro ct pt mem
        have only : ct = 1 ∧ pt = 8000 := by
          simpa [firstUser, forked] using mem
        omega
      have precedes := claimed _ _ k arguments run _ k' scheduled ⟨5, runnable, realTime⟩
      cases picked.symm.trans precedes

end Kernel

end EdfKernel
