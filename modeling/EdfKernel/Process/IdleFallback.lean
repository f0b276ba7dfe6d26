import EdfKernel.Process.Reachable

/-!
# Nothing left to run

`schedule` goes to the idle process when `pick_next` returns no process.  The
deadline class never returns none: `MY_pick_next` panics on an empty heap.
-/

namespace EdfKernel

open Library

/-- The places where a process that exits, waits for a child, sleeps or waits for
memory calls `schedule`. -/
def Pc.blocks : Pc → Bool
  | .waitMark .. => true
  | .sleepMark _ => true
  | .freeMark _ => true
  | .exitSched => true
  | _ => false

namespace Kernel

variable {wrap : Int → Int} {k k' : Kernel}

/-- At these places the current process calls `schedule` and does nothing else. -/
theorem go_of_blocks (blocks : k.pc.blocks = true) (address : Nat) :
    ∃ pc, k.go address = k.scheduleTo pc := by
  unfold go
  cases place : k.pc with
  | waitMark pid caller => exact ⟨_, rfl⟩
  | sleepMark caller => exact ⟨_, rfl⟩
  | freeMark w => exact ⟨_, rfl⟩
  | exitSched => exact ⟨_, rfl⟩
  | _ =>
      rw [place] at blocks
      contradiction

/-- Without a queued process `schedule` can only go on with the current one. -/
theorem scheduleTo_of_empty (empty : k.heap.entry = [])
    (notRunnable : (k.procs k.current).state ≠ .runnable) (pc : Pc) :
    k.scheduleTo pc = .error (.panic .pickNextEmpty) := by
  have state : ((k.goto pc).procs (k.goto pc).current).state ≠ .runnable := by
    simpa [goto] using notRunnable
  have requeued : (k.goto pc).requeue = .ok (k.goto pc).clearResched := by
    rw [requeue_eq, if_neg state]
  have pick : (k.goto pc).clearResched.myPickNext = .error (.panic .pickNextEmpty) := by
    have heap : (k.goto pc).clearResched.heap.entry = [] := empty
    simp [myPickNext, heapEmpty, heap]
  simp [scheduleTo, schedule, requeued, switchNext, pick, bind, Except.bind]

theorem Inv.alone (inv : k.Inv) (empty : k.heap.entry = []) (p : ProcPtr) : ¬k.Ready p := by
  intro ready
  have mem := (inv.others.queue.mem_iff p).mpr ready
  rw [empty] at mem
  contradiction

theorem Inv.heap_empty (inv : k.Inv) (alone : ∀ p, ¬k.Ready p) : k.heap.entry = [] := by
  rw [← List.map_eq_nil_iff, List.eq_nil_iff_forall_not_mem]
  exact fun p mem => alone p ((inv.others.queue.mem_iff p).mp mem)

theorem Inv.scheduleTo_ne_idle (inv : k.Inv) {pc : Pc} (scheduled : k.scheduleTo pc = .ok k') :
    k'.current ≠ k'.idleproc := by
  have queue : RunQueue (k.goto pc) := inv.others.queue.modify_current _
  have allocated := inv.others.table.allocated k.current inv.others.current
  exact (queue.schedule allocated scheduled).2.2.2

/-- When a process gives up the processor and no other process is runnable,
`schedule` panics in `MY_pick_next`; no call of `schedule` goes to the idle process. -/
theorem idle_unreachable (reachable : Reachable wrap k) (blocks : k.pc.blocks = true)
    (alone : ∀ p, ¬k.Ready p) (address : Nat) :
    ((k.procs k.current).state ≠ .runnable →
        k.go address = .error (.panic .pickNextEmpty)) ∧
      ∀ k', k.go address = .ok k' → k'.current ≠ k'.idleproc := by
  obtain ⟨pc, gone⟩ := go_of_blocks blocks address
  rw [gone]
  constructor
  · exact fun notRunnable => scheduleTo_of_empty (reachable.inv.heap_empty alone) notRunnable pc
  · exact fun k' scheduled => reachable.inv.scheduleTo_ne_idle scheduled

/-- The only user process sleeps while the init process waits for it. -/
theorem sleep_alone :
    ∃ k, Run.exec (step wrapInt32) (boot fun _ => blank) (firstUser ++ [.syscall (.sleep 5)]) =
        .ok k ∧
      k.pc = .sleepMark .trap ∧ k.heap.entry = [] ∧ (k.procs k.current).state = .sleeping :=
  Run.exec_of_decide _ (by decide +kernel)

theorem idle_unreachable_sleep :
    ∃ k, Run.exec (step wrapInt32) (boot fun _ => blank) (firstUser ++ [.syscall (.sleep 5)]) =
        .ok k ∧
      k.pc = .sleepMark .trap ∧ (∀ p, ¬k.Ready p) ∧
      k.go 0 = .error (.panic .pickNextEmpty) := by
  obtain ⟨k, run, place, empty, asleep⟩ := sleep_alone
  have reachable : Reachable wrapInt32 k := ⟨_, _, run⟩
  have alone := reachable.inv.alone empty
  have blocks : k.pc.blocks = true := by
    rw [place]
    rfl
  have stops := (idle_unreachable reachable blocks alone 0).1 (by rw [asleep]; decide)
  exact ⟨k, run, place, alone, stops⟩

/-- In that state no other process is runnable, and `schedule` does not go to the idle
process. -/
theorem idle_fallback_fails :
    ¬∀ k, Reachable wrapInt32 k → k.pc.blocks = true →
      (k.procs k.current).state ≠ .runnable → (∀ p, ¬k.Ready p) →
      ∃ k', k.go 0 = .ok k' ∧ k'.current = k'.idleproc := by
  intro fallback
  obtain ⟨k, run, place, empty, asleep⟩ := sleep_alone
  have reachable : Reachable wrapInt32 k := ⟨_, _, run⟩
  have blocks : k.pc.blocks = true := by
    rw [place]
    rfl
  have notRunnable : (k.procs k.current).state ≠ .runnable := by
    rw [asleep]
    decide
  obtain ⟨pc, gone⟩ := go_of_blocks blocks 0
  obtain ⟨k', scheduled, _⟩ := fallback k reachable blocks notRunnable (reachable.inv.alone empty)
  rw [gone, scheduleTo_of_empty empty notRunnable pc] at scheduled
  cases scheduled

end Kernel

end EdfKernel
