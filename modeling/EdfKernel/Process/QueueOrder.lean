import EdfKernel.Process.IdleFallback
import EdfKernel.Process.TickReturns
import Mathlib.Algebra.Group.Int.Defs

/-!
# The order of the queue

`tick_decrease_pt_heap` decreases the keys in place and does not restore the heap.  The
order survives as long as the decrement is monotone on the keys that are queued: when
`pt` wraps around for one of them, the others may now be due before it.
-/

namespace EdfKernel

open Library

namespace Kernel

variable {wrap : Int → Int} {k k' m : Kernel} {event : Event} {p q : ProcPtr} {pc : Pc}

/-- The timer interrupt decreases the deadlines of the queue without changing their order. -/
def KeepsOrder (wrap : Int → Int) (k : Kernel) (event : Event) : Prop :=
  event = .tick → k.current ≠ k.idleproc → ∀ p q, k.Due p → k.Due q →
    (k.procs p).pt ≤ (k.procs q).pt → wrap ((k.procs p).pt - 1) ≤ wrap ((k.procs q).pt - 1)

/-! ## The timer interrupt -/

theorem fireTimers_ordered {fuel : Nat} (ordered : k.heap.Ordered)
    (fired : fireTimers fuel k = .ok k') : k'.heap.Ordered := by
  induction fuel generalizing k with
  | zero =>
      cases fired
      exact ordered
  | succ fuel ih =>
      unfold fireTimers at fired
      split at fired
      · cases fired
        exact ordered
      · rename_i timer rest list
        split at fired
        · cases fired
          exact ordered
        · split at fired
          · cases fired
          · obtain ⟨m, woken, after⟩ := bind_eq_ok_iff.mp fired
            have orderedWoken : m.heap.Ordered := wakeupProc_ordered ordered woken
            exact @ih (m.setTimers rest) orderedWoken after

theorem countDown_ordered (ordered : k.heap.Ordered) (counted : k.countDown = .ok k') :
    k'.heap.Ordered := by
  unfold countDown at counted
  split at counted
  · cases counted
    exact ordered
  · rename_i timer rest list
    split at counted
    · cases counted
    · exact @fireTimers_ordered (k.setTimers ({ timer with expires := timer.expires - 1 } :: rest))
        _ _ ordered counted

theorem runTimerList_ordered (inv : k.Inv) (clocked : k.Clocked) (ordered : k.heap.Ordered)
    (keeps : k.KeepsOrder wrap .tick) (ticked : k.runTimerList wrap = .ok k') :
    k'.heap.Ordered := by
  obtain ⟨m, counted, charged⟩ := bind_eq_ok_iff.mp ticked
  change k.countDown = .ok m at counted
  have orderedThere := countDown_ordered ordered counted
  have queue := (countDown_spec inv.others.queue inv.timersWait counted).2
  have pushes := countDown_push inv clocked.runs clocked.fits
  by_cases room : k.TickFits
  · obtain ⟨m', counted', fired⟩ := pushes.1 room
    cases counted.symm.trans counted'
    have idleproc : m.idleproc = k.idleproc := (congrArg Kernel.idleproc fired.frame :)
    have pt : ∀ q, (m.procs q).pt = (k.procs q).pt :=
      fun q => (congrArg (fun m => (m.procs q).pt) fired.frame :)
    have due : ∀ e ∈ m.heap.entry, k.Due e.proc := fun e mem =>
      (fired.ready inv e.proc).mp (queue.member_of_mem mem)
    change m.schedClassProcTick wrap m.current = .ok k' at charged
    unfold schedClassProcTick at charged
    split at charged
    · rename_i notIdle
      refine myProcTick_ordered queue.nodup orderedThere ?_ charged
      intro e mem e' mem' le
      rw [queue.key e mem, queue.key e' mem', pt, pt] at le ⊢
      rw [fired.current, idleproc] at notIdle
      exact keeps rfl notIdle e.proc e'.proc (due e mem) (due e' mem') le
    · cases charged
      exact orderedThere
  · cases counted.symm.trans (pushes.2 (not_le.mp room))

theorem KeepsOrder.goto (keeps : k.KeepsOrder wrap event) (pc : Pc) :
    (k.goto pc).KeepsOrder wrap event := by
  intro called notIdle p q due due'
  have pt : ∀ q, ((k.goto pc).procs q).pt = (k.procs q).pt :=
    k.modify_field k.current _ ProcStruct.pt rfl
  rw [pt, pt]
  exact keeps called notIdle p q ((k.goto_due pc p).mp due) ((k.goto_due pc q).mp due')

/-! ## Every run that keeps the order -/

theorem Turns.ordered (inv : k.Inv) (clocked : k.Clocked) (ordered : k.heap.Ordered)
    (keeps : k.KeepsOrder wrap event) (turns : k.Turns wrap event k') : k'.heap.Ordered := by
  cases turns with
  | tick m called start ticked =>
      subst called
      rcases start with rfl | ⟨user, rfl⟩
      · exact runTimerList_ordered inv clocked ordered keeps ticked
      · have moves : k.pc.Moves k.flagged .tail := user ▸ .userTail
        have there := inv.move moves (goto_movedTo k _ (by rintro ⟨⟩))
        have clockedThere : (k.goto .tail).Clocked := ⟨clocked.runs, clocked.fits⟩
        exact runTimerList_ordered there clockedThere ordered (keeps.goto .tail) ticked
  | schedule pc parks scheduled => exact @schedule_ordered (k.goto pc) _ ordered scheduled
  | wakes timers list wakes => exact wakes.ordered ordered

theorem boot_ordered (memory : ProcPtr → ProcStruct) : (boot memory).heap.Ordered := by
  intro i positive inRange
  change i < 1 at inRange
  omega

theorem run_ordered {memory : ProcPtr → ProcStruct} {events : List Event}
    (along : Run.Along (step wrap) (KeepsOrder wrap) (boot memory) events)
    (run : Run.exec (step wrap) (boot memory) events = .ok k) : k.heap.Ordered := by
  have all : Reachable wrap k ∧ k.heap.Ordered := by
    refine @Run.exec_invariant_along _ _ _ (step wrap)
      (fun k => Reachable wrap k ∧ k.heap.Ordered) (KeepsOrder wrap) ?_ _ _ _ ?_ along run
    · rintro k event next ⟨reachable, ordered⟩ keeps stepped
      have turns := (Transition.of_step stepped).turns reachable.inv
      exact ⟨reachable.step stepped,
        turns.ordered reachable.inv reachable.clocked ordered keeps⟩
    · exact ⟨⟨memory, [], rfl⟩, boot_ordered memory⟩
  exact all.2

end Kernel

/-! ## The picked process -/

/-- `MY_dequeue` removes the process that `MY_pick_next` has returned, and no other. -/
theorem Queued.dequeue_picked {k : Kernel} {member : ProcPtr → Prop} {next : ProcPtr}
    (queued : Queued k member) (picked : k.myPickNext = .ok (some next)) :
    ∃ k', k.myDequeue next = .ok k' ∧ k'.procs = k.procs ∧
      (k.heap.entry.map HeapEntry.proc).Perm (next :: k'.heap.entry.map HeapEntry.proc) := by
  obtain ⟨nonempty, top⟩ := Kernel.myPickNext_eq_ok_iff.mp picked
  cases top
  have perm := ((heapPop_spec nonempty).1).map HeapEntry.proc
  rw [heapPop_fst] at perm
  exact ⟨_, queued.myDequeue_top nonempty, rfl, perm⟩

namespace Kernel

variable {wrap : Int → Int} {k k' m : Kernel} {event : Event} {p q : ProcPtr} {pc : Pc}

/-- In every reachable state the heap holds each process that waits for the processor once, under
its deadline, and nothing besides, and the process that is picked is the one that is removed. -/
theorem queue_exact (reachable : Reachable wrap k) :
    ((∀ p, (k.heap.entry.map HeapEntry.proc).count p = 1 ↔
          k.allocated p = true ∧ (k.procs p).state = .runnable ∧ p ≠ k.current ∧
            p ≠ k.idleproc) ∧
        (∀ p, (k.heap.entry.map HeapEntry.proc).count p ≤ 1) ∧
        (∀ e ∈ k.heap.entry, e.x = (k.procs e.proc).pt) ∧ k.procNum = k.heap.entry.length) ∧
      ∀ pc m next, (k.goto pc).requeue = .ok m → m.myPickNext = .ok (some next) →
        ∃ m', m.myDequeue next = .ok m' ∧ m'.procs = m.procs ∧
          (m.heap.entry.map HeapEntry.proc).Perm (next :: m'.heap.entry.map HeapEntry.proc) := by
  have inv := reachable.inv
  have queue := inv.others.queue
  have there : ∀ pc, RunQueue (k.goto pc) := fun pc => queue.modify_current _
  have allocated : k.allocated k.current = true :=
    inv.others.table.allocated k.current inv.others.current
  have once : ∀ p, (k.heap.entry.map HeapEntry.proc).count p ≤ 1 :=
    List.nodup_iff_count_le_one.mp queue.nodup
  refine ⟨⟨fun p => ?_, once, queue.key, queue.count⟩, ?_⟩
  · have present : (k.heap.entry.map HeapEntry.proc).count p = 1 ↔ k.Ready p := by
      rw [← queue.mem_iff, ← List.count_pos_iff]
      have := once p
      omega
    rw [present, Ready, Contends]
    tauto
  · intro pc m next requeued picked
    exact ((there pc).requeue allocated requeued).dequeue_picked picked

/-- In a run whose timer interrupts keep the order of the queue `schedule` picks a process of
least deadline. -/
theorem run_first {memory : ProcPtr → ProcStruct} {events : List Event}
    (along : Run.Along (step wrap) (KeepsOrder wrap) (boot memory) events)
    (run : Run.exec (step wrap) (boot memory) events = .ok k)
    (scheduled : k.scheduleTo pc = .ok k') :
    k'.Contends k'.current ∧ (∀ p, k'.Contends p → (k'.procs k'.current).pt ≤ (k'.procs p).pt) ∧
      k'.current = (k.goto pc).foremost := by
  have inv := Reachable.inv ⟨memory, events, run⟩
  have queue : RunQueue (k.goto pc) := inv.others.queue.modify_current _
  have allocated : k.allocated k.current = true :=
    inv.others.table.allocated k.current inv.others.current
  have ordered : k.heap.Ordered := run_ordered along run
  exact ⟨(queue.schedule allocated scheduled).2,
    queue.schedule_first ordered allocated scheduled,
    RunQueue.schedule_foremost ordered allocated scheduled⟩

/-- The heap holds each process that waits for the processor once, under its deadline, and
nothing besides; the process that is picked is the one that is removed; and in a run whose
timer interrupts keep the order of the queue `schedule` picks a process of least deadline. -/
theorem run_queue_edf {memory : ProcPtr → ProcStruct} {events : List Event}
    (along : Run.Along (step wrap) (KeepsOrder wrap) (boot memory) events)
    (run : Run.exec (step wrap) (boot memory) events = .ok k) :
    ((∀ p, (k.heap.entry.map HeapEntry.proc).count p = 1 ↔
          k.allocated p = true ∧ (k.procs p).state = .runnable ∧ p ≠ k.current ∧
            p ≠ k.idleproc) ∧
        (∀ p, (k.heap.entry.map HeapEntry.proc).count p ≤ 1) ∧
        (∀ e ∈ k.heap.entry, e.x = (k.procs e.proc).pt) ∧ k.procNum = k.heap.entry.length) ∧
      (∀ pc m next, (k.goto pc).requeue = .ok m → m.myPickNext = .ok (some next) →
        ∃ m', m.myDequeue next = .ok m' ∧ m'.procs = m.procs ∧
          (m.heap.entry.map HeapEntry.proc).Perm (next :: m'.heap.entry.map HeapEntry.proc)) ∧
      ∀ pc k', k.scheduleTo pc = .ok k' →
        k'.Contends k'.current ∧
          ∀ p, k'.Contends p → (k'.procs k'.current).pt ≤ (k'.procs p).pt := by
  obtain ⟨held, removed⟩ := queue_exact ⟨memory, events, run⟩
  refine ⟨held, removed, fun pc k' scheduled => ?_⟩
  obtain ⟨contends, least, _⟩ := run_first along run scheduled
  exact ⟨contends, least⟩

/-- Deadlines that are not the least machine integer keep their order. -/
theorem keepsOrder_of_range
    (range : ∀ p, k.Due p → -2 ^ 31 < (k.procs p).pt ∧ (k.procs p).pt < 2 ^ 31) :
    k.KeepsOrder wrapInt32 event := by
  intro _ _ p q due due' le
  have exact : ∀ p, k.Due p → wrapInt32 ((k.procs p).pt - 1) = (k.procs p).pt - 1 := by
    intro p due
    have bounds := range p due
    unfold wrapInt32
    apply Int.bmod_eq_of_le <;> omega
  rw [exact p due, exact q due']
  omega

/-- While no timer runs out with the next tick, only processes on the heap are due. -/
theorem Due.ready (due : k.Due p) (quiet : expired (countTick k.timerList) = []) : k.Ready p := by
  rcases due with ready | woken
  · exact ready
  · rw [sleepers, quiet] at woken
    cases woken

/-- A user process and its child, and one timer interrupt. -/
theorem run_queue_edf_forked :
    ∃ k, Run.exec (step wrapInt32) (boot fun _ => blank)
        (firstUser ++ forked .fork 4 ++ [.tick]) = .ok k ∧
      ∀ pc k', k.scheduleTo pc = .ok k' →
        ∀ p, k'.Contends p → (k'.procs k'.current).pt ≤ (k'.procs p).pt := by
  obtain ⟨m, before, quiet, range⟩ := Run.exec_of_decide
    (fun k : Kernel => expired (countTick k.timerList) = [] ∧
      k.heap.entry.all (fun e => decide (-2 ^ 31 < e.x ∧ e.x < 2 ^ 31)) = true)
    (by decide +kernel : (Run.exec (step wrapInt32) (boot fun _ => blank)
      (firstUser ++ forked .fork 4)).map _ = .ok true)
  obtain ⟨k, run, _⟩ := Run.exec_of_decide (fun _ : Kernel => True)
    (by decide +kernel : (Run.exec (step wrapInt32) (boot fun _ => blank)
      (firstUser ++ forked .fork 4 ++ [.tick])).map _ = .ok true)
  have queue : RunQueue m := (Reachable.inv ⟨_, _, before⟩).others.queue
  have keeps : m.KeepsOrder wrapInt32 .tick := by
    apply keepsOrder_of_range
    intro p due
    obtain ⟨e, mem, rfl⟩ := List.mem_map.mp ((queue.mem_iff p).mpr (due.ready quiet))
    rw [← queue.key e mem]
    exact of_decide_eq_true (List.all_eq_true.mp range e mem)
  have along : Run.Along (step wrapInt32) (KeepsOrder wrapInt32) (boot fun _ => blank)
      (firstUser ++ forked .fork 4 ++ [.tick]) := by
    refine Run.along_append (Run.along_of_forall ?_ _) fun middle reached => ?_
    · intro event mem state called
      subst called
      exact absurd mem (by decide)
    · cases before.symm.trans reached
      exact ⟨keeps, fun _ _ => trivial⟩
  refine ⟨k, run, fun pc k' scheduled => ?_⟩
  exact ((run_queue_edf along run).2.2 pc k' scheduled).2

/-- A user process with a child creates a second one whose period is the least machine
integer, and sleeps; the timer interrupt finds both children on the heap. -/
def wrapped : List Event :=
  firstUser ++ forked .fork 4 ++ forked (.forkRT 1 (-2147483648)) 5 ++ [.syscall (.sleep 5), .tick]

/-- The deadline of the second child wraps around while the first child is queued, and the
next `schedule` picks the second one. -/
theorem run_queue_edf_wraps :
    ¬∀ k, Reachable wrapInt32 k → ∀ pc k', k.scheduleTo pc = .ok k' →
      ∀ p, k'.Contends p → (k'.procs k'.current).pt ≤ (k'.procs p).pt := by
  intro least
  obtain ⟨k, run, blocks⟩ := Run.exec_of_decide (fun k : Kernel => k.pc.blocks = true)
    (by decide +kernel : (Run.exec (step wrapInt32) (boot fun _ => blank) wrapped).map _ =
      .ok true)
  obtain ⟨k', run', contends, earlier⟩ := Run.exec_of_decide
    (fun k : Kernel => (k.allocated 4 = true ∧ (k.procs 4).state = .runnable ∧ 4 ≠ k.idleproc) ∧
      (k.procs 4).pt < (k.procs k.current).pt)
    (by decide +kernel : (Run.exec (step wrapInt32) (boot fun _ => blank)
      (wrapped ++ [.go 0])).map _ = .ok true)
  rw [Run.exec_append, run] at run'
  obtain ⟨next, gone, done⟩ := Run.exec_cons_eq_ok_iff.mp run'
  cases done
  obtain ⟨pc, schedules⟩ := go_of_blocks blocks 0
  have picked := least k ⟨_, _, run⟩ pc k' (schedules.symm.trans gone) 4 contends
  exact absurd earlier (not_lt.mpr picked)

end Kernel

end EdfKernel
