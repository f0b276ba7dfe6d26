import EdfKernel.Process.QueueOrder
import EdfKernel.Sched.Schedulability

/-!
# The deadline counters at a timer interrupt

A timer interrupt charges the current process and ages those that it finds on the heap.  No
other process is touched, and none at all when the idle process is current.
-/

namespace EdfKernel

open Library

namespace ProcStruct

variable {wrap : Int → Int} {s s' : ProcStruct}

/-- What `MY_proc_tick` does to the counters of the current process. -/
def charge (wrap : Int → Int) (s : ProcStruct) : ProcStruct :=
  if s.isRT = false then s
  else if (s.serve wrap).ct = (s.serve wrap).computeTime then (s.serve wrap).release wrap
  else s.serve wrap

theorem chargeTick_eq_charge (realTime : s.isRT = true) (charged : s.chargeTick wrap = .ok s') :
    s' = s.charge wrap := by
  unfold charge
  rw [if_neg (by simp [realTime])]
  simp only [chargeTick] at charged
  split at charged
  · cases charged
  · split at charged
    · rename_i done
      cases charged
      rw [if_pos done]
    · rename_i unfinished
      cases charged
      rw [if_neg unfinished]

theorem serve_deadline (same : s'.deadline = s.deadline) :
    (s'.serve wrap).deadline = (s.serve wrap).deadline := by
  simp only [deadline, Prod.mk.injEq] at same
  obtain ⟨isRT, computeTime, periodTime, ct, pt⟩ := same
  unfold serve
  rw [ct, computeTime]
  split <;> simp [deadline, isRT, computeTime, periodTime, ct, pt]

theorem release_deadline (same : s'.deadline = s.deadline) :
    (s'.release wrap).deadline = (s.release wrap).deadline := by
  simp only [deadline, Prod.mk.injEq] at same
  obtain ⟨isRT, computeTime, periodTime, ct, pt⟩ := same
  simp [deadline, release, isRT, computeTime, periodTime, pt]

theorem age_deadline (same : s'.deadline = s.deadline) :
    (s'.age wrap).deadline = (s.age wrap).deadline := by
  simp only [deadline, Prod.mk.injEq] at same
  obtain ⟨isRT, computeTime, periodTime, ct, pt⟩ := same
  simp [deadline, age, isRT, computeTime, periodTime, ct, pt]

theorem charge_deadline (same : s'.deadline = s.deadline) :
    (s'.charge wrap).deadline = (s.charge wrap).deadline := by
  have served := @serve_deadline wrap _ _ same
  have released := @release_deadline wrap _ _ served
  have isRT : s'.isRT = s.isRT := congrArg Prod.fst same
  have computeTime : (s'.serve wrap).computeTime = (s.serve wrap).computeTime :=
    congrArg (fun d => d.2.1) served
  have ct : (s'.serve wrap).ct = (s.serve wrap).ct := congrArg (fun d => d.2.2.2.1) served
  unfold charge
  rw [isRT, computeTime, ct]
  split
  · exact same
  · split
    · exact released
    · exact served

end ProcStruct

namespace Kernel

variable {wrap : Int → Int} {k k' m : Kernel} {event : Event} {p q : ProcPtr}

theorem myChargeTick_deadline (charged : k.myChargeTick wrap p = .ok k') (q : ProcPtr) :
    (k'.procs q).deadline =
      (if q = p then (k.procs q).charge wrap else k.procs q).deadline := by
  rcases myChargeTick_eq_ok charged with ⟨notRT, rfl⟩ | ⟨realTime, s, served, rfl⟩
  · by_cases own : q = p
    · subst own
      rw [modify_procs_self, if_pos rfl, ProcStruct.charge, if_pos notRT]
      rfl
    · rw [modify_procs_of_ne _ _ _ own, if_neg own]
  · by_cases own : q = p
    · subst own
      rw [modify_procs_self, if_pos rfl, ProcStruct.chargeTick_eq_charge realTime served]
    · rw [modify_procs_of_ne _ _ _ own, if_neg own]

/-- The counters after a tick in a process other than the idle one. -/
theorem myProcTick_deadline (nodup : (k.heap.entry.map HeapEntry.proc).Nodup)
    (ticked : k.myProcTick wrap p = .ok k') (q : ProcPtr) :
    (q ∈ k.heap.entry.map HeapEntry.proc → q ≠ p →
        (k'.procs q).deadline = ((k.procs q).age wrap).deadline) ∧
      (q ∉ k.heap.entry.map HeapEntry.proc → (k'.procs q).deadline =
        (if q = p then (k.procs q).charge wrap else k.procs q).deadline) := by
  obtain ⟨m, charged, _, _, rfl⟩ := (myProcTick_eq_ok_iff nodup).mp ticked
  have charge := myChargeTick_deadline charged q
  have marked : ∀ n : Kernel, ((if (entryAt n.heap.entry 0).x < (n.procs p).pt then
      n.modify p fun s => { s with needResched := true } else n).procs q).deadline =
        (n.procs q).deadline := by
    intro n
    split
    · exact n.modify_field p _ ProcStruct.deadline rfl q
    · rfl
  rw [marked (m.aged wrap)]
  have aged : (m.aged wrap).procs q = if q ∈ m.heap.entry.map HeapEntry.proc then
      (m.procs q).age wrap else m.procs q := rfl
  rw [aged, myChargeTick_heap charged]
  constructor
  · intro queued other
    rw [if_pos queued]
    rw [if_neg other] at charge
    exact ProcStruct.age_deadline charge
  · intro notQueued
    rw [if_neg notQueued]
    exact charge

/-- What a timer interrupt does to the counters of every process. -/
structure Ticked (wrap : Int → Int) (k k' : Kernel) : Prop where
  allocated : k'.allocated = k.allocated
  idleproc : k'.idleproc = k.idleproc
  idle : k.current = k.idleproc → ∀ q, (k'.procs q).deadline = (k.procs q).deadline
  own : k.current ≠ k.idleproc →
    (k'.procs k.current).deadline = ((k.procs k.current).charge wrap).deadline
  due : k.current ≠ k.idleproc → ∀ q, k.Due q →
    (k'.procs q).deadline = ((k.procs q).age wrap).deadline
  rest : k.current ≠ k.idleproc → ∀ q, q ≠ k.current → ¬k.Due q →
    (k'.procs q).deadline = (k.procs q).deadline

theorem runTimerList_ticked (inv : k.Inv) (clocked : k.Clocked)
    (ticked : k.runTimerList wrap = .ok k') : k.Ticked wrap k' := by
  obtain ⟨m, counted, charged⟩ := bind_eq_ok_iff.mp ticked
  change k.countDown = .ok m at counted
  change m.schedClassProcTick wrap m.current = .ok k' at charged
  have queue := (countDown_spec inv.others.queue inv.timersWait counted).2
  have pushes := countDown_push inv clocked.runs clocked.fits
  by_cases room : k.TickFits
  · obtain ⟨m', counted', fired⟩ := pushes.1 room
    cases counted.symm.trans counted'
    have same : ∀ q, (m.procs q).deadline = (k.procs q).deadline :=
      fun q => (congrArg (fun m => (m.procs q).deadline) fired.frame :)
    have idleproc : m.idleproc = k.idleproc := (congrArg Kernel.idleproc fired.frame :)
    have allocated : m.allocated = k.allocated := (congrArg Kernel.allocated fired.frame :)
    have due : ∀ q, q ∈ m.heap.entry.map HeapEntry.proc ↔ k.Due q := fun q =>
      (queue.mem_iff q).trans (fired.ready inv q)
    unfold schedClassProcTick at charged
    rw [fired.current, idleproc] at charged
    split at charged
    · rename_i notIdle
      have counters := myProcTick_deadline queue.nodup charged
      have frame := myProcTick_untimed queue.nodup charged
      have other : ∀ q, k.Due q → q ≠ k.current := by
        intro q isDue
        have ready := (queue.mem_iff q).mp ((due q).mpr isDue)
        rw [← fired.current]
        exact ready.2
      constructor
      · exact (congrArg Kernel.allocated frame :).trans allocated
      · exact (congrArg Kernel.idleproc frame :).trans idleproc
      · exact fun isIdle => absurd isIdle notIdle
      · intro _
        have notQueued : k.current ∉ m.heap.entry.map HeapEntry.proc :=
          fun mem => other _ ((due _).mp mem) rfl
        rw [(counters k.current).2 notQueued, if_pos rfl]
        exact ProcStruct.charge_deadline (same k.current)
      · intro _ q isDue
        rw [(counters q).1 ((due q).mpr isDue) (other q isDue)]
        exact ProcStruct.age_deadline (same q)
      · intro _ q notOwn notDue
        rw [(counters q).2 fun mem => notDue ((due q).mp mem), if_neg notOwn]
        exact same q
    · rename_i isIdle
      rw [not_not] at isIdle
      cases charged
      have marked : ∀ q, ((m.modify k.current fun s => { s with needResched := true }).procs
          q).deadline = (k.procs q).deadline := fun q =>
        (m.modify_field k.current _ ProcStruct.deadline rfl q).trans (same q)
      exact ⟨allocated, idleproc, fun _ => marked, fun notIdle => absurd isIdle notIdle,
        fun notIdle => absurd isIdle notIdle, fun notIdle => absurd isIdle notIdle⟩
  · cases counted.symm.trans (pushes.2 (not_le.mp room))

/-- A timer interrupt in a reachable state. -/
theorem step_ticked (reachable : Reachable wrap k) (ticked : k.step wrap .tick = .ok k') :
    k.Ticked wrap k' := by
  obtain ⟨m, rfl | rfl, ticks, inv, clocked⟩ := step_tick_eq reachable
  · exact runTimerList_ticked inv clocked (ticks ▸ ticked)
  · have after := runTimerList_ticked inv clocked (ticks ▸ ticked)
    have same : ∀ q, ((k.goto .tail).procs q).deadline = (k.procs q).deadline := fun q =>
      k.modify_field k.current _ ProcStruct.deadline rfl q
    constructor
    · exact after.allocated
    · exact after.idleproc
    · exact fun isIdle q => (after.idle isIdle q).trans (same q)
    · exact fun notIdle => (after.own notIdle).trans (ProcStruct.charge_deadline (same k.current))
    · exact fun notIdle q isDue => (after.due notIdle q ((k.goto_due .tail q).mpr isDue)).trans
        (ProcStruct.age_deadline (same q))
    · exact fun notIdle q other notDue =>
        (after.rest notIdle q other fun isDue => notDue ((k.goto_due .tail q).mp isDue)).trans
          (same q)

/-! ## The other steps -/

/-- The counters of no process differ, and there are no new processes. -/
structure SameCounters (k k' : Kernel) : Prop where
  deadline : ∀ q, (k'.procs q).deadline = (k.procs q).deadline
  allocated : ∀ q, k'.allocated q = true → k.allocated q = true
  idleproc : k'.idleproc = k.idleproc

namespace SameCounters

variable {k k' m : Kernel} {p : ProcPtr}

theorem refl (k : Kernel) : k.SameCounters k :=
  ⟨fun _ => rfl, fun _ => id, rfl⟩

theorem trans (first : k.SameCounters m) (second : m.SameCounters k') : k.SameCounters k' where
  deadline q := (second.deadline q).trans (first.deadline q)
  allocated q live := first.allocated q (second.allocated q live)
  idleproc := second.idleproc.trans first.idleproc

theorem of_unwoken (same : k'.unwoken = k.unwoken) : k.SameCounters k' where
  deadline q := (congrArg (fun m => (m.procs q).deadline) same :)
  allocated q live := (congrArg (fun m => m.allocated q) same :).symm.trans live
  idleproc := (congrArg Kernel.idleproc same :)

theorem of_unlinked (same : k'.unlinked = k.unlinked) : k.SameCounters k' where
  deadline q := (congrArg (fun m => (m.procs q).deadline) same :)
  allocated q live := (congrArg (fun m => m.allocated q) same :).symm.trans live
  idleproc := (congrArg Kernel.idleproc same :)

theorem of_wakeupProc (woken : k.wakeupProc p = .ok k') : k.SameCounters k' :=
  of_unwoken (wakeupProc_unwoken woken)

theorem modify (k : Kernel) (p : ProcPtr) (change : ProcStruct → ProcStruct)
    (same : (change (k.procs p)).deadline = (k.procs p).deadline) :
    k.SameCounters (k.modify p change) :=
  ⟨k.modify_field p change ProcStruct.deadline same, fun _ => id, rfl⟩

theorem of_movedTo {pc : Pc} (moved : m.MovedTo pc k') : m.SameCounters k' := by
  obtain ⟨ret, exitCode, needResched, _, rfl⟩ := moved
  exact modify m m.current _ rfl

theorem of_schedule (scheduled : k.schedule = .ok k') : k.SameCounters k' := by
  have frame := schedule_unsched scheduled
  exact ⟨fun q => (congrArg (fun m => (m.procs q).deadline) frame :),
    fun q live => (congrArg (fun m => m.allocated q) frame :).symm.trans live,
    (congrArg Kernel.idleproc frame :)⟩

end SameCounters

theorem killProc_sameCounters {errorCode ret : Int}
    (killed : k.killProc p errorCode = .ok (ret, k')) : k.SameCounters k' := by
  have flagged : k.SameCounters (k.flag p errorCode) := .modify k p _ rfl
  rcases killProc_eq_ok killed with ⟨_, _, rfl⟩ | ⟨_, woken⟩ | ⟨_, rfl⟩
  · exact .refl _
  · exact flagged.trans (.of_wakeupProc woken)
  · exact flagged

theorem killAll_sameCounters {errorCode : Int} {l : List ProcPtr}
    (killed : killAll errorCode l k = .ok k') : k.SameCounters k' := by
  induction l generalizing k with
  | nil =>
      cases killed
      exact .refl _
  | cons p rest ih =>
      obtain ⟨⟨ret, m⟩, first, after⟩ := bind_eq_ok_iff.mp killed
      exact (killProc_sameCounters first).trans (ih after)

theorem wakeWaiting_sameCounters {l : List ProcPtr} (woken : wakeWaiting l k = .ok k') :
    k.SameCounters k' := by
  induction l generalizing k with
  | nil =>
      cases woken
      exact .refl _
  | cons p rest ih =>
      obtain ⟨m, first, after⟩ := bind_eq_ok_iff.mp woken
      split at first
      · exact (SameCounters.of_wakeupProc first).trans (ih after)
      · cases first
        exact ih after

theorem adoptChildren_sameCounters {fuel : Nat} {parent : ProcPtr}
    (adopted : adoptChildren fuel k p parent = .ok k') : k.SameCounters k' := by
  induction fuel generalizing k with
  | zero =>
      unfold adoptChildren at adopted
      split at adopted
      · cases adopted
        exact .refl _
      · contradiction
  | succ fuel ih =>
      unfold adoptChildren at adopted
      split at adopted
      · cases adopted
        exact .refl _
      · rename_i child _
        obtain ⟨m, round, after⟩ := bind_eq_ok_iff.mp adopted
        have links : k.SameCounters (k.adoptLinks p parent child) :=
          .of_unlinked (k.adoptLinks_unlinked p parent child)
        simp only [adoptFirst] at round
        split at round
        · exact (links.trans (.of_wakeupProc round)).trans (ih after)
        · cases round
          exact links.trans (ih after)

theorem exitProc_sameCounters (exited : k.exitProc = .ok k') : k.SameCounters k' := by
  obtain ⟨_, _, m, woken, adopted⟩ := exitProc_eq_ok exited
  have dropped : k.SameCounters (k.dropMm k.current) := .of_unlinked (k.dropMm_unlinked k.current)
  have ended : k.SameCounters k.ended := dropped.trans (.modify _ _ _ rfl)
  have waited : k.SameCounters m := by
    unfold exitWake at woken
    split at woken
    · exact ended.trans (wakeWaiting_sameCounters woken)
    · cases woken
      exact ended
  have left : m.SameCounters (m.deThread m.current) := ⟨fun _ => rfl, fun _ => id, rfl⟩
  exact (waited.trans left).trans (adoptChildren_sameCounters adopted)

theorem wakeupQueue_sameCounters {fuel : Nat} (woken : wakeupQueue fuel k = .ok k') :
    k.SameCounters k' := by
  induction fuel generalizing k with
  | zero =>
      cases woken
      exact .refl _
  | succ fuel ih =>
      unfold wakeupQueue at woken
      split at woken
      · cases woken
        exact .refl _
      · rename_i p rest _
        obtain ⟨m, first, after⟩ := bind_eq_ok_iff.mp woken
        have told : k.SameCounters (k.tell p rest) :=
          ⟨modify_field { k with kswapdDone := rest } p _ ProcStruct.deadline rfl, fun _ => id, rfl⟩
        exact (told.trans (.of_wakeupProc first)).trans (ih after)

theorem freeProc_sameCounters (k : Kernel) (p : ProcPtr) : k.SameCounters (k.freeProc p) where
  deadline _ := rfl
  allocated q live := by
    by_cases own : q = p
    · subst own
      simp [freeProc] at live
    · simpa [freeProc, own] using live
  idleproc := rfl

theorem reap_sameCounters {zombie : ProcPtr} (reaped : k.reap zombie = .ok k') :
    k.SameCounters k' := by
  unfold reap at reaped
  split at reaped
  · contradiction
  · cases reaped
    have links : ((k.unhashProc zombie).removeLinks zombie).unlinked = k.unlinked :=
      removeLinks_unlinked _ _
    exact (SameCounters.of_unlinked links).trans (freeProc_sameCounters _ _)

/-- The step sets the counters of the process: `do_fork` and `do_forkRT` do so for a new
process and `do_execve` for the current one. -/
inductive Assigns (k : Kernel) : Event → ProcPtr → Bool × Int × Int × Int × Int → Prop
  | fork {flags : UInt32} {kind : ForkKind} {caller : Caller} {q : ProcPtr}
      (source : k.pc = .work (.fork flags kind caller)) (free : k.allocated q = false) :
      Assigns k (.go q) q (forkDeadline kind (k.procs q)).deadline
  | execve {caller : Caller} {mm : MmPtr} (source : k.pc = .work (.execLoad caller)) :
      Assigns k (.go mm) k.current (true, 1, 10, 0, 10)

/-- What a step other than a timer interrupt does to the counters of a process. -/
structure Sets (k : Kernel) (event : Event) (k' : Kernel) (q : ProcPtr) : Prop where
  idleproc : k'.idleproc = k.idleproc
  kept : ((k'.procs q).deadline = (k.procs q).deadline ∧
    (k'.allocated q = true → k.allocated q = true)) ∨ k.Assigns event q (k'.procs q).deadline

theorem SameCounters.sets (same : k.SameCounters k') (q : ProcPtr) : k.Sets event k' q :=
  ⟨same.idleproc, .inl ⟨same.deadline q, same.allocated q⟩⟩

theorem withChild_counters (kind : ForkKind) {child : ProcPtr} (timeSlice rest : Int)
    (notCurrent : k.current ≠ child) (q : ProcPtr) :
    ((k.withChild kind child timeSlice rest).procs q).deadline =
      if q = child then (forkDeadline kind (k.procs q)).deadline else (k.procs q).deadline := by
  split
  · rename_i own
    subst own
    rw [withChild_procs_child _ _ _ _ _ notCurrent]
    cases kind <;> rfl
  · rename_i other
    exact (congrArg ProcStruct.deadline (k.withChild_procs_unlinked kind child timeSlice rest
      other) :)

theorem freePages_sameCounters {swapd : ProcPtr} {pc : Pc}
    (marked : k.freePagesMark swapd = .ok m) (moved : m.MovedTo pc k') : k.SameCounters k' := by
  have waits : k.SameCounters k.awaitsSwap :=
    ⟨k.modify_field k.current markSwap ProcStruct.deadline rfl, fun _ => id, rfl⟩
  obtain ⟨_, rfl | ⟨_, woken⟩⟩ := freePagesMark_eq_ok marked
  · exact waits.trans (.of_movedTo moved)
  · exact (waits.trans (.of_wakeupProc woken)).trans (.of_movedTo moved)

theorem tryFreePages_sameCounters {w : Work} (tried : k.tryFreePages w = .ok k') :
    k.SameCounters k' := by
  unfold tryFreePages at tried
  split at tried
  · contradiction
  · obtain ⟨m, marked, result⟩ := bind_eq_ok_iff.mp tried
    cases result
    exact freePages_sameCounters marked (goto_movedTo m _ (by rintro ⟨⟩))

theorem doExit_sameCounters {errorCode : Int} (exited : k.doExit errorCode = .ok k') :
    k.SameCounters k' := by
  obtain ⟨m, killed, result⟩ := bind_eq_ok_iff.mp exited
  cases result
  exact (killAll_sameCounters killed).trans (.of_movedTo (exitThread_movedTo m errorCode))

/-- Where `do_fork` asks for a descriptor. -/
theorem step_fork_counters {flags : UInt32} {kind : ForkKind} {caller : Caller} (inv : k.Inv)
    (source : k.pc = .work (.fork flags kind caller)) (other : event ≠ .tick)
    (stepped : k.step wrap event = .ok k') (q : ProcPtr) :
    k.Sets event k' q := by
  cases event with
  | tick => exact absurd rfl other
  | go child =>
      simp only [step, go, source, workDone] at stepped
      obtain ⟨m, forked, result⟩ := bind_eq_ok_iff.mp stepped
      cases result
      obtain ⟨free, notCurrent, _, timeSlice, rest, rfl⟩ :=
        forkAlloc_eq_ok inv.others.allocated forked
      have made := k.withChild_counters kind timeSlice rest notCurrent q
      have moved := SameCounters.of_movedTo (goto_movedTo
        (k.withChild kind child timeSlice rest) (.work (.forkChild flags child caller))
        (by rintro ⟨⟩))
      refine ⟨moved.idleproc, ?_⟩
      rw [moved.deadline q]
      by_cases new : q = child
      · subst new
        rw [made, if_pos rfl]
        exact .inr (.fork source free)
      · rw [made, if_neg new]
        refine .inl ⟨rfl, fun live => ?_⟩
        simpa [withChild_allocated, new] using moved.allocated q live
  | noPage =>
      simp only [step, source] at stepped
      exact (tryFreePages_sameCounters stepped).sets q
  | fail errorCode =>
      simp only [step, source, workFailed] at stepped
      cases stepped
      exact (SameCounters.modify k k.current _ rfl).sets q
  | _ =>
      simp only [step, source] at stepped
      cases stepped

/-- Where `do_execve` loads the program. -/
theorem step_execve_counters {caller : Caller} (source : k.pc = .work (.execLoad caller))
    (other : event ≠ .tick) (stepped : k.step wrap event = .ok k') (q : ProcPtr) :
    k.Sets event k' q := by
  cases event with
  | tick => exact absurd rfl other
  | go mm =>
      simp only [step, go, source, workDone] at stepped
      obtain ⟨m, loaded, result⟩ := bind_eq_ok_iff.mp stepped
      cases result
      obtain ⟨_, rfl⟩ := execFinish_eq_ok loaded
      have spaced : k.SameCounters ((k.withMm k.current mm).deThread k.current) :=
        ⟨k.modify_field k.current (fun s => { s with mm := some mm }) ProcStruct.deadline rfl,
          fun _ => id, rfl⟩
      have moved := SameCounters.of_movedTo (returnTo_movedTo
        (((k.withMm k.current mm).deThread k.current).modify k.current execDeadline) caller 0
          fun _ => le_rfl)
      refine ⟨moved.idleproc, ?_⟩
      rw [moved.deadline q]
      by_cases own : q = k.current
      · subst own
        rw [modify_procs_self]
        exact .inr (.execve source)
      · rw [modify_procs_of_ne _ _ _ own]
        exact .inl ⟨spaced.deadline q, moved.allocated q⟩
  | noPage =>
      simp only [step, source] at stepped
      exact (tryFreePages_sameCounters stepped).sets q
  | fail errorCode =>
      simp only [step, source, workFailed] at stepped
      exact (doExit_sameCounters stepped).sets q
  | _ =>
      simp only [step, source, Work.locks] at stepped
      cases stepped

/-- A step other than a timer interrupt keeps the counters that it does not set. -/
theorem step_counters (inv : k.Inv) (other : event ≠ .tick)
    (stepped : k.step wrap event = .ok k') (q : ProcPtr) :
    k.Sets event k' q := by
  have keeps : k.SameCounters k' → k.Sets event k' q := fun same => same.sets q
  cases Transition.of_step stepped with
  | skip same => exact keeps (same ▸ .refl _)
  | move pc moves moved => exact keeps (.of_movedTo moved)
  | tickUser called user ticked => exact absurd called other
  | tick called kernel ticked => exact absurd called other
  | schedule pc parks scheduled =>
      have moved : k.SameCounters (k.goto pc) := .modify k k.current _ rfl
      exact keeps (moved.trans (.of_schedule scheduled))
  | doExit errorCode m called source killed moved =>
      exact keeps ((killAll_sameCounters killed).trans (.of_movedTo moved))
  | kill pid ret m called user killed moved =>
      refine keeps (SameCounters.trans ?_ (.of_movedTo moved))
      unfold doKill at killed
      split at killed
      · exact killProc_sameCounters killed
      · cases killed
        exact .refl _
  | sleep time caller m source marked moved =>
      obtain ⟨_, _, rfl⟩ := sleepMark_eq_ok marked
      have marks : k.SameCounters (k.marked markTimer
          (insertTimer ⟨time, k.current⟩ k.timerList) k.kswapdDone) :=
        ⟨k.modify_field k.current markTimer ProcStruct.deadline rfl, fun _ => id, rfl⟩
      exact keeps (marks.trans (.of_movedTo moved))
  | wakeKswapd swapd source present asleep woken => exact keeps (.of_wakeupProc woken)
  | wakeupAll source woken => exact keeps (wakeupQueue_sameCounters woken)
  | freePages w swapd m source present marked moved =>
      exact keeps (freePages_sameCounters marked moved)
  | setKswapd source created moved =>
      have stored : k.SameCounters
          { k with kswapd := k.findProc (k.procs k.current).kstack.ret } :=
        ⟨fun _ => rfl, fun _ => id, rfl⟩
      exact keeps (stored.trans (.of_movedTo moved))
  | forkAlloc flags kind caller child m source forked moved =>
      exact step_fork_counters inv source other stepped q
  | forkFree flags child caller source moved =>
      exact keeps ((freeProc_sameCounters k child).trans (.of_movedTo moved))
  | forkLink flags child caller mm m called source linked moved =>
      exact keeps ((SameCounters.of_unlinked (forkLink_unlinked linked)).trans
        (.of_movedTo moved))
  | forkWake child caller m source woken moved =>
      subst moved
      have returned : m.SameCounters (m.returnTo caller (m.procs child).pid) :=
        .modify m m.current _ rfl
      exact keeps ((SameCounters.of_wakeupProc woken).trans returned)
  | execDrop caller source moved =>
      exact keeps ((SameCounters.of_unlinked (k.dropMm_unlinked k.current)).trans
        (.of_movedTo moved))
  | execFinish caller mm m source loaded moved =>
      exact step_execve_counters source other stepped q
  | reap pid caller zombie m pc source found reaped target moved =>
      exact keeps ((reap_sameCounters reaped).trans (.of_movedTo moved))
  | waitSleep pid caller source found moved =>
      have sleeps := SameCounters.modify k k.current (fun s => { s with state := .sleeping }) rfl
      exact keeps (sleeps.trans (.of_movedTo moved))
  | waitMark pid caller source moved =>
      have marks := SameCounters.modify k k.current (fun s => { s with waitState := wtChild }) rfl
      exact keeps (marks.trans (.of_movedTo moved))
  | delTimer caller source moved =>
      have deleted : k.SameCounters (k.delTimer k.current) := ⟨fun _ => rfl, fun _ => id, rfl⟩
      exact keeps (deleted.trans (.of_movedTo moved))
  | exit m source exited moved =>
      exact keeps ((exitProc_sameCounters exited).trans (.of_movedTo moved))

end Kernel

end EdfKernel
