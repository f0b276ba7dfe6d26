import EdfKernel.Process.Invariant

/-!
# Steps of the sleep protocol

The invariant is kept by interrupts and kills, by the steps in which the current
process marks itself as sleeping, and by the swap daemon when it wakes the processes
that wait for it.
-/

namespace EdfKernel

open Library

namespace Kernel

variable {wrap : Int → Int} {k k' m : Kernel} {p q child : ProcPtr} {pc : Pc} {caller : Caller}

/-! ## Interrupts and kills -/

theorem Inv.timersWait (inv : k.Inv) : k.TimersWait := by
  intro p timed
  have known := inv.others.timed p timed
  have settled := inv.settled known
  have waitTimer : wtTimer &&& wtInterrupted ≠ 0 := by decide
  have fits := settled.fits
  by_cases asleep : (k.procs p).waitState = wtTimer
  · left
    apply inv.dormant known
    rw [asleep]
    exact waitTimer
  · right
    cases place : (k.procs p).kstack.pc.place with
    | timer =>
        rw [place] at fits
        rcases fits.1 with ⟨_, wait, _⟩ | awake
        · exact absurd wait asleep
        · exact awake
    | awake => exact absurd timed (place ▸ fits).2.2.1
    | starting => exact absurd timed (place ▸ fits).2.2.1
    | marking => exact absurd timed (place ▸ fits).2.2.1
    | child => exact absurd timed (place ▸ fits).2.1
    | swap => exact absurd timed (place ▸ fits).2
    | ended => exact absurd timed (place ▸ fits).2.2.1

theorem Inv.tick (inv : k.Inv) (ticked : k.runTimerList wrap = .ok k') : k'.Inv := by
  obtain ⟨rouses, queue⟩ := runTimerList_spec inv.others.queue inv.timersWait ticked
  exact inv.of_rouses rouses queue

theorem Inv.move (inv : k.Inv) {flagged : Bool} (moves : k.pc.Moves flagged pc)
    (moved : k.MovedTo pc k') : k'.Inv :=
  Inv.of_movedTo inv.others (inv.own.of_moves moves) moved

/-- The current process kills others and goes on where it is awake. -/
theorem Inv.killed (inv : k.Inv) (rouses : k.Rouses m) (queue : RunQueue m) (own : k.Own pc)
    (moved : m.MovedTo pc k') : k'.Inv :=
  Inv.of_movedTo (inv.others.of_rouses rouses queue) (own.of_rouses rouses) moved

theorem Inv.exitGroup_dormant (inv : k.Inv) : ∀ q ∈ (k.threadRing k.current).tail,
    (k.procs q).waitState &&& wtInterrupted ≠ 0 → k.Dormant q :=
  fun _ mem => inv.dormant
    (threadRing_known inv.others.table inv.others.current (List.mem_of_mem_tail mem))

theorem Inv.doExit (inv : k.Inv) {errorCode : Int}
    (source : k.pc = .user ∨ k.pc = .work .pgfault ∨ ∃ caller, k.pc = .work (.execLoad caller))
    (killed : k.exitGroup errorCode = .ok m) (moved : m.MovedTo .exit k') : k'.Inv := by
  obtain ⟨rouses, queue, _⟩ := killAll_spec inv.others.queue inv.exitGroup_dormant killed
  have own : k.Own .exit := by
    rcases source with here | here | ⟨caller, here⟩
    · exact inv.own.awake (by rw [here]; rfl) (by rw [here]; nofun) rfl
        (by rw [here]; exact fun _ user => .inr user) (.inr rfl)
    · exact inv.own.awake (by rw [here]; rfl) (by rw [here]; nofun) rfl
        (by rw [here]; exact fun _ user => .inr user) (.inr rfl)
    · exact inv.own.awake (by rw [here]; rfl) (by rw [here]; nofun) rfl
        (by rw [here]; exact fun _ user => .inr user.2) (.inr rfl)
  exact inv.killed rouses queue own moved

theorem doKill_eq_ok {pid ret errorCode : Int} (killed : k.doKill pid errorCode = .ok (ret, k')) :
    k' = k ∨ ∃ proc, k.findProc pid = some proc ∧ k.killProc proc errorCode = .ok (ret, k') := by
  unfold doKill at killed
  split at killed
  · rename_i proc found
    exact .inr ⟨proc, found, killed⟩
  · cases killed
    exact .inl rfl

theorem Inv.doKill_rouses (inv : k.Inv) {pid ret errorCode : Int}
    (killed : k.doKill pid errorCode = .ok (ret, m)) : k.Rouses m ∧ RunQueue m := by
  rcases doKill_eq_ok killed with rfl | ⟨proc, found, kill⟩
  · exact ⟨.refl _, inv.others.queue⟩
  · have known : k.Known proc := .inl (inv.others.table.numbered.findProc_eq_some_iff.mp found).1
    have dormant := inv.dormant known
    exact ⟨killProc_rouses dormant kill, killProc_runQueue dormant inv.others.queue kill⟩

theorem Inv.kill (inv : k.Inv) {pid ret errorCode : Int} (user : k.pc = .user)
    (killed : k.doKill pid errorCode = .ok (ret, m)) (moved : m.MovedTo .tail k') : k'.Inv := by
  obtain ⟨rouses, queue⟩ := inv.doKill_rouses killed
  have own : k.Own .tail :=
    inv.own.awake (by rw [user]; rfl) (by rw [user]; nofun) rfl (by rw [user]; exact fun _ => id)
      (.inr rfl)
  exact inv.killed rouses queue own moved

theorem Inv.wakeKswapd (inv : k.Inv) {swapd : ProcPtr} (present : k.kswapd = some swapd)
    (asleep : (k.procs swapd).waitState = wtTimer) (woken : k.wakeupProc swapd = .ok k') :
    k'.Inv := by
  have dormant : k.Dormant swapd :=
    inv.dormant (.inl (inv.others.swapd swapd present)) (by rw [asleep]; decide)
  exact inv.of_rouses (wakeupProc_rouses dormant woken)
    (inv.others.queue.wakeupProc dormant.allocated dormant.notIdle woken)

/-! ## Going to sleep -/

theorem marked_changes (change : ProcStruct → ProcStruct) {timers : List Timer}
    {done : List ProcPtr}
    (timed : ∀ p, p ≠ k.current → (p ∈ timers.map Timer.proc ↔ k.Timed p))
    (queued : ∀ p, p ≠ k.current → (p ∈ done ↔ p ∈ k.kswapdDone)) :
    k.ChangesCurrent (k.marked change timers done) :=
  ⟨fun _ other => modify_procs_of_ne k _ change other, rfl, timed, queued⟩

theorem modify_changes (k : Kernel) (change : ProcStruct → ProcStruct) :
    k.ChangesCurrent (k.modify k.current change) :=
  marked_changes change (fun _ _ => Iff.rfl) fun _ _ => Iff.rfl

theorem marked_current (change : ProcStruct → ProcStruct) (timers : List Timer)
    (done : List ProcPtr) :
    (k.marked change timers done).procs k.current = change (k.procs k.current) :=
  modify_procs_self k _ change

theorem Inv.sleep (inv : k.Inv) {time : Nat}
    (source : (k.pc = .user ∧ caller = .trap) ∨
      (k.pc = .thread .kswapdMain ∧ caller = .thread .kswapdMain))
    (marked : k.sleepMark time = .ok m) (moved : m.MovedTo (.sleepMark caller) k') :
    k'.Inv := by
  have marks : k.pc.marks = false := by
    rcases source with ⟨here, _⟩ | ⟨here, _⟩ <;> rw [here] <;> rfl
  have of : ∀ role, k.pc.Of role → (Pc.sleepMark caller).Of role := by
    rcases source with ⟨here, rfl⟩ | ⟨here, rfl⟩
    · rw [here]
      exact fun _ user => user.symm
    · rw [here]
      exact fun _ => id
  obtain ⟨_, notTimed, rfl⟩ := sleepMark_eq_ok marked
  obtain ⟨_, _, _, notQueued⟩ := inv.own.running marks
  have changes : k.ChangesCurrent (k.marked markTimer
      (insertTimer ⟨time, k.current⟩ k.timerList) k.kswapdDone) := by
    refine marked_changes _ (fun p other => ?_) fun _ _ => Iff.rfl
    rw [timed_insertTimer]
    exact or_iff_right other
  have relations := marked_relations (k := k) markTimer
    (insertTimer ⟨time, k.current⟩ k.timerList) k.kswapdDone
  have notZombie : (k.procs k.current).state ≠ .zombie := by
    rw [(inv.own.running marks).1]
    decide
  apply Inv.of_movedTo ?_ ?_ moved
  · apply inv.others.modify (marked_runQueue inv.others.queue _ _ _) ?_ changes ?_ inv.others.done
    · apply inv.others.table.of_relations (relations ?_)
      simp [markTimer, ProcStruct.relations, ProcStruct.uncounted, ProcStruct.unwoken,
        ProcStruct.unsched, notZombie]
    · apply (insertTimer_procs ⟨time, k.current⟩ k.timerList).nodup_iff.mpr
      exact List.nodup_cons.mpr ⟨notTimed, inv.others.timers⟩
  · apply inv.own.modify inv.others.current changes ?_ of (by rintro _ _ ⟨⟩) (by rintro ⟨⟩)
      (.inr rfl) (by rintro _ _ ⟨⟩)
    rw [marked_current]
    exact ⟨.inl ⟨rfl, rfl, (timed_insertTimer _ _ _).mpr (.inl rfl)⟩, notQueued⟩

theorem Work.marks (w : Work) : (Pc.work w).marks = false ∧ (Pc.work w).place = .awake :=
  ⟨rfl, rfl⟩

theorem Work.task_ne_linked (w : Work) (child : ProcPtr) (caller : Caller) :
    w.task ≠ .linked child caller := by
  cases w <;> nofun

theorem Inv.freePages (inv : k.Inv) {w : Work} {swapd : ProcPtr} (source : k.pc = .work w)
    (present : k.kswapd = some swapd) (marked : k.freePagesMark swapd = .ok m)
    (moved : m.MovedTo (.freeMark w) k') : k'.Inv := by
  obtain ⟨runnable, _, notTimed, notQueued⟩ := inv.own.running (by rw [source]; rfl)
  have notTimed : ¬k.Timed k.current := notTimed (by rw [source]; nofun)
  have changes : k.ChangesCurrent k.awaitsSwap := by
    refine marked_changes _ (fun _ _ => Iff.rfl) fun p other => ?_
    rw [List.mem_append, List.mem_singleton]
    exact or_iff_left other
  have others : k.awaitsSwap.Others := by
    apply inv.others.modify (marked_runQueue inv.others.queue _ _ _) ?_ changes inv.others.timers ?_
    · apply inv.others.table.of_relations (marked_relations markSwap _ _ ?_)
      simp [markSwap, ProcStruct.relations, ProcStruct.uncounted, ProcStruct.unwoken,
        ProcStruct.unsched, runnable]
    · change (k.kswapdDone ++ [k.current]).Nodup
      rw [List.nodup_append_comm]
      exact List.nodup_cons.mpr ⟨notQueued, inv.others.done⟩
  have own : k.awaitsSwap.Own (.freeMark w) := by
    have settled := inv.own.settled
    rw [source] at settled
    have making : ∀ child caller, (Pc.freeMark w).task = .making child caller →
        k.Unborn k.current child caller := settled.making
    apply inv.own.modify inv.others.current changes ?_ ?_ making ?_ (.inr rfl)
      (Work.task_ne_linked w)
    · have current : k.awaitsSwap.procs k.current = markSwap (k.procs k.current) :=
        marked_current markSwap _ _
      rw [current]
      exact ⟨.inl ⟨rfl, rfl, List.mem_append_right _ (List.mem_singleton_self _), rfl⟩, notTimed⟩
    · rw [source]
      exact fun _ => id
    · intro loading
      have current : k.awaitsSwap.procs k.current = markSwap (k.procs k.current) :=
        marked_current markSwap _ _
      rw [current]
      exact settled.loading loading
  rcases freePagesMark_eq_ok marked with ⟨other, rfl | ⟨asleep, woken⟩⟩
  · exact Inv.of_movedTo others own moved
  · have same : k.awaitsSwap.procs swapd = k.procs swapd := changes.procs swapd (Ne.symm other)
    have dormant : k.awaitsSwap.Dormant swapd := by
      apply others.dormant
      · rw [changes.known]
        exact .inl (inv.others.swapd swapd present)
      · exact Ne.symm other
      · rw [same, asleep]
        decide
    have rouses := wakeupProc_rouses dormant woken
    have queue := others.queue.wakeupProc dormant.allocated dormant.notIdle woken
    exact Inv.of_movedTo (others.of_rouses rouses queue) (own.of_rouses rouses) moved

/-- A process on `kswapd_done` sleeps in `try_free_pages`. -/
theorem Settled.queued (settled : k.Settled p pc) (queued : p ∈ k.kswapdDone) :
    pc.place = .swap ∧ (k.procs p).state = .sleeping ∧ ¬k.Timed p := by
  have fits := settled.fits
  cases place : pc.place with
  | swap =>
      rw [place] at fits
      rcases fits.1 with asleep | awake
      · exact ⟨rfl, asleep.1, fits.2⟩
      · exact absurd queued awake.2.2.1
  | timer => exact absurd queued (place ▸ fits).2
  | awake => exact absurd queued (place ▸ fits).2.2.2
  | starting => exact absurd queued (place ▸ fits).2.2.2
  | marking => exact absurd queued (place ▸ fits).2.2.2
  | child => exact absurd queued (place ▸ fits).2.2
  | ended => exact absurd queued (place ▸ fits).2.2.2

theorem Settled.of_wakesAll (settled : k.Settled p pc) (wakes : k.WakesAll k.kswapdDone k')
    (done : k'.kswapdDone = []) : k'.Settled p pc := by
  have relations := wakes.relations
  have roles : k.SameRoles k' :=
    ⟨(congrArg Kernel.idleproc relations :), (congrArg Kernel.initproc relations :), wakes.kswapd⟩
  have known : ∀ q, k'.Known q ↔ k.Known q := by
    intro q
    rw [Known, Known, show k'.procList = k.procList from (congrArg Kernel.procList relations :),
      roles.idleproc]
  have timed : ∀ q, k'.Timed q ↔ k.Timed q := by
    intro q
    rw [Timed, Timed, wakes.timerList]
  have spares : ∀ q, q ∉ k.kswapdDone → k.Spares k' q := by
    intro q notIn
    obtain ⟨state, wait, stack⟩ := wakes.asleep q notIn
    exact ⟨state, wait, by rw [stack], (congrArg (fun m => (m.procs q).mm) relations :), timed q,
      by simp [done, notIn]⟩
  have unborn : ∀ child caller, k.Unborn p child caller → k'.Unborn p child caller := by
    intro child caller unborn
    apply unborn.congr (spares child unborn.unqueued) (wakes.pc child)
    · rw [known]
      exact unborn.unknown
    · rw [show k'.allocated = k.allocated from (congrArg Kernel.allocated relations :)]
      exact unborn.allocated
    · exact (congrArg (fun m => (m.procs child).parent) relations :)
    · exact (congrArg (fun m => (m.procs child).cptr) relations :)
  by_cases queued : p ∈ k.kswapdDone
  · obtain ⟨place, _, notTimed⟩ := settled.queued queued
    obtain ⟨awake, wait, flags⟩ := wakes.awake p queued
    constructor
    · rw [place]
      exact ⟨.inr ⟨awake, wait, by simp [done], flags⟩, fun isTimed => notTimed ((timed p).mp isTimed)⟩
    · obtain ⟨role, plays, of⟩ := settled.role
      exact ⟨role, roles.plays plays, of⟩
    · exact fun isSwapd => settled.swapd (roles.kswapd ▸ isSwapd)
    · exact fun child caller task => unborn child caller (settled.making child caller task)
    · exact fun loading => (congrArg (fun m => (m.procs p).mm) relations :).trans
        (settled.loading loading)
  · exact settled.congr roles (spares p queued) unborn

theorem Inv.wakeupQueue_live (inv : k.Inv) :
    (∀ q ∈ k.kswapdDone, (k.procs q).state = .sleeping) ∧
      ∀ q ∈ k.kswapdDone, k.allocated q = true ∧ q ≠ k.idleproc := by
  constructor
  · exact fun q queued => ((inv.settled (inv.others.queued q queued)).queued queued).2.1
  · intro q queued
    have known := inv.others.queued q queued
    refine ⟨inv.others.table.allocated q known, ?_⟩
    rintro rfl
    have settled := inv.settled known
    obtain ⟨place, _, _⟩ := settled.queued queued
    obtain ⟨role, plays, of⟩ := settled.role
    cases role with
    | idle =>
        rw [Pc.place_of_idle of] at place
        contradiction
    | init => exact inv.others.table.listed _ inv.others.table.init plays.symm
    | kswapd => exact plays.1 rfl
    | user => exact plays.1 rfl

/-- Those that wait for `kswapd` are all woken. -/
theorem Inv.wakesAll (inv : k.Inv) (woken : k.kswapdWakeupAll = .ok k') :
    k.WakesAll k.kswapdDone k' ∧ k'.kswapdDone = [] ∧ RunQueue k' := by
  obtain ⟨asleep, live⟩ := inv.wakeupQueue_live
  exact wakeupQueue_spec inv.others.queue rfl inv.others.done asleep live woken

theorem Inv.wakeupAll (inv : k.Inv) (source : k.pc = .thread .kswapdMain)
    (woken : k.kswapdWakeupAll = .ok k') : k'.Inv := by
  obtain ⟨wakes, done, queue⟩ := inv.wakesAll woken
  have relations := wakes.relations
  have list : k'.procList = k.procList := (congrArg Kernel.procList relations :)
  have idleproc : k'.idleproc = k.idleproc := (congrArg Kernel.idleproc relations :)
  have known : ∀ q, k'.Known q ↔ k.Known q := by
    intro q
    rw [Known, Known, list, idleproc]
  have here : k'.pc = .thread .kswapdMain := by
    rw [Kernel.pc, wakes.current, wakes.pc]
    exact source
  constructor
  · constructor
    · exact queue
    · exact inv.others.table.of_relations relations
    · rw [known, wakes.current]
      exact inv.others.current
    · intro p timed
      rw [known]
      rw [Timed, wakes.timerList] at timed
      exact inv.others.timed p timed
    · rw [wakes.timerList]
      exact inv.others.timers
    · intro p queued
      rw [done] at queued
      contradiction
    · rw [done]
      exact List.nodup_nil
    · intro p isSwapd
      rw [list]
      exact inv.others.swapd p (wakes.kswapd ▸ isSwapd)
    · intro p allocated unknown
      rw [known] at unknown
      rw [show k'.allocated = k.allocated from (congrArg Kernel.allocated relations :)] at allocated
      have notQueued : p ∉ k.kswapdDone := fun queued => unknown (inv.others.queued p queued)
      exact (wakes.asleep p notQueued).1.trans (inv.others.stray p allocated unknown)
    · intro p knownP other
      rw [wakes.current] at other
      rw [wakes.pc]
      exact (inv.others.settled p ((known p).mp knownP) other).of_wakesAll wakes done
    · intro p knownP other
      rw [wakes.current] at other
      rw [wakes.pc]
      exact inv.others.parked p ((known p).mp knownP) other
  · rw [here]
    have notQueued := (inv.own.running (by rw [source]; rfl)).2.2.2
    have settled := inv.own.settled
    rw [source] at settled
    constructor
    · rw [wakes.current]
      exact settled.of_wakesAll wakes done
    · rw [wakes.current, (wakes.asleep _ notQueued).1]
      exact .inl (inv.own.running (by rw [source]; rfl)).1
    · rintro _ _ ⟨⟩
  · intro isInit
    rw [here] at isInit
    contradiction

/-! ## do_wait and do_sleep around their calls of schedule -/

theorem Inv.waitSleep (inv : k.Inv) {pid : Int} (source : k.pc = .wait pid caller)
    (moved : (k.modify k.current fun s => { s with state := .sleeping }).MovedTo
      (.waitState pid caller) k') : k'.Inv := by
  obtain ⟨runnable, wait, notTimed, notQueued⟩ := inv.own.running (by rw [source]; rfl)
  have changes := k.modify_changes fun s => { s with state := .sleeping }
  apply Inv.of_movedTo ?_ ?_ moved
  · apply inv.others.modify (inv.others.queue.modify_current _) ?_ changes inv.others.timers
      inv.others.done
    apply inv.others.table.of_relations (relations_modify rfl ?_)
    simp [ProcStruct.relations, ProcStruct.uncounted, ProcStruct.unwoken, ProcStruct.unsched,
      runnable]
  · apply inv.own.modify inv.others.current changes ?_ ?_ ?_ ?_ (.inr ?_) ?_
    · rw [modify_procs_self]
      exact ⟨rfl, wait, notTimed (by rw [source]; rintro ⟨⟩), notQueued⟩
    · rw [source]
      exact fun _ => id
    · rintro _ _ ⟨⟩
    · rintro ⟨⟩
    · rfl
    · rintro _ _ ⟨⟩

theorem Inv.waitMark (inv : k.Inv) {pid : Int} (source : k.pc = .waitState pid caller)
    (moved : (k.modify k.current fun s => { s with waitState := wtChild }).MovedTo
      (.waitMark pid caller) k') : k'.Inv := by
  have settled := inv.own.settled
  rw [source] at settled
  obtain ⟨asleep, _, notTimed, notQueued⟩ := settled.fits
  have changes := k.modify_changes fun s => { s with waitState := wtChild }
  apply Inv.of_movedTo ?_ ?_ moved
  · apply inv.others.modify (inv.others.queue.modify_current _) ?_ changes inv.others.timers
      inv.others.done
    exact inv.others.table.of_relations (relations_modify rfl rfl)
  · apply inv.own.modify inv.others.current changes ?_ ?_ ?_ ?_ (.inr ?_) ?_
    · rw [modify_procs_self]
      exact ⟨.inl ⟨asleep, rfl⟩, notTimed, notQueued⟩
    · rw [source]
      exact fun _ => id
    · nofun
    · nofun
    · rfl
    · nofun

theorem Inv.delTimer (inv : k.Inv) (source : k.pc = .sleepSched caller)
    (moved : (k.delTimer k.current).MovedTo caller.pc k') : k'.Inv := by
  obtain ⟨runnable, wait, _, notQueued⟩ := inv.own.running (by rw [source]; rfl)
  have timed : ∀ p, (k.delTimer k.current).Timed p ↔ p ≠ k.current ∧ k.Timed p := by
    intro p
    change p ∈ (removeTimer k.current k.timerList).map Timer.proc ↔ _
    rw [removeTimer_procs, inv.others.timers.mem_erase_iff]
    rfl
  have changes : k.ChangesCurrent (k.delTimer k.current) := by
    refine ⟨fun _ _ => rfl, rfl, fun p other => ?_, fun _ _ => Iff.rfl⟩
    rw [timed]
    exact and_iff_right other
  apply Inv.of_movedTo ?_ ?_ moved
  · apply inv.others.modify ?_ ?_ changes ?_ inv.others.done
    · exact inv.others.queue.congr rfl rfl (fun _ => Iff.rfl) (fun _ _ => rfl) fun _ _ => rfl
    · exact inv.others.table.of_relations rfl
    · change ((removeTimer k.current k.timerList).map Timer.proc).Nodup
      rw [removeTimer_procs]
      exact inv.others.timers.erase _
  · apply inv.own.modify inv.others.current changes ?_ ?_ ?_ ?_ (.inl runnable) ?_
    · rw [caller.place_pc]
      exact ⟨runnable, wait, fun isTimed => ((timed _).mp isTimed).1 rfl, notQueued⟩
    · rw [source]
      rintro role rfl
      exact caller.pc_of
    · rw [caller.task_pc]
      nofun
    · rw [caller.task_pc]
      nofun
    · rw [caller.task_pc]
      nofun

end Kernel

end EdfKernel
