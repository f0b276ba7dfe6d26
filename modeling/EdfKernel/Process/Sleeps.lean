import EdfKernel.Process.Exit

/-!
# Going to sleep

The marks that `do_sleep`, `do_wait` and `try_free_pages` leave on the current
process before they call `schedule`, and `kswapd_wakeup_all`, which ends the sleep
of every process on `kswapd_done`.
-/

namespace EdfKernel

open Library

namespace Kernel

variable {k k' m : Kernel} {p : ProcPtr}

/-- The current process is changed by `change`; the timers and `kswapd_done` become
`timers` and `done`. -/
def marked (k : Kernel) (change : ProcStruct → ProcStruct) (timers : List Timer)
    (done : List ProcPtr) : Kernel :=
  { k.modify k.current change with timerList := timers, kswapdDone := done }

theorem marked_runQueue (queue : RunQueue k) (change : ProcStruct → ProcStruct)
    (timers : List Timer) (done : List ProcPtr) : RunQueue (k.marked change timers done) :=
  (queue.modify_current change).congr rfl rfl (fun _ => Iff.rfl) (fun _ _ => rfl) fun _ _ => rfl

theorem marked_relations (change : ProcStruct → ProcStruct) (timers : List Timer)
    (done : List ProcPtr)
    (same : (change (k.procs k.current)).relations = (k.procs k.current).relations) :
    (k.marked change timers done).relations = k.relations :=
  relations_modify (k := { k with timerList := timers, kswapdDone := done }) rfl same

/-! ## do_sleep -/

/-- The mark of `do_sleep`. -/
def markTimer (s : ProcStruct) : ProcStruct :=
  { s with state := .sleeping, waitState := wtTimer }

theorem sleepMark_eq_ok {time : Nat} (marked : k.sleepMark time = .ok k') :
    time ≠ 0 ∧ ¬k.Timed k.current ∧
      k' = k.marked markTimer (insertTimer ⟨time, k.current⟩ k.timerList) k.kswapdDone := by
  simp only [sleepMark, addTimer] at marked
  split at marked
  · contradiction
  · rename_i positive
    split at marked
    · contradiction
    · rename_i notTimed
      cases marked
      exact ⟨positive, notTimed, rfl⟩

theorem timed_insertTimer (timers : List Timer) (time : Nat) (q : ProcPtr) :
    q ∈ (insertTimer ⟨time, p⟩ timers).map Timer.proc ↔ q = p ∨ q ∈ timers.map Timer.proc := by
  rw [(insertTimer_procs ⟨time, p⟩ timers).mem_iff, List.mem_cons]

theorem sleepMark_sound (k : Kernel) (time : Nat) : Sound (k.sleepMark time) := by
  simp only [sleepMark, addTimer]
  split
  · exact .panic rfl
  · split
    · exact .panic rfl
    · exact .ok _

/-! ## try_free_pages -/

/-- The mark of `try_free_pages`. -/
def markSwap (s : ProcStruct) : ProcStruct :=
  { s with
    state := .sleeping
    waitState := wtKswapd
    kstack := { s.kstack with wakeupFlags := wtInterrupted } }

/-- The current process waits on `kswapd_done`. -/
def awaitsSwap (k : Kernel) : Kernel :=
  k.marked markSwap k.timerList (k.kswapdDone ++ [k.current])

theorem freePagesMark_eq_ok {swapd : ProcPtr} (marked : k.freePagesMark swapd = .ok k') :
    k.current ≠ swapd ∧ (k' = k.awaitsSwap ∨
      ((k.procs swapd).waitState = wtTimer ∧ k.awaitsSwap.wakeupProc swapd = .ok k')) := by
  unfold freePagesMark at marked
  split at marked
  · contradiction
  · rename_i other
    have wait : (k.awaitsSwap.procs swapd).waitState = (k.procs swapd).waitState :=
      congrArg ProcStruct.waitState (modify_procs_of_ne k _ markSwap (Ne.symm other))
    simp only at marked
    change (if (k.awaitsSwap.procs swapd).waitState = wtTimer then k.awaitsSwap.wakeupProc swapd
      else .ok k.awaitsSwap) = .ok k' at marked
    rw [wait] at marked
    split at marked
    · rename_i asleep
      exact ⟨other, .inr ⟨asleep, marked⟩⟩
    · cases marked
      exact ⟨other, .inl rfl⟩

theorem freePagesMark_sound {swapd : ProcPtr}
    (alive : swapd ≠ k.current → (k.procs swapd).state ≠ .zombie) :
    Sound (k.freePagesMark swapd) := by
  unfold freePagesMark
  split
  · exact .panic rfl
  · rename_i other
    change Sound (if (k.awaitsSwap.procs swapd).waitState = wtTimer then
      k.awaitsSwap.wakeupProc swapd else .ok k.awaitsSwap)
    have same : k.awaitsSwap.procs swapd = k.procs swapd :=
      modify_procs_of_ne k _ markSwap (Ne.symm other)
    split
    · apply wakeupProc_sound
      rw [same]
      exact alive (Ne.symm other)
    · exact .ok _

/-! ## kswapd_wakeup_all -/

/-- `kswapd_wakeup_all` has ended the sleep of the processes `woken`. -/
structure WakesAll (k : Kernel) (woken : List ProcPtr) (k' : Kernel) : Prop where
  relations : k'.relations = k.relations
  current : k'.current = k.current
  kswapd : k'.kswapd = k.kswapd
  timerList : k'.timerList = k.timerList
  pc : ∀ q, (k'.procs q).kstack.pc = (k.procs q).kstack.pc
  ret : ∀ q, (k'.procs q).kstack.ret = (k.procs q).kstack.ret
  flags : ∀ q, (k'.procs q).flags = (k.procs q).flags
  exitCode : ∀ q, (k'.procs q).exitCode = (k.procs q).exitCode
  asleep : ∀ q, q ∉ woken → (k'.procs q).state = (k.procs q).state ∧
    (k'.procs q).waitState = (k.procs q).waitState ∧
    (k'.procs q).kstack = (k.procs q).kstack
  awake : ∀ q ∈ woken, (k'.procs q).state = .runnable ∧ (k'.procs q).waitState = 0 ∧
    (k'.procs q).kstack.wakeupFlags = wtKswapd

namespace WakesAll

theorem refl (k : Kernel) : k.WakesAll [] k where
  relations := rfl
  current := rfl
  kswapd := rfl
  timerList := rfl
  pc _ := rfl
  ret _ := rfl
  flags _ := rfl
  exitCode _ := rfl
  asleep _ _ := ⟨rfl, rfl, rfl⟩
  awake _ mem := by contradiction

theorem trans {rest : List ProcPtr} (first : k.WakesAll [p] m) (second : m.WakesAll rest k')
    (notInRest : p ∉ rest) : k.WakesAll (p :: rest) k' where
  relations := second.relations.trans first.relations
  current := second.current.trans first.current
  kswapd := second.kswapd.trans first.kswapd
  timerList := second.timerList.trans first.timerList
  pc q := (second.pc q).trans (first.pc q)
  ret q := (second.ret q).trans (first.ret q)
  flags q := (second.flags q).trans (first.flags q)
  exitCode q := (second.exitCode q).trans (first.exitCode q)
  asleep q notIn := by
    rw [List.mem_cons, not_or] at notIn
    obtain ⟨state, wait, stack⟩ := second.asleep q notIn.2
    obtain ⟨state', wait', stack'⟩ := first.asleep q (by simpa using notIn.1)
    exact ⟨state.trans state', wait.trans wait', stack.trans stack'⟩
  awake q mem := by
    rcases List.mem_cons.mp mem with rfl | inRest
    · obtain ⟨state, wait, stack⟩ := second.asleep q notInRest
      obtain ⟨state', wait', flags'⟩ := first.awake q (List.mem_singleton_self q)
      exact ⟨state.trans state', wait.trans wait', by rw [stack, flags']⟩
    · exact second.awake q inRest

end WakesAll

/-- `wakeup_wait` on the record of `p`. -/
def tell (k : Kernel) (p : ProcPtr) (rest : List ProcPtr) : Kernel :=
  { k with kswapdDone := rest }.modify p fun s =>
    { s with kstack := { s.kstack with wakeupFlags := wtKswapd } }

theorem tell_runQueue (queue : RunQueue k) (p : ProcPtr) (rest : List ProcPtr) :
    RunQueue (k.tell p rest) := by
  have shorter : RunQueue { k with kswapdDone := rest } :=
    RunQueue.congr queue rfl rfl (fun _ => Iff.rfl) (fun _ _ => rfl) fun _ _ => rfl
  exact shorter.modify p _ rfl rfl rfl

theorem tell_wakes {rest : List ProcPtr} (asleep : (k.procs p).state = .sleeping)
    (woken : (k.tell p rest).wakeupProc p = .ok m) :
    k.WakesAll [p] m ∧ m.kswapdDone = rest := by
  have told : ((k.tell p rest).procs p).state = .sleeping := by
    simpa [tell] using asleep
  have frame := wakeupProc_unwoken woken
  obtain ⟨_, ⟨awake, _⟩ | ⟨_, wake⟩⟩ := wakeupProc_unsched woken
  · rw [told] at awake
    contradiction
  have stack : ∀ q, (m.procs q).kstack = ((k.tell p rest).procs q).kstack :=
    fun q => (congrArg (fun m => (m.procs q).kstack) frame :)
  refine ⟨?_, (congrArg Kernel.kswapdDone frame :)⟩
  constructor
  · refine (relations_of_unwoken frame).trans ?_
    exact relations_modify (k := { k with kswapdDone := rest }) rfl rfl
  · exact (congrArg Kernel.current frame :)
  · exact (congrArg Kernel.kswapd frame :)
  · exact (congrArg Kernel.timerList frame :)
  · intro q
    rw [stack]
    exact field_modify (fun s => s.kstack.pc) rfl rfl
  · intro q
    rw [stack]
    exact field_modify (fun s => s.kstack.ret) rfl rfl
  · intro q
    have flags : (m.procs q).flags = ((k.tell p rest).procs q).flags :=
      (congrArg (fun m => (m.procs q).flags) frame :)
    exact flags.trans (field_modify ProcStruct.flags rfl rfl)
  · intro q
    have code : (m.procs q).exitCode = ((k.tell p rest).procs q).exitCode :=
      (congrArg (fun m => (m.procs q).exitCode) frame :)
    exact code.trans (field_modify ProcStruct.exitCode rfl rfl)
  · intro q notOwn
    rw [List.mem_singleton] at notOwn
    have own : ((k.tell p rest).awaken p).procs q = k.procs q := by
      rw [awaken, tell, modify_procs_of_ne _ _ _ notOwn, modify_procs_of_ne _ _ _ notOwn]
    have same : (m.procs q).unsched = (k.procs q).unsched :=
      (congrArg (fun m => m.procs q) wake :).trans (congrArg ProcStruct.unsched own :)
    exact ⟨(congrArg ProcStruct.state same :), (congrArg ProcStruct.waitState same :),
      (congrArg ProcStruct.kstack same :)⟩
  · intro q isOwn
    rw [List.mem_singleton] at isOwn
    subst q
    refine ⟨?_, ?_, ?_⟩
    · refine (congrArg (fun m => (m.procs p).state) wake :).trans ?_
      simp [awaken, unsched, ProcStruct.unsched]
    · refine (congrArg (fun m => (m.procs p).waitState) wake :).trans ?_
      simp [awaken, unsched, ProcStruct.unsched]
    · rw [stack]
      simp [tell]

theorem wakeupQueue_spec {l : List ProcPtr} (queue : RunQueue k) (list : k.kswapdDone = l)
    (nodup : l.Nodup) (asleep : ∀ q ∈ l, (k.procs q).state = .sleeping)
    (live : ∀ q ∈ l, k.allocated q = true ∧ q ≠ k.idleproc)
    (woken : wakeupQueue l.length k = .ok k') :
    k.WakesAll l k' ∧ k'.kswapdDone = [] ∧ RunQueue k' := by
  induction l generalizing k with
  | nil =>
      cases woken
      exact ⟨.refl _, list, queue⟩
  | cons p rest ih =>
      rw [List.length_cons] at woken
      unfold wakeupQueue at woken
      rw [list] at woken
      obtain ⟨m, first, after⟩ := bind_eq_ok_iff.mp woken
      change (k.tell p rest).wakeupProc p = .ok m at first
      obtain ⟨notInRest, nodupRest⟩ := List.nodup_cons.mp nodup
      obtain ⟨wakes, listRest⟩ := tell_wakes (asleep p List.mem_cons_self) first
      have ownLive := live p List.mem_cons_self
      have queueFirst : RunQueue m :=
        (tell_runQueue queue p rest).wakeupProc ownLive.1 ownLive.2 first
      have other : ∀ q ∈ rest, q ∉ [p] := by
        intro q mem own
        rw [List.mem_singleton] at own
        exact notInRest (own ▸ mem)
      obtain ⟨wakesRest, done, queueRest⟩ := ih queueFirst listRest nodupRest
        (fun q mem => (wakes.asleep q (other q mem)).1.trans
          (asleep q (List.mem_cons_of_mem _ mem)))
        (fun q mem => by
          rw [show m.allocated = k.allocated from (congrArg Kernel.allocated wakes.relations :),
            show m.idleproc = k.idleproc from (congrArg Kernel.idleproc wakes.relations :)]
          exact live q (List.mem_cons_of_mem _ mem))
        after
      exact ⟨wakes.trans wakesRest notInRest, done, queueRest⟩

theorem wakeupQueue_sound {l : List ProcPtr} (list : k.kswapdDone = l) (nodup : l.Nodup)
    (asleep : ∀ q ∈ l, (k.procs q).state = .sleeping) : Sound (wakeupQueue l.length k) := by
  induction l generalizing k with
  | nil => exact .ok _
  | cons p rest ih =>
      rw [List.length_cons]
      unfold wakeupQueue
      rw [list]
      change Sound ((k.tell p rest).wakeupProc p >>= fun m => wakeupQueue rest.length m)
      obtain ⟨notInRest, nodupRest⟩ := List.nodup_cons.mp nodup
      have ownAsleep := asleep p List.mem_cons_self
      refine .bind (wakeupProc_sound ?_) fun m first => ?_
      · rw [show ((k.tell p rest).procs p).state = .sleeping by simpa [tell] using ownAsleep]
        decide
      · obtain ⟨wakes, listRest⟩ := tell_wakes ownAsleep first
        refine ih listRest nodupRest fun q mem => ?_
        have other : q ∉ [p] := by
          intro own
          rw [List.mem_singleton] at own
          exact notInRest (own ▸ mem)
        exact (wakes.asleep q other).1.trans (asleep q (List.mem_cons_of_mem _ mem))

end Kernel

end EdfKernel
