import EdfKernel.Process.Reachable

/-!
# The sleep protocol

In every reachable state the wait state of a process tells whether it sleeps, and
its timer or its record on `kswapd_done` is where its waker looks for it; only
`kswapd_wakeup_all` ends the sleep of a process that waits for memory, and the
assertions about sleeping processes hold.
-/

namespace EdfKernel

open Library

namespace Kernel

variable {wrap : Int → Int} {k k' m : Kernel} {p : ProcPtr} {pc : Pc} {event : Event}

/-! ## The assertions -/

theorem Inv.doExit_sound (inv : k.Inv) (errorCode : Int) : Sound (k.doExit errorCode) :=
  .bind (killAll_sound inv.exitGroup_dormant) fun _ _ => .ok _

theorem Inv.doKill_sound (inv : k.Inv) (pid errorCode : Int) :
    Sound (k.doKill pid errorCode) := by
  unfold doKill
  split
  · rename_i proc found
    have known : k.Known proc := .inl (inv.others.table.numbered.findProc_eq_some_iff.mp found).1
    exact killProc_sound (inv.dormant known)
  · exact .ok _

theorem Inv.doSleep_sound (k : Kernel) (time : Nat) (caller : Caller) :
    Sound (k.doSleep time caller) := by
  unfold doSleep
  split
  · exact .ok _
  · exact .bind (sleepMark_sound k time) fun _ _ => .ok _

theorem Inv.tick_sound (inv : k.Inv) : Sound (k.tick wrap) := by
  unfold Kernel.tick
  split
  · rename_i user
    have moves : k.pc.Moves k.flagged .tail := user ▸ .userTail
    have there := inv.move moves (goto_movedTo k _ nofun)
    exact runTimerList_sound there.others.queue there.timersWait
  · exact runTimerList_sound inv.others.queue inv.timersWait

theorem Inv.syscall_sound (inv : k.Inv) (call : Syscall) : Sound (k.syscall wrap call) := by
  cases call with
  | exit errorCode => exact inv.doExit_sound errorCode
  | sleep time => exact doSleep_sound k time .trap
  | kill pid => exact .bind (inv.doKill_sound pid _) fun _ _ => .ok _
  | _ => exact .ok _

theorem Inv.kcall_sound (inv : k.Inv) (fn : KThread) (call : KCall) :
    Sound (k.kcall fn call) := by
  unfold kcall
  split
  · split
    · exact .ok _
    · exact .disabled
  · exact .ok _
  · exact .ok _
  · exact schedule_sound _
  · split
    · rename_i swapd present
      split
      · exact wakeupProc_sound (inv.swapd_alive present)
      · exact .ok _
    · exact .disabled
  · exact wakeupQueue_sound rfl inv.others.done inv.wakeupQueue_live.1
  · exact doSleep_sound k _ _
  · exact .ok _
  · exact .disabled

theorem Inv.tryFreePages_sound (inv : k.Inv) (w : Work) : Sound (k.tryFreePages w) := by
  unfold tryFreePages
  split
  · exact .disabled
  · rename_i swapd present
    exact .bind (freePagesMark_sound fun _ => inv.swapd_alive present) fun _ _ => .ok _

theorem forkAlloc_sound {kind : ForkKind} {child : ProcPtr}
    (allocated : k.allocated k.current = true) (awake : (k.procs k.current).waitState = 0) :
    Sound (k.forkAlloc kind child) := by
  unfold forkAlloc allocProc
  split
  · exact .disabled
  · rename_i free
    have notCurrent : k.current ≠ child := by
      rintro rfl
      exact free allocated
    refine .bind (.ok _) fun m alloc => ?_
    cases alloc
    simp only [modify_current, modify_procs_of_ne _ _ _ notCurrent, awake, ne_eq, not_true_eq_false,
      if_false]
    split
    · exact .panic rfl
    · exact .ok _

theorem forkLink_sound (k : Kernel) (flags : UInt32) (child : ProcPtr) (mm : MmPtr) :
    Sound (k.forkLink flags child mm) := by
  have scan : ∀ (fuel : Nat) (pids : List Int) (lastPid nextSafe : Int),
      Sound (pidRepeat fuel pids lastPid nextSafe) := by
    intro fuel pids
    induction fuel with
    | zero => exact fun _ _ => .spin _
    | succ fuel ih =>
        intro lastPid nextSafe
        unfold pidRepeat
        split
        · exact ih _ _
        · exact .ok _
  refine .bind ?_ fun m _ => .bind (.bind ?_ fun _ _ => .ok _) fun _ _ => .ok _
  · unfold copyMm
    split
    · exact .ok _
    · split
      · exact .ok _
      · split
        · exact .disabled
        · exact .ok _
  · unfold nextPid
    split
    · exact scan _ _ _ _
    · split
      · exact scan _ _ _ _
      · exact .ok _

theorem Inv.workDone_sound (inv : k.Inv) {w : Work} (source : k.pc = .work w) (address : Nat) :
    Sound (k.workDone address w) := by
  cases w with
  | fork flags kind caller =>
      have awake := (inv.own.running (by rw [source]; rfl)).2.1
      exact .bind (forkAlloc_sound inv.others.allocated awake) fun _ _ => .ok _
  | forkChild flags child caller => exact .bind (forkLink_sound k _ _ _) fun _ _ => .ok _
  | execLoad caller =>
      refine .bind ?_ fun _ _ => .ok _
      unfold Kernel.execFinish
      split
      · exact .disabled
      · exact .ok _
  | _ => exact .ok _

theorem Inv.workFailed_sound (inv : k.Inv) (errorCode : Int) (w : Work) :
    Sound (k.workFailed errorCode w) := by
  unfold workFailed
  split
  · exact .ok _
  · exact .ok _
  · exact .ok _
  · exact .panic rfl
  · exact inv.doExit_sound errorCode
  · exact inv.doExit_sound _
  · exact .ok _

theorem Inv.freePagesPost_sound (inv : k.Inv) {w : Work} (source : k.pc = .freeSched w) :
    Sound k.freePagesPost := by
  have settled := inv.own.settled
  rw [source] at settled
  obtain ⟨runnable, _, _, notQueued⟩ := inv.own.running (by rw [source]; rfl)
  have told : (k.procs k.current).kstack.wakeupFlags = wtKswapd := by
    rcases settled.fits.1 with ⟨asleep, _⟩ | ⟨_, _, _, told⟩
    · rw [runnable] at asleep
      contradiction
    · exact told
  unfold freePagesPost
  rw [if_neg (not_or.mpr ⟨notQueued, not_not.mpr told⟩)]
  exact .ok _

theorem Inv.exitProc_sound (inv : k.Inv) (source : k.pc = .exit) : Sound k.exitProc := by
  have listed : k.current ∈ k.procList := by
    apply inv.listed
    rw [source]
    rintro (init | user) <;> contradiction
  have awake := (inv.own.running (by rw [source]; rfl)).2.1
  exact Kernel.exitProc_sound inv.others.table inv.others.queue listed awake
    fun q known _ => inv.dormant known

theorem Inv.go_sound (inv : k.Inv) (address : Nat) : Sound (k.go address) := by
  unfold Kernel.go
  split
  · split
    · exact schedule_sound _
    · exact .ok _
  · exact .ok _
  · exact .ok _
  · unfold Kernel.setKswapd
    simp only
    split
    · exact .panic rfl
    · exact .ok _
  · exact .ok _
  · exact .ok _
  · exact .ok _
  · split
    · exact schedule_sound _
    · exact .ok _
  · exact .ok _
  · rename_i w source
    exact inv.workDone_sound source address
  · exact .ok _
  · exact schedule_sound _
  · rename_i w source
    exact .bind (inv.freePagesPost_sound source) fun _ _ => .ok _
  · rename_i child caller source
    refine .bind (wakeupProc_sound ?_) fun _ _ => .ok _
    have own := inv.own
    rw [source] at own
    rw [(own.linked child caller rfl).2.2.1]
    decide
  · rename_i pid caller source
    unfold waitRepeat
    split
    · refine .bind ?_ fun _ _ => ?_
      · unfold Kernel.reap
        split
        · exact .panic rfl
        · exact .ok _
      · cases caller <;> exact .ok _
    · exact .ok _
    · exact .ok _
  · exact .ok _
  · exact schedule_sound _
  · exact .ok _
  · exact schedule_sound _
  · exact .ok _
  · rename_i source
    exact .bind (inv.exitProc_sound source) fun _ _ => .ok _
  · exact schedule_sound _
  · exact .panic rfl
  · exact .disabled
  · exact .disabled

/-- No step fails an assertion about sleeping processes. -/
theorem Inv.step_sound (inv : k.Inv) (event : Event) : Sound (k.step wrap event) := by
  cases event with
  | tick => exact inv.tick_sound
  | syscall call =>
      simp only [Kernel.step]
      split
      · exact inv.syscall_sound call
      · exact .disabled
  | pgfault =>
      simp only [Kernel.step]
      split
      · exact .ok _
      · exact .disabled
  | fault =>
      simp only [Kernel.step]
      split
      · exact inv.doExit_sound _
      · exact .disabled
  | kcall call =>
      simp only [Kernel.step]
      split
      · exact inv.kcall_sound _ call
      · exact .disabled
  | noPage =>
      simp only [Kernel.step]
      split
      · exact inv.tryFreePages_sound _
      · exact .disabled
  | lockBusy =>
      simp only [Kernel.step]
      split
      · split
        · exact schedule_sound _
        · exact .disabled
      · exact .disabled
  | fail errorCode =>
      simp only [Kernel.step]
      split
      · exact inv.workFailed_sound errorCode _
      · exact .disabled
  | go address => exact inv.go_sound address

/-! ## The wakers -/

/-- A process that sleeps until there is memory again. -/
def SwapAsleep (k : Kernel) (p : ProcPtr) : Prop :=
  (k.procs p).state = .sleeping ∧ (k.procs p).waitState = wtKswapd

theorem SwapAsleep.of_same (asleep : k.SwapAsleep p)
    (state : (k'.procs p).state = (k.procs p).state)
    (wait : (k'.procs p).waitState = (k.procs p).waitState) : k'.SwapAsleep p :=
  ⟨state.trans asleep.1, wait.trans asleep.2⟩

theorem SwapAsleep.of_movedTo (asleep : m.SwapAsleep p) (moved : m.MovedTo pc k') :
    k'.SwapAsleep p := by
  obtain ⟨ret, exitCode, needResched, _, rfl⟩ := moved
  have spares := moved_spares m pc ret exitCode needResched p
  exact asleep.of_same spares.state spares.waitState

/-- Kills, timers and the exits of children do not end this sleep. -/
theorem SwapAsleep.of_stirs (asleep : k.SwapAsleep p) (stirs : k.Stirs k') : k'.SwapAsleep p := by
  rcases stirs.state p with ⟨state, wait⟩ | ⟨dormant, _⟩
  · exact asleep.of_same state wait
  · have interruptible := dormant.interruptible
    rw [asleep.2] at interruptible
    exact absurd interruptible (by decide)

theorem SwapAsleep.ne_current (asleep : k.SwapAsleep p) (inv : k.Inv)
    (running : k.pc.marks = false) : p ≠ k.current := by
  rintro rfl
  have runnable := (inv.own.running running).1
  rw [asleep.1] at runnable
  contradiction

theorem SwapAsleep.of_changes (asleep : k.SwapAsleep p) (other : p ≠ k.current)
    (changes : k.ChangesCurrent k') : k'.SwapAsleep p :=
  asleep.of_same (changes.spares other).state (changes.spares other).waitState

theorem SwapAsleep.of_unlinked (asleep : k.SwapAsleep p) (same : k'.unlinked = k.unlinked) :
    k'.SwapAsleep p :=
  asleep.of_same (congrArg (fun m => (m.procs p).state) same :)
    (congrArg (fun m => (m.procs p).waitState) same :)

theorem SwapAsleep.sleepMark (asleep : k.SwapAsleep p) (inv : k.Inv)
    (running : k.pc.marks = false) {time : Nat} (marked : k.sleepMark time = .ok m) :
    m.SwapAsleep p := by
  obtain ⟨_, _, rfl⟩ := sleepMark_eq_ok marked
  have same := modify_procs_of_ne k k.current markTimer (asleep.ne_current inv running)
  exact asleep.of_same (congrArg ProcStruct.state same) (congrArg ProcStruct.waitState same)

theorem SwapAsleep.freePagesMark (asleep : k.SwapAsleep p) (inv : k.Inv) {w : Work}
    (source : k.pc = .work w) {swapd : ProcPtr} (present : k.kswapd = some swapd)
    (marked : k.freePagesMark swapd = .ok m) : m.SwapAsleep p := by
  have other := asleep.ne_current inv (by rw [source]; rfl)
  have same := modify_procs_of_ne k k.current markSwap other
  have waits : k.awaitsSwap.SwapAsleep p :=
    asleep.of_same (congrArg ProcStruct.state same) (congrArg ProcStruct.waitState same)
  rcases freePagesMark_eq_ok marked with ⟨notOwn, rfl | ⟨timer, woken⟩⟩
  · exact waits
  · have swapdSame := modify_procs_of_ne k k.current markSwap (Ne.symm notOwn)
    have dormant := inv.dormant (.inl (inv.others.swapd swapd present)) (by rw [timer]; decide)
    have swapdDormant : k.awaitsSwap.Dormant swapd :=
      ⟨dormant.allocated, dormant.notIdle, (congrArg ProcStruct.state swapdSame).trans
        dormant.asleep, by
          rw [show (k.awaitsSwap.procs swapd).waitState = (k.procs swapd).waitState from
            congrArg ProcStruct.waitState swapdSame]
          exact dormant.interruptible⟩
    exact waits.of_stirs (wakeupProc_rouses swapdDormant woken).toStirs

/-- Only `kswapd_wakeup_all` ends the sleep of a process that waits for memory. -/
theorem SwapAsleep.transition (asleep : k.SwapAsleep p) (inv : k.Inv) (known : k.Known p)
    (transition : Transition wrap k event k') :
    k'.SwapAsleep p ∨ (k.pc = .thread .kswapdMain ∧ k.kswapdWakeupAll = .ok k') := by
  cases transition with
  | wakeupAll source woken => exact .inr ⟨source, woken⟩
  | skip same => exact .inl (same ▸ asleep)
  | move pc moves moved => exact .inl (asleep.of_movedTo moved)
  | tickUser called user ticked =>
      have moves : k.pc.Moves k.flagged .tail := user ▸ .userTail
      have moved := goto_movedTo k .tail nofun
      have there := inv.move moves moved
      obtain ⟨rouses, _⟩ := runTimerList_spec there.others.queue there.timersWait ticked
      exact .inl ((asleep.of_movedTo moved).of_stirs rouses.toStirs)
  | tick called kernel ticked =>
      obtain ⟨rouses, _⟩ := runTimerList_spec inv.others.queue inv.timersWait ticked
      exact .inl (asleep.of_stirs rouses.toStirs)
  | schedule pc parks scheduled =>
      have same := schedule_unsched scheduled
      have there := asleep.of_movedTo
        (goto_movedTo k pc (Pc.parked_ne_initKswapd parks.parked))
      exact .inl (there.of_same (congrArg (fun m => (m.procs p).state) same :)
        (congrArg (fun m => (m.procs p).waitState) same :))
  | doExit errorCode m called source killed moved =>
      obtain ⟨rouses, _⟩ := killAll_spec inv.others.queue inv.exitGroup_dormant killed
      exact .inl ((asleep.of_stirs rouses.toStirs).of_movedTo moved)
  | kill pid ret m called user killed moved =>
      obtain ⟨rouses, _⟩ := inv.doKill_rouses killed
      exact .inl ((asleep.of_stirs rouses.toStirs).of_movedTo moved)
  | sleep time caller m source marked moved =>
      have running : k.pc.marks = false := by
        rcases source with ⟨here, _⟩ | ⟨here, _⟩ <;> rw [here] <;> rfl
      exact .inl ((asleep.sleepMark inv running marked).of_movedTo moved)
  | wakeKswapd swapd source present timer woken =>
      have dormant := inv.dormant (.inl (inv.others.swapd swapd present)) (by rw [timer]; decide)
      exact .inl (asleep.of_stirs (wakeupProc_rouses dormant woken).toStirs)
  | freePages w swapd m source present marked moved =>
      exact .inl ((asleep.freePagesMark inv source present marked).of_movedTo moved)
  | setKswapd source created moved =>
      have there : SwapAsleep { k with
          kswapd := k.findProc (k.procs k.current).kstack.ret } p := asleep
      exact .inl (there.of_movedTo moved)
  | forkAlloc flags kind caller child m source forked moved =>
      obtain ⟨free, notCurrent, _, timeSlice, rest, rfl⟩ :=
        forkAlloc_eq_ok inv.others.allocated forked
      have other : p ≠ child := by
        rintro rfl
        rw [inv.others.table.allocated p known] at free
        contradiction
      have same := withChild_procs_unlinked k kind child timeSlice rest other
      exact .inl ((asleep.of_same (congrArg ProcStruct.state same :)
        (congrArg ProcStruct.waitState same :)).of_movedTo moved)
  | forkFree flags child caller source moved =>
      have there : (k.freeProc child).SwapAsleep p := asleep
      exact .inl (there.of_movedTo moved)
  | forkLink flags child caller mm m called source linked moved =>
      exact .inl ((asleep.of_unlinked (forkLink_unlinked linked)).of_movedTo moved)
  | forkWake child caller m source woken moved =>
      have own := inv.own
      rw [source] at own
      obtain ⟨_, _, uninit, _⟩ := own.linked child caller rfl
      obtain ⟨_, _, _, _, _, _, rest, _, _⟩ := wakeChild_spares uninit woken
      have other : p ≠ child := by
        rintro rfl
        have isAsleep := asleep.1
        rw [uninit] at isAsleep
        contradiction
      have there : m.SwapAsleep p := asleep.of_same (rest p other).1 (rest p other).2
      subst moved
      exact .inl (there.of_same (m.modify_field _ _ ProcStruct.state rfl p)
        (m.modify_field _ _ ProcStruct.waitState rfl p))
  | execDrop caller source moved =>
      exact .inl ((asleep.of_unlinked (k.dropMm_unlinked k.current)).of_movedTo moved)
  | execFinish caller mm m source loaded moved =>
      obtain ⟨_, rfl⟩ := execFinish_eq_ok loaded
      have other := asleep.ne_current inv (by rw [source]; rfl)
      have same : (((k.withMm k.current mm).deThread k.current).modify k.current
          execDeadline).procs p = k.procs p :=
        (modify_procs_of_ne _ _ _ other).trans
          (modify_procs_of_ne k _ (fun s => { s with mm := some mm }) other)
      exact .inl ((asleep.of_same (congrArg ProcStruct.state same)
        (congrArg ProcStruct.waitState same)).of_movedTo moved)
  | reap pid caller zombie m pc source found reaped target moved =>
      obtain ⟨_, _, ⟨_, unrelated, _⟩, _⟩ := reap_spec reaped
      exact .inl ((asleep.of_same (congrArg ProcStruct.state (unrelated p) :)
        (congrArg ProcStruct.waitState (unrelated p) :)).of_movedTo moved)
  | waitSleep pid caller source found moved =>
      exact .inl ((asleep.of_changes (asleep.ne_current inv (by rw [source]; rfl))
        (k.modify_changes _)).of_movedTo moved)
  | waitMark pid caller source moved =>
      have settled := inv.own.settled
      rw [source] at settled
      have other : p ≠ k.current := by
        rintro rfl
        have wait := settled.fits.2.1
        rw [asleep.2] at wait
        contradiction
      exact .inl ((asleep.of_changes other (k.modify_changes _)).of_movedTo moved)
  | delTimer caller source moved =>
      have there : (k.delTimer k.current).SwapAsleep p := asleep
      exact .inl (there.of_movedTo moved)
  | exit m source exited moved =>
      obtain ⟨_, _, parent, heir, exits⟩ := inv.exits source exited
      have other := asleep.ne_current inv (by rw [source]; rfl)
      have there : k.ended.SwapAsleep p := by
        refine asleep.of_same ?_ (ended_waitState k p)
        rw [ended_state, if_neg other]
      exact .inl ((there.of_stirs exits.stirs).of_movedTo moved)

/-- The processes that the kernel knows, outside the window between the two marks of
`do_wait`. -/
theorem Inv.waiting (inv : k.Inv) (known : k.Known p)
    (unmarked : ∀ pid caller, (k.procs p).kstack.pc ≠ .waitState pid caller) :
    ((k.procs p).waitState ≠ 0 ↔ (k.procs p).state = .sleeping) ∧
      ((k.procs p).state = .sleeping → (k.procs p).waitState = wtTimer → k.Timed p) ∧
      ((k.procs p).state = .sleeping → (k.procs p).waitState = wtKswapd →
        p ∈ k.kswapdDone) := by
  have settled := inv.settled known
  have fits := settled.fits
  have notMarking : (k.procs p).kstack.pc.place ≠ .marking := by
    cases place : (k.procs p).kstack.pc with
    | waitState pid caller => exact absurd place (unmarked pid caller)
    | _ => nofun
  have timer : wtTimer ≠ wtChild ∧ wtTimer ≠ wtKswapd ∧ wtTimer ≠ 0 := by decide
  have swap : wtKswapd ≠ wtChild ∧ wtKswapd ≠ wtTimer ∧ wtKswapd ≠ 0 := by decide
  refine ⟨fits.waiting_iff notMarking, fun asleep wait => ?_, fun asleep wait => ?_⟩
  · cases place : (k.procs p).kstack.pc.place <;> rw [place] at fits <;>
      simp only [Place.Fits] at fits <;> grind
  · cases place : (k.procs p).kstack.pc.place <;> rw [place] at fits <;>
      simp only [Place.Fits] at fits <;> grind

/-- The sleep protocol.  Outside the window between the two marks of `do_wait` the
wait state of a process tells whether it sleeps; a sleeper's timer is on
`timer_list` or its record on `kswapd_done`; only `kswapd_wakeup_all` makes a
process runnable that sleeps for memory; and the assertions about sleeping
processes hold. -/
theorem sleep_protocol (reachable : Reachable wrap k) :
    (∀ p, k.Known p → (∀ pid caller, (k.procs p).kstack.pc ≠ .waitState pid caller) →
      ((k.procs p).waitState ≠ 0 ↔ (k.procs p).state = .sleeping) ∧
        ((k.procs p).state = .sleeping → (k.procs p).waitState = wtTimer → k.Timed p) ∧
        ((k.procs p).state = .sleeping → (k.procs p).waitState = wtKswapd →
          p ∈ k.kswapdDone)) ∧
      (∀ p event k', k.Known p → (k.procs p).state = .sleeping →
        (k.procs p).waitState = wtKswapd → k.step wrap event = .ok k' →
        (k'.procs p).state ≠ .sleeping →
          k.pc = .thread .kswapdMain ∧ k.kswapdWakeupAll = .ok k') ∧
      ∀ event site, k.step wrap event = .error (.panic site) → site ≠ .wakeupZombie ∧
        site ≠ .timerNotInterruptible ∧ site ≠ .forkWaitState ∧ site ≠ .freePagesPost := by
  have inv := reachable.inv
  refine ⟨fun p known unmarked => inv.waiting known unmarked, ?_, ?_⟩
  · intro p event k' known asleep wait stepped awake
    rcases SwapAsleep.transition ⟨asleep, wait⟩ inv known (.of_step stepped) with still | woken
    · exact absurd still.1 awake
    · exact woken
  · intro event site stopped
    have sound := inv.step_sound event site stopped
    refine ⟨?_, ?_, ?_, ?_⟩ <;> rintro rfl <;> contradiction

/-- A user process that has called `sleep(5)` has its timer on the list. -/
theorem sleep_protocol_sleeper :
    ∃ k, Run.exec (step wrapInt32) (boot fun _ => blank)
        (firstUser ++ forked .fork 4 ++ [.syscall (.sleep 5), .go 0]) = .ok k ∧
      (k.procs 3).state = .sleeping ∧ (k.procs 3).waitState ≠ 0 ∧ k.Timed 3 := by
  obtain ⟨k, run, asleep, wait, place, list⟩ := Run.exec_of_decide
    (fun k : Kernel => (k.procs 3).state = .sleeping ∧ (k.procs 3).waitState = wtTimer ∧
      (k.procs 3).kstack.pc = .sleepSched .trap ∧ k.procList = [4, 3, 2, 1])
    (by decide +kernel : (Run.exec (step wrapInt32) (boot fun _ => blank)
      (firstUser ++ forked .fork 4 ++ [.syscall (.sleep 5), .go 0])).map _ = .ok true)
  have known : k.Known 3 := .inl (by simp [list])
  obtain ⟨waiting, timed, _⟩ := (sleep_protocol ⟨_, _, run⟩).1 3 known (by simp [place])
  exact ⟨k, run, asleep, waiting.mpr asleep, timed asleep wait⟩

end Kernel

end EdfKernel
