import EdfKernel.Process.Departures
import EdfKernel.Process.Ticks

/-!
# Killed processes

`may_killed` is called at the end of a trap from user mode and in `do_wait`.  A process that is
killed before that call exits; one that is killed after it, or that starts or executes a program
without it, goes to user mode.
-/

namespace EdfKernel

open Library

/-- The function returns to a place from which the process goes to user mode. -/
def Caller.entersUser : Caller → Bool
  | .kernelExecve => true
  | .thread .userMain => true
  | _ => false

def Work.caller : Work → Caller
  | .fork _ _ caller => caller
  | .forkChild _ _ caller => caller
  | .execName caller => caller
  | .execLoad caller => caller
  | .pgfault => .trap
  | .memory => .trap

/-- User mode, and the places from which a process gets there without a call of `may_killed`. -/
def Pc.unchecked : Pc → Bool
  | .user => true
  | .forkret none => true
  | .forkret (some fn) => (Caller.thread fn).entersUser
  | .thread fn => (Caller.thread fn).entersUser
  | .threadSched fn => (Caller.thread fn).entersUser
  | .tailResched => true
  | .tailSched => true
  | .work w => w.caller.entersUser
  | .lockSched w => w.caller.entersUser
  | .freeMark w => w.caller.entersUser
  | .freeSched w => w.caller.entersUser
  | .forkWake _ caller => caller.entersUser
  | .wait _ caller => caller.entersUser
  | .waitState _ caller => caller.entersUser
  | .waitMark _ caller => caller.entersUser
  | .waitSched _ caller => caller.entersUser
  | .sleepMark caller => caller.entersUser
  | .sleepSched caller => caller.entersUser
  | _ => false

theorem Caller.unchecked_pc (caller : Caller) : caller.pc.unchecked = caller.entersUser := by
  cases caller <;> rfl

/-- A killed process does not move to a place from which it gets to user mode unchecked, except
from such a place. -/
theorem Pc.Moves.unchecked {source target : Pc} (moves : source.Moves true target)
    (checked : source.unchecked = false) : target.unchecked = false := by
  cases moves with
  | forkFail flags kind caller => exact caller.unchecked_pc.trans checked
  | waitNone pid caller => exact caller.unchecked_pc.trans checked
  | tailAlive alive => cases alive
  | _ => first | rfl | exact checked

theorem Pc.Parks.unchecked {source target : Pc} (parks : source.Parks target)
    (checked : source.unchecked = false) : target.unchecked = false := by
  cases parks <;> first | rfl | exact checked

namespace Kernel

variable {wrap : Int → Int} {k k' m : Kernel} {event : Event} {p q : ProcPtr} {pc : Pc}

/-! ## PF_EXITING -/

theorem MovedTo.flags (moved : m.MovedTo pc k') (q : ProcPtr) :
    (k'.procs q).flags = (m.procs q).flags := by
  obtain ⟨ret, exitCode, needResched, _, rfl⟩ := moved
  exact m.modify_field m.current _ ProcStruct.flags rfl q

theorem Wakes.flags {victims : ProcPtr → Prop} (wakes : k.Wakes victims m) (spared : ¬victims q) :
    (m.procs q).flags = (k.procs q).flags :=
  congrArg (fun fate => fate.1) (wakes.fate spared)

theorem Writes.flags {victims : ProcPtr → Prop} (writes : k.Writes victims m)
    (spared : ¬victims q) : (m.procs q).flags = (k.procs q).flags :=
  congrArg (fun fate => fate.1) (writes.fate q spared)

/-- The processes that an event kills, the current one apart. -/
def kills (k : Kernel) : Event → List ProcPtr
  | .syscall (.kill pid) => (k.findProc pid).toList
  | .syscall (.exit _) => (k.threadRing k.current).tail
  | .fault => (k.threadRing k.current).tail
  | .fail _ =>
      match k.pc with
      | .work .pgfault => (k.threadRing k.current).tail
      | .work (.execLoad _) => (k.threadRing k.current).tail
      | _ => []
  | _ => []

/-- A process that a step kills. -/
def Kills (k : Kernel) (event : Event) (q : ProcPtr) : Prop := q ∈ k.kills event ∧ ¬k.Exiting q

theorem Kills.known (kills : k.Kills event p) (inv : k.Inv) : k.Known p := by
  have ring : p ∈ (k.threadRing k.current).tail → k.Known p := fun mem =>
    threadRing_known inv.others.table inv.others.current (List.mem_of_mem_tail mem)
  have mem := kills.1
  cases event with
  | syscall call =>
      cases call with
      | exit errorCode => exact ring mem
      | kill pid =>
          have found : k.findProc pid = some p := Option.mem_toList.mp mem
          exact .inl (inv.others.table.numbered.findProc_eq_some_iff.mp found).1
      | _ => cases mem
  | fault => exact ring mem
  | fail errorCode =>
      simp only [Kernel.kills] at mem
      split at mem
      · exact ring mem
      · exact ring mem
      · cases mem
  | _ => cases mem

theorem exits_kills (stepped : k.step wrap event = .ok k') (called : event.Exits)
    (source : k.pc = .user ∨ k.pc = .work .pgfault ∨ ∃ caller, k.pc = .work (.execLoad caller)) :
    k.kills event = (k.threadRing k.current).tail := by
  cases event with
  | syscall call =>
      cases call with
      | exit errorCode => rfl
      | _ => cases called
  | fault => rfl
  | fail errorCode =>
      rcases source with user | fault | ⟨caller, loading⟩
      · simp only [step, user] at stepped
        contradiction
      · rw [kills, fault]
      · rw [kills, loading]
  | _ => cases called

/-- A step changes the flags only of the processes it kills. -/
theorem step_flags (stepped : k.step wrap event = .ok k') (inv : k.Inv) (clocked : k.Clocked)
    (allocated : k.allocated q = true) (spared : ¬k.Kills event q) :
    (k'.procs q).flags = (k.procs q).flags := by
  have stored : ∀ change : ProcStruct → ProcStruct, (change (k.procs k.current)).flags =
      (k.procs k.current).flags → ((k.modify k.current change).procs q).flags =
        (k.procs q).flags :=
    fun change same => k.modify_field k.current change ProcStruct.flags same q
  cases Transition.of_step stepped with
  | skip same => rw [same]
  | move pc moves moved => exact moved.flags q
  | tickUser called user ticked =>
      have moves : k.pc.Moves k.flagged .tail := user ▸ .userTail
      have there := inv.move moves (goto_movedTo k _ (by rintro ⟨⟩))
      have fate := runTimerList_fate there clocked.runs clocked.fits ticked q
      exact (congrArg (fun fate => fate.1) fate).trans (stored _ rfl)
  | tick called kernel ticked =>
      have fate := runTimerList_fate inv clocked.runs clocked.fits ticked q
      exact congrArg (fun fate => fate.1) fate
  | schedule pc parks scheduled =>
      have frame := schedule_unsched scheduled
      exact (congrArg (fun m => (m.procs q).flags) frame :).trans (stored _ rfl)
  | doExit errorCode m called source killed moved =>
      refine (moved.flags q).trans ((killAll_wakes killed).flags fun victim => ?_)
      exact spared ⟨exits_kills stepped called source ▸ victim.1, victim.2⟩
  | kill pid ret m called user killed moved =>
      refine (moved.flags q).trans ?_
      unfold doKill at killed
      split at killed
      · rename_i p found
        refine (killProc_wakes killed).flags ?_
        rintro ⟨rfl, alive⟩
        refine spared ⟨?_, alive⟩
        rw [called, kills, found]
        exact List.mem_singleton_self q
      · cases killed
        rfl
  | sleep time caller m source marked moved =>
      obtain ⟨_, _, rfl⟩ := sleepMark_eq_ok marked
      exact (moved.flags q).trans (stored markTimer rfl)
  | wakeKswapd swapd source present asleep woken => exact (Wakes.of_wakeupProc woken).flags spared
  | wakeupAll source woken => exact (wakeupQueue_wakes woken).flags spared
  | freePages w swapd m source present marked moved =>
      have marks : (k.awaitsSwap.procs q).flags = (k.procs q).flags := stored markSwap rfl
      refine (moved.flags q).trans ?_
      obtain ⟨_, rfl | ⟨_, woken⟩⟩ := freePagesMark_eq_ok marked
      · exact marks
      · exact ((Wakes.of_wakeupProc woken).flags spared).trans marks
  | setKswapd source created moved => exact moved.flags q
  | forkAlloc flags kind caller child m source forked moved =>
      obtain ⟨free, _, _, timeSlice, rest, rfl⟩ := forkAlloc_eq_ok inv.others.allocated forked
      have notChild : q ≠ child := by
        rintro rfl
        rw [allocated] at free
        contradiction
      have same := k.withChild_procs_unlinked kind child timeSlice rest notChild
      exact (moved.flags q).trans (congrArg ProcStruct.flags same :)
  | forkFree flags child caller source moved => exact moved.flags q
  | forkLink flags child caller mm m called source linked moved =>
      exact (moved.flags q).trans (congrArg (fun m => (m.procs q).flags) (forkLink_unlinked linked) :)
  | forkWake child caller m source woken moved =>
      subst moved
      refine (m.modify_field m.current _ ProcStruct.flags rfl q).trans ?_
      exact (Wakes.of_wakeupProc woken).flags spared
  | execDrop caller source moved =>
      exact (moved.flags q).trans
        (congrArg (fun m => (m.procs q).flags) (k.dropMm_unlinked k.current) :)
  | execFinish caller mm m source loaded moved =>
      obtain ⟨_, rfl⟩ := execFinish_eq_ok loaded
      refine (moved.flags q).trans ?_
      refine (modify_field _ k.current execDeadline ProcStruct.flags rfl q).trans ?_
      exact stored (fun s => { s with mm := some mm }) rfl
  | reap pid caller zombie m pc source found reaped target moved =>
      exact (moved.flags q).trans ((reap_writes reaped).flags spared)
  | waitSleep pid caller source found moved => exact (moved.flags q).trans (stored _ rfl)
  | waitMark pid caller source moved => exact (moved.flags q).trans (stored _ rfl)
  | delTimer caller source moved => exact moved.flags q
  | exit m source exited moved => exact (moved.flags q).trans ((exitProc_wakes exited).flags spared)

/-! ## One step -/

/-- The current process is not killed by its own call of `do_exit`. -/
theorem threadRing_tail_ne (table : Table k) (p : ProcPtr) : p ∉ (k.threadRing p).tail := by
  have split := Rings.ring_eq_cons k.threadGroups p
  have nodup := Rings.ring_nodup table.groups.disjoint p
  change k.threadRing p = p :: (k.threadRing p).tail at split
  change (k.threadRing p).Nodup at nodup
  rw [split] at nodup
  exact (List.nodup_cons.mp nodup).1

/-- A process that kills itself goes to the end of the system call. -/
theorem step_suicide (stepped : k.step wrap event = .ok k') (table : Table k)
    (kills : k.Kills event k.current) : (k'.procs k.current).kstack.pc = .tail := by
  obtain ⟨mem, alive⟩ := kills
  have notTail := threadRing_tail_ne table k.current
  cases event with
  | syscall call =>
      cases call with
      | kill pid =>
          simp only [step] at stepped
          split at stepped
          · obtain ⟨⟨ret, m⟩, killed, result⟩ := bind_eq_ok_iff.mp stepped
            cases result
            have current : m.current = k.current := by
              unfold doKill at killed
              split at killed
              · exact (killProc_wakes killed).current
              · cases killed
                rfl
            exact (returnTo_movedTo m .trap ret (by rintro ⟨⟩)).own_pc current
          · contradiction
      | exit errorCode => exact absurd mem notTail
      | _ => cases mem
  | fault => exact absurd mem notTail
  | fail errorCode =>
      change k.current ∈ (match k.pc with
        | .work .pgfault => (k.threadRing k.current).tail
        | .work (.execLoad _) => (k.threadRing k.current).tail
        | _ => []) at mem
      split at mem
      · exact absurd mem notTail
      · exact absurd mem notTail
      · cases mem
  | _ => cases mem

/-- A killed process does not come to a place from which it gets to user mode unchecked. -/
theorem step_unchecked (stepped : k.step wrap event = .ok k') (inv : k.Inv)
    (clocked : k.Clocked) (checked : k.Exiting k.current → k.pc.unchecked = false)
    (exiting : k'.Exiting k.current) : (k'.procs k.current).kstack.pc.unchecked = false := by
  by_cases kills : k.Kills event k.current
  · rw [step_suicide stepped inv.others.table kills]
    rfl
  have same := step_flags stepped inv clocked inv.others.allocated kills
  have before : k.Exiting k.current := by
    rw [Exiting, ← same]
    exact exiting
  have flagged : k.flagged = true := decide_eq_true before
  have here := checked before
  cases Transition.of_step stepped with
  | skip same => exact same ▸ here
  | move pc moves moved =>
      rw [moved.own_pc rfl]
      exact (flagged ▸ moves).unchecked here
  | tickUser called user ticked =>
      rw [user] at here
      contradiction
  | tick called kernel ticked =>
      obtain ⟨rouses, _⟩ := runTimerList_spec inv.others.queue inv.timersWait ticked
      rw [rouses.kstack]
      exact here
  | schedule pc parks scheduled =>
      rw [scheduleTo_pc scheduled]
      exact parks.unchecked here
  | doExit errorCode m called source killed moved =>
      rw [moved.own_pc (killAll_wakes killed).current]
      rfl
  | kill pid ret m called user killed moved =>
      rw [user] at here
      contradiction
  | sleep time caller m source marked moved =>
      obtain ⟨_, _, rfl⟩ := sleepMark_eq_ok marked
      rw [moved.own_pc (rfl : _ = k.current)]
      rcases source with ⟨user, _⟩ | ⟨_, rfl⟩
      · rw [user] at here
        contradiction
      · rfl
  | wakeKswapd swapd source present asleep woken =>
      have pc := congrArg (fun fate => fate.2.2)
        ((Wakes.of_wakeupProc woken : k.Wakes (fun _ => False) k').fate (q := k.current) id)
      exact (congrArg Pc.unchecked pc).trans here
  | wakeupAll source woken =>
      have pc := congrArg (fun fate => fate.2.2)
        ((wakeupQueue_wakes woken : k.Wakes (fun _ => False) k').fate (q := k.current) id)
      exact (congrArg Pc.unchecked pc).trans here
  | freePages w swapd m source present marked moved =>
      have current : m.current = k.current := by
        obtain ⟨_, rfl | ⟨_, woken⟩⟩ := freePagesMark_eq_ok marked
        · rfl
        · exact (congrArg Kernel.current (wakeupProc_unwoken woken) :)
      rw [moved.own_pc current]
      rw [source] at here
      exact here
  | setKswapd source created moved =>
      rw [moved.own_pc (rfl : _ = k.current)]
      rfl
  | forkAlloc flags kind caller child m source forked moved =>
      obtain ⟨_, _, _, timeSlice, rest, rfl⟩ := forkAlloc_eq_ok inv.others.allocated forked
      rw [moved.own_pc (rfl : _ = k.current)]
      rw [source] at here
      exact here
  | forkFree flags child caller source moved =>
      rw [moved.own_pc (rfl : _ = k.current), caller.unchecked_pc]
      rw [source] at here
      exact here
  | forkLink flags child caller mm m called source linked moved =>
      have current : m.current = k.current :=
        (congrArg Kernel.current (forkLink_unlinked linked) :)
      rw [moved.own_pc current]
      rw [source] at here
      exact here
  | forkWake child caller m source woken moved =>
      have current : m.current = k.current :=
        (congrArg Kernel.current (wakeupProc_unwoken woken) :)
      have pc : (k'.procs k.current).kstack.pc = caller.pc := by
        rw [moved, ← current]
        simp [returnTo]
      rw [pc, caller.unchecked_pc]
      rw [source] at here
      exact here
  | execDrop caller source moved =>
      have current : (k.dropMm k.current).current = k.current :=
        (congrArg Kernel.current (k.dropMm_unlinked k.current) :)
      rw [moved.own_pc current]
      rw [source] at here
      exact here
  | execFinish caller mm m source loaded moved =>
      obtain ⟨_, rfl⟩ := execFinish_eq_ok loaded
      rw [moved.own_pc (rfl : _ = k.current), caller.unchecked_pc]
      rw [source] at here
      exact here
  | reap pid caller zombie m pc source found reaped target moved =>
      rw [moved.own_pc (reap_writes reaped : k.Writes (fun _ => False) m).current, target]
      rw [source] at here
      cases caller with
      | trap => rfl
      | _ => exact here
  | waitSleep pid caller source found moved =>
      rw [moved.own_pc (rfl : _ = k.current)]
      rw [source] at here
      exact here
  | waitMark pid caller source moved =>
      rw [moved.own_pc (rfl : _ = k.current)]
      rw [source] at here
      exact here
  | delTimer caller source moved =>
      rw [moved.own_pc (rfl : _ = k.current), caller.unchecked_pc]
      rw [source] at here
      exact here
  | exit m source exited moved =>
      have wakes : k.Wakes (fun _ => False) m := exitProc_wakes exited
      rw [moved.own_pc wakes.current]
      rfl

/-! ## New descriptors -/

/-- A descriptor comes from `alloc_proc`, which clears the flags. -/
theorem step_allocated (stepped : k.step wrap event = .ok k') (inv : k.Inv)
    (allocated : k'.allocated q = true) :
    k.allocated q = true ∨ (k'.procs q).flags = 0 := by
  have old : ∀ {m : Kernel} {pc : Pc}, m.MovedTo pc k' → m.allocated = k.allocated →
      k.allocated q = true := by
    intro m pc moved same
    obtain ⟨ret, exitCode, needResched, _, rfl⟩ := moved
    exact same ▸ allocated
  have woken : ∀ p m, k.wakeupProc p = .ok m → m.allocated = k.allocated :=
    fun p m woken => (congrArg Kernel.allocated (wakeupProc_unwoken woken) :)
  cases Transition.of_step stepped with
  | skip same => exact .inl (same ▸ allocated)
  | move pc moves moved => exact .inl (old moved rfl)
  | tickUser called user ticked =>
      have moves : k.pc.Moves k.flagged .tail := user ▸ .userTail
      have there := inv.move moves (goto_movedTo k _ (by rintro ⟨⟩))
      obtain ⟨rouses, _⟩ := runTimerList_spec there.others.queue there.timersWait ticked
      exact .inl (rouses.allocated ▸ allocated)
  | tick called kernel ticked =>
      obtain ⟨rouses, _⟩ := runTimerList_spec inv.others.queue inv.timersWait ticked
      exact .inl (rouses.allocated ▸ allocated)
  | schedule pc parks scheduled =>
      have same : k'.allocated = k.allocated :=
        (congrArg Kernel.allocated (schedule_unsched scheduled) :)
      exact .inl (same ▸ allocated)
  | doExit errorCode m called source killed moved =>
      obtain ⟨rouses, _⟩ := killAll_spec inv.others.queue inv.exitGroup_dormant killed
      exact .inl (old moved rouses.allocated)
  | kill pid ret m called user killed moved =>
      obtain ⟨rouses, _⟩ := inv.doKill_rouses killed
      exact .inl (old moved rouses.allocated)
  | sleep time caller m source marked moved =>
      obtain ⟨_, _, rfl⟩ := sleepMark_eq_ok marked
      exact .inl (old moved rfl)
  | wakeKswapd swapd source present asleep wakes =>
      exact .inl (woken swapd k' wakes ▸ allocated)
  | wakeupAll source wakes =>
      obtain ⟨queue, _, _⟩ := inv.wakesAll wakes
      have same : k'.allocated = k.allocated := (congrArg Kernel.allocated queue.relations :)
      exact .inl (same ▸ allocated)
  | freePages w swapd m source present marked moved =>
      refine .inl (old moved ?_)
      obtain ⟨_, rfl | ⟨_, wakes⟩⟩ := freePagesMark_eq_ok marked
      · rfl
      · exact (congrArg Kernel.allocated (wakeupProc_unwoken wakes) :)
  | setKswapd source created moved => exact .inl (old moved rfl)
  | forkAlloc flags kind caller child m source forked moved =>
      obtain ⟨_, notCurrent, _, timeSlice, rest, rfl⟩ :=
        forkAlloc_eq_ok inv.others.allocated forked
      by_cases own : q = child
      · subst own
        right
        rw [moved.flags, withChild_procs_child _ _ _ _ _ notCurrent]
        cases kind <;> rfl
      · obtain ⟨ret, exitCode, needResched, _, rfl⟩ := moved
        have before : Function.update k.allocated child true q = true := allocated
        exact .inl (Function.update_of_ne own true k.allocated ▸ before)
  | forkFree flags child caller source moved =>
      obtain ⟨ret, exitCode, needResched, _, rfl⟩ := moved
      have before : Function.update k.allocated child false q = true := allocated
      by_cases own : q = child
      · subst own
        rw [Function.update_self] at before
        contradiction
      · exact .inl (Function.update_of_ne own false k.allocated ▸ before)
  | forkLink flags child caller mm m called source linked moved =>
      exact .inl (old moved (congrArg Kernel.allocated (forkLink_unlinked linked) :))
  | forkWake child caller m source wakes moved =>
      subst moved
      exact .inl (woken child m wakes ▸ allocated)
  | execDrop caller source moved =>
      exact .inl (old moved (congrArg Kernel.allocated (k.dropMm_unlinked k.current) :))
  | execFinish caller mm m source loaded moved =>
      obtain ⟨_, rfl⟩ := execFinish_eq_ok loaded
      exact .inl (old moved rfl)
  | reap pid caller zombie m pc source found reaped target moved =>
      obtain ⟨_, _, ⟨frame, _, _⟩, _⟩ := reap_spec reaped
      obtain ⟨ret, exitCode, needResched, _, rfl⟩ := moved
      have same : m.allocated = Function.update k.allocated zombie false :=
        (congrArg Kernel.allocated frame :)
      have before : Function.update k.allocated zombie false q = true := same ▸ allocated
      by_cases own : q = zombie
      · subst own
        rw [Function.update_self] at before
        contradiction
      · exact .inl (Function.update_of_ne own false k.allocated ▸ before)
  | waitSleep pid caller source found moved => exact .inl (old moved rfl)
  | waitMark pid caller source moved => exact .inl (old moved rfl)
  | delTimer caller source moved => exact .inl (old moved rfl)
  | exit m source exited moved =>
      obtain ⟨_, _, parent, heir, exits⟩ := inv.exits source exited
      have dropped : k.ended.allocated = k.allocated :=
        (congrArg Kernel.allocated (k.ended_withProcs k.procs) :)
      exact .inl (old moved (exits.stirs.allocated.trans dropped))

/-! ## Every run -/

/-- The event does not kill `p` at a place from which it gets to user mode unchecked. -/
def SparesUnchecked (k : Kernel) (p : ProcPtr) (event : Event) : Prop :=
  p ∈ k.kills event → p ≠ k.current → ¬k.Exiting p → (k.procs p).kstack.pc.unchecked = false

/-- Whether `p` exits before it gets to user mode if it has been killed. -/
def KilledStops (k : Kernel) (p : ProcPtr) : Prop :=
  k.allocated p = true → k.Exiting p → (k.procs p).kstack.pc.unchecked = false

theorem KilledStops.step (stops : k.KilledStops p) (reachable : Reachable wrap k)
    (spares : k.SparesUnchecked p event) (stepped : k.step wrap event = .ok k') :
    k'.KilledStops p := by
  have inv := reachable.inv
  have clocked := reachable.clocked
  intro allocated' exiting'
  rcases step_allocated stepped inv allocated' with allocated | cleared
  · by_cases own : p = k.current
    · subst own
      exact step_unchecked stepped inv clocked (fun exiting => stops allocated exiting) exiting'
    · rw [(Transition.of_step stepped).pc_of_ne inv allocated own]
      by_cases kills : k.Kills event p
      · exact spares kills.1 own kills.2
      · refine stops allocated ?_
        rw [Exiting, ← step_flags stepped inv clocked allocated kills]
        exact exiting'
  · rw [Exiting, cleared] at exiting'
    exact absurd rfl exiting'

/-- A process that is killed at a place from which it does not get to user mode unchecked is not
seen in user mode again. -/
theorem killed_not_user (memory : ProcPtr → ProcStruct) (events : List Event) (p : ProcPtr)
    (spares : Run.Along (Kernel.step wrap) (fun m event => m.SparesUnchecked p event)
      (boot memory) events)
    (run : Run.exec (Kernel.step wrap) (boot memory) events = .ok k) (known : k.Known p)
    (exiting : k.Exiting p) : (k.procs p).kstack.pc ≠ .user := by
  obtain ⟨reachable, stops⟩ : Reachable wrap k ∧ k.KilledStops p := by
    refine @Run.exec_invariant_along _ _ _ _ (fun m => Reachable wrap m ∧ m.KilledStops p)
      _ ?_ _ _ _ ?_ spares run
    · rintro m event next ⟨reached, stops⟩ spared stepped
      exact ⟨reached.step stepped, stops.step reached spared stepped⟩
    · refine ⟨⟨memory, [], rfl⟩, fun allocated exiting => ?_⟩
      have cases : p = 0 ∨ p = 1 := by simpa [boot] using allocated
      rcases cases with rfl | rfl
      · exact absurd (by decide : (0 : UInt32) &&& pfExiting = 0) exiting
      · exact absurd (by decide : (0 : UInt32) &&& pfExiting = 0) exiting
  have checked := stops (reachable.inv.others.table.allocated p known) exiting
  intro user
  rw [user] at checked
  contradiction

instance (k : Kernel) (p : ProcPtr) (event : Event) : Decidable (k.SparesUnchecked p event) :=
  inferInstanceAs (Decidable (p ∈ k.kills event → p ≠ k.current →
    ¬(k.procs p).flags &&& pfExiting ≠ 0 → (k.procs p).kstack.pc.unchecked = false))

/-- A user process and its first child sleep when the second child kills the first one. -/
def sleeperKilled : List Event :=
  firstUser ++ forked .fork 4 ++ forked .fork 5 ++
    [.syscall (.sleep 1), .go 0, .go 0, .syscall (.sleep 5), .go 0, .go 0, .syscall (.kill 4),
      .go 0, .go 0, .syscall (.sleep 9), .go 0, .go 0, .go 0]

/-- The first child exits. -/
theorem killed_not_user_sleeper :
    ∃ k, Run.exec (Kernel.step wrapInt32) (boot fun _ => blank) sleeperKilled = .ok k ∧
      k.Known 4 ∧ k.Exiting 4 ∧ (k.procs 4).kstack.pc ≠ .user := by
  obtain ⟨k, run, listed, exiting⟩ := Run.exec_of_decide
    (fun k : Kernel => 4 ∈ k.procList ∧ (k.procs 4).flags &&& pfExiting ≠ 0)
    (by decide +kernel : (Run.exec (Kernel.step wrapInt32) (boot fun _ => blank)
      sleeperKilled).map _ = .ok true)
  have spares : Run.Along (Kernel.step wrapInt32) (fun m event => m.SparesUnchecked 4 event)
      (boot fun _ => blank) sleeperKilled := by
    decide +kernel
  exact ⟨k, run, .inl listed, exiting,
    killed_not_user (fun _ => blank) sleeperKilled 4 spares run (.inl listed) exiting⟩

/-- A child that is killed before it has run starts its program all the same. -/
theorem killed_not_user_newborn :
    ¬∀ k, Reachable wrapInt32 k → ∀ p events k', k.Known p → k.Exiting p →
      (k.procs p).kstack.pc ≠ .user → Run.exec (Kernel.step wrapInt32) k events = .ok k' →
      k'.Known p → k'.Exiting p → (k'.procs p).kstack.pc ≠ .user := by
  intro never
  obtain ⟨k, run, listed, exiting, notUser⟩ := Run.exec_of_decide
    (fun k : Kernel => 4 ∈ k.procList ∧ (k.procs 4).flags &&& pfExiting ≠ 0 ∧
      (k.procs 4).kstack.pc ≠ .user)
    (by decide +kernel : (Run.exec (Kernel.step wrapInt32) (boot fun _ => blank)
      (firstUser ++ forked .fork 4 ++ [.syscall (.kill 4)])).map _ = .ok true)
  obtain ⟨k', run', listed', exiting', user⟩ := Run.exec_of_decide
    (fun k : Kernel => 4 ∈ k.procList ∧ (k.procs 4).flags &&& pfExiting ≠ 0 ∧
      (k.procs 4).kstack.pc = .user)
    (by decide +kernel : (Run.exec (Kernel.step wrapInt32) (boot fun _ => blank)
      (firstUser ++ forked .fork 4 ++ [.syscall (.kill 4)] ++
        [.go 0, .go 0, .syscall (.sleep 1), .go 0, .go 0])).map _ = .ok true)
  rw [Run.exec_append, run] at run'
  exact never k ⟨_, _, run⟩ 4 _ k' (.inl listed) exiting notUser run' (.inl listed') exiting' user

end Kernel

end EdfKernel
