import EdfKernel.Process.Killed
import Mathlib.Data.List.Dedup

/-!
# Group exit

`do_exit` kills the processes that are on the ring of the current one when it runs.  A member that
is in the middle of `do_fork` goes on, and with `CLONE_THREAD` its child joins the ring unkilled.
-/

namespace EdfKernel

open Library

/-- The process is in `__do_exit`. -/
def Pc.exits : Pc → Bool
  | .exit => true
  | .exitSched => true
  | .dead => true
  | _ => false

theorem Pc.Moves.exits {flagged : Bool} {source target : Pc} (moves : source.Moves flagged target) :
    source.exits = false := by
  cases moves <;> rfl

theorem Pc.Parks.exits {source target : Pc} (parks : source.Parks target)
    (exits : source.exits = true) : target.exits = true := by
  cases parks <;> first | rfl | exact exits

namespace Kernel

variable {wrap : Int → Int} {k k' m : Kernel} {event : Event} {p q : ProcPtr}

/-! ## Calls -/

/-- The current process calls `do_exit`. -/
def callsDoExit (k : Kernel) : Event → Bool
  | .syscall (.exit _) => decide (k.pc = .user)
  | .fault => decide (k.pc = .user)
  | .fail _ =>
      match k.pc with
      | .work .pgfault => true
      | .work (.execLoad _) => true
      | _ => false
  | _ => false

/-- The current process links the child of a clone with `CLONE_THREAD`. -/
def linksThread (k : Kernel) : Event → Bool
  | .go _ =>
      match k.pc with
      | .work (.forkChild flags _ _) => decide (flags &&& cloneThread ≠ 0)
      | _ => false
  | _ => false

theorem callsDoExit_step (called : k.callsDoExit event = true)
    (stepped : k.step wrap event = .ok k') : ∃ errorCode, k.doExit errorCode = .ok k' := by
  cases event with
  | syscall call =>
      cases call with
      | exit errorCode =>
          simp only [step] at stepped
          split at stepped
          · exact ⟨errorCode, stepped⟩
          · contradiction
      | _ => contradiction
  | fault =>
      simp only [step] at stepped
      split at stepped
      · exact ⟨-eKilled, stepped⟩
      · contradiction
  | fail errorCode =>
      simp only [callsDoExit] at called
      simp only [step] at stepped
      split at called
      · rename_i source
        rw [source] at stepped
        exact ⟨-eKilled, stepped⟩
      · rename_i source
        rw [source] at stepped
        exact ⟨errorCode, stepped⟩
      · contradiction
  | _ => contradiction

/-- A process in `__do_exit` does not leave it. -/
theorem step_exits (stepped : k.step wrap event = .ok k') (inv : k.Inv)
    (allocated : k.allocated q = true) (exits : (k.procs q).kstack.pc.exits = true) :
    (k'.procs q).kstack.pc.exits = true := by
  have transition := Transition.of_step stepped
  by_cases own : q = k.current
  · subst own
    have place : k.pc.exits = true := exits
    have elsewhere : ∀ {pc : Pc}, k.pc = pc → pc.exits = false → False := by
      intro pc here away
      rw [here, away] at place
      contradiction
    cases transition with
    | skip same => exact same ▸ exits
    | move pc moves moved => exact (elsewhere rfl moves.exits).elim
    | tickUser called user ticked => exact (elsewhere user rfl).elim
    | tick called kernel ticked =>
        obtain ⟨rouses, _⟩ := runTimerList_spec inv.others.queue inv.timersWait ticked
        rw [rouses.kstack]
        exact exits
    | schedule pc parks scheduled =>
        rw [scheduleTo_pc scheduled]
        exact parks.exits place
    | doExit errorCode m called source killed moved =>
        rcases source with user | fault | ⟨caller, loading⟩
        · exact (elsewhere user rfl).elim
        · exact (elsewhere fault rfl).elim
        · exact (elsewhere loading rfl).elim
    | kill pid ret m called user killed moved => exact (elsewhere user rfl).elim
    | sleep time caller m source marked moved =>
        rcases source with ⟨user, _⟩ | ⟨thread, _⟩
        · exact (elsewhere user rfl).elim
        · exact (elsewhere thread rfl).elim
    | wakeKswapd swapd source present asleep woken => exact (elsewhere source rfl).elim
    | wakeupAll source woken => exact (elsewhere source rfl).elim
    | freePages w swapd m source present marked moved => exact (elsewhere source rfl).elim
    | setKswapd source created moved => exact (elsewhere source rfl).elim
    | forkAlloc flags kind caller child m source forked moved => exact (elsewhere source rfl).elim
    | forkFree flags child caller source moved => exact (elsewhere source rfl).elim
    | forkLink flags child caller mm m called source linked moved =>
        exact (elsewhere source rfl).elim
    | forkWake child caller m source woken moved => exact (elsewhere source rfl).elim
    | execDrop caller source moved => exact (elsewhere source rfl).elim
    | execFinish caller mm m source loaded moved => exact (elsewhere source rfl).elim
    | reap pid caller zombie m pc source found reaped target moved =>
        exact (elsewhere source rfl).elim
    | waitSleep pid caller source found moved => exact (elsewhere source rfl).elim
    | waitMark pid caller source moved => exact (elsewhere source rfl).elim
    | delTimer caller source moved => exact (elsewhere source rfl).elim
    | exit m source exited moved =>
        have wakes : k.Wakes (fun _ => False) m := exitProc_wakes exited
        rw [moved.own_pc wakes.current]
        rfl
  · rw [transition.pc_of_ne inv allocated own]
    exact exits

/-! ## Rings -/

/-- A process joins the ring of another one when a member of the ring clones it. -/
theorem step_threadRing (stepped : k.step wrap event = .ok k') (inv : k.Inv) (known : k.Known p)
    (inRing : q ∈ k'.threadRing p) :
    q ∈ k.threadRing p ∨ (k.linksThread event = true ∧ k.current ∈ k.threadRing p) := by
  have table := inv.others.table
  have disjoint := table.groups.disjoint
  have kept : k'.relations = k.relations → q ∈ k.threadRing p :=
    fun same => threadRing_of_relations same p ▸ inRing
  have before : ∀ {m : Kernel} {pc : Pc}, m.MovedTo pc k' → m.relations = k.relations →
      q ∈ k.threadRing p :=
    fun moved same => kept ((movedTo_relations moved).trans same)
  have left : ∀ {m : Kernel} {pc : Pc}, m.MovedTo pc k' →
      m.threadGroups = Rings.leave k.current k.threadGroups → q ∈ k.threadRing p := by
    intro m pc moved groups
    rw [moved.threadRing, threadRing, groups, Rings.mem_ring_iff (Rings.leave_nodup disjoint),
      Rings.together_leave_iff disjoint] at inRing
    rw [threadRing, Rings.mem_ring_iff disjoint]
    rcases inRing with same | ⟨together, _⟩
    · exact .inl same
    · exact together
  cases Transition.of_step stepped with
  | skip same => exact .inl (same ▸ inRing)
  | move pc moves moved => exact .inl (before moved rfl)
  | tickUser called user ticked =>
      have moves : k.pc.Moves k.flagged .tail := user ▸ .userTail
      have moved := goto_movedTo k .tail (by rintro ⟨⟩)
      have there := inv.move moves moved
      obtain ⟨rouses, _⟩ := runTimerList_spec there.others.queue there.timersWait ticked
      exact .inl (kept (rouses.relations.trans (movedTo_relations moved)))
  | tick called kernel ticked =>
      obtain ⟨rouses, _⟩ := runTimerList_spec inv.others.queue inv.timersWait ticked
      exact .inl (kept rouses.relations)
  | schedule pc parks scheduled =>
      have groups : k'.threadGroups = k.threadGroups :=
        (congrArg Kernel.threadGroups (schedule_unsched scheduled) :)
      rw [threadRing, groups] at inRing
      exact .inl inRing
  | doExit errorCode m called source killed moved =>
      obtain ⟨rouses, _⟩ := killAll_spec inv.others.queue inv.exitGroup_dormant killed
      exact .inl (before moved rouses.relations)
  | kill pid ret m called user killed moved =>
      obtain ⟨rouses, _⟩ := inv.doKill_rouses killed
      exact .inl (before moved rouses.relations)
  | sleep time caller m source marked moved =>
      obtain ⟨_, _, rfl⟩ := sleepMark_eq_ok marked
      rw [moved.threadRing] at inRing
      exact .inl inRing
  | wakeKswapd swapd source present asleep woken =>
      have groups : k'.threadGroups = k.threadGroups :=
        (congrArg Kernel.threadGroups (wakeupProc_unwoken woken) :)
      rw [threadRing, groups] at inRing
      exact .inl inRing
  | wakeupAll source woken =>
      obtain ⟨wakes, _, _⟩ := inv.wakesAll woken
      exact .inl (kept wakes.relations)
  | freePages w swapd m source present marked moved =>
      have groups : m.threadGroups = k.threadGroups := by
        obtain ⟨_, rfl | ⟨_, woken⟩⟩ := freePagesMark_eq_ok marked
        · rfl
        · exact (congrArg Kernel.threadGroups (wakeupProc_unwoken woken) :)
      rw [moved.threadRing, threadRing, groups] at inRing
      exact .inl inRing
  | setKswapd source created moved =>
      rw [moved.threadRing] at inRing
      exact .inl inRing
  | forkAlloc flags kind caller child m source forked moved =>
      obtain ⟨_, _, _, timeSlice, rest, rfl⟩ := forkAlloc_eq_ok inv.others.allocated forked
      rw [moved.threadRing] at inRing
      exact .inl inRing
  | forkFree flags child caller source moved =>
      rw [moved.threadRing] at inRing
      exact .inl inRing
  | forkLink flags child caller mm m called source linked moved =>
      rw [moved.threadRing, forkLink_threadRing inv source linked] at inRing
      refine inRing.imp_right ?_
      rintro ⟨joins, own | inOwn, _⟩
      · exact absurd (own ▸ known) (inv.linkable source).new
      · refine ⟨?_, threadRing_symm table inOwn⟩
        rw [called, linksThread, source]
        exact decide_eq_true joins
  | forkWake child caller m source woken moved =>
      have groups : k'.threadGroups = k.threadGroups := by
        rw [moved]
        exact (congrArg Kernel.threadGroups (wakeupProc_unwoken woken) :)
      rw [threadRing, groups] at inRing
      exact .inl inRing
  | execDrop caller source moved =>
      have groups : (k.dropMm k.current).threadGroups = k.threadGroups :=
        (congrArg Kernel.threadGroups (k.dropMm_eq k.current) :)
      rw [moved.threadRing, threadRing, groups] at inRing
      exact .inl inRing
  | execFinish caller mm m source loaded moved =>
      obtain ⟨_, rfl⟩ := execFinish_eq_ok loaded
      exact .inl (left moved rfl)
  | reap pid caller zombie m pc source found reaped target moved =>
      obtain ⟨_, _, ⟨frame, _, _⟩, _⟩ := reap_spec reaped
      have groups : m.threadGroups = k.threadGroups := (congrArg Kernel.threadGroups frame :)
      rw [moved.threadRing, threadRing, groups] at inRing
      exact .inl inRing
  | waitSleep pid caller source found moved =>
      rw [moved.threadRing] at inRing
      exact .inl inRing
  | waitMark pid caller source moved =>
      rw [moved.threadRing] at inRing
      exact .inl inRing
  | delTimer caller source moved =>
      rw [moved.threadRing] at inRing
      exact .inl inRing
  | exit m source exited moved =>
      obtain ⟨_, _, parent, heir, exits⟩ := inv.exits source exited
      exact .inl (left moved exits.rings)

/-! ## New processes -/

/-- A process whose parent has not linked it yet is not killed. -/
def NewAlive (k : Kernel) : Prop :=
  ∀ p, k.allocated p = true → ¬k.Known p → (k.procs p).flags = 0

theorem NewAlive.step (alive : k.NewAlive) (reachable : Reachable wrap k)
    (stepped : k.step wrap event = .ok k') : k'.NewAlive := by
  have inv := reachable.inv
  intro p allocated' unknown'
  rcases step_allocated stepped inv allocated' with allocated | cleared
  · have unknown : ¬k.Known p := fun known =>
      unknown' ((Transition.of_step stepped).known inv known allocated')
    have spared : ¬k.Kills event p := fun kills => unknown (kills.known inv)
    rw [step_flags stepped inv reachable.clocked allocated spared]
    exact alive p allocated unknown
  · exact cleared

theorem Reachable.newAlive (reachable : Reachable wrap k) : k.NewAlive := by
  obtain ⟨memory, events, run⟩ := reachable
  have both : Reachable wrap k ∧ k.NewAlive := by
    refine @Run.exec_invariant _ _ _ _ (fun m => Reachable wrap m ∧ m.NewAlive) ?_ _ _ _ ?_ run
    · rintro m event next ⟨reached, alive⟩ stepped
      exact ⟨reached.step stepped, alive.step reached stepped⟩
    · refine ⟨⟨memory, [], rfl⟩, fun p allocated unknown => absurd ?_ unknown⟩
      have cases : p = 0 ∨ p = 1 := by simpa [boot] using allocated
      rcases cases with rfl | rfl
      · exact .inr rfl
      · exact .inl (List.mem_singleton_self 1)
  exact both.2

/-! ## The group -/

/-- A step of the kernel under which a group of processes takes in those that join the ring of a
member and loses those that are freed. -/
def watch (wrap : Int → Int) (s : Kernel × List ProcPtr) (event : Event) :
    Except Stop (Kernel × List ProcPtr) := do
  let k ← s.1.step wrap event
  return (k, ((s.2.filter k.allocated).flatMap k.threadRing).dedup)

/-- Every member has been killed or is in `__do_exit`. -/
def GroupExits (s : Kernel × List ProcPtr) : Prop :=
  ∀ p ∈ s.2, s.1.Exiting p ∨ (s.1.procs p).kstack.pc.exits = true

/-- The current process does not link a child into the group. -/
def GroupCloses (s : Kernel × List ProcPtr) (event : Event) : Prop :=
  s.1.current ∈ s.2 → s.1.linksThread event = false

/-- The members are in the process table, with all that are on a ring with one of them. -/
structure Grouped (wrap : Int → Int) (s : Kernel × List ProcPtr) : Prop where
  reachable : Reachable wrap s.1
  known : ∀ p ∈ s.2, s.1.Known p
  closed : ∀ p ∈ s.2, ∀ q ∈ s.1.threadRing p, q ∈ s.2

section Watch

variable {s s' : Kernel × List ProcPtr}

theorem watch_eq_ok_iff : watch wrap s event = .ok s' ↔ s.1.step wrap event = .ok s'.1 ∧
    s'.2 = ((s.2.filter s'.1.allocated).flatMap s'.1.threadRing).dedup := by
  rw [watch, bind_eq_ok_iff]
  constructor
  · rintro ⟨k, stepped, result⟩
    cases result
    exact ⟨stepped, rfl⟩
  · rintro ⟨stepped, group⟩
    exact ⟨s'.1, stepped, congrArg Except.ok (Prod.ext rfl group.symm)⟩

/-- The members after a step. -/
theorem mem_watch_iff (watched : watch wrap s event = .ok s') :
    q ∈ s'.2 ↔ ∃ p ∈ s.2, s'.1.allocated p = true ∧ q ∈ s'.1.threadRing p := by
  rw [(watch_eq_ok_iff.mp watched).2, List.mem_dedup, List.mem_flatMap]
  simp only [List.mem_filter, and_assoc]

theorem Grouped.step (grouped : Grouped wrap s) (watched : watch wrap s event = .ok s') :
    Grouped wrap s' := by
  have stepped := (watch_eq_ok_iff.mp watched).1
  have inv := grouped.reachable.inv
  have reachable' := grouped.reachable.step stepped
  have table' := reachable'.inv.others.table
  constructor
  · exact reachable'
  · intro q mem
    obtain ⟨p, member, allocated, inRing⟩ := (mem_watch_iff watched).mp mem
    exact threadRing_known table'
      ((Transition.of_step stepped).known inv (grouped.known p member) allocated) inRing
  · intro q mem r inRing
    obtain ⟨p, member, allocated, first⟩ := (mem_watch_iff watched).mp mem
    exact (mem_watch_iff watched).mpr
      ⟨p, member, allocated, threadRing_trans table' first inRing⟩

/-- A step that links no child into the group takes nobody in. -/
theorem Grouped.member_of_closes (grouped : Grouped wrap s) (closes : GroupCloses s event)
    (watched : watch wrap s event = .ok s') (mem : q ∈ s'.2) : q ∈ s.2 := by
  obtain ⟨p, member, _, inRing⟩ := (mem_watch_iff watched).mp mem
  have stepped := (watch_eq_ok_iff.mp watched).1
  rcases step_threadRing stepped grouped.reachable.inv (grouped.known p member) inRing with
    old | ⟨links, own⟩
  · exact grouped.closed p member q old
  · rw [closes (grouped.closed p member _ own)] at links
    contradiction

theorem GroupExits.step (exits : GroupExits s) (grouped : Grouped wrap s)
    (closes : GroupCloses s event) (watched : watch wrap s event = .ok s') : GroupExits s' := by
  have stepped := (watch_eq_ok_iff.mp watched).1
  have inv := grouped.reachable.inv
  intro q mem
  have member := grouped.member_of_closes closes watched mem
  have allocated := inv.others.table.allocated q (grouped.known q member)
  rcases exits q member with killed | exiting
  · left
    have spared : ¬s.1.Kills event q := fun kills => kills.2 killed
    rw [Exiting, step_flags stepped inv grouped.reachable.clocked allocated spared]
    exact killed
  · exact .inr (step_exits stepped inv allocated exiting)

theorem linksThread_source (links : k.linksThread event = true) :
    ∃ mm flags child caller, event = .go mm ∧ k.pc = .work (.forkChild flags child caller) ∧
      flags &&& cloneThread ≠ 0 := by
  cases event with
  | go mm =>
      simp only [linksThread] at links
      split at links
      · rename_i flags child caller source
        exact ⟨mm, flags, child, caller, rfl, source, of_decide_eq_true links⟩
      · contradiction
  | _ => contradiction

/-- The child of a clone has been linked and has not been killed. -/
theorem step_linksThread (stepped : k.step wrap event = .ok k') (reachable : Reachable wrap k)
    (links : k.linksThread event = true) : k'.Known k.current ∧ ∃ child,
      child ∈ k'.threadRing k.current ∧ (k'.procs child).flags = 0 ∧
        (k'.procs child).kstack.pc.exits = false := by
  have inv := reachable.inv
  obtain ⟨mm, flags, child, caller, rfl, source, joins⟩ := linksThread_source links
  have went : k.go mm = .ok k' := stepped
  rw [go, source] at went
  obtain ⟨m, linked, result⟩ := bind_eq_ok_iff.mp went
  have moved : m.MovedTo (.forkWake child caller) k' := by
    cases result
    exact goto_movedTo m _ nofun
  have own := inv.own.settled
  rw [source] at own
  have unborn := own.making child caller rfl
  obtain ⟨changes, _⟩ := forkLink_links inv.others.table (inv.linkable source) linked
  have notCurrent : child ≠ m.current := by
    rw [changes.current]
    rintro rfl
    exact unborn.unknown inv.others.current
  refine ⟨?_, child, ?_, ?_, ?_⟩
  · rw [known_of_relations (movedTo_relations moved), Known, changes.procList,
      changes.roles.idleproc]
    exact inv.others.current.imp_left (List.mem_cons_of_mem child)
  · rw [moved.threadRing, forkLink_threadRing inv source linked]
    exact .inr ⟨joins, .inr (threadRing_self inv.others.table _), .inl rfl⟩
  · rw [moved.flags, changes.flags]
    exact reachable.newAlive child unborn.allocated unborn.unknown
  · obtain ⟨fn, starts⟩ := unborn.starts
    obtain ⟨ret, exitCode, needResched, _, rfl⟩ := moved
    rw [moved_procs_of_ne m _ ret exitCode needResched notCurrent, changes.kstack, starts]
    rfl

/-- A child that has just been linked into the group has not been killed. -/
theorem Grouped.closes_of_exits (grouped : Grouped wrap s) (watched : watch wrap s event = .ok s')
    (exits : GroupExits s') : GroupCloses s event := by
  intro member
  by_contra links
  rw [Bool.not_eq_false] at links
  have stepped := (watch_eq_ok_iff.mp watched).1
  obtain ⟨known, child, inRing, flags, pc⟩ := step_linksThread stepped grouped.reachable links
  have allocated :=
    (grouped.reachable.step stepped).inv.others.table.allocated s.1.current known
  have joined : child ∈ s'.2 :=
    (mem_watch_iff watched).mpr ⟨s.1.current, member, allocated, inRing⟩
  rcases exits child joined with killed | exiting
  · rw [Exiting, flags] at killed
    exact killed rfl
  · rw [pc] at exiting
    contradiction

theorem groupExits_step_iff (grouped : Grouped wrap s) (exits : GroupExits s)
    (watched : watch wrap s event = .ok s') : GroupExits s' ↔ GroupCloses s event :=
  ⟨grouped.closes_of_exits watched, fun closes => exits.step grouped closes watched⟩

end Watch

/-! ## Every run -/

/-- What the members of the group are when `do_exit` has killed them. -/
theorem doExit_groupExits (reachable : Reachable wrap k) (called : k.callsDoExit event = true)
    (stepped : k.step wrap event = .ok k') :
    Grouped wrap (k', k.threadRing k.current) ∧ GroupExits (k', k.threadRing k.current) := by
  have inv := reachable.inv
  have table := inv.others.table
  obtain ⟨errorCode, exited⟩ := callsDoExit_step called stepped
  obtain ⟨m, killed, result⟩ := bind_eq_ok_iff.mp exited
  have moved : m.MovedTo .exit k' := by
    cases result
    exact exitThread_movedTo m errorCode
  obtain ⟨rouses, _, exiting⟩ := killAll_spec inv.others.queue inv.exitGroup_dormant killed
  have relations : k'.relations = k.relations := (movedTo_relations moved).trans rouses.relations
  have ring := threadRing_of_relations relations
  refine ⟨⟨reachable.step stepped, ?_, ?_⟩, ?_⟩
  · intro p member
    exact (known_of_relations relations).mpr (threadRing_known table inv.others.current member)
  · intro p member q inRing
    rw [ring] at inRing
    exact threadRing_trans table member inRing
  · intro p member
    rw [show k.threadRing k.current = k.current :: (k.threadRing k.current).tail from
      Rings.ring_eq_cons k.threadGroups k.current, List.mem_cons] at member
    rcases member with rfl | other
    · right
      rw [moved.own_pc rouses.current]
      rfl
    · left
      rw [Exiting, moved.flags]
      exact (exiting p).mpr (.inl other)

/-- Every run of the kernel can be watched. -/
theorem watch_run {s : Kernel × List ProcPtr} {events : List Event}
    (run : Run.exec (Kernel.step wrap) s.1 events = .ok k) :
    ∃ group, Run.exec (watch wrap) s events = .ok (k, group) := by
  induction events generalizing s with
  | nil =>
      cases run
      exact ⟨s.2, rfl⟩
  | cons event events ih =>
      obtain ⟨next, stepped, rest⟩ := Run.exec_cons_eq_ok_iff.mp run
      have watched : watch wrap s event =
          .ok (next, ((s.2.filter next.allocated).flatMap next.threadRing).dedup) :=
        watch_eq_ok_iff.mpr ⟨stepped, rfl⟩
      obtain ⟨group, after⟩ := @ih (next, _) rest
      exact ⟨group, Run.exec_cons_eq_ok_iff.mpr ⟨_, watched, after⟩⟩

/-- From a call of `do_exit` on every member of the group, also one that joins it later, has been
killed or is in `__do_exit`, exactly when no member links a child into the group. -/
theorem doExit_complete_iff (reachable : Reachable wrap k) (called : k.callsDoExit event = true)
    (stepped : k.step wrap event = .ok k') {events : List Event} {final : Kernel}
    (run : Run.exec (Kernel.step wrap) k' events = .ok final) :
    (∀ first last s, first ++ last = events →
      Run.exec (watch wrap) (k', k.threadRing k.current) first = .ok s → GroupExits s) ↔
      Run.Along (watch wrap) GroupCloses (k', k.threadRing k.current) events := by
  obtain ⟨grouped, exits⟩ := doExit_groupExits reachable called stepped
  obtain ⟨group, watched⟩ := @watch_run _ _ (k', k.threadRing k.current) _ run
  refine @Run.reached_iff_along _ _ _ _ (Grouped wrap) GroupExits GroupCloses ?_ ?_ _ _ _
    grouped exits watched
  · exact fun _ _ _ grouped watched => grouped.step watched
  · exact fun _ _ _ grouped exits watched => groupExits_step_iff grouped exits watched

instance (s : Kernel × List ProcPtr) : Decidable (GroupExits s) :=
  inferInstanceAs (Decidable (∀ p ∈ s.2,
    (s.1.procs p).flags &&& pfExiting ≠ 0 ∨ (s.1.procs p).kstack.pc.exits = true))

instance (s : Kernel × List ProcPtr) (event : Event) : Decidable (GroupCloses s event) :=
  inferInstanceAs (Decidable (s.1.current ∈ s.2 → s.1.linksThread event = false))

/-- A user process has a thread; both are in user mode or about to get there. -/
def twoThreads : List Event :=
  firstUser ++ forked (.clone (cloneVm ||| cloneThread)) 4

/-- The other thread ends when the first one has called `exit`. -/
theorem doExit_complete_twoThreads :
    ∃ k k' final, Run.exec (Kernel.step wrapInt32) (boot fun _ => blank) twoThreads = .ok k ∧
      k.step wrapInt32 (.syscall (.exit 0)) = .ok k' ∧
      Run.exec (Kernel.step wrapInt32) k' [.go 0, .go 0, .go 0] = .ok final ∧
      ∀ first last s, first ++ last = [.go 0, .go 0, .go 0] →
        Run.exec (watch wrapInt32) (k', k.threadRing k.current) first = .ok s →
          GroupExits s := by
  obtain ⟨k, run, called, closes⟩ := Run.exec_of_decide
    (fun k : Kernel => k.callsDoExit (.syscall (.exit 0)) = true ∧
      (k.step wrapInt32 (.syscall (.exit 0))).map (fun k' => decide (Run.Along (watch wrapInt32)
        GroupCloses (k', k.threadRing k.current) [.go 0, .go 0, .go 0])) = .ok true)
    (by decide +kernel : (Run.exec (Kernel.step wrapInt32) (boot fun _ => blank)
      twoThreads).map _ = .ok true)
  obtain ⟨final, runFinal, _⟩ := Run.exec_of_decide (fun _ : Kernel => True)
    (by decide +kernel : (Run.exec (Kernel.step wrapInt32) (boot fun _ => blank)
      (twoThreads ++ [.syscall (.exit 0), .go 0, .go 0, .go 0])).map _ = .ok true)
  rw [Run.exec_append, run] at runFinal
  obtain ⟨k', stepped, rest⟩ := Run.exec_cons_eq_ok_iff.mp runFinal
  rw [stepped] at closes
  have along := of_decide_eq_true (Except.ok.inj closes)
  exact ⟨k, k', final, run, stepped, rest,
    (doExit_complete_iff ⟨_, _, run⟩ called stepped rest).mpr along⟩

/-- A second thread waits for memory in the middle of a clone; the first one runs again. -/
def cloneWaits : List Event :=
  firstUser ++ [.syscall (.clone (cloneVm ||| cloneThread)), .go 4, .go 0, .go 0, .go 0, .go 0,
    .syscall (.sleep 1), .go 0, .go 0, .syscall (.clone (cloneVm ||| cloneThread)), .go 5, .noPage,
    .go 0, .tick, .go 0, .kcall .wakeupAll, .kcall .sleep, .go 0, .go 0, .go 0, .go 0]

/-- The second thread links its child and exits; the init process reaps the first one and waits. -/
def childStarts : List Event :=
  [.go 0, .go 0, .go 0, .go 0, .go 0, .go 0, .go 0, .go 0, .go 0, .go 0,
    .kcall .wait, .go 0, .go 0, .go 0, .go 0]

/-- When the threads that `exit` has killed are gone, the child of the second one goes to user
mode. -/
theorem doExit_complete_clone :
    ¬∀ k, Reachable wrapInt32 k → ∀ event k' events s, k.callsDoExit event = true →
      k.step wrapInt32 event = .ok k' →
      Run.exec (watch wrapInt32) (k', k.threadRing k.current) events = .ok s →
      (∀ p ∈ k.threadRing k.current, p ∈ s.1.procList → (s.1.procs p).state = .zombie) →
      s.1.pc = .user → GroupExits s := by
  intro complete
  obtain ⟨k, run, called, survives⟩ := Run.exec_of_decide
    (fun k : Kernel => k.callsDoExit (.syscall (.exit 0)) = true ∧
      (k.step wrapInt32 (.syscall (.exit 0)) >>= fun k' =>
        Run.exec (watch wrapInt32) (k', k.threadRing k.current) childStarts).map (fun s => decide
          ((∀ p ∈ k.threadRing k.current, p ∈ s.1.procList → (s.1.procs p).state = .zombie) ∧
            s.1.pc = .user ∧ ¬GroupExits s)) = .ok true)
    (by decide +kernel : (Run.exec (Kernel.step wrapInt32) (boot fun _ => blank)
      cloneWaits).map _ = .ok true)
  obtain ⟨s, ran, gone, user, unkilled⟩ := ok_of_decide _ survives
  obtain ⟨k', stepped, watched⟩ := bind_eq_ok_iff.mp ran
  exact unkilled (complete k ⟨_, _, run⟩ _ k' childStarts s called stepped watched gone user)

end Kernel

end EdfKernel
