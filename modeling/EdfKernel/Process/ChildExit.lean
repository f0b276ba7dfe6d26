import EdfKernel.Process.SleepProtocol

/-!
# The exits of children

No process sleeps in `do_wait` while there is a zombie that the call accepts: when
a process exits its parent's thread group is woken, and when its children move to
another process that one is woken if a zombie is among them.
-/

namespace EdfKernel

open Library

namespace Kernel

variable {wrap : Int → Int} {k k' m : Kernel} {p q z child : ProcPtr} {pc : Pc} {pid : Int}
  {caller : Caller} {event : Event}

/-- The process has found no zombie in `do_wait(pid)` and sleeps. -/
structure Waiting (k : Kernel) (p : ProcPtr) (pid : Int) : Prop where
  awaits : (k.procs p).kstack.pc.awaits = some pid
  asleep : (k.procs p).state = .sleeping

/-- No zombie is there that a sleeping process would accept. -/
def Patient (k : Kernel) (p : ProcPtr) : Prop :=
  ∀ pid, k.Waiting p pid → ∀ z, ¬k.Accepts p pid z

/-- `k'` has no zombie for the process that `k` does not have. -/
structure NoMore (k k' : Kernel) (p : ProcPtr) : Prop where
  zombie : ∀ z ∈ k'.procList, (k'.procs z).state = .zombie →
    z ∈ k.procList ∧ (k.procs z).state = .zombie ∧
      (k'.procs z).parent = (k.procs z).parent ∧ (k'.procs z).pid = (k.procs z).pid
  ring : ∀ q ∈ k'.threadRing p, (∃ z ∈ k.procList, (k.procs z).parent = some q) →
    q ∈ k.threadRing p

theorem NoMore.accepts (fewer : k.NoMore k' p) (accepts : k'.Accepts p pid z) :
    k.Accepts p pid z := by
  obtain ⟨listed, zombie, ⟨q, inRing, parent⟩, requested⟩ := accepts
  obtain ⟨old, wasZombie, sameParent, samePid⟩ := fewer.zombie z listed zombie
  rw [sameParent] at parent
  rw [samePid] at requested
  exact ⟨old, wasZombie, ⟨q, fewer.ring q inRing ⟨z, old, parent⟩, parent⟩, requested⟩

theorem Patient.mono (patient : k.Patient p) (fewer : k.NoMore k' p)
    (waiting : ∀ pid, k'.Waiting p pid → k.Waiting p pid) : k'.Patient p :=
  fun pid waits z accepts => patient pid (waiting pid waits) z (fewer.accepts accepts)

theorem threadRing_of_relations (same : k'.relations = k.relations) (p : ProcPtr) :
    k'.threadRing p = k.threadRing p := by
  rw [threadRing, threadRing, show k'.threadGroups = k.threadGroups from
    (congrArg Kernel.threadGroups same :)]

theorem NoMore.of_relations (same : k'.relations = k.relations) (p : ProcPtr) :
    k.NoMore k' p where
  zombie z listed zombie := by
    rw [show k'.procList = k.procList from (congrArg Kernel.procList same :)] at listed
    exact ⟨listed, (zombie_iff_of_relations same z).mp zombie,
      (congrArg (fun m => (m.procs z).parent) same :), (congrArg (fun m => (m.procs z).pid) same :)⟩
  ring _ inRing _ := threadRing_of_relations same p ▸ inRing

theorem Patient.of_relations (patient : k.Patient p) (same : k'.relations = k.relations)
    (waiting : ∀ pid, k'.Waiting p pid → k.Waiting p pid) : k'.Patient p :=
  patient.mono (.of_relations same p) waiting

theorem movedTo_relations (moved : m.MovedTo pc k') : k'.relations = m.relations := by
  obtain ⟨ret, exitCode, needResched, _, rfl⟩ := moved
  exact moved_relations m pc ret exitCode needResched

theorem MovedTo.threadRing (moved : m.MovedTo pc k') (p : ProcPtr) :
    k'.threadRing p = m.threadRing p :=
  threadRing_of_relations (movedTo_relations moved) p

theorem movedTo_waiting (moved : m.MovedTo pc k') (waits : k'.Waiting p pid) :
    (p = m.current ∧ pc.awaits = some pid ∧ (m.procs p).state = .sleeping) ∨
      (p ≠ m.current ∧ m.Waiting p pid) := by
  obtain ⟨ret, exitCode, needResched, _, rfl⟩ := moved
  have state := (moved_spares m pc ret exitCode needResched p).state
  by_cases own : p = m.current
  · subst p
    have here : (((m.moved pc ret exitCode needResched)).procs m.current).kstack.pc = pc := by
      simp [Kernel.moved]
    refine .inl ⟨rfl, ?_, state.symm.trans waits.asleep⟩
    rw [← here]
    exact waits.awaits
  · have same := moved_procs_of_ne m pc ret exitCode needResched own
    exact .inr ⟨own, by rw [← same]; exact waits.awaits, by rw [← same]; exact waits.asleep⟩

/-- The current process goes on where it does not wait. -/
theorem Patient.of_movedTo (patient : p ≠ m.current → m.Patient p) (moved : m.MovedTo pc k')
    (awake : pc.awaits = none) : k'.Patient p := by
  intro pid waits z accepts
  rcases movedTo_waiting moved waits with ⟨_, awaits, _⟩ | ⟨other, old⟩
  · rw [awake] at awaits
    contradiction
  · exact patient other pid old z
      ((NoMore.of_relations (movedTo_relations moved) p).accepts accepts)

theorem Patient.of_rouses (patient : k.Patient p) (rouses : k.Rouses k') : k'.Patient p := by
  apply patient.of_relations rouses.relations
  intro pid waits
  exact ⟨by rw [← rouses.kstack]; exact waits.awaits, (rouses.toStirs.sleeping waits.asleep).1⟩

/-- Changes of the current process do not matter to the others. -/
theorem Patient.of_changes (patient : k.Patient p) (other : p ≠ k.current)
    (changes : k.ChangesCurrent k') (fewer : k.NoMore k' p) : k'.Patient p := by
  apply patient.mono fewer
  intro pid waits
  have same := changes.procs p other
  exact ⟨by rw [← same]; exact waits.awaits, by rw [← same]; exact waits.asleep⟩

/-! ## Exits -/

/-- A process other than the current one that sleeps in `do_wait` has its wait state. -/
theorem Waiting.waitState (waits : k.Waiting p pid) (settled : k.Settled p (k.procs p).kstack.pc)
    (parked : (k.procs p).kstack.pc.parked = true) : (k.procs p).waitState = wtChild := by
  have awaits := waits.awaits
  have fits := settled.fits
  cases here : (k.procs p).kstack.pc with
  | waitSched pid caller =>
      rw [here] at fits
      rcases fits.1 with asleep | awake
      · exact asleep.2
      · have asleep := waits.asleep
        rw [awake.1] at asleep
        contradiction
  | waitState pid caller =>
      rw [here] at parked
      contradiction
  | waitMark pid caller =>
      rw [here] at parked
      contradiction
  | _ =>
      rw [here] at awaits
      contradiction

theorem Exits.threadRing {parent heir : ProcPtr} (exits : k.Exits parent heir m)
    (table : Table k) : q ∈ m.threadRing p ↔
      p = q ∨ (q ∈ k.threadRing p ∧ p ≠ k.current ∧ q ≠ k.current) := by
  have disjoint := table.groups.disjoint
  rw [Kernel.threadRing, exits.rings, Rings.mem_ring_iff (Rings.leave_nodup disjoint),
    Rings.together_leave_iff disjoint, Kernel.threadRing, Rings.mem_ring_iff disjoint]

theorem threadRing_symm (table : Table k) (inRing : q ∈ k.threadRing p) : p ∈ k.threadRing q := by
  have disjoint := table.groups.disjoint
  rw [threadRing, Rings.mem_ring_iff disjoint] at inRing ⊢
  exact inRing.symm

theorem threadRing_trans {r : ProcPtr} (table : Table k) (first : q ∈ k.threadRing p)
    (second : r ∈ k.threadRing q) : r ∈ k.threadRing p := by
  have disjoint := table.groups.disjoint
  rw [threadRing, Rings.mem_ring_iff disjoint] at first second ⊢
  exact first.trans disjoint second

theorem threadRing_self (table : Table k) (p : ProcPtr) : p ∈ k.threadRing p := by
  rw [threadRing, Rings.mem_ring_iff table.groups.disjoint]
  exact .inl rfl

/-- The init process is alone in its ring. -/
theorem threadRing_init (table : Table k) (inRing : k.initproc ∈ k.threadRing p) :
    p = k.initproc := by
  rcases (Rings.mem_ring_iff table.groups.disjoint).mp inRing with same | ⟨l, memL, _, memInit⟩
  · exact same
  · exact absurd rfl (table.groups.member _ (List.mem_flatten_of_mem memL memInit)).2.2

/-- After an exit no other process sleeps beside a zombie that it accepts. -/
theorem Exits.patient {parent heir : ProcPtr} (exits : k.Exits parent heir m) (inv : k.Inv)
    (known : k.Known p) (other : p ≠ k.current) (patient : k.Patient p) : m.Patient p := by
  have table := inv.others.table
  intro pid waits z accepts
  obtain ⟨listed, zombie, ⟨q, inRing, parentZ⟩, requested⟩ := accepts
  rw [exits.lists.procList] at listed
  rw [exits.pid] at requested
  have stack : ∀ q, (m.procs q).kstack = (k.procs q).kstack := by
    intro q
    rw [exits.stirs.kstack]
    refine field_modify ProcStruct.kstack ?_ rfl
    exact (congrArg (fun m => (m.procs q).kstack) (k.dropMm_unlinked k.current) :)
  -- the sleeper slept before, and waits for a child
  obtain ⟨asleep, wait⟩ := exits.stirs.sleeping waits.asleep
  rw [ended_state, if_neg other] at asleep
  rw [ended_waitState] at wait
  have old : k.Waiting p pid := ⟨by rw [← stack]; exact waits.awaits, asleep⟩
  have waitsChild : (m.procs p).waitState = wtChild :=
    wait.trans (old.waitState (inv.others.settled p known other) (inv.others.parked p known other))
  have wasZombie := (exits.zombie_iff z).mp zombie
  -- it does not belong to the group of the parent of the exiting process
  have notParent : parent ∉ k.threadRing p :=
    fun mem => exits.waited p (threadRing_symm table mem) waitsChild
  have accepted : ∀ r ∈ k.threadRing p, (k.procs z).parent = some r → False := by
    intro r mem parentR
    rcases wasZombie with rfl | before
    · cases parentR.symm.trans exits.parentEq
      exact notParent mem
    · exact patient pid old z ⟨listed, before, ⟨r, mem, parentR⟩, requested⟩
  rw [exits.adopted] at parentZ
  split at parentZ
  · rename_i moved
    cases parentZ
    rcases (exits.threadRing table).mp inRing with rfl | ⟨mem, _, _⟩
    · exact exits.told z listed moved.2 zombie waitsChild
    · apply accepted k.current ?_ moved.2
      rcases exits.inherits with ⟨rfl, _⟩ | ⟨_, inOwn⟩
      · have own := threadRing_init table mem
        subst p
        exact absurd waitsChild (exits.told z listed moved.2 zombie)
      · exact threadRing_trans table mem (threadRing_symm table inOwn)
  · rcases (exits.threadRing table).mp inRing with rfl | ⟨mem, _, _⟩
    · exact accepted p (threadRing_self table p) parentZ
    · exact accepted q mem parentZ

/-! ## Forks -/

/-- The ring of the current process takes in the child of a clone with `CLONE_THREAD`. -/
theorem forkLink_threadRing {flags : UInt32} {mm : MmPtr}
    (inv : k.Inv) (source : k.pc = .work (.forkChild flags child caller))
    (linked : k.forkLink flags child mm = .ok m) :
    q ∈ m.threadRing p ↔ q ∈ k.threadRing p ∨ (flags &&& cloneThread ≠ 0 ∧
      (p = child ∨ p ∈ k.threadRing k.current) ∧ (q = child ∨ q ∈ k.threadRing k.current)) := by
  have table := inv.others.table
  have linkable := inv.linkable source
  obtain ⟨_, groups⟩ := forkLink_links table linkable linked
  have disjoint := table.groups.disjoint
  have apart : child ∉ k.threadGroups.flatten :=
    fun mem => linkable.new (.inl (table.groups.member child mem).1)
  have notCurrent : child ≠ k.current := by
    rintro rfl
    exact linkable.new (.inl linkable.current)
  simp only [threadRing, groups]
  split
  · rename_i joins
    rw [Rings.mem_ring_iff (Rings.join_nodup disjoint apart notCurrent),
      Rings.together_join_iff disjoint, Rings.mem_ring_iff disjoint, Rings.mem_ring_iff disjoint,
      Rings.mem_ring_iff disjoint]
    exact or_congr_right (and_iff_right joins).symm
  · rename_i alone
    exact (or_iff_left fun both => alone both.1).symm

theorem forkLink_noMore {flags : UInt32} {mm : MmPtr} (inv : k.Inv)
    (source : k.pc = .work (.forkChild flags child caller))
    (linked : k.forkLink flags child mm = .ok m) (notChild : p ≠ child) : k.NoMore m p := by
  have table := inv.others.table
  have linkable := inv.linkable source
  obtain ⟨links, _⟩ := forkLink_links table linkable linked
  constructor
  · intro z listed zombie
    rw [links.procList, List.mem_cons] at listed
    rw [links.state] at zombie
    rcases listed with rfl | old
    · exact absurd zombie linkable.living
    · have other : z ≠ child := by
        rintro rfl
        exact linkable.new (.inl old)
      exact ⟨old, zombie, links.parent z, links.pid z other⟩
  · rintro q inRing ⟨z, listed, parentZ⟩
    have notNew : q ≠ child := by
      rintro rfl
      exact linkable.new (table.known_parent listed parentZ).1
    rcases (forkLink_threadRing inv source linked).mp inRing with old | ⟨_, own, theirs⟩
    · exact old
    · exact threadRing_trans table (threadRing_symm table (own.resolve_left notChild))
        (theirs.resolve_left notNew)

/-! ## The invariant -/

/-- No process sleeps in `do_wait` beside a zombie that it accepts. -/
def AllPatient (k : Kernel) : Prop :=
  ∀ p, k.Known p → k.Patient p

theorem known_of_relations (same : k'.relations = k.relations) : k'.Known p ↔ k.Known p := by
  rw [Known, Known, show k'.procList = k.procList from (congrArg Kernel.procList same :),
    show k'.idleproc = k.idleproc from (congrArg Kernel.idleproc same :)]

/-- A step that keeps the process table, and after which no other process waits that
did not wait before. -/
theorem AllPatient.of_relations (all : k.AllPatient) (same : m.relations = k.relations)
    (current : m.current = k.current)
    (waiting : ∀ p pid, p ≠ k.current → m.Waiting p pid → k.Waiting p pid)
    (moved : m.MovedTo pc k') (awake : pc.awaits = none) : k'.AllPatient := by
  intro p known
  have old := (known_of_relations ((movedTo_relations moved).trans same)).mp known
  apply Patient.of_movedTo ?_ moved awake
  intro other
  rw [current] at other
  exact (all p old).of_relations same fun pid => waiting p pid other

theorem waiting_of_changes (changes : k.ChangesCurrent m) (other : p ≠ k.current)
    (waits : m.Waiting p pid) : k.Waiting p pid := by
  have same := changes.procs p other
  exact ⟨by rw [← same]; exact waits.awaits, by rw [← same]; exact waits.asleep⟩

theorem waiting_of_rouses (rouses : k.Rouses m) (waits : m.Waiting p pid) : k.Waiting p pid :=
  ⟨by rw [← rouses.kstack]; exact waits.awaits, (rouses.toStirs.sleeping waits.asleep).1⟩

theorem AllPatient.of_rouses (all : k.AllPatient) (rouses : k.Rouses k') : k'.AllPatient :=
  fun p known => (all p ((known_of_relations rouses.relations).mp known)).of_rouses rouses

theorem AllPatient.schedule (all : k.AllPatient) {target : Pc} (parks : k.pc.Parks target)
    (scheduled : k.scheduleTo target = .ok k') : k'.AllPatient := by
  have moved := goto_movedTo k target (Pc.parked_ne_initKswapd parks.parked)
  have same := schedule_unsched scheduled
  have relations : k'.relations = (k.goto target).relations := (congrArg Kernel.relations same :)
  intro p known
  have old : k.Known p :=
    (known_of_relations (relations.trans (movedTo_relations moved))).mp known
  apply (all p old).of_relations (relations.trans (movedTo_relations moved))
  intro pid waits
  have there : (k.goto target).Waiting p pid :=
    ⟨(congrArg (fun m => (m.procs p).kstack.pc.awaits) same :).symm.trans waits.awaits,
      (congrArg (fun m => (m.procs p).state) same :).symm.trans waits.asleep⟩
  rcases movedTo_waiting moved there with ⟨rfl, awaits, asleep⟩ | ⟨_, before⟩
  · rw [parks.awaits] at awaits
    exact ⟨awaits, asleep⟩
  · exact before

theorem AllPatient.sleep (all : k.AllPatient) (inv : k.Inv) {time : Nat}
    (running : k.pc.marks = false) (marked : k.sleepMark time = .ok m)
    (moved : m.MovedTo (.sleepMark caller) k') : k'.AllPatient := by
  obtain ⟨_, _, rfl⟩ := sleepMark_eq_ok marked
  have same := marked_relations (k := k) markTimer (insertTimer ⟨time, k.current⟩ k.timerList)
    k.kswapdDone (by simp [markTimer, ProcStruct.relations, ProcStruct.uncounted,
      ProcStruct.unwoken, ProcStruct.unsched, (inv.own.running running).1])
  refine all.of_relations same rfl ?_ moved rfl
  intro p pid other waits
  have procs := modify_procs_of_ne k k.current markTimer other
  exact ⟨(congrArg (fun s => s.kstack.pc.awaits) procs).symm.trans waits.awaits,
    (congrArg ProcStruct.state procs).symm.trans waits.asleep⟩

theorem AllPatient.freePages (all : k.AllPatient) (inv : k.Inv) {w : Work}
    (source : k.pc = .work w) {swapd : ProcPtr} (present : k.kswapd = some swapd)
    (marked : k.freePagesMark swapd = .ok m) (moved : m.MovedTo (.freeMark w) k') :
    k'.AllPatient := by
  have same : k.awaitsSwap.relations = k.relations := by
    apply marked_relations
    simp [markSwap, ProcStruct.relations, ProcStruct.uncounted, ProcStruct.unwoken,
      ProcStruct.unsched, (inv.own.running (by rw [source]; rfl)).1]
  have waiting : ∀ p pid, p ≠ k.current → k.awaitsSwap.Waiting p pid → k.Waiting p pid := by
    intro p pid other waits
    have procs := modify_procs_of_ne k k.current markSwap other
    exact ⟨(congrArg (fun s => s.kstack.pc.awaits) procs).symm.trans waits.awaits,
      (congrArg ProcStruct.state procs).symm.trans waits.asleep⟩
  rcases freePagesMark_eq_ok marked with ⟨notOwn, rfl | ⟨timer, woken⟩⟩
  · exact all.of_relations same rfl waiting moved rfl
  · have swapdSame := modify_procs_of_ne k k.current markSwap (Ne.symm notOwn)
    have dormant := inv.dormant (.inl (inv.others.swapd swapd present)) (by rw [timer]; decide)
    have swapdDormant : k.awaitsSwap.Dormant swapd :=
      ⟨dormant.allocated, dormant.notIdle, (congrArg ProcStruct.state swapdSame).trans
        dormant.asleep, by
          rw [show (k.awaitsSwap.procs swapd).waitState = (k.procs swapd).waitState from
            congrArg ProcStruct.waitState swapdSame]
          exact dormant.interruptible⟩
    have rouses := wakeupProc_rouses swapdDormant woken
    exact all.of_relations (rouses.relations.trans same) rouses.current
      (fun p pid other waits => waiting p pid other (waiting_of_rouses rouses waits)) moved rfl

theorem AllPatient.forkLink (all : k.AllPatient) (inv : k.Inv) {flags : UInt32} {mm : MmPtr}
    (source : k.pc = .work (.forkChild flags child caller))
    (linked : k.forkLink flags child mm = .ok m) (moved : m.MovedTo (.forkWake child caller) k') :
    k'.AllPatient := by
  have linkable := inv.linkable source
  obtain ⟨links, _⟩ := forkLink_links inv.others.table linkable linked
  have settled := inv.own.settled
  rw [source] at settled
  obtain ⟨fn, starts⟩ := (settled.making child caller rfl).starts
  intro p known
  apply Patient.of_movedTo (fun _ => ?_) moved rfl
  by_cases new : p = child
  · subst p
    intro pid waits
    have awaits := waits.awaits
    rw [links.kstack, starts] at awaits
    contradiction
  · have old : k.Known p := by
      have before := (known_of_relations (movedTo_relations moved)).mp known
      rw [Known, links.procList, links.roles.idleproc, List.mem_cons, or_assoc] at before
      exact before.resolve_left new
    apply (all p old).mono (forkLink_noMore inv source linked new)
    intro pid waits
    exact ⟨by rw [← links.kstack]; exact waits.awaits, by rw [← links.state]; exact waits.asleep⟩

theorem AllPatient.reap (all : k.AllPatient) {zombie : ProcPtr}
    (reaped : k.reap zombie = .ok m) (moved : m.MovedTo pc k') (awake : pc.awaits = none) :
    k'.AllPatient := by
  obtain ⟨_, _, ⟨frame, unrelated, parents⟩, _⟩ := reap_spec reaped
  have list : m.procList = k.procList.erase zombie := (congrArg Kernel.procList frame :)
  have rings : m.threadGroups = k.threadGroups := (congrArg Kernel.threadGroups frame :)
  have idleproc : m.idleproc = k.idleproc := (congrArg Kernel.idleproc frame :)
  have state : ∀ q, (m.procs q).state = (k.procs q).state :=
    fun q => (congrArg ProcStruct.state (unrelated q) :)
  have stack : ∀ q, (m.procs q).kstack = (k.procs q).kstack :=
    fun q => (congrArg ProcStruct.kstack (unrelated q) :)
  intro p known
  have old : k.Known p := by
    have before := (known_of_relations (movedTo_relations moved)).mp known
    rw [Known, list, idleproc] at before
    exact before.imp_left List.mem_of_mem_erase
  apply Patient.of_movedTo (fun _ => ?_) moved awake
  apply (all p old).mono
  · constructor
    · intro z listed isZombie
      rw [list] at listed
      rw [state] at isZombie
      exact ⟨List.mem_of_mem_erase listed, isZombie, parents z,
        (congrArg ProcStruct.pid (unrelated z) :)⟩
    · intro q inRing _
      rwa [threadRing, rings] at inRing
  · intro pid waits
    exact ⟨by rw [← stack]; exact waits.awaits, by rw [← state]; exact waits.asleep⟩

theorem AllPatient.waitSleep (all : k.AllPatient) (inv : k.Inv)
    (source : k.pc = .wait pid caller) (found : k.waitScan pid = .haskid)
    (moved : (k.modify k.current fun s => { s with state := .sleeping }).MovedTo
      (.waitState pid caller) k') : k'.AllPatient := by
  have relations : (k.modify k.current fun s => { s with state := .sleeping }).relations =
      k.relations := by
    refine relations_modify rfl ?_
    simp [ProcStruct.relations, ProcStruct.uncounted, ProcStruct.unwoken, ProcStruct.unsched,
      (inv.own.running (by rw [source]; rfl)).1]
  have same := (movedTo_relations moved).trans relations
  intro p known pid' waits z accepts
  have before := (NoMore.of_relations same p).accepts accepts
  rcases movedTo_waiting moved waits with ⟨rfl, awaits, _⟩ | ⟨other, old⟩
  · cases awaits
    exact waitScan_haskid inv.others.table inv.others.current found z before
  · exact all p ((known_of_relations same).mp known) pid'
      (waiting_of_changes (k.modify_changes _) other old) z before

theorem AllPatient.waitMark (all : k.AllPatient) (source : k.pc = .waitState pid caller)
    (moved : (k.modify k.current fun s => { s with waitState := wtChild }).MovedTo
      (.waitMark pid caller) k') : k'.AllPatient := by
  have relations : (k.modify k.current fun s => { s with waitState := wtChild }).relations =
      k.relations := relations_modify rfl rfl
  have same := (movedTo_relations moved).trans relations
  intro p known
  apply (all p ((known_of_relations same).mp known)).of_relations same
  intro pid' waits
  rcases movedTo_waiting moved waits with ⟨rfl, awaits, asleep⟩ | ⟨other, old⟩
  · cases awaits
    refine ⟨?_, ?_⟩
    · change k.pc.awaits = some pid
      rw [source]
      rfl
    · simpa using asleep
  · exact waiting_of_changes (k.modify_changes _) other old

/-- A step keeps it. -/
theorem AllPatient.transition (all : k.AllPatient) (inv : k.Inv)
    (transition : Transition wrap k event k') : k'.AllPatient := by
  cases transition with
  | skip same => exact same ▸ all
  | move pc moves moved =>
      exact all.of_relations rfl rfl (fun _ _ _ waits => waits) moved moves.awaits
  | tickUser called user ticked =>
      have moves : k.pc.Moves k.flagged .tail := user ▸ .userTail
      have moved := goto_movedTo k .tail nofun
      have there := inv.move moves moved
      obtain ⟨rouses, _⟩ := runTimerList_spec there.others.queue there.timersWait ticked
      have allThere : (k.goto .tail).AllPatient :=
        all.of_relations rfl rfl (fun _ _ _ waits => waits) moved rfl
      exact allThere.of_rouses rouses
  | tick called kernel ticked =>
      obtain ⟨rouses, _⟩ := runTimerList_spec inv.others.queue inv.timersWait ticked
      exact all.of_rouses rouses
  | schedule pc parks scheduled => exact all.schedule parks scheduled
  | doExit errorCode m called source killed moved =>
      obtain ⟨rouses, _⟩ := killAll_spec inv.others.queue inv.exitGroup_dormant killed
      exact all.of_relations rouses.relations rouses.current
        (fun _ _ _ => waiting_of_rouses rouses) moved rfl
  | kill pid ret m called user killed moved =>
      obtain ⟨rouses, _⟩ := inv.doKill_rouses killed
      exact all.of_relations rouses.relations rouses.current
        (fun _ _ _ => waiting_of_rouses rouses) moved rfl
  | sleep time caller m source marked moved =>
      have running : k.pc.marks = false := by
        rcases source with ⟨here, _⟩ | ⟨here, _⟩ <;> rw [here] <;> rfl
      exact all.sleep inv running marked moved
  | wakeKswapd swapd source present timer woken =>
      have dormant := inv.dormant (.inl (inv.others.swapd swapd present)) (by rw [timer]; decide)
      exact all.of_rouses (wakeupProc_rouses dormant woken)
  | wakeupAll source woken =>
      obtain ⟨wakes, _, _⟩ := inv.wakesAll woken
      intro p known
      apply (all p ((known_of_relations wakes.relations).mp known)).of_relations wakes.relations
      intro pid waits
      have still := waits.asleep
      by_cases queued : p ∈ k.kswapdDone
      · rw [(wakes.awake p queued).1] at still
        contradiction
      · exact ⟨by rw [← wakes.pc]; exact waits.awaits, (wakes.asleep p queued).1 ▸ still⟩
  | freePages w swapd m source present marked moved =>
      exact all.freePages inv source present marked moved
  | setKswapd source created moved =>
      have same : ({ k with kswapd := k.findProc (k.procs k.current).kstack.ret } :
          Kernel).relations = k.relations := rfl
      exact AllPatient.of_relations all same rfl
        (fun _ _ _ waits => ⟨waits.awaits, waits.asleep⟩) moved rfl
  | forkAlloc flags kind caller child m source forked moved =>
      obtain ⟨free, notCurrent, _, timeSlice, rest, rfl⟩ :=
        forkAlloc_eq_ok inv.others.allocated forked
      have notChild : ∀ p, k.Known p → p ≠ child := by
        rintro p known rfl
        rw [inv.others.table.allocated p known] at free
        contradiction
      intro p known
      have old : k.Known p := (known_of_relations (movedTo_relations moved)).mp known
      have field : ∀ {α : Type} (field : ProcStruct → α) (q : ProcPtr), k.Known q →
          (∀ s : ProcStruct, field { s with timeSlice := rest } = field s) →
          field ((k.withChild kind child timeSlice rest).procs q) = field (k.procs q) := by
        intro α field q knownQ same
        rw [withChild, modify_procs_of_ne _ _ _ (notChild q knownQ)]
        exact field_modify field rfl (same _)
      apply Patient.of_movedTo (fun _ => ?_) moved rfl
      apply (all p old).mono
      · constructor
        · intro z listed zombie
          rw [field ProcStruct.state z (.inl listed) fun _ => rfl] at zombie
          exact ⟨listed, zombie, field ProcStruct.parent z (.inl listed) fun _ => rfl,
            field ProcStruct.pid z (.inl listed) fun _ => rfl⟩
        · exact fun q inRing _ => inRing
      · intro pid waits
        exact ⟨(field (fun s => s.kstack.pc.awaits) p old fun _ => rfl).symm.trans waits.awaits,
          (field ProcStruct.state p old fun _ => rfl).symm.trans waits.asleep⟩
  | forkFree flags child caller source moved =>
      intro p known
      have old : k.Known p := (known_of_relations (movedTo_relations moved)).mp known
      apply Patient.of_movedTo (fun _ => ?_) moved caller.awaits_pc
      apply (all p old).mono
      · exact ⟨fun z listed zombie => ⟨listed, zombie, rfl, rfl⟩, fun q inRing _ => inRing⟩
      · exact fun pid waits => ⟨waits.awaits, waits.asleep⟩
  | forkLink flags child caller mm m called source linked moved =>
      exact all.forkLink inv source linked moved
  | forkWake child caller m source woken moved =>
      have own := inv.own
      rw [source] at own
      obtain ⟨_, _, uninit, _⟩ := own.linked child caller rfl
      obtain ⟨relations, _, current, _, _, stack, rest, awake, _⟩ := wakeChild_spares uninit woken
      have same : k'.relations = k.relations := by
        rw [moved]
        exact relations_modify relations rfl
      intro p known
      apply (all p ((known_of_relations same).mp known)).of_relations same
      intro pid waits
      rw [moved] at waits
      have still : (m.procs p).state = .sleeping :=
        (m.modify_field _ _ ProcStruct.state rfl p).symm.trans waits.asleep
      by_cases own : p = m.current
      · have awaits := waits.awaits
        rw [own, returnTo, modify_procs_self] at awaits
        rw [caller.awaits_pc] at awaits
        contradiction
      · have untouched : (m.returnTo caller (m.procs child).pid).procs p = m.procs p :=
          modify_procs_of_ne _ _ _ own
        have notChild : p ≠ child := by
          rintro rfl
          rw [awake] at still
          contradiction
        refine ⟨?_, (rest p notChild).1 ▸ still⟩
        rw [← stack, ← untouched]
        exact waits.awaits
  | execDrop caller source moved =>
      intro p known
      have kinship := k.dropMm_kinship k.current
      have frame := k.dropMm_eq k.current
      have old : k.Known p := by
        have before := (known_of_relations (movedTo_relations moved)).mp known
        exact (k.dropMm_changes.known p).mp before
      apply Patient.of_movedTo (fun other => ?_) moved rfl
      apply (all p old).of_changes ?_ k.dropMm_changes
      · constructor
        · intro z listed zombie
          rw [k.dropMm_changes.procList] at listed
          exact ⟨listed, (ProcStruct.zombie_iff (kinship z)).mp zombie,
            (congrArg ProcStruct.parent (kinship z) :), (congrArg ProcStruct.pid (kinship z) :)⟩
        · intro q inRing _
          rwa [threadRing, show (k.dropMm k.current).threadGroups = k.threadGroups from
            (congrArg Kernel.threadGroups frame :)] at inRing
      · rw [k.dropMm_changes.current] at other
        exact other
  | execFinish caller mm m source loaded moved =>
      obtain ⟨_, rfl⟩ := execFinish_eq_ok loaded
      have disjoint := inv.others.table.groups.disjoint
      have kept : ∀ {α : Type} (field : ProcStruct → α) (q : ProcPtr),
          (∀ s : ProcStruct, field (execDeadline s) = field s) →
          (∀ s : ProcStruct, field { s with mm := some mm } = field s) →
          field ((((k.withMm k.current mm).deThread k.current).modify k.current
            execDeadline).procs q) = field (k.procs q) := by
        intro α field q same same'
        refine field_modify field ?_ (same _)
        exact k.modify_field k.current (fun s => { s with mm := some mm }) field (same' _) q
      intro p known
      have old : k.Known p := (known_of_relations (movedTo_relations moved)).mp known
      apply Patient.of_movedTo (fun _ => ?_) moved caller.awaits_pc
      apply (all p old).mono
      · constructor
        · intro z listed zombie
          rw [kept ProcStruct.state z (fun _ => rfl) fun _ => rfl] at zombie
          exact ⟨listed, zombie, kept ProcStruct.parent z (fun _ => rfl) fun _ => rfl,
            kept ProcStruct.pid z (fun _ => rfl) fun _ => rfl⟩
        · intro q inRing _
          have inRing : q ∈ Rings.ring (Rings.leave k.current k.threadGroups) p := inRing
          rw [Rings.mem_ring_iff (Rings.leave_nodup disjoint),
            Rings.together_leave_iff disjoint] at inRing
          rw [threadRing, Rings.mem_ring_iff disjoint]
          rcases inRing with same | ⟨together, _⟩
          · exact .inl same
          · exact together
      · intro pid waits
        exact ⟨(kept (fun s => s.kstack.pc.awaits) p (fun _ => rfl) fun _ => rfl).symm.trans
            waits.awaits,
          (kept ProcStruct.state p (fun _ => rfl) fun _ => rfl).symm.trans waits.asleep⟩
  | reap pid caller zombie m pc source found reaped target moved =>
      apply all.reap reaped moved
      cases caller <;> subst target <;> rfl
  | waitSleep pid caller source found moved => exact all.waitSleep inv source found moved
  | waitMark pid caller source moved => exact all.waitMark source moved
  | delTimer caller source moved =>
      have same : (k.delTimer k.current).relations = k.relations := rfl
      exact AllPatient.of_relations all same rfl
        (fun _ _ _ waits => ⟨waits.awaits, waits.asleep⟩) moved caller.awaits_pc
  | exit m source exited moved =>
      obtain ⟨_, _, parent, heir, exits⟩ := inv.exits source exited
      have current : m.current = k.current :=
        exits.stirs.current.trans (congrArg Kernel.current (k.ended_withProcs k.procs) :)
      intro p known
      have old : k.Known p := by
        have before := (known_of_relations (movedTo_relations moved)).mp known
        rwa [Known, exits.lists.procList, exits.lists.idleproc] at before
      apply Patient.of_movedTo (fun other => ?_) moved rfl
      rw [current] at other
      exact exits.patient inv old other (all p old)

theorem boot_allPatient (memory : ProcPtr → ProcStruct) : (boot memory).AllPatient := by
  rintro p (listed | idle) pid waits
  · rw [List.mem_singleton.mp listed] at waits
    have awaits := waits.awaits
    contradiction
  · subst idle
    have awaits := waits.awaits
    contradiction

/-- No child exit is lost: in no reachable state does a process sleep in
`do_wait(pid)` with `WT_CHILD` while there is a zombie that this call accepts. -/
theorem no_lost_child_exit (reachable : Reachable wrap k) {p z : ProcPtr} {pid : Int}
    (known : k.Known p) (asleep : (k.procs p).state = .sleeping)
    (inWait : (k.procs p).kstack.pc.awaits = some pid) (listed : z ∈ k.procList)
    (zombie : (k.procs z).state = .zombie)
    (child : ∃ q ∈ k.threadRing p, (k.procs z).parent = some q) :
    pid ≠ 0 ∧ (k.procs z).pid ≠ pid := by
  obtain ⟨memory, events, run⟩ := reachable
  have start : (boot memory).Inv ∧ (boot memory).AllPatient :=
    ⟨boot_inv memory, boot_allPatient memory⟩
  have kept : ∀ (k : Kernel) event k', k.Inv ∧ k.AllPatient → k.step wrap event = .ok k' →
      k'.Inv ∧ k'.AllPatient :=
    fun k event k' both stepped =>
      ⟨both.1.step stepped, both.2.transition both.1 (.of_step stepped)⟩
  have all : k.Inv ∧ k.AllPatient := Run.exec_invariant kept start run
  have none := all.2 p known pid ⟨inWait, asleep⟩ z
  by_contra accepted
  apply none
  refine ⟨listed, zombie, child, fun requested => ?_⟩
  by_contra other
  exact accepted ⟨requested, other⟩

/-- A process goes on waiting for its second child after its first one has exited. -/
theorem no_lost_child_exit_second :
    ∃ k, Run.exec (step wrapInt32) (boot fun _ => blank)
        (firstUser ++ forked .fork 4 ++ forked .fork 5 ++
          [.syscall (.wait 5), .go 0, .go 0, .go 0, .go 0, .syscall (.exit 7), .go 0, .go 0,
            .go 0, .go 0, .go 0, .go 0]) = .ok k ∧
      (k.procs 3).state = .sleeping ∧ (k.procs 3).kstack.pc = .waitSched 5 .trap ∧
      (k.procs 4).state = .zombie ∧ (k.procs 4).parent = some 3 ∧ (k.procs 4).pid ≠ 5 := by
  obtain ⟨k, run, asleep, place, zombie, parent, list, ring⟩ := Run.exec_of_decide
    (fun k : Kernel => (k.procs 3).state = .sleeping ∧
      (k.procs 3).kstack.pc = .waitSched 5 .trap ∧ (k.procs 4).state = .zombie ∧
      (k.procs 4).parent = some 3 ∧ k.procList = [5, 4, 3, 2, 1] ∧ k.threadRing 3 = [3])
    (by decide +kernel : (Run.exec (step wrapInt32) (boot fun _ => blank)
        (firstUser ++ forked .fork 4 ++ forked .fork 5 ++
          [.syscall (.wait 5), .go 0, .go 0, .go 0, .go 0, .syscall (.exit 7), .go 0, .go 0,
            .go 0, .go 0, .go 0, .go 0])).map _ = .ok true)
  have child : ∃ q ∈ k.threadRing 3, (k.procs 4).parent = some q := ⟨3, by simp [ring], parent⟩
  have other := (no_lost_child_exit ⟨_, _, run⟩ (.inl (by simp [list])) asleep (by rw [place]; rfl)
    (by simp [list]) zombie child).2
  exact ⟨k, run, asleep, place, zombie, parent, other⟩

end Kernel

end EdfKernel
