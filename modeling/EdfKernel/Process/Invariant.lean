import EdfKernel.Process.Places
import EdfKernel.Process.Sleeps

/-!
# The invariant of the kernel

Outside its own steps every process is settled: its state, its wait state, its
timer and its record on `kswapd_done` agree with the place it continues at.  The
invariant adds the run queue and the process table, and is proved for the
processes that do not have the processor and for the current one apart, since a
step moves only the current process.
-/

namespace EdfKernel

open Library

namespace Kernel

variable {k k' m : Kernel} {p q child : ProcPtr} {pc : Pc} {caller : Caller}

/-! ## Settled processes -/

/-- The processes in which a thread of control runs. -/
def Plays (k : Kernel) (p : ProcPtr) : Role → Prop
  | .idle => p = k.idleproc
  | .init => p = k.initproc
  | _ => p ≠ k.idleproc ∧ p ≠ k.initproc

/-- The descriptor of a process that `p` has not linked yet. -/
structure Unborn (k : Kernel) (p child : ProcPtr) (caller : Caller) : Prop where
  unknown : ¬k.Known child
  allocated : k.allocated child = true
  uninit : (k.procs child).state = .uninit
  awake : (k.procs child).waitState = 0
  untimed : ¬k.Timed child
  unqueued : child ∉ k.kswapdDone
  parent : (k.procs child).parent = some p
  childless : (k.procs child).cptr = none
  spaceless : (k.procs child).mm = none
  starts : ∃ fn, (k.procs child).kstack.pc = .forkret fn
  role : (k.procs child).kstack.pc.Of .kswapd ∨ (k.procs child).kstack.pc.Of .user
  swapd : caller = .initKswapd → (k.procs child).kstack.pc.Of .kswapd

/-- A process agrees with the place `pc`. -/
structure Settled (k : Kernel) (p : ProcPtr) (pc : Pc) : Prop where
  fits : pc.place.Fits (k.procs p) (k.Timed p) (p ∈ k.kswapdDone)
  role : ∃ role, k.Plays p role ∧ pc.Of role
  swapd : k.kswapd = some p → pc.Of .kswapd
  making : ∀ child caller, pc.task = .making child caller → k.Unborn p child caller
  loading : pc.task = .loading → (k.procs p).mm = none

/-- What the place of a process is compared with is the same in `k'`. -/
structure Spares (k k' : Kernel) (p : ProcPtr) : Prop where
  state : (k'.procs p).state = (k.procs p).state
  waitState : (k'.procs p).waitState = (k.procs p).waitState
  wakeupFlags : (k'.procs p).kstack.wakeupFlags = (k.procs p).kstack.wakeupFlags
  mm : (k'.procs p).mm = (k.procs p).mm
  timed : k'.Timed p ↔ k.Timed p
  queued : p ∈ k'.kswapdDone ↔ p ∈ k.kswapdDone

/-- The same processes play the three fixed roles. -/
structure SameRoles (k k' : Kernel) : Prop where
  idleproc : k'.idleproc = k.idleproc := by rfl
  initproc : k'.initproc = k.initproc := by rfl
  kswapd : k'.kswapd = k.kswapd := by rfl

theorem SameRoles.plays (same : k.SameRoles k') {role : Role} (plays : k.Plays p role) :
    k'.Plays p role := by
  cases role with
  | idle => exact plays.trans same.idleproc.symm
  | init => exact plays.trans same.initproc.symm
  | _ =>
      change p ≠ k'.idleproc ∧ p ≠ k'.initproc
      rw [same.idleproc, same.initproc]
      exact plays

theorem Unborn.congr (unborn : k.Unborn p child caller) (spares : k.Spares k' child)
    (pc : (k'.procs child).kstack.pc = (k.procs child).kstack.pc) (unknown : ¬k'.Known child)
    (allocated : k'.allocated child = true)
    (parent : (k'.procs child).parent = (k.procs child).parent)
    (cptr : (k'.procs child).cptr = (k.procs child).cptr) : k'.Unborn p child caller where
  unknown := unknown
  allocated := allocated
  uninit := spares.state.trans unborn.uninit
  awake := spares.waitState.trans unborn.awake
  untimed timed := unborn.untimed (spares.timed.mp timed)
  unqueued queued := unborn.unqueued (spares.queued.mp queued)
  parent := parent.trans unborn.parent
  childless := cptr.trans unborn.childless
  spaceless := spares.mm.trans unborn.spaceless
  starts := pc ▸ unborn.starts
  role := pc ▸ unborn.role
  swapd := pc ▸ unborn.swapd

theorem Settled.congr (settled : k.Settled p pc) (roles : k.SameRoles k') (spares : k.Spares k' p)
    (unborn : ∀ child caller, k.Unborn p child caller → k'.Unborn p child caller) :
    k'.Settled p pc where
  fits := settled.fits.congr spares.state spares.waitState spares.wakeupFlags spares.timed
    spares.queued
  role := by
    obtain ⟨role, plays, of⟩ := settled.role
    exact ⟨role, roles.plays plays, of⟩
  swapd own := settled.swapd (roles.kswapd ▸ own)
  making child caller task := unborn child caller (settled.making child caller task)
  loading task := spares.mm.trans (settled.loading task)

/-! ## The invariant -/

/-- The invariant without what it says of the current process. -/
structure Others (k : Kernel) : Prop where
  queue : RunQueue k
  table : Table k
  current : k.Known k.current
  timed : ∀ p, k.Timed p → k.Known p
  timers : (k.timerList.map Timer.proc).Nodup
  queued : ∀ p ∈ k.kswapdDone, k.Known p
  done : k.kswapdDone.Nodup
  swapd : ∀ p, k.kswapd = some p → p ∈ k.procList
  stray : ∀ p, k.allocated p = true → ¬k.Known p → (k.procs p).state = .uninit
  settled : ∀ p, k.Known p → p ≠ k.current → k.Settled p (k.procs p).kstack.pc
  parked : ∀ p, k.Known p → p ≠ k.current → (k.procs p).kstack.pc.parked = true

/-- What the invariant says of the current process at the place `pc`. -/
structure Own (k : Kernel) (pc : Pc) : Prop where
  settled : k.Settled k.current pc
  active : (k.procs k.current).state = .runnable ∨ pc.marks = true
  linked : ∀ child caller, pc.task = .linked child caller → child ≠ k.current ∧
    child ∈ k.procList ∧ (k.procs child).state = .uninit ∧
    (caller = .initKswapd → (k.procs child).kstack.pc.Of .kswapd)

/-- The pid that `init_main` is about to look up belongs to the swap daemon. -/
def Stores (k : Kernel) (ret : Int) : Prop :=
  ret ≤ 0 ∨ ∃ child ∈ k.procList, (k.procs child).pid = ret ∧
    (k.procs child).kstack.pc.Of .kswapd

/-- The invariant of the kernel. -/
structure Inv (k : Kernel) : Prop where
  others : k.Others
  own : k.Own k.pc
  stores : k.pc = .initKswapd → k.Stores (k.procs k.current).kstack.ret

/-! ## What it says -/

theorem Settled.dormant (settled : k.Settled p pc) (table : Table k) (known : k.Known p)
    (interruptible : (k.procs p).waitState &&& wtInterrupted ≠ 0) : k.Dormant p := by
  have waiting : (k.procs p).waitState ≠ 0 := by
    intro zero
    simp [zero] at interruptible
  refine ⟨table.allocated p known, ?_, settled.fits.asleep waiting, interruptible⟩
  rintro rfl
  obtain ⟨role, plays, of⟩ := settled.role
  cases role with
  | idle =>
      have fits := settled.fits
      rw [Pc.place_of_idle of] at fits
      exact waiting fits.2.1
  | init => exact table.listed _ table.init plays.symm
  | kswapd => exact plays.1 rfl
  | user => exact plays.1 rfl

theorem Others.dormant (others : k.Others) (known : k.Known p) (other : p ≠ k.current)
    (interruptible : (k.procs p).waitState &&& wtInterrupted ≠ 0) : k.Dormant p :=
  (others.settled p known other).dormant others.table known interruptible

theorem Inv.settled (inv : k.Inv) (known : k.Known p) :
    k.Settled p (k.procs p).kstack.pc := by
  by_cases own : p = k.current
  · subst p
    exact inv.own.settled
  · exact inv.others.settled p known own

theorem Inv.dormant (inv : k.Inv) (known : k.Known p)
    (interruptible : (k.procs p).waitState &&& wtInterrupted ≠ 0) : k.Dormant p :=
  (inv.settled known).dormant inv.others.table known interruptible

theorem Others.allocated (others : k.Others) : k.allocated k.current = true :=
  others.table.allocated _ others.current

/-! ## Changes of the current process -/

/-- A step that leaves the other processes and their unlinked children as they are. -/
theorem Others.congr (others : k.Others) (queue : RunQueue k') (table : Table k')
    (roles : k.SameRoles k') (current : k'.current = k.current)
    (list : k'.procList = k.procList)
    (allocated : ∀ c, k.allocated c = true → (k.procs c).parent ≠ some k.current →
      k'.allocated c = true)
    (old : ∀ c, k'.allocated c = true → k.allocated c = true)
    (timers : (k'.timerList.map Timer.proc).Nodup) (done : k'.kswapdDone.Nodup)
    (spares : ∀ p, p ≠ k.current → k.Spares k' p)
    (pc : ∀ p, p ≠ k.current → (k'.procs p).kstack.pc = (k.procs p).kstack.pc)
    (parent : ∀ c, ¬k.Known c → (k'.procs c).parent = (k.procs c).parent)
    (cptr : ∀ c, ¬k.Known c → (k'.procs c).cptr = (k.procs c).cptr) : k'.Others := by
  have known : ∀ p, k'.Known p ↔ k.Known p := by
    intro p
    rw [Known, Known, list, roles.idleproc]
  have unborn : ∀ p, p ≠ k.current → ∀ child caller, k.Unborn p child caller →
      k'.Unborn p child caller := by
    intro p other child caller unborn
    have notCurrent : child ≠ k.current := by
      rintro rfl
      exact unborn.unknown others.current
    have strange := unborn.unknown
    apply unborn.congr (spares child notCurrent) (pc child notCurrent)
    · rw [known]
      exact strange
    · apply allocated child unborn.allocated
      rw [unborn.parent]
      exact fun same => other (Option.some.inj same)
    · exact parent child strange
    · exact cptr child strange
  constructor
  · exact queue
  · exact table
  · rw [known, current]
    exact others.current
  · intro p timed
    rw [known]
    by_cases own : p = k.current
    · exact own ▸ others.current
    · exact others.timed p ((spares p own).timed.mp timed)
  · exact timers
  · intro p queued
    rw [known]
    by_cases own : p = k.current
    · exact own ▸ others.current
    · exact others.queued p ((spares p own).queued.mp queued)
  · exact done
  · intro p isSwapd
    rw [list]
    exact others.swapd p (roles.kswapd ▸ isSwapd)
  · intro p allocated unknown
    rw [known] at unknown
    have other : p ≠ k.current := by
      rintro rfl
      exact unknown others.current
    rw [(spares p other).state]
    exact others.stray p (old p allocated) unknown
  · intro p knownP other
    rw [current] at other
    rw [pc p other]
    exact (others.settled p ((known p).mp knownP) other).congr roles (spares p other)
      (unborn p other)
  · intro p knownP other
    rw [current] at other
    rw [pc p other]
    exact others.parked p ((known p).mp knownP) other

/-- Only the current process has changed, with its timer, its record on `kswapd_done`,
its thread group and its address space. -/
structure ChangesCurrent (k k' : Kernel) : Prop where
  procs : ∀ p, p ≠ k.current → k'.procs p = k.procs p
  frame : k' = { k with
    procs := k'.procs
    threadGroups := k'.threadGroups
    timerList := k'.timerList
    kswapdDone := k'.kswapdDone
    mmCount := k'.mmCount
    mmAlive := k'.mmAlive }
  timed : ∀ p, p ≠ k.current → (k'.Timed p ↔ k.Timed p)
  queued : ∀ p, p ≠ k.current → (p ∈ k'.kswapdDone ↔ p ∈ k.kswapdDone)

namespace ChangesCurrent

variable (changes : k.ChangesCurrent k')

include changes

theorem roles : k.SameRoles k' where
  idleproc := (congrArg Kernel.idleproc changes.frame :)
  initproc := (congrArg Kernel.initproc changes.frame :)
  kswapd := (congrArg Kernel.kswapd changes.frame :)

theorem current : k'.current = k.current :=
  (congrArg Kernel.current changes.frame :)

theorem procList : k'.procList = k.procList :=
  (congrArg Kernel.procList changes.frame :)

theorem allocated : k'.allocated = k.allocated :=
  (congrArg Kernel.allocated changes.frame :)

theorem known (p : ProcPtr) : k'.Known p ↔ k.Known p := by
  rw [Known, Known, changes.procList, changes.roles.idleproc]

theorem spares (other : p ≠ k.current) : k.Spares k' p := by
  have same := changes.procs p other
  exact ⟨congrArg ProcStruct.state same, congrArg ProcStruct.waitState same,
    congrArg (fun s => s.kstack.wakeupFlags) same, congrArg ProcStruct.mm same,
    changes.timed p other, changes.queued p other⟩

theorem unborn (currentKnown : k.Known k.current) (unborn : k.Unborn p child caller) :
    k'.Unborn p child caller := by
  have other : child ≠ k.current := by
    rintro rfl
    exact unborn.unknown currentKnown
  have same := changes.procs child other
  apply unborn.congr (changes.spares other) (congrArg (fun s => s.kstack.pc) same)
  · rw [changes.known]
    exact unborn.unknown
  · rw [changes.allocated]
    exact unborn.allocated
  · exact congrArg ProcStruct.parent same
  · exact congrArg ProcStruct.cptr same

end ChangesCurrent

/-- A change of the current process only. -/
theorem Others.modify (others : k.Others) (queue : RunQueue k') (table : Table k')
    (changes : k.ChangesCurrent k') (timers : (k'.timerList.map Timer.proc).Nodup)
    (done : k'.kswapdDone.Nodup) : k'.Others := by
  have strange : ∀ c, ¬k.Known c → c ≠ k.current := by
    rintro c unknown rfl
    exact unknown others.current
  apply others.congr queue table changes.roles changes.current changes.procList
  · intro c old _
    rw [changes.allocated]
    exact old
  · intro c now
    rw [changes.allocated] at now
    exact now
  · exact timers
  · exact done
  · exact fun p other => changes.spares other
  · exact fun p other => congrArg (fun s => s.kstack.pc) (changes.procs p other)
  · exact fun c unknown => congrArg ProcStruct.parent (changes.procs c (strange c unknown))
  · exact fun c unknown => congrArg ProcStruct.cptr (changes.procs c (strange c unknown))

/-- The current process has changed so that it agrees with the place `pc`. -/
theorem Own.modify (own : k.Own k.pc) (known : k.Known k.current)
    (changes : k.ChangesCurrent k')
    (fits : pc.place.Fits (k'.procs k.current) (k'.Timed k.current)
      (k.current ∈ k'.kswapdDone))
    (of : ∀ role, k.pc.Of role → pc.Of role)
    (making : ∀ child caller, pc.task = .making child caller →
      k.Unborn k.current child caller)
    (loading : pc.task = .loading → (k'.procs k.current).mm = none)
    (active : (k'.procs k.current).state = .runnable ∨ pc.marks = true)
    (unlinked : ∀ child caller, pc.task ≠ .linked child caller) : k'.Own pc := by
  constructor
  · rw [changes.current]
    constructor
    · exact fits
    · obtain ⟨role, plays, old⟩ := own.settled.role
      exact ⟨role, changes.roles.plays plays, of role old⟩
    · exact fun isSwapd => of _ (own.settled.swapd (changes.roles.kswapd ▸ isSwapd))
    · exact fun child caller task => changes.unborn known (making child caller task)
    · exact loading
  · rw [changes.current]
    exact active
  · exact fun child caller task => absurd task (unlinked child caller)

/-! ## Moving -/

section Moved

variable (m : Kernel) (pc : Pc) (ret exitCode : Int) (needResched : Bool)

theorem moved_relations : (m.moved pc ret exitCode needResched).relations = m.relations :=
  relations_modify rfl rfl

theorem moved_spares (p : ProcPtr) : m.Spares (m.moved pc ret exitCode needResched) p := by
  have field : ∀ {α : Type} (field : ProcStruct → α),
      (∀ s : ProcStruct, field { s with
        kstack := { s.kstack with pc := pc, ret := ret }
        exitCode := exitCode
        needResched := needResched } = field s) →
      field ((m.moved pc ret exitCode needResched).procs p) = field (m.procs p) :=
    fun field same => m.modify_field _ _ field (same _) p
  exact ⟨field ProcStruct.state fun _ => rfl, field ProcStruct.waitState fun _ => rfl,
    field (fun s => s.kstack.wakeupFlags) fun _ => rfl, field ProcStruct.mm fun _ => rfl,
    Iff.rfl, Iff.rfl⟩

theorem moved_pc : (m.moved pc ret exitCode needResched).pc = pc := by
  simp [Kernel.pc, Kernel.moved]

theorem moved_procs_of_ne (other : p ≠ m.current) :
    (m.moved pc ret exitCode needResched).procs p = m.procs p :=
  modify_procs_of_ne m _ _ other

variable {m pc ret exitCode needResched}

theorem Others.moved (others : m.Others) : (m.moved pc ret exitCode needResched).Others := by
  apply others.modify (others.queue.modify_current _)
    (others.table.of_relations (moved_relations m pc ret exitCode needResched))
  · exact ⟨fun p other => moved_procs_of_ne m pc ret exitCode needResched other, rfl,
      fun _ _ => Iff.rfl, fun _ _ => Iff.rfl⟩
  · exact others.timers
  · exact others.done

theorem Settled.moved (settled : m.Settled m.current pc) (current : m.Known m.current) :
    (m.moved pc ret exitCode needResched).Settled m.current pc := by
  apply settled.congr {} (moved_spares m pc ret exitCode needResched m.current)
  intro child caller unborn
  have other : child ≠ m.current := by
    rintro rfl
    exact unborn.unknown current
  have same := moved_procs_of_ne m pc ret exitCode needResched other
  exact unborn.congr (moved_spares m pc ret exitCode needResched child)
    (congrArg (fun s => s.kstack.pc) same) unborn.unknown unborn.allocated
    (congrArg ProcStruct.parent same) (congrArg ProcStruct.cptr same)

end Moved

theorem Own.moved {ret exitCode : Int} {needResched : Bool} (own : m.Own pc)
    (current : m.Known m.current) : (m.moved pc ret exitCode needResched).Own pc := by
  constructor
  · exact own.settled.moved current
  · rcases own.active with runnable | marks
    · exact .inl ((moved_spares m pc ret exitCode needResched m.current).state.trans runnable)
    · exact .inr marks
  · intro child caller task
    obtain ⟨other, listed, uninit, swapd⟩ := own.linked child caller task
    have same := moved_procs_of_ne m pc ret exitCode needResched other
    refine ⟨other, listed, (congrArg ProcStruct.state same).trans uninit, fun isInit => ?_⟩
    rw [same]
    exact swapd isInit

/-- The current process goes on at a place that it agrees with. -/
theorem Inv.of_movedTo (others : m.Others) (own : m.Own pc) (moved : m.MovedTo pc k') :
    k'.Inv := by
  obtain ⟨ret, exitCode, needResched, failed, rfl⟩ := moved
  constructor
  · exact others.moved
  · rw [moved_pc]
    exact own.moved others.current
  · intro isInit
    rw [moved_pc] at isInit
    left
    have own : ((m.moved pc ret exitCode needResched).procs m.current).kstack.ret = ret := by
      simp [Kernel.moved]
    exact own.le.trans (failed isInit)

/-- The current process is awake where it does not mark itself. -/
theorem Own.running (own : k.Own k.pc) (running : k.pc.marks = false) :
    (k.procs k.current).state = .runnable ∧ (k.procs k.current).waitState = 0 ∧
      (k.pc.place ≠ .timer → ¬k.Timed k.current) ∧ k.current ∉ k.kswapdDone := by
  have runnable : (k.procs k.current).state = .runnable := by
    rcases own.active with runnable | marks
    · exact runnable
    · rw [running] at marks
      contradiction
  exact ⟨runnable, own.settled.fits.of_runnable runnable⟩

/-- The current process goes on at a place where it is awake. -/
theorem Own.awake (own : k.Own k.pc) (running : k.pc.marks = false)
    (untimed : k.pc.place ≠ .timer) (place : pc.place = .awake)
    (of : ∀ role, k.pc.Of role → pc.Of role) (task : pc.task = k.pc.task ∨ pc.task = .none) :
    k.Own pc := by
  obtain ⟨runnable, wait, timed, queued⟩ := own.running running
  constructor
  · constructor
    · rw [place]
      exact ⟨runnable, wait, timed untimed, queued⟩
    · obtain ⟨role, plays, old⟩ := own.settled.role
      exact ⟨role, plays, of role old⟩
    · exact fun isSwapd => of _ (own.settled.swapd isSwapd)
    · intro child caller making
      rcases task with same | none
      · exact own.settled.making child caller (same.symm.trans making)
      · rw [none] at making
        contradiction
    · intro loading
      rcases task with same | none
      · exact own.settled.loading (same.symm.trans loading)
      · rw [none] at loading
        contradiction
  · exact .inl runnable
  · intro child caller linked
    rcases task with same | none
    · exact own.linked child caller (same.symm.trans linked)
    · rw [none] at linked
      contradiction

theorem Own.of_moves {flagged : Bool} (own : k.Own k.pc) (moves : k.pc.Moves flagged pc) :
    k.Own pc :=
  own.awake moves.marks_source moves.place_source moves.place (fun _ => moves.of) (.inl moves.task)

/-! ## Waking -/

/-- Waking and killing processes keeps what is said of a process. -/
theorem Settled.of_rouses (settled : k.Settled p pc) (rouses : k.Rouses k') :
    k'.Settled p pc := by
  have relations := rouses.relations
  have same : ∀ q, (k'.procs q).relations = (k.procs q).relations :=
    fun q => (congrArg (fun m => m.procs q) relations :)
  have known : ∀ q, k'.Known q ↔ k.Known q := by
    intro q
    rw [Known, Known, show k'.procList = k.procList from (congrArg Kernel.procList relations :),
      rouses.idleproc]
  constructor
  · apply settled.fits.stir
    · rcases rouses.state p with same | ⟨dormant, awake, wait⟩
      · exact .inl same
      · exact .inr ⟨dormant.asleep, dormant.interruptible, awake, wait⟩
    · rw [rouses.kstack]
    · exact rouses.timed p
    · exact rouses.expired p
    · rw [rouses.kswapdDone]
  · obtain ⟨role, plays, of⟩ := settled.role
    exact ⟨role, SameRoles.plays ⟨rouses.idleproc, rouses.initproc, rouses.kswapd⟩ plays, of⟩
  · exact fun isSwapd => settled.swapd (rouses.kswapd ▸ isSwapd)
  · intro child caller task
    have unborn := settled.making child caller task
    have still : (k'.procs child).state = (k.procs child).state ∧
        (k'.procs child).waitState = (k.procs child).waitState := by
      rcases rouses.state child with same | ⟨dormant, _⟩
      · exact same
      · have asleep := dormant.asleep
        rw [unborn.uninit] at asleep
        contradiction
    constructor
    · rw [known]
      exact unborn.unknown
    · rw [rouses.allocated]
      exact unborn.allocated
    · exact still.1.trans unborn.uninit
    · exact still.2.trans unborn.awake
    · exact fun timed => unborn.untimed (rouses.timed child timed)
    · rw [rouses.kswapdDone]
      exact unborn.unqueued
    · exact (congrArg ProcStruct.parent (same child) :).trans unborn.parent
    · exact (congrArg ProcStruct.cptr (same child) :).trans unborn.childless
    · exact (congrArg ProcStruct.mm (same child) :).trans unborn.spaceless
    · rw [rouses.kstack]
      exact unborn.starts
    · rw [rouses.kstack]
      exact unborn.role
    · rw [rouses.kstack]
      exact unborn.swapd
  · exact fun loading => (congrArg ProcStruct.mm (same p) :).trans (settled.loading loading)

theorem Others.of_rouses (others : k.Others) (rouses : k.Rouses k') (queue : RunQueue k') :
    k'.Others := by
  have list : k'.procList = k.procList := (congrArg Kernel.procList rouses.relations :)
  have known : ∀ q, k'.Known q ↔ k.Known q := by
    intro q
    rw [Known, Known, list, rouses.idleproc]
  constructor
  · exact queue
  · exact others.table.of_relations rouses.relations
  · rw [known, rouses.current]
    exact others.current
  · intro p timed
    rw [known]
    exact others.timed p (rouses.timed p timed)
  · exact rouses.timers.nodup others.timers
  · intro p queued
    rw [known]
    exact others.queued p (rouses.kswapdDone ▸ queued)
  · rw [rouses.kswapdDone]
    exact others.done
  · intro p isSwapd
    rw [list]
    exact others.swapd p (rouses.kswapd ▸ isSwapd)
  · intro p allocated unknown
    rw [rouses.allocated] at allocated
    rw [known] at unknown
    have uninit := others.stray p allocated unknown
    rcases rouses.state p with ⟨same, _⟩ | ⟨dormant, _⟩
    · exact same.trans uninit
    · have asleep := dormant.asleep
      rw [uninit] at asleep
      contradiction
  · intro p knownP other
    rw [rouses.current] at other
    rw [rouses.kstack]
    exact (others.settled p ((known p).mp knownP) other).of_rouses rouses
  · intro p knownP other
    rw [rouses.current] at other
    rw [rouses.kstack]
    exact others.parked p ((known p).mp knownP) other

theorem Own.of_rouses (own : k.Own pc) (rouses : k.Rouses k') : k'.Own pc := by
  constructor
  · rw [rouses.current]
    exact own.settled.of_rouses rouses
  · rw [rouses.current]
    rcases own.active with runnable | marks
    · exact .inl (rouses.toStirs.runnable runnable)
    · exact .inr marks
  · intro child caller task
    obtain ⟨other, listed, uninit, swapd⟩ := own.linked child caller task
    rw [rouses.current, rouses.kstack,
      show k'.procList = k.procList from (congrArg Kernel.procList rouses.relations :)]
    refine ⟨other, listed, ?_, swapd⟩
    rcases rouses.state child with ⟨same, _⟩ | ⟨dormant, _⟩
    · exact same.trans uninit
    · have asleep := dormant.asleep
      rw [uninit] at asleep
      contradiction

theorem Stores.of_rouses {ret : Int} (stores : k.Stores ret) (rouses : k.Rouses k') :
    k'.Stores ret := by
  rcases stores with failed | ⟨child, listed, pid, swapd⟩
  · exact .inl failed
  · refine .inr ⟨child, ?_, ?_, ?_⟩
    · rw [show k'.procList = k.procList from (congrArg Kernel.procList rouses.relations :)]
      exact listed
    · exact (congrArg (fun m => (m.procs child).pid) rouses.relations :).trans pid
    · rw [rouses.kstack]
      exact swapd

theorem Inv.of_rouses (inv : k.Inv) (rouses : k.Rouses k') (queue : RunQueue k') : k'.Inv := by
  have here : k'.pc = k.pc := by
    rw [Kernel.pc, Kernel.pc, rouses.current, rouses.kstack]
  constructor
  · exact inv.others.of_rouses rouses queue
  · rw [here]
    exact inv.own.of_rouses rouses
  · intro isInit
    rw [here] at isInit
    rw [rouses.current, rouses.kstack]
    exact (inv.stores isInit).of_rouses rouses

/-! ## Switching -/

theorem Settled.of_unsched (settled : k.Settled p pc)
    (same : k'.unsched = { k.unsched with current := k'.current }) : k'.Settled p pc := by
  have list : k'.procList = k.procList := (congrArg Kernel.procList same :)
  have idleproc : k'.idleproc = k.idleproc := (congrArg Kernel.idleproc same :)
  have timers : k'.timerList = k.timerList := (congrArg Kernel.timerList same :)
  have done : k'.kswapdDone = k.kswapdDone := (congrArg Kernel.kswapdDone same :)
  have procs : ∀ q, (k'.procs q).unsched = (k.procs q).unsched :=
    fun q => (congrArg (fun m => m.procs q) same :)
  have spares : ∀ q, k.Spares k' q := fun q =>
    ⟨(congrArg ProcStruct.state (procs q) :), (congrArg ProcStruct.waitState (procs q) :),
      (congrArg (fun s => s.kstack.wakeupFlags) (procs q) :),
      (congrArg ProcStruct.mm (procs q) :), by rw [Timed, Timed, timers], by rw [done]⟩
  apply settled.congr ⟨idleproc, (congrArg Kernel.initproc same :),
    (congrArg Kernel.kswapd same :)⟩ (spares p)
  intro child caller unborn
  apply unborn.congr (spares child) (congrArg (fun s => s.kstack.pc) (procs child) :)
  · rw [Known, list, idleproc]
    exact unborn.unknown
  · rw [show k'.allocated = k.allocated from (congrArg Kernel.allocated same :)]
    exact unborn.allocated
  · exact (congrArg ProcStruct.parent (procs child) :)
  · exact (congrArg ProcStruct.cptr (procs child) :)

/-- From a state in which every process is parked `schedule` reaches the invariant. -/
theorem Others.schedule (others : k.Others) (settled : k.Settled k.current k.pc)
    (parked : k.pc.parked = true) (scheduled : k.schedule = .ok k') : k'.Inv := by
  have same := schedule_unsched scheduled
  obtain ⟨queue, contends⟩ := others.queue.schedule others.allocated scheduled
  have list : k'.procList = k.procList := (congrArg Kernel.procList same :)
  have idleproc : k'.idleproc = k.idleproc := (congrArg Kernel.idleproc same :)
  have timers : k'.timerList = k.timerList := (congrArg Kernel.timerList same :)
  have done : k'.kswapdDone = k.kswapdDone := (congrArg Kernel.kswapdDone same :)
  have allocated : k'.allocated = k.allocated := (congrArg Kernel.allocated same :)
  have relations : k'.relations = k.relations := (congrArg Kernel.relations same :)
  have known : ∀ p, k'.Known p ↔ k.Known p := by
    intro p
    rw [Known, Known, list, idleproc]
  have state : ∀ p, (k'.procs p).state = (k.procs p).state :=
    fun p => (congrArg (fun m => (m.procs p).state) same :)
  have stack : ∀ p, (k'.procs p).kstack = (k.procs p).kstack :=
    fun p => (congrArg (fun m => (m.procs p).kstack) same :)
  have all : ∀ p, k.Known p → k.Settled p (k.procs p).kstack.pc ∧
      (k.procs p).kstack.pc.parked = true := by
    intro p knownP
    by_cases own : p = k.current
    · subst p
      exact ⟨settled, parked⟩
    · exact ⟨others.settled p knownP own, others.parked p knownP own⟩
  have chosen : k.Known k'.current := by
    by_contra unknown
    have uninit := others.stray k'.current (allocated ▸ contends.1) unknown
    rw [← state, contends.2.1] at uninit
    contradiction
  have here : k'.pc = (k.procs k'.current).kstack.pc := by
    rw [Kernel.pc, stack]
  constructor
  · constructor
    · exact queue
    · exact others.table.of_relations relations
    · rw [known]
      exact chosen
    · intro p timed
      rw [known]
      rw [Timed, timers] at timed
      exact others.timed p timed
    · rw [timers]
      exact others.timers
    · intro p queued
      rw [known]
      exact others.queued p (done ▸ queued)
    · rw [done]
      exact others.done
    · intro p isSwapd
      rw [list]
      exact others.swapd p ((congrArg Kernel.kswapd same :) ▸ isSwapd)
    · intro p isAllocated unknown
      rw [known] at unknown
      rw [state]
      exact others.stray p (allocated ▸ isAllocated) unknown
    · intro p knownP _
      rw [stack]
      exact (all p ((known p).mp knownP)).1.of_unsched same
    · intro p knownP _
      rw [stack]
      exact (all p ((known p).mp knownP)).2
  · rw [here]
    constructor
    · exact (all _ chosen).1.of_unsched same
    · exact .inl contends.2.1
    · exact fun child caller task => absurd task (Pc.task_of_parked (all _ chosen).2 child caller)
  · intro isInit
    rw [here] at isInit
    exact absurd isInit (Pc.parked_ne_initKswapd (all _ chosen).2)

theorem Inv.schedule (inv : k.Inv) {target : Pc} (parks : k.pc.Parks target)
    (scheduled : k.scheduleTo target = .ok k') : k'.Inv := by
  have own : k.Settled k.current target := by
    obtain ⟨fits, ⟨role, plays, of⟩, swapd, making, loading⟩ := inv.own.settled
    refine ⟨?_, ⟨role, plays, parks.of of⟩, fun isSwapd => parks.of (swapd isSwapd), ?_, ?_⟩
    · rw [parks.place]
      exact fits
    · rw [parks.task]
      exact making
    · rw [parks.task]
      exact loading
  obtain ⟨ret, exitCode, needResched, _, eq⟩ :=
    goto_movedTo k target (Pc.parked_ne_initKswapd parks.parked)
  unfold scheduleTo at scheduled
  rw [eq] at scheduled
  apply inv.others.moved.schedule ?_ ?_ scheduled
  · rw [moved_pc]
    exact own.moved inv.others.current
  · rw [moved_pc]
    exact parks.parked

end Kernel

end EdfKernel
