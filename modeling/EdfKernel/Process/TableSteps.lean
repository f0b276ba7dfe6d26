import EdfKernel.Process.SleepSteps
import EdfKernel.Process.WaitScan

/-!
# Steps of the process table

The invariant is kept by the steps of `do_fork`, `do_execve`, `do_wait` and
`__do_exit` that change the process table.
-/

namespace EdfKernel

open Library

namespace Kernel

variable {wrap : Int → Int} {k k' m : Kernel} {p q child : ProcPtr} {pc : Pc} {caller : Caller}

/-! ## Roles -/

theorem Settled.of_idle (settled : k.Settled p pc) (table : Table k) (idle : p = k.idleproc) :
    pc.Of .idle := by
  obtain ⟨role, plays, of⟩ := settled.role
  cases role with
  | idle => exact of
  | init => exact absurd (plays.symm.trans idle) (table.listed _ table.init)
  | kswapd => exact absurd idle plays.1
  | user => exact absurd idle plays.1

theorem Settled.of_init (settled : k.Settled p pc) (table : Table k) (init : p = k.initproc) :
    pc.Of .init := by
  obtain ⟨role, plays, of⟩ := settled.role
  cases role with
  | idle => exact absurd (init.symm.trans plays) (table.listed _ table.init)
  | init => exact of
  | kswapd => exact absurd init plays.2
  | user => exact absurd init plays.2

/-- A process that is not at a place of the idle process is on the process list. -/
theorem Inv.listed (inv : k.Inv) (notIdle : ¬k.pc.Of .idle) : k.current ∈ k.procList := by
  rcases inv.others.current with listed | idle
  · exact listed
  · exact absurd (inv.own.settled.of_idle inv.others.table idle) notIdle

/-! ## The swap daemon -/

theorem Inv.setKswapd (inv : k.Inv) (source : k.pc = .initKswapd)
    (created : 0 < (k.procs k.current).kstack.ret)
    (moved : { k with kswapd := k.findProc (k.procs k.current).kstack.ret }.MovedTo
      (.thread .initMain) k') : k'.Inv := by
  have swapd : ∀ p, k.findProc (k.procs k.current).kstack.ret = some p →
      p ∈ k.procList ∧ (k.procs p).kstack.pc.Of .kswapd := by
    intro p found
    obtain ⟨listed, pid⟩ := inv.others.table.numbered.findProc_eq_some_iff.mp found
    rcases inv.stores source with failed | ⟨child, listedChild, pidChild, of⟩
    · exact absurd created (not_lt.mpr failed)
    · have own : p = child :=
        inv.others.table.numbered.pid_injective listed listedChild (pid.trans pidChild.symm)
      exact ⟨listed, own ▸ of⟩
  have unborn : ∀ {p child caller}, k.Unborn p child caller →
      Unborn { k with kswapd := k.findProc (k.procs k.current).kstack.ret } p child caller :=
    fun unborn => ⟨unborn.unknown, unborn.allocated, unborn.uninit, unborn.awake, unborn.untimed,
      unborn.unqueued, unborn.parent, unborn.childless, unborn.spaceless, unborn.starts,
      unborn.role, unborn.swapd⟩
  have own : k.Own (.thread .initMain) :=
    inv.own.awake (by rw [source]; rfl) (by rw [source]; nofun) rfl
      (by rw [source]; exact fun _ init => init.symm) (.inr rfl)
  apply Inv.of_movedTo ?_ ?_ moved
  · constructor
    · exact inv.others.queue.congr rfl rfl (fun _ => Iff.rfl) (fun _ _ => rfl) fun _ _ => rfl
    · exact inv.others.table.of_relations rfl
    · exact inv.others.current
    · exact inv.others.timed
    · exact inv.others.timers
    · exact inv.others.queued
    · exact inv.others.done
    · exact fun p found => (swapd p found).1
    · exact inv.others.stray
    · intro p known other
      have settled := inv.others.settled p known other
      exact ⟨settled.fits, settled.role, fun found => (swapd p found).2,
        fun child caller task => unborn (settled.making child caller task), settled.loading⟩
    · exact inv.others.parked
  · constructor
    · refine ⟨own.settled.fits, own.settled.role, fun found => ?_, nofun, nofun⟩
      have of := (swapd k.current found).2
      change k.pc.Of .kswapd at of
      rw [source] at of
      contradiction
    · exact own.active
    · nofun

/-! ## do_fork -/

theorem withChild_procs_of_ne (k : Kernel) (kind : ForkKind) (timeSlice rest : Int)
    (notChild : q ≠ child) (notCurrent : q ≠ k.current) :
    (k.withChild kind child timeSlice rest).procs q = k.procs q := by
  rw [withChild, modify_procs_of_ne _ _ _ notChild]
  exact modify_procs_of_ne _ _ _ notCurrent

theorem forkEntry_starts (kind : ForkKind) : ∃ fn, forkEntry kind = .forkret fn := by
  cases kind <;> exact ⟨_, rfl⟩

theorem born_unborn (kind : ForkKind) (parent : ProcPtr) (timeSlice : Int) (s : ProcStruct) :
    (born kind parent timeSlice s).waitState = 0 ∧
      (born kind parent timeSlice s).parent = some parent ∧
      (born kind parent timeSlice s).cptr = none ∧ (born kind parent timeSlice s).mm = none ∧
      (born kind parent timeSlice s).kstack.pc = forkEntry kind := by
  cases kind <;> exact ⟨rfl, rfl, rfl, rfl, rfl⟩

theorem Inv.forkAlloc (inv : k.Inv) {flags : UInt32} {kind : ForkKind}
    (source : k.pc = .work (.fork flags kind caller)) (forked : k.forkAlloc kind child = .ok m)
    (moved : m.MovedTo (.work (.forkChild flags child caller)) k') : k'.Inv := by
  have queue := inv.others.queue.forkAlloc inv.others.allocated forked
  obtain ⟨free, notCurrent, awake, timeSlice, rest, rfl⟩ :=
    forkAlloc_eq_ok inv.others.allocated forked
  have notChild : ∀ p, k.allocated p = true → p ≠ child := by
    rintro p allocated rfl
    rw [free] at allocated
    contradiction
  have knownOther : ∀ p, k.Known p → p ≠ child :=
    fun p known => notChild p (inv.others.table.allocated p known)
  have unknown : ¬k.Known child := fun known => knownOther child known rfl
  have spares : ∀ p, p ≠ child → k.Spares (k.withChild kind child timeSlice rest) p := by
    intro p other
    have field : ∀ {α : Type} (field : ProcStruct → α),
        (∀ s : ProcStruct, field { s with timeSlice := rest } = field s) →
        field ((k.withChild kind child timeSlice rest).procs p) = field (k.procs p) := by
      intro α field same
      rw [withChild, modify_procs_of_ne _ _ _ other]
      exact field_modify field rfl (same _)
    exact ⟨field ProcStruct.state fun _ => rfl, field ProcStruct.waitState fun _ => rfl,
      field (fun s => s.kstack.wakeupFlags) fun _ => rfl, field ProcStruct.mm fun _ => rfl,
      Iff.rfl, Iff.rfl⟩
  have allocated : ∀ p, k.allocated p = true →
      (k.withChild kind child timeSlice rest).allocated p = true := by
    intro p old
    rw [withChild_allocated, Function.update_of_ne (notChild p old)]
    exact old
  have same : ∀ p, p ≠ child → p ≠ k.current →
      (k.withChild kind child timeSlice rest).procs p = k.procs p :=
    fun p => withChild_procs_of_ne k kind timeSlice rest
  have unborn : ∀ p child' caller, k.Unborn p child' caller →
      (k.withChild kind child timeSlice rest).Unborn p child' caller := by
    intro p child' caller unborn
    have other := notChild child' unborn.allocated
    have notOwn : child' ≠ k.current := by
      rintro rfl
      exact unborn.unknown inv.others.current
    have sameChild := same child' other notOwn
    exact unborn.congr (spares child' other) (congrArg (fun s => s.kstack.pc) sameChild)
      unborn.unknown (allocated child' unborn.allocated) (congrArg ProcStruct.parent sameChild)
      (congrArg ProcStruct.cptr sameChild)
  have ownChild := k.withChild_procs_child kind child timeSlice rest notCurrent
  obtain ⟨wait, parent, cptr, mm, entry⟩ := born_unborn kind k.current timeSlice (k.procs child)
  apply Inv.of_movedTo ?_ ?_ moved
  · constructor
    · exact queue
    · exact inv.others.table.withChild free
    · exact inv.others.current
    · exact inv.others.timed
    · exact inv.others.timers
    · exact inv.others.queued
    · exact inv.others.done
    · exact inv.others.swapd
    · intro p isAllocated strange
      by_cases own : p = child
      · rw [own, ownChild, born_state]
      · rw [(spares p own).state]
        rw [withChild_allocated, Function.update_of_ne own] at isAllocated
        exact inv.others.stray p isAllocated strange
    · intro p known other
      rw [same p (knownOther p known) other]
      exact (inv.others.settled p known other).congr {} (spares p (knownOther p known)) (unborn p)
    · intro p known other
      rw [same p (knownOther p known) other]
      exact inv.others.parked p known other
  · have settled := inv.own.settled
    rw [source] at settled
    obtain ⟨runnable, _, notTimed, notQueued⟩ := inv.own.running (by rw [source]; rfl)
    have spared := spares k.current notCurrent
    obtain ⟨role, plays, callerRole, cloned, isSwapd, fnRole⟩ := settled.role
    constructor
    · constructor
      · exact settled.fits.congr spared.state spared.waitState spared.wakeupFlags Iff.rfl Iff.rfl
      · exact ⟨role, SameRoles.plays {} plays, callerRole, cloned⟩
      · intro swapd
        have of := settled.swapd swapd
        exact ⟨of.1, (by rintro ⟨⟩)⟩
      · intro child' caller' task
        cases task
        have entryPc : ((k.withChild kind child timeSlice rest).procs child).kstack.pc =
            forkEntry kind := by rw [ownChild, entry]
        constructor
        · exact unknown
        · rw [withChild_allocated, Function.update_self]
        · rw [ownChild, born_state]
        · rw [ownChild, wait]
        · exact fun timed => unknown (inv.others.timed child timed)
        · exact fun queued => unknown (inv.others.queued child queued)
        · rw [ownChild, parent]
          rfl
        · rw [ownChild, cptr]
        · rw [ownChild, mm]
        · rw [entryPc]
          exact forkEntry_starts kind
        · rw [entryPc]
          cases kind with
          | kernel fn => exact fnRole fn rfl
          | user => exact .inr rfl
          | realTime ct pt => exact .inr rfl
        · intro isInit
          rw [entryPc, isSwapd isInit]
          rfl
      · rintro ⟨⟩
    · left
      exact spared.state.trans runnable
    · rintro _ _ ⟨⟩

theorem Inv.forkFree (inv : k.Inv) {flags : UInt32}
    (source : k.pc = .work (.forkChild flags child caller))
    (moved : (k.freeProc child).MovedTo caller.pc k') : k'.Inv := by
  have settled := inv.own.settled
  rw [source] at settled
  have own := settled.making child caller rfl
  have allocated : ∀ c, c ≠ child → (k.freeProc child).allocated c = k.allocated c :=
    fun c other => Function.update_of_ne other ..
  apply Inv.of_movedTo ?_ ?_ moved
  · apply inv.others.congr ?_ (inv.others.table.freeProc own.unknown) {} rfl rfl ?_ ?_
      inv.others.timers inv.others.done (fun _ _ => ⟨rfl, rfl, rfl, rfl, Iff.rfl, Iff.rfl⟩)
      (fun _ _ => rfl) (fun _ _ => rfl) fun _ _ => rfl
    · refine RunQueue.congr inv.others.queue rfl rfl ?_ (fun _ _ => rfl) fun _ _ => rfl
      intro q
      by_cases isChild : q = child
      · subst q
        have notRunnable : (k.procs child).state ≠ .runnable := by
          rw [own.uninit]
          decide
        exact ⟨fun ready => absurd ready.1.2.1 notRunnable,
          fun ready => absurd ready.1.2.1 notRunnable⟩
      · rw [Ready, Ready, Contends, Contends, allocated q isChild]
        rfl
    · intro c old notOurs
      rw [allocated]
      · exact old
      · rintro rfl
        exact notOurs own.parent
    · intro c now
      by_cases isChild : c = child
      · rw [isChild]
        exact own.allocated
      · rw [allocated c isChild] at now
        exact now
  · have awake : k.Own caller.pc := by
      apply inv.own.awake (by rw [source]; rfl) (by rw [source]; rintro ⟨⟩) caller.place_pc ?_
        (.inr caller.task_pc)
      rw [source]
      rintro role ⟨rfl, _⟩
      exact caller.pc_of
    have none := caller.task_pc
    exact ⟨⟨awake.settled.fits, awake.settled.role, awake.settled.swapd,
      by rw [none]; rintro _ _ ⟨⟩, by rw [none]; rintro ⟨⟩⟩, awake.active, by rw [none]; rintro _ _ ⟨⟩⟩

theorem Inv.linkable (inv : k.Inv) {flags : UInt32}
    (source : k.pc = .work (.forkChild flags child caller)) : k.Linkable child := by
  have settled := inv.own.settled
  rw [source] at settled
  have own := settled.making child caller rfl
  have listed : k.current ∈ k.procList := by
    apply inv.listed
    rw [source]
    exact Work.not_of_idle (.forkChild flags child caller)
  have runnable := (inv.own.running (by rw [source]; rfl)).1
  refine ⟨listed, ?_, own.unknown, own.allocated, own.parent, ?_, own.childless, own.spaceless⟩
  · rw [runnable]
    decide
  · rw [own.uninit]
    decide

/-- What `do_fork` changes when it links the new process. -/
structure Links (k : Kernel) (child : ProcPtr) (k' : Kernel) : Prop where
  roles : k.SameRoles k'
  current : k'.current = k.current
  procList : k'.procList = child :: k.procList
  timerList : k'.timerList = k.timerList
  kswapdDone : k'.kswapdDone = k.kswapdDone
  allocated : k'.allocated = k.allocated
  state : ∀ q, (k'.procs q).state = (k.procs q).state
  waitState : ∀ q, (k'.procs q).waitState = (k.procs q).waitState
  kstack : ∀ q, (k'.procs q).kstack = (k.procs q).kstack
  flags : ∀ q, (k'.procs q).flags = (k.procs q).flags
  exitCode : ∀ q, (k'.procs q).exitCode = (k.procs q).exitCode
  parent : ∀ q, (k'.procs q).parent = (k.procs q).parent
  mm : ∀ q, q ≠ child → (k'.procs q).mm = (k.procs q).mm
  cptr : ∀ q, q ≠ k.current → (k'.procs q).cptr = (k.procs q).cptr
  pid : ∀ q, q ≠ child → (k'.procs q).pid = (k.procs q).pid

theorem forkLink_links {flags : UInt32} {mm : MmPtr} (table : Table k)
    (linkable : k.Linkable child) (linked : k.forkLink flags child mm = .ok k') :
    k.Links child k' ∧ k'.threadGroups = if flags &&& cloneThread ≠ 0 then
      Rings.join k.current child k.threadGroups else k.threadGroups := by
  have unlinked := forkLink_unlinked linked
  obtain ⟨m, pid, nextSafe, copy, next, rfl⟩ := forkLink_eq_ok linked
  obtain ⟨used, copied⟩ := copyMm_spec linkable.spaceless table.spaces linkable.current copy
  have frame := Table.linkChild_tables copied flags pid nextSafe k.procs
  refine ⟨?_, (congrArg Kernel.threadGroups frame :)⟩
  constructor
  · exact ⟨(congrArg Kernel.idleproc frame :), (congrArg Kernel.initproc frame :),
      (congrArg Kernel.kswapd frame :)⟩
  · exact (congrArg Kernel.current frame :)
  · exact (congrArg Kernel.procList frame :)
  · exact (congrArg Kernel.timerList frame :)
  · exact (congrArg Kernel.kswapdDone frame :)
  · exact (congrArg Kernel.allocated frame :)
  · exact fun q => (congrArg (fun m => (m.procs q).state) unlinked :)
  · exact fun q => (congrArg (fun m => (m.procs q).waitState) unlinked :)
  · exact fun q => (congrArg (fun m => (m.procs q).kstack) unlinked :)
  · exact fun q => (congrArg (fun m => (m.procs q).flags) unlinked :)
  · exact fun q => (congrArg (fun m => (m.procs q).exitCode) unlinked :)
  · exact fun q => Table.linkChild_parent copied q
  · intro q other
    rw [Table.linkChild_mm copied, if_neg other]
  · intro q other
    have current : m.current = k.current := (congrArg Kernel.current copied.frame :)
    rw [linkChild_procs, setLinks_cptr, current, if_neg other]
    refine (hashChild_field m child pid nextSafe q ProcStruct.cptr fun _ => rfl).trans ?_
    exact (congrArg ProcStruct.cptr (copied.kinship q) :)
  · intro q other
    rw [Table.linkChild_pid copied, if_neg other]

theorem Inv.forkLink (inv : k.Inv) {flags : UInt32} {mm : MmPtr}
    (source : k.pc = .work (.forkChild flags child caller))
    (linked : k.forkLink flags child mm = .ok m) (moved : m.MovedTo (.forkWake child caller) k') :
    k'.Inv := by
  have settled := inv.own.settled
  rw [source] at settled
  have own := settled.making child caller rfl
  have linkable := inv.linkable source
  obtain ⟨role, plays, callerRole, cloned⟩ := settled.role
  have thread : flags &&& cloneThread ≠ 0 → k.current ≠ k.initproc := by
    intro threads isInit
    have flagsEq := (settled.of_init inv.others.table isInit).2 rfl
    rw [flagsEq] at threads
    exact threads (by decide)
  have table := inv.others.table.forkLink linkable thread linked
  obtain ⟨links, _⟩ := forkLink_links inv.others.table linkable linked
  have notCurrent : child ≠ k.current := by
    rintro rfl
    exact own.unknown inv.others.current
  have known : ∀ q, m.Known q ↔ q = child ∨ k.Known q := by
    intro q
    rw [Known, Known, links.procList, links.roles.idleproc, List.mem_cons, or_assoc]
  have timed : ∀ q, m.Timed q ↔ k.Timed q := by
    intro q
    rw [Timed, Timed, links.timerList]
  have spares : ∀ q, q ≠ child → k.Spares m q := fun q other =>
    ⟨links.state q, links.waitState q, by rw [links.kstack], links.mm q other, timed q,
      by rw [links.kswapdDone]⟩
  apply Inv.of_movedTo ?_ ?_ moved
  · constructor
    · exact inv.others.queue.of_unlinked (forkLink_unlinked linked)
    · exact table
    · rw [known, links.current]
      exact .inr inv.others.current
    · intro p isTimed
      rw [known]
      exact .inr (inv.others.timed p ((timed p).mp isTimed))
    · rw [links.timerList]
      exact inv.others.timers
    · intro p queued
      rw [known]
      exact .inr (inv.others.queued p (links.kswapdDone ▸ queued))
    · rw [links.kswapdDone]
      exact inv.others.done
    · intro p isSwapd
      rw [links.procList]
      exact List.mem_cons_of_mem _ (inv.others.swapd p (links.roles.kswapd ▸ isSwapd))
    · intro p allocated unknown
      rw [known, not_or] at unknown
      rw [links.state]
      exact inv.others.stray p (links.allocated ▸ allocated) unknown.2
    · intro p knownP other
      rw [links.kstack]
      rw [links.current] at other
      by_cases isChild : p = child
      · subst p
        obtain ⟨fn, starts⟩ := own.starts
        rw [starts]
        constructor
        · exact ⟨.inl ((links.state child).trans own.uninit),
            (links.waitState child).trans own.awake,
            fun isTimed => own.untimed ((timed child).mp isTimed),
            fun queued => own.unqueued (links.kswapdDone ▸ queued)⟩
        · have notFixed : child ≠ m.idleproc ∧ child ≠ m.initproc := by
            rw [links.roles.idleproc, links.roles.initproc]
            exact ⟨fun idle => own.unknown (.inr idle),
              fun init => own.unknown (.inl (init ▸ inv.others.table.init))⟩
          have ofRole := own.role
          rw [starts] at ofRole
          rcases ofRole with swapd | user
          · exact ⟨.kswapd, notFixed, swapd⟩
          · exact ⟨.user, notFixed, user⟩
        · intro isSwapd
          have listed := inv.others.swapd child (links.roles.kswapd ▸ isSwapd)
          exact absurd (.inl listed) own.unknown
        · rintro _ _ ⟨⟩
        · rintro ⟨⟩
      · have old := ((known p).mp knownP).resolve_left isChild
        apply (inv.others.settled p old other).congr links.roles (spares p isChild)
        intro child' caller' unborn
        have notChild : child' ≠ child := by
          rintro rfl
          exact other (Option.some.inj (unborn.parent.symm.trans own.parent))
        have notOwn : child' ≠ k.current := by
          rintro rfl
          exact unborn.unknown inv.others.current
        apply unborn.congr (spares child' notChild) (by rw [links.kstack])
        · rw [known, not_or]
          exact ⟨notChild, unborn.unknown⟩
        · rw [links.allocated]
          exact unborn.allocated
        · exact links.parent child'
        · exact links.cptr child' notOwn
    · intro p knownP other
      rw [links.kstack]
      rw [links.current] at other
      by_cases isChild : p = child
      · subst p
        obtain ⟨fn, starts⟩ := own.starts
        rw [starts]
        rfl
      · exact inv.others.parked p (((known p).mp knownP).resolve_left isChild) other
  · obtain ⟨runnable, wait, notTimed, notQueued⟩ := inv.own.running (by rw [source]; rfl)
    constructor
    · rw [links.current]
      constructor
      · exact ⟨(links.state _).trans runnable, (links.waitState _).trans wait,
          fun isTimed => notTimed (by rw [source]; rintro ⟨⟩) ((timed _).mp isTimed),
          fun queued => notQueued (links.kswapdDone ▸ queued)⟩
      · exact ⟨role, links.roles.plays plays, callerRole⟩
      · exact fun isSwapd => (settled.swapd (links.roles.kswapd ▸ isSwapd)).1
      · rintro _ _ ⟨⟩
      · rintro ⟨⟩
    · rw [links.current]
      exact .inl ((links.state _).trans runnable)
    · intro child' caller' task
      cases task
      rw [links.current, links.procList, links.kstack]
      exact ⟨notCurrent, List.mem_cons_self, (links.state child).trans own.uninit, own.swapd⟩

/-- Waking a new process touches only its state and the run queue. -/
theorem wakeChild_spares (uninit : (k.procs child).state = .uninit)
    (woken : k.wakeupProc child = .ok m) : m.relations = k.relations ∧ k.SameRoles m ∧
      m.current = k.current ∧ m.timerList = k.timerList ∧ m.kswapdDone = k.kswapdDone ∧
      (∀ q, (m.procs q).kstack = (k.procs q).kstack) ∧
      (∀ q, q ≠ child → (m.procs q).state = (k.procs q).state ∧
        (m.procs q).waitState = (k.procs q).waitState) ∧
      (m.procs child).state = .runnable ∧ (m.procs child).waitState = 0 := by
  have frame := wakeupProc_unwoken woken
  obtain ⟨_, ⟨awake, _⟩ | ⟨_, wake⟩⟩ := wakeupProc_unsched woken
  · rw [uninit] at awake
    contradiction
  have state : ∀ q, (m.procs q).state = ((k.awaken child).procs q).state :=
    fun q => (congrArg (fun m => (m.procs q).state) wake :)
  have wait : ∀ q, (m.procs q).waitState = ((k.awaken child).procs q).waitState :=
    fun q => (congrArg (fun m => (m.procs q).waitState) wake :)
  refine ⟨relations_of_unwoken frame, ⟨(congrArg Kernel.idleproc frame :),
    (congrArg Kernel.initproc frame :), (congrArg Kernel.kswapd frame :)⟩,
    (congrArg Kernel.current frame :), (congrArg Kernel.timerList frame :),
    (congrArg Kernel.kswapdDone frame :),
    fun q => (congrArg (fun m => (m.procs q).kstack) frame :), fun q other => ?_, ?_, ?_⟩
  · rw [state, wait, awaken, modify_procs_of_ne _ _ _ other]
    exact ⟨rfl, rfl⟩
  · rw [state, awaken, modify_procs_self]
  · rw [wait, awaken, modify_procs_self]

theorem Inv.forkWake (inv : k.Inv) (source : k.pc = .forkWake child caller)
    (woken : k.wakeupProc child = .ok m)
    (moved : k' = m.returnTo caller (m.procs child).pid) : k'.Inv := by
  have ownOld := inv.own
  rw [source] at ownOld
  obtain ⟨other, listed, uninit, swapd⟩ := ownOld.linked child caller rfl
  have known : k.Known child := .inl listed
  obtain ⟨relations, roles, current, timers, done, stack, rest, awake, wait⟩ :=
    wakeChild_spares uninit woken
  have same : ∀ q, (m.procs q).relations = (k.procs q).relations :=
    fun q => (congrArg (fun m => m.procs q) relations :)
  have list : m.procList = k.procList := (congrArg Kernel.procList relations :)
  have allocated : m.allocated = k.allocated := (congrArg Kernel.allocated relations :)
  have knownIff : ∀ q, m.Known q ↔ k.Known q := by
    intro q
    rw [Known, Known, list, roles.idleproc]
  have timed : ∀ q, m.Timed q ↔ k.Timed q := by
    intro q
    rw [Timed, Timed, timers]
  have spares : ∀ q, q ≠ child → k.Spares m q := fun q notChild =>
    ⟨(rest q notChild).1, (rest q notChild).2, by rw [stack],
      (congrArg ProcStruct.mm (same q) :), timed q, by rw [done]⟩
  have unborn : ∀ p child' caller, k.Unborn p child' caller → m.Unborn p child' caller := by
    intro p child' caller unborn
    have notChild : child' ≠ child := by
      rintro rfl
      exact unborn.unknown known
    apply unborn.congr (spares child' notChild) (by rw [stack])
    · rw [knownIff]
      exact unborn.unknown
    · rw [allocated]
      exact unborn.allocated
    · exact (congrArg ProcStruct.parent (same child') :)
    · exact (congrArg ProcStruct.cptr (same child') :)
  have others : m.Others := by
    constructor
    · exact inv.others.queue.wakeupProc (inv.others.table.allocated child known)
        (inv.others.table.listed child listed) woken
    · exact inv.others.table.of_relations relations
    · rw [knownIff, current]
      exact inv.others.current
    · intro p isTimed
      rw [knownIff]
      exact inv.others.timed p ((timed p).mp isTimed)
    · rw [timers]
      exact inv.others.timers
    · intro p queued
      rw [knownIff]
      exact inv.others.queued p (done ▸ queued)
    · rw [done]
      exact inv.others.done
    · intro p isSwapd
      rw [list]
      exact inv.others.swapd p (roles.kswapd ▸ isSwapd)
    · intro p isAllocated unknown
      rw [knownIff] at unknown
      have notChild : p ≠ child := by
        rintro rfl
        exact unknown known
      rw [(rest p notChild).1]
      exact inv.others.stray p (allocated ▸ isAllocated) unknown
    · intro p knownP notCurrent
      rw [current] at notCurrent
      rw [stack]
      have settled := inv.others.settled p ((knownIff p).mp knownP) notCurrent
      by_cases isChild : p = child
      · subst p
        have fits := settled.fits
        have place : (k.procs child).kstack.pc.place = .starting := by
          cases place : (k.procs child).kstack.pc.place <;> rw [place] at fits <;>
            simp [Place.Fits, uninit] at fits
        rw [place] at fits
        constructor
        · rw [place]
          exact ⟨.inr awake, wait, fun isTimed => fits.2.2.1 ((timed child).mp isTimed),
            fun queued => fits.2.2.2 (done ▸ queued)⟩
        · obtain ⟨role, plays, of⟩ := settled.role
          exact ⟨role, roles.plays plays, of⟩
        · exact fun isSwapd => settled.swapd (roles.kswapd ▸ isSwapd)
        · exact fun child' caller task => unborn _ child' caller (settled.making child' caller task)
        · exact fun loading => (congrArg ProcStruct.mm (same child) :).trans
            (settled.loading loading)
      · exact settled.congr roles (spares p isChild) (unborn p)
    · intro p knownP notCurrent
      rw [current] at notCurrent
      rw [stack]
      exact inv.others.parked p ((knownIff p).mp knownP) notCurrent
  have own : m.Own caller.pc := by
    have awakeOwn : k.Own caller.pc := by
      apply inv.own.awake (by rw [source]; rfl) (by rw [source]; rintro ⟨⟩) caller.place_pc ?_
        (.inr caller.task_pc)
      rw [source]
      rintro role rfl
      exact caller.pc_of
    have none := caller.task_pc
    have notChild := Ne.symm other
    constructor
    · rw [current]
      exact awakeOwn.settled.congr roles (spares k.current notChild) (unborn k.current)
    · rw [current, (rest k.current notChild).1]
      exact awakeOwn.active
    · rw [none]
      rintro _ _ ⟨⟩
  subst moved
  constructor
  · exact others.moved
  · change (m.moved caller.pc (m.procs child).pid (m.procs m.current).exitCode
      (m.procs m.current).needResched).Own (m.moved caller.pc (m.procs child).pid
        (m.procs m.current).exitCode (m.procs m.current).needResched).pc
    rw [moved_pc]
    exact own.moved others.current
  · intro isInit
    have here : (m.returnTo caller (m.procs child).pid).pc = caller.pc := by
      simp [Kernel.pc, Kernel.returnTo]
    have callerEq : caller = .initKswapd := by
      rw [here] at isInit
      cases caller <;> first | rfl | contradiction
    right
    have notOwn : child ≠ m.current := by
      rw [current]
      exact other
    have untouched : (m.returnTo caller (m.procs child).pid).procs child = m.procs child :=
      modify_procs_of_ne _ _ _ notOwn
    refine ⟨child, ?_, ?_, ?_⟩
    · change child ∈ m.procList
      rw [list]
      exact listed
    · rw [untouched]
      simp [Kernel.returnTo]
    · rw [untouched, stack]
      exact swapd callerEq

/-! ## do_execve -/

theorem dropMm_procs_of_ne (k : Kernel) (other : q ≠ p) : (k.dropMm p).procs q = k.procs q := by
  unfold dropMm
  split
  · rfl
  · simp only
    rw [modify_procs_of_ne _ _ _ other]
    split <;> rfl

theorem dropMm_changes (k : Kernel) : k.ChangesCurrent (k.dropMm k.current) := by
  have frame := k.dropMm_eq k.current
  have timers : (k.dropMm k.current).timerList = k.timerList := (congrArg Kernel.timerList frame :)
  have done : (k.dropMm k.current).kswapdDone = k.kswapdDone :=
    (congrArg Kernel.kswapdDone frame :)
  have rings : (k.dropMm k.current).threadGroups = k.threadGroups :=
    (congrArg Kernel.threadGroups frame :)
  refine ⟨fun q other => k.dropMm_procs_of_ne other, ?_, fun q _ => ?_, fun q _ => ?_⟩
  · rw [rings, timers, done]
    exact frame
  · rw [Timed, Timed, timers]
  · rw [done]

theorem Inv.execDrop (inv : k.Inv) (source : k.pc = .work (.execName caller))
    (moved : (k.dropMm k.current).MovedTo (.work (.execLoad caller)) k') : k'.Inv := by
  have listed : k.current ∈ k.procList := by
    apply inv.listed
    rw [source]
    exact Work.not_of_idle (.execName caller)
  have changes := k.dropMm_changes
  have unlinked := k.dropMm_unlinked k.current
  have timers : (k.dropMm k.current).timerList = k.timerList :=
    (congrArg Kernel.timerList unlinked :)
  have done : (k.dropMm k.current).kswapdDone = k.kswapdDone :=
    (congrArg Kernel.kswapdDone unlinked :)
  have state : ((k.dropMm k.current).procs k.current).state = (k.procs k.current).state :=
    (congrArg (fun m => (m.procs k.current).state) unlinked :)
  have wait : ((k.dropMm k.current).procs k.current).waitState = (k.procs k.current).waitState :=
    (congrArg (fun m => (m.procs k.current).waitState) unlinked :)
  obtain ⟨runnable, awake, notTimed, notQueued⟩ := inv.own.running (by rw [source]; rfl)
  apply Inv.of_movedTo ?_ ?_ moved
  · apply inv.others.modify (inv.others.queue.of_unlinked unlinked)
      (inv.others.table.dropMm listed) changes
    · rw [timers]
      exact inv.others.timers
    · rw [done]
      exact inv.others.done
  · apply inv.own.modify inv.others.current changes ?_ ?_ ?_ ?_ (.inl (state.trans runnable)) ?_
    · refine ⟨state.trans runnable, wait.trans awake, ?_, ?_⟩
      · rw [Timed, timers]
        exact notTimed (by rw [source]; rintro ⟨⟩)
      · rw [done]
        exact notQueued
    · rw [source]
      exact fun _ => id
    · rintro _ _ ⟨⟩
    · intro _
      rw [k.dropMm_mm, if_pos rfl]
    · rintro _ _ ⟨⟩

/-- The deadline fields after `do_execve`. -/
def execDeadline (s : ProcStruct) : ProcStruct :=
  { s with isRT := true, computeTime := 1, periodTime := 10, pt := 10, ct := 0 }

theorem execFinish_eq_ok {mm : MmPtr} (loaded : k.execFinish mm = .ok k') :
    k.mmAlive mm = false ∧
      k' = ((k.withMm k.current mm).deThread k.current).modify k.current execDeadline := by
  unfold execFinish at loaded
  split at loaded
  · contradiction
  · rename_i fresh
    cases loaded
    exact ⟨by simpa using fresh, rfl⟩

theorem Inv.execFinish (inv : k.Inv) {mm : MmPtr} (source : k.pc = .work (.execLoad caller))
    (loaded : k.execFinish mm = .ok m) (moved : m.MovedTo caller.pc k') : k'.Inv := by
  have listed : k.current ∈ k.procList := by
    apply inv.listed
    rw [source]
    exact Work.not_of_idle (.execLoad caller)
  have settled := inv.own.settled
  rw [source] at settled
  obtain ⟨runnable, awake, notTimed, notQueued⟩ := inv.own.running (by rw [source]; rfl)
  have table := inv.others.table.execFinish listed (by rw [runnable]; decide)
    (settled.loading rfl) loaded
  obtain ⟨_, rfl⟩ := execFinish_eq_ok loaded
  have procs : ∀ q, q ≠ k.current →
      (((k.withMm k.current mm).deThread k.current).modify k.current execDeadline).procs q =
        k.procs q := by
    intro q other
    rw [modify_procs_of_ne _ _ _ other]
    exact modify_procs_of_ne k _ (fun s => { s with mm := some mm }) other
  have field : ∀ {α : Type} (field : ProcStruct → α),
      (∀ s : ProcStruct, field (execDeadline s) = field s) →
      (∀ s : ProcStruct, field { s with mm := some mm } = field s) →
      field ((((k.withMm k.current mm).deThread k.current).modify k.current
        execDeadline).procs k.current) = field (k.procs k.current) := by
    intro α field same same'
    refine field_modify field ?_ (same _)
    exact k.modify_field k.current (fun s => { s with mm := some mm }) field (same' _) k.current
  have changes : k.ChangesCurrent
      (((k.withMm k.current mm).deThread k.current).modify k.current execDeadline) :=
    ⟨procs, rfl, fun _ _ => Iff.rfl, fun _ _ => Iff.rfl⟩
  apply Inv.of_movedTo ?_ ?_ moved
  · apply inv.others.modify ?_ table changes inv.others.timers inv.others.done
    have queue : RunQueue ((k.withMm k.current mm).deThread k.current) :=
      (inv.others.queue.modify_current fun s => { s with mm := some mm }).congr rfl rfl
        (fun _ => Iff.rfl) (fun _ _ => rfl) fun _ _ => rfl
    exact queue.modify_current execDeadline
  · have awakeState := field ProcStruct.state (fun _ => rfl) fun _ => rfl
    apply inv.own.modify inv.others.current changes ?_ ?_ ?_ ?_
      (.inl (awakeState.trans runnable)) ?_
    · rw [caller.place_pc]
      exact ⟨awakeState.trans runnable,
        (field ProcStruct.waitState (fun _ => rfl) fun _ => rfl).trans awake,
        notTimed (by rw [source]; nofun), notQueued⟩
    · rw [source]
      rintro role ⟨rfl, _⟩
      exact caller.pc_of
    · rw [caller.task_pc]
      nofun
    · rw [caller.task_pc]
      nofun
    · rw [caller.task_pc]
      nofun

/-! ## do_wait -/

theorem Settled.ended (settled : k.Settled p pc) (zombie : (k.procs p).state = .zombie) :
    pc.place = .ended ∧ ¬k.Timed p ∧ p ∉ k.kswapdDone := by
  have fits := settled.fits
  cases place : pc.place with
  | ended =>
      rw [place] at fits
      exact ⟨rfl, fits.2.2⟩
  | _ =>
      rw [place] at fits
      simp [Place.Fits, zombie] at fits

/-- The swap daemon has not exited. -/
theorem Inv.swapd_alive (inv : k.Inv) (isSwapd : k.kswapd = some p) :
    (k.procs p).state ≠ .zombie := by
  intro zombie
  have settled := inv.settled (.inl (inv.others.swapd p isSwapd))
  exact Pc.place_of_kswapd (settled.swapd isSwapd) (settled.ended zombie).1

theorem Inv.reap (inv : k.Inv) {pid : Int} {zombie : ProcPtr}
    (target : pc = match caller with | .trap => .work .memory | _ => caller.pc)
    (source : k.pc = .wait pid caller) (found : k.waitScan pid = .found zombie)
    (reaped : k.reap zombie = .ok m) (moved : m.MovedTo pc k') : k'.Inv := by
  obtain ⟨listed, isZombie, _, _⟩ := waitScan_found inv.others.table inv.others.current found
  have table := inv.others.table.reap listed isZombie reaped
  obtain ⟨_, _, ⟨frame, unrelated, parents⟩, result⟩ := reap_spec reaped
  obtain ⟨runnable, _, _, _⟩ := inv.own.running (by rw [source]; rfl)
  have notCurrent : k.current ≠ zombie := by
    rintro own
    rw [own, isZombie] at runnable
    contradiction
  have zombieSettled := inv.settled (.inl listed)
  have list : m.procList = k.procList.erase zombie := (congrArg Kernel.procList frame :)
  have allocated : m.allocated = Function.update k.allocated zombie false :=
    (congrArg Kernel.allocated frame :)
  have roles : k.SameRoles m := ⟨(congrArg Kernel.idleproc frame :),
    (congrArg Kernel.initproc frame :), (congrArg Kernel.kswapd frame :)⟩
  have current : m.current = k.current := (congrArg Kernel.current frame :)
  have timers : m.timerList = k.timerList := (congrArg Kernel.timerList frame :)
  have done : m.kswapdDone = k.kswapdDone := (congrArg Kernel.kswapdDone frame :)
  have state : ∀ q, (m.procs q).state = (k.procs q).state :=
    fun q => (congrArg ProcStruct.state (unrelated q) :)
  have stack : ∀ q, (m.procs q).kstack = (k.procs q).kstack :=
    fun q => (congrArg ProcStruct.kstack (unrelated q) :)
  have timed : ∀ q, m.Timed q ↔ k.Timed q := by
    intro q
    rw [Timed, Timed, timers]
  have spares : ∀ q, k.Spares m q := fun q =>
    ⟨state q, (congrArg ProcStruct.waitState (unrelated q) :), by rw [stack],
      (congrArg ProcStruct.mm (unrelated q) :), timed q, by rw [done]⟩
  have known : ∀ q, m.Known q ↔ k.Known q ∧ q ≠ zombie := by
    intro q
    rw [Known, Known, list, roles.idleproc, inv.others.table.numbered.nodup.mem_erase_iff]
    have idleOther := inv.others.table.listed zombie listed
    constructor
    · rintro (⟨other, mem⟩ | rfl)
      · exact ⟨.inl mem, other⟩
      · exact ⟨.inr rfl, idleOther.symm⟩
    · rintro ⟨mem | idle, other⟩
      · exact .inl ⟨other, mem⟩
      · exact .inr idle
  have unborn : ∀ p child caller, k.Unborn p child caller → m.Unborn p child caller := by
    intro p child caller unborn
    have other : child ≠ zombie := by
      rintro rfl
      exact unborn.unknown (.inl listed)
    apply unborn.congr (spares child) (by rw [stack])
    · rw [known]
      exact fun both => unborn.unknown both.1
    · rw [allocated, Function.update_of_ne other]
      exact unborn.allocated
    · exact parents child
    · obtain ⟨parent, parentEq, parentKnown, _⟩ := inv.others.table.parent zombie listed
      obtain ⟨children, family⟩ := inv.others.table.family
      have noLoop : (k.procs zombie).optr ≠ some zombie :=
        (family.linked parent parentKnown (by rintro ⟨⟩)).next_ne (family.nodup parent)
          ((family.mem_iff parent zombie).mpr ⟨listed, parentEq⟩)
      have notParent : child ≠ parent := by
        rintro rfl
        exact unborn.unknown parentKnown
      have cptr : (((k.unhashProc zombie).removeLinks zombie).procs child).cptr =
          (k.procs child).cptr :=
        (removeLinks_cptr (k := k.unhashProc zombie) noLoop parentEq child).trans
          (if_neg fun both => notParent both.2)
      rw [result]
      exact cptr
  have ownAwake : k.Own pc := by
    have settled := inv.own.settled
    subst target
    cases caller with
    | trap =>
        apply inv.own.awake (by rw [source]; rfl) (by rw [source]; rintro ⟨⟩) rfl ?_ (.inr rfl)
        rw [source]
        rintro role ⟨rfl, _⟩
        rfl
    | kernelExecve =>
        apply inv.own.awake (by rw [source]; rfl) (by rw [source]; rintro ⟨⟩) rfl ?_ (.inr rfl)
        rw [source]
        rintro role ⟨rfl, _⟩
        rfl
    | initKswapd =>
        apply inv.own.awake (by rw [source]; rfl) (by rw [source]; rintro ⟨⟩) rfl ?_ (.inr rfl)
        rw [source]
        rintro role ⟨rfl, _⟩
        rfl
    | thread fn =>
        apply inv.own.awake (by rw [source]; rfl) (by rw [source]; rintro ⟨⟩) rfl ?_ (.inr rfl)
        rw [source]
        rintro role ⟨rfl, _⟩
        rfl
  have unlinked : ∀ child caller, pc.task ≠ .linked child caller := by
    subst target
    cases caller <;> rintro _ _ ⟨⟩
  apply Inv.of_movedTo ?_ ?_ moved
  · constructor
    · have heap : m.heap = k.heap := (congrArg Kernel.heap frame :)
      have procNum : m.procNum = k.procNum := (congrArg Kernel.procNum frame :)
      apply inv.others.queue.congr heap procNum
      · intro q
        by_cases isOwn : q = zombie
        · subst q
          have notReady : ∀ n : Kernel, (n.procs zombie).state = .zombie → ¬n.Ready zombie := by
            intro n zombieState ready
            simp [Ready, Contends, zombieState] at ready
          exact ⟨fun ready => absurd ready (notReady m ((state zombie).trans isZombie)),
            fun ready => absurd ready (notReady k isZombie)⟩
        · rw [Ready, Ready, Contends, Contends, allocated, Function.update_of_ne isOwn, state,
            current, roles.idleproc]
      · exact fun q _ => (congrArg ProcStruct.pt (unrelated q) :)
      · exact fun q _ => (congrArg ProcStruct.rq (unrelated q) :)
    · exact table
    · rw [known, current]
      exact ⟨inv.others.current, notCurrent⟩
    · intro p isTimed
      rw [known]
      have old := (timed p).mp isTimed
      refine ⟨inv.others.timed p old, ?_⟩
      rintro rfl
      exact (zombieSettled.ended isZombie).2.1 old
    · rw [timers]
      exact inv.others.timers
    · intro p queued
      rw [known]
      rw [done] at queued
      refine ⟨inv.others.queued p queued, ?_⟩
      rintro rfl
      exact (zombieSettled.ended isZombie).2.2 queued
    · rw [done]
      exact inv.others.done
    · intro p isSwapd
      rw [roles.kswapd] at isSwapd
      rw [list, inv.others.table.numbered.nodup.mem_erase_iff]
      refine ⟨?_, inv.others.swapd p isSwapd⟩
      rintro rfl
      exact inv.swapd_alive isSwapd isZombie
    · intro p isAllocated unknown
      have other : p ≠ zombie := by
        rintro rfl
        rw [allocated, Function.update_self] at isAllocated
        contradiction
      rw [allocated, Function.update_of_ne other] at isAllocated
      rw [state]
      exact inv.others.stray p isAllocated fun old => unknown ((known p).mpr ⟨old, other⟩)
    · intro p knownP other
      rw [current] at other
      rw [stack]
      exact (inv.others.settled p ((known p).mp knownP).1 other).congr roles (spares p) (unborn p)
    · intro p knownP other
      rw [current] at other
      rw [stack]
      exact inv.others.parked p ((known p).mp knownP).1 other
  · constructor
    · rw [current]
      exact ownAwake.settled.congr roles (spares k.current) (unborn k.current)
    · rw [current, state]
      exact ownAwake.active
    · exact fun child caller task => absurd task (unlinked child caller)

/-! ## __do_exit -/

/-- Whoever runs `__do_exit` is a listed process, which is awake, so it exits as specified. -/
theorem Inv.exits (inv : k.Inv) (source : k.pc = .exit) (exited : k.exitProc = .ok m) :
    RunQueue m ∧ k.current ≠ k.initproc ∧ ∃ parent heir, k.Exits parent heir m := by
  have listed : k.current ∈ k.procList := by
    apply inv.listed
    rw [source]
    rintro (init | user) <;> contradiction
  obtain ⟨_, awake, _⟩ := inv.own.running (by rw [source]; rfl)
  exact exitProc_spec inv.others.table inv.others.queue listed awake
    (fun q known _ => inv.dormant known) exited

theorem Inv.exit (inv : k.Inv) (source : k.pc = .exit) (exited : k.exitProc = .ok m)
    (moved : m.MovedTo .exitSched k') : k'.Inv := by
  have listed : k.current ∈ k.procList := by
    apply inv.listed
    rw [source]
    rintro (init | user) <;> contradiction
  obtain ⟨runnable, awake, notTimed, notQueued⟩ := inv.own.running (by rw [source]; rfl)
  have notTimed : ¬k.Timed k.current := notTimed (by rw [source]; rintro ⟨⟩)
  obtain ⟨queue, notInit, parent, heir, exits⟩ := inv.exits source exited
  have table := inv.others.table.exitProc listed notInit exits
  have frame := k.ended_withProcs k.procs
  have endedTimers : k.ended.timerList = k.timerList := (congrArg Kernel.timerList frame :)
  have endedDone : k.ended.kswapdDone = k.kswapdDone := (congrArg Kernel.kswapdDone frame :)
  have roles : k.SameRoles m := ⟨exits.lists.idleproc, exits.lists.initproc,
    exits.stirs.kswapd.trans (congrArg Kernel.kswapd frame :)⟩
  have current : m.current = k.current := exits.stirs.current.trans (congrArg Kernel.current frame :)
  have done : m.kswapdDone = k.kswapdDone := exits.stirs.kswapdDone.trans endedDone
  have allocated : m.allocated = k.allocated :=
    exits.stirs.allocated.trans (congrArg Kernel.allocated frame :)
  have stack : ∀ q, (m.procs q).kstack = (k.procs q).kstack := by
    intro q
    rw [exits.stirs.kstack]
    refine field_modify ProcStruct.kstack ?_ rfl
    exact (congrArg (fun m => (m.procs q).kstack) (k.dropMm_unlinked k.current) :)
  have known : ∀ q, m.Known q ↔ k.Known q := by
    intro q
    rw [Known, Known, exits.lists.procList, exits.lists.idleproc]
  have timed : ∀ q, m.Timed q → k.Timed q := by
    intro q isTimed
    have old := exits.stirs.timed q isTimed
    rwa [Timed, endedTimers] at old
  have states : ∀ q, q ≠ k.current →
      ((m.procs q).state = (k.procs q).state ∧ (m.procs q).waitState = (k.procs q).waitState) ∨
        ((k.procs q).state = .sleeping ∧ (k.procs q).waitState &&& wtInterrupted ≠ 0 ∧
          (m.procs q).state = .runnable ∧ (m.procs q).waitState = 0) := by
    intro q other
    rcases exits.stirs.state q with ⟨state, wait⟩ | ⟨dormant, state, wait⟩
    · rw [ended_state, if_neg other] at state
      rw [ended_waitState] at wait
      exact .inl ⟨state, wait⟩
    · have asleep := dormant.asleep
      rw [ended_state, if_neg other] at asleep
      have interruptible := dormant.interruptible
      rw [ended_waitState] at interruptible
      exact .inr ⟨asleep, interruptible, state, wait⟩
  have unborn : ∀ p child caller, k.Unborn p child caller → m.Unborn p child caller := by
    intro p child caller unborn
    have other : child ≠ k.current := by
      rintro rfl
      exact unborn.unknown inv.others.current
    have unlisted : child ∉ k.procList := fun mem => unborn.unknown (.inl mem)
    obtain ⟨heirKnown, _, _⟩ := exits.heir_known inv.others.table notInit
    have notHeir : child ≠ heir := by
      rintro rfl
      exact unborn.unknown heirKnown
    have same : (m.procs child).state = (k.procs child).state ∧
        (m.procs child).waitState = (k.procs child).waitState := by
      rcases states child other with same | ⟨asleep, _⟩
      · exact same
      · rw [unborn.uninit] at asleep
        contradiction
    constructor
    · rw [known]
      exact unborn.unknown
    · rw [allocated]
      exact unborn.allocated
    · exact same.1.trans unborn.uninit
    · exact same.2.trans unborn.awake
    · exact fun isTimed => unborn.untimed (timed child isTimed)
    · rw [done]
      exact unborn.unqueued
    · rw [exits.adopted, if_neg fun both => unlisted both.1]
      exact unborn.parent
    · rw [exits.cptr child other notHeir]
      exact unborn.childless
    · rw [exits.mm, if_neg other]
      exact unborn.spaceless
    · rw [stack]
      exact unborn.starts
    · rw [stack]
      exact unborn.role
    · rw [stack]
      exact unborn.swapd
  apply Inv.of_movedTo ?_ ?_ moved
  · constructor
    · exact queue
    · exact table
    · rw [known, current]
      exact inv.others.current
    · intro p isTimed
      rw [known]
      exact inv.others.timed p (timed p isTimed)
    · have sublist := exits.stirs.timers
      rw [endedTimers] at sublist
      exact sublist.nodup inv.others.timers
    · intro p queued
      rw [known]
      exact inv.others.queued p (done ▸ queued)
    · rw [done]
      exact inv.others.done
    · intro p isSwapd
      rw [exits.lists.procList]
      exact inv.others.swapd p (roles.kswapd ▸ isSwapd)
    · intro p isAllocated unknown
      rw [known] at unknown
      have other : p ≠ k.current := by
        rintro rfl
        exact unknown inv.others.current
      have uninit := inv.others.stray p (allocated ▸ isAllocated) unknown
      rcases states p other with same | ⟨asleep, _⟩
      · exact same.1.trans uninit
      · rw [uninit] at asleep
        contradiction
    · intro p knownP other
      rw [current] at other
      rw [stack]
      have settled := inv.others.settled p ((known p).mp knownP) other
      constructor
      · apply settled.fits.stir (states p other)
        · rw [stack]
        · exact timed p
        · intro isTimed
          exact exits.stirs.expired p (by rwa [Timed, endedTimers])
        · rw [done]
      · obtain ⟨role, plays, of⟩ := settled.role
        exact ⟨role, roles.plays plays, of⟩
      · exact fun isSwapd => settled.swapd (roles.kswapd ▸ isSwapd)
      · exact fun child caller task => unborn p child caller (settled.making child caller task)
      · intro loading
        rw [exits.mm, if_neg other]
        exact settled.loading loading
    · intro p knownP other
      rw [current] at other
      rw [stack]
      exact inv.others.parked p ((known p).mp knownP) other
  · have settled := inv.own.settled
    rw [source] at settled
    have isZombie : (m.procs k.current).state = .zombie := (exits.zombie_iff _).mpr (.inl rfl)
    have awakeStill : (m.procs k.current).waitState = 0 := by
      rcases exits.stirs.state k.current with ⟨_, wait⟩ | ⟨dormant, _⟩
      · rw [wait, ended_waitState]
        exact awake
      · have asleep := dormant.asleep
        rw [ended_state, if_pos rfl] at asleep
        contradiction
    constructor
    · rw [current]
      constructor
      · refine ⟨isZombie, awakeStill, fun isTimed => notTimed (timed _ isTimed), ?_⟩
        rw [done]
        exact notQueued
      · obtain ⟨role, plays, of⟩ := settled.role
        rcases of with rfl | rfl
        · exact absurd plays notInit
        · exact ⟨.user, roles.plays plays, rfl⟩
      · intro isSwapd
        rcases settled.swapd (roles.kswapd ▸ isSwapd) with init | user <;> contradiction
      · rintro _ _ ⟨⟩
      · rintro ⟨⟩
    · exact .inr rfl
    · rintro _ _ ⟨⟩

end Kernel

end EdfKernel
