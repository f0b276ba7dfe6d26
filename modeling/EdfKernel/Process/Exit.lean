import EdfKernel.Process.Table

/-!
# The exit of a process

`__do_exit` wakes the processes that wait for the exiting one, takes it out of its
thread group, and moves its children one by one to another thread of the group or
to the init process.
-/

namespace EdfKernel

open Library

namespace Kernel

variable {k k' m : Kernel} {p parent child : ProcPtr}

/-- The loop of `__do_exit` has moved the processes `moved` from `p` to `parent`. -/
structure Adopts (k : Kernel) (p parent : ProcPtr) (moved : List ProcPtr) (k' : Kernel) :
    Prop where
  stirs : k.Stirs k'
  lists : k.SameLists k'
  rings : k'.threadGroups = k.threadGroups
  mmCount : k'.mmCount = k.mmCount
  mmAlive : k'.mmAlive = k.mmAlive
  others : ∀ q, (k'.procs q).unrelated.relations = (k.procs q).unrelated.relations
  adopted : ∀ q, (k'.procs q).parent = if q ∈ moved then some parent else (k.procs q).parent
  cptr : ∀ q, q ≠ p → q ≠ parent → (k'.procs q).cptr = (k.procs q).cptr
  told : ∀ z ∈ moved, (k.procs z).state = .zombie → (k'.procs parent).waitState ≠ wtChild

theorem SameLists.trans (first : k.SameLists m) (second : m.SameLists k') : k.SameLists k' where
  procList := second.procList.trans first.procList
  hashList := second.hashList.trans first.hashList
  nrProcess := second.nrProcess.trans first.nrProcess
  lastPid := second.lastPid.trans first.lastPid
  nextSafe := second.nextSafe.trans first.nextSafe
  idleproc := second.idleproc.trans first.idleproc
  initproc := second.initproc.trans first.initproc

theorem adoptLinks_stirs (k : Kernel) (p parent child : ProcPtr) :
    k.Stirs (k.adoptLinks p parent child) := by
  have frame := k.adoptLinks_withProcs p parent child k.procs
  have same := k.adoptLinks_unrelated p parent child
  have timers : (k.adoptLinks p parent child).timerList = k.timerList :=
    (congrArg Kernel.timerList frame :)
  constructor
  · exact (congrArg Kernel.allocated frame :)
  · exact (congrArg Kernel.idleproc frame :)
  · exact (congrArg Kernel.initproc frame :)
  · exact (congrArg Kernel.current frame :)
  · exact (congrArg Kernel.kswapd frame :)
  · exact (congrArg Kernel.kswapdDone frame :)
  · exact fun q => (congrArg ProcStruct.kstack (same q) :)
  · exact fun q => .inl ⟨(congrArg ProcStruct.state (same q) :),
      (congrArg ProcStruct.waitState (same q) :)⟩
  · rw [timers]
  · intro q timed
    rw [Timed, timers]
    exact .inl timed
  · intro q exiting
    have flags : ((k.adoptLinks p parent child).procs q).flags = (k.procs q).flags :=
      (congrArg ProcStruct.flags (same q) :)
    rw [Exiting, flags]
    exact exiting

namespace Adopts

theorem refl (k : Kernel) (p parent : ProcPtr) : k.Adopts p parent [] k where
  stirs := .refl k
  lists := {}
  rings := rfl
  mmCount := rfl
  mmAlive := rfl
  others _ := rfl
  adopted _ := by simp
  cptr _ _ _ := rfl
  told _ mem := by contradiction

theorem trans {rest : List ProcPtr} (first : k.Adopts p parent [child] m)
    (second : m.Adopts p parent rest k') : k.Adopts p parent (child :: rest) k' where
  stirs := first.stirs.trans second.stirs
  lists := first.lists.trans second.lists
  rings := second.rings.trans first.rings
  mmCount := second.mmCount.trans first.mmCount
  mmAlive := second.mmAlive.trans first.mmAlive
  others q := (second.others q).trans (first.others q)
  adopted q := by
    rw [second.adopted, first.adopted]
    by_cases inRest : q ∈ rest
    · simp [inRest]
    · simp [inRest]
  cptr q notP notParent := (second.cptr q notP notParent).trans (first.cptr q notP notParent)
  told z mem zombie := by
    rcases List.mem_cons.mp mem with rfl | inRest
    · exact second.stirs.told (first.told z List.mem_cons_self zombie)
    · exact second.told z inRest ((first.stirs.zombie_iff z).mpr zombie)

/-- One round of the loop: the links, and then possibly a wakeup. -/
theorem of_rouses (rouses : (k.adoptLinks p parent child).Rouses k')
    (told : (k.procs child).state = .zombie → (k'.procs parent).waitState ≠ wtChild) :
    k.Adopts p parent [child] k' := by
  have frame := k.adoptLinks_withProcs p parent child k.procs
  have relations := rouses.relations
  constructor
  · exact (k.adoptLinks_stirs p parent child).trans rouses.toStirs
  · have links : k.SameLists (k.adoptLinks p parent child) :=
      ⟨(congrArg Kernel.procList frame :), (congrArg Kernel.hashList frame :),
        (congrArg Kernel.nrProcess frame :), (congrArg Kernel.lastPid frame :),
        (congrArg Kernel.nextSafe frame :), (congrArg Kernel.idleproc frame :),
        (congrArg Kernel.initproc frame :)⟩
    exact links.trans (.of_relations relations)
  · exact (congrArg Kernel.threadGroups relations :).trans (congrArg Kernel.threadGroups frame :)
  · exact (congrArg Kernel.mmCount relations :).trans (congrArg Kernel.mmCount frame :)
  · exact (congrArg Kernel.mmAlive relations :).trans (congrArg Kernel.mmAlive frame :)
  · intro q
    have same : (k'.procs q).relations = ((k.adoptLinks p parent child).procs q).relations :=
      (congrArg (fun m => m.procs q) relations :)
    exact (congrArg ProcStruct.unrelated same :).trans
      (congrArg ProcStruct.relations (k.adoptLinks_unrelated p parent child q))
  · intro q
    have same : (k'.procs q).parent = ((k.adoptLinks p parent child).procs q).parent :=
      (congrArg (fun m => (m.procs q).parent) relations :)
    rw [same, adoptLinks_parent]
    simp
  · intro q notP notParent
    have same : (k'.procs q).cptr = ((k.adoptLinks p parent child).procs q).cptr :=
      (congrArg (fun m => (m.procs q).cptr) relations :)
    rw [same, adoptLinks_cptr, if_neg notParent, if_neg notP]
  · intro z mem zombie
    rw [List.mem_singleton] at mem
    subst z
    exact told zombie

end Adopts

theorem adoptFirst_spec (queue : RunQueue k)
    (dormant : (k.procs parent).waitState &&& wtInterrupted ≠ 0 → k.Dormant parent)
    (adopted : k.adoptFirst p parent child = .ok k') :
    (k.adoptLinks p parent child).Rouses k' ∧ RunQueue k' ∧
      ((k.procs child).state = .zombie → (k'.procs parent).waitState ≠ wtChild) := by
  have links := k.adoptLinks_stirs p parent child
  have queueLinks := queue.of_unlinked (k.adoptLinks_unlinked p parent child)
  simp only [adoptFirst] at adopted
  split at adopted
  · rename_i waits
    have asleep := links.dormant dormant (by rw [waits.2]; decide)
    exact ⟨wakeupProc_rouses asleep adopted,
      queueLinks.wakeupProc asleep.allocated asleep.notIdle adopted,
      fun _ => wakeupProc_told asleep adopted⟩
  · rename_i notBoth
    cases adopted
    exact ⟨.refl _, queueLinks, fun zombie waits =>
      notBoth ⟨(links.zombie_iff child).mpr zombie, waits⟩⟩

end Kernel

theorem Family.of_relations {k k' : Kernel} {children : ProcPtr → List ProcPtr}
    {leaving : Option ProcPtr} (family : Family k children leaving)
    (same : k'.relations = k.relations) : Family k' children leaving :=
  family.congr (congrArg Kernel.procList same :) (congrArg Kernel.idleproc same :)
    (fun q _ => (congrArg (fun m => (m.procs q).parent) same :))
    (fun q _ => (congrArg (fun m => (m.procs q).optr) same :))
    (fun q _ => (congrArg (fun m => (m.procs q).yptr) same :))
    fun q _ => (congrArg (fun m => (m.procs q).cptr) same :)

namespace Kernel

variable {k k' m : Kernel} {p parent child : ProcPtr}

/-- The loop moves all children. -/
theorem adoptChildren_spec {fuel : Nat} {children : ProcPtr → List ProcPtr} (queue : RunQueue k)
    (family : Family k children (some p)) (parentKnown : k.Known parent) (ne : parent ≠ p)
    (dormant : (k.procs parent).waitState &&& wtInterrupted ≠ 0 → k.Dormant parent)
    (adopted : adoptChildren fuel k p parent = .ok k') :
    k.Adopts p parent (children p) k' ∧ RunQueue k' ∧
      ∃ children', Family k' children' (some p) ∧ children' p = [] := by
  have done : ∀ {k : Kernel} {children : ProcPtr → List ProcPtr}, RunQueue k →
      Family k children (some p) → (k.procs p).cptr = none →
      k.Adopts p parent (children p) k ∧ RunQueue k ∧
        ∃ children', Family k children' (some p) ∧ children' p = [] := by
    intro k children queue family noChild
    obtain ⟨before, linked⟩ := family.loose p rfl
    have empty : children p = [] := by
      rw [noChild] at linked
      exact List.head?_eq_none_iff.mp linked.first_eq.symm
    exact ⟨empty ▸ .refl k p parent, queue, children, family, empty⟩
  induction fuel generalizing k children with
  | zero =>
      unfold adoptChildren at adopted
      split at adopted
      · rename_i noChild
        cases adopted
        exact done queue family noChild
      · contradiction
  | succ fuel ih =>
      unfold adoptChildren at adopted
      split at adopted
      · rename_i noChild
        cases adopted
        exact done queue family noChild
      · rename_i child first
        obtain ⟨m, round, after⟩ := bind_eq_ok_iff.mp adopted
        obtain ⟨before, linked⟩ := family.loose p rfl
        obtain ⟨rest, split⟩ : ∃ rest, children p = child :: rest := by
          rw [linked.first_eq] at first
          exact List.head?_eq_some_iff.mp first
        obtain ⟨rouses, queueRound, told⟩ := adoptFirst_spec queue dormant round
        have head := Adopts.of_rouses rouses told
        have familyRound := (family.adoptLinks split parentKnown ne).of_relations rouses.relations
        have known : m.Known parent := by
          rw [Known, head.lists.procList, head.lists.idleproc]
          exact parentKnown
        obtain ⟨tail, queueRest, familyRest⟩ :=
          ih queueRound familyRound known (head.stirs.dormant dormant) after
        rw [Function.update_of_ne ne.symm, Function.update_self] at tail
        rw [split]
        exact ⟨head.trans tail, queueRest, familyRest⟩

theorem adoptChildren_sound {fuel : Nat} (queue : RunQueue k)
    (dormant : (k.procs parent).waitState &&& wtInterrupted ≠ 0 → k.Dormant parent) :
    Sound (adoptChildren fuel k p parent) := by
  induction fuel generalizing k with
  | zero =>
      unfold adoptChildren
      split
      · exact .ok _
      · exact .spin _
  | succ fuel ih =>
      unfold adoptChildren
      split
      · exact .ok _
      · rename_i child _
        have links := k.adoptLinks_stirs p parent child
        refine .bind ?_ fun m round => ?_
        · simp only [adoptFirst]
          split
          · rename_i waits
            have asleep := links.dormant dormant (by rw [waits.2]; decide)
            apply wakeupProc_sound
            rw [asleep.asleep]
            decide
          · exact .ok _
        · obtain ⟨rouses, queueRound, _⟩ := adoptFirst_spec queue dormant round
          exact ih queueRound ((links.trans rouses.toStirs).dormant dormant)

/-! ## __do_exit -/

/-- `next_thread` of a process is another process of its ring, unless it is alone. -/
theorem nextThread_spec (disjoint : k.threadGroups.flatten.Nodup) (p : ProcPtr) :
    (k.nextThread p = p ∧ k.threadRing p = [p]) ∨
      (k.nextThread p ≠ p ∧ k.nextThread p ∈ k.threadRing p) := by
  have split := Rings.ring_eq_cons k.threadGroups p
  have nodup := Rings.ring_nodup disjoint p
  change k.threadRing p = p :: (k.threadRing p).tail at split
  change (k.threadRing p).Nodup at nodup
  unfold nextThread
  cases tail : (k.threadRing p).tail with
  | nil =>
      rw [tail] at split
      exact .inl ⟨rfl, split⟩
  | cons q rest =>
      rw [tail] at split
      rw [split] at nodup
      refine .inr ⟨?_, ?_⟩
      · intro own
        change q = p at own
        subst q
        exact (List.nodup_cons.mp nodup).1 List.mem_cons_self
      · rw [split]
        exact List.mem_cons_of_mem _ List.mem_cons_self

/-- The exiting process without its address space and as a zombie. -/
def ended (k : Kernel) : Kernel :=
  (k.dropMm k.current).modify k.current fun s => { s with state := .zombie }

/-- What `__do_exit` does before it calls `schedule`: `parent` is the parent of the
exiting process, and `heir` gets its children. -/
structure Exits (k : Kernel) (parent heir : ProcPtr) (k' : Kernel) : Prop where
  parentEq : (k.procs k.current).parent = some parent
  inherits : (heir = k.initproc ∧ k.threadRing k.current = [k.current]) ∨
    (heir ≠ k.current ∧ heir ∈ k.threadRing k.current)
  stirs : k.ended.Stirs k'
  lists : k.SameLists k'
  rings : k'.threadGroups = Rings.leave k.current k.threadGroups
  mmCount : k'.mmCount = (k.dropMm k.current).mmCount
  mmAlive : k'.mmAlive = (k.dropMm k.current).mmAlive
  others : ∀ q, (k'.procs q).unrelated.relations = (k.ended.procs q).unrelated.relations
  adopted : ∀ q, (k'.procs q).parent =
    if q ∈ k.procList ∧ (k.procs q).parent = some k.current then some heir
    else (k.procs q).parent
  cptr : ∀ q, q ≠ k.current → q ≠ heir → (k'.procs q).cptr = (k.procs q).cptr
  family : ∃ children, Family k' children none
  waited : ∀ q ∈ k.threadRing parent, (k'.procs q).waitState ≠ wtChild
  told : ∀ z ∈ k.procList, (k.procs z).parent = some k.current →
    (k'.procs z).state = .zombie → (k'.procs heir).waitState ≠ wtChild

theorem ended_withProcs (k : Kernel) (procs : ProcPtr → ProcStruct) :
    k.ended.withProcs procs = { k.withProcs procs with
      mmCount := (k.dropMm k.current).mmCount
      mmAlive := (k.dropMm k.current).mmAlive } := by
  rw [ended, modify_withProcs]
  exact congrArg (fun m => m.withProcs procs) (k.dropMm_eq k.current)

theorem ended_state (k : Kernel) (q : ProcPtr) :
    (k.ended.procs q).state = if q = k.current then .zombie else (k.procs q).state := by
  have state : ((k.dropMm k.current).procs q).state = (k.procs q).state :=
    (congrArg (fun m => (m.procs q).state) (k.dropMm_unlinked k.current) :)
  rw [ended, modify_procs]
  split
  · rfl
  · exact state

theorem ended_waitState (k : Kernel) (q : ProcPtr) :
    (k.ended.procs q).waitState = (k.procs q).waitState := by
  refine field_modify ProcStruct.waitState ?_ rfl
  exact (congrArg (fun m => (m.procs q).waitState) (k.dropMm_unlinked k.current) :)

theorem ended_runQueue (queue : RunQueue k) : RunQueue k.ended := by
  have current : (k.dropMm k.current).current = k.current :=
    (congrArg Kernel.current (k.dropMm_eq k.current) :)
  have dropped := (queue.of_unlinked (k.dropMm_unlinked k.current)).modify_current
    fun s => { s with state := .zombie }
  rw [current] at dropped
  exact dropped

theorem ended_dormant {q : ProcPtr} (awake : (k.procs k.current).waitState = 0)
    (dormant : q ≠ k.current → (k.procs q).waitState &&& wtInterrupted ≠ 0 → k.Dormant q)
    (interruptible : (k.ended.procs q).waitState &&& wtInterrupted ≠ 0) : k.ended.Dormant q := by
  have frame := k.ended_withProcs k.procs
  rw [ended_waitState] at interruptible
  have other : q ≠ k.current := by
    rintro rfl
    simp [awake] at interruptible
  have asleep := dormant other interruptible
  constructor
  · rw [show k.ended.allocated = k.allocated from (congrArg Kernel.allocated frame :)]
    exact asleep.allocated
  · rw [show k.ended.idleproc = k.idleproc from (congrArg Kernel.idleproc frame :)]
    exact asleep.notIdle
  · rw [ended_state, if_neg other]
    exact asleep.asleep
  · rw [ended_waitState]
    exact interruptible

/-- The wake-up of the parent of the exiting process. -/
def exitWake (k : Kernel) : Except Stop Kernel :=
  match (k.ended.procs k.current).parent with
  | some parent => wakeWaiting (k.ended.threadRing parent) k.ended
  | none => .ok k.ended

theorem exitProc_eq_ok (exited : k.exitProc = .ok k') :
    k.current ≠ k.idleproc ∧ k.current ≠ k.initproc ∧ ∃ m, k.exitWake = .ok m ∧
      adoptChildren (m.deThread m.current).procList.length (m.deThread m.current) m.current
        (if m.nextThread m.current = m.current then m.initproc else m.nextThread m.current) =
          .ok k' := by
  have current : (k.dropMm k.current).current = k.current :=
    (congrArg Kernel.current (k.dropMm_eq k.current) :)
  unfold exitProc at exited
  split at exited
  · contradiction
  · rename_i notIdle
    split at exited
    · contradiction
    · rename_i notInit
      obtain ⟨m, woken, adopted⟩ := bind_eq_ok_iff.mp exited
      simp only [current, modify_current] at woken
      exact ⟨notIdle, notInit, m, woken, adopted⟩

theorem ended_family {children : ProcPtr → List ProcPtr} (family : Family k children none) :
    Family k.ended children none := by
  have frame := k.ended_withProcs k.procs
  have kept : ∀ (field : ProcStruct → Option ProcPtr) (q : ProcPtr),
      (∀ s : ProcStruct, field { s with state := .zombie } = field s) →
      field ((k.dropMm k.current).procs q) = field (k.procs q) →
      field (k.ended.procs q) = field (k.procs q) :=
    fun field q same old => ((k.dropMm k.current).modify_field _ _ field (same _) q).trans old
  have kinship := k.dropMm_kinship k.current
  have list : k.ended.procList = k.procList := (congrArg Kernel.procList frame :)
  have idleproc : k.ended.idleproc = k.idleproc := (congrArg Kernel.idleproc frame :)
  apply family.congr list idleproc
  · exact fun q _ => kept ProcStruct.parent q (fun _ => rfl)
      (congrArg ProcStruct.parent (kinship q) :)
  · exact fun q _ => kept ProcStruct.optr q (fun _ => rfl) (congrArg ProcStruct.optr (kinship q) :)
  · exact fun q _ => kept ProcStruct.yptr q (fun _ => rfl) (congrArg ProcStruct.yptr (kinship q) :)
  · exact fun q _ => kept ProcStruct.cptr q (fun _ => rfl) (congrArg ProcStruct.cptr (kinship q) :)

/-- The links of the exiting process do not change with its state. -/
theorem ended_parent (k : Kernel) (q : ProcPtr) :
    (k.ended.procs q).parent = (k.procs q).parent := by
  refine field_modify ProcStruct.parent ?_ rfl
  exact (congrArg ProcStruct.parent (k.dropMm_kinship k.current q) :)

theorem exitWake_of_parent {parent : ProcPtr}
    (parentEq : (k.procs k.current).parent = some parent) :
    k.exitWake = wakeWaiting (k.ended.threadRing parent) k.ended := by
  rw [exitWake, ended_parent, parentEq]

theorem ended_cptr (k : Kernel) (q : ProcPtr) : (k.ended.procs q).cptr = (k.procs q).cptr := by
  refine field_modify ProcStruct.cptr ?_ rfl
  exact (congrArg ProcStruct.cptr (k.dropMm_kinship k.current q) :)

theorem threadRing_known (table : Table k) (known : k.Known p) {q : ProcPtr}
    (inRing : q ∈ k.threadRing p) : k.Known q := by
  rcases (Rings.mem_ring_iff table.groups.disjoint).mp inRing with rfl | ⟨l, memL, _, memQ⟩
  · exact known
  · exact .inl (table.groups.member q (List.mem_flatten_of_mem memL memQ)).1

/-- The process that gets the children of the current one. -/
def heir (k : Kernel) : ProcPtr :=
  if k.nextThread k.current = k.current then k.initproc else k.nextThread k.current

theorem heir_congr (rings : k'.threadGroups = k.threadGroups) (initproc : k'.initproc = k.initproc)
    (current : k'.current = k.current) : k'.heir = k.heir := by
  rw [heir, heir, nextThread, nextThread, threadRing, threadRing, rings, initproc, current]

theorem heir_spec (table : Table k) (mem : k.current ∈ k.procList)
    (notInit : k.current ≠ k.initproc) : k.heir ≠ k.current ∧ k.Known k.heir ∧
      ((k.heir = k.initproc ∧ k.threadRing k.current = [k.current]) ∨
        (k.heir ≠ k.current ∧ k.heir ∈ k.threadRing k.current)) := by
  unfold heir
  rcases nextThread_spec table.groups.disjoint k.current with ⟨alone, ring⟩ | ⟨other, inRing⟩
  · rw [if_pos alone]
    exact ⟨notInit.symm, .inl table.init, .inl ⟨rfl, ring⟩⟩
  · rw [if_neg other]
    exact ⟨other, threadRing_known table (.inl mem) inRing, .inr ⟨other, inRing⟩⟩

section ExitProc

variable (table : Table k) (queue : RunQueue k) (mem : k.current ∈ k.procList)
  (awake : (k.procs k.current).waitState = 0)
  (dormant : ∀ q, k.Known q → q ≠ k.current →
    (k.procs q).waitState &&& wtInterrupted ≠ 0 → k.Dormant q)

include table queue mem awake dormant

/-- The group of the parent is woken. -/
theorem exitWake_spec (woken : k.exitWake = .ok m) :
    ∃ parent, (k.procs k.current).parent = some parent ∧ k.ended.Rouses m ∧ RunQueue m ∧
      (∀ q ∈ k.threadRing parent, (m.procs q).waitState ≠ wtChild) ∧
      ∀ q, k.Known q → (m.procs q).waitState &&& wtInterrupted ≠ 0 → m.Dormant q := by
  obtain ⟨parent, parentEq, parentKnown, _⟩ := table.parent k.current mem
  have rings : k.ended.threadRing parent = k.threadRing parent := by
    rw [threadRing, threadRing,
      show k.ended.threadGroups = k.threadGroups from
        (congrArg Kernel.threadGroups (k.ended_withProcs k.procs) :)]
  have endedDormant : ∀ q, k.Known q → (k.ended.procs q).waitState &&& wtInterrupted ≠ 0 →
      k.ended.Dormant q := fun q known => ended_dormant awake (dormant q known)
  rw [exitWake_of_parent parentEq, rings] at woken
  obtain ⟨rouses, _, queueWoken, waited⟩ := wakeWaiting_spec (ended_runQueue queue)
    (fun q inRing => endedDormant q (threadRing_known table parentKnown inRing)) woken
  exact ⟨parent, parentEq, rouses, queueWoken, waited,
    fun q known => rouses.dormant (endedDormant q known)⟩

theorem exitProc_sound : Sound k.exitProc := by
  have current : (k.dropMm k.current).current = k.current :=
    (congrArg Kernel.current (k.dropMm_eq k.current) :)
  have frame := k.ended_withProcs k.procs
  unfold exitProc
  split
  · exact .panic rfl
  · split
    · exact .panic rfl
    · rename_i _ notInit
      simp only [current, modify_current]
      change Sound (k.exitWake >>= fun m =>
        adoptChildren m.procList.length (m.deThread m.current) m.current m.heir)
      refine .bind ?_ fun m woken => ?_
      · obtain ⟨parent, parentEq, parentKnown, _⟩ := table.parent k.current mem
        have rings : k.ended.threadGroups = k.threadGroups :=
          (congrArg Kernel.threadGroups frame :)
        rw [exitWake_of_parent parentEq, threadRing, rings]
        exact wakeWaiting_sound fun q inRing =>
          ended_dormant awake (dormant q (threadRing_known table parentKnown inRing))
      · obtain ⟨parent, _, rouses, queueWoken, _, dormantWoken⟩ :=
          exitWake_spec table queue mem awake dormant woken
        have queueApart : RunQueue (m.deThread m.current) :=
          queueWoken.congr rfl rfl (fun _ => Iff.rfl) (fun _ _ => rfl) fun _ _ => rfl
        have heir : m.heir = k.heir := by
          have relations := rouses.relations
          have rings : m.threadGroups = k.threadGroups :=
            (congrArg Kernel.threadGroups relations :).trans (congrArg Kernel.threadGroups frame :)
          have initproc : m.initproc = k.initproc :=
            rouses.initproc.trans (congrArg Kernel.initproc frame :)
          have current : m.current = k.current :=
            rouses.current.trans (congrArg Kernel.current frame :)
          exact heir_congr rings initproc current
        apply adoptChildren_sound queueApart
        intro interruptible
        obtain ⟨_, known, _⟩ := heir_spec table mem notInit
        rw [heir] at interruptible ⊢
        obtain ⟨allocated, notIdle, asleep, inter⟩ := dormantWoken k.heir known interruptible
        exact ⟨allocated, notIdle, asleep, inter⟩

theorem exitProc_spec (exited : k.exitProc = .ok k') :
    RunQueue k' ∧ k.current ≠ k.initproc ∧ ∃ parent heir, k.Exits parent heir k' := by
  obtain ⟨_, notInit, m, woken, adopt⟩ := exitProc_eq_ok exited
  obtain ⟨children, family⟩ := table.family
  obtain ⟨parent, parentEq, rouses, queueWoken, waited, dormantWoken⟩ :=
    exitWake_spec table queue mem awake dormant woken
  have frame := k.ended_withProcs k.procs
  have relations := rouses.relations
  have current : m.current = k.current := rouses.current.trans (congrArg Kernel.current frame :)
  have list : m.procList = k.procList :=
    (congrArg Kernel.procList relations :).trans (congrArg Kernel.procList frame :)
  have rings : m.threadGroups = k.threadGroups :=
    (congrArg Kernel.threadGroups relations :).trans (congrArg Kernel.threadGroups frame :)
  have initproc : m.initproc = k.initproc :=
    (congrArg Kernel.initproc relations :).trans (congrArg Kernel.initproc frame :)
  have idleproc : m.idleproc = k.idleproc :=
    (congrArg Kernel.idleproc relations :).trans (congrArg Kernel.idleproc frame :)
  have next : m.nextThread m.current = k.nextThread k.current := by
    rw [nextThread, nextThread, threadRing, threadRing, rings, current]
  rw [next, initproc, current] at adopt
  change adoptChildren (m.deThread k.current).procList.length (m.deThread k.current) k.current
    k.heir = .ok k' at adopt
  obtain ⟨heirOther, heirKnown, inherits⟩ := heir_spec table mem notInit
  have apart : m.Stirs (m.deThread k.current) :=
    ⟨rfl, rfl, rfl, rfl, rfl, rfl, fun _ => rfl, fun _ => .inl ⟨rfl, rfl⟩, .refl _,
      fun _ => .inl, fun _ => id⟩
  have queueApart : RunQueue (m.deThread k.current) :=
    queueWoken.congr rfl rfl (fun _ => Iff.rfl) (fun _ _ => rfl) fun _ _ => rfl
  have familyApart : Family (m.deThread k.current) children none :=
    ((ended_family family).of_relations relations).congr rfl rfl (fun _ _ => rfl)
      (fun _ _ => rfl) (fun _ _ => rfl) fun _ _ => rfl
  have known : ∀ q, k.Known q → (m.deThread k.current).Known q := by
    intro q knownQ
    change q ∈ m.procList ∨ q = m.idleproc
    rw [list, idleproc]
    exact knownQ
  obtain ⟨adopts, queueDone, children', familyDone, empty⟩ := adoptChildren_spec queueApart
    (familyApart.leave (known _ (.inl mem))) (known k.heir heirKnown) heirOther
    (apart.dormant (dormantWoken k.heir heirKnown)) adopt
  refine ⟨queueDone, notInit, parent, k.heir, ?_⟩
  have stirs := rouses.toStirs.trans (apart.trans adopts.stirs)
  constructor
  · exact parentEq
  · exact inherits
  · exact stirs
  · have endedLists : k.SameLists k.ended :=
      ⟨(congrArg Kernel.procList frame :), (congrArg Kernel.hashList frame :),
        (congrArg Kernel.nrProcess frame :), (congrArg Kernel.lastPid frame :),
        (congrArg Kernel.nextSafe frame :), (congrArg Kernel.idleproc frame :),
        (congrArg Kernel.initproc frame :)⟩
    have apartLists : m.SameLists (m.deThread k.current) := {}
    exact endedLists.trans ((SameLists.of_relations relations).trans
      (apartLists.trans adopts.lists))
  · rw [adopts.rings, ← rings]
    rfl
  · rw [adopts.mmCount]
    exact (congrArg Kernel.mmCount relations :).trans (congrArg Kernel.mmCount frame :)
  · rw [adopts.mmAlive]
    exact (congrArg Kernel.mmAlive relations :).trans (congrArg Kernel.mmAlive frame :)
  · intro q
    have same : (m.procs q).relations = (k.ended.procs q).relations :=
      (congrArg (fun m => m.procs q) relations :)
    exact (adopts.others q).trans (congrArg ProcStruct.unrelated same :)
  · intro q
    have same : (m.procs q).parent = (k.procs q).parent :=
      (congrArg (fun m => (m.procs q).parent) relations :).trans (ended_parent k q)
    rw [adopts.adopted, ← same]
    exact if_congr ((family.mem_iff k.current q).trans (by rw [same])) rfl rfl
  · intro q notCurrent notHeir
    have same : (m.procs q).cptr = (k.procs q).cptr :=
      (congrArg (fun m => (m.procs q).cptr) relations :).trans (ended_cptr k q)
    exact (adopts.cptr q notCurrent notHeir).trans same
  · exact ⟨children', familyDone.left empty⟩
  · exact fun q inRing => (apart.trans adopts.stirs).told (waited q inRing)
  · intro z listed parentZ zombie
    exact adopts.told z ((family.mem_iff k.current z).mpr ⟨listed, parentZ⟩)
      ((adopts.stirs.zombie_iff z).mp zombie)

end ExitProc

/-! ## The process table after an exit -/

namespace Exits

variable {heir : ProcPtr}

theorem zombie_iff (exits : k.Exits parent heir k') (q : ProcPtr) :
    (k'.procs q).state = .zombie ↔ q = k.current ∨ (k.procs q).state = .zombie := by
  rw [exits.stirs.zombie_iff, ended_state]
  by_cases own : q = k.current
  · simp [own]
  · simp [own]

theorem pid (exits : k.Exits parent heir k') (q : ProcPtr) :
    (k'.procs q).pid = (k.procs q).pid := by
  refine (congrArg ProcStruct.pid (exits.others q) :).trans ?_
  refine field_modify ProcStruct.pid ?_ rfl
  exact (congrArg ProcStruct.pid (k.dropMm_kinship k.current q) :)

theorem mm (exits : k.Exits parent heir k') (q : ProcPtr) :
    (k'.procs q).mm = if q = k.current then none else (k.procs q).mm := by
  refine (congrArg ProcStruct.mm (exits.others q) :).trans ?_
  exact field_modify ProcStruct.mm (k.dropMm_mm k.current q) rfl

/-- The process that gets the children is linked and not a zombie. -/
theorem heir_known (exits : k.Exits parent heir k') (table : Table k)
    (notInit : k.current ≠ k.initproc) :
    k.Known heir ∧ heir ≠ k.current ∧ (k.procs heir).state ≠ .zombie := by
  rcases exits.inherits with ⟨rfl, _⟩ | ⟨other, inRing⟩
  · exact ⟨.inl table.init, notInit.symm, table.initAlive⟩
  · rcases (Rings.mem_ring_iff table.groups.disjoint).mp inRing with same | ⟨l, memL, _, memHeir⟩
    · exact absurd same.symm other
    · obtain ⟨listed, alive, _⟩ := table.groups.member heir (List.mem_flatten_of_mem memL memHeir)
      exact ⟨.inl listed, other, alive⟩

end Exits

end Kernel

/-- The exit of a process keeps the process table. -/
theorem Table.exitProc {k k' : Kernel} {parent heir : ProcPtr} (table : Table k)
    (mem : k.current ∈ k.procList) (notInit : k.current ≠ k.initproc)
    (exits : k.Exits parent heir k') : Table k' := by
  have lists := exits.lists
  have frame := k.ended_withProcs k.procs
  have dropped := table.dropMm mem
  have known : ∀ q, k'.Known q ↔ k.Known q := by
    intro q
    rw [Kernel.Known, Kernel.Known, lists.procList, lists.idleproc]
  have alive : ∀ q, q ≠ k.current → (k.procs q).state ≠ .zombie → (k'.procs q).state ≠ .zombie := by
    intro q other old isZombie
    rcases (exits.zombie_iff q).mp isZombie with own | wasZombie
    · exact other own
    · exact old wasZombie
  constructor
  · exact table.numbered.congr lists.procList lists.hashList lists.lastPid lists.nextSafe
      fun q _ => exits.pid q
  · exact exits.family
  · constructor
    · rw [exits.rings]
      exact Rings.leave_nodup table.groups.disjoint
    · intro q inGroup
      rw [exits.rings] at inGroup
      obtain ⟨listed, old, other⟩ := table.groups.member q (Rings.leave_sublist.subset inGroup)
      rw [lists.procList, lists.initproc]
      refine ⟨listed, alive q ?_ old, other⟩
      rintro rfl
      exact Rings.not_mem_leave table.groups.disjoint inGroup
  · have mm : ∀ q, (k'.procs q).mm = ((k.dropMm k.current).procs q).mm :=
      fun q => (exits.mm q).trans (k.dropMm_mm k.current q).symm
    have list : (k.dropMm k.current).procList = k.procList :=
      (congrArg Kernel.procList (k.dropMm_eq k.current) :)
    have idleproc : (k.dropMm k.current).idleproc = k.idleproc :=
      (congrArg Kernel.idleproc (k.dropMm_eq k.current) :)
    have droppedList : k'.procList = (k.dropMm k.current).procList :=
      lists.procList.trans list.symm
    constructor
    · intro m
      rw [exits.mmCount, Kernel.mmUsers_congr droppedList fun q _ => mm q]
      exact dropped.spaces.users m
    · intro m
      rw [exits.mmCount, exits.mmAlive]
      exact dropped.spaces.alive m
    · intro q listed isZombie
      rw [lists.procList] at listed
      rw [exits.mm]
      split
      · rfl
      · rename_i other
        rcases (exits.zombie_iff q).mp isZombie with own | wasZombie
        · exact absurd own other
        · exact table.spaces.zombie q listed wasZombie
    · rw [lists.idleproc, mm, ← idleproc]
      exact dropped.spaces.idle
  · rw [lists.nrProcess, lists.procList]
    exact table.count
  · intro q listed
    rw [lists.procList] at listed
    obtain ⟨heirKnown, heirOther, heirAlive⟩ := exits.heir_known table notInit
    rw [exits.adopted]
    split
    · exact ⟨heir, rfl, (known heir).mpr heirKnown, alive heir heirOther heirAlive⟩
    · rename_i notChild
      obtain ⟨r, parentEq, knownR, aliveR⟩ := table.parent q listed
      refine ⟨r, parentEq, (known r).mpr knownR, alive r ?_ aliveR⟩
      rintro rfl
      exact notChild ⟨listed, parentEq⟩
  · intro q knownQ
    rw [exits.stirs.allocated, show k.ended.allocated = k.allocated from
      (congrArg Kernel.allocated frame :)]
    exact table.allocated q ((known q).mp knownQ)
  · rw [lists.procList, lists.idleproc]
    exact table.listed
  · rw [lists.idleproc]
    exact alive _ (table.listed _ mem).symm table.idle
  · rw [lists.procList, lists.initproc]
    exact table.init
  · rw [lists.initproc]
    exact alive _ notInit.symm table.initAlive

end EdfKernel
