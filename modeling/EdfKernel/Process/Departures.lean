import EdfKernel.Process.ChildExit

/-!
# Departures

A step leaves the other processes where they are in the kernel, and only `do_wait` takes a
process off the list of processes, the zombie it has found.
-/

namespace EdfKernel

open Library

namespace Kernel

variable {wrap : Int → Int} {k k' m : Kernel} {p q z : ProcPtr} {pc : Pc} {event : Event}

/-- The processes that are there stay where they are, except the current one, and stay on the
list of processes. -/
structure Stays (k k' : Kernel) : Prop where
  pc : ∀ q, k.allocated q = true → q ≠ k.current →
    (k'.procs q).kstack.pc = (k.procs q).kstack.pc
  listed : ∀ q ∈ k.procList, q ∈ k'.procList
  idleproc : k'.idleproc = k.idleproc

theorem Stays.of_same (stack : ∀ q, k.allocated q = true → q ≠ k.current →
      (k'.procs q).kstack = (k.procs q).kstack)
    (list : k'.procList = k.procList) (idleproc : k'.idleproc = k.idleproc) : k.Stays k' :=
  ⟨fun q allocated other => by rw [stack q allocated other], fun _ mem => list ▸ mem, idleproc⟩

theorem MovedTo.idleproc (moved : m.MovedTo pc k') : k'.idleproc = m.idleproc := by
  obtain ⟨ret, exitCode, needResched, _, rfl⟩ := moved
  rfl

/-- The current process goes on after a function that has left the others where they are. -/
theorem Stays.moved (stays : k.Stays m) (current : m.current = k.current)
    (moved : m.MovedTo pc k') : k.Stays k' := by
  obtain ⟨ret, exitCode, needResched, _, rfl⟩ := moved
  refine ⟨fun q allocated other => ?_, stays.listed, stays.idleproc⟩
  rw [moved_procs_of_ne m pc ret exitCode needResched (current ▸ other)]
  exact stays.pc q allocated other

theorem Stays.known (stays : k.Stays k') (known : k.Known p) : k'.Known p :=
  known.imp (stays.listed p) fun idle => idle.trans stays.idleproc.symm

theorem Stays.refl (k : Kernel) : k.Stays k :=
  ⟨fun _ _ _ => rfl, fun _ mem => mem, rfl⟩

theorem Rouses.stays (rouses : k.Rouses k') : k.Stays k' :=
  .of_same (fun q _ _ => rouses.kstack q) (congrArg Kernel.procList rouses.relations :)
    rouses.idleproc

theorem Stays.rouses (stays : k.Stays m) (rouses : m.Rouses k') : k.Stays k' := by
  have list : k'.procList = m.procList := (congrArg Kernel.procList rouses.relations :)
  refine ⟨fun q allocated other => ?_, fun q mem => list ▸ stays.listed q mem,
    rouses.idleproc.trans stays.idleproc⟩
  rw [rouses.kstack]
  exact stays.pc q allocated other

theorem Stays.wakes (stays : k.Stays m) (woken : m.wakeupProc p = .ok k') : k.Stays k' := by
  have frame := wakeupProc_unwoken woken
  have list : k'.procList = m.procList := (congrArg Kernel.procList frame :)
  have idleproc : k'.idleproc = m.idleproc := (congrArg Kernel.idleproc frame :)
  refine ⟨fun q allocated other => ?_, fun q mem => list ▸ stays.listed q mem,
    idleproc.trans stays.idleproc⟩
  have pc : (k'.procs q).kstack.pc = (m.procs q).kstack.pc :=
    (congrArg (fun m => (m.procs q).kstack.pc) frame :)
  rw [pc]
  exact stays.pc q allocated other

theorem ChangesCurrent.stays (changes : k.ChangesCurrent k') : k.Stays k' :=
  .of_same (fun q _ other => by rw [changes.procs q other]) changes.procList
    (congrArg Kernel.idleproc changes.frame :)

/-- A step keeps the others where they are, or `do_wait` takes the zombie it has found off the
list. -/
theorem Transition.stays (transition : Transition wrap k event k') (inv : k.Inv) :
    k.Stays k' ∨ ∃ pid caller zombie m pc, k.pc = .wait pid caller ∧
      k.waitScan pid = .found zombie ∧ k.reap zombie = .ok m ∧ m.MovedTo pc k' := by
  cases transition with
  | skip same => exact .inl (same ▸ .refl k)
  | move pc moves moved => exact .inl (Stays.moved (.refl k) rfl moved)
  | tickUser called user ticked =>
      have moves : k.pc.Moves k.flagged .tail := user ▸ .userTail
      have moved := goto_movedTo k .tail (by rintro ⟨⟩)
      have there := inv.move moves moved
      obtain ⟨rouses, _⟩ := runTimerList_spec there.others.queue there.timersWait ticked
      exact .inl ((Stays.moved (.refl k) rfl moved).rouses rouses)
  | tick called kernel ticked =>
      obtain ⟨rouses, _⟩ := runTimerList_spec inv.others.queue inv.timersWait ticked
      exact .inl rouses.stays
  | schedule pc parks scheduled =>
      have same := schedule_unsched scheduled
      have list : k'.procList = k.procList := (congrArg Kernel.procList same :)
      refine .inl ⟨fun q allocated other => ?_, fun q mem => list ▸ mem,
        (congrArg Kernel.idleproc same :)⟩
      have pc : (k'.procs q).kstack.pc = ((k.goto pc).procs q).kstack.pc :=
        (congrArg (fun m => (m.procs q).kstack.pc) same :)
      rw [pc, goto, modify_procs_of_ne _ _ _ other]
  | doExit errorCode m called source killed moved =>
      obtain ⟨rouses, _⟩ := killAll_spec inv.others.queue inv.exitGroup_dormant killed
      exact .inl (rouses.stays.moved rouses.current moved)
  | kill pid ret m called user killed moved =>
      obtain ⟨rouses, _⟩ := inv.doKill_rouses killed
      exact .inl (rouses.stays.moved rouses.current moved)
  | sleep time caller m source marked moved =>
      obtain ⟨_, _, rfl⟩ := sleepMark_eq_ok marked
      have stays : k.Stays (k.marked markTimer (insertTimer ⟨time, k.current⟩ k.timerList)
          k.kswapdDone) :=
        .of_same (fun q _ other => congrArg ProcStruct.kstack
          (modify_procs_of_ne k k.current markTimer other)) rfl rfl
      exact .inl (stays.moved rfl moved)
  | wakeKswapd swapd source present timer woken => exact .inl (Stays.wakes (.refl k) woken)
  | wakeupAll source woken =>
      obtain ⟨wakes, _, _⟩ := inv.wakesAll woken
      have list : k'.procList = k.procList := (congrArg Kernel.procList wakes.relations :)
      exact .inl ⟨fun q _ _ => wakes.pc q, fun q mem => list ▸ mem,
        (congrArg Kernel.idleproc wakes.relations :)⟩
  | freePages w swapd m source present marked moved =>
      have waits : k.Stays k.awaitsSwap :=
        .of_same (fun q _ other => congrArg ProcStruct.kstack
          (modify_procs_of_ne k k.current markSwap other)) rfl rfl
      have current : m.current = k.current := by
        rcases freePagesMark_eq_ok marked with ⟨_, rfl | ⟨_, woken⟩⟩
        · rfl
        · exact (congrArg Kernel.current (wakeupProc_unwoken woken) :)
      rcases freePagesMark_eq_ok marked with ⟨_, rfl | ⟨_, woken⟩⟩
      · exact .inl (waits.moved rfl moved)
      · exact .inl ((waits.wakes woken).moved current moved)
  | setKswapd source created moved =>
      have stays : k.Stays { k with kswapd := k.findProc (k.procs k.current).kstack.ret } :=
        .of_same (fun _ _ _ => rfl) rfl rfl
      exact .inl (stays.moved rfl moved)
  | forkAlloc flags kind caller child m source forked moved =>
      obtain ⟨free, notCurrent, _, timeSlice, rest, rfl⟩ :=
        forkAlloc_eq_ok inv.others.allocated forked
      have stays : k.Stays (k.withChild kind child timeSlice rest) := by
        refine .of_same (fun q allocated _ => ?_) rfl rfl
        have notChild : q ≠ child := by
          rintro rfl
          rw [allocated] at free
          contradiction
        rw [withChild, modify_procs_of_ne _ _ _ notChild]
        exact field_modify ProcStruct.kstack rfl rfl
      exact .inl (stays.moved rfl moved)
  | forkFree flags child caller source moved =>
      have stays : k.Stays (k.freeProc child) := .of_same (fun _ _ _ => rfl) rfl rfl
      exact .inl (stays.moved rfl moved)
  | forkLink flags child caller mm m called source linked moved =>
      obtain ⟨links, _⟩ := forkLink_links inv.others.table (inv.linkable source) linked
      have stays : k.Stays m := by
        refine ⟨fun q _ _ => by rw [links.kstack], fun q mem => ?_, links.roles.idleproc⟩
        rw [links.procList]
        exact List.mem_cons_of_mem _ mem
      exact .inl (stays.moved links.current moved)
  | forkWake child caller m source woken moved =>
      have stays := Stays.wakes (.refl k) woken
      have current : m.current = k.current :=
        (congrArg Kernel.current (wakeupProc_unwoken woken) :)
      subst moved
      refine .inl ⟨fun q allocated other => ?_, stays.listed, stays.idleproc⟩
      rw [returnTo, modify_procs_of_ne _ _ _ (current ▸ other)]
      exact stays.pc q allocated other
  | execDrop caller source moved =>
      exact .inl (k.dropMm_changes.stays.moved k.dropMm_changes.current moved)
  | execFinish caller mm m source loaded moved =>
      obtain ⟨_, rfl⟩ := execFinish_eq_ok loaded
      have stays : k.Stays (((k.withMm k.current mm).deThread k.current).modify k.current
          execDeadline) := by
        refine .of_same (fun q _ _ => field_modify ProcStruct.kstack ?_ rfl) rfl rfl
        exact k.modify_field k.current (fun s => { s with mm := some mm }) ProcStruct.kstack rfl q
      exact .inl (stays.moved rfl moved)
  | reap pid caller zombie m pc source found reaped target moved =>
      exact .inr ⟨pid, caller, zombie, m, pc, source, found, reaped, moved⟩
  | waitSleep pid caller source found moved =>
      exact .inl ((k.modify_changes _).stays.moved rfl moved)
  | waitMark pid caller source moved =>
      exact .inl ((k.modify_changes _).stays.moved rfl moved)
  | delTimer caller source moved =>
      have stays : k.Stays (k.delTimer k.current) := .of_same (fun _ _ _ => rfl) rfl rfl
      exact .inl (stays.moved rfl moved)
  | exit m source exited moved =>
      obtain ⟨_, _, parent, heir, exits⟩ := inv.exits source exited
      have current : m.current = k.current :=
        exits.stirs.current.trans (congrArg Kernel.current (k.ended_withProcs k.procs) :)
      have stays : k.Stays m := by
        refine .of_same (fun q _ other => ?_) exits.lists.procList exits.lists.idleproc
        rw [exits.stirs.kstack]
        refine field_modify ProcStruct.kstack ?_ rfl
        exact (congrArg (fun m => (m.procs q).kstack) (k.dropMm_unlinked k.current) :)
      exact .inl (stays.moved current moved)

/-- A step leaves the other processes at their places; so it does with a descriptor that is not
linked yet. -/
theorem Transition.pc_of_ne (transition : Transition wrap k event k') (inv : k.Inv)
    (allocated : k.allocated q = true) (other : q ≠ k.current) :
    (k'.procs q).kstack.pc = (k.procs q).kstack.pc := by
  rcases transition.stays inv with stays | ⟨pid, caller, zombie, m, pc, source, found, reaped, moved⟩
  · exact stays.pc q allocated other
  · obtain ⟨_, _, ⟨frame, unrelated, _⟩, _⟩ := reap_spec reaped
    have current : m.current = k.current := (congrArg Kernel.current frame :)
    have stack : (m.procs q).kstack = (k.procs q).kstack :=
      (congrArg ProcStruct.kstack (unrelated q) :)
    obtain ⟨ret, exitCode, needResched, _, rfl⟩ := moved
    rw [moved_procs_of_ne m pc ret exitCode needResched (current ▸ other), stack]

/-- A process that is not freed stays in the process table. -/
theorem Transition.known (transition : Transition wrap k event k') (inv : k.Inv)
    (known : k.Known p) (allocated : k'.allocated p = true) : k'.Known p := by
  rcases transition.stays inv with stays | ⟨pid, caller, zombie, m, pc, source, found, reaped, moved⟩
  · exact stays.known known
  · obtain ⟨_, _, ⟨frame, _, _⟩, _⟩ := reap_spec reaped
    rw [known_of_relations (movedTo_relations moved)]
    have same : m.allocated = Function.update k.allocated zombie false :=
      (congrArg Kernel.allocated frame :)
    have list : m.procList = k.procList.erase zombie := (congrArg Kernel.procList frame :)
    have idle : m.idleproc = k.idleproc := (congrArg Kernel.idleproc frame :)
    have other : p ≠ zombie := by
      rintro rfl
      obtain ⟨ret, exitCode, needResched, _, rfl⟩ := moved
      have before : m.allocated p = true := allocated
      rw [same, Function.update_self] at before
      contradiction
    rw [Known, list, idle]
    exact known.imp_left (List.mem_erase_of_ne other).mpr

theorem scheduleTo_pc (scheduled : k.scheduleTo pc = .ok k') :
    (k'.procs k.current).kstack.pc = pc := by
  have same := schedule_unsched scheduled
  have pcEq : (k'.procs k.current).kstack.pc = ((k.goto pc).procs k.current).kstack.pc :=
    (congrArg (fun m => (m.procs k.current).kstack.pc) same :)
  rw [pcEq]
  simp [goto]

theorem MovedTo.own_pc (moved : m.MovedTo pc k') (current : m.current = k.current) :
    (k'.procs k.current).kstack.pc = pc := by
  obtain ⟨ret, exitCode, needResched, _, rfl⟩ := moved
  rw [← current]
  simp [Kernel.moved]

end Kernel

end EdfKernel
