import EdfKernel.Process.Lifecycle
import EdfKernel.Sched.RunQueue

/-!
# What the process functions leave alone

The functions that keep the process table change links, pids and the counts of
address spaces, and nothing that the scheduler looks at.
-/

namespace EdfKernel

open Library

/-- A process without its pid, its links to other processes and its address
space. -/
def ProcStruct.unlinked (s : ProcStruct) : ProcStruct :=
  { s with
    pid := 0
    parent := none
    mm := none
    cptr := none
    yptr := none
    optr := none
    timeSlice := 0 }

namespace Kernel

variable {k k' : Kernel} {p : ProcPtr}

/-- The kernel without the process table and the address spaces. -/
def unlinked (k : Kernel) : Kernel :=
  { k with
    procs := fun p => (k.procs p).unlinked
    procList := []
    hashList := fun _ => []
    threadGroups := []
    nrProcess := 0
    lastPid := 0
    nextSafe := 0
    mmCount := fun _ => 0
    mmAlive := fun _ => false }

theorem unlinked_modify {k m : Kernel} {p : ProcPtr} {change : ProcStruct → ProcStruct}
    (rest : k.unlinked = m)
    (same : (change (k.procs p)).unlinked = (k.procs p).unlinked) :
    (k.modify p change).unlinked = m := by
  have procs : (k.modify p change).unlinked.procs = k.unlinked.procs :=
    funext (k.modify_field p change ProcStruct.unlinked same)
  exact (congrArg (fun procs => { k.unlinked with procs := procs }) procs).trans rest

theorem unlinked_modifySome {k m : Kernel} {o : Option ProcPtr}
    {change : ProcStruct → ProcStruct} (rest : k.unlinked = m)
    (same : ∀ s, (change s).unlinked = s.unlinked) :
    (k.modifySome o change).unlinked = m := by
  cases o with
  | none => exact rest
  | some p => exact unlinked_modify rest (same _)

theorem copyMm_unlinked {flags : UInt32} {mm : MmPtr} (copied : k.copyMm flags p mm = .ok k') :
    k'.unlinked = k.unlinked := by
  unfold copyMm at copied
  split at copied
  · cases copied
    rfl
  · split at copied
    · cases copied
      exact unlinked_modify rfl rfl
    · split at copied
      · contradiction
      · cases copied
        exact unlinked_modify rfl rfl

theorem getPid_unlinked {pid : Int} (got : k.getPid = .ok (pid, k')) :
    k'.unlinked = k.unlinked := by
  obtain ⟨_, _, result⟩ := bind_eq_ok_iff.mp got
  cases result
  rfl

theorem hashProc_unlinked (k : Kernel) (p : ProcPtr) : (k.hashProc p).unlinked = k.unlinked :=
  rfl

theorem setLinks_unlinked (k : Kernel) (p parent : ProcPtr) :
    (k.setLinks p parent).unlinked = k.unlinked := by
  unfold setLinks
  refine unlinked_modify ?_ rfl
  refine unlinked_modifySome ?_ fun _ => rfl
  exact unlinked_modify rfl rfl

theorem removeLinks_unlinked (k : Kernel) (p : ProcPtr) :
    (k.removeLinks p).unlinked = k.unlinked := by
  unfold removeLinks
  simp only
  split
  · refine unlinked_modify ?_ rfl
    exact unlinked_modifySome rfl fun _ => rfl
  · refine unlinked_modifySome ?_ fun _ => rfl
    exact unlinked_modifySome rfl fun _ => rfl

theorem forkLink_unlinked {flags : UInt32} {mm : MmPtr} (linked : k.forkLink flags p mm = .ok k') :
    k'.unlinked = k.unlinked := by
  obtain ⟨copied, copy, rest⟩ := bind_eq_ok_iff.mp linked
  obtain ⟨⟨pid, got⟩, get, result⟩ := bind_eq_ok_iff.mp rest
  cases result
  have links : (((got.modify p fun s => { s with pid := pid }).hashProc p).setLinks p
      ((got.modify p fun s => { s with pid := pid }).hashProc p).current).unlinked =
      k.unlinked := by
    rw [setLinks_unlinked, hashProc_unlinked]
    refine unlinked_modify ?_ rfl
    rw [getPid_unlinked get, copyMm_unlinked copy]
  split
  · exact links
  · exact links

theorem dropMm_unlinked (k : Kernel) (p : ProcPtr) : (k.dropMm p).unlinked = k.unlinked := by
  unfold dropMm
  split
  · rfl
  · refine unlinked_modify ?_ rfl
    simp only
    split <;> rfl

theorem adoptLinks_unlinked (k : Kernel) (p parent child : ProcPtr) :
    (k.adoptLinks p parent child).unlinked = k.unlinked := by
  unfold adoptLinks
  refine unlinked_modify ?_ rfl
  refine unlinked_modify ?_ rfl
  refine unlinked_modifySome ?_ fun _ => rfl
  refine unlinked_modify ?_ rfl
  refine unlinked_modify ?_ rfl
  exact unlinked_modify rfl rfl

/-! ## A new process -/

/-- The descriptor that `do_fork` has filled in when it first asks for memory. -/
def born (kind : ForkKind) (parent : ProcPtr) (timeSlice : Int) (s : ProcStruct) : ProcStruct :=
  { forkDeadline kind
      { s with
        state := .uninit
        pid := -1
        runs := 0
        needResched := false
        parent := some parent
        mm := none
        flags := 0
        waitState := 0
        cptr := none
        yptr := none
        optr := none
        rq := none
        timeSlice := timeSlice } with
    kstack := ⟨forkEntry kind, 0, 0⟩ }

@[simp]
theorem born_state (kind : ForkKind) (parent : ProcPtr) (timeSlice : Int) (s : ProcStruct) :
    (born kind parent timeSlice s).state = .uninit := by
  cases kind <;> rfl

/-- The kernel with a new descriptor at `child`; `rest` is what `do_fork` leaves of
the time slice of the current process. -/
def withChild (k : Kernel) (kind : ForkKind) (child : ProcPtr) (timeSlice rest : Int) : Kernel :=
  let k := { k with allocated := Function.update k.allocated child true }
  (k.modify k.current fun s => { s with timeSlice := rest }).modify child
    (born kind k.current timeSlice)

section WithChild

variable (k : Kernel) (kind : ForkKind) (child : ProcPtr) (timeSlice rest : Int)

theorem withChild_allocated :
    (k.withChild kind child timeSlice rest).allocated = Function.update k.allocated child true :=
  rfl

theorem withChild_procs_child (notCurrent : k.current ≠ child) :
    (k.withChild kind child timeSlice rest).procs child =
      born kind k.current timeSlice (k.procs child) := by
  rw [withChild, modify_procs_self]
  congr 1
  exact modify_procs_of_ne _ _ _ notCurrent.symm

theorem withChild_procs_unlinked {q : ProcPtr} (ne : q ≠ child) :
    ((k.withChild kind child timeSlice rest).procs q).unlinked = (k.procs q).unlinked := by
  rw [withChild, modify_procs_of_ne _ _ _ ne]
  exact modify_field _ k.current _ ProcStruct.unlinked rfl q

end WithChild

/-- `do_fork` up to its first allocation, for a parent that may fork. -/
theorem forkAlloc_of_free (kind : ForkKind) (free : k.allocated p = false)
    (notCurrent : k.current ≠ p) (awake : (k.procs k.current).waitState = 0)
    (slice : ¬(k.procs k.current).timeSlice < 0) :
    k.forkAlloc kind p = .ok (k.withChild kind p ((k.procs k.current).timeSlice / 2)
      ((k.procs k.current).timeSlice - (k.procs k.current).timeSlice / 2)) := by
  unfold forkAlloc allocProc
  simp only [free, Bool.false_eq_true, if_false, bind, Except.bind, modify_current,
    modify_procs_of_ne _ _ _ notCurrent, awake, ne_eq, not_true_eq_false, slice]
  congr 1
  have procs : ∀ m m' : Kernel, m = { m' with procs := m.procs } → m.procs = m'.procs →
      m = m' := fun m m' frame eq => frame.trans (by rw [eq])
  apply procs
  · rfl
  · funext q
    by_cases child : q = p
    · subst q
      rw [withChild_procs_child _ _ _ _ _ notCurrent]
      cases kind <;> simp [modify, notCurrent.symm, born, forkDeadline]
    · by_cases own : q = k.current
      · subst q
        simp [modify, withChild, notCurrent]
      · simp [modify, withChild, child, own]

/-- `do_fork` up to its first allocation creates a descriptor that was free. -/
theorem forkAlloc_eq_ok {kind : ForkKind} (allocated : k.allocated k.current = true)
    (forked : k.forkAlloc kind p = .ok k') :
    k.allocated p = false ∧ k.current ≠ p ∧ (k.procs k.current).waitState = 0 ∧
      ∃ timeSlice rest, k' = k.withChild kind p timeSlice rest := by
  have made := forked
  obtain ⟨m, alloc, rest⟩ := bind_eq_ok_iff.mp forked
  unfold allocProc at alloc
  split at alloc
  · contradiction
  · rename_i taken
    have free : k.allocated p = false := by simpa using taken
    have notCurrent : k.current ≠ p := by
      rintro rfl
      exact taken allocated
    cases alloc
    simp only [modify_current, modify_procs_of_ne _ _ _ notCurrent] at rest
    split at rest
    · contradiction
    · rename_i awake
      split at rest
      · contradiction
      · rename_i slice
        rw [forkAlloc_of_free kind free notCurrent (not_not.mp awake) slice] at made
        cases made
        exact ⟨free, notCurrent, not_not.mp awake, _, _, rfl⟩

end Kernel

/-- The run queue does not depend on the process table. -/
theorem RunQueue.of_unlinked {k k' : Kernel} (same : k'.unlinked = k.unlinked)
    (queue : RunQueue k) : RunQueue k' := by
  have allocated : k'.allocated = k.allocated := (congrArg Kernel.allocated same :)
  have current : k'.current = k.current := (congrArg Kernel.current same :)
  have idleproc : k'.idleproc = k.idleproc := (congrArg Kernel.idleproc same :)
  apply queue.congr
  · exact (congrArg Kernel.heap same :)
  · exact (congrArg Kernel.procNum same :)
  · intro q
    have state : (k'.procs q).state = (k.procs q).state :=
      (congrArg (fun m => (m.procs q).state) same :)
    rw [Kernel.Ready, Kernel.Ready, Kernel.Contends, Kernel.Contends, allocated, current, idleproc,
      state]
  · exact fun q _ => (congrArg (fun m => (m.procs q).pt) same :)
  · exact fun q _ => (congrArg (fun m => (m.procs q).rq) same :)

/-- A new process does not compete for the processor yet. -/
theorem Kernel.withChild_contends_iff {k : Kernel} {kind : ForkKind} {child : ProcPtr}
    {timeSlice rest : Int} (free : k.allocated child = false) (notCurrent : k.current ≠ child)
    (q : ProcPtr) : (k.withChild kind child timeSlice rest).Contends q ↔ k.Contends q := by
  rw [Contends, Contends, withChild_allocated]
  by_cases new : q = child
  · subst q
    simp [withChild_procs_child _ _ _ _ _ notCurrent, free]
  · have state : ((k.withChild kind child timeSlice rest).procs q).state = (k.procs q).state :=
      (congrArg ProcStruct.state (k.withChild_procs_unlinked kind child timeSlice rest new) :)
    rw [state, Function.update_of_ne new]
    rfl

theorem RunQueue.forkAlloc {k k' : Kernel} {kind : ForkKind} {child : ProcPtr}
    (queue : RunQueue k) (allocated : k.allocated k.current = true)
    (forked : k.forkAlloc kind child = .ok k') : RunQueue k' := by
  obtain ⟨free, notCurrent, _, timeSlice, rest, rfl⟩ := Kernel.forkAlloc_eq_ok allocated forked
  have old : ∀ q, k.Ready q → ((k.withChild kind child timeSlice rest).procs q).unlinked =
      (k.procs q).unlinked := by
    intro q ready
    apply Kernel.withChild_procs_unlinked
    rintro rfl
    simp [ready.1.1] at free
  apply queue.congr
  · rfl
  · rfl
  · intro q
    rw [Kernel.Ready, Kernel.withChild_contends_iff free notCurrent]
    rfl
  · exact fun q ready => (congrArg ProcStruct.pt (old q ready) :)
  · exact fun q ready => (congrArg ProcStruct.rq (old q ready) :)

end EdfKernel
