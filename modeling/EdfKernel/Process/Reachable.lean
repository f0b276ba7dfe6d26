import EdfKernel.Process.TableSteps

/-!
# Reachable states

The invariant holds when `cpu_idle` starts and is kept by every step.
-/

namespace EdfKernel

open Library Library.LinkedList

namespace Kernel

variable {wrap : Int → Int} {k k' : Kernel} {event : Event}

/-- A step keeps the invariant. -/
theorem Inv.transition (inv : k.Inv) (transition : Transition wrap k event k') : k'.Inv := by
  cases transition with
  | skip same => exact same ▸ inv
  | move pc moves moved => exact inv.move moves moved
  | tickUser called user ticked =>
      have moves : k.pc.Moves k.flagged .tail := user ▸ .userTail
      exact (inv.move moves (goto_movedTo k _ nofun)).tick ticked
  | tick called kernel ticked => exact inv.tick ticked
  | schedule pc parks scheduled => exact inv.schedule parks scheduled
  | doExit errorCode m called source killed moved => exact inv.doExit source killed moved
  | kill pid ret m called user killed moved => exact inv.kill user killed moved
  | sleep time caller m source marked moved => exact inv.sleep source marked moved
  | wakeKswapd swapd source present asleep woken => exact inv.wakeKswapd present asleep woken
  | wakeupAll source woken => exact inv.wakeupAll source woken
  | freePages w swapd m source present marked moved =>
      exact inv.freePages source present marked moved
  | setKswapd source created moved => exact inv.setKswapd source created moved
  | forkAlloc flags kind caller child m source forked moved =>
      exact inv.forkAlloc source forked moved
  | forkFree flags child caller source moved => exact inv.forkFree source moved
  | forkLink flags child caller mm m called source linked moved => exact inv.forkLink source linked moved
  | forkWake child caller m source woken moved => exact inv.forkWake source woken moved
  | execDrop caller source moved => exact inv.execDrop source moved
  | execFinish caller mm m source loaded moved => exact inv.execFinish source loaded moved
  | reap pid caller zombie m pc source found reaped target moved =>
      refine @Inv.reap _ _ _ _ caller inv _ _ ?_ source found reaped moved
      cases caller <;> exact target
  | waitSleep pid caller source found moved => exact inv.waitSleep source moved
  | waitMark pid caller source moved => exact inv.waitMark source moved
  | delTimer caller source moved => exact inv.delTimer source moved
  | exit m source exited moved => exact inv.exit source exited moved

theorem Inv.step (inv : k.Inv) (stepped : k.step wrap event = .ok k') : k'.Inv :=
  inv.transition (.of_step stepped)

/-! ## Boot -/

section Boot

variable (memory : ProcPtr → ProcStruct)

/-- `proc_init` has found the queue as `MY_init` leaves it, and has pushed the init process. -/
theorem boot_eq_enqueue : (boot memory).myInit.myEnqueue 1 = .ok (boot memory) := by
  have linked : (boot memory).myInit.modify 1 (fun s => { s with rq := some 0 }) =
      (boot memory).myInit := by
    unfold modify
    congr 1
    funext p
    by_cases own : p = 1
    · subst own
      rfl
    · exact Function.update_of_ne own _ _
  have pushed : heapPush heapInit ⟨1, procMaxDeadline⟩ = .ok (boot memory).heap := by
    have room : ¬maxHeapSize ≤ 0 := by decide
    simp [heapPush, heapInit, room, rearrangeBottomup, rearrangeBottomupLoop, getFather, boot]
  unfold myEnqueue
  rw [linked]
  exact bind_eq_ok_iff.mpr ⟨_, pushed, rfl⟩

theorem boot_runQueue : RunQueue (boot memory) := by
  have notZero : (1 : ProcPtr) ≠ 0 := by decide
  refine ((Queued.myInit (boot memory)).enqueue not_false (boot_eq_enqueue memory)).congr rfl rfl
    (fun p => ?_) (fun _ _ => rfl) fun _ _ => rfl
  constructor
  · rintro ⟨⟨allocated, _, notIdle⟩, _⟩
    have cases : p = 0 ∨ p = 1 := by simpa [boot] using allocated
    exact .inl (cases.resolve_left notIdle)
  · rintro (rfl | none)
    · exact ⟨⟨rfl, rfl, notZero⟩, notZero⟩
    · contradiction

theorem boot_family : Family (boot memory) (fun p => if p = 0 then [1] else []) none := by
  constructor
  · intro p c
    constructor
    · intro mem
      split at mem
      · rename_i isIdle
        subst p
        rw [List.mem_singleton.mp mem]
        exact ⟨List.mem_singleton_self 1, rfl⟩
      · contradiction
    · rintro ⟨listed, parent⟩
      rw [List.mem_singleton.mp listed] at parent ⊢
      cases parent
      exact List.mem_singleton_self 1
  · intro p
    split
    · exact List.nodup_singleton 1
    · exact List.nodup_nil
  · rintro p (listed | idle) _
    · rw [List.mem_singleton.mp listed]
      rfl
    · subst idle
      exact ⟨rfl, rfl, rfl⟩
  · nofun

theorem boot_table : Table (boot memory) := by
  constructor
  · constructor
    · exact List.nodup_singleton 1
    · exact List.nodup_singleton 1
    · constructor
      · intro p mem
        rw [List.mem_singleton.mp mem]
        change (1 : Int) ≤ 1 ∧ (1 : Int) < maxPid
        decide
      · intro p mem
        rw [List.mem_singleton.mp mem]
        exact .inl le_rfl
      · exact le_rfl
      · exact le_rfl
    · intro chain p
      change p ∈ (if chain = pidHashfn 1 then [1] else []) ↔ _
      split
      · rename_i own
        subst own
        constructor
        · intro mem
          rw [List.mem_singleton.mp mem]
          exact ⟨List.mem_singleton_self 1, rfl⟩
        · exact fun both => both.1
      · rename_i other
        constructor
        · intro mem
          contradiction
        · rintro ⟨listed, hash⟩
          rw [List.mem_singleton.mp listed] at hash
          exact absurd hash.symm other
    · intro chain
      change (if chain = pidHashfn 1 then [1] else [] : List ProcPtr).Nodup
      split
      · exact List.nodup_singleton 1
      · exact List.nodup_nil
  · exact ⟨_, boot_family memory⟩
  · exact ⟨List.nodup_nil, fun p mem => by contradiction⟩
  · constructor
    · intro mm
      rfl
    · intro mm
      exact ⟨fun alive => by contradiction, fun used => absurd rfl used⟩
    · intro p listed _
      rw [List.mem_singleton.mp listed]
      rfl
    · rfl
  · rfl
  · intro p listed
    rw [List.mem_singleton.mp listed]
    exact ⟨0, rfl, .inr rfl, nofun⟩
  · rintro p (listed | idle)
    · rw [List.mem_singleton.mp listed]
      rfl
    · rw [idle]
      rfl
  · intro p listed
    rw [List.mem_singleton.mp listed]
    exact Nat.one_ne_zero
  · nofun
  · exact List.mem_singleton_self 1
  · nofun

theorem boot_inv : (boot memory).Inv := by
  constructor
  · constructor
    · exact boot_runQueue memory
    · exact boot_table memory
    · exact .inr rfl
    · intro p timed
      contradiction
    · exact List.nodup_nil
    · intro p queued
      contradiction
    · exact List.nodup_nil
    · nofun
    · intro p allocated unknown
      have cases : p = 0 ∨ p = 1 := by simpa [boot] using allocated
      rcases cases with rfl | rfl
      · exact absurd (.inr rfl) unknown
      · exact absurd (.inl (List.mem_singleton_self 1)) unknown
    · rintro p (listed | idle) other
      · rw [List.mem_singleton.mp listed]
        exact ⟨⟨.inr rfl, rfl, nofun, nofun⟩, ⟨.init, rfl, rfl⟩, nofun, nofun, nofun⟩
      · exact absurd idle other
    · rintro p (listed | idle) other
      · rw [List.mem_singleton.mp listed]
        rfl
      · exact absurd idle other
  · exact ⟨⟨⟨rfl, rfl, nofun, nofun⟩, ⟨.idle, rfl, rfl⟩, nofun, nofun, nofun⟩, .inl rfl, nofun⟩
  · nofun

end Boot

/-- The kernel can get from `boot` to `k`. -/
def Reachable (wrap : Int → Int) (k : Kernel) : Prop :=
  ∃ memory events, Run.exec (step wrap) (boot memory) events = .ok k

theorem Reachable.run (reachable : Reachable wrap k) {events : List Event}
    (run : Run.exec (Kernel.step wrap) k events = .ok k') : Reachable wrap k' := by
  obtain ⟨memory, before, reached⟩ := reachable
  refine ⟨memory, before ++ events, ?_⟩
  rw [Run.exec_append, reached]
  exact run

theorem Reachable.step (reachable : Reachable wrap k) (stepped : k.step wrap event = .ok k') :
    Reachable wrap k' :=
  @Reachable.run _ _ _ reachable [event] (by simp [Run.exec, stepped])

/-- The invariant holds in every reachable state. -/
theorem Reachable.inv (reachable : Reachable wrap k) : k.Inv := by
  obtain ⟨memory, events, run⟩ := reachable
  exact Run.exec_invariant (fun _ _ _ inv stepped => inv.step stepped) (boot_inv memory) run

/-! ## A first user process -/

/-- A descriptor in cleared memory. -/
def blank : ProcStruct where
  state := .uninit
  pid := 0
  runs := 0
  kstack := ⟨.dead, 0, 0⟩
  needResched := false
  parent := none
  mm := none
  flags := 0
  exitCode := 0
  waitState := 0
  cptr := none
  yptr := none
  optr := none
  rq := none
  timeSlice := 0
  isRT := false
  computeTime := 0
  periodTime := 0
  ct := 0
  pt := 0

/-- The init process creates `kswapd` at address 2 and `user_main` at address 3, and waits;
`kswapd` goes to sleep, and `user_main` executes a user program with the address space 0. -/
def firstUser : List Event :=
  [.go 0, .go 0, .kcall (.kernelThread .kswapdMain), .go 2, .go 0, .go 0, .go 0,
    .kcall (.kernelThread .userMain), .go 3, .go 0, .go 0, .kcall .wait, .go 0, .go 0, .go 0,
    .go 0, .kcall .wakeupAll, .kcall .sleep, .go 0, .go 0, .kcall .execve, .go 0, .go 0]

/-- A system call that creates a process at an address and returns to user mode. -/
def forked (call : Syscall) (child : ProcPtr) : List Event :=
  [.syscall call, .go child, .go child, .go 0, .go 0, .go 0]

/-! ## The process table of a reachable state -/

/-- A zombie is alone in its ring, and no ring has a zombie besides. -/
theorem threadRing_alive (table : Table k) {p q : ProcPtr} (inRing : q ∈ k.threadRing p)
    (zombie : (k.procs q).state = .zombie) : k.threadRing p = [p] ∧ q = p := by
  rcases (Rings.mem_ring_iff table.groups.disjoint).mp inRing with rfl | ⟨l, memL, memP, memQ⟩
  · have apart : p ∉ k.threadGroups.flatten :=
      fun mem => (table.groups.member p mem).2.1 zombie
    refine ⟨?_, rfl⟩
    have split := Rings.ring_eq_cons k.threadGroups p
    have nodup := Rings.ring_nodup table.groups.disjoint p
    change k.threadRing p = p :: (k.threadRing p).tail at split
    change (k.threadRing p).Nodup at nodup
    cases rest : (k.threadRing p).tail with
    | nil => rw [split, rest]
    | cons r more =>
        rw [rest] at split
        have other : r ≠ p := by
          rintro rfl
          rw [split] at nodup
          exact (List.nodup_cons.mp nodup).1 List.mem_cons_self
        have memR : r ∈ k.threadRing p := by
          rw [split]
          exact List.mem_cons_of_mem _ List.mem_cons_self
        rcases (Rings.mem_ring_iff table.groups.disjoint).mp memR with same | ⟨l, memL, memP, _⟩
        · exact absurd same.symm other
        · exact absurd (List.mem_flatten_of_mem memL memP) apart
  · exact absurd zombie (table.groups.member q (List.mem_flatten_of_mem memL memQ)).2.1

/-- The links of the process table lead to descriptors that are not free. -/
theorem table_linked_allocated (table : Table k) {p : ProcPtr} (known : k.Known p) :
    (∀ q, (k.procs p).cptr = some q → k.allocated q = true) ∧
      (p ∈ k.procList → ∀ q, ((k.procs p).parent = some q ∨ (k.procs p).optr = some q ∨
        (k.procs p).yptr = some q) → k.allocated q = true) ∧
      ∀ q ∈ k.threadRing p, k.allocated q = true := by
  obtain ⟨children, family⟩ := table.family
  have listedChild : ∀ r q, q ∈ children r → k.allocated q = true :=
    fun r q mem => table.allocated q (.inl ((family.mem_iff r q).mp mem).1)
  refine ⟨fun q first => ?_, fun listed q link => ?_, fun q inRing => ?_⟩
  · have head := (family.linked p known nofun).first_eq
    rw [first] at head
    exact listedChild p q (List.mem_of_head? head.symm)
  · obtain ⟨parent, parentEq, parentKnown, _⟩ := table.parent p listed
    have own : p ∈ children parent := (family.mem_iff parent p).mpr ⟨listed, parentEq⟩
    have linked := family.linked parent parentKnown nofun
    rcases link with isParent | older | younger
    · have same : parent = q := Option.some.inj (parentEq.symm.trans isParent)
      exact same ▸ table.allocated parent parentKnown
    · exact listedChild parent q (linked.next_mem own older)
    · rcases linked.prev_mem own younger with none | mem
      · contradiction
      · exact listedChild parent q mem
  · exact table.allocated q (threadRing_known table known inRing)

/-- The process table of a reachable state: the pids are distinct and in range, and
`find_proc` finds exactly the process with a pid; `nr_process` counts the list and
the idle process; the links of a process run through its children, each once; no
parent is a zombie, and a zombie is alone in its ring; an address space counts its
users and is torn down when it has none; and no link leads to a free descriptor. -/
theorem process_table (reachable : Reachable wrap k) :
    (k.procList.map fun p => (k.procs p).pid).Nodup ∧
      (∀ p ∈ k.procList, 1 ≤ (k.procs p).pid ∧ (k.procs p).pid < maxPid) ∧
      (∀ pid p, k.findProc pid = some p ↔ p ∈ k.procList ∧ (k.procs p).pid = pid) ∧
      k.nrProcess = k.procList.length + 1 ∧
      (∀ p, k.Known p → ∃ children,
        Linked (fun q => (k.procs q).optr) (fun q => (k.procs q).yptr) none children
          (k.procs p).cptr ∧ children.Nodup ∧
        ∀ c, c ∈ children ↔ c ∈ k.procList ∧ (k.procs c).parent = some p) ∧
      (∀ p ∈ k.procList, ∃ q, (k.procs p).parent = some q ∧ k.Known q ∧
        (k.procs q).state ≠ .zombie) ∧
      (∀ p, ∀ q ∈ k.threadRing p, (k.procs q).state = .zombie →
        k.threadRing p = [p] ∧ q = p) ∧
      ((k.procs k.idleproc).mm = none ∧ ∀ mm, k.mmCount mm =
        k.procList.countP (fun p => decide ((k.procs p).mm = some mm)) ∧
          (k.mmAlive mm = false ↔ k.mmCount mm = 0)) ∧
      (∀ chain, ∀ p ∈ k.hashList chain, k.allocated p = true) ∧
      ∀ p, k.Known p → k.allocated p = true ∧
        (∀ q, (k.procs p).cptr = some q → k.allocated q = true) ∧
        (p ∈ k.procList → ∀ q, ((k.procs p).parent = some q ∨ (k.procs p).optr = some q ∨
          (k.procs p).yptr = some q) → k.allocated q = true) ∧
        ∀ q ∈ k.threadRing p, k.allocated q = true := by
  have table := reachable.inv.others.table
  obtain ⟨children, family⟩ := table.family
  refine ⟨table.numbered.distinct, ?_, ?_, table.count, ?_, table.parent, ?_, ?_, ?_, ?_⟩
  · exact fun p listed => table.numbered.gap.range _ (List.mem_map_of_mem listed)
  · exact fun pid p => table.numbered.findProc_eq_some_iff
  · exact fun p known => ⟨children p, family.linked p known nofun, family.nodup p, family.mem_iff p⟩
  · exact fun p q inRing zombie => threadRing_alive table inRing zombie
  · refine ⟨table.spaces.idle, fun mm => ⟨table.spaces.users mm, ?_⟩⟩
    rw [← not_iff_not, Bool.not_eq_false, table.spaces.alive]
  · exact fun chain p mem => table.allocated p (.inl ((table.numbered.hashed chain p).mp mem).1)
  · exact fun p known => ⟨table.allocated p known, table_linked_allocated table known⟩

/-- A user process with two children. -/
theorem process_table_twoChildren :
    ∃ k, Run.exec (step wrapInt32) (boot fun _ => blank)
        (firstUser ++ forked .fork 4 ++ forked .fork 5) = .ok k ∧
      k.procList = [5, 4, 3, 2, 1] ∧ k.nrProcess = k.procList.length + 1 ∧
      (k.procList.map fun p => (k.procs p).pid).Nodup := by
  obtain ⟨k, run, list⟩ := Run.exec_of_decide (fun k : Kernel => k.procList = [5, 4, 3, 2, 1])
    (by decide +kernel : (Run.exec (step wrapInt32) (boot fun _ => blank)
      (firstUser ++ forked .fork 4 ++ forked .fork 5)).map _ = .ok true)
  obtain ⟨distinct, _, _, count, _⟩ := process_table ⟨_, _, run⟩
  exact ⟨k, run, list, count, distinct⟩

end Kernel

end EdfKernel
