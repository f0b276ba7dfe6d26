import EdfKernel.Process.Capacity

/-!
# A crowd of children

`do_fork` admits up to `MAX_PROCESS` processes, four times as many as the heap has places.
A user process that only forks fills the heap with its children, and its next fork does
not return.
-/

namespace EdfKernel

open Library

/-- What forking reads of the descriptor of the parent, its place apart. -/
def ProcStruct.errand (s : ProcStruct) : Bool × UInt32 × Int × Option MmPtr :=
  (s.needResched, s.flags, s.timeSlice, s.mm)

namespace Kernel

variable {k k' : Kernel} {n made linked spaced queued : Nat} {pc : Pc}

/-- The process 3 is at `pc` and has made, linked, given an address space to and queued so
many children; addresses are used in ascending order. -/
structure Forking (k : Kernel) (pc : Pc) (made linked spaced queued : Nat) : Prop where
  reachable : Reachable wrapInt32 k
  current : k.current = 3
  place : k.pc = pc
  errand : (k.procs k.current).errand = (false, 0, 0, some 0)
  free : ∀ p, made + 4 ≤ p → p ≤ maxHeapSize + 4 → k.allocated p = false
  unused : ∀ mm, spaced + 4 ≤ mm → mm ≤ maxHeapSize + 4 → k.mmAlive mm = false
  count : k.nrProcess = linked + 4
  lastPid : k.lastPid = linked + 3
  nextSafe : k.nextSafe = maxPid
  length : k.heap.entry.length = queued

namespace Forking

theorem apart (forking : k.Forking pc made linked spaced queued) : k.current ≠ n + 4 := by
  rw [forking.current]
  exact Nat.ne_of_lt (Nat.lt_of_lt_of_le (by decide) (Nat.le_add_left 4 n))

/-- The parent goes on at another place. -/
theorem goto {target : Pc} (forking : k.Forking pc made linked spaced queued)
    (reachable : Reachable wrapInt32 (k.goto target)) :
    (k.goto target).Forking target made linked spaced queued where
  reachable := reachable
  current := forking.current
  place := by simp [Kernel.pc, Kernel.goto]
  errand := (k.modify_field _ _ ProcStruct.errand rfl _).trans forking.errand
  free := forking.free
  unused := forking.unused
  count := forking.count
  lastPid := forking.lastPid
  nextSafe := forking.nextSafe
  length := forking.length

/-- The system call finds that there are fewer than `MAX_PROCESS` processes. -/
theorem call (forking : k.Forking .user n n n n) (few : n ≤ maxHeapSize) :
    ∃ k', k.step wrapInt32 (.syscall .fork) = .ok k' ∧
      k'.Forking (.work (.fork 0 .user .trap)) n n n n := by
  have notFull : ¬maxProcess ≤ k.nrProcess := by
    rw [forking.count]
    unfold maxProcess
    unfold maxHeapSize at few
    omega
  have called : k.step wrapInt32 (.syscall .fork) =
      .ok (k.goto (.work (.fork 0 .user .trap))) := by
    simp only [Kernel.step, forking.place, syscall, doFork, if_neg notFull]
  exact ⟨_, called, forking.goto (forking.reachable.step called)⟩

/-- A descriptor for the child. -/
theorem alloc (forking : k.Forking (.work (.fork 0 .user .trap)) n n n n)
    (few : n ≤ maxHeapSize) :
    ∃ k', k.step wrapInt32 (.go (n + 4)) = .ok k' ∧
      k'.Forking (.work (.forkChild 0 (n + 4) .trap)) (n + 1) n n n := by
  have inv := forking.reachable.inv
  have awake := (inv.own.running (by rw [forking.place]; rfl)).2.1
  have slice : (k.procs k.current).timeSlice = 0 :=
    congrArg (fun errand => errand.2.2.1) forking.errand
  have allocated := forkAlloc_of_free .user (forking.free (n + 4) le_rfl (by omega)) forking.apart awake
    (by rw [slice]; decide)
  rw [slice] at allocated
  have stepped : k.step wrapInt32 (.go (n + 4)) =
      .ok ((k.withChild .user (n + 4) 0 0).goto (.work (.forkChild 0 (n + 4) .trap))) := by
    simp only [Kernel.step, go, forking.place, workDone, allocated, bind, Except.bind]
    rfl
  have own : ((k.withChild .user (n + 4) 0 0).procs k.current).errand =
      (k.procs k.current).errand := by
    rw [withChild, modify_procs_of_ne _ _ _ forking.apart]
    refine (congrArg ProcStruct.errand (modify_procs_self _ _ _)).trans ?_
    simp only [ProcStruct.errand, slice]
  refine ⟨_, stepped, ?_⟩
  constructor
  · exact forking.reachable.step stepped
  · exact forking.current
  · simp [Kernel.pc, Kernel.goto]
  · refine ((k.withChild .user (n + 4) 0 0).modify_field _ _ ProcStruct.errand rfl _).trans ?_
    exact own.trans forking.errand
  · intro p le inRange
    have other : p ≠ n + 4 := by
      rintro rfl
      exact absurd le (by omega)
    exact (Function.update_of_ne other _ _).trans (forking.free p (by omega) inRange)
  · exact forking.unused
  · exact forking.count
  · exact forking.lastPid
  · exact forking.nextSafe
  · exact forking.length

theorem nextPid_of_lt {pids : List Int} {lastPid nextSafe : Int} (inRange : lastPid + 1 < maxPid)
    (safe : lastPid + 1 < nextSafe) : nextPid pids lastPid nextSafe = .ok (lastPid + 1, nextSafe) := by
  rw [nextPid, if_neg (not_le.mpr inRange), if_neg (not_le.mpr safe)]

theorem copyMm_of_unused {child : ProcPtr} {mm oldmm : MmPtr} (apart : k.current ≠ child)
    (space : (k.procs k.current).mm = some oldmm) (unused : k.mmAlive mm = false) :
    ∃ m, k.copyMm 0 child mm = .ok m ∧ m.mmAlive = Function.update k.mmAlive mm true ∧
      m.procs k.current = k.procs k.current := by
  unfold copyMm
  rw [space]
  simp only [UInt32.zero_and, ne_eq, not_true_eq_false, if_false, unused, Bool.false_eq_true]
  exact ⟨_, rfl, rfl, modify_procs_of_ne _ _ _ apart⟩

/-- `do_fork` copies the address space for the child and takes the next pid. -/
theorem forkLink (forking : k.Forking (.work (.forkChild 0 (n + 4) .trap)) (n + 1) n n n)
    (few : n ≤ maxHeapSize) :
    ∃ m used, k.forkLink 0 (n + 4) (n + 4) =
        .ok (m.linkChild 0 (n + 4) (k.lastPid + 1) maxPid) ∧
      k.CopiesMm (n + 4) used m ∧ m.mmAlive = Function.update k.mmAlive (n + 4) true ∧
      m.procs k.current = k.procs k.current := by
  have table := forking.reachable.inv.others.table
  have linkable := forking.reachable.inv.linkable forking.place
  have space : (k.procs k.current).mm = some 0 := congrArg (fun errand => errand.2.2.2) forking.errand
  obtain ⟨m, copied, spaced, kept⟩ :=
    copyMm_of_unused forking.apart space (forking.unused (n + 4) le_rfl (by omega))
  obtain ⟨used, copies⟩ := copyMm_spec linkable.spaceless table.spaces linkable.current copied
  have next : nextPid (m.procList.map fun p => (m.procs p).pid) m.lastPid m.nextSafe =
      .ok (k.lastPid + 1, maxPid) := by
    have lastPid : m.lastPid = k.lastPid := (congrArg Kernel.lastPid copies.frame :)
    have nextSafe : m.nextSafe = k.nextSafe := (congrArg Kernel.nextSafe copies.frame :)
    have below : k.lastPid + 1 < maxPid := by
      rw [forking.lastPid]
      unfold maxPid maxProcess
      unfold maxHeapSize at few
      omega
    rw [lastPid, nextSafe, forking.nextSafe]
    exact nextPid_of_lt below below
  exact ⟨m, used, bind_eq_ok_iff.mpr ⟨m, copied, bind_eq_ok_iff.mpr
    ⟨_, bind_eq_ok_iff.mpr ⟨_, next, rfl⟩, rfl⟩⟩, copies, spaced, kept⟩

/-- The child gets an address space and a pid, and its place in the process table. -/
theorem link (forking : k.Forking (.work (.forkChild 0 (n + 4) .trap)) (n + 1) n n n)
    (few : n ≤ maxHeapSize) :
    ∃ k', k.step wrapInt32 (.go (n + 4)) = .ok k' ∧
      k'.Forking (.forkWake (n + 4) .trap) (n + 1) (n + 1) (n + 1) n := by
  have table := forking.reachable.inv.others.table
  have linkable := forking.reachable.inv.linkable forking.place
  obtain ⟨m, used, linked, copies, spaced, kept⟩ := forking.forkLink few
  have links := (forkLink_links table linkable linked).1
  have unlinked := forkLink_unlinked linked
  have frame := Table.linkChild_tables copies 0 (k.lastPid + 1) maxPid k.procs
  have stepped : k.step wrapInt32 (.go (n + 4)) =
      .ok ((m.linkChild 0 (n + 4) (k.lastPid + 1) maxPid).goto (.forkWake (n + 4) .trap)) := by
    simp only [Kernel.step, go, forking.place, workDone, linked, bind, Except.bind]
    rfl
  have own : ((m.linkChild 0 (n + 4) (k.lastPid + 1) maxPid).procs k.current).errand =
      (k.procs k.current).errand := by
    rw [linkChild_procs]
    refine (congrArg ProcStruct.errand (setLinks_unrelated _ _ _ _) :).trans ?_
    exact (hashChild_field _ _ _ _ _ ProcStruct.errand fun _ => rfl).trans
      (congrArg ProcStruct.errand kept)
  refine ⟨_, stepped, ?_⟩
  constructor
  · exact forking.reachable.step stepped
  · exact links.current.trans forking.current
  · simp [Kernel.pc, Kernel.goto]
  · have moved := (m.linkChild 0 (n + 4) (k.lastPid + 1) maxPid).modify_field
      (m.linkChild 0 (n + 4) (k.lastPid + 1) maxPid).current
      (fun s => { s with kstack := { s.kstack with pc := .forkWake (n + 4) .trap } })
      ProcStruct.errand rfl k.current
    have current : ((m.linkChild 0 (n + 4) (k.lastPid + 1) maxPid).goto
        (.forkWake (n + 4) .trap)).current = k.current := links.current
    rw [current]
    exact moved.trans (own.trans forking.errand)
  · intro p le inRange
    exact (congrFun links.allocated p).trans (forking.free p le inRange)
  · intro mm le inRange
    have other : mm ≠ n + 4 := by
      rintro rfl
      exact absurd le (by omega)
    have alive : (m.linkChild 0 (n + 4) (k.lastPid + 1) maxPid).mmAlive =
        Function.update k.mmAlive (n + 4) true := (congrArg Kernel.mmAlive frame :).trans spaced
    refine (congrFun alive mm).trans ?_
    exact (Function.update_of_ne other _ _).trans (forking.unused mm (by omega) inRange)
  · have count : (m.linkChild 0 (n + 4) (k.lastPid + 1) maxPid).nrProcess = k.nrProcess + 1 :=
      (congrArg Kernel.nrProcess frame :)
    refine count.trans ?_
    rw [forking.count]
    push_cast
    omega
  · have lastPid : (m.linkChild 0 (n + 4) (k.lastPid + 1) maxPid).lastPid = k.lastPid + 1 :=
      (congrArg Kernel.lastPid frame :)
    refine lastPid.trans ?_
    rw [forking.lastPid]
    push_cast
    omega
  · exact (congrArg Kernel.nextSafe frame :)
  · have heap : (m.linkChild 0 (n + 4) (k.lastPid + 1) maxPid).heap = k.heap :=
      (congrArg Kernel.heap unlinked :)
    exact (congrArg (fun heap => heap.entry.length) heap).trans forking.length

/-- `wakeup_proc` pushes the child, if the heap has a free place. -/
theorem wake (forking : k.Forking (.forkWake (n + 4) .trap) (n + 1) (n + 1) (n + 1) n) :
    (n < maxHeapSize → ∃ k', k.step wrapInt32 (.go 0) = .ok k' ∧
      k'.Forking .tail (n + 1) (n + 1) (n + 1) (n + 1)) ∧
    (maxHeapSize ≤ n → k.step wrapInt32 (.go 0) = .error (.spin .heapPush)) := by
  have inv := forking.reachable.inv
  have own := inv.own
  rw [forking.place] at own
  obtain ⟨apart, listed, uninit, _⟩ := own.linked (n + 4) .trap rfl
  have sleeps : k.Sleeps (n + 4) := ⟨apart, by rw [uninit]; decide⟩
  have one : (k.sleeper (n + 4)).length = 1 := by simp [sleeper, sleeps]
  have pushes := wakeupProc_push (p := n + 4) (by rw [uninit]; decide)
    (fun _ => inv.others.table.listed _ listed) forking.reachable.clocked.fits
  unfold Pushes at pushes
  rw [one, forking.length] at pushes
  have steps : k.step wrapInt32 (.go 0) = k.wakeupProc (n + 4) >>= fun m =>
      .ok (m.returnTo .trap (m.procs (n + 4)).pid) := by
    simp only [Kernel.step, go, forking.place]
    rfl
  constructor
  · intro room
    obtain ⟨m, woken, fired⟩ := pushes.1 room
    have frame := wakeupProc_unwoken woken
    have stepped : k.step wrapInt32 (.go 0) = .ok (m.returnTo .trap (m.procs (n + 4)).pid) := by
      rw [steps, woken]
      rfl
    refine ⟨_, stepped, ?_⟩
    constructor
    · exact forking.reachable.step stepped
    · exact fired.current.trans forking.current
    · simp [Kernel.pc, Kernel.returnTo, Caller.pc]
    · have current : (m.returnTo .trap (m.procs (n + 4)).pid).current = k.current := fired.current
      rw [current]
      refine (m.modify_field m.current _ ProcStruct.errand rfl k.current).trans ?_
      rw [wakeupProc_procs_of_ne woken apart.symm]
      exact forking.errand
    · intro p le inRange
      exact (congrFun (congrArg Kernel.allocated frame :) p).trans (forking.free p le inRange)
    · intro mm le inRange
      exact (congrFun (congrArg Kernel.mmAlive frame :) mm).trans (forking.unused mm le inRange)
    · exact (congrArg Kernel.nrProcess frame :).trans forking.count
    · exact (congrArg Kernel.lastPid frame :).trans forking.lastPid
    · exact (congrArg Kernel.nextSafe frame :).trans forking.nextSafe
    · refine fired.length.trans ?_
      rw [one, forking.length]
  · intro full
    rw [steps, pushes.2 (Nat.lt_succ_of_le full)]
    rfl

/-- The parent returns to user mode. -/
theorem finish (forking : k.Forking .tail n n n n) :
    ∃ k', Run.exec (step wrapInt32) k [.go 0, .go 0] = .ok k' ∧ k'.Forking .user n n n n := by
  have flags : (k.procs k.current).flags = 0 := congrArg (fun errand => errand.2.1) forking.errand
  have first : k.step wrapInt32 (.go 0) = .ok (k.goto .tailResched) := by
    have alive : ¬(k.procs k.current).flags &&& pfExiting ≠ 0 := by
      rw [flags]
      decide
    simp only [Kernel.step, go, forking.place, mayKilled, if_neg alive]
  have there := forking.goto (forking.reachable.step first)
  have calm : ((k.goto .tailResched).procs (k.goto .tailResched).current).needResched = false :=
    congrArg Prod.fst there.errand
  have second : (k.goto .tailResched).step wrapInt32 (.go 0) =
      .ok ((k.goto .tailResched).goto .user) := by
    simp only [Kernel.step, go, there.place, calm, Bool.false_eq_true, if_false]
  refine ⟨_, ?_, there.goto (there.reachable.step second)⟩
  simp only [Run.exec, first, second]

/-- One fork after the other fills the heap; the one after that does not return. -/
theorem fork (forking : k.Forking .user n n n n) :
    (n < maxHeapSize → ∃ k', Run.exec (step wrapInt32) k (forked .fork (n + 4)) = .ok k' ∧
      k'.Forking .user (n + 1) (n + 1) (n + 1) (n + 1)) ∧
    (n = maxHeapSize →
      Run.exec (step wrapInt32) k (forked .fork (n + 4)) = .error (.spin .heapPush)) := by
  have prepared : n ≤ maxHeapSize → ∃ m, Run.exec (step wrapInt32) k
      [.syscall .fork, .go (n + 4), .go (n + 4)] = .ok m ∧
        m.Forking (.forkWake (n + 4) .trap) (n + 1) (n + 1) (n + 1) n := by
    intro few
    obtain ⟨k₁, called, forking₁⟩ := forking.call few
    obtain ⟨k₂, made, forking₂⟩ := forking₁.alloc few
    obtain ⟨k₃, linked, forking₃⟩ := forking₂.link few
    exact ⟨k₃, by simp only [Run.exec, called, made, linked], forking₃⟩
  have parts : forked .fork (n + 4) = [.syscall .fork, .go (n + 4), .go (n + 4)] ++
      ([.go 0] ++ [.go 0, .go 0]) := rfl
  rw [parts]
  constructor
  · intro room
    obtain ⟨m, before, there⟩ := prepared room.le
    obtain ⟨m', woken, awake⟩ := there.wake.1 room
    obtain ⟨k', after, done⟩ := awake.finish
    refine ⟨k', ?_, done⟩
    rw [Run.exec_append, before]
    simp only [bind, Except.bind, List.singleton_append, Run.exec, woken]
    exact after
  · intro full
    obtain ⟨m, before, there⟩ := prepared full.le
    rw [Run.exec_append, before]
    simp only [bind, Except.bind, List.singleton_append, Run.exec, there.wake.2 full.ge]

end Forking

/-- The forks of the first user process. -/
def forks (n : Nat) : List Event :=
  (List.range n).flatMap fun i => forked .fork (i + 4)

theorem forks_succ (n : Nat) : forks (n + 1) = forks n ++ forked .fork (n + 4) := by
  simp [forks, List.range_succ]

theorem forking_start : ∃ k, Run.exec (step wrapInt32) (boot fun _ => blank) firstUser = .ok k ∧
    k.Forking .user 0 0 0 0 := by
  obtain ⟨k, run, errand, free⟩ := Run.exec_of_decide
    (fun k : Kernel => (k.procs k.current).errand = (false, 0, 0, some 0) ∧
      ((List.range (maxHeapSize + 1)).all fun i =>
        !k.allocated (i + 4) && !k.mmAlive (i + 4)) = true)
    (by decide +kernel : (Run.exec (step wrapInt32) (boot fun _ => blank) firstUser).map _ =
      .ok true)
  obtain ⟨k', run', current, place, count, lastPid, nextSafe, length⟩ := Run.exec_of_decide
    (fun k : Kernel => k.current = 3 ∧ k.pc = .user ∧ k.nrProcess = 4 ∧ k.lastPid = 3 ∧
      k.nextSafe = maxPid ∧ k.heap.entry.length = 0)
    (by decide +kernel : (Run.exec (step wrapInt32) (boot fun _ => blank) firstUser).map _ =
      .ok true)
  cases run.symm.trans run'
  have both : ∀ p, 4 ≤ p → p ≤ maxHeapSize + 4 → k.allocated p = false ∧ k.mmAlive p = false := by
    intro p le inRange
    obtain ⟨i, rfl⟩ := Nat.exists_eq_add_of_le' le
    have unused := List.all_eq_true.mp free i (List.mem_range.mpr (by omega))
    simpa using unused
  exact ⟨k, run, ⟨_, _, run⟩, current, place, errand, fun p le inRange => (both p le inRange).1,
    fun mm le inRange => (both mm le inRange).2, count, lastPid, nextSafe, length⟩

theorem forking_run (le : n ≤ maxHeapSize) :
    ∃ k, Run.exec (step wrapInt32) (boot fun _ => blank) (firstUser ++ forks n) = .ok k ∧
      k.Forking .user n n n n := by
  induction n with
  | zero =>
      obtain ⟨k, run, forking⟩ := forking_start
      exact ⟨k, by simpa [forks] using run, forking⟩
  | succ n ih =>
      obtain ⟨k, run, forking⟩ := ih (Nat.le_of_succ_le le)
      obtain ⟨k', forked, forking'⟩ := forking.fork.1 le
      refine ⟨k', ?_, forking'⟩
      rw [forks_succ, ← List.append_assoc, Run.exec_append, run]
      exact forked

/-- The fork that finds the heap full of children does not return. -/
theorem fork_overflows :
    ¬∀ events, Run.exec (step wrapInt32) (boot fun _ => blank) events ≠
      .error (.spin .heapPush) := by
  intro never
  obtain ⟨k, run, forking⟩ := forking_run (n := maxHeapSize) le_rfl
  apply never (firstUser ++ forks (maxHeapSize + 1))
  rw [forks_succ, ← List.append_assoc, Run.exec_append, run]
  exact forking.fork.2 rfl

end Kernel

end EdfKernel
