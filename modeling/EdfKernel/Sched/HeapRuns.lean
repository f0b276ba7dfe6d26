import EdfKernel.Sched.MyClass

/-!
# Runs of the deadline heap

The heap between `heap_init` and any sequence of `heap_push`, `heap_pop` and
`tick_decrease_pt_heap`.
-/

namespace EdfKernel

open Library

/-- The deadline heap and the processes on it. -/
structure DeadlineHeap where
  heap : ProcessHeap
  procs : ProcPtr → ProcStruct

/-- A call of a function that changes the heap. -/
inductive HeapCall
  | push (elm : HeapEntry)
  | pop
  | decrease
  deriving DecidableEq, Repr

namespace DeadlineHeap

variable {s s' : DeadlineHeap} {call : HeapCall}

def step (s : DeadlineHeap) : HeapCall → Except Stop DeadlineHeap
  | .push elm => do
      let heap ← heapPush s.heap elm
      return { s with heap := heap }
  | .pop => .ok { s with heap := (heapPop s.heap).2 }
  | .decrease => do
      let (entry, procs) ← tickDecreasePtLoop wrapInt32 s.heap.entry s.procs
      return ⟨⟨entry⟩, procs⟩

/-- A push below the capacity, a pop of a heap that is not empty, or a decrement of keys above
the least `int`. -/
def Allows (s : DeadlineHeap) : HeapCall → Prop
  | .push _ => s.heap.entry.length < maxHeapSize
  | .pop => s.heap.entry ≠ []
  | .decrease => ∀ e ∈ s.heap.entry, wrapInt32 (e.x - 1) = e.x - 1

instance decidableAllows (s : DeadlineHeap) : (call : HeapCall) → Decidable (s.Allows call)
  | .push _ => inferInstanceAs (Decidable (_ < _))
  | .pop => inferInstanceAs (Decidable (_ ≠ _))
  | .decrease => inferInstanceAs (Decidable (∀ e ∈ s.heap.entry, _))

/-- The sweep ages every entry, also where a process is on the heap twice. -/
theorem entry_of_swept {wrap : Int → Int} {entry aged : List HeapEntry}
    {procs procs' : ProcPtr → ProcStruct}
    (swept : tickDecreasePtLoop wrap entry procs = .ok (aged, procs')) :
    aged = entry.map (HeapEntry.age wrap) := by
  induction entry generalizing aged procs with
  | nil =>
      cases swept
      rfl
  | cons e rest ih =>
      simp only [tickDecreasePtLoop] at swept
      split at swept
      · contradiction
      · split at swept
        · contradiction
        · obtain ⟨⟨more, procs''⟩, loop, result⟩ := bind_eq_ok_iff.mp swept
          cases result
          rw [ih loop, List.map_cons]

/-- Keys that all become one less keep their order. -/
theorem ordered_age (ordered : s.heap.Ordered) (allowed : s.Allows .decrease) :
    ProcessHeap.Ordered ⟨s.heap.entry.map (HeapEntry.age wrapInt32)⟩ := by
  have keys : ∀ i < s.heap.entry.length,
      keyAt (s.heap.entry.map (HeapEntry.age wrapInt32)) i = keyAt s.heap.entry i - 1 := by
    intro i inRange
    have mapped : i < (s.heap.entry.map (HeapEntry.age wrapInt32)).length := by
      simpa using inRange
    rw [keyAt, keyAt, entryAt_of_lt mapped, entryAt_of_lt inRange, List.getElem_map]
    exact allowed _ (List.getElem_mem inRange)
  have lower : BinaryHeap.Ordered ((fun x : Int => x - 1) ∘ keyAt s.heap.entry)
      s.heap.entry.length :=
    ordered.map fun _ _ _ _ le => Int.sub_le_sub_right le 1
  unfold ProcessHeap.Ordered
  rw [List.length_map]
  exact lower.congr keys

/-- Every call keeps the heap ordered. -/
theorem ordered_step (ordered : s.heap.Ordered) (allowed : s.Allows call)
    (stepped : s.step call = .ok s') : s'.heap.Ordered := by
  cases call with
  | push elm =>
      obtain ⟨heap, pushed, result⟩ := bind_eq_ok_iff.mp stepped
      cases result
      exact (heapPush_spec pushed).2.2 ordered
  | pop =>
      cases stepped
      exact (heapPop_spec allowed).2 ordered
  | decrease =>
      obtain ⟨⟨entry, procs⟩, swept, result⟩ := bind_eq_ok_iff.mp stepped
      cases result
      rw [entry_of_swept swept]
      exact ordered_age ordered allowed

theorem ordered_run {calls : List HeapCall} (ordered : s.heap.Ordered)
    (allowed : Run.Along step Allows s calls) (run : Run.exec step s calls = .ok s') :
    s'.heap.Ordered :=
  Run.exec_invariant_along (fun _ _ _ ordered allowed stepped =>
    ordered_step ordered allowed stepped) ordered allowed run

/-- After any sequence of calls no key is above the keys of its children, a push adds its
pair, a pop takes off one pair and its key is the least one, and a decrement leaves the
processes and takes one from every key. -/
theorem heap_priorityQueue (procs : ProcPtr → ProcStruct) (calls : List HeapCall)
    (allowed : Run.Along step Allows ⟨heapInit, procs⟩ calls)
    (run : Run.exec step ⟨heapInit, procs⟩ calls = .ok s) :
    (∀ i, (getLc i < s.heap.entry.length →
        keyAt s.heap.entry i ≤ keyAt s.heap.entry (getLc i)) ∧
      (getLc i + 1 < s.heap.entry.length →
        keyAt s.heap.entry i ≤ keyAt s.heap.entry (getLc i + 1))) ∧
    (∀ elm, s.Allows (.push elm) → ∃ pushed, heapPush s.heap elm = .ok pushed ∧
      pushed.entry.Perm (elm :: s.heap.entry)) ∧
    (s.Allows .pop → (heapPop s.heap).1 ∈ s.heap.entry ∧
      (∀ e ∈ s.heap.entry, (heapPop s.heap).1.x ≤ e.x) ∧
      s.heap.entry.Perm ((heapPop s.heap).1 :: (heapPop s.heap).2.entry)) ∧
    ∀ s', s.Allows .decrease → s.step .decrease = .ok s' →
      s'.heap.entry = s.heap.entry.map fun e => { e with x := e.x - 1 } := by
  have empty : (heapInit).Ordered := by
    intro i _ inRange
    contradiction
  have ordered : s.heap.Ordered := ordered_run empty allowed run
  refine ⟨fun i => ⟨fun inRange => ?_, fun inRange => ?_⟩, fun elm room => ?_,
    fun nonempty => ?_, fun s' noWrap stepped => ?_⟩
  · have le := ordered (getLc i) (Nat.succ_pos _) inRange
    rwa [getLc, BinaryHeap.parent_left] at le
  · have le := ordered (getLc i + 1) (Nat.succ_pos _) inRange
    rwa [getLc, BinaryHeap.parent_right] at le
  · obtain ⟨pushed, push⟩ := heapPush_of_lt room
    exact ⟨pushed, push, (heapPush_spec push).2.1⟩
  · have perm := (heapPop_spec nonempty).1
    exact ⟨perm.mem_iff.mpr List.mem_cons_self, fun e mem => ordered.top_le mem, perm⟩
  · obtain ⟨⟨entry, procs'⟩, swept, result⟩ := bind_eq_ok_iff.mp stepped
    cases result
    rw [entry_of_swept swept]
    refine List.map_congr_left fun e mem => ?_
    rw [HeapEntry.age, noWrap e mem]

/-- A real-time process that has ten ticks to its deadline. -/
def timely : ProcStruct where
  state := .runnable
  pid := 1
  runs := 0
  kstack := ⟨.user, 0, 0⟩
  needResched := false
  parent := none
  mm := none
  flags := 0
  exitCode := 0
  waitState := 0
  cptr := none
  yptr := none
  optr := none
  rq := some 0
  timeSlice := 0
  isRT := true
  computeTime := 1
  periodTime := 10
  ct := 0
  pt := 10

/-- Four processes, two of them with one deadline, a tick, and a pop. -/
def fourPushed : List HeapCall :=
  [.push ⟨1, 7⟩, .push ⟨2, 4⟩, .push ⟨3, 9⟩, .push ⟨4, 4⟩, .decrease, .pop]

/-- The process popped next has the other of the two least deadlines. -/
theorem heap_priorityQueue_fourPushed :
    ∃ s, Run.exec step ⟨heapInit, fun _ => timely⟩ fourPushed = .ok s ∧
      (heapPop s.heap).1.x = 3 ∧ ∀ e ∈ s.heap.entry, (heapPop s.heap).1.x ≤ e.x := by
  obtain ⟨s, run, nonempty, least⟩ := Run.exec_of_decide
    (fun s : DeadlineHeap => s.heap.entry ≠ [] ∧ (heapPop s.heap).1.x = 3)
    (by decide +kernel : (Run.exec step ⟨heapInit, fun _ => timely⟩ fourPushed).map _ = .ok true)
  obtain ⟨_, _, pop, _⟩ := heap_priorityQueue (fun _ => timely) fourPushed
    (by decide +kernel) run
  exact ⟨s, run, least, (pop nonempty).2.1⟩

end DeadlineHeap

end EdfKernel
