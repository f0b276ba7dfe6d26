import EdfKernel.Sched.Heap

/-!
# The deadline scheduling class

`sched_MY.c`.  The counters `ct`, `pt` and the keys in the heap are C `int`s:
`wrap` is what storing a result in an `int` does to it, so that the same code is
read with machine integers (`wrapInt32`) or with unbounded ones (`id`).
-/

namespace EdfKernel

open Library

/-- Storing a result in a 32-bit `int`. -/
def wrapInt32 (n : Int) : Int := Int.bmod n (2 ^ 32)

namespace ProcStruct

/-- One tick of service, if the job has not received its compute time. -/
def serve (wrap : Int → Int) (s : ProcStruct) : ProcStruct :=
  if s.ct < s.computeTime then { s with ct := wrap (s.ct + 1), pt := wrap (s.pt - 1) } else s

/-- The release of the next job. -/
def release (wrap : Int → Int) (s : ProcStruct) : ProcStruct :=
  { s with needResched := true, ct := 0, pt := wrap (s.pt + s.periodTime) }

/-- The part of `MY_proc_tick` that charges a real-time process for a tick. -/
def chargeTick (wrap : Int → Int) (s : ProcStruct) : Except Stop ProcStruct :=
  let served := s.serve wrap
  if served.pt = 0 ∧ served.ct < served.computeTime then .error (.panic .currentMissed)
  else if served.ct = served.computeTime then .ok (served.release wrap)
  else .ok served

/-- One tick less to the deadline of a queued process. -/
def age (wrap : Int → Int) (s : ProcStruct) : ProcStruct :=
  { s with pt := wrap (s.pt - 1) }

/-- `tick_decrease_pt_heap` does not panic on a process it has aged. -/
def MeetsDeadline (s : ProcStruct) : Prop :=
  ¬(s.pt = 0 ∧ s.ct < s.computeTime) ∧ ¬s.pt < 0

end ProcStruct

/-- One tick less in the key of a heap entry. -/
def HeapEntry.age (wrap : Int → Int) (e : HeapEntry) : HeapEntry :=
  { e with x := wrap (e.x - 1) }

/-- The loop of `tick_decrease_pt_heap` over the positions of the heap. -/
def tickDecreasePtLoop (wrap : Int → Int) :
    List HeapEntry → (ProcPtr → ProcStruct) →
      Except Stop (List HeapEntry × (ProcPtr → ProcStruct))
  | [], procs => .ok ([], procs)
  | e :: rest, procs =>
      let proc := (procs e.proc).age wrap
      if proc.pt = 0 ∧ proc.ct < proc.computeTime then .error (.panic .queuedMissed)
      else if proc.pt < 0 then .error (.panic .queuedNegative)
      else do
        let (entry, procs) ← tickDecreasePtLoop wrap rest (Function.update procs e.proc proc)
        return (e.age wrap :: entry, procs)

/-- `heap_exist_earlier_deadline`. -/
def heapExistEarlierDeadline (heap : ProcessHeap) (deadline : Int) : Except Stop Bool := do
  let elm ← heapGettop heap
  return decide (elm.x < deadline)

namespace Kernel

/-- `MY_init`. -/
def myInit (k : Kernel) : Kernel :=
  { k with heap := heapInit, procNum := 0 }

/-- `MY_enqueue`. -/
def myEnqueue (k : Kernel) (proc : ProcPtr) : Except Stop Kernel := do
  let k := k.modify proc fun s => { s with rq := some 0 }
  let heap ← heapPush k.heap ⟨proc, (k.procs proc).pt⟩
  return { k with heap := heap, procNum := k.procNum + 1 }

/-- `MY_dequeue`: the process to remove is only named in the assertion. -/
def myDequeue (k : Kernel) (proc : ProcPtr) : Except Stop Kernel :=
  if heapEmpty k.heap ∨ (k.procs proc).rq ≠ some 0 then .error (.panic .dequeue)
  else .ok { k with heap := (heapPop k.heap).2, procNum := k.procNum - 1 }

/-- `MY_pick_next`. -/
def myPickNext (k : Kernel) : Except Stop (Option ProcPtr) :=
  if heapEmpty k.heap then .error (.panic .pickNextEmpty)
  else do
    let elm ← heapGettop k.heap
    return some elm.proc

/-- `tick_decrease_pt_heap`. -/
def tickDecreasePtHeap (wrap : Int → Int) (k : Kernel) : Except Stop Kernel := do
  let (entry, procs) ← tickDecreasePtLoop wrap k.heap.entry k.procs
  return { k with heap := ⟨entry⟩, procs := procs }

/-- The first half of `MY_proc_tick`, which concerns the current process. -/
def myChargeTick (wrap : Int → Int) (k : Kernel) (proc : ProcPtr) : Except Stop Kernel :=
  if (k.procs proc).isRT = false then
    .ok (k.modify proc fun s => { s with needResched := true })
  else do
    let charged ← (k.procs proc).chargeTick wrap
    return k.modify proc fun _ => charged

/-- `MY_proc_tick`. -/
def myProcTick (wrap : Int → Int) (k : Kernel) (proc : ProcPtr) : Except Stop Kernel := do
  let k ← myChargeTick wrap k proc
  let k ← tickDecreasePtHeap wrap k
  let earlier ← heapExistEarlierDeadline k.heap (k.procs proc).pt
  return if earlier then k.modify proc fun s => { s with needResched := true } else k

end Kernel

/-! ## The sweep over the heap -/

@[simp]
theorem HeapEntry.age_proc (wrap : Int → Int) (e : HeapEntry) : (e.age wrap).proc = e.proc :=
  rfl

@[simp]
theorem HeapEntry.age_x (wrap : Int → Int) (e : HeapEntry) : (e.age wrap).x = wrap (e.x - 1) :=
  rfl

/-- The sweep ages every entry and its process, and none of them has missed its
deadline. -/
theorem tickDecreasePtLoop_eq_ok_iff {wrap : Int → Int} {entry aged : List HeapEntry}
    {procs procs' : ProcPtr → ProcStruct} (nodup : (entry.map HeapEntry.proc).Nodup) :
    tickDecreasePtLoop wrap entry procs = .ok (aged, procs') ↔
      aged = entry.map (HeapEntry.age wrap) ∧
      procs' = (fun p => if p ∈ entry.map HeapEntry.proc then (procs p).age wrap else procs p) ∧
      ∀ e ∈ entry, ((procs e.proc).age wrap).MeetsDeadline := by
  induction entry generalizing aged procs with
  | nil =>
      simp only [tickDecreasePtLoop, Except.ok.injEq, Prod.mk.injEq, List.map_nil,
        List.not_mem_nil, if_false, false_implies, implies_true, and_true]
      constructor
      · rintro ⟨rfl, rfl⟩
        exact ⟨rfl, rfl⟩
      · rintro ⟨rfl, rfl⟩
        exact ⟨rfl, rfl⟩
  | cons e rest ih =>
      rw [List.map_cons, List.nodup_cons] at nodup
      obtain ⟨notMem, nodupRest⟩ := nodup
      have other : ∀ {e'}, e' ∈ rest → e'.proc ≠ e.proc := fun mem eq =>
        notMem (eq ▸ List.mem_map_of_mem mem)
      have restMeets : (∀ e' ∈ rest, ((Function.update procs e.proc ((procs e.proc).age wrap)
          e'.proc).age wrap).MeetsDeadline) ↔
          ∀ e' ∈ rest, ((procs e'.proc).age wrap).MeetsDeadline := by
        refine forall₂_congr fun e' mem => ?_
        rw [Function.update_of_ne (other mem)]
      have sweep : (fun p => if p ∈ rest.map HeapEntry.proc then
            (Function.update procs e.proc ((procs e.proc).age wrap) p).age wrap
          else Function.update procs e.proc ((procs e.proc).age wrap) p) =
          fun p => if p ∈ (e :: rest).map HeapEntry.proc then (procs p).age wrap
            else procs p := by
        funext p
        by_cases atE : p = e.proc
        · subst p
          simp [notMem]
        · simp [atE]
      unfold tickDecreasePtLoop
      by_cases missed : ((procs e.proc).age wrap).pt = 0 ∧
          ((procs e.proc).age wrap).ct < ((procs e.proc).age wrap).computeTime
      · simp only [if_pos missed, reduceCtorEq, false_iff]
        rintro ⟨_, _, meets⟩
        exact (meets e List.mem_cons_self).1 missed
      · by_cases negative : ((procs e.proc).age wrap).pt < 0
        · simp only [if_neg missed, if_pos negative, reduceCtorEq, false_iff]
          rintro ⟨_, _, meets⟩
          exact (meets e List.mem_cons_self).2 negative
        · simp only [if_neg missed, if_neg negative, bind_eq_ok_iff, Prod.exists]
          constructor
          · rintro ⟨restAged, restProcs, restOk, result⟩
            cases result
            obtain ⟨agedEq, procsEq, meets⟩ := (ih nodupRest).mp restOk
            refine ⟨by rw [agedEq, List.map_cons], procsEq.trans sweep, ?_⟩
            intro e' mem
            rcases List.mem_cons.mp mem with rfl | memRest
            · exact ⟨missed, negative⟩
            · exact restMeets.mp meets e' memRest
          · rintro ⟨rfl, rfl, meets⟩
            refine ⟨_, _, (ih nodupRest).mpr ⟨rfl, sweep.symm, restMeets.mpr ?_⟩, rfl⟩
            exact fun e' mem => meets e' (List.mem_cons_of_mem _ mem)

/-- The sweep only stops at a missed deadline. -/
theorem tickDecreasePtLoop_eq_error {wrap : Int → Int} {entry : List HeapEntry}
    {procs : ProcPtr → ProcStruct} {stop : Stop}
    (stopped : tickDecreasePtLoop wrap entry procs = .error stop) :
    stop = .panic .queuedMissed ∨ stop = .panic .queuedNegative := by
  induction entry generalizing procs with
  | nil => simp [tickDecreasePtLoop] at stopped
  | cons e rest ih =>
      simp only [tickDecreasePtLoop] at stopped
      split at stopped
      · cases stopped
        exact .inl rfl
      · split at stopped
        · cases stopped
          exact .inr rfl
        · rcases bind_eq_error_iff.mp stopped with inRest | ⟨_, _, impossible⟩
          · exact ih inRest
          · cases impossible

/-! ## What the operations of the class do -/

namespace Kernel

theorem myEnqueue_eq_ok {k k' : Kernel} {p : ProcPtr} (enqueued : k.myEnqueue p = .ok k') :
    ∃ heap, k.heap.entry.length < maxHeapSize ∧
      heap.entry.Perm (⟨p, (k.procs p).pt⟩ :: k.heap.entry) ∧
      (k.heap.Ordered → heap.Ordered) ∧
      k' = { k.modify p (fun s => { s with rq := some 0 }) with
        heap := heap, procNum := k.procNum + 1 } := by
  obtain ⟨heap, push, result⟩ := bind_eq_ok_iff.mp enqueued
  cases result
  obtain ⟨room, perm, ordered⟩ := heapPush_spec push
  simp only [modify_procs_self, modify_heap] at room perm ordered
  exact ⟨heap, room, perm, ordered, rfl⟩

theorem myDequeue_eq_ok {k k' : Kernel} {p : ProcPtr} (dequeued : k.myDequeue p = .ok k') :
    k.heap.entry ≠ [] ∧
      k' = { k with heap := (heapPop k.heap).2, procNum := k.procNum - 1 } := by
  unfold myDequeue at dequeued
  split at dequeued
  · contradiction
  · rename_i notAsserted
    cases dequeued
    rw [not_or, Bool.not_eq_true, heapEmpty_eq_false_iff] at notAsserted
    exact ⟨notAsserted.1, rfl⟩

theorem myPickNext_eq_ok_iff {k : Kernel} {next : Option ProcPtr} :
    k.myPickNext = .ok next ↔
      k.heap.entry ≠ [] ∧ next = some (entryAt k.heap.entry 0).proc := by
  unfold myPickNext heapGettop
  cases empty : heapEmpty k.heap with
  | true =>
      have : k.heap.entry = [] := by simpa [heapEmpty] using empty
      simp [this]
  | false =>
      have nonempty := heapEmpty_eq_false_iff.mp empty
      simp only [Bool.false_eq_true, if_false, bind_eq_ok_iff, Except.ok.injEq, pure, Except.pure,
        exists_eq_left', nonempty, ne_eq, not_false_eq_true, true_and]
      exact eq_comm

end Kernel

end EdfKernel
