import EdfKernel.Sched.Core

/-!
# The run queue

What the heap holds, and what each scheduler operation does to it.  Every
operation is described by the state it leaves, written out field by field, and
by a lemma on the processes the heap holds.
-/

namespace EdfKernel

open Library

/-! ## The processes that want the processor -/

/-- A process that competes for the processor. -/
def Kernel.Contends (k : Kernel) (p : ProcPtr) : Prop :=
  k.allocated p = true ∧ (k.procs p).state = .runnable ∧ p ≠ k.idleproc

instance (k : Kernel) : DecidablePred k.Contends :=
  fun _ => inferInstanceAs (Decidable (_ ∧ _))

/-- A process that competes for the processor and does not have it. -/
def Kernel.Ready (k : Kernel) (p : ProcPtr) : Prop :=
  k.Contends p ∧ p ≠ k.current

/-- The heap holds exactly the given processes, each once and under its own
deadline, and `proc_num` counts them. -/
structure Queued (k : Kernel) (member : ProcPtr → Prop) : Prop where
  nodup : (k.heap.entry.map HeapEntry.proc).Nodup
  mem_iff : ∀ p, p ∈ k.heap.entry.map HeapEntry.proc ↔ member p
  key : ∀ e ∈ k.heap.entry, e.x = (k.procs e.proc).pt
  linked : ∀ e ∈ k.heap.entry, (k.procs e.proc).rq = some 0
  count : k.procNum = k.heap.entry.length

/-- The run queue holds exactly the processes that wait for the processor. -/
def RunQueue (k : Kernel) : Prop :=
  Queued k k.Ready

namespace Queued

variable {k k' : Kernel} {member member' : ProcPtr → Prop} {p : ProcPtr}

theorem member_of_mem (queued : Queued k member) {e : HeapEntry} (mem : e ∈ k.heap.entry) :
    member e.proc :=
  (queued.mem_iff e.proc).mp (List.mem_map_of_mem mem)

/-- The heap only depends on the deadlines and queue links of its processes. -/
theorem congr (queued : Queued k member) (heap : k'.heap = k.heap)
    (procNum : k'.procNum = k.procNum) (same : ∀ q, member' q ↔ member q)
    (pt : ∀ q, member q → (k'.procs q).pt = (k.procs q).pt)
    (rq : ∀ q, member q → (k'.procs q).rq = (k.procs q).rq) : Queued k' member' where
  nodup := heap ▸ queued.nodup
  mem_iff q := by rw [heap, queued.mem_iff, same]
  key e mem := by
    rw [heap] at mem
    rw [queued.key e mem, pt _ (queued.member_of_mem mem)]
  linked e mem := by
    rw [heap] at mem
    rw [rq _ (queued.member_of_mem mem), queued.linked e mem]
  count := by rw [procNum, heap, queued.count]

/-- `MY_init` leaves an empty queue. -/
theorem myInit (k : Kernel) : Queued k.myInit fun _ => False where
  nodup := List.nodup_nil
  mem_iff p := List.mem_nil_iff p
  key _ mem := absurd mem List.not_mem_nil
  linked _ mem := absurd mem List.not_mem_nil
  count := rfl

theorem enqueue (queued : Queued k member) (notMember : ¬member p)
    (enqueued : k.myEnqueue p = .ok k') : Queued k' fun q => q = p ∨ member q := by
  obtain ⟨heap, _, perm, _, rfl⟩ := Kernel.myEnqueue_eq_ok enqueued
  have procs := perm.map HeapEntry.proc
  have cases : ∀ e ∈ heap.entry, e = ⟨p, (k.procs p).pt⟩ ∨ e ∈ k.heap.entry :=
    fun e mem => List.mem_cons.mp (perm.mem_iff.mp mem)
  constructor
  · apply (procs.nodup_iff).mpr
    rw [List.map_cons, List.nodup_cons]
    exact ⟨fun mem => notMember ((queued.mem_iff p).mp mem), queued.nodup⟩
  · intro q
    rw [procs.mem_iff, List.map_cons, List.mem_cons, queued.mem_iff]
  · intro e mem
    rcases cases e mem with rfl | old
    · rw [Kernel.modify_procs_self]
    · rw [queued.key e old, Kernel.modify_procs]
      split
      · rename_i own
        rw [own]
      · rfl
  · intro e mem
    rcases cases e mem with rfl | old
    · rw [Kernel.modify_procs_self]
    · rw [Kernel.modify_procs]
      split
      · rfl
      · exact queued.linked e old
  · change k.procNum + 1 = (heap.entry.length : Int)
    rw [perm.length_eq, List.length_cons, queued.count]
    push_cast
    rfl

theorem dequeue (queued : Queued k member) (dequeued : k.myDequeue p = .ok k') :
    Queued k' fun q => member q ∧ q ≠ (entryAt k.heap.entry 0).proc := by
  obtain ⟨nonempty, rfl⟩ := Kernel.myDequeue_eq_ok dequeued
  have perm := (heapPop_spec nonempty).1
  rw [heapPop_fst] at perm
  have procs := perm.map HeapEntry.proc
  rw [List.map_cons] at procs
  have nodup := procs.nodup_iff.mp queued.nodup
  rw [List.nodup_cons] at nodup
  have old : ∀ e ∈ (heapPop k.heap).2.entry, e ∈ k.heap.entry :=
    fun e mem => perm.mem_iff.mpr (List.mem_cons_of_mem _ mem)
  constructor
  · exact nodup.2
  · intro q
    rw [← queued.mem_iff, procs.mem_iff, List.mem_cons]
    constructor
    · intro mem
      exact ⟨.inr mem, fun atTop => nodup.1 (atTop ▸ mem)⟩
    · rintro ⟨atTop | mem, ne⟩
      · exact absurd atTop ne
      · exact mem
  · exact fun e mem => queued.key e (old e mem)
  · exact fun e mem => queued.linked e (old e mem)
  · have length := perm.length_eq
    rw [List.length_cons] at length
    change k.procNum - 1 = ((heapPop k.heap).2.entry.length : Int)
    rw [queued.count, length]
    push_cast
    exact Int.add_sub_cancel _ _

/-- The assertion of `MY_dequeue` holds for the process at the top of the heap. -/
theorem myDequeue_top (queued : Queued k member) (nonempty : k.heap.entry ≠ []) :
    k.myDequeue (entryAt k.heap.entry 0).proc =
      .ok { k with heap := (heapPop k.heap).2, procNum := k.procNum - 1 } := by
  have linked := queued.linked _ (entryAt_zero_mem nonempty)
  simp [Kernel.myDequeue, heapEmpty, nonempty, linked]

end Queued

/-! ## What the operations leave alone -/

/-- A process without the fields that only the scheduler uses. -/
def ProcStruct.unsched (s : ProcStruct) : ProcStruct :=
  { s with needResched := false, runs := 0, rq := none }

namespace Kernel

variable {k k' : Kernel} {p : ProcPtr}

/-- The kernel without the run queue and the fields that only the scheduler uses. -/
def unsched (k : Kernel) : Kernel :=
  { k with procs := fun p => (k.procs p).unsched, heap := ⟨[]⟩, procNum := 0 }

theorem unsched_modify (k : Kernel) (p : ProcPtr) (change : ProcStruct → ProcStruct)
    (same : (change (k.procs p)).unsched = (k.procs p).unsched) :
    (k.modify p change).unsched = k.unsched := by
  have procs : (k.modify p change).unsched.procs = k.unsched.procs := by
    funext q
    by_cases own : q = p
    · subst q
      simpa [unsched] using same
    · simp [unsched, modify_procs_of_ne _ _ _ own]
  exact congrArg (fun procs => { k.unsched with procs := procs }) procs

theorem myEnqueue_unsched (enqueued : k.myEnqueue p = .ok k') : k'.unsched = k.unsched := by
  obtain ⟨heap, _, _, _, rfl⟩ := myEnqueue_eq_ok enqueued
  exact unsched_modify k p (fun s => { s with rq := some 0 }) rfl

theorem myEnqueue_heap (enqueued : k.myEnqueue p = .ok k') :
    ∃ x, heapPush k.heap ⟨p, x⟩ = .ok k'.heap := by
  obtain ⟨heap, pushed, result⟩ := bind_eq_ok_iff.mp enqueued
  cases result
  exact ⟨_, pushed⟩

theorem schedClassEnqueue_eq_ok (enqueued : k.schedClassEnqueue p = .ok k') :
    (p = k.idleproc ∧ k' = k) ∨ (p ≠ k.idleproc ∧ k.myEnqueue p = .ok k') := by
  unfold schedClassEnqueue at enqueued
  split at enqueued
  · rename_i notIdle
    exact .inr ⟨notIdle, enqueued⟩
  · rename_i idle
    cases enqueued
    exact .inl ⟨not_not.mp idle, rfl⟩

theorem schedClassEnqueue_unsched (enqueued : k.schedClassEnqueue p = .ok k') :
    k'.unsched = k.unsched := by
  rcases schedClassEnqueue_eq_ok enqueued with ⟨_, rfl⟩ | ⟨_, enqueued⟩
  · rfl
  · exact myEnqueue_unsched enqueued

/-- A process that `wakeup_proc` makes runnable. -/
def awaken (k : Kernel) (p : ProcPtr) : Kernel :=
  k.modify p fun s => { s with state := .runnable, waitState := 0 }

/-- Waking a process makes it runnable, and touches nothing but the run queue
besides. -/
theorem wakeupProc_unsched (woken : k.wakeupProc p = .ok k') :
    (k.procs p).state ≠ .zombie ∧
      (((k.procs p).state = .runnable ∧ k' = k) ∨
        ((k.procs p).state ≠ .runnable ∧ k'.unsched = (k.awaken p).unsched)) := by
  unfold wakeupProc at woken
  split at woken
  · contradiction
  · rename_i notZombie
    constructor
    · exact notZombie
    · split at woken
      · rename_i asleep
        right
        constructor
        · exact asleep
        · simp only at woken
          split at woken
          · exact schedClassEnqueue_unsched woken
          · cases woken
            rfl
      · rename_i awake
        cases woken
        exact .inl ⟨not_not.mp awake, rfl⟩

/-- Waking a process changes no other one. -/
theorem wakeupProc_procs_of_ne {q : ProcPtr} (woken : k.wakeupProc p = .ok k') (other : q ≠ p) :
    k'.procs q = k.procs q := by
  have awoken : (k.awaken p).procs q = k.procs q := modify_procs_of_ne _ _ _ other
  unfold wakeupProc at woken
  split at woken
  · cases woken
  · split at woken
    · simp only at woken
      split at woken
      · rcases schedClassEnqueue_eq_ok woken with ⟨_, rfl⟩ | ⟨_, enqueued⟩
        · exact awoken
        · obtain ⟨heap, _, _, _, rfl⟩ := myEnqueue_eq_ok enqueued
          change ((k.awaken p).modify p fun s => { s with rq := some 0 }).procs q = k.procs q
          rw [modify_procs_of_ne _ _ _ other, awoken]
      · cases woken
        exact awoken
    · cases woken
      rfl

end Kernel

/-- A process without what waking it or scheduling it changes; a zombie stays one. -/
def ProcStruct.unwoken (s : ProcStruct) : ProcStruct :=
  { s.unsched with
    state := if s.state = .zombie then .zombie else .uninit
    waitState := 0 }

namespace Kernel

variable {k k' : Kernel} {p : ProcPtr}

/-- The kernel without what waking or scheduling a process changes. -/
def unwoken (k : Kernel) : Kernel :=
  { k with procs := fun p => (k.procs p).unwoken, heap := ⟨[]⟩, procNum := 0 }

theorem unwoken_of_unsched (same : k'.unsched = k.unsched) : k'.unwoken = k.unwoken :=
  congrArg (fun m => { m with procs := fun p => (m.procs p).unwoken }) same

theorem awaken_unwoken (notZombie : (k.procs p).state ≠ .zombie) :
    (k.awaken p).unwoken = k.unwoken := by
  have procs : (k.awaken p).unwoken.procs = k.unwoken.procs := by
    funext q
    refine k.modify_field p _ ProcStruct.unwoken ?_ q
    simp [ProcStruct.unwoken, ProcStruct.unsched, notZombie]
  exact congrArg (fun procs => { k.unwoken with procs := procs }) procs

theorem wakeupProc_unwoken (woken : k.wakeupProc p = .ok k') : k'.unwoken = k.unwoken := by
  obtain ⟨notZombie, ⟨_, rfl⟩ | ⟨_, wake⟩⟩ := wakeupProc_unsched woken
  · rfl
  · exact (unwoken_of_unsched wake).trans (awaken_unwoken notZombie)

/-- The process `schedule` is called in, no longer marked for it. -/
def clearResched (k : Kernel) : Kernel :=
  k.modify k.current fun s => { s with needResched := false }

theorem requeue_eq (k : Kernel) :
    k.requeue = if (k.procs k.current).state = .runnable then
      k.clearResched.schedClassEnqueue k.current else .ok k.clearResched := by
  simp [requeue, clearResched]

theorem requeue_unsched (requeued : k.requeue = .ok k') : k'.unsched = k.unsched := by
  have cleared : k.clearResched.unsched = k.unsched := unsched_modify k k.current _ rfl
  rw [requeue_eq] at requeued
  split at requeued
  · exact (schedClassEnqueue_unsched requeued).trans cleared
  · cases requeued
    exact cleared

/-- The process that `MY_pick_next` returns is the one that `MY_dequeue` removes. -/
theorem switchNext_eq_ok (switched : k.switchNext = .ok k') :
    k.heap.entry ≠ [] ∧
      k' = { k.modify (entryAt k.heap.entry 0).proc (fun s => { s with runs := s.runs + 1 }) with
        heap := (heapPop k.heap).2
        procNum := k.procNum - 1
        current := (entryAt k.heap.entry 0).proc } := by
  unfold switchNext at switched
  simp only [bind_eq_ok_iff] at switched
  obtain ⟨next, pick, dequeued, dequeue, result⟩ := switched
  obtain ⟨nonempty, rfl⟩ := myPickNext_eq_ok_iff.mp pick
  obtain ⟨_, rfl⟩ := myDequeue_eq_ok dequeue
  cases result
  exact ⟨nonempty, rfl⟩

theorem switchNext_unsched (switched : k.switchNext = .ok k') :
    k'.unsched = { k.unsched with current := k'.current } := by
  obtain ⟨_, rfl⟩ := switchNext_eq_ok switched
  exact congrArg (fun m => { m with current := (entryAt k.heap.entry 0).proc })
    (unsched_modify k _ (fun s => { s with runs := s.runs + 1 }) rfl)

/-- Switching processes touches nothing but the run queue and `current`. -/
theorem schedule_unsched (scheduled : k.schedule = .ok k') :
    k'.unsched = { k.unsched with current := k'.current } := by
  obtain ⟨requeued, requeue, switch⟩ := bind_eq_ok_iff.mp scheduled
  rw [switchNext_unsched switch, requeue_unsched requeue]

theorem contends_iff_of_unsched (same : k'.unsched = { k.unsched with current := k'.current })
    (q : ProcPtr) : k'.Contends q ↔ k.Contends q := by
  have allocated : k'.allocated = k.allocated := (congrArg Kernel.allocated same :)
  have idleproc : k'.idleproc = k.idleproc := (congrArg Kernel.idleproc same :)
  have state : (k'.procs q).state = (k.procs q).state :=
    (congrArg (fun m => (m.procs q).state) same :)
  rw [Contends, Contends, allocated, idleproc, state]

end Kernel

/-! ## Waking and switching -/

/-- Waking a process at most pushes it on the heap. -/
theorem Kernel.wakeupProc_heap {k k' : Kernel} {p : ProcPtr} (woken : k.wakeupProc p = .ok k') :
    k'.heap = k.heap ∨ ∃ x, heapPush k.heap ⟨p, x⟩ = .ok k'.heap := by
  unfold Kernel.wakeupProc at woken
  split at woken
  · contradiction
  · split at woken
    · simp only at woken
      split at woken
      · rcases Kernel.schedClassEnqueue_eq_ok woken with ⟨_, rfl⟩ | ⟨_, enqueued⟩
        · exact .inl rfl
        · obtain ⟨x, pushed⟩ := Kernel.myEnqueue_heap enqueued
          exact .inr ⟨x, pushed⟩
      · cases woken
        exact .inl rfl
    · cases woken
      exact .inl rfl

theorem Kernel.wakeupProc_ordered {k k' : Kernel} {p : ProcPtr} (ordered : k.heap.Ordered)
    (woken : k.wakeupProc p = .ok k') : k'.heap.Ordered := by
  rcases Kernel.wakeupProc_heap woken with same | ⟨x, pushed⟩
  · exact same ▸ ordered
  · exact (heapPush_spec pushed).2.2 ordered

/-- Putting the current process back at most pushes it on the heap. -/
theorem Kernel.requeue_heap {k k' : Kernel} (requeued : k.requeue = .ok k') :
    k'.heap = k.heap ∨ ∃ x, heapPush k.heap ⟨k.current, x⟩ = .ok k'.heap := by
  rw [Kernel.requeue_eq] at requeued
  split at requeued
  · rcases Kernel.schedClassEnqueue_eq_ok requeued with ⟨_, rfl⟩ | ⟨_, enqueued⟩
    · exact .inl rfl
    · obtain ⟨x, pushed⟩ := Kernel.myEnqueue_heap enqueued
      exact .inr ⟨x, pushed⟩
  · cases requeued
    exact .inl rfl

theorem Kernel.requeue_ordered {k k' : Kernel} (ordered : k.heap.Ordered)
    (requeued : k.requeue = .ok k') : k'.heap.Ordered := by
  rcases Kernel.requeue_heap requeued with same | ⟨x, pushed⟩
  · exact same ▸ ordered
  · exact (heapPush_spec pushed).2.2 ordered

/-- The process that `schedule` takes from an ordered heap: of two that are due at once the current
one comes last, and of those on the heap the one at the top comes first. -/
def Kernel.foremost (k : Kernel) : ProcPtr :=
  if k.Contends k.current ∧
      (k.heap.entry = [] ∨ (k.procs k.current).pt < keyAt k.heap.entry 0) then k.current
  else (entryAt k.heap.entry 0).proc

/-- Switching processes keeps the heap ordered. -/
theorem Kernel.schedule_ordered {k k' : Kernel} (ordered : k.heap.Ordered)
    (scheduled : k.schedule = .ok k') : k'.heap.Ordered := by
  obtain ⟨requeued, requeue, switch⟩ := bind_eq_ok_iff.mp scheduled
  obtain ⟨nonempty, rfl⟩ := Kernel.switchNext_eq_ok switch
  exact (heapPop_spec nonempty).2 (Kernel.requeue_ordered ordered requeue)

namespace RunQueue

variable {k k' : Kernel} {p : ProcPtr}

/-- The run queue only depends on what the scheduler sees of the processes. -/
theorem congr (queue : RunQueue k) (heap : k'.heap = k.heap) (procNum : k'.procNum = k.procNum)
    (ready : ∀ q, k'.Ready q ↔ k.Ready q)
    (pt : ∀ q, k.Ready q → (k'.procs q).pt = (k.procs q).pt)
    (rq : ∀ q, k.Ready q → (k'.procs q).rq = (k.procs q).rq) : RunQueue k' :=
  Queued.congr queue heap procNum ready pt rq

theorem ready_iff_mem (queue : RunQueue k) (q : ProcPtr) :
    k.Ready q ↔ q ∈ k.heap.entry.map HeapEntry.proc :=
  (queue.mem_iff q).symm

/-- A process that is woken enters the queue, unless it is the current one. -/
theorem wakeupProc (queue : RunQueue k) (allocated : k.allocated p = true)
    (notIdle : p ≠ k.idleproc) (woken : k.wakeupProc p = .ok k') : RunQueue k' := by
  unfold Kernel.wakeupProc at woken
  split at woken
  · contradiction
  · split at woken
    · rename_i _ asleep
      change (if p ≠ k.current then (k.awaken p).schedClassEnqueue p else .ok (k.awaken p)) =
        .ok k' at woken
      have notReady : ¬k.Ready p := fun ready => asleep ready.1.2.1
      have others : ∀ q, q ≠ p → (k.awaken p).procs q = k.procs q :=
        fun q ne => Kernel.modify_procs_of_ne _ _ _ ne
      have marked : Queued (k.awaken p) k.Ready := by
        refine Queued.congr queue rfl rfl (fun _ => Iff.rfl) ?_ ?_
        · intro q ready
          rw [others q (fun own => notReady (own ▸ ready))]
        · intro q ready
          rw [others q (fun own => notReady (own ▸ ready))]
      split at woken
      · rename_i notCurrent
        rcases Kernel.schedClassEnqueue_eq_ok woken with ⟨idle, _⟩ | ⟨_, enqueued⟩
        · exact absurd idle notIdle
        · have frame := Kernel.myEnqueue_unsched enqueued
          have current : k'.current = k.current := (congrArg Kernel.current frame :)
          have queued := marked.enqueue notReady enqueued
          apply queued.congr rfl rfl ?_ (fun _ _ => rfl) (fun _ _ => rfl)
          intro q
          have competes : k'.Contends q ↔ (k.awaken p).Contends q :=
            Kernel.contends_iff_of_unsched (by rw [frame, current]; rfl) q
          rw [Kernel.Ready, competes, current]
          by_cases own : q = p
          · subst q
            have : (k.awaken p).Contends p := ⟨allocated, by simp [Kernel.awaken], notIdle⟩
            simp [this, notCurrent]
          · have same : (k.awaken p).Contends q ↔ k.Contends q := by
              rw [Kernel.Contends, others q own]
              rfl
            rw [same]
            simp [own, Kernel.Ready]
      · rename_i current
        cases woken
        apply marked.congr rfl rfl ?_ (fun _ _ => rfl) (fun _ _ => rfl)
        intro q
        by_cases own : q = p
        · subst q
          constructor
          · intro ready
            exact absurd (not_not.mp current) ready.2
          · intro ready
            exact absurd ready notReady
        · rw [Kernel.Ready, Kernel.Contends, others q own]
          rfl
    · cases woken
      exact queue

/-- After the first half of `schedule` the queue holds every process that competes
for the processor. -/
theorem requeue (queue : RunQueue k) (allocated : k.allocated k.current = true)
    (requeued : k.requeue = .ok k') : Queued k' k.Contends := by
  have cleared : Queued k.clearResched k.Ready := by
    refine Queued.congr queue rfl rfl (fun _ => Iff.rfl) ?_ ?_
    · intro q ready
      rw [Kernel.clearResched, Kernel.modify_procs_of_ne _ _ _ ready.2]
    · intro q ready
      rw [Kernel.clearResched, Kernel.modify_procs_of_ne _ _ _ ready.2]
  have alone : ¬k.Contends k.current → ∀ q, k.Contends q ↔ k.Ready q := by
    intro notContends q
    constructor
    · intro contends
      exact ⟨contends, fun own => notContends (own ▸ contends)⟩
    · exact And.left
  rw [Kernel.requeue_eq] at requeued
  split at requeued
  · rename_i runnable
    rcases Kernel.schedClassEnqueue_eq_ok requeued with ⟨idle, rfl⟩ | ⟨notIdle, enqueued⟩
    · exact cleared.congr rfl rfl (alone fun contends => contends.2.2 idle)
        (fun _ _ => rfl) (fun _ _ => rfl)
    · have queued := cleared.enqueue (fun ready => ready.2 rfl) enqueued
      apply queued.congr rfl rfl ?_ (fun _ _ => rfl) (fun _ _ => rfl)
      intro q
      by_cases own : q = k.current
      · subst q
        simp [Kernel.Contends, allocated, runnable]
        exact notIdle
      · simp [own, Kernel.Ready]
  · rename_i notRunnable
    cases requeued
    exact cleared.congr rfl rfl (alone fun contends => notRunnable contends.2.1)
      (fun _ _ => rfl) (fun _ _ => rfl)

/-- `schedule` leaves the queue without the process it has chosen. -/
theorem schedule (queue : RunQueue k) (allocated : k.allocated k.current = true)
    (scheduled : k.schedule = .ok k') : RunQueue k' ∧ k'.Contends k'.current := by
  have frame := Kernel.schedule_unsched scheduled
  have competes := Kernel.contends_iff_of_unsched frame
  obtain ⟨requeued, requeue, switch⟩ := bind_eq_ok_iff.mp scheduled
  have same := Kernel.requeue_unsched requeue
  have queued := queue.requeue allocated requeue
  obtain ⟨nonempty, switched⟩ := Kernel.switchNext_eq_ok switch
  have current : k'.current = (entryAt requeued.heap.entry 0).proc := congrArg Kernel.current switched
  constructor
  · apply (queued.dequeue (queued.myDequeue_top nonempty)).congr
    · rw [switched]
    · rw [switched]
    · intro q
      rw [Kernel.Ready, competes, current]
    · intro q _
      exact ((congrArg (fun m => (m.procs q).pt) frame :)).trans
        (congrArg (fun m => (m.procs q).pt) same :).symm
    · intro q _
      rw [switched]
      exact requeued.modify_field _ (fun s => { s with runs := s.runs + 1 }) ProcStruct.rq rfl q
  · rw [competes, current]
    exact queued.member_of_mem (entryAt_zero_mem nonempty)

/-- From an ordered heap `schedule` chooses a process that is due no later than any
that competes with it. -/
theorem schedule_first (queue : RunQueue k) (ordered : k.heap.Ordered)
    (allocated : k.allocated k.current = true) (scheduled : k.schedule = .ok k') :
    ∀ p, k'.Contends p → (k'.procs k'.current).pt ≤ (k'.procs p).pt := by
  intro p contends
  have frame := Kernel.schedule_unsched scheduled
  have competes := Kernel.contends_iff_of_unsched frame
  obtain ⟨requeued, requeue, switch⟩ := bind_eq_ok_iff.mp scheduled
  have same := Kernel.requeue_unsched requeue
  have queued := queue.requeue allocated requeue
  obtain ⟨nonempty, switched⟩ := Kernel.switchNext_eq_ok switch
  have current : k'.current = (entryAt requeued.heap.entry 0).proc := congrArg Kernel.current switched
  have pt : ∀ q, (k'.procs q).pt = (requeued.procs q).pt := fun q =>
    ((congrArg (fun m => (m.procs q).pt) frame :)).trans
      (congrArg (fun m => (m.procs q).pt) same :).symm
  obtain ⟨e, mem, rfl⟩ := List.mem_map.mp ((queued.mem_iff p).mpr ((competes p).mp contends))
  have least := (Kernel.requeue_ordered ordered requeue).top_le mem
  rw [queued.key e mem, queued.key _ (entryAt_zero_mem nonempty), ← current] at least
  rw [pt, pt]
  exact least

/-- From an ordered heap `schedule` chooses the current process if that competes and is due before
the process at the top of the heap, and the one at the top if not. -/
theorem schedule_foremost (ordered : k.heap.Ordered) (allocated : k.allocated k.current = true)
    (scheduled : k.schedule = .ok k') : k'.current = k.foremost := by
  obtain ⟨requeued, requeue, switch⟩ := bind_eq_ok_iff.mp scheduled
  obtain ⟨nonempty, switched⟩ := Kernel.switchNext_eq_ok switch
  have current : k'.current = (entryAt requeued.heap.entry 0).proc := congrArg Kernel.current switched
  have stays : ¬k.Contends k.current → requeued.heap = k.heap → k'.current = k.foremost := by
    intro alone same
    rw [same] at current nonempty
    rw [Kernel.foremost, if_neg fun first => alone first.1, current]
  rw [Kernel.requeue_eq] at requeue
  split at requeue
  · rename_i runnable
    rcases Kernel.schedClassEnqueue_eq_ok requeue with ⟨idle, rfl⟩ | ⟨notIdle, enqueued⟩
    · exact stays (fun contends => contends.2.2 idle) rfl
    · obtain ⟨heap, pushed, result⟩ := bind_eq_ok_iff.mp enqueued
      have top := heapPush_top ordered pushed
      have pt : ((k.clearResched.modify k.current fun s => { s with rq := some 0 }).procs
          k.current).pt = (k.procs k.current).pt := by
        simp [Kernel.clearResched]
      rw [pt] at top
      cases result
      rw [current, Kernel.foremost]
      change (entryAt heap.entry 0).proc = _
      rw [top]
      by_cases first : k.heap.entry = [] ∨ (k.procs k.current).pt < keyAt k.heap.entry 0
      · rw [if_pos first, if_pos ⟨⟨allocated, runnable, notIdle⟩, first⟩]
      · rw [if_neg first, if_neg fun both => first both.2]
  · rename_i notRunnable
    cases requeue
    exact stays (fun contends => notRunnable contends.2.1) rfl

/-- A process that competes can always be switched away from, if the heap has room
for it. -/
theorem schedule_of_lt (queue : RunQueue k) (contends : k.Contends k.current)
    (room : k.heap.entry.length < maxHeapSize) : ∃ k', k.schedule = .ok k' := by
  have requeued : ∃ m, k.requeue = .ok m := by
    obtain ⟨heap, push⟩ : ∃ heap, heapPush k.heap ⟨k.current, (k.procs k.current).pt⟩ = .ok heap :=
      heapPush_of_lt room
    have enqueued : k.clearResched.schedClassEnqueue k.current =
        k.clearResched.myEnqueue k.current := if_pos contends.2.2
    rw [Kernel.requeue_eq, if_pos contends.2.1, enqueued]
    refine ⟨_, bind_eq_ok_iff.mpr ⟨heap, ?_, rfl⟩⟩
    simpa [Kernel.clearResched] using push
  obtain ⟨m, requeued⟩ := requeued
  have queued := queue.requeue contends.1 requeued
  have nonempty : m.heap.entry ≠ [] := by
    intro empty
    have mem := (queued.mem_iff k.current).mpr contends
    rw [empty] at mem
    contradiction
  have switched : ∃ k', m.switchNext = .ok k' := by
    have pick := Kernel.myPickNext_eq_ok_iff.mpr ⟨nonempty, rfl⟩
    simp only [Kernel.switchNext, pick, queued.myDequeue_top nonempty, bind, Except.bind]
    exact ⟨_, rfl⟩
  obtain ⟨k', switched⟩ := switched
  exact ⟨k', bind_eq_ok_iff.mpr ⟨m, requeued, switched⟩⟩

end RunQueue

/-! ## The timer tick -/

/-- A process without the fields that only the scheduler uses and without the
counters that a tick changes. -/
def ProcStruct.untimed (s : ProcStruct) : ProcStruct :=
  { s.unsched with ct := 0, pt := 0 }

namespace Kernel

variable {wrap : Int → Int} {k k' : Kernel} {p : ProcPtr}

/-- The kernel without the run queue and without the counters that a tick changes. -/
def untimed (k : Kernel) : Kernel :=
  { k with procs := fun p => (k.procs p).untimed, heap := ⟨[]⟩, procNum := 0 }

theorem untimed_modify (k : Kernel) (p : ProcPtr) (change : ProcStruct → ProcStruct)
    (same : (change (k.procs p)).untimed = (k.procs p).untimed) :
    (k.modify p change).untimed = k.untimed := by
  have procs : (k.modify p change).untimed.procs = k.untimed.procs :=
    funext (k.modify_field p change ProcStruct.untimed same)
  exact congrArg (fun procs => { k.untimed with procs := procs }) procs

/-- Every queued process and its heap entry one tick later. -/
def aged (wrap : Int → Int) (k : Kernel) : Kernel :=
  { k with
    heap := ⟨k.heap.entry.map (HeapEntry.age wrap)⟩
    procs := fun p =>
      if p ∈ k.heap.entry.map HeapEntry.proc then (k.procs p).age wrap else k.procs p }

theorem aged_untimed (wrap : Int → Int) (k : Kernel) : (k.aged wrap).untimed = k.untimed := by
  have procs : (k.aged wrap).untimed.procs = k.untimed.procs := by
    funext q
    change (if _ then _ else _ : ProcStruct).untimed = _
    split <;> rfl
  exact congrArg (fun procs => { k.untimed with procs := procs }) procs

theorem tickDecreasePtHeap_eq_ok_iff (nodup : (k.heap.entry.map HeapEntry.proc).Nodup) :
    k.tickDecreasePtHeap wrap = .ok k' ↔
      k' = k.aged wrap ∧ ∀ e ∈ k.heap.entry, ((k.procs e.proc).age wrap).MeetsDeadline := by
  unfold tickDecreasePtHeap
  rw [bind_eq_ok_iff]
  constructor
  · rintro ⟨⟨entry, procs⟩, sweep, result⟩
    obtain ⟨rfl, rfl, meets⟩ := (tickDecreasePtLoop_eq_ok_iff nodup).mp sweep
    cases result
    exact ⟨rfl, meets⟩
  · rintro ⟨rfl, meets⟩
    exact ⟨_, (tickDecreasePtLoop_eq_ok_iff nodup).mpr ⟨rfl, rfl, meets⟩, rfl⟩

/-- What the first half of `MY_proc_tick` does to the process. -/
theorem myChargeTick_eq_ok (charged : k.myChargeTick wrap p = .ok k') :
    ((k.procs p).isRT = false ∧ k' = k.modify p fun s => { s with needResched := true }) ∨
      ((k.procs p).isRT = true ∧ ∃ s, (k.procs p).chargeTick wrap = .ok s ∧
        k' = k.modify p fun _ => s) := by
  unfold myChargeTick at charged
  split at charged
  · rename_i notRT
    cases charged
    exact .inl ⟨notRT, rfl⟩
  · rename_i realTime
    obtain ⟨s, served, result⟩ := bind_eq_ok_iff.mp charged
    cases result
    exact .inr ⟨by simpa using realTime, s, served, rfl⟩

end Kernel

theorem ProcStruct.chargeTick_untimed {wrap : Int → Int} {s s' : ProcStruct}
    (charged : s.chargeTick wrap = .ok s') : s'.untimed = s.untimed := by
  have served : (s.serve wrap).untimed = s.untimed := by
    unfold serve
    split <;> rfl
  simp only [chargeTick] at charged
  split at charged
  · contradiction
  · split at charged <;> cases charged <;> exact served

namespace Kernel

variable {wrap : Int → Int} {k k' : Kernel} {p : ProcPtr}

theorem myChargeTick_untimed (charged : k.myChargeTick wrap p = .ok k') :
    k'.untimed = k.untimed := by
  rcases myChargeTick_eq_ok charged with ⟨_, rfl⟩ | ⟨_, s, served, rfl⟩
  · exact untimed_modify k p _ rfl
  · exact untimed_modify k p _ (ProcStruct.chargeTick_untimed served)

theorem myChargeTick_heap (charged : k.myChargeTick wrap p = .ok k') : k'.heap = k.heap := by
  rcases myChargeTick_eq_ok charged with ⟨_, rfl⟩ | ⟨_, _, _, rfl⟩ <;> rfl

/-- A tick that does not panic: the process is charged, the queue is aged, and the
process is marked if a queued one is due earlier. -/
theorem myProcTick_eq_ok_iff (nodup : (k.heap.entry.map HeapEntry.proc).Nodup) :
    k.myProcTick wrap p = .ok k' ↔
      ∃ m, k.myChargeTick wrap p = .ok m ∧
        (∀ e ∈ m.heap.entry, ((m.procs e.proc).age wrap).MeetsDeadline) ∧
        (m.aged wrap).heap.entry ≠ [] ∧
        k' = if (entryAt (m.aged wrap).heap.entry 0).x < ((m.aged wrap).procs p).pt then
            (m.aged wrap).modify p fun s => { s with needResched := true }
          else m.aged wrap := by
  unfold myProcTick
  simp only [bind_eq_ok_iff]
  have earlier : ∀ (m : Kernel) (found : Bool),
      heapExistEarlierDeadline m.heap (m.procs p).pt = .ok found ↔
        m.heap.entry ≠ [] ∧ found = decide ((entryAt m.heap.entry 0).x < (m.procs p).pt) := by
    intro m found
    unfold heapExistEarlierDeadline heapGettop
    cases empty : heapEmpty m.heap with
    | true =>
        have : m.heap.entry = [] := by simpa [heapEmpty] using empty
        simp [this, bind, Except.bind]
    | false =>
        have nonempty := heapEmpty_eq_false_iff.mp empty
        simp [nonempty, bind, Except.bind, pure, Except.pure, eq_comm]
  constructor
  · rintro ⟨m, charged, aged, sweep, found, exists_, result⟩
    rw [← myChargeTick_heap charged] at nodup
    obtain ⟨rfl, meets⟩ := (tickDecreasePtHeap_eq_ok_iff nodup).mp sweep
    obtain ⟨nonempty, rfl⟩ := (earlier _ _).mp exists_
    cases result
    refine ⟨m, charged, meets, nonempty, ?_⟩
    simp
  · rintro ⟨m, charged, meets, nonempty, rfl⟩
    rw [← myChargeTick_heap charged] at nodup
    refine ⟨m, charged, _, (tickDecreasePtHeap_eq_ok_iff nodup).mpr ⟨rfl, meets⟩, _,
      (earlier _ _).mpr ⟨nonempty, rfl⟩, ?_⟩
    simp [pure, Except.pure]

theorem myProcTick_untimed (nodup : (k.heap.entry.map HeapEntry.proc).Nodup)
    (ticked : k.myProcTick wrap p = .ok k') : k'.untimed = k.untimed := by
  obtain ⟨m, charged, _, _, rfl⟩ := (myProcTick_eq_ok_iff nodup).mp ticked
  have aged : (m.aged wrap).untimed = k.untimed :=
    (aged_untimed wrap m).trans (myChargeTick_untimed charged)
  split
  · exact (untimed_modify _ p _ rfl).trans aged
  · exact aged

end Kernel

namespace RunQueue

variable {wrap : Int → Int} {k k' : Kernel} {p : ProcPtr}

/-- Ageing changes the keys and the deadlines alike. -/
theorem aged (queue : RunQueue k) (wrap : Int → Int) : RunQueue (k.aged wrap) := by
  have procs : (k.aged wrap).heap.entry.map HeapEntry.proc = k.heap.entry.map HeapEntry.proc := by
    simp [Kernel.aged, Function.comp_def]
  have inQueue : ∀ e ∈ k.heap.entry,
      (k.aged wrap).procs e.proc = (k.procs e.proc).age wrap :=
    fun e mem => if_pos (List.mem_map_of_mem mem)
  constructor
  · rw [procs]
    exact queue.nodup
  · intro q
    have state : ((k.aged wrap).procs q).state = (k.procs q).state :=
      (congrArg (fun m => (m.procs q).state) (Kernel.aged_untimed wrap k) :)
    rw [procs, queue.mem_iff, Kernel.Ready, Kernel.Ready, Kernel.Contends, Kernel.Contends, state]
    rfl
  · intro e mem
    obtain ⟨e, memOld, rfl⟩ := List.mem_map.mp mem
    rw [HeapEntry.age_proc, inQueue e memOld, HeapEntry.age_x, queue.key e memOld]
    rfl
  · intro e mem
    obtain ⟨e, memOld, rfl⟩ := List.mem_map.mp mem
    rw [HeapEntry.age_proc, inQueue e memOld]
    exact queue.linked e memOld
  · exact queue.count.trans (by simp [Kernel.aged])

/-- A change of the current process keeps the queue. -/
theorem modify_current (queue : RunQueue k) (change : ProcStruct → ProcStruct) :
    RunQueue (k.modify k.current change) := by
  refine queue.congr rfl rfl ?_ ?_ ?_
  · intro q
    by_cases own : q = k.current
    · subst q
      simp [Kernel.Ready]
    · rw [Kernel.Ready, Kernel.Contends, Kernel.modify_procs_of_ne _ _ _ own]
      rfl
  · intro q ready
    rw [Kernel.modify_procs_of_ne _ _ _ ready.2]
  · intro q ready
    rw [Kernel.modify_procs_of_ne _ _ _ ready.2]

theorem myProcTick (queue : RunQueue k) (ticked : k.myProcTick wrap k.current = .ok k') :
    RunQueue k' := by
  obtain ⟨m, charged, _, _, rfl⟩ := (Kernel.myProcTick_eq_ok_iff queue.nodup).mp ticked
  have charge : ∃ change, m = k.modify k.current change := by
    rcases Kernel.myChargeTick_eq_ok charged with ⟨_, rfl⟩ | ⟨_, _, _, rfl⟩
    · exact ⟨_, rfl⟩
    · exact ⟨_, rfl⟩
  obtain ⟨change, rfl⟩ := charge
  have aged : RunQueue ((k.modify k.current change).aged wrap) :=
    (queue.modify_current change).aged wrap
  split
  · exact aged.modify_current _
  · exact aged

end RunQueue

/-- Ageing keeps the heap ordered, if it keeps the order of the keys it holds. -/
theorem Kernel.aged_ordered {wrap : Int → Int} {k : Kernel} (ordered : k.heap.Ordered)
    (mono : ∀ e ∈ k.heap.entry, ∀ e' ∈ k.heap.entry,
      e.x ≤ e'.x → wrap (e.x - 1) ≤ wrap (e'.x - 1)) : (k.aged wrap).heap.Ordered := by
  have keys : ∀ i < k.heap.entry.length,
      keyAt (k.aged wrap).heap.entry i = wrap (keyAt k.heap.entry i - 1) := by
    intro i inRange
    simp [keyAt, entryAt, Kernel.aged, inRange]
  have inHeap : ∀ i < k.heap.entry.length, ∃ e ∈ k.heap.entry, keyAt k.heap.entry i = e.x :=
    fun i inRange => ⟨k.heap.entry[i], List.getElem_mem inRange, by
      rw [keyAt, entryAt_of_lt inRange]⟩
  have mapped : BinaryHeap.Ordered ((fun x => wrap (x - 1)) ∘ keyAt k.heap.entry)
      k.heap.entry.length := by
    apply BinaryHeap.Ordered.map ordered
    intro i j iRange jRange le
    obtain ⟨e, mem, eq⟩ := inHeap i iRange
    obtain ⟨e', mem', eq'⟩ := inHeap j jRange
    rw [eq, eq'] at le ⊢
    exact mono e mem e' mem' le
  have length : (k.aged wrap).heap.entry.length = k.heap.entry.length := by
    simp [Kernel.aged]
  unfold ProcessHeap.Ordered
  rw [length]
  exact mapped.congr keys

theorem Kernel.myProcTick_ordered {wrap : Int → Int} {k k' : Kernel} {p : ProcPtr}
    (nodup : (k.heap.entry.map HeapEntry.proc).Nodup) (ordered : k.heap.Ordered)
    (mono : ∀ e ∈ k.heap.entry, ∀ e' ∈ k.heap.entry,
      e.x ≤ e'.x → wrap (e.x - 1) ≤ wrap (e'.x - 1))
    (ticked : k.myProcTick wrap p = .ok k') : k'.heap.Ordered := by
  obtain ⟨m, charged, _, _, rfl⟩ := (Kernel.myProcTick_eq_ok_iff nodup).mp ticked
  have heap := Kernel.myChargeTick_heap charged
  rw [← heap] at ordered mono
  have aged := Kernel.aged_ordered ordered mono
  split
  · exact aged
  · exact aged

end EdfKernel
