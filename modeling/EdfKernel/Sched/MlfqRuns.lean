import Mathlib.Data.List.Nodup
import EdfKernel.Sched.Mlfq

/-!
# Runs of the multi-level feedback queue

What the four queues hold after every sequence of wakeups, calls of `schedule`, ticks and
forks, and at which level a process waits.
-/

namespace EdfKernel.Mlfq

open Library

variable {m m' : Mlfq} {member : ProcPtr → Prop} {p q : ProcPtr} {rq : Nat}

@[simp]
theorem modify_procs_self (m : Mlfq) (p : ProcPtr) (change : ProcStruct → ProcStruct) :
    (m.modify p change).procs p = change (m.procs p) :=
  Function.update_self ..

@[simp]
theorem modify_idleproc (m : Mlfq) (p : ProcPtr) (change : ProcStruct → ProcStruct) :
    (m.modify p change).idleproc = m.idleproc :=
  rfl

@[simp]
theorem modify_current (m : Mlfq) (p : ProcPtr) (change : ProcStruct → ProcStruct) :
    (m.modify p change).current = m.current :=
  rfl

theorem modify_procs_of_ne {change : ProcStruct → ProcStruct} (ne : q ≠ p) :
    (m.modify p change).procs q = m.procs q :=
  Function.update_of_ne ne ..

/-! ## The levels -/

/-- The queues are linked into a circle, and each allows twice the time slice of the one before
it. -/
structure Levels (m : Mlfq) : Prop where
  next : ∀ rq < nrQueues, (m.queues rq).linkNext = (rq + 1) % nrQueues
  slice : ∀ rq < nrQueues, (m.queues rq).maxTimeSlice = 8 * 2 ^ rq

namespace Levels

theorem congr (levels : m.Levels)
    (next : ∀ rq, (m'.queues rq).linkNext = (m.queues rq).linkNext)
    (slice : ∀ rq, (m'.queues rq).maxTimeSlice = (m.queues rq).maxTimeSlice) : m'.Levels where
  next rq inRange := (next rq).trans (levels.next rq inRange)
  slice rq inRange := (slice rq).trans (levels.slice rq inRange)

theorem slice_pos (levels : m.Levels) (inRange : rq < nrQueues) :
    1 ≤ (m.queues rq).maxTimeSlice := by
  rw [levels.slice rq inRange]
  have positive : (0 : Int) < 2 ^ rq := Int.pow_pos (by decide)
  omega

end Levels

/-- The level at which a process is put on a queue. -/
def level (s : ProcStruct) : Nat :=
  match s.rq with
  | none => 0
  | some own => if s.timeSlice = 0 then min (own + 1) (nrQueues - 1) else 0

theorem level_lt (s : ProcStruct) : level s < nrQueues := by
  unfold level nrQueues
  split
  · decide
  · split <;> omega

/-- A process that has used up its time slice goes one level down, and stays at the last one. -/
theorem chooseQueue_eq (levels : m.Levels)
    (inRange : ∀ own, (m.procs p).rq = some own → own < nrQueues) :
    m.chooseQueue 0 p = level (m.procs p) := by
  unfold chooseQueue level
  cases home : (m.procs p).rq with
  | none => rfl
  | some own =>
      have below := inRange own home
      dsimp only
      split
      · rw [levels.next own below]
        unfold nrQueues at below ⊢
        split <;> omega
      · rfl

/-! ## Putting a process on a queue and taking it off -/

/-- What `RR_enqueue` leaves. -/
def enqueued (m : Mlfq) (rq : Nat) (p : ProcPtr) : Mlfq :=
  { m with
    queues := Function.update m.queues rq
      { m.queues rq with
        runList := (m.queues rq).runList ++ [p]
        procNum := (m.queues rq).procNum + 1 }
    procs := Function.update m.procs p
      { m.procs p with
        timeSlice := rrSlice (m.procs p).timeSlice (m.queues rq).maxTimeSlice
        rq := some rq } }

/-- What `RR_dequeue` leaves. -/
def dequeued (m : Mlfq) (rq : Nat) (p : ProcPtr) : Mlfq :=
  { m with queues := fun i =>
      { m.queues i with
        runList := (m.queues i).runList.erase p
        procNum := if i = rq then (m.queues i).procNum - 1 else (m.queues i).procNum } }

theorem rrEnqueue_eq (unlinked : ¬m.Linked p) : m.rrEnqueue rq p = .ok (m.enqueued rq p) := by
  simp [rrEnqueue, unlinked, setQueue, modify, enqueued]

theorem mlfqEnqueue_eq (levels : m.Levels) (unlinked : ¬m.Linked p)
    (inRange : ∀ own, (m.procs p).rq = some own → own < nrQueues) :
    m.mlfqEnqueue 0 p = .ok (m.enqueued (level (m.procs p)) p) := by
  rw [mlfqEnqueue, if_neg unlinked, rrEnqueue_eq unlinked, chooseQueue_eq levels inRange]

theorem unlink_setQueue (m : Mlfq) (rq : Nat) (p : ProcPtr) :
    ((m.unlink p).setQueue rq fun queue => { queue with procNum := queue.procNum - 1 }) =
      m.dequeued rq p := by
  unfold setQueue dequeued
  congr 1
  funext i
  by_cases own : i = rq
  · simp [own, unlink]
  · simp [own, unlink]

theorem mlfqDequeue_eq (linked : m.Linked p) (home : (m.procs p).rq = some rq) :
    m.mlfqDequeue p = .ok (m.dequeued rq p) := by
  rw [mlfqDequeue, if_neg (not_not.mpr linked), home]
  dsimp only
  rw [rrDequeue, if_neg (by simp [linked, home])]
  exact congrArg Except.ok (unlink_setQueue ..)

theorem enqueued_runList (i : Nat) : ((m.enqueued rq p).queues i).runList =
    if i = rq then (m.queues i).runList ++ [p] else (m.queues i).runList := by
  by_cases own : i = rq
  · simp [enqueued, own]
  · simp [enqueued, own]

theorem enqueued_procNum (i : Nat) : ((m.enqueued rq p).queues i).procNum =
    if i = rq then (m.queues i).procNum + 1 else (m.queues i).procNum := by
  by_cases own : i = rq
  · simp [enqueued, own]
  · simp [enqueued, own]

theorem enqueued_levels (levels : m.Levels) : (m.enqueued rq p).Levels := by
  apply levels.congr
  · intro i
    by_cases own : i = rq
    · simp [enqueued, own]
    · simp [enqueued, own]
  · intro i
    by_cases own : i = rq
    · simp [enqueued, own]
    · simp [enqueued, own]

theorem enqueued_procs_self : (m.enqueued rq p).procs p =
    { m.procs p with
      timeSlice := rrSlice (m.procs p).timeSlice (m.queues rq).maxTimeSlice
      rq := some rq } :=
  Function.update_self ..

theorem enqueued_procs_of_ne (ne : q ≠ p) : (m.enqueued rq p).procs q = m.procs q :=
  Function.update_of_ne ne ..

theorem rrSlice_bounds {timeSlice maxTimeSlice : Int} (nonneg : 0 ≤ timeSlice)
    (positive : 1 ≤ maxTimeSlice) :
    1 ≤ rrSlice timeSlice maxTimeSlice ∧ rrSlice timeSlice maxTimeSlice ≤ maxTimeSlice := by
  unfold rrSlice
  split <;> omega

/-! ## What the queues hold -/

/-- The queues hold exactly the given processes, each once, on the queue that its descriptor
names and with a time slice that this queue allows, and `proc_num` counts them. -/
structure Queues (m : Mlfq) (member : ProcPtr → Prop) : Prop where
  levels : m.Levels
  mem_iff : ∀ p, m.Linked p ↔ member p
  nodup : ∀ rq < nrQueues, (m.queues rq).runList.Nodup
  count : ∀ rq < nrQueues, (m.queues rq).procNum = (m.queues rq).runList.length
  home : ∀ rq < nrQueues, ∀ p ∈ (m.queues rq).runList, (m.procs p).rq = some rq
  slice : ∀ rq < nrQueues, ∀ p ∈ (m.queues rq).runList,
    1 ≤ (m.procs p).timeSlice ∧ (m.procs p).timeSlice ≤ (m.queues rq).maxTimeSlice

namespace Queues

/-- The queues only depend on the queue links and time slices of their processes. -/
theorem congr {member' : ProcPtr → Prop} (queues : Queues m member)
    (same : m'.queues = m.queues) (members : ∀ q, member' q ↔ member q)
    (home : ∀ q, member q → (m'.procs q).rq = (m.procs q).rq)
    (slice : ∀ q, member q → (m'.procs q).timeSlice = (m.procs q).timeSlice) :
    Queues m' member' := by
  have mem : ∀ rq < nrQueues, ∀ q ∈ (m.queues rq).runList, member q :=
    fun rq inRange q mem => (queues.mem_iff q).mp ⟨rq, inRange, mem⟩
  constructor
  · exact queues.levels.congr (fun rq => by rw [same]) fun rq => by rw [same]
  · intro q
    rw [members, ← queues.mem_iff, Linked, Linked, same]
  · rw [same]
    exact queues.nodup
  · rw [same]
    exact queues.count
  · intro rq inRange q linked
    rw [same] at linked
    rw [home q (mem rq inRange q linked), queues.home rq inRange q linked]
  · intro rq inRange q linked
    rw [same] at linked ⊢
    rw [slice q (mem rq inRange q linked)]
    exact queues.slice rq inRange q linked

/-- A queued process is on one queue only. -/
theorem unique (queues : Queues m member) {i : Nat} (inRange : rq < nrQueues)
    (mem : p ∈ (m.queues rq).runList) (inRange' : i < nrQueues)
    (mem' : p ∈ (m.queues i).runList) : i = rq :=
  Option.some.inj ((queues.home i inRange' p mem').symm.trans (queues.home rq inRange p mem))

theorem enqueue (queues : Queues m member) (notMember : ¬member p) (inRange : rq < nrQueues)
    (nonneg : 0 ≤ (m.procs p).timeSlice) :
    Queues (m.enqueued rq p) fun q => q = p ∨ member q := by
  have unlinked : ∀ i < nrQueues, p ∉ (m.queues i).runList :=
    fun i below mem => notMember ((queues.mem_iff p).mp ⟨i, below, mem⟩)
  have old : ∀ i < nrQueues, ∀ q ∈ ((m.enqueued rq p).queues i).runList,
      (q = p ∧ i = rq) ∨ (q ≠ p ∧ q ∈ (m.queues i).runList) := by
    intro i below q mem
    rw [enqueued_runList] at mem
    split at mem
    · rename_i own
      rcases List.mem_append.mp mem with before | new
      · exact .inr ⟨fun same => unlinked i below (same ▸ before), before⟩
      · exact .inl ⟨List.mem_singleton.mp new, own⟩
    · exact .inr ⟨fun same => unlinked i below (same ▸ mem), mem⟩
  have levels := @enqueued_levels m p rq queues.levels
  have max : ((m.enqueued rq p).queues rq).maxTimeSlice = (m.queues rq).maxTimeSlice := by
    rw [levels.slice rq inRange, queues.levels.slice rq inRange]
  refine ⟨levels, ?_, ?_, ?_, ?_, ?_⟩
  · intro q
    rw [← queues.mem_iff]
    constructor
    · rintro ⟨i, below, mem⟩
      rcases old i below q mem with ⟨same, _⟩ | ⟨_, before⟩
      · exact .inl same
      · exact .inr ⟨i, below, before⟩
    · rintro (rfl | ⟨i, below, mem⟩)
      · refine ⟨rq, inRange, ?_⟩
        rw [enqueued_runList, if_pos rfl]
        exact List.mem_append_right _ (List.mem_singleton_self q)
      · refine ⟨i, below, ?_⟩
        rw [enqueued_runList]
        split
        · exact List.mem_append_left _ mem
        · exact mem
  · intro i below
    rw [enqueued_runList]
    split
    · refine List.nodup_append.mpr ⟨queues.nodup i below, List.nodup_singleton p, ?_⟩
      intro a before b new same
      exact unlinked i below (List.mem_singleton.mp new ▸ same ▸ before)
    · exact queues.nodup i below
  · intro i below
    rw [enqueued_runList, enqueued_procNum]
    split
    · rw [queues.count i below, List.length_append, List.length_singleton]
      push_cast
      rfl
    · exact queues.count i below
  · intro i below q mem
    rcases old i below q mem with ⟨rfl, rfl⟩ | ⟨other, before⟩
    · rw [enqueued_procs_self]
    · rw [enqueued_procs_of_ne other]
      exact queues.home i below q before
  · intro i below q mem
    rcases old i below q mem with ⟨rfl, rfl⟩ | ⟨other, before⟩
    · rw [enqueued_procs_self, max]
      exact rrSlice_bounds nonneg (queues.levels.slice_pos inRange)
    · rw [enqueued_procs_of_ne other, levels.slice i below, ← queues.levels.slice i below]
      exact queues.slice i below q before

theorem dequeue (queues : Queues m member) (inRange : rq < nrQueues)
    (mem : p ∈ (m.queues rq).runList) :
    Queues (m.dequeued rq p) fun q => q ≠ p ∧ member q := by
  have listed : ∀ i < nrQueues, ∀ q,
      q ∈ (m.queues i).runList.erase p ↔ q ≠ p ∧ q ∈ (m.queues i).runList :=
    fun i below q => (queues.nodup i below).mem_erase_iff
  refine ⟨queues.levels.congr (fun _ => rfl) fun _ => rfl, ?_, ?_, ?_, ?_, ?_⟩
  · intro q
    rw [← queues.mem_iff]
    constructor
    · rintro ⟨i, below, left⟩
      obtain ⟨other, before⟩ := (listed i below q).mp left
      exact ⟨other, i, below, before⟩
    · rintro ⟨other, i, below, before⟩
      exact ⟨i, below, (listed i below q).mpr ⟨other, before⟩⟩
  · exact fun i below => (queues.nodup i below).erase p
  · intro i below
    have count := queues.count i below
    change (if i = rq then (m.queues i).procNum - 1 else (m.queues i).procNum) =
      (((m.queues i).runList.erase p).length : Int)
    split
    · rename_i own
      subst i
      have positive := List.length_pos_of_mem mem
      rw [List.length_erase_of_mem mem]
      omega
    · rename_i other
      rw [List.erase_of_not_mem fun mem' => other (queues.unique inRange mem below mem')]
      exact count
  · exact fun i below q left => queues.home i below q ((listed i below q).mp left).2
  · exact fun i below q left => queues.slice i below q ((listed i below q).mp left).2

end Queues

/-! ## The scheduler functions -/

/-- A process that competes for the processor. -/
def Contends (m : Mlfq) (p : ProcPtr) : Prop :=
  m.allocated p = true ∧ (m.procs p).state = .runnable ∧ p ≠ m.idleproc

/-- A process that waits for the processor. -/
def Ready (m : Mlfq) (p : ProcPtr) : Prop :=
  m.Contends p ∧ p ≠ m.current

/-- The queues hold exactly the given processes, and every process names a queue or none. -/
structure Held (m : Mlfq) (member : ProcPtr → Prop) : Prop where
  queues : Queues m member
  homes : ∀ p, m.allocated p = true → ∀ rq, (m.procs p).rq = some rq → rq < nrQueues
  nonneg : ∀ p, m.allocated p = true → 0 ≤ (m.procs p).timeSlice
  idle : m.allocated m.idleproc = true ∧ (m.procs m.idleproc).state = .runnable
  current : m.allocated m.current = true

namespace Held

/-- Changes of descriptors that keep the queue links and the time slices of the members. -/
theorem congr {member' : ProcPtr → Prop} (held : m.Held member) (queues : m'.queues = m.queues)
    (idleproc : m'.idleproc = m.idleproc) (members : ∀ p, member' p ↔ member p)
    (keeps : ∀ p, member p →
      (m'.procs p).rq = (m.procs p).rq ∧ (m'.procs p).timeSlice = (m.procs p).timeSlice)
    (homes : ∀ p, m'.allocated p = true → (m'.procs p).rq = none ∨
      m.allocated p = true ∧ (m'.procs p).rq = (m.procs p).rq)
    (nonneg : ∀ p, m'.allocated p = true → 0 ≤ (m'.procs p).timeSlice)
    (idle : m'.allocated m.idleproc = true ∧ (m'.procs m.idleproc).state = .runnable)
    (current : m'.allocated m'.current = true) : m'.Held member' where
  queues := held.queues.congr queues members (fun q waits => (keeps q waits).1)
    fun q waits => (keeps q waits).2
  homes p allocated rq home := by
    rcases homes p allocated with noHome | ⟨before, same⟩
    · rw [noHome] at home
      cases home
    · exact held.homes p before rq (same ▸ home)
  nonneg := nonneg
  idle := idleproc ▸ idle
  current := current

/-- A change of one descriptor that keeps its queue link and its time slice. -/
theorem modify {member' : ProcPtr → Prop} {change : ProcStruct → ProcStruct}
    (held : m.Held member) (members : ∀ q, member' q ↔ member q)
    (rq : (change (m.procs p)).rq = (m.procs p).rq)
    (timeSlice : (change (m.procs p)).timeSlice = (m.procs p).timeSlice)
    (idle : p = m.idleproc → (change (m.procs p)).state = .runnable) :
    (m.modify p change).Held member' := by
  have same : ∀ q, ((m.modify p change).procs q).rq = (m.procs q).rq ∧
      ((m.modify p change).procs q).timeSlice = (m.procs q).timeSlice := by
    intro q
    by_cases own : q = p
    · subst q
      rw [modify_procs_self]
      exact ⟨rq, timeSlice⟩
    · rw [modify_procs_of_ne own]
      exact ⟨rfl, rfl⟩
  refine held.congr rfl rfl members (fun q _ => same q)
    (fun q allocated => .inr ⟨allocated, (same q).1⟩) ?_ ⟨held.idle.1, ?_⟩ held.current
  · intro q allocated
    rw [(same q).2]
    exact held.nonneg q allocated
  · by_cases own : m.idleproc = p
    · rw [own, modify_procs_self]
      exact idle own.symm
    · rw [modify_procs_of_ne own]
      exact held.idle.2

theorem of_iff {member' : ProcPtr → Prop} (held : m.Held member)
    (members : ∀ p, member' p ↔ member p) : m.Held member' :=
  held.congr rfl rfl members (fun _ _ => ⟨rfl, rfl⟩) (fun _ allocated => .inr ⟨allocated, rfl⟩)
    held.nonneg held.idle held.current

theorem enqueue (held : m.Held member) (notMember : ¬member p) (allocated : m.allocated p = true)
    (inRange : rq < nrQueues) : (m.enqueued rq p).Held fun q => q = p ∨ member q where
  queues := held.queues.enqueue notMember inRange (held.nonneg p allocated)
  homes q allocated' i home := by
    by_cases own : q = p
    · rw [own, enqueued_procs_self] at home
      exact Option.some.inj home ▸ inRange
    · rw [enqueued_procs_of_ne own] at home
      exact held.homes q allocated' i home
  nonneg q allocated' := by
    by_cases own : q = p
    · rw [own, enqueued_procs_self]
      have bounds := rrSlice_bounds (held.nonneg p allocated)
        (held.queues.levels.slice_pos inRange)
      exact Int.le_trans (by decide) bounds.1
    · rw [enqueued_procs_of_ne own]
      exact held.nonneg q allocated'
  idle := by
    refine ⟨held.idle.1, ?_⟩
    change ((m.enqueued rq p).procs m.idleproc).state = .runnable
    by_cases own : m.idleproc = p
    · rw [own, enqueued_procs_self]
      exact own ▸ held.idle.2
    · rw [enqueued_procs_of_ne own]
      exact held.idle.2
  current := held.current

theorem dequeue (held : m.Held member) (inRange : rq < nrQueues)
    (mem : p ∈ (m.queues rq).runList) : (m.dequeued rq p).Held fun q => q ≠ p ∧ member q where
  queues := held.queues.dequeue inRange mem
  homes := held.homes
  nonneg := held.nonneg
  idle := held.idle
  current := held.current

/-- A process that is not a member is put at the end of the queue of its level. -/
theorem mlfqEnqueue_eq (held : m.Held member) (notMember : ¬member p)
    (allocated : m.allocated p = true) :
    m.mlfqEnqueue 0 p = .ok (m.enqueued (level (m.procs p)) p) :=
  Mlfq.mlfqEnqueue_eq held.queues.levels (mt (held.queues.mem_iff p).mp notMember)
    (held.homes p allocated)

end Held

/-- The queues hold exactly the processes that wait for the processor. -/
def Valid (m : Mlfq) : Prop :=
  m.Held m.Ready

theorem enqueued_contends : (m.enqueued rq p).Contends q ↔ m.Contends q := by
  by_cases own : q = p
  · subst q
    simp only [Contends, enqueued_procs_self]
    exact Iff.rfl
  · simp only [Contends, enqueued_procs_of_ne own]
    exact Iff.rfl

/-- A change of one descriptor that keeps its state. -/
theorem modify_contends {change : ProcStruct → ProcStruct}
    (state : (change (m.procs p)).state = (m.procs p).state) :
    (m.modify p change).Contends q ↔ m.Contends q := by
  by_cases own : q = p
  · subst q
    simp only [Contends, modify_procs_self, state]
    exact Iff.rfl
  · simp only [Contends, modify_procs_of_ne own]
    exact Iff.rfl

/-- At most one process is put on a queue, at the end of the one of its level; other processes
only leave. -/
def Advances (m m' : Mlfq) (p : ProcPtr) : Prop :=
  ¬m.Linked p ∧ ∀ rq < nrQueues, (m'.queues rq).runList.Sublist
    ((m.queues rq).runList ++ if rq = level (m.procs p) then [p] else [])

theorem Valid.not_linked_current (valid : m.Valid) : ¬m.Linked m.current :=
  fun linked => ((valid.queues.mem_iff _).mp linked).2 rfl

/-- Nothing is put on a queue. -/
theorem Valid.advances_of_queues (valid : m.Valid) (same : m'.queues = m.queues) :
    m.Advances m' m.current :=
  ⟨valid.not_linked_current, fun _ _ => same ▸ List.sublist_append_left ..⟩

theorem advances_enqueued {change : ProcStruct → ProcStruct} (unlinked : ¬m.Linked p)
    (rq : (change (m.procs p)).rq = (m.procs p).rq)
    (timeSlice : (change (m.procs p)).timeSlice = (m.procs p).timeSlice) :
    m.Advances ((m.modify p change).enqueued (level ((m.modify p change).procs p)) p) p := by
  have same : level ((m.modify p change).procs p) = level (m.procs p) := by
    rw [modify_procs_self, level, level, rq, timeSlice]
  refine ⟨unlinked, fun i _ => ?_⟩
  rw [enqueued_runList, same]
  split
  · exact List.Sublist.refl _
  · exact (List.append_nil _).symm ▸ List.Sublist.refl _

/-! ## wakeup_proc -/

/-- A process that is made runnable competes for the processor as well. -/
theorem wakened_contends {change : ProcStruct → ProcStruct}
    (state : (change (m.procs p)).state = .runnable) (allocated : m.allocated p = true)
    (notIdle : p ≠ m.idleproc) : (m.modify p change).Contends q ↔ q = p ∨ m.Contends q := by
  by_cases own : q = p
  · subst q
    simp only [Contends, modify_procs_self, state, true_or, iff_true]
    exact ⟨allocated, trivial, notIdle⟩
  · simp only [Contends, modify_procs_of_ne own, own, false_or]
    exact Iff.rfl

theorem wakeupProc_valid (valid : m.Valid) (allocated : m.allocated p = true)
    (notZombie : (m.procs p).state ≠ .zombie) :
    ∃ m₁, m.wakeupProc p = .ok m₁ ∧ m₁.Valid ∧ ∃ q, m.Advances m₁ q := by
  rw [wakeupProc, if_neg notZombie]
  by_cases runnable : (m.procs p).state = .runnable
  · rw [if_neg (not_not.mpr runnable)]
    exact ⟨m, rfl, valid, m.current, valid.advances_of_queues rfl⟩
  · rw [if_pos runnable]
    have notReady : ¬m.Ready p := fun ready => runnable ready.1.2.1
    have unlinked : ¬m.Linked p := mt (valid.queues.mem_iff p).mp notReady
    have notIdle : p ≠ m.idleproc := fun own => runnable (own ▸ valid.idle.2)
    have held : (m.modify p fun s => { s with state := .runnable, waitState := 0 }).Held
        m.Ready := valid.modify (fun _ => Iff.rfl) rfl rfl fun _ => rfl
    have contends : ∀ q, (m.modify p fun s =>
        { s with state := .runnable, waitState := 0 }).Contends q ↔ q = p ∨ m.Contends q :=
      fun q => wakened_contends rfl allocated notIdle
    by_cases own : p = m.current
    · refine ⟨_, if_neg (not_not.mpr own), held.of_iff fun q => ?_, m.current,
        valid.advances_of_queues rfl⟩
      rw [Ready, contends, or_and_right]
      exact or_iff_right fun both => both.2 (both.1.trans own)
    · refine ⟨_, (if_pos own).trans ((if_pos notIdle).trans
        (held.mlfqEnqueue_eq notReady allocated)), ?_, p, advances_enqueued unlinked rfl rfl⟩
      refine (held.enqueue notReady allocated (level_lt _)).of_iff fun q => ?_
      rw [Ready, enqueued_contends, contends, or_and_right]
      refine or_congr_left (and_iff_left_of_imp ?_)
      rintro rfl
      exact own

/-! ## schedule -/

/-- After the first half of `schedule` the current process is queued as well if it goes on. -/
theorem requeue_held (valid : m.Valid) : ∃ m₁, m.requeue = .ok m₁ ∧ m₁.Held m.Contends ∧
    (∀ q, m₁.Contends q ↔ m.Contends q) ∧ m.Advances m₁ m.current := by
  have held : (m.modify m.current fun s => { s with needResched := false }).Held m.Ready :=
    valid.modify (fun _ => Iff.rfl) rfl rfl fun own => own ▸ valid.idle.2
  have contends : ∀ q, (m.modify m.current fun s =>
      { s with needResched := false }).Contends q ↔ m.Contends q :=
    fun q => modify_contends rfl
  have unlinked := valid.not_linked_current
  by_cases goes : m.Contends m.current
  · obtain ⟨allocated, runnable, notIdle⟩ := goes
    have notReady : ¬m.Ready m.current := fun ready => ready.2 rfl
    refine ⟨_, ?_, (held.enqueue notReady allocated (level_lt _)).of_iff fun q => ?_,
      fun q => ?_, advances_enqueued unlinked rfl rfl⟩
    · rw [requeue, if_pos (by rw [modify_current, modify_procs_self]; exact runnable), schedClassEnqueue]
      exact (if_pos notIdle).trans (held.mlfqEnqueue_eq notReady allocated)
    · by_cases own : q = m.current
      · exact iff_of_true (own ▸ ⟨allocated, runnable, notIdle⟩) (.inl own)
      · exact ⟨fun contends => .inr ⟨contends, own⟩, fun ready => (ready.resolve_left own).1⟩
    · exact enqueued_contends.trans (contends q)
  · refine ⟨_, ?_, held.of_iff fun q => ?_, contends, valid.advances_of_queues rfl⟩
    · rw [requeue]
      split
      · rename_i runnable
        rw [modify_current, modify_procs_self] at runnable
        rw [schedClassEnqueue]
        refine if_neg (not_not.mpr (by_contra fun notIdle => goes ?_))
        exact ⟨valid.current, runnable, notIdle⟩
      · rfl
    · refine (and_iff_left_of_imp ?_).symm
      rintro contends rfl
      exact goes contends

/-- `MLFQ_pick_next` returns the first process of the highest queue that is not empty. -/
theorem mlfqPickNextLoop_spec (levels : m.Levels) (fuel : Nat) : ∀ le, le + fuel = nrQueues →
    0 < fuel → (∀ rq < le, (m.queues rq).runList = []) →
    ∃ next, m.mlfqPickNextLoop 0 fuel le = .ok next ∧
      (next = none ↔ ∀ rq < nrQueues, (m.queues rq).runList = []) ∧
      ∀ p, next = some p → ∃ rq < nrQueues, (∀ higher < rq, (m.queues higher).runList = []) ∧
        ∃ rest, (m.queues rq).runList = p :: rest := by
  induction fuel with
  | zero => exact fun _ _ positive => absurd positive (Nat.lt_irrefl 0)
  | succ fuel ih =>
      intro le all _ above
      rw [mlfqPickNextLoop, rrPickNext]
      cases list : (m.queues le).runList with
      | cons p rest =>
          refine ⟨some p, rfl, iff_of_false (by rintro ⟨⟩) fun empty => ?_, ?_⟩
          · rw [empty le (by omega)] at list
            cases list
          · rintro q ⟨⟩
            exact ⟨le, by omega, above, rest, list⟩
      | nil =>
          have above' : ∀ rq < le + 1, (m.queues rq).runList = [] := by
            intro rq below
            rcases Nat.lt_succ_iff_lt_or_eq.mp below with before | rfl
            · exact above rq before
            · exact list
          dsimp only [List.head?_nil]
          rw [levels.next le (by omega)]
          by_cases last : le + 1 = nrQueues
          · rw [last, Nat.mod_self, if_neg (not_not.mpr rfl)]
            exact ⟨none, rfl, iff_of_true rfl fun rq below => above' rq (by omega), by rintro p ⟨⟩⟩
          · rw [Nat.mod_eq_of_lt (by omega), if_pos (by omega)]
            exact ih (le + 1) (by omega) (by omega) above'

theorem mlfqPickNext_spec (levels : m.Levels) : ∃ next, m.mlfqPickNext 0 = .ok next ∧
    (next = none ↔ ∀ rq < nrQueues, (m.queues rq).runList = []) ∧
    ∀ p, next = some p → ∃ rq < nrQueues, (∀ higher < rq, (m.queues higher).runList = []) ∧
      ∃ rest, (m.queues rq).runList = p :: rest :=
  mlfqPickNextLoop_spec levels nrQueues 0 rfl (by decide) fun _ below =>
    absurd below (Nat.not_lt_zero _)

/-- What `schedule` leaves once the next process is off its queue. -/
def switched (m : Mlfq) (p : ProcPtr) : Mlfq :=
  { m.modify p fun s => { s with runs := s.runs + 1 } with current := p }

theorem Held.switch {member' : ProcPtr → Prop} (held : m.Held member)
    (members : ∀ q, member' q ↔ member q) (allocated : m.allocated p = true) :
    (m.switched p).Held member' := by
  have held' : (m.modify p fun s => { s with runs := s.runs + 1 }).Held member' :=
    held.modify members rfl rfl fun own => own ▸ held.idle.2
  exact ⟨held'.queues.congr rfl (fun _ => Iff.rfl) (fun _ _ => rfl) fun _ _ => rfl, held'.homes,
    held'.nonneg, held'.idle, allocated⟩

theorem switched_ready : (m.switched p).Ready q ↔ m.Contends q ∧ q ≠ p := by
  have contends : (m.modify p fun s => { s with runs := s.runs + 1 }).Contends q ↔ m.Contends q :=
    modify_contends rfl
  exact and_congr_left' contends

/-- The second half of `schedule` takes the chosen process off its queue. -/
theorem switchNext_valid (held : m.Held m.Contends) : ∃ m₁, m.switchNext = .ok m₁ ∧ m₁.Valid ∧
    ∀ rq, (m₁.queues rq).runList.Sublist (m.queues rq).runList := by
  obtain ⟨next, picked, empty, first⟩ := mlfqPickNext_spec held.queues.levels
  cases next with
  | none =>
      refine ⟨m.switched m.idleproc, ?_, ?_, fun rq => List.Sublist.refl _⟩
      · rw [switchNext, picked]
        rfl
      · refine held.switch (fun q => ?_) held.idle.1
        exact switched_ready.trans (and_iff_left_of_imp fun contends => contends.2.2)
  | some p =>
      obtain ⟨rq, below, _, rest, list⟩ := first p rfl
      have mem : p ∈ (m.queues rq).runList := list ▸ List.mem_cons_self
      have contends := (held.queues.mem_iff p).mp ⟨rq, below, mem⟩
      refine ⟨(m.dequeued rq p).switched p, ?_, ?_, fun i => List.erase_sublist⟩
      · rw [switchNext, picked]
        change (m.mlfqDequeue p >>= _) = _
        rw [mlfqDequeue_eq ⟨rq, below, mem⟩ (held.queues.home rq below p mem)]
        rfl
      · refine (held.dequeue below mem).switch (fun q => ?_) contends.1
        exact switched_ready.trans and_comm

theorem schedule_valid (valid : m.Valid) :
    ∃ m₁, m.schedule = .ok m₁ ∧ m₁.Valid ∧ m.Advances m₁ m.current := by
  obtain ⟨m₁, requeued, held, same, unlinked, advances⟩ := requeue_held valid
  obtain ⟨m₂, switched, valid', fewer⟩ := switchNext_valid (held.of_iff same)
  refine ⟨m₂, ?_, valid', unlinked, fun rq below => (fewer rq).trans (advances rq below)⟩
  rw [schedule, requeued]
  exact switched

/-! ## Ticks, forks and exits -/

/-- A change of the current process alone that leaves it a queue it had or none. -/
theorem Valid.modify_current {change : ProcStruct → ProcStruct} (valid : m.Valid)
    (rq : (change (m.procs m.current)).rq = (m.procs m.current).rq)
    (nonneg : 0 ≤ (change (m.procs m.current)).timeSlice)
    (idle : m.current = m.idleproc → (change (m.procs m.current)).state = .runnable) :
    (m.modify m.current change).Valid := by
  have other : ∀ q, q ≠ m.current → (m.modify m.current change).procs q = m.procs q :=
    fun q ne => modify_procs_of_ne ne
  refine Held.congr valid rfl rfl (fun q => ?_) (fun q ready => ?_) (fun q allocated => ?_)
    (fun q allocated => ?_) ⟨valid.idle.1, ?_⟩ valid.current
  · by_cases own : q = m.current
    · exact iff_of_false (fun ready => ready.2 own) fun ready => ready.2 own
    · rw [Ready, Ready, Contends, Contends, other q own]
      exact Iff.rfl
  · rw [other q ready.2]
    exact ⟨rfl, rfl⟩
  · by_cases own : q = m.current
    · rw [own, modify_procs_self]
      exact .inr ⟨valid.current, rq⟩
    · rw [other q own]
      exact .inr ⟨allocated, rfl⟩
  · by_cases own : q = m.current
    · rw [own, modify_procs_self]
      exact nonneg
    · rw [other q own]
      exact valid.nonneg q allocated
  · by_cases own : m.idleproc = m.current
    · rw [own, modify_procs_self]
      exact idle own.symm
    · rw [other _ own]
      exact valid.idle.2

theorem tick_valid (valid : m.Valid) :
    (m.schedClassProcTick m.current).Valid ∧
      (m.schedClassProcTick m.current).queues = m.queues := by
  have nonneg := valid.nonneg _ valid.current
  unfold schedClassProcTick
  split
  · rename_i notIdle
    rw [mlfqProcTick, rrProcTick]
    by_cases positive : 0 < (m.procs m.current).timeSlice
    · have served : (m.modify m.current fun s => { s with timeSlice := s.timeSlice - 1 }).Valid := by
        refine valid.modify_current rfl ?_ fun own => absurd own notIdle
        dsimp only
        omega
      simp only [if_pos positive]
      split
      · exact ⟨served.modify_current rfl (served.nonneg _ valid.current) fun own =>
          absurd own notIdle, rfl⟩
      · exact ⟨served, rfl⟩
    · simp only [if_neg positive]
      split
      · exact ⟨valid.modify_current rfl nonneg fun own => absurd own notIdle, rfl⟩
      · exact ⟨valid, rfl⟩
  · exact ⟨valid.modify_current rfl nonneg fun own => own ▸ valid.idle.2, rfl⟩

/-- A fork only touches its child, which has no queue, and the time slice of its parent. -/
theorem fork_spec {child : ProcPtr} (valid : m.Valid) (forked : m.fork child = .ok m') :
    m.allocated child = false ∧ m'.queues = m.queues ∧ m'.current = m.current ∧
      m'.idleproc = m.idleproc ∧ m'.allocated = Function.update m.allocated child true ∧
      (∀ q, q ≠ child → (m'.procs q).state = (m.procs q).state ∧
        (m'.procs q).rq = (m.procs q).rq) ∧
      (∀ q, q ≠ child → q ≠ m.current → m'.procs q = m.procs q) ∧
      (m'.procs child).state = .uninit ∧ (m'.procs child).rq = none ∧
      (m'.procs child).timeSlice = (m.procs m.current).timeSlice / 2 ∧
      (m'.procs m.current).timeSlice =
        (m.procs m.current).timeSlice - (m.procs m.current).timeSlice / 2 := by
  unfold fork at forked
  split at forked
  · cases forked
  · rename_i free
    have other : m.current ≠ child := by
      rintro rfl
      exact free valid.current
    dsimp only at forked
    split at forked
    · cases forked
    · split at forked
      · cases forked
      · cases forked
        refine ⟨Bool.eq_false_iff.mpr free, rfl, rfl, rfl, rfl, fun q ne => ?_, fun q ne ne' => ?_,
          ?_, ?_, ?_, ?_⟩
        · by_cases own : q = m.current
          · simp [modify, own, other]
          · simp [modify, own, ne]
        · simp [modify, ne, ne']
        all_goals simp [modify, other, other.symm]

theorem fork_valid {child : ProcPtr} (valid : m.Valid) (forked : m.fork child = .ok m') :
    m'.Valid ∧ m'.queues = m.queues := by
  obtain ⟨free, queues, current, idleproc, allocated, keeps, same, uninit, noHome, half, rest⟩ :=
    fork_spec valid forked
  have before : ∀ q, q ≠ child → m'.allocated q = m.allocated q :=
    fun q ne => by rw [allocated, Function.update_of_ne ne]
  have other : ∀ q, m.allocated q = true → q ≠ child := by
    rintro q allocatedQ rfl
    rw [allocatedQ] at free
    cases free
  have nonneg := valid.nonneg _ valid.current
  refine ⟨Held.congr valid queues idleproc (fun q => ?_) (fun q ready => ?_) (fun q _ => ?_)
    (fun q allocated' => ?_) ⟨?_, ?_⟩ ?_, queues⟩
  · rw [Ready, Ready, Contends, Contends, current, idleproc]
    by_cases own : q = child
    · subst q
      refine iff_of_false (fun ready => ?_) fun ready => other child ready.1.1 rfl
      rw [uninit] at ready
      exact ProcState.noConfusion ready.1.2.1
    · rw [before q own, (keeps q own).1]
  · rw [same q (other q ready.1.1) ready.2]
    exact ⟨rfl, rfl⟩
  · by_cases own : q = child
    · exact .inl (own ▸ noHome)
    · exact .inr ⟨(before q own).symm.trans ‹_›, (keeps q own).2⟩
  · by_cases own : q = child
    · rw [own, half]
      omega
    · rw [before q own] at allocated'
      by_cases running : q = m.current
      · rw [running, rest]
        omega
      · rw [same q own running]
        exact valid.nonneg q allocated'
  · rw [before _ (other _ valid.idle.1)]
    exact valid.idle.1
  · rw [(keeps _ (other _ valid.idle.1)).1]
    exact valid.idle.2
  · rw [current, before _ (other _ valid.current)]
    exact valid.current

theorem freeProc_valid (valid : m.Valid) (gone : m.Gone p) : (m.freeProc p).Valid := by
  obtain ⟨_, notCurrent, ended⟩ := gone
  have notRunnable : (m.procs p).state ≠ .runnable := by
    intro runnable
    rw [runnable] at ended
    rcases ended with zombie | uninit
    · cases zombie
    · cases uninit
  have left : ∀ q, q ≠ p → (m.freeProc p).allocated q = m.allocated q :=
    fun q ne => Function.update_of_ne ne ..
  have freed : (m.freeProc p).allocated p = false := Function.update_self ..
  have before : ∀ q, (m.freeProc p).allocated q = true → m.allocated q = true := by
    intro q allocated
    by_cases own : q = p
    · rw [own, freed] at allocated
      cases allocated
    · exact left q own ▸ allocated
  refine Held.congr valid rfl rfl (fun q => ?_) (fun _ _ => ⟨rfl, rfl⟩)
    (fun q allocated => .inr ⟨before q allocated, rfl⟩)
    (fun q allocated => valid.nonneg q (before q allocated)) ⟨?_, valid.idle.2⟩ ?_
  · by_cases own : q = p
    · subst q
      exact iff_of_false (fun ready => notRunnable ready.1.2.1)
        fun ready => notRunnable ready.1.2.1
    · rw [Ready, Ready, Contends, Contends, left q own]
      exact Iff.rfl
  · rw [left _ fun own => notRunnable (own ▸ valid.idle.2)]
    exact valid.idle.1
  · exact (left _ (Ne.symm notCurrent)).trans valid.current

/-! ## Runs -/

theorem step_valid {event : Event} (valid : m.Valid) (taken : m.step event = .ok m') :
    m'.Valid ∧ ∃ p, m.Advances m' p := by
  cases event with
  | fork child =>
      obtain ⟨valid', same⟩ := fork_valid valid taken
      exact ⟨valid', m.current, valid.advances_of_queues same⟩
  | wakeup proc =>
      rw [step] at taken
      split at taken
      · by_cases zombie : (m.procs proc).state = .zombie
        · rw [wakeupProc, if_pos zombie] at taken
          cases taken
        · obtain ⟨m₁, woken, valid', advances⟩ := wakeupProc_valid valid ‹_› zombie
          cases woken.symm.trans taken
          exact ⟨valid', advances⟩
      · cases taken
  | tick =>
      cases taken
      obtain ⟨valid', same⟩ := tick_valid valid
      exact ⟨valid', m.current, valid.advances_of_queues same⟩
  | schedule =>
      obtain ⟨m₁, scheduled, valid', advances⟩ := schedule_valid valid
      cases scheduled.symm.trans taken
      exact ⟨valid', m.current, advances⟩
  | block waitState =>
      rw [step] at taken
      split at taken
      · rename_i runs
        cases taken
        exact ⟨valid.modify_current rfl (valid.nonneg _ valid.current) fun own =>
          absurd own runs.1, m.current, valid.advances_of_queues rfl⟩
      · cases taken
  | exit =>
      rw [step] at taken
      split at taken
      · rename_i runs
        cases taken
        exact ⟨valid.modify_current rfl (valid.nonneg _ valid.current) fun own =>
          absurd own runs.1, m.current, valid.advances_of_queues rfl⟩
      · cases taken
  | free proc =>
      rw [step] at taken
      split at taken
      · cases taken
        exact ⟨freeProc_valid valid ‹_›, m.current, valid.advances_of_queues rfl⟩
      · cases taken

/-- The assertions on `run_link` and `rq` never fail, and the walks over the levels end. -/
theorem stop_of_step {event : Event} {stop : MlfqStop} (valid : m.Valid)
    (stopped : m.step event = .error stop) :
    stop = .wakeupZombie ∨ stop = .forkWaitState ∨ stop = .disabled := by
  cases event with
  | fork child =>
      rw [step, fork] at stopped
      split at stopped
      · cases stopped
        exact .inr (.inr rfl)
      · rename_i free
        have other : m.current ≠ child := by
          rintro rfl
          exact free valid.current
        have nonneg := valid.nonneg _ valid.current
        dsimp only at stopped
        split at stopped
        · cases stopped
          exact .inr (.inl rfl)
        · rw [if_neg] at stopped
          · cases stopped
          · simpa [modify, other] using nonneg
  | wakeup proc =>
      rw [step] at stopped
      split at stopped
      · by_cases zombie : (m.procs proc).state = .zombie
        · rw [wakeupProc, if_pos zombie] at stopped
          cases stopped
          exact .inl rfl
        · obtain ⟨m₁, woken, _⟩ := wakeupProc_valid valid ‹_› zombie
          cases woken.symm.trans stopped
      · cases stopped
        exact .inr (.inr rfl)
  | tick => cases stopped
  | schedule =>
      obtain ⟨_, scheduled, _⟩ := schedule_valid valid
      cases scheduled.symm.trans stopped
  | block waitState =>
      rw [step] at stopped
      split at stopped
      · cases stopped
      · cases stopped
        exact .inr (.inr rfl)
  | exit =>
      rw [step] at stopped
      split at stopped
      · cases stopped
      · cases stopped
        exact .inr (.inr rfl)
  | free proc =>
      rw [step] at stopped
      split at stopped
      · cases stopped
      · cases stopped
        exact .inr (.inr rfl)

/-- The scheduler with a count of its steps and, for every process, the number of the last step
before which it was not on a queue. -/
structure Waiting where
  mlfq : Mlfq
  now : Nat
  since : ProcPtr → Nat

namespace Waiting

/-- The step since which a process waits that is on a queue during the next step. -/
def entered (w : Waiting) (p : ProcPtr) : Nat :=
  if w.mlfq.Linked p then w.since p else w.now

def step (w : Waiting) (event : Event) : Except MlfqStop Waiting := do
  let m ← w.mlfq.step event
  return ⟨m, w.now + 1, w.entered⟩

/-- Every queue is in the order in which its processes have come. -/
structure InOrder (w : Waiting) : Prop where
  valid : w.mlfq.Valid
  sorted : ∀ rq < nrQueues,
    (w.mlfq.queues rq).runList.Pairwise fun p q => w.since p < w.since q
  past : ∀ p, w.mlfq.Linked p → w.since p < w.now

theorem InOrder.advance {w : Waiting} (inOrder : w.InOrder) (advances : w.mlfq.Advances m' p)
    (below : rq < nrQueues) :
    (m'.queues rq).runList.Pairwise fun p q => w.entered p < w.entered q := by
  have before : ∀ q ∈ (w.mlfq.queues rq).runList, w.entered q = w.since q :=
    fun q mem => if_pos ⟨rq, below, mem⟩
  refine List.Pairwise.sublist (advances.2 rq below) (List.pairwise_append.mpr ⟨?_, ?_, ?_⟩)
  · refine (inOrder.sorted rq below).imp_of_mem fun {a b} memA memB less => ?_
    rw [before a memA, before b memB]
    exact less
  · split
    · exact List.pairwise_singleton ..
    · exact List.Pairwise.nil
  · intro a memA b memB
    have own : b = p := by
      split at memB
      · exact List.mem_singleton.mp memB
      · cases memB
    have now : w.entered b = w.now := if_neg (own ▸ advances.1)
    rw [before a memA, now]
    exact inOrder.past a ⟨rq, below, memA⟩

theorem step_inOrder {w w' : Waiting} {event : Event} (inOrder : w.InOrder)
    (taken : w.step event = .ok w') : w'.InOrder := by
  obtain ⟨m, stepped, result⟩ := bind_eq_ok_iff.mp taken
  cases result
  obtain ⟨valid, p, advances⟩ := step_valid inOrder.valid stepped
  refine ⟨valid, fun rq below => inOrder.advance advances below, fun q _ => ?_⟩
  change (if w.mlfq.Linked q then w.since q else w.now) < w.now + 1
  split
  · rename_i linked
    exact Nat.lt_succ_of_lt (inOrder.past q linked)
  · exact Nat.lt_succ_self _

end Waiting

/-- What `sched_init` leaves. -/
def booted (memory : ProcPtr → ProcStruct) : Mlfq :=
  { boot memory with queues := fun rq =>
      if rq < nrQueues then
        ⟨[], 0, 8 * 2 ^ rq, (rq + nrQueues - 1) % nrQueues, (rq + 1) % nrQueues⟩
      else ⟨[], 0, 0, 0, 0⟩ }

theorem schedInit_boot (memory : ProcPtr → ProcStruct) :
    (boot memory).schedInit = .ok (booted memory) := by
  simp only [schedInit, mlfqInit, nrQueues, setQueue, Nat.add_one_sub_one, List.range',
    Nat.reduceAdd, List.foldl_cons, initQueue, linkBefore, Function.update_self,
    Function.update_idem, ne_eq, Nat.succ_ne_self, not_false_eq_true, Function.update_of_ne,
    Nat.zero_ne_one, Int.reducePow, Int.reduceMul, reduceCtorEq, Nat.reduceEqDiff, List.foldl_nil,
    mlfqInitLoop, rrInit, ↓reduceIte, not_true_eq_false, Except.ok.injEq]
  unfold booted
  congr 1
  funext rq
  by_cases below : rq < nrQueues
  · have level : rq = 0 ∨ rq = 1 ∨ rq = 2 ∨ rq = 3 := by
      unfold nrQueues at below
      omega
    rcases level with rfl | rfl | rfl | rfl <;> simp [boot, nrQueues]
  · rw [if_neg below]
    unfold nrQueues at below
    have other : rq ≠ 0 ∧ rq ≠ 1 ∧ rq ≠ 2 ∧ rq ≠ 3 := by omega
    simp [boot, other]

theorem booted_valid (memory : ProcPtr → ProcStruct) : (booted memory).Valid := by
  have queue : ∀ rq < nrQueues, (booted memory).queues rq =
      ⟨[], 0, 8 * 2 ^ rq, (rq + nrQueues - 1) % nrQueues, (rq + 1) % nrQueues⟩ :=
    fun rq below => if_pos below
  have own : ∀ q, (booted memory).allocated q = true → q = 0 := fun q => of_decide_eq_true
  have unlinked : ∀ q, ¬(booted memory).Linked q := by
    rintro q ⟨rq, below, mem⟩
    rw [queue rq below] at mem
    cases mem
  refine ⟨⟨⟨?_, ?_⟩, fun q => ?_, ?_, ?_, ?_, ?_⟩, ?_, ?_, ⟨rfl, rfl⟩, rfl⟩
  · exact fun rq below => by rw [queue rq below]
  · exact fun rq below => by rw [queue rq below]
  · exact iff_of_false (unlinked q) fun ready => ready.2 (own q ready.1.1)
  · exact fun rq below => by rw [queue rq below]; exact List.nodup_nil
  · exact fun rq below => by rw [queue rq below]; rfl
  · exact fun rq below q mem => absurd ⟨rq, below, mem⟩ (unlinked q)
  · exact fun rq below q mem => absurd ⟨rq, below, mem⟩ (unlinked q)
  · intro q allocated rq home
    cases own q allocated
    cases home
  · intro q allocated
    cases own q allocated
    exact Int.le_refl 0

/-- `MLFQ_pick_next` returns the process that has waited longest on the highest level on which
one waits, and `NULL` if there is none. -/
def PicksLongestWaiting (m : Mlfq) (since : ProcPtr → Nat) : Prop :=
  ∃ next, m.mlfqPickNext 0 = .ok next ∧
    (next = none ↔ ∀ rq < nrQueues, (m.queues rq).runList = []) ∧
    ∀ p, next = some p → ∃ rq < nrQueues, p ∈ (m.queues rq).runList ∧
      (∀ higher < rq, (m.queues higher).runList = []) ∧
      ∀ q ∈ (m.queues rq).runList, since p ≤ since q

theorem picksLongestWaiting {since : ProcPtr → Nat} (levels : m.Levels)
    (sorted : ∀ rq < nrQueues, (m.queues rq).runList.Pairwise fun p q => since p < since q) :
    m.PicksLongestWaiting since := by
  obtain ⟨next, picked, empty, first⟩ := mlfqPickNext_spec levels
  refine ⟨next, picked, empty, fun p chosen => ?_⟩
  obtain ⟨rq, below, above, rest, list⟩ := first p chosen
  have order := sorted rq below
  rw [list, List.pairwise_cons] at order
  refine ⟨rq, below, list ▸ List.mem_cons_self, above, fun q mem => ?_⟩
  rw [list] at mem
  rcases List.mem_cons.mp mem with rfl | behind
  · exact Nat.le_refl _
  · exact Nat.le_of_lt (order.1 q behind)

/-- After every run the queues hold exactly the processes that wait for the processor, each once
and on the queue it names; a process that is put on a queue goes down one level if its time slice
is used up, and to the top otherwise; and the longest waiting process of the highest level is
picked, also by a `schedule` that has put the current process back.  No step stops at an
assertion on `run_link` or `rq`. -/
theorem mlfq_discipline {memory : ProcPtr → ProcStruct} {events : List Event} {w : Waiting}
    (init : (boot memory).schedInit = .ok m)
    (run : Run.exec Waiting.step ⟨m, 0, fun _ => 0⟩ events = .ok w) :
    w.mlfq.Levels ∧ (∀ p, w.mlfq.Linked p ↔ w.mlfq.Ready p) ∧
      (∀ rq < nrQueues, (w.mlfq.queues rq).runList.Nodup ∧
        (w.mlfq.queues rq).procNum = (w.mlfq.queues rq).runList.length ∧
        ∀ p ∈ (w.mlfq.queues rq).runList, (w.mlfq.procs p).rq = some rq ∧
          (∀ other < nrQueues, p ∈ (w.mlfq.queues other).runList → other = rq) ∧
          1 ≤ (w.mlfq.procs p).timeSlice ∧
          (w.mlfq.procs p).timeSlice ≤ (w.mlfq.queues rq).maxTimeSlice) ∧
      (∀ p, w.mlfq.allocated p = true → ¬w.mlfq.Linked p →
        ∃ m₁, w.mlfq.mlfqEnqueue 0 p = .ok m₁ ∧
          (m₁.queues (level (w.mlfq.procs p))).runList =
            (w.mlfq.queues (level (w.mlfq.procs p))).runList ++ [p] ∧
          ∀ other ≠ level (w.mlfq.procs p),
            (m₁.queues other).runList = (w.mlfq.queues other).runList) ∧
      (∀ event w', w.step event = .ok w' → ∀ p, ¬w.mlfq.Linked p → ∀ rq < nrQueues,
        p ∈ (w'.mlfq.queues rq).runList → rq = level (w.mlfq.procs p)) ∧
      w.mlfq.PicksLongestWaiting w.since ∧
      (∀ m₁, w.mlfq.requeue = .ok m₁ → m₁.PicksLongestWaiting w.entered) ∧
      ∀ event stop, w.step event = .error stop →
        stop = .wakeupZombie ∨ stop = .forkWaitState ∨ stop = .disabled := by
  cases (schedInit_boot memory).symm.trans init
  have start : Waiting.InOrder ⟨booted memory, 0, fun _ => 0⟩ := by
    have unlinked : ∀ p rq, rq < nrQueues → p ∉ ((booted memory).queues rq).runList :=
      fun p rq below mem => by
        have ready := ((booted_valid memory).queues.mem_iff p).mp ⟨rq, below, mem⟩
        exact ready.2 (of_decide_eq_true ready.1.1)
    refine ⟨booted_valid memory, fun rq below => ?_, fun p linked => ?_⟩
    · rw [List.eq_nil_iff_forall_not_mem.mpr fun p => unlinked p rq below]
      exact List.Pairwise.nil
    · obtain ⟨rq, below, mem⟩ := linked
      exact absurd mem (unlinked p rq below)
  have inOrder : w.InOrder := Run.exec_invariant
    (fun _ _ _ before taken => Waiting.step_inOrder before taken) start run
  have valid := inOrder.valid
  refine ⟨valid.queues.levels, valid.queues.mem_iff, fun rq below => ⟨valid.queues.nodup rq below,
    valid.queues.count rq below, fun p mem => ⟨valid.queues.home rq below p mem,
      fun other below' mem' => valid.queues.unique below mem below' mem',
      valid.queues.slice rq below p mem⟩⟩, fun p allocated unlinked => ?_,
    fun event w' taken p unlinked rq below mem => ?_,
    picksLongestWaiting valid.queues.levels inOrder.sorted, fun m₁ requeued => ?_,
    fun event stop stopped => ?_⟩
  · refine ⟨_, valid.mlfqEnqueue_eq (mt (valid.queues.mem_iff p).mpr unlinked) allocated, ?_,
      fun other ne => ?_⟩
    · rw [enqueued_runList, if_pos rfl]
    · rw [enqueued_runList, if_neg ne]
  · obtain ⟨m₁, stepped, result⟩ := bind_eq_ok_iff.mp taken
    cases result
    obtain ⟨_, q, _, advances⟩ := step_valid valid stepped
    rcases List.mem_append.mp ((advances rq below).subset mem) with before | new
    · exact absurd ⟨rq, below, before⟩ unlinked
    · split at new
      · rename_i own
        rw [List.mem_singleton.mp new]
        exact own
      · cases new
  · obtain ⟨m₂, requeued', held, _, advances⟩ := requeue_held valid
    cases requeued'.symm.trans requeued
    exact picksLongestWaiting held.queues.levels fun rq below => inOrder.advance advances below
  · rcases bind_eq_error_iff.mp stopped with atStep | ⟨_, _, ⟨⟩⟩
    exact stop_of_step valid atStep

/-- A descriptor in memory that is zero. -/
def zeroed : ProcStruct where
  state := .uninit
  pid := 0
  runs := 0
  kstack := ⟨.dead, 0, 0⟩
  needResched := false
  parent := none
  mm := none
  flags := 0
  exitCode := 0
  waitState := 0
  cptr := none
  yptr := none
  optr := none
  rq := none
  timeSlice := 0
  isRT := false
  computeTime := 0
  periodTime := 0
  ct := 0
  pt := 0

/-- Two processes are forked and woken, and the first one uses up its time slice. -/
def exhaust : List Event :=
  [.fork 1, .wakeup 1, .fork 2, .wakeup 2, .schedule] ++ List.replicate 8 .tick ++ [.schedule]

/-- It waits on the second level then. -/
theorem mlfq_discipline_exhaust :
    ∃ w, Run.exec Waiting.step ⟨booted fun _ => zeroed, 0, fun _ => 0⟩ exhaust = .ok w ∧
      ((w.mlfq.queues 1).runList = [1] ∧ w.mlfq.current = 2) ∧
      w.mlfq.PicksLongestWaiting w.since := by
  obtain ⟨w, run, seen⟩ := Run.exec_of_decide
    (fun w : Waiting => (w.mlfq.queues 1).runList = [1] ∧ w.mlfq.current = 2)
    (by decide +kernel : (Run.exec Waiting.step ⟨booted fun _ => zeroed, 0, fun _ => 0⟩
      exhaust).map _ = .ok true)
  have discipline := mlfq_discipline (schedInit_boot _) run
  exact ⟨w, run, seen, discipline.2.2.2.2.2.1⟩

end EdfKernel.Mlfq
