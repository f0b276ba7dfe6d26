import EdfKernel.Library.DemandBound
import EdfKernel.Library.Run
import EdfKernel.Process.Reachable
import Mathlib.Algebra.GCDMonoid.Finset
import Mathlib.Algebra.GCDMonoid.Nat

/-!
# Schedulability under the deadline scheduler

The scheduler alone: timer ticks in the current process, each followed by
`schedule` when the process is marked for it, with real-time processes joining
between the ticks.  Deadlines are unbounded integers here.

A process that completes its job starts the next one at once, and a process that
joins with an early deadline waits for the next tick.  The demand bound of
`DemandBound` allows for both.
-/

namespace EdfKernel

open Library Library.DemandBound

/-- The places where a missed deadline panics. -/
def Panic.Deadline : Panic → Prop
  | .currentMissed => True
  | .queuedMissed => True
  | .queuedNegative => True
  | _ => False

/-- The events of the scheduler alone; `child` and `mm` are what `kmalloc` returns
to `do_forkRT`. -/
inductive EdfEvent
  | tick
  | forkRT (ct pt : Int) (child : ProcPtr) (mm : MmPtr)
  deriving DecidableEq, Repr

namespace Kernel

/-- A tick in the current process: `MY_proc_tick`, and `schedule` if it has set
`need_resched`. -/
def edfTick (k : Kernel) : Except Stop Kernel := do
  let k ← k.myProcTick id k.current
  if (k.procs k.current).needResched then k.schedule else .ok k

/-- `do_forkRT` when it finds memory and locks at once. -/
def doForkRT (k : Kernel) (ct pt : Int) (child : ProcPtr) (mm : MmPtr) : Except Stop Kernel :=
  if maxProcess ≤ k.nrProcess then .ok k
  else do
    let k ← k.forkAlloc (.realTime ct pt) child
    let k ← k.forkLink 0 child mm
    k.wakeupProc child

/-- One event of the scheduler alone. -/
def edfStep (k : Kernel) : EdfEvent → Except Stop Kernel
  | .tick => k.edfTick
  | .forkRT ct pt child mm => k.doForkRT ct pt child mm

/-! ## Processes as periodic tasks -/

/-- The deadline fields of the processes as a family of periodic tasks. -/
def tasks (k : Kernel) : Tasks ProcPtr where
  cost p := (k.procs p).computeTime
  period p := (k.procs p).periodTime
  ct p := (k.procs p).ct
  pt p := (k.procs p).pt

/-- The current process and the queued ones. -/
def live (k : Kernel) : Finset ProcPtr :=
  insert k.current (k.heap.entry.map HeapEntry.proc).toFinset

theorem tasks_eq_of_unsched {k k' : Kernel} (same : k'.unsched.procs = k.unsched.procs) :
    k'.tasks = k.tasks := by
  have read : ∀ m : Kernel, m.tasks =
      ⟨fun p => (m.unsched.procs p).computeTime, fun p => (m.unsched.procs p).periodTime,
        fun p => (m.unsched.procs p).ct, fun p => (m.unsched.procs p).pt⟩ := fun _ => rfl
  rw [read, read, same]

end Kernel

/-- Every process that competes for the processor is a real-time process in the
middle of a job. -/
structure Edf (k : Kernel) : Prop where
  idle : k.allocated k.idleproc = true
  queue : RunQueue k
  ordered : k.heap.Ordered
  running : k.Contends k.current
  realTime : ∀ p, k.Contends p → (k.procs p).isRT = true
  live : ∀ p, k.Contends p → k.tasks.Live p

theorem RunQueue.mem_live_iff {k : Kernel} (queue : RunQueue k) (running : k.Contends k.current)
    (p : ProcPtr) : p ∈ k.live ↔ k.Contends p := by
  rw [Kernel.live, Finset.mem_insert, List.mem_toFinset, ← queue.ready_iff_mem, Kernel.Ready]
  by_cases own : p = k.current
  · subst p
    simp [running]
  · simp [own]

theorem RunQueue.card_live {k : Kernel} (queue : RunQueue k) :
    k.live.card = k.heap.entry.length + 1 := by
  rw [Kernel.live, Finset.card_insert_of_notMem, List.toFinset_card_of_nodup queue.nodup,
    List.length_map]
  rw [List.mem_toFinset, ← queue.ready_iff_mem]
  exact fun ready => ready.2 rfl

/-! ## One tick -/

/-- A process whose unfinished job has been served for a tick, with unbounded
integers. -/
def ProcStruct.served (s : ProcStruct) : ProcStruct :=
  if s.ct + 1 = s.computeTime then
    { s with needResched := true, ct := 0, pt := s.pt - 1 + s.periodTime }
  else { s with ct := s.ct + 1, pt := s.pt - 1 }

theorem ProcStruct.chargeTick_eq {s : ProcStruct} (unfinished : s.ct < s.computeTime) :
    s.chargeTick id =
      if s.pt = 1 ∧ s.ct + 1 < s.computeTime then .error (.panic .currentMissed)
      else .ok s.served := by
  have due : s.pt - 1 = 0 ↔ s.pt = 1 := by omega
  simp only [chargeTick, serve, release, if_pos unfinished, id, due, served]
  by_cases missed : s.pt = 1 ∧ s.ct + 1 < s.computeTime
  · rw [if_pos missed, if_pos missed]
  · rw [if_neg missed, if_neg missed]
    split <;> rfl

namespace Edf

variable {k k' : Kernel}

theorem mem_live_iff (edf : Edf k) (p : ProcPtr) : p ∈ k.live ↔ k.Contends p :=
  edf.queue.mem_live_iff edf.running p

end Edf

namespace Kernel

/-- The kernel one tick later, before `MY_proc_tick` looks at the top of the heap. -/
def servedTick (k : Kernel) : Kernel :=
  (k.modify k.current ProcStruct.served).aged id

/-- No deadline is missed at the next tick. -/
def OnTime (k : Kernel) : Prop :=
  ((k.procs k.current).pt = 1 → (k.procs k.current).ct + 1 = (k.procs k.current).computeTime) ∧
    ∀ p, k.Ready p → 2 ≤ (k.procs p).pt

end Kernel

namespace Edf

variable {k k' : Kernel}

theorem servedTick_procs_current (edf : Edf k) :
    k.servedTick.procs k.current = (k.procs k.current).served := by
  have notQueued : k.current ∉ k.heap.entry.map HeapEntry.proc := fun mem =>
    ((edf.queue.ready_iff_mem _).mpr mem).2 rfl
  rw [Kernel.servedTick, Kernel.aged]
  exact (if_neg notQueued).trans (Kernel.modify_procs_self _ _ _)

theorem servedTick_procs_ready (edf : Edf k) {p : ProcPtr} (ready : k.Ready p) :
    k.servedTick.procs p = (k.procs p).age id := by
  rw [Kernel.servedTick, Kernel.aged]
  refine (if_pos ((edf.queue.ready_iff_mem p).mp ready)).trans ?_
  rw [Kernel.modify_procs_of_ne _ _ _ ready.2]

theorem servedTick_untimed (k : Kernel) : k.servedTick.untimed = k.untimed := by
  refine (Kernel.aged_untimed id _).trans (Kernel.untimed_modify k k.current _ ?_)
  unfold ProcStruct.served
  split <;> rfl

theorem servedTick_contends_iff (k : Kernel) (p : ProcPtr) :
    k.servedTick.Contends p ↔ k.Contends p := by
  have state : (k.servedTick.procs p).state = (k.procs p).state :=
    (congrArg (fun m => (m.procs p).state) (servedTick_untimed k) :)
  rw [Kernel.Contends, state]
  rfl

theorem servedTick_queue (edf : Edf k) : RunQueue k.servedTick :=
  (edf.queue.modify_current ProcStruct.served).aged id

theorem servedTick_ordered (edf : Edf k) : k.servedTick.heap.Ordered := by
  apply Kernel.aged_ordered edf.ordered
  intro e _ e' _ le
  change e.x - 1 ≤ e'.x - 1
  omega

/-- The tasks are served for one tick. -/
theorem servedTick_served (edf : Edf k) :
    Tasks.Served k.tasks k.servedTick.tasks k.live k.current := by
  have static : ∀ p, (k.servedTick.procs p).untimed = (k.procs p).untimed :=
    fun p => (congrArg (fun m => m.procs p) (servedTick_untimed k) :)
  have waiting : ∀ p ∈ k.live, p ≠ k.current → k.Ready p :=
    fun p mem ne => ⟨(edf.mem_live_iff p).mp mem, ne⟩
  constructor
  · exact fun p _ => (congrArg ProcStruct.computeTime (static p) :)
  · exact fun p _ => (congrArg ProcStruct.periodTime (static p) :)
  · intro p mem ne
    simp [Kernel.tasks, edf.servedTick_procs_ready (waiting p mem ne), ProcStruct.age]
  · intro p mem ne
    simp [Kernel.tasks, edf.servedTick_procs_ready (waiting p mem ne), ProcStruct.age]
  · simp only [Kernel.tasks, edf.servedTick_procs_current, ProcStruct.served]
    exact apply_ite ProcStruct.ct _ _ _
  · simp only [Kernel.tasks, edf.servedTick_procs_current, ProcStruct.served]
    exact apply_ite ProcStruct.pt _ _ _

/-- A task in the middle of a job is so after a tick at which no deadline is
missed. -/
theorem servedTick_live (edf : Edf k) (onTime : k.OnTime) {p : ProcPtr} (contends : k.Contends p) :
    k.servedTick.tasks.Live p := by
  have served := edf.servedTick_served
  have mem := (edf.mem_live_iff p).mpr contends
  have before := edf.live p contends
  have costPos := before.cost_pos
  have ctNonneg := before.ct_nonneg
  have ctLt := before.ct_lt
  have ptPos := before.pt_pos
  have costLe := before.cost_le
  have cost := served.cost_eq p mem
  have period := served.period_eq p mem
  by_cases own : p = k.current
  · subst p
    have ct := served.served_ct
    have pt := served.served_pt
    have due : k.tasks.pt k.current = 1 → k.tasks.ct k.current + 1 = k.tasks.cost k.current :=
      onTime.1
    constructor <;> split at ct <;> split at pt <;> omega
  · have ct := served.waiting_ct p mem own
    have pt := served.waiting_pt p mem own
    have due : 2 ≤ k.tasks.pt p := onTime.2 p ⟨contends, own⟩
    constructor <;> omega

/-- A queued process passes the check of `tick_decrease_pt_heap` exactly when its
deadline is not the next tick. -/
theorem age_meetsDeadline_iff (edf : Edf k) {p : ProcPtr} (contends : k.Contends p) :
    ((k.procs p).age id).MeetsDeadline ↔ 2 ≤ (k.procs p).pt := by
  have ctLt : (k.procs p).ct < (k.procs p).computeTime := (edf.live p contends).ct_lt
  have ptPos : 1 ≤ (k.procs p).pt := (edf.live p contends).pt_pos
  unfold ProcStruct.MeetsDeadline ProcStruct.age
  simp only [id]
  omega

/-- `MY_proc_tick` succeeds exactly when no deadline is missed. -/
theorem myProcTick_eq_ok_iff (edf : Edf k) (nonempty : k.heap.entry ≠ []) :
    k.myProcTick id k.current = .ok k' ↔ k.OnTime ∧
      k' = if (entryAt k.servedTick.heap.entry 0).x < (k.servedTick.procs k.current).pt then
          k.servedTick.modify k.current fun s => { s with needResched := true }
        else k.servedTick := by
  have unfinished : (k.procs k.current).ct < (k.procs k.current).computeTime :=
    (edf.live _ edf.running).ct_lt
  have charge : k.myChargeTick id k.current =
      if (k.procs k.current).pt = 1 ∧
          (k.procs k.current).ct + 1 < (k.procs k.current).computeTime then
        .error (.panic .currentMissed)
      else .ok (k.modify k.current ProcStruct.served) := by
    rw [Kernel.myChargeTick, if_neg (by simp [edf.realTime _ edf.running]),
      ProcStruct.chargeTick_eq unfinished]
    split <;> rfl
  have others : (∀ e ∈ k.heap.entry, (((k.modify k.current ProcStruct.served).procs
      e.proc).age id).MeetsDeadline) ↔ ∀ p, k.Ready p → 2 ≤ (k.procs p).pt := by
    constructor
    · intro meets p ready
      obtain ⟨e, mem, rfl⟩ := List.mem_map.mp ((edf.queue.ready_iff_mem p).mp ready)
      have := meets e mem
      rw [Kernel.modify_procs_of_ne _ _ _ ready.2] at this
      exact (edf.age_meetsDeadline_iff ready.1).mp this
    · intro late e mem
      have ready := edf.queue.member_of_mem mem
      rw [Kernel.modify_procs_of_ne _ _ _ ready.2]
      exact (edf.age_meetsDeadline_iff ready.1).mpr (late _ ready)
  have top : k.servedTick.heap.entry ≠ [] := by
    simpa [Kernel.servedTick, Kernel.aged] using nonempty
  rw [Kernel.myProcTick_eq_ok_iff edf.queue.nodup, charge]
  by_cases missed : (k.procs k.current).pt = 1 ∧
      (k.procs k.current).ct + 1 < (k.procs k.current).computeTime
  · have late : ¬k.OnTime := by
      rintro ⟨complete, _⟩
      have := complete missed.1
      omega
    simp [missed, late]
  · rw [if_neg missed]
    have complete : (k.procs k.current).pt = 1 →
        (k.procs k.current).ct + 1 = (k.procs k.current).computeTime := by
      intro due
      omega
    constructor
    · rintro ⟨m, charged, meets, _, rfl⟩
      cases charged
      exact ⟨⟨complete, others.mp meets⟩, rfl⟩
    · rintro ⟨onTime, rfl⟩
      exact ⟨_, rfl, others.mpr onTime.2, top, rfl⟩

end Edf

/-- What a tick leaves at which no deadline is missed: the same tasks, served once,
with the processor at one that is due first. -/
structure Ticked (k k' : Kernel) : Prop where
  edf : Edf k'
  contends_iff : ∀ p, k'.Contends p ↔ k.Contends p
  served : Tasks.Served k.tasks k'.tasks k.live k.current
  first : ∀ p, k'.Contends p → (k'.procs k'.current).pt ≤ (k'.procs p).pt

namespace Ticked

variable {k k' : Kernel}

theorem live_eq (ticked : Ticked k k') (edf : Edf k) : k'.live = k.live := by
  ext p
  rw [ticked.edf.mem_live_iff, edf.mem_live_iff, ticked.contends_iff]

theorem length_eq (ticked : Ticked k k') (edf : Edf k) :
    k'.heap.entry.length = k.heap.entry.length := by
  have card := edf.queue.card_live
  rw [← ticked.live_eq edf, ticked.edf.queue.card_live] at card
  omega

end Ticked

namespace Edf

variable {k k' : Kernel}

/-- A kernel in which the tick has been accounted for is an `Edf` one. -/
theorem of_servedTick (edf : Edf k) (onTime : k.OnTime)
    (same : k'.unsched = { k.servedTick.unsched with current := k'.current })
    (queue : RunQueue k') (ordered : k'.heap.Ordered) (running : k'.Contends k'.current)
    (first : ∀ p, k'.Contends p → (k'.procs k'.current).pt ≤ (k'.procs p).pt) :
    Ticked k k' := by
  have contends : ∀ p, k'.Contends p ↔ k.Contends p := fun p =>
    (Kernel.contends_iff_of_unsched same p).trans (servedTick_contends_iff k p)
  have tasks : k'.tasks = k.servedTick.tasks :=
    Kernel.tasks_eq_of_unsched (congrArg Kernel.procs same :)
  have idle : k'.allocated k'.idleproc = k.allocated k.idleproc :=
    (congrArg (fun m => m.allocated m.idleproc) same :)
  constructor
  · constructor
    · rw [idle]
      exact edf.idle
    · exact queue
    · exact ordered
    · exact running
    · intro p competes
      have isRT : (k'.procs p).isRT = (k.servedTick.procs p).isRT :=
        (congrArg (fun m => (m.procs p).isRT) same :)
      have kept : (k.servedTick.procs p).isRT = (k.procs p).isRT :=
        (congrArg (fun m => (m.procs p).isRT) (servedTick_untimed k) :)
      rw [isRT, kept]
      exact edf.realTime p ((contends p).mp competes)
    · intro p competes
      rw [tasks]
      exact edf.servedTick_live onTime ((contends p).mp competes)
  · exact contends
  · rw [tasks]
    exact edf.servedTick_served
  · exact first

/-- `MY_proc_tick` marks the process, unless it is due first. -/
theorem first_of_not_marked (edf : Edf k) {m : Kernel} (nonempty : k.heap.entry ≠ [])
    (ticked : k.myProcTick id k.current = .ok m) (notMarked : (m.procs m.current).needResched = false)
    {p : ProcPtr} (contends : m.Contends p) : (m.procs m.current).pt ≤ (m.procs p).pt := by
  obtain ⟨_, rfl⟩ := (edf.myProcTick_eq_ok_iff nonempty).mp ticked
  split at notMarked
  · have marked : ((k.servedTick.modify k.current fun s => { s with needResched := true }).procs
        k.current).needResched = true := by
      rw [Kernel.modify_procs_self]
    rw [Kernel.modify_current] at notMarked
    exact absurd (marked.symm.trans notMarked) (by simp)
  · rename_i notEarlier
    rw [if_neg notEarlier] at contends ⊢
    by_cases own : p = k.current
    · rw [own]
      exact le_rfl
    · have queue := edf.servedTick_queue
      obtain ⟨e, mem, rfl⟩ := List.mem_map.mp ((queue.ready_iff_mem p).mp ⟨contends, own⟩)
      rw [← queue.key e mem]
      exact (not_lt.mp notEarlier).trans (edf.servedTick_ordered.top_le mem)

/-- `MY_proc_tick` leaves the processor and the run queue as they are, apart from
the tick. -/
theorem myProcTick_frame (edf : Edf k) {m : Kernel} (nonempty : k.heap.entry ≠ [])
    (ticked : k.myProcTick id k.current = .ok m) :
    m.unsched = { k.servedTick.unsched with current := m.current } ∧ RunQueue m ∧
      m.heap = k.servedTick.heap ∧ m.Contends m.current := by
  obtain ⟨_, result⟩ := (edf.myProcTick_eq_ok_iff nonempty).mp ticked
  have same : m.unsched = k.servedTick.unsched := by
    rw [result]
    split
    · exact Kernel.unsched_modify _ _ _ rfl
    · rfl
  have current : m.current = k.current := (congrArg Kernel.current same :)
  have frame : m.unsched = { k.servedTick.unsched with current := m.current } := by
    rw [same, current]
    rfl
  have heap : m.heap = k.servedTick.heap := by
    rw [result]
    split <;> rfl
  refine ⟨frame, ?_, ?_, ?_⟩
  · rw [result]
    split
    · exact edf.servedTick_queue.modify_current _
    · exact edf.servedTick_queue
  · exact heap
  · rw [current, Kernel.contends_iff_of_unsched frame, servedTick_contends_iff]
    exact edf.running

/-- A tick that does not stop misses no deadline. -/
theorem edfTick_eq_ok (edf : Edf k) (nonempty : k.heap.entry ≠ []) (ticked : k.edfTick = .ok k') :
    k.OnTime ∧ Ticked k k' := by
  obtain ⟨m, procTick, switch⟩ := bind_eq_ok_iff.mp ticked
  obtain ⟨onTime, _⟩ := (edf.myProcTick_eq_ok_iff nonempty).mp procTick
  obtain ⟨frame, queue, heap, running⟩ := edf.myProcTick_frame nonempty procTick
  have ordered : m.heap.Ordered := heap ▸ edf.servedTick_ordered
  constructor
  · exact onTime
  · split at switch
    · obtain ⟨queue', running'⟩ := queue.schedule running.1 switch
      apply edf.of_servedTick onTime _ queue' (Kernel.schedule_ordered ordered switch) running'
        (queue.schedule_first ordered running.1 switch)
      rw [Kernel.schedule_unsched switch, frame]
    · rename_i notMarked
      cases switch
      exact edf.of_servedTick onTime frame queue ordered running fun p contends =>
        edf.first_of_not_marked nonempty procTick (by simpa using notMarked) contends

/-- After `MY_proc_tick` the tick does not stop any more. -/
theorem edfTick_of_procTick (edf : Edf k) {m : Kernel} (nonempty : k.heap.entry ≠ [])
    (room : k.heap.entry.length < maxHeapSize) (ticked : k.myProcTick id k.current = .ok m) :
    ∃ k', k.edfTick = .ok k' := by
  obtain ⟨_, queue, heap, running⟩ := edf.myProcTick_frame nonempty ticked
  have length : m.heap.entry.length = k.heap.entry.length := by
    rw [heap]
    simp [Kernel.servedTick, Kernel.aged]
  by_cases marked : (m.procs m.current).needResched = true
  · obtain ⟨k', switched⟩ := queue.schedule_of_lt running (length ▸ room)
    refine ⟨k', bind_eq_ok_iff.mpr ⟨m, ticked, ?_⟩⟩
    rw [if_pos marked]
    exact switched
  · refine ⟨m, bind_eq_ok_iff.mpr ⟨m, ticked, ?_⟩⟩
    rw [if_neg marked]

/-- A tick at which no deadline is missed does not stop. -/
theorem edfTick_of_onTime (edf : Edf k) (nonempty : k.heap.entry ≠ [])
    (room : k.heap.entry.length < maxHeapSize) (onTime : k.OnTime) :
    ∃ k', k.edfTick = .ok k' :=
  edf.edfTick_of_procTick nonempty room ((edf.myProcTick_eq_ok_iff nonempty).mpr ⟨onTime, rfl⟩)

/-- A tick only stops at a missed deadline. -/
theorem edfTick_eq_error (edf : Edf k) (nonempty : k.heap.entry ≠ [])
    (room : k.heap.entry.length < maxHeapSize) {stop : Stop} (stopped : k.edfTick = .error stop) :
    ∃ site : Panic, site.Deadline ∧ stop = .panic site := by
  cases ticked : k.myProcTick id k.current with
  | ok m =>
      obtain ⟨k', done⟩ := edf.edfTick_of_procTick nonempty room ticked
      rw [done] at stopped
      contradiction
  | error reason =>
      have same : stop = reason := by
        rw [Kernel.edfTick, ticked] at stopped
        exact (Except.error.inj stopped).symm
      subst same
      rcases bind_eq_error_iff.mp ticked with charge | ⟨m, charge, rest⟩
      · have unfinished : (k.procs k.current).ct < (k.procs k.current).computeTime :=
          (edf.live _ edf.running).ct_lt
        rw [Kernel.myChargeTick, if_neg (by simp [edf.realTime _ edf.running]),
          ProcStruct.chargeTick_eq unfinished] at charge
        split at charge
        · cases charge
          exact ⟨.currentMissed, trivial, rfl⟩
        · cases charge
      · rcases bind_eq_error_iff.mp rest with sweep | ⟨aged, sweep, rest⟩
        · rcases bind_eq_error_iff.mp sweep with missed | ⟨_, _, impossible⟩
          · rcases tickDecreasePtLoop_eq_error missed with rfl | rfl
            · exact ⟨.queuedMissed, trivial, rfl⟩
            · exact ⟨.queuedNegative, trivial, rfl⟩
          · cases impossible
        · have heap : m.heap = k.heap := Kernel.myChargeTick_heap charge
          have nodup := edf.queue.nodup
          rw [← heap] at nodup nonempty
          obtain ⟨rfl, _⟩ := (Kernel.tickDecreasePtHeap_eq_ok_iff nodup).mp sweep
          have top : (m.aged id).heap.entry ≠ [] := by
            simpa [Kernel.aged] using nonempty
          simp [heapExistEarlierDeadline, heapGettop, heapEmpty_eq_false_iff.mpr top, bind,
            Except.bind, pure, Except.pure] at rest

end Edf

/-! ## Joining -/

/-- What `do_forkRT` leaves when it creates a process: one more task, which has not
been served. -/
structure Joined (k k' : Kernel) (child : ProcPtr) : Prop where
  edf : Edf k'
  current_eq : k'.current = k.current
  contends_iff : ∀ p, k'.Contends p ↔ p = child ∨ k.Contends p
  new : ¬k.Contends child
  fresh : k'.tasks.Fresh child
  cost_eq : ∀ p, k.Contends p → k'.tasks.cost p = k.tasks.cost p
  period_eq : ∀ p, k.Contends p → k'.tasks.period p = k.tasks.period p
  ct_eq : ∀ p, k.Contends p → k'.tasks.ct p = k.tasks.ct p
  pt_eq : ∀ p, k.Contends p → k'.tasks.pt p = k.tasks.pt p

/-- The fields from which the scheduler computes deadlines. -/
def ProcStruct.deadline (s : ProcStruct) : Bool × Int × Int × Int × Int :=
  (s.isRT, s.computeTime, s.periodTime, s.ct, s.pt)

section DoForkRT

variable {k k' : Kernel} {ct pt : Int} {child : ProcPtr} {mm : MmPtr}

/-- `do_forkRT` fills in a free descriptor, links it and wakes it. -/
theorem Edf.doForkRT_eq_ok (edf : Edf k) (forked : k.doForkRT ct pt child mm = .ok k') :
    k' = k ∨ ∃ (timeSlice rest : Int) (linked : Kernel),
      k.allocated child = false ∧ k.current ≠ child ∧ RunQueue linked ∧ linked.heap = k.heap ∧
        linked.unlinked = (k.withChild (.realTime ct pt) child timeSlice rest).unlinked ∧
        linked.wakeupProc child = .ok k' := by
  unfold Kernel.doForkRT at forked
  split at forked
  · cases forked
    exact .inl rfl
  · right
    obtain ⟨made, alloc, rest⟩ := bind_eq_ok_iff.mp forked
    obtain ⟨linked, link, woken⟩ := bind_eq_ok_iff.mp rest
    have queue := edf.queue.forkAlloc edf.running.1 alloc
    obtain ⟨free, notCurrent, _, timeSlice, left, rfl⟩ :=
      Kernel.forkAlloc_eq_ok edf.running.1 alloc
    have frame := Kernel.forkLink_unlinked link
    exact ⟨timeSlice, left, linked, free, notCurrent, queue.of_unlinked frame,
      (congrArg Kernel.heap frame :), frame, woken⟩

/-- The new process competes for the processor, like those before it. -/
theorem contends_of_woken {made linked : Kernel} (frame : linked.unlinked = made.unlinked)
    (asleep : (made.procs child).state = .uninit) (allocated : made.allocated child = true)
    (notIdle : child ≠ made.idleproc) (woken : linked.wakeupProc child = .ok k') (q : ProcPtr) :
    k'.Contends q ↔ q = child ∨ made.Contends q := by
  have linkedState : ∀ q, (linked.procs q).state = (made.procs q).state :=
    fun q => (congrArg (fun m => (m.procs q).state) frame :)
  have linkedAllocated : linked.allocated = made.allocated := (congrArg Kernel.allocated frame :)
  have linkedIdle : linked.idleproc = made.idleproc := (congrArg Kernel.idleproc frame :)
  obtain ⟨_, ⟨runnable, _⟩ | ⟨_, wake⟩⟩ := Kernel.wakeupProc_unsched woken
  · rw [linkedState, asleep] at runnable
    contradiction
  · have state : (k'.procs q).state = ((linked.awaken child).procs q).state :=
      (congrArg (fun m => (m.procs q).state) wake :)
    have wokenAllocated : k'.allocated = linked.allocated := (congrArg Kernel.allocated wake :)
    have wokenIdle : k'.idleproc = linked.idleproc := (congrArg Kernel.idleproc wake :)
    rw [Kernel.Contends, Kernel.Contends, state, wokenAllocated, wokenIdle, linkedAllocated,
      linkedIdle]
    by_cases new : q = child
    · subst q
      simp [Kernel.awaken, allocated, notIdle]
    · rw [Kernel.awaken, Kernel.modify_procs_of_ne _ _ _ new, linkedState]
      simp [new]

/-- `do_forkRT` with `1 ≤ ct ≤ pt` adds a task, unless there are too many processes. -/
theorem Edf.doForkRT (edf : Edf k) (costPos : 1 ≤ ct) (costLe : ct ≤ pt)
    (forked : k.doForkRT ct pt child mm = .ok k') : k' = k ∨ Joined k k' child := by
  rcases edf.doForkRT_eq_ok forked with same |
    ⟨timeSlice, rest, linked, free, notCurrent, queue, heap, frame, woken⟩
  · exact .inl same
  · right
    have notIdle : child ≠ k.idleproc := by
      rintro rfl
      simp [edf.idle] at free
    have allocated : (k.withChild (.realTime ct pt) child timeSlice rest).allocated child = true := by
      rw [Kernel.withChild_allocated, Function.update_self]
    have childProc := k.withChild_procs_child (.realTime ct pt) child timeSlice rest notCurrent
    have contends : ∀ q, k'.Contends q ↔ q = child ∨ k.Contends q := by
      intro q
      rw [contends_of_woken frame (by rw [childProc, Kernel.born_state]) allocated notIdle woken,
        Kernel.withChild_contends_iff free notCurrent]
    have wake := Kernel.wakeupProc_unwoken woken
    have deadline : ∀ q, (k'.procs q).deadline =
        ((k.withChild (.realTime ct pt) child timeSlice rest).procs q).deadline := by
      intro q
      have awake : (k'.procs q).deadline = (linked.procs q).deadline :=
        (congrArg (fun m => (m.procs q).deadline) wake :)
      exact awake.trans (congrArg (fun m => (m.procs q).deadline) frame :)
    have new : (k'.procs child).deadline = (true, ct, pt, 0, pt) := by
      rw [deadline, childProc]
      rfl
    have old : ∀ q, k.Contends q → (k'.procs q).deadline = (k.procs q).deadline := by
      intro q competes
      have ne : q ≠ child := by
        rintro rfl
        simp [competes.1] at free
      rw [deadline]
      exact (congrArg ProcStruct.deadline (k.withChild_procs_unlinked _ _ _ _ ne) :)
    have linkedAllocated : linked.allocated child = true := by
      rw [← allocated]
      exact (congrArg (fun m => m.allocated child) frame :)
    have linkedIdle : linked.idleproc = k.idleproc := (congrArg Kernel.idleproc frame :)
    have current : k'.current = k.current :=
      (congrArg Kernel.current wake :).trans (congrArg Kernel.current frame :)
    have idleproc : k'.idleproc = k.idleproc := (congrArg Kernel.idleproc wake :).trans linkedIdle
    have idle : k'.allocated k.idleproc = true := by
      have same : k'.allocated k.idleproc = Function.update k.allocated child true k.idleproc :=
        (congrArg (fun m => m.allocated k.idleproc) wake :).trans
          (congrArg (fun m => m.allocated k.idleproc) frame :)
      rw [same, Function.update_of_ne notIdle.symm]
      exact edf.idle
    simp only [ProcStruct.deadline, Prod.mk.injEq] at new old
    obtain ⟨newRT, newCost, newPeriod, newCt, newPt⟩ := new
    constructor
    · constructor
      · rw [idleproc]
        exact idle
      · exact queue.wakeupProc linkedAllocated (linkedIdle ▸ notIdle) woken
      · exact Kernel.wakeupProc_ordered (heap ▸ edf.ordered) woken
      · rw [contends, current]
        exact .inr edf.running
      · intro q competes
        rcases (contends q).mp competes with rfl | before
        · exact newRT
        · rw [(old q before).1]
          exact edf.realTime q before
      · intro q competes
        rcases (contends q).mp competes with rfl | before
        · constructor <;> simp only [Kernel.tasks] <;> omega
        · obtain ⟨_, cost, period, ctSame, ptSame⟩ := old q before
          have live := edf.live q before
          constructor <;> simp only [Kernel.tasks, cost, period, ctSame, ptSame]
          · exact live.cost_pos
          · exact live.cost_le
          · exact live.ct_nonneg
          · exact live.ct_lt
          · exact live.pt_pos
    · exact current
    · exact contends
    · intro competes
      simp [competes.1] at free
    · exact ⟨newCt, newPt.trans newPeriod.symm⟩
    · exact fun q competes => (old q competes).2.1
    · exact fun q competes => (old q competes).2.2.1
    · exact fun q competes => (old q competes).2.2.2.1
    · exact fun q competes => (old q competes).2.2.2.2

end DoForkRT

/-! ## Runs within the utilisation bound -/

/-- What holds between two ticks of a schedulable run: only processes that have just
joined can be due before the current one, and the demand is bounded. -/
structure Feasible (k : Kernel) : Prop where
  edf : Edf k
  order : ∀ p, k.Contends p → (k.procs k.current).pt ≤ (k.procs p).pt ∨ k.tasks.Fresh p
  bounded : k.tasks.Bounded k.live

/-- The number of processes and the sum of their shares at one moment. -/
structure Kernel.Admissible (k : Kernel) : Prop where
  two_le : 2 ≤ k.live.card
  le_max : k.live.card ≤ maxHeapSize
  utilisation_le : k.tasks.utilisation k.live ≤ 1

/-- An event at an admissible moment, with sensible arguments. -/
def EdfAllowed (k : Kernel) (event : EdfEvent) : Prop :=
  k.Admissible ∧
    match event with
    | .tick => True
    | .forkRT ct pt _ _ => 1 ≤ ct ∧ ct ≤ pt

theorem Edf.nonempty {k : Kernel} (edf : Edf k) (two : 2 ≤ k.live.card) : k.heap.entry ≠ [] := by
  rw [edf.queue.card_live] at two
  intro empty
  rw [empty] at two
  simp at two

theorem Edf.room {k : Kernel} (edf : Edf k) (max : k.live.card ≤ maxHeapSize) :
    k.heap.entry.length < maxHeapSize := by
  rw [edf.queue.card_live] at max
  omega

namespace Feasible

variable {k k' : Kernel}

theorem live_mem (feasible : Feasible k) : ∀ p ∈ k.live, k.tasks.Live p :=
  fun p mem => feasible.edf.live p ((feasible.edf.mem_live_iff p).mp mem)

theorem order_mem (feasible : Feasible k) : ∀ p ∈ k.live, p ≠ k.current →
    k.tasks.pt k.current ≤ k.tasks.pt p ∨ k.tasks.Fresh p :=
  fun p mem _ => feasible.order p ((feasible.edf.mem_live_iff p).mp mem)

/-- No deadline is missed at the next tick. -/
theorem onTime (feasible : Feasible k) (full : k.tasks.utilisation k.live ≤ 1) : k.OnTime := by
  constructor
  · exact feasible.bounded.served_meets (Finset.mem_insert_self ..) feasible.live_mem full
  · intro p ready
    exact feasible.bounded.waiting_meets (Finset.mem_insert_self ..) feasible.live_mem
      feasible.order_mem full ((feasible.edf.mem_live_iff p).mpr ready.1) ready.2

theorem tick (feasible : Feasible k) (admissible : k.Admissible) (ticked : k.edfTick = .ok k') :
    Feasible k' := by
  obtain ⟨_, after⟩ := feasible.edf.edfTick_eq_ok
    (feasible.edf.nonempty admissible.two_le) ticked
  constructor
  · exact after.edf
  · exact fun p contends => .inl (after.first p contends)
  · rw [after.live_eq feasible.edf]
    exact feasible.bounded.served after.served (Finset.mem_insert_self ..) feasible.live_mem
      feasible.order_mem admissible.utilisation_le

theorem join (feasible : Feasible k) {child : ProcPtr} (joined : Joined k k' child) :
    Feasible k' := by
  constructor
  · exact joined.edf
  · intro p contends
    rcases (joined.contends_iff p).mp contends with rfl | before
    · exact .inr joined.fresh
    · have current := joined.pt_eq _ feasible.edf.running
      have other := joined.pt_eq p before
      rcases feasible.order p before with notEarlier | fresh
      · left
        simp only [Kernel.tasks] at current other
        rw [joined.current_eq, current, other]
        exact notEarlier
      · right
        rw [Tasks.Fresh, joined.ct_eq p before, other, joined.period_eq p before]
        exact fresh
  · have live : k'.live = insert child k.live := by
      ext p
      rw [joined.edf.mem_live_iff, joined.contends_iff, Finset.mem_insert,
        feasible.edf.mem_live_iff]
    have contends : ∀ p ∈ k.live, k.Contends p :=
      fun p mem => (feasible.edf.mem_live_iff p).mp mem
    rw [live]
    apply Tasks.Bounded.insert
    · exact feasible.bounded.congr (fun p mem => joined.cost_eq p (contends p mem))
        (fun p mem => joined.period_eq p (contends p mem))
        (fun p mem => joined.ct_eq p (contends p mem))
        (fun p mem => joined.pt_eq p (contends p mem))
    · exact fun mem => joined.new (contends child mem)
    · exact joined.edf.live child ((joined.contends_iff child).mpr (.inl rfl))
    · exact joined.fresh

theorem step (feasible : Feasible k) {event : EdfEvent} (allowed : EdfAllowed k event)
    (taken : k.edfStep event = .ok k') : Feasible k' := by
  cases event with
  | tick => exact feasible.tick allowed.1 taken
  | forkRT ct pt child mm =>
      rcases feasible.edf.doForkRT allowed.2.1 allowed.2.2 taken with rfl | joined
      · exact feasible
      · exact feasible.join joined

end Feasible

/-- A call of `schedule` after which only real-time processes with sensible arguments compete for
the processor. -/
structure EdfContest (before k : Kernel) : Prop where
  idle : before.allocated before.idleproc = true
  current : before.allocated before.current = true
  queue : RunQueue before
  ordered : before.heap.Ordered
  realTime : ∀ p, before.Contends p → (before.procs p).isRT = true
  cost_pos : ∀ p, before.Contends p → 1 ≤ (before.procs p).computeTime
  cost_le : ∀ p, before.Contends p → (before.procs p).computeTime ≤ (before.procs p).periodTime
  scheduled : before.schedule = .ok k

/-- A call of `schedule` from which a run starts: every process that competes for the
processor is a real-time process that has not run since it was forked. -/
structure EdfStart (before k : Kernel) : Prop extends EdfContest before k where
  fresh : ∀ p, before.Contends p → before.tasks.Fresh p

namespace EdfStart

variable {before k : Kernel}

theorem edf (start : EdfStart before k) : Edf k := by
  have frame := Kernel.schedule_unsched start.scheduled
  have contends := Kernel.contends_iff_of_unsched frame
  have tasks : k.tasks = before.tasks := Kernel.tasks_eq_of_unsched (congrArg Kernel.procs frame :)
  obtain ⟨queue, running⟩ := start.queue.schedule start.current start.scheduled
  constructor
  · have same : k.allocated k.idleproc = before.allocated before.idleproc :=
      (congrArg (fun m => m.allocated m.idleproc) frame :)
    rw [same]
    exact start.idle
  · exact queue
  · exact Kernel.schedule_ordered start.ordered start.scheduled
  · exact running
  · intro p competes
    have same : (k.procs p).isRT = (before.procs p).isRT :=
      (congrArg (fun m => (m.procs p).isRT) frame :)
    rw [same]
    exact start.realTime p ((contends p).mp competes)
  · intro p competes
    have old := (contends p).mp competes
    obtain ⟨ctZero, ptPeriod⟩ := start.fresh p old
    have costPos : 1 ≤ before.tasks.cost p := start.cost_pos p old
    have costLe : before.tasks.cost p ≤ before.tasks.period p := start.cost_le p old
    rw [tasks]
    constructor <;> omega

theorem fresh_mem (start : EdfStart before k) : ∀ p ∈ k.live, k.tasks.Fresh p := by
  intro p mem
  have frame := Kernel.schedule_unsched start.scheduled
  rw [Kernel.tasks_eq_of_unsched (congrArg Kernel.procs frame :)]
  exact start.fresh p ((Kernel.contends_iff_of_unsched frame p).mp
    ((start.edf.mem_live_iff p).mp mem))

theorem feasible (start : EdfStart before k) : Feasible k := by
  constructor
  · exact start.edf
  · exact fun p contends => .inr (start.fresh_mem p ((start.edf.mem_live_iff p).mpr contends))
  · apply Tasks.bounded_of_fresh
    · exact fun p mem => start.edf.live p ((start.edf.mem_live_iff p).mp mem)
    · exact start.fresh_mem

end EdfStart

/-! ## Overload -/

/-- The tasks of a fixed set after a number of ticks. -/
structure Elapsed (start k : Kernel) (ticks : Nat) : Prop where
  edf : Edf k
  live_eq : k.live = start.live
  cost_eq : ∀ p ∈ start.live, k.tasks.cost p = start.tasks.cost p
  period_eq : ∀ p ∈ start.live, k.tasks.period p = start.tasks.period p
  progress : ∃ jobs, (∀ p ∈ start.live, Tasks.Progress k.tasks ticks jobs p) ∧
    Tasks.servedUnits k.tasks start.live jobs = ticks

namespace Elapsed

variable {start k k' : Kernel} {ticks : Nat}

theorem tick (elapsed : Elapsed start k ticks) (two : 2 ≤ start.live.card)
    (ticked : k.edfTick = .ok k') : Elapsed start k' (ticks + 1) := by
  have nonempty := elapsed.edf.nonempty (elapsed.live_eq ▸ two)
  obtain ⟨_, after⟩ := elapsed.edf.edfTick_eq_ok nonempty ticked
  have mem : ∀ p ∈ start.live, p ∈ k.live := fun p mem => elapsed.live_eq ▸ mem
  obtain ⟨jobs, progress, units⟩ := elapsed.progress
  constructor
  · exact after.edf
  · rw [after.live_eq elapsed.edf, elapsed.live_eq]
  · intro p memP
    rw [after.served.cost_eq p (mem p memP), elapsed.cost_eq p memP]
  · intro p memP
    rw [after.served.period_eq p (mem p memP), elapsed.period_eq p memP]
  · have served := after.served
    rw [elapsed.live_eq] at served
    have current : k.current ∈ start.live := by
      rw [← elapsed.live_eq]
      exact Finset.mem_insert_self ..
    obtain ⟨jobs', progress', units'⟩ := served.progress current progress
    refine ⟨jobs', ?_, ?_⟩
    · push_cast
      exact progress'
    · rw [units', units]
      push_cast
      rfl

/-- A run of ticks on a fixed set either reaches its end or a missed deadline. -/
theorem run (elapsed : Elapsed start k ticks) (two : 2 ≤ start.live.card)
    (max : start.live.card ≤ maxHeapSize) (more : Nat) :
    (∃ k', Elapsed start k' (ticks + more)) ∨ ∃ site : Panic, site.Deadline ∧
      Run.exec Kernel.edfStep k (List.replicate more .tick) = .error (.panic site) := by
  induction more generalizing k ticks with
  | zero => exact .inl ⟨k, elapsed⟩
  | succ more ih =>
      rw [List.replicate_succ]
      cases ticked : k.edfTick with
      | ok next =>
          have exec : Run.exec Kernel.edfStep k (.tick :: List.replicate more .tick) =
              Run.exec Kernel.edfStep next (List.replicate more .tick) := by
            rw [Run.exec, Kernel.edfStep, ticked]
          rw [exec]
          rcases ih (elapsed.tick two ticked) with ⟨k', reached⟩ | missed
          · left
            refine ⟨k', ?_⟩
            rw [Nat.add_right_comm] at reached
            exact reached
          · exact .inr missed
      | error stop =>
          right
          obtain ⟨site, deadline, rfl⟩ := elapsed.edf.edfTick_eq_error
            (elapsed.edf.nonempty (elapsed.live_eq ▸ two))
            (elapsed.edf.room (elapsed.live_eq ▸ max)) ticked
          refine ⟨site, deadline, ?_⟩
          rw [Run.exec, Kernel.edfStep, ticked]

end Elapsed

theorem EdfStart.elapsed {before k : Kernel} (start : EdfStart before k) : Elapsed k k 0 := by
  constructor
  · exact start.edf
  · rfl
  · exact fun _ _ => rfl
  · exact fun _ _ => rfl
  · refine ⟨fun _ => 0, fun p mem => ?_, ?_⟩
    · obtain ⟨_, ptPeriod⟩ := start.fresh_mem p mem
      simp [Tasks.Progress, ptPeriod]
    · apply Finset.sum_eq_zero
      intro p mem
      obtain ⟨ctZero, _⟩ := start.fresh_mem p mem
      simp [ctZero]

/-- Earliest-deadline scheduling of `sched_MY`: while the shares sum up to at most
one no tick misses a deadline, and a fixed set whose shares sum up to more misses
one within the least common multiple of its periods. -/
theorem edf_schedulability {before k : Kernel} (start : EdfStart before k) :
    (∀ events k', Run.Along Kernel.edfStep EdfAllowed k events →
      Run.exec Kernel.edfStep k events = .ok k' → k'.Admissible → ∃ next, k'.edfTick = .ok next) ∧
    (2 ≤ k.live.card → k.live.card ≤ maxHeapSize → 1 < k.tasks.utilisation k.live →
      ∃ site : Panic, site.Deadline ∧ Run.exec Kernel.edfStep k
        (List.replicate (k.live.lcm k.tasks.period).natAbs .tick) = .error (.panic site)) := by
  constructor
  · intro events k' along run admissible
    have feasible : Feasible k' := Run.exec_invariant_along
      (fun _ _ _ inv allowed taken => Feasible.step inv allowed taken) start.feasible along run
    exact feasible.edf.edfTick_of_onTime (feasible.edf.nonempty admissible.two_le)
      (feasible.edf.room admissible.le_max) (feasible.onTime admissible.utilisation_le)
  · intro two max exceeds
    rcases start.elapsed.run two max (k.live.lcm k.tasks.period).natAbs with
      ⟨k', reached⟩ | missed
    · obtain ⟨jobs, progress, units⟩ := reached.progress
      rw [Nat.zero_add] at progress units
      have live : ∀ p ∈ k.live, k'.tasks.Live p := by
        intro p mem
        rw [← reached.live_eq, reached.edf.mem_live_iff] at mem
        exact reached.edf.live p mem
      have multiple : ∀ p ∈ k.live,
          k'.tasks.period p ∣ ((k.live.lcm k.tasks.period).natAbs : ℤ) := by
        intro p mem
        rw [reached.period_eq p mem, Int.dvd_natAbs]
        exact Finset.dvd_lcm mem
      have positive : (0 : ℤ) < (k.live.lcm k.tasks.period).natAbs := by
        have nonzero : k.live.lcm k.tasks.period ≠ 0 := by
          intro zero
          obtain ⟨p, mem, periodZero⟩ := Finset.lcm_eq_zero_iff.mp zero
          have := (start.edf.live p ((start.edf.mem_live_iff p).mp mem)).period_pos
          omega
        have := Int.natAbs_pos.mpr nonzero
        omega
      have within := Tasks.overload live multiple positive progress units
      rw [Tasks.utilisation_congr reached.cost_eq reached.period_eq] at within
      exact absurd exceeds (not_lt.mpr within)
    · exact missed

/-! ## Two processes -/

/-- Two real-time processes with the same compute time and period that have just been
forked; the first one is current. -/
def twoForked (cost period : Int) : Kernel where
  procs p :=
    { state := if p ≤ 2 then .runnable else .uninit
      pid := p
      runs := 0
      kstack := ⟨.user, 0, 0⟩
      needResched := false
      parent := none
      mm := none
      flags := 0
      exitCode := 0
      waitState := 0
      cptr := none
      yptr := none
      optr := none
      rq := some 0
      timeSlice := 0
      isRT := true
      computeTime := cost
      periodTime := period
      ct := 0
      pt := period }
  allocated p := decide (p ≤ 2)
  procList := [2, 1]
  hashList _ := []
  threadGroups := []
  nrProcess := 3
  lastPid := 2
  nextSafe := maxPid
  current := 1
  idleproc := 0
  initproc := 1
  kswapd := none
  heap := ⟨[⟨2, period⟩]⟩
  procNum := 1
  timerList := []
  kswapdDone := []
  mmCount _ := 0
  mmAlive _ := false

section TwoForked

variable {cost period : Int}

theorem twoForked_contends_iff (cost period : Int) (p : Nat) :
    (twoForked cost period).Contends p ↔ p = 1 ∨ p = 2 := by
  constructor
  · rintro ⟨allocated, _, notIdle⟩
    have small : p ≤ 2 := of_decide_eq_true allocated
    change p ≠ 0 at notIdle
    omega
  · rintro (rfl | rfl)
    · exact ⟨rfl, rfl, one_ne_zero⟩
    · exact ⟨rfl, rfl, two_ne_zero⟩

theorem twoForked_queue (cost period : Int) : RunQueue (twoForked cost period) := by
  constructor
  · exact List.nodup_singleton 2
  · intro (p : Nat)
    rw [Kernel.Ready, twoForked_contends_iff]
    change p ∈ [2] ↔ (p = 1 ∨ p = 2) ∧ p ≠ 1
    rw [List.mem_singleton]
    omega
  · simp [twoForked]
  · simp [twoForked]
  · rfl

theorem twoForked_ordered (cost period : Int) : (twoForked cost period).heap.Ordered := by
  intro i positive inRange
  change i < 1 at inRange
  omega

/-- A run can start there. -/
theorem twoForked_start (cost period : Int) (costPos : 1 ≤ cost) (costLe : cost ≤ period) :
    ∃ k, EdfStart (twoForked cost period) k := by
  have contends := (twoForked_contends_iff cost period 1).mpr (.inl rfl)
  have room : (twoForked cost period).heap.entry.length < maxHeapSize := by
    change 1 < 1024
    omega
  obtain ⟨k, scheduled⟩ := (twoForked_queue cost period).schedule_of_lt contends room
  refine ⟨k, ⟨?_, fun _ _ => ⟨rfl, rfl⟩⟩⟩
  constructor
  · rfl
  · rfl
  · exact twoForked_queue cost period
  · exact twoForked_ordered cost period
  · exact fun _ _ => rfl
  · exact fun _ _ => costPos
  · exact fun _ _ => costLe
  · exact scheduled

theorem EdfStart.twoForked_live {k : Kernel} (start : EdfStart (twoForked cost period) k) :
    k.live = {1, 2} := by
  ext p
  have contends := Kernel.contends_iff_of_unsched (Kernel.schedule_unsched start.scheduled) p
  rw [start.edf.mem_live_iff, contends, twoForked_contends_iff, Finset.mem_insert,
    Finset.mem_singleton]

theorem EdfStart.twoForked_tasks {k : Kernel} (start : EdfStart (twoForked cost period) k) :
    k.tasks = (twoForked cost period).tasks :=
  Kernel.tasks_eq_of_unsched (congrArg Kernel.procs (Kernel.schedule_unsched start.scheduled) :)

theorem EdfStart.twoForked_utilisation {k : Kernel}
    (start : EdfStart (twoForked cost period) k) :
    k.tasks.utilisation k.live = 2 * (cost / period) := by
  rw [start.twoForked_live, start.twoForked_tasks, Tasks.utilisation, Finset.sum_pair (by decide), two_mul]
  rfl

end TwoForked

/-- Two processes that need one tick in two do not miss a deadline at the second
tick; two that need two ticks in three miss one by the third. -/
theorem edf_schedulability_twoForked :
    (∃ k next last, EdfStart (twoForked 1 2) k ∧ k.edfTick = .ok next ∧ next.edfTick = .ok last) ∧
      ∃ k, EdfStart (twoForked 2 3) k ∧ ∃ site : Panic, site.Deadline ∧
        Run.exec Kernel.edfStep k (List.replicate 3 .tick) = .error (.panic site) := by
  constructor
  · obtain ⟨k, start⟩ := twoForked_start 1 2 (by decide) (by decide)
    have admissible : k.Admissible := by
      constructor
      · rw [start.twoForked_live]
        decide
      · rw [start.twoForked_live]
        decide
      · rw [start.twoForked_utilisation]
        norm_num
    obtain ⟨next, ticked⟩ := (edf_schedulability start).1 [] k trivial rfl admissible
    obtain ⟨_, after⟩ := start.edf.edfTick_eq_ok (start.edf.nonempty admissible.two_le) ticked
    have nextAdmissible : next.Admissible := by
      constructor
      · rw [after.live_eq start.edf]
        exact admissible.two_le
      · rw [after.live_eq start.edf]
        exact admissible.le_max
      · rw [after.live_eq start.edf, after.served.utilisation_eq]
        exact admissible.utilisation_le
    have run : Run.exec Kernel.edfStep k [.tick] = .ok next :=
      Run.exec_cons_eq_ok_iff.mpr ⟨next, ticked, rfl⟩
    obtain ⟨last, again⟩ := (edf_schedulability start).1 [.tick] next
      ⟨⟨admissible, trivial⟩, fun _ _ => trivial⟩ run nextAdmissible
    exact ⟨k, next, last, start, ticked, again⟩
  · obtain ⟨k, start⟩ := twoForked_start 2 3 (by decide) (by decide)
    have periods : (k.live.lcm k.tasks.period).natAbs = 3 := by
      rw [start.twoForked_live, start.twoForked_tasks]
      rfl
    refine ⟨k, start, ?_⟩
    rw [← periods]
    apply (edf_schedulability start).2
    · rw [start.twoForked_live]
      decide
    · rw [start.twoForked_live]
      decide
    · rw [start.twoForked_utilisation]
      norm_num

/-! ## Jobs that have begun -/

open Kernel in
/-- A call of `schedule` in a reachable state with sensible processes on the heap. -/
theorem EdfContest.of_reachable {m k : Kernel} {pc : Pc} (reachable : Reachable wrapInt32 m)
    (ordered : m.heap.Ordered)
    (sensible : ∀ p ∈ m.current :: m.heap.entry.map HeapEntry.proc, (m.procs p).isRT = true ∧
      1 ≤ (m.procs p).computeTime ∧ (m.procs p).computeTime ≤ (m.procs p).periodTime)
    (scheduled : m.scheduleTo pc = .ok k) : EdfContest (m.goto pc) k := by
  have inv := reachable.inv
  have field : ∀ {α : Type} (f : ProcStruct → α),
      (∀ s : ProcStruct, f { s with kstack := { s.kstack with pc := pc } } = f s) →
        ∀ p, f ((m.goto pc).procs p) = f (m.procs p) :=
    fun f same p => m.modify_field m.current _ f (same _) p
  have listed : ∀ p, (m.goto pc).Contends p →
      p ∈ m.current :: m.heap.entry.map HeapEntry.proc := by
    intro p contends
    by_cases own : p = m.current
    · exact own ▸ List.mem_cons_self
    · have queue : RunQueue (m.goto pc) := inv.others.queue.modify_current _
      exact List.mem_cons_of_mem _ ((queue.mem_iff p).mpr ⟨contends, own⟩)
  constructor
  · exact inv.others.table.allocated _ (.inr rfl)
  · exact inv.others.table.allocated _ inv.others.current
  · exact inv.others.queue.modify_current _
  · exact ordered
  · intro p contends
    rw [field ProcStruct.isRT fun _ => rfl]
    exact (sensible p (listed p contends)).1
  · intro p contends
    rw [field ProcStruct.computeTime fun _ => rfl]
    exact (sensible p (listed p contends)).2.1
  · intro p contends
    rw [field ProcStruct.computeTime fun _ => rfl, field ProcStruct.periodTime fun _ => rfl]
    exact (sensible p (listed p contends)).2.2
  · exact scheduled

/-- The first user process creates two real-time processes that need one tick in two, and calls
`sleep`; a timer interrupt arrives before `schedule` is called. -/
def queuedTick : List Event :=
  Kernel.firstUser ++ Kernel.forked (.forkRT 1 2) 4 ++ Kernel.forked (.forkRT 1 2) 5 ++
    [.syscall (.sleep 100), .tick]

/-- The first user process has run for a tick, and its next job is due in 19 ticks, when it creates
a process that needs nine ticks in ten. -/
def ranEarly : List Event :=
  Kernel.firstUser ++ Kernel.forked (.forkRT 1 10) 4 ++
    [.syscall (.forkRT 9 10), .tick, .go 5, .go 5, .go 0, .go 0]

open Kernel in
/-- Both children of the first run have used up half of their periods in front of `schedule`. -/
theorem queuedTick_misses : ∃ m k pc, Reachable wrapInt32 m ∧ EdfContest (m.goto pc) k ∧
    k.Admissible ∧ ∀ next, k.edfTick ≠ .ok next := by
  obtain ⟨m, run, ordered, sensible, seen⟩ := Run.exec_of_decide
    (fun m : Kernel => m.heap.Ordered ∧
      (∀ p ∈ m.current :: m.heap.entry.map HeapEntry.proc, (m.procs p).isRT = true ∧
        1 ≤ (m.procs p).computeTime ∧ (m.procs p).computeTime ≤ (m.procs p).periodTime) ∧
      (m.scheduleTo (.sleepSched .trap)).map (fun k => decide (k.live = {4, 5} ∧
        (k.tasks.cost 4 = 1 ∧ k.tasks.period 4 = 2) ∧
        (k.tasks.cost 5 = 1 ∧ k.tasks.period 5 = 2) ∧
        reason k.edfTick = some (.panic .queuedMissed))) = .ok true)
    (by decide +kernel : (Run.exec (step wrapInt32) (boot fun _ => blank) queuedTick).map _ =
      .ok true)
  obtain ⟨k, scheduled, live, first, second, missed⟩ := ok_of_decide _ seen
  have reachable : Reachable wrapInt32 m := ⟨_, _, run⟩
  refine ⟨m, k, _, reachable, .of_reachable reachable ordered sensible scheduled, ?_,
    fun next ticked => ?_⟩
  · constructor
    · rw [live]
      decide
    · rw [live]
      decide
    · rw [live, Tasks.utilisation, Finset.sum_pair (by decide), Tasks.share, Tasks.share,
        first.1, first.2, second.1, second.2]
      norm_num
  · rw [ticked] at missed
    cases missed

open Kernel in
/-- The first process of the second run has a whole period more for its next job. -/
theorem ranEarly_meets : ∃ m k pc, Reachable wrapInt32 m ∧ EdfContest (m.goto pc) k ∧
    (2 ≤ k.live.card ∧ k.live.card ≤ maxHeapSize ∧ 1 < k.tasks.utilisation k.live) ∧
    ∀ stop, Run.exec edfStep k
      (List.replicate (k.live.lcm k.tasks.period).natAbs .tick) ≠ .error stop := by
  obtain ⟨m, run, ordered, sensible, seen⟩ := Run.exec_of_decide
    (fun m : Kernel => m.heap.Ordered ∧
      (∀ p ∈ m.current :: m.heap.entry.map HeapEntry.proc, (m.procs p).isRT = true ∧
        1 ≤ (m.procs p).computeTime ∧ (m.procs p).computeTime ≤ (m.procs p).periodTime) ∧
      (m.scheduleTo .tailSched).map (fun k => decide (k.live = {3, 4, 5} ∧
        (k.tasks.cost 3 = 1 ∧ k.tasks.period 3 = 10) ∧
        (k.tasks.cost 4 = 1 ∧ k.tasks.period 4 = 10) ∧
        (k.tasks.cost 5 = 9 ∧ k.tasks.period 5 = 10) ∧
        reason (Run.exec edfStep k (List.replicate 10 .tick)) = none)) = .ok true)
    (by decide +kernel : (Run.exec (step wrapInt32) (boot fun _ => blank) ranEarly).map _ =
      .ok true)
  obtain ⟨k, scheduled, live, first, second, third, met⟩ := ok_of_decide _ seen
  have reachable : Reachable wrapInt32 m := ⟨_, _, run⟩
  have periods : (k.live.lcm k.tasks.period).natAbs = 10 := by
    rw [live, Finset.lcm_insert, Finset.lcm_insert, Finset.lcm_singleton, first.2, second.2,
      third.2]
    rfl
  refine ⟨m, k, _, reachable, .of_reachable reachable ordered sensible scheduled, ⟨?_, ?_, ?_⟩,
    fun stop missed => ?_⟩
  · rw [live]
    decide
  · rw [live]
    decide
  · rw [live, Tasks.utilisation, Finset.sum_insert (by decide), Finset.sum_pair (by decide),
      Tasks.share, Tasks.share, Tasks.share, first.1, first.2, second.1, second.2, third.1,
      third.2]
    norm_num
  · rw [periods] at missed
    rw [missed] at met
    cases met

open Kernel in
/-- Where jobs have begun before the first call of `schedule`, shares that sum up to one do not
keep a tick from missing a deadline, and shares that sum up to more do not make one miss it. -/
theorem edf_schedulability_begun :
    (¬∀ (m k : Kernel) (pc : Pc), Reachable wrapInt32 m → EdfContest (m.goto pc) k →
      ∀ events k', Run.Along edfStep EdfAllowed k events →
        Run.exec edfStep k events = .ok k' → k'.Admissible → ∃ next, k'.edfTick = .ok next) ∧
    ¬∀ (m k : Kernel) (pc : Pc), Reachable wrapInt32 m → EdfContest (m.goto pc) k →
      2 ≤ k.live.card → k.live.card ≤ maxHeapSize → 1 < k.tasks.utilisation k.live →
        ∃ site : Panic, site.Deadline ∧ Run.exec edfStep k
          (List.replicate (k.live.lcm k.tasks.period).natAbs .tick) = .error (.panic site) := by
  constructor
  · intro meets
    obtain ⟨m, k, pc, reachable, contest, admissible, misses⟩ := queuedTick_misses
    obtain ⟨next, ticked⟩ := meets m k pc reachable contest [] k trivial rfl admissible
    exact misses next ticked
  · intro overloads
    obtain ⟨m, k, pc, reachable, contest, ⟨two, most, exceeds⟩, never⟩ := ranEarly_meets
    obtain ⟨site, _, missed⟩ := overloads m k pc reachable contest two most exceeds
    exact never _ missed

end EdfKernel
