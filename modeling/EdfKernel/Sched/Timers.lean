import EdfKernel.Library.DeltaList
import EdfKernel.Sched.RunQueue

/-!
# The timers

`add_timer`, `del_timer` and `run_timer_list` keep the timers in a list of differences.  Seen
as a list of times, it loses and gains nothing but the timers that are added and deleted, and
those that fire.
-/

namespace EdfKernel

open Library

/-! ## The list -/

/-- The process of a timer and the difference it holds. -/
def Timer.pair (timer : Timer) : ProcPtr × Nat := (timer.proc, timer.expires)

/-- The differences of a list of timers. -/
def deltas (timers : List Timer) : List (ProcPtr × Nat) := timers.map Timer.pair

/-- The processes of a list of timers, each with the number of ticks it has left. -/
def left (timers : List Timer) : List (ProcPtr × Nat) := DeltaList.times 0 (deltas timers)

theorem deltas_keys (timers : List Timer) :
    (deltas timers).map Prod.fst = timers.map Timer.proc := by
  rw [deltas, List.map_map]
  rfl

theorem left_keys (timers : List Timer) : (left timers).map Prod.fst = timers.map Timer.proc := by
  rw [left, DeltaList.times_keys, deltas_keys]

theorem insertTimer_deltas (timer : Timer) (timers : List Timer) :
    deltas (insertTimer timer timers) =
      DeltaList.insert timer.proc timer.expires (deltas timers) := by
  induction timers generalizing timer with
  | nil => rfl
  | cons next rest ih =>
      unfold insertTimer
      simp only [deltas, List.map_cons, DeltaList.insert] at ih ⊢
      split
      · rename_i sooner
        rw [if_pos (show timer.expires < next.pair.2 from sooner)]
        rfl
      · rename_i later
        rw [if_neg (show ¬timer.expires < next.pair.2 from later), List.map_cons, ih]
        rfl

theorem removeTimer_deltas (proc : ProcPtr) (timers : List Timer) :
    deltas (removeTimer proc timers) = DeltaList.remove proc (deltas timers) := by
  induction timers with
  | nil => rfl
  | cons timer rest ih =>
      unfold removeTimer
      simp only [deltas, List.map_cons] at ih ⊢
      unfold DeltaList.remove
      split
      · rename_i own
        rw [if_pos (show timer.pair.1 = proc from own)]
        cases rest with
        | nil => rfl
        | cons next rest =>
            by_cases due : timer.expires = 0
            · simp [due, Timer.pair]
            · simp [due, Timer.pair]
      · rename_i other
        rw [if_neg (show ¬timer.pair.1 = proc from other), List.map_cons, ih]

/-! ## The list in machine words -/

namespace Kernel

variable {k k' : Kernel} {p : ProcPtr} {wrap : Int → Int}

/-- The timers are those of different processes, and the first one has not expired. -/
structure TimersSet (k : Kernel) : Prop where
  nodup : (k.timerList.map Timer.proc).Nodup
  waiting : ∀ timer ∈ k.timerList.head?, timer.expires ≠ 0
  small : ∀ x ∈ left k.timerList, x.2 < 2 ^ 32

theorem TimersSet.of_timerList (set : TimersSet k) (same : k'.timerList = k.timerList) :
    TimersSet k' := by
  obtain ⟨nodup, waiting, small⟩ := set
  rw [← same] at nodup waiting small
  exact ⟨nodup, waiting, small⟩

/-- No timer has expired. -/
theorem TimersSet.positive (set : TimersSet k) {x : ProcPtr × Nat} (mem : x ∈ left k.timerList) :
    x.2 ≠ 0 := by
  have waiting := set.waiting
  unfold left deltas at mem
  cases list : k.timerList with
  | nil =>
      rw [list] at mem
      cases mem
  | cons timer rest =>
      rw [list] at mem waiting
      have head := waiting timer rfl
      rcases List.mem_cons.mp mem with rfl | later
      · simp only [Nat.zero_add]
        exact head
      · have low := DeltaList.base_le_of_mem_times later
        have first : timer.pair.2 ≠ 0 := head
        omega

/-- The first timer has not expired when none has. -/
theorem waiting_of_positive {timers : List Timer} (positive : ∀ x ∈ left timers, x.2 ≠ 0) :
    ∀ timer ∈ timers.head?, timer.expires ≠ 0 := by
  intro timer first
  cases timers with
  | nil => cases first
  | cons head rest =>
      cases first
      have head := positive (timer.proc, 0 + timer.expires) List.mem_cons_self
      simpa using head

/-- `add_timer` adds a timer, and changes no other one. -/
theorem TimersSet.addTimer (set : TimersSet k) {n : Nat} (small : n < 2 ^ 32)
    (added : k.addTimer p n = .ok k') :
    TimersSet k' ∧ (left k'.timerList).Perm ((p, n) :: left k.timerList) := by
  unfold Kernel.addTimer at added
  split at added
  · cases added
  · rename_i positive
    split at added
    · cases added
    · rename_i unlinked
      cases added
      have perm : (left (insertTimer ⟨n, p⟩ k.timerList)).Perm ((p, n) :: left k.timerList) := by
        rw [left, insertTimer_deltas]
        have inserted : (DeltaList.times 0 (DeltaList.insert p n (deltas k.timerList))).Perm
            ((p, 0 + n) :: left k.timerList) := DeltaList.times_insert n
        rwa [Nat.zero_add] at inserted
      refine ⟨⟨?_, ?_, ?_⟩, perm⟩
      · rw [(insertTimer_procs _ _).nodup_iff, List.nodup_cons]
        exact ⟨unlinked, set.nodup⟩
      · refine waiting_of_positive fun x mem => ?_
        rcases List.mem_cons.mp (perm.mem_iff.mp mem) with rfl | old
        · exact positive
        · exact set.positive old
      · intro x mem
        rcases List.mem_cons.mp (perm.mem_iff.mp mem) with rfl | old
        · exact small
        · exact set.small x old

/-- `del_timer` deletes a timer, and changes no other one. -/
theorem TimersSet.delTimer (set : TimersSet k) (p : ProcPtr) :
    TimersSet (k.delTimer p) ∧
      left (k.delTimer p).timerList = (left k.timerList).filter fun x => decide (x.1 ≠ p) := by
  have list : left (removeTimer p k.timerList) =
      (left k.timerList).filter fun x => decide (x.1 ≠ p) := by
    rw [left, removeTimer_deltas, DeltaList.times_remove (by rw [deltas_keys]; exact set.nodup)]
    rfl
  have sub : ∀ x ∈ left (removeTimer p k.timerList), x ∈ left k.timerList := by
    intro x mem
    rw [list] at mem
    exact (List.mem_filter.mp mem).1
  refine ⟨⟨?_, ?_, ?_⟩, list⟩
  · change ((removeTimer p k.timerList).map Timer.proc).Nodup
    rw [removeTimer_procs]
    exact set.nodup.erase p
  · exact waiting_of_positive fun x mem => set.positive (sub x mem)
  · exact fun x mem => set.small x (sub x mem)

/-! ## run_timer_list -/

theorem tickDecreasePtLoop_state {entry aged : List HeapEntry} {procs procs' : ProcPtr → ProcStruct}
    (swept : tickDecreasePtLoop wrap entry procs = .ok (aged, procs')) (q : ProcPtr) :
    (procs' q).state = (procs q).state := by
  induction entry generalizing procs aged with
  | nil =>
      cases swept
      rfl
  | cons e rest ih =>
      simp only [tickDecreasePtLoop] at swept
      split at swept
      · cases swept
      · split at swept
        · cases swept
        · obtain ⟨⟨restAged, restProcs⟩, inRest, result⟩ := bind_eq_ok_iff.mp swept
          cases result
          rw [ih inRest]
          by_cases own : q = e.proc
          · subst own
            rw [Function.update_self]
            rfl
          · rw [Function.update_of_ne own]

/-- The end of `run_timer_list` changes no timer and no state. -/
theorem schedClassProcTick_frame (ticked : k.schedClassProcTick wrap p = .ok k') (q : ProcPtr) :
    k'.timerList = k.timerList ∧ (k'.procs q).state = (k.procs q).state := by
  have marks : ∀ (m : Kernel) (change : ProcStruct → ProcStruct),
      (change (m.procs p)).state = (m.procs p).state →
        ((m.modify p change).procs q).state = (m.procs q).state := fun m change same =>
    m.modify_field p change ProcStruct.state same q
  unfold schedClassProcTick at ticked
  split at ticked
  · obtain ⟨charged, charge, rest⟩ := bind_eq_ok_iff.mp ticked
    obtain ⟨swept, sweep, rest⟩ := bind_eq_ok_iff.mp rest
    obtain ⟨earlier, _, result⟩ := bind_eq_ok_iff.mp rest
    have first : charged.timerList = k.timerList ∧
        (charged.procs q).state = (k.procs q).state := by
      have frame := myChargeTick_untimed charge
      exact ⟨(congrArg Kernel.timerList frame :), (congrArg (fun m => (m.procs q).state) frame :)⟩
    have second : swept.timerList = charged.timerList ∧
        (swept.procs q).state = (charged.procs q).state := by
      obtain ⟨⟨aged, procs⟩, loop, result⟩ := bind_eq_ok_iff.mp sweep
      cases result
      exact ⟨rfl, tickDecreasePtLoop_state loop q⟩
    cases result
    split
    · exact ⟨second.1.trans first.1, (marks swept _ rfl).trans (second.2.trans first.2)⟩
    · exact ⟨second.1.trans first.1, second.2.trans first.2⟩
  · cases ticked
    exact ⟨rfl, marks k _ rfl⟩

/-- Waking a process makes it runnable, and changes no timer and no other process. -/
theorem wakeupProc_frame (woken : k.wakeupProc p = .ok k') :
    k'.timerList = k.timerList ∧ (k'.procs p).state = .runnable ∧
      ∀ q, q ≠ p → (k'.procs q).state = (k.procs q).state := by
  refine ⟨(congrArg Kernel.timerList (wakeupProc_unwoken woken) :), ?_, fun q other => by
    rw [wakeupProc_procs_of_ne woken other]⟩
  rcases (wakeupProc_unsched woken).2 with ⟨awake, rfl⟩ | ⟨_, wake⟩
  · exact awake
  · have state : (k'.procs p).state = ((k.awaken p).procs p).state :=
      (congrArg (fun m => (m.procs p).state) wake :)
    rw [state]
    simp [awaken]

/-- The loop of `run_timer_list` wakes the processes whose timers have expired, and no
others. -/
theorem fireTimers_left {fuel : Nat} (enough : k.timerList.length ≤ fuel)
    (fired : fireTimers fuel k = .ok k') :
    deltas k'.timerList = DeltaList.settle (deltas k.timerList) ∧
      (∀ q, (q, 0) ∈ left k.timerList → (k'.procs q).state = .runnable) ∧
      ∀ q, (q, 0) ∉ left k.timerList → (k'.procs q).state = (k.procs q).state := by
  induction fuel generalizing k with
  | zero =>
      have empty : k.timerList = [] := List.eq_nil_of_length_eq_zero (Nat.le_zero.mp enough)
      cases fired
      rw [empty]
      exact ⟨rfl, fun q mem => absurd mem List.not_mem_nil, fun q _ => rfl⟩
  | succ fuel ih =>
      unfold fireTimers at fired
      cases list : k.timerList with
      | nil =>
          rw [list] at fired
          cases fired
          rw [list]
          exact ⟨rfl, fun q mem => absurd mem List.not_mem_nil, fun q _ => rfl⟩
      | cons timer rest =>
          rw [list] at fired enough
          simp only at fired
          split at fired
          · rename_i waiting
            cases fired
            have none : ∀ q, (q, 0) ∉ left (timer :: rest) := by
              intro q mem
              rcases List.mem_cons.mp mem with first | later
              · have due := congrArg Prod.snd first
                simp only [Nat.zero_add] at due
                exact waiting due.symm
              · have low := DeltaList.base_le_of_mem_times later
                simp only [Nat.zero_add, Nat.le_zero] at low
                exact waiting low
            rw [list]
            refine ⟨?_, fun q mem => absurd mem (none q), fun q _ => rfl⟩
            rw [deltas, List.map_cons, DeltaList.settle,
              if_neg (show timer.pair.2 ≠ 0 from waiting)]
          · rename_i due
            rw [not_not] at due
            split at fired
            · cases fired
            · obtain ⟨woken, wakes, goes⟩ := bind_eq_ok_iff.mp fired
              obtain ⟨_, runnable, others⟩ := wakeupProc_frame wakes
              have next := ih (k := { woken with timerList := rest })
                (Nat.le_of_succ_le_succ enough) goes
              obtain ⟨settled, awake, asleep⟩ := next
              have whole : left (timer :: rest) = (timer.proc, 0) :: left rest := by
                simp [left, deltas, DeltaList.times, Timer.pair, due]
              rw [whole]
              constructor
              · rw [settled, deltas, deltas, List.map_cons, DeltaList.settle,
                  if_pos (show timer.pair.2 = 0 from due)]
              · constructor
                · intro q mem
                  by_cases again : (q, 0) ∈ left rest
                  · exact awake q again
                  · rw [asleep q again]
                    rcases List.mem_cons.mp mem with own | later
                    · have same : q = timer.proc := congrArg Prod.fst own
                      rw [same]
                      exact runnable
                    · exact absurd later again
                · intro q missing
                  rw [List.mem_cons, not_or] at missing
                  rw [asleep q missing.2]
                  refine others q fun own => missing.1 ?_
                  rw [own]

/-- The timers after `run_timer_list` has counted the first one down. -/
def ripened (k : Kernel) : List Timer :=
  match k.timerList with
  | [] => []
  | timer :: rest => { timer with expires := timer.expires - 1 } :: rest

theorem ripened_deltas (k : Kernel) : deltas k.ripened = DeltaList.ripen (deltas k.timerList) := by
  unfold ripened
  cases k.timerList <;> rfl

theorem runTimerList_eq (set : TimersSet k) :
    k.runTimerList wrap =
      (fireTimers k.timerList.length { k with timerList := k.ripened } >>= fun m =>
        m.schedClassProcTick wrap m.current) := by
  unfold Kernel.runTimerList ripened
  cases list : k.timerList with
  | nil =>
      have same : { k with timerList := [] } = k := by rw [← list]
      simp only [List.length_nil, fireTimers, same]
  | cons timer rest =>
      have waiting := set.waiting timer (by rw [list]; rfl)
      simp only [if_neg waiting, List.length_cons]

/-- `run_timer_list` takes one tick from every timer, wakes the processes whose timers have
expired, and no others. -/
theorem TimersSet.runTimerList (set : TimersSet k) (ran : k.runTimerList wrap = .ok k') :
    TimersSet k' ∧
      (∀ q n, (q, n) ∈ left k'.timerList ↔ n ≠ 0 ∧ (q, n + 1) ∈ left k.timerList) ∧
      (∀ q, (q, 1) ∈ left k.timerList → (k'.procs q).state = .runnable) ∧
      ∀ q, (q, 1) ∉ left k.timerList → (k'.procs q).state = (k.procs q).state := by
  rw [runTimerList_eq set] at ran
  obtain ⟨m, fired, ticked⟩ := bind_eq_ok_iff.mp ran
  have length : k.ripened.length ≤ k.timerList.length := by
    unfold ripened
    cases k.timerList <;> simp
  have ripe : ∀ q n, (q, n) ∈ left k.ripened ↔ (q, n + 1) ∈ left k.timerList := by
    have waiting : ∀ entry ∈ (deltas k.timerList).head?, entry.2 ≠ 0 := by
      intro entry first
      rw [deltas, List.head?_map, Option.mem_def, Option.map_eq_some_iff] at first
      obtain ⟨timer, head, rfl⟩ := first
      exact set.waiting timer head
    intro q n
    rw [left, left, DeltaList.times_ripen waiting, ripened_deltas, List.mem_map]
    constructor
    · intro mem
      exact ⟨(q, n), mem, rfl⟩
    · rintro ⟨x, mem, same⟩
      simp only [Prod.mk.injEq, Nat.add_right_cancel_iff] at same
      rwa [← same.1, ← same.2]
  obtain ⟨settled, awake, asleep⟩ := fireTimers_left length fired
  have frame := schedClassProcTick_frame ticked
  have list : k'.timerList = m.timerList := (frame 0).1
  have members : ∀ q n, (q, n) ∈ left k'.timerList ↔ n ≠ 0 ∧ (q, n + 1) ∈ left k.timerList := by
    intro q n
    rw [list, left, settled, DeltaList.times_settle, List.mem_filter, ← ripe, and_comm]
    simp [left]
  refine ⟨⟨?_, ?_, ?_⟩, members, fun q due => ?_, fun q notDue => ?_⟩
  · rw [← left_keys, list, left, settled, DeltaList.times_settle]
    refine (List.filter_sublist.map Prod.fst).nodup ?_
    rw [DeltaList.times_keys, ripened_deltas]
    have keys : (DeltaList.ripen (deltas k.timerList)).map Prod.fst =
        k.timerList.map Timer.proc := by
      rw [← deltas_keys]
      cases deltas k.timerList <;> rfl
    rw [keys]
    exact set.nodup
  · exact waiting_of_positive fun x mem => ((members x.1 x.2).mp mem).1
  · intro x mem
    have before := set.small _ ((members x.1 x.2).mp mem).2
    simp only at before
    omega
  · rw [(frame q).2]
    exact awake q ((ripe q 0).mpr due)
  · rw [(frame q).2, asleep q fun due => notDue ((ripe q 0).mp due)]

/-! ## Runs -/

/-- What happens to the timers; nothing else touches the list of them. -/
inductive TimerEvent
  | add (proc : ProcPtr) (expires : UInt32)
  | del (proc : ProcPtr)
  | run
  | other (change : Kernel → Kernel)

/-- One of the three calls, or something else. -/
def timerStep (wrap : Int → Int) (k : Kernel) : TimerEvent → Except Stop Kernel
  | .add proc expires => k.addTimer proc expires.toNat
  | .del proc => .ok (k.delTimer proc)
  | .run => k.runTimerList wrap
  | .other change => .ok { change k with timerList := k.timerList }

/-- The number of calls of `run_timer_list`. -/
def runs (events : List TimerEvent) : Nat :=
  events.countP fun event => match event with
    | .run => true
    | _ => false

theorem TimersSet.step {event : TimerEvent} (set : TimersSet k)
    (taken : timerStep wrap k event = .ok k') : TimersSet k' := by
  cases event with
  | add proc expires => exact (set.addTimer expires.toNat_lt taken).1
  | del proc =>
      cases taken
      exact (set.delTimer proc).1
  | run => exact (set.runTimerList taken).1
  | other change =>
      cases taken
      exact set.of_timerList rfl

end Kernel

end EdfKernel
