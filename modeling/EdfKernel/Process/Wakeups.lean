import EdfKernel.Process.Frames

/-!
# Waking and killing

Timers, kills, exiting children and `init_main` wake processes that they find
asleep.  Each of these functions is described by one relation between the states
before and after it; what it does to the run queue is proved along with it.
-/

namespace EdfKernel

open Library

/-! ## The process table -/

/-- A process without its kernel stack, its flags, its exit code and its counters. -/
def ProcStruct.uncounted (s : ProcStruct) : ProcStruct :=
  { s with
    kstack := ⟨.user, 0, 0⟩
    flags := 0
    exitCode := 0
    timeSlice := 0
    isRT := false
    computeTime := 0
    periodTime := 0
    ct := 0
    pt := 0 }

/-- A process as the process table shows it: its pid, its relations, its address
space, and whether it is a zombie. -/
def ProcStruct.relations (s : ProcStruct) : ProcStruct :=
  s.unwoken.uncounted

namespace Kernel

variable {k k' m : Kernel} {p : ProcPtr}

/-- The process table and the address spaces. -/
def relations (k : Kernel) : Kernel :=
  { k with
    procs := fun p => (k.procs p).relations
    current := 0
    kswapd := none
    heap := ⟨[]⟩
    procNum := 0
    timerList := []
    kswapdDone := [] }

theorem relations_of_unwoken (same : k'.unwoken = k.unwoken) : k'.relations = k.relations :=
  congrArg (fun m =>
    { m with
      procs := fun p => (m.procs p).uncounted
      current := 0
      kswapd := none
      timerList := []
      kswapdDone := [] }) same

theorem relations_of_untimed (same : k'.untimed = k.untimed) : k'.relations = k.relations :=
  (congrArg Kernel.relations same :)

theorem relations_modify {change : ProcStruct → ProcStruct} (rest : k.relations = m)
    (same : (change (k.procs p)).relations = (k.procs p).relations) :
    (k.modify p change).relations = m := by
  have procs : (k.modify p change).relations.procs = k.relations.procs :=
    funext (k.modify_field p change ProcStruct.relations same)
  exact (congrArg (fun procs => { k.relations with procs := procs }) procs).trans rest

theorem zombie_iff_of_relations (same : k'.relations = k.relations) (q : ProcPtr) :
    (k'.procs q).state = .zombie ↔ (k.procs q).state = .zombie := by
  have kept : (if (k'.procs q).state = .zombie then ProcState.zombie else .uninit) =
      if (k.procs q).state = .zombie then .zombie else .uninit :=
    (congrArg (fun m => (m.procs q).state) same :)
  split at kept <;> split at kept <;> simp_all

/-! ## Waking -/

/-- A process that has been killed, or exits. -/
def Exiting (k : Kernel) (p : ProcPtr) : Prop :=
  (k.procs p).flags &&& pfExiting ≠ 0

/-- A process with a timer on `timer_list`. -/
def Timed (k : Kernel) (p : ProcPtr) : Prop :=
  p ∈ k.timerList.map Timer.proc

/-- A process whose sleep a kill, a timer or the exit of a child may end. -/
structure Dormant (k : Kernel) (p : ProcPtr) : Prop where
  allocated : k.allocated p = true
  notIdle : p ≠ k.idleproc
  asleep : (k.procs p).state = .sleeping
  interruptible : (k.procs p).waitState &&& wtInterrupted ≠ 0

/-- From `k` to `k'` some processes were killed, and some that were asleep were
woken; otherwise at most their relations have changed. -/
structure Stirs (k k' : Kernel) : Prop where
  allocated : k'.allocated = k.allocated
  idleproc : k'.idleproc = k.idleproc
  initproc : k'.initproc = k.initproc
  current : k'.current = k.current
  kswapd : k'.kswapd = k.kswapd
  kswapdDone : k'.kswapdDone = k.kswapdDone
  kstack : ∀ q, (k'.procs q).kstack = (k.procs q).kstack
  state : ∀ q, ((k'.procs q).state = (k.procs q).state ∧
      (k'.procs q).waitState = (k.procs q).waitState) ∨
    (k.Dormant q ∧ (k'.procs q).state = .runnable ∧ (k'.procs q).waitState = 0)
  timers : (k'.timerList.map Timer.proc).Sublist (k.timerList.map Timer.proc)
  expired : ∀ q, k.Timed q → k'.Timed q ∨ (k'.procs q).state = .runnable
  exiting : ∀ q, k.Exiting q → k'.Exiting q

/-- From `k` to `k'` some processes were killed, and some that were asleep were
woken; nothing else has happened to the processes. -/
structure Rouses (k k' : Kernel) : Prop extends Stirs k k' where
  relations : k'.relations = k.relations

namespace Stirs

theorem refl (k : Kernel) : k.Stirs k where
  allocated := rfl
  idleproc := rfl
  initproc := rfl
  current := rfl
  kswapd := rfl
  kswapdDone := rfl
  kstack _ := rfl
  state _ := .inl ⟨rfl, rfl⟩
  timers := .refl _
  expired _ := .inl
  exiting _ := id

theorem timed (stirs : k.Stirs k') (q : ProcPtr) (timed : k'.Timed q) : k.Timed q :=
  stirs.timers.subset timed

/-- A process that still waits is as it was. -/
theorem same_of_waiting (stirs : k.Stirs k') (waiting : (k'.procs p).waitState ≠ 0) :
    (k'.procs p).state = (k.procs p).state ∧ (k'.procs p).waitState = (k.procs p).waitState := by
  rcases stirs.state p with same | ⟨_, _, awake⟩
  · exact same
  · exact absurd awake waiting

theorem dormant_of_waiting (stirs : k.Stirs k') (dormant : k.Dormant p)
    (waiting : (k'.procs p).waitState ≠ 0) : k'.Dormant p := by
  obtain ⟨state, wait⟩ := stirs.same_of_waiting waiting
  constructor
  · rw [stirs.allocated, dormant.allocated]
  · rw [stirs.idleproc]
    exact dormant.notIdle
  · rw [state, dormant.asleep]
  · rw [wait]
    exact dormant.interruptible

/-- What may end the sleep of a process before may also do so afterwards. -/
theorem dormant (stirs : k.Stirs k')
    (before : (k.procs p).waitState &&& wtInterrupted ≠ 0 → k.Dormant p)
    (interruptible : (k'.procs p).waitState &&& wtInterrupted ≠ 0) : k'.Dormant p := by
  have waiting : (k'.procs p).waitState ≠ 0 := by
    intro zero
    simp [zero] at interruptible
  have wait := (stirs.same_of_waiting waiting).2
  rw [wait] at interruptible
  exact stirs.dormant_of_waiting (before interruptible) waiting

/-- A process that sleeps after it slept before. -/
theorem sleeping (stirs : k.Stirs k') (asleep : (k'.procs p).state = .sleeping) :
    (k.procs p).state = .sleeping ∧ (k'.procs p).waitState = (k.procs p).waitState := by
  rcases stirs.state p with ⟨state, wait⟩ | ⟨_, awake, _⟩
  · exact ⟨state ▸ asleep, wait⟩
  · rw [awake] at asleep
    contradiction

/-- A process that did not wait for a child still does not. -/
theorem told (stirs : k.Stirs k') (told : (k.procs p).waitState ≠ wtChild) :
    (k'.procs p).waitState ≠ wtChild := by
  intro still
  have waiting : (k'.procs p).waitState ≠ 0 := by
    rw [still]
    decide
  exact told ((stirs.same_of_waiting waiting).2.symm.trans still)

theorem zombie_iff (stirs : k.Stirs k') (q : ProcPtr) :
    (k'.procs q).state = .zombie ↔ (k.procs q).state = .zombie := by
  rcases stirs.state q with ⟨same, _⟩ | ⟨dormant, awake, _⟩
  · rw [same]
  · simp [dormant.asleep, awake]

/-- A process that was runnable still is. -/
theorem runnable (stirs : k.Stirs k') (awake : (k.procs p).state = .runnable) :
    (k'.procs p).state = .runnable := by
  rcases stirs.state p with ⟨state, _⟩ | ⟨_, state, _⟩
  · rw [state, awake]
  · exact state

theorem trans (first : k.Stirs m) (second : m.Stirs k') : k.Stirs k' where
  allocated := second.allocated.trans first.allocated
  idleproc := second.idleproc.trans first.idleproc
  initproc := second.initproc.trans first.initproc
  current := second.current.trans first.current
  kswapd := second.kswapd.trans first.kswapd
  kswapdDone := second.kswapdDone.trans first.kswapdDone
  kstack q := (second.kstack q).trans (first.kstack q)
  state q := by
    rcases second.state q with ⟨state, wait⟩ | ⟨dormant, state, wait⟩
    · rcases first.state q with ⟨state', wait'⟩ | ⟨dormant, state', wait'⟩
      · exact .inl ⟨state.trans state', wait.trans wait'⟩
      · exact .inr ⟨dormant, state.trans state', wait.trans wait'⟩
    · have waiting : (m.procs q).waitState ≠ 0 := by
        intro zero
        have interruptible := dormant.interruptible
        simp [zero] at interruptible
      obtain ⟨state', wait'⟩ := first.same_of_waiting waiting
      refine .inr ⟨⟨?_, ?_, ?_, ?_⟩, state, wait⟩
      · rw [← first.allocated, dormant.allocated]
      · rw [← first.idleproc]
        exact dormant.notIdle
      · rw [← state', dormant.asleep]
      · rw [← wait']
        exact dormant.interruptible
  timers := second.timers.trans first.timers
  expired q timed := by
    rcases first.expired q timed with still | awake
    · exact second.expired q still
    · exact .inr (second.runnable awake)
  exiting q exiting := second.exiting q (first.exiting q exiting)

end Stirs

namespace Rouses

theorem refl (k : Kernel) : k.Rouses k :=
  ⟨.refl k, rfl⟩

theorem trans (first : k.Rouses m) (second : m.Rouses k') : k.Rouses k' :=
  ⟨first.toStirs.trans second.toStirs, second.relations.trans first.relations⟩

theorem of_relations (relations : k'.relations = k.relations) (current : k'.current = k.current)
    (kswapd : k'.kswapd = k.kswapd) (kswapdDone : k'.kswapdDone = k.kswapdDone)
    (kstack : ∀ q, (k'.procs q).kstack = (k.procs q).kstack)
    (state : ∀ q, ((k'.procs q).state = (k.procs q).state ∧
        (k'.procs q).waitState = (k.procs q).waitState) ∨
      (k.Dormant q ∧ (k'.procs q).state = .runnable ∧ (k'.procs q).waitState = 0))
    (timers : (k'.timerList.map Timer.proc).Sublist (k.timerList.map Timer.proc))
    (expired : ∀ q, k.Timed q → k'.Timed q ∨ (k'.procs q).state = .runnable)
    (exiting : ∀ q, k.Exiting q → k'.Exiting q) : k.Rouses k' where
  allocated := (congrArg Kernel.allocated relations :)
  idleproc := (congrArg Kernel.idleproc relations :)
  initproc := (congrArg Kernel.initproc relations :)
  current := current
  kswapd := kswapd
  kswapdDone := kswapdDone
  kstack := kstack
  state := state
  timers := timers
  expired := expired
  exiting := exiting
  relations := relations

end Rouses

theorem wakeupProc_rouses (dormant : k.Dormant p) (woken : k.wakeupProc p = .ok k') :
    k.Rouses k' := by
  have frame := wakeupProc_unwoken woken
  have list : k'.timerList = k.timerList := (congrArg Kernel.timerList frame :)
  apply Rouses.of_relations
  · exact relations_of_unwoken frame
  · exact (congrArg Kernel.current frame :)
  · exact (congrArg Kernel.kswapd frame :)
  · exact (congrArg Kernel.kswapdDone frame :)
  · exact fun q => (congrArg (fun m => (m.procs q).kstack) frame :)
  · intro q
    rcases (wakeupProc_unsched woken).2 with ⟨_, rfl⟩ | ⟨_, wake⟩
    · exact .inl ⟨rfl, rfl⟩
    · have state : (k'.procs q).state = ((k.awaken p).procs q).state :=
        (congrArg (fun m => (m.procs q).state) wake :)
      have wait : (k'.procs q).waitState = ((k.awaken p).procs q).waitState :=
        (congrArg (fun m => (m.procs q).waitState) wake :)
      rw [state, wait, awaken]
      by_cases own : q = p
      · subst q
        simp [dormant]
      · simp [modify_procs_of_ne _ _ _ own]
  · rw [list]
  · intro q timed
    rw [Timed, list]
    exact .inl timed
  · intro q exiting
    have flags : (k'.procs q).flags = (k.procs q).flags :=
      (congrArg (fun m => (m.procs q).flags) frame :)
    rw [Exiting, flags]
    exact exiting

theorem wakeupProc_awake (woken : k.wakeupProc p = .ok k') : (k'.procs p).state = .runnable := by
  rcases (wakeupProc_unsched woken).2 with ⟨awake, rfl⟩ | ⟨_, wake⟩
  · exact awake
  · have state : (k'.procs p).state = ((k.awaken p).procs p).state :=
      (congrArg (fun m => (m.procs p).state) wake :)
    rw [state]
    simp [awaken]

theorem wakeupProc_told (dormant : k.Dormant p) (woken : k.wakeupProc p = .ok k') :
    (k'.procs p).waitState ≠ wtChild := by
  intro still
  have state := ((wakeupProc_rouses dormant woken).same_of_waiting (by rw [still]; decide)).1
  rw [wakeupProc_awake woken, dormant.asleep] at state
  contradiction

end Kernel

/-! ## The assertions about sleeping processes -/

/-- The assertions of `wakeup_proc`, `run_timer_list`, `do_fork` and
`try_free_pages` about sleeping processes. -/
def Panic.aboutSleep : Panic → Bool
  | .wakeupZombie => true
  | .timerNotInterruptible => true
  | .forkWaitState => true
  | .freePagesPost => true
  | _ => false

/-- The computation fails no assertion about sleeping processes. -/
def Sound {α : Type} (result : Except Stop α) : Prop :=
  ∀ site, result = .error (.panic site) → site.aboutSleep = false

namespace Sound

variable {α β : Type}

theorem ok (a : α) : Sound (.ok a : Except Stop α) :=
  fun _ stopped => by contradiction

theorem disabled : Sound (.error .disabled : Except Stop α) :=
  fun _ stopped => by cases stopped

theorem spin (loop : Spin) : Sound (.error (.spin loop) : Except Stop α) :=
  fun _ stopped => by cases stopped

theorem panic {site : Panic} (other : site.aboutSleep = false) :
    Sound (.error (.panic site) : Except Stop α) :=
  fun _ stopped => by
    cases stopped
    exact other

theorem bind {first : Except Stop α} {rest : α → Except Stop β} (before : Sound first)
    (after : ∀ a, first = .ok a → Sound (rest a)) : Sound (first >>= rest) := by
  intro site stopped
  rcases bind_eq_error_iff.mp stopped with early | ⟨a, done, late⟩
  · exact before site early
  · exact after a done site late

end Sound

theorem heapPush_sound (heap : ProcessHeap) (elm : HeapEntry) : Sound (heapPush heap elm) := by
  unfold heapPush
  split
  · exact .spin _
  · exact .ok _

theorem heapGettop_sound (heap : ProcessHeap) : Sound (heapGettop heap) := by
  unfold heapGettop
  split
  · exact .spin _
  · exact .ok _

namespace Kernel

variable {k k' m : Kernel} {p : ProcPtr}

theorem schedClassEnqueue_sound (k : Kernel) (p : ProcPtr) : Sound (k.schedClassEnqueue p) := by
  unfold schedClassEnqueue
  split
  · exact .bind (heapPush_sound _ _) fun _ _ => .ok _
  · exact .ok _

theorem wakeupProc_sound (notZombie : (k.procs p).state ≠ .zombie) : Sound (k.wakeupProc p) := by
  unfold wakeupProc
  rw [if_neg notZombie]
  split
  · simp only
    split
    · exact schedClassEnqueue_sound _ _
    · exact .ok _
  · exact .ok _

theorem schedule_sound (k : Kernel) : Sound k.schedule := by
  apply Sound.bind
  · rw [requeue_eq]
    split
    · exact schedClassEnqueue_sound _ _
    · exact .ok _
  · intro m _
    unfold switchNext
    apply Sound.bind
    · unfold myPickNext
      split
      · exact .panic rfl
      · exact .bind (heapGettop_sound _) fun _ _ => .ok _
    · intro next _
      apply Sound.bind
      · split
        · unfold myDequeue
          split
          · exact .panic rfl
          · exact .ok _
        · exact .ok _
      · exact fun _ _ => .ok _

end Kernel

/-! ## Kills -/

theorem or_pfExiting (flags : UInt32) : (flags ||| pfExiting) &&& pfExiting = pfExiting := by
  apply UInt32.toBitVec_inj.mp
  simp only [UInt32.toBitVec_and, UInt32.toBitVec_or]
  ext i inRange
  simp
  grind

/-- A change of a process that the scheduler does not see keeps the run queue. -/
theorem RunQueue.modify {k : Kernel} (queue : RunQueue k) (p : ProcPtr)
    (change : ProcStruct → ProcStruct)
    (state : (change (k.procs p)).state = (k.procs p).state)
    (pt : (change (k.procs p)).pt = (k.procs p).pt)
    (rq : (change (k.procs p)).rq = (k.procs p).rq) : RunQueue (k.modify p change) := by
  refine queue.congr rfl rfl ?_ ?_ ?_
  · intro q
    rw [Kernel.Ready, Kernel.Ready, Kernel.Contends, Kernel.Contends,
      k.modify_field p change ProcStruct.state state q]
    rfl
  · exact fun q _ => k.modify_field p change ProcStruct.pt pt q
  · exact fun q _ => k.modify_field p change ProcStruct.rq rq q

namespace Kernel

variable {k k' m : Kernel} {p : ProcPtr} {errorCode ret : Int}

/-- The kernel with the flag of `__do_kill` set on one process. -/
def flag (k : Kernel) (p : ProcPtr) (errorCode : Int) : Kernel :=
  k.modify p fun s => { s with flags := s.flags ||| pfExiting, exitCode := errorCode }

theorem flag_exiting (k : Kernel) (p : ProcPtr) (errorCode : Int) (q : ProcPtr) :
    (k.flag p errorCode).Exiting q ↔ q = p ∨ k.Exiting q := by
  unfold flag Exiting
  rw [modify_procs]
  split
  · rename_i own
    simp only [own, or_pfExiting, true_or, iff_true]
    decide
  · rename_i other
    simp [other]

theorem flag_rouses (k : Kernel) (p : ProcPtr) (errorCode : Int) :
    k.Rouses (k.flag p errorCode) where
  relations := relations_modify rfl rfl
  allocated := rfl
  idleproc := rfl
  initproc := rfl
  current := rfl
  kswapd := rfl
  kswapdDone := rfl
  kstack := k.modify_field p _ ProcStruct.kstack rfl
  state q := .inl ⟨k.modify_field p _ ProcStruct.state rfl q,
    k.modify_field p _ ProcStruct.waitState rfl q⟩
  timers := .refl _
  expired _ := .inl
  exiting q exiting := (flag_exiting k p errorCode q).mpr (.inr exiting)

theorem killProc_eq_ok (killed : k.killProc p errorCode = .ok (ret, k')) :
    (k.Exiting p ∧ k' = k) ∨
      ((k.procs p).waitState &&& wtInterrupted ≠ 0 ∧ (k.flag p errorCode).wakeupProc p = .ok k') ∨
      ((k.procs p).waitState &&& wtInterrupted = 0 ∧ k' = k.flag p errorCode) := by
  unfold killProc at killed
  split at killed
  · obtain ⟨m, woken, result⟩ := bind_eq_ok_iff.mp killed
    cases result
    have wait : ((k.flag p errorCode).procs p).waitState = (k.procs p).waitState :=
      k.modify_field p _ ProcStruct.waitState rfl p
    change (if ((k.flag p errorCode).procs p).waitState &&& wtInterrupted ≠ 0 then
      (k.flag p errorCode).wakeupProc p else .ok (k.flag p errorCode)) = .ok k' at woken
    rw [wait] at woken
    split at woken
    · rename_i interruptible
      exact .inr (.inl ⟨interruptible, woken⟩)
    · rename_i notInterruptible
      cases woken
      exact .inr (.inr ⟨not_not.mp notInterruptible, rfl⟩)
  · rename_i exiting
    cases killed
    exact .inl ⟨exiting, rfl⟩

section Kill

variable (dormant : (k.procs p).waitState &&& wtInterrupted ≠ 0 → k.Dormant p)

include dormant

theorem flag_dormant (interruptible : (k.procs p).waitState &&& wtInterrupted ≠ 0) :
    (k.flag p errorCode).Dormant p := by
  have wait : ((k.flag p errorCode).procs p).waitState = (k.procs p).waitState :=
    k.modify_field p _ ProcStruct.waitState rfl p
  rw [← wait] at interruptible
  exact (k.flag_rouses p errorCode).dormant dormant interruptible

theorem killProc_rouses (killed : k.killProc p errorCode = .ok (ret, k')) : k.Rouses k' := by
  rcases killProc_eq_ok killed with ⟨_, rfl⟩ | ⟨interruptible, woken⟩ | ⟨_, rfl⟩
  · exact .refl _
  · exact (k.flag_rouses p errorCode).trans
      (wakeupProc_rouses (flag_dormant dormant interruptible) woken)
  · exact k.flag_rouses p errorCode

theorem killProc_runQueue (queue : RunQueue k)
    (killed : k.killProc p errorCode = .ok (ret, k')) : RunQueue k' := by
  have flagged : RunQueue (k.flag p errorCode) := queue.modify p _ rfl rfl rfl
  rcases killProc_eq_ok killed with ⟨_, rfl⟩ | ⟨interruptible, woken⟩ | ⟨_, rfl⟩
  · exact queue
  · have asleep : (k.flag p errorCode).Dormant p := flag_dormant dormant interruptible
    exact flagged.wakeupProc asleep.allocated asleep.notIdle woken
  · exact flagged

theorem killProc_sound : Sound (k.killProc p errorCode) := by
  unfold killProc
  split
  · apply Sound.bind
    · change Sound (if ((k.flag p errorCode).procs p).waitState &&& wtInterrupted ≠ 0 then
        (k.flag p errorCode).wakeupProc p else .ok (k.flag p errorCode))
      split
      · rename_i interruptible
        have wait : ((k.flag p errorCode).procs p).waitState = (k.procs p).waitState :=
          k.modify_field p _ ProcStruct.waitState rfl p
        rw [wait] at interruptible
        apply wakeupProc_sound
        rw [(flag_dormant dormant interruptible).asleep]
        decide
      · exact .ok _
    · exact fun _ _ => .ok _
  · exact .ok _

end Kill

theorem killProc_exiting (killed : k.killProc p errorCode = .ok (ret, k')) (q : ProcPtr) :
    k'.Exiting q ↔ q = p ∨ k.Exiting q := by
  rcases killProc_eq_ok killed with ⟨exiting, rfl⟩ | ⟨_, woken⟩ | ⟨_, rfl⟩
  · constructor
    · exact .inr
    · rintro (rfl | already)
      · exact exiting
      · exact already
  · have flags : (k'.procs q).flags = ((k.flag p errorCode).procs q).flags :=
      (congrArg (fun m => (m.procs q).flags) (wakeupProc_unwoken woken) :)
    rw [← flag_exiting k p errorCode q, Exiting, Exiting, flags]
  · exact flag_exiting k p errorCode q

theorem killAll_spec {l : List ProcPtr} (queue : RunQueue k)
    (dormant : ∀ q ∈ l, (k.procs q).waitState &&& wtInterrupted ≠ 0 → k.Dormant q)
    (killed : killAll errorCode l k = .ok k') :
    k.Rouses k' ∧ RunQueue k' ∧ ∀ q, k'.Exiting q ↔ q ∈ l ∨ k.Exiting q := by
  induction l generalizing k with
  | nil =>
      cases killed
      exact ⟨.refl _, queue, fun q => by simp⟩
  | cons p rest ih =>
      obtain ⟨⟨ret, m⟩, first, after⟩ := bind_eq_ok_iff.mp killed
      have own := dormant p List.mem_cons_self
      have rouses := killProc_rouses own first
      obtain ⟨rousesRest, queueRest, exiting⟩ := ih (killProc_runQueue own queue first)
        (fun q mem => rouses.dormant (dormant q (List.mem_cons_of_mem _ mem))) after
      refine ⟨rouses.trans rousesRest, queueRest, fun q => ?_⟩
      rw [exiting, killProc_exiting first, List.mem_cons]
      tauto

theorem killAll_sound {l : List ProcPtr}
    (dormant : ∀ q ∈ l, (k.procs q).waitState &&& wtInterrupted ≠ 0 → k.Dormant q) :
    Sound (killAll errorCode l k) := by
  induction l generalizing k with
  | nil => exact .ok _
  | cons p rest ih =>
      have own := dormant p List.mem_cons_self
      refine .bind (killProc_sound own) fun ⟨ret, m⟩ first => ?_
      have rouses := killProc_rouses own first
      exact ih fun q mem => rouses.dormant (dormant q (List.mem_cons_of_mem _ mem))

end Kernel

/-! ## The exit of a child -/

namespace Kernel

variable {k k' m : Kernel} {p : ProcPtr}

theorem wakeWaiting_spec {l : List ProcPtr} (queue : RunQueue k)
    (dormant : ∀ q ∈ l, (k.procs q).waitState &&& wtInterrupted ≠ 0 → k.Dormant q)
    (woken : wakeWaiting l k = .ok k') :
    k.Rouses k' ∧ k'.unwoken = k.unwoken ∧ RunQueue k' ∧
      ∀ q ∈ l, (k'.procs q).waitState ≠ wtChild := by
  induction l generalizing k with
  | nil =>
      cases woken
      exact ⟨.refl _, rfl, queue, fun q mem => by contradiction⟩
  | cons p rest ih =>
      obtain ⟨m, first, after⟩ := bind_eq_ok_iff.mp woken
      have headSpec : k.Rouses m ∧ m.unwoken = k.unwoken ∧ RunQueue m ∧
          (m.procs p).waitState ≠ wtChild := by
        split at first
        · rename_i waits
          have asleep := dormant p List.mem_cons_self (by rw [waits]; decide)
          exact ⟨wakeupProc_rouses asleep first, wakeupProc_unwoken first,
            queue.wakeupProc asleep.allocated asleep.notIdle first, wakeupProc_told asleep first⟩
        · rename_i notWaiting
          cases first
          exact ⟨.refl _, rfl, queue, notWaiting⟩
      obtain ⟨rouses, frame, queueHead, ownDone⟩ := headSpec
      obtain ⟨rousesRest, frameRest, queueRest, done⟩ := ih queueHead
        (fun q mem => rouses.dormant (dormant q (List.mem_cons_of_mem _ mem))) after
      refine ⟨rouses.trans rousesRest, frameRest.trans frame, queueRest, fun q mem => ?_⟩
      rcases List.mem_cons.mp mem with rfl | inRest
      · exact rousesRest.told ownDone
      · exact done q inRest

theorem wakeWaiting_sound {l : List ProcPtr}
    (dormant : ∀ q ∈ l, (k.procs q).waitState &&& wtInterrupted ≠ 0 → k.Dormant q) :
    Sound (wakeWaiting l k) := by
  induction l generalizing k with
  | nil => exact .ok _
  | cons p rest ih =>
      unfold wakeWaiting
      apply Sound.bind
      · split
        · rename_i waits
          have asleep := dormant p List.mem_cons_self (by rw [waits]; decide)
          apply wakeupProc_sound
          rw [asleep.asleep]
          decide
        · exact .ok _
      · intro m first
        have rouses : k.Rouses m := by
          split at first
          · rename_i waits
            exact wakeupProc_rouses (dormant p List.mem_cons_self (by rw [waits]; decide)) first
          · cases first
            exact .refl _
        exact ih fun q mem => rouses.dormant (dormant q (List.mem_cons_of_mem _ mem))

/-! ## Timers -/

/-- The kernel with another list of timers. -/
def setTimers (k : Kernel) (timers : List Timer) : Kernel :=
  { k with timerList := timers }

theorem setTimers_runQueue (queue : RunQueue k) (timers : List Timer) :
    RunQueue (k.setTimers timers) :=
  queue.congr rfl rfl (fun _ => Iff.rfl) (fun _ _ => rfl) fun _ _ => rfl

theorem setTimers_rouses {timers : List Timer}
    (fewer : (timers.map Timer.proc).Sublist (k.timerList.map Timer.proc))
    (expired : ∀ q, k.Timed q → q ∈ timers.map Timer.proc ∨ (k.procs q).state = .runnable) :
    k.Rouses (k.setTimers timers) where
  relations := rfl
  allocated := rfl
  idleproc := rfl
  initproc := rfl
  current := rfl
  kswapd := rfl
  kswapdDone := rfl
  kstack _ := rfl
  state _ := .inl ⟨rfl, rfl⟩
  timers := fewer
  expired := expired
  exiting _ := id

/-- A process with a timer sleeps until it fires, or has been woken before. -/
def TimersWait (k : Kernel) : Prop :=
  ∀ q, k.Timed q → k.Dormant q ∨ ((k.procs q).state = .runnable ∧ (k.procs q).waitState = 0)

theorem Rouses.timersWait (rouses : k.Rouses k') (waits : k.TimersWait) : k'.TimersWait := by
  intro q timed
  rcases rouses.state q with ⟨state, wait⟩ | ⟨_, awake⟩
  · rcases waits q (rouses.timed q timed) with asleep | awake
    · left
      apply rouses.dormant_of_waiting asleep
      intro zero
      have interruptible := asleep.interruptible
      rw [← wait, zero] at interruptible
      simp at interruptible
    · right
      rw [state, wait]
      exact awake
  · exact .inr awake

/-- The first timer fires and leaves the list. -/
theorem wakeTimer_spec {timer : Timer} {rest : List Timer} (queue : RunQueue k)
    (waits : k.TimersWait) (list : k.timerList = timer :: rest)
    (woken : k.wakeupProc timer.proc = .ok m) :
    k.Rouses (m.setTimers rest) ∧ RunQueue (m.setTimers rest) ∧ (m.setTimers rest).TimersWait := by
  have timed : k.Timed timer.proc := by simp [Timed, list]
  have wake : k.Rouses m ∧ RunQueue m := by
    rcases waits timer.proc timed with asleep | awake
    · exact ⟨wakeupProc_rouses asleep woken,
        queue.wakeupProc asleep.allocated asleep.notIdle woken⟩
    · rcases (wakeupProc_unsched woken).2 with ⟨_, rfl⟩ | ⟨notAwake, _⟩
      · exact ⟨.refl _, queue⟩
      · exact absurd awake.1 notAwake
  obtain ⟨rouses, queueWoken⟩ := wake
  have listWoken : m.timerList = timer :: rest :=
    ((congrArg Kernel.timerList (wakeupProc_unwoken woken) :)).trans list
  have dropped : m.Rouses (m.setTimers rest) := by
    apply setTimers_rouses
    · rw [listWoken]
      exact List.sublist_cons_self ..
    · intro q mem
      rw [Timed, listWoken, List.map_cons, List.mem_cons] at mem
      rcases mem with rfl | inRest
      · exact .inr (wakeupProc_awake woken)
      · exact .inl inRest
  have all := rouses.trans dropped
  exact ⟨all, setTimers_runQueue queueWoken rest, all.timersWait waits⟩

theorem fireTimers_spec {fuel : Nat} (queue : RunQueue k) (waits : k.TimersWait)
    (fired : fireTimers fuel k = .ok k') : k.Rouses k' ∧ RunQueue k' := by
  induction fuel generalizing k with
  | zero =>
      cases fired
      exact ⟨.refl _, queue⟩
  | succ fuel ih =>
      unfold fireTimers at fired
      split at fired
      · cases fired
        exact ⟨.refl _, queue⟩
      · rename_i timer rest list
        split at fired
        · cases fired
          exact ⟨.refl _, queue⟩
        · split at fired
          · contradiction
          · obtain ⟨m, woken, after⟩ := bind_eq_ok_iff.mp fired
            obtain ⟨rouses, queueDropped, waitsDropped⟩ := wakeTimer_spec queue waits list woken
            obtain ⟨rousesRest, queueRest⟩ := ih queueDropped waitsDropped after
            exact ⟨rouses.trans rousesRest, queueRest⟩

theorem fireTimers_sound {fuel : Nat} (queue : RunQueue k) (waits : k.TimersWait) :
    Sound (fireTimers fuel k) := by
  induction fuel generalizing k with
  | zero => exact .ok _
  | succ fuel ih =>
      unfold fireTimers
      split
      · exact .ok _
      · rename_i timer rest list
        have timed : k.Timed timer.proc := by simp [Timed, list]
        split
        · exact .ok _
        · split
          · rename_i notInterruptible
            rcases waits timer.proc timed with asleep | awake
            · exact absurd notInterruptible.2 asleep.interruptible
            · exact absurd awake.2 notInterruptible.1
          · refine .bind (wakeupProc_sound ?_) fun m woken => ?_
            · rcases waits timer.proc timed with asleep | awake
              · rw [asleep.asleep]
                decide
              · rw [awake.1]
                decide
            · obtain ⟨_, queueDropped, waitsDropped⟩ := wakeTimer_spec queue waits list woken
              exact ih queueDropped waitsDropped

/-- What `run_timer_list` does before it charges the current process. -/
def countDown (k : Kernel) : Except Stop Kernel :=
  match k.timerList with
  | [] => .ok k
  | timer :: rest =>
      if timer.expires = 0 then .error (.panic .timerExpired)
      else
        let timerList := { timer with expires := timer.expires - 1 } :: rest
        fireTimers timerList.length { k with timerList := timerList }

theorem countDown_spec (queue : RunQueue k) (waits : k.TimersWait)
    (counted : k.countDown = .ok k') : k.Rouses k' ∧ RunQueue k' := by
  unfold countDown at counted
  split at counted
  · cases counted
    exact ⟨.refl _, queue⟩
  · rename_i timer rest list
    split at counted
    · contradiction
    · have less : k.Rouses (k.setTimers ({ timer with expires := timer.expires - 1 } :: rest)) := by
        apply setTimers_rouses
        · rw [list]
          exact .refl _
        · intro q mem
          rw [Timed, list] at mem
          exact .inl mem
      obtain ⟨rouses, fired⟩ :=
        fireTimers_spec (setTimers_runQueue queue _) (less.timersWait waits) counted
      exact ⟨less.trans rouses, fired⟩

theorem countDown_sound (queue : RunQueue k) (waits : k.TimersWait) : Sound k.countDown := by
  unfold countDown
  split
  · exact .ok _
  · rename_i timer rest list
    split
    · exact .panic rfl
    · have less : k.Rouses (k.setTimers ({ timer with expires := timer.expires - 1 } :: rest)) := by
        apply setTimers_rouses
        · rw [list]
          exact .refl _
        · intro q mem
          rw [Timed, list] at mem
          exact .inl mem
      exact fireTimers_sound (setTimers_runQueue queue _) (less.timersWait waits)

/-! ## The timer interrupt -/

theorem rouses_of_untimed (same : k'.untimed = k.untimed) : k.Rouses k' where
  relations := relations_of_untimed same
  allocated := (congrArg Kernel.allocated same :)
  idleproc := (congrArg Kernel.idleproc same :)
  initproc := (congrArg Kernel.initproc same :)
  current := (congrArg Kernel.current same :)
  kswapd := (congrArg Kernel.kswapd same :)
  kswapdDone := (congrArg Kernel.kswapdDone same :)
  kstack q := (congrArg (fun m => (m.procs q).kstack) same :)
  state q := .inl ⟨(congrArg (fun m => (m.procs q).state) same :),
    (congrArg (fun m => (m.procs q).waitState) same :)⟩
  timers := by
    rw [show k'.timerList = k.timerList from (congrArg Kernel.timerList same :)]
  expired q timed := by
    have list : k'.timerList = k.timerList := (congrArg Kernel.timerList same :)
    rw [Timed, list]
    exact .inl timed
  exiting q exiting := by
    have flags : (k'.procs q).flags = (k.procs q).flags :=
      (congrArg (fun m => (m.procs q).flags) same :)
    rw [Exiting, flags]
    exact exiting

theorem schedClassProcTick_spec {wrap : Int → Int} (queue : RunQueue k)
    (ticked : k.schedClassProcTick wrap k.current = .ok k') : k.Rouses k' ∧ RunQueue k' := by
  unfold schedClassProcTick at ticked
  split at ticked
  · exact ⟨rouses_of_untimed (myProcTick_untimed queue.nodup ticked), queue.myProcTick ticked⟩
  · cases ticked
    exact ⟨rouses_of_untimed (untimed_modify _ _ _ rfl), queue.modify_current _⟩

/-- A timer interrupt only wakes processes, and charges the current one. -/
theorem runTimerList_spec {wrap : Int → Int} (queue : RunQueue k) (waits : k.TimersWait)
    (ticked : k.runTimerList wrap = .ok k') : k.Rouses k' ∧ RunQueue k' := by
  obtain ⟨m, counted, charged⟩ := bind_eq_ok_iff.mp ticked
  obtain ⟨rouses, queueCounted⟩ := countDown_spec queue waits counted
  obtain ⟨rousesTick, queueTick⟩ := schedClassProcTick_spec queueCounted charged
  exact ⟨rouses.trans rousesTick, queueTick⟩

theorem tickDecreasePtLoop_sound (wrap : Int → Int) (entries : List HeapEntry)
    (procs : ProcPtr → ProcStruct) : Sound (tickDecreasePtLoop wrap entries procs) := by
  induction entries generalizing procs with
  | nil => exact .ok _
  | cons e rest ih =>
      unfold tickDecreasePtLoop
      simp only
      split
      · exact .panic rfl
      · split
        · exact .panic rfl
        · exact .bind (ih _) fun _ _ => .ok _

theorem schedClassProcTick_sound (wrap : Int → Int) (k : Kernel) (p : ProcPtr) :
    Sound (k.schedClassProcTick wrap p) := by
  unfold schedClassProcTick
  split
  · apply Sound.bind
    · unfold myChargeTick
      split
      · exact .ok _
      · apply Sound.bind
        · unfold ProcStruct.chargeTick
          simp only
          split
          · exact .panic rfl
          · split
            · exact .ok _
            · exact .ok _
        · exact fun _ _ => .ok _
    · intro charged _
      refine .bind (.bind (tickDecreasePtLoop_sound _ _ _) fun _ _ => .ok _) fun aged _ => ?_
      exact .bind (.bind (heapGettop_sound _) fun _ _ => .ok _) fun _ _ => .ok _
  · exact .ok _

theorem runTimerList_sound {wrap : Int → Int} (queue : RunQueue k) (waits : k.TimersWait) :
    Sound (k.runTimerList wrap) :=
  .bind (countDown_sound queue waits) fun _ _ => schedClassProcTick_sound _ _ _

end Kernel

end EdfKernel
