import EdfKernel.Process.TickReturns

/-!
# Room on the heap

`heap_push` does not come back from a full heap.  A process is pushed when it is woken
while another one runs, and when it gives up the processor but still runs.  A step whose
pushed processes, together with those on the heap, fit into the array never finds it full.
-/

namespace EdfKernel

open Library

/-- The computation does not push on a full heap. -/
def Roomy {α : Type} (result : Except Stop α) : Prop :=
  result ≠ .error (.spin .heapPush)

namespace Roomy

variable {α β : Type}

theorem ok (a : α) : Roomy (.ok a : Except Stop α) := by
  rintro ⟨⟩

theorem disabled : Roomy (.error .disabled : Except Stop α) := by
  rintro ⟨⟩

theorem panic (site : Panic) : Roomy (.error (.panic site) : Except Stop α) := by
  rintro ⟨⟩

theorem bind {first : Except Stop α} {rest : α → Except Stop β} (before : Roomy first)
    (after : ∀ a, first = .ok a → Roomy (rest a)) : Roomy (first >>= rest) := by
  intro full
  rcases bind_eq_error_iff.mp full with early | ⟨a, done, late⟩
  · exact before early
  · exact after a done late

end Roomy

/-- The set has at most as many processes as the heap has places. -/
def Bounded (members : ProcPtr → Prop) : Prop :=
  ∀ l : List ProcPtr, l.Nodup → (∀ p ∈ l, members p) → l.length ≤ maxHeapSize

namespace Kernel

variable {wrap : Int → Int} {k k' m : Kernel} {event : Event} {p q : ProcPtr}
  {members : ProcPtr → Prop}

/-! ## The processes that a step pushes -/

/-- A process that a kill wakes. -/
def Answers (k : Kernel) (p : ProcPtr) : Prop :=
  ¬k.Exiting p ∧ (k.procs p).waitState &&& wtInterrupted ≠ 0 ∧ k.Sleeps p

/-- A process that the exit of a child wakes. -/
def Expects (k : Kernel) (p : ProcPtr) : Prop :=
  (k.procs p).waitState = wtChild ∧ k.Sleeps p

/-- The swap daemon in its own sleep. -/
def Dozes (k : Kernel) (p : ProcPtr) : Prop :=
  k.kswapd = some p ∧ (k.procs p).waitState = wtTimer ∧ k.Sleeps p

/-- The processes that `do_exit` wakes. -/
def GroupAnswers (k : Kernel) (p : ProcPtr) : Prop :=
  p ∈ (k.threadRing k.current).tail ∧ k.Answers p

/-- The processes that `__do_exit` wakes: those of the parent's group that wait for a child,
and the heir of the children if it waits and there is a zombie among them. -/
def ExitAnswers (k : Kernel) (p : ProcPtr) : Prop :=
  k.Expects p ∧ ((∃ parent, (k.procs k.current).parent = some parent ∧ p ∈ k.threadRing parent) ∨
    (p = k.heir ∧ ∃ z, (z = k.current ∨ (k.procs z).state = .zombie) ∧
      (k.procs z).parent = some k.current))

/-- The processes that the current one pushes when it goes on. -/
def PushedAt (k : Kernel) (p : ProcPtr) : Pc → Prop
  | .tailResched => p = k.current ∧ (k.procs k.current).needResched = true
  | .freeMark _ => p = k.current ∧ (k.procs k.current).state = .runnable
  | .waitMark .. => p = k.current ∧ (k.procs k.current).state = .runnable
  | .sleepMark _ => p = k.current ∧ (k.procs k.current).state = .runnable
  | .forkWake child _ => p = child
  | .exit => k.ExitAnswers p
  | _ => False

/-- The processes that a step pushes on the heap. -/
def Pushed (k : Kernel) (p : ProcPtr) : Event → Prop
  | .tick => p ∈ k.sleepers (countTick k.timerList)
  | .syscall (.exit _) => k.GroupAnswers p
  | .syscall (.kill pid) => k.findProc pid = some p ∧ k.Answers p
  | .fault => k.GroupAnswers p
  | .fail _ => (k.pc = .work .pgfault ∨ ∃ caller, k.pc = .work (.execLoad caller)) ∧
      k.GroupAnswers p
  | .kcall .schedule => p = k.current
  | .kcall .wakeKswapd => k.Dozes p
  | .kcall .wakeupAll => p ∈ k.kswapdDone ∧ k.Sleeps p
  | .noPage => k.Dozes p
  | .lockBusy => p = k.current
  | .go _ => k.PushedAt p k.pc
  | _ => False

/-- The heap has room for the processes that the step pushes. -/
def Admits (k : Kernel) (event : Event) : Prop :=
  Bounded fun p => k.Ready p ∨ k.Pushed p event

/-! ## Pushing -/

/-- The heap holds processes of the set, which run but are not the current one. -/
structure Within (members : ProcPtr → Prop) (k : Kernel) : Prop where
  nodup : (k.heap.entry.map HeapEntry.proc).Nodup
  member : ∀ p ∈ k.heap.entry.map HeapEntry.proc,
    members p ∧ p ≠ k.current ∧ (k.procs p).state = .runnable

/-- The computation does not push on a full heap, and keeps the heap within the set. -/
def Keeps {α : Type} (members : ProcPtr → Prop) (see : α → Kernel) (result : Except Stop α) :
    Prop :=
  Roomy result ∧ ∀ a, result = .ok a → (see a).Within members

namespace Keeps

variable {α β : Type} {see : α → Kernel} {see' : β → Kernel}

theorem ok {a : α} (within : (see a).Within members) : Keeps members see (.ok a) :=
  ⟨.ok a, fun _ same => Except.ok.inj same ▸ within⟩

theorem panic (site : Panic) : Keeps members see (.error (.panic site)) :=
  ⟨.panic site, by rintro _ ⟨⟩⟩

theorem bind {first : Except Stop α} {rest : α → Except Stop β} (before : Keeps members see first)
    (after : ∀ a, first = .ok a → (see a).Within members → Keeps members see' (rest a)) :
    Keeps members see' (first >>= rest) := by
  constructor
  · exact before.1.bind fun a done => (after a done (before.2 a done)).1
  · intro b finished
    obtain ⟨a, done, rested⟩ := bind_eq_ok_iff.mp finished
    exact (after a done (before.2 a done)).2 b rested

end Keeps

namespace Within

theorem of_queue (queue : RunQueue k) (ready : ∀ p, k.Ready p → members p) : k.Within members where
  nodup := queue.nodup
  member p mem := by
    have isReady := (queue.mem_iff p).mp mem
    exact ⟨ready p isReady, isReady.2, isReady.1.2.1⟩

theorem congr (within : k.Within members) (heap : k'.heap = k.heap)
    (current : k'.current = k.current)
    (state : ∀ q, q ≠ k.current → (k'.procs q).state = (k.procs q).state) : k'.Within members where
  nodup := heap ▸ within.nodup
  member p mem := by
    rw [heap] at mem
    obtain ⟨member, other, runnable⟩ := within.member p mem
    exact ⟨member, current ▸ other, (state p other).trans runnable⟩

theorem room (within : k.Within members) (bounded : Bounded members) (member : members p)
    (fresh : p ∉ k.heap.entry.map HeapEntry.proc) : k.heap.entry.length < maxHeapSize := by
  have all : ∀ q ∈ p :: k.heap.entry.map HeapEntry.proc, members q := by
    intro q mem
    rcases List.mem_cons.mp mem with rfl | inHeap
    · exact member
    · exact (within.member q inHeap).1
  have total := bounded _ (List.nodup_cons.mpr ⟨fresh, within.nodup⟩) all
  rw [List.length_cons, List.length_map] at total
  exact total

theorem schedClassEnqueue (within : k.Within members) (bounded : Bounded members)
    (member : members p) (fresh : p ∉ k.heap.entry.map HeapEntry.proc) (other : p ≠ k.current)
    (runnable : (k.procs p).state = .runnable) :
    Keeps members id (k.schedClassEnqueue p) := by
  unfold Kernel.schedClassEnqueue
  split
  · have pushed : ∃ k', k.myEnqueue p = .ok k' ∧
        k'.heap.entry.length = k.heap.entry.length + 1 :=
      myEnqueue_of_lt (within.room bounded member fresh)
    obtain ⟨k', enqueued, _⟩ := pushed
    rw [enqueued]
    apply Keeps.ok
    obtain ⟨heap, _, perm, _, rfl⟩ := myEnqueue_eq_ok enqueued
    have procs := perm.map HeapEntry.proc
    constructor
    · exact procs.nodup_iff.mpr (List.nodup_cons.mpr ⟨fresh, within.nodup⟩)
    · intro q mem
      have state : ((k.modify p fun s => { s with rq := some 0 }).procs q).state =
          (k.procs q).state := k.modify_field p _ ProcStruct.state rfl q
      rcases List.mem_cons.mp (procs.mem_iff.mp mem) with rfl | old
      · exact ⟨member, other, state.trans runnable⟩
      · obtain ⟨inSet, notCurrent, runs⟩ := within.member q old
        exact ⟨inSet, notCurrent, state.trans runs⟩
  · exact .ok within

/-- Waking a process of the set. -/
theorem wakeupProc (within : k.Within members) (bounded : Bounded members)
    (member : k.Sleeps p → members p) : Keeps members id (k.wakeupProc p) := by
  unfold Kernel.wakeupProc
  split
  · exact .panic _
  · split
    · rename_i asleep
      have fresh : p ∉ k.heap.entry.map HeapEntry.proc :=
        fun mem => asleep (within.member p mem).2.2
      have awoken : (k.awaken p).Within members := by
        constructor
        · exact within.nodup
        · intro q mem
          have other : q ≠ p := by
            rintro rfl
            exact fresh mem
          rw [awaken, modify_procs_of_ne _ _ _ other]
          exact within.member q mem
      simp only
      split
      · rename_i other
        exact awoken.schedClassEnqueue bounded (member ⟨other, asleep⟩) fresh other
          (by simp [awaken])
      · exact .ok awoken
    · exact .ok within

end Within

/-- A process that sleeps after another one has been woken slept before. -/
theorem wakeupProc_asleep (woken : k.wakeupProc p = .ok m) (sleeps : m.Sleeps q) :
    m.procs q = k.procs q ∧ k.Sleeps q := by
  have other : q ≠ p := by
    rintro rfl
    exact sleeps.2 (wakeupProc_awake woken)
  have same := wakeupProc_procs_of_ne woken other
  have current : m.current = k.current := (congrArg Kernel.current (wakeupProc_unwoken woken) :)
  exact ⟨same, current ▸ sleeps.1, same ▸ sleeps.2⟩

/-! ## Kills -/

theorem killProc_keeps (within : k.Within members) (bounded : Bounded members)
    (member : k.Answers p → members p) (errorCode : Int) :
    Keeps members Prod.snd (k.killProc p errorCode) := by
  have flagged : (k.flag p errorCode).Within members :=
    within.congr rfl rfl fun q _ => k.modify_field p _ ProcStruct.state rfl q
  unfold killProc
  split
  · rename_i alive
    refine @Keeps.bind _ _ _ id _ _ _ ?_ fun m _ woken => .ok woken
    have wait : ((k.flag p errorCode).procs p).waitState = (k.procs p).waitState :=
      k.modify_field p _ ProcStruct.waitState rfl p
    have state : ((k.flag p errorCode).procs p).state = (k.procs p).state :=
      k.modify_field p _ ProcStruct.state rfl p
    change Keeps members id (if ((k.flag p errorCode).procs p).waitState &&& wtInterrupted ≠ 0 then
        (k.flag p errorCode).wakeupProc p else .ok (k.flag p errorCode))
    split
    · rename_i interruptible
      refine flagged.wakeupProc bounded fun sleeps => member ⟨not_not.mpr alive, ?_, ?_⟩
      · rw [← wait]
        exact interruptible
      · exact ⟨sleeps.1, state ▸ sleeps.2⟩
    · exact .ok flagged
  · exact .ok within

/-- A process that answers to a kill after another has been killed did so before. -/
theorem killProc_answers {errorCode ret : Int} (killed : k.killProc p errorCode = .ok (ret, m))
    (answers : m.Answers q) : k.Answers q := by
  obtain ⟨alive, interruptible, sleeps⟩ := answers
  have exiting := killProc_exiting killed q
  have other : q ≠ p := fun own => alive (exiting.mpr (.inl own))
  have aliveBefore : ¬k.Exiting q := fun old => alive (exiting.mpr (.inr old))
  have flagged : (k.flag p errorCode).procs q = k.procs q := modify_procs_of_ne _ _ _ other
  rcases killProc_eq_ok killed with ⟨_, rfl⟩ | ⟨_, woken⟩ | ⟨_, rfl⟩
  · exact ⟨alive, interruptible, sleeps⟩
  · obtain ⟨same, slept⟩ := wakeupProc_asleep woken sleeps
    rw [flagged] at same
    exact ⟨aliveBefore, same ▸ interruptible, slept.1, flagged ▸ slept.2⟩
  · exact ⟨aliveBefore, flagged ▸ interruptible, sleeps.1, flagged ▸ sleeps.2⟩

theorem killAll_keeps {l : List ProcPtr} (within : k.Within members) (bounded : Bounded members)
    (member : ∀ p ∈ l, k.Answers p → members p) (errorCode : Int) :
    Keeps members id (killAll errorCode l k) := by
  induction l generalizing k with
  | nil => exact .ok within
  | cons p rest ih =>
      refine (killProc_keeps within bounded (member p List.mem_cons_self) errorCode).bind ?_
      rintro ⟨ret, m⟩ killed woken
      exact ih woken fun q inRest answers =>
        member q (List.mem_cons_of_mem _ inRest) (killProc_answers killed answers)

/-! ## The exit of a process -/

theorem wakeupProc_expects (woken : k.wakeupProc p = .ok m) (expects : m.Expects q) :
    k.Expects q := by
  obtain ⟨same, slept⟩ := wakeupProc_asleep woken expects.2
  exact ⟨same ▸ expects.1, slept⟩

theorem wakeWaiting_keeps {l : List ProcPtr} (within : k.Within members)
    (bounded : Bounded members) (member : ∀ p ∈ l, k.Expects p → members p) :
    Keeps members id (wakeWaiting l k) ∧
      ∀ m, wakeWaiting l k = .ok m → ∀ q, m.Expects q → k.Expects q := by
  induction l generalizing k with
  | nil =>
      refine ⟨.ok within, ?_⟩
      rintro _ ⟨⟩ q
      exact id
  | cons p rest ih =>
      have first : Keeps members id (if (k.procs p).waitState = wtChild then k.wakeupProc p
          else .ok k) := by
        split
        · rename_i waits
          exact within.wakeupProc bounded fun sleeps => member p List.mem_cons_self ⟨waits, sleeps⟩
        · exact .ok within
      have before : ∀ m, (if (k.procs p).waitState = wtChild then k.wakeupProc p else .ok k) = .ok m →
          ∀ q, m.Expects q → k.Expects q := by
        intro m done q
        split at done
        · exact wakeupProc_expects done
        · cases done
          exact id
      have later : ∀ m, (if (k.procs p).waitState = wtChild then k.wakeupProc p else .ok k) = .ok m →
          m.Within members → Keeps members id (wakeWaiting rest m) ∧
            ∀ k', wakeWaiting rest m = .ok k' → ∀ q, k'.Expects q → m.Expects q :=
        fun m done woken => ih woken fun q inRest expects =>
          member q (List.mem_cons_of_mem _ inRest) (before m done q expects)
      constructor
      · exact first.bind fun m done woken => (later m done woken).1
      · intro k' woken q expects
        obtain ⟨m, done, after⟩ := bind_eq_ok_iff.mp woken
        exact before m done q ((later m done (first.2 m done)).2 k' after q expects)

/-- The loop that moves the children only wakes their new parent, at a zombie. -/
theorem adoptChildren_roomy {fuel : Nat} {parent : ProcPtr} {children : ProcPtr → List ProcPtr}
    (within : k.Within members) (bounded : Bounded members)
    (family : Family k children (some p)) (known : k.Known parent) (ne : parent ≠ p)
    (member : (∃ z, (k.procs z).state = .zombie ∧ (k.procs z).parent = some p) →
      k.Expects parent → members parent) :
    Roomy (adoptChildren fuel k p parent) := by
  induction fuel generalizing k children with
  | zero =>
      unfold adoptChildren
      split
      · exact .ok _
      · rintro ⟨⟩
  | succ fuel ih =>
      unfold adoptChildren
      split
      · exact .ok _
      · rename_i child first
        obtain ⟨rest, split⟩ : ∃ rest, children p = child :: rest := by
          obtain ⟨_, linked⟩ := family.loose p rfl
          rw [linked.first_eq] at first
          exact List.head?_eq_some_iff.mp first
        have own : (k.procs child).parent = some p :=
          ((family.mem_iff p child).mp (split ▸ List.mem_cons_self)).2
        have unlinked := k.adoptLinks_unlinked p parent child
        have heap : (k.adoptLinks p parent child).heap = k.heap := (congrArg Kernel.heap unlinked :)
        have current : (k.adoptLinks p parent child).current = k.current :=
          (congrArg Kernel.current unlinked :)
        have state : ∀ q, ((k.adoptLinks p parent child).procs q).state = (k.procs q).state :=
          fun q => (congrArg (fun m => (m.procs q).state) unlinked :)
        have wait : ∀ q, ((k.adoptLinks p parent child).procs q).waitState = (k.procs q).waitState :=
          fun q => (congrArg (fun m => (m.procs q).waitState) unlinked :)
        have links : (k.adoptLinks p parent child).Within members :=
          within.congr heap current fun q _ => state q
        have expects : (k.adoptLinks p parent child).Expects parent → k.Expects parent := by
          rintro ⟨waits, other, asleep⟩
          exact ⟨wait parent ▸ waits, current ▸ other, state parent ▸ asleep⟩
        have round : Keeps members id (k.adoptFirst p parent child) := by
          simp only [adoptFirst]
          split
          · rename_i both
            refine links.wakeupProc bounded fun sleeps => ?_
            exact member ⟨child, state child ▸ both.1, own⟩ (expects ⟨both.2, sleeps⟩)
          · exact .ok links
        refine round.1.bind fun m adopted => ?_
        have woken : m = k.adoptLinks p parent child ∨
            (k.adoptLinks p parent child).wakeupProc parent = .ok m := by
          simp only [adoptFirst] at adopted
          split at adopted
          · exact .inr adopted
          · cases adopted
            exact .inl rfl
        have relations : m.relations = (k.adoptLinks p parent child).relations := by
          rcases woken with rfl | woken
          · rfl
          · exact relations_of_unwoken (wakeupProc_unwoken woken)
        have expectsBefore : m.Expects parent → k.Expects parent := by
          rcases woken with rfl | woken
          · exact expects
          · exact fun later => expects (wakeupProc_expects woken later)
        have lists : m.Known parent := by
          have frame := k.adoptLinks_withProcs p parent child k.procs
          have list : m.procList = k.procList :=
            (congrArg Kernel.procList relations :).trans (congrArg Kernel.procList frame :)
          have idleproc : m.idleproc = k.idleproc :=
            (congrArg Kernel.idleproc relations :).trans (congrArg Kernel.idleproc frame :)
          rw [Known, list, idleproc]
          exact known
        refine ih (round.2 m adopted) ((family.adoptLinks split known ne).of_relations relations)
          lists ?_
        rintro ⟨z, zombie, parentZ⟩ later
        refine member ⟨z, ?_, ?_⟩ (expectsBefore later)
        · rw [← state]
          exact (zombie_iff_of_relations relations z).mp zombie
        · have same : (m.procs z).parent = ((k.adoptLinks p parent child).procs z).parent :=
            (congrArg (fun m => (m.procs z).parent) relations :)
          rw [same, adoptLinks_parent] at parentZ
          split at parentZ
          · cases parentZ
            exact absurd rfl ne
          · exact parentZ

theorem ended_expects (expects : k.ended.Expects q) : k.Expects q := by
  obtain ⟨waits, other, asleep⟩ := expects
  have current : k.ended.current = k.current :=
    (congrArg Kernel.current (k.ended_withProcs k.procs) :)
  rw [current] at other
  rw [ended_state, if_neg other] at asleep
  exact ⟨k.ended_waitState q ▸ waits, other, asleep⟩

theorem Inv.exitProc_roomy (inv : k.Inv) (source : k.pc = .exit) (bounded : Bounded members)
    (ready : ∀ p, k.Ready p → members p) (member : ∀ p, k.ExitAnswers p → members p) :
    Roomy k.exitProc := by
  have table := inv.others.table
  have awake := (inv.own.running (by rw [source]; rfl)).2.1
  have mem : k.current ∈ k.procList := by
    apply inv.listed
    rw [source]
    rintro (init | user) <;> contradiction
  have currentDrop : (k.dropMm k.current).current = k.current :=
    (congrArg Kernel.current (k.dropMm_eq k.current) :)
  have frame := k.ended_withProcs k.procs
  have currentEnded : k.ended.current = k.current := (congrArg Kernel.current frame :)
  have ended : k.ended.Within members := by
    refine (Within.of_queue inv.others.queue ready).congr (congrArg Kernel.heap frame :)
      currentEnded fun q other => ?_
    rw [ended_state, if_neg other]
  unfold exitProc
  split
  · exact .panic _
  · split
    · exact .panic _
    · rename_i _ notInit
      simp only [currentDrop, modify_current]
      change Roomy (k.exitWake >>= fun m =>
        adoptChildren m.procList.length (m.deThread m.current) m.current m.heir)
      obtain ⟨parent, parentEq, _⟩ := table.parent k.current mem
      have ring : k.ended.threadRing parent = k.threadRing parent := by
        rw [threadRing, threadRing,
          show k.ended.threadGroups = k.threadGroups from (congrArg Kernel.threadGroups frame :)]
      have waiting := wakeWaiting_keeps (l := k.ended.threadRing parent) ended bounded
        fun q inRing expects => member q
          ⟨ended_expects expects, .inl ⟨parent, parentEq, ring ▸ inRing⟩⟩
      have chosen := exitWake_of_parent parentEq
      refine .bind (chosen ▸ waiting.1.1) fun m woken => ?_
      obtain ⟨_, _, rouses, _⟩ := exitWake_spec table inv.others.queue mem awake
        (fun q known _ => inv.dormant known) woken
      rw [chosen] at woken
      have relations := rouses.relations
      have current : m.current = k.current := rouses.current.trans currentEnded
      have rings : m.threadGroups = k.threadGroups :=
        (congrArg Kernel.threadGroups relations :).trans (congrArg Kernel.threadGroups frame :)
      have initproc : m.initproc = k.initproc :=
        rouses.initproc.trans (congrArg Kernel.initproc frame :)
      have heir : m.heir = k.heir := heir_congr rings initproc current
      obtain ⟨heirOther, heirKnown, _⟩ := heir_spec table mem notInit
      have known : ∀ q, k.Known q → (m.deThread m.current).Known q := by
        intro q knownQ
        change q ∈ m.procList ∨ q = m.idleproc
        rw [show m.procList = k.procList from
            (congrArg Kernel.procList relations :).trans (congrArg Kernel.procList frame :),
          show m.idleproc = k.idleproc from
            rouses.idleproc.trans (congrArg Kernel.idleproc frame :)]
        exact knownQ
      obtain ⟨children, family⟩ := table.family
      have familyApart : Family (m.deThread m.current) children none :=
        ((ended_family family).of_relations relations).congr rfl rfl (fun _ _ => rfl)
          (fun _ _ => rfl) (fun _ _ => rfl) fun _ _ => rfl
      have apart : (m.deThread m.current).Within members :=
        (waiting.1.2 m woken).congr rfl rfl fun _ _ => rfl
      rw [heir]
      refine adoptChildren_roomy apart bounded (familyApart.leave ?_) (known _ heirKnown) ?_ ?_
      · exact current ▸ known _ (.inl mem)
      · exact current ▸ heirOther
      · rintro ⟨z, zombie, parentZ⟩ expects
        refine member _ ⟨ended_expects (waiting.2 m woken _ expects), .inr ⟨rfl, z, ?_, ?_⟩⟩
        · have endedZombie : (k.ended.procs z).state = .zombie :=
            (zombie_iff_of_relations relations z).mp zombie
          rw [ended_state] at endedZombie
          split at endedZombie
          · rename_i own
            exact .inl own
          · exact .inr endedZombie
        · have same : (m.procs z).parent = (k.procs z).parent :=
            (congrArg (fun m => (m.procs z).parent) relations :).trans (k.ended_parent z)
          change (m.procs z).parent = some m.current at parentZ
          rw [← same, parentZ, current]

/-! ## kswapd_wakeup_all -/

theorem wakeupQueue_roomy {fuel : Nat} (within : k.Within members) (bounded : Bounded members)
    (member : ∀ p ∈ k.kswapdDone, k.Sleeps p → members p) : Roomy (wakeupQueue fuel k) := by
  induction fuel generalizing k with
  | zero => exact .ok _
  | succ fuel ih =>
      unfold wakeupQueue
      split
      · exact .ok _
      · rename_i p rest list
        rw [list] at member
        have state : ∀ q, ((k.tell p rest).procs q).state = (k.procs q).state :=
          modify_field { k with kswapdDone := rest } p _ ProcStruct.state rfl
        have told : (k.tell p rest).Within members := within.congr rfl rfl fun q _ => state q
        have sleeps : ∀ q, (k.tell p rest).Sleeps q → k.Sleeps q :=
          fun q asleep => ⟨asleep.1, state q ▸ asleep.2⟩
        have wakes := told.wakeupProc bounded fun asleep =>
          member p List.mem_cons_self (sleeps p asleep)
        refine wakes.1.bind fun m woken => ih (wakes.2 m woken) fun q queued asleep => ?_
        have list' : m.kswapdDone = rest :=
          (congrArg Kernel.kswapdDone (wakeupProc_unwoken woken) :)
        rw [list'] at queued
        exact member q (List.mem_cons_of_mem _ queued)
          (sleeps q (wakeupProc_asleep woken asleep).2)

/-! ## Switches -/

theorem switchNext_roomy (k : Kernel) : Roomy k.switchNext := by
  unfold switchNext
  apply Roomy.bind
  · unfold myPickNext
    split
    · exact .panic _
    · refine .bind ?_ fun _ _ => .ok _
      unfold heapGettop
      split
      · rintro ⟨⟩
      · exact .ok _
  · intro next _
    apply Roomy.bind
    · split
      · unfold myDequeue
        split
        · exact .panic _
        · exact .ok _
      · exact .ok _
    · exact fun _ _ => .ok _

/-- `schedule` only pushes the current process. -/
theorem scheduleTo_roomy (queue : RunQueue k) (bounded : Bounded members)
    (ready : ∀ p, k.Ready p → members p)
    (member : k.Contends k.current → members k.current)
    (allocated : k.allocated k.current = true) (pc : Pc) : Roomy (k.scheduleTo pc) := by
  have state : ((k.goto pc).procs k.current).state = (k.procs k.current).state :=
    k.modify_field k.current _ ProcStruct.state rfl k.current
  refine .bind ?_ fun m _ => switchNext_roomy m
  rw [requeue_eq]
  split
  · rename_i runnable
    unfold Kernel.schedClassEnqueue
    split
    · rename_i notIdle
      have room : k.heap.entry.length < maxHeapSize :=
        (Within.of_queue queue ready).room bounded (member ⟨allocated, state ▸ runnable, notIdle⟩)
          fun mem => ((queue.mem_iff _).mp mem).2 rfl
      have pushed : ∃ k', (k.goto pc).clearResched.myEnqueue k.current = .ok k' ∧
          k'.heap.entry.length = k.heap.entry.length + 1 := myEnqueue_of_lt room
      obtain ⟨k', enqueued, _⟩ := pushed
      change Roomy ((k.goto pc).clearResched.myEnqueue k.current)
      rw [enqueued]
      exact .ok _
    · exact .ok _
  · exact .ok _

/-! ## The timer interrupt -/

theorem Inv.tickFits (inv : k.Inv) (bounded : Bounded members)
    (due : ∀ p, k.Due p → members p) : k.TickFits := by
  have timers : ((countTick k.timerList).map Timer.proc).Nodup := by
    rw [countTick_procs]
    exact inv.others.timers
  have sleepersNodup : (k.sleepers (countTick k.timerList)).Nodup :=
    (timers.sublist ((List.takeWhile_sublist _).map _)).filter _
  have apart : ∀ p ∈ k.heap.entry.map HeapEntry.proc, ∀ q ∈ k.sleepers (countTick k.timerList),
      p ≠ q := by
    rintro p queued _ sleeps rfl
    have runnable := ((inv.others.queue.mem_iff p).mp queued).1.2.1
    exact (of_decide_eq_true (List.mem_filter.mp sleeps).2).2 runnable
  have total := bounded _ (List.nodup_append.mpr ⟨inv.others.queue.nodup, sleepersNodup, apart⟩) (by
    intro p mem
    rcases List.mem_append.mp mem with queued | sleeps
    · exact due p (.inl ((inv.others.queue.mem_iff p).mp queued))
    · exact due p (.inr sleeps))
  rw [List.length_append, List.length_map] at total
  exact total

theorem schedClassProcTick_roomy (k : Kernel) (p : ProcPtr) :
    Roomy (k.schedClassProcTick wrap p) := by
  unfold schedClassProcTick
  split
  · apply Roomy.bind
    · by_cases onTime : (k.procs p).OnTime wrap
      · obtain ⟨m, charged⟩ := myChargeTick_of_onTime onTime
        rw [charged]
        exact .ok _
      · rw [myChargeTick_of_late onTime]
        exact .panic _
    · intro charged _
      refine .bind (.bind ?_ fun _ _ => .ok _) fun aged _ => .bind (.bind ?_ fun _ _ => .ok _)
        fun _ _ => .ok _
      · intro full
        rcases tickDecreasePtLoop_eq_error full with missed | negative
        · cases missed
        · cases negative
      · unfold heapGettop
        split
        · rintro ⟨⟩
        · exact .ok _
  · exact .ok _

theorem Inv.runTimerList_roomy (inv : k.Inv) (clocked : k.Clocked) (fits : k.TickFits) :
    Roomy (k.runTimerList wrap) := by
  obtain ⟨m, counted, _⟩ := (countDown_push inv clocked.runs clocked.fits).1 fits
  refine .bind ?_ fun m _ => schedClassProcTick_roomy m _
  change Roomy k.countDown
  rw [counted]
  exact .ok _

theorem Inv.tick_roomy (inv : k.Inv) (clocked : k.Clocked) (admits : k.Admits .tick) :
    Roomy (k.tick wrap) := by
  have fits := inv.tickFits admits fun p => id
  unfold Kernel.tick
  split
  · rename_i user
    have moves : k.pc.Moves k.flagged .tail := user ▸ .userTail
    have there := inv.move moves (goto_movedTo k _ (by rintro ⟨⟩))
    exact there.runTimerList_roomy ⟨clocked.runs, clocked.fits⟩ ((k.goto_tickFits .tail).mpr fits)
  · exact inv.runTimerList_roomy clocked fits

/-! ## Steps -/

theorem Inv.within (inv : k.Inv) (_ : k.Admits event) :
    k.Within fun p => k.Ready p ∨ k.Pushed p event :=
  .of_queue inv.others.queue fun _ => .inl

section Steps

variable (inv : k.Inv) (admits : k.Admits event)

include inv admits

/-- A switch has room if the current process counts as pushed. -/
theorem Inv.scheduleTo_roomy (member : k.Contends k.current → k.Pushed k.current event)
    (pc : Pc) : Roomy (k.scheduleTo pc) :=
  Kernel.scheduleTo_roomy inv.others.queue admits (fun _ => .inl)
    (fun contends => .inr (member contends)) inv.others.allocated pc

theorem Inv.doExit_roomy (member : ∀ p, k.GroupAnswers p → k.Pushed p event) (errorCode : Int) :
    Roomy (k.doExit errorCode) := by
  have kills := killAll_keeps (l := (k.threadRing k.current).tail) (inv.within admits) admits
    (fun p inRing answers => .inr (member p ⟨inRing, answers⟩)) errorCode
  exact kills.1.bind fun _ _ => .ok _

theorem Inv.wakeKswapd_roomy (member : ∀ p, k.Dozes p → k.Pushed p event) {swapd : ProcPtr}
    (present : k.kswapd = some swapd) (asleep : (k.procs swapd).waitState = wtTimer) :
    Roomy (k.wakeupProc swapd) :=
  ((inv.within admits).wakeupProc admits fun sleeps =>
    .inr (member swapd ⟨present, asleep, sleeps⟩)).1

theorem Inv.tryFreePages_roomy (member : ∀ p, k.Dozes p → k.Pushed p event) (w : Work) :
    Roomy (k.tryFreePages w) := by
  unfold tryFreePages
  split
  · exact .disabled
  · rename_i swapd present
    refine .bind ?_ fun _ _ => .ok _
    unfold freePagesMark
    split
    · exact .panic _
    · rename_i other
      change Roomy (if (k.awaitsSwap.procs swapd).waitState = wtTimer then
        k.awaitsSwap.wakeupProc swapd else .ok k.awaitsSwap)
      have same : k.awaitsSwap.procs swapd = k.procs swapd :=
        modify_procs_of_ne k _ markSwap (Ne.symm other)
      have marked : k.awaitsSwap.Within fun p => k.Ready p ∨ k.Pushed p event := by
        refine (inv.within admits).congr rfl rfl fun q otherQ => ?_
        exact congrArg ProcStruct.state (modify_procs_of_ne k _ markSwap otherQ)
      split
      · rename_i asleep
        rw [same] at asleep
        refine (marked.wakeupProc admits fun sleeps => .inr (member swapd ⟨present, asleep, ?_⟩)).1
        exact ⟨sleeps.1, same ▸ sleeps.2⟩
      · exact .ok _

end Steps

theorem doSleep_roomy (k : Kernel) (time : Nat) (caller : Caller) :
    Roomy (k.doSleep time caller) := by
  unfold doSleep
  split
  · exact .ok _
  · refine .bind ?_ fun _ _ => .ok _
    unfold sleepMark addTimer
    simp only
    split
    · exact .panic _
    · split
      · exact .panic _
      · exact .ok _

theorem Inv.syscall_roomy (inv : k.Inv) {call : Syscall} (admits : k.Admits (.syscall call)) :
    Roomy (k.syscall wrap call) := by
  cases call with
  | exit errorCode => exact inv.doExit_roomy admits (fun _ => id) errorCode
  | sleep time => exact doSleep_roomy k time .trap
  | kill pid =>
      refine .bind ?_ fun _ _ => .ok _
      unfold doKill
      split
      · rename_i proc found
        exact (killProc_keeps (inv.within admits) admits
          (fun answers => .inr ⟨found, answers⟩) _).1
      · exact .ok _
  | _ => exact .ok _

theorem Inv.kcall_roomy (inv : k.Inv) {call : KCall} (admits : k.Admits (.kcall call))
    (fn : KThread) : Roomy (k.kcall fn call) := by
  unfold kcall
  split
  · split
    · exact .ok _
    · exact .disabled
  · exact .ok _
  · exact .ok _
  · exact inv.scheduleTo_roomy admits (fun _ => rfl) _
  · split
    · rename_i swapd present
      split
      · rename_i asleep
        exact inv.wakeKswapd_roomy admits (fun _ => id) present asleep
      · exact .ok _
    · exact .disabled
  · exact wakeupQueue_roomy (inv.within admits) admits fun p queued sleeps => .inr ⟨queued, sleeps⟩
  · exact doSleep_roomy k _ _
  · exact .ok _
  · exact .disabled

theorem forkAlloc_roomy (k : Kernel) (kind : ForkKind) (child : ProcPtr) :
    Roomy (k.forkAlloc kind child) := by
  unfold forkAlloc allocProc
  split
  · exact .disabled
  · refine .bind (.ok _) fun m _ => ?_
    simp only
    split
    · exact .panic _
    · split
      · exact .panic _
      · exact .ok _

theorem forkLink_roomy (k : Kernel) (flags : UInt32) (child : ProcPtr) (mm : MmPtr) :
    Roomy (k.forkLink flags child mm) := by
  have scan : ∀ (fuel : Nat) (pids : List Int) (lastPid nextSafe : Int),
      Roomy (pidRepeat fuel pids lastPid nextSafe) := by
    intro fuel pids
    induction fuel with
    | zero => exact fun _ _ => by rintro ⟨⟩
    | succ fuel ih =>
        intro lastPid nextSafe
        unfold pidRepeat
        split
        · exact ih _ _
        · exact .ok _
  refine .bind ?_ fun m _ => .bind (.bind ?_ fun _ _ => .ok _) fun _ _ => .ok _
  · unfold copyMm
    split
    · exact .ok _
    · split
      · exact .ok _
      · split
        · exact .disabled
        · exact .ok _
  · unfold nextPid
    split
    · exact scan _ _ _ _
    · split
      · exact scan _ _ _ _
      · exact .ok _

theorem workDone_roomy (k : Kernel) (address : Nat) (w : Work) : Roomy (k.workDone address w) := by
  cases w with
  | fork flags kind caller => exact .bind (forkAlloc_roomy k kind address) fun _ _ => .ok _
  | forkChild flags child caller =>
      exact .bind (forkLink_roomy k flags child address) fun _ _ => .ok _
  | execLoad caller =>
      refine .bind ?_ fun _ _ => .ok _
      unfold Kernel.execFinish
      split
      · exact .disabled
      · exact .ok _
  | _ => exact .ok _

theorem Inv.workFailed_roomy (inv : k.Inv) {errorCode : Int} (admits : k.Admits (.fail errorCode))
    {w : Work} (source : k.pc = .work w) : Roomy (k.workFailed errorCode w) := by
  unfold workFailed
  split
  · exact .ok _
  · exact .ok _
  · exact .ok _
  · exact .panic _
  · rename_i caller
    exact inv.doExit_roomy admits (fun p answers => ⟨.inr ⟨caller, source⟩, answers⟩) _
  · exact inv.doExit_roomy admits (fun p answers => ⟨.inl source, answers⟩) _
  · exact .ok _

theorem Inv.go_roomy (inv : k.Inv) {address : Nat} (admits : k.Admits (.go address)) :
    Roomy (k.go address) := by
  -- at a place where it calls `schedule` the current process is pushed if it still runs
  have parks : ∀ place, k.pc = place → (k.Contends k.current → k.PushedAt k.current place) →
      ∀ pc, Roomy (k.scheduleTo pc) := by
    rintro _ rfl pushed
    exact inv.scheduleTo_roomy admits pushed
  unfold Kernel.go
  cases place : k.pc with
  | cpuIdle =>
      simp only
      split
      · refine parks .cpuIdle place (fun contends => ?_) _
        obtain ⟨role, plays, of⟩ := inv.own.settled.role
        rw [place] at of
        cases role with
        | idle => exact absurd plays contends.2.2
        | _ => cases of
      · exact .ok _
  | tailResched =>
      simp only
      split
      · rename_i resched
        exact parks .tailResched place (fun _ => ⟨rfl, resched⟩) _
      · exact .ok _
  | freeMark w => exact parks (.freeMark w) place (fun contends => ⟨rfl, contends.2.1⟩) _
  | waitMark pid caller =>
      exact parks (.waitMark pid caller) place (fun contends => ⟨rfl, contends.2.1⟩) _
  | sleepMark caller => exact parks (.sleepMark caller) place (fun contends => ⟨rfl, contends.2.1⟩) _
  | exitSched =>
      refine parks .exitSched place (fun contends => ?_) _
      have fits := inv.own.settled.fits
      rw [place] at fits
      have zombie : (k.procs k.current).state = .zombie := fits.1
      rw [contends.2.1] at zombie
      cases zombie
  | forkWake child caller =>
      refine .bind ?_ fun _ _ => .ok _
      refine ((inv.within admits).wakeupProc admits fun _ => .inr ?_).1
      change k.PushedAt child k.pc
      rw [place]
      rfl
  | exit =>
      refine .bind (inv.exitProc_roomy place admits (fun _ => .inl) fun p answers => .inr ?_)
        fun _ _ => .ok _
      change k.PushedAt p k.pc
      rw [place]
      exact answers
  | wait pid caller =>
      change Roomy (k.waitRepeat pid caller)
      unfold waitRepeat
      split
      · refine .bind ?_ fun _ _ => ?_
        · unfold Kernel.reap
          split
          · exact .panic _
          · exact .ok _
        · cases caller <;> exact .ok _
      · exact .ok _
      · exact .ok _
  | initKswapd =>
      change Roomy k.setKswapd
      unfold Kernel.setKswapd
      simp only
      split
      · exact .panic _
      · exact .ok _
  | work w => exact workDone_roomy k address w
  | freeSched w =>
      refine .bind ?_ fun _ _ => .ok _
      unfold freePagesPost
      split
      · exact .panic _
      · exact .ok _
  | forkret fn => cases fn <;> exact .ok _
  | dead => exact .panic _
  | user => exact .disabled
  | thread fn => exact .disabled
  | _ => exact .ok _

/-- A step with room for what it pushes does not push on a full heap. -/
theorem Inv.step_roomy (inv : k.Inv) (clocked : k.Clocked) (admits : k.Admits event) :
    Roomy (k.step wrap event) := by
  cases event with
  | tick => exact inv.tick_roomy clocked admits
  | syscall call =>
      simp only [Kernel.step]
      split
      · exact inv.syscall_roomy admits
      · exact .disabled
  | pgfault =>
      simp only [Kernel.step]
      split
      · exact .ok _
      · exact .disabled
  | fault =>
      simp only [Kernel.step]
      split
      · exact inv.doExit_roomy admits (fun _ => id) _
      · exact .disabled
  | kcall call =>
      simp only [Kernel.step]
      split
      · exact inv.kcall_roomy admits _
      · exact .disabled
  | noPage =>
      simp only [Kernel.step]
      split
      · exact inv.tryFreePages_roomy admits (fun _ => id) _
      · exact .disabled
  | lockBusy =>
      simp only [Kernel.step]
      split
      · split
        · exact inv.scheduleTo_roomy admits (fun _ => rfl) _
        · exact .disabled
      · exact .disabled
  | fail errorCode =>
      simp only [Kernel.step]
      split
      · rename_i w source
        exact inv.workFailed_roomy admits source
      · exact .disabled
  | go address => exact inv.go_roomy admits

theorem Inv.pushed_known (inv : k.Inv) (pushed : k.Pushed p event) : k.Known p := by
  have table := inv.others.table
  have group : k.GroupAnswers p → k.Known p := fun answers =>
    threadRing_known table inv.others.current (List.mem_of_mem_tail answers.1)
  have swapd : k.Dozes p → k.Known p := fun dozes => .inl (inv.others.swapd p dozes.1)
  cases event with
  | tick =>
      apply inv.others.timed
      rw [Timed, ← countTick_procs]
      exact expired_subset _ (List.mem_filter.mp pushed).1
  | syscall call =>
      cases call with
      | exit errorCode => exact group pushed
      | kill pid => exact .inl (table.numbered.findProc_eq_some_iff.mp pushed.1).1
      | _ => cases pushed
  | fault => exact group pushed
  | fail errorCode => exact group pushed.2
  | kcall call =>
      cases call with
      | schedule =>
          cases pushed
          exact inv.others.current
      | wakeKswapd => exact swapd pushed
      | wakeupAll => exact inv.others.queued p pushed.1
      | _ => cases pushed
  | noPage => exact swapd pushed
  | lockBusy =>
      cases pushed
      exact inv.others.current
  | go address =>
      have own := inv.own
      change k.PushedAt p k.pc at pushed
      cases place : k.pc with
      | tailResched =>
          rw [place] at pushed
          exact pushed.1 ▸ inv.others.current
      | freeMark w =>
          rw [place] at pushed
          exact pushed.1 ▸ inv.others.current
      | waitMark pid caller =>
          rw [place] at pushed
          exact pushed.1 ▸ inv.others.current
      | sleepMark caller =>
          rw [place] at pushed
          exact pushed.1 ▸ inv.others.current
      | forkWake child caller =>
          rw [place] at pushed own
          cases pushed
          exact .inl (own.linked p caller rfl).2.1
      | exit =>
          rw [place] at pushed
          obtain ⟨_, ⟨parent, parentEq, inRing⟩ | ⟨rfl, _⟩⟩ := pushed
          · have listed : k.current ∈ k.procList := by
              apply inv.listed
              rw [place]
              rintro (init | user) <;> contradiction
            obtain ⟨q, same, known, _⟩ := table.parent k.current listed
            cases parentEq.symm.trans same
            exact threadRing_known table known inRing
          · unfold heir
            rcases nextThread_spec table.groups.disjoint k.current with ⟨alone, _⟩ | ⟨other, inRing⟩
            · rw [if_pos alone]
              exact .inl table.init
            · rw [if_neg other]
              exact threadRing_known table inv.others.current inRing
      | _ =>
          rw [place] at pushed
          cases pushed
  | pgfault => cases pushed

/-- With fewer processes than places every step has room. -/
theorem Inv.admits (inv : k.Inv) (few : k.procList.length < maxHeapSize) (event : Event) :
    k.Admits event := by
  intro l nodup all
  have subset : l ⊆ k.idleproc :: k.procList := by
    intro p mem
    have known : k.Known p := by
      rcases all p mem with ready | pushed
      · by_contra unknown
        have uninit := inv.others.stray p ready.1.1 unknown
        rw [ready.1.2.1] at uninit
        cases uninit
      · exact inv.pushed_known pushed
    rcases known with listed | idle
    · exact List.mem_cons_of_mem _ listed
    · exact idle ▸ List.mem_cons_self
  exact ((nodup.subperm subset).length_le).trans few

/-- In a run that never has as many processes as the heap has places, the idle process apart,
every step has room. -/
theorem run_admits {memory : ProcPtr → ProcStruct} {events : List Event}
    (few : Run.Along (step wrap) (fun k _ => k.procList.length < maxHeapSize) (boot memory)
      events) :
    Run.Along (step wrap) Admits (boot memory) events := by
  refine (Run.along_congr (fun k event next => Reachable.step) ?_ ⟨memory, [], rfl⟩ few).mp
    (Run.along_of_forall (fun _ _ _ => trivial) _)
  exact fun k event reachable given => iff_of_true trivial (reachable.inv.admits given event)

/-- In a run whose steps have room for what they push, no push finds the heap full, and the
heap never outgrows its array. -/
theorem heap_capacity (memory : ProcPtr → ProcStruct) (events : List Event)
    (along : Run.Along (step wrap) Admits (boot memory) events) :
    Run.exec (step wrap) (boot memory) events ≠ .error (.spin .heapPush) ∧
      ∀ k, Run.exec (step wrap) (boot memory) events = .ok k →
        k.heap.entry.length ≤ maxHeapSize := by
  constructor
  · refine @Run.exec_ne_error_along _ _ _ _ (Reachable wrap) _ _ ?_ ?_ _ _ ⟨memory, [], rfl⟩ along
    · exact fun k event next reachable _ stepped => reachable.step stepped
    · exact fun k event reachable admits => reachable.inv.step_roomy reachable.clocked admits
  · exact fun k run => Reachable.clocked ⟨memory, events, run⟩ |>.fits

/-- The first user process has two children; it sleeps, and a timer interrupt wakes it while the
first child runs. -/
def sleeperWakes : List Event :=
  firstUser ++ forked .fork 4 ++ forked .fork 5 ++ [.syscall (.sleep 1), .go 0, .go 0, .tick]

theorem heap_capacity_wakes :
    (∃ k, Run.exec (step wrapInt32) (boot fun _ => blank) sleeperWakes = .ok k ∧
      k.current = 4 ∧ k.heap.entry.map HeapEntry.proc = [3, 5]) ∧
    Run.exec (step wrapInt32) (boot fun _ => blank) sleeperWakes ≠ .error (.spin .heapPush) ∧
      ∀ k, Run.exec (step wrapInt32) (boot fun _ => blank) sleeperWakes = .ok k →
        k.heap.entry.length ≤ maxHeapSize := by
  have few : Run.Along (step wrapInt32) (fun k _ => k.procList.length < maxHeapSize)
      (boot fun _ => blank) sleeperWakes := by
    decide +kernel
  refine ⟨Run.exec_of_decide _ (by decide +kernel), ?_⟩
  exact heap_capacity (fun _ => blank) sleeperWakes (run_admits few)

end Kernel

end EdfKernel
