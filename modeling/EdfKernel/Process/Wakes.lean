import EdfKernel.Process.Reachable

/-!
# What a step does to the queue and to other processes

Apart from timer interrupts and switches a step only wakes processes, and between
two wakeups it leaves the heap and the timers alone.  The flags, the exit code and
the place of a process change with a kill, with an exit and with its own steps.
-/

namespace EdfKernel

open Library

/-- What a kill, an exit or a step of its own changes in a process. -/
def ProcStruct.fate (s : ProcStruct) : UInt32 × Int × Pc :=
  (s.flags, s.exitCode, s.kstack.pc)

namespace Kernel

variable {wrap : Int → Int} {k k' m : Kernel} {event : Event} {p q : ProcPtr} {pc : Pc}
  {victims others : ProcPtr → Prop}

/-- A write that leaves the queue and the timers alone, and the fates of all but the
victims. -/
structure Writes (victims : ProcPtr → Prop) (k k' : Kernel) : Prop where
  heap : k'.heap = k.heap
  timerList : k'.timerList = k.timerList
  current : k'.current = k.current
  fate : ∀ q, ¬victims q → (k'.procs q).fate = (k.procs q).fate

/-- `k'` comes from `k` by writes and by waking processes. -/
inductive Wakes (victims : ProcPtr → Prop) (k : Kernel) : Kernel → Prop
  | refl : Wakes victims k k
  | wake {m k' : Kernel} {p : ProcPtr} (before : Wakes victims k m)
      (woken : m.wakeupProc p = .ok k') : Wakes victims k k'
  | write {m k' : Kernel} (before : Wakes victims k m) (writes : m.Writes victims k') :
      Wakes victims k k'

namespace Writes

theorem of_unlinked (same : k'.unlinked = k.unlinked) : k.Writes victims k' where
  heap := (congrArg Kernel.heap same :)
  timerList := (congrArg Kernel.timerList same :)
  current := (congrArg Kernel.current same :)
  fate q _ := (congrArg (fun m => (m.procs q).fate) same :)

theorem mono (writes : k.Writes victims k') (more : ∀ q, victims q → others q) :
    k.Writes others k' where
  heap := writes.heap
  timerList := writes.timerList
  current := writes.current
  fate q notOther := writes.fate q fun victim => notOther (more q victim)

theorem modify (k : Kernel) (p : ProcPtr) (change : ProcStruct → ProcStruct)
    (victim : victims p) : k.Writes victims (k.modify p change) where
  heap := rfl
  timerList := rfl
  current := rfl
  fate q notVictim := by
    rw [modify_procs_of_ne]
    rintro rfl
    exact notVictim victim

theorem modify_of_fate (k : Kernel) (p : ProcPtr) {change : ProcStruct → ProcStruct}
    (same : (change (k.procs p)).fate = (k.procs p).fate) :
    k.Writes victims (k.modify p change) where
  heap := rfl
  timerList := rfl
  current := rfl
  fate q _ := k.modify_field p change ProcStruct.fate same q

end Writes

namespace Wakes

theorem trans (first : k.Wakes victims m) (second : m.Wakes victims k') : k.Wakes victims k' := by
  induction second with
  | refl => exact first
  | wake _ woken ih => exact ih.wake woken
  | write _ writes ih => exact ih.write writes

theorem of_writes (writes : k.Writes victims k') : k.Wakes victims k' :=
  .write .refl writes

theorem of_wakeupProc (woken : k.wakeupProc p = .ok k') : k.Wakes victims k' :=
  .wake .refl woken

theorem mono (wakes : k.Wakes victims k') (more : ∀ q, victims q → others q) :
    k.Wakes others k' := by
  induction wakes with
  | refl => exact .refl
  | wake _ woken ih => exact ih.wake woken
  | write _ writes ih => exact ih.write (writes.mono more)

/-- Waking keeps the heap ordered. -/
theorem ordered (wakes : k.Wakes victims k') (ordered : k.heap.Ordered) : k'.heap.Ordered := by
  induction wakes with
  | refl => exact ordered
  | wake _ woken ih => exact wakeupProc_ordered ih woken
  | write _ writes ih => exact writes.heap ▸ ih

theorem timerList (wakes : k.Wakes victims k') : k'.timerList = k.timerList := by
  induction wakes with
  | refl => rfl
  | wake _ woken ih =>
      exact (congrArg Kernel.timerList (wakeupProc_unwoken woken) :).trans ih
  | write _ writes ih => exact writes.timerList.trans ih

theorem current (wakes : k.Wakes victims k') : k'.current = k.current := by
  induction wakes with
  | refl => rfl
  | wake _ woken ih =>
      exact (congrArg Kernel.current (wakeupProc_unwoken woken) :).trans ih
  | write _ writes ih => exact writes.current.trans ih

theorem fate (wakes : k.Wakes victims k') (notVictim : ¬victims q) :
    (k'.procs q).fate = (k.procs q).fate := by
  induction wakes with
  | refl => rfl
  | wake _ woken ih =>
      exact (congrArg (fun m => (m.procs q).fate) (wakeupProc_unwoken woken) :).trans ih
  | write _ writes ih => exact (writes.fate q notVictim).trans ih

end Wakes

/-! ## Kills -/

theorem flag_writes (k : Kernel) (p : ProcPtr) (errorCode : Int) :
    k.Writes (· = p) (k.flag p errorCode) :=
  .modify k p _ rfl

/-- A kill leaves the fate of a process that has been killed before. -/
theorem killProc_wakes {errorCode ret : Int} (killed : k.killProc p errorCode = .ok (ret, k')) :
    k.Wakes (fun q => q = p ∧ ¬k.Exiting q) k' := by
  unfold killProc at killed
  split at killed
  · rename_i notExiting
    have victim : ∀ q, q = p → q = p ∧ ¬k.Exiting q := by
      rintro q rfl
      exact ⟨rfl, not_not.mpr notExiting⟩
    have flagged := Wakes.of_writes ((k.flag_writes p errorCode).mono victim)
    obtain ⟨m, woken, result⟩ := bind_eq_ok_iff.mp killed
    cases result
    change (if ((k.flag p errorCode).procs p).waitState &&& wtInterrupted ≠ 0 then
      (k.flag p errorCode).wakeupProc p else .ok (k.flag p errorCode)) = .ok k' at woken
    split at woken
    · exact flagged.wake woken
    · cases woken
      exact flagged
  · cases killed
    exact .refl

theorem killAll_wakes {errorCode : Int} {l : List ProcPtr}
    (killed : killAll errorCode l k = .ok k') :
    k.Wakes (fun q => q ∈ l ∧ ¬k.Exiting q) k' := by
  induction l generalizing k with
  | nil =>
      cases killed
      exact .refl
  | cons p rest ih =>
      obtain ⟨⟨ret, m⟩, first, after⟩ := bind_eq_ok_iff.mp killed
      have exiting := killProc_exiting first
      refine ((killProc_wakes first).mono ?_).trans ((ih after).mono ?_)
      · rintro q ⟨rfl, alive⟩
        exact ⟨List.mem_cons_self, alive⟩
      · rintro q ⟨mem, alive⟩
        exact ⟨List.mem_cons_of_mem _ mem, fun old => alive ((exiting q).mpr (.inr old))⟩

/-! ## The exit of a process -/

theorem wakeWaiting_wakes {l : List ProcPtr} (woken : wakeWaiting l k = .ok k') :
    k.Wakes victims k' := by
  induction l generalizing k with
  | nil =>
      cases woken
      exact .refl
  | cons p rest ih =>
      obtain ⟨m, first, after⟩ := bind_eq_ok_iff.mp woken
      split at first
      · exact (Wakes.of_wakeupProc first).trans (ih after)
      · cases first
        exact ih after

theorem adoptLinks_writes (k : Kernel) (p parent child : ProcPtr) :
    k.Writes victims (k.adoptLinks p parent child) :=
  .of_unlinked (k.adoptLinks_unlinked p parent child)

theorem adoptChildren_wakes {fuel : Nat} {parent : ProcPtr}
    (adopted : adoptChildren fuel k p parent = .ok k') : k.Wakes victims k' := by
  induction fuel generalizing k with
  | zero =>
      unfold adoptChildren at adopted
      split at adopted
      · cases adopted
        exact .refl
      · contradiction
  | succ fuel ih =>
      unfold adoptChildren at adopted
      split at adopted
      · cases adopted
        exact .refl
      · rename_i child _
        obtain ⟨m, round, after⟩ := bind_eq_ok_iff.mp adopted
        have links : k.Wakes victims (k.adoptLinks p parent child) :=
          .of_writes (k.adoptLinks_writes p parent child)
        simp only [adoptFirst] at round
        split at round
        · exact (links.wake round).trans (ih after)
        · cases round
          exact links.trans (ih after)

theorem exitProc_wakes (exited : k.exitProc = .ok k') : k.Wakes victims k' := by
  obtain ⟨_, _, m, woken, adopted⟩ := exitProc_eq_ok exited
  have dropped : k.Wakes victims (k.dropMm k.current) :=
    .of_writes (.of_unlinked (k.dropMm_unlinked k.current))
  have ended : k.Wakes victims k.ended :=
    dropped.write (.modify_of_fate _ _ rfl)
  have waited : k.Wakes victims m := by
    unfold exitWake at woken
    split at woken
    · exact ended.trans (wakeWaiting_wakes woken)
    · cases woken
      exact ended
  have left : m.Writes victims (m.deThread m.current) := ⟨rfl, rfl, rfl, fun _ _ => rfl⟩
  exact (waited.write left).trans (adoptChildren_wakes adopted)

/-! ## kswapd_wakeup_all -/

theorem tell_writes (k : Kernel) (p : ProcPtr) (rest : List ProcPtr) :
    k.Writes victims (k.tell p rest) where
  heap := rfl
  timerList := rfl
  current := rfl
  fate q _ := modify_field { k with kswapdDone := rest } p _ ProcStruct.fate rfl q

theorem wakeupQueue_wakes {fuel : Nat} (woken : wakeupQueue fuel k = .ok k') :
    k.Wakes victims k' := by
  induction fuel generalizing k with
  | zero =>
      cases woken
      exact .refl
  | succ fuel ih =>
      unfold wakeupQueue at woken
      split at woken
      · cases woken
        exact .refl
      · rename_i p rest _
        obtain ⟨m, first, after⟩ := bind_eq_ok_iff.mp woken
        exact ((Wakes.of_writes (k.tell_writes p rest)).wake first).trans (ih after)

/-! ## Steps -/

/-- The step kills the process. -/
def Killed (k : Kernel) (event : Event) (q : ProcPtr) : Prop :=
  ¬k.Exiting q ∧ ((∃ pid, event = .syscall (.kill pid) ∧ k.findProc pid = some q) ∨
    (event.Exits ∧ q ∈ (k.threadRing k.current).tail))

/-- The processes whose fate a step may change. -/
def Victim (k : Kernel) (event : Event) (q : ProcPtr) : Prop :=
  q = k.current ∨ ¬k.Known q ∨ k.Killed event q

/-- What a step does to the queue, the timers and the fates of the processes. -/
inductive Turns (wrap : Int → Int) (k : Kernel) (event : Event) (k' : Kernel) : Prop
  | tick (m : Kernel) (called : event = .tick)
      (start : m = k ∨ (k.pc = .user ∧ m = k.goto .tail)) (ticked : m.runTimerList wrap = .ok k')
  | schedule (pc : Pc) (parks : k.pc.Parks pc) (scheduled : k.scheduleTo pc = .ok k')
  | wakes (timers : List Timer)
      (list : timers = k.timerList ∨
        (∃ time, time ≠ 0 ∧ timers = insertTimer ⟨time, k.current⟩ k.timerList) ∨
        timers = removeTimer k.current k.timerList)
      (wakes : (k.setTimers timers).Wakes (k.Victim event) k')

theorem Turns.of_wakes (wakes : k.Wakes (k.Victim event) k') : k.Turns wrap event k' :=
  .wakes k.timerList (.inl rfl) wakes

theorem MovedTo.writes (moved : m.MovedTo pc k') (current : victims m.current) :
    m.Writes victims k' := by
  obtain ⟨ret, exitCode, needResched, _, rfl⟩ := moved
  exact .modify m m.current _ current

/-- A step that wakes processes and then moves the current one. -/
theorem Turns.of_moved (wakes : k.Wakes (k.Victim event) m) (moved : m.MovedTo pc k') :
    k.Turns wrap event k' := by
  apply Turns.of_wakes
  refine wakes.write (moved.writes ?_)
  rw [wakes.current]
  exact .inl rfl

theorem withChild_writes (k : Kernel) (kind : ForkKind) {child : ProcPtr} (timeSlice rest : Int)
    (unknown : ¬k.Known child) :
    k.Writes (k.Victim event) (k.withChild kind child timeSlice rest) where
  heap := rfl
  timerList := rfl
  current := rfl
  fate q notVictim := by
    have notChild : q ≠ child := by
      rintro rfl
      exact notVictim (.inr (.inl unknown))
    have same := k.withChild_procs_unlinked kind child timeSlice rest notChild
    exact (congrArg ProcStruct.fate same :)

theorem reap_writes {zombie : ProcPtr} (reaped : k.reap zombie = .ok k') :
    k.Writes victims k' := by
  unfold reap at reaped
  split at reaped
  · contradiction
  · cases reaped
    have links : ((k.unhashProc zombie).removeLinks zombie).unlinked = k.unlinked :=
      removeLinks_unlinked _ _
    exact ⟨(congrArg Kernel.heap links :), (congrArg Kernel.timerList links :),
      (congrArg Kernel.current links :), fun q _ => (congrArg (fun m => (m.procs q).fate) links :)⟩

/-- What a step does to the queue, the timers and the fates of the processes. -/
theorem Transition.turns (inv : k.Inv) (transition : Transition wrap k event k') :
    k.Turns wrap event k' := by
  have own : k.Victim event k.current := .inl rfl
  cases transition with
  | skip same => exact .of_wakes (same ▸ .refl)
  | move pc moves moved => exact .of_moved .refl moved
  | tickUser called user ticked => exact .tick _ called (.inr ⟨user, rfl⟩) ticked
  | tick called kernel ticked => exact .tick _ called (.inl rfl) ticked
  | schedule pc parks scheduled => exact .schedule pc parks scheduled
  | doExit errorCode m called source killed moved =>
      refine .of_moved ((killAll_wakes killed).mono ?_) moved
      exact fun q victim => .inr (.inr ⟨victim.2, .inr ⟨called, victim.1⟩⟩)
  | kill pid ret m called user killed moved =>
      refine .of_moved ?_ moved
      unfold doKill at killed
      split at killed
      · rename_i p found
        refine (killProc_wakes killed).mono ?_
        rintro q ⟨rfl, alive⟩
        exact .inr (.inr ⟨alive, .inl ⟨pid, called, found⟩⟩)
      · cases killed
        exact .refl
  | sleep time caller m source marked moved =>
      obtain ⟨positive, _, rfl⟩ := sleepMark_eq_ok marked
      refine .wakes _ (.inr (.inl ⟨time, positive, rfl⟩)) ?_
      have marks : (k.setTimers (insertTimer ⟨time, k.current⟩ k.timerList)).Writes
          (k.Victim event) (k.marked markTimer (insertTimer ⟨time, k.current⟩ k.timerList)
            k.kswapdDone) := .modify _ k.current _ own
      exact (Wakes.of_writes marks).write (moved.writes own)
  | wakeKswapd swapd source present asleep woken => exact .of_wakes (.of_wakeupProc woken)
  | wakeupAll source woken => exact .of_wakes (wakeupQueue_wakes woken)
  | freePages w swapd m source present marked moved =>
      refine .of_moved ?_ moved
      have marks : k.Wakes (k.Victim event) k.awaitsSwap := by
        refine .of_writes ⟨rfl, rfl, rfl, ?_⟩
        exact fun q notVictim =>
          (Writes.modify { k with kswapdDone := k.kswapdDone ++ [k.current] } k.current
            markSwap own).fate q notVictim
      obtain ⟨_, rfl | ⟨_, woken⟩⟩ := freePagesMark_eq_ok marked
      · exact marks
      · exact marks.wake woken
  | setKswapd source created moved =>
      have stored : k.Wakes (k.Victim event)
          { k with kswapd := k.findProc (k.procs k.current).kstack.ret } :=
        .of_writes ⟨rfl, rfl, rfl, fun _ _ => rfl⟩
      exact .of_moved stored moved
  | forkAlloc flags kind caller child m source forked moved =>
      obtain ⟨free, _, _, timeSlice, rest, rfl⟩ := forkAlloc_eq_ok inv.others.allocated forked
      have unknown : ¬k.Known child := by
        intro known
        rw [inv.others.table.allocated child known] at free
        contradiction
      exact .of_moved (.of_writes (k.withChild_writes kind timeSlice rest unknown)) moved
  | forkFree flags child caller source moved =>
      have freed : k.Wakes (k.Victim event) (k.freeProc child) :=
        .of_writes ⟨rfl, rfl, rfl, fun _ _ => rfl⟩
      exact .of_moved freed moved
  | forkLink flags child caller mm m called source linked moved =>
      exact .of_moved (.of_writes (.of_unlinked (forkLink_unlinked linked))) moved
  | forkWake child caller m source woken moved =>
      have wakes : k.Wakes (k.Victim event) m := .of_wakeupProc woken
      subst moved
      refine .of_wakes (wakes.write (.modify m m.current _ ?_))
      rw [wakes.current]
      exact own
  | execDrop caller source moved =>
      exact .of_moved (.of_writes (.of_unlinked (k.dropMm_unlinked k.current))) moved
  | execFinish caller mm m source loaded moved =>
      obtain ⟨_, rfl⟩ := execFinish_eq_ok loaded
      have space : k.Wakes (k.Victim event) ((k.withMm k.current mm).deThread k.current) :=
        .of_writes ⟨rfl, rfl, rfl, fun q notVictim =>
          (Writes.modify k k.current (fun s => { s with mm := some mm }) own).fate q notVictim⟩
      exact .of_moved (space.write (.modify _ k.current execDeadline own)) moved
  | reap pid caller zombie m pc source found reaped target moved =>
      exact .of_moved (.of_writes (reap_writes reaped)) moved
  | waitSleep pid caller source found moved =>
      exact .of_moved (.of_writes (.modify k k.current _ own)) moved
  | waitMark pid caller source moved =>
      exact .of_moved (.of_writes (.modify k k.current _ own)) moved
  | delTimer caller source moved =>
      refine .wakes _ (.inr (.inr rfl)) (.of_writes ?_)
      exact moved.writes own
  | exit m source exited moved => exact .of_moved (exitProc_wakes exited) moved

end Kernel

end EdfKernel
