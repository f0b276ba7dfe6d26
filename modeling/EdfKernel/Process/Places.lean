import EdfKernel.Process.Transition
import EdfKernel.Process.Wakeups

/-!
# Places in the kernel

What the place where a process continues says about the process: whether it may
be asleep, which thread of control it belongs to, what it has in hand, and which
child it waits for.
-/

namespace EdfKernel

open Library

/-! ## Sleep -/

/-- What a place says about the sleep of a process. -/
inductive Place
  | awake
  | starting
  | marking
  | child
  | timer
  | swap
  | ended
  deriving DecidableEq, Repr

def Pc.place : Pc → Place
  | .forkret _ => .starting
  | .waitState .. => .marking
  | .waitMark .. => .child
  | .waitSched .. => .child
  | .sleepMark _ => .timer
  | .sleepSched _ => .timer
  | .freeMark _ => .swap
  | .freeSched _ => .swap
  | .exitSched => .ended
  | .dead => .ended
  | _ => .awake

/-- The places of a process that has the processor and need not be runnable. -/
def Pc.marks : Pc → Bool
  | .waitState .. => true
  | .waitMark .. => true
  | .sleepMark _ => true
  | .freeMark _ => true
  | .exitSched => true
  | _ => false

/-- The places of a process that does not have the processor. -/
def Pc.parked : Pc → Bool
  | .idleSched => true
  | .threadSched _ => true
  | .forkret _ => true
  | .tailSched => true
  | .lockSched _ => true
  | .freeSched _ => true
  | .waitSched .. => true
  | .sleepSched _ => true
  | .dead => true
  | _ => false

/-- The state and the wait state of a process agree with its place, its timer and
its record on `kswapd_done`. -/
def Place.Fits (s : ProcStruct) (timed queued : Prop) : Place → Prop
  | .awake => s.state = .runnable ∧ s.waitState = 0 ∧ ¬timed ∧ ¬queued
  | .starting =>
      (s.state = .uninit ∨ s.state = .runnable) ∧ s.waitState = 0 ∧ ¬timed ∧ ¬queued
  | .marking => s.state = .sleeping ∧ s.waitState = 0 ∧ ¬timed ∧ ¬queued
  | .child =>
      ((s.state = .sleeping ∧ s.waitState = wtChild) ∨ (s.state = .runnable ∧ s.waitState = 0)) ∧
        ¬timed ∧ ¬queued
  | .timer =>
      ((s.state = .sleeping ∧ s.waitState = wtTimer ∧ timed) ∨
        (s.state = .runnable ∧ s.waitState = 0)) ∧ ¬queued
  | .swap =>
      ((s.state = .sleeping ∧ s.waitState = wtKswapd ∧ queued ∧
          s.kstack.wakeupFlags = wtInterrupted) ∨
        (s.state = .runnable ∧ s.waitState = 0 ∧ ¬queued ∧ s.kstack.wakeupFlags = wtKswapd)) ∧
        ¬timed
  | .ended => s.state = .zombie ∧ s.waitState = 0 ∧ ¬timed ∧ ¬queued

namespace Place.Fits

variable {place : Place} {s s' : ProcStruct} {timed queued timed' queued' : Prop}

theorem waiting_iff (fits : place.Fits s timed queued) (notMarking : place ≠ .marking) :
    s.waitState ≠ 0 ↔ s.state = .sleeping := by
  have child : wtChild ≠ 0 := by decide
  have timer : wtTimer ≠ 0 := by decide
  have swap : wtKswapd ≠ 0 := by decide
  cases place <;> simp only [Fits] at fits <;> grind

/-- What a process that goes on looks like. -/
theorem of_runnable (fits : place.Fits s timed queued) (runnable : s.state = .runnable) :
    s.waitState = 0 ∧ (place ≠ .timer → ¬timed) ∧ ¬queued := by
  cases place <;> simp only [Fits] at fits <;> grind

theorem asleep (fits : place.Fits s timed queued) (waiting : s.waitState ≠ 0) :
    s.state = .sleeping := by
  cases place <;> simp only [Fits] at fits <;> grind

/-- Only the state, the wait state and the wakeup flags matter. -/
theorem congr (fits : place.Fits s timed queued) (state : s'.state = s.state)
    (wait : s'.waitState = s.waitState) (flags : s'.kstack.wakeupFlags = s.kstack.wakeupFlags)
    (timedIff : timed' ↔ timed) (queuedIff : queued' ↔ queued) :
    place.Fits s' timed' queued' := by
  cases place <;> simp only [Fits] at fits ⊢ <;> rw [state, wait] <;> grind

/-- A process that is woken where it may be woken fits its place. -/
theorem wake (fits : place.Fits s timed queued) (asleep : s.state = .sleeping)
    (interruptible : s.waitState &&& wtInterrupted ≠ 0) (state : s'.state = .runnable)
    (wait : s'.waitState = 0) (timedIf : timed' → timed) (queuedIff : queued' ↔ queued) :
    place.Fits s' timed' queued' := by
  have swap : wtKswapd &&& wtInterrupted = 0 := by decide
  have none : (0 : UInt32) &&& wtInterrupted = 0 := by decide
  cases place <;> simp only [Fits] at fits ⊢ <;> grind

/-- A process whose sleep may have been ended where it may be ended. -/
theorem stir (fits : place.Fits s timed queued)
    (state : (s'.state = s.state ∧ s'.waitState = s.waitState) ∨
      (s.state = .sleeping ∧ s.waitState &&& wtInterrupted ≠ 0 ∧ s'.state = .runnable ∧
        s'.waitState = 0))
    (flags : s'.kstack.wakeupFlags = s.kstack.wakeupFlags) (timedIf : timed' → timed)
    (expired : timed → timed' ∨ s'.state = .runnable) (queuedIff : queued' ↔ queued) :
    place.Fits s' timed' queued' := by
  rcases state with ⟨same, wait⟩ | ⟨asleep, interruptible, awake, wait⟩
  · have timedIff : s'.state ≠ .runnable → (timed' ↔ timed) := by
      intro asleep
      exact ⟨timedIf, fun old => (expired old).resolve_right asleep⟩
    cases place <;> simp only [Fits] at fits ⊢ <;> rw [same, wait] <;> grind
  · exact fits.wake asleep interruptible awake wait timedIf queuedIff

end Place.Fits

/-! ## Threads of control -/

/-- The threads of control of the kernel. -/
inductive Role
  | idle
  | init
  | kswapd
  | user
  deriving DecidableEq, Repr

def KThread.role : KThread → Role
  | .initMain => .init
  | .kswapdMain => .kswapd
  | .userMain => .user

def Caller.role : Caller → Role
  | .trap => .user
  | .kernelExecve => .user
  | .initKswapd => .init
  | .thread fn => fn.role

/-- The kernel functions a thread of control executes. -/
def Work.Of (role : Role) : Work → Prop
  | .fork flags kind caller =>
      caller.role = role ∧ (role = .init → flags = cloneVm) ∧
        (caller = .initKswapd → kind = .kernel .kswapdMain) ∧
        ∀ fn, kind = .kernel fn → fn.role = .kswapd ∨ fn.role = .user
  | .forkChild flags _ caller => caller.role = role ∧ (role = .init → flags = cloneVm)
  | .execName caller => caller.role = role ∧ role = .user
  | .execLoad caller => caller.role = role ∧ role = .user
  | .pgfault => role = .user
  | .memory => role = .user

/-- The places of a thread of control. -/
def Pc.Of (role : Role) : Pc → Prop
  | .user => role = .user
  | .cpuIdle => role = .idle
  | .idleSched => role = .idle
  | .thread fn => fn.role = role
  | .threadSched fn => fn.role = role
  | .initKswapd => role = .init
  | .forkret none => role = .user
  | .forkret (some fn) => fn.role = role
  | .tail => role = .user
  | .tailResched => role = .user
  | .tailSched => role = .user
  | .work w => w.Of role
  | .lockSched w => w.Of role
  | .freeMark w => w.Of role
  | .freeSched w => w.Of role
  | .forkWake _ caller => caller.role = role
  | .wait _ caller => caller.role = role ∧ role ≠ .kswapd
  | .waitState _ caller => caller.role = role ∧ role ≠ .kswapd
  | .waitMark _ caller => caller.role = role ∧ role ≠ .kswapd
  | .waitSched _ caller => caller.role = role ∧ role ≠ .kswapd
  | .sleepMark caller => caller.role = role
  | .sleepSched caller => caller.role = role
  | .exit => role = .init ∨ role = .user
  | .exitSched => role = .user
  | .dead => role = .user

theorem KThread.role_ne_idle (fn : KThread) : fn.role ≠ .idle := by
  cases fn <;> decide

theorem Caller.role_ne_idle (caller : Caller) : caller.role ≠ .idle := by
  cases caller with
  | thread fn => exact fn.role_ne_idle
  | _ => decide

/-- A kernel function returns to the thread of control it was called in. -/
theorem Caller.pc_of (caller : Caller) : caller.pc.Of caller.role := by
  cases caller <;> rfl

theorem Work.not_of_idle (w : Work) : ¬w.Of .idle := by
  intro of
  cases w with
  | fork flags kind caller => exact caller.role_ne_idle of.1
  | forkChild flags child caller => exact caller.role_ne_idle of.1
  | execName caller => exact caller.role_ne_idle of.1
  | execLoad caller => exact caller.role_ne_idle of.1
  | pgfault => cases of
  | memory => cases of

/-- The idle process never sleeps. -/
theorem Pc.place_of_idle {pc : Pc} (of : pc.Of .idle) : pc.place = .awake := by
  cases pc with
  | forkret fn =>
      cases fn with
      | none => cases of
      | some fn => exact absurd of fn.role_ne_idle
  | waitState pid caller => exact absurd of.1 caller.role_ne_idle
  | waitMark pid caller => exact absurd of.1 caller.role_ne_idle
  | waitSched pid caller => exact absurd of.1 caller.role_ne_idle
  | sleepMark caller => exact absurd of caller.role_ne_idle
  | sleepSched caller => exact absurd of caller.role_ne_idle
  | freeMark w => exact absurd of w.not_of_idle
  | freeSched w => exact absurd of w.not_of_idle
  | exitSched => cases of
  | dead => cases of
  | _ => rfl

/-- The swap daemon does not exit. -/
theorem Pc.place_of_kswapd {pc : Pc} (of : pc.Of .kswapd) : pc.place ≠ .ended := by
  cases pc with
  | exitSched => cases of
  | dead => cases of
  | _ => nofun

/-! ## What a process has in hand -/

/-- What a process has in hand at a place: a child it has not linked yet, a linked
one it has not woken, or an address space it has given up. -/
inductive Task
  | none
  | making (child : ProcPtr) (caller : Caller)
  | linked (child : ProcPtr) (caller : Caller)
  | loading
  deriving DecidableEq, Repr

def Work.task : Work → Task
  | .forkChild _ child caller => .making child caller
  | .execLoad _ => .loading
  | _ => .none

def Pc.task : Pc → Task
  | .work w => w.task
  | .lockSched w => w.task
  | .freeMark w => w.task
  | .freeSched w => w.task
  | .forkWake child caller => .linked child caller
  | _ => .none

/-- A process without the processor has no child to wake. -/
theorem Pc.task_of_parked {pc : Pc} (parked : pc.parked = true) (child : ProcPtr)
    (caller : Caller) : pc.task ≠ .linked child caller := by
  have work : ∀ w : Work, w.task ≠ .linked child caller := by
    intro w
    cases w <;> nofun
  cases pc with
  | lockSched w => exact work w
  | freeSched w => exact work w
  | forkWake child caller => contradiction
  | work w => exact work w
  | freeMark w => exact work w
  | _ => nofun

theorem Pc.parked_ne_initKswapd {pc : Pc} (parked : pc.parked = true) : pc ≠ .initKswapd := by
  rintro rfl
  contradiction

/-- The pid that a process waits for, once it has found no zombie. -/
def Pc.awaits : Pc → Option Int
  | .waitState pid _ => some pid
  | .waitMark pid _ => some pid
  | .waitSched pid _ => some pid
  | _ => none

/-! ## Moves -/

theorem Caller.place_pc (caller : Caller) : caller.pc.place = .awake := by
  cases caller <;> rfl

theorem Caller.task_pc (caller : Caller) : caller.pc.task = .none := by
  cases caller <;> rfl

theorem Caller.awaits_pc (caller : Caller) : caller.pc.awaits = none := by
  cases caller <;> rfl

namespace Pc

namespace Moves

variable {flagged : Bool} {source target : Pc}

theorem marks_source (moves : source.Moves flagged target) : source.marks = false := by
  cases moves <;> rfl

theorem place_source (moves : source.Moves flagged target) : source.place ≠ .timer := by
  cases moves <;> nofun

theorem place (moves : source.Moves flagged target) : target.place = .awake := by
  cases moves <;> first | rfl | exact Caller.place_pc _

theorem awaits (moves : source.Moves flagged target) : target.awaits = none := by
  cases moves <;> first | rfl | exact Caller.awaits_pc _

theorem task (moves : source.Moves flagged target) : target.task = source.task := by
  cases moves <;> first | rfl | exact Caller.task_pc _

theorem of (moves : source.Moves flagged target) {role : Role} (own : source.Of role) :
    target.Of role := by
  cases moves with
  | userTail => exact own
  | userFork flags kind user =>
      cases own
      exact ⟨rfl, nofun, nofun, fun fn eq => absurd eq (user fn)⟩
  | userExit => exact .inr own
  | userWait pid =>
      cases own
      exact ⟨rfl, nofun⟩
  | userExec => exact ⟨own.symm, own⟩
  | userMemory => exact own
  | userFault => exact own
  | swapdFull => exact own.symm
  | swapdFork =>
      cases own
      exact ⟨rfl, fun _ => rfl, fun _ => rfl, fun fn eq => by cases eq; exact .inl rfl⟩
  | mainFull => exact own
  | mainFork =>
      cases own
      exact ⟨rfl, fun _ => rfl, nofun, fun fn eq => by cases eq; exact .inr rfl⟩
  | mainWait =>
      cases own
      exact ⟨rfl, nofun⟩
  | execve =>
      cases own
      exact ⟨rfl, rfl⟩
  | forkFail flags kind caller => exact own.1 ▸ caller.pc_of
  | nameFail => exact own.2
  | memoryDone => exact own
  | faultDone => exact own
  | idleDone => exact own
  | threadDone fn => exact own
  | userStart => exact own
  | threadStart fn => exact own
  | tailKilled => exact .inr own
  | tailAlive => exact own
  | tailDone => exact own
  | tailBack => exact own
  | lockDone w => exact own
  | freeDone w => exact own
  | waitKilled pid caller =>
      obtain ⟨eq, notKswapd⟩ := own
      have notIdle := caller.role_ne_idle
      rw [eq] at notIdle
      cases role with
      | idle => contradiction
      | init => exact .inl rfl
      | kswapd => contradiction
      | user => exact .inr rfl
  | waitAlive pid caller => exact own
  | waitNone pid caller => exact own.1 ▸ caller.pc_of

end Moves

namespace Parks

variable {source target : Pc}

theorem place (parks : source.Parks target) : target.place = source.place := by
  cases parks <;> rfl

theorem parked (parks : source.Parks target) : target.parked = true := by
  cases parks <;> rfl

theorem task (parks : source.Parks target) : target.task = source.task := by
  cases parks <;> rfl

theorem awaits (parks : source.Parks target) : target.awaits = source.awaits := by
  cases parks <;> rfl

theorem of (parks : source.Parks target) {role : Role} (own : source.Of role) :
    target.Of role := by
  cases parks <;> exact own

end Parks

end Pc

end EdfKernel
