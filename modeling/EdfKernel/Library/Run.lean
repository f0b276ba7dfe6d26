import Mathlib.Logic.Basic

/-!
# Runs of a fallible transition function

A transition function takes a state and an event and either stops, with a
reason, or returns the next state.  A run feeds it a list of events.  A
property of states that one step preserves holds after every run; a property
of steps that holds in every state of an invariant holds along every run.
-/

namespace EdfKernel.Library

universe u v w x

/-- A sequence of two fallible computations succeeds exactly when both do. -/
theorem bind_eq_ok_iff {δ : Type u} {α : Type v} {β : Type v} {first : Except δ α}
    {rest : α → Except δ β} {result : β} :
    (first >>= rest) = .ok result ↔ ∃ middle, first = .ok middle ∧ rest middle = .ok result := by
  cases first with
  | error reason => simp [bind, Except.bind]
  | ok middle => simp [bind, Except.bind]

theorem ok_bind {δ : Type u} {α : Type v} {β : Type v} (value : α) (rest : α → Except δ β) :
    (.ok value >>= rest) = rest value :=
  rfl

/-- A sequence of two fallible computations stops where the first one stops or,
after it, where the second one stops. -/
theorem bind_eq_error_iff {δ : Type u} {α : Type v} {β : Type v} {first : Except δ α}
    {rest : α → Except δ β} {reason : δ} :
    (first >>= rest) = .error reason ↔
      first = .error reason ∨ ∃ middle, first = .ok middle ∧ rest middle = .error reason := by
  cases first with
  | error stop => simp [bind, Except.bind]
  | ok middle => simp [bind, Except.bind]

/-- A computation whose last part only wraps the value up. -/
theorem map_eq_ok_iff {δ : Type u} {α : Type v} {β : Type v} {first : Except δ α} {wrap : α → β}
    {result : β} : (wrap <$> first) = .ok result ↔ ∃ value, first = .ok value ∧ wrap value = result := by
  cases first with
  | error reason => simp [Functor.map, Except.map]
  | ok value => simp [Functor.map, Except.map]

/-- The reason why a computation has stopped. -/
def reason {δ : Type u} {α : Type v} : Except δ α → Option δ
  | .error stop => some stop
  | .ok _ => none

theorem reason_eq_some_iff {δ : Type u} {α : Type v} {result : Except δ α} {stop : δ} :
    reason result = some stop ↔ result = .error stop := by
  cases result with
  | error other => simp [reason]
  | ok value => simp [reason]

/-- A fallible computation whose result is evaluated up to a decidable property. -/
theorem ok_of_decide {δ : Type u} {α : Type v} {result : Except δ α} (Holds : α → Prop)
    [DecidablePred Holds]
    (seen : result.map (fun value => decide (Holds value)) = .ok true) :
    ∃ value, result = .ok value ∧ Holds value := by
  cases result with
  | error reason => cases seen
  | ok value => exact ⟨value, rfl, of_decide_eq_true (Except.ok.inj seen)⟩

/-- A computation that does not stop for the reason. -/
def Avoids {δ : Type u} {α : Type v} (stop : δ) (result : Except δ α) : Prop :=
  result ≠ .error stop

namespace Avoids

variable {δ : Type u} {α β : Type v} {stop : δ}

@[simp]
theorem ok (value : α) : Avoids stop (.ok value : Except δ α) := by
  rintro ⟨⟩

@[simp]
theorem pure (value : α) : Avoids stop (Pure.pure value : Except δ α) := by
  rintro ⟨⟩

@[simp]
theorem error_iff {reason : δ} : Avoids stop (.error reason : Except δ α) ↔ reason ≠ stop := by
  simp [Avoids]

theorem bind {first : Except δ α} {rest : α → Except δ β} (before : Avoids stop first)
    (after : ∀ value, first = .ok value → Avoids stop (rest value)) :
    Avoids stop (first >>= rest) := by
  intro stopped
  rcases bind_eq_error_iff.mp stopped with atFirst | ⟨value, done, atRest⟩
  · exact before atFirst
  · exact after value done atRest

/-- A computation whose last part only wraps the value up. -/
theorem map {first : Except δ α} (wrap : α → β) (before : Avoids stop first) :
    Avoids stop (wrap <$> first) := by
  cases first with
  | error reason => simpa [Functor.map, Except.map] using before
  | ok value => simp [Functor.map, Except.map]

end Avoids

namespace Run

variable {σ : Type u} {ε : Type v} {δ : Type w}

/-- Feed the events one after the other to the transition function. -/
def exec (step : σ → ε → Except δ σ) : σ → List ε → Except δ σ
  | state, [] => .ok state
  | state, event :: events =>
      match step state event with
      | .error reason => .error reason
      | .ok next => exec step next events

variable {step : σ → ε → Except δ σ}

@[simp]
theorem exec_nil (state : σ) : exec step state [] = .ok state :=
  rfl

theorem exec_cons (state : σ) (event : ε) (events : List ε) :
    exec step state (event :: events) =
      match step state event with
      | .error reason => .error reason
      | .ok next => exec step next events :=
  rfl

theorem exec_cons_eq_ok_iff {state final : σ} {event : ε} {events : List ε} :
    exec step state (event :: events) = .ok final ↔
      ∃ next, step state event = .ok next ∧ exec step next events = .ok final := by
  cases taken : step state event with
  | error reason => simp [exec_cons, taken]
  | ok next => simp [exec_cons, taken]

theorem exec_append (state : σ) (first rest : List ε) :
    exec step state (first ++ rest) = exec step state first >>= fun middle =>
      exec step middle rest := by
  induction first generalizing state with
  | nil => rfl
  | cons event events ih =>
      cases taken : step state event with
      | error reason => simp [exec_cons, taken, bind, Except.bind]
      | ok next => simpa [exec_cons, taken] using ih next

theorem exec_append_eq_ok_iff {state final : σ} {first rest : List ε} :
    exec step state (first ++ rest) = .ok final ↔
      ∃ middle, exec step state first = .ok middle ∧ exec step middle rest = .ok final := by
  rw [exec_append]
  exact bind_eq_ok_iff

/-- A property that every step preserves holds after every run. -/
theorem exec_invariant {Inv : σ → Prop}
    (preserved : ∀ state event next, Inv state → step state event = .ok next → Inv next)
    {state final : σ} {events : List ε} (init : Inv state)
    (run : exec step state events = .ok final) : Inv final := by
  induction events generalizing state with
  | nil =>
      cases run
      exact init
  | cons event events ih =>
      obtain ⟨next, taken, rest⟩ := exec_cons_eq_ok_iff.mp run
      exact ih (preserved state event next init taken) rest

/-- A run of a transition function is one of every function that takes its steps. -/
theorem exec_of_exec {step' : σ → ε → Except δ σ}
    (taken : ∀ state event next, step state event = .ok next → step' state event = .ok next)
    {state final : σ} {events : List ε} (run : exec step state events = .ok final) :
    exec step' state events = .ok final := by
  induction events generalizing state with
  | nil => exact run
  | cons event events ih =>
      obtain ⟨next, first, rest⟩ := exec_cons_eq_ok_iff.mp run
      exact exec_cons_eq_ok_iff.mpr ⟨next, taken state event next first, ih rest⟩

/-- A run whose last state is evaluated up to a decidable property. -/
theorem exec_of_decide (Holds : σ → Prop) [DecidablePred Holds] {state : σ} {events : List ε}
    (seen : (exec step state events).map (fun final => decide (Holds final)) = .ok true) :
    ∃ final, exec step state events = .ok final ∧ Holds final :=
  ok_of_decide Holds seen

/-- Something happens at one step of a run, in the state that the step is taken in. -/
inductive Sometime (step : σ → ε → Except δ σ) (Happens : σ → ε → Prop) : σ → List ε → Prop
  | here {state : σ} {event : ε} {events : List ε} (happens : Happens state event) :
      Sometime step Happens state (event :: events)
  | later {state next : σ} {event : ε} {events : List ε} (taken : step state event = .ok next)
      (rest : Sometime step Happens next events) : Sometime step Happens state (event :: events)

/-- Every step of a run, with the state it is taken in, satisfies `Allowed`. -/
def Along (step : σ → ε → Except δ σ) (Allowed : σ → ε → Prop) : σ → List ε → Prop
  | _, [] => True
  | state, event :: events =>
      Allowed state event ∧ ∀ next, step state event = .ok next → Along step Allowed next events

/-- Whether every step of a run is allowed can be found out by taking it. -/
instance decidableAlong {Allowed : σ → ε → Prop} [∀ state event, Decidable (Allowed state event)] :
    ∀ state events, Decidable (Along step Allowed state events)
  | _, [] => .isTrue trivial
  | state, event :: events =>
      match taken : step state event with
      | .error _ => decidable_of_iff (Allowed state event) (by simp [Along, taken])
      | .ok next =>
          have : Decidable (Along step Allowed next events) := decidableAlong next events
          decidable_of_iff (Allowed state event ∧ Along step Allowed next events)
            (by simp [Along, taken])

/-- Steps that are allowed in every state are allowed along every run. -/
theorem along_of_forall {Allowed : σ → ε → Prop} {events : List ε}
    (all : ∀ event ∈ events, ∀ state, Allowed state event) (state : σ) :
    Along step Allowed state events := by
  induction events generalizing state with
  | nil => trivial
  | cons event events ih =>
      rw [List.forall_mem_cons] at all
      exact ⟨all.1 state, fun next _ => ih all.2 next⟩

theorem along_and {First Second : σ → ε → Prop} {state : σ} {events : List ε}
    (first : Along step First state events) (second : Along step Second state events) :
    Along step (fun state event => First state event ∧ Second state event) state events := by
  induction events generalizing state with
  | nil => trivial
  | cons event events ih =>
      exact ⟨⟨first.1, second.1⟩, fun next taken => ih (first.2 next taken) (second.2 next taken)⟩

theorem along_append {Allowed : σ → ε → Prop} {state : σ} {first rest : List ε}
    (before : Along step Allowed state first)
    (after : ∀ middle, exec step state first = .ok middle → Along step Allowed middle rest) :
    Along step Allowed state (first ++ rest) := by
  induction first generalizing state with
  | nil => exact after state rfl
  | cons event events ih =>
      refine ⟨before.1, fun next taken => ih (before.2 next taken) fun middle run => ?_⟩
      exact after middle (exec_cons_eq_ok_iff.mpr ⟨next, taken, run⟩)

/-- What holds along a run holds along its last part. -/
theorem along_of_append {Allowed : σ → ε → Prop} {state middle : σ} {first rest : List ε}
    (along : Along step Allowed state (first ++ rest))
    (run : exec step state first = .ok middle) : Along step Allowed middle rest := by
  induction first generalizing state with
  | nil =>
      cases run
      exact along
  | cons event events ih =>
      obtain ⟨next, taken, after⟩ := exec_cons_eq_ok_iff.mp run
      exact ih (along.2 next taken) after

/-- What holds along a run holds along its first part. -/
theorem along_of_append_left {Allowed : σ → ε → Prop} {state : σ} {first rest : List ε}
    (along : Along step Allowed state (first ++ rest)) : Along step Allowed state first := by
  induction first generalizing state with
  | nil => trivial
  | cons event events ih => exact ⟨along.1, fun next taken => ih (along.2 next taken)⟩

/-- What follows in every state of an invariant follows along every run. -/
theorem along_imp {Inv : σ → Prop} {First Second : σ → ε → Prop}
    (preserved : ∀ state event next, Inv state → step state event = .ok next → Inv next)
    (implies : ∀ state event, Inv state → First state event → Second state event)
    {state : σ} {events : List ε} (init : Inv state) (along : Along step First state events) :
    Along step Second state events := by
  induction events generalizing state with
  | nil => trivial
  | cons event events ih =>
      refine ⟨implies state event init along.1, fun next taken => ?_⟩
      exact ih (preserved state event next init taken) (along.2 next taken)

/-- Two conditions on steps that agree in every state of an invariant agree along every run. -/
theorem along_congr {Inv : σ → Prop} {Given First Second : σ → ε → Prop}
    (preserved : ∀ state event next, Inv state → step state event = .ok next → Inv next)
    (same : ∀ state event, Inv state → Given state event →
      (First state event ↔ Second state event))
    {state : σ} {events : List ε} (init : Inv state) (given : Along step Given state events) :
    Along step First state events ↔ Along step Second state events := by
  induction events generalizing state with
  | nil => exact Iff.rfl
  | cons event events ih =>
      refine and_congr (same state event init given.1) (forall_congr' fun next => ?_)
      refine forall_congr' fun taken => ?_
      exact ih (preserved state event next init taken) (given.2 next taken)

/-- When allowed steps keep an invariant and the others break a property that follows from it, the
property holds in every state that a run reaches exactly when all steps of the run are allowed. -/
theorem reached_iff_along_of_breaks {Inv Good : σ → Prop} {Allowed : σ → ε → Prop}
    (keeps : ∀ state event next, Inv state → Allowed state event →
      step state event = .ok next → Inv next)
    (breaks : ∀ state event next, Inv state → step state event = .ok next → Good next →
      Allowed state event)
    (good : ∀ state, Inv state → Good state) {state final : σ} {events : List ε}
    (init : Inv state) (run : exec step state events = .ok final) :
    (∀ first last reached, first ++ last = events → exec step state first = .ok reached →
      Good reached) ↔ Along step Allowed state events := by
  induction events generalizing state with
  | nil =>
      refine ⟨fun _ => trivial, fun _ first last reached split reaches => ?_⟩
      obtain ⟨rfl, rfl⟩ := List.append_eq_nil_iff.mp split
      cases reaches
      exact good state init
  | cons event events ih =>
      obtain ⟨next, taken, rest⟩ := exec_cons_eq_ok_iff.mp run
      constructor
      · intro all
        have good' := all [event] events next rfl (exec_cons_eq_ok_iff.mpr ⟨next, taken, rfl⟩)
        have allowed := breaks state event next init taken good'
        refine ⟨allowed, fun other same => ?_⟩
        cases taken.symm.trans same
        refine (ih (keeps state event next init allowed taken) rest).mp
          fun first last reached split reaches => ?_
        exact all (event :: first) last reached (congrArg (event :: ·) split)
          (exec_cons_eq_ok_iff.mpr ⟨next, taken, reaches⟩)
      · rintro ⟨allowed, along⟩ first last reached split reaches
        cases first with
        | nil =>
            cases reaches
            exact good state init
        | cons head first =>
            obtain ⟨rfl, split'⟩ := List.cons.inj split
            obtain ⟨other, same, reaches'⟩ := exec_cons_eq_ok_iff.mp reaches
            cases taken.symm.trans same
            exact (ih (keeps state head next init allowed taken) rest).mpr (along next taken) first
              last reached split' reaches'

/-- A property that a step keeps exactly when it is allowed holds in every state that a run
reaches exactly when all steps of the run are allowed. -/
theorem reached_iff_along {Inv Good : σ → Prop} {Allowed : σ → ε → Prop}
    (preserved : ∀ state event next, Inv state → step state event = .ok next → Inv next)
    (keeps : ∀ state event next, Inv state → Good state → step state event = .ok next →
      (Good next ↔ Allowed state event))
    {state final : σ} {events : List ε} (init : Inv state) (good : Good state)
    (run : exec step state events = .ok final) :
    (∀ first last reached, first ++ last = events → exec step state first = .ok reached →
      Good reached) ↔ Along step Allowed state events :=
  reached_iff_along_of_breaks
    (fun state event next both allowed taken => ⟨preserved state event next both.1 taken,
      (keeps state event next both.1 both.2 taken).mpr allowed⟩)
    (fun state event next both taken => (keeps state event next both.1 both.2 taken).mp)
    (fun _ => And.right) ⟨init, good⟩ run

/-- A property that every allowed step preserves holds after every run of
allowed steps. -/
theorem exec_invariant_along {Inv : σ → Prop} {Allowed : σ → ε → Prop}
    (preserved : ∀ state event next, Inv state → Allowed state event →
      step state event = .ok next → Inv next)
    {state final : σ} {events : List ε} (init : Inv state)
    (along : Along step Allowed state events)
    (run : exec step state events = .ok final) : Inv final := by
  induction events generalizing state with
  | nil =>
      cases run
      exact init
  | cons event events ih =>
      obtain ⟨next, taken, rest⟩ := exec_cons_eq_ok_iff.mp run
      exact ih (preserved state event next init along.1 taken) (along.2 next taken) rest

/-- When allowed steps do not stop and preserve a property, a run of allowed steps does not stop
either. -/
theorem exec_ok_along {Inv : σ → Prop} {Allowed : σ → ε → Prop}
    (taken : ∀ state event, Inv state → Allowed state event →
      ∃ next, step state event = .ok next ∧ Inv next)
    {state : σ} {events : List ε} (init : Inv state) (along : Along step Allowed state events) :
    ∃ final, exec step state events = .ok final ∧ Inv final := by
  induction events generalizing state with
  | nil => exact ⟨state, rfl, init⟩
  | cons event events ih =>
      obtain ⟨next, here, good⟩ := taken state event init along.1
      obtain ⟨final, run, last⟩ := ih good (along.2 next here)
      exact ⟨final, exec_cons_eq_ok_iff.mpr ⟨next, here, run⟩, last⟩

/-- A reason for which no allowed step stops is no reason for a run of allowed steps to
stop. -/
theorem exec_ne_error_along {Inv : σ → Prop} {Allowed : σ → ε → Prop} {stop : δ}
    (preserved : ∀ state event next, Inv state → Allowed state event →
      step state event = .ok next → Inv next)
    (safe : ∀ state event, Inv state → Allowed state event → step state event ≠ .error stop)
    {state : σ} {events : List ε} (init : Inv state) (along : Along step Allowed state events) :
    exec step state events ≠ .error stop := by
  induction events generalizing state with
  | nil => rintro ⟨⟩
  | cons event events ih =>
      cases taken : step state event with
      | error reason =>
          intro stopped
          simp only [exec_cons, taken, Except.error.injEq] at stopped
          exact safe state event init along.1 (stopped ▸ taken)
      | ok next =>
          simp only [exec_cons, taken]
          exact ih (preserved state event next init along.1 taken) (along.2 next taken)

end Run

end EdfKernel.Library
