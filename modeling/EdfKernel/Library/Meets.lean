import EdfKernel.Library.Run

/-!
# Computations that meet a condition

What a fallible computation guarantees: it does not stop for one of the reasons that are ruled out,
and the value that it returns, if it returns one, has a property.
-/

namespace EdfKernel.Library

universe u v w

/-- The computation stops for no reason that is ruled out, and its value has the property. -/
def Meets {δ : Type u} {α : Type v} (ruledOut : δ → Prop) (Post : α → Prop) : Except δ α → Prop
  | .ok value => Post value
  | .error reason => ¬ruledOut reason

namespace Meets

variable {δ : Type u} {α β : Type v} {ruledOut : δ → Prop} {Post Post' : α → Prop}
  {Last : β → Prop} {result : Except δ α} {reason : δ} {value : α}

@[simp]
theorem ok_iff : Meets ruledOut Post (.ok value) ↔ Post value :=
  Iff.rfl

@[simp]
theorem error_iff : Meets ruledOut Post (.error reason : Except δ α) ↔ ¬ruledOut reason :=
  Iff.rfl

theorem ok (post : Post value) : Meets ruledOut Post (.ok value) :=
  post

theorem of_eq_ok (done : result = .ok value) (post : Post value) : Meets ruledOut Post result := by
  rw [done]
  exact post

theorem post_of_ok (meets : Meets ruledOut Post result) (done : result = .ok value) :
    Post value := by
  rw [done] at meets
  exact meets

theorem not_ruledOut (meets : Meets ruledOut Post result) (stopped : result = .error reason) :
    ¬ruledOut reason := by
  rw [stopped] at meets
  exact meets

/-- A computation that stops for no reason has a value. -/
theorem exists_ok (meets : Meets (fun _ => True) Post result) :
    ∃ value, result = .ok value ∧ Post value := by
  cases result with
  | ok value => exact ⟨value, rfl, meets⟩
  | error reason => exact absurd trivial meets

theorem mono (meets : Meets ruledOut Post result) (weaker : ∀ value, Post value → Post' value) :
    Meets ruledOut Post' result := by
  cases result with
  | ok value => exact weaker value meets
  | error reason => exact meets

/-- What else is known of the value. -/
theorem and_of_ok (meets : Meets ruledOut Post result)
    (known : ∀ value, result = .ok value → Post' value) :
    Meets ruledOut (fun value => Post value ∧ Post' value) result := by
  cases result with
  | ok value => exact ⟨meets, known value rfl⟩
  | error reason => exact meets

theorem bind {rest : α → Except δ β} (first : Meets ruledOut Post result)
    (then_ : ∀ value, Post value → Meets ruledOut Last (rest value)) :
    Meets ruledOut Last (result >>= rest) := by
  cases result with
  | ok value => exact then_ value first
  | error reason => exact first

/-- The property of the first value is given. -/
theorem bind_through (Post : α → Prop) {rest : α → Except δ β} (first : Meets ruledOut Post result)
    (then_ : ∀ value, Post value → Meets ruledOut Last (rest value)) :
    Meets ruledOut Last (result >>= rest) :=
  first.bind then_

theorem map {wrap : α → β} (meets : Meets ruledOut (fun value => Last (wrap value)) result) :
    Meets ruledOut Last (wrap <$> result) := by
  cases result with
  | ok value => exact meets
  | error reason => exact meets

end Meets

end EdfKernel.Library
