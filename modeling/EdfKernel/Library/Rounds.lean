import Mathlib.Order.Lattice

/-!
# Calls that are given rounds

A call that may fail and that is given more rounds than it needs comes to the same result.
What holds of the result of its last part is carried back to the call.
-/

namespace EdfKernel.Library

universe u v w

variable {ε : Type u} {α : Type v} {β : Type w} {P P' : Except ε α → Prop}
  {Q : Except ε β → Prop} {f g : Nat → Except ε α} {h : Nat → Except ε β}

/-- With enough rounds, `P` holds of what a call comes to. -/
def Settles (P : Except ε α → Prop) (f : Nat → Except ε α) : Prop :=
  ∃ enough, ∀ fuel ≥ enough, P (f fuel)

/-- More rounds do not change a result. -/
def Steady (f : Nat → Except ε α) : Prop :=
  ∀ fuel fuel' result, fuel ≤ fuel' → f fuel = .ok result → f fuel' = .ok result

namespace Settles

theorem const {result : Except ε α} (holds : P result) (same : ∀ fuel, f fuel = result) :
    Settles P f :=
  ⟨0, fun fuel _ => (same fuel).symm ▸ holds⟩

theorem imp (settles : Settles P f) (weaker : ∀ result, P result → P' result) :
    Settles P' f := by
  obtain ⟨enough, holds⟩ := settles
  exact ⟨enough, fun fuel le => weaker _ (holds fuel le)⟩

/-- The rounds of `g` begin `n` rounds before those of `f`. -/
theorem shift (settles : Settles P f) (n : Nat) (same : ∀ fuel, g (fuel + n) = f fuel) :
    Settles P g := by
  obtain ⟨enough, holds⟩ := settles
  refine ⟨enough + n, fun fuel le => ?_⟩
  obtain ⟨more, rfl⟩ := Nat.exists_eq_add_of_le' le
  rw [← Nat.add_assoc, same]
  exact holds _ (Nat.le_add_left ..)

/-- A call that goes on with the result of another one. -/
theorem bind (settles : Settles Q h) (steady : Steady h) {next : Nat → Except ε β → Except ε α}
    (fails : ∀ error fuel, Q (.error error) → P (next fuel (.error error)))
    (later : ∀ result, Q (.ok result) → Settles P fun fuel => next fuel (.ok result)) :
    Settles P fun fuel => next fuel (h fuel) := by
  obtain ⟨enough, holds⟩ := settles
  by_cases answered : ∃ fuel ≥ enough, ∃ result, h fuel = .ok result
  · obtain ⟨first, le, result, came⟩ := answered
    obtain ⟨enough', holds'⟩ := later result (came ▸ holds first le)
    refine ⟨max first enough', fun fuel le => ?_⟩
    change P (next fuel (h fuel))
    rw [steady first fuel result ((le_max_left ..).trans le) came]
    exact holds' fuel ((le_max_right ..).trans le)
  · refine ⟨enough, fun fuel le => ?_⟩
    change P (next fuel (h fuel))
    have came := holds fuel le
    cases failed : h fuel with
    | error error => exact fails error fuel (failed ▸ came)
    | ok result => exact absurd ⟨fuel, le, result, failed⟩ answered

/-- `P` holds of a result that has been come to. -/
theorem of_ok (settles : Settles P f) (steady : Steady f) {fuel : Nat} {result : α}
    (came : f fuel = .ok result) : P (.ok result) := by
  obtain ⟨enough, holds⟩ := settles
  have later := holds (max fuel enough) (le_max_right ..)
  rwa [steady fuel _ result (le_max_left ..) came] at later

end Settles

end EdfKernel.Library
