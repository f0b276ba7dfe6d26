import Mathlib.Data.List.Range
import Mathlib.Data.Nat.Find
import Mathlib.Order.Basic

/-!
# Maximal runs

The positions from `base` up to `stop` of which some are marked.  A run is a stretch of marked
positions that no marked position borders on.  The places where the runs start, in order, can be
collected stretch by stretch.
-/

namespace EdfKernel.Library

/-- A run starts: a marked position that is the first one, or follows one that is not marked. -/
def runStarts (mark : Nat → Bool) (base p : Nat) : Bool :=
  mark p && (p == base || !mark (p - 1))

/-- The starts among `count` positions from `first`, in order. -/
def startsIn (mark : Nat → Bool) (base first count : Nat) : List Nat :=
  (List.range' first count).filter (runStarts mark base)

/-- The positions from `p` up to `q` are a maximal run. -/
structure MaximalRun (mark : Nat → Bool) (base stop p q : Nat) : Prop where
  first : base ≤ p
  nonempty : p < q
  last : q ≤ stop
  inside : ∀ i, p ≤ i → i < q → mark i = true
  left : p = base ∨ mark (p - 1) = false
  right : q = stop ∨ mark q = false

variable {mark : Nat → Bool} {base stop p q : Nat}

theorem startsIn_add (mark : Nat → Bool) (base first m n : Nat) :
    startsIn mark base first (m + n) =
      startsIn mark base first m ++ startsIn mark base (first + m) n := by
  have split := List.range'_append_1 (s := first) (m := m) (n := n)
  rw [startsIn, ← split, List.filter_append]
  rfl

/-- No run starts where nothing is marked. -/
theorem startsIn_unmarked {first count : Nat}
    (unmarked : ∀ i, first ≤ i → i < first + count → mark i = false) :
    startsIn mark base first count = [] := by
  apply List.filter_eq_nil_iff.mpr
  intro i mem
  rcases List.mem_range'_1.mp mem with ⟨low, high⟩
  simp [runStarts, unmarked i low high]

theorem MaximalRun.begins (run : MaximalRun mark base stop p q) :
    runStarts mark base p = true := by
  have marked := run.inside p le_rfl run.nonempty
  rcases run.left with atBase | after
  · rw [runStarts, marked, atBase]
    simp
  · simp [runStarts, marked, after]

/-- One run starts where a run is. -/
theorem startsIn_run (run : MaximalRun mark base stop p q) :
    startsIn mark base p (q - p) = [p] := by
  have nonempty := run.nonempty
  obtain ⟨count, length⟩ : ∃ count, q - p = count + 1 := ⟨q - p - 1, by omega⟩
  have rest : startsIn mark base (p + 1) count = [] := by
    apply List.filter_eq_nil_iff.mpr
    intro i mem
    rcases List.mem_range'_1.mp mem with ⟨low, high⟩
    have first := run.first
    have before := run.inside (i - 1) (by omega) (by omega)
    have later : i ≠ base := by omega
    simp [runStarts, before, later]
  rw [length, Nat.add_comm, startsIn_add]
  rw [rest, List.append_nil]
  simp [startsIn, run.begins]

/-- Every start is the start of a run, and every run has its start among them. -/
theorem mem_startsIn_iff {count : Nat} :
    p ∈ startsIn mark base base count ↔ ∃ q, MaximalRun mark base (base + count) p q := by
  rw [startsIn, List.mem_filter, List.mem_range'_1]
  constructor
  · rintro ⟨⟨low, high⟩, begins⟩
    simp only [runStarts, Bool.and_eq_true, Bool.or_eq_true, beq_iff_eq, Bool.not_eq_true'] at begins
    -- the run ends at the first position that is not marked, or at the stop
    have ends : ∃ q, p < q ∧ (base + count ≤ q ∨ mark q = false) :=
      ⟨base + count, high, .inl le_rfl⟩
    have found := Nat.find_spec ends
    have least := fun i => Nat.find_min (H := ends) (m := i)
    have within : Nat.find ends ≤ base + count := Nat.find_min' ends ⟨high, .inl le_rfl⟩
    refine ⟨Nat.find ends, low, found.1, within, fun i from' below => ?_, begins.2, ?_⟩
    · rcases from'.eq_or_lt with rfl | after
      · exact begins.1
      · have not := least i below
        simp only [not_and, not_or, Bool.not_eq_false] at not
        exact (not after).2
    · rcases found.2 with beyond | unmarked
      · exact .inl (within.antisymm beyond)
      · exact .inr unmarked
  · rintro ⟨q, run⟩
    have nonempty := run.nonempty
    have last := run.last
    exact ⟨⟨run.first, by omega⟩, run.begins⟩

end EdfKernel.Library
