import Mathlib.Algebra.BigOperators.Finprod
import Mathlib.Algebra.Order.Group.Multiset
import Mathlib.Data.Set.Card

/-!
# Tallies

What is held at all places together, when only finitely many places hold something.  A change at
one place changes the tally by what was held there and what is held there now.
-/

namespace EdfKernel.Library

universe u v

variable {α : Type u} {β : Type v}

/-- Only finitely many places hold something. -/
def Sparse (held : α → Multiset β) : Prop := (Function.support held).Finite

/-- What is held at all places together. -/
noncomputable def tally (held : α → Multiset β) : Multiset β := ∑ᶠ a, held a

variable {held held' : α → Multiset β} {a : α} {b : β} {x : Multiset β}

theorem sparse_zero : Sparse fun _ : α => (0 : Multiset β) := by
  unfold Sparse
  rw [Function.support_fun_zero]
  exact Set.finite_empty

theorem tally_zero : tally (fun _ : α => (0 : Multiset β)) = 0 :=
  finsum_zero

theorem tally_eq_sum {s : Finset α} (all : ∀ a, held a ≠ 0 → a ∈ s) :
    tally held = ∑ a ∈ s, held a :=
  finsum_eq_sum_of_support_subset _ fun a nonzero => all a nonzero

/-- Places that held something may hold less. -/
theorem Sparse.of_le (sparse : Sparse held) (le : ∀ a, held a = 0 → held' a = 0) :
    Sparse held' := by
  apply sparse.subset
  intro a nonzero isZero
  exact nonzero (le a isZero)

theorem Sparse.update [DecidableEq α] (sparse : Sparse held) (a : α) (x : Multiset β) :
    Sparse (Function.update held a x) := by
  apply (sparse.union (Set.finite_singleton a)).subset
  intro c nonzero
  by_cases own : c = a
  · exact .inr own
  · refine .inl ?_
    rwa [Function.mem_support, Function.update_of_ne own] at nonzero

/-- What is held in two parts. -/
theorem tally_add (sparse : Sparse held) (sparse' : Sparse held') :
    tally (fun a => held a + held' a) = tally held + tally held' :=
  finsum_add_distrib sparse sparse'

/-- A change at one place. -/
theorem tally_update [DecidableEq α] (sparse : Sparse held) (a : α) (x : Multiset β) :
    tally (Function.update held a x) + held a = tally held + x := by
  classical
  have all : ∀ c, held c ≠ 0 → c ∈ insert a sparse.toFinset := by
    intro c nonzero
    exact Finset.mem_insert_of_mem (sparse.mem_toFinset.mpr nonzero)
  have all' : ∀ c, Function.update held a x c ≠ 0 → c ∈ insert a sparse.toFinset := by
    intro c nonzero
    by_cases own : c = a
    · rw [own]
      exact Finset.mem_insert_self a _
    · rw [Function.update_of_ne own] at nonzero
      exact all c nonzero
  have mem := Finset.mem_insert_self a sparse.toFinset
  rw [tally_eq_sum all, tally_eq_sum all', Finset.sum_update_of_mem mem,
    ← Finset.sum_sdiff (Finset.singleton_subset_iff.mpr mem), Finset.sum_singleton, add_assoc,
    add_comm x]

theorem mem_tally (sparse : Sparse held) : b ∈ tally held ↔ ∃ a, b ∈ held a := by
  rw [tally_eq_sum fun a nonzero => sparse.mem_toFinset.mpr nonzero, Multiset.mem_sum]
  constructor
  · rintro ⟨a, _, mem⟩
    exact ⟨a, mem⟩
  · rintro ⟨a, mem⟩
    refine ⟨a, sparse.mem_toFinset.mpr ?_, mem⟩
    intro isZero
    rw [isZero] at mem
    exact Multiset.notMem_zero b mem

/-- What is held once at most at each place is counted by the places. -/
theorem count_tally [DecidableEq β] (sparse : Sparse held) (once : ∀ a, (held a).count b ≤ 1) :
    (tally held).count b = Set.ncard {a | b ∈ held a} := by
  classical
  rw [tally_eq_sum fun a nonzero => sparse.mem_toFinset.mpr nonzero, Multiset.count_sum']
  have places : {a | b ∈ held a} = ↑(sparse.toFinset.filter fun a => b ∈ held a) := by
    ext a
    rw [Set.mem_ofPred_eq, Finset.mem_coe, Finset.mem_filter, sparse.mem_toFinset]
    refine ⟨fun mem => ⟨?_, mem⟩, And.right⟩
    intro isZero
    rw [isZero] at mem
    exact Multiset.notMem_zero b mem
  rw [places, Set.ncard_coe_finset, Finset.card_filter]
  apply Finset.sum_congr rfl
  intro a _
  split
  · rename_i mem
    exact Nat.le_antisymm (once a) (Multiset.count_pos.mpr mem)
  · rename_i notThere
    exact Multiset.count_eq_zero.mpr notThere

end EdfKernel.Library
