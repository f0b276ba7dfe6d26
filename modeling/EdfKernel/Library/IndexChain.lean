import Mathlib.Data.List.Nodup
import Mathlib.Data.List.Perm.Subperm
import Mathlib.Data.List.Range
import Mathlib.Logic.Function.Basic

/-!
# Chains of indices through an array

The free places of an array of `n` places are chained by an array of indices: each holds the
index of the next free one, and the last holds a number that is no index.  Places are taken from
the front of the chain and put back there.
-/

namespace EdfKernel.Library

/-- The indices from `first` on run through the list and end with `stop`. -/
def IndexChain (next : Nat → Nat) (stop : Nat) : Nat → List Nat → Prop
  | first, [] => first = stop
  | first, i :: rest => first = i ∧ IndexChain next stop (next i) rest

namespace IndexChain

variable {next next' : Nat → Nat} {stop first n i : Nat} {l l' : List Nat}

/-- Only the links of the indices in the chain matter. -/
theorem congr (chain : IndexChain next stop first l) (same : ∀ i ∈ l, next' i = next i) :
    IndexChain next' stop first l := by
  induction l generalizing first with
  | nil => exact chain
  | cons i rest ih =>
      refine ⟨chain.1, ?_⟩
      rw [same i List.mem_cons_self]
      exact ih chain.2 fun j mem => same j (List.mem_cons_of_mem i mem)

theorem eq_nil_iff (chain : IndexChain next stop first l) (noIndex : stop ∉ l) :
    l = [] ↔ first = stop := by
  cases l with
  | nil => exact ⟨fun _ => chain, fun _ => rfl⟩
  | cons i rest =>
      refine ⟨by rintro ⟨⟩, fun isStop => absurd ?_ noIndex⟩
      rw [← isStop, chain.1]
      exact List.mem_cons_self

theorem push (chain : IndexChain next stop first l) (fresh : i ∉ l) :
    IndexChain (Function.update next i first) stop i (i :: l) := by
  refine ⟨rfl, ?_⟩
  rw [Function.update_self]
  apply chain.congr
  intro j mem
  apply Function.update_of_ne
  rintro rfl
  exact fresh mem

/-- The links that lead from each index to the one after it. -/
theorem ascending (count : Nat) (steps : ∀ i, first ≤ i → i + 1 < first + count → next i = i + 1)
    (last : 0 < count → next (first + count - 1) = stop) (empty : count = 0 → first = stop) :
    IndexChain next stop first (List.range' first count) := by
  induction count generalizing first with
  | zero => exact empty rfl
  | succ count ih =>
      refine ⟨rfl, ?_⟩
      by_cases isLast : count = 0
      · subst isLast
        exact last Nat.one_pos
      · rw [steps first (Nat.le_refl first) (by omega)]
        apply ih
        · intro i low high
          exact steps i (by omega) (by omega)
        · intro _
          have link := last (Nat.succ_pos count)
          rw [← link]
          congr 1
          omega
        · intro none
          exact absurd none isLast

end IndexChain

/-- The places of an array of `n` places that are free: those that the chain runs through. -/
structure FreePlaces (next : Nat → Nat) (stop n first : Nat) (idle : List Nat) : Prop where
  chain : IndexChain next stop first idle
  nodup : idle.Nodup
  below : ∀ i ∈ idle, i < n
  noIndex : n ≤ stop

namespace FreePlaces

variable {next next' : Nat → Nat} {stop first n i : Nat} {idle rest : List Nat}

/-- All places are free. -/
theorem all (bound : n ≤ stop) (some : 0 < n) (steps : ∀ i, i + 1 < n → next i = i + 1)
    (last : next (n - 1) = stop) : FreePlaces next stop n 0 (List.range n) := by
  refine ⟨?_, List.nodup_range, fun i => List.mem_range.mp, bound⟩
  rw [List.range_eq_range']
  apply IndexChain.ascending
  · intro i _ high
    exact steps i (by omega)
  · intro _
    rw [Nat.zero_add]
    exact last
  · omega

theorem stop_notMem (places : FreePlaces next stop n first idle) : stop ∉ idle := by
  intro mem
  exact absurd (places.below stop mem) (Nat.not_lt.mpr places.noIndex)

/-- There is no free place exactly when the chain begins with its end. -/
theorem eq_nil_iff (places : FreePlaces next stop n first idle) : idle = [] ↔ first = stop :=
  places.chain.eq_nil_iff places.stop_notMem

/-- The first place is taken. -/
theorem take (places : FreePlaces next stop n first (i :: rest)) :
    first = i ∧ FreePlaces next stop n (next i) rest := by
  obtain ⟨⟨isFirst, chain⟩, nodup, below, noIndex⟩ := places
  exact ⟨isFirst, chain, (List.nodup_cons.mp nodup).2,
    fun j mem => below j (List.mem_cons_of_mem i mem), noIndex⟩

/-- A place is put back. -/
theorem put (places : FreePlaces next stop n first idle) (inBounds : i < n) (taken : i ∉ idle) :
    FreePlaces (Function.update next i first) stop n i (i :: idle) :=
  ⟨places.chain.push taken, List.nodup_cons.mpr ⟨taken, places.nodup⟩,
    List.forall_mem_cons.mpr ⟨inBounds, places.below⟩, places.noIndex⟩

theorem congr (places : FreePlaces next stop n first idle) (same : ∀ i < n, next' i = next i) :
    FreePlaces next' stop n first idle :=
  ⟨places.chain.congr fun i mem => same i (places.below i mem), places.nodup, places.below,
    places.noIndex⟩

theorem length_le (places : FreePlaces next stop n first idle) : idle.length ≤ n := by
  have subset : idle ⊆ List.range n := fun i mem => List.mem_range.mpr (places.below i mem)
  have le := (places.nodup.subperm subset).length_le
  rwa [List.length_range] at le

/-- A place that is not free leaves room in the count. -/
theorem length_lt (places : FreePlaces next stop n first idle) (inBounds : i < n)
    (taken : i ∉ idle) : idle.length < n :=
  (places.put inBounds taken).length_le

/-- When all places but those of the chain are counted and there are none, every place is free. -/
theorem mem_of_length (places : FreePlaces next stop n first idle) (whole : idle.length = n)
    (inBounds : i < n) : i ∈ idle := by
  by_contra taken
  exact absurd (places.length_lt inBounds taken) (by omega)

/-- When the chain is shorter than the array, some place is not free. -/
theorem exists_taken (_ : FreePlaces next stop n first idle) (short : idle.length < n) :
    ∃ i < n, i ∉ idle := by
  by_contra all
  push Not at all
  have subset : List.range n ⊆ idle := fun i mem => all i (List.mem_range.mp mem)
  have le := (List.nodup_range.subperm subset).length_le
  rw [List.length_range] at le
  omega

end FreePlaces

end EdfKernel.Library
