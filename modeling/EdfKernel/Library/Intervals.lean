import Mathlib.Data.List.Nodup
import Mathlib.Order.Lattice

/-!
# Lists of disjoint intervals

A list whose entries carry half-open intervals, in order and without overlap.  At most one
entry contains a point, the first entry that ends after a point is the one that a search
for the point has to look at, and a new interval that meets none of the others has one place.
-/

namespace EdfKernel.Library.Intervals

universe u v

variable {ι : Type u} {α : Type v} [LinearOrder α] {lo hi lo' hi' : ι → α}

/-- The intervals are not empty and stand in order without overlapping. -/
structure Ordered (lo hi : ι → α) (l : List ι) : Prop where
  nonempty : ∀ i ∈ l, lo i < hi i
  apart : l.Pairwise fun i j => hi i ≤ lo j

namespace Ordered

variable {l before after : List ι} {i j : ι} {x : α}

theorem nil : Ordered lo hi [] :=
  ⟨by simp, List.Pairwise.nil⟩

theorem sublist (ordered : Ordered lo hi l) {l' : List ι} (sub : l'.Sublist l) :
    Ordered lo hi l' :=
  ⟨fun i mem => ordered.nonempty i (sub.subset mem), ordered.apart.sublist sub⟩

/-- Only the intervals of the list matter. -/
theorem congr (ordered : Ordered lo hi l) (same : ∀ i ∈ l, lo' i = lo i ∧ hi' i = hi i) :
    Ordered lo' hi' l := by
  constructor
  · intro i mem
    rw [(same i mem).1, (same i mem).2]
    exact ordered.nonempty i mem
  · refine ordered.apart.imp_of_mem ?_
    intro i j memI memJ le
    rw [(same i memI).2, (same j memJ).1]
    exact le

/-- The intervals may shrink. -/
theorem shrink (ordered : Ordered lo hi l) (nonempty : ∀ i ∈ l, lo' i < hi' i)
    (inside : ∀ i ∈ l, lo i ≤ lo' i ∧ hi' i ≤ hi i) : Ordered lo' hi' l := by
  refine ⟨nonempty, ordered.apart.imp_of_mem ?_⟩
  intro i j memI memJ le
  exact (inside i memI).2.trans (le.trans (inside j memJ).1)

/-- The intervals start in order. -/
theorem starts (ordered : Ordered lo hi l) : l.Pairwise fun i j => lo i < lo j := by
  refine ordered.apart.imp_of_mem ?_
  intro i j memI _ le
  exact (ordered.nonempty i memI).trans_le le

theorem nodup (ordered : Ordered lo hi l) : l.Nodup :=
  ordered.starts.imp fun {i j} less same => absurd less (by rw [same]; exact lt_irrefl _)

theorem cons_iff : Ordered lo hi (i :: l) ↔
    lo i < hi i ∧ (∀ j ∈ l, hi i ≤ lo j) ∧ Ordered lo hi l := by
  constructor
  · rintro ⟨nonempty, apart⟩
    rw [List.forall_mem_cons] at nonempty
    rw [List.pairwise_cons] at apart
    exact ⟨nonempty.1, apart.1, nonempty.2, apart.2⟩
  · rintro ⟨here, first, nonempty, apart⟩
    exact ⟨List.forall_mem_cons.mpr ⟨here, nonempty⟩, List.pairwise_cons.mpr ⟨first, apart⟩⟩

/-- Two intervals of the list do not overlap. -/
theorem disjoint (ordered : Ordered lo hi l) (memI : i ∈ l) (memJ : j ∈ l) :
    i = j ∨ hi i ≤ lo j ∨ hi j ≤ lo i := by
  induction l with
  | nil => cases memI
  | cons first rest ih =>
      obtain ⟨_, after, tail⟩ := cons_iff.mp ordered
      rcases List.mem_cons.mp memI with rfl | inI
      · rcases List.mem_cons.mp memJ with rfl | inJ
        · exact .inl rfl
        · exact .inr (.inl (after j inJ))
      · rcases List.mem_cons.mp memJ with rfl | inJ
        · exact .inr (.inr (after i inI))
        · exact ih tail inI inJ

/-- Two intervals of the list that share a point are the same. -/
theorem eq_of_common (ordered : Ordered lo hi l) (memI : i ∈ l) (memJ : j ∈ l)
    (inI : lo i ≤ x ∧ x < hi i) (inJ : lo j ≤ x ∧ x < hi j) : i = j := by
  rcases ordered.disjoint memI memJ with same | le | le
  · exact same
  · exact absurd (inI.2.trans_le (le.trans inJ.1)) (lt_irrefl x)
  · exact absurd (inJ.2.trans_le (le.trans inI.1)) (lt_irrefl x)

/-! ## Searching -/

/-- Every interval ends at or before the point if the search finds none that does not. -/
theorem find_eq_none (missing : (l.find? fun i => decide (x < hi i)) = none) :
    ∀ j ∈ l, hi j ≤ x := by
  intro j mem
  have := List.find?_eq_none.mp missing j mem
  simpa using this

/-- The first interval that ends after the point: those before it end at or before the
point, those after it start later. -/
theorem find_eq_some (ordered : Ordered lo hi l)
    (found : (l.find? fun i => decide (x < hi i)) = some i) :
    i ∈ l ∧ x < hi i ∧ ∀ j ∈ l, j = i ∨ hi j ≤ x ∨ hi i ≤ lo j := by
  induction l with
  | nil => cases found
  | cons first rest ih =>
      obtain ⟨_, after, tail⟩ := cons_iff.mp ordered
      rw [List.find?_cons] at found
      split at found
      · rename_i here
        cases found
        refine ⟨List.mem_cons_self, of_decide_eq_true here, ?_⟩
        intro j mem
        rcases List.mem_cons.mp mem with rfl | inRest
        · exact .inl rfl
        · exact .inr (.inr (after j inRest))
      · rename_i notHere
        obtain ⟨mem, later, others⟩ := ih tail found
        refine ⟨List.mem_cons_of_mem _ mem, later, ?_⟩
        intro j memJ
        rcases List.mem_cons.mp memJ with rfl | inRest
        · exact .inr (.inl (not_lt.mp (of_decide_eq_false notHere)))
        · exact others j inRest

/-- An interval that contains the point is the one that the search finds. -/
theorem find_of_mem (ordered : Ordered lo hi l) (mem : i ∈ l) (inside : lo i ≤ x ∧ x < hi i) :
    (l.find? fun i => decide (x < hi i)) = some i := by
  cases found : l.find? fun i => decide (x < hi i) with
  | none => exact absurd (find_eq_none found i mem) (not_le.mpr inside.2)
  | some j =>
      obtain ⟨memJ, later, others⟩ := ordered.find_eq_some found
      rcases others i mem with rfl | le | le
      · rfl
      · exact absurd inside.2 (not_lt.mpr le)
      · exact absurd (later.trans_le (le.trans inside.1)) (lt_irrefl x)

/-! ## Inserting -/

theorem insert (ordered : Ordered lo hi (before ++ after)) (nonempty : lo i < hi i)
    (below : ∀ j ∈ before, hi j ≤ lo i) (above : ∀ j ∈ after, hi i ≤ lo j) :
    Ordered lo hi (before ++ i :: after) := by
  constructor
  · intro j mem
    rw [List.mem_append, List.mem_cons, or_left_comm, ← List.mem_append] at mem
    rcases mem with rfl | old
    · exact nonempty
    · exact ordered.nonempty j old
  · obtain ⟨pairsBefore, pairsAfter, across⟩ := List.pairwise_append.mp ordered.apart
    refine List.pairwise_append.mpr ⟨pairsBefore, List.pairwise_cons.mpr ⟨above, pairsAfter⟩, ?_⟩
    intro j memJ k memK
    rcases List.mem_cons.mp memK with rfl | inAfter
    · exact below j memJ
    · exact across j memJ k inAfter

/-- Where the starts tell on which side of the new interval the others lie. -/
theorem sides (ordered : Ordered lo hi (before ++ after)) (nonempty : lo i < hi i)
    (free : ∀ j ∈ before ++ after, hi j ≤ lo i ∨ hi i ≤ lo j)
    (low : ∀ j ∈ before, lo j ≤ lo i) (high : ∀ j ∈ after, lo i < lo j) :
    (∀ j ∈ before, hi j ≤ lo i) ∧ ∀ j ∈ after, hi i ≤ lo j := by
  constructor
  · intro j mem
    rcases free j (List.mem_append_left _ mem) with le | le
    · exact le
    · exact absurd ((low j mem).trans_lt (nonempty.trans_le le)) (lt_irrefl _)
  · intro j mem
    rcases free j (List.mem_append_right _ mem) with le | le
    · have inside := ordered.nonempty j (List.mem_append_right _ mem)
      exact absurd ((high j mem).trans (inside.trans_le le)) (lt_irrefl _)
    · exact le

/-- The starts up to a bound come first. -/
theorem takeWhile_starts (ordered : Ordered lo hi l) (x : α) :
    (∀ j ∈ l.takeWhile fun j => decide (lo j ≤ x), lo j ≤ x) ∧
      ∀ j ∈ l.dropWhile fun j => decide (lo j ≤ x), x < lo j := by
  induction l with
  | nil => simp
  | cons first rest ih =>
      obtain ⟨_, _, tail⟩ := cons_iff.mp ordered
      by_cases here : lo first ≤ x
      · simpa [here] using ih tail
      · have later := not_le.mp here
        simp only [here, decide_false, Bool.false_eq_true, not_false_eq_true,
          List.takeWhile_cons_of_neg, List.dropWhile_cons_of_neg, List.forall_mem_cons]
        refine ⟨by simp, later, fun j mem => ?_⟩
        exact later.trans (List.rel_of_pairwise_cons ordered.starts mem)

end Ordered

end EdfKernel.Library.Intervals
