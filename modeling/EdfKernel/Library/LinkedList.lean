import Mathlib.Data.List.Basic
import Mathlib.Data.List.Nodup

/-!
# Doubly linked lists in a heap

The elements of a list are linked through two fields of the heap, `next` and
`prev`, and a `first` pointer somewhere else.  The pointer of the first element
that leads back is a parameter, so that the rest of a list is again such a list.
-/

namespace EdfKernel.Library.LinkedList

universe u

variable {α : Type u}

/-- The `next` links from `first` on run through the list, and the `prev` links lead
back to `before`. -/
def Linked (next prev : α → Option α) : Option α → List α → Option α → Prop
  | _, [], first => first = none
  | before, a :: rest, first =>
      first = some a ∧ prev a = before ∧ Linked next prev (some a) rest (next a)

namespace Linked

variable {next prev next' prev' : α → Option α} {before first : Option α} {l : List α}

theorem first_eq (linked : Linked next prev before l first) : first = l.head? := by
  cases l with
  | nil => exact linked
  | cons a rest => exact linked.1

/-- Only the links of the elements matter. -/
theorem congr (linked : Linked next prev before l first) (sameNext : ∀ a ∈ l, next' a = next a)
    (samePrev : ∀ a ∈ l, prev' a = prev a) : Linked next' prev' before l first := by
  induction l generalizing before first with
  | nil => exact linked
  | cons a rest ih =>
      obtain ⟨firstEq, prevEq, restLinked⟩ := linked
      refine ⟨firstEq, (samePrev a List.mem_cons_self).trans prevEq, ?_⟩
      rw [sameNext a List.mem_cons_self]
      exact ih restLinked (fun b mem => sameNext b (List.mem_cons_of_mem _ mem))
        fun b mem => samePrev b (List.mem_cons_of_mem _ mem)

/-- The `next` link of an element leads to an element. -/
theorem next_mem (linked : Linked next prev before l first) {a b : α} (mem : a ∈ l)
    (link : next a = some b) : b ∈ l := by
  induction l generalizing before first with
  | nil => contradiction
  | cons c rest ih =>
      obtain ⟨_, _, restLinked⟩ := linked
      rcases List.mem_cons.mp mem with rfl | memRest
      · rw [restLinked.first_eq] at link
        exact List.mem_cons_of_mem _ (List.mem_of_head? link)
      · exact List.mem_cons_of_mem _ (ih restLinked memRest)

/-- The `prev` link of an element leads to `before` or to an element. -/
theorem prev_mem (linked : Linked next prev before l first) {a b : α} (mem : a ∈ l)
    (link : prev a = some b) : before = some b ∨ b ∈ l := by
  induction l generalizing before first with
  | nil => contradiction
  | cons c rest ih =>
      obtain ⟨_, prevEq, restLinked⟩ := linked
      rcases List.mem_cons.mp mem with rfl | memRest
      · exact .inl (prevEq ▸ link)
      · rcases ih restLinked memRest with own | inRest
        · cases own
          exact .inr List.mem_cons_self
        · exact .inr (List.mem_cons_of_mem _ inRest)

/-- Behind an element every `prev` link leads to an element. -/
theorem prev_of_mem {a b : α} (linked : Linked next prev (some a) l first) (mem : b ∈ l) :
    ∃ c ∈ a :: l, prev b = some c := by
  induction l generalizing a first with
  | nil => contradiction
  | cons c rest ih =>
      obtain ⟨_, prevEq, restLinked⟩ := linked
      rcases List.mem_cons.mp mem with rfl | memRest
      · exact ⟨a, List.mem_cons_self, prevEq⟩
      · obtain ⟨d, memD, link⟩ := ih restLinked memRest
        exact ⟨d, List.mem_cons_of_mem _ memD, link⟩

/-- The first element is the one whose `prev` link leads out of the list. -/
theorem first_eq_iff (linked : Linked next prev before l first) (nodup : l.Nodup)
    (outside : ∀ a ∈ l, before ≠ some a) {a : α} (mem : a ∈ l) :
    first = some a ↔ prev a = before := by
  cases l with
  | nil => contradiction
  | cons c rest =>
      obtain ⟨firstEq, prevEq, restLinked⟩ := linked
      rcases List.mem_cons.mp mem with rfl | memRest
      · simp [firstEq, prevEq]
      · obtain ⟨d, memD, link⟩ := restLinked.prev_of_mem memRest
        have ne : c ≠ a := fun eq => (List.nodup_cons.mp nodup).1 (eq ▸ memRest)
        rw [firstEq, link]
        constructor
        · intro eq
          exact absurd (Option.some.inj eq) ne
        · intro eq
          exact absurd eq.symm (outside d memD)

/-- The two links between neighbours agree. -/
theorem next_eq_iff (linked : Linked next prev before l first) (nodup : l.Nodup)
    (outside : ∀ a ∈ l, before ≠ some a) {a b : α} (memA : a ∈ l) (memB : b ∈ l) :
    next a = some b ↔ prev b = some a := by
  induction l generalizing before first with
  | nil => contradiction
  | cons c rest ih =>
      obtain ⟨_, prevEq, restLinked⟩ := linked
      obtain ⟨notMem, nodupRest⟩ := List.nodup_cons.mp nodup
      have outsideRest : ∀ d ∈ rest, some c ≠ some d := by
        rintro d mem eq
        cases eq
        exact notMem mem
      rcases List.mem_cons.mp memB with rfl | restB
      · rw [prevEq]
        constructor
        · intro link
          rcases List.mem_cons.mp memA with rfl | restA
          · rw [restLinked.first_eq] at link
            exact absurd (List.mem_of_head? link) notMem
          · exact absurd (restLinked.next_mem restA link) notMem
        · intro link
          exact absurd link (outside a memA)
      · rcases List.mem_cons.mp memA with rfl | restA
        · exact restLinked.first_eq_iff nodupRest outsideRest restB
        · exact ih restLinked nodupRest outsideRest restA restB

/-- No element is linked to itself. -/
theorem next_ne (linked : Linked next prev before l first) (nodup : l.Nodup) {a : α}
    (mem : a ∈ l) : next a ≠ some a := by
  induction l generalizing before first with
  | nil => contradiction
  | cons c rest ih =>
      obtain ⟨_, _, restLinked⟩ := linked
      obtain ⟨notMem, nodupRest⟩ := List.nodup_cons.mp nodup
      rcases List.mem_cons.mp mem with rfl | inRest
      · intro link
        rw [restLinked.first_eq] at link
        exact notMem (List.mem_of_head? link)
      · exact ih restLinked nodupRest inRest

/-- The first element gets another `prev` link. -/
theorem rehead {a : α} {before' : Option α} {rest : List α}
    (linked : Linked next prev before (a :: rest) first)
    (sameNext : ∀ b ∈ a :: rest, next' b = next b) (newPrev : prev' a = before')
    (samePrev : ∀ b ∈ rest, prev' b = prev b) : Linked next' prev' before' (a :: rest) first := by
  obtain ⟨firstEq, _, restLinked⟩ := linked
  refine ⟨firstEq, newPrev, ?_⟩
  rw [sameNext a List.mem_cons_self]
  exact restLinked.congr (fun b mem => sameNext b (List.mem_cons_of_mem _ mem)) samePrev

variable [DecidableEq α]

/-- A new first element. -/
theorem push {new : α} {before' : Option α} (linked : Linked next prev before l first)
    (nodup : l.Nodup) (newNext : next' new = first) (newPrev : prev' new = before')
    (sameNext : ∀ a ∈ l, next' a = next a)
    (relinked : ∀ a ∈ l, prev' a = if first = some a then some new else prev a) :
    Linked next' prev' before' (new :: l) (some new) := by
  refine ⟨rfl, newPrev, ?_⟩
  rw [newNext]
  cases l with
  | nil => exact linked
  | cons a rest =>
      have notMem := (List.nodup_cons.mp nodup).1
      have firstEq := linked.1
      apply linked.rehead sameNext
      · rw [relinked a List.mem_cons_self, if_pos firstEq]
      · intro b mem
        rw [relinked b (List.mem_cons_of_mem _ mem), if_neg]
        rintro other
        cases firstEq.symm.trans other
        exact notMem mem

/-- An element is unlinked: the links to it become the links from it. -/
theorem erase {p : α} (linked : Linked next prev before l first) (nodup : l.Nodup)
    (mem : p ∈ l) (outside : ∀ a ∈ l, before ≠ some a)
    (relinkedNext : ∀ a ∈ l, a ≠ p → next' a = if next a = some p then next p else next a)
    (relinkedPrev : ∀ a ∈ l, a ≠ p → prev' a = if prev a = some p then prev p else prev a) :
    Linked next' prev' before (l.erase p) (if first = some p then next p else first) := by
  induction l generalizing before first with
  | nil => contradiction
  | cons a rest ih =>
      obtain ⟨firstEq, prevEq, restLinked⟩ := linked
      obtain ⟨notMem, nodupRest⟩ := List.nodup_cons.mp nodup
      by_cases own : a = p
      · subst a
        rw [List.erase_cons_head, if_pos firstEq]
        cases rest with
        | nil => exact restLinked
        | cons b rest =>
            have ne : ∀ c ∈ b :: rest, c ≠ p := fun c memC eq => notMem (eq ▸ memC)
            apply restLinked.rehead
            · intro c memC
              rw [relinkedNext c (List.mem_cons_of_mem _ memC) (ne c memC), if_neg]
              exact fun link => notMem (restLinked.next_mem memC link)
            · have memB : b ∈ p :: b :: rest := List.mem_cons_of_mem _ List.mem_cons_self
              rw [relinkedPrev b memB (ne b List.mem_cons_self), if_pos restLinked.2.1, prevEq]
            · intro c memC
              have memRest : c ∈ b :: rest := List.mem_cons_of_mem _ memC
              rw [relinkedPrev c (List.mem_cons_of_mem _ memRest) (ne c memRest), if_neg]
              intro link
              rcases restLinked.2.2.prev_mem memC link with atB | inRest
              · cases atB
                exact notMem List.mem_cons_self
              · exact notMem (List.mem_cons_of_mem _ inRest)
      · have memRest := (List.mem_cons.mp mem).resolve_left (Ne.symm own)
        have firstNe : first ≠ some p := by
          rw [firstEq]
          simpa using own
        rw [List.erase_cons_tail (by simpa using own), if_neg firstNe]
        refine ⟨firstEq, ?_, ?_⟩
        · rw [relinkedPrev a List.mem_cons_self own, if_neg, prevEq]
          rw [prevEq]
          exact outside p mem
        · rw [relinkedNext a List.mem_cons_self own]
          apply ih restLinked nodupRest memRest
          · rintro b memB eq
            cases eq
            exact notMem memB
          · exact fun b memB => relinkedNext b (List.mem_cons_of_mem _ memB)
          · exact fun b memB => relinkedPrev b (List.mem_cons_of_mem _ memB)

end Linked

end EdfKernel.Library.LinkedList
