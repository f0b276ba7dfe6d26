import Mathlib.Data.List.Basic
import Mathlib.Logic.Function.Basic
import Mathlib.Tactic.SplitIfs

/-!
# RingBuffer buffers without a count

An array that is written and read around, of which only the two positions are known.  Equal
positions mean an empty ring, so a ring that is written until they meet again forgets what it
held: it is a queue that is emptied when it would become full.
-/

namespace EdfKernel.Library

universe u

/-- A ring: the array and the positions of the next read and of the next write. -/
structure RingBuffer (α : Type u) where
  buf : Nat → α
  rpos : Nat
  wpos : Nat

namespace RingBuffer

variable {α : Type u}

/-- The position after `pos` in an array of `size` elements. -/
def advance (size pos : Nat) : Nat := if pos + 1 = size then 0 else pos + 1

/-- An element is written, whatever the ring holds. -/
def push (size : Nat) (r : RingBuffer α) (x : α) : RingBuffer α :=
  { r with buf := Function.update r.buf r.wpos x, wpos := advance size r.wpos }

/-- An element is read, if the positions differ. -/
def pop (size : Nat) (r : RingBuffer α) : Option α × RingBuffer α :=
  if r.rpos = r.wpos then (none, r)
  else (some (r.buf r.rpos), { r with rpos := advance size r.rpos })

/-- The position `i` places after `pos`. -/
def around (size pos i : Nat) : Nat := if pos + i < size then pos + i else pos + i - size

/-- What a queue becomes that forgets everything when it would have `size` elements. -/
def lossyPush (size : Nat) (q : List α) (x : α) : List α :=
  if q.length + 1 = size then [] else q ++ [x]

/-- The ring holds a queue. -/
structure Holds (size : Nat) (r : RingBuffer α) (q : List α) : Prop where
  start : r.rpos < size
  short : q.length < size
  stop : r.wpos = around size r.rpos q.length
  stored : ∀ i x, q[i]? = some x → r.buf (around size r.rpos i) = x

variable {size pos : Nat} {r : RingBuffer α} {q : List α} {x : α}

theorem around_zero (inside : pos < size) : around size pos 0 = pos := by
  simp [around, inside]

/-- Advancing leads from one place to the next, until the ring is around. -/
theorem advance_around (inside : pos < size) {i : Nat} (short : i < size) :
    advance size (around size pos i) = if i + 1 = size then pos else around size pos (i + 1) := by
  unfold advance around
  split_ifs <;> omega

/-- The places after the next position are those after the one after it. -/
theorem around_advance {i : Nat} (short : i + 1 < size) :
    around size (advance size pos) i = around size pos (i + 1) := by
  unfold advance around
  split_ifs <;> omega

theorem around_ne {i j : Nat} (before : i < j) (short : j < size) :
    around size pos i ≠ around size pos j := by
  unfold around
  split_ifs <;> omega

/-- An empty ring: the positions are equal. -/
theorem holds_nil (inside : r.rpos < size) (empty : r.rpos = r.wpos) : Holds size r [] where
  start := inside
  short := Nat.zero_lt_of_lt inside
  stop := by rw [List.length_nil, around_zero inside, empty]
  stored i x found := by simp at found

/-- A write is a push to the queue that the ring holds. -/
theorem Holds.push (holds : Holds size r q) (x : α) :
    Holds size (r.push size x) (lossyPush size q x) := by
  have next : (r.push size x).wpos =
      if q.length + 1 = size then r.rpos else around size r.rpos (q.length + 1) := by
    change advance size r.wpos = _
    rw [holds.stop, advance_around holds.start holds.short]
  unfold lossyPush
  by_cases full : q.length + 1 = size
  · rw [if_pos full] at next ⊢
    exact holds_nil holds.start next.symm
  · rw [if_neg full] at next ⊢
    have short := holds.short
    have length : (q ++ [x]).length = q.length + 1 := List.length_append ..
    refine ⟨holds.start, by omega, by rw [length]; exact next, ?_⟩
    intro i y found
    change Function.update r.buf r.wpos x (around size r.rpos i) = y
    rcases Nat.lt_or_ge i q.length with old | new
    · rw [List.getElem?_append_left old] at found
      rw [holds.stop, Function.update_of_ne (around_ne old holds.short)]
      exact holds.stored i y found
    · rw [List.getElem?_append_right new] at found
      obtain ⟨rfl, rfl⟩ : i = q.length ∧ x = y := by
        cases offset : i - q.length with
        | zero =>
            rw [offset] at found
            exact ⟨by omega, Option.some.inj found⟩
        | succ more =>
            rw [offset] at found
            simp at found
      rw [holds.stop, Function.update_self]

theorem Holds.pop_nil (holds : Holds size r []) : r.pop size = (none, r) := by
  have stop := holds.stop
  rw [List.length_nil, around_zero holds.start] at stop
  rw [pop, if_pos stop.symm]

/-- A read takes the first element of the queue that the ring holds. -/
theorem Holds.pop_cons (holds : Holds size r (x :: q)) :
    ∃ r', r.pop size = (some x, r') ∧ Holds size r' q := by
  have short := holds.short
  rw [List.length_cons] at short
  have differ : r.rpos ≠ r.wpos := by
    have ne : around size r.rpos 0 ≠ around size r.rpos q.length.succ :=
      around_ne (Nat.succ_pos q.length) short
    rwa [around_zero holds.start, Nat.succ_eq_add_one, ← List.length_cons, ← holds.stop] at ne
  have first : r.buf r.rpos = x := by
    have stored := holds.stored 0 x rfl
    rwa [around_zero holds.start] at stored
  refine ⟨{ r with rpos := advance size r.rpos }, by rw [pop, if_neg differ, first], ?_⟩
  constructor
  · change advance size r.rpos < size
    have start := holds.start
    unfold advance
    split <;> omega
  · omega
  · change r.wpos = around size (advance size r.rpos) q.length
    rw [around_advance short]
    exact holds.stop
  · intro i y found
    change r.buf (around size (advance size r.rpos) i) = y
    have inside : i < q.length := by
      by_contra beyond
      rw [List.getElem?_eq_none (Nat.le_of_not_lt beyond)] at found
      cases found
    rw [around_advance (by omega)]
    exact holds.stored (i + 1) y found

end RingBuffer

end EdfKernel.Library
