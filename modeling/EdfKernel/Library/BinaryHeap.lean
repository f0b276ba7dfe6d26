import Mathlib.Order.Lattice
import Mathlib.Order.Monotone.Basic
import Mathlib.Logic.Equiv.Basic

/-!
# Implicit binary heaps

The order theory of a binary heap stored in an array: positions `0 .. n - 1`
carry keys, the parent of position `i` is `(i - 1) / 2`, and the heap is ordered
when no key is below the key of its parent.  The two repair loops of a heap
exchange a key along one path; `UpTo` and `DownFrom` are what holds while they
run, stated for a bare key function so that any array representation can use
them.
-/

namespace EdfKernel.Library.BinaryHeap

universe u v

variable {κ : Type u} [LinearOrder κ]

/-- Parent position; the root is its own parent. -/
def parent (i : Nat) : Nat := (i - 1) / 2

@[simp]
theorem parent_zero : parent 0 = 0 := rfl

theorem parent_lt {i : Nat} (positive : 0 < i) : parent i < i := by
  unfold parent
  omega

@[simp]
theorem parent_left (i : Nat) : parent (2 * i + 1) = i := by
  unfold parent
  omega

@[simp]
theorem parent_right (i : Nat) : parent (2 * i + 2) = i := by
  unfold parent
  omega

/-- A non-root position is the left or the right child of its parent. -/
theorem eq_left_or_right {i p : Nat} (positive : 0 < i) (parentEq : parent i = p) :
    i = 2 * p + 1 ∨ i = 2 * p + 2 := by
  unfold parent at parentEq
  omega

/-- No key among the first `n` is below the key of its parent. -/
def Ordered (key : Nat → κ) (n : Nat) : Prop :=
  ∀ i, 0 < i → i < n → key (parent i) ≤ key i

instance (key : Nat → κ) (n : Nat) : Decidable (Ordered key n) :=
  decidable_of_iff (∀ i < n, 0 < i → key (parent i) ≤ key i)
    ⟨fun ordered i positive inRange => ordered i inRange positive,
      fun ordered i inRange positive => ordered i positive inRange⟩

/-- The keys are ordered except that the key at `pos` may be below the keys
above it. -/
structure UpTo (key : Nat → κ) (n pos : Nat) : Prop where
  except : ∀ i, 0 < i → i < n → i ≠ pos → key (parent i) ≤ key i
  skip : ∀ i, 0 < i → i < n → parent i = pos → key (parent pos) ≤ key i

/-- The keys are ordered except that the key at `pos` may be above the keys
below it. -/
structure DownFrom (key : Nat → κ) (n pos : Nat) : Prop where
  except : ∀ i, 0 < i → i < n → parent i ≠ pos → key (parent i) ≤ key i
  skip : ∀ i, 0 < i → i < n → parent i = pos → 0 < pos → key (parent pos) ≤ key i

/-- The keys after the entries at two positions are exchanged. -/
def exchange {κ : Type u} (key : Nat → κ) (i j : Nat) : Nat → κ :=
  key ∘ Equiv.swap i j

theorem exchange_left {κ : Type u} (key : Nat → κ) (i j : Nat) : exchange key i j i = key j := by
  simp [exchange]

theorem exchange_right {κ : Type u} (key : Nat → κ) (i j : Nat) : exchange key i j j = key i := by
  simp [exchange]

theorem exchange_of_ne {κ : Type u} (key : Nat → κ) {i j l : Nat} (ne_left : l ≠ i)
    (ne_right : l ≠ j) : exchange key i j l = key l := by
  simp [exchange, Equiv.swap_apply_of_ne_of_ne ne_left ne_right]

namespace Ordered

variable {key : Nat → κ} {n : Nat}

/-- The root of an ordered heap carries a least key. -/
theorem root_le (ordered : Ordered key n) {i : Nat} (inRange : i < n) : key 0 ≤ key i := by
  induction i using Nat.strongRecOn with
  | ind i ih =>
      rcases Nat.eq_zero_or_pos i with rfl | positive
      · exact le_rfl
      · exact (ih (parent i) (parent_lt positive) ((parent_lt positive).trans inRange)).trans
          (ordered i positive inRange)

/-- Dropping positions from the end keeps the order. -/
theorem take (ordered : Ordered key n) {m : Nat} (le : m ≤ n) : Ordered key m :=
  fun i positive inRange => ordered i positive (inRange.trans_le le)

/-- A change of keys that is monotone on the keys in use keeps the order. -/
theorem map {ν : Type v} [LinearOrder ν] (ordered : Ordered key n) {change : κ → ν}
    (mono : ∀ i j, i < n → j < n → key i ≤ key j → change (key i) ≤ change (key j)) :
    Ordered (change ∘ key) n := by
  intro i positive inRange
  exact mono _ _ ((parent_lt positive).trans inRange) inRange (ordered i positive inRange)

/-- Only the keys in use matter. -/
theorem congr (ordered : Ordered key n) {other : Nat → κ} (eq : ∀ i < n, other i = key i) :
    Ordered other n := by
  intro i positive inRange
  rw [eq i inRange, eq _ ((parent_lt positive).trans inRange)]
  exact ordered i positive inRange

/-- A new key at the first free position disturbs the order only above it. -/
theorem push (ordered : Ordered key n) {other : Nat → κ} (eq : ∀ i < n, other i = key i) :
    UpTo other (n + 1) n where
  except i positive inRange ne := by
    have below : i < n := by omega
    rw [eq i below, eq _ ((parent_lt positive).trans below)]
    exact ordered i positive below
  skip i positive inRange parentEq := by
    have above := parent_lt positive
    omega

/-- A new key at the root disturbs the order only below it. -/
theorem replaceRoot (ordered : Ordered key n) {other : Nat → κ}
    (eq : ∀ i, 0 < i → i < n → other i = key i) : DownFrom other n 0 where
  except i positive inRange ne := by
    rw [eq i positive inRange,
      eq _ (Nat.pos_of_ne_zero ne) ((parent_lt positive).trans inRange)]
    exact ordered i positive inRange
  skip _ _ _ _ impossible := absurd impossible (lt_irrefl 0)

end Ordered

namespace UpTo

variable {key : Nat → κ} {n pos : Nat}

/-- The climb may stop where the parent is not above. -/
theorem finish (up : UpTo key n pos) (stop : 0 < pos → key (parent pos) ≤ key pos) :
    Ordered key n := by
  intro i positive inRange
  by_cases atPos : i = pos
  · subst i
    exact stop positive
  · exact up.except i positive inRange atPos

/-- One exchange moves the disturbance to the parent. -/
theorem step (up : UpTo key n pos) (positive : 0 < pos) (inRange : pos < n)
    (above : key pos < key (parent pos)) :
    UpTo (exchange key (parent pos) pos) n (parent pos) := by
  have parentLt := parent_lt positive
  constructor
  · intro i iPositive iRange ne
    by_cases atPos : i = pos
    · subst i
      rw [exchange_left, exchange_right]
      exact above.le
    · rw [exchange_of_ne key ne atPos]
      by_cases parentAtPos : parent i = pos
      · rw [parentAtPos, exchange_right]
        exact up.skip i iPositive iRange parentAtPos
      · by_cases sibling : parent i = parent pos
        · rw [sibling, exchange_left]
          have ordered := up.except i iPositive iRange atPos
          rw [sibling] at ordered
          exact above.le.trans ordered
        · rw [exchange_of_ne key sibling parentAtPos]
          exact up.except i iPositive iRange atPos
  · intro i iPositive iRange parentEq
    rcases Nat.eq_zero_or_pos (parent pos) with atRoot | notRoot
    · rw [atRoot, parent_zero]
      by_cases atPos : i = pos
      · subst i
        rw [← atRoot, exchange_left, exchange_right]
        exact above.le
      · have ne : i ≠ parent pos := by omega
        rw [← atRoot, exchange_left, exchange_of_ne key ne atPos]
        have ordered := up.except i iPositive iRange atPos
        rw [parentEq] at ordered
        exact above.le.trans ordered
    · have grandLt := parent_lt notRoot
      have grandNe : parent (parent pos) ≠ parent pos := by omega
      have grandNePos : parent (parent pos) ≠ pos := by omega
      have grand := up.except (parent pos) notRoot (parentLt.trans inRange) (by omega)
      rw [exchange_of_ne key grandNe grandNePos]
      by_cases atPos : i = pos
      · subst i
        rw [exchange_right]
        exact grand
      · have ne : i ≠ parent pos := by
          have := parent_lt iPositive
          omega
        rw [exchange_of_ne key ne atPos]
        have ordered := up.except i iPositive iRange atPos
        rw [parentEq] at ordered
        exact grand.trans ordered

end UpTo

namespace DownFrom

variable {key : Nat → κ} {n pos : Nat}

/-- The descent may stop where no child is below. -/
theorem finish (down : DownFrom key n pos)
    (stop : ∀ i, 0 < i → i < n → parent i = pos → key pos ≤ key i) : Ordered key n := by
  intro i positive inRange
  by_cases below : parent i = pos
  · rw [below]
    exact stop i positive inRange below
  · exact down.except i positive inRange below

/-- One exchange with a least child moves the disturbance to that child. -/
theorem step (down : DownFrom key n pos) {child : Nat} (childPositive : 0 < child)
    (childRange : child < n) (parentChild : parent child = pos)
    (least : ∀ i, 0 < i → i < n → parent i = pos → key child ≤ key i)
    (below : key child < key pos) :
    DownFrom (exchange key pos child) n child := by
  have posLt : pos < child := parentChild ▸ parent_lt childPositive
  constructor
  · intro i positive inRange ne
    by_cases atChild : i = child
    · subst i
      rw [parentChild, exchange_left, exchange_right]
      exact below.le
    · by_cases atPos : i = pos
      · subst i
        have above := parent_lt positive
        rw [exchange_left, exchange_of_ne key (by omega) (by omega)]
        exact down.skip child childPositive childRange parentChild positive
      · rw [exchange_of_ne key atPos atChild]
        by_cases sibling : parent i = pos
        · rw [sibling, exchange_left]
          exact least i positive inRange sibling
        · rw [exchange_of_ne key sibling ne]
          exact down.except i positive inRange sibling
  · intro i positive inRange parentEq _
    have childLt : child < i := parentEq ▸ parent_lt positive
    have ordered := down.except i positive inRange (by omega)
    rw [parentEq] at ordered
    rw [parentChild, exchange_left, exchange_of_ne key (by omega) (by omega)]
    exact ordered

end DownFrom

end EdfKernel.Library.BinaryHeap
