import Mathlib.Data.List.Nodup
import Mathlib.Data.List.Perm.Basic
import Mathlib.Order.Basic

/-!
# Lists of differences

A list of keys with times, in order, in which every entry holds only the difference to the
one before it.  `times` gives the times back; the operations on the differences are described
by what they do to the times.
-/

namespace EdfKernel.Library.DeltaList

universe u

variable {κ : Type u}

/-- The times of the entries, counted from `base`. -/
def times : Nat → List (κ × Nat) → List (κ × Nat)
  | _, [] => []
  | base, (key, delta) :: rest => (key, base + delta) :: times (base + delta) rest

/-- A new entry goes behind those that are due no later. -/
def insert (key : κ) : Nat → List (κ × Nat) → List (κ × Nat)
  | delta, [] => [(key, delta)]
  | delta, next :: rest =>
      if delta < next.2 then (key, delta) :: (next.1, next.2 - delta) :: rest
      else next :: insert key (delta - next.2) rest

/-- The entry behind the one that is taken out takes over its difference. -/
def remove [DecidableEq κ] (key : κ) : List (κ × Nat) → List (κ × Nat)
  | [] => []
  | entry :: rest =>
      if entry.1 = key then
        match rest with
        | [] => []
        | next :: rest => (next.1, next.2 + entry.2) :: rest
      else entry :: remove key rest

/-- The entries behind those that are due. -/
def settle : List (κ × Nat) → List (κ × Nat)
  | [] => []
  | entry :: rest => if entry.2 = 0 then settle rest else entry :: rest

/-- Time goes on by one. -/
def ripen : List (κ × Nat) → List (κ × Nat)
  | [] => []
  | entry :: rest => (entry.1, entry.2 - 1) :: rest

variable {base : Nat} {l : List (κ × Nat)} {key : κ} {x : κ × Nat}

theorem times_keys : (times base l).map Prod.fst = l.map Prod.fst := by
  induction l generalizing base with
  | nil => rfl
  | cons entry rest ih => simp [times, ih]

theorem base_le_of_mem_times (mem : x ∈ times base l) : base ≤ x.2 := by
  induction l generalizing base with
  | nil => cases mem
  | cons entry rest ih =>
      rcases List.mem_cons.mp mem with rfl | later
      · exact Nat.le_add_right ..
      · have after := ih later
        omega

/-- Counted from a later moment, the times are later. -/
theorem times_add (more : Nat) :
    times (base + more) l = (times base l).map fun x => (x.1, x.2 + more) := by
  induction l generalizing base with
  | nil => rfl
  | cons entry rest ih =>
      have shift : base + more + entry.2 = base + entry.2 + more := by omega
      rw [times, times, List.map_cons, shift, ih]

/-- A new entry is due when it should be, and the others are due when they were. -/
theorem times_insert (delta : Nat) :
    (times base (insert key delta l)).Perm ((key, base + delta) :: times base l) := by
  induction l generalizing base delta with
  | nil => exact .refl _
  | cons next rest ih =>
      rw [insert]
      split
      · rename_i sooner
        have later : base + delta + (next.2 - delta) = base + next.2 := by omega
        simp [times, later]
      · rename_i later
        have same : base + next.2 + (delta - next.2) = base + delta := by omega
        have rest' : (times (base + next.2) (insert key (delta - next.2) rest)).Perm
            ((key, base + next.2 + (delta - next.2)) :: times (base + next.2) rest) := ih _
        rw [same] at rest'
        exact (rest'.cons _).trans (.swap ..)

theorem times_eq_filter [DecidableEq κ] (missing : key ∉ l.map Prod.fst) :
    (times base l).filter (fun x => decide (x.1 ≠ key)) = times base l := by
  rw [List.filter_eq_self]
  intro x mem
  have there := List.mem_map_of_mem (f := Prod.fst) mem
  rw [times_keys] at there
  simp only [decide_eq_true_eq]
  rintro rfl
  exact missing there

/-- The others are due when they were. -/
theorem times_remove [DecidableEq κ] (nodup : (l.map Prod.fst).Nodup) :
    times base (remove key l) = (times base l).filter fun x => decide (x.1 ≠ key) := by
  induction l generalizing base with
  | nil => rfl
  | cons entry rest ih =>
      rw [List.map_cons, List.nodup_cons] at nodup
      unfold remove
      split
      · rename_i own
        subst own
        have gone : (times base (entry :: rest)).filter (fun x => decide (x.1 ≠ entry.1)) =
            times (base + entry.2) rest := by
          rw [times, List.filter_cons_of_neg (by simp), times_eq_filter nodup.1]
        rw [gone]
        cases rest with
        | nil => rfl
        | cons next rest =>
            simp only
            have merged : base + (next.2 + entry.2) = base + entry.2 + next.2 := by omega
            simp only [times, merged]
      · rename_i other
        rw [times, times, List.filter_cons_of_pos (by simpa using other), ih nodup.2]

/-- What is left are the entries that are not due. -/
theorem times_settle : times 0 (settle l) = (times 0 l).filter fun x => decide (x.2 ≠ 0) := by
  induction l with
  | nil => rfl
  | cons entry rest ih =>
      rw [settle]
      split
      · rename_i due
        rw [times, List.filter_cons_of_neg (by simp [due]), due]
        exact ih
      · rename_i waiting
        symm
        rw [List.filter_eq_self]
        intro x mem
        rcases List.mem_cons.mp mem with rfl | later
        · simpa using waiting
        · have low := base_le_of_mem_times later
          simp only [decide_eq_true_eq]
          omega

/-- When time goes on by one, every entry is due one sooner. -/
theorem times_ripen (waiting : ∀ entry ∈ l.head?, entry.2 ≠ 0) :
    times 0 l = (times 0 (ripen l)).map fun x => (x.1, x.2 + 1) := by
  cases l with
  | nil => rfl
  | cons entry rest =>
      have positive : entry.2 ≠ 0 := waiting entry rfl
      have same : 0 + 1 + (entry.2 - 1) = 0 + entry.2 := by omega
      rw [← times_add, ripen, times, times, same]

end EdfKernel.Library.DeltaList
