import EdfKernel.Mm.UnmapWalk

/-!
# Leaving a range of pages

`exit_range` of `pmm.c`.  Its loop is a walk over the entries of the page directory that the range
meets.
-/

namespace EdfKernel.Mm

open Library

namespace Pages

variable {p p' q : Pages} {mm : MmPtr} {a n start stop fuel : Nat} {f : Frame}

/-- What `exit_range` does at an entry of the page directory. -/
def exitTable (mm : MmPtr) (i : Nat) (p : Pages) : Except Panic Pages :=
  match p.table mm i with
  | none => .ok p
  | some f => do
      let p ← p.freePage f
      return { p with
        table := Function.update p.table mm (Function.update (p.table mm) i none)
        pte := p.clearTable mm i }

/-- `n` entries of the page directory from `a` on have been cleared and their page tables freed, and
nothing else has been changed in the tables. -/
structure Exited (p p' : Pages) (mm : MmPtr) (a n : Nat) : Prop where
  table : ∀ mm' i, p'.table mm' i =
    if mm' = mm ∧ a ≤ i ∧ i < a + n then none else p.table mm' i
  lookup : ∀ mm' page, p'.lookup mm' page =
    if mm' = mm ∧ a ≤ page / 1024 ∧ page / 1024 < a + n then .zero else p.lookup mm' page
  shared : ∀ shmem page, p'.pte (.shared shmem page) = p.pte (.shared shmem page)
  free : ∀ f, p'.free f = true ↔
    p.free f = true ∨ ∃ i, a ≤ i ∧ i < a + n ∧ p.table mm i = some f

theorem Exited.none (p : Pages) (mm : MmPtr) (a : Nat) : p.Exited p mm a 0 := by
  refine ⟨fun mm' i => ?_, fun mm' page => ?_, fun _ _ => rfl, fun f => ?_⟩
  · rw [if_neg]
    omega
  · rw [if_neg]
    omega
  · refine (or_iff_left ?_).symm
    rintro ⟨i, low, high, _⟩
    omega

theorem Exited.trans (first : p.Exited q mm a 1) (rest : q.Exited p' mm (a + 1) n) :
    p.Exited p' mm a (n + 1) := by
  have split : ∀ i, (a ≤ i ∧ i < a + (n + 1)) ↔
      (a + 1 ≤ i ∧ i < a + 1 + n) ∨ (a ≤ i ∧ i < a + 1) := fun i => by omega
  refine ⟨fun mm' i => ?_, fun mm' page => ?_, fun shmem page => ?_, fun f => ?_⟩
  · rw [rest.table, first.table]
    by_cases own : mm' = mm
    · by_cases later : a + 1 ≤ i ∧ i < a + 1 + n
      · simp [own, split, later]
      · simp only [own, split, later, true_and, false_or, if_false]
    · simp [own]
  · rw [rest.lookup, first.lookup]
    by_cases own : mm' = mm
    · by_cases later : a + 1 ≤ page / 1024 ∧ page / 1024 < a + 1 + n
      · simp [own, split, later]
      · simp only [own, split, later, true_and, false_or, if_false]
    · simp [own]
  · rw [rest.shared, first.shared]
  · have ahead : ∀ i, a + 1 ≤ i → q.table mm i = p.table mm i := by
      intro i low
      rw [first.table, if_neg]
      omega
    rw [rest.free, first.free, or_assoc]
    refine or_congr_right ⟨?_, ?_⟩
    · rintro (⟨i, low, high, there⟩ | ⟨i, low, high, there⟩)
      · exact ⟨i, low, by omega, there⟩
      · exact ⟨i, by omega, by omega, ahead i low ▸ there⟩
    · rintro ⟨i, low, high, there⟩
      by_cases here : i = a
      · exact .inl ⟨i, low, by omega, there⟩
      · exact .inr ⟨i, by omega, by omega, (ahead i (by omega)).trans there⟩

theorem freePage_ok (taken : p.free f = false) (unreserved : (p.page f).reserved = false) :
    ∃ p', p.freePage f = .ok p' ∧ ∀ g, (p'.page g).reserved = (p.page g).reserved := by
  refine ⟨_, if_neg (by simp [taken, unreserved]), fun g => ?_⟩
  by_cases own : g = f
  · subst own
    simp [modify]
  · simp [modify, own]

/-- The entry is cleared, and its page table is freed if there is one. -/
theorem exitTable_exited (done : exitTable mm a p = .ok p') : p.Exited p' mm a 1 := by
  have one : ∀ i, (a ≤ i ∧ i < a + 1) ↔ i = a := fun i => by omega
  unfold exitTable at done
  split at done
  · rename_i missing
    cases done
    refine ⟨fun mm' i => ?_, fun mm' page => ?_, fun _ _ => rfl, fun f => ?_⟩
    · simp only [one]
      split
      case isTrue own => rw [own.1, own.2, missing]
      case isFalse => rfl
    · simp only [one]
      split
      case isTrue own =>
        rw [lookup, own.1, own.2, missing]
        rfl
      case isFalse => rfl
    · refine (or_iff_left ?_).symm
      rintro ⟨i, low, high, there⟩
      obtain rfl : i = a := by omega
      rw [missing] at there
      cases there
  · rename_i g there
    rcases bind_eq_ok_iff.mp done with ⟨q, freed, result⟩
    cases result
    have tables := freePage_tables freed
    have table := table_of_tables tables
    have pte := pte_of_tables tables
    refine ⟨fun mm' i => ?_, fun mm' page => ?_, fun shmem page => ?_, fun f => ?_⟩
    · simp only [one, table]
      by_cases own : mm' = mm
      · subst own
        by_cases here : i = a
        · simp [here]
        · simp [here]
      · simp [own]
    · simp only [one, lookup, clearTable, table, pte]
      by_cases own : mm' = mm
      · subst own
        by_cases here : page / 1024 = a
        · simp [here]
        · simp [here]
      · simp [own]
    · simp only [clearTable, pte]
    · simp only [freePage_free freed]
      by_cases own : f = g
      · subst own
        simp only [Function.update_self, true_iff]
        exact .inr ⟨a, Nat.le_refl a, Nat.lt_succ_self a, there⟩
      · rw [Function.update_of_ne own]
        refine (or_iff_left ?_).symm
        rintro ⟨i, low, high, there'⟩
        obtain rfl : i = a := by omega
        rw [there] at there'
        exact own (Option.some.inj there').symm

theorem exited_of_walk (done : walk (exitTable mm) a n p = .ok p') : p.Exited p' mm a n := by
  refine Walk.relates (R := fun a n p p' => Exited p p' mm a n) (fun a p => .none p mm a) ?_ done
  intro a n p q p' taken rest
  exact (exitTable_exited taken).trans rest

/-- The loop of `exit_range` comes to its end. -/
theorem exitRange_ends (ok : rangeOk start stop = true) (p : Pages) (mm : MmPtr) :
    DoWhile (fun la => exitTable mm (pdx la)) (fun la _ => add32 la ptSize)
      (fun la _ => la ≠ 0 ∧ la < stop) (roundDown start ptSize) p (p.exitRange mm start stop) := by
  obtain ⟨_, _, _, less, top⟩ := rangeOk_spec ok
  rw [exitRange, if_pos ok]
  refine DoWhile.of_rounds (exitLoop mm stop) (fun la => la < stop)
    (fun la => (stop - 1 - la) / ptSize) (fun fuel la p => ?_)
    (fun la p _ inside more => ⟨more.2, ?_⟩) ?_ ?_
  · rw [exitLoop]
    rfl
  · have next : add32 la ptSize = la + ptSize := by
      unfold add32 ptSize pgSize userTop at *
      omega
    rw [next] at more ⊢
    unfold ptSize pgSize at *
    omega
  · unfold roundDown
    omega
  · unfold ptSize pgSize userTop at *
    omega

/-- The number of entries of the page directory from that of an address up to a bound. -/
def tablesUpTo (start stop : Nat) : Nat := (stop + (ptSize - 1)) / ptSize - start / ptSize

/-- The loop of `exit_range` is a walk over all the entries that the range meets. -/
theorem exitLoop_eq_walk (ok : rangeOk start stop = true) (enough : 1024 ≤ fuel) :
    exitLoop mm stop fuel (roundDown start ptSize) p =
      walk (exitTable mm) (start / ptSize) (tablesUpTo start stop) p := by
  obtain ⟨_, _, _, less, top⟩ := rangeOk_spec ok
  have begins : roundDown start ptSize = start / ptSize * ptSize := by
    unfold roundDown ptSize pgSize
    omega
  rw [begins]
  refine Walk.of_jumps (fun fuel i p => exitLoop mm stop fuel (i * ptSize) p) (fun i _ => i + 1)
    ?_ ?_ ?_ ?_ ?_
  · intro fuel i p below
    have index : pdx (i * ptSize) = i := by
      unfold pdx ptSize pgSize userTop at *
      omega
    have next : add32 (i * ptSize) ptSize = (i + 1) * ptSize := by
      unfold add32 ptSize pgSize userTop at *
      omega
    have more : ((i + 1) * ptSize ≠ 0 ∧ (i + 1) * ptSize < stop) ↔
        i + 1 < (stop + (ptSize - 1)) / ptSize := by
      unfold ptSize pgSize
      omega
    rw [exitLoop, index]
    simp only [next, more]
    rfl
  · exact fun i _ _ => Nat.lt_succ_self i
  · intro i p p' _ _ j after before _
    omega
  · unfold ptSize pgSize
    omega
  · unfold ptSize pgSize userTop at *
    omega

/-- The page tables can be freed: they are taken, and no two of them are in one frame. -/
structure Exitable (p : Pages) (mm : MmPtr) (a n : Nat) : Prop where
  taken : ∀ i, a ≤ i → i < a + n → ∀ f, p.table mm i = some f →
    p.free f = false ∧ (p.page f).reserved = false
  apart : ∀ i j, a ≤ i → i < j → j < a + n → ∀ f, p.table mm i = some f → p.table mm j ≠ some f

theorem Exitable.step (exitable : p.Exitable mm a (n + 1)) :
    ∃ q, exitTable mm a p = .ok q ∧ q.Exitable mm (a + 1) n := by
  unfold exitTable
  cases there : p.table mm a with
  | none =>
      refine ⟨p, rfl, fun i low high => ?_, fun i j low => ?_⟩
      · exact exitable.taken i (by omega) (by omega)
      · exact fun less high => exitable.apart i j (by omega) less (by omega)
  | some f =>
      obtain ⟨taken, unreserved⟩ := exitable.taken a (Nat.le_refl a) (by omega) f there
      rcases freePage_ok taken unreserved with ⟨r, freed, reserved⟩
      have table := table_of_tables (freePage_tables freed)
      have ahead : ∀ i, a + 1 ≤ i → Function.update (r.table mm) a none i = p.table mm i := by
        intro i low
        rw [table, Function.update_of_ne (by omega)]
      refine ⟨_, bind_eq_ok_iff.mpr ⟨r, freed, rfl⟩, fun i low high h there' => ?_,
        fun i j low less high h there' there'' => ?_⟩
      · simp only [Function.update_self, ahead i low] at there'
        have other : h ≠ f := by
          rintro rfl
          exact exitable.apart a i (Nat.le_refl a) (by omega) (by omega) h there there'
        have before := exitable.taken i (by omega) (by omega) h there'
        simp only [freePage_free freed, reserved, Function.update_of_ne other]
        exact before
      · simp only [Function.update_self, ahead i low, ahead j (by omega)] at there' there''
        exact exitable.apart i j (by omega) less (by omega) h there' there''

/-- `exit_range` comes to its end. -/
theorem exitRange_succeeds (ok : rangeOk start stop = true)
    (exitable : p.Exitable mm (start / ptSize) (tablesUpTo start stop)) :
    ∃ p', p.exitRange mm start stop = .ok p' := by
  rw [exitRange, if_pos ok, exitLoop_eq_walk ok (Nat.le_refl _)]
  exact Walk.succeeds (I := fun a n p => Exitable p mm a n) (fun a n p => Exitable.step) exitable

end Pages

end EdfKernel.Mm
