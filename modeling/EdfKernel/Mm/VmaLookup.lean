import EdfKernel.Mm.UserAccess

/-!
# Looking areas up

`find_vma` answers from the cache, from the tree or from the list.  All three give the first area
that ends after the address, and so the check of the kernel on user pointers, which looks up one
area after the other, is exact.
-/

namespace EdfKernel.Mm

open Library Library.Intervals

namespace Vm

variable {vm vm' : Vm} {mm : MmPtr} {v w : VmaPtr} {addr start stop fuel : Nat} {write : Bool}

/-- The area of least start among those that end after the address, or none if there is none. -/
def FirstAfter (vm : Vm) (mm : MmPtr) (addr : Nat) : Option VmaPtr → Prop
  | none => ∀ v ∈ vm.areas mm, vm.hi v ≤ addr
  | some v => v ∈ vm.areas mm ∧ addr < vm.hi v ∧
      ∀ w ∈ vm.areas mm, addr < vm.hi w → vm.lo v ≤ vm.lo w

/-- The scan of `find_vma` along the list. -/
def scanVma (vm : Vm) (mm : MmPtr) (addr : Nat) : Option VmaPtr :=
  (vm.mm mm).mmapList.find? fun vma => decide (addr < (vm.vma vma).vmEnd)

theorem VmaSet.firstAfter_scanVma (set : VmaSet vm mm) (addr : Nat) :
    vm.FirstAfter mm addr (vm.scanVma mm addr) := by
  cases found : vm.scanVma mm addr with
  | none => exact Ordered.find_eq_none found
  | some v =>
      obtain ⟨mem, ends, others⟩ := set.ordered.find_eq_some found
      refine ⟨mem, ends, fun w memW endsW => ?_⟩
      rcases others w memW with rfl | before | after
      · exact le_rfl
      · exact absurd endsW (not_lt.mpr before)
      · exact (set.ordered.nonempty v mem).le.trans after

/-- There is one such area at most. -/
theorem VmaSet.firstAfter_unique (set : VmaSet vm mm) {first second : Option VmaPtr}
    (isFirst : vm.FirstAfter mm addr first) (isSecond : vm.FirstAfter mm addr second) :
    first = second := by
  cases first with
  | none =>
      cases second with
      | none => rfl
      | some w => exact absurd isSecond.2.1 (not_lt.mpr (isFirst w isSecond.1))
  | some v =>
      cases second with
      | none => exact absurd isFirst.2.1 (not_lt.mpr (isSecond v isFirst.1))
      | some w =>
          have low := isFirst.2.2 w isSecond.1 isSecond.2.1
          have high := isSecond.2.2 v isFirst.1 isFirst.2.1
          have same := le_antisymm low high
          have insideV := set.ordered.nonempty v isFirst.1
          have insideW := set.ordered.nonempty w isSecond.1
          have inW : vm.lo w ≤ vm.lo v ∧ vm.lo v < vm.hi w :=
            ⟨high, low.trans_lt insideW⟩
          rw [set.ordered.eq_of_common isFirst.1 isSecond.1 ⟨le_rfl, insideV⟩ inW]

/-- The areas that `find_vma_intersection` looks for. -/
def Meets (vm : Vm) (start stop : Nat) (v : VmaPtr) : Prop := vm.lo v < stop ∧ start < vm.hi v

theorem VmaSet.findVmaIntersection_iff (set : VmaSet vm mm) :
    (vm.findVmaIntersection mm start stop).1 ≠ none ↔
      ∃ v ∈ vm.areas mm, vm.Meets start stop v := by
  obtain ⟨found, sets⟩ := set.findVma start
  have first := set.firstAfter_scanVma start
  have scan : (vm.findVma mm start).1 = vm.scanVma mm start := found
  unfold findVmaIntersection
  rcases answer : vm.findVma mm start with ⟨result, vm'⟩
  rw [answer] at scan sets
  simp only at scan sets ⊢
  rw [← scan] at first
  rw [sets.vma]
  cases result with
  | none =>
      simp only [Option.filter_none, ne_eq, not_true_eq_false, false_iff, not_exists, not_and]
      exact fun v mem meets => absurd meets.2 (not_lt.mpr (first v mem))
  | some v =>
      rw [Option.filter_some]
      by_cases begins : stop ≤ vm.lo v
      · have beyond : decide (¬stop ≤ (vm.vma v).vmStart) = false := decide_eq_false (not_not.mpr begins)
        rw [beyond]
        simp only [Bool.false_eq_true, if_false, ne_eq, not_true_eq_false, false_iff, not_exists,
          not_and]
        intro w mem meets
        exact absurd meets.1 (not_lt.mpr (begins.trans (first.2.2 w mem meets.2)))
      · have inside : decide (¬stop ≤ (vm.vma v).vmStart) = true := decide_eq_true begins
        rw [inside]
        simp only [if_true, ne_eq, reduceCtorEq, not_false_eq_true, true_iff]
        exact ⟨v, first.1, not_le.mp begins, first.2.1⟩

/-- The cache, the tree and the list give the same area, the one of least start among those that
end after the address, and `find_vma_intersection` finds an area exactly when there is one. -/
theorem find_vma_agrees (set : VmaSet vm mm) (addr : Nat) :
    vm.FirstAfter mm addr (vm.findVma mm addr).1 ∧
      (∀ v ∈ (vm.mm mm).mmapCache, vm.covers v addr = true → vm.scanVma mm addr = some v) ∧
      (∀ tree ∈ (vm.mm mm).mmapTree, vm.findVmaRb addr tree none = vm.scanVma mm addr) ∧
      vm.FirstAfter mm addr (vm.scanVma mm addr) ∧
      ∀ start stop, start < stop →
        ((vm.findVmaIntersection mm start stop).1 ≠ none ↔
          ∃ v ∈ vm.areas mm, vm.lo v < stop ∧ start < vm.hi v) := by
  have scan := set.firstAfter_scanVma addr
  refine ⟨?_, ?_, ?_, scan, ?_⟩
  · have found : (vm.findVma mm addr).1 = vm.scanVma mm addr := (set.findVma addr).1
    rw [found]
    exact scan
  · intro v cached covers
    exact set.ordered.find_of_mem (set.cache v cached) (of_decide_eq_true covers)
  · intro tree isTree
    have list := set.tree tree isTree
    rw [findVmaRb_eq (by rw [list]; exact set.ordered), list, Option.or_none]
    rfl
  · exact fun start stop _ => set.findVmaIntersection_iff

/-- Two areas in a tree, the second of which is cached. -/
def twoAreas : Vm where
  vma v := ⟨0, userBase + v * (2 * pgSize), userBase + v * (2 * pgSize) + pgSize, vmRead, none, 0⟩
  vmaUsed _ := true
  mm _ := ⟨[1, 2], some (.node false .nil 1 (.node true .nil 2 .nil)), some 2, 2, 0, 1, 0, 0⟩
  mmUsed _ := true
  shmem _ := ⟨0, 0⟩
  shmemUsed _ := false
  grants := []

theorem twoAreas_vmaSet : twoAreas.VmaSet 0 := by
  refine ⟨⟨by decide, by decide⟩, fun v mem => ?_, by decide, rfl, ?_, ?_⟩
  · have either : v = 1 ∨ v = 2 := by simpa [areas, twoAreas] using mem
    unfold UserRange
    rcases either with rfl | rfl
    · decide
    · decide
  · rintro _ ⟨⟩
    rfl
  · rintro _ ⟨⟩
    decide

/-- In the gap between the areas all three look-ups give the second one. -/
theorem find_vma_agrees_twoAreas :
    (twoAreas.findVma 0 (userBase + 3 * pgSize)).1 = some 2 ∧
      ∀ tree ∈ (twoAreas.mm 0).mmapTree,
        twoAreas.findVmaRb (userBase + 3 * pgSize) tree none = some 2 := by
  have agrees := find_vma_agrees twoAreas_vmaSet (userBase + 3 * pgSize)
  have scan : twoAreas.scanVma 0 (userBase + 3 * pgSize) = some 2 := by decide
  rw [scan] at agrees
  exact ⟨twoAreas_vmaSet.firstAfter_unique agrees.1 agrees.2.2.2.1, agrees.2.2.1⟩

/-! ## user_mem_check -/

variable {a len : Nat}

theorem Checked.setsCache (checked : vm.Checked mm write a v) (sets : vm.SetsCache mm vm') :
    vm'.Checked mm write a v := by
  obtain ⟨mem, covers, flag, guard⟩ := checked
  refine ⟨?_, ?_, ?_, ?_⟩
  · rw [sets.areas]
    exact mem
  · rw [lo, hi, sets.vma]
    exact covers
  · rw [sets.vma]
    exact flag
  · rw [sets.vma]
    exact guard

/-- The area that the walk finds ends after the address that it is at. -/
theorem VmaSet.findVma_ends (set : VmaSet vm mm) (found : vm.findVma mm start = (some v, vm')) :
    VmaSet vm' mm ∧ start < (vm'.vma v).vmEnd := by
  obtain ⟨scan, sets⟩ := set.findVma start
  rw [found] at scan sets
  refine ⟨set.setsCache sets, ?_⟩
  rw [sets.vma]
  exact (set.ordered.find_eq_some scan.symm).2.1

/-- The walk of `user_mem_check` passes when every address of the range does. -/
theorem userMemCheckLoop_passes (set : VmaSet vm mm) (enough : stop - start < fuel)
    (all : ∀ a, start ≤ a → a < stop → ∃ v, vm.Checked mm write a v) :
    (userMemCheckLoop mm stop write fuel start vm).1 = some true := by
  induction fuel generalizing start vm with
  | zero => exact absurd enough (Nat.not_lt_zero _)
  | succ fuel ih =>
      rw [userMemCheckLoop]
      by_cases more : start < stop
      · rw [if_pos more]
        obtain ⟨v, checked⟩ := all start le_rfl more
        have first := set.ordered.find_of_mem checked.mem checked.covers
        obtain ⟨scan, sets⟩ := set.findVma start
        rw [first] at scan
        rcases answer : vm.findVma mm start with ⟨found, vm'⟩
        rw [answer] at scan sets
        simp only at scan sets
        subst scan
        have checked' := checked.setsCache sets
        have starts : ¬start < (vm'.vma v).vmStart := not_lt.mpr checked'.covers.1
        have flag : ¬has (vm'.vma v).vmFlags (if write then vmWrite else vmRead) = false := by
          rw [checked'.flag]
          exact Bool.noConfusion
        simp only
        rw [if_neg starts, if_neg flag]
        have unguarded : ¬(write = true ∧ has (vm'.vma v).vmFlags vmStack = true ∧
            start < add32 (vm'.vma v).vmStart pgSize) := by
          rintro ⟨written, stack, low⟩
          have guard := checked'.guard written
          rw [VmaStruct.guarded, stack, decide_eq_true low] at guard
          cases guard
        rw [if_neg unguarded]
        have ends := (set.findVma_ends answer).2
        refine ih (set.setsCache sets) (by omega) fun a low high => ?_
        obtain ⟨w, checkedW⟩ := all a (ends.le.trans low) high
        exact ⟨w, checkedW.setsCache sets⟩
      · rw [if_neg more]

/-- The walk ends by itself: every step goes on behind the area that it has found. -/
theorem userMemCheckLoop_ends {fuel' : Nat} (set : VmaSet vm mm) (enough : stop - start < fuel)
    (enough' : stop - start < fuel') :
    (userMemCheckLoop mm stop write fuel start vm).1 ≠ none ∧
      userMemCheckLoop mm stop write fuel start vm =
        userMemCheckLoop mm stop write fuel' start vm := by
  induction fuel generalizing start fuel' vm with
  | zero => exact absurd enough (Nat.not_lt_zero _)
  | succ fuel ih =>
      cases fuel' with
      | zero => exact absurd enough' (Nat.not_lt_zero _)
      | succ fuel' =>
          rw [userMemCheckLoop, userMemCheckLoop]
          by_cases more : start < stop
          · rw [if_pos more, if_pos more]
            rcases answer : vm.findVma mm start with ⟨found, vm'⟩
            cases found with
            | none => exact ⟨by rintro ⟨⟩, rfl⟩
            | some v =>
                obtain ⟨set', ends⟩ := set.findVma_ends answer
                obtain ⟨some, same⟩ :=
                  ih set' (by omega) (by omega : stop - (vm'.vma v).vmEnd < fuel')
                simp only
                rw [← same]
                refine ⟨?_, rfl⟩
                by_cases starts : start < (vm'.vma v).vmStart
                · rw [if_pos starts]
                  rintro ⟨⟩
                rw [if_neg starts]
                by_cases flag : has (vm'.vma v).vmFlags (if write then vmWrite else vmRead) = false
                · rw [if_pos flag]
                  rintro ⟨⟩
                rw [if_neg flag]
                by_cases guard : write = true ∧ has (vm'.vma v).vmFlags vmStack = true ∧
                    start < add32 (vm'.vma v).vmStart pgSize
                · rw [if_pos guard]
                  rintro ⟨⟩
                rw [if_neg guard]
                exact some
          · rw [if_neg more, if_neg more]
            exact ⟨by rintro ⟨⟩, rfl⟩

/-- An address of a user range passes the tests of the check in an area of the set. -/
theorem VmaSet.checked_iff (set : VmaSet vm mm) :
    vm.Checked mm write a v ↔
      v ∈ vm.areas mm ∧ (vm.lo v ≤ a ∧ a < vm.hi v) ∧
        has (vm.vma v).vmFlags (if write then vmWrite else vmRead) = true ∧
        (write = true → has (vm.vma v).vmFlags vmStack = true → vm.lo v + pgSize ≤ a) := by
  have guard : v ∈ vm.areas mm → ((vm.vma v).guarded a = false ↔
      (has (vm.vma v).vmFlags vmStack = true → vm.lo v + pgSize ≤ a)) := by
    intro mem
    have range := set.range v mem
    have small : add32 (vm.vma v).vmStart pgSize = vm.lo v + pgSize := by
      have top : userTop + pgSize < 2 ^ 32 := by decide
      have below : (vm.vma v).vmStart < userTop := range.2.1.trans_le range.2.2.1
      exact Nat.mod_eq_of_lt (by omega)
    rw [VmaStruct.guarded, small]
    cases has (vm.vma v).vmFlags vmStack with
    | false => simp
    | true => simp
  constructor
  · rintro ⟨mem, covers, flag, unguarded⟩
    exact ⟨mem, covers, flag, fun written => (guard mem).mp (unguarded written)⟩
  · rintro ⟨mem, covers, flag, unguarded⟩
    exact ⟨mem, covers, flag, fun written => (guard mem).mpr (unguarded written)⟩

/-- `user_mem_check` passes exactly the ranges of user memory of which every byte lies in an area
that permits the access and, for writing, outside the first page of a stack; and its loop
terminates. -/
theorem user_mem_check_exact (set : VmaSet vm mm) (addr32 : addr < 2 ^ 32) (len32 : len < 2 ^ 32)
    (write : Bool) :
    ((vm.userMemCheck (some mm) addr len write).1 = true ↔
        0 < len ∧ addr + len < 2 ^ 32 ∧ userBase ≤ addr ∧ addr + len ≤ userTop ∧
          (∀ a, addr ≤ a → a < addr + len → ∃ v ∈ vm.areas mm, vm.lo v ≤ a ∧ a < vm.hi v ∧
            has (vm.vma v).vmFlags (if write then vmWrite else vmRead) = true) ∧
          (write = true → ∀ a, addr ≤ a → a < addr + len → ∀ v ∈ vm.areas mm,
            has (vm.vma v).vmFlags vmStack = true → ¬(vm.lo v ≤ a ∧ a < vm.lo v + pgSize))) ∧
      ∀ fuel, add32 addr len - addr < fuel →
        (userMemCheckLoop mm (add32 addr len) write fuel addr vm).1 ≠ none ∧
          userMemCheckLoop mm (add32 addr len) write fuel addr vm =
            userMemCheckLoop mm (add32 addr len) write (add32 addr len - addr + 1) addr vm := by
  have top : userTop < 2 ^ 32 := by decide
  refine ⟨⟨fun passed => ?_, ?_⟩, fun fuel enough => userMemCheckLoop_ends set enough (by omega)⟩
  · have every := fun a low high => userMemCheck_spec (a := a) set passed low high
    unfold userMemCheck at passed
    simp only at passed
    split at passed
    · rename_i access
      have bounds := of_decide_eq_true access
      -- a sum that wraps around is smaller than its first part
      have exact : add32 addr len = addr + len := by
        unfold add32 at bounds ⊢
        omega
      rw [exact] at bounds every
      refine ⟨by omega, by omega, bounds.1, bounds.2.2, fun a low high => ?_, ?_⟩
      · obtain ⟨v, checked⟩ := every a low high
        exact ⟨v, checked.mem, checked.covers.1, checked.covers.2, checked.flag⟩
      · rintro written a low high v mem stack ⟨starts, first⟩
        obtain ⟨w, checked⟩ := every a low high
        have range := set.range v mem
        have whole : vm.lo v + pgSize ≤ vm.hi v := by
          obtain ⟨_, less, _, alignedLo, alignedHi⟩ := range
          unfold pgSize at *
          omega
        have same := set.ordered.eq_of_common mem checked.mem ⟨starts, by omega⟩ checked.covers
        subst same
        have beyond := (set.checked_iff.mp checked).2.2.2 written stack
        omega
    · cases passed
  · rintro ⟨positive, noWrap, low, high, covered, unguarded⟩
    have exact : add32 addr len = addr + len := Nat.mod_eq_of_lt noWrap
    have access : userAccess addr (addr + len) = true := decide_eq_true ⟨low, by omega, high⟩
    unfold userMemCheck
    simp only
    rw [exact, if_pos access]
    refine beq_iff_eq.mpr (userMemCheckLoop_passes set (by omega) fun a lowA highA => ?_)
    obtain ⟨v, mem, starts, ends, flag⟩ := covered a lowA highA
    refine ⟨v, set.checked_iff.mpr ⟨mem, ⟨starts, ends⟩, flag, fun written stack => ?_⟩⟩
    have notFirst := unguarded written a lowA highA v mem stack
    omega

/-- A word of the second area can be read, and the word across its end cannot. -/
theorem user_mem_check_exact_twoAreas :
    (twoAreas.userMemCheck (some 0) (userBase + 4 * pgSize) 4 false).1 = true ∧
      (twoAreas.userMemCheck (some 0) (userBase + 5 * pgSize - 2) 4 false).1 ≠ true := by
  have inside := @user_mem_check_exact _ _ (userBase + 4 * pgSize) 4 twoAreas_vmaSet (by decide)
    (by decide) false
  have across := @user_mem_check_exact _ _ (userBase + 5 * pgSize - 2) 4 twoAreas_vmaSet
    (by decide) (by decide) false
  refine ⟨inside.1.mpr ⟨by decide, by decide, by decide, by decide, fun a low high => ?_, ?_⟩,
    fun passed => ?_⟩
  · refine ⟨2, by decide, ?_, ?_, by decide⟩
    · exact (by decide : twoAreas.lo 2 ≤ userBase + 4 * pgSize).trans low
    · exact high.trans_le (by decide)
  · rintro ⟨⟩
  · obtain ⟨v, mem, starts, ends, _⟩ :=
      (across.1.mp passed).2.2.2.2.1 (userBase + 5 * pgSize) (by decide) (by decide)
    have either : v = 1 ∨ v = 2 := by simpa [areas, twoAreas] using mem
    rcases either with rfl | rfl
    · exact absurd ends (by decide)
    · exact absurd ends (by decide)

end Vm

end EdfKernel.Mm
