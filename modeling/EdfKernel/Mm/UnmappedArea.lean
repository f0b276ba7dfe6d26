import EdfKernel.Mm.Lengths

/-!
# get_unmapped_area

The walk from the last area down keeps the highest start that the areas above leave: no free
range begins above it.
-/

namespace EdfKernel.Mm

open Library Intervals

namespace Vm

variable {vm vm' : Vm} {mm : MmPtr} {len start s t : Nat}

/-- A range of the user part that meets no area. -/
def FreeRange (vm : Vm) (mm : MmPtr) (len start : Nat) : Prop :=
  userBase ≤ start ∧ start + len ≤ userTop ∧ ∀ w ∈ vm.areas mm, ¬vm.Meets start (start + len) w

/-- The highest free range of this length. -/
def HighestFree (vm : Vm) (mm : MmPtr) (len start : Nat) : Prop :=
  vm.FreeRange mm len start ∧ ∀ t, vm.FreeRange mm len t → t ≤ start

/-- The loop of `get_unmapped_area` with sums and differences that have to be numbers of 32
bits. -/
def unmappedLoopExact (vm : Vm) (len : Nat) : List VmaPtr → Nat → Option Nat
  | [], start => some (if userBase ≤ start then start else 0)
  | vma :: rest, start =>
      if (vm.vma vma).vmEnd ≤ start then some start
      else if start + len < 2 ^ 32 then
        if (vm.vma vma).vmStart < start + len then
          if (vm.vma vma).vmStart ≤ len then some 0
          else unmappedLoopExact vm len rest ((vm.vma vma).vmStart - len)
        else unmappedLoopExact vm len rest start
      else none

/-- `get_unmapped_area` with sums and differences that have to be numbers of 32 bits. -/
def getUnmappedAreaExact (vm : Vm) (mm : MmPtr) (len : Nat) : Option Nat :=
  if len = 0 ∨ userTop < len then some 0
  else vm.unmappedLoopExact len (vm.mm mm).mmapList.reverse (userTop - len)

theorem unmappedLoop_exact {list : List VmaPtr} (low : start + len ≤ userTop)
    (below : ∀ w ∈ list, vm.lo w ≤ userTop) :
    vm.unmappedLoopExact len list start = some (vm.unmappedLoop len list start) := by
  have inWord : ∀ {n}, n ≤ userTop → n < 2 ^ 32 := by
    intro n le
    unfold userTop at le
    omega
  induction list generalizing start with
  | nil => rfl
  | cons w rest ih =>
      have here := below w List.mem_cons_self
      have ih' := fun {start} low => @ih start low fun v mem => below v (List.mem_cons_of_mem w mem)
      have sum : add32 start len = start + len := Nat.mod_eq_of_lt (inWord low)
      rw [unmappedLoopExact, unmappedLoop, if_pos (inWord low), sum]
      split
      · rfl
      · split
        · split
          · rfl
          · rename_i fits
            refine ih' ?_
            change vm.lo w - len + len ≤ userTop
            change ¬vm.lo w ≤ len at fits
            omega
        · exact ih' low

/-- All the arithmetic of `get_unmapped_area` stays within 32 bits. -/
theorem VmaSet.getUnmappedArea_exact (set : VmaSet vm mm) (len : Nat) :
    vm.getUnmappedAreaExact mm len = some (vm.getUnmappedArea mm len) := by
  unfold getUnmappedAreaExact getUnmappedArea
  split
  · rfl
  · rename_i fits
    rw [not_or, not_lt] at fits
    refine unmappedLoop_exact (by omega) fun w mem => ?_
    have range := set.range w (List.mem_reverse.mp mem)
    have less : vm.lo w < vm.hi w := range.2.1
    exact less.le.trans range.2.2.1

/-- The walk over the areas below `above`, the ones that it has passed: no free range begins
above `start`, and the range at `start` meets none of these areas. -/
structure Walks (vm : Vm) (mm : MmPtr) (len : Nat) (above list : List VmaPtr) (start : Nat) :
    Prop where
  areas : ∀ w, w ∈ vm.areas mm ↔ w ∈ above ∨ w ∈ list
  order : list.Pairwise fun v w => vm.hi w ≤ vm.lo v
  higher : ∀ t, vm.FreeRange mm len t → t ≤ start
  inside : start + len ≤ userTop
  clear : ∀ w ∈ above, start + len ≤ vm.lo w
  beneath : ∀ v ∈ above, ∀ w ∈ list, vm.hi w ≤ vm.lo v

/-- The next area down is passed. -/
theorem Walks.pass {above rest : List VmaPtr} {w : VmaPtr}
    (walks : vm.Walks mm len above (w :: rest) start) (nonempty : vm.lo w < vm.hi w)
    (higher : ∀ t, vm.FreeRange mm len t → t ≤ s) (inside : s + len ≤ vm.lo w)
    (top : vm.lo w ≤ userTop) : vm.Walks mm len (w :: above) rest s := by
  obtain ⟨first, order⟩ := List.pairwise_cons.mp walks.order
  constructor
  · intro v
    rw [walks.areas, List.mem_cons, List.mem_cons]
    constructor
    · rintro (up | rfl | down)
      · exact .inl (.inr up)
      · exact .inl (.inl rfl)
      · exact .inr down
    · rintro ((rfl | up) | down)
      · exact .inr (.inl rfl)
      · exact .inl up
      · exact .inr (.inr down)
  · exact order
  · exact higher
  · exact inside.trans top
  · intro v mem
    rcases List.mem_cons.mp mem with rfl | up
    · exact inside
    · have := walks.beneath v up w List.mem_cons_self
      omega
  · intro v mem x down
    rcases List.mem_cons.mp mem with rfl | up
    · exact first x down
    · exact walks.beneath v up x (List.mem_cons_of_mem w down)

/-- The walk ends at the highest free range, or there is none. -/
theorem Walks.highest {above list : List VmaPtr} (walks : vm.Walks mm len above list start)
    (range : ∀ w ∈ vm.areas mm, UserRange (vm.lo w) (vm.hi w)) :
    (vm.unmappedLoop len list start = 0 ∧ ∀ t, ¬vm.FreeRange mm len t) ∨
      vm.HighestFree mm len (vm.unmappedLoop len list start) := by
  induction list generalizing above start with
  | nil =>
      unfold unmappedLoop
      split
      · rename_i user
        refine .inr ⟨⟨user, walks.inside, fun w mem meets => ?_⟩, walks.higher⟩
        have up := ((walks.areas w).mp mem).resolve_right List.not_mem_nil
        exact absurd meets.1 (not_lt.mpr (walks.clear w up))
      · rename_i below
        exact .inl ⟨rfl, fun t free => below (free.1.trans (walks.higher t free))⟩
  | cons w rest ih =>
      have mem : w ∈ vm.areas mm := (walks.areas w).mpr (.inr List.mem_cons_self)
      obtain ⟨low, nonempty, high, _⟩ := range w mem
      have top : start + len < 2 ^ 32 := by
        have := walks.inside
        unfold userTop at this
        omega
      have sum : add32 start len = start + len := Nat.mod_eq_of_lt top
      -- a free range does not begin inside the area
      have under : ¬vm.hi w ≤ start → ∀ t, vm.FreeRange mm len t → t + len ≤ vm.lo w := by
        intro within t free
        have apart := free.2.2 w mem
        have le := walks.higher t free
        unfold Meets at apart
        omega
      rw [unmappedLoop, sum]
      change (if vm.hi w ≤ start then start
        else if vm.lo w < start + len then
          if vm.lo w ≤ len then 0 else vm.unmappedLoop len rest (vm.lo w - len)
        else vm.unmappedLoop len rest start) = 0 ∧ _ ∨ vm.HighestFree mm len
        (if vm.hi w ≤ start then start
        else if vm.lo w < start + len then
          if vm.lo w ≤ len then 0 else vm.unmappedLoop len rest (vm.lo w - len)
        else vm.unmappedLoop len rest start)
      split
      · rename_i beyond
        refine .inr ⟨⟨by omega, walks.inside, fun v memV meets => ?_⟩, walks.higher⟩
        rcases (walks.areas v).mp memV with up | here
        · exact absurd meets.1 (not_lt.mpr (walks.clear v up))
        · rcases List.mem_cons.mp here with rfl | down
          · exact absurd meets.2 (not_lt.mpr beyond)
          · have lower := (List.pairwise_cons.mp walks.order).1 v down
            have less := meets.2
            omega
      · rename_i within
        split
        · split
          · rename_i tooLong
            refine .inl ⟨rfl, fun t free => ?_⟩
            have := under within t free
            have := free.1
            unfold userBase at this
            omega
          · rename_i fits
            refine ih (walks.pass nonempty (fun t free => ?_) (by omega) (by omega))
            have := under within t free
            omega
        · rename_i apart
          exact ih (walks.pass nonempty walks.higher (not_lt.mp apart) (by omega))

/-- A length that `get_unmapped_area` rejects, or the walk from the top. -/
theorem VmaSet.getUnmappedArea_highest (set : VmaSet vm mm) (positive : 0 < len) :
    (vm.getUnmappedArea mm len = 0 ∧ ∀ t, ¬vm.FreeRange mm len t) ∨
      vm.HighestFree mm len (vm.getUnmappedArea mm len) := by
  unfold getUnmappedArea
  split
  · rename_i rejected
    refine .inl ⟨rfl, fun t free => ?_⟩
    have := free.2.1
    omega
  · rename_i fits
    rw [not_or, not_lt] at fits
    have walks : vm.Walks mm len [] (vm.areas mm).reverse (userTop - len) := by
      constructor
      · simp
      · exact List.pairwise_reverse.mpr set.ordered.apart
      · intro t free
        have := free.2.1
        omega
      · omega
      · intro w up
        contradiction
      · intro w up
        contradiction
    exact walks.highest set.range

/-- The highest free range of whole pages begins at a page. -/
theorem HighestFree.aligned (highest : vm.HighestFree mm len start) (set : VmaSet vm mm)
    (pages : len % pgSize = 0) : start % pgSize = 0 := by
  by_contra odd
  obtain ⟨⟨low, high, apart⟩, above⟩ := highest
  have more : vm.FreeRange mm len (start + (pgSize - start % pgSize)) := by
    refine ⟨by omega, ?_, fun w mem meets => ?_⟩
    · unfold userTop pgSize at *
      omega
    · have clear := apart w mem
      have range := set.range w mem
      have aligned := range.2.2.2.1
      unfold Meets pgSize at *
      omega
  have le := above _ more
  unfold pgSize at *
  omega

/-- `mm_map` does not reject a free range of whole pages. -/
theorem mmMap_ne_eInval {flags : BitVec 32} {ret : Int} {v : VmaPtr} (set : VmaSet vm mm)
    (positive : 0 < len) (free : vm.FreeRange mm len start) (aligned : start % pgSize = 0)
    (pages : len % pgSize = 0) (mapped : vm.mmMap mm start len flags = .ok (ret, v, vm')) :
    ret ≠ -eInval := by
  obtain ⟨low, high, apart⟩ := free
  have first : roundDown start pgSize = start := Memory.roundDown_of_aligned aligned
  have last : roundUp (add32 start len) pgSize = start + len := by
    unfold roundUp roundDown add32 userTop pgSize at *
    omega
  have access : userAccess start (start + len) = true :=
    decide_eq_true ⟨low, by omega, high⟩
  unfold mmMap at mapped
  simp only [first, last, if_pos access] at mapped
  rcases found : vm.findVma mm start with ⟨firstArea, vm₁⟩
  obtain ⟨_, meets⟩ := set.findVma_meets (start + len) found
  rw [found] at mapped
  simp only at mapped
  rw [if_neg (fun met => by
    obtain ⟨w, mem, here⟩ := meets.mp met
    exact apart w mem here)] at mapped
  split at mapped
  · cases mapped
    decide
  · obtain ⟨_, _, result⟩ := bind_eq_ok_iff.mp mapped
    cases result
    decide

/-- The result is 0 for a length of 0 and where no range of the length is free, and else the start
of the highest one, which `mm_map` does not reject if the length is in whole pages; all sums and
differences stay within 32 bits. -/
theorem getUnmappedArea_spec (set : VmaSet vm mm) (len : Nat) :
    vm.getUnmappedAreaExact mm len = some (vm.getUnmappedArea mm len) ∧
      (len = 0 → vm.getUnmappedArea mm len = 0) ∧
      (0 < len → (vm.getUnmappedArea mm len ≠ 0 ↔ ∃ s, vm.FreeRange mm len s) ∧
        (vm.getUnmappedArea mm len ≠ 0 → vm.HighestFree mm len (vm.getUnmappedArea mm len))) ∧
      (len % pgSize = 0 → vm.getUnmappedArea mm len ≠ 0 → ∀ flags ret v vm',
        vm.mmMap mm (vm.getUnmappedArea mm len) len flags = .ok (ret, v, vm') → ret ≠ -eInval) := by
  have highest : vm.getUnmappedArea mm len ≠ 0 →
      vm.HighestFree mm len (vm.getUnmappedArea mm len) := by
    intro found
    have positive := (set.getUnmappedArea_le found).1
    exact (set.getUnmappedArea_highest (Nat.pos_of_ne_zero positive)).resolve_left
      fun none => found none.1
  refine ⟨set.getUnmappedArea_exact len, ?_, fun positive => ⟨⟨?_, ?_⟩, highest⟩, ?_⟩
  · rintro rfl
    rfl
  · exact fun found => ⟨_, (highest found).1⟩
  · rintro ⟨s, free⟩ none
    rcases set.getUnmappedArea_highest positive with ⟨_, empty⟩ | ⟨⟨low, _⟩, _⟩
    · exact empty s free
    · rw [none] at low
      exact absurd low (by decide)
  · intro pages found flags ret v vm' mapped
    have positive := (set.getUnmappedArea_le found).1
    exact mmMap_ne_eInval set (Nat.pos_of_ne_zero positive) (highest found).1
      ((highest found).aligned set pages) pages mapped

/-- Two areas below the top of the user part, with a page behind each of them. -/
def highAreas : Vm where
  __ := twoAreas
  vma v := ⟨0, userTop - (6 - 2 * v) * pgSize, userTop - (5 - 2 * v) * pgSize, vmRead, none, 0⟩

theorem highAreas_vmaSet : highAreas.VmaSet 0 := by
  refine ⟨⟨by decide, by decide⟩, fun v mem => ?_, by decide, rfl, ?_, ?_⟩
  · have either : v = 1 ∨ v = 2 := by simpa [areas, highAreas, twoAreas] using mem
    unfold UserRange
    rcases either with rfl | rfl
    · decide
    · decide
  · rintro _ ⟨⟩
    rfl
  · rintro _ ⟨⟩
    decide

/-- Two pages fit behind neither of the areas: the walk goes down over both. -/
theorem getUnmappedArea_spec_highAreas :
    highAreas.getUnmappedArea 0 (2 * pgSize) = userTop - 6 * pgSize ∧
      highAreas.HighestFree 0 (2 * pgSize) (userTop - 6 * pgSize) := by
  have found : highAreas.getUnmappedArea 0 (2 * pgSize) = userTop - 6 * pgSize := by decide
  have spec := (getUnmappedArea_spec highAreas_vmaSet (2 * pgSize)).2.2.1 (by decide)
  rw [found] at spec
  exact ⟨found, spec.2 (by decide)⟩

/-- The length 0 is rejected although the empty range is free everywhere. -/
theorem getUnmappedArea_zero :
    ¬∀ (vm : Vm) (mm : MmPtr) (len : Nat), vm.VmaSet mm →
      (vm.getUnmappedArea mm len ≠ 0 ↔ ∃ s, vm.FreeRange mm len s) := by
  intro all
  refine (all Memory.noAreas 0 0 Memory.noAreas_vmaSet).mpr ⟨userBase, le_rfl, by decide, ?_⟩ rfl
  intro w mem
  contradiction

end Vm

end EdfKernel.Mm
