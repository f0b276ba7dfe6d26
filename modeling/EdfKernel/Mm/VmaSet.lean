import EdfKernel.Library.Intervals
import EdfKernel.Library.Run
import EdfKernel.Mm.Vmm

/-!
# The set of areas of an address space

An address space keeps its areas three times: in a list, in a tree when it has one, and one of
them in a cache.  What the functions of `vmm.c` that look one up, link one in or take one out
do to a consistent set.
-/

namespace EdfKernel.Mm

open Library Library.Intervals

namespace Vm

/-- `vma->vm_start`. -/
def lo (vm : Vm) (vma : VmaPtr) : Nat := (vm.vma vma).vmStart

/-- `vma->vm_end`. -/
def hi (vm : Vm) (vma : VmaPtr) : Nat := (vm.vma vma).vmEnd

/-- The areas of an address space, in order. -/
def areas (vm : Vm) (mm : MmPtr) : List VmaPtr := (vm.mm mm).mmapList

/-- A range of pages of the user part of the address space. -/
def UserRange (start stop : Nat) : Prop :=
  userBase ≤ start ∧ start < stop ∧ stop ≤ userTop ∧ start % pgSize = 0 ∧ stop % pgSize = 0

/-- The list of areas is in order, and the tree, the cache and the counter agree with it. -/
structure VmaSet (vm : Vm) (mm : MmPtr) : Prop where
  ordered : Ordered vm.lo vm.hi (vm.areas mm)
  range : ∀ v ∈ vm.areas mm, UserRange (vm.lo v) (vm.hi v)
  owned : ∀ v ∈ vm.areas mm, vm.vmaUsed v = true ∧ (vm.vma v).vmMm = mm
  count : (vm.mm mm).mapCount = (vm.areas mm).length
  tree : ∀ t ∈ (vm.mm mm).mmapTree, t.toList = vm.areas mm
  cache : ∀ v ∈ (vm.mm mm).mmapCache, v ∈ vm.areas mm

variable {vm vm' : Vm} {mm mm' : MmPtr} {v w : VmaPtr} {addr : Nat}

@[simp]
theorem modifyMm_mm_self (vm : Vm) (mm : MmPtr) (change : MmStruct → MmStruct) :
    (vm.modifyMm mm change).mm mm = change (vm.mm mm) :=
  Function.update_self ..

theorem modifyMm_mm_of_ne (vm : Vm) (change : MmStruct → MmStruct) (other : mm' ≠ mm) :
    (vm.modifyMm mm change).mm mm' = vm.mm mm' :=
  Function.update_of_ne other ..

@[simp]
theorem modifyVma_vma_self (vm : Vm) (v : VmaPtr) (change : VmaStruct → VmaStruct) :
    (vm.modifyVma v change).vma v = change (vm.vma v) :=
  Function.update_self ..

theorem modifyVma_vma_of_ne (vm : Vm) (change : VmaStruct → VmaStruct) (other : w ≠ v) :
    (vm.modifyVma v change).vma w = vm.vma w :=
  Function.update_of_ne other ..

@[simp]
theorem modifyVma_mm (vm : Vm) (v : VmaPtr) (change : VmaStruct → VmaStruct) :
    (vm.modifyVma v change).mm = vm.mm :=
  rfl

@[simp]
theorem modifyMm_vma (vm : Vm) (mm : MmPtr) (change : MmStruct → MmStruct) :
    (vm.modifyMm mm change).vma = vm.vma :=
  rfl

/-! ## kmalloc -/

/-- `kmalloc` takes its answer from the list and returns no address in use. -/
theorem kmalloc_spec {used : Nat → Bool} {found : Option Nat}
    (answer : vm.kmalloc used = (found, vm')) :
    ∃ grants, vm' = { vm with grants := grants } ∧ ∀ address ∈ found, used address = false := by
  unfold kmalloc at answer
  split at answer
  · rename_i address rest _
    cases answer
    refine ⟨rest, rfl, ?_⟩
    split
    · simp
    · rename_i free
      simpa using free
  · cases answer
    exact ⟨_, rfl, by simp⟩
  · cases answer
    exact ⟨vm.grants, rfl, by simp⟩

/-! ## find_vma -/

/-- The search in the tree finds what a search along its nodes finds. -/
theorem findVmaRb_eq {t : RbTree VmaPtr} (ordered : Ordered vm.lo vm.hi t.toList)
    (found : Option VmaPtr) :
    vm.findVmaRb addr t found = (t.toList.find? fun v => decide (addr < vm.hi v)).or found := by
  induction t generalizing found with
  | nil => rfl
  | node red left v right ihLeft ihRight =>
      have pairs := List.pairwise_append.mp ordered.apart
      have left' : Ordered vm.lo vm.hi left.toList :=
        ordered.sublist (List.sublist_append_left _ _)
      have right' : Ordered vm.lo vm.hi right.toList :=
        ordered.sublist ((List.sublist_cons_self v _).trans (List.sublist_append_right _ _))
      have before : ∀ w ∈ left.toList, vm.hi w ≤ vm.lo v :=
        fun w mem => pairs.2.2 w mem v List.mem_cons_self
      have inside : vm.lo v < vm.hi v := ordered.nonempty v (by simp [RbTree.toList])
      have none : vm.lo v ≤ addr →
          (left.toList.find? fun v => decide (addr < vm.hi v)) = Option.none := by
        intro le
        rw [List.find?_eq_none]
        intro w mem
        simpa using (before w mem).trans le
      rw [findVmaRb, RbTree.toList, List.find?_append, List.find?_cons]
      change (if vm.hi v > addr then if vm.lo v ≤ addr then some v
        else vm.findVmaRb addr left (some v) else vm.findVmaRb addr right found) = _
      by_cases ends : addr < vm.hi v
      · rw [if_pos ends]
        simp only [ends, decide_true]
        by_cases starts : vm.lo v ≤ addr
        · rw [if_pos starts, none starts]
          rfl
        · rw [if_neg starts, ihLeft left', Option.or_assoc]
          rfl
      · rw [if_neg ends, ihRight right', none (inside.le.trans (not_lt.mp ends))]
        simp [ends]

/-- The cache is set to a member of the set. -/
def SetsCache (vm : Vm) (mm : MmPtr) (vm' : Vm) : Prop :=
  ∃ cache, (∀ v ∈ cache, v ∈ vm.areas mm) ∧ vm' = vm.modifyMm mm fun s => { s with mmapCache := cache }

/-- `find_vma` returns the first area that ends after the address, whichever way it looks
for it. -/
theorem VmaSet.findVma (set : VmaSet vm mm) (addr : Nat) :
    (vm.findVma mm addr).1 = (vm.areas mm).find? (fun v => decide (addr < vm.hi v)) ∧
      vm.SetsCache mm (vm.findVma mm addr).2 := by
  have search : vm.searchVma mm addr =
      (vm.areas mm).find? fun v => decide (addr < vm.hi v) := by
    unfold searchVma
    cases tree : (vm.mm mm).mmapTree with
    | none => rfl
    | some t =>
        have same := set.tree t tree
        simp only
        rw [findVmaRb_eq (by rw [same]; exact set.ordered), same, Option.or_none]
  have found : ((vm.mm mm).mmapCache.filter (vm.covers · addr)).or (vm.searchVma mm addr) =
      (vm.areas mm).find? fun v => decide (addr < vm.hi v) := by
    rw [search]
    cases cached : (vm.mm mm).mmapCache with
    | none => rfl
    | some v =>
        by_cases covers : vm.covers v addr = true
        · simp only [Option.filter, covers, if_true, Option.some_or]
          exact (set.ordered.find_of_mem (set.cache v cached) (of_decide_eq_true covers)).symm
        · simp [Option.filter, covers]
  unfold Vm.findVma
  simp only [found]
  cases first : (vm.areas mm).find? fun v => decide (addr < vm.hi v) with
  | none =>
      refine ⟨rfl, (vm.mm mm).mmapCache, set.cache, ?_⟩
      have same : vm.mm mm = { vm.mm mm with mmapCache := (vm.mm mm).mmapCache } := rfl
      simp [modifyMm]
  | some v =>
      refine ⟨rfl, some v, ?_, rfl⟩
      rintro _ ⟨⟩
      exact (set.ordered.find_eq_some first).1

/-- Only the address space and the fields of its areas matter. -/
theorem VmaSet.congr (set : VmaSet vm mm) {cache : Option VmaPtr}
    (members : ∀ v ∈ cache, v ∈ vm.areas mm)
    (same : vm'.mm mm = { vm.mm mm with mmapCache := cache })
    (vma : ∀ v ∈ vm.areas mm, vm'.vma v = vm.vma v ∧ vm'.vmaUsed v = true) : VmaSet vm' mm := by
  have areas : vm'.areas mm = vm.areas mm := by rw [Vm.areas, same]; rfl
  have bounds : ∀ v ∈ vm.areas mm, vm'.lo v = vm.lo v ∧ vm'.hi v = vm.hi v := by
    intro v mem
    rw [lo, lo, hi, hi, (vma v mem).1]
    exact ⟨rfl, rfl⟩
  constructor
  · rw [areas]
    exact set.ordered.congr bounds
  · intro v mem
    rw [areas] at mem
    rw [(bounds v mem).1, (bounds v mem).2]
    exact set.range v mem
  · intro v mem
    rw [areas] at mem
    rw [(vma v mem).1]
    exact ⟨(vma v mem).2, (set.owned v mem).2⟩
  · rw [areas, same]
    exact set.count
  · rw [areas, same]
    exact set.tree
  · rw [areas, same]
    exact members

theorem VmaSet.setsCache (set : VmaSet vm mm) (sets : vm.SetsCache mm vm') : VmaSet vm' mm := by
  obtain ⟨cache, members, rfl⟩ := sets
  exact set.congr members (modifyMm_mm_self ..) fun v mem => ⟨rfl, (set.owned v mem).1⟩

/-! ## insert_vma_struct -/

/-- Where an area goes among others that it does not overlap. -/
structure Splits (vm : Vm) (v : VmaPtr) (l before after : List VmaPtr) : Prop where
  list : l = before ++ after
  low : ∀ w ∈ before, vm.lo w ≤ vm.lo v
  high : ∀ w ∈ after, vm.lo v < vm.lo w

theorem vmaCompare_gt_iff : vm.vmaCompare w v = .gt ↔ vm.lo v < vm.lo w :=
  compare_gt_iff_gt

/-- `rb_insert` puts an area where its start belongs. -/
theorem rbInsert_splits {t t' : RbTree VmaPtr} (ordered : Ordered vm.lo vm.hi t.toList)
    (inserted : t.rbInsert vm.vmaCompare v = some t') :
    ∃ before after, vm.Splits v t.toList before after ∧ t'.toList = before ++ v :: after := by
  have monotone : t.toList.Pairwise fun a b =>
      vm.vmaCompare a v = .gt → vm.vmaCompare b v = .gt := by
    refine ordered.starts.imp fun {a b} less greater => ?_
    rw [vmaCompare_gt_iff] at greater ⊢
    exact greater.trans less
  obtain ⟨before, after, list, list', low, high⟩ := RbTree.rbInsert_toList monotone inserted
  refine ⟨before, after, ⟨list, fun w mem => ?_, fun w mem => ?_⟩, list'⟩
  · have notGreater := low w mem
    rw [ne_eq, vmaCompare_gt_iff] at notGreater
    exact not_lt.mp notGreater
  · exact vmaCompare_gt_iff.mp (high w mem)

/-- The place of a new area, in the tree and in the list. -/
theorem VmaSet.insertPlace (set : VmaSet vm mm) (new : v ∉ vm.areas mm) :
    vm.insertPlace mm v = .error .rbTree ∨
      ∃ tree before after, vm.insertPlace mm v = .ok (tree, before.getLast?) ∧
        vm.Splits v (vm.areas mm) before after ∧ ∀ t ∈ tree, t.toList = before ++ v :: after := by
  unfold Vm.insertPlace
  cases mmapTree : (vm.mm mm).mmapTree with
  | none =>
      right
      have starts := set.ordered.takeWhile_starts (vm.lo v)
      exact ⟨none, _, _, rfl, ⟨(List.takeWhile_append_dropWhile ..).symm, starts.1, starts.2⟩,
        by simp⟩
  | some t =>
      have same := set.tree t mmapTree
      simp only
      cases inserted : t.rbInsert vm.vmaCompare v with
      | none => exact .inl rfl
      | some t' =>
          right
          obtain ⟨before, after, splits, list'⟩ :=
            rbInsert_splits (same.symm ▸ set.ordered) inserted
          rw [same] at splits
          have nodup : t'.toList.Nodup := by
            rw [list', List.nodup_middle, ← splits.list, List.nodup_cons]
            exact ⟨new, set.ordered.nodup⟩
          refine ⟨some t', before, after, ?_, splits, ?_⟩
          · simp only [RbTree.rbNodePrev_toList list' nodup]
          · rintro _ ⟨⟩
            exact list'

end Vm

section Links

variable {v : VmaPtr} {before after : List VmaPtr}

theorem dropWhile_split (nodup : (before ++ after).Nodup) {node : VmaPtr}
    (last : before.getLast? = some node) :
    (before ++ after).takeWhile (· != node) = before.dropLast ∧
      (before ++ after).dropWhile (· != node) = node :: after := by
  have split : before = before.dropLast ++ [node] := by
    rw [← List.dropLast_append_getLast? node last]
    simp
  have apart : ∀ w ∈ before.dropLast, (w != node) = true := by
    intro w mem
    rw [split, List.append_assoc, List.nodup_append] at nodup
    simpa using nodup.2.2 w mem node List.mem_cons_self
  rw [split, List.append_assoc]
  constructor
  · rw [List.takeWhile_append_of_pos apart]
    simp
  · rw [List.dropWhile_append_of_pos apart]
    simp

/-- `list_next` of the last node of a part of the list is the first node of the rest. -/
theorem listNext_split (nodup : (before ++ after).Nodup) :
    listNext before.getLast? (before ++ after) = after.head? := by
  cases last : before.getLast? with
  | none =>
      rw [List.getLast?_eq_none_iff.mp last]
      rfl
  | some node =>
      rw [listNext, (dropWhile_split nodup last).2]
      rfl

/-- `list_add_after` the last node of a part of the list puts the node between the parts. -/
theorem listAddAfter_split (nodup : (before ++ after).Nodup) :
    listAddAfter before.getLast? v (before ++ after) = before ++ v :: after := by
  cases last : before.getLast? with
  | none =>
      rw [List.getLast?_eq_none_iff.mp last]
      rfl
  | some node =>
      rw [listAddAfter, (dropWhile_split nodup last).1, (dropWhile_split nodup last).2]
      have split := List.dropLast_append_getLast? node last
      rw [List.tail_cons, ← List.singleton_append, ← List.append_assoc, split]

end Links

namespace Vm

variable {vm vm' : Vm} {mm mm' : MmPtr} {v w : VmaPtr} {before after : List VmaPtr}

theorem insertAll_toList {l pre : List VmaPtr} {t t' : RbTree VmaPtr}
    (ordered : Ordered vm.lo vm.hi (pre ++ l)) (list : t.toList = pre)
    (inserted : vm.insertAll l t = .ok t') : t'.toList = pre ++ l := by
  induction l generalizing pre t with
  | nil =>
      cases inserted
      rw [list, List.append_nil]
  | cons v rest ih =>
      rw [insertAll] at inserted
      split at inserted
      · rename_i t'' step
        have prefixed : Ordered vm.lo vm.hi t.toList := by
          rw [list]
          exact ordered.sublist (List.sublist_append_left _ _)
        obtain ⟨before, after, splits, list''⟩ := rbInsert_splits prefixed step
        have none : after = [] := by
          rw [List.eq_nil_iff_forall_not_mem]
          intro w mem
          have inPre : w ∈ pre := by
            rw [← list, splits.list]
            exact List.mem_append_right _ mem
          have earlier := (List.pairwise_append.mp ordered.starts).2.2 w inPre v List.mem_cons_self
          exact absurd (splits.high w mem) (not_lt.mpr earlier.le)
        have pre' : before = pre := by rw [← list, splits.list, none, List.append_nil]
        rw [none, pre'] at list''
        have whole := @ih (pre ++ [v]) _ (by simpa using ordered) list'' inserted
        simpa using whole
      · cases inserted

theorem insertAll_ne_overlap {l : List VmaPtr} {t : RbTree VmaPtr} :
    vm.insertAll l t ≠ .error .vmaOverlap := by
  induction l generalizing t with
  | nil => rintro ⟨⟩
  | cons v rest ih =>
      rw [insertAll]
      split
      · exact ih
      · rintro ⟨⟩

/-- The tree is built from the list, or is what it was. -/
theorem buildTree_spec (ordered : Ordered vm.lo vm.hi (vm.areas mm))
    (tree : ∀ t ∈ (vm.mm mm).mmapTree, t.toList = vm.areas mm) :
    vm.buildTree mm ≠ .error .vmaOverlap ∧ ∀ vm', vm.buildTree mm = .ok vm' →
      ∃ built grants, (∀ t ∈ built, t.toList = vm.areas mm) ∧
        vm' = { vm.modifyMm mm (fun s => { s with mmapTree := built }) with grants := grants } := by
  have unchanged : ∀ grants, { vm with grants := grants } =
      { vm.modifyMm mm (fun s => { s with mmapTree := (vm.mm mm).mmapTree }) with
        grants := grants } := by
    intro grants
    simp [modifyMm]
  unfold buildTree
  split
  · split
    · rename_i vm'' answer
      obtain ⟨grants, after, _⟩ := kmalloc_spec answer
      refine ⟨by rintro ⟨⟩, ?_⟩
      rintro _ ⟨⟩
      exact ⟨_, grants, tree, after.trans (unchanged grants)⟩
    · rename_i address vm'' answer
      obtain ⟨grants, rfl, _⟩ := kmalloc_spec answer
      have whole : ∀ t, Vm.insertAll { vm with grants := grants } (vm.areas mm) .nil = .ok t →
          t.toList = vm.areas mm := fun t inserted =>
        @insertAll_toList { vm with grants := grants } _ [] _ _ ordered rfl inserted
      constructor
      · intro stopped
        rcases bind_eq_error_iff.mp stopped with inLoop | ⟨t, _, impossible⟩
        · exact insertAll_ne_overlap inLoop
        · cases impossible
      · intro vm' built
        obtain ⟨t, inserted, result⟩ := bind_eq_ok_iff.mp built
        cases result
        refine ⟨some t, grants, ?_, rfl⟩
        rintro _ ⟨⟩
        exact whole t inserted
  · refine ⟨by rintro ⟨⟩, ?_⟩
    rintro _ ⟨⟩
    exact ⟨_, vm.grants, tree, unchanged vm.grants⟩

/-- An area is linked into an address space, whose list and tree become those given. -/
def linked (vm : Vm) (mm : MmPtr) (v : VmaPtr) (list : List VmaPtr)
    (tree : Option (RbTree VmaPtr)) (grants : List (Option Nat)) : Vm :=
  { (vm.modifyVma v fun s => { s with vmMm := mm }).modifyMm mm (fun s =>
      { s with mmapList := list, mmapTree := tree, mapCount := s.mapCount + 1 }) with
    grants := grants }

theorem linked_mm (list : List VmaPtr) (tree : Option (RbTree VmaPtr))
    (grants : List (Option Nat)) :
    (vm.linked mm v list tree grants).mm mm =
      { vm.mm mm with mmapList := list, mmapTree := tree, mapCount := (vm.mm mm).mapCount + 1 } :=
  Function.update_self ..

/-- The result of linking an area between two parts of the list. -/
structure Links (vm : Vm) (mm : MmPtr) (v : VmaPtr) (vm' : Vm) (before after : List VmaPtr) :
    Prop where
  list : vm.areas mm = before ++ after
  below : ∀ w ∈ before, vm.hi w ≤ vm.lo v
  above : ∀ w ∈ after, vm.hi v ≤ vm.lo w
  eq : ∃ tree grants, (∀ t ∈ tree, t.toList = before ++ v :: after) ∧
    vm' = vm.linked mm v (before ++ v :: after) tree grants

/-- `insert_vma_struct` does not stop at an overlap for an area that overlaps no other one,
and links it where it belongs. -/
theorem VmaSet.insertVmaStruct (set : VmaSet vm mm) (new : v ∉ vm.areas mm)
    (nonempty : vm.lo v < vm.hi v)
    (free : ∀ w ∈ vm.areas mm, vm.hi w ≤ vm.lo v ∨ vm.hi v ≤ vm.lo w) :
    vm.insertVmaStruct mm v ≠ .error .vmaOverlap ∧
      ∀ vm', vm.insertVmaStruct mm v = .ok vm' → ∃ before after, vm.Links mm v vm' before after := by
  have starts : (vm.vma v).vmStart < (vm.vma v).vmEnd := nonempty
  unfold Vm.insertVmaStruct
  rw [if_pos starts]
  rcases set.insertPlace new with stopped | ⟨tree, before, after, placed, splits, treeList⟩
  · rw [stopped]
    exact ⟨by rintro ⟨⟩, by rintro _ ⟨⟩⟩
  · have ordered := set.ordered
    rw [splits.list] at ordered free
    obtain ⟨below, above⟩ := ordered.sides nonempty free splits.low splits.high
    have whole := ordered.insert nonempty below above
    have list : (vm.mm mm).mmapList = before ++ after := splits.list
    have fits : (∀ q ∈ before.getLast?, vm.checkVmaOverlap q v = true) ∧
        ∀ q ∈ listNext before.getLast? (vm.mm mm).mmapList, vm.checkVmaOverlap v q = true := by
      rw [list, listNext_split ordered.nodup]
      constructor
      · intro q last
        have mem := List.mem_of_getLast? last
        exact decide_eq_true
          ⟨ordered.nonempty q (List.mem_append_left _ mem), below q mem, nonempty⟩
      · intro q first
        have mem := List.mem_of_head? first
        exact decide_eq_true
          ⟨nonempty, above q mem, ordered.nonempty q (List.mem_append_right _ mem)⟩
    rw [placed]
    simp only [bind, Except.bind]
    rw [if_pos fits, list, listAddAfter_split ordered.nodup]
    have there : (Vm.modifyMm (vm.modifyVma v fun s => { s with vmMm := mm }) mm fun s =>
        { s with mmapList := before ++ v :: after, mmapTree := tree, mapCount := s.mapCount + 1 }).areas
          mm = before ++ v :: after := by
      simp [Vm.areas]
    have bounds : ∀ w, (vm.modifyVma v fun s => { s with vmMm := mm }).lo w = vm.lo w ∧
        (vm.modifyVma v fun s => { s with vmMm := mm }).hi w = vm.hi w := by
      intro w
      by_cases own : w = v
      · subst own
        simp [Vm.lo, Vm.hi]
      · simp [Vm.lo, Vm.hi, modifyVma_vma_of_ne _ _ own]
    obtain ⟨noOverlap, builds⟩ := @buildTree_spec
      (Vm.modifyMm (vm.modifyVma v fun s => { s with vmMm := mm }) mm fun s =>
        { s with mmapList := before ++ v :: after, mmapTree := tree, mapCount := s.mapCount + 1 }) mm
      (by rw [there]; exact whole.congr fun w _ => bounds w)
      (by rw [there, modifyMm_mm_self]; exact treeList)
    refine ⟨noOverlap, fun vm' built => ⟨before, after, splits.list, below, above, ?_⟩⟩
    obtain ⟨tree', grants, treeList', rfl⟩ := builds vm' built
    rw [there] at treeList'
    refine ⟨tree', grants, treeList', ?_⟩
    simp [linked, modifyMm]

namespace Links

variable (links : vm.Links mm v vm' before after)
include links

theorem areas : vm'.areas mm = before ++ v :: after := by
  obtain ⟨tree, grants, _, rfl⟩ := links.eq
  rw [Vm.areas, linked_mm]

theorem vma_of_ne (other : w ≠ v) : vm'.vma w = vm.vma w := by
  obtain ⟨tree, grants, _, rfl⟩ := links.eq
  exact Function.update_of_ne other ..

theorem vma_self : vm'.vma v = { vm.vma v with vmMm := mm } := by
  obtain ⟨tree, grants, _, rfl⟩ := links.eq
  exact Function.update_self ..

theorem mm_of_ne (other : mm' ≠ mm) : vm'.mm mm' = vm.mm mm' := by
  obtain ⟨tree, grants, _, rfl⟩ := links.eq
  exact Function.update_of_ne other ..

theorem used : vm'.vmaUsed = vm.vmaUsed ∧ vm'.mmUsed = vm.mmUsed ∧ vm'.shmem = vm.shmem ∧
    vm'.shmemUsed = vm.shmemUsed := by
  obtain ⟨tree, grants, _, rfl⟩ := links.eq
  exact ⟨rfl, rfl, rfl, rfl⟩

theorem bounds (w : VmaPtr) : vm'.lo w = vm.lo w ∧ vm'.hi w = vm.hi w := by
  by_cases own : w = v
  · subst own
    rw [lo, lo, hi, hi, links.vma_self]
    exact ⟨rfl, rfl⟩
  · rw [lo, lo, hi, hi, links.vma_of_ne own]
    exact ⟨rfl, rfl⟩

/-- The set stays consistent. -/
theorem vmaSet (set : VmaSet vm mm) (isUsed : vm.vmaUsed v = true)
    (range : UserRange (vm.lo v) (vm.hi v)) : VmaSet vm' mm := by
  have ordered := set.ordered
  have ranges := set.range
  have owned := set.owned
  have members := set.cache
  have count := set.count
  rw [links.list] at ordered ranges owned members count
  have areas := links.areas
  have mem : ∀ w, w ∈ before ++ v :: after ↔ w = v ∨ w ∈ before ++ after := by
    intro w
    rw [List.mem_append, List.mem_cons, List.mem_append]
    tauto
  constructor
  · rw [areas]
    exact (ordered.insert range.2.1 links.below links.above).congr fun w _ => links.bounds w
  · intro w inList
    rw [areas, mem] at inList
    rw [(links.bounds w).1, (links.bounds w).2]
    rcases inList with rfl | old
    · exact range
    · exact ranges w old
  · intro w inList
    rw [areas, mem] at inList
    rw [links.used.1]
    rcases inList with rfl | old
    · rw [links.vma_self]
      exact ⟨isUsed, rfl⟩
    · refine ⟨(owned w old).1, ?_⟩
      by_cases own : w = v
      · subst own
        rw [links.vma_self]
      · rw [links.vma_of_ne own]
        exact (owned w old).2
  · rw [areas]
    obtain ⟨tree, grants, _, rfl⟩ := links.eq
    rw [linked_mm]
    change (vm.mm mm).mapCount + 1 = _
    rw [count]
    simp only [List.length_append, List.length_cons]
    omega
  · rw [areas]
    obtain ⟨tree, grants, treeList, rfl⟩ := links.eq
    rw [linked_mm]
    exact treeList
  · rw [areas]
    obtain ⟨tree, grants, _, rfl⟩ := links.eq
    rw [linked_mm]
    exact fun w cached => (mem w).mpr (.inr (members w cached))

end Links

/-! ## remove_vma_struct -/

/-- The result of taking an area out of an address space. -/
structure Unlinks (vm : Vm) (mm : MmPtr) (v : VmaPtr) (vm' : Vm) : Prop where
  areas : vm'.areas mm = (vm.areas mm).erase v
  mm_of_ne : ∀ mm', mm' ≠ mm → vm'.mm mm' = vm.mm mm'
  rest : { vm' with mm := vm.mm } = vm

/-- `remove_vma_struct` takes the area out of the list, the tree and the cache. -/
theorem VmaSet.removeVmaStruct (set : VmaSet vm mm) (mem : v ∈ vm.areas mm) :
    vm.removeVmaStruct mm v ≠ .error .vmaOverlap ∧
      ∀ vm', vm.removeVmaStruct mm v = .ok vm' → vm.Unlinks mm v vm' ∧ VmaSet vm' mm := by
  unfold Vm.removeVmaStruct
  rw [if_pos (set.owned v mem).2]
  constructor
  · intro stopped
    rcases bind_eq_error_iff.mp stopped with inTree | ⟨_, _, impossible⟩
    · split at inTree
      · cases inTree
      · split at inTree <;> cases inTree
    · cases impossible
  · intro vm' removed
    obtain ⟨tree, deleted, result⟩ := bind_eq_ok_iff.mp removed
    cases result
    have treeList : ∀ t ∈ tree, t.toList = (vm.areas mm).erase v := by
      split at deleted
      · cases deleted
        rintro _ ⟨⟩
      · rename_i t mmapTree
        have same := set.tree t mmapTree
        split at deleted
        · rename_i t' gone
          cases deleted
          rintro _ ⟨⟩
          obtain ⟨before, after, list, list'⟩ := RbTree.rbDelete_toList gone
          have nodup : (before ++ v :: after).Nodup := by
            rw [← list, same]
            exact set.ordered.nodup
          rw [List.nodup_middle, List.nodup_cons, List.mem_append, not_or] at nodup
          rw [list', ← same, list, List.erase_append_right _ nodup.1.1, List.erase_cons_head]
        · cases deleted
    have areas : (vm.modifyMm mm fun s =>
        { s with
          mmapTree := tree
          mmapList := s.mmapList.erase v
          mmapCache := if s.mmapCache = some v then none else s.mmapCache
          mapCount := s.mapCount - 1 }).areas mm = (vm.areas mm).erase v := by
      rw [Vm.areas, modifyMm_mm_self]
      rfl
    have sub : ∀ w ∈ (vm.areas mm).erase v, w ∈ vm.areas mm := fun w => List.mem_of_mem_erase
    refine ⟨⟨areas, fun mm' other => modifyMm_mm_of_ne _ _ other, rfl⟩, ?_⟩
    constructor
    · rw [areas]
      exact set.ordered.sublist List.erase_sublist
    · rw [areas]
      exact fun w inList => set.range w (sub w inList)
    · rw [areas]
      exact fun w inList => set.owned w (sub w inList)
    · rw [areas, modifyMm_mm_self, List.length_erase_of_mem mem]
      have positive := List.length_pos_of_mem mem
      change (vm.mm mm).mapCount - 1 = _
      rw [set.count]
      omega
    · rw [areas, modifyMm_mm_self]
      exact treeList
    · rw [areas, modifyMm_mm_self]
      intro w cached
      simp only [Option.mem_def] at cached
      split at cached
      · cases cached
      · rename_i other
        have ne : w ≠ v := by
          rintro rfl
          exact other cached
        rw [List.mem_erase_of_ne ne]
        exact set.cache w cached

end Vm

end EdfKernel.Mm
