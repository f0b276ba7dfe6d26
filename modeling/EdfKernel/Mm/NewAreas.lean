import EdfKernel.Mm.Lengths

/-!
# The areas of an address space that is being made

The areas of a new address space have been allocated for it.  `mm_map` adds an area in a free
range of the user part, or changes nothing but the cached area; it stops at no assertion, and
`mm_destroy` gives the areas back.
-/

namespace EdfKernel.Mm

open Library Library.Intervals

namespace Vm

variable {vm₀ vm vm' : Vm} {mm : MmPtr} {v w : VmaPtr} {addr len start stop : Nat}
  {flags : BitVec 32}

/-! ## The tree stays balanced -/

theorem insertAll_balanced {l : List VmaPtr} {t t' : RbTree VmaPtr} {n : Nat}
    (balanced : RbTree.Balanced t false n) (inserted : vm.insertAll l t = .ok t') :
    ∃ n', RbTree.Balanced t' false n' := by
  induction l generalizing t n with
  | nil =>
      cases inserted
      exact ⟨n, balanced⟩
  | cons v rest ih =>
      obtain ⟨u, m, one, balanced'⟩ := @RbTree.rbInsert_balanced _ _ vm.vmaCompare v _ balanced
      rw [insertAll, one] at inserted
      exact ih balanced' inserted

theorem buildTree_balanced (balanced : vm.BalancedTree mm) (built : vm.buildTree mm = .ok vm') :
    vm'.BalancedTree mm := by
  unfold buildTree at built
  split at built
  · split at built
    · rename_i vm₁ answer
      obtain ⟨grants, rfl, _⟩ := kmalloc_spec answer
      cases built
      exact balanced
    · rename_i vm₁ answer
      obtain ⟨t, inserted, result⟩ := bind_eq_ok_iff.mp built
      cases result
      intro u isTree
      rw [modifyMm_mm_self] at isTree
      cases isTree
      exact insertAll_balanced .nil inserted
  · cases built
    exact balanced

theorem insertVmaStruct_balanced (balanced : vm.BalancedTree mm)
    (inserted : vm.insertVmaStruct mm v = .ok vm') : vm'.BalancedTree mm := by
  unfold Vm.insertVmaStruct at inserted
  split at inserted
  · obtain ⟨⟨tree, prev⟩, placed, rest⟩ := bind_eq_ok_iff.mp inserted
    have isBalanced : ∀ t ∈ tree, ∃ n, RbTree.Balanced t false n := by
      unfold Vm.insertPlace at placed
      split at placed
      · rename_i t isTree
        obtain ⟨n, before⟩ := balanced t isTree
        obtain ⟨t', n', one, after⟩ := @RbTree.rbInsert_balanced _ _ vm.vmaCompare v _ before
        rw [one] at placed
        cases placed
        rintro _ ⟨⟩
        exact ⟨n', after⟩
      · cases placed
        rintro _ ⟨⟩
    simp only at rest
    split at rest
    · refine buildTree_balanced ?_ rest
      intro t isTree
      rw [modifyMm_mm_self] at isTree
      exact isBalanced t isTree
    · cases rest
  · cases inserted

/-! ## What is allocated -/

/-- The areas of the address space have been allocated since the beginning, and they are all that
has been. -/
structure Fresh (vm₀ vm : Vm) (mm : MmPtr) : Prop where
  set : VmaSet vm mm
  balanced : vm.BalancedTree mm
  vmaUsed : ∀ v, vm.vmaUsed v = true ↔ vm₀.vmaUsed v = true ∨ v ∈ vm.areas mm
  new : ∀ v ∈ vm.areas mm, vm₀.vmaUsed v = false
  mmUsed : vm₀.mmUsed mm = false ∧ vm.mmUsed = Function.update vm₀.mmUsed mm true
  plain : ∀ v ∈ vm.areas mm, has (vm.vma v).vmFlags vmShare = false
  count : (vm.mm mm).mmCount = 0
  shmem : vm.shmem = vm₀.shmem ∧ vm.shmemUsed = vm₀.shmemUsed
  other : ∀ mm', mm' ≠ mm → vm.mm mm' = vm₀.mm mm'
  old : ∀ v, vm₀.vmaUsed v = true → vm.vma v = vm₀.vma v

/-- The areas are those there were. -/
structure SameAreas (vm vm' : Vm) (mm : MmPtr) : Prop where
  areas : vm'.areas mm = vm.areas mm
  vma : vm'.vma = vm.vma
  brkStart : (vm'.mm mm).brkStart = (vm.mm mm).brkStart

/-- There is one more area. -/
structure AddsArea (vm vm' : Vm) (mm : MmPtr) (v : VmaPtr) (start stop : Nat)
    (flags : BitVec 32) : Prop where
  range : UserRange start stop
  apart : ∀ w ∈ vm.areas mm, ¬vm.Meets start stop w
  mem_iff : ∀ w, w ∈ vm'.areas mm ↔ w = v ∨ w ∈ vm.areas mm
  bounds : vm'.lo v = start ∧ vm'.hi v = stop
  isFlags : (vm'.vma v).vmFlags = flags
  vma : ∀ w ∈ vm.areas mm, vm'.vma w = vm.vma w
  brkStart : (vm'.mm mm).brkStart = (vm.mm mm).brkStart

theorem Fresh.setsCache (fresh : Fresh vm₀ vm mm) (sets : vm.SetsCache mm vm') :
    Fresh vm₀ vm' mm ∧ vm.SameAreas vm' mm := by
  have set := fresh.set.setsCache sets
  obtain ⟨cache, _, rfl⟩ := sets
  have areas : (vm.modifyMm mm fun s => { s with mmapCache := cache }).areas mm = vm.areas mm := by
    rw [Vm.areas, modifyMm_mm_self]
    rfl
  refine ⟨⟨set, ?_, ?_, ?_, fresh.mmUsed, ?_, ?_, fresh.shmem, fun mm' other => ?_, fresh.old⟩,
    areas, rfl, ?_⟩
  · unfold BalancedTree
    rw [modifyMm_mm_self]
    exact fresh.balanced
  · rw [areas]
    exact fresh.vmaUsed
  · rw [areas]
    exact fresh.new
  · rw [areas]
    exact fresh.plain
  · rw [modifyMm_mm_self]
    exact fresh.count
  · exact (modifyMm_mm_of_ne _ _ other).trans (fresh.other mm' other)
  · rw [modifyMm_mm_self]

theorem Fresh.withGrants (fresh : Fresh vm₀ vm mm) (grants : List (Option Nat)) :
    Fresh vm₀ { vm with grants := grants } mm :=
  ⟨⟨fresh.set.ordered, fresh.set.range, fresh.set.owned, fresh.set.count, fresh.set.tree,
    fresh.set.cache⟩, fresh.balanced, fresh.vmaUsed, fresh.new, fresh.mmUsed, fresh.plain,
    fresh.count, fresh.shmem, fresh.other, fresh.old⟩

/-- `vma_create` gives out an area, and nothing else. -/
theorem vmaCreate_rest (created : vm.vmaCreate start stop flags = (some v, vm')) :
    vm'.mmUsed = vm.mmUsed ∧ vm'.shmem = vm.shmem ∧ vm'.shmemUsed = vm.shmemUsed := by
  unfold vmaCreate at created
  rcases answer : vm.kmalloc vm.vmaUsed with ⟨found, vm₁⟩
  obtain ⟨grants, rfl, _⟩ := kmalloc_spec answer
  rw [answer] at created
  cases found with
  | none => cases created
  | some w =>
      cases created
      exact ⟨rfl, rfl, rfl⟩

/-- A new area in a free range is linked in. -/
theorem Fresh.insert (fresh : Fresh vm₀ vm mm) (range : UserRange start stop)
    (free : ∀ w ∈ vm.areas mm, ¬vm.Meets start stop w) (plain : has flags vmShare = false)
    (created : vm.vmaCreate start stop flags = (some v, vm')) :
    ∃ vm'', vm'.insertVmaStruct mm v = .ok vm'' ∧ Fresh vm₀ vm'' mm ∧
      vm.AddsArea vm'' mm v start stop flags := by
  have creates := vmaCreate_creates created
  obtain ⟨mmUsed, shmem, shmemUsed⟩ := vmaCreate_rest created
  obtain ⟨_, _, areas, vma⟩ := creates.vmaSet fresh.set
  obtain ⟨set', new, detached⟩ := detached_of_create fresh.set range free created
  have balanced' : vm'.BalancedTree mm := by
    unfold BalancedTree
    rw [creates.mm]
    exact fresh.balanced
  obtain ⟨vm'', inserted⟩ := set'.insertVmaStruct_ok balanced' detached
  obtain ⟨set'', before, after, links⟩ := detached.insert set' inserted
  obtain ⟨used'', mmUsed'', shmem'', shmemUsed''⟩ := links.used
  have keeps := links.keeps
  have mem_iff : ∀ w, w ∈ vm''.areas mm ↔ w = v ∨ w ∈ vm.areas mm := by
    intro w
    rw [links.areas, ← areas, links.list, List.mem_append, List.mem_cons, List.mem_append]
    tauto
  have newFlags : (vm''.vma v).vmFlags = flags := by
    rw [links.vma_self]
    exact creates.flags
  have vma'' : ∀ w, w ≠ v → vm''.vma w = vm.vma w :=
    fun w other => (links.vma_of_ne other).trans (creates.other w other)
  have ne : ∀ w ∈ vm.areas mm, w ≠ v := fun w mem own => new (own ▸ mem)
  have neverUsed : vm₀.vmaUsed v = false := by
    by_contra isUsed
    have used := (fresh.vmaUsed v).mpr (.inl (Bool.not_eq_false _ ▸ isUsed))
    rw [creates.fresh] at used
    cases used
  refine ⟨vm'', inserted,
    ⟨set'', insertVmaStruct_balanced balanced' inserted, fun w => ?_, fun w mem => ?_,
      ⟨fresh.mmUsed.1, ?_⟩, fun w mem => ?_, ?_, ⟨?_, ?_⟩, fun mm' other => ?_, fun w used => ?_⟩,
    ⟨range, free, mem_iff, ⟨?_, ?_⟩, newFlags, fun w mem => vma'' w (ne w mem), ?_⟩⟩
  · rw [used'', creates.used, mem_iff]
    by_cases own : w = v
    · subst own
      simp
    · rw [Function.update_of_ne own, fresh.vmaUsed]
      simp [own]
  · rcases (mem_iff w).mp mem with rfl | old
    · exact neverUsed
    · exact fresh.new w old
  · rw [mmUsed'', mmUsed]
    exact fresh.mmUsed.2
  · rcases (mem_iff w).mp mem with rfl | old
    · rw [newFlags]
      exact plain
    · rw [vma'' w (ne w old)]
      exact fresh.plain w old
  · obtain ⟨tree, grants, _, rfl⟩ := links.eq
    rw [linked_mm, creates.mm]
    exact fresh.count
  · rw [shmem'', shmem]
    exact fresh.shmem.1
  · rw [shmemUsed'', shmemUsed]
    exact fresh.shmem.2
  · rw [keeps.other mm' other, creates.mm]
    exact fresh.other mm' other
  · have other : w ≠ v := by
      rintro rfl
      rw [neverUsed] at used
      cases used
    rw [vma'' w other]
    exact fresh.old w used
  · rw [(links.bounds v).1]
    exact creates.lo
  · rw [(links.bounds v).2]
    exact creates.hi
  · rw [keeps.brkStart, creates.mm]

/-- `mm_map` adds an area, or changes nothing but the cached one; it stops at no assertion. -/
theorem Fresh.mmMap (fresh : Fresh vm₀ vm mm) (addr len : Nat) (flags : BitVec 32) :
    ∃ ret v vm', vm.mmMap mm addr len flags = .ok (ret, v, vm') ∧ Fresh vm₀ vm' mm ∧
      ((ret ≠ 0 ∧ vm.SameAreas vm' mm) ∨
        (ret = 0 ∧ vm.AddsArea vm' mm v (roundDown addr pgSize) (roundUp (add32 addr len) pgSize)
          (flags &&& ~~~vmShare))) := by
  have refl : vm.SameAreas vm mm := ⟨rfl, rfl, rfl⟩
  unfold Vm.mmMap
  simp only
  split
  · rename_i access
    have range := Memory.userRange_of_userAccess access
    revert access range
    generalize roundDown addr pgSize = start
    generalize roundUp (add32 addr len) pgSize = stop
    intro access range
    rcases found : vm.findVma mm start with ⟨first, vm₁⟩
    obtain ⟨sets, meets⟩ := fresh.set.findVma_meets stop found
    simp only
    obtain ⟨fresh₁, same⟩ := fresh.setsCache sets
    split
    · exact ⟨_, _, _, rfl, fresh₁, .inl ⟨by simp [eInval], same⟩⟩
    · rename_i notMeets
      rw [meets] at notMeets
      have free := sets.apart fun w mem here => notMeets ⟨w, mem, here⟩
      have plain := has_and_not flags vmShare
      split
      · rename_i vm₂ created
        obtain ⟨grants, rfl⟩ := vmaCreate_none created
        exact ⟨_, _, _, rfl, fresh₁.withGrants grants, .inl ⟨by simp [eNoMem], same.1, same.2, same.3⟩⟩
      · rename_i w vm₂ created
        obtain ⟨vm₃, inserted, fresh₃, adds⟩ := fresh₁.insert range free plain created
        rw [inserted]
        refine ⟨0, w, vm₃, rfl, fresh₃, .inr ⟨rfl, range, ?_, ?_, adds.bounds, adds.isFlags, ?_, ?_⟩⟩
        · exact fun w mem here => notMeets ⟨w, mem, here⟩
        · intro x
          rw [adds.mem_iff, same.areas]
        · intro x mem
          rw [adds.vma x (by rwa [same.areas]), same.vma]
        · rw [adds.brkStart, same.brkStart]
  · exact ⟨_, _, _, rfl, fresh, .inl ⟨by simp [eInval], refl⟩⟩

/-- The end of the heap is stored. -/
theorem Fresh.setBrk (fresh : Fresh vm₀ vm mm) (brkStart brk : MmStruct → Nat) :
    Fresh vm₀ (vm.modifyMm mm fun s => { s with brkStart := brkStart s, brk := brk s }) mm ∧
      (vm.modifyMm mm fun s => { s with brkStart := brkStart s, brk := brk s }).areas mm =
        vm.areas mm := by
  have areas : (vm.modifyMm mm fun s => { s with brkStart := brkStart s, brk := brk s }).areas mm =
      vm.areas mm := by
    rw [Vm.areas, modifyMm_mm_self]
    rfl
  have set := fresh.set
  refine ⟨⟨⟨?_, ?_, ?_, ?_, ?_, ?_⟩, ?_, ?_, ?_, fresh.mmUsed, ?_, ?_, fresh.shmem,
    fun mm' other => (modifyMm_mm_of_ne _ _ other).trans (fresh.other mm' other), fresh.old⟩, areas⟩
  · rw [areas]
    exact set.ordered
  · rw [areas]
    exact set.range
  · rw [areas]
    exact set.owned
  · rw [areas, modifyMm_mm_self]
    exact set.count
  · rw [areas, modifyMm_mm_self]
    exact set.tree
  · rw [areas, modifyMm_mm_self]
    exact set.cache
  · rw [BalancedTree, modifyMm_mm_self]
    exact fresh.balanced
  · rw [areas]
    exact fresh.vmaUsed
  · rw [areas]
    exact fresh.new
  · rw [areas]
    exact fresh.plain
  · rw [modifyMm_mm_self]
    exact fresh.count

end Vm

namespace Memory

variable {m m' : Memory} {vm₀ : Vm} {mm : MmPtr}

/-! ## mm_create and mm_destroy -/

/-- The structures in use are those that were in use at the beginning, and they are as they
were. -/
structure Restored (vm₀ vm : Vm) : Prop where
  vmaUsed : vm.vmaUsed = vm₀.vmaUsed
  mmUsed : vm.mmUsed = vm₀.mmUsed
  shmem : vm.shmem = vm₀.shmem ∧ vm.shmemUsed = vm₀.shmemUsed
  mm : ∀ mm, vm₀.mmUsed mm = true → vm.mm mm = vm₀.mm mm
  vma : ∀ v, vm₀.vmaUsed v = true → vm.vma v = vm₀.vma v

/-- `mm_create` makes an address space without areas. -/
theorem mmCreate_fresh : (∃ grants, m.mmCreate = (none, { m with vm := { m.vm with grants := grants } })) ∨
    ∃ mm m', m.mmCreate = (some mm, m') ∧ m'.pages = m.pages ∧ Vm.Fresh m.vm m'.vm mm ∧
      m'.vm.areas mm = [] ∧ (m'.vm.mm mm).brkStart = 0 := by
  unfold mmCreate
  rcases answer : m.vm.kmalloc m.vm.mmUsed with ⟨found, vm⟩
  obtain ⟨grants, rfl, notUsed⟩ := Vm.kmalloc_spec answer
  cases found with
  | none => exact .inl ⟨grants, rfl⟩
  | some mm =>
      refine .inr ⟨mm, _, rfl, rfl, ⟨⟨?_, ?_, ?_, ?_, ?_, ?_⟩, ?_, ?_, ?_, ⟨notUsed mm rfl, rfl⟩, ?_,
        ?_, ⟨rfl, rfl⟩, fun mm' other => Function.update_of_ne other .., fun _ _ => rfl⟩, ?_, ?_⟩
      all_goals simp [Vm.areas, Vm.BalancedTree]
      exact .nil

/-- `mm_destroy` gives back areas that are not shared. -/
theorem destroyVmas_plain {l : List VmaPtr}
    (plain : ∀ v ∈ l, has (m.vm.vma v).vmFlags vmShare = false) :
    destroyVmas l m = .ok { m with vm :=
      { m.vm with vmaUsed := fun v => if v ∈ l then false else m.vm.vmaUsed v } } := by
  induction l generalizing m with
  | nil => simp [destroyVmas]
  | cons v rest ih =>
      have gone : m.vmaDestroy v = .ok { m with vm :=
          { m.vm with vmaUsed := Function.update m.vm.vmaUsed v false } } := by
        rw [vmaDestroy, plain v List.mem_cons_self]
        rfl
      rw [destroyVmas, gone]
      simp only [bind, Except.bind]
      rw [@ih { m with vm := { m.vm with vmaUsed := Function.update m.vm.vmaUsed v false } }
        fun w mem => plain w (List.mem_cons_of_mem v mem)]
      have used : (fun w => if w ∈ rest then false else Function.update m.vm.vmaUsed v false w) =
          fun w => if w ∈ v :: rest then false else m.vm.vmaUsed w := by
        funext w
        by_cases own : w = v
        · simp [own]
        · simp [own]
      exact congrArg (fun used => Except.ok { m with vm := { m.vm with vmaUsed := used } }) used

/-- `mm_destroy` gives back the address space and its areas. -/
theorem mmDestroy_restored (fresh : Vm.Fresh vm₀ m.vm mm) :
    ∃ m', m.mmDestroy mm = .ok m' ∧ m'.pages = m.pages ∧ Restored vm₀ m'.vm := by
  have gone := @destroyVmas_plain m (m.vm.areas mm) fresh.plain
  change destroyVmas (m.vm.mm mm).mmapList m = _ at gone
  rw [mmDestroy, if_pos fresh.count, gone]
  refine ⟨_, rfl, rfl, ⟨?_, ?_, fresh.shmem, fun mm' isUsed => ?_, fresh.old⟩⟩
  · funext v
    change (if v ∈ m.vm.areas mm then false else m.vm.vmaUsed v) = vm₀.vmaUsed v
    split
    · rename_i mem
      exact (fresh.new v mem).symm
    · rename_i notMem
      rw [Bool.eq_iff_iff, fresh.vmaUsed v]
      simp [notMem]
  · change Function.update m.vm.mmUsed mm false = vm₀.mmUsed
    rw [fresh.mmUsed.2, Function.update_idem, ← fresh.mmUsed.1, Function.update_eq_self]
  · have other : mm' ≠ mm := by
      rintro rfl
      rw [fresh.mmUsed.1] at isUsed
      cases isUsed
    exact (Function.update_of_ne other ..).trans (fresh.other mm' other)

end Memory

end EdfKernel.Mm
