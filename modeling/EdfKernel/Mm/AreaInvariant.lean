import EdfKernel.Mm.AreaCopies

/-!
# Well-formed address spaces

Every address space in use has a consistent set of areas, and its entries lie within them.  What
works on one address space leaves the others as they are, and page faults, accesses, eviction,
mapping and unmapping keep their own well formed.
-/

namespace EdfKernel.Mm

open Library Library.Intervals

namespace Memory

/-- Every address space is well formed. -/
structure Formed (m : Memory) : Prop where
  backed : m.pages.Backed
  owns : ∀ mm, m.vm.Owns mm
  wellFormed : ∀ mm, m.vm.mmUsed mm = true → m.WellFormed mm

/-- A call that only works on one address space. -/
structure Touches (m m' : Memory) (mm : MmPtr) : Prop where
  spares : ∀ other, other ≠ mm → m.vm.Owns other → m.vm.Spares m'.vm other
  adds : m.pages.Adds m'.pages fun other _ => other = mm

variable {m m' m'' : Memory} {mm other : MmPtr} {addr len : Nat}

theorem Touches.trans (first : m.Touches m' mm) (second : m'.Touches m'' mm) :
    m.Touches m'' mm :=
  ⟨fun other ne owns =>
    (first.spares other ne owns).trans (second.spares other ne ((first.spares other ne owns).owns owns)),
    first.adds.trans second.adds⟩

theorem Touches.refl (backed : m.pages.Backed) : m.Touches m mm :=
  ⟨fun _ _ _ => .refl _ _, .refl backed⟩

theorem Formed.of_touches (formed : m.Formed) (touches : m.Touches m' mm) (owns : m'.vm.Owns mm)
    (own : m'.vm.mmUsed mm = true → m'.WellFormed mm) : m'.Formed := by
  refine ⟨touches.adds.backed, fun other => ?_, fun other used => ?_⟩
  · by_cases isOwn : other = mm
    · rw [isOwn]
      exact owns
    · exact (touches.spares other isOwn (formed.owns other)).owns (formed.owns other)
  · by_cases isOwn : other = mm
    · rw [isOwn] at used ⊢
      exact own used
    · have spares := touches.spares other isOwn (formed.owns other)
      have before := formed.wellFormed other (spares.mmUsed.symm.trans used)
      refine ⟨spares.vmaSet before.set, touches.adds.backed, fun page present => ?_⟩
      rcases touches.adds.entries other page present with there | isMm
      · obtain ⟨lo, flags, here⟩ := before.inside page there
        exact ⟨lo, flags, spares.lies_iff.mpr here⟩
      · exact absurd isMm isOwn

/-- A call that leaves its address space well formed. -/
theorem Formed.of_wellFormed (formed : m.Formed) (touches : m.Touches m' mm)
    (own : m'.WellFormed mm) : m'.Formed :=
  formed.of_touches touches own.set.owned fun _ => own

/-! ## Changes that keep the set of areas -/

end Memory

namespace Vm

variable {vm vm' : Vm} {mm other : MmPtr}

/-- Only fields of the address space have changed that are not about the set of areas, and the
cached area. -/
structure KeepsSet (vm vm' : Vm) (mm : MmPtr) : Prop where
  vma : vm'.vma = vm.vma
  vmaUsed : vm'.vmaUsed = vm.vmaUsed
  mmUsed : vm'.mmUsed = vm.mmUsed
  shmem : vm'.shmem = vm.shmem ∧ vm'.shmemUsed = vm.shmemUsed
  other : ∀ other, other ≠ mm → vm'.mm other = vm.mm other
  areas : vm'.areas mm = vm.areas mm
  tree : (vm'.mm mm).mmapTree = (vm.mm mm).mmapTree
  count : (vm'.mm mm).mapCount = (vm.mm mm).mapCount
  cache : (∀ v ∈ (vm.mm mm).mmapCache, v ∈ vm.areas mm) →
    ∀ v ∈ (vm'.mm mm).mmapCache, v ∈ vm.areas mm

theorem KeepsSet.refl (vm : Vm) (mm : MmPtr) : vm.KeepsSet vm mm :=
  ⟨rfl, rfl, rfl, ⟨rfl, rfl⟩, fun _ _ => rfl, rfl, rfl, rfl, id⟩

theorem KeepsSet.trans {vm'' : Vm} (first : vm.KeepsSet vm' mm) (second : vm'.KeepsSet vm'' mm) :
    vm.KeepsSet vm'' mm := by
  refine ⟨second.vma.trans first.vma, second.vmaUsed.trans first.vmaUsed,
    second.mmUsed.trans first.mmUsed,
    ⟨second.shmem.1.trans first.shmem.1, second.shmem.2.trans first.shmem.2⟩,
    fun other ne => (second.other other ne).trans (first.other other ne),
    second.areas.trans first.areas, second.tree.trans first.tree, second.count.trans first.count,
    fun members => ?_⟩
  have cache := second.cache
  rw [first.areas] at cache
  exact cache (first.cache members)

theorem SetsCache.keepsSet (sets : vm.SetsCache mm vm') : vm.KeepsSet vm' mm := by
  obtain ⟨cache, members, rfl⟩ := sets
  refine ⟨rfl, rfl, rfl, ⟨rfl, rfl⟩, fun other ne => modifyMm_mm_of_ne _ _ ne, ?_, ?_, ?_,
    fun _ => ?_⟩
  · rw [Vm.areas, modifyMm_mm_self]
    rfl
  · rw [modifyMm_mm_self]
  · rw [modifyMm_mm_self]
  · rw [modifyMm_mm_self]
    exact members

theorem modifyMm_keepsSet {change : MmStruct → MmStruct}
    (same : ∀ s, (change s).mmapList = s.mmapList ∧ (change s).mmapTree = s.mmapTree ∧
      (change s).mapCount = s.mapCount ∧ (change s).mmapCache = s.mmapCache) :
    vm.KeepsSet (vm.modifyMm mm change) mm := by
  obtain ⟨list, tree, count, cache⟩ := same (vm.mm mm)
  refine ⟨rfl, rfl, rfl, ⟨rfl, rfl⟩, fun other ne => modifyMm_mm_of_ne _ _ ne, ?_, ?_, ?_,
    fun members => ?_⟩
  · rw [Vm.areas, modifyMm_mm_self]
    exact list
  · rw [modifyMm_mm_self]
    exact tree
  · rw [modifyMm_mm_self]
    exact count
  · rw [modifyMm_mm_self, cache]
    exact members

theorem KeepsSet.spares (keeps : vm.KeepsSet vm' mm) (ne : other ≠ mm) : vm.Spares vm' other :=
  ⟨keeps.other other ne, by rw [keeps.mmUsed],
    fun v _ => ⟨by rw [keeps.vma], by rw [keeps.vmaUsed]⟩⟩

theorem KeepsSet.vmaSet (keeps : vm.KeepsSet vm' mm) (set : VmaSet vm mm) : VmaSet vm' mm := by
  have lo : vm'.lo = vm.lo := by
    funext v
    rw [Vm.lo, Vm.lo, keeps.vma]
  have hi : vm'.hi = vm.hi := by
    funext v
    rw [Vm.hi, Vm.hi, keeps.vma]
  refine ⟨?_, ?_, ?_, ?_, ?_, ?_⟩
  · rw [keeps.areas, lo, hi]
    exact set.ordered
  · rw [keeps.areas, lo, hi]
    exact set.range
  · rw [keeps.areas, keeps.vma, keeps.vmaUsed]
    exact set.owned
  · rw [keeps.areas, keeps.count]
    exact set.count
  · rw [keeps.areas, keeps.tree]
    exact set.tree
  · rw [keeps.areas]
    exact keeps.cache set.cache

end Vm

namespace Memory

variable {m m' m'' : Memory} {mm other : MmPtr} {addr len : Nat}

/-- The set of areas is kept, and entries are added in areas only. -/
theorem Formed.of_keepsSet {new : MmPtr → Nat → Prop} (formed : m.Formed)
    (before : m.WellFormed mm) (keeps : m.vm.KeepsSet m'.vm mm)
    (adds : m.pages.Adds m'.pages new)
    (inside : ∀ other page, new other page → other = mm ∧
      ∃ lo flags, m.vm.Lies mm (page * pgSize) lo flags) : m'.Formed := by
  refine formed.of_wellFormed ⟨fun other ne _ => keeps.spares ne,
    adds.mono fun other page isNew => (inside other page isNew).1⟩
    ⟨keeps.vmaSet before.set, adds.backed, fun page present => ?_⟩
  have lies : ∃ lo flags, m.vm.Lies mm (page * pgSize) lo flags := by
    rcases adds.entries mm page present with there | isNew
    · exact before.inside page there
    · exact (inside mm page isNew).2
  obtain ⟨lo, flags, here⟩ := lies
  exact ⟨lo, flags, (Vm.lies_congr keeps.areas fun w _ => by rw [keeps.vma]).mpr here⟩

/-- No address space exists more than before, and the entries are the same. -/
theorem Formed.of_pages {p : Pages} (formed : m.Formed) (same : p.userTables = m.pages.userTables) :
    ({ m with pages := p } : Memory).Formed := by
  refine ⟨formed.backed.of_userTables same, formed.owns, fun mm used => ?_⟩
  have before := formed.wellFormed mm used
  refine ⟨before.set, formed.backed.of_userTables same, fun page present => ?_⟩
  have pte : p.pte (.user mm page) = m.pages.pte (.user mm page) :=
    congrFun (congrFun (congrArg Prod.snd same) mm) page
  refine before.inside page ?_
  rw [← pte]
  exact present

/-- The set of areas is kept, and no entry is added. -/
theorem Formed.of_keepsSet_nowhere (formed : m.Formed) (before : m.WellFormed mm)
    (keeps : m.vm.KeepsSet m'.vm mm) (adds : m.pages.Adds m'.pages Pages.nowhere) : m'.Formed :=
  formed.of_keepsSet before keeps adds fun _ _ => False.elim

/-! ## Faults and accesses -/

theorem pgfaultResolve_avoids {errorCode : BitVec 32} {s : VmaStruct} :
    Avoids .vmaOverlap (m.pgfaultResolve mm errorCode addr s) := by
  unfold pgfaultResolve
  simp only
  split
  · simp
  · split
    · split
      · split
        · simp
        · exact Pages.pgfaultShared_avoids
      · exact Pages.pgfaultAlloc_avoids
    · exact Pages.pgfaultEntry_avoids

/-- The page of an address of an area is a page of the area. -/
theorem lies_roundDown {vm : Vm} {v : VmaPtr} (set : vm.VmaSet mm) (mem : v ∈ vm.areas mm)
    (from_ : vm.lo v ≤ addr) (upTo : addr < vm.hi v) :
    roundDown addr pgSize < 2 ^ 32 ∧
      vm.Lies mm (roundDown addr pgSize / pgSize * pgSize) (vm.lo v) (vm.vma v).vmFlags := by
  obtain ⟨_, _, top, aligned, _⟩ := set.range v mem
  have below := roundDown_le addr pgSize
  have start : vm.lo v ≤ roundDown addr pgSize := by
    unfold roundDown pgSize at *
    omega
  have page : roundDown addr pgSize / pgSize * pgSize = roundDown addr pgSize :=
    Nat.div_mul_cancel (Nat.dvd_of_mod_eq_zero (roundDown_mod addr))
  rw [page]
  refine ⟨?_, v, mem, rfl, start, by omega, rfl⟩
  unfold userTop at top
  omega

theorem doPgfault_formed {errorCode : BitVec 32} (formed : m.Formed)
    (used : m.vm.mmUsed mm = true) :
    Avoids .vmaOverlap (m.doPgfault (some mm) errorCode addr) ∧
      ∀ result, m.doPgfault (some mm) errorCode addr = .ok result → result.2.Formed := by
  have before := formed.wellFormed mm used
  have set := before.set
  obtain ⟨search, sets⟩ := set.findVma addr
  unfold doPgfault
  simp only
  rcases answer : m.vm.findVma mm addr with ⟨found, vm⟩
  rw [answer] at search sets
  simp only at search sets ⊢
  have keeps := sets.keepsSet
  have same : ({ m with vm := vm } : Memory).Formed :=
    formed.of_keepsSet_nowhere before keeps (.refl formed.backed)
  have denied : Avoids .vmaOverlap (.ok (-eInval, { m with vm := vm }) : Except Panic (Int × Memory)) ∧
      ∀ result : Int × Memory, (.ok (-eInval, { m with vm := vm }) : Except Panic _) = .ok result →
        result.2.Formed := by
    refine ⟨.ok _, fun result done => ?_⟩
    cases done
    exact same
  cases found with
  | none => exact denied
  | some v =>
      simp only
      split
      · exact denied
      · rename_i above
        split
        · exact denied
        · split
          · refine ⟨.bind pgfaultResolve_avoids fun _ _ => .pure _, fun result done => ?_⟩
            obtain ⟨⟨ret, pages⟩, resolved, rest⟩ := bind_eq_ok_iff.mp done
            cases rest
            obtain ⟨mem, ends, _⟩ := set.ordered.find_eq_some search.symm
            change ¬addr < vm.lo v at above
            rw [Vm.lo, sets.vma] at above
            obtain ⟨low, lies⟩ := lies_roundDown set mem (not_lt.mp above) ends
            have adds := @pgfaultResolve_adds { m with vm := vm } _ _ _ _ _ formed.backed low resolved
            refine formed.of_keepsSet before keeps adds ?_
            rintro other page ⟨rfl, rfl⟩
            exact ⟨rfl, _, _, lies⟩
          · exact denied

/-- An entry that is there is overwritten. -/
theorem Formed.write {slot : Slot} (formed : m.Formed) (present : m.pages.pte slot ≠ .zero)
    (entry : Pte) : ({ m with pages := m.pages.writePte slot entry } : Memory).Formed := by
  have adds := Pages.writePte_present_adds formed.backed present entry
  refine ⟨adds.backed, formed.owns, fun mm used => ?_⟩
  have before := formed.wellFormed mm used
  refine ⟨before.set, adds.backed, fun page there => ?_⟩
  rcases adds.entries mm page there with old | impossible
  · exact before.inside page old
  · exact impossible.elim

theorem userLoad_formed (formed : m.Formed) : (m.userLoad mm addr).Formed := by
  unfold userLoad
  split
  · rename_i f perm present
    refine formed.write ?_ _
    rw [present]
    rintro ⟨⟩
  · exact formed

theorem userStore_formed {value : Nat} (formed : m.Formed) :
    (m.userStore mm addr value).Formed := by
  unfold userStore
  split
  · rename_i f perm present
    split
    · have nonzero : m.pages.pte (userSlot mm addr) ≠ .zero := by
        rw [present]
        rintro ⟨⟩
      exact (formed.write nonzero (.present f { perm with accessed := true, dirty := true })).of_pages
        rfl
    · exact formed
  · exact formed

/-! ## Eviction -/

theorem swapOutPte_avoids {v : VmaPtr} : Avoids .vmaOverlap (m.swapOutPte mm v addr) := by
  unfold swapOutPte
  simp only
  split
  · split
    · simp
    · split
      · simp
      · refine .bind Pages.swapOutSlot_avoids fun ⟨entry, p⟩ _ => ?_
        simp only
        split
        · simp
        · refine .bind Pages.swapDuplicate_avoids fun q _ => .bind ?_ fun _ _ => .pure _
          split
          · split
            · simp
            · exact Pages.swapOutShared_avoids
          · simp
  · simp

theorem swapOutPte_keepsSet {v : VmaPtr} {result : Nat × Memory}
    (done : m.swapOutPte mm v addr = .ok result) : m.vm.KeepsSet result.2.vm mm := by
  unfold swapOutPte at done
  simp only at done
  split at done
  · split at done
    · cases done
    · split at done
      · cases done
        exact .refl _ _
      · obtain ⟨⟨entry, p⟩, _, rest⟩ := bind_eq_ok_iff.mp done
        simp only at rest
        split at rest
        · cases rest
          exact .refl _ _
        · obtain ⟨q, _, rest⟩ := bind_eq_ok_iff.mp rest
          obtain ⟨r, _, rest⟩ := bind_eq_ok_iff.mp rest
          cases rest
          have keeps := @Vm.modifyMm_keepsSet m.vm mm
            (fun t => { t with swapAddress := add32 addr pgSize }) fun s => ⟨rfl, rfl, rfl, rfl⟩
          exact keeps
  · cases done
    exact .refl _ _

/-- What eviction from an address space does. -/
structure Evicts (m m' : Memory) (mm : MmPtr) : Prop where
  keeps : m.vm.KeepsSet m'.vm mm
  adds : m.pages.Adds m'.pages Pages.nowhere

theorem Evicts.refl (backed : m.pages.Backed) : m.Evicts m mm :=
  ⟨.refl _ _, .refl backed⟩

theorem Evicts.trans (first : m.Evicts m' mm) (second : m'.Evicts m'' mm) : m.Evicts m'' mm :=
  ⟨first.keeps.trans second.keeps, first.adds.trans second.adds⟩

theorem swapOutLoop_evicts {v : VmaPtr} {stop fuel require count : Nat} (backed : m.pages.Backed) :
    Avoids .vmaOverlap (swapOutLoop mm v stop fuel addr require count m) ∧
      ∀ result, swapOutLoop mm v stop fuel addr require count m = .ok result →
        m.Evicts result.2 mm := by
  induction fuel generalizing addr require count m with
  | zero =>
      refine ⟨by simp [swapOutLoop], fun result done => ?_⟩
      cases done
      exact .refl backed
  | succ fuel ih =>
      unfold swapOutLoop
      split
      · have first : ∀ freed n, (if (m.pages.table mm (pdx addr)).isSome then
            m.swapOutPte mm v addr else .ok (0, m) : Except Panic (Nat × Memory)) =
            .ok (freed, n) → m.Evicts n mm := by
          intro freed n done
          split at done
          · have keeps := swapOutPte_keepsSet done
            have adds := swapOutPte_adds backed done
            exact ⟨keeps, adds⟩
          · cases done
            exact .refl backed
        constructor
        · refine .bind ?_ fun ⟨freed, n⟩ done => ?_
          · split
            · exact swapOutPte_avoids
            · simp
          · exact (ih (first freed n done).adds.backed).1
        · intro result done
          obtain ⟨⟨freed, n⟩, swapped, rest⟩ := bind_eq_ok_iff.mp done
          have before := first freed n swapped
          exact before.trans ((ih before.adds.backed).2 result rest)
      · refine ⟨by simp, fun result done => ?_⟩
        cases done
        exact .refl backed

theorem swapOutVma_evicts {v : VmaPtr} {require : Nat} (backed : m.pages.Backed) :
    Avoids .vmaOverlap (m.swapOutVma mm v addr require) ∧
      ∀ result, m.swapOutVma mm v addr require = .ok result → m.Evicts result.2 mm := by
  unfold swapOutVma
  simp only
  split
  · refine ⟨by simp, fun result done => ?_⟩
    cases done
    exact .refl backed
  · exact swapOutLoop_evicts backed

theorem swapOutVmas_evicts {v : VmaPtr} {fuel require count : Nat} (backed : m.pages.Backed) :
    Avoids .vmaOverlap (swapOutVmas mm fuel v addr require count m) ∧
      ∀ result, swapOutVmas mm fuel v addr require count m = .ok result → m.Evicts result.2 mm := by
  induction fuel generalizing v addr require count m with
  | zero =>
      refine ⟨by simp [swapOutVmas], fun result done => ?_⟩
      cases done
      exact .refl backed
  | succ fuel ih =>
      obtain ⟨avoids, evicts⟩ := @swapOutVma_evicts m mm addr v require backed
      unfold swapOutVmas
      constructor
      · refine .bind avoids fun ⟨freed, n⟩ done => ?_
        simp only
        split
        · simp
        · split
          · simp
          · exact (ih (evicts _ done).adds.backed).1
      · intro result done
        obtain ⟨⟨freed, n⟩, swapped, rest⟩ := bind_eq_ok_iff.mp done
        have before := evicts _ swapped
        simp only at rest
        split at rest
        · cases rest
          exact before
        · split at rest
          · cases rest
            exact before
          · exact before.trans ((ih before.adds.backed).2 result rest)

theorem swapOutMm_evicts {require : Nat} (formed : m.WellFormed mm) :
    Avoids .vmaOverlap (m.swapOutMm mm require) ∧
      ∀ result, m.swapOutMm mm require = .ok result → m.Evicts result.2 mm := by
  obtain ⟨_, sets⟩ := formed.set.findVma (m.vm.mm mm).swapAddress
  unfold swapOutMm
  split
  · refine ⟨by simp, fun result done => ?_⟩
    cases done
    exact .refl formed.backed
  · rcases answer : m.vm.findVma mm (m.vm.mm mm).swapAddress with ⟨found, vm⟩
    rw [answer] at sets
    simp only at sets ⊢
    have keeps := sets.keepsSet
    cases found with
    | some v =>
        simp only
        split
        · obtain ⟨avoids, evicts⟩ := @swapOutVmas_evicts { m with vm := vm } mm
            (max (vm.mm mm).swapAddress (vm.vma v).vmStart) v ((vm.mm mm).mapCount.toNat + 1)
            require 0 formed.backed
          refine ⟨avoids, fun result done => ?_⟩
          have after := evicts result done
          exact ⟨keeps.trans after.keeps, after.adds⟩
        · exact ⟨by simp, by rintro _ ⟨⟩⟩
    | none =>
        simp only
        split
        · exact ⟨by simp, by rintro _ ⟨⟩⟩
        · rename_i v rest _
          have reset := @Vm.modifyMm_keepsSet vm mm (fun s => { s with swapAddress := 0 })
            fun s => ⟨rfl, rfl, rfl, rfl⟩
          obtain ⟨avoids, evicts⟩ := @swapOutVmas_evicts
            { m with vm := vm.modifyMm mm fun s => { s with swapAddress := 0 } } mm
            ((vm.modifyMm mm fun s => { s with swapAddress := 0 }).vma v).vmStart v
            (((vm.modifyMm mm fun s => { s with swapAddress := 0 }).mm mm).mapCount.toNat + 1)
            require 0 formed.backed
          refine ⟨avoids, fun result done => ?_⟩
          have after := evicts result done
          exact ⟨(keeps.trans reset).trans after.keeps, after.adds⟩

theorem swapOutMm_formed {require : Nat} (formed : m.Formed) (used : m.vm.mmUsed mm = true) :
    Avoids .vmaOverlap (m.swapOutMm mm require) ∧
      ∀ result, m.swapOutMm mm require = .ok result → result.2.Formed := by
  have before := formed.wellFormed mm used
  obtain ⟨avoids, evicts⟩ := @swapOutMm_evicts m mm require before
  refine ⟨avoids, fun result done => ?_⟩
  have after := evicts result done
  exact formed.of_keepsSet_nowhere before after.keeps after.adds

/-! ## Mapping and unmapping -/

theorem mmMap_formed {flags : BitVec 32} {ret : Int} {v : VmaPtr} {vm : Vm} (formed : m.Formed)
    (used : m.vm.mmUsed mm = true) (done : m.vm.mmMap mm addr len flags = .ok (ret, v, vm)) :
    ({ m with vm := vm } : Memory).Formed :=
  formed.of_wellFormed ⟨fun _ ne owns => (Vm.mmMap_spares ne owns done).1, .refl formed.backed⟩
    (mmMap_wellFormed (formed.wellFormed mm used) done)

theorem mmMapShmem_formed {flags : BitVec 32} {shmem : ShmemPtr} {result : Int × Vm}
    (formed : m.Formed) (used : m.vm.mmUsed mm = true)
    (done : m.vm.mmMapShmem mm addr flags shmem = .ok result) :
    ({ m with vm := result.2 } : Memory).Formed :=
  formed.of_wellFormed ⟨fun _ ne owns => Vm.mmMapShmem_spares ne owns done, .refl formed.backed⟩
    (mmMapShmem_wellFormed (formed.wellFormed mm used) done)

/-- Segments have changed, and no address space or area. -/
theorem Formed.of_segments {p : Pages} {vm : Vm} (formed : m.Formed) (mm : vm.mm = m.vm.mm)
    (mmUsed : vm.mmUsed = m.vm.mmUsed) (vma : vm.vma = m.vm.vma) (vmaUsed : vm.vmaUsed = m.vm.vmaUsed)
    (same : p.userTables = m.pages.userTables) : (⟨vm, p⟩ : Memory).Formed := by
  have spares : ∀ other, m.vm.Spares vm other := fun other => .of_eq mm mmUsed vma vmaUsed
  have formed' := formed.of_pages same
  refine ⟨formed'.backed, fun other => (spares other).owns (formed.owns other), fun other used => ?_⟩
  have before := formed'.wellFormed other (mmUsed ▸ used)
  refine ⟨(spares other).vmaSet before.set, formed'.backed, fun page present => ?_⟩
  obtain ⟨lo, flags, here⟩ := before.inside page present
  exact ⟨lo, flags, (spares other).lies_iff.mpr here⟩

theorem doShmem_formed {flags : BitVec 32} (formed : m.Formed) (used : m.vm.mmUsed mm = true) :
    Avoids .vmaOverlap (m.doShmem mm addr len flags) ∧
      ∀ result, m.doShmem mm addr len flags = .ok result → result.2.Formed := by
  have unchanged : ∀ ret : Int, Avoids .vmaOverlap (.ok (ret, m) : Except Panic (Int × Memory)) ∧
      ∀ result : Int × Memory, (.ok (ret, m) : Except Panic _) = .ok result → result.2.Formed := by
    refine fun ret => ⟨.ok _, fun result done => ?_⟩
    cases done
    exact formed
  unfold doShmem
  split
  · exact unchanged _
  · simp only
    generalize sub32 (roundUp (add32 addr len) pgSize) (roundDown addr pgSize) = size
    generalize (if roundDown addr pgSize = 0 then m.vm.getUnmappedArea mm size
      else roundDown addr pgSize) = chosen
    split
    · exact unchanged _
    · unfold shmemCreate
      rcases answer : m.vm.kmalloc m.vm.shmemUsed with ⟨found, vm⟩
      obtain ⟨grants, rfl, _⟩ := Vm.kmalloc_spec answer
      cases found with
      | none =>
          refine ⟨by simp, fun result done => ?_⟩
          cases done
          exact formed.of_segments rfl rfl rfl rfl rfl
      | some shmem =>
          simp only
          have created : (⟨{ m.vm with
              grants := grants
              shmem := Function.update m.vm.shmem shmem ⟨size, 0⟩
              shmemUsed := Function.update m.vm.shmemUsed shmem true },
              m.pages.shmemCreate shmem⟩ : Memory).Formed :=
            formed.of_segments rfl rfl rfl rfl rfl
          have set := (created.wellFormed mm used).set
          constructor
          · refine .bind (Vm.mmMapShmem_avoids set) fun ⟨ret, vm⟩ _ => ?_
            simp only
            split
            · exact .bind Pages.shmemDestroy_avoids fun _ _ => .pure _
            · simp
          · intro result done
            obtain ⟨⟨ret, vm⟩, mapped, rest⟩ := bind_eq_ok_iff.mp done
            have after := mmMapShmem_formed created used mapped
            simp only at rest
            split at rest
            · obtain ⟨pages, destroyed, rest⟩ := bind_eq_ok_iff.mp rest
              cases rest
              exact after.of_segments rfl rfl rfl rfl (Pages.shmemDestroy_userTables destroyed)
            · cases rest
              exact after

theorem UnmapResult.adds {start stop : Nat} {result : Int × Memory} (formed : m.WellFormed mm)
    (outcome : UnmapResult m mm start stop result) :
    m.pages.Adds result.2.pages Pages.nowhere := by
  cases outcome with
  | invalid _ => exact .refl formed.backed
  | noRoom _ _ only =>
      rw [only.1]
      exact .refl formed.backed
  | done _ _ unmapped =>
      refine ⟨unmapped.formed.backed, fun other page present => .inl ?_⟩
      by_cases inside : other = mm ∧ start ≤ page * pgSize ∧ page * pgSize < stop
      · obtain ⟨rfl, from_, upTo⟩ := inside
        exact absurd (unmapped.inside page from_ upTo) present
      · rw [← unmapped.outside other page inside]
        exact present

theorem mmUnmap_touches {result : Int × Memory} (formed : m.WellFormed mm)
    (done : m.mmUnmap mm addr len = .ok result) : m.Touches result.2 mm :=
  ⟨fun _ ne owns => mmUnmap_spares formed owns ne done,
    ((mmUnmap_result formed done).adds formed).of_nowhere⟩

theorem mmUnmap_formed {result : Int × Memory} (formed : m.Formed) (used : m.vm.mmUsed mm = true)
    (done : m.mmUnmap mm addr len = .ok result) : result.2.Formed :=
  formed.of_wellFormed (mmUnmap_touches (formed.wellFormed mm used) done)
    (mmUnmap_wellFormed (formed.wellFormed mm used) done)

/-- `mm_brk` changes the entries as its call of `mm_unmap` does. -/
theorem mmBrk_pages {result : Int × Memory} (done : m.mmBrk mm addr len = .ok result) :
    result.2.pages = m.pages ∨ ∃ start len unmapped,
      m.mmUnmap mm start len = .ok unmapped ∧ result.2.pages = unmapped.2.pages := by
  unfold mmBrk at done
  simp only at done
  split at done
  · obtain ⟨⟨ret, m₁⟩, unmaps, done⟩ := bind_eq_ok_iff.mp done
    refine .inr ⟨_, _, _, unmaps, ?_⟩
    simp only at done
    split at done
    · cases done
      rfl
    · split at done
      · cases done
        rfl
      · split at done
        · cases done
          rfl
        · obtain ⟨vm, _, done⟩ := bind_eq_ok_iff.mp done
          cases done
          rfl
  · cases done
    exact .inl rfl

theorem mmBrk_formed {result : Int × Memory} (formed : m.Formed) (used : m.vm.mmUsed mm = true)
    (done : m.mmBrk mm addr len = .ok result) : result.2.Formed := by
  have before := formed.wellFormed mm used
  refine formed.of_wellFormed ⟨fun _ ne owns => mmBrk_spares before owns ne done, ?_⟩
    ((mmBrk_wellFormed before).2 result done)
  rcases mmBrk_pages done with same | ⟨_, _, _, unmaps, same⟩
  · rw [same]
    exact .refl formed.backed
  · rw [same]
    exact (mmUnmap_touches before unmaps).adds

end Memory

end EdfKernel.Mm
