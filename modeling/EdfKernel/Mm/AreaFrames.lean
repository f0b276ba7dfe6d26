import EdfKernel.Mm.NewAreas

/-!
# The other address spaces

What the functions on the areas of one address space leave alone of another one: its list, its
tree and its cache, and the fields of its areas.
-/

namespace EdfKernel.Mm

open Library Library.Intervals

namespace Vm

variable {vm vm' : Vm} {mm other : MmPtr} {v : VmaPtr} {addr len start stop lo : Nat}
  {flags : BitVec 32}

/-- An address space and its areas are unchanged. -/
structure Spares (vm vm' : Vm) (other : MmPtr) : Prop where
  mm : vm'.mm other = vm.mm other
  mmUsed : vm'.mmUsed other = vm.mmUsed other
  vma : ∀ v ∈ vm.areas other, vm'.vma v = vm.vma v ∧ vm'.vmaUsed v = vm.vmaUsed v

theorem Spares.refl (vm : Vm) (other : MmPtr) : vm.Spares vm other :=
  ⟨rfl, rfl, fun _ _ => ⟨rfl, rfl⟩⟩

theorem Spares.areas (spares : vm.Spares vm' other) : vm'.areas other = vm.areas other := by
  rw [Vm.areas, spares.mm]
  rfl

theorem Spares.trans {vm'' : Vm} (first : vm.Spares vm' other) (second : vm'.Spares vm'' other) :
    vm.Spares vm'' other := by
  refine ⟨second.mm.trans first.mm, second.mmUsed.trans first.mmUsed, fun v mem => ?_⟩
  have after := second.vma v (first.areas ▸ mem)
  have before := first.vma v mem
  exact ⟨after.1.trans before.1, after.2.trans before.2⟩

/-- Nothing but segments and the answers of `kmalloc` have changed. -/
theorem Spares.of_eq (mm : vm'.mm = vm.mm) (mmUsed : vm'.mmUsed = vm.mmUsed)
    (vma : vm'.vma = vm.vma) (vmaUsed : vm'.vmaUsed = vm.vmaUsed) : vm.Spares vm' other :=
  ⟨by rw [mm], by rw [mmUsed], fun v _ => ⟨by rw [vma], by rw [vmaUsed]⟩⟩

/-- The set of the other address space stays consistent. -/
theorem Spares.vmaSet (spares : vm.Spares vm' other) (set : VmaSet vm other) :
    VmaSet vm' other := by
  refine set.congr set.cache spares.mm fun v mem => ?_
  obtain ⟨vma, used⟩ := spares.vma v mem
  exact ⟨vma, used.trans (set.owned v mem).1⟩

theorem Spares.lies_iff (spares : vm.Spares vm' other) :
    vm'.Lies other addr lo flags ↔ vm.Lies other addr lo flags :=
  lies_congr spares.areas fun v mem => (spares.vma v mem).1

/-- The areas in the list of an address space are in use, and they are its own. -/
def Owns (vm : Vm) (other : MmPtr) : Prop :=
  ∀ v ∈ vm.areas other, vm.vmaUsed v = true ∧ (vm.vma v).vmMm = other

theorem Spares.owns (spares : vm.Spares vm' other) (owns : vm.Owns other) : vm'.Owns other := by
  intro v mem
  rw [spares.areas] at mem
  obtain ⟨vma, used⟩ := spares.vma v mem
  rw [vma, used]
  exact owns v mem

/-- Two address spaces have no area in common. -/
theorem VmaSet.apart (set : VmaSet vm mm) (owns : vm.Owns other) (ne : other ≠ mm) :
    ∀ v ∈ vm.areas mm, v ∉ vm.areas other := by
  intro v mem mem'
  exact ne ((owns v mem').2.symm.trans (set.owned v mem).2)

/-! ## Single changes -/

theorem modifyMm_spares (ne : other ≠ mm) (change : MmStruct → MmStruct) :
    vm.Spares (vm.modifyMm mm change) other :=
  ⟨modifyMm_mm_of_ne _ _ ne, rfl, fun _ _ => ⟨rfl, rfl⟩⟩

theorem modifyVma_spares (notThere : v ∉ vm.areas other) (change : VmaStruct → VmaStruct) :
    vm.Spares (vm.modifyVma v change) other := by
  refine ⟨rfl, rfl, fun w mem => ⟨modifyVma_vma_of_ne _ _ ?_, rfl⟩⟩
  rintro rfl
  exact notThere mem

theorem findVma_spares (ne : other ≠ mm) : vm.Spares (vm.findVma mm addr).2 other := by
  unfold findVma
  simp only
  split
  · exact .refl _ _
  · rename_i v _
    have spares := @modifyMm_spares vm mm other ne fun s => { s with mmapCache := some v }
    exact spares

/-- `vma_create` gives out an area that no address space has. -/
theorem vmaCreate_spares {found : Option VmaPtr} (owns : vm.Owns other)
    (created : vm.vmaCreate start stop flags = (found, vm')) :
    vm.Spares vm' other ∧ ∀ v ∈ found, v ∉ vm.areas other := by
  cases found with
  | none =>
      obtain ⟨grants, rfl⟩ := vmaCreate_none created
      exact ⟨.of_eq rfl rfl rfl rfl, by rintro v ⟨⟩⟩
  | some v =>
      have creates := vmaCreate_creates created
      have new : v ∉ vm.areas other := by
        intro mem
        have isUsed := (owns v mem).1
        rw [creates.fresh] at isUsed
        cases isUsed
      refine ⟨⟨by rw [creates.mm], ?_, fun w mem => ?_⟩, by rintro _ ⟨⟩; exact new⟩
      · rw [(vmaCreate_rest created).1]
      · have ne : w ≠ v := by
          rintro rfl
          exact new mem
        exact ⟨creates.other w ne, by rw [creates.used, Function.update_of_ne ne]⟩

theorem buildTree_spares (ne : other ≠ mm) (built : vm.buildTree mm = .ok vm') :
    vm.Spares vm' other := by
  unfold buildTree at built
  split at built
  · split at built
    · rename_i vm₁ answer
      obtain ⟨grants, rfl, _⟩ := kmalloc_spec answer
      cases built
      exact .of_eq rfl rfl rfl rfl
    · rename_i address vm₁ answer
      obtain ⟨grants, rfl, _⟩ := kmalloc_spec answer
      obtain ⟨tree, _, result⟩ := bind_eq_ok_iff.mp built
      cases result
      have first : vm.Spares { vm with grants := grants } other := .of_eq rfl rfl rfl rfl
      exact first.trans (modifyMm_spares ne _)
  · cases built
    exact .refl _ _

theorem insertVmaStruct_spares (ne : other ≠ mm) (notThere : v ∉ vm.areas other)
    (inserted : vm.insertVmaStruct mm v = .ok vm') : vm.Spares vm' other := by
  unfold insertVmaStruct at inserted
  split at inserted
  · obtain ⟨⟨tree, prev⟩, _, rest⟩ := bind_eq_ok_iff.mp inserted
    simp only at rest
    split at rest
    · have first : vm.Spares (vm.modifyVma v fun s => { s with vmMm := mm }) other :=
        modifyVma_spares notThere _
      exact (first.trans (modifyMm_spares ne _)).trans (buildTree_spares ne rest)
    · cases rest
  · cases inserted

theorem removeVmaStruct_spares (ne : other ≠ mm) (removed : vm.removeVmaStruct mm v = .ok vm') :
    vm.Spares vm' other := by
  unfold removeVmaStruct at removed
  split at removed
  · obtain ⟨tree, _, result⟩ := bind_eq_ok_iff.mp removed
    cases result
    exact modifyMm_spares ne _
  · cases removed

theorem vmaResize_spares (notThere : v ∉ vm.areas other)
    (resized : vm.vmaResize v start stop = .ok vm') : vm.Spares vm' other := by
  unfold vmaResize at resized
  split at resized
  · cases resized
    exact modifyVma_spares notThere _
  · cases resized

theorem takeOut_spares {fuel : Nat} {freeList : List VmaPtr} {result : List VmaPtr × Vm}
    (ne : other ≠ mm) (taken : takeOut mm stop fuel v freeList vm = .ok result) :
    vm.Spares result.2 other := by
  induction fuel generalizing v freeList vm with
  | zero =>
      cases taken
      exact .refl _ _
  | succ fuel ih =>
      unfold takeOut at taken
      split at taken
      · obtain ⟨vm₁, removed, rest⟩ := bind_eq_ok_iff.mp taken
        have first := removeVmaStruct_spares ne removed
        split at rest
        · cases rest
          exact first
        · exact first.trans (ih rest)
      · cases taken
        exact .refl _ _

/-! ## Mapping -/

theorem mmMap_spares {ret : Int} (ne : other ≠ mm) (owns : vm.Owns other)
    (done : vm.mmMap mm addr len flags = .ok (ret, v, vm')) :
    vm.Spares vm' other ∧ (ret = 0 → v ∉ vm.areas other) := by
  unfold mmMap at done
  simp only at done
  split at done
  · have first := @findVma_spares vm mm other (roundDown addr pgSize) ne
    generalize vm.findVma mm (roundDown addr pgSize) = answer at done first
    obtain ⟨found, vm₁⟩ := answer
    simp only at done first
    split at done
    · cases done
      exact ⟨first, by simp [eInval]⟩
    · have owns₁ := first.owns owns
      split at done
      · rename_i vm₂ created
        cases done
        exact ⟨first.trans (vmaCreate_spares owns₁ created).1, by simp [eNoMem]⟩
      · rename_i w vm₂ created
        obtain ⟨second, new⟩ := vmaCreate_spares owns₁ created
        obtain ⟨vm₃, inserted, rest⟩ := bind_eq_ok_iff.mp done
        cases rest
        have notThere := new _ rfl
        have third := insertVmaStruct_spares ne (second.areas ▸ notThere) inserted
        exact ⟨(first.trans second).trans third, fun _ => first.areas ▸ notThere⟩
  · cases done
    exact ⟨.refl _ _, by simp [eInval]⟩

theorem mmMapShmem_spares {shmem : ShmemPtr} {result : Int × Vm} (ne : other ≠ mm)
    (owns : vm.Owns other) (done : vm.mmMapShmem mm addr flags shmem = .ok result) :
    vm.Spares result.2 other := by
  unfold mmMapShmem at done
  split at done
  · cases done
    exact .refl _ _
  · obtain ⟨⟨ret, v, vm₁⟩, mapped, rest⟩ := bind_eq_ok_iff.mp done
    obtain ⟨first, new⟩ := @mmMap_spares (vm.modifyShmem shmem _) _ _ _ _ _ _ _ _ ne owns mapped
    have before : vm.Spares vm₁ other := ⟨first.mm, first.mmUsed, first.vma⟩
    simp only at rest
    split at rest
    · cases rest
      exact before.trans (.of_eq rfl rfl rfl rfl)
    · rename_i zero
      cases rest
      have notThere : v ∉ vm₁.areas other := by
        rw [before.areas]
        exact new (not_not.mp zero)
      have last := @modifyVma_spares vm₁ other v notThere fun s =>
        { s with shmem := some shmem, shmemOff := 0, vmFlags := s.vmFlags ||| vmShare }
      exact before.trans last

end Vm

namespace Memory

variable {m m' : Memory} {mm other : MmPtr} {v : VmaPtr} {addr len start stop : Nat}

/-! ## Unmapping -/

/-- `vma_destroy` destroys no address space. -/
theorem vmaDestroy_mmUsed (done : m.vmaDestroy v = .ok m') : m'.vm.mmUsed = m.vm.mmUsed := by
  obtain ⟨n, dropped, rest⟩ := bind_eq_ok_iff.mp done
  cases rest
  split at dropped
  · split at dropped
    · cases dropped
    · simp only at dropped
      split at dropped
      · obtain ⟨pages, _, rest⟩ := bind_eq_ok_iff.mp dropped
        cases rest
        rfl
      · cases dropped
        rfl
  · cases dropped
    rfl

theorem vmaDestroy_spares (notThere : v ∉ m.vm.areas other) (done : m.vmaDestroy v = .ok m') :
    m.vm.Spares m'.vm other := by
  obtain ⟨vma, sameMm, used, _⟩ := vmaDestroy_frame done
  refine ⟨by rw [sameMm], by rw [vmaDestroy_mmUsed done], fun w mem => ⟨by rw [vma], ?_⟩⟩
  have ne : w ≠ v := by
    rintro rfl
    exact notThere mem
  rw [used, Function.update_of_ne ne]

theorem unmapVma_spares (ne : other ≠ mm) (notThere : v ∉ m.vm.areas other)
    (done : m.unmapVma mm start stop v = .ok m') : m.vm.Spares m'.vm other := by
  unfold unmapVma at done
  simp only at done
  split at done
  · obtain ⟨vm, resized, rest⟩ := bind_eq_ok_iff.mp done
    obtain ⟨vm', inserted, rest⟩ := bind_eq_ok_iff.mp rest
    obtain ⟨pages, _, rest⟩ := bind_eq_ok_iff.mp rest
    cases rest
    have first := Vm.vmaResize_spares notThere resized
    exact first.trans (Vm.insertVmaStruct_spares ne (first.areas ▸ notThere) inserted)
  · split at done
    · obtain ⟨vm, resized, rest⟩ := bind_eq_ok_iff.mp done
      obtain ⟨vm', inserted, rest⟩ := bind_eq_ok_iff.mp rest
      obtain ⟨pages, _, rest⟩ := bind_eq_ok_iff.mp rest
      cases rest
      have first := Vm.vmaResize_spares notThere resized
      exact first.trans (Vm.insertVmaStruct_spares ne (first.areas ▸ notThere) inserted)
    · obtain ⟨n, destroyed, rest⟩ := bind_eq_ok_iff.mp done
      obtain ⟨pages, _, rest⟩ := bind_eq_ok_iff.mp rest
      cases rest
      have spares := vmaDestroy_spares notThere destroyed
      exact spares

theorem unmapVmas_spares {list : List VmaPtr} (ne : other ≠ mm)
    (notThere : ∀ v ∈ list, v ∉ m.vm.areas other)
    (done : unmapVmas mm start stop list m = .ok m') : m.vm.Spares m'.vm other := by
  induction list generalizing m with
  | nil =>
      cases done
      exact .refl _ _
  | cons v rest ih =>
      obtain ⟨n, first, done⟩ := bind_eq_ok_iff.mp done
      have spares := unmapVma_spares ne (notThere v List.mem_cons_self) first
      refine spares.trans (ih (fun w mem => ?_) done)
      rw [spares.areas]
      exact notThere w (List.mem_cons_of_mem v mem)

theorem unmapHole_spares {result : Int × Memory} (ne : other ≠ mm)
    (owns : m.vm.Owns other) (notThere : v ∉ m.vm.areas other)
    (done : m.unmapHole mm start stop v = .ok result) : m.vm.Spares result.2.vm other := by
  unfold unmapHole at done
  split at done
  · rename_i vm created
    cases done
    exact (Vm.vmaCreate_spares owns created).1
  · rename_i nvma vm created
    obtain ⟨first, new⟩ := Vm.vmaCreate_spares owns created
    obtain ⟨vm₁, resized, rest⟩ := bind_eq_ok_iff.mp done
    obtain ⟨vm₂, inserted, rest⟩ := bind_eq_ok_iff.mp rest
    obtain ⟨pages, _, rest⟩ := bind_eq_ok_iff.mp rest
    cases rest
    have second := first.trans (Vm.vmaResize_spares (first.areas ▸ notThere) resized)
    exact second.trans (Vm.insertVmaStruct_spares ne (second.areas ▸ new nvma rfl) inserted)

theorem mmUnmap_spares {result : Int × Memory} (formed : m.WellFormed mm)
    (owns : m.vm.Owns other) (ne : other ≠ mm) (done : m.mmUnmap mm addr len = .ok result) :
    m.vm.Spares result.2.vm other := by
  unfold mmUnmap at done
  simp only at done
  split at done
  · obtain ⟨search, sets⟩ := formed.set.findVma (roundDown addr pgSize)
    have first := @Vm.findVma_spares m.vm mm other (roundDown addr pgSize) ne
    rcases found : m.vm.findVma mm (roundDown addr pgSize) with ⟨head, vm⟩
    rw [found] at done search sets first
    simp only at done search sets first
    have set₁ := formed.set.setsCache sets
    have owns' := first.owns owns
    have apart := set₁.apart owns' ne
    cases head with
    | none =>
        cases done
        exact first
    | some v =>
        obtain ⟨before, rest, isFirst⟩ := first_of_findVma formed.set found
        have mem : v ∈ vm.areas mm := by
          rw [isFirst.list]
          exact List.mem_append_right _ List.mem_cons_self
        simp only at done
        split at done
        · cases done
          exact first
        · split at done
          · exact first.trans (@unmapHole_spares { m with vm := vm } _ _ _ _ _ _ ne owns'
              (apart v mem) done)
          · obtain ⟨⟨freeList, vm₁⟩, taken, done⟩ := bind_eq_ok_iff.mp done
            obtain ⟨n, unmapped, done⟩ := bind_eq_ok_iff.mp done
            cases done
            have second := Vm.takeOut_spares ne taken
            have enough : rest.length < (vm.areas mm).length := by
              rw [isFirst.list, List.length_append, List.length_cons]
              omega
            obtain ⟨run, after, split, freed, _⟩ :=
              Vm.takeOut_spec set₁ isFirst.list enough taken
            refine first.trans (second.trans (@unmapVmas_spares { m with vm := vm₁ } _ _ _ _ _ _
              ne (fun w memW => ?_) unmapped))
            have inRun : w ∈ run := by
              have shown : freeList = run.reverse ++ [] := freed
              rw [shown, List.append_nil, List.mem_reverse] at memW
              exact memW
            have inSet : w ∈ vm.areas mm := by
              rw [isFirst.list, split]
              exact List.mem_append_right _ (List.mem_append_left _ inRun)
            change w ∉ vm₁.areas other
            rw [second.areas]
            exact apart w inSet
  · cases done
    exact .refl _ _

end Memory

end EdfKernel.Mm
