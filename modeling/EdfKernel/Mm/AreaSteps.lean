import EdfKernel.Mm.AreaFrames
import EdfKernel.Mm.Brk
import EdfKernel.Mm.PageEffects
import EdfKernel.Mm.PageStops

/-!
# Calls on a consistent set of areas

`mm_map`, `mm_unmap` and `mm_brk` keep the set of areas consistent and the entries within it, and
the assertions of `insert_vma_struct` hold in all of them.
-/

namespace EdfKernel.Mm

open Library Library.Intervals

namespace Vm

variable {vm vm' : Vm} {mm : MmPtr} {v : VmaPtr} {addr len start stop : Nat} {flags : BitVec 32}

/-! ## Assertions -/

theorem Detached.insert_avoids (set : VmaSet vm mm) (detached : vm.Detached mm v) :
    Avoids .vmaOverlap (vm.insertVmaStruct mm v) :=
  (set.insertVmaStruct detached.new detached.range.2.1 detached.apart).1

theorem vmaResize_avoids : Avoids .vmaOverlap (vm.vmaResize v start stop) := by
  unfold vmaResize
  split <;> simp

theorem mmMap_avoids (set : VmaSet vm mm) : Avoids .vmaOverlap (vm.mmMap mm addr len flags) := by
  unfold mmMap
  simp only
  split
  · rename_i access
    have range := Memory.userRange_of_userAccess access
    revert range
    generalize roundDown addr pgSize = start
    generalize roundUp (add32 addr len) pgSize = stop
    intro range
    rcases answer : vm.findVma mm start with ⟨first, vm₁⟩
    obtain ⟨sets, meets⟩ := set.findVma_meets stop answer
    simp only
    split
    · simp
    · rename_i notMeets
      rw [meets] at notMeets
      have free := sets.apart fun w mem here => notMeets ⟨w, mem, here⟩
      split
      · simp
      · rename_i w vm₂ created
        obtain ⟨set₂, _, detached⟩ := detached_of_create (set.setsCache sets) range free created
        exact .bind (detached.insert_avoids set₂) fun _ _ => .pure _
  · simp

/-- Areas and segments have changed in fields only that are not bounds. -/
structure SameBounds (vm vm' : Vm) : Prop where
  mm : vm'.mm = vm.mm
  vmaUsed : vm'.vmaUsed = vm.vmaUsed
  fields : ∀ w, (vm'.vma w).vmStart = (vm.vma w).vmStart ∧
    (vm'.vma w).vmEnd = (vm.vma w).vmEnd ∧ (vm'.vma w).vmMm = (vm.vma w).vmMm

theorem modifyVma_sameBounds {change : VmaStruct → VmaStruct}
    (bounds : ∀ s, (change s).vmStart = s.vmStart ∧ (change s).vmEnd = s.vmEnd ∧
      (change s).vmMm = s.vmMm) : vm.SameBounds (vm.modifyVma v change) := by
  refine ⟨rfl, rfl, fun w => ?_⟩
  by_cases own : w = v
  · rw [own, modifyVma_vma_self]
    exact bounds _
  · rw [modifyVma_vma_of_ne _ _ own]
    exact ⟨rfl, rfl, rfl⟩

theorem modifyShmem_sameBounds (vm : Vm) (shmem : ShmemPtr)
    (change : ShmemStruct → ShmemStruct) : vm.SameBounds (vm.modifyShmem shmem change) :=
  ⟨rfl, rfl, fun _ => ⟨rfl, rfl, rfl⟩⟩

namespace SameBounds

variable (same : vm.SameBounds vm')
include same

theorem areas : vm'.areas mm = vm.areas mm := by
  rw [Vm.areas, same.mm]
  rfl

theorem lo : vm'.lo = vm.lo := by
  funext w
  exact (same.fields w).1

theorem hi : vm'.hi = vm.hi := by
  funext w
  exact (same.fields w).2.1

theorem vmaSet (set : VmaSet vm mm) : VmaSet vm' mm := by
  refine ⟨?_, ?_, ?_, ?_, ?_, ?_⟩
  · rw [same.areas, same.lo, same.hi]
    exact set.ordered
  · rw [same.areas, same.lo, same.hi]
    exact set.range
  · rw [same.areas, same.vmaUsed]
    exact fun w mem => ⟨(set.owned w mem).1, (same.fields w).2.2.trans (set.owned w mem).2⟩
  · rw [same.areas, same.mm]
    exact set.count
  · rw [same.areas, same.mm]
    exact set.tree
  · rw [same.areas, same.mm]
    exact set.cache

theorem detached (detached : vm.Detached mm v) : vm'.Detached mm v := by
  refine ⟨?_, ?_, ?_, ?_⟩
  · rw [same.areas]
    exact detached.new
  · rw [same.vmaUsed]
    exact detached.used
  · rw [same.lo, same.hi]
    exact detached.range
  · rw [same.areas, same.lo, same.hi]
    exact detached.apart

end SameBounds

theorem mmMapShmem_avoids {shmem : ShmemPtr} (set : VmaSet vm mm) :
    Avoids .vmaOverlap (vm.mmMapShmem mm addr flags shmem) := by
  unfold mmMapShmem
  split
  · simp
  · have counted := (modifyShmem_sameBounds vm shmem fun s =>
      { s with shmemRef := s.shmemRef + 1 }).vmaSet set
    refine .bind (mmMap_avoids counted) fun ⟨ret, v, vm₁⟩ _ => ?_
    simp only
    split <;> simp

/-- The first loop of `mm_unmap` takes out areas of the set only. -/
theorem takeOut_avoids {fuel : Nat} {before rest freeList : List VmaPtr} (set : VmaSet vm mm)
    (list : vm.areas mm = before ++ v :: rest) :
    Avoids .vmaOverlap (takeOut mm stop fuel v freeList vm) := by
  induction fuel generalizing v rest freeList vm with
  | zero => simp [takeOut]
  | succ fuel ih =>
      have nodup : (before ++ [v] ++ rest).Nodup := by
        rw [List.append_assoc, List.singleton_append, ← list]
        exact set.ordered.nodup
      have mem : v ∈ vm.areas mm := by
        rw [list]
        exact List.mem_append_right _ List.mem_cons_self
      unfold takeOut
      split
      · refine .bind (set.removeVmaStruct mem).1 fun vm₁ removed => ?_
        obtain ⟨unlinks, set₁⟩ := (set.removeVmaStruct mem).2 vm₁ removed
        have notBefore : v ∉ before := by
          intro inBefore
          rw [List.append_assoc, List.nodup_append] at nodup
          exact nodup.2.2 v inBefore v List.mem_cons_self rfl
        have areas : vm₁.areas mm = before ++ rest := by
          rw [unlinks.areas, list, List.erase_append_right _ notBefore, List.erase_cons_head]
        have next : listNext (some v) (vm.mm mm).mmapList = rest.head? := by
          have split := listNext_split nodup
          rw [List.getLast?_append, List.getLast?_singleton, Option.some_or, List.append_assoc,
            List.singleton_append, ← list] at split
          exact split
        rw [next]
        cases rest with
        | nil => simp
        | cons w rest => exact ih set₁ areas
      · simp

/-- The two parts of an area that is cut in two. -/
theorem VmaSet.splits {vm₁ vm₂ : Vm} {new : VmaPtr} (set : VmaSet vm mm) (mem : v ∈ vm.areas mm)
    (creates : vm.Creates vm₁ new (vm.lo v) start flags)
    (resizes : vm₁.Resizes vm₂ v stop (vm.hi v)) (low : vm.lo v < start) (less : start < stop)
    (aligned : start % pgSize = 0) : VmaSet vm₂ mm ∧ vm₂.Detached mm new := by
  obtain ⟨set₁, fresh, areas₁, vma₁⟩ := creates.vmaSet set
  have ne : new ≠ v := fun own => fresh (own ▸ mem)
  have areas₂ : vm₂.areas mm = vm.areas mm := by
    rw [← areas₁, Vm.areas, resizes.mm]
    rfl
  have newVma : vm₂.vma new = vm₁.vma new := resizes.other new ne
  have newLo : vm₂.lo new = vm.lo v := by
    rw [Vm.lo, newVma]
    exact creates.lo
  have newHi : vm₂.hi new = start := by
    rw [Vm.hi, newVma]
    exact creates.hi
  have range := set.range v mem
  obtain ⟨_, atop, _⟩ := resizes.inside
  refine ⟨set₁.shrink resizes (by rw [areas₁]; exact mem), ?_, ?_, ?_, fun w memW => ?_⟩
  · rw [areas₂]
    exact fresh
  · rw [resizes.used, creates.used, Function.update_self]
  · rw [newLo, newHi]
    exact ⟨range.1, low, (less.trans atop).le.trans range.2.2.1, range.2.2.2.1, aligned⟩
  · rw [areas₂] at memW
    rw [newLo, newHi]
    by_cases own : w = v
    · rw [own, resizes.lo]
      exact .inr less.le
    · have same : vm₂.vma w = vm.vma w := (resizes.other w own).trans (vma₁ w memW)
      have sameLo : vm₂.lo w = vm.lo w := by rw [Vm.lo, Vm.lo, same]
      have sameHi : vm₂.hi w = vm.hi w := by rw [Vm.hi, Vm.hi, same]
      rw [sameLo, sameHi]
      rcases set.ordered.disjoint memW mem with isV | le | le
      · exact absurd isV own
      · exact .inl le
      · exact .inr ((less.trans atop).le.trans le)

/-- `mm_map` leaves the areas there are in place. -/
theorem mmMap_lies {ret : Int} {lo a : Nat} {isFlags : BitVec 32} (set : VmaSet vm mm)
    (done : vm.mmMap mm addr len flags = .ok (ret, v, vm')) (lies : vm.Lies mm a lo isFlags) :
    vm'.Lies mm a lo isFlags := by
  unfold mmMap at done
  simp only at done
  split at done
  · rename_i access
    have range := Memory.userRange_of_userAccess access
    revert done range
    generalize roundDown addr pgSize = start
    generalize roundUp (add32 addr len) pgSize = stop
    intro done range
    rcases found : vm.findVma mm start with ⟨first, vm₁⟩
    obtain ⟨sets, meets⟩ := set.findVma_meets stop found
    rw [found] at done
    simp only at done
    have lies₁ : vm₁.Lies mm a lo isFlags :=
      (lies_congr sets.areas fun w _ => by rw [sets.vma]).mpr lies
    split at done
    · cases done
      exact lies₁
    · rename_i notMeets
      rw [meets] at notMeets
      have free := sets.apart fun w mem here => notMeets ⟨w, mem, here⟩
      split at done
      · rename_i vm₂ created
        cases done
        obtain ⟨grants, rfl⟩ := vmaCreate_none created
        exact lies₁
      · rename_i w vm₂ created
        obtain ⟨vm₃, inserted, rest⟩ := bind_eq_ok_iff.mp done
        cases rest
        have set₁ := set.setsCache sets
        obtain ⟨set₂, new, detached⟩ := detached_of_create set₁ range free created
        obtain ⟨_, before, after, links⟩ := detached.insert set₂ inserted
        obtain ⟨_, _, areas, vma⟩ := (vmaCreate_creates created).vmaSet set₁
        exact links.lies_iff.mpr (.inl ((lies_congr areas vma).mpr lies₁))
  · cases done
    exact lies

end Vm

namespace Memory

variable {m m' : Memory} {mm : MmPtr} {v : VmaPtr} {addr len start stop : Nat} {vm : Vm}

/-! ## Unmapping -/

theorem vmaDestroy_avoids : Avoids .vmaOverlap (m.vmaDestroy v) := by
  refine .bind ?_ fun _ _ => .pure _
  split
  · split
    · simp
    · simp only
      split
      · exact .bind Pages.shmemDestroy_avoids fun _ _ => .pure _
      · simp
  · simp

theorem unmapVma_avoids (set : m.vm.VmaSet mm) (detached : m.vm.Detached mm v) :
    Avoids .vmaOverlap (m.unmapVma mm start stop v) := by
  unfold unmapVma
  simp only
  split
  · refine .bind Vm.vmaResize_avoids fun vm resized => ?_
    obtain ⟨set', detached'⟩ := detached.resize set (Vm.vmaResize_resizes resized)
    exact .bind (detached'.insert_avoids set') fun _ _ =>
      .bind Pages.unmapRange_avoids fun _ _ => .pure _
  · split
    · refine .bind Vm.vmaResize_avoids fun vm resized => ?_
      obtain ⟨set', detached'⟩ := detached.resize set (Vm.vmaResize_resizes resized)
      exact .bind (detached'.insert_avoids set') fun _ _ =>
        .bind Pages.unmapRange_avoids fun _ _ => .pure _
    · exact .bind vmaDestroy_avoids fun _ _ => .bind Pages.unmapRange_avoids fun _ _ => .pure _

theorem unmapVmas_avoids {list : List VmaPtr} (set : m.vm.VmaSet mm) (backed : m.pages.Backed)
    (taken : Taken m.vm mm start stop list) :
    Avoids .vmaOverlap (unmapVmas mm start stop list m) := by
  induction list generalizing m with
  | nil => simp [unmapVmas]
  | cons v rest ih =>
      have here := List.mem_cons_self (a := v) (l := rest)
      refine .bind (unmapVma_avoids set (taken.detached v here)) fun n first => ?_
      have trims := unmapVma_trims set backed (taken.detached v here) (taken.meets v here).1
        (taken.meets v here).2 (taken.noHole v here) first
      exact ih trims.set trims.cleared.backed (taken.next trims)

theorem unmapHole_avoids (set : m.vm.VmaSet mm) (mem : v ∈ m.vm.areas mm)
    (low : m.vm.lo v < start) (less : start < stop) (aligned : start % pgSize = 0) :
    Avoids .vmaOverlap (m.unmapHole mm start stop v) := by
  unfold unmapHole
  split
  · simp
  · rename_i nvma vm created
    have creates := Vm.vmaCreate_creates created
    have sameEnd : (vm.vma v).vmEnd = m.vm.hi v := by
      rw [(creates.vmaSet set).2.2.2 v mem]
      rfl
    refine .bind Vm.vmaResize_avoids fun vm₁ resized => ?_
    have resizes := Vm.vmaResize_resizes resized
    rw [sameEnd] at resizes
    obtain ⟨set₁, detached⟩ := set.splits mem creates resizes low less aligned
    exact .bind (detached.insert_avoids set₁) fun _ _ =>
      .bind Pages.unmapRange_avoids fun _ _ => .pure _

theorem mmUnmap_avoids (formed : m.WellFormed mm) :
    Avoids .vmaOverlap (m.mmUnmap mm addr len) := by
  unfold mmUnmap
  simp only
  split
  · rename_i access
    have range := userRange_of_userAccess access
    revert range
    generalize roundDown addr pgSize = start
    generalize roundUp (add32 addr len) pgSize = stop
    intro range
    obtain ⟨search, sets⟩ := formed.set.findVma start
    rcases found : m.vm.findVma mm start with ⟨first, vm⟩
    rw [found] at search sets
    simp only at search sets ⊢
    have set₁ := formed.set.setsCache sets
    cases first with
    | none => simp
    | some v =>
        obtain ⟨before, rest, isFirst⟩ := first_of_findVma formed.set found
        have mem : v ∈ vm.areas mm := by
          rw [isFirst.list]
          exact List.mem_append_right _ List.mem_cons_self
        simp only
        split
        · simp
        · split
          · rename_i hole
            exact @unmapHole_avoids { m with vm := vm } _ _ _ _ set₁ mem hole.1 range.2.1
              range.2.2.2.1
          · rename_i noHole
            refine .bind (Vm.takeOut_avoids set₁ isFirst.list) fun ⟨freeList, vm₁⟩ taken => ?_
            have enough : rest.length < (vm.areas mm).length := by
              rw [isFirst.list, List.length_append, List.length_cons]
              omega
            obtain ⟨run, after, split, freed, lows, highs, set₂, areas, vma, used, _⟩ :=
              Vm.takeOut_spec set₁ isFirst.list enough taken
            rw [List.append_nil] at freed
            have isTaken := isFirst.taken set₁ noHole split lows areas vma used
            simp only at freed
            rw [freed]
            exact .bind (@unmapVmas_avoids { m with vm := vm₁ } _ _ _ _ set₂ formed.backed isTaken)
              fun _ _ => .pure _
  · simp

theorem WellFormed.onlyCache (formed : m.WellFormed mm) (only : m.OnlyCache m' mm) :
    m'.WellFormed mm := by
  obtain ⟨pages, vm, grants, sets, isVm⟩ := only
  have same := @SameAreas.of_setsCache m m' mm vm grants formed.set sets isVm pages
  refine ⟨same.set, by rw [pages]; exact formed.backed, fun page present => ?_⟩
  rw [pages] at present
  obtain ⟨lo, flags, here⟩ := formed.inside page present
  exact ⟨lo, flags, (same.lies ..).mpr here⟩

theorem UnmapResult.wellFormed {result : Int × Memory} (formed : m.WellFormed mm)
    (outcome : UnmapResult m mm start stop result) : result.2.WellFormed mm := by
  cases outcome with
  | invalid _ => exact formed
  | done _ _ unmapped => exact unmapped.formed
  | noRoom _ _ only => exact formed.onlyCache only

theorem mmUnmap_wellFormed {result : Int × Memory} (formed : m.WellFormed mm)
    (done : m.mmUnmap mm addr len = .ok result) : result.2.WellFormed mm :=
  (mmUnmap_result formed done).wellFormed formed

/-- Nothing is left in a range that has been unmapped. -/
theorem Unmapped.free (unmapped : m.Unmapped m' mm start stop) (less : start < stop) :
    ∀ w ∈ m'.vm.areas mm, ¬m'.vm.Meets start stop w := by
  rintro w mem ⟨low, high⟩
  have inside := unmapped.formed.set.ordered.nonempty w mem
  have here : m'.vm.Lies mm (max start (m'.vm.lo w)) (m'.vm.lo w) (m'.vm.vma w).vmFlags :=
    ⟨w, mem, rfl, le_max_right .., max_lt high inside, rfl⟩
  obtain ⟨_, _, outside, _⟩ := (unmapped.lies ..).mp here
  exact outside ⟨le_max_left .., max_lt less low⟩

/-! ## Mapping -/

/-- Areas are added or extended. -/
theorem WellFormed.withAreas (formed : m.WellFormed mm) (set : vm.VmaSet mm)
    (lies : ∀ addr lo flags, m.vm.Lies mm addr lo flags → ∃ lo' flags', vm.Lies mm addr lo' flags') :
    ({ m with vm := vm } : Memory).WellFormed mm := by
  refine ⟨set, formed.backed, fun page present => ?_⟩
  obtain ⟨lo, flags, here⟩ := formed.inside page present
  exact lies _ lo flags here

theorem mmMap_wellFormed {ret : Int} {flags : BitVec 32} (formed : m.WellFormed mm)
    (done : m.vm.mmMap mm addr len flags = .ok (ret, v, vm)) :
    ({ m with vm := vm } : Memory).WellFormed mm := by
  refine formed.withAreas ?_ fun a lo isFlags here =>
    ⟨lo, isFlags, Vm.mmMap_lies formed.set done here⟩
  rcases Vm.mmMap_result formed.set done with ⟨_, vm₁, grants, sets, rfl⟩ | ⟨_, maps⟩
  · exact (@SameAreas.of_setsCache m { m with vm := { vm₁ with grants := grants } } mm vm₁ grants
      formed.set sets rfl rfl).set
  · exact maps.set

theorem WellFormed.sameBounds (formed : m.WellFormed mm) (same : m.vm.SameBounds vm) :
    ({ m with vm := vm } : Memory).WellFormed mm := by
  refine formed.withAreas (same.vmaSet formed.set) ?_
  rintro a _ _ ⟨w, mem, rfl, from_, upTo, _⟩
  refine ⟨vm.lo w, _, w, by rw [same.areas]; exact mem, rfl, ?_, ?_, rfl⟩
  · rw [same.lo]
    exact from_
  · rw [same.hi]
    exact upTo

theorem mmMapShmem_wellFormed {result : Int × Vm} {flags : BitVec 32} {shmem : ShmemPtr}
    (formed : m.WellFormed mm) (done : m.vm.mmMapShmem mm addr flags shmem = .ok result) :
    ({ m with vm := result.2 } : Memory).WellFormed mm := by
  unfold Vm.mmMapShmem at done
  split at done
  · cases done
    exact formed
  · obtain ⟨⟨ret, v, vm₁⟩, mapped, rest⟩ := bind_eq_ok_iff.mp done
    have counted := formed.sameBounds (Vm.modifyShmem_sameBounds m.vm shmem fun s =>
      { s with shmemRef := s.shmemRef + 1 })
    have mapped' := mmMap_wellFormed counted mapped
    simp only at rest
    split at rest
    · cases rest
      have same := Vm.modifyShmem_sameBounds vm₁ shmem fun s => { s with shmemRef := s.shmemRef - 1 }
      exact mapped'.sameBounds same
    · cases rest
      have same := @Vm.modifyVma_sameBounds vm₁ v
        (fun s => { s with shmem := some shmem, shmemOff := 0, vmFlags := s.vmFlags ||| vmShare })
        fun s => ⟨rfl, rfl, rfl⟩
      exact mapped'.sameBounds same

/-! ## mm_brk -/

theorem create_wellFormed {found : Option VmaPtr} {flags : BitVec 32} (formed : m.WellFormed mm)
    (created : m.vm.vmaCreate start stop flags = (found, vm)) :
    ({ m with vm := vm } : Memory).WellFormed mm := by
  cases found with
  | none =>
      obtain ⟨grants, rfl⟩ := Vm.vmaCreate_none created
      exact formed.sameBounds ⟨rfl, rfl, fun _ => ⟨rfl, rfl, rfl⟩⟩
  | some v =>
      obtain ⟨set, _, areas, vma⟩ := (Vm.vmaCreate_creates created).vmaSet formed.set
      exact formed.withAreas set fun a lo flags here =>
        ⟨lo, flags, (Vm.lies_congr areas vma).mpr here⟩

theorem link_wellFormed (formed : m.WellFormed mm) (detached : m.vm.Detached mm v)
    (inserted : m.vm.insertVmaStruct mm v = .ok vm) :
    ({ m with vm := vm } : Memory).WellFormed mm := by
  obtain ⟨set, before, after, links⟩ := detached.insert formed.set inserted
  exact formed.withAreas set fun a lo flags here => ⟨lo, flags, links.lies_iff.mpr (.inl here)⟩

/-- An area that ends where a free range starts gets the range. -/
theorem extend_wellFormed (formed : m.WellFormed mm) (range : Vm.UserRange start stop)
    (free : ∀ w ∈ m.vm.areas mm, ¬m.vm.Meets start stop w) (mem : v ∈ m.vm.areas mm)
    (ends : m.vm.hi v = start) :
    ({ m with vm := m.vm.modifyVma v fun s => { s with vmEnd := stop } } : Memory).WellFormed
      mm := by
  have inside := formed.set.ordered.nonempty v mem
  have rangeV := formed.set.range v mem
  have less := range.2.1
  refine formed.withAreas (formed.set.extend mem
    ⟨rangeV.1, by omega, range.2.2.1, rangeV.2.2.2.1, range.2.2.2.2⟩ (by omega) fun w memW => ?_)
    fun a lo flags here => ⟨lo, flags, (Vm.lies_extend mem (by omega)).mpr (.inl here)⟩
  rcases formed.set.ordered.disjoint memW mem with own | below | above
  · exact .inl own
  · exact .inr (.inl below)
  · have apart := free w memW
    have insideW := formed.set.ordered.nonempty w memW
    unfold Vm.Meets at apart
    exact .inr (.inr (by omega))

theorem mmBrk_wellFormed (formed : m.WellFormed mm) :
    Avoids .vmaOverlap (m.mmBrk mm addr len) ∧
      ∀ result, m.mmBrk mm addr len = .ok result → result.2.WellFormed mm := by
  unfold mmBrk
  simp only
  split
  · rename_i access
    have range := userRange_of_userAccess access
    revert range
    generalize roundDown addr pgSize = start
    generalize roundUp (add32 addr len) pgSize = stop
    intro range
    have after : ∀ ret m₁, m.mmUnmap mm start (stop - start) = .ok (ret, m₁) →
        m₁.WellFormed mm ∧ (ret = 0 → ∀ w ∈ m₁.vm.areas mm, ¬m₁.vm.Meets start stop w) := by
      intro ret m₁ unmaps
      have outcome := mmUnmap_result formed unmaps
      rw [add32_sub range, roundDown_of_aligned range.2.2.2.1,
        roundUp_of_aligned range.2.2.2.2 range.2.2.1] at outcome
      refine ⟨outcome.wellFormed formed, fun zero => ?_⟩
      cases outcome with
      | invalid denied => exact absurd (decide_eq_true ⟨range.1, range.2.1, range.2.2.1⟩) denied
      | done _ _ unmapped => exact unmapped.free range.2.1
      | noRoom _ _ _ => simp [eNoMem] at zero
    -- the area below the range and the range itself
    have tail : ∀ m₁ : Memory, m₁.WellFormed mm →
        (∀ w ∈ m₁.vm.areas mm, ¬m₁.vm.Meets start stop w) → ∀ found vm,
        m₁.vm.findVma mm (start - 1) = (found, vm) →
        ({ m₁ with vm := vm } : Memory).WellFormed mm ∧
          (∀ w ∈ vm.areas mm, ¬vm.Meets start stop w) ∧ ∀ v ∈ found, v ∈ vm.areas mm := by
      intro m₁ formed₁ free found vm answer
      obtain ⟨search, sets⟩ := formed₁.set.findVma (start - 1)
      rw [answer] at search sets
      simp only at search sets
      refine ⟨formed₁.setsCache sets, ?_, fun v isFound => ?_⟩
      · rw [sets.areas, sets.meets]
        exact free
      · rw [sets.areas]
        exact List.mem_of_find?_eq_some (search.symm.trans isFound)
    constructor
    · refine .bind (mmUnmap_avoids formed) ?_
      rintro ⟨ret, m₁⟩ unmaps
      obtain ⟨formed₁, free⟩ := after ret m₁ unmaps
      simp only
      split
      · simp
      · rename_i zero
        rcases answer : m₁.vm.findVma mm (start - 1) with ⟨found, vm⟩
        obtain ⟨formed₂, free₂, _⟩ := tail m₁ formed₁ (free (not_not.mp zero)) found vm answer
        simp only
        split
        · simp
        · split
          · simp
          · rename_i v vm₂ created
            obtain ⟨set₃, _, detached⟩ :=
              Vm.detached_of_create formed₂.set range free₂ created
            exact .bind (detached.insert_avoids set₃) fun _ _ => .pure _
    · intro result done
      obtain ⟨⟨ret, m₁⟩, unmaps, done⟩ := bind_eq_ok_iff.mp done
      obtain ⟨formed₁, free⟩ := after ret m₁ unmaps
      simp only at done
      split at done
      · cases done
        exact formed₁
      · rename_i zero
        rcases answer : m₁.vm.findVma mm (start - 1) with ⟨found, vm⟩
        obtain ⟨formed₂, free₂, members⟩ := tail m₁ formed₁ (free (not_not.mp zero)) found vm answer
        rw [answer] at done
        simp only at done
        split at done
        · rename_i v kept
          cases done
          rw [Option.filter_eq_some_iff, decide_eq_true_eq] at kept
          exact extend_wellFormed formed₂ range free₂ (members v kept.1) kept.2.1
        · split at done
          · rename_i vm₂ created
            cases done
            exact @create_wellFormed { m₁ with vm := vm } _ _ _ _ _ _ formed₂ created
          · rename_i v vm₂ created
            obtain ⟨vm₃, inserted, done⟩ := bind_eq_ok_iff.mp done
            cases done
            obtain ⟨_, _, detached⟩ := Vm.detached_of_create formed₂.set range free₂ created
            have formed₃ := @create_wellFormed { m₁ with vm := vm } _ _ _ _ _ _ formed₂ created
            exact @link_wellFormed { m₁ with vm := vm₂ } _ _ _ formed₃ detached inserted
  · constructor
    · simp
    · intro result done
      cases done
      exact formed

theorem mmBrk_spares {other : MmPtr} {result : Int × Memory} (formed : m.WellFormed mm)
    (owns : m.vm.Owns other) (ne : other ≠ mm) (done : m.mmBrk mm addr len = .ok result) :
    m.vm.Spares result.2.vm other := by
  unfold mmBrk at done
  simp only at done
  split at done
  · obtain ⟨⟨ret, m₁⟩, unmaps, done⟩ := bind_eq_ok_iff.mp done
    have formed₁ := mmUnmap_wellFormed formed unmaps
    have first := mmUnmap_spares formed owns ne unmaps
    simp only at done formed₁ first
    split at done
    · cases done
      exact first
    · obtain ⟨search, sets⟩ := formed₁.set.findVma (roundDown addr pgSize - 1)
      have second := @Vm.findVma_spares m₁.vm mm other (roundDown addr pgSize - 1) ne
      rcases answer : m₁.vm.findVma mm (roundDown addr pgSize - 1) with ⟨found, vm⟩
      rw [answer] at done search sets second
      simp only at done search sets second
      have both := first.trans second
      have owns₂ := both.owns owns
      split at done
      · rename_i v kept
        cases done
        rw [Option.filter_eq_some_iff] at kept
        have mem : v ∈ vm.areas mm := by
          rw [sets.areas]
          exact List.mem_of_find?_eq_some (search.symm.trans kept.1)
        have apart := (formed₁.set.setsCache sets).apart owns₂ ne v mem
        have third := @Vm.modifyVma_spares vm other v apart fun s =>
          { s with vmEnd := roundUp (add32 addr len) pgSize }
        exact both.trans third
      · split at done
        · rename_i vm₂ created
          cases done
          exact both.trans (Vm.vmaCreate_spares owns₂ created).1
        · rename_i v vm₂ created
          obtain ⟨vm₃, inserted, done⟩ := bind_eq_ok_iff.mp done
          cases done
          obtain ⟨third, new⟩ := Vm.vmaCreate_spares owns₂ created
          exact both.trans (third.trans
            (Vm.insertVmaStruct_spares ne (third.areas ▸ new v rfl) inserted))
  · cases done
    exact .refl _ _

end Memory

end EdfKernel.Mm
