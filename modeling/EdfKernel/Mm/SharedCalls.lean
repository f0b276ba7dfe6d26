import EdfKernel.Mm.SharedUnmap

/-!
# Mapping shared areas

`mm_map_shmem` enters an area that shares all of a segment, `dup_mmap` one that shares the same
part of it, and `mm_brk` none.  Where an address stays mapped, it stays at its place of the
segment.
-/

namespace EdfKernel.Mm

open Library

/-- The area that `mm_map_shmem` makes for all of a segment. -/
def VmaStruct.ofSegment (addr len : Nat) (flags : BitVec 32) (s : ShmemPtr) : VmaStruct :=
  ⟨0, addr, addr + len, flags &&& ~~~vmShare ||| vmShare, some s, 0⟩

namespace Vm

variable {vm vm' vm'' : Vm} {mm : MmPtr} {v : VmaPtr} {addr len start stop : Nat}
  {flags : BitVec 32} {x : Option (ShmemPtr × Nat)}

/-- The address is in an area, at a place of a segment or at none. -/
def Lays (vm : Vm) (mm : MmPtr) (addr : Nat) (x : Option (ShmemPtr × Nat)) : Prop :=
  ∃ v ∈ vm.areas mm, vm.lo v ≤ addr ∧ addr < vm.hi v ∧ (vm.vma v).place addr = x

theorem Parts.lays (parts : vm.Parts vm' mm) (lays : vm'.Lays mm addr x) : vm.Lays mm addr x := by
  obtain ⟨v, mem, from_, upTo, isPlace⟩ := lays
  obtain ⟨w, memW, part⟩ := parts v mem
  refine ⟨w, memW, part.inside.1.trans from_, upTo.trans_le part.inside.2, ?_⟩
  rw [← part.place from_]
  exact isPlace

theorem lays_congr (areas : vm'.areas mm = vm.areas mm)
    (vma : ∀ w ∈ vm.areas mm, vm'.vma w = vm.vma w) :
    vm'.Lays mm addr x ↔ vm.Lays mm addr x := by
  unfold Lays
  rw [areas]
  refine exists_congr fun w => and_congr_right fun mem => ?_
  rw [Vm.lo, Vm.lo, Vm.hi, Vm.hi, vma w mem]

/-! ## New areas -/

/-- An area that is created and linked in is the only new one. -/
theorem adds_of_create (set : VmaSet vm mm) (range : UserRange start stop)
    (free : ∀ w ∈ vm.areas mm, ¬vm.Meets start stop w)
    (created : vm.vmaCreate start stop flags = (some v, vm'))
    (inserted : vm'.insertVmaStruct mm v = .ok vm'') :
    vm.AddsArea vm'' mm v start stop flags ∧ vm.ledger.area v = none ∧
      vm''.ledger = vm.ledger.setArea v (some ⟨0, start, stop, flags, none, 0⟩) := by
  have creates := vmaCreate_creates created
  obtain ⟨isFree, entry⟩ := ledger_vmaCreate created
  obtain ⟨_, _, areas, vma⟩ := creates.vmaSet set
  obtain ⟨set', new, detached⟩ := detached_of_create set range free created
  obtain ⟨_, before, after, links⟩ := detached.insert set' inserted
  refine ⟨⟨range, free, fun w => ?_, ⟨?_, ?_⟩, ?_, fun w mem => ?_, ?_⟩, isFree, ?_⟩
  · rw [links.areas, ← areas, links.list, List.mem_append, List.mem_cons, List.mem_append]
    tauto
  · rw [(links.bounds v).1]
    exact creates.lo
  · rw [(links.bounds v).2]
    exact creates.hi
  · rw [links.vma_self]
    exact creates.flags
  · have other : w ≠ v := fun own => new (own ▸ mem)
    exact (links.vma_of_ne other).trans (vma w mem)
  · rw [links.keeps.brkStart, creates.mm]
  · exact (ledger_insertVmaStruct inserted).trans entry

/-- An address outside a new area is at the place it was. -/
theorem AddsArea.lays (adds : vm.AddsArea vm' mm v start stop flags)
    (outside : ¬(start ≤ addr ∧ addr < stop)) (lays : vm'.Lays mm addr x) : vm.Lays mm addr x := by
  obtain ⟨w, mem, from_, upTo, isPlace⟩ := lays
  rcases (adds.mem_iff w).mp mem with rfl | old
  · rw [adds.bounds.1] at from_
    rw [adds.bounds.2] at upTo
    exact absurd ⟨from_, upTo⟩ outside
  · rw [Vm.lo, adds.vma w old] at from_
    rw [Vm.hi, adds.vma w old] at upTo
    rw [adds.vma w old] at isPlace
    exact ⟨w, old, from_, upTo, isPlace⟩

theorem OnlyCached.entry (only : vm.OnlyCached vm' mm) :
    vm'.ledger = vm.ledger ∧ vm'.areas mm = vm.areas mm ∧ vm'.vma = vm.vma := by
  obtain ⟨vm₁, grants, sets, rfl⟩ := only
  refine ⟨?_, sets.areas, sets.vma⟩
  obtain ⟨cache, _, rfl⟩ := sets
  rfl

/-- `mm_map` enters an area that is not shared, or nothing. -/
theorem mmMap_adds {ret : Int} (set : VmaSet vm mm)
    (done : vm.mmMap mm addr len flags = .ok (ret, v, vm')) :
    (ret ≠ 0 ∧ vm.OnlyCached vm' mm) ∨ (ret = 0 ∧
      vm.AddsArea vm' mm v (roundDown addr pgSize) (roundUp (add32 addr len) pgSize)
        (flags &&& ~~~vmShare) ∧ vm.ledger.area v = none ∧
      vm'.ledger = vm.ledger.setArea v (some ⟨0, roundDown addr pgSize,
        roundUp (add32 addr len) pgSize, flags &&& ~~~vmShare, none, 0⟩)) := by
  unfold mmMap at done
  simp only at done
  split at done
  · rename_i access
    have range := Memory.userRange_of_userAccess access
    revert done range
    generalize roundDown addr pgSize = start
    generalize roundUp (add32 addr len) pgSize = stop
    intro done range
    rcases found : vm.findVma mm start with ⟨first, vm₁⟩
    obtain ⟨sets, meets⟩ := set.findVma_meets stop found
    have entry := vm.ledger_findVma mm start
    rw [found] at done entry
    simp only at done entry
    split at done
    · cases done
      exact .inl ⟨by simp [eInval], vm', vm'.grants, sets, rfl⟩
    · rename_i notMeets
      rw [meets] at notMeets
      have free : ∀ w ∈ vm.areas mm, ¬vm.Meets start stop w :=
        fun w mem here => notMeets ⟨w, mem, here⟩
      split at done
      · rename_i vm₂ created
        cases done
        obtain ⟨grants, rfl⟩ := vmaCreate_none created
        exact .inl ⟨by simp [eNoMem], vm₁, grants, sets, rfl⟩
      · rename_i w vm₂ created
        obtain ⟨vm₃, inserted, rest⟩ := bind_eq_ok_iff.mp done
        cases rest
        obtain ⟨adds, isFree, entry'⟩ :=
          adds_of_create (set.setsCache sets) range (sets.apart free) created inserted
        rw [entry] at isFree entry'
        refine .inr ⟨rfl, ⟨range, free, fun w => ?_, adds.bounds, adds.isFlags, fun w mem => ?_, ?_⟩,
          isFree, entry'⟩
        · rw [adds.mem_iff, sets.areas]
        · rw [adds.vma w (sets.areas.symm ▸ mem), sets.vma]
        · rw [adds.brkStart, sets.keeps.brkStart]
  · cases done
    exact .inl ⟨by simp [eInval], vm, vm.grants, .refl set, rfl⟩

theorem mmMap_sound {ret : Int} (set : VmaSet vm mm) (sound : vm.ledger.Sound none)
    (done : vm.mmMap mm addr len flags = .ok (ret, v, vm')) : vm'.ledger.Sound none := by
  rcases mmMap_adds set done with ⟨_, only⟩ | ⟨_, _, isFree, entry⟩
  · rw [only.entry.1]
    exact sound
  · rw [entry]
    refine sound.enter (has_and_not flags vmShare) rfl fun b there => ?_
    rw [isFree] at there
    cases there

/-! ## mm_map_shmem -/

/-- The range of a segment from an address on, as `mm_map` computes its end. -/
theorem stop_of_segment (aligned : addr % pgSize = 0) (whole : len < 2 ^ 32 ∧ len % pgSize = 0)
    (range : UserRange addr (roundUp (add32 addr len) pgSize)) :
    roundUp (add32 addr len) pgSize = addr + len := by
  obtain ⟨_, less, high, _, _⟩ := range
  unfold roundUp roundDown add32 pgSize userTop at *
  omega

/-- The address is in an area. -/
def Covers (vm : Vm) (mm : MmPtr) (addr : Nat) : Prop :=
  ∃ v ∈ vm.areas mm, vm.lo v ≤ addr ∧ addr < vm.hi v

theorem Lays.covers (lays : vm.Lays mm addr x) : vm.Covers mm addr := by
  obtain ⟨v, mem, from_, upTo, _⟩ := lays
  exact ⟨v, mem, from_, upTo⟩

theorem AddsArea.outside (adds : vm.AddsArea vm' mm v start stop flags)
    (covers : vm.Covers mm addr) : ¬(start ≤ addr ∧ addr < stop) := by
  rintro ⟨from_, upTo⟩
  obtain ⟨w, mem, low, high⟩ := covers
  exact adds.apart w mem ⟨low.trans_lt upTo, from_.trans_lt high⟩

/-- Addresses stay at their places, and those of new areas are at the places of `new`. -/
def Grows (vm vm' : Vm) (mm : MmPtr) (new : Nat → Option (ShmemPtr × Nat)) : Prop :=
  ∀ addr x, vm'.Lays mm addr x → vm.Lays mm addr x ∨ (¬vm.Covers mm addr ∧ x = new addr)

theorem Grows.lays {new : Nat → Option (ShmemPtr × Nat)} (grows : vm.Grows vm' mm new)
    (covers : vm.Covers mm addr) (lays : vm'.Lays mm addr x) : vm.Lays mm addr x :=
  (grows addr x lays).resolve_right fun new => new.1 covers

theorem Grows.of_same {new : Nat → Option (ShmemPtr × Nat)} (areas : vm'.areas mm = vm.areas mm)
    (vma : ∀ w ∈ vm.areas mm, vm'.vma w = vm.vma w) : vm.Grows vm' mm new :=
  fun _ _ lays => .inl ((lays_congr areas vma).mp lays)

/-- An area that is new in a free range. -/
theorem Grows.of_new {new : Nat → Option (ShmemPtr × Nat)}
    (free : ∀ w ∈ vm.areas mm, ¬vm.Meets start stop w)
    (mem : ∀ w ∈ vm'.areas mm, w = v ∨ (w ∈ vm.areas mm ∧ vm'.vma w = vm.vma w))
    (bounds : start ≤ vm'.lo v ∧ vm'.hi v ≤ stop)
    (place : ∀ addr, start ≤ addr → addr < stop → (vm'.vma v).place addr = new addr) :
    vm.Grows vm' mm new := by
  rintro addr x ⟨w, inSet, from_, upTo, isPlace⟩
  rcases mem w inSet with rfl | ⟨old, same⟩
  · have from' := bounds.1.trans from_
    have upTo' := upTo.trans_le bounds.2
    refine .inr ⟨?_, ?_⟩
    · rintro ⟨y, memY, low, high⟩
      exact free y memY ⟨low.trans_lt upTo', from'.trans_lt high⟩
    · rw [← isPlace]
      exact place addr from' upTo'
  · rw [Vm.lo, same] at from_
    rw [Vm.hi, same] at upTo
    rw [same] at isPlace
    exact .inl ⟨w, old, from_, upTo, isPlace⟩

/-- `mm_map_shmem` enters an area that shares all of the segment, or nothing. -/
theorem mmMapShmem_enters {s : ShmemPtr} {spare : Option ShmemPtr} {result : Int × Vm}
    (set : VmaSet vm mm) (sound : vm.ledger.Sound spare) (isSpare : ∀ r ∈ spare, r = s)
    (used : vm.shmemUsed s = true) (done : vm.mmMapShmem mm addr flags s = .ok result) :
    vm.Grows result.2 mm (fun a => some (s, a - addr)) ∧
      ((result.1 ≠ 0 ∧ result.2.ledger = vm.ledger) ∨
        (result.1 = 0 ∧ result.2.ledger.Sound none)) := by
  have there : vm.ledger.segment s = some (vm.shmem s) := if_pos used
  have whole := sound.whole s _ there
  unfold mmMapShmem at done
  split at done
  · cases done
    exact ⟨.of_same rfl fun _ _ => rfl, .inl ⟨by simp [eInval], rfl⟩⟩
  · rename_i aligned
    rw [not_not] at aligned
    obtain ⟨⟨ret, v, vm₁⟩, mapped, rest⟩ := bind_eq_ok_iff.mp done
    have counted := (modifyShmem_sameBounds vm s fun t =>
      { t with shmemRef := t.shmemRef + 1 }).vmaSet set
    have entry₀ := @ledger_modifyShmem vm (fun t => { t with shmemRef := t.shmemRef + 1 }) s
    rw [there] at entry₀
    have len : ((vm.modifyShmem s fun t => { t with shmemRef := t.shmemRef + 1 }).shmem s).len =
        (vm.shmem s).len := by
      simp [modifyShmem]
    rw [len] at mapped
    simp only at rest
    rcases mmMap_adds counted mapped with ⟨failed, only⟩ | ⟨rfl, adds, isFree, entry⟩
    · obtain ⟨entry, areas, vma⟩ := only.entry
      rw [if_pos failed] at rest
      cases rest
      refine ⟨.of_same areas fun w _ => congrFun vma w, .inl ⟨failed, ?_⟩⟩
      have back : ({ vm.shmem s with shmemRef := (vm.shmem s).shmemRef + 1 - 1 } : ShmemStruct) =
          vm.shmem s := by
        rw [add_sub_cancel_right]
      rw [ledger_modifyShmem, entry, entry₀, Ledger.segment_setSegment_self]
      exact Ledger.setSegment_restore (there.trans (congrArg some back.symm))
    · rw [if_neg (by simp)] at rest
      cases rest
      rw [Memory.roundDown_of_aligned aligned] at adds entry
      have isStop := stop_of_segment aligned whole adds.range
      rw [isStop] at adds entry
      have free : ∀ w ∈ vm.areas mm, ¬vm.Meets addr (addr + (vm.shmem s).len) w := adds.apart
      have last := @ledger_modifyVma vm₁ v (fun a =>
        { a with shmem := some s, shmemOff := 0, vmFlags := a.vmFlags ||| vmShare }) fun a => rfl
      rw [entry, Ledger.area_setArea_self, entry₀] at last
      have shared := @has_or (flags &&& ~~~vmShare) vmShare (by decide)
      have new : v ∉ vm.areas mm := by
        intro mem
        rw [entry₀] at isFree
        change vm.ledger.area v = none at isFree
        rw [ledger_area_of_used (set.owned v mem).1] at isFree
        cases isFree
      refine ⟨@Grows.of_new vm _ mm v addr (addr + (vm.shmem s).len) _ free (fun w mem => ?_) ?_
        fun a from_ upTo => ?_, .inr ⟨rfl, ?_⟩⟩
      · by_cases own : w = v
        · exact .inl own
        · rcases (adds.mem_iff w).mp mem with isNew | old
          · exact absurd isNew own
          · refine .inr ⟨old, ?_⟩
            rw [modifyVma_vma_of_ne _ _ own]
            exact adds.vma w old
      · rw [Vm.lo, Vm.hi, modifyVma_vma_self]
        exact ⟨adds.bounds.1.ge, adds.bounds.2.le⟩
      · have isStart : (vm₁.vma v).vmStart = addr := adds.bounds.1
        rw [modifyVma_vma_self]
        simp only [VmaStruct.place, adds.isFlags, shared, if_true, Option.map_some, isStart]
        rw [add32, add_zero, Nat.mod_eq_of_lt (by omega)]
      · have entered : ((vm.ledger.setSegment s
            (some { vm.shmem s with shmemRef := (vm.shmem s).shmemRef + 1 })).setArea v
              (some ⟨0, addr, addr + (vm.shmem s).len, flags &&& ~~~vmShare, none, 0⟩)).setArea v
                (some (.ofSegment addr (vm.shmem s).len flags s)) =
            (vm.ledger.setArea v (some (.ofSegment addr (vm.shmem s).len flags s))).setSegment s
              (some { vm.shmem s with shmemRef := (vm.shmem s).shmemRef + 1 }) := by
          simp [Ledger.setArea, Ledger.setSegment]
        have inside : 0 + (addr + (vm.shmem s).len - addr) ≤ (vm.shmem s).len := by omega
        rw [entry₀] at isFree
        have taken := @Ledger.Sound.take _ _ _ (.ofSegment addr (vm.shmem s).len flags s) _ _ sound
          isSpare isFree there rfl shared inside
        rw [← entered] at taken
        exact last ▸ taken

end Vm

namespace Memory

variable {m m' : Memory} {mm : MmPtr} {v : VmaPtr} {addr len start stop : Nat}
  {flags : BitVec 32} {x : Option (ShmemPtr × Nat)}

theorem ledger_shmemCreate {found : Option ShmemPtr} (created : m.shmemCreate len = (found, m')) :
    m'.vm.mm = m.vm.mm ∧ m'.vm.mmUsed = m.vm.mmUsed ∧ m'.vm.vma = m.vm.vma ∧
      m'.vm.vmaUsed = m.vm.vmaUsed ∧
      (found = none → m'.vm.ledger = m.vm.ledger) ∧
      ∀ s ∈ found, m.vm.ledger.segment s = none ∧ m'.vm.shmemUsed s = true ∧
        m'.vm.ledger = m.vm.ledger.setSegment s (some ⟨len, 0⟩) := by
  unfold shmemCreate at created
  rcases answer : m.vm.kmalloc m.vm.shmemUsed with ⟨answered, vm⟩
  obtain ⟨grants, rfl, notUsed⟩ := Vm.kmalloc_spec answer
  rw [answer] at created
  cases answered with
  | none =>
      cases created
      exact ⟨rfl, rfl, rfl, rfl, fun _ => rfl, by rintro s ⟨⟩⟩
  | some r =>
      cases created
      refine ⟨rfl, rfl, rfl, rfl, by rintro ⟨⟩, ?_⟩
      rintro _ ⟨⟩
      have free := notUsed r rfl
      refine ⟨if_neg (by simp [free]), Function.update_self .., ?_⟩
      refine congrArg (Ledger.mk m.vm.ledger.area) (funext fun q => ?_)
      by_cases own : q = r
      · subst own
        simp
      · simp [own, Vm.ledger_segment]

/-- `do_shmem` enters a segment with an area that shares all of it, or nothing. -/
theorem doShmem_enters {result : Int × Memory} (set : m.vm.VmaSet mm)
    (sound : m.vm.ledger.Sound none) (done : m.doShmem mm addr len flags = .ok result) :
    result.2.vm.ledger.Sound none ∧
      ∃ s start, m.vm.Grows result.2.vm mm fun a => some (s, a - start) := by
  have unchanged : m.vm.ledger.Sound none ∧
      ∃ s start, m.vm.Grows m.vm mm fun a => some (s, a - start) :=
    ⟨sound, 0, 0, .of_same rfl fun _ _ => rfl⟩
  unfold doShmem at done
  split at done
  · cases done
    exact unchanged
  · have whole : sub32 (roundUp (add32 addr len) pgSize) (roundDown addr pgSize) < 2 ^ 32 ∧
        sub32 (roundUp (add32 addr len) pgSize) (roundDown addr pgSize) % pgSize = 0 := by
      unfold sub32 roundUp roundDown add32 pgSize
      omega
    simp only at done
    revert done whole
    generalize sub32 (roundUp (add32 addr len) pgSize) (roundDown addr pgSize) = size
    generalize (if roundDown addr pgSize = 0 then m.vm.getUnmappedArea mm size
      else roundDown addr pgSize) = chosen
    intro whole done
    split at done
    · cases done
      exact unchanged
    · rcases created : m.shmemCreate size with ⟨found, n⟩
      obtain ⟨sameMm, _, vma, vmaUsed, isNone, isSome⟩ := ledger_shmemCreate created
      rw [created] at done
      cases found with
      | none =>
          cases done
          refine ⟨isNone rfl ▸ sound, 0, 0, .of_same ?_ fun w _ => congrFun vma w⟩
          rw [Vm.areas, sameMm]
          rfl
      | some s =>
          obtain ⟨gone, used, entry⟩ := isSome s rfl
          obtain ⟨⟨ret, vm⟩, mapped, rest⟩ := bind_eq_ok_iff.mp done
          have set' : n.vm.VmaSet mm := set.congr set.cache (by rw [sameMm]) fun v mem =>
            ⟨by rw [vma], by rw [vmaUsed]; exact (set.owned v mem).1⟩
          have sound' : n.vm.ledger.Sound (some s) := entry ▸ sound.make gone whole
          obtain ⟨grows, outcome⟩ := Vm.mmMapShmem_enters set' sound' (by rintro r ⟨⟩; rfl) used mapped
          have grows' : m.vm.Grows vm mm fun a => some (s, a - chosen) := by
            intro a x lays
            have areas : n.vm.areas mm = m.vm.areas mm := by rw [Vm.areas, sameMm]; rfl
            rcases grows a x lays with before | ⟨new, isPlace⟩
            · exact .inl ((Vm.lays_congr areas fun w _ => congrFun vma w).mp before)
            · refine .inr ⟨fun covers => new ?_, isPlace⟩
              obtain ⟨w, mem, bounds⟩ := covers
              refine ⟨w, areas ▸ mem, ?_⟩
              rw [Vm.lo, Vm.hi, vma]
              exact bounds
          simp only at rest
          rcases outcome with ⟨failed, same⟩ | ⟨zero, sound''⟩
          · rw [if_pos failed] at rest
            obtain ⟨pages, destroyed, rest⟩ := bind_eq_ok_iff.mp rest
            cases rest
            refine ⟨?_, s, chosen, grows'⟩
            simp only at same
            rw [Vm.ledger_freeShmem, same, entry, Ledger.setSegment_restore gone]
            exact sound
          · rw [if_neg (not_not.mpr zero)] at rest
            cases rest
            exact ⟨sound'', s, chosen, grows'⟩

/-! ## mm_brk -/

/-- An area that is not shared ends later. -/
theorem extend_enters {vm : Vm} (owns : vm.Owns mm) (sound : vm.ledger.Sound none)
    (mem : v ∈ vm.areas mm) (plain : has (vm.vma v).vmFlags vmShare = false)
    (ends : vm.hi v = start) :
    (vm.modifyVma v fun a => { a with vmEnd := stop }).ledger.Sound none ∧
      ∀ addr x, ¬(start ≤ addr ∧ addr < stop) →
        (vm.modifyVma v fun a => { a with vmEnd := stop }).Lays mm addr x → vm.Lays mm addr x := by
  have isArea := Vm.ledger_area_of_used (owns v mem).1
  constructor
  · have entry := @Vm.ledger_modifyVma vm v (fun a => { a with vmEnd := stop }) fun a => rfl
    rw [entry, isArea]
    have noSegment := (sound.links v _ isArea).plain plain
    refine sound.enter plain noSegment fun b there => ?_
    rw [isArea] at there
    cases there
    exact noSegment
  · rintro addr x outside ⟨w, memW, from_, upTo, isPlace⟩
    change w ∈ vm.areas mm at memW
    by_cases own : w = v
    · subst own
      rw [Vm.lo, Vm.modifyVma_vma_self] at from_
      rw [Vm.hi, Vm.modifyVma_vma_self] at upTo
      rw [Vm.modifyVma_vma_self] at isPlace
      change (vm.vma w).vmStart ≤ addr at from_
      change addr < stop at upTo
      exact ⟨w, memW, from_, by omega, isPlace⟩
    · rw [Vm.lo, Vm.modifyVma_vma_of_ne _ _ own] at from_
      rw [Vm.hi, Vm.modifyVma_vma_of_ne _ _ own] at upTo
      rw [Vm.modifyVma_vma_of_ne _ _ own] at isPlace
      exact ⟨w, memW, from_, upTo, isPlace⟩

/-- What `mm_brk` leaves of a sound ledger, as `mm_unmap` does. -/
theorem mmBrk_leaves {result : Int × Memory} (formed : m.WellFormed mm)
    (sound : m.vm.ledger.Sound none) (done : m.mmBrk mm addr len = .ok result) :
    (¬m.SplitsShared mm (roundDown addr pgSize) (roundUp (add32 addr len) pgSize) ∧
        result.2.vm.ledger.Sound none ∧ ∀ a x,
        ¬(roundDown addr pgSize ≤ a ∧ a < roundUp (add32 addr len) pgSize) →
          result.2.vm.Lays mm a x → m.vm.Lays mm a x) ∨
      (m.SplitsShared mm (roundDown addr pgSize) (roundUp (add32 addr len) pgSize) ∧
        result.2.vm.ledger.Cut) := by
  unfold mmBrk at done
  simp only at done
  split at done
  · rename_i access
    have range := userRange_of_userAccess access
    revert access done range
    generalize roundDown addr pgSize = start
    generalize roundUp (add32 addr len) pgSize = stop
    intro access done range
    obtain ⟨⟨ret, m₁⟩, unmaps, done⟩ := bind_eq_ok_iff.mp done
    have leaves := mmUnmap_leaves formed sound unmaps
    have outcome := mmUnmap_result formed unmaps
    rw [add32_sub range, roundDown_of_aligned range.2.2.2.1,
      roundUp_of_aligned range.2.2.2.2 range.2.2.1] at leaves outcome
    have formed₁ := outcome.wellFormed formed
    simp only at done leaves formed₁
    -- what comes after the unmapping changes no area but those of the heap
    suffices after : (m₁.vm.ledger.Cut → result.2.vm.ledger.Cut) ∧
        (m₁.vm.ledger.Sound none → result.2.vm.ledger.Sound none ∧ ∀ a x,
          ¬(start ≤ a ∧ a < stop) → result.2.vm.Lays mm a x → m₁.vm.Lays mm a x) by
      rcases leaves with ⟨noSplit, sound₁, parts⟩ | ⟨splits, cut⟩
      · obtain ⟨sound₂, lays⟩ := after.2 sound₁
        exact .inl ⟨noSplit, sound₂, fun a x outside here => parts.lays (lays a x outside here)⟩
      · exact .inr ⟨splits, after.1 cut⟩
    split at done
    · cases done
      exact ⟨id, fun sound₁ => ⟨sound₁, fun _ _ _ => id⟩⟩
    · rename_i zero
      have free : ∀ w ∈ m₁.vm.areas mm, ¬m₁.vm.Meets start stop w := by
        cases outcome with
        | invalid denied => exact absurd access denied
        | done _ _ unmapped => exact unmapped.free range.2.1
        | noRoom _ _ _ => simp [eNoMem] at zero
      obtain ⟨search, sets⟩ := formed₁.set.findVma (start - 1)
      have entry := m₁.vm.ledger_findVma mm (start - 1)
      rcases answer : m₁.vm.findVma mm (start - 1) with ⟨found, vm⟩
      rw [answer] at done search sets entry
      simp only at done search sets entry
      have set := formed₁.set.setsCache sets
      have lays₁ : ∀ a x, vm.Lays mm a x ↔ m₁.vm.Lays mm a x := fun a x =>
        Vm.lays_congr sets.areas fun w _ => by rw [sets.vma]
      rw [← entry]
      split at done
      · rename_i v kept
        cases done
        rw [Option.filter_eq_some_iff, decide_eq_true_eq] at kept
        have mem : v ∈ vm.areas mm := by
          rw [sets.areas]
          exact List.mem_of_find?_eq_some (search.symm.trans kept.1)
        have plain : has (vm.vma v).vmFlags vmShare = false := by
          rw [kept.2.2]
          decide
        refine ⟨fun cut => ?_, fun sound₁ => ?_⟩
        · have entry' := @Vm.ledger_modifyVma vm v (fun a => { a with vmEnd := stop }) fun a => rfl
          have isArea := Vm.ledger_area_of_used (set.owned v mem).1
          rw [isArea] at entry'
          change (vm.modifyVma v fun a => { a with vmEnd := stop }).ledger.Cut
          rw [entry']
          refine cut.setArea fun a there => ?_
          rw [isArea] at there
          cases there
          exact ⟨rfl, rfl⟩
        · obtain ⟨sound₂, lays⟩ := @extend_enters mm v start stop vm set.owned sound₁ mem plain kept.2.1
          exact ⟨sound₂, fun a x outside here => (lays₁ a x).mp (lays a x outside here)⟩
      · split at done
        · rename_i vm₂ created
          cases done
          obtain ⟨grants, rfl⟩ := Vm.vmaCreate_none created
          exact ⟨id, fun sound₁ => ⟨sound₁, fun a x _ => (lays₁ a x).mp⟩⟩
        · rename_i v vm₂ created
          obtain ⟨vm₃, inserted, done⟩ := bind_eq_ok_iff.mp done
          cases done
          obtain ⟨adds, isFree, entry'⟩ :=
            Vm.adds_of_create set range (sets.apart free) created inserted
          have notArea : ∀ a, vm.ledger.area v ≠ some a := by
            intro a there
            rw [isFree] at there
            cases there
          have plain : has (vmRead ||| vmWrite) vmShare = false := by decide
          rw [entry']
          refine ⟨fun cut => cut.setArea fun a there => absurd there (notArea a), fun sound₁ =>
            ⟨sound₁.enter plain rfl fun b there => absurd there (notArea b), ?_⟩⟩
          exact fun a x outside here => (lays₁ a x).mp (adds.lays outside here)
  · rename_i denied
    cases done
    exact .inl ⟨fun splits => denied splits.1, sound, fun _ _ _ => id⟩

end Memory

end EdfKernel.Mm
