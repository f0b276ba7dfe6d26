import EdfKernel.Mm.SharedCopies

/-!
# Shared areas and the calls

What every call of the machine leaves of a sound ledger, and of the places of the addresses that
stay mapped.
-/

namespace EdfKernel.Mm

open Library

namespace Vm

variable {vm vm' : Vm} {mm : MmPtr} {addr : Nat} {x : Option (ShmemPtr × Nat)} {s : ShmemPtr}

/-- The segment that an address is mapped to, and the place in it, as `do_pgfault` finds them. -/
def segmentAt (vm : Vm) (mm : MmPtr) (addr : Nat) : Option (ShmemPtr × Nat) :=
  ((vm.findVma mm addr).1.filter (vm.covers · addr)).bind fun v => (vm.vma v).place addr

/-- The areas in use that share a segment. -/
def sharers (vm : Vm) (s : ShmemPtr) : Set VmaPtr :=
  {v | vm.vmaUsed v = true ∧ (vm.vma v).shmem = some s}

theorem segmentAt_of_lays (set : VmaSet vm mm) (lays : vm.Lays mm addr x) :
    vm.segmentAt mm addr = x := by
  obtain ⟨v, mem, from_, upTo, isPlace⟩ := lays
  have covers : vm.covers v addr = true := decide_eq_true ⟨from_, upTo⟩
  rw [segmentAt, (set.findVma addr).1, set.ordered.find_of_mem mem ⟨from_, upTo⟩]
  simp [Option.filter, covers, isPlace]

theorem KeepsSet.ledger (keeps : vm.KeepsSet vm' mm) : vm'.ledger = vm.ledger := by
  unfold Vm.ledger
  rw [keeps.vma, keeps.vmaUsed, keeps.shmem.1, keeps.shmem.2]

theorem KeepsSet.lays (keeps : vm.KeepsSet vm' mm) (lays : vm'.Lays mm addr x) :
    vm.Lays mm addr x :=
  (lays_congr keeps.areas fun _ _ => by rw [keeps.vma]).mp lays

/-- Whether it is the address space of the call or another one. -/
theorem KeepsSet.lays_all {other : MmPtr} (keeps : vm.KeepsSet vm' other)
    (lays : vm'.Lays mm addr x) : vm.Lays mm addr x := by
  by_cases own : mm = other
  · subst own
    exact keeps.lays lays
  · exact (lays_congr (keeps.spares own).areas fun _ _ => by rw [keeps.vma]).mp lays

theorem Spares.lays (spares : vm.Spares vm' mm) (lays : vm'.Lays mm addr x) :
    vm.Lays mm addr x :=
  (lays_congr spares.areas fun w mem => (spares.vma w mem).1).mp lays

end Vm

/-- The range that a call unmaps. -/
def Event.unmaps : Event → Option (MmPtr × Nat × Nat)
  | .unmap mm addr len | .brk mm addr len =>
      some (mm, roundDown addr pgSize, roundUp (add32 addr len) pgSize)
  | _ => none

/-- The call maps the address anew. -/
def Event.Remaps (mm : MmPtr) (a : Nat) : Event → Prop
  | .brk mm' addr len =>
      mm' = mm ∧ roundDown addr pgSize ≤ a ∧ a < roundUp (add32 addr len) pgSize
  | _ => False

namespace Memory

variable {m m' : Memory} {mm other : MmPtr} {addr len a : Nat} {x : Option (ShmemPtr × Nat)}

/-- Every shared area lies within a segment, and a segment is there exactly as long as areas share
it, and counts them. -/
structure SharesInOrder (m : Memory) : Prop where
  within : ∀ v, m.vm.vmaUsed v = true → has (m.vm.vma v).vmFlags vmShare = true →
    ∃ s, (m.vm.vma v).shmem = some s ∧ m.vm.shmemUsed s = true ∧
      (m.vm.vma v).shmemOff + (m.vm.hi v - m.vm.lo v) ≤ (m.vm.shmem s).len
  there : ∀ s, m.vm.shmemUsed s = true ↔ (m.vm.sharers s).Nonempty
  finite : ∀ s, (m.vm.sharers s).Finite
  counts : ∀ s, m.vm.shmemUsed s = true → (m.vm.shmem s).shmemRef = (m.vm.sharers s).ncard

theorem sharesInOrder_of_sound (sound : m.vm.ledger.Sound none) : m.SharesInOrder := by
  have sharers : ∀ s, m.vm.sharers s = {v | s ∈ m.vm.ledger.held v} := by
    intro s
    ext v
    rw [Set.mem_ofPred_eq, Ledger.mem_held_iff, Vm.ledger_area]
    constructor
    · rintro ⟨used, shmem⟩
      exact ⟨_, if_pos used, shmem⟩
    · rintro ⟨a, isArea, shmem⟩
      split at isArea
      · rename_i used
        cases isArea
        exact ⟨used, shmem⟩
      · cases isArea
  have segment : ∀ s, m.vm.shmemUsed s = true → m.vm.ledger.segment s = some (m.vm.shmem s) :=
    fun s used => if_pos used
  refine ⟨fun v used shared => ?_, fun s => ⟨fun used => ?_, ?_⟩, fun s => ?_, fun s used => ?_⟩
  · obtain ⟨s, t, shmem, isSegment, inside⟩ :=
      sound.within v _ (Vm.ledger_area_of_used used) shared
    rw [Vm.ledger_segment] at isSegment
    split at isSegment
    · rename_i isUsed
      cases isSegment
      exact ⟨s, shmem, isUsed, inside⟩
    · cases isSegment
  · obtain ⟨v, mem⟩ := (mem_tally sound.sparse).mp (sound.shared s _ (segment s used) (by simp))
    rw [sharers]
    exact ⟨v, mem⟩
  · rintro ⟨v, used, shmem⟩
    obtain ⟨t, isSegment, _⟩ := sound.lies (Vm.ledger_area_of_used used) shmem
    rw [Vm.ledger_segment] at isSegment
    split at isSegment
    · rename_i isUsed
      exact isUsed
    · cases isSegment
  · rw [sharers]
    refine sound.sparse.subset fun v mem => ?_
    intro isZero
    rw [Set.mem_ofPred_eq, isZero] at mem
    exact Multiset.notMem_zero s mem
  · rw [sound.counts s _ (segment s used), count_tally sound.sparse (m.vm.ledger.count_held_le s),
      sharers]

/-! ## Calls -/

theorem doPgfault_vm {errorCode : BitVec 32} {result : Int × Memory}
    (done : m.doPgfault (some mm) errorCode addr = .ok result) :
    result.2.vm = (m.vm.findVma mm addr).2 := by
  unfold doPgfault at done
  simp only at done
  generalize m.vm.findVma mm addr = answer at done ⊢
  obtain ⟨found, vm⟩ := answer
  cases found with
  | none =>
      cases done
      rfl
  | some v =>
      simp only at done
      split at done
      · cases done
        rfl
      · split at done
        · cases done
          rfl
        · split at done
          · obtain ⟨⟨ret, pages⟩, resolved, rest⟩ := bind_eq_ok_iff.mp done
            cases rest
            rfl
          · cases done
            rfl

theorem userLoad_vm : (m.userLoad mm addr).vm = m.vm := by
  unfold userLoad
  split <;> rfl

theorem userStore_vm {value : Nat} : (m.userStore mm addr value).vm = m.vm := by
  unfold userStore
  split
  · split <;> rfl
  · rfl

/-- A call that unmaps nothing keeps the ledger sound. -/
theorem perform_sound {e : Event} (formed : m.Formed) (used : ∀ mm ∈ e.mm, m.vm.mmUsed mm = true)
    (segment : ∀ s ∈ e.segment, m.vm.shmemUsed s = true) (sound : m.vm.ledger.Sound none)
    (noUnmap : e.unmaps = none) (done : m.perform e = .ok m') : m'.vm.ledger.Sound none := by
  cases e with
  | new =>
      obtain ⟨result, created, rfl⟩ := map_eq_ok_iff.mp done
      exact newMm_sound formed sound created
  | fork mm =>
      obtain ⟨result, copied, rfl⟩ := map_eq_ok_iff.mp done
      exact (copyMm_enters formed (used mm rfl) sound copied).1
  | share mm =>
      cases done
      exact sound
  | leave mm => exact leaveMm_sound formed (used mm rfl) sound done
  | map mm addr len flags =>
      obtain ⟨⟨ret, v, vm⟩, mapped, rest⟩ := bind_eq_ok_iff.mp done
      cases rest
      exact Vm.mmMap_sound (formed.wellFormed mm (used mm rfl)).set sound mapped
  | shmem mm addr len flags =>
      obtain ⟨result, shared, rfl⟩ := map_eq_ok_iff.mp done
      exact (doShmem_enters (formed.wellFormed mm (used mm rfl)).set sound shared).1
  | mapShmem mm addr flags s =>
      obtain ⟨⟨ret, vm⟩, mapped, rest⟩ := bind_eq_ok_iff.mp done
      cases rest
      obtain ⟨_, ⟨_, same⟩ | ⟨_, sound'⟩⟩ := Vm.mmMapShmem_enters
        (formed.wellFormed mm (used mm rfl)).set sound (by simp) (segment s rfl) mapped
      · exact same ▸ sound
      · exact sound'
  | unmap mm addr len => cases noUnmap
  | brk mm addr len => cases noUnmap
  | pgfault mm errorCode addr =>
      obtain ⟨result, resolved, rfl⟩ := map_eq_ok_iff.mp done
      rw [doPgfault_vm resolved, Vm.ledger_findVma]
      exact sound
  | load mm addr =>
      cases done
      rw [userLoad_vm]
      exact sound
  | store mm addr value =>
      cases done
      rw [userStore_vm]
      exact sound
  | swapOut mm require =>
      obtain ⟨result, evicted, rfl⟩ := map_eq_ok_iff.mp done
      rw [((swapOutMm_evicts (formed.wellFormed mm (used mm rfl))).2 result evicted).keeps.ledger]
      exact sound
  | refill =>
      obtain ⟨pages, refilled, rest⟩ := bind_eq_ok_iff.mp done
      cases rest
      exact sound
  | launder =>
      obtain ⟨⟨count, pages⟩, laundered, rest⟩ := bind_eq_ok_iff.mp done
      cases rest
      exact sound

/-! ## Places -/

theorem doShmem_spares {flags : BitVec 32} {result : Int × Memory} (ne : mm ≠ other)
    (owns : m.vm.Owns mm) (done : m.doShmem other addr len flags = .ok result) :
    m.vm.Spares result.2.vm mm := by
  unfold doShmem at done
  split at done
  · cases done
    exact .refl _ _
  · simp only at done
    revert done
    generalize sub32 (roundUp (add32 addr len) pgSize) (roundDown addr pgSize) = size
    generalize (if roundDown addr pgSize = 0 then m.vm.getUnmappedArea other size
      else roundDown addr pgSize) = chosen
    intro done
    split at done
    · cases done
      exact .refl _ _
    · rcases created : m.shmemCreate size with ⟨found, n⟩
      obtain ⟨sameMm, mmUsed, vma, vmaUsed, _⟩ := ledger_shmemCreate created
      rw [created] at done
      have first : m.vm.Spares n.vm mm := .of_eq sameMm mmUsed vma vmaUsed
      cases found with
      | none =>
          cases done
          exact first
      | some s =>
          obtain ⟨⟨ret, vm⟩, mapped, rest⟩ := bind_eq_ok_iff.mp done
          have second := first.trans (Vm.mmMapShmem_spares ne (first.owns owns) mapped)
          simp only at rest
          split at rest
          · obtain ⟨pages, destroyed, rest⟩ := bind_eq_ok_iff.mp rest
            cases rest
            exact second.trans (.of_eq rfl rfl rfl rfl)
          · cases rest
            exact second

theorem leaveMm_lays (formed : m.Formed) (isUsed : m.vm.mmUsed other = true)
    (used : m'.vm.mmUsed mm = true) (done : m.leaveMm other = .ok m')
    (lays : m'.vm.Lays mm a x) : m.vm.Lays mm a x := by
  have keeps := @Vm.modifyMm_keepsSet m.vm other (fun s => { s with mmCount := s.mmCount - 1 })
    fun s => ⟨rfl, rfl, rfl, rfl⟩
  have counted := @Formed.counted m other formed (formed.wellFormed other isUsed)
    (fun s => { s with mmCount := s.mmCount - 1 }) fun s => ⟨rfl, rfl, rfl, rfl⟩
  unfold leaveMm at done
  simp only at done
  split at done
  · obtain ⟨touches, gone, _⟩ := endMm_touches (counted.wellFormed other isUsed) done
    have ne : mm ≠ other := by
      rintro rfl
      rw [gone] at used
      cases used
    exact keeps.lays_all ((touches.spares mm ne (counted.owns mm)).lays lays)
  · cases done
    exact keeps.lays_all lays

/-- An address that stays mapped stays at its place. -/
theorem perform_lays {e : Event} (formed : m.Formed) (used : ∀ mm ∈ e.mm, m.vm.mmUsed mm = true)
    (segment : ∀ s ∈ e.segment, m.vm.shmemUsed s = true) (sound : m.vm.ledger.Sound none)
    (noSplit : ∀ r ∈ e.unmaps, ¬m.SplitsShared r.1 r.2.1 r.2.2) (done : m.perform e = .ok m')
    (isUsed : m.vm.mmUsed mm = true) (stays : m'.vm.mmUsed mm = true)
    (covers : m.vm.Covers mm a) (notAnew : ¬e.Remaps mm a) (lays : m'.vm.Lays mm a x) :
    m.vm.Lays mm a x := by
  have owns := formed.owns mm
  cases e with
  | new =>
      obtain ⟨result, created, rfl⟩ := map_eq_ok_iff.mp done
      exact (newMm_spares formed isUsed created).lays lays
  | fork source =>
      obtain ⟨result, copied, rfl⟩ := map_eq_ok_iff.mp done
      exact ((copyMm_enters formed (used source rfl) sound copied).2.1 mm isUsed).lays lays
  | share other =>
      cases done
      have keeps := @Vm.modifyMm_keepsSet m.vm other (fun s => { s with mmCount := s.mmCount + 1 })
        fun s => ⟨rfl, rfl, rfl, rfl⟩
      exact keeps.lays_all lays
  | leave other => exact leaveMm_lays formed (used other rfl) stays done lays
  | map other addr len flags =>
      obtain ⟨⟨ret, v, vm⟩, mapped, rest⟩ := bind_eq_ok_iff.mp done
      cases rest
      by_cases own : mm = other
      · subst own
        rcases Vm.mmMap_adds (formed.wellFormed mm isUsed).set mapped with
          ⟨_, only⟩ | ⟨_, adds, _⟩
        · exact (Vm.lays_congr only.entry.2.1 fun w _ => congrFun only.entry.2.2 w).mp lays
        · exact adds.lays (adds.outside covers) lays
      · exact (Vm.mmMap_spares own owns mapped).1.lays lays
  | shmem other addr len flags =>
      obtain ⟨result, shared, rfl⟩ := map_eq_ok_iff.mp done
      by_cases own : mm = other
      · subst own
        obtain ⟨_, _, _, grows⟩ := doShmem_enters (formed.wellFormed mm isUsed).set sound shared
        exact grows.lays covers lays
      · exact (doShmem_spares own owns shared).lays lays
  | mapShmem other addr flags s =>
      obtain ⟨⟨ret, vm⟩, mapped, rest⟩ := bind_eq_ok_iff.mp done
      cases rest
      by_cases own : mm = other
      · subst own
        obtain ⟨grows, _⟩ := Vm.mmMapShmem_enters (formed.wellFormed mm isUsed).set sound (by simp)
          (segment s rfl) mapped
        exact grows.lays covers lays
      · exact (Vm.mmMapShmem_spares own owns mapped).lays lays
  | unmap other addr len =>
      obtain ⟨result, unmapped, rfl⟩ := map_eq_ok_iff.mp done
      have before := formed.wellFormed other (used other rfl)
      by_cases own : mm = other
      · subst own
        rcases mmUnmap_leaves before sound unmapped with ⟨_, _, parts⟩ | ⟨splits, _⟩
        · exact parts.lays lays
        · exact absurd splits (noSplit _ rfl)
      · exact (mmUnmap_spares before owns own unmapped).lays lays
  | brk other addr len =>
      obtain ⟨result, grown, rfl⟩ := map_eq_ok_iff.mp done
      have before := formed.wellFormed other (used other rfl)
      by_cases own : mm = other
      · subst own
        rcases mmBrk_leaves before sound grown with ⟨_, _, places⟩ | ⟨splits, _⟩
        · exact places a x (fun inside => notAnew ⟨rfl, inside⟩) lays
        · exact absurd splits (noSplit _ rfl)
      · exact (mmBrk_spares before owns own grown).lays lays
  | pgfault other errorCode addr =>
      obtain ⟨result, resolved, rfl⟩ := map_eq_ok_iff.mp done
      have sets := ((formed.wellFormed other (used other rfl)).set.findVma addr).2
      rw [← doPgfault_vm resolved] at sets
      exact sets.keepsSet.lays_all lays
  | load other addr =>
      cases done
      rw [userLoad_vm] at lays
      exact lays
  | store other addr value =>
      cases done
      rw [userStore_vm] at lays
      exact lays
  | swapOut other require =>
      obtain ⟨result, evicted, rfl⟩ := map_eq_ok_iff.mp done
      exact ((swapOutMm_evicts (formed.wellFormed other (used other rfl))).2 result
        evicted).keeps.lays_all lays
  | refill =>
      obtain ⟨pages, refilled, rest⟩ := bind_eq_ok_iff.mp done
      cases rest
      exact lays
  | launder =>
      obtain ⟨⟨count, pages⟩, laundered, rest⟩ := bind_eq_ok_iff.mp done
      cases rest
      exact lays

end Memory

end EdfKernel.Mm
