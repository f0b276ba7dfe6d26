import EdfKernel.Mm.AreaInvariant
import EdfKernel.Mm.Sharing

/-!
# Unmapping shared areas

`mm_unmap` trims and destroys shared areas and keeps the ledger sound, unless it splits one: the
new area is given no segment.
-/

namespace EdfKernel.Mm

open Library

namespace Ledger

/-- No area is new, and what is left of one is a part of it. -/
def Shrinks (l l' : Ledger) : Prop :=
  ∀ v b, l'.area v = some b → ∃ a, l.area v = some a ∧ a.Part b

variable {l l' l'' : Ledger} {v : VmaPtr} {a b : VmaStruct}

theorem Shrinks.refl (l : Ledger) : l.Shrinks l :=
  fun _ b there => ⟨b, there, .refl b⟩

theorem Shrinks.trans (first : l.Shrinks l') (second : l'.Shrinks l'') : l.Shrinks l'' := by
  intro v c there
  obtain ⟨b, there', part'⟩ := second v c there
  obtain ⟨a, there'', part⟩ := first v b there'
  exact ⟨a, there'', part.trans part'⟩

theorem Shrinks.trim (isArea : l.area v = some a) (part : a.Part b) :
    l.Shrinks (l.setArea v (some b)) := by
  intro w c there
  by_cases own : w = v
  · subst own
    rw [area_setArea_self] at there
    cases there
    exact ⟨a, isArea, part⟩
  · rw [area_setArea_of_ne l _ own] at there
    exact ⟨c, there, .refl c⟩

theorem Shrinks.drop (l : Ledger) (v : VmaPtr) : l.Shrinks (l.setArea v none) := by
  intro w c there
  by_cases own : w = v
  · subst own
    rw [area_setArea_self] at there
    cases there
  · rw [area_setArea_of_ne l _ own] at there
    exact ⟨c, there, .refl c⟩

end Ledger

namespace Vm

/-- Every area of the address space is a part of one that was there. -/
def Parts (vm vm' : Vm) (mm : MmPtr) : Prop :=
  ∀ v ∈ vm'.areas mm, ∃ w ∈ vm.areas mm, (vm.vma w).Part (vm'.vma v)

variable {vm vm' : Vm} {mm : MmPtr} {v : VmaPtr} {start stop : Nat} {spare : Option ShmemPtr}

theorem Parts.of_ledger (owns : vm'.Owns mm)
    (parts : ∀ v ∈ vm'.areas mm, ∀ b, vm'.ledger.area v = some b →
      ∃ w ∈ vm.areas mm, ∃ a, vm.ledger.area w = some a ∧ a.Part b) : vm.Parts vm' mm := by
  intro v mem
  obtain ⟨w, memW, a, there, part⟩ := parts v mem _ (ledger_area_of_used (owns v mem).1)
  refine ⟨w, memW, ?_⟩
  rw [ledger_area] at there
  split at there
  · cases there
    exact ⟨part.flags, part.shmem, part.inside, part.off⟩
  · cases there

theorem Parts.refl (vm : Vm) (mm : MmPtr) : vm.Parts vm mm :=
  fun v mem => ⟨v, mem, .refl _⟩

/-- `vma_resize` at an area in use. -/
theorem sound_vmaResize (sound : vm.ledger.Sound spare) (used : vm.vmaUsed v = true)
    (resized : vm.vmaResize v start stop = .ok vm') :
    vm'.ledger.Sound spare ∧ vm.ledger.Shrinks vm'.ledger := by
  obtain ⟨entry, from_, less, upTo⟩ := ledger_vmaResize resized
  have isArea := ledger_area_of_used used
  rw [isArea] at entry
  obtain ⟨sound', part⟩ := sound.trim isArea from_ less upTo
  rw [entry]
  exact ⟨sound', .trim isArea part⟩

end Vm

namespace Memory

variable {m m' : Memory} {mm : MmPtr} {v : VmaPtr} {addr len start stop : Nat} {vm : Vm}

/-! ## vma_destroy -/

/-- `vma_destroy` enters that the area is gone, and with the last one its segment. -/
theorem ledger_vmaDestroy (done : m.vmaDestroy v = .ok m') :
    (has (m.vm.vma v).vmFlags vmShare = false ∧ m'.vm.ledger = m.vm.ledger.setArea v none) ∨
      ∃ s, (m.vm.vma v).shmem = some s ∧ (m.vm.shmemUsed s = true →
        m'.vm.ledger = (m.vm.ledger.setArea v none).setSegment s
          (Ledger.release (m.vm.shmem s))) := by
  obtain ⟨n, dropped, rest⟩ := bind_eq_ok_iff.mp done
  cases rest
  rw [Vm.ledger_freeVma]
  split at dropped
  · split at dropped
    · cases dropped
    · rename_i s shmem
      refine .inr ⟨s, shmem, fun used => ?_⟩
      have entry := @Vm.ledger_modifyShmem m.vm (fun t => { t with shmemRef := t.shmemRef - 1 }) s
      rw [Vm.ledger_segment, if_pos used] at entry
      have ref : ((m.vm.modifyShmem s fun t => { t with shmemRef := t.shmemRef - 1 }).shmem
          s).shmemRef = (m.vm.shmem s).shmemRef - 1 := by
        simp [Vm.modifyShmem]
      simp only at dropped
      rw [ref] at dropped
      split at dropped
      · rename_i last
        obtain ⟨pages, destroyed, rest⟩ := bind_eq_ok_iff.mp dropped
        cases rest
        rw [Vm.ledger_freeShmem, entry, Ledger.release, if_pos last]
        simp [Ledger.setArea, Ledger.setSegment]
      · rename_i more
        cases dropped
        rw [entry, Ledger.release, if_neg more]
        rfl
  · rename_i plain
    cases dropped
    exact .inl ⟨Bool.not_eq_true _ ▸ plain, rfl⟩

theorem sound_vmaDestroy (sound : m.vm.ledger.Sound none) (used : m.vm.vmaUsed v = true)
    (done : m.vmaDestroy v = .ok m') :
    m'.vm.ledger.Sound none ∧ m.vm.ledger.Shrinks m'.vm.ledger := by
  have isArea := Vm.ledger_area_of_used used
  rcases ledger_vmaDestroy done with ⟨plain, entry⟩ | ⟨s, shmem, entry⟩
  · rw [entry]
    exact ⟨sound.leave isArea plain, .drop _ v⟩
  · obtain ⟨t, there, _⟩ := sound.lies isArea shmem
    have isSegment := there
    rw [Vm.ledger_segment] at isSegment
    split at isSegment
    · rename_i isUsed
      cases isSegment
      rw [entry isUsed]
      exact ⟨sound.drop isArea shmem there, Ledger.Shrinks.drop _ v⟩
    · cases isSegment

/-! ## The second loop of mm_unmap -/

theorem sound_unmapVma (sound : m.vm.ledger.Sound none) (used : m.vm.vmaUsed v = true)
    (done : m.unmapVma mm start stop v = .ok m') :
    m'.vm.ledger.Sound none ∧ m.vm.ledger.Shrinks m'.vm.ledger := by
  unfold unmapVma at done
  simp only at done
  split at done
  · obtain ⟨vm, resized, rest⟩ := bind_eq_ok_iff.mp done
    obtain ⟨vm', inserted, rest⟩ := bind_eq_ok_iff.mp rest
    obtain ⟨pages, unmapped, rest⟩ := bind_eq_ok_iff.mp rest
    cases rest
    rw [Vm.ledger_insertVmaStruct inserted]
    exact Vm.sound_vmaResize sound used resized
  · split at done
    · obtain ⟨vm, resized, rest⟩ := bind_eq_ok_iff.mp done
      obtain ⟨vm', inserted, rest⟩ := bind_eq_ok_iff.mp rest
      obtain ⟨pages, unmapped, rest⟩ := bind_eq_ok_iff.mp rest
      cases rest
      rw [Vm.ledger_insertVmaStruct inserted]
      exact Vm.sound_vmaResize sound used resized
    · obtain ⟨n, destroyed, rest⟩ := bind_eq_ok_iff.mp done
      obtain ⟨pages, unmapped, rest⟩ := bind_eq_ok_iff.mp rest
      cases rest
      have dropped := sound_vmaDestroy sound used destroyed
      exact dropped

theorem sound_unmapVmas {list : List VmaPtr} (set : m.vm.VmaSet mm) (backed : m.pages.Backed)
    (taken : Taken m.vm mm start stop list) (sound : m.vm.ledger.Sound none)
    (done : unmapVmas mm start stop list m = .ok m') :
    m'.vm.ledger.Sound none ∧ m.vm.ledger.Shrinks m'.vm.ledger ∧
      ∀ w ∈ m'.vm.areas mm, w ∈ m.vm.areas mm ∨ w ∈ list := by
  induction list generalizing m with
  | nil =>
      cases done
      exact ⟨sound, .refl _, fun w => .inl⟩
  | cons v rest ih =>
      obtain ⟨n, first, done⟩ := bind_eq_ok_iff.mp done
      have here := List.mem_cons_self (a := v) (l := rest)
      have trims := unmapVma_trims set backed (taken.detached v here) (taken.meets v here).1
        (taken.meets v here).2 (taken.noHole v here) first
      obtain ⟨sound₁, shrinks₁⟩ := sound_unmapVma sound (taken.detached v here).used first
      obtain ⟨sound₂, shrinks₂, areas⟩ :=
        ih trims.set trims.cleared.backed (taken.next trims) sound₁ done
      refine ⟨sound₂, shrinks₁.trans shrinks₂, fun w mem => ?_⟩
      rcases areas w mem with there | later
      · rcases trims.areas w there with before | own
        · exact .inl before
        · exact .inr (own ▸ here)
      · exact .inr (List.mem_cons_of_mem v later)

/-! ## Splitting an area -/

/-- `mm_unmap` of a range inside an area: there is no memory for a second area, or the second one
has the flags of the first and no segment. -/
theorem ledger_unmapHole {result : Int × Memory} (set : m.vm.VmaSet mm) (mem : v ∈ m.vm.areas mm)
    (low : m.vm.lo v < start) (less : start < stop) (aligned : start % pgSize = 0)
    (done : m.unmapHole mm start stop v = .ok result) :
    ((m.vm.kmalloc m.vm.vmaUsed).1 = none ∧ ∃ grants,
        result.2.vm = { m.vm with grants := grants }) ∨
      (m.vm.kmalloc m.vm.vmaUsed).1 ≠ none ∧ ∃ w, w ≠ v ∧ m.vm.ledger.area w = none ∧
        result.2.vm.ledger =
          (m.vm.ledger.setArea w (some ⟨0, m.vm.lo v, start, (m.vm.vma v).vmFlags, none, 0⟩)).setArea
            v (some ((m.vm.vma v).loose.resize stop (m.vm.hi v))) ∧
        stop < m.vm.hi v ∧ ∀ x ∈ result.2.vm.areas mm, x = w ∨ x ∈ m.vm.areas mm := by
  have noneIff := m.vm.vmaCreate_eq_none_iff (m.vm.lo v) start (m.vm.vma v).vmFlags
  have used := (set.owned v mem).1
  unfold unmapHole at done
  rcases created : m.vm.vmaCreate (m.vm.lo v) start (m.vm.vma v).vmFlags with ⟨found, vm⟩
  rw [created] at noneIff
  change m.vm.vmaCreate (m.vm.vma v).vmStart start (m.vm.vma v).vmFlags = _ at created
  rw [created] at done
  cases found with
  | none =>
      cases done
      obtain ⟨grants, rfl⟩ := Vm.vmaCreate_none created
      exact .inl ⟨noneIff.mp rfl, grants, rfl⟩
  | some w =>
      obtain ⟨vm₁, resized, done⟩ := bind_eq_ok_iff.mp done
      obtain ⟨vm₂, inserted, done⟩ := bind_eq_ok_iff.mp done
      obtain ⟨pages, unmapped, done⟩ := bind_eq_ok_iff.mp done
      cases done
      have creates := Vm.vmaCreate_creates created
      obtain ⟨free, entry⟩ := Vm.ledger_vmaCreate created
      have ne : w ≠ v := by
        rintro rfl
        rw [Vm.ledger_area_of_used used] at free
        cases free
      have same : vm.vma v = m.vm.vma v := creates.other v ne.symm
      rw [same] at resized
      obtain ⟨entry', _, high, _⟩ := Vm.ledger_vmaResize resized
      have resizes := Vm.vmaResize_resizes resized
      obtain ⟨set₁, detached⟩ := set.splits mem creates resizes low less aligned
      obtain ⟨_, before, after, links⟩ := detached.insert set₁ inserted
      have areas : vm₁.areas mm = m.vm.areas mm := by
        rw [Vm.areas, resizes.mm, creates.mm]
        rfl
      refine .inr ⟨fun isNone => ?_, w, ne, free, ?_, high, fun x inSet => ?_⟩
      · cases noneIff.mpr isNone
      · change vm₂.ledger = _
        rw [Vm.ledger_insertVmaStruct inserted, entry', entry,
          Ledger.area_setArea_of_ne _ _ ne.symm, Vm.ledger_area_of_used used]
        rfl
      · change x ∈ vm₂.areas mm at inSet
        rw [links.areas, List.mem_append, List.mem_cons] at inSet
        rw [← areas, links.list, List.mem_append]
        tauto

/-- A shared area is split: the range is inside one, and there is memory for a second. -/
def SplitsShared (m : Memory) (mm : MmPtr) (start stop : Nat) : Prop :=
  userAccess start stop = true ∧
    (∃ v ∈ m.vm.areas mm, has (m.vm.vma v).vmFlags vmShare = true ∧ m.vm.lo v < start ∧
      stop < m.vm.hi v) ∧
    (m.vm.kmalloc m.vm.vmaUsed).1 ≠ none

/-- What `mm_unmap` leaves of a sound ledger: a sound one with parts of the areas, or a cut area. -/
def UnmapLeaves (m m' : Memory) (mm : MmPtr) (start stop : Nat) : Prop :=
  (¬m.SplitsShared mm start stop ∧ m'.vm.ledger.Sound none ∧ m.vm.Parts m'.vm mm) ∨
    (m.SplitsShared mm start stop ∧ m'.vm.ledger.Cut)

theorem unmapHole_leaves {result : Int × Memory} (set : m.vm.VmaSet mm)
    (after : result.2.vm.VmaSet mm) (sound : m.vm.ledger.Sound none) (mem : v ∈ m.vm.areas mm)
    (access : userAccess start stop = true) (aligned : start % pgSize = 0)
    (low : m.vm.lo v < start) (high : stop < m.vm.hi v)
    (done : m.unmapHole mm start stop v = .ok result) : m.UnmapLeaves result.2 mm start stop := by
  have less := (of_decide_eq_true access).2.1
  have used := (set.owned v mem).1
  have isArea := Vm.ledger_area_of_used used
  rcases ledger_unmapHole set mem low less aligned done with
    ⟨isNone, grants, same⟩ | ⟨isSome, w, ne, free, entry, _, areas⟩
  · refine .inl ⟨fun splits => splits.2.2 isNone, ?_, ?_⟩
    · rw [same]
      exact sound
    · rw [same]
      exact .refl _ _
  · cases shared : has (m.vm.vma v).vmFlags vmShare with
    | true =>
        refine .inr ⟨⟨access, ⟨v, mem, shared, low, high⟩, isSome⟩, w,
          ⟨0, m.vm.lo v, start, (m.vm.vma v).vmFlags, none, 0⟩, ?_, shared, rfl⟩
        rw [entry, Ledger.area_setArea_of_ne _ _ ne, Ledger.area_setArea_self]
    | false =>
        have created : (m.vm.ledger.setArea w
            (some ⟨0, m.vm.lo v, start, (m.vm.vma v).vmFlags, none, 0⟩)).Sound none :=
          sound.enter shared rfl fun b there => by
            rw [free] at there
            cases there
        have isArea' := (Ledger.area_setArea_of_ne m.vm.ledger
          (some ⟨0, m.vm.lo v, start, (m.vm.vma v).vmFlags, none, 0⟩) ne.symm).trans isArea
        obtain ⟨sound', part⟩ := created.trim isArea' (low.trans less).le high le_rfl
        refine .inl ⟨?_, entry ▸ sound', .of_ledger after.owned fun x inSet b there => ?_⟩
        · -- no other area contains the range
          rintro ⟨_, ⟨x, memX, sharedX, lowX, highX⟩, _⟩
          rcases set.ordered.disjoint memX mem with rfl | le | le
          · rw [shared] at sharedX
            cases sharedX
          · omega
          · omega
        · rw [entry] at there
          by_cases own : x = v
          · subst own
            rw [Ledger.area_setArea_self] at there
            cases there
            exact ⟨x, mem, _, isArea, part⟩
          · rw [Ledger.area_setArea_of_ne _ _ own] at there
            rcases areas x inSet with rfl | old
            · rw [Ledger.area_setArea_self] at there
              cases there
              have plain := (sound.links v _ isArea).plain shared
              refine ⟨v, mem, _, isArea, rfl, plain.symm, ⟨le_rfl, (less.trans high).le⟩,
                fun isShared => ?_⟩
              change has (m.vm.vma v).vmFlags vmShare = true at isShared
              rw [shared] at isShared
              cases isShared
            · have other : x ≠ w := by
                rintro rfl
                rw [Vm.ledger_area_of_used (set.owned x old).1] at free
                cases free
              rw [Ledger.area_setArea_of_ne _ _ other] at there
              exact ⟨x, old, b, there, .refl b⟩

theorem UnmapLeaves.of_setsCache (sets : m.vm.SetsCache mm vm)
    (leaves : ({ m with vm := vm } : Memory).UnmapLeaves m' mm start stop) :
    m.UnmapLeaves m' mm start stop := by
  have splits : ({ m with vm := vm } : Memory).SplitsShared mm start stop ↔
      m.SplitsShared mm start stop := by
    unfold SplitsShared Vm.lo Vm.hi
    rw [sets.areas, sets.vma, sets.kmalloc]
  rcases leaves with ⟨noSplit, sound, parts⟩ | ⟨isSplit, cut⟩
  · refine .inl ⟨fun isSplit => noSplit (splits.mpr isSplit), sound, fun v mem => ?_⟩
    obtain ⟨w, memW, part⟩ := parts v mem
    rw [sets.areas] at memW
    rw [sets.vma] at part
    exact ⟨w, memW, part⟩
  · exact .inr ⟨splits.mp isSplit, cut⟩

/-- `mm_unmap` after it has found an area that meets the range, and that does not contain it. -/
theorem First.leaves {before rest : List VmaPtr} {taken : List VmaPtr × Vm} {fuel : Nat}
    (formed : m.WellFormed mm) (first : First m.vm mm start v before rest)
    (noHole : ¬(m.vm.lo v < start ∧ stop < m.vm.hi v)) (access : userAccess start stop = true)
    (enough : rest.length < fuel) (sound : m.vm.ledger.Sound none)
    (takes : m.vm.takeOut mm stop fuel v [] = .ok taken) (after : m'.vm.Owns mm)
    (done : unmapVmas mm start stop taken.1 { m with vm := taken.2 } = .ok m') :
    m.UnmapLeaves m' mm start stop := by
  obtain ⟨run, last, split, freed, lows, highs, set, areas, vma, used, keeps⟩ :=
    Vm.takeOut_spec formed.set first.list enough takes
  rw [List.append_nil] at freed
  have isTaken := first.taken formed.set noHole split lows areas vma used
  have entry := Vm.ledger_takeOut takes
  rw [← entry] at sound
  rw [freed] at done
  obtain ⟨sound', shrinks, mem⟩ := @sound_unmapVmas { m with vm := taken.2 } m' mm start stop
    run.reverse set formed.backed isTaken sound done
  have list : m.vm.areas mm = before ++ (run ++ last) := by rw [first.list, split]
  refine .inl ⟨?_, sound', .of_ledger after fun x inSet b there => ?_⟩
  · -- only the first area can contain the range
    rintro ⟨_, ⟨w, memW, _, low, high⟩, _⟩
    have less := (of_decide_eq_true access).2.1
    have ends := first.ends
    rw [first.list, List.mem_append, List.mem_cons] at memW
    rcases memW with inBefore | rfl | inRest
    · have le := first.below w inBefore
      omega
    · exact noHole ⟨low, high⟩
    · have le := first.above w inRest
      omega
  · obtain ⟨a, isArea, part⟩ := shrinks x b there
    refine ⟨x, ?_, a, entry ▸ isArea, part⟩
    rw [list, List.mem_append, List.mem_append]
    rcases mem x inSet with there | inRun
    · change x ∈ taken.2.areas mm at there
      rw [areas, List.mem_append] at there
      tauto
    · exact .inr (.inl (List.mem_reverse.mp inRun))

theorem mmUnmap_leaves {result : Int × Memory} (formed : m.WellFormed mm)
    (sound : m.vm.ledger.Sound none) (done : m.mmUnmap mm addr len = .ok result) :
    m.UnmapLeaves result.2 mm (roundDown addr pgSize) (roundUp (add32 addr len) pgSize) := by
  have after := (mmUnmap_wellFormed formed done).set
  unfold mmUnmap at done
  simp only at done
  split at done
  · rename_i access
    have aligned := (userRange_of_userAccess access).2.2.2.1
    revert done access aligned
    generalize roundDown addr pgSize = start
    generalize roundUp (add32 addr len) pgSize = stop
    intro access done aligned
    have less := (of_decide_eq_true access).2.1
    obtain ⟨search, sets⟩ := formed.set.findVma start
    have entry := m.vm.ledger_findVma mm start
    rcases found : m.vm.findVma mm start with ⟨first, vm⟩
    rw [found] at done search sets entry
    simp only at done search sets entry
    have sound₁ : vm.ledger.Sound none := entry.symm ▸ sound
    have untouched : (∀ w ∈ m.vm.areas mm, m.vm.hi w ≤ start ∨ stop ≤ m.vm.lo w) →
        ({ m with vm := vm } : Memory).UnmapLeaves { m with vm := vm } mm start stop := by
      intro free
      refine .inl ⟨?_, sound₁, .refl _ _⟩
      rintro ⟨_, ⟨w, memW, _, low, high⟩, _⟩
      change w ∈ vm.areas mm at memW
      change vm.lo w < start at low
      change stop < vm.hi w at high
      rw [sets.areas] at memW
      rw [Vm.lo, sets.vma] at low
      rw [Vm.hi, sets.vma] at high
      rcases free w memW with le | le
      · change (m.vm.vma w).vmEnd ≤ start at le
        omega
      · change stop ≤ (m.vm.vma w).vmStart at le
        omega
    refine .of_setsCache sets ?_
    cases first with
    | none =>
        cases done
        exact untouched fun w memW => .inl (Intervals.Ordered.find_eq_none search.symm w memW)
    | some v =>
        obtain ⟨mem, ends, others⟩ := formed.set.ordered.find_eq_some search.symm
        simp only at done
        split at done
        · rename_i beyond
          rw [sets.vma] at beyond
          cases done
          refine untouched fun w memW => ?_
          rcases others w memW with rfl | le | le
          · exact .inr beyond
          · exact .inl le
          · have inside := formed.set.ordered.nonempty v mem
            change stop ≤ m.vm.lo v at beyond
            exact .inr (by omega)
        · have set₁ := formed.set.setsCache sets
          split at done
          · rename_i hole
            rw [← sets.areas] at mem
            exact @unmapHole_leaves { m with vm := vm } mm v start stop result set₁ after sound₁
              mem access aligned hole.1 hole.2 done
          · rename_i noHole
            obtain ⟨before, rest, isFirst⟩ := first_of_findVma formed.set found
            have enough : rest.length < (vm.mm mm).mmapList.length := by
              change _ < (vm.areas mm).length
              rw [isFirst.list, List.length_append, List.length_cons]
              omega
            obtain ⟨taken, takes, done⟩ := bind_eq_ok_iff.mp done
            obtain ⟨m', unmaps, done⟩ := bind_eq_ok_iff.mp done
            cases done
            exact @First.leaves { m with vm := vm } m' mm v start stop before rest taken _
              (formed.setsCache sets) isFirst noHole access enough sound₁ takes after.owned unmaps
  · rename_i denied
    cases done
    exact .inl ⟨fun splits => denied splits.1, sound, .refl _ _⟩

end Memory

end EdfKernel.Mm
