import EdfKernel.Mm.AreaRuns
import EdfKernel.Mm.SharedCalls

/-!
# Copies of shared areas, and their end

`dup_mmap` enters areas at the places of those it copies, and `mm_destroy` that they are gone.
-/

namespace EdfKernel.Mm

open Library

namespace Vm

variable {vm vm' : Vm} {mm : MmPtr} {v : VmaPtr} {addr : Nat} {x : Option (ShmemPtr × Nat)}

/-- Where an address is can be read in the ledger. -/
theorem lays_iff_ledger (owns : vm.Owns mm) : vm.Lays mm addr x ↔ ∃ v ∈ vm.areas mm, ∃ a,
    vm.ledger.area v = some a ∧ a.vmStart ≤ addr ∧ addr < a.vmEnd ∧ a.place addr = x := by
  refine exists_congr fun v => and_congr_right fun mem => ?_
  have isArea := ledger_area_of_used (owns v mem).1
  constructor
  · rintro ⟨from_, upTo, isPlace⟩
    exact ⟨_, isArea, from_, upTo, isPlace⟩
  · rintro ⟨a, there, from_, upTo, isPlace⟩
    rw [isArea] at there
    cases there
    exact ⟨from_, upTo, isPlace⟩

end Vm

namespace Memory

variable {m m' : Memory} {mm target source : MmPtr} {v : VmaPtr} {result : Int × Memory}

/-! ## dup_mmap -/

/-- The copy of an area that is entered, as `dup_mmap` makes it. -/
theorem copy_enters {vm vm' : Vm} {n : VmaPtr} {a : VmaStruct} {l : Ledger}
    (sound : l.Sound none) (isArea : l.area v = some a.loose) (free : l.area n = none)
    (entry : vm.ledger = l.setArea n (some ⟨0, a.vmStart, a.vmEnd, a.vmFlags, none, 0⟩))
    (done : (if has a.vmFlags vmShare then
      match a.shmem with
      | none => .error .nullShmem
      | some shmem =>
          .ok ((vm.modifyVma n fun t => { t with shmem := a.shmem, shmemOff := a.shmemOff })
            |>.modifyShmem shmem fun t => { t with shmemRef := t.shmemRef + 1 })
      else .ok vm : Except Panic Vm) = .ok vm') :
    vm'.ledger.Sound none ∧ (∀ w, w ≠ n → vm'.ledger.area w = l.area w) ∧
      ∃ b, vm'.ledger.area n = some b ∧ b.vmStart = a.vmStart ∧ b.vmEnd = a.vmEnd ∧
        ∀ addr, b.place addr = a.place addr := by
  split at done
  · rename_i shared
    split at done
    · cases done
    · rename_i s shmem
      cases done
      obtain ⟨t, there, inside⟩ := sound.lies isArea shmem
      have copied := @Vm.ledger_modifyVma vm n
        (fun b => { b with shmem := a.shmem, shmemOff := a.shmemOff }) fun b => rfl
      have counted := @Vm.ledger_modifyShmem
        (vm.modifyVma n fun b => { b with shmem := a.shmem, shmemOff := a.shmemOff })
        (fun t => { t with shmemRef := t.shmemRef + 1 }) s
      rw [copied, entry, Ledger.area_setArea_self, Ledger.setArea_setArea,
        Ledger.segment_setArea, there] at counted
      rw [counted]
      refine ⟨sound.take (by simp) free there shmem shared inside, fun w other => ?_, _,
        Ledger.area_setArea_self .., rfl, rfl, fun addr => rfl⟩
      exact Ledger.area_setArea_of_ne l _ other
  · rename_i plain
    cases done
    rw [entry]
    refine ⟨sound.enter (Bool.not_eq_true _ ▸ plain) rfl fun b there => ?_,
      fun w other => Ledger.area_setArea_of_ne l _ other, _, Ledger.area_setArea_self .., rfl, rfl,
      fun addr => ?_⟩
    · rw [free] at there
      cases there
    · simp [VmaStruct.place, plain]

/-- `dup_mmap` at one area: the copy has its addresses at the same places. -/
theorem dupVma_enters (formed : m.WellFormed target) (used : m.vm.vmaUsed v = true)
    (range : Vm.UserRange (m.vm.lo v) (m.vm.hi v))
    (above : ∀ w ∈ m.vm.areas target, m.vm.hi v ≤ m.vm.lo w) (sound : m.vm.ledger.Sound none)
    (done : m.dupVma target source v = .ok result) :
    result.2.vm.ledger.Sound none ∧ ∀ addr x, result.2.vm.Lays target addr x →
      m.vm.Lays target addr x ∨
        (m.vm.lo v ≤ addr ∧ addr < m.vm.hi v ∧ (m.vm.vma v).place addr = x) := by
  have isArea := Vm.ledger_area_of_used used
  have after := (dupVma_wellFormed formed range above).2 done
  have free : ∀ w ∈ m.vm.areas target, ¬m.vm.Meets (m.vm.lo v) (m.vm.hi v) w := by
    rintro w mem ⟨low, _⟩
    have le := above w mem
    have less := range.2.1
    omega
  unfold dupVma at done
  simp only at done
  split at done
  · rename_i vm₁ created
    cases done
    obtain ⟨grants, rfl⟩ := Vm.vmaCreate_none created
    exact ⟨sound, fun addr x => .inl⟩
  · rename_i n vm₁ created
    obtain ⟨set₁, _, detached₁⟩ := Vm.detached_of_create formed.set range free created
    obtain ⟨_, _, areas₁, _⟩ := (Vm.vmaCreate_creates created).vmaSet formed.set
    obtain ⟨isFree, entry⟩ := Vm.ledger_vmaCreate created
    obtain ⟨vm₂, fields, done⟩ := bind_eq_ok_iff.mp done
    obtain ⟨vm₃, inserted, done⟩ := bind_eq_ok_iff.mp done
    obtain ⟨⟨ret, pages⟩, copied, done⟩ := bind_eq_ok_iff.mp done
    cases done
    obtain ⟨same, _⟩ := dupFields fields
    obtain ⟨sound₂, others, b, isCopy, start, stop, place⟩ :=
      copy_enters sound isArea isFree entry fields
    obtain ⟨_, before, last, links⟩ := (same.detached detached₁).insert (same.vmaSet set₁) inserted
    have entry₃ := Vm.ledger_insertVmaStruct inserted
    refine ⟨entry₃ ▸ sound₂, fun addr x lays => ?_⟩
    rw [Vm.lays_iff_ledger after.1.set.owned] at lays
    obtain ⟨w, mem, a, there, from_, upTo, isPlace⟩ := lays
    change w ∈ vm₃.areas target at mem
    change vm₃.ledger.area w = some a at there
    rw [entry₃] at there
    by_cases own : w = n
    · subst own
      rw [isCopy] at there
      cases there
      rw [start] at from_
      rw [stop] at upTo
      rw [place] at isPlace
      exact .inr ⟨from_, upTo, isPlace⟩
    · rw [others w own] at there
      refine .inl ((Vm.lays_iff_ledger formed.set.owned).mpr ⟨w, ?_, a, there, from_, upTo, isPlace⟩)
      rw [links.areas, List.mem_append, List.mem_cons] at mem
      rw [← areas₁, ← same.areas, links.list, List.mem_append]
      tauto

/-- The loop of `dup_mmap`. -/
theorem dupVmas_enters {list : List VmaPtr} (formed : m.WellFormed target)
    (set : m.vm.VmaSet source) (ne : source ≠ target) (left : m.ToCopy target source list)
    (sound : m.vm.ledger.Sound none) (done : dupVmas target source list m = .ok result) :
    result.2.vm.ledger.Sound none ∧ ∀ addr x, result.2.vm.Lays target addr x →
      m.vm.Lays target addr x ∨ m.vm.Lays source addr x := by
  induction list generalizing m with
  | nil =>
      cases done
      exact ⟨sound, fun addr x => .inl⟩
  | cons v rest ih =>
      obtain ⟨⟨ret, n⟩, first, done⟩ := bind_eq_ok_iff.mp done
      have here := List.mem_cons_self (a := v) (l := rest)
      have mem := left.mem v here
      obtain ⟨sound₁, lays₁⟩ := dupVma_enters formed (set.owned v mem).1 (set.range v mem)
        (left.above v here) sound first
      have step : ∀ addr x, n.vm.Lays target addr x →
          m.vm.Lays target addr x ∨ m.vm.Lays source addr x := by
        intro addr x lays
        rcases lays₁ addr x lays with before | ⟨from_, upTo, isPlace⟩
        · exact .inl before
        · exact .inr ⟨v, mem, from_, upTo, isPlace⟩
      simp only at done
      split at done
      · cases done
        exact ⟨sound₁, step⟩
      · obtain ⟨formed', set', left'⟩ := left.next formed set ne first
        obtain ⟨sound₂, lays₂⟩ := ih formed' set' left' sound₁ done
        have spares := dupVma_spares ne set.owned first
        refine ⟨sound₂, fun addr x lays => ?_⟩
        rcases lays₂ addr x lays with inTarget | inSource
        · exact step addr x inTarget
        · exact .inr ((Vm.lays_congr spares.areas fun w memW => (spares.vma w memW).1).mp inSource)

/-- `dup_mmap` into an address space without areas. -/
theorem dupMmap_enters (formed : m.WellFormed target) (set : m.vm.VmaSet source)
    (ne : source ≠ target) (empty : m.vm.areas target = []) (sound : m.vm.ledger.Sound none)
    (done : m.dupMmap target source = .ok result) :
    result.2.vm.ledger.Sound none ∧ ∀ addr x, result.2.vm.Lays target addr x →
      m.vm.Lays source addr x := by
  obtain ⟨sound', lays⟩ := dupVmas_enters formed set ne (.all set empty) sound done
  refine ⟨sound', fun addr x here => ?_⟩
  rcases lays addr x here with ⟨w, mem, _⟩ | inSource
  · rw [empty] at mem
    cases mem
  · exact inSource

/-! ## mm_create and mm_destroy -/

theorem ledger_mmCreate (m : Memory) : m.mmCreate.2.vm.ledger = m.vm.ledger := by
  unfold mmCreate
  rcases answer : m.vm.kmalloc m.vm.mmUsed with ⟨found, vm⟩
  obtain ⟨grants, rfl, _⟩ := Vm.kmalloc_spec answer
  cases found with
  | none => rfl
  | some mm => rfl

theorem destroyVmas_sound {list : List VmaPtr} (sound : m.vm.ledger.Sound none)
    (nodup : list.Nodup) (used : ∀ v ∈ list, m.vm.vmaUsed v = true)
    (done : destroyVmas list m = .ok m') : m'.vm.ledger.Sound none := by
  induction list generalizing m with
  | nil =>
      cases done
      exact sound
  | cons v rest ih =>
      obtain ⟨n, destroyed, done⟩ := bind_eq_ok_iff.mp done
      obtain ⟨notLater, nodup'⟩ := List.nodup_cons.mp nodup
      obtain ⟨sound', _⟩ := sound_vmaDestroy sound (used v List.mem_cons_self) destroyed
      refine ih sound' nodup' (fun w mem => ?_) done
      have other : w ≠ v := by
        rintro rfl
        exact notLater mem
      rw [(vmaDestroy_frame destroyed).2.2.1, Function.update_of_ne other]
      exact used w (List.mem_cons_of_mem v mem)

theorem mmDestroy_sound (set : m.vm.VmaSet mm) (sound : m.vm.ledger.Sound none)
    (done : m.mmDestroy mm = .ok m') : m'.vm.ledger.Sound none := by
  unfold mmDestroy at done
  split at done
  · obtain ⟨n, destroyed, rest⟩ := bind_eq_ok_iff.mp done
    cases rest
    have after := destroyVmas_sound sound set.ordered.nodup (fun v mem => (set.owned v mem).1)
      destroyed
    exact after
  · cases done

theorem endMm_sound (formed : m.WellFormed mm) (sound : m.vm.ledger.Sound none)
    (done : m.endMm mm = .ok m') : m'.vm.ledger.Sound none := by
  obtain ⟨n, exited, done⟩ := bind_eq_ok_iff.mp done
  obtain ⟨p, freed, done⟩ := bind_eq_ok_iff.mp done
  obtain ⟨vm, _, _⟩ := exitMmap_adds formed exited
  have set : ({ n with pages := p } : Memory).vm.VmaSet mm := vm ▸ formed.set
  exact mmDestroy_sound set (vm ▸ sound) done

/-- What is left when `mm_create` or `setup_pgdir` has failed. -/
inductive Fails (m : Memory) : Memory → Prop
  | noMm (grants : List (Option Nat)) : Fails m { m with vm := { m.vm with grants := grants } }
  | noPgdir {n m' : Memory} {new : MmPtr} {p : Pages} (fresh : m.vm.mmUsed new = false)
      (touches : m.Touches n new) (set : n.vm.VmaSet new) (entry : n.vm.ledger = m.vm.ledger)
      (destroyed : ({ n with pages := p } : Memory).mmDestroy new = .ok m') : Fails m m'

theorem Fails.sound (fails : m.Fails m') (sound : m.vm.ledger.Sound none) :
    m'.vm.ledger.Sound none := by
  cases fails with
  | noMm grants => exact sound
  | @noPgdir n _ new p fresh touches set entry destroyed =>
      have set' : ({ n with pages := p } : Memory).vm.VmaSet new := set
      exact mmDestroy_sound set' (entry ▸ sound) destroyed

/-- An address space that is there is not the new one. -/
theorem ne_of_fresh (used : m.vm.mmUsed mm = true) (fresh : m.vm.mmUsed target = false) :
    mm ≠ target := by
  rintro rfl
  rw [fresh] at used
  cases used

theorem Fails.spares (fails : m.Fails m') (owns : m.vm.Owns mm) (used : m.vm.mmUsed mm = true) :
    m.vm.Spares m'.vm mm := by
  cases fails with
  | noMm grants => exact .of_eq rfl rfl rfl rfl
  | @noPgdir n _ new p fresh touches set entry destroyed =>
      have ne := ne_of_fresh used fresh
      have first := touches.spares mm ne owns
      have owned : ({ n with pages := p } : Memory).vm.Owns new := set.owned
      exact first.trans ((mmDestroy_frame owned destroyed).1 mm ne (first.owns owns))

/-- No address space comes. -/
theorem Fails.notUsed (fails : m.Fails m') (owns : m.vm.Owns mm) (free : m.vm.mmUsed mm = false) :
    m'.vm.mmUsed mm = false := by
  cases fails with
  | noMm grants => exact free
  | @noPgdir n _ new p fresh touches set entry destroyed =>
      have owned : ({ n with pages := p } : Memory).vm.Owns new := set.owned
      obtain ⟨spares, _, gone, _⟩ := mmDestroy_frame owned destroyed
      by_cases own : mm = new
      · exact own ▸ gone
      · have first := touches.spares mm own owns
        exact ((first.trans (spares mm own (first.owns owns))).mmUsed).trans free

/-- The first calls of `load_icode` and of `copy_mm`. -/
theorem create_setup_cases {n : Memory} {found : Option MmPtr} (formed : m.Formed)
    (created : m.mmCreate = (found, n)) : n.vm.ledger = m.vm.ledger ∧
      (found = none → m.Fails n) ∧
      ∀ new, found = some new → ∀ ret p, n.pages.setupPgdir new = (ret, p) →
        (ret = 0 → m.Makes { n with pages := p } new) ∧
        ∀ m', ({ n with pages := p } : Memory).mmDestroy new = .ok m' → m.Fails m' := by
  have entry := m.ledger_mmCreate
  rw [created] at entry
  refine ⟨entry, ?_, fun new isNew ret p setup => ⟨?_, fun m' destroyed => ?_⟩⟩
  · rintro rfl
    rcases mmCreate_touches formed.backed created with ⟨_, grants, rfl⟩ | ⟨_, isSome, _⟩
    · exact .noMm grants
    · cases isSome
  · exact (((create_setup_formed formed created).2 new isNew) ret p setup).1
  · rcases mmCreate_touches formed.backed created with
      ⟨isNone, _⟩ | ⟨new', isNew', fresh, touches, _, set, _⟩
    · rw [isNew] at isNone
      cases isNone
    · rw [isNew] at isNew'
      cases isNew'
      exact .noPgdir fresh touches set entry destroyed

/-- What `mm_create`, `setup_pgdir` and `mm_count_inc` leave. -/
theorem newMm_cases (formed : m.Formed) (done : m.newMm = .ok result) : m.Fails result.2 ∨
    ∃ n new, m.Makes n new ∧ n.vm.ledger = m.vm.ledger ∧
      result.2 = { n with vm := n.vm.modifyMm new fun s => { s with mmCount := s.mmCount + 1 } } := by
  unfold newMm at done
  rcases created : m.mmCreate with ⟨found, n⟩
  obtain ⟨entry, isNone, isSome⟩ := create_setup_cases formed created
  rw [created] at done
  cases found with
  | none =>
      cases done
      exact .inl (isNone rfl)
  | some new =>
      rcases setup : n.pages.setupPgdir new with ⟨ret, p⟩
      obtain ⟨makes, fails⟩ := isSome new rfl ret p setup
      simp only [setup] at done
      split at done
      · obtain ⟨m', destroyed, rest⟩ := bind_eq_ok_iff.mp done
        cases rest
        exact .inl (fails m' destroyed)
      · rename_i ok
        cases done
        exact .inr ⟨{ n with pages := p }, new, makes (not_not.mp ok), entry, rfl⟩

/-- What `copy_mm` leaves: the areas are copied into a new address space, which ends when that
fails. -/
theorem copyMm_cases (formed : m.Formed) (done : m.copyMm source = .ok result) :
    m.Fails result.2 ∨ ∃ n new ret m₁, m.Makes n new ∧ n.vm.ledger = m.vm.ledger ∧
      n.dupMmap new source = .ok (ret, m₁) ∧ (m₁.endMm new = .ok result.2 ∨
        result.2 = { m₁ with vm := m₁.vm.modifyMm new fun s =>
          { s with
            brkStart := (m₁.vm.mm source).brkStart
            brk := (m₁.vm.mm source).brk
            mmCount := s.mmCount + 1 } }) := by
  unfold copyMm at done
  rcases created : m.mmCreate with ⟨found, n⟩
  obtain ⟨entry, isNone, isSome⟩ := create_setup_cases formed created
  rw [created] at done
  cases found with
  | none =>
      cases done
      exact .inl (isNone rfl)
  | some new =>
      rcases setup : n.pages.setupPgdir new with ⟨ret, p⟩
      obtain ⟨makes, fails⟩ := isSome new rfl ret p setup
      simp only [setup] at done
      split at done
      · obtain ⟨m', destroyed, rest⟩ := bind_eq_ok_iff.mp done
        cases rest
        exact .inl (fails m' destroyed)
      · rename_i ok
        obtain ⟨⟨ret', m₁⟩, dup, rest⟩ := bind_eq_ok_iff.mp done
        refine .inr ⟨{ n with pages := p }, new, ret', m₁, makes (not_not.mp ok), entry, dup, ?_⟩
        simp only at rest
        split at rest
        · obtain ⟨m₂, exited, rest⟩ := bind_eq_ok_iff.mp rest
          obtain ⟨q, freed, rest⟩ := bind_eq_ok_iff.mp rest
          obtain ⟨m₃, destroyed, rest⟩ := bind_eq_ok_iff.mp rest
          cases rest
          exact .inl (bind_eq_ok_iff.mpr ⟨m₂, exited, bind_eq_ok_iff.mpr ⟨q, freed, destroyed⟩⟩)
        · cases rest
          exact .inr rfl

theorem newMm_sound (formed : m.Formed) (sound : m.vm.ledger.Sound none)
    (done : m.newMm = .ok result) : result.2.vm.ledger.Sound none := by
  rcases newMm_cases formed done with fails | ⟨n, new, _, entry, isResult⟩
  · exact fails.sound sound
  · rw [isResult]
    exact entry ▸ sound

theorem newMm_spares (formed : m.Formed) (used : m.vm.mmUsed mm = true)
    (done : m.newMm = .ok result) : m.vm.Spares result.2.vm mm := by
  rcases newMm_cases formed done with fails | ⟨n, new, makes, _, isResult⟩
  · exact fails.spares (formed.owns mm) used
  · have ne := ne_of_fresh used makes.fresh
    have counted := @Vm.modifyMm_spares n.vm new mm ne fun s => { s with mmCount := s.mmCount + 1 }
    rw [isResult]
    exact (makes.touches.spares mm ne (formed.owns mm)).trans counted

/-- A copy has its addresses at the places of what it copies. -/
theorem copyMm_enters (formed : m.Formed) (isSource : m.vm.mmUsed source = true)
    (sound : m.vm.ledger.Sound none) (done : m.copyMm source = .ok result) :
    result.2.vm.ledger.Sound none ∧
      (∀ mm, m.vm.mmUsed mm = true → m.vm.Spares result.2.vm mm) ∧
      ∀ mm, m.vm.mmUsed mm = false → result.2.vm.mmUsed mm = true → ∀ addr x,
        result.2.vm.Lays mm addr x → m.vm.Lays source addr x := by
  rcases copyMm_cases formed done with
    fails | ⟨n, new, ret, m₁, makes, entry, dup, ended⟩
  · refine ⟨fails.sound sound, fun mm used => fails.spares (formed.owns mm) used, ?_⟩
    intro mm free used
    rw [fails.notUsed (formed.owns mm) free] at used
    cases used
  · obtain ⟨ne, set⟩ := makes.source formed isSource
    obtain ⟨sound₁, lays₁⟩ :=
      dupMmap_enters makes.wellFormed set ne makes.empty (entry ▸ sound) dup
    have own := (dupMmap_wellFormed makes.wellFormed set ne makes.empty).2 dup
    have touches := makes.touches.trans (dupMmap_touches makes.wellFormed.backed dup)
    have first := makes.touches.spares source ne (formed.owns source)
    rcases ended with ended | isResult
    · obtain ⟨after, gone, _, _⟩ := endMm_touches own ended
      have all := touches.trans after
      refine ⟨endMm_sound own sound₁ ended, fun mm used => ?_, fun mm free used => ?_⟩
      · exact all.spares mm (ne_of_fresh used makes.fresh) (formed.owns mm)
      · by_cases isNew : mm = new
        · rw [isNew, gone] at used
          cases used
        · rw [(all.spares mm isNew (formed.owns mm)).mmUsed, free] at used
          cases used
    · rw [isResult]
      have counted := fun mm (other : mm ≠ new) => @Vm.modifyMm_spares m₁.vm new mm other fun s =>
        { s with
          brkStart := (m₁.vm.mm source).brkStart
          brk := (m₁.vm.mm source).brk
          mmCount := s.mmCount + 1 }
      refine ⟨sound₁, fun mm used => ?_, fun mm free used addr x lays => ?_⟩
      · have other := ne_of_fresh used makes.fresh
        exact (touches.spares mm other (formed.owns mm)).trans (counted mm other)
      · by_cases isNew : mm = new
        · subst isNew
          have keeps := @Vm.modifyMm_keepsSet m₁.vm mm (fun s =>
            { s with
              brkStart := (m₁.vm.mm source).brkStart
              brk := (m₁.vm.mm source).brk
              mmCount := s.mmCount + 1 }) fun s => ⟨rfl, rfl, rfl, rfl⟩
          have copied := lays₁ addr x
            ((Vm.lays_congr keeps.areas fun _ _ => by rw [keeps.vma]).mp lays)
          exact (Vm.lays_congr first.areas fun w memW => (first.vma w memW).1).mp copied
        · have all := (touches.spares mm isNew (formed.owns mm)).trans (counted mm isNew)
          rw [all.mmUsed, free] at used
          cases used

theorem leaveMm_sound (formed : m.Formed) (used : m.vm.mmUsed mm = true)
    (sound : m.vm.ledger.Sound none) (done : m.leaveMm mm = .ok m') :
    m'.vm.ledger.Sound none := by
  have counted := @Formed.counted m mm formed (formed.wellFormed mm used)
    (fun s => { s with mmCount := s.mmCount - 1 }) fun s => ⟨rfl, rfl, rfl, rfl⟩
  unfold leaveMm at done
  simp only at done
  split at done
  · exact endMm_sound (counted.wellFormed mm used) sound done
  · cases done
    exact sound

end Memory

end EdfKernel.Mm
