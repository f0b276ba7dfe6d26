import EdfKernel.Mm.AreaSteps

/-!
# Copies of a set of areas

`dup_mmap` links the copies in from the last to the first, so that each of them ends where those
that are there begin, or below.  The assertions of `insert_vma_struct` hold, and a copy that stops
in the middle is a consistent set.
-/

namespace EdfKernel.Mm

open Library Library.Intervals

namespace Memory

variable {m : Memory} {v : VmaPtr} {vm : Vm} {target source other : MmPtr} {result : Int × Memory}

/-- The fields of the copy of an area that `dup_mmap` sets. -/
theorem dupFields {nvma : VmaPtr} {s : VmaStruct} {vm' : Vm}
    (done : (if has s.vmFlags vmShare then
      match s.shmem with
      | none => .error .nullShmem
      | some shmem =>
          .ok ((vm.modifyVma nvma fun t => { t with shmem := s.shmem, shmemOff := s.shmemOff })
            |>.modifyShmem shmem fun t => { t with shmemRef := t.shmemRef + 1 })
      else .ok vm : Except Panic Vm) = .ok vm') :
    vm.SameBounds vm' ∧ ∀ other, nvma ∉ vm.areas other → vm.Spares vm' other := by
  split at done
  · split at done
    · cases done
    · rename_i shmem _
      cases done
      have bounds := @Vm.modifyVma_sameBounds vm nvma
        (fun t => { t with shmem := s.shmem, shmemOff := s.shmemOff }) fun t => ⟨rfl, rfl, rfl⟩
      refine ⟨⟨bounds.mm, bounds.vmaUsed, bounds.fields⟩, fun other notThere => ?_⟩
      have spares := @Vm.modifyVma_spares vm other nvma notThere
        fun t => { t with shmem := s.shmem, shmemOff := s.shmemOff }
      exact ⟨spares.mm, spares.mmUsed, spares.vma⟩
  · cases done
    exact ⟨⟨rfl, rfl, fun _ => ⟨rfl, rfl, rfl⟩⟩, fun other _ => .refl _ _⟩

/-- An area is copied into an address space whose areas are all above it. -/
theorem dupVma_wellFormed (formed : m.WellFormed target)
    (range : Vm.UserRange (m.vm.lo v) (m.vm.hi v))
    (above : ∀ w ∈ m.vm.areas target, m.vm.hi v ≤ m.vm.lo w) :
    Avoids .vmaOverlap (m.dupVma target source v) ∧
      (m.dupVma target source v = .ok result → result.2.WellFormed target ∧
        ∀ w ∈ result.2.vm.areas target, m.vm.lo v ≤ result.2.vm.lo w) := by
  have less := range.2.1
  have free : ∀ w ∈ m.vm.areas target, ¬m.vm.Meets (m.vm.lo v) (m.vm.hi v) w := by
    rintro w mem ⟨low, _⟩
    have le := above w mem
    omega
  unfold dupVma
  simp only
  split
  · rename_i vm₁ created
    refine ⟨by simp, fun done => ?_⟩
    cases done
    refine ⟨create_wellFormed formed created, fun w mem => ?_⟩
    obtain ⟨grants, rfl⟩ := Vm.vmaCreate_none created
    exact less.le.trans (above w mem)
  · rename_i nvma vm₁ created
    have creates := Vm.vmaCreate_creates created
    obtain ⟨set₁, _, detached₁⟩ := Vm.detached_of_create formed.set range free created
    obtain ⟨_, _, areas₁, vma₁⟩ := creates.vmaSet formed.set
    constructor
    · refine .bind ?_ fun vm₂ fields => ?_
      · split
        · split <;> simp
        · simp
      · obtain ⟨same, _⟩ := dupFields fields
        exact .bind ((same.detached detached₁).insert_avoids (same.vmaSet set₁)) fun _ _ =>
          .bind Pages.copyRange_avoids fun _ _ => .pure _
    · intro done
      obtain ⟨vm₂, fields, done⟩ := bind_eq_ok_iff.mp done
      obtain ⟨vm₃, inserted, done⟩ := bind_eq_ok_iff.mp done
      obtain ⟨⟨ret, pages⟩, copied, done⟩ := bind_eq_ok_iff.mp done
      cases done
      obtain ⟨same, _⟩ := dupFields fields
      have detached₂ := same.detached detached₁
      have formed₂ := (create_wellFormed formed created).sameBounds same
      have formed₃ := link_wellFormed formed₂ detached₂ inserted
      obtain ⟨_, before, after, links⟩ := detached₂.insert formed₂.set inserted
      have lo : vm₃.lo nvma = m.vm.lo v := by
        rw [(links.bounds nvma).1, same.lo]
        exact creates.lo
      have hi : vm₃.hi nvma = m.vm.hi v := by
        rw [(links.bounds nvma).2, same.hi]
        exact creates.hi
      have mem : nvma ∈ vm₃.areas target := by
        rw [links.areas]
        exact List.mem_append_right _ List.mem_cons_self
      have adds := Pages.copyRange_adds formed.backed copied
      refine ⟨⟨formed₃.set, adds.backed, fun page present => ?_⟩, fun w memW => ?_⟩
      · rcases adds.entries target page present with old | ⟨_, from_, upTo⟩
        · exact formed₃.inside page old
        · refine ⟨_, _, nvma, mem, rfl, ?_, ?_, rfl⟩
          · change vm₃.lo nvma ≤ _
            rw [lo]
            exact from_
          · change _ < vm₃.hi nvma
            rw [hi]
            exact upTo
      · change w ∈ vm₃.areas target at memW
        change _ ≤ vm₃.lo w
        by_cases own : w = nvma
        · rw [own, lo]
        · have old : w ∈ m.vm.areas target := by
            rw [links.areas, List.mem_append, List.mem_cons] at memW
            rw [← areas₁, ← same.areas, links.list, List.mem_append]
            tauto
          have start : vm₁.lo w = m.vm.lo w := by rw [Vm.lo, Vm.lo, vma₁ w old]
          rw [(links.bounds w).1, same.lo, start]
          exact less.le.trans (above w old)

theorem dupVma_spares (ne : other ≠ target) (owns : m.vm.Owns other)
    (done : m.dupVma target source v = .ok result) : m.vm.Spares result.2.vm other := by
  unfold dupVma at done
  simp only at done
  split at done
  · rename_i vm₁ created
    cases done
    exact (Vm.vmaCreate_spares owns created).1
  · rename_i nvma vm₁ created
    obtain ⟨first, new⟩ := Vm.vmaCreate_spares owns created
    obtain ⟨vm₂, fields, done⟩ := bind_eq_ok_iff.mp done
    obtain ⟨vm₃, inserted, done⟩ := bind_eq_ok_iff.mp done
    obtain ⟨⟨ret, pages⟩, copied, done⟩ := bind_eq_ok_iff.mp done
    cases done
    have notThere : nvma ∉ vm₁.areas other := first.areas ▸ new nvma rfl
    have second := (dupFields fields).2 other notThere
    exact first.trans (second.trans
      (Vm.insertVmaStruct_spares ne (second.areas ▸ notThere) inserted))

/-- The areas of the source that are still to be copied, from the last to the first. -/
structure ToCopy (m : Memory) (target source : MmPtr) (list : List VmaPtr) : Prop where
  mem : ∀ v ∈ list, v ∈ m.vm.areas source
  descending : list.Pairwise fun v w => m.vm.hi w ≤ m.vm.lo v
  above : ∀ v ∈ list, ∀ w ∈ m.vm.areas target, m.vm.hi v ≤ m.vm.lo w

/-- All areas of an address space, for one that has none. -/
theorem ToCopy.all (set : m.vm.VmaSet source) (empty : m.vm.areas target = []) :
    m.ToCopy target source (m.vm.mm source).mmapList.reverse := by
  refine ⟨fun v mem => List.mem_reverse.mp mem, ?_, fun v _ w mem => ?_⟩
  · rw [List.pairwise_reverse]
    exact set.ordered.apart
  · rw [empty] at mem
    cases mem

/-- What is left to copy after one area. -/
theorem ToCopy.next {rest : List VmaPtr} (left : m.ToCopy target source (v :: rest))
    (formed : m.WellFormed target) (set : m.vm.VmaSet source) (ne : source ≠ target)
    (first : m.dupVma target source v = .ok result) :
    result.2.WellFormed target ∧ result.2.vm.VmaSet source ∧
      result.2.ToCopy target source rest := by
  have here := List.mem_cons_self (a := v) (l := rest)
  obtain ⟨below, descending⟩ := List.pairwise_cons.mp left.descending
  obtain ⟨formed', high⟩ :=
    (dupVma_wellFormed formed (set.range v (left.mem v here)) (left.above v here)).2 first
  have spares := dupVma_spares ne set.owned first
  have same : ∀ w ∈ rest, result.2.vm.lo w = m.vm.lo w ∧ result.2.vm.hi w = m.vm.hi w := by
    intro w mem
    have fields := (spares.vma w (left.mem w (List.mem_cons_of_mem v mem))).1
    rw [Vm.lo, Vm.lo, Vm.hi, Vm.hi, fields]
    exact ⟨rfl, rfl⟩
  refine ⟨formed', spares.vmaSet set, fun w mem => ?_, ?_, fun w mem x inTarget => ?_⟩
  · rw [spares.areas]
    exact left.mem w (List.mem_cons_of_mem v mem)
  · refine descending.imp_of_mem fun {w x} memW memX le => ?_
    rw [(same w memW).1, (same x memX).2]
    exact le
  · rw [(same w mem).2]
    exact (below w mem).trans (high x inTarget)

/-- The loop of `dup_mmap`. -/
theorem dupVmas_wellFormed {list : List VmaPtr} (formed : m.WellFormed target)
    (set : m.vm.VmaSet source) (ne : source ≠ target) (left : m.ToCopy target source list) :
    Avoids .vmaOverlap (dupVmas target source list m) ∧
      (dupVmas target source list m = .ok result → result.2.WellFormed target) := by
  induction list generalizing m with
  | nil =>
      refine ⟨by simp [dupVmas], fun done => ?_⟩
      cases done
      exact formed
  | cons v rest ih =>
      have here := List.mem_cons_self (a := v) (l := rest)
      have copy := fun r => @dupVma_wellFormed m v target source r formed
        (set.range v (left.mem v here)) (left.above v here)
      constructor
      · refine .bind (copy (0, m)).1 ?_
        rintro ⟨ret, n⟩ first
        obtain ⟨formed', set', left'⟩ := left.next formed set ne first
        simp only
        split
        · simp
        · exact (ih formed' set' left').1
      · intro done
        obtain ⟨⟨ret, n⟩, first, done⟩ := bind_eq_ok_iff.mp done
        obtain ⟨formed', set', left'⟩ := left.next formed set ne first
        simp only at done
        split at done
        · cases done
          exact formed'
        · exact (ih formed' set' left').2 done

theorem dupVmas_spares {list : List VmaPtr} (ne : other ≠ target)
    (owns : m.vm.Owns other) (done : dupVmas target source list m = .ok result) :
    m.vm.Spares result.2.vm other := by
  induction list generalizing m with
  | nil =>
      cases done
      exact .refl _ _
  | cons v rest ih =>
      obtain ⟨⟨ret, n⟩, first, done⟩ := bind_eq_ok_iff.mp done
      have spares := dupVma_spares ne owns first
      simp only at done
      split at done
      · cases done
        exact spares
      · exact spares.trans (ih (spares.owns owns) done)

/-- `dup_mmap` into an address space without areas. -/
theorem dupMmap_wellFormed (formed : m.WellFormed target) (set : m.vm.VmaSet source)
    (ne : source ≠ target) (empty : m.vm.areas target = []) :
    Avoids .vmaOverlap (m.dupMmap target source) ∧
      (m.dupMmap target source = .ok result → result.2.WellFormed target) :=
  dupVmas_wellFormed formed set ne (.all set empty)

end Memory

end EdfKernel.Mm
