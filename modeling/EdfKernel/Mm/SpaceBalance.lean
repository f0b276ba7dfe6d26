import EdfKernel.Mm.AreaBalance
import EdfKernel.Mm.Roofs
import EdfKernel.Mm.SharedCopies

/-!
# Address spaces that begin and end keep the balance

Areas are copied, and address spaces begin and end.  An address space that ends leaves the page
tables behind that no area of it reaches into, and nothing else.
-/

namespace EdfKernel.Mm

open Library

namespace Memory

variable {m n : Memory} {scope : Scope} {mm target source : MmPtr} {v : VmaPtr} {vm : Vm}
  {list : List VmaPtr} {i : Nat}

/-! ## dup_mmap -/

/-- The copy of an area is counted by the segment that it shares. -/
theorem copy_tallies {vm : Vm} {n : VmaPtr} {a : VmaStruct} {l : Ledger}
    (tallied : l.Tallied none) (isArea : l.area v = some a.loose) (free : l.area n = none)
    (entry : vm.ledger = l.setArea n (some ⟨0, a.vmStart, a.vmEnd, a.vmFlags, none, 0⟩)) :
    Meets Panic.Misuse (fun vm' => vm'.ledger.Tallied none ∧ vm.SameUsed vm')
      (if has a.vmFlags vmShare then
        match a.shmem with
        | none => .error .nullShmem
        | some shmem =>
            .ok ((vm.modifyVma n fun t => { t with shmem := a.shmem, shmemOff := a.shmemOff })
              |>.modifyShmem shmem fun t => { t with shmemRef := t.shmemRef + 1 })
        else .ok vm : Except Panic Vm) := by
  split
  · rename_i shared
    split
    · simp [Panic.Misuse]
    · rename_i s shmem
      obtain ⟨t, there⟩ := (tallied.links v _ isArea).there s shmem
      have copied := @Vm.ledger_modifyVma vm n
        (fun b => { b with shmem := a.shmem, shmemOff := a.shmemOff }) fun b => rfl
      have counted := @Vm.ledger_modifyShmem
        (vm.modifyVma n fun b => { b with shmem := a.shmem, shmemOff := a.shmemOff })
        (fun t => { t with shmemRef := t.shmemRef + 1 }) s
      rw [copied, entry, Ledger.area_setArea_self, Ledger.setArea_setArea,
        Ledger.segment_setArea, there] at counted
      refine ⟨?_, rfl, rfl⟩
      rw [counted]
      exact tallied.take (by simp) free there shmem shared
  · refine ⟨?_, rfl, rfl⟩
    rw [entry]
    refine tallied.enter rfl fun b there => ?_
    rw [free] at there
    cases there

theorem dupVma_keeps (balanced : m.Balanced scope) (has : scope.mm target = true)
    (hasSource : scope.mm source = true) (used : m.vm.vmaUsed v = true) :
    Meets Panic.Misuse (fun result => m.Keeps result.2 scope) (m.dupVma target source v) := by
  unfold dupVma
  dsimp only
  rcases created : m.vm.vmaCreate (m.vm.vma v).vmStart (m.vm.vma v).vmEnd (m.vm.vma v).vmFlags
    with ⟨new, vm⟩
  have makes : m.vm.Alike vm := .vmaCreate created
  cases new with
  | none => exact balanced.alike makes
  | some w =>
      obtain ⟨free, entry⟩ := Vm.ledger_vmaCreate created
      refine (copy_tallies balanced.ledger (Vm.ledger_area_of_used used) free entry).bind
        fun vm₁ copied => ?_
      refine Vm.insertVmaStruct_alike.bind fun vm₂ inserted => ?_
      obtain ⟨tallied, mmUsed, shmemUsed⟩ := copied
      have alike : m.vm.Alike vm₂ :=
        ⟨fun _ => inserted.tallied tallied, inserted.mmUsed.trans (mmUsed.trans makes.mmUsed),
          inserted.shmemUsed.trans (shmemUsed.trans makes.shmemUsed)⟩
      have keeps := balanced.alike alike
      refine (keeps.balanced.pages.copyRange has hasSource).bind ?_
      rintro ⟨ret, p⟩ after
      exact keeps.trans (keeps.balanced.withPages after)

theorem dupVmas_keeps (balanced : m.Balanced scope) (has : scope.mm target = true)
    (hasSource : scope.mm source = true) (formed : m.WellFormed target)
    (set : m.vm.VmaSet source) (ne : source ≠ target) (left : m.ToCopy target source list) :
    Meets Panic.Misuse (fun result => m.Keeps result.2 scope) (dupVmas target source list m) := by
  induction list generalizing m with
  | nil => exact balanced.refl
  | cons v rest ih =>
      have isUsed := (set.owned v (left.mem v List.mem_cons_self)).1
      have first := (dupVma_keeps balanced has hasSource isUsed).and_of_ok
        fun result done => left.next formed set ne done
      refine first.bind ?_
      rintro ⟨ret, n⟩ ⟨keeps, formed', set', left'⟩
      dsimp only
      split
      · exact keeps
      · exact (ih keeps.balanced formed' set' left').mono fun _ => keeps.trans

/-- `dup_mmap` into an address space without areas. -/
theorem dupMmap_keeps (balanced : m.Balanced scope) (has : scope.mm target = true)
    (hasSource : scope.mm source = true) (formed : m.WellFormed target)
    (set : m.vm.VmaSet source) (ne : source ≠ target) (empty : m.vm.areas target = []) :
    Meets Panic.Misuse (fun result => m.Keeps result.2 scope) (m.dupMmap target source) :=
  dupVmas_keeps balanced has hasSource formed set ne (.all set empty)

/-! ## Address spaces end -/

/-- The page tables that no area reaches into. -/
def leaves (m : Memory) (mm : MmPtr) : Holder → Multiset Use
  | .table mm' i =>
      if mm' = mm ∧ ¬m.Roofed mm i then ((m.pages.table mm i).map fun f => {.whole f}).getD 0 else 0
  | _ => 0

/-- The accounts without an address space, which leaves page tables behind. -/
noncomputable def without (m : Memory) (mm : MmPtr) (scope : Scope) : Scope :=
  ⟨Function.update scope.mm mm false, scope.lost, scope.behind + tally (m.leaves mm)⟩

theorem unmapAll_balanced {live : Live} {hand : Multiset Use} {p : Pages}
    (balanced : p.Balanced live hand) (has : live.mm mm = true) :
    Meets Panic.Misuse (fun q => q.Balanced live hand) (m.unmapAll mm list p) := by
  induction list generalizing p with
  | nil => exact balanced
  | cons v rest ih => exact (balanced.unmapRange has).bind fun q after => ih after

theorem exitAll_balanced {live : Live} {hand : Multiset Use} {p : Pages}
    (balanced : p.Balanced live hand) (has : live.mm mm = true)
    (empty : ∀ page, p.pte (.user mm page) = .zero) :
    Meets Panic.Misuse (fun q => q.Balanced live hand ∧ ∀ page, q.pte (.user mm page) = .zero)
      (m.exitAll mm list p) := by
  induction list generalizing p with
  | nil => exact ⟨balanced, empty⟩
  | cons v rest ih =>
      exact (balanced.exitRange has empty).bind fun q after => ih after.1 after.2

/-- `exit_mmap` leaves no entry, since the entries lie in the areas. -/
theorem exitMmap_ends (balanced : m.Balanced scope) (formed : m.WellFormed mm)
    (has : scope.mm mm = true) :
    Meets Panic.Misuse (fun n => n.vm = m.vm ∧
        n.pages.Balanced (scope.live m.vm.shmemUsed) scope.behind ∧
        ∀ page, n.pages.pte (.user mm page) = .zero) (m.exitMmap mm) := by
  unfold exitMmap
  split
  · have unmapped : Meets Panic.Misuse (fun p : Pages =>
        p.Balanced (scope.live m.vm.shmemUsed) scope.behind ∧
          ∀ page, p.pte (.user mm page) = .zero)
        (m.unmapAll mm (m.vm.mm mm).mmapList m.pages) := by
      refine (unmapAll_balanced balanced.pages has).and_of_ok fun p done page => ?_
      obtain ⟨adds, inside⟩ := unmapAll_adds formed.backed done
      by_cases before : m.pages.pte (.user mm page) = .zero
      · exact adds.zero before
      · obtain ⟨_, _, v, mem, rfl, from_, upTo, _⟩ := formed.inside page before
        exact inside page ⟨v, mem, from_, upTo⟩
    refine unmapped.bind fun p after => ?_
    refine (exitAll_balanced after.1 has after.2).bind fun q exited => ?_
    exact ⟨rfl, exited⟩
  · simp [Panic.Misuse]

/-- What `exit_mmap` leaves of the page tables. -/
theorem left_eq_leaves {live : Live} (has : live.mm mm = true) (done : m.exitMmap mm = .ok n) :
    n.pages.left live mm = m.leaves mm := by
  funext holder
  cases holder with
  | table mm' i =>
      have table := exitMmap_table done mm i
      by_cases own : mm' = mm
      · subst own
        by_cases roofed : m.Roofed mm' i
        · simp [Pages.left, Pages.holds, leaves, table, roofed]
        · simp [Pages.left, Pages.holds, leaves, table, roofed, has]
      · simp [Pages.left, leaves, own]
  | slot slot => rfl
  | directory mm' => rfl
  | nodes shmem => rfl

/-- `mm_destroy`, once the address space is not counted any more. -/
theorem mmDestroy_keeps (balanced : m.Balanced scope) (set : m.vm.VmaSet mm) :
    Meets Panic.Misuse (fun n => n.Balanced scope ∧
        n.vm.mmUsed = Function.update m.vm.mmUsed mm false ∧
        ∀ s, n.vm.shmemUsed s = true → m.vm.shmemUsed s = true) (m.mmDestroy mm) := by
  unfold mmDestroy
  split
  · refine (destroyVmas_keeps balanced set.ordered.nodup fun v mem => (set.owned v mem).1).bind
      fun n keeps => ?_
    exact ⟨⟨keeps.balanced.pages, keeps.balanced.ledger⟩,
      congrArg (Function.update · mm false) keeps.used, keeps.fewer⟩
  · simp [Panic.Misuse]

/-- An address space that nobody uses ends. -/
theorem endMm_ends (balanced : m.Balanced scope) (formed : m.WellFormed mm)
    (has : scope.mm mm = true) :
    Meets Panic.Misuse (fun n => n.Balanced (m.without mm scope) ∧
        n.vm.mmUsed = Function.update m.vm.mmUsed mm false ∧
        ∀ s, n.vm.shmemUsed s = true → m.vm.shmemUsed s = true) (m.endMm mm) := by
  unfold endMm
  have exits := (exitMmap_ends balanced formed has).and_of_ok fun n done =>
    @left_eq_leaves m n mm (scope.live m.vm.shmemUsed) has done
  refine exits.bind fun n exited => ?_
  obtain ⟨⟨vm, after, empty⟩, left⟩ := exited
  refine (after.putPgdir has empty).bind fun p ended => ?_
  rw [left] at ended
  have set : ({ n with pages := p } : Memory).vm.VmaSet mm := by
    rw [vm]
    exact formed.set
  have rest : ({ n with pages := p } : Memory).Balanced (m.without mm scope) := by
    refine ⟨?_, ?_⟩
    · rw [vm]
      exact ended.1
    · rw [vm]
      exact balanced.ledger
  have ends := mmDestroy_keeps rest set
  rw [vm] at ends ⊢
  exact ends

theorem leaves_congr (areas : n.vm.areas mm = m.vm.areas mm) (vma : n.vm.vma = m.vm.vma)
    (table : n.pages.table = m.pages.table) : n.leaves mm = m.leaves mm := by
  funext holder
  cases holder with
  | table mm' i => simp only [leaves, roofed_congr areas vma, table]
  | slot slot => rfl
  | directory mm' => rfl
  | nodes shmem => rfl

/-! ## Address spaces begin -/

/-- An address space whose page tables are all under areas leaves none behind. -/
theorem leaves_of_allRoofed (roofed : m.AllRoofed mm) : m.leaves mm = fun _ => 0 := by
  funext holder
  cases holder with
  | table mm' i =>
      rw [leaves]
      split
      · rename_i bare
        cases there : m.pages.table mm i with
        | none => rfl
        | some f => exact absurd (roofed i (by rw [there]; rfl)) bare.2
      · rfl
  | slot slot => rfl
  | directory mm' => rfl
  | nodes shmem => rfl

theorem without_of_allRoofed (roofed : m.AllRoofed mm) (scope : Scope) :
    m.without mm scope = ⟨Function.update scope.mm mm false, scope.lost, scope.behind⟩ := by
  rw [without, leaves_of_allRoofed roofed, tally_zero, add_zero]

/-- No address space is new, and no segment. -/
structure Held (m n : Memory) (lost : Frame → Prop) (behind : Multiset Use) : Prop where
  balanced : n.Balanced ⟨n.vm.mmUsed, lost, behind⟩
  fewer : ∀ s, n.vm.shmemUsed s = true → m.vm.shmemUsed s = true

variable {lost : Frame → Prop} {behind : Multiset Use}

/-- `mm_create`. -/
theorem mmCreate_makes {found : Option MmPtr} (created : m.mmCreate = (found, n)) :
    n.pages = m.pages ∧ n.vm.shmemUsed = m.vm.shmemUsed ∧
      (found = none → n.vm.mmUsed = m.vm.mmUsed) ∧
      ∀ mm, found = some mm → m.vm.mmUsed mm = false ∧
        n.vm.mmUsed = Function.update m.vm.mmUsed mm true := by
  unfold mmCreate at created
  split at created
  · rename_i vm answer
    obtain ⟨grants, rfl, _⟩ := Vm.kmalloc_spec answer
    cases created
    exact ⟨rfl, rfl, fun _ => rfl, by rintro mm ⟨⟩⟩
  · rename_i mm vm answer
    obtain ⟨grants, rfl, unused⟩ := Vm.kmalloc_spec answer
    cases created
    refine ⟨rfl, rfl, by rintro ⟨⟩, ?_⟩
    rintro _ ⟨⟩
    exact ⟨unused mm rfl, rfl⟩

theorem mmCreate_fails (balanced : m.Balanced ⟨m.vm.mmUsed, lost, behind⟩)
    (created : m.mmCreate = (none, n)) : m.Held n lost behind := by
  obtain ⟨pages, shmemUsed, used, _⟩ := mmCreate_makes created
  have entry := m.ledger_mmCreate
  rw [created] at entry
  have keeps := balanced.alike (.of_ledger entry (used rfl) shmemUsed)
  obtain ⟨vm, p⟩ := n
  obtain rfl : p = m.pages := pages
  refine ⟨?_, keeps.fewer⟩
  rw [used rfl]
  exact keeps.balanced

/-- The first calls of `load_icode` and of `copy_mm`. -/
theorem setup_held {ret : Int} {p : Pages} (balanced : m.Balanced ⟨m.vm.mmUsed, lost, behind⟩)
    (formed : m.Formed) (created : m.mmCreate = (some mm, n))
    (setup : n.pages.setupPgdir mm = (ret, p)) :
    (ret = 0 → m.Held { n with pages := p } lost behind) ∧
      (ret ≠ 0 → Meets Panic.Misuse (fun o => m.Held o lost behind)
        (({ n with pages := p } : Memory).mmDestroy mm)) := by
  obtain ⟨pages, shmemUsed, _, made⟩ := mmCreate_makes created
  obtain ⟨new, used⟩ := made mm rfl
  have entry := m.ledger_mmCreate
  rw [created] at entry
  have tallied : n.vm.ledger.Tallied none := entry ▸ balanced.ledger
  have sets := balanced.pages.setupPgdir new
  rw [← pages, setup] at sets
  obtain ⟨done, failed⟩ := sets
  refine ⟨fun zero => ⟨⟨?_, tallied⟩, fun s => ?_⟩, fun nonzero => ?_⟩
  · change p.Balanced (Scope.live ⟨n.vm.mmUsed, lost, behind⟩ n.vm.shmemUsed) behind
    rw [shmemUsed, used]
    exact done zero
  · change n.vm.shmemUsed s = true → _
    rw [shmemUsed]
    exact id
  · obtain ⟨mm', isMm, _, touches, _, set, _⟩ :=
      (mmCreate_touches formed.backed created).resolve_left (by rintro ⟨⟨⟩, _⟩)
    cases isMm
    have before : ({ n with pages := p } : Memory).Balanced ⟨m.vm.mmUsed, lost, behind⟩ := by
      refine ⟨?_, tallied⟩
      change p.Balanced (Scope.live ⟨m.vm.mmUsed, lost, behind⟩ n.vm.shmemUsed) behind
      rw [shmemUsed]
      exact failed nonzero
    have set' : ({ n with pages := p } : Memory).vm.VmaSet mm := set
    refine (mmDestroy_keeps before set').mono fun o ends => ?_
    obtain ⟨after, mmUsed, fewer⟩ := ends
    have old : o.vm.mmUsed = m.vm.mmUsed := by
      rw [mmUsed, used, Function.update_idem, ← new, Function.update_eq_self]
    refine ⟨old ▸ after, fun s there => ?_⟩
    rw [← shmemUsed]
    exact fewer s there

theorem Held.refl (balanced : m.Balanced ⟨m.vm.mmUsed, lost, behind⟩) : m.Held m lost behind :=
  ⟨balanced, fun _ => id⟩

theorem Held.modifyMm (held : m.Held n lost behind) (mm : MmPtr) (change : MmStruct → MmStruct) :
    m.Held { n with vm := n.vm.modifyMm mm change } lost behind :=
  ⟨held.balanced.modifyMm mm change, held.fewer⟩

theorem Held.keeps {o : Memory} (held : m.Held n lost behind)
    (keeps : n.Keeps o ⟨n.vm.mmUsed, lost, behind⟩) : m.Held o lost behind := by
  refine ⟨?_, fun s there => held.fewer s (keeps.fewer s there)⟩
  rw [keeps.used]
  exact keeps.balanced

theorem newMm_held (balanced : m.Balanced ⟨m.vm.mmUsed, lost, behind⟩) (formed : m.Formed) :
    Meets Panic.Misuse (fun result => m.Held result.2 lost behind) m.newMm := by
  unfold newMm
  rcases created : m.mmCreate with ⟨found, n⟩
  cases found with
  | none => exact mmCreate_fails balanced created
  | some mm =>
      rcases setup : n.pages.setupPgdir mm with ⟨ret, p⟩
      obtain ⟨done, failed⟩ := setup_held balanced formed created setup
      dsimp only
      rw [setup]
      dsimp only
      split
      · rename_i nonzero
        exact (failed nonzero).bind fun o destroyed => destroyed
      · rename_i zero
        exact (done (not_not.mp zero)).modifyMm _ _

/-- The page tables of a copy all come under its areas. -/
theorem copied_roofed {p : Pages} {result : Int × Memory} (formed : m.Formed)
    (used : m.vm.mmUsed source = true) (created : m.mmCreate = (some mm, n))
    (setup : n.pages.setupPgdir mm = (0, p))
    (dup : ({ n with pages := p } : Memory).dupMmap mm source = .ok result) :
    result.2.AllRoofed mm := by
  obtain ⟨_, isSome⟩ := create_setup_formed formed created
  have makes := (isSome mm rfl 0 p setup).1 rfl
  obtain ⟨ne, set⟩ := makes.source formed used
  refine dupVmas_roofed makes.wellFormed set ne (.all set makes.empty) (fun i there => ?_) dup
  rw [Pages.setupPgdir_table setup] at there
  cases there

theorem copyMm_held (balanced : m.Balanced ⟨m.vm.mmUsed, lost, behind⟩) (formed : m.Formed)
    (used : m.vm.mmUsed source = true) :
    Meets Panic.Misuse (fun result => m.Held result.2 lost behind) (m.copyMm source) := by
  unfold copyMm
  rcases created : m.mmCreate with ⟨found, n⟩
  obtain ⟨_, isSome⟩ := create_setup_formed formed created
  cases found with
  | none => exact mmCreate_fails balanced created
  | some mm =>
      rcases setup : n.pages.setupPgdir mm with ⟨ret, p⟩
      obtain ⟨done, failed⟩ := setup_held balanced formed created setup
      obtain ⟨makes, _⟩ := isSome mm rfl ret p setup
      obtain ⟨_, _, _, made⟩ := mmCreate_makes created
      obtain ⟨_, isUsed⟩ := made mm rfl
      dsimp only
      rw [setup]
      dsimp only
      split
      · rename_i nonzero
        exact (failed nonzero).bind fun o destroyed => destroyed
      · rename_i zero
        have makes := makes (not_not.mp zero)
        have before := done (not_not.mp zero)
        obtain ⟨ne, set⟩ := makes.source formed used
        have target : n.vm.mmUsed mm = true := by
          rw [isUsed, Function.update_self]
        have source_ : n.vm.mmUsed source = true := by
          rw [isUsed, Function.update_of_ne ne]
          exact used
        have left := ToCopy.all set makes.empty
        have copies := (dupMmap_keeps before.balanced target source_ makes.wellFormed set ne
          makes.empty).and_of_ok fun result dup =>
            And.intro ((dupVmas_wellFormed makes.wellFormed set ne left).2 dup)
              (copied_roofed formed used created (not_not.mp zero ▸ setup) dup)
        refine copies.bind ?_
        rintro ⟨ret, o⟩ ⟨keeps, own, roofed⟩
        dsimp only
        split
        · have has : (⟨n.vm.mmUsed, lost, behind⟩ : Scope).mm mm = true := target
          have ends : Meets Panic.Misuse (fun o' => m.Held o' lost behind) (o.endMm mm) := by
            refine (endMm_ends keeps.balanced own has).mono fun o' ended => ?_
            obtain ⟨after, mmUsed, fewer⟩ := ended
            rw [without_of_allRoofed roofed] at after
            refine ⟨?_, fun s there => before.fewer s (keeps.fewer s (fewer s there))⟩
            rw [mmUsed, keeps.used]
            exact after
          have returns : Meets Panic.Misuse (fun result => m.Held result.2 lost behind)
              (o.endMm mm >>= fun o' => pure (ret, o')) := ends.bind fun _ ended => ended
          unfold endMm at returns
          simpa only [bind_assoc] using returns
        · exact (before.keeps keeps).modifyMm _ _

/-- The last process that leaves an address space ends it. -/
theorem leaveMm_held (balanced : m.Balanced ⟨m.vm.mmUsed, lost, behind⟩) (formed : m.Formed)
    (used : m.vm.mmUsed mm = true) :
    Meets Panic.Misuse (fun n => m.Held n lost
      (behind + if (m.vm.mm mm).mmCount - 1 = 0 then tally (m.leaves mm) else 0))
      (m.leaveMm mm) := by
  have counted := @Formed.counted m mm formed (formed.wellFormed mm used)
    (fun s => { s with mmCount := s.mmCount - 1 }) fun s => ⟨rfl, rfl, rfl, rfl⟩
  have left := balanced.modifyMm mm fun s => { s with mmCount := s.mmCount - 1 }
  have self := @Vm.modifyMm_mm_self m.vm mm fun s => { s with mmCount := s.mmCount - 1 }
  have areas : (m.vm.modifyMm mm fun s => { s with mmCount := s.mmCount - 1 }).areas mm =
      m.vm.areas mm := (congrArg MmStruct.mmapList self :)
  have same : ({ m with vm := m.vm.modifyMm mm fun s => { s with mmCount := s.mmCount - 1 } } :
      Memory).leaves mm = m.leaves mm := leaves_congr areas rfl rfl
  unfold leaveMm
  dsimp only
  rw [self]
  dsimp only
  split
  · refine (endMm_ends left (counted.wellFormed mm used) used).mono fun n ended => ?_
    obtain ⟨after, mmUsed, fewer⟩ := ended
    rw [without, same] at after
    refine ⟨?_, fewer⟩
    rw [mmUsed]
    exact after
  · rw [add_zero]
    exact ⟨left, fun _ => id⟩

end Memory

end EdfKernel.Mm
