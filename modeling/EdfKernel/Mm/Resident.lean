import EdfKernel.Mm.CallBalance

/-!
# Memory that nothing is evicted from

As long as no address space is swapped out, every page stays in memory: no entry holds a slot, and
no frame is cached.
-/

namespace EdfKernel.Mm

open Library

/-- No panic is ruled out. -/
def Panic.Never (_ : Panic) : Prop := False

namespace Pages

variable {p q : Pages} {mm target source : MmPtr} {shmem : ShmemPtr} {slot : Slot} {entry : Pte}
  {f : Frame} {la addr start stop fuel len : Nat} {perm : Perm} {share : Bool}

/-- No entry holds a slot, and no frame is cached. -/
structure Resident (p : Pages) : Prop where
  entries : ∀ slot e, p.pte slot ≠ .swapped e
  uncached : ∀ f, (p.page f).swap = false

namespace Resident

variable (resident : p.Resident)
include resident

/-! ## Changes -/

/-- Entries are cleared, and other data change. -/
theorem of_cleared (pte : ∀ slot, q.pte slot = .zero ∨ q.pte slot = p.pte slot)
    (page : q.page = p.page) : q.Resident := by
  refine ⟨fun slot e => ?_, fun f => by rw [page]; exact resident.uncached f⟩
  rcases pte slot with zero | same
  · rw [zero]
    exact Pte.noConfusion
  · rw [same]
    exact resident.entries slot e

theorem congr (pte : q.pte = p.pte) (page : q.page = p.page) : q.Resident :=
  resident.of_cleared (fun slot => .inr (congrFun pte slot)) page

theorem modify {change : Page → Page} (f : Frame) (kept : (change (p.page f)).swap = false) :
    (p.modify f change).Resident := by
  refine ⟨resident.entries, fun g => ?_⟩
  by_cases own : g = f
  · subst own
    rw [p.modify_page_self]
    exact kept
  · rw [p.modify_page_of_ne change own]
    exact resident.uncached g

theorem writePte (slot : Slot) (plain : ∀ e, entry ≠ .swapped e) :
    (p.writePte slot entry).Resident := by
  refine ⟨fun other e => ?_, resident.uncached⟩
  by_cases own : other = slot
  · rw [own, writePte_pte_self]
    exact plain e
  · rw [writePte_pte_of_ne _ _ own]
    exact resident.entries other e

theorem pageRefInc (f : Frame) : (p.pageRefInc f).Resident :=
  resident.modify f (resident.uncached f)

theorem pageRefDec (f : Frame) : (p.pageRefDec f).Resident :=
  resident.modify f (resident.uncached f)

theorem allocPage : p.allocPage.2.Resident := by
  rcases alloc : p.allocPage with ⟨found, q⟩
  cases found with
  | none =>
      obtain ⟨grants, rfl⟩ := allocPage_none alloc
      exact resident.congr rfl rfl
  | some f =>
      obtain ⟨_, grants, rfl⟩ := allocPage_some alloc
      exact resident.congr rfl rfl

theorem freePage (f : Frame) : Meets Panic.Never Resident (p.freePage f) := by
  unfold Pages.freePage
  split
  · exact id
  · have freed := @Resident.modify p resident
      (fun s => { s with ref := 0, dirty := false, swap := false, active := false }) f rfl
    exact freed.congr rfl rfl

omit resident in
theorem clearTable (p : Pages) (mm : MmPtr) (i : Nat) (slot : Slot) :
    p.clearTable mm i slot = .zero ∨ p.clearTable mm i slot = p.pte slot := by
  cases slot with
  | user mm' page =>
      rw [Pages.clearTable]
      split
      · exact .inl rfl
      · exact .inr rfl
  | shared s page => exact .inr rfl

/-! ## Page tables -/

theorem getPte (mm : MmPtr) (la : Nat) (create : Bool) : (p.getPte mm la create).2.Resident := by
  unfold Pages.getPte
  split
  · exact resident
  · split
    · have taken := resident.allocPage
      rcases alloc : p.allocPage with ⟨found, q⟩
      rw [alloc] at taken
      cases found with
      | none => exact taken
      | some f =>
          have made := @Resident.modify q taken (fun s => { s with ref := 1 }) f (taken.uncached f)
          exact made.of_cleared (clearTable q mm (pdx la)) rfl
    · exact resident

theorem removePte (slot : Slot) : Meets Panic.Never Resident (p.removePte slot) := by
  unfold Pages.removePte
  split
  · rename_i f perm isEntry
    rw [if_pos (resident.uncached f)]
    refine Meets.bind_through Resident ?_ fun q after => ?_
    · split
      · exact (resident.pageRefDec f).freePage f
      · exact resident.pageRefDec f
    · exact after.writePte slot fun e => Pte.noConfusion
  · rename_i e isEntry
    exact absurd isEntry (resident.entries slot e)
  · exact resident

theorem pageInsert (mm : MmPtr) (f : Frame) (la : Nat) (perm : Perm) :
    Meets Panic.Never (fun result => result.2.Resident) (p.pageInsert mm f la perm) := by
  unfold Pages.pageInsert
  have gets := resident.getPte mm la true
  rcases answer : p.getPte mm la true with ⟨found, q⟩
  rw [answer] at gets
  cases found with
  | false => exact gets
  | true =>
      have counted := gets.pageRefInc f
      refine Meets.bind_through Resident ?_ fun r after => ?_
      · split
        · exact counted
        · split
          · exact counted.pageRefDec f
          · exact counted.removePte _
        · exact counted.removePte _
      · exact after.writePte _ fun e => Pte.noConfusion

theorem pgdirAllocPage (mm : MmPtr) (la : Nat) (perm : Perm) :
    Meets Panic.Never (fun result => result.2.Resident) (p.pgdirAllocPage mm la perm) := by
  unfold Pages.pgdirAllocPage
  have taken := resident.allocPage
  rcases alloc : p.allocPage with ⟨found, q⟩
  rw [alloc] at taken
  cases found with
  | none => exact taken
  | some f =>
      refine (taken.pageInsert mm f la perm).bind ?_
      rintro ⟨ret, r⟩ after
      dsimp only
      split
      · exact (after.freePage f).bind fun _ freed => freed
      · exact after

theorem unmapLoop (mm : MmPtr) (stop fuel la : Nat) :
    Meets Panic.Never Resident (unmapLoop mm stop fuel la p) := by
  induction fuel generalizing la p with
  | zero => exact resident
  | succ fuel ih =>
      rw [Pages.unmapLoop]
      refine Meets.bind_through Resident ?_ fun q after => ?_
      · split
        · exact resident.removePte _
        · exact resident
      · split
        · exact ih after _
        · exact after

theorem unmapRange (mm : MmPtr) (start stop : Nat) :
    Meets Panic.Never Resident (p.unmapRange mm start stop) := by
  unfold Pages.unmapRange
  split
  · exact resident.unmapLoop mm stop _ start
  · exact id

theorem exitLoop (mm : MmPtr) (stop fuel la : Nat) :
    Meets Panic.Never Resident (exitLoop mm stop fuel la p) := by
  induction fuel generalizing la p with
  | zero => exact resident
  | succ fuel ih =>
      rw [Pages.exitLoop]
      refine Meets.bind_through Resident ?_ fun q after => ?_
      · split
        · exact resident
        · rename_i f there
          refine (resident.freePage f).bind fun q freed => ?_
          exact freed.of_cleared (clearTable q mm (pdx la)) rfl
      · dsimp only
        generalize add32 la ptSize = next
        split
        · exact ih after _
        · exact after

theorem exitRange (mm : MmPtr) (start stop : Nat) :
    Meets Panic.Never Resident (p.exitRange mm start stop) := by
  unfold Pages.exitRange
  split
  · exact resident.exitLoop mm stop 1024 _
  · exact id

theorem copyPte (target source : MmPtr) (la : Nat) (share : Bool) :
    Meets Panic.Never (fun result => result.2.Resident) (p.copyPte target source la share) := by
  unfold Pages.copyPte
  have gets := resident.getPte target la true
  rcases answer : p.getPte target la true with ⟨found, q⟩
  rw [answer] at gets
  cases found with
  | false => exact gets
  | true =>
      dsimp only
      split
      · exact id
      · split
        · exact id
        · rename_i f perm isEntry
          refine Meets.bind_through (fun result => result.2.Resident) ?_ ?_
          · split
            · exact (gets.pageInsert source f la _).bind fun _ after => Meets.ok after
            · exact gets
          · rintro ⟨perm', r⟩ after
            refine (after.pageInsert target f la perm').bind ?_
            rintro ⟨ret, s⟩ inserted
            dsimp only
            split
            · exact inserted
            · exact id
        · rename_i e isEntry
          exact absurd isEntry (gets.entries _ e)

theorem copyLoop (target source : MmPtr) (share : Bool) (stop fuel la : Nat) :
    Meets Panic.Never (fun result => result.2.Resident)
      (copyLoop target source share stop fuel la p) := by
  induction fuel generalizing la p with
  | zero => exact resident
  | succ fuel ih =>
      rw [Pages.copyLoop]
      refine Meets.bind_through (fun result => result.2.Resident) ?_ ?_
      · split
        · exact resident.copyPte target source la share
        · exact resident
      · rintro ⟨ret, q⟩ after
        dsimp only
        split
        · exact after
        · split
          · exact ih after _
          · exact after

theorem copyRange (target source : MmPtr) (start stop : Nat) (share : Bool) :
    Meets Panic.Never (fun result => result.2.Resident)
      (p.copyRange target source start stop share) := by
  unfold Pages.copyRange
  split
  · exact resident.copyLoop target source share stop _ start
  · exact id

theorem setupPgdir (mm : MmPtr) : (p.setupPgdir mm).2.Resident := by
  unfold Pages.setupPgdir
  have taken := resident.allocPage
  rcases alloc : p.allocPage with ⟨found, q⟩
  rw [alloc] at taken
  cases found with
  | none => exact taken
  | some f =>
      refine taken.of_cleared (fun slot => ?_) rfl
      cases slot with
      | user mm' page =>
          dsimp only
          split
          · exact .inl rfl
          · exact .inr rfl
      | shared s page => exact .inr rfl

/-! ## Segments -/

theorem shmnAt (shmem : ShmemPtr) (addr : Nat) (create : Bool) :
    Meets Panic.Never (fun result => result.2.Resident) (p.shmnAt shmem addr create) := by
  unfold Pages.shmnAt
  have finds : (p.findShmn shmem addr).2.Resident := by
    unfold Pages.findShmn
    dsimp only
    split
    · exact resident
    · exact resident.congr rfl rfl
  rcases search : p.findShmn shmem addr with ⟨found, q⟩
  rw [search] at finds
  cases found with
  | some shmn => exact finds
  | none =>
      dsimp only
      split
      · have creates : (q.shmnCreate shmem (roundDown addr shmnSize)).2.Resident := by
          unfold Pages.shmnCreate
          have taken := finds.allocPage
          rcases alloc : q.allocPage with ⟨made, r⟩
          rw [alloc] at taken
          cases made with
          | none => exact taken
          | some f =>
              refine taken.of_cleared (fun slot => ?_) rfl
              cases slot with
              | user mm page => exact .inr rfl
              | shared s page =>
                  dsimp only
                  split
                  · exact .inl rfl
                  · exact .inr rfl
        rcases makes : q.shmnCreate shmem (roundDown addr shmnSize) with ⟨made, r⟩
        rw [makes] at creates
        cases made with
        | none => exact creates
        | some shmn =>
            refine Meets.bind_through Resident ?_ fun s after => after
            unfold Pages.insertShmn
            split
            · exact creates.congr rfl rfl
            · exact id
      · exact finds

theorem shmemGetEntry (shmem : ShmemPtr) (len addr : Nat) (create : Bool) :
    Meets Panic.Never (fun result => result.2.Resident)
      (p.shmemGetEntry shmem len addr create) := by
  unfold Pages.shmemGetEntry
  split
  · exact id
  · refine (resident.shmnAt shmem (roundDown addr pgSize) create).bind ?_
    rintro ⟨found, q⟩ after
    dsimp only at after ⊢
    split
    · have taken := after.allocPage
      rcases alloc : q.allocPage with ⟨page, r⟩
      rw [alloc] at taken
      cases page with
      | none => exact taken
      | some f =>
          have filled := @Resident.writePte r (.present f ⟨false, false, false, false⟩) taken
            (sharedSlot shmem addr) fun e => Pte.noConfusion
          exact filled.pageRefInc f
    · exact after

theorem shmnClear (shmem : ShmemPtr) (start count : Nat) :
    Meets Panic.Never Resident (shmnClear shmem start count p) := by
  induction count generalizing p with
  | zero => exact resident
  | succ count ih =>
      rw [Pages.shmnClear]
      exact (resident.removePte _).bind fun q after => ih after

theorem shmnDestroyAll (shmem : ShmemPtr) (list : List Shmn) :
    Meets Panic.Never Resident (shmnDestroyAll shmem list p) := by
  induction list generalizing p with
  | nil => exact resident
  | cons shmn rest ih =>
      rw [Pages.shmnDestroyAll]
      refine Meets.bind_through Resident ?_ fun q after => ih (after.congr rfl rfl)
      unfold Pages.shmnDestroy
      exact (resident.shmnClear shmem shmn.start 1024).bind fun q after => after.freePage shmn.entry

theorem shmemDestroy (shmem : ShmemPtr) : Meets Panic.Never Resident (p.shmemDestroy shmem) :=
  resident.shmnDestroyAll shmem _

theorem shmemCreate (shmem : ShmemPtr) : (p.shmemCreate shmem).Resident := by
  refine resident.of_cleared (fun slot => ?_) rfl
  cases slot with
  | user mm page => exact .inr rfl
  | shared s page =>
      rw [Pages.shmemCreate]
      dsimp only
      split
      · exact .inl rfl
      · exact .inr rfl

/-! ## Page faults -/

theorem freeSpare (found : Option Frame) : Meets Panic.Never Resident (p.freeSpare found) := by
  cases found with
  | none => exact resident
  | some f => exact resident.freePage f

theorem pgfaultShared (mm : MmPtr) (la : Nat) (perm : Perm) (shmem : ShmemPtr)
    (len shmemAddr : Nat) : Meets Panic.Never (fun result => result.2.Resident)
      (p.pgfaultShared mm la perm shmem len shmemAddr) := by
  unfold Pages.pgfaultShared
  refine (resident.shmemGetEntry shmem len shmemAddr true).bind ?_
  rintro ⟨found, q⟩ after
  dsimp only at after ⊢
  split
  · exact after
  · exact after
  · exact (after.pageInsert mm _ la perm).bind fun _ inserted => inserted
  · rename_i e isEntry
    exact absurd isEntry (after.entries _ e)

theorem pgfaultMap (mm : MmPtr) (la : Nat) (perm : Perm) (f : Frame) (mayCopy : Bool)
    (newpage : Option Frame) (ret : Int) : Meets Panic.Never (fun result => result.2.Resident)
      (p.pgfaultMap mm la perm f mayCopy newpage ret) := by
  unfold Pages.pgfaultMap Pages.swapPageCount
  rw [if_neg (by rw [resident.uncached f]; exact Bool.noConfusion)]
  rw [ok_bind]
  split
  · split
    · exact resident
    · rename_i new
      have copied : Resident { p with data := Function.update p.data new (p.data f) } :=
        resident.congr rfl rfl
      exact (copied.pageInsert mm new la perm).bind fun _ inserted => inserted
  · refine (resident.pageInsert mm f la perm).bind ?_
    rintro ⟨_, q⟩ inserted
    exact (Resident.freeSpare inserted newpage).bind fun _ freed => freed

theorem pgfaultEntry (mm : MmPtr) (la : Nat) (perm : Perm) (cow write : Bool) :
    p.pte (userSlot mm la) ≠ .zero → Meets Panic.Never (fun result => result.2.Resident)
      (p.pgfaultEntry mm la perm cow write) := by
  intro there
  unfold Pages.pgfaultEntry
  cases isEntry : p.pte (userSlot mm la) with
  | zero => exact absurd isEntry there
  | swapped e => exact absurd isEntry (resident.entries _ e)
  | present g old =>
      dsimp only
      split
      · have taken : (if cow = true then p.allocPage else (none, p)).2.Resident ∧
            (if cow = true then p.allocPage else (none, p)).2.pte = p.pte := by
          split
          · refine ⟨resident.allocPage, ?_⟩
            rcases alloc : p.allocPage with ⟨found, q⟩
            cases found with
            | none =>
                obtain ⟨grants, rfl⟩ := allocPage_none alloc
                rfl
            | some f =>
                obtain ⟨_, grants, rfl⟩ := allocPage_some alloc
                rfl
          · exact ⟨resident, rfl⟩
        rcases spare : (if cow = true then p.allocPage else (none, p)) with ⟨newpage, q⟩
        rw [spare] at taken
        obtain ⟨after, pte⟩ := taken
        dsimp only at after pte ⊢
        rw [Pages.pgfaultPage, pte, isEntry]
        exact Resident.pgfaultMap after mm la _ g _ newpage _
      · exact id

end Resident

end Pages

namespace Memory

variable {m : Memory} {mm : MmPtr} {v : VmaPtr} {p : Pages}

open Pages

/-- What returns a value, returns one. -/
theorem anything {α : Type} (result : Except Panic α) :
    Meets Panic.Never (fun _ => True) result := by
  cases result with
  | ok value => trivial
  | error reason => exact id

section

variable (resident : m.pages.Resident)
include resident

/-! ## Areas -/

theorem vmaDestroy_resident (v : VmaPtr) :
    Meets Panic.Never (fun n => n.pages.Resident) (m.vmaDestroy v) := by
  unfold vmaDestroy
  refine Meets.bind_through (fun n : Memory => n.pages.Resident) ?_ fun n after => after
  split
  · split
    · exact id
    · rename_i s shmem
      dsimp only
      split
      · exact (resident.shmemDestroy s).bind fun q ended => ended
      · exact resident
  · exact resident

theorem destroyVmas_resident (list : List VmaPtr) :
    Meets Panic.Never (fun n => n.pages.Resident) (destroyVmas list m) := by
  induction list generalizing m with
  | nil => exact resident
  | cons v rest ih => exact (vmaDestroy_resident resident v).bind fun n after => ih after

theorem unmapVma_resident (mm : MmPtr) (start stop : Nat) (v : VmaPtr) :
    Meets Panic.Never (fun n => n.pages.Resident) (m.unmapVma mm start stop v) := by
  unfold unmapVma
  dsimp only
  split
  · refine (anything _).bind fun vm₁ _ => (anything _).bind fun vm₂ _ => ?_
    exact (resident.unmapRange mm _ _).bind fun q after => after
  · split
    · refine (anything _).bind fun vm₁ _ => (anything _).bind fun vm₂ _ => ?_
      exact (resident.unmapRange mm _ _).bind fun q after => after
    · refine (vmaDestroy_resident resident v).bind fun n after => ?_
      exact (after.unmapRange mm _ _).bind fun q unmapped => unmapped

theorem unmapVmas_resident (mm : MmPtr) (start stop : Nat) (list : List VmaPtr) :
    Meets Panic.Never (fun n => n.pages.Resident) (unmapVmas mm start stop list m) := by
  induction list generalizing m with
  | nil => exact resident
  | cons v rest ih =>
      exact (unmapVma_resident resident mm start stop v).bind fun n after => ih after

theorem unmapHole_resident (mm : MmPtr) (start stop : Nat) (v : VmaPtr) :
    Meets Panic.Never (fun result => result.2.pages.Resident) (m.unmapHole mm start stop v) := by
  unfold unmapHole
  rcases m.vm.vmaCreate (m.vm.vma v).vmStart start (m.vm.vma v).vmFlags with ⟨new, vm⟩
  cases new with
  | none => exact resident
  | some w =>
      refine (anything _).bind fun vm₁ _ => (anything _).bind fun vm₂ _ => ?_
      exact (resident.unmapRange mm _ _).bind fun q after => after

theorem mmUnmap_resident (mm : MmPtr) (addr len : Nat) :
    Meets Panic.Never (fun result => result.2.pages.Resident) (m.mmUnmap mm addr len) := by
  unfold mmUnmap
  dsimp only
  generalize roundDown addr pgSize = first
  generalize roundUp (add32 addr len) pgSize = last
  split
  · rcases m.vm.findVma mm first with ⟨found, vm⟩
    cases found with
    | none => exact resident
    | some v =>
        dsimp only
        split
        · exact resident
        · split
          · exact @unmapHole_resident { m with vm := vm } resident mm first last v
          · refine (anything _).bind ?_
            rintro ⟨freeList, vm₁⟩ _
            refine Meets.bind ?_ fun n after => after
            exact @unmapVmas_resident { m with vm := vm₁ } resident mm first last freeList
  · exact resident

theorem mmBrk_resident (mm : MmPtr) (addr len : Nat) :
    Meets Panic.Never (fun result => result.2.pages.Resident) (m.mmBrk mm addr len) := by
  unfold mmBrk
  dsimp only
  generalize roundDown addr pgSize = first
  generalize roundUp (add32 addr len) pgSize = last
  split
  · refine (mmUnmap_resident resident mm first (last - first)).bind ?_
    rintro ⟨ret, n⟩ after
    dsimp only at after ⊢
    split
    · exact after
    · rcases n.vm.findVma mm (first - 1) with ⟨found, vm⟩
      dsimp only
      split
      · exact after
      · rcases vm.vmaCreate first last (vmRead ||| vmWrite) with ⟨new, vm₁⟩
        cases new with
        | none => exact after
        | some w => exact (anything _).bind fun vm₂ _ => after
  · exact resident

theorem doShmem_resident (mm : MmPtr) (addr len : Nat) (flags : BitVec 32) :
    Meets Panic.Never (fun result => result.2.pages.Resident) (m.doShmem mm addr len flags) := by
  unfold doShmem
  split
  · exact resident
  · dsimp only
    generalize sub32 (roundUp (add32 addr len) pgSize) (roundDown addr pgSize) = size
    generalize (if roundDown addr pgSize = 0 then m.vm.getUnmappedArea mm size
      else roundDown addr pgSize) = chosen
    split
    · exact resident
    · have creates : (m.shmemCreate size).2.pages.Resident := by
        unfold shmemCreate
        rcases m.vm.kmalloc m.vm.shmemUsed with ⟨found, vm⟩
        cases found with
        | none => exact resident
        | some s => exact resident.shmemCreate s
      rcases made : m.shmemCreate size with ⟨found, n⟩
      rw [made] at creates
      cases found with
      | none => exact creates
      | some s =>
          refine (anything _).bind ?_
          rintro ⟨ret, vm⟩ _
          dsimp only
          split
          · exact (Resident.shmemDestroy creates s).bind fun q ended => ended
          · exact creates

/-! ## Address spaces -/

theorem dupVma_resident (target source : MmPtr) (v : VmaPtr) :
    Meets Panic.Never (fun result => result.2.pages.Resident) (m.dupVma target source v) := by
  unfold dupVma
  dsimp only
  rcases m.vm.vmaCreate (m.vm.vma v).vmStart (m.vm.vma v).vmEnd (m.vm.vma v).vmFlags
    with ⟨new, vm⟩
  cases new with
  | none => exact resident
  | some w =>
      refine (anything _).bind fun vm₁ _ => (anything _).bind fun vm₂ _ => ?_
      refine (resident.copyRange target source _ _ _).bind ?_
      rintro ⟨ret, q⟩ after
      exact after

theorem dupVmas_resident (target source : MmPtr) (list : List VmaPtr) :
    Meets Panic.Never (fun result => result.2.pages.Resident) (dupVmas target source list m) := by
  induction list generalizing m with
  | nil => exact resident
  | cons v rest ih =>
      refine (dupVma_resident resident target source v).bind ?_
      rintro ⟨ret, n⟩ after
      dsimp only
      split
      · exact after
      · exact ih after

theorem dupMmap_resident (target source : MmPtr) :
    Meets Panic.Never (fun result => result.2.pages.Resident) (m.dupMmap target source) :=
  dupVmas_resident resident target source _

theorem exitMmap_resident (mm : MmPtr) :
    Meets Panic.Never (fun n => n.pages.Resident) (m.exitMmap mm) := by
  have unmaps : ∀ (list : List VmaPtr) (p : Pages), p.Resident →
      Meets Panic.Never Pages.Resident (m.unmapAll mm list p) := by
    intro list
    induction list with
    | nil => exact fun p before => before
    | cons v rest ih => exact fun p before => (before.unmapRange mm _ _).bind ih
  have exits : ∀ (list : List VmaPtr) (p : Pages), p.Resident →
      Meets Panic.Never Pages.Resident (m.exitAll mm list p) := by
    intro list
    induction list with
    | nil => exact fun p before => before
    | cons v rest ih => exact fun p before => (before.exitRange mm _ _).bind ih
  unfold exitMmap
  split
  · refine (unmaps _ _ resident).bind fun p unmapped => ?_
    exact (exits _ p unmapped).bind fun q exited => exited
  · exact id

theorem mmDestroy_resident (mm : MmPtr) :
    Meets Panic.Never (fun n => n.pages.Resident) (m.mmDestroy mm) := by
  unfold mmDestroy
  split
  · exact (destroyVmas_resident resident _).bind fun n after => after
  · exact id

theorem endMm_resident (mm : MmPtr) :
    Meets Panic.Never (fun n => n.pages.Resident) (m.endMm mm) := by
  unfold endMm
  refine (exitMmap_resident resident mm).bind fun n exited => ?_
  refine (Resident.freePage exited _).bind fun p freed => ?_
  exact @mmDestroy_resident { n with pages := p } freed mm

theorem mmCreate_resident : m.mmCreate.2.pages.Resident := by
  unfold mmCreate
  rcases m.vm.kmalloc m.vm.mmUsed with ⟨found, vm⟩
  cases found with
  | none => exact resident
  | some mm => exact resident

theorem newMm_resident : Meets Panic.Never (fun result => result.2.pages.Resident) m.newMm := by
  unfold newMm
  have creates := mmCreate_resident resident
  rcases made : m.mmCreate with ⟨found, n⟩
  rw [made] at creates
  cases found with
  | none => exact creates
  | some mm =>
      have sets := Resident.setupPgdir creates mm
      rcases setup : n.pages.setupPgdir mm with ⟨ret, p⟩
      rw [setup] at sets
      dsimp only
      rw [setup]
      dsimp only
      split
      · exact (@mmDestroy_resident { n with pages := p } sets mm).bind fun o after => after
      · exact sets

theorem copyMm_resident (source : MmPtr) :
    Meets Panic.Never (fun result => result.2.pages.Resident) (m.copyMm source) := by
  unfold copyMm
  have creates := mmCreate_resident resident
  rcases made : m.mmCreate with ⟨found, n⟩
  rw [made] at creates
  cases found with
  | none => exact creates
  | some mm =>
      have sets := Resident.setupPgdir creates mm
      rcases setup : n.pages.setupPgdir mm with ⟨ret, p⟩
      rw [setup] at sets
      dsimp only
      rw [setup]
      dsimp only
      split
      · exact (@mmDestroy_resident { n with pages := p } sets mm).bind fun o after => after
      · refine (@dupMmap_resident { n with pages := p } sets mm source).bind ?_
        rintro ⟨ret', o⟩ copied
        dsimp only
        split
        · refine (exitMmap_resident copied mm).bind fun o₁ exited => ?_
          refine (Resident.freePage exited _).bind fun q freed => ?_
          exact (@mmDestroy_resident { o₁ with pages := q } freed mm).bind fun _ ended => ended
        · exact copied

theorem leaveMm_resident (mm : MmPtr) :
    Meets Panic.Never (fun n => n.pages.Resident) (m.leaveMm mm) := by
  unfold leaveMm
  dsimp only
  split
  · exact @endMm_resident
      { m with vm := m.vm.modifyMm mm fun s => { s with mmCount := s.mmCount - 1 } } resident mm
  · exact resident

/-! ## Page faults and accesses -/

theorem doPgfault_resident (found : Option MmPtr) (errorCode : BitVec 32) (addr : Nat) :
    Meets Panic.Never (fun result => result.2.pages.Resident)
      (m.doPgfault found errorCode addr) := by
  unfold doPgfault
  split
  · exact id
  · rename_i mm
    rcases m.vm.findVma mm addr with ⟨area, vm⟩
    cases area with
    | none => exact resident
    | some v =>
        dsimp only
        split
        · exact resident
        · split
          · exact resident
          · split
            · refine Meets.bind_through (fun result => result.2.Resident) ?_ fun _ after => after
              unfold pgfaultResolve
              dsimp only
              have gets := resident.getPte mm (roundDown addr pgSize) true
              rcases answer : m.pages.getPte mm (roundDown addr pgSize) true with ⟨there, p⟩
              rw [answer] at gets
              cases there with
              | false => exact gets
              | true =>
                  dsimp only
                  split
                  · split
                    · split
                      · exact id
                      · exact Resident.pgfaultShared gets mm _ _ _ _ _
                    · exact (Resident.pgdirAllocPage gets mm _ _).bind fun _ after => after
                  · rename_i there
                    exact Resident.pgfaultEntry gets mm _ _ _ _ there
            · exact resident

theorem userLoad_resident (mm : MmPtr) (addr : Nat) : (m.userLoad mm addr).pages.Resident := by
  unfold userLoad
  split
  · exact resident.writePte _ fun e => Pte.noConfusion
  · exact resident

theorem userStore_resident (mm : MmPtr) (addr value : Nat) :
    (m.userStore mm addr value).pages.Resident := by
  unfold userStore
  split
  · rename_i f perm _
    split
    · have written := @Resident.writePte m.pages
        (.present f { perm with accessed := true, dirty := true }) resident (userSlot mm addr)
        fun e => Pte.noConfusion
      exact written.congr rfl rfl
    · exact resident
  · exact resident

end

end Memory

/-! ## Calls -/

/-- The event evicts pages, or works on the lists of evicted ones. -/
def Event.evicts : Event → Bool
  | .swapOut _ _ | .refill | .launder => true
  | _ => false

/-- The call evicts pages, or works on the lists of evicted ones. -/
def Call.evicts : Call → Bool
  | .event i => i.event.evicts
  | .dup _ _ _ => false

namespace Memory

variable {m n m₀ : Memory} {calls : List Call}

theorem perform_resident {event : Event} (resident : m.pages.Resident)
    (stays : event.evicts = false) :
    Meets Panic.Never (fun n => n.pages.Resident) (m.perform event) := by
  cases event with
  | new => exact .map (newMm_resident resident)
  | fork mm => exact .map (copyMm_resident resident mm)
  | share mm => exact resident
  | leave mm => exact leaveMm_resident resident mm
  | map mm addr len flags => exact (anything _).bind fun _ _ => resident
  | shmem mm addr len flags => exact .map (doShmem_resident resident mm addr len flags)
  | mapShmem mm addr flags s => exact (anything _).bind fun _ _ => resident
  | unmap mm addr len => exact .map (mmUnmap_resident resident mm addr len)
  | brk mm addr len => exact .map (mmBrk_resident resident mm addr len)
  | pgfault mm errorCode addr => exact .map (doPgfault_resident resident _ errorCode addr)
  | load mm addr => exact userLoad_resident resident mm addr
  | store mm addr value => exact userStore_resident resident mm addr value
  | swapOut mm require => cases stays
  | refill => cases stays
  | launder => cases stays

/-- A call that evicts nothing keeps the pages in memory. -/
theorem call_resident {c : Call} (resident : m.pages.Resident) (stays : c.evicts = false)
    (done : m.call c = .ok n) : n.pages.Resident := by
  have supplied : ∀ i, (m.supply i).pages.Resident := fun i => resident.congr rfl rfl
  suffices meets : Meets Panic.Never (fun n => n.pages.Resident) (m.call c) from
    meets.post_of_ok done
  cases c with
  | event i =>
      change Meets Panic.Never _ (m.step i)
      unfold step
      split
      · exact perform_resident (supplied i) stays
      · exact resident
  | dup target source answers =>
      rw [call]
      split
      · exact .map (dupMmap_resident (supplied answers) target source)
      · exact resident

/-- A memory before there is anything, without entries. -/
structure Empty (m : Memory) : Prop where
  initial : m.Initial
  blank : m.Blank
  segments : ∀ s page, m.pages.pte (.shared s page) = .zero

theorem Empty.resident (empty : m.Empty) : m.pages.Resident := by
  refine ⟨fun slot e => ?_, empty.initial.swap⟩
  cases slot with
  | user mm page =>
      rw [empty.blank.entries mm page]
      exact Pte.noConfusion
  | shared s page =>
      rw [empty.segments s page]
      exact Pte.noConfusion

/-- Without evictions the pages stay in memory. -/
theorem run_resident (resident : m₀.pages.Resident) (stays : ∀ c ∈ calls, c.evicts = false)
    (run : Run.exec call m₀ calls = .ok m) : m.pages.Resident := by
  induction calls generalizing m₀ with
  | nil =>
      cases run
      exact resident
  | cons c calls ih =>
      obtain ⟨n, taken, run⟩ := Run.exec_cons_eq_ok_iff.mp run
      obtain ⟨first, rest⟩ := List.forall_mem_cons.mp stays
      exact ih (call_resident resident first taken) rest run

end Memory

end EdfKernel.Mm
