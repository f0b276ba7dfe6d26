import EdfKernel.Mm.AreaInvariant
import EdfKernel.Mm.ListAccounts
import EdfKernel.Mm.SegmentBalance

/-!
# Faults, accesses and evictions keep the balance

`do_pgfault` and `swap_out_vma`.  A frame that a fault has set aside for a copy is mapped, or freed,
and a reference to a frame becomes one to a slot.
-/

namespace EdfKernel.Mm

open Library

namespace Pages

variable {p q : Pages} {live : Live} {hand t : Multiset Use} {f : Frame} {mm : MmPtr} {la : Nat}
  {perm : Perm} {newpage : Option Frame}

namespace Balanced

/-- One entry less maps a frame that is cached. -/
theorem drop (balanced : p.Balanced live (hand + {.frame f})) (swap : (p.page f).swap = true) :
    (p.pageRefDec f).Balanced live hand :=
  balanced.of_places rfl (balanced.split.drop (.inl swap))

theorem freeSpares (balanced : p.Balanced live (hand + spares newpage)) :
    Meets Panic.Misuse (fun q => q.Balanced live hand) (p.freeSpare newpage) := by
  cases newpage with
  | none => rwa [spares, add_zero] at balanced
  | some f =>
      obtain ⟨freed, after⟩ := balanced.freeSpare
      exact .of_eq_ok freed after

/-- The entry of a page is in a page table. -/
theorem covers {page : Nat} (balanced : p.Balanced live hand)
    (present : p.pte (.user mm page) ≠ .zero) : p.Covers (.user mm page) :=
  balanced.covered.1 mm page present

/-! ## do_pgfault -/

theorem pgfaultAlloc (balanced : p.Balanced live hand) (has : live.mm mm = true)
    (low : la < 2 ^ 32) :
    Meets Panic.Misuse (fun result => result.2.Balanced live hand) (p.pgfaultAlloc mm la perm) := by
  refine (balanced.pgdirAllocPage has low).bind ?_
  rintro ⟨page, q⟩ after
  exact after

theorem pgfaultPage (balanced : p.Balanced live hand) (has : live.mm mm = true) :
    Meets Panic.Misuse (fun result => result.2.2.Balanced live hand ∧
        result.2.2.places = p.places ∧
        ((p.pte (userSlot mm la)).isPresent = true ∨ result.1 = 0 →
          result.2.2.Refers live result.2.1))
      (p.pgfaultPage (userSlot mm la)) := by
  unfold Pages.pgfaultPage
  cases isEntry : p.pte (userSlot mm la) with
  | zero =>
      refine Meets.bind_through (fun _ => False) ?_ fun _ impossible => impossible.elim
      rw [swapOffset, if_neg (by simp [Pte.swapEntry])]
      exact not_misuse_swapEntry
  | present f perm =>
      exact ⟨balanced, rfl, fun _ => .inr ⟨userSlot mm la, perm, has, isEntry⟩⟩
  | swapped e =>
      have held : .entry e ∈ hand + tally (p.holds live) := by
        refine balanced.uses_mem (userSlot mm la) has ?_
        rw [isEntry]
        exact Multiset.mem_singleton_self _
      refine (balanced.accounts.swapInPage held).mono ?_
      rintro ⟨ret, f, q⟩ ⟨accounts, places, cached⟩
      refine ⟨balanced.of_places places accounts, places, ?_⟩
      rintro (⟨⟨⟩⟩ | zero)
      exact .inl (cached zero)

theorem swapPageCount_meets :
    Meets Panic.Misuse (fun _ => True) (p.swapPageCount f) := by
  unfold Pages.swapPageCount
  split
  · exact swapOffset_meets.bind fun _ _ => trivial
  · trivial

/-- The end of `do_pgfault`; there is a page table, so that no frame is left over. -/
theorem pgfaultMap {mayCopy : Bool} {ret : Int} (balanced : p.Balanced live (hand + spares newpage))
    (has : live.mm mm = true) (low : la < 2 ^ 32) (refers : p.Refers live f)
    (there : (p.table mm (pdx la)).isSome = true) :
    Meets Panic.Misuse (fun result => result.2.Balanced live hand)
      (p.pgfaultMap mm la perm f mayCopy newpage ret) := by
  unfold Pages.pgfaultMap
  refine swapPageCount_meets.bind fun count _ => ?_
  split
  · cases newpage with
    | none => rwa [spares, add_zero] at balanced
    | some new =>
        have copied : Balanced { p with data := Function.update p.data new (p.data f) } live
            (hand + {.spare new}) := by
          refine balanced.of_places rfl ?_
          exact balanced.accounts.congr rfl rfl fun _ => ⟨rfl, rfl, rfl, rfl, rfl⟩
        refine (copied.pageInsert has low (.inl rfl)).bind ?_
        rintro ⟨ret, q⟩ ⟨mapped, _, works⟩
        exact (mapped (works there)).1
  · refine (balanced.insertReferred has low refers).bind ?_
    rintro ⟨_, q⟩ ⟨after, _⟩
    exact after.freeSpares.bind fun r freed => freed

/-- `do_pgfault` at an entry that is not zero. -/
theorem pgfaultEntry {cow write : Bool} (balanced : p.Balanced live hand) (has : live.mm mm = true)
    (low : la < 2 ^ 32) (nonzero : p.pte (userSlot mm la) ≠ .zero) :
    Meets Panic.Misuse (fun result => result.2.Balanced live hand)
      (p.pgfaultEntry mm la perm cow write) := by
  have there : (p.table mm (pdx la)).isSome = true := by
    rw [pdx_eq low]
    exact balanced.covered.1 mm _ nonzero
  unfold Pages.pgfaultEntry
  dsimp only
  split
  · have set_aside : ((if cow = true then p.allocPage else (none, p)).2).Balanced live
        (hand + spares (if cow = true then p.allocPage else (none, p)).1) ∧
        (if cow = true then p.allocPage else (none, p)).2.tables = p.tables := by
      split
      · rcases answer : p.allocPage with ⟨found, q⟩
        have same := p.allocPage_tables
        rw [answer] at same
        cases found with
        | none => exact ⟨by simpa [spares] using balanced.withGrants answer, same⟩
        | some f => exact ⟨balanced.allocPage answer, same⟩
      · exact ⟨by simpa [spares] using balanced, rfl⟩
    generalize (if cow = true then p.allocPage else (none, p)) = aside at set_aside ⊢
    obtain ⟨newpage, q⟩ := aside
    obtain ⟨before, same⟩ := set_aside
    dsimp only at before same ⊢
    refine (before.pgfaultPage has).bind ?_
    rintro ⟨ret, f, r⟩ ⟨after, places, refers⟩
    dsimp only at after places refers ⊢
    rw [pte_of_tables same] at refers
    have there' : (r.table mm (pdx la)).isSome = true := by
      rw [table_of_tables (congrArg Prod.fst places), table_of_tables same]
      exact there
    split
    · exact after.freeSpares.bind fun _ freed => freed
    · rename_i found
      refine after.pgfaultMap has low (refers ?_) there'
      by_contra neither
      rw [not_or, Bool.not_eq_true] at neither
      exact found neither
  · simp [Panic.Misuse]

/-! ## swap_out_vma -/

/-- The frame of an entry is not reserved. -/
theorem unreserved (balanced : p.Balanced live hand) (slot : Slot) (has : live.has slot = true)
    (isEntry : p.pte slot = .present f perm) : (p.page f).reserved = false := by
  have mem : .frame f ∈ hand + tally (p.holds live) := by
    refine balanced.uses_mem slot has ?_
    rw [isEntry]
    exact Multiset.mem_singleton_self _
  exact ((balanced.accounts.fits f).of_data (.inr (Multiset.count_pos.mpr mem))).2.2.2.2.1

/-- The bits of an entry change. -/
theorem setPerm {page : Nat} {perm' : Perm} (balanced : p.Balanced live hand)
    (has : live.mm mm = true) (isEntry : p.pte (.user mm page) = .present f perm) :
    (p.writePte (.user mm page) (.present f perm')).Balanced live hand := by
  refine balanced.replace has ?_ fun _ => balanced.covers ?_
  · rw [isEntry]
    rfl
  · rw [isEntry]
    rintro ⟨⟩

/-- An entry that maps a frame holds the slot of the frame instead. -/
theorem swapEntry {page : Nat} {e : SwapEntry} (balanced : p.Balanced live (hand + {.entry e}))
    (has : live.mm mm = true) (isEntry : p.pte (.user mm page) = .present f perm)
    (swap : (p.page f).swap = true) :
    ((p.pageRefDec f).writePte (.user mm page) (.swapped e)).Balanced live hand := by
  have written : (p.writePte (.user mm page) (.swapped e)).Balanced live
      (hand + (p.pte (.user mm page)).uses) :=
    balanced.writePte has fun _ => balanced.covers (by rw [isEntry]; rintro ⟨⟩)
  rw [isEntry] at written
  exact written.drop swap

end Balanced

end Pages

namespace Memory

variable {m n : Memory} {mm : MmPtr} {vma : VmaPtr} {la addr stop fuel require count : Nat}
  {live : Live} {hand : Multiset Use}

/-- The segments that the areas of an address space refer to exist. -/
def Linked (m : Memory) (live : Live) (mm : MmPtr) : Prop :=
  ∀ v ∈ m.vm.areas mm, ∀ s, (m.vm.vma v).shmem = some s → live.shmem s = true

theorem Linked.keepsSet (linked : m.Linked live mm) (keeps : m.vm.KeepsSet n.vm mm) :
    n.Linked live mm := by
  intro v mem s
  rw [keeps.vma]
  rw [keeps.areas] at mem
  exact linked v mem s

/-! ## swap_out_mm -/

/-- `swap_out_vma` at one entry. -/
theorem swapOutPte_balanced (balanced : m.pages.Balanced live hand) (has : live.mm mm = true)
    (stays : live.closing = none)
    (linked : ∀ s, (m.vm.vma vma).shmem = some s → live.shmem s = true) :
    Meets Panic.Misuse (fun result => result.2.pages.Balanced live hand)
      (m.swapOutPte mm vma la) := by
  unfold swapOutPte
  dsimp only
  split
  · rename_i f perm isEntry
    split
    · rename_i reserved
      rw [balanced.unreserved (userSlot mm la) has isEntry] at reserved
      cases reserved
    · split
      · exact balanced.setPerm has isEntry
      · have mapped : .frame f ∈ hand + tally (m.pages.holds live) := by
          refine balanced.uses_mem (userSlot mm la) has ?_
          rw [isEntry]
          exact Multiset.mem_singleton_self _
        refine (balanced.accounts.swapOutSlot mapped perm.dirty).bind ?_
        rintro ⟨entry, q⟩ ⟨accounts, places, cached⟩
        have after := balanced.of_places places accounts
        dsimp only at places after cached ⊢
        split
        · exact after
        · rename_i nonzero
          refine after.swapDuplicate.bind ?_
          rintro r ⟨before, places', page⟩
          have isEntry' : r.pte (userSlot mm la) = .present f perm := by
            rw [Pages.pte_of_tables (congrArg Prod.fst (places'.trans places))]
            exact isEntry
          have swapped := before.swapEntry has isEntry' (by rw [page]; exact cached nonzero)
          refine Meets.bind_through (fun p : Pages => p.Balanced live hand) ?_ fun p done => done
          split
          · split
            · simp [Panic.Misuse]
            · rename_i shmem isShmem
              exact swapped.swapOutShared (linked shmem isShmem) (by rw [stays]; rintro ⟨⟩)
          · exact swapped
  · exact balanced

theorem swapOutLoop_balanced (balanced : m.pages.Balanced live hand) (has : live.mm mm = true)
    (stays : live.closing = none) (linked : m.Linked live mm) (mem : vma ∈ m.vm.areas mm) :
    Meets Panic.Misuse (fun result => result.2.pages.Balanced live hand)
      (swapOutLoop mm vma stop fuel la require count m) := by
  induction fuel generalizing la require count m with
  | zero => exact balanced
  | succ fuel ih =>
      rw [swapOutLoop]
      split
      · refine Meets.bind_through (fun result : Nat × Memory =>
          result.2.pages.Balanced live hand ∧ m.vm.KeepsSet result.2.vm mm) ?_ ?_
        · split
          · exact (swapOutPte_balanced balanced has stays (linked vma mem)).and_of_ok
              fun _ done => swapOutPte_keepsSet done
          · exact ⟨balanced, .refl _ _⟩
        · rintro ⟨freed, n⟩ ⟨after, keeps⟩
          exact ih after (linked.keepsSet keeps) (by rw [keeps.areas]; exact mem)
      · exact balanced

theorem swapOutVma_balanced (balanced : m.pages.Balanced live hand) (has : live.mm mm = true)
    (stays : live.closing = none) (linked : m.Linked live mm) (mem : vma ∈ m.vm.areas mm) :
    Meets Panic.Misuse (fun result => result.2.pages.Balanced live hand)
      (m.swapOutVma mm vma addr require) := by
  unfold swapOutVma
  dsimp only
  split
  · exact balanced
  · exact swapOutLoop_balanced balanced has stays linked mem

theorem swapOutVmas_balanced (balanced : m.pages.Balanced live hand) (has : live.mm mm = true)
    (stays : live.closing = none) (linked : m.Linked live mm) (mem : vma ∈ m.vm.areas mm) :
    Meets Panic.Misuse (fun result => result.2.pages.Balanced live hand)
      (swapOutVmas mm fuel vma addr require count m) := by
  induction fuel generalizing vma addr require count m with
  | zero => exact balanced
  | succ fuel ih =>
      rw [swapOutVmas]
      have first := (@swapOutVma_balanced _ _ _ addr require _ _ balanced has stays linked
        mem).and_of_ok fun _ done => ((swapOutVma_evicts balanced.covered.1).2 _ done).keeps
      refine first.bind ?_
      rintro ⟨freed, n⟩ ⟨after, keeps⟩
      dsimp only
      split
      · exact after
      · split
        · exact after
        · rename_i next isNext
          refine ih after (linked.keepsSet keeps) ?_
          rcases Option.or_eq_some_iff.mp isNext with later | ⟨_, first⟩
          · have tail := List.mem_of_mem_tail (List.mem_of_head? later)
            exact (List.dropWhile_suffix _).subset tail
          · exact List.mem_of_head? first

/-- `swap_out_mm`. -/
theorem swapOutMm_balanced (balanced : m.pages.Balanced live hand) (has : live.mm mm = true)
    (stays : live.closing = none) (linked : m.Linked live mm) (set : m.vm.VmaSet mm) :
    Meets Panic.Misuse (fun result => result.2.pages.Balanced live hand)
      (m.swapOutMm mm require) := by
  unfold swapOutMm
  obtain ⟨search, sets⟩ := set.findVma (m.vm.mm mm).swapAddress
  rcases answer : m.vm.findVma mm (m.vm.mm mm).swapAddress with ⟨found, vm⟩
  rw [answer] at search sets
  have linked' : ({ m with vm := vm } : Memory).Linked live mm := linked.keepsSet sets.keepsSet
  split
  · exact balanced
  · cases found with
    | some v =>
        have mem : v ∈ vm.areas mm := by
          rw [sets.areas]
          exact (set.ordered.find_eq_some search.symm).1
        dsimp only
        split
        · exact @swapOutVmas_balanced { m with vm := vm } _ _ _ _ _ _ _ _ balanced has stays linked'
            mem
        · simp [Panic.Misuse]
    | none =>
        dsimp only
        split
        · simp [Panic.Misuse]
        · rename_i v rest list
          have reset := @Vm.modifyMm_keepsSet vm mm (fun s => { s with swapAddress := 0 })
            fun s => ⟨rfl, rfl, rfl, rfl⟩
          have mem : v ∈ (vm.modifyMm mm fun s => { s with swapAddress := 0 }).areas mm := by
            rw [reset.areas, Vm.areas, list]
            exact List.mem_cons_self
          exact @swapOutVmas_balanced
            { m with vm := vm.modifyMm mm fun s => { s with swapAddress := 0 } } _ _ _ _ _ _ _ _
            balanced has stays (linked'.keepsSet reset) mem

/-! ## Accesses -/

theorem userLoad_balanced (balanced : m.pages.Balanced live hand) (has : live.mm mm = true) :
    (m.userLoad mm addr).pages.Balanced live hand := by
  unfold userLoad
  split
  · rename_i f perm isEntry
    exact balanced.setPerm has isEntry
  · exact balanced

theorem userStore_balanced {value : Nat} (balanced : m.pages.Balanced live hand)
    (has : live.mm mm = true) : (m.userStore mm addr value).pages.Balanced live hand := by
  unfold userStore
  split
  · rename_i f perm isEntry
    split
    · have written : (m.pages.writePte (userSlot mm addr)
          (.present f { perm with accessed := true, dirty := true })).Balanced live hand :=
        balanced.setPerm has isEntry
      exact written.of_places rfl
        (written.accounts.congr rfl rfl fun _ => ⟨rfl, rfl, rfl, rfl, rfl⟩)
    · exact balanced
  · exact balanced

/-! ## do_pgfault -/

theorem pgfaultResolve_balanced {errorCode : BitVec 32} {s : VmaStruct}
    (balanced : m.pages.Balanced live hand) (has : live.mm mm = true)
    (stays : live.closing = none) (low : la < 2 ^ 32)
    (linked : ∀ shmem, s.shmem = some shmem → live.shmem shmem = true) :
    Meets Panic.Misuse (fun result => result.2.Balanced live hand)
      (m.pgfaultResolve mm errorCode la s) := by
  unfold pgfaultResolve
  have gets := @Pages.Balanced.getPte m.pages live hand mm la balanced has true
  rcases answer : m.pages.getPte mm la true with ⟨there, q⟩
  rw [answer] at gets
  obtain ⟨after, _, _⟩ := gets
  dsimp only at after
  cases there with
  | false => exact after
  | true =>
      dsimp only
      split
      · rename_i zero
        split
        · split
          · simp [Panic.Misuse]
          · rename_i shmem isShmem
            exact after.pgfaultShared has (linked shmem isShmem) (by rw [stays]; rintro ⟨⟩) low zero
        · exact after.pgfaultAlloc has low
      · rename_i nonzero
        exact after.pgfaultEntry has low nonzero

/-- `do_pgfault`. -/
theorem doPgfault_balanced {errorCode : BitVec 32} (balanced : m.pages.Balanced live hand)
    (has : live.mm mm = true) (stays : live.closing = none) (linked : m.Linked live mm)
    (set : m.vm.VmaSet mm) :
    Meets Panic.Misuse (fun result => result.2.pages.Balanced live hand)
      (m.doPgfault (some mm) errorCode addr) := by
  unfold doPgfault
  obtain ⟨search, sets⟩ := set.findVma addr
  dsimp only
  rcases answer : m.vm.findVma mm addr with ⟨found, vm⟩
  rw [answer] at search sets
  cases found with
  | none => exact balanced
  | some v =>
      obtain ⟨mem, ends, _⟩ := set.ordered.find_eq_some search.symm
      have low : roundDown addr pgSize < 2 ^ 32 := by
        obtain ⟨_, _, top, _, _⟩ := set.range v mem
        unfold userTop at top
        unfold roundDown
        omega
      have linked' : ∀ shmem, (vm.vma v).shmem = some shmem → live.shmem shmem = true := by
        rw [sets.vma]
        exact linked v mem
      dsimp only
      split
      · exact balanced
      · split
        · exact balanced
        · split
          · refine (@pgfaultResolve_balanced { m with vm := vm } _ _ _ _ _ _ balanced has stays low
              linked').bind ?_
            rintro ⟨ret, q⟩ after
            exact after
          · exact balanced

end Memory

end EdfKernel.Mm
