import EdfKernel.Mm.Unmap

/-!
# What faults and eviction do to the entries

A page fault adds an entry for its own page at most, eviction changes entries that are there, and
the functions on segments leave the entries of address spaces alone.
-/

namespace EdfKernel.Mm

open Library

namespace Pages

variable {p p' q : Pages} {f : Frame} {entry : SwapEntry} {mm : MmPtr} {la : Nat} {perm : Perm}
  {shmem : ShmemPtr} {len addr : Nat} {new : MmPtr → Nat → Prop}

/-! ## Segments -/

theorem findShmn_tables (p : Pages) (shmem : ShmemPtr) (addr : Nat) :
    (p.findShmn shmem addr).2.tables = p.tables := by
  unfold findShmn
  simp only
  split <;> rfl

theorem shmnAt_userTables {create : Bool} {result : Bool × Pages}
    (done : p.shmnAt shmem addr create = .ok result) :
    result.2.userTables = p.userTables := by
  have found := p.findShmn_tables shmem addr
  unfold shmnAt at done
  split at done
  · rename_i answer
    rw [answer] at found
    cases done
    exact userTables_of_tables found
  · rename_i q answer
    rw [answer] at found
    have before := userTables_of_tables found
    split at done
    · have alloc := q.allocPage_tables
      unfold shmnCreate at done
      rcases allocated : q.allocPage with ⟨page, r⟩
      rw [allocated] at done alloc
      have same : r.userTables = p.userTables := (userTables_of_tables alloc).trans before
      cases page with
      | none =>
          cases done
          exact same
      | some f =>
          obtain ⟨s, inserted, rest⟩ := bind_eq_ok_iff.mp done
          cases rest
          unfold insertShmn at inserted
          split at inserted
          · cases inserted
            exact same
          · cases inserted
    · cases done
      exact before

theorem shmemGetEntry_userTables {create : Bool} {result : Bool × Pages}
    (done : p.shmemGetEntry shmem len addr create = .ok result) :
    result.2.userTables = p.userTables := by
  unfold shmemGetEntry at done
  split at done
  · cases done
  · obtain ⟨⟨found, q⟩, at_, rest⟩ := bind_eq_ok_iff.mp done
    have before := shmnAt_userTables at_
    simp only at rest before
    split at rest
    · have alloc := q.allocPage_tables
      split at rest
      · rename_i r allocated
        rw [allocated] at alloc
        cases rest
        exact (userTables_of_tables alloc).trans before
      · rename_i g r allocated
        rw [allocated] at alloc
        cases rest
        exact (userTables_of_tables alloc).trans before
    · cases rest
      exact before

theorem shmemInsertEntry_userTables {entry : Pte} {result : Int × Pages}
    (done : p.shmemInsertEntry shmem len addr entry = .ok result) :
    result.2.userTables = p.userTables := by
  obtain ⟨⟨found, q⟩, got, rest⟩ := bind_eq_ok_iff.mp done
  have before := shmemGetEntry_userTables got
  simp only at rest before
  split at rest
  · cases rest
    exact before
  · obtain ⟨r, removed, rest⟩ := bind_eq_ok_iff.mp rest
    obtain ⟨s, counted, rest⟩ := bind_eq_ok_iff.mp rest
    cases rest
    have cleared : r.userTables = q.userTables := by
      split at removed
      · exact removePte_shared_userTables removed
      · cases removed
        rfl
    have same : s.userTables = r.userTables := by
      split at counted
      · cases counted
        rfl
      · exact userTables_of_tables (swapDuplicate_tables counted)
      · cases counted
        rfl
    exact same.trans (cleared.trans before)

theorem shmemDestroy_userTables (done : p.shmemDestroy shmem = .ok p') :
    p'.userTables = p.userTables :=
  shmnDestroyAll_userTables done

/-! ## Faults -/

theorem pgfaultShared_adds {shmemAddr : Nat} {result : Int × Pages} (backed : p.Backed)
    (low : la < 2 ^ 32) (table : (p.table mm (pdx la)).isSome = true)
    (done : p.pgfaultShared mm la perm shmem len shmemAddr = .ok result) :
    p.Adds result.2 (pageAt mm la) := by
  obtain ⟨⟨found, q⟩, got, rest⟩ := bind_eq_ok_iff.mp done
  have same := shmemGetEntry_userTables got
  have before : p.Adds q (pageAt mm la) := .of_userTables backed same
  simp only at rest
  split at rest
  · cases rest
    exact before
  · cases rest
    exact before
  · obtain ⟨⟨ret, r⟩, inserted, rest⟩ := bind_eq_ok_iff.mp rest
    cases rest
    have adds := pageInsert_adds before.backed low inserted
    exact before.trans adds
  · obtain ⟨r, duplicated, rest⟩ := bind_eq_ok_iff.mp rest
    cases rest
    have counted := swapDuplicate_tables duplicated
    have after : p.Adds r (pageAt mm la) := before.trans (.of_tables before.backed counted)
    refine after.trans (writePte_adds after.backed low ?_ _)
    have sameTable : q.table = p.table := congrArg Prod.fst same
    rw [table_of_tables counted, sameTable]
    exact table

theorem pgfaultAlloc_adds {result : Int × Pages} (backed : p.Backed) (low : la < 2 ^ 32)
    (done : p.pgfaultAlloc mm la perm = .ok result) : p.Adds result.2 (pageAt mm la) := by
  obtain ⟨⟨page, q⟩, allocated, rest⟩ := bind_eq_ok_iff.mp done
  cases rest
  exact pgdirAllocPage_adds backed low allocated

theorem freeSpare_tables {newpage : Option Frame} (freed : p.freeSpare newpage = .ok p') :
    p'.tables = p.tables := by
  cases newpage with
  | none =>
      cases freed
      rfl
  | some f => exact freePage_tables freed

theorem pgfaultMap_adds {mayCopy : Bool} {newpage : Option Frame} {ret : Int}
    {result : Int × Pages} (backed : p.Backed) (low : la < 2 ^ 32)
    (done : p.pgfaultMap mm la perm f mayCopy newpage ret = .ok result) :
    p.Adds result.2 (pageAt mm la) := by
  obtain ⟨count, _, rest⟩ := bind_eq_ok_iff.mp done
  split at rest
  · split at rest
    · cases rest
      exact .refl backed
    · rename_i new
      obtain ⟨⟨_, q⟩, inserted, rest⟩ := bind_eq_ok_iff.mp rest
      cases rest
      have adds := @pageInsert_adds { p with data := Function.update p.data new (p.data f) }
        _ _ _ _ _ backed low inserted
      exact ⟨adds.backed, adds.entries⟩
  · obtain ⟨⟨_, q⟩, inserted, rest⟩ := bind_eq_ok_iff.mp rest
    obtain ⟨r, freed, rest⟩ := bind_eq_ok_iff.mp rest
    cases rest
    have adds := pageInsert_adds backed low inserted
    exact adds.trans (.of_tables adds.backed (freeSpare_tables freed))

theorem pgfaultEntry_adds {cow write : Bool} {result : Int × Pages} (backed : p.Backed)
    (low : la < 2 ^ 32) (done : p.pgfaultEntry mm la perm cow write = .ok result) :
    p.Adds result.2 (pageAt mm la) := by
  unfold pgfaultEntry at done
  simp only at done
  split at done
  · have alloc : (if cow = true then p.allocPage else (none, p)).2.tables = p.tables := by
      split
      · exact p.allocPage_tables
      · rfl
    generalize (if cow = true then p.allocPage else (none, p)) = taken at done alloc
    obtain ⟨⟨ret, f, r⟩, paged, rest⟩ := bind_eq_ok_iff.mp done
    have same : r.tables = taken.2.tables := by
      unfold pgfaultPage at paged
      split at paged
      · cases paged
        rfl
      · exact swapInPage_tables paged
    have before : p.Adds r (pageAt mm la) := .of_tables backed (same.trans alloc)
    simp only at rest
    split at rest
    · obtain ⟨s, freed, rest⟩ := bind_eq_ok_iff.mp rest
      cases rest
      exact before.trans (.of_tables before.backed (freeSpare_tables freed))
    · exact before.trans (pgfaultMap_adds before.backed low rest)
  · cases done

/-! ## Eviction -/

theorem swapInactiveListAdd_tables (added : p.swapInactiveListAdd f = .ok p') :
    p'.tables = p.tables := by
  unfold swapInactiveListAdd at added
  split at added
  · cases added
    rfl
  · cases added

theorem swapfsWrite_tables {result : Bool × Pages} (written : p.swapfsWrite entry f = .ok result) :
    result.2.tables = p.tables := by
  obtain ⟨offset, _, rest⟩ := bind_eq_ok_iff.mp written
  have same := p.transfer_tables
  rcases answer : p.transfer with ⟨failed, q⟩
  rw [answer] at rest same
  cases rest
  cases failed with
  | true => exact same
  | false => exact same

theorem tryFreeSwapEntry_tables {result : Bool × Pages}
    (done : p.tryFreeSwapEntry entry = .ok result) : result.2.tables = p.tables := by
  obtain ⟨offset, _, rest⟩ := bind_eq_ok_iff.mp done
  cases rest
  split <;> rfl

theorem launderDirty_tables {result : Bool × Pages} (done : p.launderDirty f entry = .ok result) :
    result.2.tables = p.tables := by
  obtain ⟨q, duplicated, rest⟩ := bind_eq_ok_iff.mp done
  obtain ⟨⟨failed, r⟩, written, rest⟩ := bind_eq_ok_iff.mp rest
  have counted := swapDuplicate_tables duplicated
  have before : r.tables = p.tables := (swapfsWrite_tables written).trans counted
  have marked : (if failed = true then r.setPageDirty f else r).tables = p.tables := by
    split
    · exact before
    · exact before
  simp only at rest
  generalize (if failed = true then r.setPageDirty f else r) = s at rest marked
  obtain ⟨offset, _, rest⟩ := bind_eq_ok_iff.mp rest
  split at rest
  · obtain ⟨t, added, rest⟩ := bind_eq_ok_iff.mp rest
    cases rest
    exact (swapActiveListAdd_tables added).trans marked
  · split at rest
    · obtain ⟨t, added, rest⟩ := bind_eq_ok_iff.mp rest
      cases rest
      exact (swapInactiveListAdd_tables added).trans marked
    · obtain ⟨t, freed, rest⟩ := bind_eq_ok_iff.mp rest
      cases rest
      exact (tryFreeSwapEntry_tables freed).trans marked

theorem launderPage_tables {result : Nat × Pages} (done : p.launderPage f = .ok result) :
    result.2.tables = p.tables := by
  unfold launderPage at done
  split at done
  · obtain ⟨q, deleted, rest⟩ := bind_eq_ok_iff.mp done
    have before := swapListDel_tables deleted
    split at rest
    · obtain ⟨r, added, rest⟩ := bind_eq_ok_iff.mp rest
      cases rest
      exact (swapActiveListAdd_tables added).trans before
    · obtain ⟨⟨freed, r⟩, tried, rest⟩ := bind_eq_ok_iff.mp rest
      obtain ⟨⟨clean, s⟩, laundered, rest⟩ := bind_eq_ok_iff.mp rest
      have tried' := (tryFreeSwapEntry_tables tried).trans before
      have same : s.tables = r.tables := by
        split at laundered
        · exact launderDirty_tables laundered
        · cases laundered
          rfl
      simp only at rest
      split at rest
      · obtain ⟨t, removed, rest⟩ := bind_eq_ok_iff.mp rest
        cases rest
        exact (swapFreePage_tables removed).trans (same.trans tried')
      · cases rest
        exact same.trans tried'
  · cases done

theorem launderLoop_tables {fuel count : Nat} {next : Option Frame} {result : Nat × Pages}
    (done : launderLoop fuel next count p = .ok result) : result.2.tables = p.tables := by
  induction fuel generalizing next count p with
  | zero =>
      cases done
      rfl
  | succ fuel ih =>
      cases next with
      | none =>
          cases done
          rfl
      | some f =>
          obtain ⟨⟨freed, q⟩, laundered, rest⟩ := bind_eq_ok_iff.mp done
          exact (ih rest).trans (launderPage_tables laundered)

theorem refillPage_tables (done : p.refillPage f = .ok p') : p'.tables = p.tables := by
  unfold refillPage at done
  split at done
  · split at done
    · obtain ⟨q, deleted, added⟩ := bind_eq_ok_iff.mp done
      exact (swapInactiveListAdd_tables added).trans (swapListDel_tables deleted)
    · cases done
      rfl
  · cases done

theorem refillLoop_tables {fuel : Nat} {next : Option Frame}
    (done : refillLoop fuel next p = .ok p') : p'.tables = p.tables := by
  induction fuel generalizing next p with
  | zero =>
      cases done
      rfl
  | succ fuel ih =>
      cases next with
      | none =>
          cases done
          rfl
      | some f =>
          obtain ⟨q, refilled, rest⟩ := bind_eq_ok_iff.mp done
          exact (ih rest).trans (refillPage_tables refilled)

theorem swapOutSlot_tables {dirty : Bool} {result : SwapEntry × Pages}
    (done : p.swapOutSlot f dirty = .ok result) : result.2.tables = p.tables := by
  unfold swapOutSlot at done
  split at done
  · obtain ⟨⟨added, q⟩, adds, rest⟩ := bind_eq_ok_iff.mp done
    have before := swapPageAdd_tables adds
    simp only at rest
    split at rest
    · cases rest
      exact before
    · obtain ⟨r, listed, rest⟩ := bind_eq_ok_iff.mp rest
      cases rest
      exact (swapActiveListAdd_tables listed).trans before
  · cases done
    split <;> rfl

theorem swapOutShared_userTables
    (done : p.swapOutShared f shmem len addr entry = .ok p') : p'.userTables = p.userTables := by
  unfold swapOutShared at done
  split at done
  · obtain ⟨⟨found, q⟩, got, rest⟩ := bind_eq_ok_iff.mp done
    have before := shmemGetEntry_userTables got
    simp only at rest before
    split at rest
    · cases rest
    · split at rest
      · obtain ⟨⟨_, r⟩, inserted, rest⟩ := bind_eq_ok_iff.mp rest
        cases rest
        exact (shmemInsertEntry_userTables inserted).trans before
      · cases rest
        exact before
  · cases done
    rfl

/-- An entry that is there is overwritten. -/
theorem writePte_present_adds {slot : Slot} (backed : p.Backed) (present : p.pte slot ≠ .zero)
    (entry : Pte) : p.Adds (p.writePte slot entry) nowhere := by
  have keeps : ∀ mm page, (p.writePte slot entry).pte (.user mm page) ≠ .zero →
      p.pte (.user mm page) ≠ .zero := by
    intro mm page there
    by_cases own : Slot.user mm page = slot
    · rw [own]
      exact present
    · rwa [writePte_pte_of_ne _ _ own] at there
  exact ⟨fun mm page there => backed mm page (keeps mm page there),
    fun mm page there => .inl (keeps mm page there)⟩

end Pages

namespace Memory

variable {m m' : Memory} {mm : MmPtr} {v : VmaPtr} {la addr : Nat} {errorCode : BitVec 32}

theorem pgfaultResolve_adds {s : VmaStruct} {result : Int × Pages} (backed : m.pages.Backed)
    (low : la < 2 ^ 32) (done : m.pgfaultResolve mm errorCode la s = .ok result) :
    m.pages.Adds result.2 (Pages.pageAt mm la) := by
  have got := @Pages.getPte_adds _ mm la backed true
  have table := @Pages.getPte_table m.pages mm la true
  unfold pgfaultResolve at done
  simp only at done
  split at done
  · rename_i p answer
    rw [answer] at got
    cases done
    exact got.of_nowhere
  · rename_i p answer
    rw [answer] at got table
    refine got.of_nowhere.trans ?_
    split at done
    · split at done
      · split at done
        · cases done
        · exact Pages.pgfaultShared_adds got.backed low (table rfl) done
      · exact Pages.pgfaultAlloc_adds got.backed low done
    · exact Pages.pgfaultEntry_adds got.backed low done

/-- `swap_out_vma` at one entry adds none. -/
theorem swapOutPte_adds {result : Nat × Memory} (backed : m.pages.Backed)
    (done : m.swapOutPte mm v la = .ok result) :
    m.pages.Adds result.2.pages Pages.nowhere := by
  unfold swapOutPte at done
  simp only at done
  split at done
  · rename_i f perm present
    have nonzero : m.pages.pte (userSlot mm la) ≠ .zero := by
      rw [present]
      rintro ⟨⟩
    split at done
    · cases done
    · split at done
      · cases done
        exact Pages.writePte_present_adds backed nonzero _
      · obtain ⟨⟨entry, p⟩, slotted, rest⟩ := bind_eq_ok_iff.mp done
        have same := Pages.swapOutSlot_tables slotted
        simp only at rest same
        split at rest
        · cases rest
          exact .of_tables backed same
        · obtain ⟨q, duplicated, rest⟩ := bind_eq_ok_iff.mp rest
          have same' := (Pages.swapDuplicate_tables duplicated).trans same
          have counted : m.pages.Adds (q.pageRefDec f) Pages.nowhere := .of_tables backed same'
          have nonzero' : (q.pageRefDec f).pte (userSlot mm la) ≠ .zero := by
            have entries := Pages.pte_of_tables same'
            change q.pte _ ≠ _
            rw [entries]
            exact nonzero
          have written := counted.trans
            (Pages.writePte_present_adds counted.backed nonzero' (.swapped entry))
          obtain ⟨r, shared, rest⟩ := bind_eq_ok_iff.mp rest
          cases rest
          refine written.trans (.of_userTables written.backed ?_)
          split at shared
          · split at shared
            · cases shared
            · exact Pages.swapOutShared_userTables shared
          · cases shared
            rfl
  · cases done
    exact .refl backed

end Memory

end EdfKernel.Mm
