import EdfKernel.Mm.RunBalance

/-!
# Frames and slots are accounted for

Calls, page faults, evictions and accesses, and the functions of the swap and of segments that they
call, on their own: after every sequence of them `ref` of a frame that data is in is the number of
entries that map it, and `mem_map` of a slot is the number of entries that hold it.
-/

namespace EdfKernel.Mm

open Library

/-- A call, or a function that calls are made of on its own, with what `alloc_page` and the disk
answer during it. -/
inductive Act
  | call (c : Call)
  /-- `swap_in_page` for the slot that an entry holds -/
  | swapInPage (slot : Slot) (answers : Input)
  | tryAllocSwapEntry (answers : Input)
  | shmemGetEntry (shmem : ShmemPtr) (addr : Nat) (create : Bool) (answers : Input)
  /-- `shmem_insert_entry` for an entry of an address space -/
  | shmemInsertEntry (shmem : ShmemPtr) (addr : Nat) (mm : MmPtr) (page : Nat) (answers : Input)
  | shmemRemoveEntry (shmem : ShmemPtr) (addr : Nat) (answers : Input)
  deriving Repr

/-- The page tables that are left behind. -/
def Act.Abandons (m : Memory) : Act → Frame → Prop
  | .call c, f => c.Abandons m f
  | _, _ => False

namespace Memory

variable {m n m₀ : Memory} {f : Frame} {e : SwapEntry} {acts : List Act}
  {lost : Frame → Prop} {behind : Multiset Use}

/-- A change of the pages. -/
def onPages {α : Type} (m : Memory) (result : Except Panic (α × Pages)) : Except Panic Memory := do
  let (_, pages) ← result
  return { m with pages := pages }

/-- One act.  What the entry is of, or what is looked up, exists. -/
def act (m : Memory) : Act → Except Panic Memory
  | .call c => m.call c
  | .swapInPage slot answers =>
      if m.has slot then
        match m.pages.pte slot with
        | .swapped e => (m.supply answers).onPages do
            let (ret, f, pages) ← (m.supply answers).pages.swapInPage e
            return ((ret, f), pages)
        | _ => .ok m
      else .ok m
  | .tryAllocSwapEntry answers =>
      (m.supply answers).onPages (m.supply answers).pages.tryAllocSwapEntry
  | .shmemGetEntry shmem addr create answers =>
      if m.vm.shmemUsed shmem then
        (m.supply answers).onPages
          ((m.supply answers).pages.shmemGetEntry shmem (m.vm.shmem shmem).len addr create)
      else .ok m
  | .shmemInsertEntry shmem addr mm page answers =>
      if m.vm.shmemUsed shmem && m.vm.mmUsed mm then
        (m.supply answers).onPages ((m.supply answers).pages.shmemInsertEntry shmem
          (m.vm.shmem shmem).len addr (m.pages.pte (.user mm page)))
      else .ok m
  | .shmemRemoveEntry shmem addr answers =>
      if m.vm.shmemUsed shmem then
        (m.supply answers).onPages
          ((m.supply answers).pages.shmemRemoveEntry shmem (m.vm.shmem shmem).len addr)
      else .ok m

/-! ## Acts keep the balance -/

theorem onPages_goes {α : Type} {result : Except Panic (α × Pages)} {answers : Input}
    {abandons : Frame → Prop} (balanced : m.Balanced ⟨m.vm.mmUsed, lost, behind⟩)
    (meets : Meets Panic.Misuse (fun r =>
      r.2.Balanced (Scope.live ⟨m.vm.mmUsed, lost, behind⟩ m.vm.shmemUsed) behind) result) :
    Meets Panic.Misuse (fun n => m.Goes n lost behind abandons false)
      ((m.supply answers).onPages result) := by
  refine meets.bind ?_
  rintro ⟨_, p⟩ after
  have keeps := (balanced.supply answers).withPages after
  have held : m.Held { m.supply answers with pages := p } lost behind :=
    ⟨keeps.balanced, keeps.fewer⟩
  exact held.goes

/-- What one act comes to. -/
theorem act_goes (balanced : m.Balanced ⟨m.vm.mmUsed, lost, behind⟩) (formed : m.Formed)
    (a : Act) : Meets Panic.Misuse (fun n => m.Goes n lost behind (a.Abandons m) false) (m.act a) := by
  have same : m.Goes m lost behind (a.Abandons m) false := (Held.refl balanced).goes
  have pages := fun answers => (balanced.supply answers).pages
  cases a with
  | call c =>
      refine (call_goes balanced formed c).mono fun n goes => ?_
      exact ⟨goes.balanced, by rintro ⟨⟩⟩
  | swapInPage slot answers =>
      rw [act]
      split
      · rename_i has
        split
        · rename_i e isEntry
          have held : .entry e ∈ behind + tally ((m.supply answers).pages.holds
              (Scope.live ⟨m.vm.mmUsed, lost, behind⟩ m.vm.shmemUsed)) := by
            refine (pages answers).uses_mem slot ((live_has m lost slot).trans has) ?_
            rw [show (m.supply answers).pages.pte slot = .swapped e from isEntry]
            exact Multiset.mem_singleton_self _
          refine onPages_goes balanced (((pages answers).accounts.swapInPage held).bind ?_)
          rintro ⟨ret, f, p⟩ ⟨accounts, places, _⟩
          exact (pages answers).of_places places accounts
        · exact same
      · exact same
  | tryAllocSwapEntry answers =>
      refine onPages_goes balanced ((pages answers).accounts.tryAllocSwapEntry.mono ?_)
      rintro ⟨e, p⟩ ⟨accounts, _, _, places⟩
      exact (pages answers).of_places places accounts
  | shmemGetEntry shmem addr create answers =>
      rw [act]
      split
      · rename_i used
        refine onPages_goes balanced
          (((pages answers).shmemGetEntry used (by rintro ⟨⟩) create).mono ?_)
        rintro r ⟨after, _⟩
        exact after
      · exact same
  | shmemInsertEntry shmem addr mm page answers =>
      rw [act]
      split
      · rename_i used
        obtain ⟨used, isMm⟩ := Bool.and_eq_true_iff.mp used
        refine onPages_goes balanced ((pages answers).shmemInsertEntry used (by rintro ⟨⟩) ?_)
        rintro f perm isEntry
        exact ⟨.user mm page, perm, by rintro ⟨⟩, isMm, isEntry⟩
      · exact same
  | shmemRemoveEntry shmem addr answers =>
      rw [act]
      split
      · rename_i used
        refine onPages_goes balanced ((pages answers).shmemInsertEntry used (by rintro ⟨⟩) ?_)
        rintro f perm ⟨⟩
      · exact same

theorem Formed.onPages {α : Type} {result : Except Panic (α × Pages)} {answers : Input}
    (formed : m.Formed)
    (keeps : ∀ r, result = .ok r → r.2.userTables = (m.supply answers).pages.userTables)
    (done : (m.supply answers).onPages result = .ok n) : n.Formed := by
  obtain ⟨r, isResult, rest⟩ := bind_eq_ok_iff.mp done
  cases rest
  exact (formed.supply answers).of_pages (keeps r isResult)

theorem act_formed {a : Act} (formed : m.Formed) (done : m.act a = .ok n) : n.Formed := by
  cases a with
  | call c => exact (call_formed formed c).2 n done
  | swapInPage slot answers =>
      rw [act] at done
      split at done
      · split at done
        · refine formed.onPages (fun r isResult => ?_) done
          obtain ⟨⟨ret, f, p⟩, read, rest⟩ := bind_eq_ok_iff.mp isResult
          cases rest
          exact Pages.userTables_of_tables (Pages.swapInPage_tables read)
        · cases done
          exact formed
      · cases done
        exact formed
  | tryAllocSwapEntry answers =>
      exact formed.onPages (fun r isResult =>
        Pages.userTables_of_tables (Pages.tryAllocSwapEntry_tables isResult)) done
  | shmemGetEntry shmem addr create answers =>
      rw [act] at done
      split at done
      · exact formed.onPages (fun r isResult => Pages.shmemGetEntry_userTables isResult) done
      · cases done
        exact formed
  | shmemInsertEntry shmem addr mm page answers =>
      rw [act] at done
      split at done
      · exact formed.onPages (fun r isResult => Pages.shmemInsertEntry_userTables isResult) done
      · cases done
        exact formed
  | shmemRemoveEntry shmem addr answers =>
      rw [act] at done
      split at done
      · exact formed.onPages (fun r isResult => Pages.shmemInsertEntry_userTables isResult) done
      · cases done
        exact formed

/-! ## What is accounted for -/

end Memory

end EdfKernel.Mm
