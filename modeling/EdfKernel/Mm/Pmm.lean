import EdfKernel.Mm.Pages

/-!
# Page tables

The functions of `pmm.c` on page tables, and `setup_pgdir` and `put_pgdir` of `proc.c`.  The
page tables above `KERNBASE` are those of `boot_pgdir` in every page directory and are left
out, and so is the invalidation of the TLB.
-/

namespace EdfKernel.Mm

/-- The entry of an address in an address space. -/
def userSlot (mm : MmPtr) (la : Nat) : Slot := .user mm (la / pgSize)

namespace Pages

/-- The entries, those of one page table cleared. -/
def clearTable (p : Pages) (mm : MmPtr) (index : Nat) : Slot → Pte
  | .user mm' page => if mm' = mm ∧ page / 1024 = index then .zero else p.pte (.user mm' page)
  | .shared shmem page => p.pte (.shared shmem page)

/-- `get_pte`: whether there is an entry. -/
def getPte (p : Pages) (mm : MmPtr) (la : Nat) (create : Bool) : Bool × Pages :=
  if (p.table mm (pdx la)).isSome then (true, p)
  else if create then
    match p.allocPage with
    | (none, p) => (false, p)
    | (some f, p) =>
        (true, { p.modify f fun s => { s with ref := 1 } with
          table := Function.update p.table mm (Function.update (p.table mm) (pdx la) (some f))
          pte := p.clearTable mm (pdx la) })
  else (false, p)

/-- The body that `page_remove_pte` and `shmem_remove_entry_pte` share. -/
def removePte (p : Pages) (slot : Slot) : Except Panic Pages :=
  match p.pte slot with
  | .present f perm =>
      if (p.page f).swap = false then do
        let p := p.pageRefDec f
        let p ← (if (p.page f).ref = 0 then p.freePage f else .ok p)
        return p.writePte slot .zero
      else
        let p := if perm.dirty then p.setPageDirty f else p
        .ok ((p.pageRefDec f).writePte slot .zero)
  | .swapped entry => do
      let p ← p.swapRemoveEntry entry
      return p.writePte slot .zero
  | .zero => .ok p

/-- `page_remove_pte`. -/
def pageRemovePte (p : Pages) (mm : MmPtr) (la : Nat) : Except Panic Pages :=
  p.removePte (userSlot mm la)

/-- `page_insert`. -/
def pageInsert (p : Pages) (mm : MmPtr) (f : Frame) (la : Nat) (perm : Perm) :
    Except Panic (Int × Pages) :=
  match p.getPte mm la true with
  | (false, p) => .ok (-eNoMem, p)
  | (true, p) => do
      let p := p.pageRefInc f
      let p ← (match p.pte (userSlot mm la) with
        | .zero => .ok p
        | .present g _ => if g = f then .ok (p.pageRefDec f) else p.pageRemovePte mm la
        | .swapped _ => p.pageRemovePte mm la)
      return (0, p.writePte (userSlot mm la) (.present f perm))

/-- `pgdir_alloc_page`. -/
def pgdirAllocPage (p : Pages) (mm : MmPtr) (la : Nat) (perm : Perm) :
    Except Panic (Option Frame × Pages) :=
  match p.allocPage with
  | (none, p) => .ok (none, p)
  | (some f, p) => do
      let (ret, p) ← p.pageInsert mm f la perm
      if ret ≠ 0 then
        let p ← p.freePage f
        return (none, p)
      else return (some f, p)

/-- The address after `la` at which a walk goes on: the next page table if there is none
here, otherwise the next page. -/
def walkNext (p : Pages) (mm : MmPtr) (la : Nat) : Nat :=
  if (p.table mm (pdx la)).isSome then add32 la pgSize else roundDown (add32 la ptSize) ptSize

/-- The loop of `unmap_range`. -/
def unmapLoop (mm : MmPtr) (stop : Nat) : Nat → Nat → Pages → Except Panic Pages
  | 0, _, p => .ok p
  | fuel + 1, la, p => do
      let next := p.walkNext mm la
      let p ← (if (p.table mm (pdx la)).isSome = true ∧ p.pte (userSlot mm la) ≠ .zero then
        p.pageRemovePte mm la else .ok p)
      if next ≠ 0 ∧ next < stop then unmapLoop mm stop fuel next p else return p

/-- The assertions that the walks over a range start with. -/
def rangeOk (start stop : Nat) : Bool :=
  decide (start % pgSize = 0 ∧ stop % pgSize = 0) && userAccess start stop

/-- `unmap_range`. -/
def unmapRange (p : Pages) (mm : MmPtr) (start stop : Nat) : Except Panic Pages :=
  if rangeOk start stop then unmapLoop mm stop ((stop - start) / pgSize) start p
  else .error .range

/-- The loop of `exit_range`. -/
def exitLoop (mm : MmPtr) (stop : Nat) : Nat → Nat → Pages → Except Panic Pages
  | 0, _, p => .ok p
  | fuel + 1, la, p => do
      let p ← (match p.table mm (pdx la) with
        | none => .ok p
        | some f => do
            let p ← p.freePage f
            return { p with
              table := Function.update p.table mm (Function.update (p.table mm) (pdx la) none)
              pte := p.clearTable mm (pdx la) })
      let next := add32 la ptSize
      if next ≠ 0 ∧ next < stop then exitLoop mm stop fuel next p else return p

/-- `exit_range`. -/
def exitRange (p : Pages) (mm : MmPtr) (start stop : Nat) : Except Panic Pages :=
  if rangeOk start stop then exitLoop mm stop 1024 (roundDown start ptSize) p
  else .error .range

/-- `copy_range` at one entry that is not zero. -/
def copyPte (p : Pages) (target source : MmPtr) (la : Nat) (share : Bool) :
    Except Panic (Int × Pages) :=
  match p.getPte target la true with
  | (false, p) => .ok (-eNoMem, p)
  | (true, p) =>
      if p.pte (userSlot target la) ≠ .zero then .error .pteTaken
      else
        match p.pte (userSlot source la) with
        | .zero => .error .pteTaken
        | .present f perm => do
            let shared : Perm := ⟨perm.user, perm.write, false, false⟩
            let (perm, p) ← (if share = false ∧ perm.write = true then do
                let (_, p) ← p.pageInsert source f la { perm with write := false }
                return ({ shared with write := false }, p)
              else .ok (shared, p))
            let (ret, p) ← p.pageInsert target f la perm
            if ret = 0 then return (0, p) else .error .other
        | .swapped entry => do
            let p ← p.swapDuplicate entry
            return (0, p.writePte (userSlot target la) (.swapped entry))

/-- The loop of `copy_range`. -/
def copyLoop (target source : MmPtr) (share : Bool) (stop : Nat) : Nat → Nat → Pages →
    Except Panic (Int × Pages)
  | 0, _, p => .ok (0, p)
  | fuel + 1, la, p => do
      let next := p.walkNext source la
      let (ret, p) ←
        (if (p.table source (pdx la)).isSome = true ∧ p.pte (userSlot source la) ≠ .zero then
          p.copyPte target source la share else .ok (0, p))
      if ret ≠ 0 then return (ret, p)
      else if next ≠ 0 ∧ next < stop then copyLoop target source share stop fuel next p
      else return (0, p)

/-- `copy_range`. -/
def copyRange (p : Pages) (target source : MmPtr) (start stop : Nat) (share : Bool) :
    Except Panic (Int × Pages) :=
  if rangeOk start stop then copyLoop target source share stop ((stop - start) / pgSize) start p
  else .error .range

/-- `setup_pgdir`. -/
def setupPgdir (p : Pages) (mm : MmPtr) : Int × Pages :=
  match p.allocPage with
  | (none, p) => (-eNoMem, p)
  | (some f, p) =>
      (0, { p with
        pgdir := Function.update p.pgdir mm f
        table := Function.update p.table mm fun _ => none
        pte := fun slot =>
          match slot with
          | .user mm' page => if mm' = mm then .zero else p.pte (.user mm' page)
          | .shared shmem page => p.pte (.shared shmem page) })

/-- `put_pgdir`. -/
def putPgdir (p : Pages) (mm : MmPtr) : Except Panic Pages :=
  p.freePage (p.pgdir mm)

end Pages

end EdfKernel.Mm
