import EdfKernel.Mm.Pmm

/-!
# Shared-memory segments

The functions of `shmem.c` on the entries of a segment.  The entries of 1024 pages are in
one frame, which a `shmn_t` holds.
-/

namespace EdfKernel.Mm

/-- `PGSIZE * SHMN_NENTRY`. -/
def shmnSize : Nat := pgSize * 1024

/-- The entry of an address in a segment. -/
def sharedSlot (shmem : ShmemPtr) (addr : Nat) : Slot := .shared shmem (addr / pgSize)

def Shmn.contains (shmn : Shmn) (addr : Nat) : Bool :=
  decide (shmn.start ≤ addr ∧ addr < shmn.start + shmnSize)

/-- `insert_shmn` on the list: `none` when `check_shmn_overlap` fails for a neighbour. -/
def insertShmnList (shmn : Shmn) (list : List Shmn) : Option (List Shmn) :=
  let before := list.takeWhile fun other => decide (other.start ≤ shmn.start)
  let after := list.dropWhile fun other => decide (other.start ≤ shmn.start)
  if (∀ prev ∈ before.getLast?, prev.start + shmnSize ≤ shmn.start) ∧
      (∀ next ∈ after.head?, shmn.start + shmnSize ≤ next.start) then
    some (before ++ shmn :: after)
  else none

namespace Pages

/-- `find_shmn`. -/
def findShmn (p : Pages) (shmem : ShmemPtr) (addr : Nat) : Option Shmn × Pages :=
  let cached := (p.shmnCache shmem).filter (·.contains addr)
  let found := cached.or ((p.shmnList shmem).find? (·.contains addr))
  match found with
  | none => (none, p)
  | some shmn => (some shmn, { p with shmnCache := Function.update p.shmnCache shmem (some shmn) })

/-- `shmn_create`; `kmalloc` is taken to succeed when `alloc_page` does. -/
def shmnCreate (p : Pages) (shmem : ShmemPtr) (start : Nat) : Option Shmn × Pages :=
  match p.allocPage with
  | (none, p) => (none, p)
  | (some f, p) =>
      (some ⟨start, f⟩, { p with
        pte := fun slot =>
          match slot with
          | .user mm page => p.pte (.user mm page)
          | .shared shmem' page =>
              if shmem' = shmem ∧ page / 1024 = start / shmnSize then .zero
              else p.pte (.shared shmem' page) })

/-- `insert_shmn`. -/
def insertShmn (p : Pages) (shmem : ShmemPtr) (shmn : Shmn) : Except Panic Pages :=
  match insertShmnList shmn (p.shmnList shmem) with
  | some list => .ok { p with shmnList := Function.update p.shmnList shmem list }
  | none => .error .shmem

/-- The node that holds the entry of an address, and a new one if there is none. -/
def shmnAt (p : Pages) (shmem : ShmemPtr) (addr : Nat) (create : Bool) :
    Except Panic (Bool × Pages) :=
  match p.findShmn shmem addr with
  | (some _, p) => .ok (true, p)
  | (none, p) =>
      if create then
        match p.shmnCreate shmem (roundDown addr shmnSize) with
        | (none, p) => .ok (false, p)
        | (some shmn, p) => do
            let p ← p.insertShmn shmem shmn
            return (true, p)
      else .ok (false, p)

/-- `shmem_get_entry` for a segment of `len` bytes: whether there is an entry. -/
def shmemGetEntry (p : Pages) (shmem : ShmemPtr) (len addr : Nat) (create : Bool) :
    Except Panic (Bool × Pages) :=
  if len ≤ addr then .error .shmem
  else do
    let (found, p) ← p.shmnAt shmem (roundDown addr pgSize) create
    if found = true ∧ p.pte (sharedSlot shmem addr) = .zero ∧ create = true then
      match p.allocPage with
      | (none, p) => return (true, p)
      | (some f, p) =>
          return (true, (p.writePte (sharedSlot shmem addr)
            (.present f ⟨false, false, false, false⟩)).pageRefInc f)
    else return (found, p)

/-- `shmem_remove_entry_pte`. -/
def shmemRemoveEntryPte (p : Pages) (shmem : ShmemPtr) (addr : Nat) : Except Panic Pages :=
  p.removePte (sharedSlot shmem addr)

/-- `shmem_insert_entry`. -/
def shmemInsertEntry (p : Pages) (shmem : ShmemPtr) (len addr : Nat) (entry : Pte) :
    Except Panic (Int × Pages) := do
  let (found, p) ← p.shmemGetEntry shmem len addr true
  if found = false then return (-eNoMem, p)
  else
    let p ← (if p.pte (sharedSlot shmem addr) ≠ .zero then p.shmemRemoveEntryPte shmem addr
      else .ok p)
    let p ← (match entry with
      | .present f _ => .ok (p.pageRefInc f)
      | .swapped entry => p.swapDuplicate entry
      | .zero => .ok p)
    return (0, p.writePte (sharedSlot shmem addr) entry)

/-- `shmem_remove_entry`. -/
def shmemRemoveEntry (p : Pages) (shmem : ShmemPtr) (len addr : Nat) :
    Except Panic (Int × Pages) :=
  p.shmemInsertEntry shmem len addr .zero

/-- The loop of `shmn_destroy`. -/
def shmnClear (shmem : ShmemPtr) (start : Nat) : Nat → Pages → Except Panic Pages
  | 0, p => .ok p
  | count + 1, p => do
      let p ← p.removePte (.shared shmem (start / pgSize + (1023 - count)))
      shmnClear shmem start count p

/-- `shmn_destroy`. -/
def shmnDestroy (p : Pages) (shmem : ShmemPtr) (shmn : Shmn) : Except Panic Pages := do
  let p ← shmnClear shmem shmn.start 1024 p
  p.freePage shmn.entry

/-- The loop of `shmem_destroy`. -/
def shmnDestroyAll (shmem : ShmemPtr) : List Shmn → Pages → Except Panic Pages
  | [], p => .ok p
  | shmn :: rest, p => do
      let p ← p.shmnDestroy shmem shmn
      shmnDestroyAll shmem rest { p with shmnList := Function.update p.shmnList shmem rest }

/-- `shmem_destroy`, up to the `kfree` of the segment. -/
def shmemDestroy (p : Pages) (shmem : ShmemPtr) : Except Panic Pages :=
  shmnDestroyAll shmem (p.shmnList shmem) p

/-- `shmem_create`, after the `kmalloc` of the segment. -/
def shmemCreate (p : Pages) (shmem : ShmemPtr) : Pages :=
  { p with
    shmnList := Function.update p.shmnList shmem []
    shmnCache := Function.update p.shmnCache shmem none
    pte := fun slot =>
      match slot with
      | .user mm page => p.pte (.user mm page)
      | .shared shmem' page => if shmem' = shmem then .zero else p.pte (.shared shmem' page) }

end Pages

end EdfKernel.Mm
