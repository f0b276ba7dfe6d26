import EdfKernel.Mm.Layout

/-!
# Page frames and swap slots

The data of `pmm.c`, `shmem.c` and `swap.c`, and the functions on frames and swap slots
that the others are built from.  The words that refer to frames and slots are the entries
of the page tables and of the shared-memory segments.  A word of a table that does not
exist is zero: a table is cleared when it is allocated, and read by no one once it is free.

The page allocator is known by which frames are free; which of them `alloc_page` returns, or
that it returns none, is read from the list `grants`.  Likewise `io` says which transfers of
the swap device fail.
-/

namespace EdfKernel.Mm

/-- Index of a frame in the array `pages`. -/
abbrev Frame := Nat

/-- The offset of a `swap_entry_t`, which the code keeps shifted by 8 bits. -/
abbrev SwapEntry := Nat

/-- The flags of a present entry. -/
structure Perm where
  user : Bool
  write : Bool
  accessed : Bool
  dirty : Bool
  deriving DecidableEq, Repr

/-- `pte_t`. -/
inductive Pte
  | zero
  | present (page : Frame) (perm : Perm)
  | swapped (entry : SwapEntry)
  deriving DecidableEq, Repr

/-- The place of an entry: a page of an address space or of a shared-memory segment. -/
inductive Slot
  | user (mm : MmPtr) (page : Nat)
  | shared (shmem : ShmemPtr) (page : Nat)
  deriving DecidableEq, Repr

/-- `struct Page`. -/
structure Page where
  ref : Int
  reserved : Bool
  dirty : Bool
  swap : Bool
  active : Bool
  index : SwapEntry
  deriving DecidableEq, Repr

/-- `shmn_t`: `entry` is the frame that holds its entries. -/
structure Shmn where
  start : Nat
  entry : Frame
  deriving DecidableEq, Repr

/-- The frames, the tables that refer to them and the swap slots. -/
structure Pages where
  page : Frame → Page
  free : Frame → Bool
  data : Frame → Nat → Nat
  /-- the frame of each page directory -/
  pgdir : MmPtr → Frame
  /-- the frames of the page tables below `KERNBASE` -/
  table : MmPtr → Nat → Option Frame
  pte : Slot → Pte
  shmnList : ShmemPtr → List Shmn
  shmnCache : ShmemPtr → Option Shmn
  memMap : SwapEntry → Nat
  hashList : Nat → List Frame
  activeList : List Frame
  inactiveList : List Frame
  nrActive : Int
  nrInactive : Int
  /-- the static cursor of `try_alloc_swap_entry` -/
  next : SwapEntry
  maxSwapOffset : Nat
  disk : SwapEntry → Nat → Nat
  grants : List (Option Frame)
  io : List Bool

namespace Pages

/-! ## Frames -/

/-- A change to one page descriptor. -/
def modify (p : Pages) (f : Frame) (change : Page → Page) : Pages :=
  { p with page := Function.update p.page f (change (p.page f)) }

/-- `alloc_page`. -/
def allocPage (p : Pages) : Option Frame × Pages :=
  match p.grants with
  | some f :: rest =>
      if p.free f then (some f, { p with free := Function.update p.free f false, grants := rest })
      else (none, { p with grants := rest })
  | none :: rest => (none, { p with grants := rest })
  | [] => (none, p)

/-- `free_page`. -/
def freePage (p : Pages) (f : Frame) : Except Panic Pages :=
  if p.free f ∨ (p.page f).reserved then .error .freePage
  else .ok
    { p.modify f fun s => { s with ref := 0, dirty := false, swap := false, active := false } with
      free := Function.update p.free f true }

/-- `page_ref_inc`. -/
def pageRefInc (p : Pages) (f : Frame) : Pages :=
  p.modify f fun s => { s with ref := s.ref + 1 }

/-- `page_ref_dec`. -/
def pageRefDec (p : Pages) (f : Frame) : Pages :=
  p.modify f fun s => { s with ref := s.ref - 1 }

/-- `SetPageDirty`. -/
def setPageDirty (p : Pages) (f : Frame) : Pages :=
  p.modify f fun s => { s with dirty := true }

/-- `*ptep = entry`. -/
def writePte (p : Pages) (slot : Slot) (entry : Pte) : Pages :=
  { p with pte := Function.update p.pte slot entry }

/-- `mem_map[offset] = count`. -/
def setMap (p : Pages) (offset : SwapEntry) (count : Nat) : Pages :=
  { p with memMap := Function.update p.memMap offset count }

/-! ## Swap lists and swap hash -/

/-- `entry_hashfn`. -/
def entryHashfn (entry : SwapEntry) : Nat :=
  entry * 2 ^ 8 * 0x9e370001 % 2 ^ 32 / 2 ^ 22

/-- `swap_active_list_add`. -/
def swapActiveListAdd (p : Pages) (f : Frame) : Except Panic Pages :=
  if (p.page f).swap then
    .ok { p.modify f fun s => { s with active := true } with
      nrActive := p.nrActive + 1, activeList := p.activeList ++ [f] }
  else .error .swapPage

/-- `swap_inactive_list_add`. -/
def swapInactiveListAdd (p : Pages) (f : Frame) : Except Panic Pages :=
  if (p.page f).swap then
    .ok { p.modify f fun s => { s with active := false } with
      nrInactive := p.nrInactive + 1, inactiveList := p.inactiveList ++ [f] }
  else .error .swapPage

/-- `swap_list_del`. -/
def swapListDel (p : Pages) (f : Frame) : Except Panic Pages :=
  if (p.page f).swap then
    .ok { p with
      nrActive := if (p.page f).active then p.nrActive - 1 else p.nrActive
      nrInactive := if (p.page f).active then p.nrInactive else p.nrInactive - 1
      activeList := p.activeList.erase f
      inactiveList := p.inactiveList.erase f }
  else .error .swapPage

/-- `swap_hash_find`. -/
def swapHashFind (p : Pages) (entry : SwapEntry) : Option Frame :=
  (p.hashList (entryHashfn entry)).find? fun f => (p.page f).index == entry

/-- `swap_page_del`. -/
def swapPageDel (p : Pages) (f : Frame) : Except Panic Pages :=
  if (p.page f).swap then
    .ok { p.modify f fun s => { s with swap := false } with
      hashList := Function.update p.hashList (entryHashfn (p.page f).index)
        ((p.hashList (entryHashfn (p.page f).index)).erase f) }
  else .error .swapPage

/-- `swap_free_page`. -/
def swapFreePage (p : Pages) (f : Frame) : Except Panic Pages :=
  if (p.page f).swap = true ∧ (p.page f).ref = 0 then do
    let p ← p.swapPageDel f
    p.freePage f
  else .error .swapPage

/-! ## Swap slots -/

/-- `swap_offset`. -/
def swapOffset (p : Pages) (entry : SwapEntry) : Except Panic SwapEntry :=
  if 0 < entry ∧ entry < p.maxSwapOffset then .ok entry else .error .swapEntry

/-- The loop of `try_alloc_swap_entry`: the unused slot it ends with or 0, the first slot
without references or 0, and the cursor. -/
def scanSlots (p : Pages) (stop : SwapEntry) : Nat → SwapEntry → SwapEntry →
    SwapEntry × SwapEntry × SwapEntry
  | 0, next, idle => (0, idle, next)
  | fuel + 1, next, idle =>
      let empty := if p.memMap next = swapUnused then next else 0
      let idle := if p.memMap next = 0 ∧ idle = 0 then next else idle
      let next := if next + 1 = p.maxSwapOffset then 1 else next + 1
      if empty = 0 ∧ next ≠ stop then scanSlots p stop fuel next idle else (empty, idle, next)

/-- The slot without references is taken from the page that caches it. -/
def stealSlot (p : Pages) (idle : SwapEntry) : Except Panic Pages :=
  match p.swapHashFind idle with
  | none => .error .swapPage
  | some f => do
      let p ← p.swapListDel f
      let p ← (if (p.page f).ref = 0 then p.swapFreePage f else p.swapPageDel f)
      return p.setMap idle swapUnused

/-- `try_alloc_swap_entry`; 0 when there is no entry. -/
def tryAllocSwapEntry (p : Pages) : Except Panic (SwapEntry × Pages) :=
  let (empty, idle, next) := p.scanSlots p.next p.maxSwapOffset p.next 0
  let p := { p with next := next }
  if empty ≠ 0 then .ok (empty, p)
  else if idle ≠ 0 then do
    let p ← p.stealSlot idle
    return (idle, p)
  else .ok (0, p)

/-- `swap_page_add` for a page that has no slot yet: the slot it gets. -/
def swapPageSlot (p : Pages) (f : Frame) : Except Panic (SwapEntry × Pages) := do
  let (entry, p) ← p.tryAllocSwapEntry
  if entry = 0 then return (0, p)
  else
    let offset ← p.swapOffset entry
    if p.memMap offset = swapUnused then return (entry, (p.setMap offset 0).setPageDirty f)
    else .error .swapCount

/-- `swap_page_add`. -/
def swapPageAdd (p : Pages) (f : Frame) (entry : SwapEntry) : Except Panic (Bool × Pages) :=
  if (p.page f).swap then .error .swapPage
  else do
    let (entry, p) ← (if entry = 0 then p.swapPageSlot f else .ok (entry, p))
    if entry = 0 then return (false, p)
    else
      return (true,
        { p.modify f fun s => { s with swap := true, index := entry } with
          hashList := Function.update p.hashList (entryHashfn entry)
            (f :: p.hashList (entryHashfn entry)) })

/-- `swap_remove_entry`. -/
def swapRemoveEntry (p : Pages) (entry : SwapEntry) : Except Panic Pages := do
  let offset ← p.swapOffset entry
  if p.memMap offset = 0 then .error .swapCount
  else
    let p := p.setMap offset (p.memMap offset - 1)
    if p.memMap offset = 0 then
      match p.swapHashFind entry with
      | some f =>
          if (p.page f).ref ≠ 0 then return p
          else
            let p ← p.swapListDel f
            let p ← p.swapFreePage f
            return p.setMap offset swapUnused
      | none => return p.setMap offset swapUnused
    else return p

/-- `swap_page_count`. -/
def swapPageCount (p : Pages) (f : Frame) : Except Panic Int :=
  if (p.page f).swap then do
    let offset ← p.swapOffset (p.page f).index
    return p.memMap offset
  else .ok 0

/-- `swap_duplicate`. -/
def swapDuplicate (p : Pages) (entry : SwapEntry) : Except Panic Pages := do
  let offset ← p.swapOffset entry
  if p.memMap offset < maxSwapRef then return p.setMap offset (p.memMap offset + 1)
  else .error .swapCount

/-- The outcome of the next transfer of the swap device: `true` when it fails. -/
def transfer (p : Pages) : Bool × Pages :=
  match p.io with
  | failed :: rest => (failed, { p with io := rest })
  | [] => (false, p)

/-- `swapfs_read`. -/
def swapfsRead (p : Pages) (entry : SwapEntry) (f : Frame) : Except Panic (Bool × Pages) := do
  let offset ← p.swapOffset entry
  let (failed, p) := p.transfer
  return (failed, if failed then p else { p with data := Function.update p.data f (p.disk offset) })

/-- `swapfs_write`. -/
def swapfsWrite (p : Pages) (entry : SwapEntry) (f : Frame) : Except Panic (Bool × Pages) := do
  let offset ← p.swapOffset entry
  let (failed, p) := p.transfer
  return (failed, if failed then p else { p with disk := Function.update p.disk offset (p.data f) })

/-- `swap_in_page`: the error code and, when that is 0, the page. -/
def swapInPage (p : Pages) (entry : SwapEntry) : Except Panic (Int × Frame × Pages) := do
  let _ ← p.swapOffset entry
  match p.swapHashFind entry with
  | some f => return (0, f, p)
  | none => do
      let (newpage, p) := p.allocPage
      match p.swapHashFind entry, newpage with
      | some f, some new => do
          let p ← p.freePage new
          return (0, f, p)
      | some f, none => return (0, f, p)
      | none, none => return (-eNoMem, 0, p)
      | none, some f => do
          let (failed, p) ← p.swapfsRead entry f
          if failed then
            let p ← p.freePage f
            return (-eSwapFault, 0, p)
          else
            let (_, p) ← p.swapPageAdd f entry
            let p ← p.swapActiveListAdd f
            return (0, f, p)

/-- `swap_in_page` from `lock` on, with the page that `alloc_page` has returned. -/
def swapInLocked (p : Pages) (entry : SwapEntry) (newpage : Option Frame) :
    Except Panic (Int × Frame × Pages) :=
  match p.swapHashFind entry, newpage with
  | some f, some new => do
      let p ← p.freePage new
      return (0, f, p)
  | some f, none => return (0, f, p)
  | none, none => return (-eNoMem, 0, p)
  | none, some f => do
      let (failed, p) ← p.swapfsRead entry f
      if failed then
        let p ← p.freePage f
        return (-eSwapFault, 0, p)
      else
        let (_, p) ← p.swapPageAdd f entry
        let p ← p.swapActiveListAdd f
        return (0, f, p)

end Pages

end EdfKernel.Mm
