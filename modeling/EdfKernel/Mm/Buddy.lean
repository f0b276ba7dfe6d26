import Mathlib.Algebra.GroupWithZero.Nat
import Mathlib.Data.Nat.Basic
import Mathlib.Logic.Function.Basic

/-!
# The buddy allocator

`kern/mm/buddy_pmm.c`.  A page is named by its number.  The free lists are lists of page numbers,
and the flags of a page are `PG_reserved`, `PG_property` and the others.  `free_pages`, through
which the allocator gives back the tail of a block, calls `buddy_free_pages`.
-/

namespace EdfKernel.Mm

/-- Why the allocator stops. -/
inductive BuddyPanic
  /-- `assert(n > 0 && zone_num < MAX_ZONE_NUM)` -/
  | zone
  /-- `assert(PageReserved(p))` -/
  | notReserved
  /-- `getorder failed.` -/
  | getorder
  /-- `assert(n > 0)` -/
  | size
  /-- the assertions on `MAX_ORDER` -/
  | order
  /-- `assert((page_idx & ((1 << order) - 1)) == 0)` -/
  | align
  /-- `assert(!PageReserved(p) && !PageProperty(p))` -/
  | pageFree
  deriving DecidableEq, Repr

/-- `struct Page`, as far as the allocator uses it. -/
structure BuddyPage where
  ref : Nat
  pgReserved : Bool
  pgProperty : Bool
  otherFlags : Nat
  property : Nat
  zoneNum : Nat
  deriving DecidableEq, Repr

/-- The pages, `zones` and `free_area`. -/
structure Buddy where
  npage : Nat
  page : Nat → BuddyPage
  zones : List Nat
  freeList : Nat → List Nat
  nrFree : Nat → Nat

/-- `MAX_ORDER`. -/
def maxOrder : Nat := 10

/-- `MAX_ZONE_NUM`. -/
def maxZoneNum : Nat := 10

namespace Buddy

def modify (b : Buddy) (p : Nat) (change : BuddyPage → BuddyPage) : Buddy :=
  { b with page := Function.update b.page p (change (b.page p)) }

/-- `SetPageProperty` and `ClearPageProperty`. -/
def setPageProperty (b : Buddy) (p : Nat) (set : Bool) : Buddy :=
  b.modify p fun page => { page with pgProperty := set }

/-- `list_del`, from the list that the page is in. -/
def listDel (b : Buddy) (p : Nat) : Buddy :=
  { b with freeList := fun order => (b.freeList order).erase p }

/-- The statements that put a block into its free list. -/
def addFree (b : Buddy) (p order : Nat) : Buddy :=
  let b := b.modify p fun page => { page with property := order }
  let b := b.setPageProperty p true
  { b with
    nrFree := Function.update b.nrFree order (b.nrFree order + 1)
    freeList := Function.update b.freeList order (p :: b.freeList order) }

/-- `nr_free(order) --` and `list_del`. -/
def unlink (b : Buddy) (p order : Nat) : Buddy :=
  { b with nrFree := Function.update b.nrFree order (b.nrFree order - 1) }.listDel p

/-- `buddy_init`, after `page_init` has set `PG_reserved` of every page. -/
def init (npage : Nat) (memory : Nat → BuddyPage) : Buddy where
  npage := npage
  page p := if p < npage then { memory p with pgReserved := true } else memory p
  zones := []
  freeList _ := []
  nrFree _ := 0

/-! ## Zones -/

/-- The first loop of `buddy_init_memmap`. -/
def initPages (zoneNum : Nat) : Nat → Buddy → Nat → Except BuddyPanic Buddy
  | 0, b, _ => .ok b
  | n + 1, b, p =>
      if (b.page p).pgReserved then
        initPages zoneNum n (b.modify p fun _ => ⟨0, false, false, 0, 0, zoneNum⟩) (p + 1)
      else .error .notReserved

/-- The second loop of `buddy_init_memmap`. -/
def initBlocks (b : Buddy) (p n order : Nat) : Buddy :=
  if n = 0 then b
  else if 2 ^ order ≤ n then
    initBlocks (b.addFree p order) (p + 2 ^ order) (n - 2 ^ order) order
  else initBlocks b p n (order - 1)
termination_by (n, order)
decreasing_by
  · have := Nat.two_pow_pos order
    exact Prod.Lex.left _ _ (by omega)
  · refine Prod.Lex.right _ ?_
    have positive : order ≠ 0 := by
      rintro rfl
      omega
    omega

/-- `buddy_init_memmap`. -/
def initMemmap (b : Buddy) (base n : Nat) : Except BuddyPanic Buddy :=
  if 0 < n ∧ b.zones.length < maxZoneNum then do
    let b ← initPages b.zones.length n b base
    let b := { b with zones := b.zones ++ [base] }
    return b.initBlocks base n maxOrder
  else .error .zone

/-! ## Freeing -/

/-- `page_is_buddy`. -/
def pageIsBuddy (b : Buddy) (p order zoneNum : Nat) : Bool :=
  p < b.npage && (b.page p).zoneNum == zoneNum && !(b.page p).pgReserved &&
    (b.page p).pgProperty && (b.page p).property == order

/-- `zones[zone_num].mem_base`. -/
def memBase (b : Buddy) (zoneNum : Nat) : Nat := b.zones.getD zoneNum 0

/-- `page2idx`. -/
def page2idx (b : Buddy) (p : Nat) : Nat := p - b.memBase (b.page p).zoneNum

/-- `idx2page`. -/
def idx2page (b : Buddy) (zoneNum idx : Nat) : Nat := b.memBase zoneNum + idx

/-- The loop of `buddy_free_pages_sub` over the pages of the block. -/
def clearPages : Nat → Buddy → Nat → Except BuddyPanic Buddy
  | 0, b, _ => .ok b
  | n + 1, b, p =>
      if !(b.page p).pgReserved && !(b.page p).pgProperty then
        clearPages n (b.modify p fun page =>
          { page with pgReserved := false, pgProperty := false, otherFlags := 0, ref := 0 }) (p + 1)
      else .error .pageFree

/-- The loop of `buddy_free_pages_sub` over the orders, which has `rounds` orders before it. -/
def mergeLoop (zoneNum : Nat) : Nat → Buddy → Nat → Nat → Buddy × Nat × Nat
  | 0, b, pageIdx, order => (b, pageIdx, order)
  | rounds + 1, b, pageIdx, order =>
      let buddyIdx := pageIdx ^^^ 2 ^ order
      let buddy := b.idx2page zoneNum buddyIdx
      if b.pageIsBuddy buddy order zoneNum then
        mergeLoop zoneNum rounds ((b.unlink buddy order).setPageProperty buddy false)
          (pageIdx &&& buddyIdx) (order + 1)
      else (b, pageIdx, order)

/-- `buddy_free_pages_sub`. -/
def freePagesSub (b : Buddy) (base order : Nat) : Except BuddyPanic Buddy :=
  let pageIdx := b.page2idx base
  if pageIdx &&& (2 ^ order - 1) = 0 then do
    let b ← clearPages (2 ^ order) b base
    let zoneNum := (b.page base).zoneNum
    let (b, pageIdx, order) := b.mergeLoop zoneNum (maxOrder - order) pageIdx order
    return b.addFree (b.idx2page zoneNum pageIdx) order
  else .error .align

/-- The first loop of `buddy_free_pages`, with `rounds` orders up to `MAX_ORDER` before it. -/
def freeUp : Nat → Buddy → Nat → Nat → Nat → Except BuddyPanic (Buddy × Nat × Nat × Nat)
  | rounds, b, base, n, order =>
      if 2 ^ order ≤ n then
        match rounds with
        | 0 => .error .order
        | rounds + 1 =>
            if b.page2idx base &&& 2 ^ order ≠ 0 then do
              let b ← b.freePagesSub base order
              freeUp rounds b (base + 2 ^ order) (n - 2 ^ order) (order + 1)
            else freeUp rounds b base n (order + 1)
      else .ok (b, base, n, order)

/-- The second loop of `buddy_free_pages`. -/
def freeDown (b : Buddy) (base n order : Nat) : Except BuddyPanic Buddy :=
  if n = 0 then .ok b
  else if n < 2 ^ order then freeDown b base n (order - 1)
  else do
    let b ← b.freePagesSub base order
    freeDown b (base + 2 ^ order) (n - 2 ^ order) order
termination_by (n, order)
decreasing_by
  · refine Prod.Lex.right _ ?_
    have positive : order ≠ 0 := by
      rintro rfl
      omega
    omega
  · have := Nat.two_pow_pos order
    exact Prod.Lex.left _ _ (by omega)

/-- `buddy_free_pages`. -/
def freePages (b : Buddy) (base n : Nat) : Except BuddyPanic Buddy :=
  if n = 0 then .error .size
  else if n = 1 then b.freePagesSub base 0
  else do
    let (b, base, n, order) ← freeUp (maxOrder + 1) b base n 0
    b.freeDown base n order

/-! ## Allocation -/

/-- The loop of `getorder`. -/
def getorderFrom (n : Nat) : Nat → Nat → Except BuddyPanic Nat
  | 0, _ => .error .getorder
  | rounds + 1, order => if n ≤ 2 ^ order then .ok order else getorderFrom n rounds (order + 1)

/-- `getorder`. -/
def getorder (n : Nat) : Except BuddyPanic Nat := getorderFrom n (maxOrder + 1) 0

/-- The loop of `buddy_alloc_pages_sub` that halves a block down to `order`. -/
def splitBlock (page order : Nat) : Nat → Buddy → Buddy
  | 0, b => b
  | steps + 1, b =>
      splitBlock page order steps (b.addFree (page + 2 ^ (order + steps)) (order + steps))

/-- The loop of `buddy_alloc_pages_sub` over the orders. -/
def allocFrom (order : Nat) : Nat → Nat → Buddy → Option Nat × Buddy
  | 0, _, b => (none, b)
  | rounds + 1, curOrder, b =>
      match b.freeList curOrder with
      | [] => allocFrom order rounds (curOrder + 1) b
      | page :: _ =>
          let b := splitBlock page order (curOrder - order) (b.unlink page curOrder)
          (some page, b.setPageProperty page false)

/-- `buddy_alloc_pages_sub`. -/
def allocPagesSub (b : Buddy) (order : Nat) : Except BuddyPanic (Option Nat × Buddy) :=
  if order ≤ maxOrder then .ok (allocFrom order (maxOrder + 1 - order) order b)
  else .error .order

/-- `buddy_alloc_pages`. -/
def allocPages (b : Buddy) (n : Nat) : Except BuddyPanic (Option Nat × Buddy) :=
  if n = 0 then .error .size
  else do
    let order ← getorder n
    let (page, b) ← b.allocPagesSub order
    match page with
    | none => return (none, b)
    | some page =>
        if n ≠ 2 ^ order then
          let b ← b.freePages (page + n) (2 ^ order - n)
          return (some page, b)
        else return (some page, b)

/-- `buddy_nr_free_pages`. -/
def nrFreePages (b : Buddy) : Nat :=
  ((List.range (maxOrder + 1)).map fun order => b.nrFree order * 2 ^ order).sum

end Buddy

end EdfKernel.Mm
