import EdfKernel.Library.Run
import EdfKernel.Mm.Layout
import Mathlib.Algebra.Ring.Nat
import Mathlib.Logic.Function.Basic

/-!
# The slab allocator

`slab.c`.  A slab is known by the address of its `slab_t`, and the array behind it by the numbers
it holds.  The page allocator is known by which pages are free; which run of pages `alloc_pages`
returns, or that it returns none, is read from the list `grants`.
-/

namespace EdfKernel.Mm.Slab

open Library

/-- Address of an object or of a `slab_t`. -/
abbrev Addr := Nat

/-- Index into `slab_cache`, for a pointer to a `kmem_cache_t`. -/
abbrev Cachep := Nat

def bufctlEnd : Nat := 0xFFFFFFFF

def slabLimit : Nat := 0xFFFFFFFE

def minSizeOrder : Nat := 5

def maxSizeOrder : Nat := 17

def slabCacheNum : Nat := maxSizeOrder - minSizeOrder + 1

def kmallocMaxOrder : Nat := 10

/-- `sizeof(slab_t)`. -/
def sizeofSlab : Nat := 24

/-- `sizeof(kmem_bufctl_t)`. -/
def sizeofBufctl : Nat := 4

/-- What the functions stop at: a panic, or an assertion that fails. -/
inductive Stop
  /-- `assert(size > 0)` -/
  | size
  /-- the panic of `getorder` -/
  | order
  /-- the panics of `calculate_slab_order`, and the assertion behind it -/
  | calculate
  /-- the panics of `PADDR` and `pa2page` -/
  | address
  /-- the panic of `kmem_cache_free` -/
  | notSlab
  /-- the assertion of `kmem_slab_destroy` -/
  | pageSlab
  /-- pages that are free are freed -/
  | freePages
  /-- the calls are nested too deep -/
  | depth
  deriving DecidableEq, Repr

/-- The fields of `kmem_cache_t` that `init_kmem_cache` sets. -/
structure KmemCache where
  objsize : Nat
  num : Nat
  offset : Nat
  offSlab : Bool
  pageOrder : Nat
  slabCachep : Cachep
  deriving DecidableEq, Repr

/-- `slab_t`, and `slab_bufctl` of it. -/
structure SlabT where
  sMem : Nat
  inuse : Nat
  offset : Nat
  free : Nat
  bufctl : Nat → Nat

/-! ## Sizes -/

/-- `slab_mgmt_size`. -/
def slabMgmtSize (num align : Nat) : Nat :=
  roundUp (sizeofSlab + num * sizeofBufctl) align

/-- The loop of `cache_estimate`. -/
def shrink (slabSize objsize align : Nat) : Nat → Nat
  | 0 => 0
  | n + 1 =>
      if slabMgmtSize (n + 1) align + (n + 1) * objsize > slabSize then
        shrink slabSize objsize align n
      else n + 1

/-- `cache_estimate`: the remainder and the number of objects. -/
def cacheEstimate (order objsize align : Nat) (offSlab : Bool) : Nat × Nat :=
  let slabSize := pgSize <<< order
  if offSlab then
    let nrObjs := min (slabSize / objsize) slabLimit
    (slabSize - nrObjs * objsize, nrObjs)
  else
    let nrObjs := min (shrink slabSize objsize align
      ((slabSize - sizeofSlab) / (objsize + sizeofBufctl))) slabLimit
    (slabSize - nrObjs * objsize - slabMgmtSize nrObjs align, nrObjs)

/-- The loop of `calculate_slab_order`: the order, the number of objects and what is left. -/
def calculateSlabOrder (objsize align : Nat) (offSlab : Bool) : Nat → Nat →
    Except Stop (Nat × Nat × Nat)
  | 0, _ => .error .calculate
  | fuel + 1, order =>
      let (remainder, num) := cacheEstimate order objsize align offSlab
      if num ≠ 0 then
        if offSlab = true ∧ (objsize - sizeofSlab) / sizeofBufctl < num then .error .calculate
        else if remainder * 8 ≤ pgSize <<< order then .ok (order, num, remainder)
        else calculateSlabOrder objsize align offSlab fuel (order + 1)
      else calculateSlabOrder objsize align offSlab fuel (order + 1)

/-- The loop of `getorder`. -/
def getorderLoop (n : Nat) : Nat → Nat → Nat → Except Stop Nat
  | 0, _, _ => .error .order
  | fuel + 1, order, orderSize =>
      if n ≤ orderSize then .ok order else getorderLoop n fuel (order + 1) (orderSize <<< 1)

/-- `getorder`. -/
def getorder (n : Nat) : Except Stop Nat :=
  getorderLoop n slabCacheNum minSizeOrder (1 <<< minSizeOrder)

/-- `init_kmem_cache`. -/
def initKmemCache (objsize align : Nat) : Except Stop KmemCache := do
  let objsize := roundUp objsize align
  let offSlab := decide (pgSize >>> 3 ≤ objsize)
  let (pageOrder, num, leftOver) ←
    calculateSlabOrder objsize align offSlab (kmallocMaxOrder + 1) 0
  if num = 0 then .error .calculate
  else
    let mgmtSize := slabMgmtSize num align
    if offSlab = true ∧ leftOver < mgmtSize then
      let order ← getorder mgmtSize
      return ⟨objsize, num, 0, true, pageOrder, order - minSizeOrder⟩
    else return ⟨objsize, num, mgmtSize, false, pageOrder, 0⟩

/-- The loop of `slab_init`, before `check_slab`. -/
def slabInit : Except Stop (List KmemCache) :=
  (List.range slabCacheNum).mapM fun i => initKmemCache (1 <<< (i + minSizeOrder)) 16

/-! ## Slabs -/

/-- The caches with their slabs, and the pages. -/
structure Slabs where
  cache : Cachep → KmemCache
  slabsFull : Cachep → List Addr
  slabsNotfull : Cachep → List Addr
  slab : Addr → SlabT
  /-- `PageSlab` -/
  pageSlab : Nat → Bool
  /-- `GET_PAGE_CACHE` -/
  pageCache : Nat → Cachep
  /-- `GET_PAGE_SLAB` -/
  pageSlabp : Nat → Addr
  free : Nat → Bool
  npage : Nat
  grants : List (Option Nat)

/-- `page2kva`. -/
def page2kva (page : Nat) : Nat := page * pgSize + kernBase

namespace Slabs

/-- `kva2page`. -/
def kva2page (s : Slabs) (kva : Addr) : Except Stop Nat :=
  if kernBase ≤ kva ∧ (kva - kernBase) / pgSize < s.npage then .ok ((kva - kernBase) / pgSize)
  else .error .address

/-- `alloc_pages`. -/
def allocPages (s : Slabs) (n : Nat) : Option Nat × Slabs :=
  match s.grants with
  | some page :: rest =>
      if page + n ≤ s.npage ∧ ∀ i < n, s.free (page + i) = true then
        (some page, { s with
          free := fun q => s.free q && !decide (page ≤ q ∧ q < page + n)
          grants := rest })
      else (none, { s with grants := rest })
  | none :: rest => (none, { s with grants := rest })
  | [] => (none, s)

/-- `free_pages`. -/
def freePages (s : Slabs) (page n : Nat) : Except Stop Slabs :=
  if ∀ i < n, s.free (page + i) = false then
    .ok { s with free := fun q => s.free q || decide (page ≤ q ∧ q < page + n) }
  else .error .freePages

/-- The slabs of a cache. -/
def slabs (s : Slabs) (c : Cachep) : List Addr := s.slabsFull c ++ s.slabsNotfull c

/-- `slab_allocated`. -/
def slabAllocated (s : Slabs) : Nat :=
  ((List.range slabCacheNum).map fun c =>
    ((s.slabsFull c).map fun _ => (s.cache c).num * (s.cache c).objsize).sum +
      ((s.slabsNotfull c).map fun slabp => (s.slab slabp).inuse * (s.cache c).objsize).sum).sum

/-- `list_del` of a slab of the cache. -/
def listDel (s : Slabs) (c : Cachep) (slabp : Addr) : Slabs :=
  { s with
    slabsFull := Function.update s.slabsFull c ((s.slabsFull c).erase slabp)
    slabsNotfull := Function.update s.slabsNotfull c ((s.slabsNotfull c).erase slabp) }

/-- `list_add` to `slabs_full`. -/
def addFull (s : Slabs) (c : Cachep) (slabp : Addr) : Slabs :=
  { s with slabsFull := Function.update s.slabsFull c (slabp :: s.slabsFull c) }

/-- `list_add` to `slabs_notfull`. -/
def addNotfull (s : Slabs) (c : Cachep) (slabp : Addr) : Slabs :=
  { s with slabsNotfull := Function.update s.slabsNotfull c (slabp :: s.slabsNotfull c) }

/-- A change to one `slab_t`. -/
def modify (s : Slabs) (slabp : Addr) (change : SlabT → SlabT) : Slabs :=
  { s with slab := Function.update s.slab slabp (change (s.slab slabp)) }

/-- What a cache's allocation returns. -/
abbrev Alloc := Cachep → Slabs → Except Stop (Option Addr × Slabs)

/-- `kmem_cache_slabmgmt`. -/
def kmemCacheSlabmgmt (alloc : Alloc) (s : Slabs) (c : Cachep) (page : Nat) :
    Except Stop (Option Addr × Slabs) := do
  let (slabp, s) ← (if (s.cache c).offSlab then alloc (s.cache c).slabCachep s
    else .ok (some (page2kva page), s))
  match slabp with
  | none => return (none, s)
  | some slabp =>
      return (some slabp, s.modify slabp fun t =>
        { t with
          inuse := 0
          offset := (s.cache c).offset
          sMem := page2kva page + (s.cache c).offset })

/-- `SET_PAGE_CACHE`, `SET_PAGE_SLAB` and `SetPageSlab` of the pages of a new slab. -/
def setPages (s : Slabs) (c : Cachep) (slabp : Addr) (page n : Nat) : Slabs :=
  { s with
    pageSlab := fun q => if page ≤ q ∧ q < page + n then true else s.pageSlab q
    pageCache := fun q => if page ≤ q ∧ q < page + n then c else s.pageCache q
    pageSlabp := fun q => if page ≤ q ∧ q < page + n then slabp else s.pageSlabp q }

/-- The array of a new slab of `num` objects. -/
def firstBufctl (num : Nat) (old : Nat → Nat) : Nat → Nat :=
  Function.update (fun i => if i < num then i + 1 else old i) (num - 1) bufctlEnd

/-- `kmem_cache_grow`. -/
def kmemCacheGrow (alloc : Alloc) (s : Slabs) (c : Cachep) : Except Stop (Bool × Slabs) :=
  let n := 1 <<< (s.cache c).pageOrder
  match s.allocPages n with
  | (none, s) => .ok (false, s)
  | (some page, s) => do
      let (slabp, s) ← s.kmemCacheSlabmgmt alloc c page
      match slabp with
      | none =>
          let s ← s.freePages page n
          return (false, s)
      | some slabp =>
          return (true, ((s.setPages c slabp page n).modify slabp fun t =>
            { t with bufctl := firstBufctl (s.cache c).num t.bufctl, free := 0 }).addNotfull c slabp)

/-- `kmem_cache_alloc_one`. -/
def kmemCacheAllocOne (s : Slabs) (c : Cachep) (slabp : Addr) : Addr × Slabs :=
  let t := s.slab slabp
  let objp := t.sMem + t.free * (s.cache c).objsize
  let s := s.modify slabp fun t => { t with inuse := t.inuse + 1, free := t.bufctl t.free }
  (objp, if (s.slab slabp).free = bufctlEnd then (s.listDel c slabp).addFull c slabp else s)

/-- `kmem_cache_alloc`; `depth` bounds how deep the calls and the attempts are nested. -/
def kmemCacheAlloc : Nat → Alloc
  | 0, _, _ => .error .depth
  | depth + 1, c, s =>
      match s.slabsNotfull c with
      | slabp :: _ =>
          let (objp, s) := s.kmemCacheAllocOne c slabp
          .ok (some objp, s)
      | [] => do
          let (grown, s) ← s.kmemCacheGrow (kmemCacheAlloc depth) c
          if grown then kmemCacheAlloc depth c s else return (none, s)

/-- `kmalloc`. -/
def kmalloc (s : Slabs) (size : Nat) : Except Stop (Option Addr × Slabs) :=
  if size = 0 then .error .size
  else do
    let order ← getorder size
    if maxSizeOrder < order then return (none, s)
    else kmemCacheAlloc 4 (order - minSizeOrder) s

/-- What a cache's release does. -/
abbrev Release := Cachep → Addr → Slabs → Except Stop Slabs

/-- `kmem_slab_destroy`. -/
def kmemSlabDestroy (release : Release) (s : Slabs) (c : Cachep) (slabp : Addr) :
    Except Stop Slabs := do
  let page ← s.kva2page ((s.slab slabp).sMem - (s.slab slabp).offset)
  let n := 1 <<< (s.cache c).pageOrder
  if ∀ i < n, s.pageSlab (page + i) = true then
    let s := { s with pageSlab := fun q => s.pageSlab q && !decide (page ≤ q ∧ q < page + n) }
    let s ← s.freePages page n
    if (s.cache c).offSlab then release (s.cache c).slabCachep slabp s else return s
  else .error .pageSlab

/-- `kmem_cache_free_one`. -/
def kmemCacheFreeOne (release : Release) (s : Slabs) (c : Cachep) (slabp objp : Addr) :
    Except Stop Slabs :=
  let objnr := (objp - (s.slab slabp).sMem) / (s.cache c).objsize
  let s := s.modify slabp fun t =>
    { t with
      bufctl := Function.update t.bufctl objnr t.free
      free := objnr
      inuse := t.inuse - 1 }
  if (s.slab slabp).inuse = 0 then (s.listDel c slabp).kmemSlabDestroy release c slabp
  else if (s.slab slabp).inuse = (s.cache c).num - 1 then
    .ok ((s.listDel c slabp).addNotfull c slabp)
  else .ok s

/-- `kmem_cache_free`; `depth` bounds how deep the calls are nested. -/
def kmemCacheFree : Nat → Release
  | 0, _, _, _ => .error .depth
  | depth + 1, c, objp, s => do
      let page ← s.kva2page objp
      if s.pageSlab page then
        s.kmemCacheFreeOne (kmemCacheFree depth) c (s.pageSlabp page) objp
      else .error .notSlab

/-- `kfree`. -/
def kfree (s : Slabs) (objp : Addr) : Except Stop Slabs := do
  let page ← s.kva2page objp
  kmemCacheFree 4 (s.pageCache page) objp s

end Slabs

end EdfKernel.Mm.Slab
