import EdfKernel.Mm.SlabBlocks
import Mathlib.Data.List.Pairwise

/-!
# Runs of `kmalloc` and `kfree`

Callers ask for objects and give back those that they hold, while the rest of the kernel takes pages
and gives them back.
-/

namespace EdfKernel.Mm.Slab

open Library

/-! ## Orders of sizes -/

theorem getorderLoop_ok {n fuel order : Nat} (fits : n ≤ 1 <<< (order + fuel)) :
    ∃ k, getorderLoop n (fuel + 1) order (1 <<< order) = .ok k ∧ order ≤ k ∧ k ≤ order + fuel ∧
      n ≤ 1 <<< k := by
  induction fuel generalizing order with
  | zero => exact ⟨order, if_pos fits, le_refl _, le_refl _, fits⟩
  | succ fuel ih =>
      by_cases here : n ≤ 1 <<< order
      · exact ⟨order, if_pos here, le_refl _, Nat.le_add_right .., here⟩
      · rw [Nat.add_comm fuel 1, ← Nat.add_assoc] at fits
        obtain ⟨k, found, low, high, enough⟩ := ih fits
        refine ⟨k, ?_, by omega, by omega, enough⟩
        rw [getorderLoop, if_neg here, ← Nat.shiftLeft_add]
        exact found

/-- `getorder`, for a size that has a cache. -/
theorem getorder_ok {n : Nat} (fits : n ≤ 1 <<< maxSizeOrder) :
    ∃ c < slabCacheNum, getorder n = .ok (c + minSizeOrder) ∧ n ≤ 1 <<< (c + minSizeOrder) := by
  obtain ⟨k, found, low, high, enough⟩ := @getorderLoop_ok n 12 minSizeOrder fits
  refine ⟨k - minSizeOrder, ?_, ?_⟩
  · unfold minSizeOrder at high
    unfold minSizeOrder slabCacheNum maxSizeOrder minSizeOrder
    omega
  · rw [Nat.sub_add_cancel low]
    exact ⟨found, enough⟩

/-- The bytes of the object that `kmalloc` takes for a size. -/
def granted (size : Nat) : Nat :=
  match getorder size with
  | .ok order => 1 <<< order
  | .error _ => 0

/-! ## The system -/

/-- The allocator, the objects that callers hold with the sizes that they asked for, and the pages
that the rest of the kernel holds. -/
structure Heap where
  slabs : Slabs
  held : List (Addr × Nat)
  hand : Nat → Bool

/-- A call, with the answers of `alloc_pages` during it. -/
inductive Call
  | kmalloc (size : Nat) (grants : List (Option Nat))
  | kfree (objp : Addr)
  | allocPages (n : Nat) (grants : List (Option Nat))
  | freePages (page n : Nat)
  deriving Repr

namespace Heap

def step (h : Heap) : Call → Except Stop Heap
  | .kmalloc size grants => do
      let (objp, s) ← { h.slabs with grants := grants }.kmalloc size
      match objp with
      | none => return { h with slabs := s }
      | some objp => return { h with slabs := s, held := (objp, size) :: h.held }
  | .kfree objp => do
      let s ← h.slabs.kfree objp
      return { h with slabs := s, held := h.held.filter fun x => x.1 ≠ objp }
  | .allocPages n grants =>
      match { h.slabs with grants := grants }.allocPages n with
      | (none, s) => .ok { h with slabs := s }
      | (some page, s) =>
          .ok { h with slabs := s, hand := fun q => h.hand q || Slabs.run page n q }
  | .freePages page n => do
      let s ← h.slabs.freePages page n
      return { h with slabs := s, hand := fun q => h.hand q && !Slabs.run page n q }

/-- The sizes are those that there is a cache for, and what is given back is held. -/
def Allowed (h : Heap) : Call → Prop
  | .kmalloc size _ => 0 < size ∧ size ≤ 1 <<< maxSizeOrder
  | .kfree objp => objp ∈ h.held.map Prod.fst
  | .allocPages _ _ => True
  | .freePages page n => ∀ i < n, h.hand (page + i) = true

instance (h : Heap) : ∀ call, Decidable (h.Allowed call)
  | .kmalloc size _ => inferInstanceAs (Decidable (0 < size ∧ size ≤ 1 <<< maxSizeOrder))
  | .kfree objp => inferInstanceAs (Decidable (objp ∈ h.held.map Prod.fst))
  | .allocPages _ _ => .isTrue trivial
  | .freePages page n => inferInstanceAs (Decidable (∀ i < n, h.hand (page + i) = true))

/-- The caches are those of `slab_init`, and there are no slabs. -/
structure Booted (s : Slabs) : Prop where
  caches : ∃ l, slabInit = .ok l ∧ ∀ c < slabCacheNum, l[c]? = some (s.cache c)
  empty : ∀ c, s.slabs c = []
  pageSlab : ∀ q, s.pageSlab q = false

/-- Nothing is held. -/
def start (s : Slabs) : Heap := ⟨s, [], fun _ => false⟩

/-- The objects that callers hold, and the control parts of slabs. -/
def blocks (h : Heap) : List (Nat × Nat) :=
  h.held ++ (List.range slabCacheNum).flatMap fun c =>
    (h.slabs.slabs c).map fun t => (t, (h.slabs.cache c).controlSize)

/-- The object is one of the cache for its size. -/
def Provides (s : Slabs) (x : Addr × Nat) : Prop :=
  ∃ c, getorder x.2 = .ok (c + minSizeOrder) ∧ x.2 ≤ 1 <<< (c + minSizeOrder) ∧
    ∃ t ∈ s.slabs c, ∃ i < (s.cache c).num, x.1 = s.obj c t i

/-- What the state of the allocator means for those who use it. -/
structure Sound (h : Heap) : Prop where
  apart : h.blocks.Pairwise Apart
  covers : ∀ x ∈ h.blocks, h.slabs.Covers h.hand x
  filed : h.slabs.Filed
  busy : ∀ c, ∀ t ∈ h.slabs.slabs c, 0 < (h.slabs.slab t).inuse
  chains : ∀ c, ∀ t ∈ h.slabs.slabs c, ∃ idle,
    FreePlaces (h.slabs.slab t).bufctl bufctlEnd (h.slabs.cache c).num (h.slabs.slab t).free idle ∧
      (h.slabs.slab t).inuse + idle.length = (h.slabs.cache c).num ∧
      ∀ i < (h.slabs.cache c).num, i ∈ idle ↔ h.slabs.obj c t i ∉ h.blocks.map Prod.fst

/-- The invariant of the system. -/
structure Good (base : Nat → Bool) (h : Heap) : Prop where
  sizes : ∀ c < slabCacheNum, (h.slabs.cache c).objsize = 1 <<< (c + minSizeOrder)
  filed : h.slabs.Filed
  nodup : (h.held.map Prod.fst).Nodup
  serves : ∃ live, h.slabs.Inv base live h.hand none ∧
    ∀ a, live a = some .client ↔ a ∈ h.held.map Prod.fst
  objects : ∀ x ∈ h.held, Provides h.slabs x
  total : h.slabs.clientTotal = ((h.held.map fun x => granted x.2).sum : Nat)

variable {h h' : Heap} {base : Nat → Bool} {s s' : Slabs}

theorem Provides.extend {x : Addr × Nat} (provides : Provides s x) (extend : s.Extends s') :
    Provides s' x := by
  obtain ⟨c, order, enough, t, mem, i, inBounds, isObj⟩ := provides
  obtain ⟨mem', same⟩ := extend.keeps c t mem
  refine ⟨c, order, enough, t, mem', i, ?_, isObj.trans (same i).symm⟩
  rw [extend.cache]
  exact inBounds

/-- `kmalloc` allocates from the cache for the size. -/
theorem kmalloc_eq {size c : Nat} (some : 0 < size) (known : c < slabCacheNum)
    (order : getorder size = .ok (c + minSizeOrder)) :
    s.kmalloc size = Slabs.kmemCacheAlloc 4 c s := by
  have inRange : ¬maxSizeOrder < c + minSizeOrder := by
    have le : minSizeOrder ≤ maxSizeOrder := by decide
    unfold slabCacheNum at known
    omega
  unfold Slabs.kmalloc
  rw [if_neg (Nat.pos_iff_ne_zero.mp some), order, ok_bind, if_neg inRange, Nat.add_sub_cancel]

theorem granted_eq {size c : Nat} (order : getorder size = .ok (c + minSizeOrder)) :
    granted size = 1 <<< (c + minSizeOrder) := by
  rw [granted, order]

/-- `kmalloc` does not stop, and what it returns is new. -/
theorem Good.kmalloc {size : Nat} {grants : List (Option Nat)} (good : Good base h)
    (some : 0 < size) (fits : size ≤ 1 <<< maxSizeOrder) :
    ∃ h', h.step (.kmalloc size grants) = .ok h' ∧ Good base h' := by
  obtain ⟨c, known, order, enough⟩ := getorder_ok fits
  obtain ⟨live, inv, clients⟩ := good.serves
  obtain ⟨r, s', called, allocates⟩ := @Slabs.alloc_spec { h.slabs with grants := grants } base
    h.hand live c 1 (inv.grants grants) ⟨good.filed.nodup, good.filed.full, good.filed.notfull⟩ known
  obtain ⟨live', inv', clients'⟩ := allocates.serves
  have called' := (kmalloc_eq some known order).trans called
  have cache : s'.cache = h.slabs.cache := allocates.extend.cache
  have extend : h.slabs.Extends s' :=
    ⟨cache, allocates.extend.npage, allocates.extend.keeps⟩
  have sizes : ∀ c < slabCacheNum, (s'.cache c).objsize = 1 <<< (c + minSizeOrder) := by
    rw [cache]
    exact good.sizes
  have total := allocates.total
  change s'.clientTotal = h.slabs.clientTotal + _ at total
  cases r with
  | none =>
      refine ⟨{ h with slabs := s' }, ?_, sizes, allocates.filed, good.nodup, ⟨live', inv', ?_⟩,
        fun x mem => (good.objects x mem).extend extend, ?_⟩
      · rw [step, called']
        rfl
      · intro a
        rw [clients', clients]
        simp
      · rw [total, good.total]
        simp
  | some objp =>
      obtain ⟨notClient, t, there, i, inBounds, isObj⟩ := allocates.object objp rfl
      rw [Ne, clients] at notClient
      refine ⟨{ h with slabs := s', held := (objp, size) :: h.held }, ?_, sizes, allocates.filed,
        List.nodup_cons.mpr ⟨notClient, good.nodup⟩, ⟨live', inv', ?_⟩, ?_, ?_⟩
      · rw [step, called']
        rfl
      · intro a
        rw [clients', clients, List.map_cons, List.mem_cons, Option.mem_some_iff, eq_comm]
      · intro x mem
        rcases List.mem_cons.mp mem with rfl | mem
        · refine ⟨c, order, enough, t, there, i, ?_, isObj⟩
          rw [cache]
          exact inBounds
        · exact (good.objects x mem).extend extend
      · rw [total, good.total, List.map_cons, List.sum_cons, granted_eq order]
        change _ + (((h.slabs.cache c).objsize : Nat) : Int) = _
        rw [good.sizes c known]
        omega

/-- What is left of a list when one entry is taken out by its key. -/
theorem perm_filter {l : List (Addr × Nat)} {x : Addr × Nat} (nodup : (l.map Prod.fst).Nodup)
    (mem : x ∈ l) : (x :: l.filter fun y => y.1 ≠ x.1).Perm l := by
  have first : (x :: l.filter fun y => y.1 ≠ x.1).Nodup := by
    apply List.nodup_cons.mpr
    exact ⟨by simp, (List.Nodup.of_map _ nodup).filter _⟩
  apply (List.perm_ext_iff_of_nodup first (List.Nodup.of_map _ nodup)).mpr
  intro y
  rw [List.mem_cons, List.mem_filter, decide_eq_true_iff]
  constructor
  · rintro (rfl | ⟨there, _⟩)
    · exact mem
    · exact there
  · intro there
    by_cases same : y.1 = x.1
    · exact .inl (List.inj_on_of_nodup_map nodup there mem same)
    · exact .inr ⟨there, same⟩

/-- `kfree` of an object that is held does not stop. -/
theorem Good.kfree {objp : Addr} (good : Good base h) (held : objp ∈ h.held.map Prod.fst) :
    ∃ h', h.step (.kfree objp) = .ok h' ∧ Good base h' := by
  obtain ⟨x, mem, rfl⟩ := List.mem_map.mp held
  obtain ⟨live, inv, clients⟩ := good.serves
  obtain ⟨c, order, enough, t, there, i, inBounds, isObj⟩ := good.objects x mem
  have client : live (h.slabs.obj c t i) = some .client := by
    rw [← isObj]
    exact (clients x.1).mpr held
  obtain ⟨s', freed, retract, filed, ⟨live', inv', clients'⟩, total⟩ :=
    @Slabs.free_spec h.slabs base h.hand live c t i 2 inv good.filed there inBounds client
  obtain ⟨q, isPage, _, isCache, _⟩ := inv.page_tags there inBounds
  have called : h.slabs.kfree x.1 = .ok s' := by
    rw [isObj, Slabs.kfree, isPage, ok_bind, isCache]
    exact freed
  have cache : s'.cache = h.slabs.cache := retract.cache.symm
  have split := perm_filter good.nodup mem
  have others : ∀ a, a ∈ (h.held.filter fun y => y.1 ≠ x.1).map Prod.fst ↔
      a ≠ x.1 ∧ a ∈ h.held.map Prod.fst := by
    intro a
    rw [List.mem_map, List.mem_map]
    constructor
    · rintro ⟨y, there', rfl⟩
      rw [List.mem_filter, decide_eq_true_iff] at there'
      exact ⟨there'.2, y, there'.1, rfl⟩
    · rintro ⟨ne, y, there', rfl⟩
      exact ⟨y, List.mem_filter.mpr ⟨there', decide_eq_true_iff.mpr ne⟩, rfl⟩
  have clients₂ : ∀ a, live' a = some .client ↔
      a ∈ (h.held.filter fun y => y.1 ≠ x.1).map Prod.fst := by
    intro a
    rw [clients', clients, ← isObj, others]
  refine ⟨{ h with slabs := s', held := h.held.filter fun y => y.1 ≠ x.1 }, ?_, ?_, filed, ?_,
    ⟨live', inv', clients₂⟩, fun y there' => ?_, ?_⟩
  · rw [step, called]
    rfl
  · rw [cache]
    exact good.sizes
  · exact good.nodup.sublist (List.filter_sublist.map _)
  · -- what is still held is in a slab that is still there
    have client' := (clients₂ y.1).mpr (List.mem_map_of_mem there')
    obtain ⟨c', u, mem', j, inBounds', isObj'⟩ := inv'.objects y.1 (by simp [client'])
    obtain ⟨d, order', enough', v, mem'', k, inBounds'', isObj''⟩ :=
      good.objects y (List.mem_filter.mp there').1
    obtain ⟨before, same⟩ := retract.keeps c' u mem'
    rw [cache] at inBounds'
    obtain ⟨rfl, _⟩ := inv.obj_inj before inBounds' mem'' inBounds''
      ((same j).trans (isObj'.symm.trans isObj''))
    rw [← cache] at inBounds'
    exact ⟨c', order', enough', u, mem', j, inBounds', isObj'⟩
  · rw [total, good.total, ← (split.map fun y => granted y.2).sum_eq, List.map_cons, List.sum_cons,
      granted_eq order, good.sizes c (inv.known c t there)]
    dsimp only
    omega

/-- The rest of the kernel takes pages. -/
theorem Good.allocPages {n : Nat} {grants : List (Option Nat)} (good : Good base h) :
    ∃ h', h.step (.allocPages n grants) = .ok h' ∧ Good base h' := by
  obtain ⟨live, inv, clients⟩ := good.serves
  have inv₁ := inv.grants grants
  rw [step]
  rcases answer : ({ h.slabs with grants := grants } : Slabs).allocPages n with ⟨found, s'⟩
  cases found with
  | none =>
      obtain ⟨grants', rfl⟩ := Slabs.allocPages_none answer
      exact ⟨_, rfl, good.sizes, ⟨good.filed.nodup, good.filed.full, good.filed.notfull⟩, good.nodup,
        ⟨live, inv.grants grants', clients⟩, good.objects, good.total⟩
  | some page =>
      obtain ⟨_, _, ⟨free, grants', rfl⟩, inv₂⟩ := Slabs.allocPages_some inv₁ answer
      exact ⟨_, rfl, good.sizes, ⟨good.filed.nodup, good.filed.full, good.filed.notfull⟩, good.nodup,
        ⟨live, inv₂, clients⟩, good.objects, good.total⟩

/-- The rest of the kernel gives pages back that it holds. -/
theorem Good.freePages {page n : Nat} (good : Good base h)
    (held : ∀ i < n, h.hand (page + i) = true) :
    ∃ h', h.step (.freePages page n) = .ok h' ∧ Good base h' := by
  obtain ⟨live, inv, clients⟩ := good.serves
  have split : h.hand = fun q => (h.hand q && !Slabs.run page n q) || Slabs.run page n q := by
    funext q
    cases inside : Slabs.run page n q with
    | false => simp
    | true =>
        obtain ⟨low, high⟩ := Slabs.run_eq_true_iff.mp inside
        have there := held (q - page) (by omega)
        rw [Nat.add_sub_cancel' low] at there
        simp [there]
  rw [split] at inv
  obtain ⟨s', freed, ⟨free, rfl⟩, inv'⟩ := Slabs.freePages_spec inv fun q inside => by simp [inside]
  refine ⟨{ h with
      slabs := { h.slabs with free := free }
      hand := fun q => h.hand q && !Slabs.run page n q }, ?_, good.sizes,
    ⟨good.filed.nodup, good.filed.full, good.filed.notfull⟩, good.nodup, ⟨live, inv', clients⟩,
    good.objects, good.total⟩
  rw [step, freed]
  rfl

/-- What is allowed does not stop. -/
theorem Good.step {call : Call} (good : Good base h) (allowed : h.Allowed call) :
    ∃ h', h.step call = .ok h' ∧ Good base h' := by
  cases call with
  | kmalloc size grants => exact good.kmalloc allowed.1 allowed.2
  | kfree objp => exact good.kfree allowed
  | allocPages n grants => exact good.allocPages
  | freePages page n => exact good.freePages allowed

/-! ## Start -/

instance (cache : Cachep → KmemCache) (k : KmemCache) : Decidable (k.Fits cache) :=
  decidable_of_iff (0 < k.objsize ∧ (0 < k.num ∧ k.num ≤ bufctlEnd) ∧
      k.offset + k.num * k.objsize ≤ k.pages * pgSize ∧
      (k.offSlab = false → k.controlSize ≤ k.offset) ∧
      (k.offSlab = true → k.slabCachep < slabCacheNum ∧ (cache k.slabCachep).offSlab = false ∧
        k.controlSize ≤ (cache k.slabCachep).objsize))
    ⟨fun ⟨objsize, num, room, onSlab, offSlab⟩ => ⟨objsize, num, room, onSlab, offSlab⟩,
      fun fits => ⟨fits.objsize, fits.num, fits.room, fits.onSlab, fits.offSlab⟩⟩

/-- The caches that `slab_init` makes. -/
def bootCaches : List KmemCache :=
    [⟨32, 113, 480, false, 0, 0⟩, ⟨64, 59, 272, false, 0, 0⟩, ⟨128, 30, 144, false, 0, 0⟩,
      ⟨256, 15, 96, false, 0, 0⟩, ⟨512, 8, 0, true, 0, 1⟩, ⟨1024, 4, 0, true, 0, 1⟩,
      ⟨2048, 2, 0, true, 0, 0⟩, ⟨4096, 1, 0, true, 0, 0⟩, ⟨8192, 1, 0, true, 1, 0⟩,
      ⟨16384, 1, 0, true, 2, 0⟩, ⟨32768, 1, 0, true, 3, 0⟩, ⟨65536, 1, 0, true, 4, 0⟩,
      ⟨131072, 1, 0, true, 5, 0⟩]

theorem slabInit_eq : slabInit = .ok bootCaches := by
  decide +kernel

def bootCache (c : Cachep) : KmemCache := bootCaches.getD c ⟨0, 0, 0, false, 0, 0⟩

theorem bootCache_fits : CachesFit bootCache ∧
    ∀ c < slabCacheNum, (bootCache c).objsize = 1 <<< (c + minSizeOrder) := by
  unfold CachesFit
  decide +kernel

theorem cachesFit_congr {cache cache' : Cachep → KmemCache} (fits : CachesFit cache)
    (same : ∀ c < slabCacheNum, cache' c = cache c) : CachesFit cache' := by
  intro c known
  rw [same c known]
  obtain ⟨objsize, num, room, onSlab, offSlab⟩ := fits c known
  refine ⟨objsize, num, room, onSlab, fun off => ?_⟩
  obtain ⟨known', inside, enough⟩ := offSlab off
  rw [same _ known']
  exact ⟨known', inside, enough⟩

/-- The sizes of the caches that `slab_init` makes are right. -/
theorem slabInit_fits (cache : Cachep → KmemCache) {l : List KmemCache} (made : slabInit = .ok l)
    (caches : ∀ c < slabCacheNum, l[c]? = some (cache c)) :
    CachesFit cache ∧ ∀ c < slabCacheNum, (cache c).objsize = 1 <<< (c + minSizeOrder) := by
  rw [slabInit_eq] at made
  cases made
  have same : ∀ c < slabCacheNum, cache c = bootCache c := by
    intro c known
    rw [bootCache, List.getD_eq_getElem?_getD, caches c known]
    rfl
  refine ⟨cachesFit_congr bootCache_fits.1 same, fun c known => ?_⟩
  rw [same c known]
  exact bootCache_fits.2 c known

theorem Booted.good (booted : Booted s) : Good s.free (start s) := by
  obtain ⟨l, made, caches⟩ := booted.caches
  obtain ⟨fits, sizes⟩ := slabInit_fits s.cache made caches
  have notThere : ∀ c t, t ∉ s.slabs c := by
    intro c t mem
    rw [booted.empty] at mem
    cases mem
  refine ⟨sizes, ⟨fun c => ?_, fun c t mem => ?_, fun c t mem => ?_⟩, List.nodup_nil,
    ⟨fun _ => none, ⟨fits, ?_, ?_, ?_, ?_, ?_, ?_, ?_, ?_, ?_, ?_, ?_⟩, ?_⟩, ?_, ?_⟩
  · change (s.slabs c).Nodup
    rw [booted.empty]
    exact List.nodup_nil
  · exact absurd (List.mem_append_left _ mem) (notThere c t)
  · exact absurd (List.mem_append_right _ mem) (notThere c t)
  · exact fun c t mem => absurd mem (notThere c t)
  · exact fun c t mem => absurd mem (notThere c t)
  · exact fun c t mem => absurd mem (notThere c t)
  · exact fun c t mem => absurd mem (notThere c t)
  · exact fun _ isLive => absurd rfl isLive
  · exact fun c t mem => absurd mem (notThere c t)
  · rintro _ _ ⟨⟩
  · intro q isSlab
    rw [start, booted.pageSlab] at isSlab
    cases isSlab
  · intro q
    simp [start, booted.pageSlab]
  · intro q isSlab
    rw [start, booted.pageSlab] at isSlab
    cases isSlab
  · rintro _ ⟨⟩
  · simp [start]
  · rintro _ ⟨⟩
  · simp [start, Slabs.clientTotal, Slabs.inuseOf, Slabs.controlOf, booted.empty]

/-! ## What holds after every run -/

theorem mem_blocks (known : ∀ c, ∀ t ∈ h.slabs.slabs c, c < slabCacheNum) {a : Addr} :
    a ∈ h.blocks.map Prod.fst ↔ a ∈ h.held.map Prod.fst ∨ ∃ c, a ∈ h.slabs.slabs c := by
  rw [blocks, List.map_append, List.mem_append]
  refine or_congr Iff.rfl ?_
  simp only [List.mem_map, List.mem_flatMap, List.mem_range]
  constructor
  · rintro ⟨_, ⟨c, _, t, mem, rfl⟩, rfl⟩
    exact ⟨c, mem⟩
  · rintro ⟨c, mem⟩
    exact ⟨_, ⟨c, known c a mem, a, mem, rfl⟩, rfl⟩

/-- The objects that callers hold, with all of their bytes. -/
def objects (h : Heap) : List (Nat × Nat) := h.held.map fun x => (x.1, granted x.2)

/-- The control parts of slabs. -/
def controls (h : Heap) : List (Nat × Nat) :=
  (List.range slabCacheNum).flatMap fun c =>
    (h.slabs.slabs c).map fun t => (t, (h.slabs.cache c).controlSize)

/-- An object that a caller holds has the size of its cache. -/
theorem Good.object {x : Addr × Nat} (good : Good base h) {live : Addr → Option Owner}
    {hand : Nat → Bool} (inv : h.slabs.Inv base live hand none) (mem : x ∈ h.held) :
    ∃ c, ∃ t ∈ h.slabs.slabs c, ∃ i < (h.slabs.cache c).num, x.1 = h.slabs.obj c t i ∧
      x.2 ≤ (h.slabs.cache c).objsize ∧ granted x.2 = (h.slabs.cache c).objsize := by
  obtain ⟨c, order, enough, t, there, i, inBounds, isObj⟩ := good.objects x mem
  have size := good.sizes c (inv.known c t there)
  refine ⟨c, t, there, i, inBounds, isObj, ?_, ?_⟩
  · rw [size]
    exact enough
  · rw [size]
    exact granted_eq order

/-- Objects and control parts do not meet. -/
theorem Good.apart (good : Good base h) : (h.objects ++ h.controls).Pairwise Apart := by
  obtain ⟨live, inv, clients⟩ := good.serves
  apply List.pairwise_append.mpr
  refine ⟨?_, ?_, ?_⟩
  · apply List.pairwise_map.mpr
    apply (List.pairwise_map.mp good.nodup).imp_of_mem
    intro x y mem mem' ne
    obtain ⟨c, t, there, i, inBounds, isObj, _, size⟩ := good.object inv mem
    obtain ⟨c', u, there', j, inBounds', isObj', _, size'⟩ := good.object inv mem'
    rw [isObj, isObj'] at ne
    rw [size, size', isObj, isObj']
    exact inv.obj_apart there inBounds there' inBounds' ne
  · apply List.pairwise_flatMap.mpr
    refine ⟨fun c _ => ?_, ?_⟩
    · apply List.pairwise_map.mpr
      exact (good.filed.nodup c).imp_of_mem fun mem mem' ne => inv.controls_apart mem mem' ne
    · apply List.nodup_range.imp
      intro c c' ne x mem y mem'
      obtain ⟨t, there, rfl⟩ := List.mem_map.mp mem
      obtain ⟨u, there', rfl⟩ := List.mem_map.mp mem'
      apply inv.controls_apart there there'
      rintro rfl
      exact ne (inv.cache_eq there there')
  · intro _ isObject y mem'
    obtain ⟨x, mem, rfl⟩ := List.mem_map.mp isObject
    obtain ⟨c, t, there, i, inBounds, isObj, _, size⟩ := good.object inv mem
    obtain ⟨c', _, listed⟩ := List.mem_flatMap.mp mem'
    obtain ⟨u, there', rfl⟩ := List.mem_map.mp listed
    rw [size, isObj]
    refine (inv.control_obj_apart there' there inBounds fun off same => ?_).symm
    -- an object of a client is no `slab_t`
    have client := (clients x.1).mpr (List.mem_map_of_mem mem)
    rw [isObj, ← same, (inv.controls c' u there' off).1] at client
    cases client

/-- The chain of a slab runs through the places that are nobody's. -/
theorem Good.chain (good : Good base h) {c : Cachep} {t : Addr} (mem : t ∈ h.slabs.slabs c) :
    ∃ idle,
      FreePlaces (h.slabs.slab t).bufctl bufctlEnd (h.slabs.cache c).num (h.slabs.slab t).free idle ∧
        (h.slabs.slab t).inuse + idle.length = (h.slabs.cache c).num ∧
        ∀ i < (h.slabs.cache c).num, i ∈ idle ↔ h.slabs.obj c t i ∉ h.blocks.map Prod.fst := by
  obtain ⟨live, inv, clients⟩ := good.serves
  obtain ⟨idle, stocked⟩ := inv.stocked c t mem
  refine ⟨idle, stocked.places, stocked.inuse, fun i inBounds => ?_⟩
  rw [stocked.idle_iff i inBounds, mem_blocks inv.known, ← clients, ← inv.live_iff mem inBounds,
    not_not]

theorem Good.sound (good : Good base h) : Sound h := by
  obtain ⟨live, inv, clients⟩ := good.serves
  refine ⟨?_, ?_, good.filed, fun c t mem => ?_, fun c t mem => good.chain mem⟩
  · obtain ⟨objects, controls, between⟩ := List.pairwise_append.mp good.apart
    apply List.pairwise_append.mpr
    refine ⟨?_, controls, fun x mem y mem' => ?_⟩
    · apply (List.pairwise_map.mp objects).imp_of_mem
      intro x y mem mem' apart
      obtain ⟨_, _, _, _, _, _, enough, size⟩ := good.object inv mem
      obtain ⟨_, _, _, _, _, _, enough', size'⟩ := good.object inv mem'
      exact apart.mono (enough.trans size.ge) (enough'.trans size'.ge)
    · obtain ⟨_, _, _, _, _, _, enough, size⟩ := good.object inv mem
      exact (between _ (List.mem_map_of_mem mem) y mem').mono (enough.trans size.ge) le_rfl
  · intro x mem
    rcases List.mem_append.mp mem with mem | mem
    · obtain ⟨c, t, there, i, inBounds, isObj, enough, _⟩ := good.object inv mem
      have covers := (inv.obj_covers there inBounds).mono enough
      rwa [← isObj] at covers
    · obtain ⟨c, _, listed⟩ := List.mem_flatMap.mp mem
      obtain ⟨t, there, rfl⟩ := List.mem_map.mp listed
      exact inv.control_covers there
  · exact inv.busy c t mem (by simp)

/-- Whatever the callers and the rest of the kernel do, no call stops, and blocks in use do not
meet. -/
theorem kmalloc_sound (booted : Booted s) {calls : List Call}
    (along : Run.Along step Allowed (start s) calls) :
    ∃ h, Run.exec step (start s) calls = .ok h ∧ Sound h := by
  obtain ⟨h, run, good⟩ := Run.exec_ok_along (fun _ _ good allowed => good.step allowed)
    booted.good along
  exact ⟨h, run, good.sound⟩

/-- What `slab_allocated` counts, and where the pages are. -/
structure Accounts (base : Nat → Bool) (h : Heap) : Prop where
  allocated : h.slabs.slabAllocated = (h.held.map fun x => granted x.2).sum +
    ∑ c ∈ Finset.range slabCacheNum, h.slabs.controlOf c
  pages : ∀ q, h.slabs.free q = (base q && !h.slabs.pageSlab q && !h.hand q)
  marked : ∀ q, h.slabs.pageSlab q = true ↔ ∃ c, ∃ t ∈ h.slabs.slabs c, ∃ page,
    (h.slabs.slab t).sMem = page2kva page + (h.slabs.cache c).offset ∧ page ≤ q ∧
      q < page + (h.slabs.cache c).pages
  empty : h.held = [] → (∀ c, h.slabs.slabs c = []) ∧
    ∀ q, h.slabs.free q = (base q && !h.hand q)

theorem Good.accounts (good : Good base h) : Accounts base h := by
  obtain ⟨live, inv, clients⟩ := good.serves
  have pages : ∀ q, h.slabs.free q = (base q && !h.slabs.pageSlab q && !h.hand q) := by
    intro q
    rw [Bool.eq_iff_iff, inv.frees q]
    simp [and_assoc]
  refine ⟨?_, pages, fun q => ⟨fun isSlab => ?_, ?_⟩, fun none => ?_⟩
  · have total := good.filed.slabAllocated
    rw [good.total, ← Nat.cast_sum] at total
    omega
  · obtain ⟨c, t, mem, page, placed, low, high⟩ := inv.tagged q isSlab
    exact ⟨c, t, mem, page, placed.sMem, low, high⟩
  · rintro ⟨c, t, mem, page, sMem, low, high⟩
    obtain ⟨page', placed⟩ := inv.placed c t mem
    have isPage : page = page' :=
      Slabs.page2kva_inj (Nat.add_right_cancel (sMem.symm.trans placed.sMem))
    subst isPage
    exact (placed.tags q low high).1
  · have noSlab := inv.no_slab (fun b isClient => by simp [clients, none] at isClient) rfl
    refine ⟨noSlab, fun q => ?_⟩
    have unmarked : h.slabs.pageSlab q = false := by
      rw [Bool.eq_false_iff]
      intro isSlab
      obtain ⟨c, t, mem, _⟩ := inv.tagged q isSlab
      rw [noSlab c] at mem
      cases mem
    rw [pages, unmarked, Bool.not_false, Bool.and_true]

/-- The caches of `slab_init`, with the first pages free. -/
def boot (npage : Nat) : Slabs where
  cache := bootCache
  slabsFull := fun _ => []
  slabsNotfull := fun _ => []
  slab := fun _ => ⟨0, 0, 0, 0, fun _ => 0⟩
  pageSlab := fun _ => false
  pageCache := fun _ => 0
  pageSlabp := fun _ => 0
  free := fun q => decide (q < npage)
  npage := npage
  grants := []

theorem boot_booted (npage : Nat) : Booted (boot npage) := by
  refine ⟨⟨bootCaches, slabInit_eq, fun c known => ?_⟩, fun _ => rfl, fun _ => rfl⟩
  change bootCaches[c]? = some (bootCaches.getD c _)
  rw [List.getD_eq_getElem?_getD]
  have isSome : bootCaches[c]? = some bootCaches[c] := List.getElem?_eq_getElem known
  rw [isSome]
  rfl

/-- Two objects of 512 bytes are taken from one slab, whose control part takes an object of another;
one is given back while the rest of the kernel holds a page. -/
def twoObjects : List Call :=
  [.kmalloc 500 [some 0, some 1], .kmalloc 512 [], .allocPages 1 [some 2], .kfree (page2kva 0)]

theorem kmalloc_sound_twoObjects :
    ∃ h, Run.exec step (start (boot 3)) twoObjects = .ok h ∧ Sound h :=
  kmalloc_sound (boot_booted 3) (by decide +kernel)

/-- Nothing is lost: what is allocated is what callers hold and the control parts for it, and when
they hold nothing, all pages are back. -/
theorem kmalloc_accounts (booted : Booted s) {calls : List Call}
    (along : Run.Along step Allowed (start s) calls)
    (run : Run.exec step (start s) calls = .ok h) : Accounts s.free h := by
  obtain ⟨h', run', good⟩ := Run.exec_ok_along (fun _ _ good allowed => good.step allowed)
    booted.good along
  cases run.symm.trans run'
  exact good.accounts

theorem kmalloc_accounts_twoObjects :
    ∃ h, Run.exec step (start (boot 3)) (twoObjects ++ [.kfree (page2kva 0 + 512)]) = .ok h ∧
      h.held = [] ∧ Accounts (boot 3).free h := by
  obtain ⟨h, run, empty⟩ : ∃ h, Run.exec step (start (boot 3))
      (twoObjects ++ [.kfree (page2kva 0 + 512)]) = .ok h ∧ h.held = [] :=
    Run.exec_of_decide (fun h : Heap => h.held = []) (by decide +kernel)
  exact ⟨h, run, empty, kmalloc_accounts (boot_booted 3) (by decide +kernel) run⟩

/-! ## What callers rely on -/

/-- An object with room for what was asked for lies in the pages of a slab, behind the control part
where that is in them too. -/
def Lodges (s : Slabs) (x : Addr × Nat) : Prop :=
  ∃ c, ∃ t ∈ s.slabs c, ∃ page, s.Placed c t page ∧
    (∃ i < (s.cache c).num, x.1 = s.obj c t i) ∧ x.2 ≤ (s.cache c).objsize ∧
    ((s.cache c).offSlab = false → t + (s.cache c).controlSize ≤ x.1) ∧
    page2kva page ≤ x.1 ∧ x.1 + (s.cache c).objsize ≤ page2kva (page + (s.cache c).pages)

/-- The objects that callers hold have their places in slabs and meet no other object and no control
part.  Each slab has its chain through the places that are nobody's, and is among the full ones when
all its places are somebody's.  What is allocated are the objects and the control parts that are
objects themselves, and nothing is left of it without a caller. -/
structure Serves (base : Nat → Bool) (h : Heap) : Prop where
  lodges : ∀ x ∈ h.held, Lodges h.slabs x
  apart : (h.objects ++ h.controls).Pairwise Apart
  chains : ∀ c, ∀ t ∈ h.slabs.slabs c, ∃ idle,
    FreePlaces (h.slabs.slab t).bufctl bufctlEnd (h.slabs.cache c).num (h.slabs.slab t).free idle ∧
      (h.slabs.slab t).inuse + idle.length = (h.slabs.cache c).num ∧
      ∀ i < (h.slabs.cache c).num, i ∈ idle ↔ h.slabs.obj c t i ∉ h.blocks.map Prod.fst
  full : ∀ c, ∀ t ∈ h.slabs.slabs c,
    t ∈ h.slabs.slabsFull c ↔ (h.slabs.slab t).inuse = (h.slabs.cache c).num
  allocated : h.slabs.slabAllocated = (h.held.map fun x => granted x.2).sum +
    ∑ c ∈ Finset.range slabCacheNum, h.slabs.controlOf c
  released : h.held = [] → (∀ c, h.slabs.slabs c = []) ∧
    ∀ q, h.slabs.pageSlab q = false ∧ h.slabs.free q = (base q && !h.hand q)

theorem Good.lodges (good : Good base h) {x : Addr × Nat} (mem : x ∈ h.held) :
    Lodges h.slabs x := by
  obtain ⟨live, inv, _⟩ := good.serves
  obtain ⟨c, t, there, i, inBounds, isObj, enough, _⟩ := good.object inv mem
  obtain ⟨page, placed⟩ := inv.placed c t there
  have fits := inv.fits c (inv.known c t there)
  obtain ⟨low, high⟩ := placed.obj_bounds fits inBounds
  refine ⟨c, t, there, page, placed, ⟨i, inBounds, isObj⟩, enough, fun on => ?_, ?_, ?_⟩
  · rw [isObj]
    exact (placed.front_bounds fits on).2.1.trans low
  · rw [isObj]
    exact (Nat.le_add_right ..).trans low
  · rw [isObj]
    exact high

theorem Good.servesAll (good : Good base h) : Serves base h := by
  have accounts := good.accounts
  refine ⟨fun x mem => good.lodges mem, good.apart, fun c t mem => good.chain mem,
    fun c t mem => good.filed.mem_full mem, accounts.allocated, fun none => ?_⟩
  obtain ⟨noSlab, free⟩ := accounts.empty none
  refine ⟨noSlab, fun q => ⟨?_, free q⟩⟩
  rw [Bool.eq_false_iff]
  intro isSlab
  obtain ⟨c, t, mem, _⟩ := (accounts.marked q).mp isSlab
  rw [noSlab c] at mem
  cases mem

/-- No call stops, and after every run the objects are served. -/
theorem kmalloc_serves (booted : Booted s) {calls : List Call}
    (along : Run.Along step Allowed (start s) calls) :
    ∃ h, Run.exec step (start s) calls = .ok h ∧ Serves s.free h := by
  obtain ⟨h, run, good⟩ := Run.exec_ok_along (fun _ _ good allowed => good.step allowed)
    booted.good along
  exact ⟨h, run, good.servesAll⟩

/-- An object on its slab, one whose slab has its control part elsewhere, and one of eight pages. -/
theorem kmalloc_serves_mixed : ∃ h, Run.exec step (start (boot 16))
    [.kmalloc 20 [some 0], .kmalloc 513 [some 1, some 2], .kmalloc 20000 [some 8],
      .kfree (page2kva 0 + 480)] = .ok h ∧ Serves (boot 16).free h :=
  kmalloc_serves (boot_booted 16) (by decide +kernel)

end Heap

end EdfKernel.Mm.Slab
