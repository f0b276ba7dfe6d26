import EdfKernel.Library.IndexChain
import EdfKernel.Mm.Slab

/-!
# The invariant of the slab allocator

Every slab has its own pages, marked with it, and a chain through the places of its objects that
are not in use.  An object in use is somebody's, or it is the `slab_t` of a slab that keeps its
control part elsewhere.
-/

namespace EdfKernel.Mm.Slab

open Library

/-- Who uses an object. -/
inductive Owner
  | client
  /-- it is the `slab_t` of a slab of the cache -/
  | control (c : Cachep)
  deriving DecidableEq, Repr

/-- The bytes of a `slab_t` with its array. -/
def KmemCache.controlSize (k : KmemCache) : Nat := sizeofSlab + k.num * sizeofBufctl

/-- The number of pages of a slab. -/
def KmemCache.pages (k : KmemCache) : Nat := 1 <<< k.pageOrder

/-- What the sizes of a cache have to do with each other. -/
structure KmemCache.Fits (cache : Cachep → KmemCache) (k : KmemCache) : Prop where
  objsize : 0 < k.objsize
  num : 0 < k.num ∧ k.num ≤ bufctlEnd
  room : k.offset + k.num * k.objsize ≤ k.pages * pgSize
  onSlab : k.offSlab = false → k.controlSize ≤ k.offset
  offSlab : k.offSlab = true → k.slabCachep < slabCacheNum ∧
    (cache k.slabCachep).offSlab = false ∧ k.controlSize ≤ (cache k.slabCachep).objsize

/-- The sizes of all caches are right. -/
def CachesFit (cache : Cachep → KmemCache) : Prop :=
  ∀ c < slabCacheNum, (cache c).Fits cache

namespace Slabs

variable {s s' : Slabs} {base hand : Nat → Bool} {live live' : Addr → Option Owner}
  {c c' : Cachep} {slabp t a : Addr} {page i j q : Nat} {idle : List Nat} {fresh : Option Addr}

/-- The object at a place of a slab. -/
def obj (s : Slabs) (c : Cachep) (slabp : Addr) (i : Nat) : Nat :=
  (s.slab slabp).sMem + i * (s.cache c).objsize

/-- The slab lies in pages of its own, which lead back to it. -/
structure Placed (s : Slabs) (c : Cachep) (slabp : Addr) (page : Nat) : Prop where
  sMem : (s.slab slabp).sMem = page2kva page + (s.cache c).offset
  offset : (s.slab slabp).offset = (s.cache c).offset
  room : page + (s.cache c).pages ≤ s.npage
  tags : ∀ q, page ≤ q → q < page + (s.cache c).pages →
    s.pageSlab q = true ∧ s.pageCache q = c ∧ s.pageSlabp q = slabp
  onSlab : (s.cache c).offSlab = false → slabp = page2kva page

/-- The chain of the slab runs through the places that are not in use. -/
structure Stocked (s : Slabs) (live : Addr → Option Owner) (c : Cachep) (slabp : Addr)
    (idle : List Nat) : Prop where
  places : FreePlaces (s.slab slabp).bufctl bufctlEnd (s.cache c).num (s.slab slabp).free idle
  inuse : (s.slab slabp).inuse + idle.length = (s.cache c).num
  idle_iff : ∀ i < (s.cache c).num, i ∈ idle ↔ live (s.obj c slabp i) = none

/-- Each slab has its pages and its chain, each object in use belongs to a slab, and the pages that
are not free are those of slabs and those in hand. -/
structure Inv (s : Slabs) (base : Nat → Bool) (live : Addr → Option Owner) (hand : Nat → Bool)
    (fresh : Option Addr) : Prop where
  fits : CachesFit s.cache
  known : ∀ c, ∀ slabp ∈ s.slabs c, c < slabCacheNum
  placed : ∀ c, ∀ slabp ∈ s.slabs c, ∃ page, s.Placed c slabp page
  stocked : ∀ c, ∀ slabp ∈ s.slabs c, ∃ idle, s.Stocked live c slabp idle
  busy : ∀ c, ∀ slabp ∈ s.slabs c, some slabp ≠ fresh → 0 < (s.slab slabp).inuse
  objects : ∀ a, live a ≠ none → ∃ c, ∃ slabp ∈ s.slabs c, ∃ i < (s.cache c).num,
    a = s.obj c slabp i
  controls : ∀ c, ∀ slabp ∈ s.slabs c, (s.cache c).offSlab = true →
    live slabp = some (.control c) ∧ ∃ t ∈ s.slabs (s.cache c).slabCachep,
      ∃ i < (s.cache (s.cache c).slabCachep).num, slabp = s.obj (s.cache c).slabCachep t i
  controlled : ∀ a c, live a = some (.control c) → a ∈ s.slabs c ∧ (s.cache c).offSlab = true
  tagged : ∀ q, s.pageSlab q = true → ∃ c, ∃ slabp ∈ s.slabs c, ∃ page, s.Placed c slabp page ∧
    page ≤ q ∧ q < page + (s.cache c).pages
  frees : ∀ q, s.free q = true ↔ base q = true ∧ s.pageSlab q = false ∧ hand q = false
  taken : ∀ q, s.pageSlab q = true → base q = true
  inHand : ∀ q, hand q = true → base q = true ∧ s.pageSlab q = false

/-- The slabs are in the lists where they belong. -/
structure Filed (s : Slabs) : Prop where
  nodup : ∀ c, (s.slabs c).Nodup
  full : ∀ c, ∀ slabp ∈ s.slabsFull c, (s.slab slabp).inuse = (s.cache c).num
  notfull : ∀ c, ∀ slabp ∈ s.slabsNotfull c, (s.slab slabp).inuse < (s.cache c).num

/-! ## Where objects are -/

theorem page2kva_add (page n : Nat) : page2kva (page + n) = page2kva page + n * pgSize := by
  unfold page2kva
  rw [Nat.add_mul]
  omega

theorem page2kva_inj {page page' : Nat} (same : page2kva page = page2kva page') : page = page' := by
  unfold page2kva pgSize at same
  omega

/-- A slab has a page. -/
theorem pages_pos (k : KmemCache) : 0 < k.pages := by
  rw [KmemCache.pages, Nat.one_shiftLeft]
  exact Nat.two_pow_pos _

/-- An object lies in the pages of its slab. -/
theorem Placed.obj_bounds (placed : s.Placed c slabp page) (fits : (s.cache c).Fits s.cache)
    (inBounds : i < (s.cache c).num) :
    page2kva page + (s.cache c).offset ≤ s.obj c slabp i ∧
      s.obj c slabp i + (s.cache c).objsize ≤ page2kva (page + (s.cache c).pages) := by
  have room := fits.room
  have step : (i + 1) * (s.cache c).objsize ≤ (s.cache c).num * (s.cache c).objsize :=
    Nat.mul_le_mul_right _ inBounds
  rw [Nat.succ_mul] at step
  rw [page2kva_add, obj, placed.sMem]
  constructor <;> omega

/-- The page of a byte in the pages of a slab. -/
theorem Placed.byte_page {a : Nat} (placed : s.Placed c slabp page) (low : page2kva page ≤ a)
    (high : a < page2kva (page + (s.cache c).pages)) :
    ∃ q, page ≤ q ∧ q < page + (s.cache c).pages ∧ s.kva2page a = .ok q := by
  have room := placed.room
  unfold page2kva at low high
  have above : kernBase ≤ a := by omega
  have first : page ≤ (a - kernBase) / pgSize := by
    rw [Nat.le_div_iff_mul_le (by decide)]
    omega
  have last : (a - kernBase) / pgSize < page + (s.cache c).pages := by
    rw [Nat.div_lt_iff_lt_mul (by decide)]
    omega
  exact ⟨_, first, last, if_pos ⟨above, last.trans_le room⟩⟩

/-- The page of an object is one of its slab's. -/
theorem Placed.obj_page (placed : s.Placed c slabp page) (fits : (s.cache c).Fits s.cache)
    (inBounds : i < (s.cache c).num) : ∃ q, page ≤ q ∧ q < page + (s.cache c).pages ∧
      s.kva2page (s.obj c slabp i) = .ok q := by
  obtain ⟨low, high⟩ := placed.obj_bounds fits inBounds
  have size := fits.objsize
  exact placed.byte_page (a := s.obj c slabp i) (by omega) (by omega)

namespace Inv

variable (inv : s.Inv base live hand fresh)

include inv

/-- A slab belongs to one cache. -/
theorem cache_eq (mem : slabp ∈ s.slabs c) (mem' : slabp ∈ s.slabs c') : c = c' := by
  obtain ⟨page, placed⟩ := inv.placed c slabp mem
  obtain ⟨page', placed'⟩ := inv.placed c' slabp mem'
  have some := pages_pos (s.cache c)
  have some' := pages_pos (s.cache c')
  have same : page = page' := by
    have start := placed.sMem.symm.trans placed'.sMem
    rw [← placed.offset, placed'.offset] at start
    exact page2kva_inj (Nat.add_right_cancel start)
  subst same
  exact (placed.tags page (Nat.le_refl _) (by omega)).2.1.symm.trans
    (placed'.tags page (Nat.le_refl _) (by omega)).2.1

/-- An object belongs to one place of one slab. -/
theorem obj_inj (mem : slabp ∈ s.slabs c) (inBounds : i < (s.cache c).num)
    (mem' : t ∈ s.slabs c') (inBounds' : j < (s.cache c').num)
    (same : s.obj c slabp i = s.obj c' t j) : c = c' ∧ slabp = t ∧ i = j := by
  obtain ⟨page, placed⟩ := inv.placed c slabp mem
  obtain ⟨page', placed'⟩ := inv.placed c' t mem'
  have fits := inv.fits c (inv.known c slabp mem)
  obtain ⟨q, low, high, isPage⟩ := placed.obj_page fits inBounds
  obtain ⟨q', low', high', isPage'⟩ := placed'.obj_page (inv.fits c' (inv.known c' t mem')) inBounds'
  rw [same, isPage'] at isPage
  cases isPage
  obtain ⟨_, isCache, isSlab⟩ := placed.tags q low high
  obtain ⟨_, isCache', isSlab'⟩ := placed'.tags q low' high'
  have caches : c = c' := isCache.symm.trans isCache'
  have slabs : slabp = t := isSlab.symm.trans isSlab'
  subst caches slabs
  refine ⟨rfl, rfl, ?_⟩
  exact Nat.eq_of_mul_eq_mul_right fits.objsize (Nat.add_left_cancel same)

end Inv

/-! ## One slab at work -/

/-- The slabs are where they were, and their pages are marked as before. -/
structure Stays (s s' : Slabs) : Prop where
  cache : s'.cache = s.cache
  npage : s'.npage = s.npage
  pageSlab : s'.pageSlab = s.pageSlab
  pageCache : s'.pageCache = s.pageCache
  pageSlabp : s'.pageSlabp = s.pageSlabp
  mem : ∀ c t, t ∈ s'.slabs c ↔ t ∈ s.slabs c
  fields : ∀ t, (s'.slab t).sMem = (s.slab t).sMem ∧ (s'.slab t).offset = (s.slab t).offset

namespace Stays

variable (stays : s.Stays s')

include stays

theorem obj (c : Cachep) (t : Addr) (i : Nat) : s'.obj c t i = s.obj c t i := by
  rw [Slabs.obj, Slabs.obj, (stays.fields t).1, stays.cache]

theorem placed {c : Cachep} {t : Addr} (placed : s.Placed c t page) : s'.Placed c t page := by
  obtain ⟨sMem, offset⟩ := stays.fields t
  refine ⟨?_, ?_, ?_, ?_, ?_⟩
  · rw [sMem, stays.cache]
    exact placed.sMem
  · rw [offset, stays.cache]
    exact placed.offset
  · rw [stays.cache, stays.npage]
    exact placed.room
  · rw [stays.cache, stays.pageSlab, stays.pageCache, stays.pageSlabp]
    exact placed.tags
  · rw [stays.cache]
    exact placed.onSlab

/-- A slab that has not been at work keeps its chain. -/
theorem stocked (stocked : s.Stocked live c t idle) (slab : s'.slab t = s.slab t)
    (same : ∀ i < (s.cache c).num, live' (s.obj c t i) = live (s.obj c t i)) :
    s'.Stocked live' c t idle := by
  refine ⟨?_, ?_, fun i inBounds => ?_⟩
  · rw [slab, stays.cache]
    exact stocked.places
  · rw [slab, stays.cache]
    exact stocked.inuse
  · rw [stays.cache] at inBounds
    rw [stays.obj, same i inBounds]
    exact stocked.idle_iff i inBounds

end Stays

/-- Only the counters and the chain of one slab have changed, and the order of the lists. -/
structure Works (s s' : Slabs) (slabp : Addr) : Prop extends Stays s s' where
  free : s'.free = s.free
  other : ∀ t, t ≠ slabp → s'.slab t = s.slab t

/-- A change to the counters and the chain of a slab. -/
theorem modify_works {change : SlabT → SlabT}
    (same : ∀ t, (change t).sMem = t.sMem ∧ (change t).offset = t.offset) :
    s.Works (s.modify slabp change) slabp := by
  refine ⟨⟨rfl, rfl, rfl, rfl, rfl, fun _ _ => Iff.rfl, fun t => ?_⟩, rfl, fun t ne => ?_⟩
  · by_cases own : t = slabp
    · subst own
      simpa [modify] using same (s.slab t)
    · simp [modify, Function.update_of_ne own]
  · exact Function.update_of_ne ne ..

/-- The slabs of a cache are filed anew. -/
theorem Works.refile {s'' : Slabs} (works : s.Works s' slabp)
    (mem : ∀ {c t}, t ∈ s''.slabs c ↔ t ∈ s'.slabs c) (cache : s''.cache = s'.cache)
    (npage : s''.npage = s'.npage) (pageSlab : s''.pageSlab = s'.pageSlab)
    (pageCache : s''.pageCache = s'.pageCache) (pageSlabp : s''.pageSlabp = s'.pageSlabp)
    (slab : s''.slab = s'.slab) (free : s''.free = s'.free) : s.Works s'' slabp := by
  refine ⟨⟨cache.trans works.cache, npage.trans works.npage, pageSlab.trans works.pageSlab,
    pageCache.trans works.pageCache, pageSlabp.trans works.pageSlabp,
    fun c t => mem.trans (works.mem c t), ?_⟩, free.trans works.free, ?_⟩
  · rw [slab]
    exact works.fields
  · rw [slab]
    exact works.other

/-- Pages have been taken into hand or given back, and nothing else has changed. -/
theorem Inv.pages {hand' : Nat → Bool} (inv : s.Inv base live hand fresh) (stays : s.Stays s')
    (slab : s'.slab = s.slab)
    (frees : ∀ q, s'.free q = true ↔ base q = true ∧ s'.pageSlab q = false ∧ hand' q = false)
    (inHand : ∀ q, hand' q = true → base q = true ∧ s'.pageSlab q = false) :
    s'.Inv base live hand' fresh := by
  refine ⟨?_, ?_, ?_, ?_, ?_, ?_, ?_, ?_, ?_, frees, ?_, inHand⟩
  · rw [CachesFit, stays.cache]
    exact inv.fits
  · intro c t there
    exact inv.known c t ((stays.mem c t).mp there)
  · intro c t there
    obtain ⟨page, placed⟩ := inv.placed c t ((stays.mem c t).mp there)
    exact ⟨page, stays.placed placed⟩
  · intro c t there
    obtain ⟨idle, stocked⟩ := inv.stocked c t ((stays.mem c t).mp there)
    exact ⟨idle, stays.stocked stocked (by rw [slab]) fun _ _ => rfl⟩
  · rw [slab]
    intro c t there
    exact inv.busy c t ((stays.mem c t).mp there)
  · intro b isLive
    obtain ⟨c, t, there, i, inBounds, isObj⟩ := inv.objects b isLive
    refine ⟨c, t, (stays.mem c t).mpr there, i, ?_, isObj.trans (stays.obj c t i).symm⟩
    rw [stays.cache]
    exact inBounds
  · intro c t there offSlab
    rw [stays.cache] at offSlab ⊢
    obtain ⟨control, u, there', j, inBounds, isObj⟩ :=
      inv.controls c t ((stays.mem c t).mp there) offSlab
    exact ⟨control, u, (stays.mem _ u).mpr there', j, inBounds,
      isObj.trans (stays.obj _ u j).symm⟩
  · intro b c control
    rw [stays.mem, stays.cache]
    exact inv.controlled b c control
  · rw [stays.pageSlab]
    intro q isSlab
    obtain ⟨c, t, there, page, placed, low, high⟩ := inv.tagged q isSlab
    rw [← stays.cache] at high
    exact ⟨c, t, (stays.mem c t).mpr there, page, stays.placed placed, low, high⟩
  · rw [stays.pageSlab]
    exact inv.taken

/-- An object of the slab gets an owner, or loses the client that it had. -/
theorem Inv.works {owner : Option Owner} {fresh' : Option Addr}
    (inv : s.Inv base live hand fresh) (works : s.Works s' slabp) (mem : slabp ∈ s.slabs c)
    (inBounds : i < (s.cache c).num) (plain : ∀ c', live (s.obj c slabp i) ≠ some (.control c'))
    (plain' : ∀ c', owner ≠ some (.control c'))
    (stocked : ∃ idle, s'.Stocked (Function.update live (s.obj c slabp i) owner) c slabp idle)
    (busy : some slabp ≠ fresh' → 0 < (s'.slab slabp).inuse)
    (only : ∀ t, t ≠ slabp → some t ≠ fresh' → some t ≠ fresh) :
    s'.Inv base (Function.update live (s.obj c slabp i) owner) hand fresh' := by
  have same : ∀ b, b ≠ s.obj c slabp i →
      Function.update live (s.obj c slabp i) owner b = live b := fun b ne =>
    Function.update_of_ne ne ..
  refine ⟨?_, ?_, ?_, ?_, ?_, ?_, ?_, ?_, ?_, ?_, ?_, ?_⟩
  · rw [CachesFit, works.cache]
    exact inv.fits
  · intro c' t there
    exact inv.known c' t ((works.mem c' t).mp there)
  · intro c' t there
    obtain ⟨page, placed⟩ := inv.placed c' t ((works.mem c' t).mp there)
    exact ⟨page, works.placed placed⟩
  · intro c' t there
    have before := (works.mem c' t).mp there
    by_cases own : t = slabp
    · subst own
      have isCache := inv.cache_eq mem before
      subst isCache
      exact stocked
    · obtain ⟨idle, old⟩ := inv.stocked c' t before
      refine ⟨idle, works.stocked old (works.other t own) fun j inBounds' => same _ ?_⟩
      intro isObj
      exact own (inv.obj_inj before inBounds' mem inBounds isObj).2.1
  · intro c' t there notFresh
    by_cases own : t = slabp
    · subst own
      exact busy notFresh
    · rw [works.other t own]
      exact inv.busy c' t ((works.mem c' t).mp there) (only t own notFresh)
  · intro b isLive
    by_cases own : b = s.obj c slabp i
    · refine ⟨c, slabp, (works.mem c slabp).mpr mem, i, ?_, own.trans (works.obj c slabp i).symm⟩
      rw [works.cache]
      exact inBounds
    · rw [same b own] at isLive
      obtain ⟨c', t, there, j, inBounds', isObj⟩ := inv.objects b isLive
      refine ⟨c', t, (works.mem c' t).mpr there, j, ?_, isObj.trans (works.obj c' t j).symm⟩
      rw [works.cache]
      exact inBounds'
  · intro c' t there offSlab
    rw [works.cache] at offSlab ⊢
    obtain ⟨control, u, there', j, inBounds', isObj⟩ :=
      inv.controls c' t ((works.mem c' t).mp there) offSlab
    refine ⟨?_, u, (works.mem _ u).mpr there', j, inBounds',
      isObj.trans (works.obj _ u j).symm⟩
    rw [same]
    · exact control
    · rintro rfl
      exact plain c' control
  · intro b c' control
    by_cases own : b = s.obj c slabp i
    · rw [own, Function.update_self] at control
      exact absurd control (plain' c')
    · rw [same b own] at control
      rw [works.mem, works.cache]
      exact inv.controlled b c' control
  · rw [works.pageSlab]
    intro q isSlab
    obtain ⟨c', t, there, page, placed, low, high⟩ := inv.tagged q isSlab
    rw [← works.cache] at high
    exact ⟨c', t, (works.mem c' t).mpr there, page, works.placed placed, low, high⟩
  · rw [works.free, works.pageSlab]
    exact inv.frees
  · rw [works.pageSlab]
    exact inv.taken
  · rw [works.pageSlab]
    exact inv.inHand

end Slabs

end EdfKernel.Mm.Slab
