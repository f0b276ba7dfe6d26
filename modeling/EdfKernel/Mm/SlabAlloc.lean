import EdfKernel.Mm.SlabLists

/-!
# Allocation from slabs

An object comes from the first slab that has one, or from a new slab.  A slab that keeps its control
part elsewhere allocates an object for it first, from a cache whose slabs keep theirs inside.
-/

namespace EdfKernel.Mm.Slab

open Library

namespace Slabs

variable {s s' : Slabs} {base hand : Nat → Bool} {live : Addr → Option Owner} {c c' : Cachep}
  {slabp t a : Addr} {page i n : Nat} {fresh : Option Addr}

/-! ## An object of a slab -/

/-- The counters of the slab, and perhaps its list, when an object is taken. -/
theorem allocOne_works (nodup : (s.slabs c).Nodup) (mem : slabp ∈ s.slabs c) :
    s.Works (s.kmemCacheAllocOne c slabp).2 slabp ∧
      ∀ c', ((s.kmemCacheAllocOne c slabp).2.slabs c').Perm (s.slabs c') := by
  have first : s.Works (s.modify slabp fun t =>
      { t with inuse := t.inuse + 1, free := t.bufctl t.free }) slabp :=
    modify_works fun _ => ⟨rfl, rfl⟩
  unfold kmemCacheAllocOne
  simp only
  split
  · have perm := fun c' => @addFull_perm (s.modify slabp fun t =>
      { t with inuse := t.inuse + 1, free := t.bufctl t.free }) c slabp nodup mem c'
    exact ⟨first.refile (perm _).mem_iff rfl rfl rfl rfl rfl rfl rfl, perm⟩
  · exact ⟨first, fun _ => .refl _⟩

/-- The slab after an object has been taken. -/
theorem allocOne_slab : (s.kmemCacheAllocOne c slabp).2.slab slabp =
    { s.slab slabp with
      inuse := (s.slab slabp).inuse + 1
      free := (s.slab slabp).bufctl (s.slab slabp).free } := by
  unfold kmemCacheAllocOne
  simp only
  split <;> simp [modify, addFull, listDel]

/-- A slab without a free place is put with the full ones. -/
theorem allocOne_lists : (s.kmemCacheAllocOne c slabp).2.slabsFull =
      (if (s.slab slabp).bufctl (s.slab slabp).free = bufctlEnd then
        Function.update s.slabsFull c (slabp :: (s.slabsFull c).erase slabp) else s.slabsFull) ∧
    (s.kmemCacheAllocOne c slabp).2.slabsNotfull =
      (if (s.slab slabp).bufctl (s.slab slabp).free = bufctlEnd then
        Function.update s.slabsNotfull c ((s.slabsNotfull c).erase slabp) else s.slabsNotfull) := by
  unfold kmemCacheAllocOne
  simp only [modify, Function.update_self]
  split <;> simp [addFull, listDel]

/-- `kmem_cache_alloc_one`, for a slab that is not full. -/
theorem allocOne_spec (inv : s.Inv base live hand fresh) (filed : s.Filed)
    (mem : slabp ∈ s.slabsNotfull c) (only : ∀ t, fresh = some t → t = slabp) :
    ∃ i < (s.cache c).num, (s.kmemCacheAllocOne c slabp).1 = s.obj c slabp i ∧
      live (s.obj c slabp i) = none ∧ s.Works (s.kmemCacheAllocOne c slabp).2 slabp ∧
      (s.kmemCacheAllocOne c slabp).2.Inv base
        (Function.update live (s.obj c slabp i) (some .client)) hand none ∧
      (s.kmemCacheAllocOne c slabp).2.Filed ∧
      (s.kmemCacheAllocOne c slabp).2.clientTotal = s.clientTotal + (s.cache c).objsize := by
  have there : slabp ∈ s.slabs c := List.mem_append_right _ mem
  have room := filed.notfull c slabp mem
  obtain ⟨works, perm⟩ := allocOne_works (filed.nodup c) there
  have isSlab := @allocOne_slab s c slabp
  obtain ⟨isFull, isNotfull⟩ := @allocOne_lists s c slabp
  obtain ⟨idle, stocked⟩ := inv.stocked c slabp there
  have places := stocked.places
  have inuse := stocked.inuse
  have idle_iff := stocked.idle_iff
  cases idle with
  | nil =>
      rw [List.length_nil] at inuse
      omega
  | cons i rest =>
      obtain ⟨isFirst, left⟩ := places.take
      have inBounds : i < (s.cache c).num := places.below i List.mem_cons_self
      have isNone : live (s.obj c slabp i) = none :=
        (idle_iff i inBounds).mp List.mem_cons_self
      have isObj : (s.kmemCacheAllocOne c slabp).1 = s.obj c slabp i := by
        unfold kmemCacheAllocOne obj
        simp only [isFirst]
      rw [List.length_cons] at inuse
      have stocked' : (s.kmemCacheAllocOne c slabp).2.Stocked
          (Function.update live (s.obj c slabp i) (some .client)) c slabp rest := by
        refine ⟨?_, ?_, fun j inBounds' => ?_⟩
        · rw [isSlab, works.cache, isFirst]
          exact left
        · rw [isSlab, works.cache]
          simp only
          omega
        · rw [works.cache] at inBounds'
          rw [works.obj]
          by_cases own : j = i
          · subst own
            rw [Function.update_self]
            simp [(List.nodup_cons.mp places.nodup).1]
          · rw [Function.update_of_ne, ← idle_iff j inBounds', List.mem_cons, or_iff_right own]
            intro same
            exact own (inv.obj_inj there inBounds' there inBounds same).2.2
      refine ⟨i, inBounds, isObj, isNone, works, ?_, ?_, ?_⟩
      · apply inv.works works there inBounds
        · rw [isNone]
          rintro _ ⟨⟩
        · rintro _ ⟨⟩
        · exact ⟨rest, stocked'⟩
        · intro _
          rw [isSlab]
          exact Nat.succ_pos _
        · intro t ne _ isFresh
          exact ne (only t isFresh.symm)
      · have only' : ∀ c', slabp ∈ s.slabs c' → c' = c := fun c' there' =>
          inv.cache_eq there' there
        have after : (s.kmemCacheAllocOne c slabp).2.slab slabp =
            { s.slab slabp with inuse := (s.slab slabp).inuse + 1, free := (s.slab slabp).bufctl i } := by
          rw [isSlab, isFirst]
        rw [isFirst] at isFull isNotfull
        apply works.filed filed perm
        · intro c' t' mem'
          rw [after]
          by_cases ended : (s.slab slabp).bufctl i = bufctlEnd
          · rw [isFull, if_pos ended] at mem'
            rcases mem_update_cons_erase (List.Nodup.of_append_left (filed.nodup c))
              (fun c'' mem'' => only' c'' (List.mem_append_left _ mem'')) mem' with old | ⟨rfl, rfl⟩
            · exact .inl old
            · have none := left.eq_nil_iff.mpr ended
              rw [none, List.length_nil] at inuse
              exact .inr ⟨rfl, by simpa using inuse⟩
          · rw [isFull, if_neg ended] at mem'
            refine .inl ⟨?_, mem'⟩
            rintro rfl
            have isCache := only' c' (List.mem_append_left _ mem')
            subst isCache
            exact List.disjoint_of_nodup_append (filed.nodup c') mem' mem
        · intro c' t' mem'
          rw [after]
          by_cases ended : (s.slab slabp).bufctl i = bufctlEnd
          · rw [isNotfull, if_pos ended] at mem'
            exact .inl ((mem_update_erase (List.Nodup.of_append_right (filed.nodup c))
              fun c'' mem'' => only' c'' (List.mem_append_right _ mem'')).mp mem').symm
          · rw [isNotfull, if_neg ended] at mem'
            by_cases own : t' = slabp
            · subst own
              have isCache := only' c' (List.mem_append_right _ mem')
              subst isCache
              have some : rest ≠ [] := fun none => ended (left.eq_nil_iff.mp none)
              have pos := List.length_pos_iff.mpr some
              exact .inr ⟨rfl, by simp only; omega⟩
            · exact .inl ⟨own, mem'⟩
      · rw [works.clientTotal_eq perm (filed.nodup c) there (inv.known c slabp there)
          fun c' there' => inv.cache_eq there' there, isSlab]
        simp only
        have one : (((s.slab slabp).inuse + 1 : Nat) : Int) - (s.slab slabp).inuse = 1 := by omega
        rw [one, Int.one_mul]

/-! ## Pages -/

/-- The pages of a run. -/
def run (page n : Nat) (q : Nat) : Bool := decide (page ≤ q ∧ q < page + n)

theorem run_eq_true_iff {q : Nat} : run page n q = true ↔ page ≤ q ∧ q < page + n :=
  decide_eq_true_iff

/-- Only the answers of the page allocator have been used up. -/
theorem Inv.grants (inv : s.Inv base live hand fresh) (grants : List (Option Nat)) :
    ({ s with grants := grants } : Slabs).Inv base live hand fresh :=
  inv.pages ⟨rfl, rfl, rfl, rfl, rfl, fun _ _ => Iff.rfl, fun _ => ⟨rfl, rfl⟩⟩ rfl inv.frees
    inv.inHand

theorem allocPages_none (answer : s.allocPages n = (none, s')) :
    ∃ grants, s' = { s with grants := grants } := by
  unfold allocPages at answer
  split at answer
  · split at answer
    · cases answer
    · cases answer
      exact ⟨_, rfl⟩
  · cases answer
    exact ⟨_, rfl⟩
  · cases answer
    exact ⟨s.grants, rfl⟩

/-- Pages that `alloc_pages` returns are in hand. -/
theorem allocPages_some (inv : s.Inv base live hand fresh)
    (answer : s.allocPages n = (some page, s')) :
    page + n ≤ s.npage ∧ (∀ q, run page n q = true → s.free q = true) ∧
      (∃ free grants, s' = { s with free := free, grants := grants }) ∧
      s'.Inv base live (fun q => hand q || run page n q) fresh := by
  unfold allocPages at answer
  split at answer
  · split at answer
    · rename_i rest isFree
      cases answer
      obtain ⟨room, isFree⟩ := isFree
      have free : ∀ q, run page n q = true → s.free q = true := by
        intro q inside
        obtain ⟨low, high⟩ := run_eq_true_iff.mp inside
        have there := isFree (q - page) (by omega)
        rwa [Nat.add_sub_cancel' low] at there
      refine ⟨room, free, ⟨_, _, rfl⟩, inv.pages
        ⟨rfl, rfl, rfl, rfl, rfl, fun _ _ => Iff.rfl, fun _ => ⟨rfl, rfl⟩⟩ rfl ?_ ?_⟩
      · intro q
        change (s.free q && !run page n q) = true ↔ _
        rw [Bool.and_eq_true, inv.frees q, Bool.not_eq_true', Bool.or_eq_false_iff, and_assoc,
          and_assoc]
      · intro q inside
        rcases Bool.or_eq_true_iff.mp inside with old | new
        · exact inv.inHand q old
        · obtain ⟨isBase, notSlab, _⟩ := (inv.frees q).mp (free q new)
          exact ⟨isBase, notSlab⟩
    · cases answer
  · cases answer
  · cases answer

/-- Pages in hand are given back. -/
theorem freePages_spec (inv : s.Inv base live (fun q => hand q || run page n q) fresh)
    (apart : ∀ q, run page n q = true → hand q = false) :
    ∃ s', s.freePages page n = .ok s' ∧ (∃ free, s' = { s with free := free }) ∧
      s'.Inv base live hand fresh := by
  have taken : ∀ i < n, s.free (page + i) = false := by
    intro i inBounds
    have inside : run page n (page + i) = true := run_eq_true_iff.mpr ⟨by omega, by omega⟩
    rw [Bool.eq_false_iff]
    intro isFree
    have notInHand := ((inv.frees _).mp isFree).2.2
    rw [inside, Bool.or_true] at notInHand
    cases notInHand
  refine ⟨_, if_pos taken, ⟨_, rfl⟩, inv.pages
    ⟨rfl, rfl, rfl, rfl, rfl, fun _ _ => Iff.rfl, fun _ => ⟨rfl, rfl⟩⟩ rfl ?_ ?_⟩
  · intro q
    change (s.free q || run page n q) = true ↔ base q = true ∧ s.pageSlab q = false ∧ hand q = false
    rw [Bool.or_eq_true, inv.frees q]
    constructor
    · rintro (⟨isBase, notSlab, notInHand⟩ | inside)
      · exact ⟨isBase, notSlab, (Bool.or_eq_false_iff.mp notInHand).1⟩
      · obtain ⟨isBase, notSlab⟩ := inv.inHand q (by rw [inside, Bool.or_true])
        exact ⟨isBase, notSlab, apart q inside⟩
    · rintro ⟨isBase, notSlab, notInHand⟩
      by_cases inside : run page n q = true
      · exact .inr inside
      · refine .inl ⟨isBase, notSlab, ?_⟩
        rw [notInHand, Bool.false_or]
        exact Bool.eq_false_iff.mpr inside
  · intro q inside
    exact inv.inHand q (by rw [inside, Bool.true_or])

/-! ## A new slab -/

/-- A slab whose places are all free has been put in the pages. -/
structure Links (s s' : Slabs) (c : Cachep) (slabp : Addr) (page : Nat) : Prop where
  cache : s'.cache = s.cache
  npage : s'.npage = s.npage
  free : s'.free = s.free
  sMem : (s'.slab slabp).sMem = page2kva page + (s.cache c).offset
  offset : (s'.slab slabp).offset = (s.cache c).offset
  inuse : (s'.slab slabp).inuse = 0
  first : (s'.slab slabp).free = 0
  steps : ∀ i, i + 1 < (s.cache c).num → (s'.slab slabp).bufctl i = i + 1
  last : (s'.slab slabp).bufctl ((s.cache c).num - 1) = bufctlEnd
  other : ∀ t, t ≠ slabp → s'.slab t = s.slab t
  full : s'.slabsFull = s.slabsFull
  notfull : s'.slabsNotfull = Function.update s.slabsNotfull c (slabp :: s.slabsNotfull c)
  pageSlab : ∀ q, s'.pageSlab q = (s.pageSlab q || run page (s.cache c).pages q)
  pageCache : ∀ q, s'.pageCache q = if run page (s.cache c).pages q then c else s.pageCache q
  pageSlabp : ∀ q, s'.pageSlabp q = if run page (s.cache c).pages q then slabp else s.pageSlabp q

theorem Links.mem (links : s.Links s' c slabp page) (c' : Cachep) (t : Addr) :
    t ∈ s'.slabs c' ↔ t ∈ s.slabs c' ∨ c' = c ∧ t = slabp := by
  rw [slabs, slabs, links.full, links.notfull]
  by_cases own : c' = c
  · subst own
    simp [or_left_comm, or_comm]
  · simp [own]

/-- What the last lines of `kmem_cache_grow` do, after `kmem_cache_slabmgmt`. -/
theorem grow_links (some : 0 < (s.cache c).num) :
    s.Links (((((s.modify slabp fun t =>
        { t with
          inuse := 0
          offset := (s.cache c).offset
          sMem := page2kva page + (s.cache c).offset }).setPages c slabp page
            (s.cache c).pages).modify slabp fun t =>
        { t with bufctl := firstBufctl (s.cache c).num t.bufctl, free := 0 })).addNotfull c slabp)
      c slabp page := by
  have inside : ∀ q, (page ≤ q ∧ q < page + (s.cache c).pages) ↔
      run page (s.cache c).pages q = true := fun q => run_eq_true_iff.symm
  refine ⟨rfl, rfl, rfl, ?_, ?_, ?_, ?_, fun i below => ?_, ?_, fun t ne => ?_, rfl, rfl,
    fun q => ?_, fun q => ?_, fun q => ?_⟩
  · simp [addNotfull, modify, setPages]
  · simp [addNotfull, modify, setPages]
  · simp [addNotfull, modify, setPages]
  · simp [addNotfull, modify, setPages]
  · have notLast : i ≠ (s.cache c).num - 1 := by omega
    have isPlace : i < (s.cache c).num := by omega
    simp [addNotfull, modify, setPages, firstBufctl, Function.update_of_ne notLast, isPlace]
  · simp [addNotfull, modify, setPages, firstBufctl]
  · simp [addNotfull, modify, setPages, Function.update_of_ne ne]
  · simp only [addNotfull, modify, setPages, inside]
    cases run page (s.cache c).pages q <;> simp
  · simp only [addNotfull, modify, setPages, inside]
  · simp only [addNotfull, modify, setPages, inside]

/-- Where the `slab_t` of a new slab is: at the front of its pages, or in an object in hand. -/
structure Houses (s : Slabs) (live : Addr → Option Owner) (c : Cachep) (slabp : Addr) (page : Nat) :
    Prop where
  onSlab : (s.cache c).offSlab = false → slabp = page2kva page
  offSlab : (s.cache c).offSlab = true → live slabp = some .client ∧
    ∃ t ∈ s.slabs (s.cache c).slabCachep, ∃ i < (s.cache (s.cache c).slabCachep).num,
      slabp = s.obj (s.cache c).slabCachep t i

/-- The owners after a slab has got its `slab_t`. -/
def housed (s : Slabs) (live : Addr → Option Owner) (c : Cachep) (slabp : Addr) :
    Addr → Option Owner :=
  if (s.cache c).offSlab then Function.update live slabp (some (.control c)) else live

/-- The address of a page that is marked for no slab is no slab and no object. -/
theorem Inv.page_fresh (inv : s.Inv base live hand fresh) (notSlab : s.pageSlab page = false) :
    (∀ c', page2kva page ∉ s.slabs c') ∧ live (page2kva page) = none := by
  have notObj : ∀ c' t i, t ∈ s.slabs c' → i < (s.cache c').num →
      page2kva page ≠ s.obj c' t i := by
    intro c' t i there inBounds same
    obtain ⟨p, placed⟩ := inv.placed c' t there
    obtain ⟨q, low, high, isPage⟩ := placed.obj_page (inv.fits c' (inv.known c' t there)) inBounds
    rw [← same] at isPage
    unfold kva2page page2kva at isPage
    split at isPage
    · cases isPage
      rw [Nat.add_sub_cancel, Nat.mul_div_cancel _ (by decide)] at low high
      rw [(placed.tags page low high).1] at notSlab
      cases notSlab
    · cases isPage
  refine ⟨fun c' there => ?_, ?_⟩
  · cases off : (s.cache c').offSlab with
    | false =>
        obtain ⟨p, placed⟩ := inv.placed c' _ there
        have isPage : page = p := page2kva_inj (placed.onSlab off)
        subst isPage
        have some := pages_pos (s.cache c')
        rw [(placed.tags page (Nat.le_refl _) (by omega)).1] at notSlab
        cases notSlab
    | true =>
        obtain ⟨_, t, there', i, inBounds, isObj⟩ := inv.controls c' _ there off
        exact notObj _ t i there' inBounds isObj
  · by_contra isLive
    obtain ⟨c', t, there, i, inBounds, isObj⟩ := inv.objects _ isLive
    exact notObj c' t i there inBounds isObj

/-- An object of a cache that keeps its control parts inside is the `slab_t` of no slab that does. -/
theorem Inv.obj_notMem (inv : s.Inv base live hand fresh) (mem : t ∈ s.slabs c)
    (inside : (s.cache c).offSlab = false) (inBounds : i < (s.cache c).num)
    (inside' : (s.cache c').offSlab = false) : s.obj c t i ∉ s.slabs c' := by
  intro there
  have fits := inv.fits c (inv.known c t mem)
  obtain ⟨p, placed⟩ := inv.placed c t mem
  obtain ⟨p', placed'⟩ := inv.placed c' _ there
  obtain ⟨q, low, high, isPage⟩ := placed.obj_page fits inBounds
  have start := placed'.onSlab inside'
  have isPage' : q = p' := by
    rw [start] at isPage
    unfold kva2page page2kva at isPage
    split at isPage
    · cases isPage
      rw [Nat.add_sub_cancel, Nat.mul_div_cancel _ (by decide)]
    · cases isPage
  subst isPage'
  have some := pages_pos (s.cache c')
  have isSlab := (placed.tags q low high).2.2.symm.trans (placed'.tags q (Nat.le_refl _) (by omega)).2.2
  have atFront : s.obj c t i = page2kva p := isSlab.symm.trans (placed.onSlab inside)
  have bounds := (placed.obj_bounds fits inBounds).1
  rw [atFront] at bounds
  have control := fits.onSlab inside
  unfold KmemCache.controlSize sizeofSlab at control
  omega

theorem housed_self (off : (s.cache c).offSlab = true) :
    s.housed live c slabp slabp = some (.control c) := by
  rw [housed, if_pos off, Function.update_self]

theorem housed_of_ne {b : Addr} (ne : (s.cache c).offSlab = true → b ≠ slabp) :
    s.housed live c slabp b = live b := by
  unfold housed
  split
  · rename_i off
    exact Function.update_of_ne (ne off) ..
  · rfl

/-- A new slab is linked in. -/
theorem Inv.link (inv : s.Inv base live (fun q => hand q || run page (s.cache c).pages q) none)
    (links : s.Links s' c slabp page) (houses : s.Houses live c slabp page)
    (known : c < slabCacheNum) (room : page + (s.cache c).pages ≤ s.npage)
    (apart : ∀ q, run page (s.cache c).pages q = true → hand q = false) :
    (∀ c', slabp ∉ s.slabs c') ∧ s'.Inv base (s.housed live c slabp) hand (some slabp) := by
  have fits := inv.fits c known
  have some := pages_pos (s.cache c)
  have inRun : ∀ q, run page (s.cache c).pages q = true → base q = true ∧ s.pageSlab q = false :=
    fun q inside => inv.inHand q (by rw [inside, Bool.or_true])
  have notInRun : ∀ q, s.pageSlab q = true → run page (s.cache c).pages q = false := by
    intro q isSlab
    rw [Bool.eq_false_iff]
    intro inside
    rw [(inRun q inside).2] at isSlab
    cases isSlab
  have firstPage : s.pageSlab page = false :=
    (inRun page (run_eq_true_iff.mpr ⟨Nat.le_refl _, by omega⟩)).2
  -- the address of the new slab is that of no other slab
  have new : ∀ c', slabp ∉ s.slabs c' := by
    intro c' there
    cases off : (s.cache c).offSlab with
    | false => exact (inv.page_fresh firstPage).1 c' (houses.onSlab off ▸ there)
    | true =>
        obtain ⟨client, t, there', i, inBounds, isObj⟩ := houses.offSlab off
        cases off' : (s.cache c').offSlab with
        | false => exact inv.obj_notMem there' (fits.offSlab off).2.1 inBounds off' (isObj ▸ there)
        | true =>
            rw [(inv.controls c' slabp there off').1] at client
            cases client
  have old : ∀ c' t, t ∈ s.slabs c' → s'.slab t = s.slab t := by
    intro c' t there
    apply links.other
    rintro rfl
    exact new c' there
  have oldObj : ∀ c' t i, t ∈ s.slabs c' → s'.obj c' t i = s.obj c' t i := by
    intro c' t i there
    rw [obj, obj, old c' t there, links.cache]
  have oldPlaced : ∀ c' t p, t ∈ s.slabs c' → s.Placed c' t p → s'.Placed c' t p := by
    intro c' t p there placed
    refine ⟨?_, ?_, ?_, fun q low high => ?_, ?_⟩
    · rw [old c' t there, links.cache]
      exact placed.sMem
    · rw [old c' t there, links.cache]
      exact placed.offset
    · rw [links.cache, links.npage]
      exact placed.room
    · rw [links.cache] at high
      have tags := placed.tags q low high
      rw [links.pageSlab, links.pageCache, links.pageSlabp, notInRun q tags.1]
      exact ⟨by rw [tags.1, Bool.true_or], tags.2⟩
    · rw [links.cache]
      exact placed.onSlab
  have newPlaced : s'.Placed c slabp page := by
    refine ⟨?_, ?_, ?_, fun q low high => ?_, ?_⟩
    · rw [links.cache]
      exact links.sMem
    · rw [links.cache]
      exact links.offset
    · rw [links.cache, links.npage]
      exact room
    · rw [links.cache] at high
      have inside := run_eq_true_iff.mpr ⟨low, high⟩
      rw [links.pageSlab, links.pageCache, links.pageSlabp, inside]
      exact ⟨Bool.or_true _, rfl, rfl⟩
    · rw [links.cache]
      exact houses.onSlab
  have kva2page : s'.kva2page = s.kva2page := by
    funext kva
    rw [Slabs.kva2page, Slabs.kva2page, links.npage]
  -- its objects are no objects yet
  have apartObj : ∀ i < (s.cache c).num, ∀ c' t j, t ∈ s.slabs c' → j < (s.cache c').num →
      s'.obj c slabp i ≠ s.obj c' t j := by
    intro i inBounds c' t j there inBounds' same
    rw [← links.cache] at fits inBounds
    obtain ⟨q, low, high, isPage⟩ := newPlaced.obj_page fits inBounds
    obtain ⟨p, placed⟩ := inv.placed c' t there
    obtain ⟨q', low', high', isPage'⟩ :=
      placed.obj_page (inv.fits c' (inv.known c' t there)) inBounds'
    rw [same, kva2page, isPage'] at isPage
    cases isPage
    rw [links.cache] at high
    have isSlab := (placed.tags q low' high').1
    rw [(inRun q (run_eq_true_iff.mpr ⟨low, high⟩)).2] at isSlab
    cases isSlab
  have idle : ∀ i < (s.cache c).num, s.housed live c slabp (s'.obj c slabp i) = none := by
    intro i inBounds
    rw [housed_of_ne]
    · by_contra isLive
      obtain ⟨c', t, there, j, inBounds', isObj⟩ := inv.objects _ isLive
      exact apartObj i inBounds c' t j there inBounds' isObj
    · intro off same
      obtain ⟨_, t, there, j, inBounds', isObj⟩ := houses.offSlab off
      exact apartObj i inBounds _ t j there inBounds' (same.trans isObj)
  have live_eq : ∀ c' t i, t ∈ s.slabs c' → i < (s.cache c').num →
      (s.housed live c slabp (s.obj c' t i) = none ↔ live (s.obj c' t i) = none) := by
    intro c' t i there inBounds
    cases off : (s.cache c).offSlab with
    | false => rw [housed_of_ne (by rw [off]; rintro ⟨⟩)]
    | true =>
        by_cases own : s.obj c' t i = slabp
        · rw [own, housed_self off, (houses.offSlab off).1]
          simp
        · rw [housed_of_ne fun _ => own]
  refine ⟨new, ?_, ?_, ?_, ?_, ?_, ?_, ?_, ?_, ?_, ?_, ?_, ?_⟩
  · rw [CachesFit, links.cache]
    exact inv.fits
  · intro c' t there
    rcases (links.mem c' t).mp there with before | ⟨rfl, rfl⟩
    · exact inv.known c' t before
    · exact known
  · intro c' t there
    rcases (links.mem c' t).mp there with before | ⟨rfl, rfl⟩
    · obtain ⟨p, placed⟩ := inv.placed c' t before
      exact ⟨p, oldPlaced c' t p before placed⟩
    · exact ⟨page, newPlaced⟩
  · intro c' t there
    rcases (links.mem c' t).mp there with before | ⟨rfl, rfl⟩
    · obtain ⟨free, stocked⟩ := inv.stocked c' t before
      refine ⟨free, ?_, ?_, fun i inBounds => ?_⟩
      · rw [old c' t before, links.cache]
        exact stocked.places
      · rw [old c' t before, links.cache]
        exact stocked.inuse
      · rw [links.cache] at inBounds
        rw [oldObj c' t i before, live_eq c' t i before inBounds]
        exact stocked.idle_iff i inBounds
    · refine ⟨List.range (s.cache c').num, ?_, ?_, fun i inBounds => ?_⟩
      · rw [links.cache, links.first]
        exact .all fits.num.2 fits.num.1 links.steps links.last
      · rw [links.cache, links.inuse, List.length_range, Nat.zero_add]
      · rw [links.cache] at inBounds
        exact iff_of_true (List.mem_range.mpr inBounds) (idle i inBounds)
  · intro c' t there notFresh
    rcases (links.mem c' t).mp there with before | ⟨rfl, rfl⟩
    · rw [old c' t before]
      exact inv.busy c' t before (by rintro ⟨⟩)
    · exact absurd rfl notFresh
  · intro b isLive
    have before : ∃ c', ∃ t ∈ s.slabs c', ∃ i < (s.cache c').num, b = s.obj c' t i := by
      by_cases own : (s.cache c).offSlab = true ∧ b = slabp
      · obtain ⟨_, t, there, i, inBounds, isObj⟩ := houses.offSlab own.1
        exact ⟨_, t, there, i, inBounds, own.2.trans isObj⟩
      · rw [housed_of_ne fun off same => own ⟨off, same⟩] at isLive
        exact inv.objects b isLive
    obtain ⟨c', t, there, i, inBounds, isObj⟩ := before
    refine ⟨c', t, (links.mem c' t).mpr (.inl there), i, ?_,
      isObj.trans (oldObj c' t i there).symm⟩
    rw [links.cache]
    exact inBounds
  · intro c' t there off
    rw [links.cache] at off ⊢
    rcases (links.mem c' t).mp there with before | ⟨rfl, rfl⟩
    · obtain ⟨control, u, there', i, inBounds, isObj⟩ := inv.controls c' t before off
      refine ⟨?_, u, (links.mem _ u).mpr (.inl there'), i, inBounds,
        isObj.trans (oldObj _ u i there').symm⟩
      rw [housed_of_ne]
      · exact control
      · rintro _ rfl
        exact new c' before
    · obtain ⟨_, u, there', i, inBounds, isObj⟩ := houses.offSlab off
      exact ⟨housed_self off, u, (links.mem _ u).mpr (.inl there'), i, inBounds,
        isObj.trans (oldObj _ u i there').symm⟩
  · intro b c' control
    rw [links.mem, links.cache]
    by_cases own : (s.cache c).offSlab = true ∧ b = slabp
    · rw [own.2, housed_self own.1] at control
      cases control
      exact ⟨.inr ⟨rfl, own.2⟩, own.1⟩
    · rw [housed_of_ne fun off same => own ⟨off, same⟩] at control
      obtain ⟨there, off⟩ := inv.controlled b c' control
      exact ⟨.inl there, off⟩
  · intro q isSlab
    rw [links.pageSlab, Bool.or_eq_true] at isSlab
    rcases isSlab with before | inside
    · obtain ⟨c', t, there, p, placed, low, high⟩ := inv.tagged q before
      rw [← links.cache] at high
      exact ⟨c', t, (links.mem c' t).mpr (.inl there), p, oldPlaced c' t p there placed, low, high⟩
    · obtain ⟨low, high⟩ := run_eq_true_iff.mp inside
      rw [← links.cache] at high
      exact ⟨c, slabp, (links.mem c slabp).mpr (.inr ⟨rfl, rfl⟩), page, newPlaced, low, high⟩
  · intro q
    rw [links.free, inv.frees q, links.pageSlab, Bool.or_eq_false_iff, Bool.or_eq_false_iff]
    tauto
  · intro q isSlab
    rw [links.pageSlab, Bool.or_eq_true] at isSlab
    rcases isSlab with before | inside
    · exact inv.taken q before
    · exact (inRun q inside).1
  · intro q inHand
    obtain ⟨isBase, notSlab⟩ := inv.inHand q (by rw [inHand, Bool.true_or])
    refine ⟨isBase, ?_⟩
    rw [links.pageSlab, notSlab, Bool.false_or, Bool.eq_false_iff]
    intro inside
    rw [apart q inside] at inHand
    cases inHand

end Slabs

end EdfKernel.Mm.Slab
