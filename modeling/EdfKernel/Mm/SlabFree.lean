import EdfKernel.Mm.SlabCalls

/-!
# Release to slabs

An object is put back in front of the chain of its slab.  A slab without objects in use gives its
pages back, and then the object that its `slab_t` lies in.
-/

namespace EdfKernel.Mm.Slab

open Library

namespace Slabs

variable {s s' s'' : Slabs} {base hand : Nat → Bool} {live : Addr → Option Owner}
  {c c' : Cachep} {t a : Addr} {page i : Nat} {release : Release}

/-! ## A slab that goes -/

/-- The slab is in no list any more, and its pages are free. -/
structure Unlinks (s s' : Slabs) (t : Addr) (page n : Nat) : Prop where
  cache : s'.cache = s.cache
  npage : s'.npage = s.npage
  slab : s'.slab = s.slab
  full : ∀ c u, u ∈ s'.slabsFull c ↔ u ∈ s.slabsFull c ∧ u ≠ t
  notfull : ∀ c u, u ∈ s'.slabsNotfull c ↔ u ∈ s.slabsNotfull c ∧ u ≠ t
  perm : ∀ c, (s'.slabs c).Perm ((s.slabs c).erase t)
  pageSlab : ∀ q, s'.pageSlab q = (s.pageSlab q && !run page n q)
  pageCache : s'.pageCache = s.pageCache
  pageSlabp : s'.pageSlabp = s.pageSlabp
  free : ∀ q, s'.free q = (s.free q || run page n q)

theorem Unlinks.mem {n : Nat} (unlinks : s.Unlinks s' t page n) (c : Cachep) (u : Addr) :
    u ∈ s'.slabs c ↔ u ∈ s.slabs c ∧ u ≠ t := by
  rw [slabs, slabs, List.mem_append, List.mem_append, unlinks.full, unlinks.notfull, or_and_right]

theorem Unlinks.obj {n : Nat} (unlinks : s.Unlinks s' t page n) (c : Cachep) (u : Addr) (i : Nat) :
    s'.obj c u i = s.obj c u i := by
  rw [Slabs.obj, Slabs.obj, unlinks.slab, unlinks.cache]

/-- The owners after a slab has gone: the object of its `slab_t` is in hand. -/
def vacated (s : Slabs) (live : Addr → Option Owner) (c : Cachep) (t : Addr) :
    Addr → Option Owner :=
  if (s.cache c).offSlab then Function.update live t (some .client) else live

theorem vacated_self (off : (s.cache c).offSlab = true) :
    s.vacated live c t t = some .client := by
  rw [vacated, if_pos off, Function.update_self]

theorem vacated_of_ne {b : Addr} (ne : (s.cache c).offSlab = true → b ≠ t) :
    s.vacated live c t b = live b := by
  unfold vacated
  split
  · rename_i off
    exact Function.update_of_ne (ne off) ..
  · rfl

/-- A slab of which nothing is in use has no object of anybody's. -/
theorem Inv.obj_idle {fresh : Option Addr} (inv : s.Inv base live hand fresh)
    (mem : t ∈ s.slabs c) (unused : (s.slab t).inuse = 0) (inBounds : i < (s.cache c).num) :
    live (s.obj c t i) = none := by
  obtain ⟨idle, stocked⟩ := inv.stocked c t mem
  have whole := stocked.inuse
  rw [unused, Nat.zero_add] at whole
  exact (stocked.idle_iff i inBounds).mp (stocked.places.mem_of_length whole inBounds)

/-- The object that a `slab_t` lies in is not one of its own slab, when that is to go. -/
theorem Inv.control_apart {fresh : Option Addr} (inv : s.Inv base live hand fresh)
    (mem : t ∈ s.slabs c) (unused : (s.slab t).inuse = 0) (off : (s.cache c).offSlab = true) :
    ∃ u ∈ s.slabs (s.cache c).slabCachep, u ≠ t ∧
      ∃ i < (s.cache (s.cache c).slabCachep).num, t = s.obj (s.cache c).slabCachep u i := by
  obtain ⟨control, u, there, i, inBounds, isObj⟩ := inv.controls c t mem off
  refine ⟨u, there, ?_, i, inBounds, isObj⟩
  rintro rfl
  rw [isObj, inv.obj_idle there unused inBounds] at control
  cases control

/-- A slab whose places are all free goes. -/
theorem Inv.unlink (inv : s.Inv base live hand (some t)) (mem : t ∈ s.slabs c)
    (placed : s.Placed c t page) (unused : (s.slab t).inuse = 0)
    (unlinks : s.Unlinks s' t page (s.cache c).pages) :
    s'.Inv base (s.vacated live c t) hand none := by
  have idle : ∀ c' i, t ∈ s.slabs c' → i < (s.cache c').num → live (s.obj c' t i) = none :=
    fun _ _ there inBounds => inv.obj_idle there unused inBounds
  have vacated_iff : ∀ b, s.vacated live c t b = none ↔ live b = none := by
    intro b
    by_cases own : (s.cache c).offSlab = true ∧ b = t
    · rw [own.2, vacated_self own.1, (inv.controls c t mem own.1).1]
      simp
    · rw [vacated_of_ne fun off same => own ⟨off, same⟩]
  have notInRun : ∀ c' u, u ∈ s.slabs c' → u ≠ t → ∀ q p, s.Placed c' u p → p ≤ q →
      q < p + (s.cache c').pages → run page (s.cache c).pages q = false := by
    intro c' u there ne q p placed' low high
    rw [Bool.eq_false_iff]
    intro inside
    obtain ⟨low', high'⟩ := run_eq_true_iff.mp inside
    exact ne ((placed'.tags q low high).2.2.symm.trans (placed.tags q low' high').2.2)
  have oldPlaced : ∀ c' u p, u ∈ s.slabs c' → u ≠ t → s.Placed c' u p → s'.Placed c' u p := by
    intro c' u p there ne placed'
    refine ⟨?_, ?_, ?_, fun q low high => ?_, ?_⟩
    · rw [unlinks.slab, unlinks.cache]
      exact placed'.sMem
    · rw [unlinks.slab, unlinks.cache]
      exact placed'.offset
    · rw [unlinks.cache, unlinks.npage]
      exact placed'.room
    · rw [unlinks.cache] at high
      have tags := placed'.tags q low high
      rw [unlinks.pageSlab, unlinks.pageCache, unlinks.pageSlabp,
        notInRun c' u there ne q p placed' low high]
      exact ⟨by rw [tags.1]; rfl, tags.2⟩
    · rw [unlinks.cache]
      exact placed'.onSlab
  have inRun : ∀ q, run page (s.cache c).pages q = true → s.pageSlab q = true := by
    intro q inside
    obtain ⟨low, high⟩ := run_eq_true_iff.mp inside
    exact (placed.tags q low high).1
  refine ⟨?_, ?_, ?_, ?_, ?_, ?_, ?_, ?_, ?_, ?_, ?_, ?_⟩
  · rw [CachesFit, unlinks.cache]
    exact inv.fits
  · intro c' u there
    exact inv.known c' u ((unlinks.mem c' u).mp there).1
  · intro c' u there
    obtain ⟨there, ne⟩ := (unlinks.mem c' u).mp there
    obtain ⟨p, placed'⟩ := inv.placed c' u there
    exact ⟨p, oldPlaced c' u p there ne placed'⟩
  · intro c' u there
    obtain ⟨free, stocked⟩ := inv.stocked c' u ((unlinks.mem c' u).mp there).1
    refine ⟨free, ?_, ?_, fun i inBounds => ?_⟩
    · rw [unlinks.slab, unlinks.cache]
      exact stocked.places
    · rw [unlinks.slab, unlinks.cache]
      exact stocked.inuse
    · rw [unlinks.cache] at inBounds
      rw [unlinks.obj, vacated_iff]
      exact stocked.idle_iff i inBounds
  · intro c' u there _
    obtain ⟨there, ne⟩ := (unlinks.mem c' u).mp there
    rw [unlinks.slab]
    exact inv.busy c' u there fun same => ne (Option.some.inj same)
  · intro b isLive
    rw [Ne, vacated_iff] at isLive
    obtain ⟨c', u, there, i, inBounds, isObj⟩ := inv.objects b isLive
    refine ⟨c', u, (unlinks.mem c' u).mpr ⟨there, ?_⟩, i, ?_,
      isObj.trans (unlinks.obj c' u i).symm⟩
    · rintro rfl
      exact isLive (isObj ▸ idle c' i there inBounds)
    · rw [unlinks.cache]
      exact inBounds
  · intro c' u there off
    obtain ⟨there, ne⟩ := (unlinks.mem c' u).mp there
    rw [unlinks.cache] at off ⊢
    obtain ⟨control, v, there', i, inBounds, isObj⟩ := inv.controls c' u there off
    refine ⟨?_, v, (unlinks.mem _ v).mpr ⟨there', ?_⟩, i, inBounds,
      isObj.trans (unlinks.obj _ v i).symm⟩
    · rw [vacated_of_ne fun _ => ne]
      exact control
    · rintro rfl
      rw [isObj, idle _ i there' inBounds] at control
      cases control
  · intro b c' control
    rw [unlinks.mem, unlinks.cache]
    by_cases own : (s.cache c).offSlab = true ∧ b = t
    · rw [own.2, vacated_self own.1] at control
      cases control
    · rw [vacated_of_ne fun off same => own ⟨off, same⟩] at control
      obtain ⟨there, off⟩ := inv.controlled b c' control
      refine ⟨⟨there, ?_⟩, off⟩
      rintro rfl
      exact own ⟨inv.cache_eq there mem ▸ off, rfl⟩
  · intro q isSlab
    rw [unlinks.pageSlab, Bool.and_eq_true, Bool.not_eq_true'] at isSlab
    obtain ⟨c', u, there, p, placed', low, high⟩ := inv.tagged q isSlab.1
    have ne : u ≠ t := by
      rintro rfl
      have isCache := inv.cache_eq there mem
      subst isCache
      have start := placed'.sMem.symm.trans placed.sMem
      have isPage := page2kva_inj (Nat.add_right_cancel start)
      subst isPage
      rw [run_eq_true_iff.mpr ⟨low, high⟩] at isSlab
      cases isSlab.2
    rw [← unlinks.cache] at high
    exact ⟨c', u, (unlinks.mem c' u).mpr ⟨there, ne⟩, p, oldPlaced c' u p there ne placed', low,
      high⟩
  · intro q
    rw [unlinks.free, unlinks.pageSlab]
    cases inside : run page (s.cache c).pages q with
    | false =>
        rw [Bool.or_false, Bool.not_false, Bool.and_true]
        exact inv.frees q
    | true =>
        have isSlab := inRun q inside
        refine iff_of_true (Bool.or_true _) ⟨inv.taken q isSlab, by simp, ?_⟩
        rw [Bool.eq_false_iff]
        intro inHand
        rw [(inv.inHand q inHand).2] at isSlab
        cases isSlab
  · intro q isSlab
    rw [unlinks.pageSlab, Bool.and_eq_true] at isSlab
    exact inv.taken q isSlab.1
  · intro q inHand
    obtain ⟨isBase, notSlab⟩ := inv.inHand q inHand
    rw [unlinks.pageSlab, notSlab]
    exact ⟨isBase, rfl⟩

theorem Unlinks.filed {n : Nat} (unlinks : s.Unlinks s' t page n) (nodup : ∀ c, (s.slabs c).Nodup)
    (full : ∀ c, ∀ u ∈ s.slabsFull c, u ≠ t → (s.slab u).inuse = (s.cache c).num)
    (notfull : ∀ c, ∀ u ∈ s.slabsNotfull c, u ≠ t → (s.slab u).inuse < (s.cache c).num) :
    s'.Filed := by
  refine ⟨fun c => (unlinks.perm c).nodup_iff.mpr ((nodup c).erase t), fun c u mem => ?_,
    fun c u mem => ?_⟩
  · rw [unlinks.slab, unlinks.cache]
    obtain ⟨there, ne⟩ := (unlinks.full c u).mp mem
    exact full c u there ne
  · rw [unlinks.slab, unlinks.cache]
    obtain ⟨there, ne⟩ := (unlinks.notfull c u).mp mem
    exact notfull c u there ne

/-- A `slab_t` that lies in an object is a client's again when its slab goes. -/
theorem Unlinks.clientTotal {n : Nat} (unlinks : s.Unlinks s' t page n) (mem : t ∈ s.slabs c)
    (known : c < slabCacheNum) (only : ∀ c', t ∈ s.slabs c' → c' = c)
    (unused : (s.slab t).inuse = 0) : s'.clientTotal = s.clientTotal +
      (if (s.cache c).offSlab then ((s.cache (s.cache c).slabCachep).objsize : Int) else 0) := by
  have first := List.perm_cons_erase mem
  apply clientTotal_eq_add known
  · have inuse : s'.inuseOf c = s.inuseOf c := by
      rw [inuseOf, inuseOf, unlinks.slab, ((unlinks.perm c).map _).sum_eq, (first.map _).sum_eq,
        List.map_cons, List.sum_cons, unused, Nat.zero_add]
    have control : s.controlOf c = s'.controlOf c +
        (if (s.cache c).offSlab then (s.cache (s.cache c).slabCachep).objsize else 0) := by
      rw [controlOf, controlOf, unlinks.cache, (unlinks.perm c).length_eq, first.length_eq,
        List.length_cons]
      split
      · rw [Nat.add_mul, Nat.one_mul]
      · rfl
    rw [inuse, control, unlinks.cache]
    split <;> omega
  · intro c' ne
    have perm := unlinks.perm c'
    rw [List.erase_of_not_mem fun there => ne (only c' there)] at perm
    rw [inuseOf, inuseOf, unlinks.slab, (perm.map _).sum_eq, controlOf, controlOf, unlinks.cache,
      perm.length_eq]
    exact ⟨rfl, rfl⟩
  · exact unlinks.cache

/-- `kmem_slab_destroy`, after the slab has been taken out of its list. -/
theorem destroy_unlinks (inv : s.Inv base live hand (some t)) (nodup : ∀ c, (s.slabs c).Nodup)
    (mem : t ∈ s.slabs c) (placed : s.Placed c t page) :
    ∃ s', s.Unlinks s' t page (s.cache c).pages ∧
      (s.listDel c t).kmemSlabDestroy release c t =
        if (s.cache c).offSlab then release (s.cache c).slabCachep t s' else .ok s' := by
  have only : ∀ c', t ∈ s.slabs c' → c' = c := fun c' there => inv.cache_eq there mem
  have some := pages_pos (s.cache c)
  have inPages : page < s.npage := by
    have room := placed.room
    omega
  have isPage : (s.listDel c t).kva2page
      (((s.listDel c t).slab t).sMem - ((s.listDel c t).slab t).offset) = .ok page := by
    change s.kva2page ((s.slab t).sMem - (s.slab t).offset) = _
    rw [placed.sMem, placed.offset, Nat.add_sub_cancel, kva2page, page2kva, Nat.add_sub_cancel,
      Nat.mul_div_cancel _ (by decide), if_pos ⟨Nat.le_add_left .., inPages⟩]
  have marked : ∀ i < (s.cache c).pages, s.pageSlab (page + i) = true := fun i inBounds =>
    (placed.tags (page + i) (by omega) (by omega)).1
  have taken : ∀ i < (s.cache c).pages, s.free (page + i) = false := by
    intro i inBounds
    rw [Bool.eq_false_iff]
    intro isFree
    have notSlab := ((inv.frees _).mp isFree).2.1
    rw [marked i inBounds] at notSlab
    cases notSlab
  refine ⟨{ s.listDel c t with
      pageSlab := fun q => s.pageSlab q && !run page (s.cache c).pages q
      free := fun q => s.free q || run page (s.cache c).pages q }, ?_, ?_⟩
  · refine ⟨rfl, rfl, rfl, fun c' u => ?_, fun c' u => ?_, fun c' => ?_, fun _ => rfl, rfl, rfl,
      fun _ => rfl⟩
    · exact mem_update_erase (List.Nodup.of_append_left (nodup c)) fun c'' there =>
        only c'' (List.mem_append_left _ there)
    · exact mem_update_erase (List.Nodup.of_append_right (nodup c)) fun c'' there =>
        only c'' (List.mem_append_right _ there)
    · by_cases own : c' = c
      · subst own
        rw [← erase_append (nodup c')]
        simp [slabs, listDel]
      · rw [List.erase_of_not_mem fun there => own (only c' there)]
        simp [slabs, listDel, Function.update_of_ne own]
  · unfold kmemSlabDestroy
    rw [isPage, ok_bind]
    change (if ∀ i < (s.cache c).pages, s.pageSlab (page + i) = true then _ else _) = _
    rw [if_pos marked]
    change (if ∀ i < (s.cache c).pages, s.free (page + i) = false then _ else _) >>= _ = _
    rw [if_pos taken, ok_bind]
    rfl

/-! ## `kmem_cache_free` -/

/-- What a release does: the object is no client's any more. -/
structure Releases (s s' : Slabs) (base : Nat → Bool) (live : Addr → Option Owner)
    (hand : Nat → Bool) (c : Cachep) (a : Addr) : Prop where
  retract : s'.Extends s
  filed : s'.Filed
  serves : ∃ live', s'.Inv base live' hand none ∧
    ∀ b, live' b = some .client ↔ b ≠ a ∧ live b = some .client
  total : s'.clientTotal = s.clientTotal - (s.cache c).objsize

/-- The slab with the object put back, before it is filed. -/
def putBack (s : Slabs) (t : Addr) (i : Nat) : Slabs :=
  s.modify t fun u =>
    { u with
      bufctl := Function.update u.bufctl i u.free
      free := i
      inuse := u.inuse - 1 }

theorem putBack_works : s.Works (s.putBack t i) t := modify_works fun _ => ⟨rfl, rfl⟩

theorem putBack_slab : (s.putBack t i).slab t =
    { s.slab t with
      bufctl := Function.update (s.slab t).bufctl i (s.slab t).free
      free := i
      inuse := (s.slab t).inuse - 1 } :=
  Function.update_self ..

/-- The place of an object is read from its address. -/
theorem kmemCacheFreeOne_eq (fits : (s.cache c).Fits s.cache) :
    s.kmemCacheFreeOne release c t (s.obj c t i) =
      if (s.slab t).inuse - 1 = 0 then ((s.putBack t i).listDel c t).kmemSlabDestroy release c t
      else if (s.slab t).inuse - 1 = (s.cache c).num - 1 then
        .ok (((s.putBack t i).listDel c t).addNotfull c t)
      else .ok (s.putBack t i) := by
  have place : (s.obj c t i - (s.slab t).sMem) / (s.cache c).objsize = i := by
    rw [obj, Nat.add_sub_cancel_left, Nat.mul_div_cancel _ fits.objsize]
  unfold kmemCacheFreeOne
  simp only [place]
  change (if ((s.putBack t i).slab t).inuse = 0 then _ else
    if ((s.putBack t i).slab t).inuse = _ then _ else _) = _
  rw [putBack_slab]
  rfl

/-- An object of a client is put back. -/
theorem Inv.putBack {fresh : Option Addr} (inv : s.Inv base live hand none) (mem : t ∈ s.slabs c)
    (inBounds : i < (s.cache c).num) (client : live (s.obj c t i) = some .client)
    (works : s.Works s' t) (slab : s'.slab t = (s.putBack t i).slab t)
    (busy : some t ≠ fresh → 0 < (s.slab t).inuse - 1) :
    s'.Inv base (Function.update live (s.obj c t i) none) hand fresh := by
  obtain ⟨idle, stocked⟩ := inv.stocked c t mem
  have taken : i ∉ idle := by
    intro free
    rw [(stocked.idle_iff i inBounds).mp free] at client
    cases client
  have some := inv.busy c t mem (by simp)
  apply inv.works works mem inBounds
  · rw [client]
    rintro _ ⟨⟩
  · rintro _ ⟨⟩
  · refine ⟨i :: idle, ?_, ?_, fun j inBounds' => ?_⟩
    · rw [slab, putBack_slab, works.cache]
      exact stocked.places.put inBounds taken
    · have inuse := stocked.inuse
      rw [slab, putBack_slab, works.cache, List.length_cons]
      simp only
      omega
    · rw [works.cache] at inBounds'
      rw [works.obj, List.mem_cons]
      by_cases own : j = i
      · subst own
        simp
      · rw [Function.update_of_ne, ← stocked.idle_iff j inBounds', or_iff_right own]
        intro same
        exact own (inv.obj_inj mem inBounds' mem inBounds same).2.2
  · rw [slab, putBack_slab]
    exact busy
  · intro u _ _
    exact Option.some_ne_none u

/-- What clients use after an object of theirs has been put back. -/
theorem putBack_total (inv : s.Inv base live hand none) (filed : s.Filed) (mem : t ∈ s.slabs c)
    (works : s.Works s' t) (perm : ∀ c', (s'.slabs c').Perm (s.slabs c'))
    (slab : s'.slab t = (s.putBack t i).slab t) :
    s'.clientTotal = s.clientTotal - (s.cache c).objsize := by
  have busy := inv.busy c t mem (by simp)
  have one : ((s'.slab t).inuse : Int) - (s.slab t).inuse = -1 := by
    rw [slab, putBack_slab]
    simp only
    omega
  rw [works.clientTotal_eq perm (filed.nodup c) mem (inv.known c t mem)
    fun c' there => inv.cache_eq there mem, one]
  omega

/-- The client has lost its object, when the slab stays. -/
theorem Inv.releases (inv : s'.Inv base (Function.update live (s.obj c t i) none) hand none)
    (works : s.Works s' t) (filed : s'.Filed)
    (total : s'.clientTotal = s.clientTotal - (s.cache c).objsize) :
    s.Releases s' base live hand c (s.obj c t i) := by
  refine ⟨⟨works.cache.symm, works.npage.symm, fun c' u there => ⟨(works.mem c' u).mp there,
    fun j => (works.obj c' u j).symm⟩⟩, filed, ⟨_, inv, fun b => ?_⟩, total⟩
  by_cases own : b = s.obj c t i
  · subst own
    simp
  · rw [Function.update_of_ne own]
    simp [own]

/-- `kmem_cache_free_one`, with a release of the `slab_t` that does what it should. -/
theorem freeOne_spec (inv : s.Inv base live hand none) (filed : s.Filed) (mem : t ∈ s.slabs c)
    (inBounds : i < (s.cache c).num) (client : live (s.obj c t i) = some .client)
    (control : (s.cache c).offSlab = true → ∀ (s₁ : Slabs) (live₁ : Addr → Option Owner),
      s₁.cache = s.cache → s₁.Inv base live₁ hand none → s₁.Filed → live₁ t = some .client →
      (∃ u ∈ s₁.slabs (s.cache c).slabCachep, ∃ j < (s.cache (s.cache c).slabCachep).num,
        t = s₁.obj (s.cache c).slabCachep u j) →
      ∃ s₂, release (s.cache c).slabCachep t s₁ = .ok s₂ ∧
        s₁.Releases s₂ base live₁ hand (s.cache c).slabCachep t) :
    ∃ s', s.kmemCacheFreeOne release c t (s.obj c t i) = .ok s' ∧
      s.Releases s' base live hand c (s.obj c t i) := by
  have known := inv.known c t mem
  have fits := inv.fits c known
  have only : ∀ c', t ∈ s.slabs c' → c' = c := fun c' there => inv.cache_eq there mem
  have works := @putBack_works s t i
  have nodup := filed.nodup
  have nodupFull : ∀ c', (s.slabsFull c').Nodup := fun c' => List.Nodup.of_append_left (nodup c')
  have nodupNotfull : ∀ c', (s.slabsNotfull c').Nodup := fun c' =>
    List.Nodup.of_append_right (nodup c')
  have onlyFull : ∀ c', t ∈ s.slabsFull c' → c' = c := fun c' there =>
    only c' (List.mem_append_left _ there)
  have onlyNotfull : ∀ c', t ∈ s.slabsNotfull c' → c' = c := fun c' there =>
    only c' (List.mem_append_right _ there)
  have busy := inv.busy c t mem (by simp)
  have total₁ := putBack_total inv filed mem works (fun _ => .refl _) rfl
  rw [kmemCacheFreeOne_eq fits]
  split
  · rename_i unused
    have inv₁ : (s.putBack t i).Inv base (Function.update live (s.obj c t i) none) hand
        (some t) := inv.putBack mem inBounds client works rfl (by simp)
    obtain ⟨page, placed⟩ := inv.placed c t mem
    have unused₁ : ((s.putBack t i).slab t).inuse = 0 := by
      rw [putBack_slab]
      exact unused
    obtain ⟨s₂, unlinks, destroyed⟩ := @destroy_unlinks (s.putBack t i) base hand _ c t page
      release inv₁ nodup mem (works.placed placed)
    have inv₂ := inv₁.unlink mem (works.placed placed) unused₁ unlinks
    have filed₂ : s₂.Filed := by
      apply unlinks.filed nodup
      · intro c' u there ne
        rw [works.other u ne]
        exact filed.full c' u there
      · intro c' u there ne
        rw [works.other u ne]
        exact filed.notfull c' u there
    have total₂ := unlinks.clientTotal mem known only unused₁
    have retract₂ : s₂.Extends s := by
      refine ⟨unlinks.cache.symm, unlinks.npage.symm, fun c' u there => ?_⟩
      refine ⟨((unlinks.mem c' u).mp there).1, fun j => ?_⟩
      rw [unlinks.obj, works.obj]
    have clients : ∀ b, (((s.putBack t i).cache c).offSlab = true → b ≠ t) →
        ((s.putBack t i).vacated (Function.update live (s.obj c t i) none) c t b =
          some .client ↔ b ≠ s.obj c t i ∧ live b = some .client) := by
      intro b ne
      rw [vacated_of_ne ne]
      by_cases own : b = s.obj c t i
      · subst own
        simp
      · rw [Function.update_of_ne own]
        simp [own]
    rw [destroyed]
    change s₂.clientTotal = (s.putBack t i).clientTotal + (if (s.cache c).offSlab then
      ((s.cache (s.cache c).slabCachep).objsize : Int) else 0) at total₂
    change ∃ s', (if (s.cache c).offSlab then release (s.cache c).slabCachep t s₂ else .ok s₂) =
      .ok s' ∧ _
    cases off : (s.cache c).offSlab with
    | false =>
        rw [if_neg Bool.false_ne_true]
        rw [off, if_neg Bool.false_ne_true, total₁, Int.add_zero] at total₂
        refine ⟨s₂, rfl, retract₂, filed₂, ⟨_, inv₂, fun b => clients b fun isOff => ?_⟩, total₂⟩
        change (s.cache c).offSlab = true at isOff
        rw [off] at isOff
        cases isOff
    | true =>
        obtain ⟨u, there, ne, j, inBounds', isObj⟩ := inv₁.control_apart mem unused₁ off
        obtain ⟨s₃, released, retract, filed₃, ⟨live₃, inv₃, clients₃⟩, total₃⟩ :=
          control off s₂ _ unlinks.cache inv₂ filed₂ (vacated_self off)
            ⟨u, (unlinks.mem _ u).mpr ⟨there, ne⟩, j, inBounds',
              isObj.trans (unlinks.obj _ u j).symm⟩
        rw [if_pos rfl]
        refine ⟨s₃, released, retract.trans retract₂, filed₃, ⟨live₃, inv₃, fun b => ?_⟩, ?_⟩
        · rw [clients₃]
          by_cases own : b = t
          · subst own
            rw [(inv.controls c b mem off).1]
            simp
          · rw [clients b fun _ => own]
            exact and_iff_right own
        · rw [off, if_pos rfl] at total₂
          rw [total₃, total₂, total₁, unlinks.cache]
          change _ + _ - ((s.cache (s.cache c).slabCachep).objsize : Int) = _
          omega
  · rename_i used
    split
    · rename_i wasFull
      have works₂ : s.Works (((s.putBack t i).listDel c t).addNotfull c t) t :=
        works.refile (@addNotfull_perm (s.putBack t i) c t (nodup c) mem _).mem_iff
          rfl rfl rfl rfl rfl rfl rfl
      have perm := fun c' => @addNotfull_perm (s.putBack t i) c t (nodup c) mem c'
      have inv₂ : Slabs.Inv _ base _ hand none :=
        inv.putBack mem inBounds client works₂ rfl (by omega)
      refine ⟨_, rfl, inv₂.releases works₂ ?_ (putBack_total inv filed mem works₂ perm rfl)⟩
      apply works₂.filed filed perm
      · intro c' u there
        exact .inl ((mem_update_erase (nodupFull c) onlyFull).mp there).symm
      · intro c' u there
        have lists : (((s.putBack t i).listDel c t).addNotfull c t).slabsNotfull =
            Function.update s.slabsNotfull c (t :: (s.slabsNotfull c).erase t) := by
          simp [addNotfull, listDel, putBack, modify]
        rw [lists] at there
        rcases mem_update_cons_erase (nodupNotfull c) onlyNotfull there with there | ⟨rfl, rfl⟩
        · exact .inl there
        · refine .inr ⟨rfl, ?_⟩
          change ((s.putBack u i).slab u).inuse < _
          rw [putBack_slab]
          simp only
          omega
    · rename_i notFull
      have inv₂ : Slabs.Inv _ base _ hand none :=
        inv.putBack mem inBounds client works rfl (by omega)
      refine ⟨_, rfl, inv₂.releases works ?_ total₁⟩
      have inuse : ((s.putBack t i).slab t).inuse = (s.slab t).inuse - 1 := by rw [putBack_slab]
      apply works.filed filed fun _ => .refl _
      · intro c' u there
        refine .inl ⟨?_, there⟩
        rintro rfl
        have isCache := onlyFull c' there
        subst isCache
        exact notFull (by rw [filed.full c' u there])
      · intro c' u there
        by_cases own : u = t
        · subst own
          have isCache := onlyNotfull c' there
          subst isCache
          have room := filed.notfull c' u there
          exact .inr ⟨rfl, by omega⟩
        · exact .inl ⟨own, there⟩

/-- The page of an object leads to its slab and to its cache. -/
theorem Inv.page_tags {fresh : Option Addr} (inv : s.Inv base live hand fresh)
    (mem : t ∈ s.slabs c) (inBounds : i < (s.cache c).num) :
    ∃ q, s.kva2page (s.obj c t i) = .ok q ∧ s.pageSlab q = true ∧ s.pageCache q = c ∧
      s.pageSlabp q = t := by
  obtain ⟨page, placed⟩ := inv.placed c t mem
  obtain ⟨q, low, high, isPage⟩ := placed.obj_page (inv.fits c (inv.known c t mem)) inBounds
  exact ⟨q, isPage, placed.tags q low high⟩

theorem kmemCacheFree_eq {depth : Nat} {fresh : Option Addr} (inv : s.Inv base live hand fresh)
    (mem : t ∈ s.slabs c) (inBounds : i < (s.cache c).num) :
    kmemCacheFree (depth + 1) c (s.obj c t i) s =
      s.kmemCacheFreeOne (kmemCacheFree depth) c t (s.obj c t i) := by
  obtain ⟨q, isPage, isSlab, _, rfl⟩ := inv.page_tags mem inBounds
  rw [kmemCacheFree, isPage, ok_bind, if_pos isSlab]

/-- `kmem_cache_free`, for every cache. -/
theorem free_spec {depth : Nat} (inv : s.Inv base live hand none) (filed : s.Filed)
    (mem : t ∈ s.slabs c) (inBounds : i < (s.cache c).num)
    (client : live (s.obj c t i) = some .client) :
    ∃ s', kmemCacheFree (depth + 2) c (s.obj c t i) s = .ok s' ∧
      s.Releases s' base live hand c (s.obj c t i) := by
  rw [kmemCacheFree_eq inv mem inBounds]
  apply freeOne_spec inv filed mem inBounds client
  rintro off s₁ live₁ cache inv₁ filed₁ client₁ ⟨u, there, j, inBounds', isObj⟩
  obtain ⟨_, inner, _⟩ := (inv.fits c (inv.known c t mem)).offSlab off
  have inBounds₁ : j < (s₁.cache (s.cache c).slabCachep).num := by
    rw [cache]
    exact inBounds'
  rw [isObj] at client₁ ⊢
  rw [kmemCacheFree_eq inv₁ there inBounds₁]
  apply freeOne_spec inv₁ filed₁ there inBounds₁ client₁
  intro off'
  rw [cache] at off'
  rw [inner] at off'
  cases off'

end Slabs

end EdfKernel.Mm.Slab
