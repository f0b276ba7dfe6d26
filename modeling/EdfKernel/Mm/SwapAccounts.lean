import EdfKernel.Mm.Accounts

/-!
# The functions on swap slots keep the accounts

A slot is held by one entry more or less, a cached page is moved between the lists, gives up its
slot or gets one, and none of the functions takes a page for cached or free that is not.
-/

namespace EdfKernel.Mm

open Library

namespace Pages

variable {p q : Pages} {lost : Frame → Prop} {s t : Multiset Use} {off : Option Frame}
  {f g : Frame} {e : SwapEntry}

theorem setMap_memMap_self (p : Pages) (e : SwapEntry) (count : Nat) :
    (p.setMap e count).memMap e = count :=
  Function.update_self ..

theorem not_misuse_swapEntry : ¬Panic.Misuse .swapEntry := by
  simp [Panic.Misuse]

theorem not_misuse_swapCount : ¬Panic.Misuse .swapCount := by
  simp [Panic.Misuse]

/-- `swap_offset`. -/
theorem swapOffset_meets : Meets Panic.Misuse (fun offset => e = offset ∧ p.IsSlot e)
    (p.swapOffset e) := by
  unfold swapOffset
  split
  · rename_i slot
    exact ⟨rfl, slot⟩
  · exact not_misuse_swapEntry

theorem transfer_spec {failed : Bool} (answer : p.transfer = (failed, q)) :
    ∃ io, q = { p with io := io } := by
  unfold transfer at answer
  split at answer
  · cases answer
    exact ⟨_, rfl⟩
  · cases answer
    exact ⟨p.io, rfl⟩

/-- `swapfs_read`. -/
theorem swapfsRead_meets : Meets Panic.Misuse (fun result => ∃ data io,
    result.2 = { p with data := data, io := io }) (p.swapfsRead e f) := by
  unfold swapfsRead
  refine swapOffset_meets.bind ?_
  rintro _ ⟨rfl, _⟩
  rcases answer : p.transfer with ⟨failed, q⟩
  obtain ⟨io, rfl⟩ := transfer_spec answer
  cases failed with
  | true => exact ⟨p.data, io, rfl⟩
  | false => exact ⟨_, io, rfl⟩

/-- `swapfs_write`. -/
theorem swapfsWrite_meets : Meets Panic.Misuse (fun result => ∃ disk io,
    result.2 = { p with disk := disk, io := io }) (p.swapfsWrite e f) := by
  unfold swapfsWrite
  refine swapOffset_meets.bind ?_
  rintro _ ⟨rfl, _⟩
  rcases answer : p.transfer with ⟨failed, q⟩
  obtain ⟨io, rfl⟩ := transfer_spec answer
  cases failed with
  | true => exact ⟨p.disk, io, rfl⟩
  | false => exact ⟨_, io, rfl⟩

theorem swapfsRead_of_slot (slot : p.IsSlot e) :
    ∃ failed data io, p.swapfsRead e f = .ok (failed, { p with data := data, io := io }) := by
  have inRange : 0 < e ∧ e < p.maxSwapOffset := slot
  unfold swapfsRead swapOffset
  rw [if_pos inRange, ok_bind]
  rcases answer : p.transfer with ⟨failed, q⟩
  obtain ⟨io, rfl⟩ := transfer_spec answer
  cases failed with
  | true => exact ⟨true, p.data, io, rfl⟩
  | false => exact ⟨false, _, io, rfl⟩

/-- What `swap_in_page` returns, and what it leaves: the page that caches the slot, unless it fails.
A page that was allocated and is not needed is freed, and then the books are as they were. -/
structure SwappedIn (p : Pages) (e : SwapEntry) (newpage : Option Frame) (ret : Int) (f : Frame)
    (q : Pages) : Prop where
  caches : ret = 0 → q.Caches f e
  surplus : ∀ g ∈ newpage, ret = 0 ∧ f = g ∨ q.free g = true
  memMap : q.memMap = p.memMap
  kept : (ret = 0 → newpage ≠ some f) → q.book = p.book ∧ p.SameCached q

/-- A page that caches no slot is freed. -/
theorem vacate_sameCached (uncached : (p.page f).swap = false) : p.SameCached (p.vacate f) := by
  intro g
  by_cases own : g = f
  · subst own
    rw [vacate_page_self, uncached]
    exact ⟨rfl, by rintro ⟨⟩⟩
  · have same : (p.vacate f).page g = p.page g := Function.update_of_ne own ..
    rw [same]
    exact ⟨rfl, fun _ => ⟨rfl, rfl⟩⟩

theorem swapInPage_eq (p : Pages) (e : SwapEntry) : p.swapInPage e = (do
    let _ ← p.swapOffset e
    match p.swapHashFind e with
    | some f => return (0, f, p)
    | none => p.allocPage.2.swapInLocked e p.allocPage.1) :=
  rfl

namespace Accounts

/-- Only the books have changed. -/
theorem of_books {off' : Option Frame} (accounts : p.Accounts lost s off) (page : q.page = p.page)
    (free : q.free = p.free) (uses : ∀ u, (∀ e, u ≠ .entry e) → t.count u = s.count u)
    (books : q.SwapBooks (fun e => t.count (.entry e)) off') : q.Accounts lost t off' := by
  refine ⟨fun f => ?_, books⟩
  rw [page, free, uses (.frame f) (by rintro e ⟨⟩), uses (.spare f) (by rintro e ⟨⟩),
    uses (.whole f) (by rintro e ⟨⟩)]
  exact accounts.fits f

/-- A cached page is on no other use. -/
theorem of_cached (accounts : p.Accounts lost s off) (swap : (p.page f).swap = true) :
    p.free f = false ∧ s.count (.spare f) = 0 ∧ s.count (.whole f) = 0 ∧
      (p.page f).ref = s.count (.frame f) ∧ (p.page f).reserved = false ∧ ¬lost f :=
  (accounts.fits f).of_data (.inl swap)

/-! ## References of entries to slots -/

theorem entry_self : (s + {.entry e}).count (.entry e) = s.count (.entry e) + 1 := by
  simp

theorem entry_of_ne {x : SwapEntry} (ne : x ≠ e) :
    (s + {.entry e}).count (.entry x) = s.count (.entry x) := by
  simp [ne]

theorem entry_others (u : Use) (other : ∀ e, u ≠ .entry e) :
    (s + {.entry e}).count u = s.count u := by
  simp [other]

/-- `swap_duplicate`. -/
theorem swapDuplicate (accounts : p.Accounts lost s off) :
    Meets Panic.Misuse (fun q => q.Accounts lost (s + {.entry e}) off ∧
      q = p.setMap e (p.memMap e + 1)) (p.swapDuplicate e) := by
  unfold Pages.swapDuplicate
  refine swapOffset_meets.bind ?_
  rintro _ ⟨rfl, slot⟩
  split
  · rename_i less
    exact ⟨accounts.of_books rfl rfl entry_others
      (accounts.books.hold slot less (fun x ne => entry_of_ne ne) entry_self), rfl⟩
  · exact not_misuse_swapCount

/-! ## Cached pages -/

/-- A page is taken from its list. -/
theorem unlist (accounts : p.Accounts lost s none) (swap : (p.page f).swap = true) :
    (p.unlist f).Accounts lost s (some f) :=
  accounts.of_books rfl rfl (fun _ _ => rfl) (accounts.books.unlist swap)

/-- A page is put on one of the lists. -/
theorem enlist (accounts : p.Accounts lost s (some f)) (swap : (p.page f).swap = true)
    (used : p.memMap (p.page f).index ≠ swapUnused) (active : Bool) :
    (p.enlist f active).Accounts lost s none := by
  refine accounts.of_frame (f := f) (fun g ne => ?_) (fun _ _ => ⟨rfl, rfl, rfl⟩) ?_
    (accounts.books.enlist swap used active)
  · rw [Pages.enlist, modify_page_of_ne _ ne]
    exact ⟨rfl, rfl⟩
  · obtain ⟨once, counted, kept, used⟩ := accounts.fits f
    rw [Pages.enlist, modify_page_self]
    exact ⟨once, counted, kept, used⟩

/-- A page that entries map gives up its slot. -/
theorem uncache (accounts : p.Accounts lost s (some f)) (swap : (p.page f).swap = true)
    (ref : (p.page f).ref ≠ 0) (counted : p.memMap (p.page f).index ≠ 0) :
    (p.uncache f).Accounts lost s none := by
  refine accounts.of_frame (f := f) (fun g ne => ?_) (fun _ _ => ⟨rfl, rfl, rfl⟩) ?_
    (accounts.books.uncache swap counted)
  · rw [Pages.uncache, modify_page_of_ne _ ne]
    exact ⟨rfl, rfl⟩
  · have isRef := (accounts.of_cached swap).2.2.2.1
    rw [Pages.uncache, modify_page_self]
    exact (accounts.fits f).uncache (by omega)

/-- A page that no entry maps gives up its slot and is freed. -/
theorem evict (accounts : p.Accounts lost s (some f)) (swap : (p.page f).swap = true)
    (ref : (p.page f).ref = 0) (counted : p.memMap (p.page f).index ≠ 0) :
    ((p.uncache f).vacate f).Accounts lost s none := by
  have fits := accounts.fits f
  have isRef := (accounts.of_cached swap).2.2.2.1
  have none : s.count (.frame f) = 0 := by omega
  have books := accounts.books.uncache swap counted
  rw [none] at fits
  have aside : (p.uncache f).Accounts lost (s + {.spare f}) .none := by
    refine accounts.of_frame (f := f) (fun g ne => ?_) (fun g ne => ?_) ?_ (by simpa using books)
    · rw [Pages.uncache, modify_page_of_ne _ ne]
      exact ⟨rfl, rfl⟩
    · simp [ne]
    · rw [Pages.uncache, modify_page_self]
      change Page.Fits _ (p.free f) _ _ _ _
      simpa [none] using fits.uncacheIdle swap
  exact aside.freeSpare.2

end Accounts

/-- `swap_free_page` of a page that is cached and that no entry maps. -/
theorem swapFreePage_eq (accounts : p.Accounts lost s off) (swap : (p.page f).swap = true)
    (ref : (p.page f).ref = 0) : p.swapFreePage f = .ok ((p.uncache f).vacate f) := by
  obtain ⟨taken, _, _, _, reserved, _⟩ := accounts.of_cached swap
  unfold swapFreePage
  rw [if_pos ⟨swap, ref⟩, swapPageDel_eq swap]
  refine freePage_eq taken ?_
  rw [uncache, modify_page_self]
  exact reserved

/-- A page that gives up its slot and is freed is cached no more, and the others are as before. -/
theorem uncache_vacate_swap (cached : (((p.uncache f).vacate f).page g).swap = true) :
    (p.page g).swap = true := by
  by_cases own : g = f
  · rw [own, vacate_page_self] at cached
    cases cached
  · rw [vacate_page_of_ne own, uncache, modify_page_of_ne _ own] at cached
    exact cached

/-- A cached page is taken from its list, gives up its slot, and is freed if no entry maps it. -/
def release (p : Pages) (f : Frame) : Pages :=
  if (p.page f).ref = 0 then ((p.unlist f).uncache f).vacate f else (p.unlist f).uncache f

theorem release_swap (cached : ((p.release f).page g).swap = true) : (p.page g).swap = true := by
  unfold release at cached
  split at cached
  · exact uncache_vacate_swap (p := p.unlist f) cached
  · by_cases own : g = f
    · rw [own, uncache, modify_page_self] at cached
      cases cached
    · rw [uncache, modify_page_of_ne _ own] at cached
      exact cached

theorem unlist_swapFreePage (accounts : p.Accounts lost s none) (swap : (p.page f).swap = true)
    (ref : (p.page f).ref = 0) : (p.unlist f).swapFreePage f = .ok (p.release f) := by
  rw [release, if_pos ref]
  exact swapFreePage_eq (accounts.unlist swap) swap ref

theorem release_maxSwapOffset : (p.release f).maxSwapOffset = p.maxSwapOffset := by
  unfold release
  split <;> rfl

theorem release_places : (p.release f).places = p.places := by
  unfold release
  split <;> rfl

theorem unlist_swapPageDel (swap : (p.page f).swap = true) (ref : (p.page f).ref ≠ 0) :
    (p.unlist f).swapPageDel f = .ok (p.release f) := by
  rw [release, if_neg ref]
  exact swapPageDel_eq swap

theorem stealSlot_eq (accounts : p.Accounts lost s none) (caches : p.Caches f e) :
    p.stealSlot e = .ok ((p.release f).setMap e swapUnused) := by
  have swap := caches.1
  unfold stealSlot
  rw [accounts.books.find.mpr caches]
  dsimp only
  rw [swapListDel_eq swap]
  change ((if (p.page f).ref = 0 then (p.unlist f).swapFreePage f
    else (p.unlist f).swapPageDel f) >>= _) = _
  by_cases ref : (p.page f).ref = 0
  · rw [if_pos ref, unlist_swapFreePage accounts swap ref]
    rfl
  · rw [if_neg ref, unlist_swapPageDel swap ref]
    rfl

/-- `swap_page_add` of a page that gets the slot of an entry. -/
theorem swapPageAdd_eq (fresh : (p.page f).swap = false) (nonzero : e ≠ 0) :
    p.swapPageAdd f e = .ok (true, p.cache f e) := by
  unfold swapPageAdd
  rw [if_neg (by simp [fresh]), if_neg nonzero]
  change (if e = 0 then _ else _) = _
  rw [if_neg nonzero]
  rfl

namespace Accounts

/-- A slot without references is taken from the page that caches it. -/
theorem reclaim (accounts : p.Accounts lost s none) (caches : p.Caches f e)
    (zero : p.memMap e = 0) : ((p.release f).setMap e swapUnused).Accounts lost s none := by
  obtain ⟨swap, index⟩ := caches
  have slot : p.IsSlot e := index ▸ accounts.books.cached f swap
  have unlisted := accounts.unlist swap
  -- that the slot is given up after the page makes no difference
  have given : ((p.unlist f).setMap e swapUnused).Accounts lost s (some f) := by
    refine unlisted.of_books rfl rfl (fun _ _ => rfl)
      (unlisted.books.giveUp slot zero fun g caches => ?_)
    have same : f = g := accounts.books.single f g swap caches.1 (index.trans caches.2.symm)
    rw [same]
  have counted : ((p.unlist f).setMap e swapUnused).memMap (p.page f).index ≠ 0 := by
    rw [index, setMap_memMap_self]
    decide
  unfold release
  split
  · rename_i ref
    exact given.evict swap ref counted
  · rename_i ref
    exact given.uncache swap ref counted

/-- `swap_remove_entry`. -/
theorem swapRemoveEntry (accounts : p.Accounts lost (s + {.entry e}) none) :
    Meets Panic.Misuse (fun q => q.Accounts lost s none ∧ q.places = p.places)
      (p.swapRemoveEntry e) := by
  unfold Pages.swapRemoveEntry
  refine swapOffset_meets.bind ?_
  rintro _ ⟨rfl, slot⟩
  split
  · exact not_misuse_swapCount
  rename_i counted
  have less : (s + {.entry e}).count (.entry e) = s.count (.entry e) + 1 := entry_self
  have others : ∀ x, x ≠ e → s.count (.entry x) = (s + {.entry e}).count (.entry x) :=
    fun x ne => (entry_of_ne ne).symm
  have uses : ∀ u : Use, (∀ e, u ≠ .entry e) → s.count u = (s + {.entry e}).count u :=
    fun u other => (entry_others u other).symm
  have count := (accounts.books.memMap_eq (o := e) (by omega)).1
  have value := p.setMap_memMap_self e (p.memMap e - 1)
  have unhold := fun left => accounts.books.unhold others less left
  dsimp only
  split
  · rename_i last
    have gone : s.count (.entry e) = 0 := by omega
    split
    · rename_i f found
      have caches : p.Caches f e := accounts.books.find.mp found
      have after : (p.setMap e (p.memMap e - 1)).Accounts lost s none :=
        accounts.of_books rfl rfl uses (unhold fun _ => ⟨f, caches⟩)
      split
      · exact ⟨after, rfl⟩
      · rename_i ref
        have freed := unlist_swapFreePage after caches.1 (not_not.mp ref)
        rw [swapListDel_eq (show ((p.setMap e (p.memMap e - 1)).page f).swap = true from caches.1)]
        change Meets _ _ (((p.setMap e (p.memMap e - 1)).unlist f).swapFreePage f >>= _)
        rw [freed]
        exact ⟨after.reclaim caches last, release_places (p := p.setMap e (p.memMap e - 1))⟩
    · rename_i missing
      have uncached := accounts.books.find_none missing
      have same : (p.setMap e (p.memMap e - 1)).setMap e swapUnused = p.setMap e swapUnused := by
        rw [Pages.setMap, Pages.setMap, Pages.setMap, Function.update_idem]
      rw [same]
      exact ⟨accounts.of_books rfl rfl uses (accounts.books.dropSlot others (by omega) gone
        fun f caches => absurd caches (uncached f)), rfl⟩
  · rename_i more
    refine ⟨accounts.of_books rfl rfl uses (unhold fun none => ?_), rfl⟩
    omega

/-! ## Slots for pages -/

/-- `try_alloc_swap_entry`. -/
theorem tryAllocSwapEntry (accounts : p.Accounts lost s none) :
    Meets Panic.Misuse (fun result => result.2.Accounts lost s none ∧
        (result.1 ≠ 0 → result.2.IsSlot result.1 ∧ result.2.memMap result.1 = swapUnused) ∧
        (∀ f, (result.2.page f).swap = true → (p.page f).swap = true) ∧
        result.2.places = p.places) p.tryAllocSwapEntry := by
  have cursor := accounts.books.cursor
  have first : p.slotAfter p.next 0 = p.next := if_pos cursor.2
  have more : 0 + 1 < p.maxSwapOffset := by
    obtain ⟨positive, below⟩ := cursor
    omega
  have scanned := (scanSlots_spec cursor p.maxSwapOffset 0 more (by omega) 0).1
  rw [first] at scanned
  unfold Pages.tryAllocSwapEntry
  rcases found : p.scanSlots p.next p.maxSwapOffset p.next 0 with ⟨empty, idle, next⟩
  rw [found] at scanned
  obtain ⟨cursor', unused, _, _, idleSlot, _⟩ := scanned
  dsimp only at cursor' unused idleSlot ⊢
  have moved : ({ p with next := next } : Pages).Accounts lost s none := by
    obtain ⟨counted, unused, inRange, cached, idle, hashed, chains, active, inactive, actives,
      inactives, single, nrActive, nrInactive, _, bounded⟩ := accounts.books
    exact accounts.of_books rfl rfl (fun _ _ => rfl) ⟨counted, unused, inRange, cached, idle,
      hashed, chains, active, inactive, actives, inactives, single, nrActive, nrInactive, cursor',
      bounded⟩
  split
  · rename_i taken
    exact ⟨moved, fun _ => unused taken, fun _ => id, rfl⟩
  · split
    · rename_i counted
      obtain ⟨slot, zero⟩ := (idleSlot counted).resolve_left counted
      obtain ⟨f, caches⟩ := accounts.books.idle idle slot zero
      rw [stealSlot_eq moved caches]
      refine ⟨moved.reclaim caches zero, fun _ => ⟨?_, setMap_memMap_self _ _ _⟩,
        fun g cached => release_swap (p := { p with next := next }) cached,
        release_places (p := { p with next := next })⟩
      change 0 < idle ∧ idle < (Pages.release _ f).maxSwapOffset
      rw [release_maxSwapOffset]
      exact slot
    · exact ⟨moved, fun nonzero => absurd rfl nonzero, fun _ => id, rfl⟩

theorem spare_self : (s + {Use.spare f}).count (.spare f) = s.count (.spare f) + 1 := by
  simp

theorem cache_page_self : (p.cache f e).page f = { p.page f with swap := true, index := e } := by
  rw [Pages.cache, modify_page_self]

/-- A frame that was set aside caches the slot of an entry. -/
theorem cacheSpare (accounts : p.Accounts lost (s + {.spare f}) none) (slot : p.IsSlot e)
    (uncached : ∀ g, ¬p.Caches g e) : (p.cache f e).Accounts lost s (some f) := by
  have fits := accounts.fits f
  rw [spare_self] at fits
  have books := accounts.books
  simp only [Multiset.count_add, Multiset.count_singleton, reduceCtorEq, if_false,
    Nat.add_zero] at books
  refine accounts.of_frame (f := f) (fun g ne => ?_) (fun g ne => ?_) ?_
    (books.cache fits.of_spare.2.1 slot uncached)
  · rw [Pages.cache, modify_page_of_ne _ ne]
    exact ⟨rfl, rfl⟩
  · simp [ne]
  · rw [Pages.cache, modify_page_self]
    change Page.Fits _ (p.free f) _ _ _ _
    simpa using fits.cache e

/-- A frame that an entry maps gets a slot. -/
theorem cacheMapped (accounts : p.Accounts lost s none) (mapped : .frame f ∈ s)
    (fresh : (p.page f).swap = false) (slot : p.IsSlot e) (uncached : ∀ g, ¬p.Caches g e) :
    (p.cache f e).Accounts lost s (some f) := by
  refine accounts.of_frame (f := f) (fun g ne => ?_) (fun _ _ => ⟨rfl, rfl, rfl⟩) ?_
    (accounts.books.cache fresh slot uncached)
  · rw [Pages.cache, modify_page_of_ne _ ne]
    exact ⟨rfl, rfl⟩
  · rw [Pages.cache, modify_page_self]
    exact (accounts.fits f).cacheMapped (Multiset.count_pos.mpr mapped) e

/-- A slot that has just been found for a page is counted as one without references. -/
theorem cacheNew (accounts : p.Accounts lost s none) (mapped : .frame f ∈ s)
    (fresh : (p.page f).swap = false) (slot : p.IsSlot e) (unused : p.memMap e = swapUnused) :
    ((p.cache f e).setMap e 0).Accounts lost s (some f) := by
  obtain ⟨none, uncached⟩ := accounts.books.unused e slot unused
  have cached := accounts.cacheMapped mapped fresh slot fun g caches => by cases uncached g caches
  refine cached.of_books rfl rfl (fun _ _ => rfl) (cached.books.setMap slot (Nat.zero_le _)
    (fun _ _ => rfl) (fun _ => none.symm) (by rintro ⟨⟩) fun _ => ⟨f, ?_⟩)
  rw [Caches, cache_page_self]
  exact ⟨rfl, rfl⟩

/-- `swap_page_add` for a mapped page that has no slot: it caches one without references, if there
is one. -/
theorem swapPageAdd_new (accounts : p.Accounts lost s none) (mapped : .frame f ∈ s)
    (fresh : (p.page f).swap = false) :
    Meets Panic.Misuse (fun result => result.2.places = p.places ∧
        (result.1 = false → result.2.Accounts lost s none) ∧
        (result.1 = true → result.2.Accounts lost s (some f) ∧ (result.2.page f).swap = true ∧
          result.2.memMap (result.2.page f).index = 0)) (p.swapPageAdd f 0) := by
  unfold Pages.swapPageAdd swapPageSlot
  rw [if_neg (by simp [fresh]), if_pos rfl]
  simp only [bind_assoc]
  refine accounts.tryAllocSwapEntry.bind ?_
  rintro ⟨entry, r⟩ ⟨after, found, cached, places⟩
  dsimp only at after found cached places ⊢
  have fresh' : (r.page f).swap = false := by
    cases swap : (r.page f).swap with
    | false => rfl
    | true => rw [← fresh, cached f swap]
  by_cases none : entry = 0
  · rw [if_pos none]
    exact ⟨places, fun _ => after, by rintro ⟨⟩⟩
  · obtain ⟨slot, unused⟩ := found none
    rw [if_neg none]
    simp only [bind_assoc]
    refine swapOffset_meets.bind ?_
    rintro _ ⟨rfl, _⟩
    rw [if_pos unused]
    change Meets _ _ (if entry = 0 then _ else _)
    rw [if_neg none]
    refine ⟨places, by rintro ⟨⟩, fun _ => ?_⟩
    -- the count is set after the page has been marked and hashed, which makes no difference
    have dirty := after.setPageDirty f
    have kept : ((r.setPageDirty f).page f).swap = false := by
      rw [Pages.setPageDirty, modify_page_self]
      exact fresh'
    have itself := cache_page_self (p := r.setPageDirty f) (f := f) (e := entry)
    refine ⟨dirty.cacheNew mapped kept slot unused, ?_, ?_⟩
    · exact congrArg Page.swap itself
    · have index : (((r.setPageDirty f).cache f entry).page f).index = entry :=
        congrArg Page.index itself
      change Function.update _ entry 0 (((r.setPageDirty f).cache f entry).page f).index = 0
      rw [index, Function.update_self]

/-- `swap_out_vma` at the page that an entry maps: it gets a slot unless it has one. -/
theorem swapOutSlot (accounts : p.Accounts lost s none) (mapped : .frame f ∈ s) (dirty : Bool) :
    Meets Panic.Misuse (fun result => result.2.Accounts lost s none ∧ result.2.places = p.places ∧
        (result.1 ≠ 0 → (result.2.page f).swap = true))
      (p.swapOutSlot f dirty) := by
  unfold Pages.swapOutSlot
  split
  · rename_i fresh
    refine (accounts.swapPageAdd_new mapped fresh).bind ?_
    rintro ⟨added, r⟩ ⟨places, failed, cached⟩
    dsimp only at places failed cached ⊢
    cases added with
    | false => exact ⟨failed rfl, places, fun nonzero => absurd rfl nonzero⟩
    | true =>
        obtain ⟨after, swap, zero⟩ := cached rfl
        have used : r.memMap (r.page f).index ≠ swapUnused := by
          rw [zero]
          decide
        rw [if_neg (by simp), swapActiveListAdd_eq swap]
        exact ⟨after.enlist swap used true, places,
          fun _ => (enlist_cached _ f f true).1.trans swap⟩
  · rename_i cached
    have swap : (p.page f).swap = true := Bool.not_eq_false _ ▸ cached
    split
    · refine ⟨accounts.setPageDirty f, rfl, fun _ => ?_⟩
      exact (congrArg Page.swap (p.modify_page_self fun s => { s with dirty := true })).trans swap
    · exact ⟨accounts, rfl, fun _ => swap⟩

/-- The end of `swap_in_page` for the slot of an entry, which never stops. -/
theorem swapInLocked {newpage : Option Frame} {ruledOut : Panic → Prop}
    (accounts : p.Accounts lost (s + spares newpage) none) (held : .entry e ∈ s) :
    Meets ruledOut (fun result => result.2.2.Accounts lost s none ∧
        result.2.2.places = p.places ∧ p.SwappedIn e newpage result.1 result.2.1 result.2.2)
      (p.swapInLocked e newpage) := by
  unfold Pages.swapInLocked
  have counted := Multiset.count_pos.mpr (Multiset.mem_add.mpr (.inl held) :
    Use.entry e ∈ s + spares newpage)
  have slot := accounts.books.inRange e counted
  have used := (accounts.books.memMap_eq counted).2
  split
  · rename_i f new found
    obtain ⟨freed, balanced⟩ := accounts.freeSpare
    have fits := accounts.fits new
    rw [spares, spare_self] at fits
    have caches := accounts.books.find.mp found
    have other : f ≠ new := by
      rintro rfl
      exact Bool.false_ne_true (fits.of_spare.2.1.symm.trans caches.1)
    rw [freed]
    refine ⟨balanced, rfl, fun _ => ?_, ?_, rfl, fun _ => ⟨rfl, ?_⟩⟩
    · have kept : (p.vacate new).page f = p.page f :=
        Function.update_of_ne other ..
      unfold Caches
      rw [kept]
      exact caches
    · rintro _ ⟨⟩
      exact .inr (Function.update_self ..)
    · exact vacate_sameCached fits.of_spare.2.1
  · rename_i f found
    rw [spares, add_zero] at accounts
    exact ⟨accounts, rfl, fun _ => accounts.books.find.mp found, by rintro _ ⟨⟩, rfl,
      fun _ => ⟨rfl, .refl p⟩⟩
  · rw [spares, add_zero] at accounts
    exact ⟨accounts, rfl, by rintro ⟨⟩, by rintro _ ⟨⟩, rfl, fun _ => ⟨rfl, .refl p⟩⟩
  · rename_i f missing
    have uncached := accounts.books.find_none missing
    obtain ⟨failed, data, io, isRead⟩ := swapfsRead_of_slot (f := f) slot
    have read := accounts.congr (q := { p with data := data, io := io }) rfl rfl
      fun _ => ⟨rfl, rfl, rfl, rfl, rfl⟩
    have fits := read.fits f
    rw [spares, spare_self] at fits
    rw [isRead]
    change Meets _ _ (if failed = true then _ else _)
    split
    · obtain ⟨freed, balanced⟩ := read.freeSpare
      rw [freed]
      refine ⟨balanced, rfl, by rintro ⟨⟩, ?_, rfl, fun _ => ⟨rfl, ?_⟩⟩
      · rintro _ ⟨⟩
        exact .inr (Function.update_self ..)
      · exact vacate_sameCached (p := { p with data := data, io := io }) fits.of_spare.2.1
    · have cached := read.cacheSpare slot uncached
      have swap := congrArg Page.swap (cache_page_self (e := e) (p := { p with
        data := data, io := io }) (f := f))
      have listed := cached.enlist swap
        (by rw [congrArg Page.index cache_page_self]; exact used) true
      rw [swapPageAdd_eq fits.of_spare.2.1 slot.ne_zero]
      change Meets _ _ (Pages.swapActiveListAdd _ f >>= _)
      rw [swapActiveListAdd_eq swap]
      refine ⟨listed, rfl, fun _ => ?_, ?_, rfl, fun failed => absurd rfl (failed rfl)⟩
      · obtain ⟨sameSwap, sameIndex⟩ := enlist_cached (Pages.cache { p with
          data := data, io := io } f e) f f true
        exact ⟨sameSwap.trans swap, sameIndex.trans (congrArg Page.index cache_page_self)⟩
      · rintro _ ⟨⟩
        exact .inl ⟨rfl, rfl⟩

/-- `swap_in_page` for the slot of an entry: the page caches it. -/
theorem swapInPage (accounts : p.Accounts lost s none) (held : .entry e ∈ s) :
    Meets Panic.Misuse (fun result => result.2.2.Accounts lost s none ∧
        result.2.2.places = p.places ∧
        (result.1 = 0 → (result.2.2.page result.2.1).swap = true)) (p.swapInPage e) := by
  rw [swapInPage_eq]
  refine swapOffset_meets.bind ?_
  rintro _ ⟨rfl, slot⟩
  split
  · rename_i f found
    exact ⟨accounts, rfl, fun _ => (accounts.books.find.mp found).1⟩
  · rcases answer : p.allocPage with ⟨newpage, q⟩
    have after : q.Accounts lost (s + spares newpage) none ∧ q.places = p.places := by
      cases newpage with
      | none =>
          obtain ⟨grants, rfl⟩ := allocPage_none answer
          rw [spares, add_zero]
          exact ⟨accounts.withGrants grants, rfl⟩
      | some f =>
          refine ⟨(accounts.allocPage answer).1, ?_⟩
          obtain ⟨_, grants, rfl⟩ := allocPage_some answer
          rfl
    refine (after.1.swapInLocked held).mono fun result done => ?_
    exact ⟨done.1, done.2.1.trans after.2, fun zero => (done.2.2.caches zero).1⟩

end Accounts

end Pages

end EdfKernel.Mm
