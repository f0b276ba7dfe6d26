import EdfKernel.Library.Walk
import EdfKernel.Mm.SwapSlots
import EdfKernel.Mm.Tables

/-!
# Unmapping a range of pages

`unmap_range` of `pmm.c`.  Its loop steps from page to page, or jumps behind a page table that is
missing; it does what a walk over all the pages of the range does.
-/

namespace EdfKernel.Mm

open Library

/-- The swap entry that an entry holds. -/
def Pte.entry : Pte → Option SwapEntry
  | .swapped e => some e
  | _ => none

namespace Pages

variable {p p' q : Pages} {mm : MmPtr} {a n page la start stop fuel : Nat} {f g : Frame}
  {e : SwapEntry} {slot : Slot}

/-- The entry of a page in the two levels of tables: zero where there is no page table. -/
def lookup (p : Pages) (mm : MmPtr) (page : Nat) : Pte :=
  if (p.table mm (page / 1024)).isSome then p.pte (.user mm page) else .zero

/-- How many of `n` pages from `a` on are mapped to a frame. -/
def mappings (p : Pages) (mm : MmPtr) (a n : Nat) (f : Frame) : Nat :=
  (List.range' a n).countP fun page => (p.lookup mm page).frame = some f

/-- How many of `n` pages from `a` on are swapped out to a swap entry. -/
def swappings (p : Pages) (mm : MmPtr) (a n : Nat) (e : SwapEntry) : Nat :=
  (List.range' a n).countP fun page => (p.lookup mm page).entry = some e

/-! ## One page -/

/-- What `unmap_range` does at a page. -/
def unmapPage (mm : MmPtr) (page : Nat) (p : Pages) : Except Panic Pages :=
  if p.lookup mm page = .zero then .ok p else p.removePte (.user mm page)

/-- No reference count and no reservation of a frame is changed. -/
def SameCounts (p p' : Pages) : Prop :=
  ∀ g, (p'.page g).ref = (p.page g).ref ∧ (p'.page g).reserved = (p.page g).reserved

theorem SameCounts.trans (first : p.SameCounts q) (rest : q.SameCounts p') : p.SameCounts p' :=
  fun g => ⟨(rest g).1.trans (first g).1, (rest g).2.trans (first g).2⟩

theorem freePage_counts (freed : p.freePage f = .ok p') (unmapped : (p.page f).ref = 0) :
    p.SameCounts p' := by
  unfold freePage at freed
  split at freed
  · cases freed
  · cases freed
    intro g
    by_cases own : g = f
    · subst own
      simp [modify, unmapped]
    · simp [modify, own]

theorem freePage_memMap (freed : p.freePage f = .ok p') : p'.memMap = p.memMap := by
  unfold freePage at freed
  split at freed
  · cases freed
  · cases freed
    rfl

theorem swapListDel_page (deleted : p.swapListDel f = .ok p') :
    p'.page = p.page ∧ p'.memMap = p.memMap := by
  unfold swapListDel at deleted
  split at deleted
  · cases deleted
    exact ⟨rfl, rfl⟩
  · cases deleted

theorem swapPageDel_counts (deleted : p.swapPageDel f = .ok p') :
    p.SameCounts p' ∧ p'.memMap = p.memMap := by
  unfold swapPageDel at deleted
  split at deleted
  · cases deleted
    refine ⟨fun g => ?_, rfl⟩
    by_cases own : g = f
    · subst own
      simp [modify]
    · simp [modify, own]
  · cases deleted

theorem swapFreePage_counts (freed : p.swapFreePage f = .ok p') :
    p.SameCounts p' ∧ p'.memMap = p.memMap := by
  unfold swapFreePage at freed
  split at freed
  · rename_i cached
    rcases bind_eq_ok_iff.mp freed with ⟨q, deleted, freed⟩
    obtain ⟨same, memMap⟩ := swapPageDel_counts deleted
    have unmapped : (q.page f).ref = 0 := (same f).1.trans cached.2
    exact ⟨same.trans (freePage_counts freed unmapped), (freePage_memMap freed).trans memMap⟩
  · cases freed

/-- A reference to a swap slot is dropped; with the last one the slot may become unused. -/
structure DropsSlot (p p' : Pages) (e : SwapEntry) : Prop where
  counted : 0 < p.memMap e
  own : p'.memMap e = p.memMap e - 1 ∨ p.memMap e = 1 ∧ p'.memMap e = swapUnused
  others : ∀ e', e' ≠ e → p'.memMap e' = p.memMap e'

theorem swapOffset_eq {offset : SwapEntry} (valid : p.swapOffset e = .ok offset) : offset = e := by
  unfold swapOffset at valid
  split at valid
  · cases valid
    rfl
  · cases valid

/-- Dropping a swap entry changes no reference count of a frame. -/
theorem swapRemoveEntry_drops (removed : p.swapRemoveEntry e = .ok p') :
    p.DropsSlot p' e ∧ p.SameCounts p' := by
  rcases bind_eq_ok_iff.mp removed with ⟨offset, valid, rest⟩
  obtain rfl := swapOffset_eq valid
  split at rest
  · cases rest
  rename_i nonzero
  have counted : 0 < p.memMap offset := Nat.pos_of_ne_zero nonzero
  have drop : p.DropsSlot (p.setMap offset (p.memMap offset - 1)) offset :=
    ⟨counted, .inl (Function.update_self ..), fun e' other => Function.update_of_ne other ..⟩
  have unused : ∀ q : Pages, (p.setMap offset (p.memMap offset - 1)).memMap offset = 0 →
      q.memMap = (p.setMap offset (p.memMap offset - 1)).memMap →
      p.DropsSlot (q.setMap offset swapUnused) offset := by
    intro q last same
    have one : p.memMap offset = 1 := by
      have self : (p.setMap offset (p.memMap offset - 1)).memMap offset = p.memMap offset - 1 :=
        Function.update_self ..
      omega
    refine ⟨counted, .inr ⟨one, Function.update_self ..⟩, fun e' other => ?_⟩
    rw [← drop.others e' other, ← same]
    exact Function.update_of_ne other ..
  simp only at rest
  split at rest
  case isFalse =>
    cases rest
    exact ⟨drop, fun g => ⟨rfl, rfl⟩⟩
  case isTrue last =>
    split at rest
    · split at rest
      · cases rest
        exact ⟨drop, fun g => ⟨rfl, rfl⟩⟩
      · rcases bind_eq_ok_iff.mp rest with ⟨q, deleted, rest⟩
        rcases bind_eq_ok_iff.mp rest with ⟨r, freed, result⟩
        cases result
        have unlisted := swapListDel_page deleted
        obtain ⟨same, memMap⟩ := swapFreePage_counts freed
        refine ⟨unused r last (memMap.trans unlisted.2), fun g => ?_⟩
        have same := same g
        rw [unlisted.1] at same
        exact same
    · cases rest
      exact ⟨unused _ last rfl, fun g => ⟨rfl, rfl⟩⟩

theorem pageRefDec_ref (p : Pages) (f g : Frame) :
    ((p.pageRefDec f).page g).ref = (p.page g).ref - if f = g then 1 else 0 := by
  by_cases own : f = g
  · subst own
    simp [pageRefDec, modify]
  · simp [pageRefDec, modify, own, Ne.symm own]

theorem setPageDirty_ref (p : Pages) (f g : Frame) :
    ((p.setPageDirty f).page g).ref = (p.page g).ref := by
  by_cases own : g = f
  · subst own
    simp [setPageDirty, modify]
  · simp [setPageDirty, modify, own]

/-- Removing an entry drops the reference to the frame that it maps. -/
theorem removePte_ref (removed : p.removePte slot = .ok p') (g : Frame) :
    (p'.page g).ref = (p.page g).ref - if (p.pte slot).frame = some g then 1 else 0 := by
  unfold removePte at removed
  split at removed
  · rename_i f perm mapped
    rw [mapped, Pte.frame]
    simp only [Option.some.injEq]
    split at removed
    · rcases bind_eq_ok_iff.mp removed with ⟨q, rest, result⟩
      cases result
      change (q.page g).ref = _
      rw [← pageRefDec_ref]
      split at rest
      · rename_i unmapped
        exact (freePage_counts rest unmapped g).1
      · cases rest
        rfl
    · cases removed
      refine (pageRefDec_ref _ f g).trans ?_
      split
      · rw [setPageDirty_ref]
      · rfl
  · rename_i e swapped
    rcases bind_eq_ok_iff.mp removed with ⟨q, rest, result⟩
    cases result
    have same := ((swapRemoveEntry_drops rest).2 g).1
    rw [swapped]
    simpa [Pte.frame, writePte] using same
  · rename_i zero
    cases removed
    rw [zero]
    simp [Pte.frame]

/-- Removing an entry drops the reference to the swap entry that it holds. -/
theorem removePte_memMap (removed : p.removePte slot = .ok p') :
    ((p.pte slot).entry = none ∧ p'.memMap = p.memMap) ∨
      ∃ e, (p.pte slot).entry = some e ∧ p.DropsSlot p' e := by
  unfold removePte at removed
  split at removed
  · rename_i f perm mapped
    rw [mapped]
    refine .inl ⟨rfl, ?_⟩
    split at removed
    · rcases bind_eq_ok_iff.mp removed with ⟨q, rest, result⟩
      cases result
      change q.memMap = p.memMap
      split at rest
      · have same := freePage_memMap rest
        exact same
      · cases rest
        rfl
    · cases removed
      split <;> rfl
  · rename_i e swapped
    rcases bind_eq_ok_iff.mp removed with ⟨q, rest, result⟩
    cases result
    have drops := (swapRemoveEntry_drops rest).1
    rw [swapped]
    exact .inr ⟨e, rfl, drops.counted, drops.own, drops.others⟩
  · rename_i zero
    cases removed
    rw [zero]
    exact .inl ⟨rfl, rfl⟩

theorem lookup_of_table (same : p'.table = p.table) {mm' : MmPtr} {page' : Nat}
    (own : p'.pte (.user mm' page') = p.pte (.user mm' page')) :
    p'.lookup mm' page' = p.lookup mm' page' := by
  rw [lookup, same, own, lookup]

theorem lookup_ne_zero (present : p.lookup mm page ≠ .zero) :
    (p.table mm (page / 1024)).isSome = true ∧ p.lookup mm page = p.pte (.user mm page) := by
  unfold lookup at *
  split at present
  case isTrue there => exact ⟨there, if_pos there⟩
  case isFalse => exact absurd rfl present

/-- Removing the entry of a page makes the page unmapped, and no other one. -/
theorem removePte_lookup (removed : p.removePte (.user mm page) = .ok p') (mm' : MmPtr)
    (page' : Nat) :
    p'.lookup mm' page' = if mm' = mm ∧ page' = page then .zero else p.lookup mm' page' := by
  have table := removePte_table removed
  have pte := removePte_pte removed
  by_cases own : mm' = mm ∧ page' = page
  · obtain ⟨rfl, rfl⟩ := own
    have zero : p'.pte (.user mm' page') = .zero := by rw [pte, Function.update_self]
    rw [if_pos ⟨rfl, rfl⟩, lookup, zero, ite_self]
  · have other : Slot.user mm' page' ≠ .user mm page := by
      intro same
      cases same
      exact own ⟨rfl, rfl⟩
    rw [if_neg own]
    exact lookup_of_table table (by rw [pte, Function.update_of_ne other])

/-! ## Counts -/

theorem mappings_succ (p : Pages) (mm : MmPtr) (a n : Nat) (f : Frame) :
    p.mappings mm a (n + 1) f =
      (if (p.lookup mm a).frame = some f then 1 else 0) + p.mappings mm (a + 1) n f := by
  rw [mappings, List.range'_succ, List.countP_cons, Nat.add_comm]
  simp [mappings]

theorem swappings_succ (p : Pages) (mm : MmPtr) (a n : Nat) (e : SwapEntry) :
    p.swappings mm a (n + 1) e =
      (if (p.lookup mm a).entry = some e then 1 else 0) + p.swappings mm (a + 1) n e := by
  rw [swappings, List.range'_succ, List.countP_cons, Nat.add_comm]
  simp [swappings]

/-- The counts are those of the entries of the pages. -/
theorem counts_congr (same : ∀ page, a ≤ page → page < a + n → q.lookup mm page = p.lookup mm page)
    (f : Frame) (e : SwapEntry) :
    q.mappings mm a n f = p.mappings mm a n f ∧ q.swappings mm a n e = p.swappings mm a n e := by
  constructor
  · refine List.countP_congr fun page mem => ?_
    have range := List.mem_range'_1.mp mem
    rw [same page range.1 range.2]
  · refine List.countP_congr fun page mem => ?_
    have range := List.mem_range'_1.mp mem
    rw [same page range.1 range.2]

/-- References to a swap slot have been dropped, as many as there were or fewer; with the last
one the slot may have become unused. -/
def Dropped (before after count : Nat) : Prop :=
  count ≤ before → after + count = before ∨ 0 < count ∧ count = before ∧ after = swapUnused

theorem Dropped.trans {before middle after count count' : Nat} (first : Dropped before middle count)
    (second : Dropped middle after count') : Dropped before after (count + count') := by
  intro enough
  rcases first (by omega) with rest | ⟨some, all, unused⟩
  · rcases second (by omega) with rest' | ⟨some', all', unused'⟩
    · exact .inl (by omega)
    · exact .inr ⟨by omega, by omega, unused'⟩
  · rcases second (by omega) with rest' | ⟨some', all', unused'⟩
    · exact .inr ⟨by omega, by omega, by omega⟩
    · omega

theorem DropsSlot.dropped (drops : p.DropsSlot p' e) (e' : SwapEntry) :
    Dropped (p.memMap e') (p'.memMap e') (if some e = some e' then 1 else 0) := by
  intro _
  by_cases own : e = e'
  · subst own
    have counted := drops.counted
    rw [if_pos rfl]
    rcases drops.own with less | ⟨one, unused⟩
    · exact .inl (by omega)
    · exact .inr ⟨Nat.one_pos, one.symm, unused⟩
  · rw [if_neg (by simpa using own), drops.others e' (Ne.symm own)]
    exact .inl rfl

/-! ## `unmap_range` -/

/-- `n` pages from `a` on have been unmapped, with a reference dropped for every entry, and nothing
else has been changed in the tables. -/
structure Unmapped (p p' : Pages) (mm : MmPtr) (a n : Nat) : Prop where
  lookup : ∀ mm' page, p'.lookup mm' page =
    if mm' = mm ∧ a ≤ page ∧ page < a + n then .zero else p.lookup mm' page
  table : p'.table = p.table
  shared : ∀ shmem page, p'.pte (.shared shmem page) = p.pte (.shared shmem page)
  ref : ∀ f, (p'.page f).ref = (p.page f).ref - p.mappings mm a n f
  memMap : ∀ e, Dropped (p.memMap e) (p'.memMap e) (p.swappings mm a n e)

theorem Unmapped.none (p : Pages) (mm : MmPtr) (a : Nat) : p.Unmapped p mm a 0 where
  lookup mm' page := by
    rw [if_neg]
    omega
  table := rfl
  shared _ _ := rfl
  ref f := by simp [mappings]
  memMap e _ := .inl rfl

/-- A page that is mapped to nothing is left alone. -/
theorem Unmapped.zero (zero : p.lookup mm a = .zero) : p.Unmapped p mm a 1 where
  lookup mm' page := by
    split
    case isTrue own =>
      obtain ⟨rfl, low, high⟩ := own
      obtain rfl : page = a := by omega
      exact zero
    case isFalse => rfl
  table := rfl
  shared _ _ := rfl
  ref f := by
    rw [mappings_succ, zero]
    simp [mappings, Pte.frame]
  memMap e := by
    rw [swappings_succ, zero]
    simp [swappings, Pte.entry, Dropped]

theorem Unmapped.of_removePte (present : p.lookup mm a ≠ .zero)
    (removed : p.removePte (.user mm a) = .ok p') : p.Unmapped p' mm a 1 where
  lookup mm' page := by
    have one : (a ≤ page ∧ page < a + 1) ↔ page = a := by omega
    simp only [removePte_lookup removed, one]
  table := removePte_table removed
  shared shmem page := by rw [removePte_pte removed, Function.update_of_ne Slot.noConfusion]
  ref f := by
    rw [removePte_ref removed, mappings_succ, (lookup_ne_zero present).2]
    split <;> simp [mappings]
  memMap e := by
    rw [swappings_succ, (lookup_ne_zero present).2]
    rcases removePte_memMap removed with ⟨none, same⟩ | ⟨e', held, drops⟩
    · rw [none, same]
      simp [swappings, Dropped]
    · rw [held]
      simpa [swappings] using drops.dropped e

theorem unmapPage_unmapped (done : unmapPage mm a p = .ok p') : p.Unmapped p' mm a 1 := by
  unfold unmapPage at done
  split at done
  case isTrue zero =>
    cases done
    exact .zero zero
  case isFalse present => exact .of_removePte present done

theorem Unmapped.trans (first : p.Unmapped q mm a 1) (rest : q.Unmapped p' mm (a + 1) n) :
    p.Unmapped p' mm a (n + 1) := by
  have ahead : ∀ page, a + 1 ≤ page → page < a + 1 + n → q.lookup mm page = p.lookup mm page := by
    intro page low _
    rw [first.lookup, if_neg]
    omega
  refine ⟨fun mm' page => ?_, rest.table.trans first.table, fun shmem page => ?_, fun f => ?_,
    fun e => ?_⟩
  · rw [rest.lookup, first.lookup]
    by_cases own : mm' = mm
    · have split : (a ≤ page ∧ page < a + (n + 1)) ↔
          (a + 1 ≤ page ∧ page < a + 1 + n) ∨ (a ≤ page ∧ page < a + 1) := by omega
      by_cases later : a + 1 ≤ page ∧ page < a + 1 + n
      · simp [own, split, later]
      · simp only [own, split, later, true_and, false_or, if_false]
    · simp [own]
  · rw [rest.shared, first.shared]
  · have one := first.ref f
    rw [mappings_succ] at one
    rw [rest.ref, one, mappings_succ p mm a n, (counts_congr ahead f 0).1]
    simp [mappings]
    omega
  · have one := first.memMap e
    have later := rest.memMap e
    rw [swappings_succ] at one
    rw [(counts_congr ahead 0 e).2] at later
    rw [swappings_succ p mm a n]
    refine Dropped.trans ?_ later
    simpa [swappings] using one

/-- A walk that unmaps every page unmaps them all. -/
theorem unmapped_of_walk (done : walk (unmapPage mm) a n p = .ok p') : p.Unmapped p' mm a n := by
  refine Walk.relates (R := fun a n p p' => Unmapped p p' mm a n) (fun a p => .none p mm a) ?_ done
  intro a n p q p' taken rest
  exact (unmapPage_unmapped taken).trans rest

/-! ## Jumps -/

/-- The page at which a walk goes on. -/
def nextPage (p : Pages) (mm : MmPtr) (page : Nat) : Nat :=
  p.walkNext mm (page * pgSize) / pgSize

/-- A walk goes forward, and jumps only over pages without a page table. -/
theorem nextPage_spec (p : Pages) (mm : MmPtr) (low : page * pgSize < userTop) :
    page < p.nextPage mm page ∧ p.walkNext mm (page * pgSize) = p.nextPage mm page * pgSize ∧
      ∀ i, page < i → i < p.nextPage mm page → p.table mm (i / 1024) = none := by
  have skips := @walkNext_skips p mm _ (Nat.mul_mod_left page pgSize) low
  have whole : p.walkNext mm (page * pgSize) = p.nextPage mm page * pgSize :=
    (Nat.div_mul_cancel (Nat.dvd_of_mod_eq_zero skips.aligned)).symm
  have far := skips.far
  refine ⟨?_, whole, fun i after before => ?_⟩
  · rw [whole] at far
    unfold pgSize at far
    omega
  · have low' : page * pgSize ≤ i * pgSize := Nat.mul_le_mul_right _ (Nat.le_of_lt after)
    have high : i * pgSize < p.walkNext mm (page * pgSize) := by
      rw [whole]
      exact Nat.mul_lt_mul_of_pos_right before (by decide)
    rcases skips.skipped i low' high with ⟨same, _⟩ | missing
    · rw [Nat.mul_div_cancel _ (by decide)] at same
      omega
    · exact missing

/-- The entry that a walk reads at an address is that of its page. -/
theorem read_eq (low : page * pgSize < userTop) :
    ((p.table mm (pdx (page * pgSize))).isSome = true ∧
        p.pte (userSlot mm (page * pgSize)) ≠ .zero) ↔ p.lookup mm page ≠ .zero := by
  have index : pdx (page * pgSize) = page / 1024 := by
    rw [pdx_eq (low.trans (by decide)), Nat.mul_div_cancel _ (by decide)]
  have slot : userSlot mm (page * pgSize) = .user mm page := by
    rw [userSlot, Nat.mul_div_cancel _ (by decide)]
  rw [index, slot]
  refine ⟨fun ⟨there, present⟩ => ?_, fun present => ?_⟩
  · rwa [lookup, if_pos there]
  · have found := lookup_ne_zero present
    exact ⟨found.1, found.2 ▸ present⟩

/-- A walk goes on at the next page if that is in the range. -/
theorem goes_on_iff (p : Pages) (mm : MmPtr) (aligned : stop % pgSize = 0)
    (low : page * pgSize < userTop) :
    (p.nextPage mm page * pgSize ≠ 0 ∧ p.nextPage mm page * pgSize < stop) ↔
      p.nextPage mm page < stop / pgSize := by
  have after := (nextPage_spec p mm low).1
  unfold pgSize at *
  omega

/-- The range, in pages. -/
theorem range_pages (ok : rangeOk start stop = true) :
    start = start / pgSize * pgSize ∧ start / pgSize < stop / pgSize ∧
      (stop - start) / pgSize = stop / pgSize - start / pgSize ∧ stop % pgSize = 0 ∧
      ∀ page, page < stop / pgSize → page * pgSize < userTop := by
  obtain ⟨aligned, aligned', _, less, top⟩ := rangeOk_spec ok
  unfold pgSize at *
  refine ⟨by omega, by omega, by omega, aligned', fun page below => by omega⟩

/-- What the loop of `unmap_range` does at an address. -/
def unmapBody (mm : MmPtr) (la : Nat) (p : Pages) : Except Panic Pages :=
  if (p.table mm (pdx la)).isSome = true ∧ p.pte (userSlot mm la) ≠ .zero then
    p.pageRemovePte mm la
  else .ok p

theorem unmapBody_eq (low : page * pgSize < userTop) :
    unmapBody mm (page * pgSize) p = unmapPage mm page p := by
  rw [unmapBody, unmapPage, pageRemovePte]
  simp only [← ite_not (p.lookup mm page = .zero), ← read_eq low, userSlot,
    Nat.mul_div_cancel _ (show 0 < pgSize by decide)]

/-- The loop of `unmap_range` is a walk over all the pages of the range. -/
theorem unmapLoop_eq_walk (ok : rangeOk start stop = true)
    (enough : (stop - start) / pgSize ≤ fuel) :
    unmapLoop mm stop fuel start p =
      walk (unmapPage mm) (start / pgSize) ((stop - start) / pgSize) p := by
  obtain ⟨begins, less, length, aligned, inside⟩ := range_pages ok
  rw [length] at enough ⊢
  conv_lhs => rw [begins]
  refine Walk.of_jumps (fun fuel page p => unmapLoop mm stop fuel (page * pgSize) p)
    (fun page p => p.nextPage mm page) ?_ ?_ ?_ less (by omega)
  · intro fuel page p below
    have low := inside page below
    change unmapBody mm (page * pgSize) p >>= _ = _
    simp only [unmapBody_eq low, (nextPage_spec p mm low).2.1, goes_on_iff p mm aligned low]
    rfl
  · exact fun page p below => (nextPage_spec p mm (inside page below)).1
  · intro page p p' below done i after before _
    have missing := (nextPage_spec p mm (inside page below)).2.2 i after before
    have table := (unmapPage_unmapped done).table
    rw [unmapPage, lookup, table, missing]
    rfl

/-- A walk over a range gets nearer to its end. -/
theorem walkNext_nearer (ok : rangeOk start stop = true) (p : Pages) (mm : MmPtr)
    (inside : la % pgSize = 0 ∧ la < stop) (more : p.walkNext mm la < stop) :
    (p.walkNext mm la % pgSize = 0 ∧ p.walkNext mm la < stop) ∧
      (stop - 1 - p.walkNext mm la) / pgSize < (stop - 1 - la) / pgSize := by
  have top := (rangeOk_spec ok).2.2.2.2
  have skips := @walkNext_skips p mm _ inside.1 (inside.2.trans_le top)
  have far := skips.far
  refine ⟨⟨skips.aligned, more⟩, ?_⟩
  unfold pgSize at *
  omega

/-- The loop of `unmap_range` comes to its end. -/
theorem unmapRange_ends (ok : rangeOk start stop = true) (p : Pages) (mm : MmPtr) :
    DoWhile (unmapBody mm) (fun la p => p.walkNext mm la) (fun la _ => la ≠ 0 ∧ la < stop) start p
      (p.unmapRange mm start stop) := by
  obtain ⟨aligned, _, _, less, _⟩ := rangeOk_spec ok
  rw [unmapRange, if_pos ok]
  refine DoWhile.of_rounds (unmapLoop mm stop) (fun la => la % pgSize = 0 ∧ la < stop)
    (fun la => (stop - 1 - la) / pgSize) (fun _ _ _ => rfl)
    (fun la p _ inside more => walkNext_nearer ok p mm inside more.2) ⟨aligned, less⟩ ?_
  have length := range_pages ok
  unfold pgSize at *
  omega

/-! ## `unmap_range` does not stop -/

theorem SwapLists.congr (lists : p.SwapLists) (hash : p'.hashList = p.hashList)
    (active : p'.activeList = p.activeList) (inactive : p'.inactiveList = p.inactiveList)
    (swap : ∀ f, (p'.page f).swap = (p.page f).swap)
    (cached : ∀ f, (p.page f).swap = true →
      (p'.page f).index = (p.page f).index ∧ (p'.page f).active = (p.page f).active ∧
        p'.free f = false ∧ (p'.page f).reserved = false) : p'.SwapLists where
  hashed h f := by
    rw [hash, lists.hashed, swap]
    exact and_congr_right fun isCached => by rw [(cached f isCached).1]
  chains h := by
    rw [hash]
    exact lists.chains h
  active f := by
    rw [active, lists.active, swap]
    exact and_congr_right fun isCached => by rw [(cached f isCached).2.1]
  inactive f := by
    rw [inactive, lists.inactive, swap]
    exact and_congr_right fun isCached => by rw [(cached f isCached).2.1]
  actives := by
    rw [active]
    exact lists.actives
  inactives := by
    rw [inactive]
    exact lists.inactives
  single f g isCached isCached' same := by
    rw [swap] at isCached isCached'
    rw [(cached f isCached).1, (cached g isCached').1] at same
    exact lists.single f g isCached isCached' same
  held f isCached := by
    rw [swap] at isCached
    exact (cached f isCached).2.2

/-- A frame that is reclaimed is taken out of the lists. -/
theorem Reclaims.swapLists (lists : p.SwapLists) (reclaims : Reclaims p q e f) : q.SwapLists := by
  have cached : ∀ g, (q.page g).swap = true → g ≠ f ∧ (p.page g).swap = true := by
    intro g isCached
    have other : g ≠ f := by
      rintro rfl
      rw [reclaims.swap] at isCached
      cases isCached
    exact ⟨other, reclaims.others g other ▸ isCached⟩
  have erased : ∀ (l : List Frame), f ∉ l.erase f → ∀ g, g ∈ l.erase f ↔ g ∈ l ∧ g ≠ f := by
    intro l gone g
    by_cases own : g = f
    · subst own
      exact iff_of_false gone fun both => both.2 rfl
    · rw [List.mem_erase_of_ne own]
      exact (and_iff_left own).symm
  have listed : ∀ g (P Q : Page → Prop), (∀ s, Q s ↔ s.swap = true ∧ P s) →
      (Q (p.page g) ∧ g ≠ f ↔ Q (q.page g)) := by
    intro g P Q form
    by_cases own : g = f
    · subst own
      refine iff_of_false (fun both => both.2 rfl) fun isCached => ?_
      have swap := ((form _).mp isCached).1
      rw [reclaims.swap] at swap
      cases swap
    · rw [reclaims.others g own]
      exact and_iff_left own
  obtain ⟨active, inactive, notActive, notInactive⟩ := reclaims.lists
  constructor
  · intro h g
    obtain ⟨same, gone⟩ := reclaims.hash h
    rw [same] at gone ⊢
    rw [erased _ gone, lists.hashed]
    exact listed g (fun s => entryHashfn s.index = h) _ fun s => Iff.rfl
  · intro h
    rw [(reclaims.hash h).1]
    exact (lists.chains h).erase f
  · intro g
    rw [active] at notActive ⊢
    rw [erased _ notActive, lists.active]
    exact listed g (fun s => s.active = true) _ fun s => Iff.rfl
  · intro g
    rw [inactive] at notInactive ⊢
    rw [erased _ notInactive, lists.inactive]
    exact listed g (fun s => s.active = false) _ fun s => Iff.rfl
  · rw [active]
    exact lists.actives.erase f
  · rw [inactive]
    exact lists.inactives.erase f
  · intro g g' isCached isCached' same
    obtain ⟨other, before⟩ := cached g isCached
    obtain ⟨other', before'⟩ := cached g' isCached'
    rw [reclaims.others g other, reclaims.others g' other'] at same
    exact lists.single g g' before before' same
  · intro g isCached
    obtain ⟨other, before⟩ := cached g isCached
    obtain ⟨taken, unreserved⟩ := lists.held g before
    rw [reclaims.others g other]
    refine ⟨?_, unreserved⟩
    by_contra isFree
    rcases (reclaims.free g).mp (Bool.eq_true_of_not_eq_false isFree) with old | ⟨own, _⟩
    · rw [taken] at old
      cases old
    · exact other own

/-- What a removal keeps for the ones after it. -/
structure Keeps (p q : Pages) : Prop where
  lists : q.SwapLists
  reserved : ∀ f, (q.page f).reserved = (p.page f).reserved
  free : ∀ f, q.free f = true → p.free f = true ∨ (q.page f).ref ≤ 0
  maxSwapOffset : q.maxSwapOffset = p.maxSwapOffset

theorem setMap_swapLists (lists : p.SwapLists) (offset count : Nat) :
    (p.setMap offset count).SwapLists :=
  lists.congr rfl rfl rfl (fun _ => rfl) fun f isCached => ⟨rfl, rfl, lists.held f isCached⟩

/-- A swap entry with references can be removed. -/
theorem swapRemoveEntry_keeps (lists : p.SwapLists) (isSlot : p.IsSlot e)
    (counted : 0 < p.memMap e) : ∃ q, p.swapRemoveEntry e = .ok q ∧ p.Keeps q := by
  have valid : p.swapOffset e = .ok e := if_pos isSlot
  have dropped := setMap_swapLists lists e (p.memMap e - 1)
  have unused := setMap_swapLists dropped e swapUnused
  have kept : ∀ q : Pages, q.SwapLists → q.page = p.page → q.free = p.free →
      q.maxSwapOffset = p.maxSwapOffset → p.Keeps q := by
    intro q lists page free offset
    exact ⟨lists, fun f => by rw [page], fun f isFree => .inl (free ▸ isFree), offset⟩
  rw [swapRemoveEntry, valid, ok_bind, if_neg counted.ne']
  simp only
  by_cases last : (p.setMap e (p.memMap e - 1)).memMap e = 0
  case neg => exact ⟨_, if_neg last, kept _ dropped rfl rfl rfl⟩
  rw [if_pos last]
  cases found : (p.setMap e (p.memMap e - 1)).swapHashFind e with
  | none => exact ⟨_, rfl, kept _ unused rfl rfl rfl⟩
  | some f =>
      simp only
      by_cases mapped : ((p.setMap e (p.memMap e - 1)).page f).ref = 0
      case neg => exact ⟨_, if_pos mapped, kept _ dropped rfl rfl rfl⟩
      rw [if_neg (not_not_intro mapped)]
      -- the frame that caches the slot is reclaimed
      have caches : (p.setMap e (p.memMap e - 1)).Caches f e := by
        have mem := List.mem_of_find?_eq_some found
        have own := List.find?_some found
        exact ⟨((dropped.hashed _ _).mp mem).1, by simpa using own⟩
      rcases stealSlot_reclaims dropped caches with ⟨q, stolen, reclaims⟩
      rw [stealSlot, found] at stolen
      rcases bind_eq_ok_iff.mp stolen with ⟨r, deleted, rest⟩
      have unmapped : (r.page f).ref = 0 := (swapListDel_page deleted).1 ▸ mapped
      rw [if_pos unmapped] at rest
      have removed : p.swapRemoveEntry e = .ok q := by
        rw [swapRemoveEntry, valid, ok_bind, if_neg counted.ne']
        simp only
        rw [if_pos last, found]
        simp only
        rw [if_neg (not_not_intro mapped)]
        exact bind_eq_ok_iff.mpr ⟨r, deleted, rest⟩
      have same := (swapRemoveEntry_drops removed).2
      refine ⟨q, bind_eq_ok_iff.mpr ⟨r, deleted, rest⟩, reclaims.swapLists dropped,
        fun g => (same g).2, fun g isFree => ?_, ?_⟩
      · rcases (reclaims.free g).mp isFree with old | ⟨rfl, zero⟩
        · exact .inl old
        · exact .inr ((same g).1.trans zero).le
      · rw [reclaims.rest]
        rfl

/-- A frame that may be mapped: it is not reserved, and nothing refers to it if it is free. -/
def Mappable (p : Pages) (f : Frame) : Prop :=
  (p.page f).reserved = false ∧ (p.free f = true → (p.page f).ref ≤ 0)

namespace Keeps

theorem refl (lists : p.SwapLists) : p.Keeps p :=
  ⟨lists, fun _ => rfl, fun _ => .inl, rfl⟩

theorem pageRefDec (keeps : p.Keeps q) (f : Frame) : p.Keeps (q.pageRefDec f) := by
  have page : ∀ g, (q.pageRefDec f).page g = { q.page g with
      ref := ((q.pageRefDec f).page g).ref } := by
    intro g
    by_cases own : g = f
    · subst own
      simp [Pages.pageRefDec, modify]
    · simp [Pages.pageRefDec, modify, own]
  refine ⟨keeps.lists.congr rfl rfl rfl (fun g => by rw [page]) (fun g isCached => ?_), fun g => ?_,
    fun g isFree => ?_, keeps.maxSwapOffset⟩
  · rw [page]
    exact ⟨rfl, rfl, keeps.lists.held g isCached⟩
  · rw [page]
    exact keeps.reserved g
  · refine (keeps.free g isFree).imp_right fun none => ?_
    rw [pageRefDec_ref]
    split <;> omega

theorem setPageDirty (keeps : p.Keeps q) (f : Frame) : p.Keeps (q.setPageDirty f) := by
  have page : ∀ g, (q.setPageDirty f).page g = { q.page g with
      dirty := ((q.setPageDirty f).page g).dirty } := by
    intro g
    by_cases own : g = f
    · subst own
      simp [Pages.setPageDirty, modify]
    · simp [Pages.setPageDirty, modify, own]
  refine ⟨keeps.lists.congr rfl rfl rfl (fun g => by rw [page]) (fun g isCached => ?_), fun g => ?_,
    fun g isFree => ?_, keeps.maxSwapOffset⟩
  · rw [page]
    exact ⟨rfl, rfl, keeps.lists.held g isCached⟩
  · rw [page]
    exact keeps.reserved g
  · rw [page]
    exact keeps.free g isFree

theorem writePte (keeps : p.Keeps q) (slot : Slot) (entry : Pte) :
    p.Keeps (q.writePte slot entry) :=
  ⟨keeps.lists.congr rfl rfl rfl (fun _ => rfl) fun f isCached =>
    ⟨rfl, rfl, keeps.lists.held f isCached⟩, keeps.reserved, keeps.free, keeps.maxSwapOffset⟩

/-- A frame without references that caches no slot can be freed. -/
theorem freePage (keeps : p.Keeps q) (notCached : (q.page f).swap = false)
    (taken : q.free f = false) (unreserved : (q.page f).reserved = false)
    (unmapped : (q.page f).ref = 0) : ∃ r, q.freePage f = .ok r ∧ p.Keeps r := by
  have freed : ∃ r, q.freePage f = .ok r ∧ r.SwapLists ∧ r.maxSwapOffset = q.maxSwapOffset ∧
      ∀ g, r.free g = true → q.free g = true ∨ g = f := by
    refine ⟨_, if_neg (by simp [taken, unreserved]), ?_, rfl, fun g isFree => ?_⟩
    · refine keeps.lists.congr rfl rfl rfl (fun g => ?_) (fun g isCached => ?_)
      · by_cases own : g = f
        · subst own
          simp [modify, notCached]
        · simp [modify, own]
      · have other : g ≠ f := by
          rintro rfl
          rw [notCached] at isCached
          cases isCached
        simpa [modify, other] using keeps.lists.held g isCached
    · by_cases own : g = f
      · exact .inr own
      · simp only [Function.update_of_ne own] at isFree
        exact .inl isFree
  rcases freed with ⟨r, freed, lists, offset, free⟩
  have same := freePage_counts freed unmapped
  refine ⟨r, freed, lists, fun g => (same g).2.trans (keeps.reserved g), fun g isFree => ?_,
    offset.trans keeps.maxSwapOffset⟩
  rw [(same g).1]
  rcases free g isFree with old | rfl
  · exact keeps.free g old
  · exact .inr unmapped.le

end Keeps

/-- An entry that maps a frame, or holds a swap entry with references, can be removed. -/
theorem Keeps.of_removePte (lists : p.SwapLists)
    (frame : ∀ f, (p.pte slot).frame = some f → p.Mappable f)
    (entry : ∀ e, (p.pte slot).entry = some e → p.IsSlot e ∧ 0 < p.memMap e) :
    ∃ q, p.removePte slot = .ok q ∧ p.Keeps q := by
  unfold removePte
  cases held : p.pte slot with
  | zero => exact ⟨p, rfl, refl lists⟩
  | swapped e =>
      obtain ⟨isSlot, counted⟩ := entry e (by rw [held]; rfl)
      rcases swapRemoveEntry_keeps lists isSlot counted with ⟨q, removed, keeps⟩
      exact ⟨q.writePte slot .zero, by simp only [removed, ok_bind]; rfl, keeps.writePte _ _⟩
  | present f perm =>
      obtain ⟨unreserved, free⟩ := frame f (by rw [held]; rfl)
      have dec := (refl lists).pageRefDec f
      simp only
      cases cached : (p.page f).swap with
      | true =>
          rw [if_neg Bool.noConfusion]
          refine ⟨_, rfl, (pageRefDec ?_ f).writePte slot .zero⟩
          split
          · exact (refl lists).setPageDirty f
          · exact refl lists
      | false =>
          rw [if_pos rfl]
          by_cases last : ((p.pageRefDec f).page f).ref = 0
          · have one : (p.page f).ref = 1 := by
              rw [pageRefDec_ref, if_pos rfl] at last
              omega
            have taken : p.free f = false := by
              by_contra isFree
              have none := free (Bool.eq_true_of_not_eq_false isFree)
              omega
            have notCached : ((p.pageRefDec f).page f).swap = false := by
              simpa [Pages.pageRefDec, modify] using cached
            rcases dec.freePage notCached taken ((dec.reserved f).trans unreserved) last with
              ⟨q, freed, keeps⟩
            exact ⟨q.writePte slot .zero, by simp only [if_pos last, freed, ok_bind]; rfl,
              keeps.writePte _ _⟩
          · exact ⟨(p.pageRefDec f).writePte slot .zero,
              by simp only [if_neg last, ok_bind]; rfl, dec.writePte _ _⟩

/-- `n` pages from `a` on can be unmapped: the frames may be mapped, and the swap entries have at
least the references that the pages are. -/
structure Removable (p : Pages) (mm : MmPtr) (a n : Nat) : Prop where
  lists : p.SwapLists
  frames : ∀ page, a ≤ page → page < a + n → ∀ f, (p.lookup mm page).frame = some f →
    p.Mappable f
  slots : ∀ page, a ≤ page → page < a + n → ∀ e, (p.lookup mm page).entry = some e → p.IsSlot e
  counted : ∀ e, p.swappings mm a n e ≤ p.memMap e

/-- The next page can be unmapped, and those behind it after it. -/
theorem Removable.step (removable : p.Removable mm a (n + 1)) :
    ∃ q, unmapPage mm a p = .ok q ∧ q.Removable mm (a + 1) n := by
  have counted := removable.counted
  simp only [swappings_succ] at counted
  by_cases zero : p.lookup mm a = .zero
  · refine ⟨p, if_pos zero, removable.lists, fun page low high => ?_, fun page low high => ?_,
      fun e => ?_⟩
    · exact removable.frames page (by omega) (by omega)
    · exact removable.slots page (by omega) (by omega)
    · have enough := counted e
      omega
  · have own := (lookup_ne_zero zero).2
    have frame := removable.frames a (Nat.le_refl a) (by omega)
    have slots := removable.slots a (Nat.le_refl a) (by omega)
    rw [own] at frame slots
    have entry : ∀ e, (p.pte (.user mm a)).entry = some e → p.IsSlot e ∧ 0 < p.memMap e := by
      intro e held
      have enough := counted e
      rw [own, if_pos held] at enough
      exact ⟨slots e held, by omega⟩
    rcases Keeps.of_removePte removable.lists frame entry with ⟨q, removed, keeps⟩
    have unmapped := Unmapped.of_removePte zero removed
    have ahead : ∀ page, a + 1 ≤ page → page < a + 1 + n →
        q.lookup mm page = p.lookup mm page := by
      intro page low _
      rw [unmapped.lookup, if_neg]
      omega
    refine ⟨q, by rw [unmapPage, if_neg zero, removed], keeps.lists, ?_, ?_, ?_⟩
    · intro page low high f mapped
      rw [ahead page low high] at mapped
      obtain ⟨unreserved, none⟩ := removable.frames page (by omega) (by omega) f mapped
      refine ⟨(keeps.reserved f).trans unreserved, fun isFree => ?_⟩
      rcases keeps.free f isFree with old | done
      · have before := none old
        rw [removePte_ref removed]
        split <;> omega
      · exact done
    · intro page low high e held
      rw [ahead page low high] at held
      have isSlot := removable.slots page (by omega) (by omega) e held
      exact ⟨isSlot.1, keeps.maxSwapOffset ▸ isSlot.2⟩
    · intro e
      have enough := counted e
      have dropped := unmapped.memMap e
      rw [swappings_succ] at dropped
      simp only [swappings, List.range'_zero, List.countP_nil, Nat.add_zero] at dropped
      rw [(counts_congr ahead 0 e).2]
      rcases dropped (by omega) with less | ⟨_, all, _⟩ <;> omega

/-- `unmap_range` comes to its end. -/
theorem unmapRange_succeeds (ok : rangeOk start stop = true)
    (removable : p.Removable mm (start / pgSize) ((stop - start) / pgSize)) :
    ∃ p', p.unmapRange mm start stop = .ok p' := by
  rw [unmapRange, if_pos ok, unmapLoop_eq_walk ok (Nat.le_refl _)]
  exact Walk.succeeds (I := fun a n p => Removable p mm a n) (fun a n p => Removable.step) removable

end Pages

end EdfKernel.Mm
