import EdfKernel.Mm.SwapSlots
import Mathlib.Data.List.Perm.Subperm

/-!
# The books of the swap device

What `mem_map`, the hash of cached pages and the two swap lists say agrees with the number of
entries that hold each slot.  A page that is moved from one list to the other is on none of them
for a while.
-/

namespace EdfKernel.Mm

open Library

namespace Pages

variable {p q : Pages} {held held' : SwapEntry → Nat} {off : Option Frame} {f g : Frame}
  {o e : SwapEntry}

/-- The books agree with the entries that hold each slot; the page `off` is on no list. -/
structure SwapBooks (p : Pages) (held : SwapEntry → Nat) (off : Option Frame) : Prop where
  counted : ∀ o, p.IsSlot o → p.memMap o ≠ swapUnused → p.memMap o = held o
  unused : ∀ o, p.IsSlot o → p.memMap o = swapUnused →
    held o = 0 ∧ ∀ f, p.Caches f o → off = some f
  inRange : ∀ o, 0 < held o → p.IsSlot o
  cached : ∀ f, (p.page f).swap = true → p.IsSlot (p.page f).index
  idle : p.Accounted
  hashed : ∀ h f, f ∈ p.hashList h ↔ (p.page f).swap = true ∧ entryHashfn (p.page f).index = h
  chains : ∀ h, (p.hashList h).Nodup
  active : ∀ f, f ∈ p.activeList ↔
    (p.page f).swap = true ∧ (p.page f).active = true ∧ off ≠ some f
  inactive : ∀ f, f ∈ p.inactiveList ↔
    (p.page f).swap = true ∧ (p.page f).active = false ∧ off ≠ some f
  actives : p.activeList.Nodup
  inactives : p.inactiveList.Nodup
  single : ∀ f g, (p.page f).swap = true → (p.page g).swap = true →
    (p.page f).index = (p.page g).index → f = g
  nrActive : p.nrActive = p.activeList.length
  nrInactive : p.nrInactive = p.inactiveList.length
  cursor : p.IsSlot p.next
  bounded : ∀ o, p.memMap o ≤ swapUnused

/-- What the books say, except for the pages. -/
def book (p : Pages) :
    (SwapEntry → Nat) × (Nat → List Frame) × List Frame × List Frame × Int × Int × SwapEntry ×
      Nat :=
  (p.memMap, p.hashList, p.activeList, p.inactiveList, p.nrActive, p.nrInactive, p.next,
    p.maxSwapOffset)

/-- The pages cache what they did, and are marked for the lists as before. -/
def SameCached (p q : Pages) : Prop :=
  ∀ f, (q.page f).swap = (p.page f).swap ∧ ((p.page f).swap = true →
    (q.page f).index = (p.page f).index ∧ (q.page f).active = (p.page f).active)

theorem SameCached.refl (p : Pages) : p.SameCached p := fun _ => ⟨rfl, fun _ => ⟨rfl, rfl⟩⟩

namespace SwapBooks

/-- Neither the books nor what pages cache has changed. -/
theorem congr (books : p.SwapBooks held off) (book : q.book = p.book) (same : p.SameCached q) :
    q.SwapBooks held off := by
  simp only [Pages.book, Prod.mk.injEq] at book
  obtain ⟨memMap, hashList, activeList, inactiveList, nrActive, nrInactive, next, max⟩ := book
  have isSlot : ∀ o, q.IsSlot o ↔ p.IsSlot o := fun o => by rw [IsSlot, IsSlot, max]
  have caches : ∀ f o, q.Caches f o ↔ p.Caches f o := by
    intro f o
    obtain ⟨swap, rest⟩ := same f
    rw [Caches, Caches, swap]
    exact and_congr_right fun isCached => by rw [(rest isCached).1]
  refine ⟨?_, ?_, ?_, fun f isCached => ?_, ?_, fun h f => ?_, ?_, fun f => ?_, fun f => ?_, ?_, ?_,
    fun f g swapF swapG index => ?_, ?_, ?_, ?_, ?_⟩
  · simpa only [isSlot, memMap] using books.counted
  · simpa only [isSlot, memMap, caches] using books.unused
  · simpa only [isSlot] using books.inRange
  · obtain ⟨swap, rest⟩ := same f
    rw [swap] at isCached
    rw [isSlot, (rest isCached).1]
    exact books.cached f isCached
  · intro o slot zero
    obtain ⟨f, there⟩ := books.idle o ((isSlot o).mp slot) (memMap ▸ zero)
    exact ⟨f, (caches f o).mpr there⟩
  · obtain ⟨swap, rest⟩ := same f
    rw [hashList, books.hashed, swap]
    exact and_congr_right fun isCached => by rw [(rest isCached).1]
  · rw [hashList]
    exact books.chains
  · obtain ⟨swap, rest⟩ := same f
    rw [activeList, books.active, swap]
    exact and_congr_right fun isCached => by rw [(rest isCached).2]
  · obtain ⟨swap, rest⟩ := same f
    rw [inactiveList, books.inactive, swap]
    exact and_congr_right fun isCached => by rw [(rest isCached).2]
  · rw [activeList]
    exact books.actives
  · rw [inactiveList]
    exact books.inactives
  · obtain ⟨swap, rest⟩ := same f
    obtain ⟨swap', rest'⟩ := same g
    rw [swap] at swapF
    rw [swap'] at swapG
    rw [(rest swapF).1, (rest' swapG).1] at index
    exact books.single f g swapF swapG index
  · rw [nrActive, activeList]
    exact books.nrActive
  · rw [nrInactive, inactiveList]
    exact books.nrInactive
  · rw [isSlot, next]
    exact books.cursor
  · rw [memMap]
    exact books.bounded

/-- The lists, when no page is off them. -/
theorem lists (books : p.SwapBooks held none)
    (owned : ∀ f, (p.page f).swap = true → p.free f = false ∧ (p.page f).reserved = false) :
    p.SwapLists :=
  ⟨books.hashed, books.chains, fun f => by simpa using books.active f,
    fun f => by simpa using books.inactive f, books.actives, books.inactives, books.single, owned⟩

theorem find (books : p.SwapBooks held off) : p.swapHashFind e = some f ↔ p.Caches f e := by
  unfold swapHashFind
  constructor
  · intro found
    have own : (p.page f).index = e := by
      simpa using List.find?_some found
    exact ⟨((books.hashed _ f).mp (List.mem_of_find?_eq_some found)).1, own⟩
  · rintro ⟨swap, rfl⟩
    have listed := (books.hashed _ f).mpr ⟨swap, rfl⟩
    cases found : (p.hashList (entryHashfn (p.page f).index)).find? fun g =>
        (p.page g).index == (p.page f).index with
    | none => exact absurd (beq_self_eq_true _) (List.find?_eq_none.mp found f listed)
    | some g =>
        have own : (p.page g).index = (p.page f).index := by
          simpa using List.find?_some found
        have swap' := ((books.hashed _ g).mp (List.mem_of_find?_eq_some found)).1
        rw [books.single g f swap' swap own]

theorem find_none (books : p.SwapBooks held off) (none : p.swapHashFind e = none) (f : Frame) :
    ¬p.Caches f e := by
  intro caches
  rw [books.find.mpr caches] at none
  cases none

/-! ## Counts -/

/-- A count is set that agrees with the entries that hold the slot now. -/
theorem setMap {n : Nat} (books : p.SwapBooks held off) (slot : p.IsSlot o) (le : n ≤ swapUnused)
    (others : ∀ x, x ≠ o → held' x = held x) (counted : n ≠ swapUnused → n = held' o)
    (unused : n = swapUnused → held' o = 0 ∧ ∀ f, p.Caches f o → off = some f)
    (idle : n = 0 → ∃ f, p.Caches f o) : (p.setMap o n).SwapBooks held' off := by
  refine ⟨fun x slot' used => ?_, fun x slot' isUnused => ?_, fun x some => ?_, books.cached,
    fun x slot' zero => ?_, books.hashed, books.chains, books.active, books.inactive, books.actives,
    books.inactives, books.single, books.nrActive, books.nrInactive, books.cursor, fun x => ?_⟩
  · by_cases own : x = o
    · subst own
      simp only [Pages.setMap, Function.update_self] at used ⊢
      exact counted used
    · simp only [Pages.setMap, Function.update_of_ne own] at used ⊢
      rw [others x own]
      exact books.counted x slot' used
  · by_cases own : x = o
    · subst own
      simp only [Pages.setMap, Function.update_self] at isUnused
      exact unused isUnused
    · simp only [Pages.setMap, Function.update_of_ne own] at isUnused
      rw [others x own]
      exact books.unused x slot' isUnused
  · by_cases own : x = o
    · subst own
      exact slot
    · rw [others x own] at some
      exact books.inRange x some
  · by_cases own : x = o
    · subst own
      simp only [Pages.setMap, Function.update_self] at zero
      exact idle zero
    · simp only [Pages.setMap, Function.update_of_ne own] at zero
      exact books.idle x slot' zero
  · by_cases own : x = o
    · subst own
      simpa only [Pages.setMap, Function.update_self] using le
    · simpa only [Pages.setMap, Function.update_of_ne own] using books.bounded x

/-- `mem_map` of a slot that an entry holds. -/
theorem memMap_eq (books : p.SwapBooks held off) (some : 0 < held o) :
    p.memMap o = held o ∧ p.memMap o ≠ swapUnused := by
  have slot := books.inRange o some
  have used : p.memMap o ≠ swapUnused := by
    intro isUnused
    rw [(books.unused o slot isUnused).1] at some
    exact absurd some (Nat.lt_irrefl 0)
  exact ⟨books.counted o slot used, used⟩

/-- One more entry holds the slot. -/
theorem hold (books : p.SwapBooks held off) (slot : p.IsSlot o) (less : p.memMap o < maxSwapRef)
    (others : ∀ x, x ≠ o → held' x = held x) (more : held' o = held o + 1) :
    (p.setMap o (p.memMap o + 1)).SwapBooks held' off := by
  have below : p.memMap o + 1 < swapUnused := by
    unfold maxSwapRef at less
    unfold swapUnused
    omega
  apply books.setMap slot (Nat.le_of_lt below) others
  · intro _
    rw [more, books.counted o slot (by omega)]
  · intro isUnused
    exact absurd isUnused (Nat.ne_of_lt below)
  · rintro ⟨⟩

/-- One entry less holds the slot, of which a page or another entry is left. -/
theorem unhold (books : p.SwapBooks held off) (others : ∀ x, x ≠ o → held' x = held x)
    (less : held o = held' o + 1) (left : held' o = 0 → ∃ f, p.Caches f o) :
    (p.setMap o (p.memMap o - 1)).SwapBooks held' off := by
  have some : 0 < held o := by omega
  obtain ⟨count, used⟩ := books.memMap_eq some
  have bounded := books.bounded o
  have below : p.memMap o - 1 = held' o := by omega
  apply books.setMap (books.inRange o some) (by omega) others
  · intro _
    exact below
  · intro isUnused
    omega
  · intro zero
    exact left (below.symm.trans zero)

/-- The last entry is gone that held a slot that no page caches. -/
theorem dropSlot (books : p.SwapBooks held off) (others : ∀ x, x ≠ o → held' x = held x)
    (last : 0 < held o) (gone : held' o = 0) (uncached : ∀ f, p.Caches f o → off = some f) :
    (p.setMap o swapUnused).SwapBooks held' off := by
  apply books.setMap (books.inRange o last) (Nat.le_refl _) others
  · intro used
    exact absurd rfl used
  · intro _
    exact ⟨gone, uncached⟩
  · rintro ⟨⟩

/-- No entry holds a slot that is given up. -/
theorem giveUp (books : p.SwapBooks held off) (slot : p.IsSlot o) (zero : p.memMap o = 0)
    (uncached : ∀ f, p.Caches f o → off = some f) :
    (p.setMap o swapUnused).SwapBooks held off := by
  have gone : held o = 0 := by
    rw [← books.counted o slot (by rw [zero]; decide)]
    exact zero
  apply books.setMap slot (Nat.le_refl _) (fun _ _ => rfl)
  · intro used
    exact absurd rfl used
  · intro _
    exact ⟨gone, uncached⟩
  · rintro ⟨⟩

/-! ## Lists -/

end SwapBooks

/-- `swap_list_del` of a cached page. -/
def unlist (p : Pages) (f : Frame) : Pages :=
  { p with
    nrActive := if (p.page f).active then p.nrActive - 1 else p.nrActive
    nrInactive := if (p.page f).active then p.nrInactive else p.nrInactive - 1
    activeList := p.activeList.erase f
    inactiveList := p.inactiveList.erase f }

theorem swapListDel_eq (swap : (p.page f).swap = true) : p.swapListDel f = .ok (p.unlist f) :=
  if_pos swap

/-- `swap_active_list_add` and `swap_inactive_list_add` of a cached page. -/
def enlist (p : Pages) (f : Frame) (active : Bool) : Pages :=
  { p.modify f fun s => { s with active := active } with
    nrActive := if active then p.nrActive + 1 else p.nrActive
    nrInactive := if active then p.nrInactive else p.nrInactive + 1
    activeList := if active then p.activeList ++ [f] else p.activeList
    inactiveList := if active then p.inactiveList else p.inactiveList ++ [f] }

theorem swapActiveListAdd_eq (swap : (p.page f).swap = true) :
    p.swapActiveListAdd f = .ok (p.enlist f true) :=
  if_pos swap

theorem swapInactiveListAdd_eq (swap : (p.page f).swap = true) :
    p.swapInactiveListAdd f = .ok (p.enlist f false) :=
  if_pos swap

/-- `swap_page_del` of a cached page. -/
def uncache (p : Pages) (f : Frame) : Pages :=
  { p.modify f fun s => { s with swap := false } with
    hashList := Function.update p.hashList (entryHashfn (p.page f).index)
      ((p.hashList (entryHashfn (p.page f).index)).erase f) }

theorem swapPageDel_eq (swap : (p.page f).swap = true) : p.swapPageDel f = .ok (p.uncache f) :=
  if_pos swap

/-- The end of `swap_page_add`. -/
def cache (p : Pages) (f : Frame) (entry : SwapEntry) : Pages :=
  { p.modify f fun s => { s with swap := true, index := entry } with
    hashList := Function.update p.hashList (entryHashfn entry)
      (f :: p.hashList (entryHashfn entry)) }

theorem modify_page_self (change : Page → Page) : (p.modify f change).page f = change (p.page f) :=
  Function.update_self ..

theorem modify_page_of_ne (change : Page → Page) (ne : g ≠ f) :
    (p.modify f change).page g = p.page g :=
  Function.update_of_ne ne ..

theorem enlist_cached (p : Pages) (f g : Frame) (active : Bool) :
    ((p.enlist f active).page g).swap = (p.page g).swap ∧
      ((p.enlist f active).page g).index = (p.page g).index := by
  by_cases own : g = f
  · rw [own, enlist, modify_page_self]
    exact ⟨rfl, rfl⟩
  · rw [enlist, modify_page_of_ne _ own]
    exact ⟨rfl, rfl⟩

namespace SwapBooks

/-- A page is taken from its list. -/
theorem unlist (books : p.SwapBooks held none) (swap : (p.page f).swap = true) :
    (p.unlist f).SwapBooks held (some f) := by
  have away : ∀ g, g ≠ f ↔ (some f : Option Frame) ≠ some g := fun g =>
    ⟨fun ne same => ne (Option.some.inj same).symm, fun ne same => ne (congrArg some same.symm)⟩
  refine ⟨books.counted, fun o slot isUnused => ?_, books.inRange, books.cached, books.idle,
    books.hashed, books.chains, fun g => ?_, fun g => ?_, books.actives.erase f,
    books.inactives.erase f, books.single, ?_, ?_, books.cursor, books.bounded⟩
  · obtain ⟨none, uncached⟩ := books.unused o slot isUnused
    exact ⟨none, fun g caches => by cases uncached g caches⟩
  · have before := books.active g
    simp only [ne_eq, reduceCtorEq, not_false_eq_true, and_true] at before
    rw [Pages.unlist, books.actives.mem_erase_iff, before, ← away]
    tauto
  · have before := books.inactive g
    simp only [ne_eq, reduceCtorEq, not_false_eq_true, and_true] at before
    rw [Pages.unlist, books.inactives.mem_erase_iff, before, ← away]
    tauto
  · have mem := books.active f
    have count := books.nrActive
    simp only [Pages.unlist]
    split
    · rename_i isActive
      have listed : f ∈ p.activeList := mem.mpr ⟨swap, isActive, by rintro ⟨⟩⟩
      have positive := List.length_pos_of_mem listed
      rw [List.length_erase_of_mem listed]
      omega
    · rename_i notActive
      rw [List.erase_of_not_mem fun listed => notActive (mem.mp listed).2.1]
      exact count
  · have mem := books.inactive f
    have count := books.nrInactive
    simp only [Pages.unlist]
    split
    · rename_i isActive
      rw [List.erase_of_not_mem fun listed => ?_]
      · exact count
      · rw [(mem.mp listed).2.1] at isActive
        cases isActive
    · rename_i notActive
      have listed : f ∈ p.inactiveList :=
        mem.mpr ⟨swap, Bool.not_eq_true _ ▸ notActive, by rintro ⟨⟩⟩
      have positive := List.length_pos_of_mem listed
      rw [List.length_erase_of_mem listed]
      omega

/-- A page is put on one of the lists. -/
theorem enlist (books : p.SwapBooks held (some f)) (swap : (p.page f).swap = true)
    (used : p.memMap (p.page f).index ≠ swapUnused) (active : Bool) :
    (p.enlist f active).SwapBooks held none := by
  have same := fun g => p.enlist_cached f g active
  have itself : ((p.enlist f active).page f).active = active := by
    rw [Pages.enlist, modify_page_self]
  have others : ∀ g, g ≠ f → ((p.enlist f active).page g).active = (p.page g).active := by
    intro g ne
    rw [Pages.enlist, modify_page_of_ne _ ne]
  have unlisted : f ∉ p.activeList ∧ f ∉ p.inactiveList :=
    ⟨fun mem => ((books.active f).mp mem).2.2 rfl, fun mem => ((books.inactive f).mp mem).2.2 rfl⟩
  have length : ∀ list : List Frame, ((list ++ [f]).length : Int) = list.length + 1 := by
    intro list
    rw [List.length_append, List.length_singleton]
    exact Int.natCast_add ..
  have nodup : ∀ list : List Frame, f ∉ list → list.Nodup → (list ++ [f]).Nodup :=
    fun list notThere nodup => nodup.append (List.nodup_singleton f) (by simpa using notThere)
  refine ⟨books.counted, fun o slot isUnused => ?_, books.inRange, fun g isCached => ?_,
    fun o slot zero => ?_, fun h g => ?_, books.chains, fun g => ?_, fun g => ?_, ?_, ?_,
    fun g g' swapG swapG' => ?_, ?_, ?_, books.cursor, books.bounded⟩
  · obtain ⟨gone, uncached⟩ := books.unused o slot isUnused
    refine ⟨gone, fun g caches => ?_⟩
    rw [Caches, (same g).1, (same g).2] at caches
    cases uncached g caches
    rw [← caches.2] at isUnused
    exact absurd isUnused used
  · rw [(same g).1] at isCached
    rw [(same g).2]
    exact books.cached g isCached
  · obtain ⟨g, caches⟩ := books.idle o slot zero
    refine ⟨g, ?_⟩
    rw [Caches, (same g).1, (same g).2]
    exact caches
  · rw [(same g).1, (same g).2]
    exact books.hashed h g
  · rw [(same g).1]
    change g ∈ (if active then p.activeList ++ [f] else p.activeList) ↔ _
    by_cases own : g = f
    · subst own
      cases active <;> simp [swap, itself, unlisted.1]
    · rw [others g own]
      cases active <;> simp [books.active, own, Ne.symm own]
  · rw [(same g).1]
    change g ∈ (if active then p.inactiveList else p.inactiveList ++ [f]) ↔ _
    by_cases own : g = f
    · subst own
      cases active <;> simp [swap, itself, unlisted.2]
    · rw [others g own]
      cases active <;> simp [books.inactive, own, Ne.symm own]
  · cases active with
    | true => exact nodup _ unlisted.1 books.actives
    | false => exact books.actives
  · cases active with
    | true => exact books.inactives
    | false => exact nodup _ unlisted.2 books.inactives
  · rw [(same g).1] at swapG
    rw [(same g').1] at swapG'
    rw [(same g).2, (same g').2]
    exact books.single g g' swapG swapG'
  · cases active with
    | true => exact (congrArg (· + 1) books.nrActive).trans (length _).symm
    | false => exact books.nrActive
  · cases active with
    | true => exact books.nrInactive
    | false => exact (congrArg (· + 1) books.nrInactive).trans (length _).symm

/-! ## The hash of cached pages -/

/-- A page gives up its slot, which entries hold or which is unused. -/
theorem uncache (books : p.SwapBooks held (some f)) (swap : (p.page f).swap = true)
    (counted : p.memMap (p.page f).index ≠ 0) : (p.uncache f).SwapBooks held none := by
  have itself : ((p.uncache f).page f).swap = false := by
    rw [Pages.uncache, modify_page_self]
  have others : ∀ g, g ≠ f → (p.uncache f).page g = p.page g := by
    intro g ne
    rw [Pages.uncache, modify_page_of_ne _ ne]
  have cached : ∀ g, ((p.uncache f).page g).swap = true →
      g ≠ f ∧ (p.uncache f).page g = p.page g := by
    intro g isCached
    have ne : g ≠ f := by
      rintro rfl
      rw [itself] at isCached
      cases isCached
    exact ⟨ne, others g ne⟩
  have listed : ∀ g, (p.page g).swap = true ∧ g ≠ f ↔ ((p.uncache f).page g).swap = true := by
    intro g
    constructor
    · rintro ⟨isCached, ne⟩
      rw [others g ne]
      exact isCached
    · intro isCached
      obtain ⟨ne, page⟩ := cached g isCached
      rw [page] at isCached
      exact ⟨isCached, ne⟩
  refine ⟨books.counted, fun o slot isUnused => ?_, books.inRange, fun g isCached => ?_,
    fun o slot zero => ?_, fun h g => ?_, fun h => ?_, fun g => ?_, fun g => ?_, books.actives,
    books.inactives, fun g g' swapG swapG' index => ?_, books.nrActive, books.nrInactive,
    books.cursor, books.bounded⟩
  · obtain ⟨gone, uncached⟩ := books.unused o slot isUnused
    refine ⟨gone, fun g caches => ?_⟩
    obtain ⟨ne, page⟩ := cached g caches.1
    rw [Caches, page] at caches
    cases uncached g caches
    exact absurd rfl ne
  · obtain ⟨ne, page⟩ := cached g isCached
    rw [page] at isCached ⊢
    exact books.cached g isCached
  · obtain ⟨g, caches⟩ := books.idle o slot zero
    have ne : g ≠ f := by
      rintro rfl
      rw [caches.2] at counted
      exact counted zero
    refine ⟨g, ?_⟩
    rw [Caches, others g ne]
    exact caches
  · change g ∈ Function.update p.hashList _ _ h ↔ _
    have before := books.hashed h g
    by_cases own : h = entryHashfn (p.page f).index
    · subst own
      rw [Function.update_self, (books.chains _).mem_erase_iff, before, ← listed]
      constructor
      · rintro ⟨ne, isCached, hash⟩
        rw [others g ne]
        exact ⟨⟨isCached, ne⟩, hash⟩
      · rintro ⟨⟨isCached, ne⟩, hash⟩
        rw [others g ne] at hash
        exact ⟨ne, isCached, hash⟩
    · rw [Function.update_of_ne own, before, ← listed]
      constructor
      · rintro ⟨isCached, hash⟩
        have ne : g ≠ f := by
          rintro rfl
          exact own hash.symm
        rw [others g ne]
        exact ⟨⟨isCached, ne⟩, hash⟩
      · rintro ⟨⟨isCached, ne⟩, hash⟩
        rw [others g ne] at hash
        exact ⟨isCached, hash⟩
  · change (Function.update p.hashList _ _ h).Nodup
    by_cases own : h = entryHashfn (p.page f).index
    · subst own
      rw [Function.update_self]
      exact (books.chains _).erase f
    · rw [Function.update_of_ne own]
      exact books.chains h
  · change g ∈ p.activeList ↔ _
    rw [books.active, ← listed]
    by_cases own : g = f
    · simp [own]
    · rw [others g own]
      simp [own, Ne.symm own]
  · change g ∈ p.inactiveList ↔ _
    rw [books.inactive, ← listed]
    by_cases own : g = f
    · simp [own]
    · rw [others g own]
      simp [own, Ne.symm own]
  · obtain ⟨_, page⟩ := cached g swapG
    obtain ⟨_, page'⟩ := cached g' swapG'
    rw [page] at swapG index
    rw [page'] at swapG' index
    exact books.single g g' swapG swapG' index

/-- A page gets a slot that no page caches; it is on no list yet. -/
theorem cache (books : p.SwapBooks held none) (fresh : (p.page f).swap = false) (slot : p.IsSlot e)
    (uncached : ∀ g, ¬p.Caches g e) : (p.cache f e).SwapBooks held (some f) := by
  have itself : ((p.cache f e).page f).swap = true ∧ ((p.cache f e).page f).index = e := by
    rw [Pages.cache, modify_page_self]
    exact ⟨rfl, rfl⟩
  have others : ∀ g, g ≠ f → (p.cache f e).page g = p.page g := by
    intro g ne
    rw [Pages.cache, modify_page_of_ne _ ne]
  have ne_of : ∀ g, (p.page g).swap = true → g ≠ f := by
    rintro g isCached rfl
    rw [fresh] at isCached
    cases isCached
  refine ⟨books.counted, fun o slot' isUnused => ?_, books.inRange, fun g isCached => ?_,
    fun o slot' zero => ?_, fun h g => ?_, fun h => ?_, fun g => ?_, fun g => ?_, books.actives,
    books.inactives, fun g g' swapG swapG' index => ?_, books.nrActive, books.nrInactive,
    books.cursor, books.bounded⟩
  · obtain ⟨gone, notCached⟩ := books.unused o slot' isUnused
    refine ⟨gone, fun g caches => ?_⟩
    by_cases own : g = f
    · rw [own]
    · rw [Caches, others g own] at caches
      cases notCached g caches
  · by_cases own : g = f
    · rw [own, itself.2]
      exact slot
    · rw [others g own] at isCached ⊢
      exact books.cached g isCached
  · obtain ⟨g, caches⟩ := books.idle o slot' zero
    refine ⟨g, ?_⟩
    rw [Caches, others g (ne_of g caches.1)]
    exact caches
  · change g ∈ Function.update p.hashList _ _ h ↔ _
    by_cases own : g = f
    · subst own
      rw [itself.1, itself.2]
      by_cases chain : h = entryHashfn e
      · subst chain
        simp
      · rw [Function.update_of_ne chain, books.hashed, fresh]
        simp [Ne.symm chain]
    · rw [others g own]
      by_cases chain : h = entryHashfn e
      · subst chain
        rw [Function.update_self, List.mem_cons, books.hashed]
        simp [own]
      · rw [Function.update_of_ne chain, books.hashed]
  · change (Function.update p.hashList _ _ h).Nodup
    by_cases chain : h = entryHashfn e
    · subst chain
      rw [Function.update_self]
      refine List.nodup_cons.mpr ⟨fun mem => ?_, books.chains _⟩
      exact ne_of f ((books.hashed _ f).mp mem).1 rfl
    · rw [Function.update_of_ne chain]
      exact books.chains h
  · change g ∈ p.activeList ↔ _
    rw [books.active]
    by_cases own : g = f
    · simp [own, fresh]
    · rw [others g own]
      simp [Ne.symm own]
  · change g ∈ p.inactiveList ↔ _
    rw [books.inactive]
    by_cases own : g = f
    · simp [own, fresh]
    · rw [others g own]
      simp [Ne.symm own]
  · have unique : ∀ g, ((p.cache f e).page g).swap = true →
        ((p.cache f e).page g).index = e → g = f := by
      intro g isCached isSlot
      by_contra own
      rw [others g own] at isCached isSlot
      exact uncached g ⟨isCached, isSlot⟩
    by_cases own : g = f
    · subst own
      rw [itself.2] at index
      exact (unique g' swapG' index.symm).symm
    · by_cases own' : g' = f
      · subst own'
        rw [itself.2] at index
        exact unique g swapG index
      · rw [others g own] at swapG index
        rw [others g' own'] at swapG' index
        exact books.single g g' swapG swapG' index

end SwapBooks

end Pages

end EdfKernel.Mm
