import EdfKernel.Mm.Evict
import EdfKernel.Mm.SwapAccounts

/-!
# The walks over the swap lists keep the accounts

`page_launder` and `refill_inactive_scan` move pages between the lists and free the pages that
nobody maps.  While a page is looked at it is on no list, and the page that comes next stays where
it is.
-/

namespace EdfKernel.Mm

open Library

namespace Pages

variable {p q : Pages} {lost : Frame → Prop} {s : Multiset Use} {off : Option Frame}
  {f g : Frame} {e : SwapEntry}

/-- While a page is off the lists, the others stay as they are, and it keeps its slot. -/
structure Aside (p : Pages) (lost : Frame → Prop) (q : Pages) (s : Multiset Use) (f : Frame) :
    Prop where
  accounts : q.Accounts lost s (some f)
  others : ∀ g, g ≠ f → q.page g = p.page g
  swap : (q.page f).swap = true
  index : (q.page f).index = (p.page f).index
  places : q.places = p.places

/-- A page off the lists can be freed: no entry maps it, and its slot is unused or held by an
entry. -/
structure Clean (p : Pages) (lost : Frame → Prop) (q : Pages) (s : Multiset Use) (f : Frame) :
    Prop extends p.Aside lost q s f where
  ref : (q.page f).ref = 0
  counted : q.memMap (q.page f).index ≠ 0

/-- A page is on the lists again, or is freed, and the others stay as they are. -/
structure Settled (p : Pages) (lost : Frame → Prop) (q : Pages) (s : Multiset Use) (f : Frame) :
    Prop where
  accounts : q.Accounts lost s none
  others : ∀ g, g ≠ f → q.page g = p.page g
  places : q.places = p.places

namespace Aside

theorem unlist (accounts : p.Accounts lost s none) (swap : (p.page f).swap = true) :
    p.Aside lost (p.unlist f) s f :=
  ⟨accounts.unlist swap, fun _ _ => rfl, swap, rfl, rfl⟩

theorem caches (aside : p.Aside lost q s f) : q.Caches f (p.page f).index :=
  ⟨aside.swap, aside.index⟩

/-- The page is put on one of the lists. -/
theorem enlist (aside : p.Aside lost q s f) (used : q.memMap (p.page f).index ≠ swapUnused)
    (active : Bool) : p.Settled lost (q.enlist f active) s f := by
  refine ⟨aside.accounts.enlist aside.swap (by rw [aside.index]; exact used) active, fun g ne => ?_,
    aside.places⟩
  rw [Pages.enlist, modify_page_of_ne _ ne]
  exact aside.others g ne

theorem withDirty (aside : p.Aside lost q s f) (dirty : Bool) :
    p.Aside lost (q.modify f fun s => { s with dirty := dirty }) s f := by
  refine ⟨aside.accounts.withDirty f dirty, fun g ne => ?_, ?_, ?_, aside.places⟩
  · rw [modify_page_of_ne _ ne]
    exact aside.others g ne
  · rw [modify_page_self]
    exact aside.swap
  · rw [modify_page_self]
    exact aside.index

/-- `try_free_swap_entry`. -/
theorem tryFreeSwapEntry (aside : p.Aside lost q s f) :
    Meets Panic.Misuse (fun result => p.Aside lost result.2 s f ∧ result.2.page = q.page ∧
      (result.1 = false → result.2 = q) ∧ result.2.memMap (p.page f).index ≠ 0)
      (q.tryFreeSwapEntry (p.page f).index) := by
  unfold Pages.tryFreeSwapEntry
  refine swapOffset_meets.bind ?_
  rintro offset ⟨isIndex, slot⟩
  rw [← isIndex]
  split
  · rename_i zero
    have only : ∀ g, q.Caches g (p.page f).index → some f = some g := by
      intro g caches
      have same := aside.accounts.books.single f g aside.swap caches.1
        (aside.index.trans caches.2.symm)
      rw [same]
    have given := aside.accounts.of_books (q := q.setMap (p.page f).index swapUnused) rfl rfl
      (fun _ _ => rfl) (aside.accounts.books.giveUp slot zero only)
    refine ⟨⟨given, aside.others, aside.swap, aside.index, aside.places⟩, rfl, by rintro ⟨⟩, ?_⟩
    rw [setMap_memMap_self]
    decide
  · rename_i counted
    exact ⟨aside, rfl, fun _ => rfl, counted⟩

/-- One entry more holds the slot for a while. -/
theorem hold (aside : p.Aside lost q s f) :
    Meets Panic.Misuse (fun r => p.Aside lost r (s + {.entry (p.page f).index}) f)
      (q.swapDuplicate (p.page f).index) := by
  refine aside.accounts.swapDuplicate.mono ?_
  rintro _ ⟨held, rfl⟩
  exact ⟨held, aside.others, aside.swap, aside.index, aside.places⟩

/-- One entry less holds the slot. -/
theorem unhold (aside : p.Aside lost q (s + {.entry e}) f) (isIndex : e = (p.page f).index) :
    p.Aside lost (q.setMap e (q.memMap e - 1)) s f ∧ q.memMap e - 1 ≠ swapUnused := by
  have less : (s + {.entry e}).count (.entry e) = s.count (.entry e) + 1 := Accounts.entry_self
  have used := (aside.accounts.books.memMap_eq (o := e) (by omega)).2
  have bounded := aside.accounts.books.bounded e
  have books := aside.accounts.books.unhold (fun x ne => (Accounts.entry_of_ne ne).symm) less
    fun _ => ⟨f, isIndex ▸ aside.caches⟩
  refine ⟨⟨aside.accounts.of_books rfl rfl (fun u other => (Accounts.entry_others u other).symm)
    books, aside.others, aside.swap, aside.index, aside.places⟩, ?_⟩
  omega

/-- `page_launder` at a dirty page whose slot entries hold. -/
theorem launderDirty (aside : p.Aside lost q s f) :
    Meets Panic.Misuse (fun result => (result.1 = true → p.Clean lost result.2 s f) ∧
      (result.1 = false → p.Settled lost result.2 s f)) (q.launderDirty f (p.page f).index) := by
  unfold Pages.launderDirty
  refine (aside.withDirty false).hold.bind fun r held => ?_
  refine swapfsWrite_meets.bind ?_
  rintro ⟨failed, w⟩ ⟨disk, io, rfl⟩
  have written : p.Aside lost { r with disk := disk, io := io } (s + {.entry (p.page f).index}) f :=
    ⟨held.accounts.congr rfl rfl fun _ => ⟨rfl, rfl, rfl, rfl, rfl⟩, held.others, held.swap,
      held.index, held.places⟩
  have marked : p.Aside lost
      (if failed = true then ({ r with disk := disk, io := io } : Pages).setPageDirty f
        else { r with disk := disk, io := io }) (s + {.entry (p.page f).index}) f := by
    split
    · exact written.withDirty true
    · exact written
  dsimp only
  generalize (if failed = true then ({ r with disk := disk, io := io } : Pages).setPageDirty f
      else { r with disk := disk, io := io }) = w at marked ⊢
  refine swapOffset_meets.bind ?_
  rintro offset ⟨isIndex, _⟩
  rw [← isIndex]
  obtain ⟨after, used⟩ := marked.unhold rfl
  have count := w.setMap_memMap_self (p.page f).index (w.memMap (p.page f).index - 1)
  rw [← count] at used
  generalize w.setMap (p.page f).index (w.memMap (p.page f).index - 1) = v at after used ⊢
  split
  · rw [swapActiveListAdd_eq after.swap]
    exact ⟨by rintro ⟨⟩, fun _ => after.enlist used true⟩
  · rename_i ref
    split
    · rw [swapInactiveListAdd_eq after.swap]
      exact ⟨by rintro ⟨⟩, fun _ => after.enlist used false⟩
    · refine after.tryFreeSwapEntry.bind ?_
      rintro ⟨freed, x⟩ ⟨aside', page, _, counted⟩
      refine ⟨fun _ => ⟨aside', ?_, ?_⟩, by rintro ⟨⟩⟩
      · exact (congrFun page f ▸ not_not.mp ref :)
      · rw [aside'.index]
        exact counted

end Aside

namespace Accounts

theorem index_used (accounts : p.Accounts lost s none) (swap : (p.page f).swap = true) :
    p.memMap (p.page f).index ≠ swapUnused := by
  intro unused
  have uncached := (accounts.books.unused _ (accounts.books.cached f swap) unused).2 f ⟨swap, rfl⟩
  cases uncached

/-- `page_launder` at a page of its list. -/
theorem launderPage (accounts : p.Accounts lost s none) (listed : f ∈ p.inactiveList) :
    Meets Panic.Misuse (fun result => p.Settled lost result.2 s f) (p.launderPage f) := by
  obtain ⟨swap, inactive, _⟩ := (accounts.books.inactive f).mp listed
  have used := accounts.index_used swap
  have aside := Aside.unlist accounts swap
  unfold Pages.launderPage
  rw [if_pos ⟨swap, inactive⟩, swapListDel_eq swap]
  change Meets _ _ (if ((p.unlist f).page f).ref ≠ 0 then _ else _)
  split
  · rw [swapActiveListAdd_eq aside.swap]
    exact aside.enlist used true
  · rename_i ref
    refine aside.tryFreeSwapEntry.bind ?_
    rintro ⟨freed, q⟩ ⟨aside', page, same, counted⟩
    dsimp only at aside' page same counted ⊢
    have ref' : (q.page f).ref = 0 := by
      rw [page]
      exact not_not.mp ref
    have clean : p.Clean lost q s f := ⟨aside', ref', by rw [aside'.index]; exact counted⟩
    have laundered : Meets Panic.Misuse (fun result =>
        (result.1 = true → p.Clean lost result.2 s f) ∧
        (result.1 = false → p.Settled lost result.2 s f))
        (if freed = false ∧ (q.page f).dirty = true then q.launderDirty f (p.page f).index
          else .ok (true, q)) := by
      split
      · exact aside'.launderDirty
      · exact ⟨fun _ => clean, by rintro ⟨⟩⟩
    refine laundered.bind ?_
    rintro ⟨cleaned, r⟩ ⟨isClean, settled⟩
    cases cleaned with
    | true =>
        obtain ⟨⟨accounts', others, swap', index, places⟩, ref'', counted'⟩ := isClean rfl
        rw [if_pos rfl, swapFreePage_eq accounts' swap' ref'']
        refine ⟨accounts'.evict swap' ref'' counted', fun g ne => ?_, places⟩
        dsimp only at others
        rw [vacate_page_of_ne ne, Pages.uncache, modify_page_of_ne _ ne, others g ne]
    | false => exact settled rfl

/-- `refill_inactive_scan` at a page of its list. -/
theorem refillPage (accounts : p.Accounts lost s none) (listed : f ∈ p.activeList) :
    Meets Panic.Misuse (fun q => p.Settled lost q s f) (p.refillPage f) := by
  obtain ⟨swap, active, _⟩ := (accounts.books.active f).mp listed
  have aside := Aside.unlist accounts swap
  unfold Pages.refillPage
  rw [if_pos ⟨swap, active⟩]
  split
  · rw [swapListDel_eq swap]
    change Meets _ _ ((p.unlist f).swapInactiveListAdd f)
    rw [swapInactiveListAdd_eq aside.swap]
    exact aside.enlist (accounts.index_used swap) false
  · exact ⟨accounts, fun _ _ => rfl, rfl⟩

end Accounts

/-- The node after another one is another node of the list. -/
theorem listNext_mem {list : List Frame} (nodup : list.Nodup)
    (next : listNext (some f) list = some g) : g ∈ list ∧ g ≠ f := by
  have suffix := List.dropWhile_suffix (l := list) (· != f)
  change (list.dropWhile (· != f)).tail.head? = some g at next
  cases rest : list.dropWhile (· != f) with
  | nil =>
      rw [rest] at next
      cases next
  | cons node after =>
      rw [rest] at next suffix
      have isNode : node = f := by
        have stops := List.head?_dropWhile_not (· != f) list
        rw [rest] at stops
        simpa using stops
      have mem : g ∈ after := List.mem_of_head? next
      have apart := nodup.sublist suffix.sublist
      rw [isNode, List.nodup_cons] at apart
      refine ⟨suffix.subset (List.mem_cons_of_mem _ mem), ?_⟩
      rintro rfl
      exact apart.1 mem

namespace Accounts

/-- The loop of `page_launder`. -/
theorem launderLoop {fuel count : Nat} {next : Option Frame} (accounts : p.Accounts lost s none)
    (listed : ∀ f ∈ next, f ∈ p.inactiveList) :
    Meets Panic.Misuse (fun result => result.2.Accounts lost s none ∧ result.2.places = p.places)
      (launderLoop fuel next count p) := by
  induction fuel generalizing next count p with
  | zero => exact ⟨accounts, rfl⟩
  | succ fuel ih =>
      cases next with
      | none => exact ⟨accounts, rfl⟩
      | some f =>
          refine (accounts.launderPage (listed f rfl)).bind ?_
          rintro ⟨freed, q⟩ ⟨after, others, places⟩
          refine (ih after fun g isNext => ?_).mono fun _ done => ⟨done.1, done.2.trans places⟩
          obtain ⟨mem, ne⟩ := listNext_mem accounts.books.inactives isNext
          rw [after.books.inactive, others g ne]
          exact (accounts.books.inactive g).mp mem

/-- The loop of `refill_inactive_scan`. -/
theorem refillLoop {fuel : Nat} {next : Option Frame} (accounts : p.Accounts lost s none)
    (listed : ∀ f ∈ next, f ∈ p.activeList) :
    Meets Panic.Misuse (fun q => q.Accounts lost s none ∧ q.places = p.places)
      (refillLoop fuel next p) := by
  induction fuel generalizing next p with
  | zero => exact ⟨accounts, rfl⟩
  | succ fuel ih =>
      cases next with
      | none => exact ⟨accounts, rfl⟩
      | some f =>
          refine (accounts.refillPage (listed f rfl)).bind ?_
          rintro q ⟨after, others, places⟩
          refine (ih after fun g isNext => ?_).mono fun _ done => ⟨done.1, done.2.trans places⟩
          obtain ⟨mem, ne⟩ := listNext_mem accounts.books.actives isNext
          rw [after.books.active, others g ne]
          exact (accounts.books.active g).mp mem

theorem pageLaunder (accounts : p.Accounts lost s none) :
    Meets Panic.Misuse (fun result => result.2.Accounts lost s none ∧ result.2.places = p.places)
      p.pageLaunder :=
  accounts.launderLoop fun _ first => List.mem_of_head? first

theorem refillInactiveScan (accounts : p.Accounts lost s none) :
    Meets Panic.Misuse (fun q => q.Accounts lost s none ∧ q.places = p.places)
      p.refillInactiveScan :=
  accounts.refillLoop fun _ first => List.mem_of_head? first

end Accounts

end Pages

end EdfKernel.Mm
