import EdfKernel.Mm.Balance

/-!
# The functions on page tables keep the balance

Entries are removed, pages are inserted, and page tables are made and freed, with every reference
counted once.
-/

namespace EdfKernel.Mm

open Library

namespace Pages

variable {p q : Pages} {live : Live} {hand t : Multiset Use} {f g : Frame} {e : SwapEntry}
  {slot : Slot} {entry : Pte} {mm : MmPtr} {la : Nat} {perm : Perm}

/-- A page table that is added has no entries to clear. -/
theorem clearTable_eq (backed : p.Backed) (missing : p.table mm (pdx la) = none) :
    p.clearTable mm (pdx la) = p.pte := by
  funext slot
  cases slot with
  | user mm' page =>
      rw [clearTable]
      split
      · rename_i own
        by_contra present
        have there := backed mm' page (Ne.symm present)
        rw [own.1, own.2, missing] at there
        cases there
      · rfl
  | shared shmem page => rfl

namespace Balanced

/-! ## Frames in hand -/

theorem allocPage (balanced : p.Balanced live hand) (answer : p.allocPage = (some f, q)) :
    q.Balanced live (hand + {.spare f}) := by
  have after := (balanced.accounts.allocPage answer).1
  obtain ⟨_, grants, rfl⟩ := allocPage_some answer
  refine balanced.of_places rfl ?_
  rwa [add_right_comm]

theorem withGrants (balanced : p.Balanced live hand) (answer : p.allocPage = (none, q)) :
    q.Balanced live hand := by
  obtain ⟨grants, rfl⟩ := allocPage_none answer
  exact balanced.of_places rfl (balanced.accounts.withGrants grants)

theorem freeSpare (balanced : p.Balanced live (hand + {.spare f})) :
    p.freePage f = .ok (p.vacate f) ∧ (p.vacate f).Balanced live hand := by
  obtain ⟨freed, accounts⟩ := balanced.split.freeSpare
  exact ⟨freed, balanced.of_places rfl accounts⟩

/-! ## Entries that are removed -/

/-- The end of an entry that maps a frame: the frame is freed with the last one, unless a slot is
cached there. -/
theorem dropFrame {lost : Frame → Prop} {s : Multiset Use}
    (accounts : p.Accounts lost (s + {.frame f}) none) (uncached : (p.page f).swap = false) :
    Meets Panic.Misuse (fun q => q.Accounts lost s none ∧ q.places = p.places)
      (if ((p.pageRefDec f).page f).ref = 0 then (p.pageRefDec f).freePage f
        else .ok (p.pageRefDec f)) := by
  have fits := accounts.fits f
  rw [Multiset.count_add, Multiset.count_singleton_self] at fits
  have ref := (fits.of_data (.inr (Nat.succ_pos _))).2.2.2.1
  have left := pageRefDec_page_self (p := p) (f := f)
  split
  · rename_i zero
    rw [left, ref] at zero
    simp only at zero
    obtain ⟨freed, after⟩ := (accounts.part uncached (Multiset.count_eq_zero.mp (by omega))).freeSpare
    exact .of_eq_ok freed ⟨after, rfl⟩
  · rename_i more
    rw [left, ref] at more
    simp only at more
    exact ⟨accounts.drop (.inr (Multiset.count_pos.mp (by omega))), rfl⟩

/-- `page_remove_pte` and `shmem_remove_entry_pte`. -/
theorem removePte (balanced : p.Balanced live hand) (has : live.has slot = true) :
    Meets Panic.Misuse (fun q => q.Balanced live hand) (p.removePte slot) := by
  have detached := balanced.detach has
  have attach : ∀ q : Pages, q.places = p.places →
      q.Accounts live.lost (hand + tally ((p.writePte slot .zero).holds live)) none →
        (q.writePte slot .zero).Balanced live hand := by
    intro q places accounts
    refine balanced.attach has (absurd rfl) places ?_
    rwa [Pte.uses, add_zero]
  unfold Pages.removePte
  split
  · rename_i f perm isFrame
    rw [isFrame] at detached
    split
    · rename_i uncached
      refine (dropFrame detached uncached).bind fun q done => ?_
      exact attach q done.2 done.1
    · rename_i cached
      have dirty : (if perm.dirty = true then p.setPageDirty f else p).Accounts live.lost
          (hand + tally ((p.writePte slot .zero).holds live) + {.frame f}) none ∧
          ((if perm.dirty = true then p.setPageDirty f else p).page f).swap = true := by
        have swap : (p.page f).swap = true := Bool.not_eq_false _ ▸ cached
        split
        · have marked := p.modify_page_self (f := f) fun s => { s with dirty := true }
          exact ⟨detached.setPageDirty f, (congrArg Page.swap marked).trans swap⟩
        · exact ⟨detached, swap⟩
      have places : (if perm.dirty = true then p.setPageDirty f else p).places = p.places := by
        split
        · rfl
        · rfl
      exact attach _ places (dirty.1.drop (.inl dirty.2))
  · rename_i e isEntry
    rw [isEntry] at detached
    refine detached.swapRemoveEntry.bind fun q done => ?_
    exact attach q done.2 done.1
  · exact balanced

/-! ## Page tables -/

/-- A frame that was set aside becomes a page table. -/
theorem addTable (balanced : p.Balanced live (hand + {.spare f})) (has : live.mm mm = true)
    (missing : p.table mm (pdx la) = none) :
    Balanced { p.modify f fun s => { s with ref := 1 } with
      table := Function.update p.table mm (Function.update (p.table mm) (pdx la) (some f))
      pte := p.clearTable mm (pdx la) } live hand := by
  obtain ⟨backed, noded⟩ := balanced.covered
  have cleared := clearTable_eq backed missing
  have itself := p.modify_page_self (f := f) fun s => { s with ref := 1 }
  refine balanced.install (u := .whole f) (.table mm (pdx la)) ?_ (fun s given => given.build
      (fun g ne => Function.update_of_ne ne ..) (congrArg Page.swap itself :)
      (congrArg Page.reserved itself :) rfl rfl)
    ⟨fun mm' page present => ?_, fun shmem isLive => ?_⟩ rfl
  · rw [cleared]
    funext holder
    by_cases own : holder = .table mm (pdx la)
    · simp [own, Pages.holds, has, missing]
    · rw [Function.update_of_ne own]
      cases holder with
      | slot slot => rfl
      | directory mm' => rfl
      | table mm' index =>
          by_cases same : mm' = mm
          · subst same
            have other : index ≠ pdx la := fun eq => own (by rw [eq])
            simp [Pages.holds, other]
          · simp [Pages.holds, same]
      | nodes shmem => rfl
  · rw [cleared] at present
    have there := backed mm' page present
    by_cases same : mm' = mm
    · subst same
      by_cases index : page / 1024 = pdx la
      · simp [index]
      · simpa [index] using there
    · simpa [same] using there
  · refine (noded shmem isLive).congr rfl rfl fun page => ?_
    rw [cleared]

/-- `get_pte`: a page table is added if need be, and the frames that are referred to stay so. -/
theorem getPte (balanced : p.Balanced live hand) (has : live.mm mm = true) (create : Bool) :
    (p.getPte mm la create).2.Balanced live hand ∧ (p.getPte mm la create).2.pte = p.pte ∧
      ∀ f, p.Refers live f → (p.getPte mm la create).2.Refers live f := by
  unfold Pages.getPte
  split
  · exact ⟨balanced, rfl, fun _ => id⟩
  · rename_i missing
    rw [Bool.not_eq_true, Option.isSome_eq_false_iff, Option.isNone_iff_eq_none] at missing
    split
    · rcases answer : p.allocPage with ⟨newpage, q⟩
      cases newpage with
      | none =>
          have after := balanced.withGrants answer
          obtain ⟨grants, rfl⟩ := allocPage_none answer
          exact ⟨after, rfl, fun _ => id⟩
      | some g =>
          have after := balanced.allocPage answer
          obtain ⟨isFree, grants, rfl⟩ := allocPage_some answer
          have added := after.addTable has missing
          have same := clearTable_eq balanced.covered.1 missing
          refine ⟨added, same, fun f refers => ?_⟩
          refine refers.imp (fun swap => ?_) ?_
          · have fits := balanced.accounts.fits g
            rw [isFree] at fits
            have ne : f ≠ g := by
              rintro rfl
              rw [fits.of_free.1] at swap
              cases swap
            have kept := p.modify_page_of_ne (fun s => { s with ref := 1 }) ne
            exact (congrArg Page.swap kept).trans swap
          · rintro ⟨slot, perm, has', isEntry⟩
            exact ⟨slot, perm, has', (congrFun same slot).trans isEntry⟩
    · exact ⟨balanced, rfl, fun _ => id⟩

/-- One more entry is about to map a frame, that is set aside or referred to. -/
theorem claim (balanced : p.Balanced live (hand + t))
    (claims : t = {.spare f} ∨ t = 0 ∧ p.Refers live f) :
    (p.pageRefInc f).Balanced live (hand + {.frame f}) := by
  refine balanced.of_places rfl ?_
  rw [add_right_comm]
  rcases claims with rfl | ⟨rfl, refers⟩
  · exact balanced.split.take
  · have accounts := balanced.split
    rw [add_zero] at accounts
    exact accounts.share (balanced.frame_mem refers)

/-- An entry gives up what it holds for as much. -/
theorem replace (balanced : p.Balanced live hand) (has : live.has slot = true)
    (same : entry.uses = (p.pte slot).uses) (covers : entry ≠ .zero → p.Covers slot) :
    (p.writePte slot entry).Balanced live hand := by
  refine balanced.attach has covers rfl ?_
  rw [same]
  exact balanced.detach has

/-- `page_insert` for a frame that is set aside or referred to, which fails only when there is no
page table. -/
theorem pageInsert (balanced : p.Balanced live (hand + t)) (has : live.mm mm = true)
    (low : la < 2 ^ 32) (claims : t = {.spare f} ∨ t = 0 ∧ p.Refers live f) :
    Meets Panic.Misuse (fun result =>
        (result.1 = 0 → result.2.Balanced live hand ∧
          result.2.pte (userSlot mm la) = .present f perm) ∧
        (result.1 ≠ 0 → result.2.Balanced live (hand + t) ∧ result.2.pte = p.pte) ∧
        ((p.table mm (pdx la)).isSome = true → result.1 = 0))
      (p.pageInsert mm f la perm) := by
  unfold Pages.pageInsert
  have gets := @getPte p live (hand + t) mm la balanced has true
  have table := @getPte_table p mm la true
  have stays : (p.table mm (pdx la)).isSome = true → (p.getPte mm la true).1 = true := by
    intro there
    rw [Pages.getPte, if_pos there]
  rcases answer : p.getPte mm la true with ⟨found, q⟩
  rw [answer] at gets table stays
  obtain ⟨after, pte, refers⟩ := gets
  dsimp only at after pte refers
  cases found with
  | false => exact ⟨by rintro ⟨⟩, fun _ => ⟨after, pte⟩, fun there => by cases stays there⟩
  | true =>
      have there := table rfl
      rw [pdx_eq low] at there
      have has' : live.has (userSlot mm la) = true := has
      have covers : ∀ r : Pages, r.table = q.table → r.Covers (userSlot mm la) := by
        intro r same
        rw [userSlot, Covers, same]
        exact there
      have counted := after.claim (claims.imp_right fun both => ⟨both.1, refers f both.2⟩)
      have fill : ∀ r : Pages, r.table = q.table → r.pte (userSlot mm la) = .zero →
          r.Balanced live (hand + {.frame f}) →
            (r.writePte (userSlot mm la) (.present f perm)).Balanced live hand := by
        intro r same zero balanced
        have written : (r.writePte (userSlot mm la) (.present f perm)).Balanced live
            (hand + (r.pte (userSlot mm la)).uses) := balanced.writePte has' fun _ => covers r same
        rwa [zero, Pte.uses, add_zero] at written
      have removes : Meets Panic.Misuse
          (fun r => (r.writePte (userSlot mm la) (.present f perm)).Balanced live hand)
          ((q.pageRefInc f).pageRemovePte mm la) := by
        have removed : Meets Panic.Misuse (fun r => r.Balanced live (hand + {.frame f}) ∧
            r.pte = Function.update (q.pageRefInc f).pte (userSlot mm la) .zero ∧ r.table = q.table)
            ((q.pageRefInc f).pageRemovePte mm la) :=
          (counted.removePte has').and_of_ok fun r done =>
            ⟨removePte_pte done, (removePte_table done :)⟩
        refine removed.mono fun r done => ?_
        obtain ⟨balanced, pte, table⟩ := done
        refine fill r table ?_ balanced
        rw [pte, Function.update_self]
      suffices filled : Meets Panic.Misuse (fun r : Pages =>
          (r.writePte (userSlot mm la) (.present f perm)).Balanced live hand) _ from
        filled.bind fun r done =>
          ⟨fun _ => ⟨done, writePte_pte_self ..⟩, fun failed => absurd rfl failed, fun _ => rfl⟩
      split
      · rename_i zero
        exact fill (q.pageRefInc f) rfl zero counted
      · rename_i g perm' isFrame
        split
        · rename_i own
          have mapped : .frame f ∈ hand + tally ((q.pageRefInc f).holds live) := by
            refine counted.uses_mem (userSlot mm la) has' ?_
            rw [isFrame, own]
            exact Multiset.mem_singleton_self _
          have dropped : ((q.pageRefInc f).pageRefDec f).Balanced live hand :=
            counted.of_places rfl (counted.split.drop (.inr mapped))
          refine dropped.replace has' ?_ fun _ => covers _ rfl
          change _ = ((q.pageRefInc f).pte (userSlot mm la)).uses
          rw [isFrame, own]
          rfl
        · exact removes
      · exact removes

/-- `pgdir_alloc_page`. -/
theorem pgdirAllocPage (balanced : p.Balanced live hand) (has : live.mm mm = true)
    (low : la < 2 ^ 32) :
    Meets Panic.Misuse (fun result => result.2.Balanced live hand)
      (p.pgdirAllocPage mm la perm) := by
  unfold Pages.pgdirAllocPage
  rcases answer : p.allocPage with ⟨newpage, q⟩
  cases newpage with
  | none => exact balanced.withGrants answer
  | some f =>
      refine ((balanced.allocPage answer).pageInsert has low (.inl rfl)).bind ?_
      rintro ⟨ret, r⟩ ⟨mapped, failed, _⟩
      dsimp only at mapped failed ⊢
      split
      · rename_i nonzero
        obtain ⟨freed, after⟩ := (failed nonzero).1.freeSpare
        rw [freed]
        exact after
      · rename_i zero
        exact (mapped (not_not.mp zero)).1

end Balanced

end Pages

end EdfKernel.Mm
