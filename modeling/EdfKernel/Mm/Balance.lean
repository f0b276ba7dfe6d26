import EdfKernel.Library.Tally
import EdfKernel.Mm.SwapAccounts

/-!
# The places that frames and slots are held at

The entries of the address spaces and segments that exist, their page directories, page tables and
nodes hold frames and slots.  Together with what is in hand while a function runs, they are all
that the accounts count.
-/

namespace EdfKernel.Mm

open Library

/-- A place that frames or slots are held at. -/
inductive Holder
  | slot (slot : Slot)
  | directory (mm : MmPtr)
  | table (mm : MmPtr) (index : Nat)
  | nodes (shmem : ShmemPtr)
  deriving DecidableEq

/-- The address spaces and segments that exist, the segment that is about to end, and the frames
that are not looked after, since the kernel had them from the start. -/
structure Live where
  mm : MmPtr → Bool
  shmem : ShmemPtr → Bool
  closing : Option ShmemPtr
  lost : Frame → Prop

/-- The entry belongs to an address space or segment that exists. -/
def Live.has (live : Live) : Slot → Bool
  | .user mm _ => live.mm mm
  | .shared shmem _ => live.shmem shmem

namespace Pages

variable {p q : Pages} {live : Live} {hand t : Multiset Use} {f g : Frame} {e : SwapEntry}
  {slot : Slot} {entry : Pte} {mm : MmPtr}

/-- What is held at a place. -/
def holds (p : Pages) (live : Live) : Holder → Multiset Use
  | .slot slot => if live.has slot then (p.pte slot).uses else 0
  | .directory mm => if live.mm mm then {.spare (p.pgdir mm)} else 0
  | .table mm index => if live.mm mm then ((p.table mm index).map fun f => {.whole f}).getD 0 else 0
  | .nodes shmem =>
      if live.shmem shmem then ↑((p.shmnList shmem).map fun shmn => Use.spare shmn.entry) else 0

/-- There is a page table, or a node, for the entry. -/
def Covers (p : Pages) : Slot → Prop
  | .user mm page => (p.table mm (page / 1024)).isSome = true
  | .shared shmem page => ∃ shmn ∈ p.shmnList shmem, shmn.start / shmnSize = page / 1024

theorem Covers.congr (covers : p.Covers slot) (table : q.table = p.table)
    (shmnList : q.shmnList = p.shmnList) : q.Covers slot := by
  cases slot with
  | user mm page =>
      rw [Covers, table]
      exact covers
  | shared shmem page =>
      rw [Covers, shmnList]
      exact covers

/-- The nodes of a segment are aligned and cover its entries, and the cached node is one of them
until the segment ends. -/
structure Noded (p : Pages) (closing : Option ShmemPtr) (shmem : ShmemPtr) : Prop where
  aligned : ∀ shmn ∈ p.shmnList shmem, shmn.start % shmnSize = 0
  covered : ∀ page, p.pte (.shared shmem page) ≠ .zero → p.Covers (.shared shmem page)
  cache : closing ≠ some shmem → ∀ shmn ∈ p.shmnCache shmem, shmn ∈ p.shmnList shmem

/-- Entries are in page tables and nodes. -/
def Covered (p : Pages) (live : Live) : Prop :=
  p.Backed ∧ ∀ shmem, live.shmem shmem = true → p.Noded live.closing shmem

/-- The accounts balance: what is held at all places, and what is in hand, is all that is
counted. -/
structure Balanced (p : Pages) (live : Live) (hand : Multiset Use) : Prop where
  sparse : Sparse (p.holds live)
  accounts : p.Accounts live.lost (hand + tally (p.holds live)) none
  covered : p.Covered live

theorem holds_of_places (places : q.places = p.places) : q.holds live = p.holds live := by
  simp only [Pages.places, tables, Prod.mk.injEq] at places
  obtain ⟨⟨pgdir, table, pte, shmnList⟩, _⟩ := places
  funext holder
  cases holder with
  | slot slot => rw [holds, holds, pte]
  | directory mm => rw [holds, holds, pgdir]
  | table mm index => rw [holds, holds, table]
  | nodes shmem => rw [holds, holds, shmnList]

theorem Noded.congr {closing : Option ShmemPtr} {shmem : ShmemPtr} (noded : p.Noded closing shmem)
    (shmnList : q.shmnList shmem = p.shmnList shmem)
    (shmnCache : q.shmnCache shmem = p.shmnCache shmem)
    (pte : ∀ page, q.pte (.shared shmem page) = p.pte (.shared shmem page)) :
    q.Noded closing shmem := by
  obtain ⟨aligned, covered, cache⟩ := noded
  refine ⟨?_, fun page => ?_, ?_⟩
  · rw [shmnList]
    exact aligned
  · rw [pte, Covers, shmnList]
    exact covered page
  · rw [shmnCache, shmnList]
    exact cache

theorem Covered.of_places (covered : p.Covered live) (places : q.places = p.places) :
    q.Covered live := by
  refine ⟨covered.1.of_userTables (userTables_of_tables (congrArg Prod.fst places)), ?_⟩
  simp only [Pages.places, tables, Prod.mk.injEq] at places
  obtain ⟨⟨_, _, pte, shmnList⟩, shmnCache⟩ := places
  exact fun shmem isLive => (covered.2 shmem isLive).congr (congrFun shmnList shmem)
    (congrFun shmnCache shmem) fun page => congrFun pte _

/-- An entry is written that a page table, or a node, is there for. -/
theorem Covered.writePte (covered : p.Covered live) (covers : entry ≠ .zero → p.Covers slot) :
    (p.writePte slot entry).Covered live := by
  constructor
  · intro mm page present
    by_cases own : Slot.user mm page = slot
    · rw [own, writePte_pte_self] at present
      rw [← own] at covers
      exact covers present
    · rw [writePte_pte_of_ne _ _ own] at present
      exact covered.1 mm page present
  · intro shmem isLive
    obtain ⟨aligned, inside, cache⟩ := covered.2 shmem isLive
    refine ⟨aligned, fun page present => ?_, cache⟩
    by_cases own : Slot.shared shmem page = slot
    · rw [own, writePte_pte_self] at present
      rw [← own] at covers
      exact covers present
    · rw [writePte_pte_of_ne _ _ own] at present
      exact inside page present

theorem holds_writePte (has : live.has slot = true) :
    (p.writePte slot entry).holds live =
      Function.update (p.holds live) (.slot slot) entry.uses := by
  funext holder
  by_cases own : holder = .slot slot
  · rw [own, Function.update_self, holds, if_pos has, writePte_pte_self]
  · rw [Function.update_of_ne own]
    cases holder with
    | slot other =>
        have ne : other ≠ slot := fun same => own (congrArg Holder.slot same)
        rw [holds, holds, writePte_pte_of_ne _ _ ne]
    | directory mm => rfl
    | table mm index => rfl
    | nodes shmem => rfl

/-- A slot is cached in the frame, or an entry maps it. -/
def Refers (p : Pages) (live : Live) (f : Frame) : Prop :=
  (p.page f).swap = true ∨ ∃ slot perm, live.has slot = true ∧ p.pte slot = .present f perm

/-- What is not a frame of the kernel is held by entries only. -/
theorem mem_holds {u : Use} {holder : Holder} (part : ∀ f, u ≠ .whole f ∧ u ≠ .spare f) :
    u ∈ p.holds live holder ↔
      ∃ slot, holder = .slot slot ∧ live.has slot = true ∧ u ∈ (p.pte slot).uses := by
  cases holder with
  | slot slot =>
      rw [holds]
      split
      · rename_i has
        simp [has]
      · rename_i gone
        simp [gone]
  | directory mm =>
      rw [holds]
      split <;> simp [part]
  | table mm index =>
      rw [holds]
      split
      · cases p.table mm index with
        | none => simp
        | some g => simp [part]
      · simp
  | nodes shmem =>
      rw [holds]
      split
      · simpa using fun (shmn : Shmn) _ => (part shmn.entry).2.symm
      · simp

/-- The entries that map a frame. -/
theorem frame_mem_holds {holder : Holder} : .frame f ∈ p.holds live holder ↔
    ∃ slot perm, holder = .slot slot ∧ live.has slot = true ∧ p.pte slot = .present f perm := by
  rw [mem_holds fun _ => ⟨Use.noConfusion, Use.noConfusion⟩]
  simp only [Pte.frame_mem_uses, exists_and_left]

/-- The entries that hold a slot. -/
theorem entry_mem_holds {holder : Holder} : .entry e ∈ p.holds live holder ↔
    ∃ slot, holder = .slot slot ∧ live.has slot = true ∧ p.pte slot = .swapped e := by
  rw [mem_holds fun _ => ⟨Use.noConfusion, Use.noConfusion⟩]
  simp only [Pte.entry_mem_uses]

namespace Balanced

/-- Only frames, slots and the hand have changed. -/
theorem of_places (balanced : p.Balanced live t) (places : q.places = p.places)
    (accounts : q.Accounts live.lost (hand + tally (p.holds live)) none) : q.Balanced live hand := by
  have holds : q.holds live = p.holds live := holds_of_places places
  refine ⟨?_, ?_, balanced.covered.of_places places⟩
  · rw [holds]
    exact balanced.sparse
  · rw [holds]
    exact accounts

theorem frame_mem (balanced : p.Balanced live hand) (refers : p.Refers live f) :
    (p.page f).swap = true ∨ .frame f ∈ t + tally (p.holds live) := by
  refine refers.imp_right ?_
  rintro ⟨slot, perm, has, isEntry⟩
  refine Multiset.mem_add.mpr (.inr ((mem_tally balanced.sparse).mpr ⟨.slot slot, ?_⟩))
  exact frame_mem_holds.mpr ⟨slot, perm, rfl, has, isEntry⟩

/-- What an entry holds is counted. -/
theorem uses_mem {u : Use} (balanced : p.Balanced live hand) (slot : Slot)
    (has : live.has slot = true) (mem : u ∈ (p.pte slot).uses) :
    u ∈ t + tally (p.holds live) := by
  refine Multiset.mem_add.mpr (.inr ((mem_tally balanced.sparse).mpr ⟨.slot slot, ?_⟩))
  rw [holds, if_pos has]
  exact mem

/-- Part of what is in hand is split off. -/
theorem split (balanced : p.Balanced live (hand + t)) :
    p.Accounts live.lost (hand + tally (p.holds live) + t) none := by
  have accounts := balanced.accounts
  rwa [add_right_comm] at accounts

/-- An entry is about to be taken away. -/
theorem detach (balanced : p.Balanced live hand) (has : live.has slot = true) :
    p.Accounts live.lost (hand + tally ((p.writePte slot .zero).holds live) + (p.pte slot).uses)
      none := by
  have before : p.holds live (.slot slot) = (p.pte slot).uses := if_pos has
  have change := tally_update balanced.sparse (.slot slot) (Pte.uses .zero)
  rw [before, show Pte.uses .zero = 0 from rfl, add_zero] at change
  have accounts := balanced.accounts
  rw [← change, ← add_assoc] at accounts
  rw [holds_writePte has]
  exact accounts

/-- An entry is written that a page table, or a node, is there for. -/
theorem attach (balanced : p.Balanced live t) (has : live.has slot = true)
    (covers : entry ≠ .zero → p.Covers slot) (places : q.places = p.places)
    (accounts : q.Accounts live.lost
      (hand + tally ((p.writePte slot .zero).holds live) + entry.uses) none) :
    (q.writePte slot entry).Balanced live hand := by
  have holds : (q.writePte slot entry).holds live =
      Function.update ((p.writePte slot .zero).holds live) (.slot slot) entry.uses := by
    rw [holds_writePte has, holds_of_places places, holds_writePte has, Function.update_idem]
  have sparse : Sparse ((p.writePte slot .zero).holds live) := by
    rw [holds_writePte has]
    exact balanced.sparse.update _ _
  have empty : (p.writePte slot .zero).holds live (.slot slot) = 0 := by
    rw [holds_writePte has, Function.update_self]
    rfl
  have change := tally_update sparse (.slot slot) entry.uses
  rw [empty, add_zero] at change
  refine ⟨?_, ?_, (balanced.covered.of_places places).writePte fun present => ?_⟩
  · rw [holds]
    exact sparse.update _ _
  · rw [holds, change, ← add_assoc]
    exact accounts.writePte slot entry
  · have there := covers present
    simp only [Pages.places, tables, Prod.mk.injEq] at places
    obtain ⟨⟨_, table, _, shmnList⟩, _⟩ := places
    exact there.congr table shmnList

/-- An entry takes what is in hand, and what it held is in hand. -/
theorem writePte (balanced : p.Balanced live (hand + entry.uses)) (has : live.has slot = true)
    (covers : entry ≠ .zero → p.Covers slot) :
    (p.writePte slot entry).Balanced live (hand + (p.pte slot).uses) := by
  have detached := balanced.detach has
  refine balanced.attach has covers rfl ?_
  rwa [add_right_comm hand, add_right_comm, add_right_comm hand]

/-- A frame that was set aside goes to a place, where it may be put to another use. -/
theorem install {live' : Live} {u : Use} (balanced : p.Balanced live (hand + {.spare f}))
    (holder : Holder)
    (holds : q.holds live' = Function.update (p.holds live) holder (p.holds live holder + {u}))
    (accounts : ∀ s, p.Accounts live.lost (s + {.spare f}) none →
      q.Accounts live.lost (s + {u}) none)
    (covered : q.Covered live') (lost : live'.lost = live.lost) : q.Balanced live' hand := by
  have change := tally_update balanced.sparse holder (p.holds live holder + {u})
  rw [add_comm (p.holds live holder), ← add_assoc, add_left_inj] at change
  refine ⟨?_, ?_, covered⟩
  · rw [holds]
    exact balanced.sparse.update _ _
  · rw [holds, add_comm (p.holds live holder), change, ← add_assoc, lost]
    exact accounts _ balanced.split

/-- A frame of the kernel is taken from its place and freed. -/
theorem uninstall {live' : Live} {rest : Multiset Use} {u : Use} (balanced : p.Balanced live hand)
    (holder : Holder) (holds : q.holds live' = Function.update (p.holds live) holder rest)
    (old : p.holds live holder = rest + {u}) (own : u = .spare f ∨ u = .whole f)
    (page : q.page = p.page) (free : q.free = p.free) (book : q.book = p.book) (covered : q.Covered live')
    (lost : live'.lost = live.lost) :
    p.freePage f = .ok (p.vacate f) ∧ (q.vacate f).Balanced live' hand := by
  have change := tally_update balanced.sparse holder rest
  rw [old, add_left_comm, add_comm (tally (p.holds live)), add_right_inj] at change
  have accounts := balanced.accounts
  rw [← change, ← add_assoc] at accounts
  have given := accounts.congr (q := q) book free fun g => by
    rw [page]
    exact ⟨rfl, rfl, rfl, rfl, rfl⟩
  have kept : (q.vacate f).holds live' = q.holds live' := holds_of_places rfl
  refine ⟨(accounts.vacate own).1, ?_, ?_, covered.of_places rfl⟩
  · rw [kept, holds]
    exact balanced.sparse.update _ _
  · rw [kept, holds, lost]
    exact (given.vacate own).2

end Balanced

end Pages

end EdfKernel.Mm
