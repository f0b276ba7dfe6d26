import EdfKernel.Library.Buddies
import EdfKernel.Mm.Buddy
import Mathlib.Data.List.Nodup

/-!
# Free blocks of the buddy allocator

`Good` says that the free lists hold aligned blocks of pages of one zone, apart from each other and
no two of them buddies, that `PG_property` marks their first pages and that `nr_free` counts them.
A block is `Held` while it is in no list.  A held block can be put into its list, and a block of a
list can be taken out and is then held.
-/

namespace EdfKernel.Mm.Buddy

variable {b b' b'' : Buddy} {z idx k : Nat}

/-- A page of a zone. -/
def InZone (b : Buddy) (p : Nat) : Prop := p < b.npage ∧ (b.page p).pgReserved = false

/-- Pages that follow each other in one zone. -/
def OfZone (b : Buddy) (z base n : Nat) : Prop :=
  ∀ q, base ≤ q → q < base + n → b.InZone q ∧ (b.page q).zoneNum = z

/-- A page of a free block. -/
def IsFree (b : Buddy) (q : Nat) : Prop := ∃ k, ∃ p ∈ b.freeList k, p ≤ q ∧ q < p + 2 ^ k

/-- A zone is one run of pages from its base on. -/
structure Zones (b : Buddy) : Prop where
  known : ∀ p, b.InZone p → (b.page p).zoneNum < b.zones.length
  base_le : ∀ p, b.InZone p → b.memBase (b.page p).zoneNum ≤ p
  whole : ∀ p, b.InZone p → ∀ q, b.memBase (b.page p).zoneNum ≤ q → q ≤ p →
    b.InZone q ∧ (b.page q).zoneNum = (b.page p).zoneNum

/-- The buddy of a block is not in the free list of its order. -/
def Lonely (b : Buddy) (z idx k : Nat) : Prop :=
  k < maxOrder → (b.page (b.idx2page z (idx ^^^ 2 ^ k))).zoneNum = z →
    b.idx2page z (idx ^^^ 2 ^ k) ∉ b.freeList k

/-- The invariant of the allocator. -/
structure Good (b : Buddy) : Prop where
  zones : b.Zones
  order_le : ∀ k, ∀ p ∈ b.freeList k, k ≤ maxOrder
  ofZone : ∀ k, ∀ p ∈ b.freeList k, b.OfZone (b.page p).zoneNum p (2 ^ k)
  aligned : ∀ k, ∀ p ∈ b.freeList k, 2 ^ k ∣ b.page2idx p
  apart : ∀ k, ∀ p ∈ b.freeList k, ∀ m, ∀ q ∈ b.freeList m, (p, k) ≠ (q, m) →
    p + 2 ^ k ≤ q ∨ q + 2 ^ m ≤ p
  lonely : ∀ k, ∀ p ∈ b.freeList k, b.Lonely (b.page p).zoneNum (b.page2idx p) k
  nodup : ∀ k, (b.freeList k).Nodup
  count : ∀ k, b.nrFree k = (b.freeList k).length
  listed : ∀ k, ∀ p ∈ b.freeList k, (b.page p).pgProperty = true ∧ (b.page p).property = k
  heads : ∀ p, b.InZone p → (b.page p).pgProperty = true → ∃ k, p ∈ b.freeList k

/-- A block of a zone that is in no free list. -/
structure Held (b : Buddy) (z idx k : Nat) : Prop where
  ofZone : b.OfZone z (b.idx2page z idx) (2 ^ k)
  aligned : 2 ^ k ∣ idx
  taken : ∀ q, b.idx2page z idx ≤ q → q < b.idx2page z idx + 2 ^ k → ¬b.IsFree q

/-- The same zones. -/
structure SameZones (b b' : Buddy) : Prop where
  npage : b'.npage = b.npage
  zones : b'.zones = b.zones
  pgReserved : ∀ p, (b'.page p).pgReserved = (b.page p).pgReserved
  zoneNum : ∀ p, (b'.page p).zoneNum = (b.page p).zoneNum

namespace SameZones

theorem refl (b : Buddy) : SameZones b b :=
  ⟨rfl, rfl, fun _ => rfl, fun _ => rfl⟩

theorem trans (first : SameZones b b') (second : SameZones b' b'') : SameZones b b'' :=
  ⟨second.npage.trans first.npage, second.zones.trans first.zones,
    fun p => (second.pgReserved p).trans (first.pgReserved p),
    fun p => (second.zoneNum p).trans (first.zoneNum p)⟩

variable (same : SameZones b b')
include same

theorem inZone (p : Nat) : b'.InZone p ↔ b.InZone p := by
  unfold InZone
  rw [same.npage, same.pgReserved]

theorem memBase (z : Nat) : b'.memBase z = b.memBase z := by
  unfold Buddy.memBase
  rw [same.zones]

theorem idx2page (z idx : Nat) : b'.idx2page z idx = b.idx2page z idx := by
  unfold Buddy.idx2page
  rw [same.memBase]

theorem page2idx (p : Nat) : b'.page2idx p = b.page2idx p := by
  unfold Buddy.page2idx
  rw [same.zoneNum, same.memBase]

theorem ofZone {base n : Nat} (ofZone : b.OfZone z base n) : b'.OfZone z base n := by
  intro q low high
  rw [same.inZone, same.zoneNum]
  exact ofZone q low high

theorem good_zones (zones : b.Zones) : b'.Zones := by
  refine ⟨fun p inZone => ?_, fun p inZone => ?_, fun p inZone q low high => ?_⟩
  · rw [same.zoneNum, same.zones]
    exact zones.known p ((same.inZone p).mp inZone)
  · rw [same.zoneNum, same.memBase]
    exact zones.base_le p ((same.inZone p).mp inZone)
  · rw [same.zoneNum, same.memBase] at low
    rw [same.inZone, same.zoneNum, same.zoneNum]
    exact zones.whole p ((same.inZone p).mp inZone) q low high

end SameZones

/-! ## Blocks -/

theorem OfZone.mono {base n base' n' : Nat} (ofZone : b.OfZone z base n) (low : base ≤ base')
    (high : base' + n' ≤ base + n) : b.OfZone z base' n' :=
  fun q lowQ highQ => ofZone q (by omega) (by omega)

/-- The index of a page of a zone. -/
theorem page2idx_idx2page (zone : (b.page (b.idx2page z idx)).zoneNum = z) :
    b.page2idx (b.idx2page z idx) = idx := by
  unfold page2idx
  rw [zone]
  exact Nat.add_sub_cancel_left ..

theorem Zones.idx2page_page2idx (zones : b.Zones) {p : Nat} (inZone : b.InZone p) :
    b.idx2page (b.page p).zoneNum (b.page2idx p) = p :=
  Nat.add_sub_cancel' (zones.base_le p inZone)

theorem IsFree.of_mem {p : Nat} (mem : p ∈ b.freeList k) : b.IsFree p :=
  ⟨k, p, mem, Nat.le_refl p, Nat.lt_add_of_pos_right (Nat.two_pow_pos k)⟩

theorem Good.inZone (good : b.Good) {p : Nat} (mem : p ∈ b.freeList k) : b.InZone p :=
  (good.ofZone k p mem p (Nat.le_refl p) (Nat.lt_add_of_pos_right (Nat.two_pow_pos k))).1

/-- A page is in one free list at most. -/
theorem Good.order_eq (good : b.Good) {p m : Nat} (mem : p ∈ b.freeList k)
    (mem' : p ∈ b.freeList m) : k = m :=
  (good.listed k p mem).2.symm.trans (good.listed m p mem').2

theorem Held.inZone (held : b.Held z idx k) :
    b.InZone (b.idx2page z idx) ∧ (b.page (b.idx2page z idx)).zoneNum = z :=
  held.ofZone _ (Nat.le_refl _) (Nat.lt_add_of_pos_right (Nat.two_pow_pos k))

theorem Held.page2idx (held : b.Held z idx k) : b.page2idx (b.idx2page z idx) = idx :=
  page2idx_idx2page held.inZone.2

/-- No page of a held block is the first page of a free block. -/
theorem Held.not_mem (held : b.Held z idx k) {q m : Nat} (low : b.idx2page z idx ≤ q)
    (high : q < b.idx2page z idx + 2 ^ k) : q ∉ b.freeList m :=
  fun mem => held.taken q low high (IsFree.of_mem mem)

/-- A held block and its upper buddy make a larger held block. -/
theorem Held.join (lower : b.Held z idx k) (upper : b.Held z (idx + 2 ^ k) k)
    (aligned : 2 ^ (k + 1) ∣ idx) : b.Held z idx (k + 1) := by
  have double : 2 ^ (k + 1) = 2 ^ k + 2 ^ k := by ring
  have next : b.idx2page z (idx + 2 ^ k) = b.idx2page z idx + 2 ^ k := (Nat.add_assoc _ _ _).symm
  have ofUpper := upper.ofZone
  have takenUpper := upper.taken
  rw [next] at ofUpper takenUpper
  refine ⟨fun q low high => ?_, aligned, fun q low high => ?_⟩
  · rcases Nat.lt_or_ge q (b.idx2page z idx + 2 ^ k) with inLower | inUpper
    · exact lower.ofZone q low inLower
    · exact ofUpper q inUpper (by omega)
  · rcases Nat.lt_or_ge q (b.idx2page z idx + 2 ^ k) with inLower | inUpper
    · exact lower.taken q low inLower
    · exact takenUpper q inUpper (by omega)

/-- A part of a held block that is a block is held. -/
theorem Held.part {idx' k' : Nat} (held : b.Held z idx k) (aligned : 2 ^ k' ∣ idx')
    (low : idx ≤ idx') (high : idx' + 2 ^ k' ≤ idx + 2 ^ k) : b.Held z idx' k' := by
  have start : b.idx2page z idx' = b.memBase z + idx' := rfl
  have start' : b.idx2page z idx = b.memBase z + idx := rfl
  refine ⟨held.ofZone.mono (by omega) (by omega), aligned, fun q lowQ highQ => ?_⟩
  exact held.taken q (by omega) (by omega)

/-! ## Putting a block into its list -/

section AddFree

variable (b) (p : Nat) (k)

theorem addFree_page (q : Nat) :
    (b.addFree p k).page q =
      if q = p then { b.page p with pgProperty := true, property := k } else b.page q := by
  by_cases same : q = p
  · rw [if_pos same, same]
    simp [addFree, setPageProperty, modify]
  · rw [if_neg same]
    simp [addFree, setPageProperty, modify, same]

theorem mem_addFree {q m : Nat} :
    q ∈ (b.addFree p k).freeList m ↔ (m = k ∧ q = p) ∨ q ∈ b.freeList m := by
  change q ∈ Function.update b.freeList k (p :: b.freeList k) m ↔ _
  by_cases same : m = k
  · subst same
    rw [Function.update_self, List.mem_cons]
    simp
  · rw [Function.update_of_ne same]
    simp [same]

theorem addFree_sameZones : SameZones b (b.addFree p k) := by
  refine ⟨rfl, rfl, fun q => ?_, fun q => ?_⟩
  · rw [addFree_page]
    split
    · rename_i same
      rw [same]
    · rfl
  · rw [addFree_page]
    split
    · rename_i same
      rw [same]
    · rfl

theorem isFree_addFree (q : Nat) :
    (b.addFree p k).IsFree q ↔ b.IsFree q ∨ (p ≤ q ∧ q < p + 2 ^ k) := by
  unfold IsFree
  simp only [mem_addFree]
  constructor
  · rintro ⟨m, r, ⟨rfl, rfl⟩ | mem, low, high⟩
    · exact .inr ⟨low, high⟩
    · exact .inl ⟨m, r, mem, low, high⟩
  · rintro (⟨m, r, mem, low, high⟩ | inside)
    · exact ⟨m, r, .inr mem, low, high⟩
    · exact ⟨k, p, .inl ⟨rfl, rfl⟩, inside⟩

end AddFree

/-- Where two blocks are buddies, each is the buddy of the other. -/
theorem xor_buddy {i j k : Nat} (buddy : i ^^^ 2 ^ k = j) : j ^^^ 2 ^ k = i := by
  rw [← buddy, Nat.xor_assoc, Nat.xor_self, Nat.xor_zero]

/-- A held block whose buddy is not free goes into its list. -/
theorem Good.addFree (good : b.Good) (held : b.Held z idx k) (le : k ≤ maxOrder)
    (lonely : b.Lonely z idx k) : (b.addFree (b.idx2page z idx) k).Good := by
  have same := addFree_sameZones b k (b.idx2page z idx)
  have zone := held.inZone.2
  have index := held.page2idx
  have fresh : ∀ m, b.idx2page z idx ∉ b.freeList m := fun m =>
    held.not_mem (Nat.le_refl _) (Nat.lt_add_of_pos_right (Nat.two_pow_pos k))
  have apart : ∀ m, ∀ q ∈ b.freeList m,
      b.idx2page z idx + 2 ^ k ≤ q ∨ q + 2 ^ m ≤ b.idx2page z idx := by
    intro m q mem
    by_contra meet
    rw [not_or, Nat.not_le, Nat.not_le] at meet
    rcases Nat.le_total (b.idx2page z idx) q with before | after
    · exact held.taken q before meet.1 (IsFree.of_mem mem)
    · exact held.taken _ (Nat.le_refl _) (Nat.lt_add_of_pos_right (Nat.two_pow_pos k))
        ⟨m, q, mem, after, meet.2⟩
  refine ⟨same.good_zones good.zones, ?_, ?_, ?_, ?_, ?_, ?_, ?_, ?_, ?_⟩
  · intro m q mem
    rcases (mem_addFree ..).mp mem with ⟨rfl, rfl⟩ | old
    · exact le
    · exact good.order_le m q old
  · intro m q mem
    rw [same.zoneNum]
    apply same.ofZone
    rcases (mem_addFree ..).mp mem with ⟨rfl, rfl⟩ | old
    · rw [zone]
      exact held.ofZone
    · exact good.ofZone m q old
  · intro m q mem
    rw [same.page2idx]
    rcases (mem_addFree ..).mp mem with ⟨rfl, rfl⟩ | old
    · rw [index]
      exact held.aligned
    · exact good.aligned m q old
  · intro m q memQ m' q' memQ' other
    rcases (mem_addFree ..).mp memQ with ⟨rfl, rfl⟩ | old
    · rcases (mem_addFree ..).mp memQ' with ⟨rfl, rfl⟩ | old'
      · exact absurd rfl other
      · exact apart m' q' old'
    · rcases (mem_addFree ..).mp memQ' with ⟨rfl, rfl⟩ | old'
      · exact (apart m q old).symm
      · exact good.apart m q old m' q' old' other
  · intro m q mem less sameZone memBuddy
    rw [same.zoneNum, same.zoneNum, same.idx2page, same.page2idx] at sameZone
    rw [same.zoneNum, same.idx2page, same.page2idx] at memBuddy
    rcases (mem_addFree ..).mp mem with ⟨rfl, rfl⟩ | old
    · rw [zone, index] at sameZone memBuddy
      rcases (mem_addFree ..).mp memBuddy with ⟨_, itself⟩ | oldBuddy
      · have equal : idx ^^^ 2 ^ m = idx := Nat.add_left_cancel itself
        have positive := Nat.two_pow_pos m
        rcases Library.Buddies.xor_cases held.aligned with ⟨_, up, _⟩ | ⟨j, down, _, up, _⟩ <;> omega
      · exact lonely less sameZone oldBuddy
    · rcases (mem_addFree ..).mp memBuddy with ⟨rfl, isNew⟩ | oldBuddy
      · have zones : (b.page q).zoneNum = z := by rw [← sameZone, isNew, zone]
        rw [zones] at isNew
        have buddy : idx ^^^ 2 ^ m = b.page2idx q := xor_buddy (Nat.add_left_cancel isNew)
        have isQ : b.idx2page z (idx ^^^ 2 ^ m) = q := by
          rw [buddy, ← zones]
          exact good.zones.idx2page_page2idx (good.inZone old)
        refine lonely less ?_ ?_
        · rw [isQ, zones]
        · rw [isQ]
          exact old
      · exact good.lonely m q old less sameZone oldBuddy
  · intro m
    change (Function.update b.freeList k (_ :: b.freeList k) m).Nodup
    by_cases atK : m = k
    · subst atK
      rw [Function.update_self]
      exact List.nodup_cons.mpr ⟨fresh m, good.nodup m⟩
    · rw [Function.update_of_ne atK]
      exact good.nodup m
  · intro m
    change Function.update b.nrFree k (b.nrFree k + 1) m =
      (Function.update b.freeList k (_ :: b.freeList k) m).length
    by_cases atK : m = k
    · subst atK
      rw [Function.update_self, Function.update_self, List.length_cons, good.count]
    · rw [Function.update_of_ne atK, Function.update_of_ne atK, good.count]
  · intro m q mem
    rw [addFree_page]
    rcases (mem_addFree ..).mp mem with ⟨rfl, rfl⟩ | old
    · rw [if_pos rfl]
      exact ⟨rfl, rfl⟩
    · rw [if_neg (by rintro rfl; exact fresh m old)]
      exact good.listed m q old
  · intro q inZone head
    rw [addFree_page] at head
    by_cases isNew : q = b.idx2page z idx
    · exact ⟨k, (mem_addFree ..).mpr (.inl ⟨rfl, isNew⟩)⟩
    · rw [if_neg isNew] at head
      obtain ⟨m, mem⟩ := good.heads q ((same.inZone q).mp inZone) head
      exact ⟨m, (mem_addFree ..).mpr (.inr mem)⟩

/-! ## Taking a block out of its list -/

/-- A block that is taken out of its list, with its flag cleared. -/
def takeOut (b : Buddy) (p k : Nat) : Buddy := (b.unlink p k).setPageProperty p false

section TakeOut

variable (b) (p : Nat) (k)

theorem takeOut_page (q : Nat) :
    (b.takeOut p k).page q =
      if q = p then { b.page p with pgProperty := false } else b.page q := by
  by_cases same : q = p
  · rw [if_pos same, same]
    simp [takeOut, setPageProperty, modify, unlink, listDel]
  · rw [if_neg same]
    simp [takeOut, setPageProperty, modify, unlink, listDel, same]

theorem takeOut_sameZones : SameZones b (b.takeOut p k) := by
  refine ⟨rfl, rfl, fun q => ?_, fun q => ?_⟩
  · rw [takeOut_page]
    split
    · rename_i same
      rw [same]
    · rfl
  · rw [takeOut_page]
    split
    · rename_i same
      rw [same]
    · rfl

theorem takeOut_freeList (m : Nat) : (b.takeOut p k).freeList m = (b.freeList m).erase p :=
  rfl

end TakeOut

theorem Good.mem_takeOut (good : b.Good) {p q m : Nat} :
    q ∈ (b.takeOut p k).freeList m ↔ q ∈ b.freeList m ∧ q ≠ p := by
  rw [takeOut_freeList, (good.nodup m).mem_erase_iff]
  exact and_comm

/-- The block is not free any more. -/
theorem Good.isFree_takeOut (good : b.Good) {p : Nat} (mem : p ∈ b.freeList k) (q : Nat) :
    (b.takeOut p k).IsFree q ↔ b.IsFree q ∧ ¬(p ≤ q ∧ q < p + 2 ^ k) := by
  unfold IsFree
  constructor
  · rintro ⟨m, r, memR, low, high⟩
    obtain ⟨old, other⟩ := good.mem_takeOut.mp memR
    refine ⟨⟨m, r, old, low, high⟩, fun inside => ?_⟩
    rcases good.apart m r old k p mem (by simp [other]) with before | after <;> omega
  · rintro ⟨⟨m, r, memR, low, high⟩, outside⟩
    refine ⟨m, r, good.mem_takeOut.mpr ⟨memR, ?_⟩, low, high⟩
    rintro rfl
    rw [good.order_eq memR mem] at high
    exact outside ⟨low, high⟩

/-- A block that is taken out is held. -/
theorem Good.takeOut (good : b.Good) {p : Nat} (mem : p ∈ b.freeList k) :
    (b.takeOut p k).Good ∧ (b.takeOut p k).Held (b.page p).zoneNum (b.page2idx p) k := by
  have same := takeOut_sameZones b k p
  have back := good.zones.idx2page_page2idx (good.inZone mem)
  refine ⟨⟨same.good_zones good.zones, ?_, ?_, ?_, ?_, ?_, ?_, ?_, ?_, ?_⟩, ?_, ?_, ?_⟩
  · intro m q memQ
    exact good.order_le m q (good.mem_takeOut.mp memQ).1
  · intro m q memQ
    rw [same.zoneNum]
    exact same.ofZone (good.ofZone m q (good.mem_takeOut.mp memQ).1)
  · intro m q memQ
    rw [same.page2idx]
    exact good.aligned m q (good.mem_takeOut.mp memQ).1
  · intro m q memQ m' q' memQ' other
    exact good.apart m q (good.mem_takeOut.mp memQ).1 m' q' (good.mem_takeOut.mp memQ').1 other
  · intro m q memQ less sameZone memBuddy
    rw [same.zoneNum, same.zoneNum, same.idx2page, same.page2idx] at sameZone
    rw [same.zoneNum, same.idx2page, same.page2idx] at memBuddy
    exact good.lonely m q (good.mem_takeOut.mp memQ).1 less sameZone
      (good.mem_takeOut.mp memBuddy).1
  · intro m
    exact (good.nodup m).erase p
  · intro m
    change Function.update b.nrFree k (b.nrFree k - 1) m = ((b.freeList m).erase p).length
    by_cases atK : m = k
    · subst atK
      rw [Function.update_self, good.count, List.length_erase_of_mem mem]
    · have notIn : p ∉ b.freeList m := fun memM => atK (good.order_eq memM mem)
      rw [Function.update_of_ne atK, List.erase_of_not_mem notIn, good.count]
  · intro m q memQ
    obtain ⟨old, other⟩ := good.mem_takeOut.mp memQ
    rw [takeOut_page, if_neg other]
    exact good.listed m q old
  · intro q inZone head
    rw [takeOut_page] at head
    by_cases isP : q = p
    · rw [if_pos isP] at head
      cases head
    · rw [if_neg isP] at head
      obtain ⟨m, memQ⟩ := good.heads q ((same.inZone q).mp inZone) head
      exact ⟨m, good.mem_takeOut.mpr ⟨memQ, isP⟩⟩
  · rw [same.idx2page, back]
    exact same.ofZone (good.ofZone k p mem)
  · exact good.aligned k p mem
  · intro q low high free
    rw [same.idx2page, back] at low high
    exact ((good.isFree_takeOut mem q).mp free).2 ⟨low, high⟩

end EdfKernel.Mm.Buddy
