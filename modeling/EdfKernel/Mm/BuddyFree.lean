import EdfKernel.Library.Run
import EdfKernel.Mm.BuddyBlocks
import Mathlib.Tactic.Ring

/-!
# Giving blocks back

`buddy_free_pages_sub` frees one held block, and merges it with its buddy as long as that is free.
`buddy_free_pages` cuts a run of held pages into blocks, larger and larger ones up to the first
page that fits the rest, and from there smaller and smaller ones.  It stops on its assertion on
`MAX_ORDER` exactly when the run contains an aligned block of twice the largest size.
-/

namespace EdfKernel.Mm.Buddy

variable {b b' b'' : Buddy} {z idx k : Nat}

/-- Pages of a zone that are not free. -/
structure Taken (b : Buddy) (z base n : Nat) : Prop where
  ofZone : b.OfZone z base n
  taken : ∀ q, base ≤ q → q < base + n → ¬b.IsFree q

/-- The pages have become free, and nothing else has changed. -/
structure Freed (b b' : Buddy) (base n : Nat) : Prop where
  good : b'.Good
  same : SameZones b b'
  isFree : ∀ q, b'.IsFree q ↔ b.IsFree q ∨ (base ≤ q ∧ q < base + n)

theorem Held.toTaken (held : b.Held z idx k) : b.Taken z (b.idx2page z idx) (2 ^ k) :=
  ⟨held.ofZone, held.taken⟩

namespace Taken

variable {base n : Nat}

theorem held (taken : b.Taken z (b.idx2page z idx) (2 ^ k)) (aligned : 2 ^ k ∣ idx) :
    b.Held z idx k :=
  ⟨taken.ofZone, aligned, taken.taken⟩

theorem mono (taken : b.Taken z base n) {base' n' : Nat} (low : base ≤ base')
    (high : base' + n' ≤ base + n) : b.Taken z base' n' :=
  ⟨taken.ofZone.mono low high, fun q lowQ highQ => taken.taken q (by omega) (by omega)⟩

/-- The pages that follow those that have become free. -/
theorem rest {m : Nat} (taken : b.Taken z base n) (freed : Freed b b' base m) (le : m ≤ n) :
    b'.Taken z (base + m) (n - m) := by
  refine ⟨freed.same.ofZone (taken.ofZone.mono (by omega) (by omega)), fun q low high free => ?_⟩
  rcases (freed.isFree q).mp free with old | inside
  · exact taken.taken q (by omega) (by omega) old
  · omega

end Taken

namespace Freed

variable {base n m : Nat}

theorem refl (good : b.Good) : Freed b b base 0 :=
  ⟨good, SameZones.refl b, fun _ =>
    ⟨.inl, fun either => either.elim id fun inside => absurd inside.2 (by omega)⟩⟩

theorem trans (first : Freed b b' base m) (second : Freed b' b'' (base + m) n) :
    Freed b b'' base (m + n) := by
  refine ⟨second.good, first.same.trans second.same, fun q => ?_⟩
  have both : (base ≤ q ∧ q < base + (m + n)) ↔
      (base ≤ q ∧ q < base + m) ∨ (base + m ≤ q ∧ q < base + m + n) := by omega
  rw [second.isFree, first.isFree, both, or_assoc]

end Freed

/-! ## One block -/

/-- In the invariant `page_is_buddy` tells whether the block is free. -/
theorem Good.pageIsBuddy_iff (good : b.Good) {q : Nat} :
    b.pageIsBuddy q k z = true ↔ (b.page q).zoneNum = z ∧ q ∈ b.freeList k := by
  unfold pageIsBuddy
  simp only [Bool.and_eq_true, decide_eq_true_eq, beq_iff_eq, Bool.not_eq_true']
  constructor
  · rintro ⟨⟨⟨⟨exists', zone⟩, notReserved⟩, head⟩, order⟩
    obtain ⟨m, mem⟩ := good.heads q ⟨exists', notReserved⟩ head
    have sameOrder : m = k := (good.listed m q mem).2.symm.trans order
    rw [← sameOrder]
    exact ⟨zone, mem⟩
  · rintro ⟨zone, mem⟩
    obtain ⟨exists', notReserved⟩ := good.inZone mem
    obtain ⟨head, order⟩ := good.listed k q mem
    exact ⟨⟨⟨⟨exists', zone⟩, notReserved⟩, head⟩, order⟩

/-- Another block is still held when a free block is taken out. -/
theorem Held.takeOut (held : b.Held z idx k) (good : b.Good) {p m : Nat}
    (mem : p ∈ b.freeList m) : (b.takeOut p m).Held z idx k := by
  have same := takeOut_sameZones b m p
  refine ⟨?_, held.aligned, fun q low high free => ?_⟩
  · rw [same.idx2page]
    exact same.ofZone held.ofZone
  · rw [same.idx2page] at low high
    exact held.taken q low high ((good.isFree_takeOut mem q).mp free).1

/-- What the loop over the orders leaves: a held block that can go into its list. -/
structure Merged (b b' : Buddy) (z idx k idx' k' : Nat) : Prop where
  good : b'.Good
  same : SameZones b b'
  held : b'.Held z idx' k'
  order_le : k' ≤ maxOrder
  lonely : b'.Lonely z idx' k'
  pages : ∀ q, (b'.IsFree q ∨ (b.idx2page z idx' ≤ q ∧ q < b.idx2page z idx' + 2 ^ k')) ↔
    (b.IsFree q ∨ (b.idx2page z idx ≤ q ∧ q < b.idx2page z idx + 2 ^ k))

/-- A free buddy is taken out, and both halves are held as one block. -/
theorem Good.merge (good : b.Good) (held : b.Held z idx k)
    (zone : (b.page (b.idx2page z (idx ^^^ 2 ^ k))).zoneNum = z)
    (mem : b.idx2page z (idx ^^^ 2 ^ k) ∈ b.freeList k) :
    (b.takeOut (b.idx2page z (idx ^^^ 2 ^ k)) k).Held z (idx &&& (idx ^^^ 2 ^ k)) (k + 1) ∧
      ∀ q, ((b.takeOut (b.idx2page z (idx ^^^ 2 ^ k)) k).IsFree q ∨
          (b.idx2page z (idx &&& (idx ^^^ 2 ^ k)) ≤ q ∧
            q < b.idx2page z (idx &&& (idx ^^^ 2 ^ k)) + 2 ^ (k + 1))) ↔
        (b.IsFree q ∨ (b.idx2page z idx ≤ q ∧ q < b.idx2page z idx + 2 ^ k)) := by
  have index := page2idx_idx2page zone
  have heldBuddy := (good.takeOut mem).2
  rw [zone, index] at heldBuddy
  have heldHere := held.takeOut good mem
  have double : 2 ^ (k + 1) = 2 ^ k + 2 ^ k := by ring
  have split := good.isFree_takeOut mem
  have buddyFree : ∀ q, b.idx2page z (idx ^^^ 2 ^ k) ≤ q →
      q < b.idx2page z (idx ^^^ 2 ^ k) + 2 ^ k → b.IsFree q :=
    fun q low high => ⟨k, _, mem, low, high⟩
  have start : ∀ i, b.idx2page z i = b.memBase z + i := fun _ => rfl
  rcases Library.Buddies.xor_cases held.aligned with
    ⟨aligned, other, both⟩ | ⟨j, rfl, aligned, other, both⟩
  · rw [other] at heldBuddy heldHere split buddyFree both ⊢
    rw [both]
    refine ⟨heldHere.join heldBuddy aligned, fun q => ?_⟩
    rw [split]
    have freeThere := buddyFree q
    simp only [start] at freeThere ⊢
    by_cases free : b.IsFree q
    · simp only [free, true_and, true_or, iff_true]
      omega
    · simp only [free, false_and, false_or]
      simp only [free, imp_false] at freeThere
      omega
  · rw [other] at heldBuddy heldHere split buddyFree both ⊢
    rw [both]
    refine ⟨heldBuddy.join heldHere aligned, fun q => ?_⟩
    rw [split]
    have freeThere := buddyFree q
    simp only [start] at freeThere ⊢
    by_cases free : b.IsFree q
    · simp only [free, true_and, true_or, iff_true]
      omega
    · simp only [free, false_and, false_or]
      simp only [free, imp_false] at freeThere
      omega

/-- The loop over the orders merges the block with its buddies. -/
theorem Good.mergeLoop {rounds : Nat} (good : b.Good) (held : b.Held z idx k)
    (orders : rounds + k = maxOrder) :
    Merged b (b.mergeLoop z rounds idx k).1 z idx k (b.mergeLoop z rounds idx k).2.1
      (b.mergeLoop z rounds idx k).2.2 := by
  induction rounds generalizing b idx k with
  | zero =>
      refine ⟨good, SameZones.refl b, held, by change k ≤ _; omega, fun less => ?_, fun q => Iff.rfl⟩
      change k < maxOrder at less
      omega
  | succ rounds ih =>
      rw [Buddy.mergeLoop]
      by_cases isBuddy : b.pageIsBuddy (b.idx2page z (idx ^^^ 2 ^ k)) k z = true
      · rw [if_pos isBuddy]
        obtain ⟨zone, mem⟩ := good.pageIsBuddy_iff.mp isBuddy
        obtain ⟨heldBoth, pages⟩ := good.merge held zone mem
        have same := takeOut_sameZones b k (b.idx2page z (idx ^^^ 2 ^ k))
        have merged := ih (good.takeOut mem).1 heldBoth (by omega)
        refine ⟨merged.good, same.trans merged.same, merged.held, merged.order_le, merged.lonely,
          fun q => ?_⟩
        rw [← pages]
        have later := merged.pages q
        rw [same.idx2page, same.idx2page] at later
        exact later
      · rw [if_neg isBuddy]
        refine ⟨good, SameZones.refl b, held, by change k ≤ _; omega, fun less zone mem => ?_,
          fun q => Iff.rfl⟩
        exact isBuddy (good.pageIsBuddy_iff.mpr ⟨zone, mem⟩)

/-- States that differ in the other flags and the counts of pages only. -/
structure Alike (b b' : Buddy) : Prop where
  same : SameZones b b'
  freeList : b'.freeList = b.freeList
  nrFree : b'.nrFree = b.nrFree
  pgProperty : ∀ p, (b'.page p).pgProperty = (b.page p).pgProperty
  property : ∀ p, (b'.page p).property = (b.page p).property

namespace Alike

theorem refl (b : Buddy) : Alike b b :=
  ⟨SameZones.refl b, rfl, rfl, fun _ => rfl, fun _ => rfl⟩

theorem trans (first : Alike b b') (second : Alike b' b'') : Alike b b'' :=
  ⟨first.same.trans second.same, second.freeList.trans first.freeList,
    second.nrFree.trans first.nrFree,
    fun p => (second.pgProperty p).trans (first.pgProperty p),
    fun p => (second.property p).trans (first.property p)⟩

variable (alike : Alike b b')
include alike

theorem isFree (q : Nat) : b'.IsFree q ↔ b.IsFree q := by
  unfold IsFree
  rw [alike.freeList]

theorem good (good : b.Good) : b'.Good := by
  have same := alike.same
  refine ⟨same.good_zones good.zones, ?_, ?_, ?_, ?_, ?_, ?_, ?_, ?_, ?_⟩
  · rw [alike.freeList]
    exact good.order_le
  · intro k p mem
    rw [alike.freeList] at mem
    rw [same.zoneNum]
    exact same.ofZone (good.ofZone k p mem)
  · intro k p mem
    rw [alike.freeList] at mem
    rw [same.page2idx]
    exact good.aligned k p mem
  · rw [alike.freeList]
    exact good.apart
  · intro k p mem less zone
    rw [alike.freeList] at mem ⊢
    rw [same.zoneNum, same.zoneNum, same.idx2page, same.page2idx] at zone
    rw [same.zoneNum, same.idx2page, same.page2idx]
    exact good.lonely k p mem less zone
  · rw [alike.freeList]
    exact good.nodup
  · rw [alike.freeList, alike.nrFree]
    exact good.count
  · intro k p mem
    rw [alike.freeList] at mem
    rw [alike.pgProperty, alike.property]
    exact good.listed k p mem
  · intro p inZone head
    rw [alike.freeList]
    rw [alike.pgProperty] at head
    exact good.heads p ((same.inZone p).mp inZone) head

theorem taken {base n : Nat} (taken : b.Taken z base n) : b'.Taken z base n :=
  ⟨alike.same.ofZone taken.ofZone,
    fun q low high free => taken.taken q low high ((alike.isFree q).mp free)⟩

end Alike

/-- The statements on one page of a block that is freed. -/
theorem modify_alike (b : Buddy) (p : Nat) (notReserved : (b.page p).pgReserved = false)
    (notHead : (b.page p).pgProperty = false) :
    Alike b (b.modify p fun page =>
      { page with pgReserved := false, pgProperty := false, otherFlags := 0, ref := 0 }) := by
  refine ⟨⟨rfl, rfl, fun q => ?_, fun q => ?_⟩, rfl, rfl, fun q => ?_, fun q => ?_⟩
  all_goals
    by_cases here : q = p
    · subst here
      simp [modify, notReserved, notHead]
    · simp [modify, here]

/-- No assertion on the pages of the block fails. -/
theorem Good.clearPages {n base : Nat} (good : b.Good) (taken : b.Taken z base n) :
    ∃ b', b.clearPages n base = .ok b' ∧ Alike b b' := by
  induction n generalizing b base with
  | zero => exact ⟨b, rfl, Alike.refl b⟩
  | succ n ih =>
      have inside := (taken.ofZone base (Nat.le_refl _) (by omega)).1
      have notHead : (b.page base).pgProperty = false := by
        rw [Bool.eq_false_iff]
        intro head
        obtain ⟨m, mem⟩ := good.heads base inside head
        exact taken.taken base (Nat.le_refl _) (by omega) (IsFree.of_mem mem)
      have first := modify_alike b base inside.2 notHead
      obtain ⟨b', cleared, alike⟩ := ih (first.good good)
        (first.taken (taken.mono (by omega) (by omega) : b.Taken z (base + 1) n))
      refine ⟨b', ?_, first.trans alike⟩
      rw [Buddy.clearPages, inside.2, notHead]
      exact cleared

/-- `buddy_free_pages_sub` frees a held block, and no assertion in it fails. -/
theorem Good.freePagesSub (good : b.Good) (held : b.Held z idx k) (le : k ≤ maxOrder) :
    ∃ b', b.freePagesSub (b.idx2page z idx) k = .ok b' ∧
      Freed b b' (b.idx2page z idx) (2 ^ k) := by
  obtain ⟨b₁, cleared, alike⟩ := good.clearPages held.toTaken
  have same := alike.same
  have good₁ := alike.good good
  have zone : (b₁.page (b.idx2page z idx)).zoneNum = z := by
    rw [same.zoneNum]
    exact held.inZone.2
  have held₁ : b₁.Held z idx k := by
    have taken := alike.taken held.toTaken
    rw [← same.idx2page] at taken
    exact taken.held held.aligned
  have merged := good₁.mergeLoop held₁ (by omega : maxOrder - k + k = maxOrder)
  refine ⟨(b₁.mergeLoop z (maxOrder - k) idx k).1.addFree
    (b₁.idx2page z (b₁.mergeLoop z (maxOrder - k) idx k).2.1)
    (b₁.mergeLoop z (maxOrder - k) idx k).2.2, ?_, ?_⟩
  · unfold Buddy.freePagesSub
    have mask : idx &&& (2 ^ k - 1) = 0 := by
      rw [Nat.and_two_pow_sub_one_eq_mod]
      exact Nat.mod_eq_zero_of_dvd held.aligned
    rw [held.page2idx, if_pos mask, cleared]
    simp only [bind, Except.bind, zone]
    rw [merged.same.idx2page]
    rfl
  · have added := merged.good.addFree merged.held merged.order_le merged.lonely
    rw [merged.same.idx2page] at added
    refine ⟨added, same.trans (merged.same.trans (addFree_sameZones ..)), fun q => ?_⟩
    rw [isFree_addFree, merged.pages, alike.isFree, same.idx2page]

/-! ## A run of pages -/

/-- A run of pages contains an aligned block of twice the largest size. -/
def WholeBlock (idx n : Nat) : Prop :=
  ∃ c, 2 ^ (maxOrder + 1) ∣ c ∧ idx ≤ c ∧ c + 2 ^ (maxOrder + 1) ≤ idx + n

theorem WholeBlock.le {n : Nat} (whole : WholeBlock idx n) : 2 ^ (maxOrder + 1) ≤ n := by
  obtain ⟨c, _, low, high⟩ := whole
  omega

/-- The first pages up to the next alignment are not part of such a block. -/
theorem wholeBlock_iff {n order : Nat} (aligned : 2 ^ order ∣ idx) (upper : ¬2 ^ (order + 1) ∣ idx)
    (le : order ≤ maxOrder) (inside : 2 ^ order ≤ n) :
    WholeBlock (idx + 2 ^ order) (n - 2 ^ order) ↔ WholeBlock idx n := by
  have stop : idx + 2 ^ order + (n - 2 ^ order) = idx + n := by omega
  unfold WholeBlock
  rw [stop]
  constructor
  · rintro ⟨c, alignedC, low, high⟩
    exact ⟨c, alignedC, by omega, high⟩
  · rintro ⟨c, alignedC, low, high⟩
    refine ⟨c, alignedC, ?_, high⟩
    have notHere : c ≠ idx := by
      rintro rfl
      exact upper ((Nat.pow_dvd_pow 2 (Nat.succ_le_succ le)).trans alignedC)
    have alignedGap : 2 ^ order ∣ c - idx :=
      Nat.dvd_sub ((Nat.pow_dvd_pow 2 (Nat.le_succ_of_le le)).trans alignedC) aligned
    have gap := Nat.le_of_dvd (by omega) alignedGap
    omega

/-- The first page of a run has its index. -/
theorem Taken.page2idx {n : Nat} (taken : b.Taken z (b.idx2page z idx) n) (positive : 0 < n) :
    b.page2idx (b.idx2page z idx) = idx :=
  page2idx_idx2page (taken.ofZone _ (Nat.le_refl _) (Nat.lt_add_of_pos_right positive)).2

/-- The first block of a run is freed; the rest of the run remains. -/
theorem Good.freeFirst {n order : Nat} (good : b.Good) (taken : b.Taken z (b.idx2page z idx) n)
    (aligned : 2 ^ order ∣ idx) (le : order ≤ maxOrder) (inside : 2 ^ order ≤ n) :
    ∃ b', b.freePagesSub (b.idx2page z idx) order = .ok b' ∧
      Freed b b' (b.idx2page z idx) (2 ^ order) ∧
      b'.Taken z (b'.idx2page z (idx + 2 ^ order)) (n - 2 ^ order) ∧
      b'.idx2page z (idx + 2 ^ order) = b.idx2page z idx + 2 ^ order := by
  have first := taken.mono (Nat.le_refl _) (Nat.add_le_add_left inside _)
  obtain ⟨b', done, freed⟩ := good.freePagesSub (first.held aligned) le
  have next : b'.idx2page z (idx + 2 ^ order) = b.idx2page z idx + 2 ^ order := by
    rw [freed.same.idx2page]
    exact (Nat.add_assoc ..).symm
  refine ⟨b', done, freed, ?_, next⟩
  rw [next]
  exact taken.rest freed inside

/-- The second loop of `buddy_free_pages` frees the rest of a run. -/
theorem Good.freeDown {n order : Nat} (good : b.Good) (taken : b.Taken z (b.idx2page z idx) n)
    (aligned : 2 ^ order ∣ idx) (less : n < 2 ^ (maxOrder + 1)) :
    ∃ b', b.freeDown (b.idx2page z idx) n order = .ok b' ∧ Freed b b' (b.idx2page z idx) n := by
  induction total : n + order using Nat.strong_induction_on generalizing b idx n order with
  | _ total ih =>
      have positive := Nat.two_pow_pos order
      rw [Buddy.freeDown]
      by_cases done : n = 0
      · subst done
        rw [if_pos rfl]
        exact ⟨b, rfl, Freed.refl good⟩
      · rw [if_neg done]
        by_cases small : n < 2 ^ order
        · rw [if_pos small]
          have notZero : order ≠ 0 := by
            rintro rfl
            omega
          have alignedLess : 2 ^ (order - 1) ∣ idx :=
            (Nat.pow_dvd_pow 2 (Nat.sub_le order 1)).trans aligned
          exact ih (n + (order - 1)) (by omega) good taken alignedLess less rfl
        · rw [if_neg small]
          have le : order ≤ maxOrder := by
            have size : 2 ^ order < 2 ^ (maxOrder + 1) := by omega
            have orders := (Nat.pow_lt_pow_iff_right (Nat.lt_succ_self 1)).mp size
            omega
          obtain ⟨b₁, freedFirst, freed₁, taken₁, next⟩ :=
            good.freeFirst taken aligned le (Nat.le_of_not_lt small)
          obtain ⟨b₂, freedRest, freed₂⟩ := ih (n - 2 ^ order + order) (by omega) freed₁.good taken₁
            (Nat.dvd_add aligned (Nat.dvd_refl _)) (by omega) rfl
          rw [next] at freedRest freed₂
          refine ⟨b₂, ?_, ?_⟩
          · rw [freedFirst]
            exact freedRest
          · have both := freed₁.trans freed₂
            rwa [Nat.add_sub_cancel' (Nat.le_of_not_lt small)] at both

/-- What the first loop of `buddy_free_pages` leaves of a run. -/
structure Climbed (b b' : Buddy) (z idx n m n' order : Nat) : Prop where
  freed : Freed b b' (b.idx2page z idx) m
  total : m + n' = n
  small : n' < 2 ^ order
  aligned : 2 ^ order ∣ idx + m
  order_le : order ≤ maxOrder + 1

/-- The first loop stops on its assertion exactly when the run contains an aligned block of twice
the largest size. -/
theorem Good.freeUp {n order rounds : Nat} (good : b.Good)
    (taken : b.Taken z (b.idx2page z idx) n) (aligned : 2 ^ order ∣ idx)
    (orders : rounds + order = maxOrder + 1) :
    (WholeBlock idx n ∧ freeUp rounds b (b.idx2page z idx) n order = .error .order) ∨
      (¬WholeBlock idx n ∧ ∃ b' m n' order', Climbed b b' z idx n m n' order' ∧
        freeUp rounds b (b.idx2page z idx) n order =
          .ok (b', b.idx2page z (idx + m), n', order')) := by
  induction rounds generalizing b idx n order with
  | zero =>
      have top : order = maxOrder + 1 := by omega
      subst top
      unfold Buddy.freeUp
      by_cases large : 2 ^ (maxOrder + 1) ≤ n
      · rw [if_pos large]
        exact .inl ⟨⟨idx, aligned, Nat.le_refl _, by omega⟩, rfl⟩
      · rw [if_neg large]
        refine .inr ⟨fun whole => large whole.le, b, 0, n, maxOrder + 1, ?_, rfl⟩
        exact ⟨Freed.refl good, Nat.zero_add n, Nat.lt_of_not_le large, aligned, Nat.le_refl _⟩
  | succ rounds ih =>
      have positive := Nat.two_pow_pos order
      unfold Buddy.freeUp
      by_cases large : 2 ^ order ≤ n
      · rw [if_pos large]
        simp only
        rw [taken.page2idx (by omega)]
        by_cases next : 2 ^ (order + 1) ∣ idx
        · have bit := (Library.Buddies.and_two_pow_eq_zero_iff aligned).mpr next
          rw [if_neg (not_not_intro bit)]
          exact ih good taken next (by omega)
        · have bit : idx &&& 2 ^ order ≠ 0 := fun zero =>
            next ((Library.Buddies.and_two_pow_eq_zero_iff aligned).mp zero)
          rw [if_pos bit]
          obtain ⟨b₁, freedFirst, freed₁, taken₁, start⟩ :=
            good.freeFirst taken aligned (by omega) large
          have rest := ih freed₁.good taken₁ (Library.Buddies.dvd_add_of_not_dvd aligned next)
            (by omega : rounds + (order + 1) = maxOrder + 1)
          rw [start, wholeBlock_iff aligned next (by omega) large] at rest
          rw [freedFirst]
          rcases rest with ⟨whole, stopped⟩ | ⟨notWhole, b₂, m, n', order', climbed, freedRest⟩
          · exact .inl ⟨whole, stopped⟩
          · refine .inr ⟨notWhole, b₂, 2 ^ order + m, n', order', ?_, ?_⟩
            · have freed₂ := climbed.freed
              rw [start] at freed₂
              have total := climbed.total
              refine ⟨freed₁.trans freed₂, by omega, climbed.small, ?_, climbed.order_le⟩
              rw [← Nat.add_assoc]
              exact climbed.aligned
            · rw [freed₁.same.idx2page, Nat.add_assoc] at freedRest
              exact freedRest
      · rw [if_neg large]
        refine .inr ⟨fun whole => ?_, b, 0, n, order, ?_, rfl⟩
        · have size : 2 ^ order ≤ 2 ^ (maxOrder + 1) :=
            Nat.pow_le_pow_right (by omega) (by omega)
          have fits := whole.le
          omega
        · exact ⟨Freed.refl good, Nat.zero_add n, Nat.lt_of_not_le large, aligned, by omega⟩

/-- `buddy_free_pages` frees a run of held pages without such a block. -/
theorem Good.freePages {n : Nat} (good : b.Good) (taken : b.Taken z (b.idx2page z idx) n)
    (positive : 0 < n) (fits : ¬WholeBlock idx n) :
    ∃ b', b.freePages (b.idx2page z idx) n = .ok b' ∧ Freed b b' (b.idx2page z idx) n := by
  unfold Buddy.freePages
  rw [if_neg (by omega)]
  by_cases single : n = 1
  · rw [if_pos single]
    subst single
    exact good.freePagesSub (taken.held (Nat.one_dvd idx)) (Nat.zero_le _)
  · rw [if_neg single]
    rcases good.freeUp taken (Nat.one_dvd idx) (Nat.add_zero (maxOrder + 1)) with
      ⟨whole, _⟩ | ⟨_, b₁, m, n', order, climbed, freed₁⟩
    · exact absurd whole fits
    · have total := climbed.total
      have small := climbed.small
      have start : b.idx2page z (idx + m) = b.idx2page z idx + m := (Nat.add_assoc ..).symm
      have next : b₁.idx2page z (idx + m) = b.idx2page z idx + m := by
        rw [climbed.freed.same.idx2page, start]
      have rest := taken.rest climbed.freed (by omega)
      have sizes : 2 ^ order ≤ 2 ^ (maxOrder + 1) :=
        Nat.pow_le_pow_right (by omega) climbed.order_le
      have left : n - m = n' := by omega
      rw [left, ← next] at rest
      obtain ⟨b₂, freed₂, freedRest⟩ := climbed.freed.good.freeDown rest climbed.aligned (by omega)
      rw [next] at freed₂ freedRest
      refine ⟨b₂, ?_, ?_⟩
      · rw [freed₁, start]
        exact freed₂
      · have both := climbed.freed.trans freedRest
        rwa [total] at both

/-- With such a block in the run `buddy_free_pages` stops. -/
theorem Good.freePages_stops {n : Nat} (good : b.Good) (taken : b.Taken z (b.idx2page z idx) n)
    (whole : WholeBlock idx n) : b.freePages (b.idx2page z idx) n = .error .order := by
  have large : 2 ^ 1 ≤ 2 ^ (maxOrder + 1) := Nat.pow_le_pow_right (by omega) (by omega)
  have fits := whole.le
  unfold Buddy.freePages
  rw [if_neg (by omega), if_neg (by omega)]
  rcases good.freeUp taken (Nat.one_dvd idx) (Nat.add_zero (maxOrder + 1)) with
    ⟨_, stopped⟩ | ⟨notWhole, _⟩
  · rw [stopped]
    rfl
  · exact absurd whole notWhole

end EdfKernel.Mm.Buddy
