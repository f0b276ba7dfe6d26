import EdfKernel.Mm.BuddyFree
import Mathlib.Data.Nat.Log

/-!
# Handing blocks out

`buddy_alloc_pages_sub` takes the first block of the smallest order that has one and halves it down
to the order that is asked for; `buddy_alloc_pages` gives the pages back that are not needed.
`buddy_init_memmap` cuts a new zone into blocks.
-/

namespace EdfKernel.Mm.Buddy

variable {b b' : Buddy} {z idx k : Nat}

/-! ## Halving a block -/

theorem addFree_setPageProperty (b : Buddy) {p q : Nat} (other : p ≠ q) (k : Nat) (set : Bool) :
    (b.addFree p k).setPageProperty q set = (b.setPageProperty q set).addFree p k := by
  have pages : ((b.addFree p k).setPageProperty q set).page =
      ((b.setPageProperty q set).addFree p k).page := by
    funext r
    by_cases isP : r = p
    · subst isP
      simp [addFree, setPageProperty, modify, other]
    · simp only [addFree, setPageProperty, modify]
      by_cases isQ : r = q
      · subst isQ
        simp [isP]
      · simp [isP, isQ]
  unfold addFree setPageProperty modify at *
  simp only at pages ⊢
  rw [pages]

/-- Clearing the flag of the page at last is clearing it at first. -/
theorem splitBlock_setPageProperty (page order steps : Nat) (b : Buddy) :
    (splitBlock page order steps b).setPageProperty page false =
      splitBlock page order steps (b.setPageProperty page false) := by
  induction steps generalizing b with
  | zero => rfl
  | succ steps ih =>
      have positive := Nat.two_pow_pos (order + steps)
      rw [splitBlock, splitBlock, ih, addFree_setPageProperty b (by omega)]

/-- The part of a block that has been cut off is free, and the rest is held. -/
theorem Good.splitBlock {steps : Nat} (good : b.Good) (held : b.Held z idx (k + steps))
    (le : k + steps ≤ maxOrder) :
    (splitBlock (b.idx2page z idx) k steps b).Good ∧
      SameZones b (splitBlock (b.idx2page z idx) k steps b) ∧
      (splitBlock (b.idx2page z idx) k steps b).Held z idx k ∧
      ∀ q, (splitBlock (b.idx2page z idx) k steps b).IsFree q ↔
        b.IsFree q ∨ (b.idx2page z idx + 2 ^ k ≤ q ∧ q < b.idx2page z idx + 2 ^ (k + steps)) := by
  induction steps generalizing b with
  | zero =>
      refine ⟨good, SameZones.refl b, held, fun q => ⟨.inl, fun either => either.elim id ?_⟩⟩
      rintro ⟨low, high⟩
      rw [Nat.add_zero] at high
      omega
  | succ steps ih =>
      have double : 2 ^ (k + (steps + 1)) = 2 ^ (k + steps) + 2 ^ (k + steps) := by ring
      have aligned : 2 ^ (k + steps + 1) ∣ idx := held.aligned
      have half : 2 ^ (k + steps) ∣ idx := (Nat.pow_dvd_pow 2 (Nat.le_succ (k + steps))).trans aligned
      have lower := held.part half (Nat.le_refl _) (by omega)
      have upper := held.part (Nat.dvd_add half (Nat.dvd_refl _)) (by omega) (by omega)
      have start : b.idx2page z (idx + 2 ^ (k + steps)) = b.idx2page z idx + 2 ^ (k + steps) :=
        (Nat.add_assoc ..).symm
      have lonely : b.Lonely z (idx + 2 ^ (k + steps)) (k + steps) := by
        intro _ _
        rw [Library.Buddies.xor_of_upper aligned]
        exact lower.not_mem (Nat.le_refl _) (Nat.lt_add_of_pos_right (Nat.two_pow_pos _))
      have good₁ := good.addFree upper (by omega) lonely
      have same := addFree_sameZones b (k + steps) (b.idx2page z idx + 2 ^ (k + steps))
      have free := isFree_addFree b (k + steps) (b.idx2page z idx + 2 ^ (k + steps))
      rw [start] at good₁
      have lower₁ : (b.addFree (b.idx2page z idx + 2 ^ (k + steps)) (k + steps)).Held z idx
          (k + steps) := by
        refine ⟨?_, half, fun q low high isFree => ?_⟩
        · rw [same.idx2page]
          exact same.ofZone lower.ofZone
        · rw [same.idx2page] at low high
          rcases (free q).mp isFree with old | inside
          · exact lower.taken q low high old
          · omega
      obtain ⟨good₂, same₂, held₂, free₂⟩ := ih good₁ lower₁ (by omega)
      rw [same.idx2page] at good₂ same₂ held₂ free₂
      refine ⟨good₂, same.trans same₂, held₂, fun q => ?_⟩
      have positive := Nat.pow_le_pow_right (Nat.lt_succ_self 1).le (Nat.le_add_right k steps)
      change 2 ^ k ≤ 2 ^ (k + steps) at positive
      have both : (b.idx2page z idx + 2 ^ k ≤ q ∧ q < b.idx2page z idx + 2 ^ (k + (steps + 1))) ↔
          ((b.idx2page z idx + 2 ^ (k + steps) ≤ q ∧
              q < b.idx2page z idx + 2 ^ (k + steps) + 2 ^ (k + steps)) ∨
            (b.idx2page z idx + 2 ^ k ≤ q ∧ q < b.idx2page z idx + 2 ^ (k + steps))) := by
        omega
      change (Buddy.splitBlock _ _ _ _).IsFree q ↔ _
      rw [both, ← or_assoc, ← free]
      exact free₂ q

/-! ## Allocation -/

/-- The pages have been free and are not free any more. -/
structure Allocated (b b' : Buddy) (z idx n : Nat) : Prop where
  good : b'.Good
  same : SameZones b b'
  taken : b'.Taken z (b'.idx2page z idx) n
  isFree : ∀ q, b.IsFree q ↔ b'.IsFree q ∨ (b.idx2page z idx ≤ q ∧ q < b.idx2page z idx + n)

/-- The loop finds no block, or hands one out. -/
theorem Good.allocFrom {order rounds cur : Nat} (good : b.Good) (le : order ≤ cur)
    (orders : rounds + cur = maxOrder + 1) :
    (Buddy.allocFrom order rounds cur b = (none, b) ∧ ∀ m, cur ≤ m → b.freeList m = []) ∨
      ∃ b' z idx, Buddy.allocFrom order rounds cur b = (some (b.idx2page z idx), b') ∧
        2 ^ order ∣ idx ∧ Allocated b b' z idx (2 ^ order) := by
  induction rounds generalizing cur with
  | zero =>
      refine .inl ⟨rfl, fun m above => List.eq_nil_iff_forall_not_mem.mpr fun p mem => ?_⟩
      have below := good.order_le m p mem
      omega
  | succ rounds ih =>
      unfold Buddy.allocFrom
      cases listed : b.freeList cur with
      | nil =>
          simp only
          rcases ih (by omega : order ≤ cur + 1) (by omega) with ⟨nothing, empty⟩ | found
          · refine .inl ⟨nothing, fun m above => ?_⟩
            rcases Nat.eq_or_lt_of_le above with rfl | later
            · exact listed
            · exact empty m later
          · exact .inr found
      | cons page others =>
          simp only
          have mem : page ∈ b.freeList cur := by
            rw [listed]
            exact List.mem_cons_self
          obtain ⟨good₁, held₁⟩ := good.takeOut mem
          have same₁ := takeOut_sameZones b cur page
          have free₁ := good.isFree_takeOut mem
          have split : order + (cur - order) = cur := Nat.add_sub_cancel' le
          have start := good.zones.idx2page_page2idx (good.inZone mem)
          rw [splitBlock_setPageProperty]
          change _ ∨ ∃ b' z idx, (some page, Buddy.splitBlock page order (cur - order)
            (b.takeOut page cur)) = _ ∧ _ ∧ _
          have held : (b.takeOut page cur).Held (b.page page).zoneNum (b.page2idx page)
              (order + (cur - order)) := by
            rw [split]
            exact held₁
          obtain ⟨good₂, same₂, held₂, free₂⟩ := good₁.splitBlock held (by omega)
          have same := same₁.trans same₂
          rw [same₁.idx2page, start] at good₂ same₂ held₂ free₂ same
          refine .inr ⟨_, (b.page page).zoneNum, b.page2idx page, by rw [start], held₂.aligned,
            good₂, same, held₂.toTaken, fun q => ?_⟩
          rw [free₂, free₁, start, split]
          have sizes : 2 ^ order ≤ 2 ^ cur := Nat.pow_le_pow_right (by omega) le
          have positive := Nat.two_pow_pos order
          by_cases inside : page ≤ q ∧ q < page + 2 ^ cur
          · have isFree : b.IsFree q := ⟨cur, page, mem, inside⟩
            simp only [isFree, inside, and_self, not_true_eq_false, and_false, false_or, true_iff,
              and_true, true_and]
            omega
          · simp only [inside, not_false_eq_true, and_true]
            constructor
            · exact fun isFree => .inl (.inl isFree)
            · rintro ((isFree | upper) | lower)
              · exact isFree
              · omega
              · omega

/-- `getorder` is the logarithm, rounded up. -/
theorem getorder_eq {n : Nat} (le : n ≤ 2 ^ maxOrder) : getorder n = .ok (Nat.clog 2 n) := by
  have least : ∀ rounds order, rounds + order = maxOrder + 1 → order ≤ Nat.clog 2 n →
      getorderFrom n rounds order = .ok (Nat.clog 2 n) := by
    have top : Nat.clog 2 n ≤ maxOrder := (Nat.clog_le_iff_le_pow Nat.one_lt_two).mpr le
    intro rounds
    induction rounds with
    | zero =>
        intro order orders below
        omega
    | succ rounds ih =>
        intro order orders below
        rw [getorderFrom]
        by_cases enough : n ≤ 2 ^ order
        · have above := (Nat.clog_le_iff_le_pow Nat.one_lt_two).mpr enough
          rw [if_pos enough, Nat.le_antisymm below above]
        · rw [if_neg enough]
          refine ih (order + 1) (by omega) ?_
          by_contra small
          exact enough ((Nat.clog_le_iff_le_pow Nat.one_lt_two).mp (by omega))
  exact least (maxOrder + 1) 0 (Nat.add_zero _) (Nat.zero_le _)

/-- `buddy_alloc_pages` hands out pages, or finds no block that is large enough. -/
theorem Good.allocPages {n : Nat} (good : b.Good) (positive : 0 < n) (le : n ≤ 2 ^ maxOrder) :
    (b.allocPages n = .ok (none, b) ∧ ∀ m, Nat.clog 2 n ≤ m → b.freeList m = []) ∨
      ∃ b' z idx, b.allocPages n = .ok (some (b.idx2page z idx), b') ∧
        2 ^ Nat.clog 2 n ∣ idx ∧ Allocated b b' z idx n := by
  have top : Nat.clog 2 n ≤ maxOrder := (Nat.clog_le_iff_le_pow Nat.one_lt_two).mpr le
  have enough : n ≤ 2 ^ Nat.clog 2 n := Nat.le_pow_clog Nat.one_lt_two n
  unfold Buddy.allocPages
  rw [if_neg (by omega), getorder_eq le]
  simp only [bind, Except.bind, Buddy.allocPagesSub, if_pos top]
  rcases good.allocFrom (Nat.le_refl (Nat.clog 2 n)) (Nat.sub_add_cancel (by omega)) with
    ⟨nothing, empty⟩ | ⟨b₁, z, idx, found, aligned, allocated⟩
  · rw [nothing]
    exact .inl ⟨rfl, empty⟩
  · rw [found]
    simp only
    by_cases whole : n = 2 ^ Nat.clog 2 n
    · rw [if_neg (not_not_intro whole)]
      rw [← whole] at allocated
      exact .inr ⟨b₁, z, idx, rfl, aligned, allocated⟩
    · rw [if_pos whole]
      have same := allocated.same
      have next : b₁.idx2page z (idx + n) = b.idx2page z idx + n := by
        rw [same.idx2page]
        exact (Nat.add_assoc ..).symm
      have tail : b₁.Taken z (b₁.idx2page z (idx + n)) (2 ^ Nat.clog 2 n - n) := by
        refine allocated.taken.mono ?_ ?_
        · rw [next, same.idx2page]
          omega
        · rw [next, same.idx2page]
          omega
      have fits : ¬WholeBlock (idx + n) (2 ^ Nat.clog 2 n - n) := by
        intro block
        have size := block.le
        have sizes : 2 ^ Nat.clog 2 n ≤ 2 ^ maxOrder := Nat.pow_le_pow_right (by omega) top
        rw [Nat.pow_succ] at size
        omega
      obtain ⟨b₂, done, freed⟩ := allocated.good.freePages tail (by omega) fits
      rw [next] at done freed
      refine .inr ⟨b₂, z, idx, ?_, aligned, freed.good, same.trans freed.same, ?_, fun q => ?_⟩
      · rw [done]
        rfl
      · have start : b₂.idx2page z idx = b₁.idx2page z idx := freed.same.idx2page z idx
        have head := allocated.taken.mono (Nat.le_refl _) (Nat.add_le_add_left enough _)
        rw [start]
        refine ⟨freed.same.ofZone head.ofZone, fun q low high isFree => ?_⟩
        rcases (freed.isFree q).mp isFree with old | inside
        · exact head.taken q low high old
        · rw [same.idx2page] at high
          omega
      · rw [allocated.isFree, freed.isFree, or_assoc]
        have both : (b.idx2page z idx ≤ q ∧ q < b.idx2page z idx + 2 ^ Nat.clog 2 n) ↔
            (b.idx2page z idx + n ≤ q ∧
                q < b.idx2page z idx + n + (2 ^ Nat.clog 2 n - n)) ∨
              (b.idx2page z idx ≤ q ∧ q < b.idx2page z idx + n) := by
          omega
        rw [both]

/-! ## A new zone -/

theorem modify_page (b : Buddy) (p : Nat) (change : BuddyPage → BuddyPage) :
    (b.modify p change).page = Function.update b.page p (change (b.page p)) :=
  rfl

/-- The first loop of `buddy_init_memmap` sets up reserved pages. -/
theorem initPages_ok {n p : Nat}
    (reserved : ∀ q, p ≤ q → q < p + n → (b.page q).pgReserved = true) :
    initPages z n b p = .ok { b with
      page := fun q => if p ≤ q ∧ q < p + n then ⟨0, false, false, 0, 0, z⟩ else b.page q } := by
  induction n generalizing b p with
  | zero =>
      have nowhere : ∀ q, ¬(p ≤ q ∧ q < p + 0) := fun q => by omega
      simp only [initPages, nowhere, if_false]
  | succ n ih =>
      rw [initPages, if_pos (reserved p (Nat.le_refl p) (by omega)), ih]
      · simp only [modify, Except.ok.injEq, mk.injEq, and_true, true_and]
        funext q
        by_cases here : q = p
        · subst here
          rw [Function.update_self, if_neg (by omega), if_pos (by omega)]
        · rw [Function.update_of_ne here]
          have range : (p + 1 ≤ q ∧ q < p + 1 + n) ↔ (p ≤ q ∧ q < p + (n + 1)) := by omega
          simp only [range]
      · intro q low high
        rw [modify_page, Function.update_of_ne (by omega)]
        exact reserved q (by omega) (by omega)

/-- It has found every page reserved. -/
theorem reserved_of_initPages {n p : Nat} (done : initPages z n b p = .ok b') :
    ∀ q, p ≤ q → q < p + n → (b.page q).pgReserved = true := by
  induction n generalizing b p with
  | zero =>
      intro q low high
      omega
  | succ n ih =>
      intro q low high
      rw [initPages] at done
      by_cases reserved : (b.page p).pgReserved = true
      · rw [if_pos reserved] at done
        rcases Nat.eq_or_lt_of_le low with rfl | later
        · exact reserved
        · have unchanged := ih done q later (by omega)
          rw [modify_page, Function.update_of_ne (by omega)] at unchanged
          exact unchanged
      · rw [if_neg reserved] at done
        cases done

/-- The pages of a new zone, before its blocks are put into the lists. -/
def newZone (b : Buddy) (base n : Nat) : Buddy :=
  { b with
    page := fun q =>
      if base ≤ q ∧ q < base + n then ⟨0, false, false, 0, 0, b.zones.length⟩ else b.page q
    zones := b.zones ++ [base] }

section NewZone

variable {base n : Nat}

theorem memBase_newZone_of_lt (old : z < b.zones.length) :
    (b.newZone base n).memBase z = b.memBase z := by
  unfold memBase newZone
  simp only
  rw [List.getD_append _ _ _ _ old]

theorem memBase_newZone_length : (b.newZone base n).memBase b.zones.length = base := by
  unfold memBase newZone
  simp

theorem inZone_newZone (inside : base + n ≤ b.npage) (q : Nat) :
    (b.newZone base n).InZone q ↔ b.InZone q ∨ (base ≤ q ∧ q < base + n) := by
  by_cases here : base ≤ q ∧ q < base + n
  · have zone : (b.newZone base n).InZone q := by
      refine ⟨Nat.lt_of_lt_of_le here.2 inside, ?_⟩
      unfold newZone
      simp only
      rw [if_pos here]
    exact ⟨fun _ => .inr here, fun _ => zone⟩
  · unfold InZone newZone
    simp only
    rw [if_neg here]
    exact ⟨.inl, fun either => either.elim id fun inRange => absurd inRange here⟩

variable (reserved : ∀ q, base ≤ q → q < base + n → (b.page q).pgReserved = true)
include reserved

/-- The pages of the older zones are as they were. -/
theorem newZone_page {q : Nat} (inZone : b.InZone q) : (b.newZone base n).page q = b.page q := by
  unfold newZone
  simp only
  rw [if_neg]
  rintro ⟨low, high⟩
  have isReserved := reserved q low high
  rw [inZone.2] at isReserved
  cases isReserved

/-- A new zone keeps the invariant. -/
theorem Good.newZone (good : b.Good) (inside : base + n ≤ b.npage) : (b.newZone base n).Good := by
  have zones := good.zones
  have page : ∀ {q}, b.InZone q → (b.newZone base n).page q = b.page q :=
    fun inZone => newZone_page reserved inZone
  have inZone := inZone_newZone inside
  have memBase : ∀ {q}, b.InZone q →
      (b.newZone base n).memBase (b.page q).zoneNum = b.memBase (b.page q).zoneNum :=
    fun inZone => memBase_newZone_of_lt (zones.known _ inZone)
  have fresh : ∀ q, base ≤ q ∧ q < base + n →
      (b.newZone base n).page q = ⟨0, false, false, 0, 0, b.zones.length⟩ :=
    fun q here => if_pos here
  have page2idx : ∀ {q}, b.InZone q → (b.newZone base n).page2idx q = b.page2idx q := by
    intro q isOld
    unfold Buddy.page2idx
    rw [page isOld, memBase isOld]
  refine ⟨⟨?_, ?_, ?_⟩, good.order_le, ?_, ?_, good.apart, ?_, good.nodup, good.count, ?_, ?_⟩
  · intro p isIn
    have length : (b.newZone base n).zones.length = b.zones.length + 1 := List.length_append
    rw [length]
    rcases (inZone p).mp isIn with old | new
    · rw [page old]
      exact Nat.lt_succ_of_lt (zones.known p old)
    · rw [fresh p new]
      exact Nat.lt_succ_self _
  · intro p isIn
    rcases (inZone p).mp isIn with old | new
    · rw [page old, memBase old]
      exact zones.base_le p old
    · rw [fresh p new, memBase_newZone_length]
      exact new.1
  · intro p isIn q low high
    rcases (inZone p).mp isIn with old | new
    · rw [page old, memBase old] at low
      obtain ⟨oldQ, sameZone⟩ := zones.whole p old q low high
      exact ⟨(inZone q).mpr (.inl oldQ), by rw [page old, page oldQ, sameZone]⟩
    · rw [fresh p new, memBase_newZone_length] at low
      have newQ : base ≤ q ∧ q < base + n := ⟨low, by omega⟩
      exact ⟨(inZone q).mpr (.inr newQ), by rw [fresh p new, fresh q newQ]⟩
  · intro k p mem q low high
    obtain ⟨oldQ, zone⟩ := good.ofZone k p mem q low high
    refine ⟨(inZone q).mpr (.inl oldQ), ?_⟩
    rw [page oldQ, page (good.inZone mem), zone]
  · intro k p mem
    rw [page2idx (good.inZone mem)]
    exact good.aligned k p mem
  · intro k p mem less zone memBuddy
    have oldP := good.inZone mem
    have place : (b.newZone base n).idx2page (b.page p).zoneNum =
        b.idx2page (b.page p).zoneNum := by
      funext i
      unfold idx2page
      rw [memBase oldP]
    rw [page oldP, page2idx oldP, place] at zone memBuddy
    rw [page (good.inZone memBuddy)] at zone
    exact good.lonely k p mem less zone memBuddy
  · intro k p mem
    rw [page (good.inZone mem)]
    exact good.listed k p mem
  · intro p isIn head
    rcases (inZone p).mp isIn with old | new
    · rw [page old] at head
      exact good.heads p old head
    · rw [fresh p new] at head
      cases head

end NewZone

/-- The second loop of `buddy_init_memmap` frees the zone. -/
theorem Good.initBlocks {n order : Nat} (good : b.Good)
    (taken : b.Taken z (b.idx2page z idx) n) (le : order ≤ maxOrder) (aligned : 2 ^ order ∣ idx)
    (above : ∀ q, b.idx2page z idx ≤ q → (b.page q).zoneNum = z → ¬b.IsFree q)
    (single : order < maxOrder → n < 2 ^ order ∨ (n < 2 ^ (order + 1) ∧ 2 ^ (order + 1) ∣ idx)) :
    Freed b (b.initBlocks (b.idx2page z idx) n order) (b.idx2page z idx) n := by
  induction total : n + order using Nat.strong_induction_on generalizing b idx n order with
  | _ total ih =>
      have positive := Nat.two_pow_pos order
      rw [Buddy.initBlocks]
      by_cases done : n = 0
      · subst done
        rw [if_pos rfl]
        exact Freed.refl good
      · rw [if_neg done]
        by_cases large : 2 ^ order ≤ n
        · rw [if_pos large]
          have held := (taken.mono (Nat.le_refl _) (Nat.add_le_add_left large _)).held aligned
          have lonely : b.Lonely z idx order := by
            intro less zone mem
            rcases single less with small | ⟨_, next⟩
            · omega
            · rw [Library.Buddies.xor_of_aligned next] at zone mem
              refine above _ ?_ zone (IsFree.of_mem mem)
              exact Nat.add_le_add_left (Nat.le_add_right idx _) _
          have same := addFree_sameZones b order (b.idx2page z idx)
          have first : Freed b (b.addFree (b.idx2page z idx) order) (b.idx2page z idx)
              (2 ^ order) :=
            ⟨good.addFree held le lonely, same, isFree_addFree b order (b.idx2page z idx)⟩
          have next : (b.addFree (b.idx2page z idx) order).idx2page z (idx + 2 ^ order) =
              b.idx2page z idx + 2 ^ order := by
            rw [same.idx2page]
            exact (Nat.add_assoc ..).symm
          have rest := taken.rest first large
          rw [← next] at rest
          have later := ih (n - 2 ^ order + order) (by omega) first.good rest le
            (Nat.dvd_add aligned (Nat.dvd_refl _)) ?_ ?_ rfl
          · rw [next] at later
            have both := first.trans later
            rwa [Nat.add_sub_cancel' large] at both
          · intro q low zone isFree
            rw [next] at low
            rw [same.zoneNum] at zone
            rcases (first.isFree q).mp isFree with old | inside
            · exact above q (by omega) zone old
            · omega
          · intro less
            rcases single less with small | ⟨small, _⟩
            · omega
            · rw [Nat.pow_succ] at small
              exact .inl (by omega)
        · rw [if_neg large]
          have notZero : order ≠ 0 := by
            rintro rfl
            omega
          obtain ⟨lower, rfl⟩ := Nat.exists_eq_succ_of_ne_zero notZero
          have alignedLess : 2 ^ lower ∣ idx := (Nat.pow_dvd_pow 2 (Nat.le_succ lower)).trans aligned
          exact ih (n + lower) (by omega) good taken (by omega) alignedLess above
            (fun _ => .inr ⟨Nat.lt_of_not_le large, aligned⟩) rfl

/-- `buddy_init_memmap` makes blocks of reserved pages, or stops. -/
theorem initMemmap_eq_ok_iff {base n : Nat} :
    b.initMemmap base n = .ok b' ↔
      (0 < n ∧ b.zones.length < maxZoneNum) ∧
        (∀ q, base ≤ q → q < base + n → (b.page q).pgReserved = true) ∧
        (b.newZone base n).initBlocks base n maxOrder = b' := by
  unfold Buddy.initMemmap
  by_cases enough : 0 < n ∧ b.zones.length < maxZoneNum
  · rw [if_pos enough, Library.bind_eq_ok_iff]
    constructor
    · rintro ⟨b₁, pages, blocks⟩
      have reserved := reserved_of_initPages pages
      rw [initPages_ok reserved] at pages
      cases pages
      exact ⟨enough, reserved, Except.ok.inj blocks⟩
    · rintro ⟨_, reserved, blocks⟩
      exact ⟨_, initPages_ok reserved, congrArg Except.ok blocks⟩
  · rw [if_neg enough]
    constructor
    · intro done
      cases done
    · rintro ⟨isEnough, _⟩
      exact absurd isEnough enough

/-- `buddy_init_memmap` makes the pages of a new zone free. -/
theorem Good.initMemmap {base n : Nat} (good : b.Good) (inside : base + n ≤ b.npage)
    (done : b.initMemmap base n = .ok b') : Freed (b.newZone base n) b' base n := by
  obtain ⟨_, reserved, rfl⟩ := initMemmap_eq_ok_iff.mp done
  have goodNew := good.newZone reserved inside
  have fresh : ∀ q, base ≤ q ∧ q < base + n →
      (b.newZone base n).page q = ⟨0, false, false, 0, 0, b.zones.length⟩ :=
    fun q here => if_pos here
  have start : (b.newZone base n).idx2page b.zones.length 0 = base := memBase_newZone_length
  have notFree : ∀ q, ((b.newZone base n).page q).zoneNum = b.zones.length →
      ¬(b.newZone base n).IsFree q := by
    rintro q zone ⟨k, p, mem, low, high⟩
    obtain ⟨oldQ, _⟩ := good.ofZone k p mem q low high
    rw [newZone_page reserved oldQ] at zone
    have known := good.zones.known q oldQ
    omega
  have taken : (b.newZone base n).Taken b.zones.length
      ((b.newZone base n).idx2page b.zones.length 0) n := by
    rw [start]
    refine ⟨fun q low high => ⟨(inZone_newZone inside q).mpr (.inr ⟨low, high⟩), ?_⟩,
      fun q low high => notFree q ?_⟩
    · rw [fresh q ⟨low, high⟩]
    · rw [fresh q ⟨low, high⟩]
  have freed := goodNew.initBlocks taken (Nat.le_refl maxOrder) (Nat.dvd_zero _)
    (fun q _ zone => notFree q zone) (fun less => absurd less (Nat.lt_irrefl _))
  rw [start] at freed
  exact freed

end EdfKernel.Mm.Buddy
