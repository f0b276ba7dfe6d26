import EdfKernel.Mm.BuddyRuns

/-!
# The accounting of the buddy allocator

In every state of a run the counts are exact, pages are handed out while a block is large enough,
and pages that are out can be given back in any cut, except for a cut that contains an aligned
block of twice the largest size.
-/

namespace EdfKernel.Mm

open Library

namespace BuddyState

open Buddy

variable {s : BuddyState}

theorem Out.mono {base n base' n' : Nat} (out : s.Out base n) (positive : 0 < n')
    (low : base ≤ base') (high : base' + n' ≤ base + n) : s.Out base' n' := by
  obtain ⟨_, inside, zone⟩ := out
  have part : Finset.Ico base' (base' + n') ⊆ Finset.Ico base (base + n) :=
    Finset.Ico_subset_Ico low high
  refine ⟨positive, part.trans inside, fun q mem => ?_⟩
  have first : base' ∈ Finset.Ico base' (base' + n') := Finset.mem_Ico.mpr (by omega)
  rw [zone q (part mem), zone base' (part first)]

/-- A new zone adds its pages to the count. -/
theorem Sound.initMemmap_count (sound : s.Sound) {base n : Nat} {b : Buddy}
    (allowed : s.Allowed (.initMemmap base n)) (done : s.buddy.initMemmap base n = .ok b) :
    b.nrFreePages = s.buddy.nrFreePages + n := by
  have freed := sound.good.initMemmap allowed done
  have reserved := (initMemmap_eq_ok_iff.mp done).2.1
  refine nrFreePages_add sound.good freed.good freed.isFree fun q low high isFree => ?_
  have notReserved := ((sound.pages q).mpr (.inl isFree)).2
  rw [reserved q low high] at notReserved
  cases notReserved

theorem Sound.allocPages (sound : s.Sound) {n : Nat} (allowed : s.Allowed (.allocPages n)) :
    (s.buddy.allocPages n = .ok (none, s.buddy) ∧
        ∀ k, Nat.clog 2 n ≤ k → s.buddy.freeList k = []) ∨
      ∃ page b, s.buddy.allocPages n = .ok (some page, b) ∧
        (∀ q, page ≤ q → q < page + n → s.buddy.IsFree q) ∧
        b.nrFreePages + n = s.buddy.nrFreePages := by
  rcases sound.good.allocPages allowed.1 allowed.2 with nothing | ⟨b, z, idx, found, _, pages⟩
  · exact .inl nothing
  · refine .inr ⟨_, b, found, fun q low high => (pages.isFree q).mpr (.inr ⟨low, high⟩), ?_⟩
    refine (nrFreePages_add pages.good sound.good pages.isFree fun q low high => ?_).symm
    rw [← pages.same.idx2page] at low high
    exact pages.taken.taken q low high

theorem Sound.freePages_cases (sound : s.Sound) {base n : Nat} (out : s.Out base n) :
    (WholeBlock (s.buddy.page2idx base) n ∧ s.buddy.freePages base n = .error .order) ∨
      ¬WholeBlock (s.buddy.page2idx base) n ∧ ∃ b, s.buddy.freePages base n = .ok b ∧
        b.nrFreePages = s.buddy.nrFreePages + n := by
  by_cases whole : WholeBlock (s.buddy.page2idx base) n
  · exact .inl ⟨whole, sound.freePages_stops out whole⟩
  · obtain ⟨b, done, freed⟩ := sound.freePages out whole
    refine .inr ⟨whole, b, done, nrFreePages_add sound.good freed.good freed.isFree ?_⟩
    exact fun q low high => sound.apart q (out.2.1 (Finset.mem_Ico.mpr ⟨low, high⟩))

end BuddyState

open BuddyState Buddy

/-! ## A zone of two blocks of the largest size -/

/-- No page has been set up. -/
def blankMemory : Nat → BuddyPage := fun _ => ⟨0, false, false, 0, 0, 0⟩

/-- A zone of 2048 pages is handed out in two halves. -/
def twoHalves : List BuddyOp := [.initMemmap 0 2048, .allocPages 1024, .allocPages 1024]

namespace Buddy

/-- A block of the largest size is handed out whole. -/
theorem allocPages_of_top {b : Buddy} {page : Nat} {others : List Nat}
    (listed : b.freeList maxOrder = page :: others) :
    b.allocPages 1024 = .ok (some page, b.takeOut page maxOrder) := by
  have order : Nat.clog 2 1024 = maxOrder := Nat.clog_pow 2 10 Nat.one_lt_two
  have one : maxOrder + 1 - maxOrder = 1 := rfl
  unfold allocPages
  rw [if_neg (by decide), getorder_eq (Nat.le_refl 1024), order]
  simp only [bind, Except.bind, allocPagesSub, Nat.le_refl, if_true, one, allocFrom, listed,
    Nat.sub_self, splitBlock]
  rfl

/-- The zone that `twoHalves` sets up. -/
def twoBlocks : Buddy :=
  (((init 2048 blankMemory).newZone 0 2048).addFree 0 maxOrder).addFree 1024 maxOrder

theorem initMemmap_twoBlocks :
    (init 2048 blankMemory).initMemmap 0 2048 = .ok twoBlocks := by
  refine initMemmap_eq_ok_iff.mpr ⟨⟨by decide, by decide⟩, fun q _ high => ?_, ?_⟩
  · change (if q < 2048 then _ else _ : BuddyPage).pgReserved = true
    rw [if_pos (by omega)]
  · rw [initBlocks, if_neg (by decide), if_pos (by decide), initBlocks, if_neg (by decide),
      if_pos (by decide), initBlocks, if_pos (by decide)]
    rfl

end Buddy

namespace BuddyState

/-- The state in which the zone is set up. -/
def zoneSetUp : BuddyState := ⟨twoBlocks, ∅⟩

/-- The state after `twoHalves`. -/
def halvesOut : BuddyState :=
  ⟨(twoBlocks.takeOut 1024 maxOrder).takeOut 0 maxOrder,
    (∅ ∪ Finset.Ico 1024 (1024 + 1024)) ∪ Finset.Ico 0 (0 + 1024)⟩

theorem step_firstHalf : zoneSetUp.step (.allocPages 1024) =
    .ok ⟨twoBlocks.takeOut 1024 maxOrder, ∅ ∪ Finset.Ico 1024 (1024 + 1024)⟩ :=
  step_allocPages_of_some (allocPages_of_top rfl)

theorem step_secondHalf : (⟨twoBlocks.takeOut 1024 maxOrder,
    ∅ ∪ Finset.Ico 1024 (1024 + 1024)⟩ : BuddyState).step (.allocPages 1024) = .ok halvesOut :=
  step_allocPages_of_some (allocPages_of_top rfl)

theorem step_zone :
    (start 2048 blankMemory).step (.initMemmap 0 2048) = .ok zoneSetUp :=
  @step_initMemmap_of_ok (start 2048 blankMemory) 0 2048 twoBlocks initMemmap_twoBlocks

theorem exec_twoHalves : Run.exec step (start 2048 blankMemory) twoHalves = .ok halvesOut := by
  simp only [twoHalves, Run.exec, step_zone, step_firstHalf, step_secondHalf]

theorem along_twoHalves : Run.Along step Allowed (start 2048 blankMemory) twoHalves := by
  have inside : 0 + 2048 ≤ (start 2048 blankMemory).buddy.npage := Nat.le_refl 2048
  have positive : 0 < 1024 := by omega
  have le : 1024 ≤ 1024 := Nat.le_refl 1024
  simp only [twoHalves, Run.Along, Allowed]
  exact ⟨inside, fun _ _ => ⟨⟨positive, le⟩, fun _ _ => ⟨⟨positive, le⟩, fun _ _ => trivial⟩⟩⟩

theorem out_halvesOut : halvesOut.Out 0 2048 := by
  have zone : ∀ q < 2048, (halvesOut.buddy.page q).zoneNum = 0 := by
    intro q less
    have same := (addFree_sameZones ((init 2048 blankMemory).newZone 0 2048) maxOrder 0).trans
      ((addFree_sameZones _ maxOrder 1024).trans
        ((takeOut_sameZones _ maxOrder 1024).trans (takeOut_sameZones _ maxOrder 0)))
    have sameZone : (halvesOut.buddy.page q).zoneNum = _ := same.zoneNum q
    rw [sameZone]
    change (if 0 ≤ q ∧ q < 0 + 2048 then _ else _ : BuddyPage).zoneNum = 0
    rw [if_pos (by omega)]
    rfl
  refine ⟨by decide, fun q mem => ?_, fun q mem => ?_⟩
  · have high := (Finset.mem_Ico.mp mem).2
    rw [halvesOut, Finset.mem_union, Finset.mem_union, Finset.mem_Ico, Finset.mem_Ico]
    omega
  · have high := (Finset.mem_Ico.mp mem).2
    rw [zone q (by omega), zone 0 (by omega)]

end BuddyState

/-- In every state of a run the free lists are sound, the count of free pages is exact, and every
call changes it by the number of its pages. -/
theorem buddy_accounting {npage : Nat} {memory : Nat → BuddyPage} {ops : List BuddyOp}
    {s : BuddyState} (allowed : Run.Along step Allowed (start npage memory) ops)
    (run : Run.exec step (start npage memory) ops = .ok s) :
    s.Sound ∧ s.buddy.nrFreePages = {q | s.buddy.IsFree q}.ncard ∧
      (∀ base n b, base + n ≤ s.buddy.npage → s.buddy.initMemmap base n = .ok b →
        b.nrFreePages = s.buddy.nrFreePages + n) ∧
      (∀ n, 0 < n → n ≤ 1024 →
        (s.buddy.allocPages n = .ok (none, s.buddy) ∧
            ∀ k, Nat.clog 2 n ≤ k → s.buddy.freeList k = []) ∨
          ∃ page b, s.buddy.allocPages n = .ok (some page, b) ∧
            (∀ q, page ≤ q → q < page + n → s.buddy.IsFree q) ∧
            b.nrFreePages + n = s.buddy.nrFreePages) ∧
      ∀ base n, s.Out base n →
        (WholeBlock (s.buddy.page2idx base) n ∧ s.buddy.freePages base n = .error .order) ∨
          ¬WholeBlock (s.buddy.page2idx base) n ∧ ∃ b, s.buddy.freePages base n = .ok b ∧
            b.nrFreePages = s.buddy.nrFreePages + n := by
  have sound := sound_of_run allowed run
  refine ⟨sound, sound.good.nrFreePages_eq, ?_, ?_, ?_⟩
  · exact fun base n b inside done => sound.initMemmap_count inside done
  · exact fun n positive le => sound.allocPages ⟨positive, le⟩
  · exact fun base n out => sound.freePages_cases out

/-- The accounting after the halves have been handed out. -/
theorem buddy_accounting_twoHalves :
    halvesOut.Sound ∧ halvesOut.buddy.nrFreePages = {q | halvesOut.buddy.IsFree q}.ncard :=
  have accounting := buddy_accounting along_twoHalves exec_twoHalves
  ⟨accounting.1, accounting.2.1⟩

/-- The pages of the halves cannot be given back in one call. -/
theorem buddy_free_stops :
    ∃ s, Run.Along step Allowed (start 2048 blankMemory) twoHalves ∧
      Run.exec step (start 2048 blankMemory) twoHalves = .ok s ∧ s.Out 0 2048 ∧
      s.buddy.freePages 0 2048 = .error .order := by
  refine ⟨halvesOut, along_twoHalves, exec_twoHalves, out_halvesOut, ?_⟩
  have sound := sound_of_run along_twoHalves exec_twoHalves
  exact sound.freePages_stops out_halvesOut ⟨0, Nat.dvd_zero _, Nat.zero_le _, by decide⟩

end EdfKernel.Mm
