import EdfKernel.Mm.BuddyAccounting

/-!
# The free blocks are determined by the free pages

No two buddies below the largest order are both free, so the blocks of a zone tile its free pages
in the only way there is.
-/

namespace EdfKernel.Mm

open Library

namespace Buddy

variable {b b' : Buddy} {z : Nat}

/-- The free blocks of a zone: the index of the first page, and the order. -/
def blocksOf (b : Buddy) (z : Nat) : Set (Nat × Nat) :=
  {block | (b.page (b.idx2page z block.1)).zoneNum = z ∧
    b.idx2page z block.1 ∈ b.freeList block.2}

/-- The indices of the free pages of a zone. -/
def freeOf (b : Buddy) (z : Nat) : Set Nat :=
  {i | (b.page (b.idx2page z i)).zoneNum = z ∧ b.IsFree (b.idx2page z i)}

/-- The free blocks of a zone tile its free pages. -/
theorem Good.tiling (good : b.Good) (z : Nat) :
    Buddies.Tiling maxOrder (b.freeOf z) (b.blocksOf z) := by
  have start : ∀ i, b.idx2page z i = b.memBase z + i := fun _ => rfl
  refine ⟨?_, ?_, ?_, ?_, ?_⟩
  · rintro ⟨i, k⟩ ⟨_, mem⟩
    exact good.order_le k _ mem
  · rintro ⟨i, k⟩ ⟨zone, mem⟩
    have aligned := good.aligned k _ mem
    rwa [page2idx_idx2page zone] at aligned
  · rintro ⟨i, k⟩ ⟨_, mem⟩ ⟨j, m⟩ ⟨_, mem'⟩ other
    have apart := good.apart k _ mem m _ mem' (by
      simp only [start, ne_eq, Prod.mk.injEq, Nat.add_left_cancel_iff] at other ⊢
      exact other)
    simp only [start] at apart
    change i + 2 ^ k ≤ j ∨ j + 2 ^ m ≤ i
    omega
  · intro n
    constructor
    · rintro ⟨zone, k, p, mem, low, high⟩
      have ofZone := good.ofZone k p mem _ low high
      have zoneP : (b.page p).zoneNum = z := ofZone.2.symm.trans zone
      have place := good.zones.idx2page_page2idx (good.inZone mem)
      rw [zoneP] at place
      refine ⟨(b.page2idx p, k), ⟨?_, ?_⟩, ?_⟩
      · rw [place, zoneP]
      · rw [place]
        exact mem
      · rw [← place, start, start] at low high
        change b.page2idx p ≤ n ∧ n < b.page2idx p + 2 ^ k
        omega
    · rintro ⟨⟨i, k⟩, ⟨zone, mem⟩, low, high⟩
      have lowPage : b.idx2page z i ≤ b.idx2page z n := Nat.add_le_add_left low _
      have highPage : b.idx2page z n < b.idx2page z i + 2 ^ k := by
        change n < i + 2 ^ k at high
        simp only [start]
        omega
      have ofZone := good.ofZone k _ mem _ lowPage highPage
      exact ⟨ofZone.2.trans zone, k, _, mem, lowPage, highPage⟩
  · rintro ⟨i, k⟩ ⟨zone, mem⟩ less ⟨zoneBuddy, memBuddy⟩
    have lonely := good.lonely k _ mem less
    rw [page2idx_idx2page zone, zone] at lonely
    exact lonely zoneBuddy memBuddy

/-- Free pages determine the free blocks. -/
theorem Good.freeList_of_isFree (good : b.Good) (good' : b'.Good) (same : SameZones b b')
    (isFree : ∀ q, b'.IsFree q ↔ b.IsFree q) {k p : Nat} (mem : p ∈ b.freeList k) :
    p ∈ b'.freeList k := by
  have points : b.freeOf (b.page p).zoneNum = b'.freeOf (b.page p).zoneNum := by
    ext i
    change (_ ∧ _) ↔ (_ ∧ _)
    rw [same.idx2page, same.zoneNum, isFree]
  have tiling := good.tiling (b.page p).zoneNum
  rw [points] at tiling
  have blocks := tiling.unique (good'.tiling (b.page p).zoneNum)
  have place := good.zones.idx2page_page2idx (good.inZone mem)
  have here : (b.page2idx p, k) ∈ b.blocksOf (b.page p).zoneNum := by
    refine ⟨?_, ?_⟩
    · rw [place]
    · rw [place]
      exact mem
  rw [blocks] at here
  have memThere := here.2
  rw [same.idx2page, place] at memThere
  exact memThere

theorem SameZones.symm (same : SameZones b b') : SameZones b' b :=
  ⟨same.npage.symm, same.zones.symm, fun p => (same.pgReserved p).symm,
    fun p => (same.zoneNum p).symm⟩

theorem Good.freeList_iff (good : b.Good) (good' : b'.Good) (same : SameZones b b')
    (isFree : ∀ q, b'.IsFree q ↔ b.IsFree q) (k p : Nat) :
    p ∈ b'.freeList k ↔ p ∈ b.freeList k :=
  ⟨good'.freeList_of_isFree good same.symm fun q => (isFree q).symm,
    good.freeList_of_isFree good' same isFree⟩

/-! ## The zones of a run -/

theorem initBlocks_sameZones (b : Buddy) (p n order : Nat) :
    SameZones b (b.initBlocks p n order) := by
  induction total : n + order using Nat.strong_induction_on generalizing b p n order with
  | _ total ih =>
      have positive := Nat.two_pow_pos order
      rw [initBlocks]
      by_cases done : n = 0
      · rw [if_pos done]
        exact SameZones.refl b
      · rw [if_neg done]
        by_cases large : 2 ^ order ≤ n
        · rw [if_pos large]
          exact (addFree_sameZones b order p).trans
            (ih (n - 2 ^ order + order) (by omega) _ _ _ _ rfl)
        · rw [if_neg large]
          have notZero : order ≠ 0 := by
            rintro rfl
            omega
          exact ih (n + (order - 1)) (by omega) _ _ _ _ rfl

theorem SameZones.newZone (same : SameZones b b') (base n : Nat) :
    SameZones (b.newZone base n) (b'.newZone base n) := by
  refine ⟨same.npage, ?_, fun p => ?_, fun p => ?_⟩
  · change b'.zones ++ [base] = b.zones ++ [base]
    rw [same.zones]
  · change (if base ≤ p ∧ p < base + n then _ else b'.page p : BuddyPage).pgReserved =
      (if base ≤ p ∧ p < base + n then _ else b.page p : BuddyPage).pgReserved
    split
    · rfl
    · exact same.pgReserved p
  · change (if base ≤ p ∧ p < base + n then _ else b'.page p : BuddyPage).zoneNum =
      (if base ≤ p ∧ p < base + n then _ else b.page p : BuddyPage).zoneNum
    rw [same.zones]
    split
    · rfl
    · exact same.zoneNum p

/-- A zone that can be set up beside some zones can be set up beside the same zones. -/
theorem SameZones.initMemmap (same : SameZones b b') {base n : Nat} {c : Buddy}
    (done : b.initMemmap base n = .ok c) :
    ∃ c', b'.initMemmap base n = .ok c' ∧ SameZones c c' := by
  obtain ⟨enough, reserved, rfl⟩ := initMemmap_eq_ok_iff.mp done
  refine ⟨_, initMemmap_eq_ok_iff.mpr ⟨?_, fun q low high => ?_, rfl⟩, ?_⟩
  · rw [same.zones]
    exact enough
  · rw [same.pgReserved]
    exact reserved q low high
  · exact (initBlocks_sameZones _ base n maxOrder).symm.trans
      ((same.newZone base n).trans (initBlocks_sameZones _ base n maxOrder))

end Buddy

/-- A call that sets up a zone. -/
def BuddyOp.isInit : BuddyOp → Bool
  | .initMemmap _ _ => true
  | _ => false

namespace BuddyState

open Buddy

variable {s s' t : BuddyState}

/-- Handing pages out and taking them back leaves the zones as they are. -/
theorem Sound.step_sameZones (sound : s.Sound) {op : BuddyOp} (allowed : s.Allowed op)
    (done : s.step op = .ok s') (notInit : op.isInit = false) :
    SameZones s.buddy s'.buddy := by
  cases op with
  | initMemmap base n => cases notInit
  | allocPages n =>
      obtain ⟨⟨page, b⟩, ran, rest⟩ := bind_eq_ok_iff.mp done
      rcases sound.good.allocPages allowed.1 allowed.2 with
        ⟨nothing, _⟩ | ⟨b', z, idx, found, _, pages⟩
      · rw [nothing] at ran
        cases ran
        cases rest
        exact SameZones.refl _
      · rw [found] at ran
        cases ran
        cases rest
        exact pages.same
  | freePages base n =>
      obtain ⟨b, ran, rest⟩ := bind_eq_ok_iff.mp done
      cases rest
      by_cases whole : WholeBlock (s.buddy.page2idx base) n
      · rw [sound.freePages_stops allowed whole] at ran
        cases ran
      · obtain ⟨b', freedPages, freed⟩ := sound.freePages allowed whole
        rw [freedPages] at ran
        cases ran
        exact freed.same

/-- The zones after a run are those that its calls of `buddy_init_memmap` set up. -/
theorem Sound.exec_sameZones {ops : List BuddyOp} (sound : s.Sound)
    (same : SameZones s.buddy t.buddy) (allowed : Run.Along BuddyState.step Allowed s ops)
    (run : Run.exec BuddyState.step s ops = .ok s') :
    ∃ t', Run.exec BuddyState.step t (ops.filter BuddyOp.isInit) = .ok t' ∧
      SameZones s'.buddy t'.buddy := by
  induction ops generalizing s t with
  | nil =>
      cases run
      exact ⟨t, rfl, same⟩
  | cons op ops ih =>
      obtain ⟨next, taken, rest⟩ := Run.exec_cons_eq_ok_iff.mp run
      have soundNext := sound.step allowed.1 taken
      cases isInit : op.isInit with
      | false =>
          have unchanged := sound.step_sameZones allowed.1 taken isInit
          rw [List.filter_cons_of_neg (by rw [isInit]; exact Bool.false_ne_true)]
          exact ih soundNext (unchanged.symm.trans same) (allowed.2 next taken) rest
      | true =>
          rw [List.filter_cons_of_pos isInit]
          cases op with
          | initMemmap base n =>
              obtain ⟨c, ran, eq⟩ := bind_eq_ok_iff.mp taken
              cases eq
              obtain ⟨c', ran', sameNext⟩ := same.initMemmap ran
              obtain ⟨t', restT, sameEnd⟩ := ih (t := ⟨c', t.allocated⟩) soundNext sameNext
                (allowed.2 _ taken) rest
              refine ⟨t', Run.exec_cons_eq_ok_iff.mpr ⟨_, step_initMemmap_of_ok ran', restT⟩,
                sameEnd⟩
          | allocPages n => cases isInit
          | freePages base n => cases isInit

end BuddyState

open BuddyState Buddy

/-- No two buddies below the largest order are free, two histories with the same zones that leave
the same pages free end with the same free blocks, and pages that are handed out and given back
leave them as they were. -/
theorem buddy_canonical {npage : Nat} {memory : Nat → BuddyPage} {ops : List BuddyOp}
    {s : BuddyState} (allowed : Run.Along step Allowed (start npage memory) ops)
    (run : Run.exec step (start npage memory) ops = .ok s) :
    (∀ k, ∀ p ∈ s.buddy.freeList k,
        s.buddy.Lonely (s.buddy.page p).zoneNum (s.buddy.page2idx p) k) ∧
      (∀ ops' s', Run.Along step Allowed (start npage memory) ops' →
        Run.exec step (start npage memory) ops' = .ok s' →
        ops'.filter BuddyOp.isInit = ops.filter BuddyOp.isInit →
        (∀ q, s'.buddy.IsFree q ↔ s.buddy.IsFree q) →
        ∀ k p, p ∈ s'.buddy.freeList k ↔ p ∈ s.buddy.freeList k) ∧
      ∀ n page b, 0 < n → n ≤ 1024 → s.buddy.allocPages n = .ok (some page, b) →
        ∃ b', b.freePages page n = .ok b' ∧
          ∀ k p, p ∈ b'.freeList k ↔ p ∈ s.buddy.freeList k := by
  have sound := sound_of_run allowed run
  refine ⟨sound.good.lonely, ?_, ?_⟩
  · intro ops' s' allowed' run' sameInits isFree
    have sound' := sound_of_run allowed' run'
    obtain ⟨t, inits, same⟩ := (sound_start npage memory).exec_sameZones
      (SameZones.refl _) allowed run
    obtain ⟨t', inits', same'⟩ := (sound_start npage memory).exec_sameZones
      (SameZones.refl _) allowed' run'
    rw [sameInits, inits] at inits'
    cases inits'
    exact sound.good.freeList_iff sound'.good (same.trans same'.symm) isFree
  · intro n page b positive le found
    rcases sound.good.allocPages positive le with
      ⟨nothing, _⟩ | ⟨b₁, z, idx, found₁, _, pages⟩
    · rw [nothing] at found
      cases found
    · rw [found₁] at found
      cases found
      have fits : ¬WholeBlock idx n := by
        intro whole
        have size := whole.le
        have value : 2 ^ (maxOrder + 1) = 2048 := rfl
        omega
      obtain ⟨b', done, freed⟩ := pages.good.freePages pages.taken positive fits
      rw [pages.same.idx2page] at done freed
      refine ⟨b', done, fun k p => ?_⟩
      refine sound.good.freeList_iff freed.good (pages.same.trans freed.same) (fun q => ?_) k p
      rw [freed.isFree, ← pages.isFree]

/-- The two blocks of a zone of 2048 pages, before and after five of its pages have been out. -/
theorem buddy_canonical_zoneSetUp :
    (∀ k, ∀ p ∈ zoneSetUp.buddy.freeList k,
        zoneSetUp.buddy.Lonely (zoneSetUp.buddy.page p).zoneNum (zoneSetUp.buddy.page2idx p) k) ∧
      ∀ page b, zoneSetUp.buddy.allocPages 5 = .ok (some page, b) →
        ∃ b', b.freePages page 5 = .ok b' ∧
          ∀ k p, p ∈ b'.freeList k ↔ p ∈ zoneSetUp.buddy.freeList k := by
  have inside : 0 + 2048 ≤ (start 2048 blankMemory).buddy.npage := Nat.le_refl 2048
  have allowed : Run.Along step Allowed (start 2048 blankMemory) [.initMemmap 0 2048] := by
    simp only [Run.Along, Allowed]
    exact ⟨inside, fun _ _ => trivial⟩
  have run : Run.exec step (start 2048 blankMemory) [.initMemmap 0 2048] = .ok zoneSetUp :=
    Run.exec_cons_eq_ok_iff.mpr ⟨zoneSetUp, step_zone, Run.exec_nil zoneSetUp⟩
  have canonical := buddy_canonical allowed run
  exact ⟨canonical.1, fun page b => canonical.2.2 5 page b (by omega) (by omega)⟩

end EdfKernel.Mm
