import EdfKernel.Library.Run
import EdfKernel.Mm.BuddyAlloc
import Mathlib.Algebra.BigOperators.Group.Finset.Basic
import Mathlib.Data.Finset.Card
import Mathlib.Data.Nat.SuccPred
import Mathlib.Data.Set.Card
import Mathlib.Order.Interval.Finset.Nat

/-!
# Runs of the buddy allocator

Zones are set up, pages are handed out and pages that are out are given back, in any order and cut
in any way.  The pages that are out are carried along.
-/

namespace EdfKernel.Mm

open Library

/-- A call of the allocator. -/
inductive BuddyOp
  | initMemmap (base n : Nat)
  | allocPages (n : Nat)
  | freePages (base n : Nat)
  deriving DecidableEq, Repr

/-- The allocator, with the pages that are out. -/
structure BuddyState where
  buddy : Buddy
  allocated : Finset Nat

namespace BuddyState

open Buddy

variable {s s' : BuddyState}

/-- After `page_init` and `buddy_init`. -/
def start (npage : Nat) (memory : Nat → BuddyPage) : BuddyState := ⟨.init npage memory, ∅⟩

def step (s : BuddyState) : BuddyOp → Except BuddyPanic BuddyState
  | .initMemmap base n => do
      let b ← s.buddy.initMemmap base n
      return { s with buddy := b }
  | .allocPages n => do
      let (page, b) ← s.buddy.allocPages n
      match page with
      | none => return { s with buddy := b }
      | some page => return ⟨b, s.allocated ∪ Finset.Ico page (page + n)⟩
  | .freePages base n => do
      let b ← s.buddy.freePages base n
      return ⟨b, s.allocated \ Finset.Ico base (base + n)⟩

theorem step_initMemmap_of_ok {base n : Nat} {b : Buddy}
    (done : s.buddy.initMemmap base n = .ok b) :
    s.step (.initMemmap base n) = .ok ⟨b, s.allocated⟩ := by
  rw [step, done]
  rfl

theorem step_allocPages_of_some {n page : Nat} {b : Buddy}
    (done : s.buddy.allocPages n = .ok (some page, b)) :
    s.step (.allocPages n) = .ok ⟨b, s.allocated ∪ Finset.Ico page (page + n)⟩ := by
  rw [step, done]
  rfl

/-- A run of pages of one zone that are out. -/
def Out (s : BuddyState) (base n : Nat) : Prop :=
  0 < n ∧ Finset.Ico base (base + n) ⊆ s.allocated ∧
    ∀ q ∈ Finset.Ico base (base + n), (s.buddy.page q).zoneNum = (s.buddy.page base).zoneNum

instance decidableOut (s : BuddyState) (base n : Nat) : Decidable (s.Out base n) :=
  inferInstanceAs (Decidable (_ ∧ _ ∧ _))

/-- What the callers keep to. -/
def Allowed (s : BuddyState) : BuddyOp → Prop
  | .initMemmap base n => base + n ≤ s.buddy.npage
  | .allocPages n => 0 < n ∧ n ≤ 1024
  | .freePages base n => s.Out base n

/-- The pages of the zones are free or out, and the free ones are in blocks. -/
structure Sound (s : BuddyState) : Prop where
  good : s.buddy.Good
  pages : ∀ q, s.buddy.InZone q ↔ s.buddy.IsFree q ∨ q ∈ s.allocated
  apart : ∀ q ∈ s.allocated, ¬s.buddy.IsFree q

theorem sound_start (npage : Nat) (memory : Nat → BuddyPage) : (start npage memory).Sound := by
  have noZone : ∀ q, ¬(start npage memory).buddy.InZone q := by
    rintro q ⟨less, notReserved⟩
    change q < npage at less
    change (if q < npage then { memory q with pgReserved := true } else memory q).pgReserved =
      false at notReserved
    rw [if_pos less] at notReserved
    cases notReserved
  have noBlock : ∀ k p, p ∉ (start npage memory).buddy.freeList k := fun k p => List.not_mem_nil
  refine ⟨⟨⟨?_, ?_, ?_⟩, ?_, ?_, ?_, ?_, ?_, ?_, ?_, ?_, ?_⟩, fun q => ⟨?_, ?_⟩, ?_⟩
  · exact fun p inZone => absurd inZone (noZone p)
  · exact fun p inZone => absurd inZone (noZone p)
  · exact fun p inZone => absurd inZone (noZone p)
  · exact fun k p mem => absurd mem (noBlock k p)
  · exact fun k p mem => absurd mem (noBlock k p)
  · exact fun k p mem => absurd mem (noBlock k p)
  · exact fun k p mem => absurd mem (noBlock k p)
  · exact fun k p mem => absurd mem (noBlock k p)
  · exact fun k => List.nodup_nil
  · exact fun k => rfl
  · exact fun k p mem => absurd mem (noBlock k p)
  · exact fun p inZone => absurd inZone (noZone p)
  · exact fun inZone => absurd inZone (noZone q)
  · rintro (⟨k, p, mem, _⟩ | mem)
    · exact absurd mem (noBlock k p)
    · exact absurd mem (Finset.notMem_empty q)
  · exact fun q mem => absurd mem (Finset.notMem_empty q)

/-- The pages of a run that is out are taken. -/
theorem Sound.taken (sound : s.Sound) {base n : Nat} (out : s.Out base n) :
    s.buddy.idx2page (s.buddy.page base).zoneNum (s.buddy.page2idx base) = base ∧
      s.buddy.Taken (s.buddy.page base).zoneNum
        (s.buddy.idx2page (s.buddy.page base).zoneNum (s.buddy.page2idx base)) n := by
  obtain ⟨positive, inside, zone⟩ := out
  have mem : ∀ q, base ≤ q → q < base + n → q ∈ s.allocated :=
    fun q low high => inside (Finset.mem_Ico.mpr ⟨low, high⟩)
  have inZone : ∀ q, base ≤ q → q < base + n → s.buddy.InZone q :=
    fun q low high => (sound.pages q).mpr (.inr (mem q low high))
  have place := sound.good.zones.idx2page_page2idx (inZone base (Nat.le_refl _) (by omega))
  rw [place]
  refine ⟨rfl, ?_, ?_⟩
  · exact fun q low high => ⟨inZone q low high, zone q (Finset.mem_Ico.mpr ⟨low, high⟩)⟩
  · exact fun q low high => sound.apart q (mem q low high)

/-- Pages that are out and in no aligned block of twice the largest size are freed. -/
theorem Sound.freePages (sound : s.Sound) {base n : Nat} (out : s.Out base n)
    (fits : ¬WholeBlock (s.buddy.page2idx base) n) :
    ∃ b', s.buddy.freePages base n = .ok b' ∧ Freed s.buddy b' base n := by
  obtain ⟨place, taken⟩ := sound.taken out
  have freed := sound.good.freePages taken out.1 fits
  rwa [place] at freed

/-- With such a block among them the allocator stops. -/
theorem Sound.freePages_stops (sound : s.Sound) {base n : Nat} (out : s.Out base n)
    (whole : WholeBlock (s.buddy.page2idx base) n) :
    s.buddy.freePages base n = .error .order := by
  obtain ⟨place, taken⟩ := sound.taken out
  have stops := sound.good.freePages_stops taken whole
  rwa [place] at stops

/-! ## One step -/

theorem Sound.step_initMemmap (sound : s.Sound) {base n : Nat}
    (allowed : s.Allowed (.initMemmap base n)) (done : s.step (.initMemmap base n) = .ok s') :
    s'.Sound := by
  obtain ⟨b, ran, rest⟩ := bind_eq_ok_iff.mp done
  cases rest
  have reserved := (initMemmap_eq_ok_iff.mp ran).2.1
  have freed := sound.good.initMemmap allowed ran
  have free : ∀ q, b.IsFree q ↔ s.buddy.IsFree q ∨ (base ≤ q ∧ q < base + n) := freed.isFree
  refine ⟨freed.good, fun q => ?_, fun q mem isFree => ?_⟩
  · change b.InZone q ↔ b.IsFree q ∨ q ∈ s.allocated
    rw [freed.same.inZone, inZone_newZone allowed, sound.pages, free, or_right_comm]
  · rcases (free q).mp isFree with old | ⟨low, high⟩
    · exact sound.apart q mem old
    · have notReserved := ((sound.pages q).mpr (.inr mem)).2
      rw [reserved q low high] at notReserved
      cases notReserved

theorem Sound.step_allocPages (sound : s.Sound) {n : Nat} (allowed : s.Allowed (.allocPages n))
    (done : s.step (.allocPages n) = .ok s') : s'.Sound := by
  obtain ⟨⟨page, b⟩, ran, rest⟩ := bind_eq_ok_iff.mp done
  rcases sound.good.allocPages allowed.1 allowed.2 with
    ⟨nothing, _⟩ | ⟨b', z, idx, found, _, pages⟩
  · rw [nothing] at ran
    cases ran
    cases rest
    exact sound
  · rw [found] at ran
    cases ran
    cases rest
    refine ⟨pages.good, fun q => ?_, fun q mem isFree => ?_⟩
    · change b.InZone q ↔ b.IsFree q ∨ q ∈ s.allocated ∪ _
      rw [pages.same.inZone, sound.pages, pages.isFree, Finset.mem_union, Finset.mem_Ico, or_assoc,
        or_comm (a := q ∈ s.allocated)]
    · rcases Finset.mem_union.mp mem with old | new
      · exact sound.apart q old ((pages.isFree q).mpr (.inl isFree))
      · obtain ⟨low, high⟩ := Finset.mem_Ico.mp new
        rw [← pages.same.idx2page] at low high
        exact pages.taken.taken q low high isFree

theorem Sound.step_freePages (sound : s.Sound) {base n : Nat}
    (allowed : s.Allowed (.freePages base n)) (done : s.step (.freePages base n) = .ok s') :
    s'.Sound := by
  obtain ⟨b, ran, rest⟩ := bind_eq_ok_iff.mp done
  cases rest
  by_cases whole : WholeBlock (s.buddy.page2idx base) n
  · rw [sound.freePages_stops allowed whole] at ran
    cases ran
  · obtain ⟨b', freedPages, freed⟩ := sound.freePages allowed whole
    rw [freedPages] at ran
    cases ran
    refine ⟨freed.good, fun q => ?_, fun q mem isFree => ?_⟩
    · change b.InZone q ↔ b.IsFree q ∨ q ∈ s.allocated \ _
      rw [freed.same.inZone, sound.pages, freed.isFree, Finset.mem_sdiff, Finset.mem_Ico]
      by_cases here : base ≤ q ∧ q < base + n
      · have mem := allowed.2.1 (Finset.mem_Ico.mpr here)
        simp only [here, mem, and_self, or_true, true_or]
      · simp only [here, or_false, not_false_eq_true, and_true]
    · obtain ⟨old, outside⟩ := Finset.mem_sdiff.mp mem
      rcases (freed.isFree q).mp isFree with oldFree | inside
      · exact sound.apart q old oldFree
      · exact outside (Finset.mem_Ico.mpr inside)

/-- Every step that the callers may take keeps the invariant. -/
theorem Sound.step (sound : s.Sound) {op : BuddyOp} (allowed : s.Allowed op)
    (done : s.step op = .ok s') : s'.Sound := by
  cases op with
  | initMemmap base n => exact sound.step_initMemmap allowed done
  | allocPages n => exact sound.step_allocPages allowed done
  | freePages base n => exact sound.step_freePages allowed done

/-- Every run that the callers may make keeps the invariant. -/
theorem sound_of_run {npage : Nat} {memory : Nat → BuddyPage} {ops : List BuddyOp}
    (allowed : Run.Along step Allowed (start npage memory) ops)
    (run : Run.exec step (start npage memory) ops = .ok s) : s.Sound :=
  Run.exec_invariant_along (fun _ _ _ sound allowed done => sound.step allowed done)
    (sound_start npage memory) allowed run

end BuddyState

/-! ## Counting -/

namespace Buddy

variable {b b' : Buddy}

/-- The pages of the blocks of one order. -/
def freePagesOf (b : Buddy) (k : Nat) : Finset Nat :=
  (b.freeList k).toFinset.biUnion fun p => Finset.Ico p (p + 2 ^ k)

/-- The pages of the blocks of every order. -/
def allFreePages (b : Buddy) : Finset Nat :=
  (Finset.range (maxOrder + 1)).biUnion b.freePagesOf

theorem mem_freePagesOf {k q : Nat} :
    q ∈ b.freePagesOf k ↔ ∃ p ∈ b.freeList k, p ≤ q ∧ q < p + 2 ^ k := by
  simp [freePagesOf]

theorem Good.mem_allFreePages (good : b.Good) (q : Nat) : q ∈ b.allFreePages ↔ b.IsFree q := by
  unfold allFreePages
  simp only [Finset.mem_biUnion, Finset.mem_range, mem_freePagesOf]
  constructor
  · rintro ⟨k, _, p, mem, inside⟩
    exact ⟨k, p, mem, inside⟩
  · rintro ⟨k, p, mem, inside⟩
    exact ⟨k, Nat.lt_succ_of_le (good.order_le k p mem), p, mem, inside⟩

/-- The counts of the lists count the free pages. -/
theorem Good.nrFreePages_eq_card (good : b.Good) : b.nrFreePages = b.allFreePages.card := by
  have ofOrder : ∀ k, (b.freePagesOf k).card = b.nrFree k * 2 ^ k := by
    intro k
    unfold freePagesOf
    have size : ∀ p ∈ (b.freeList k).toFinset, (Finset.Ico p (p + 2 ^ k)).card = 2 ^ k := by
      intro p _
      rw [Nat.card_Ico, Nat.add_sub_cancel_left]
    rw [Finset.card_biUnion, Finset.sum_const_nat size]
    · rw [List.toFinset_card_of_nodup (good.nodup k), good.count]
    · intro p memP q memQ other
      rw [Finset.mem_coe, List.mem_toFinset] at memP memQ
      refine Finset.disjoint_left.mpr fun r inP inQ => ?_
      rw [Finset.mem_Ico] at inP inQ
      rcases good.apart k p memP k q memQ (by simp [other]) with before | after <;> omega
  unfold allFreePages
  rw [Finset.card_biUnion, Finset.sum_congr rfl fun k _ => ofOrder k]
  · rfl
  · intro k _ m _ other
    refine Finset.disjoint_left.mpr fun r inK inM => ?_
    obtain ⟨p, memP, lowP, highP⟩ := mem_freePagesOf.mp inK
    obtain ⟨q, memQ, lowQ, highQ⟩ := mem_freePagesOf.mp inM
    rcases good.apart k p memP m q memQ (by simp [other]) with before | after <;> omega

/-- `buddy_nr_free_pages` is the number of free pages. -/
theorem Good.nrFreePages_eq (good : b.Good) : b.nrFreePages = {q | b.IsFree q}.ncard := by
  have coe : {q | b.IsFree q} = (b.allFreePages : Set Nat) :=
    Set.ext fun q => (good.mem_allFreePages q).symm
  rw [coe, Set.ncard_coe_finset, good.nrFreePages_eq_card]

/-- Where `n` pages become free, there are `n` more of them. -/
theorem nrFreePages_add {base n : Nat} (good : b.Good) (good' : b'.Good)
    (isFree : ∀ q, b'.IsFree q ↔ b.IsFree q ∨ (base ≤ q ∧ q < base + n))
    (taken : ∀ q, base ≤ q → q < base + n → ¬b.IsFree q) :
    b'.nrFreePages = b.nrFreePages + n := by
  have union : b'.allFreePages = b.allFreePages ∪ Finset.Ico base (base + n) := by
    ext q
    rw [Finset.mem_union, Finset.mem_Ico, good.mem_allFreePages, good'.mem_allFreePages, isFree]
  have disjoint : Disjoint b.allFreePages (Finset.Ico base (base + n)) := by
    refine Finset.disjoint_left.mpr fun q free inside => ?_
    obtain ⟨low, high⟩ := Finset.mem_Ico.mp inside
    exact taken q low high ((good.mem_allFreePages q).mp free)
  rw [good'.nrFreePages_eq_card, good.nrFreePages_eq_card, union,
    Finset.card_union_of_disjoint disjoint, Nat.card_Ico, Nat.add_sub_cancel_left]

end Buddy

end EdfKernel.Mm
