import EdfKernel.Mm.CopyWalk
import EdfKernel.Mm.ExitWalk

/-!
# Walks over a range of pages

`unmap_range`, `copy_range` and `exit_range` of `pmm.c` come to their ends and do to the pages of a
range what they should, and nothing to the others.
-/

namespace EdfKernel.Mm.Pages

open Library

variable {p p' : Pages} {mm target source : MmPtr} {start stop page : Nat} {share : Bool}

theorem unmapRange_unmapped (ok : rangeOk start stop = true)
    (done : p.unmapRange mm start stop = .ok p') :
    p.Unmapped p' mm (start / pgSize) ((stop - start) / pgSize) := by
  rw [unmapRange, if_pos ok, unmapLoop_eq_walk ok (Nat.le_refl _)] at done
  exact unmapped_of_walk done

theorem exitRange_exited (ok : rangeOk start stop = true)
    (done : p.exitRange mm start stop = .ok p') :
    p.Exited p' mm (start / ptSize) (tablesUpTo start stop) := by
  rw [exitRange, if_pos ok, exitLoop_eq_walk ok (Nat.le_refl _)] at done
  exact exited_of_walk done

/-- The pages of a range, by number. -/
theorem page_inside_iff (ok : rangeOk start stop = true) :
    (start / pgSize ≤ page ∧ page < start / pgSize + (stop - start) / pgSize) ↔
      start ≤ page * pgSize ∧ page * pgSize < stop := by
  obtain ⟨aligned, aligned', _, less, _⟩ := rangeOk_spec ok
  unfold pgSize at *
  omega

/-- The entries of the page directory that a range meets, by number. -/
theorem table_inside_iff (ok : rangeOk start stop = true) {i : Nat} :
    (start / ptSize ≤ i ∧ i < start / ptSize + tablesUpTo start stop) ↔
      i * ptSize < stop ∧ start < (i + 1) * ptSize := by
  obtain ⟨_, _, _, less, _⟩ := rangeOk_spec ok
  unfold tablesUpTo ptSize pgSize
  omega

theorem copyRange_copied (ok : rangeOk start stop = true)
    (empty : ∀ page, start ≤ page * pgSize → page * pgSize < stop → p.lookup target page = .zero)
    (done : p.copyRange target source start stop share = .ok (0, p')) :
    p.Copied p' target source share (start / pgSize) ((stop - start) / pgSize) := by
  rw [copyRange, if_pos ok, copyLoop_eq_walk ok (Nat.le_refl _)] at done
  refine (copyResult_of_walk done).copied rfl rfl fun page low high => ?_
  obtain ⟨low, high⟩ := (page_inside_iff ok).mp ⟨low, high⟩
  exact ⟨high.trans_le (rangeOk_spec ok).2.2.2.2, empty page low high⟩

/-- The loops over a range of pages come to their ends.  What they do is exact: `unmap_range`
clears the entries of the pages of the range, with a reference dropped for each of them;
`copy_range` gives the target those of the source, if it had none there; and `exit_range` clears the
entries of the page directory that the range meets.  They do not stop at an assertion where the
counts of references are right. -/
theorem range_walks_exact (p : Pages) (mm target source : MmPtr) (start stop : Nat) (share : Bool)
    (ok : rangeOk start stop = true) :
    (DoWhile (unmapBody mm) (fun la p => p.walkNext mm la) (fun la _ => la ≠ 0 ∧ la < stop) start p
        (p.unmapRange mm start stop) ∧
      DoWhile (copyBody target source share) (fun la s => s.2.walkNext source la)
        (fun la s => s.1 = 0 ∧ la ≠ 0 ∧ la < stop) start (0, p)
        (p.copyRange target source start stop share) ∧
      DoWhile (fun la => exitTable mm (pdx la)) (fun la _ => add32 la ptSize)
        (fun la _ => la ≠ 0 ∧ la < stop) (roundDown start ptSize) p
        (p.exitRange mm start stop)) ∧
    ((∀ p', p.unmapRange mm start stop = .ok p' →
        p'.table = p.table ∧
        (∀ shmem page, p'.pte (.shared shmem page) = p.pte (.shared shmem page)) ∧
        (∀ mm' page, p'.lookup mm' page =
          if mm' = mm ∧ start ≤ page * pgSize ∧ page * pgSize < stop then .zero
          else p.lookup mm' page) ∧
        (∀ f, (p'.page f).ref =
          (p.page f).ref - p.mappings mm (start / pgSize) ((stop - start) / pgSize) f) ∧
        ∀ e, Dropped (p.memMap e) (p'.memMap e)
          (p.swappings mm (start / pgSize) ((stop - start) / pgSize) e)) ∧
      (p.Removable mm (start / pgSize) ((stop - start) / pgSize) →
        ∃ p', p.unmapRange mm start stop = .ok p')) ∧
    ((∀ p', p.copyRange target source start stop share = .ok (0, p') →
        (∀ page, start ≤ page * pgSize → page * pgSize < stop → p.lookup target page = .zero) →
        (∀ mm i, p'.table mm i = p.table mm i ∨ mm = target ∧ p.table mm i = none ∧
          i * ptSize < stop ∧ start < (i + 1) * ptSize) ∧
        (∀ shmem page, p'.pte (.shared shmem page) = p.pte (.shared shmem page)) ∧
        (∀ mm page, p'.lookup mm page =
          if mm = target ∧ start ≤ page * pgSize ∧ page * pgSize < stop then
            (p.lookup source page).copied share
          else if mm = source ∧ start ≤ page * pgSize ∧ page * pgSize < stop then
            (p.lookup source page).kept share
          else p.lookup mm page) ∧
        (∀ f, p.free f = false → p'.free f = false ∧ (p'.page f).ref =
          (p.page f).ref + p.mappings source (start / pgSize) ((stop - start) / pgSize) f) ∧
        ∀ e, p'.memMap e =
          p.memMap e + p.swappings source (start / pgSize) ((stop - start) / pgSize) e) ∧
      (p.Copyable target source (start / pgSize) ((stop - start) / pgSize) →
        ∃ ret p', p.copyRange target source start stop share = .ok (ret, p'))) ∧
    (∀ p', p.exitRange mm start stop = .ok p' →
        (∀ mm' i, p'.table mm' i =
          if mm' = mm ∧ i * ptSize < stop ∧ start < (i + 1) * ptSize then none
          else p.table mm' i) ∧
        (∀ shmem page, p'.pte (.shared shmem page) = p.pte (.shared shmem page)) ∧
        (∀ mm' page, p'.lookup mm' page =
          if mm' = mm ∧ page / 1024 * ptSize < stop ∧ start < (page / 1024 + 1) * ptSize then .zero
          else p.lookup mm' page) ∧
        ∀ f, p'.free f = true ↔ p.free f = true ∨
          ∃ i, i * ptSize < stop ∧ start < (i + 1) * ptSize ∧ p.table mm i = some f) ∧
      (p.Exitable mm (start / ptSize) (tablesUpTo start stop) →
        ∃ p', p.exitRange mm start stop = .ok p') := by
  have pages : ∀ page, (start / pgSize ≤ page ∧ page < start / pgSize + (stop - start) / pgSize) ↔
      start ≤ page * pgSize ∧ page * pgSize < stop := fun page => page_inside_iff ok
  have tables : ∀ i, (start / ptSize ≤ i ∧ i < start / ptSize + tablesUpTo start stop) ↔
      i * ptSize < stop ∧ start < (i + 1) * ptSize := fun i => table_inside_iff ok
  refine ⟨⟨unmapRange_ends ok p mm, copyRange_ends ok p target source share,
      exitRange_ends ok p mm⟩,
    ⟨fun p' done => ?_, unmapRange_succeeds ok⟩, ⟨fun p' done empty => ?_, fun copyable => ?_⟩,
    fun p' done => ?_, exitRange_succeeds ok⟩
  · have unmapped := unmapRange_unmapped ok done
    refine ⟨unmapped.table, unmapped.shared, fun mm' page => ?_, unmapped.ref, unmapped.memMap⟩
    simp only [unmapped.lookup, pages]
  · have copied := copyRange_copied ok empty done
    refine ⟨fun mm i => ?_, copied.shared, fun mm page => ?_, copied.frames, copied.memMap⟩
    · refine (copied.table mm i).imp_right fun ⟨own, missing, page, low, high, index⟩ => ?_
      obtain ⟨low, high⟩ := (pages page).mp ⟨low, high⟩
      refine ⟨own, missing, ?_⟩
      unfold ptSize pgSize at *
      omega
    · simp only [copied.lookup, pages]
  · rcases copyRange_succeeds share ok copyable with ⟨⟨ret, p'⟩, done⟩
    exact ⟨ret, p', done⟩
  · have exited := exitRange_exited ok done
    refine ⟨fun mm' i => ?_, exited.shared, fun mm' page => ?_, fun f => ?_⟩
    · simp only [exited.table, tables]
    · simp only [exited.lookup, tables]
    · rw [exited.free]
      simp only [← and_assoc, tables]

/-- The last page of the first 4 MB is mapped to frame 9, and behind it there is no page table. -/
def onePage : Pages :=
  { oneIdle with
    page := fun f => { oneIdle.page f with ref := if f = 9 then 1 else 0 }
    free := fun f => oneIdle.free f && f != 9 && f != 5
    table := fun mm i => if mm = 1 ∧ i = 0 then some 5 else none
    pte := fun slot => if slot = .user 1 1023 then .present 9 ⟨true, true, true, false⟩ else .zero
    grants := [some 6] }

theorem onePage_lookup (page : Nat) : onePage.lookup 1 page =
    if page = 1023 then .present 9 ⟨true, true, true, false⟩ else .zero := by
  by_cases own : page = 1023
  · subst own
    rfl
  · have other : onePage.pte (.user 1 page) = .zero := if_neg fun same => own (Slot.user.inj same).2
    rw [if_neg own, lookup, other, ite_self]

theorem onePage_swappings (a n : Nat) (e : SwapEntry) : onePage.swappings 1 a n e = 0 := by
  refine List.countP_eq_zero.mpr fun page _ => ?_
  rw [onePage_lookup]
  split
  · simp [Pte.entry]
  · simp [Pte.entry]

theorem onePage_removable (a n : Nat) : onePage.Removable 1 a n := by
  refine ⟨oneIdle_lists.congr rfl rfl rfl (fun _ => rfl) fun f isCached => ?_, ?_, ?_, fun e => ?_⟩
  · obtain ⟨taken, unreserved⟩ := oneIdle_lists.held f isCached
    exact ⟨rfl, rfl, by simp [onePage, taken], unreserved⟩
  · intro page _ _ f held
    rw [onePage_lookup] at held
    split at held
    · cases held
      exact ⟨by decide, by decide⟩
    · cases held
  · intro page _ _ e held
    rw [onePage_lookup] at held
    split at held
    · cases held
    · cases held
  · rw [onePage_swappings]
    exact Nat.zero_le _

theorem onePage_copyable (a n : Nat) : onePage.Copyable 2 1 a n := by
  refine ⟨fun page _ _ => rfl, (onePage_removable a n).slots, fun e some => ?_⟩
  rw [onePage_swappings] at some
  exact absurd some (Nat.lt_irrefl 0)

theorem onePage_exitable (a n : Nat) : onePage.Exitable 1 a n := by
  have only : ∀ i f, onePage.table 1 i = some f → i = 0 ∧ f = 5 := by
    intro i f there
    change (if 1 = 1 ∧ i = 0 then some 5 else none) = some f at there
    split at there
    · rename_i own
      cases there
      exact ⟨own.2, rfl⟩
    · cases there
  constructor
  · intro i _ _ f there
    obtain ⟨_, rfl⟩ := only i f there
    exact ⟨by decide, by decide⟩
  · intro i j _ less _ f there there'
    obtain ⟨rfl, _⟩ := only i f there
    obtain ⟨rfl, _⟩ := only j f there'
    exact Nat.lt_irrefl 0 less

/-- The page is unmapped, copied into an empty page directory and left behind with its page table.
The range goes on where there is no page table. -/
theorem range_walks_exact_one :
    (∃ p', onePage.unmapRange 1 0x3ff000 0x401000 = .ok p' ∧ p'.lookup 1 1023 = .zero ∧
      (p'.page 9).ref = 0) ∧
    (∃ p', onePage.copyRange 2 1 0x3ff000 0x401000 false = .ok (0, p') ∧
      (p'.lookup 2 1023).frame = some 9 ∧ p'.lookup 2 1024 = .zero ∧ (p'.page 9).ref = 2) ∧
    ∃ p', onePage.exitRange 1 0x200000 0x401000 = .ok p' ∧ p'.table 1 0 = none ∧
      p'.free 5 = true := by
  have count : onePage.mappings 1 1023 2 9 = 1 := by
    simp only [mappings, onePage_lookup]
    decide
  obtain ⟨_, ⟨unmaps, unmapSucceeds⟩, ⟨copies, copySucceeds⟩, _⟩ :=
    range_walks_exact onePage 1 2 1 0x3ff000 0x401000 false (by decide)
  obtain ⟨_, _, _, exits, exitSucceeds⟩ :=
    range_walks_exact onePage 1 2 1 0x200000 0x401000 false (by decide)
  refine ⟨?_, ?_, ?_⟩
  · rcases unmapSucceeds (onePage_removable _ _) with ⟨p', done⟩
    obtain ⟨_, _, lookup, ref, _⟩ := unmaps p' done
    refine ⟨p', done, (lookup 1 1023).trans (if_pos (by decide)), (ref 9).trans ?_⟩
    change (onePage.page 9).ref - onePage.mappings 1 1023 2 9 = 0
    rw [count]
    rfl
  · rcases copySucceeds (onePage_copyable _ _) with ⟨ret, p', done⟩
    have zero : (onePage.copyRange 2 1 0x3ff000 0x401000 false).map Prod.fst = .ok 0 := by
      decide +kernel
    rw [done] at zero
    cases zero
    obtain ⟨_, _, lookup, frames, _⟩ := copies p' done fun _ _ _ => rfl
    refine ⟨p', done, ?_, ?_, ((frames 9 rfl).2).trans ?_⟩
    · rw [lookup 2 1023, if_pos (by decide), onePage_lookup]
      rfl
    · rw [lookup 2 1024, if_pos (by decide), onePage_lookup]
      rfl
    · change (onePage.page 9).ref + onePage.mappings 1 1023 2 9 = 2
      rw [count]
      rfl
  · rcases exitSucceeds (onePage_exitable _ _) with ⟨p', done⟩
    obtain ⟨table, _, _, free⟩ := exits p' done
    exact ⟨p', done, (table 1 0).trans (if_pos (by decide)),
      (free 5).mpr (.inr ⟨0, by decide, by decide, rfl⟩)⟩

end EdfKernel.Mm.Pages
