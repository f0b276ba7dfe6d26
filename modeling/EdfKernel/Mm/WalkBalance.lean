import EdfKernel.Mm.TableBalance

/-!
# The walks over address spaces keep the balance

`unmap_range`, `exit_range` and `copy_range` give up and take references page by page, and a page
directory holds its frame from `setup_pgdir` to `put_pgdir`.
-/

namespace EdfKernel.Mm

open Library

/-- An address space begins or ends. -/
def Live.setMm (live : Live) (mm : MmPtr) (exists_ : Bool) : Live :=
  { live with mm := Function.update live.mm mm exists_ }

namespace Pages

variable {p q : Pages} {live : Live} {hand : Multiset Use} {f : Frame} {mm target source : MmPtr}
  {la start stop fuel : Nat} {share : Bool}

namespace Balanced

/-! ## unmap_range -/

theorem unmapLoop (balanced : p.Balanced live hand) (has : live.mm mm = true) :
    Meets Panic.Misuse (fun q => q.Balanced live hand) (unmapLoop mm stop fuel la p) := by
  induction fuel generalizing la p with
  | zero => exact balanced
  | succ fuel ih =>
      have removed : Meets Panic.Misuse (fun q => q.Balanced live hand)
          (if (p.table mm (pdx la)).isSome = true ∧ p.pte (userSlot mm la) ≠ .zero then
            p.pageRemovePte mm la else .ok p) := by
        split
        · exact balanced.removePte has
        · exact balanced
      refine removed.bind fun q after => ?_
      split
      · exact ih after
      · exact after

theorem unmapRange (balanced : p.Balanced live hand) (has : live.mm mm = true) :
    Meets Panic.Misuse (fun q => q.Balanced live hand) (p.unmapRange mm start stop) := by
  unfold Pages.unmapRange
  split
  · exact balanced.unmapLoop has
  · simp [Panic.Misuse]

/-! ## exit_range -/

/-- A page table without entries is freed. -/
theorem removeTable (balanced : p.Balanced live hand) (has : live.mm mm = true)
    (empty : ∀ page, p.pte (.user mm page) = .zero) {index : Nat}
    (there : p.table mm index = some f) :
    p.freePage f = .ok (p.vacate f) ∧
      Balanced { p.vacate f with
        table := Function.update p.table mm (Function.update (p.table mm) index none)
        pte := p.clearTable mm index } live hand := by
  have cleared : p.clearTable mm index = p.pte := by
    funext slot
    cases slot with
    | user mm' page =>
        rw [clearTable]
        split
        · rename_i own
          rw [own.1, empty]
        · rfl
    | shared shmem page => rfl
  obtain ⟨backed, noded⟩ := balanced.covered
  rw [cleared]
  have removed := @uninstall p { p with
    table := Function.update p.table mm (Function.update (p.table mm) index none) } live hand f live
    0 (.whole f) balanced (.table mm index)
  refine removed ?_ ?_ (.inr rfl) rfl rfl rfl ⟨fun mm' page present => ?_, fun shmem isLive => ?_⟩ rfl
  · funext holder
    by_cases own : holder = .table mm index
    · simp [own, holds]
    · rw [Function.update_of_ne own]
      cases holder with
      | slot slot => rfl
      | directory mm' => rfl
      | table mm' index' =>
          by_cases same : mm' = mm
          · subst same
            have other : index' ≠ index := fun eq => own (by rw [eq])
            simp [holds, other]
          · simp [holds, same]
      | nodes shmem => rfl
  · simp [holds, has, there]
  · by_cases same : mm' = mm
    · rw [same] at present
      exact absurd (empty page) present
    · have there' := backed mm' page present
      simpa [same] using there'
  · exact (noded shmem isLive).congr rfl rfl fun _ => rfl

/-- The walk over page tables of `exit_range`, for an address space without entries. -/
theorem exitLoop (balanced : p.Balanced live hand) (has : live.mm mm = true)
    (empty : ∀ page, p.pte (.user mm page) = .zero) :
    Meets Panic.Misuse (fun q => q.Balanced live hand ∧ ∀ page, q.pte (.user mm page) = .zero)
      (exitLoop mm stop fuel la p) := by
  induction fuel generalizing la p with
  | zero => exact ⟨balanced, empty⟩
  | succ fuel ih =>
      rw [Pages.exitLoop]
      refine Meets.bind_through (fun q : Pages => q.Balanced live hand ∧
        ∀ page, q.pte (.user mm page) = .zero) ?_ fun q after => ?_
      · split
        · exact ⟨balanced, empty⟩
        · rename_i f there
          obtain ⟨freed, after⟩ := balanced.removeTable has empty there
          refine Meets.of_eq_ok (congrArg (· >>= _) freed) ⟨after, fun page => ?_⟩
          change p.clearTable mm (pdx la) (.user mm page) = .zero
          rw [clearTable, empty page, ite_self]
      · generalize add32 la ptSize = next
        dsimp only
        split
        · exact ih after.1 after.2
        · exact after

theorem exitRange (balanced : p.Balanced live hand) (has : live.mm mm = true)
    (empty : ∀ page, p.pte (.user mm page) = .zero) :
    Meets Panic.Misuse (fun q => q.Balanced live hand ∧ ∀ page, q.pte (.user mm page) = .zero)
      (p.exitRange mm start stop) := by
  unfold Pages.exitRange
  split
  · exact balanced.exitLoop has empty
  · simp [Panic.Misuse]

/-! ## Page directories -/

/-- `setup_pgdir` for an address space that begins. -/
theorem setupPgdir (balanced : p.Balanced live hand) (new : live.mm mm = false) :
    ((p.setupPgdir mm).1 = 0 → (p.setupPgdir mm).2.Balanced (live.setMm mm true) hand) ∧
      ((p.setupPgdir mm).1 ≠ 0 → (p.setupPgdir mm).2.Balanced live hand) := by
  unfold Pages.setupPgdir
  rcases answer : p.allocPage with ⟨newpage, q⟩
  cases newpage with
  | none => exact ⟨by rintro ⟨⟩, fun _ => balanced.withGrants answer⟩
  | some f =>
      have after := balanced.allocPage answer
      obtain ⟨backed, noded⟩ := after.covered
      refine ⟨fun _ => after.install (u := .spare f) (.directory mm) ?_
        (fun s given => given.congr rfl rfl fun _ => ⟨rfl, rfl, rfl, rfl, rfl⟩)
        ⟨fun mm' page present => ?_, fun shmem isLive => ?_⟩ rfl, fun failed => absurd rfl failed⟩
      · funext holder
        cases holder with
        | slot slot =>
            cases slot with
            | user mm' page =>
                by_cases own : mm' = mm
                · simp [holds, Live.has, Live.setMm, own, new, Pte.uses]
                · simp [holds, Live.has, Live.setMm, own]
                  rfl
            | shared shmem page =>
                simp [holds, Live.has, Live.setMm]
                rfl
        | directory mm' =>
            by_cases own : mm' = mm
            · simp [holds, Live.setMm, own, new]
            · simp [holds, Live.setMm, own]
        | table mm' index =>
            by_cases own : mm' = mm
            · simp [holds, Live.setMm, own, new]
            · simp [holds, Live.setMm, own]
        | nodes shmem =>
            simp [holds, Live.setMm]
            rfl
      · by_cases own : mm' = mm
        · simp [own] at present
        · simp only [own, if_false] at present
          simpa [own] using backed mm' page present
      · exact (noded shmem isLive).congr rfl rfl fun _ => rfl

end Balanced

/-- What is held when an address space without entries has ended, its page directory apart: its
page tables are left behind. -/
def left (p : Pages) (live : Live) (mm : MmPtr) : Holder → Multiset Use
  | .table mm' index => if mm' = mm then p.holds live (.table mm' index) else 0
  | _ => 0

theorem holds_ended (has : live.mm mm = true) (empty : ∀ page, p.pte (.user mm page) = .zero) :
    p.holds live = fun holder => Function.update (p.holds (live.setMm mm false)) (.directory mm)
      {.spare (p.pgdir mm)} holder + left p live mm holder := by
  funext holder
  by_cases own : holder = .directory mm
  · simp [own, left, holds, has]
  · rw [Function.update_of_ne own]
    cases holder with
    | slot slot =>
        cases slot with
        | user mm' page =>
            by_cases same : mm' = mm
            · simp [left, holds, Live.has, Live.setMm, same, empty, Pte.uses]
            · simp [left, holds, Live.has, Live.setMm, same]
              rfl
        | shared shmem page =>
            simp [left, holds, Live.has, Live.setMm]
            rfl
    | directory mm' =>
        have same : mm' ≠ mm := fun eq => own (by rw [eq])
        simp [left, holds, Live.setMm, same]
    | table mm' index =>
        by_cases same : mm' = mm
        · simp [left, holds, Live.setMm, same]
        · simp [left, holds, Live.setMm, same]
    | nodes shmem =>
        simp [left, holds, Live.setMm]
        rfl

namespace Balanced

/-- `put_pgdir` for an address space without entries, that ends.  The page tables that are still
there are left behind. -/
theorem putPgdir (balanced : p.Balanced live hand) (has : live.mm mm = true)
    (empty : ∀ page, p.pte (.user mm page) = .zero) :
    Meets Panic.Misuse (fun q =>
        q.Balanced (live.setMm mm false) (hand + tally (left p live mm)) ∧ q.places = p.places)
      (p.putPgdir mm) := by
  have parts := holds_ended has empty
  have sparse : Sparse (p.holds (live.setMm mm false)) := by
    refine balanced.sparse.of_le fun holder zero => ?_
    cases holder with
    | slot slot =>
        cases slot with
        | user mm' page =>
            by_cases same : mm' = mm
            · simp [holds, Live.has, Live.setMm, same]
            · rw [← zero]
              simp [holds, Live.has, Live.setMm, same]
              rfl
        | shared shmem page => exact zero
    | directory mm' =>
        by_cases same : mm' = mm
        · simp [holds, Live.setMm, same]
        · simpa [holds, Live.setMm, same] using zero
    | table mm' index =>
        by_cases same : mm' = mm
        · simp [holds, Live.setMm, same]
        · simpa [holds, Live.setMm, same] using zero
    | nodes shmem => exact zero
  have sparseLeft : Sparse (left p live mm) := by
    refine balanced.sparse.of_le fun holder zero => ?_
    cases holder with
    | table mm' index =>
        rw [left, zero, ite_self]
    | slot slot => rfl
    | directory mm' => rfl
    | nodes shmem => rfl
  have none : p.holds (live.setMm mm false) (.directory mm) = 0 := by
    simp [holds, Live.setMm]
  have change := tally_update sparse (.directory mm) {Use.spare (p.pgdir mm)}
  rw [none, add_zero] at change
  have whole := tally_add (sparse.update (.directory mm) {Use.spare (p.pgdir mm)}) sparseLeft
  rw [← parts, change] at whole
  have accounts := balanced.accounts
  rw [whole, ← add_assoc, ← add_assoc, add_right_comm (hand + _), add_right_comm hand] at accounts
  refine .of_eq_ok accounts.freeSpare.1 ⟨⟨?_, ?_, ?_⟩, rfl⟩
  · exact sparse
  · exact accounts.freeSpare.2
  · have covered : p.Covered (live.setMm mm false) := balanced.covered
    exact covered.of_places rfl

/-! ## copy_range -/

theorem swapDuplicate {e : SwapEntry} (balanced : p.Balanced live hand) :
    Meets Panic.Misuse (fun q => q.Balanced live (hand + {.entry e}) ∧ q.places = p.places ∧
        q.page = p.page) (p.swapDuplicate e) := by
  refine balanced.accounts.swapDuplicate.mono ?_
  rintro _ ⟨accounts, rfl⟩
  refine ⟨balanced.of_places rfl ?_, rfl, rfl⟩
  rwa [add_right_comm]

/-- `page_insert` for a frame that is referred to, in place of an entry or not. -/
theorem insertReferred {perm : Perm} (balanced : p.Balanced live hand) (has : live.mm mm = true)
    (low : la < 2 ^ 32) (refers : p.Refers live f) :
    Meets Panic.Misuse (fun result => result.2.Balanced live hand ∧
        (∀ old, p.pte (userSlot mm la) = .present f old → result.2.Refers live f))
      (p.pageInsert mm f la perm) := by
  have given : p.Balanced live (hand + 0) := by rwa [add_zero]
  refine (given.pageInsert has low (.inr ⟨rfl, refers⟩)).mono ?_
  rintro ⟨ret, r⟩ ⟨mapped, failed, _⟩
  dsimp only at mapped failed ⊢
  by_cases zero : ret = 0
  · obtain ⟨after, isEntry⟩ := mapped zero
    exact ⟨after, fun _ _ => .inr ⟨userSlot mm la, perm, has, isEntry⟩⟩
  · obtain ⟨after, same⟩ := failed zero
    rw [add_zero] at after
    refine ⟨after, fun old isEntry => .inr ⟨userSlot mm la, old, has, ?_⟩⟩
    rw [same]
    exact isEntry

theorem copyPte (balanced : p.Balanced live hand) (has : live.mm target = true)
    (hasSource : live.mm source = true) (low : la < 2 ^ 32) :
    Meets Panic.Misuse (fun result => result.2.Balanced live hand)
      (p.copyPte target source la share) := by
  unfold Pages.copyPte
  have gets := @getPte p live hand target la balanced has true
  have table := @getPte_table p target la true
  rcases answer : p.getPte target la true with ⟨found, q⟩
  rw [answer] at gets table
  obtain ⟨after, _, _⟩ := gets
  dsimp only at after
  cases found with
  | false => exact after
  | true =>
      dsimp only
      split
      · simp [Panic.Misuse]
      · rename_i taken
        split
        · simp [Panic.Misuse]
        · rename_i f perm isFrame
          have refers : q.Refers live f := .inr ⟨userSlot source la, perm, hasSource, isFrame⟩
          refine Meets.bind_through (fun result : Perm × Pages =>
            result.2.Balanced live hand ∧ result.2.Refers live f) ?_ ?_
          · split
            · refine (after.insertReferred hasSource low refers).bind ?_
              rintro ⟨_, r⟩ ⟨inserted, still⟩
              exact ⟨inserted, still perm isFrame⟩
            · exact ⟨after, refers⟩
          · rintro ⟨perm', r⟩ ⟨before, refers'⟩
            refine (before.insertReferred has low refers').bind ?_
            rintro ⟨ret, r'⟩ ⟨inserted, _⟩
            dsimp only
            split
            · exact inserted
            · simp [Panic.Misuse]
        · rename_i e isEntry
          refine after.swapDuplicate.bind ?_
          rintro r ⟨before, places, _⟩
          have covers : r.Covers (userSlot target la) := by
            have there := table rfl
            rw [pdx_eq low] at there
            rw [userSlot, Covers, table_of_tables (congrArg Prod.fst places)]
            exact there
          have written : (r.writePte (userSlot target la) (.swapped e)).Balanced live
              (hand + (r.pte (userSlot target la)).uses) := before.writePte has fun _ => covers
          rw [pte_of_tables (congrArg Prod.fst places), not_not.mp taken, Pte.uses, add_zero]
            at written
          exact written

theorem copyLoop (balanced : p.Balanced live hand) (has : live.mm target = true)
    (hasSource : live.mm source = true) (inside : la < stop) (low : stop ≤ 2 ^ 32) :
    Meets Panic.Misuse (fun result => result.2.Balanced live hand)
      (copyLoop target source share stop fuel la p) := by
  induction fuel generalizing la p with
  | zero => exact balanced
  | succ fuel ih =>
      rw [Pages.copyLoop]
      refine Meets.bind_through (fun result : Int × Pages => result.2.Balanced live hand) ?_ ?_
      · split
        · exact balanced.copyPte has hasSource (by omega)
        · exact balanced
      · rintro ⟨ret, q⟩ after
        dsimp only
        split
        · exact after
        · split
          · rename_i further
            exact ih after further.2
          · exact after

theorem copyRange (balanced : p.Balanced live hand) (has : live.mm target = true)
    (hasSource : live.mm source = true) :
    Meets Panic.Misuse (fun result => result.2.Balanced live hand)
      (p.copyRange target source start stop share) := by
  unfold Pages.copyRange
  split
  · rename_i ok
    obtain ⟨_, _, _, inside, low⟩ := rangeOk_spec ok
    exact balanced.copyLoop has hasSource inside (Nat.le_trans low (by decide))
  · simp [Panic.Misuse]

end Balanced

end Pages

end EdfKernel.Mm
