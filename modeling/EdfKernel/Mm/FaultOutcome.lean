import EdfKernel.Mm.Tables
import EdfKernel.Mm.UserAccess

/-!
# What the result of the fault handler says

`do_pgfault` returns 0 when the page is mapped with the permission that the access needs, and an
error when it has changed nothing, with one exception: after a page has been read back from swap
the variable of the result is 0, and a copy that cannot be made leaves it so.
-/

namespace EdfKernel.Mm

open Library

namespace Pages

variable {p p' q : Pages} {mm : MmPtr} {la : Nat} {f : Frame} {perm : Perm}

/-! ## The free frames -/

theorem allocPage_free_of_none (answer : p.allocPage = (none, q)) : q.free = p.free := by
  unfold allocPage at answer
  split at answer
  · split at answer
    · cases answer
    · cases answer
      rfl
  · cases answer
    rfl
  · cases answer
    rfl

theorem allocPage_free_of_some (answer : p.allocPage = (some f, q)) :
    p.free f = true ∧ q.free = Function.update p.free f false := by
  unfold allocPage at answer
  split at answer
  · split at answer
    · rename_i isFree
      cases answer
      exact ⟨isFree, rfl⟩
    · cases answer
  · cases answer
  · cases answer

/-- A frame that is allocated and freed is as it was. -/
theorem free_of_alloc_of_free {free : Frame → Bool} (isFree : free f = true) :
    Function.update (Function.update free f false) f true = free := by
  rw [Function.update_idem, ← isFree, Function.update_eq_self]

theorem transfer_free (p : Pages) : p.transfer.2.free = p.free := by
  unfold transfer
  split <;> rfl

theorem swapfsRead_free {entry : SwapEntry} {result : Bool × Pages}
    (done : p.swapfsRead entry f = .ok result) : result.2.free = p.free := by
  obtain ⟨offset, _, rest⟩ := bind_eq_ok_iff.mp done
  have same := p.transfer_free
  rcases answer : p.transfer with ⟨failed, q⟩
  rw [answer] at rest same
  cases rest
  cases failed with
  | true => exact same
  | false => exact same

/-- A page that cannot be read back leaves no frame behind. -/
theorem swapInPage_free {entry : SwapEntry} {ret : Int}
    (done : p.swapInPage entry = .ok (ret, f, q)) (failed : ret ≠ 0) : q.free = p.free := by
  obtain ⟨offset, _, rest⟩ := bind_eq_ok_iff.mp done
  split at rest
  · cases rest
    exact absurd rfl failed
  · rcases answer : p.allocPage with ⟨newpage, r⟩
    rw [answer] at rest
    simp only at rest
    split at rest
    · obtain ⟨s, _, rest⟩ := bind_eq_ok_iff.mp rest
      cases rest
      exact absurd rfl failed
    · cases rest
      exact absurd rfl failed
    · cases rest
      exact allocPage_free_of_none answer
    · obtain ⟨⟨isFailed, s⟩, read, rest⟩ := bind_eq_ok_iff.mp rest
      simp only at rest
      split at rest
      · obtain ⟨t, freed, rest⟩ := bind_eq_ok_iff.mp rest
        cases rest
        obtain ⟨isFree, taken⟩ := allocPage_free_of_some answer
        have unread : s.free = r.free := swapfsRead_free read
        rw [freePage_free freed, unread, taken, free_of_alloc_of_free isFree]
      · obtain ⟨_, _, rest⟩ := bind_eq_ok_iff.mp rest
        obtain ⟨_, _, rest⟩ := bind_eq_ok_iff.mp rest
        cases rest
        exact absurd rfl failed

/-! ## Mapping a page -/

/-- Where there is a page table, `page_insert` writes the entry. -/
theorem pageInsert_entry {result : Int × Pages} (table : (p.table mm (pdx la)).isSome = true)
    (done : p.pageInsert mm f la perm = .ok result) :
    result.1 = 0 ∧ result.2.pte (userSlot mm la) = .present f perm := by
  unfold pageInsert getPte at done
  rw [if_pos table] at done
  obtain ⟨r, _, rest⟩ := bind_eq_ok_iff.mp done
  cases rest
  exact ⟨rfl, writePte_pte_self ..⟩

theorem freeSpare_pte {newpage : Option Frame} (freed : p.freeSpare newpage = .ok p') :
    p'.pte = p.pte := by
  cases newpage with
  | none =>
      cases freed
      rfl
  | some f => exact pte_of_tables (freePage_tables freed)

/-- The frames that were free are free again, but for the page table of the address. -/
def Restored (p p' : Pages) (mm : MmPtr) (la : Nat) : Prop :=
  ∀ f, p.free f = true → p'.free f = true ∨ p'.table mm (pdx la) = some f

/-- What the result says: 0 that the access is possible now, an error that nothing has changed. -/
structure Truthful (p p' : Pages) (mm : MmPtr) (la : Nat) (write : Bool) (ret : Int) : Prop where
  success : ret = 0 → ∃ f perm, p'.pte (userSlot mm la) = .present f perm ∧ perm.user = true ∧
    (write = true → perm.write = true)
  failure : ret ≠ 0 → p'.pte (userSlot mm la) = p.pte (userSlot mm la) ∧ p.Restored p' mm la

variable {write : Bool} {ret : Int}

theorem Truthful.of_error (failed : ret ≠ 0)
    (pte : p'.pte (userSlot mm la) = p.pte (userSlot mm la)) (free : p.Restored p' mm la) :
    p.Truthful p' mm la write ret :=
  ⟨fun zero => absurd zero failed, fun _ => ⟨pte, free⟩⟩

theorem Truthful.of_present (entry : p'.pte (userSlot mm la) = .present f perm)
    (user : perm.user = true) (writable : write = true → perm.write = true) :
    p.Truthful p' mm la write 0 :=
  ⟨fun _ => ⟨f, perm, entry, user, writable⟩, fun failed => absurd rfl failed⟩

/-- `get_pte` leaves the entry, and takes at most a frame for the page table. -/
theorem getPte_restored (backed : p.Backed) (low : la < 2 ^ 32) :
    (p.getPte mm la true).2.pte (userSlot mm la) = p.pte (userSlot mm la) ∧
      p.Restored (p.getPte mm la true).2 mm la := by
  have same := p.allocPage_tables
  unfold getPte
  split
  · exact ⟨rfl, fun f isFree => .inl isFree⟩
  · rename_i missing
    rw [if_pos rfl]
    have zero : p.pte (userSlot mm la) = .zero := by
      by_contra present
      rw [pdx_eq low] at missing
      exact missing (backed mm (la / pgSize) present)
    split
    · rename_i q answer
      rw [answer] at same
      refine ⟨by rw [pte_of_tables same], fun f isFree => .inl ?_⟩
      rw [allocPage_free_of_none answer]
      exact isFree
    · rename_i t q answer
      obtain ⟨_, taken⟩ := allocPage_free_of_some answer
      refine ⟨?_, fun f isFree => ?_⟩
      · change q.clearTable mm (pdx la) (.user mm (la / pgSize)) = _
        rw [clearTable, pdx_eq low, if_pos ⟨rfl, rfl⟩, zero]
      · change q.free f = true ∨ Function.update q.table mm _ mm (pdx la) = some f
        rw [Function.update_self, Function.update_self, taken]
        by_cases isTable : f = t
        · exact .inr (by rw [isTable])
        · rw [Function.update_of_ne isTable]
          exact .inl isFree

/-- The page of an entry in swap is read back, and a copy that is needed cannot be allocated. -/
def CopyMissing (p : Pages) (mm : MmPtr) (la : Nat) : Prop :=
  ∃ entry, p.pte (userSlot mm la) = .swapped entry ∧ p.allocPage.1 = none ∧
    ∃ f q, p.allocPage.2.swapInPage entry = .ok (0, f, q) ∧
      ∃ count, q.swapPageCount f = .ok count ∧ (q.page f).ref + count > 1

/-- There is a page table where there is an entry. -/
theorem getPte_of_nonzero (backed : p.Backed) (low : la < 2 ^ 32)
    (nonzero : p.pte (userSlot mm la) ≠ .zero) : p.getPte mm la true = (true, p) := by
  unfold getPte
  refine if_pos ?_
  rw [pdx_eq low]
  exact backed mm (la / pgSize) nonzero

theorem CopyMissing.nonzero (missing : p.CopyMissing mm la) : p.pte (userSlot mm la) ≠ .zero := by
  obtain ⟨entry, swapped, _⟩ := missing
  rw [swapped]
  rintro ⟨⟩

/-- A first touch: a page is allocated and mapped, or nothing changes. -/
theorem pgfaultAlloc_truthful {result : Int × Pages}
    (table : (p.table mm (pdx la)).isSome = true) (user : perm.user = true)
    (writable : write = true → perm.write = true)
    (done : p.pgfaultAlloc mm la perm = .ok result) :
    (result.1 ≠ 0 ∧ result.2.pte = p.pte ∧ result.2.table = p.table ∧ result.2.free = p.free) ∨
      (result.1 = 0 ∧ p.Truthful result.2 mm la write 0) := by
  obtain ⟨⟨page, q⟩, allocated, rest⟩ := bind_eq_ok_iff.mp done
  cases rest
  have same := p.allocPage_tables
  unfold pgdirAllocPage at allocated
  split at allocated
  · rename_i r answer
    rw [answer] at same
    cases allocated
    refine .inl ⟨?_, pte_of_tables same, table_of_tables same, allocPage_free_of_none answer⟩
    simp [eNoMem]
  · rename_i f r answer
    rw [answer] at same
    have there : (r.table mm (pdx la)).isSome = true := by
      rw [table_of_tables same]
      exact table
    obtain ⟨⟨ret, t⟩, inserted, rest⟩ := bind_eq_ok_iff.mp allocated
    obtain ⟨zero, entry⟩ := pageInsert_entry there inserted
    simp only at zero entry rest
    rw [if_neg (not_not_intro zero)] at rest
    cases rest
    exact .inr ⟨rfl, .of_present entry user writable⟩

/-- The end of the handler maps the page or its copy, unless a copy is needed and missing. -/
theorem pgfaultMap_cases {mayCopy : Bool} {newpage : Option Frame} {ret : Int} {f : Frame}
    {result : Int × Pages} (table : (p.table mm (pdx la)).isSome = true) (user : perm.user = true)
    (writable : write = true → perm.write = true)
    (done : p.pgfaultMap mm la perm f mayCopy newpage ret = .ok result) :
    (result = (ret, p) ∧ mayCopy = true ∧ newpage = none ∧
        ∃ count, p.swapPageCount f = .ok count ∧ (p.page f).ref + count > 1) ∨
      (¬(mayCopy = true ∧ newpage = none ∧
          ∃ count, p.swapPageCount f = .ok count ∧ (p.page f).ref + count > 1) ∧
        ∀ p₀ : Pages, result.1 = 0 ∧ p₀.Truthful result.2 mm la write 0) := by
  obtain ⟨count, counted, rest⟩ := bind_eq_ok_iff.mp done
  split at rest
  · rename_i copies
    split at rest
    · cases rest
      exact .inl ⟨rfl, copies.1, rfl, count, counted, copies.2⟩
    · rename_i new
      obtain ⟨⟨_, r⟩, inserted, rest⟩ := bind_eq_ok_iff.mp rest
      cases rest
      have entry := (@pageInsert_entry { p with data := Function.update p.data new (p.data f) }
        mm la new perm _ table inserted).2
      refine .inr ⟨fun missing => ?_, fun p₀ => ⟨rfl, .of_present entry user writable⟩⟩
      cases missing.2.1
  · rename_i keeps
    obtain ⟨⟨_, r⟩, inserted, rest⟩ := bind_eq_ok_iff.mp rest
    obtain ⟨t, freed, rest⟩ := bind_eq_ok_iff.mp rest
    cases rest
    have entry := (pageInsert_entry table inserted).2
    rw [← freeSpare_pte freed] at entry
    refine .inr ⟨?_, fun p₀ => ⟨rfl, .of_present entry user writable⟩⟩
    rintro ⟨copies, _, count', counted', many⟩
    rw [counted] at counted'
    cases counted'
    exact keeps ⟨copies, many⟩

/-- `p` with the page that the handler has allocated for a copy, if it has one. -/
def Spares (p q : Pages) (newpage : Option Frame) : Prop :=
  q.pte = p.pte ∧ q.table = p.table ∧
    match newpage with
    | none => q.free = p.free
    | some new => p.free new = true ∧ q.free = Function.update p.free new false

variable {cow : Bool} {newpage : Option Frame}

theorem spares_of_alloc (alloc : (if cow then p.allocPage else (none, p)) = (newpage, q)) :
    p.Spares q newpage := by
  have same := p.allocPage_tables
  cases cow with
  | false =>
      cases alloc
      exact ⟨rfl, rfl, rfl⟩
  | true =>
      rw [if_pos rfl] at alloc
      rw [alloc] at same
      refine ⟨pte_of_tables same, table_of_tables same, ?_⟩
      cases newpage with
      | none => exact allocPage_free_of_none alloc
      | some new => exact allocPage_free_of_some alloc

/-- The page for the copy is given back. -/
theorem Spares.freed {r : Pages} (spares : p.Spares q newpage) (same : r.free = q.free)
    (freed : r.freeSpare newpage = .ok p') : p'.free = p.free := by
  obtain ⟨_, _, taken⟩ := spares
  cases newpage with
  | none =>
      cases freed
      rw [same, taken]
  | some new => rw [freePage_free freed, same, taken.2, free_of_alloc_of_free taken.1]

/-- A write to a present page of which there are others: the page is mapped, or its copy, or
nothing changes. -/
theorem pgfaultPresent_truthful {g : Frame} {result : Int × Pages}
    (table : (p.table mm (pdx la)).isSome = true) (user : perm.user = true)
    (writable : write = true → perm.write = true) (spares : p.Spares q newpage)
    (done : q.pgfaultMap mm la perm g cow newpage (-eNoMem) = .ok result) :
    p.Truthful result.2 mm la write result.1 := by
  obtain ⟨samePte, sameTable, taken⟩ := spares
  have there : (q.table mm (pdx la)).isSome = true := by
    rw [sameTable]
    exact table
  obtain ⟨same, _, missing, _⟩ | ⟨_, mapped⟩ := pgfaultMap_cases there user writable done
  · subst missing
    rw [same]
    refine .of_error (by simp [eNoMem]) (by rw [samePte]) fun f isFree => .inl ?_
    rw [taken]
    exact isFree
  · obtain ⟨zero, truthful⟩ := mapped p
    rw [zero]
    exact truthful

/-- An entry in swap: the exception is a copy that is missing. -/
theorem pgfaultSwapped_truthful_iff {entry : SwapEntry} {readOnly : Bool} {result : Int × Pages}
    {r : Pages} {ret : Int} (table : (p.table mm (pdx la)).isSome = true)
    (user : perm.user = true) (writable : write = true → perm.write = true)
    (alloc : (if cow then p.allocPage else (none, p)) = (newpage, q))
    (writeCow : write = true ∧ cow = true ∨ write = false ∧ readOnly = cow)
    (swapped : p.pte (userSlot mm la) = .swapped entry)
    (paged : q.swapInPage entry = .ok (ret, f, r))
    (done : (if ret ≠ 0 then do
        let p ← r.freeSpare newpage
        return (ret, p)
      else r.pgfaultMap mm la perm f (cow && !readOnly) newpage ret) = .ok result)
    (notRead : write = true → readOnly = false) :
    p.Truthful result.2 mm la write result.1 ↔ ¬(write = true ∧ p.CopyMissing mm la) := by
  have spares := spares_of_alloc alloc
  have same := swapInPage_tables paged
  have samePte : r.pte = p.pte := (pte_of_tables same).trans spares.1
  have there : (r.table mm (pdx la)).isSome = true := by
    rw [table_of_tables same, spares.2.1]
    exact table
  -- what the missing copy means when the entry is written
  have missing_iff : write = true ∧ p.CopyMissing mm la ↔ write = true ∧ newpage = none ∧
      ret = 0 ∧ ∃ count, r.swapPageCount f = .ok count ∧ (r.page f).ref + count > 1 := by
    refine and_congr_right fun written => ?_
    have isCow : cow = true := by
      rcases writeCow with ⟨_, isCow⟩ | ⟨read, _⟩
      · exact isCow
      · rw [read] at written
        cases written
    subst isCow
    rw [if_pos rfl] at alloc
    constructor
    · rintro ⟨entry', swapped', none, g, s, paged', many⟩
      rw [swapped] at swapped'
      cases swapped'
      rw [alloc] at none paged'
      rw [paged] at paged'
      cases paged'
      exact ⟨none, rfl, many⟩
    · rintro ⟨none, zero, many⟩
      subst zero
      refine ⟨entry, swapped, ?_, f, r, ?_, many⟩
      · rw [alloc]
        exact none
      · rw [alloc]
        exact paged
  rw [missing_iff]
  split at done
  · rename_i failed
    obtain ⟨t, freed, rest⟩ := bind_eq_ok_iff.mp done
    cases rest
    refine iff_of_true (.of_error failed ?_ fun g isFree => .inl ?_) fun missing =>
      failed missing.2.2.1
    · rw [freeSpare_pte freed, samePte]
    · rw [spares.freed (swapInPage_free paged failed) freed]
      exact isFree
  · rename_i succeeded
    have zero : ret = 0 := not_ne_iff.mp succeeded
    obtain ⟨same, mayCopy, noPage, many⟩ | ⟨notMissing, mapped⟩ :=
      pgfaultMap_cases there user writable done
    · rw [same]
      have written : write = true := by
        rcases writeCow with ⟨written, _⟩ | ⟨_, keeps⟩
        · exact written
        · rw [keeps, Bool.and_not_self] at mayCopy
          cases mayCopy
      refine iff_of_false (fun truthful => ?_) (not_not_intro ⟨written, noPage, zero, many⟩)
      obtain ⟨g, permG, entry', _⟩ := truthful.success zero
      rw [samePte, swapped] at entry'
      cases entry'
    · obtain ⟨isZero, truthful⟩ := mapped p
      rw [isZero]
      refine iff_of_true truthful fun ⟨written, noPage, _, many⟩ => notMissing ⟨?_, noPage, many⟩
      rcases writeCow with ⟨_, isCow⟩ | ⟨read, _⟩
      · rw [isCow, notRead written]
        rfl
      · rw [read] at written
        cases written

/-- The handler at an entry that is not zero. -/
theorem pgfaultEntry_truthful_iff {result : Int × Pages}
    (table : (p.table mm (pdx la)).isSome = true) (user : perm.user = true)
    (writable : write = true → perm.write = true) (writeCow : write = true → cow = true)
    (nonzero : p.pte (userSlot mm la) ≠ .zero)
    (done : p.pgfaultEntry mm la perm cow write = .ok result) :
    p.Truthful result.2 mm la write result.1 ↔ ¬(write = true ∧ p.CopyMissing mm la) := by
  unfold pgfaultEntry at done
  simp only at done
  split at done
  · rcases alloc : (if cow = true then p.allocPage else (none, p)) with ⟨newpage, q⟩
    have spares := spares_of_alloc alloc
    rw [alloc] at done
    simp only at done
    obtain ⟨⟨ret, f, r⟩, paged, rest⟩ := bind_eq_ok_iff.mp done
    unfold pgfaultPage at paged
    rw [spares.1] at paged
    simp only at rest
    cases entry : p.pte (userSlot mm la) with
    | zero => exact absurd entry nonzero
    | present g permG =>
        rw [entry] at paged rest
        cases paged
        simp only [Pte.isPresent, Bool.true_eq_false, false_and, if_false, decide_false,
          Bool.not_false, Bool.and_true] at rest
        refine iff_of_true (pgfaultPresent_truthful table user writable spares rest) ?_
        rintro ⟨_, e, swapped, _⟩
        rw [entry] at swapped
        cases swapped
    | swapped e =>
        rw [entry] at paged rest
        simp only [Pte.isPresent, true_and] at rest
        cases written : write with
        | true =>
            subst written
            simp only [Bool.true_eq_false, false_and, if_false, decide_false] at rest
            exact pgfaultSwapped_truthful_iff table user writable alloc (.inl ⟨rfl, writeCow rfl⟩)
              entry paged rest fun _ => rfl
        | false =>
            subst written
            cases cow with
            | true =>
                simp only [true_and, if_true, decide_true] at rest
                exact pgfaultSwapped_truthful_iff table (by exact user) (by intro h; cases h) alloc
                  (.inr ⟨rfl, rfl⟩) entry paged rest (by intro h; cases h)
            | false =>
                simp only [Bool.false_eq_true, and_false, if_false, decide_false] at rest
                exact pgfaultSwapped_truthful_iff table user (by intro h; cases h) alloc
                  (.inr ⟨rfl, rfl⟩) entry paged rest (by intro h; cases h)
  · cases done

end Pages

namespace Vm

theorem findVma_vma (vm : Vm) (mm : MmPtr) (addr : Nat) : (vm.findVma mm addr).2.vma = vm.vma := by
  unfold findVma
  simp only
  split <;> rfl

end Vm

namespace VmaStruct

/-- A private area that can be written is copied on write. -/
theorem cow_of_writable {s : VmaStruct} (unshared : has s.vmFlags vmShare = false)
    (writable : has s.vmFlags vmWrite = true) : s.cow = true := by
  have noShare : s.vmFlags &&& vmShare = 0 := by simpa [has] using unshared
  have single : s.vmFlags &&& vmWrite = vmWrite := by
    have bit : s.vmFlags &&& vmWrite = if s.vmFlags.getLsbD 1 then vmWrite else 0 :=
      BitVec.and_twoPow s.vmFlags 1
    rw [bit]
    refine if_pos ?_
    by_contra clear
    rw [has, bit, if_neg clear] at writable
    simp at writable
  have both : s.vmFlags &&& (vmShare ||| vmWrite) = vmWrite := by
    rw [BitVec.and_or_distrib_left, noShare, single]
    rfl
  rw [cow, both]
  exact beq_self_eq_true _

end VmaStruct

namespace Memory

variable {m m' : Memory} {mm : MmPtr} {errorCode : BitVec 32} {addr la : Nat} {ret : Int}

/-- An access that the permission tests of `do_pgfault` let through. -/
def Admitted (m : Memory) (mm : MmPtr) (errorCode : BitVec 32) (addr : Nat) : Prop :=
  ∃ v ∈ (m.vm.findVma mm addr).1, (m.vm.vma v).admits errorCode addr = true

/-- The handler after its permission tests. -/
theorem pgfaultResolve_truthful_iff {s : VmaStruct} {result : Int × Pages}
    (backed : m.pages.Backed) (low : la < 2 ^ 32) (unshared : has s.vmFlags vmShare = false)
    (permits : s.permits errorCode = true)
    (done : m.pgfaultResolve mm errorCode la s = .ok result) :
    m.pages.Truthful result.2 mm la (errorCode &&& 2 != 0) result.1 ↔
      ¬((errorCode &&& 2 != 0) = true ∧ m.pages.CopyMissing mm la) := by
  have writable : (errorCode &&& 2 != 0) = true → has s.vmFlags vmWrite = true := fun write => by
    rw [← permits_write (bne_iff_ne.mp write)]
    exact permits
  have restored := @Pages.getPte_restored m.pages mm la backed low
  have tabled := @Pages.getPte_table m.pages mm la true
  have reached := @Pages.getPte_of_nonzero m.pages mm la backed low
  unfold pgfaultResolve at done
  simp only at done
  split at done
  · rename_i q answer
    rw [answer] at restored reached
    cases done
    refine iff_of_true (.of_error (by simp [eNoMem]) restored.1 restored.2) fun missing => ?_
    cases reached missing.2.nonzero
  · rename_i q answer
    rw [answer] at restored reached tabled
    split at done
    · rename_i zero
      rw [if_neg (by simp [unshared])] at done
      refine iff_of_true ?_ fun missing => missing.2.nonzero (restored.1.symm.trans zero)
      obtain ⟨failed, samePte, sameTable, sameFree⟩ | ⟨isZero, truthful⟩ :=
        Pages.pgfaultAlloc_truthful (tabled rfl) rfl writable done
      · refine .of_error failed (by rw [samePte]; exact restored.1) fun f isFree => ?_
        rw [sameFree, sameTable]
        exact restored.2 f isFree
      · rw [isZero]
        exact ⟨truthful.success, fun failed => absurd rfl failed⟩
    · rename_i nonzero
      rw [restored.1] at nonzero
      cases reached nonzero
      exact Pages.pgfaultEntry_truthful_iff (tabled rfl) rfl writable
        (fun write => VmaStruct.cow_of_writable unshared (writable write)) nonzero done

/-- `do_pgfault` in a private area says what it has done, except for a write whose copy is
missing after the page has been read back. -/
theorem do_pgfault_truthful (backed : m.pages.Backed) (low : addr < 2 ^ 32)
    (unshared : ∀ v ∈ (m.vm.findVma mm addr).1, has (m.vm.vma v).vmFlags vmShare = false)
    (done : m.doPgfault (some mm) errorCode addr = .ok (ret, m')) :
    m.pages.Truthful m'.pages mm (roundDown addr pgSize) (errorCode &&& 2 != 0) ret ↔
      ¬(m.Admitted mm errorCode addr ∧ (errorCode &&& 2 != 0) = true ∧
        m.pages.CopyMissing mm (roundDown addr pgSize)) := by
  have sameVma := m.vm.findVma_vma mm addr
  have denied : ∀ {vm : Vm}, (Except.ok (-eInval, { m with vm := vm }) : Except Panic _) =
      .ok (ret, m') → m.pages.Truthful m'.pages mm (roundDown addr pgSize)
        (errorCode &&& 2 != 0) ret := by
    intro vm same
    cases same
    exact .of_error (by simp [eInval]) rfl fun f isFree => .inl isFree
  unfold Admitted
  unfold doPgfault at done
  rcases answer : m.vm.findVma mm addr with ⟨found, vm⟩
  rw [answer] at sameVma unshared
  simp only [answer] at done ⊢
  simp only at sameVma unshared
  cases found with
  | none =>
      refine iff_of_true (denied done) ?_
      rintro ⟨⟨v, ⟨⟩, _⟩, _⟩
  | some v =>
      simp only [sameVma] at done
      simp only [Option.mem_def, Option.some.injEq, exists_eq_left', VmaStruct.admits,
        Bool.and_eq_true, decide_eq_true_eq, Bool.not_eq_true']
      split at done
      · rename_i below
        exact iff_of_true (denied done) fun bad => absurd bad.1.1.1 (Nat.not_le.mpr below)
      · rename_i starts
        split at done
        · rename_i guarded
          refine iff_of_true (denied done) fun bad => ?_
          rw [guarded] at bad
          cases bad.1.1.2
        · rename_i unguarded
          split at done
          · rename_i permits
            obtain ⟨⟨ret', pages⟩, resolved, rest⟩ := bind_eq_ok_iff.mp done
            cases rest
            have low' : roundDown addr pgSize < 2 ^ 32 :=
              lt_of_le_of_lt (Nat.sub_le _ _) low
            have exact_iff := @pgfaultResolve_truthful_iff { m with vm := vm } mm errorCode _ _ _
              backed low' (unshared v rfl) permits resolved
            exact exact_iff.trans (not_congr (and_iff_right
              ⟨⟨Nat.not_lt.mp starts, eq_false_of_ne_true unguarded⟩, permits⟩).symm)
          · rename_i forbidden
            exact iff_of_true (denied done) fun bad => forbidden bad.1.2

/-- A private area of which the first page is in swap, with two references to the slot; the page
is still cached in frame 5. -/
def swappedPage (grants : List (Option Frame)) : Memory where
  vm :=
    { vma := fun _ => ⟨0, userBase, userBase + 2 * pgSize, vmRead ||| vmWrite, none, 0⟩
      vmaUsed := fun v => v == 1
      mm := fun _ => ⟨[1], none, none, 1, 0, 1, 0, 0⟩
      mmUsed := fun mm => mm == 0
      shmem := fun _ => ⟨0, 0⟩
      shmemUsed := fun _ => false
      grants := [] }
  pages :=
    { page := fun f => ⟨0, false, false, f == 5, f == 5, 1⟩
      free := fun f => f == 7
      data := fun _ _ => 0
      pgdir := fun _ => 0
      table := fun _ _ => some 6
      pte := fun slot => if slot = .user 0 512 then .swapped 1 else .zero
      shmnList := fun _ => []
      shmnCache := fun _ => none
      memMap := fun entry => if entry = 1 then 2 else swapUnused
      hashList := fun _ => [5]
      activeList := [5]
      inactiveList := []
      nrActive := 1
      nrInactive := 0
      next := 1
      maxSwapOffset := 1024
      disk := fun _ _ => 0
      grants := grants
      io := [] }

theorem swappedPage_backed (grants : List (Option Frame)) : (swappedPage grants).pages.Backed :=
  fun _ _ _ => rfl

theorem swappedPage_unshared (grants : List (Option Frame)) :
    ∀ v ∈ ((swappedPage grants).vm.findVma 0 userBase).1,
      has ((swappedPage grants).vm.vma v).vmFlags vmShare = false := by
  rintro v _
  change has (vmRead ||| vmWrite) vmShare = false
  decide

/-- With a page for the copy, the write gets its page. -/
theorem do_pgfault_truthful_swappedPage : ∃ m',
    (swappedPage [some 7]).doPgfault (some 0) 2 userBase = .ok (0, m') ∧
      (swappedPage [some 7]).pages.Truthful m'.pages 0 userBase true 0 := by
  have done : ∃ m', (swappedPage [some 7]).doPgfault (some 0) 2 userBase = .ok (0, m') :=
    ⟨_, rfl⟩
  obtain ⟨m', done⟩ := done
  refine ⟨m', done, (do_pgfault_truthful (swappedPage_backed _) (by decide)
    (swappedPage_unshared _) done).mpr ?_⟩
  rintro ⟨_, _, _, _, missing, _⟩
  cases missing

/-- Without one, the result is 0 and the page is still in swap. -/
theorem do_pgfault_loses_eNoMem :
    ¬∀ (m m' : Memory) (mm : MmPtr) (errorCode : BitVec 32) (addr : Nat) (ret : Int),
      m.pages.Backed → addr < 2 ^ 32 →
      (∀ v ∈ (m.vm.findVma mm addr).1, has (m.vm.vma v).vmFlags vmShare = false) →
      m.doPgfault (some mm) errorCode addr = .ok (ret, m') →
      m.pages.Truthful m'.pages mm (roundDown addr pgSize) (errorCode &&& 2 != 0) ret := by
  intro truthful
  have done : ∃ m', (swappedPage [none]).doPgfault (some 0) 2 userBase = .ok (0, m') ∧
      m'.pages.pte (.user 0 512) = .swapped 1 := ⟨_, rfl, rfl⟩
  obtain ⟨m', done, entry⟩ := done
  obtain ⟨f, perm, present, _⟩ := (truthful _ m' 0 2 userBase 0 (swappedPage_backed _) (by decide)
    (swappedPage_unshared _) done).success rfl
  change m'.pages.pte (.user 0 512) = .present f perm at present
  rw [entry] at present
  cases present

end Memory

end EdfKernel.Mm
