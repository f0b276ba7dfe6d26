import EdfKernel.Mm.Shmem
import EdfKernel.Mm.WalkBalance

/-!
# The functions on segments keep the balance

A node takes a frame for the entries of a segment, and `shmem_destroy` gives up the entries and the
nodes one after the other.
-/

namespace EdfKernel.Mm

open Library

theorem Shmn.contains_iff {shmn : Shmn} {addr : Nat} (aligned : shmn.start % shmnSize = 0) :
    shmn.contains addr = true ↔ shmn.start / shmnSize = addr / shmnSize := by
  unfold Shmn.contains
  rw [decide_eq_true_eq]
  unfold shmnSize pgSize at *
  omega

/-- A node is put in its place. -/
theorem insertShmnList_perm {shmn : Shmn} {list list' : List Shmn}
    (done : insertShmnList shmn list = some list') : list'.Perm (shmn :: list) := by
  unfold insertShmnList at done
  simp only at done
  split at done
  · cases done
    have parts := List.takeWhile_append_dropWhile
      (p := fun other : Shmn => decide (other.start ≤ shmn.start)) (l := list)
    exact List.perm_middle.trans (by rw [parts])
  · cases done

/-- A segment begins or ends. -/
def Live.setShmem (live : Live) (shmem : ShmemPtr) (there : Bool) : Live :=
  { live with shmem := Function.update live.shmem shmem there }

/-- A segment is about to end. -/
def Live.close (live : Live) (shmem : ShmemPtr) : Live :=
  { live with closing := some shmem }

namespace Pages

variable {p q : Pages} {live : Live} {hand : Multiset Use} {f : Frame} {slot : Slot} {entry : Pte}
  {shmem : ShmemPtr} {shmn : Shmn} {len addr start page : Nat} {mm : MmPtr} {perm : Perm}

/-- The entry of an address is in the node that contains the address. -/
theorem covers_of_contains (aligned : shmn.start % shmnSize = 0) (mem : shmn ∈ p.shmnList shmem)
    (contains : shmn.contains addr = true) : p.Covers (sharedSlot shmem addr) := by
  refine ⟨shmn, mem, ((Shmn.contains_iff aligned).mp contains).trans ?_⟩
  rw [Nat.div_div_eq_div_mul]
  rfl

/-- The cached node changes. -/
theorem Balanced.withCache {cache : Option Shmn} (balanced : p.Balanced live hand)
    (mem : ∀ shmn ∈ cache, shmn ∈ p.shmnList shmem) :
    Balanced { p with shmnCache := Function.update p.shmnCache shmem cache } live hand := by
  obtain ⟨sparse, accounts, backed, noded⟩ := balanced
  refine ⟨sparse, accounts.congr rfl rfl fun _ => ⟨rfl, rfl, rfl, rfl, rfl⟩, backed,
    fun other isLive => ?_⟩
  obtain ⟨aligned, covered, cached⟩ := noded other isLive
  refine ⟨aligned, covered, fun stays shmn isCached => ?_⟩
  by_cases own : other = shmem
  · subst own
    simp only [Function.update_self] at isCached
    exact mem shmn isCached
  · simp only [Function.update_of_ne own] at isCached
    exact cached stays shmn isCached

/-- `find_shmn`. -/
theorem findShmn_spec {found : Option Shmn} (noded : p.Noded live.closing shmem)
    (stays : live.closing ≠ some shmem) (answer : p.findShmn shmem addr = (found, q)) :
    (q = p ∨ q = { p with shmnCache := Function.update p.shmnCache shmem found }) ∧
      (∀ shmn ∈ found, shmn ∈ p.shmnList shmem ∧ shmn.contains addr = true) ∧
      (found = none → ∀ shmn ∈ p.shmnList shmem, shmn.contains addr = false) := by
  unfold findShmn at answer
  simp only at answer
  cases first : ((p.shmnCache shmem).filter (·.contains addr)).or
      ((p.shmnList shmem).find? (·.contains addr)) with
  | none =>
      rw [first] at answer
      cases answer
      rw [Option.or_eq_none_iff, List.find?_eq_none] at first
      exact ⟨.inl rfl, by rintro _ ⟨⟩, fun _ shmn mem => Bool.not_eq_true _ ▸ first.2 shmn mem⟩
  | some shmn =>
      rw [first] at answer
      cases answer
      refine ⟨.inr rfl, ?_, by rintro ⟨⟩⟩
      rintro _ ⟨⟩
      rcases Option.or_eq_some_iff.mp first with cached | ⟨_, listed⟩
      · rw [Option.filter_eq_some_iff] at cached
        exact ⟨noded.cache stays shmn cached.1, cached.2⟩
      · refine ⟨List.mem_of_find?_eq_some listed, ?_⟩
        exact List.find?_some (p := fun shmn : Shmn => shmn.contains addr) listed

/-- What a function on a segment leaves as it is: the entries but one, the pages that are cached
and the page tables. -/
structure SparesSlot (p q : Pages) (slot : Slot) : Prop where
  pte : ∀ other, other ≠ slot → q.pte other = p.pte other
  swap : ∀ f, (p.page f).swap = true → (q.page f).swap = true
  table : q.table = p.table

theorem SparesSlot.trans {r : Pages} (first : p.SparesSlot q slot) (second : q.SparesSlot r slot) :
    p.SparesSlot r slot :=
  ⟨fun other ne => (second.pte other ne).trans (first.pte other ne),
    fun f swap => second.swap f (first.swap f swap), second.table.trans first.table⟩

namespace Balanced

/-! ## Nodes -/

/-- A frame that was set aside becomes a node of a segment. -/
theorem addNode {list : List Shmn} (balanced : p.Balanced live (hand + {.spare shmn.entry}))
    (has : live.shmem shmem = true) (aligned : shmn.start % shmnSize = 0)
    (perm : list.Perm (shmn :: p.shmnList shmem)) :
    Balanced { p with shmnList := Function.update p.shmnList shmem list } live hand := by
  obtain ⟨backed, noded⟩ := balanced.covered
  have mem : ∀ x, x ∈ list ↔ x = shmn ∨ x ∈ p.shmnList shmem := fun x =>
    perm.mem_iff.trans List.mem_cons
  refine balanced.install (u := .spare shmn.entry) (.nodes shmem) ?_
    (fun s given => given.congr rfl rfl fun _ => ⟨rfl, rfl, rfl, rfl, rfl⟩)
    ⟨backed, fun other isLive => ?_⟩ rfl
  · funext holder
    by_cases own : holder = .nodes shmem
    · subst own
      rw [Function.update_self]
      simp only [holds, has, if_true, Function.update_self]
      rw [add_comm, Multiset.singleton_add, Multiset.cons_coe, Multiset.coe_eq_coe]
      exact perm.map fun shmn => Use.spare shmn.entry
    · rw [Function.update_of_ne own]
      cases holder with
      | slot slot => rfl
      | directory mm => rfl
      | table mm index => rfl
      | nodes other =>
          have ne : other ≠ shmem := fun same => own (congrArg Holder.nodes same)
          simp [holds, Function.update_of_ne ne]
  · obtain ⟨aligned', covered, cache⟩ := noded other isLive
    by_cases own : other = shmem
    · subst own
      refine ⟨fun x there => ?_, fun page present => ?_, fun stays x cached => ?_⟩
      · simp only [Function.update_self, mem] at there
        rcases there with rfl | old
        · exact aligned
        · exact aligned' x old
      · obtain ⟨x, old, isNode⟩ := covered page present
        exact ⟨x, by simp only [Function.update_self, mem]; exact .inr old, isNode⟩
      · simp only [Function.update_self, mem]
        exact .inr (cache stays x cached)
    · have same : Function.update p.shmnList shmem list other = p.shmnList other :=
        Function.update_of_ne own ..
      exact (noded other isLive).congr same rfl fun _ => rfl

/-- A node that is made has no entries to clear. -/
theorem shmnCreate_pte (noded : p.Noded live.closing shmem)
    (none : ∀ shmn ∈ p.shmnList shmem, shmn.contains addr = false) {found : Option Shmn}
    (answer : p.shmnCreate shmem (roundDown addr shmnSize) = (found, q)) : q.pte = p.pte := by
  unfold shmnCreate at answer
  have same := pte_of_tables p.allocPage_tables
  rcases alloc : p.allocPage with ⟨newpage, r⟩
  rw [alloc] at answer same
  cases newpage with
  | none =>
      cases answer
      exact same
  | some f =>
      cases answer
      funext slot
      cases slot with
      | user mm page => exact congrFun same _
      | shared other page =>
          dsimp only at same ⊢
          split
          · rename_i own
            by_contra present
            obtain ⟨shmn, mem, isNode⟩ := noded.covered page fun zero =>
              present (by rw [own.1, zero])
            have contains : shmn.contains addr = true := by
              rw [Shmn.contains_iff (noded.aligned shmn mem), isNode, own.2]
              unfold roundDown shmnSize pgSize
              omega
            rw [none shmn mem] at contains
            cases contains
          · rw [same]

/-- The node of an address is found, or made if asked for and there is a frame. -/
theorem shmnAt (balanced : p.Balanced live hand) (has : live.shmem shmem = true)
    (stays : live.closing ≠ some shmem) (create : Bool) :
    Meets Panic.Misuse (fun result => result.2.Balanced live hand ∧ result.2.pte = p.pte ∧
        result.2.page = p.page ∧ result.2.table = p.table ∧
        (result.1 = true → result.2.Covers (sharedSlot shmem addr)))
      (p.shmnAt shmem addr create) := by
  have noded := balanced.covered.2 shmem has
  unfold Pages.shmnAt
  rcases answer : p.findShmn shmem addr with ⟨found, q⟩
  obtain ⟨same, isSome, isNone⟩ := findShmn_spec noded stays answer
  have after : q.Balanced live hand ∧ q.pte = p.pte ∧ q.page = p.page ∧ q.table = p.table ∧
      q.shmnList = p.shmnList := by
    rcases same with rfl | rfl
    · exact ⟨balanced, rfl, rfl, rfl, rfl⟩
    · exact ⟨balanced.withCache fun shmn mem => (isSome shmn mem).1, rfl, rfl, rfl, rfl⟩
  obtain ⟨balanced', pte, page, table, list⟩ := after
  cases found with
  | some shmn =>
      obtain ⟨mem, contains⟩ := isSome shmn rfl
      refine ⟨balanced', pte, page, table, fun _ => ?_⟩
      exact covers_of_contains (noded.aligned shmn mem) (by rw [list]; exact mem) contains
  | none =>
      have noded' := balanced'.covered.2 shmem has
      have none : ∀ shmn ∈ q.shmnList shmem, shmn.contains addr = false := list ▸ isNone rfl
      dsimp only
      split
      · rcases created : q.shmnCreate shmem (roundDown addr shmnSize) with ⟨made, r⟩
        have pte' := shmnCreate_pte noded' none created
        unfold shmnCreate at created
        rcases alloc : q.allocPage with ⟨newpage, r'⟩
        rw [alloc] at created
        cases newpage with
        | none =>
            cases created
            have given := balanced'.withGrants alloc
            obtain ⟨grants, rfl⟩ := allocPage_none alloc
            exact ⟨given, pte, page, table, by rintro ⟨⟩⟩
        | some f =>
            have aside := balanced'.allocPage alloc
            obtain ⟨_, grants, rfl⟩ := allocPage_some alloc
            cases created
            dsimp only at pte' ⊢
            rw [pte']
            have aligned : roundDown addr shmnSize % shmnSize = 0 := by
              unfold roundDown shmnSize pgSize
              omega
            unfold insertShmn
            dsimp only
            split
            · rename_i list' inserted
              have perm := insertShmnList_perm inserted
              have added := @addNode _ _ _ _ ⟨roundDown addr shmnSize, f⟩ _ aside has aligned perm
              refine ⟨added, pte, page, table, fun _ => ?_⟩
              refine @covers_of_contains _ _ ⟨roundDown addr shmnSize, f⟩ _ aligned ?_ ?_
              · simp only [Function.update_self]
                exact perm.mem_iff.mpr List.mem_cons_self
              · rw [Shmn.contains_iff aligned]
                change roundDown addr shmnSize / shmnSize = addr / shmnSize
                unfold roundDown shmnSize pgSize
                omega
            · simp [bind, Except.bind, Panic.Misuse]
      · exact ⟨balanced', pte, page, table, by rintro ⟨⟩⟩

/-! ## Entries -/

theorem sharedSlot_roundDown (shmem : ShmemPtr) (addr : Nat) :
    sharedSlot shmem (roundDown addr pgSize) = sharedSlot shmem addr := by
  unfold sharedSlot roundDown pgSize
  congr 1
  omega

/-- `shmem_get_entry`. -/
theorem shmemGetEntry (balanced : p.Balanced live hand) (has : live.shmem shmem = true)
    (stays : live.closing ≠ some shmem) (create : Bool) :
    Meets Panic.Misuse (fun result => result.2.Balanced live hand ∧
        p.SparesSlot result.2 (sharedSlot shmem addr) ∧
        (result.1 = true → result.2.Covers (sharedSlot shmem addr)))
      (p.shmemGetEntry shmem len addr create) := by
  unfold Pages.shmemGetEntry
  split
  · simp [Panic.Misuse]
  refine (balanced.shmnAt has stays create).bind ?_
  rintro ⟨found, q⟩ ⟨after, pte, page, table, covers⟩
  rw [sharedSlot_roundDown] at covers
  dsimp only at after pte page table covers ⊢
  have same : p.SparesSlot q (sharedSlot shmem addr) :=
    ⟨fun other _ => congrFun pte other, fun f swap => by rw [page]; exact swap, table⟩
  split
  · rename_i fresh
    obtain ⟨isFound, zero, _⟩ := fresh
    rcases alloc : q.allocPage with ⟨newpage, r⟩
    cases newpage with
    | none =>
        have given := after.withGrants alloc
        obtain ⟨grants, rfl⟩ := allocPage_none alloc
        exact ⟨given, same.trans ⟨fun _ _ => rfl, fun _ => id, rfl⟩, fun _ => covers isFound⟩
    | some f =>
        have taken := (after.allocPage alloc).claim (.inl rfl)
        obtain ⟨isFree, grants, rfl⟩ := allocPage_some alloc
        have filled := @writePte _ _ _ (sharedSlot shmem addr)
          (.present f ⟨false, false, false, false⟩) taken has fun _ => covers isFound
        change Pages.Balanced _ live (hand + (q.pte (sharedSlot shmem addr)).uses) at filled
        rw [zero, Pte.uses, add_zero] at filled
        refine ⟨filled, same.trans ⟨fun other ne => ?_, fun g swap => ?_, rfl⟩,
          fun _ => covers isFound⟩
        · exact writePte_pte_of_ne _ _ ne
        · by_cases own : g = f
          · subst own
            have kept := @modify_page_self q g fun s => { s with ref := s.ref + 1 }
            exact (congrArg Page.swap kept).trans swap
          · have kept := q.modify_page_of_ne (fun s => { s with ref := s.ref + 1 }) own
            exact (congrArg Page.swap kept).trans swap
  · exact ⟨after, same, covers⟩

/-- `shmem_insert_entry` of an entry that another place holds. -/
theorem shmemInsertEntry (balanced : p.Balanced live hand) (has : live.shmem shmem = true)
    (stays : live.closing ≠ some shmem)
    (held : ∀ f perm, entry = .present f perm → ∃ other perm', other ≠ sharedSlot shmem addr ∧
      live.has other = true ∧ p.pte other = .present f perm') :
    Meets Panic.Misuse (fun result => result.2.Balanced live hand)
      (p.shmemInsertEntry shmem len addr entry) := by
  unfold Pages.shmemInsertEntry
  refine (balanced.shmemGetEntry has stays true).bind ?_
  rintro ⟨found, q⟩ ⟨after, spares, covers⟩
  dsimp only at after spares covers ⊢
  split
  · exact after
  rename_i isFound
  rw [Bool.not_eq_false] at isFound
  have emptied : Meets Panic.Misuse (fun r => r.Balanced live hand ∧
      r.pte (sharedSlot shmem addr) = .zero ∧ r.Covers (sharedSlot shmem addr) ∧
      ∀ other, other ≠ sharedSlot shmem addr → r.pte other = p.pte other)
      (if q.pte (sharedSlot shmem addr) ≠ .zero then q.shmemRemoveEntryPte shmem addr
        else .ok q) := by
    split
    · have removed : Meets Panic.Misuse (fun r => r.Balanced live hand ∧
          r.tables = (q.writePte (sharedSlot shmem addr) .zero).tables)
          (q.shmemRemoveEntryPte shmem addr) :=
        (@removePte _ _ _ (sharedSlot shmem addr) after has).and_of_ok fun _ => removePte_tables
      refine removed.mono fun r done => ?_
      obtain ⟨balanced', tables⟩ := done
      have pte := pte_of_tables tables
      refine ⟨balanced', ?_, ?_, fun other ne => ?_⟩
      · rw [pte, writePte_pte_self]
      · have list := congrArg (fun t => t.2.2.2) tables
        exact (covers isFound).congr (table_of_tables tables :) (list :)
      · rw [pte, writePte_pte_of_ne _ _ ne]
        exact spares.pte other ne
    · rename_i zero
      exact ⟨after, not_not.mp zero, covers isFound, spares.pte⟩
  refine emptied.bind fun r done => ?_
  obtain ⟨balanced', zero, covers', others⟩ := done
  have fill : ∀ r' : Pages, r'.Balanced live (hand + entry.uses) → r'.tables = r.tables →
      (r'.writePte (sharedSlot shmem addr) entry).Balanced live hand := by
    intro r' given tables
    have pte : r'.pte = r.pte := pte_of_tables tables
    have filled : (r'.writePte (sharedSlot shmem addr) entry).Balanced live
        (hand + (r'.pte (sharedSlot shmem addr)).uses) :=
      given.writePte has fun _ =>
        covers'.congr (table_of_tables tables) (congrArg (fun t => t.2.2.2) tables)
    rwa [pte, zero, Pte.uses, add_zero] at filled
  cases entry with
  | zero => exact fill r (by rwa [Pte.uses, add_zero]) rfl
  | present f perm =>
      obtain ⟨other, perm', ne, hasOther, isEntry⟩ := held f perm rfl
      have given : r.Balanced live (hand + 0) := by rwa [add_zero]
      exact fill (r.pageRefInc f) (given.claim (.inr ⟨rfl, .inr ⟨other, perm', hasOther,
        (others other ne).trans isEntry⟩⟩)) rfl
  | swapped e =>
      refine balanced'.swapDuplicate.bind fun r' done => ?_
      exact fill r' done.1 (congrArg Prod.fst done.2.1)

/-- `swap_out_vma` at the entry of a segment. -/
theorem swapOutShared {e : SwapEntry} (balanced : p.Balanced live hand)
    (has : live.shmem shmem = true) (stays : live.closing ≠ some shmem) :
    Meets Panic.Misuse (fun q => q.Balanced live hand) (p.swapOutShared f shmem len addr e) := by
  unfold Pages.swapOutShared
  split
  · refine (balanced.shmemGetEntry has stays false).bind ?_
    rintro ⟨found, q⟩ ⟨after, _, _⟩
    dsimp only at after ⊢
    split
    · simp [Panic.Misuse]
    · split
      · exact (after.shmemInsertEntry has stays (by rintro _ _ ⟨⟩)).bind fun r done => done
      · exact after
  · exact balanced

/-- `do_pgfault` at an entry that is zero, in an area that shares a segment. -/
theorem pgfaultShared {la shmemAddr : Nat} (balanced : p.Balanced live hand)
    (hasMm : live.mm mm = true) (has : live.shmem shmem = true)
    (stays : live.closing ≠ some shmem) (low : la < 2 ^ 32)
    (zero : p.pte (userSlot mm la) = .zero) :
    Meets Panic.Misuse (fun result => result.2.Balanced live hand)
      (p.pgfaultShared mm la perm shmem len shmemAddr) := by
  unfold Pages.pgfaultShared
  refine (balanced.shmemGetEntry has stays true).bind ?_
  rintro ⟨found, q⟩ ⟨after, spares, _⟩
  dsimp only at after spares ⊢
  have zero' : q.pte (userSlot mm la) = .zero := by
    rw [spares.pte _ (by rintro ⟨⟩), zero]
  split
  · exact after
  · exact after
  · rename_i f perm' isEntry _
    have refers : q.Refers live f := .inr ⟨sharedSlot shmem shmemAddr, perm', has, isEntry⟩
    refine (after.insertReferred hasMm low refers).bind ?_
    rintro ⟨_, r⟩ ⟨inserted, _⟩
    exact inserted
  · -- the entry of the page table is zero, and `swap_offset` stops at it
    refine Meets.bind_through (fun _ => False) ?_ fun _ impossible => impossible.elim
    rw [zero']
    refine swapOffset_meets.bind ?_
    rintro _ ⟨rfl, slot⟩
    exact absurd rfl slot.ne_zero

/-! ## shmem_create and shmem_destroy -/

/-- A segment that begins has no nodes. -/
theorem shmemCreate (balanced : p.Balanced live hand) (new : live.shmem shmem = false) :
    (p.shmemCreate shmem).Balanced (live.setShmem shmem true) hand := by
  obtain ⟨sparse, accounts, backed, noded⟩ := balanced
  have holds : (p.shmemCreate shmem).holds (live.setShmem shmem true) = p.holds live := by
    funext holder
    cases holder with
    | slot slot =>
        cases slot with
        | user mm page => rfl
        | shared other page =>
            by_cases own : other = shmem
            · simp [Pages.shmemCreate, Pages.holds, Live.has, Live.setShmem, own, new, Pte.uses]
            · simp [Pages.shmemCreate, Pages.holds, Live.has, Live.setShmem, own]
              rfl
    | directory mm => rfl
    | table mm index => rfl
    | nodes other =>
        by_cases own : other = shmem
        · simp [Pages.shmemCreate, Pages.holds, Live.setShmem, own, new]
        · simp [Pages.shmemCreate, Pages.holds, Live.setShmem, own]
  refine ⟨holds ▸ sparse, ?_, fun mm page => backed mm page, fun other isLive => ?_⟩
  · rw [holds]
    exact accounts.congr rfl rfl fun _ => ⟨rfl, rfl, rfl, rfl, rfl⟩
  · by_cases own : other = shmem
    · subst own
      refine ⟨fun shmn mem => ?_, fun page present => ?_, fun _ shmn cached => ?_⟩
      · simp [Pages.shmemCreate] at mem
      · simp [Pages.shmemCreate] at present
      · simp [Pages.shmemCreate] at cached
    · have isLive' : live.shmem other = true := by
        simpa [Live.setShmem, Function.update_of_ne own] using isLive
      refine (noded other isLive').congr ?_ ?_ fun page => ?_
      · simp [Pages.shmemCreate, own]
      · simp [Pages.shmemCreate, own]
      · simp [Pages.shmemCreate, own]

/-- The loop of `shmn_destroy`. -/
theorem shmnClear {count : Nat} (balanced : p.Balanced live hand) (has : live.shmem shmem = true) :
    Meets Panic.Misuse (fun q => q.Balanced live hand ∧ q.shmnList = p.shmnList ∧
        (∀ slot, p.pte slot = .zero → q.pte slot = .zero) ∧
        ∀ i, 1024 - count ≤ i → i < 1024 → q.pte (.shared shmem (start / pgSize + i)) = .zero)
      (shmnClear shmem start count p) := by
  induction count generalizing p with
  | zero => exact ⟨balanced, rfl, fun _ => id, fun i _ _ => by omega⟩
  | succ count ih =>
      rw [Pages.shmnClear]
      have removed : Meets Panic.Misuse (fun q => q.Balanced live hand ∧
          q.tables = (p.writePte (.shared shmem (start / pgSize + (1023 - count))) .zero).tables)
          (p.removePte (.shared shmem (start / pgSize + (1023 - count)))) :=
        (@removePte _ _ _ (.shared shmem (start / pgSize + (1023 - count))) balanced
          has).and_of_ok fun _ => removePte_tables
      refine removed.bind fun q done => ?_
      obtain ⟨after, tables⟩ := done
      have list : q.shmnList = p.shmnList := congrArg (fun t => t.2.2.2) tables
      have pte := pte_of_tables tables
      have stays : ∀ slot, p.pte slot = .zero → q.pte slot = .zero := by
        intro slot zero
        rw [pte]
        by_cases own : slot = .shared shmem (start / pgSize + (1023 - count))
        · rw [own, writePte_pte_self]
        · rw [writePte_pte_of_ne _ _ own, zero]
      refine (ih after).mono fun r done => ?_
      obtain ⟨after', list', stays', cleared⟩ := done
      refine ⟨after', list'.trans list, fun slot zero => stays' slot (stays slot zero),
        fun i low high => ?_⟩
      by_cases own : i = 1023 - count
      · refine stays' _ ?_
        rw [own, pte, writePte_pte_self]
      · exact cleared i (by omega) high

/-- `shmn_destroy` of the first node of a segment that is about to end. -/
theorem shmnDestroy {rest : List Shmn} (balanced : p.Balanced live hand)
    (has : live.shmem shmem = true) (closing : live.closing = some shmem)
    (list : p.shmnList shmem = shmn :: rest) :
    Meets Panic.Misuse (fun q =>
        Balanced { q with shmnList := Function.update q.shmnList shmem rest } live hand)
      (p.shmnDestroy shmem shmn) := by
  have clear := @shmnClear _ _ _ shmem shmn.start 1024 balanced has
  refine clear.bind fun q done => ?_
  obtain ⟨after, sameList, _, cleared⟩ := done
  obtain ⟨backed, noded⟩ := after.covered
  have node : q.shmnList shmem = shmn :: rest := by rw [sameList, list]
  have aligned := (noded shmem has).aligned shmn (by rw [node]; exact List.mem_cons_self)
  have removed := @uninstall q { q with shmnList := Function.update q.shmnList shmem rest } live
    hand shmn.entry live ↑(rest.map fun shmn => Use.spare shmn.entry) (.spare shmn.entry)
    after (.nodes shmem)
  obtain ⟨freed, balanced'⟩ := removed (by
      funext holder
      by_cases own : holder = .nodes shmem
      · subst own
        rw [Function.update_self]
        simp [holds, has]
      · rw [Function.update_of_ne own]
        cases holder with
        | slot slot => rfl
        | directory mm => rfl
        | table mm index => rfl
        | nodes other =>
            have ne : other ≠ shmem := fun same => own (congrArg Holder.nodes same)
            simp [holds, Function.update_of_ne ne])
    (by
      rw [holds, if_pos has, node, List.map_cons, add_comm, Multiset.singleton_add,
        Multiset.cons_coe])
    (.inl rfl) rfl rfl rfl ⟨backed, fun other isLive => by
      by_cases own : other = shmem
      · subst own
        obtain ⟨aligned', covered, _⟩ := noded other isLive
        refine ⟨fun x mem => ?_, fun page present => ?_, fun stays => absurd closing stays⟩
        · simp only [Function.update_self] at mem
          exact aligned' x (by rw [node]; exact List.mem_cons_of_mem _ mem)
        · obtain ⟨x, mem, isNode⟩ := covered page present
          rw [node, List.mem_cons] at mem
          rcases mem with rfl | mem
          · refine absurd (cleared (page % 1024) (by omega) (Nat.mod_lt _ (by decide))) ?_
            have isPage : x.start / pgSize + page % 1024 = page := by
              unfold shmnSize pgSize at *
              omega
            rw [isPage]
            exact present
          · exact ⟨x, by simp only [Function.update_self]; exact mem, isNode⟩
      · have same : Function.update q.shmnList shmem rest other = q.shmnList other :=
          Function.update_of_ne own ..
        exact (noded other isLive).congr same rfl fun _ => rfl⟩ rfl
  exact .of_eq_ok freed balanced'

/-- The loop of `shmem_destroy`. -/
theorem shmnDestroyAll {list : List Shmn} (balanced : p.Balanced live hand)
    (has : live.shmem shmem = true) (closing : live.closing = some shmem)
    (isList : p.shmnList shmem = list) :
    Meets Panic.Misuse (fun q => q.Balanced live hand ∧ q.shmnList shmem = [])
      (shmnDestroyAll shmem list p) := by
  induction list generalizing p with
  | nil => exact ⟨balanced, isList⟩
  | cons shmn rest ih =>
      refine (balanced.shmnDestroy has closing isList).bind fun q after => ?_
      refine ih after ?_
      simp

/-- `shmem_destroy` of a segment, that ends. -/
theorem shmemDestroy (balanced : p.Balanced live hand) (has : live.shmem shmem = true)
    (stays : live.closing = none) :
    Meets Panic.Misuse (fun q => q.Balanced (live.setShmem shmem false) hand)
      (p.shmemDestroy shmem) := by
  have closed : p.Balanced (live.close shmem) hand := by
    obtain ⟨sparse, accounts, backed, noded⟩ := balanced
    refine ⟨sparse, accounts, backed, fun other isLive => ?_⟩
    obtain ⟨aligned, covered, cache⟩ := noded other isLive
    refine ⟨aligned, covered, fun _ => cache ?_⟩
    rw [stays]
    rintro ⟨⟩
  refine (closed.shmnDestroyAll has rfl rfl).mono fun q done => ?_
  obtain ⟨⟨sparse, accounts, backed, noded⟩, empty⟩ := done
  have zero : ∀ page, q.pte (.shared shmem page) = .zero := by
    intro page
    by_contra present
    obtain ⟨shmn, mem, _⟩ := (noded shmem has).covered page present
    rw [empty] at mem
    cases mem
  have holds : q.holds (live.setShmem shmem false) = q.holds (live.close shmem) := by
    funext holder
    cases holder with
    | slot slot =>
        cases slot with
        | user mm page => rfl
        | shared other page =>
            by_cases own : other = shmem
            · simp [Pages.holds, own, zero, Pte.uses]
            · simp [Pages.holds, Live.has, Live.setShmem, Live.close, own]
              rfl
    | directory mm => rfl
    | table mm index => rfl
    | nodes other =>
        by_cases own : other = shmem
        · simp [Pages.holds, own, empty]
        · simp [Pages.holds, Live.setShmem, Live.close, own]
          rfl
  refine ⟨holds ▸ sparse, ?_, backed, fun other isLive => ?_⟩
  · rw [holds]
    exact accounts
  · have ne : other ≠ shmem := by
      rintro rfl
      simp [Live.setShmem] at isLive
    have isLive' : (live.close shmem).shmem other = true := by
      simpa [Live.setShmem, Live.close, Function.update_of_ne ne] using isLive
    obtain ⟨aligned, covered, cache⟩ := noded other isLive'
    exact ⟨aligned, covered, fun _ => cache fun same => ne (Option.some.inj same).symm⟩

end Balanced

end Pages

end EdfKernel.Mm
