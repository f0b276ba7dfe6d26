import EdfKernel.Library.Intervals
import EdfKernel.Library.Run
import EdfKernel.Mm.Evict
import EdfKernel.Mm.Fault

/-!
# What the page functions do to the tables

The functions on frames and swap slots leave the page tables and the segments alone; those on
page tables change the entries of the pages they are asked about.
-/

namespace EdfKernel.Mm

open Library

/-- The frame an entry refers to. -/
def Pte.frame : Pte → Option Frame
  | .present f _ => some f
  | _ => none

namespace Pages

variable {p p' q : Pages} {f : Frame} {slot : Slot} {entry : SwapEntry}

/-- The page directories, page tables and segments. -/
def tables (p : Pages) :
    (MmPtr → Frame) × (MmPtr → Nat → Option Frame) × (Slot → Pte) × (ShmemPtr → List Shmn) :=
  (p.pgdir, p.table, p.pte, p.shmnList)

theorem pte_of_tables (same : p'.tables = p.tables) : p'.pte = p.pte :=
  congrArg (fun t => t.2.2.1) same

theorem table_of_tables (same : p'.tables = p.tables) : p'.table = p.table :=
  congrArg (fun t => t.2.1) same

/-! ## Frames and slots -/

theorem allocPage_tables (p : Pages) : p.allocPage.2.tables = p.tables := by
  unfold allocPage
  split
  · split <;> rfl
  · rfl
  · rfl

theorem freePage_tables (freed : p.freePage f = .ok p') : p'.tables = p.tables := by
  unfold freePage at freed
  split at freed
  · cases freed
  · cases freed
    rfl

theorem swapActiveListAdd_tables (added : p.swapActiveListAdd f = .ok p') :
    p'.tables = p.tables := by
  unfold swapActiveListAdd at added
  split at added
  · cases added
    rfl
  · cases added

theorem swapListDel_tables (deleted : p.swapListDel f = .ok p') : p'.tables = p.tables := by
  unfold swapListDel at deleted
  split at deleted
  · cases deleted
    rfl
  · cases deleted

theorem swapPageDel_tables (deleted : p.swapPageDel f = .ok p') : p'.tables = p.tables := by
  unfold swapPageDel at deleted
  split at deleted
  · cases deleted
    rfl
  · cases deleted

theorem swapFreePage_tables (freed : p.swapFreePage f = .ok p') : p'.tables = p.tables := by
  unfold swapFreePage at freed
  split at freed
  · obtain ⟨q, deleted, freed⟩ := bind_eq_ok_iff.mp freed
    exact (freePage_tables freed).trans (swapPageDel_tables deleted)
  · cases freed

theorem stealSlot_tables (stolen : p.stealSlot entry = .ok p') : p'.tables = p.tables := by
  unfold stealSlot at stolen
  split at stolen
  · cases stolen
  · obtain ⟨q, deleted, stolen⟩ := bind_eq_ok_iff.mp stolen
    obtain ⟨r, removed, result⟩ := bind_eq_ok_iff.mp stolen
    cases result
    have same : r.tables = q.tables := by
      split at removed
      · exact swapFreePage_tables removed
      · exact swapPageDel_tables removed
    exact same.trans (swapListDel_tables deleted)

theorem tryAllocSwapEntry_tables {result : SwapEntry × Pages}
    (tried : p.tryAllocSwapEntry = .ok result) : result.2.tables = p.tables := by
  unfold tryAllocSwapEntry at tried
  simp only at tried
  split at tried
  · cases tried
    rfl
  · split at tried
    · obtain ⟨q, stolen, result⟩ := bind_eq_ok_iff.mp tried
      cases result
      have same := stealSlot_tables stolen
      exact same
    · cases tried
      rfl

theorem swapPageSlot_tables {result : SwapEntry × Pages} (taken : p.swapPageSlot f = .ok result) :
    result.2.tables = p.tables := by
  obtain ⟨⟨entry, q⟩, tried, rest⟩ := bind_eq_ok_iff.mp taken
  have same := tryAllocSwapEntry_tables tried
  simp only at rest
  split at rest
  · cases rest
    exact same
  · obtain ⟨offset, _, rest⟩ := bind_eq_ok_iff.mp rest
    split at rest
    · cases rest
      exact same
    · cases rest

theorem swapPageAdd_tables {result : Bool × Pages} (added : p.swapPageAdd f entry = .ok result) :
    result.2.tables = p.tables := by
  unfold swapPageAdd at added
  split at added
  · cases added
  · obtain ⟨⟨entry', q⟩, taken, rest⟩ := bind_eq_ok_iff.mp added
    have same : q.tables = p.tables := by
      split at taken
      · exact swapPageSlot_tables taken
      · cases taken
        rfl
    simp only at rest
    split at rest
    · cases rest
      exact same
    · cases rest
      exact same

theorem swapRemoveEntry_tables (removed : p.swapRemoveEntry entry = .ok p') :
    p'.tables = p.tables := by
  obtain ⟨offset, _, rest⟩ := bind_eq_ok_iff.mp removed
  split at rest
  · cases rest
  · simp only at rest
    split at rest
    · split at rest
      · split at rest
        · cases rest
          rfl
        · obtain ⟨q, deleted, rest⟩ := bind_eq_ok_iff.mp rest
          obtain ⟨r, freed, result⟩ := bind_eq_ok_iff.mp rest
          cases result
          have unlisted := (swapFreePage_tables freed).trans (swapListDel_tables deleted)
          exact unlisted
      · cases rest
        rfl
    · cases rest
      rfl

theorem swapDuplicate_tables (duplicated : p.swapDuplicate entry = .ok p') :
    p'.tables = p.tables := by
  obtain ⟨offset, _, rest⟩ := bind_eq_ok_iff.mp duplicated
  split at rest
  · cases rest
    rfl
  · cases rest

theorem transfer_tables (p : Pages) : p.transfer.2.tables = p.tables := by
  unfold transfer
  split <;> rfl

theorem swapfsRead_tables {result : Bool × Pages} (read : p.swapfsRead entry f = .ok result) :
    result.2.tables = p.tables := by
  obtain ⟨offset, _, rest⟩ := bind_eq_ok_iff.mp read
  have same := p.transfer_tables
  rcases answer : p.transfer with ⟨failed, q⟩
  rw [answer] at rest same
  cases rest
  cases failed with
  | true => exact same
  | false => exact same

theorem swapInPage_tables {result : Int × Frame × Pages} (read : p.swapInPage entry = .ok result) :
    result.2.2.tables = p.tables := by
  obtain ⟨offset, _, rest⟩ := bind_eq_ok_iff.mp read
  have alloc := p.allocPage_tables
  split at rest
  · cases rest
    rfl
  · rcases answer : p.allocPage with ⟨newpage, q⟩
    rw [answer] at rest alloc
    simp only at rest alloc
    split at rest
    · obtain ⟨r, freed, result⟩ := bind_eq_ok_iff.mp rest
      cases result
      exact (freePage_tables freed).trans alloc
    · cases rest
      exact alloc
    · cases rest
      exact alloc
    · obtain ⟨⟨failed, r⟩, transferred, rest⟩ := bind_eq_ok_iff.mp rest
      have moved := (swapfsRead_tables transferred).trans alloc
      simp only at rest
      split at rest
      · obtain ⟨s, freed, result⟩ := bind_eq_ok_iff.mp rest
        cases result
        exact (freePage_tables freed).trans moved
      · obtain ⟨⟨added, s⟩, hashed, rest⟩ := bind_eq_ok_iff.mp rest
        obtain ⟨t, listed, result⟩ := bind_eq_ok_iff.mp rest
        cases result
        exact (swapActiveListAdd_tables listed).trans ((swapPageAdd_tables hashed).trans moved)

theorem allocPage_some (answer : p.allocPage = (some f, q)) :
    p.free f = true ∧ ∃ grants,
      q = { p with free := Function.update p.free f false, grants := grants } := by
  unfold allocPage at answer
  split at answer
  · split at answer
    · rename_i isFree
      cases answer
      exact ⟨isFree, _, rfl⟩
    · cases answer
  · cases answer
  · cases answer

theorem allocPage_none (answer : p.allocPage = (none, q)) :
    ∃ grants, q = { p with grants := grants } := by
  unfold allocPage at answer
  split at answer
  · split at answer
    · cases answer
    · cases answer
      exact ⟨_, rfl⟩
  · cases answer
    exact ⟨_, rfl⟩
  · cases answer
    exact ⟨p.grants, rfl⟩

theorem freePage_free (freed : p.freePage f = .ok p') :
    p'.free = Function.update p.free f true := by
  unfold freePage at freed
  split at freed
  · cases freed
  · cases freed
    rfl

/-! ## One entry -/

/-- Removing an entry clears it and nothing else. -/
theorem removePte_tables (removed : p.removePte slot = .ok p') :
    p'.tables = (p.writePte slot .zero).tables := by
  unfold removePte at removed
  split at removed
  · rename_i g perm _
    split at removed
    · obtain ⟨q, dropped, result⟩ := bind_eq_ok_iff.mp removed
      cases result
      have same : q.tables = p.tables := by
        split at dropped
        · have freed := freePage_tables dropped
          exact freed
        · cases dropped
          rfl
      simp only [tables, Prod.mk.injEq, writePte] at same ⊢
      exact ⟨same.1, same.2.1, by rw [same.2.2.1], same.2.2.2⟩
    · cases removed
      split <;> rfl
  · obtain ⟨q, dropped, result⟩ := bind_eq_ok_iff.mp removed
    cases result
    have same := swapRemoveEntry_tables dropped
    simp only [tables, Prod.mk.injEq, writePte] at same ⊢
    exact ⟨same.1, same.2.1, by rw [same.2.2.1], same.2.2.2⟩
  · rename_i absent
    cases removed
    simp [tables, writePte, ← absent]

/-! ## Entries of address spaces -/

/-- The page tables and the entries of the address spaces. -/
def userTables (p : Pages) : (MmPtr → Nat → Option Frame) × (MmPtr → Nat → Pte) :=
  (p.table, fun mm page => p.pte (.user mm page))

theorem userTables_of_tables (same : p'.tables = p.tables) : p'.userTables = p.userTables := by
  rw [userTables, table_of_tables same, pte_of_tables same, userTables]

/-- Every entry that is not zero is in a page table. -/
def Backed (p : Pages) : Prop :=
  ∀ mm page, p.pte (.user mm page) ≠ .zero → (p.table mm (page / 1024)).isSome = true

/-- A change after which the entries are in page tables, and that makes no entry of an address
space different from zero except those of a set. -/
structure Adds (p p' : Pages) (new : MmPtr → Nat → Prop) : Prop where
  backed : p'.Backed
  entries : ∀ mm page, p'.pte (.user mm page) ≠ .zero →
    p.pte (.user mm page) ≠ .zero ∨ new mm page

/-- No page. -/
def nowhere : MmPtr → Nat → Prop := fun _ _ => False

/-- The page of one address. -/
def pageAt (mm : MmPtr) (la : Nat) : MmPtr → Nat → Prop :=
  fun mm' page => mm' = mm ∧ page = la / pgSize

/-- The pages of a range of addresses. -/
def pagesIn (mm : MmPtr) (start stop : Nat) : MmPtr → Nat → Prop :=
  fun mm' page => mm' = mm ∧ start ≤ page * pgSize ∧ page * pgSize < stop

variable {new new' : MmPtr → Nat → Prop} {mm : MmPtr} {la : Nat} {perm : Perm} {create : Bool}

theorem Backed.of_userTables (backed : p.Backed) (same : p'.userTables = p.userTables) :
    p'.Backed := by
  intro mm page
  have table : p'.table = p.table := congrArg Prod.fst same
  have pte : p'.pte (.user mm page) = p.pte (.user mm page) :=
    congrFun (congrFun (congrArg Prod.snd same) mm) page
  rw [table, pte]
  exact backed mm page

theorem Adds.of_userTables (backed : p.Backed) (same : p'.userTables = p.userTables) :
    p.Adds p' new := by
  refine ⟨backed.of_userTables same, fun mm page => ?_⟩
  have pte : p'.pte (.user mm page) = p.pte (.user mm page) :=
    congrFun (congrFun (congrArg Prod.snd same) mm) page
  rw [pte]
  exact .inl

theorem Adds.of_tables (backed : p.Backed) (same : p'.tables = p.tables) : p.Adds p' new :=
  .of_userTables backed (userTables_of_tables same)

theorem Adds.refl (backed : p.Backed) : p.Adds p new :=
  .of_tables backed rfl

theorem Adds.trans (first : p.Adds q new) (second : q.Adds p' new) : p.Adds p' new := by
  refine ⟨second.backed, fun mm page present => ?_⟩
  rcases second.entries mm page present with before | added
  · exact first.entries mm page before
  · exact .inr added

theorem Adds.mono (adds : p.Adds p' new) (sub : ∀ mm page, new mm page → new' mm page) :
    p.Adds p' new' :=
  ⟨adds.backed, fun mm page present => (adds.entries mm page present).imp_right (sub mm page)⟩

theorem Adds.of_nowhere (adds : p.Adds p' nowhere) : p.Adds p' new :=
  adds.mono fun _ _ => False.elim

theorem Adds.zero {page : Nat} (adds : p.Adds p' nowhere) (before : p.pte (.user mm page) = .zero) :
    p'.pte (.user mm page) = .zero := by
  by_contra present
  rcases adds.entries mm page present with there | impossible
  · exact there before
  · exact impossible

theorem pdx_eq (low : la < 2 ^ 32) : pdx la = la / pgSize / 1024 := by
  have small : la / (pgSize * 1024) < 1024 := by
    unfold pgSize
    omega
  unfold pdx ptSize
  rw [Nat.mod_eq_of_lt small, Nat.div_div_eq_div_mul]

theorem writePte_pte_self (p : Pages) (slot : Slot) (entry : Pte) :
    (p.writePte slot entry).pte slot = entry :=
  Function.update_self ..

theorem writePte_pte_of_ne (p : Pages) (entry : Pte) {other : Slot} (ne : other ≠ slot) :
    (p.writePte slot entry).pte other = p.pte other :=
  Function.update_of_ne ne ..

/-- An entry is cleared. -/
theorem writePte_zero_adds (backed : p.Backed) (slot : Slot) :
    p.Adds (p.writePte slot .zero) nowhere := by
  have keeps : ∀ mm page, (p.writePte slot .zero).pte (.user mm page) ≠ .zero →
      p.pte (.user mm page) ≠ .zero := by
    intro mm page present
    by_cases own : Slot.user mm page = slot
    · exact absurd (by rw [own]; exact writePte_pte_self ..) present
    · rwa [writePte_pte_of_ne _ _ own] at present
  exact ⟨fun mm page present => backed mm page (keeps mm page present),
    fun mm page present => .inl (keeps mm page present)⟩

/-- An entry in a page table is written. -/
theorem writePte_adds (backed : p.Backed) (low : la < 2 ^ 32)
    (table : (p.table mm (pdx la)).isSome = true) (entry : Pte) :
    p.Adds (p.writePte (userSlot mm la) entry) (pageAt mm la) := by
  rw [pdx_eq low] at table
  constructor
  · intro mm' page present
    by_cases own : Slot.user mm' page = userSlot mm la
    · cases own
      exact table
    · rw [writePte_pte_of_ne _ _ own] at present
      exact backed mm' page present
  · intro mm' page present
    by_cases own : Slot.user mm' page = userSlot mm la
    · cases own
      exact .inr ⟨rfl, rfl⟩
    · rw [writePte_pte_of_ne _ _ own] at present
      exact .inl present

theorem removePte_adds (backed : p.Backed) (removed : p.removePte slot = .ok p') :
    p.Adds p' nowhere := by
  have same := userTables_of_tables (removePte_tables removed)
  have cleared := writePte_zero_adds backed slot
  exact cleared.trans (.of_userTables cleared.backed same)

theorem removePte_pte (removed : p.removePte slot = .ok p') :
    p'.pte = Function.update p.pte slot .zero :=
  pte_of_tables (removePte_tables removed)

theorem removePte_table (removed : p.removePte slot = .ok p') : p'.table = p.table := by
  have same := table_of_tables (removePte_tables removed)
  exact same

/-- `get_pte` finds a page table or adds an empty one. -/
theorem getPte_adds (backed : p.Backed) (create : Bool) :
    p.Adds (p.getPte mm la create).2 nowhere := by
  unfold getPte
  split
  · exact .refl backed
  · rename_i missing
    split
    · have same := p.allocPage_tables
      split
      · rename_i q answer
        rw [answer] at same
        exact .of_tables backed same
      · rename_i f q answer
        rw [answer] at same
        have table := table_of_tables same
        have pte := pte_of_tables same
        simp only at table pte
        have keeps : ∀ mm' page, q.clearTable mm (pdx la) (.user mm' page) ≠ .zero →
            p.pte (.user mm' page) ≠ .zero ∧ ¬(mm' = mm ∧ page / 1024 = pdx la) := by
          intro mm' page present
          rw [clearTable] at present
          split at present
          · exact absurd rfl present
          · rename_i elsewhere
            rw [pte] at present
            exact ⟨present, elsewhere⟩
        constructor
        · intro mm' page present
          obtain ⟨before, elsewhere⟩ := keeps mm' page present
          have there := backed mm' page before
          simp only [table]
          by_cases same : mm' = mm
          · subst same
            have other : page / 1024 ≠ pdx la := fun index => elsewhere ⟨rfl, index⟩
            rw [Function.update_self, Function.update_of_ne other]
            exact there
          · rw [Function.update_of_ne same]
            exact there
        · exact fun mm' page present => .inl (keeps mm' page present).1
    · exact .refl backed

theorem getPte_table (found : (p.getPte mm la create).1 = true) :
    ((p.getPte mm la create).2.table mm (pdx la)).isSome = true := by
  unfold getPte at found ⊢
  split
  · rename_i there
    exact there
  · rename_i missing
    rw [if_neg missing] at found
    split at found
    · rename_i creates
      rw [if_pos creates]
      split at found
      · cases found
      · simp only [Function.update_self, Option.isSome_some]
    · cases found

theorem pageInsert_adds {result : Int × Pages} (backed : p.Backed) (low : la < 2 ^ 32)
    (inserted : p.pageInsert mm f la perm = .ok result) :
    p.Adds result.2 (pageAt mm la) := by
  have got := @getPte_adds _ mm la backed true
  have table := @getPte_table p mm la true
  unfold pageInsert at inserted
  split at inserted
  · rename_i q answer
    rw [answer] at got
    cases inserted
    exact got.of_nowhere
  · rename_i q answer
    rw [answer] at got table
    obtain ⟨r, replaced, rest⟩ := bind_eq_ok_iff.mp inserted
    cases rest
    have counted : p.Adds (q.pageRefInc f) nowhere :=
      got.trans (.of_tables got.backed rfl)
    have step : (q.pageRefInc f).Adds r nowhere ∧ r.table = (q.pageRefInc f).table := by
      split at replaced
      · cases replaced
        exact ⟨.refl counted.backed, rfl⟩
      · split at replaced
        · cases replaced
          exact ⟨.of_tables counted.backed rfl, rfl⟩
        · exact ⟨removePte_adds counted.backed replaced, removePte_table replaced⟩
      · exact ⟨removePte_adds counted.backed replaced, removePte_table replaced⟩
    have written := @writePte_adds _ mm la step.1.backed low
      (by rw [step.2]; exact table rfl) (.present f perm)
    exact (counted.trans step.1).of_nowhere.trans written

theorem pgdirAllocPage_adds {result : Option Frame × Pages} (backed : p.Backed)
    (low : la < 2 ^ 32) (done : p.pgdirAllocPage mm la perm = .ok result) :
    p.Adds result.2 (pageAt mm la) := by
  have same := p.allocPage_tables
  unfold pgdirAllocPage at done
  split at done
  · rename_i q answer
    rw [answer] at same
    cases done
    exact .of_tables backed same
  · rename_i g q answer
    rw [answer] at same
    have alloc : p.Adds q (pageAt mm la) := .of_tables backed same
    obtain ⟨⟨ret, r⟩, inserted, rest⟩ := bind_eq_ok_iff.mp done
    have adds := alloc.trans (pageInsert_adds alloc.backed low inserted)
    simp only at rest adds
    split at rest
    · obtain ⟨t, freed, result⟩ := bind_eq_ok_iff.mp rest
      cases result
      exact adds.trans (.of_tables adds.backed (freePage_tables freed))
    · cases rest
      exact adds

/-! ## Walks over a range -/

/-- A walk goes on behind the page, or behind the page table that is missing. -/
structure Skips (p : Pages) (mm : MmPtr) (la next : Nat) : Prop where
  far : la + pgSize ≤ next
  aligned : next % pgSize = 0
  skipped : ∀ page, la ≤ page * pgSize → page * pgSize < next →
    (page = la / pgSize ∧ (p.table mm (pdx la)).isSome = true) ∨ p.table mm (page / 1024) = none

theorem walkNext_skips (aligned : la % pgSize = 0) (low : la < userTop) :
    p.Skips mm la (p.walkNext mm la) := by
  have small : la < 2 ^ 32 := low.trans (by decide)
  have index := pdx_eq small
  unfold walkNext add32 roundDown
  cases there : (p.table mm (pdx la)).isSome with
  | true =>
      have next : (la + pgSize) % 2 ^ 32 = la + pgSize := by
        unfold userTop at low
        unfold pgSize
        omega
      rw [if_pos rfl, next]
      refine ⟨le_rfl, by rw [Nat.add_mod_right, aligned], fun page low' high => .inl ⟨?_, there⟩⟩
      unfold pgSize at *
      omega
  | false =>
      have next : (la + ptSize) % 2 ^ 32 = la + ptSize := by
        unfold userTop at low
        unfold ptSize pgSize
        omega
      rw [if_neg Bool.noConfusion, next]
      constructor
      · unfold ptSize pgSize at *
        omega
      · unfold ptSize pgSize
        omega
      · intro page low' high
        have same : page / 1024 = pdx la := by
          rw [index]
          unfold ptSize pgSize at *
          omega
        rw [same]
        exact .inr (Option.isNone_iff_eq_none.mp (by simpa using there))

/-- The loop of `unmap_range` clears the pages of the range. -/
theorem unmapLoop_spec {stop fuel : Nat} (backed : p.Backed) (aligned : la % pgSize = 0)
    (start : la < stop) (top : stop ≤ userTop) (enough : stop ≤ la + fuel * pgSize)
    (done : unmapLoop mm stop fuel la p = .ok p') :
    p.Adds p' nowhere ∧ p'.table = p.table ∧
      ∀ page, la ≤ page * pgSize → page * pgSize < stop → p'.pte (.user mm page) = .zero := by
  induction fuel generalizing la p with
  | zero => omega
  | succ fuel ih =>
      have skips := @walkNext_skips p mm _ aligned (start.trans_le top)
      have index := @pdx_eq la ((start.trans_le top).trans (by decide))
      obtain ⟨q, removed, rest⟩ := bind_eq_ok_iff.mp done
      have first : p.Adds q nowhere ∧ q.table = p.table ∧
          ∀ page, la ≤ page * pgSize → page * pgSize < p.walkNext mm la →
            q.pte (.user mm page) = .zero := by
        have absent : ∀ page, p.table mm (page / 1024) = none → p.pte (.user mm page) = .zero := by
          intro page missing
          by_contra present
          have there := backed mm page present
          rw [missing] at there
          cases there
        split at removed
        · have adds := removePte_adds backed removed
          refine ⟨adds, removePte_table removed, fun page low high => ?_⟩
          rcases skips.skipped page low high with ⟨rfl, _⟩ | missing
          · rw [removePte_pte removed]
            exact Function.update_self ..
          · exact adds.zero (absent page missing)
        · rename_i empty
          cases removed
          refine ⟨.refl backed, rfl, fun page low high => ?_⟩
          rcases skips.skipped page low high with ⟨rfl, there⟩ | missing
          · by_contra present
            exact empty ⟨there, present⟩
          · exact absent page missing
      split at rest
      · rename_i more
        obtain ⟨adds, table, cleared⟩ := ih first.1.backed skips.aligned more.2
          (by have := skips.far; rw [Nat.succ_mul] at enough; omega) rest
        refine ⟨first.1.trans adds, table.trans first.2.1, fun page low high => ?_⟩
        by_cases inside : page * pgSize < p.walkNext mm la
        · exact adds.zero (first.2.2 page low inside)
        · exact cleared page (not_lt.mp inside) high
      · rename_i last
        cases rest
        have far := skips.far
        have positive : pgSize = 4096 := rfl
        refine ⟨first.1, first.2.1, fun page low high => first.2.2 page low ?_⟩
        have ends : ¬p.walkNext mm la < stop := fun less => last ⟨by omega, less⟩
        omega

theorem rangeOk_spec {start stop : Nat} (ok : rangeOk start stop = true) :
    start % pgSize = 0 ∧ stop % pgSize = 0 ∧ userBase ≤ start ∧ start < stop ∧ stop ≤ userTop := by
  simp only [rangeOk, userAccess, Bool.and_eq_true, decide_eq_true_eq] at ok
  exact ⟨ok.1.1, ok.1.2, ok.2⟩

/-- `unmap_range` clears the pages of the range and adds none. -/
theorem unmapRange_spec {start stop : Nat} (backed : p.Backed)
    (done : p.unmapRange mm start stop = .ok p') :
    p.Adds p' nowhere ∧ p'.table = p.table ∧
      ∀ page, start ≤ page * pgSize → page * pgSize < stop → p'.pte (.user mm page) = .zero := by
  unfold unmapRange at done
  split at done
  · rename_i ok
    obtain ⟨aligned, aligned', _, less, top⟩ := rangeOk_spec ok
    refine unmapLoop_spec backed aligned less top ?_ done
    unfold pgSize at *
    omega
  · cases done

/-- The loop of `exit_range` takes page tables away. -/
theorem exitLoop_adds {stop fuel : Nat} (backed : p.Backed)
    (done : exitLoop mm stop fuel la p = .ok p') : p.Adds p' nowhere := by
  induction fuel generalizing la p with
  | zero =>
      cases done
      exact .refl backed
  | succ fuel ih =>
      obtain ⟨q, removed, rest⟩ := bind_eq_ok_iff.mp done
      have first : p.Adds q nowhere := by
        split at removed
        · cases removed
          exact .refl backed
        · obtain ⟨r, freed, result⟩ := bind_eq_ok_iff.mp removed
          cases result
          have same := freePage_tables freed
          have table := table_of_tables same
          have pte := pte_of_tables same
          have keeps : ∀ mm' page, r.clearTable mm (pdx la) (.user mm' page) ≠ .zero →
              p.pte (.user mm' page) ≠ .zero ∧ ¬(mm' = mm ∧ page / 1024 = pdx la) := by
            intro mm' page present
            rw [clearTable] at present
            split at present
            · exact absurd rfl present
            · rename_i elsewhere
              rw [pte] at present
              exact ⟨present, elsewhere⟩
          constructor
          · intro mm' page present
            obtain ⟨before, elsewhere⟩ := keeps mm' page present
            have there := backed mm' page before
            simp only [table]
            by_cases own : mm' = mm
            · subst own
              have other : page / 1024 ≠ pdx la := fun index => elsewhere ⟨rfl, index⟩
              rw [Function.update_self, Function.update_of_ne other]
              exact there
            · rw [Function.update_of_ne own]
              exact there
          · exact fun mm' page present => .inl (keeps mm' page present).1
      simp only at rest
      split at rest
      · exact first.trans (ih first.backed rest)
      · cases rest
        exact first

theorem exitRange_adds {start stop : Nat} (backed : p.Backed)
    (done : p.exitRange mm start stop = .ok p') : p.Adds p' nowhere := by
  unfold exitRange at done
  split at done
  · exact exitLoop_adds backed done
  · cases done

/-! ## Copies -/

theorem copyPte_adds {target source : MmPtr} {share : Bool} {result : Int × Pages}
    (backed : p.Backed) (low : la < 2 ^ 32) (present : p.pte (userSlot source la) ≠ .zero)
    (done : p.copyPte target source la share = .ok result) :
    p.Adds result.2 (pageAt target la) := by
  have got := @getPte_adds _ target la backed true
  have table := @getPte_table p target la true
  unfold copyPte at done
  split at done
  · rename_i q answer
    rw [answer] at got
    cases done
    exact got.of_nowhere
  · rename_i q answer
    rw [answer] at got table
    have got' : p.Adds q (pageAt target la) := got.of_nowhere
    split at done
    · cases done
    · split at done
      · cases done
      · obtain ⟨⟨perm', r⟩, shared, rest⟩ := bind_eq_ok_iff.mp done
        have first : p.Adds r (pageAt target la) := by
          split at shared
          · obtain ⟨⟨ret, r⟩, inserted, result⟩ := bind_eq_ok_iff.mp shared
            cases result
            have adds := pageInsert_adds got.backed low inserted
            refine ⟨adds.backed, fun mm page there => ?_⟩
            rcases adds.entries mm page there with before | ⟨rfl, rfl⟩
            · exact got'.entries mm page before
            · exact .inl present
          · cases shared
            exact got'
        obtain ⟨⟨ret, t⟩, inserted, rest⟩ := bind_eq_ok_iff.mp rest
        have adds := first.trans (pageInsert_adds first.backed low inserted)
        simp only at rest
        split at rest
        · cases rest
          exact adds
        · cases rest
      · obtain ⟨r, duplicated, result⟩ := bind_eq_ok_iff.mp done
        cases result
        have same := swapDuplicate_tables duplicated
        have counted : p.Adds r (pageAt target la) := got'.trans (.of_tables got.backed same)
        refine counted.trans (writePte_adds counted.backed low ?_ _)
        rw [table_of_tables same]
        exact table rfl

/-- The loop of `copy_range` adds entries of the range only. -/
theorem copyLoop_adds {target source : MmPtr} {share : Bool} {stop fuel : Nat}
    {result : Int × Pages} (backed : p.Backed) (aligned : la % pgSize = 0) (start : la < stop)
    (top : stop ≤ userTop) (done : copyLoop target source share stop fuel la p = .ok result) :
    p.Adds result.2 (pagesIn target la stop) := by
  induction fuel generalizing la p with
  | zero =>
      cases done
      exact .refl backed
  | succ fuel ih =>
      have low := start.trans_le top
      have skips := @walkNext_skips p source _ aligned low
      obtain ⟨⟨ret, q⟩, copied, rest⟩ := bind_eq_ok_iff.mp done
      have first : p.Adds q (pagesIn target la stop) := by
        split at copied
        · rename_i there
          refine (copyPte_adds backed (low.trans (by decide)) there.2 copied).mono ?_
          rintro mm page ⟨rfl, rfl⟩
          have exact : la / pgSize * pgSize = la := by
            rw [Nat.div_mul_cancel (Nat.dvd_of_mod_eq_zero aligned)]
          exact ⟨rfl, exact.ge, exact.trans_lt start⟩
        · cases copied
          exact .refl backed
      simp only at rest
      split at rest
      · cases rest
        exact first
      · split at rest
        · rename_i more
          refine first.trans ((ih first.backed skips.aligned more.2 rest).mono ?_)
          rintro mm page ⟨rfl, from', below⟩
          have far := skips.far
          exact ⟨rfl, by omega, below⟩
        · cases rest
          exact first

/-- `copy_range` adds entries of the range only. -/
theorem copyRange_adds {target source : MmPtr} {share : Bool} {start stop : Nat}
    {result : Int × Pages} (backed : p.Backed)
    (done : p.copyRange target source start stop share = .ok result) :
    p.Adds result.2 (pagesIn target start stop) := by
  unfold copyRange at done
  split at done
  · rename_i ok
    obtain ⟨aligned, _, _, less, top⟩ := rangeOk_spec ok
    exact copyLoop_adds backed aligned less top done
  · cases done

end Pages

end EdfKernel.Mm
