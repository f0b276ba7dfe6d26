import EdfKernel.Library.Holdings
import EdfKernel.Mm.FaultOutcome
import EdfKernel.Mm.Unmap

/-!
# The frames of an address space that is being made

Between `mm_create` and its first use an address space holds a page directory, page tables and
pages that were free before.  Mapping keeps this so and stops at no assertion, and `exit_mmap`
and `put_pgdir` give the frames back.
-/

namespace EdfKernel.Mm

open Library

/-- Where an address space holds frames; a spare frame is allocated and not mapped yet. -/
inductive Place
  | spare
  | directory
  | table (index : Nat)
  | page (n : Nat)
  deriving DecidableEq, Repr

namespace Pages

variable {p₀ p q : Pages} {mm : MmPtr} {la n : Nat} {f g : Frame} {perm : Perm}
  {spare : Option Frame} {all : Prop}

/-! ## What an address space holds -/

/-- The frame held at a place. -/
def frameAt (p : Pages) (mm : MmPtr) (spare : Option Frame) : Place → Option Frame
  | .spare => spare
  | .directory => some (p.pgdir mm)
  | .table index => p.table mm index
  | .page n => (p.pte (.user mm n)).frame

/-- The address space holds frames that were free at the beginning, and has not touched the
other ones; if `all`, it holds every frame that has been allocated since. -/
structure Owns (all : Prop) (p₀ p : Pages) (mm : MmPtr) (spare : Option Frame) : Prop where
  holdings : Holdings p₀.free p.free (p.frameAt mm spare)
  complete : all → Holdings.Complete p₀.free p.free (p.frameAt mm spare)
  flags : ∀ f, p₀.free f = true → (p.page f).reserved = false ∧ (p.page f).swap = false
  clean : ∀ f, p.free f = true → (p.page f).ref = 0
  ref : ∀ n f perm, p.pte (.user mm n) = .present f perm → (p.page f).ref = 1
  unswapped : ∀ n entry, p.pte (.user mm n) ≠ .swapped entry
  backed : p.Backed
  kept : ∀ f, p₀.free f = false → p.page f = p₀.page f ∧ p.data f = p₀.data f

namespace Owns

theorem isBase (owns : Owns all p₀ p mm spare) (isFree : p.free f = true) : p₀.free f = true := by
  by_contra notBase
  rw [owns.holdings.kept f (Bool.eq_false_iff.mpr notBase)] at isFree
  cases isFree

theorem entry_frame (entry : p.pte (.user mm n) = .present f perm) :
    p.frameAt mm spare (.page n) = some f := by
  rw [frameAt, entry, Pte.frame]

/-- `free_page` does not stop at a frame that is held. -/
theorem freePage_eq (owns : Owns all p₀ p mm spare) (place : Place)
    (here : p.frameAt mm spare place = some f) :
    p.freePage f = .ok { p.modify f fun s =>
      { s with ref := 0, dirty := false, swap := false, active := false } with
        free := Function.update p.free f true } := by
  obtain ⟨isBase, taken⟩ := owns.holdings.taken place f here
  rw [freePage, if_neg]
  simp [taken, (owns.flags f isBase).1]

end Owns

/-! ## What freeing and setting up leave -/

/-- What is left when the frame of an entry is freed and the entry cleared. -/
def unmapped (p : Pages) (mm : MmPtr) (n : Nat) (f : Frame) : Pages :=
  { p.modify f fun s => { s with ref := 0, dirty := false, swap := false, active := false } with
    free := Function.update p.free f true
    pte := Function.update p.pte (.user mm n) .zero }

/-- An address space with a page directory and nothing else. -/
def withDirectory (p : Pages) (mm : MmPtr) (f : Frame) : Pages :=
  { p with
    pgdir := Function.update p.pgdir mm f
    table := Function.update p.table mm fun _ => none
    pte := fun slot =>
      match slot with
      | .user mm' page => if mm' = mm then .zero else p.pte (.user mm' page)
      | .shared shmem page => p.pte (.shared shmem page) }

namespace Owns

theorem withGrants (owns : Owns all p₀ p mm spare) (grants : List (Option Frame)) :
    Owns all p₀ { p with grants := grants } mm spare :=
  ⟨owns.holdings, owns.complete, owns.flags, owns.clean, owns.ref, owns.unswapped, owns.backed,
    owns.kept⟩

/-- A frame is taken from the free ones, to a place that was empty. -/
theorem acquire (owns : Owns all p₀ p mm spare) (place : Place) {spare' : Option Frame}
    (isFree : p.free f = true) (empty : p.frameAt mm spare place = none)
    (flags : (q.page f).reserved = (p.page f).reserved ∧ (q.page f).swap = (p.page f).swap)
    (others : ∀ g, g ≠ f → q.page g = p.page g)
    (free : q.free = Function.update p.free f false) (data : q.data = p.data)
    (held : q.frameAt mm spare' = Function.update (p.frameAt mm spare) place (some f))
    (entries : ∀ n, q.pte (.user mm n) = p.pte (.user mm n)) (backed : q.Backed) :
    Owns all p₀ q mm spare' := by
  have isBase := owns.isBase isFree
  refine ⟨?_, fun isAll => ?_, fun g isBase' => ?_, fun g isFree' => ?_, fun n g perm entry => ?_,
    fun n e entry => ?_, backed, fun g notBase => ?_⟩
  · rw [free, held]
    exact owns.holdings.acquire isFree
  · rw [free, held]
    exact Holdings.complete_acquire (owns.complete isAll) empty
  · by_cases own : g = f
    · rw [own, flags.1, flags.2]
      exact owns.flags f isBase
    · rw [others g own]
      exact owns.flags g isBase'
  · have ne : g ≠ f := by
      rintro rfl
      rw [free, Function.update_self] at isFree'
      cases isFree'
    rw [free, Function.update_of_ne ne] at isFree'
    rw [others g ne]
    exact owns.clean g isFree'
  · rw [entries] at entry
    have ne : g ≠ f := by
      rintro rfl
      rw [(owns.holdings.taken _ g (entry_frame entry)).2] at isFree
      cases isFree
    rw [others g ne]
    exact owns.ref n g perm entry
  · rw [entries] at entry
    exact owns.unswapped n e entry
  · have ne : g ≠ f := by
      rintro rfl
      rw [isBase] at notBase
      cases notBase
    rw [others g ne, data]
    exact owns.kept g notBase

/-- A frame is taken from the free ones, to be mapped. -/
theorem takeSpare (owns : Owns all p₀ p mm none) (isFree : p.free f = true)
    (grants : List (Option Frame)) :
    Owns all p₀ { p with free := Function.update p.free f false, grants := grants } mm
      (some f) := by
  refine owns.acquire .spare isFree rfl ⟨rfl, rfl⟩ (fun _ _ => rfl) rfl rfl ?_
    (fun _ => rfl) owns.backed
  funext place
  cases place with
  | spare => rfl
  | directory => rfl
  | table index => rfl
  | page n => rfl

/-- A frame goes back to the free ones, and its place is empty then. -/
theorem release (owns : Owns all p₀ p mm spare) (place : Place) {spare' : Option Frame}
    (here : p.frameAt mm spare place = some f)
    (flags : ∀ g, p₀.free g = true → (q.page g).reserved = false ∧ (q.page g).swap = false)
    (clean : (q.page f).ref = 0) (others : ∀ g, g ≠ f → q.page g = p.page g)
    (free : q.free = Function.update p.free f true) (data : q.data = p.data)
    (held : q.frameAt mm spare' = Function.update (p.frameAt mm spare) place none)
    (entries : ∀ n g perm, q.pte (.user mm n) = .present g perm →
      p.pte (.user mm n) = .present g perm)
    (unswapped : ∀ n entry, q.pte (.user mm n) ≠ .swapped entry) (backed : q.Backed) :
    Owns all p₀ q mm spare' := by
  have isBase := (owns.holdings.taken place f here).1
  have old : ∀ g, p₀.free g = false → g ≠ f := by
    rintro g notBase rfl
    rw [isBase] at notBase
    cases notBase
  refine ⟨?_, fun isAll => ?_, flags, fun g isFree => ?_, fun n g perm entry => ?_, unswapped,
    backed, fun g notBase => ?_⟩
  · rw [free, held]
    exact owns.holdings.release here
  · rw [free, held]
    exact Holdings.complete_release (owns.complete isAll) here
  · by_cases own : g = f
    · exact own ▸ clean
    · rw [others g own]
      rw [free, Function.update_of_ne own] at isFree
      exact owns.clean g isFree
  · have before := entries n g perm entry
    have ne : g ≠ f := by
      rintro rfl
      have same := owns.holdings.single _ _ _ here (entry_frame before)
      have gone : q.frameAt mm spare' place = none := by rw [held, Function.update_self]
      rw [same, frameAt, entry] at gone
      cases gone
    rw [others g ne]
    exact owns.ref n g perm before
  · rw [others g (old g notBase), data]
    exact owns.kept g notBase

/-- `free_page` at a frame that is not mapped after all. -/
theorem freeSpare (owns : Owns all p₀ p mm (some f)) :
    ∃ q, p.freePage f = .ok q ∧ Owns all p₀ q mm none ∧ q.pte = p.pte ∧ q.table = p.table ∧
      q.data = p.data := by
  refine ⟨_, owns.freePage_eq .spare rfl, ?_, rfl, rfl, rfl⟩
  refine owns.release .spare rfl (fun g isBase => ?_) ?_ (fun g ne => ?_) rfl rfl ?_
    (fun _ _ _ => id) owns.unswapped owns.backed
  · by_cases own : g = f
    · subst g
      simpa [modify] using (owns.flags f isBase).1
    · simpa [modify, own] using owns.flags g isBase
  · simp [modify]
  · simp [modify, ne]
  · funext place
    cases place with
    | spare => rfl
    | directory => rfl
    | table index => rfl
    | page n => rfl

/-- The frame of an entry is freed and the entry cleared. -/
theorem removePte (owns : Owns all p₀ p mm spare) :
    ∃ q, p.removePte (.user mm n) = .ok q ∧ Owns all p₀ q mm spare ∧
      q.pte = Function.update p.pte (.user mm n) .zero ∧ q.table = p.table ∧ q.data = p.data ∧
      ∀ f, p.frameAt mm spare (.page n) ≠ some f → q.page f = p.page f := by
  cases entry : p.pte (.user mm n) with
  | zero =>
      refine ⟨p, by rw [Pages.removePte, entry], owns, ?_, rfl, rfl, fun _ _ => rfl⟩
      rw [← entry, Function.update_eq_self]
  | swapped e => exact absurd entry (owns.unswapped n e)
  | present f perm =>
      have here : p.frameAt mm spare (.page n) = some f := entry_frame entry
      obtain ⟨isBase, taken⟩ := owns.holdings.taken _ f here
      obtain ⟨reserved, swap⟩ := owns.flags f isBase
      have ref := owns.ref n f perm entry
      have entries : ∀ i g perm', (p.unmapped mm n f).pte (.user mm i) = .present g perm' →
          p.pte (.user mm i) = .present g perm' := by
        intro i g perm' there
        by_cases own : i = n
        · rw [own] at there
          exact absurd ((Function.update_self ..).symm.trans there) (by rintro ⟨⟩)
        · exact (Function.update_of_ne (by simpa using own) ..).symm.trans there
      refine ⟨p.unmapped mm n f, ?_, ?_, rfl, rfl, rfl, fun g other => ?_⟩
      · simp [Pages.removePte, entry, swap, pageRefDec, modify, ref, freePage, taken, reserved,
          bind, Except.bind, pure, Except.pure, writePte, unmapped]
      · refine owns.release _ here (fun g isBase => ?_) ?_ (fun g ne => ?_) rfl rfl ?_ entries ?_
          ((writePte_zero_adds owns.backed (.user mm n)).backed)
        · by_cases own : g = f
          · subst g
            simpa [unmapped, modify] using reserved
          · simpa [unmapped, modify, own] using owns.flags g isBase
        · simp [unmapped, modify]
        · simp [unmapped, modify, ne]
        · funext place
          cases place with
          | spare => rfl
          | directory => rfl
          | table index => rfl
          | page i =>
              by_cases own : i = n
              · subst i
                simp [frameAt, unmapped, Pte.frame]
              · simp [frameAt, unmapped, own]
        · intro i e there
          by_cases own : i = n
          · rw [own] at there
            exact absurd ((Function.update_self ..).symm.trans there) (by rintro ⟨⟩)
          · exact owns.unswapped i e
              ((Function.update_of_ne (by simpa using own) ..).symm.trans there)
      · have ne : g ≠ f := by
          rintro rfl
          exact other here
        simp [unmapped, modify, ne]

/-- `get_pte` finds a page table or adds one, or there is no frame for it. -/
theorem getPte (owns : Owns all p₀ p mm spare) : ∃ found q, p.getPte mm la true = (found, q) ∧
    Owns all p₀ q mm spare ∧ q.data = p.data ∧
    (∀ n, q.pte (.user mm n) = p.pte (.user mm n)) ∧
    (∀ f, p.free f = false → q.page f = p.page f) ∧
    (∀ index, (q.table mm index).isSome = true →
      (p.table mm index).isSome = true ∨ index = pdx la) ∧
    (found = true → (q.table mm (pdx la)).isSome = true) := by
  have adds := @getPte_adds p mm la owns.backed true
  rcases answer : p.getPte mm la true with ⟨found, q⟩
  rw [answer] at adds
  refine ⟨found, q, rfl, ?_⟩
  unfold Pages.getPte at answer
  split at answer
  · rename_i there
    cases answer
    exact ⟨owns, rfl, fun _ => rfl, fun _ _ => rfl, fun _ => .inl, fun _ => there⟩
  · rename_i missing
    rw [Option.not_isSome_iff_eq_none] at missing
    rw [if_pos rfl] at answer
    split at answer
    · rename_i r alloc
      obtain ⟨grants, rfl⟩ := allocPage_none alloc
      cases answer
      exact ⟨owns.withGrants grants, rfl, fun _ => rfl, fun _ _ => rfl, fun _ => .inl,
        by rintro ⟨⟩⟩
    · rename_i g r alloc
      obtain ⟨isFree, grants, rfl⟩ := allocPage_some alloc
      cases answer
      have entries : ∀ n, clearTable (p := { p with
          free := Function.update p.free g false, grants := grants }) mm (pdx la) (.user mm n) =
            p.pte (.user mm n) := by
        intro n
        rw [clearTable]
        split
        · rename_i inside
          by_contra present
          have there := owns.backed mm n (Ne.symm present)
          rw [inside.2, missing] at there
          cases there
        · rfl
      refine ⟨owns.acquire (.table (pdx la)) isFree missing ?_ (fun h ne => ?_) rfl rfl ?_
        entries adds.backed, rfl, entries, fun f taken => ?_, fun index there => ?_, fun _ => ?_⟩
      · simp [modify]
      · simp [modify, ne]
      · funext place
        cases place with
        | spare => rfl
        | directory => rfl
        | page n => exact congrArg Pte.frame (entries n)
        | table index =>
            by_cases own : index = pdx la
            · simp [frameAt, own]
            · simp [frameAt, own]
      · have ne : f ≠ g := by
          rintro rfl
          rw [isFree] at taken
          cases taken
        simp [modify, ne]
      · by_cases own : index = pdx la
        · exact .inr own
        · simp only [Function.update_self, Function.update_of_ne own] at there
          exact .inl there
      · simp

/-- The reference count of a spare frame may change. -/
theorem countSpare (owns : Owns all p₀ p mm (some f)) : Owns all p₀ (p.pageRefInc f) mm (some f) := by
  have taken := owns.holdings.taken .spare f rfl
  have others : ∀ g, g ≠ f → (p.pageRefInc f).page g = p.page g :=
    fun g ne => Function.update_of_ne ne ..
  refine ⟨owns.holdings, owns.complete, fun g isBase => ?_, fun g isFree => ?_,
    fun n g perm entry => ?_, owns.unswapped, owns.backed, fun g notBase => ?_⟩
  · by_cases own : g = f
    · subst g
      simpa [pageRefInc, modify] using owns.flags f isBase
    · rw [others g own]
      exact owns.flags g isBase
  · rw [others g]
    · exact owns.clean g isFree
    · rintro rfl
      cases taken.2.symm.trans isFree
  · rw [others g]
    · exact owns.ref n g perm entry
    · rintro rfl
      cases owns.holdings.single .spare (.page n) g rfl (entry_frame entry)
  · rw [others g]
    · exact owns.kept g notBase
    · rintro rfl
      cases taken.1.symm.trans notBase

/-- The spare frame is mapped where no page is. -/
theorem mapSpare (owns : Owns all p₀ p mm (some f)) (ref : (p.page f).ref = 1)
    (empty : p.pte (.user mm n) = .zero) (backed : (p.writePte (.user mm n) (.present f perm)).Backed) :
    Owns all p₀ (p.writePte (.user mm n) (.present f perm)) mm none := by
  have held : (p.writePte (.user mm n) (.present f perm)).frameAt mm none =
      Function.update (Function.update (p.frameAt mm (some f)) .spare none) (.page n) (some f) := by
    funext place
    cases place with
    | spare => rfl
    | directory => rfl
    | table index => rfl
    | page i =>
        by_cases own : i = n
        · subst i
          simp [frameAt, writePte, Pte.frame]
        · simp [frameAt, writePte, own]
  have entries : ∀ i, (p.writePte (.user mm n) (.present f perm)).pte (.user mm i) =
      if i = n then .present f perm else p.pte (.user mm i) := by
    intro i
    by_cases own : i = n
    · simp [writePte, own]
    · simp [writePte, own]
  refine ⟨?_, fun isAll => ?_, owns.flags, owns.clean, fun i g perm' entry => ?_,
    fun i e entry => ?_, backed, owns.kept⟩
  · rw [held]
    exact owns.holdings.move rfl
  · rw [held]
    refine Holdings.complete_move (owns.complete isAll) rfl ?_
    rw [frameAt, empty]
    rfl
  · rw [entries] at entry
    split at entry
    · cases entry
      exact ref
    · exact owns.ref i g perm' entry
  · rw [entries] at entry
    split at entry
    · cases entry
    · exact owns.unswapped i e entry

/-- `page_insert` of a spare frame: it is mapped, in place of what was mapped there, unless there
is no frame for a page table. -/
theorem pageInsert (owns : Owns all p₀ p mm (some f)) (low : la < 2 ^ 32)
    (ref : (p.page f).ref = 0) : ∃ ret q, p.pageInsert mm f la perm = .ok (ret, q) ∧
    q.data = p.data ∧ (∀ index, (q.table mm index).isSome = true →
      (p.table mm index).isSome = true ∨ index = pdx la) ∧
    ((ret ≠ 0 ∧ Owns all p₀ q mm (some f) ∧ ∀ n, q.pte (.user mm n) = p.pte (.user mm n)) ∨
      (ret = 0 ∧ Owns all p₀ q mm none ∧ ∀ n, q.pte (.user mm n) =
        if n = la / pgSize then .present f perm else p.pte (.user mm n))) := by
  obtain ⟨found, r, got, owns', data, entries, pages, tables, there⟩ := owns.getPte
  unfold Pages.pageInsert
  rw [got]
  cases found with
  | false => exact ⟨_, _, rfl, data, tables, .inl ⟨by decide, owns', entries⟩⟩
  | true =>
      have taken := (owns.holdings.taken .spare f rfl).2
      have counted := owns'.countSpare
      have one : ((r.pageRefInc f).page f).ref = 1 := by
        simp [pageRefInc, modify, pages f taken, ref]
      have notHere : (r.pageRefInc f).frameAt mm (some f) (.page (la / pgSize)) ≠ some f := by
        intro here
        cases counted.holdings.single .spare _ f rfl here
      obtain ⟨t, removed, owns'', pte, table, data', page⟩ := counted.removePte (n := la / pgSize)
      have index : (t.table mm (pdx la)).isSome = true := table ▸ there rfl
      have empty : t.pte (.user mm (la / pgSize)) = .zero := by rw [pte, Function.update_self]
      have adds := writePte_adds owns''.backed low index (.present f perm)
      refine ⟨0, _, bind_eq_ok_iff.mpr ⟨t, ?_, rfl⟩, data'.trans data, fun index => ?_,
        .inr ⟨rfl, ?_, fun n => ?_⟩⟩
      · -- what was mapped is removed, as it is not the frame itself
        cases entry : (r.pageRefInc f).pte (userSlot mm la) with
        | zero =>
            rw [Pages.removePte] at removed
            rw [userSlot] at entry
            rw [entry] at removed
            exact removed
        | swapped e => exact removed
        | present g perm' =>
            dsimp only
            rw [if_neg]
            · exact removed
            · rintro rfl
              exact notHere (entry_frame entry)
      · change (t.table mm index).isSome = true → _
        rw [table]
        exact tables index
      · exact owns''.mapSpare ((congrArg Page.ref (page f notHere)).trans one) empty adds.backed
      · rw [userSlot]
        by_cases own : n = la / pgSize
        · rw [if_pos own, own, writePte_pte_self]
        · rw [if_neg own, writePte_pte_of_ne _ _ (by simpa using own), pte,
            Function.update_of_ne (by simpa using own)]
          exact entries n

/-- `pgdir_alloc_page` maps a frame that was free, or there is no memory. -/
theorem pgdirAllocPage (owns : Owns all p₀ p mm none) (low : la < 2 ^ 32) :
    ∃ found q, p.pgdirAllocPage mm la perm = .ok (found, q) ∧ Owns all p₀ q mm none ∧
      q.data = p.data ∧ (∀ index, (q.table mm index).isSome = true →
        (p.table mm index).isSome = true ∨ index = pdx la) ∧
      (found = none → ∀ n, q.pte (.user mm n) = p.pte (.user mm n)) ∧
      ∀ f, found = some f → p.free f = true ∧ ∀ n, q.pte (.user mm n) =
        if n = la / pgSize then .present f perm else p.pte (.user mm n) := by
  unfold Pages.pgdirAllocPage
  rcases answer : p.allocPage with ⟨found, r⟩
  cases found with
  | none =>
      obtain ⟨grants, rfl⟩ := allocPage_none answer
      exact ⟨none, _, rfl, owns.withGrants grants, rfl, fun _ => .inl, fun _ _ => rfl,
        by rintro f ⟨⟩⟩
  | some f =>
      obtain ⟨isFree, grants, rfl⟩ := allocPage_some answer
      obtain ⟨ret, q, inserted, data, tables, outcome⟩ :=
        (owns.takeSpare isFree grants).pageInsert low (owns.clean f isFree)
      rcases outcome with ⟨failed, owns', entries⟩ | ⟨rfl, owns', entries⟩
      · obtain ⟨t, freed, owns'', pte, table, data'⟩ := owns'.freeSpare
        refine ⟨none, t, bind_eq_ok_iff.mpr ⟨_, inserted, ?_⟩, owns'', data'.trans data, ?_,
          fun _ n => ?_, by rintro g ⟨⟩⟩
        · exact (if_pos failed).trans (bind_eq_ok_iff.mpr ⟨t, freed, rfl⟩)
        · rw [table]
          exact tables
        · rw [pte]
          exact entries n
      · exact ⟨some f, q, bind_eq_ok_iff.mpr ⟨_, inserted, rfl⟩, owns', data, tables,
          by rintro ⟨⟩, by rintro g ⟨⟩; exact ⟨isFree, entries⟩⟩

/-- The bytes of a frame that is held may change. -/
theorem withData (owns : Owns all p₀ p mm spare) {place : Place}
    (here : p.frameAt mm spare place = some f) (bytes : Nat → Nat) :
    Owns all p₀ { p with data := Function.update p.data f bytes } mm spare := by
  refine ⟨owns.holdings, owns.complete, owns.flags, owns.clean, owns.ref, owns.unswapped,
    owns.backed, fun g notBase => ⟨(owns.kept g notBase).1, ?_⟩⟩
  rw [← (owns.kept g notBase).2]
  refine Function.update_of_ne ?_ ..
  rintro rfl
  cases (owns.holdings.taken place g here).1.symm.trans notBase

/-! ## exit_mmap and put_pgdir -/

theorem unmapLoop {stop fuel : Nat} (owns : Owns all p₀ p mm none) :
    ∃ q, Pages.unmapLoop mm stop fuel la p = .ok q ∧ Owns all p₀ q mm none := by
  induction fuel generalizing la p with
  | zero => exact ⟨p, rfl, owns⟩
  | succ fuel ih =>
      have first : ∃ r, (if (p.table mm (pdx la)).isSome = true ∧ p.pte (userSlot mm la) ≠ .zero then
          p.pageRemovePte mm la else .ok p) = .ok r ∧ Owns all p₀ r mm none := by
        split
        · obtain ⟨r, removed, owns', _⟩ := owns.removePte (n := la / pgSize)
          exact ⟨r, removed, owns'⟩
        · exact ⟨p, rfl, owns⟩
      obtain ⟨r, removed, owns'⟩ := first
      by_cases more : p.walkNext mm la ≠ 0 ∧ p.walkNext mm la < stop
      · obtain ⟨q, done, owns''⟩ := @ih r (p.walkNext mm la) owns'
        exact ⟨q, bind_eq_ok_iff.mpr ⟨r, removed, (if_pos more).trans done⟩, owns''⟩
      · exact ⟨r, bind_eq_ok_iff.mpr ⟨r, removed, if_neg more⟩, owns'⟩

theorem unmapRange {start stop : Nat} (owns : Owns all p₀ p mm none)
    (range : Vm.UserRange start stop) :
    ∃ q, p.unmapRange mm start stop = .ok q ∧ Owns all p₀ q mm none ∧ p.Cleared q mm start stop ∧
      q.table = p.table := by
  obtain ⟨base, less, top, aligned, aligned'⟩ := range
  have ok : rangeOk start stop = true := by
    simp [rangeOk, userAccess, base, less, top, aligned, aligned']
  obtain ⟨q, done, owns'⟩ := owns.unmapLoop
   
  have result : p.unmapRange mm start stop = .ok q := by
    rw [Pages.unmapRange, if_pos ok]
    exact done
  exact ⟨q, result, owns', unmapRange_cleared owns.backed result,
    (unmapRange_spec owns.backed result).2.1⟩

/-- The entries of a page table are dropped. -/
theorem clearEntries (owns : Owns all p₀ p mm spare)
    (empty : all → ∀ n, p.pte (.user mm n) = .zero) (index : Nat) :
    Owns all p₀ { p with pte := p.clearTable mm index } mm spare := by
  have entries : ∀ n entry, p.clearTable mm index (.user mm n) = entry → entry ≠ .zero →
      p.pte (.user mm n) = entry := by
    intro n entry there nonzero
    rw [clearTable] at there
    split at there
    · exact absurd there.symm nonzero
    · exact there
  refine ⟨owns.holdings.forget fun place f here => ?_, fun isAll => ?_, owns.flags, owns.clean,
    fun n f perm entry => owns.ref n f perm (entries n _ entry (by rintro ⟨⟩)),
    fun n e entry => owns.unswapped n e (entries n _ entry (by rintro ⟨⟩)),
    fun mm' n present => ?_, owns.kept⟩
  · cases place with
    | spare => exact here
    | directory => exact here
    | table i => exact here
    | page n =>
        change (p.clearTable mm index (.user mm n)).frame = some f at here
        cases entry : p.clearTable mm index (.user mm n) with
        | zero =>
            rw [entry] at here
            cases here
        | swapped e => exact absurd (entries n _ entry (by rintro ⟨⟩)) (owns.unswapped n e)
        | present g perm =>
            rw [entry] at here
            cases here
            exact entry_frame (entries n _ entry (by rintro ⟨⟩))
  · intro f isBase taken
    obtain ⟨place, here⟩ := owns.complete isAll f isBase taken
    refine ⟨place, ?_⟩
    cases place with
    | spare => exact here
    | directory => exact here
    | table i => exact here
    | page n =>
        rw [frameAt, empty isAll n] at here
        cases here
  · refine owns.backed mm' n fun zero => present ?_
    change p.clearTable mm index (.user mm' n) = .zero
    rw [clearTable]
    split
    · rfl
    · exact zero

/-- A page table is given back. -/
theorem freeTable (owns : Owns all p₀ p mm none) (empty : all → ∀ n, p.pte (.user mm n) = .zero)
    {index : Nat} (here : p.table mm index = some f) :
    ∃ r, p.freePage f = .ok r ∧ Owns all p₀ { r with
      table := Function.update r.table mm (Function.update (r.table mm) index none)
      pte := r.clearTable mm index } mm none ∧
      ∀ i, r.table mm i = p.table mm i := by
  have cleared := owns.clearEntries empty index
  have flags := cleared.flags
  refine ⟨_, owns.freePage_eq (.table index) here, ?_, fun _ => rfl⟩
  refine cleared.release (.table index) here (fun g isBase => ?_) ?_ (fun g ne => ?_) rfl
    rfl ?_ (fun _ _ _ => id) cleared.unswapped fun mm' n present => ?_
  · by_cases own : g = f
    · subst g
      simpa [modify] using (flags f isBase).1
    · simpa [modify, own] using flags g isBase
  · simp [modify]
  · simp [modify, ne]
  · funext place
    cases place with
    | spare => rfl
    | directory => rfl
    | page n => rfl
    | table i =>
        by_cases own : i = index
        · simp [frameAt, own]
        · simp [frameAt, own, modify]
  · have there := cleared.backed mm' n present
    by_cases own : mm' = mm ∧ n / 1024 = index
    · exact absurd (if_pos own) present
    · dsimp only
      by_cases same : mm' = mm
      · subst same
        rw [Function.update_self, Function.update_of_ne fun i => own ⟨rfl, i⟩]
        exact there
      · rw [Function.update_of_ne same]
        exact there

/-- A round of `exit_range` gives back a page table, if there is one. -/
theorem exitTable (owns : Owns all p₀ p mm none) (empty : all → ∀ n, p.pte (.user mm n) = .zero)
    (index : Nat) : ∃ r, (match p.table mm index with
      | none => Except.ok p
      | some f => do
          let p ← p.freePage f
          return { p with
            table := Function.update p.table mm (Function.update (p.table mm) index none)
            pte := p.clearTable mm index }) = .ok r ∧ Owns all p₀ r mm none ∧
      (∀ n, p.pte (.user mm n) = .zero → r.pte (.user mm n) = .zero) ∧
      ∀ i, r.table mm i = if i = index then none else p.table mm i := by
  cases here : p.table mm index with
  | none =>
      refine ⟨p, rfl, owns, fun _ => id, fun i => ?_⟩
      split
      · rename_i own
        exact own ▸ here
      · rfl
  | some f =>
      obtain ⟨r, freed, owns', table⟩ := owns.freeTable empty here
      refine ⟨_, bind_eq_ok_iff.mpr ⟨r, freed, rfl⟩, owns', fun n zero => ?_, fun i => ?_⟩
      · change r.clearTable mm index (.user mm n) = .zero
        rw [clearTable]
        split
        · rfl
        · rw [pte_of_tables (freePage_tables freed)]
          exact zero
      · by_cases own : i = index
        · simp [own]
        · simp [own, table]

/-- The loop of `exit_range` gives back the page tables of the range. -/
theorem exitLoop {stop fuel : Nat} (owns : Owns all p₀ p mm none)
    (empty : all → ∀ n, p.pte (.user mm n) = .zero) (aligned : la % ptSize = 0) (less : la < stop)
    (top : stop ≤ userTop) (enough : stop ≤ la + fuel * ptSize) :
    ∃ q, Pages.exitLoop mm stop fuel la p = .ok q ∧ Owns all p₀ q mm none ∧
      (all → ∀ n, q.pte (.user mm n) = .zero) ∧
      ∀ index, (q.table mm index).isSome = true →
        (p.table mm index).isSome = true ∧ ¬(la ≤ index * ptSize ∧ index * ptSize < stop) := by
  induction fuel generalizing la p with
  | zero => omega
  | succ fuel ih =>
      have size : ptSize = 4194304 := rfl
      have low : la + ptSize < 2 ^ 32 := by
        unfold userTop at top
        omega
      have small : la / ptSize < 1024 := by
        rw [size] at low ⊢
        omega
      have here : la / ptSize * ptSize = la := by
        rw [size] at aligned ⊢
        omega
      have next : add32 la ptSize = la + ptSize := Nat.mod_eq_of_lt low
      obtain ⟨r, removed, owns', zero, table⟩ := owns.exitTable empty (pdx la)
      have empty' : all → ∀ n, r.pte (.user mm n) = .zero := fun isAll n => zero n (empty isAll n)
      rw [pdx, Nat.mod_eq_of_lt small] at table
      have first : ∀ index, (r.table mm index).isSome = true →
          (p.table mm index).isSome = true ∧ index ≠ la / ptSize := by
        intro index there
        rw [table] at there
        split at there
        · cases there
        · exact ⟨there, ‹_›⟩
      -- there is no other table that begins before the next one
      have apart : ∀ index, index ≠ la / ptSize → la ≤ index * ptSize →
          la + ptSize ≤ index * ptSize := by
        intro index other after
        rw [size] at *
        omega
      by_cases more : add32 la ptSize ≠ 0 ∧ add32 la ptSize < stop
      · obtain ⟨q, done, owns'', empty'', left⟩ := ih owns' empty'
          (by rw [next, Nat.add_mod_right, aligned]) more.2
          (by rw [next]; rw [Nat.succ_mul] at enough; omega)
        refine ⟨q, bind_eq_ok_iff.mpr ⟨r, removed, (if_pos more).trans done⟩, owns'', empty'',
          fun index there => ?_⟩
        obtain ⟨before, outside⟩ := left index there
        obtain ⟨before', other⟩ := first index before
        refine ⟨before', fun inside => outside ⟨?_, inside.2⟩⟩
        rw [next]
        exact apart index other inside.1
      · refine ⟨r, bind_eq_ok_iff.mpr ⟨r, removed, if_neg more⟩, owns', empty',
          fun index there => ?_⟩
        obtain ⟨before, other⟩ := first index there
        refine ⟨before, fun inside => more ⟨?_, ?_⟩⟩
        · rw [next, size]
          omega
        · rw [next]
          exact (apart index other inside.1).trans_lt inside.2

theorem exitRange {start stop : Nat} (owns : Owns all p₀ p mm none)
    (empty : all → ∀ n, p.pte (.user mm n) = .zero) (range : Vm.UserRange start stop) :
    ∃ q, p.exitRange mm start stop = .ok q ∧ Owns all p₀ q mm none ∧
      (all → ∀ n, q.pte (.user mm n) = .zero) ∧
      ∀ index, (q.table mm index).isSome = true → (p.table mm index).isSome = true ∧
        ¬(start / ptSize ≤ index ∧ index * ptSize < stop) := by
  obtain ⟨base, less, top, aligned, aligned'⟩ := range
  have ok : rangeOk start stop = true := by
    simp [rangeOk, userAccess, base, less, top, aligned, aligned']
  have size : ptSize = 4194304 := rfl
  have down : roundDown start ptSize = start / ptSize * ptSize := by
    unfold roundDown
    rw [size]
    omega
  have multiple : roundDown start ptSize % ptSize = 0 := by rw [down, Nat.mul_mod_left]
  have enough : stop ≤ roundDown start ptSize + 1024 * ptSize := by
    unfold userTop at top
    rw [size]
    omega
  obtain ⟨q, done, owns', empty', left⟩ :=
    owns.exitLoop empty multiple ((Nat.sub_le ..).trans_lt less) top enough
  refine ⟨q, ?_, owns', empty', fun index there => ?_⟩
  · rw [Pages.exitRange, if_pos ok]
    exact done
  · obtain ⟨before, outside⟩ := left index there
    refine ⟨before, fun inside => outside ⟨?_, inside.2⟩⟩
    rw [down]
    exact Nat.mul_le_mul_right _ inside.1

/-- `put_pgdir` gives back the last frame. -/
theorem putPgdir (owns : Owns all p₀ p mm none) :
    ∃ q, p.putPgdir mm = .ok q ∧
      (all → (∀ n, p.pte (.user mm n) = .zero) → (∀ index, p.table mm index = none) →
        q.free = p₀.free) ∧
      ∀ f, p₀.free f = false → q.page f = p₀.page f ∧ q.data f = p₀.data f := by
  have here : p.frameAt mm none .directory = some (p.pgdir mm) := rfl
  refine ⟨_, owns.freePage_eq _ here, fun isAll empty noTable => ?_, fun f notBase => ?_⟩
  · have returned := owns.holdings.release here
    refine returned.returned (Holdings.complete_release (owns.complete isAll) here) fun place => ?_
    cases place with
    | directory => exact Function.update_self ..
    | spare => rfl
    | table index => exact noTable index
    | page n =>
        change (p.pte (.user mm n)).frame = none
        rw [empty n]
        rfl
  · have ne : f ≠ p.pgdir mm := by
      rintro rfl
      cases (owns.holdings.taken _ _ here).1.symm.trans notBase
    simpa [modify, ne] using owns.kept f notBase

/-- The address space begins with a page directory. -/
theorem setupPgdir {p : Pages} (mm : MmPtr) (clean : ∀ f, p.free f = true →
      (p.page f).reserved = false ∧ (p.page f).swap = false ∧ (p.page f).ref = 0)
    (backed : p.Backed) (all : Prop) :
    (∃ grants, p.setupPgdir mm = (-eNoMem, { p with grants := grants })) ∨
      ∃ q, p.setupPgdir mm = (0, q) ∧ Owns all p q mm none ∧
        (∀ n, q.pte (.user mm n) = .zero) ∧ (∀ index, q.table mm index = none) ∧
        q.data = p.data := by
  rcases answer : p.allocPage with ⟨found, r⟩
  cases found with
  | none =>
      obtain ⟨grants, rfl⟩ := allocPage_none answer
      exact .inl ⟨grants, by rw [Pages.setupPgdir, answer]⟩
  | some f =>
      obtain ⟨isFree, grants, rfl⟩ := allocPage_some answer
      right
      rw [Pages.setupPgdir, answer]
      refine ⟨withDirectory { p with free := Function.update p.free f false, grants := grants } mm f,
        rfl, ?_, fun n => if_pos rfl, fun index => ?_, rfl⟩
      · have held : frameAt (withDirectory { p with
            free := Function.update p.free f false, grants := grants } mm f) mm none =
          Function.update (fun _ => none) .directory (some f) := by
          funext place
          cases place with
          | spare => rfl
          | directory => simp [frameAt, withDirectory]
          | table index => simp [frameAt, withDirectory]
          | page n => simp [frameAt, withDirectory, Pte.frame]
        refine ⟨?_, fun _ => ?_, fun g isFree' => ?_, fun g isFree' => ?_, fun n g perm entry => ?_,
          fun n e entry => ?_, fun mm' n present => ?_, fun _ _ => ⟨rfl, rfl⟩⟩
        · rw [held]
          exact (Holdings.start p.free).acquire isFree
        · rw [held]
          exact Holdings.complete_acquire (Holdings.complete_start p.free) rfl
        · exact ⟨(clean g isFree').1, (clean g isFree').2.1⟩
        · by_cases own : g = f
          · exact own ▸ (clean f isFree).2.2
          · exact (clean g ((Function.update_of_ne own ..).symm.trans isFree')).2.2
        · cases (if_pos rfl).symm.trans entry
        · cases (if_pos rfl).symm.trans entry
        · by_cases own : mm' = mm
          · exact absurd (if_pos own) present
          · have before : p.pte (.user mm' n) ≠ .zero := fun zero =>
              present ((if_neg own).trans zero)
            change (Function.update p.table mm (fun _ => none) mm' (n / 1024)).isSome = true
            rw [Function.update_of_ne own]
            exact backed mm' n before
      · simp [withDirectory]

end Owns

end Pages

end EdfKernel.Mm
