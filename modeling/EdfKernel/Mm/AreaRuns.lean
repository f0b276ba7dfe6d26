import EdfKernel.Mm.AreaInvariant
import EdfKernel.Mm.LoadSafety

/-!
# Runs of calls on sets of areas

Address spaces are made, copied, shared and left.  In every state that calls, page faults,
evictions and accesses reach, with whatever answers of `kmalloc` and `alloc_page`, the areas of
each address space are a consistent set and its entries lie within them.
-/

namespace EdfKernel.Mm

open Library

/-- An event, or a call of `dup_mmap` on its own, with what `kmalloc` and `alloc_page` answer
during it. -/
inductive Call
  | event (i : Input)
  | dup (target source : MmPtr) (answers : Input)
  deriving Repr

namespace Memory

variable {m m' : Memory} {mm other : MmPtr}

/-! ## Address spaces -/

/-- `mm_create` makes an address space that was not there, without areas. -/
theorem mmCreate_touches {found : Option MmPtr} (backed : m.pages.Backed)
    (created : m.mmCreate = (found, m')) :
    (found = none ∧ ∃ grants, m' = { m with vm := { m.vm with grants := grants } }) ∨
      ∃ mm, found = some mm ∧ m.vm.mmUsed mm = false ∧ m.Touches m' mm ∧
        m'.pages = m.pages ∧ m'.vm.VmaSet mm ∧ m'.vm.areas mm = [] := by
  rcases @mmCreate_fresh m with ⟨grants, isNone⟩ | ⟨mm, n, isSome, pages, fresh, empty, _⟩
  · rw [isNone] at created
    cases created
    exact .inl ⟨rfl, grants, rfl⟩
  · rw [isSome] at created
    cases created
    refine .inr ⟨mm, rfl, fresh.mmUsed.1, ⟨fun other ne owns => ?_, ?_⟩, pages, fresh.set, empty⟩
    · refine ⟨fresh.other other ne, ?_, fun v mem => ?_⟩
      · rw [fresh.mmUsed.2, Function.update_of_ne ne]
      · have isUsed := (owns v mem).1
        refine ⟨fresh.old v isUsed, ?_⟩
        rw [isUsed]
        exact (fresh.vmaUsed v).mpr (.inl isUsed)
    · rw [pages]
      exact .refl backed

theorem setupPgdir_adds {p p' : Pages} {ret : Int} (backed : p.Backed)
    (done : p.setupPgdir mm = (ret, p')) : p.Adds p' Pages.nowhere ∧
      (ret = 0 → ∀ page, p'.pte (.user mm page) = .zero) := by
  have alloc := p.allocPage_tables
  unfold Pages.setupPgdir at done
  rcases answer : p.allocPage with ⟨found, q⟩
  rw [answer] at done alloc
  cases found with
  | none =>
      cases done
      exact ⟨.of_tables backed alloc, by simp [eNoMem]⟩
  | some f =>
      cases done
      have pte := Pages.pte_of_tables alloc
      have table := Pages.table_of_tables alloc
      simp only at pte table
      refine ⟨⟨fun other page present => ?_, fun other page present => .inl ?_⟩, fun _ page => ?_⟩
      · by_cases own : other = mm
        · simp [own] at present
        · simp only [if_neg own, pte] at present
          simp only [Function.update_of_ne own, table]
          exact backed other page present
      · by_cases own : other = mm
        · simp [own] at present
        · simp only [if_neg own, pte] at present
          exact present
      · simp

theorem destroyVmas_avoids {list : List VmaPtr} : Avoids .vmaOverlap (destroyVmas list m) := by
  induction list generalizing m with
  | nil => simp [destroyVmas]
  | cons v rest ih => exact .bind vmaDestroy_avoids fun _ _ => ih

/-- The loop of `mm_destroy` gives areas and references back, and changes no address space and no
entry of one. -/
theorem destroyVmas_frame {list : List VmaPtr} (done : destroyVmas list m = .ok m') :
    m'.vm.mm = m.vm.mm ∧ m'.vm.mmUsed = m.vm.mmUsed ∧
      m'.pages.userTables = m.pages.userTables := by
  induction list generalizing m with
  | nil =>
      cases done
      exact ⟨rfl, rfl, rfl⟩
  | cons v rest ih =>
      obtain ⟨n, destroyed, done⟩ := bind_eq_ok_iff.mp done
      have mm := (vmaDestroy_frame destroyed).2.1
      obtain ⟨mm', mmUsed, tables⟩ := ih done
      exact ⟨mm'.trans mm, mmUsed.trans (vmaDestroy_mmUsed destroyed),
        tables.trans (vmaDestroy_frame destroyed).2.2.2⟩

theorem destroyVmas_spares {list : List VmaPtr} (notThere : ∀ v ∈ list, v ∉ m.vm.areas other)
    (done : destroyVmas list m = .ok m') : m.vm.Spares m'.vm other := by
  induction list generalizing m with
  | nil =>
      cases done
      exact .refl _ _
  | cons v rest ih =>
      obtain ⟨n, destroyed, done⟩ := bind_eq_ok_iff.mp done
      have spares := vmaDestroy_spares (notThere v List.mem_cons_self) destroyed
      refine spares.trans (ih (fun w mem => ?_) done)
      rw [spares.areas]
      exact notThere w (List.mem_cons_of_mem v mem)

theorem mmDestroy_avoids : Avoids .vmaOverlap (m.mmDestroy mm) := by
  unfold mmDestroy
  split
  · exact .bind destroyVmas_avoids fun _ _ => .pure _
  · simp

/-- `mm_destroy` gives an address space back. -/
theorem mmDestroy_frame (owns : m.vm.Owns mm) (done : m.mmDestroy mm = .ok m') :
    (∀ other, other ≠ mm → m.vm.Owns other → m.vm.Spares m'.vm other) ∧
      m'.pages.userTables = m.pages.userTables ∧
      m'.vm.mmUsed mm = false ∧ m'.vm.areas mm = [] := by
  unfold mmDestroy at done
  split at done
  · obtain ⟨n, destroyed, rest⟩ := bind_eq_ok_iff.mp done
    cases rest
    refine ⟨fun other ne owns' => ?_, (destroyVmas_frame destroyed).2.2, Function.update_self ..,
      ?_⟩
    · have apart : ∀ v ∈ m.vm.areas mm, v ∉ m.vm.areas other :=
        fun v mem mem' => ne ((owns' v mem').2.symm.trans (owns v mem).2)
      have drops : ∀ change, n.vm.Spares { n.vm.modifyMm mm change with
          mmUsed := Function.update n.vm.mmUsed mm false } other :=
        fun change => ⟨Vm.modifyMm_mm_of_ne n.vm change ne, Function.update_of_ne ne ..,
          fun v _ => ⟨rfl, rfl⟩⟩
      exact (destroyVmas_spares apart destroyed).trans (drops _)
    · have self := @Vm.modifyMm_mm_self n.vm mm fun s =>
        { s with mmapList := [], mmapTree := none, mmapCache := none }
      exact congrArg MmStruct.mmapList self
  · cases done

/-- The first loop of `exit_mmap`. -/
theorem unmapAll_adds {list : List VmaPtr} {p p' : Pages} (backed : p.Backed)
    (done : m.unmapAll mm list p = .ok p') :
    p.Adds p' Pages.nowhere ∧ ∀ page,
      (∃ v ∈ list, m.vm.lo v ≤ page * pgSize ∧ page * pgSize < m.vm.hi v) →
        p'.pte (.user mm page) = .zero := by
  induction list generalizing p with
  | nil =>
      cases done
      exact ⟨.refl backed, by simp⟩
  | cons v rest ih =>
      obtain ⟨q, unmapped, done⟩ := bind_eq_ok_iff.mp done
      obtain ⟨adds, _, inside⟩ := Pages.unmapRange_spec backed unmapped
      obtain ⟨adds', inside'⟩ := ih adds.backed done
      refine ⟨adds.trans adds', fun page => ?_⟩
      rintro ⟨w, mem, from_, upTo⟩
      rcases List.mem_cons.mp mem with rfl | later
      · exact adds'.zero (inside page from_ upTo)
      · exact inside' page ⟨w, later, from_, upTo⟩

theorem unmapAll_avoids {list : List VmaPtr} {p : Pages} :
    Avoids .vmaOverlap (m.unmapAll mm list p) := by
  induction list generalizing p with
  | nil => simp [unmapAll]
  | cons v rest ih => exact .bind Pages.unmapRange_avoids fun _ _ => ih

/-- The second loop of `exit_mmap`. -/
theorem exitAll_adds {list : List VmaPtr} {p p' : Pages} (backed : p.Backed)
    (done : m.exitAll mm list p = .ok p') : p.Adds p' Pages.nowhere := by
  induction list generalizing p with
  | nil =>
      cases done
      exact .refl backed
  | cons v rest ih =>
      obtain ⟨q, exited, done⟩ := bind_eq_ok_iff.mp done
      have adds := Pages.exitRange_adds backed exited
      exact adds.trans (ih adds.backed done)

theorem exitAll_avoids {list : List VmaPtr} {p : Pages} :
    Avoids .vmaOverlap (m.exitAll mm list p) := by
  induction list generalizing p with
  | nil => simp [exitAll]
  | cons v rest ih => exact .bind Pages.exitRange_avoids fun _ _ => ih

theorem exitMmap_avoids : Avoids .vmaOverlap (m.exitMmap mm) := by
  unfold exitMmap
  split
  · exact .bind unmapAll_avoids fun _ _ => .bind exitAll_avoids fun _ _ => .pure _
  · simp

/-- `exit_mmap` leaves no entry of the address space. -/
theorem exitMmap_adds (formed : m.WellFormed mm) (done : m.exitMmap mm = .ok m') :
    m'.vm = m.vm ∧ m.pages.Adds m'.pages Pages.nowhere ∧
      ∀ page, m'.pages.pte (.user mm page) = .zero := by
  unfold exitMmap at done
  split at done
  · obtain ⟨p, unmapped, done⟩ := bind_eq_ok_iff.mp done
    obtain ⟨q, exited, done⟩ := bind_eq_ok_iff.mp done
    cases done
    obtain ⟨adds, inside⟩ := unmapAll_adds formed.backed unmapped
    have adds' := exitAll_adds adds.backed exited
    refine ⟨rfl, adds.trans adds', fun page => adds'.zero ?_⟩
    by_cases before : m.pages.pte (.user mm page) = .zero
    · exact adds.zero before
    · obtain ⟨lo, flags, v, mem, rfl, from_, upTo, _⟩ := formed.inside page before
      exact inside page ⟨v, mem, from_, upTo⟩
  · cases done

/-- What `do_execve`, `__do_exit` and a `copy_mm` that fails do with an address space that nobody
uses. -/
def endMm (m : Memory) (mm : MmPtr) : Except Panic Memory := do
  let m ← m.exitMmap mm
  let pages ← m.pages.putPgdir mm
  { m with pages := pages }.mmDestroy mm

theorem endMm_avoids : Avoids .vmaOverlap (m.endMm mm) :=
  .bind exitMmap_avoids fun _ _ => .bind Pages.freePage_avoids fun _ _ => mmDestroy_avoids

/-- An address space that ends leaves no area and no entry. -/
theorem endMm_touches (formed : m.WellFormed mm) (done : m.endMm mm = .ok m') :
    m.Touches m' mm ∧ m'.vm.mmUsed mm = false ∧ m'.vm.areas mm = [] ∧
      ∀ page, m'.pages.pte (.user mm page) = .zero := by
  obtain ⟨n, exited, done⟩ := bind_eq_ok_iff.mp done
  obtain ⟨p, freed, done⟩ := bind_eq_ok_iff.mp done
  obtain ⟨vm, adds, zero⟩ := exitMmap_adds formed exited
  have free : n.pages.Adds p Pages.nowhere := .of_tables adds.backed (Pages.freePage_tables freed)
  have owns : ({ n with pages := p } : Memory).vm.Owns mm := vm ▸ formed.set.owned
  obtain ⟨spares, same, gone, empty⟩ := mmDestroy_frame owns done
  have all := (adds.trans free).trans (.of_userTables free.backed same)
  refine ⟨⟨fun other ne owns' => ?_, all.of_nowhere⟩, gone, empty, fun page => ?_⟩
  · rw [← vm] at owns' ⊢
    exact spares other ne owns'
  · exact Pages.Adds.zero (.of_userTables free.backed same) (free.zero (zero page))

/-- An address space of whose areas there are none, and which is gone, leaves the others formed. -/
theorem Formed.of_gone (formed : m.Formed) (touches : m.Touches m' mm)
    (gone : m'.vm.mmUsed mm = false) (empty : m'.vm.areas mm = []) : m'.Formed := by
  refine formed.of_touches touches (fun v mem => ?_) fun used => ?_
  · rw [empty] at mem
    cases mem
  · rw [gone] at used
    cases used

/-- An address space without areas and entries is well formed. -/
theorem WellFormed.of_empty (set : m.vm.VmaSet mm) (backed : m.pages.Backed)
    (zero : ∀ page, m.pages.pte (.user mm page) = .zero) : m.WellFormed mm :=
  ⟨set, backed, fun page present => absurd (zero page) present⟩

/-- What `mm_create` and `setup_pgdir` leave of a memory, when they succeed: an address space
without areas and entries. -/
structure Makes (m m' : Memory) (mm : MmPtr) : Prop where
  fresh : m.vm.mmUsed mm = false
  touches : m.Touches m' mm
  empty : m'.vm.areas mm = []
  wellFormed : m'.WellFormed mm

theorem Formed.of_makes (formed : m.Formed) (makes : m.Makes m' mm) : m'.Formed :=
  formed.of_wellFormed makes.touches makes.wellFormed

/-- The other address spaces are as they were. -/
theorem Makes.source {source : MmPtr} (makes : m.Makes m' mm) (formed : m.Formed)
    (used : m.vm.mmUsed source = true) : source ≠ mm ∧ m'.vm.VmaSet source := by
  have ne : source ≠ mm := by
    rintro rfl
    rw [makes.fresh] at used
    cases used
  exact ⟨ne, (makes.touches.spares source ne (formed.owns source)).vmaSet
    (formed.wellFormed source used).set⟩

/-- `mm_count_inc`. -/
theorem Formed.counted (formed : m.Formed) (before : m.WellFormed mm)
    {change : MmStruct → MmStruct}
    (same : ∀ s, (change s).mmapList = s.mmapList ∧ (change s).mmapTree = s.mmapTree ∧
      (change s).mapCount = s.mapCount ∧ (change s).mmapCache = s.mmapCache) :
    ({ m with vm := m.vm.modifyMm mm change } : Memory).Formed :=
  formed.of_keepsSet_nowhere before (Vm.modifyMm_keepsSet same) (.refl formed.backed)

/-- The first calls of `load_icode` and of `copy_mm`. -/
theorem create_setup_formed {found : Option MmPtr} {n : Memory} (formed : m.Formed)
    (created : m.mmCreate = (found, n)) :
    (found = none → n.Formed) ∧ ∀ mm, found = some mm → ∀ ret p, n.pages.setupPgdir mm = (ret, p) →
      (ret = 0 → m.Makes { n with pages := p } mm) ∧
      ∀ m', ({ n with pages := p } : Memory).mmDestroy mm = .ok m' → m'.Formed := by
  rcases mmCreate_touches formed.backed created with
    ⟨rfl, grants, rfl⟩ | ⟨mm, rfl, fresh, touches, pages, set, empty⟩
  · exact ⟨fun _ => formed.of_segments rfl rfl rfl rfl rfl, by rintro mm ⟨⟩⟩
  · refine ⟨by rintro ⟨⟩, fun mm' isMm ret p setup => ?_⟩
    cases isMm
    obtain ⟨adds, zero⟩ := setupPgdir_adds touches.adds.backed setup
    have touches' : m.Touches { n with pages := p } mm :=
      ⟨touches.spares, touches.adds.trans adds.of_nowhere⟩
    refine ⟨fun ok => ⟨fresh, touches', empty, .of_empty set adds.backed (zero ok)⟩,
      fun m' done => ?_⟩
    have owns : ({ n with pages := p } : Memory).vm.Owns mm := set.owned
    obtain ⟨spares, same, gone, empty'⟩ := mmDestroy_frame owns done
    have after : ({ n with pages := p } : Memory).Touches m' mm :=
      ⟨spares, .of_userTables adds.backed same⟩
    exact formed.of_gone (touches'.trans after) gone empty'

theorem newMm_formed (formed : m.Formed) :
    Avoids .vmaOverlap m.newMm ∧ ∀ result, m.newMm = .ok result → result.2.Formed := by
  unfold newMm
  rcases created : m.mmCreate with ⟨found, n⟩
  obtain ⟨isNone, isSome⟩ := create_setup_formed formed created
  cases found with
  | none =>
      refine ⟨by simp, fun result done => ?_⟩
      cases done
      exact isNone rfl
  | some mm =>
      rcases setup : n.pages.setupPgdir mm with ⟨ret, p⟩
      obtain ⟨makes, failed⟩ := isSome mm rfl ret p setup
      simp only [setup]
      split
      · refine ⟨.bind mmDestroy_avoids fun _ _ => .pure _, fun result done => ?_⟩
        obtain ⟨m', destroyed, rest⟩ := bind_eq_ok_iff.mp done
        cases rest
        exact failed m' destroyed
      · rename_i ok
        have made := makes (not_not.mp ok)
        refine ⟨by simp, fun result done => ?_⟩
        cases done
        exact (formed.of_makes made).counted made.wellFormed fun s => ⟨rfl, rfl, rfl, rfl⟩

theorem dupVma_adds {v : VmaPtr} {target source : MmPtr} {result : Int × Memory}
    (backed : m.pages.Backed) (done : m.dupVma target source v = .ok result) :
    m.pages.Adds result.2.pages fun other _ => other = target := by
  unfold dupVma at done
  simp only at done
  split at done
  · cases done
    exact .refl backed
  · obtain ⟨vm₂, _, done⟩ := bind_eq_ok_iff.mp done
    obtain ⟨vm₃, _, done⟩ := bind_eq_ok_iff.mp done
    obtain ⟨⟨ret, pages⟩, copied, done⟩ := bind_eq_ok_iff.mp done
    cases done
    exact (Pages.copyRange_adds backed copied).mono fun _ _ inside => inside.1

theorem dupVmas_adds {list : List VmaPtr} {target source : MmPtr} {result : Int × Memory}
    (backed : m.pages.Backed) (done : dupVmas target source list m = .ok result) :
    m.pages.Adds result.2.pages fun other _ => other = target := by
  induction list generalizing m with
  | nil =>
      cases done
      exact .refl backed
  | cons v rest ih =>
      obtain ⟨⟨ret, n⟩, first, done⟩ := bind_eq_ok_iff.mp done
      have adds := dupVma_adds backed first
      simp only at done
      split at done
      · cases done
        exact adds
      · exact adds.trans (ih adds.backed done)

theorem dupMmap_touches {source : MmPtr} {result : Int × Memory} (backed : m.pages.Backed)
    (done : m.dupMmap mm source = .ok result) : m.Touches result.2 mm :=
  ⟨fun _ ne owns => dupVmas_spares ne owns done, dupVmas_adds backed done⟩

theorem copyMm_formed {source : MmPtr} (formed : m.Formed) (used : m.vm.mmUsed source = true) :
    Avoids .vmaOverlap (m.copyMm source) ∧
      ∀ result, m.copyMm source = .ok result → result.2.Formed := by
  unfold copyMm
  rcases created : m.mmCreate with ⟨found, n⟩
  obtain ⟨isNone, isSome⟩ := create_setup_formed formed created
  cases found with
  | none =>
      refine ⟨by simp, fun result done => ?_⟩
      cases done
      exact isNone rfl
  | some mm =>
      rcases setup : n.pages.setupPgdir mm with ⟨ret, p⟩
      obtain ⟨makes, failed⟩ := isSome mm rfl ret p setup
      simp only [setup]
      split
      · refine ⟨.bind mmDestroy_avoids fun _ _ => .pure _, fun result done => ?_⟩
        obtain ⟨m', destroyed, rest⟩ := bind_eq_ok_iff.mp done
        cases rest
        exact failed m' destroyed
      · rename_i ok
        have made := makes (not_not.mp ok)
        have formed' := formed.of_makes made
        obtain ⟨ne, set⟩ := made.source formed used
        have copies := fun result => @dupMmap_wellFormed { n with pages := p } mm source result
          made.wellFormed set ne made.empty
        constructor
        · refine .bind (copies (0, m)).1 fun ⟨ret, m₁⟩ _ => ?_
          simp only
          split
          · exact .bind exitMmap_avoids fun _ _ => .bind Pages.freePage_avoids fun _ _ =>
              .bind mmDestroy_avoids fun _ _ => .pure _
          · simp
        · intro result done
          obtain ⟨⟨ret, m₁⟩, dup, rest⟩ := bind_eq_ok_iff.mp done
          have own := (copies (ret, m₁)).2 dup
          have touches := dupMmap_touches formed'.backed dup
          simp only at rest
          split at rest
          · obtain ⟨m₂, exited, rest⟩ := bind_eq_ok_iff.mp rest
            obtain ⟨q, freed, rest⟩ := bind_eq_ok_iff.mp rest
            obtain ⟨m₃, destroyed, rest⟩ := bind_eq_ok_iff.mp rest
            cases rest
            have ended : m₁.endMm mm = .ok m₃ :=
              bind_eq_ok_iff.mpr ⟨m₂, exited, bind_eq_ok_iff.mpr ⟨q, freed, destroyed⟩⟩
            obtain ⟨after, gone, empty, _⟩ := endMm_touches own ended
            exact formed.of_gone ((made.touches.trans touches).trans after) gone empty
          · cases rest
            exact (formed'.of_wellFormed touches own).counted own fun s => ⟨rfl, rfl, rfl, rfl⟩

/-- The last process that leaves an address space ends it. -/
theorem leaveMm_formed (formed : m.Formed) (used : m.vm.mmUsed mm = true) :
    Avoids .vmaOverlap (m.leaveMm mm) ∧ ∀ m', m.leaveMm mm = .ok m' → m'.Formed := by
  have counted := @Formed.counted m mm formed (formed.wellFormed mm used)
    (fun s => { s with mmCount := s.mmCount - 1 }) fun s => ⟨rfl, rfl, rfl, rfl⟩
  unfold leaveMm
  simp only
  split
  · refine ⟨endMm_avoids, fun m' done => ?_⟩
    obtain ⟨touches, gone, empty, _⟩ := endMm_touches (counted.wellFormed mm used) done
    exact counted.of_gone touches gone empty
  · refine ⟨by simp, fun m' done => ?_⟩
    cases done
    exact counted

theorem Formed.supply (formed : m.Formed) (i : Input) : (m.supply i).Formed :=
  formed.of_segments rfl rfl rfl rfl rfl

/-! ## Steps and runs -/

/-- One call.  `dup_mmap` is only called for an address space without areas. -/
def call (m : Memory) : Call → Except Panic Memory
  | .event i => m.step i
  | .dup target source answers =>
      if m.vm.mmUsed target = true ∧ m.vm.mmUsed source = true ∧ source ≠ target ∧
          m.vm.areas target = [] then
        (·.2) <$> (m.supply answers).dupMmap target source
      else .ok m

/-- A memory without address spaces. -/
structure Blank (m : Memory) : Prop where
  mm : ∀ mm, m.vm.mmUsed mm = false ∧ m.vm.areas mm = []
  entries : ∀ mm page, m.pages.pte (.user mm page) = .zero

/-- A fallible part whose result becomes the memory. -/
theorem formed_bind {α : Type} {first : Except Panic α} {next : α → Memory}
    (avoids : Avoids .vmaOverlap first) (formed : ∀ value, first = .ok value → (next value).Formed) :
    Avoids .vmaOverlap (do
      let value ← first
      return next value) ∧
    ∀ m', (do
      let value ← first
      return next value) = .ok m' → m'.Formed := by
  refine ⟨.bind avoids fun _ _ => .pure _, fun m' done => ?_⟩
  obtain ⟨value, isValue, rest⟩ := bind_eq_ok_iff.mp done
  cases rest
  exact formed value isValue

/-- A call that also has an answer. -/
theorem formed_map {α : Type} {first : Except Panic (α × Memory)}
    (both : Avoids .vmaOverlap first ∧ ∀ result, first = .ok result → result.2.Formed) :
    Avoids .vmaOverlap ((·.2) <$> first) ∧
      ∀ m', ((·.2) <$> first) = .ok m' → m'.Formed := by
  refine ⟨.map _ both.1, fun m' done => ?_⟩
  obtain ⟨result, isResult, rfl⟩ := map_eq_ok_iff.mp done
  exact both.2 result isResult

theorem formed_ok (formed : m.Formed) : Avoids .vmaOverlap (.ok m : Except Panic Memory) ∧
    ∀ m', (.ok m : Except Panic Memory) = .ok m' → m'.Formed := by
  refine ⟨.ok _, fun m' done => ?_⟩
  cases done
  exact formed

theorem perform_formed {e : Event} (formed : m.Formed)
    (used : ∀ mm ∈ e.mm, m.vm.mmUsed mm = true) :
    Avoids .vmaOverlap (m.perform e) ∧ ∀ m', m.perform e = .ok m' → m'.Formed := by
  cases e with
  | new => exact formed_map (newMm_formed formed)
  | fork mm => exact formed_map (copyMm_formed formed (used mm rfl))
  | share mm =>
      exact formed_ok (@Formed.counted m mm formed (formed.wellFormed mm (used mm rfl))
        (fun s => { s with mmCount := s.mmCount + 1 }) fun s => ⟨rfl, rfl, rfl, rfl⟩)
  | leave mm => exact leaveMm_formed formed (used mm rfl)
  | map mm addr len flags =>
      exact formed_bind (Vm.mmMap_avoids (formed.wellFormed mm (used mm rfl)).set)
        fun ⟨_, _, _⟩ done => mmMap_formed formed (used mm rfl) done
  | shmem mm addr len flags => exact formed_map (doShmem_formed formed (used mm rfl))
  | mapShmem mm addr flags shmem =>
      exact formed_bind (Vm.mmMapShmem_avoids (formed.wellFormed mm (used mm rfl)).set)
        fun _ done => mmMapShmem_formed formed (used mm rfl) done
  | unmap mm addr len =>
      exact formed_map ⟨mmUnmap_avoids (formed.wellFormed mm (used mm rfl)),
        fun _ done => mmUnmap_formed formed (used mm rfl) done⟩
  | brk mm addr len =>
      exact formed_map ⟨(mmBrk_wellFormed (formed.wellFormed mm (used mm rfl))).1,
        fun _ done => mmBrk_formed formed (used mm rfl) done⟩
  | pgfault mm errorCode addr => exact formed_map (doPgfault_formed formed (used mm rfl))
  | load mm addr => exact formed_ok (userLoad_formed formed)
  | store mm addr value => exact formed_ok (userStore_formed formed)
  | swapOut mm require => exact formed_map (swapOutMm_formed formed (used mm rfl))
  | refill =>
      exact formed_bind Pages.refillLoop_avoids fun _ done =>
        formed.of_pages (Pages.userTables_of_tables (Pages.refillLoop_tables done))
  | launder =>
      exact formed_bind Pages.launderLoop_avoids fun _ done =>
        formed.of_pages (Pages.userTables_of_tables (Pages.launderLoop_tables done))

/-- What one call keeps. -/
theorem call_formed (formed : m.Formed) (c : Call) :
    Avoids .vmaOverlap (m.call c) ∧ ∀ m', m.call c = .ok m' → m'.Formed := by
  cases c with
  | event i =>
      change Avoids .vmaOverlap (m.step i) ∧ ∀ m', m.step i = .ok m' → m'.Formed
      unfold step
      split
      · rename_i there
        exact perform_formed (formed.supply i) there.1
      · exact formed_ok formed
  | dup target source answers =>
      by_cases there : m.vm.mmUsed target = true ∧ m.vm.mmUsed source = true ∧ source ≠ target ∧
          m.vm.areas target = []
      · rw [call, if_pos there]
        obtain ⟨isTarget, isSource, ne, empty⟩ := there
        have before := formed.supply answers
        have copies := fun result => @dupMmap_wellFormed (m.supply answers) target source result
          (before.wellFormed target isTarget) (before.wellFormed source isSource).set ne empty
        exact formed_map ⟨(copies (0, m)).1, fun result done =>
          before.of_wellFormed (dupMmap_touches before.backed done) ((copies result).2 done)⟩
      · rw [call, if_neg there]
        exact formed_ok formed

theorem Blank.formed (blank : m.Blank) : m.Formed := by
  refine ⟨fun mm page present => absurd (blank.entries mm page) present, fun mm v mem => ?_,
    fun mm used => ?_⟩
  · rw [(blank.mm mm).2] at mem
    cases mem
  · rw [(blank.mm mm).1] at used
    cases used

theorem Blank.formed_run {m₀ : Memory} {calls : List Call} (blank : m₀.Blank)
    (run : Run.exec call m₀ calls = .ok m) : m.Formed :=
  Run.exec_invariant (fun _ c next before taken => (call_formed before c).2 next taken)
    blank.formed run

/-- The list of areas is in strict order, of areas that are not empty, of whole pages, apart and in
the user's range; the counter, the tree and the cached area agree with it, and every entry is of a
page of an area. -/
structure AreasInOrder (m : Memory) (mm : MmPtr) : Prop where
  sorted : (m.vm.areas mm).Pairwise fun v w => m.vm.lo v < m.vm.lo w
  nonempty : ∀ v ∈ m.vm.areas mm, m.vm.lo v < m.vm.hi v
  aligned : ∀ v ∈ m.vm.areas mm, m.vm.lo v % pgSize = 0 ∧ m.vm.hi v % pgSize = 0
  apart : (m.vm.areas mm).Pairwise fun v w => m.vm.hi v ≤ m.vm.lo w
  inUser : ∀ v ∈ m.vm.areas mm, userBase ≤ m.vm.lo v ∧ m.vm.hi v ≤ userTop
  count : (m.vm.mm mm).mapCount = (m.vm.areas mm).length
  tree : ∀ t ∈ (m.vm.mm mm).mmapTree, t.toList = m.vm.areas mm
  cache : ∀ v ∈ (m.vm.mm mm).mmapCache, v ∈ m.vm.areas mm
  entries : ∀ page, m.pages.pte (.user mm page) ≠ .zero →
    ∃ v ∈ m.vm.areas mm, m.vm.lo v ≤ page * pgSize ∧ (page + 1) * pgSize ≤ m.vm.hi v

theorem WellFormed.areasInOrder (formed : m.WellFormed mm) : m.AreasInOrder mm := by
  obtain ⟨set, _, inside⟩ := formed
  refine ⟨?_, set.ordered.nonempty, fun v mem => ?_, set.ordered.apart, fun v mem => ?_, set.count,
    set.tree, set.cache, fun page present => ?_⟩
  · refine set.ordered.apart.imp_of_mem fun {v w} mem _ le => ?_
    exact (set.ordered.nonempty v mem).trans_le le
  · obtain ⟨_, _, _, start, stop⟩ := set.range v mem
    exact ⟨start, stop⟩
  · obtain ⟨base, _, top, _, _⟩ := set.range v mem
    exact ⟨base, top⟩
  · obtain ⟨lo, _, v, mem, rfl, from_, upTo, _⟩ := inside page present
    refine ⟨v, mem, from_, ?_⟩
    have stop := (set.range v mem).2.2.2.2
    unfold pgSize at *
    omega

/-- After every sequence of calls the lists of areas are in order, and the next call does not find
an area in the way of one that it inserts. -/
theorem areas_in_order {m₀ : Memory} {calls : List Call} (blank : m₀.Blank)
    (run : Run.exec call m₀ calls = .ok m) :
    (∀ mm, m.vm.mmUsed mm = true → m.AreasInOrder mm) ∧ ∀ c, m.call c ≠ .error .vmaOverlap := by
  have formed := blank.formed_run run
  exact ⟨fun mm used => (formed.wellFormed mm used).areasInOrder,
    fun c => (call_formed formed c).1⟩

/-- An area is made, a heap grows behind it, a segment is mapped, one page in the middle is
unmapped, and what is left is copied. -/
theorem areas_in_order_copied : ∃ m : Memory,
    m.vm.areas 1 = [5, 2, 3, 4] ∧ m.vm.areas 2 = [9, 8, 7, 6] ∧ m.AreasInOrder 1 ∧
      m.AreasInOrder 2 ∧ ∀ c, m.call c ≠ .error .vmaOverlap := by
  obtain ⟨m, run, areas, copied, used, used'⟩ := @Run.exec_of_decide _ _ _ call
    (fun m => m.vm.areas 1 = [5, 2, 3, 4] ∧ m.vm.areas 2 = [9, 8, 7, 6] ∧ m.vm.mmUsed 1 = true ∧
      m.vm.mmUsed 2 = true) _ unusedMemory
    [.event ⟨.new, [some 1], [some 0], []⟩,
      .event ⟨.map 1 userBase (4 * pgSize) vmWrite, [some 2], [], []⟩,
      .event ⟨.brk 1 (userBase + 4 * pgSize) pgSize, [some 3], [], []⟩,
      .event ⟨.brk 1 (userBase + 5 * pgSize) pgSize, [], [], []⟩,
      .event ⟨.shmem 1 (userBase + 8 * pgSize) (2 * pgSize) vmWrite, [some 1, some 4], [], []⟩,
      .event ⟨.pgfault 1 6 userBase, [], [some 1, some 2], []⟩,
      .event ⟨.unmap 1 (userBase + pgSize) pgSize, [some 5], [], []⟩,
      .event ⟨.new, [some 2], [some 3], []⟩,
      .dup 2 1 ⟨.new, [some 6, some 7, some 8, some 9], [some 4, some 5], []⟩] (by decide +kernel)
  obtain ⟨inOrder, safe⟩ := areas_in_order ⟨fun _ => ⟨rfl, rfl⟩, fun _ _ => rfl⟩ run
  exact ⟨m, areas, copied, inOrder 1 used, inOrder 2 used', safe⟩

end Memory

end EdfKernel.Mm
