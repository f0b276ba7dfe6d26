import EdfKernel.Mm.LoadPages
import EdfKernel.Mm.NewAreas

/-!
# Giving back a new address space

The labels at the end of `load_icode`: whatever of the address space has been made, the cleanup
gives back the frames, the areas and the address space itself.
-/

namespace EdfKernel.Mm

open Library

/-- The entries and the page tables of an address space lie in its areas. -/
structure Memory.Covered (m : Memory) (mm : MmPtr) : Prop where
  entries : ∀ n, m.pages.pte (.user mm n) ≠ .zero →
    ∃ v ∈ m.vm.areas mm, m.vm.lo v ≤ n * pgSize ∧ n * pgSize < m.vm.hi v
  tables : ∀ index, (m.pages.table mm index).isSome = true →
    ∃ v ∈ m.vm.areas mm, m.vm.lo v / ptSize ≤ index ∧ index * ptSize < m.vm.hi v

/-- More areas cover as much. -/
theorem Memory.Covered.withAreas {m : Memory} {mm : MmPtr} {vm : Vm} (covered : m.Covered mm)
    (areas : ∀ v ∈ m.vm.areas mm, v ∈ vm.areas mm ∧ vm.vma v = m.vm.vma v) :
    ({ m with vm := vm } : Memory).Covered mm := by
  have bounds : ∀ v ∈ m.vm.areas mm, vm.lo v = m.vm.lo v ∧ vm.hi v = m.vm.hi v := by
    intro v mem
    rw [Vm.lo, Vm.lo, Vm.hi, Vm.hi, (areas v mem).2]
    exact ⟨rfl, rfl⟩
  constructor
  · intro n present
    obtain ⟨v, mem, inside⟩ := covered.entries n present
    refine ⟨v, (areas v mem).1, ?_⟩
    rw [(bounds v mem).1, (bounds v mem).2]
    exact inside
  · intro index there
    obtain ⟨v, mem, inside⟩ := covered.tables index there
    refine ⟨v, (areas v mem).1, ?_⟩
    rw [(bounds v mem).1, (bounds v mem).2]
    exact inside

/-- A memory with a new address space `mm`, which began as `m₀`. -/
structure Memory.Making (all : Prop) (m₀ m : Memory) (mm : MmPtr) : Prop where
  fresh : Vm.Fresh m₀.vm m.vm mm
  owns : Pages.Owns all m₀.pages m.pages mm none
  covered : all → m.Covered mm

namespace Memory

variable {all : Prop} {m₀ m : Memory} {mm : MmPtr} {p : Pages}

/-- The first loop of `exit_mmap`. -/
theorem unmapAll_spec {l : List VmaPtr} (owns : Pages.Owns all m₀.pages p mm none)
    (range : ∀ v ∈ l, Vm.UserRange (m.vm.lo v) (m.vm.hi v)) :
    ∃ q, m.unmapAll mm l p = .ok q ∧ Pages.Owns all m₀.pages q mm none ∧ q.table = p.table ∧
      ∀ n, q.pte (.user mm n) ≠ .zero → p.pte (.user mm n) ≠ .zero ∧
        ∀ v ∈ l, ¬(m.vm.lo v ≤ n * pgSize ∧ n * pgSize < m.vm.hi v) := by
  induction l generalizing p with
  | nil => exact ⟨p, rfl, owns, rfl, fun n present => ⟨present, by rintro v ⟨⟩⟩⟩
  | cons v rest ih =>
      obtain ⟨p₁, done, owns₁, cleared, table⟩ := owns.unmapRange (range v List.mem_cons_self)
      obtain ⟨q, rest', owns', table', left⟩ :=
        ih owns₁ fun w mem => range w (List.mem_cons_of_mem v mem)
      refine ⟨q, ?_, owns', table'.trans table, fun n present => ?_⟩
      · exact bind_eq_ok_iff.mpr ⟨p₁, done, rest'⟩
      · obtain ⟨before, outside⟩ := left n present
        have apart : ¬(m.vm.lo v ≤ n * pgSize ∧ n * pgSize < m.vm.hi v) :=
          fun inside => before (cleared.inside n inside.1 inside.2)
        refine ⟨?_, fun w mem => ?_⟩
        · rw [← cleared.outside mm n fun inside => apart inside.2]
          exact before
        · rcases List.mem_cons.mp mem with rfl | later
          · exact apart
          · exact outside w later

/-- The second loop of `exit_mmap`. -/
theorem exitAll_spec {l : List VmaPtr} (owns : Pages.Owns all m₀.pages p mm none)
    (empty : all → ∀ n, p.pte (.user mm n) = .zero)
    (range : ∀ v ∈ l, Vm.UserRange (m.vm.lo v) (m.vm.hi v)) :
    ∃ q, m.exitAll mm l p = .ok q ∧ Pages.Owns all m₀.pages q mm none ∧
      (all → ∀ n, q.pte (.user mm n) = .zero) ∧
      ∀ index, (q.table mm index).isSome = true → (p.table mm index).isSome = true ∧
        ∀ v ∈ l, ¬(m.vm.lo v / ptSize ≤ index ∧ index * ptSize < m.vm.hi v) := by
  induction l generalizing p with
  | nil => exact ⟨p, rfl, owns, empty, fun index there => ⟨there, by rintro v ⟨⟩⟩⟩
  | cons v rest ih =>
      obtain ⟨p₁, done, owns₁, empty₁, left₁⟩ :=
        owns.exitRange empty (range v List.mem_cons_self)
      obtain ⟨q, rest', owns', empty', left⟩ :=
        ih owns₁ empty₁ fun w mem => range w (List.mem_cons_of_mem v mem)
      refine ⟨q, bind_eq_ok_iff.mpr ⟨p₁, done, rest'⟩, owns', empty', fun index there => ?_⟩
      obtain ⟨before, outside⟩ := left index there
      refine ⟨(left₁ index before).1, fun w mem => ?_⟩
      rcases List.mem_cons.mp mem with rfl | later
      · exact (left₁ index before).2
      · exact outside w later

/-- `exit_mmap` leaves no entry and no page table. -/
theorem Making.exitMmap (making : Making all m₀ m mm) :
    ∃ q, m.exitMmap mm = .ok { m with pages := q } ∧ Pages.Owns all m₀.pages q mm none ∧
      (all → (∀ n, q.pte (.user mm n) = .zero) ∧ ∀ index, q.table mm index = none) := by
  have range := making.fresh.set.range
  obtain ⟨p₁, unmapped, owns₁, table, left₁⟩ := unmapAll_spec making.owns range
  have empty : all → ∀ n, p₁.pte (.user mm n) = .zero := by
    intro isAll n
    by_contra present
    obtain ⟨before, outside⟩ := left₁ n present
    obtain ⟨v, mem, inside⟩ := (making.covered isAll).entries n before
    exact outside v mem inside
  obtain ⟨q, exited, owns', empty', left⟩ := exitAll_spec owns₁ empty range
  refine ⟨q, ?_, owns', fun isAll => ⟨empty' isAll, fun index => ?_⟩⟩
  · rw [Memory.exitMmap, if_pos making.fresh.count]
    exact bind_eq_ok_iff.mpr ⟨p₁, unmapped, bind_eq_ok_iff.mpr ⟨q, exited, rfl⟩⟩
  · by_contra there
    obtain ⟨before, outside⟩ := left index (Option.isSome_iff_ne_none.mpr there)
    rw [table] at before
    obtain ⟨v, mem, inside⟩ := (making.covered isAll).tables index before
    exact outside v mem inside

/-- The new address space is gone, with all that was made for it. -/
structure GivenBack (all : Prop) (m₀ m : Memory) : Prop where
  vm : Restored m₀.vm m.vm
  free : all → m.pages.free = m₀.pages.free
  kept : ∀ f, m₀.pages.free f = false →
    m.pages.page f = m₀.pages.page f ∧ m.pages.data f = m₀.pages.data f

end Memory

namespace Load

variable {all : Prop} {m₀ : Memory} {mm : MmPtr} {l : Load}

/-- From `bad_elf_cleanup_pgdir` on. -/
theorem cleanupPgdir_spec (fresh : Vm.Fresh m₀.vm l.memory.vm mm)
    (owns : Pages.Owns all m₀.pages l.memory.pages mm none)
    (empty : all → (∀ n, l.memory.pages.pte (.user mm n) = .zero) ∧
      ∀ index, l.memory.pages.table mm index = none) :
    ∃ l', l.cleanupPgdir mm = .ok l' ∧ m₀.GivenBack all l'.memory := by
  obtain ⟨q, put, free, kept⟩ := owns.putPgdir
  obtain ⟨m', destroyed, pages, restored⟩ :=
    @Memory.mmDestroy_restored { l.memory with pages := q } _ _ fresh
  change m'.pages = q at pages
  refine ⟨l.withMemory m', ?_, restored, fun isAll => ?_, fun f notFree => ?_⟩
  · rw [cleanupPgdir, put, memoryCall, ok_bind, destroyed]
    rfl
  · change m'.pages.free = _
    rw [pages]
    exact free isAll (empty isAll).1 (empty isAll).2
  · change m'.pages.page f = _ ∧ m'.pages.data f = _
    rw [pages]
    exact kept f notFree

/-- From `bad_cleanup_mmap` on. -/
theorem cleanupMmap_spec (making : Memory.Making all m₀ l.memory mm) :
    ∃ l', l.cleanupMmap mm = .ok l' ∧ m₀.GivenBack all l'.memory := by
  obtain ⟨q, exited, owns, empty⟩ := making.exitMmap
  rw [cleanupMmap, exited, memoryCall, ok_bind]
  exact cleanupPgdir_spec (l := l.withMemory { l.memory with pages := q }) making.fresh owns empty

end Load

end EdfKernel.Mm
