import EdfKernel.Mm.Resident
import EdfKernel.Mm.RunBalance

/-!
# Address spaces that end give everything back

`exit_mmap` frees the page tables that areas reach into, so an address space whose areas are gone
from the region of a page table keeps it for ever.  Where every page table is under an area when an
address space ends, all its frames are free afterwards, but for those that others use as well.
-/

namespace EdfKernel.Mm

open Library

/-- `exit_mmap` is called for an address space, and leaves a memory. -/
def Event.Exits (m : Memory) : Event → MmPtr → Memory → Prop
  | .leave left, mm, n => mm = left ∧ m.vm.mmUsed mm = true ∧ (m.vm.mm mm).mmCount - 1 = 0 ∧
      ({ m with vm := m.vm.modifyMm mm fun s => { s with mmCount := s.mmCount - 1 } } :
        Memory).exitMmap mm = .ok n
  | .fork source, mm, n => m.vm.mmUsed source = true ∧ ∃ m₁ p result,
      m.mmCreate = (some mm, m₁) ∧ m₁.pages.setupPgdir mm = (0, p) ∧
        ({ m₁ with pages := p } : Memory).dupMmap mm source = .ok result ∧ result.1 ≠ 0 ∧
          result.2.exitMmap mm = .ok n
  | _, _, _ => False

/-- `exit_mmap` is called for an address space, and leaves a memory. -/
def Call.Exits (m : Memory) : Call → MmPtr → Memory → Prop
  | .event i, mm, n => i.event.Exits (m.supply i) mm n
  | .dup _ _ _, _, _ => False

/-- The last process of an address space leaves it. -/
def Call.Ends (m : Memory) : Call → MmPtr → Prop
  | .event i, mm => i.event = .leave mm ∧ m.vm.mmUsed mm = true ∧ (m.vm.mm mm).mmCount - 1 = 0
  | .dup _ _ _, _ => False

namespace Memory

variable {m n m₀ : Memory} {mm : MmPtr} {f : Frame} {c : Call} {calls : List Call}
  {lost : Frame → Prop} {behind : Multiset Use}

/-- The frame caches a slot, is mapped, or is a page table, a page directory or a node. -/
def Uses (m : Memory) (f : Frame) : Prop :=
  (m.pages.page f).swap = true ∨ (m.mappers f).Nonempty ∨ m.IsRoot f ∨ m.IsTable f

/-- Every frame is free or used by something that exists. -/
def NothingLost (m m₀ : Memory) : Prop :=
  ∀ f, m₀.pages.free f = true → (m.pages.free f = true ↔ ¬m.Uses f)

/-- Nothing is left of the address spaces that have ended: `exit_mmap` leaves no page table; every
frame that was free at the start is free again unless something that exists uses it, the cache of
the swap only where pages have been evicted; and so the free frames are those that they were
before, once the same frames are used. -/
structure TornDown (m₀ : Memory) (calls : List Call) : Prop where
  tables : Run.Along call (fun m c => ∀ mm n, c.Exits m mm n → ∀ i, n.pages.table mm i = none)
    m₀ calls
  frames : ∀ first last m, first ++ last = calls → Run.exec call m₀ first = .ok m →
    m.NothingLost m₀
  uncached : ∀ first last m, first ++ last = calls → Run.exec call m₀ first = .ok m →
    (∀ c ∈ first, c.evicts = false) → ∀ f, (m.pages.page f).swap = false
  counts : ∀ first between last m n, first ++ between ++ last = calls →
    Run.exec call m₀ first = .ok m → Run.exec call m between = .ok n →
      (∀ f, n.Uses f ↔ m.Uses f) → n.pages.free = m.pages.free

/-! ## What an address space leaves behind -/

/-- Only an address space that ends leaves page tables behind. -/
theorem abandons_iff : c.Abandons m f ↔
    ∃ mm i, c.Ends m mm ∧ m.pages.table mm i = some f ∧ ¬m.Roofed mm i := by
  cases c with
  | dup target source answers => exact ⟨False.elim, fun ⟨_, _, ends, _⟩ => ends⟩
  | event i =>
      constructor
      · intro abandons
        change i.event.Abandons m f at abandons
        cases isEvent : i.event with
        | leave mm =>
            rw [isEvent] at abandons
            obtain ⟨used, last, index, there, bare⟩ := abandons
            exact ⟨mm, index, ⟨isEvent, used, last⟩, there, bare⟩
        | _ =>
            rw [isEvent] at abandons
            exact abandons.elim
      · rintro ⟨mm, index, ⟨isEvent, used, last⟩, there, bare⟩
        change i.event.Abandons m f
        rw [isEvent]
        exact ⟨used, last, index, there, bare⟩

/-- Page tables that are left behind are used by nothing, and not free. -/
theorem Evens.lost_of_behind (evens : m.Evens lost behind) (left : .whole f ∈ behind) :
    ¬lost f ∧ m.pages.free f = false ∧ ¬m.Uses f := by
  obtain ⟨taken, swap, none, notRoot⟩ := evens.of_table (.inr left)
  have fits := evens.accounts.fits f
  have some := evens.whole_pos_iff.mpr (.inr left)
  refine ⟨(fits.kept (.inr (.inr (.inr (.inr some))))).2, taken, ?_⟩
  rintro (cached | mapped | isRoot | ⟨mm, i, used, there⟩)
  · rw [swap] at cached
    cases cached
  · exact mapped.ne_empty none
  · exact notRoot isRoot
  · have mem : Use.whole f ∈ tally (m.pages.holds (m.live lost)) :=
      (mem_tally evens.sparse).mpr ⟨_, table_mem used there⟩
    have one := Multiset.count_pos.mpr left
    have other := Multiset.count_pos.mpr mem
    have all := Multiset.count_add (Use.whole f) behind (tally (m.pages.holds (m.live lost)))
    have once := fits.once
    omega

theorem Evens.nothingLost_iff (evens : m.Evens (fun f => m₀.pages.free f = false) behind) :
    m.NothingLost m₀ ↔ behind = 0 := by
  constructor
  · intro nothingLost
    refine Multiset.eq_zero_of_forall_notMem fun u mem => ?_
    obtain ⟨f, rfl⟩ := evens.wholes u mem
    obtain ⟨ours, taken, unused⟩ := evens.lost_of_behind mem
    have isFree := (nothingLost f (Bool.not_eq_false _ ▸ ours)).mpr unused
    rw [taken] at isFree
    cases isFree
  · rintro rfl f ours
    constructor
    · intro isFree
      obtain ⟨_, swap, none⟩ := evens.of_free isFree
      rintro (cached | mapped | isRoot | isTable)
      · rw [swap] at cached
        cases cached
      · exact mapped.ne_empty none
      · have taken := (evens.of_root isRoot).1
        rw [isFree] at taken
        cases taken
      · have taken := (evens.of_table (.inl isTable)).1
        rw [isFree] at taken
        cases taken
    · intro unused
      have notLost : ¬m₀.pages.free f = false := by
        rw [ours]
        exact Bool.noConfusion
      rcases evens.uses notLost with isFree | cached | mapped | isRoot | isTable | left
      · exact isFree
      · exact absurd (.inl cached) unused
      · exact absurd (.inr (.inl mapped)) unused
      · exact absurd (.inr (.inr (.inl isRoot))) unused
      · exact absurd (.inr (.inr (.inr isTable))) unused
      · exact absurd left (Multiset.notMem_zero _)

/-! ## Steps -/

/-- The memory is in balance, and nothing has been left behind. -/
structure Whole (m₀ m : Memory) : Prop where
  formed : m.Formed
  evens : m.Evens (fun f => m₀.pages.free f = false) 0

/-- A call after which nothing is left behind. -/
theorem Whole.next (whole : m₀.Whole m) (roofed : ∀ mm, c.Ends m mm → m.AllRoofed mm)
    (done : m.call c = .ok n) : m₀.Whole n := by
  obtain ⟨⟨more, after, left⟩, _⟩ :=
    (call_goes whole.evens.balanced whole.formed c).post_of_ok done
  have none : more = 0 := by
    refine Multiset.eq_zero_of_forall_notMem fun u mem => ?_
    obtain ⟨f, _, abandons⟩ := left u mem
    obtain ⟨mm, i, ends, there, bare⟩ := abandons_iff.mp abandons
    exact bare (roofed mm ends i (by rw [there]; rfl))
  subst none
  refine ⟨(call_formed whole.formed c).2 n done, after, fun u mem => ?_⟩
  exact absurd mem (Multiset.notMem_zero u)

/-- An address space that ends with a page table that no area reaches into leaves it behind. -/
theorem Whole.roofed (whole : m₀.Whole m) (done : m.call c = .ok n) (nothingLost : n.NothingLost m₀)
    (mm : MmPtr) (ends : c.Ends m mm) : m.AllRoofed mm := by
  cases c with
  | dup target source answers => exact ends.elim
  | event i =>
      obtain ⟨isEvent, used, last⟩ := ends
      change m.step i = .ok n at done
      unfold step at done
      rw [isEvent, if_pos ⟨by rintro _ ⟨⟩; exact used, by rintro _ ⟨⟩⟩] at done
      have held := (leaveMm_held (whole.evens.balanced.supply i) (whole.formed.supply i)
        used).post_of_ok done
      have counted : ((m.supply i).vm.mm mm).mmCount - 1 = 0 := last
      rw [if_pos counted, zero_add] at held
      have evens : n.Evens (fun f => m₀.pages.free f = false) (tally ((m.supply i).leaves mm)) := by
        refine ⟨held.balanced, fun u mem => ?_⟩
        obtain ⟨f, isWhole, _⟩ := (mem_leaves (whole.evens.balanced.supply i) used).mp mem
        exact ⟨f, isWhole⟩
      have none := evens.nothingLost_iff.mp nothingLost
      intro index there
      by_contra bare
      obtain ⟨f, isFrame⟩ := Option.isSome_iff_exists.mp there
      have mem := (mem_leaves (whole.evens.balanced.supply i) used).mpr
        ⟨f, rfl, index, isFrame, bare⟩
      rw [none] at mem
      exact Multiset.notMem_zero _ mem

theorem exitMmap_none (roofed : m.AllRoofed mm) (done : m.exitMmap mm = .ok n) (i : Nat) :
    n.pages.table mm i = none := by
  rw [exitMmap_table done mm i]
  split
  · rfl
  · rename_i bare
    rw [← Option.not_isSome_iff_eq_none]
    exact fun there => bare ⟨rfl, roofed i there⟩

/-- Where the page tables are under areas, `exit_mmap` leaves none. -/
theorem exits_tables (formed : m.Formed) (roofed : ∀ mm, c.Ends m mm → m.AllRoofed mm)
    (exits : c.Exits m mm n) (i : Nat) : n.pages.table mm i = none := by
  cases c with
  | dup target source answers => exact exits.elim
  | event input =>
      change input.event.Exits (m.supply input) mm n at exits
      cases isEvent : input.event with
      | leave left =>
          rw [isEvent] at exits
          obtain ⟨rfl, used, last, done⟩ := exits
          have self := @Vm.modifyMm_mm_self (m.supply input).vm mm
            fun s => { s with mmCount := s.mmCount - 1 }
          have areas : ((m.supply input).vm.modifyMm mm fun s =>
              { s with mmCount := s.mmCount - 1 }).areas mm = m.vm.areas mm :=
            (congrArg MmStruct.mmapList self :)
          refine exitMmap_none (fun index there => ?_) done i
          refine (roofed_congr areas ?_).mpr (roofed mm ⟨isEvent, used, last⟩ index there)
          rfl
      | fork source =>
          rw [isEvent] at exits
          obtain ⟨used, m₁, p, result, created, setup, dup, _, done⟩ := exits
          exact exitMmap_none (copied_roofed (formed.supply input) used created setup dup) done i
      | _ =>
          rw [isEvent] at exits
          exact exits.elim

/-! ## Runs -/

theorem Empty.whole (empty : m₀.Empty) : m₀.Whole m₀ :=
  ⟨empty.blank.formed, empty.initial.evens empty.blank⟩

/-- Where nothing exists, only the cache of the swap uses frames. -/
theorem Uses.cached (used : m.Uses f) (noMm : ∀ mm, m.vm.mmUsed mm = false)
    (noShmem : ∀ s, m.vm.shmemUsed s = false) : (m.pages.page f).swap = true := by
  rcases used with cached | ⟨slot, has, _⟩ | isRoot | ⟨mm, _, isUsed, _⟩
  · exact cached
  · cases slot with
    | user mm page => cases (noMm mm).symm.trans has
    | shared s page => cases (noShmem s).symm.trans has
  · rcases isRoot with ⟨mm, isUsed, _⟩ | ⟨s, isUsed, _⟩
    · cases (noMm mm).symm.trans isUsed
    · cases (noShmem s).symm.trans isUsed
  · cases (noMm mm).symm.trans isUsed

/-- A frame that is free was free at the start. -/
theorem Evens.ours_of_free (evens : m.Evens (fun f => m₀.pages.free f = false) behind)
    (isFree : m.pages.free f = true) : m₀.pages.free f = true := by
  have kept := ((evens.accounts.fits f).kept (.inl isFree)).2
  exact Bool.not_eq_false _ ▸ kept

/-- The free frames are those that nothing uses. -/
theorem free_eq (empty : m₀.Empty) {first between : List Call}
    (reached : Run.exec call m₀ first = .ok m) (after : Run.exec call m between = .ok n)
    (before : m.NothingLost m₀) (nothingLost : n.NothingLost m₀)
    (same : ∀ f, n.Uses f ↔ m.Uses f) : n.pages.free = m.pages.free := by
  obtain ⟨_, ⟨_, evens, _⟩, _⟩ := run_evens empty.initial empty.blank reached
  obtain ⟨_, ⟨_, evens', _⟩, _⟩ := run_evens empty.initial empty.blank
    (Run.exec_append_eq_ok_iff.mpr ⟨m, reached, after⟩)
  funext f
  rw [Bool.eq_iff_iff]
  by_cases ours : m₀.pages.free f = true
  · rw [nothingLost f ours, before f ours, same f]
  · exact iff_of_false (fun isFree => ours (evens'.ours_of_free isFree))
      fun isFree => ours (evens.ours_of_free isFree)

/-- In every run of calls, page faults, evictions and accesses from a memory where nothing exists,
with whatever answers of `kmalloc`, `alloc_page` and the disk: nothing is left of the address spaces
that end exactly when each of them ends with every page table under an area. -/
theorem teardown_complete_iff (empty : m₀.Empty) (run : Run.exec call m₀ calls = .ok m) :
    m₀.TornDown calls ↔
      Run.Along call (fun m c => ∀ mm, c.Ends m mm → m.AllRoofed mm) m₀ calls := by
  have frames := Run.reached_iff_along_of_breaks
    (fun _ _ _ before roofed done => Whole.next before roofed done)
    (fun _ _ _ before done nothingLost => Whole.roofed before done nothingLost)
    (fun _ before => before.evens.nothingLost_iff.mpr rfl) empty.whole run
  refine ⟨fun tornDown => frames.mp tornDown.frames, fun along => ?_⟩
  have nothingLost := frames.mpr along
  refine ⟨?_, nothingLost, ?_, ?_⟩
  · refine Run.along_imp (fun _ c next before done => (call_formed before c).2 next done) ?_
      empty.blank.formed along
    exact fun m c formed roofed mm n exits => exits_tables formed roofed exits
  · rintro first last m rfl reached stays
    exact (run_resident empty.resident stays reached).uncached
  · rintro first between last m n rfl reached after same
    have whole := Run.exec_append_eq_ok_iff.mpr ⟨m, reached, after⟩
    exact free_eq empty reached after (nothingLost first (between ++ last) m (by simp) reached)
      (nothingLost (first ++ between) last n rfl whole) same

theorem unusedMemory_empty : unusedMemory.Empty :=
  ⟨unusedMemory_initial, unusedMemory_blank, fun _ _ => rfl⟩

/-- A page is written and unmapped, and the process leaves the address space: no area reaches into
the page table, which stays. -/
theorem teardown_unmapped : ¬∀ (m₀ m : Memory) (calls : List Call), m₀.Empty →
    Run.exec call m₀ calls = .ok m → (∀ c ∈ calls, c.evicts = false) → m₀.TornDown calls := by
  intro complete
  obtain ⟨m, run, mmUsed, noShmem, uncached, taken⟩ : ∃ m,
      Run.exec call unusedMemory
        [.event ⟨.new, [some 1], [some 0], []⟩,
          .event ⟨.map 1 userBase pgSize vmWrite, [some 2], [], []⟩,
          .event ⟨.pgfault 1 6 userBase, [], [some 1, some 2], []⟩,
          .event ⟨.unmap 1 userBase pgSize, [], [], []⟩,
          .event ⟨.leave 1, [], [], []⟩] = .ok m ∧
        m.vm.mmUsed = Function.update (Function.update (fun _ => false) 1 true) 1 false ∧
        (∀ s, m.vm.shmemUsed s = false) ∧ (m.pages.page 1).swap = false ∧
        m.pages.free 1 = false :=
    ⟨_, rfl, rfl, fun _ => rfl, rfl, rfl⟩
  have noMm : ∀ mm, m.vm.mmUsed mm = false := by
    intro mm
    rw [mmUsed, Function.update_idem, Function.update_apply, ite_self]
  have tornDown := complete _ m _ unusedMemory_empty run (by decide)
  have isFree := (tornDown.frames _ [] m (List.append_nil _) run 1 rfl).mpr fun used =>
    Bool.false_ne_true (uncached.symm.trans (used.cached noMm noShmem))
  rw [taken] at isFree
  cases isFree

/-- A page is written, copied to another address space and written there, and the first address
space ends with its area. -/
theorem teardown_complete_copied : ∃ calls : List Call, ∃ m : Memory,
    Run.exec call unusedMemory calls = .ok m ∧ m.vm.mmUsed 1 = false ∧ m.vm.mmUsed 2 = true ∧
      m.pages.free 1 = true ∧ m.pages.free 2 = true ∧ (m.pages.page 5).ref = 1 ∧
      unusedMemory.TornDown calls := by
  let before : List Call :=
    [.event ⟨.new, [some 1], [some 0], []⟩,
      .event ⟨.map 1 userBase pgSize vmWrite, [some 2], [], []⟩,
      .event ⟨.pgfault 1 6 userBase, [], [some 1, some 2], []⟩,
      .event ⟨.fork 1, [some 2, some 3], [some 3, some 4], []⟩,
      .event ⟨.pgfault 2 7 userBase, [], [some 5], []⟩]
  obtain ⟨n, run, table, roofed⟩ : ∃ n, Run.exec call unusedMemory before = .ok n ∧
      (∀ i, n.pages.table 1 i =
        Function.update (fun _ => none) (userBase / ptSize) (some 1) i) ∧
        n.Roofed 1 (userBase / ptSize) :=
    ⟨_, rfl, fun i => rfl, by decide⟩
  obtain ⟨m, run', gone, there, noTable, noPage, ref⟩ := @Run.exec_of_decide _ _ _ call
    (fun m => m.vm.mmUsed 1 = false ∧ m.vm.mmUsed 2 = true ∧ m.pages.free 1 = true ∧
      m.pages.free 2 = true ∧ (m.pages.page 5).ref = 1) _ unusedMemory
    (before ++ [.event ⟨.leave 1, [], [], []⟩]) (by decide +kernel)
  refine ⟨_, m, run', gone, there, noTable, noPage, ref, ?_⟩
  refine (teardown_complete_iff unusedMemory_empty run').mpr (Run.along_append ?_ ?_)
  · refine Run.along_of_forall (fun c mem m mm ends => ?_) _
    simp only [before, List.mem_cons, List.not_mem_nil, or_false] at mem
    rcases mem with rfl | rfl | rfl | rfl | rfl <;> cases ends.1
  · intro middle reached
    cases run.symm.trans reached
    refine ⟨fun mm ends i isSome => ?_, fun _ _ => trivial⟩
    cases ends.1
    rw [table i, Function.update_apply] at isSome
    split at isSome
    · rename_i own
      rw [own]
      exact roofed
    · cases isSome

end Memory

end EdfKernel.Mm
