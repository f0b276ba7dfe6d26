import EdfKernel.Mm.CallBalance

/-!
# Runs of calls keep the counts

In every state that calls, page faults, evictions and accesses reach while no segment is shared,
every reference to a frame or to a swap slot is counted once, and no call frees or lists a frame
that it should not.
-/

namespace EdfKernel.Mm

open Library

namespace Memory

variable {m m₀ : Memory} {mm : MmPtr} {f : Frame} {e : SwapEntry} {calls : List Call}
  {lost : Frame → Prop} {behind : Multiset Use}

/-! ## Holders -/

/-- The entry belongs to an address space or a segment that exists. -/
def has (m : Memory) : Slot → Bool
  | .user mm _ => m.vm.mmUsed mm
  | .shared shmem _ => m.vm.shmemUsed shmem

/-- The entries that map a frame. -/
def mappers (m : Memory) (f : Frame) : Set Slot :=
  {slot | m.has slot = true ∧ ∃ perm, m.pages.pte slot = .present f perm}

/-- The entries that hold a slot. -/
def keepers (m : Memory) (e : SwapEntry) : Set Slot :=
  {slot | m.has slot = true ∧ m.pages.pte slot = .swapped e}

/-- The frame is a page table of an address space that exists. -/
def IsTable (m : Memory) (f : Frame) : Prop :=
  ∃ mm i, m.vm.mmUsed mm = true ∧ m.pages.table mm i = some f

/-- The frame is the page directory of an address space, or a node of a segment, that exists. -/
def IsRoot (m : Memory) (f : Frame) : Prop :=
  (∃ mm, m.vm.mmUsed mm = true ∧ m.pages.pgdir mm = f) ∨
    ∃ s, m.vm.shmemUsed s = true ∧ ∃ shmn ∈ m.pages.shmnList s, shmn.entry = f

/-- The memory is in balance, with page tables left behind at most. -/
structure Evens (m : Memory) (lost : Frame → Prop) (behind : Multiset Use) : Prop where
  balanced : m.Balanced ⟨m.vm.mmUsed, lost, behind⟩
  wholes : ∀ u ∈ behind, ∃ f, u = .whole f

/-- What there is. -/
def live (m : Memory) (lost : Frame → Prop) : Live := ⟨m.vm.mmUsed, m.vm.shmemUsed, none, lost⟩

theorem live_has (m : Memory) (lost : Frame → Prop) (slot : Slot) :
    (m.live lost).has slot = m.has slot := by
  cases slot <;> rfl

theorem frame_holders (m : Memory) (lost : Frame → Prop) (f : Frame) :
    {holder | .frame f ∈ m.pages.holds (m.live lost) holder} = Holder.slot '' m.mappers f := by
  ext holder
  rw [Set.mem_ofPred_eq, Pages.frame_mem_holds]
  simp only [live_has]
  constructor
  · rintro ⟨slot, perm, rfl, has, isEntry⟩
    exact ⟨slot, ⟨has, perm, isEntry⟩, rfl⟩
  · rintro ⟨slot, ⟨has, perm, isEntry⟩, rfl⟩
    exact ⟨slot, perm, rfl, has, isEntry⟩

theorem entry_holders (m : Memory) (lost : Frame → Prop) (e : SwapEntry) :
    {holder | .entry e ∈ m.pages.holds (m.live lost) holder} = Holder.slot '' m.keepers e := by
  ext holder
  rw [Set.mem_ofPred_eq, Pages.entry_mem_holds]
  simp only [live_has]
  constructor
  · rintro ⟨slot, rfl, has, isEntry⟩
    exact ⟨slot, ⟨has, isEntry⟩, rfl⟩
  · rintro ⟨slot, ⟨has, isEntry⟩, rfl⟩
    exact ⟨slot, rfl, has, isEntry⟩

theorem slot_injective : Function.Injective Holder.slot := fun _ _ => Holder.slot.inj

theorem directory_mem (used : m.vm.mmUsed mm = true) :
    .spare (m.pages.pgdir mm) ∈ m.pages.holds (m.live lost) (.directory mm) := by
  have has : (m.live lost).mm mm = true := used
  rw [Pages.holds, if_pos has]
  exact Multiset.mem_singleton_self _

theorem table_mem {i : Nat} (used : m.vm.mmUsed mm = true) (there : m.pages.table mm i = some f) :
    .whole f ∈ m.pages.holds (m.live lost) (.table mm i) := by
  have has : (m.live lost).mm mm = true := used
  rw [Pages.holds, if_pos has, there]
  exact Multiset.mem_singleton_self _

theorem nodes_mem {s : ShmemPtr} {shmn : Shmn} (used : m.vm.shmemUsed s = true)
    (isNode : shmn ∈ m.pages.shmnList s) :
    .spare shmn.entry ∈ m.pages.holds (m.live lost) (.nodes s) := by
  have has : (m.live lost).shmem s = true := used
  rw [Pages.holds, if_pos has]
  exact List.mem_map.mpr ⟨shmn, isNode, rfl⟩

/-- What frames of the kernel are at a place. -/
theorem kernel_of_mem {u : Use} {holder : Holder}
    (mem : u ∈ m.pages.holds (m.live lost) holder) :
    (u = .whole f → m.IsTable f) ∧ (u = .spare f → m.IsRoot f) := by
  cases holder with
  | slot slot =>
      rw [Pages.holds] at mem
      split at mem
      · constructor
        · rintro rfl
          cases entry : m.pages.pte slot <;> simp [entry, Pte.uses] at mem
        · rintro rfl
          cases entry : m.pages.pte slot <;> simp [entry, Pte.uses] at mem
      · exact absurd mem (Multiset.notMem_zero _)
  | directory mm =>
      rw [Pages.holds] at mem
      split at mem
      · rename_i used
        cases Multiset.mem_singleton.mp mem
        refine ⟨Use.noConfusion, ?_⟩
        rintro ⟨⟩
        exact .inl ⟨mm, used, rfl⟩
      · exact absurd mem (Multiset.notMem_zero _)
  | table mm i =>
      rw [Pages.holds] at mem
      split at mem
      · rename_i used
        cases there : m.pages.table mm i with
        | none =>
            rw [there] at mem
            exact absurd mem (Multiset.notMem_zero _)
        | some g =>
            rw [there] at mem
            cases Multiset.mem_singleton.mp mem
            refine ⟨?_, Use.noConfusion⟩
            rintro ⟨⟩
            exact ⟨mm, i, used, there⟩
      · exact absurd mem (Multiset.notMem_zero _)
  | nodes s =>
      rw [Pages.holds] at mem
      split at mem
      · rename_i used
        obtain ⟨shmn, isNode, rfl⟩ := List.mem_map.mp (Multiset.mem_coe.mp mem)
        refine ⟨Use.noConfusion, ?_⟩
        rintro ⟨⟩
        exact .inr ⟨s, used, shmn, isNode, rfl⟩
      · exact absurd mem (Multiset.notMem_zero _)

namespace Evens

variable (evens : m.Evens lost behind)
include evens

theorem sparse : Sparse (m.pages.holds (m.live lost)) := evens.balanced.pages.sparse

theorem accounts :
    m.pages.Accounts lost (behind + tally (m.pages.holds (m.live lost))) none :=
  evens.balanced.pages.accounts

/-- What is left behind are whole frames. -/
theorem count_behind {u : Use} (part : ∀ f, u ≠ .whole f) : behind.count u = 0 := by
  refine Multiset.count_eq_zero_of_notMem fun mem => ?_
  obtain ⟨f, isWhole⟩ := evens.wholes u mem
  exact part f isWhole

theorem count_frame (f : Frame) :
    (behind + tally (m.pages.holds (m.live lost))).count (.frame f) = (m.mappers f).ncard := by
  have part : ∀ g, Use.frame f ≠ .whole g ∧ Use.frame f ≠ .spare g :=
    fun g => ⟨Use.noConfusion, Use.noConfusion⟩
  rw [Multiset.count_add, evens.count_behind fun g => (part g).1, zero_add,
    count_tally evens.sparse (Pages.count_holds_le part), frame_holders,
    Set.ncard_image_of_injective _ slot_injective]

theorem count_entry (e : SwapEntry) :
    (behind + tally (m.pages.holds (m.live lost))).count (.entry e) = (m.keepers e).ncard := by
  have part : ∀ g, Use.entry e ≠ .whole g ∧ Use.entry e ≠ .spare g :=
    fun g => ⟨Use.noConfusion, Use.noConfusion⟩
  rw [Multiset.count_add, evens.count_behind fun g => (part g).1, zero_add,
    count_tally evens.sparse (Pages.count_holds_le part), entry_holders,
    Set.ncard_image_of_injective _ slot_injective]

theorem mappers_finite (f : Frame) : (m.mappers f).Finite := by
  refine Set.Finite.of_finite_image ?_ slot_injective.injOn (f := Holder.slot)
  rw [← frame_holders m lost f]
  refine evens.sparse.subset fun holder mem zero => ?_
  rw [Set.mem_ofPred_eq, zero] at mem
  exact Multiset.notMem_zero _ mem

theorem keepers_finite (e : SwapEntry) : (m.keepers e).Finite := by
  refine Set.Finite.of_finite_image ?_ slot_injective.injOn (f := Holder.slot)
  rw [← entry_holders m lost e]
  refine evens.sparse.subset fun holder mem zero => ?_
  rw [Set.mem_ofPred_eq, zero] at mem
  exact Multiset.notMem_zero _ mem

theorem mappers_eq_empty_iff :
    m.mappers f = ∅ ↔ (behind + tally (m.pages.holds (m.live lost))).count (.frame f) = 0 := by
  rw [evens.count_frame, Set.ncard_eq_zero (evens.mappers_finite f)]

theorem keepers_eq_empty_iff :
    m.keepers e = ∅ ↔ (behind + tally (m.pages.holds (m.live lost))).count (.entry e) = 0 := by
  rw [evens.count_entry, Set.ncard_eq_zero (evens.keepers_finite e)]

/-- Page tables are counted. -/
theorem whole_pos_iff :
    0 < (behind + tally (m.pages.holds (m.live lost))).count (.whole f) ↔
      m.IsTable f ∨ .whole f ∈ behind := by
  rw [Multiset.count_pos, Multiset.mem_add, mem_tally evens.sparse, or_comm]
  refine or_congr_left ⟨?_, ?_⟩
  · rintro ⟨holder, mem⟩
    exact (kernel_of_mem mem).1 rfl
  · rintro ⟨mm, i, used, there⟩
    exact ⟨_, table_mem used there⟩

/-- Page directories and nodes are counted. -/
theorem spare_pos_iff :
    0 < (behind + tally (m.pages.holds (m.live lost))).count (.spare f) ↔ m.IsRoot f := by
  rw [Multiset.count_add, evens.count_behind fun g => Use.noConfusion, zero_add,
    Multiset.count_pos, mem_tally evens.sparse]
  constructor
  · rintro ⟨holder, mem⟩
    exact (kernel_of_mem mem).2 rfl
  · rintro (⟨mm, used, rfl⟩ | ⟨s, used, shmn, isNode, rfl⟩)
    · exact ⟨_, directory_mem used⟩
    · exact ⟨_, nodes_mem used isNode⟩

/-- A frame that is free is mapped by no entry and caches no slot. -/
theorem of_free (isFree : m.pages.free f = true) :
    (m.pages.page f).ref = 0 ∧ (m.pages.page f).swap = false ∧ m.mappers f = ∅ := by
  have fits := evens.accounts.fits f
  rw [isFree] at fits
  obtain ⟨swap, none, _, _, ref, _⟩ := fits.of_free
  exact ⟨ref, swap, evens.mappers_eq_empty_iff.mpr none⟩

/-- A frame that is mapped or caches a slot is counted for its entries. -/
theorem of_data (used : (m.pages.page f).swap = true ∨ (m.mappers f).Nonempty) :
    m.pages.free f = false ∧ (m.pages.page f).ref = (m.mappers f).ncard ∧
      (m.pages.page f).reserved = false ∧ ¬m.IsTable f ∧ ¬m.IsRoot f ∧ ¬lost f := by
  have used' : (m.pages.page f).swap = true ∨
      0 < (behind + tally (m.pages.holds (m.live lost))).count (.frame f) := by
    refine used.imp_right fun some => Nat.pos_of_ne_zero fun zero => ?_
    exact some.ne_empty (evens.mappers_eq_empty_iff.mpr zero)
  obtain ⟨taken, noSpare, noWhole, ref, unreserved, kept⟩ :=
    (evens.accounts.fits f).of_data used'
  refine ⟨taken, ?_, unreserved, fun isTable => ?_, fun isRoot => ?_, kept⟩
  · rw [ref, evens.count_frame]
  · exact absurd noWhole (evens.whole_pos_iff.mpr (.inl isTable)).ne'
  · exact absurd noSpare (evens.spare_pos_iff.mpr isRoot).ne'

/-- A page table is not free, is mapped by no entry and caches no slot. -/
theorem of_table (isTable : m.IsTable f ∨ .whole f ∈ behind) :
    m.pages.free f = false ∧ (m.pages.page f).swap = false ∧ m.mappers f = ∅ ∧ ¬m.IsRoot f := by
  have some := evens.whole_pos_iff.mpr isTable
  obtain ⟨wholes, isCount⟩ := Nat.exists_eq_succ_of_ne_zero some.ne'
  have fits := evens.accounts.fits f
  rw [isCount] at fits
  obtain ⟨taken, swap, none, noSpare, _⟩ := fits.of_whole
  exact ⟨taken, swap, evens.mappers_eq_empty_iff.mpr none,
    fun isRoot => absurd noSpare (evens.spare_pos_iff.mpr isRoot).ne'⟩

/-- A page directory or a node is not free, is counted for nothing, and caches no slot. -/
theorem of_root (isRoot : m.IsRoot f) : m.pages.free f = false ∧
    (m.pages.page f).swap = false ∧ m.mappers f = ∅ ∧ (m.pages.page f).ref = 0 := by
  have some := evens.spare_pos_iff.mpr isRoot
  obtain ⟨spares, isCount⟩ := Nat.exists_eq_succ_of_ne_zero some.ne'
  have fits := evens.accounts.fits f
  rw [isCount] at fits
  obtain ⟨taken, swap, none, _, _, ref, _⟩ := fits.of_spare
  exact ⟨taken, swap, evens.mappers_eq_empty_iff.mpr none, ref⟩

/-- Every frame that the kernel did not have from the start is used for something. -/
theorem uses (isOurs : ¬lost f) : m.pages.free f = true ∨ (m.pages.page f).swap = true ∨
    (m.mappers f).Nonempty ∨ m.IsRoot f ∨ m.IsTable f ∨ .whole f ∈ behind := by
  rcases (evens.accounts.fits f).used.resolve_right isOurs with
    isFree | swap | mapped | spare | whole
  · exact .inl isFree
  · exact .inr (.inl swap)
  · refine .inr (.inr (.inl (Set.nonempty_iff_ne_empty.mpr fun none => ?_)))
    exact absurd (evens.mappers_eq_empty_iff.mp none) mapped.ne'
  · exact .inr (.inr (.inr (.inl (evens.spare_pos_iff.mp spare))))
  · exact .inr (.inr (.inr (.inr (evens.whole_pos_iff.mp whole))))

/-- The hash and the two lists agree with the pages. -/
theorem lists : m.pages.SwapLists ∧ m.pages.nrActive = m.pages.activeList.length ∧
    m.pages.nrInactive = m.pages.inactiveList.length := by
  have books := evens.accounts.books
  refine ⟨books.lists fun f swap => ?_, books.nrActive, books.nrInactive⟩
  obtain ⟨taken, _, unreserved, _⟩ := evens.of_data (.inl swap)
  exact ⟨taken, unreserved⟩

/-- What two places hold is counted twice. -/
theorem two_le_count {u : Use} {holder holder' : Holder} (ne : holder ≠ holder')
    (there : u ∈ m.pages.holds (m.live lost) holder)
    (there' : u ∈ m.pages.holds (m.live lost) holder') :
    2 ≤ (behind + tally (m.pages.holds (m.live lost))).count u := by
  have change := congrArg (Multiset.count u) (tally_update evens.sparse holder 0)
  have still : u ∈ tally (Function.update (m.pages.holds (m.live lost)) holder 0) := by
    refine (mem_tally (evens.sparse.update holder 0)).mpr ⟨holder', ?_⟩
    rw [Function.update_of_ne ne.symm]
    exact there'
  have one := Multiset.count_pos.mpr there
  have other := Multiset.count_pos.mpr still
  have all := Multiset.count_add u behind (tally (m.pages.holds (m.live lost)))
  rw [Multiset.count_add, add_zero] at change
  omega

/-- One place holds a frame of the kernel. -/
theorem once {u u' : Use} {holder holder' : Holder} (own : u = .spare f ∨ u = .whole f)
    (own' : u' = .spare f ∨ u' = .whole f) (there : u ∈ m.pages.holds (m.live lost) holder)
    (there' : u' ∈ m.pages.holds (m.live lost) holder') : holder = holder' := by
  by_contra ne
  have once := (evens.accounts.fits f).once
  have counted : ∀ {v holder}, v ∈ m.pages.holds (m.live lost) holder →
      0 < (behind + tally (m.pages.holds (m.live lost))).count v := by
    intro v holder mem
    exact Multiset.count_pos.mpr
      (Multiset.mem_add.mpr (.inr ((mem_tally evens.sparse).mpr ⟨holder, mem⟩)))
  have one := counted there
  have other := counted there'
  rcases own with rfl | rfl
  · rcases own' with rfl | rfl
    · have two := evens.two_le_count ne there there'
      omega
    · omega
  · rcases own' with rfl | rfl
    · omega
    · have two := evens.two_le_count ne there there'
      omega

end Evens

/-! ## What is counted -/

/-- The entries that map a frame. -/
def mapping (m : Memory) (f : Frame) : Set (MmPtr × Nat) :=
  {place | m.vm.mmUsed place.1 = true ∧
    ∃ perm, m.pages.pte (.user place.1 place.2) = .present f perm}

/-- The entries that hold a slot. -/
def holding (m : Memory) (e : SwapEntry) : Set (MmPtr × Nat) :=
  {place | m.vm.mmUsed place.1 = true ∧ m.pages.pte (.user place.1 place.2) = .swapped e}

/-- Every reference of an entry is counted, once, and what is not referred to is not in use. -/
structure Counted (m : Memory) : Prop where
  ref : ∀ f, m.pages.free f = true ∨ (m.pages.page f).swap = true ∨ (m.mapping f).Nonempty →
    (m.pages.page f).ref = (m.mapping f).ncard
  free : ∀ f, m.pages.free f = true → (m.pages.page f).swap = false ∧ m.mapping f = ∅
  kernel : ∀ f mm, m.vm.mmUsed mm = true →
    m.pages.pgdir mm = f ∨ (∃ index, m.pages.table mm index = some f) →
      m.pages.free f = false ∧ (m.pages.page f).swap = false ∧ m.mapping f = ∅
  pgdir : ∀ mm mm', m.vm.mmUsed mm = true → m.vm.mmUsed mm' = true →
    m.pages.pgdir mm = m.pages.pgdir mm' → mm = mm'
  table : ∀ mm mm' index index', m.vm.mmUsed mm = true → m.vm.mmUsed mm' = true →
    m.pages.table mm index = m.pages.table mm' index' → (m.pages.table mm index).isSome = true →
      mm = mm' ∧ index = index'
  apart : ∀ mm mm' index, m.vm.mmUsed mm = true → m.vm.mmUsed mm' = true →
    m.pages.table mm' index ≠ some (m.pages.pgdir mm)
  memMap : ∀ e, (m.holding e).Nonempty ∨ m.pages.IsSlot e ∧ m.pages.memMap e ≠ swapUnused →
    m.pages.memMap e = (m.holding e).ncard
  slot : ∀ e, (m.holding e).Nonempty → m.pages.IsSlot e
  cached : ∀ f, (m.pages.page f).swap = true →
    m.pages.IsSlot (m.pages.page f).index ∧ m.pages.memMap (m.pages.page f).index ≠ swapUnused
  idle : ∀ e, m.pages.IsSlot e → m.pages.memMap e = 0 → ∃ f, m.pages.Caches f e
  lists : m.pages.SwapLists ∧ m.pages.nrActive = m.pages.activeList.length ∧
    m.pages.nrInactive = m.pages.inactiveList.length

/-- Without segments the entries are those of address spaces. -/
theorem mappers_eq (alone : ∀ s, m.vm.shmemUsed s = false) (f : Frame) :
    m.mappers f = (fun place : MmPtr × Nat => Slot.user place.1 place.2) '' m.mapping f := by
  ext slot
  constructor
  · rintro ⟨has, isEntry⟩
    cases slot with
    | user mm page => exact ⟨(mm, page), ⟨has, isEntry⟩, rfl⟩
    | shared s page =>
        have used : m.vm.shmemUsed s = true := has
        rw [alone s] at used
        cases used
  · rintro ⟨⟨mm, page⟩, ⟨has, isEntry⟩, rfl⟩
    exact ⟨has, isEntry⟩

theorem keepers_eq (alone : ∀ s, m.vm.shmemUsed s = false) (e : SwapEntry) :
    m.keepers e = (fun place : MmPtr × Nat => Slot.user place.1 place.2) '' m.holding e := by
  ext slot
  constructor
  · rintro ⟨has, isEntry⟩
    cases slot with
    | user mm page => exact ⟨(mm, page), ⟨has, isEntry⟩, rfl⟩
    | shared s page =>
        have used : m.vm.shmemUsed s = true := has
        rw [alone s] at used
        cases used
  · rintro ⟨⟨mm, page⟩, ⟨has, isEntry⟩, rfl⟩
    exact ⟨has, isEntry⟩

theorem user_injective :
    Function.Injective fun place : MmPtr × Nat => Slot.user place.1 place.2 := by
  rintro ⟨mm, page⟩ ⟨mm', page'⟩ same
  cases same
  rfl

/-- What the balance says of the entries that there are, without segments. -/
theorem Evens.counted (evens : m.Evens lost behind) (alone : ∀ s, m.vm.shmemUsed s = false) :
    m.Counted := by
  have books := evens.accounts.books
  have mapCount : ∀ f, (m.mappers f).ncard = (m.mapping f).ncard := fun f => by
    rw [mappers_eq alone, Set.ncard_image_of_injective _ user_injective]
  have holdCount : ∀ e, (m.keepers e).ncard = (m.holding e).ncard := fun e => by
    rw [keepers_eq alone, Set.ncard_image_of_injective _ user_injective]
  have unmapped : ∀ f, m.mappers f = ∅ → m.mapping f = ∅ := fun f none => by
    rw [mappers_eq alone] at none
    exact Set.image_eq_empty.mp none
  have held : ∀ e, (m.holding e).Nonempty →
      0 < (behind + tally (m.pages.holds (m.live lost))).count (.entry e) := by
    rintro e ⟨⟨mm, page⟩, has, isEntry⟩
    refine Nat.pos_of_ne_zero fun zero => ?_
    have none := evens.keepers_eq_empty_iff.mpr zero
    have mem : Slot.user mm page ∈ m.keepers e := ⟨has, isEntry⟩
    rw [none] at mem
    exact mem
  refine ⟨fun f seen => ?_, fun f isFree => ?_, fun f mm used there => ?_,
    fun mm mm' used used' same => ?_, fun mm mm' index index' used used' same there => ?_,
    fun mm mm' index used used' same => ?_, fun e seen => ?_, fun e there => ?_,
    fun f swap => ?_, fun e slot zero => ?_, ?_⟩
  · rw [← mapCount f]
    rcases seen with isFree | swap | ⟨⟨mm, page⟩, has, isEntry⟩
    · obtain ⟨ref, _, none⟩ := evens.of_free isFree
      rw [ref, none, Set.ncard_empty]
      rfl
    · exact (evens.of_data (.inl swap)).2.1
    · exact (evens.of_data (.inr ⟨.user mm page, has, isEntry⟩)).2.1
  · obtain ⟨_, swap, none⟩ := evens.of_free isFree
    exact ⟨swap, unmapped f none⟩
  · rcases there with isPgdir | ⟨index, isTable⟩
    · obtain ⟨taken, swap, none, _⟩ := evens.of_root (.inl ⟨mm, used, isPgdir⟩)
      exact ⟨taken, swap, unmapped f none⟩
    · obtain ⟨taken, swap, none, _⟩ := evens.of_table (.inl ⟨mm, index, used, isTable⟩)
      exact ⟨taken, swap, unmapped f none⟩
  · have one := evens.once (.inl rfl) (.inl rfl) (directory_mem used)
      (same ▸ directory_mem used')
    exact Holder.directory.inj one
  · obtain ⟨f, isFrame⟩ := Option.isSome_iff_exists.mp there
    have one := evens.once (.inr rfl) (.inr rfl) (table_mem used isFrame)
      (table_mem used' (same ▸ isFrame))
    exact Holder.table.inj one
  · cases evens.once (.inl rfl) (.inr rfl) (directory_mem used) (table_mem used' same)
  · rw [← holdCount e, ← evens.count_entry e]
    rcases seen with there | ⟨slot, used⟩
    · exact (books.memMap_eq (held e there)).1
    · exact books.counted e slot used
  · exact books.inRange e (held e there)
  · exact ⟨books.cached f swap, evens.accounts.index_used swap⟩
  · exact books.idle e slot zero
  · exact evens.lists

/-! ## Runs -/

/-- A memory before there is an address space, whose areas, not in use, name no segment. -/
structure Fresh (m : Memory) : Prop where
  initial : m.Initial
  blank : m.Blank
  unshared : ∀ v, (m.vm.vma v).shmem = none

theorem Initial.evens (initial : m.Initial) (blank : m.Blank) :
    m.Evens (fun f => m.pages.free f = false) 0 := by
  obtain ⟨noActive, noInactive, nrActive, nrInactive⟩ := initial.lists
  have empty : m.pages.holds (m.live fun f => m.pages.free f = false) = fun _ => 0 := by
    funext holder
    cases holder with
    | slot slot =>
        cases slot with
        | user mm page => simp [Pages.holds, Live.has, live, initial.mm mm]
        | shared s page => simp [Pages.holds, Live.has, live, initial.shmem s]
    | directory mm => simp [Pages.holds, live, initial.mm mm]
    | table mm index => simp [Pages.holds, live, initial.mm mm]
    | nodes s => simp [Pages.holds, live, initial.shmem s]
  have uncached : ∀ f, (m.pages.page f).swap ≠ true := fun f => by simp [initial.swap f]
  have bare : m.Bare := ⟨blank, initial.vma, initial.shmem⟩
  have sparse : Sparse (m.pages.holds (m.live fun f => m.pages.free f = false)) := by
    rw [empty]
    exact sparse_zero
  refine ⟨⟨⟨sparse, ⟨fun f => ?_, ?_⟩,
    fun mm page present => absurd (blank.entries mm page) present, fun s isLive => ?_⟩,
    bare.sound.toTallied⟩, fun u mem => absurd mem (Multiset.notMem_zero u)⟩
  · change Page.Fits _ _ (Multiset.count _ (0 + tally (m.pages.holds (m.live _))))
      (Multiset.count _ (0 + tally (m.pages.holds (m.live _))))
      (Multiset.count _ (0 + tally (m.pages.holds (m.live _)))) _
    rw [empty, tally_zero]
    cases isFree : m.pages.free f with
    | false => exact .of_lost (initial.swap f) isFree
    | true =>
        obtain ⟨index, isPage⟩ := initial.free f isFree
        rw [isPage]
        refine ⟨?_, fun _ => rfl, fun _ => ⟨rfl, by simp [Scope.live, isFree]⟩, .inl (.inl rfl)⟩
        simp
  · change Pages.SwapBooks _ (fun e =>
      Multiset.count _ (0 + tally (m.pages.holds (m.live _)))) none
    rw [empty, tally_zero]
    refine ⟨fun e _ used => absurd (initial.memMap e) used,
      fun e _ _ => ⟨rfl, fun f caches => absurd caches.1 (uncached f)⟩,
      fun e some => absurd some (Nat.lt_irrefl 0), fun f swap => absurd swap (uncached f),
      fun e _ zero => ?_, fun h f => ?_, fun h => ?_, fun f => ?_, fun f => ?_, ?_, ?_,
      fun f _ swap => absurd swap (uncached f), ?_, ?_, ?_, fun e => ?_⟩
    · rw [initial.memMap e] at zero
      cases zero
    · simp [initial.hashList h, initial.swap f]
    · simp [initial.hashList h]
    · simp [noActive, initial.swap f]
    · simp [noInactive, initial.swap f]
    · simp [noActive]
    · simp [noInactive]
    · simp [nrActive, noActive]
    · simp [nrInactive, noInactive]
    · rw [initial.next]
      exact ⟨Nat.one_pos, by have := initial.maxSwapOffset.1; omega⟩
    · rw [initial.memMap e]
  · have used : m.vm.shmemUsed s = true := isLive
    rw [initial.shmem s] at used
    cases used

theorem unusedMemory_initial : unusedMemory.Initial :=
  ⟨fun _ => rfl, fun _ => rfl, fun _ => rfl, fun _ _ => ⟨0, rfl⟩,
    ⟨8, fun _ isFree => of_decide_eq_true isFree⟩, fun _ => rfl, fun _ => rfl, fun _ => rfl,
    ⟨rfl, rfl, rfl, rfl⟩, rfl, by decide⟩

theorem unusedMemory_blank : unusedMemory.Blank :=
  ⟨fun _ => ⟨rfl, rfl⟩, fun _ _ => rfl⟩

/-- What a run of calls comes to. -/
theorem run_evens (initial : m₀.Initial) (blank : m₀.Blank)
    (run : Run.exec call m₀ calls = .ok m) :
    m.Formed ∧ (∃ behind, m.Evens (fun f => m₀.pages.free f = false) behind ∧ ∀ f,
        .whole f ∈ behind → Run.Sometime call (fun m c => c.Abandons m f) m₀ calls) ∧
      ((∀ c ∈ calls, c.isPrivate = true) → ∀ s, m.vm.shmemUsed s = false) := by
  obtain ⟨formed, ⟨more, after, left⟩, fewer⟩ := run_goes call
    (fun m c => c.Abandons m) Call.isPrivate
    (fun m c behind balanced formed => call_goes balanced formed c)
    (fun m c n formed taken => (call_formed formed c).2 n taken)
    (initial.evens blank).balanced blank.formed run
  rw [zero_add] at after
  refine ⟨formed, ⟨more, ⟨after, fun u mem => ?_⟩, fun f mem => ?_⟩, fun alone s => ?_⟩
  · obtain ⟨f, isWhole, _⟩ := left u mem
    exact ⟨f, isWhole⟩
  · obtain ⟨g, isWhole, there⟩ := left _ mem
    cases isWhole
    exact there
  · rw [← Bool.not_eq_true]
    intro used
    have before := fewer alone s used
    rw [initial.shmem s] at before
    cases before

/-- In every state that calls, page faults, evictions and accesses reach from a fresh memory while
no segment is shared, with whatever answers of `kmalloc`, `alloc_page` and the disk: `ref` of every
frame that is free, cached or mapped is the number of entries that map it, `mem_map` of every slot
in use is the number of entries that hold it, no frame that is free or belongs to the kernel is
mapped or cached, and the hash and the two lists agree with the pages.  No call frees a frame that
is free or reserved, caches or lists a page twice, or finds a reserved one mapped. -/
theorem references_counted (fresh : m₀.Fresh) (isPrivate : ∀ c ∈ calls, c.isPrivate = true)
    (run : Run.exec call m₀ calls = .ok m) :
    m.Counted ∧ ∀ c, c.isPrivate = true → ∀ reason, m.call c = .error reason → ¬reason.Misuse := by
  obtain ⟨formed, ⟨behind, evens, _⟩, alone⟩ := run_evens fresh.initial fresh.blank run
  exact ⟨evens.counted (alone isPrivate), fun c _ reason stopped =>
    (call_goes evens.balanced formed c).not_ruledOut stopped⟩

/-- A page is written out, and its entry is copied to another address space. -/
theorem references_counted_swapped : ∃ m : Memory,
    m.pages.pte (.user 1 (userBase / pgSize)) = .swapped 1 ∧ m.pages.memMap 1 = 2 ∧
      (m.holding 1).ncard = 2 ∧ m.Counted := by
  obtain ⟨m, run, used, isEntry, isCount⟩ := @Run.exec_of_decide _ _ _ call
    (fun m => m.vm.mmUsed 1 = true ∧ m.pages.pte (.user 1 (userBase / pgSize)) = .swapped 1 ∧
      m.pages.memMap 1 = 2) _ unusedMemory
    [.event ⟨.new, [some 1], [some 0], []⟩,
      .event ⟨.map 1 userBase (4 * pgSize) vmWrite, [some 2], [], []⟩,
      .event ⟨.pgfault 1 6 userBase, [], [some 1, some 2], []⟩,
      .event ⟨.swapOut 1 1, [], [], []⟩,
      .event ⟨.refill, [], [], []⟩,
      .event ⟨.launder, [], [], [false]⟩,
      .event ⟨.fork 1, [some 2, some 3], [some 3, some 4], []⟩] (by decide +kernel)
  have counted := (references_counted ⟨unusedMemory_initial, unusedMemory_blank, fun _ => rfl⟩
    (by decide) run).1
  have there : (m.holding 1).Nonempty := ⟨(1, userBase / pgSize), used, isEntry⟩
  exact ⟨m, isEntry, isCount, (counted.memMap 1 (.inl there)).symm.trans isCount, counted⟩

end Memory

end EdfKernel.Mm
