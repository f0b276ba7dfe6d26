import EdfKernel.Mm.Lengths

/-!
# The heap of a process

`do_brk` moves the end of the heap.  It stores the new end through a pointer that it has checked
before, and by then the memory behind the pointer may be the memory that has been released.
-/

namespace EdfKernel.Mm

open Library Library.Intervals

namespace Memory

/-- `mm->brk = newbrk`. -/
def setBrk (m : Memory) (mm : MmPtr) (newbrk : Nat) : Memory :=
  { m with vm := m.vm.modifyMm mm fun s => { s with brk := newbrk } }

/-- `do_brk` between the check of the pointer and the final store, where `brk` is what the process
has stored. -/
def moveBrk (m : Memory) (mm : MmPtr) (brk : Nat) : Except Panic Memory :=
  if brk < (m.vm.mm mm).brkStart then .ok m
  else
    let newbrk := roundUp brk pgSize
    let oldbrk := (m.vm.mm mm).brk
    if oldbrk % pgSize ≠ 0 then .error .other
    else if newbrk = oldbrk then .ok m
    else if newbrk < oldbrk then do
      let (ret, m) ← m.mmUnmap mm newbrk (oldbrk - newbrk)
      return if ret ≠ 0 then m else m.setBrk mm newbrk
    else
      match m.vm.findVmaIntersection mm oldbrk (add32 newbrk pgSize) with
      | (some _, vm) => .ok { m with vm := vm }
      | (none, vm) => do
          let (ret, m) ← { m with vm := vm }.mmBrk mm oldbrk (newbrk - oldbrk)
          return if ret ≠ 0 then m else m.setBrk mm newbrk

/-- `do_brk` up to the final store of `mm->brk` at `brkStore`. -/
def doBrk (m : Memory) (mm : MmPtr) (brkStore brk : Nat) : Except Panic (Int × Memory) :=
  if brkStore = 0 then .ok (-eInval, m)
  else
    match m.vm.userMemCheck (some mm) brkStore 4 true with
    | (false, vm) => .ok (-eInval, { m with vm := vm })
    | (true, vm) => do
        let m ← { m with vm := vm }.moveBrk mm brk
        return (0, m)

variable {m m' : Memory} {mm : MmPtr} {a addr len start stop : Nat} {v : VmaPtr}
  {flags : BitVec 32}

/-! ## Stores -/

/-- `do_pgfault` does not reject a write to the address. -/
def Storable (m : Memory) (mm : MmPtr) (a : Nat) : Prop :=
  ∀ errorCode, errorCode &&& 2 ≠ 0 → ¬m.faultDenied mm errorCode a

/-- A write is possible exactly in an area that can be written, above the guard page of a stack. -/
theorem storable_iff (set : m.vm.VmaSet mm) : m.Storable mm a ↔
    ∃ lo flags, m.vm.Lies mm a lo flags ∧ has flags vmWrite = true ∧
      ¬(has flags vmStack = true ∧ a < add32 lo pgSize) := by
  constructor
  · intro storable
    have admitted := storable 2 (by decide)
    rw [faultDenied_iff] at admitted
    obtain ⟨search, sets⟩ := set.findVma a
    rw [search, sets.vma] at admitted
    push Not at admitted
    obtain ⟨v, found, admits⟩ := admitted
    obtain ⟨mem, ends, _⟩ := set.ordered.find_eq_some found
    simp only [VmaStruct.admits, ne_eq, Bool.not_eq_false, Bool.and_eq_true, decide_eq_true_eq,
      Bool.not_eq_true'] at admits
    rw [permits_write (by decide)] at admits
    refine ⟨m.vm.lo v, _, ⟨v, mem, rfl, admits.1.1, ends, rfl⟩, admits.2, fun guarded => ?_⟩
    have unguarded := admits.1.2
    simp only [VmaStruct.guarded, guarded.1, Bool.true_and, decide_eq_false_iff_not] at unguarded
    exact unguarded guarded.2
  · rintro ⟨_, _, ⟨v, mem, rfl, from_, upTo, rfl⟩, writable, unguarded⟩ errorCode written
    rw [faultDenied_iff_of_covers set (.refl set) mem ⟨from_, upTo⟩, permits_write written, writable]
    rintro (guarded | denied)
    · simp only [VmaStruct.guarded, Bool.and_eq_true, decide_eq_true_eq] at guarded
      exact unguarded guarded
    · cases denied

end Memory

namespace Vm

variable {vm vm' : Vm} {mm : MmPtr} {v w : VmaPtr} {addr stop lo : Nat} {flags : BitVec 32}

/-! ## mm_brk -/

/-- An area of the set is extended. -/
theorem VmaSet.extend (set : VmaSet vm mm) (mem : v ∈ vm.areas mm)
    (range : UserRange (vm.lo v) stop) (high : vm.hi v ≤ stop)
    (free : ∀ w ∈ vm.areas mm, w = v ∨ vm.hi w ≤ vm.lo v ∨ stop ≤ vm.lo w) :
    VmaSet (vm.modifyVma v fun s => { s with vmEnd := stop }) mm := by
  have loSame : ∀ w, (vm.modifyVma v fun s => { s with vmEnd := stop }).lo w = vm.lo w := by
    intro w
    by_cases own : w = v
    · rw [own, Vm.lo, modifyVma_vma_self]
      rfl
    · rw [Vm.lo, modifyVma_vma_of_ne _ _ own]
      rfl
  have hiSame : ∀ w, w ≠ v → (vm.modifyVma v fun s => { s with vmEnd := stop }).hi w = vm.hi w := by
    intro w own
    rw [Vm.hi, modifyVma_vma_of_ne _ _ own]
    rfl
  have hiSelf : (vm.modifyVma v fun s => { s with vmEnd := stop }).hi v = stop := by
    rw [Vm.hi, modifyVma_vma_self]
  have ranges : ∀ w ∈ vm.areas mm, UserRange (vm.lo w)
      ((vm.modifyVma v fun s => { s with vmEnd := stop }).hi w) := by
    intro w memW
    by_cases own : w = v
    · rw [own, hiSelf]
      exact range
    · rw [hiSame w own]
      exact set.range w memW
  constructor
  · refine ⟨fun w memW => ?_, ?_⟩
    · rw [loSame]
      exact (ranges w memW).2.1
    · refine set.ordered.apart.imp_of_mem fun {x y} memX memY le => ?_
      rw [loSame]
      by_cases own : x = v
      · subst own
        rw [hiSelf]
        have insideX := set.ordered.nonempty x mem
        have insideY := set.ordered.nonempty y memY
        rcases free y memY with rfl | below | above
        · omega
        · omega
        · exact above
      · rw [hiSame x own]
        exact le
  · intro w memW
    rw [loSame]
    exact ranges w memW
  · intro w memW
    refine ⟨(set.owned w memW).1, ?_⟩
    by_cases own : w = v
    · rw [own, modifyVma_vma_self]
      exact (set.owned v mem).2
    · rw [modifyVma_vma_of_ne _ _ own]
      exact (set.owned w memW).2
  · exact set.count
  · exact set.tree
  · exact set.cache

theorem lies_extend (mem : v ∈ vm.areas mm) (high : vm.hi v ≤ stop) :
    (vm.modifyVma v fun s => { s with vmEnd := stop }).Lies mm addr lo flags ↔
      vm.Lies mm addr lo flags ∨
        (vm.lo v = lo ∧ lo ≤ addr ∧ vm.hi v ≤ addr ∧ addr < stop ∧ (vm.vma v).vmFlags = flags) := by
  have self : (vm.modifyVma v fun s => { s with vmEnd := stop }).vma v =
      { vm.vma v with vmEnd := stop } := modifyVma_vma_self ..
  have other : ∀ w, w ≠ v → (vm.modifyVma v fun s => { s with vmEnd := stop }).vma w = vm.vma w :=
    fun w own => modifyVma_vma_of_ne _ _ own
  unfold Lies
  change (∃ w ∈ vm.areas mm, _) ↔ _
  constructor
  · rintro ⟨w, memW, isLo, from_, upTo, isFlags⟩
    by_cases own : w = v
    · subst own
      rw [Vm.lo, self] at isLo
      rw [Vm.hi, self] at upTo
      rw [self] at isFlags
      by_cases old : addr < vm.hi w
      · exact .inl ⟨w, mem, isLo, from_, old, isFlags⟩
      · exact .inr ⟨isLo, from_, not_lt.mp old, upTo, isFlags⟩
    · rw [Vm.lo, other w own] at isLo
      rw [Vm.hi, other w own] at upTo
      rw [other w own] at isFlags
      exact .inl ⟨w, memW, isLo, from_, upTo, isFlags⟩
  · rintro (⟨w, memW, isLo, from_, upTo, isFlags⟩ | ⟨isLo, from_, _, upTo, isFlags⟩)
    · refine ⟨w, memW, ?_⟩
      by_cases own : w = v
      · subst own
        rw [Vm.lo, Vm.hi, self]
        exact ⟨isLo, from_, upTo.trans_le high, isFlags⟩
      · rw [Vm.lo, Vm.hi, other w own]
        exact ⟨isLo, from_, upTo, isFlags⟩
    · refine ⟨v, mem, ?_⟩
      rw [Vm.lo, Vm.hi, self]
      exact ⟨isLo, from_, upTo, isFlags⟩

end Vm

namespace Memory

variable {m m' : Memory} {mm : MmPtr} {a addr len start stop : Nat} {v : VmaPtr}
  {flags : BitVec 32}

/-- The entries of the page tables of all processes are as before. -/
def SameEntries (m m' : Memory) : Prop :=
  ∀ mm page, m'.pages.pte (.user mm page) = m.pages.pte (.user mm page)

theorem SameEntries.of_eq (pages : m'.pages = m.pages) : m.SameEntries m' :=
  fun _ _ => by rw [pages]

theorem SameEntries.trans {m'' : Memory} (first : m.SameEntries m') (second : m'.SameEntries m'') :
    m.SameEntries m'' :=
  fun mm page => (second mm page).trans (first mm page)

/-- The areas are as before, and so are the page tables. -/
structure SameAreas (m m' : Memory) (mm : MmPtr) : Prop where
  set : m'.vm.VmaSet mm
  keeps : m.vm.Keeps m'.vm mm
  lies : ∀ addr lo flags, m'.vm.Lies mm addr lo flags ↔ m.vm.Lies mm addr lo flags
  entries : m.SameEntries m'

theorem SameAreas.of_setsCache {vm : Vm} {grants : List (Option Nat)} (set : m.vm.VmaSet mm)
    (sets : m.vm.SetsCache mm vm) (same : m'.vm = { vm with grants := grants })
    (pages : m'.pages = m.pages) : m.SameAreas m' mm := by
  have set' := set.setsCache sets
  refine ⟨?_, ?_, fun addr lo flags => ?_, .of_eq pages⟩
  · rw [same]
    exact set'.congr set'.cache rfl fun w mem => ⟨rfl, (set'.owned w mem).1⟩
  · rw [same]
    exact sets.keeps.trans (.of_eq rfl)
  · rw [same]
    exact Vm.lies_congr sets.areas fun w _ => by rw [sets.vma]

theorem SameAreas.trans {m'' : Memory} (first : m.SameAreas m' mm) (second : m'.SameAreas m'' mm) :
    m.SameAreas m'' mm :=
  ⟨second.set, first.keeps.trans second.keeps,
    fun addr lo flags => (second.lies addr lo flags).trans (first.lies addr lo flags),
    first.entries.trans second.entries⟩

theorem SameAreas.free (same : m.SameAreas m' mm)
    (free : ∀ w ∈ m.vm.areas mm, ¬m.vm.Meets start stop w) :
    ∀ w ∈ m'.vm.areas mm, ¬m'.vm.Meets start stop w := by
  rintro w mem ⟨low, high⟩
  have inside := same.set.ordered.nonempty w mem
  have here : m'.vm.Lies mm (max start (m'.vm.lo w)) (m'.vm.lo w) (m'.vm.vma w).vmFlags :=
    ⟨w, mem, rfl, le_max_right .., max_lt high inside, rfl⟩
  obtain ⟨v, memV, isLo, _, upTo, _⟩ := (same.lies ..).mp here
  exact free v memV ⟨by rw [isLo]; exact low, (le_max_left ..).trans_lt upTo⟩

/-- A range becomes a part of a readable and writable area, and nothing else changes. -/
structure Grown (m m' : Memory) (mm : MmPtr) (start stop : Nat) : Prop where
  set : m'.vm.VmaSet mm
  keeps : m.vm.Keeps m'.vm mm
  range : Vm.UserRange start stop
  lies : ∃ first ≤ start, ∀ addr lo flags, m'.vm.Lies mm addr lo flags ↔
    m.vm.Lies mm addr lo flags ∨
      (first = lo ∧ start ≤ addr ∧ addr < stop ∧ vmRead ||| vmWrite = flags)
  entries : m.SameEntries m'

theorem SameAreas.grown {m'' : Memory} (same : m.SameAreas m' mm)
    (grown : m'.Grown m'' mm start stop) : m.Grown m'' mm start stop := by
  obtain ⟨first, le, lies⟩ := grown.lies
  refine ⟨grown.set, same.keeps.trans grown.keeps, grown.range, ⟨first, le, fun addr lo flags => ?_⟩,
    same.entries.trans grown.entries⟩
  rw [lies, same.lies]

variable {brkStore brk : Nat}

theorem SameAreas.maps_iff (same : m.SameAreas m' mm) : m'.Maps mm a flags ↔ m.Maps mm a flags := by
  rw [Memory.maps_iff, Memory.maps_iff]
  exact exists_congr fun lo => same.lies a lo flags

theorem SameAreas.storable_iff (set : m.vm.VmaSet mm) (same : m.SameAreas m' mm) :
    m'.Storable mm a ↔ m.Storable mm a := by
  rw [Memory.storable_iff same.set, Memory.storable_iff set]
  exact exists_congr fun lo => exists_congr fun flags => and_congr_left fun _ => same.lies a lo flags

/-- An address lies in one area. -/
theorem lies_unique {lo lo' : Nat} {flags' : BitVec 32} (set : m.vm.VmaSet mm)
    (first : m.vm.Lies mm a lo flags) (second : m.vm.Lies mm a lo' flags') :
    lo = lo' ∧ flags = flags' := by
  obtain ⟨v, memV, rfl, fromV, upToV, rfl⟩ := first
  obtain ⟨w, memW, rfl, fromW, upToW, rfl⟩ := second
  rw [set.ordered.eq_of_common memV memW ⟨fromV, upToV⟩ ⟨fromW, upToW⟩]
  exact ⟨rfl, rfl⟩

/-- A shrink that `mm_unmap` performs. -/
def Shrinks (m : Memory) (mm : MmPtr) (brk : Nat) : Prop :=
  (m.vm.mm mm).brkStart ≤ brk ∧ roundUp brk pgSize < (m.vm.mm mm).brk ∧
    userAccess (roundUp brk pgSize) (m.vm.mm mm).brk = true ∧
    ¬m.NoRoom mm (roundUp brk pgSize) (m.vm.mm mm).brk

/-- A change of the heap from `oldbrk` to `newbrk`: released with the entries of its pages, taken
into a readable and writable area, or none. -/
inductive BrkAreas (m m' : Memory) (mm : MmPtr) (brk oldbrk newbrk : Nat) : Prop
  | shrinks : newbrk < oldbrk → (m'.vm.mm mm).brk = newbrk →
      (∀ a flags, m'.Maps mm a flags ↔ m.Maps mm a flags ∧ ¬(newbrk ≤ a ∧ a < oldbrk)) →
      (∀ mm' page, m'.pages.pte (.user mm' page) =
        if mm' = mm ∧ newbrk ≤ page * pgSize ∧ page * pgSize < oldbrk then .zero
        else m.pages.pte (.user mm' page)) →
      BrkAreas m m' mm brk oldbrk newbrk
  | grows : oldbrk < newbrk → (m'.vm.mm mm).brk = newbrk →
      (∀ v ∈ m.vm.areas mm, ¬m.vm.Meets oldbrk newbrk v) →
      (∀ a flags, m'.Maps mm a flags ↔
        m.Maps mm a flags ∨ oldbrk ≤ a ∧ a < newbrk ∧ vmRead ||| vmWrite = flags) →
      m.SameEntries m' → BrkAreas m m' mm brk oldbrk newbrk
  | stays : ¬m.Shrinks mm brk → (m'.vm.mm mm).brk = oldbrk →
      (∀ a flags, m'.Maps mm a flags ↔ m.Maps mm a flags) → m.SameEntries m' →
      BrkAreas m m' mm brk oldbrk newbrk

/-- Releasing a range takes the address, or leaves it in the guard page of a stack. -/
def LosesByte (m : Memory) (mm : MmPtr) (newbrk oldbrk a : Nat) : Prop :=
  (newbrk ≤ a ∧ a < oldbrk) ∨
    oldbrk ≤ a ∧ a < oldbrk + pgSize ∧
      ∃ v ∈ m.vm.areas mm, m.vm.lo v < oldbrk ∧ a < m.vm.hi v ∧
        has (m.vm.vma v).vmFlags vmStack = true

/-- A shrink takes memory that the new end of the heap is to be stored in. -/
def StoreLost (m : Memory) (mm : MmPtr) (brkStore brk : Nat) : Prop :=
  m.Shrinks mm brk ∧
    ∃ a, brkStore ≤ a ∧ a < brkStore + 4 ∧ m.LosesByte mm (roundUp brk pgSize) (m.vm.mm mm).brk a

/-- After a range is unmapped, the stores are possible that do not lose their byte. -/
theorem Unmapped.storable_iff (set : m.vm.VmaSet mm) (range : Vm.UserRange start stop)
    (unmapped : m.Unmapped m' mm start stop) (storable : m.Storable mm a) :
    m'.Storable mm a ↔ ¬m.LosesByte mm start stop a := by
  obtain ⟨lo, flags, here, writable, unguarded⟩ := (Memory.storable_iff set).mp storable
  rw [Memory.storable_iff unmapped.formed.set]
  have stopWord : add32 stop pgSize = stop + pgSize := by
    have top := range.2.2.1
    unfold add32 userTop pgSize at *
    omega
  have less := range.2.1
  unfold LosesByte
  constructor
  · rintro ⟨lo', flags', after, _, unguarded'⟩ lost
    obtain ⟨lo₂, before, outside, isLo⟩ := (unmapped.lies ..).mp after
    rcases lost with inside | ⟨above, near, v, mem, low, high, stack⟩
    · exact outside inside
    · have inV : m.vm.Lies mm a (m.vm.lo v) (m.vm.vma v).vmFlags :=
        ⟨v, mem, rfl, by omega, high, rfl⟩
      obtain ⟨sameLo, sameFlags⟩ := lies_unique set before inV
      rw [if_neg (by omega), sameLo, max_eq_right low.le] at isLo
      rw [isLo, sameFlags, stopWord] at unguarded'
      exact unguarded' ⟨stack, near⟩
  · intro kept
    have outside : ¬(start ≤ a ∧ a < stop) := fun inside => kept (.inl inside)
    refine ⟨_, flags, (unmapped.lies ..).mpr ⟨lo, here, outside, rfl⟩, writable, ?_⟩
    rintro ⟨stack, guarded⟩
    split at guarded
    · exact unguarded ⟨stack, guarded⟩
    · rename_i above
      rcases le_or_gt stop lo with starts | cut
      · rw [max_eq_left starts] at guarded
        exact unguarded ⟨stack, guarded⟩
      · rw [max_eq_right cut.le, stopWord] at guarded
        obtain ⟨v, mem, rfl, _, upTo, rfl⟩ := here
        exact kept (.inr ⟨by omega, guarded, v, mem, cut, upTo, stack⟩)

/-- The part of the outcome that no store is needed for. -/
structure BrkMoved (m m' : Memory) (mm : MmPtr) (brk : Nat) : Prop where
  areas : BrkAreas m m' mm brk (m.vm.mm mm).brk (roundUp brk pgSize)
  aligned : (m'.vm.mm mm).brk % pgSize = 0
  low : (m'.vm.mm mm).brkStart ≤ (m'.vm.mm mm).brk

section Move

variable (formed : m.WellFormed mm)
  (storable : ∀ a, brkStore ≤ a → a < brkStore + 4 → m.Storable mm a)

include formed storable

end Move

/-- The changes of the cache by the check of the pointer do not matter. -/
theorem Shrinks.setsCache_iff {vm : Vm} (sets : m.vm.SetsCache mm vm) :
    ({ m with vm := vm } : Memory).Shrinks mm brk ↔ m.Shrinks mm brk := by
  have noRoom := fun start stop => @NoRoom.setsCache_iff m mm start stop vm sets
  unfold Shrinks
  simp only [noRoom]
  rw [sets.keeps.brk, sets.keeps.brkStart]

theorem StoreLost.setsCache_iff {vm : Vm} (sets : m.vm.SetsCache mm vm) :
    ({ m with vm := vm } : Memory).StoreLost mm brkStore brk ↔ m.StoreLost mm brkStore brk := by
  unfold StoreLost
  rw [Shrinks.setsCache_iff sets]
  unfold LosesByte Vm.lo Vm.hi
  simp only
  rw [sets.areas, sets.vma, sets.keeps.brk]

theorem BrkMoved.of_setsCache {vm : Vm} (set : m.vm.VmaSet mm) (sets : m.vm.SetsCache mm vm)
    (moved : ({ m with vm := vm } : Memory).BrkMoved m' mm brk) : m.BrkMoved m' mm brk := by
  have same := @SameAreas.of_setsCache m { m with vm := vm } mm vm vm.grants set sets rfl rfl
  obtain ⟨areas, aligned, low⟩ := moved
  refine ⟨?_, aligned, low⟩
  have isBrk := sets.keeps.brk
  simp only [isBrk] at areas
  cases areas with
  | shrinks less end_ maps entries =>
      exact .shrinks less end_ (fun a flags => by rw [maps, same.maps_iff]) entries
  | grows less end_ free maps entries =>
      refine .grows less end_ ?_ (fun a flags => by rw [maps, same.maps_iff]) entries
      rw [← sets.meets, ← sets.areas]
      exact free
  | stays kept end_ maps entries =>
      exact .stays (fun shrinks => kept ((Shrinks.setsCache_iff sets).mpr shrinks)) end_
        (fun a flags => by rw [maps, same.maps_iff]) entries

end Memory

end EdfKernel.Mm
