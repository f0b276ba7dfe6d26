import EdfKernel.Mm.AreaEdits
import EdfKernel.Mm.Tables

/-!
# Unmapping a range

`mm_unmap` takes the areas that meet a range out of the address space, trims the first and the
last of them and links these in again, or splits an area that contains the range.  Either way the
addresses of the range are the only ones that are no longer mapped.
-/

namespace EdfKernel.Mm

open Library Library.Intervals

namespace Pages

variable {p p' q : Pages} {mm : MmPtr} {start stop la fuel : Nat} {shmem : ShmemPtr}

/-! ## The entries of the range -/

/-- The entries of a range are cleared and the other ones of address spaces are unchanged. -/
structure Cleared (p p' : Pages) (mm : MmPtr) (start stop : Nat) : Prop where
  backed : p'.Backed
  inside : ∀ page, start ≤ page * pgSize → page * pgSize < stop → p'.pte (.user mm page) = .zero
  outside : ∀ mm' page, ¬(mm' = mm ∧ start ≤ page * pgSize ∧ page * pgSize < stop) →
    p'.pte (.user mm' page) = p.pte (.user mm' page)

theorem unmapLoop_outside (aligned : la % pgSize = 0) (top : stop ≤ userTop) (low : la < stop)
    (done : unmapLoop mm stop fuel la p = .ok p') {mm' : MmPtr} {page : Nat}
    (outside : ¬(mm' = mm ∧ la ≤ page * pgSize ∧ page * pgSize < stop)) :
    p'.pte (.user mm' page) = p.pte (.user mm' page) := by
  induction fuel generalizing la p with
  | zero =>
      cases done
      rfl
  | succ fuel ih =>
      have skips := @walkNext_skips p mm _ aligned (low.trans_le top)
      obtain ⟨q, removed, rest⟩ := bind_eq_ok_iff.mp done
      have first : q.pte (.user mm' page) = p.pte (.user mm' page) := by
        split at removed
        · have other : Slot.user mm' page ≠ userSlot mm la := by
            intro same
            cases same
            refine outside ⟨rfl, ?_, ?_⟩
            · unfold pgSize at *
              omega
            · unfold pgSize at *
              omega
          rw [removePte_pte removed]
          exact Function.update_of_ne other ..
        · cases removed
          rfl
      split at rest
      · rename_i more
        rw [ih skips.aligned more.2 rest ?_, first]
        rintro ⟨own, after, before⟩
        have far := skips.far
        exact outside ⟨own, by omega, before⟩
      · cases rest
        exact first

theorem unmapRange_cleared (backed : p.Backed) (done : p.unmapRange mm start stop = .ok p') :
    p.Cleared p' mm start stop := by
  obtain ⟨adds, _, inside⟩ := unmapRange_spec backed done
  refine ⟨adds.backed, inside, fun mm' page outside => ?_⟩
  unfold unmapRange at done
  split at done
  · rename_i ok
    obtain ⟨aligned, _, _, low, top⟩ := rangeOk_spec ok
    exact unmapLoop_outside aligned top low done outside
  · cases done

/-! ## Destroying a segment -/

theorem removePte_shared_userTables {page : Nat}
    (removed : p.removePte (.shared shmem page) = .ok p') : p'.userTables = p.userTables := by
  have pte := removePte_pte removed
  have table := removePte_table removed
  unfold userTables
  rw [table, pte]
  rfl

theorem shmnClear_userTables {count : Nat} (done : shmnClear shmem start count p = .ok p') :
    p'.userTables = p.userTables := by
  induction count generalizing p with
  | zero =>
      cases done
      rfl
  | succ count ih =>
      obtain ⟨q, removed, rest⟩ := bind_eq_ok_iff.mp done
      exact (ih rest).trans (removePte_shared_userTables removed)

theorem shmnDestroyAll_userTables {list : List Shmn}
    (done : shmnDestroyAll shmem list p = .ok p') : p'.userTables = p.userTables := by
  induction list generalizing p with
  | nil =>
      cases done
      rfl
  | cons shmn rest ih =>
      obtain ⟨q, destroyed, done⟩ := bind_eq_ok_iff.mp done
      obtain ⟨r, cleared, freed⟩ := bind_eq_ok_iff.mp destroyed
      have same : q.userTables = p.userTables :=
        (userTables_of_tables (freePage_tables freed)).trans (shmnClear_userTables cleared)
      exact (ih done).trans same

end Pages

namespace Memory

variable {m m' : Memory} {mm : MmPtr} {v w : VmaPtr} {start stop : Nat}

/-! ## The second loop -/

/-- `vma_destroy` changes no area and no entry of an address space. -/
theorem vmaDestroy_frame (done : m.vmaDestroy v = .ok m') :
    m'.vm.vma = m.vm.vma ∧ m'.vm.mm = m.vm.mm ∧
      m'.vm.vmaUsed = Function.update m.vm.vmaUsed v false ∧
      m'.pages.userTables = m.pages.userTables := by
  obtain ⟨n, dropped, rest⟩ := bind_eq_ok_iff.mp done
  cases rest
  split at dropped
  · split at dropped
    · cases dropped
    · simp only at dropped
      split at dropped
      · obtain ⟨pages, destroyed, rest⟩ := bind_eq_ok_iff.mp dropped
        cases rest
        exact ⟨rfl, rfl, rfl, Pages.shmnDestroyAll_userTables destroyed⟩
      · cases dropped
        exact ⟨rfl, rfl, rfl, rfl⟩
  · cases dropped
    exact ⟨rfl, rfl, rfl, rfl⟩

/-- What is left of an area that starts at `lo` when a range is unmapped: the addresses outside
the range, those above it in an area that starts at `stop` or higher. -/
def Remains (start stop addr lo lo' : Nat) : Prop :=
  ¬(start ≤ addr ∧ addr < stop) ∧ lo' = if addr < start then lo else max lo stop

/-- An area that does not meet the range is left as it is. -/
theorem remains_iff_of_free {addr lo lo' hi : Nat} (free : hi ≤ start ∨ stop ≤ lo)
    (from_ : lo ≤ addr) (upTo : addr < hi) : Remains start stop addr lo lo' ↔ lo' = lo := by
  have outside : ¬(start ≤ addr ∧ addr < stop) := by omega
  have moved : (if addr < start then lo else max lo stop) = lo := by
    split
    · rfl
    · exact max_eq_left (by omega)
  rw [Remains, moved]
  exact and_iff_right outside

/-- The second loop at one area: what remains of it is back in the set. -/
structure Trims (m m' : Memory) (mm : MmPtr) (start stop : Nat) (v : VmaPtr) : Prop where
  set : m'.vm.VmaSet mm
  keeps : m.vm.Keeps m'.vm mm
  other : ∀ w, w ≠ v → m'.vm.vma w = m.vm.vma w ∧ m'.vm.vmaUsed w = m.vm.vmaUsed w
  bounds : m.vm.lo v ≤ m'.vm.lo v ∧ m'.vm.hi v ≤ m.vm.hi v
  areas : ∀ w ∈ m'.vm.areas mm, w ∈ m.vm.areas mm ∨ w = v
  lies : ∀ addr lo flags, m'.vm.Lies mm addr lo flags ↔ m.vm.Lies mm addr lo flags ∨
    (m.vm.lo v ≤ addr ∧ addr < m.vm.hi v ∧ Remains start stop addr (m.vm.lo v) lo ∧
      (m.vm.vma v).vmFlags = flags)
  cleared : m.pages.Cleared m'.pages mm (max start (m.vm.lo v)) (min stop (m.vm.hi v))

theorem unmapVma_trims (set : m.vm.VmaSet mm) (backed : m.pages.Backed)
    (detached : m.vm.Detached mm v) (low : m.vm.lo v < stop) (high : start < m.vm.hi v)
    (noHole : ¬(m.vm.lo v < start ∧ stop < m.vm.hi v))
    (done : m.unmapVma mm start stop v = .ok m') : m.Trims m' mm start stop v := by
  unfold unmapVma at done
  simp only at done
  split at done
  · -- the end of the area is unmapped
    rename_i below
    change m.vm.lo v < start at below
    obtain ⟨vm, resized, rest⟩ := bind_eq_ok_iff.mp done
    obtain ⟨vm', inserted, rest⟩ := bind_eq_ok_iff.mp rest
    obtain ⟨pages, unmapped, rest⟩ := bind_eq_ok_iff.mp rest
    cases rest
    obtain ⟨set', keeps, used, other, resizes, bounds, areas, lies⟩ :=
      detached.trim set resized inserted
    have ends : m.vm.hi v ≤ stop := not_lt.mp fun above => noHole ⟨below, above⟩
    refine ⟨set', keeps, fun w ne => ⟨other w ne, by rw [used]⟩, ?_, areas, ?_, ?_⟩
    · change m.vm.lo v ≤ vm'.lo v ∧ vm'.hi v ≤ m.vm.hi v
      rw [(bounds v).1, (bounds v).2, resizes.lo, resizes.hi]
      exact ⟨le_rfl, resizes.inside.2.2⟩
    · intro addr lo flags
      refine (lies addr lo flags).trans (or_congr_right ?_)
      unfold Remains
      constructor
      · rintro ⟨rfl, from_, upTo, same⟩
        exact ⟨from_, upTo.trans high, ⟨by omega, by rw [if_pos upTo]; rfl⟩, same⟩
      · rintro ⟨from_, upTo, ⟨outside, isLo⟩, same⟩
        have inside : addr < start := by omega
        rw [if_pos inside] at isLo
        exact ⟨isLo.symm, from_, inside, same⟩
    · rw [max_eq_left below.le, min_eq_right ends]
      exact Pages.unmapRange_cleared backed unmapped
  · rename_i notBelow
    have starts : start ≤ m.vm.lo v := not_lt.mp notBelow
    split at done
    · -- the start of the area is unmapped
      rename_i above
      change stop < m.vm.hi v at above
      obtain ⟨vm, resized, rest⟩ := bind_eq_ok_iff.mp done
      obtain ⟨vm', inserted, rest⟩ := bind_eq_ok_iff.mp rest
      obtain ⟨pages, unmapped, rest⟩ := bind_eq_ok_iff.mp rest
      cases rest
      obtain ⟨set', keeps, used, other, resizes, bounds, areas, lies⟩ :=
        detached.trim set resized inserted
      refine ⟨set', keeps, fun w ne => ⟨other w ne, by rw [used]⟩, ?_, areas, ?_, ?_⟩
      · change m.vm.lo v ≤ vm'.lo v ∧ vm'.hi v ≤ m.vm.hi v
        rw [(bounds v).1, (bounds v).2, resizes.lo, resizes.hi]
        exact ⟨resizes.inside.1, le_rfl⟩
      · intro addr lo flags
        refine (lies addr lo flags).trans (or_congr_right ?_)
        unfold Remains
        constructor
        · rintro ⟨rfl, from_, upTo, same⟩
          refine ⟨low.le.trans from_, upTo, ⟨by omega, ?_⟩, same⟩
          rw [if_neg (by omega), max_eq_right low.le]
        · rintro ⟨from_, upTo, ⟨outside, isLo⟩, same⟩
          rw [if_neg (by omega), max_eq_right low.le] at isLo
          exact ⟨isLo.symm, by omega, upTo, same⟩
      · rw [max_eq_right starts, min_eq_left above.le]
        exact Pages.unmapRange_cleared backed unmapped
    · -- the whole area is unmapped
      rename_i notAbove
      have ends : m.vm.hi v ≤ stop := not_lt.mp notAbove
      obtain ⟨n, destroyed, rest⟩ := bind_eq_ok_iff.mp done
      obtain ⟨pages, unmapped, rest⟩ := bind_eq_ok_iff.mp rest
      cases rest
      obtain ⟨vma, sameMm, used, tables⟩ := vmaDestroy_frame destroyed
      have ne : ∀ w ∈ m.vm.areas mm, w ≠ v := fun w mem own => detached.new (own ▸ mem)
      have areas : n.vm.areas mm = m.vm.areas mm := by rw [Vm.areas, sameMm]; rfl
      refine ⟨?_, .of_eq sameMm, fun w other => ⟨by rw [vma], ?_⟩, ?_, ?_, ?_, ?_⟩
      · refine set.congr set.cache (by rw [sameMm]) fun w mem => ⟨by rw [vma], ?_⟩
        change n.vm.vmaUsed w = true
        rw [used, Function.update_of_ne (ne w mem)]
        exact (set.owned w mem).1
      · change n.vm.vmaUsed w = _
        rw [used, Function.update_of_ne other]
      · change m.vm.lo v ≤ n.vm.lo v ∧ n.vm.hi v ≤ m.vm.hi v
        rw [Vm.lo, Vm.lo, Vm.hi, Vm.hi, vma]
        exact ⟨le_rfl, le_rfl⟩
      · intro w mem
        change w ∈ n.vm.areas mm at mem
        rw [areas] at mem
        exact .inl mem
      · intro addr lo flags
        refine (Vm.lies_congr areas fun w _ => by rw [vma]).trans (or_iff_left ?_).symm
        rintro ⟨from_, upTo, ⟨outside, _⟩, _⟩
        exact absurd ⟨starts.trans from_, upTo.trans_le ends⟩ outside
      · have backed' := backed.of_userTables tables
        have cleared := Pages.unmapRange_cleared backed' unmapped
        rw [max_eq_right starts, min_eq_right ends]
        refine ⟨cleared.backed, cleared.inside, fun mm' page outside => ?_⟩
        rw [cleared.outside mm' page outside]
        exact congrFun (congrFun (congrArg Prod.snd tables) mm') page

/-- The areas that the first loop has taken out. -/
structure Taken (vm : Vm) (mm : MmPtr) (start stop : Nat) (list : List VmaPtr) : Prop where
  detached : ∀ v ∈ list, vm.Detached mm v
  meets : ∀ v ∈ list, vm.lo v < stop ∧ start < vm.hi v
  noHole : ∀ v ∈ list, ¬(vm.lo v < start ∧ stop < vm.hi v)
  apart : list.Pairwise fun v w => v ≠ w ∧ (vm.hi v ≤ vm.lo w ∨ vm.hi w ≤ vm.lo v)

/-- Those that are left when one of them is back in the set. -/
theorem Taken.next {rest : List VmaPtr} (taken : Taken m.vm mm start stop (v :: rest))
    (trims : m.Trims m' mm start stop v) : Taken m'.vm mm start stop rest := by
  obtain ⟨apartV, apart⟩ := List.pairwise_cons.mp taken.apart
  have detachedV := taken.detached v List.mem_cons_self
  have same : ∀ w, w ≠ v → m'.vm.lo w = m.vm.lo w ∧ m'.vm.hi w = m.vm.hi w := by
    intro w other
    rw [Vm.lo, Vm.lo, Vm.hi, Vm.hi, (trims.other w other).1]
    exact ⟨rfl, rfl⟩
  have sameRest : ∀ w ∈ rest, m'.vm.lo w = m.vm.lo w ∧ m'.vm.hi w = m.vm.hi w :=
    fun w mem => same w (apartV w mem).1.symm
  constructor
  · intro w mem
    have old := taken.detached w (List.mem_cons_of_mem _ mem)
    have other := (apartV w mem).1.symm
    constructor
    · intro back
      rcases trims.areas w back with inSet | own
      · exact old.new inSet
      · exact other own
    · rw [(trims.other w other).2]
      exact old.used
    · rw [(sameRest w mem).1, (sameRest w mem).2]
      exact old.range
    · intro x inSet
      rw [(sameRest w mem).1, (sameRest w mem).2]
      rcases trims.areas x inSet with there | rfl
      · have otherX : x ≠ v := fun own => detachedV.new (own ▸ there)
        rw [(same x otherX).1, (same x otherX).2]
        exact old.apart x there
      · rcases (apartV w mem).2 with le | le
        · exact .inl (trims.bounds.2.trans le)
        · exact .inr (le.trans trims.bounds.1)
  · intro w mem
    rw [(sameRest w mem).1, (sameRest w mem).2]
    exact taken.meets w (List.mem_cons_of_mem _ mem)
  · intro w mem
    rw [(sameRest w mem).1, (sameRest w mem).2]
    exact taken.noHole w (List.mem_cons_of_mem _ mem)
  · refine apart.imp_of_mem fun {w x} memW memX here => ⟨here.1, ?_⟩
    rw [(sameRest w memW).1, (sameRest w memW).2, (sameRest x memX).1, (sameRest x memX).2]
    exact here.2

/-- The second loop: what remains of the areas is back in the set. -/
structure TrimsAll (m m' : Memory) (mm : MmPtr) (start stop : Nat) (list : List VmaPtr) : Prop where
  set : m'.vm.VmaSet mm
  keeps : m.vm.Keeps m'.vm mm
  lies : ∀ addr lo flags, m'.vm.Lies mm addr lo flags ↔ m.vm.Lies mm addr lo flags ∨
    ∃ v ∈ list, m.vm.lo v ≤ addr ∧ addr < m.vm.hi v ∧
      Remains start stop addr (m.vm.lo v) lo ∧ (m.vm.vma v).vmFlags = flags
  backed : m'.pages.Backed
  inside : ∀ page, start ≤ page * pgSize → page * pgSize < stop →
    (m.pages.pte (.user mm page) = .zero ∨
      ∃ v ∈ list, m.vm.lo v ≤ page * pgSize ∧ page * pgSize < m.vm.hi v) →
    m'.pages.pte (.user mm page) = .zero
  outside : ∀ mm' page, ¬(mm' = mm ∧ start ≤ page * pgSize ∧ page * pgSize < stop) →
    m'.pages.pte (.user mm' page) = m.pages.pte (.user mm' page)

theorem unmapVmas_trims {list : List VmaPtr} (set : m.vm.VmaSet mm) (backed : m.pages.Backed)
    (taken : Taken m.vm mm start stop list) (done : unmapVmas mm start stop list m = .ok m') :
    m.TrimsAll m' mm start stop list := by
  induction list generalizing m with
  | nil =>
      cases done
      exact ⟨set, .refl _ _, by simp, backed, by simp, fun _ _ _ => rfl⟩
  | cons v rest ih =>
      obtain ⟨n, first, done⟩ := bind_eq_ok_iff.mp done
      have here := List.mem_cons_self (a := v) (l := rest)
      have trims := unmapVma_trims set backed (taken.detached v here) (taken.meets v here).1
        (taken.meets v here).2 (taken.noHole v here) first
      obtain ⟨set', keeps, lies, backed', inside, outside⟩ :=
        ih trims.set trims.cleared.backed (taken.next trims) done
      have same : ∀ w ∈ rest, n.vm.vma w = m.vm.vma w := fun w mem =>
        (trims.other w ((List.pairwise_cons.mp taken.apart).1 w mem).1.symm).1
      have inner : ∀ {page}, ¬(start ≤ page * pgSize ∧ page * pgSize < stop) →
          ¬(max start (m.vm.lo v) ≤ page * pgSize ∧ page * pgSize < min stop (m.vm.hi v)) := by
        intro page notIn
        rw [Nat.max_le, Nat.lt_min]
        tauto
      refine ⟨set', trims.keeps.trans keeps, fun addr lo flags => ?_, backed', ?_, ?_⟩
      · rw [lies, trims.lies, List.exists_mem_cons_iff, or_assoc]
        refine or_congr_right (or_congr_right (exists_congr fun w => and_congr_right fun mem => ?_))
        rw [Vm.lo, Vm.lo, Vm.hi, Vm.hi, same w mem]
      · intro page from_ upTo either
        by_cases inV : m.vm.lo v ≤ page * pgSize ∧ page * pgSize < m.vm.hi v
        · refine inside page from_ upTo (.inl (trims.cleared.inside page ?_ ?_))
          · exact max_le from_ inV.1
          · exact lt_min upTo inV.2
        · refine inside page from_ upTo ?_
          rcases either with zero | ⟨w, mem, inW⟩
          · refine .inl ?_
            rw [trims.cleared.outside mm page ?_, zero]
            rw [Nat.max_le, Nat.lt_min]
            tauto
          · rcases List.mem_cons.mp mem with rfl | inRest
            · exact absurd inW inV
            · refine .inr ⟨w, inRest, ?_⟩
              rw [Vm.lo, Vm.hi, same w inRest]
              exact inW
      · intro mm' page notIn
        rw [outside mm' page notIn, trims.cleared.outside mm' page ?_]
        rintro ⟨own, bounds⟩
        exact inner (fun inRange => notIn ⟨own, inRange⟩) bounds

/-! ## The whole function -/

/-- The areas of an address space are a consistent set, its entries are in page tables, and they
belong to pages of areas. -/
structure WellFormed (m : Memory) (mm : MmPtr) : Prop where
  set : m.vm.VmaSet mm
  backed : m.pages.Backed
  inside : ∀ page, m.pages.pte (.user mm page) ≠ .zero →
    ∃ lo flags, m.vm.Lies mm (page * pgSize) lo flags

/-- The addresses of a range are unmapped, and no others. -/
structure Unmapped (m m' : Memory) (mm : MmPtr) (start stop : Nat) : Prop where
  formed : m'.WellFormed mm
  keeps : m.vm.Keeps m'.vm mm
  lies : ∀ addr lo' flags, m'.vm.Lies mm addr lo' flags ↔
    ∃ lo, m.vm.Lies mm addr lo flags ∧ Remains start stop addr lo lo'
  inside : ∀ page, start ≤ page * pgSize → page * pgSize < stop →
    m'.pages.pte (.user mm page) = .zero
  outside : ∀ mm' page, ¬(mm' = mm ∧ start ≤ page * pgSize ∧ page * pgSize < stop) →
    m'.pages.pte (.user mm' page) = m.pages.pte (.user mm' page)

/-- The entries stay within the areas. -/
theorem Unmapped.of_parts (formed : m.WellFormed mm) (set : m'.vm.VmaSet mm)
    (keeps : m.vm.Keeps m'.vm mm) (backed : m'.pages.Backed)
    (lies : ∀ addr lo' flags, m'.vm.Lies mm addr lo' flags ↔
      ∃ lo, m.vm.Lies mm addr lo flags ∧ Remains start stop addr lo lo')
    (inside : ∀ page, start ≤ page * pgSize → page * pgSize < stop →
      m'.pages.pte (.user mm page) = .zero)
    (outside : ∀ mm' page, ¬(mm' = mm ∧ start ≤ page * pgSize ∧ page * pgSize < stop) →
      m'.pages.pte (.user mm' page) = m.pages.pte (.user mm' page)) :
    m.Unmapped m' mm start stop := by
  refine ⟨⟨set, backed, fun page present => ?_⟩, keeps, lies, inside, outside⟩
  have notIn : ¬(start ≤ page * pgSize ∧ page * pgSize < stop) :=
    fun range => present (inside page range.1 range.2)
  rw [outside mm page fun range => notIn range.2] at present
  obtain ⟨lo, flags, here⟩ := formed.inside page present
  exact ⟨_, flags, (lies ..).mpr ⟨lo, here, notIn, rfl⟩⟩

variable {vm : Vm}

/-- Nothing is unmapped where there is no area. -/
theorem unmapped_of_free (formed : m.WellFormed mm) (sets : m.vm.SetsCache mm vm)
    (free : ∀ v ∈ m.vm.areas mm, m.vm.hi v ≤ start ∨ stop ≤ m.vm.lo v) :
    m.Unmapped { m with vm := vm } mm start stop := by
  have lies : ∀ addr lo flags, vm.Lies mm addr lo flags ↔ m.vm.Lies mm addr lo flags :=
    fun addr lo flags => Vm.lies_congr sets.areas fun w _ => by rw [sets.vma]
  have stays : ∀ {addr lo lo' flags}, m.vm.Lies mm addr lo flags →
      (Remains start stop addr lo lo' ↔ lo' = lo) := by
    rintro addr lo lo' flags ⟨v, mem, rfl, from_, upTo, _⟩
    exact remains_iff_of_free (free v mem) from_ upTo
  refine .of_parts formed (formed.set.setsCache sets) sets.keeps formed.backed ?_ ?_
    fun _ _ _ => rfl
  · intro addr lo' flags
    rw [lies]
    constructor
    · intro here
      exact ⟨lo', here, (stays here).mpr rfl⟩
    · rintro ⟨lo, here, remains⟩
      rw [(stays here).mp remains]
      exact here
  · intro page from_ upTo
    by_contra present
    obtain ⟨lo, flags, here⟩ := formed.inside page present
    exact ((stays here).mpr rfl).1 ⟨from_, upTo⟩

/-- The first area that ends after the start of the range. -/
structure First (vm : Vm) (mm : MmPtr) (start : Nat) (v : VmaPtr) (before rest : List VmaPtr) :
    Prop where
  list : vm.areas mm = before ++ v :: rest
  ends : start < vm.hi v
  below : ∀ w ∈ before, vm.hi w ≤ start
  above : ∀ w ∈ rest, vm.hi v ≤ vm.lo w

theorem first_of_findVma (set : vm.VmaSet mm) {vm' : Vm}
    (found : vm.findVma mm start = (some v, vm')) : ∃ before rest, First vm' mm start v before rest := by
  obtain ⟨search, sets⟩ := set.findVma start
  rw [found] at search sets
  have set' := set.setsCache sets
  obtain ⟨mem, ends, others⟩ := set.ordered.find_eq_some search.symm
  obtain ⟨before, rest, list⟩ := List.append_of_mem mem
  have vma := sets.vma
  have lo : vm'.lo = vm.lo := by
    funext x
    rw [Vm.lo, Vm.lo, vma]
  have hi : vm'.hi = vm.hi := by
    funext x
    rw [Vm.hi, Vm.hi, vma]
  have apart := set.ordered.apart
  have starts := set.ordered.starts
  rw [list, List.pairwise_append, List.pairwise_cons] at apart starts
  refine ⟨before, rest, sets.areas.trans list, by rw [hi]; exact ends, fun w memW => ?_, ?_⟩
  · rw [hi]
    have less := starts.2.2 w memW v List.mem_cons_self
    rcases others w (by rw [list]; exact List.mem_append_left _ memW) with rfl | le | le
    · exact absurd less (lt_irrefl _)
    · exact le
    · have inside := set.ordered.nonempty v mem
      omega
  · rw [hi, lo]
    exact apart.2.1.1

/-- What the first loop has taken out. -/
theorem First.taken {before rest run after : List VmaPtr} {vm' : Vm} (set : vm.VmaSet mm)
    (first : First vm mm start v before rest) (noHole : ¬(vm.lo v < start ∧ stop < vm.hi v))
    (split : v :: rest = run ++ after) (lows : ∀ w ∈ run, vm.lo w < stop)
    (areas : vm'.areas mm = before ++ after) (vma : vm'.vma = vm.vma)
    (used : vm'.vmaUsed = vm.vmaUsed) : Taken vm' mm start stop run.reverse := by
  have list : vm.areas mm = before ++ (run ++ after) := by rw [first.list, split]
  have ordered := set.ordered
  have nodup := ordered.nodup
  rw [list, List.nodup_append, List.nodup_append] at nodup
  have lo : vm'.lo = vm.lo := by
    funext x
    rw [Vm.lo, Vm.lo, vma]
  have hi : vm'.hi = vm.hi := by
    funext x
    rw [Vm.hi, Vm.hi, vma]
  have inSet : ∀ w ∈ run, w ∈ vm.areas mm := by
    intro w mem
    rw [list]
    exact List.mem_append_right _ (List.mem_append_left _ mem)
  have left : ∀ w ∈ before ++ after, w ∈ vm.areas mm ∧ w ∉ run := by
    intro w mem
    rw [list]
    rcases List.mem_append.mp mem with inBefore | inAfter
    · exact ⟨List.mem_append_left _ inBefore, fun inRun =>
        nodup.2.2 w inBefore w (List.mem_append_left _ inRun) rfl⟩
    · exact ⟨List.mem_append_right _ (List.mem_append_right _ inAfter), fun inRun =>
        nodup.2.1.2.2 w inRun w inAfter rfl⟩
  -- every other area of the run starts after the first one
  have later : ∀ w ∈ run, w = v ∨ vm.hi v ≤ vm.lo w := by
    intro w mem
    have inRest : w ∈ v :: rest := by
      rw [split]
      exact List.mem_append_left _ mem
    rcases List.mem_cons.mp inRest with rfl | inRest
    · exact .inl rfl
    · exact .inr (first.above w inRest)
  have ends := first.ends
  constructor
  · intro w mem
    rw [List.mem_reverse] at mem
    constructor
    · rw [areas]
      exact fun back => (left w back).2 mem
    · rw [used]
      exact (set.owned w (inSet w mem)).1
    · rw [lo, hi]
      exact set.range w (inSet w mem)
    · intro x memX
      rw [areas] at memX
      rw [lo, hi]
      rcases ordered.disjoint (left x memX).1 (inSet w mem) with rfl | le | le
      · exact absurd mem (left x memX).2
      · exact .inl le
      · exact .inr le
  · intro w mem
    rw [List.mem_reverse] at mem
    rw [lo, hi]
    refine ⟨lows w mem, ?_⟩
    rcases later w mem with rfl | le
    · exact ends
    · have inside := ordered.nonempty w (inSet w mem)
      omega
  · intro w mem
    rw [List.mem_reverse] at mem
    rw [lo, hi]
    rcases later w mem with rfl | le
    · exact noHole
    · omega
  · rw [List.pairwise_reverse]
    have apart := ordered.apart
    rw [list, List.pairwise_append, List.pairwise_append] at apart
    refine apart.2.1.1.imp_of_mem fun {w x} memW memX le => ?_
    rw [lo, hi]
    refine ⟨?_, .inr le⟩
    rintro rfl
    have inside := ordered.nonempty x (inSet x memX)
    omega

/-- The areas that meet the range are taken out, and what remains of them is linked in again. -/
theorem First.unmaps {before rest : List VmaPtr} {taken : List VmaPtr × Vm} {fuel : Nat}
    (formed : m.WellFormed mm) (first : First m.vm mm start v before rest)
    (noHole : ¬(m.vm.lo v < start ∧ stop < m.vm.hi v)) (enough : rest.length < fuel)
    (takes : m.vm.takeOut mm stop fuel v [] = .ok taken)
    (done : unmapVmas mm start stop taken.1 { m with vm := taken.2 } = .ok m') :
    m.Unmapped m' mm start stop := by
  obtain ⟨run, after, split, freed, lows, highs, set, areas, vma, used, keeps⟩ :=
    Vm.takeOut_spec formed.set first.list enough takes
  rw [List.append_nil] at freed
  have list : m.vm.areas mm = before ++ (run ++ after) := by rw [first.list, split]
  have isTaken := first.taken formed.set noHole split lows areas vma used
  have lo : taken.2.lo = m.vm.lo := by
    funext x
    rw [Vm.lo, Vm.lo, vma]
  have hi : taken.2.hi = m.vm.hi := by
    funext x
    rw [Vm.hi, Vm.hi, vma]
  have free : ∀ w ∈ before ++ after, m.vm.hi w ≤ start ∨ stop ≤ m.vm.lo w := by
    intro w mem
    rcases List.mem_append.mp mem with inBefore | inAfter
    · exact .inl (first.below w inBefore)
    · exact .inr (highs w inAfter)
  rw [freed] at done
  have trims := @unmapVmas_trims { m with vm := taken.2 } m' mm start stop run.reverse set
    formed.backed isTaken done
  refine .of_parts formed trims.set (keeps.trans trims.keeps) trims.backed ?_ ?_ trims.outside
  · intro addr lo' flags
    rw [trims.lies]
    unfold Vm.Lies
    simp only [areas, list, lo, hi, vma, List.mem_append, List.mem_reverse]
    constructor
    · rintro (⟨w, mem, rfl, from_, upTo, same⟩ | ⟨w, mem, from_, upTo, remains, same⟩)
      · refine ⟨m.vm.lo w, ⟨w, by tauto, rfl, from_, upTo, same⟩, ?_⟩
        exact (remains_iff_of_free (free w (List.mem_append.mpr mem)) from_ upTo).mpr rfl
      · exact ⟨m.vm.lo w, ⟨w, .inr (.inl mem), rfl, from_, upTo, same⟩, remains⟩
    · rintro ⟨_, ⟨w, mem, rfl, from_, upTo, same⟩, remains⟩
      by_cases inRun : w ∈ run
      · exact .inr ⟨w, inRun, from_, upTo, remains, same⟩
      · have left : w ∈ before ∨ w ∈ after := by tauto
        rw [remains_iff_of_free (free w (List.mem_append.mpr left)) from_ upTo] at remains
        subst remains
        exact .inl ⟨w, left, rfl, from_, upTo, same⟩
  · intro page from_ upTo
    refine trims.inside page from_ upTo (or_iff_not_imp_left.mpr fun present => ?_)
    obtain ⟨_, _, w, mem, rfl, fromW, upToW, _⟩ := formed.inside page present
    rw [list] at mem
    by_cases inRun : w ∈ run
    · refine ⟨w, List.mem_reverse.mpr inRun, ?_⟩
      change taken.2.lo w ≤ _ ∧ _ < taken.2.hi w
      rw [lo, hi]
      exact ⟨fromW, upToW⟩
    · have left : w ∈ before ++ after := by
        rw [List.mem_append] at mem ⊢
        rw [List.mem_append] at mem
        tauto
      rcases free w left with le | le
      · omega
      · omega

/-- An area that contains the range is split in two, unless there is no memory for the second
one. -/
theorem unmapHole_unmaps {result : Int × Memory} (formed : m.WellFormed mm)
    (mem : v ∈ m.vm.areas mm) (low : m.vm.lo v < start) (less : start < stop)
    (aligned : start % pgSize = 0) (done : m.unmapHole mm start stop v = .ok result) :
    (result.1 = 0 ∧ (m.vm.vmaCreate (m.vm.lo v) start (m.vm.vma v).vmFlags).1 ≠ none ∧
        m.Unmapped result.2 mm start stop) ∨
      (result.1 = -eNoMem ∧ (m.vm.vmaCreate (m.vm.lo v) start (m.vm.vma v).vmFlags).1 = none ∧
        ∃ grants, result.2 = { m with vm := { m.vm with grants := grants } }) := by
  unfold unmapHole at done
  rcases answer : m.vm.vmaCreate (m.vm.lo v) start (m.vm.vma v).vmFlags with ⟨found, vm⟩
  change m.vm.vmaCreate (m.vm.vma v).vmStart start (m.vm.vma v).vmFlags = _ at answer
  rw [answer] at done
  cases found with
  | none =>
      cases done
      obtain ⟨grants, rfl⟩ := Vm.vmaCreate_none answer
      exact .inr ⟨rfl, rfl, grants, rfl⟩
  | some nvma =>
      obtain ⟨vm₁, resized, done⟩ := bind_eq_ok_iff.mp done
      obtain ⟨vm₂, inserted, done⟩ := bind_eq_ok_iff.mp done
      obtain ⟨pages, unmapped, done⟩ := bind_eq_ok_iff.mp done
      cases done
      have creates := Vm.vmaCreate_creates answer
      have resizes := Vm.vmaResize_resizes resized
      have sameEnd : (vm.vma v).vmEnd = m.vm.hi v := by
        rw [(creates.vmaSet formed.set).2.2.2 v mem]
        rfl
      rw [sameEnd] at resizes
      have high := resizes.inside.2.1
      obtain ⟨set, keeps, lies⟩ :=
        formed.set.split mem creates resizes inserted low less aligned
      have cleared := Pages.unmapRange_cleared formed.backed unmapped
      refine .inl ⟨rfl, by simp, .of_parts formed set keeps cleared.backed ?_ cleared.inside
        cleared.outside⟩
      -- the areas other than the split one do not meet the range
      have free : ∀ w ∈ m.vm.areas mm, w ≠ v → m.vm.hi w ≤ start ∨ stop ≤ m.vm.lo w := by
        intro w memW other
        rcases formed.set.ordered.disjoint memW mem with own | le | le
        · exact absurd own other
        · exact .inl (le.trans low.le)
        · exact .inr (high.le.trans le)
      intro addr lo' flags
      rw [lies]
      constructor
      · rintro (⟨w, memW, other, rfl, from_, upTo, isFlags⟩ | ⟨isFlags, piece | piece⟩)
        · exact ⟨m.vm.lo w, ⟨w, memW, rfl, from_, upTo, isFlags⟩,
            (remains_iff_of_free (free w memW other) from_ upTo).mpr rfl⟩
        · refine ⟨m.vm.lo v, ⟨v, mem, rfl, by omega, piece.2.2, isFlags⟩, by omega, ?_⟩
          rw [if_neg (by omega), max_eq_right (low.trans less).le, piece.1]
        · refine ⟨m.vm.lo v, ⟨v, mem, rfl, by omega, by omega, isFlags⟩, by omega, ?_⟩
          rw [if_pos piece.2.2, piece.1]
      · rintro ⟨_, ⟨w, memW, rfl, from_, upTo, isFlags⟩, remains⟩
        by_cases own : w = v
        · subst own
          obtain ⟨outside, isLo⟩ := remains
          split at isLo
          · rename_i below
            exact .inr ⟨isFlags, .inr ⟨isLo.symm, by omega, below⟩⟩
          · rw [max_eq_right (low.trans less).le] at isLo
            exact .inr ⟨isFlags, .inl ⟨isLo.symm, by omega, upTo⟩⟩
        · have stays := (remains_iff_of_free (free w memW own) from_ upTo).mp remains
          exact .inl ⟨w, memW, own, stays.symm, by omega, upTo, isFlags⟩

/-- The cache does not matter. -/
theorem WellFormed.setsCache (formed : m.WellFormed mm) (sets : m.vm.SetsCache mm vm) :
    ({ m with vm := vm } : Memory).WellFormed mm := by
  refine ⟨formed.set.setsCache sets, formed.backed, fun page present => ?_⟩
  obtain ⟨lo, flags, here⟩ := formed.inside page present
  exact ⟨lo, flags, (Vm.lies_congr sets.areas fun w _ => by rw [sets.vma]).mpr here⟩

theorem Unmapped.of_setsCache (sets : m.vm.SetsCache mm vm)
    (unmapped : ({ m with vm := vm } : Memory).Unmapped m' mm start stop) :
    m.Unmapped m' mm start stop := by
  refine ⟨unmapped.formed, sets.keeps.trans unmapped.keeps, fun addr lo' flags => ?_,
    unmapped.inside, unmapped.outside⟩
  rw [unmapped.lies]
  refine exists_congr fun lo => and_congr_left fun _ => ?_
  exact Vm.lies_congr sets.areas fun w _ => by rw [sets.vma]

/-- Only the cached area has changed, and `kmalloc` has been called. -/
def OnlyCache (m m' : Memory) (mm : MmPtr) : Prop :=
  m'.pages = m.pages ∧ ∃ vm grants, m.vm.SetsCache mm vm ∧ m'.vm = { vm with grants := grants }

/-- The range is inside an area, and there is no memory for a second one. -/
def NoRoom (m : Memory) (mm : MmPtr) (start stop : Nat) : Prop :=
  (∃ v ∈ m.vm.areas mm, m.vm.lo v < start ∧ stop < m.vm.hi v) ∧
    (m.vm.kmalloc m.vm.vmaUsed).1 = none

theorem NoRoom.setsCache_iff (sets : m.vm.SetsCache mm vm) :
    ({ m with vm := vm } : Memory).NoRoom mm start stop ↔ m.NoRoom mm start stop := by
  unfold NoRoom Vm.lo Vm.hi
  rw [sets.areas, sets.vma, sets.kmalloc]

/-- `mm_unmap`, by what it returns. -/
inductive UnmapResult (m : Memory) (mm : MmPtr) (start stop : Nat) : Int × Memory → Prop
  | invalid : ¬userAccess start stop = true → UnmapResult m mm start stop (-eInval, m)
  | done {m' : Memory} : Vm.UserRange start stop → ¬m.NoRoom mm start stop →
      m.Unmapped m' mm start stop → UnmapResult m mm start stop (0, m')
  | noRoom {m' : Memory} : Vm.UserRange start stop → m.NoRoom mm start stop → m.OnlyCache m' mm →
      UnmapResult m mm start stop (-eNoMem, m')

theorem roundDown_mod (a : Nat) : roundDown a pgSize % pgSize = 0 := by
  unfold roundDown pgSize
  omega

theorem userRange_of_userAccess {addr last : Nat}
    (access : userAccess (roundDown addr pgSize) (roundUp last pgSize) = true) :
    Vm.UserRange (roundDown addr pgSize) (roundUp last pgSize) := by
  obtain ⟨low, less, high⟩ := of_decide_eq_true access
  exact ⟨low, less, high, roundDown_mod addr, roundDown_mod _⟩

/-- `mm_unmap` after it has found an area that meets the range. -/
theorem First.result {before rest : List VmaPtr} {result : Int × Memory} {fuel : Nat}
    (formed : m.WellFormed mm) (first : First m.vm mm start v before rest)
    (range : Vm.UserRange start stop) (enough : rest.length < fuel)
    (done : (if m.vm.lo v < start ∧ stop < m.vm.hi v then m.unmapHole mm start stop v
      else do
        let (freeList, vm) ← m.vm.takeOut mm stop fuel v []
        let m ← unmapVmas mm start stop freeList { m with vm := vm }
        return (0, m)) = .ok result) :
    (result.1 = 0 ∧ ¬m.NoRoom mm start stop ∧ m.Unmapped result.2 mm start stop) ∨
      (result.1 = -eNoMem ∧ m.NoRoom mm start stop ∧
        ∃ grants, result.2 = { m with vm := { m.vm with grants := grants } }) := by
  have mem : v ∈ m.vm.areas mm := by
    rw [first.list]
    exact List.mem_append_right _ List.mem_cons_self
  split at done
  · rename_i hole
    have same := Vm.vmaCreate_eq_none_iff m.vm (m.vm.lo v) start (m.vm.vma v).vmFlags
    obtain ⟨zero, room, unmapped⟩ | ⟨failed, noRoom, rest⟩ :=
      unmapHole_unmaps formed mem hole.1 range.2.1 range.2.2.2.1 done
    · exact .inl ⟨zero, fun bad => room (same.mpr bad.2), unmapped⟩
    · exact .inr ⟨failed, ⟨⟨v, mem, hole⟩, same.mp noRoom⟩, rest⟩
  · rename_i noHole
    obtain ⟨taken, takes, done⟩ := bind_eq_ok_iff.mp done
    obtain ⟨m', unmaps, done⟩ := bind_eq_ok_iff.mp done
    cases done
    refine .inl ⟨rfl, ?_, first.unmaps formed noHole enough takes unmaps⟩
    rintro ⟨⟨w, memW, low, high⟩, _⟩
    -- only the first area can contain the range
    rw [first.list, List.mem_append, List.mem_cons] at memW
    have ends := first.ends
    have less := range.2.1
    rcases memW with inBefore | rfl | inRest
    · have le := first.below w inBefore
      omega
    · exact noHole ⟨low, high⟩
    · have le := first.above w inRest
      omega

theorem mmUnmap_result {addr len : Nat} {result : Int × Memory} (formed : m.WellFormed mm)
    (done : m.mmUnmap mm addr len = .ok result) :
    UnmapResult m mm (roundDown addr pgSize) (roundUp (add32 addr len) pgSize) result := by
  unfold mmUnmap at done
  simp only at done
  split at done
  · rename_i access
    have range := userRange_of_userAccess access
    have less := range.2.1
    revert done less range
    generalize roundDown addr pgSize = start
    generalize roundUp (add32 addr len) pgSize = stop
    intro done range less
    obtain ⟨search, sets⟩ := formed.set.findVma start
    rcases found : m.vm.findVma mm start with ⟨first, vm⟩
    rw [found] at done search sets
    simp only at done search sets
    have noMeet : (∀ w ∈ m.vm.areas mm, m.vm.hi w ≤ start ∨ stop ≤ m.vm.lo w) →
        UnmapResult m mm start stop (0, { m with vm := vm }) := by
      intro free
      refine .done range ?_ (unmapped_of_free formed sets free)
      rintro ⟨⟨w, memW, low, high⟩, _⟩
      rcases free w memW with le | le
      · omega
      · omega
    cases first with
    | none =>
        cases done
        exact noMeet fun w memW => .inl (Ordered.find_eq_none search.symm w memW)
    | some v =>
        obtain ⟨mem, ends, others⟩ := formed.set.ordered.find_eq_some search.symm
        have vma := sets.vma
        simp only at done
        split at done
        · rename_i beyond
          rw [vma] at beyond
          cases done
          refine noMeet fun w memW => ?_
          rcases others w memW with rfl | le | le
          · exact .inr beyond
          · exact .inl le
          · have inside := formed.set.ordered.nonempty v mem
            change stop ≤ m.vm.lo v at beyond
            exact .inr (by omega)
        · obtain ⟨before, rest, isFirst⟩ := first_of_findVma formed.set found
          have enough : rest.length < (vm.mm mm).mmapList.length := by
            change _ < (vm.areas mm).length
            rw [isFirst.list, List.length_append, List.length_cons]
            omega
          have noRoom := @NoRoom.setsCache_iff m mm start stop vm sets
          rcases result with ⟨ret, m'⟩
          obtain ⟨zero, room, unmapped⟩ | ⟨failed, full, grants, rest⟩ :=
            @First.result { m with vm := vm } _ _ _ _ _ _ _ _ (formed.setsCache sets) isFirst range
              enough done
          · simp only at zero
            subst zero
            exact .done range (fun bad => room (noRoom.mpr bad)) (.of_setsCache sets unmapped)
          · simp only at failed rest
            subst failed rest
            exact .noRoom range (noRoom.mp full) ⟨rfl, vm, grants, sets, rfl⟩
  · rename_i denied
    cases done
    exact .invalid denied

/-- The address is in an area with the flags. -/
def Maps (m : Memory) (mm : MmPtr) (addr : Nat) (flags : BitVec 32) : Prop :=
  ∃ v ∈ m.vm.areas mm, m.vm.lo v ≤ addr ∧ addr < m.vm.hi v ∧ (m.vm.vma v).vmFlags = flags

theorem maps_iff {addr : Nat} {flags : BitVec 32} :
    m.Maps mm addr flags ↔ ∃ lo, m.vm.Lies mm addr lo flags := by
  constructor
  · rintro ⟨v, mem, from_, upTo, isFlags⟩
    exact ⟨m.vm.lo v, v, mem, rfl, from_, upTo, isFlags⟩
  · rintro ⟨_, v, mem, rfl, from_, upTo, isFlags⟩
    exact ⟨v, mem, from_, upTo, isFlags⟩

theorem Unmapped.maps_iff {addr : Nat} {flags : BitVec 32}
    (unmapped : m.Unmapped m' mm start stop) :
    m'.Maps mm addr flags ↔ m.Maps mm addr flags ∧ ¬(start ≤ addr ∧ addr < stop) := by
  rw [Memory.maps_iff, Memory.maps_iff]
  constructor
  · rintro ⟨lo', here⟩
    obtain ⟨lo, before, outside, _⟩ := (unmapped.lies ..).mp here
    exact ⟨⟨lo, before⟩, outside⟩
  · rintro ⟨⟨lo, before⟩, outside⟩
    exact ⟨_, (unmapped.lies ..).mpr ⟨lo, before, outside, rfl⟩⟩

theorem roundDown_of_aligned {a : Nat} (aligned : a % pgSize = 0) : roundDown a pgSize = a := by
  rw [roundDown, aligned, Nat.sub_zero]

theorem roundUp_of_aligned {a : Nat} (aligned : a % pgSize = 0) (low : a ≤ userTop) :
    roundUp a pgSize = a := by
  unfold roundUp roundDown add32 pgSize userTop at *
  omega

theorem add32_sub (range : Vm.UserRange start stop) : add32 start (stop - start) = stop := by
  obtain ⟨_, less, top, _⟩ := range
  unfold add32 userTop at *
  omega

/-- `mm_unmap` is the difference of sets: it unmaps the addresses of the range and no others, or
changes nothing but the cached area. -/
theorem mm_unmap_exact {ret : Int} (formed : m.WellFormed mm) (range : Vm.UserRange start stop)
    (done : m.mmUnmap mm start (stop - start) = .ok (ret, m')) :
    (ret = 0 ∨ ret = -eNoMem) ∧
      (ret = 0 →
        (∀ addr flags, m'.Maps mm addr flags ↔
          m.Maps mm addr flags ∧ ¬(start ≤ addr ∧ addr < stop)) ∧
        (∀ page, start ≤ page * pgSize → page * pgSize < stop →
          m'.pages.pte (.user mm page) = .zero) ∧
        ∀ mm' page, ¬(mm' = mm ∧ start ≤ page * pgSize ∧ page * pgSize < stop) →
          m'.pages.pte (.user mm' page) = m.pages.pte (.user mm' page)) ∧
      (ret = -eNoMem → m.OnlyCache m' mm) := by
  have result := mmUnmap_result formed done
  obtain ⟨low, less, top, alignedStart, alignedStop⟩ := range
  rw [add32_sub ⟨low, less, top, alignedStart, alignedStop⟩, roundDown_of_aligned alignedStart,
    roundUp_of_aligned alignedStop top] at result
  cases result with
  | invalid denied => exact absurd (decide_eq_true ⟨low, less, top⟩) denied
  | done _ _ unmapped =>
      refine ⟨.inl rfl, fun _ => ⟨fun addr flags => unmapped.maps_iff, unmapped.inside,
        unmapped.outside⟩, fun failed => ?_⟩
      simp [eNoMem] at failed
  | noRoom _ _ cache =>
      refine ⟨.inr rfl, fun failed => ?_, fun _ => cache⟩
      simp [eNoMem] at failed

/-- An address space of one area of three pages, none of which has been touched. -/
def oneArea (grants : List (Option Nat)) : Memory where
  vm :=
    { vma := fun _ => ⟨0, userBase, userBase + 3 * pgSize, vmRead ||| vmWrite, none, 0⟩
      vmaUsed := fun v => v == 1
      mm := fun _ => ⟨[1], none, none, 1, 0, 1, userBase, userBase + 3 * pgSize⟩
      mmUsed := fun mm => mm == 0
      shmem := fun _ => ⟨0, 0⟩
      shmemUsed := fun _ => false
      grants := grants }
  pages := stackOnly.pages

theorem oneArea_vma (grants : List (Option Nat)) (v : VmaPtr) : (oneArea grants).vm.vma v =
    ⟨0, userBase, userBase + 3 * pgSize, vmRead ||| vmWrite, none, 0⟩ := by
  rw [oneArea]

theorem oneArea_bounds (grants : List (Option Nat)) (v : VmaPtr) :
    (oneArea grants).vm.lo v = userBase ∧ (oneArea grants).vm.hi v = userBase + 3 * pgSize := by
  rw [Vm.lo, Vm.hi, oneArea_vma]
  exact ⟨rfl, rfl⟩

theorem oneArea_wellFormed (grants : List (Option Nat)) : (oneArea grants).WellFormed 0 := by
  refine ⟨⟨⟨?_, ?_⟩, ?_, ?_, rfl, ?_, ?_⟩, ?_, ?_⟩
  · intro v _
    rw [(oneArea_bounds grants v).1, (oneArea_bounds grants v).2]
    decide
  · exact List.pairwise_singleton ..
  · intro v _
    rw [(oneArea_bounds grants v).1, (oneArea_bounds grants v).2]
    exact ⟨by decide, by decide, by decide, by decide, by decide⟩
  · intro v mem
    cases List.mem_singleton.mp mem
    exact ⟨rfl, rfl⟩
  · rintro _ ⟨⟩
  · rintro _ ⟨⟩
  · exact fun _ _ present => absurd rfl present
  · exact fun _ present => absurd rfl present

/-- The page in the middle of the area is unmapped, and the first one is not. -/
theorem mm_unmap_exact_oneArea : ∃ m',
    (oneArea [some 2]).mmUnmap 0 (userBase + pgSize) (userBase + 2 * pgSize - (userBase + pgSize)) =
        .ok (0, m') ∧
      ¬m'.Maps 0 (userBase + pgSize) (vmRead ||| vmWrite) ∧
      m'.Maps 0 userBase (vmRead ||| vmWrite) := by
  have done : ∃ m', (oneArea [some 2]).mmUnmap 0 (userBase + pgSize)
      (userBase + 2 * pgSize - (userBase + pgSize)) = .ok (0, m') := ⟨_, rfl⟩
  obtain ⟨m', done⟩ := done
  have range : Vm.UserRange (userBase + pgSize) (userBase + 2 * pgSize) := by
    unfold Vm.UserRange
    decide
  obtain ⟨maps, _⟩ := (mm_unmap_exact (oneArea_wellFormed _) range done).2.1 rfl
  refine ⟨m', done, fun mapped => ?_, ?_⟩
  · exact ((maps _ _).mp mapped).2 (by decide)
  · exact (maps _ _).mpr ⟨⟨1, List.mem_singleton_self 1, by decide, by decide, rfl⟩, by decide⟩

/-- When there is no memory for the second area, the cached one has changed. -/
theorem mm_unmap_sets_cache :
    ¬∀ (m m' : Memory) (mm : MmPtr) (start stop : Nat), m.WellFormed mm →
      Vm.UserRange start stop → m.mmUnmap mm start (stop - start) = .ok (-eNoMem, m') →
      m'.vm.mm mm = m.vm.mm mm := by
  intro unchanged
  have done : ∃ m', (oneArea []).mmUnmap 0 (userBase + pgSize)
      (userBase + 2 * pgSize - (userBase + pgSize)) = .ok (-eNoMem, m') ∧
        (m'.vm.mm 0).mmapCache = some 1 := ⟨_, rfl, rfl⟩
  obtain ⟨m', done, cached⟩ := done
  have range : Vm.UserRange (userBase + pgSize) (userBase + 2 * pgSize) := by
    unfold Vm.UserRange
    decide
  rw [unchanged _ m' 0 _ _ (oneArea_wellFormed _) range done] at cached
  cases cached

end Memory

end EdfKernel.Mm
