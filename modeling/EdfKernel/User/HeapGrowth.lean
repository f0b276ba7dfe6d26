import EdfKernel.User.HeapInvariant

/-!
# New memory for the user heap

A region from the kernel becomes a block in use of its type and is given back to the circle.
The front of a free block is cut off for a request.
-/

namespace EdfKernel.User.Heap

open Library.CyclicList

variable {heap heap' : Heap} {free free' used : Finset Nat} {a b p q r len nu : Nat} {type : Bool}

/-! ## A region from the kernel -/

/-- The heap when a region has got its header. -/
def supplied (heap : Heap) (r len : Nat) (type : Bool) : Heap :=
  { heap with regions := ⟨r, len, type⟩ :: heap.regions }.setHeader r (len / headerSize) type

/-- No block is where the kernel puts a new region. -/
theorem Laid.apart_of_vacant (laid : heap.Laid free used) (vacant : heap.Vacant r len)
    (mem : a ∈ free ∪ used) : r + len ≤ a ∨ heap.stop a ≤ r := by
  obtain ⟨positive, _, _, _, offBase, offRegions⟩ := vacant
  by_cases isBase : a = heap.base
  · rw [isBase, stop, laid.size_base]
    exact offBase
  · have end_ := laid.plus_size mem isBase
    have inside := lt_stop heap a
    by_contra meets
    -- A byte that the block and the region share is in a region from before.
    obtain ⟨region, memR, _, low, high⟩ := laid.covered a mem isBase (max a r)
      (le_max_left ..) (by omega)
    have off := offRegions region memR
    omega

/-- A region from the kernel is a block in use. -/
theorem Laid.supply (laid : heap.Laid free used) (vacant : heap.Vacant r len)
    (above : type = false → heap.base + headerSize ≤ r) :
    (heap.supplied r len type).Laid free (insert r used) ∧ r ∉ free ∪ used := by
  have off := fun a (mem : a ∈ free ∪ used) => laid.apart_of_vacant vacant mem
  obtain ⟨positive, _, whole, _, _⟩ := vacant
  have outside : r ∉ free ∪ used := by
    intro mem
    have meets := off r mem
    have inside := lt_stop heap r
    omega
  have notBase : r ≠ heap.base :=
    fun same => outside (Finset.mem_union_left _ (same ▸ laid.base_mem))
  have sizeR : (heap.supplied r len type).size r = len / headerSize := Function.update_self ..
  have typeR : (heap.supplied r len type).type r = type := Function.update_self ..
  have sizeElse : ∀ a ≠ r, (heap.supplied r len type).size a = heap.size a :=
    fun a ne => Function.update_of_ne ne ..
  have typeElse : ∀ a ≠ r, (heap.supplied r len type).type a = heap.type a :=
    fun a ne => Function.update_of_ne ne ..
  have units : 0 < len / headerSize := by
    unfold pgSize at whole
    unfold headerSize
    omega
  have ends : plus r (len / headerSize) = r + len := by
    unfold pgSize at whole
    unfold plus headerSize
    omega
  have cases_ : ∀ a ∈ free ∪ insert r used, a = r ∨ a ≠ r ∧ a ∈ free ∪ used := by
    intro a mem
    by_cases at_ : a = r
    · exact .inl at_
    · rw [Finset.union_insert] at mem
      exact .inr ⟨at_, (Finset.mem_insert.mp mem).resolve_left at_⟩
  refine ⟨⟨laid.circular, laid.base_mem, ?_, ?_, ?_, ?_, ?_, ?_, ?_⟩, outside⟩
  · rw [Finset.disjoint_insert_right]
    exact ⟨fun mem => outside (Finset.mem_union_left _ mem), laid.disjoint⟩
  · exact (sizeElse _ (Ne.symm notBase)).trans laid.size_base
  · exact (typeElse _ (Ne.symm notBase)).trans laid.type_base
  · intro a mem ne
    rcases cases_ a mem with rfl | ⟨at_, mem⟩
    · exact sizeR ▸ units
    · exact sizeElse a at_ ▸ laid.size_pos a mem ne
  · intro a memA b memB less
    rcases cases_ a memA with rfl | ⟨atA, oldA⟩
    · rcases cases_ b memB with rfl | ⟨atB, oldB⟩
      · exact absurd less (lt_irrefl _)
      · rw [stop, sizeR, max_eq_right units, ends]
        have meets := off b oldB
        have inside := lt_stop heap b
        omega
    · rw [stop, sizeElse a atA]
      rcases cases_ b memB with rfl | ⟨atB, oldB⟩
      · have meets := off a oldA
        unfold stop at meets
        omega
      · exact laid.apart a oldA b oldB less
  · intro a mem ne
    rcases cases_ a mem with rfl | ⟨at_, mem⟩
    · intro x low high
      rw [sizeR, ends] at high
      exact ⟨⟨a, len, type⟩, List.mem_cons_self, typeR.symm, low, high⟩
    · exact (laid.covered a mem ne).congr (sizeElse a at_) (typeElse a at_)
        fun region memR => List.mem_cons_of_mem _ memR
  · intro region mem false_
    rcases List.mem_cons.mp mem with rfl | mem
    · exact above false_
    · exact laid.above region mem false_

/-- The heap has got a region at `r` after the free block `q`. -/
structure Grown (heap heap' : Heap) (free free' used : Finset Nat) (type : Bool)
    (r len q : Nat) : Prop where
  sound : heap'.Sound free' used
  mem : q ∈ free
  mem' : q ∈ free'
  between : Between q (heap.ptr q) r
  freep : heap'.freep = some q
  keeps : ∀ a ∈ free, a ≠ heap.ptr q → a ∈ free'
  absorbed : heap.ptr q ∉ free' → heap.type (heap.ptr q) = type ∧ r + len = heap.ptr q
  ptr : ∀ a ∈ free, a ≠ q → heap'.ptr a = heap.ptr a
  size : ∀ a ∈ free ∪ used, a ≠ q → heap'.size a = heap.size a
  grows : heap.size q ≤ heap'.size q
  types : ∀ a ∈ free ∪ used, heap'.type a = heap.type a
  placed : heap'.ptr q = r ∧ heap'.Fits type (len / headerSize) r ∨
    heap'.Fits type (len / headerSize) q
  base : heap'.base = heap.base

/-- A new region is put on the circle. -/
theorem Sound.grow (sound : heap.Sound free used) (type : Bool) (vacant : heap.Vacant r len)
    (above : type = false → heap.base + headerSize ≤ r) :
    ∃ heap' free' q, Grown heap heap' free free' used type r len q ∧
      heap'.regions = ⟨r, len, type⟩ :: heap.regions ∧ heap'.brk = heap.brk ∧
      heap'.answers = heap.answers ∧
      ∃ enough, ∀ fuel ≥ enough, (heap.supplied r len type).freeLocked fuel r = .ok heap' := by
  obtain ⟨laid, outside⟩ := sound.toLaid.supply vacant above
  have whole := vacant.2.2.1
  have notFree : r ∉ free := fun mem => outside (Finset.mem_union_left _ mem)
  have notUsed : r ∉ used := fun mem => outside (Finset.mem_union_right _ mem)
  have sizeR : (heap.supplied r len type).size r = len / headerSize := Function.update_self ..
  have typeR : (heap.supplied r len type).type r = type := Function.update_self ..
  have sizeElse : ∀ a ≠ r, (heap.supplied r len type).size a = heap.size a :=
    fun a ne => Function.update_of_ne ne ..
  have typeElse : ∀ a ≠ r, (heap.supplied r len type).type a = heap.type a :=
    fun a ne => Function.update_of_ne ne ..
  have ne : ∀ a ∈ free ∪ used, a ≠ r := fun a mem same => outside (same ▸ mem)
  have merged : ∀ a ∈ free, ∀ b ∈ free, ¬(heap.supplied r len type).Touches a b := by
    rintro a memA b memB ⟨other, sameType, end_⟩
    have neA := ne a (Finset.mem_union_left _ memA)
    have neB := ne b (Finset.mem_union_left _ memB)
    rw [typeElse a neA, typeElse b neB] at sameType
    rw [sizeElse a neA] at end_
    exact sound.merged a memA b memB ⟨other, sameType, end_⟩
  have sound' : (heap.supplied r len type).Sound free (insert r used) :=
    ⟨laid, sound.freep, merged⟩
  obtain ⟨heap', free', q, memQ, between, after, freed, freep, enough, calls⟩ :=
    sound'.freeLocked (Finset.mem_insert_self r used)
  rw [Finset.erase_insert notUsed] at after
  have neQ := ne q (Finset.mem_union_left _ memQ)
  refine ⟨heap', free', q, ?_, freed.regions, freed.brk, freed.answers, enough, calls⟩
  refine ⟨after, memQ, freed.mem, between, freep, freed.keeps, fun gone => ?_, ?_, ?_, ?_, ?_, ?_,
    freed.base⟩
  · obtain ⟨_, sameType, end_⟩ := freed.absorbed gone
    rw [sizeR] at end_
    have memNext := ne _ (Finset.mem_union_left _ (sound.circular.mem q memQ))
    refine ⟨((typeElse _ memNext).symm.trans sameType.symm).trans typeR, ?_⟩
    rw [← show (heap.supplied r len type).ptr q = heap.ptr q from rfl, ← end_]
    unfold pgSize at whole
    unfold plus headerSize
    omega
  · exact fun a mem other => freed.ptr a other (ne a (Finset.mem_union_left _ mem))
  · exact fun a mem other => (freed.size a other (ne a mem)).trans (sizeElse a (ne a mem))
  · exact sizeElse q neQ ▸ freed.grows
  · intro a mem
    rw [freed.type]
    exact typeElse a (ne a mem)
  · have fits : ∀ b, (heap.supplied r len type).type b = type →
        (heap.supplied r len type).size r ≤ heap'.size b → heap'.Fits type (len / headerSize) b := by
      intro b typeB large
      exact ⟨(congrFun freed.type b).trans typeB, sizeR ▸ large⟩
    rcases freed.placed with ⟨at_, large⟩ | ⟨sameType, large⟩
    · exact .inl ⟨at_, fits r typeR large⟩
    · exact .inr (fits q (sameType.trans typeR) large)

/-! ## The front of a block -/

/-- The heap has handed out the block `p`. -/
structure Taken (heap heap' : Heap) (free' used : Finset Nat) (nunits p : Nat) : Prop where
  sound : heap'.Sound free' (insert p used)
  sizeP : heap'.size p = nunits
  size : ∀ a ∈ used, heap'.size a = heap.size a
  typeP : heap'.type p = heap.type p
  types : ∀ a ∈ used, heap'.type a = heap.type a
  base : heap'.base = heap.base
  brk : heap'.brk = heap.brk
  answers : heap'.answers = heap.answers
  regions : heap'.regions = heap.regions

/-- A whole block leaves the circle. -/
theorem Sound.takeWhole (sound : heap.Sound free used) (memP : p ∈ free) (mem : heap.ptr p ∈ free)
    (notBase : heap.ptr p ≠ heap.base) :
    Taken heap { heap.setPtr p (heap.ptr (heap.ptr p)) with freep := some p }
      (free.erase (heap.ptr p)) used (heap.size (heap.ptr p)) (heap.ptr p) := by
  have other : heap.ptr p ≠ p := by
    intro self
    rw [self] at notBase
    exact sound.ptr_ne_self memP notBase self
  have blocks : free.erase (heap.ptr p) ∪ insert (heap.ptr p) used = free ∪ used := by
    rw [Finset.union_insert, ← Finset.insert_union, Finset.insert_erase mem]
  have outside : heap.ptr p ∉ used := Finset.disjoint_left.mp sound.disjoint mem
  refine ⟨⟨⟨?_, ?_, ?_, sound.size_base, sound.type_base, ?_, ?_, ?_, sound.above⟩, ⟨p, ?_, rfl⟩,
    ?_⟩, rfl, fun a _ => rfl, rfl, fun a _ => rfl, rfl, rfl, rfl, rfl⟩
  · exact sound.circular.erase memP other
  · exact Finset.mem_erase.mpr ⟨Ne.symm notBase, sound.base_mem⟩
  · rw [Finset.disjoint_insert_right]
    exact ⟨Finset.notMem_erase (heap.ptr p) free,
      sound.disjoint.mono_left (Finset.erase_subset ..)⟩
  · exact fun a memA => sound.size_pos a (blocks ▸ memA)
  · exact fun a memA b memB => sound.apart a (blocks ▸ memA) b (blocks ▸ memB)
  · exact fun a memA => sound.covered a (blocks ▸ memA)
  · exact Finset.mem_erase.mpr ⟨Ne.symm other, memP⟩
  · exact fun a memA b memB => sound.merged a (Finset.mem_of_mem_erase memA) b
      (Finset.mem_of_mem_erase memB)

/-- The rest of a block of which the front is cut off. -/
def cut (heap : Heap) (type : Bool) (nunits prevp p : Nat) : Heap :=
  let np := plus p nunits
  { heap with
    ptr := Function.update (Function.update heap.ptr prevp np) np (heap.ptr p)
    size := Function.update (Function.update heap.size np (heap.size p - nunits)) p nunits
    type := Function.update heap.type np type
    freep := some prevp }

theorem takeFront_eq_cut {nunits prevp : Nat} (ne : p ≠ prevp) (less : heap.size p ≠ nunits) :
    heap.takeFront type nunits prevp p = heap.cut type nunits prevp p := by
  unfold takeFront cut
  rw [if_neg less]
  simp only [setPtr, setSize, setType, Function.update_of_ne ne]

/-- The front of a block is cut off. -/
theorem Sound.cut (sound : heap.Sound free used) {nunits : Nat} (memP : p ∈ free) (mem : b ∈ free)
    (next : heap.ptr p = b) (notBase : b ≠ heap.base) (fits : heap.Fits type nunits b)
    (positive : 0 < nunits) (rest : heap.size b ≠ nunits) :
    Taken heap (heap.cut type nunits p b) (insert (plus b nunits) (free.erase b)) used
      nunits b := by
  have inUnion := Finset.mem_union_left used mem
  have end_ := sound.plus_size inUnion notBase
  have less : nunits < heap.size b := lt_of_le_of_ne fits.2 (Ne.symm rest)
  have other : b ≠ p := by
    rintro rfl
    exact sound.ptr_ne_self memP notBase next
  generalize atNp : plus b nunits = np
  have low : b < np := by
    unfold plus headerSize at atNp
    omega
  have high : np < heap.stop b := by
    unfold plus headerSize at atNp end_
    omega
  have ends : plus np (heap.size b - nunits) = heap.stop b := by
    unfold plus headerSize at atNp end_ ⊢
    omega
  -- A block ends before `b` or begins after it.
  have off : ∀ a ∈ free ∪ used, a ≠ b → heap.stop a ≤ b ∨ heap.stop b ≤ a := by
    intro a memA ne
    rcases Nat.lt_or_gt_of_ne ne with below | above
    · exact .inl (sound.apart a memA b inUnion below)
    · exact .inr (sound.apart b inUnion a memA above)
  have outside : np ∉ free ∪ used := by
    intro memNp
    have apart := off np memNp (Nat.ne_of_gt low)
    have inside := lt_stop heap np
    omega
  have notFree : np ∉ free := fun memNp => outside (Finset.mem_union_left _ memNp)
  have notUsed : np ∉ used := fun memNp => outside (Finset.mem_union_right _ memNp)
  have neP : np ≠ p := fun same => notFree (same ▸ memP)
  have neBase : np ≠ heap.base := fun same => notFree (same ▸ sound.base_mem)
  have blocks : ∀ a ∈ insert np (free.erase b) ∪ insert b used, a = np ∨ a ∈ free ∪ used := by
    intro a memA
    rw [Finset.insert_union, Finset.union_insert, ← Finset.insert_union,
      Finset.insert_erase mem] at memA
    exact Finset.mem_insert.mp memA
  subst atNp
  have sizeNp : (heap.cut type nunits p b).size (plus b nunits) = heap.size b - nunits := by
    simp [Heap.cut, Function.update_of_ne (Nat.ne_of_gt low)]
  have sizeB : (heap.cut type nunits p b).size b = nunits := Function.update_self ..
  have sizeElse : ∀ a, a ≠ plus b nunits → a ≠ b →
      (heap.cut type nunits p b).size a = heap.size a := by
    intro a neNp neB
    simp [Heap.cut, Function.update_of_ne neNp, Function.update_of_ne neB]
  have typeNp : (heap.cut type nunits p b).type (plus b nunits) = type := Function.update_self ..
  have typeElse : ∀ a, a ≠ plus b nunits → (heap.cut type nunits p b).type a = heap.type a :=
    fun a ne => Function.update_of_ne ne ..
  have neNp : ∀ a ∈ free ∪ used, a ≠ plus b nunits := fun a memA same => outside (same ▸ memA)
  have usedNe : ∀ a ∈ used, a ≠ b := fun a memA same =>
    Finset.disjoint_left.mp sound.disjoint mem (same ▸ memA)
  have stopNp : (heap.cut type nunits p b).stop (plus b nunits) = heap.stop b := by
    rw [stop, sizeNp, max_eq_right (by omega), ends]
  have stopB : (heap.cut type nunits p b).stop b = plus b nunits := by
    rw [stop, sizeB, max_eq_right positive]
  have stopElse : ∀ a, a ≠ plus b nunits → a ≠ b →
      (heap.cut type nunits p b).stop a = heap.stop a := by
    intro a neNp neB
    rw [stop, sizeElse a neNp neB, stop]
  have circular : Circular (heap.cut type nunits p b).ptr
      (insert (plus b nunits) (free.erase b)) := by
    -- The rest of the block is behind it on the circle.
    have after : Between b (heap.ptr b) (plus b nunits) := by
      have memNext := Finset.mem_union_left used (sound.circular.mem b mem)
      rcases off _ memNext (sound.ptr_ne_self mem notBase) with below | above
      · have inside := lt_stop heap (heap.ptr b)
        exact .inr ⟨by omega, .inl low⟩
      · exact .inl ⟨low, by omega⟩
    exact sound.circular.replace memP next other notFree after
  refine ⟨⟨⟨circular, ?_, ?_, ?_, ?_, ?_, ?_, ?_, ?_⟩, ⟨p, ?_, rfl⟩, ?_⟩, sizeB, ?_, ?_, ?_,
    rfl, rfl, rfl, rfl⟩
  · exact Finset.mem_insert_of_mem (Finset.mem_erase.mpr ⟨Ne.symm notBase, sound.base_mem⟩)
  · rw [Finset.disjoint_insert_right, Finset.disjoint_insert_left]
    refine ⟨fun memB => ?_, notUsed, sound.disjoint.mono_left (Finset.erase_subset ..)⟩
    rcases Finset.mem_insert.mp memB with same | memB
    · exact Nat.ne_of_lt low same
    · exact Finset.notMem_erase b free memB
  · exact (sizeElse _ (Ne.symm neBase) (Ne.symm notBase)).trans sound.size_base
  · exact (typeElse _ (Ne.symm neBase)).trans sound.type_base
  · intro a memA ne
    by_cases atB : a = b
    · rw [atB, sizeB]
      exact positive
    · rcases blocks a memA with rfl | old
      · rw [sizeNp]
        omega
      · rw [sizeElse a (neNp a old) atB]
        exact sound.size_pos a old ne
  · intro a memA c memC below
    have oldC : c ≠ plus b nunits → c ≠ b → b < c → heap.stop b ≤ c := by
      intro ne neB above
      exact sound.apart b inUnion c ((blocks c memC).resolve_left ne) above
    by_cases atB : a = b
    · subst atB
      rw [stopB]
      by_cases atNp : c = plus a nunits
      · exact atNp.ge
      · exact high.le.trans (oldC atNp (Nat.ne_of_gt below) below)
    · rcases blocks a memA with rfl | old
      · rw [stopNp]
        exact oldC (Nat.ne_of_gt below) (Nat.ne_of_gt (low.trans below)) (low.trans below)
      · rw [stopElse a (neNp a old) atB]
        rcases blocks c memC with rfl | oldC
        · have apart := off a old atB
          omega
        · exact sound.apart a old c oldC below
  · intro a memA ne
    have coveredB := sound.covered b inUnion notBase
    by_cases atB : a = b
    · subst atB
      intro x lowX highX
      rw [sizeB] at highX
      rw [typeElse a (Nat.ne_of_lt low)]
      exact coveredB x lowX (by omega)
    · rcases blocks a memA with rfl | old
      · intro x lowX highX
        rw [sizeNp, ends] at highX
        rw [typeNp, ← fits.1]
        exact coveredB x (by omega) (by omega)
      · exact (sound.covered a old ne).congr (sizeElse a (neNp a old) atB)
          (typeElse a (neNp a old)) fun region memR => memR
  · exact sound.above
  · exact Finset.mem_insert_of_mem (Finset.mem_erase.mpr ⟨Ne.symm other, memP⟩)
  · rintro a memA c memC ⟨ne, sameType, border⟩
    have old : ∀ x ∈ insert (plus b nunits) (free.erase b), x ≠ plus b nunits → x ∈ free ∧ x ≠ b :=
      fun x memX neX => (Finset.mem_erase.mp ((Finset.mem_insert.mp memX).resolve_left neX)).symm
    by_cases atNp : a = plus b nunits
    · -- What borders on the rest from above bordered on the block.
      obtain ⟨freeC, neB⟩ := old c memC (atNp ▸ Ne.symm ne)
      rw [atNp, typeNp, typeElse c (atNp ▸ Ne.symm ne)] at sameType
      rw [atNp, sizeNp, ends, ← end_] at border
      exact sound.merged b mem c freeC ⟨Ne.symm neB, fits.1.trans sameType, border⟩
    · obtain ⟨freeA, neB⟩ := old a memA atNp
      rw [sizeElse a atNp neB] at border
      rw [typeElse a atNp] at sameType
      by_cases toNp : c = plus b nunits
      · -- Nothing borders on the rest from below but the front.
        by_cases atBase : a = heap.base
        · rw [atBase, sound.size_base] at border
          exact neBase (toNp.symm.trans (border.symm.trans (by simp [plus])))
        · have apart := off a (Finset.mem_union_left _ freeA) neB
          rw [sound.plus_size (Finset.mem_union_left _ freeA) atBase] at border
          have inside := lt_stop heap a
          omega
      · obtain ⟨freeC, _⟩ := old c memC toNp
        rw [typeElse c toNp] at sameType
        exact sound.merged a freeA c freeC ⟨ne, sameType, border⟩
  · exact fun a memA => sizeElse a (neNp a (Finset.mem_union_right _ memA)) (usedNe a memA)
  · exact typeElse b (Nat.ne_of_lt low)
  · exact fun a memA => typeElse a (neNp a (Finset.mem_union_right _ memA))

theorem Sound.takeFront (sound : heap.Sound free used) {nunits : Nat} (memP : p ∈ free)
    (mem : b ∈ free) (next : heap.ptr p = b) (fits : heap.Fits type nunits b)
    (positive : 0 < nunits) :
    ∃ free', Taken heap (heap.takeFront type nunits p b) free' used nunits b := by
  have notBase : b ≠ heap.base := by
    rintro rfl
    have small := fits.2
    rw [sound.size_base] at small
    omega
  by_cases whole : heap.size b = nunits
  · subst next
    have taken := sound.takeWhole memP mem notBase
    rw [whole] at taken
    unfold Heap.takeFront
    rw [if_pos whole]
    exact ⟨_, taken⟩
  · have other : b ≠ p := by
      rintro rfl
      exact sound.ptr_ne_self memP notBase next
    rw [takeFront_eq_cut other whole]
    exact ⟨_, sound.cut memP mem next notBase fits positive whole⟩

/-! ## The system calls -/

/-- A request for more memory that does not come back, or is none. -/
abbrev Declined (stop : Stop) : Prop := stop ≠ .hangs ∧ stop ≠ .nullPointer

theorem sysShmem_cases (heap : Heap) (len : Nat) :
    (∃ stop, heap.sysShmem len = .error stop ∧ Declined stop) ∨
      ∃ answer rest, heap.answers = answer :: rest ∧
        (answer = none ∧ heap.sysShmem len = .ok (none, { heap with answers := rest }) ∨
          ∃ mem, answer = some mem ∧ heap.Vacant mem len ∧
            heap.sysShmem len = .ok (some mem,
              { heap with answers := rest, regions := ⟨mem, len, true⟩ :: heap.regions })) := by
  unfold sysShmem answer
  cases pending : heap.answers with
  | nil => exact .inl ⟨_, rfl, by decide⟩
  | cons answer rest =>
      cases answer with
      | none => exact .inr ⟨none, rest, rfl, .inl ⟨rfl, rfl⟩⟩
      | some mem =>
          by_cases vacant : heap.Vacant mem len
          · refine .inr ⟨some mem, rest, rfl, .inr ⟨mem, rfl, vacant, ?_⟩⟩
            exact if_pos vacant
          · exact .inl ⟨.unfaithful, if_neg vacant, by decide⟩

theorem sysBrkQuery_cases (heap : Heap) :
    (∃ stop, heap.sysBrkQuery = .error stop ∧ Declined stop) ∨
      ∃ answer rest, heap.answers = answer :: rest ∧
        heap.sysBrkQuery = .ok (answer, { heap with answers := rest }) ∧
        ∀ brk, answer = some brk → brk ≠ 0 → heap.base + headerSize ≤ brk := by
  unfold sysBrkQuery answer
  cases pending : heap.answers with
  | nil => exact .inl ⟨_, rfl, by decide⟩
  | cons answer rest =>
      cases answer with
      | none =>
          refine .inr ⟨none, rest, rfl, rfl, ?_⟩
          rintro _ ⟨⟩
      | some brk =>
          by_cases honest : brk = 0 ∨ (brk % pgSize = 0 ∧ heap.base + headerSize ≤ brk)
          · refine .inr ⟨some brk, rest, rfl, if_pos honest, ?_⟩
            rintro _ ⟨⟩ notZero
            exact (honest.resolve_left notZero).2
          · exact .inl ⟨.unfaithful, if_neg honest, by decide⟩

theorem sysBrk_cases (heap : Heap) (newbrk : Nat) :
    (∃ stop, heap.sysBrk newbrk = .error stop ∧ Declined stop) ∨
      ∃ answer rest, heap.answers = answer :: rest ∧
        (answer = none ∧ heap.sysBrk newbrk = .ok (none, { heap with answers := rest }) ∨
          ∃ brk, answer = some brk ∧ (brk ≤ heap.brk ∧
              heap.sysBrk newbrk = .ok (some brk, { heap with answers := rest }) ∨
            heap.brk < newbrk ∧ newbrk ≤ brk ∧ heap.Vacant heap.brk (brk - heap.brk) ∧
              heap.sysBrk newbrk = .ok (some brk,
                { heap with
                  answers := rest
                  regions := ⟨heap.brk, brk - heap.brk, false⟩ :: heap.regions }))) := by
  unfold sysBrk answer
  by_cases wraps : newbrk ≤ heap.brk
  · exact .inl ⟨.wraps, if_pos wraps, by decide⟩
  · rw [if_neg wraps]
    cases pending : heap.answers with
    | nil => exact .inl ⟨_, rfl, by decide⟩
    | cons answer rest =>
        cases answer with
        | none => exact .inr ⟨none, rest, rfl, .inl ⟨rfl, rfl⟩⟩
        | some brk =>
            by_cases low : brk ≤ heap.brk
            · exact .inr ⟨some brk, rest, rfl, .inr ⟨brk, rfl, .inl ⟨low, if_pos low⟩⟩⟩
            · by_cases vacant : newbrk ≤ brk ∧ heap.Vacant heap.brk (brk - heap.brk)
              · refine .inr ⟨some brk, rest, rfl, .inr ⟨brk, rfl, .inr ⟨by omega, vacant.1,
                  vacant.2, ?_⟩⟩⟩
                exact (if_neg low).trans (if_pos vacant)
              · exact .inl ⟨.unfaithful, (if_neg low).trans (if_neg vacant), by decide⟩

end EdfKernel.User.Heap
