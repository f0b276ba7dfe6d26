import EdfKernel.User.Malloc
import Mathlib.Data.Finset.Lattice.Basic

/-!
# The blocks of the user heap

The free blocks are on a circle in the order of their addresses, with `base` among them, and
neither the free blocks nor those in use overlap.  Every block is memory of its own type.
-/

namespace EdfKernel.User.Heap

open Library.CyclicList

variable {heap heap' : Heap} {free used : Finset Nat} {a b p bp : Nat} {type : Bool}

/-! ## The parts of a header -/

section Setters

variable (heap a b) (n : Nat) (type)

@[simp] theorem setPtr_ptr : (heap.setPtr a b).ptr = Function.update heap.ptr a b := rfl
@[simp] theorem setPtr_size : (heap.setPtr a b).size = heap.size := rfl
@[simp] theorem setPtr_type : (heap.setPtr a b).type = heap.type := rfl
@[simp] theorem setPtr_base : (heap.setPtr a b).base = heap.base := rfl
@[simp] theorem setPtr_brk : (heap.setPtr a b).brk = heap.brk := rfl
@[simp] theorem setPtr_freep : (heap.setPtr a b).freep = heap.freep := rfl
@[simp] theorem setPtr_regions : (heap.setPtr a b).regions = heap.regions := rfl
@[simp] theorem setPtr_answers : (heap.setPtr a b).answers = heap.answers := rfl
@[simp] theorem setSize_ptr : (heap.setSize a n).ptr = heap.ptr := rfl
@[simp] theorem setSize_size : (heap.setSize a n).size = Function.update heap.size a n := rfl
@[simp] theorem setSize_type : (heap.setSize a n).type = heap.type := rfl
@[simp] theorem setSize_base : (heap.setSize a n).base = heap.base := rfl
@[simp] theorem setSize_brk : (heap.setSize a n).brk = heap.brk := rfl
@[simp] theorem setSize_freep : (heap.setSize a n).freep = heap.freep := rfl
@[simp] theorem setSize_regions : (heap.setSize a n).regions = heap.regions := rfl
@[simp] theorem setSize_answers : (heap.setSize a n).answers = heap.answers := rfl
@[simp] theorem setType_ptr : (heap.setType a type).ptr = heap.ptr := rfl
@[simp] theorem setType_size : (heap.setType a type).size = heap.size := rfl
@[simp] theorem setType_type : (heap.setType a type).type = Function.update heap.type a type := rfl
@[simp] theorem setType_base : (heap.setType a type).base = heap.base := rfl
@[simp] theorem setType_brk : (heap.setType a type).brk = heap.brk := rfl
@[simp] theorem setType_freep : (heap.setType a type).freep = heap.freep := rfl
@[simp] theorem setType_regions : (heap.setType a type).regions = heap.regions := rfl
@[simp] theorem setType_answers : (heap.setType a type).answers = heap.answers := rfl

end Setters

/-! ## The invariant -/

/-- Where the block ends; `base` is a header and nothing more. -/
def stop (heap : Heap) (a : Nat) : Nat := plus a (max 1 (heap.size a))

theorem lt_stop (heap : Heap) (a : Nat) : a < heap.stop a := by
  have positive : 1 ≤ max 1 (heap.size a) := le_max_left ..
  unfold stop plus headerSize
  omega

/-- Two free blocks of one type lie side by side. -/
def Touches (heap : Heap) (a b : Nat) : Prop :=
  a ≠ b ∧ heap.type a = heap.type b ∧ plus a (heap.size a) = b

instance decidableTouches (heap : Heap) (a b : Nat) : Decidable (heap.Touches a b) :=
  inferInstanceAs (Decidable (_ ∧ _ ∧ _))

/-- The memory of a block was handed out for blocks of its type. -/
def Covered (heap : Heap) (a : Nat) : Prop :=
  ∀ x, a ≤ x → x < plus a (heap.size a) →
    ∃ region ∈ heap.regions, region.type = heap.type a ∧
      region.start ≤ x ∧ x < region.start + region.len

/-- The free blocks and the blocks in use, apart from whether free ones lie side by side. -/
structure Laid (heap : Heap) (free used : Finset Nat) : Prop where
  circular : Circular heap.ptr free
  base_mem : heap.base ∈ free
  disjoint : Disjoint free used
  size_base : heap.size heap.base = 0
  type_base : heap.type heap.base = false
  size_pos : ∀ a ∈ free ∪ used, a ≠ heap.base → 0 < heap.size a
  apart : ∀ a ∈ free ∪ used, ∀ b ∈ free ∪ used, a < b → heap.stop a ≤ b
  covered : ∀ a ∈ free ∪ used, a ≠ heap.base → heap.Covered a
  above : ∀ region ∈ heap.regions, region.type = false →
    heap.base + headerSize ≤ region.start

/-- What the break was moved over is below the break, and the break above `base`. -/
structure BrkSound (heap : Heap) : Prop where
  below : ∀ region ∈ heap.regions, region.type = false → region.start + region.len ≤ heap.brk
  above : heap.brk ≠ 0 → heap.base + headerSize ≤ heap.brk

/-- The heap between two calls. -/
structure Sound (heap : Heap) (free used : Finset Nat) : Prop extends Laid heap free used where
  freep : ∃ first ∈ free, heap.freep = some first
  merged : ∀ a ∈ free, ∀ b ∈ free, ¬heap.Touches a b

/-- Two heaps with the same headers and the same memory. -/
structure Same (heap heap' : Heap) (free used : Finset Nat) : Prop where
  ptr : ∀ a ∈ free, heap'.ptr a = heap.ptr a
  size : ∀ a ∈ free ∪ used, heap'.size a = heap.size a
  type : ∀ a ∈ free ∪ used, heap'.type a = heap.type a
  base : heap'.base = heap.base
  regions : heap'.regions = heap.regions

theorem Covered.congr (covered : heap.Covered a) (size : heap'.size a = heap.size a)
    (type : heap'.type a = heap.type a) (regions : ∀ r ∈ heap.regions, r ∈ heap'.regions) :
    heap'.Covered a := by
  intro x low high
  rw [size] at high
  obtain ⟨region, mem, sameType, inside⟩ := covered x low high
  exact ⟨region, regions _ mem, sameType.trans type.symm, inside⟩

namespace Laid

theorem congr (laid : heap.Laid free used) (same : Same heap heap' free used) :
    heap'.Laid free used where
  circular := laid.circular.congr same.ptr
  base_mem := same.base ▸ laid.base_mem
  disjoint := laid.disjoint
  size_base := by
    rw [same.base, same.size _ (Finset.mem_union_left _ laid.base_mem), laid.size_base]
  type_base := by
    rw [same.base, same.type _ (Finset.mem_union_left _ laid.base_mem), laid.type_base]
  size_pos a mem ne := by
    rw [same.size a mem]
    exact laid.size_pos a mem (same.base ▸ ne)
  apart a memA b memB less := by
    rw [stop, same.size a memA]
    exact laid.apart a memA b memB less
  covered a mem ne :=
    (laid.covered a mem (same.base ▸ ne)).congr (same.size a mem) (same.type a mem)
      fun r memR => same.regions.symm ▸ memR
  above region mem type := by
    rw [same.regions] at mem
    rw [same.base]
    exact laid.above region mem type

theorem ne_base (laid : heap.Laid free used) (mem : a ∈ used) : a ≠ heap.base :=
  fun same => Finset.disjoint_left.mp laid.disjoint laid.base_mem (same ▸ mem)

/-- A block other than `base` ends where its size says. -/
theorem plus_size (laid : heap.Laid free used) (mem : a ∈ free ∪ used) (ne : a ≠ heap.base) :
    plus a (heap.size a) = heap.stop a := by
  have positive := laid.size_pos a mem ne
  rw [stop, max_eq_right positive]

/-- Memory that the break was moved over is above `base`. -/
theorem base_lt (laid : heap.Laid free used) (mem : a ∈ free ∪ used) (ne : a ≠ heap.base)
    (type : heap.type a = false) : heap.base < a := by
  have inside := laid.plus_size mem ne ▸ lt_stop heap a
  obtain ⟨region, memR, typeR, low, _⟩ := laid.covered a mem ne a (le_refl a) inside
  have above := laid.above region memR (typeR.trans type)
  unfold headerSize at above
  omega

theorem stop_le_brk (laid : heap.Laid free used) (brk : heap.BrkSound) (mem : a ∈ free ∪ used)
    (ne : a ≠ heap.base) (type : heap.type a = false) : heap.stop a ≤ heap.brk := by
  have end_ := laid.plus_size mem ne
  have inside := lt_stop heap a
  obtain ⟨region, memR, typeR, _, high⟩ :=
    laid.covered a mem ne (heap.stop a - 1) (by omega) (by omega)
  have below := brk.below region memR (typeR.trans type)
  omega

/-- No block of the type of `base` ends where `base` begins. -/
theorem not_touches_base (laid : heap.Laid free used) (mem : a ∈ free ∪ used) :
    ¬heap.Touches a heap.base := by
  rintro ⟨ne, type, end_⟩
  have above := laid.base_lt mem ne (type.trans laid.type_base)
  have inside := laid.plus_size mem ne ▸ lt_stop heap a
  omega

theorem ptr_ne_self (laid : heap.Laid free used) (memA : a ∈ free) (ne : a ≠ heap.base) :
    heap.ptr a ≠ a :=
  laid.circular.next_ne_self memA laid.base_mem (Ne.symm ne)

/-! ## Linking a block in, and joining two -/

end Laid

/-- The block takes in the one after it. -/
def joined (heap : Heap) (a : Nat) : Heap :=
  (heap.setSize a (heap.size a + heap.size (heap.ptr a))).setPtr a (heap.ptr (heap.ptr a))

namespace Laid

theorem insert_union_erase (mem : bp ∈ used) : insert bp free ∪ used.erase bp = free ∪ used := by
  rw [Finset.insert_union, ← Finset.union_insert, Finset.insert_erase mem]

/-- A block in use is linked in at its place. -/
theorem link (laid : heap.Laid free used) (mem : bp ∈ used) (memP : p ∈ free)
    (between : Between p (heap.ptr p) bp) :
    ((heap.setPtr bp (heap.ptr p)).setPtr p bp).Laid (insert bp free) (used.erase bp) where
  circular := laid.circular.insert memP (Finset.disjoint_right.mp laid.disjoint mem) between
  base_mem := Finset.mem_insert_of_mem laid.base_mem
  disjoint := by
    rw [Finset.disjoint_insert_left]
    exact ⟨Finset.notMem_erase bp used, laid.disjoint.mono_right (Finset.erase_subset ..)⟩
  size_base := laid.size_base
  type_base := laid.type_base
  size_pos a memA := laid.size_pos a (insert_union_erase mem ▸ memA)
  apart a memA b memB :=
    laid.apart a (insert_union_erase mem ▸ memA) b (insert_union_erase mem ▸ memB)
  covered a memA := laid.covered a (insert_union_erase mem ▸ memA)
  above := laid.above

/-- A free block takes in the free block after it, on which it borders. -/
theorem join (laid : heap.Laid free used) (mem : a ∈ free) (touches : heap.Touches a (heap.ptr a)) :
    (heap.joined a).Laid (free.erase (heap.ptr a)) used := by
  have memNext := laid.circular.mem a mem
  have inUnion := Finset.mem_union_left used mem
  have nextInUnion := Finset.mem_union_left used memNext
  obtain ⟨ne, type, end_⟩ := touches
  have nextNotBase : heap.ptr a ≠ heap.base := fun same =>
    laid.not_touches_base inUnion (same ▸ ⟨ne, type, end_⟩)
  have notBase : a ≠ heap.base := by
    rintro rfl
    rw [laid.size_base] at end_
    exact ne (by simpa [plus] using end_)
  have sub : free.erase (heap.ptr a) ∪ used ⊆ free ∪ used :=
    Finset.union_subset_union_left (Finset.erase_subset ..)
  have nextEnd := laid.plus_size nextInUnion nextNotBase
  have ends : plus a (heap.size a + heap.size (heap.ptr a)) =
      plus (heap.ptr a) (heap.size (heap.ptr a)) := by
    unfold plus at end_ ⊢
    rw [Nat.add_mul]
    omega
  have sizeElse : ∀ b, b ≠ a →
      Function.update heap.size a (heap.size a + heap.size (heap.ptr a)) b = heap.size b :=
    fun b other => Function.update_of_ne other ..
  refine ⟨?_, ?_, ?_, ?_, laid.type_base, ?_, ?_, ?_, laid.above⟩
  · exact laid.circular.erase mem (Ne.symm ne)
  · exact Finset.mem_erase.mpr ⟨Ne.symm nextNotBase, laid.base_mem⟩
  · exact laid.disjoint.mono_left (Finset.erase_subset ..)
  · exact (sizeElse _ (Ne.symm notBase)).trans laid.size_base
  · intro b memB notBaseB
    have positive := laid.size_pos b (sub memB) notBaseB
    by_cases at_ : b = a
    · rw [at_] at positive ⊢
      simp only [Heap.joined, setPtr_size, setSize_size, Function.update_self]
      omega
    · simpa only [Heap.joined, setPtr_size, setSize_size, sizeElse b at_] using positive
  · intro b memB c memC less
    by_cases at_ : b = a
    · -- What is above the joined block is above its second part.
      subst at_
      have isJoined : (heap.joined b).stop b = heap.stop (heap.ptr b) := by
        have positive := laid.size_pos b inUnion notBase
        rw [← nextEnd, ← ends, stop, Heap.joined, setPtr_size, setSize_size, Function.update_self,
          max_eq_right (by omega)]
      rw [isJoined]
      have after := laid.apart b inUnion c (sub memC) less
      rw [← laid.plus_size inUnion notBase, end_] at after
      have other : c ≠ heap.ptr b := by
        rintro rfl
        rcases Finset.mem_union.mp memC with inFree | inUse
        · exact Finset.notMem_erase _ _ inFree
        · exact Finset.disjoint_left.mp laid.disjoint memNext inUse
      exact laid.apart _ nextInUnion c (sub memC) (lt_of_le_of_ne after (Ne.symm other))
    · rw [stop, Heap.joined, setPtr_size, setSize_size, sizeElse b at_]
      exact laid.apart b (sub memB) c (sub memC) less
  · intro b memB notBaseB
    by_cases at_ : b = a
    · subst at_
      intro x low high
      simp only [Heap.joined, setPtr_size, setSize_size, Function.update_self] at high
      rw [ends] at high
      by_cases first : x < plus b (heap.size b)
      · exact laid.covered b inUnion notBase x low first
      · obtain ⟨region, memR, typeR, inside⟩ :=
          laid.covered _ nextInUnion nextNotBase x (end_ ▸ not_lt.mp first) high
        exact ⟨region, memR, typeR.trans type.symm, inside⟩
    · exact (laid.covered b (sub memB) notBaseB).congr (sizeElse b at_) rfl fun r memR => memR

/-- After a block has taken in the next one, what lies side by side did so before. -/
theorem touches_of_joined (touches : heap.Touches a (heap.ptr a)) {x y : Nat}
    (after : (heap.joined a).Touches x y) :
    x ≠ a ∧ heap.Touches x y ∨ x = a ∧ (y ≠ heap.ptr a → heap.Touches (heap.ptr a) y) := by
  obtain ⟨ne, type, end_⟩ := after
  by_cases at_ : x = a
  · subst at_
    refine .inr ⟨rfl, fun other => ⟨Ne.symm other, touches.2.1.symm.trans type, ?_⟩⟩
    rw [Heap.joined, setPtr_size, setSize_size, Function.update_self] at end_
    rw [← end_]
    have border := touches.2.2
    unfold plus at border ⊢
    rw [Nat.add_mul]
    omega
  · refine .inl ⟨at_, ne, type, ?_⟩
    rwa [Heap.joined, setPtr_size, setSize_size, Function.update_of_ne at_] at end_

/-- The blocks of which a linked in block may be a neighbour are those of its place. -/
theorem touches_of_link (laid : heap.Laid free used) (mem : bp ∈ used) (memP : p ∈ free)
    (between : Between p (heap.ptr p) bp)
    (merged : ∀ a ∈ free, ∀ b ∈ free, ¬heap.Touches a b) {x y : Nat}
    (memX : x ∈ insert bp free) (memY : y ∈ insert bp free) (touches : heap.Touches x y) :
    x = bp ∧ y = heap.ptr p ∨ x = p ∧ y = bp := by
  have inUse := Finset.mem_union_right free mem
  have memNext := laid.circular.mem p memP
  rcases Finset.mem_insert.mp memX with rfl | freeX
  · -- What borders on the block from above is the first node above it.
    refine .inl ⟨rfl, ?_⟩
    have freeY := (Finset.mem_insert.mp memY).resolve_left (Ne.symm touches.1)
    have end_ := touches.2.2
    rw [laid.plus_size inUse (laid.ne_base mem)] at end_
    have above := lt_stop heap x
    have gap := laid.circular.gap p memP y freeY
    have apart := laid.apart x inUse _ (Finset.mem_union_left used memNext)
    unfold Between at gap between
    grind
  · rcases Finset.mem_insert.mp memY with rfl | freeY
    · -- What borders on the block from below is the last node below it.
      refine .inr ⟨?_, rfl⟩
      have notBase : x ≠ heap.base := by
        rintro rfl
        have end_ := touches.2.2
        rw [laid.size_base] at end_
        exact touches.1 (by simpa [plus] using end_)
      have end_ := touches.2.2
      rw [laid.plus_size (Finset.mem_union_left used freeX) notBase] at end_
      have below := lt_stop heap x
      have gap := laid.circular.gap p memP x freeX
      have apart := laid.apart x (Finset.mem_union_left used freeX) p
        (Finset.mem_union_left used memP)
      have inside := lt_stop heap p
      unfold Between at gap between
      grind
    · exact absurd touches (merged x freeX y freeY)

end Laid

/-! ## `free_locked` -/

/-- The block at its place, before it is joined with its neighbours. -/
def linked (heap : Heap) (p bp : Nat) : Heap := (heap.setPtr bp (heap.ptr p)).setPtr p bp

theorem setPtr_joinNext (ne : bp ≠ p) (neNext : bp ≠ heap.ptr p)
    (other : heap.Touches bp (heap.ptr p) → heap.ptr p ≠ p) :
    (heap.joinNext p bp).setPtr p bp =
      if heap.Touches bp (heap.ptr p) then (heap.linked p bp).joined bp else heap.linked p bp := by
  unfold joinNext
  by_cases touches : heap.Touches bp (heap.ptr p)
  · rw [if_pos touches, if_pos touches.2]
    have first : (heap.linked p bp).ptr bp = heap.ptr p := by
      simp [linked, Function.update_of_ne ne]
    have second : (heap.linked p bp).ptr (heap.ptr p) = heap.ptr (heap.ptr p) := by
      simp [linked, Function.update_of_ne (other touches), Function.update_of_ne (Ne.symm neNext)]
    rw [joined, first, second]
    unfold linked setPtr setSize
    congr 1
    simp only
    have swap : ∀ (f : Nat → Nat) (v w : Nat), Function.update (Function.update f bp v) p w =
        Function.update (Function.update f p w) bp v := fun f v w => Function.update_comm ne v w f
    rw [swap, swap, Function.update_idem]
  · rw [if_neg touches, if_neg fun both => touches ⟨neNext, both⟩]
    rfl

theorem joinPrev_eq (ne : bp ≠ p) :
    heap.joinPrev p bp =
      if heap.Touches p bp then (heap.setPtr p bp).joined p else heap.setPtr p bp := by
  unfold joinPrev
  by_cases touches : heap.Touches p bp
  · rw [if_pos touches, if_pos touches.2]
    unfold joined setPtr setSize
    simp only [Function.update_self, Function.update_of_ne ne, Function.update_idem]
  · rw [if_neg touches, if_neg fun both => touches ⟨Ne.symm ne, both⟩]

/-- What `free_locked` does to a heap where it puts the block `bp` after the block `p`. -/
structure Freed (heap heap' : Heap) (p bp : Nat) (free free' : Finset Nat) : Prop where
  mem : p ∈ free'
  keeps : ∀ a ∈ free, a ≠ heap.ptr p → a ∈ free'
  absorbed : heap.ptr p ∉ free' → heap.Touches bp (heap.ptr p)
  ptr : ∀ a, a ≠ p → a ≠ bp → heap'.ptr a = heap.ptr a
  size : ∀ a, a ≠ p → a ≠ bp → heap'.size a = heap.size a
  grows : heap.size p ≤ heap'.size p
  type : heap'.type = heap.type
  placed : heap'.ptr p = bp ∧ heap.size bp ≤ heap'.size bp ∨
    heap.type p = heap.type bp ∧ heap.size bp ≤ heap'.size p
  base : heap'.base = heap.base
  regions : heap'.regions = heap.regions
  brk : heap'.brk = heap.brk
  answers : heap'.answers = heap.answers

/-- The block is linked in and joined with the block after it. -/
theorem Laid.freed_next (laid : heap.Laid free used) (mem : bp ∈ used) (memP : p ∈ free)
    (between : Between p (heap.ptr p) bp)
    (merged : ∀ a ∈ free, ∀ b ∈ free, ¬heap.Touches a b) :
    ∃ free', ((heap.joinNext p bp).setPtr p bp).Laid free' (used.erase bp) ∧
      (∀ a ∈ free', ∀ b ∈ free', ((heap.joinNext p bp).setPtr p bp).Touches a b →
        a = p ∧ b = bp) ∧
      bp ∈ free' ∧ ((heap.joinNext p bp).setPtr p bp).size p = heap.size p ∧
      heap.size bp ≤ ((heap.joinNext p bp).setPtr p bp).size bp ∧
      Freed heap ((heap.joinNext p bp).setPtr p bp) p bp free free' := by
  have memNext := laid.circular.mem p memP
  have ne : bp ≠ p := between.ne_left
  have neNext : bp ≠ heap.ptr p := between.ne_right
  have first : (heap.linked p bp).Laid (insert bp free) (used.erase bp) :=
    laid.link mem memP between
  have follows : (heap.linked p bp).ptr bp = heap.ptr p := by
    simp [linked, Function.update_of_ne ne]
  have sides : ∀ a ∈ insert bp free, ∀ b ∈ insert bp free, (heap.linked p bp).Touches a b →
      a = bp ∧ b = heap.ptr p ∨ a = p ∧ b = bp :=
    fun a memA b memB touches => laid.touches_of_link mem memP between merged memA memB touches
  have other : heap.Touches bp (heap.ptr p) → heap.ptr p ≠ p := by
    intro touches self
    have isBase : p = heap.base := by
      by_contra notBase
      exact laid.ptr_ne_self memP notBase self
    rw [self, isBase] at touches
    exact laid.not_touches_base (Finset.mem_union_right _ mem) touches
  rw [setPtr_joinNext ne neNext other]
  by_cases touches : heap.Touches bp (heap.ptr p)
  · rw [if_pos touches]
    have border : (heap.linked p bp).Touches bp ((heap.linked p bp).ptr bp) := follows ▸ touches
    have second := first.join (Finset.mem_insert_self ..) border
    rw [follows] at second
    have grows : heap.size bp ≤ ((heap.linked p bp).joined bp).size bp := by
      simp [joined, linked]
    refine ⟨_, second, ?_, ?_, ?_, grows, ?_⟩
    · intro a memA b memB after
      obtain ⟨neA, memA⟩ := Finset.mem_erase.mp memA
      obtain ⟨neB, memB⟩ := Finset.mem_erase.mp memB
      rcases touches_of_joined border after with ⟨notBp, before⟩ | ⟨_, before⟩
      · exact (sides a memA b memB before).resolve_left fun both => notBp both.1
      · rw [follows] at before
        rcases sides _ (Finset.mem_insert_of_mem memNext) b memB (before neB) with both | both
        · exact absurd both.1.symm neNext
        · exact absurd both.1 (other touches)
    · exact Finset.mem_erase.mpr ⟨neNext, Finset.mem_insert_self ..⟩
    · exact Function.update_of_ne (Ne.symm ne) ..
    · refine ⟨?_, ?_, fun _ => touches, ?_, ?_, ?_, rfl, .inl ⟨?_, grows⟩, rfl, rfl, rfl, rfl⟩
      · exact Finset.mem_erase.mpr ⟨Ne.symm (other touches), Finset.mem_insert_of_mem memP⟩
      · exact fun a memA neA => Finset.mem_erase.mpr ⟨neA, Finset.mem_insert_of_mem memA⟩
      · intro a neP neBp
        simp [joined, linked, Function.update_of_ne neP, Function.update_of_ne neBp]
      · intro a neP neBp
        simp [joined, linked, Function.update_of_ne neBp]
      · simp [joined, linked, Function.update_of_ne (Ne.symm ne)]
      · simp [joined, linked, Function.update_of_ne (Ne.symm ne)]
  · rw [if_neg touches]
    refine ⟨_, first, ?_, Finset.mem_insert_self .., rfl, le_refl _, ?_⟩
    · intro a memA b memB after
      rcases sides a memA b memB after with ⟨rfl, rfl⟩ | both
      · exact absurd after touches
      · exact both
    · refine ⟨Finset.mem_insert_of_mem memP, fun a memA _ => Finset.mem_insert_of_mem memA,
        fun absent => absurd (Finset.mem_insert_of_mem memNext) absent, ?_, fun a _ _ => rfl,
        le_refl _, rfl, .inl ⟨Function.update_self .., le_refl _⟩, rfl, rfl, rfl, rfl⟩
      intro a neP neBp
      simp [linked, Function.update_of_ne neP, Function.update_of_ne neBp]

/-- The block is linked in and joined with the neighbours of its type. -/
theorem Laid.freed (laid : heap.Laid free used) (mem : bp ∈ used) (memP : p ∈ free)
    (between : Between p (heap.ptr p) bp)
    (merged : ∀ a ∈ free, ∀ b ∈ free, ¬heap.Touches a b) :
    ∃ free', ((heap.joinNext p bp).joinPrev p bp).Laid free' (used.erase bp) ∧
      (∀ a ∈ free', ∀ b ∈ free', ¬((heap.joinNext p bp).joinPrev p bp).Touches a b) ∧
      Freed heap ((heap.joinNext p bp).joinPrev p bp) p bp free free' := by
  have ne : bp ≠ p := between.ne_left
  obtain ⟨free', first, sides, memBp, sizeP, grows, freed⟩ := laid.freed_next mem memP between merged
  have outside := Finset.disjoint_right.mp laid.disjoint mem
  have atP : ((heap.joinNext p bp).setPtr p bp).ptr p = bp := Function.update_self ..
  rw [joinPrev_eq ne]
  by_cases touches : (heap.joinNext p bp).Touches p bp
  · rw [if_pos touches]
    have border : ((heap.joinNext p bp).setPtr p bp).Touches p
        (((heap.joinNext p bp).setPtr p bp).ptr p) := atP.symm ▸ touches
    have second := first.join freed.mem border
    rw [atP] at second
    refine ⟨_, second, ?_, ?_⟩
    · intro a memA b memB after
      obtain ⟨neA, memA⟩ := Finset.mem_erase.mp memA
      obtain ⟨neB, memB⟩ := Finset.mem_erase.mp memB
      rcases touches_of_joined border after with ⟨notP, before⟩ | ⟨_, before⟩
      · exact notP (sides a memA b memB before).1
      · rw [atP] at before
        exact ne (sides bp memBp b memB (before neB)).1
    · have joinedSize : (((heap.joinNext p bp).setPtr p bp).joined p).size p =
          heap.size p + ((heap.joinNext p bp).setPtr p bp).size bp := by
        rw [joined, setPtr_size, setSize_size, Function.update_self, sizeP, atP]
      refine ⟨Finset.mem_erase.mpr ⟨Ne.symm ne, freed.mem⟩, ?_, ?_, ?_, ?_, ?_, freed.type,
        .inr ⟨?_, ?_⟩, freed.base, freed.regions, freed.brk, freed.answers⟩
      · intro a memA neA
        exact Finset.mem_erase.mpr ⟨fun same => outside (same ▸ memA), freed.keeps a memA neA⟩
      · intro absent
        refine freed.absorbed fun mem' => absent (Finset.mem_erase.mpr ⟨?_, mem'⟩)
        exact Ne.symm between.ne_right
      · intro a neP neBp
        exact (Function.update_of_ne neP ..).trans (freed.ptr a neP neBp)
      · intro a neP neBp
        exact (Function.update_of_ne neP ..).trans (freed.size a neP neBp)
      · rw [joinedSize]
        exact Nat.le_add_right ..
      · rw [← freed.type]
        exact touches.2.1
      · rw [joinedSize]
        exact grows.trans (Nat.le_add_left ..)
  · rw [if_neg touches]
    refine ⟨free', first, fun a memA b memB after => ?_, freed⟩
    obtain ⟨rfl, rfl⟩ := sides a memA b memB after
    exact touches after

theorem findPlace_succ (heap : Heap) (bp fuel p : Nat) :
    heap.findPlace bp (fuel + 1) p =
      if Between p (heap.ptr p) bp then .ok p else heap.findPlace bp fuel (heap.ptr p) := by
  rw [findPlace]
  by_cases between : Between p (heap.ptr p) bp
  · rw [if_pos between]
    rcases between with inside | around
    · rw [if_pos inside]
    · rw [if_pos around, ite_self]
  · rw [if_neg between, if_neg fun inside => between (.inl inside),
      if_neg fun around => between (.inr around)]

theorem findPlace_mono {fuel fuel' q : Nat} (found : heap.findPlace bp fuel p = .ok q)
    (le : fuel ≤ fuel') : heap.findPlace bp fuel' p = .ok q := by
  induction fuel generalizing p fuel' with
  | zero => cases found
  | succ fuel ih =>
      obtain ⟨more, rfl⟩ := Nat.exists_eq_add_of_le' le
      rw [findPlace_succ] at found
      rw [← Nat.add_assoc, findPlace_succ]
      split at found
      · rwa [if_pos ‹_›]
      · rw [if_neg ‹_›]
        exact ih found (Nat.le_add_left ..)

theorem findPlace_iterate {n : Nat} (here : Between (heap.ptr^[n] p) (heap.ptr (heap.ptr^[n] p)) bp)
    (before : ∀ m < n, ¬Between (heap.ptr^[m] p) (heap.ptr (heap.ptr^[m] p)) bp) :
    heap.findPlace bp (n + 1) p = .ok (heap.ptr^[n] p) := by
  induction n generalizing p with
  | zero =>
      rw [findPlace_succ]
      exact if_pos here
  | succ n ih =>
      have notHere : ¬Between p (heap.ptr p) bp := before 0 n.succ_pos
      rw [findPlace_succ, if_neg notHere, Function.iterate_succ_apply]
      exact ih here fun m less => before (m + 1) (Nat.succ_lt_succ less)

/-- The loop of `free_locked` ends at the place of the block. -/
theorem findPlace_finds (circular : Circular heap.ptr free) (memP : p ∈ free)
    (outside : bp ∉ free) :
    ∃ q ∈ free, Between q (heap.ptr q) bp ∧
      ∃ enough, ∀ fuel ≥ enough, heap.findPlace bp fuel p = .ok q := by
  obtain ⟨_, memPlace, place⟩ := circular.exists_between ⟨p, memP⟩ outside
  obtain ⟨n, here, before⟩ := circular.exists_first (fun a => Between a (heap.ptr a) bp) memP
    memPlace place
  exact ⟨heap.ptr^[n] p, circular.iterate_mem memP n, here, n + 1,
    fun fuel le => findPlace_mono (findPlace_iterate here before) le⟩

theorem freeLocked_mono {fuel fuel' : Nat} (freed : heap.freeLocked fuel bp = .ok heap')
    (le : fuel ≤ fuel') : heap.freeLocked fuel' bp = .ok heap' := by
  unfold freeLocked at freed ⊢
  split at freed
  · cases freed
  · split at freed
    · cases freed
    · rename_i found
      rw [findPlace_mono found le]
      exact freed

/-- A block in use is given back. -/
theorem Sound.freeLocked (sound : heap.Sound free used) (mem : bp ∈ used) :
    ∃ heap' free' p, p ∈ free ∧ Between p (heap.ptr p) bp ∧ heap'.Sound free' (used.erase bp) ∧
      Freed heap heap' p bp free free' ∧ heap'.freep = some p ∧
      ∃ enough, ∀ fuel ≥ enough, heap.freeLocked fuel bp = .ok heap' := by
  obtain ⟨first, memFirst, freep⟩ := sound.freep
  obtain ⟨p, memP, between, enough, finds⟩ := findPlace_finds sound.circular memFirst
    (Finset.disjoint_right.mp sound.disjoint mem)
  obtain ⟨free', laid, merged, freed⟩ := sound.toLaid.freed mem memP between sound.merged
  have same : Same ((heap.joinNext p bp).joinPrev p bp)
      { (heap.joinNext p bp).joinPrev p bp with freep := some p } free' (used.erase bp) :=
    ⟨fun _ _ => rfl, fun _ _ => rfl, fun _ _ => rfl, rfl, rfl⟩
  refine ⟨{ (heap.joinNext p bp).joinPrev p bp with freep := some p }, free', p, memP, between,
    ⟨laid.congr same, ⟨p, freed.mem, rfl⟩, merged⟩, ?_, rfl, enough, fun fuel le => ?_⟩
  · exact ⟨freed.mem, freed.keeps, freed.absorbed, freed.ptr, freed.size, freed.grows, freed.type,
      freed.placed, freed.base, freed.regions, freed.brk, freed.answers⟩
  · unfold Heap.freeLocked
    rw [freep]
    simp only [finds fuel le]

end EdfKernel.User.Heap
