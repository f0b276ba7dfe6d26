import EdfKernel.Mm.SlabFree

/-!
# Where blocks lie

The objects in use and the control parts of slabs lie in the pages of their slabs, and no two of
them meet.
-/

namespace EdfKernel.Mm.Slab

/-- Two blocks, each with its address and its bytes, do not meet. -/
def Apart (x y : Nat × Nat) : Prop := x.1 + x.2 ≤ y.1 ∨ y.1 + y.2 ≤ x.1

theorem Apart.symm {x y : Nat × Nat} (apart : Apart x y) : Apart y x :=
  Or.symm apart

/-- Smaller blocks do not meet either. -/
theorem Apart.mono {a b n n' k k' : Nat} (apart : Apart (a, n) (b, k)) (le : n' ≤ n)
    (le' : k' ≤ k) : Apart (a, n') (b, k') := by
  rcases apart with before | after
  · exact .inl ((Nat.add_le_add_left le a).trans before)
  · exact .inr ((Nat.add_le_add_left le' b).trans after)

/-- The bytes of a block lie in pages that are marked, and are free for nobody. -/
def Slabs.Covers (s : Slabs) (hand : Nat → Bool) (x : Nat × Nat) : Prop :=
  ∀ b, x.1 ≤ b → b < x.1 + x.2 → ∃ q, s.kva2page b = .ok q ∧ s.pageSlab q = true ∧
    s.free q = false ∧ hand q = false

theorem Slabs.Covers.mono {s : Slabs} {hand : Nat → Bool} {a n n' : Nat}
    (covers : s.Covers hand (a, n)) (le : n' ≤ n) : s.Covers hand (a, n') :=
  fun b low high => covers b low (high.trans_le (Nat.add_le_add_left le a))

namespace Slabs

variable {s : Slabs} {base hand : Nat → Bool} {live : Addr → Option Owner} {c c' : Cachep}
  {t u page page' i j : Nat} {fresh : Option Addr}

theorem page2kva_le (le : page ≤ page') : page2kva page ≤ page2kva page' := by
  unfold page2kva
  have := Nat.mul_le_mul_right pgSize le
  omega

/-- The pages of two slabs do not meet. -/
theorem Placed.apart (placed : s.Placed c t page) (placed' : s.Placed c' u page') (ne : t ≠ u) :
    page + (s.cache c).pages ≤ page' ∨ page' + (s.cache c').pages ≤ page := by
  have some := pages_pos (s.cache c)
  have some' := pages_pos (s.cache c')
  by_contra meet
  have tags := placed.tags (max page page') (by omega) (by omega)
  have tags' := placed'.tags (max page page') (by omega) (by omega)
  exact ne (tags.2.2.symm.trans tags'.2.2)

/-- Blocks in the pages of two slabs. -/
theorem Placed.blocks_apart {x y : Nat × Nat} (placed : s.Placed c t page)
    (placed' : s.Placed c' u page') (ne : t ≠ u) (low : page2kva page ≤ x.1)
    (high : x.1 + x.2 ≤ page2kva (page + (s.cache c).pages)) (low' : page2kva page' ≤ y.1)
    (high' : y.1 + y.2 ≤ page2kva (page' + (s.cache c').pages)) : Apart x y := by
  rcases placed.apart placed' ne with le | le
  · have order := page2kva_le le
    exact .inl (by omega)
  · have order := page2kva_le le
    exact .inr (by omega)

/-- The control part of a slab, where it is at the front of its pages. -/
theorem Placed.front_bounds (placed : s.Placed c t page) (fits : (s.cache c).Fits s.cache)
    (on : (s.cache c).offSlab = false) : t = page2kva page ∧
      t + (s.cache c).controlSize ≤ page2kva page + (s.cache c).offset ∧
      t + (s.cache c).controlSize ≤ page2kva (page + (s.cache c).pages) := by
  have start : (t : Nat) = page2kva page := placed.onSlab on
  have control := fits.onSlab on
  have room := fits.room
  rw [page2kva_add]
  refine ⟨start, ?_, ?_⟩ <;> omega

namespace Inv

variable (inv : s.Inv base live hand fresh)

include inv

/-- Two objects. -/
theorem obj_apart (mem : t ∈ s.slabs c) (inBounds : i < (s.cache c).num)
    (mem' : u ∈ s.slabs c') (inBounds' : j < (s.cache c').num)
    (ne : s.obj c t i ≠ s.obj c' u j) :
    Apart (s.obj c t i, (s.cache c).objsize) (s.obj c' u j, (s.cache c').objsize) := by
  obtain ⟨page, placed⟩ := inv.placed c t mem
  obtain ⟨page', placed'⟩ := inv.placed c' u mem'
  have fits := inv.fits c (inv.known c t mem)
  have bounds := placed.obj_bounds fits inBounds
  have bounds' := placed'.obj_bounds (inv.fits c' (inv.known c' u mem')) inBounds'
  by_cases own : t = u
  · subst own
    have isCache := inv.cache_eq mem mem'
    subst isCache
    unfold Apart obj
    rcases Nat.lt_trichotomy i j with lt | rfl | lt
    · have order := Nat.mul_le_mul_right (s.cache c).objsize (Nat.succ_le_of_lt lt)
      rw [Nat.succ_mul] at order
      exact .inl (by simp only; omega)
    · exact absurd rfl ne
    · have order := Nat.mul_le_mul_right (s.cache c).objsize (Nat.succ_le_of_lt lt)
      rw [Nat.succ_mul] at order
      exact .inr (by simp only; omega)
  · apply placed.blocks_apart placed' own
    · exact (Nat.le_add_right _ _).trans bounds.1
    · exact bounds.2
    · exact (Nat.le_add_right _ _).trans bounds'.1
    · exact bounds'.2

/-- A control part at the front of its pages, and an object. -/
theorem front_obj_apart (mem : t ∈ s.slabs c) (on : (s.cache c).offSlab = false)
    (mem' : u ∈ s.slabs c') (inBounds' : j < (s.cache c').num) :
    Apart (t, (s.cache c).controlSize) (s.obj c' u j, (s.cache c').objsize) := by
  obtain ⟨page, placed⟩ := inv.placed c t mem
  obtain ⟨page', placed'⟩ := inv.placed c' u mem'
  obtain ⟨start, front, last⟩ := placed.front_bounds (inv.fits c (inv.known c t mem)) on
  have bounds' := placed'.obj_bounds (inv.fits c' (inv.known c' u mem')) inBounds'
  by_cases own : t = u
  · subst own
    have isCache := inv.cache_eq mem mem'
    subst isCache
    have isPage : page = page' := page2kva_inj (start.symm.trans (placed'.onSlab on))
    subst isPage
    exact .inl (front.trans bounds'.1)
  · apply placed.blocks_apart placed' own
    · exact start.ge
    · exact last
    · exact (Nat.le_add_right _ _).trans bounds'.1
    · exact bounds'.2

/-- The control part of a slab, and an object that is not its `slab_t`. -/
theorem control_obj_apart (mem : t ∈ s.slabs c) (mem' : u ∈ s.slabs c')
    (inBounds' : j < (s.cache c').num)
    (ne : (s.cache c).offSlab = true → t ≠ s.obj c' u j) :
    Apart (t, (s.cache c).controlSize) (s.obj c' u j, (s.cache c').objsize) := by
  cases off : (s.cache c).offSlab with
  | false => exact inv.front_obj_apart mem off mem' inBounds'
  | true =>
      obtain ⟨_, v, there, i, inBounds, rfl⟩ := inv.controls c t mem off
      have fits := (inv.fits c (inv.known c _ mem)).offSlab off
      exact (inv.obj_apart there inBounds mem' inBounds' (ne off)).mono fits.2.2 (le_refl _)

/-- The control parts of two slabs. -/
theorem controls_apart (mem : t ∈ s.slabs c) (mem' : u ∈ s.slabs c') (ne : t ≠ u) :
    Apart (t, (s.cache c).controlSize) (u, (s.cache c').controlSize) := by
  cases off' : (s.cache c').offSlab with
  | true =>
      obtain ⟨_, v, there, i, inBounds, rfl⟩ := inv.controls c' u mem' off'
      have fits := (inv.fits c' (inv.known c' _ mem')).offSlab off'
      exact (inv.control_obj_apart mem there inBounds fun _ => ne).mono (le_refl _) fits.2.2
  | false =>
      cases off : (s.cache c).offSlab with
      | true =>
          obtain ⟨_, v, there, i, inBounds, rfl⟩ := inv.controls c t mem off
          have fits := (inv.fits c (inv.known c _ mem)).offSlab off
          exact (inv.front_obj_apart mem' off' there inBounds).symm.mono fits.2.2 (le_refl _)
      | false =>
          obtain ⟨page, placed⟩ := inv.placed c t mem
          obtain ⟨page', placed'⟩ := inv.placed c' u mem'
          obtain ⟨start, _, last⟩ := placed.front_bounds (inv.fits c (inv.known c t mem)) off
          obtain ⟨start', _, last'⟩ :=
            placed'.front_bounds (inv.fits c' (inv.known c' u mem')) off'
          exact placed.blocks_apart placed' ne start.ge last start'.ge last'

/-- A block in the pages of a slab. -/
theorem covers {x : Nat × Nat} (placed : s.Placed c t page) (low : page2kva page ≤ x.1)
    (high : x.1 + x.2 ≤ page2kva (page + (s.cache c).pages)) : s.Covers hand x := by
  intro b first last
  obtain ⟨q, low', high', isPage⟩ := placed.byte_page (low.trans first) (last.trans_le high)
  have isSlab := (placed.tags q low' high').1
  refine ⟨q, isPage, isSlab, ?_, ?_⟩
  · rw [Bool.eq_false_iff]
    intro isFree
    rw [((inv.frees q).mp isFree).2.1] at isSlab
    cases isSlab
  · rw [Bool.eq_false_iff]
    intro inHand
    rw [(inv.inHand q inHand).2] at isSlab
    cases isSlab

theorem obj_covers (mem : t ∈ s.slabs c) (inBounds : i < (s.cache c).num) :
    s.Covers hand (s.obj c t i, (s.cache c).objsize) := by
  obtain ⟨page, placed⟩ := inv.placed c t mem
  have bounds := placed.obj_bounds (inv.fits c (inv.known c t mem)) inBounds
  exact inv.covers placed ((Nat.le_add_right _ _).trans bounds.1) bounds.2

theorem control_covers (mem : t ∈ s.slabs c) : s.Covers hand (t, (s.cache c).controlSize) := by
  cases off : (s.cache c).offSlab with
  | false =>
      obtain ⟨page, placed⟩ := inv.placed c t mem
      obtain ⟨start, _, last⟩ := placed.front_bounds (inv.fits c (inv.known c t mem)) off
      exact inv.covers placed start.ge last
  | true =>
      obtain ⟨_, v, there, i, inBounds, rfl⟩ := inv.controls c t mem off
      have fits := (inv.fits c (inv.known c _ mem)).offSlab off
      exact (inv.obj_covers there inBounds).mono fits.2.2

/-- An object in use is a client's, or the `slab_t` of a slab. -/
theorem live_iff (mem : t ∈ s.slabs c) (inBounds : i < (s.cache c).num) :
    live (s.obj c t i) ≠ none ↔
      live (s.obj c t i) = some .client ∨ ∃ c', s.obj c t i ∈ s.slabs c' := by
  constructor
  · intro used
    cases owner : live (s.obj c t i) with
    | none => exact absurd owner used
    | some owner' =>
        cases owner' with
        | client => exact .inl rfl
        | control c' => exact .inr ⟨c', (inv.controlled _ c' owner).1⟩
  · rintro (client | ⟨c', there⟩)
    · simp [client]
    · cases off : (s.cache c').offSlab with
      | true => simp [(inv.controls c' _ there off).1]
      | false =>
          -- a control part at the front of its pages is not where an object is
          have size := (inv.fits c (inv.known c t mem)).objsize
          have size' : 0 < (s.cache c').controlSize := by
            unfold KmemCache.controlSize sizeofSlab
            omega
          rcases inv.front_obj_apart there off mem inBounds with le | le
          · exact absurd le (by simp only; omega)
          · exact absurd le (by simp only; omega)

/-- A slab has an object of somebody's. -/
theorem exists_used (mem : t ∈ s.slabs c) (notFresh : some t ≠ fresh) :
    ∃ i < (s.cache c).num, live (s.obj c t i) ≠ none := by
  obtain ⟨idle, stocked⟩ := inv.stocked c t mem
  have busy := inv.busy c t mem notFresh
  have inuse := stocked.inuse
  obtain ⟨i, inBounds, taken⟩ := stocked.places.exists_taken (by omega)
  exact ⟨i, inBounds, fun isNone => taken ((stocked.idle_iff i inBounds).mpr isNone)⟩

/-- Without a client there is no slab. -/
theorem no_slab (noClient : ∀ b, live b ≠ some .client) (settled : fresh = none) (c : Cachep) :
    s.slabs c = [] := by
  -- an object in use is the `slab_t` of a slab of a cache that keeps it elsewhere
  have control : ∀ c, ∀ t ∈ s.slabs c, ∃ i < (s.cache c).num, ∃ c',
      s.obj c t i ∈ s.slabs c' ∧ (s.cache c').offSlab = true := by
    intro c t mem
    obtain ⟨i, inBounds, used⟩ := inv.exists_used mem (by simp [settled])
    refine ⟨i, inBounds, ?_⟩
    cases owner : live (s.obj c t i) with
    | none => exact absurd owner used
    | some owner' =>
        cases owner' with
        | client => exact absurd owner (noClient _)
        | control c' => exact ⟨c', inv.controlled _ c' owner⟩
  have onSlab : ∀ c, ∀ t ∈ s.slabs c, (s.cache c).offSlab = false := by
    intro c t mem
    obtain ⟨i, inBounds, c', there, off⟩ := control c t mem
    obtain ⟨_, v, there', j, inBounds', isObj⟩ := inv.controls c' _ there off
    obtain ⟨rfl, _⟩ := inv.obj_inj mem inBounds there' inBounds' isObj
    exact ((inv.fits c' (inv.known c' _ there)).offSlab off).2.1
  rw [List.eq_nil_iff_forall_not_mem]
  intro t mem
  obtain ⟨i, _, c', there, off⟩ := control c t mem
  rw [onSlab c' _ there] at off
  cases off

end Inv

end Slabs

end EdfKernel.Mm.Slab
