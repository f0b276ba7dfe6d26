import EdfKernel.Mm.LoadSegments

/-!
# Malformed programs

`load_icode` is handed the size of the image and never looks at it.  Which images it loads without
a read outside them and without a copy or a clearing that leaves its page.
-/

namespace EdfKernel.Mm

open Library

namespace Image

variable (img : Image)

/-- The bytes of the file lie in the image.  The area of a segment may pass the check of `mm_map`
although its end wraps around: then the bytes end at a page below the kernel. -/
def Fits (ph : Nat) : Prop :=
  img.pVa ph + img.pFilesz ph < 2 ^ 32 →
    img.Contains (add32 img.binary (img.pOffset ph)) (img.pFilesz ph) ∧
    (2 ^ 32 ≤ img.pVa ph + img.pMemsz ph →
      (img.pVa ph + img.pFilesz ph) % pgSize = 0 ∧ img.pVa ph + img.pFilesz ph ≤ kernBase)

/-- The fields of a program header that are used lie in the image, and so do the bytes of its
segment. -/
def Placed (ph : Nat) : Prop :=
  img.Contains ph 4 ∧ (img.pType ph = elfPtLoad →
    img.Contains (add32 ph 16) 4 ∧ img.Contains (add32 ph 20) 4 ∧ (img.pFilesz ph ≠ 0 →
      img.Contains (add32 ph 24) 4 ∧ img.Contains (add32 ph 8) 4 ∧ img.Contains (add32 ph 4) 4 ∧
        img.Fits ph))

/-- The first program header. -/
def headers : Nat :=
  add32 img.binary img.ePhoff

/-- All that is read lies in the image.  No program header is used when the end of their table
wraps around. -/
def WellPlaced : Prop :=
  img.Contains (add32 img.binary 28) 4 ∧ img.Contains img.binary 4 ∧
    img.Contains (add32 img.binary 44) 2 ∧ img.Contains (add32 img.binary 24) 4 ∧
    (img.headers + proghdrSize * img.ePhnum < 2 ^ 32 →
      ∀ i < img.ePhnum, img.Placed (img.headers + proghdrSize * i))

instance (addr len : Nat) : Decidable (img.Contains addr len) :=
  inferInstanceAs (Decidable (_ ∧ _))

instance (ph : Nat) : Decidable (img.Fits ph) :=
  inferInstanceAs (Decidable (_ → _))

instance (ph : Nat) : Decidable (img.Placed ph) :=
  inferInstanceAs (Decidable (_ ∧ _))

instance : Decidable img.WellPlaced :=
  inferInstanceAs (Decidable (_ ∧ _))

theorem half_lt (a : Nat) : img.half a < 2 ^ 16 := by
  have low := (img.byte a).toNat_lt
  have high := (img.byte (add32 a 1)).toNat_lt
  unfold half
  omega

theorem word_lt (a : Nat) : img.word a < 2 ^ 32 := by
  have low := img.half_lt a
  have high := img.half_lt (add32 a 2)
  unfold word
  omega

end Image

namespace Load

variable {m₀ : Memory} {img : Image} {mm : MmPtr} {l l' : Load} {ph : Nat}

/-- A copy or a clearing leaves its page, or a page is mapped over the kernel. -/
def Leaves (stop : LoadStop) : Prop :=
  stop = .wild ∨ stop = .kernelPage

/-- What a part of `load_icode` does, `within` telling that the part stays in the image: it
stops outside its pages, or it returns. -/
def Outcome (m₀ : Memory) (img : Image) (mm : MmPtr) (within : Prop) (l : Load)
    (result : Except LoadStop (Int × Load)) : Prop :=
  (∃ stop, result = .error stop ∧ Leaves stop ∧ ¬within) ∨
    ∃ ret l', result = .ok (ret, l') ∧ Memory.Making False m₀ l'.memory mm ∧
      (ret = 0 → (l.SizesOk → l'.SizesOk) ∧ (l'.InBounds img ↔ l.InBounds img ∧ within))

theorem Changes.making {S : Set Nat} (making : Memory.Making False m₀ l.memory mm)
    (changes : Changes False m₀ mm S l l') : Memory.Making False m₀ l'.memory mm :=
  ⟨changes.vm ▸ making.fresh, changes.owns, False.elim⟩

/-- A segment whose end wraps around is filled up to its file bytes, and no further. -/
theorem copySegment_wraps (word : img.binary + img.size < 2 ^ 32)
    (making : Memory.Making False m₀ l.memory mm) (positive : 0 < img.pFilesz ph)
    (wraps : 2 ^ 32 ≤ img.pVa ph + img.pMemsz ph) :
    Outcome m₀ img mm (img.Fits ph) l (l.copySegment img mm ph) := by
  have va32 : img.pVa ph < 2 ^ 32 := img.word_lt _
  have memsz32 : img.pMemsz ph < 2 ^ 32 := img.word_lt _
  obtain ⟨aligned, low, inside⟩ := firstPage_spec img ph
  have below : add32 (img.pVa ph) (img.pMemsz ph) < img.pVa ph := by
    unfold add32
    omega
  by_cases small : img.pVa ph + img.pFilesz ph < 2 ^ 32
  · rcases fileLoop_spec word making.owns positive small with
      ⟨stopped, kernel⟩ | ⟨found, l₁, run, changes, filled⟩
    · refine .inl ⟨_, copySegment_error stopped, .inr rfl, fun fits => ?_⟩
      exact absurd ((fits small).2 wraps).2 (not_le.mpr kernel)
    · cases found with
      | none =>
          exact .inr ⟨_, l₁, copySegment_none run, changes.making making, by rintro ⟨⟩⟩
      | some next =>
          obtain ⟨start, la, page⟩ := next
          obtain ⟨isStart, copied⟩ := filled start la page rfl
          subst isStart
          obtain ⟨high, less, alignedLa⟩ := copied.last
          have top := copied.below
          have passed : ¬img.pVa ph + img.pFilesz ph < add32 (img.pVa ph) (img.pMemsz ph) := by
            omega
          by_cases whole : (img.pVa ph + img.pFilesz ph) % pgSize = 0
          · -- the file ends at a page, and nothing is left to clear
            have atEnd : ¬img.pVa ph + img.pFilesz ph < la := by
              unfold pgSize at *
              omega
            refine .inr ⟨0, l₁, copySegment_some run (if_neg atEnd) (fillPages_done _ passed),
              changes.making making, fun _ => ⟨copied.sizes, ?_⟩⟩
            rw [copied.reads, Nat.add_sub_cancel_left]
            exact and_congr_right fun _ => ⟨fun within _ => ⟨within, fun _ => ⟨whole, top⟩⟩,
              fun fits => (fits small).1⟩
          · refine .inl ⟨_, copySegment_tail run (clearTail_wild ?_ less.le ?_ ?_), .inl rfl,
              fun fits => whole ((fits small).2 wraps).1⟩
            · refine lt_of_le_of_ne high ?_
              rintro rfl
              exact whole alignedLa
            · omega
            · unfold kernBase at top
              unfold pgSize at *
              omega
  · -- no byte of the file is copied
    have empty : ¬img.pVa ph < add32 (img.pVa ph) (img.pFilesz ph) := by
      have le := img.word_lt (add32 ph 16)
      change img.pFilesz ph < 2 ^ 32 at le
      unfold add32
      omega
    refine .inr ⟨0, l, copySegment_some (fillPages_done _ empty) (if_neg (not_lt.mpr low))
      (fillPages_done _ below.le.not_gt), making, fun _ => ⟨id, ?_⟩⟩
    exact (and_iff_left fun fits => absurd fits small).symm

/-- The copying of a segment that `mm_map` has accepted. -/
theorem copySegment_outcome (word : img.binary + img.size < 2 ^ 32)
    (making : Memory.Making False m₀ l.memory mm) (positive : 0 < img.pFilesz ph)
    (le : img.pFilesz ph ≤ img.pMemsz ph)
    (honest : img.pVa ph + img.pMemsz ph < 2 ^ 32 → img.pVa ph + img.pMemsz ph ≤ kernBase) :
    Outcome m₀ img mm (img.Fits ph) l (l.copySegment img mm ph) := by
  have va32 : img.pVa ph < 2 ^ 32 := img.word_lt _
  have memsz32 : img.pMemsz ph < 2 ^ 32 := img.word_lt _
  by_cases fits : img.pVa ph + img.pMemsz ph < 2 ^ 32
  · obtain ⟨ret, l', run, changes, rest⟩ :=
      copySegment_spec word making.owns positive le (honest fits)
    refine .inr ⟨ret, l', run, changes.making making, fun zero => ?_⟩
    obtain ⟨_, sizes, reads⟩ := rest zero
    refine ⟨sizes, reads.trans (and_congr_right fun _ => ?_)⟩
    unfold Image.Fits
    have small : img.pVa ph + img.pFilesz ph < 2 ^ 32 := by omega
    have notWrapped := not_le.mpr fits
    simp only [small, notWrapped, false_implies, and_true, true_implies]
  · exact copySegment_wraps word making positive (not_lt.mp fits)

/-- An accepted range that does not wrap around ends below the kernel. -/
theorem honest_of_userRange {addr len : Nat}
    (range : Vm.UserRange (roundDown addr pgSize) (roundUp (add32 addr len) pgSize))
    (fits : addr + len < 2 ^ 32) : addr + len ≤ userTop := by
  obtain ⟨_, less, top, _, _⟩ := range
  rw [add32_eq fits] at less top
  unfold userTop at *
  unfold roundUp roundDown add32 pgSize at *
  omega

theorem placed_of_skip (notLoad : img.pType ph ≠ elfPtLoad) :
    img.Placed ph ↔ img.Contains ph 4 :=
  and_iff_left fun isLoad => absurd isLoad notLoad

theorem placed_of_empty (isLoad : img.pType ph = elfPtLoad) (empty : img.pFilesz ph = 0) :
    img.Placed ph ↔ img.Contains (add32 ph 20) 4 ∧ img.Contains (add32 ph 16) 4 ∧
      img.Contains ph 4 := by
  constructor
  · rintro ⟨type, rest⟩
    exact ⟨(rest isLoad).2.1, (rest isLoad).1, type⟩
  · rintro ⟨memsz, filesz, type⟩
    exact ⟨type, fun _ => ⟨filesz, memsz, fun nonempty => absurd empty nonempty⟩⟩

theorem placed_of_copied (isLoad : img.pType ph = elfPtLoad) (nonempty : img.pFilesz ph ≠ 0) :
    img.Placed ph ↔ HeaderWithin img ph ∧ img.Fits ph := by
  constructor
  · rintro ⟨type, rest⟩
    obtain ⟨filesz, memsz, more⟩ := rest isLoad
    obtain ⟨flags, va, offset, fits⟩ := more nonempty
    exact ⟨⟨type, filesz, memsz, flags, va, offset⟩, fits⟩
  · rintro ⟨⟨type, filesz, memsz, flags, va, offset⟩, fits⟩
    exact ⟨type, fun _ => ⟨filesz, memsz, fun _ => ⟨flags, va, offset, fits⟩⟩⟩

/-- One round of the loop over the program headers. -/
theorem loadSegment_outcome (word : img.binary + img.size < 2 ^ 32)
    (making : Memory.Making False m₀ l.memory mm) :
    Outcome m₀ img mm (img.Placed ph) l (l.loadSegment img mm ph) := by
  by_cases isLoad : img.pType ph = elfPtLoad
  · by_cases le : img.pFilesz ph ≤ img.pMemsz ph
    · by_cases empty : img.pFilesz ph = 0
      · refine .inr ⟨0, _, loadSegment_empty isLoad empty, making, fun _ => ⟨id, ?_⟩⟩
        rw [placed_of_empty isLoad empty]
        simp only [InBounds, read, List.forall_mem_cons]
        rw [← and_assoc, ← and_assoc, and_comm, and_assoc (a := img.Contains _ _)]
      · rcases loadSegment_mapped making.fresh isLoad le empty with
          ⟨ret, vm, l', run, failed, same, fresh, _⟩ |
            ⟨v, vm, l₁, run, same, fresh, adds, sizes, reads⟩
        · refine .inr ⟨ret, l', run, ?_, fun zero => absurd zero failed⟩
          rw [same]
          exact ⟨fresh, making.owns, False.elim⟩
        · have making₁ : Memory.Making False m₀ l₁.memory mm := by
            rw [same]
            exact ⟨fresh, making.owns, False.elim⟩
          have placed := placed_of_copied isLoad empty
          rw [run]
          rcases copySegment_outcome word making₁ (Nat.pos_of_ne_zero empty) le
            fun fits => (honest_of_userRange adds.range fits).trans (by decide) with
            ⟨stop, stopped, leaves, outside⟩ | ⟨ret, l', done, making', rest⟩
          · exact .inl ⟨stop, stopped, leaves, fun within => outside (placed.mp within).2⟩
          · refine .inr ⟨ret, l', done, making', fun zero => ?_⟩
            obtain ⟨sizes', reads'⟩ := rest zero
            refine ⟨fun ok => sizes' fun s mem => ok s (sizes ▸ mem), ?_⟩
            rw [reads', reads, placed, and_assoc]
    · exact .inr ⟨_, _, loadSegment_rejects isLoad (not_le.mp le), making, by rintro ⟨⟩⟩
  · refine .inr ⟨0, _, loadSegment_skips isLoad, making, fun _ => ⟨id, ?_⟩⟩
    rw [placed_of_skip isLoad]
    exact List.forall_mem_cons.trans and_comm

/-- The headers from one on, as far as they are in the table. -/
theorem loadSegments_outcome (word : img.binary + img.size < 2 ^ 32) {n : Nat}
    (making : Memory.Making False m₀ l.memory mm)
    (fits : ph + Image.proghdrSize * n < 2 ^ 32) :
    Outcome m₀ img mm (∀ i < n, img.Placed (ph + Image.proghdrSize * i)) l
      (l.loadSegments img mm (ph + Image.proghdrSize * n) n ph) := by
  induction n generalizing ph l with
  | zero =>
      refine .inr ⟨0, l, if_neg (lt_irrefl ph), making, fun _ => ⟨id, ?_⟩⟩
      simp
  | succ n ih =>
      have end_ : ph + Image.proghdrSize * (n + 1) =
          ph + Image.proghdrSize + Image.proghdrSize * n := by
        rw [Nat.mul_succ, Nat.add_assoc, Nat.add_comm (Image.proghdrSize * n)]
      have positive : 0 < Image.proghdrSize := by decide
      have less : ph < ph + Image.proghdrSize * (n + 1) := by omega
      have next : add32 ph Image.proghdrSize = ph + Image.proghdrSize := add32_eq (by omega)
      have all : (∀ i < n + 1, img.Placed (ph + Image.proghdrSize * i)) ↔
          img.Placed ph ∧
            ∀ i < n, img.Placed (ph + Image.proghdrSize + Image.proghdrSize * i) := by
        rw [Nat.forall_lt_succ_left]
        refine and_congr_right fun _ => forall₂_congr fun i _ => ?_
        rw [Nat.mul_succ, Nat.add_assoc, Nat.add_comm (Image.proghdrSize * i)]
      rw [loadSegments, if_pos less]
      rcases @loadSegment_outcome m₀ img mm l ph word making with
        ⟨stop, stopped, leaves, outside⟩ | ⟨ret, l₁, run, making₁, rest⟩
      · refine .inl ⟨stop, bind_eq_error_iff.mpr (.inl stopped), leaves, fun within => ?_⟩
        exact outside (all.mp within).1
      · rw [run, ok_bind]
        by_cases failed : ret = 0
        · subst failed
          obtain ⟨sizes₁, reads₁⟩ := rest rfl
          simp only [ne_eq, not_true_eq_false, if_false]
          rw [next, end_]
          rcases @ih l₁ (ph + Image.proghdrSize) making₁ (by omega) with
            ⟨stop, stopped, leaves, outside⟩ | ⟨ret, l', run', making', rest'⟩
          · exact .inl ⟨stop, stopped, leaves, fun within => outside (all.mp within).2⟩
          · refine .inr ⟨ret, l', run', making', fun zero => ?_⟩
            obtain ⟨sizes', reads'⟩ := rest' zero
            exact ⟨fun ok => sizes' (sizes₁ ok), by rw [reads', reads₁, all, and_assoc]⟩
        · exact .inr ⟨ret, l₁, if_pos failed, making₁, fun zero => absurd zero failed⟩

/-- The loop over the program headers. -/
theorem headerLoop_outcome (word : img.binary + img.size < 2 ^ 32)
    (making : Memory.Making False m₀ l.memory mm) :
    Outcome m₀ img mm (img.headers + Image.proghdrSize * img.ePhnum < 2 ^ 32 →
        ∀ i < img.ePhnum, img.Placed (img.headers + Image.proghdrSize * i)) l
      (l.loadSegments img mm (add32 img.headers (Image.proghdrSize * img.ePhnum)) img.ePhnum
        img.headers) := by
  by_cases fits : img.headers + Image.proghdrSize * img.ePhnum < 2 ^ 32
  · rw [add32_eq fits]
    simp only [fits, true_implies]
    exact loadSegments_outcome word making fits
  · -- the end of the table has wrapped around, and no header is read
    have headers32 : img.headers < 2 ^ 32 := Nat.mod_lt _ (by decide)
    have phnum : img.ePhnum < 2 ^ 16 := img.half_lt _
    have size : Image.proghdrSize = 32 := rfl
    have done : ¬img.headers < add32 img.headers (Image.proghdrSize * img.ePhnum) := by
      rw [size] at fits ⊢
      unfold add32
      omega
    refine .inr ⟨0, l, loadSegments_done _ done, making, fun _ => ⟨id, ?_⟩⟩
    exact (and_iff_left fun small => absurd small fits).symm

/-- `load_icode` once there is a page directory. -/
theorem loadInto_outcome (word : img.binary + img.size < 2 ^ 32)
    (making : Memory.Making False m₀ l.memory mm) :
    (∃ stop, l.loadInto img mm = .error stop ∧ Leaves stop ∧ ¬img.WellPlaced) ∨
      ∃ ret l', l.loadInto img mm = .ok (ret, l') ∧ (ret = 0 →
        (l.SizesOk → l'.SizesOk) ∧ (l'.InBounds img ↔ l.InBounds img ∧ img.WellPlaced)) := by
  by_cases magic : img.eMagic = elfMagic
  · have making₁ : Memory.Making False m₀
        ((l.afterMagic img).read (add32 img.binary 44) 2).memory mm := making
    rcases headerLoop_outcome word making₁ with
      ⟨stop, stopped, leaves, outside⟩ | ⟨ret, l₁, run, making', rest⟩
    · refine .inl ⟨stop, loadInto_stops magic stopped, leaves, fun placed => outside ?_⟩
      exact placed.2.2.2.2
    · right
      by_cases failed : ret = 0
      · subst failed
        rcases loadInto_finishes magic run making' with
          ⟨ret, l', failed, run', _⟩ | ⟨l', run', finishes⟩
        · exact ⟨ret, l', run', fun zero => absurd zero failed⟩
        · refine ⟨0, l', run', fun _ => ?_⟩
          obtain ⟨sizes, reads⟩ := rest rfl
          refine ⟨fun ok s mem => sizes ok s (finishes.sizes ▸ mem), ?_⟩
          have cons : l'.InBounds img ↔
              img.Contains (add32 img.binary 24) 4 ∧ l₁.InBounds img := by
            unfold InBounds
            rw [finishes.reads]
            exact List.forall_mem_cons
          rw [cons, reads]
          simp only [InBounds, read, afterMagic, List.forall_mem_cons]
          unfold Image.WellPlaced
          constructor
          · rintro ⟨entry, ⟨⟨phnum, magic, phoff, before⟩, placed⟩⟩
            exact ⟨before, phoff, magic, phnum, entry, placed⟩
          · rintro ⟨before, phoff, magic, phnum, entry, placed⟩
            exact ⟨entry, ⟨phnum, magic, phoff, before⟩, placed⟩
      · obtain ⟨l', run', _⟩ := loadInto_fails magic run failed making'
        exact ⟨ret, l', run', fun zero => absurd zero failed⟩
  · obtain ⟨l', run, _⟩ := loadInto_rejects making False.elim magic
    exact .inr ⟨_, l', run, by rintro ⟨⟩⟩

end Load

namespace Memory

variable {m : Memory} {img : Image}

/-- `load_icode` returns an error. -/
def RejectsLoad (m : Memory) (img : Image) : Prop :=
  ∃ ret found l, m.loadIcode img = .ok (ret, found, l) ∧ ret ≠ 0

/-- `load_icode` returns, all that it has read lies in the image, no size it has computed wraps
below zero, and no copy or clearing leaves its page. -/
def LoadsInBounds (m : Memory) (img : Image) : Prop :=
  ∃ ret found l, m.loadIcode img = .ok (ret, found, l) ∧ l.InBounds img ∧ l.SizesOk

/-- An image is loaded without leaving its bounds exactly when it is well placed; an assertion
never fails, and no loop runs on. -/
theorem loadIcode_inBounds_iff (ready : m.Ready) (word : img.binary + img.size < 2 ^ 32) :
    (m.RejectsLoad img ∨ (m.LoadsInBounds img ↔ img.WellPlaced)) ∧
      ∀ stop, m.loadIcode img = .error stop → stop = .wild ∨ stop = .kernelPage := by
  rcases loadIcode_start ready False img with
    ⟨ret, l, failed, run, _⟩ | ⟨mm, l, run, making, _, _, reads, sizes, _, _⟩
  · refine ⟨.inl ⟨ret, none, l, run, failed⟩, fun stop stopped => ?_⟩
    rw [run] at stopped
    cases stopped
  · rcases Load.loadInto_outcome word making with
      ⟨stop, stopped, leaves, outside⟩ | ⟨ret, l', done, rest⟩
    · have stops : m.loadIcode img = .error stop := by
        rw [run, stopped]
        rfl
      refine ⟨.inr (iff_of_false ?_ outside), fun stop' stopped' => ?_⟩
      · rintro ⟨ret, found, l', returned, _⟩
        rw [stops] at returned
        cases returned
      · rw [stops] at stopped'
        cases stopped'
        exact leaves
    · have returns : m.loadIcode img = .ok (ret, if ret = 0 then some mm else none, l') := by
        rw [run, done]
        rfl
      constructor
      · by_cases failed : ret = 0
        · right
          subst failed
          obtain ⟨sizes', reads'⟩ := rest rfl
          have start : l.InBounds img := by
            unfold Load.InBounds
            rw [reads]
            rintro r ⟨⟩
          have start' : l.SizesOk := by
            unfold Load.SizesOk
            rw [sizes]
            rintro s ⟨⟩
          constructor
          · rintro ⟨ret, found, l'', returned, inBounds, _⟩
            rw [returns] at returned
            cases returned
            exact (reads'.mp inBounds).2
          · intro placed
            exact ⟨_, _, l', returns, reads'.mpr ⟨start, placed⟩, sizes' start'⟩
        · exact .inl ⟨ret, _, l', returns, failed⟩
      · intro stop stopped
        rw [returns] at stopped
        cases stopped

/-- A memory with free frames and no address space. -/
def unusedMemory : Memory where
  vm :=
    { vma := fun _ => ⟨0, 0, 0, 0, none, 0⟩
      vmaUsed := fun _ => false
      mm := fun _ => ⟨[], none, none, 0, 0, 0, 0, 0⟩
      mmUsed := fun _ => false
      shmem := fun _ => ⟨0, 0⟩
      shmemUsed := fun _ => false
      grants := [some 1, some 2, some 3, some 4] }
  pages :=
    { page := fun _ => ⟨0, false, false, false, false, 0⟩
      free := fun f => decide (f < 8)
      data := fun _ _ => 0xCC
      pgdir := fun _ => 0
      table := fun _ _ => none
      pte := fun _ => .zero
      shmnList := fun _ => []
      shmnCache := fun _ => none
      memMap := fun _ => swapUnused
      hashList := fun _ => []
      activeList := []
      inactiveList := []
      nrActive := 0
      nrInactive := 0
      next := 1
      maxSwapOffset := 1024
      disk := fun _ _ => 0
      grants := [some 0, some 1, some 2, some 3, some 4]
      io := [] }

theorem unusedMemory_ready : unusedMemory.Ready :=
  ⟨fun _ _ => ⟨rfl, rfl, rfl⟩, fun _ _ present => absurd rfl present⟩

/-- An image of one segment, with four bytes after the headers. -/
def smallImage (va filesz memsz : List UInt8) : Image where
  byte a :=
    ([0x7F, 0x45, 0x4C, 0x46] ++ List.replicate 24 0 ++ [52, 0, 0, 0] ++ List.replicate 12 0 ++
      [1, 0] ++ List.replicate 6 0 ++ [1, 0, 0, 0, 84, 0, 0, 0] ++ va ++ List.replicate 4 0 ++
      filesz ++ memsz ++ [7, 0, 0, 0, 0, 0, 0, 0, 1, 2, 3, 4]).getD (a - kernBase) 0
  binary := kernBase
  size := 88

/-- A segment of four bytes in the file and eight in memory is loaded within its bounds. -/
theorem loadIcode_inBounds_eightBytes :
    unusedMemory.LoadsInBounds (smallImage [0, 8, 0x80, 0] [4, 0, 0, 0] [8, 0, 0, 0]) := by
  have done : (unusedMemory.loadIcode
      (smallImage [0, 8, 0x80, 0] [4, 0, 0, 0] [8, 0, 0, 0])).toOption.map (·.1) = some 0 := by
    decide +kernel
  refine ((loadIcode_inBounds_iff unusedMemory_ready (by decide)).1.resolve_left ?_).mpr
    (by decide +kernel)
  rintro ⟨ret, found, l, run, failed⟩
  rw [run] at done
  exact failed (Option.some.inj done)

/-- A size in memory that wraps around makes the last clearing run out of its page. -/
theorem loadIcode_wild :
    ¬(unusedMemory.RejectsLoad (smallImage [0, 8, 0x80, 0] [4, 0, 0, 0] [255, 255, 255, 255]) ∨
      unusedMemory.LoadsInBounds
        (smallImage [0, 8, 0x80, 0] [4, 0, 0, 0] [255, 255, 255, 255])) := by
  have stops : unusedMemory.loadIcode
      (smallImage [0, 8, 0x80, 0] [4, 0, 0, 0] [255, 255, 255, 255]) = .error .wild :=
    reason_eq_some_iff.mp (by decide +kernel)
  rintro (⟨ret, found, l, run, _⟩ | ⟨ret, found, l, run, _⟩)
  · rw [stops] at run
    cases run
  · rw [stops] at run
    cases run

end Memory

end EdfKernel.Mm
