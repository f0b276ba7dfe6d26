import EdfKernel.Mm.LoadUnwind

/-!
# The segments of a program

One round of the loop of `load_icode` over the program headers: the bytes of a segment that does
not wrap around the address space, and what becomes of one that does.
-/

namespace EdfKernel.Mm

open Library

namespace Load

variable {all : Prop} {m₀ : Memory} {img : Image} {mm : MmPtr} {perm : Perm} {l l' : Load}
  {ph start stop la : Nat} {page : Frame}

/-! ## The bytes of a segment -/

/-- The part of a segment after its file bytes is cleared, or there is no memory. -/
theorem clearRest_spec (word : img.binary + img.size < 2 ^ 32)
    (owns : Pages.Owns all m₀.pages l.memory.pages mm none)
    (here : l.memory.pages.pte (.user mm (la / pgSize - 1)) = .present page perm)
    (aligned : la % pgSize = 0) (low : la < start + pgSize) (positive : 0 < start)
    (high : start ≤ la) (le : start ≤ stop) (top : la ≤ kernBase) (top' : stop ≤ kernBase) :
    ∃ start' l₁ found l', l.clearTail img stop start la page = .ok (start', l₁) ∧
      l₁.fillPages img mm perm stop (stop - start') start' la page .zero = .ok (found, l') ∧
      Changes all m₀ mm (pagesIn (la - pgSize) stop ∪ {la / pgSize - 1}) l l' ∧
      (found.isSome = true → (∀ a, start ≤ a → a < stop → l'.Holds mm perm a 0) ∧
        (∀ perm' a v, a < start → l.Holds mm perm' a v → l'.Holds mm perm' a v) ∧
        (l.SizesOk → l'.SizesOk) ∧ (l'.InBounds img ↔ l.InBounds img)) := by
  obtain ⟨base, rfl⟩ : ∃ base, la = base + pgSize := by
    refine ⟨la - pgSize, ?_⟩
    unfold pgSize at *
    omega
  have alignedBase : base % pgSize = 0 := by rwa [Nat.add_mod_right] at aligned
  have before : (base + pgSize) / pgSize - 1 = base / pgSize := by
    unfold pgSize
    omega
  rw [before] at here ⊢
  rw [Nat.add_sub_cancel]
  have below : base < kernBase := (Nat.lt_add_of_pos_right (by decide)).trans_le top
  obtain ⟨l₁, cleared, changes₁, sizes₁, reads₁, bytes₁, kept₁⟩ :=
    clearTail_spec img owns here alignedBase (by omega) high le below
  have changes₁ := changes₁.mono (T := pagesIn base stop ∪ {base / pgSize}) (by simp)
  by_cases more : base + pgSize < stop
  · rw [min_eq_left more.le] at cleared bytes₁
    rcases fillPages_spec word changes₁.owns aligned
      le_rfl (Nat.lt_add_of_pos_right (by decide)) more le_rfl with
      ⟨_, kernel⟩ | ⟨found, l', filled, changes', rest⟩
    · exact absurd kernel (not_lt.mpr top')
    · have sub : pagesIn (base + pgSize) stop ⊆ pagesIn base stop ∪ {base / pgSize} :=
        fun n there => .inl ⟨(Nat.le_add_right base pgSize).trans there.1, there.2⟩
      refine ⟨_, l₁, found, l', cleared, filled, changes₁.trans (changes'.mono sub),
        fun isSome => ?_⟩
      obtain ⟨⟨start', la', page'⟩, isFound⟩ := Option.isSome_iff_exists.mp isSome
      obtain ⟨_, filled⟩ := rest start' la' page' isFound
      have earlier : ∀ a, a < base + pgSize → a / pgSize ∉ pagesIn (base + pgSize) stop := by
        intro a less there
        have low := there.1
        unfold pgSize at *
        omega
      refine ⟨fun a from_ upTo => ?_, fun perm' a v less held => ?_, fun ok => ?_, ?_⟩
      · by_cases inTail : a < base + pgSize
        · exact changes'.holds perm a 0 (earlier a inTail) (bytes₁ a from_ inTail)
        · exact filled.bytes a (not_lt.mp inTail) upTo
      · exact changes'.holds perm' a v (earlier a (less.trans_le high)) (kept₁ perm' a v less held)
      · exact filled.sizes (sizes₁ ok)
      · rw [filled.reads, inBounds_congr reads₁]
        exact and_iff_left trivial
  · rw [min_eq_right (not_lt.mp more)] at cleared bytes₁
    refine ⟨stop, l₁, _, l₁, cleared, fillPages_done _ (lt_irrefl stop), changes₁,
      fun _ => ⟨bytes₁, kept₁, sizes₁, inBounds_congr reads₁⟩⟩

/-- The bytes of a segment are those of the file, and zeros after them. -/
structure HasBytes (img : Image) (mm : MmPtr) (ph : Nat) (l : Load) : Prop where
  file : ∀ a, img.pVa ph ≤ a → a < img.pVa ph + img.pFilesz ph → l.Holds mm (img.perm ph) a
    ((Source.file (add32 img.binary (img.pOffset ph))).byte img (a - img.pVa ph))
  zero : ∀ a, img.pVa ph + img.pFilesz ph ≤ a → a < img.pVa ph + img.pMemsz ph →
    l.Holds mm (img.perm ph) a 0

/-- What the copying of a segment has read and computed. -/
structure ReadsFile (img : Image) (ph : Nat) (l l' : Load) : Prop where
  sizes : l.SizesOk → l'.SizesOk
  reads : l'.InBounds img ↔ l.InBounds img ∧
    img.Contains (add32 img.binary (img.pOffset ph)) (img.pFilesz ph)

/-- The address from which the pages of a segment are allocated. -/
def firstPage (img : Image) (ph : Nat) : Nat :=
  roundDown (img.pVa ph) pgSize

theorem firstPage_spec (img : Image) (ph : Nat) : firstPage img ph % pgSize = 0 ∧
    firstPage img ph ≤ img.pVa ph ∧ img.pVa ph < firstPage img ph + pgSize := by
  unfold firstPage roundDown pgSize
  omega

/-- The loop that copies the bytes of the file. -/
def fileLoop (img : Image) (mm : MmPtr) (ph : Nat) (l : Load) :
    Except LoadStop (Option (Nat × Nat × Frame) × Load) :=
  l.fillPages img mm (img.perm ph) (add32 (img.pVa ph) (img.pFilesz ph))
    (add32 (img.pVa ph) (img.pFilesz ph) - img.pVa ph) (img.pVa ph) (firstPage img ph) 0
    (.file (add32 img.binary (img.pOffset ph)))

theorem copySegment_error {stopped : LoadStop} (run : l.fileLoop img mm ph = .error stopped) :
    l.copySegment img mm ph = .error stopped :=
  bind_eq_error_iff.mpr (.inl run)

theorem copySegment_none (run : l.fileLoop img mm ph = .ok (none, l')) :
    l.copySegment img mm ph = .ok (-eNoMem, l') :=
  bind_eq_ok_iff.mpr ⟨_, run, rfl⟩

theorem copySegment_tail {stopped : LoadStop}
    (run : l.fileLoop img mm ph = .ok (some (start, la, page), l'))
    (tail : l'.clearTail img (add32 (img.pVa ph) (img.pMemsz ph)) start la page = .error stopped) :
    l.copySegment img mm ph = .error stopped :=
  bind_eq_error_iff.mpr (.inr ⟨_, run, bind_eq_error_iff.mpr (.inl tail)⟩)

theorem copySegment_some {start' : Nat} {l₁ l₂ : Load} {found : Option (Nat × Nat × Frame)}
    (run : l.fileLoop img mm ph = .ok (some (start, la, page), l₁))
    (tail : l₁.clearTail img (add32 (img.pVa ph) (img.pMemsz ph)) start la page = .ok (start', l₂))
    (rest : l₂.fillPages img mm (img.perm ph) (add32 (img.pVa ph) (img.pMemsz ph))
      (add32 (img.pVa ph) (img.pMemsz ph) - start') start' la page .zero = .ok (found, l')) :
    l.copySegment img mm ph = .ok (if found.isNone then -eNoMem else 0, l') :=
  bind_eq_ok_iff.mpr ⟨_, run, bind_eq_ok_iff.mpr ⟨_, tail, bind_eq_ok_iff.mpr ⟨_, rest, rfl⟩⟩⟩

/-- The loop over the bytes of the file, when their end does not wrap around. -/
theorem fileLoop_spec (word : img.binary + img.size < 2 ^ 32)
    (owns : Pages.Owns all m₀.pages l.memory.pages mm none) (positive : 0 < img.pFilesz ph)
    (fits : img.pVa ph + img.pFilesz ph < 2 ^ 32) :
    (l.fileLoop img mm ph = .error .kernelPage ∧ kernBase < img.pVa ph + img.pFilesz ph) ∨
      ∃ found l', l.fileLoop img mm ph = .ok (found, l') ∧
        Changes all m₀ mm (pagesIn (firstPage img ph) (img.pVa ph + img.pFilesz ph)) l l' ∧
        ∀ start' la' page', found = some (start', la', page') →
          start' = img.pVa ph + img.pFilesz ph ∧
            Filled img mm (img.perm ph) (.file (add32 img.binary (img.pOffset ph))) (img.pVa ph)
              (img.pVa ph + img.pFilesz ph) l l' la' page' := by
  obtain ⟨aligned, low, inside⟩ := firstPage_spec img ph
  rw [fileLoop, add32_eq fits]
  exact fillPages_spec word owns aligned low inside (Nat.lt_add_of_pos_right positive) le_rfl

/-- A segment that ends below the kernel is copied, or there is no memory. -/
theorem copySegment_spec (word : img.binary + img.size < 2 ^ 32)
    (owns : Pages.Owns all m₀.pages l.memory.pages mm none) (positive : 0 < img.pFilesz ph)
    (le : img.pFilesz ph ≤ img.pMemsz ph) (top : img.pVa ph + img.pMemsz ph ≤ kernBase) :
    ∃ ret l', l.copySegment img mm ph = .ok (ret, l') ∧
      Changes all m₀ mm (pagesIn (firstPage img ph) (img.pVa ph + img.pMemsz ph)) l l' ∧
      (ret = 0 → HasBytes img mm ph l' ∧ ReadsFile img ph l l') := by
  have kern32 : kernBase < 2 ^ 32 := by decide
  obtain ⟨aligned, low, inside⟩ := firstPage_spec img ph
  have ends' : add32 (img.pVa ph) (img.pMemsz ph) = img.pVa ph + img.pMemsz ph :=
    add32_eq (by omega)
  have sub : pagesIn (firstPage img ph) (img.pVa ph + img.pFilesz ph) ⊆
      pagesIn (firstPage img ph) (img.pVa ph + img.pMemsz ph) :=
    fun n there => ⟨there.1, there.2.trans_le (Nat.add_le_add_left le _)⟩
  rcases fileLoop_spec word owns positive (by omega) with
    ⟨_, kernel⟩ | ⟨found, l₁, run, changes₁, filled⟩
  · omega
  · have changes₁ := changes₁.mono sub
    cases found with
    | none => exact ⟨_, l₁, copySegment_none run, changes₁, by rintro ⟨⟩⟩
    | some next =>
        obtain ⟨start, la, page⟩ := next
        obtain ⟨isStart, copied⟩ := filled start la page rfl
        subst isStart
        obtain ⟨high, less, alignedLa⟩ := copied.last
        have below := copied.below
        have top' : la ≤ kernBase := by
          unfold kernBase pgSize at *
          omega
        obtain ⟨start', l₂, found, l', tail, rest, changes₂, zeros⟩ :=
          clearRest_spec word changes₁.owns copied.page alignedLa less
            (Nat.lt_of_lt_of_le positive (Nat.le_add_left _ _)) high
            (Nat.add_le_add_left le (img.pVa ph)) top' top
        rw [← ends'] at tail rest
        have sub' : pagesIn (la - pgSize) (img.pVa ph + img.pMemsz ph) ∪ {la / pgSize - 1} ⊆
            pagesIn (firstPage img ph) (img.pVa ph + img.pMemsz ph) := by
          rintro n (⟨from_, upTo⟩ | rfl)
          · refine ⟨?_, upTo⟩
            unfold pgSize at *
            omega
          · rw [mem_pagesIn]
            unfold pgSize at *
            omega
        refine ⟨_, l', copySegment_some run tail rest, changes₁.trans (changes₂.mono sub'),
          fun zero => ?_⟩
        have isSome : found.isSome = true := by
          cases found with
          | none => cases zero
          | some _ => rfl
        obtain ⟨bytes, kept, sizes, reads⟩ := zeros isSome
        refine ⟨⟨fun a from_ upTo => kept _ a _ upTo (copied.bytes a from_ upTo), bytes⟩,
          fun ok => sizes (copied.sizes ok), ?_⟩
        rw [reads, copied.reads, Nat.add_sub_cancel_left]
        rfl

/-! ## The area of a segment -/

/-- `mm_map` has made an area for the segment, and `mm->brk_start` has been raised. -/
structure AddsSegment (img : Image) (mm : MmPtr) (ph : Nat) (vm vm' : Vm) (v : VmaPtr) : Prop where
  range : Vm.UserRange (firstPage img ph) (roundUp (add32 (img.pVa ph) (img.pMemsz ph)) pgSize)
  apart : ∀ w ∈ vm.areas mm, ¬vm.Meets (firstPage img ph)
    (roundUp (add32 (img.pVa ph) (img.pMemsz ph)) pgSize) w
  mem_iff : ∀ w, w ∈ vm'.areas mm ↔ w = v ∨ w ∈ vm.areas mm
  bounds : vm'.lo v = firstPage img ph ∧
    vm'.hi v = roundUp (add32 (img.pVa ph) (img.pMemsz ph)) pgSize
  flags : (vm'.vma v).vmFlags = img.vmFlags ph
  vma : ∀ w ∈ vm.areas mm, vm'.vma w = vm.vma w
  brkStart : (vm'.mm mm).brkStart =
    max (vm.mm mm).brkStart (add32 (img.pVa ph) (img.pMemsz ph))

/-- The fields that are read from a header before its segment is mapped. -/
def headerReads (ph : Nat) (l : Load) : Load :=
  ((((l.read ph 4).read (add32 ph 16) 4).read (add32 ph 20) 4).read (add32 ph 24) 4).read
    (add32 ph 8) 4

/-- All fields of a header that are read lie in the image. -/
def HeaderWithin (img : Image) (ph : Nat) : Prop :=
  img.Contains ph 4 ∧ img.Contains (add32 ph 16) 4 ∧ img.Contains (add32 ph 20) 4 ∧
    img.Contains (add32 ph 24) 4 ∧ img.Contains (add32 ph 8) 4 ∧ img.Contains (add32 ph 4) 4

theorem vmFlags_plain (img : Image) (ph : Nat) : img.vmFlags ph &&& ~~~vmShare = img.vmFlags ph := by
  unfold Image.vmFlags
  split <;> split <;> split <;> decide

theorem loadSegment_skips (notLoad : img.pType ph ≠ elfPtLoad) :
    l.loadSegment img mm ph = .ok (0, l.read ph 4) :=
  if_pos notLoad

theorem loadSegment_rejects (isLoad : img.pType ph = elfPtLoad)
    (less : img.pMemsz ph < img.pFilesz ph) : l.loadSegment img mm ph =
      .ok (-eInvalElf, ((l.read ph 4).read (add32 ph 16) 4).read (add32 ph 20) 4) :=
  (if_neg (not_not.mpr isLoad)).trans (if_pos less)

theorem loadSegment_empty (isLoad : img.pType ph = elfPtLoad) (empty : img.pFilesz ph = 0) :
    l.loadSegment img mm ph =
      .ok (0, ((l.read ph 4).read (add32 ph 16) 4).read (add32 ph 20) 4) :=
  (if_neg (not_not.mpr isLoad)).trans ((if_neg (by omega)).trans (if_pos empty))

section Mapped

variable {ret : Int} {v : VmaPtr} {vm : Vm}

theorem loadSegment_unmapped (isLoad : img.pType ph = elfPtLoad)
    (le : img.pFilesz ph ≤ img.pMemsz ph) (positive : img.pFilesz ph ≠ 0) (failed : ret ≠ 0)
    (mapped : l.memory.vm.mmMap mm (img.pVa ph) (img.pMemsz ph) (img.vmFlags ph) =
      .ok (ret, v, vm)) :
    l.loadSegment img mm ph =
      .ok (ret, (l.headerReads ph).withMemory { l.memory with vm := vm }) :=
  (if_neg (not_not.mpr isLoad)).trans ((if_neg (not_lt.mpr le)).trans ((if_neg positive).trans
    (bind_eq_ok_iff.mpr ⟨_, congrArg memoryCall mapped, if_pos failed⟩)))

/-- The state when the copying of a segment begins. -/
def beforeCopy (img : Image) (mm : MmPtr) (ph : Nat) (vm : Vm) (l : Load) : Load :=
  (((l.headerReads ph).withMemory { l.memory with vm := vm }).raiseBrk mm
    (add32 (img.pVa ph) (img.pMemsz ph))).read (add32 ph 4) 4

theorem loadSegment_copies (isLoad : img.pType ph = elfPtLoad)
    (le : img.pFilesz ph ≤ img.pMemsz ph) (positive : img.pFilesz ph ≠ 0)
    (mapped : l.memory.vm.mmMap mm (img.pVa ph) (img.pMemsz ph) (img.vmFlags ph) =
      .ok (0, v, vm)) :
    l.loadSegment img mm ph = (l.beforeCopy img mm ph vm).copySegment img mm ph := by
  refine (if_neg (not_not.mpr isLoad)).trans ((if_neg (not_lt.mpr le)).trans
    ((if_neg positive).trans ?_))
  refine (congrArg (· >>= _) (congrArg memoryCall mapped)).trans ?_
  rw [memoryCall, ok_bind]
  exact if_neg (not_not.mpr rfl)

end Mapped

theorem raise_eq (vm : Vm) (mm : MmPtr) (last : Nat) :
    (vm.modifyMm mm fun s => if s.brkStart < last then { s with brkStart := last } else s) =
      vm.modifyMm mm fun s => { s with brkStart := max s.brkStart last, brk := s.brk } := by
  congr 1
  funext s
  split
  · rename_i less
    rw [max_eq_right less.le]
  · rename_i notLess
    rw [max_eq_left (not_lt.mp notLess)]

/-- A segment with bytes in the file is rejected, or gets an area and is copied. -/
theorem loadSegment_mapped (fresh : Vm.Fresh m₀.vm l.memory.vm mm)
    (isLoad : img.pType ph = elfPtLoad) (le : img.pFilesz ph ≤ img.pMemsz ph)
    (positive : img.pFilesz ph ≠ 0) :
    (∃ ret vm l', l.loadSegment img mm ph = .ok (ret, l') ∧ ret ≠ 0 ∧
        l'.memory = { l.memory with vm := vm } ∧ Vm.Fresh m₀.vm vm mm ∧
        l.memory.vm.SameAreas vm mm) ∨
      ∃ v vm, ∃ l₁ : Load, l.loadSegment img mm ph = l₁.copySegment img mm ph ∧
        l₁.memory = { l.memory with vm := vm } ∧ Vm.Fresh m₀.vm vm mm ∧
        AddsSegment img mm ph l.memory.vm vm v ∧ l₁.sizes = l.sizes ∧
        (l₁.InBounds img ↔ l.InBounds img ∧ HeaderWithin img ph) := by
  obtain ⟨ret, v, vm, mapped, fresh', ⟨failed, same⟩ | ⟨rfl, adds⟩⟩ :=
    fresh.mmMap (img.pVa ph) (img.pMemsz ph) (img.vmFlags ph)
  · exact .inl ⟨ret, vm, _, loadSegment_unmapped isLoad le positive failed mapped, failed, rfl,
      fresh', same⟩
  · right
    obtain ⟨fresh'', areas⟩ := fresh'.setBrk
      (fun s => max s.brkStart (add32 (img.pVa ph) (img.pMemsz ph))) fun s => s.brk
    refine ⟨v, _, _, loadSegment_copies isLoad le positive mapped,
      congrArg (fun vm => ({ l.memory with vm := vm } : Memory)) (raise_eq vm mm _), fresh'', ?_, rfl,
      ?_⟩
    · refine ⟨adds.range, adds.apart, fun w => ?_, adds.bounds,
        adds.isFlags.trans (vmFlags_plain img ph), adds.vma, ?_⟩
      · rw [areas]
        exact adds.mem_iff w
      · rw [Vm.modifyMm_mm_self, ← adds.brkStart]
    · simp only [InBounds, beforeCopy, headerReads, read, raiseBrk, withMemory, HeaderWithin,
        List.forall_mem_cons]
      tauto

/-! ## Around the loop over the program headers -/

theorem loadSegments_done {phEnd : Nat} (fuel : Nat) (done : ¬ph < phEnd) :
    l.loadSegments img mm phEnd fuel ph = .ok (0, l) := by
  cases fuel with
  | zero => exact if_neg done
  | succ fuel => exact if_neg done

/-- When the magic number has been read. -/
def afterMagic (img : Image) (l : Load) : Load :=
  (l.read (add32 img.binary 28) 4).read img.binary 4

/-- The loop over the program headers. -/
def headerLoop (img : Image) (mm : MmPtr) (l : Load) : Except LoadStop (Int × Load) :=
  ((l.afterMagic img).read (add32 img.binary 44) 2).loadSegments img mm
    (add32 (add32 img.binary img.ePhoff) (Image.proghdrSize * img.ePhnum)) img.ePhnum
    (add32 img.binary img.ePhoff)

/-- An image without the magic number is rejected. -/
theorem loadInto_rejects (making : Memory.Making all m₀ l.memory mm)
    (empty : all → (∀ n, l.memory.pages.pte (.user mm n) = .zero) ∧
      ∀ index, l.memory.pages.table mm index = none) (bad : img.eMagic ≠ elfMagic) :
    ∃ l', l.loadInto img mm = .ok (-eInvalElf, l') ∧ m₀.GivenBack all l'.memory := by
  obtain ⟨l', cleaned, back⟩ :=
    cleanupPgdir_spec (l := l.afterMagic img) making.fresh making.owns empty
  exact ⟨l', (if_pos bad).trans (bind_eq_ok_iff.mpr ⟨l', cleaned, rfl⟩), back⟩

theorem loadInto_stops {stopped : LoadStop} (magic : img.eMagic = elfMagic)
    (run : l.headerLoop img mm = .error stopped) : l.loadInto img mm = .error stopped :=
  (if_neg (not_not.mpr magic)).trans (bind_eq_error_iff.mpr (.inl run))

/-- An error in the loop gives everything back. -/
theorem loadInto_fails {ret : Int} (magic : img.eMagic = elfMagic)
    (run : l.headerLoop img mm = .ok (ret, l')) (failed : ret ≠ 0)
    (making : Memory.Making all m₀ l'.memory mm) :
    ∃ l'', l.loadInto img mm = .ok (ret, l'') ∧ m₀.GivenBack all l''.memory := by
  obtain ⟨l'', cleaned, back⟩ := cleanupMmap_spec making
  exact ⟨l'', (if_neg (not_not.mpr magic)).trans (bind_eq_ok_iff.mpr ⟨_, run,
    (if_pos failed).trans (bind_eq_ok_iff.mpr ⟨l'', cleaned, rfl⟩)⟩), back⟩

/-- The stack has been mapped, and the end of the heap has been set. -/
structure Finishes (img : Image) (mm : MmPtr) (l l' : Load) : Prop where
  pages : l'.memory.pages = l.memory.pages
  sizes : l'.sizes = l.sizes
  reads : l'.reads = (add32 img.binary 24, 4) :: l.reads
  areas : ∀ v ∈ l.memory.vm.areas mm,
    v ∈ l'.memory.vm.areas mm ∧ l'.memory.vm.vma v = l.memory.vm.vma v
  brkStart : (l'.memory.vm.mm mm).brkStart = roundUp (l.memory.vm.mm mm).brkStart pgSize

/-- After the loop, there is the stack, or everything is given back. -/
theorem loadInto_finishes (magic : img.eMagic = elfMagic)
    (run : l.headerLoop img mm = .ok (0, l')) (making : Memory.Making all m₀ l'.memory mm) :
    (∃ ret l'', ret ≠ 0 ∧ l.loadInto img mm = .ok (ret, l'') ∧ m₀.GivenBack all l''.memory) ∨
      ∃ l'', l.loadInto img mm = .ok (0, l'') ∧ Finishes img mm l' l'' := by
  obtain ⟨fresh, areas⟩ := making.fresh.setBrk (fun s => roundUp s.brkStart pgSize)
    fun s => roundUp s.brkStart pgSize
  obtain ⟨ret, v, vm, mapped, fresh', outcome⟩ :=
    fresh.mmMap (ustackTop - ustackSize) ustackSize (vmRead ||| vmWrite ||| vmStack)
  rcases outcome with ⟨failed, same⟩ | ⟨rfl, adds⟩
  · left
    have covered : all → ({ l'.memory with vm := vm } : Memory).Covered mm := by
      intro isAll
      refine (making.covered isAll).withAreas fun v mem => ⟨?_, congrFun same.vma v⟩
      rw [same.areas, areas]
      exact mem
    obtain ⟨l'', cleaned, back⟩ :=
      cleanupMmap_spec (l := (l'.setBrk mm).withMemory { l'.memory with vm := vm })
        ⟨fresh', making.owns, covered⟩
    refine ⟨ret, l'', failed, (if_neg (not_not.mpr magic)).trans (bind_eq_ok_iff.mpr ⟨_, run,
      (if_neg (not_not.mpr rfl)).trans (bind_eq_ok_iff.mpr ⟨_, congrArg memoryCall mapped,
        (if_pos failed).trans (bind_eq_ok_iff.mpr ⟨l'', cleaned, rfl⟩)⟩)⟩), back⟩
  · refine .inr ⟨_, (if_neg (not_not.mpr magic)).trans (bind_eq_ok_iff.mpr ⟨_, run,
      (if_neg (not_not.mpr rfl)).trans (bind_eq_ok_iff.mpr ⟨_, congrArg memoryCall mapped,
        if_neg (not_not.mpr rfl)⟩)⟩), rfl, rfl, rfl, ?_, ?_⟩
    · intro v mem
      have before := mem
      rw [← areas] at before
      refine ⟨?_, adds.vma v before⟩
      change v ∈ ((vm.modifyMm mm fun s => { s with mmCount := s.mmCount + 1 }).mm mm).mmapList
      rw [Vm.modifyMm_mm_self]
      exact (adds.mem_iff v).mpr (.inr before)
    · change ((vm.modifyMm mm fun s => { s with mmCount := s.mmCount + 1 }).mm mm).brkStart = _
      rw [Vm.modifyMm_mm_self, adds.brkStart, Vm.modifyMm_mm_self]

end Load

namespace Memory

variable {m : Memory}

/-- The frames that are free are as `free_page` leaves them, and the entries that are not zero are
in page tables. -/
structure Ready (m : Memory) : Prop where
  clean : ∀ f, m.pages.free f = true →
    (m.pages.page f).reserved = false ∧ (m.pages.page f).swap = false ∧ (m.pages.page f).ref = 0
  backed : m.pages.Backed

/-- `load_icode` makes an address space and a page directory, or there is no memory. -/
theorem loadIcode_start (ready : m.Ready) (all : Prop) (img : Image) :
    (∃ ret l, ret ≠ 0 ∧ m.loadIcode img = .ok (ret, none, l) ∧ m.GivenBack all l.memory) ∨
      ∃ mm, ∃ l : Load, m.loadIcode img = (do
          let (ret, l) ← l.loadInto img mm
          return (ret, if ret = 0 then some mm else none, l)) ∧
        Making all m l.memory mm ∧ (∀ n, l.memory.pages.pte (.user mm n) = .zero) ∧
        (∀ index, l.memory.pages.table mm index = none) ∧ l.reads = [] ∧ l.sizes = [] ∧
        l.memory.vm.areas mm = [] ∧ (l.memory.vm.mm mm).brkStart = 0 := by
  rcases @mmCreate_fresh m with ⟨grants, none⟩ | ⟨mm, m', created, pages, fresh, areas, brk⟩
  · refine .inl ⟨-eNoMem, ⟨{ m with vm := { m.vm with grants := grants } }, [], []⟩, by decide, ?_,
      ⟨rfl, rfl, ⟨rfl, rfl⟩, fun _ _ => rfl, fun _ _ => rfl⟩, fun _ => rfl, fun _ _ => ⟨rfl, rfl⟩⟩
    rw [loadIcode, none]
  · rcases Pages.Owns.setupPgdir mm ready.clean ready.backed all with
      ⟨grants, none⟩ | ⟨q, made, owns, entries, tables, data⟩
    · left
      obtain ⟨m'', destroyed, same, restored⟩ :=
        @mmDestroy_restored { m' with pages := { m.pages with grants := grants } } _ _ fresh
      refine ⟨-eNoMem, ⟨m'', [], []⟩, by decide, ?_, restored, fun _ => ?_, fun f _ => ?_⟩
      · rw [loadIcode, created]
        simp only [pages, none]
        rw [if_pos (by decide), destroyed]
        rfl
      · rw [same]
      · rw [same]
        exact ⟨rfl, rfl⟩
    · right
      refine ⟨mm, ⟨{ m' with pages := q }, [], []⟩, ?_, ⟨fresh, owns, fun _ => ⟨?_, ?_⟩⟩, entries,
        tables, rfl, rfl, areas, brk⟩
      · rw [loadIcode, created]
        simp only [pages, made]
        rfl
      · exact fun n present => absurd (entries n) present
      · intro index there
        change (q.table mm index).isSome = true at there
        rw [tables index] at there
        cases there

end Memory

end EdfKernel.Mm
