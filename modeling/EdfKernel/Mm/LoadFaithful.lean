import EdfKernel.Mm.LoadSafety
import Mathlib.Data.Finset.Lattice.Fold
import Mathlib.Order.Lattice.Nat

/-!
# Loading is faithful

What an address space holds that `load_icode` has made from an image whose segments lie in the
image and in the user part.  The segments that have no byte in the file are left out, whatever
their size in memory.
-/

namespace EdfKernel.Mm

open Library

namespace Image

variable (img : Image)

/-- A program header. -/
def header (i : Nat) : Nat :=
  img.headers + proghdrSize * i

/-- A segment with a size in memory. -/
def Loads (ph : Nat) : Prop :=
  img.pType ph = elfPtLoad ∧ 0 < img.pMemsz ph

/-- A segment with bytes in the file. -/
def Backed (ph : Nat) : Prop :=
  img.pType ph = elfPtLoad ∧ img.pFilesz ph ≠ 0

instance (ph : Nat) : Decidable (img.Loads ph) :=
  inferInstanceAs (Decidable (_ ∧ _))

instance (ph : Nat) : Decidable (img.Backed ph) :=
  inferInstanceAs (Decidable (_ ∧ _))

/-- The addresses of a segment. -/
def InSegment (ph a : Nat) : Prop :=
  img.pVa ph ≤ a ∧ a < img.pVa ph + img.pMemsz ph

instance (ph a : Nat) : Decidable (img.InSegment ph a) :=
  inferInstanceAs (Decidable (_ ∧ _))

/-- An image with the magic number, whose headers and segments lie in the image, and whose
segments lie in the user part and have no page in common. -/
structure Valid : Prop where
  magic : img.eMagic = elfMagic
  headers : img.binary + img.ePhoff + proghdrSize * img.ePhnum ≤ img.binary + img.size
  inside : ∀ i < img.ePhnum, img.Loads (img.header i) →
    img.pOffset (img.header i) + img.pFilesz (img.header i) ≤ img.size
  user : ∀ i < img.ePhnum, img.Loads (img.header i) → userBase ≤ img.pVa (img.header i) ∧
    img.pVa (img.header i) + img.pMemsz (img.header i) ≤ userTop
  apart : ∀ i < img.ePhnum, ∀ j < img.ePhnum, img.Loads (img.header i) →
    img.Loads (img.header j) → i ≠ j → ∀ a b, img.InSegment (img.header i) a →
      img.InSegment (img.header j) b → a / pgSize ≠ b / pgSize

variable {img} in
/-- The table of headers does not wrap around. -/
theorem Valid.header_lt (valid : img.Valid) (word : img.binary + img.size < 2 ^ 32) :
    img.header img.ePhnum < 2 ^ 32 := by
  have table := valid.headers
  have eq : img.headers = img.binary + img.ePhoff := add32_eq (by omega)
  rw [header, eq]
  omega

variable {img} in
/-- No page can be in two segments of one. -/
theorem Valid.of_one (one : img.ePhnum = 1) (magic : img.eMagic = elfMagic)
    (headers : img.binary + img.ePhoff + proghdrSize * img.ePhnum ≤ img.binary + img.size)
    (inside : img.pOffset (img.header 0) + img.pFilesz (img.header 0) ≤ img.size)
    (user : userBase ≤ img.pVa (img.header 0) ∧
      img.pVa (img.header 0) + img.pMemsz (img.header 0) ≤ userTop) : img.Valid := by
  refine ⟨magic, headers, fun i less _ => ?_, fun i less _ => ?_,
    fun i less j less' _ _ other => ?_⟩
  · rw [one, Nat.lt_one_iff] at less
    exact less ▸ inside
  · rw [one, Nat.lt_one_iff] at less
    exact less ▸ user
  · rw [one, Nat.lt_one_iff] at less less'
    exact absurd (less.trans less'.symm) other

/-- The end of the highest segment. -/
def highest : Nat :=
  (Finset.range img.ePhnum).sup fun i =>
    if img.Loads (img.header i) then img.pVa (img.header i) + img.pMemsz (img.header i) else 0

/-- Every segment with a size in memory has bytes in the file. -/
def AllBacked : Prop :=
  ∀ i < img.ePhnum, img.Loads (img.header i) → img.pFilesz (img.header i) ≠ 0

instance : Decidable img.AllBacked :=
  inferInstanceAs (Decidable (∀ i < img.ePhnum, img.Loads (img.header i) → _))

/-- The byte of a segment at an address: that of the file, or zero after the bytes of the file. -/
def segmentByte (ph a : Nat) : Nat :=
  if a < img.pVa ph + img.pFilesz ph then
    (img.byte (img.binary + img.pOffset ph + (a - img.pVa ph))).toNat
  else 0

end Image

namespace Memory

variable {m₀ m : Memory} {img : Image} {mm : MmPtr} {ph k : Nat}

/-- A segment is in an address space: its addresses are mapped with its permissions, and hold its
bytes. -/
structure HasSegment (m : Memory) (img : Image) (mm : MmPtr) (ph : Nat) : Prop where
  areas : ∀ a, img.InSegment ph a → ∃ v ∈ m.vm.areas mm,
    m.vm.lo v ≤ a ∧ a < m.vm.hi v ∧ (m.vm.vma v).vmFlags = img.vmFlags ph
  bytes : ∀ a, img.InSegment ph a → ∃ f,
    m.pages.pte (userSlot mm a) = .present f (img.perm ph) ∧
      m.pages.data f (a % pgSize) = img.segmentByte ph a

/-- The address space holds the program of the image. -/
structure Faithful (m : Memory) (img : Image) (mm : MmPtr) : Prop where
  segments : ∀ i < img.ePhnum, img.Loads (img.header i) → m.HasSegment img mm (img.header i)
  brkStart : (m.vm.mm mm).brkStart = roundUp img.highest pgSize

/-- `load_icode` returns: with an error when it has given back all it had taken, and with 0 when
there is an address space that holds the program. -/
def LoadsFaithfully (m : Memory) (img : Image) : Prop :=
  ∃ ret found l, m.loadIcode img = .ok (ret, found, l) ∧
    (ret ≠ 0 → m.GivenBack True l.memory) ∧
    (ret = 0 → ∃ mm, found = some mm ∧ l.memory.Faithful img mm)

/-! ## After some of the headers -/

/-- The end of the highest of the first segments that have bytes in the file. -/
def backedTop (img : Image) (k : Nat) : Nat :=
  (Finset.range k).sup fun i =>
    if img.Backed (img.header i) then img.pVa (img.header i) + img.pMemsz (img.header i) else 0

/-- The first segments have been loaded, those without bytes in the file excepted. -/
structure Progress (img : Image) (mm : MmPtr) (k : Nat) (m : Memory) : Prop where
  segments : ∀ i < k, img.Backed (img.header i) → m.HasSegment img mm (img.header i)
  sizes : ∀ i < k, img.Backed (img.header i) → img.Loads (img.header i)
  areas : ∀ v ∈ m.vm.areas mm, ∃ i < k, img.Backed (img.header i) ∧
    m.vm.lo v = Load.firstPage img (img.header i) ∧
    m.vm.hi v = roundUp (img.pVa (img.header i) + img.pMemsz (img.header i)) pgSize
  brkStart : (m.vm.mm mm).brkStart = backedTop img k

theorem backedTop_succ (img : Image) (k : Nat) : backedTop img (k + 1) =
    max (backedTop img k) (if img.Backed (img.header k) then
      img.pVa (img.header k) + img.pMemsz (img.header k) else 0) := by
  unfold backedTop
  rw [Finset.range_add_one, Finset.sup_insert, max_comm]

theorem Progress.skip (progress : Progress img mm k m) (notBacked : ¬img.Backed (img.header k)) :
    Progress img mm (k + 1) m where
  segments i less backed := by
    rcases Nat.lt_succ_iff_lt_or_eq.mp less with earlier | rfl
    · exact progress.segments i earlier backed
    · exact absurd backed notBacked
  sizes i less backed := by
    rcases Nat.lt_succ_iff_lt_or_eq.mp less with earlier | rfl
    · exact progress.sizes i earlier backed
    · exact absurd backed notBacked
  areas v mem := by
    obtain ⟨i, less, rest⟩ := progress.areas v mem
    exact ⟨i, less.trans (Nat.lt_succ_self k), rest⟩
  brkStart := by
    rw [progress.brkStart, backedTop_succ, if_neg notBacked, max_eq_left (Nat.zero_le _)]

end Memory

namespace Load

variable {m₀ : Memory} {img : Image} {mm : MmPtr} {l l' : Load} {ph k : Nat}

/-- A segment has been loaded, with its area. -/
structure NewSegment (img : Image) (mm : MmPtr) (ph : Nat) (l l' : Load) : Prop where
  backed : img.Backed ph
  loads : img.Loads ph
  adds : ∃ v, AddsSegment img mm ph l.memory.vm l'.memory.vm v
  bytes : HasBytes img mm ph l'
  kept : ∀ perm a v, a / pgSize ∉ pagesIn (firstPage img ph) (img.pVa ph + img.pMemsz ph) →
    l.Holds mm perm a v → l'.Holds mm perm a v

/-- The entries of a segment lie in its area. -/
theorem AddsSegment.covered {vm : Vm} {v : VmaPtr} {l₁ : Load} (covered : l.memory.Covered mm)
    (adds : AddsSegment img mm ph l.memory.vm vm v) (same : l₁.memory = { l.memory with vm := vm })
    (changes : Changes True m₀ mm (pagesIn (firstPage img ph) (img.pVa ph + img.pMemsz ph)) l₁ l')
    (fits : img.pVa ph + img.pMemsz ph ≤ vm.hi v) : l'.memory.Covered mm := by
  have covered₁ : l₁.memory.Covered mm := by
    rw [same]
    exact covered.withAreas fun w mem => ⟨(adds.mem_iff w).mpr (.inr mem), adds.vma w mem⟩
  have own : v ∈ l₁.memory.vm.areas mm := by
    rw [same]
    exact (adds.mem_iff v).mpr (.inl rfl)
  have low : l₁.memory.vm.lo v = firstPage img ph ∧ l₁.memory.vm.hi v = vm.hi v := by
    rw [same]
    exact ⟨adds.bounds.1, rfl⟩
  constructor
  · intro n present
    rw [changes.vm]
    by_cases inside : n ∈ pagesIn (firstPage img ph) (img.pVa ph + img.pMemsz ph)
    · refine ⟨v, own, ?_⟩
      rw [low.1, low.2]
      exact ⟨inside.1, inside.2.trans_le fits⟩
    · rw [changes.entries n inside] at present
      exact covered₁.entries n present
  · intro index there
    rw [changes.vm]
    rcases changes.tables index there with before | ⟨n, inside, rfl⟩
    · exact covered₁.tables index before
    · refine ⟨v, own, ?_⟩
      rw [low.1, low.2]
      obtain ⟨from_, upTo⟩ := inside
      have size : ptSize = 4194304 := rfl
      rw [size]
      unfold pgSize at from_ upTo
      omega

/-- One round of the loop over the program headers. -/
theorem loadSegment_loads (word : img.binary + img.size < 2 ^ 32)
    (making : Memory.Making True m₀ l.memory mm)
    (user : img.Loads ph → img.pVa ph + img.pMemsz ph ≤ userTop) :
    ∃ ret l', l.loadSegment img mm ph = .ok (ret, l') ∧ Memory.Making True m₀ l'.memory mm ∧
      (ret = 0 → (¬img.Backed ph ∧ l'.memory = l.memory) ∨ NewSegment img mm ph l l') := by
  by_cases isLoad : img.pType ph = elfPtLoad
  · by_cases le : img.pFilesz ph ≤ img.pMemsz ph
    · by_cases empty : img.pFilesz ph = 0
      · exact ⟨0, _, loadSegment_empty isLoad empty, making, fun _ =>
          .inl ⟨fun backed => backed.2 empty, rfl⟩⟩
      · have loads : img.Loads ph := ⟨isLoad, (Nat.pos_of_ne_zero empty).trans_le le⟩
        have top := user loads
        rcases loadSegment_mapped making.fresh isLoad le empty with
          ⟨ret, vm, l', run, failed, same, fresh, sameAreas⟩ |
            ⟨v, vm, l₁, run, same, fresh, adds, _, _⟩
        · refine ⟨ret, l', run, ?_, fun zero => absurd zero failed⟩
          rw [same]
          refine ⟨fresh, making.owns, fun isTrue => (making.covered isTrue).withAreas
            fun w mem => ⟨?_, congrFun sameAreas.vma w⟩⟩
          rw [sameAreas.areas]
          exact mem
        · have owns₁ : Pages.Owns True m₀.pages l₁.memory.pages mm none := by
            rw [same]
            exact making.owns
          obtain ⟨ret, l', copied, changes, rest⟩ := copySegment_spec word owns₁
            (Nat.pos_of_ne_zero empty) le (top.trans (by decide))
          have vm' : l'.memory.vm = vm := by
            rw [changes.vm, same]
          have fits : img.pVa ph + img.pMemsz ph ≤ vm.hi v := by
            rw [adds.bounds.2]
            unfold userTop at top
            unfold roundUp roundDown add32 pgSize
            omega
          refine ⟨ret, l', run.trans copied, ⟨vm'.symm ▸ fresh, changes.owns, fun isTrue =>
            adds.covered (making.covered isTrue) same changes fits⟩, fun zero => .inr ?_⟩
          refine ⟨⟨isLoad, empty⟩, loads, ⟨v, vm'.symm ▸ adds⟩, (rest zero).1,
            fun perm a value outside held => changes.holds perm a value outside ?_⟩
          unfold Holds
          rw [same]
          exact held
    · exact ⟨_, _, loadSegment_rejects isLoad (not_le.mp le), making, by rintro ⟨⟩⟩
  · exact ⟨0, _, loadSegment_skips isLoad, making, fun _ =>
      .inl ⟨fun backed => isLoad backed.1, rfl⟩⟩

/-- The bytes of a segment are those of the image, without a wrap around. -/
theorem HasBytes.segmentByte (bytes : HasBytes img mm ph l)
    (word : img.binary + img.size < 2 ^ 32)
    (inside : img.pOffset ph + img.pFilesz ph ≤ img.size) {a : Nat} (mem : img.InSegment ph a) :
    l.Holds mm (img.perm ph) a (img.segmentByte ph a) := by
  obtain ⟨low, high⟩ := mem
  unfold Image.segmentByte
  split
  · rename_i inFile
    have held := bytes.file a low inFile
    have address : add32 (add32 img.binary (img.pOffset ph)) (a - img.pVa ph) =
        img.binary + img.pOffset ph + (a - img.pVa ph) := by
      rw [add32_eq (a := img.binary) (by omega), add32_eq (by omega)]
    rw [Source.byte, address] at held
    exact held
  · rename_i after
    exact bytes.zero a (not_lt.mp after) high

/-- The segments that were there stay, and there is one more. -/
theorem NewSegment.progress (new : NewSegment img mm (img.header k) l l')
    (progress : Memory.Progress img mm k l.memory) (set : l.memory.vm.VmaSet mm)
    (word : img.binary + img.size < 2 ^ 32)
    (inside : img.pOffset (img.header k) + img.pFilesz (img.header k) ≤ img.size)
    (top : img.pVa (img.header k) + img.pMemsz (img.header k) ≤ userTop) :
    Memory.Progress img mm (k + 1) l'.memory := by
  obtain ⟨v, adds⟩ := new.adds
  have ends : add32 (img.pVa (img.header k)) (img.pMemsz (img.header k)) =
      img.pVa (img.header k) + img.pMemsz (img.header k) :=
    add32_eq (top.trans_lt (by decide))
  have fits : img.pVa (img.header k) + img.pMemsz (img.header k) ≤
      roundUp (add32 (img.pVa (img.header k)) (img.pMemsz (img.header k))) pgSize := by
    unfold userTop at top
    unfold roundUp roundDown add32 pgSize
    omega
  have old : ∀ w ∈ l.memory.vm.areas mm,
      l'.memory.vm.lo w = l.memory.vm.lo w ∧ l'.memory.vm.hi w = l.memory.vm.hi w := by
    intro w mem
    rw [Vm.lo, Vm.lo, Vm.hi, Vm.hi, adds.vma w mem]
    exact ⟨rfl, rfl⟩
  constructor
  · intro i less backed
    rcases Nat.lt_succ_iff_lt_or_eq.mp less with earlier | rfl
    · have before := progress.segments i earlier backed
      constructor
      · intro a mem
        obtain ⟨w, there, low, high, flags⟩ := before.areas a mem
        refine ⟨w, (adds.mem_iff w).mpr (.inr there), ?_⟩
        rw [(old w there).1, (old w there).2, adds.vma w there]
        exact ⟨low, high, flags⟩
      · intro a mem
        obtain ⟨w, there, low, high, _⟩ := before.areas a mem
        refine new.kept _ a _ (fun inPages => adds.apart w there ?_) (before.bytes a mem)
        -- the page of the address lies in its area
        have aligned := (set.range w there).2.2.2.1
        obtain ⟨from_, upTo⟩ := inPages
        refine ⟨?_, ?_⟩
        · unfold pgSize at *
          omega
        · unfold pgSize at *
          omega
    · constructor
      · intro a mem
        obtain ⟨aligned, low, _⟩ := firstPage_spec img (img.header i)
        refine ⟨v, (adds.mem_iff v).mpr (.inl rfl), ?_, ?_, adds.flags⟩
        · rw [adds.bounds.1]
          exact low.trans mem.1
        · rw [adds.bounds.2]
          exact mem.2.trans_le fits
      · exact fun a mem => new.bytes.segmentByte word inside mem
  · intro i less backed
    rcases Nat.lt_succ_iff_lt_or_eq.mp less with earlier | rfl
    · exact progress.sizes i earlier backed
    · exact new.loads
  · intro w mem
    rcases (adds.mem_iff w).mp mem with rfl | there
    · exact ⟨k, Nat.lt_succ_self k, new.backed, adds.bounds.1, ends ▸ adds.bounds.2⟩
    · obtain ⟨i, less, rest⟩ := progress.areas w there
      refine ⟨i, less.trans (Nat.lt_succ_self k), ?_⟩
      rw [(old w there).1, (old w there).2]
      exact rest
  · rw [adds.brkStart, progress.brkStart, Memory.backedTop_succ, if_pos new.backed, ends]

/-- The loop over the program headers. -/
theorem loadSegments_progress (word : img.binary + img.size < 2 ^ 32) (valid : img.Valid)
    {n : Nat} (making : Memory.Making True m₀ l.memory mm)
    (progress : Memory.Progress img mm k l.memory) (count : k + n = img.ePhnum)
    (fits : img.header img.ePhnum < 2 ^ 32) :
    ∃ ret l', l.loadSegments img mm (img.header img.ePhnum) n (img.header k) = .ok (ret, l') ∧
      Memory.Making True m₀ l'.memory mm ∧
      (ret = 0 → Memory.Progress img mm img.ePhnum l'.memory) := by
  induction n generalizing k l with
  | zero =>
      have last : k = img.ePhnum := count
      subst last
      exact ⟨0, l, loadSegments_done 0 (lt_irrefl _), making, fun _ => progress⟩
  | succ n ih =>
      have inTable : k < img.ePhnum := by omega
      have next : img.header k + Image.proghdrSize = img.header (k + 1) := by
        rw [Image.header, Image.header, Nat.mul_succ, Nat.add_assoc]
      have upTo : img.header (k + 1) ≤ img.header img.ePhnum :=
        Nat.add_le_add_left (Nat.mul_le_mul_left _ inTable) _
      have positive : 0 < Image.proghdrSize := by decide
      obtain ⟨ret, l₁, run, making₁, rest⟩ := @loadSegment_loads m₀ img mm l (img.header k) word
        making fun loads => (valid.user k inTable loads).2
      rw [loadSegments, if_pos (by omega), run, ok_bind, add32_eq (by omega), next]
      by_cases failed : ret = 0
      · subst failed
        have progress₁ : Memory.Progress img mm (k + 1) l₁.memory := by
          rcases rest rfl with ⟨notBacked, same⟩ | new
          · rw [same]
            exact progress.skip notBacked
          · exact new.progress progress making.fresh.set word (valid.inside k inTable new.loads)
              (valid.user k inTable new.loads).2
        simp only [ne_eq, not_true_eq_false, if_false]
        exact ih making₁ progress₁ (by omega)
      · exact ⟨ret, l₁, if_pos failed, making₁, fun zero => absurd zero failed⟩

end Load

namespace Memory

variable {m : Memory} {img : Image} {mm : MmPtr}

/-- A page of an area of a segment holds an address of the segment. -/
theorem exists_inSegment {ph n : Nat} (user : img.pVa ph + img.pMemsz ph ≤ userTop)
    (loads : img.Loads ph) (low : Load.firstPage img ph ≤ n * pgSize)
    (high : n * pgSize < roundUp (img.pVa ph + img.pMemsz ph) pgSize) :
    ∃ b, img.InSegment ph b ∧ b / pgSize = n := by
  obtain ⟨aligned, le, inside⟩ := Load.firstPage_spec img ph
  have positive := loads.2
  unfold userTop at user
  unfold roundUp roundDown add32 at high
  refine ⟨max (img.pVa ph) (n * pgSize), ⟨le_max_left .., ?_⟩, ?_⟩
  · unfold pgSize at *
    omega
  · unfold pgSize at *
    omega

/-- An address space that holds the program has all segments backed by the file. -/
theorem Progress.allBacked {m' : Memory} (valid : img.Valid)
    (progress : Progress img mm img.ePhnum m) (covered : m.Covered mm)
    (pages : m'.pages = m.pages) (faithful : m'.Faithful img mm) : img.AllBacked := by
  intro i less loads empty
  have start : img.InSegment (img.header i) (img.pVa (img.header i)) :=
    ⟨le_rfl, Nat.lt_add_of_pos_right loads.2⟩
  obtain ⟨f, entry, _⟩ := (faithful.segments i less loads).bytes _ start
  rw [pages] at entry
  obtain ⟨v, mem, low, high⟩ := covered.entries (img.pVa (img.header i) / pgSize) (by
    rw [userSlot] at entry
    rw [entry]
    rintro ⟨⟩)
  obtain ⟨j, less', backed, isLow, isHigh⟩ := progress.areas v mem
  have loads' := progress.sizes j less' backed
  rw [isLow] at low
  rw [isHigh] at high
  obtain ⟨b, inside, same⟩ := exists_inSegment (valid.user j less' loads').2 loads' low high
  refine valid.apart i less j less' loads loads' ?_ _ b start inside same.symm
  rintro rfl
  exact backed.2 empty

/-- What has been loaded is the program when all segments are backed by the file. -/
theorem Progress.faithful {m' : Memory} (progress : Progress img mm img.ePhnum m)
    (allBacked : img.AllBacked) (pages : m'.pages = m.pages)
    (areas : ∀ v ∈ m.vm.areas mm, v ∈ m'.vm.areas mm ∧ m'.vm.vma v = m.vm.vma v)
    (brkStart : (m'.vm.mm mm).brkStart = roundUp (m.vm.mm mm).brkStart pgSize) :
    m'.Faithful img mm := by
  have backed : ∀ i < img.ePhnum, img.Backed (img.header i) ↔ img.Loads (img.header i) :=
    fun i less => ⟨progress.sizes i less, fun loads => ⟨loads.1, allBacked i less loads⟩⟩
  constructor
  · intro i less loads
    have before := progress.segments i less ((backed i less).mpr loads)
    constructor
    · intro a mem
      obtain ⟨v, there, low, high, flags⟩ := before.areas a mem
      obtain ⟨there', same⟩ := areas v there
      refine ⟨v, there', ?_⟩
      rw [Vm.lo, Vm.hi, same]
      exact ⟨low, high, flags⟩
    · rw [pages]
      exact before.bytes
  · rw [brkStart, progress.brkStart, backedTop, Image.highest]
    congr 1
    refine Finset.sup_congr rfl fun i mem => ?_
    simp only [backed i (Finset.mem_range.mp mem)]

/-- `load_icode` gives back what it took, or the segments backed by the file are there. -/
theorem loadIcode_outcome (ready : m.Ready) (word : img.binary + img.size < 2 ^ 32)
    (valid : img.Valid) :
    (∃ ret found l, m.loadIcode img = .ok (ret, found, l) ∧ ret ≠ 0 ∧ m.GivenBack True l.memory) ∨
      ∃ mm, ∃ l l₁ : Load, m.loadIcode img = .ok (0, some mm, l) ∧
        Progress img mm img.ePhnum l₁.memory ∧ l₁.memory.Covered mm ∧
        Load.Finishes img mm l₁ l := by
  rcases loadIcode_start ready True img with
    ⟨ret, l, failed, run, back⟩ | ⟨mm, l, run, making, entries, tables, _, _, areas, brk⟩
  · exact .inl ⟨ret, none, l, run, failed, back⟩
  · have fits := valid.header_lt word
    have start : Progress img mm 0 l.memory := by
      refine ⟨fun i less => absurd less (Nat.not_lt_zero i),
        fun i less => absurd less (Nat.not_lt_zero i), fun v mem => ?_, brk⟩
      rw [areas] at mem
      cases mem
    have returns : ∀ ret l', l.loadInto img mm = .ok (ret, l') →
        m.loadIcode img = .ok (ret, if ret = 0 then some mm else none, l') := by
      intro ret l' done
      rw [run, done]
      rfl
    obtain ⟨ret, l₁, loop, making₁, progress⟩ := @Load.loadSegments_progress m img mm
      ((l.afterMagic img).read (add32 img.binary 44) 2) 0 word valid img.ePhnum making start
      (Nat.zero_add _) fits
    have headerLoop : l.headerLoop img mm = .ok (ret, l₁) := by
      have end_ : add32 (add32 img.binary img.ePhoff) (Image.proghdrSize * img.ePhnum) =
          img.header img.ePhnum := add32_eq fits
      rw [Load.headerLoop, end_]
      exact loop
    by_cases failed : ret = 0
    · subst failed
      rcases Load.loadInto_finishes valid.magic headerLoop making₁ with
        ⟨ret, l', failed, done, back⟩ | ⟨l', done, finishes⟩
      · exact .inl ⟨ret, _, l', returns ret l' done, failed, back⟩
      · exact .inr ⟨mm, l', l₁, returns 0 l' done, progress rfl, making₁.covered trivial, finishes⟩
    · obtain ⟨l', done, back⟩ := Load.loadInto_fails valid.magic headerLoop failed making₁
      exact .inl ⟨ret, _, l', returns ret l' done, failed, back⟩

/-- A call that returns an error has given back what it took.  A call that returns 0 has loaded
the program exactly when every segment with a size in memory has bytes in the file. -/
theorem loadIcode_faithful_iff (ready : m.Ready) (word : img.binary + img.size < 2 ^ 32)
    (valid : img.Valid) : (m.RejectsLoad img → m.LoadsFaithfully img) ∧
      (¬m.RejectsLoad img → (m.LoadsFaithfully img ↔ img.AllBacked)) := by
  rcases loadIcode_outcome ready word valid with
    ⟨ret, found, l, run, failed, back⟩ | ⟨mm, l, l₁, run, progress, covered, finishes⟩
  · exact ⟨fun _ => ⟨ret, found, l, run, fun _ => back, fun zero => absurd zero failed⟩,
      fun loads => absurd ⟨ret, found, l, run, failed⟩ loads⟩
  · constructor
    · rintro ⟨ret, found, l', run', failed⟩
      rw [run] at run'
      cases run'
      exact absurd rfl failed
    · refine fun _ => ⟨?_, fun allBacked => ?_⟩
      · rintro ⟨ret, found, l', run', _, loaded⟩
        rw [run] at run'
        cases run'
        obtain ⟨mm', found, faithful⟩ := loaded rfl
        cases found
        exact progress.allBacked valid covered finishes.pages faithful
      · refine ⟨0, some mm, l, run, fun failed => absurd rfl failed, fun _ => ⟨mm, rfl, ?_⟩⟩
        exact progress.faithful allBacked finishes.pages finishes.areas finishes.brkStart

/-- A segment of four bytes in the file and eight in memory is loaded. -/
theorem loadIcode_faithful_eightBytes :
    unusedMemory.LoadsFaithfully (smallImage [0, 8, 0x80, 0] [4, 0, 0, 0] [8, 0, 0, 0]) := by
  have done : (unusedMemory.loadIcode
      (smallImage [0, 8, 0x80, 0] [4, 0, 0, 0] [8, 0, 0, 0])).toOption.map (·.1) = some 0 := by
    decide +kernel
  have valid : (smallImage [0, 8, 0x80, 0] [4, 0, 0, 0] [8, 0, 0, 0]).Valid :=
    .of_one (by decide +kernel) (by decide +kernel) (by decide +kernel) (by decide +kernel)
      (by decide +kernel)
  refine ((loadIcode_faithful_iff unusedMemory_ready (by decide) valid).2 ?_).mpr
    (by decide +kernel)
  rintro ⟨ret, found, l, run, failed⟩
  rw [run] at done
  exact failed (Option.some.inj done)

/-- A segment of eight bytes in memory and none in the file is not mapped. -/
theorem loadIcode_skips_bss :
    (smallImage [0, 8, 0x80, 0] [0, 0, 0, 0] [8, 0, 0, 0]).Valid ∧
      ¬unusedMemory.LoadsFaithfully (smallImage [0, 8, 0x80, 0] [0, 0, 0, 0] [8, 0, 0, 0]) := by
  have done : (unusedMemory.loadIcode
      (smallImage [0, 8, 0x80, 0] [0, 0, 0, 0] [8, 0, 0, 0])).toOption.map (fun r =>
        (r.1, r.2.1, r.2.2.memory.pages.pte (userSlot 1 0x800800))) = some (0, some 1, .zero) := by
    decide +kernel
  constructor
  · exact .of_one (by decide +kernel) (by decide +kernel) (by decide +kernel) (by decide +kernel)
      (by decide +kernel)
  · rintro ⟨ret, found, l, run, _, loaded⟩
    rw [run] at done
    obtain ⟨rfl, rest⟩ := Prod.mk.inj (Option.some.inj done)
    obtain ⟨rfl, unmapped⟩ := Prod.mk.inj rest
    obtain ⟨mm, same, faithful⟩ := loaded rfl
    cases same
    obtain ⟨f, entry, _⟩ := (faithful.segments 0 (by decide +kernel) (by decide +kernel)).bytes
      0x800800 (by decide +kernel)
    rw [unmapped] at entry
    cases entry

end Memory

end EdfKernel.Mm
