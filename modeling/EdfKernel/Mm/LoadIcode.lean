import EdfKernel.Mm.Machine

/-!
# Loading a program

`load_icode` of `proc.c` on the memory, for an image anywhere in the memory of the kernel.  The
function writes down what it reads and which sizes it computes.  It is called by `do_execve` when
the process has no address space; the trap frame, the page directory register and `proc_mm_list`
are left out.
-/

namespace EdfKernel.Mm

def elfMagic : Nat := 0x464C457F

def elfPtLoad : Nat := 1

def ustackTop : Nat := userTop

def ustackSize : Nat := 256 * pgSize

/-- The arguments of `load_icode`, and the bytes at all addresses. -/
structure Image where
  byte : Nat → UInt8
  binary : Nat
  size : Nat

namespace Image

variable (img : Image)

/-- The `uint16_t` at an address. -/
def half (a : Nat) : Nat :=
  (img.byte a).toNat + 2 ^ 8 * (img.byte (add32 a 1)).toNat

/-- The `uint32_t` at an address. -/
def word (a : Nat) : Nat :=
  img.half a + 2 ^ 16 * img.half (add32 a 2)

/-! ## struct elfhdr -/

def eMagic : Nat := img.word img.binary

def ePhoff : Nat := img.word (add32 img.binary 28)

def ePhnum : Nat := img.half (add32 img.binary 44)

/-! ## struct proghdr -/

def pType (ph : Nat) : Nat := img.word ph

def pOffset (ph : Nat) : Nat := img.word (add32 ph 4)

def pVa (ph : Nat) : Nat := img.word (add32 ph 8)

def pFilesz (ph : Nat) : Nat := img.word (add32 ph 16)

def pMemsz (ph : Nat) : Nat := img.word (add32 ph 20)

def pFlags (ph : Nat) : Nat := img.word (add32 ph 24)

/-- `sizeof(struct proghdr)`. -/
def proghdrSize : Nat := 32

/-- The flags of the area of a segment: `ELF_PF_X`, `ELF_PF_W` and `ELF_PF_R` are the bits 1, 2
and 4. -/
def vmFlags (ph : Nat) : BitVec 32 :=
  (if (img.pFlags ph).testBit 0 then vmExec else 0) |||
    (if (img.pFlags ph).testBit 1 then vmWrite else 0) |||
    (if (img.pFlags ph).testBit 2 then vmRead else 0)

/-- The flags of the pages of a segment. -/
def perm (ph : Nat) : Perm :=
  ⟨true, has (img.vmFlags ph) vmWrite, false, false⟩

end Image

/-- Why `load_icode` does not return. -/
inductive LoadStop
  | panic (site : Panic)
  /-- the assertion of `load_icode` -/
  | assertion
  /-- a `memcpy` or `memset` that leaves the page it begins in -/
  | wild
  /-- a user page is mapped at `KERNBASE` or above, over a page of the kernel -/
  | kernelPage
  /-- a loop that does not end -/
  | endless
  deriving DecidableEq, Repr

/-- The computation of the size of a piece: `off` is where it begins in the page that ends at
`la`, and `stop` is where the data end. -/
structure SizeStep where
  off : Nat
  la : Nat
  stop : Nat
  deriving DecidableEq, Repr

/-- `size = PGSIZE - off`, and `size -= la - end` if the data end below `la`. -/
def SizeStep.size (s : SizeStep) : Nat :=
  if s.stop < s.la then sub32 (sub32 pgSize s.off) (s.la - s.stop) else sub32 pgSize s.off

/-- The computation does not wrap below zero. -/
def SizeStep.NoWrap (s : SizeStep) : Prop :=
  s.off ≤ pgSize ∧ (s.stop < s.la → s.la - s.stop ≤ pgSize - s.off)

/-- `load_icode` at work: the memory, the addresses and lengths of the reads from the image, and
the sizes it has computed. -/
structure Load where
  memory : Memory
  reads : List (Nat × Nat)
  sizes : List SizeStep

/-- A function of the memory that stops with a panic. -/
def memoryCall {α : Type} : Except Panic α → Except LoadStop α
  | .ok value => .ok value
  | .error site => .error (.panic site)

/-- Where the bytes of a piece come from: `memcpy` takes them from the image, and `memset`
clears them. -/
inductive Source
  | file (src : Nat)
  | zero
  deriving DecidableEq, Repr

/-- The byte at a distance. -/
def Source.byte (img : Image) : Source → Nat → Nat
  | .file src, i => (img.byte (add32 src i)).toNat
  | .zero, _ => 0

/-- `from += size`. -/
def Source.advance (size : Nat) : Source → Source
  | .file src => .file (add32 src size)
  | .zero => .zero

namespace Load

/-- A read from the image. -/
def read (l : Load) (addr len : Nat) : Load :=
  { l with reads := (addr, len) :: l.reads }

/-- The reads of a `memcpy`. -/
def readSource (l : Load) (size : Nat) : Source → Load
  | .file src => l.read src size
  | .zero => l

def withMemory (l : Load) (m : Memory) : Load :=
  { l with memory := m }

/-- `pgdir_alloc_page`. -/
def allocAt (l : Load) (mm : MmPtr) (la : Nat) (perm : Perm) :
    Except LoadStop (Option Frame × Load) :=
  if kernBase ≤ la then .error .kernelPage
  else do
    let (page, pages) ← memoryCall (l.memory.pages.pgdirAllocPage mm la perm)
    return (page, l.withMemory { l.memory with pages := pages })

/-- `memcpy` or `memset` to a page, with a size that has just been computed. -/
def fill (l : Load) (img : Image) (page : Frame) (source : Source) (s : SizeStep) :
    Except LoadStop Load :=
  if s.off + s.size ≤ pgSize then
    let data := fun i =>
      if s.off ≤ i ∧ i < s.off + s.size then source.byte img (i - s.off)
      else l.memory.pages.data page i
    let pages := { l.memory.pages with data := Function.update l.memory.pages.data page data }
    .ok { (l.readSource s.size source).withMemory { l.memory with pages := pages } with
      sizes := s :: l.sizes }
  else .error .wild

/-- The loops of `load_icode` over the pages of a segment, up to `stop`; `none` when there is no
page. -/
def fillPages (img : Image) (mm : MmPtr) (perm : Perm) (stop : Nat) :
    Nat → Nat → Nat → Frame → Source → Load →
      Except LoadStop (Option (Nat × Nat × Frame) × Load)
  | 0, start, la, page, _, l =>
      if start < stop then .error .endless else .ok (some (start, la, page), l)
  | fuel + 1, start, la, page, source, l =>
      if start < stop then do
        let (found, l) ← l.allocAt mm la perm
        match found with
        | none => return (none, l)
        | some page =>
            let s : SizeStep := ⟨sub32 start la, add32 la pgSize, stop⟩
            let l ← l.fill img page source s
            fillPages img mm perm stop fuel (add32 start s.size) s.la page (source.advance s.size) l
      else .ok (some (start, la, page), l)

/-- The part of the last page of the file that belongs to the memory size. -/
def clearTail (img : Image) (stop start la : Nat) (page : Frame) (l : Load) :
    Except LoadStop (Nat × Load) :=
  if start < la then
    if start = stop then .ok (start, l)
    else do
      let s : SizeStep := ⟨sub32 (add32 start pgSize) la, la, stop⟩
      let l ← l.fill img page .zero s
      let start := add32 start s.size
      if (stop < la ∧ start = stop) ∨ (la ≤ stop ∧ start = la) then return (start, l)
      else .error .assertion
  else .ok (start, l)

/-- `mm->brk_start` is raised to the end of a segment. -/
def raiseBrk (l : Load) (mm : MmPtr) (last : Nat) : Load :=
  l.withMemory { l.memory with vm := l.memory.vm.modifyMm mm fun s =>
    if s.brkStart < last then { s with brkStart := last } else s }

/-- The copying of one segment, after its area has been mapped. -/
def copySegment (img : Image) (mm : MmPtr) (ph : Nat) (l : Load) :
    Except LoadStop (Int × Load) := do
  let src := add32 img.binary (img.pOffset ph)
  let start := img.pVa ph
  let stop := add32 (img.pVa ph) (img.pFilesz ph)
  let (copied, l) ← l.fillPages img mm (img.perm ph) stop (stop - start) start
    (roundDown start pgSize) 0 (.file src)
  match copied with
  | none => return (-eNoMem, l)
  | some (start, la, page) =>
      let stop := add32 (img.pVa ph) (img.pMemsz ph)
      let (start, l) ← l.clearTail img stop start la page
      let (cleared, l) ← l.fillPages img mm (img.perm ph) stop (stop - start) start la page .zero
      return (if cleared.isNone then -eNoMem else 0, l)

/-- One round of the loop over the program headers; 0 also when the header is skipped. -/
def loadSegment (img : Image) (mm : MmPtr) (ph : Nat) (l : Load) :
    Except LoadStop (Int × Load) :=
  let l := l.read ph 4
  if img.pType ph ≠ elfPtLoad then .ok (0, l)
  else
    let l := (l.read (add32 ph 16) 4).read (add32 ph 20) 4
    if img.pMemsz ph < img.pFilesz ph then .ok (-eInvalElf, l)
    else if img.pFilesz ph = 0 then .ok (0, l)
    else do
      let l := (l.read (add32 ph 24) 4).read (add32 ph 8) 4
      let (ret, _, vm) ←
        memoryCall (l.memory.vm.mmMap mm (img.pVa ph) (img.pMemsz ph) (img.vmFlags ph))
      let l := l.withMemory { l.memory with vm := vm }
      if ret ≠ 0 then return (ret, l)
      else
        ((l.raiseBrk mm (add32 (img.pVa ph) (img.pMemsz ph))).read (add32 ph 4) 4).copySegment
          img mm ph

/-- The loop over the program headers. -/
def loadSegments (img : Image) (mm : MmPtr) (phEnd : Nat) : Nat → Nat → Load →
    Except LoadStop (Int × Load)
  | 0, ph, l => if ph < phEnd then .error .endless else .ok (0, l)
  | fuel + 1, ph, l =>
      if ph < phEnd then do
        let (ret, l) ← l.loadSegment img mm ph
        if ret ≠ 0 then return (ret, l)
        else loadSegments img mm phEnd fuel (add32 ph Image.proghdrSize) l
      else .ok (0, l)

/-- From `bad_elf_cleanup_pgdir` on. -/
def cleanupPgdir (mm : MmPtr) (l : Load) : Except LoadStop Load := do
  let pages ← memoryCall (l.memory.pages.putPgdir mm)
  let m ← memoryCall ({ l.memory with pages := pages }.mmDestroy mm)
  return l.withMemory m

/-- From `bad_cleanup_mmap` on. -/
def cleanupMmap (mm : MmPtr) (l : Load) : Except LoadStop Load := do
  let m ← memoryCall (l.memory.exitMmap mm)
  (l.withMemory m).cleanupPgdir mm

/-- `mm->brk_start = mm->brk = ROUNDUP(mm->brk_start, PGSIZE)`. -/
def setBrk (l : Load) (mm : MmPtr) : Load :=
  l.withMemory { l.memory with vm := l.memory.vm.modifyMm mm fun s =>
    { s with brkStart := roundUp s.brkStart pgSize, brk := roundUp s.brkStart pgSize } }

/-- `mm_count_inc`. -/
def countMm (l : Load) (mm : MmPtr) : Load :=
  l.withMemory { l.memory with vm := l.memory.vm.modifyMm mm fun s =>
    { s with mmCount := s.mmCount + 1 } }

/-- `load_icode` once there is a page directory. -/
def loadInto (img : Image) (mm : MmPtr) (l : Load) : Except LoadStop (Int × Load) := do
  let l := (l.read (add32 img.binary 28) 4).read img.binary 4
  if img.eMagic ≠ elfMagic then
    let l ← l.cleanupPgdir mm
    return (-eInvalElf, l)
  else
    let l := l.read (add32 img.binary 44) 2
    let ph := add32 img.binary img.ePhoff
    let phEnd := add32 ph (Image.proghdrSize * img.ePhnum)
    let (ret, l) ← l.loadSegments img mm phEnd img.ePhnum ph
    if ret ≠ 0 then
      let l ← l.cleanupMmap mm
      return (ret, l)
    else
      let l := l.setBrk mm
      let (ret, _, vm) ← memoryCall (l.memory.vm.mmMap mm (ustackTop - ustackSize) ustackSize
        (vmRead ||| vmWrite ||| vmStack))
      let l := l.withMemory { l.memory with vm := vm }
      if ret ≠ 0 then
        let l ← l.cleanupMmap mm
        return (ret, l)
      else return (0, (l.countMm mm).read (add32 img.binary 24) 4)

end Load

namespace Memory

/-- `load_icode`: what it returns, and the address space it has made. -/
def loadIcode (m : Memory) (img : Image) : Except LoadStop (Int × Option MmPtr × Load) :=
  match m.mmCreate with
  | (none, m) => .ok (-eNoMem, none, ⟨m, [], []⟩)
  | (some mm, m) => do
      let (ret, pages) := m.pages.setupPgdir mm
      let m := { m with pages := pages }
      if ret ≠ 0 then
        let m ← memoryCall (m.mmDestroy mm)
        return (-eNoMem, none, ⟨m, [], []⟩)
      else
        let (ret, l) ← (⟨m, [], []⟩ : Load).loadInto img mm
        return (ret, if ret = 0 then some mm else none, l)

end Memory

end EdfKernel.Mm
