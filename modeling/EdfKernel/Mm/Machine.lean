import EdfKernel.Mm.Evict
import EdfKernel.Mm.Fault

/-!
# Steps of the memory

One step is one of the calls that the system calls, the traps and `kswapd` make, or one access
of a process in user mode, from beginning to end.  `do_mmap` and `load_icode` make the calls
`mm_map`, and `do_brk` makes the calls `mm_unmap` and `mm_brk`, with arguments of their own.
-/

namespace EdfKernel.Mm

/-- The difference of two machine words. -/
def sub32 (a b : Nat) : Nat := (a + 2 ^ 32 - b) % 2 ^ 32

def mmapWrite : BitVec 32 := 0x00000100

def mmapStack : BitVec 32 := 0x00000200

namespace Vm

/-- The loop of `get_unmapped_area`, over the areas from the last to the first. -/
def unmappedLoop (vm : Vm) (len : Nat) : List VmaPtr → Nat → Nat
  | [], start => if userBase ≤ start then start else 0
  | vma :: rest, start =>
      if (vm.vma vma).vmEnd ≤ start then start
      else if (vm.vma vma).vmStart < add32 start len then
        if (vm.vma vma).vmStart ≤ len then 0
        else unmappedLoop vm len rest ((vm.vma vma).vmStart - len)
      else unmappedLoop vm len rest start

/-- `get_unmapped_area`. -/
def getUnmappedArea (vm : Vm) (mm : MmPtr) (len : Nat) : Nat :=
  if len = 0 ∨ userTop < len then 0
  else vm.unmappedLoop len (vm.mm mm).mmapList.reverse (userTop - len)

end Vm

namespace Memory

/-- `mm_create` and `setup_pgdir`, as `load_icode` calls them, up to `mm_count_inc`. -/
def newMm (m : Memory) : Except Panic (Int × Memory) :=
  match m.mmCreate with
  | (none, m) => .ok (-eNoMem, m)
  | (some mm, m) => do
      let (ret, pages) := m.pages.setupPgdir mm
      let m := { m with pages := pages }
      if ret ≠ 0 then
        let m ← m.mmDestroy mm
        return (-eNoMem, m)
      else
        return (0, { m with vm := m.vm.modifyMm mm fun s => { s with mmCount := s.mmCount + 1 } })

/-- `copy_mm` without `CLONE_VM`. -/
def copyMm (m : Memory) (oldmm : MmPtr) : Except Panic (Int × Memory) :=
  match m.mmCreate with
  | (none, m) => .ok (-eNoMem, m)
  | (some mm, m) => do
      let (ret, pages) := m.pages.setupPgdir mm
      let m := { m with pages := pages }
      if ret ≠ 0 then
        let m ← m.mmDestroy mm
        return (-eNoMem, m)
      else
        let (ret, m) ← m.dupMmap mm oldmm
        if ret ≠ 0 then
          let m ← m.exitMmap mm
          let pages ← m.pages.putPgdir mm
          let m ← { m with pages := pages }.mmDestroy mm
          return (ret, m)
        else
          return (0, { m with vm := m.vm.modifyMm mm fun s =>
            { s with
              brkStart := (m.vm.mm oldmm).brkStart
              brk := (m.vm.mm oldmm).brk
              mmCount := s.mmCount + 1 } })

/-- `copy_mm` with `CLONE_VM`. -/
def shareMm (m : Memory) (mm : MmPtr) : Memory :=
  { m with vm := m.vm.modifyMm mm fun s => { s with mmCount := s.mmCount + 1 } }

/-- `do_execve` and `__do_exit` at the address space of the process. -/
def leaveMm (m : Memory) (mm : MmPtr) : Except Panic Memory := do
  let m := { m with vm := m.vm.modifyMm mm fun s => { s with mmCount := s.mmCount - 1 } }
  if (m.vm.mm mm).mmCount = 0 then
    let m ← m.exitMmap mm
    let pages ← m.pages.putPgdir mm
    { m with pages := pages }.mmDestroy mm
  else return m

/-- `do_shmem`, for the address `addr` that the process has stored. -/
def doShmem (m : Memory) (mm : MmPtr) (addr len : Nat) (mmapFlags : BitVec 32) :
    Except Panic (Int × Memory) :=
  if len = 0 then .ok (-eInval, m)
  else
    let start := roundDown addr pgSize
    let len := sub32 (roundUp (add32 addr len) pgSize) start
    let flags := vmRead ||| (if has mmapFlags mmapWrite then vmWrite else 0) |||
      (if has mmapFlags mmapStack then vmStack else 0)
    let addr := if start = 0 then m.vm.getUnmappedArea mm len else start
    if addr = 0 then .ok (-eNoMem, m)
    else
      match m.shmemCreate len with
      | (none, m) => .ok (-eNoMem, m)
      | (some shmem, m) => do
          let (ret, vm) ← m.vm.mmMapShmem mm addr flags shmem
          let m := { m with vm := vm }
          if ret ≠ 0 then
            let pages ← m.pages.shmemDestroy shmem
            return (ret, ⟨{ vm with shmemUsed := Function.update vm.shmemUsed shmem false }, pages⟩)
          else return (0, m)

/-! ## Accesses in user mode -/

/-- A process reads an address; at an entry that is not present there is a page fault
instead. -/
def userLoad (m : Memory) (mm : MmPtr) (addr : Nat) : Memory :=
  match m.pages.pte (userSlot mm addr) with
  | .present f perm =>
      { m with pages := m.pages.writePte (userSlot mm addr) (.present f { perm with accessed := true }) }
  | _ => m

/-- A process writes an address; at an entry that is not present, or not writable, there is a
page fault instead. -/
def userStore (m : Memory) (mm : MmPtr) (addr value : Nat) : Memory :=
  match m.pages.pte (userSlot mm addr) with
  | .present f perm =>
      if perm.write then
        { m with pages :=
          { m.pages.writePte (userSlot mm addr)
              (.present f { perm with accessed := true, dirty := true }) with
            data := Function.update m.pages.data f
              (Function.update (m.pages.data f) (addr % pgSize) value) } }
      else m
  | _ => m

end Memory

/-! ## Steps -/

/-- The calls and the accesses. -/
inductive Event
  | new
  | fork (mm : MmPtr)
  | share (mm : MmPtr)
  | leave (mm : MmPtr)
  | map (mm : MmPtr) (addr len : Nat) (flags : BitVec 32)
  | shmem (mm : MmPtr) (addr len : Nat) (flags : BitVec 32)
  /-- one more mapping of a segment -/
  | mapShmem (mm : MmPtr) (addr : Nat) (flags : BitVec 32) (shmem : ShmemPtr)
  | unmap (mm : MmPtr) (addr len : Nat)
  | brk (mm : MmPtr) (addr len : Nat)
  | pgfault (mm : MmPtr) (errorCode : BitVec 32) (addr : Nat)
  | load (mm : MmPtr) (addr : Nat)
  | store (mm : MmPtr) (addr value : Nat)
  | swapOut (mm : MmPtr) (require : Nat)
  | refill
  | launder
  deriving DecidableEq, Repr

/-- The address space that an event needs. -/
def Event.mm : Event → Option MmPtr
  | .new | .refill | .launder => none
  | .fork mm | .share mm | .leave mm | .map mm _ _ _ | .shmem mm _ _ _ | .mapShmem mm _ _ _
  | .unmap mm _ _ | .brk mm _ _ | .pgfault mm _ _ | .load mm _ | .store mm _ _
  | .swapOut mm _ => some mm

/-- The segment that an event needs. -/
def Event.segment : Event → Option ShmemPtr
  | .mapShmem _ _ _ s => some s
  | _ => none

/-- An event, with what `kmalloc`, `alloc_page` and the swap device answer during it. -/
structure Input where
  event : Event
  addresses : List (Option Nat)
  frames : List (Option Frame)
  io : List Bool
  deriving Repr

namespace Memory

/-- The memory when an event begins. -/
def supply (m : Memory) (i : Input) : Memory :=
  { vm := { m.vm with grants := i.addresses }
    pages := { m.pages with grants := i.frames, io := i.io } }

/-- An event whose address space and segment exist. -/
def perform (m : Memory) : Event → Except Panic Memory
  | .new => (·.2) <$> m.newMm
  | .fork mm => (·.2) <$> m.copyMm mm
  | .share mm => .ok (m.shareMm mm)
  | .leave mm => m.leaveMm mm
  | .map mm addr len flags => do
      let (_, _, vm) ← m.vm.mmMap mm addr len flags
      return { m with vm := vm }
  | .shmem mm addr len flags => (·.2) <$> m.doShmem mm addr len flags
  | .mapShmem mm addr flags shmem => do
      let (_, vm) ← m.vm.mmMapShmem mm addr flags shmem
      return { m with vm := vm }
  | .unmap mm addr len => (·.2) <$> m.mmUnmap mm addr len
  | .brk mm addr len => (·.2) <$> m.mmBrk mm addr len
  | .pgfault mm errorCode addr => (·.2) <$> m.doPgfault (some mm) errorCode addr
  | .load mm addr => .ok (m.userLoad mm addr)
  | .store mm addr value => .ok (m.userStore mm addr value)
  | .swapOut mm require => (·.2) <$> m.swapOutMm mm require
  | .refill => do
      let pages ← m.pages.refillInactiveScan
      return { m with pages := pages }
  | .launder => do
      let (_, pages) ← m.pages.pageLaunder
      return { m with pages := pages }

/-- One step; an event whose address space or segment does not exist cannot happen, and
changes nothing. -/
def step (m : Memory) (i : Input) : Except Panic Memory :=
  if (∀ mm ∈ i.event.mm, m.vm.mmUsed mm = true) ∧
      (∀ shmem ∈ i.event.segment, m.vm.shmemUsed shmem = true) then
    (m.supply i).perform i.event
  else .ok m

/-- The memory before there is an address space, an area, a segment or a swapped page. -/
structure Initial (m : Memory) : Prop where
  mm : ∀ mm, m.vm.mmUsed mm = false
  vma : ∀ v, m.vm.vmaUsed v = false
  shmem : ∀ s, m.vm.shmemUsed s = false
  free : ∀ f, m.pages.free f = true →
    ∃ index, m.pages.page f = ⟨0, false, false, false, false, index⟩
  npage : ∃ npage, ∀ f, m.pages.free f = true → f < npage
  swap : ∀ f, (m.pages.page f).swap = false
  memMap : ∀ e, m.pages.memMap e = swapUnused
  hashList : ∀ h, m.pages.hashList h = []
  lists : m.pages.activeList = [] ∧ m.pages.inactiveList = [] ∧ m.pages.nrActive = 0 ∧
    m.pages.nrInactive = 0
  next : m.pages.next = 1
  maxSwapOffset : 1024 ≤ m.pages.maxSwapOffset ∧ m.pages.maxSwapOffset < 2 ^ 24

end Memory

end EdfKernel.Mm
