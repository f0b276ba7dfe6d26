import EdfKernel.Mm.RbTree
import EdfKernel.Mm.Shmem

/-!
# Virtual memory areas

The functions of `vmm.c` on the areas of an address space.  An area is linked into the list
`mmap_list`, into the tree `mmap_tree` once there are 32 of them, and may be the cached one;
the links are those of the list and the tree, the fields of the area are its own.
`kmalloc` returns the addresses of the list `grants`.
-/

namespace EdfKernel.Mm

/-- `struct vma_struct`. -/
structure VmaStruct where
  vmMm : MmPtr
  vmStart : Nat
  vmEnd : Nat
  vmFlags : BitVec 32
  shmem : Option ShmemPtr
  shmemOff : Nat
  deriving DecidableEq, Repr

/-- `struct mm_struct`. -/
structure MmStruct where
  mmapList : List VmaPtr
  mmapTree : Option (RbTree VmaPtr)
  mmapCache : Option VmaPtr
  mapCount : Int
  swapAddress : Nat
  mmCount : Int
  brkStart : Nat
  brk : Nat
  deriving Repr

/-- `struct shmem_struct`. -/
structure ShmemStruct where
  len : Nat
  shmemRef : Int
  deriving DecidableEq, Repr

/-- The structures of the virtual memory manager. -/
structure Vm where
  vma : VmaPtr → VmaStruct
  vmaUsed : VmaPtr → Bool
  mm : MmPtr → MmStruct
  mmUsed : MmPtr → Bool
  shmem : ShmemPtr → ShmemStruct
  shmemUsed : ShmemPtr → Bool
  grants : List (Option Nat)

/-- The memory of the kernel. -/
structure Memory where
  vm : Vm
  pages : Pages

namespace Vm

def modifyVma (vm : Vm) (vma : VmaPtr) (change : VmaStruct → VmaStruct) : Vm :=
  { vm with vma := Function.update vm.vma vma (change (vm.vma vma)) }

def modifyMm (vm : Vm) (mm : MmPtr) (change : MmStruct → MmStruct) : Vm :=
  { vm with mm := Function.update vm.mm mm (change (vm.mm mm)) }

def modifyShmem (vm : Vm) (shmem : ShmemPtr) (change : ShmemStruct → ShmemStruct) : Vm :=
  { vm with shmem := Function.update vm.shmem shmem (change (vm.shmem shmem)) }

/-- `kmalloc`, for structures of which `used` tells the addresses in use. -/
def kmalloc (vm : Vm) (used : Nat → Bool) : Option Nat × Vm :=
  match vm.grants with
  | some address :: rest =>
      (if used address then none else some address, { vm with grants := rest })
  | none :: rest => (none, { vm with grants := rest })
  | [] => (none, vm)

/-- `vma_create`. -/
def vmaCreate (vm : Vm) (start stop : Nat) (flags : BitVec 32) : Option VmaPtr × Vm :=
  match vm.kmalloc vm.vmaUsed with
  | (none, vm) => (none, vm)
  | (some vma, vm) =>
      (some vma, { vm with
        vma := Function.update vm.vma vma
          { vm.vma vma with
            vmStart := start, vmEnd := stop, vmFlags := flags, shmem := none, shmemOff := 0 }
        vmaUsed := Function.update vm.vmaUsed vma true })

/-! ## Looking up -/

/-- `find_vma_rb`. -/
def findVmaRb (vm : Vm) (addr : Nat) : RbTree VmaPtr → Option VmaPtr → Option VmaPtr
  | .nil, found => found
  | .node _ left vma right, found =>
      if (vm.vma vma).vmEnd > addr then
        if (vm.vma vma).vmStart ≤ addr then some vma
        else findVmaRb vm addr left (some vma)
      else findVmaRb vm addr right found

/-- The area that `find_vma` looks up when the cached one does not cover the address. -/
def searchVma (vm : Vm) (mm : MmPtr) (addr : Nat) : Option VmaPtr :=
  match (vm.mm mm).mmapTree with
  | some tree => vm.findVmaRb addr tree none
  | none => (vm.mm mm).mmapList.find? fun vma => decide (addr < (vm.vma vma).vmEnd)

def covers (vm : Vm) (vma : VmaPtr) (addr : Nat) : Bool :=
  decide ((vm.vma vma).vmStart ≤ addr ∧ addr < (vm.vma vma).vmEnd)

/-- `find_vma`. -/
def findVma (vm : Vm) (mm : MmPtr) (addr : Nat) : Option VmaPtr × Vm :=
  let cached := (vm.mm mm).mmapCache.filter (vm.covers · addr)
  match cached.or (vm.searchVma mm addr) with
  | none => (none, vm)
  | some vma => (some vma, vm.modifyMm mm fun s => { s with mmapCache := some vma })

/-- `find_vma_intersection`. -/
def findVmaIntersection (vm : Vm) (mm : MmPtr) (start stop : Nat) : Option VmaPtr × Vm :=
  let (found, vm) := vm.findVma mm start
  (found.filter fun vma => decide (¬stop ≤ (vm.vma vma).vmStart), vm)

/-! ## The set of areas -/

/-- `vma_compare`. -/
def vmaCompare (vm : Vm) (vma1 vma2 : VmaPtr) : Ordering :=
  compare (vm.vma vma1).vmStart (vm.vma vma2).vmStart

/-- `check_vma_overlap`. -/
def checkVmaOverlap (vm : Vm) (prev next : VmaPtr) : Bool :=
  decide ((vm.vma prev).vmStart < (vm.vma prev).vmEnd ∧
    (vm.vma prev).vmEnd ≤ (vm.vma next).vmStart ∧ (vm.vma next).vmStart < (vm.vma next).vmEnd)

/-- The tree with the area, and the area that the list gets it after. -/
def insertPlace (vm : Vm) (mm : MmPtr) (vma : VmaPtr) :
    Except Panic (Option (RbTree VmaPtr) × Option VmaPtr) :=
  match (vm.mm mm).mmapTree with
  | some tree =>
      match tree.rbInsert vm.vmaCompare vma with
      | some tree => .ok (some tree, tree.rbNodePrev vma)
      | none => .error .rbTree
  | none =>
      .ok (none, ((vm.mm mm).mmapList.takeWhile fun prev =>
        decide ((vm.vma prev).vmStart ≤ (vm.vma vma).vmStart)).getLast?)

end Vm

/-- `list_next`, from the head of the list or from one of its nodes. -/
def listNext (prev : Option VmaPtr) (list : List VmaPtr) : Option VmaPtr :=
  match prev with
  | none => list.head?
  | some node => (list.dropWhile (· != node)).tail.head?

/-- `list_add_after`, after the head of the list or one of its nodes. -/
def listAddAfter (prev : Option VmaPtr) (vma : VmaPtr) (list : List VmaPtr) : List VmaPtr :=
  match prev with
  | none => vma :: list
  | some node => list.takeWhile (· != node) ++ node :: vma :: (list.dropWhile (· != node)).tail

namespace Vm

/-- The loop of `insert_vma_struct` that builds the tree. -/
def insertAll (vm : Vm) : List VmaPtr → RbTree VmaPtr → Except Panic (RbTree VmaPtr)
  | [], tree => .ok tree
  | vma :: rest, tree =>
      match tree.rbInsert vm.vmaCompare vma with
      | some tree => insertAll vm rest tree
      | none => .error .rbTree

/-- The end of `insert_vma_struct`: the tree is built when there are enough areas and
`rb_tree_create` succeeds. -/
def buildTree (vm : Vm) (mm : MmPtr) : Except Panic Vm :=
  if (vm.mm mm).mmapTree.isNone = true ∧ rbMinMapCount ≤ (vm.mm mm).mapCount then
    match vm.kmalloc fun _ => false with
    | (none, vm) => .ok vm
    | (some _, vm) => do
        let tree ← vm.insertAll (vm.mm mm).mmapList .nil
        return vm.modifyMm mm fun s => { s with mmapTree := some tree }
  else .ok vm

/-- `insert_vma_struct`. -/
def insertVmaStruct (vm : Vm) (mm : MmPtr) (vma : VmaPtr) : Except Panic Vm :=
  if (vm.vma vma).vmStart < (vm.vma vma).vmEnd then do
    let (tree, prev) ← vm.insertPlace mm vma
    let list := (vm.mm mm).mmapList
    if (∀ q ∈ prev, vm.checkVmaOverlap q vma = true) ∧
        (∀ q ∈ listNext prev list, vm.checkVmaOverlap vma q = true) then
      let vm := vm.modifyVma vma fun s => { s with vmMm := mm }
      let vm := vm.modifyMm mm fun s =>
        { s with
          mmapList := listAddAfter prev vma list
          mmapTree := tree
          mapCount := s.mapCount + 1 }
      vm.buildTree mm
    else .error .vmaOverlap
  else .error .vmaOverlap

/-- `remove_vma_struct`. -/
def removeVmaStruct (vm : Vm) (mm : MmPtr) (vma : VmaPtr) : Except Panic Vm :=
  if (vm.vma vma).vmMm = mm then do
    let tree ← (match (vm.mm mm).mmapTree with
      | none => .ok none
      | some tree =>
          match tree.rbDelete vma with
          | some tree => .ok (some tree)
          | none => .error .rbTree)
    return vm.modifyMm mm fun s =>
      { s with
        mmapTree := tree
        mmapList := s.mmapList.erase vma
        mmapCache := if s.mmapCache = some vma then none else s.mmapCache
        mapCount := s.mapCount - 1 }
  else .error .vmaOwner

/-- `vma_resize`. -/
def vmaResize (vm : Vm) (vma : VmaPtr) (start stop : Nat) : Except Panic Vm :=
  if start % pgSize = 0 ∧ stop % pgSize = 0 ∧ (vm.vma vma).vmStart ≤ start ∧ start < stop ∧
      stop ≤ (vm.vma vma).vmEnd then
    .ok (vm.modifyVma vma fun s =>
      { s with
        shmemOff := if has s.vmFlags vmShare then add32 s.shmemOff (start - s.vmStart)
          else s.shmemOff
        vmStart := start
        vmEnd := stop })
  else .error .vmaResize

/-! ## mm_map -/

/-- `mm_map`: the error code and, when that is 0, the new area. -/
def mmMap (vm : Vm) (mm : MmPtr) (addr len : Nat) (flags : BitVec 32) :
    Except Panic (Int × VmaPtr × Vm) :=
  let start := roundDown addr pgSize
  let stop := roundUp (add32 addr len) pgSize
  if userAccess start stop then
    let (found, vm) := vm.findVma mm start
    if ∃ vma ∈ found, stop > (vm.vma vma).vmStart then .ok (-eInval, 0, vm)
    else
      match vm.vmaCreate start stop (flags &&& ~~~vmShare) with
      | (none, vm) => .ok (-eNoMem, 0, vm)
      | (some vma, vm) => do
          let vm ← vm.insertVmaStruct mm vma
          return (0, vma, vm)
  else .ok (-eInval, 0, vm)

/-- `mm_map_shmem`. -/
def mmMapShmem (vm : Vm) (mm : MmPtr) (addr : Nat) (flags : BitVec 32) (shmem : ShmemPtr) :
    Except Panic (Int × Vm) :=
  if addr % pgSize ≠ 0 then .ok (-eInval, vm)
  else do
    let vm := vm.modifyShmem shmem fun s => { s with shmemRef := s.shmemRef + 1 }
    let (ret, vma, vm) ← vm.mmMap mm addr (vm.shmem shmem).len flags
    if ret ≠ 0 then
      return (ret, vm.modifyShmem shmem fun s => { s with shmemRef := s.shmemRef - 1 })
    else
      return (0, vm.modifyVma vma fun s =>
        { s with shmem := some shmem, shmemOff := 0, vmFlags := s.vmFlags ||| vmShare })

/-! ## user_mem_check -/

/-- The loop of `user_mem_check`, without a result where its rounds are used up. -/
def userMemCheckLoop (mm : MmPtr) (stop : Nat) (write : Bool) :
    Nat → Nat → Vm → Option Bool × Vm
  | 0, _, vm => (none, vm)
  | fuel + 1, start, vm =>
      if start < stop then
        match vm.findVma mm start with
        | (none, vm) => (some false, vm)
        | (some vma, vm) =>
            let s := vm.vma vma
            if start < s.vmStart then (some false, vm)
            else if has s.vmFlags (if write then vmWrite else vmRead) = false then (some false, vm)
            else if write = true ∧ has s.vmFlags vmStack = true ∧ start < add32 s.vmStart pgSize then
              (some false, vm)
            else userMemCheckLoop mm stop write fuel s.vmEnd vm
      else (some true, vm)

/-- `user_mem_check`. -/
def userMemCheck (vm : Vm) (mm : Option MmPtr) (addr len : Nat) (write : Bool) : Bool × Vm :=
  match mm with
  | some mm =>
      if userAccess addr (add32 addr len) then
        let (passed, vm) :=
          userMemCheckLoop mm (add32 addr len) write (add32 addr len - addr + 1) addr vm
        (passed == some true, vm)
      else (false, vm)
  | none => (kernAccess addr (add32 addr len), vm)

end Vm

namespace Memory

/-! ## mm_unmap -/

/-- `vma_destroy`. -/
def vmaDestroy (m : Memory) (vma : VmaPtr) : Except Panic Memory := do
  let m ← (if has (m.vm.vma vma).vmFlags vmShare then
    match (m.vm.vma vma).shmem with
    | none => .error .nullShmem
    | some shmem =>
        let vm := m.vm.modifyShmem shmem fun s => { s with shmemRef := s.shmemRef - 1 }
        if (vm.shmem shmem).shmemRef = 0 then do
          let pages ← m.pages.shmemDestroy shmem
          return ⟨{ vm with shmemUsed := Function.update vm.shmemUsed shmem false }, pages⟩
        else .ok { m with vm := vm }
  else .ok m)
  return { m with vm := { m.vm with vmaUsed := Function.update m.vm.vmaUsed vma false } }

end Memory

namespace Vm

/-- The first loop of `mm_unmap`: the areas that start before `stop` are taken out, and the
list of them is in reverse. -/
def takeOut (mm : MmPtr) (stop : Nat) : Nat → VmaPtr → List VmaPtr → Vm →
    Except Panic (List VmaPtr × Vm)
  | 0, _, freeList, vm => .ok (freeList, vm)
  | fuel + 1, vma, freeList, vm =>
      if (vm.vma vma).vmStart < stop then do
        let next := listNext (some vma) (vm.mm mm).mmapList
        let vm ← vm.removeVmaStruct mm vma
        match next with
        | none => return (vma :: freeList, vm)
        | some next => takeOut mm stop fuel next (vma :: freeList) vm
      else .ok (freeList, vm)

end Vm

namespace Memory

/-- The second loop of `mm_unmap` at one area. -/
def unmapVma (m : Memory) (mm : MmPtr) (start stop : Nat) (vma : VmaPtr) :
    Except Panic Memory :=
  let vmStart := (m.vm.vma vma).vmStart
  let vmEnd := (m.vm.vma vma).vmEnd
  if vmStart < start then do
    let vm ← m.vm.vmaResize vma vmStart start
    let vm ← vm.insertVmaStruct mm vma
    let pages ← m.pages.unmapRange mm start vmEnd
    return ⟨vm, pages⟩
  else if stop < vmEnd then do
    let vm ← m.vm.vmaResize vma stop vmEnd
    let vm ← vm.insertVmaStruct mm vma
    let pages ← m.pages.unmapRange mm vmStart stop
    return ⟨vm, pages⟩
  else do
    let m ← m.vmaDestroy vma
    let pages ← m.pages.unmapRange mm vmStart vmEnd
    return { m with pages := pages }

/-- The second loop of `mm_unmap`. -/
def unmapVmas (mm : MmPtr) (start stop : Nat) : List VmaPtr → Memory → Except Panic Memory
  | [], m => .ok m
  | vma :: rest, m => do
      let m ← m.unmapVma mm start stop vma
      unmapVmas mm start stop rest m

/-- `mm_unmap` for a range strictly inside an area. -/
def unmapHole (m : Memory) (mm : MmPtr) (start stop : Nat) (vma : VmaPtr) :
    Except Panic (Int × Memory) :=
  match m.vm.vmaCreate (m.vm.vma vma).vmStart start (m.vm.vma vma).vmFlags with
  | (none, vm) => .ok (-eNoMem, { m with vm := vm })
  | (some nvma, vm) => do
      let vm ← vm.vmaResize vma stop (vm.vma vma).vmEnd
      let vm ← vm.insertVmaStruct mm nvma
      let pages ← m.pages.unmapRange mm start stop
      return (0, ⟨vm, pages⟩)

/-- `mm_unmap`. -/
def mmUnmap (m : Memory) (mm : MmPtr) (addr len : Nat) : Except Panic (Int × Memory) :=
  let start := roundDown addr pgSize
  let stop := roundUp (add32 addr len) pgSize
  if userAccess start stop then
    match m.vm.findVma mm start with
    | (none, vm) => .ok (0, { m with vm := vm })
    | (some vma, vm) =>
        let m := { m with vm := vm }
        if stop ≤ (vm.vma vma).vmStart then .ok (0, m)
        else if (vm.vma vma).vmStart < start ∧ stop < (vm.vma vma).vmEnd then
          m.unmapHole mm start stop vma
        else do
          let (freeList, vm) ← m.vm.takeOut mm stop (m.vm.mm mm).mmapList.length vma []
          let m ← unmapVmas mm start stop freeList { m with vm := vm }
          return (0, m)
  else .ok (-eInval, m)

/-! ## mm_brk -/

/-- `mm_brk`. -/
def mmBrk (m : Memory) (mm : MmPtr) (addr len : Nat) : Except Panic (Int × Memory) :=
  let start := roundDown addr pgSize
  let stop := roundUp (add32 addr len) pgSize
  if userAccess start stop then do
    let (ret, m) ← m.mmUnmap mm start (stop - start)
    if ret ≠ 0 then return (ret, m)
    else
      let flags := vmRead ||| vmWrite
      let (found, vm) := m.vm.findVma mm (start - 1)
      match found.filter fun vma =>
          decide ((vm.vma vma).vmEnd = start ∧ (vm.vma vma).vmFlags = flags) with
      | some vma =>
          return (0, { m with vm := vm.modifyVma vma fun s => { s with vmEnd := stop } })
      | none =>
          match vm.vmaCreate start stop flags with
          | (none, vm) => return (-eNoMem, { m with vm := vm })
          | (some vma, vm) =>
              let vm ← vm.insertVmaStruct mm vma
              return (0, { m with vm := vm })
  else .ok (-eInval, m)

/-! ## dup_mmap, exit_mmap and mm_destroy -/

/-- `dup_mmap` at one area. -/
def dupVma (m : Memory) (target source : MmPtr) (vma : VmaPtr) : Except Panic (Int × Memory) :=
  let s := m.vm.vma vma
  match m.vm.vmaCreate s.vmStart s.vmEnd s.vmFlags with
  | (none, vm) => .ok (-eNoMem, { m with vm := vm })
  | (some nvma, vm) => do
      let vm ← (if has s.vmFlags vmShare then
          match s.shmem with
          | none => .error .nullShmem
          | some shmem =>
              .ok ((vm.modifyVma nvma fun t => { t with shmem := s.shmem, shmemOff := s.shmemOff })
                |>.modifyShmem shmem fun t => { t with shmemRef := t.shmemRef + 1 })
        else .ok vm)
      let vm ← vm.insertVmaStruct target nvma
      let (ret, pages) ←
        m.pages.copyRange target source s.vmStart s.vmEnd (has s.vmFlags vmShare)
      return (if ret ≠ 0 then -eNoMem else 0, ⟨vm, pages⟩)

/-- The loop of `dup_mmap`. -/
def dupVmas (target source : MmPtr) : List VmaPtr → Memory → Except Panic (Int × Memory)
  | [], m => .ok (0, m)
  | vma :: rest, m => do
      let (ret, m) ← m.dupVma target source vma
      if ret ≠ 0 then return (ret, m) else dupVmas target source rest m

/-- `dup_mmap`. -/
def dupMmap (m : Memory) (target source : MmPtr) : Except Panic (Int × Memory) :=
  dupVmas target source (m.vm.mm source).mmapList.reverse m

/-- The first loop of `exit_mmap`. -/
def unmapAll (m : Memory) (mm : MmPtr) : List VmaPtr → Pages → Except Panic Pages
  | [], p => .ok p
  | vma :: rest, p => do
      let p ← p.unmapRange mm (m.vm.vma vma).vmStart (m.vm.vma vma).vmEnd
      unmapAll m mm rest p

/-- The second loop of `exit_mmap`. -/
def exitAll (m : Memory) (mm : MmPtr) : List VmaPtr → Pages → Except Panic Pages
  | [], p => .ok p
  | vma :: rest, p => do
      let p ← p.exitRange mm (m.vm.vma vma).vmStart (m.vm.vma vma).vmEnd
      exitAll m mm rest p

/-- `exit_mmap`. -/
def exitMmap (m : Memory) (mm : MmPtr) : Except Panic Memory :=
  if (m.vm.mm mm).mmCount = 0 then do
    let pages ← m.unmapAll mm (m.vm.mm mm).mmapList m.pages
    let pages ← m.exitAll mm (m.vm.mm mm).mmapList pages
    return { m with pages := pages }
  else .error .mmCount

/-- The loop of `mm_destroy`. -/
def destroyVmas : List VmaPtr → Memory → Except Panic Memory
  | [], m => .ok m
  | vma :: rest, m => do
      let m ← m.vmaDestroy vma
      destroyVmas rest m

/-- `mm_destroy`. -/
def mmDestroy (m : Memory) (mm : MmPtr) : Except Panic Memory :=
  if (m.vm.mm mm).mmCount = 0 then do
    let m ← destroyVmas (m.vm.mm mm).mmapList m
    return { m with vm :=
      { m.vm.modifyMm mm (fun s => { s with mmapList := [], mmapTree := none, mmapCache := none }) with
        mmUsed := Function.update m.vm.mmUsed mm false } }
  else .error .mmCount

/-- `mm_create`. -/
def mmCreate (m : Memory) : Option MmPtr × Memory :=
  match m.vm.kmalloc m.vm.mmUsed with
  | (none, vm) => (none, { m with vm := vm })
  | (some mm, vm) =>
      (some mm, { m with vm := { vm with
        mm := Function.update vm.mm mm
          { mmapList := [], mmapTree := none, mmapCache := none, mapCount := 0, swapAddress := 0,
            mmCount := 0, brkStart := 0, brk := 0 }
        mmUsed := Function.update vm.mmUsed mm true } })

/-- `shmem_create`. -/
def shmemCreate (m : Memory) (len : Nat) : Option ShmemPtr × Memory :=
  match m.vm.kmalloc m.vm.shmemUsed with
  | (none, vm) => (none, { m with vm := vm })
  | (some shmem, vm) =>
      (some shmem,
        { vm := { vm with
            shmem := Function.update vm.shmem shmem ⟨len, 0⟩
            shmemUsed := Function.update vm.shmemUsed shmem true }
          pages := m.pages.shmemCreate shmem })

end Memory

end EdfKernel.Mm
