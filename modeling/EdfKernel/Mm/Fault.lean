import EdfKernel.Mm.Vmm

/-!
# Page faults

`do_pgfault`, taken as one step: no other process runs between its parts, and the lock of the
address space is free.
-/

namespace EdfKernel.Mm

/-- An entry read as a `swap_entry_t`. -/
def Pte.swapEntry : Pte → SwapEntry
  | .zero => 0
  | .present page _ => page * 2 ^ 4
  | .swapped entry => entry

/-- `PTE_P`. -/
def Pte.isPresent : Pte → Bool
  | .present _ _ => true
  | _ => false

/-- `PTE_W`, of a present entry. -/
def Pte.isWritable : Pte → Bool
  | .present _ perm => perm.write
  | _ => false

namespace VmaStruct

/-- The test of the guard page in `do_pgfault`. -/
def guarded (s : VmaStruct) (addr : Nat) : Bool :=
  has s.vmFlags vmStack && decide (addr < add32 s.vmStart pgSize)

/-- The `switch` over the error code in `do_pgfault`. -/
def permits (s : VmaStruct) (errorCode : BitVec 32) : Bool :=
  if errorCode &&& 3 = 1 then false
  else if errorCode &&& 3 = 0 then has s.vmFlags (vmRead ||| vmExec)
  else has s.vmFlags vmWrite

/-- `cow` in `do_pgfault`. -/
def cow (s : VmaStruct) : Bool :=
  s.vmFlags &&& (vmShare ||| vmWrite) == vmWrite

end VmaStruct

namespace Pages

/-- `do_pgfault` at an entry that is zero, in an area that is not shared. -/
def pgfaultAlloc (p : Pages) (mm : MmPtr) (la : Nat) (perm : Perm) : Except Panic (Int × Pages) := do
  let (page, p) ← p.pgdirAllocPage mm la perm
  return (if page.isNone then -eNoMem else 0, p)

/-- `do_pgfault` at an entry that is zero, in an area that shares a segment of `len` bytes. -/
def pgfaultShared (p : Pages) (mm : MmPtr) (la : Nat) (perm : Perm) (shmem : ShmemPtr)
    (len shmemAddr : Nat) : Except Panic (Int × Pages) := do
  let (found, p) ← p.shmemGetEntry shmem len shmemAddr true
  match found, p.pte (sharedSlot shmem shmemAddr) with
  | false, _ => return (-eNoMem, p)
  | true, .zero => return (-eNoMem, p)
  | true, .present f _ => do
      let (_, p) ← p.pageInsert mm f la perm
      return (0, p)
  | true, .swapped entry => do
      let p ← p.swapDuplicate (p.pte (userSlot mm la)).swapEntry
      return (0, p.writePte (userSlot mm la) (.swapped entry))

/-- The page that an entry which is not zero refers to. -/
def pgfaultPage (p : Pages) (slot : Slot) : Except Panic (Int × Frame × Pages) :=
  match p.pte slot with
  | .present f _ => .ok (-eNoMem, f, p)
  | entry => p.swapInPage entry.swapEntry

/-- `if (newpage != NULL) free_page(newpage)`. -/
def freeSpare (p : Pages) : Option Frame → Except Panic Pages
  | none => .ok p
  | some f => p.freePage f

/-- The end of `do_pgfault`: the page is mapped, or a copy of it when others hold it. -/
def pgfaultMap (p : Pages) (mm : MmPtr) (la : Nat) (perm : Perm) (f : Frame) (mayCopy : Bool)
    (newpage : Option Frame) (ret : Int) : Except Panic (Int × Pages) := do
  let count ← p.swapPageCount f
  if mayCopy = true ∧ (p.page f).ref + count > 1 then
    match newpage with
    | none => return (ret, p)
    | some new => do
        let p := { p with data := Function.update p.data new (p.data f) }
        let (_, p) ← p.pageInsert mm new la perm
        return (0, p)
  else
    let (_, p) ← p.pageInsert mm f la perm
    let p ← p.freeSpare newpage
    return (0, p)

/-- `do_pgfault` at an entry that is not zero. -/
def pgfaultEntry (p : Pages) (mm : MmPtr) (la : Nat) (perm : Perm) (cow write : Bool) :
    Except Panic (Int × Pages) :=
  let entry := p.pte (userSlot mm la)
  if entry.isPresent = false ∨ (write = true ∧ entry.isWritable = false ∧ cow = true) then do
    let (newpage, p) := if cow then p.allocPage else (none, p)
    let (ret, f, p) ← p.pgfaultPage (userSlot mm la)
    if entry.isPresent = false ∧ ret ≠ 0 then
      let p ← p.freeSpare newpage
      return (ret, p)
    else
      let readOnly := entry.isPresent = false ∧ write = false ∧ cow = true
      p.pgfaultMap mm la (if readOnly then { perm with write := false } else perm) f
        (cow && !decide readOnly) newpage ret
  else .error .pgfault

end Pages

namespace Memory

/-- `do_pgfault`, after the permission tests. -/
def pgfaultResolve (m : Memory) (mm : MmPtr) (errorCode : BitVec 32) (la : Nat) (s : VmaStruct) :
    Except Panic (Int × Pages) :=
  let perm : Perm := ⟨true, has s.vmFlags vmWrite, false, false⟩
  match m.pages.getPte mm la true with
  | (false, p) => .ok (-eNoMem, p)
  | (true, p) =>
      if p.pte (userSlot mm la) = .zero then
        if has s.vmFlags vmShare then
          match s.shmem with
          | none => .error .nullShmem
          | some shmem =>
              p.pgfaultShared mm la perm shmem (m.vm.shmem shmem).len
                (add32 (la - s.vmStart) s.shmemOff)
        else p.pgfaultAlloc mm la perm
      else p.pgfaultEntry mm la perm s.cow (errorCode &&& 2 != 0)

/-- `do_pgfault`. -/
def doPgfault (m : Memory) (mm : Option MmPtr) (errorCode : BitVec 32) (addr : Nat) :
    Except Panic (Int × Memory) :=
  match mm with
  | none => .error .noMm
  | some mm =>
      match m.vm.findVma mm addr with
      | (none, vm) => .ok (-eInval, { m with vm := vm })
      | (some vma, vm) =>
          let m := { m with vm := vm }
          let s := vm.vma vma
          if addr < s.vmStart then .ok (-eInval, m)
          else if s.guarded addr then .ok (-eInval, m)
          else if s.permits errorCode then do
            let (ret, pages) ← m.pgfaultResolve mm errorCode (roundDown addr pgSize) s
            return (ret, { m with pages := pages })
          else .ok (-eInval, m)

end Memory

end EdfKernel.Mm
