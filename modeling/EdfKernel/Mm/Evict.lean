import EdfKernel.Mm.Vmm

/-!
# Eviction

The functions of `swap.c` that `kswapd` is made of.  `swapfs_write` does not give up the
processor, so each of them is one step.
-/

namespace EdfKernel.Mm

namespace Pages

/-- `try_free_swap_entry`. -/
def tryFreeSwapEntry (p : Pages) (entry : SwapEntry) : Except Panic (Bool × Pages) := do
  let offset ← p.swapOffset entry
  return if p.memMap offset = 0 then (true, p.setMap offset swapUnused) else (false, p)

/-- `page_launder` at a dirty page that has references in its slot: whether the page can
be freed. -/
def launderDirty (p : Pages) (f : Frame) (entry : SwapEntry) : Except Panic (Bool × Pages) := do
  let p := p.modify f fun s => { s with dirty := false }
  let p ← p.swapDuplicate entry
  let (failed, p) ← p.swapfsWrite entry f
  let p := if failed then p.setPageDirty f else p
  let offset ← p.swapOffset entry
  let p := p.setMap offset (p.memMap offset - 1)
  if (p.page f).ref ≠ 0 then
    let p ← p.swapActiveListAdd f
    return (false, p)
  else if (p.page f).dirty then
    let p ← p.swapInactiveListAdd f
    return (false, p)
  else
    let (_, p) ← p.tryFreeSwapEntry entry
    return (true, p)

/-- `page_launder` at one page: the number of pages it frees. -/
def launderPage (p : Pages) (f : Frame) : Except Panic (Nat × Pages) :=
  if (p.page f).swap = true ∧ (p.page f).active = false then do
    let p ← p.swapListDel f
    if (p.page f).ref ≠ 0 then
      let p ← p.swapActiveListAdd f
      return (0, p)
    else
      let entry := (p.page f).index
      let (freed, p) ← p.tryFreeSwapEntry entry
      let (clean, p) ← (if freed = false ∧ (p.page f).dirty = true then p.launderDirty f entry
        else .ok (true, p))
      if clean then
        let p ← p.swapFreePage f
        return (1, p)
      else return (0, p)
  else .error .swapList

/-- The loop of `page_launder`. -/
def launderLoop : Nat → Option Frame → Nat → Pages → Except Panic (Nat × Pages)
  | 0, _, count, p => .ok (count, p)
  | _ + 1, none, count, p => .ok (count, p)
  | fuel + 1, some f, count, p => do
      let next := listNext (some f) p.inactiveList
      let (freed, p) ← p.launderPage f
      launderLoop fuel next (count + freed) p

/-- `page_launder`. -/
def pageLaunder (p : Pages) : Except Panic (Nat × Pages) :=
  launderLoop p.nrInactive.toNat p.inactiveList.head? 0 p

/-- `refill_inactive_scan` at one page. -/
def refillPage (p : Pages) (f : Frame) : Except Panic Pages :=
  if (p.page f).swap = true ∧ (p.page f).active = true then
    if (p.page f).ref = 0 then do
      let p ← p.swapListDel f
      p.swapInactiveListAdd f
    else .ok p
  else .error .swapList

/-- The loop of `refill_inactive_scan`. -/
def refillLoop : Nat → Option Frame → Pages → Except Panic Pages
  | 0, _, p => .ok p
  | _ + 1, none, p => .ok p
  | fuel + 1, some f, p => do
      let next := listNext (some f) p.activeList
      let p ← p.refillPage f
      refillLoop fuel next p

/-- `refill_inactive_scan`. -/
def refillInactiveScan (p : Pages) : Except Panic Pages :=
  refillLoop p.nrActive.toNat p.activeList.head? p

/-- `swap_out_vma` at a page that has been mapped once: the slot it goes to, 0 if there
is none. -/
def swapOutSlot (p : Pages) (f : Frame) (dirty : Bool) : Except Panic (SwapEntry × Pages) :=
  if (p.page f).swap = false then do
    let (added, p) ← p.swapPageAdd f 0
    if added = false then return (0, p)
    else
      let p ← p.swapActiveListAdd f
      return ((p.page f).index, p)
  else
    let p := if dirty then p.setPageDirty f else p
    .ok ((p.page f).index, p)

/-- `swap_out_vma` at the entry of a segment behind an entry that has been swapped out. -/
def swapOutShared (p : Pages) (f : Frame) (shmem : ShmemPtr) (len addr : Nat) (entry : SwapEntry) :
    Except Panic Pages :=
  if (p.page f).ref = 1 then do
    let (found, p) ← p.shmemGetEntry shmem len addr false
    if found = false ∨ p.pte (sharedSlot shmem addr) = .zero then .error .shmem
    else
      match p.pte (sharedSlot shmem addr) with
      | .present _ _ => do
          let (_, p) ← p.shmemInsertEntry shmem len addr (.swapped entry)
          return p
      | _ => return p
  else .ok p

end Pages

namespace Memory

/-- `swap_out_vma` at one entry: the number of entries that are swapped out. -/
def swapOutPte (m : Memory) (mm : MmPtr) (vma : VmaPtr) (la : Nat) : Except Panic (Nat × Memory) :=
  let s := m.vm.vma vma
  let p := m.pages
  match p.pte (userSlot mm la) with
  | .present f perm =>
      if (p.page f).reserved then .error .reserved
      else if perm.accessed then
        let p := p.writePte (userSlot mm la) (.present f { perm with accessed := false })
        .ok (0, { m with pages := p })
      else do
        let (entry, p) ← p.swapOutSlot f perm.dirty
        if entry = 0 then return (0, { m with pages := p })
        else
          let p ← p.swapDuplicate entry
          let p := (p.pageRefDec f).writePte (userSlot mm la) (.swapped entry)
          let vm := m.vm.modifyMm mm fun t => { t with swapAddress := add32 la pgSize }
          let p ← (if has s.vmFlags vmShare then
              match s.shmem with
              | none => .error .nullShmem
              | some shmem =>
                  p.swapOutShared f shmem (m.vm.shmem shmem).len
                    (add32 (la - s.vmStart) s.shmemOff) entry
            else .ok p)
          return (1, ⟨vm, p⟩)
  | _ => .ok (0, m)

/-- The loop of `swap_out_vma`. -/
def swapOutLoop (mm : MmPtr) (vma : VmaPtr) (stop : Nat) : Nat → Nat → Nat → Nat → Memory →
    Except Panic (Nat × Memory)
  | 0, _, _, count, m => .ok (count, m)
  | fuel + 1, la, require, count, m =>
      if la < stop ∧ require ≠ 0 then do
        let next := m.pages.walkNext mm la
        let (freed, m) ← (if (m.pages.table mm (pdx la)).isSome then m.swapOutPte mm vma la
          else .ok (0, m))
        swapOutLoop mm vma stop fuel next (require - freed) (count + freed) m
      else .ok (count, m)

/-- `swap_out_vma`. -/
def swapOutVma (m : Memory) (mm : MmPtr) (vma : VmaPtr) (addr require : Nat) :
    Except Panic (Nat × Memory) :=
  let s := m.vm.vma vma
  if require = 0 ∨ ¬(s.vmStart ≤ addr ∧ addr < s.vmEnd) then .ok (0, m)
  else
    let stop := roundUp s.vmEnd pgSize
    swapOutLoop mm vma stop ((stop - roundDown addr pgSize) / pgSize) (roundDown addr pgSize)
      require 0 m

/-- The loop of `swap_out_mm`. -/
def swapOutVmas (mm : MmPtr) : Nat → VmaPtr → Nat → Nat → Nat → Memory →
    Except Panic (Nat × Memory)
  | 0, _, _, _, count, m => .ok (count, m)
  | fuel + 1, vma, addr, require, count, m => do
      let (freed, m) ← m.swapOutVma mm vma addr require
      if require - freed = 0 then return (count + freed, m)
      else
        let list := (m.vm.mm mm).mmapList
        match (listNext (some vma) list).or list.head? with
        | none => return (count + freed, m)
        | some next =>
            swapOutVmas mm fuel next (m.vm.vma next).vmStart (require - freed) (count + freed) m

/-- `swap_out_mm`. -/
def swapOutMm (m : Memory) (mm : MmPtr) (require : Nat) : Except Panic (Nat × Memory) :=
  if require = 0 ∨ (m.vm.mm mm).mapCount = 0 then .ok (0, m)
  else
    match m.vm.findVma mm (m.vm.mm mm).swapAddress with
    | (some vma, vm) =>
        let addr := (vm.mm mm).swapAddress
        if addr ≤ (vm.vma vma).vmEnd then
          swapOutVmas mm ((vm.mm mm).mapCount.toNat + 1) vma (max addr (vm.vma vma).vmStart)
            require 0 { m with vm := vm }
        else .error .other
    | (none, vm) =>
        match (vm.mm mm).mmapList with
        | [] => .error .other
        | vma :: _ =>
            let vm := vm.modifyMm mm fun s => { s with swapAddress := 0 }
            swapOutVmas mm ((vm.mm mm).mapCount.toNat + 1) vma (vm.vma vma).vmStart require 0
              { m with vm := vm }

end Memory

end EdfKernel.Mm
