import EdfKernel.Library.CyclicList
import Mathlib.Data.Finset.Image

/-!
# The user heap

A program's heap is cut into blocks, each with a header of 64 bytes in front.  The free ones
are linked into a circle through their headers, with the empty block `base`, part of the
program itself, among them.  Memory of two types is kept on the one circle: what the break
of the process was moved over, and shared segments.
-/

namespace EdfKernel.User

open Library.CyclicList

/-- Why a call of the allocator does not come back, or is none that the kernel lets happen. -/
inductive Stop
  /-- The rounds of a loop are used up. -/
  | hangs
  /-- A header is read through a null pointer. -/
  | nullPointer
  /-- `sys_brk` is asked for less than the process has: the sum has wrapped around. -/
  | wraps
  /-- There is no answer of the kernel for a system call, or one too many. -/
  | unanswered
  /-- The kernel would hand out memory that is in use. -/
  | unfaithful
  deriving DecidableEq, Repr

/-- Memory that the kernel has handed out to the heap. -/
structure Region where
  start : Nat
  len : Nat
  type : Bool
  deriving DecidableEq, Repr

/-- The headers of the blocks by their addresses, the static variables of the allocator, what
the kernel has handed out to it, and what the kernel is going to answer to the system calls of
the request that is being served: nothing where a call fails.  Blocks of `type` `true` are
shared memory. -/
structure Heap where
  base : Nat
  ptr : Nat → Nat
  size : Nat → Nat
  type : Nat → Bool
  freep : Option Nat
  brk : Nat
  regions : List Region
  answers : List (Option Nat)

/-- `sizeof(header_t)`. -/
abbrev headerSize : Nat := 64

/-- The range of `size_t`. -/
abbrev word : Nat := 2 ^ 32

abbrev pgSize : Nat := 4096

namespace Heap

variable (heap : Heap)

def setPtr (a b : Nat) : Heap := { heap with ptr := Function.update heap.ptr a b }

def setSize (a n : Nat) : Heap := { heap with size := Function.update heap.size a n }

def setType (a : Nat) (type : Bool) : Heap :=
  { heap with type := Function.update heap.type a type }

/-- `p + n` for a pointer to a header. -/
def plus (p n : Nat) : Nat := p + n * headerSize

/-! ## The kernel -/

/-- The kernel may hand out pages in which neither `base` nor anything it has handed out is. -/
def Vacant (start len : Nat) : Prop :=
  0 < len ∧ start % pgSize = 0 ∧ len % pgSize = 0 ∧ start + len ≤ word ∧
    (start + len ≤ heap.base ∨ heap.base + headerSize ≤ start) ∧
    ∀ region ∈ heap.regions, start + len ≤ region.start ∨ region.start + region.len ≤ start

instance decidableVacant (start len : Nat) : Decidable (heap.Vacant start len) :=
  inferInstanceAs (Decidable (_ ∧ _ ∧ _ ∧ _ ∧ _ ∧ _))

/-- The answer of the kernel to the next system call. -/
def answer : Except Stop (Option Nat × Heap) :=
  match heap.answers with
  | [] => .error .unanswered
  | first :: rest => .ok (first, { heap with answers := rest })

/-- `sys_brk` with a stored zero tells where the break is.  The heap of a process begins after
the program, in which `base` is. -/
def sysBrkQuery : Except Stop (Option Nat × Heap) := do
  let (stored, heap) ← heap.answer
  match stored with
  | none => return (none, heap)
  | some brk =>
      if brk = 0 ∨ (brk % pgSize = 0 ∧ heap.base + headerSize ≤ brk) then
        return (some brk, heap)
      else
        .error .unfaithful

/-- `sys_brk` with a stored `newbrk` moves the break there, up to the end of the page, or
leaves it. -/
def sysBrk (newbrk : Nat) : Except Stop (Option Nat × Heap) := do
  if newbrk ≤ heap.brk then
    .error .wraps
  else
    let (stored, heap) ← heap.answer
    match stored with
    | none => return (none, heap)
    | some brk =>
        if brk ≤ heap.brk then
          return (some brk, heap)
        else if newbrk ≤ brk ∧ heap.Vacant heap.brk (brk - heap.brk) then
          return (some brk,
            { heap with regions := ⟨heap.brk, brk - heap.brk, false⟩ :: heap.regions })
        else
          .error .unfaithful

/-- `sys_shmem` maps a new shared segment where there is room for it. -/
def sysShmem (len : Nat) : Except Stop (Option Nat × Heap) := do
  let (stored, heap) ← heap.answer
  match stored with
  | none => return (none, heap)
  | some mem =>
      if heap.Vacant mem len then
        return (some mem, { heap with regions := ⟨mem, len, true⟩ :: heap.regions })
      else
        .error .unfaithful

/-! ## `free_locked` -/

/-- The loop that looks for the block `p` after which `bp` is linked in. -/
def findPlace (bp : Nat) : Nat → Nat → Except Stop Nat
  | 0, _ => .error .hangs
  | fuel + 1, p =>
      if p < bp ∧ bp < heap.ptr p then
        .ok p
      else if heap.ptr p ≤ p ∧ (p < bp ∨ bp < heap.ptr p) then
        .ok p
      else
        findPlace bp fuel (heap.ptr p)

/-- `bp` takes in the block after it, or is linked to it. -/
def joinNext (p bp : Nat) : Heap :=
  if heap.type bp = heap.type (heap.ptr p) ∧ plus bp (heap.size bp) = heap.ptr p then
    (heap.setSize bp (heap.size bp + heap.size (heap.ptr p))).setPtr bp (heap.ptr (heap.ptr p))
  else
    heap.setPtr bp (heap.ptr p)

/-- The block before `bp` takes it in, or is linked to it. -/
def joinPrev (p bp : Nat) : Heap :=
  if heap.type p = heap.type bp ∧ plus p (heap.size p) = bp then
    (heap.setSize p (heap.size p + heap.size bp)).setPtr p (heap.ptr bp)
  else
    heap.setPtr p bp

/-- `free_locked` of the block with the header at `bp`. -/
def freeLocked (fuel bp : Nat) : Except Stop Heap :=
  match heap.freep with
  | none => .error .nullPointer
  | some first =>
      match heap.findPlace bp fuel first with
      | .error stop => .error stop
      | .ok p => .ok { (heap.joinNext p bp).joinPrev p bp with freep := some p }

/-! ## `malloc_locked` -/

/-- The header of a region that the kernel has handed out. -/
def setHeader (p n : Nat) (type : Bool) : Heap := (heap.setSize p n).setType p type

/-- The part of `morecore_brk_locked` that moves the break. -/
def growBrk (fuel nu : Nat) : Except Stop (Bool × Heap) := do
  let brk := heap.brk
  let (stored, heap) ← heap.sysBrk ((brk + nu * headerSize) % word)
  match stored with
  | none => return (false, heap)
  | some newbrk =>
      if newbrk ≤ brk then
        return (false, heap)
      else
        let heap := heap.setHeader brk ((newbrk - brk) / headerSize) false
        let heap ← heap.freeLocked fuel brk
        return (true, { heap with brk := newbrk })

/-- `morecore_brk_locked`. -/
def morecoreBrkLocked (fuel nu : Nat) : Except Stop (Bool × Heap) := do
  if heap.brk = 0 then
    let (stored, heap) ← heap.sysBrkQuery
    match stored with
    | none => return (false, heap)
    | some brk =>
        if brk = 0 then
          return (false, heap)
        else
          growBrk { heap with brk := brk } fuel nu
  else
    heap.growBrk fuel nu

/-- The whole pages for `nu` headers. -/
def shmemSize (nu : Nat) : Nat := (nu * headerSize + 0xfff) % word / pgSize * pgSize

/-- `morecore_shmem_locked`. -/
def morecoreShmemLocked (fuel nu : Nat) : Except Stop (Bool × Heap) := do
  let size := shmemSize nu
  let (stored, heap) ← heap.sysShmem size
  match stored with
  | none => return (false, heap)
  | some mem =>
      if mem = 0 then
        return (false, heap)
      else
        let heap := heap.setHeader mem (size / headerSize) true
        let heap ← heap.freeLocked fuel mem
        return (true, heap)

def morecoreLocked (type : Bool) (fuel nu : Nat) : Except Stop (Bool × Heap) :=
  if type then heap.morecoreShmemLocked fuel nu else heap.morecoreBrkLocked fuel nu

/-- A block can serve a request for `nunits` headers. -/
def Fits (type : Bool) (nunits p : Nat) : Prop :=
  heap.type p = type ∧ nunits ≤ heap.size p

instance decidableFits (type : Bool) (nunits p : Nat) : Decidable (heap.Fits type nunits p) :=
  inferInstanceAs (Decidable (_ ∧ _))

/-- The front of the block `p`, found after `prevp`, is handed out. -/
def takeFront (type : Bool) (nunits prevp p : Nat) : Heap :=
  if heap.size p = nunits then
    { heap.setPtr prevp (heap.ptr p) with freep := some prevp }
  else
    let np := plus p nunits
    let heap := heap.setPtr prevp np
    let heap := heap.setPtr np (heap.ptr p)
    let heap := heap.setSize np (heap.size p - nunits)
    let heap := heap.setType np type
    { heap.setSize p nunits with freep := some prevp }

/-- The first call of `malloc_locked` puts `base` on a circle of its own. -/
def init : Heap :=
  { (heap.setPtr heap.base heap.base).setSize heap.base 0 with freep := some heap.base }

/-- The heap when a request begins to which the kernel gives these answers. -/
def asking (answers : List (Option Nat)) : Heap := { heap with answers := answers }

end Heap

open Heap

/-- The loop of `malloc_locked`, with the block it hands out. -/
def walk (type : Bool) (nunits : Nat) : Nat → Heap → Nat → Nat → Except Stop (Option Nat × Heap)
  | 0, _, _, _ => .error .hangs
  | fuel + 1, heap, prevp, p =>
      if heap.Fits type nunits p then
        .ok (some p, heap.takeFront type nunits prevp p)
      else if heap.freep = some p then
        match heap.morecoreLocked type fuel nunits with
        | .error stop => .error stop
        | .ok (false, heap) => .ok (none, heap)
        | .ok (true, heap) => walk type nunits fuel heap p (heap.ptr p)
      else
        walk type nunits fuel heap p (heap.ptr p)

/-- The headers that `size` bytes and their own header take. -/
def units (size : Nat) : Nat := (size + headerSize - 1) % word / headerSize + 1

/-- `malloc_locked`, with the header of the block it hands out. -/
def mallocLocked (fuel : Nat) (heap : Heap) (size : Nat) (type : Bool) :
    Except Stop (Option Nat × Heap) :=
  match heap.freep with
  | some prevp => walk type (units size) fuel heap prevp (heap.ptr prevp)
  | none => walk type (units size) fuel heap.init heap.base (heap.init.ptr heap.base)

/-! ## The program -/

/-- A block that the program holds, by its header, with the bytes and the type that it has
asked for. -/
structure Live where
  header : Nat
  bytes : Nat
  type : Bool
  deriving DecidableEq, Repr

/-- A heap and the program that uses it. -/
structure Program where
  heap : Heap
  live : List Live

/-- `malloc`, `shmem_malloc` and `free`, with the answers of the kernel to the system calls
that the request makes. -/
inductive Call
  | malloc (size : Nat) (answers : List (Option Nat))
  | shmemMalloc (size : Nat) (answers : List (Option Nat))
  | free (block : Live)
  deriving DecidableEq, Repr

namespace Program

/-- A program that has not used its heap yet: the static variables are zero. -/
structure Fresh (program : Program) : Prop where
  freep : program.heap.freep = none
  type : program.heap.type program.heap.base = false
  brk : program.heap.brk = 0
  regions : program.heap.regions = []
  live : program.live = []

variable (fuel : Nat) (program : Program)

/-- What the program holds after a request that has come to `result`. -/
def receive (size : Nat) (type : Bool) : Except Stop (Option Nat × Heap) → Except Stop Program
  | .error stop => .error stop
  | .ok (block, heap) =>
      if heap.answers = [] then
        match block with
        | none => .ok ⟨heap, program.live⟩
        | some header => .ok ⟨heap, ⟨header, size, type⟩ :: program.live⟩
      else
        .error .unanswered

def request (size : Nat) (type : Bool) (answers : List (Option Nat)) : Except Stop Program :=
  program.receive size type (mallocLocked fuel (program.heap.asking answers) size type)

def step : Call → Except Stop Program
  | .malloc size answers => program.request fuel size false answers
  | .shmemMalloc size answers => program.request fuel size true answers
  | .free block =>
      match program.heap.freeLocked fuel block.header with
      | .error stop => .error stop
      | .ok heap => .ok ⟨heap, program.live.erase block⟩

end Program

end EdfKernel.User
