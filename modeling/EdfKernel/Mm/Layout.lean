import EdfKernel.Kernel.State

/-!
# Address space layout

The constants and macros of `memlayout.h`, `mmu.h` and `types.h`, and the flags of
`vmm.h`.  Addresses and sizes are 32-bit words: numbers, whose sums wrap around.
-/

namespace EdfKernel.Mm

/-- Address of a `vma_struct`. -/
abbrev VmaPtr := Nat

/-- Address of a `shmem_struct`. -/
abbrev ShmemPtr := Nat

def pgSize : Nat := 4096

def ptSize : Nat := pgSize * 1024

def userBase : Nat := 0x00200000

def userTop : Nat := 0xB0000000

def kernBase : Nat := 0xC0000000

def kernTop : Nat := kernBase + 0x38000000

/-- The sum of two machine words. -/
def add32 (a b : Nat) : Nat := (a + b) % 2 ^ 32

/-- `ROUNDDOWN`. -/
def roundDown (a n : Nat) : Nat := a - a % n

/-- `ROUNDUP`. -/
def roundUp (a n : Nat) : Nat := roundDown (add32 a (n - 1)) n

/-- `USER_ACCESS`. -/
def userAccess (start stop : Nat) : Bool :=
  decide (userBase ≤ start ∧ start < stop ∧ stop ≤ userTop)

/-- `KERN_ACCESS`. -/
def kernAccess (start stop : Nat) : Bool :=
  decide (kernBase ≤ start ∧ start < stop ∧ stop ≤ kernTop)

/-- `PDX`. -/
def pdx (la : Nat) : Nat := la / ptSize % 1024

def vmRead : BitVec 32 := 0x00000001

def vmWrite : BitVec 32 := 0x00000002

def vmExec : BitVec 32 := 0x00000004

def vmStack : BitVec 32 := 0x00000008

def vmShare : BitVec 32 := 0x00000010

/-- `flags & bits`, read as a condition. -/
def has (flags bits : BitVec 32) : Bool := flags &&& bits != 0

theorem has_and_not (flags bits : BitVec 32) : has (flags &&& ~~~bits) bits = false := by
  rw [has, BitVec.and_assoc, BitVec.and_comm (~~~bits), BitVec.and_not_self]
  simp

theorem has_or (flags : BitVec 32) {bits : BitVec 32} (nonzero : bits ≠ 0) :
    has (flags ||| bits) bits = true := by
  have absorb : (flags ||| bits) &&& bits = bits := by
    ext i
    simpa using Or.inr
  rw [has, absorb]
  simpa using nonzero

def rbMinMapCount : Int := 32

def swapUnused : Nat := 0xFFFF

def maxSwapRef : Nat := 0xFFFE

def eSwapFault : Int := 7

/-- What the memory functions stop at: a panic, or an assertion that fails. -/
inductive Panic
  /-- the assertions of `insert_vma_struct` and `check_vma_overlap` -/
  | vmaOverlap
  /-- `assert(mm == vma->vm_mm)` -/
  | vmaOwner
  /-- the assertions of `vma_resize` -/
  | vmaResize
  /-- the assertions of the rotations -/
  | rbTree
  /-- `shmem_ref_dec` or a lock at address `NULL` -/
  | nullShmem
  /-- the assertions of the walks over a range -/
  | range
  /-- `invalid swap_entry_t` -/
  | swapEntry
  /-- the assertions on `mem_map` -/
  | swapCount
  /-- the assertions on `PG_swap` -/
  | swapPage
  /-- `active: wrong swap list` and `inactive: wrong swap list` -/
  | swapList
  /-- `assert(!PageReserved(page))` -/
  | reserved
  /-- a page is freed that is free or reserved -/
  | freePage
  /-- `assert(*ptep != 0 && *nptep == 0)` -/
  | pteTaken
  /-- `assert(mm_count(mm) == 0)` -/
  | mmCount
  /-- the assertions of `shmem_get_entry` and `check_shmn_overlap` -/
  | shmem
  /-- the assertion of `do_pgfault` on the entry it finds -/
  | pgfault
  /-- a page fault in a kernel thread -/
  | noMm
  /-- `assert(ret == 0)` and the assertions of `swap_out_mm` and `do_brk` -/
  | other
  deriving DecidableEq, Repr

end EdfKernel.Mm
