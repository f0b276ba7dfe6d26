import EdfKernel.User.MallocLoop

/-!
# Requests of every size

The break and the bytes that a request asks `sys_brk` for are added modulo the address space.
Where the sum wraps around, the system call moves the break down and unmaps what is above it,
and `morecore_brk_locked` takes the answer for a refusal.
-/

namespace EdfKernel.User

open Library Library.CyclicList

namespace Heap

variable (heap : Heap) (brkStart : Nat)

/-! ## `do_brk` in both directions -/

/-- `ROUNDUP(n, PGSIZE)`, which does not wrap around: a break is in the user part of the
address space. -/
def pageEnd (n : Nat) : Nat := (n + 0xfff) / pgSize * pgSize

/-- What `mm_unmap` of the addresses from `low` up to `high` leaves of a region. -/
def without (low high : Nat) (region : Region) : List Region :=
  [{ region with len := min region.len (low - region.start) },
    { region with
      start := max region.start high
      len := region.start + region.len - max region.start high }].filter fun part => 0 < part.len

/-- `do_brk` with a stored `newbrk`, in a process whose heap begins at `brkStart`. -/
def doBrk (newbrk : Nat) : Except Stop (Option Nat × Heap) := do
  if heap.brk < newbrk then
    heap.sysBrk newbrk
  else
    let (stored, heap) ← heap.answer
    match stored with
    | none => return (none, heap)
    | some brk =>
        if newbrk < brkStart ∧ brk = heap.brk then
          return (some brk, heap)
        else if brkStart ≤ newbrk ∧ brk = pageEnd newbrk ∧ brk ≤ heap.brk then
          return (some brk, { heap with regions := heap.regions.flatMap (without brk heap.brk) })
        else
          .error .unfaithful

/-- The part of `morecore_brk_locked` that moves the break. -/
def moveBrk (fuel nu : Nat) : Except Stop (Bool × Heap) := do
  let brk := heap.brk
  let (stored, heap) ← heap.doBrk brkStart ((brk + nu * headerSize) % word)
  match stored with
  | none => return (false, heap)
  | some newbrk =>
      if newbrk ≤ brk then
        return (false, heap)
      else
        let heap := heap.setHeader brk ((newbrk - brk) / headerSize) false
        let heap ← heap.freeLocked fuel brk
        return (true, { heap with brk := newbrk })

/-- The first call of `morecore_brk_locked` asks where the break is. -/
def knowBrk (move : Heap → Except Stop (Bool × Heap)) : Except Stop (Bool × Heap) := do
  if heap.brk = 0 then
    let (stored, heap) ← heap.sysBrkQuery
    match stored with
    | none => return (false, heap)
    | some brk =>
        if brk = 0 then
          return (false, heap)
        else
          move { heap with brk := brk }
  else
    move heap

/-- `morecore_brk_locked` or `morecore_shmem_locked`. -/
def morecore (type : Bool) (nu fuel : Nat) (heap : Heap) : Except Stop (Bool × Heap) :=
  if type then heap.morecoreShmemLocked fuel nu
  else heap.knowBrk fun heap => heap.moveBrk brkStart fuel nu

end Heap

open Heap

/-- `malloc_locked` for any `size`, in a process whose heap begins at `brkStart`. -/
def mallocAny (brkStart fuel : Nat) (heap : Heap) (size : Nat) (type : Bool) :
    Except Stop (Option Nat × Heap) :=
  mallocWith (morecore brkStart type (units size)) type (units size) fuel heap

namespace Program

variable (brkStart fuel : Nat) (program : Program)

def requestAny (size : Nat) (type : Bool) (answers : List (Option Nat)) : Except Stop Program :=
  program.receive size type (mallocAny brkStart fuel (program.heap.asking answers) size type)

/-- `malloc` and `shmem_malloc` for any size, and `free`. -/
def stepAny : Call → Except Stop Program
  | .malloc size answers => program.requestAny brkStart fuel size false answers
  | .shmemMalloc size answers => program.requestAny brkStart fuel size true answers
  | .free block => program.step fuel (.free block)

end Program

variable {heap heap' : Heap} {free used : Finset Nat} {type : Bool}
  {brkStart a b n nu fuel x : Nat}

namespace Heap

/-! ## Where no sum wraps -/

theorem moveBrk_of_lt (less : heap.brk < (heap.brk + nu * headerSize) % word) :
    heap.moveBrk brkStart fuel nu = heap.growBrk fuel nu := by
  have same : heap.doBrk brkStart ((heap.brk + nu * headerSize) % word) =
      heap.sysBrk ((heap.brk + nu * headerSize) % word) := by
    unfold doBrk
    exact if_pos less
  have congruent (next : Option Nat × Heap → Except Stop (Bool × Heap)) :
      heap.doBrk brkStart ((heap.brk + nu * headerSize) % word) >>= next =
        heap.sysBrk ((heap.brk + nu * headerSize) % word) >>= next := by rw [same]
  exact congruent _

theorem lt_of_growBrk {result : Bool × Heap} (grown : heap.growBrk fuel nu = .ok result) :
    heap.brk < (heap.brk + nu * headerSize) % word := by
  by_contra wraps
  have stops : heap.sysBrk ((heap.brk + nu * headerSize) % word) = .error .wraps := by
    unfold sysBrk
    exact if_pos (not_lt.mp wraps)
  unfold growBrk at grown
  simp only [stops] at grown
  cases grown

theorem knowBrk_ok {move move' : Heap → Except Stop (Bool × Heap)} {result : Bool × Heap}
    (known : heap.knowBrk move = .ok result)
    (more : ∀ heap, move heap = .ok result → move' heap = .ok result) :
    heap.knowBrk move' = .ok result := by
  unfold knowBrk at known ⊢
  by_cases unknown : heap.brk = 0
  · rw [if_pos unknown] at known ⊢
    cases called : heap.sysBrkQuery with
    | error stop => simp [called, bind, Except.bind] at known
    | ok answered =>
        obtain ⟨stored, heap₁⟩ := answered
        cases stored with
        | none => simpa only [called, bind, Except.bind] using known
        | some brk =>
            simp only [called, bind, Except.bind] at known ⊢
            split at known
            · rwa [if_pos ‹_›]
            · rw [if_neg ‹_›]
              exact more _ known
  · rw [if_neg unknown] at known ⊢
    exact more _ known

/-- Memory that is handed out where no sum wraps is handed out all the same. -/
theorem morecore_of_morecoreLocked {result : Bool × Heap}
    (grown : heap.morecoreLocked type fuel nu = .ok result) :
    heap.morecore brkStart type nu fuel = .ok result := by
  cases type with
  | false =>
      have grown : (heap.knowBrk fun heap => heap.growBrk fuel nu) = .ok result := grown
      change (heap.knowBrk fun heap => heap.moveBrk brkStart fuel nu) = .ok result
      refine knowBrk_ok grown fun heap moved => ?_
      exact (moveBrk_of_lt (lt_of_growBrk moved)).trans moved
  | true => exact grown

/-! ## More rounds change nothing -/

theorem moveBrk_mono {fuel' : Nat} {result : Bool × Heap}
    (moved : heap.moveBrk brkStart fuel nu = .ok result) (le : fuel ≤ fuel') :
    heap.moveBrk brkStart fuel' nu = .ok result := by
  unfold moveBrk at moved ⊢
  cases called : heap.doBrk brkStart ((heap.brk + nu * headerSize) % word) with
  | error stop => simp [called, bind, Except.bind] at moved
  | ok answered =>
      obtain ⟨stored, heap₁⟩ := answered
      cases stored with
      | none => simpa only [called, bind, Except.bind] using moved
      | some newbrk =>
          simp only [called, bind, Except.bind] at moved ⊢
          split at moved
          · rwa [if_pos ‹_›]
          · rw [if_neg ‹_›]
            split at moved
            · cases moved
            · rename_i freed
              simp only [freeLocked_mono freed le]
              exact moved

theorem morecore_mono {fuel' : Nat} {result : Bool × Heap}
    (grown : heap.morecore brkStart type nu fuel = .ok result) (le : fuel ≤ fuel') :
    heap.morecore brkStart type nu fuel' = .ok result := by
  cases type with
  | false =>
      have grown : (heap.knowBrk fun heap => heap.moveBrk brkStart fuel nu) = .ok result := grown
      change (heap.knowBrk fun heap => heap.moveBrk brkStart fuel' nu) = .ok result
      exact knowBrk_ok grown fun heap moved => moveBrk_mono moved le
  | true =>
      have grown : heap.morecoreLocked true fuel nu = .ok result := grown
      exact morecoreLocked_mono grown le

end Heap

/-- Where `malloc_locked` has an answer without a sum that wraps, it is the answer. -/
theorem mallocAny_of_mallocLocked {size : Nat} {result : Option Nat × Heap}
    (served : mallocLocked fuel heap size type = .ok result) :
    mallocAny brkStart fuel heap size type = .ok result := by
  rw [mallocLocked_eq_mallocWith] at served
  exact mallocWith_mono (fun _ _ _ _ le grown =>
    morecore_of_morecoreLocked (morecoreLocked_mono grown le)) served le_rfl

theorem mallocAny_steady (brkStart : Nat) (heap : Heap) (size : Nat) (type : Bool) :
    Steady fun fuel => mallocAny brkStart fuel heap size type :=
  fun _ _ _ le served => mallocWith_mono (fun _ _ _ _ le grown => morecore_mono grown le) served le

/-- A call in which no sum wraps around comes to what it comes to where sums may wrap. -/
theorem Program.stepAny_of_step {program program' : Program} {call : Call}
    (taken : program.step fuel call = .ok program') :
    program.stepAny brkStart fuel call = .ok program' := by
  have asked (size : Nat) (type : Bool) (answers : List (Option Nat))
      (taken : program.request fuel size type answers = .ok program') :
      program.requestAny brkStart fuel size type answers = .ok program' := by
    unfold request at taken
    cases called : mallocLocked fuel (program.heap.asking answers) size type with
    | error stop =>
        rw [called] at taken
        cases taken
    | ok result =>
        rw [called] at taken
        rw [requestAny, mallocAny_of_mallocLocked called]
        exact taken
  cases call with
  | malloc size answers => exact asked size false answers taken
  | shmemMalloc size answers => exact asked size true answers taken
  | free block => exact taken

end EdfKernel.User
