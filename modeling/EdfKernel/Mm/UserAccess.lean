import EdfKernel.Mm.Fault
import EdfKernel.Mm.VmaSet

/-!
# The check of user memory and the page-fault handler

`user_mem_check` walks the areas of a range before the kernel accesses it; `do_pgfault` looks
at one address at a time.  Both read the flags of the areas, each in its own way.
-/

namespace EdfKernel.Mm

open Library Library.Intervals

namespace VmaStruct

/-- The permission tests of `do_pgfault` at an area. -/
def admits (s : VmaStruct) (errorCode : BitVec 32) (addr : Nat) : Bool :=
  decide (s.vmStart ≤ addr) && !s.guarded addr && s.permits errorCode

end VmaStruct

/-! ## The results of the fault handler -/

namespace Pages

variable {p p' : Pages} {mm : MmPtr} {la : Nat} {f : Frame} {perm : Perm} {slot : Slot}

/-- What `do_pgfault` returns after its permission tests. -/
def FaultResult (ret : Int) : Prop := ret = 0 ∨ ret = -eNoMem ∨ ret = -eSwapFault

theorem FaultResult.ne_inval {ret : Int} (result : FaultResult ret) : ret ≠ -eInval := by
  rcases result with rfl | rfl | rfl <;> decide

theorem pgfaultAlloc_result {result : Int × Pages}
    (done : p.pgfaultAlloc mm la perm = .ok result) : FaultResult result.1 := by
  obtain ⟨⟨page, q⟩, _, rest⟩ := bind_eq_ok_iff.mp done
  cases rest
  cases page with
  | none => exact .inr (.inl rfl)
  | some f => exact .inl rfl

theorem pgfaultShared_result {shmem : ShmemPtr} {len addr : Nat} {result : Int × Pages}
    (done : p.pgfaultShared mm la perm shmem len addr = .ok result) : FaultResult result.1 := by
  obtain ⟨⟨found, q⟩, _, rest⟩ := bind_eq_ok_iff.mp done
  simp only at rest
  split at rest
  · cases rest
    exact .inr (.inl rfl)
  · cases rest
    exact .inr (.inl rfl)
  · obtain ⟨_, _, rest⟩ := bind_eq_ok_iff.mp rest
    cases rest
    exact .inl rfl
  · obtain ⟨_, _, rest⟩ := bind_eq_ok_iff.mp rest
    cases rest
    exact .inl rfl

theorem swapInPage_result {entry : SwapEntry} {result : Int × Frame × Pages}
    (done : p.swapInPage entry = .ok result) : FaultResult result.1 := by
  obtain ⟨_, _, rest⟩ := bind_eq_ok_iff.mp done
  split at rest
  · cases rest
    exact .inl rfl
  · rcases answer : p.allocPage with ⟨newpage, q⟩
    rw [answer] at rest
    simp only at rest
    split at rest
    · obtain ⟨_, _, rest⟩ := bind_eq_ok_iff.mp rest
      cases rest
      exact .inl rfl
    · cases rest
      exact .inl rfl
    · cases rest
      exact .inr (.inl rfl)
    · obtain ⟨⟨failed, _⟩, _, rest⟩ := bind_eq_ok_iff.mp rest
      simp only at rest
      split at rest
      · obtain ⟨_, _, rest⟩ := bind_eq_ok_iff.mp rest
        cases rest
        exact .inr (.inr rfl)
      · obtain ⟨_, _, rest⟩ := bind_eq_ok_iff.mp rest
        obtain ⟨_, _, rest⟩ := bind_eq_ok_iff.mp rest
        cases rest
        exact .inl rfl

theorem pgfaultPage_result {result : Int × Frame × Pages}
    (done : p.pgfaultPage slot = .ok result) : FaultResult result.1 := by
  unfold pgfaultPage at done
  split at done
  · cases done
    exact .inr (.inl rfl)
  · exact swapInPage_result done

theorem pgfaultMap_result {mayCopy : Bool} {newpage : Option Frame} {ret : Int}
    {result : Int × Pages} (before : FaultResult ret)
    (done : p.pgfaultMap mm la perm f mayCopy newpage ret = .ok result) :
    FaultResult result.1 := by
  obtain ⟨count, _, rest⟩ := bind_eq_ok_iff.mp done
  split at rest
  · split at rest
    · cases rest
      exact before
    · obtain ⟨_, _, rest⟩ := bind_eq_ok_iff.mp rest
      cases rest
      exact .inl rfl
  · obtain ⟨_, _, rest⟩ := bind_eq_ok_iff.mp rest
    obtain ⟨_, _, rest⟩ := bind_eq_ok_iff.mp rest
    cases rest
    exact .inl rfl

theorem pgfaultEntry_result {cow write : Bool} {result : Int × Pages}
    (done : p.pgfaultEntry mm la perm cow write = .ok result) : FaultResult result.1 := by
  unfold pgfaultEntry at done
  simp only at done
  split at done
  · obtain ⟨⟨ret, f, q⟩, paged, rest⟩ := bind_eq_ok_iff.mp done
    have before := pgfaultPage_result paged
    simp only at rest before
    split at rest
    · obtain ⟨_, _, rest⟩ := bind_eq_ok_iff.mp rest
      cases rest
      exact before
    · exact pgfaultMap_result before rest
  · cases done

end Pages

namespace Memory

variable {m : Memory} {mm : MmPtr} {errorCode : BitVec 32} {addr : Nat}

theorem pgfaultResolve_result {la : Nat} {s : VmaStruct} {result : Int × Pages}
    (done : m.pgfaultResolve mm errorCode la s = .ok result) : Pages.FaultResult result.1 := by
  unfold pgfaultResolve at done
  simp only at done
  split at done
  · cases done
    exact .inr (.inl rfl)
  · split at done
    · split at done
      · split at done
        · cases done
        · exact Pages.pgfaultShared_result done
      · exact Pages.pgfaultAlloc_result done
    · exact Pages.pgfaultEntry_result done

/-- An access that the permission tests of `do_pgfault` reject. -/
def faultDenied (m : Memory) (mm : MmPtr) (errorCode : BitVec 32) (addr : Nat) : Prop :=
  ∃ m', m.doPgfault (some mm) errorCode addr = .ok (-eInval, m')

/-- `do_pgfault` rejects an access exactly when the area it finds does not admit it. -/
theorem faultDenied_iff : m.faultDenied mm errorCode addr ↔
    ∀ v ∈ (m.vm.findVma mm addr).1,
      ((m.vm.findVma mm addr).2.vma v).admits errorCode addr = false := by
  unfold faultDenied doPgfault
  rcases answer : m.vm.findVma mm addr with ⟨found, vm⟩
  simp only [answer]
  cases found with
  | none => simp
  | some v =>
      simp only [Option.mem_def, Option.some.injEq, forall_eq', VmaStruct.admits,
        Bool.and_eq_false_iff, decide_eq_false_iff_not, not_le, Bool.not_eq_false']
      by_cases starts : addr < (vm.vma v).vmStart
      · simp [starts]
      · rw [if_neg starts]
        cases guarded : (vm.vma v).guarded addr with
        | true => simp
        | false =>
            cases permits : (vm.vma v).permits errorCode with
            | false => simp
            | true =>
                simp only [starts, Bool.false_eq_true, if_false, or_self, if_true, iff_false,
                  Bool.true_eq_false]
                rintro ⟨m', denied⟩
                obtain ⟨result, resolved, rest⟩ := bind_eq_ok_iff.mp denied
                have allowed := (pgfaultResolve_result resolved).ne_inval
                simp only [pure, Except.pure, Except.ok.injEq, Prod.mk.injEq] at rest
                exact allowed rest.1

end Memory

/-! ## The walk of the check -/

namespace Vm

variable {vm vm' : Vm} {mm : MmPtr} {v : VmaPtr} {a start stop fuel : Nat} {write : Bool}

theorem SetsCache.refl (set : VmaSet vm mm) : vm.SetsCache mm vm :=
  ⟨(vm.mm mm).mmapCache, set.cache, by simp [modifyMm]⟩

theorem SetsCache.trans {vm'' : Vm} (first : vm.SetsCache mm vm') (second : vm'.SetsCache mm vm'') :
    vm.SetsCache mm vm'' := by
  obtain ⟨cache, _, rfl⟩ := first
  obtain ⟨cache', members, rfl⟩ := second
  refine ⟨cache', fun v cached => ?_, by simp [modifyMm]⟩
  have there := members v cached
  rwa [areas, modifyMm_mm_self] at there

theorem SetsCache.areas (sets : vm.SetsCache mm vm') : vm'.areas mm = vm.areas mm := by
  obtain ⟨cache, _, rfl⟩ := sets
  rw [Vm.areas, modifyMm_mm_self]
  rfl

theorem SetsCache.vma (sets : vm.SetsCache mm vm') : vm'.vma = vm.vma := by
  obtain ⟨cache, _, rfl⟩ := sets
  rfl

/-- An area covers an address and passes the tests of the check there. -/
structure Checked (vm : Vm) (mm : MmPtr) (write : Bool) (a : Nat) (v : VmaPtr) : Prop where
  mem : v ∈ vm.areas mm
  covers : vm.lo v ≤ a ∧ a < vm.hi v
  flag : has (vm.vma v).vmFlags (if write then vmWrite else vmRead) = true
  guard : write = true → (vm.vma v).guarded a = false

theorem Checked.congr (checked : vm'.Checked mm write a v) (sets : vm.SetsCache mm vm') :
    vm.Checked mm write a v := by
  obtain ⟨mem, covers, flag, guard⟩ := checked
  rw [sets.areas] at mem
  rw [sets.vma] at flag guard
  rw [lo, hi, sets.vma] at covers
  exact ⟨mem, covers, flag, guard⟩

/-- The addresses of an area from one on that passes the tests of the check pass them. -/
theorem Checked.upward {b : Nat} (checked : vm.Checked mm write a v) (le : a ≤ b)
    (inside : b < vm.hi v) : vm.Checked mm write b v := by
  refine ⟨checked.mem, ⟨checked.covers.1.trans le, inside⟩, checked.flag, fun written => ?_⟩
  have guard := checked.guard written
  simp only [VmaStruct.guarded, Bool.and_eq_false_iff, decide_eq_false_iff_not, not_lt] at guard ⊢
  exact guard.imp_right fun low => low.trans le

/-- The walk of `user_mem_check` passes only when every address of the range does. -/
theorem userMemCheckLoop_spec (set : VmaSet vm mm) :
    vm.SetsCache mm (userMemCheckLoop mm stop write fuel start vm).2 ∧
      ((userMemCheckLoop mm stop write fuel start vm).1 = some true →
        ∀ a, start ≤ a → a < stop → ∃ v, vm.Checked mm write a v) := by
  induction fuel generalizing start vm with
  | zero => exact ⟨.refl set, by rintro ⟨⟩⟩
  | succ fuel ih =>
      obtain ⟨found, sets⟩ := set.findVma start
      rw [userMemCheckLoop]
      by_cases more : start < stop
      · rw [if_pos more]
        rcases answer : vm.findVma mm start with ⟨first, vm'⟩
        rw [answer] at found sets
        simp only at found sets ⊢
        have set' := set.setsCache sets
        cases first with
        | none => exact ⟨sets, by rintro ⟨⟩⟩
        | some v =>
            obtain ⟨mem, ends, _⟩ := set.ordered.find_eq_some found.symm
            have range := set.range v mem
            simp only
            by_cases starts : start < (vm'.vma v).vmStart
            · rw [if_pos starts]
              exact ⟨sets, by rintro ⟨⟩⟩
            rw [if_neg starts]
            cases flag : has (vm'.vma v).vmFlags (if write then vmWrite else vmRead) with
            | false => exact ⟨sets, by rintro ⟨⟩⟩
            | true =>
                rw [if_neg Bool.noConfusion]
                by_cases guard : write = true ∧ has (vm'.vma v).vmFlags vmStack = true ∧
                    start < add32 (vm'.vma v).vmStart pgSize
                · rw [if_pos guard]
                  exact ⟨sets, by rintro ⟨⟩⟩
                rw [if_neg guard]
                have here : vm.Checked mm write start v := by
                  refine @Checked.congr _ vm' _ _ _ _ ?_ sets
                  rw [← sets.areas] at mem
                  refine ⟨mem, ?_, flag, fun written => ?_⟩
                  · rw [lo, hi, sets.vma]
                    rw [sets.vma] at starts
                    exact ⟨not_lt.mp starts, ends⟩
                  · simp only [written, true_and, not_and] at guard
                    cases stack : has (vm'.vma v).vmFlags vmStack with
                    | false => simp [VmaStruct.guarded, stack]
                    | true => simpa [VmaStruct.guarded, stack] using guard stack
                have next : (vm'.vma v).vmEnd = vm.hi v := by rw [sets.vma]; rfl
                rw [next]
                obtain ⟨sets', rest⟩ := @ih vm' (vm.hi v) set'
                refine ⟨sets.trans sets', fun passed a low high => ?_⟩
                by_cases inside : a < vm.hi v
                · exact ⟨v, here.upward low inside⟩
                · obtain ⟨w, checked⟩ := rest passed a (not_lt.mp inside) high
                  exact ⟨w, checked.congr sets⟩
      · rw [if_neg more]
        exact ⟨.refl set, fun _ a low high => by omega⟩

/-- `user_mem_check` passes only when every address of the range does. -/
theorem userMemCheck_spec (set : VmaSet vm mm) {addr len : Nat}
    (passed : (vm.userMemCheck (some mm) addr len write).1 = true) (low : addr ≤ a)
    (high : a < add32 addr len) : ∃ v, vm.Checked mm write a v := by
  unfold userMemCheck at passed
  simp only at passed
  split at passed
  · exact (userMemCheckLoop_spec set).2 (eq_of_beq passed) a low high
  · cases passed

/-- `user_mem_check` changes at most the cache. -/
theorem userMemCheck_setsCache (set : VmaSet vm mm) (addr len : Nat) (write : Bool) :
    vm.SetsCache mm (vm.userMemCheck (some mm) addr len write).2 := by
  unfold userMemCheck
  simp only
  split
  · exact (userMemCheckLoop_spec set).1
  · exact .refl set

end Vm

namespace Memory

variable {m m' : Memory} {mm : MmPtr} {errorCode : BitVec 32} {a addr len : Nat} {v : VmaPtr}
  {write : Bool}

/-- `do_pgfault` finds the area that covers the address. -/
theorem faultDenied_iff_of_covers (set : m.vm.VmaSet mm) (sets : m.vm.SetsCache mm m'.vm)
    (mem : v ∈ m.vm.areas mm) (covers : m.vm.lo v ≤ a ∧ a < m.vm.hi v) :
    m'.faultDenied mm errorCode a ↔
      (m.vm.vma v).guarded a = true ∨ (m.vm.vma v).permits errorCode = false := by
  have set' := set.setsCache sets
  have found : (m'.vm.findVma mm a).1 = some v := by
    rw [(set'.findVma a).1]
    apply set'.ordered.find_of_mem (sets.areas.symm ▸ mem)
    rw [Vm.lo, Vm.hi, sets.vma]
    exact covers
  have starts : (m.vm.vma v).vmStart ≤ a := covers.1
  rw [faultDenied_iff, found, (set'.findVma a).2.vma, sets.vma]
  simp [VmaStruct.admits, starts, or_iff_not_imp_left]

/-- After `user_mem_check` has passed, the kernel can read every address of the range, and
write it when the check was for writing. -/
def AccessSucceeds (m : Memory) (mm : MmPtr) (addr len : Nat) (write : Bool) : Prop :=
  ∀ m' : Memory, m.vm.SetsCache mm m'.vm → ∀ a, addr ≤ a → a < add32 addr len →
    (∀ errorCode, errorCode &&& 3 = 0 → ¬m'.faultDenied mm errorCode a) ∧
      (write = true → ∀ errorCode, errorCode &&& 2 ≠ 0 → ¬m'.faultDenied mm errorCode a)

/-- What `user_mem_check` leaves out: the guard page of a stack that is read, and an area that
is written and can be neither read nor executed. -/
def Uncaught (m : Memory) (mm : MmPtr) (addr len : Nat) (write : Bool) : Prop :=
  ∃ a, addr ≤ a ∧ a < add32 addr len ∧ ∃ v ∈ m.vm.areas mm, m.vm.covers v a = true ∧
    if write then has (m.vm.vma v).vmFlags (vmRead ||| vmExec) = false
    else (m.vm.vma v).guarded a = true

theorem permits_read {s : VmaStruct} (read : errorCode &&& 3 = 0) :
    s.permits errorCode = has s.vmFlags (vmRead ||| vmExec) := by
  unfold VmaStruct.permits
  rw [read]
  rfl

theorem permits_write {s : VmaStruct} (written : errorCode &&& 2 ≠ 0) :
    s.permits errorCode = has s.vmFlags vmWrite := by
  have both : errorCode &&& 2 = errorCode &&& 3 &&& 2 := by
    rw [BitVec.and_assoc]
    rfl
  have notRead : errorCode &&& 3 ≠ 0 ∧ errorCode &&& 3 ≠ 1 := by
    constructor
    · intro read
      exact written (by rw [both, read]; rfl)
    · intro read
      exact written (by rw [both, read]; rfl)
  rw [VmaStruct.permits, if_neg notRead.2, if_neg notRead.1]

theorem has_or {flags bits : BitVec 32} (other : BitVec 32) (set : has flags bits = true) :
    has flags (bits ||| other) = true := by
  have absorbs : flags &&& bits = flags &&& (bits ||| other) &&& bits := by
    ext i
    simp only [BitVec.getElem_and, BitVec.getElem_or]
    cases flags[i] <;> cases bits[i] <;> cases other[i] <;> rfl
  simp only [has, bne_iff_ne, ne_eq] at set ⊢
  intro none
  exact set (by rw [absorbs, none]; exact BitVec.zero_and)

/-- After `user_mem_check` has passed, the accesses succeed exactly when the range meets
nothing that the check leaves out. -/
theorem user_mem_check_agrees (set : m.vm.VmaSet mm)
    (passed : (m.vm.userMemCheck (some mm) addr len write).1 = true) :
    m.AccessSucceeds mm addr len write ↔ ¬m.Uncaught mm addr len write := by
  constructor
  · rintro succeeds ⟨a, low, high, v, mem, covers, uncaught⟩
    have inside := of_decide_eq_true covers
    obtain ⟨reads, writes⟩ := succeeds m (.refl set) a low high
    have denied := fun errorCode =>
      @faultDenied_iff_of_covers _ _ _ errorCode _ _ set (.refl set) mem inside
    cases write with
    | true =>
        refine reads 0 (by decide) ((denied 0).mpr (.inr ?_))
        rw [permits_read (by decide)]
        exact uncaught
    | false => exact reads 0 (by decide) ((denied 0).mpr (.inl uncaught))
  · intro caught m' sets a low high
    obtain ⟨v, checked⟩ := Vm.userMemCheck_spec set passed low high
    have denied := fun errorCode =>
      @faultDenied_iff_of_covers _ _ _ errorCode _ _ set sets checked.mem checked.covers
    have here : ¬if write then has (m.vm.vma v).vmFlags (vmRead ||| vmExec) = false
        else (m.vm.vma v).guarded a = true := fun uncaught =>
      caught ⟨a, low, high, v, checked.mem, decide_eq_true checked.covers, uncaught⟩
    have guard : (m.vm.vma v).guarded a = false := by
      cases write with
      | true => exact checked.guard rfl
      | false => simpa using here
    have readable : has (m.vm.vma v).vmFlags (vmRead ||| vmExec) = true := by
      cases write with
      | true => simpa using here
      | false => exact has_or vmExec checked.flag
    constructor
    · intro errorCode read stopped
      rw [denied, permits_read read, guard, readable] at stopped
      simp at stopped
    · rintro rfl errorCode written stopped
      rw [denied, permits_write written, guard] at stopped
      have writable : has (m.vm.vma v).vmFlags vmWrite = true := checked.flag
      simp [writable] at stopped

/-- The memory of a process that has no area but the stack that `load_icode` maps. -/
def stackOnly : Memory where
  vm :=
    { vma := fun _ => ⟨0, userTop - 256 * pgSize, userTop, vmRead ||| vmWrite ||| vmStack, none, 0⟩
      vmaUsed := fun v => v == 1
      mm := fun _ => ⟨[1], none, none, 1, 0, 1, 0, 0⟩
      mmUsed := fun mm => mm == 0
      shmem := fun _ => ⟨0, 0⟩
      shmemUsed := fun _ => false
      grants := [] }
  pages :=
    { page := fun _ => ⟨0, false, false, false, false, 0⟩
      free := fun _ => true
      data := fun _ _ => 0
      pgdir := fun _ => 0
      table := fun _ _ => none
      pte := fun _ => .zero
      shmnList := fun _ => []
      shmnCache := fun _ => none
      memMap := fun _ => swapUnused
      hashList := fun _ => []
      activeList := []
      inactiveList := []
      nrActive := 0
      nrInactive := 0
      next := 1
      maxSwapOffset := 1024
      disk := fun _ _ => 0
      grants := []
      io := [] }

theorem stackOnly_vmaSet : stackOnly.vm.VmaSet 0 := by
  constructor
  · exact ⟨by decide, by decide⟩
  · intro v mem
    cases List.mem_singleton.mp mem
    exact ⟨by decide, by decide, by decide, by decide, by decide⟩
  · intro v mem
    cases List.mem_singleton.mp mem
    exact ⟨rfl, rfl⟩
  · rfl
  · rintro _ ⟨⟩
  · rintro _ ⟨⟩

/-- The addresses of the stack above its guard page can be written. -/
theorem user_mem_check_agrees_stack :
    (stackOnly.vm.userMemCheck (some 0) (userTop - 4) 4 true).1 = true ∧
      stackOnly.AccessSucceeds 0 (userTop - 4) 4 true := by
  refine ⟨by decide, (user_mem_check_agrees stackOnly_vmaSet (by decide)).mpr ?_⟩
  rintro ⟨a, _, _, v, _, _, uncaught⟩
  have unreadable : has (vmRead ||| vmWrite ||| vmStack) (vmRead ||| vmExec) = false := uncaught
  exact absurd unreadable (by decide)

/-- A read of the guard page of the stack passes the check and then fails. -/
theorem user_mem_check_misses_guard :
    ¬∀ (m : Memory) (mm : MmPtr) (addr len : Nat) (write : Bool), m.vm.VmaSet mm →
      (m.vm.userMemCheck (some mm) addr len write).1 = true →
      m.AccessSucceeds mm addr len write := by
  intro agrees
  obtain ⟨reads, _⟩ := agrees stackOnly 0 (userTop - 256 * pgSize) 4 false stackOnly_vmaSet
    (by decide) stackOnly (.refl stackOnly_vmaSet) (userTop - 256 * pgSize) (by decide) (by decide)
  refine reads 0 (by decide) (faultDenied_iff.mpr ?_)
  decide

end Memory

end EdfKernel.Mm
