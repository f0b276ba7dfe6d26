import EdfKernel.Mm.Machine
import EdfKernel.Mm.RbBalance
import EdfKernel.Mm.Unmap
import EdfKernel.Mm.VmaLookup

/-!
# Lengths of mappings

`mm_map`, `mm_unmap`, `do_mmap` and `do_munmap` add the length to the address in a machine word.
A length near the size of the address space can wrap around into the page of the address, and then
this page alone is mapped or unmapped.
-/

namespace EdfKernel.Mm

open Library Library.Intervals

namespace Memory

/-! ## The system calls -/

/-- `do_mmap`, where `addr` is what the process has stored at `addrStore`: the error code, and
what is stored there afterwards. -/
def doMmap (m : Memory) (mm : MmPtr) (addrStore addr len : Nat) (mmapFlags : BitVec 32) :
    Except Panic (Int × Nat × Memory) :=
  if addrStore = 0 ∨ len = 0 then .ok (-eInval, addr, m)
  else
    match m.vm.userMemCheck (some mm) addrStore 4 true with
    | (false, vm) => .ok (-eInval, addr, { m with vm := vm })
    | (true, vm) =>
        let start := roundDown addr pgSize
        let len := sub32 (roundUp (add32 addr len) pgSize) start
        let flags := vmRead ||| (if has mmapFlags mmapWrite then vmWrite else 0) |||
          (if has mmapFlags mmapStack then vmStack else 0)
        let chosen := if start = 0 then vm.getUnmappedArea mm len else start
        if chosen = 0 then .ok (-eNoMem, addr, { m with vm := vm })
        else do
          let (ret, _, vm) ← vm.mmMap mm chosen len flags
          return (ret, if ret = 0 then chosen else addr, { m with vm := vm })

/-- `do_munmap`. -/
def doMunmap (m : Memory) (mm : MmPtr) (addr len : Nat) : Except Panic (Int × Memory) :=
  if len = 0 then .ok (-eInval, m) else m.mmUnmap mm addr len

end Memory

namespace Vm

variable {vm vm' : Vm} {mm : MmPtr} {v : VmaPtr} {addr len start stop : Nat} {flags : BitVec 32}

/-! ## insert_vma_struct does not stop -/

/-- The tree of the areas, when there is one, is a red-black tree. -/
def BalancedTree (vm : Vm) (mm : MmPtr) : Prop :=
  ∀ t ∈ (vm.mm mm).mmapTree, ∃ n, RbTree.Balanced t false n

theorem insertAll_ok {l : List VmaPtr} {t : RbTree VmaPtr} {n : Nat}
    (balanced : RbTree.Balanced t false n) : ∃ t', vm.insertAll l t = .ok t' := by
  induction l generalizing t n with
  | nil => exact ⟨t, rfl⟩
  | cons v rest ih =>
      obtain ⟨t', m, inserted, balanced'⟩ :=
        @RbTree.rbInsert_balanced _ _ vm.vmaCompare v _ balanced
      rw [insertAll, inserted]
      exact ih balanced'

theorem buildTree_ok (vm : Vm) (mm : MmPtr) : ∃ vm', vm.buildTree mm = .ok vm' := by
  unfold buildTree
  split
  · split
    · exact ⟨_, rfl⟩
    · rename_i vm' _
      obtain ⟨t, built⟩ := @insertAll_ok vm' (vm'.mm mm).mmapList .nil 0 .nil
      rw [built]
      exact ⟨_, rfl⟩
  · exact ⟨_, rfl⟩

/-- An area that overlaps no other one is linked in. -/
theorem VmaSet.insertVmaStruct_ok (set : VmaSet vm mm) (balanced : vm.BalancedTree mm)
    (detached : vm.Detached mm v) : ∃ vm', vm.insertVmaStruct mm v = .ok vm' := by
  have noOverlap :=
    (set.insertVmaStruct detached.new detached.range.2.1 detached.apart).1
  cases result : vm.insertVmaStruct mm v with
  | ok vm' => exact ⟨vm', rfl⟩
  | error stop =>
      exfalso
      rw [result] at noOverlap
      unfold Vm.insertVmaStruct at result
      split at result
      · rcases bind_eq_error_iff.mp result with placing | ⟨⟨tree, prev⟩, _, rest⟩
        · unfold Vm.insertPlace at placing
          split at placing
          · rename_i t isTree
            obtain ⟨n, isBalanced⟩ := balanced t isTree
            obtain ⟨t', _, inserted, _⟩ :=
              @RbTree.rbInsert_balanced _ _ vm.vmaCompare v _ isBalanced
            rw [inserted] at placing
            cases placing
          · cases placing
        · simp only at rest
          split at rest
          · obtain ⟨vm', built⟩ := buildTree_ok _ mm
            rw [built] at rest
            cases rest
          · cases rest
            exact noOverlap rfl
      · cases result
        exact noOverlap rfl

/-! ## mm_map -/

theorem SetsCache.meets (sets : vm.SetsCache mm vm') : vm'.Meets = vm.Meets := by
  unfold Meets lo hi
  rw [sets.vma]

theorem SetsCache.apart (sets : vm.SetsCache mm vm')
    (apart : ∀ w ∈ vm.areas mm, ¬vm.Meets start stop w) :
    ∀ w ∈ vm'.areas mm, ¬vm'.Meets start stop w := by
  rw [sets.areas, sets.meets]
  exact apart

/-- The area that `mm_map` finds meets the range exactly when one of them does. -/
theorem VmaSet.findVma_meets {found : Option VmaPtr} (set : VmaSet vm mm) (stop : Nat)
    (answer : vm.findVma mm start = (found, vm')) :
    vm.SetsCache mm vm' ∧ ((∃ w ∈ found, stop > (vm'.vma w).vmStart) ↔
      ∃ w ∈ vm.areas mm, vm.Meets start stop w) := by
  obtain ⟨_, sets⟩ := set.findVma start
  rw [answer] at sets
  refine ⟨sets, ?_⟩
  rw [← set.findVmaIntersection_iff]
  unfold findVmaIntersection
  rw [answer]
  simp only
  cases found with
  | none => simp
  | some w => simp [Option.filter_some]

/-- Only the cached area has changed, and `kmalloc` has been called. -/
def OnlyCached (vm vm' : Vm) (mm : MmPtr) : Prop :=
  ∃ vm₁ grants, vm.SetsCache mm vm₁ ∧ vm' = { vm₁ with grants := grants }

/-- The new area of `mm_map`. -/
structure MapsNew (vm vm' : Vm) (mm : MmPtr) (start stop : Nat) (v : VmaPtr) : Prop where
  set : VmaSet vm' mm
  range : UserRange start stop
  free : ∀ w ∈ vm.areas mm, ¬vm.Meets start stop w
  new : v ∉ vm.areas mm
  mem : v ∈ vm'.areas mm
  lo : vm'.lo v = start
  hi : vm'.hi v = stop

/-- A range that no area meets gets one of its own. -/
theorem detached_of_create (set : VmaSet vm mm) (range : UserRange start stop)
    (free : ∀ w ∈ vm.areas mm, ¬vm.Meets start stop w)
    (created : vm.vmaCreate start stop flags = (some v, vm')) :
    VmaSet vm' mm ∧ v ∉ vm.areas mm ∧ vm'.Detached mm v := by
  have creates := vmaCreate_creates created
  obtain ⟨set', new, areas, vma⟩ := creates.vmaSet set
  refine ⟨set', new, ?_, ?_, ?_, ?_⟩
  · rw [areas]
    exact new
  · rw [creates.used, Function.update_self]
  · rw [creates.lo, creates.hi]
    exact range
  · intro w mem
    rw [areas] at mem
    have apart := free w mem
    unfold Meets at apart
    have sameLo : vm'.lo w = vm.lo w := by rw [Vm.lo, Vm.lo, vma w mem]
    have sameHi : vm'.hi w = vm.hi w := by rw [Vm.hi, Vm.hi, vma w mem]
    rw [creates.lo, creates.hi, sameLo, sameHi]
    omega

theorem mmMap_result {ret : Int} (set : VmaSet vm mm)
    (done : vm.mmMap mm addr len flags = .ok (ret, v, vm')) :
    (ret ≠ 0 ∧ vm.OnlyCached vm' mm) ∨
      (ret = 0 ∧ vm.MapsNew vm' mm (roundDown addr pgSize) (roundUp (add32 addr len) pgSize) v) := by
  unfold mmMap at done
  simp only at done
  split at done
  · rename_i access
    have range := Memory.userRange_of_userAccess access
    revert done range
    generalize roundDown addr pgSize = start
    generalize roundUp (add32 addr len) pgSize = stop
    intro done range
    rcases found : vm.findVma mm start with ⟨first, vm₁⟩
    obtain ⟨sets, meets⟩ := set.findVma_meets stop found
    rw [found] at done
    simp only at done
    split at done
    · cases done
      exact .inl ⟨by simp [eInval], vm', vm'.grants, sets, rfl⟩
    · rename_i notMeets
      rw [meets] at notMeets
      have free := sets.apart fun w mem here => notMeets ⟨w, mem, here⟩
      split at done
      · rename_i vm₂ created
        cases done
        obtain ⟨grants, rfl⟩ := vmaCreate_none created
        exact .inl ⟨by simp [eNoMem], vm₁, grants, sets, rfl⟩
      · rename_i w vm₂ created
        obtain ⟨vm₃, inserted, rest⟩ := bind_eq_ok_iff.mp done
        cases rest
        obtain ⟨set₂, new, detached⟩ := detached_of_create (set.setsCache sets) range free created
        obtain ⟨set₃, before, after, links⟩ := detached.insert set₂ inserted
        have creates := vmaCreate_creates created
        refine .inr ⟨rfl, set₃, range, fun w mem here => notMeets ⟨w, mem, here⟩, ?_, ?_, ?_, ?_⟩
        · rw [← sets.areas]
          exact new
        · rw [links.areas]
          exact List.mem_append_right _ List.mem_cons_self
        · rw [(links.bounds v).1]
          exact creates.lo
        · rw [(links.bounds v).2]
          exact creates.hi
  · cases done
    exact .inl ⟨by simp [eInval], vm, vm.grants, .refl set, rfl⟩

/-- With memory for the area, `mm_map` succeeds exactly in a free range of the user part. -/
theorem mmMap_ok (set : VmaSet vm mm) (balanced : vm.BalancedTree mm)
    (memory : (vm.kmalloc vm.vmaUsed).1 ≠ none) :
    ∃ ret v vm', vm.mmMap mm addr len flags = .ok (ret, v, vm') ∧
      (ret = 0 ↔ userAccess (roundDown addr pgSize) (roundUp (add32 addr len) pgSize) = true ∧
        ∀ w ∈ vm.areas mm,
          ¬vm.Meets (roundDown addr pgSize) (roundUp (add32 addr len) pgSize) w) := by
  unfold mmMap
  simp only
  split
  · rename_i access
    have range := Memory.userRange_of_userAccess access
    revert access range
    generalize roundDown addr pgSize = start
    generalize roundUp (add32 addr len) pgSize = stop
    intro access range
    rcases found : vm.findVma mm start with ⟨first, vm₁⟩
    obtain ⟨sets, meets⟩ := set.findVma_meets stop found
    simp only
    split
    · rename_i isMet
      obtain ⟨w, mem, here⟩ := meets.mp isMet
      refine ⟨_, _, _, rfl, iff_of_false (by simp [eInval]) fun free => free.2 w mem here⟩
    · rename_i notMeets
      rw [meets] at notMeets
      have free := sets.apart fun w mem here => notMeets ⟨w, mem, here⟩
      have memory₁ : (vm₁.vmaCreate start stop (flags &&& ~~~vmShare)).1 ≠ none := by
        rw [ne_eq, vmaCreate_eq_none_iff, sets.kmalloc]
        exact memory
      split
      · rename_i vm₂ created
        rw [created] at memory₁
        exact absurd rfl memory₁
      · rename_i w vm₂ created
        obtain ⟨set₂, _, detached⟩ := detached_of_create (set.setsCache sets) range free created
        have balanced₂ : vm₂.BalancedTree mm := by
          have creates := vmaCreate_creates created
          obtain ⟨cache, _, rfl⟩ := sets
          unfold BalancedTree
          rw [creates.mm, modifyMm_mm_self]
          exact balanced
        obtain ⟨vm₃, inserted⟩ := set₂.insertVmaStruct_ok balanced₂ detached
        rw [inserted]
        exact ⟨_, _, _, rfl, iff_of_true rfl ⟨access, fun w mem here => notMeets ⟨w, mem, here⟩⟩⟩
  · rename_i denied
    exact ⟨_, _, _, rfl, iff_of_false (by simp [eInval]) fun ok => denied ok.1⟩

/-! ## get_unmapped_area -/

theorem unmappedLoop_le {list : List VmaPtr} (areas : ∀ w ∈ list, vm.hi w ≤ userTop)
    (nonempty : ∀ w ∈ list, vm.lo w < vm.hi w) (low : start + len ≤ userTop)
    (found : vm.unmappedLoop len list start ≠ 0) :
    vm.unmappedLoop len list start + len ≤ userTop := by
  induction list generalizing start with
  | nil =>
      unfold unmappedLoop at found ⊢
      split
      · exact low
      · rename_i below
        rw [if_neg below] at found
        exact absurd rfl found
  | cons w rest ih =>
      have high := areas w List.mem_cons_self
      have inside := nonempty w List.mem_cons_self
      have areas' := fun x mem => areas x (List.mem_cons_of_mem w mem)
      have nonempty' := fun x mem => nonempty x (List.mem_cons_of_mem w mem)
      unfold unmappedLoop at found ⊢
      split
      · exact low
      · rename_i notAbove
        rw [if_neg notAbove] at found
        split
        · rename_i overlaps
          rw [if_pos overlaps] at found
          split
          · rename_i tooLong
            rw [if_pos tooLong] at found
            exact absurd rfl found
          · rename_i fits
            rw [if_neg fits] at found
            refine ih areas' nonempty' ?_ found
            change vm.lo w - len + len ≤ userTop
            change ¬vm.lo w ≤ len at fits
            omega
        · rename_i apart
          rw [if_neg apart] at found
          exact ih areas' nonempty' low found

/-- A range that `get_unmapped_area` returns is below the top of the user part. -/
theorem VmaSet.getUnmappedArea_le (set : VmaSet vm mm) (found : vm.getUnmappedArea mm len ≠ 0) :
    len ≠ 0 ∧ vm.getUnmappedArea mm len + len ≤ userTop := by
  unfold getUnmappedArea at found ⊢
  split at found
  · exact absurd rfl found
  · rename_i fits
    rw [if_neg fits]
    rw [not_or, not_lt] at fits
    refine ⟨fits.1, unmappedLoop_le ?_ ?_ (by omega) found⟩
    · intro w mem
      exact (set.range w (List.mem_reverse.mp mem)).2.2.1
    · intro w mem
      exact set.ordered.nonempty w (List.mem_reverse.mp mem)

end Vm

/-! ## Rounding -/

/-- The end of a range of bytes, rounded up to a page as a number. -/
def pageEnd (addr len : Nat) : Nat := (addr + len + (pgSize - 1)) / pgSize * pgSize

/-- The length wraps around into the page of the address, and the rounded range passes for a
range of the user part, or for the length of a range that the kernel places. -/
def Wraps (addr len : Nat) : Prop :=
  2 ^ 32 ≤ addr + len ∧
    (userAccess (roundDown addr pgSize) (roundUp (add32 addr len) pgSize) = true ∨
      roundDown addr pgSize = 0 ∧ roundUp (add32 addr len) pgSize ≠ 0)

section Rounding

variable {addr len : Nat}

theorem roundDown_le (a n : Nat) : roundDown a n ≤ a :=
  Nat.sub_le ..

/-- Without a wrap around, the range is rounded as a range of numbers. -/
theorem roundUp_eq (small : addr + len + (pgSize - 1) < 2 ^ 32) :
    roundUp (add32 addr len) pgSize = pageEnd addr len := by
  unfold roundUp roundDown add32 pageEnd pgSize at *
  omega

theorem roundUp_eq_zero (fits : addr + len < 2 ^ 32)
    (big : 2 ^ 32 ≤ addr + len + (pgSize - 1)) : roundUp (add32 addr len) pgSize = 0 := by
  unfold roundUp roundDown add32 pgSize at *
  omega

theorem le_pageEnd (addr len : Nat) : addr + len ≤ pageEnd addr len := by
  unfold pageEnd pgSize
  omega

/-- A range of the user part that has not wrapped around. -/
theorem userAccess_iff (fits : addr + len < 2 ^ 32) (positive : 0 < len) :
    userAccess (roundDown addr pgSize) (roundUp (add32 addr len) pgSize) = true ↔
      userBase ≤ roundDown addr pgSize ∧ pageEnd addr len ≤ userTop := by
  have below := roundDown_le addr pgSize
  have above := le_pageEnd addr len
  unfold userAccess
  rw [decide_eq_true_eq]
  by_cases small : addr + len + (pgSize - 1) < 2 ^ 32
  · rw [roundUp_eq small]
    omega
  · rw [roundUp_eq_zero fits (not_lt.mp small)]
    have tops : userTop < 2 ^ 32 := by decide
    have isBig : 2 ^ 32 ≤ pageEnd addr len := by
      unfold pageEnd pgSize at *
      omega
    omega

/-- A range whose end has not wrapped around covers the bytes it is rounded from. -/
theorem covers_of_not_wraps (honest : ¬Wraps addr len)
    (access : userAccess (roundDown addr pgSize) (roundUp (add32 addr len) pgSize) = true) :
    addr + len ≤ roundUp (add32 addr len) pgSize := by
  have fits : addr + len < 2 ^ 32 := not_le.mp fun wrapped => honest ⟨wrapped, .inl access⟩
  by_cases small : addr + len + (pgSize - 1) < 2 ^ 32
  · rw [roundUp_eq small]
    exact le_pageEnd addr len
  · rw [roundUp_eq_zero fits (not_lt.mp small)] at access
    have less := (of_decide_eq_true access).2.1
    omega

/-- The range that `do_mmap` hands to `mm_map` is rounded to itself. -/
theorem roundUp_sub32 {last : Nat} (start : roundDown addr pgSize < 2 ^ 32) :
    roundUp (add32 (roundDown addr pgSize) (sub32 (roundUp last pgSize) (roundDown addr pgSize)))
      pgSize = roundUp last pgSize := by
  unfold roundUp roundDown add32 sub32 pgSize at *
  omega

theorem sub32_zero (a : Nat) : sub32 (roundUp a pgSize) 0 = roundUp a pgSize := by
  unfold sub32 roundUp roundDown add32 pgSize
  omega

/-- The range for which the kernel chooses the place is long enough. -/
theorem le_roundUp_of_not_wraps (honest : ¬Wraps addr len) (atZero : roundDown addr pgSize = 0)
    (nonzero : roundUp (add32 addr len) pgSize ≠ 0) :
    len ≤ roundUp (add32 addr len) pgSize := by
  have fits : addr + len < 2 ^ 32 :=
    not_le.mp fun wrapped => honest ⟨wrapped, .inr ⟨atZero, nonzero⟩⟩
  by_cases small : addr + len + (pgSize - 1) < 2 ^ 32
  · rw [roundUp_eq small]
    exact (Nat.le_add_left len addr).trans (le_pageEnd addr len)
  · exact absurd (roundUp_eq_zero fits (not_lt.mp small)) nonzero

end Rounding

namespace Memory

variable {m m' : Memory} {mm : MmPtr} {addr len : Nat} {flags : BitVec 32}

/-- No byte of the range is in an area, and the pages that it meets have no entries. -/
structure FreeOf (m : Memory) (mm : MmPtr) (addr len : Nat) : Prop where
  areas : ∀ a flags, addr ≤ a → a < addr + len → ¬m.Maps mm a flags
  entries : ∀ page, addr < (page + 1) * pgSize → page * pgSize < addr + len →
    m.pages.pte (.user mm page) = .zero

/-- The calls with this address and length map and unmap all the bytes they are asked to, and
`mm_map` succeeds exactly when it can. -/
structure LengthsHonoured (addr len : Nat) : Prop where
  map : ∀ (vm vm' : Vm) (mm : MmPtr) (flags : BitVec 32) (v : VmaPtr), vm.VmaSet mm →
    vm.mmMap mm addr len flags = .ok (0, v, vm') →
    v ∉ vm.areas mm ∧ v ∈ vm'.areas mm ∧ vm'.lo v ≤ addr ∧ addr + len ≤ vm'.hi v
  mapIff : ∀ (vm : Vm) (mm : MmPtr) (flags : BitVec 32), vm.VmaSet mm → vm.BalancedTree mm →
    (vm.kmalloc vm.vmaUsed).1 ≠ none →
    ∃ ret v vm', vm.mmMap mm addr len flags = .ok (ret, v, vm') ∧
      (ret = 0 ↔ (userBase ≤ roundDown addr pgSize ∧ pageEnd addr len ≤ userTop) ∧
        ∀ w ∈ vm.areas mm, ¬vm.Meets (roundDown addr pgSize) (pageEnd addr len) w)
  unchanged : ∀ (vm vm' : Vm) (mm : MmPtr) (flags : BitVec 32) (ret : Int) (v : VmaPtr),
    vm.VmaSet mm → vm.mmMap mm addr len flags = .ok (ret, v, vm') → ret ≠ 0 →
    vm.OnlyCached vm' mm
  unmap : ∀ (m m' : Memory) (mm : MmPtr), m.WellFormed mm →
    m.mmUnmap mm addr len = .ok (0, m') → m'.FreeOf mm addr len
  mmap : ∀ (m m' : Memory) (mm : MmPtr) (addrStore stored : Nat) (flags : BitVec 32),
    m.vm.VmaSet mm → m.doMmap mm addrStore addr len flags = .ok (0, stored, m') →
    ∃ v ∈ m'.vm.areas mm, v ∉ m.vm.areas mm ∧
      if roundDown addr pgSize = 0 then m'.vm.lo v ≤ stored ∧ stored + len ≤ m'.vm.hi v
      else m'.vm.lo v ≤ addr ∧ addr + len ≤ m'.vm.hi v
  munmap : ∀ (m m' : Memory) (mm : MmPtr), m.WellFormed mm →
    m.doMunmap mm addr len = .ok (0, m') → m'.FreeOf mm addr len

theorem mmUnmap_honoured (honest : ¬Wraps addr len) (formed : m.WellFormed mm)
    (done : m.mmUnmap mm addr len = .ok (0, m')) : m'.FreeOf mm addr len := by
  have result := mmUnmap_result formed done
  cases result with
  | done range _ unmapped =>
      have access := decide_eq_true (p := _ ∧ _ ∧ _) ⟨range.1, range.2.1, range.2.2.1⟩
      have covers := covers_of_not_wraps honest access
      have low := roundDown_le addr pgSize
      constructor
      · intro a flags from_ upTo mapped
        exact (unmapped.maps_iff.mp mapped).2 ⟨low.trans from_, by omega⟩
      · intro page from_ upTo
        refine unmapped.inside page ?_ (by omega)
        unfold roundDown pgSize at *
        omega

theorem doMmap_honoured {addrStore stored : Nat} (honest : ¬Wraps addr len)
    (addr32 : addr < 2 ^ 32) (set : m.vm.VmaSet mm)
    (done : m.doMmap mm addrStore addr len flags = .ok (0, stored, m')) :
    ∃ v ∈ m'.vm.areas mm, v ∉ m.vm.areas mm ∧
      if roundDown addr pgSize = 0 then m'.vm.lo v ≤ stored ∧ stored + len ≤ m'.vm.hi v
      else m'.vm.lo v ≤ addr ∧ addr + len ≤ m'.vm.hi v := by
  have checked := Vm.userMemCheck_setsCache set addrStore 4 true
  unfold doMmap at done
  split at done
  · cases done
  · rcases answer : m.vm.userMemCheck (some mm) addrStore 4 true with ⟨passed, vm⟩
    rw [answer] at done checked
    cases passed with
    | false => cases done
    | true =>
        simp only at done checked
        have set' := set.setsCache checked
        obtain ⟨chosen, isChosen⟩ : ∃ chosen, chosen = if roundDown addr pgSize = 0 then
            vm.getUnmappedArea mm (sub32 (roundUp (add32 addr len) pgSize) (roundDown addr pgSize))
            else roundDown addr pgSize := ⟨_, rfl⟩
        rw [← isChosen] at done
        split at done
        · cases done
        · rename_i placed
          obtain ⟨⟨ret, v, vm'⟩, mapped, rest⟩ := bind_eq_ok_iff.mp done
          cases rest
          obtain ⟨failed, _⟩ | ⟨_, maps⟩ := Vm.mmMap_result set' mapped
          · exact absurd rfl failed
          · refine ⟨v, maps.mem, by rw [← checked.areas]; exact maps.new, ?_⟩
            change if roundDown addr pgSize = 0 then vm'.lo v ≤ chosen ∧ chosen + len ≤ vm'.hi v
              else vm'.lo v ≤ addr ∧ addr + len ≤ vm'.hi v
            have access := decide_eq_true (p := _ ∧ _ ∧ _)
              ⟨maps.range.1, maps.range.2.1, maps.range.2.2.1⟩
            rw [maps.lo, maps.hi]
            split at isChosen
            · -- the kernel chooses the place
              rename_i atZero
              rw [if_pos atZero]
              subst isChosen
              obtain ⟨nonzero, below⟩ := set'.getUnmappedArea_le placed
              rw [atZero, sub32_zero] at nonzero below access ⊢
              have long := le_roundUp_of_not_wraps honest atZero nonzero
              have inTop : ∀ {a n}, a + n ≤ userTop → ¬Wraps a n := by
                intro a n le wrapped
                have word := wrapped.1
                unfold userTop at le
                omega
              have covers := covers_of_not_wraps (inTop below) access
              exact ⟨roundDown_le .., by omega⟩
            · rename_i given
              rw [if_neg given]
              subst isChosen
              have start32 : roundDown addr pgSize < 2 ^ 32 :=
                (roundDown_le addr pgSize).trans_lt addr32
              rw [roundUp_sub32 start32, roundDown_of_aligned (roundDown_mod addr)] at access ⊢
              exact ⟨roundDown_le addr pgSize, covers_of_not_wraps honest access⟩

/-- An address space without areas. -/
def noAreas : Vm where
  vma := fun _ => ⟨0, 0, 0, 0, none, 0⟩
  vmaUsed := fun _ => false
  mm := fun _ => ⟨[], none, none, 0, 0, 1, 0, 0⟩
  mmUsed := fun mm => mm == 0
  shmem := fun _ => ⟨0, 0⟩
  shmemUsed := fun _ => false
  grants := [some 1]

theorem noAreas_vmaSet : noAreas.VmaSet 0 :=
  ⟨.nil, by simp [noAreas, Vm.areas], by simp [noAreas, Vm.areas], rfl, by simp [noAreas],
    by simp [noAreas]⟩

/-- One page is mapped when a length has wrapped around in the user part. -/
theorem mmMap_wraps (wrapped : 2 ^ 32 ≤ addr + len)
    (access : userAccess (roundDown addr pgSize) (roundUp (add32 addr len) pgSize) = true) :
    ¬LengthsHonoured addr len := by
  intro honoured
  obtain ⟨ret, v, vm', done, success⟩ := @Vm.mmMap_ok noAreas 0 addr len 0 noAreas_vmaSet
    (by rintro _ ⟨⟩) (by decide)
  have zero := success.mpr ⟨access, by simp [noAreas, Vm.areas]⟩
  subst zero
  obtain ⟨_, _, _, high⟩ := honoured.map _ _ _ _ _ noAreas_vmaSet done
  obtain ⟨failed, _⟩ | ⟨_, maps⟩ := Vm.mmMap_result noAreas_vmaSet done
  · exact failed rfl
  · have top := maps.range.2.2.1
    rw [← maps.hi] at top
    unfold userTop at top
    omega

/-- One page is mapped at a place that the kernel chooses. -/
theorem doMmap_wraps (len32 : len < 2 ^ 32) (wrapped : 2 ^ 32 ≤ addr + len)
    (atZero : roundDown addr pgSize = 0) (nonzero : roundUp (add32 addr len) pgSize ≠ 0) :
    ¬LengthsHonoured addr len := by
  intro honoured
  have set := (oneArea_wellFormed [some 2]).set
  have checked := Vm.userMemCheck_setsCache set userBase 4 true
  have passes : ((oneArea [some 2]).vm.userMemCheck (some 0) userBase 4 true).1 = true := by decide
  rcases answer : (oneArea [some 2]).vm.userMemCheck (some 0) userBase 4 true with ⟨passed, vm⟩
  rw [answer] at checked passes
  simp only at checked passes
  subst passes
  have onePage : roundUp (add32 addr len) pgSize = pgSize := by
    unfold roundUp roundDown add32 pgSize at *
    omega
  have isChosen : vm.getUnmappedArea 0 pgSize = userTop - pgSize := by
    have list : (vm.mm 0).mmapList = [1] := checked.areas
    unfold Vm.getUnmappedArea
    rw [list, if_neg (by decide), List.reverse_singleton, Vm.unmappedLoop, checked.vma,
      oneArea_vma]
    exact if_pos (by decide)
  obtain ⟨ret, v, vm', done, success⟩ := @Vm.mmMap_ok vm 0 (userTop - pgSize) pgSize
    (vmRead ||| 0 ||| 0) (set.setsCache checked)
    (by
      obtain ⟨cache, _, rfl⟩ := checked
      rintro _ ⟨⟩)
    (by
      rw [checked.kmalloc]
      decide)
  have zero := success.mpr ⟨by decide, by
    intro w mem
    rw [checked.meets]
    unfold Vm.Meets
    rw [(oneArea_bounds _ w).1, (oneArea_bounds _ w).2]
    decide⟩
  subst zero
  have mapped : (oneArea [some 2]).doMmap 0 userBase addr len 0 =
      .ok (0, userTop - pgSize, { oneArea [some 2] with vm := vm' }) := by
    have positive : ¬(userBase = 0 ∨ len = 0) := by
      rintro (zero | rfl)
      · cases zero
      · unfold roundDown pgSize at atZero
        omega
    have page : sub32 pgSize 0 = pgSize := by decide
    have noWrite : (if has 0 mmapWrite then vmWrite else 0) = 0 := by decide
    have noStack : (if has 0 mmapStack then vmStack else 0) = 0 := by decide
    unfold doMmap
    rw [if_neg positive, answer]
    simp only
    rw [atZero, onePage, page, if_pos rfl, isChosen, if_neg (by decide)]
    rw [noWrite, noStack, done]
    simp only [bind, Except.bind, pure, Except.pure, if_true]
  obtain ⟨w, mem, new, here⟩ := honoured.mmap _ _ _ _ _ _ set mapped
  rw [if_pos atZero] at here
  obtain ⟨failed, _⟩ | ⟨_, maps⟩ := Vm.mmMap_result (set.setsCache checked) done
  · exact failed rfl
  · have top := (maps.set.range w mem).2.2.1
    have high : userTop - pgSize + len ≤ vm'.hi w := here.2
    unfold userTop pgSize at *
    unfold roundDown at atZero
    omega

/-- The lengths are honoured exactly for those that do not wrap around. -/
theorem lengths_honoured_iff (addr32 : addr < 2 ^ 32) (len32 : len < 2 ^ 32)
    (positive : 0 < len) : LengthsHonoured addr len ↔ ¬Wraps addr len := by
  constructor
  · rintro honoured ⟨wrapped, access | ⟨atZero, nonzero⟩⟩
    · exact mmMap_wraps wrapped access honoured
    · exact doMmap_wraps len32 wrapped atZero nonzero honoured
  · intro honest
    constructor
    · intro vm vm' mm flags v set done
      obtain ⟨failed, _⟩ | ⟨_, maps⟩ := Vm.mmMap_result set done
      · exact absurd rfl failed
      · have access := decide_eq_true (p := _ ∧ _ ∧ _)
          ⟨maps.range.1, maps.range.2.1, maps.range.2.2.1⟩
        rw [maps.lo, maps.hi]
        exact ⟨maps.new, maps.mem, roundDown_le addr pgSize, covers_of_not_wraps honest access⟩
    · intro vm mm flags set balanced memory
      obtain ⟨ret, v, vm', done, success⟩ := @Vm.mmMap_ok vm mm addr len flags set balanced memory
      refine ⟨ret, v, vm', done, success.trans ?_⟩
      by_cases fits : addr + len < 2 ^ 32
      · rw [userAccess_iff fits positive]
        refine and_congr_right fun inside => ?_
        rw [roundUp_eq]
        have above := inside.2
        unfold pageEnd userTop pgSize at above
        unfold pgSize
        omega
      · have wrapped := not_lt.mp fits
        refine iff_of_false (fun ok => honest ⟨wrapped, .inl ok.1⟩) fun ok => ?_
        have above := ok.1.2
        have reaches := le_pageEnd addr len
        unfold userTop at above
        omega
    · intro vm vm' mm flags ret v set done failed
      obtain ⟨_, cached⟩ | ⟨zero, _⟩ := Vm.mmMap_result set done
      · exact cached
      · exact absurd zero failed
    · intro m m' mm formed done
      exact mmUnmap_honoured honest formed done
    · intro m m' mm addrStore stored flags set done
      exact doMmap_honoured honest addr32 set done
    · intro m m' mm formed done
      unfold doMunmap at done
      split at done
      · cases done
      · exact mmUnmap_honoured honest formed done

/-- Four megabytes are honoured. -/
theorem lengths_honoured_fourMegabytes : LengthsHonoured 0x00200FFF 0x00400000 :=
  (lengths_honoured_iff (by decide) (by decide) (by decide)).mpr fun wrapped =>
    absurd wrapped.1 (by decide)

/-- A length of one byte less than the size of the address space is not. -/
theorem lengths_wrap : ¬LengthsHonoured 0x00200FFF 0xFFFFFFFF :=
  mmMap_wraps (by decide) (by decide)

end Memory

end EdfKernel.Mm
