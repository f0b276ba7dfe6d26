import EdfKernel.Mm.FaultBalance
import EdfKernel.Mm.SharedCalls

/-!
# Changes of areas keep the balance

Areas are made, cut and given back, and segments begin and end.  What frames and slots are counted
for stays in balance, and so do the counts of the areas that share a segment.
-/

namespace EdfKernel.Mm

open Library

/-- What the accounts of a memory are drawn up for: the address spaces that there are, the frames
that the kernel had from the start, and the page tables that ended address spaces have left behind. -/
structure Scope where
  mm : MmPtr → Bool
  lost : Frame → Prop
  behind : Multiset Use

/-- What there is, with the segments. -/
def Scope.live (scope : Scope) (shmem : ShmemPtr → Bool) : Live :=
  ⟨scope.mm, shmem, none, scope.lost⟩

namespace Vm

variable {vm vm' vm'' : Vm} {mm : MmPtr} {v : VmaPtr} {s : ShmemPtr} {start stop fuel addr : Nat}
  {flags : BitVec 32}

/-- The segments still count their areas, and the address spaces and segments are those that were
there. -/
structure Alike (vm vm' : Vm) : Prop where
  tallied : vm.ledger.Tallied none → vm'.ledger.Tallied none
  mmUsed : vm'.mmUsed = vm.mmUsed
  shmemUsed : vm'.shmemUsed = vm.shmemUsed

namespace Alike

theorem refl (vm : Vm) : vm.Alike vm := ⟨id, rfl, rfl⟩

theorem trans (first : vm.Alike vm') (second : vm'.Alike vm'') : vm.Alike vm'' :=
  ⟨fun tallied => second.tallied (first.tallied tallied), second.mmUsed.trans first.mmUsed,
    second.shmemUsed.trans first.shmemUsed⟩

theorem of_ledger (ledger : vm'.ledger = vm.ledger) (mmUsed : vm'.mmUsed = vm.mmUsed)
    (shmemUsed : vm'.shmemUsed = vm.shmemUsed) : vm.Alike vm' :=
  ⟨fun tallied => ledger ▸ tallied, mmUsed, shmemUsed⟩

/-- An area, in use or not, changes and keeps its flags and its segment. -/
theorem of_change {change : VmaStruct → VmaStruct} (mmUsed : vm'.mmUsed = vm.mmUsed)
    (shmemUsed : vm'.shmemUsed = vm.shmemUsed)
    (same : ∀ a, (change a).vmFlags = a.vmFlags ∧ (change a).shmem = a.shmem)
    (entry : vm'.ledger = vm.ledger.setArea v ((vm.ledger.area v).map change)) : vm.Alike vm' := by
  refine ⟨fun tallied => ?_, mmUsed, shmemUsed⟩
  rw [entry]
  cases isArea : vm.ledger.area v with
  | none => exact tallied.replace (by rw [isArea, Option.map_none]) (by rintro _ ⟨⟩)
  | some a => exact tallied.change isArea (same a).1 (same a).2

theorem vmaCreate {found : Option VmaPtr}
    (created : vm.vmaCreate start stop flags = (found, vm')) : vm.Alike vm' := by
  cases found with
  | none =>
      obtain ⟨grants, rfl⟩ := vmaCreate_none created
      exact .of_ledger rfl rfl rfl
  | some v =>
      obtain ⟨free, entry⟩ := ledger_vmaCreate created
      unfold Vm.vmaCreate at created
      split at created
      · cases created
      · rename_i w vm₁ answer
        obtain ⟨grants, rfl, _⟩ := kmalloc_spec answer
        cases created
        refine ⟨fun tallied => ?_, rfl, rfl⟩
        rw [entry]
        refine tallied.enter rfl fun b there => ?_
        rw [free] at there
        cases there

end Alike

/-! ## The set of areas -/

/-- The address spaces and segments are those that were there. -/
def SameUsed (vm vm' : Vm) : Prop :=
  vm'.mmUsed = vm.mmUsed ∧ vm'.shmemUsed = vm.shmemUsed

theorem insertPlace_meets : Library.Meets Panic.Misuse (fun _ => True) (vm.insertPlace mm v) := by
  unfold insertPlace
  split
  · split
    · trivial
    · simp [Panic.Misuse]
  · trivial

theorem insertAll_meets {list : List VmaPtr} {tree : RbTree VmaPtr} :
    Library.Meets Panic.Misuse (fun _ => True) (vm.insertAll list tree) := by
  induction list generalizing tree with
  | nil => trivial
  | cons v rest ih =>
      rw [insertAll]
      split
      · exact ih
      · simp [Panic.Misuse]

theorem buildTree_used : Library.Meets Panic.Misuse (fun vm' => vm.SameUsed vm') (vm.buildTree mm) := by
  unfold buildTree
  split
  · split
    · rename_i vm₁ answer
      obtain ⟨grants, rfl, _⟩ := kmalloc_spec answer
      exact ⟨rfl, rfl⟩
    · rename_i address vm₁ answer
      obtain ⟨grants, rfl, _⟩ := kmalloc_spec answer
      exact insertAll_meets.bind fun tree _ => ⟨rfl, rfl⟩
  · exact ⟨rfl, rfl⟩

theorem insertVmaStruct_alike :
    Library.Meets Panic.Misuse (fun vm' => vm.Alike vm') (vm.insertVmaStruct mm v) := by
  have used : Library.Meets Panic.Misuse (fun vm' => vm.SameUsed vm') (vm.insertVmaStruct mm v) := by
    unfold insertVmaStruct
    split
    · refine insertPlace_meets.bind ?_
      rintro ⟨tree, prev⟩ _
      dsimp only
      split
      · exact buildTree_used.mono fun vm' same => same
      · simp [Panic.Misuse]
    · simp [Panic.Misuse]
  refine (used.and_of_ok fun vm' done => ledger_insertVmaStruct done).mono fun vm' done => ?_
  exact .of_ledger done.2 done.1.1 done.1.2

theorem removeVmaStruct_alike :
    Library.Meets Panic.Misuse (fun vm' => vm.Alike vm') (vm.removeVmaStruct mm v) := by
  unfold removeVmaStruct
  split
  · refine Library.Meets.bind_through (fun _ => True) ?_ fun tree _ => ?_
    · split
      · trivial
      · split
        · trivial
        · simp [Panic.Misuse]
    · exact .of_ledger rfl rfl rfl
  · simp [Panic.Misuse]

theorem vmaResize_alike :
    Library.Meets Panic.Misuse (fun vm' => vm.Alike vm') (vm.vmaResize v start stop) := by
  have used : Library.Meets Panic.Misuse (fun vm' => vm.SameUsed vm') (vm.vmaResize v start stop) := by
    unfold vmaResize
    split
    · exact ⟨rfl, rfl⟩
    · simp [Panic.Misuse]
  refine (used.and_of_ok fun vm' done => (ledger_vmaResize done).1).mono fun vm' done => ?_
  exact @Alike.of_change _ _ v (.resize start stop) done.1.1 done.1.2
    (fun a => ⟨rfl, rfl⟩) done.2

theorem takeOut_alike {freeList : List VmaPtr} :
    Library.Meets Panic.Misuse (fun result => vm.Alike result.2) (takeOut mm stop fuel v freeList vm) := by
  induction fuel generalizing v freeList vm with
  | zero => exact .refl vm
  | succ fuel ih =>
      rw [takeOut]
      split
      · refine removeVmaStruct_alike.bind fun vm' removed => ?_
        split
        · exact removed
        · exact ih.mono fun result => removed.trans
      · exact .refl vm

theorem findVma_alike (vm : Vm) (mm : MmPtr) (addr : Nat) : vm.Alike (vm.findVma mm addr).2 := by
  refine .of_ledger (vm.ledger_findVma mm addr) ?_ ?_
  · unfold findVma
    dsimp only
    split <;> rfl
  · unfold findVma
    dsimp only
    split <;> rfl

theorem mmMap_alike {len : Nat} :
    Library.Meets Panic.Misuse (fun result => vm.Alike result.2.2) (vm.mmMap mm addr len flags) := by
  unfold mmMap
  dsimp only
  split
  · have finds := vm.findVma_alike mm (roundDown addr pgSize)
    rcases answer : vm.findVma mm (roundDown addr pgSize) with ⟨found, vm₁⟩
    rw [answer] at finds
    dsimp only at finds ⊢
    split
    · exact finds
    · rcases created : vm₁.vmaCreate (roundDown addr pgSize) (roundUp (add32 addr len) pgSize)
        (flags &&& ~~~vmShare) with ⟨new, vm₂⟩
      have makes := finds.trans (.vmaCreate created)
      cases new with
      | none => exact makes
      | some v => exact insertVmaStruct_alike.bind fun vm₃ inserted => makes.trans inserted
  · exact .refl vm

/-- What `mm_map_shmem` enters: nothing when it fails, and otherwise an area that shares the
segment, which counts it. -/
theorem ledger_mmMapShmem {result : Int × Vm} (set : VmaSet vm mm) (used : vm.shmemUsed s = true)
    (done : vm.mmMapShmem mm addr flags s = .ok result) :
    (result.1 ≠ 0 ∧ result.2.ledger = vm.ledger) ∨ (result.1 = 0 ∧ ∀ spare,
      (∀ r ∈ spare, r = s) → vm.ledger.Tallied spare → result.2.ledger.Tallied none) := by
  have there : vm.ledger.segment s = some (vm.shmem s) := if_pos used
  unfold mmMapShmem at done
  split at done
  · cases done
    exact .inl ⟨by simp [eInval], rfl⟩
  · obtain ⟨⟨ret, v, vm₁⟩, mapped, rest⟩ := bind_eq_ok_iff.mp done
    have counted := (modifyShmem_sameBounds vm s fun t =>
      { t with shmemRef := t.shmemRef + 1 }).vmaSet set
    have entry₀ := @ledger_modifyShmem vm (fun t => { t with shmemRef := t.shmemRef + 1 }) s
    rw [there] at entry₀
    simp only at rest
    rcases mmMap_adds counted mapped with ⟨failed, only⟩ | ⟨rfl, adds, isFree, entry⟩
    · rw [if_pos failed] at rest
      cases rest
      have back : ({ vm.shmem s with shmemRef := (vm.shmem s).shmemRef + 1 - 1 } : ShmemStruct) =
          vm.shmem s := by
        rw [add_sub_cancel_right]
      refine .inl ⟨failed, ?_⟩
      rw [ledger_modifyShmem, only.entry.1, entry₀, Ledger.segment_setSegment_self]
      exact Ledger.setSegment_restore (there.trans (congrArg some back.symm))
    · rw [if_neg (by simp)] at rest
      cases rest
      refine .inr ⟨rfl, fun spare isSpare tallied => ?_⟩
      have last := @ledger_modifyVma vm₁ v (fun a =>
        { a with shmem := some s, shmemOff := 0, vmFlags := a.vmFlags ||| vmShare }) fun a => rfl
      rw [entry, Ledger.area_setArea_self, entry₀, Ledger.setArea_setArea] at last
      rw [entry₀] at isFree
      have taken := tallied.take (v := v) isSpare isFree there
        (b := ⟨0, roundDown addr pgSize, roundUp (add32 addr
          ((vm.modifyShmem s fun t => { t with shmemRef := t.shmemRef + 1 }).shmem s).len) pgSize,
          flags &&& ~~~vmShare ||| vmShare, some s, 0⟩) rfl (@has_or (flags &&& ~~~vmShare) vmShare (by decide))
      exact last ▸ taken

theorem mmMapShmem_used :
    Library.Meets Panic.Misuse (fun result => vm.SameUsed result.2) (vm.mmMapShmem mm addr flags s) := by
  unfold mmMapShmem
  split
  · exact ⟨rfl, rfl⟩
  · refine mmMap_alike.bind ?_
    rintro ⟨ret, v, vm₁⟩ mapped
    dsimp only
    split
    · exact ⟨mapped.mmUsed, mapped.shmemUsed⟩
    · exact ⟨mapped.mmUsed, mapped.shmemUsed⟩

end Vm

namespace Memory

variable {m n : Memory} {scope : Scope} {mm : MmPtr} {v : VmaPtr} {s : ShmemPtr} {vm : Vm}
  {p : Pages} {start stop addr len : Nat} {flags : BitVec 32}

/-- The pages balance, and every segment counts the areas that share it. -/
structure Balanced (m : Memory) (scope : Scope) : Prop where
  pages : m.pages.Balanced (scope.live m.vm.shmemUsed) scope.behind
  ledger : m.vm.ledger.Tallied none

/-- The memory is still in balance, and no address space or segment is new. -/
structure Keeps (m n : Memory) (scope : Scope) : Prop where
  balanced : n.Balanced scope
  used : n.vm.mmUsed = m.vm.mmUsed
  fewer : ∀ s, n.vm.shmemUsed s = true → m.vm.shmemUsed s = true

theorem Keeps.trans {o : Memory} (first : m.Keeps n scope) (second : n.Keeps o scope) :
    m.Keeps o scope :=
  ⟨second.balanced, second.used.trans first.used, fun s used => first.fewer s (second.fewer s used)⟩

namespace Balanced

theorem refl (balanced : m.Balanced scope) : m.Keeps m scope := ⟨balanced, rfl, fun _ => id⟩

/-- The structures and the pages change. -/
theorem change (balanced : m.Balanced scope) (alike : m.vm.Alike n.vm)
    (pages : n.pages.Balanced (scope.live m.vm.shmemUsed) scope.behind) : m.Keeps n scope := by
  refine ⟨⟨?_, alike.tallied balanced.ledger⟩, alike.mmUsed, fun s used => ?_⟩
  · rw [alike.shmemUsed]
    exact pages
  · rw [← alike.shmemUsed]
    exact used

theorem withPages (balanced : m.Balanced scope)
    (pages : p.Balanced (scope.live m.vm.shmemUsed) scope.behind) :
    m.Keeps { m with pages := p } scope :=
  balanced.change (.refl m.vm) pages

theorem alike (balanced : m.Balanced scope) (alike : m.vm.Alike vm) :
    m.Keeps { m with vm := vm } scope :=
  balanced.change alike balanced.pages

theorem modifyMm (balanced : m.Balanced scope) (mm : MmPtr) (change : MmStruct → MmStruct) :
    ({ m with vm := m.vm.modifyMm mm change } : Memory).Balanced scope := by
  have keeps : m.Keeps { m with vm := m.vm.modifyMm mm change } scope :=
    balanced.alike (.of_ledger rfl rfl rfl)
  exact keeps.balanced

/-- The segment of an area in use exists. -/
theorem shmemUsed (balanced : m.Balanced scope) (used : m.vm.vmaUsed v = true)
    (shmem : (m.vm.vma v).shmem = some s) : m.vm.shmemUsed s = true := by
  obtain ⟨t, there⟩ :=
    (balanced.ledger.links v _ (Vm.ledger_area_of_used used)).there s shmem
  rw [Vm.ledger_segment] at there
  split at there
  · rename_i isUsed
    exact isUsed
  · cases there

theorem linked (balanced : m.Balanced scope) (owns : m.vm.Owns mm) :
    m.Linked (scope.live m.vm.shmemUsed) mm :=
  fun v mem _ shmem => balanced.shmemUsed (owns v mem).1 shmem

end Balanced

/-! ## vma_destroy -/

/-- `vma_destroy`: the last area that shares a segment takes it along. -/
theorem vmaDestroy_keeps (balanced : m.Balanced scope) (used : m.vm.vmaUsed v = true) :
    Meets Panic.Misuse (fun n => m.Keeps n scope) (m.vmaDestroy v) := by
  have isArea := Vm.ledger_area_of_used used
  have pages : Meets Panic.Misuse (fun n => n.pages.Balanced (scope.live n.vm.shmemUsed)
      scope.behind ∧ n.vm.mmUsed = m.vm.mmUsed ∧
        ∀ s, n.vm.shmemUsed s = true → m.vm.shmemUsed s = true) (m.vmaDestroy v) := by
    unfold vmaDestroy
    refine Meets.bind_through (fun n : Memory => n.pages.Balanced (scope.live n.vm.shmemUsed)
      scope.behind ∧ n.vm.mmUsed = m.vm.mmUsed ∧
        ∀ s, n.vm.shmemUsed s = true → m.vm.shmemUsed s = true) ?_ fun n done => done
    split
    · split
      · simp [Panic.Misuse]
      · rename_i s shmem
        have isUsed := balanced.shmemUsed used shmem
        dsimp only
        split
        · refine (balanced.pages.shmemDestroy isUsed rfl).bind fun p ended => ?_
          refine ⟨ended, rfl, fun r there => ?_⟩
          by_cases own : r = s
          · rw [own]
            exact isUsed
          · change Function.update m.vm.shmemUsed s false r = true at there
            rw [Function.update_of_ne own] at there
            exact there
        · exact ⟨balanced.pages, rfl, fun _ => id⟩
    · exact ⟨balanced.pages, rfl, fun _ => id⟩
  refine (pages.and_of_ok fun n done => ledger_vmaDestroy done).mono fun n done => ?_
  obtain ⟨⟨pages, sameMm, fewer⟩, entry⟩ := done
  refine ⟨⟨pages, ?_⟩, sameMm, fewer⟩
  rcases entry with ⟨plain, entry⟩ | ⟨s, shmem, entry⟩
  · rw [entry]
    exact balanced.ledger.leave isArea plain
  · have isUsed := balanced.shmemUsed used shmem
    rw [entry isUsed]
    exact balanced.ledger.drop isArea shmem (if_pos isUsed)

theorem destroyVmas_keeps {list : List VmaPtr} (balanced : m.Balanced scope) (nodup : list.Nodup)
    (used : ∀ v ∈ list, m.vm.vmaUsed v = true) :
    Meets Panic.Misuse (fun n => m.Keeps n scope) (destroyVmas list m) := by
  induction list generalizing m with
  | nil => exact balanced.refl
  | cons v rest ih =>
      obtain ⟨notLater, nodup'⟩ := List.nodup_cons.mp nodup
      have first := (vmaDestroy_keeps balanced (used v List.mem_cons_self)).and_of_ok
        fun n done => (vmaDestroy_frame done).2.2.1
      refine first.bind fun n done => ?_
      obtain ⟨keeps, vmaUsed⟩ := done
      refine (ih keeps.balanced nodup' fun w mem => ?_).mono fun o => keeps.trans
      have other : w ≠ v := by
        rintro rfl
        exact notLater mem
      rw [vmaUsed, Function.update_of_ne other]
      exact used w (List.mem_cons_of_mem v mem)

/-! ## mm_unmap and mm_brk -/

/-- Areas change, and pages are unmapped. -/
theorem Balanced.unmap (balanced : m.Balanced scope) (alike : m.vm.Alike vm)
    (has : scope.mm mm = true) :
    Meets Panic.Misuse (fun p => m.Keeps ⟨vm, p⟩ scope) (m.pages.unmapRange mm start stop) := by
  have keeps := balanced.alike alike
  refine (keeps.balanced.pages.unmapRange has).mono fun p after => ?_
  exact keeps.trans (keeps.balanced.withPages after)

theorem unmapVma_keeps (balanced : m.Balanced scope) (has : scope.mm mm = true)
    (used : m.vm.vmaUsed v = true) :
    Meets Panic.Misuse (fun n => m.Keeps n scope) (m.unmapVma mm start stop v) := by
  unfold unmapVma
  dsimp only
  split
  · refine Vm.vmaResize_alike.bind fun vm₁ resized => ?_
    refine Vm.insertVmaStruct_alike.bind fun vm₂ inserted => ?_
    exact (balanced.unmap (resized.trans inserted) has).bind fun p keeps => keeps
  · split
    · refine Vm.vmaResize_alike.bind fun vm₁ resized => ?_
      refine Vm.insertVmaStruct_alike.bind fun vm₂ inserted => ?_
      exact (balanced.unmap (resized.trans inserted) has).bind fun p keeps => keeps
    · refine (vmaDestroy_keeps balanced used).bind fun n destroyed => ?_
      refine (destroyed.balanced.unmap (.refl n.vm) has).bind fun p keeps => ?_
      exact destroyed.trans keeps

theorem unmapVmas_keeps {list : List VmaPtr} (balanced : m.Balanced scope)
    (has : scope.mm mm = true) (set : m.vm.VmaSet mm) (taken : Taken m.vm mm start stop list) :
    Meets Panic.Misuse (fun n => m.Keeps n scope) (unmapVmas mm start stop list m) := by
  induction list generalizing m with
  | nil => exact balanced.refl
  | cons v rest ih =>
      have here := List.mem_cons_self (a := v) (l := rest)
      have first := (@unmapVma_keeps _ _ _ _ start stop balanced has
        (taken.detached v here).used).and_of_ok fun n done =>
          unmapVma_trims set balanced.pages.covered.1 (taken.detached v here) (taken.meets v here).1
            (taken.meets v here).2 (taken.noHole v here) done
      refine first.bind fun n done => ?_
      obtain ⟨keeps, trims⟩ := done
      exact (ih keeps.balanced trims.set (taken.next trims)).mono fun o => keeps.trans

theorem unmapHole_keeps (balanced : m.Balanced scope) (has : scope.mm mm = true) :
    Meets Panic.Misuse (fun result => m.Keeps result.2 scope) (m.unmapHole mm start stop v) := by
  unfold unmapHole
  rcases created : m.vm.vmaCreate (m.vm.vma v).vmStart start (m.vm.vma v).vmFlags with ⟨new, vm⟩
  have makes : m.vm.Alike vm := .vmaCreate created
  cases new with
  | none => exact balanced.alike makes
  | some w =>
      refine Vm.vmaResize_alike.bind fun vm₁ resized => ?_
      refine Vm.insertVmaStruct_alike.bind fun vm₂ inserted => ?_
      exact (balanced.unmap ((makes.trans resized).trans inserted) has).bind fun p keeps => keeps

/-- `mm_unmap`. -/
theorem mmUnmap_keeps (balanced : m.Balanced scope) (has : scope.mm mm = true)
    (formed : m.WellFormed mm) :
    Meets Panic.Misuse (fun result => m.Keeps result.2 scope) (m.mmUnmap mm addr len) := by
  unfold mmUnmap
  dsimp only
  generalize roundDown addr pgSize = first
  generalize roundUp (add32 addr len) pgSize = last
  split
  · have finds := balanced.alike (m.vm.findVma_alike mm first)
    obtain ⟨_, sets⟩ := formed.set.findVma first
    rcases answer : m.vm.findVma mm first with ⟨found, vm⟩
    rw [answer] at finds sets
    cases found with
    | none => exact finds
    | some v =>
        dsimp only
        split
        · exact finds
        · split
          · exact (unmapHole_keeps finds.balanced has).mono fun _ => finds.trans
          · rename_i noHole
            obtain ⟨before, rest, isFirst⟩ := first_of_findVma formed.set answer
            have enough : rest.length < (vm.mm mm).mmapList.length := by
              change _ < (vm.areas mm).length
              rw [isFirst.list, List.length_append, List.length_cons]
              omega
            have takes : Meets Panic.Misuse (fun taken => vm.Alike taken.2 ∧ Vm.VmaSet taken.2 mm ∧
                Taken taken.2 mm first last taken.1)
                (Vm.takeOut mm last (vm.mm mm).mmapList.length v [] vm) := by
              refine Vm.takeOut_alike.and_of_ok fun taken done => ?_
              obtain ⟨run, after, split, freed, lows, highs, set, areas, vma, used, _⟩ :=
                Vm.takeOut_spec (formed.set.setsCache sets) isFirst.list enough done
              rw [List.append_nil] at freed
              rw [freed]
              exact ⟨set, isFirst.taken (formed.set.setsCache sets) noHole split lows areas vma used⟩
            refine takes.bind ?_
            rintro ⟨freeList, vm₁⟩ ⟨alike, set, taken⟩
            have keeps := finds.balanced.alike alike
            refine (unmapVmas_keeps keeps.balanced has set taken).bind fun n unmaps => ?_
            exact finds.trans (keeps.trans unmaps)
  · exact balanced.refl

/-- `mm_brk`. -/
theorem mmBrk_keeps (balanced : m.Balanced scope) (has : scope.mm mm = true)
    (formed : m.WellFormed mm) :
    Meets Panic.Misuse (fun result => m.Keeps result.2 scope) (m.mmBrk mm addr len) := by
  unfold mmBrk
  dsimp only
  generalize roundDown addr pgSize = first
  generalize roundUp (add32 addr len) pgSize = last
  split
  · refine (mmUnmap_keeps balanced has formed).bind ?_
    rintro ⟨ret, n⟩ keeps
    dsimp only at keeps ⊢
    split
    · exact keeps
    · have finds := n.vm.findVma_alike mm (first - 1)
      rcases answer : n.vm.findVma mm (first - 1) with ⟨found, vm⟩
      rw [answer] at finds
      dsimp only at finds ⊢
      split
      · rename_i v _
        have entry := @Vm.ledger_modifyVma vm v (fun a => { a with vmEnd := last }) fun a => rfl
        refine keeps.trans (keeps.balanced.alike (finds.trans ?_))
        exact @Vm.Alike.of_change _ _ v (fun a => { a with vmEnd := last })
          rfl rfl (fun a => ⟨rfl, rfl⟩) entry
      · rcases created : vm.vmaCreate first last (vmRead ||| vmWrite) with ⟨new, vm₁⟩
        have makes := finds.trans (.vmaCreate created)
        cases new with
        | none => exact keeps.trans (keeps.balanced.alike makes)
        | some v =>
            refine Vm.insertVmaStruct_alike.bind fun vm₂ inserted => ?_
            exact keeps.trans (keeps.balanced.alike (makes.trans inserted))
  · exact balanced.refl

/-! ## do_shmem -/

/-- One more area shares a segment. -/
theorem mmMapShmem_keeps (balanced : m.Balanced scope) (set : m.vm.VmaSet mm)
    (used : m.vm.shmemUsed s = true) :
    Meets Panic.Misuse (fun result => m.Keeps { m with vm := result.2 } scope)
      (m.vm.mmMapShmem mm addr flags s) := by
  refine (Vm.mmMapShmem_used.and_of_ok fun result done =>
    Vm.ledger_mmMapShmem set used done).mono fun result done => ?_
  obtain ⟨⟨mmUsed, shmemUsed⟩, entry⟩ := done
  refine balanced.alike ⟨fun tallied => ?_, mmUsed, shmemUsed⟩
  rcases entry with ⟨_, same⟩ | ⟨_, tallies⟩
  · exact same ▸ tallied
  · exact tallies none (by simp) tallied

/-- `do_shmem`. -/
theorem doShmem_balanced (balanced : m.Balanced scope) (set : m.vm.VmaSet mm) :
    Meets Panic.Misuse (fun result => result.2.Balanced scope ∧ result.2.vm.mmUsed = m.vm.mmUsed)
      (m.doShmem mm addr len flags) := by
  unfold doShmem
  split
  · exact ⟨balanced, rfl⟩
  · dsimp only
    generalize sub32 (roundUp (add32 addr len) pgSize) (roundDown addr pgSize) = size
    generalize (if roundDown addr pgSize = 0 then m.vm.getUnmappedArea mm size
      else roundDown addr pgSize) = chosen
    split
    · exact ⟨balanced, rfl⟩
    · rcases created : m.shmemCreate size with ⟨found, n⟩
      obtain ⟨sameMm, mmUsed, vma, vmaUsed, isNone, isSome⟩ := ledger_shmemCreate created
      unfold shmemCreate at created
      rcases answer : m.vm.kmalloc m.vm.shmemUsed with ⟨answered, vm⟩
      obtain ⟨grants, rfl, notUsed⟩ := Vm.kmalloc_spec answer
      rw [answer] at created
      cases answered with
      | none =>
          cases created
          have keeps : m.Keeps { m with vm := { m.vm with grants := grants } } scope :=
            balanced.alike (.of_ledger rfl rfl rfl)
          exact ⟨keeps.balanced, rfl⟩
      | some s =>
          cases created
          obtain ⟨gone, used, entry⟩ := isSome s rfl
          have new : (scope.live m.vm.shmemUsed).shmem s = false := notUsed s rfl
          have made := balanced.pages.shmemCreate new
          have tallied := balanced.ledger.make gone size
          rw [← entry] at tallied
          have set' := set.congr set.cache (by rw [sameMm]) fun v mem =>
            ⟨by rw [vma], by rw [vmaUsed]; exact (set.owned v mem).1⟩
          dsimp only
          refine (Vm.mmMapShmem_used.and_of_ok fun result done =>
            Vm.ledger_mmMapShmem set' used done).bind ?_
          rintro ⟨ret, vm⟩ ⟨⟨mmUsed', shmemUsed'⟩, outcome⟩
          dsimp only at mmUsed' shmemUsed' outcome ⊢
          split
          · rename_i failed
            rcases outcome with ⟨_, same⟩ | ⟨zero, _⟩
            · refine (made.shmemDestroy (Function.update_self ..) rfl).bind fun p ended => ?_
              refine ⟨⟨?_, ?_⟩, mmUsed'⟩
              · change p.Balanced (scope.live (Function.update vm.shmemUsed s false)) scope.behind
                rw [shmemUsed']
                exact ended
              · rw [Vm.ledger_freeShmem, same, entry, Ledger.setSegment_restore gone]
                exact balanced.ledger
            · exact absurd zero failed
          · rename_i zero
            rcases outcome with ⟨failed, _⟩ | ⟨_, tallies⟩
            · exact absurd failed zero
            · refine ⟨⟨?_, tallies (some s) (by rintro r ⟨⟩; rfl) tallied⟩, mmUsed'⟩
              change Pages.Balanced _ (scope.live vm.shmemUsed) scope.behind
              rw [shmemUsed']
              exact made

end Memory

end EdfKernel.Mm
