import EdfKernel.Mm.Tables

/-!
# Where the page functions stop

The functions on frames, page tables, segments and swap slots have assertions of their own, and
stop at none of those on areas.
-/

namespace EdfKernel.Mm

open Library

namespace Pages

variable {p : Pages} {f : Frame} {entry : SwapEntry} {slot : Slot} {mm : MmPtr} {la : Nat}
  {perm : Perm} {shmem : ShmemPtr} {len addr : Nat}

/-! ## Frames and slots -/

@[simp]
theorem freePage_avoids : Avoids .vmaOverlap (p.freePage f) := by
  unfold freePage
  split <;> simp

@[simp]
theorem swapActiveListAdd_avoids : Avoids .vmaOverlap (p.swapActiveListAdd f) := by
  unfold swapActiveListAdd
  split <;> simp

@[simp]
theorem swapInactiveListAdd_avoids : Avoids .vmaOverlap (p.swapInactiveListAdd f) := by
  unfold swapInactiveListAdd
  split <;> simp

@[simp]
theorem swapListDel_avoids : Avoids .vmaOverlap (p.swapListDel f) := by
  unfold swapListDel
  split <;> simp

@[simp]
theorem swapPageDel_avoids : Avoids .vmaOverlap (p.swapPageDel f) := by
  unfold swapPageDel
  split <;> simp

@[simp]
theorem swapFreePage_avoids : Avoids .vmaOverlap (p.swapFreePage f) := by
  unfold swapFreePage
  split
  · exact .bind swapPageDel_avoids fun _ _ => freePage_avoids
  · simp

@[simp]
theorem swapOffset_avoids : Avoids .vmaOverlap (p.swapOffset entry) := by
  unfold swapOffset
  split <;> simp

@[simp]
theorem stealSlot_avoids : Avoids .vmaOverlap (p.stealSlot entry) := by
  unfold stealSlot
  split
  · simp
  · refine .bind swapListDel_avoids fun q _ => .bind ?_ fun _ _ => .ok _
    split <;> simp

@[simp]
theorem tryAllocSwapEntry_avoids : Avoids .vmaOverlap p.tryAllocSwapEntry := by
  unfold tryAllocSwapEntry
  simp only
  split
  · simp
  · split
    · exact .bind stealSlot_avoids fun _ _ => .ok _
    · simp

@[simp]
theorem swapPageSlot_avoids : Avoids .vmaOverlap (p.swapPageSlot f) := by
  refine .bind tryAllocSwapEntry_avoids fun ⟨entry, q⟩ _ => ?_
  simp only
  split
  · simp
  · refine .bind swapOffset_avoids fun offset _ => ?_
    split <;> simp

@[simp]
theorem swapPageAdd_avoids : Avoids .vmaOverlap (p.swapPageAdd f entry) := by
  unfold swapPageAdd
  split
  · simp
  · refine .bind ?_ fun ⟨entry, q⟩ _ => ?_
    · split <;> simp
    · simp only
      split <;> simp

@[simp]
theorem swapRemoveEntry_avoids : Avoids .vmaOverlap (p.swapRemoveEntry entry) := by
  refine .bind swapOffset_avoids fun offset _ => ?_
  split
  · simp
  · simp only
    split
    · split
      · split
        · simp
        · exact .bind swapListDel_avoids fun _ _ => .bind swapFreePage_avoids fun _ _ => .ok _
      · simp
    · simp

@[simp]
theorem swapPageCount_avoids : Avoids .vmaOverlap (p.swapPageCount f) := by
  unfold swapPageCount
  split
  · exact .bind swapOffset_avoids fun _ _ => .ok _
  · simp

@[simp]
theorem swapDuplicate_avoids : Avoids .vmaOverlap (p.swapDuplicate entry) := by
  refine .bind swapOffset_avoids fun offset _ => ?_
  split <;> simp

@[simp]
theorem swapfsRead_avoids : Avoids .vmaOverlap (p.swapfsRead entry f) :=
  .bind swapOffset_avoids fun _ _ => .ok _

@[simp]
theorem swapfsWrite_avoids : Avoids .vmaOverlap (p.swapfsWrite entry f) :=
  .bind swapOffset_avoids fun _ _ => .ok _

@[simp]
theorem swapInPage_avoids : Avoids .vmaOverlap (p.swapInPage entry) := by
  refine .bind swapOffset_avoids fun offset _ => ?_
  split
  · simp
  · rcases p.allocPage with ⟨newpage, q⟩
    simp only
    split
    · exact .bind freePage_avoids fun _ _ => .ok _
    · simp
    · simp
    · refine .bind swapfsRead_avoids fun ⟨failed, r⟩ _ => ?_
      simp only
      split
      · exact .bind freePage_avoids fun _ _ => .ok _
      · exact .bind swapPageAdd_avoids fun _ _ => .bind swapActiveListAdd_avoids fun _ _ => .ok _

/-! ## Page tables -/

@[simp]
theorem removePte_avoids : Avoids .vmaOverlap (p.removePte slot) := by
  unfold removePte
  split
  · split
    · refine .bind ?_ fun _ _ => .ok _
      split <;> simp
    · simp
  · exact .bind swapRemoveEntry_avoids fun _ _ => .ok _
  · simp

@[simp]
theorem pageInsert_avoids : Avoids .vmaOverlap (p.pageInsert mm f la perm) := by
  unfold pageInsert
  split
  · simp
  · refine .bind ?_ fun _ _ => .ok _
    split
    · simp
    · split
      · simp
      · exact removePte_avoids
    · exact removePte_avoids

@[simp]
theorem pgdirAllocPage_avoids : Avoids .vmaOverlap (p.pgdirAllocPage mm la perm) := by
  unfold pgdirAllocPage
  split
  · simp
  · refine .bind pageInsert_avoids fun ⟨ret, q⟩ _ => ?_
    simp only
    split
    · exact .bind freePage_avoids fun _ _ => .ok _
    · simp

theorem unmapLoop_avoids {stop fuel : Nat} : Avoids .vmaOverlap (unmapLoop mm stop fuel la p) := by
  induction fuel generalizing la p with
  | zero => simp [unmapLoop]
  | succ fuel ih =>
      refine .bind ?_ fun q _ => ?_
      · split
        · exact removePte_avoids
        · simp
      · split
        · exact ih
        · simp

@[simp]
theorem unmapRange_avoids {start stop : Nat} : Avoids .vmaOverlap (p.unmapRange mm start stop) := by
  unfold unmapRange
  split
  · exact unmapLoop_avoids
  · simp

theorem exitLoop_avoids {stop fuel : Nat} : Avoids .vmaOverlap (exitLoop mm stop fuel la p) := by
  induction fuel generalizing la p with
  | zero => simp [exitLoop]
  | succ fuel ih =>
      refine .bind ?_ fun q _ => ?_
      · split
        · simp
        · exact .bind freePage_avoids fun _ _ => .ok _
      · simp only
        split
        · exact ih
        · simp

@[simp]
theorem exitRange_avoids {start stop : Nat} : Avoids .vmaOverlap (p.exitRange mm start stop) := by
  unfold exitRange
  split
  · exact exitLoop_avoids
  · simp

theorem copyPte_avoids {target source : MmPtr} {share : Bool} :
    Avoids .vmaOverlap (p.copyPte target source la share) := by
  unfold copyPte
  split
  · simp
  · split
    · simp
    · split
      · simp
      · refine .bind ?_ fun ⟨perm', q⟩ _ => .bind pageInsert_avoids fun ⟨ret, r⟩ _ => ?_
        · split
          · exact .bind pageInsert_avoids fun _ _ => .ok _
          · simp
        · simp only
          split <;> simp
      · exact .bind swapDuplicate_avoids fun _ _ => .ok _

theorem copyLoop_avoids {target source : MmPtr} {share : Bool} {stop fuel : Nat} :
    Avoids .vmaOverlap (copyLoop target source share stop fuel la p) := by
  induction fuel generalizing la p with
  | zero => simp [copyLoop]
  | succ fuel ih =>
      refine .bind ?_ fun ⟨ret, q⟩ _ => ?_
      · split
        · exact copyPte_avoids
        · simp
      · simp only
        split
        · simp
        · split
          · exact ih
          · simp

@[simp]
theorem copyRange_avoids {target source : MmPtr} {start stop : Nat} {share : Bool} :
    Avoids .vmaOverlap (p.copyRange target source start stop share) := by
  unfold copyRange
  split
  · exact copyLoop_avoids
  · simp

/-! ## Segments -/

theorem shmnAt_avoids {create : Bool} : Avoids .vmaOverlap (p.shmnAt shmem addr create) := by
  unfold shmnAt
  split
  · simp
  · split
    · split
      · simp
      · refine .bind ?_ fun _ _ => .ok _
        unfold insertShmn
        split <;> simp
    · simp

@[simp]
theorem shmemGetEntry_avoids {create : Bool} :
    Avoids .vmaOverlap (p.shmemGetEntry shmem len addr create) := by
  unfold shmemGetEntry
  split
  · simp
  · refine .bind shmnAt_avoids fun ⟨found, q⟩ _ => ?_
    simp only
    split
    · split <;> simp
    · simp

@[simp]
theorem shmemInsertEntry_avoids {entry : Pte} :
    Avoids .vmaOverlap (p.shmemInsertEntry shmem len addr entry) := by
  refine .bind shmemGetEntry_avoids fun ⟨found, q⟩ _ => ?_
  simp only
  split
  · simp
  · refine .bind ?_ fun r _ => .bind ?_ fun _ _ => .ok _
    · split
      · exact removePte_avoids
      · simp
    · split <;> simp

theorem shmnClear_avoids {start count : Nat} :
    Avoids .vmaOverlap (shmnClear shmem start count p) := by
  induction count generalizing p with
  | zero => simp [shmnClear]
  | succ count ih => exact .bind removePte_avoids fun _ _ => ih

theorem shmnDestroyAll_avoids {list : List Shmn} :
    Avoids .vmaOverlap (shmnDestroyAll shmem list p) := by
  induction list generalizing p with
  | nil => simp [shmnDestroyAll]
  | cons shmn rest ih =>
      exact .bind (.bind shmnClear_avoids fun _ _ => freePage_avoids) fun _ _ => ih

@[simp]
theorem shmemDestroy_avoids : Avoids .vmaOverlap (p.shmemDestroy shmem) :=
  shmnDestroyAll_avoids

/-! ## Faults -/

theorem pgfaultShared_avoids {shmemAddr : Nat} :
    Avoids .vmaOverlap (p.pgfaultShared mm la perm shmem len shmemAddr) := by
  refine .bind shmemGetEntry_avoids fun ⟨found, q⟩ _ => ?_
  simp only
  split
  · simp
  · simp
  · exact .bind pageInsert_avoids fun _ _ => .ok _
  · exact .bind swapDuplicate_avoids fun _ _ => .ok _

theorem pgfaultAlloc_avoids : Avoids .vmaOverlap (p.pgfaultAlloc mm la perm) :=
  .bind pgdirAllocPage_avoids fun _ _ => .ok _

@[simp]
theorem freeSpare_avoids {newpage : Option Frame} : Avoids .vmaOverlap (p.freeSpare newpage) := by
  cases newpage <;> simp [freeSpare]

theorem pgfaultMap_avoids {mayCopy : Bool} {newpage : Option Frame} {ret : Int} :
    Avoids .vmaOverlap (p.pgfaultMap mm la perm f mayCopy newpage ret) := by
  refine .bind swapPageCount_avoids fun count _ => ?_
  split
  · split
    · simp
    · exact .bind pageInsert_avoids fun _ _ => .ok _
  · exact .bind pageInsert_avoids fun _ _ => .bind freeSpare_avoids fun _ _ => .ok _

theorem pgfaultEntry_avoids {cow write : Bool} :
    Avoids .vmaOverlap (p.pgfaultEntry mm la perm cow write) := by
  unfold pgfaultEntry
  simp only
  split
  · rcases (if cow = true then p.allocPage else (none, p)) with ⟨newpage, q⟩
    refine .bind ?_ fun ⟨ret, f, r⟩ _ => ?_
    · unfold pgfaultPage
      split <;> simp
    · simp only
      split
      · exact .bind freeSpare_avoids fun _ _ => .ok _
      · exact pgfaultMap_avoids
  · simp

/-! ## Eviction -/

@[simp]
theorem tryFreeSwapEntry_avoids : Avoids .vmaOverlap (p.tryFreeSwapEntry entry) :=
  .bind swapOffset_avoids fun _ _ => .ok _

theorem launderDirty_avoids : Avoids .vmaOverlap (p.launderDirty f entry) := by
  refine .bind swapDuplicate_avoids fun q _ => .bind swapfsWrite_avoids fun ⟨failed, r⟩ _ => ?_
  simp only
  generalize (if failed = true then r.setPageDirty f else r) = s
  refine .bind swapOffset_avoids fun offset _ => ?_
  split
  · exact .bind swapActiveListAdd_avoids fun _ _ => .ok _
  · split
    · exact .bind swapInactiveListAdd_avoids fun _ _ => .ok _
    · exact .bind tryFreeSwapEntry_avoids fun _ _ => .ok _

theorem launderPage_avoids : Avoids .vmaOverlap (p.launderPage f) := by
  unfold launderPage
  split
  · refine .bind swapListDel_avoids fun q _ => ?_
    split
    · exact .bind swapActiveListAdd_avoids fun _ _ => .ok _
    · refine .bind tryFreeSwapEntry_avoids fun ⟨freed, r⟩ _ => ?_
      refine .bind ?_ fun ⟨clean, s⟩ _ => ?_
      · split
        · exact launderDirty_avoids
        · simp
      · simp only
        split
        · exact .bind swapFreePage_avoids fun _ _ => .ok _
        · simp
  · simp

theorem launderLoop_avoids {fuel count : Nat} {next : Option Frame} :
    Avoids .vmaOverlap (launderLoop fuel next count p) := by
  induction fuel generalizing next count p with
  | zero => simp [launderLoop]
  | succ fuel ih =>
      cases next with
      | none => simp [launderLoop]
      | some f => exact .bind launderPage_avoids fun _ _ => ih

theorem refillPage_avoids : Avoids .vmaOverlap (p.refillPage f) := by
  unfold refillPage
  split
  · split
    · exact .bind swapListDel_avoids fun _ _ => swapInactiveListAdd_avoids
    · simp
  · simp

theorem refillLoop_avoids {fuel : Nat} {next : Option Frame} :
    Avoids .vmaOverlap (refillLoop fuel next p) := by
  induction fuel generalizing next p with
  | zero => simp [refillLoop]
  | succ fuel ih =>
      cases next with
      | none => simp [refillLoop]
      | some f => exact .bind refillPage_avoids fun _ _ => ih

theorem swapOutSlot_avoids {dirty : Bool} : Avoids .vmaOverlap (p.swapOutSlot f dirty) := by
  unfold swapOutSlot
  split
  · refine .bind swapPageAdd_avoids fun ⟨added, q⟩ _ => ?_
    simp only
    split
    · simp
    · exact .bind swapActiveListAdd_avoids fun _ _ => .ok _
  · simp

theorem swapOutShared_avoids : Avoids .vmaOverlap (p.swapOutShared f shmem len addr entry) := by
  unfold swapOutShared
  split
  · refine .bind shmemGetEntry_avoids fun ⟨found, q⟩ _ => ?_
    simp only
    split
    · simp
    · split
      · exact .bind shmemInsertEntry_avoids fun _ _ => .ok _
      · simp
  · simp

end Pages

end EdfKernel.Mm
