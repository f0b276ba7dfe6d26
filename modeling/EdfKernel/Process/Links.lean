import EdfKernel.Process.Frames

/-!
# The links of a process

What `set_links`, `remove_links` and the loop of `__do_exit` write, field by field.
-/

namespace EdfKernel

/-- A process without its links to other processes. -/
def ProcStruct.unrelated (s : ProcStruct) : ProcStruct :=
  { s with parent := none, cptr := none, yptr := none, optr := none }

namespace Kernel

/-- The kernel with other descriptors. -/
def withProcs (k : Kernel) (procs : ProcPtr → ProcStruct) : Kernel :=
  { k with procs := procs }

theorem modify_withProcs (k : Kernel) (p : ProcPtr) (change : ProcStruct → ProcStruct)
    (procs : ProcPtr → ProcStruct) : (k.modify p change).withProcs procs = k.withProcs procs :=
  rfl

theorem modifySome_withProcs (k : Kernel) (o : Option ProcPtr)
    (change : ProcStruct → ProcStruct) (procs : ProcPtr → ProcStruct) :
    (k.modifySome o change).withProcs procs = k.withProcs procs := by
  cases o <;> rfl

/-! ## set_links -/

theorem setLinks_withProcs (k : Kernel) (p parent : ProcPtr) (procs : ProcPtr → ProcStruct) :
    (k.setLinks p parent).withProcs procs =
      { k.withProcs procs with procList := p :: k.procList, nrProcess := k.nrProcess + 1 } := by
  simp only [setLinks, modify_withProcs, modifySome_withProcs]
  rfl

theorem setLinks_unrelated (k : Kernel) (p parent q : ProcPtr) :
    ((k.setLinks p parent).procs q).unrelated = (k.procs q).unrelated := by
  simp only [setLinks]
  refine field_modify ProcStruct.unrelated ?_ rfl
  refine field_modifySome ProcStruct.unrelated ?_ fun _ => rfl
  exact field_modify ProcStruct.unrelated rfl rfl

theorem setLinks_parent (k : Kernel) (p parent q : ProcPtr) :
    ((k.setLinks p parent).procs q).parent = (k.procs q).parent := by
  simp only [setLinks]
  refine field_modify ProcStruct.parent ?_ rfl
  refine field_modifySome ProcStruct.parent ?_ fun _ => rfl
  exact field_modify ProcStruct.parent rfl rfl

theorem setLinks_optr (k : Kernel) (p parent q : ProcPtr) :
    ((k.setLinks p parent).procs q).optr =
      if q = p then (k.procs parent).cptr else (k.procs q).optr := by
  simp only [setLinks]
  refine field_modify ProcStruct.optr ?_ rfl
  refine field_modifySome ProcStruct.optr ?_ fun _ => rfl
  rw [modify_procs]
  split <;> rfl

theorem setLinks_cptr (k : Kernel) (p parent q : ProcPtr) :
    ((k.setLinks p parent).procs q).cptr =
      if q = parent then some p else (k.procs q).cptr := by
  rw [setLinks, modify_procs]
  split
  · rfl
  · refine field_modifySome ProcStruct.cptr ?_ fun _ => rfl
    exact field_modify ProcStruct.cptr rfl rfl

theorem setLinks_yptr (k : Kernel) (p parent q : ProcPtr) :
    ((k.setLinks p parent).procs q).yptr =
      if (k.procs parent).cptr = some q then some p
      else if q = p then none else (k.procs q).yptr := by
  simp only [setLinks]
  refine field_modify ProcStruct.yptr ?_ rfl
  rw [modifySome_procs, modify_procs_self]
  split
  · rfl
  · rw [modify_procs]
    split <;> rfl

/-! ## remove_links -/

theorem removeLinks_withProcs (k : Kernel) (p : ProcPtr) (procs : ProcPtr → ProcStruct) :
    (k.removeLinks p).withProcs procs =
      { k.withProcs procs with
        procList := k.procList.erase p
        nrProcess := k.nrProcess - 1 } := by
  unfold removeLinks
  simp only
  split
  · rw [modify_withProcs, modifySome_withProcs]
    rfl
  · rw [modifySome_withProcs, modifySome_withProcs]
    rfl

theorem removeLinks_unrelated (k : Kernel) (p q : ProcPtr) :
    ((k.removeLinks p).procs q).unrelated = (k.procs q).unrelated := by
  unfold removeLinks
  simp only
  split
  · refine field_modify ProcStruct.unrelated ?_ rfl
    exact field_modifySome ProcStruct.unrelated rfl fun _ => rfl
  · refine field_modifySome ProcStruct.unrelated ?_ fun _ => rfl
    exact field_modifySome ProcStruct.unrelated rfl fun _ => rfl

theorem removeLinks_parent (k : Kernel) (p q : ProcPtr) :
    ((k.removeLinks p).procs q).parent = (k.procs q).parent := by
  unfold removeLinks
  simp only
  split
  · refine field_modify ProcStruct.parent ?_ rfl
    exact field_modifySome ProcStruct.parent rfl fun _ => rfl
  · refine field_modifySome ProcStruct.parent ?_ fun _ => rfl
    exact field_modifySome ProcStruct.parent rfl fun _ => rfl

theorem removeLinks_yptr (k : Kernel) (p q : ProcPtr) :
    ((k.removeLinks p).procs q).yptr =
      if (k.procs p).optr = some q then (k.procs p).yptr else (k.procs q).yptr := by
  unfold removeLinks
  simp only
  split
  · refine field_modify ProcStruct.yptr ?_ rfl
    rw [modifySome_procs]
    split <;> rfl
  · refine field_modifySome ProcStruct.yptr ?_ fun _ => rfl
    rw [modifySome_procs]
    split <;> rfl

theorem removeLinks_optr {k : Kernel} {p : ProcPtr} (other : (k.procs p).optr ≠ some p)
    (q : ProcPtr) :
    ((k.removeLinks p).procs q).optr =
      if (k.procs p).yptr = some q then (k.procs p).optr else (k.procs q).optr := by
  unfold removeLinks
  simp only [modifySome_procs, if_neg other]
  split
  · rename_i younger eq
    rw [modify_procs, eq]
    by_cases own : q = younger
    · subst q
      simp
    · rw [if_neg own, if_neg (by simpa using Ne.symm own)]
      exact field_modifySome ProcStruct.optr rfl fun _ => rfl
  · rename_i eq
    rw [if_neg (by simp [eq])]
    refine field_modifySome ProcStruct.optr ?_ fun _ => rfl
    exact field_modifySome ProcStruct.optr rfl fun _ => rfl

theorem removeLinks_cptr {k : Kernel} {p parent : ProcPtr} (other : (k.procs p).optr ≠ some p)
    (parentEq : (k.procs p).parent = some parent) (q : ProcPtr) :
    ((k.removeLinks p).procs q).cptr =
      if (k.procs p).yptr = none ∧ q = parent then (k.procs p).optr else (k.procs q).cptr := by
  unfold removeLinks
  simp only [modifySome_procs, if_neg other]
  split
  · rename_i younger eq
    rw [if_neg (by simp [eq])]
    refine field_modify ProcStruct.cptr ?_ rfl
    exact field_modifySome ProcStruct.cptr rfl fun _ => rfl
  · rename_i eq
    rw [modifySome_procs, parentEq]
    by_cases own : q = parent
    · subst q
      simp [eq]
    · rw [if_neg (by simpa using Ne.symm own), if_neg (by simp [own])]
      exact field_modifySome ProcStruct.cptr rfl fun _ => rfl

/-! ## The loop of __do_exit -/

theorem adoptLinks_withProcs (k : Kernel) (p parent child : ProcPtr)
    (procs : ProcPtr → ProcStruct) :
    (k.adoptLinks p parent child).withProcs procs = k.withProcs procs := by
  simp only [adoptLinks, modify_withProcs, modifySome_withProcs]

theorem adoptLinks_unrelated (k : Kernel) (p parent child q : ProcPtr) :
    ((k.adoptLinks p parent child).procs q).unrelated = (k.procs q).unrelated := by
  simp only [adoptLinks]
  refine field_modify ProcStruct.unrelated ?_ rfl
  refine field_modify ProcStruct.unrelated ?_ rfl
  refine field_modifySome ProcStruct.unrelated ?_ fun _ => rfl
  refine field_modify ProcStruct.unrelated ?_ rfl
  refine field_modify ProcStruct.unrelated ?_ rfl
  exact field_modify ProcStruct.unrelated rfl rfl

theorem adoptLinks_parent (k : Kernel) (p parent child q : ProcPtr) :
    ((k.adoptLinks p parent child).procs q).parent =
      if q = child then some parent else (k.procs q).parent := by
  simp only [adoptLinks]
  refine field_modify ProcStruct.parent ?_ rfl
  rw [modify_procs]
  split
  · rfl
  · refine field_modifySome ProcStruct.parent ?_ fun _ => rfl
    refine field_modify ProcStruct.parent ?_ rfl
    refine field_modify ProcStruct.parent ?_ rfl
    exact field_modify ProcStruct.parent rfl rfl

theorem adoptLinks_cptr (k : Kernel) (p parent child q : ProcPtr) :
    ((k.adoptLinks p parent child).procs q).cptr =
      if q = parent then some child
      else if q = p then (k.procs child).optr else (k.procs q).cptr := by
  simp only [adoptLinks]
  rw [modify_procs]
  split
  · rfl
  · refine field_modify ProcStruct.cptr ?_ rfl
    refine field_modifySome ProcStruct.cptr ?_ fun _ => rfl
    refine field_modify ProcStruct.cptr ?_ rfl
    refine field_modify ProcStruct.cptr ?_ rfl
    rw [modify_procs]
    split <;> rfl

section

variable {k : Kernel} {p parent : ProcPtr} (ne : parent ≠ p) (child q : ProcPtr)

include ne

theorem adoptLinks_optr :
    ((k.adoptLinks p parent child).procs q).optr =
      if q = child then (k.procs parent).cptr else (k.procs q).optr := by
  simp only [adoptLinks]
  refine field_modify ProcStruct.optr ?_ rfl
  refine field_modify ProcStruct.optr ?_ rfl
  refine field_modifySome ProcStruct.optr ?_ fun _ => rfl
  rw [modify_procs]
  split
  · refine field_modify ProcStruct.cptr ?_ rfl
    rw [modify_procs_of_ne _ _ _ ne]
  · refine field_modify ProcStruct.optr ?_ rfl
    exact field_modify ProcStruct.optr rfl rfl

theorem adoptLinks_yptr :
    ((k.adoptLinks p parent child).procs q).yptr =
      if (k.procs parent).cptr = some q then some child
      else if q = child then none else (k.procs q).yptr := by
  simp only [adoptLinks]
  refine field_modify ProcStruct.yptr ?_ rfl
  refine field_modify ProcStruct.yptr ?_ rfl
  rw [modifySome_procs, modify_procs_self]
  have head : (((k.modify p fun s => { s with cptr := (k.procs child).optr }).modify child
      fun s => { s with yptr := none }).procs parent).cptr = (k.procs parent).cptr := by
    refine field_modify ProcStruct.cptr ?_ rfl
    rw [modify_procs_of_ne _ _ _ ne]
  simp only [head]
  split
  · rfl
  · refine field_modify ProcStruct.yptr ?_ rfl
    rw [modify_procs]
    split
    · rfl
    · exact field_modify ProcStruct.yptr rfl rfl

end

end Kernel

end EdfKernel
