import EdfKernel.Library.LinkedList
import EdfKernel.Process.Links

/-!
# Parents, children and siblings

`cptr` of a process and the `optr` links from there on list its children, from the
youngest to the oldest; `yptr` leads back.  `__do_exit` moves the children of a
process one by one, and leaves the `yptr` of the first one that remains alone.
-/

namespace EdfKernel

open Library Library.LinkedList

namespace Kernel

def older (k : Kernel) (p : ProcPtr) : Option ProcPtr :=
  (k.procs p).optr

def younger (k : Kernel) (p : ProcPtr) : Option ProcPtr :=
  (k.procs p).yptr

/-- The processes that `do_fork` has linked, and the idle process. -/
def Known (k : Kernel) (p : ProcPtr) : Prop :=
  p ∈ k.procList ∨ p = k.idleproc

end Kernel

/-- `children` are the children of every process, in the order of the links.  While
the children of `leaving` are moved, the first of them may have a `yptr`. -/
structure Family (k : Kernel) (children : ProcPtr → List ProcPtr) (leaving : Option ProcPtr) :
    Prop where
  mem_iff : ∀ p c, c ∈ children p ↔ c ∈ k.procList ∧ (k.procs c).parent = some p
  nodup : ∀ p, (children p).Nodup
  linked : ∀ p, k.Known p → leaving ≠ some p →
    Linked k.older k.younger none (children p) (k.procs p).cptr
  loose : ∀ p, leaving = some p →
    ∃ before, Linked k.older k.younger before (children p) (k.procs p).cptr

namespace Family

variable {k k' : Kernel} {children : ProcPtr → List ProcPtr} {leaving : Option ProcPtr}
  {p : ProcPtr}

/-- A process is a child of one process. -/
theorem parent_unique (family : Family k children leaving) {q c : ProcPtr}
    (memP : c ∈ children p) (memQ : c ∈ children q) : p = q := by
  have parentP := ((family.mem_iff p c).mp memP).2
  have parentQ := ((family.mem_iff q c).mp memQ).2
  exact Option.some.inj (parentP.symm.trans parentQ)

/-- The relations only depend on the process list and the links. -/
theorem congr (family : Family k children leaving) (list : k'.procList = k.procList)
    (idleproc : k'.idleproc = k.idleproc)
    (parent : ∀ p ∈ k.procList, (k'.procs p).parent = (k.procs p).parent)
    (optr : ∀ p ∈ k.procList, k'.older p = k.older p)
    (yptr : ∀ p ∈ k.procList, k'.younger p = k.younger p)
    (cptr : ∀ p, k.Known p ∨ leaving = some p → (k'.procs p).cptr = (k.procs p).cptr) :
    Family k' children leaving := by
  have listed : ∀ p, ∀ c ∈ children p, c ∈ k.procList :=
    fun p c mem => ((family.mem_iff p c).mp mem).1
  constructor
  · intro p c
    rw [family.mem_iff, list]
    constructor
    · rintro ⟨mem, eq⟩
      exact ⟨mem, (parent c mem).trans eq⟩
    · rintro ⟨mem, eq⟩
      exact ⟨mem, (parent c mem).symm.trans eq⟩
  · exact family.nodup
  · intro p known stays
    rw [Kernel.Known, list, idleproc] at known
    rw [cptr p (.inl known)]
    exact (family.linked p known stays).congr
      (fun c mem => optr c (listed p c mem)) fun c mem => yptr c (listed p c mem)
  · intro p leaves
    obtain ⟨before, linked⟩ := family.loose p leaves
    refine ⟨before, ?_⟩
    rw [cptr p (.inr leaves)]
    exact linked.congr (fun c mem => optr c (listed p c mem)) fun c mem => yptr c (listed p c mem)

/-- The children of a process are about to be moved. -/
theorem leave (family : Family k children none) (known : k.Known p) :
    Family k children (some p) where
  mem_iff := family.mem_iff
  nodup := family.nodup
  linked q knownQ _ := family.linked q knownQ nofun
  loose q leaves := by
    cases leaves
    exact ⟨none, family.linked p known nofun⟩

/-- All children of a process have been moved. -/
theorem left (family : Family k children (some p)) (empty : children p = []) :
    Family k children none where
  mem_iff := family.mem_iff
  nodup := family.nodup
  linked q knownQ _ := by
    by_cases own : q = p
    · subst q
      obtain ⟨before, linked⟩ := family.loose p rfl
      rw [empty] at linked ⊢
      exact linked
    · exact family.linked q knownQ (by simpa using Ne.symm own)
  loose q leaves := by contradiction

/-- A new process becomes the first child of `parent`. -/
theorem insert (family : Family k children none) {child parent : ProcPtr}
    (new : child ∉ k.procList) (parentKnown : k.Known parent)
    (childless : (k.procs child).cptr = none)
    (orphan : ∀ c ∈ k.procList, (k.procs c).parent ≠ some child)
    (list : k'.procList = child :: k.procList) (idleproc : k'.idleproc = k.idleproc)
    (childParent : (k'.procs child).parent = some parent)
    (oldParent : ∀ p ∈ k.procList, (k'.procs p).parent = (k.procs p).parent)
    (optr : ∀ p, k'.older p = if p = child then (k.procs parent).cptr else k.older p)
    (yptr : ∀ p, k'.younger p = if p = child then none
      else if (k.procs parent).cptr = some p then some child else k.younger p)
    (cptr : ∀ p, (k'.procs p).cptr = if p = parent then some child else (k.procs p).cptr) :
    Family k' (Function.update children parent (child :: children parent)) none := by
  have listed : ∀ p, ∀ c ∈ children p, c ∈ k.procList :=
    fun p c mem => ((family.mem_iff p c).mp mem).1
  have notChild : ∀ p, ∀ c ∈ children p, c ≠ child :=
    fun p c mem eq => new (eq ▸ listed p c mem)
  have first := (family.linked parent parentKnown (by simp)).first_eq
  constructor
  · intro p c
    rw [list, List.mem_cons]
    by_cases own : p = parent
    · subst p
      rw [Function.update_self, List.mem_cons, family.mem_iff]
      constructor
      · rintro (rfl | ⟨mem, eq⟩)
        · exact ⟨.inl rfl, childParent⟩
        · exact ⟨.inr mem, (oldParent c mem).trans eq⟩
      · rintro ⟨rfl | mem, eq⟩
        · exact .inl rfl
        · exact .inr ⟨mem, (oldParent c mem).symm.trans eq⟩
    · rw [Function.update_of_ne own, family.mem_iff]
      constructor
      · rintro ⟨mem, eq⟩
        exact ⟨.inr mem, (oldParent c mem).trans eq⟩
      · rintro ⟨rfl | mem, eq⟩
        · exact absurd (Option.some.inj (eq.symm.trans childParent)) own
        · exact ⟨mem, (oldParent c mem).symm.trans eq⟩
  · intro p
    rw [Function.update_apply]
    split
    · rename_i own
      exact List.nodup_cons.mpr ⟨fun mem => notChild parent child mem rfl, family.nodup parent⟩
    · exact family.nodup p
  · intro p known _
    have linked : Linked k.older k.younger none (children p) (k.procs p).cptr := by
      by_cases own : p = child
      · subst p
        have empty : children child = [] := by
          apply List.eq_nil_iff_forall_not_mem.mpr
          intro c mem
          exact orphan c (listed child c mem) ((family.mem_iff child c).mp mem).2
        rw [empty, childless]
        rfl
      · rw [Kernel.Known, list, List.mem_cons, idleproc, or_assoc] at known
        exact family.linked p (known.resolve_left own) (by simp)
    have sameOlder : ∀ c ∈ children p, k'.older c = k.older c :=
      fun c mem => by rw [optr, if_neg (notChild p c mem)]
    rw [cptr]
    by_cases own : p = parent
    · subst p
      rw [Function.update_self, if_pos rfl]
      apply linked.push (family.nodup parent)
      · rw [optr, if_pos rfl]
      · rw [yptr, if_pos rfl]
      · exact sameOlder
      · exact fun c mem => by rw [yptr, if_neg (notChild parent c mem)]
    · rw [Function.update_of_ne own, if_neg own]
      apply linked.congr sameOlder
      intro c mem
      rw [yptr, if_neg (notChild p c mem), if_neg]
      intro head
      rw [first] at head
      exact own (family.parent_unique mem (List.mem_of_head? head))
  · intro p leaves
    contradiction

/-- A process without children leaves the children of its parent. -/
theorem erase (family : Family k children none) {parent : ProcPtr} (mem : p ∈ k.procList)
    (parentKnown : k.Known parent) (parentEq : (k.procs p).parent = some parent)
    (listNodup : k.procList.Nodup) (list : k'.procList = k.procList.erase p)
    (idleproc : k'.idleproc = k.idleproc)
    (oldParent : ∀ q, (k'.procs q).parent = (k.procs q).parent)
    (optr : ∀ q, k'.older q = if k.younger p = some q then k.older p else k.older q)
    (yptr : ∀ q, k'.younger q = if k.older p = some q then k.younger p else k.younger q)
    (cptr : ∀ q, (k'.procs q).cptr =
      if k.younger p = none ∧ q = parent then k.older p else (k.procs q).cptr) :
    Family k' (Function.update children parent ((children parent).erase p)) none := by
  have own : p ∈ children parent := (family.mem_iff parent p).mpr ⟨mem, parentEq⟩
  have outside : ∀ q, ∀ c ∈ children q, none ≠ some c := fun _ _ _ eq => by contradiction
  have siblings := family.linked parent parentKnown (by simp)
  constructor
  · intro q c
    rw [list, listNodup.mem_erase_iff, oldParent]
    by_cases at_ : q = parent
    · subst q
      rw [Function.update_self, (family.nodup parent).mem_erase_iff, family.mem_iff, and_assoc]
    · rw [Function.update_of_ne at_, family.mem_iff]
      constructor
      · rintro ⟨memC, eq⟩
        refine ⟨⟨?_, memC⟩, eq⟩
        rintro rfl
        exact at_ (Option.some.inj (eq.symm.trans parentEq))
      · rintro ⟨⟨_, memC⟩, eq⟩
        exact ⟨memC, eq⟩
  · intro q
    rw [Function.update_apply]
    split
    · exact (family.nodup parent).erase p
    · exact family.nodup q
  · intro q known _
    have knownBefore : k.Known q := by
      rw [Kernel.Known, list, idleproc] at known
      exact known.imp_left List.mem_of_mem_erase
    have linked := family.linked q knownBefore (by simp)
    by_cases at_ : q = parent
    · subst q
      rw [Function.update_self]
      have firstIff := linked.first_eq_iff (family.nodup parent) (outside parent) own
      have next : ∀ c ∈ children parent, c ≠ p →
          k'.older c = if k.older c = some p then k.older p else k.older c := by
        intro c memC _
        rw [optr]
        have links := linked.next_eq_iff (family.nodup parent) (outside parent) memC own
        exact if_congr links.symm rfl rfl
      have prev : ∀ c ∈ children parent, c ≠ p →
          k'.younger c = if k.younger c = some p then k.younger p else k.younger c := by
        intro c memC _
        rw [yptr]
        have links := linked.next_eq_iff (family.nodup parent) (outside parent) own memC
        exact if_congr links rfl rfl
      have first : (k'.procs parent).cptr =
          if (k.procs parent).cptr = some p then k.older p else (k.procs parent).cptr := by
        rw [cptr]
        exact if_congr (by rw [firstIff]; simp) rfl rfl
      rw [first]
      exact linked.erase (family.nodup parent) own (outside parent) next prev
    · rw [Function.update_of_ne at_, cptr, if_neg (fun both => at_ both.2)]
      apply linked.congr
      · intro c memC
        rw [optr, if_neg]
        intro link
        rcases siblings.prev_mem own link with impossible | memParent
        · contradiction
        · exact at_ (family.parent_unique memC memParent)
      · intro c memC
        rw [yptr, if_neg]
        intro link
        exact at_ (family.parent_unique memC (siblings.next_mem own link))
  · intro q leaves
    contradiction

/-- One round of the loop of `__do_exit`: the first child of `p` becomes the first
child of `parent`. -/
theorem adopt (family : Family k children (some p)) {parent child : ProcPtr} {rest : List ProcPtr}
    (split : children p = child :: rest) (parentKnown : k.Known parent)
    (ne : parent ≠ p) (list : k'.procList = k.procList) (idleproc : k'.idleproc = k.idleproc)
    (newParent : ∀ q, (k'.procs q).parent = if q = child then some parent else (k.procs q).parent)
    (optr : ∀ q, k'.older q = if q = child then (k.procs parent).cptr else k.older q)
    (yptr : ∀ q, k'.younger q = if q = child then none
      else if (k.procs parent).cptr = some q then some child else k.younger q)
    (cptr : ∀ q, (k'.procs q).cptr = if q = parent then some child
      else if q = p then k.older child else (k.procs q).cptr) :
    Family k' (Function.update (Function.update children p rest) parent
      (child :: children parent)) (some p) := by
  have nodup := family.nodup p
  rw [split] at nodup
  obtain ⟨notMem, nodupRest⟩ := List.nodup_cons.mp nodup
  have memChild : child ∈ children p := split ▸ List.mem_cons_self
  have memRest : ∀ c ∈ rest, c ∈ children p := fun c mem => split ▸ List.mem_cons_of_mem _ mem
  have notChild : ∀ q, q ≠ p → ∀ c ∈ children q, c ≠ child :=
    fun q other c mem eq => other (family.parent_unique (eq ▸ mem) memChild)
  have first := (family.linked parent parentKnown (by simpa using ne.symm)).first_eq
  have notHead : ∀ q, q ≠ parent → ∀ c ∈ children q, (k.procs parent).cptr ≠ some c := by
    intro q other c mem head
    rw [first] at head
    exact other (family.parent_unique mem (List.mem_of_head? head))
  constructor
  · intro q c
    rw [list, newParent]
    by_cases atParent : q = parent
    · subst q
      rw [Function.update_self, List.mem_cons]
      by_cases isChild : c = child
      · subst c
        simp [((family.mem_iff p child).mp memChild).1]
      · simp [isChild, family.mem_iff]
    · rw [Function.update_of_ne atParent]
      by_cases atP : q = p
      · subst q
        rw [Function.update_self]
        by_cases isChild : c = child
        · subst c
          simp [notMem, Ne.symm atParent]
        · rw [if_neg isChild, ← family.mem_iff, split, List.mem_cons]
          simp [isChild]
      · rw [Function.update_of_ne atP]
        by_cases isChild : c = child
        · subst c
          have absent : child ∉ children q := fun mem => notChild q atP child mem rfl
          simp [absent, Ne.symm atParent]
        · rw [if_neg isChild, family.mem_iff]
  · intro q
    by_cases atParent : q = parent
    · subst q
      rw [Function.update_self]
      exact List.nodup_cons.mpr ⟨fun mem => notChild parent ne child mem rfl, family.nodup parent⟩
    · rw [Function.update_of_ne atParent]
      by_cases atP : q = p
      · subst q
        rw [Function.update_self]
        exact nodupRest
      · rw [Function.update_of_ne atP]
        exact family.nodup q
  · intro q known stays
    have atP : q ≠ p := by simpa [eq_comm] using stays
    rw [Kernel.Known, list, idleproc] at known
    have linked := family.linked q known stays
    have sameOlder : ∀ c ∈ children q, k'.older c = k.older c :=
      fun c mem => by rw [optr, if_neg (notChild q atP c mem)]
    rw [cptr]
    by_cases atParent : q = parent
    · subst q
      rw [Function.update_self, if_pos rfl]
      apply linked.push (family.nodup parent)
      · rw [optr, if_pos rfl]
      · rw [yptr, if_pos rfl]
      · exact sameOlder
      · exact fun c mem => by rw [yptr, if_neg (notChild parent atP c mem)]
    · rw [Function.update_of_ne atParent, Function.update_of_ne atP, if_neg atParent, if_neg atP]
      apply linked.congr sameOlder
      intro c mem
      rw [yptr, if_neg (notChild q atP c mem), if_neg (notHead q atParent c mem)]
  · intro q leaves
    cases leaves
    obtain ⟨before, linked⟩ := family.loose p rfl
    rw [split] at linked
    obtain ⟨_, _, restLinked⟩ := linked
    refine ⟨some child, ?_⟩
    rw [Function.update_of_ne ne.symm, Function.update_self, cptr, if_neg ne.symm, if_pos rfl]
    have other : ∀ c ∈ rest, c ≠ child := fun c mem eq => notMem (eq ▸ mem)
    apply restLinked.congr
    · exact fun c mem => by rw [optr, if_neg (other c mem)]
    · intro c mem
      rw [yptr, if_neg (other c mem), if_neg (notHead p ne.symm c (memRest c mem))]

/-! ## The functions that link processes -/

theorem setLinks (family : Family k children none) {child parent : ProcPtr}
    (new : child ∉ k.procList) (parentKnown : k.Known parent)
    (childless : (k.procs child).cptr = none)
    (orphan : ∀ c ∈ k.procList, (k.procs c).parent ≠ some child)
    (childParent : (k.procs child).parent = some parent) :
    Family (k.setLinks child parent)
      (Function.update children parent (child :: children parent)) none := by
  have head : (k.procs parent).cptr ≠ some child := by
    intro head
    rw [(family.linked parent parentKnown (by simp)).first_eq] at head
    exact new ((family.mem_iff parent child).mp (List.mem_of_head? head)).1
  have frame := k.setLinks_withProcs child parent k.procs
  apply family.insert new parentKnown childless orphan
  · exact (congrArg Kernel.procList frame :)
  · exact (congrArg Kernel.idleproc frame :)
  · rw [Kernel.setLinks_parent, childParent]
  · exact fun p _ => k.setLinks_parent child parent p
  · exact fun p => k.setLinks_optr child parent p
  · intro p
    rw [Kernel.younger, Kernel.setLinks_yptr]
    by_cases own : p = child
    · subst p
      rw [if_neg head, if_pos rfl, if_pos rfl]
    · rw [if_neg own, if_neg own]
      rfl
  · exact fun p => k.setLinks_cptr child parent p

theorem removeLinks (family : Family k children none) {parent : ProcPtr} (mem : p ∈ k.procList)
    (parentKnown : k.Known parent) (parentEq : (k.procs p).parent = some parent)
    (listNodup : k.procList.Nodup) :
    Family (k.removeLinks p) (Function.update children parent ((children parent).erase p)) none := by
  have own : p ∈ children parent := (family.mem_iff parent p).mpr ⟨mem, parentEq⟩
  have other : (k.procs p).optr ≠ some p :=
    (family.linked parent parentKnown (by simp)).next_ne (family.nodup parent) own
  have frame := k.removeLinks_withProcs p k.procs
  apply family.erase mem parentKnown parentEq listNodup
  · exact (congrArg Kernel.procList frame :)
  · exact (congrArg Kernel.idleproc frame :)
  · exact fun q => k.removeLinks_parent p q
  · exact fun q => Kernel.removeLinks_optr other q
  · exact fun q => k.removeLinks_yptr p q
  · exact fun q => Kernel.removeLinks_cptr other parentEq q

theorem adoptLinks (family : Family k children (some p)) {parent child : ProcPtr}
    {rest : List ProcPtr} (split : children p = child :: rest) (parentKnown : k.Known parent)
    (ne : parent ≠ p) :
    Family (k.adoptLinks p parent child) (Function.update (Function.update children p rest) parent
      (child :: children parent)) (some p) := by
  have memChild : child ∈ children p := split ▸ List.mem_cons_self
  have head : (k.procs parent).cptr ≠ some child := by
    intro head
    have linked := family.linked parent parentKnown (by simpa using ne.symm)
    rw [linked.first_eq] at head
    exact ne (family.parent_unique (List.mem_of_head? head) memChild)
  have frame := k.adoptLinks_withProcs p parent child k.procs
  apply family.adopt split parentKnown ne
  · exact (congrArg Kernel.procList frame :)
  · exact (congrArg Kernel.idleproc frame :)
  · exact fun q => k.adoptLinks_parent p parent child q
  · exact fun q => Kernel.adoptLinks_optr ne child q
  · intro q
    rw [Kernel.younger, Kernel.adoptLinks_yptr ne]
    by_cases own : q = child
    · subst q
      rw [if_neg head, if_pos rfl, if_pos rfl]
    · rw [if_neg own, if_neg own]
      rfl
  · exact fun q => k.adoptLinks_cptr p parent child q

end Family

end EdfKernel
