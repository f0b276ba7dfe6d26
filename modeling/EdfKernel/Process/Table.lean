import EdfKernel.Process.Family
import EdfKernel.Process.Pids
import EdfKernel.Process.Wakeups
import Mathlib.Data.List.Count

/-!
# The process table

The invariant of the process list, the hash chains, the links, the thread groups
and the counts of address spaces, and what the functions of `proc.c` do to it.
-/

namespace EdfKernel

open Library

/-- One element changes whether it is counted. -/
theorem countP_change {l : List ProcPtr} {p : ProcPtr} {f g : ProcPtr → Bool} (nodup : l.Nodup)
    (mem : p ∈ l) (others : ∀ q, q ≠ p → f q = g q) :
    l.countP f + (if g p then 1 else 0) = l.countP g + (if f p then 1 else 0) := by
  have perm := List.perm_cons_erase mem
  have same : (l.erase p).countP f = (l.erase p).countP g := by
    apply List.countP_congr
    intro q memQ
    rw [others q ((nodup.mem_erase_iff).mp memQ).1]
  rw [perm.countP_eq f, perm.countP_eq g, List.countP_cons, List.countP_cons, same]
  omega

namespace Kernel

/-- How many processes use an address space. -/
def mmUsers (k : Kernel) (mm : MmPtr) : Nat :=
  k.procList.countP fun p => decide ((k.procs p).mm = some mm)

end Kernel

/-- The thread groups are disjoint and consist of linked processes that have not
exited. -/
structure Groups (k : Kernel) : Prop where
  disjoint : k.threadGroups.flatten.Nodup
  member : ∀ p ∈ k.threadGroups.flatten,
    p ∈ k.procList ∧ (k.procs p).state ≠ .zombie ∧ p ≠ k.initproc

/-- An address space counts its users, and is torn down when it has none. -/
structure Spaces (k : Kernel) : Prop where
  users : ∀ mm, k.mmCount mm = k.mmUsers mm
  alive : ∀ mm, k.mmAlive mm = true ↔ k.mmCount mm ≠ 0
  zombie : ∀ p ∈ k.procList, (k.procs p).state = .zombie → (k.procs p).mm = none
  idle : (k.procs k.idleproc).mm = none

/-- The invariant of the process table. -/
structure Table (k : Kernel) : Prop where
  numbered : Numbered k
  family : ∃ children, Family k children none
  groups : Groups k
  spaces : Spaces k
  count : k.nrProcess = k.procList.length + 1
  parent : ∀ p ∈ k.procList, ∃ q, (k.procs p).parent = some q ∧ k.Known q ∧
    (k.procs q).state ≠ .zombie
  allocated : ∀ p, k.Known p → k.allocated p = true
  listed : ∀ p ∈ k.procList, p ≠ k.idleproc
  idle : (k.procs k.idleproc).state ≠ .zombie
  init : k.initproc ∈ k.procList
  initAlive : (k.procs k.initproc).state ≠ .zombie

/-- Two kernels with the same process list, hash chains and pids. -/
structure Kernel.SameLists (k k' : Kernel) : Prop where
  procList : k'.procList = k.procList := by rfl
  hashList : k'.hashList = k.hashList := by rfl
  nrProcess : k'.nrProcess = k.nrProcess := by rfl
  lastPid : k'.lastPid = k.lastPid := by rfl
  nextSafe : k'.nextSafe = k.nextSafe := by rfl
  idleproc : k'.idleproc = k.idleproc := by rfl
  initproc : k'.initproc = k.initproc := by rfl

theorem Kernel.SameLists.of_relations {k k' : Kernel} (same : k'.relations = k.relations) :
    k.SameLists k' where
  procList := (congrArg Kernel.procList same :)
  hashList := (congrArg Kernel.hashList same :)
  nrProcess := (congrArg Kernel.nrProcess same :)
  lastPid := (congrArg Kernel.lastPid same :)
  nextSafe := (congrArg Kernel.nextSafe same :)
  idleproc := (congrArg Kernel.idleproc same :)
  initproc := (congrArg Kernel.initproc same :)

/-- A process as the process table shows it, without its address space. -/
def ProcStruct.kinship (s : ProcStruct) : ProcStruct :=
  { s.relations with mm := none }

theorem ProcStruct.zombie_iff {s s' : ProcStruct} (same : s'.kinship = s.kinship) :
    s'.state = .zombie ↔ s.state = .zombie := by
  have kept : (if s'.state = .zombie then ProcState.zombie else .uninit) =
      if s.state = .zombie then .zombie else .uninit :=
    (congrArg ProcStruct.state same :)
  split at kept <;> split at kept <;> simp_all

theorem ProcStruct.kinship_of_relations {s s' : ProcStruct} (same : s'.relations = s.relations) :
    s'.kinship = s.kinship :=
  congrArg (fun s => { s with mm := none }) same

variable {k k' : Kernel} {p : ProcPtr}

theorem Groups.congr (groups : Groups k) (list : k'.procList = k.procList)
    (init : k'.initproc = k.initproc) (rings : k'.threadGroups = k.threadGroups)
    (state : ∀ p ∈ k.procList, (k'.procs p).state = .zombie → (k.procs p).state = .zombie) :
    Groups k' where
  disjoint := rings ▸ groups.disjoint
  member p mem := by
    rw [rings] at mem
    obtain ⟨listed, alive, notInit⟩ := groups.member p mem
    rw [list, init]
    exact ⟨listed, fun zombie => alive (state p listed zombie), notInit⟩

theorem Kernel.mmUsers_congr (list : k'.procList = k.procList)
    (mm : ∀ p ∈ k.procList, (k'.procs p).mm = (k.procs p).mm) (m : MmPtr) :
    k'.mmUsers m = k.mmUsers m := by
  unfold Kernel.mmUsers
  rw [list]
  apply List.countP_congr
  intro p mem
  rw [mm p mem]

theorem Spaces.congr (spaces : Spaces k) (list : k'.procList = k.procList)
    (idleproc : k'.idleproc = k.idleproc) (count : k'.mmCount = k.mmCount)
    (alive : k'.mmAlive = k.mmAlive) (mm : ∀ p, k.Known p → (k'.procs p).mm = (k.procs p).mm)
    (state : ∀ p ∈ k.procList, (k'.procs p).state = .zombie → (k.procs p).state = .zombie) :
    Spaces k' where
  users m := by
    rw [count, Kernel.mmUsers_congr list fun p mem => mm p (.inl mem)]
    exact spaces.users m
  alive m := by
    rw [count, alive]
    exact spaces.alive m
  zombie p mem isZombie := by
    rw [list] at mem
    rw [mm p (.inl mem)]
    exact spaces.zombie p mem (state p mem isZombie)
  idle := by
    rw [idleproc, mm _ (.inr rfl)]
    exact spaces.idle

/-- One linked process changes its address space. -/
theorem Kernel.mmUsers_change (nodup : k.procList.Nodup) (mem : p ∈ k.procList)
    (list : k'.procList = k.procList) (others : ∀ q, q ≠ p → (k'.procs q).mm = (k.procs q).mm)
    (m : MmPtr) : k'.mmUsers m + (if (k.procs p).mm = some m then 1 else 0) =
      k.mmUsers m + if (k'.procs p).mm = some m then 1 else 0 := by
  have same : ∀ q, q ≠ p → decide ((k'.procs q).mm = some m) = decide ((k.procs q).mm = some m) :=
    fun q other => by rw [others q other]
  have change := countP_change nodup mem same
  simp only [decide_eq_true_eq] at change
  unfold Kernel.mmUsers
  rw [list]
  exact change

namespace Table

/-- The lists and links only depend on what the table shows of the linked processes
and the idle process. -/
theorem update (table : Table k) (same : k.SameLists k')
    (procs : ∀ p, k.Known p → (k'.procs p).kinship = (k.procs p).kinship)
    (allocated : ∀ p, k.Known p → k'.allocated p = true) (groups : Groups k')
    (spaces : Spaces k') : Table k' := by
  obtain ⟨children, family⟩ := table.family
  have zombie : ∀ p, k.Known p → ((k'.procs p).state = .zombie ↔ (k.procs p).state = .zombie) :=
    fun p known => ProcStruct.zombie_iff (procs p known)
  have known : ∀ p, k'.Known p ↔ k.Known p := by
    intro p
    rw [Kernel.Known, Kernel.Known, same.procList, same.idleproc]
  constructor
  · exact table.numbered.congr same.procList same.hashList same.lastPid same.nextSafe
      fun p mem => (congrArg ProcStruct.pid (procs p (.inl mem)) :)
  · refine ⟨children, family.congr same.procList same.idleproc ?_ ?_ ?_ ?_⟩
    · exact fun p mem => (congrArg ProcStruct.parent (procs p (.inl mem)) :)
    · exact fun p mem => (congrArg ProcStruct.optr (procs p (.inl mem)) :)
    · exact fun p mem => (congrArg ProcStruct.yptr (procs p (.inl mem)) :)
    · rintro p (known | leaves)
      · exact (congrArg ProcStruct.cptr (procs p known) :)
      · contradiction
  · exact groups
  · exact spaces
  · rw [same.nrProcess, same.procList]
    exact table.count
  · intro p mem
    rw [same.procList] at mem
    obtain ⟨q, parent, knownQ, alive⟩ := table.parent p mem
    refine ⟨q, ?_, (known q).mpr knownQ, fun isZombie => alive ((zombie q knownQ).mp isZombie)⟩
    rw [← parent]
    exact (congrArg ProcStruct.parent (procs p (.inl mem)) :)
  · exact fun p knownP => allocated p ((known p).mp knownP)
  · rw [same.procList, same.idleproc]
    exact table.listed
  · rw [same.idleproc]
    exact fun isZombie => table.idle ((zombie _ (.inr rfl)).mp isZombie)
  · rw [same.initproc, same.procList]
    exact table.init
  · rw [same.initproc]
    exact fun isZombie => table.initAlive ((zombie _ (.inl table.init)).mp isZombie)

/-- The table only depends on the lists, on the counts, and on what it shows of the
linked processes and the idle process. -/
theorem congr (table : Table k) (same : k.SameLists k')
    (procs : ∀ p, k.Known p → (k'.procs p).relations = (k.procs p).relations)
    (allocated : ∀ p, k.Known p → k'.allocated p = true)
    (rings : k'.threadGroups = k.threadGroups := by rfl)
    (mmCount : k'.mmCount = k.mmCount := by rfl)
    (mmAlive : k'.mmAlive = k.mmAlive := by rfl) : Table k' := by
  have kinship : ∀ p, k.Known p → (k'.procs p).kinship = (k.procs p).kinship :=
    fun p known => ProcStruct.kinship_of_relations (procs p known)
  apply table.update same kinship allocated
  · exact table.groups.congr same.procList same.initproc rings
      fun p mem => (ProcStruct.zombie_iff (kinship p (.inl mem))).mp
  · exact table.spaces.congr same.procList same.idleproc mmCount mmAlive
      (fun p known => (congrArg ProcStruct.mm (procs p known) :))
      fun p mem => (ProcStruct.zombie_iff (kinship p (.inl mem))).mp

theorem of_relations (table : Table k) (same : k'.relations = k.relations) : Table k' := by
  have allocated : k'.allocated = k.allocated := (congrArg Kernel.allocated same :)
  refine table.congr (.of_relations same) ?_ ?_ ?_ ?_ ?_
  · exact fun p _ => (congrArg (fun m => m.procs p) same :)
  · rw [allocated]
    exact table.allocated
  · exact (congrArg Kernel.threadGroups same :)
  · exact (congrArg Kernel.mmCount same :)
  · exact (congrArg Kernel.mmAlive same :)

theorem known_parent (table : Table k) {q : ProcPtr} (mem : p ∈ k.procList)
    (parent : (k.procs p).parent = some q) : k.Known q ∧ (k.procs q).state ≠ .zombie := by
  obtain ⟨q', parent', known, alive⟩ := table.parent p mem
  cases parent'.symm.trans parent
  exact ⟨known, alive⟩

/-- A descriptor that is not linked is not in the table. -/
theorem withChild (table : Table k) {kind : ForkKind} {child : ProcPtr} {timeSlice rest : Int}
    (free : k.allocated child = false) : Table (k.withChild kind child timeSlice rest) := by
  have other : ∀ p, k.Known p → p ≠ child := by
    rintro p known rfl
    rw [table.allocated p known] at free
    contradiction
  refine table.congr {} ?_ ?_
  · intro p known
    rw [Kernel.withChild, Kernel.modify_procs_of_ne _ _ _ (other p known)]
    exact Kernel.modify_field _ k.current _ ProcStruct.relations rfl p
  · intro p known
    rw [Kernel.withChild_allocated, Function.update_of_ne (other p known)]
    exact table.allocated p known

theorem freeProc (table : Table k) {child : ProcPtr} (unknown : ¬k.Known child) :
    Table (k.freeProc child) := by
  refine table.congr {} ?_ ?_
  · exact fun _ _ => rfl
  · intro p known
    have other : p ≠ child := fun own => unknown (own ▸ known)
    exact (Function.update_of_ne other ..).trans (table.allocated p known)

end Table

/-! ## Address spaces -/

namespace Kernel

/-- The kernel with a new address space for one process. -/
def withMm (k : Kernel) (p : ProcPtr) (mm : MmPtr) : Kernel :=
  { k with
    mmAlive := Function.update k.mmAlive mm true
    mmCount := Function.update k.mmCount mm (0 + 1) }.modify p fun s => { s with mm := some mm }

theorem dropMm_eq (k : Kernel) (p : ProcPtr) :
    k.dropMm p = { k with
      procs := (k.dropMm p).procs
      mmCount := (k.dropMm p).mmCount
      mmAlive := (k.dropMm p).mmAlive } := by
  unfold dropMm
  split
  · rfl
  · simp only
    split <;> rfl

theorem dropMm_kinship (k : Kernel) (p q : ProcPtr) :
    ((k.dropMm p).procs q).kinship = (k.procs q).kinship := by
  unfold dropMm
  split
  · rfl
  · refine field_modify ProcStruct.kinship ?_ rfl
    simp only
    split <;> rfl

theorem dropMm_mm (k : Kernel) (p q : ProcPtr) :
    ((k.dropMm p).procs q).mm = if q = p then none else (k.procs q).mm := by
  unfold dropMm
  split
  · rename_i absent
    by_cases own : q = p
    · rw [if_pos own, own, absent]
    · rw [if_neg own]
  · simp only
    rw [modify_procs]
    split
    · rfl
    · split <;> rfl

theorem dropMm_mmCount (k : Kernel) (p : ProcPtr) (m : MmPtr) :
    (k.dropMm p).mmCount m = k.mmCount m - if (k.procs p).mm = some m then 1 else 0 := by
  unfold dropMm
  split
  · rename_i absent
    simp [absent]
  · rename_i mm present
    have count : ∀ m, Function.update k.mmCount mm (k.mmCount mm - 1) m =
        k.mmCount m - if (k.procs p).mm = some m then 1 else 0 := by
      intro m
      by_cases own : m = mm
      · subst m
        simp [present]
      · rw [Function.update_of_ne own, present, if_neg (by simpa using Ne.symm own)]
        omega
    simp only [modify_mmCount]
    split <;> exact count m

theorem dropMm_mmAlive (k : Kernel) (p : ProcPtr) (m : MmPtr) :
    (k.dropMm p).mmAlive m =
      if (k.procs p).mm = some m ∧ k.mmCount m = 1 then false else k.mmAlive m := by
  unfold dropMm
  split
  · rename_i absent
    simp [absent]
  · rename_i mm present
    simp only [modify_mmAlive, present, Option.some.injEq]
    by_cases own : mm = m
    · subst m
      by_cases last : k.mmCount mm = 1
      · simp [last]
      · have notLast : ¬k.mmCount mm - 1 = 0 := by omega
        simp [last, notLast]
    · split
      · rw [if_neg (fun both => own both.1)]
        exact Function.update_of_ne (Ne.symm own) ..
      · rw [if_neg (fun both => own both.1)]

end Kernel

namespace Table

/-- A linked process gives up its address space. -/
theorem dropMm (table : Table k) (mem : p ∈ k.procList) : Table (k.dropMm p) := by
  have frame := k.dropMm_eq p
  have list : (k.dropMm p).procList = k.procList := (congrArg Kernel.procList frame :)
  have idleproc : (k.dropMm p).idleproc = k.idleproc := (congrArg Kernel.idleproc frame :)
  have zombie : ∀ q, ((k.dropMm p).procs q).state = .zombie → (k.procs q).state = .zombie :=
    fun q => (ProcStruct.zombie_iff (k.dropMm_kinship p q)).mp
  have users : ∀ m, (k.mmUsers m : Int) =
      (k.dropMm p).mmUsers m + if (k.procs p).mm = some m then 1 else 0 := by
    intro m
    have change := Kernel.mmUsers_change table.numbered.nodup mem list
      (fun q other => by rw [k.dropMm_mm, if_neg other]) m
    have gone : ¬(none : Option MmPtr) = some m := nofun
    rw [k.dropMm_mm, if_pos rfl, if_neg gone] at change
    by_cases uses : (k.procs p).mm = some m
    · rw [if_pos uses] at change ⊢
      omega
    · rw [if_neg uses] at change ⊢
      omega
  refine table.update ⟨list, (congrArg Kernel.hashList frame :),
    (congrArg Kernel.nrProcess frame :), (congrArg Kernel.lastPid frame :),
    (congrArg Kernel.nextSafe frame :), idleproc, (congrArg Kernel.initproc frame :)⟩
    (fun q _ => k.dropMm_kinship p q) ?_ ?_ ?_
  · have allocated : (k.dropMm p).allocated = k.allocated := (congrArg Kernel.allocated frame :)
    rw [allocated]
    exact table.allocated
  · exact table.groups.congr list (congrArg Kernel.initproc frame :)
      (congrArg Kernel.threadGroups frame :) fun q _ => zombie q
  · constructor
    · intro m
      have before := table.spaces.users m
      have change := users m
      rw [k.dropMm_mmCount]
      omega
    · intro m
      have change := users m
      have before := table.spaces.users m
      rw [k.dropMm_mmCount, k.dropMm_mmAlive]
      by_cases own : (k.procs p).mm = some m
      · rw [if_pos own] at change
        by_cases last : k.mmCount m = 1
        · simp [own, last]
        · have alive := table.spaces.alive m
          rw [if_neg (fun both => last both.2), if_pos own, alive]
          omega
      · rw [if_neg (fun both => own both.1), if_neg own, Int.sub_zero]
        exact table.spaces.alive m
    · intro q memQ isZombie
      rw [k.dropMm_mm]
      split
      · rfl
      · rw [list] at memQ
        exact table.spaces.zombie q memQ (zombie q isZombie)
    · rw [k.dropMm_mm, idleproc]
      split
      · rfl
      · exact table.spaces.idle

/-- A process leaves its thread group. -/
theorem deThread (table : Table k) (p : ProcPtr) : Table (k.deThread p) := by
  refine table.update {} (fun _ _ => rfl) table.allocated ?_ ?_
  · constructor
    · exact Rings.leave_nodup table.groups.disjoint
    · exact fun q mem => table.groups.member q (Rings.leave_sublist.subset mem)
  · exact table.spaces.congr rfl rfl rfl rfl (fun _ _ => rfl) fun _ _ => id

/-- A process without an address space gets a new one. -/
theorem withMm (table : Table k) {mm : MmPtr} (mem : p ∈ k.procList)
    (alive : (k.procs p).state ≠ .zombie) (spaceless : (k.procs p).mm = none)
    (fresh : k.mmAlive mm = false) : Table (k.withMm p mm) := by
  have unused : k.mmCount mm = 0 := by
    by_contra used
    rw [(table.spaces.alive mm).mpr used] at fresh
    contradiction
  have kinship : ∀ q, ((k.withMm p mm).procs q).kinship = (k.procs q).kinship :=
    fun _ => Kernel.field_modify ProcStruct.kinship rfl rfl
  have zombie : ∀ q, ((k.withMm p mm).procs q).state = .zombie → (k.procs q).state = .zombie :=
    fun q => (ProcStruct.zombie_iff (kinship q)).mp
  have others : ∀ q, q ≠ p → ((k.withMm p mm).procs q).mm = (k.procs q).mm :=
    fun q other => congrArg ProcStruct.mm (Kernel.modify_procs_of_ne _ _ _ other)
  have own : ((k.withMm p mm).procs p).mm = some mm :=
    congrArg ProcStruct.mm (Kernel.modify_procs_self _ _ _)
  refine table.update {} (fun q _ => kinship q) table.allocated ?_ ?_
  · exact table.groups.congr rfl rfl rfl fun q _ => zombie q
  · constructor
    · intro m
      have list : (k.withMm p mm).procList = k.procList := rfl
      have change := Kernel.mmUsers_change table.numbered.nodup mem list others m
      rw [spaceless, own, if_neg nofun] at change
      have before := table.spaces.users m
      change Function.update k.mmCount mm (0 + 1) m = _
      by_cases isNew : m = mm
      · subst m
        rw [if_pos rfl] at change
        rw [Function.update_self]
        omega
      · rw [if_neg (by simpa using Ne.symm isNew)] at change
        rw [Function.update_of_ne isNew]
        omega
    · intro m
      change Function.update k.mmAlive mm true m = true ↔ Function.update k.mmCount mm (0 + 1) m ≠ 0
      by_cases isNew : m = mm
      · subst m
        simp
      · rw [Function.update_of_ne isNew, Function.update_of_ne isNew]
        exact table.spaces.alive m
    · intro q memQ isZombie
      by_cases isOwn : q = p
      · subst q
        exact absurd (zombie p isZombie) alive
      · rw [others q isOwn]
        exact table.spaces.zombie q memQ (zombie q isZombie)
    · rw [others]
      · exact table.spaces.idle
      · exact (table.listed p mem).symm

theorem execFinish (table : Table k) {mm : MmPtr} (mem : k.current ∈ k.procList)
    (alive : (k.procs k.current).state ≠ .zombie) (loading : (k.procs k.current).mm = none)
    (loaded : k.execFinish mm = .ok k') : Table k' := by
  unfold Kernel.execFinish at loaded
  split at loaded
  · contradiction
  · rename_i fresh
    cases loaded
    have withMm := table.withMm mem alive loading (by simpa using fresh)
    exact (withMm.deThread k.current).of_relations (Kernel.relations_modify rfl rfl)

end Table

/-! ## do_fork -/

namespace Kernel

/-- What `copy_mm` does: the child uses `used`, which is the address space of the
current process or a new one. -/
structure CopiesMm (k : Kernel) (child : ProcPtr) (used : Option MmPtr) (k' : Kernel) : Prop where
  frame : k' = { k with procs := k'.procs, mmCount := k'.mmCount, mmAlive := k'.mmAlive }
  kinship : ∀ q, (k'.procs q).kinship = (k.procs q).kinship
  mm : ∀ q, (k'.procs q).mm = if q = child then used else (k.procs q).mm
  mmCount : ∀ m, k'.mmCount m = k.mmCount m + if used = some m then 1 else 0
  mmAlive : ∀ m, k'.mmAlive m = true ↔ k.mmAlive m = true ∨ used = some m

theorem copyMm_spec {flags : UInt32} {child : ProcPtr} {mm : MmPtr}
    (spaceless : (k.procs child).mm = none) (spaces : Spaces k) (mem : k.current ∈ k.procList)
    (copied : k.copyMm flags child mm = .ok k') : ∃ used, k.CopiesMm child used k' := by
  unfold copyMm at copied
  split at copied
  · cases copied
    refine ⟨none, rfl, fun _ => rfl, fun q => ?_, fun m => ?_, fun m => ?_⟩
    · split
      · rename_i own
        rw [own, spaceless]
      · rfl
    · simp
    · simp
  · rename_i oldmm present
    have mmEq : ∀ (used : MmPtr) (m : Kernel) (q : ProcPtr), m.procs = k.procs →
        ((m.modify child fun s => { s with mm := some used }).procs q).mm =
          if q = child then some used else (k.procs q).mm := by
      intro used m q same
      rw [modify_procs, same]
      split <;> rfl
    have counted : 0 < k.mmUsers oldmm :=
      List.countP_pos_iff.mpr ⟨k.current, mem, by simpa using present⟩
    have usedOld := spaces.users oldmm
    split at copied
    · cases copied
      refine ⟨some oldmm, rfl, fun q => field_modify ProcStruct.kinship rfl rfl,
        fun q => mmEq oldmm _ q rfl, fun m => ?_, fun m => ?_⟩
      · change Function.update k.mmCount oldmm (k.mmCount oldmm + 1) m = _
        by_cases own : m = oldmm
        · subst m
          simp
        · rw [Function.update_of_ne own, if_neg (by simpa using Ne.symm own), Int.add_zero]
      · constructor
        · exact .inl
        · rintro (alive | own)
          · exact alive
          · cases own
            apply (spaces.alive oldmm).mpr
            omega
    · split at copied
      · contradiction
      · rename_i _ fresh
        have unused : k.mmCount mm = 0 := by
          by_contra inUse
          exact fresh ((spaces.alive mm).mpr inUse)
        cases copied
        refine ⟨some mm, rfl, fun q => field_modify ProcStruct.kinship rfl rfl,
          fun q => mmEq mm _ q rfl, fun m => ?_, fun m => ?_⟩
        · change Function.update k.mmCount mm (0 + 1) m = _
          by_cases own : m = mm
          · subst m
            simp [unused]
          · rw [Function.update_of_ne own, if_neg (by simpa using Ne.symm own), Int.add_zero]
        · change Function.update k.mmAlive mm true m = true ↔ _
          by_cases own : m = mm
          · subst m
            simp
          · rw [Function.update_of_ne own]
            simp [Ne.symm own]

/-- `do_fork` once it has a pid: the child with its pid in its hash chain. -/
def hashChild (k : Kernel) (child : ProcPtr) (pid nextSafe : Int) : Kernel :=
  ({ k with lastPid := pid, nextSafe := nextSafe }.modify child fun s =>
    { s with pid := pid }).hashProc child

/-- `do_fork` from its `get_pid` to the end of its section with interrupts disabled. -/
def linkChild (k : Kernel) (flags : UInt32) (child : ProcPtr) (pid nextSafe : Int) : Kernel :=
  let k := (k.hashChild child pid nextSafe).setLinks child k.current
  if flags &&& cloneThread ≠ 0 then k.joinThread k.current child else k

theorem forkLink_eq_ok {flags : UInt32} {child : ProcPtr} {mm : MmPtr}
    (linked : k.forkLink flags child mm = .ok k') :
    ∃ m pid nextSafe, k.copyMm flags child mm = .ok m ∧
      nextPid (m.procList.map fun p => (m.procs p).pid) m.lastPid m.nextSafe =
        .ok (pid, nextSafe) ∧ k' = m.linkChild flags child pid nextSafe := by
  obtain ⟨m, copied, rest⟩ := bind_eq_ok_iff.mp linked
  obtain ⟨⟨pid, got⟩, get, result⟩ := bind_eq_ok_iff.mp rest
  obtain ⟨⟨lastPid, nextSafe⟩, next, stored⟩ := bind_eq_ok_iff.mp get
  cases stored
  cases result
  exact ⟨m, pid, nextSafe, copied, next, rfl⟩

theorem hashProc_procs (k : Kernel) (p : ProcPtr) : (k.hashProc p).procs = k.procs :=
  rfl

section HashChild

variable (k : Kernel) (child : ProcPtr) (pid nextSafe : Int) (q : ProcPtr)

theorem hashChild_pid : ((k.hashChild child pid nextSafe).procs q).pid =
    if q = child then pid else (k.procs q).pid := by
  rw [hashChild, hashProc_procs, modify_procs]
  split <;> rfl

/-- The descriptors after `hashChild` differ in the pid of the child only. -/
theorem hashChild_field {α : Type} (field : ProcStruct → α)
    (same : ∀ s : ProcStruct, field { s with pid := pid } = field s) :
    field ((k.hashChild child pid nextSafe).procs q) = field (k.procs q) := by
  rw [hashChild, hashProc_procs]
  exact field_modify field rfl (same _)

theorem hashChild_hashList : (k.hashChild child pid nextSafe).hashList =
    Function.update k.hashList (pidHashfn pid) (child :: k.hashList (pidHashfn pid)) := by
  simp [hashChild, hashProc]

end HashChild

section LinkChild

variable (k : Kernel) (flags : UInt32) (child : ProcPtr) (pid nextSafe : Int)

theorem linkChild_procs : (k.linkChild flags child pid nextSafe).procs =
    ((k.hashChild child pid nextSafe).setLinks child k.current).procs := by
  simp only [linkChild]
  split <;> rfl

/-- The lists and counts after `linkChild`. -/
theorem linkChild_withProcs (procs : ProcPtr → ProcStruct) :
    (k.linkChild flags child pid nextSafe).withProcs procs =
      { k.withProcs procs with
        procList := child :: k.procList
        hashList := Function.update k.hashList (pidHashfn pid)
          (child :: k.hashList (pidHashfn pid))
        threadGroups :=
          if flags &&& cloneThread ≠ 0 then Rings.join k.current child k.threadGroups
          else k.threadGroups
        nrProcess := k.nrProcess + 1
        lastPid := pid
        nextSafe := nextSafe } := by
  have links : ((k.hashChild child pid nextSafe).setLinks child k.current).withProcs procs =
      { k.withProcs procs with
        procList := child :: k.procList
        hashList := Function.update k.hashList (pidHashfn pid)
          (child :: k.hashList (pidHashfn pid))
        nrProcess := k.nrProcess + 1
        lastPid := pid
        nextSafe := nextSafe } := by
    rw [setLinks_withProcs, ← hashChild_hashList]
    rfl
  have current : ((k.hashChild child pid nextSafe).setLinks child k.current).current = k.current :=
    (congrArg Kernel.current links :)
  have joined : ∀ (m : Kernel) (head : ProcPtr),
      (m.joinThread head child).withProcs procs = (m.withProcs procs).joinThread head child :=
    fun _ _ => rfl
  simp only [linkChild]
  split
  · rw [current, joined, links]
    rfl
  · rw [links]
    rfl

end LinkChild

end Kernel

/-- The new process of `do_fork` is ready to be linked. -/
structure Kernel.Linkable (k : Kernel) (child : ProcPtr) : Prop where
  current : k.current ∈ k.procList
  alive : (k.procs k.current).state ≠ .zombie
  new : ¬k.Known child
  allocated : k.allocated child = true
  parent : (k.procs child).parent = some k.current
  living : (k.procs child).state ≠ .zombie
  childless : (k.procs child).cptr = none
  spaceless : (k.procs child).mm = none

namespace Table

variable {m : Kernel} {child : ProcPtr} {used : Option MmPtr} {flags : UInt32}
  {pid nextSafe : Int}

section LinkChild

variable (table : Table k) (linkable : k.Linkable child) (copied : k.CopiesMm child used m)

include copied

theorem linkChild_tables (flags : UInt32) (pid nextSafe : Int) (procs : ProcPtr → ProcStruct) :
    (m.linkChild flags child pid nextSafe).withProcs procs =
      { k.withProcs procs with
        procList := child :: k.procList
        hashList := Function.update k.hashList (pidHashfn pid)
          (child :: k.hashList (pidHashfn pid))
        threadGroups :=
          if flags &&& cloneThread ≠ 0 then Rings.join k.current child k.threadGroups
          else k.threadGroups
        nrProcess := k.nrProcess + 1
        lastPid := pid
        nextSafe := nextSafe
        mmCount := m.mmCount
        mmAlive := m.mmAlive } := by
  have list : m.procList = k.procList := (congrArg Kernel.procList copied.frame :)
  have hash : m.hashList = k.hashList := (congrArg Kernel.hashList copied.frame :)
  have rings : m.threadGroups = k.threadGroups := (congrArg Kernel.threadGroups copied.frame :)
  have count : m.nrProcess = k.nrProcess := (congrArg Kernel.nrProcess copied.frame :)
  have current : m.current = k.current := (congrArg Kernel.current copied.frame :)
  have rest : m.withProcs procs =
      { k.withProcs procs with mmCount := m.mmCount, mmAlive := m.mmAlive } :=
    congrArg (fun m => m.withProcs procs) copied.frame
  rw [Kernel.linkChild_withProcs, list, hash, rings, count, current, rest]

theorem linkChild_pid (q : ProcPtr) : ((m.linkChild flags child pid nextSafe).procs q).pid =
    if q = child then pid else (k.procs q).pid := by
  rw [Kernel.linkChild_procs]
  refine (congrArg ProcStruct.pid (Kernel.setLinks_unrelated _ _ _ _) :).trans ?_
  refine (Kernel.hashChild_pid _ _ _ _ _).trans ?_
  have same : (m.procs q).pid = (k.procs q).pid := (congrArg ProcStruct.pid (copied.kinship q) :)
  rw [same]

theorem linkChild_parent (q : ProcPtr) :
    ((m.linkChild flags child pid nextSafe).procs q).parent = (k.procs q).parent := by
  rw [Kernel.linkChild_procs, Kernel.setLinks_parent]
  refine (Kernel.hashChild_field _ _ _ _ _ ProcStruct.parent fun _ => rfl).trans ?_
  exact (congrArg ProcStruct.parent (copied.kinship q) :)

theorem linkChild_zombie (q : ProcPtr) :
    ((m.linkChild flags child pid nextSafe).procs q).state = .zombie ↔
      (k.procs q).state = .zombie := by
  rw [Kernel.linkChild_procs]
  have links : (((m.hashChild child pid nextSafe).setLinks child m.current).procs q).state =
      ((m.hashChild child pid nextSafe).procs q).state :=
    (congrArg ProcStruct.state (Kernel.setLinks_unrelated _ _ _ _) :)
  rw [links, m.hashChild_field child pid nextSafe q ProcStruct.state fun _ => rfl]
  exact ProcStruct.zombie_iff (copied.kinship q)

theorem linkChild_mm (q : ProcPtr) : ((m.linkChild flags child pid nextSafe).procs q).mm =
    if q = child then used else (k.procs q).mm := by
  rw [Kernel.linkChild_procs]
  refine (congrArg ProcStruct.mm (Kernel.setLinks_unrelated _ _ _ _) :).trans ?_
  refine (Kernel.hashChild_field _ _ _ _ _ ProcStruct.mm fun _ => rfl).trans ?_
  exact copied.mm q

include table linkable

theorem linkChild_groups (thread : flags &&& cloneThread ≠ 0 → k.current ≠ k.initproc) :
    Groups (m.linkChild flags child pid nextSafe) := by
  have frame := linkChild_tables copied flags pid nextSafe k.procs
  have list : (m.linkChild flags child pid nextSafe).procList = child :: k.procList :=
    (congrArg Kernel.procList frame :)
  have initproc : (m.linkChild flags child pid nextSafe).initproc = k.initproc :=
    (congrArg Kernel.initproc frame :)
  have groups : (m.linkChild flags child pid nextSafe).threadGroups =
      if flags &&& cloneThread ≠ 0 then Rings.join k.current child k.threadGroups
      else k.threadGroups :=
    (congrArg Kernel.threadGroups frame :)
  have old : ∀ p ∈ k.threadGroups.flatten, p ∈ child :: k.procList ∧
      ((m.linkChild flags child pid nextSafe).procs p).state ≠ .zombie ∧ p ≠ k.initproc := by
    intro p mem
    obtain ⟨listed, alive, notInit⟩ := table.groups.member p mem
    exact ⟨List.mem_cons_of_mem _ listed, fun zombie =>
      alive ((linkChild_zombie copied p).mp zombie), notInit⟩
  have apart : child ∉ k.threadGroups.flatten :=
    fun mem => linkable.new (.inl (table.groups.member child mem).1)
  have notCurrent : child ≠ k.current := by
    rintro rfl
    exact linkable.new (.inl linkable.current)
  constructor
  · rw [groups]
    split
    · exact Rings.join_nodup table.groups.disjoint apart notCurrent
    · exact table.groups.disjoint
  · rw [groups, list, initproc]
    split
    · rename_i threads
      intro p mem
      rcases Rings.mem_flatten_join.mp mem with rfl | rfl | inGroup
      · refine ⟨List.mem_cons_self, fun zombie =>
          linkable.living ((linkChild_zombie copied p).mp zombie), ?_⟩
        rintro rfl
        exact linkable.new (.inl table.init)
      · exact ⟨List.mem_cons_of_mem _ linkable.current, fun zombie =>
          linkable.alive ((linkChild_zombie copied _).mp zombie), thread threads⟩
      · exact old p inGroup
    · exact old

theorem linkChild_spaces : Spaces (m.linkChild flags child pid nextSafe) := by
  have frame := linkChild_tables copied flags pid nextSafe k.procs
  have list : (m.linkChild flags child pid nextSafe).procList = child :: k.procList :=
    (congrArg Kernel.procList frame :)
  have idleproc : (m.linkChild flags child pid nextSafe).idleproc = k.idleproc :=
    (congrArg Kernel.idleproc frame :)
  have mmCount : (m.linkChild flags child pid nextSafe).mmCount = m.mmCount :=
    (congrArg Kernel.mmCount frame :)
  have mmAlive : (m.linkChild flags child pid nextSafe).mmAlive = m.mmAlive :=
    (congrArg Kernel.mmAlive frame :)
  have old : ∀ p ∈ k.procList, p ≠ child := by
    rintro p mem rfl
    exact linkable.new (.inl mem)
  have users : ∀ mm, (m.linkChild flags child pid nextSafe).mmUsers mm =
      k.mmUsers mm + if used = some mm then 1 else 0 := by
    intro mm
    unfold Kernel.mmUsers
    have same : ∀ p ∈ k.procList,
        decide (((m.linkChild flags child pid nextSafe).procs p).mm = some mm) =
          decide ((k.procs p).mm = some mm) :=
      fun p mem => by rw [linkChild_mm copied, if_neg (old p mem)]
    rw [list, List.countP_cons, linkChild_mm copied, if_pos rfl,
      List.countP_congr fun p mem => by rw [same p mem]]
    simp
  constructor
  · intro mm
    have before := table.spaces.users mm
    rw [users, mmCount, copied.mmCount]
    split <;> omega
  · intro mm
    have before := table.spaces.users mm
    rw [mmAlive, mmCount, copied.mmCount, copied.mmAlive, table.spaces.alive]
    split
    · rename_i own
      simp only [own, or_true, true_iff]
      omega
    · rename_i other
      simp [other]
  · intro p mem zombie
    have wasZombie := (linkChild_zombie copied p).mp zombie
    rw [list, List.mem_cons] at mem
    rcases mem with rfl | listed
    · exact absurd wasZombie linkable.living
    · rw [linkChild_mm copied, if_neg (old p listed)]
      exact table.spaces.zombie p listed wasZombie
  · have notIdle : k.idleproc ≠ child := fun own => linkable.new (.inr own.symm)
    rw [idleproc, linkChild_mm copied, if_neg notIdle]
    exact table.spaces.idle

theorem linkChild_family : ∃ children,
    Family (m.linkChild flags child pid nextSafe) children none := by
  obtain ⟨children, family⟩ := table.family
  have list : (m.hashChild child pid nextSafe).procList = k.procList :=
    (congrArg Kernel.procList copied.frame :)
  have idleproc : (m.hashChild child pid nextSafe).idleproc = k.idleproc :=
    (congrArg Kernel.idleproc copied.frame :)
  have current : m.current = k.current := (congrArg Kernel.current copied.frame :)
  have kept : ∀ (field : ProcStruct → Option ProcPtr) (q : ProcPtr),
      (∀ s : ProcStruct, field { s with pid := pid } = field s) →
      field (m.procs q) = field (k.procs q) →
      field ((m.hashChild child pid nextSafe).procs q) = field (k.procs q) :=
    fun field q same old => (m.hashChild_field child pid nextSafe q field same).trans old
  have parent : ∀ q, ((m.hashChild child pid nextSafe).procs q).parent = (k.procs q).parent :=
    fun q => kept ProcStruct.parent q (fun _ => rfl)
      (congrArg ProcStruct.parent (copied.kinship q) :)
  have cptr : ∀ q, ((m.hashChild child pid nextSafe).procs q).cptr = (k.procs q).cptr :=
    fun q => kept ProcStruct.cptr q (fun _ => rfl) (congrArg ProcStruct.cptr (copied.kinship q) :)
  have hashed : Family (m.hashChild child pid nextSafe) children none := by
    apply family.congr list idleproc
    · exact fun q _ => parent q
    · exact fun q _ => kept ProcStruct.optr q (fun _ => rfl)
        (congrArg ProcStruct.optr (copied.kinship q) :)
    · exact fun q _ => kept ProcStruct.yptr q (fun _ => rfl)
        (congrArg ProcStruct.yptr (copied.kinship q) :)
    · exact fun q _ => cptr q
  have linked : Family ((m.hashChild child pid nextSafe).setLinks child m.current)
      (Function.update children m.current (child :: children m.current)) none := ?_
  · refine ⟨_, linked.congr ?_ ?_ ?_ ?_ ?_ ?_⟩
    · simp only [Kernel.linkChild]
      split <;> rfl
    · simp only [Kernel.linkChild]
      split <;> rfl
    all_goals intro q _
    · rw [Kernel.linkChild_procs]
    · rw [Kernel.older, Kernel.linkChild_procs]
      rfl
    · rw [Kernel.younger, Kernel.linkChild_procs]
      rfl
    · rw [Kernel.linkChild_procs]
  · apply hashed.setLinks
    · rw [list]
      exact fun mem => linkable.new (.inl mem)
    · rw [Kernel.Known, list, current]
      exact .inl linkable.current
    · rw [cptr, linkable.childless]
    · intro c mem
      rw [list] at mem
      rw [parent]
      exact fun own => linkable.new (table.known_parent mem own).1
    · rw [parent, current, linkable.parent]

/-- The new process is linked. -/
theorem linkChild
    (next : nextPid (m.procList.map fun p => (m.procs p).pid) m.lastPid m.nextSafe =
      .ok (pid, nextSafe))
    (thread : flags &&& cloneThread ≠ 0 → k.current ≠ k.initproc) :
    Table (m.linkChild flags child pid nextSafe) := by
  have frame := linkChild_tables copied flags pid nextSafe k.procs
  have list : (m.linkChild flags child pid nextSafe).procList = child :: k.procList :=
    (congrArg Kernel.procList frame :)
  have idleproc : (m.linkChild flags child pid nextSafe).idleproc = k.idleproc :=
    (congrArg Kernel.idleproc frame :)
  have initproc : (m.linkChild flags child pid nextSafe).initproc = k.initproc :=
    (congrArg Kernel.initproc frame :)
  have allocated : (m.linkChild flags child pid nextSafe).allocated = k.allocated :=
    (congrArg Kernel.allocated frame :)
  have count : (m.linkChild flags child pid nextSafe).nrProcess = k.nrProcess + 1 :=
    (congrArg Kernel.nrProcess frame :)
  have new : child ∉ k.procList := fun mem => linkable.new (.inl mem)
  have known : ∀ p, (m.linkChild flags child pid nextSafe).Known p ↔ p = child ∨ k.Known p := by
    intro p
    rw [Kernel.Known, list, idleproc, List.mem_cons, or_assoc]
    rfl
  have alive : ∀ p, (k.procs p).state ≠ .zombie →
      ((m.linkChild flags child pid nextSafe).procs p).state ≠ .zombie :=
    fun p old zombie => old ((linkChild_zombie copied p).mp zombie)
  constructor
  · have lastPid : m.lastPid = k.lastPid := (congrArg Kernel.lastPid copied.frame :)
    have safe : m.nextSafe = k.nextSafe := (congrArg Kernel.nextSafe copied.frame :)
    have oldList : m.procList = k.procList := (congrArg Kernel.procList copied.frame :)
    have pids : (m.procList.map fun p => (m.procs p).pid) =
        k.procList.map fun p => (k.procs p).pid := by
      rw [oldList]
      exact List.map_congr_left fun p _ => (congrArg ProcStruct.pid (copied.kinship p) :)
    rw [pids, lastPid, safe] at next
    apply table.numbered.insert new next list
    · exact (congrArg Kernel.hashList frame :)
    · exact (congrArg Kernel.lastPid frame :)
    · exact (congrArg Kernel.nextSafe frame :)
    · rw [linkChild_pid copied, if_pos rfl]
    · intro p mem
      have other : p ≠ child := fun own => new (own ▸ mem)
      rw [linkChild_pid copied, if_neg other]
  · exact linkChild_family table linkable copied
  · exact linkChild_groups table linkable copied thread
  · exact linkChild_spaces table linkable copied
  · rw [count, list, List.length_cons, table.count]
    push_cast
    rfl
  · intro p mem
    rw [linkChild_parent copied]
    rw [list, List.mem_cons] at mem
    rcases mem with rfl | listed
    · exact ⟨k.current, linkable.parent, (known _).mpr (.inr (.inl linkable.current)),
        alive _ linkable.alive⟩
    · obtain ⟨q, parent, knownQ, aliveQ⟩ := table.parent p listed
      exact ⟨q, parent, (known q).mpr (.inr knownQ), alive q aliveQ⟩
  · intro p knownP
    rw [allocated]
    rcases (known p).mp knownP with rfl | old
    · exact linkable.allocated
    · exact table.allocated p old
  · intro p mem
    rw [idleproc]
    rw [list, List.mem_cons] at mem
    rcases mem with rfl | listed
    · exact fun own => linkable.new (.inr own)
    · exact table.listed p listed
  · rw [idleproc]
    exact alive _ table.idle
  · rw [list, initproc]
    exact List.mem_cons_of_mem _ table.init
  · rw [initproc]
    exact alive _ table.initAlive

end LinkChild

/-- `do_fork` links the new process. -/
theorem forkLink (table : Table k) (linkable : k.Linkable child) {mm : MmPtr}
    (thread : flags &&& cloneThread ≠ 0 → k.current ≠ k.initproc)
    (linked : k.forkLink flags child mm = .ok k') : Table k' := by
  obtain ⟨m, pid, nextSafe, copy, next, rfl⟩ := Kernel.forkLink_eq_ok linked
  obtain ⟨used, copied⟩ :=
    Kernel.copyMm_spec linkable.spaceless table.spaces linkable.current copy
  exact table.linkChild linkable copied next thread

end Table

/-! ## do_wait -/

/-- What `do_wait` does to the zombie it finds. -/
structure Kernel.Reaps (k : Kernel) (zombie : ProcPtr) (k' : Kernel) : Prop where
  frame : k'.withProcs k.procs = { k with
    procList := k.procList.erase zombie
    nrProcess := k.nrProcess - 1
    hashList := Function.update k.hashList (pidHashfn (k.procs zombie).pid)
      ((k.hashList (pidHashfn (k.procs zombie).pid)).erase zombie)
    allocated := Function.update k.allocated zombie false }
  unrelated : ∀ q, (k'.procs q).unrelated = (k.procs q).unrelated
  parent : ∀ q, (k'.procs q).parent = (k.procs q).parent

theorem Kernel.reap_spec {zombie : ProcPtr} (reaped : k.reap zombie = .ok k') :
    zombie ≠ k.idleproc ∧ zombie ≠ k.initproc ∧ k.Reaps zombie k' ∧
      k' = ((k.unhashProc zombie).removeLinks zombie).freeProc zombie := by
  unfold Kernel.reap at reaped
  split at reaped
  · contradiction
  · rename_i other
    cases reaped
    rw [not_or] at other
    refine ⟨other.1, other.2, ⟨?_, ?_, ?_⟩, rfl⟩
    · exact congrArg (fun m => m.freeProc zombie)
        ((k.unhashProc zombie).removeLinks_withProcs zombie k.procs)
    · exact fun q => (k.unhashProc zombie).removeLinks_unrelated zombie q
    · exact fun q => (k.unhashProc zombie).removeLinks_parent zombie q

namespace Table

/-- `do_wait` takes a zombie out of the table. -/
theorem reap (table : Table k) {zombie : ProcPtr} (mem : zombie ∈ k.procList)
    (isZombie : (k.procs zombie).state = .zombie) (reaped : k.reap zombie = .ok k') :
    Table k' := by
  obtain ⟨_, _, ⟨frame, unrelated, parents⟩, result⟩ := Kernel.reap_spec reaped
  obtain ⟨parent, parentEq, parentKnown, _⟩ := table.parent zombie mem
  obtain ⟨children, family⟩ := table.family
  have nodup := table.numbered.nodup
  have state : ∀ q, (k'.procs q).state = (k.procs q).state :=
    fun q => (congrArg ProcStruct.state (unrelated q) :)
  have mm : ∀ q, (k'.procs q).mm = (k.procs q).mm :=
    fun q => (congrArg ProcStruct.mm (unrelated q) :)
  have list : k'.procList = k.procList.erase zombie := (congrArg Kernel.procList frame :)
  have rings : k'.threadGroups = k.threadGroups := (congrArg Kernel.threadGroups frame :)
  have idleproc : k'.idleproc = k.idleproc := (congrArg Kernel.idleproc frame :)
  have initproc : k'.initproc = k.initproc := (congrArg Kernel.initproc frame :)
  have count : k'.nrProcess = k.nrProcess - 1 := (congrArg Kernel.nrProcess frame :)
  have allocated : k'.allocated = Function.update k.allocated zombie false :=
    (congrArg Kernel.allocated frame :)
  have mmCount : k'.mmCount = k.mmCount := (congrArg Kernel.mmCount frame :)
  have mmAlive : k'.mmAlive = k.mmAlive := (congrArg Kernel.mmAlive frame :)
  have inList : ∀ p, p ∈ k'.procList ↔ p ≠ zombie ∧ p ∈ k.procList := by
    intro p
    rw [list, nodup.mem_erase_iff]
  have stillKnown : ∀ q, k.Known q → (k.procs q).state ≠ .zombie → k'.Known q := by
    rintro q (listed | idle) alive
    · exact .inl ((inList q).mpr ⟨fun own => alive (own ▸ isZombie), listed⟩)
    · exact .inr (idle.trans idleproc.symm)
  constructor
  · apply table.numbered.erase list
    · exact (congrArg Kernel.hashList frame :)
    · exact (congrArg Kernel.lastPid frame :)
    · exact (congrArg Kernel.nextSafe frame :)
    · exact fun q => (congrArg ProcStruct.pid (unrelated q) :)
  · have unhashed : Family (k.unhashProc zombie) children none :=
      family.congr rfl rfl (fun _ _ => rfl) (fun _ _ => rfl) (fun _ _ => rfl) fun _ _ => rfl
    have removed := unhashed.removeLinks mem parentKnown parentEq nodup
    rw [result]
    exact ⟨_, removed.congr rfl rfl (fun _ _ => rfl) (fun _ _ => rfl) (fun _ _ => rfl)
      fun _ _ => rfl⟩
  · constructor
    · rw [rings]
      exact table.groups.disjoint
    · intro p inGroup
      rw [rings] at inGroup
      obtain ⟨listed, alive, notInit⟩ := table.groups.member p inGroup
      rw [inList, state, initproc]
      exact ⟨⟨fun own => alive (own ▸ isZombie), listed⟩, alive, notInit⟩
  · constructor
    · intro m
      have same : k'.mmUsers m = k.mmUsers m := by
        have perm := List.perm_cons_erase mem
        have spaceless := table.spaces.zombie zombie mem isZombie
        unfold Kernel.mmUsers
        rw [perm.countP_eq, List.countP_cons, list, spaceless]
        simp [mm]
      rw [mmCount, same]
      exact table.spaces.users m
    · intro m
      rw [mmCount, mmAlive]
      exact table.spaces.alive m
    · intro p listed
      rw [state, mm]
      exact table.spaces.zombie p ((inList p).mp listed).2
    · rw [idleproc, mm]
      exact table.spaces.idle
  · have length := List.length_erase_of_mem mem
    have positive := List.length_pos_of_mem mem
    rw [count, list, table.count]
    omega
  · intro p listed
    obtain ⟨q, parentQ, known, alive⟩ := table.parent p ((inList p).mp listed).2
    rw [parents]
    refine ⟨q, parentQ, stillKnown q known alive, ?_⟩
    rw [state]
    exact alive
  · intro p known
    have old : k.Known p ∧ p ≠ zombie := by
      rcases known with listed | idle
      · exact ⟨.inl ((inList p).mp listed).2, ((inList p).mp listed).1⟩
      · rw [idleproc] at idle
        exact ⟨.inr idle, fun own => table.listed zombie mem (own.symm.trans idle)⟩
    rw [allocated, Function.update_of_ne old.2]
    exact table.allocated p old.1
  · intro p listed
    rw [idleproc]
    exact table.listed p ((inList p).mp listed).2
  · rw [idleproc, state]
    exact table.idle
  · rw [initproc, inList]
    exact ⟨fun own => table.initAlive (own ▸ isZombie), table.init⟩
  · rw [initproc, state]
    exact table.initAlive

end Table

end EdfKernel
