import EdfKernel.Mm.AreaRuns
import EdfKernel.Mm.RangeWalks

/-!
# Page tables under areas

`exit_mmap` frees the page tables that the areas reach into, and no others.  `dup_mmap` makes page
tables under the copies of the areas only.
-/

namespace EdfKernel.Mm

open Library

namespace Pages

variable {p q r : Pages} {mm target source : MmPtr} {la start stop fuel : Nat} {f : Frame}
  {perm : Perm} {share create : Bool} {new : MmPtr → Nat → Prop}

/-- Page tables have come or gone where it is said, and nowhere else. -/
def Grows (p q : Pages) (new : MmPtr → Nat → Prop) : Prop :=
  ∀ mm i, q.table mm i = p.table mm i ∨ new mm i

theorem Grows.of_table (same : q.table = p.table) : p.Grows q new := by
  intro mm i
  rw [same]
  exact .inl rfl

theorem Grows.trans (first : p.Grows q new) (second : q.Grows r new) : p.Grows r new := by
  intro mm i
  rcases second mm i with same | here
  · rw [same]
    exact first mm i
  · exact .inr here

theorem Grows.mono {new' : MmPtr → Nat → Prop} (grows : p.Grows q new)
    (le : ∀ mm i, new mm i → new' mm i) : p.Grows q new' :=
  fun mm i => (grows mm i).imp_right (le mm i)

theorem getPte_of_table (there : (p.table mm (pdx la)).isSome = true) :
    p.getPte mm la create = (true, p) := by
  rw [getPte, if_pos there]

theorem getPte_grows (p : Pages) (mm : MmPtr) (la : Nat) (create : Bool) :
    p.Grows (p.getPte mm la create).2 fun mm' i => mm' = mm ∧ i = pdx la := by
  unfold getPte
  split
  · exact .of_table rfl
  · split
    · have same := p.allocPage_tables
      rcases answer : p.allocPage with ⟨newpage, q⟩
      rw [answer] at same
      have table := table_of_tables same
      cases newpage with
      | none => exact .of_table table
      | some f =>
          intro mm' i
          by_cases own : mm' = mm
          · by_cases here : i = pdx la
            · exact .inr ⟨own, here⟩
            · left
              simp only [own, Function.update_self, Function.update_of_ne here]
              exact congrFun (congrFun table mm) i
          · left
            simp only [Function.update_of_ne own]
            exact congrFun (congrFun table mm') i
    · exact .of_table rfl

theorem pageInsert_after {result : Int × Pages} (answer : p.getPte mm la true = (true, q))
    (done : p.pageInsert mm f la perm = .ok result) : result.2.table = q.table := by
  unfold pageInsert at done
  rw [answer] at done
  obtain ⟨r, removed, rest⟩ := bind_eq_ok_iff.mp done
  cases rest
  change r.table = (q.pageRefInc f).table
  unfold pageRemovePte at removed
  split at removed
  · cases removed
    rfl
  · split at removed
    · cases removed
      rfl
    · exact removePte_table removed
  · exact removePte_table removed

theorem pageInsert_table {result : Int × Pages} (there : (p.table mm (pdx la)).isSome = true)
    (done : p.pageInsert mm f la perm = .ok result) : result.2.table = p.table :=
  pageInsert_after (getPte_of_table there) done

/-- The copy of an entry needs a page table of the target. -/
theorem copyPte_grows {result : Int × Pages} (there : (p.table source (pdx la)).isSome = true)
    (done : p.copyPte target source la share = .ok result) :
    p.Grows result.2 fun mm i => mm = target ∧ i = pdx la := by
  have gets := p.getPte_grows target la true
  have table := @getPte_table p target la true
  unfold copyPte at done
  rcases answer : p.getPte target la true with ⟨found, q⟩
  rw [answer] at gets table done
  cases found with
  | false =>
      cases done
      exact gets
  | true =>
      have inTarget := table rfl
      have inSource : (q.table source (pdx la)).isSome = true := by
        rcases gets source (pdx la) with same | ⟨rfl, _⟩
        · rw [same]
          exact there
        · exact inTarget
      dsimp only at done inTarget
      split at done
      · cases done
      · split at done
        · cases done
        · obtain ⟨⟨perm', r⟩, shared, rest⟩ := bind_eq_ok_iff.mp done
          have same : r.table = q.table := by
            split at shared
            · obtain ⟨inserted, insert, rest⟩ := bind_eq_ok_iff.mp shared
              cases rest
              exact pageInsert_table inSource insert
            · cases shared
              rfl
          obtain ⟨⟨ret, s⟩, insert, rest⟩ := bind_eq_ok_iff.mp rest
          rw [← same] at inTarget
          have last := pageInsert_table inTarget insert
          dsimp only at rest
          split at rest
          · cases rest
            exact gets.trans (.of_table (last.trans same))
          · cases rest
        · obtain ⟨r, duplicated, rest⟩ := bind_eq_ok_iff.mp done
          cases rest
          have same := table_of_tables (swapDuplicate_tables duplicated)
          exact gets.trans (.of_table same)

/-- The loop of `copy_range`. -/
theorem copyLoop_grows {result : Int × Pages} (aligned : la % pgSize = 0) (inside : la < stop)
    (top : stop ≤ userTop) (done : copyLoop target source share stop fuel la p = .ok result) :
    p.Grows result.2 fun mm i => mm = target ∧ la < (i + 1) * ptSize ∧ i * ptSize < stop := by
  induction fuel generalizing la p with
  | zero =>
      cases done
      exact .of_table rfl
  | succ fuel ih =>
      have low := inside.trans_le top
      have skips := @walkNext_skips p source _ aligned low
      obtain ⟨⟨ret, q⟩, copied, rest⟩ := bind_eq_ok_iff.mp done
      have first : p.Grows q fun mm i =>
          mm = target ∧ la < (i + 1) * ptSize ∧ i * ptSize < stop := by
        split at copied
        · rename_i there
          refine (copyPte_grows there.1 copied).mono ?_
          rintro mm i ⟨rfl, rfl⟩
          rw [pdx_eq (low.trans (by decide))]
          refine ⟨rfl, ?_⟩
          unfold ptSize pgSize
          omega
        · cases copied
          exact .of_table rfl
      dsimp only at rest
      split at rest
      · cases rest
        exact first
      · split at rest
        · rename_i further
          refine first.trans ((ih skips.aligned further.2 rest).mono ?_)
          rintro mm i ⟨own, from_, upTo⟩
          have far := skips.far
          exact ⟨own, by omega, upTo⟩
        · cases rest
          exact first

/-- `copy_range` makes page tables of the target only, and only under the range. -/
theorem copyRange_grows {result : Int × Pages}
    (done : p.copyRange target source start stop share = .ok result) :
    p.Grows result.2 fun mm i => mm = target ∧ start < (i + 1) * ptSize ∧ i * ptSize < stop := by
  unfold copyRange at done
  split at done
  · rename_i ok
    obtain ⟨aligned, _, _, inside, top⟩ := rangeOk_spec ok
    exact copyLoop_grows aligned inside top done
  · cases done

/-- An address space begins without page tables. -/
theorem setupPgdir_table (setup : p.setupPgdir mm = (0, q)) (i : Nat) : q.table mm i = none := by
  unfold setupPgdir at setup
  split at setup
  · cases setup
  · cases setup
    simp

theorem unmapRange_ok (done : p.unmapRange mm start stop = .ok q) : rangeOk start stop = true := by
  unfold unmapRange at done
  split at done
  · assumption
  · cases done

theorem exitRange_ok (done : p.exitRange mm start stop = .ok q) : rangeOk start stop = true := by
  unfold exitRange at done
  split at done
  · assumption
  · cases done

end Pages

namespace Memory

variable {m n : Memory} {mm target source : MmPtr} {v : VmaPtr} {i : Nat} {p q : Pages}
  {list : List VmaPtr} {result : Int × Memory}

/-- An area reaches into the region of a page table. -/
def Roofed (m : Memory) (mm : MmPtr) (i : Nat) : Prop :=
  ∃ v ∈ m.vm.areas mm, m.vm.lo v < (i + 1) * ptSize ∧ i * ptSize < m.vm.hi v

instance : Decidable (m.Roofed mm i) :=
  inferInstanceAs (Decidable (∃ v ∈ m.vm.areas mm, m.vm.lo v < (i + 1) * ptSize ∧
    i * ptSize < m.vm.hi v))

theorem roofed_congr (areas : n.vm.areas mm = m.vm.areas mm) (vma : n.vm.vma = m.vm.vma) :
    n.Roofed mm i ↔ m.Roofed mm i := by
  simp only [Roofed, areas, Vm.lo, Vm.hi, vma]

/-! ## exit_mmap -/

theorem unmapAll_table (done : m.unmapAll mm list p = .ok q) : q.table = p.table := by
  induction list generalizing p with
  | nil =>
      cases done
      rfl
  | cons v rest ih =>
      obtain ⟨r, unmapped, done⟩ := bind_eq_ok_iff.mp done
      have same := Pages.unmapRange_unmapped (Pages.unmapRange_ok unmapped) unmapped
      exact (ih done).trans same.table

/-- The second loop of `exit_mmap` frees the page tables that the areas reach into. -/
theorem exitAll_table (done : m.exitAll mm list p = .ok q) (mm' : MmPtr) (i : Nat) :
    q.table mm' i = if mm' = mm ∧ ∃ v ∈ list, m.vm.lo v < (i + 1) * ptSize ∧ i * ptSize < m.vm.hi v
      then none else p.table mm' i := by
  induction list generalizing p with
  | nil =>
      cases done
      simp
  | cons v rest ih =>
      obtain ⟨r, exited, done⟩ := bind_eq_ok_iff.mp done
      have ok := Pages.exitRange_ok exited
      have here := (Pages.exitRange_exited ok exited).table mm' i
      simp only [Pages.table_inside_iff ok] at here
      rw [ih done, here]
      change (if mm' = mm ∧ _ then none else
        if mm' = mm ∧ i * ptSize < m.vm.hi v ∧ m.vm.lo v < (i + 1) * ptSize then none else
          p.table mm' i) = _
      by_cases own : mm' = mm
      · by_cases later : ∃ v ∈ rest, m.vm.lo v < (i + 1) * ptSize ∧ i * ptSize < m.vm.hi v
        · simp [own, later]
        · simp [own, later, and_comm (a := i * ptSize < m.vm.hi v)]
      · simp [own]

/-- `exit_mmap` frees the page tables under areas. -/
theorem exitMmap_table (done : m.exitMmap mm = .ok n) (mm' : MmPtr) (i : Nat) :
    n.pages.table mm' i = if mm' = mm ∧ m.Roofed mm i then none else m.pages.table mm' i := by
  unfold exitMmap at done
  split at done
  · obtain ⟨p, unmapped, done⟩ := bind_eq_ok_iff.mp done
    obtain ⟨q, exited, done⟩ := bind_eq_ok_iff.mp done
    cases done
    rw [exitAll_table exited mm' i, unmapAll_table unmapped]
    rfl
  · cases done

/-! ## dup_mmap -/

/-- Every page table of the address space has an area that reaches into its region. -/
def AllRoofed (m : Memory) (mm : MmPtr) : Prop :=
  ∀ i, (m.pages.table mm i).isSome = true → m.Roofed mm i

/-- `dup_mmap` at one area: page tables come under the copy only. -/
theorem dupVma_roofed (formed : m.WellFormed target)
    (range : Vm.UserRange (m.vm.lo v) (m.vm.hi v))
    (above : ∀ w ∈ m.vm.areas target, m.vm.hi v ≤ m.vm.lo w)
    (done : m.dupVma target source v = .ok result) :
    (∀ i, m.Roofed target i → result.2.Roofed target i) ∧
      m.pages.Grows result.2.pages fun mm i => mm = target ∧ result.2.Roofed target i := by
  have free : ∀ w ∈ m.vm.areas target, ¬m.vm.Meets (m.vm.lo v) (m.vm.hi v) w := by
    rintro w mem ⟨low, _⟩
    have le := above w mem
    have less := range.2.1
    omega
  unfold dupVma at done
  simp only at done
  split at done
  · rename_i vm₁ created
    cases done
    obtain ⟨grants, rfl⟩ := Vm.vmaCreate_none created
    exact ⟨fun i => id, .of_table rfl⟩
  · rename_i nvma vm₁ created
    have creates := Vm.vmaCreate_creates created
    obtain ⟨set₁, _, detached₁⟩ := Vm.detached_of_create formed.set range free created
    obtain ⟨_, _, areas₁, vma₁⟩ := creates.vmaSet formed.set
    obtain ⟨vm₂, fields, done⟩ := bind_eq_ok_iff.mp done
    obtain ⟨vm₃, inserted, done⟩ := bind_eq_ok_iff.mp done
    obtain ⟨⟨ret, pages⟩, copied, done⟩ := bind_eq_ok_iff.mp done
    cases done
    obtain ⟨same, _⟩ := dupFields fields
    obtain ⟨_, before, after, links⟩ := (same.detached detached₁).insert (same.vmaSet set₁) inserted
    constructor
    · rintro i ⟨w, mem, from_, upTo⟩
      have still : w ∈ vm₃.areas target := by
        rw [← areas₁, ← same.areas, links.list, List.mem_append] at mem
        rw [links.areas, List.mem_append, List.mem_cons]
        tauto
      refine ⟨w, still, ?_, ?_⟩
      · change vm₃.lo w < _
        rw [(links.bounds w).1, same.lo, Vm.lo, vma₁ w mem]
        exact from_
      · change _ < vm₃.hi w
        rw [(links.bounds w).2, same.hi, Vm.hi, vma₁ w mem]
        exact upTo
    · refine (Pages.copyRange_grows copied).mono ?_
      rintro mm i ⟨rfl, from_, upTo⟩
      have mem : nvma ∈ vm₃.areas mm := by
        rw [links.areas]
        exact List.mem_append_right _ List.mem_cons_self
      refine ⟨rfl, nvma, mem, ?_, ?_⟩
      · change vm₃.lo nvma < _
        rw [(links.bounds nvma).1, same.lo, creates.lo]
        exact from_
      · change _ < vm₃.hi nvma
        rw [(links.bounds nvma).2, same.hi, creates.hi]
        exact upTo

/-- The loop of `dup_mmap`. -/
theorem dupVmas_roofed (formed : m.WellFormed target) (set : m.vm.VmaSet source)
    (ne : source ≠ target) (left : m.ToCopy target source list) (roofed : m.AllRoofed target)
    (done : dupVmas target source list m = .ok result) : result.2.AllRoofed target := by
  induction list generalizing m with
  | nil =>
      cases done
      exact roofed
  | cons v rest ih =>
      obtain ⟨⟨ret, n⟩, first, done⟩ := bind_eq_ok_iff.mp done
      have here := List.mem_cons_self (a := v) (l := rest)
      obtain ⟨still, grows⟩ := dupVma_roofed formed (set.range v (left.mem v here))
        (left.above v here) first
      obtain ⟨formed', set', left'⟩ := left.next formed set ne first
      have roofed' : n.AllRoofed target := by
        intro i there
        rcases grows target i with same | ⟨_, under⟩
        · rw [same] at there
          exact still i (roofed i there)
        · exact under
      simp only at done
      split at done
      · cases done
        exact roofed'
      · exact ih formed' set' left' roofed' done

end Memory

end EdfKernel.Mm
