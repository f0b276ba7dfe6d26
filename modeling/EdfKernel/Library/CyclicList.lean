import Mathlib.Data.Finset.Max
import Mathlib.Data.Finset.Insert
import Mathlib.Logic.Function.Iterate

/-!
# Circular lists in ascending order

The nodes of a linear order are linked into a circle in which every node is followed by the
next greater one, and the greatest by the least.  Such a circle has one place for every other
element, it is kept by linking an element in at its place and by leaving a node out, and a
walk along the links comes by every node.
-/

namespace EdfKernel.Library.CyclicList

universe u

variable {α : Type u} [LinearOrder α] {next next' : α → α} {nodes : Finset α} {a b p : α}

/-- `b` is on the way up from `p` to `q`, which starts again from below where `q` is not
above `p`. -/
def Between (p q b : α) : Prop :=
  (p < b ∧ b < q) ∨ (q ≤ p ∧ (p < b ∨ b < q))

instance decidableBetween (p q b : α) : Decidable (Between p q b) :=
  inferInstanceAs (Decidable (_ ∨ _))

theorem Between.ne_left (between : Between p a b) : b ≠ p := by
  rintro rfl
  rcases between with ⟨above, _⟩ | ⟨_, above | below⟩
  · exact lt_irrefl _ above
  · exact lt_irrefl _ above
  · exact absurd below (not_lt.mpr ‹_›)

theorem Between.ne_right (between : Between p b a) : a ≠ b := by
  rintro rfl
  rcases between with ⟨_, below⟩ | ⟨low, above | below⟩
  · exact lt_irrefl _ below
  · exact absurd above (not_lt.mpr low)
  · exact lt_irrefl _ below

/-- The links lead from every node to a node and pass over none. -/
structure Circular (next : α → α) (nodes : Finset α) : Prop where
  mem : ∀ a ∈ nodes, next a ∈ nodes
  gap : ∀ a ∈ nodes, ∀ b ∈ nodes, ¬Between a (next a) b

namespace Circular

theorem singleton (a : α) (self : next a = a) : Circular next {a} where
  mem b mem := by
    rw [Finset.mem_singleton] at mem ⊢
    rw [mem, self]
  gap b memB c memC between := by
    rw [Finset.mem_singleton] at memB memC
    exact between.ne_left (memC.trans memB.symm)

theorem congr (circular : Circular next nodes) (same : ∀ a ∈ nodes, next' a = next a) :
    Circular next' nodes where
  mem a mem := by
    rw [same a mem]
    exact circular.mem a mem
  gap a mem b memB := by
    rw [same a mem]
    exact circular.gap a mem b memB

theorem subset (circular : Circular next nodes) {some : Finset α} (sub : some ⊆ nodes)
    (closed : ∀ a ∈ some, next a ∈ some) : Circular next some :=
  ⟨closed, fun a mem b memB => circular.gap a (sub mem) b (sub memB)⟩

/-! ## The place of an element -/

/-- An element that is no node has its place after some node. -/
theorem exists_between (circular : Circular next nodes) (nonempty : nodes.Nonempty)
    (outside : b ∉ nodes) : ∃ p ∈ nodes, Between p (next p) b := by
  by_cases lower : (nodes.filter (· < b)).Nonempty
  · -- The greatest node below `b`.
    obtain ⟨mem, below⟩ := Finset.mem_filter.mp ((nodes.filter (· < b)).max'_mem lower)
    refine ⟨_, mem, ?_⟩
    by_cases wraps : next ((nodes.filter (· < b)).max' lower) ≤
        (nodes.filter (· < b)).max' lower
    · exact .inr ⟨wraps, .inl below⟩
    · have memNext := circular.mem _ mem
      have ne : next ((nodes.filter (· < b)).max' lower) ≠ b := fun same => outside (same ▸ memNext)
      refine .inl ⟨below, lt_of_not_ge fun low => wraps ?_⟩
      have less := lt_of_le_of_ne low ne
      exact Finset.le_max' _ _ (Finset.mem_filter.mpr ⟨memNext, less⟩)
  · -- All nodes are above `b`: its place is after the greatest one.
    have above : ∀ a ∈ nodes, b < a := fun a mem =>
      lt_of_le_of_ne (not_lt.mp fun low => lower ⟨a, Finset.mem_filter.mpr ⟨mem, low⟩⟩)
        fun same => outside (same ▸ mem)
    have memNext := circular.mem _ (nodes.max'_mem nonempty)
    exact ⟨nodes.max' nonempty, nodes.max'_mem nonempty,
      .inr ⟨Finset.le_max' _ _ memNext, .inr (above _ memNext)⟩⟩

/-- A walk along the links comes by every node. -/
theorem reaches (circular : Circular next nodes) (memA : a ∈ nodes) (memB : b ∈ nodes) :
    ∃ n, next^[n] a = b := by
  classical
  by_contra never
  -- The nodes that the walk comes by are a circle of their own, with a place for `b`.
  let seen := nodes.filter fun c => ∃ n, next^[n] a = c
  have sub : seen ⊆ nodes := Finset.filter_subset _ _
  have closed : ∀ c ∈ seen, next c ∈ seen := by
    intro c mem
    obtain ⟨memC, n, at_⟩ := Finset.mem_filter.mp mem
    refine Finset.mem_filter.mpr ⟨circular.mem c memC, n + 1, ?_⟩
    rw [Function.iterate_succ_apply', at_]
  have start : a ∈ seen := Finset.mem_filter.mpr ⟨memA, 0, rfl⟩
  obtain ⟨p, mem, between⟩ := (circular.subset sub closed).exists_between ⟨a, start⟩
    fun mem => never (Finset.mem_filter.mp mem).2
  exact circular.gap p (sub mem) b memB between

theorem iterate_mem (circular : Circular next nodes) (mem : a ∈ nodes) (n : ℕ) :
    next^[n] a ∈ nodes := by
  induction n with
  | zero => exact mem
  | succ n ih =>
      rw [Function.iterate_succ_apply']
      exact circular.mem _ ih

/-- A walk that looks for one of two kinds of nodes finds the first of them. -/
theorem exists_first (Stops : α → Prop) (circular : Circular next nodes) (memA : a ∈ nodes)
    (memB : b ∈ nodes) (stops : Stops b) :
    ∃ n, Stops (next^[n] a) ∧ ∀ m < n, ¬Stops (next^[m] a) := by
  classical
  obtain ⟨n, at_⟩ := circular.reaches memA memB
  have some : ∃ n, Stops (next^[n] a) := ⟨n, at_.symm ▸ stops⟩
  exact ⟨Nat.find some, Nat.find_spec some, fun m less => Nat.find_min some less⟩

/-- Two nodes that follow each other are all there are. -/
theorem eq_or_eq_of_next_next (circular : Circular next nodes) (memA : a ∈ nodes)
    (back : next (next a) = a) (memB : b ∈ nodes) : b = a ∨ b = next a := by
  obtain ⟨n, rfl⟩ := circular.reaches memA memB
  induction n with
  | zero => exact .inl rfl
  | succ n ih =>
      rw [Function.iterate_succ_apply'] at memB ⊢
      rcases ih (circular.iterate_mem memA n) with at_ | at_
      · exact .inr (by rw [at_])
      · exact .inl (by rw [at_, back])

theorem next_ne_self (circular : Circular next nodes) (memA : a ∈ nodes) (memB : b ∈ nodes)
    (ne : b ≠ a) : next a ≠ a := by
  intro self
  have fixed : next (next a) = a := by rw [self, self]
  rcases circular.eq_or_eq_of_next_next memA fixed memB with same | same
  · exact ne same
  · exact ne (same.trans self)

/-- The place of an element is after one node only. -/
theorem place_unique (circular : Circular next nodes) {q : α} (memP : p ∈ nodes)
    (memQ : q ∈ nodes) (first : Between p (next p) b) (second : Between q (next q) b) : p = q := by
  have one := circular.gap p memP q memQ
  have two := circular.gap q memQ p memP
  have three := circular.gap p memP (next q) (circular.mem q memQ)
  have four := circular.gap q memQ (next p) (circular.mem p memP)
  unfold Between at one two three four first second
  grind

/-! ## Linking in and leaving out -/

variable [DecidableEq α]

/-- An element is linked in at its place. -/
theorem insert (circular : Circular next nodes) (memP : p ∈ nodes) (outside : b ∉ nodes)
    (between : Between p (next p) b) :
    Circular (Function.update (Function.update next b (next p)) p b) (insert b nodes) := by
  have atP : Function.update (Function.update next b (next p)) p b p = b :=
    Function.update_self ..
  have atB : Function.update (Function.update next b (next p)) p b b = next p := by
    rw [Function.update_of_ne between.ne_left, Function.update_self]
  have elsewhere : ∀ c ∈ nodes, c ≠ p →
      Function.update (Function.update next b (next p)) p b c = next c := by
    intro c mem ne
    rw [Function.update_of_ne ne, Function.update_of_ne fun same : c = b => outside (same ▸ mem)]
  refine ⟨fun c mem => ?_, fun c mem d memD between' => ?_⟩
  · rcases Finset.mem_insert.mp mem with rfl | mem
    · rw [atB]
      exact Finset.mem_insert_of_mem (circular.mem p memP)
    · by_cases at_ : c = p
      · rw [at_, atP]
        exact Finset.mem_insert_self ..
      · rw [elsewhere c mem at_]
        exact Finset.mem_insert_of_mem (circular.mem c mem)
  · have gapP := circular.gap p memP
    rcases Finset.mem_insert.mp mem with rfl | memC
    · rw [atB] at between'
      rcases Finset.mem_insert.mp memD with rfl | memD
      · exact between'.ne_left rfl
      · have skipped := gapP d memD
        have self := gapP p memP
        unfold Between at skipped between between' self
        grind
    · by_cases at_ : c = p
      · subst at_
        rw [atP] at between'
        rcases Finset.mem_insert.mp memD with rfl | memD
        · exact between'.ne_right rfl
        · have skipped := gapP d memD
          unfold Between at skipped between between'
          grind
      · rw [elsewhere c memC at_] at between'
        rcases Finset.mem_insert.mp memD with rfl | memD
        · exact at_ (circular.place_unique memC memP between' between)
        · exact circular.gap c memC d memD between'

/-- A node is left out. -/
theorem erase (circular : Circular next nodes) (memP : p ∈ nodes) (other : next p ≠ p) :
    Circular (Function.update next p (next (next p))) (nodes.erase (next p)) := by
  have memNext := circular.mem p memP
  have notBack : ∀ c ∈ nodes, c ≠ p → next c ≠ next p := by
    intro c mem ne same
    have one := circular.gap p memP c mem
    have two := circular.gap c mem p memP
    unfold Between at one two
    grind
  refine ⟨fun c mem => ?_, fun c mem d memD between => ?_⟩
  · obtain ⟨ne, mem⟩ := Finset.mem_erase.mp mem
    by_cases at_ : c = p
    · rw [at_, Function.update_self]
      exact Finset.mem_erase.mpr
        ⟨circular.next_ne_self memNext memP (Ne.symm other), circular.mem _ memNext⟩
    · rw [Function.update_of_ne at_]
      exact Finset.mem_erase.mpr ⟨notBack c mem at_, circular.mem c mem⟩
  · obtain ⟨ne, mem⟩ := Finset.mem_erase.mp mem
    obtain ⟨neD, memD⟩ := Finset.mem_erase.mp memD
    by_cases at_ : c = p
    · rw [at_, Function.update_self] at between
      have one := circular.gap p memP d memD
      have two := circular.gap _ memNext d memD
      unfold Between at one two between
      grind
    · rw [Function.update_of_ne at_] at between
      exact circular.gap c mem d memD between

/-- A node is left out and an element behind it is linked in. -/
theorem replace (circular : Circular next nodes) (memP : p ∈ nodes) (follows : next p = a)
    (other : a ≠ p) (outside : b ∉ nodes) (between : Between a (next a) b) :
    Circular (Function.update (Function.update next p b) b (next a))
      (Insert.insert b (nodes.erase a)) := by
  have memA : a ∈ nodes := follows ▸ circular.mem p memP
  have neP : b ≠ p := fun same => outside (same ▸ memP)
  have neA : b ≠ a := between.ne_left
  have toA : Function.update (Function.update next b (next a)) a b p = a := by
    rw [Function.update_of_ne (Ne.symm other), Function.update_of_ne (Ne.symm neP), follows]
  have without := (circular.insert memA outside between).erase (Finset.mem_insert_of_mem memP)
    (toA.symm ▸ other)
  rw [toA, Finset.erase_insert_of_ne neA, Function.update_self] at without
  refine without.congr fun c memC => ?_
  have ne : c ≠ a := by
    rintro rfl
    exact Finset.notMem_erase c nodes ((Finset.mem_insert.mp memC).resolve_left (Ne.symm neA))
  by_cases atP : c = p
  · rw [atP, Function.update_of_ne (Ne.symm neP), Function.update_self, Function.update_self]
  · by_cases atB : c = b
    · rw [atB, Function.update_self, Function.update_of_ne neP, Function.update_of_ne neA,
        Function.update_self]
    · simp only [Function.update_of_ne atP, Function.update_of_ne atB, Function.update_of_ne ne]

end Circular

end EdfKernel.Library.CyclicList
