import EdfKernel.Kernel.State
import EdfKernel.Library.BinaryHeap
import EdfKernel.Library.Run
import Mathlib.Data.List.Nodup

/-!
# The deadline heap

`libs/heap.[ch]`: an array of process entries ordered by deadline.  The two
repair loops exchange entries exactly as the code does; each is bounded by the
number of positions, which its path cannot exceed.
-/

namespace EdfKernel

open Library

/-- The entry at a position; positions from `size` on are never read. -/
def entryAt (entry : List HeapEntry) (i : Nat) : HeapEntry :=
  entry.getD i ⟨0, 0⟩

/-- The deadline at a position. -/
def keyAt (entry : List HeapEntry) (i : Nat) : Int :=
  (entryAt entry i).x

/-- `__get_father`. -/
def getFather (x : Nat) : Nat := (x - 1) / 2

/-- `__get_lc`. -/
def getLc (x : Nat) : Nat := 2 * x + 1

/-- `__min`: the position of the smaller of two children. -/
def minChild (x y : Int) (lcPos : Nat) : Nat :=
  if x < y then lcPos else lcPos + 1

/-- `__exchange`. -/
def exchange (entry : List HeapEntry) (x y : Nat) : List HeapEntry :=
  (entry.set x (entryAt entry y)).set y (entryAt entry x)

/-- The loop of `__rearrange_bottomup`. -/
def rearrangeBottomupLoop : Nat → List HeapEntry → Nat → Int → List HeapEntry
  | 0, entry, _, _ => entry
  | fuel + 1, entry, sonPos, sonVal =>
      let fatherPos := getFather sonPos
      if fatherPos ≠ sonPos then
        if sonVal < keyAt entry fatherPos then
          rearrangeBottomupLoop fuel (exchange entry fatherPos sonPos) fatherPos sonVal
        else entry
      else entry

/-- `__rearrange_bottomup`. -/
def rearrangeBottomup (heap : ProcessHeap) : ProcessHeap :=
  let sonPos := heap.entry.length - 1
  ⟨rearrangeBottomupLoop heap.entry.length heap.entry sonPos (keyAt heap.entry sonPos)⟩

/-- The loop of `__rearrange_topdown` with the single-child case after it. -/
def rearrangeTopdownLoop : Nat → List HeapEntry → Nat → Int → List HeapEntry
  | 0, entry, _, _ => entry
  | fuel + 1, entry, fatherPos, fatherVal =>
      let lcPos := getLc fatherPos
      if lcPos + 1 < entry.length then
        let chosenPos := minChild (keyAt entry lcPos) (keyAt entry (lcPos + 1)) lcPos
        if keyAt entry chosenPos < fatherVal then
          rearrangeTopdownLoop fuel (exchange entry fatherPos chosenPos) chosenPos fatherVal
        else entry
      else if lcPos + 1 = entry.length then
        if keyAt entry lcPos < fatherVal then exchange entry fatherPos lcPos else entry
      else entry

/-- `__rearrange_topdown`. -/
def rearrangeTopdown (heap : ProcessHeap) : ProcessHeap :=
  ⟨rearrangeTopdownLoop heap.entry.length heap.entry 0 (keyAt heap.entry 0)⟩

/-- `heap_init`. -/
def heapInit : ProcessHeap := ⟨[]⟩

/-- `heap_empty`. -/
def heapEmpty (heap : ProcessHeap) : Bool := heap.entry.length == 0

/-- `heap_push`; a full heap is an endless loop. -/
def heapPush (heap : ProcessHeap) (elm : HeapEntry) : Except Stop ProcessHeap :=
  if maxHeapSize ≤ heap.entry.length then .error (.spin .heapPush)
  else .ok (rearrangeBottomup ⟨heap.entry ++ [elm]⟩)

/-- `heap_gettop`; an empty heap is an endless loop. -/
def heapGettop (heap : ProcessHeap) : Except Stop HeapEntry :=
  if heapEmpty heap then .error (.spin .heapGettop) else .ok (entryAt heap.entry 0)

/-- `heap_pop` of a heap that is not empty. -/
def heapPop (heap : ProcessHeap) : HeapEntry × ProcessHeap :=
  let last := entryAt heap.entry (heap.entry.length - 1)
  let moved := if 1 < heap.entry.length then heap.entry.set 0 last else heap.entry
  (entryAt heap.entry 0, rearrangeTopdown ⟨moved.dropLast⟩)

/-! ## Exchanging entries -/

@[simp]
theorem exchange_length (entry : List HeapEntry) (x y : Nat) :
    (exchange entry x y).length = entry.length := by
  simp [exchange]

theorem entryAt_of_lt {entry : List HeapEntry} {i : Nat} (inRange : i < entry.length) :
    entryAt entry i = entry[i] := by
  simp [entryAt, inRange]

theorem exchange_perm {entry : List HeapEntry} {x y : Nat} (xRange : x < entry.length)
    (yRange : y < entry.length) : (exchange entry x y).Perm entry := by
  rw [exchange, entryAt_of_lt xRange, entryAt_of_lt yRange]
  exact List.set_set_perm xRange yRange

theorem entryAt_exchange {entry : List HeapEntry} {x y : Nat} (xRange : x < entry.length)
    (yRange : y < entry.length) :
    entryAt (exchange entry x y) = BinaryHeap.exchange (entryAt entry) x y := by
  funext i
  unfold exchange entryAt BinaryHeap.exchange
  simp only [Function.comp_apply, List.getD_eq_getElem?_getD, List.getElem?_set, List.length_set,
    Equiv.swap_apply_def]
  by_cases atY : y = i
  · subst i
    by_cases same : y = x <;> simp [same, xRange, yRange]
  · by_cases atX : x = i
    · subst i
      simp [atY, xRange]
    · simp [atY, atX, Ne.symm atY, Ne.symm atX]

theorem keyAt_exchange {entry : List HeapEntry} {x y : Nat} (xRange : x < entry.length)
    (yRange : y < entry.length) :
    keyAt (exchange entry x y) = BinaryHeap.exchange (keyAt entry) x y := by
  funext i
  exact congrArg HeapEntry.x (congrFun (entryAt_exchange xRange yRange) i)

/-! ## The repair loops -/

theorem rearrangeBottomupLoop_spec (fuel : Nat) (entry : List HeapEntry) (sonPos : Nat)
    (enough : sonPos ≤ fuel) (inRange : sonPos < entry.length) :
    (rearrangeBottomupLoop fuel entry sonPos (keyAt entry sonPos)).Perm entry ∧
      (BinaryHeap.UpTo (keyAt entry) entry.length sonPos →
        BinaryHeap.Ordered
          (keyAt (rearrangeBottomupLoop fuel entry sonPos (keyAt entry sonPos)))
          entry.length) := by
  induction fuel generalizing entry sonPos with
  | zero =>
      refine ⟨List.Perm.refl _, fun up => up.finish fun positive => ?_⟩
      omega
  | succ fuel ih =>
      unfold rearrangeBottomupLoop
      by_cases moves : getFather sonPos ≠ sonPos
      · have positive : 0 < sonPos := by
          unfold getFather at moves
          omega
        have fatherLt : getFather sonPos < sonPos := BinaryHeap.parent_lt positive
        have fatherRange : getFather sonPos < entry.length := fatherLt.trans inRange
        by_cases above : keyAt entry sonPos < keyAt entry (getFather sonPos)
        · simp only [if_pos moves, if_pos above]
          have keyEq : keyAt entry sonPos =
              keyAt (exchange entry (getFather sonPos) sonPos) (getFather sonPos) := by
            rw [keyAt_exchange fatherRange inRange, BinaryHeap.exchange_left]
          rw [keyEq]
          have rest := ih (exchange entry (getFather sonPos) sonPos) (getFather sonPos)
            (by omega) (by simpa using fatherRange)
          refine ⟨rest.1.trans (exchange_perm fatherRange inRange), fun up => ?_⟩
          have moved := up.step positive inRange above
          rw [← exchange_length entry (getFather sonPos) sonPos]
          apply rest.2
          rw [keyAt_exchange fatherRange inRange, exchange_length]
          exact moved
        · simp only [if_pos moves, if_neg above]
          exact ⟨List.Perm.refl _, fun up => up.finish fun _ => not_lt.mp above⟩
      · simp only [if_neg moves]
        refine ⟨List.Perm.refl _, fun up => up.finish fun positive => ?_⟩
        have fatherLt : getFather sonPos < sonPos := BinaryHeap.parent_lt positive
        omega

/-- An entry that moves up comes to the top only past a greater one. -/
theorem rearrangeBottomupLoop_top (fuel : Nat) (entry : List HeapEntry) (sonPos : Nat)
    (inRange : sonPos < entry.length) :
    entryAt (rearrangeBottomupLoop fuel entry sonPos (keyAt entry sonPos)) 0 = entryAt entry 0 ∨
      entryAt (rearrangeBottomupLoop fuel entry sonPos (keyAt entry sonPos)) 0 =
          entryAt entry sonPos ∧ keyAt entry sonPos < keyAt entry 0 := by
  induction fuel generalizing entry sonPos with
  | zero => exact .inl rfl
  | succ fuel ih =>
      unfold rearrangeBottomupLoop
      by_cases moves : getFather sonPos ≠ sonPos
      · have positive : 0 < sonPos := by
          unfold getFather at moves
          omega
        have fatherLt : getFather sonPos < sonPos := BinaryHeap.parent_lt positive
        have fatherRange : getFather sonPos < entry.length := fatherLt.trans inRange
        by_cases above : keyAt entry sonPos < keyAt entry (getFather sonPos)
        · simp only [if_pos moves, if_pos above]
          have moved : entryAt (exchange entry (getFather sonPos) sonPos) (getFather sonPos) =
              entryAt entry sonPos := by
            rw [entryAt_exchange fatherRange inRange, BinaryHeap.exchange_left]
          have key : keyAt entry sonPos =
              keyAt (exchange entry (getFather sonPos) sonPos) (getFather sonPos) :=
            (congrArg HeapEntry.x moved).symm
          have rest := ih (exchange entry (getFather sonPos) sonPos) (getFather sonPos)
            (by simpa using fatherRange)
          rw [← key, moved] at rest
          by_cases atTop : getFather sonPos = 0
          · have top := moved
            rw [atTop] at top above rest ⊢
            exact .inr ⟨rest.elim (fun same => same.trans top) And.left, above⟩
          · have top : entryAt (exchange entry (getFather sonPos) sonPos) 0 = entryAt entry 0 := by
              rw [entryAt_exchange fatherRange inRange,
                BinaryHeap.exchange_of_ne _ (Ne.symm atTop) (Nat.ne_of_lt positive)]
            have topKey : keyAt (exchange entry (getFather sonPos) sonPos) 0 = keyAt entry 0 :=
              congrArg HeapEntry.x top
            rwa [top, topKey] at rest
        · simp only [if_pos moves, if_neg above]
          exact .inl trivial
      · simp only [if_neg moves]
        exact .inl trivial

/-- The chosen child is a child in range with the least key. -/
theorem minChild_spec (entry : List HeapEntry) (lcPos : Nat) :
    (minChild (keyAt entry lcPos) (keyAt entry (lcPos + 1)) lcPos = lcPos ∨
      minChild (keyAt entry lcPos) (keyAt entry (lcPos + 1)) lcPos = lcPos + 1) ∧
    keyAt entry (minChild (keyAt entry lcPos) (keyAt entry (lcPos + 1)) lcPos) ≤
        keyAt entry lcPos ∧
    keyAt entry (minChild (keyAt entry lcPos) (keyAt entry (lcPos + 1)) lcPos) ≤
        keyAt entry (lcPos + 1) := by
  unfold minChild
  split
  · rename_i less
    exact ⟨.inl rfl, le_rfl, less.le⟩
  · rename_i notLess
    exact ⟨.inr rfl, not_lt.mp notLess, le_rfl⟩

theorem rearrangeTopdownLoop_spec (fuel : Nat) (entry : List HeapEntry) (fatherPos : Nat)
    (enough : entry.length ≤ fuel + fatherPos) :
    (rearrangeTopdownLoop fuel entry fatherPos (keyAt entry fatherPos)).Perm entry ∧
      (BinaryHeap.DownFrom (keyAt entry) entry.length fatherPos →
        BinaryHeap.Ordered
          (keyAt (rearrangeTopdownLoop fuel entry fatherPos (keyAt entry fatherPos)))
          entry.length) := by
  induction fuel generalizing entry fatherPos with
  | zero =>
      refine ⟨List.Perm.refl _, fun down => down.finish fun i positive inRange parentEq => ?_⟩
      have := BinaryHeap.parent_lt positive
      omega
  | succ fuel ih =>
      unfold rearrangeTopdownLoop
      by_cases both : getLc fatherPos + 1 < entry.length
      · simp only [if_pos both]
        obtain ⟨isChild, leLeft, leRight⟩ := minChild_spec entry (getLc fatherPos)
        generalize minChild (keyAt entry (getLc fatherPos)) (keyAt entry (getLc fatherPos + 1))
          (getLc fatherPos) = chosenPos at isChild leLeft leRight ⊢
        have least : ∀ i, 0 < i → i < entry.length → BinaryHeap.parent i = fatherPos →
            keyAt entry chosenPos ≤ keyAt entry i := by
          intro i positive _ parentEq
          rcases BinaryHeap.eq_left_or_right positive parentEq with rfl | rfl
          · exact leLeft
          · exact leRight
        have chosenParent : BinaryHeap.parent chosenPos = fatherPos := by
          rcases isChild with rfl | rfl
          · exact BinaryHeap.parent_left fatherPos
          · exact BinaryHeap.parent_right fatherPos
        unfold getLc at isChild both
        have chosenRange : chosenPos < entry.length := by omega
        have fatherRange : fatherPos < entry.length := by omega
        by_cases below : keyAt entry chosenPos < keyAt entry fatherPos
        · simp only [if_pos below]
          have keyEq : keyAt entry fatherPos =
              keyAt (exchange entry fatherPos chosenPos) chosenPos := by
            rw [keyAt_exchange fatherRange chosenRange, BinaryHeap.exchange_right]
          rw [keyEq]
          have rest := ih (exchange entry fatherPos chosenPos) chosenPos
            (by rw [exchange_length]; omega)
          refine ⟨rest.1.trans (exchange_perm fatherRange chosenRange), fun down => ?_⟩
          have moved := down.step (by omega) chosenRange chosenParent least below
          rw [← exchange_length entry fatherPos chosenPos]
          apply rest.2
          rw [keyAt_exchange fatherRange chosenRange, exchange_length]
          exact moved
        · simp only [if_neg below]
          refine ⟨List.Perm.refl _, fun down => down.finish fun i positive inRange parentEq => ?_⟩
          exact (not_lt.mp below).trans (least i positive inRange parentEq)
      · simp only [if_neg both]
        by_cases single : getLc fatherPos + 1 = entry.length
        · simp only [if_pos single]
          have onlyChild : ∀ i, 0 < i → i < entry.length → BinaryHeap.parent i = fatherPos →
              i = getLc fatherPos := by
            intro i positive inRange parentEq
            unfold getLc at single ⊢
            rcases BinaryHeap.eq_left_or_right positive parentEq with rfl | rfl <;> omega
          by_cases below : keyAt entry (getLc fatherPos) < keyAt entry fatherPos
          · simp only [if_pos below]
            have lcRange : getLc fatherPos < entry.length := by omega
            have fatherRange : fatherPos < entry.length := by
              unfold getLc at lcRange
              omega
            refine ⟨exchange_perm fatherRange lcRange, fun down => ?_⟩
            rw [keyAt_exchange fatherRange lcRange]
            have lcPositive : 0 < getLc fatherPos := Nat.succ_pos _
            have moved := down.step lcPositive lcRange (BinaryHeap.parent_left fatherPos)
              (fun i positive inRange parentEq => by
                rw [onlyChild i positive inRange parentEq]) below
            refine moved.finish fun i positive inRange parentEq => ?_
            have := BinaryHeap.parent_lt positive
            omega
          · simp only [if_neg below]
            refine ⟨List.Perm.refl _, fun down => down.finish fun i positive inRange parentEq => ?_⟩
            rw [onlyChild i positive inRange parentEq]
            exact not_lt.mp below
        · simp only [if_neg single]
          refine ⟨List.Perm.refl _, fun down => down.finish fun i positive inRange parentEq => ?_⟩
          unfold getLc at both single
          rcases BinaryHeap.eq_left_or_right positive parentEq with rfl | rfl <;> omega

/-! ## Push, pop and top -/

/-- The heap is ordered by deadline. -/
def ProcessHeap.Ordered (heap : ProcessHeap) : Prop :=
  BinaryHeap.Ordered (keyAt heap.entry) heap.entry.length

instance (heap : ProcessHeap) : Decidable heap.Ordered :=
  inferInstanceAs (Decidable (BinaryHeap.Ordered _ _))

theorem keyAt_append_of_lt {entry : List HeapEntry} {elm : HeapEntry} {i : Nat}
    (inRange : i < entry.length) : keyAt (entry ++ [elm]) i = keyAt entry i := by
  simp [keyAt, entryAt, List.getElem?_append_left inRange]

theorem heapPush_spec {heap pushed : ProcessHeap} {elm : HeapEntry}
    (push : heapPush heap elm = .ok pushed) :
    heap.entry.length < maxHeapSize ∧ pushed.entry.Perm (elm :: heap.entry) ∧
      (heap.Ordered → pushed.Ordered) := by
  unfold heapPush at push
  split at push
  · contradiction
  · rename_i room
    cases push
    have spec := rearrangeBottomupLoop_spec (heap.entry ++ [elm]).length (heap.entry ++ [elm])
      ((heap.entry ++ [elm]).length - 1) (by omega) (by simp)
    refine ⟨not_le.mp room, ?_, fun ordered => ?_⟩
    · exact spec.1.trans (List.perm_append_singleton _ _)
    · have up : BinaryHeap.UpTo (keyAt (heap.entry ++ [elm])) (heap.entry ++ [elm]).length
          ((heap.entry ++ [elm]).length - 1) := by
        have same : ∀ i < heap.entry.length,
            keyAt (heap.entry ++ [elm]) i = keyAt heap.entry i :=
          fun i inRange => keyAt_append_of_lt inRange
        simpa using ordered.push same
      have result := spec.2 up
      unfold ProcessHeap.Ordered rearrangeBottomup
      simp only [spec.1.length_eq]
      exact result

theorem heapPush_fits {heap pushed : ProcessHeap} {elm : HeapEntry}
    (push : heapPush heap elm = .ok pushed) : pushed.entry.length ≤ maxHeapSize := by
  obtain ⟨room, perm, _⟩ := heapPush_spec push
  rw [perm.length_eq, List.length_cons]
  exact room

theorem heapPush_of_lt {heap : ProcessHeap} {elm : HeapEntry}
    (room : heap.entry.length < maxHeapSize) : ∃ pushed, heapPush heap elm = .ok pushed := by
  unfold heapPush
  rw [if_neg (not_le.mpr room)]
  exact ⟨_, rfl⟩

theorem heapPop_spec {heap : ProcessHeap} (nonempty : heap.entry ≠ []) :
    heap.entry.Perm ((heapPop heap).1 :: (heapPop heap).2.entry) ∧
      (heap.Ordered → (heapPop heap).2.Ordered) := by
  obtain ⟨entry⟩ := heap
  unfold heapPop
  cases entry with
  | nil => contradiction
  | cons first rest =>
      rcases List.eq_nil_or_concat rest with rfl | ⟨front, last, rfl⟩
      · simp [rearrangeTopdown, rearrangeTopdownLoop, entryAt, ProcessHeap.Ordered,
          BinaryHeap.Ordered]
      · have lastEq : entryAt (first :: (front ++ [last]))
            ((first :: (front ++ [last])).length - 1) = last := by
          simp [entryAt]
        have movedEq : ((first :: (front ++ [last])).set 0 last).dropLast = last :: front := by
          rw [List.set_cons_zero, ← List.cons_append, List.dropLast_concat]
        have more : 1 < (first :: (front ++ [last])).length := by simp
        have spec := rearrangeTopdownLoop_spec (last :: front).length (last :: front) 0 (by omega)
        simp only [List.concat_eq_append, lastEq, if_pos more, movedEq]
        constructor
        · refine List.Perm.trans ?_ (List.Perm.cons _ spec.1.symm)
          simp [entryAt]
        · intro ordered
          have keyEq : ∀ i, 0 < i → i < (last :: front).length →
              keyAt (last :: front) i = keyAt (first :: (front ++ [last])) i := by
            intro i positive inRange
            obtain ⟨j, rfl⟩ : ∃ j, i = j + 1 := ⟨i - 1, by omega⟩
            have inFront : j < front.length := by simpa using inRange
            simp [keyAt, entryAt, List.getElem?_append_left inFront]
          have shorter : BinaryHeap.Ordered (keyAt (first :: (front ++ [last])))
              (last :: front).length := ordered.take (by simp)
          have result := spec.2 (shorter.replaceRoot keyEq)
          unfold ProcessHeap.Ordered rearrangeTopdown
          simp only [spec.1.length_eq]
          exact result

/-- The entry popped is the entry at the top. -/
theorem heapPop_fst (heap : ProcessHeap) : (heapPop heap).1 = entryAt heap.entry 0 :=
  rfl

/-- In an ordered heap the entry at the top has a least deadline. -/
theorem ProcessHeap.Ordered.top_le {heap : ProcessHeap} (ordered : heap.Ordered)
    {e : HeapEntry} (mem : e ∈ heap.entry) : (entryAt heap.entry 0).x ≤ e.x := by
  obtain ⟨i, inRange, rfl⟩ := List.getElem_of_mem mem
  have least := ordered.root_le inRange
  rw [keyAt, keyAt, entryAt_of_lt inRange] at least
  exact least

/-- An entry that is pushed on an ordered heap comes to the top only if it is due before the entry
there. -/
theorem heapPush_top {heap pushed : ProcessHeap} {elm : HeapEntry} (ordered : heap.Ordered)
    (push : heapPush heap elm = .ok pushed) :
    entryAt pushed.entry 0 =
      if heap.entry = [] ∨ elm.x < keyAt heap.entry 0 then elm else entryAt heap.entry 0 := by
  obtain ⟨_, perm, keeps⟩ := heapPush_spec push
  have least : keyAt pushed.entry 0 ≤ elm.x :=
    ProcessHeap.Ordered.top_le (keeps ordered) (perm.mem_iff.mpr List.mem_cons_self)
  have moved : entryAt pushed.entry 0 = entryAt (heap.entry ++ [elm]) 0 ∨
      entryAt pushed.entry 0 = elm ∧ elm.x < keyAt (heap.entry ++ [elm]) 0 := by
    have last : entryAt (heap.entry ++ [elm]) ((heap.entry ++ [elm]).length - 1) = elm := by
      simp [entryAt]
    have top := rearrangeBottomupLoop_top (heap.entry ++ [elm]).length (heap.entry ++ [elm])
      ((heap.entry ++ [elm]).length - 1) (by simp)
    unfold heapPush at push
    split at push
    · contradiction
    · cases push
      have lastKey : keyAt (heap.entry ++ [elm]) ((heap.entry ++ [elm]).length - 1) = elm.x :=
        congrArg HeapEntry.x last
      rw [last, lastKey] at top
      rw [rearrangeBottomup, lastKey]
      exact top
  cases entries : heap.entry with
  | nil =>
      rw [entries] at moved
      rw [if_pos (.inl rfl)]
      exact moved.elim id And.left
  | cons first rest =>
      rw [entries] at moved
      change entryAt pushed.entry 0 = first ∨ entryAt pushed.entry 0 = elm ∧ elm.x < first.x at moved
      change entryAt pushed.entry 0 = if first :: rest = [] ∨ elm.x < first.x then elm else first
      rcases moved with stays | ⟨up, before⟩
      · rw [keyAt, stays] at least
        rw [if_neg (by simp [least]), stays]
      · rw [if_pos (.inr before), up]

theorem heapEmpty_eq_false_iff {heap : ProcessHeap} : heapEmpty heap = false ↔ heap.entry ≠ [] := by
  simp [heapEmpty]

theorem entryAt_zero_mem {heap : ProcessHeap} (nonempty : heap.entry ≠ []) :
    entryAt heap.entry 0 ∈ heap.entry := by
  cases entryEq : heap.entry with
  | nil => exact absurd entryEq nonempty
  | cons first rest => simp [entryAt]

end EdfKernel
