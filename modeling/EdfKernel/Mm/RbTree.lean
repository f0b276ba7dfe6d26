import Mathlib.Data.List.Nodup

/-!
# Red-black trees

`kern/libs/rb_tree.c`.  A node is named by what it is linked into; a subtree carries
the links `left` and `right`, and the way up from it, which the code follows along the
`parent` links, is a list of `Crumb`s.  `FUNC_ROTATE` and the `_SUB` macros are written
for a side and its mirror image; here the side is an argument.  A failed assertion of a
rotation is `none`.
-/

namespace EdfKernel.Mm

universe u

/-- A subtree; `nil` is the sentinel. -/
inductive RbTree (α : Type u)
  | nil
  | node (red : Bool) (left : RbTree α) (value : α) (right : RbTree α)
  deriving Repr

inductive Side
  | left
  | right
  deriving DecidableEq, Repr

def Side.other : Side → Side
  | .left => .right
  | .right => .left

/-- A node on the way up: the subtree hangs on its `side`. -/
structure Crumb (α : Type u) where
  side : Side
  red : Bool
  value : α
  sibling : RbTree α

namespace RbTree

variable {α : Type u}

def isRed : RbTree α → Bool
  | nil => false
  | node red _ _ _ => red

/-- `node->red = red`. -/
def setRed (red : Bool) : RbTree α → RbTree α
  | nil => nil
  | node _ left value right => node red left value right

/-- The node with the given child on `side` and the other child opposite. -/
def join (side : Side) (red : Bool) (near : RbTree α) (value : α) (far : RbTree α) : RbTree α :=
  match side with
  | .left => node red near value far
  | .right => node red far value near

/-- The colour, the child on `side`, the value and the other child of a node. -/
def split (side : Side) : RbTree α → Option (Bool × RbTree α × α × RbTree α)
  | nil => none
  | node red left value right =>
      match side with
      | .left => some (red, left, value, right)
      | .right => some (red, right, value, left)

/-- The whole tree around a subtree. -/
def plug : RbTree α → List (Crumb α) → RbTree α
  | t, [] => t
  | t, crumb :: path => plug (join crumb.side crumb.red t crumb.value crumb.sibling) path

/-- The nodes in order. -/
def toList : RbTree α → List α
  | nil => []
  | node _ left value right => left.toList ++ value :: right.toList

/-! ## Rotation -/

/-- `rb_left_rotate` for `side = left`, `rb_right_rotate` for `side = right`. -/
def rotate (side : Side) (t : RbTree α) : Option (RbTree α) := do
  let (red, near, value, y) ← t.split side
  let (redY, nearY, valueY, farY) ← y.split side
  return join side redY (join side red near value nearY) valueY farY

/-- The rotation that the fixups make first, unless the red node is on the outer side. -/
def rotateUnless (outer : Bool) (side : Side) (t : RbTree α) : Option (RbTree α) :=
  if outer then some t else rotate side t

/-! ## Insertion -/

/-- The position at which `rb_insert_binary` hangs a node into the tree. -/
def insertPosition (compare : α → α → Ordering) (node : α) :
    RbTree α → List (Crumb α) → List (Crumb α)
  | nil, path => path
  | .node red left value right, path =>
      match compare value node with
      | .gt => insertPosition compare node left (⟨.left, red, value, right⟩ :: path)
      | _ => insertPosition compare node right (⟨.right, red, value, left⟩ :: path)

/-- The loop of `rb_insert` at the node `x`. -/
def insertFixup : RbTree α → List (Crumb α) → Option (RbTree α)
  | x, [] => some x
  | x, [parent] => if parent.red then none else some (plug x [parent])
  | x, parent :: grand :: path =>
      if parent.red then
        if grand.sibling.isRed then
          insertFixup (join grand.side true
            (join parent.side false x parent.value parent.sibling) grand.value
            (grand.sibling.setRed false)) path
        else do
          let up ← rotateUnless (parent.side = grand.side) grand.side
            (join parent.side parent.red x parent.value parent.sibling)
          let top ← rotate grand.side.other
            (join grand.side true (up.setRed false) grand.value grand.sibling)
          return plug top path
      else some (plug x (parent :: grand :: path))

/-- `rb_insert`. -/
def rbInsert (compare : α → α → Ordering) (t : RbTree α) (node : α) : Option (RbTree α) := do
  let path := insertPosition compare node t []
  let t ← insertFixup (.node true nil node nil) path
  return t.setRed false

/-! ## Neighbours -/

/-- The subtree at a node and the way up from it. -/
def locate [DecidableEq α] (target : α) : RbTree α → List (Crumb α) →
    Option (RbTree α × List (Crumb α))
  | nil, _ => none
  | node red left value right, path =>
      if value = target then some (node red left value right, path)
      else
        match locate target left (⟨.left, red, value, right⟩ :: path) with
        | some found => some found
        | none => locate target right (⟨.right, red, value, left⟩ :: path)

/-- The node that the `right` links of a subtree lead to. -/
def rightmost : RbTree α → Option α
  | nil => none
  | node _ _ value right => some ((rightmost right).getD value)

/-- The first node on the way up whose `right` link the way follows. -/
def climb : List (Crumb α) → Option α
  | [] => none
  | crumb :: path =>
      match crumb.side with
      | .left => climb path
      | .right => some crumb.value

/-- `rb_node_prev`. -/
def rbNodePrev [DecidableEq α] (t : RbTree α) (target : α) : Option α :=
  match locate target t [] with
  | some (node _ left _ _, path) =>
      match left with
      | nil => climb path
      | left => rightmost left
  | _ => none

/-! ## Deletion -/

/-- The end of `rb_delete_fixup`, at a sibling with a red child. -/
def deleteFinish (x : RbTree α) (parent : Crumb α) (path : List (Crumb α)) (red : Bool)
    (near : RbTree α) (value : α) (far : RbTree α) : Option (RbTree α) := do
  let sibling ← rotateUnless far.isRed parent.side.other
    (if far.isRed then join parent.side red near value far
    else join parent.side true (near.setRed false) value far)
  let (_, near, value, far) ← sibling.split parent.side
  let top ← rotate parent.side
    (join parent.side false x parent.value
      (join parent.side parent.red near value (far.setRed false)))
  -- the node that was the root is black already if it was the parent
  return if path.isEmpty then plug top path else (plug top path).setRed false

/-- One round of `rb_delete_fixup` at the node `x` below `parent`, after a red sibling has been
raised: either the loop goes on at the parent, or the tree is finished. -/
def deleteRound (x : RbTree α) (parent : Crumb α) (path : List (Crumb α)) :
    Option (RbTree α × List (Crumb α) ⊕ RbTree α) := do
  let (red, near, value, far) ← parent.sibling.split parent.side
  if near.isRed = false ∧ far.isRed = false then
    return .inl (join parent.side parent.red x parent.value (parent.sibling.setRed true), path)
  else
    return .inr (← deleteFinish x parent path red near value far)

/-- A red sibling is rotated above the parent, which is then red. -/
def deleteRaise (parent : Crumb α) (path : List (Crumb α)) : Option (Crumb α × List (Crumb α)) :=
  if parent.sibling.isRed then do
    let (_, near, value, far) ← parent.sibling.split parent.side
    return (⟨parent.side, true, parent.value, near⟩, ⟨parent.side, false, value, far⟩ :: path)
  else some (parent, path)

/-- `rb_delete_fixup`. -/
def deleteFixup : Nat → RbTree α → List (Crumb α) → Option (RbTree α)
  | 0, _, _ => none
  | _ + 1, x, [] => some (x.setRed false)
  | fuel + 1, x, parent :: path =>
      if x.isRed then some (plug (x.setRed false) (parent :: path))
      else do
        let (parent, path) ← deleteRaise parent path
        match ← deleteRound x parent path with
        | .inl (x, path) => deleteFixup fuel x path
        | .inr t => some t

/-- The way down to the leftmost node of a subtree: its colour, value and right child, and
the way up from that child's place. -/
def leftmost : Bool → RbTree α → α → RbTree α → List (Crumb α) →
    Bool × α × RbTree α × List (Crumb α)
  | red, nil, value, right, path => (red, value, right, path)
  | red, node redL leftL valueL rightL, value, right, path =>
      leftmost redL leftL valueL rightL (⟨.left, red, value, right⟩ :: path)

/-- `rb_delete`. -/
def rbDelete [DecidableEq α] (t : RbTree α) (target : α) : Option (RbTree α) := do
  let (subtree, path) ← locate target t []
  let finish (red : Bool) (x : RbTree α) (path : List (Crumb α)) : Option (RbTree α) :=
    if red then some (plug x path) else deleteFixup (2 * path.length + 2) x path
  match subtree with
  | nil => none
  | node red nil _ right => finish red right path
  | node red left _ nil => finish red left path
  | node red left _ (node redR leftR valueR rightR) =>
      -- the successor takes the place and the colour of the node
      let (redY, valueY, x, down) := leftmost redR leftR valueR rightR []
      finish redY x (down ++ ⟨.right, red, valueY, left⟩ :: path)

/-! ## Order -/

@[simp]
theorem toList_setRed (red : Bool) (t : RbTree α) : (t.setRed red).toList = t.toList := by
  cases t <;> rfl

theorem toList_join (side : Side) (red : Bool) (near : RbTree α) (value : α) (far : RbTree α) :
    (join side red near value far).toList =
      match side with
      | .left => near.toList ++ value :: far.toList
      | .right => far.toList ++ value :: near.toList := by
  cases side <;> rfl

theorem toList_join_congr (side : Side) {red red' : Bool} {near near' far far' : RbTree α}
    (value : α) (sameNear : near'.toList = near.toList) (sameFar : far'.toList = far.toList) :
    (join side red' near' value far').toList = (join side red near value far).toList := by
  rw [toList_join, toList_join, sameNear, sameFar]

theorem split_eq_some_iff {side : Side} {t : RbTree α} {red : Bool} {near far : RbTree α}
    {value : α} : t.split side = some (red, near, value, far) ↔ t = join side red near value far := by
  cases t with
  | nil => cases side <;> simp [split, join]
  | node red left value right => cases side <;> simp [split, join]; tauto

theorem rotate_eq_some {side : Side} {t t' : RbTree α} (rotated : t.rotate side = some t') :
    ∃ red near value redY nearY valueY farY,
      t = join side red near value (join side redY nearY valueY farY) ∧
        t' = join side redY (join side red near value nearY) valueY farY := by
  simp only [rotate, Option.bind_eq_bind, Option.bind_eq_some_iff] at rotated
  obtain ⟨⟨red, near, value, y⟩, outer, ⟨redY, nearY, valueY, farY⟩, inner, result⟩ := rotated
  cases result
  rw [split_eq_some_iff] at outer
  subst outer
  replace inner : y = join side redY nearY valueY farY := split_eq_some_iff.mp inner
  exact ⟨red, near, value, redY, nearY, valueY, farY, by rw [inner], rfl⟩

/-- Rotation keeps the order of the nodes. -/
theorem rotate_toList {side : Side} {t t' : RbTree α} (rotated : t.rotate side = some t') :
    t'.toList = t.toList := by
  obtain ⟨red, near, value, redY, nearY, valueY, farY, rfl, rfl⟩ := rotate_eq_some rotated
  cases side <;> simp [join, toList]

theorem rotateUnless_toList {outer : Bool} {side : Side} {t t' : RbTree α}
    (rotated : rotateUnless outer side t = some t') : t'.toList = t.toList := by
  unfold rotateUnless at rotated
  split at rotated
  · cases rotated
    rfl
  · exact rotate_toList rotated

/-- The nodes before and after the subtree that a way up starts from. -/
def around : List (Crumb α) → List α × List α
  | [] => ([], [])
  | crumb :: path =>
      match crumb.side with
      | .left => ((around path).1, crumb.value :: crumb.sibling.toList ++ (around path).2)
      | .right => ((around path).1 ++ crumb.sibling.toList ++ [crumb.value], (around path).2)

theorem plug_toList (t : RbTree α) (path : List (Crumb α)) :
    (plug t path).toList = (around path).1 ++ t.toList ++ (around path).2 := by
  induction path generalizing t with
  | nil => simp [plug, around]
  | cons crumb path ih =>
      rw [plug, ih, toList_join, around]
      cases crumb.side <;> simp

theorem plug_toList_congr {t t' : RbTree α} (same : t'.toList = t.toList) (path : List (Crumb α)) :
    (plug t' path).toList = (plug t path).toList := by
  rw [plug_toList, plug_toList, same]

/-! ### Insertion -/

theorem insertFixup_toList {x t : RbTree α} {path : List (Crumb α)}
    (fixed : insertFixup x path = some t) : t.toList = (plug x path).toList := by
  induction x, path using insertFixup.induct with
  | case1 x =>
      cases fixed
      rfl
  | case2 x parent red => simp [insertFixup, red] at fixed
  | case3 x parent black =>
      rw [insertFixup, if_neg black] at fixed
      cases fixed
      rfl
  | case4 x parent grand path redParent redUncle ih =>
      rw [insertFixup, if_pos redParent, if_pos redUncle] at fixed
      rw [ih fixed, plug, plug]
      apply plug_toList_congr
      apply toList_join_congr
      · exact toList_join_congr _ _ rfl rfl
      · exact toList_setRed _ _
  | case5 x parent grand path redParent blackUncle =>
      rw [insertFixup, if_pos redParent, if_neg blackUncle] at fixed
      simp only [Option.bind_eq_bind, Option.bind_eq_some_iff] at fixed
      obtain ⟨up, first, top, second, result⟩ := fixed
      cases result
      rw [plug, plug]
      apply plug_toList_congr
      rw [rotate_toList second]
      apply toList_join_congr
      · rw [toList_setRed, rotateUnless_toList first]
      · rfl
  | case6 x parent grand path blackParent =>
      rw [insertFixup, if_neg blackParent] at fixed
      cases fixed
      rfl

/-- The new node stands after the nodes that are not greater and before those that are. -/
theorem insertPosition_around {compare : α → α → Ordering} {node : α} {t : RbTree α}
    {path : List (Crumb α)}
    (monotone : t.toList.Pairwise fun a b => compare a node = .gt → compare b node = .gt) :
    ∃ before after, t.toList = before ++ after ∧
      around (insertPosition compare node t path) =
        ((around path).1 ++ before, after ++ (around path).2) ∧
      (∀ a ∈ before, compare a node ≠ .gt) ∧ ∀ a ∈ after, compare a node = .gt := by
  induction t generalizing path with
  | nil => exact ⟨[], [], rfl, by simp [insertPosition], by simp, by simp⟩
  | node red left value right ihLeft ihRight =>
      rw [toList, List.pairwise_append] at monotone
      obtain ⟨monoLeft, monoRest, across⟩ := monotone
      rw [List.pairwise_cons] at monoRest
      rw [insertPosition]
      split
      · rename_i greater
        obtain ⟨before, after, list, position, low, high⟩ :=
          @ihLeft (⟨.left, red, value, right⟩ :: path) monoLeft
        refine ⟨before, after ++ value :: right.toList, by simp [toList, list], ?_, low, ?_⟩
        · rw [position]
          simp [around]
        · intro a mem
          rcases List.mem_append.mp mem with inAfter | inRest
          · exact high a inAfter
          · rcases List.mem_cons.mp inRest with rfl | inRight
            · exact greater
            · exact monoRest.1 a inRight greater
      · rename_i notGreater
        obtain ⟨before, after, list, position, low, high⟩ :=
          @ihRight (⟨.right, red, value, left⟩ :: path) monoRest.2
        refine ⟨left.toList ++ value :: before, after, by simp [toList, list], ?_, ?_, high⟩
        · rw [position]
          simp [around]
        · intro a mem
          rcases List.mem_append.mp mem with inLeft | inRest
          · exact fun greater => notGreater (across a inLeft value List.mem_cons_self greater)
          · rcases List.mem_cons.mp inRest with rfl | inBefore
            · exact notGreater
            · exact low a inBefore

/-- `rb_insert` adds the node between the nodes that are not greater and those that are. -/
theorem rbInsert_toList {compare : α → α → Ordering} {node : α} {t t' : RbTree α}
    (monotone : t.toList.Pairwise fun a b => compare a node = .gt → compare b node = .gt)
    (inserted : rbInsert compare t node = some t') :
    ∃ before after, t.toList = before ++ after ∧ t'.toList = before ++ node :: after ∧
      (∀ a ∈ before, compare a node ≠ .gt) ∧ ∀ a ∈ after, compare a node = .gt := by
  simp only [rbInsert, Option.bind_eq_bind, Option.bind_eq_some_iff] at inserted
  obtain ⟨fixed, fixup, result⟩ := inserted
  cases result
  obtain ⟨before, after, list, position, low, high⟩ :=
    @insertPosition_around _ _ _ _ [] monotone
  refine ⟨before, after, list, ?_, low, high⟩
  rw [toList_setRed, insertFixup_toList fixup, plug_toList, position]
  simp [around, toList]

/-! ### Deletion -/

theorem deleteRaise_toList {x : RbTree α} {parent parent' : Crumb α} {path path' : List (Crumb α)}
    (raised : deleteRaise parent path = some (parent', path')) :
    (plug x (parent' :: path')).toList = (plug x (parent :: path)).toList := by
  unfold deleteRaise at raised
  split at raised
  · simp only [Option.bind_eq_bind, Option.bind_eq_some_iff] at raised
    obtain ⟨⟨red, near, value, far⟩, shape, result⟩ := raised
    cases result
    rw [split_eq_some_iff] at shape
    rw [plug, plug, plug]
    apply plug_toList_congr
    rw [shape]
    cases parent.side <;> simp [join, toList]
  · cases raised
    rfl

theorem deleteFinish_toList {x t near far : RbTree α} {parent : Crumb α} {value : α} {red : Bool}
    {path : List (Crumb α)} (shape : parent.sibling = join parent.side red near value far)
    (finished : deleteFinish x parent path red near value far = some t) :
    t.toList = (plug x (parent :: path)).toList := by
  simp only [deleteFinish, Option.bind_eq_bind, Option.bind_eq_some_iff] at finished
  obtain ⟨sibling, first, ⟨redS, nearS, valueS, farS⟩, split, top, second, result⟩ := finished
  replace split : sibling = join parent.side redS nearS valueS farS := split_eq_some_iff.mp split
  have inner := rotateUnless_toList first
  have same : sibling.toList = parent.sibling.toList := by
    rw [inner, shape]
    split
    · rfl
    · exact toList_join_congr _ _ (toList_setRed _ _) rfl
  have upper : top.toList = (join parent.side parent.red x parent.value parent.sibling).toList := by
    rw [rotate_toList second]
    apply toList_join_congr
    · rfl
    · rw [← same, split]
      exact toList_join_congr _ _ rfl (toList_setRed _ _)
  have whole : t.toList = (plug top path).toList := by
    cases result
    split <;> simp
  rw [whole, plug]
  exact plug_toList_congr upper path

/-- A round keeps the order of the nodes. -/
theorem deleteRound_toList {x : RbTree α} {parent : Crumb α} {path : List (Crumb α)}
    {result : RbTree α × List (Crumb α) ⊕ RbTree α}
    (round : deleteRound x parent path = some result) :
    result.elim (fun next => (plug next.1 next.2).toList) toList =
      (plug x (parent :: path)).toList := by
  simp only [deleteRound, Option.bind_eq_bind, Option.bind_eq_some_iff] at round
  obtain ⟨⟨red, near, value, far⟩, shape, round⟩ := round
  rw [split_eq_some_iff] at shape
  split at round
  · cases round
    rw [Sum.elim_inl, plug]
    apply plug_toList_congr
    exact toList_join_congr _ _ rfl (toList_setRed _ _)
  · obtain ⟨t, finished, result⟩ := Option.bind_eq_some_iff.mp round
    cases result
    exact deleteFinish_toList shape finished

theorem deleteFixup_toList {fuel : Nat} {x t : RbTree α} {path : List (Crumb α)}
    (fixed : deleteFixup fuel x path = some t) : t.toList = (plug x path).toList := by
  induction fuel generalizing x path with
  | zero => cases fixed
  | succ fuel ih =>
      cases path with
      | nil =>
          cases fixed
          exact toList_setRed _ _
      | cons parent path =>
          rw [deleteFixup] at fixed
          split at fixed
          · cases fixed
            exact plug_toList_congr (toList_setRed _ _) _
          · simp only [Option.bind_eq_bind, Option.bind_eq_some_iff] at fixed
            obtain ⟨⟨parent', path'⟩, raised, result, round, rest⟩ := fixed
            have same := deleteRound_toList round
            rw [deleteRaise_toList raised] at same
            cases result with
            | inl next => exact (ih rest).trans same
            | inr done =>
                cases rest
                exact same

theorem leftmost_toList {red redY : Bool} {left right x : RbTree α} {value valueY : α}
    {path down : List (Crumb α)}
    (found : leftmost red left value right path = (redY, valueY, x, down)) :
    (plug (.node red left value right) path).toList =
      (around down).1 ++ valueY :: x.toList ++ (around down).2 := by
  induction left generalizing red value right path with
  | nil =>
      cases found
      rw [plug_toList]
      simp [toList]
  | node redL leftL valueL rightL ih _ =>
      rw [leftmost] at found
      rw [← ih found]
      rfl

theorem leftmost_before {red : Bool} {left right : RbTree α} {value : α} {path : List (Crumb α)}
    (first : (around path).1 = []) :
    (around (leftmost red left value right path).2.2.2).1 = [] := by
  induction left generalizing red value right path with
  | nil => exact first
  | node redL leftL valueL rightL ih _ => exact ih first

theorem around_append (down path : List (Crumb α)) :
    around (down ++ path) =
      ((around path).1 ++ (around down).1, (around down).2 ++ (around path).2) := by
  induction down with
  | nil => simp [around]
  | cons crumb down ih =>
      rw [List.cons_append, around, ih, around]
      cases crumb.side <;> simp

theorem rightmost_toList (t : RbTree α) : rightmost t = t.toList.getLast? := by
  induction t with
  | nil => rfl
  | node red left value right _ ih =>
      rw [rightmost, ih, toList, List.getLast?_append, List.getLast?_cons]
      simp

theorem climb_around (path : List (Crumb α)) : climb path = (around path).1.getLast? := by
  induction path with
  | nil => rfl
  | cons crumb path ih =>
      rw [climb, around]
      cases crumb.side with
      | left => exact ih
      | right => simp

section Locate

variable [DecidableEq α]

theorem locate_eq_some {target : α} {t subtree : RbTree α} {path up : List (Crumb α)}
    (found : locate target t up = some (subtree, path)) :
    (plug subtree path).toList = (plug t up).toList ∧
      ∃ red left right, subtree = .node red left target right := by
  induction t generalizing up with
  | nil => cases found
  | node red left value right ihLeft ihRight =>
      rw [locate] at found
      split at found
      · rename_i here
        cases found
        exact ⟨rfl, red, left, right, by rw [here]⟩
      · split at found
        · rename_i inLeft
          cases found
          exact ihLeft inLeft
        · exact ihRight found

theorem locate_eq_none {target : α} {t : RbTree α} {up : List (Crumb α)}
    (missing : locate target t up = none) : target ∉ t.toList := by
  induction t generalizing up with
  | nil => exact List.not_mem_nil
  | node red left value right ihLeft ihRight =>
      rw [locate] at missing
      split at missing
      · cases missing
      · rename_i other
        split at missing
        · cases missing
        · rename_i notLeft
          simp only [toList, List.mem_append, List.mem_cons, not_or]
          exact ⟨ihLeft notLeft, fun same => other same.symm, ihRight missing⟩

/-- `rb_delete` removes one node. -/
theorem rbDelete_toList {target : α} {t t' : RbTree α} (deleted : rbDelete t target = some t') :
    ∃ before after, t.toList = before ++ target :: after ∧ t'.toList = before ++ after := by
  simp only [rbDelete, Option.bind_eq_bind, Option.bind_eq_some_iff] at deleted
  obtain ⟨⟨subtree, path⟩, found, spliced⟩ := deleted
  obtain ⟨whole, red, left, right, rfl⟩ := locate_eq_some found
  rw [plug, plug_toList] at whole
  have finish : ∀ {redY : Bool} {x : RbTree α} {path : List (Crumb α)},
      (if redY then some (plug x path) else deleteFixup (2 * path.length + 2) x path) = some t' →
      t'.toList = (around path).1 ++ x.toList ++ (around path).2 := by
    intro redY x path finished
    rw [← plug_toList]
    split at finished
    · cases finished
      rfl
    · exact deleteFixup_toList finished
  refine ⟨(around path).1 ++ left.toList, right.toList ++ (around path).2, ?_, ?_⟩
  · simp [← whole, toList]
  · simp only at spliced
    split at spliced
    · rename_i shape
      cases shape
    · rename_i shape
      cases shape
      simp [finish spliced, toList]
    · rename_i shape
      cases shape
      simp [finish spliced, toList]
    · rename_i shape
      cases shape
      rename_i redR leftR valueR rightR _
      have down := leftmost_toList
        (rfl : leftmost redR leftR valueR rightR [] = (_, _, _, _))
      have first : (around (leftmost redR leftR valueR rightR []).2.2.2).1 = [] :=
        leftmost_before rfl
      rw [first, plug] at down
      rw [finish spliced, around_append, first]
      simp [around, down]

/-- `rb_node_prev` returns the node before. -/
theorem rbNodePrev_toList {target : α} {t : RbTree α} {before after : List α}
    (list : t.toList = before ++ target :: after) (nodup : t.toList.Nodup) :
    rbNodePrev t target = before.getLast? := by
  unfold rbNodePrev
  cases found : locate target t [] with
  | none =>
      have missing := locate_eq_none found
      rw [list] at missing
      exact absurd (by simp) missing
  | some pair =>
      obtain ⟨subtree, path⟩ := pair
      obtain ⟨whole, red, left, right, rfl⟩ := locate_eq_some found
      rw [plug, plug_toList] at whole
      have split : ((around path).1 ++ left.toList) ++ target :: (right.toList ++ (around path).2) =
          before ++ target :: after := by
        rw [← list, ← whole]
        simp [toList]
      rw [list, ← split, List.nodup_middle, List.nodup_cons, List.mem_append, not_or] at nodup
      have same : (around path).1 ++ left.toList = before :=
        ((List.append_cons_inj_of_notMem nodup.1.1 nodup.1.2).mp split).1
      simp only
      rw [← same]
      cases left with
      | nil => simp [climb_around, toList]
      | node redL leftL valueL rightL =>
          change rightmost (.node redL leftL valueL rightL) = _
          rw [rightmost_toList, List.getLast?_append_of_ne_nil _ (by simp [toList])]

end Locate

end RbTree

end EdfKernel.Mm
