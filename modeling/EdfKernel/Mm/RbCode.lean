import EdfKernel.Mm.RbTree
import Mathlib.Logic.Function.Basic

/-!
# The code of red-black trees

`kern/libs/rb_tree.c` on the nodes in memory, with the sentinels `nil` and `root` and the links
in both directions.  `FUNC_ROTATE` and the `_SUB` macros take the side as an argument.  A loop
that runs out of fuel, and an assertion that fails, stops the code.
-/

namespace EdfKernel.Mm

abbrev NodePtr := Nat

/-- `struct rb_node`. -/
structure RbNode where
  red : Bool
  parent : NodePtr
  left : NodePtr
  right : NodePtr
  deriving DecidableEq, Repr

namespace RbNode

/-- `node->_left` of the macros. -/
def child (side : Side) (n : RbNode) : NodePtr :=
  match side with
  | .left => n.left
  | .right => n.right

def setChild (side : Side) (p : NodePtr) (n : RbNode) : RbNode :=
  match side with
  | .left => { n with left := p }
  | .right => { n with right := p }

end RbNode

/-- The nodes in memory. -/
abbrev RbNodes := NodePtr → RbNode

namespace RbNodes

def modify (nodes : RbNodes) (p : NodePtr) (change : RbNode → RbNode) : RbNodes :=
  Function.update nodes p (change (nodes p))

theorem modify_self (nodes : RbNodes) (p : NodePtr) (change : RbNode → RbNode) :
    nodes.modify p change p = change (nodes p) :=
  Function.update_self ..

theorem modify_of_ne (nodes : RbNodes) {p q : NodePtr} (change : RbNode → RbNode) (other : q ≠ p) :
    nodes.modify p change q = nodes q :=
  Function.update_of_ne other ..

def setRed (nodes : RbNodes) (p : NodePtr) (red : Bool) : RbNodes :=
  nodes.modify p fun n => { n with red := red }

def setParent (nodes : RbNodes) (p parent : NodePtr) : RbNodes :=
  nodes.modify p fun n => { n with parent := parent }

def setChild (nodes : RbNodes) (p : NodePtr) (side : Side) (child : NodePtr) : RbNodes :=
  nodes.modify p (RbNode.setChild side child)

section SetRed

variable (nodes : RbNodes) (p q : NodePtr) (red : Bool)

theorem setRed_self : nodes.setRed p red p = { nodes p with red := red } :=
  modify_self ..

theorem setRed_of_ne {q : NodePtr} (other : q ≠ p) : nodes.setRed p red q = nodes q :=
  modify_of_ne _ _ other

theorem setRed_apply :
    nodes.setRed p red q = { nodes q with red := if q = p then red else (nodes q).red } := by
  by_cases same : q = p
  · rw [same, setRed_self, if_pos rfl]
  · rw [setRed_of_ne _ _ _ same, if_neg same]

@[simp]
theorem setRed_parent : (nodes.setRed p red q).parent = (nodes q).parent := by
  rw [setRed_apply]

@[simp]
theorem setRed_left : (nodes.setRed p red q).left = (nodes q).left := by
  rw [setRed_apply]

@[simp]
theorem setRed_right : (nodes.setRed p red q).right = (nodes q).right := by
  rw [setRed_apply]

@[simp]
theorem setRed_child (side : Side) :
    (nodes.setRed p red q).child side = (nodes q).child side := by
  cases side <;> simp [RbNode.child]

theorem setRed_of_eq (same : (nodes p).red = red) : nodes.setRed p red = nodes := by
  funext q
  rw [setRed_apply]
  by_cases at_p : q = p
  · rw [at_p, if_pos rfl, ← same]
  · rw [if_neg at_p]

@[simp]
theorem setParent_red (parent : NodePtr) : (nodes.setParent p parent q).red = (nodes q).red := by
  by_cases same : q = p
  · rw [same, setParent, modify_self]
  · rw [setParent, modify_of_ne _ _ same]

@[simp]
theorem setChild_red (side : Side) (child : NodePtr) :
    (nodes.setChild p side child q).red = (nodes q).red := by
  by_cases same : q = p
  · rw [same, setChild, modify_self]
    cases side <;> rfl
  · rw [setChild, modify_of_ne _ _ same]

end SetRed

end RbNodes

/-- Why the code of a tree stops. -/
inductive RbStop
  | rotateNodes
  | rotateNil
  | insertSentinels
  | deleteNode
  | spin
  deriving DecidableEq, Repr

@[simp]
theorem RbStop.ok_bind {α β : Type} (a : α) (next : α → Except RbStop β) :
    (Except.ok a >>= next) = next a :=
  rfl

@[simp]
theorem RbStop.pure_eq {α : Type} (a : α) : (pure a : Except RbStop α) = .ok a :=
  rfl

/-- `struct rb_tree`. -/
structure RbHead where
  compare : NodePtr → NodePtr → Int
  nil : NodePtr
  root : NodePtr

namespace RbHead

variable (tree : RbHead)

/-- `rb_tree_create` with the memory that `kmalloc` returned for the sentinels. -/
def create (nodes : RbNodes) : RbNodes :=
  let nodes := nodes.modify tree.nil fun _ => ⟨false, tree.nil, tree.nil, tree.nil⟩
  nodes.modify tree.root fun _ => ⟨false, tree.nil, tree.nil, tree.nil⟩

/-- `rb_left_rotate` for `side = left`, `rb_right_rotate` for `side = right`. -/
def rotate (side : Side) (nodes : RbNodes) (x : NodePtr) : Except RbStop RbNodes :=
  let y := (nodes x).child side.other
  if ¬(x ≠ tree.root ∧ x ≠ tree.nil ∧ y ≠ tree.nil) then .error .rotateNodes
  else
    let nodes := nodes.setChild x side.other ((nodes y).child side)
    let nodes :=
      if (nodes y).child side ≠ tree.nil then nodes.setParent ((nodes y).child side) x else nodes
    let nodes := nodes.setParent y (nodes x).parent
    let nodes :=
      if x = (nodes (nodes x).parent).child side then nodes.setChild (nodes x).parent side y
      else nodes.setChild (nodes x).parent side.other y
    let nodes := nodes.setChild y side x
    let nodes := nodes.setParent x y
    if (nodes tree.nil).red then .error .rotateNil else .ok nodes

/-! ## Insertion -/

/-- The loop of `rb_insert_binary`. -/
def insertDescend (nodes : RbNodes) (node : NodePtr) :
    Nat → NodePtr → NodePtr → Except RbStop NodePtr
  | fuel, y, x =>
      if x = tree.nil then .ok y
      else
        match fuel with
        | 0 => .error .spin
        | fuel + 1 =>
            insertDescend nodes node fuel x
              (if 0 < tree.compare x node then (nodes x).left else (nodes x).right)

/-- `rb_insert_binary`. -/
def insertBinary (fuel : Nat) (nodes : RbNodes) (z : NodePtr) : Except RbStop RbNodes := do
  let nodes := nodes.modify z fun n => { n with left := tree.nil, right := tree.nil }
  let y ← tree.insertDescend nodes z fuel tree.root (nodes tree.root).left
  let nodes := nodes.setParent z y
  return if y = tree.root ∨ 0 < tree.compare y z then nodes.setChild y .left z
    else nodes.setChild y .right z

/-- `RB_INSERT_SUB` with the node at which the loop goes on. -/
def insertSub (side : Side) (nodes : RbNodes) (x : NodePtr) : Except RbStop (RbNodes × NodePtr) :=
  let y := (nodes (nodes (nodes x).parent).parent).child side.other
  if (nodes y).red then
    let nodes := nodes.setRed (nodes x).parent false
    let nodes := nodes.setRed y false
    let nodes := nodes.setRed (nodes (nodes x).parent).parent true
    .ok (nodes, (nodes (nodes x).parent).parent)
  else do
    let (nodes, x) ←
      (if x = (nodes (nodes x).parent).child side.other then do
        let x := (nodes x).parent
        let nodes ← tree.rotate side nodes x
        return (nodes, x)
      else .ok (nodes, x))
    let nodes := nodes.setRed (nodes x).parent false
    let nodes := nodes.setRed (nodes (nodes x).parent).parent true
    let nodes ← tree.rotate side.other nodes (nodes (nodes x).parent).parent
    return (nodes, x)

/-- The loop of `rb_insert`. -/
def insertLoop : Nat → RbNodes → NodePtr → Except RbStop RbNodes
  | fuel, nodes, x =>
      if (nodes (nodes x).parent).red then
        match fuel with
        | 0 => .error .spin
        | fuel + 1 => do
            let side :=
              if (nodes x).parent = (nodes (nodes (nodes x).parent).parent).left then Side.left
              else .right
            let (nodes, x) ← tree.insertSub side nodes x
            insertLoop fuel nodes x
      else .ok nodes

/-- `rb_insert`. -/
def insert (fuel : Nat) (nodes : RbNodes) (node : NodePtr) : Except RbStop RbNodes := do
  let nodes ← tree.insertBinary fuel nodes node
  let nodes := nodes.setRed node true
  let nodes ← tree.insertLoop fuel nodes node
  let nodes := nodes.setRed (nodes tree.root).left false
  if (nodes tree.nil).red ∨ (nodes tree.root).red then .error .insertSentinels else return nodes

/-! ## Neighbours -/

/-- Follow the links on one side to their end. -/
def descend (side : Side) (nodes : RbNodes) : Nat → NodePtr → Except RbStop NodePtr
  | fuel, y =>
      if (nodes y).child side = tree.nil then .ok y
      else
        match fuel with
        | 0 => .error .spin
        | fuel + 1 => descend side nodes fuel ((nodes y).child side)

/-- The second loop of `rb_tree_successor`. -/
def successorClimb (nodes : RbNodes) : Nat → NodePtr → NodePtr → Except RbStop NodePtr
  | fuel, x, y =>
      if x = (nodes y).right then
        match fuel with
        | 0 => .error .spin
        | fuel + 1 => successorClimb nodes fuel y (nodes y).parent
      else .ok (if y = tree.root then tree.nil else y)

/-- `rb_tree_successor`. -/
def successor (fuel : Nat) (nodes : RbNodes) (x : NodePtr) : Except RbStop NodePtr :=
  if (nodes x).right ≠ tree.nil then tree.descend .left nodes fuel (nodes x).right
  else tree.successorClimb nodes fuel x (nodes x).parent

/-- The second loop of `rb_tree_predecessor`. -/
def predecessorClimb (nodes : RbNodes) : Nat → NodePtr → NodePtr → Except RbStop NodePtr
  | fuel, x, y =>
      if x = (nodes y).left then
        if y = tree.root then .ok tree.nil
        else
          match fuel with
          | 0 => .error .spin
          | fuel + 1 => predecessorClimb nodes fuel y (nodes y).parent
      else .ok y

/-- `rb_tree_predecessor`. -/
def predecessor (fuel : Nat) (nodes : RbNodes) (x : NodePtr) : Except RbStop NodePtr :=
  if (nodes x).left ≠ tree.nil then tree.descend .right nodes fuel (nodes x).left
  else tree.predecessorClimb nodes fuel x (nodes x).parent

/-- `rb_node_prev`. -/
def nodePrev (fuel : Nat) (nodes : RbNodes) (node : NodePtr) :
    Except RbStop (Option NodePtr) := do
  let prev ← tree.predecessor fuel nodes node
  return if prev ≠ tree.nil then some prev else none

/-- `rb_node_next`. -/
def nodeNext (fuel : Nat) (nodes : RbNodes) (node : NodePtr) :
    Except RbStop (Option NodePtr) := do
  let next ← tree.successor fuel nodes node
  return if next ≠ tree.nil then some next else none

/-- The loop of `rb_search`; `compare` compares a node with the key. -/
def searchLoop (compare : NodePtr → Int) (nodes : RbNodes) :
    Nat → NodePtr → Except RbStop (Option NodePtr)
  | fuel, node =>
      if node ≠ tree.nil ∧ compare node ≠ 0 then
        match fuel with
        | 0 => .error .spin
        | fuel + 1 =>
            searchLoop compare nodes fuel
              (if 0 < compare node then (nodes node).left else (nodes node).right)
      else .ok (if node ≠ tree.nil then some node else none)

/-- `rb_search`. -/
def search (compare : NodePtr → Int) (fuel : Nat) (nodes : RbNodes) :
    Except RbStop (Option NodePtr) :=
  tree.searchLoop compare nodes fuel (nodes tree.root).left

/-! ## Deletion -/

/-- `RB_DELETE_FIXUP_SUB` with the node at which the loop goes on; `root` is the node that was
at the top when the loop began. -/
def deleteSub (side : Side) (root : NodePtr) (nodes : RbNodes) (x : NodePtr) :
    Except RbStop (RbNodes × NodePtr) := do
  let w := (nodes (nodes x).parent).child side.other
  let (nodes, w) ←
    (if (nodes w).red then do
      let nodes := nodes.setRed w false
      let nodes := nodes.setRed (nodes x).parent true
      let nodes ← tree.rotate side nodes (nodes x).parent
      return (nodes, (nodes (nodes x).parent).child side.other)
    else .ok (nodes, w))
  if (nodes ((nodes w).child side)).red = false ∧
      (nodes ((nodes w).child side.other)).red = false then
    let nodes := nodes.setRed w true
    return (nodes, (nodes x).parent)
  else
    let (nodes, w) ←
      (if (nodes ((nodes w).child side.other)).red = false then do
        let nodes := nodes.setRed ((nodes w).child side) false
        let nodes := nodes.setRed w true
        let nodes ← tree.rotate side.other nodes w
        return (nodes, (nodes (nodes x).parent).child side.other)
      else .ok (nodes, w))
    let nodes := nodes.setRed w (nodes (nodes x).parent).red
    let nodes := nodes.setRed (nodes x).parent false
    let nodes := nodes.setRed ((nodes w).child side.other) false
    let nodes ← tree.rotate side nodes (nodes x).parent
    return (nodes, root)

/-- The loop of `rb_delete_fixup`. -/
def deleteLoop (root : NodePtr) : Nat → RbNodes → NodePtr → Except RbStop (RbNodes × NodePtr)
  | fuel, nodes, x =>
      if x ≠ root ∧ (nodes x).red = false then
        match fuel with
        | 0 => .error .spin
        | fuel + 1 => do
            let side := if x = (nodes (nodes x).parent).left then Side.left else .right
            let (nodes, x) ← tree.deleteSub side root nodes x
            deleteLoop root fuel nodes x
      else .ok (nodes, x)

/-- `rb_delete_fixup`. -/
def deleteFixup (fuel : Nat) (nodes : RbNodes) (node : NodePtr) : Except RbStop RbNodes := do
  let (nodes, x) ← tree.deleteLoop (nodes tree.root).left fuel nodes node
  return nodes.setRed x false

/-- Link `y` to the parent of `z` in the place of `z`. -/
def relink (nodes : RbNodes) (z y : NodePtr) : RbNodes :=
  if z = (nodes (nodes z).parent).left then nodes.setChild (nodes z).parent .left y
  else nodes.setChild (nodes z).parent .right y

/-- `rb_delete`. -/
def delete (fuel : Nat) (nodes : RbNodes) (z : NodePtr) : Except RbStop RbNodes := do
  let y ←
    (if (nodes z).left = tree.nil ∨ (nodes z).right = tree.nil then .ok z
    else tree.successor fuel nodes z)
  let x := if (nodes y).left ≠ tree.nil then (nodes y).left else (nodes y).right
  if ¬(y ≠ tree.root ∧ y ≠ tree.nil) then .error .deleteNode
  else
    let nodes := nodes.setParent x (nodes y).parent
    let nodes := relink nodes y x
    let needFixup := !(nodes y).red
    let nodes :=
      if y ≠ z then
        let nodes := relink nodes z y
        let nodes := nodes.setParent (nodes z).right y
        let nodes := nodes.setParent (nodes z).left y
        nodes.modify y fun _ => nodes z
      else nodes
    if needFixup then tree.deleteFixup fuel nodes x else return nodes

end RbHead

end EdfKernel.Mm
