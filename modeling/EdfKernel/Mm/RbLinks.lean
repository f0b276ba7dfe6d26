import EdfKernel.Mm.RbBalance
import EdfKernel.Mm.RbCode

/-!
# Trees in memory

`At` says that the nodes in memory form a tree around the place of a subtree: every node has its
colour and its links in both directions, the sentinels are no nodes, and `nil` is black.  The
same tree can be looked at from every place in it.  What the code writes is described at the
place where it writes.
-/

namespace EdfKernel.Mm

theorem Side.eq_other_of_ne {side side' : Side} (other : side' ≠ side) : side.other = side' := by
  cases side <;> cases side' <;> first | rfl | exact absurd rfl other

@[simp]
theorem Side.other_other (side : Side) : side.other.other = side := by
  cases side <;> rfl

namespace RbNode

@[simp]
theorem setChild_parent (side : Side) (p : NodePtr) (n : RbNode) :
    (n.setChild side p).parent = n.parent := by
  cases side <;> rfl

/-- The node with the given child on `side` and the other child opposite. -/
def join (side : Side) (red : Bool) (parent near far : NodePtr) : RbNode :=
  match side with
  | .left => ⟨red, parent, near, far⟩
  | .right => ⟨red, parent, far, near⟩

section Join

variable (side : Side) (red : Bool) (parent near far : NodePtr)

@[simp]
theorem join_red : (join side red parent near far).red = red := by
  cases side <;> rfl

@[simp]
theorem join_parent : (join side red parent near far).parent = parent := by
  cases side <;> rfl

@[simp]
theorem join_child : (join side red parent near far).child side = near := by
  cases side <;> rfl

@[simp]
theorem join_child_other : (join side red parent near far).child side.other = far := by
  cases side <;> rfl

@[simp]
theorem setChild_join (p : NodePtr) :
    setChild side p (join side red parent near far) = join side red parent p far := by
  cases side <;> rfl

@[simp]
theorem setChild_other_join (p : NodePtr) :
    setChild side.other p (join side red parent near far) = join side red parent near p := by
  cases side <;> rfl

theorem join_other : join side.other red parent near far = join side red parent far near := by
  cases side <;> rfl

@[simp]
theorem with_red_join (red' : Bool) :
    ({ join side red parent near far with red := red' } : RbNode) =
      join side red' parent near far := by
  cases side <;> rfl

@[simp]
theorem with_parent_join (parent' : NodePtr) :
    ({ join side red parent near far with parent := parent' } : RbNode) =
      join side red parent' near far := by
  cases side <;> rfl

end Join

end RbNode

namespace RbTree

variable {α : Type*}

/-- The nodes on a way up, with those of the subtrees beside it. -/
def crumbNodes : List (Crumb α) → List α
  | [] => []
  | crumb :: path => crumb.value :: (crumb.sibling.toList ++ crumbNodes path)

theorem crumbNodes_append (down path : List (Crumb α)) :
    crumbNodes (down ++ path) = crumbNodes down ++ crumbNodes path := by
  induction down with
  | nil => rfl
  | cons crumb down ih => simp [crumbNodes, ih]

theorem length_le_crumbNodes (path : List (Crumb α)) :
    path.length ≤ (crumbNodes path).length := by
  induction path with
  | nil => exact Nat.le_refl _
  | cons crumb path ih =>
      rw [crumbNodes, List.length_cons, List.length_cons, List.length_append]
      omega

theorem toList_join_perm (side : Side) (red : Bool) (near far : RbTree α) (value : α) :
    (join side red near value far).toList.Perm (value :: (near.toList ++ far.toList)) := by
  cases side with
  | left => exact List.perm_middle
  | right =>
      refine List.perm_middle.trans (List.Perm.cons _ ?_)
      exact List.perm_append_comm

theorem join_ne_nil (side : Side) (red : Bool) (near far : RbTree α) (value : α) :
    join side red near value far ≠ nil := by
  cases side <;> rintro ⟨⟩

theorem toList_ne_nil {t : RbTree α} (real : t ≠ nil) : t.toList ≠ [] := by
  cases t with
  | nil => exact absurd rfl real
  | node red left value right => simp [toList]

theorem exists_join (side : Side) {t : RbTree α} (real : t ≠ nil) :
    ∃ red near value far, t = join side red near value far := by
  cases t with
  | nil => exact absurd rfl real
  | node red left value right =>
      cases side with
      | left => exact ⟨red, left, value, right, rfl⟩
      | right => exact ⟨red, right, value, left, rfl⟩

theorem plug_perm (x : RbTree α) (path : List (Crumb α)) :
    (plug x path).toList.Perm (x.toList ++ crumbNodes path) := by
  induction path generalizing x with
  | nil => simp [plug, crumbNodes]
  | cons crumb path ih =>
      refine (ih _).trans (((toList_join_perm _ _ _ _ _).append_right _).trans ?_)
      rw [crumbNodes, List.cons_append, List.append_assoc]
      exact List.perm_middle.symm

end RbTree

open RbTree

namespace RbHead

variable (tree : RbHead)

/-- The address of a subtree. -/
def addr : RbTree NodePtr → NodePtr
  | .nil => tree.nil
  | .node _ _ value _ => value

/-- The node that the subtree at the start of a way up hangs on. -/
def above : List (Crumb NodePtr) → NodePtr
  | [] => tree.root
  | crumb :: _ => crumb.value

/-- The side of that node on which the subtree hangs. -/
def aboveSide : List (Crumb NodePtr) → Side
  | [] => .left
  | crumb :: _ => crumb.side

/-- The nodes of a subtree are in memory with their colours and links. -/
def Linked (nodes : RbNodes) (parent : NodePtr) : RbTree NodePtr → Prop
  | .nil => True
  | .node red left value right =>
      nodes value = ⟨red, parent, tree.addr left, tree.addr right⟩ ∧
        Linked nodes value left ∧ Linked nodes value right

/-- The nodes on a way up and beside it are in memory with their colours and links, around the
subtree at `child`. -/
def Hung (nodes : RbNodes) (child : NodePtr) : List (Crumb NodePtr) → Prop
  | [] => nodes tree.root = ⟨false, tree.nil, child, tree.nil⟩
  | crumb :: path =>
      nodes crumb.value = RbNode.join crumb.side crumb.red (tree.above path) child
          (tree.addr crumb.sibling) ∧
        Linked tree nodes crumb.value crumb.sibling ∧ Hung nodes crumb.value path

/-- The nodes in memory form the tree with the subtree `x` at the start of the way up. -/
structure At (nodes : RbNodes) (x : RbTree NodePtr) (path : List (Crumb NodePtr)) : Prop where
  linked : tree.Linked nodes (tree.above path) x
  hung : tree.Hung nodes (tree.addr x) path
  nodup : (tree.root :: tree.nil :: (x.toList ++ crumbNodes path)).Nodup
  black : (nodes tree.nil).red = false

variable {tree} {nodes nodes' : RbNodes} {x : RbTree NodePtr} {path : List (Crumb NodePtr)}

theorem addr_join (side : Side) (red : Bool) (near far : RbTree NodePtr) (value : NodePtr) :
    tree.addr (join side red near value far) = value := by
  cases side <;> rfl

theorem addr_mem {t : RbTree NodePtr} (nonempty : t ≠ .nil) : tree.addr t ∈ t.toList := by
  cases t with
  | nil => exact absurd rfl nonempty
  | node red left value right => simp [addr, toList]

theorem linked_join (side : Side) (red : Bool) (near far : RbTree NodePtr)
    (value parent : NodePtr) :
    tree.Linked nodes parent (join side red near value far) ↔
      nodes value = RbNode.join side red parent (tree.addr near) (tree.addr far) ∧
        tree.Linked nodes value near ∧ tree.Linked nodes value far := by
  cases side with
  | left => exact Iff.rfl
  | right => exact and_congr_right fun _ => and_comm

/-- The same tree, looked at from the parent. -/
theorem at_up {crumb : Crumb NodePtr} :
    tree.At nodes x (crumb :: path) ↔
      tree.At nodes (join crumb.side crumb.red x crumb.value crumb.sibling) path := by
  have perm : (x.toList ++ crumbNodes (crumb :: path)).Perm
      ((join crumb.side crumb.red x crumb.value crumb.sibling).toList ++ crumbNodes path) :=
    (plug_perm x (crumb :: path)).symm.trans (plug_perm _ path)
  have nodup := ((perm.cons tree.nil).cons tree.root).nodup_iff
  constructor
  · rintro ⟨linked, ⟨node, sibling, hung⟩, distinct, black⟩
    refine ⟨(linked_join _ _ _ _ _ _).mpr ⟨node, linked, sibling⟩, ?_, nodup.mp distinct, black⟩
    rw [addr_join]
    exact hung
  · rintro ⟨joined, hung, distinct, black⟩
    obtain ⟨node, linked, sibling⟩ := (linked_join _ _ _ _ _ _).mp joined
    rw [addr_join] at hung
    exact ⟨linked, ⟨node, sibling, hung⟩, nodup.mpr distinct, black⟩

theorem at_left {red : Bool} {left right : RbTree NodePtr} {value : NodePtr} :
    tree.At nodes (.node red left value right) path ↔
      tree.At nodes left (⟨.left, red, value, right⟩ :: path) := by
  rw [at_up]
  rfl

theorem at_right {red : Bool} {left right : RbTree NodePtr} {value : NodePtr} :
    tree.At nodes (.node red left value right) path ↔
      tree.At nodes right (⟨.right, red, value, left⟩ :: path) := by
  rw [at_up]
  rfl

theorem at_append {down : List (Crumb NodePtr)} :
    tree.At nodes x (down ++ path) ↔ tree.At nodes (plug x down) path := by
  induction down generalizing x with
  | nil => exact Iff.rfl
  | cons crumb down ih => exact at_up.trans ih

theorem at_plug : tree.At nodes x path ↔ tree.At nodes (plug x path) [] := by
  rw [← at_append, List.append_nil]

/-! ## Frames -/

theorem Linked.congr {t : RbTree NodePtr} {parent : NodePtr}
    (linked : tree.Linked nodes parent t) (same : ∀ a ∈ t.toList, nodes' a = nodes a) :
    tree.Linked nodes' parent t := by
  induction t generalizing parent with
  | nil => trivial
  | node red left value right ihLeft ihRight =>
      obtain ⟨node, linkedLeft, linkedRight⟩ := linked
      refine ⟨(same value (by simp [toList])).trans node, ihLeft linkedLeft fun a mem => ?_,
        ihRight linkedRight fun a mem => ?_⟩
      · exact same a (by simp [toList, mem])
      · exact same a (by simp [toList, mem])

theorem Hung.congr {child : NodePtr} (hung : tree.Hung nodes child path)
    (same : ∀ a ∈ crumbNodes path, nodes' a = nodes a)
    (root : nodes' tree.root = nodes tree.root) : tree.Hung nodes' child path := by
  induction path generalizing child with
  | nil => exact root.trans hung
  | cons crumb path ih =>
      obtain ⟨node, sibling, rest⟩ := hung
      refine ⟨(same _ (by simp [crumbNodes])).trans node, sibling.congr fun a mem => ?_,
        ih rest fun a mem => ?_⟩
      · exact same a (by simp [crumbNodes, mem])
      · exact same a (by simp [crumbNodes, mem])

/-- Another subtree is hung on a way up. -/
theorem Hung.rehang {child child' : NodePtr} (hung : tree.Hung nodes child path)
    (nodup : (tree.root :: crumbNodes path).Nodup)
    (link : nodes' (tree.above path) =
      (nodes (tree.above path)).setChild (aboveSide path) child')
    (same : ∀ a ∈ tree.root :: crumbNodes path, a ≠ tree.above path → nodes' a = nodes a) :
    tree.Hung nodes' child' path := by
  cases path with
  | nil =>
      change nodes tree.root = _ at hung
      change nodes' tree.root = (nodes tree.root).setChild .left child' at link
      rw [hung] at link
      exact link
  | cons crumb path =>
      obtain ⟨node, sibling, rest⟩ := hung
      change nodes' crumb.value = (nodes crumb.value).setChild crumb.side child' at link
      rw [node, RbNode.setChild_join] at link
      rw [crumbNodes, List.nodup_cons, List.mem_cons, List.mem_append, not_or, not_or,
        List.nodup_cons, List.mem_append, not_or] at nodup
      refine ⟨link, sibling.congr fun a mem => ?_, rest.congr (fun a mem => ?_) ?_⟩
      · refine same a (by simp [crumbNodes, mem]) ?_
        rintro rfl
        exact nodup.2.1.1 mem
      · refine same a (by simp [crumbNodes, mem]) ?_
        rintro rfl
        exact nodup.2.1.2 mem
      · exact same _ List.mem_cons_self nodup.1.1

/-- The top of a subtree gets another parent. -/
theorem Linked.reparent {t : RbTree NodePtr} {parent parent' : NodePtr}
    (linked : tree.Linked nodes parent t) (nodup : t.toList.Nodup)
    (top : t ≠ .nil → nodes' (tree.addr t) = { nodes (tree.addr t) with parent := parent' })
    (same : ∀ a ∈ t.toList, a ≠ tree.addr t → nodes' a = nodes a) :
    tree.Linked nodes' parent' t := by
  cases t with
  | nil => trivial
  | node red left value right =>
      obtain ⟨node, linkedLeft, linkedRight⟩ := linked
      have link := top (by rintro ⟨⟩)
      change nodes' value = { nodes value with parent := parent' } at link
      rw [toList, List.nodup_middle, List.nodup_cons, List.mem_append, not_or] at nodup
      refine ⟨by rw [link, node], linkedLeft.congr fun a mem => ?_,
        linkedRight.congr fun a mem => ?_⟩
      · refine same a (by simp [toList, mem]) ?_
        rintro rfl
        exact nodup.1.1 mem
      · refine same a (by simp [toList, mem]) ?_
        rintro rfl
        exact nodup.1.2 mem

/-! ## Rotation -/

/-- What a rotation writes: `x` and its child `y` change places below `up`, and `b` moves from
`y` to `x`. -/
def rotated (nodes : RbNodes) (side sideUp : Side) (up x y b : NodePtr) (nil : NodePtr) : RbNodes :=
  fun p =>
    if p = x then { (nodes x).setChild side.other b with parent := y }
    else if p = y then { (nodes y).setChild side x with parent := up }
    else if p = up then (nodes up).setChild sideUp y
    else if p = b ∧ b ≠ nil then { nodes b with parent := x }
    else nodes p

theorem rotate_eq_rotated {side sideUp : Side} {xv yv b up : NodePtr}
    (childX : (nodes xv).child side.other = yv) (childY : (nodes yv).child side = b)
    (parentX : (nodes xv).parent = up)
    (link : (nodes up).child side = xv ↔ sideUp = side)
    (notRoot : xv ≠ tree.root) (notNil : xv ≠ tree.nil) (notNilY : yv ≠ tree.nil)
    (notNilUp : up ≠ tree.nil) (upX : up ≠ xv) (upY : up ≠ yv) (xy : xv ≠ yv)
    (apart : b = tree.nil ∨ (b ≠ xv ∧ b ≠ yv ∧ b ≠ up)) (black : (nodes tree.nil).red = false) :
    tree.rotate side nodes xv =
      .ok (rotated nodes side sideUp up xv yv b tree.nil) := by
  have apartX : b ≠ tree.nil → xv ≠ b := fun real => (apart.resolve_left real).1.symm
  have apartY : b ≠ tree.nil → yv ≠ b := fun real => (apart.resolve_left real).2.1.symm
  have apartUp : b ≠ tree.nil → up ≠ b := fun real => (apart.resolve_left real).2.2.symm
  unfold rotate
  extract_lets y n1 n2 n3 n4 n5 n6
  have isY : y = yv := childX
  rw [if_neg (by rw [isY]; exact not_not.mpr ⟨notRoot, notNil, notNilY⟩)]
  have isB : (nodes y).child side = b := by rw [isY, childY]
  -- one fact about each of the six assignments
  have at1 : ∀ p, p ≠ xv → n1 p = nodes p := fun p other => RbNodes.modify_of_ne _ _ other
  have self1 : n1 xv = (nodes xv).setChild side.other b := by
    rw [← isB]
    exact RbNodes.modify_self _ _ _
  have isB1 : (n1 y).child side = b := by rw [at1 _ (isY ▸ xy.symm), isB]
  have at2 : ∀ p, (b ≠ tree.nil → p ≠ b) → n2 p = n1 p := by
    intro p other
    change (if (n1 y).child side ≠ tree.nil then _ else _ : RbNodes) p = _
    rw [isB1]
    split
    · rename_i real
      exact RbNodes.modify_of_ne _ _ (other real)
    · rfl
  have self2 : b ≠ tree.nil → n2 b = { n1 b with parent := xv } := by
    intro real
    change (if (n1 y).child side ≠ tree.nil then _ else _ : RbNodes) b = _
    rw [isB1, if_pos real]
    exact RbNodes.modify_self _ _ _
  have x2 : n2 xv = (nodes xv).setChild side.other b := by rw [at2 _ apartX, self1]
  have parent2 : (n2 xv).parent = up := by rw [x2, RbNode.setChild_parent, parentX]
  have at3 : ∀ p, p ≠ yv → n3 p = n2 p :=
    fun p other => RbNodes.modify_of_ne _ _ (isY ▸ other)
  have self3 : n3 yv = { n2 yv with parent := up } := by
    rw [← parent2, ← isY]
    exact RbNodes.modify_self _ _ _
  have parent3 : (n3 xv).parent = up := by rw [at3 _ xy, parent2]
  have up3 : n3 up = nodes up := by rw [at3 _ upY, at2 _ apartUp, at1 _ upX]
  have is4 : n4 = n3.setChild up sideUp yv := by
    change (if xv = (n3 (n3 xv).parent).child side then _ else _ : RbNodes) = _
    rw [parent3, up3, isY]
    by_cases same : sideUp = side
    · rw [if_pos (link.mpr same).symm, same]
    · rw [if_neg fun linked => same (link.mp linked.symm), Side.eq_other_of_ne same]
  have at4 : ∀ p, p ≠ up → n4 p = n3 p := by
    intro p other
    rw [is4]
    exact RbNodes.modify_of_ne _ _ other
  have self4 : n4 up = (nodes up).setChild sideUp yv := by
    rw [is4, ← up3]
    exact RbNodes.modify_self _ _ _
  have at5 : ∀ p, p ≠ yv → n5 p = n4 p := fun p other => RbNodes.modify_of_ne _ _ (isY ▸ other)
  have self5 : n5 yv = (n4 yv).setChild side xv := by
    rw [← isY]
    exact RbNodes.modify_self _ _ _
  have at6 : ∀ p, p ≠ xv → n6 p = n5 p := fun p other => RbNodes.modify_of_ne _ _ other
  have self6 : n6 xv = { n5 xv with parent := yv } := by
    rw [← isY]
    exact RbNodes.modify_self _ _ _
  have whole : n6 = rotated nodes side sideUp up xv yv b tree.nil := by
    funext p
    unfold rotated
    by_cases isX : p = xv
    · rw [if_pos isX, isX, self6, at5 _ xy, at4 _ upX.symm, at3 _ xy, x2]
    · rw [if_neg isX, at6 _ isX]
      by_cases isYv : p = yv
      · rw [if_pos isYv, isYv, self5, at4 _ upY.symm, self3, at2 _ apartY, at1 _ xy.symm]
        cases side <;> rfl
      · rw [if_neg isYv, at5 _ isYv]
        by_cases isUp : p = up
        · rw [if_pos isUp, isUp, self4]
        · rw [if_neg isUp, at4 _ isUp, at3 _ isYv]
          by_cases isBv : p = b ∧ b ≠ tree.nil
          · rw [if_pos isBv, isBv.1, self2 isBv.2, at1 _ (apartX isBv.2).symm]
          · rw [if_neg isBv, at2 _ fun real same => isBv ⟨same, real⟩, at1 _ isX]
  have black6 : (n6 tree.nil).red = false := by
    rw [whole, rotated, if_neg notNil.symm, if_neg notNilY.symm, if_neg notNilUp.symm,
      if_neg fun both => both.2 both.1.symm]
    exact black
  rw [black6, if_neg (by decide), whole]

theorem addr_eq_or_mem (t : RbTree NodePtr) :
    (t = .nil ∧ tree.addr t = tree.nil) ∨ (t ≠ .nil ∧ tree.addr t ∈ t.toList) := by
  cases t with
  | nil => exact .inl ⟨rfl, rfl⟩
  | node red left value right => exact .inr ⟨by rintro ⟨⟩, by simp [addr, toList]⟩

theorem above_mem (path : List (Crumb NodePtr)) :
    tree.above path ∈ tree.root :: crumbNodes path := by
  cases path with
  | nil => exact List.mem_cons_self
  | cons crumb path => simp [above, crumbNodes]

/-- The link from above to a subtree that is not empty is on one side only. -/
theorem Hung.link {child : NodePtr} {side : Side} (hung : tree.Hung nodes child path)
    (notNil : child ≠ tree.nil) (apart : child ∉ crumbNodes path) :
    (nodes (tree.above path)).child side = child ↔ aboveSide path = side := by
  cases path with
  | nil =>
      change nodes tree.root = _ at hung
      change (nodes tree.root).child side = child ↔ Side.left = side
      rw [hung]
      cases side with
      | left => exact ⟨fun _ => rfl, fun _ => rfl⟩
      | right => exact ⟨fun same => absurd same.symm notNil, by rintro ⟨⟩⟩
  | cons crumb path =>
      obtain ⟨node, _, _⟩ := hung
      change (nodes crumb.value).child side = child ↔ crumb.side = side
      rw [node]
      by_cases same : crumb.side = side
      · rw [same, RbNode.join_child]
        exact ⟨fun _ => rfl, fun _ => rfl⟩
      · rw [← Side.eq_other_of_ne (Ne.symm same), RbNode.join_child_other]
        refine ⟨fun sibling => ?_, fun impossible => ?_⟩
        · rcases @addr_eq_or_mem tree crumb.sibling with ⟨_, empty⟩ | ⟨_, mem⟩
          · exact absurd (sibling.symm.trans empty) notNil
          · rw [sibling] at mem
            exact absurd (by simp [crumbNodes, mem]) apart
        · cases h : crumb.side <;> rw [h] at impossible <;> cases impossible

theorem rotated_other {side sideUp : Side} {up xv yv b nil p : NodePtr} (notX : p ≠ xv)
    (notY : p ≠ yv) (notUp : p ≠ up) (notB : b ≠ nil → p ≠ b) :
    rotated nodes side sideUp up xv yv b nil p = nodes p := by
  rw [rotated, if_neg notX, if_neg notY, if_neg notUp, if_neg fun both => notB both.2 both.1]

/-- A rotation at a place of the tree. -/
theorem At.rotate {side : Side} {redX redY : Bool} {near nearY farY : RbTree NodePtr}
    {xv yv : NodePtr}
    (place : tree.At nodes (join side redX near xv (join side redY nearY yv farY)) path) :
    ∃ nodes', tree.rotate side nodes xv = .ok nodes' ∧
      tree.At nodes' (join side redY (join side redX near xv nearY) yv farY) path ∧
      nodes' tree.nil = nodes tree.nil := by
  obtain ⟨linked, hung, nodup, black⟩ := place
  obtain ⟨nodeX, linkedNear, linkedY⟩ := (linked_join _ _ _ _ _ _).mp linked
  obtain ⟨nodeY, linkedNearY, linkedFarY⟩ := (linked_join _ _ _ _ _ _).mp linkedY
  rw [addr_join] at nodeX hung
  have perm : (join side redX near xv (join side redY nearY yv farY)).toList.Perm
      (xv :: (near.toList ++ yv :: (nearY.toList ++ farY.toList))) :=
    (toList_join_perm _ _ _ _ _).trans
      (((toList_join_perm _ _ _ _ _).append_left _).cons _)
  have distinct := (((perm.append_right (crumbNodes path)).cons tree.nil).cons
    tree.root).nodup_iff.mp nodup
  simp only [List.nodup_cons, List.mem_cons, List.mem_append, not_or, List.cons_append,
    List.append_assoc, List.nodup_append] at distinct
  have upMem := @above_mem tree path
  rw [List.mem_cons] at upMem
  have bottom := @addr_eq_or_mem tree nearY
  have notNil : xv ≠ tree.nil := by grind
  have link := @Hung.link _ _ _ _ side hung notNil (by grind)
  have hang : ∀ (child : NodePtr) (nodes' : RbNodes),
      nodes' (tree.above path) = (nodes (tree.above path)).setChild (aboveSide path) child →
      (∀ a ∈ tree.root :: crumbNodes path, a ≠ tree.above path → nodes' a = nodes a) →
      tree.Hung nodes' child path :=
    fun child nodes' => hung.rehang (by grind)
  generalize hup : tree.above path = up at *
  generalize hb : tree.addr nearY = b at *
  have notNilY : yv ≠ tree.nil := by grind
  have notNilUp : up ≠ tree.nil := by grind
  have upX : up ≠ xv := by grind
  have upY : up ≠ yv := by grind
  have xy : xv ≠ yv := by grind
  have apart : b = tree.nil ∨ (b ≠ xv ∧ b ≠ yv ∧ b ≠ up) := by grind
  refine ⟨_, @rotate_eq_rotated _ _ _ (aboveSide path) _ _ _ _ (by rw [nodeX, RbNode.join_child_other])
    (by rw [nodeY, RbNode.join_child]) (by rw [nodeX, RbNode.join_parent]) link (by grind) notNil
    notNilY notNilUp upX upY xy apart black, ⟨?_, ?_, ?_, ?_⟩, ?_⟩
  · refine (linked_join _ _ _ _ _ _).mpr ⟨?_, (linked_join _ _ _ _ _ _).mpr ⟨?_, ?_, ?_⟩, ?_⟩
    · rw [rotated, if_neg xy.symm, if_pos rfl, nodeY, addr_join, RbNode.setChild_join,
        RbNode.with_parent_join, hup]
    · rw [rotated, if_pos rfl, nodeX, hb, RbNode.setChild_other_join, RbNode.with_parent_join]
    · refine linkedNear.congr fun a mem => rotated_other ?_ ?_ ?_ ?_ <;> grind
    · refine linkedNearY.reparent (by grind) (fun real => ?_) fun a mem other => ?_
      · rw [hb, rotated, if_neg, if_neg, if_neg, if_pos] <;> grind
      · refine rotated_other ?_ ?_ ?_ ?_ <;> grind
    · refine linkedFarY.congr fun a mem => rotated_other ?_ ?_ ?_ ?_ <;> grind
  · rw [addr_join]
    refine hang _ _ ?_ fun a mem other => rotated_other ?_ ?_ other ?_
    · rw [rotated, if_neg upX, if_neg upY, if_pos rfl]
    · grind
    · grind
    · grind
  · rw [rotate_toList (rotate_join side redX redY near nearY farY xv yv)]
    exact nodup
  · rw [rotated_other] <;> grind
  · rw [rotated_other] <;> grind

/-! ## Places -/

theorem At.congr (place : tree.At nodes x path)
    (same : ∀ a ∈ tree.root :: tree.nil :: (x.toList ++ crumbNodes path), nodes' a = nodes a) :
    tree.At nodes' x path := by
  refine ⟨place.linked.congr fun a mem => same a (by simp [mem]),
    place.hung.congr (fun a mem => same a (by simp [mem])) (same _ (by simp)), place.nodup, ?_⟩
  rw [same tree.nil (by simp)]
  exact place.black

/-- The same tree, looked at from the other child of the parent. -/
theorem at_sibling {crumb : Crumb NodePtr} :
    tree.At nodes x (crumb :: path) ↔
      tree.At nodes crumb.sibling
        (⟨crumb.side.other, crumb.red, crumb.value, x⟩ :: path) := by
  rw [at_up, at_up, Side.join_other]

theorem At.node {red : Bool} {left right : RbTree NodePtr} {value : NodePtr}
    (place : tree.At nodes (.node red left value right) path) :
    nodes value = ⟨red, tree.above path, tree.addr left, tree.addr right⟩ :=
  place.linked.1

theorem At.crumb {crumb : Crumb NodePtr} (place : tree.At nodes x (crumb :: path)) :
    nodes crumb.value = RbNode.join crumb.side crumb.red (tree.above path) (tree.addr x)
      (tree.addr crumb.sibling) :=
  place.hung.1

/-- The colour in memory; `nil` is black. -/
theorem At.red (place : tree.At nodes x path) : (nodes (tree.addr x)).red = x.isRed := by
  cases x with
  | nil => exact place.black
  | node red left value right =>
      change (nodes value).red = _
      rw [place.node]
      rfl

theorem At.parent (place : tree.At nodes x path) (real : x ≠ .nil) :
    (nodes (tree.addr x)).parent = tree.above path := by
  cases x with
  | nil => exact absurd rfl real
  | node red left value right =>
      change (nodes value).parent = _
      rw [place.node]

theorem At.addr_ne_nil (place : tree.At nodes x path) (real : x ≠ .nil) :
    tree.addr x ≠ tree.nil := by
  have mem := @addr_mem tree _ real
  have distinct := (List.nodup_cons.mp (List.nodup_cons.mp place.nodup).2).1
  rintro same
  exact distinct (by rw [← same]; simp [mem])

theorem At.above_ne_nil (place : tree.At nodes x path) : tree.above path ≠ tree.nil := by
  have mem := @above_mem tree path
  have distinct := place.nodup
  grind

theorem At.crumb_ne_nil {crumb : Crumb NodePtr} (place : tree.At nodes x (crumb :: path)) :
    tree.nil ≠ crumb.value :=
  place.above_ne_nil.symm

theorem At.above_eq_root (place : tree.At nodes x path) :
    tree.above path = tree.root ↔ path = [] := by
  cases path with
  | nil => exact ⟨fun _ => rfl, fun _ => rfl⟩
  | cons crumb path =>
      have distinct := (List.nodup_cons.mp place.nodup).1
      refine ⟨fun same => ?_, by rintro ⟨⟩⟩
      exact absurd (by rw [← same]; simp [above, crumbNodes]) distinct

/-- On which side of the parent a subtree hangs. -/
theorem At.link {side : Side} (place : tree.At nodes x path) (real : x ≠ .nil) :
    (nodes (tree.above path)).child side = tree.addr x ↔ aboveSide path = side := by
  have mem := @addr_mem tree _ real
  have distinct := place.nodup
  exact place.hung.link (place.addr_ne_nil real) (by grind)

@[simp]
theorem addr_setRed (red : Bool) (t : RbTree NodePtr) :
    tree.addr (t.setRed red) = tree.addr t := by
  cases t <;> rfl

/-- A node gets a colour. -/
theorem At.setRed (red : Bool) (place : tree.At nodes x path) (real : x ≠ .nil) :
    tree.At (nodes.setRed (tree.addr x) red) (x.setRed red) path := by
  have distinct := place.nodup
  cases x with
  | nil => exact absurd rfl real
  | node red' left value right =>
      simp only [toList, List.nodup_cons, List.mem_cons, List.mem_append, not_or,
        List.cons_append, List.append_assoc, List.nodup_append] at distinct
      refine ⟨⟨?_, place.linked.2.1.congr fun a mem => ?_,
        place.linked.2.2.congr fun a mem => ?_⟩, place.hung.congr (fun a mem => ?_) ?_, ?_, ?_⟩
      · change nodes.setRed value red value = _
        rw [RbNodes.setRed_self, place.node]
      · exact RbNodes.setRed_of_ne _ _ _ (by grind [addr])
      · exact RbNodes.setRed_of_ne _ _ _ (by grind [addr])
      · exact RbNodes.setRed_of_ne _ _ _ (by grind [addr])
      · exact RbNodes.setRed_of_ne _ _ _ (by grind [addr])
      · rw [toList_setRed]
        exact place.nodup
      · rw [RbNodes.setRed_of_ne _ _ _ (place.addr_ne_nil real).symm]
        exact place.black

/-- The parent gets a colour. -/
theorem At.setRed_crumb {crumb : Crumb NodePtr} (red : Bool)
    (place : tree.At nodes x (crumb :: path)) :
    tree.At (nodes.setRed crumb.value red) x
      (⟨crumb.side, red, crumb.value, crumb.sibling⟩ :: path) := by
  rw [at_up] at place ⊢
  have coloured := place.setRed red (join_ne_nil _ _ _ _ _)
  rw [addr_join, setRed_join] at coloured
  exact coloured

/-- The sibling gets a colour. -/
theorem At.setRed_sibling {crumb : Crumb NodePtr} (red : Bool)
    (place : tree.At nodes x (crumb :: path)) (real : crumb.sibling ≠ .nil) :
    tree.At (nodes.setRed (tree.addr crumb.sibling) red) x
      (⟨crumb.side, crumb.red, crumb.value, crumb.sibling.setRed red⟩ :: path) := by
  rw [at_sibling] at place ⊢
  exact place.setRed red real

/-- A node is blackened; nothing happens at `nil`. -/
theorem At.setBlack (place : tree.At nodes x path) :
    tree.At (nodes.setRed (tree.addr x) false) (x.setRed false) path ∧
      nodes.setRed (tree.addr x) false tree.nil = nodes tree.nil := by
  by_cases real : x = .nil
  · subst real
    rw [addr, RbNodes.setRed_of_eq _ _ _ place.black]
    exact ⟨place, rfl⟩
  · exact ⟨place.setRed false real, RbNodes.setRed_of_ne _ _ _ (place.addr_ne_nil real).symm⟩

theorem At.links {side : Side} {red : Bool} {near far : RbTree NodePtr} {value : NodePtr}
    (place : tree.At nodes (join side red near value far) path) :
    nodes value = RbNode.join side red (tree.above path) (tree.addr near) (tree.addr far) :=
  ((linked_join _ _ _ _ _ _).mp place.linked).1

theorem At.near {side : Side} {red : Bool} {near far : RbTree NodePtr} {value : NodePtr}
    (place : tree.At nodes (RbTree.join side red near value far) path) :
    tree.At nodes near (⟨side, red, value, far⟩ :: path) :=
  at_up.mpr place

theorem At.far {side : Side} {red : Bool} {near far : RbTree NodePtr} {value : NodePtr}
    (place : tree.At nodes (RbTree.join side red near value far) path) :
    tree.At nodes far (⟨side.other, red, value, near⟩ :: path) :=
  at_sibling.mp place.near

end RbHead

end EdfKernel.Mm
