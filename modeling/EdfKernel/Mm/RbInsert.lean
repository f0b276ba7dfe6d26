import EdfKernel.Mm.RbLinks
import Mathlib.Data.Int.Order.Basic
import Mathlib.Order.Compare

/-!
# Insertion into a tree in memory

`rb_insert` on the nodes in memory does what `rbInsert` does on the tree: the way down, the loop
and each rotation meet the same subtrees.  No loop runs longer than the tree is deep.
-/

namespace EdfKernel.Mm.RbHead

open RbTree

variable {tree : RbHead} {nodes : RbNodes} {x : RbTree NodePtr} {path : List (Crumb NodePtr)}

/-- The order in which the tree compares nodes. -/
def ordering (tree : RbHead) (a b : NodePtr) : Ordering := Ord.compare (tree.compare a b) 0

theorem ordering_eq_gt {a b : NodePtr} : tree.ordering a b = .gt ↔ 0 < tree.compare a b := by
  unfold ordering
  exact @compare_gt_iff_gt Int _ _ _

/-! ## The loop -/

/-- The second rotation of the loop, with the colours that it is made under. -/
theorem At.insertTurn {side : Side} {red redG : Bool} {mid grand : NodePtr}
    {out uncle : RbTree NodePtr}
    (place : tree.At nodes x (⟨side, red, mid, out⟩ :: ⟨side, redG, grand, uncle⟩ :: path)) :
    ∃ nodes',
      tree.rotate side.other ((nodes.setRed mid false).setRed grand true) grand = .ok nodes' ∧
        tree.At nodes' x (⟨side, false, mid, join side.other true uncle grand out⟩ :: path) ∧
        nodes' tree.nil = nodes tree.nil := by
  have raised := at_up.mp (place.setRed_crumb false)
  have whole := at_up.mp (raised.setRed_crumb true)
  rw [← Side.join_other, ← Side.join_other side false] at whole
  obtain ⟨nodes', rotated, place', same⟩ := whole.rotate
  rw [Side.join_other] at place'
  refine ⟨nodes', rotated, at_up.mpr place', same.trans ?_⟩
  rw [RbNodes.setRed_of_ne _ _ _ raised.crumb_ne_nil,
    RbNodes.setRed_of_ne _ _ _ place.crumb_ne_nil]

section Grand

variable {parent grand : Crumb NodePtr}

/-- What the loop reads at a node with a parent and a grandparent. -/
theorem At.uncle (place : tree.At nodes x (parent :: grand :: path)) (real : x ≠ .nil) :
    (nodes (tree.addr x)).parent = parent.value ∧ (nodes parent.value).parent = grand.value ∧
      (nodes grand.value).child grand.side.other = tree.addr grand.sibling ∧
      (nodes (tree.addr grand.sibling)).red = grand.sibling.isRed := by
  have upper := at_up.mp place
  refine ⟨place.parent real, ?_, ?_, (at_sibling.mp upper).red⟩
  · rw [place.crumb, RbNode.join_parent]
    rfl
  · rw [upper.crumb, RbNode.join_child_other]

/-- A round of the loop below a red uncle. -/
theorem At.insertSub_red (place : tree.At nodes x (parent :: grand :: path)) (real : x ≠ .nil)
    (redUncle : grand.sibling.isRed = true) :
    ∃ nodes', tree.insertSub grand.side nodes (tree.addr x) = .ok (nodes', grand.value) ∧
      tree.At nodes' (join grand.side true
        (join parent.side false x parent.value parent.sibling) grand.value
        (grand.sibling.setRed false)) path ∧
      nodes' tree.nil = nodes tree.nil := by
  obtain ⟨parentX, parentP, uncle, red⟩ := place.uncle real
  have realUncle : grand.sibling ≠ .nil := by
    intro empty
    rw [empty] at redUncle
    cases redUncle
  have lower := at_up.mp (place.setRed_crumb false)
  have middle := lower.setRed_sibling false realUncle
  refine ⟨_, ?_, at_up.mp (middle.setRed_crumb true), ?_⟩
  · rw [RbHead.insertSub]
    simp only [parentX, parentP, uncle, red, redUncle, RbNodes.setRed_parent, if_true]
  · rw [RbNodes.setRed_of_ne _ _ _ middle.crumb_ne_nil,
      RbNodes.setRed_of_ne _ _ _ ((at_sibling.mp lower).addr_ne_nil realUncle).symm,
      RbNodes.setRed_of_ne _ _ _ place.crumb_ne_nil]

/-- What the round does after its first rotation, at a node whose parent is on the outer side. -/
theorem At.insertOuter {side : Side} {red redG : Bool} {mid grand : NodePtr}
    {out uncle : RbTree NodePtr}
    (place : tree.At nodes x (⟨side, red, mid, out⟩ :: ⟨side, redG, grand, uncle⟩ :: path)) :
    ∃ nodes' top,
      tree.rotate side.other ((nodes.setRed mid false).setRed grand true) grand = .ok nodes' ∧
      RbTree.rotate side.other
        (join side true ((join side red x mid out).setRed false) grand uncle) = some top ∧
      tree.At nodes' x (⟨side, false, mid, join side.other true uncle grand out⟩ :: path) ∧
      join side false x mid (join side.other true uncle grand out) = top ∧
      nodes' tree.nil = nodes tree.nil := by
  obtain ⟨nodes', rotated, place', same⟩ := place.insertTurn
  have turned := rotate_join side.other true false uncle out x grand mid
  simp only [Side.join_other] at turned
  refine ⟨nodes', _, rotated, ?_, place', rfl, same⟩
  rw [setRed_join, turned, Side.join_other]

/-- A round of the loop below a black uncle; after it the parent is black. -/
theorem At.insertSub_black (place : tree.At nodes x (parent :: grand :: path)) (real : x ≠ .nil)
    (blackUncle : grand.sibling.isRed = false) :
    ∃ nodes' up top x' crumb,
      tree.insertSub grand.side nodes (tree.addr x) = .ok (nodes', tree.addr x') ∧
      rotateUnless (parent.side = grand.side) grand.side
        (join parent.side parent.red x parent.value parent.sibling) = some up ∧
      RbTree.rotate grand.side.other
        (join grand.side true (up.setRed false) grand.value grand.sibling) = some top ∧
      tree.At nodes' x' (crumb :: path) ∧ x' ≠ .nil ∧ crumb.red = false ∧
      join crumb.side crumb.red x' crumb.value crumb.sibling = top ∧
      nodes' tree.nil = nodes tree.nil := by
  obtain ⟨parentX, parentP, uncle, red⟩ := place.uncle real
  have link := @At.link _ _ _ _ grand.side.other place real
  obtain ⟨sideP, redP, valueP, out⟩ := parent
  obtain ⟨side, redG, valueG, sibling⟩ := grand
  simp only at parentX parentP uncle red blackUncle ⊢
  change (nodes valueP).child side.other = tree.addr x ↔ sideP = side.other at link
  by_cases outer : sideP = side
  · subst outer
    have notInner : ¬tree.addr x = (nodes valueP).child sideP.other := by
      intro inner
      have impossible := link.mp inner.symm
      cases sideP <;> cases impossible
    obtain ⟨nodes', top, ran, turned, place', shape, same⟩ := place.insertOuter
    refine ⟨nodes', _, top, x, _, ?_, ?_, turned, place', real, rfl, shape, same⟩
    · rw [RbHead.insertSub]
      simp only [parentX, parentP, uncle, red, blackUncle, notInner, if_false, Bool.false_eq_true,
        RbStop.ok_bind, RbNodes.setRed_parent, ran]
      rfl
    · rw [rotateUnless, if_pos (decide_eq_true rfl)]
  · have inner : sideP = side.other := (Side.eq_other_of_ne outer).symm
    subst inner
    obtain ⟨redX, nearX, valueX, farX, rfl⟩ := exists_join side real
    have upper := at_up.mp place
    simp only [Side.join_other] at upper
    obtain ⟨nodes₁, rotated, place₁, same₁⟩ := upper.rotate
    have realP := join_ne_nil side redP out nearX valueP
    have lower : tree.At nodes₁ (join side redP out valueP nearX)
        (⟨side, redX, valueX, farX⟩ :: ⟨side, redG, valueG, sibling⟩ :: path) :=
      at_up.mpr place₁
    obtain ⟨nodes', top, ran, turned, place', shape, same⟩ := lower.insertOuter
    refine ⟨nodes', _, top, _, _, ?_, ?_, turned, place', realP, rfl, shape, same.trans same₁⟩
    · obtain ⟨parentP₁, parentX₁, _, _⟩ := lower.uncle realP
      have isInner := link.mpr rfl
      simp only [addr_join] at parentX isInner parentP₁ parentX₁ ⊢
      rw [RbHead.insertSub]
      simp only [parentX, parentP, uncle, red, blackUncle, isInner, if_true, if_false,
        Bool.false_eq_true, rotated, RbStop.ok_bind, RbNodes.setRed_parent, parentP₁, parentX₁,
        RbStop.pure_eq, ran]
    · rw [rotateUnless, if_neg (by simpa using outer), Side.join_other, rotate_join]

/-- A round of the loop. -/
theorem At.insertLoop_succ (place : tree.At nodes x (parent :: grand :: path)) (real : x ≠ .nil)
    (red : parent.red = true) (fuel : Nat) :
    tree.insertLoop (fuel + 1) nodes (tree.addr x) =
      tree.insertSub grand.side nodes (tree.addr x) >>= fun next =>
        tree.insertLoop fuel next.1 next.2 := by
  obtain ⟨parentX, parentP, _, _⟩ := place.uncle real
  have redP : (nodes parent.value).red = true := by rw [place.crumb, RbNode.join_red, red]
  have link := @At.link _ _ _ _ .left (at_up.mp place) (join_ne_nil _ _ _ _ _)
  rw [addr_join] at link
  have side : (if parent.value = (nodes grand.value).left then Side.left else .right) =
      grand.side := by
    cases h : grand.side with
    | left => exact if_pos (link.mpr h).symm
    | right =>
        refine if_neg fun same => ?_
        have impossible : grand.side = .left := link.mp same.symm
        rw [h] at impossible
        cases impossible
  rw [RbHead.insertLoop]
  simp only [parentX, parentP, redP, if_true, side]

end Grand

/-- The loop stops below a black parent. -/
theorem At.insertLoop_black {crumb : Crumb NodePtr} (place : tree.At nodes x (crumb :: path))
    (real : x ≠ .nil) (black : ¬crumb.red = true) (fuel : Nat) :
    tree.insertLoop fuel nodes (tree.addr x) = .ok nodes := by
  have stop : ¬(nodes (nodes (tree.addr x)).parent).red = true := by
    rw [place.parent real]
    change ¬(nodes crumb.value).red = true
    rw [place.crumb, RbNode.join_red]
    exact black
  unfold RbHead.insertLoop
  rw [if_neg stop]

/-- The loop of `rb_insert` in memory is the loop on the tree. -/
theorem At.insertLoop {t : RbTree NodePtr} {fuel : Nat} (place : tree.At nodes x path)
    (real : x ≠ .nil) (fixed : insertFixup x path = some t) (enough : path.length ≤ fuel) :
    ∃ nodes', tree.insertLoop fuel nodes (tree.addr x) = .ok nodes' ∧ tree.At nodes' t [] ∧
      nodes' tree.nil = nodes tree.nil := by
  induction x, path using insertFixup.induct generalizing nodes fuel with
  | case1 x =>
      cases fixed
      refine ⟨nodes, ?_, place, rfl⟩
      have top : nodes tree.root = _ := place.hung
      unfold RbHead.insertLoop
      rw [place.parent real, above, top, if_neg Bool.false_ne_true]
  | case2 x parent red =>
      rw [insertFixup, if_pos red] at fixed
      cases fixed
  | case3 x parent black =>
      rw [insertFixup, if_neg black] at fixed
      cases fixed
      exact ⟨nodes, place.insertLoop_black real black fuel, at_plug.mp place, rfl⟩
  | case4 x parent grand path redParent redUncle ih =>
      rw [insertFixup, if_pos redParent, if_pos redUncle] at fixed
      obtain ⟨rest, rfl⟩ : ∃ rest, fuel = rest + 1 :=
        ⟨fuel - 1, by rw [List.length_cons] at enough; omega⟩
      obtain ⟨nodes₁, ran, place₁, same₁⟩ := place.insertSub_red real redUncle
      have less : path.length ≤ rest := Nat.le_of_succ_le (Nat.le_of_succ_le_succ enough)
      obtain ⟨nodes', looped, place', same⟩ := ih place₁ (join_ne_nil _ _ _ _ _) fixed less
      rw [addr_join] at looped
      refine ⟨nodes', ?_, place', same.trans same₁⟩
      rw [place.insertLoop_succ real redParent, ran]
      exact looped
  | case5 x parent grand path redParent blackUncle =>
      rw [insertFixup, if_pos redParent, if_neg blackUncle] at fixed
      obtain ⟨rest, rfl⟩ : ∃ rest, fuel = rest + 1 :=
        ⟨fuel - 1, by rw [List.length_cons] at enough; omega⟩
      obtain ⟨nodes', up, top, x', crumb, ran, first, second, place', real', black, shape, same⟩ :=
        place.insertSub_black real (by simpa using blackUncle)
      refine ⟨nodes', ?_, ?_, same⟩
      · rw [place.insertLoop_succ real redParent, ran]
        exact place'.insertLoop_black real' (by simp [black]) rest
      · simp only [Option.bind_eq_bind] at fixed
        rw [first, Option.bind_some, second] at fixed
        cases fixed
        rw [← shape]
        exact at_plug.mp (at_up.mp place')
  | case6 x parent grand path blackParent =>
      rw [insertFixup, if_neg blackParent] at fixed
      cases fixed
      exact ⟨nodes, place.insertLoop_black real blackParent fuel, at_plug.mp place, rfl⟩

/-! ## The way down -/

theorem insertPosition_node {compare : NodePtr → NodePtr → Ordering} {node value : NodePtr}
    {red : Bool} {left right : RbTree NodePtr} :
    insertPosition compare node (.node red left value right) path =
      if compare value node = .gt then
        insertPosition compare node left (⟨.left, red, value, right⟩ :: path)
      else insertPosition compare node right (⟨.right, red, value, left⟩ :: path) := by
  rw [insertPosition]
  split
  · rename_i greater
    exact (if_pos greater).symm
  · rename_i notGreater
    exact (if_neg notGreater).symm

theorem plug_insertPosition {compare : NodePtr → NodePtr → Ordering} {node : NodePtr}
    {t : RbTree NodePtr} : plug .nil (insertPosition compare node t path) = plug t path := by
  induction t generalizing path with
  | nil => rfl
  | node red left value right ihLeft ihRight =>
      rw [insertPosition_node]
      split
      · exact ihLeft
      · exact ihRight

/-- The head of the position says on which side the new node is hung. -/
theorem insertPosition_side {compare : NodePtr → NodePtr → Ordering} {node : NodePtr}
    {t : RbTree NodePtr}
    (start : ∀ crumb ∈ path.head?, crumb.side = .left ↔ compare crumb.value node = .gt) :
    ∀ crumb ∈ (insertPosition compare node t path).head?,
      crumb.side = .left ↔ compare crumb.value node = .gt := by
  induction t generalizing path with
  | nil => exact start
  | node red left value right ihLeft ihRight =>
      rw [insertPosition_node]
      split
      · rename_i greater
        apply ihLeft
        rintro crumb ⟨⟩
        exact ⟨fun _ => greater, fun _ => rfl⟩
      · rename_i notGreater
        apply ihRight
        rintro crumb ⟨⟩
        exact ⟨by rintro ⟨⟩, fun greater => absurd greater notGreater⟩

/-- The loop of `rb_insert_binary` ends at the position. -/
theorem At.insertDescend {node : NodePtr} {t : RbTree NodePtr} {fuel : Nat}
    (place : tree.At nodes t path) (enough : t.toList.length ≤ fuel) :
    tree.insertDescend nodes node fuel (tree.above path) (tree.addr t) =
        .ok (tree.above (insertPosition tree.ordering node t path)) ∧
      tree.At nodes .nil (insertPosition tree.ordering node t path) := by
  induction t generalizing path fuel with
  | nil =>
      refine ⟨?_, place⟩
      unfold RbHead.insertDescend
      exact if_pos rfl
  | node red left value right ihLeft ihRight =>
      obtain ⟨rest, rfl⟩ : ∃ rest, fuel = rest + 1 :=
        ⟨fuel - 1, by rw [toList, List.length_append, List.length_cons] at enough; omega⟩
      rw [toList, List.length_append, List.length_cons] at enough
      have real : value ≠ tree.nil := place.addr_ne_nil (by rintro ⟨⟩)
      have step : tree.insertDescend nodes node (rest + 1) (tree.above path) value =
          tree.insertDescend nodes node rest value
            (if 0 < tree.compare value node then tree.addr left else tree.addr right) := by
        conv_lhs => unfold RbHead.insertDescend
        rw [if_neg real, place.node]
      rw [insertPosition_node]
      change tree.insertDescend nodes node (rest + 1) (tree.above path) value = _ ∧ _
      rw [step]
      by_cases greater : 0 < tree.compare value node
      · rw [if_pos greater, if_pos (ordering_eq_gt.mpr greater)]
        exact ihLeft (at_left.mp place) (by omega)
      · rw [if_neg greater, if_neg fun gt => greater (ordering_eq_gt.mp gt)]
        exact ihRight (at_right.mp place) (by omega)

/-! ## Insertion of a node -/

/-- A node that is neither a sentinel nor in the tree. -/
def Fresh (tree : RbHead) (t : RbTree NodePtr) (z : NodePtr) : Prop :=
  z ≠ tree.root ∧ z ≠ tree.nil ∧ z ∉ t.toList

/-- A fresh node is hung below the place where a way up starts. -/
theorem At.hang {z : NodePtr} {red : Bool} {nodes' : RbNodes} (place : tree.At nodes .nil path)
    (fresh : z ∉ tree.root :: tree.nil :: crumbNodes path)
    (node : nodes' z = ⟨red, tree.above path, tree.nil, tree.nil⟩)
    (link : nodes' (tree.above path) = (nodes (tree.above path)).setChild (aboveSide path) z)
    (same : ∀ a, a ≠ z → a ≠ tree.above path → nodes' a = nodes a) :
    tree.At nodes' (.node red .nil z .nil) path := by
  have distinct := place.nodup
  have upMem := @above_mem tree path
  refine ⟨⟨node, trivial, trivial⟩, place.hung.rehang (by grind) link fun a mem other => ?_, ?_, ?_⟩
  · exact same a (by grind) other
  · grind [toList]
  · rw [same tree.nil (by grind) place.above_ne_nil.symm]
    exact place.black

/-- `rb_insert_binary` hangs the node at its position. -/
theorem insertBinary_eq {t : RbTree NodePtr} {z : NodePtr} {fuel : Nat}
    (place : tree.At nodes t []) (fresh : tree.Fresh t z) (enough : t.toList.length ≤ fuel) :
    ∃ nodes', tree.insertBinary fuel nodes z = .ok nodes' ∧
      tree.At (nodes'.setRed z true) (.node true .nil z .nil)
        (insertPosition tree.ordering z t []) ∧
      nodes' tree.nil = nodes tree.nil := by
  obtain ⟨notRoot, notNil, notIn⟩ := fresh
  let nodes₁ := nodes.modify z fun n => { n with left := tree.nil, right := tree.nil }
  have other₁ : ∀ a, a ≠ z → nodes₁ a = nodes a := fun a other => RbNodes.modify_of_ne _ _ other
  have self₁ : nodes₁ z = { nodes z with left := tree.nil, right := tree.nil } :=
    RbNodes.modify_self _ _ _
  have place₁ : tree.At nodes₁ t [] := place.congr fun a mem => other₁ a (by
    rintro rfl
    simp [crumbNodes, notRoot, notNil, notIn] at mem)
  obtain ⟨ran, hole⟩ := @At.insertDescend _ _ _ z _ _ place₁ enough
  have sides := @insertPosition_side [] tree.ordering z t (by rintro crumb ⟨⟩)
  have perm := plug_perm .nil (insertPosition tree.ordering z t [])
  rw [plug_insertPosition] at perm
  generalize insertPosition tree.ordering z t [] = path at *
  have apart : z ∉ crumbNodes path := fun mem => notIn (perm.mem_iff.mpr mem)
  have top : nodes₁ tree.root = ⟨false, tree.nil, tree.addr t, tree.nil⟩ := place₁.hung
  have upMem := @above_mem tree path
  have upZ : tree.above path ≠ z := by grind
  have side : (tree.above path = tree.root ∨ 0 < tree.compare (tree.above path) z) ↔
      aboveSide path = .left := by
    rw [hole.above_eq_root]
    cases path with
    | nil => simp [aboveSide]
    | cons crumb path =>
        have head := sides crumb rfl
        rw [ordering_eq_gt] at head
        simp [above, aboveSide, head]
  let nodes₂ := nodes₁.setParent z (tree.above path)
  have other₂ : ∀ a, a ≠ z → nodes₂ a = nodes₁ a :=
    fun a other => RbNodes.modify_of_ne _ _ other
  have self₂ : nodes₂ z = { nodes₁ z with parent := tree.above path } :=
    RbNodes.modify_self _ _ _
  refine ⟨nodes₂.setChild (tree.above path) (aboveSide path) z, ?_, hole.hang ?_ ?_ ?_ ?_, ?_⟩
  · unfold RbHead.insertBinary
    change (tree.insertDescend nodes₁ z fuel tree.root (nodes₁ tree.root).left >>= _) = _
    rw [top]
    change (tree.insertDescend nodes₁ z fuel (tree.above []) (tree.addr t) >>= _) = _
    rw [ran, RbStop.ok_bind]
    simp only [RbStop.pure_eq, side]
    cases aboveSide path <;> rfl
  · simp [apart, notRoot, notNil]
  · rw [RbNodes.setRed_self, RbNodes.setChild, RbNodes.modify_of_ne _ _ upZ.symm, self₂,
      self₁]
  · rw [RbNodes.setRed_of_ne _ _ _ upZ, RbNodes.setChild, RbNodes.modify_self, other₂ _ upZ]
  · intro a notZ notUp
    rw [RbNodes.setRed_of_ne _ _ _ notZ, RbNodes.setChild, RbNodes.modify_of_ne _ _ notUp,
      other₂ _ notZ]
  · rw [RbNodes.setChild, RbNodes.modify_of_ne _ _ hole.above_ne_nil.symm,
      other₂ _ notNil.symm, other₁ _ notNil.symm]

/-- `rb_insert` in memory is insertion into the tree. -/
theorem insert_eq {t t' : RbTree NodePtr} {z : NodePtr} {fuel : Nat} (place : tree.At nodes t [])
    (fresh : tree.Fresh t z) (inserted : rbInsert tree.ordering t z = some t')
    (enough : t.toList.length ≤ fuel) :
    ∃ nodes', tree.insert fuel nodes z = .ok nodes' ∧ tree.At nodes' t' [] ∧
      nodes' tree.nil = nodes tree.nil := by
  obtain ⟨nodes₁, hung, place₁, same₁⟩ := insertBinary_eq place fresh enough
  simp only [rbInsert, Option.bind_eq_bind, Option.bind_eq_some_iff] at inserted
  obtain ⟨fixed, fixup, result⟩ := inserted
  cases result
  have perm := plug_perm .nil (insertPosition tree.ordering z t [])
  rw [plug_insertPosition] at perm
  have short : (insertPosition tree.ordering z t []).length ≤ fuel := by
    have length := perm.length_eq
    have crumbs := length_le_crumbNodes (insertPosition tree.ordering z t [])
    rw [plug, List.length_append] at length
    omega
  obtain ⟨nodes₂, looped, place₂, same₂⟩ := place₁.insertLoop (by rintro ⟨⟩) fixup short
  have real : fixed ≠ .nil := by
    rintro rfl
    have list := insertFixup_toList fixup
    rw [plug_toList] at list
    simp [toList] at list
  have top : (nodes₂ tree.root).left = tree.addr fixed := by
    have hung : nodes₂ tree.root = _ := place₂.hung
    rw [hung]
  have place' := place₂.setRed false real
  have root : (nodes₂.setRed (tree.addr fixed) false tree.root).red = false := by
    have hung : nodes₂.setRed (tree.addr fixed) false tree.root = _ := place'.hung
    rw [hung]
  refine ⟨nodes₂.setRed (tree.addr fixed) false, ?_, place', ?_⟩
  · rw [RbHead.insert, hung, RbStop.ok_bind]
    change (tree.insertLoop fuel (nodes₁.setRed z true) z >>= _) = _
    change tree.insertLoop fuel (nodes₁.setRed z true) z = _ at looped
    rw [looped, RbStop.ok_bind]
    simp only [top, place'.black, root, Bool.false_eq_true, or_self, if_false, RbStop.pure_eq]
  · rw [RbNodes.setRed_of_ne _ _ _ (place₂.addr_ne_nil real).symm, same₂,
      RbNodes.setRed_of_ne _ _ _ fresh.2.1.symm, same₁]

end EdfKernel.Mm.RbHead
