import EdfKernel.Mm.RbBalance
import EdfKernel.Mm.RbLinks

/-!
# Deletion from a tree in memory

`rb_delete` on the nodes in memory does what `rbDelete` does on the tree.  While a subtree lacks a
black node its parent link is followed, also where the subtree is `nil`: the parent link of the
sentinel is scratch, and `Below` says that it leads up.
-/

namespace EdfKernel.Mm.RbHead

open RbTree

variable {tree : RbHead} {nodes nodes' : RbNodes} {x : RbTree NodePtr} {parent : Crumb NodePtr}
  {path : List (Crumb NodePtr)}

/-- The tree at a place whose parent link leads up even at `nil`. -/
structure Below (tree : RbHead) (nodes : RbNodes) (x : RbTree NodePtr)
    (path : List (Crumb NodePtr)) : Prop where
  place : tree.At nodes x path
  parent : (nodes (tree.addr x)).parent = tree.above path

/-- The link at `nil` stays as it is. -/
theorem Below.of_same {path' : List (Crumb NodePtr)} (below : tree.Below nodes x path)
    (place : tree.At nodes' x path') (above : tree.above path' = tree.above path)
    (same : nodes' tree.nil = nodes tree.nil) : tree.Below nodes' x path' := by
  refine ⟨place, ?_⟩
  by_cases real : x = .nil
  · subst real
    rw [above, ← below.parent, addr, same]
  · exact place.parent real

theorem At.below (place : tree.At nodes x path) (real : x ≠ .nil) : tree.Below nodes x path :=
  ⟨place, place.parent real⟩

/-! ## A round -/

/-- What the loop reads at the parent. -/
theorem At.brother (place : tree.At nodes x (parent :: path)) :
    (nodes parent.value).child parent.side.other = tree.addr parent.sibling ∧
      (nodes (tree.addr parent.sibling)).red = parent.sibling.isRed := by
  refine ⟨?_, (at_sibling.mp place).red⟩
  rw [place.crumb, RbNode.join_child_other]

/-- A red sibling is rotated above the parent. -/
theorem Below.deleteRaise {parent' : Crumb NodePtr} {path' : List (Crumb NodePtr)}
    (below : tree.Below nodes x (parent :: path))
    (raised : RbTree.deleteRaise parent path = some (parent', path')) :
    ∃ nodes',
      (if (nodes (tree.addr parent.sibling)).red then do
        let nodes := nodes.setRed (tree.addr parent.sibling) false
        let nodes := nodes.setRed (nodes (tree.addr x)).parent true
        let nodes ← tree.rotate parent.side nodes (nodes (tree.addr x)).parent
        return (nodes, (nodes (nodes (tree.addr x)).parent).child parent.side.other)
      else .ok (nodes, tree.addr parent.sibling) : Except RbStop (RbNodes × NodePtr)) =
        .ok (nodes', tree.addr parent'.sibling) ∧
      tree.Below nodes' x (parent' :: path') ∧ parent'.value = parent.value ∧
      parent'.side = parent.side := by
  obtain ⟨_, red⟩ := below.place.brother
  unfold RbTree.deleteRaise at raised
  rw [red]
  split at raised
  · rename_i isRed
    simp only [Option.bind_eq_bind, Option.bind_eq_some_iff] at raised
    obtain ⟨⟨redS, near, value, far⟩, shape, result⟩ := raised
    cases result
    replace shape : parent.sibling = RbTree.join parent.side redS near value far :=
      split_eq_some_iff.mp shape
    have real : parent.sibling ≠ .nil := by
      rw [shape]
      exact join_ne_nil _ _ _ _ _
    have above : (nodes (tree.addr x)).parent = parent.value := below.parent
    have place₁ := below.place.setRed_sibling false real
    have place₂ := at_up.mp (place₁.setRed_crumb true)
    have same₂ : (nodes.setRed (tree.addr parent.sibling) false).setRed parent.value true
        tree.nil = nodes tree.nil := by
      rw [RbNodes.setRed_of_ne _ _ _ place₁.crumb_ne_nil,
        RbNodes.setRed_of_ne _ _ _ ((at_sibling.mp below.place).addr_ne_nil real).symm]
    simp only [shape, setRed_join, addr_join] at place₂ same₂
    obtain ⟨nodes', rotated, place', same⟩ := place₂.rotate
    have lower : tree.At nodes' x (⟨parent.side, true, parent.value, near⟩ ::
        ⟨parent.side, false, value, far⟩ :: path) :=
      at_up.mpr (at_up.mpr place')
    have below' := below.of_same lower rfl (same.trans same₂)
    have above' : (nodes' (tree.addr x)).parent = parent.value := below'.parent
    refine ⟨nodes', ?_, below', rfl, rfl⟩
    simp only [shape, isRed_join] at isRed
    simp only [shape, addr_join, isRed_join, isRed, if_true, RbNodes.setRed_parent, above, rotated,
      RbStop.ok_bind, RbStop.pure_eq, above']
    rw [lower.brother.1]
  · rename_i notRed
    cases raised
    rw [if_neg notRed]
    exact ⟨nodes, rfl, below, rfl, rfl⟩

/-- What the loop reads at a sibling that is not empty. -/
theorem At.nephews {red : Bool} {near far : RbTree NodePtr} {value : NodePtr}
    (place : tree.At nodes x (parent :: path))
    (shape : parent.sibling = RbTree.join parent.side red near value far) :
    (nodes (tree.addr parent.sibling)).child parent.side = tree.addr near ∧
      (nodes (tree.addr parent.sibling)).child parent.side.other = tree.addr far ∧
      (nodes (tree.addr near)).red = near.isRed ∧ (nodes (tree.addr far)).red = far.isRed := by
  have sibling := at_sibling.mp place
  simp only [shape] at sibling ⊢
  rw [addr_join, sibling.links, RbNode.join_child, RbNode.join_child_other]
  exact ⟨rfl, rfl, sibling.near.red, sibling.far.red⟩

/-- A red nephew on the near side is rotated above the sibling. -/
theorem Below.deleteTurn {red redS : Bool} {near far sibling near' far' : RbTree NodePtr}
    {value value' : NodePtr} (below : tree.Below nodes x (parent :: path))
    (shape : parent.sibling = RbTree.join parent.side red near value far)
    (turned : rotateUnless far.isRed parent.side.other
      (if far.isRed then RbTree.join parent.side red near value far
        else RbTree.join parent.side true (near.setRed false) value far) = some sibling)
    (split : sibling.split parent.side = some (redS, near', value', far')) :
    ∃ nodes',
      (if (nodes (tree.addr far)).red = false then do
        let nodes := nodes.setRed (tree.addr near) false
        let nodes := nodes.setRed value true
        let nodes ← tree.rotate parent.side.other nodes value
        return (nodes, (nodes (nodes (tree.addr x)).parent).child parent.side.other)
      else .ok (nodes, value) : Except RbStop (RbNodes × NodePtr)) = .ok (nodes', value') ∧
      tree.Below nodes' x (⟨parent.side, parent.red, parent.value,
        RbTree.join parent.side redS near' value' far'⟩ :: path) := by
  obtain ⟨side, redP, valueP, siblingP⟩ := parent
  simp only at shape turned split ⊢
  subst shape
  have brother := at_sibling.mp below.place
  rw [brother.far.red]
  cases redFar : far.isRed with
  | true =>
      rw [redFar, rotateUnless, if_pos rfl, if_pos rfl] at turned
      cases turned
      rw [split_join] at split
      cases split
      exact ⟨nodes, rfl, below⟩
  | false =>
      rw [redFar, rotateUnless, if_neg Bool.false_ne_true, if_neg Bool.false_ne_true] at turned
      have real : near ≠ .nil := by
        rintro rfl
        cases side <;> cases turned
      obtain ⟨redN, a, b, c, rfl⟩ := exists_join side.other real
      have shape := rotate_join side.other true false far a c value b
      simp only [Side.join_other] at shape
      rw [setRed_join, Side.join_other, shape] at turned
      cases turned
      rw [split_join] at split
      cases split
      obtain ⟨place₁, same₁⟩ := brother.near.setBlack
      have place₂ := at_up.mp (place₁.setRed_crumb true)
      simp only [setRed_join, addr_join] at place₂ same₁
      rw [← Side.join_other] at place₂
      obtain ⟨nodes', rotated, place₃, same₃⟩ := place₂.rotate
      have place' := at_sibling.mp place₃
      simp only [Side.other_other, Side.join_other] at place'
      have nil : nodes' tree.nil = nodes tree.nil := by
        rw [same₃, RbNodes.setRed_of_ne _ _ _ place₁.crumb_ne_nil, same₁]
      have below' := below.of_same place' rfl nil
      have above : (nodes' (tree.addr x)).parent = valueP := below'.parent
      refine ⟨nodes', ?_, below'⟩
      rw [if_pos rfl, addr_join, rotated]
      simp only [RbStop.ok_bind, RbStop.pure_eq, above]
      rw [place'.brother.1, addr_join]

/-- The last rotation, with the colours that it is made under. -/
theorem Below.deleteEnd {redS : Bool} {near far : RbTree NodePtr} {value : NodePtr}
    (below : tree.Below nodes x (parent :: path))
    (shape : parent.sibling = RbTree.join parent.side redS near value far) :
    ∃ nodes',
      (let nodes := nodes.setRed value (nodes (nodes (tree.addr x)).parent).red
        let nodes := nodes.setRed (nodes (tree.addr x)).parent false
        let nodes := nodes.setRed ((nodes value).child parent.side.other) false
        tree.rotate parent.side nodes (nodes (tree.addr x)).parent) = .ok nodes' ∧
      tree.At nodes' (RbTree.join parent.side parent.red
        (RbTree.join parent.side false x parent.value near) value (far.setRed false)) path := by
  obtain ⟨side, redP, valueP, siblingP⟩ := parent
  simp only at shape ⊢
  subst shape
  have above : (nodes (tree.addr x)).parent = valueP := below.parent
  have red : (nodes valueP).red = redP := by rw [below.place.crumb, RbNode.join_red]
  have place₁ := below.place.setRed_sibling redP (join_ne_nil _ _ _ _ _)
  have place₂ := at_sibling.mp (place₁.setRed_crumb false)
  simp only [addr_join, setRed_join] at place₂
  have child : (nodes value).child side.other = tree.addr far := by
    rw [(at_sibling.mp below.place).links, RbNode.join_child_other]
  obtain ⟨place₃, _⟩ := place₂.far.setBlack
  have place₄ := at_up.mp (at_up.mp place₃)
  simp only [Side.join_other] at place₄
  obtain ⟨nodes', rotated, place', _⟩ := place₄.rotate
  refine ⟨nodes', ?_, place'⟩
  rw [above, red]
  simp only [RbNodes.setRed_parent, above, RbNodes.setRed_child, child, rotated]

/-- A round of the fixup from where the far nephew is red. -/
def deleteEnd (tree : RbHead) (side : Side) (root x : NodePtr) :
    RbNodes × NodePtr → Except RbStop (RbNodes × NodePtr)
  | (nodes, w) => do
      let nodes := nodes.setRed w (nodes (nodes x).parent).red
      let nodes := nodes.setRed (nodes x).parent false
      let nodes := nodes.setRed ((nodes w).child side.other) false
      let nodes ← tree.rotate side nodes (nodes x).parent
      return (nodes, root)

/-- A round of the loop in memory is a round on the tree. -/
theorem Below.deleteSub {parent' : Crumb NodePtr} {path' : List (Crumb NodePtr)}
    {result : RbTree NodePtr × List (Crumb NodePtr) ⊕ RbTree NodePtr} (root : NodePtr)
    (below : tree.Below nodes x (parent :: path))
    (raised : RbTree.deleteRaise parent path = some (parent', path'))
    (round : RbTree.deleteRound x parent' path' = some result) :
    ∃ nodes',
      match result with
      | .inl (x', rest) =>
          tree.deleteSub parent.side root nodes (tree.addr x) = .ok (nodes', tree.addr x') ∧
            tree.Below nodes' x' rest ∧ x' ≠ .nil ∧ rest = path' ∧ tree.addr x' = parent.value ∧
            x'.isRed = parent'.red
      | .inr t =>
          tree.deleteSub parent.side root nodes (tree.addr x) = .ok (nodes', root) ∧
            ∃ top, tree.At nodes' (plug top path') [] ∧ (nodes' parent.value).red = false ∧
              t = if path'.isEmpty then plug top path' else (plug top path').setRed false := by
  obtain ⟨nodes₁, raisedHere, below₁, sameValue, sameSide⟩ := below.deleteRaise raised
  have above : (nodes (tree.addr x)).parent = parent.value := below.parent
  have above₁ : (nodes₁ (tree.addr x)).parent = parent'.value := below₁.parent
  simp only [RbTree.deleteRound, Option.bind_eq_bind, Option.bind_eq_some_iff] at round
  obtain ⟨⟨red, near, value, far⟩, shape, round⟩ := round
  replace shape : parent'.sibling = RbTree.join parent'.side red near value far :=
    split_eq_some_iff.mp shape
  obtain ⟨nearAt, farAt, nearRed, farRed⟩ := below₁.place.nephews shape
  have isValue : tree.addr parent'.sibling = value := by rw [shape, addr_join]
  have start : tree.deleteSub parent.side root nodes (tree.addr x) =
      (if near.isRed = false ∧ far.isRed = false then
        .ok (nodes₁.setRed (tree.addr parent'.sibling) true, parent'.value)
      else
        (if (nodes₁ (tree.addr far)).red = false then do
          let nodes := nodes₁.setRed (tree.addr near) false
          let nodes := nodes.setRed value true
          let nodes ← tree.rotate parent'.side.other nodes value
          return (nodes, (nodes (nodes (tree.addr x)).parent).child parent'.side.other)
        else .ok (nodes₁, value) : Except RbStop (RbNodes × NodePtr)) >>=
          tree.deleteEnd parent'.side root (tree.addr x)) := by
    have brother := below.place.brother.1
    unfold RbHead.deleteSub
    dsimp only at raisedHere ⊢
    rw [above, brother, raisedHere, RbStop.ok_bind]
    dsimp only
    rw [← sameSide, nearAt, farAt, nearRed, farRed, RbNodes.setRed_parent, above₁, isValue]
    rfl
  split at round
  · rename_i black
    cases round
    have real : parent'.sibling ≠ .nil := by
      rw [shape]
      exact join_ne_nil _ _ _ _ _
    have place' := at_up.mp (below₁.place.setRed_sibling true real)
    refine ⟨nodes₁.setRed (tree.addr parent'.sibling) true, ?_,
      place'.below (join_ne_nil _ _ _ _ _), join_ne_nil _ _ _ _ _, rfl, ?_, isRed_join _ _ _ _ _⟩
    · rw [start, if_pos black, addr_join]
    · rw [addr_join, sameValue]
  · rename_i notBlack
    obtain ⟨t, finished, isResult⟩ := Option.bind_eq_some_iff.mp round
    cases isResult
    simp only [RbTree.deleteFinish, Option.bind_eq_bind, Option.bind_eq_some_iff] at finished
    obtain ⟨sibling, turned, ⟨redS, near', value', far'⟩, split, top, rotated, isT⟩ := finished
    obtain ⟨nodes₂, turnedHere, below₂⟩ := below₁.deleteTurn shape turned split
    obtain ⟨nodes', endHere, place'⟩ := below₂.deleteEnd rfl
    rw [rotate_join] at rotated
    cases rotated
    refine ⟨nodes', ?_, _, at_plug.mp place', ?_, ?_⟩
    · rw [start, if_neg notBlack, turnedHere, RbStop.ok_bind]
      dsimp only [RbHead.deleteEnd] at endHere ⊢
      rw [endHere]
      rfl
    · rw [← sameValue, place'.near.links, RbNode.join_red]
    · cases isT
      rfl

/-! ## The loop -/

theorem addr_plug_congr {x' : RbTree NodePtr} (same : tree.addr x' = tree.addr x)
    (path : List (Crumb NodePtr)) : tree.addr (plug x' path) = tree.addr (plug x path) := by
  induction path generalizing x x' with
  | nil => exact same
  | cons crumb path ih => exact ih (by rw [addr_join, addr_join])

/-- The top of the tree above a subtree is a node of the way up. -/
theorem addr_plug_cons (x x' : RbTree NodePtr) (crumb : Crumb NodePtr)
    (path : List (Crumb NodePtr)) :
    tree.addr (plug x' (crumb :: path)) = tree.addr (plug x (crumb :: path)) :=
  addr_plug_congr (by rw [addr_join, addr_join]) path

theorem plug_cons_ne_nil (x : RbTree NodePtr) (crumb : Crumb NodePtr)
    (path : List (Crumb NodePtr)) : plug x (crumb :: path) ≠ .nil := by
  induction path generalizing x crumb with
  | nil => exact join_ne_nil _ _ _ _ _
  | cons crumb' path ih => exact ih _ crumb'

theorem addr_plug_mem (x : RbTree NodePtr) (parent : Crumb NodePtr) (path : List (Crumb NodePtr)) :
    tree.addr (plug x (parent :: path)) ∈ crumbNodes (parent :: path) := by
  induction path generalizing x parent with
  | nil =>
      rw [plug, plug, addr_join, crumbNodes]
      exact List.mem_cons_self
  | cons crumb path ih =>
      rw [plug, crumbNodes]
      exact List.mem_cons_of_mem _ (List.mem_append_right _ (ih _ crumb))

/-- A subtree below a parent is not at the top. -/
theorem At.addr_ne_top (place : tree.At nodes x (parent :: path)) :
    tree.addr x ≠ tree.addr (plug x (parent :: path)) := by
  have top := @addr_plug_mem tree x parent path
  have bottom := @addr_eq_or_mem tree x
  have distinct := place.nodup
  intro same
  rw [← same] at top
  grind

/-- The side that the loop finds, where the sibling is not empty. -/
theorem At.side (place : tree.At nodes x (parent :: path)) (real : parent.sibling ≠ .nil) :
    (if tree.addr x = (nodes parent.value).left then Side.left else .right) = parent.side := by
  have node := place.crumb
  obtain ⟨side, red, value, sibling⟩ := parent
  simp only at node real ⊢
  cases side with
  | left => exact if_pos (by rw [node]; rfl)
  | right =>
      have bottom := @addr_eq_or_mem tree x
      have mem := @addr_mem tree _ real
      have distinct := place.nodup
      refine if_neg fun same => ?_
      rw [node] at same
      change tree.addr x = tree.addr sibling at same
      rw [same] at bottom
      simp only [crumbNodes] at distinct
      grind

/-- The sibling of a subtree that lacks a black node is not empty. -/
theorem sibling_ne_nil {parent' : Crumb NodePtr} {path' : List (Crumb NodePtr)}
    {result : RbTree NodePtr × List (Crumb NodePtr) ⊕ RbTree NodePtr}
    (raised : RbTree.deleteRaise parent path = some (parent', path'))
    (round : RbTree.deleteRound x parent' path' = some result) : parent.sibling ≠ .nil := by
  intro empty
  have black : ¬(RbTree.nil : RbTree NodePtr).isRed = true := Bool.false_ne_true
  rw [RbTree.deleteRaise, empty, if_neg black] at raised
  cases raised
  rw [RbTree.deleteRound, empty] at round
  cases round

theorem deleteRaise_red {parent' : Crumb NodePtr} {path' : List (Crumb NodePtr)}
    (raised : RbTree.deleteRaise parent path = some (parent', path')) :
    (parent' = parent ∧ path' = path) ∨
      (parent'.red = true ∧ ∃ value far, path' = ⟨parent.side, false, value, far⟩ :: path) := by
  unfold RbTree.deleteRaise at raised
  split at raised
  · simp only [Option.bind_eq_bind, Option.bind_eq_some_iff] at raised
    obtain ⟨⟨red, near, value, far⟩, _, result⟩ := raised
    cases result
    exact .inr ⟨rfl, value, far, rfl⟩
  · cases raised
    exact .inl ⟨rfl, rfl⟩

/-- Where the loop ends with the node that was at the top when it began, that node is blackened or
black. -/
theorem At.blackenTop {parent' : Crumb NodePtr} {path' : List (Crumb NodePtr)}
    {top t : RbTree NodePtr} (place : tree.At nodes (plug top path') [])
    (raised : RbTree.deleteRaise parent path = some (parent', path'))
    (black : (nodes parent.value).red = false)
    (result : t = if path'.isEmpty then plug top path' else (plug top path').setRed false) :
    tree.At (nodes.setRed (tree.addr (plug x (parent :: path))) false) t [] := by
  cases path with
  | nil =>
      have same : t = plug top path' := by
        rcases deleteRaise_red raised with ⟨_, rfl⟩ | ⟨_, value, far, rfl⟩
        · exact result
        · rw [result, plug, plug, setRed_join]
          rfl
      rw [plug, plug, addr_join, RbNodes.setRed_of_eq _ _ _ black, same]
      exact place
  | cons crumb path =>
      have same : tree.addr (plug x (parent :: crumb :: path)) = tree.addr (plug top path') ∧
          path'.isEmpty = false := by
        rcases deleteRaise_red raised with ⟨_, rfl⟩ | ⟨_, value, far, rfl⟩
        · exact ⟨addr_plug_cons top
            (RbTree.join parent.side parent.red x parent.value parent.sibling) crumb path, rfl⟩
        · exact ⟨addr_plug_cons (RbTree.join parent.side false top value far)
            (RbTree.join parent.side parent.red x parent.value parent.sibling) crumb path, rfl⟩
      rw [same.1, result, same.2, if_neg Bool.false_ne_true]
      exact place.setBlack.1

/-- The loop of `rb_delete_fixup` in memory is the loop on the tree.  The node `root` is at the
top, or it was and the loop ends here. -/
theorem Below.deleteLoop {root : NodePtr} {t : RbTree NodePtr} {steps fuel : Nat}
    (below : tree.Below nodes x path) (top : root = tree.addr (plug x path) ∨ x.isRed = true)
    (fixed : RbTree.deleteFixup steps x path = some t) (enough : steps ≤ fuel) :
    ∃ nodes' last, tree.deleteLoop root fuel nodes (tree.addr x) = .ok (nodes', last) ∧
      tree.At (nodes'.setRed last false) t [] := by
  induction steps generalizing nodes x path fuel with
  | zero => cases fixed
  | succ steps ih =>
      cases path with
      | nil =>
          cases fixed
          refine ⟨nodes, tree.addr x, ?_, below.place.setBlack.1⟩
          unfold RbHead.deleteLoop
          refine if_neg fun both => ?_
          rcases top with rfl | red
          · exact both.1 rfl
          · rw [below.place.red, red] at both
            exact absurd both.2.symm Bool.false_ne_true
      | cons parent path =>
          rw [RbTree.deleteFixup] at fixed
          split at fixed
          · rename_i red
            cases fixed
            refine ⟨nodes, tree.addr x, ?_, at_plug.mp below.place.setBlack.1⟩
            unfold RbHead.deleteLoop
            refine if_neg fun both => ?_
            rw [below.place.red, red] at both
            exact absurd both.2.symm Bool.false_ne_true
          · rename_i black
            simp only [Option.bind_eq_bind, Option.bind_eq_some_iff] at fixed
            obtain ⟨⟨parent', path'⟩, raised, result, round, rest⟩ := fixed
            replace top := top.resolve_right black
            obtain ⟨less, rfl⟩ : ∃ less, fuel = less + 1 := ⟨fuel - 1, by omega⟩
            have real := sibling_ne_nil raised round
            have above : (nodes (tree.addr x)).parent = parent.value := below.parent
            have going : tree.addr x ≠ root ∧ (nodes (tree.addr x)).red = false := by
              rw [top, below.place.red]
              exact ⟨below.place.addr_ne_top, by simpa using black⟩
            obtain ⟨nodes₁, turn⟩ := below.deleteSub root raised round
            have step : tree.deleteLoop root (less + 1) nodes (tree.addr x) =
                tree.deleteSub parent.side root nodes (tree.addr x) >>= fun next =>
                  tree.deleteLoop root less next.1 next.2 := by
              conv_lhs => unfold RbHead.deleteLoop
              rw [if_pos going]
              simp only [above, below.place.side real]
            cases result with
            | inl next =>
                obtain ⟨x', path''⟩ := next
                obtain ⟨ran, below', real', rfl, value, red⟩ := turn
                have top' : root = tree.addr (plug x' path'') ∨ x'.isRed = true := by
                  rcases deleteRaise_red raised with ⟨_, rfl⟩ | ⟨isRed, _⟩
                  · left
                    rw [top, plug]
                    exact addr_plug_congr (by rw [addr_join, value]) _
                  · right
                    rw [red, isRed]
                obtain ⟨nodes', last, looped, whole⟩ := ih below' top' rest
                  (Nat.le_of_succ_le_succ enough)
                refine ⟨nodes', last, ?_, whole⟩
                rw [step, ran]
                exact looped
            | inr done =>
                obtain ⟨ran, top', place', black', isT⟩ := turn
                cases rest
                refine ⟨nodes₁, root, ?_, ?_⟩
                · rw [step, ran, RbStop.ok_bind]
                  unfold RbHead.deleteLoop
                  exact if_neg fun both => both.1 rfl
                · rw [top]
                  exact place'.blackenTop raised black' isT

/-! ## Taking a node out -/

theorem relink_eq {v up y : NodePtr} {side : Side} (parent : (nodes v).parent = up)
    (link : (nodes up).left = v ↔ side = .left) :
    relink nodes v y = nodes.setChild up side y := by
  unfold relink
  rw [parent]
  by_cases left : side = .left
  · rw [if_pos (link.mpr left).symm, left]
  · rw [if_neg fun same => left (link.mp same.symm)]
    cases side with
    | left => exact absurd rfl left
    | right => rfl

theorem relink_red (z y p : NodePtr) : (relink nodes z y p).red = (nodes p).red := by
  unfold relink
  split <;> rw [RbNodes.setChild_red]

/-- A node with one child at most is taken out; the child moves up. -/
theorem At.splice {node : RbTree NodePtr} {red : Bool} {v : NodePtr} (place : tree.At nodes node path)
    (isNode : node = .node red .nil v x ∨ node = .node red x v .nil) :
    tree.Below (relink (nodes.setParent (tree.addr x) (tree.above path)) v (tree.addr x)) x path := by
  have real : node ≠ .nil := by rcases isNode with rfl | rfl <;> rintro ⟨⟩
  have value : tree.addr node = v := by rcases isNode with rfl | rfl <;> rfl
  have parent : (nodes v).parent = tree.above path := by rw [← value, place.parent real]
  have link := @At.link _ _ _ _ .left place real
  rw [value] at link
  have perm : node.toList.Perm (v :: x.toList) := by
    rcases isNode with rfl | rfl
    · exact .refl _
    · rw [toList, toList]
      exact List.perm_middle.trans (by rw [List.append_nil])
  have linked : tree.Linked nodes v x := by
    rcases isNode with rfl | rfl
    · exact place.linked.2.2
    · exact place.linked.2.1
  have distinct := (((perm.append_right (crumbNodes path)).cons tree.nil).cons
    tree.root).nodup_iff.mp place.nodup
  have upMem := @above_mem tree path
  have bottom := @addr_eq_or_mem tree x
  have hung := place.hung
  rw [value] at hung
  have hang := @Hung.rehang _ _
    ((nodes.setParent (tree.addr x) (tree.above path)).setChild (tree.above path)
      (aboveSide path) (tree.addr x)) _ _ (tree.addr x) hung (by grind)
  simp only [List.cons_append, List.nodup_cons, List.mem_cons, List.mem_append, not_or,
    List.nodup_append] at distinct
  rw [List.mem_cons] at upMem
  generalize hup : tree.above path = up at *
  generalize hc : tree.addr x = c at *
  have upC : up ≠ c := by grind
  have vC : v ≠ c := by grind
  have upV : up ≠ v := by grind
  have self : nodes.setParent c up c = { nodes c with parent := up } := RbNodes.modify_self _ _ _
  have other : ∀ a, a ≠ c → nodes.setParent c up a = nodes a :=
    fun a apart => RbNodes.modify_of_ne _ _ apart
  have top : ∀ a, a ≠ up → (nodes.setParent c up).setChild up (aboveSide path) c a =
      nodes.setParent c up a := fun a apart => RbNodes.modify_of_ne _ _ apart
  rw [relink_eq (by rw [other _ vC, parent]) (by rw [other _ upC]; exact link)]
  refine ⟨⟨?_, ?_, ?_, ?_⟩, ?_⟩
  · rw [hup]
    refine linked.reparent (by grind) (fun real => ?_) fun a mem apart => ?_
    · rw [hc, top _ upC.symm, self]
    · rw [hc] at apart
      rw [top a (by grind), other a apart]
  · rw [hc]
    apply hang
    · rw [RbNodes.setChild, RbNodes.modify_self, other _ upC]
    · intro a mem apart
      rw [top a apart, other a (by grind)]
  · grind
  · rw [top _ (by grind)]
    by_cases same : tree.nil = c
    · rw [same, self, ← same]
      exact place.black
    · rw [other _ same]
      exact place.black
  · rw [hc, hup, top _ upC.symm, self]

/-- What `rb_delete` writes when `y` takes the place of `z`. -/
def replaced (nodes : RbNodes) (z y : NodePtr) : RbNodes :=
  let nodes := relink nodes z y
  let nodes := nodes.setParent (nodes z).right y
  let nodes := nodes.setParent (nodes z).left y
  nodes.modify y fun _ => nodes z

/-- Another node takes the place of a node that has a left child. -/
theorem At.replace {red : Bool} {left right : RbTree NodePtr} {z y : NodePtr}
    (place : tree.At nodes (.node red left z right) path) (real : left ≠ .nil)
    (fresh : y ∉ tree.root :: tree.nil ::
      ((RbTree.node red left z right).toList ++ crumbNodes path)) :
    tree.At (replaced nodes z y) (.node red left y right) path ∧
      (right ≠ .nil → replaced nodes z y tree.nil = nodes tree.nil) ∧
      (right = .nil → (replaced nodes z y tree.nil).parent = y) := by
  have realZ : RbTree.node red left z right ≠ .nil := by rintro ⟨⟩
  have link := @At.link _ _ _ _ .left place realZ
  have node := place.node
  have hang := @Hung.rehang _ _ (replaced nodes z y) _ _ y place.hung
  have linkedLeft := place.linked.2.1
  have linkedRight := place.linked.2.2
  have distinct := place.nodup
  have upMem := @above_mem tree path
  have leftMem := @addr_mem tree _ real
  have rightMem := @addr_eq_or_mem tree right
  have black := place.black
  simp only [toList, List.cons_append, List.nodup_cons, List.mem_cons, List.mem_append, not_or,
    List.nodup_append, List.append_assoc] at distinct fresh
  rw [List.mem_cons] at upMem
  change (nodes (tree.above path)).left = z ↔ _ at link
  generalize hup : tree.above path = up at *
  generalize hl : tree.addr left = l at *
  generalize hr : tree.addr right = r at *
  have upZ : up ≠ z := by grind
  have upL : up ≠ l := by grind
  have upR : up ≠ r := by grind
  have upY : up ≠ y := by grind
  have zL : z ≠ l := by grind
  have zR : z ≠ r := by grind
  have zY : z ≠ y := by grind
  have lR : l ≠ r := by grind
  have lY : l ≠ y := by grind
  have rY : r ≠ y := by grind
  have whole : ∀ p, replaced nodes z y p =
      if p = y then nodes z
      else if p = l ∨ p = r then { nodes p with parent := y }
      else if p = up then (nodes up).setChild (aboveSide path) y
      else nodes p := by
    let n1 := nodes.setChild up (aboveSide path) y
    have at1 : ∀ a, a ≠ up → n1 a = nodes a := fun a other => RbNodes.modify_of_ne _ _ other
    have up1 : n1 up = (nodes up).setChild (aboveSide path) y := RbNodes.modify_self _ _ _
    have z1 : n1 z = ⟨red, up, l, r⟩ := by rw [at1 _ upZ.symm, node]
    let n2 := n1.setParent r y
    have at2 : ∀ a, a ≠ r → n2 a = n1 a := fun a other => RbNodes.modify_of_ne _ _ other
    have r2 : n2 r = { n1 r with parent := y } := RbNodes.modify_self _ _ _
    have z2 : n2 z = ⟨red, up, l, r⟩ := by rw [at2 _ zR, z1]
    let n3 := n2.setParent l y
    have at3 : ∀ a, a ≠ l → n3 a = n2 a := fun a other => RbNodes.modify_of_ne _ _ other
    have l3 : n3 l = { n2 l with parent := y } := RbNodes.modify_self _ _ _
    have z3 : n3 z = nodes z := by rw [at3 _ zL, z2, node]
    have isReplaced : replaced nodes z y = n3.modify y fun _ => nodes z := by
      have linked₁ : relink nodes z y = n1 := relink_eq (by rw [node]) link
      unfold replaced
      rw [linked₁]
      change (let n := n1.setParent (n1 z).right y; let n' := n.setParent (n z).left y
        n'.modify y fun _ => n' z) = _
      rw [z1]
      change ((n2.setParent (n2 z).left y).modify y fun _ => (n2.setParent (n2 z).left y) z) = _
      rw [z2]
      change (n3.modify y fun _ => n3 z) = _
      rw [z3]
    intro p
    rw [isReplaced]
    by_cases isY : p = y
    · rw [if_pos isY, isY, RbNodes.modify_self]
    · rw [if_neg isY, RbNodes.modify_of_ne _ _ isY]
      by_cases isL : p = l
      · rw [if_pos (.inl isL), isL, l3, at2 _ lR, at1 _ upL.symm]
      · rw [at3 _ isL]
        by_cases isR : p = r
        · rw [if_pos (.inr isR), isR, r2, at1 _ upR.symm]
        · rw [if_neg (by simp [isL, isR]), at2 _ isR]
          by_cases isUp : p = up
          · rw [if_pos isUp, isUp, up1]
          · rw [if_neg isUp, at1 _ isUp]
  have selfY : replaced nodes z y y = nodes z := by rw [whole, if_pos rfl]
  have selfL : replaced nodes z y l = { nodes l with parent := y } := by
    rw [whole, if_neg lY, if_pos (.inl rfl)]
  have selfR : replaced nodes z y r = { nodes r with parent := y } := by
    rw [whole, if_neg rY, if_pos (.inr rfl)]
  have selfUp : replaced nodes z y up = (nodes up).setChild (aboveSide path) y := by
    rw [whole, if_neg upY, if_neg (by simp [upL, upR]), if_pos rfl]
  have other : ∀ p, p ≠ y → p ≠ l → p ≠ r → p ≠ up → replaced nodes z y p = nodes p := by
    intro p notY notL notR notUp
    rw [whole, if_neg notY, if_neg (by simp [notL, notR]), if_neg notUp]
  refine ⟨⟨⟨?_, ?_, ?_⟩, ?_, ?_, ?_⟩, ?_, ?_⟩
  · rw [selfY, node, hup, hl, hr]
  · refine linkedLeft.reparent (by grind) (fun _ => ?_) fun a mem apart => ?_
    · rw [hl, selfL]
    · rw [hl] at apart
      exact other a (by grind) apart (by grind) (by grind)
  · refine linkedRight.reparent (by grind) (fun _ => ?_) fun a mem apart => ?_
    · rw [hr, selfR]
    · rw [hr] at apart
      exact other a (by grind) (by grind) apart (by grind)
  · refine hang (by grind) selfUp fun a mem apart => ?_
    exact other a (by grind) (by grind) (by grind) apart
  · simp only [toList, List.cons_append, List.nodup_cons, List.mem_cons, List.mem_append, not_or,
      List.nodup_append, List.append_assoc]
    grind
  · by_cases same : tree.nil = r
    · rw [same, selfR, ← same]
      exact black
    · rw [other _ (by grind) (by grind) same (by grind)]
      exact black
  · intro realRight
    exact other _ (by grind) (by grind) (by grind) (by grind)
  · intro empty
    have isNil : r = tree.nil := by
      rw [← hr, empty]
      rfl
    rw [← isNil, selfR]

/-! ## Deletion of a node -/

theorem locate_plug {target : NodePtr} {t subtree : RbTree NodePtr}
    {up : List (Crumb NodePtr)} (found : locate target t up = some (subtree, path)) :
    plug subtree path = plug t up := by
  induction t generalizing up with
  | nil => cases found
  | node red left value right ihLeft ihRight =>
      rw [locate] at found
      split at found
      · cases found
        rfl
      · split at found
        · rename_i inLeft
          cases found
          exact ihLeft inLeft
        · exact ihRight found

theorem leftmost_length {red : Bool} {left right : RbTree NodePtr} {value : NodePtr} :
    (leftmost red left value right path).2.2.2.length ≤ path.length + left.toList.length := by
  induction left generalizing red value right path with
  | nil => exact Nat.le_add_right _ _
  | node redL leftL valueL rightL ih _ =>
      rw [leftmost, toList, List.length_append, List.length_cons]
      have shorter := @ih (⟨.left, red, value, right⟩ :: path) redL rightL valueL
      rw [List.length_cons] at shorter
      omega

/-- The links to the left lead to the leftmost node. -/
theorem At.descendLeft {red redY : Bool} {left right x : RbTree NodePtr} {value valueY : NodePtr}
    {down : List (Crumb NodePtr)} {fuel : Nat}
    (place : tree.At nodes (.node red left value right) path)
    (found : leftmost red left value right path = (redY, valueY, x, down))
    (enough : left.toList.length ≤ fuel) :
    tree.descend .left nodes fuel value = .ok valueY ∧
      tree.At nodes (.node redY .nil valueY x) down := by
  induction left generalizing red value right path fuel with
  | nil =>
      cases found
      refine ⟨?_, place⟩
      unfold descend
      rw [place.node]
      exact if_pos rfl
  | node redL leftL valueL rightL ih _ =>
      rw [leftmost] at found
      rw [toList, List.length_append, List.length_cons] at enough
      obtain ⟨less, rfl⟩ : ∃ less, fuel = less + 1 := ⟨fuel - 1, by omega⟩
      obtain ⟨ran, place'⟩ := @ih _ _ _ _ less (at_left.mp place) found (by omega)
      refine ⟨?_, place'⟩
      have real : valueL ≠ tree.nil := (at_left.mp place).addr_ne_nil (by rintro ⟨⟩)
      unfold descend
      rw [place.node]
      exact (if_neg real).trans ran

/-- The fixup, where the node that was taken out was black. -/
theorem Below.finish {red : Bool} {t : RbTree NodePtr} {fuel : Nat} (below : tree.Below nodes x path)
    (finished : (if red then some (plug x path)
      else RbTree.deleteFixup (2 * path.length + 2) x path) = some t)
    (enough : 2 * path.length + 2 ≤ fuel) :
    ∃ nodes', (if (!red) = true then tree.deleteFixup fuel nodes (tree.addr x) else .ok nodes) =
      .ok nodes' ∧ tree.At nodes' t [] := by
  cases red with
  | true =>
      cases finished
      exact ⟨nodes, rfl, at_plug.mp below.place⟩
  | false =>
      have whole := at_plug.mp below.place
      have top : (nodes tree.root).left = tree.addr (plug x path) := by
        have hung : nodes tree.root = _ := whole.hung
        rw [hung]
      obtain ⟨nodes', last, looped, place'⟩ := below.deleteLoop (.inl top) finished enough
      refine ⟨_, ?_, place'⟩
      rw [Bool.not_false, if_pos rfl, RbHead.deleteFixup, looped]
      rfl

/-- `rb_delete` of a node with one child at most. -/
theorem At.deleteOne {node : RbTree NodePtr} {red : Bool} {z : NodePtr} {t' : RbTree NodePtr}
    {fuel : Nat} (place : tree.At nodes node path)
    (isNode : node = .node red .nil z x ∨ (node = .node red x z .nil ∧ x ≠ .nil))
    (finished : (if red then some (plug x path)
      else RbTree.deleteFixup (2 * path.length + 2) x path) = some t')
    (enough : 2 * path.length + 2 ≤ fuel) :
    ∃ nodes', tree.delete fuel nodes z = .ok nodes' ∧ tree.At nodes' t' [] := by
  have below := place.splice (isNode.imp_right And.left)
  obtain ⟨nodes', ran, place'⟩ := below.finish finished enough
  refine ⟨nodes', ?_, place'⟩
  have real : node ≠ .nil := by rcases isNode with rfl | ⟨rfl, _⟩ <;> rintro ⟨⟩
  have value : tree.addr node = z := by rcases isNode with rfl | ⟨rfl, _⟩ <;> rfl
  have parent : (nodes z).parent = tree.above path := by rw [← value, place.parent real]
  have colour : (nodes z).red = red := by
    rw [← value, place.red]
    rcases isNode with rfl | ⟨rfl, _⟩ <;> rfl
  have sentinels : z ≠ tree.root ∧ z ≠ tree.nil := by
    have distinct := place.nodup
    have mem := @addr_mem tree _ real
    rw [value] at mem
    grind
  have one : (nodes z).left = tree.nil ∨ (nodes z).right = tree.nil := by
    rcases isNode with rfl | ⟨rfl, _⟩
    · exact .inl (by rw [place.node]; rfl)
    · exact .inr (by rw [place.node]; rfl)
  have child : (if (nodes z).left ≠ tree.nil then (nodes z).left else (nodes z).right) =
      tree.addr x := by
    rcases isNode with rfl | ⟨rfl, realX⟩
    · rw [place.node]
      exact if_neg (not_not.mpr rfl)
    · rw [place.node]
      exact if_pos ((at_left.mp place).addr_ne_nil realX)
  unfold RbHead.delete
  rw [if_pos one, RbStop.ok_bind]
  dsimp only
  rw [child, if_neg (not_not.mpr sentinels), parent, if_neg (not_not.mpr rfl), relink_red,
    RbNodes.setParent_red, colour]
  exact ran

/-- `rb_delete` of a node with two children: its successor takes its place. -/
theorem At.deleteTwo {red redR redY : Bool} {left leftR rightR : RbTree NodePtr}
    {z valueR valueY : NodePtr} {down : List (Crumb NodePtr)} {t' : RbTree NodePtr} {fuel : Nat}
    (place : tree.At nodes (.node red left z (.node redR leftR valueR rightR)) path)
    (realLeft : left ≠ .nil)
    (found : leftmost redR leftR valueR rightR [] = (redY, valueY, x, down))
    (finished : (if redY then some (plug x (down ++ ⟨.right, red, valueY, left⟩ :: path))
      else RbTree.deleteFixup (2 * (down ++ ⟨.right, red, valueY, left⟩ :: path).length + 2) x
        (down ++ ⟨.right, red, valueY, left⟩ :: path)) = some t')
    (enough : 2 * (down ++ ⟨.right, red, valueY, left⟩ :: path).length + 2 ≤ fuel)
    (enoughDown : leftR.toList.length ≤ fuel) :
    ∃ nodes', tree.delete fuel nodes z = .ok nodes' ∧ tree.At nodes' t' [] := by
  have foundAll := @leftmost_append _ redR leftR rightR valueR [] (⟨.right, red, z, left⟩ :: path)
  rw [found] at foundAll
  obtain ⟨descended, placeY⟩ := (at_right.mp place).descendLeft foundAll enoughDown
  have realL : tree.addr left ≠ tree.nil := (at_left.mp place).addr_ne_nil realLeft
  have realR : valueR ≠ tree.nil := (at_right.mp place).addr_ne_nil (by rintro ⟨⟩)
  have freshY : valueY ∉ tree.root :: tree.nil ::
      (x.toList ++ crumbNodes (down ++ ⟨.right, red, z, left⟩ :: path)) := by
    have distinct := placeY.nodup
    simp only [toList, List.nil_append] at distinct
    grind
  -- the successor is taken out
  have below := placeY.splice (.inl rfl)
  generalize hn : relink (nodes.setParent (tree.addr x)
    (tree.above (down ++ ⟨.right, red, z, left⟩ :: path))) valueY (tree.addr x) = nodes₁ at below
  have placeZ := at_right.mpr (at_append.mp below.place)
  have fresh : valueY ∉ tree.root :: tree.nil ::
      ((RbTree.node red left z (plug x down)).toList ++ crumbNodes path) := by
    have same : ∀ a, a ∈ (plug x down).toList ↔ a ∈ x.toList ∨ a ∈ crumbNodes down :=
      fun a => (plug_perm x down).mem_iff.trans List.mem_append
    simp only [crumbNodes_append, crumbNodes, List.mem_cons, List.mem_append] at freshY
    simp only [toList, List.mem_cons, List.mem_append, same]
    tauto
  -- and gets the place of the node
  obtain ⟨place₂, keeps, scratch⟩ := placeZ.replace realLeft fresh
  have below₂ : tree.Below (replaced nodes₁ z valueY) x
      (down ++ ⟨.right, red, valueY, left⟩ :: path) := by
    refine ⟨at_append.mpr (at_right.mp place₂), ?_⟩
    by_cases realX : x = .nil
    · subst realX
      cases down with
      | nil => exact scratch rfl
      | cons crumb down =>
          have kept := keeps (plug_cons_ne_nil _ _ _)
          rw [addr, kept]
          exact below.parent
    · exact (at_append.mpr (at_right.mp place₂)).parent realX
  obtain ⟨nodes', ran, place'⟩ := below₂.finish finished enough
  refine ⟨nodes', ?_, place'⟩
  have two : ¬((nodes z).left = tree.nil ∨ (nodes z).right = tree.nil) := by
    rw [place.node]
    rintro (same | same)
    · exact realL same
    · exact realR same
  have next : tree.successor fuel nodes z = .ok valueY := by
    unfold successor
    rw [place.node]
    exact (if_pos realR).trans descended
  have child : (if (nodes valueY).left ≠ tree.nil then (nodes valueY).left
      else (nodes valueY).right) = tree.addr x := by
    rw [placeY.node]
    exact if_neg (not_not.mpr rfl)
  have sentinels : valueY ≠ tree.root ∧ valueY ≠ tree.nil := by grind
  have other : valueY ≠ z := by
    rintro rfl
    exact fresh (by simp [toList])
  have colour : (nodes valueY).red = redY := by rw [placeY.node]
  have parent : (nodes valueY).parent = tree.above (down ++ ⟨.right, red, z, left⟩ :: path) := by
    rw [placeY.node]
  unfold RbHead.delete
  rw [if_neg two, next, RbStop.ok_bind]
  dsimp only
  rw [child, if_neg (not_not.mpr sentinels), parent, hn, if_pos other]
  have colour₁ : (nodes₁ valueY).red = redY := by
    rw [← hn, relink_red, RbNodes.setParent_red, colour]
  rw [colour₁]
  exact ran

/-- `rb_delete` in memory is deletion from the tree. -/
theorem delete_eq {t t' : RbTree NodePtr} {z : NodePtr} {fuel : Nat} (place : tree.At nodes t [])
    (deleted : rbDelete t z = some t') (enough : 2 * t.toList.length + 2 ≤ fuel) :
    ∃ nodes', tree.delete fuel nodes z = .ok nodes' ∧ tree.At nodes' t' [] := by
  simp only [rbDelete, Option.bind_eq_bind, Option.bind_eq_some_iff] at deleted
  obtain ⟨⟨subtree, path⟩, found, spliced⟩ := deleted
  obtain ⟨-, red, left, right, rfl⟩ := locate_eq_some found
  have whole := locate_plug found
  rw [plug] at whole
  rw [← whole] at place enough
  have placeZ := at_plug.mpr place
  have length := (plug_perm (.node red left z right) path).length_eq
  have crumbs := length_le_crumbNodes path
  rw [List.length_append, toList, List.length_append, List.length_cons] at length
  simp only at spliced
  split at spliced
  · rename_i shape
    cases shape
  · rename_i shape
    cases shape
    exact placeZ.deleteOne (.inl rfl) spliced (by omega)
  · rename_i notNil shape
    cases shape
    exact placeZ.deleteOne (.inr ⟨rfl, notNil⟩) spliced (by omega)
  · rename_i shape
    cases shape
    rename_i redR leftR valueR rightR realLeft
    have short := @leftmost_length [] redR leftR rightR valueR
    rw [toList, List.length_append, List.length_cons] at length
    refine placeZ.deleteTwo realLeft rfl spliced ?_ (by omega)
    change 2 * ((leftmost redR leftR valueR rightR []).2.2.2 ++ _ :: path).length + 2 ≤ fuel
    rw [List.length_append, List.length_cons]
    rw [List.length_nil] at short
    omega

end EdfKernel.Mm.RbHead
