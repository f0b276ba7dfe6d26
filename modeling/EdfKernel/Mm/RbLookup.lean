import EdfKernel.Mm.RbRemove

/-!
# Neighbours and search in a tree in memory

`rb_node_prev` and `rb_node_next` return the nodes before and after a node, and `rb_search` a node
that compares equal to the key where there is one.
-/

namespace EdfKernel.Mm.RbHead

open RbTree

variable {tree : RbHead} {nodes : RbNodes} {x t : RbTree NodePtr} {path : List (Crumb NodePtr)}

/-- The last node on a side of a list of nodes in order. -/
def outermost (side : Side) (list : List NodePtr) : Option NodePtr :=
  match side with
  | .left => list.head?
  | .right => list.getLast?

theorem outermost_join_nil (side : Side) (red : Bool) (far : RbTree NodePtr) (value : NodePtr) :
    outermost side (RbTree.join side red .nil value far).toList = some value := by
  cases side with
  | left => rfl
  | right => simp [outermost, RbTree.join, toList]

theorem outermost_join {side : Side} {red : Bool} {near far : RbTree NodePtr} {value : NodePtr}
    (real : near ≠ .nil) :
    outermost side (RbTree.join side red near value far).toList = outermost side near.toList := by
  have nonempty := toList_ne_nil real
  cases side with
  | left => exact List.head?_append_of_ne_nil _ nonempty
  | right =>
      change (far.toList ++ value :: near.toList).getLast? = near.toList.getLast?
      rw [List.append_cons, List.getLast?_append_of_ne_nil _ nonempty]

/-- Following the links on one side ends at the outermost node. -/
theorem At.descend {side : Side} {fuel : Nat} (place : tree.At nodes t path) (real : t ≠ .nil)
    (enough : t.toList.length ≤ fuel) :
    ∃ y, tree.descend side nodes fuel (tree.addr t) = .ok y ∧
      outermost side t.toList = some y := by
  induction fuel generalizing t path with
  | zero =>
      have mem := @addr_mem tree _ real
      rw [List.eq_nil_of_length_eq_zero (Nat.le_zero.mp enough)] at mem
      cases mem
  | succ fuel ih =>
      obtain ⟨red, near, value, far, rfl⟩ := exists_join side real
      have child : (nodes value).child side = tree.addr near := by
        rw [place.links, RbNode.join_child]
      rw [addr_join]
      unfold RbHead.descend
      rw [child]
      by_cases empty : near = .nil
      · subst empty
        exact ⟨value, if_pos rfl, outermost_join_nil _ _ _ _⟩
      · have size := (toList_join_perm side red near far value).length_eq
        rw [List.length_cons, List.length_append] at size
        obtain ⟨y, ran, isEdge⟩ := ih place.near empty (by omega)
        refine ⟨y, ?_, ?_⟩
        · rw [if_neg (place.near.addr_ne_nil empty)]
          exact ran
        · rw [outermost_join empty]
          exact isEdge

/-! ## Neighbours -/

/-- The way up from a node to the node before its subtree. -/
theorem At.predecessorClimb {fuel : Nat} (place : tree.At nodes x path) (real : x ≠ .nil)
    (enough : path.length ≤ fuel) :
    tree.predecessorClimb nodes fuel (tree.addr x) (tree.above path) =
      .ok (((around path).1.getLast?).getD tree.nil) := by
  induction path generalizing x fuel with
  | nil =>
      have link := (@At.link _ _ _ _ .left place real).mpr rfl
      change (nodes tree.root).left = tree.addr x at link
      unfold RbHead.predecessorClimb
      rw [above, if_pos link.symm, if_pos rfl]
      rfl
  | cons crumb path ih =>
      have link := @At.link _ _ _ _ .left place real
      change (nodes crumb.value).left = tree.addr x ↔ crumb.side = .left at link
      have notRoot : ¬crumb.value = tree.root := by
        intro same
        exact absurd (place.above_eq_root.mp same) (by simp)
      unfold RbHead.predecessorClimb
      rw [above, around]
      cases side : crumb.side with
      | left =>
          rw [if_pos (link.mpr side).symm, if_neg notRoot]
          rw [List.length_cons] at enough
          obtain ⟨less, rfl⟩ : ∃ less, fuel = less + 1 := ⟨fuel - 1, by omega⟩
          have upper := at_up.mp place
          have parent := upper.parent (join_ne_nil _ _ _ _ _)
          have climbed := @ih _ less upper (join_ne_nil _ _ _ _ _) (by omega)
          rw [addr_join] at parent climbed
          rw [parent]
          exact climbed
      | right =>
          have other : ¬tree.addr x = (nodes crumb.value).left := by
            intro same
            have impossible := link.mp same.symm
            rw [side] at impossible
            cases impossible
          rw [if_neg other]
          simp

/-- The way up from a node to the node after its subtree. -/
theorem At.successorClimb {fuel : Nat} (place : tree.At nodes x path) (real : x ≠ .nil)
    (enough : path.length ≤ fuel) :
    tree.successorClimb nodes fuel (tree.addr x) (tree.above path) =
      .ok (((around path).2.head?).getD tree.nil) := by
  induction path generalizing x fuel with
  | nil =>
      have link := @At.link _ _ _ _ .right place real
      change (nodes tree.root).right = tree.addr x ↔ Side.left = .right at link
      have other : ¬tree.addr x = (nodes tree.root).right := by
        intro same
        cases link.mp same.symm
      unfold RbHead.successorClimb
      rw [above, if_neg other, if_pos rfl]
      rfl
  | cons crumb path ih =>
      have link := @At.link _ _ _ _ .right place real
      change (nodes crumb.value).right = tree.addr x ↔ crumb.side = .right at link
      have notRoot : ¬crumb.value = tree.root := by
        intro same
        exact absurd (place.above_eq_root.mp same) (by simp)
      unfold RbHead.successorClimb
      rw [above, around]
      cases side : crumb.side with
      | left =>
          have other : ¬tree.addr x = (nodes crumb.value).right := by
            intro same
            have impossible := link.mp same.symm
            rw [side] at impossible
            cases impossible
          rw [if_neg other, if_neg notRoot]
          rfl
      | right =>
          rw [if_pos (link.mpr side).symm]
          rw [List.length_cons] at enough
          obtain ⟨less, rfl⟩ : ∃ less, fuel = less + 1 := ⟨fuel - 1, by omega⟩
          have upper := at_up.mp place
          have parent := upper.parent (join_ne_nil _ _ _ _ _)
          have climbed := @ih _ less upper (join_ne_nil _ _ _ _ _) (by omega)
          rw [addr_join] at parent climbed
          rw [parent]
          exact climbed

/-- A link or `nil` as the callers of the iterators see it. -/
theorem getD_nil {found : Option NodePtr} (real : ∀ a ∈ found, a ≠ tree.nil) :
    (if found.getD tree.nil ≠ tree.nil then some (found.getD tree.nil) else none) = found := by
  cases found with
  | none => exact if_neg (not_not.mpr rfl)
  | some a => exact if_pos (real a rfl)

/-- Where a node of the tree is. -/
theorem At.locate {z : NodePtr} {before after : List NodePtr} (place : tree.At nodes t [])
    (list : t.toList = before ++ z :: after) :
    ∃ red left right path, tree.At nodes (.node red left z right) path ∧
      before = (around path).1 ++ left.toList ∧ after = right.toList ++ (around path).2 ∧
      left.toList.length + right.toList.length + path.length ≤ t.toList.length := by
  cases found : RbTree.locate z t [] with
  | none =>
      have missing := locate_eq_none found
      rw [list] at missing
      exact absurd (by simp) missing
  | some pair =>
      obtain ⟨subtree, path⟩ := pair
      obtain ⟨-, red, left, right, rfl⟩ := locate_eq_some found
      have whole : plug (.node red left z right) path = t := locate_plug found
      have split : ((around path).1 ++ left.toList) ++ z :: (right.toList ++ (around path).2) =
          before ++ z :: after := by
        rw [← list, ← whole, plug_toList]
        simp [toList]
      have distinct : t.toList.Nodup :=
        (List.nodup_append.mp (List.nodup_cons.mp (List.nodup_cons.mp place.nodup).2).2).1
      rw [list, ← split, List.nodup_middle, List.nodup_cons, List.mem_append, not_or] at distinct
      obtain ⟨same, sameAfter⟩ :=
        (List.append_cons_inj_of_notMem distinct.1.1 distinct.1.2).mp split
      have length := (plug_perm (.node red left z right) path).length_eq
      have crumbs := length_le_crumbNodes path
      rw [whole, List.length_append, toList, List.length_append, List.length_cons] at length
      refine ⟨red, left, right, path, at_plug.mpr (whole ▸ place), same.symm, sameAfter.2.symm, ?_⟩
      omega

/-- `rb_node_prev` returns the node before. -/
theorem At.nodePrev {z : NodePtr} {before after : List NodePtr} {fuel : Nat}
    (place : tree.At nodes t []) (list : t.toList = before ++ z :: after)
    (enough : t.toList.length ≤ fuel) :
    tree.nodePrev fuel nodes z = .ok before.getLast? := by
  obtain ⟨red, left, right, path, placeZ, isBefore, _, length⟩ := place.locate list
  have real : ∀ a ∈ before.getLast?, a ≠ tree.nil := by
    intro a mem
    have inTree : a ∈ t.toList := by
      rw [list]
      exact List.mem_append_left _ (List.mem_of_getLast? mem)
    have distinct := place.nodup
    grind
  suffices found : tree.predecessor fuel nodes z = .ok (before.getLast?.getD tree.nil) by
    rw [RbHead.nodePrev, found, RbStop.ok_bind, getD_nil real]
    rfl
  unfold predecessor
  rw [placeZ.node]
  by_cases empty : left = .nil
  · subst empty
    rw [isBefore, toList, List.append_nil]
    refine (if_neg (not_not.mpr rfl)).trans ?_
    exact placeZ.predecessorClimb (by rintro ⟨⟩) (by omega)
  · obtain ⟨y, ran, isLast⟩ := @At.descend _ _ _ _ .right fuel (at_left.mp placeZ) empty
      (by omega)
    refine (if_pos ((at_left.mp placeZ).addr_ne_nil empty)).trans (ran.trans ?_)
    change left.toList.getLast? = some y at isLast
    rw [isBefore, List.getLast?_append_of_ne_nil _ (toList_ne_nil empty), isLast]
    rfl

/-- `rb_node_next` returns the node after. -/
theorem At.nodeNext {z : NodePtr} {before after : List NodePtr} {fuel : Nat}
    (place : tree.At nodes t []) (list : t.toList = before ++ z :: after)
    (enough : t.toList.length ≤ fuel) :
    tree.nodeNext fuel nodes z = .ok after.head? := by
  obtain ⟨red, left, right, path, placeZ, _, isAfter, length⟩ := place.locate list
  have real : ∀ a ∈ after.head?, a ≠ tree.nil := by
    intro a mem
    have inTree : a ∈ t.toList := by
      rw [list]
      exact List.mem_append_right _ (List.mem_cons_of_mem _ (List.mem_of_mem_head? mem))
    have distinct := place.nodup
    grind
  suffices found : tree.successor fuel nodes z = .ok (after.head?.getD tree.nil) by
    rw [RbHead.nodeNext, found, RbStop.ok_bind, getD_nil real]
    rfl
  unfold successor
  rw [placeZ.node]
  by_cases empty : right = .nil
  · subst empty
    rw [isAfter, toList, List.nil_append]
    refine (if_neg (not_not.mpr rfl)).trans ?_
    exact placeZ.successorClimb (by rintro ⟨⟩) (by omega)
  · obtain ⟨y, ran, isFirst⟩ := @At.descend _ _ _ _ .left fuel (at_right.mp placeZ) empty
      (by omega)
    refine (if_pos ((at_right.mp placeZ).addr_ne_nil empty)).trans (ran.trans ?_)
    change right.toList.head? = some y at isFirst
    rw [isAfter, List.head?_append_of_ne_nil _ (toList_ne_nil empty), isFirst]
    rfl

/-! ## Search -/

/-- The loop of `rb_search` at a subtree; the nodes that compare greater than the key come last,
and those that compare less come first. -/
theorem At.searchLoop {compare : NodePtr → Int} {fuel : Nat} (place : tree.At nodes t path)
    (monotone : t.toList.Pairwise fun a b =>
      (0 < compare a → 0 < compare b) ∧ (compare b < 0 → compare a < 0))
    (enough : t.toList.length ≤ fuel) :
    ∃ found, tree.searchLoop compare nodes fuel (tree.addr t) = .ok found ∧
      (∀ a ∈ found, a ∈ t.toList ∧ compare a = 0) ∧
      (found = none → ∀ a ∈ t.toList, compare a ≠ 0) := by
  induction t generalizing path fuel with
  | nil =>
      refine ⟨none, ?_, by simp, by simp [toList]⟩
      unfold RbHead.searchLoop
      rw [addr, if_neg fun both => both.1 rfl, if_neg (not_not.mpr rfl)]
  | node red left value right ihLeft ihRight =>
      rw [toList, List.pairwise_append, List.pairwise_cons] at monotone
      obtain ⟨monoLeft, ⟨greater, monoRight⟩, across⟩ := monotone
      rw [toList, List.length_append, List.length_cons] at enough
      have real : value ≠ tree.nil := place.addr_ne_nil (by rintro ⟨⟩)
      by_cases equal : compare value = 0
      · refine ⟨some value, ?_, ?_, by rintro ⟨⟩⟩
        · change tree.searchLoop compare nodes fuel value = _
          unfold RbHead.searchLoop
          rw [if_neg fun both => both.2 equal, if_pos real]
        · rintro a ⟨⟩
          exact ⟨by simp [toList], equal⟩
      · obtain ⟨less, rfl⟩ : ∃ less, fuel = less + 1 := ⟨fuel - 1, by omega⟩
        have step : tree.searchLoop compare nodes (less + 1) value =
            tree.searchLoop compare nodes less
              (if 0 < compare value then tree.addr left else tree.addr right) := by
          conv_lhs => unfold RbHead.searchLoop
          rw [if_pos ⟨real, equal⟩, place.node]
        change ∃ found, tree.searchLoop compare nodes (less + 1) value = _ ∧ _
        rw [step]
        by_cases positive : 0 < compare value
        · obtain ⟨found, ran, isFound, missing⟩ := @ihLeft _ less (at_left.mp place)
            monoLeft (by omega)
          refine ⟨found, by rw [if_pos positive]; exact ran, fun a mem => ?_, fun none a mem => ?_⟩
          · exact ⟨List.mem_append_left _ (isFound a mem).1, (isFound a mem).2⟩
          · rcases List.mem_append.mp mem with inLeft | inRest
            · exact missing none a inLeft
            · rcases List.mem_cons.mp inRest with rfl | inRight
              · exact equal
              · have above := (greater a inRight).1 positive
                omega
        · obtain ⟨found, ran, isFound, missing⟩ := @ihRight _ less (at_right.mp place)
            monoRight (by omega)
          have negative : compare value < 0 := by omega
          refine ⟨found, by rw [if_neg positive]; exact ran, fun a mem => ?_, fun none a mem => ?_⟩
          · exact ⟨List.mem_append_right _ (List.mem_cons_of_mem _ (isFound a mem).1),
              (isFound a mem).2⟩
          · rcases List.mem_append.mp mem with inLeft | inRest
            · have below := (across a inLeft value List.mem_cons_self).2 negative
              omega
            · rcases List.mem_cons.mp inRest with rfl | inRight
              · exact equal
              · exact missing none a inRight

/-- `rb_search` finds a node that compares equal to the key, where there is one. -/
theorem At.search {compare : NodePtr → Int} {fuel : Nat} (place : tree.At nodes t [])
    (monotone : t.toList.Pairwise fun a b =>
      (0 < compare a → 0 < compare b) ∧ (compare b < 0 → compare a < 0))
    (enough : t.toList.length ≤ fuel) :
    ∃ found, tree.search compare fuel nodes = .ok found ∧
      (∀ a ∈ found, a ∈ t.toList ∧ compare a = 0) ∧
      (found = none → ∀ a ∈ t.toList, compare a ≠ 0) := by
  have top : (nodes tree.root).left = tree.addr t := by
    have hung : nodes tree.root = _ := place.hung
    rw [hung]
  unfold RbHead.search
  rw [top]
  exact place.searchLoop monotone enough

end EdfKernel.Mm.RbHead
