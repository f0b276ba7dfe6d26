import EdfKernel.Mm.RbTree

/-!
# Balance of red-black trees

The root is black, no red node has a red child and every way down to `nil` meets the same number
of black nodes.  A way up is balanced around a hole that accepts a subtree of a given colour and
black height.  Insertion and deletion keep the balance, and no assertion of a rotation fails.
-/

namespace EdfKernel.Mm.RbTree

universe u

variable {α : Type u}

/-- A red-black subtree with the colour of its root and the number of black nodes on its ways
down. -/
inductive Balanced : RbTree α → Bool → Nat → Prop
  | nil : Balanced nil false 0
  | red {left right : RbTree α} {value : α} {n : Nat} (balancedLeft : Balanced left false n)
      (balancedRight : Balanced right false n) : Balanced (node true left value right) true n
  | black {left right : RbTree α} {value : α} {n : Nat} {redL redR : Bool}
      (balancedLeft : Balanced left redL n) (balancedRight : Balanced right redR n) :
      Balanced (node false left value right) false (n + 1)

/-- A way up around a hole for a subtree of a colour and black height; at the top it only takes
a black one. -/
inductive Hole : List (Crumb α) → Bool → Nat → Prop
  | root {n : Nat} : Hole [] false n
  | red {side : Side} {value : α} {sibling : RbTree α} {path : List (Crumb α)} {n : Nat}
      (balanced : Balanced sibling false n) (rest : Hole path true n) :
      Hole (⟨side, true, value, sibling⟩ :: path) false n
  | black {side : Side} {value : α} {sibling : RbTree α} {path : List (Crumb α)} {n : Nat}
      {redS red : Bool} (balanced : Balanced sibling redS n) (rest : Hole path false (n + 1)) :
      Hole (⟨side, false, value, sibling⟩ :: path) red n

section Shape

variable {t near far : RbTree α} {value : α} {red : Bool} {n : Nat} {side : Side}

theorem Balanced.isRed (balanced : Balanced t red n) : t.isRed = red := by
  cases balanced <;> rfl

theorem Balanced.join_red (side : Side) (value : α) (balancedNear : Balanced near false n)
    (balancedFar : Balanced far false n) : Balanced (join side true near value far) true n := by
  cases side with
  | left => exact .red balancedNear balancedFar
  | right => exact .red balancedFar balancedNear

theorem Balanced.join_black {redN redF : Bool} (side : Side) (value : α)
    (balancedNear : Balanced near redN n) (balancedFar : Balanced far redF n) :
    Balanced (join side false near value far) false (n + 1) := by
  cases side with
  | left => exact .black balancedNear balancedFar
  | right => exact .black balancedFar balancedNear

/-- A subtree that is not empty, seen from a side. -/
theorem Balanced.eq_join (side : Side) (balanced : Balanced t red n) :
    (t = RbTree.nil ∧ red = false ∧ n = 0) ∨
      (red = true ∧ ∃ near value far, t = join side true near value far ∧
        Balanced near false n ∧ Balanced far false n) ∨
      (red = false ∧ ∃ m near value far redN redF, n = m + 1 ∧
        t = join side false near value far ∧ Balanced near redN m ∧ Balanced far redF m) := by
  cases balanced with
  | nil => exact .inl ⟨rfl, rfl, rfl⟩
  | @red left right value _ balancedLeft balancedRight =>
      refine .inr (.inl ⟨rfl, ?_⟩)
      cases side with
      | left => exact ⟨left, value, right, rfl, balancedLeft, balancedRight⟩
      | right => exact ⟨right, value, left, rfl, balancedRight, balancedLeft⟩
  | @black left right value m redL redR balancedLeft balancedRight =>
      refine .inr (.inr ⟨rfl, m, ?_⟩)
      cases side with
      | left => exact ⟨left, value, right, redL, redR, rfl, rfl, balancedLeft, balancedRight⟩
      | right => exact ⟨right, value, left, redR, redL, rfl, rfl, balancedRight, balancedLeft⟩

/-- Blackening the root. -/
theorem Balanced.setBlack (balanced : Balanced t red n) :
    ∃ m, Balanced (t.setRed false) false m := by
  cases balanced with
  | nil => exact ⟨0, .nil⟩
  | red balancedLeft balancedRight => exact ⟨_, .black balancedLeft balancedRight⟩
  | black balancedLeft balancedRight => exact ⟨_, .black balancedLeft balancedRight⟩

theorem Balanced.setBlack_red (balanced : Balanced t true n) :
    Balanced (t.setRed false) false (n + 1) := by
  cases balanced with
  | red balancedLeft balancedRight => exact .black balancedLeft balancedRight

theorem Balanced.setBlack_black (balanced : Balanced t false n) : t.setRed false = t := by
  cases balanced <;> rfl

end Shape

variable {path : List (Crumb α)} {n : Nat}

/-- A hole for a red subtree takes a black one as well. -/
theorem Hole.weaken (hole : Hole path true n) : Hole path false n := by
  cases hole with
  | black balanced rest => exact .black balanced rest

/-- A hole filled with a subtree that it accepts. -/
theorem Hole.plug {t : RbTree α} {red : Bool} (hole : Hole path red n)
    (balanced : Balanced t red n) : ∃ m, Balanced (plug t path) false m := by
  induction path generalizing t red n with
  | nil =>
      cases hole
      exact ⟨n, balanced⟩
  | cons crumb path ih =>
      cases hole with
      | red sibling rest => exact ih rest (.join_red _ _ balanced sibling)
      | black sibling rest => exact ih rest (.join_black _ _ balanced sibling)

/-! ## Insertion -/

theorem insertPosition_hole {compare : α → α → Ordering} {node : α} {t : RbTree α} {red : Bool}
    (balanced : Balanced t red n) (hole : Hole path red n) :
    Hole (insertPosition compare node t path) false 0 := by
  induction balanced generalizing path with
  | nil => exact hole
  | red balancedLeft balancedRight ihLeft ihRight =>
      rw [insertPosition]
      split
      · exact ihLeft (.red balancedRight hole)
      · exact ihRight (.red balancedLeft hole)
  | black balancedLeft balancedRight ihLeft ihRight =>
      rw [insertPosition]
      split
      · exact ihLeft (.black balancedRight hole)
      · exact ihRight (.black balancedLeft hole)

theorem rotate_join (side : Side) (red redY : Bool) (near nearY farY : RbTree α)
    (value valueY : α) :
    rotate side (join side red near value (join side redY nearY valueY farY)) =
      some (join side redY (join side red near value nearY) valueY farY) := by
  cases side <;> rfl

theorem Side.join_other (side : Side) (red : Bool) (near far : RbTree α) (value : α) :
    join side.other red near value far = join side red far value near := by
  cases side <;> rfl

/-- The rotations of `rb_insert` at a red node below a red parent. -/
theorem insertRotate {x near far sibling : RbTree α} {value valueP valueG : α} {side sideG : Side}
    (balancedNear : Balanced near false n) (balancedFar : Balanced far false n)
    (balancedSibling : Balanced sibling false n) {uncle : RbTree α}
    (balancedUncle : Balanced uncle false n) (shape : x = node true near value far) :
    ∃ up top, rotateUnless (side = sideG) sideG (join side true x valueP sibling) = some up ∧
      rotate sideG.other (join sideG true (up.setRed false) valueG uncle) = some top ∧
      Balanced top false (n + 1) := by
  subst shape
  cases side <;> cases sideG
  · refine ⟨_, _, rfl, rfl, ?_⟩
    exact .black (.red balancedNear balancedFar) (.red balancedSibling balancedUncle)
  · refine ⟨_, _, rfl, rfl, ?_⟩
    exact .black (.red balancedUncle balancedNear) (.red balancedFar balancedSibling)
  · refine ⟨_, _, rfl, rfl, ?_⟩
    exact .black (.red balancedSibling balancedNear) (.red balancedFar balancedUncle)
  · refine ⟨_, _, rfl, rfl, ?_⟩
    exact .black (.red balancedUncle balancedSibling) (.red balancedNear balancedFar)

/-- The loop of `rb_insert` balances the tree around a red node. -/
theorem insertFixup_balanced {x : RbTree α} (balanced : Balanced x true n)
    (hole : Hole path false n) :
    ∃ t red m, insertFixup x path = some t ∧ Balanced t red m := by
  induction x, path using insertFixup.induct generalizing n with
  | case1 x => exact ⟨x, true, n, rfl, balanced⟩
  | case2 x parent red =>
      cases hole with
      | red _ rest => cases rest
      | black => cases red
  | case3 x parent black =>
      rw [insertFixup, if_neg black]
      cases hole with
      | red => exact absurd rfl black
      | black sibling rest =>
          obtain ⟨m, whole⟩ := Hole.plug (.black sibling rest) balanced
          exact ⟨_, false, m, rfl, whole⟩
  | case4 x parent grand path redParent redUncle ih =>
      rw [insertFixup, if_pos redParent, if_pos redUncle]
      cases hole with
      | black => cases redParent
      | red sibling rest =>
          cases rest with
          | @black _ _ uncle _ _ redS _ balancedUncle rest =>
              have isRed : redS = true := balancedUncle.isRed.symm.trans redUncle
              subst isRed
              apply ih _ rest
              exact .join_red _ _ (.join_black _ _ balanced sibling) balancedUncle.setBlack_red
  | case5 x parent grand path redParent blackUncle =>
      rw [insertFixup, if_pos redParent, if_neg blackUncle]
      cases hole with
      | black => cases redParent
      | red sibling rest =>
          cases rest with
          | @black _ _ uncle _ _ redS _ balancedUncle rest =>
              have isBlack : redS = false := by
                have colour : uncle.isRed ≠ true := blackUncle
                rw [balancedUncle.isRed] at colour
                simpa using colour
              subst isBlack
              cases balanced with
              | red balancedNear balancedFar =>
                  obtain ⟨up, top, first, second, whole⟩ := insertRotate balancedNear balancedFar
                    sibling balancedUncle rfl
                  obtain ⟨m, plugged⟩ := rest.plug whole
                  refine ⟨_, false, m, ?_, plugged⟩
                  simp only [Option.bind_eq_bind]
                  rw [first, Option.bind_some, second]
                  rfl
  | case6 x parent grand path blackParent =>
      rw [insertFixup, if_neg blackParent]
      cases hole with
      | red => exact absurd rfl blackParent
      | black sibling rest =>
          obtain ⟨m, whole⟩ := Hole.plug (.black sibling rest) balanced
          exact ⟨_, false, m, rfl, whole⟩

/-- `rb_insert` succeeds and keeps the balance. -/
theorem rbInsert_balanced {compare : α → α → Ordering} {node : α} {t : RbTree α}
    (balanced : Balanced t false n) :
    ∃ t' m, rbInsert compare t node = some t' ∧ Balanced t' false m := by
  have hole := @insertPosition_hole _ _ _ compare node _ _ balanced .root
  obtain ⟨t', red, m, fixed, whole⟩ := insertFixup_balanced (.red .nil .nil) hole
  obtain ⟨m', blackened⟩ := whole.setBlack
  refine ⟨t'.setRed false, m', ?_, blackened⟩
  rw [rbInsert, fixed]
  rfl

/-! ## Deletion -/

/-- The subtree at which `rb_delete_fixup` goes on: it lacks one black node, unless its root is
red and is about to be blackened. -/
def Short (x : RbTree α) (n : Nat) : Prop :=
  (x.isRed = true ∧ Balanced (x.setRed false) false (n + 1)) ∨ Balanced x false n

/-- A red sibling is rotated away. -/
theorem deleteRaise_balanced {parent : Crumb α} (hole : Hole (parent :: path) false (n + 1)) :
    ∃ parent' path', deleteRaise parent path = some (parent', path') ∧
      Hole (parent' :: path') false (n + 1) ∧ parent'.sibling.isRed = false ∧
      (path'.length = path.length ∨ (parent'.red = true ∧ path'.length = path.length + 1)) := by
  cases hole with
  | @red side value sibling _ _ balancedS rest =>
      refine ⟨⟨side, true, value, sibling⟩, path, ?_, .red balancedS rest, balancedS.isRed, .inl rfl⟩
      rw [deleteRaise, balancedS.isRed, if_neg (by decide)]
  | @black side value sibling _ _ redS _ balancedS rest =>
      cases redS with
      | false =>
          refine ⟨⟨side, false, value, sibling⟩, path, ?_, .black balancedS rest,
            balancedS.isRed, .inl rfl⟩
          rw [deleteRaise, balancedS.isRed, if_neg (by decide)]
      | true =>
          rcases balancedS.eq_join side with ⟨_, impossible, _⟩ |
            ⟨_, near, valueS, far, rfl, balancedNear, balancedFar⟩ | ⟨impossible, _⟩
          · cases impossible
          · refine ⟨⟨side, true, value, near⟩, ⟨side, false, valueS, far⟩ :: path, ?_,
              .red balancedNear (.black balancedFar rest), balancedNear.isRed, .inr ⟨rfl, rfl⟩⟩
            rw [deleteRaise, balancedS.isRed, if_pos rfl,
              split_eq_some_iff.mpr (rfl : join side true near valueS far = _)]
            rfl
          · cases impossible

/-- Filling the hole below a parent. -/
theorem Hole.join {parent : Crumb α} {top : RbTree α} {red : Bool}
    (hole : Hole (parent :: path) red n)
    (balanced : ∀ c, parent.red = c → Balanced top c (if c then n else n + 1)) :
    ∃ m, Balanced (RbTree.plug top path) false m := by
  cases hole with
  | red sibling rest => exact rest.plug (balanced true rfl)
  | black sibling rest => exact rest.plug (balanced false rfl)

theorem setRed_join (side : Side) (red red' : Bool) (near far : RbTree α) (value : α) :
    (join side red near value far).setRed red' = join side red' near value far := by
  cases side <;> rfl

theorem isRed_join (side : Side) (red : Bool) (near far : RbTree α) (value : α) :
    (join side red near value far).isRed = red := by
  cases side <;> rfl

theorem split_join (side : Side) (red : Bool) (near far : RbTree α) (value : α) :
    (join side red near value far).split side = some (red, near, value, far) :=
  split_eq_some_iff.mpr rfl

/-- The rotations at a black sibling with a red child. -/
theorem deleteRotate {x near far : RbTree α} {parent : Crumb α} {value : α} {redN redF : Bool}
    (balanced : Balanced x false n) (balancedNear : Balanced near redN n)
    (balancedFar : Balanced far redF n) (notBlack : ¬(redN = false ∧ redF = false)) :
    ∃ sibling nearS valueS farS top,
      rotateUnless redF parent.side.other (if redF then join parent.side false near value far
        else join parent.side true (near.setRed false) value far) = some sibling ∧
      (∃ redS, sibling.split parent.side = some (redS, nearS, valueS, farS)) ∧
      rotate parent.side (join parent.side false x parent.value
        (join parent.side parent.red nearS valueS (farS.setRed false))) = some top ∧
      Balanced top parent.red (if parent.red then n + 1 else n + 2) := by
  have inner : ∀ {nearS farS : RbTree α} {valueS : α} {redNS : Bool}, Balanced nearS redNS n →
      Balanced (farS.setRed false) false (n + 1) →
      ∃ top, rotate parent.side (join parent.side false x parent.value
          (join parent.side parent.red nearS valueS (farS.setRed false))) = some top ∧
        Balanced top parent.red (if parent.red then n + 1 else n + 2) := by
    intro nearS farS valueS redNS balancedN balancedF
    refine ⟨_, rotate_join _ _ _ _ _ _ _ _, ?_⟩
    have lower := Balanced.join_black parent.side parent.value balanced balancedN
    cases parent.red with
    | true => exact .join_red _ _ lower balancedF
    | false => exact .join_black _ _ lower balancedF
  cases redF with
  | true =>
      obtain ⟨top, rotated, whole⟩ := @inner _ _ value _ balancedNear balancedFar.setBlack_red
      exact ⟨_, near, value, far, top, rfl, ⟨false, split_join _ _ _ _ _⟩, rotated, whole⟩
  | false =>
      have redNear : redN = true := by
        cases redN with
        | true => rfl
        | false => exact absurd ⟨rfl, rfl⟩ notBlack
      subst redNear
      rcases balancedNear.eq_join parent.side.other with ⟨_, impossible, _⟩ |
        ⟨_, a, b, c, rfl, balancedA, balancedC⟩ | ⟨impossible, _⟩
      · cases impossible
      · have lower : Balanced ((join parent.side true a value far).setRed false) false (n + 1) := by
          rw [setRed_join]
          exact .join_black _ _ balancedA balancedFar
        obtain ⟨top, rotated, whole⟩ := @inner _ _ b _ balancedC lower
        refine ⟨join parent.side false c b (join parent.side true a value far), c, b,
          join parent.side true a value far, top, ?_, ⟨false, split_join _ _ _ _ _⟩, rotated, whole⟩
        have turned := rotate_join parent.side.other true false far a c value b
        simp only [Side.join_other] at turned
        simp only [setRed_join, Side.join_other, Bool.false_eq_true, if_false]
        exact turned
      · cases impossible

/-- A round at a black sibling either moves the lack up or makes up for it. -/
theorem deleteRound_balanced {x : RbTree α} {parent : Crumb α} (balanced : Balanced x false n)
    (hole : Hole (parent :: path) false (n + 1)) (black : parent.sibling.isRed = false) :
    (∃ x' n', deleteRound x parent path = some (.inl (x', path)) ∧ Short x' n' ∧
        Hole path false (n' + 1) ∧ (parent.red = true → x'.isRed = true)) ∨
      ∃ t m, deleteRound x parent path = some (.inr t) ∧ Balanced t false m := by
  have sibling : Balanced parent.sibling false (n + 1) := by
    cases hole with
    | red sibling rest => exact sibling
    | black sibling rest => exact (sibling.isRed.symm.trans black) ▸ sibling
  rcases sibling.eq_join parent.side with ⟨_, _, impossible⟩ | ⟨impossible, _⟩ |
    ⟨_, m, near, value, far, redN, redF, height, shape, balancedNear, balancedFar⟩
  · cases impossible
  · cases impossible
  · cases height
    by_cases blackChildren : redN = false ∧ redF = false
    · left
      obtain ⟨rfl, rfl⟩ := blackChildren
      have recoloured : Balanced (parent.sibling.setRed true) true n := by
        rw [shape, setRed_join]
        exact .join_red _ _ balancedNear balancedFar
      have round : deleteRound x parent path =
          some (.inl (join parent.side parent.red x parent.value (parent.sibling.setRed true),
            path)) := by
        rw [deleteRound, split_eq_some_iff.mpr shape]
        simp [balancedNear.isRed, balancedFar.isRed]
      have lower := Balanced.join_black parent.side parent.value balanced recoloured
      cases hole with
      | red _ rest =>
          refine ⟨_, n, round, .inl ⟨isRed_join _ _ _ _ _, ?_⟩, rest.weaken,
            fun _ => isRed_join _ _ _ _ _⟩
          rw [setRed_join]
          exact lower
      | black _ rest =>
          exact ⟨_, n + 1, round, .inr lower, rest, fun impossible => by cases impossible⟩
    · right
      obtain ⟨turned, nearS, valueS, farS, top, first, ⟨redS, split⟩, second, whole⟩ :=
        @deleteRotate _ _ _ _ _ parent value _ _ balanced balancedNear balancedFar
          blackChildren
      obtain ⟨m, plugged⟩ : ∃ m, Balanced (plug top path) false m := by
        apply hole.join
        rintro c rfl
        exact whole
      refine ⟨plug top path, m, ?_, plugged⟩
      have finished : deleteFinish x parent path false near value far = some (plug top path) := by
        rw [deleteFinish, balancedFar.isRed]
        simp only [Option.bind_eq_bind]
        rw [first, Option.bind_some, split, Option.bind_some]
        simp only
        rw [second, Option.bind_some, plugged.setBlack_black]
        simp
      rw [deleteRound, split_eq_some_iff.mpr shape]
      simp only [Option.bind_eq_bind, Option.bind_some, balancedNear.isRed, balancedFar.isRed,
        if_neg blackChildren, finished]
      rfl

/-- `rb_delete_fixup` ends in a balanced tree. -/
theorem deleteFixup_balanced {fuel : Nat} {x : RbTree α} (short : Short x n)
    (hole : Hole path false (n + 1))
    (enough : path.length + 2 ≤ fuel ∨ (x.isRed = true ∧ 1 ≤ fuel)) :
    ∃ t m, deleteFixup fuel x path = some t ∧ Balanced t false m := by
  induction fuel generalizing x path n with
  | zero => omega
  | succ fuel ih =>
      cases path with
      | nil =>
          refine ⟨x.setRed false, ?_⟩
          rcases short with ⟨_, blackened⟩ | balanced
          · exact ⟨_, rfl, blackened⟩
          · exact ⟨n, rfl, by rw [balanced.setBlack_black]; exact balanced⟩
      | cons parent path =>
          rcases short with ⟨red, blackened⟩ | balanced
          · obtain ⟨m, whole⟩ := hole.plug blackened
            exact ⟨_, m, by rw [deleteFixup, if_pos red], whole⟩
          · have notRed : ¬x.isRed = true := by simp [balanced.isRed]
            obtain ⟨parent', path', raised, hole', black, length⟩ := deleteRaise_balanced hole
            have fixup : ∀ result, deleteRound x parent' path' = some result →
                deleteFixup (fuel + 1) x (parent :: path) =
                  result.elim (fun below => deleteFixup fuel below.1 below.2) some := by
              intro result round
              rw [deleteFixup, if_neg notRed]
              simp only [Option.bind_eq_bind, raised, Option.bind_some, round]
              cases result with
              | inl below => rfl
              | inr t => rfl
            rcases deleteRound_balanced balanced hole' black with
              ⟨x', n', round, short', rest, redParent⟩ | ⟨t, m, round, whole⟩
            · rw [fixup _ round]
              apply ih short' rest
              rcases length with same | ⟨isRed, longer⟩
              · left
                simp only [List.length_cons] at enough
                have := enough.resolve_right fun red => notRed red.1
                omega
              · right
                simp only [List.length_cons] at enough
                have := enough.resolve_right fun red => notRed red.1
                exact ⟨redParent isRed, by omega⟩
            · rw [fixup _ round]
              exact ⟨t, m, rfl, whole⟩

theorem leftmost_hole {red redL : Bool} {left right : RbTree α} {value : α}
    (balanced : Balanced (.node red left value right) redL n) (hole : Hole path redL n) :
    ∃ m, Balanced (.node (leftmost red left value right path).1 .nil
        (leftmost red left value right path).2.1 (leftmost red left value right path).2.2.1)
          (leftmost red left value right path).1 m ∧
      Hole (leftmost red left value right path).2.2.2
        (leftmost red left value right path).1 m := by
  induction left generalizing red redL value right path n with
  | nil =>
      have colour : red = redL := balanced.isRed
      subst colour
      exact ⟨n, balanced, hole⟩
  | node redL' leftL valueL rightL ih _ =>
      rw [leftmost]
      cases balanced with
      | red balancedLeft balancedRight => exact ih balancedLeft (.red balancedRight hole)
      | black balancedLeft balancedRight => exact ih balancedLeft (.black balancedRight hole)

theorem leftmost_append {red : Bool} {left right : RbTree α} {value : α}
    (down path : List (Crumb α)) :
    leftmost red left value right (down ++ path) =
      ((leftmost red left value right down).1, (leftmost red left value right down).2.1,
        (leftmost red left value right down).2.2.1,
        (leftmost red left value right down).2.2.2 ++ path) := by
  induction left generalizing red value right down with
  | nil => rfl
  | node redL leftL valueL rightL ih _ =>
      rw [leftmost, leftmost]
      exact ih (⟨.left, red, value, right⟩ :: down)

/-- The node that is taken out has at most one child. -/
theorem splice_balanced {red : Bool} {x : RbTree α} {value : α} {node : RbTree α}
    (isNode : node = .node red .nil value x ∨ node = .node red x value .nil)
    (balanced : Balanced node red n) (hole : Hole path red n) :
    ∃ t m, (if red then some (plug x path) else deleteFixup (2 * path.length + 2) x path) =
      some t ∧ Balanced t false m := by
  cases red with
  | true =>
      have lower : Balanced x false n := by
        rcases isNode with rfl | rfl
        · cases balanced with
          | red _ right => exact right
        · cases balanced with
          | red left _ => exact left
      obtain ⟨m, whole⟩ := hole.weaken.plug lower
      exact ⟨_, m, rfl, whole⟩
  | false =>
      have lower : ∃ redX, Balanced x redX 0 ∧ n = 1 := by
        rcases isNode with rfl | rfl
        · cases balanced with
          | black left right =>
              cases left
              exact ⟨_, right, rfl⟩
        · cases balanced with
          | black left right =>
              cases right
              exact ⟨_, left, rfl⟩
      obtain ⟨redX, balancedX, rfl⟩ := lower
      apply deleteFixup_balanced ?_ hole (.inl (by omega))
      cases redX with
      | true => exact .inl ⟨balancedX.isRed, balancedX.setBlack_red⟩
      | false => exact .inr balancedX

section Locate

variable [DecidableEq α]

theorem locate_hole {target : α} {t subtree : RbTree α} {up : List (Crumb α)} {red : Bool}
    (balanced : Balanced t red n) (hole : Hole up red n)
    (found : locate target t up = some (subtree, path)) :
    ∃ red' m, Balanced subtree red' m ∧ Hole path red' m := by
  induction t generalizing up red n with
  | nil => cases found
  | node redT left value right ihLeft ihRight =>
      rw [locate] at found
      split at found
      · cases found
        exact ⟨red, n, balanced, hole⟩
      · split at found
        · rename_i inLeft
          cases found
          cases balanced with
          | red balancedLeft balancedRight => exact ihLeft balancedLeft (.red balancedRight hole) inLeft
          | black balancedLeft balancedRight =>
              exact ihLeft balancedLeft (.black balancedRight hole) inLeft
        · cases balanced with
          | red balancedLeft balancedRight => exact ihRight balancedRight (.red balancedLeft hole) found
          | black balancedLeft balancedRight =>
              exact ihRight balancedRight (.black balancedLeft hole) found

/-- `rb_delete` of a node of the tree succeeds and keeps the balance. -/
theorem rbDelete_balanced {target : α} {t : RbTree α} (balanced : Balanced t false n)
    (present : target ∈ t.toList) :
    ∃ t' m, rbDelete t target = some t' ∧ Balanced t' false m := by
  cases found : locate target t [] with
  | none => exact absurd present (locate_eq_none found)
  | some pair =>
      obtain ⟨subtree, path⟩ := pair
      obtain ⟨red', m, balancedS, hole⟩ := locate_hole balanced .root found
      obtain ⟨_, red, left, right, rfl⟩ := locate_eq_some found
      have colour : red = red' := balancedS.isRed
      subst colour
      rw [rbDelete, found]
      simp only [Option.bind_eq_bind, Option.bind_some]
      cases left with
      | nil => exact splice_balanced (.inl rfl) balancedS hole
      | node redL leftL valueL rightL =>
          cases right with
          | nil => exact splice_balanced (.inr rfl) balancedS hole
          | node redR leftR valueR rightR =>
              -- the successor takes the place of the node, under the colour of the node
              have inPlace : ∀ valueY, ∃ redC, Balanced (.node redR leftR valueR rightR) redC
                  (if red then m else m - 1) ∧
                  Hole (⟨.right, red, valueY, .node redL leftL valueL rightL⟩ :: path) redC
                    (if red then m else m - 1) := by
                intro valueY
                cases balancedS with
                | red balancedLeft balancedRight => exact ⟨_, balancedRight, .red balancedLeft hole⟩
                | black balancedLeft balancedRight =>
                    exact ⟨_, balancedRight, .black balancedLeft hole⟩
              obtain ⟨redC, balancedR, holeR⟩ :=
                inPlace (leftmost redR leftR valueR rightR []).2.1
              obtain ⟨m', node, holeY⟩ := leftmost_hole balancedR holeR
              have appended := @leftmost_append _ redR leftR rightR valueR []
                (⟨.right, red, (leftmost redR leftR valueR rightR []).2.1,
                  .node redL leftL valueL rightL⟩ :: path)
              rw [List.nil_append] at appended
              rw [appended] at node holeY
              exact splice_balanced (.inl rfl) node holeY

end Locate

end EdfKernel.Mm.RbTree
