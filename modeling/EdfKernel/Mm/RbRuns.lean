import EdfKernel.Library.Run
import EdfKernel.Mm.RbInsert
import EdfKernel.Mm.RbLookup
import Mathlib.Data.Nat.Basic

/-!
# Runs of a red-black tree

Insertions of fresh nodes and deletions of nodes of the tree, one after the other, on the nodes
in memory.  The nodes in order are a sorted list in which a new node comes after the nodes that
are not greater.
-/

namespace EdfKernel.Mm

open RbTree

/-- What is done with a tree. -/
inductive RbOp
  | insert (node : NodePtr)
  | delete (node : NodePtr)
  deriving DecidableEq, Repr

namespace RbOp

/-- The operation on the nodes in memory. -/
def run (tree : RbHead) (fuel : Nat) (nodes : RbNodes) : RbOp → Except RbStop RbNodes
  | insert z => tree.insert fuel nodes z
  | delete z => tree.delete fuel nodes z

/-- The operation on the nodes in order. -/
def onList (tree : RbHead) (list : List NodePtr) : RbOp → List NodePtr
  | insert z =>
      list.takeWhile (fun a => tree.compare a z ≤ 0) ++
        z :: list.dropWhile (fun a => tree.compare a z ≤ 0)
  | delete z => list.erase z

/-- A node that is inserted is neither a sentinel nor in the tree; one that is deleted is in the
tree. -/
def Allowed (tree : RbHead) (list : List NodePtr) : RbOp → Prop
  | insert z => z ≠ tree.root ∧ z ≠ tree.nil ∧ z ∉ list
  | delete z => z ∈ list

instance decidableAllowed (tree : RbHead) (list : List NodePtr) :
    ∀ op, Decidable (Allowed tree list op)
  | insert z => inferInstanceAs (Decidable (z ≠ tree.root ∧ z ≠ tree.nil ∧ z ∉ list))
  | delete z => inferInstanceAs (Decidable (z ∈ list))

/-- Every operation is allowed when its turn comes. -/
def AllAllowed (tree : RbHead) : List NodePtr → List RbOp → Prop
  | _, [] => True
  | list, op :: ops => op.Allowed tree list ∧ AllAllowed tree (op.onList tree list) ops

end RbOp

/-- What the sign of a comparison says about two keys of a preorder. -/
structure Agrees {κ : Type*} [Preorder κ] (sign : Int) (a b : κ) : Prop where
  greater : 0 < sign ↔ ¬a ≤ b
  less : sign < 0 ↔ ¬b ≤ a

/-- The nodes in memory form a balanced tree with the given nodes in order. -/
structure Represents {κ : Type*} [Preorder κ] (tree : RbHead) (key : NodePtr → κ) (nodes : RbNodes)
    (t : RbTree NodePtr) (list : List NodePtr) : Prop where
  place : tree.At nodes t []
  balanced : ∃ height, Balanced t false height
  inOrder : t.toList = list
  sorted : list.Pairwise fun a b => key a ≤ key b

section Order

variable {κ : Type*} [Preorder κ] {tree : RbHead}
  {key : NodePtr → κ} {nodes : RbNodes} {t : RbTree NodePtr} {list : List NodePtr} {fuel : Nat}

/-- A list that is cut between the nodes that are not greater and those that are. -/
theorem onList_insert {z : NodePtr} {before after : List NodePtr}
    (low : ∀ a ∈ before, tree.ordering a z ≠ .gt) (high : ∀ a ∈ after, tree.ordering a z = .gt) :
    (RbOp.insert z).onList tree (before ++ after) = before ++ z :: after := by
  have lowHere : ∀ a ∈ before, decide (tree.compare a z ≤ 0) = true := by
    intro a mem
    have notGreater : ¬0 < tree.compare a z :=
      fun greater => low a mem (RbHead.ordering_eq_gt.mpr greater)
    exact decide_eq_true (by omega)
  have cut : after.takeWhile (fun a => decide (tree.compare a z ≤ 0)) = [] ∧
      after.dropWhile (fun a => decide (tree.compare a z ≤ 0)) = after := by
    cases after with
    | nil => exact ⟨rfl, rfl⟩
    | cons a rest =>
        have greater := RbHead.ordering_eq_gt.mp (high a List.mem_cons_self)
        have notLow : ¬tree.compare a z ≤ 0 := by omega
        simp [notLow]
  change (before ++ after).takeWhile (fun a => decide (tree.compare a z ≤ 0)) ++
    z :: (before ++ after).dropWhile (fun a => decide (tree.compare a z ≤ 0)) = _
  rw [List.takeWhile_append_of_pos lowHere, List.dropWhile_append_of_pos lowHere, cut.1, cut.2,
    List.append_nil]

/-- An insertion of a fresh node. -/
theorem Represents.insert [Std.Total fun a b : κ => a ≤ b] {z : NodePtr}
    (rep : Represents tree key nodes t list)
    (agrees : ∀ a b, Agrees (tree.compare a b) (key a) (key b))
    (allowed : (RbOp.insert z).Allowed tree list) (enough : list.length ≤ fuel) :
    ∃ nodes' t', tree.insert fuel nodes z = .ok nodes' ∧
      Represents tree key nodes' t' ((RbOp.insert z).onList tree list) := by
  obtain ⟨place, ⟨height, balanced⟩, inOrder, sorted⟩ := rep
  subst inOrder
  obtain ⟨t', height', inserted, balanced'⟩ :
      ∃ t' height', rbInsert tree.ordering t z = some t' ∧ Balanced t' false height' :=
    rbInsert_balanced balanced
  have monotone : t.toList.Pairwise fun a b =>
      tree.ordering a z = .gt → tree.ordering b z = .gt := by
    refine sorted.imp fun {a b} le greater => ?_
    rw [RbHead.ordering_eq_gt, (agrees _ _).greater] at greater ⊢
    exact fun below => greater (le.trans below)
  obtain ⟨before, after, split, split', low, high⟩ := rbInsert_toList monotone inserted
  obtain ⟨nodes', ran, place', _⟩ := RbHead.insert_eq place allowed inserted enough
  refine ⟨nodes', t', ran, place', ⟨height', balanced'⟩, ?_, ?_⟩
  · rw [split', split, onList_insert low high]
  · rw [split, onList_insert low high]
    rw [split, List.pairwise_append] at sorted
    obtain ⟨sortedBefore, sortedAfter, across⟩ := sorted
    have lowKey : ∀ a ∈ before, key a ≤ key z := by
      intro a mem
      by_contra greater
      exact low a mem (RbHead.ordering_eq_gt.mpr ((agrees a z).greater.mpr greater))
    have highKey : ∀ a ∈ after, key z ≤ key a := by
      intro a mem
      have greater := (agrees a z).greater.mp (RbHead.ordering_eq_gt.mp (high a mem))
      exact (Std.Total.total (r := fun x y : κ => x ≤ y) (key z) (key a)).resolve_right greater
    refine List.pairwise_append.mpr ⟨sortedBefore, List.pairwise_cons.mpr ⟨highKey, sortedAfter⟩,
      fun a memA b memB => ?_⟩
    rcases List.mem_cons.mp memB with rfl | inAfter
    · exact lowKey a memA
    · exact across a memA b inAfter

/-- A deletion of a node of the tree. -/
theorem Represents.delete {z : NodePtr} (rep : Represents tree key nodes t list)
    (allowed : (RbOp.delete z).Allowed tree list) (enough : 2 * list.length + 2 ≤ fuel) :
    ∃ nodes' t', tree.delete fuel nodes z = .ok nodes' ∧
      Represents tree key nodes' t' ((RbOp.delete z).onList tree list) := by
  obtain ⟨place, ⟨height, balanced⟩, inOrder, sorted⟩ := rep
  subst inOrder
  obtain ⟨t', height', deleted, balanced'⟩ := rbDelete_balanced balanced allowed
  obtain ⟨before, after, split, split'⟩ := rbDelete_toList deleted
  obtain ⟨nodes', ran, place'⟩ := RbHead.delete_eq place deleted enough
  have distinct : t.toList.Nodup :=
    (List.nodup_append.mp (List.nodup_cons.mp (List.nodup_cons.mp place.nodup).2).2).1
  rw [split, List.nodup_middle, List.nodup_cons, List.mem_append, not_or] at distinct
  refine ⟨nodes', t', ran, place', ⟨height', balanced'⟩, ?_, sorted.sublist List.erase_sublist⟩
  change t'.toList = t.toList.erase z
  rw [split, split', List.erase_append_right _ distinct.1.1, List.erase_cons_head]

/-- What a tree is good for: a search finds a node that is equivalent to the key where there is
one, and the iterators lead to the neighbours. -/
def Usable (tree : RbHead) (key : NodePtr → κ) (fuel : Nat) (nodes : RbNodes)
    (list : List NodePtr) : Prop :=
  (∀ (wanted : κ) (compare : NodePtr → Int), (∀ a, Agrees (compare a) (key a) wanted) →
    ∃ found, tree.search compare fuel nodes = .ok found ∧
      (∀ a ∈ found, a ∈ list ∧ key a ≤ wanted ∧ wanted ≤ key a) ∧
      (found = none → ∀ a ∈ list, ¬(key a ≤ wanted ∧ wanted ≤ key a))) ∧
  ∀ before z after, list = before ++ z :: after →
    tree.nodePrev fuel nodes z = .ok before.getLast? ∧ tree.nodeNext fuel nodes z = .ok after.head?

theorem Represents.usable (rep : Represents tree key nodes t list) (enough : list.length ≤ fuel) :
    Usable tree key fuel nodes list := by
  obtain ⟨place, -, inOrder, sorted⟩ := rep
  subst inOrder
  refine ⟨fun wanted compare agrees => ?_, fun before z after split => ?_⟩
  · have monotone : t.toList.Pairwise fun a b =>
        (0 < compare a → 0 < compare b) ∧ (compare b < 0 → compare a < 0) := by
      refine sorted.imp fun {a b} le => ⟨fun greater => ?_, fun less => ?_⟩
      · rw [(agrees _).greater] at greater ⊢
        exact fun below => greater (le.trans below)
      · rw [(agrees _).less] at less ⊢
        exact fun above => less (above.trans le)
    have equal : ∀ a, compare a = 0 ↔ key a ≤ wanted ∧ wanted ≤ key a := by
      intro a
      have greater := (agrees a).greater
      have less := (agrees a).less
      constructor
      · intro zero
        rw [zero] at greater less
        exact ⟨by simpa using greater, by simpa using less⟩
      · rintro ⟨below, above⟩
        have notGreater : ¬0 < compare a := fun positive => greater.mp positive below
        have notLess : ¬compare a < 0 := fun negative => less.mp negative above
        omega
    obtain ⟨found, ran, isFound, missing⟩ := place.search monotone enough
    refine ⟨found, ran, fun a mem => ?_, fun none a mem both => ?_⟩
    · exact ⟨(isFound a mem).1, (equal a).mp (isFound a mem).2⟩
    · exact missing none a mem ((equal a).mpr both)
  · exact ⟨place.nodePrev split enough, place.nodeNext split enough⟩

theorem length_onList (op : RbOp) : (op.onList tree list).length ≤ list.length + 1 := by
  cases op with
  | insert z =>
      change (list.takeWhile _ ++ z :: list.dropWhile _).length ≤ _
      rw [List.length_append, List.length_cons, ← Nat.add_assoc, ← List.length_append,
        List.takeWhile_append_dropWhile]
  | delete z =>
      change (list.erase z).length ≤ _
      exact Nat.le_succ_of_le List.length_erase_le

/-- A run of allowed operations succeeds and does to the nodes in order what it does to the
list. -/
theorem Represents.run [Std.Total fun a b : κ => a ≤ b] {ops : List RbOp}
    (rep : Represents tree key nodes t list)
    (agrees : ∀ a b, Agrees (tree.compare a b) (key a) (key b))
    (allowed : RbOp.AllAllowed tree list ops) (enough : 2 * (list.length + ops.length) + 2 ≤ fuel) :
    ∃ nodes' t', Library.Run.exec (RbOp.run tree fuel) nodes ops = .ok nodes' ∧
      Represents tree key nodes' t' (ops.foldl (RbOp.onList tree) list) := by
  induction ops generalizing nodes t list with
  | nil => exact ⟨nodes, t, rfl, rep⟩
  | cons op ops ih =>
      obtain ⟨allowedHere, allowedLater⟩ := allowed
      have length := @length_onList tree list op
      rw [List.length_cons] at enough
      have step : ∃ nodes₁ t₁, op.run tree fuel nodes = .ok nodes₁ ∧
          Represents tree key nodes₁ t₁ (op.onList tree list) := by
        cases op with
        | insert z => exact rep.insert agrees allowedHere (by omega)
        | delete z => exact rep.delete allowedHere (by omega)
      obtain ⟨nodes₁, t₁, ran, rep₁⟩ := step
      obtain ⟨nodes', t', rest, rep'⟩ := ih rep₁ allowedLater (by omega)
      exact ⟨nodes', t', Library.Run.exec_cons_eq_ok_iff.mpr ⟨nodes₁, ran, rest⟩, rep'⟩

/-- `rb_tree_create` makes the empty tree. -/
theorem represents_create (memory : RbNodes) (distinct : tree.root ≠ tree.nil) :
    Represents tree key (tree.create memory) .nil [] := by
  have nil : tree.create memory tree.nil = ⟨false, tree.nil, tree.nil, tree.nil⟩ := by
    unfold RbHead.create
    rw [RbNodes.modify_of_ne _ _ distinct.symm, RbNodes.modify_self]
  refine ⟨⟨trivial, ?_, by simpa [toList, RbTree.crumbNodes] using distinct, by rw [nil]⟩,
    ⟨0, .nil⟩, rfl, .nil⟩
  change tree.create memory tree.root = _
  unfold RbHead.create
  rw [RbNodes.modify_self]
  rfl

/-- Every run of insertions and deletions from an empty tree succeeds.  In the end the nodes in
memory are a balanced search tree with its links in both directions, the nodes in order are those
of the sorted list, and the tree is usable. -/
theorem redBlack_runs [Std.Total fun a b : κ => a ≤ b]
    (agrees : ∀ a b, Agrees (tree.compare a b) (key a) (key b)) (distinct : tree.root ≠ tree.nil)
    (memory : RbNodes) {ops : List RbOp} (allowed : RbOp.AllAllowed tree [] ops)
    (enough : 2 * ops.length + 2 ≤ fuel) :
    ∃ nodes t, Library.Run.exec (RbOp.run tree fuel) (tree.create memory) ops = .ok nodes ∧
      Represents tree key nodes t (ops.foldl (RbOp.onList tree) []) ∧
      Usable tree key fuel nodes (ops.foldl (RbOp.onList tree) []) := by
  obtain ⟨nodes, t, ran, rep⟩ := (@represents_create _ _ _ key memory distinct).run agrees
    allowed (by simpa using enough)
  refine ⟨nodes, t, ran, rep, rep.usable ?_⟩
  have length : ∀ (ops : List RbOp) (list : List NodePtr),
      (ops.foldl (RbOp.onList tree) list).length ≤ list.length + ops.length := by
    intro ops
    induction ops with
    | nil => exact fun list => Nat.le_refl _
    | cons op ops ih =>
        intro list
        have one := @length_onList tree list op
        have rest := ih (op.onList tree list)
        rw [List.foldl_cons, List.length_cons]
        omega
  have bound := length ops []
  rw [List.length_nil] at bound
  omega

end Order

/-- Nodes whose keys are the halves of their addresses, so that two nodes share each key. -/
def halves : RbHead where
  compare a b := (a / 2 : Nat) - (b / 2 : Nat)
  nil := 0
  root := 1

theorem halves_agrees (a b : NodePtr) : Agrees (halves.compare a b) (a / 2) (b / 2) := by
  constructor
  · exact Int.sub_pos.trans (Int.ofNat_lt.trans not_le.symm)
  · have less : halves.compare a b < 0 ↔ ((a / 2 : Nat) : Int) < (b / 2 : Nat) :=
      ⟨Int.lt_of_sub_neg, Int.sub_neg_of_lt⟩
    exact less.trans (Int.ofNat_lt.trans not_le.symm)

theorem redBlack_runs_halves : ∃ nodes t,
    Library.Run.exec (RbOp.run halves 14) (halves.create fun _ => ⟨true, 0, 0, 0⟩)
        [.insert 6, .insert 5, .insert 4, .insert 7, .delete 5, .insert 3] = .ok nodes ∧
      Represents halves (fun a => a / 2) nodes t [3, 4, 6, 7] ∧
      Usable halves (fun a => a / 2) 14 nodes [3, 4, 6, 7] :=
  have distinct : halves.root ≠ halves.nil := by decide
  have allowed : RbOp.AllAllowed halves []
      [.insert 6, .insert 5, .insert 4, .insert 7, .delete 5, .insert 3] :=
    ⟨by decide, by decide, by decide, by decide, by decide, by decide, trivial⟩
  redBlack_runs halves_agrees distinct _ allowed (by decide)

end EdfKernel.Mm
