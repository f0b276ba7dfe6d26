import Mathlib.Data.List.Rotate

/-!
# Disjoint rings

Elements are arranged in circular lists.  Only rings of more than one element are
stored, each as the list of its elements from some element on; every other element
is alone in its ring.
-/

namespace EdfKernel.Library.Rings

universe u

variable {α : Type u} [DecidableEq α]

/-- The ring of `a`, from `a` on. -/
def ring (rings : List (List α)) (a : α) : List α :=
  match rings.find? fun l => decide (a ∈ l) with
  | some l => l.rotate (l.idxOf a)
  | none => [a]

/-- `a` enters a ring right before `head`. -/
def insertBefore (head a : α) : List α → List α
  | [] => []
  | b :: rest => if b = head then a :: b :: rest else b :: insertBefore head a rest

/-- `a` enters the ring of `head`, which may be alone so far. -/
def join (head a : α) : List (List α) → List (List α)
  | [] => [[a, head]]
  | l :: rest => if head ∈ l then insertBefore head a l :: rest else l :: join head a rest

/-- `a` leaves its ring. -/
def leave (a : α) (rings : List (List α)) : List (List α) :=
  (rings.map fun l => l.erase a).filter fun l => 1 < l.length

/-- Two elements are in the same ring. -/
def Together (rings : List (List α)) (a b : α) : Prop :=
  a = b ∨ ∃ l ∈ rings, a ∈ l ∧ b ∈ l

variable {rings : List (List α)} {a b c head : α}

namespace Together

omit [DecidableEq α]

theorem refl (rings : List (List α)) (a : α) : Together rings a a :=
  .inl rfl

theorem symm (together : Together rings a b) : Together rings b a := by
  rcases together with rfl | ⟨l, mem, memA, memB⟩
  · exact .inl rfl
  · exact .inr ⟨l, mem, memB, memA⟩

/-- An element is in one stored ring at most. -/
theorem unique_ring (disjoint : rings.flatten.Nodup) {l l' : List α} (mem : l ∈ rings)
    (mem' : l' ∈ rings) (memA : a ∈ l) (memA' : a ∈ l') : l = l' := by
  induction rings with
  | nil => contradiction
  | cons first rest ih =>
      rw [List.flatten_cons, List.nodup_append'] at disjoint
      obtain ⟨_, disjointRest, apart⟩ := disjoint
      rcases List.mem_cons.mp mem with rfl | inRest
      · rcases List.mem_cons.mp mem' with rfl | inRest'
        · rfl
        · exact absurd (List.mem_flatten_of_mem inRest' memA') (apart memA)
      · rcases List.mem_cons.mp mem' with rfl | inRest'
        · exact absurd (List.mem_flatten_of_mem inRest memA) (apart memA')
        · exact ih disjointRest inRest inRest'

theorem trans (disjoint : rings.flatten.Nodup) (first : Together rings a b)
    (second : Together rings b c) : Together rings a c := by
  rcases first with rfl | ⟨l, mem, memA, memB⟩
  · exact second
  · rcases second with rfl | ⟨l', mem', memB', memC⟩
    · exact .inr ⟨l, mem, memA, memB⟩
    · have same := unique_ring disjoint mem mem' memB memB'
      subst same
      exact .inr ⟨l, mem, memA, memC⟩

end Together

/-! ## The elements of a ring -/

theorem mem_ring_iff (disjoint : rings.flatten.Nodup) :
    b ∈ ring rings a ↔ Together rings a b := by
  unfold ring
  split
  · rename_i l found
    have mem := List.mem_of_find?_eq_some found
    have memA : a ∈ l := by simpa using List.find?_some found
    rw [List.mem_rotate]
    constructor
    · exact fun memB => .inr ⟨l, mem, memA, memB⟩
    · rintro (rfl | ⟨l', mem', memA', memB⟩)
      · exact memA
      · exact Together.unique_ring disjoint mem mem' memA memA' ▸ memB
  · rename_i absent
    rw [List.mem_singleton]
    constructor
    · rintro rfl
      exact .refl _ _
    · rintro (rfl | ⟨l, mem, memA, _⟩)
      · rfl
      · exact absurd memA (by simpa using List.find?_eq_none.mp absent l mem)

theorem ring_eq_cons (rings : List (List α)) (a : α) : ring rings a = a :: (ring rings a).tail := by
  apply List.eq_cons_of_mem_head?
  unfold ring
  split
  · rename_i l found
    have memA : a ∈ l := by simpa using List.find?_some found
    rw [List.head?_rotate (List.idxOf_lt_length_of_mem memA), List.getElem?_idxOf memA]
    rfl
  · rfl

theorem ring_nodup (disjoint : rings.flatten.Nodup) (a : α) : (ring rings a).Nodup := by
  unfold ring
  split
  · rename_i l found
    rw [List.nodup_rotate]
    exact (List.nodup_flatten.mp disjoint).1 l (List.mem_of_find?_eq_some found)
  · exact List.nodup_singleton a

/-! ## Entering and leaving -/

theorem insertBefore_perm {l : List α} (mem : head ∈ l) :
    (insertBefore head a l).Perm (a :: l) := by
  induction l with
  | nil => contradiction
  | cons b rest ih =>
      unfold insertBefore
      split
      · exact .refl _
      · rename_i other
        have inRest := (List.mem_cons.mp mem).resolve_left (Ne.symm other)
        exact ((ih inRest).cons b).trans (.swap a b rest)

theorem mem_flatten_join : b ∈ (join head a rings).flatten ↔
    b = a ∨ b = head ∨ b ∈ rings.flatten := by
  induction rings with
  | nil => simp [join]
  | cons l rest ih =>
      unfold join
      split
      · rename_i here
        rw [List.flatten_cons, List.mem_append, (insertBefore_perm here).mem_iff, List.mem_cons,
          List.flatten_cons, List.mem_append]
        constructor
        · rintro ((own | inRing) | inRest)
          · exact .inl own
          · exact .inr (.inr (.inl inRing))
          · exact .inr (.inr (.inr inRest))
        · rintro (own | rfl | inRing | inRest)
          · exact .inl (.inl own)
          · exact .inl (.inr here)
          · exact .inl (.inr inRing)
          · exact .inr inRest
      · rw [List.flatten_cons, List.mem_append, ih, List.flatten_cons, List.mem_append]
        tauto

theorem join_nodup (disjoint : rings.flatten.Nodup) (new : a ∉ rings.flatten) (ne : a ≠ head) :
    (join head a rings).flatten.Nodup := by
  induction rings with
  | nil => simpa [join] using ne
  | cons l rest ih =>
      rw [List.flatten_cons, List.mem_append, not_or] at new
      rw [List.flatten_cons, List.nodup_append'] at disjoint
      obtain ⟨nodup, disjointRest, apart⟩ := disjoint
      unfold join
      split
      · rename_i here
        rw [List.flatten_cons, ((insertBefore_perm here).append_right _).nodup_iff,
          List.cons_append, List.nodup_cons, List.nodup_append', List.mem_append, not_or]
        exact ⟨new, nodup, disjointRest, apart⟩
      · rename_i elsewhere
        rw [List.flatten_cons, List.nodup_append']
        refine ⟨nodup, ih disjointRest new.2, fun b inRing inRest => ?_⟩
        rcases mem_flatten_join.mp inRest with rfl | rfl | old
        · exact new.1 inRing
        · exact elsewhere inRing
        · exact apart inRing old

/-- The ring of `head` takes in `a`. -/
theorem together_join_iff (disjoint : rings.flatten.Nodup) :
    Together (join head a rings) b c ↔ Together rings b c ∨
      ((b = a ∨ Together rings head b) ∧ (c = a ∨ Together rings head c)) := by
  have stored : ∀ {rings : List (List α)}, rings.flatten.Nodup →
      ((∃ l ∈ join head a rings, b ∈ l ∧ c ∈ l) ↔ (∃ l ∈ rings, b ∈ l ∧ c ∈ l) ∨
        ((b = a ∨ Together rings head b) ∧ (c = a ∨ Together rings head c))) := by
    intro rings
    induction rings with
    | nil => simp [join, Together, eq_comm]
    | cons l rest ih =>
        intro disjoint
        rw [List.flatten_cons, List.nodup_append'] at disjoint
        obtain ⟨_, disjointRest, apart⟩ := disjoint
        unfold join
        split
        · rename_i here
          have own : ∀ d, Together (l :: rest) head d ↔ d ∈ l := by
            intro d
            constructor
            · rintro (rfl | ⟨l', mem, memHead, memD⟩)
              · exact here
              · rcases List.mem_cons.mp mem with rfl | inRest
                · exact memD
                · exact absurd (List.mem_flatten_of_mem inRest memHead) (apart here)
            · exact fun memD => .inr ⟨l, List.mem_cons_self, here, memD⟩
          rw [List.exists_mem_cons_iff, List.exists_mem_cons_iff]
          simp only [(insertBefore_perm here).mem_iff, List.mem_cons, own]
          constructor
          · rintro (⟨memB, memC⟩ | inRest)
            · exact .inr ⟨memB, memC⟩
            · exact .inl (.inr inRest)
          · rintro ((⟨memB, memC⟩ | inRest) | both)
            · exact .inl ⟨.inr memB, .inr memC⟩
            · exact .inr inRest
            · exact .inl both
        · rename_i elsewhere
          have own : ∀ d, Together (l :: rest) head d ↔ Together rest head d := by
            intro d
            simp [Together, elsewhere]
          rw [List.exists_mem_cons_iff, List.exists_mem_cons_iff, ih disjointRest, own, own, or_assoc]
  rw [Together, stored disjoint, ← or_assoc]
  rfl

theorem leave_sublist : (leave a rings).flatten.Sublist rings.flatten := by
  induction rings with
  | nil => exact .refl _
  | cons l rest ih =>
      rw [leave, List.map_cons, List.filter_cons, List.flatten_cons]
      split
      · exact List.erase_sublist.append ih
      · exact ih.trans (List.sublist_append_right _ _)

theorem not_mem_leave (disjoint : rings.flatten.Nodup) : a ∉ (leave a rings).flatten := by
  intro mem
  obtain ⟨l', memL', memA⟩ := List.mem_flatten.mp mem
  obtain ⟨l, memL, rfl⟩ := List.mem_map.mp (List.mem_of_mem_filter memL')
  exact (((List.nodup_flatten.mp disjoint).1 l memL).mem_erase_iff.mp memA).1 rfl

theorem leave_nodup (disjoint : rings.flatten.Nodup) : (leave a rings).flatten.Nodup :=
  leave_sublist.nodup disjoint

/-- An element that has left is alone; the others stay together. -/
theorem together_leave_iff (disjoint : rings.flatten.Nodup) :
    Together (leave a rings) b c ↔ b = c ∨ (Together rings b c ∧ b ≠ a ∧ c ≠ a) := by
  have nodup : ∀ l ∈ rings, l.Nodup := (List.nodup_flatten.mp disjoint).1
  constructor
  · rintro (same | ⟨l', mem, memB, memC⟩)
    · exact .inl same
    · obtain ⟨l, memL, rfl⟩ := List.mem_map.mp (List.mem_of_mem_filter mem)
      rw [(nodup l memL).mem_erase_iff] at memB memC
      exact .inr ⟨.inr ⟨l, memL, memB.2, memC.2⟩, memB.1, memC.1⟩
  · rintro (same | ⟨same | ⟨l, mem, memB, memC⟩, notB, notC⟩)
    · exact .inl same
    · exact .inl same
    · by_cases same : b = c
      · exact .inl same
      · have inB := (List.mem_erase_of_ne notB).mpr memB
        have inC := (List.mem_erase_of_ne notC).mpr memC
        refine .inr ⟨l.erase a, List.mem_filter.mpr ⟨List.mem_map_of_mem mem, ?_⟩, inB, inC⟩
        rw [decide_eq_true_eq]
        by_contra short
        have single : (l.erase a).length = 1 := by
          have := List.length_pos_of_mem inB
          omega
        obtain ⟨d, eq⟩ := List.length_eq_one_iff.mp single
        rw [eq, List.mem_singleton] at inB inC
        exact same (inB.trans inC.symm)

end EdfKernel.Library.Rings
