import EdfKernel.Mm.UnmapWalk

/-!
# Copying a range of pages

`copy_range` of `pmm.c`.  Its loop steps like that of `unmap_range`, and it does what a walk over
all the pages of the range does, unless there is no memory for a page table.
-/

namespace EdfKernel.Mm

open Library

/-- The entry that a copy of an entry is. -/
def Pte.copied (share : Bool) : Pte → Pte
  | .present f perm => .present f ⟨perm.user, perm.write && share, false, false⟩
  | .swapped e => .swapped e
  | .zero => .zero

/-- What becomes of an entry that is copied. -/
def Pte.kept (share : Bool) : Pte → Pte
  | .present f perm => .present f { perm with write := perm.write && share }
  | .swapped e => .swapped e
  | .zero => .zero

namespace Pages

variable {p p' q : Pages} {mm target source : MmPtr} {a n page start stop fuel : Nat} {f : Frame}
  {e : SwapEntry} {share : Bool} {perm : Perm}

/-! ## A page table for the copy -/

/-- `q` is `p` with a page table for a page: it is there, or a frame has been taken for it. -/
structure Ensures (p q : Pages) (mm : MmPtr) (page : Nat) : Prop where
  there : (q.table mm (page / 1024)).isSome = true
  lookup : ∀ mm' page', q.lookup mm' page' = p.lookup mm' page'
  shared : ∀ shmem page', q.pte (.shared shmem page') = p.pte (.shared shmem page')
  table : ∀ mm' i, q.table mm' i = p.table mm' i ∨
    mm' = mm ∧ p.table mm' i = none ∧ i = page / 1024
  frames : ∀ f, p.free f = false → q.free f = false ∧ q.page f = p.page f
  slots : q.memMap = p.memMap ∧ q.maxSwapOffset = p.maxSwapOffset

/-- `get_pte` finds a page table or makes one without entries. -/
theorem getPte_ensures (low : page * pgSize < userTop)
    (found : p.getPte mm (page * pgSize) true = (true, q)) : p.Ensures q mm page := by
  have index : pdx (page * pgSize) = page / 1024 := by
    rw [pdx_eq (low.trans (by decide)), Nat.mul_div_cancel _ (by decide)]
  unfold getPte at found
  rw [index] at found
  split at found
  · rename_i there
    cases found
    exact ⟨there, fun _ _ => rfl, fun _ _ => rfl, fun _ _ => .inl rfl, fun _ taken => ⟨taken, rfl⟩,
      rfl, rfl⟩
  · rename_i missing
    have none : p.table mm (page / 1024) = none := by simpa using missing
    rw [if_pos rfl] at found
    split at found
    · cases found
    · rename_i f r taken
      obtain ⟨isFree, grants, rfl⟩ := allocPage_some taken
      cases found
      refine ⟨by simp, fun mm' page' => ?_, fun _ _ => rfl, fun mm' i => ?_, fun g held => ?_,
        rfl, rfl⟩
      · simp only [lookup, clearTable]
        by_cases own : mm' = mm
        · subst own
          by_cases here : page' / 1024 = page / 1024
          · simp [here, none]
          · simp [here]
        · simp [own]
      · by_cases own : mm' = mm
        · subst own
          by_cases here : i = page / 1024
          · exact .inr ⟨rfl, here ▸ none, here⟩
          · exact .inl (by simp [here])
        · exact .inl (by simp [own])
      · have other : g ≠ f := by
          rintro rfl
          rw [isFree] at held
          cases held
        simp [modify, other, held]

/-! ## One page -/

/-- What `copy_range` does at a page, with its error code so far. -/
def copyPage (target source : MmPtr) (share : Bool) (page : Nat) (s : Int × Pages) :
    Except Panic (Int × Pages) :=
  if s.1 ≠ 0 ∨ s.2.lookup source page = .zero then .ok s
  else s.2.copyPte target source (page * pgSize) share

/-- After an error nothing is done. -/
theorem copyPage_failed {s : Int × Pages} (failed : s.1 ≠ 0) :
    copyPage target source share page s = .ok s :=
  if_pos (.inl failed)

theorem userSlot_eq (mm : MmPtr) (page : Nat) : userSlot mm (page * pgSize) = .user mm page := by
  rw [userSlot, Nat.mul_div_cancel _ (by decide)]

/-- The entry of a page that has a page table is written. -/
theorem writePte_lookup (there : (p.table mm (page / 1024)).isSome = true) (entry : Pte)
    (mm' : MmPtr) (page' : Nat) :
    (p.writePte (.user mm page) entry).lookup mm' page' =
      if mm' = mm ∧ page' = page then entry else p.lookup mm' page' := by
  have table : (p.writePte (.user mm page) entry).table = p.table := rfl
  by_cases own : mm' = mm ∧ page' = page
  · obtain ⟨rfl, rfl⟩ := own
    rw [if_pos ⟨rfl, rfl⟩, lookup, table, if_pos there, writePte_pte_self]
  · have other : Slot.user mm' page' ≠ .user mm page := by
      intro same
      cases same
      exact own ⟨rfl, rfl⟩
    rw [if_neg own]
    exact lookup_of_table table (writePte_pte_of_ne p entry other)

theorem getPte_there (low : page * pgSize < userTop)
    (there : (p.table mm (page / 1024)).isSome = true) :
    p.getPte mm (page * pgSize) true = (true, p) := by
  have index : pdx (page * pgSize) = page / 1024 := by
    rw [pdx_eq (low.trans (by decide)), Nat.mul_div_cancel _ (by decide)]
  rw [getPte, index, if_pos there]

/-- The frame that an entry maps already is inserted there again. -/
theorem pageInsert_same {perm' : Perm} (low : page * pgSize < userTop)
    (held : p.lookup mm page = .present f perm') :
    p.pageInsert mm f (page * pgSize) perm =
      .ok (0, ((p.pageRefInc f).pageRefDec f).writePte (.user mm page) (.present f perm)) := by
  obtain ⟨there, own⟩ := lookup_ne_zero (p := p) (by rw [held]; exact Pte.noConfusion)
  have read : (p.pageRefInc f).pte (.user mm page) = .present f perm' := own.symm.trans held
  rw [pageInsert, getPte_there low there]
  simp only [userSlot_eq, read, if_true, ok_bind]
  rfl

/-- A frame is inserted where nothing is mapped. -/
theorem pageInsert_zero (low : page * pgSize < userTop)
    (there : (p.table mm (page / 1024)).isSome = true) (empty : p.lookup mm page = .zero) :
    p.pageInsert mm f (page * pgSize) perm =
      .ok (0, (p.pageRefInc f).writePte (.user mm page) (.present f perm)) := by
  have read : (p.pageRefInc f).pte (.user mm page) = .zero := by
    rwa [lookup, if_pos there] at empty
  rw [pageInsert, getPte_there low there]
  simp only [userSlot_eq, read, ok_bind]
  rfl

theorem pageRefInc_ref (p : Pages) (f g : Frame) :
    ((p.pageRefInc f).page g).ref = (p.page g).ref + if f = g then 1 else 0 := by
  by_cases own : f = g
  · subst own
    simp [pageRefInc, modify]
  · simp [pageRefInc, modify, own, Ne.symm own]

/-- `n` pages from `a` on have been copied, with a reference for every entry; the pages have lost
the right to write that they do not share, and nothing else has been changed in the tables but
that there may be new page tables. -/
structure Copied (p p' : Pages) (target source : MmPtr) (share : Bool) (a n : Nat) : Prop where
  lookup : ∀ mm page, p'.lookup mm page =
    if mm = target ∧ a ≤ page ∧ page < a + n then (p.lookup source page).copied share
    else if mm = source ∧ a ≤ page ∧ page < a + n then (p.lookup source page).kept share
    else p.lookup mm page
  shared : ∀ shmem page, p'.pte (.shared shmem page) = p.pte (.shared shmem page)
  table : ∀ mm i, p'.table mm i = p.table mm i ∨ mm = target ∧ p.table mm i = none ∧
    ∃ page, a ≤ page ∧ page < a + n ∧ page / 1024 = i
  frames : ∀ f, p.free f = false →
    p'.free f = false ∧ (p'.page f).ref = (p.page f).ref + p.mappings source a n f
  memMap : ∀ e, p'.memMap e = p.memMap e + p.swappings source a n e
  maxSwapOffset : p'.maxSwapOffset = p.maxSwapOffset

/-- One page has been copied, after the page table for it has been made. -/
theorem Ensures.copied (ensures : p.Ensures q target a)
    (lookup : ∀ mm page, p'.lookup mm page =
      if mm = target ∧ page = a then (p.lookup source a).copied share
      else if mm = source ∧ page = a then (p.lookup source a).kept share
      else q.lookup mm page)
    (shared : ∀ shmem page, p'.pte (.shared shmem page) = q.pte (.shared shmem page))
    (table : p'.table = q.table) (free : p'.free = q.free)
    (ref : ∀ f, (p'.page f).ref =
      (q.page f).ref + if (p.lookup source a).frame = some f then 1 else 0)
    (memMap : ∀ e, p'.memMap e =
      q.memMap e + if (p.lookup source a).entry = some e then 1 else 0)
    (offset : p'.maxSwapOffset = q.maxSwapOffset) : p.Copied p' target source share a 1 := by
  have one : ∀ page, (a ≤ page ∧ page < a + 1) ↔ page = a := fun page => by omega
  refine ⟨fun mm page => ?_, fun shmem page => (shared shmem page).trans (ensures.shared ..),
    fun mm i => ?_, fun f taken => ?_, fun e => ?_, offset.trans ensures.slots.2⟩
  · rw [lookup, ensures.lookup]
    simp only [one]
    by_cases here : page = a
    · rw [here]
    · simp [here]
  · rw [table]
    refine (ensures.table mm i).imp_right fun ⟨own, missing, index⟩ => ⟨own, missing, a, ?_⟩
    exact ⟨Nat.le_refl a, Nat.lt_succ_self a, index.symm⟩
  · obtain ⟨taken', same⟩ := ensures.frames f taken
    rw [free, ref, same, mappings_succ]
    refine ⟨taken', ?_⟩
    split <;> simp [mappings]
  · rw [memMap, ensures.slots.1, swappings_succ]
    simp [swappings]

/-- The source gives up the right to write. -/
structure Protects (q r : Pages) (source : MmPtr) (page : Nat) (entry : Pte) : Prop where
  lookup : ∀ mm page', r.lookup mm page' =
    if mm = source ∧ page' = page then entry else q.lookup mm page'
  shared : ∀ shmem page', r.pte (.shared shmem page') = q.pte (.shared shmem page')
  table : r.table = q.table
  free : r.free = q.free
  ref : ∀ f, (r.page f).ref = (q.page f).ref
  slots : r.memMap = q.memMap ∧ r.maxSwapOffset = q.maxSwapOffset

/-- Inserting the frame of an entry again changes that entry only. -/
theorem pageInsert_protects {perm' : Perm} (perm : Perm) (low : a * pgSize < userTop)
    (held : q.lookup source a = .present f perm') :
    ∃ r, q.pageInsert source f (a * pgSize) perm = .ok (0, r) ∧
      q.Protects r source a (.present f perm) := by
  have there : (q.table source (a / 1024)).isSome = true :=
    (lookup_ne_zero (p := q) (by rw [held]; exact Pte.noConfusion)).1
  refine ⟨_, pageInsert_same low held,
    writePte_lookup (p := (q.pageRefInc f).pageRefDec f) there _,
    fun shmem page' => writePte_pte_of_ne _ _ Slot.noConfusion, rfl, rfl, fun g => ?_, rfl, rfl⟩
  have back := pageRefDec_ref (q.pageRefInc f) f g
  rw [pageRefInc_ref, Int.add_sub_cancel] at back
  exact back

/-- The entry of the target is written for a page that is present. -/
theorem Protects.copied {r : Pages} {entry : Pte} (share : Bool) (perm' : Perm)
    (low : a * pgSize < userTop) (ensures : p.Ensures q target a) (protects : q.Protects r source a entry)
    (empty : r.lookup target a = .zero) (held : p.lookup source a = .present f perm)
    (kept : (p.lookup source a).kept share = entry)
    (copied : (p.lookup source a).copied share = .present f perm') :
    ∃ p', r.pageInsert target f (a * pgSize) perm' = .ok (0, p') ∧
      p.Copied p' target source share a 1 := by
  have there : (r.table target (a / 1024)).isSome = true := by
    rw [protects.table]
    exact ensures.there
  refine ⟨_, pageInsert_zero low there empty, ensures.copied (fun mm page => ?_) (fun _ _ => ?_)
    protects.table protects.free (fun g => ?_) (fun e => ?_) protects.slots.2⟩
  · rw [writePte_lookup (p := r.pageRefInc f) there, copied, kept]
    exact congrArg (fun other => if mm = target ∧ page = a then Pte.present f perm' else other)
      (protects.lookup mm page)
  · exact (writePte_pte_of_ne _ _ Slot.noConfusion).trans (protects.shared ..)
  · have counted := pageRefInc_ref r f g
    rw [protects.ref] at counted
    rw [held]
    simpa [Pte.frame, writePte] using counted
  · rw [held]
    simpa [Pte.entry, writePte, pageRefInc, modify] using congrFun protects.slots.1 e

/-- A page that is present is copied. -/
theorem copyPte_present (share : Bool) (low : a * pgSize < userTop)
    (found : p.getPte target (a * pgSize) true = (true, q)) (empty : p.lookup target a = .zero)
    (held : p.lookup source a = .present f perm) :
    ∃ p', p.copyPte target source (a * pgSize) share = .ok (0, p') ∧
      p.Copied p' target source share a 1 := by
  have ensures := getPte_ensures low found
  have apart : target ≠ source := by
    rintro rfl
    rw [empty] at held
    cases held
  have heldNow : q.lookup source a = .present f perm := (ensures.lookup ..).trans held
  have emptyNow : q.lookup target a = .zero := (ensures.lookup ..).trans empty
  have zero : q.pte (.user target a) = .zero := by
    rwa [lookup, if_pos ensures.there] at emptyNow
  have read := (lookup_ne_zero (p := q) (by rw [heldNow]; exact Pte.noConfusion)).2
  rw [heldNow] at read
  rw [copyPte, found]
  simp only [userSlot_eq, zero, ← read, ne_eq, not_true_eq_false, if_false]
  by_cases cleared : share = false ∧ perm.write = true
  · rcases pageInsert_protects { perm with write := false } low heldNow with
      ⟨r, inserted, protects⟩
    have emptyStill : r.lookup target a = .zero := by
      rw [protects.lookup, if_neg fun same => apart same.1]
      exact emptyNow
    rcases protects.copied share ⟨perm.user, false, false, false⟩ low ensures emptyStill held
        (by simp [held, Pte.kept, cleared]) (by simp [held, Pte.copied, cleared])
      with ⟨p', written, copied⟩
    exact ⟨p', by simp only [if_pos cleared, inserted, ok_bind, pure, Except.pure, written, if_true],
      copied⟩
  · have protects : q.Protects q source a (.present f perm) := by
      refine ⟨fun mm page => ?_, fun _ _ => rfl, rfl, rfl, fun _ => rfl, rfl, rfl⟩
      split
      case isTrue own => rw [own.1, own.2, heldNow]
      case isFalse => rfl
    have write : (perm.write && share) = perm.write := by
      cases share <;> simp_all
    rcases protects.copied share ⟨perm.user, perm.write, false, false⟩ low ensures emptyNow held
        (by simp [held, Pte.kept, write]) (by simp [held, Pte.copied, write])
      with ⟨p', written, copied⟩
    exact ⟨p', by simp only [if_neg cleared, ok_bind, pure, Except.pure, written, if_true], copied⟩

/-- A page that is swapped out is copied, with a reference to its slot. -/
theorem copyPte_swapped (share : Bool) (low : a * pgSize < userTop)
    (found : p.getPte target (a * pgSize) true = (true, q)) (empty : p.lookup target a = .zero)
    (held : p.lookup source a = .swapped e) :
    p.copyPte target source (a * pgSize) share =
      (q.swapDuplicate e >>= fun r => .ok (0, r.writePte (.user target a) (.swapped e))) ∧
    ∀ r, q.swapDuplicate e = .ok r →
      p.Copied (r.writePte (.user target a) (.swapped e)) target source share a 1 := by
  have ensures := getPte_ensures low found
  have heldNow : q.lookup source a = .swapped e := (ensures.lookup ..).trans held
  have emptyNow : q.lookup target a = .zero := (ensures.lookup ..).trans empty
  have zero : q.pte (.user target a) = .zero := by
    rwa [lookup, if_pos ensures.there] at emptyNow
  have read := (lookup_ne_zero (p := q) (by rw [heldNow]; exact Pte.noConfusion)).2
  rw [heldNow] at read
  refine ⟨?_, fun r duplicated => ?_⟩
  · rw [copyPte, found]
    simp only [userSlot_eq, zero, ← read, ne_eq, not_true_eq_false, if_false]
    rfl
  · rcases bind_eq_ok_iff.mp duplicated with ⟨offset, valid, rest⟩
    obtain rfl := swapOffset_eq valid
    split at rest
    case isFalse => cases rest
    cases rest
    refine ensures.copied (fun mm page => ?_) (fun _ _ => writePte_pte_of_ne _ _ Slot.noConfusion)
      rfl rfl (fun g => ?_) (fun e' => ?_) rfl
    · rw [writePte_lookup (p := q.setMap offset (q.memMap offset + 1)) ensures.there, held]
      by_cases own : mm = source ∧ page = a
      · rw [if_pos own]
        refine congrArg (fun other => if mm = target ∧ page = a then _ else other) ?_
        exact (by rw [own.1, own.2] : q.lookup mm page = q.lookup source a).trans heldNow
      · rw [if_neg own]
        rfl
    · rw [held]
      simp [Pte.frame, writePte, setMap]
    · rw [held]
      by_cases own : e' = offset
      · subst own
        simp [Pte.entry, writePte, setMap]
      · simp [Pte.entry, writePte, setMap, own, Ne.symm own]

/-- A page that is mapped to nothing is left alone. -/
theorem Copied.zero (empty : p.lookup target a = .zero) (held : p.lookup source a = .zero) :
    p.Copied p target source share a 1 := by
  have one : ∀ page, (a ≤ page ∧ page < a + 1) ↔ page = a := fun page => by omega
  refine ⟨fun mm page => ?_, fun _ _ => rfl, fun _ _ => .inl rfl, fun f taken => ⟨taken, ?_⟩,
    fun e => ?_, rfl⟩
  · simp only [one]
    split
    case isTrue own =>
      rw [own.1, own.2, empty, held]
      rfl
    case isFalse =>
      split
      case isTrue own =>
        rw [own.1, own.2, held]
        rfl
      case isFalse => rfl
  · rw [mappings_succ, held]
    simp [mappings, Pte.frame]
  · rw [swappings_succ, held]
    simp [swappings, Pte.entry]

/-- One step of the walk copies the page, unless there is no memory for a page table. -/
theorem copyPage_copied (low : a * pgSize < userTop) (empty : p.lookup target a = .zero)
    (done : copyPage target source share a (0, p) = .ok (0, p')) :
    p.Copied p' target source share a 1 := by
  unfold copyPage at done
  split at done
  case isTrue idle =>
    cases done
    exact .zero empty (idle.resolve_left fun failed => failed rfl)
  case isFalse busy =>
    have present : p.lookup source a ≠ .zero := fun zero => busy (.inr zero)
    rcases found : p.getPte target (a * pgSize) true with ⟨there, q⟩
    cases there with
    | false =>
        simp only [copyPte, found] at done
        cases done
    | true =>
        cases held : p.lookup source a with
        | zero => exact absurd held present
        | present f perm =>
            rcases copyPte_present share low found empty held with ⟨r, result, copied⟩
            simp only [result] at done
            cases done
            exact copied
        | swapped e =>
            obtain ⟨same, copied⟩ := copyPte_swapped share low found empty held
            simp only [same] at done
            rcases bind_eq_ok_iff.mp done with ⟨r, duplicated, result⟩
            cases result
            exact copied r duplicated

/-! ## The walk -/

theorem Copied.none (p : Pages) (target source : MmPtr) (share : Bool) (a : Nat) :
    p.Copied p target source share a 0 := by
  refine ⟨fun mm page => ?_, fun _ _ => rfl, fun _ _ => .inl rfl, fun f taken => ⟨taken, ?_⟩,
    fun e => rfl, rfl⟩
  · rw [if_neg, if_neg]
    · omega
    · omega
  · simp [mappings]

/-- The pages ahead are as they were. -/
theorem Copied.ahead (copied : p.Copied q target source share a 1) (mm : MmPtr) (page : Nat)
    (later : a + 1 ≤ page) : q.lookup mm page = p.lookup mm page := by
  rw [copied.lookup, if_neg, if_neg]
  · omega
  · omega

theorem Copied.trans (first : p.Copied q target source share a 1)
    (rest : q.Copied p' target source share (a + 1) n) :
    p.Copied p' target source share a (n + 1) := by
  have split : ∀ page, (a ≤ page ∧ page < a + (n + 1)) ↔
      (a + 1 ≤ page ∧ page < a + 1 + n) ∨ (a ≤ page ∧ page < a + 1) := fun page => by omega
  have counts : ∀ f e, q.mappings source (a + 1) n f = p.mappings source (a + 1) n f ∧
      q.swappings source (a + 1) n e = p.swappings source (a + 1) n e :=
    counts_congr fun page low _ => first.ahead source page low
  refine ⟨fun mm page => ?_, fun shmem page => (rest.shared ..).trans (first.shared ..),
    fun mm i => ?_, fun f taken => ?_, fun e => ?_, rest.maxSwapOffset.trans first.maxSwapOffset⟩
  · rw [rest.lookup]
    by_cases later : a + 1 ≤ page ∧ page < a + 1 + n
    · simp only [split, later, and_self, true_or, and_true, first.ahead _ page later.1]
    · simp only [split, later, false_or, and_false, if_false]
      exact first.lookup mm page
  · rcases rest.table mm i with same | ⟨own, missing, page, low, high, index⟩
    · rw [same]
      refine (first.table mm i).imp_right fun ⟨own, missing, page, low, high, index⟩ => ?_
      exact ⟨own, missing, page, low, by omega, index⟩
    · refine .inr ⟨own, ?_, page, by omega, by omega, index⟩
      rcases first.table mm i with same | ⟨_, missing', _⟩
      · rw [← same, missing]
      · exact missing'
  · obtain ⟨taken₁, ref₁⟩ := first.frames f taken
    obtain ⟨taken', ref'⟩ := rest.frames f taken₁
    rw [mappings_succ] at ref₁
    refine ⟨taken', ?_⟩
    rw [ref', ref₁, (counts f 0).1, mappings_succ p source a n]
    simp [mappings]
    omega
  · have one := first.memMap e
    rw [swappings_succ] at one
    rw [rest.memMap, one, (counts 0 e).2, swappings_succ p source a n]
    simp [swappings]
    omega

/-- What a walk comes to: an error that it began with, or if there is none a copy. -/
structure CopyResult (target source : MmPtr) (share : Bool) (a n : Nat) (s s' : Int × Pages) :
    Prop where
  failed : s.1 ≠ 0 → s' = s
  copied : s.1 = 0 → s'.1 = 0 → (∀ page, a ≤ page → page < a + n →
      page * pgSize < userTop ∧ s.2.lookup target page = .zero) →
    s.2.Copied s'.2 target source share a n

theorem copyResult_of_walk {s s' : Int × Pages}
    (done : walk (copyPage target source share) a n s = .ok s') :
    CopyResult target source share a n s s' := by
  refine Walk.relates (R := CopyResult target source share) (fun a s => ?_) ?_ done
  · exact ⟨fun _ => rfl, fun _ _ _ => .none ..⟩
  intro a n s s₁ s' taken rest
  have idle : s.1 ≠ 0 → s₁ = s := by
    intro failed
    rw [copyPage_failed failed] at taken
    exact (Except.ok.inj taken).symm
  refine ⟨fun failed => ?_, fun begins ends empty => ?_⟩
  · obtain rfl := idle failed
    exact rest.failed failed
  · have fine : s₁.1 = 0 := by
      by_contra failed
      rw [rest.failed failed] at ends
      exact failed ends
    obtain ⟨ret, p⟩ := s
    obtain ⟨ret₁, q⟩ := s₁
    obtain rfl : ret = 0 := begins
    obtain rfl : ret₁ = 0 := fine
    obtain ⟨low, own⟩ := empty a (Nat.le_refl a) (by omega)
    have first := copyPage_copied low own taken
    refine first.trans (rest.copied rfl ends fun page after below => ?_)
    obtain ⟨low', zero⟩ := empty page (by omega) (by omega)
    exact ⟨low', (first.ahead target page after).trans zero⟩

theorem nextPage_of_lookup (low : page * pgSize < userTop) (present : p.lookup mm page ≠ .zero) :
    p.nextPage mm page = page + 1 := by
  have there := ((read_eq low).mpr present).1
  rw [nextPage, walkNext, if_pos there]
  unfold add32 pgSize userTop at *
  omega

/-- What the loop of `copy_range` does at an address, with the error code that it returns. -/
def copyBody (target source : MmPtr) (share : Bool) (la : Nat) (s : Int × Pages) :
    Except Panic (Int × Pages) :=
  if (s.2.table source (pdx la)).isSome = true ∧ s.2.pte (userSlot source la) ≠ .zero then
    s.2.copyPte target source la share
  else .ok (0, s.2)

theorem copyBody_eq (low : page * pgSize < userTop) :
    copyBody target source share (page * pgSize) (0, p) =
      copyPage target source share page (0, p) := by
  simp only [copyBody, copyPage, read_eq low, ne_eq, not_true_eq_false, false_or, ite_not]

/-- The loop of `copy_range` is a walk over all the pages of the range. -/
theorem copyLoop_eq_walk (ok : rangeOk start stop = true)
    (enough : (stop - start) / pgSize ≤ fuel) :
    copyLoop target source share stop fuel start p =
      walk (copyPage target source share) (start / pgSize) ((stop - start) / pgSize) (0, p) := by
  obtain ⟨begins, less, length, aligned, inside⟩ := range_pages ok
  have whole : copyLoop target source share stop fuel start p =
      if (0, p).1 ≠ (0 : Int) then .ok (0, p) else
        copyLoop target source share stop fuel (start / pgSize * pgSize) (0, p).2 := by
    rw [← begins]
    rfl
  rw [length] at enough ⊢
  rw [whole]
  refine Walk.of_jumps (fun fuel page (s : Int × Pages) => if s.1 ≠ 0 then .ok s else
    copyLoop target source share stop fuel (page * pgSize) s.2)
    (fun page s => s.2.nextPage source page) ?_ ?_ ?_ less (by omega)
  · rintro fuel page ⟨ret, p⟩ below
    have low := inside page below
    by_cases failed : ret ≠ 0
    · have idle : copyPage target source share page (ret, p) = .ok (ret, p) :=
        copyPage_failed failed
      simp only [idle, ok_bind, if_pos failed, ite_self]
    · obtain rfl := not_not.mp failed
      change copyBody target source share (page * pgSize) (0, p) >>= _ = _
      rw [copyBody_eq low]
      refine congrArg (copyPage target source share page (0, p) >>= ·) ?_
      funext ⟨ret', p'⟩
      simp only [(nextPage_spec p source low).2.1, goes_on_iff p source aligned low]
      by_cases failed : ret' = 0
      · subst failed
        rfl
      · simp only [ne_eq, failed, not_false_eq_true, if_true, ite_self]
        rfl
  · exact fun page s below => (nextPage_spec s.2 source (inside page below)).1
  · rintro page s s' below done i after before _
    by_cases failed : s'.1 ≠ 0
    · exact copyPage_failed failed
    -- there is something to jump over only if there is nothing to copy
    have low := inside page below
    have missing := (nextPage_spec s.2 source low).2.2
    have zero : s.2.lookup source page = .zero := by
      by_contra present
      have next := nextPage_of_lookup low present
      omega
    rw [copyPage, if_pos (.inr zero)] at done
    cases done
    rw [copyPage, if_pos (.inr (by rw [lookup, missing i after before]; rfl))]

/-- The loop of `copy_range` comes to its end. -/
theorem copyRange_ends (ok : rangeOk start stop = true) (p : Pages) (target source : MmPtr)
    (share : Bool) :
    DoWhile (copyBody target source share) (fun la s => s.2.walkNext source la)
      (fun la s => s.1 = 0 ∧ la ≠ 0 ∧ la < stop) start (0, p)
      (p.copyRange target source start stop share) := by
  obtain ⟨aligned, _, _, less, _⟩ := rangeOk_spec ok
  rw [copyRange, if_pos ok]
  refine DoWhile.of_rounds (fun fuel la (s : Int × Pages) =>
    copyLoop target source share stop fuel la s.2) (fun la => la % pgSize = 0 ∧ la < stop)
    (fun la => (stop - 1 - la) / pgSize) (fun fuel la s => ?_)
    (fun la s _ inside more => walkNext_nearer ok s.2 source inside more.2.2) ⟨aligned, less⟩ ?_
  · change copyBody target source share la s >>= _ = _
    refine congrArg (copyBody target source share la s >>= ·) ?_
    funext ⟨ret, p'⟩
    by_cases fine : ret = 0
    · subst fine
      simp only [ne_eq, not_true_eq_false, if_false, true_and]
      rfl
    · simp only [ne_eq, fine, not_false_eq_true, if_true, false_and, if_false]
      rfl
  · have length := range_pages ok
    unfold pgSize at *
    omega

/-! ## `copy_range` does not stop -/

/-- `n` pages from `a` on can be copied: nothing is mapped there, and the swap entries have room for
as many more references as there are pages. -/
structure Copyable (p : Pages) (target source : MmPtr) (a n : Nat) : Prop where
  empty : ∀ page, a ≤ page → page < a + n → p.lookup target page = .zero
  slots : ∀ page, a ≤ page → page < a + n → ∀ e, (p.lookup source page).entry = some e → p.IsSlot e
  room : ∀ e, 0 < p.swappings source a n e → p.memMap e + p.swappings source a n e ≤ maxSwapRef

theorem Copied.copyable (copied : p.Copied q target source share a 1)
    (copyable : p.Copyable target source a (n + 1)) : q.Copyable target source (a + 1) n := by
  refine ⟨fun page low high => ?_, fun page low high e held => ?_, fun e some => ?_⟩
  · rw [copied.ahead target page low]
    exact copyable.empty page (by omega) (by omega)
  · rw [copied.ahead source page low] at held
    have isSlot := copyable.slots page (by omega) (by omega) e held
    exact ⟨isSlot.1, copied.maxSwapOffset ▸ isSlot.2⟩
  · have ahead : q.swappings source (a + 1) n e = p.swappings source (a + 1) n e :=
      (counts_congr (fun page low _ => copied.ahead source page low) 0 e).2
    have room := copyable.room e
    have one := copied.memMap e
    rw [ahead] at some ⊢
    rw [swappings_succ] at room one
    simp only [swappings, List.range'_zero, List.countP_nil, Nat.add_zero] at one
    rw [one]
    unfold swappings at *
    omega

/-- One step of the walk does not stop. -/
theorem Copyable.step (share : Bool) (low : a * pgSize < userTop)
    (copyable : p.Copyable target source a (n + 1)) :
    ∃ s, copyPage target source share a (0, p) = .ok s ∧
      (s.1 = 0 → s.2.Copyable target source (a + 1) n) := by
  have empty := copyable.empty a (Nat.le_refl a) (by omega)
  have after : ∀ s, copyPage target source share a (0, p) = .ok s → s.1 = 0 →
      s.2.Copyable target source (a + 1) n := by
    rintro ⟨ret, q⟩ done rfl
    exact (copyPage_copied low empty done).copyable copyable
  have taken : ∃ s, copyPage target source share a (0, p) = .ok s := by
    unfold copyPage
    split
    case isTrue => exact ⟨_, rfl⟩
    case isFalse busy =>
      have present : p.lookup source a ≠ .zero := fun zero => busy (.inr zero)
      rcases found : p.getPte target (a * pgSize) true with ⟨there, q⟩
      cases there with
      | false => exact ⟨(-eNoMem, q), by simp only [copyPte, found]⟩
      | true =>
          cases held : p.lookup source a with
          | zero => exact absurd held present
          | present f perm =>
              rcases copyPte_present share low found empty held with ⟨r, result, _⟩
              exact ⟨(0, r), result⟩
          | swapped e =>
              have result := (copyPte_swapped share low found empty held).1
              have same := (getPte_ensures low found).slots
              have isSlot := copyable.slots a (Nat.le_refl a) (by omega) e (by rw [held]; rfl)
              have room := copyable.room e
              rw [swappings_succ, held, Pte.entry, if_pos rfl] at room
              have valid : q.swapOffset e = .ok e := if_pos ⟨isSlot.1, same.2 ▸ isSlot.2⟩
              have less : q.memMap e < maxSwapRef := by
                rw [same.1]
                omega
              rw [swapDuplicate, valid, ok_bind, if_pos less] at result
              exact ⟨_, result⟩
  rcases taken with ⟨s, done⟩
  exact ⟨s, done, after s done⟩

/-- `copy_range` comes to its end. -/
theorem copyRange_succeeds (share : Bool) (ok : rangeOk start stop = true)
    (copyable : p.Copyable target source (start / pgSize) ((stop - start) / pgSize)) :
    ∃ s, p.copyRange target source start stop share = .ok s := by
  obtain ⟨_, _, _, less, top⟩ := rangeOk_spec ok
  rw [copyRange, if_pos ok, copyLoop_eq_walk ok (Nat.le_refl _)]
  refine Walk.succeeds (I := fun a n (s : Int × Pages) => (a + n) * pgSize ≤ userTop ∧
    (s.1 = 0 → s.2.Copyable target source a n)) (fun a n s ⟨high, ready⟩ => ?_)
    ⟨?_, fun _ => copyable⟩
  · have high' : (a + 1 + n) * pgSize ≤ userTop := by
      rwa [Nat.add_assoc, Nat.add_comm 1]
    by_cases failed : s.1 ≠ 0
    · exact ⟨s, copyPage_failed failed, high', fun fine => absurd fine failed⟩
    · have fine : s.1 = 0 := not_not.mp failed
      have low : a * pgSize < userTop := by
        unfold pgSize at *
        omega
      have state : s = (0, s.2) := by rw [← fine]
      rcases (ready fine).step share low with ⟨s', done, next⟩
      rw [state]
      exact ⟨s', done, high', next⟩
  · unfold pgSize at *
    omega

end Pages

end EdfKernel.Mm
