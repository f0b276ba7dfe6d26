import EdfKernel.User.MallocRuns
import EdfKernel.User.Requests

/-!
# What becomes of a request of any size

A request of more than `2 ^ 32 - 64` bytes is counted as one for a single header.  One for
which the break and the bytes that are asked for add up to `2 ^ 32` or more can unmap blocks
that are in use.  Every other request is served with a block that is large enough, or refused,
and leaves the blocks in use as they are.
-/

namespace EdfKernel.User

open Library Library.CyclicList

namespace Heap

variable {heap heap' : Heap} {free free' used : Finset Nat} {type : Bool}
  {brkStart a b n nu fuel x : Nat}

/-! ## The answers of the kernel -/

/-- The address is in memory that was handed out for blocks of the type. -/
def Mapped (heap : Heap) (type : Bool) (x : Nat) : Prop :=
  ∃ region ∈ heap.regions, region.type = type ∧ region.start ≤ x ∧ x < region.start + region.len

/-- Every call of `sys_brk` moves the break up, from `brk`. -/
def GrantsBrk : Nat → List (Option Nat) → Prop
  | _, [] => True
  | _, none :: _ => False
  | brk, some newbrk :: rest => brk < newbrk ∧ GrantsBrk newbrk rest

/-- The kernel hands out memory in every system call of the request. -/
def Grants (heap : Heap) : Bool → Prop
  | false => GrantsBrk heap.brk heap.answers
  | true => ∀ answer ∈ heap.answers, ∃ mem, answer = some mem ∧ mem ≠ 0

/-- The calls of `sys_brk` for `nu` headers, the break being at `brk`, unmap the address: one
of the sums wraps around to a place from which the break can be moved down. -/
def UnmapsBrk (brkStart nu : Nat) : Nat → List (Option Nat) → Nat → Prop
  | _, [], _ => False
  | _, none :: _, _ => False
  | brk, some newbrk :: rest, x =>
      if brk = 0 then
        newbrk ≠ 0 ∧ UnmapsBrk brkStart nu newbrk rest x
      else if brk + nu * headerSize < word then
        brk < newbrk ∧ UnmapsBrk brkStart nu newbrk rest x
      else
        brkStart ≤ (brk + nu * headerSize) % word ∧
          pageEnd ((brk + nu * headerSize) % word) ≤ x ∧ x < brk

/-- The request for `nu` headers unmaps the address. -/
def Unmaps (brkStart nu : Nat) (heap : Heap) : Bool → Nat → Prop
  | false, x => UnmapsBrk brkStart nu heap.brk heap.answers x
  | true, _ => False

theorem grants_brk : heap.Grants false ↔ GrantsBrk heap.brk heap.answers := Iff.rfl

theorem unmaps_brk : heap.Unmaps brkStart nu false x ↔
    UnmapsBrk brkStart nu heap.brk heap.answers x :=
  Iff.rfl

/-- What is mapped after a request. -/
def Remaps (brkStart nu : Nat) (type : Bool) (heap heap' : Heap) : Prop :=
  ∀ type' x, (heap.Unmaps brkStart nu type x → ¬heap'.Mapped type' x) ∧
    (¬heap.Unmaps brkStart nu type x → heap.Mapped type' x → heap'.Mapped type' x)

/-- What the calls for more memory tell of the answers of the kernel. -/
def Traced (brkStart nu : Nat) (type : Bool) (heap : Heap) : Bool → Heap → Prop
  | false, heap' => ¬heap.Grants type ∧ heap.Remaps brkStart nu type heap'
  | true, heap' =>
      (heap.Grants type ↔ heap'.Grants type) ∧
        (∀ x, heap.Unmaps brkStart nu type x ↔ heap'.Unmaps brkStart nu type x) ∧
        ∀ type' x, heap.Mapped type' x → heap'.Mapped type' x

section Sums

variable {brk newbrk : Nat} {rest : List (Option Nat)}

theorem unmapsBrk_of_zero :
    UnmapsBrk brkStart nu 0 (some newbrk :: rest) x ↔
      newbrk ≠ 0 ∧ UnmapsBrk brkStart nu newbrk rest x := by
  rw [UnmapsBrk.eq_3, if_pos rfl]

theorem unmapsBrk_of_lt (known : brk ≠ 0) (less : brk + nu * headerSize < word) :
    UnmapsBrk brkStart nu brk (some newbrk :: rest) x ↔
      brk < newbrk ∧ UnmapsBrk brkStart nu newbrk rest x := by
  rw [UnmapsBrk.eq_3, if_neg known, if_pos less]

theorem unmapsBrk_of_le (known : brk ≠ 0) (wraps : word ≤ brk + nu * headerSize) :
    UnmapsBrk brkStart nu brk (some newbrk :: rest) x ↔
      brkStart ≤ (brk + nu * headerSize) % word ∧
        pageEnd ((brk + nu * headerSize) % word) ≤ x ∧ x < brk := by
  rw [UnmapsBrk.eq_3, if_neg known, if_neg (not_lt.mpr wraps)]

/-- A sum that wraps around is not above the break. -/
theorem sum_mod_le_iff (positive : 0 < nu) (small : nu * headerSize ≤ word) :
    (brk + nu * headerSize) % word ≤ brk ↔ word ≤ brk + nu * headerSize := by
  unfold headerSize word at *
  omega

end Sums

theorem freeLocked_rest (freed : heap.freeLocked fuel b = .ok heap') :
    heap'.regions = heap.regions ∧ heap'.brk = heap.brk ∧ heap'.answers = heap.answers := by
  unfold freeLocked at freed
  split at freed
  · cases freed
  · split at freed
    · cases freed
    · cases freed
      unfold joinPrev joinNext
      split <;> split <;> exact ⟨rfl, rfl, rfl⟩

theorem mem_without {low high : Nat} {region : Region} :
    (∃ part ∈ without low high region, part.type = type ∧ part.start ≤ x ∧
      x < part.start + part.len) ↔
      (region.type = type ∧ region.start ≤ x ∧ x < region.start + region.len) ∧
        ¬(low ≤ x ∧ x < high) := by
  unfold without
  simp only [List.mem_filter, List.mem_cons, List.not_mem_nil, or_false, decide_eq_true_eq]
  constructor
  · rintro ⟨part, ⟨rfl | rfl, _⟩, sameType, from_, upTo⟩
    · simp only at from_ upTo
      exact ⟨⟨sameType, from_, by omega⟩, by omega⟩
    · simp only at from_ upTo
      exact ⟨⟨sameType, by omega, by omega⟩, by omega⟩
  · rintro ⟨⟨sameType, from_, upTo⟩, outside⟩
    by_cases below : x < low
    · exact ⟨_, ⟨.inl rfl, by simp only; omega⟩, sameType, from_, by simp only; omega⟩
    · exact ⟨_, ⟨.inr rfl, by simp only; omega⟩, sameType, by simp only; omega, by simp only; omega⟩

/-- What is unmapped is mapped no more, and the rest is. -/
theorem mapped_flatMap_iff {low high : Nat}
    (regions : heap'.regions = heap.regions.flatMap (without low high)) :
    heap'.Mapped type x ↔ heap.Mapped type x ∧ ¬(low ≤ x ∧ x < high) := by
  unfold Mapped
  rw [regions]
  constructor
  · rintro ⟨part, mem, inside⟩
    obtain ⟨region, memR, memPart⟩ := List.mem_flatMap.mp mem
    obtain ⟨inside, outside⟩ := mem_without.mp ⟨part, memPart, inside⟩
    exact ⟨⟨region, memR, inside⟩, outside⟩
  · rintro ⟨⟨region, memR, inside⟩, outside⟩
    obtain ⟨part, memPart, inside⟩ := mem_without.mpr ⟨inside, outside⟩
    exact ⟨part, List.mem_flatMap.mpr ⟨region, memR, memPart⟩, inside⟩

theorem traced_refused (grants : ¬heap.Grants type)
    (unmaps : ∀ x, ¬heap.Unmaps brkStart nu type x)
    (keeps : ∀ type' x, heap.Mapped type' x → heap'.Mapped type' x) :
    Traced brkStart nu type heap false heap' :=
  ⟨grants, fun type' x => ⟨fun unmapped => absurd unmapped (unmaps x), fun _ => keeps type' x⟩⟩

/-- Memory is added to what is mapped. -/
theorem mapped_cons {region : Region} (regions : heap'.regions = region :: heap.regions)
    (type' : Bool) (x : Nat) (mapped : heap.Mapped type' x) : heap'.Mapped type' x := by
  obtain ⟨region', mem, inside⟩ := mapped
  exact ⟨region', regions ▸ List.mem_cons_of_mem _ mem, inside⟩

theorem morecoreShmemLocked_traced {success : Bool}
    (grown : heap.morecoreShmemLocked fuel nu = .ok (success, heap')) :
    Traced brkStart nu true heap success heap' := by
  unfold morecoreShmemLocked at grown
  rcases sysShmem_cases heap (shmemSize nu) with
    ⟨stop, called, _⟩ | ⟨_, rest, pending, ⟨rfl, called⟩ | ⟨mem, rfl, _, called⟩⟩
  · simp only [called, bind, Except.bind] at grown
    cases grown
  · simp only [called, bind, Except.bind] at grown
    cases grown
    refine traced_refused (fun grants => ?_) (fun _ => id) fun _ _ mapped => mapped
    obtain ⟨mem, none_, _⟩ := grants none (pending ▸ List.mem_cons_self)
    cases none_
  · simp only [called, bind, Except.bind] at grown
    by_cases null : mem = 0
    · rw [if_pos null] at grown
      cases grown
      refine traced_refused (fun grants => ?_) (fun _ => id) (mapped_cons rfl)
      obtain ⟨mem', same, notNull⟩ := grants (some mem) (pending ▸ List.mem_cons_self)
      cases same
      exact notNull null
    · rw [if_neg null] at grown
      split at grown
      · cases grown
      · rename_i freed
        cases grown
        obtain ⟨regions, _, answers⟩ := freeLocked_rest freed
        refine ⟨?_, fun x => Iff.rfl, mapped_cons regions⟩
        unfold Grants
        rw [pending, answers, List.forall_mem_cons]
        exact and_iff_right ⟨mem, rfl, null⟩

theorem growBrk_traced {success : Bool} (known : heap.brk ≠ 0)
    (less : heap.brk + nu * headerSize < word)
    (grown : heap.growBrk fuel nu = .ok (success, heap')) :
    Traced brkStart nu false heap success heap' := by
  unfold growBrk at grown
  rcases sysBrk_cases heap ((heap.brk + nu * headerSize) % word) with
    ⟨stop, called, _⟩ | ⟨_, rest, pending, ⟨rfl, called⟩ | ⟨newbrk, rfl, ⟨low, called⟩ |
      ⟨noWrap, high, _, called⟩⟩⟩
  · simp only [called, bind, Except.bind] at grown
    cases grown
  · simp only [called, bind, Except.bind] at grown
    cases grown
    refine traced_refused ?_ (fun x => ?_) fun _ _ mapped => mapped
    · rw [grants_brk, pending]
      exact id
    · rw [unmaps_brk, pending]
      exact id
  · simp only [called, bind, Except.bind, if_pos low] at grown
    cases grown
    refine traced_refused ?_ (fun x => ?_) fun _ _ mapped => mapped
    · rw [grants_brk, pending]
      exact fun grants => absurd grants.1 (not_lt.mpr low)
    · rw [unmaps_brk, pending, unmapsBrk_of_lt known less]
      exact fun unmaps => absurd unmaps.1 (not_lt.mpr low)
  · have more : heap.brk < newbrk := noWrap.trans_le high
    simp only [called, bind, Except.bind, if_neg (not_le.mpr more)] at grown
    split at grown
    · cases grown
    · rename_i freed
      cases grown
      obtain ⟨regions, _, answers⟩ := freeLocked_rest freed
      refine ⟨?_, fun x => ?_, mapped_cons regions⟩
      · rw [grants_brk, grants_brk, pending]
        simp only [answers]
        exact and_iff_right more
      · rw [unmaps_brk, unmaps_brk, pending, unmapsBrk_of_lt known less]
        simp only [answers]
        exact and_iff_right more

/-! ## More memory -/

theorem doBrk_cases (heap : Heap) (brkStart : Nat) {newbrk : Nat} (low : newbrk ≤ heap.brk) :
    (∃ stop, heap.doBrk brkStart newbrk = .error stop ∧ Declined stop) ∨
      ∃ answer rest, heap.answers = answer :: rest ∧
        ((answer = none ∨ newbrk < brkStart) ∧ (∀ brk, answer = some brk → brk ≤ heap.brk) ∧
            heap.doBrk brkStart newbrk = .ok (answer, { heap with answers := rest }) ∨
          brkStart ≤ newbrk ∧ answer = some (pageEnd newbrk) ∧ pageEnd newbrk ≤ heap.brk ∧
            heap.doBrk brkStart newbrk = .ok (answer,
              { heap with
                answers := rest
                regions := heap.regions.flatMap (without (pageEnd newbrk) heap.brk) })) := by
  unfold doBrk answer
  rw [if_neg (not_lt.mpr low)]
  cases pending : heap.answers with
  | nil => exact .inl ⟨_, rfl, by decide⟩
  | cons answer rest =>
      cases answer with
      | none => exact .inr ⟨none, rest, rfl, .inl ⟨.inl rfl, by rintro _ ⟨⟩, rfl⟩⟩
      | some brk =>
          by_cases stays : newbrk < brkStart ∧ brk = heap.brk
          · refine .inr ⟨some brk, rest, rfl, .inl ⟨.inr stays.1, ?_, if_pos stays⟩⟩
            rintro _ ⟨⟩
            exact stays.2.le
          · by_cases moves : brkStart ≤ newbrk ∧ brk = pageEnd newbrk ∧ brk ≤ heap.brk
            · obtain ⟨start, rfl, below⟩ := moves
              refine .inr ⟨_, rest, rfl, .inr ⟨start, rfl, below, ?_⟩⟩
              exact (if_neg stays).trans (if_pos ⟨start, rfl, below⟩)
            · exact .inl ⟨.unfaithful, (if_neg stays).trans (if_neg moves), by decide⟩

/-- What a call for `nu` more headers may come to. -/
def Asked (brkStart nu : Nat) (type : Bool) (heap : Heap) (free used : Finset Nat) :
    Except Stop (Bool × Heap) → Prop
  | .error stop => Declined stop
  | .ok (false, heap') =>
      heap'.size = heap.size ∧ heap'.type = heap.type ∧
        Traced brkStart nu type heap false heap' ∧
        ((∀ x, ¬heap.Unmaps brkStart nu type x) →
          More heap free used type nu (.ok (false, heap')))
  | .ok (true, heap') =>
      More heap free used type nu (.ok (true, heap')) ∧ Traced brkStart nu type heap true heap'

theorem Asked.of_more {result : Except Stop (Bool × Heap)}
    (more : More heap free used type nu result)
    (traced : ∀ success heap', result = .ok (success, heap') →
      Traced brkStart nu type heap success heap') :
    Asked brkStart nu type heap free used result := by
  rcases result with stop | ⟨_ | _, heap'⟩
  · exact more
  · exact ⟨more.2.2.1, more.2.2.2.1, traced false heap' rfl, fun _ => more⟩
  · exact ⟨more, traced true heap' rfl⟩

/-- As long as nothing is unmapped the heap is kept. -/
theorem Asked.more {result : Except Stop (Bool × Heap)}
    (asked : Asked brkStart nu type heap free used result)
    (calm : ∀ x, ¬heap.Unmaps brkStart nu type x) :
    More heap free used type nu result ∧
      ∀ heap', result = .ok (true, heap') → ∀ x, ¬heap'.Unmaps brkStart nu type x := by
  rcases result with stop | ⟨_ | _, heap'⟩
  · exact ⟨asked, by rintro _ ⟨⟩⟩
  · exact ⟨asked.2.2.2 calm, by rintro _ ⟨⟩⟩
  · obtain ⟨more, _, unmaps, _⟩ := asked
    refine ⟨more, ?_⟩
    rintro _ ⟨⟩ x
    exact mt (unmaps x).mpr (calm x)

/-- A region that ends at the old break or below loses nothing above it. -/
theorem without_self {brk : Nat} {region part : Region} (mem : part ∈ without brk brk region) :
    part.type = region.type ∧ region.start ≤ part.start ∧
      part.start + part.len ≤ region.start + region.len := by
  unfold without at mem
  simp only [List.mem_filter, List.mem_cons, List.not_mem_nil, or_false, decide_eq_true_eq] at mem
  obtain ⟨rfl | rfl, positive⟩ := mem
  · exact ⟨rfl, le_rfl, by simp only; omega⟩
  · simp only at positive
    exact ⟨rfl, le_max_left .., by simp only; omega⟩

/-- The break has been moved to where it is. -/
theorem Sound.of_without (sound : heap.Sound free used) (brk : heap.BrkSound)
    (rest : List (Option Nat)) :
    { heap with
      answers := rest
      regions := heap.regions.flatMap (without heap.brk heap.brk) }.Sound free used ∧
    { heap with
      answers := rest
      regions := heap.regions.flatMap (without heap.brk heap.brk) }.BrkSound := by
  have from_ : ∀ part ∈ heap.regions.flatMap (without heap.brk heap.brk), ∃ region ∈ heap.regions,
      part.type = region.type ∧ region.start ≤ part.start ∧
        part.start + part.len ≤ region.start + region.len := by
    intro part mem
    obtain ⟨region, memR, memPart⟩ := List.mem_flatMap.mp mem
    exact ⟨region, memR, without_self memPart⟩
  refine ⟨⟨⟨sound.circular, sound.base_mem, sound.disjoint, sound.size_base, sound.type_base,
    sound.size_pos, sound.apart, fun a mem ne x low high => ?_, fun part mem false_ => ?_⟩,
    sound.freep, sound.merged⟩, fun part mem false_ => ?_, brk.above⟩
  · refine (@mapped_flatMap_iff heap _ _ _ _ _ rfl).mpr ⟨sound.covered a mem ne x low high, ?_⟩
    exact fun inside => absurd inside.2 (not_lt.mpr inside.1)
  · obtain ⟨region, memR, sameType, start, _⟩ := from_ part mem
    exact (sound.above region memR (sameType.symm.trans false_)).trans start
  · obtain ⟨region, memR, sameType, _, end_⟩ := from_ part mem
    exact end_.trans (brk.below region memR (sameType.symm.trans false_))

/-- Where the sum wraps around, the call is taken for a refusal. -/
theorem moveBrk_asked_of_wraps (sound : heap.Sound free used) (brk : heap.BrkSound)
    (known : heap.brk ≠ 0) (positive : 0 < nu) (small : nu * headerSize ≤ word)
    (wraps : word ≤ heap.brk + nu * headerSize) :
    Settles (Asked brkStart nu false heap free used) fun fuel =>
      heap.moveBrk brkStart fuel nu := by
  have low := (sum_mod_le_iff positive small).mpr wraps
  rcases doBrk_cases heap brkStart low with
    ⟨stop, called, declined⟩ | ⟨answer, rest, pending, ⟨why, below, called⟩ |
      ⟨start, rfl, below, called⟩⟩
  · have fails : Asked brkStart nu false heap free used (.error stop) := declined
    refine .const fails fun fuel => ?_
    simp only [moveBrk, called, bind, Except.bind]
  · have refused : Asked brkStart nu false heap free used
        (.ok (false, { heap with answers := rest })) := by
      refine ⟨rfl, rfl, traced_refused ?_ (fun x => ?_) fun _ _ mapped => mapped,
        fun _ => ⟨sound.withAnswers rest heap.brk, ⟨brk.below, brk.above⟩, rfl, rfl, rfl⟩⟩
      · rw [grants_brk, pending]
        cases answer with
        | none => exact id
        | some brk => exact fun grants => absurd grants.1 (not_lt.mpr (below brk rfl))
      · rw [unmaps_brk, pending]
        cases answer with
        | none => exact id
        | some brk =>
            rw [unmapsBrk_of_le known wraps]
            have less := why.resolve_left (by rintro ⟨⟩)
            exact fun unmaps => absurd unmaps.1 (not_le.mpr less)
    refine .const refused fun fuel => ?_
    cases answer with
    | none => simp only [moveBrk, called, bind, Except.bind, pure, Except.pure]
    | some brk =>
        simp only [moveBrk, called, bind, Except.bind, if_pos (below brk rfl), pure, Except.pure]
  · have unmaps : ∀ x, heap.Unmaps brkStart nu false x ↔
        pageEnd ((heap.brk + nu * headerSize) % word) ≤ x ∧ x < heap.brk := by
      intro x
      rw [unmaps_brk, pending, unmapsBrk_of_le known wraps]
      exact and_iff_right start
    have lowered : Asked brkStart nu false heap free used (.ok (false,
        { heap with
          answers := rest
          regions := heap.regions.flatMap
            (without (pageEnd ((heap.brk + nu * headerSize) % word)) heap.brk) })) := by
      refine ⟨rfl, rfl, ⟨?_, fun type' x => ?_⟩, fun calm => ?_⟩
      · rw [grants_brk, pending]
        exact fun grants => absurd grants.1 (not_lt.mpr below)
      · rw [unmaps, @mapped_flatMap_iff heap _ _ _ _ _ rfl]
        exact ⟨fun unmapped mapped => mapped.2 unmapped, fun outside mapped => ⟨mapped, outside⟩⟩
      · -- Nothing is unmapped where the break is moved to the end of the page it is at.
        have same : pageEnd ((heap.brk + nu * headerSize) % word) = heap.brk := by
          by_contra ne
          exact calm _ ((unmaps _).mpr ⟨le_rfl, lt_of_le_of_ne below ne⟩)
        rw [same]
        obtain ⟨sound', brk'⟩ := sound.of_without brk rest
        exact ⟨sound', brk', rfl, rfl, rfl⟩
    refine .const lowered fun fuel => ?_
    simp only [moveBrk, called, bind, Except.bind, if_pos below, pure, Except.pure]

theorem moveBrk_asked (sound : heap.Sound free used) (brk : heap.BrkSound)
    (known : heap.brk ≠ 0) (positive : 0 < nu) (small : nu * headerSize ≤ word) :
    Settles (Asked brkStart nu false heap free used) fun fuel =>
      heap.moveBrk brkStart fuel nu := by
  by_cases wraps : word ≤ heap.brk + nu * headerSize
  · exact moveBrk_asked_of_wraps sound brk known positive small wraps
  · have less := not_le.mp wraps
    have above := not_le.mp (mt (sum_mod_le_iff positive small).mp wraps)
    obtain ⟨enough, more⟩ := growBrk_more sound brk known small
    refine ⟨enough, fun fuel le => ?_⟩
    change Asked brkStart nu false heap free used (heap.moveBrk brkStart fuel nu)
    rw [moveBrk_of_lt above]
    exact .of_more (more fuel le) fun success heap' grown => growBrk_traced known less grown

/-- The break is looked up first. -/
theorem Asked.of_known {rest : List (Option Nat)} {start : Nat} (unknown : heap.brk = 0)
    (pending : heap.answers = some start :: rest) (notZero : start ≠ 0)
    {result : Except Stop (Bool × Heap)}
    (asked : Asked brkStart nu false { heap with answers := rest, brk := start } free used result) :
    Asked brkStart nu false heap free used result := by
  have grants : heap.Grants false ↔
      { heap with answers := rest, brk := start }.Grants false := by
    rw [grants_brk, grants_brk, pending, unknown]
    exact and_iff_right (Nat.pos_of_ne_zero notZero)
  have unmaps : ∀ x, heap.Unmaps brkStart nu false x ↔
      { heap with answers := rest, brk := start }.Unmaps brkStart nu false x := by
    intro x
    rw [unmaps_brk, unmaps_brk, pending, unknown, unmapsBrk_of_zero]
    exact and_iff_right notZero
  rcases result with stop | ⟨_ | _, heap'⟩
  · exact asked
  · obtain ⟨size, types, ⟨notGrants, remaps⟩, calms⟩ := asked
    refine ⟨size, types, ⟨mt grants.mp notGrants, fun type' x => ?_⟩, fun calm => ?_⟩
    · rw [unmaps x]
      exact remaps type' x
    · exact (calms fun x => mt (unmaps x).mpr (calm x)).of_known
  · obtain ⟨more, grants', unmaps', mapped⟩ := asked
    exact ⟨more.of_known, grants.trans grants', fun x => (unmaps x).trans (unmaps' x), mapped⟩

theorem knowBrk_asked (sound : heap.Sound free used) (brk : heap.BrkSound) (positive : 0 < nu)
    (small : nu * headerSize ≤ word) :
    Settles (Asked brkStart nu false heap free used) fun fuel =>
      heap.knowBrk fun heap => heap.moveBrk brkStart fuel nu := by
  by_cases unknown : heap.brk = 0
  · rcases sysBrkQuery_cases heap with
      ⟨stop, called, declined⟩ | ⟨answer, rest, pending, called, above⟩
    · have fails : Asked brkStart nu false heap free used (.error stop) := declined
      refine .const fails fun fuel => ?_
      simp only [knowBrk, if_pos unknown, called, bind, Except.bind]
    · have refused : answer.getD 0 = 0 → Asked brkStart nu false heap free used
          (.ok (false, { heap with answers := rest })) := by
        intro null
        refine ⟨rfl, rfl, traced_refused ?_ (fun x => ?_) fun _ _ mapped => mapped,
          fun _ => ⟨sound.withAnswers rest heap.brk, ⟨brk.below, brk.above⟩, rfl, rfl, rfl⟩⟩
        · rw [grants_brk, pending]
          cases answer with
          | none => exact id
          | some start =>
              have null : start = 0 := null
              rw [null]
              exact fun grants => absurd grants.1 (Nat.not_lt_zero _)
        · rw [unmaps_brk, pending, unknown]
          cases answer with
          | none => exact id
          | some start =>
              rw [unmapsBrk_of_zero]
              exact fun unmaps => unmaps.1 null
      cases answer with
      | none =>
          refine .const (refused rfl) fun fuel => ?_
          simp only [knowBrk, if_pos unknown, called, bind, Except.bind, pure, Except.pure]
      | some start =>
          by_cases null : start = 0
          · refine .const (refused null) fun fuel => ?_
            simp only [knowBrk, if_pos unknown, called, bind, Except.bind, if_pos null, pure,
              Except.pure]
          · have brk' : { heap with answers := rest, brk := start }.BrkSound := by
              refine ⟨fun region mem false_ => ?_, fun notZero => above start rfl notZero⟩
              have below := brk.below region mem false_
              exact below.trans (unknown ▸ Nat.zero_le start)
            have moved := @moveBrk_asked _ _ _ brkStart nu (sound.withAnswers rest start) brk' null
              positive small
            refine (moved.imp fun result asked => asked.of_known unknown pending null).shift 0
              fun fuel => ?_
            simp only [knowBrk, if_pos unknown, called, bind, Except.bind, if_neg null, Nat.add_zero]
  · refine (moveBrk_asked sound brk unknown positive small).shift 0 fun fuel => ?_
    simp only [knowBrk, if_neg unknown, Nat.add_zero]

theorem morecore_asked (sound : heap.Sound free used) (type : Bool) (brk : heap.BrkSound)
    (positive : 0 < nu) (small : nu * headerSize ≤ word) :
    Settles (Asked brkStart nu type heap free used) fun fuel =>
      heap.morecore brkStart type nu fuel := by
  cases type with
  | false => exact knowBrk_asked sound brk positive small
  | true =>
      obtain ⟨enough, more⟩ := morecoreShmemLocked_more sound brk small
      refine ⟨enough, fun fuel le => .of_more (more fuel le) fun success heap' grown => ?_⟩
      exact morecoreShmemLocked_traced grown

/-! ## The walk -/

/-- What a request for `nu` headers may come to. -/
def Comes (brkStart nu : Nat) (type : Bool) (heap : Heap) (used : Finset Nat) :
    Except Stop (Option Nat × Heap) → Prop
  | .error stop => Declined stop
  | .ok (block, heap') => heap'.answers = [] →
      (∀ a ∈ used, heap'.size a = heap.size a ∧ heap'.type a = heap.type a) ∧
        heap.Remaps brkStart nu type heap' ∧
        match block with
        | none => ¬heap.Grants type
        | some b => heap.Grants type ∧ (∀ x, ¬heap.Unmaps brkStart nu type x) ∧
            heap'.size b = nu ∧ heap'.type b = type ∧ heap'.Covered b ∧
            ∀ a ∈ used, heap'.stop a ≤ b ∨ heap'.stop b ≤ a

/-- What comes of a request once the heap has grown. -/
theorem Comes.of_grown {r len q : Nat} (grown : Grown heap heap' free free' used type r len q)
    (notFree : ∀ a ∈ used, a ∉ free) (traced : Traced brkStart nu type heap true heap')
    {result : Except Stop (Option Nat × Heap)}
    (comes : Comes brkStart nu type heap' used result) :
    Comes brkStart nu type heap used result := by
  obtain ⟨grants, unmaps, mapped⟩ := traced
  rcases result with stop | ⟨block, final⟩
  · exact comes
  · intro all
    obtain ⟨kept, remaps, rest⟩ := comes all
    refine ⟨fun a mem => ?_, fun type' x => ?_, ?_⟩
    · have inUnion := Finset.mem_union_right free mem
      have ne : a ≠ q := fun same => notFree a mem (same ▸ grown.mem)
      exact ⟨(kept a mem).1.trans (grown.size a inUnion ne),
        (kept a mem).2.trans (grown.types a inUnion)⟩
    · rw [unmaps x]
      exact ⟨(remaps type' x).1, fun stays before => (remaps type' x).2 stays (mapped type' x before)⟩
    · cases block with
      | none => exact mt grants.mp rest
      | some b =>
          obtain ⟨all, stays, rest⟩ := rest
          exact ⟨grants.mpr all, fun x => mt (unmaps x).mp (stays x), rest⟩

theorem grants_of_nil (none_ : heap.answers = []) : heap.Grants type := by
  cases type with
  | false =>
      rw [grants_brk, none_]
      exact trivial
  | true =>
      intro answer mem
      rw [none_] at mem
      cases mem

theorem not_unmaps_of_nil (none_ : heap.answers = []) : ¬heap.Unmaps brkStart nu type x := by
  cases type with
  | false =>
      rw [unmaps_brk, none_]
      exact id
  | true => exact id

theorem takeFront_regions (prevp : Nat) :
    (heap.takeFront type nu prevp b).regions = heap.regions := by
  unfold takeFront
  split <;> rfl

theorem takeFront_answers (prevp : Nat) :
    (heap.takeFront type nu prevp b).answers = heap.answers := by
  unfold takeFront
  split <;> rfl

theorem takeFront_size_self (prevp : Nat) : (heap.takeFront type nu prevp b).size b = nu := by
  unfold takeFront
  split
  · assumption
  · simp

theorem takeFront_type_self (prevp : Nat) (positive : 0 < nu) (isType : heap.type b = type) :
    (heap.takeFront type nu prevp b).type b = type := by
  unfold takeFront
  split
  · exact isType
  · have ne : b ≠ plus b nu := by
      unfold plus headerSize
      omega
    simp [Function.update_of_ne ne, isType]

/-- The headers besides those of the block and of what is left of it stay as they are. -/
theorem takeFront_of_ne (prevp : Nat) (ne : a ≠ b) (neRest : heap.size b ≠ nu → a ≠ plus b nu) :
    (heap.takeFront type nu prevp b).size a = heap.size a ∧
      (heap.takeFront type nu prevp b).type a = heap.type a := by
  unfold takeFront
  split
  · exact ⟨rfl, rfl⟩
  · rename_i rest
    simp [Function.update_of_ne ne, Function.update_of_ne (neRest rest)]

/-- The front of a free block is handed out, whatever block `prevp` is. -/
theorem Sound.comes_takeFront (sound : heap.Sound free used) (mem : b ∈ free)
    (fits : heap.Fits type nu b) (positive : 0 < nu) (prevp : Nat) :
    Comes brkStart nu type heap used (.ok (some b, heap.takeFront type nu prevp b)) := by
  have inUnion := Finset.mem_union_left used mem
  have notBase : b ≠ heap.base := by
    rintro rfl
    have small := fits.2
    rw [sound.size_base] at small
    omega
  have notUsed : ∀ a ∈ used, a ≠ b := fun a memA same =>
    Finset.disjoint_left.mp sound.disjoint mem (same ▸ memA)
  have end_ := sound.plus_size inUnion notBase
  -- The rest of the block is inside it, where no block in use is.
  have notRest : ∀ a ∈ used, heap.size b ≠ nu → a ≠ plus b nu := by
    rintro a memA less rfl
    have apart := sound.apart b inUnion _ (Finset.mem_union_right _ memA)
    have smaller := fits.2
    unfold plus headerSize at apart end_
    omega
  have kept : ∀ a ∈ used, (heap.takeFront type nu prevp b).size a = heap.size a ∧
      (heap.takeFront type nu prevp b).type a = heap.type a :=
    fun a memA => takeFront_of_ne prevp (notUsed a memA) (notRest a memA)
  have sizeB : (heap.takeFront type nu prevp b).size b = nu := takeFront_size_self prevp
  have typeB := takeFront_type_self prevp positive fits.1
  have mapped : ∀ type' x, (heap.takeFront type nu prevp b).Mapped type' x ↔
      heap.Mapped type' x := by
    intro type' x
    unfold Mapped
    rw [takeFront_regions]
  intro all
  rw [takeFront_answers] at all
  refine ⟨kept, fun type' x => ⟨?_, fun _ => (mapped _ _).mpr⟩, grants_of_nil all,
    fun x => not_unmaps_of_nil all, sizeB, typeB, fun x low high => ?_, ?_⟩
  · exact fun unmaps => absurd unmaps (not_unmaps_of_nil all)
  · rw [sizeB] at high
    have before := sound.covered b inUnion notBase x low
      (high.trans_le (Nat.add_le_add_left (Nat.mul_le_mul_right _ fits.2) b))
    rw [fits.1] at before
    rw [typeB]
    exact (mapped type x).mpr before
  · intro a memA
    have memA' := Finset.mem_union_right free memA
    have large : 1 ≤ heap.size b := positive.trans_le fits.2
    rw [stop, stop, (kept a memA).1, sizeB]
    rcases Nat.lt_or_gt_of_ne (notUsed a memA) with below | above
    · exact .inl (sound.apart a memA' b inUnion below)
    · have apart := sound.apart b inUnion a memA' above
      have smaller := fits.2
      rw [stop] at apart
      unfold plus headerSize at *
      omega

/-- Behind a block that was free when the heap grew there is a free block. -/
theorem Grown.ptr_mem {r len p q : Nat} (sound : heap.Sound free used)
    (grown : Grown heap heap' free free' used type r len q) (mem : p ∈ free) :
    heap'.ptr p ∈ free' := by
  by_cases stays : p ∈ free'
  · exact grown.sound.circular.mem p stays
  · have isNext : p = heap.ptr q := by
      by_contra ne
      exact stays (grown.keeps p mem ne)
    have notBase : p ≠ heap.base := fun same =>
      stays (same ▸ grown.base ▸ grown.sound.base_mem)
    have ne : p ≠ q := fun same => stays (same ▸ grown.mem')
    rw [grown.ptr p mem ne]
    refine grown.keeps _ (sound.circular.mem p mem) fun same => ?_
    exact sound.ptr_ne_self mem notBase (same.trans isNext.symm)

section Walk

variable {p prevp q f : Nat}

/-- A walk ends well where its stops do. -/
theorem walk_comes (sound : heap.Sound free used) (positive : 0 < nu) (mem : p ∈ free)
    (rounds : ∀ prevp' a, a ∈ free → heap.freep = some a → ¬heap.Fits type nu a →
      Settles (Comes brkStart nu type heap used) fun fuel =>
        walkWith (morecore brkStart type nu) type nu fuel heap prevp' a) :
    Settles (Comes brkStart nu type heap used) fun fuel =>
      walkWith (morecore brkStart type nu) type nu fuel heap prevp p := by
  obtain ⟨n, prevp', a, memA, stops, _, walks⟩ :=
    sound.walkWith_reaches (morecore brkStart type nu) type nu mem prevp
  refine .shift ?_ n walks
  by_cases fits : heap.Fits type nu a
  · exact (Settles.const (sound.comes_takeFront memA fits positive prevp') fun _ => rfl).shift 1
      fun fuel => walkWith_of_fits fits
  · exact rounds prevp' a memA (stops.resolve_left fits) fits

/-- Where the walk has come round, it goes on in the heap that has grown. -/
theorem walk_comes_of_round (sound : heap.Sound free used) (brk : heap.BrkSound)
    (positive : 0 < nu) (small : nu * headerSize ≤ word) (notFits : ¬heap.Fits type nu p)
    (round : heap.freep = some p)
    (goesOn : ∀ heap' free' r len q, Grown heap heap' free free' used type r len q →
      heap'.BrkSound → nu ≤ len / headerSize →
      Settles (Comes brkStart nu type heap' used) fun fuel =>
        walkWith (morecore brkStart type nu) type nu fuel heap' p (heap'.ptr p)) :
    Settles (Comes brkStart nu type heap used) fun fuel =>
      walkWith (morecore brkStart type nu) type nu fuel heap prevp p := by
  have asked := @morecore_asked _ _ _ brkStart nu sound type brk positive small
  have later : Settles (Comes brkStart nu type heap used) fun fuel =>
      afterMore (morecore brkStart type nu) type nu p fuel
        (heap.morecore brkStart type nu fuel) := by
    refine asked.bind (fun _ _ _ le grown => morecore_mono grown le)
      (fun stop fuel declined => declined) ?_
    rintro ⟨_ | _, heap'⟩ asked
    · obtain ⟨size, types, ⟨notGrants, remaps⟩, _⟩ := asked
      have refused : Comes brkStart nu type heap used (.ok (none, heap')) := fun _ =>
        ⟨fun a _ => ⟨congrFun size a, congrFun types a⟩, remaps, notGrants⟩
      exact .const refused fun fuel => rfl
    · obtain ⟨⟨free', r, len, q, grown, brk', large, _⟩, traced⟩ := asked
      have notFree : ∀ a ∈ used, a ∉ free := fun a mem =>
        Finset.disjoint_right.mp sound.disjoint mem
      exact (goesOn heap' free' r len q grown brk' large).imp fun result comes =>
        comes.of_grown grown notFree traced
  exact later.shift 1 fun fuel => walkWith_of_round notFits round

/-- The walk has passed the place of memory that fits and comes to it after another round. -/
theorem walk_comes_second (sound : heap.Sound free used) (brk : heap.BrkSound)
    (positive : 0 < nu) (small : nu * headerSize ≤ word) (mem : q ∈ free)
    (freep : heap.freep = some q) (notFits : ¬heap.Fits type nu q)
    (next : heap.Fits type nu (heap.ptr q)) :
    Settles (Comes brkStart nu type heap used) fun fuel =>
      walkWith (morecore brkStart type nu) type nu fuel heap prevp q := by
  refine walk_comes_of_round sound brk positive small notFits freep ?_
  intro heap' free' r len q' grown _ large
  have memNext := grown.ptr_mem sound mem
  by_cases fits : heap'.Fits type nu (heap'.ptr q)
  · exact (Settles.const (grown.sound.comes_takeFront memNext fits positive q) fun _ => rfl).shift 1
      fun fuel => walkWith_of_fits fits
  · -- The new memory has been joined with the block that the walk has reached.
    have here : q = q' := by
      by_contra ne
      rw [grown.ptr q mem ne] at fits
      exact fits (grown.fits (sound.circular.mem q mem) next)
    subst here
    refine walk_comes grown.sound positive memNext fun prevp' a _ round notFits' => ?_
    have at_ : q = a := Option.some.inj (grown.freep.symm.trans round)
    exact absurd (at_ ▸ (grown.fits_placed large).resolve_left fits) notFits'

/-- The walk has come round without a block that fits. -/
theorem walk_comes_first (sound : heap.Sound free used) (brk : heap.BrkSound)
    (positive : 0 < nu) (small : nu * headerSize ≤ word) (mem : f ∈ free)
    (freep : heap.freep = some f) (notFits : ¬heap.Fits type nu f) :
    Settles (Comes brkStart nu type heap used) fun fuel =>
      walkWith (morecore brkStart type nu) type nu fuel heap prevp f := by
  refine walk_comes_of_round sound brk positive small notFits freep ?_
  intro heap' free' r len q grown brk' large
  refine walk_comes grown.sound positive (grown.ptr_mem sound mem) ?_
  intro prevp' a memA round notFitsA
  obtain rfl : q = a := Option.some.inj (grown.freep.symm.trans round)
  exact walk_comes_second grown.sound brk' positive small memA round notFitsA
    ((grown.fits_placed large).resolve_right notFitsA)

theorem walk_comes_start (sound : heap.Sound free used) (brk : heap.BrkSound)
    (positive : 0 < nu) (small : nu * headerSize ≤ word) (mem : f ∈ free)
    (freep : heap.freep = some f) :
    Settles (Comes brkStart nu type heap used) fun fuel =>
      walkWith (morecore brkStart type nu) type nu fuel heap f (heap.ptr f) := by
  refine walk_comes sound positive (sound.circular.mem f mem) ?_
  intro prevp' a _ round notFits
  obtain rfl : f = a := Option.some.inj (freep.symm.trans round)
  exact walk_comes_first sound brk positive small mem freep notFits

end Walk

/-! ## Requests -/

/-- The heap between two requests, with `used` the headers of the blocks in use. -/
def Ready (heap : Heap) (used : Finset Nat) : Prop :=
  used = ∅ ∧ Program.Fresh ⟨heap, []⟩ ∨ ∃ free, heap.Sound free used ∧ heap.BrkSound

theorem ready_of_sound {program : Program} (sound : program.Sound) :
    program.heap.Ready program.headers := by
  rcases sound with fresh | ⟨free, holds⟩
  · refine .inl ⟨?_, fresh.freep, fresh.type, fresh.brk, fresh.regions, rfl⟩
    rw [Program.headers, fresh.live]
    rfl
  · exact .inr ⟨free, holds.heap, holds.brk⟩

theorem units_small (size : Nat) : 0 < units size ∧ units size * headerSize ≤ word := by
  unfold units headerSize word
  omega

theorem Comes.congr {result : Except Stop (Option Nat × Heap)}
    (comes : Comes brkStart nu type heap' ∅ result)
    (grants : heap.Grants type ↔ heap'.Grants type)
    (unmaps : ∀ x, heap.Unmaps brkStart nu type x ↔ heap'.Unmaps brkStart nu type x)
    (mapped : ∀ type' x, heap.Mapped type' x → heap'.Mapped type' x) :
    Comes brkStart nu type heap ∅ result := by
  rcases result with stop | ⟨block, final⟩
  · exact comes
  · intro all
    obtain ⟨_, remaps, rest⟩ := comes all
    refine ⟨fun a mem => absurd mem (Finset.notMem_empty a), fun type' x => ?_, ?_⟩
    · rw [unmaps x]
      exact ⟨(remaps type' x).1, fun stays before => (remaps type' x).2 stays (mapped type' x before)⟩
    · cases block with
      | none => exact mt grants.mp rest
      | some b =>
          obtain ⟨all, stays, rest⟩ := rest
          exact ⟨grants.mpr all, fun x => mt (unmaps x).mp (stays x), rest⟩

/-- A request of any size is served or refused. -/
theorem Ready.mallocAny_comes (ready : heap.Ready used) (brkStart size : Nat) (type : Bool)
    (answers : List (Option Nat)) :
    Settles (Comes brkStart (units size) type (heap.asking answers) used) fun fuel =>
      mallocAny brkStart fuel (heap.asking answers) size type := by
  obtain ⟨positive, small⟩ := units_small size
  rcases ready with ⟨rfl, fresh⟩ | ⟨free, sound, brk⟩
  · have start := @Program.Fresh.sound _ answers fresh
    have brk : (heap.asking answers).init.BrkSound := by
      refine ⟨fun region mem => ?_, fun notZero => absurd fresh.brk notZero⟩
      have none_ : region ∈ heap.regions := mem
      rw [fresh.regions] at none_
      cases none_
    have comes := @walk_comes_start _ _ _ type brkStart _ _ start brk positive small
      (Finset.mem_singleton_self _) rfl
    refine (comes.imp fun result comes => comes.congr ?_ ?_ ?_).shift 0 fun fuel => ?_
    · cases type with
      | false => exact Iff.rfl
      | true => exact Iff.rfl
    · cases type with
      | false => exact fun x => Iff.rfl
      | true => exact fun x => Iff.rfl
    · exact fun _ _ mapped => mapped
    · have freep : (heap.asking answers).freep = none := fresh.freep
      simp only [mallocAny, mallocWith, freep, Nat.add_zero]
      rfl
  · obtain ⟨first, mem, freep⟩ := sound.freep
    refine (walk_comes_start (sound.withAnswers answers heap.brk) ⟨brk.below, brk.above⟩ positive
      small mem freep).shift 0 fun fuel => ?_
    have freep' : (heap.asking answers).freep = some first := freep
    simp only [mallocAny, mallocWith, freep', Nat.add_zero]
    rfl

/-- A request leaves the blocks in use as they are and mapped: memory that the break was moved
over is, as long as the break is not below it.  A block that is handed out has the bytes asked
for behind its header, in memory of its type where no block in use is. -/
structure Respects (heap : Heap) (used : Finset Nat) (size : Nat) (type : Bool)
    (block : Option Nat) (heap' : Heap) : Prop where
  kept : ∀ a ∈ used, heap'.size a = heap.size a ∧ heap'.type a = heap.type a ∧ heap'.Covered a
  block : ∀ b, block = some b → size + headerSize ≤ heap'.size b * headerSize ∧
    heap'.type b = type ∧ heap'.Covered b ∧ ∀ a ∈ used, heap'.stop a ≤ b ∨ heap'.stop b ≤ a

/-- A byte of a block in use is among what the request unmaps. -/
def Cuts (brkStart nu : Nat) (type : Bool) (heap : Heap) (used : Finset Nat) : Prop :=
  ∃ a ∈ used, ∃ x, a ≤ x ∧ x < plus a (heap.size a) ∧ heap.Unmaps brkStart nu type x

theorem Ready.covered (ready : heap.Ready used) (mem : a ∈ used) : heap.Covered a := by
  rcases ready with ⟨rfl, _⟩ | ⟨free, sound, _⟩
  · exact absurd mem (Finset.notMem_empty a)
  · exact sound.covered a (Finset.mem_union_right free mem) (sound.ne_base mem)

/-- Every request comes back.  It hands out a block that is large enough or none, and leaves
the blocks in use alone, if and only if its bytes and those of a header are counted without
wrapping around, or the kernel refuses it, and no wrapped sum of the break and what is asked
for unmaps a block in use. -/
theorem Ready.respects_iff (ready : heap.Ready used) {size : Nat} (inRange : size < word)
    (brkStart : Nat) (type : Bool) (answers : List (Option Nat)) :
    (∃ enough, ∀ fuel ≥ enough,
      mallocAny brkStart fuel (heap.asking answers) size type ≠ .error .hangs ∧
        mallocAny brkStart fuel (heap.asking answers) size type ≠ .error .nullPointer) ∧
    ∀ fuel block heap', mallocAny brkStart fuel (heap.asking answers) size type =
        .ok (block, heap') → heap'.answers = [] →
      (Respects heap used size type block heap' ↔
        (size + headerSize - 1 < word ∨ ¬(heap.asking answers).Grants type) ∧
          ¬Cuts brkStart (units size) type (heap.asking answers) used) := by
  have settles := ready.mallocAny_comes brkStart size type answers
  refine ⟨?_, fun fuel block heap' called all => ?_⟩
  · obtain ⟨enough, comes⟩ := settles
    refine ⟨enough, fun fuel le => ?_⟩
    have came : Comes brkStart (units size) type (heap.asking answers) used
        (mallocAny brkStart fuel (heap.asking answers) size type) := comes fuel le
    cases called : mallocAny brkStart fuel (heap.asking answers) size type with
    | error stop =>
        rw [called] at came
        exact ⟨fun same => came.1 (Except.error.inj same), fun same => came.2 (Except.error.inj same)⟩
    | ok result => exact ⟨by rintro ⟨⟩, by rintro ⟨⟩⟩
  · obtain ⟨kept, remaps, rest⟩ := settles.of_ok (mallocAny_steady _ _ _ _) called all
    constructor
    · rintro ⟨still, large⟩
      constructor
      · by_contra wraps
        obtain ⟨tooLarge, grants⟩ := not_or.mp wraps
        cases block with
        | none => exact rest (not_not.mp grants)
        | some b =>
            -- A request that is counted modulo the address space is one for a header alone.
            have bytes := (large b rfl).1
            rw [rest.2.2.1] at bytes
            unfold units headerSize word at *
            omega
      · rintro ⟨a, mem, x, low, high, unmaps⟩
        refine (remaps (heap'.type a) x).1 unmaps ((still a mem).2.2 x low ?_)
        rwa [(still a mem).1]
    · rintro ⟨counted, notCut⟩
      have covered : ∀ a ∈ used, heap'.Covered a := by
        intro a mem x low high
        rw [(kept a mem).1] at high
        rw [(kept a mem).2]
        exact (remaps _ x).2 (fun unmaps => notCut ⟨a, mem, x, low, high, unmaps⟩)
          (ready.covered mem x low high)
      refine ⟨fun a mem => ⟨(kept a mem).1, (kept a mem).2, covered a mem⟩, ?_⟩
      rintro b rfl
      obtain ⟨grants, _, sizeB, typeB, coveredB, apart⟩ := rest
      refine ⟨?_, typeB, coveredB, apart⟩
      rw [sizeB]
      exact (Program.units_spec (counted.resolve_right (not_not.mpr grants))).2.2

end Heap

end EdfKernel.User
