import EdfKernel.Library.Rounds
import EdfKernel.User.HeapGrowth

/-!
# The loop of `malloc_locked`

A walk along the circle that meets no block that fits asks for more memory when it has come
round, and goes on from the block it has reached.  The new memory may have taken that block in.
-/

namespace EdfKernel.User

open Library Library.CyclicList Heap

variable {heap heap' : Heap} {free free' used : Finset Nat} {type : Bool} {p q r f nu len fuel : Nat}

namespace Heap

/-! ## More memory -/

/-- What a call for `nu` more headers may come to. -/
def More (heap : Heap) (free used : Finset Nat) (type : Bool) (nu : Nat) :
    Except Stop (Bool × Heap) → Prop
  | .error stop => Declined stop
  | .ok (false, heap') =>
      heap'.Sound free used ∧ heap'.BrkSound ∧ heap'.size = heap.size ∧ heap'.type = heap.type ∧
        heap'.base = heap.base
  | .ok (true, heap') =>
      ∃ free' r len q, Grown heap heap' free free' used type r len q ∧ heap'.BrkSound ∧
        nu ≤ len / headerSize ∧ (heap.ptr q ∉ free' → type = true) ∧
        (type = true → len = shmemSize nu ∧ heap.answers = some r :: heap'.answers)

theorem le_shmemSize (small : nu * headerSize ≤ word) (positive : 0 < shmemSize nu) :
    nu ≤ shmemSize nu / headerSize := by
  unfold shmemSize headerSize word pgSize at *
  omega

theorem Sound.withAnswers (sound : heap.Sound free used) (rest : List (Option Nat)) (brk : Nat) :
    { heap with answers := rest, brk := brk }.Sound free used :=
  ⟨sound.toLaid.congr ⟨fun _ _ => rfl, fun _ _ => rfl, fun _ _ => rfl, rfl, rfl⟩, sound.freep,
    sound.merged⟩

/-- Neither the answers nor the break are part of what the headers say. -/
theorem Grown.congr {rest : List (Option Nat)} {brk : Nat}
    (grown : Grown { heap with answers := rest, brk := brk } heap' free free' used type r len q) :
    Grown heap heap' free free' used type r len q :=
  ⟨grown.sound, grown.mem, grown.mem', grown.between, grown.freep, grown.keeps, grown.absorbed,
    grown.ptr, grown.size, grown.grows, grown.types, grown.placed, grown.base⟩

/-- A shared segment that is handed out and not used. -/
theorem Sound.withShared (sound : heap.Sound free used) (rest : List (Option Nat))
    (start len : Nat) :
    { heap with answers := rest, regions := ⟨start, len, true⟩ :: heap.regions }.Sound free used where
  circular := sound.circular
  base_mem := sound.base_mem
  disjoint := sound.disjoint
  size_base := sound.size_base
  type_base := sound.type_base
  size_pos := sound.size_pos
  apart := sound.apart
  covered a mem ne := (sound.covered a mem ne).congr rfl rfl fun _ memR =>
    List.mem_cons_of_mem _ memR
  above := by
    rintro region memR false_
    rcases List.mem_cons.mp memR with rfl | memR
    · cases false_
    · exact sound.above region memR false_
  freep := sound.freep
  merged := sound.merged

theorem BrkSound.withShared (brk : heap.BrkSound) {regions : List Region}
    (same : ∀ region ∈ regions, region.type = false → region ∈ heap.regions)
    (base : heap'.base = heap.base) (sameBrk : heap'.brk = heap.brk)
    (sameRegions : heap'.regions = regions) : heap'.BrkSound where
  below region mem false_ := by
    rw [sameBrk]
    exact brk.below region (same region (sameRegions ▸ mem) false_) false_
  above := by
    rw [sameBrk, base]
    exact brk.above

theorem morecoreShmemLocked_more (sound : heap.Sound free used) (brk : heap.BrkSound)
    (small : nu * headerSize ≤ word) :
    ∃ enough, ∀ fuel ≥ enough,
      More heap free used true nu (heap.morecoreShmemLocked fuel nu) := by
  unfold morecoreShmemLocked
  have old : ∀ mem len, ∀ region ∈ (⟨mem, len, true⟩ : Region) :: heap.regions,
      region.type = false → region ∈ heap.regions := by
    rintro mem len region memR false_
    rcases List.mem_cons.mp memR with rfl | memR
    · cases false_
    · exact memR
  rcases sysShmem_cases heap (shmemSize nu) with
    ⟨stop, called, declined⟩ | ⟨_, rest, pending, ⟨rfl, called⟩ | ⟨mem, rfl, vacant, called⟩⟩
  · refine ⟨0, fun fuel _ => ?_⟩
    simp only [called, bind, Except.bind]
    exact declined
  · refine ⟨0, fun fuel _ => ?_⟩
    simp only [called, bind, Except.bind]
    exact ⟨sound.withAnswers rest heap.brk, ⟨brk.below, brk.above⟩, rfl, rfl, rfl⟩
  · by_cases null : mem = 0
    · refine ⟨0, fun fuel _ => ?_⟩
      simp only [called, bind, Except.bind, if_pos null]
      exact ⟨sound.withShared rest mem _, brk.withShared (old mem _) rfl rfl rfl, rfl, rfl, rfl⟩
    · obtain ⟨heap', free', q, grown, regions, sameBrk, answers, enough, calls⟩ :=
        (sound.withAnswers rest heap.brk).grow true vacant (by rintro ⟨⟩)
      refine ⟨enough, fun fuel le => ?_⟩
      have freed := calls fuel le
      unfold supplied at freed
      simp only [called, bind, Except.bind, if_neg null, freed]
      refine ⟨free', mem, shmemSize nu, q, grown.congr, ?_, ?_, fun _ => rfl,
        fun _ => ⟨rfl, ?_⟩⟩
      · exact brk.withShared (old mem _) grown.base sameBrk regions
      · exact le_shmemSize small vacant.1
      · rw [pending, answers]

theorem growBrk_more (sound : heap.Sound free used) (brk : heap.BrkSound)
    (above : heap.brk ≠ 0) (small : nu * headerSize ≤ word) :
    ∃ enough, ∀ fuel ≥ enough, More heap free used false nu (heap.growBrk fuel nu) := by
  unfold growBrk
  rcases sysBrk_cases heap ((heap.brk + nu * headerSize) % word) with
    ⟨stop, called, declined⟩ | ⟨_, rest, _, ⟨_, called⟩ | ⟨newbrk, _, ⟨low, called⟩ |
      ⟨noWrap, high, vacant, called⟩⟩⟩
  · refine ⟨0, fun fuel _ => ?_⟩
    simp only [called, bind, Except.bind]
    exact declined
  · refine ⟨0, fun fuel _ => ?_⟩
    simp only [called, bind, Except.bind]
    exact ⟨sound.withAnswers rest heap.brk, ⟨brk.below, brk.above⟩, rfl, rfl, rfl⟩
  · refine ⟨0, fun fuel _ => ?_⟩
    simp only [called, bind, Except.bind, if_pos low]
    exact ⟨sound.withAnswers rest heap.brk, ⟨brk.below, brk.above⟩, rfl, rfl, rfl⟩
  · have more : heap.brk < newbrk := noWrap.trans_le high
    obtain ⟨heap', free', q, grown, regions, sameBrk, answers, enough, calls⟩ :=
      (sound.withAnswers rest heap.brk).grow false vacant fun _ => brk.above above
    refine ⟨enough, fun fuel le => ?_⟩
    have freed := calls fuel le
    unfold supplied at freed
    simp only [called, bind, Except.bind, if_neg (not_le.mpr more), freed]
    have stays : heap.ptr q ∈ free' := by
      by_contra gone
      -- Nothing that the break was moved over before is above the old break.
      obtain ⟨type, end_⟩ := grown.absorbed gone
      have memNext := Finset.mem_union_left used (sound.circular.mem q grown.mem)
      have notBase : heap.ptr q ≠ heap.base := by
        intro isBase
        have low := brk.above above
        simp only at end_
        unfold headerSize at low
        omega
      have inside := lt_stop heap (heap.ptr q)
      have below := sound.stop_le_brk brk memNext notBase type
      simp only at end_
      omega
    refine ⟨free', heap.brk, newbrk - heap.brk, q, ?_, ?_, ?_, fun gone => absurd stays gone, ?_⟩
    · exact ⟨grown.sound.withAnswers heap'.answers newbrk, grown.mem, grown.mem', grown.between,
        grown.freep, grown.keeps, grown.absorbed, grown.ptr, grown.size, grown.grows,
        grown.types, grown.placed, grown.base⟩
    · constructor
      · intro region mem false_
        simp only [regions, List.mem_cons] at mem ⊢
        rcases mem with rfl | mem
        · simp only
          omega
        · exact (brk.below region mem false_).trans more.le
      · intro _
        have low := brk.above above
        simp only [grown.base]
        omega
    · have whole := vacant.2.2.1
      unfold headerSize word at *
      omega
    · rintro ⟨⟩

/-- The break is looked up first. -/
theorem More.of_known {rest : List (Option Nat)} {start : Nat}
    {result : Except Stop (Bool × Heap)}
    (more : More { heap with answers := rest, brk := start } free used false nu result) :
    More heap free used false nu result := by
  rcases result with stop | ⟨_ | _, heap'⟩
  · exact more
  · exact more
  · obtain ⟨free', r, len, q, grown, brk', large, stays, _⟩ := more
    exact ⟨free', r, len, q, grown.congr, brk', large, stays, by rintro ⟨⟩⟩

theorem morecoreBrkLocked_more (sound : heap.Sound free used) (brk : heap.BrkSound)
    (small : nu * headerSize ≤ word) :
    ∃ enough, ∀ fuel ≥ enough,
      More heap free used false nu (heap.morecoreBrkLocked fuel nu) := by
  unfold morecoreBrkLocked
  by_cases unknown : heap.brk = 0
  · simp only [if_pos unknown]
    rcases sysBrkQuery_cases heap with ⟨stop, called, declined⟩ | ⟨answer, rest, _, called, above⟩
    · refine ⟨0, fun fuel _ => ?_⟩
      simp only [called, bind, Except.bind]
      exact declined
    · have same := sound.withAnswers rest heap.brk
      cases answer with
      | none =>
          refine ⟨0, fun fuel _ => ?_⟩
          simp only [called, bind, Except.bind]
          exact ⟨same, ⟨brk.below, brk.above⟩, rfl, rfl, rfl⟩
      | some start =>
          by_cases null : start = 0
          · refine ⟨0, fun fuel _ => ?_⟩
            simp only [called, bind, Except.bind, if_pos null]
            exact ⟨same, ⟨brk.below, brk.above⟩, rfl, rfl, rfl⟩
          · have brk' : { heap with answers := rest, brk := start }.BrkSound := by
              refine ⟨fun region mem false_ => ?_, fun notZero => above start rfl notZero⟩
              have below := brk.below region mem false_
              exact below.trans (unknown ▸ Nat.zero_le start)
            obtain ⟨enough, calls⟩ := growBrk_more (sound.withAnswers rest start) brk' null small
            refine ⟨enough, fun fuel le => ?_⟩
            simp only [called, bind, Except.bind, if_neg null]
            exact (calls fuel le).of_known
  · simp only [if_neg unknown]
    exact growBrk_more sound brk unknown small

theorem morecoreLocked_more (sound : heap.Sound free used) (type : Bool) (brk : heap.BrkSound)
    (small : nu * headerSize ≤ word) :
    ∃ enough, ∀ fuel ≥ enough,
      More heap free used type nu (heap.morecoreLocked type fuel nu) := by
  cases type with
  | false => exact morecoreBrkLocked_more sound brk small
  | true => exact morecoreShmemLocked_more sound brk small

/-! ## More rounds change nothing -/

theorem growBrk_mono {fuel' : Nat} {result : Bool × Heap}
    (grown : heap.growBrk fuel nu = .ok result) (le : fuel ≤ fuel') :
    heap.growBrk fuel' nu = .ok result := by
  unfold growBrk at grown ⊢
  cases called : heap.sysBrk ((heap.brk + nu * headerSize) % word) with
  | error stop => simp [called, bind, Except.bind] at grown
  | ok answered =>
      obtain ⟨stored, heap₁⟩ := answered
      cases stored with
      | none => simpa only [called, bind, Except.bind] using grown
      | some newbrk =>
          simp only [called, bind, Except.bind] at grown ⊢
          split at grown
          · rwa [if_pos ‹_›]
          · rw [if_neg ‹_›]
            split at grown
            · cases grown
            · rename_i freed
              simp only [freeLocked_mono freed le]
              exact grown

theorem morecoreLocked_mono {fuel' : Nat} {result : Bool × Heap}
    (grown : heap.morecoreLocked type fuel nu = .ok result) (le : fuel ≤ fuel') :
    heap.morecoreLocked type fuel' nu = .ok result := by
  cases type with
  | false =>
      change heap.morecoreBrkLocked fuel nu = .ok result at grown
      change heap.morecoreBrkLocked fuel' nu = .ok result
      unfold morecoreBrkLocked at grown ⊢
      by_cases unknown : heap.brk = 0
      · simp only [if_pos unknown] at grown ⊢
        cases called : heap.sysBrkQuery with
        | error stop => simp [called, bind, Except.bind] at grown
        | ok answered =>
            obtain ⟨stored, heap₁⟩ := answered
            cases stored with
            | none => simpa only [called, bind, Except.bind] using grown
            | some brk =>
                simp only [called, bind, Except.bind] at grown ⊢
                split at grown
                · rwa [if_pos ‹_›]
                · rw [if_neg ‹_›]
                  exact growBrk_mono grown le
      · simp only [if_neg unknown] at grown ⊢
        exact growBrk_mono grown le
  | true =>
      change heap.morecoreShmemLocked fuel nu = .ok result at grown
      change heap.morecoreShmemLocked fuel' nu = .ok result
      unfold morecoreShmemLocked at grown ⊢
      cases called : heap.sysShmem (shmemSize nu) with
      | error stop => simp [called, bind, Except.bind] at grown
      | ok answered =>
          obtain ⟨stored, heap₁⟩ := answered
          cases stored with
          | none => simpa only [called, bind, Except.bind] using grown
          | some mem =>
              simp only [called, bind, Except.bind] at grown ⊢
              split at grown
              · rwa [if_pos ‹_›]
              · rw [if_neg ‹_›]
                split at grown
                · cases grown
                · rename_i freed
                  simp only [freeLocked_mono freed le]
                  exact grown

end Heap

/-! ## The walk -/

/-- The loop of `malloc_locked`, with the function that it calls for more memory. -/
def walkWith (more : Nat → Heap → Except Stop (Bool × Heap)) (type : Bool) (nunits : Nat) :
    Nat → Heap → Nat → Nat → Except Stop (Option Nat × Heap)
  | 0, _, _, _ => .error .hangs
  | fuel + 1, heap, prevp, p =>
      if heap.Fits type nunits p then
        .ok (some p, heap.takeFront type nunits prevp p)
      else if heap.freep = some p then
        match more fuel heap with
        | .error stop => .error stop
        | .ok (false, heap) => .ok (none, heap)
        | .ok (true, heap) => walkWith more type nunits fuel heap p (heap.ptr p)
      else
        walkWith more type nunits fuel heap p (heap.ptr p)

/-- `malloc_locked` with the function that it calls for more memory. -/
def mallocWith (more : Nat → Heap → Except Stop (Bool × Heap)) (type : Bool) (nunits fuel : Nat)
    (heap : Heap) : Except Stop (Option Nat × Heap) :=
  match heap.freep with
  | some prevp => walkWith more type nunits fuel heap prevp (heap.ptr prevp)
  | none => walkWith more type nunits fuel heap.init heap.base (heap.init.ptr heap.base)

variable {more more' : Nat → Heap → Except Stop (Bool × Heap)} {prevp : Nat}

theorem walk_eq_walkWith (heap : Heap) (prevp p : Nat) : walk type nu fuel heap prevp p =
    walkWith (fun fuel heap => heap.morecoreLocked type fuel nu) type nu fuel heap prevp p := by
  induction fuel generalizing heap prevp p with
  | zero => rfl
  | succ fuel ih =>
      rw [walk, walkWith]
      rcases heap.morecoreLocked type fuel nu with _ | ⟨_ | _, _⟩
      · simp only [ih]
      · simp only [ih]
      · simp only [ih]

theorem mallocLocked_eq_mallocWith (fuel : Nat) (heap : Heap) (size : Nat) (type : Bool) :
    mallocLocked fuel heap size type =
      mallocWith (fun fuel heap => heap.morecoreLocked type fuel (units size)) type (units size)
        fuel heap := by
  unfold mallocLocked mallocWith
  cases heap.freep with
  | none => exact walk_eq_walkWith ..
  | some first => exact walk_eq_walkWith ..

theorem walkWith_of_fits (fits : heap.Fits type nu p) :
    walkWith more type nu (fuel + 1) heap prevp p =
      .ok (some p, heap.takeFront type nu prevp p) := by
  rw [walkWith]
  exact if_pos fits

theorem walkWith_of_passes (notFits : ¬heap.Fits type nu p) (notRound : heap.freep ≠ some p) :
    walkWith more type nu (fuel + 1) heap prevp p =
      walkWith more type nu fuel heap p (heap.ptr p) := by
  rw [walkWith, if_neg notFits, if_neg notRound]

/-- What the loop does with the answer for more memory. -/
def afterMore (more : Nat → Heap → Except Stop (Bool × Heap)) (type : Bool) (nunits p fuel : Nat) :
    Except Stop (Bool × Heap) → Except Stop (Option Nat × Heap)
  | .error stop => .error stop
  | .ok (false, heap) => .ok (none, heap)
  | .ok (true, heap) => walkWith more type nunits fuel heap p (heap.ptr p)

theorem walkWith_of_round (notFits : ¬heap.Fits type nu p) (round : heap.freep = some p) :
    walkWith more type nu (fuel + 1) heap prevp p =
      afterMore more type nu p fuel (more fuel heap) := by
  rw [walkWith, if_neg notFits, if_pos round]
  rcases more fuel heap with _ | ⟨_ | _, _⟩
  · rfl
  · rfl
  · rfl

/-- A walk with a better supply of memory and more rounds comes to the same result. -/
theorem walkWith_mono {fuel' : Nat} {result : Option Nat × Heap}
    (better : ∀ (fuel fuel' : Nat) (heap : Heap) (answered : Bool × Heap), fuel ≤ fuel' →
      more fuel heap = .ok answered → more' fuel' heap = .ok answered)
    (walked : walkWith more type nu fuel heap prevp p = .ok result) (le : fuel ≤ fuel') :
    walkWith more' type nu fuel' heap prevp p = .ok result := by
  induction fuel generalizing heap prevp p fuel' with
  | zero => cases walked
  | succ fuel ih =>
      obtain ⟨extra, rfl⟩ := Nat.exists_eq_add_of_le' le
      have less : fuel ≤ extra + fuel := Nat.le_add_left ..
      rw [← Nat.add_assoc]
      by_cases fits : heap.Fits type nu p
      · rw [walkWith_of_fits fits] at walked ⊢
        exact walked
      · by_cases round : heap.freep = some p
        · rw [walkWith_of_round fits round] at walked ⊢
          cases grown : more fuel heap with
          | error stop =>
              rw [grown] at walked
              cases walked
          | ok answered =>
              obtain ⟨success, heap₁⟩ := answered
              rw [better _ _ _ _ less grown]
              rw [grown] at walked
              cases success with
              | false => exact walked
              | true => exact ih walked less
        · rw [walkWith_of_passes fits round] at walked ⊢
          exact ih walked less

theorem mallocWith_mono {fuel' : Nat} {result : Option Nat × Heap}
    (better : ∀ (fuel fuel' : Nat) (heap : Heap) (answered : Bool × Heap), fuel ≤ fuel' →
      more fuel heap = .ok answered → more' fuel' heap = .ok answered)
    (served : mallocWith more type nu fuel heap = .ok result) (le : fuel ≤ fuel') :
    mallocWith more' type nu fuel' heap = .ok result := by
  unfold mallocWith at served ⊢
  split at served
  · exact walkWith_mono better served le
  · exact walkWith_mono better served le

/-- A walk passes by the blocks at which it does not stop. -/
theorem walkWith_iterate (prevp : Nat) {n : Nat}
    (passes : ∀ m < n, ¬(heap.Fits type nu (heap.ptr^[m] p) ∨ heap.freep = some (heap.ptr^[m] p))) :
    ∃ prevp', (n = 0 ∧ prevp' = prevp ∨ ∃ m, n = m + 1 ∧ prevp' = heap.ptr^[m] p) ∧
      ∀ fuel, walkWith more type nu (fuel + n) heap prevp p =
        walkWith more type nu fuel heap prevp' (heap.ptr^[n] p) := by
  induction n generalizing prevp p with
  | zero => exact ⟨prevp, .inl ⟨rfl, rfl⟩, fun fuel => rfl⟩
  | succ n ih =>
      have here : ¬(heap.Fits type nu p ∨ heap.freep = some p) := passes 0 n.succ_pos
      obtain ⟨prevp', which, walks⟩ := @ih (heap.ptr p) p
        fun m less => passes (m + 1) (Nat.succ_lt_succ less)
      refine ⟨prevp', .inr ⟨n, rfl, ?_⟩, fun fuel => ?_⟩
      · rcases which with ⟨rfl, rfl⟩ | ⟨m, rfl, rfl⟩
        · rfl
        · rfl
      · rw [Function.iterate_succ_apply, ← walks fuel, ← Nat.add_assoc,
          walkWith_of_passes (fun fits => here (.inl fits)) fun round => here (.inr round)]

/-- A walk comes to a block that fits or round to `freep`. -/
theorem Heap.Sound.walkWith_reaches (sound : heap.Sound free used)
    (more : Nat → Heap → Except Stop (Bool × Heap)) (type : Bool) (nu : Nat) (mem : p ∈ free)
    (prevp : Nat) :
    ∃ n prevp' a, a ∈ free ∧ (heap.Fits type nu a ∨ heap.freep = some a) ∧
      (prevp' = prevp ∧ a = p ∨ prevp' ∈ free ∧ heap.ptr prevp' = a) ∧
      ∀ fuel, walkWith more type nu (fuel + n) heap prevp p =
        walkWith more type nu fuel heap prevp' a := by
  obtain ⟨first, memFirst, freep⟩ := sound.freep
  obtain ⟨n, stops, passes⟩ := sound.circular.exists_first
    (fun a => heap.Fits type nu a ∨ heap.freep = some a) mem memFirst (.inr freep)
  obtain ⟨prevp', which, walks⟩ := @walkWith_iterate _ _ _ _ more prevp _ passes
  refine ⟨n, prevp', _, sound.circular.iterate_mem mem n, stops, ?_, walks⟩
  rcases which with ⟨rfl, rfl⟩ | ⟨m, rfl, rfl⟩
  · exact .inl ⟨rfl, rfl⟩
  · exact .inr ⟨sound.circular.iterate_mem mem m, (Function.iterate_succ_apply' ..).symm⟩

/-- What a walk for `nu` headers relies on where it asks for more memory, as long as the heap is
`Calm`. -/
structure Supplies (more : Nat → Heap → Except Stop (Bool × Heap)) (type : Bool) (nu : Nat)
    (Calm : Heap → Prop) : Prop where
  steady : ∀ heap, Steady fun fuel => more fuel heap
  init : ∀ {heap}, Calm heap → Calm heap.init
  more : ∀ {heap free used}, heap.Sound free used → heap.BrkSound → Calm heap →
    Settles (fun result => More heap free used type nu result ∧
      ∀ heap', result = .ok (true, heap') → Calm heap') fun fuel => more fuel heap

theorem morecoreLocked_supplies (type : Bool) (small : nu * headerSize ≤ word) :
    Supplies (fun fuel heap => heap.morecoreLocked type fuel nu) type nu fun _ => True where
  steady _ _ _ _ le grown := morecoreLocked_mono grown le
  init calm := calm
  more sound brk _ := by
    obtain ⟨enough, more⟩ := morecoreLocked_more sound type brk small
    exact ⟨enough, fun fuel le => ⟨more fuel le, fun _ _ => trivial⟩⟩

/-- What a request for `nu` headers may come to. -/
def Served (heap : Heap) (used : Finset Nat) (type : Bool) (nu : Nat) :
    Except Stop (Option Nat × Heap) → Prop
  | .error stop => Declined stop
  | .ok (block, heap') =>
      heap'.BrkSound ∧ heap'.base = heap.base ∧
        (∀ a ∈ used, heap'.size a = heap.size a ∧ heap'.type a = heap.type a) ∧
        ∃ free', match block with
          | none => heap'.Sound free' used
          | some b => heap'.Sound free' (insert b used) ∧ b ∉ used ∧ heap'.size b = nu ∧
              heap'.type b = type

theorem Served.congr {result : Except Stop (Option Nat × Heap)}
    (served : Served heap' used type nu result) (base : heap'.base = heap.base)
    (kept : ∀ a ∈ used, heap'.size a = heap.size a ∧ heap'.type a = heap.type a) :
    Served heap used type nu result := by
  cases result with
  | error stop => exact served
  | ok pair =>
      obtain ⟨brk, sameBase, same, rest⟩ := served
      exact ⟨brk, sameBase.trans base, fun a mem => ⟨(same a mem).1.trans (kept a mem).1,
        (same a mem).2.trans (kept a mem).2⟩, rest⟩

theorem Heap.Grown.notFits (grown : Grown heap heap' free free' used type r len q) (mem : p ∈ free)
    (ne : p ≠ q) (notFits : ¬heap.Fits type nu p) : ¬heap'.Fits type nu p := by
  have inUnion := Finset.mem_union_left used mem
  unfold Fits at notFits ⊢
  rwa [grown.size p inUnion ne, grown.types p inUnion]

theorem Heap.Grown.fits (grown : Grown heap heap' free free' used type r len q) (mem : p ∈ free)
    (fits : heap.Fits type nu p) : heap'.Fits type nu p := by
  have inUnion := Finset.mem_union_left used mem
  refine ⟨(grown.types p inUnion).trans fits.1, fits.2.trans ?_⟩
  by_cases at_ : p = q
  · exact at_ ▸ grown.grows
  · exact (grown.size p inUnion at_).ge

/-- The new memory is the next block or part of the block before it. -/
theorem Heap.Grown.fits_placed (grown : Grown heap heap' free free' used type r len q)
    (large : nu ≤ len / headerSize) :
    heap'.Fits type nu (heap'.ptr q) ∨ heap'.Fits type nu q := by
  rcases grown.placed with ⟨at_, fits⟩ | fits
  · exact .inl ⟨at_ ▸ fits.1, at_ ▸ large.trans fits.2⟩
  · exact .inr ⟨fits.1, large.trans fits.2⟩

/-- The same request after the heap has grown. -/
theorem Served.of_grown (grown : Grown heap heap' free free' used type r len q)
    (notFree : ∀ a ∈ used, a ∉ free) {result : Except Stop (Option Nat × Heap)}
    (served : Served heap' used type nu result) : Served heap used type nu result := by
  refine served.congr grown.base fun a mem => ?_
  have inUnion := Finset.mem_union_right free mem
  have ne : a ≠ q := fun same => notFree a mem (same ▸ grown.mem)
  exact ⟨grown.size a inUnion ne, grown.types a inUnion⟩

variable {Calm : Heap → Prop}

/-- A block that fits, with its predecessor on the circle, is handed out. -/
theorem walk_served_of_fits (sound : heap.Sound free used) (brk : heap.BrkSound)
    (positive : 0 < nu) (memPrev : prevp ∈ free) (mem : p ∈ free) (next : heap.ptr prevp = p)
    (fits : heap.Fits type nu p) :
    Settles (Served heap used type nu) fun fuel => walkWith more type nu fuel heap prevp p := by
  obtain ⟨free', taken⟩ := sound.takeFront memPrev mem next fits positive
  have served : Served heap used type nu (.ok (some p, heap.takeFront type nu prevp p)) := by
    refine ⟨⟨?_, ?_⟩, taken.base, fun a memA => ⟨taken.size a memA, taken.types a memA⟩, free',
      taken.sound, Finset.disjoint_left.mp sound.disjoint mem, taken.sizeP,
      taken.typeP.trans fits.1⟩
    · rw [taken.regions, taken.brk]
      exact brk.below
    · rw [taken.base, taken.brk]
      exact brk.above
  exact (Settles.const served fun _ => rfl).shift 1 fun fuel => walkWith_of_fits fits

/-- Where the walk has come round, the heap grows, and the walk goes on from the block that it
has reached. -/
theorem walk_served_of_round (supplies : Supplies more type nu Calm)
    (sound : heap.Sound free used) (brk : heap.BrkSound) (calm : Calm heap)
    (notFits : ¬heap.Fits type nu p) (round : heap.freep = some p)
    (goesOn : ∀ heap' free' r len q, Grown heap heap' free free' used type r len q →
      heap'.BrkSound → Calm heap' → nu ≤ len / headerSize →
      (heap.ptr q ∉ free' → type = true) →
      (type = true → len = shmemSize nu ∧ heap.answers = some r :: heap'.answers) →
      Settles (Served heap' used type nu) fun fuel =>
        walkWith more type nu fuel heap' p (heap'.ptr p)) :
    Settles (Served heap used type nu) fun fuel => walkWith more type nu fuel heap prevp p := by
  have notFree : ∀ a ∈ used, a ∉ free := fun a mem => Finset.disjoint_right.mp sound.disjoint mem
  have later : Settles (Served heap used type nu) fun fuel =>
      afterMore more type nu p fuel (more fuel heap) := by
    refine (supplies.more sound brk calm).bind (supplies.steady heap)
      (fun stop fuel declined => declined.1) ?_
    rintro ⟨_ | _, heap'⟩ ⟨came, calms⟩
    · obtain ⟨sound', brk', size, types, base⟩ := came
      have refused : Served heap used type nu (.ok (none, heap')) :=
        ⟨brk', base, fun a _ => ⟨congrFun size a, congrFun types a⟩, free, sound'⟩
      exact .const refused fun fuel => rfl
    · obtain ⟨free', r, len, q, grown, brk', large, stays, answers⟩ := came
      exact (goesOn heap' free' r len q grown brk' (calms heap' rfl) large stays answers).imp
        fun result served => served.of_grown grown notFree
  exact later.shift 1 fun fuel => walkWith_of_round notFits round

/-- A walk whose predecessor is on the circle ends well where each of its stops does. -/
theorem walk_served (sound : heap.Sound free used) (brk : heap.BrkSound) (positive : 0 < nu)
    (mem : p ∈ free) (prev : prevp ∈ free ∧ heap.ptr prevp = p ∨ ¬heap.Fits type nu p)
    (rounds : ∀ prevp' a, a ∈ free → heap.freep = some a → ¬heap.Fits type nu a →
      Settles (Served heap used type nu) fun fuel => walkWith more type nu fuel heap prevp' a) :
    Settles (Served heap used type nu) fun fuel => walkWith more type nu fuel heap prevp p := by
  obtain ⟨n, prevp', a, memA, stops, which, walks⟩ :=
    sound.walkWith_reaches more type nu mem prevp
  refine .shift ?_ n walks
  by_cases fits : heap.Fits type nu a
  · have onCircle : prevp' ∈ free ∧ heap.ptr prevp' = a := by
      rcases which with ⟨rfl, rfl⟩ | onCircle
      · exact prev.resolve_right fun not => not fits
      · exact onCircle
    exact walk_served_of_fits sound brk positive onCircle.1 memA onCircle.2 fits
  · exact rounds prevp' a memA (stops.resolve_left fits) fits

/-- The walk has passed the place of memory that fits and comes to it after another round. -/
theorem walk_served_second (supplies : Supplies more type nu Calm)
    (sound : heap.Sound free used) (brk : heap.BrkSound) (calm : Calm heap)
    (positive : 0 < nu) (mem : q ∈ free) (freep : heap.freep = some q)
    (notFits : ¬heap.Fits type nu q) (next : heap.Fits type nu (heap.ptr q))
    (clear : ∀ r rest, heap.answers = some r :: rest → type = true → heap.type q = true →
      r + shmemSize nu ≠ q) :
    Settles (Served heap used type nu) fun fuel => walkWith more type nu fuel heap prevp q := by
  refine walk_served_of_round supplies sound brk calm notFits freep ?_
  intro heap' free' r len q' grown brk' _ large stays answers
  -- The block that the walk has reached is still on the circle.
  have memQ : q ∈ free' := by
    by_cases isNext : q = heap.ptr q'
    · by_contra gone
      have gone' : heap.ptr q' ∉ free' := isNext ▸ gone
      obtain ⟨sameType, end_⟩ := grown.absorbed gone'
      have shared := stays gone'
      obtain ⟨rfl, pending⟩ := answers shared
      refine clear r _ pending shared ?_ ?_
      · rw [isNext, sameType, shared]
      · rw [isNext, end_]
    · exact grown.keeps q mem isNext
  have memNext := grown.sound.circular.mem q memQ
  by_cases fits : heap'.Fits type nu (heap'.ptr q)
  · exact walk_served_of_fits grown.sound brk' positive memQ memNext rfl fits
  · -- The new memory has been joined with the block that the walk has reached.
    have here : q = q' := by
      by_contra ne
      rw [grown.ptr q mem ne] at fits
      exact fits (grown.fits (sound.circular.mem q mem) next)
    subst here
    refine walk_served grown.sound brk' positive memNext (.inl ⟨memQ, rfl⟩) ?_
    intro prevp' a _ round notFits'
    have at_ : q = a := Option.some.inj (grown.freep.symm.trans round)
    exact absurd (at_ ▸ (grown.fits_placed large).resolve_left fits) notFits'

/-- No second segment of a request ends where the free block of shared memory begins that is
in front of the first one. -/
def Clear (heap : Heap) (free : Finset Nat) (type : Bool) (nu : Nat) : Prop :=
  ∀ first second rest, heap.answers = some first :: some second :: rest → type = true →
    ∀ q ∈ free, heap.type q = true → Between q (heap.ptr q) first → second + shmemSize nu ≠ q

/-- The walk has come round without a block that fits. -/
theorem walk_served_first (supplies : Supplies more type nu Calm)
    (sound : heap.Sound free used) (brk : heap.BrkSound) (calm : Calm heap)
    (positive : 0 < nu) (mem : f ∈ free) (freep : heap.freep = some f)
    (notFits : ¬heap.Fits type nu f) (nextNot : ¬heap.Fits type nu (heap.ptr f))
    (clear : Clear heap free type nu) :
    Settles (Served heap used type nu) fun fuel => walkWith more type nu fuel heap prevp f := by
  refine walk_served_of_round supplies sound brk calm notFits freep ?_
  intro heap' free' r len q grown brk' calm' large stays answers
  -- Where the walk comes round once more, the new memory is behind the block it has reached.
  have rounds : ∀ prevp' a, a ∈ free' → heap'.freep = some a → ¬heap'.Fits type nu a →
      Settles (Served heap' used type nu) fun fuel =>
        walkWith more type nu fuel heap' prevp' a := by
    intro prevp' a memA round notFitsA
    obtain rfl : q = a := Option.some.inj (grown.freep.symm.trans round)
    refine walk_served_second supplies grown.sound brk' calm' positive memA round notFitsA
      ((grown.fits_placed large).resolve_right notFitsA) ?_
    intro second rest pending shared typeQ
    rw [grown.types q (Finset.mem_union_left _ grown.mem)] at typeQ
    obtain ⟨_, before⟩ := answers shared
    exact clear r second rest (by rw [before, pending]) shared q grown.mem typeQ grown.between
  by_cases stayed : f ∈ free'
  · exact walk_served grown.sound brk' positive (grown.sound.circular.mem f stayed)
      (.inl ⟨stayed, rfl⟩) rounds
  · -- The block that the walk has reached is part of the new memory; the one behind it is not.
    have isNext : f = heap.ptr q := by
      by_contra ne
      exact stayed (grown.keeps f mem ne)
    have gone : heap.ptr q ∉ free' := isNext ▸ stayed
    have typeF : heap.type f = true := by
      rw [isNext, (grown.absorbed gone).1, stays gone]
    have notBase : f ≠ heap.base := by
      rintro rfl
      exact Bool.false_ne_true (sound.type_base.symm.trans typeF)
    have other := sound.ptr_ne_self mem notBase
    have memS := sound.circular.mem f mem
    have neQ : f ≠ q := fun same => stayed (same ▸ grown.mem')
    have notFitsS : ¬heap'.Fits type nu (heap.ptr f) := by
      by_cases behind : heap.ptr f = q
      · -- The circle was `base` and the block that is gone.
        have back : heap.ptr (heap.ptr q) = q := by rw [← isNext, behind]
        have atBase : heap.base = q :=
          (sound.circular.eq_or_eq_of_next_next grown.mem back sound.base_mem).resolve_right
            fun same => notBase (isNext.trans same.symm)
        rintro ⟨sameType, _⟩
        rw [behind, ← atBase, grown.types _ (Finset.mem_union_left _ sound.base_mem),
          sound.type_base, stays gone] at sameType
        exact Bool.false_ne_true sameType
      · exact grown.notFits memS behind nextNot
    rw [grown.ptr f mem neQ]
    exact walk_served grown.sound brk' positive (grown.keeps _ memS (isNext ▸ other))
      (.inr notFitsS) rounds

theorem walk_served_start (supplies : Supplies more type nu Calm)
    (sound : heap.Sound free used) (brk : heap.BrkSound) (calm : Calm heap)
    (positive : 0 < nu) (mem : f ∈ free) (freep : heap.freep = some f)
    (clear : Clear heap free type nu) :
    Settles (Served heap used type nu) fun fuel =>
      walkWith more type nu fuel heap f (heap.ptr f) := by
  have memNext := sound.circular.mem f mem
  by_cases fits : heap.Fits type nu (heap.ptr f)
  · exact walk_served_of_fits sound brk positive mem memNext rfl fits
  · refine walk_served sound brk positive memNext (.inl ⟨mem, rfl⟩) ?_
    intro prevp' a _ round notFits
    obtain rfl : f = a := Option.some.inj (freep.symm.trans round)
    exact walk_served_first supplies sound brk calm positive mem freep notFits fits clear

end EdfKernel.User
