import EdfKernel.User.MallocSizes

/-!
# Programs that ask for any size

A program holds blocks of its own, and memory for them, as long as no request moves the break
down or is handed a block although its size is not counted.  What comes of the next request is
then a matter of that request alone.
-/

namespace EdfKernel.User

open Library Library.CyclicList Heap

variable {brkStart fuel nu size : Nat} {type : Bool} {answers : List (Option Nat)}

namespace Heap

/-- As long as the break is not moved down, the heap grows as it does where no sum wraps. -/
theorem morecore_supplies (brkStart : Nat) (type : Bool) (positive : 0 < nu)
    (small : nu * headerSize ≤ word) :
    Supplies (morecore brkStart type nu) type nu
      fun heap => ∀ x, ¬heap.Unmaps brkStart nu type x where
  steady _ _ _ _ le grown := morecore_mono grown le
  init calm := by
    cases type with
    | false => exact calm
    | true => exact fun _ => id
  more sound brk calm :=
    (morecore_asked sound type brk positive small).imp fun _ asked => asked.more calm

/-- The request is for as many bytes as can be counted or is refused, and it does not move the
break down. -/
structure Heeded (heap : Heap) (brkStart size : Nat) (type : Bool) : Prop where
  inRange : size < word
  counted : size + headerSize - 1 < word ∨ ¬heap.Grants type
  stays : ∀ x, ¬heap.Unmaps brkStart (units size) type x

/-- Whether a call of `sys_brk` moves the break down can be found out from the answers. -/
instance decidableStaysBrk (brkStart nu : Nat) : ∀ brk answers,
    Decidable (∀ x, ¬UnmapsBrk brkStart nu brk answers x)
  | _, [] => .isTrue fun _ => id
  | _, none :: _ => .isTrue fun _ => id
  | brk, some newbrk :: rest =>
      have := decidableStaysBrk brkStart nu newbrk rest
      if unknown : brk = 0 then
        decidable_of_iff (newbrk ≠ 0 → ∀ x, ¬UnmapsBrk brkStart nu newbrk rest x) (by
          rw [unknown]
          simp only [unmapsBrk_of_zero, not_and, forall_comm (α := Nat)])
      else if less : brk + nu * headerSize < word then
        decidable_of_iff (brk < newbrk → ∀ x, ¬UnmapsBrk brkStart nu newbrk rest x) (by
          simp only [unmapsBrk_of_lt unknown less, not_and, forall_comm (α := Nat)])
      else
        decidable_of_iff (brkStart ≤ (brk + nu * headerSize) % word →
            brk ≤ pageEnd ((brk + nu * headerSize) % word)) (by
          simp only [unmapsBrk_of_le unknown (not_lt.mp less), not_and, not_lt]
          exact ⟨fun stays x start low => (stays start).trans low, fun stays start => stays _ start le_rfl⟩)

instance decidableGrantsBrk : ∀ brk answers, Decidable (GrantsBrk brk answers)
  | _, [] => .isTrue trivial
  | _, none :: _ => .isFalse id
  | brk, some newbrk :: rest =>
      have := decidableGrantsBrk newbrk rest
      inferInstanceAs (Decidable (brk < newbrk ∧ GrantsBrk newbrk rest))

instance decidableGrants (heap : Heap) : ∀ type, Decidable (heap.Grants type)
  | false => inferInstanceAs (Decidable (GrantsBrk heap.brk heap.answers))
  | true => decidable_of_iff (∀ answer ∈ heap.answers, answer ≠ none ∧ answer ≠ some 0) (by
      refine forall₂_congr fun answer _ => ?_
      cases answer with
      | none => simp
      | some mem => simp)

instance decidableStays (heap : Heap) (brkStart nu : Nat) : ∀ type,
    Decidable (∀ x, ¬heap.Unmaps brkStart nu type x)
  | false => inferInstanceAs (Decidable (∀ x, ¬UnmapsBrk brkStart nu heap.brk heap.answers x))
  | true => .isTrue fun _ => id

instance decidableHeeded (heap : Heap) (brkStart size : Nat) (type : Bool) :
    Decidable (heap.Heeded brkStart size type) :=
  decidable_of_iff (size < word ∧ (size + headerSize - 1 < word ∨ ¬heap.Grants type) ∧
      ∀ x, ¬heap.Unmaps brkStart (units size) type x)
    ⟨fun ⟨inRange, counted, stays⟩ => ⟨inRange, counted, stays⟩,
      fun heeded => ⟨heeded.inRange, heeded.counted, heeded.stays⟩⟩

end Heap

namespace Program

variable {program program' : Program}

/-- What the program and the kernel keep to in a call. -/
def Heeds (brkStart : Nat) (program : Program) : Call → Prop
  | .malloc size answers => (program.heap.asking answers).Heeded brkStart size false
  | .shmemMalloc size answers => (program.heap.asking answers).Heeded brkStart size true
  | .free block => block ∈ program.live

instance decidableHeeds (brkStart : Nat) (program : Program) :
    ∀ call, Decidable (program.Heeds brkStart call)
  | .malloc size answers =>
      inferInstanceAs (Decidable ((program.heap.asking answers).Heeded brkStart size false))
  | .shmemMalloc size answers =>
      inferInstanceAs (Decidable ((program.heap.asking answers).Heeded brkStart size true))
  | .free block => inferInstanceAs (Decidable (block ∈ program.live))

/-- After a request, what the program holds is its own. -/
theorem Sound.requestAny (sound : program.Sound)
    (heeded : (program.heap.asking answers).Heeded brkStart size type)
    (separate : program.Separate type (units size) answers)
    (taken : program.requestAny brkStart fuel size type answers = .ok program') :
    program'.Sound := by
  obtain ⟨positive, small⟩ := units_small size
  have steady := mallocAny_steady brkStart (program.heap.asking answers) size type
  unfold Program.requestAny at taken
  cases called : mallocAny brkStart fuel (program.heap.asking answers) size type with
  | error stop =>
      rw [called] at taken
      cases taken
  | ok result =>
      rw [called] at taken
      have served : Served program.heap program.headers type (units size) (.ok result) :=
        (sound.mallocWith_served (morecore_supplies brkStart type positive small) heeded.stays
          positive separate).of_ok steady called
      refine sound.receive served ?_ taken
      rintro b heap ⟨⟩ all
      -- A block is handed out where no system call of the request fails.
      have comes := ((ready_of_sound sound).mallocAny_comes brkStart size type answers).of_ok
        steady called all
      exact (units_spec (heeded.counted.resolve_right (not_not.mpr comes.2.2.1))).2.2

/-- One call. -/
theorem Sound.stepAny (sound : program.Sound) {call : Call} (heeds : program.Heeds brkStart call)
    (clear : program.Clear call) (taken : program.stepAny brkStart fuel call = .ok program') :
    program'.Sound := by
  cases call with
  | malloc size answers => exact sound.requestAny heeds separate_of_malloc taken
  | shmemMalloc size answers => exact sound.requestAny heeds (separate_of_clear clear) taken
  | free block => exact @Sound.step _ _ fuel sound (.free block) heeds clear taken

/-- Every block that the program holds has the bytes asked for behind its header, in memory of
the type asked for, where no other block is.  Nothing that the break was moved over for them is
above the break. -/
structure Intact (program : Program) : Prop where
  block : ∀ block ∈ program.live,
    block.bytes + headerSize ≤ program.heap.size block.header * headerSize ∧
      program.heap.type block.header = block.type ∧ program.heap.Covered block.header
  apart : ∀ block ∈ program.live, ∀ other ∈ program.live, block ≠ other →
    program.heap.stop block.header ≤ other.header ∨ program.heap.stop other.header ≤ block.header
  below : ∀ block ∈ program.live, block.type = false →
    program.heap.stop block.header ≤ program.heap.brk

theorem Sound.intact (sound : program.Sound) : program.Intact := by
  rcases sound with fresh | ⟨free, holds⟩
  · have none_ : ∀ block ∈ program.live, False := by
      rw [fresh.live]
      rintro _ ⟨⟩
    exact ⟨fun block mem => (none_ block mem).elim, fun block mem => (none_ block mem).elim,
      fun block mem => (none_ block mem).elim⟩
  · have held : ∀ block ∈ program.live, block.header ∈ free ∪ program.headers :=
      fun block mem => Finset.mem_union_right free (mem_headers mem)
    have notBase : ∀ block ∈ program.live, block.header ≠ program.heap.base :=
      fun block mem => holds.heap.ne_base (mem_headers mem)
    refine ⟨fun block mem => ?_, fun block mem other memOther ne => ?_, fun block mem false_ => ?_⟩
    · obtain ⟨bytes, sameType⟩ := holds.suits.block block mem
      exact ⟨bytes, sameType, holds.heap.covered _ (held block mem) (notBase block mem)⟩
    · have neHeader : block.header ≠ other.header := fun same =>
        ne (List.inj_on_of_nodup_map holds.suits.nodup mem memOther same)
      rcases Nat.lt_or_gt_of_ne neHeader with less | greater
      · exact .inl (holds.heap.apart _ (held block mem) _ (held other memOther) less)
      · exact .inr (holds.heap.apart _ (held other memOther) _ (held block mem) greater)
    · exact holds.heap.stop_le_brk holds.brk (held block mem) (notBase block mem)
        ((holds.suits.block block mem).2.trans false_)

/-- Over every history of requests that are counted or refused and do not move the break down,
and whose second segments do not end where the walk has stopped, the blocks that the program
holds are intact, and every further request of any size comes back.  It hands out a block that
is large enough or none, and leaves the blocks in use alone, if and only if it is counted or
refused and unmaps no block in use. -/
theorem malloc_respects {calls : List Call} {final : Program} (brkStart fuel : Nat)
    (fresh : Fresh program)
    (heeds : Run.Along (stepAny brkStart fuel) (Heeds brkStart) program calls)
    (clear : Run.Along (stepAny brkStart fuel) Clear program calls)
    (run : Run.exec (stepAny brkStart fuel) program calls = .ok final) :
    final.Intact ∧ ∀ size < word, ∀ type answers,
      (∃ enough, ∀ fuel ≥ enough,
        mallocAny brkStart fuel (final.heap.asking answers) size type ≠ .error .hangs ∧
          mallocAny brkStart fuel (final.heap.asking answers) size type ≠ .error .nullPointer) ∧
      ∀ fuel block heap', mallocAny brkStart fuel (final.heap.asking answers) size type =
          .ok (block, heap') → heap'.answers = [] →
        (Respects final.heap final.headers size type block heap' ↔
          (size + headerSize - 1 < word ∨ ¬(final.heap.asking answers).Grants type) ∧
            ¬Cuts brkStart (units size) type (final.heap.asking answers) final.headers) := by
  have sound : final.Sound := by
    refine Run.exec_invariant_along ?_ (.inl fresh : program.Sound)
      (Run.along_and heeds clear) run
    exact fun program call next sound allowed taken => sound.stepAny allowed.1 allowed.2 taken
  exact ⟨sound.intact, fun size inRange type answers =>
    (ready_of_sound sound).respects_iff inRange brkStart type answers⟩

/-- A request for `2 ^ 32 - 1` bytes is refused, two blocks are handed out and the second one is
given back.  The next request is served with it. -/
theorem malloc_respects_blank : ∃ final heap', Run.exec (stepAny 0x900000 9) blank
      [.malloc 0xffffffff [none], .malloc 100 [some 0x900000, some 0x901000],
        .malloc 4000 [some 0x902000], .free ⟨0x9000c0, 4000, false⟩] = .ok final ∧
    final.live = [⟨0x900000, 100, false⟩] ∧ final.Intact ∧
    mallocAny 0x900000 9 (final.heap.asking []) 4000 false = .ok (some 0x9000c0, heap') ∧
    Respects final.heap final.headers 4000 false (some 0x9000c0) heap' := by
  have came : ∃ final heap', Run.exec (step 9) blank
      [.malloc 0xffffffff [none], .malloc 100 [some 0x900000, some 0x901000],
        .malloc 4000 [some 0x902000], .free ⟨0x9000c0, 4000, false⟩] = .ok final ∧
      final.live = [⟨0x900000, 100, false⟩] ∧
      mallocAny 0x900000 9 (final.heap.asking []) 4000 false = .ok (some 0x9000c0, heap') ∧
      heap'.answers = [] := ⟨_, _, rfl, rfl, rfl, rfl⟩
  obtain ⟨final, heap', run, live, called, all⟩ := came
  have run := Run.exec_of_exec (fun _ _ _ => @stepAny_of_step 0x900000 9 _ _ _) run
  obtain ⟨intact, respects⟩ := malloc_respects 0x900000 9 blank_fresh (by decide +kernel) (by
    apply Run.along_of_forall
    simp only [List.forall_mem_cons]
    exact ⟨fun _ => trivial, fun _ => trivial, fun _ => trivial, fun _ => trivial, by rintro _ ⟨⟩⟩)
    run
  refine ⟨final, heap', run, live, intact, called, ?_⟩
  refine ((respects 4000 (by decide) false []).2 9 _ heap' called all).mpr ⟨.inl (by decide), ?_⟩
  rintro ⟨a, _, x, _, _, unmaps⟩
  exact not_unmaps_of_nil rfl unmaps

/-- A request for `2 ^ 32 - 1` bytes is given a header with nothing behind it.  A request that
moves the break from `0x901000` over the whole address space to `0x900000` is refused, and the
block there is unmapped.  One that moves the break over the end of a free block is refused too,
and the next request is given that block. -/
theorem malloc_overflows :
    (∃ heap', mallocAny 0x900000 9 (blank.heap.asking [some 0x900000, some 0x901000])
          0xffffffff false = .ok (some 0x900000, heap') ∧ heap'.size 0x900000 = 1 ∧
      ¬Respects blank.heap ∅ 0xffffffff false (some 0x900000) heap') ∧
    (∃ program heap', blank.stepAny 0x900000 9 (.malloc 100 [some 0x900000, some 0x901000]) =
        .ok program ∧ program.Intact ∧
      mallocAny 0x900000 9 (program.heap.asking [some 0x900000]) 0xffffefc0 false =
        .ok (none, heap') ∧
      ¬Respects program.heap program.headers 0xffffefc0 false none heap') ∧
    ∃ program heap', Run.exec (stepAny 0x900000 9) blank
          [.malloc 100 [some 0x900000, some 0x901000], .malloc 4000 [some 0x902000],
            .free ⟨0x9000c0, 4000, false⟩, .malloc 0xffffefc0 [some 0x901000]] = .ok program ∧
      mallocAny 0x900000 9 (program.heap.asking []) 4000 false = .ok (some 0x9000c0, heap') ∧
      ¬Respects program.heap program.headers 4000 false (some 0x9000c0) heap' := by
  refine ⟨?_, ?_, ?_⟩
  · have came : ∃ heap', mallocAny 0x900000 9
        (blank.heap.asking [some 0x900000, some 0x901000]) 0xffffffff false =
          .ok (some 0x900000, heap') ∧ heap'.size 0x900000 = 1 := ⟨_, rfl, rfl⟩
    obtain ⟨heap', called, size⟩ := came
    refine ⟨heap', called, size, fun respects => ?_⟩
    have bytes := (respects.block _ rfl).1
    rw [size] at bytes
    exact absurd bytes (by decide)
  · have came : ∃ program heap', blank.stepAny 0x900000 9
          (.malloc 100 [some 0x900000, some 0x901000]) = .ok program ∧
        program.live = [⟨0x900000, 100, false⟩] ∧
        mallocAny 0x900000 9 (program.heap.asking [some 0x900000]) 0xffffefc0 false =
          .ok (none, heap') ∧ heap'.size 0x900000 = 3 ∧ heap'.regions = [] :=
      ⟨_, _, rfl, rfl, rfl, rfl, rfl⟩
    obtain ⟨program, heap', taken, live, called, size, empty⟩ := came
    have sound : program.Sound := by
      refine Sound.stepAny (.inl blank_fresh) ?_ ?_ taken
      · decide +kernel
      · exact trivial
    refine ⟨program, heap', taken, sound.intact, called, fun respects => ?_⟩
    have held : 0x900000 ∈ program.headers := by
      rw [headers, live]
      exact List.mem_toFinset.mpr List.mem_cons_self
    obtain ⟨region, mem, _⟩ := (respects.kept _ held).2.2 0x900000 le_rfl (by rw [size]; decide)
    rw [empty] at mem
    cases mem
  · have came : ∃ program heap', Run.exec (stepAny 0x900000 9) blank
          [.malloc 100 [some 0x900000, some 0x901000], .malloc 4000 [some 0x902000],
            .free ⟨0x9000c0, 4000, false⟩, .malloc 0xffffefc0 [some 0x901000]] = .ok program ∧
        mallocAny 0x900000 9 (program.heap.asking []) 4000 false = .ok (some 0x9000c0, heap') ∧
        heap'.size 0x9000c0 = 64 ∧ heap'.regions = [⟨0x900000, 0x1000, false⟩] :=
      ⟨_, _, rfl, rfl, rfl, rfl⟩
    obtain ⟨program, heap', run, called, size, rest⟩ := came
    refine ⟨program, heap', run, called, fun respects => ?_⟩
    obtain ⟨region, mem, _, _, high⟩ :=
      (respects.block _ rfl).2.2.1 0x901000 (by decide) (by rw [size]; decide)
    rw [rest, List.mem_singleton] at mem
    subst mem
    exact absurd high (by decide)

end Program

end EdfKernel.User
