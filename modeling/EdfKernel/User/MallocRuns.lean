import EdfKernel.Library.Run
import EdfKernel.User.MallocLoop

/-!
# Programs that use the heap

Over every history of requests the free blocks stay on one circle in the order of their
addresses, and every block that the program holds is its own, unless a request for shared
memory is given two segments of which the second ends at the block where it has stopped.
-/

namespace EdfKernel.User

open Library Library.CyclicList Heap

namespace Program

variable {program program' : Program} {fuel size : Nat} {type : Bool}
  {answers : List (Option Nat)}

/-- The headers of the blocks that the program holds. -/
def headers (program : Program) : Finset Nat := (program.live.map Live.header).toFinset

/-- The blocks that a program holds are large enough and of the type asked for. -/
structure Suits (program : Program) : Prop where
  nodup : (program.live.map Live.header).Nodup
  block : ∀ block ∈ program.live,
    block.bytes + headerSize ≤ program.heap.size block.header * headerSize ∧
      program.heap.type block.header = block.type

/-- The program holds blocks of their own. -/
structure Holds (program : Program) (free : Finset Nat) : Prop where
  heap : program.heap.Sound free program.headers
  brk : program.heap.BrkSound
  suits : program.Suits

/-- The heap has not been used, or what the program holds is its own. -/
def Sound (program : Program) : Prop := Fresh program ∨ ∃ free, Holds program free

/-- What the program keeps to. -/
def Valid (program : Program) : Call → Prop
  | .malloc size _ => size + headerSize - 1 < word
  | .shmemMalloc size _ => size + headerSize - 1 < word
  | .free block => block ∈ program.live

/-- The block is on the circle of free blocks. -/
def OnList (program : Program) (q : Nat) : Prop :=
  ∃ n, program.heap.ptr^[n] program.heap.base = q

/-- No second segment of a request ends where the free block of shared memory begins behind
which the first one is put. -/
def Clear (program : Program) : Call → Prop
  | .shmemMalloc size (some first :: some second :: _) =>
      ∀ q, program.OnList q → program.heap.type q = true →
        Between q (program.heap.ptr q) first → second + shmemSize (units size) ≠ q
  | _ => True

theorem units_spec (valid : size + headerSize - 1 < word) :
    0 < units size ∧ units size * headerSize ≤ word ∧
      size + headerSize ≤ units size * headerSize := by
  have small := Nat.mod_eq_of_lt valid
  unfold units
  rw [small]
  unfold headerSize word at *
  omega

theorem Holds.onList_iff {free : Finset Nat} (holds : Holds program free) {q : Nat} :
    program.OnList q ↔ q ∈ free := by
  constructor
  · rintro ⟨n, rfl⟩
    exact holds.heap.circular.iterate_mem holds.heap.base_mem n
  · exact fun mem => holds.heap.circular.reaches holds.heap.base_mem mem

/-- A heap that has not been used becomes a circle of `base` alone. -/
theorem Fresh.sound (fresh : Fresh program) :
    (program.heap.asking answers).init.Sound {program.heap.base} ∅ where
  circular := .singleton _ (Function.update_self ..)
  base_mem := Finset.mem_singleton_self _
  disjoint := Finset.disjoint_empty_right _
  size_base := Function.update_self ..
  type_base := fresh.type
  size_pos a mem ne := by
    rw [Finset.union_empty, Finset.mem_singleton] at mem
    exact absurd mem ne
  apart a memA b memB less := by
    rw [Finset.union_empty, Finset.mem_singleton] at memA memB
    exact absurd (memA.trans memB.symm) (Nat.ne_of_lt less)
  covered a mem ne := by
    rw [Finset.union_empty, Finset.mem_singleton] at mem
    exact absurd mem ne
  above region mem := by
    have none_ : region ∈ program.heap.regions := mem
    rw [fresh.regions] at none_
    cases none_
  freep := ⟨_, Finset.mem_singleton_self _, rfl⟩
  merged a memA b memB touches := by
    rw [Finset.mem_singleton] at memA memB
    exact touches.1 (memA.trans memB.symm)

/-- No second segment of a request ends where the free block of shared memory begins behind
which the first one is put. -/
def Separate (program : Program) (type : Bool) (nu : Nat) (answers : List (Option Nat)) : Prop :=
  ∀ first second rest, answers = some first :: some second :: rest → type = true →
    ∀ q, program.OnList q → program.heap.type q = true →
      Between q (program.heap.ptr q) first → second + shmemSize nu ≠ q

theorem separate_of_malloc {nu : Nat} : program.Separate false nu answers := by
  rintro _ _ _ _ ⟨⟩

theorem separate_of_clear (clear : program.Clear (.shmemMalloc size answers)) :
    program.Separate true (units size) answers := by
  rintro first second rest rfl _ q onList typeQ between
  exact clear q onList typeQ between

/-- A request is served from a sound heap. -/
theorem Sound.mallocWith_served (sound : program.Sound) {nu : Nat} {Calm : Heap → Prop}
    {more : Nat → Heap → Except Stop (Bool × Heap)} (supplies : Supplies more type nu Calm)
    (calm : Calm (program.heap.asking answers)) (positive : 0 < nu)
    (separate : program.Separate type nu answers) :
    Settles (Served program.heap program.headers type nu) fun fuel =>
      mallocWith more type nu fuel (program.heap.asking answers) := by
  rcases sound with fresh | ⟨free, holds⟩
  · have none_ : program.headers = ∅ := by rw [headers, fresh.live]; rfl
    have start := @Fresh.sound program answers fresh
    have brk : (program.heap.asking answers).init.BrkSound := by
      refine ⟨fun region mem => ?_, fun notZero => absurd fresh.brk notZero⟩
      have none_ : region ∈ program.heap.regions := mem
      rw [fresh.regions] at none_
      cases none_
    have clear : User.Clear (program.heap.asking answers).init {program.heap.base} type nu := by
      intro first second rest _ _ q mem typeQ
      rw [Finset.mem_singleton] at mem
      subst mem
      exact absurd (start.type_base.symm.trans typeQ) Bool.false_ne_true
    have served := walk_served_start supplies start brk (supplies.init calm) positive
      (Finset.mem_singleton_self _) rfl clear
    have freep : (program.heap.asking answers).freep = none := fresh.freep
    simp only [mallocWith, freep]
    refine served.imp fun result served => ?_
    rw [none_]
    exact served.congr rfl fun a mem => absurd mem (Finset.notMem_empty a)
  · obtain ⟨first, mem, freep⟩ := holds.heap.freep
    have sound' : (program.heap.asking answers).Sound free program.headers :=
      holds.heap.withAnswers answers program.heap.brk
    have clear : User.Clear (program.heap.asking answers) free type nu :=
      fun first second rest pending shared q memQ typeQ between =>
        separate first second rest pending shared q (holds.onList_iff.mpr memQ) typeQ between
    have served := walk_served_start supplies sound' ⟨holds.brk.below, holds.brk.above⟩ calm
      positive mem freep clear
    have freep' : (program.heap.asking answers).freep = some first := freep
    simp only [mallocWith, freep']
    exact served.imp fun result served => served.congr rfl fun a _ => ⟨rfl, rfl⟩

theorem Sound.malloc_served (sound : program.Sound) (valid : size + headerSize - 1 < word)
    (separate : program.Separate type (units size) answers) :
    Settles (Served program.heap program.headers type (units size)) fun fuel =>
      mallocLocked fuel (program.heap.asking answers) size type := by
  obtain ⟨positive, small, _⟩ := units_spec valid
  simp only [mallocLocked_eq_mallocWith]
  exact sound.mallocWith_served (morecoreLocked_supplies type small) trivial positive separate

theorem mallocLocked_steady (heap : Heap) (size : Nat) (type : Bool) :
    Steady fun fuel => mallocLocked fuel heap size type := by
  simp only [mallocLocked_eq_mallocWith]
  intro fuel fuel' result le served
  exact mallocWith_mono (fun _ _ _ _ le grown => morecoreLocked_mono grown le) served le

theorem Sound.suits (sound : program.Sound) : program.Suits := by
  rcases sound with fresh | ⟨free, holds⟩
  · constructor
    · rw [fresh.live]
      exact List.nodup_nil
    · rw [fresh.live]
      rintro _ ⟨⟩
  · exact holds.suits

theorem mem_headers {block : Live} (mem : block ∈ program.live) :
    block.header ∈ program.headers :=
  List.mem_toFinset.mpr (List.mem_map_of_mem mem)

/-- After a request, what the program holds is its own. -/
theorem Sound.receive (sound : program.Sound) {result : Except Stop (Option Nat × Heap)}
    (served : Served program.heap program.headers type (units size) result)
    (bytes : ∀ b heap, result = .ok (some b, heap) → heap.answers = [] →
      size + headerSize ≤ units size * headerSize)
    (taken : program.receive size type result = .ok program') : program'.Sound := by
  rcases result with stop | ⟨block, heap⟩
  · cases taken
  · obtain ⟨brk, base, kept, free, after⟩ := served
    obtain ⟨nodup, suits⟩ := sound.suits
    have still : ∀ block ∈ program.live,
        block.bytes + headerSize ≤ heap.size block.header * headerSize ∧
          heap.type block.header = block.type := by
      intro block mem
      obtain ⟨sameSize, sameType⟩ := kept _ (mem_headers mem)
      rw [sameSize, sameType]
      exact suits block mem
    by_cases all : heap.answers = []
    · simp only [Program.receive, if_pos all] at taken
      cases block with
      | none =>
          cases taken
          exact .inr ⟨free, after, brk, nodup, still⟩
      | some b =>
          cases taken
          obtain ⟨sound', notHeld, sizeB, typeB⟩ := after
          refine .inr ⟨free, ?_, brk, ?_, ?_⟩
          · simpa only [headers, List.map_cons, List.toFinset_cons] using sound'
          · exact List.nodup_cons.mpr ⟨fun mem => notHeld (List.mem_toFinset.mpr mem), nodup⟩
          · rw [List.forall_mem_cons]
            exact ⟨⟨sizeB ▸ bytes b heap rfl all, typeB⟩, still⟩
    · simp only [Program.receive, if_neg all] at taken
      cases taken

theorem Sound.request (sound : program.Sound) (valid : size + headerSize - 1 < word)
    (separate : program.Separate type (units size) answers)
    (taken : program.request fuel size type answers = .ok program') : program'.Sound := by
  unfold Program.request at taken
  cases called : mallocLocked fuel (program.heap.asking answers) size type with
  | error stop =>
      rw [called] at taken
      cases taken
  | ok result =>
      rw [called] at taken
      have served := (sound.malloc_served valid separate).of_ok (mallocLocked_steady _ _ _) called
      exact sound.receive served (fun _ _ _ _ => (units_spec valid).2.2) taken

/-- A request that is served or refused comes back. -/
theorem receive_returns {heap : Heap} {used : Finset Nat} {nu : Nat}
    {result : Except Stop (Option Nat × Heap)} (served : Served heap used type nu result) :
    program.receive size type result ≠ .error .hangs ∧
      program.receive size type result ≠ .error .nullPointer := by
  rcases result with stop | ⟨block, heap⟩
  · exact ⟨fun same => served.1 (Except.error.inj same), fun same => served.2 (Except.error.inj same)⟩
  · unfold Program.receive
    by_cases all : heap.answers = []
    · cases block with
      | none => simp [all]
      | some b => simp [all]
    · simp [all]

/-- The blocks left after one of them is given back. -/
theorem Suits.mem_erase (suits : program.Suits) {block other : Live} (mem : block ∈ program.live) :
    other ∈ program.live.erase block ↔
      other ∈ program.live ∧ other.header ≠ block.header := by
  rw [(List.Nodup.of_map _ suits.nodup).mem_erase_iff, and_comm]
  refine and_congr_right fun memOther => not_congr ⟨fun same => same ▸ rfl, fun same => ?_⟩
  exact List.inj_on_of_nodup_map suits.nodup memOther mem same

theorem Suits.headers_erase (suits : program.Suits) {block : Live} (mem : block ∈ program.live)
    (heap : Heap) : (Program.mk heap (program.live.erase block)).headers =
      program.headers.erase block.header := by
  ext header
  simp only [headers, List.mem_toFinset, List.mem_map, Finset.mem_erase, suits.mem_erase mem]
  constructor
  · rintro ⟨other, ⟨memOther, ne⟩, rfl⟩
    exact ⟨ne, other, memOther, rfl⟩
  · rintro ⟨ne, other, memOther, rfl⟩
    exact ⟨other, ⟨memOther, ne⟩, rfl⟩

/-- After a block that the program holds is given back, what it holds is its own. -/
theorem Sound.free (sound : program.Sound) {block : Live} (mem : block ∈ program.live) :
    ∃ heap, Program.Sound ⟨heap, program.live.erase block⟩ ∧
      ∃ enough, ∀ fuel ≥ enough, program.heap.freeLocked fuel block.header = .ok heap := by
  rcases sound with fresh | ⟨free, holds⟩
  · rw [fresh.live] at mem
    cases mem
  · obtain ⟨heap, free', p, memP, between, sound, freed, _, enough, calls⟩ :=
      holds.heap.freeLocked (mem_headers mem)
    refine ⟨heap, .inr ⟨free', ?_, ⟨?_, ?_⟩, ⟨?_, ?_⟩⟩, enough, calls⟩
    · rwa [holds.suits.headers_erase mem]
    · rw [freed.regions, freed.brk]
      exact holds.brk.below
    · rw [freed.base, freed.brk]
      exact holds.brk.above
    · exact holds.suits.nodup.sublist (List.erase_sublist.map _)
    · intro other memErase
      obtain ⟨memOther, ne⟩ := (holds.suits.mem_erase mem).mp memErase
      have neP : other.header ≠ p := fun same =>
        Finset.disjoint_left.mp holds.heap.disjoint memP (same ▸ mem_headers memOther)
      rw [freed.size _ neP ne, freed.type]
      exact holds.suits.block other memOther

/-- One call. -/
theorem Sound.step (sound : program.Sound) {call : Call} (valid : program.Valid call)
    (clear : program.Clear call) (taken : program.step fuel call = .ok program') :
    program'.Sound := by
  cases call with
  | malloc size answers => exact sound.request valid separate_of_malloc taken
  | shmemMalloc size answers => exact sound.request valid (separate_of_clear clear) taken
  | free block =>
      obtain ⟨heap, sound', enough, calls⟩ := sound.free valid
      unfold Program.step at taken
      cases called : program.heap.freeLocked fuel block.header with
      | error stop => simp [called] at taken
      | ok heap' =>
          have same := freeLocked_mono called (le_max_left fuel enough)
          rw [calls _ (le_max_right ..)] at same
          simp only [called] at taken
          cases same
          cases taken
          exact sound'

/-- With enough rounds a call comes back. -/
theorem Sound.returns (sound : program.Sound) {call : Call} (valid : program.Valid call)
    (clear : program.Clear call) :
    ∃ enough, ∀ fuel ≥ enough, program.step fuel call ≠ .error .hangs ∧
      program.step fuel call ≠ .error .nullPointer := by
  have asked (size : Nat) (type : Bool) (answers : List (Option Nat))
      (valid : size + headerSize - 1 < word)
      (separate : program.Separate type (units size) answers) :
      ∃ enough, ∀ fuel ≥ enough, program.request fuel size type answers ≠ .error .hangs ∧
        program.request fuel size type answers ≠ .error .nullPointer := by
    obtain ⟨enough, served⟩ := sound.malloc_served valid separate
    exact ⟨enough, fun fuel le => receive_returns (served fuel le)⟩
  cases call with
  | malloc size answers => exact asked size false answers valid separate_of_malloc
  | shmemMalloc size answers => exact asked size true answers valid (separate_of_clear clear)
  | free block =>
      obtain ⟨heap, _, enough, calls⟩ := sound.free valid
      refine ⟨enough, fun fuel le => ?_⟩
      simp [Program.step, calls fuel le]

/-- Over every history of requests whose second segments do not end where the walk has
stopped, the heap is sound and every further request comes back. -/
theorem malloc_sound {calls : List Call} {final : Program} (fuel : Nat) (fresh : Fresh program)
    (valid : Run.Along (step fuel) Valid program calls)
    (clear : Run.Along (step fuel) Clear program calls)
    (run : Run.exec (step fuel) program calls = .ok final) :
    final.Sound ∧ ∀ call, final.Valid call → final.Clear call →
      ∃ enough, ∀ fuel ≥ enough, final.step fuel call ≠ .error .hangs ∧
        final.step fuel call ≠ .error .nullPointer := by
  have sound : final.Sound := by
    refine Run.exec_invariant_along ?_ (.inl fresh : program.Sound)
      (Run.along_and valid clear) run
    exact fun program call next sound allowed taken => sound.step allowed.1 allowed.2 taken
  exact ⟨sound, fun call valid clear => sound.returns valid clear⟩

instance decidableValid (program : Program) : ∀ call, Decidable (program.Valid call)
  | .malloc _ _ => inferInstanceAs (Decidable (_ < _))
  | .shmemMalloc _ _ => inferInstanceAs (Decidable (_ < _))
  | .free _ => inferInstanceAs (Decidable (_ ∈ _))

/-- A program with `base` in its first pages. -/
def blank : Program where
  heap :=
    { base := 0x800040, ptr := fun _ => 0, size := fun _ => 0, type := fun _ => false,
      freep := none, brk := 0, regions := [], answers := [] }
  live := []

theorem blank_fresh : Fresh blank := ⟨rfl, rfl, rfl, rfl, rfl⟩

/-- A shared segment and memory from the break are handed out, and the segment is given back.
The next request for shared memory is given two segments. -/
theorem malloc_sound_blank : ∃ final, Run.exec (step 9) blank
    [.shmemMalloc 4000 [some 0xa0000000], .malloc 100 [some 0x900000, some 0x901000],
      .free ⟨0xa0000000, 4000, true⟩,
      .shmemMalloc 8000 [some 0xa0010000, some 0xa0020000]] = .ok final ∧
    final.live = [⟨0xa0010000, 8000, true⟩, ⟨0x900000, 100, false⟩] ∧ final.Sound := by
  obtain ⟨final, run, live⟩ := @Run.exec_of_decide _ _ _ (step 9)
    (fun final => final.live = [⟨0xa0010000, 8000, true⟩, ⟨0x900000, 100, false⟩]) _ blank
    [.shmemMalloc 4000 [some 0xa0000000], .malloc 100 [some 0x900000, some 0x901000],
      .free ⟨0xa0000000, 4000, true⟩,
      .shmemMalloc 8000 [some 0xa0010000, some 0xa0020000]] (by decide +kernel)
  refine ⟨final, run, live, (malloc_sound 9 blank_fresh (by decide +kernel) ?_ run).1⟩
  refine @Run.along_append _ Call _ (step 9) Clear blank [.shmemMalloc 4000 [some 0xa0000000],
    .malloc 100 [some 0x900000, some 0x901000], .free ⟨0xa0000000, 4000, true⟩]
    [.shmemMalloc 8000 [some 0xa0010000, some 0xa0020000]] ?_
    fun middle reached => ⟨?_, fun _ _ => trivial⟩
  · apply Run.along_of_forall
    simp only [List.forall_mem_cons]
    exact ⟨fun _ => trivial, fun _ => trivial, fun _ => trivial, by rintro _ ⟨⟩⟩
  · -- No block of shared memory begins where the second segment ends.
    have other : ∃ middle, Run.exec (step 9) blank [.shmemMalloc 4000 [some 0xa0000000],
        .malloc 100 [some 0x900000, some 0x901000], .free ⟨0xa0000000, 4000, true⟩] =
          .ok middle ∧ middle.heap.type 0xa0022000 = false := ⟨_, rfl, rfl⟩
    obtain ⟨_, run, type⟩ := other
    cases run.symm.trans reached
    rintro q _ typeQ _ rfl
    exact Bool.false_ne_true (type.symm.trans typeQ)

/-- The second segment of a request ends at the free block behind which the first one was put:
the first one is handed out and stays on the circle. -/
theorem malloc_double_use : ∃ final, Run.Along (step 9) Valid blank
      [.shmemMalloc 4000 [some 0xa0000000], .free ⟨0xa0000000, 4000, true⟩,
        .shmemMalloc 8000 [some 0xa0010000, some 0x9fffe000]] ∧
    Run.exec (step 9) blank
      [.shmemMalloc 4000 [some 0xa0000000], .free ⟨0xa0000000, 4000, true⟩,
        .shmemMalloc 8000 [some 0xa0010000, some 0x9fffe000]] = .ok final ∧
    final.live = [⟨0xa0010000, 8000, true⟩] ∧ final.OnList 0xa0010000 ∧ ¬final.Sound := by
  obtain ⟨final, run, used, live, base, first, second⟩ := @Run.exec_of_decide _ _ _ (step 9)
    (fun final => final.heap.freep ≠ none ∧ final.live = [⟨0xa0010000, 8000, true⟩] ∧
      final.heap.base = 0x800040 ∧ final.heap.ptr 0x800040 = 0x9fffe000 ∧
      final.heap.ptr 0x9fffe000 = 0xa0010000) _ blank
    [.shmemMalloc 4000 [some 0xa0000000], .free ⟨0xa0000000, 4000, true⟩,
      .shmemMalloc 8000 [some 0xa0010000, some 0x9fffe000]] (by decide +kernel)
  have onList : final.OnList 0xa0010000 := by
    refine ⟨2, ?_⟩
    rw [Function.iterate_succ_apply', Function.iterate_one, base, first, second]
  refine ⟨final, by decide +kernel, run, live, onList, ?_⟩
  rintro (fresh | ⟨free, holds⟩)
  · exact used fresh.freep
  · have held : 0xa0010000 ∈ final.headers := by
      rw [headers, live]
      exact List.mem_toFinset.mpr List.mem_cons_self
    exact Finset.disjoint_left.mp holds.heap.disjoint (holds.onList_iff.mp onList) held

end Program

end EdfKernel.User
