import EdfKernel.Mm.SharedEvents

/-!
# Shared areas over runs

Segments are made, mapped, copied, unmapped and left by any number of address spaces.  Every shared
area lies within its segment, every segment counts its areas and is there as long as there is one,
and every address stays at its place, exactly as long as no shared area is split.
-/

namespace EdfKernel.Mm

open Library

/-- The call maps the address anew. -/
def Call.Remaps (mm : MmPtr) (a : Nat) : Call → Prop
  | .event i => i.event.Remaps mm a
  | .dup _ _ _ => False

/-- The address space that a call copies. -/
def Call.source : Call → Option MmPtr
  | .event ⟨.fork source, _, _, _⟩ | .dup _ source _ => some source
  | _ => none

namespace Memory

variable {m m' : Memory} {mm : MmPtr} {a : Nat}

/-! ## Steps -/

/-- A hole is made in a shared area: the range that the call unmaps is inside it, and there is
memory for a second area. -/
def Punches (m : Memory) : Call → Prop
  | .event i => ∃ r ∈ i.event.unmaps, m.vm.mmUsed r.1 = true ∧
      (m.supply i).SplitsShared r.1 r.2.1 r.2.2
  | .dup _ _ _ => False

instance (m : Memory) (mm : MmPtr) (start stop : Nat) : Decidable (m.SplitsShared mm start stop) :=
  inferInstanceAs (Decidable (_ ∧ _ ∧ _))

instance (m : Memory) : (c : Call) → Decidable (m.Punches c)
  | .event i => inferInstanceAs (Decidable (∃ r ∈ i.event.unmaps, m.vm.mmUsed r.1 = true ∧
      (m.supply i).SplitsShared r.1 r.2.1 r.2.2))
  | .dup _ _ _ => .isFalse id

/-- The address is in an area of an address space in use. -/
def Mapped (m : Memory) (mm : MmPtr) (a : Nat) : Prop :=
  m.vm.mmUsed mm = true ∧ m.vm.Covers mm a

/-- An event that unmaps needs the address space, and no segment. -/
theorem needs_of_unmaps {e : Event} {r : MmPtr × Nat × Nat} (unmaps : e.unmaps = some r) :
    e.mm = some r.1 ∧ e.segment = none := by
  cases e with
  | unmap mm addr len | brk mm addr len =>
      cases unmaps
      exact ⟨rfl, rfl⟩
  | _ => cases unmaps

/-- An event that unmaps leaves a sound ledger, or a cut area. -/
theorem perform_unmaps {e : Event} {r : MmPtr × Nat × Nat} (formed : m.Formed)
    (used : ∀ mm ∈ e.mm, m.vm.mmUsed mm = true) (sound : m.vm.ledger.Sound none)
    (unmaps : e.unmaps = some r) (done : m.perform e = .ok m') :
    (¬m.SplitsShared r.1 r.2.1 r.2.2 ∧ m'.vm.ledger.Sound none) ∨
      (m.SplitsShared r.1 r.2.1 r.2.2 ∧ m'.vm.ledger.Cut) := by
  cases e with
  | unmap mm addr len =>
      cases unmaps
      obtain ⟨result, unmapped, rfl⟩ := map_eq_ok_iff.mp done
      rcases mmUnmap_leaves (formed.wellFormed mm (used mm rfl)) sound unmapped with
        ⟨noSplit, sound', _⟩ | cut
      · exact .inl ⟨noSplit, sound'⟩
      · exact .inr cut
  | brk mm addr len =>
      cases unmaps
      obtain ⟨result, grown, rfl⟩ := map_eq_ok_iff.mp done
      rcases mmBrk_leaves (formed.wellFormed mm (used mm rfl)) sound grown with
        ⟨noSplit, sound', _⟩ | cut
      · exact .inl ⟨noSplit, sound'⟩
      · exact .inr cut
  | _ => cases unmaps

/-- What one call does to a sound ledger. -/
theorem call_ledger {c : Call} (formed : m.Formed) (sound : m.vm.ledger.Sound none)
    (done : m.call c = .ok m') : (¬m.Punches c ∧ m'.vm.ledger.Sound none) ∨
      (m.Punches c ∧ m'.vm.ledger.Cut) := by
  cases c with
  | event i =>
      change m.step i = .ok m' at done
      unfold step at done
      split at done
      · rename_i there
        have before := formed.supply i
        cases unmaps : i.event.unmaps with
        | none =>
            refine .inl ⟨?_, perform_sound before there.1 there.2 sound unmaps done⟩
            rintro ⟨r, isRange, _⟩
            rw [unmaps] at isRange
            cases isRange
        | some r =>
            rcases perform_unmaps before there.1 sound unmaps done with
              ⟨noSplit, sound'⟩ | ⟨splits, cut⟩
            · refine .inl ⟨?_, sound'⟩
              rintro ⟨_, isRange, _, splits⟩
              rw [unmaps] at isRange
              cases isRange
              exact noSplit splits
            · exact .inr ⟨⟨r, unmaps, there.1 r.1 (needs_of_unmaps unmaps).1, splits⟩, cut⟩
      · rename_i notThere
        cases done
        refine .inl ⟨?_, sound⟩
        rintro ⟨r, unmaps, used, _⟩
        obtain ⟨needs, noSegment⟩ := needs_of_unmaps unmaps
        refine notThere ⟨fun mm isMm => ?_, fun s isSegment => ?_⟩
        · rw [needs] at isMm
          cases isMm
          exact used
        · rw [noSegment] at isSegment
          cases isSegment
  | dup target source answers =>
      by_cases there : m.vm.mmUsed target = true ∧ m.vm.mmUsed source = true ∧ source ≠ target ∧
          m.vm.areas target = []
      · rw [call, if_pos there] at done
        obtain ⟨isTarget, isSource, ne, empty⟩ := there
        have before := formed.supply answers
        obtain ⟨result, copied, rfl⟩ := map_eq_ok_iff.mp done
        exact .inl ⟨id, (dupMmap_enters (before.wellFormed target isTarget)
          (before.wellFormed source isSource).set ne empty sound copied).1⟩
      · rw [call, if_neg there] at done
        cases done
        exact .inl ⟨id, sound⟩

/-! ## Places -/

theorem Mapped.lays (mapped : m.Mapped mm a) : ∃ x, m.vm.Lays mm a x := by
  obtain ⟨_, v, mem, from_, upTo⟩ := mapped
  exact ⟨_, v, mem, from_, upTo, rfl⟩

/-- Places agree where they agree as the areas have them. -/
theorem Mapped.segmentAt_eq {y : Option (ShmemPtr × Nat)} (formed : m.Formed)
    (mapped : m.Mapped mm a) (agree : ∀ x, m.vm.Lays mm a x → x = y) :
    m.vm.segmentAt mm a = y := by
  obtain ⟨x, lays⟩ := mapped.lays
  rw [Vm.segmentAt_of_lays (formed.wellFormed mm mapped.1).set lays]
  exact agree x lays

/-- An address that stays mapped stays at its place. -/
theorem call_stays {c : Call} (formed : m.Formed) (sound : m.vm.ledger.Sound none)
    (noPunch : ¬m.Punches c) (notAnew : ¬c.Remaps mm a) (done : m.call c = .ok m')
    (mapped : m.Mapped mm a) (mapped' : m'.Mapped mm a) :
    m'.vm.segmentAt mm a = m.vm.segmentAt mm a := by
  have formed' := (call_formed formed c).2 m' done
  refine mapped'.segmentAt_eq formed' fun x lays => ?_
  refine (Vm.segmentAt_of_lays (formed.wellFormed mm mapped.1).set ?_).symm
  cases c with
  | event i =>
      change m.step i = .ok m' at done
      unfold step at done
      split at done
      · rename_i there
        have noSplit : ∀ r ∈ i.event.unmaps, ¬(m.supply i).SplitsShared r.1 r.2.1 r.2.2 :=
          fun r unmaps splits =>
            noPunch ⟨r, unmaps, there.1 r.1 (needs_of_unmaps unmaps).1, splits⟩
        exact @perform_lays (m.supply i) m' mm a _ i.event (formed.supply i) there.1 there.2 sound
          noSplit done mapped.1 mapped'.1 mapped.2 notAnew lays
      · cases done
        exact lays
  | dup target source answers =>
      by_cases there : m.vm.mmUsed target = true ∧ m.vm.mmUsed source = true ∧ source ≠ target ∧
          m.vm.areas target = []
      · rw [call, if_pos there] at done
        obtain ⟨result, copied, rfl⟩ := map_eq_ok_iff.mp done
        have other : mm ≠ target := by
          rintro rfl
          obtain ⟨_, v, mem, _⟩ := mapped
          rw [there.2.2.2] at mem
          cases mem
        have before := formed.supply answers
        exact ((dupMmap_touches before.backed copied).spares mm other (before.owns mm)).lays lays
      · rw [call, if_neg there] at done
        cases done
        exact lays

/-- The address is in an area now, and was in none. -/
def Gains (m m' : Memory) (mm : MmPtr) (a : Nat) : Prop :=
  ¬m.Mapped mm a ∧ m'.Mapped mm a

/-- The places of the addresses that a call maps: those of a segment from its beginning on, and
those of the areas that are copied. -/
structure Places (m : Memory) (c : Call) (m' : Memory) : Prop where
  mapShmem : ∀ (i : Input) (mm : MmPtr) (addr : Nat) (flags : BitVec 32) (s : ShmemPtr),
    c = .event i → i.event = .mapShmem mm addr flags s →
      ∀ a, m.Gains m' mm a → m'.vm.segmentAt mm a = some (s, a - addr)
  shmem : ∀ (i : Input) (mm : MmPtr) (addr len : Nat) (flags : BitVec 32),
    c = .event i → i.event = .shmem mm addr len flags →
      ∃ s start, ∀ a, m.Gains m' mm a → m'.vm.segmentAt mm a = some (s, a - start)
  copies : ∀ source ∈ c.source, ∀ mm a, m.Gains m' mm a →
    m'.vm.segmentAt mm a = m.vm.segmentAt source a

theorem supply_spares (m : Memory) {i : Input} : m.vm.Spares (m.supply i).vm mm :=
  .of_eq rfl rfl rfl rfl

/-- An address space that is spared gains no address. -/
theorem Gains.not_spares (gains : m.Gains m' mm a) : ¬m.vm.Spares m'.vm mm := by
  intro spares
  obtain ⟨x, lays⟩ := gains.2.lays
  exact gains.1 ⟨spares.mmUsed.symm.trans gains.2.1, (spares.lays lays).covers⟩

/-- The place of an address in a new area. -/
theorem Gains.segmentAt {new : Nat → Option (ShmemPtr × Nat)} (gains : m.Gains m' mm a)
    (formed : m'.Formed) (used : m.vm.mmUsed mm = true) (grows : m.vm.Grows m'.vm mm new) :
    m'.vm.segmentAt mm a = new a := by
  refine gains.2.segmentAt_eq formed fun x lays => ?_
  rcases grows a x lays with before | ⟨_, isNew⟩
  · exact absurd ⟨used, before.covers⟩ gains.1
  · exact isNew

/-- The place of an address in a copy. -/
theorem Gains.segmentAt_copy {source : MmPtr} (gains : m.Gains m' mm a) (formed : m.Formed)
    (formed' : m'.Formed) (used : m.vm.mmUsed source = true)
    (copied : ∀ x, m'.vm.Lays mm a x → m.vm.Lays source a x) :
    m'.vm.segmentAt mm a = m.vm.segmentAt source a := by
  refine gains.2.segmentAt_eq formed' fun x lays => ?_
  exact (Vm.segmentAt_of_lays (formed.wellFormed source used).set (copied x lays)).symm

theorem call_places {c : Call} (formed : m.Formed) (sound : m.vm.ledger.Sound none)
    (done : m.call c = .ok m') : m.Places c m' := by
  have formed' := (call_formed formed c).2 m' done
  refine ⟨?_, ?_, ?_⟩
  · rintro ⟨_, addresses, frames, io⟩ mm addr flags s rfl rfl a gains
    change m.step _ = .ok m' at done
    unfold step at done
    split at done
    · rename_i there
      obtain ⟨⟨ret, vm⟩, mapped, rest⟩ := bind_eq_ok_iff.mp done
      cases rest
      have used := there.1 mm rfl
      exact gains.segmentAt formed' used (Vm.mmMapShmem_enters
        ((formed.supply _).wellFormed mm used).set sound (by simp) (there.2 s rfl) mapped).1
    · cases done
      exact absurd gains.2 gains.1
  · rintro ⟨_, addresses, frames, io⟩ mm addr len flags rfl rfl
    change m.step _ = .ok m' at done
    unfold step at done
    split at done
    · rename_i there
      obtain ⟨result, shared, rfl⟩ := map_eq_ok_iff.mp done
      have used := there.1 mm rfl
      obtain ⟨_, s, start, grows⟩ :=
        doShmem_enters ((formed.supply _).wellFormed mm used).set sound shared
      exact ⟨s, start, fun a gains => gains.segmentAt formed' used grows⟩
    · cases done
      exact ⟨0, 0, fun a gains => absurd gains.2 gains.1⟩
  · intro source isSource mm a gains
    cases c with
    | event i =>
        obtain ⟨e, addresses, frames, io⟩ := i
        cases e with
        | fork source' =>
            cases isSource
            change m.step _ = .ok m' at done
            unfold step at done
            split at done
            · rename_i there
              obtain ⟨result, copied, rfl⟩ := map_eq_ok_iff.mp done
              have used := there.1 source rfl
              obtain ⟨_, spares, places⟩ := copyMm_enters (formed.supply _) used sound copied
              cases there' : m.vm.mmUsed mm with
              | true => exact absurd (m.supply_spares.trans (spares mm there')) gains.not_spares
              | false =>
                  exact gains.segmentAt_copy formed formed' used fun x lays =>
                    places mm there' gains.2.1 a x lays
            · cases done
              exact absurd gains.2 gains.1
        | _ => cases isSource
    | dup target source' answers =>
        cases isSource
        by_cases there : m.vm.mmUsed target = true ∧ m.vm.mmUsed source = true ∧ source ≠ target ∧
            m.vm.areas target = []
        · rw [call, if_pos there] at done
          obtain ⟨isTarget, used, ne, empty⟩ := there
          have before := formed.supply answers
          obtain ⟨result, copied, rfl⟩ := map_eq_ok_iff.mp done
          by_cases own : mm = target
          · subst own
            obtain ⟨_, places⟩ := dupMmap_enters (before.wellFormed mm isTarget)
              (before.wellFormed source used).set ne empty sound copied
            exact gains.segmentAt_copy formed formed' used (places a)
          · have spares := (dupMmap_touches before.backed copied).spares mm own (before.owns mm)
            exact absurd (m.supply_spares.trans spares) gains.not_spares
        · rw [call, if_neg there] at done
          cases done
          exact absurd gains.2 gains.1

/-! ## Runs -/

/-- A memory without address spaces, areas and segments. -/
structure Bare (m : Memory) : Prop extends Blank m where
  vma : ∀ v, m.vm.vmaUsed v = false
  segment : ∀ s, m.vm.shmemUsed s = false

theorem Bare.sound (bare : m.Bare) : m.vm.ledger.Sound none :=
  .of_empty (fun v => if_neg (by simp [bare.vma])) fun s => if_neg (by simp [bare.segment])

/-- What the calls keep, unless one of them makes a hole in a shared area. -/
structure Orderly (m : Memory) : Prop where
  formed : m.Formed
  sound : m.vm.ledger.Sound none

theorem Orderly.next {c : Call} (orderly : m.Orderly) (noPunch : ¬m.Punches c)
    (done : m.call c = .ok m') : m'.Orderly := by
  rcases call_ledger orderly.formed orderly.sound done with ⟨_, sound⟩ | ⟨punches, _⟩
  · exact ⟨(call_formed orderly.formed c).2 m' done, sound⟩
  · exact absurd punches noPunch

/-- A cut area is not in order. -/
theorem SharesInOrder.not_cut (inOrder : m.SharesInOrder) : ¬m.vm.ledger.Cut := by
  rintro ⟨v, a, there, shared, noSegment⟩
  rw [Vm.ledger_area] at there
  split at there
  · rename_i used
    cases there
    obtain ⟨s, shmem, _⟩ := inOrder.within v used shared
    cases noSegment.symm.trans shmem
  · cases there

theorem Orderly.no_punch {c : Call} (orderly : m.Orderly) (done : m.call c = .ok m')
    (inOrder : m'.SharesInOrder) : ¬m.Punches c := by
  rcases call_ledger orderly.formed orderly.sound done with ⟨noPunch, _⟩ | ⟨_, cut⟩
  · exact noPunch
  · exact absurd cut inOrder.not_cut

theorem Orderly.run {calls : List Call} (orderly : m.Orderly)
    (along : Run.Along call (fun m c => ¬m.Punches c) m calls)
    (run : Run.exec call m calls = .ok m') : m'.Orderly :=
  Run.exec_invariant_along (fun _ _ _ before noPunch done => before.next noPunch done) orderly along
    run

/-- An address that stays mapped for a while stays at its place. -/
theorem Orderly.stays {stretch : List Call} (orderly : m.Orderly)
    (along : Run.Along call
      (fun m c => ¬m.Punches c ∧ m.Mapped mm a ∧ ¬c.Remaps mm a) m stretch)
    (run : Run.exec call m stretch = .ok m') (mapped : m'.Mapped mm a) :
    m'.vm.segmentAt mm a = m.vm.segmentAt mm a := by
  induction stretch generalizing m with
  | nil =>
      cases run
      rfl
  | cons c rest ih =>
      obtain ⟨next, done, run⟩ := Run.exec_cons_eq_ok_iff.mp run
      obtain ⟨⟨noPunch, here, notAnew⟩, later⟩ := along
      have along' := later next done
      have mappedNext : next.Mapped mm a := by
        cases rest with
        | nil =>
            cases run
            exact mapped
        | cons _ _ => exact along'.1.2.1
      rw [ih (orderly.next noPunch done) along' run]
      exact call_stays orderly.formed orderly.sound noPunch notAnew done here mappedNext

/-- Every address is at the place where a call maps it as long as it is mapped. -/
structure KeepsPlaces (m₀ : Memory) (calls : List Call) : Prop where
  mapped : ∀ first c last before after, first ++ c :: last = calls →
    Run.exec call m₀ first = .ok before → before.call c = .ok after → before.Places c after
  stays : ∀ first stretch last before after, first ++ (stretch ++ last) = calls →
    Run.exec call m₀ first = .ok before → Run.exec call before stretch = .ok after →
      ∀ mm a, Run.Along call (fun m c => m.Mapped mm a ∧ ¬c.Remaps mm a) before stretch →
        after.Mapped mm a → after.vm.segmentAt mm a = before.vm.segmentAt mm a

theorem Orderly.keepsPlaces {calls : List Call} (orderly : m.Orderly)
    (along : Run.Along call (fun m c => ¬m.Punches c) m calls) : m.KeepsPlaces calls := by
  constructor
  · rintro first c last before after rfl reaches done
    have here := orderly.run (Run.along_of_append_left along) reaches
    exact call_places here.formed here.sound done
  · rintro first stretch last before after rfl reaches run mm a stays mapped
    have here := orderly.run (Run.along_of_append_left along) reaches
    have noPunch := Run.along_of_append_left (Run.along_of_append along reaches)
    exact here.stays (Run.along_and noPunch stays) run mapped

/-- In every state that calls reach, shared areas lie within segments that count them, and every
address is at the place where it was mapped, exactly when no call makes a hole in a shared
area. -/
theorem shared_areas_iff {m₀ : Memory} {calls : List Call} (bare : m₀.Bare)
    (run : Run.exec call m₀ calls = .ok m) :
    ((∀ first last reached, first ++ last = calls → Run.exec call m₀ first = .ok reached →
        reached.SharesInOrder) ∧ m₀.KeepsPlaces calls) ↔
      Run.Along call (fun m c => ¬m.Punches c) m₀ calls := by
  have orderly : m₀.Orderly := ⟨bare.toBlank.formed, bare.sound⟩
  have inOrder := Run.reached_iff_along_of_breaks
    (fun _ _ _ before noPunch done => Orderly.next before noPunch done)
    (fun _ _ _ before done inOrder => Orderly.no_punch before done inOrder)
    (fun _ before => sharesInOrder_of_sound before.sound) orderly run
  exact ⟨fun both => inOrder.mp both.1, fun along => ⟨inOrder.mpr along, orderly.keepsPlaces along⟩⟩

/-- A page strictly inside a shared area is unmapped: the area behind it has no segment. -/
theorem shared_areas_hole : ¬∀ (m₀ m : Memory) (calls : List Call), m₀.Bare →
    Run.exec call m₀ calls = .ok m → m.SharesInOrder := by
  intro inOrder
  obtain ⟨m, run, used, shared, noSegment⟩ := @Run.exec_of_decide _ _ _ call
    (fun m => m.vm.vmaUsed 3 = true ∧ has (m.vm.vma 3).vmFlags vmShare = true ∧
      (m.vm.vma 3).shmem = none) _ unusedMemory
    [.event ⟨.new, [some 1], [some 0], []⟩,
      .event ⟨.shmem 1 userBase (3 * pgSize) vmWrite, [some 1, some 2], [], []⟩,
      .event ⟨.unmap 1 (userBase + pgSize) pgSize, [some 3], [], []⟩] (by decide +kernel)
  have bare : unusedMemory.Bare := ⟨⟨fun _ => ⟨rfl, rfl⟩, fun _ _ => rfl⟩, fun _ => rfl, fun _ => rfl⟩
  obtain ⟨s, shmem, _⟩ := (inOrder unusedMemory m _ bare run).within 3 used shared
  cases noSegment.symm.trans shmem

/-- A segment is trimmed at both ends and copied, and the copy stays when the first mapping is
left; a hole is asked for, but there is no memory for a second area. -/
theorem shared_areas_trimmed : ∃ calls : List Call, ∃ m : Memory,
    Run.exec call unusedMemory calls = .ok m ∧ m.vm.mmUsed 1 = false ∧
      m.vm.segmentAt 2 (userBase + 2 * pgSize) = some (1, 2 * pgSize) ∧
      (m.vm.shmem 1).shmemRef = 1 ∧ m.SharesInOrder ∧ unusedMemory.KeepsPlaces calls := by
  let calls : List Call :=
    [.event ⟨.new, [some 1], [some 0], []⟩,
      .event ⟨.shmem 1 userBase (5 * pgSize) vmWrite, [some 1, some 2], [], []⟩,
      .event ⟨.unmap 1 userBase pgSize, [], [], []⟩,
      .event ⟨.unmap 1 (userBase + 4 * pgSize) pgSize, [], [], []⟩,
      .event ⟨.unmap 1 (userBase + 2 * pgSize) pgSize, [none], [], []⟩,
      .event ⟨.fork 1, [some 2, some 3], [some 1], []⟩,
      .event ⟨.leave 1, [], [], []⟩]
  obtain ⟨m, run, gone, place, count⟩ := @Run.exec_of_decide _ _ _ call
    (fun m => m.vm.mmUsed 1 = false ∧
      m.vm.segmentAt 2 (userBase + 2 * pgSize) = some (1, 2 * pgSize) ∧
      (m.vm.shmem 1).shmemRef = 1) _ unusedMemory calls (by decide +kernel)
  have bare : unusedMemory.Bare := ⟨⟨fun _ => ⟨rfl, rfl⟩, fun _ _ => rfl⟩, fun _ => rfl, fun _ => rfl⟩
  obtain ⟨inOrder, places⟩ := (shared_areas_iff bare run).mpr (by decide +kernel)
  exact ⟨calls, m, run, gone, place, count, inOrder calls [] m (List.append_nil _) run, places⟩

end Memory

end EdfKernel.Mm
