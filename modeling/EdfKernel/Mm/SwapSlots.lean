import EdfKernel.Library.Run
import EdfKernel.Mm.Pages
import Mathlib.Data.List.Nodup

/-!
# Swap slots

`try_alloc_swap_entry` looks at the slots in a circle, from the one that its cursor stands at.
-/

namespace EdfKernel.Mm

open Library

namespace Pages

variable {p q : Pages} {o e : Nat} {f g : Frame}

/-! ## The scan -/

/-- A slot of the swap device; there is none with the offset 0. -/
def IsSlot (p : Pages) (o : Nat) : Prop := 0 < o ∧ o < p.maxSwapOffset

instance decidableIsSlot (p : Pages) (o : Nat) : Decidable (p.IsSlot o) :=
  inferInstanceAs (Decidable (_ ∧ _))

theorem IsSlot.ne_zero (slot : p.IsSlot o) : o ≠ 0 :=
  Nat.pos_iff_ne_zero.mp slot.1

/-- The slot that the cursor comes to after `i` rounds. -/
def slotAfter (p : Pages) (start i : Nat) : Nat :=
  if start + i < p.maxSwapOffset then start + i else start + i + 1 - p.maxSwapOffset

theorem slotAfter_succ {start i : Nat} (inRange : p.IsSlot start) (le : i + 1 < p.maxSwapOffset) :
    (if p.slotAfter start i + 1 = p.maxSwapOffset then 1 else p.slotAfter start i + 1) =
      p.slotAfter start (i + 1) := by
  obtain ⟨positive, below⟩ := inRange
  unfold slotAfter
  split <;> split <;> split <;> omega

theorem slotAfter_isSlot {start i : Nat} (inRange : p.IsSlot start)
    (le : i + 1 ≤ p.maxSwapOffset) : p.IsSlot (p.slotAfter start i) := by
  obtain ⟨positive, below⟩ := inRange
  unfold slotAfter IsSlot
  split <;> omega

/-- The cursor comes to every slot. -/
theorem exists_slotAfter {start : Nat} (inRange : p.IsSlot start) (slot : p.IsSlot o) :
    ∃ i, i + 1 < p.maxSwapOffset ∧ p.slotAfter start i = o := by
  obtain ⟨positive, below⟩ := inRange
  obtain ⟨positive', below'⟩ := slot
  by_cases after : start ≤ o
  · refine ⟨o - start, by omega, ?_⟩
    rw [slotAfter, if_pos (by omega)]
    omega
  · refine ⟨o + p.maxSwapOffset - 1 - start, by omega, ?_⟩
    rw [slotAfter, if_neg (by omega)]
    omega

/-- What a scan from the slot after `i` rounds has found: an unused slot, or the first slot
without references of those it still came to. -/
structure Scanned (p : Pages) (start i : Nat) (idle : SwapEntry)
    (found : SwapEntry × SwapEntry × SwapEntry) : Prop where
  cursor : p.IsSlot found.2.2
  unused : found.1 ≠ 0 → p.IsSlot found.1 ∧ p.memMap found.1 = swapUnused
  all : found.1 = 0 → ∀ j, i ≤ j → j + 1 < p.maxSwapOffset →
    p.memMap (p.slotAfter start j) ≠ swapUnused
  kept : idle ≠ 0 → found.2.1 = idle
  idle : found.2.1 ≠ 0 → found.2.1 = idle ∨
    p.IsSlot found.2.1 ∧ p.memMap found.2.1 = 0
  none : found.1 = 0 → found.2.1 = 0 → ∀ j, i ≤ j → j + 1 < p.maxSwapOffset →
    p.memMap (p.slotAfter start j) ≠ 0

/-- The loop comes back to the slot it began with after it has been at all of them. -/
theorem slotAfter_ne_start {start i : Nat} (inRange : p.IsSlot start)
    (more : i + 1 < p.maxSwapOffset) :
    p.slotAfter start (i + 1) ≠ start ↔ i + 2 < p.maxSwapOffset := by
  obtain ⟨positive, below⟩ := inRange
  unfold slotAfter
  split <;> omega

/-- The first slot without references, when the scan has been at one more slot. -/
def idleAt (p : Pages) (slot idle : Nat) : Nat :=
  if p.memMap slot = 0 ∧ idle = 0 then slot else idle

section Scanned

variable {start i idle : Nat} {found : SwapEntry × SwapEntry × SwapEntry}

theorem Scanned.of_last (cursor : p.IsSlot e) (slot : p.IsSlot (p.slotAfter start i))
    (used : p.memMap (p.slotAfter start i) ≠ swapUnused) (last : p.maxSwapOffset ≤ i + 2) :
    Scanned p start i idle (0, p.idleAt (p.slotAfter start i) idle, e) := by
  have only : ∀ j, i ≤ j → j + 1 < p.maxSwapOffset → j = i := fun j low high => by omega
  constructor
  · exact cursor
  · exact fun nonzero => absurd rfl nonzero
  · intro _ j low high
    rw [only j low high]
    exact used
  · intro kept
    exact if_neg fun both => kept both.2
  · intro nonzero
    dsimp only [idleAt] at nonzero ⊢
    split
    · rename_i both
      exact .inr ⟨slot, both.1⟩
    · exact .inl rfl
  · intro _ none j low high
    rw [only j low high]
    intro zero
    dsimp only [idleAt] at none
    by_cases fresh : idle = 0
    · rw [if_pos ⟨zero, fresh⟩] at none
      exact slot.ne_zero none
    · rw [if_neg fun both => fresh both.2] at none
      exact fresh none

theorem Scanned.of_next (slot : p.IsSlot (p.slotAfter start i))
    (used : p.memMap (p.slotAfter start i) ≠ swapUnused)
    (rest : Scanned p start (i + 1) (p.idleAt (p.slotAfter start i) idle) found) :
    Scanned p start i idle found := by
  have kept : idle ≠ 0 → p.idleAt (p.slotAfter start i) idle = idle :=
    fun taken => if_neg fun both => taken both.2
  constructor
  · exact rest.cursor
  · exact rest.unused
  · intro empty j low high
    rcases Nat.eq_or_lt_of_le low with rfl | after
    · exact used
    · exact rest.all empty j after high
  · intro taken
    have same := kept taken
    exact (rest.kept (by rw [same]; exact taken)).trans same
  · intro some
    rcases rest.idle some with same | own
    · unfold idleAt at same
      split at same
      · rename_i both
        exact .inr ⟨same ▸ slot, same ▸ both.1⟩
      · exact .inl same
    · exact .inr own
  · intro empty none j low high
    rcases Nat.eq_or_lt_of_le low with rfl | after
    · intro zero
      have taken : p.idleAt (p.slotAfter start i) idle ≠ 0 := by
        by_cases fresh : idle = 0
        · rw [idleAt, if_pos ⟨zero, fresh⟩]
          exact slot.ne_zero
        · rw [kept fresh]
          exact fresh
      exact taken ((rest.kept taken).symm.trans none)
    · exact rest.none empty none j after high

end Scanned

theorem scanSlots_spec {start : Nat} (inRange : p.IsSlot start) (fuel i : Nat)
    (more : i + 1 < p.maxSwapOffset) (enough : p.maxSwapOffset ≤ fuel + i + 1) (idle : Nat) :
    Scanned p start i idle (p.scanSlots start fuel (p.slotAfter start i) idle) ∧
      ∀ fuel', p.maxSwapOffset ≤ fuel' + i + 1 →
        p.scanSlots start fuel' (p.slotAfter start i) idle =
          p.scanSlots start fuel (p.slotAfter start i) idle := by
  induction fuel generalizing i idle with
  | zero => omega
  | succ fuel ih =>
      have slot := slotAfter_isSlot inRange (Nat.le_of_lt more)
      have next := slotAfter_isSlot (i := i + 1) inRange more
      have round : ∀ fuel, p.scanSlots start (fuel + 1) (p.slotAfter start i) idle =
          if p.memMap (p.slotAfter start i) = swapUnused then
            (p.slotAfter start i, idle, p.slotAfter start (i + 1))
          else if p.slotAfter start (i + 1) ≠ start then
            p.scanSlots start fuel (p.slotAfter start (i + 1)) (p.idleAt (p.slotAfter start i) idle)
          else (0, p.idleAt (p.slotAfter start i) idle, p.slotAfter start (i + 1)) := by
        intro fuel
        rw [scanSlots]
        simp only [slotAfter_succ inRange more]
        by_cases unused : p.memMap (p.slotAfter start i) = swapUnused
        · have taken : ¬(p.memMap (p.slotAfter start i) = 0 ∧ idle = 0) := by
            rw [unused]
            rintro ⟨zero, _⟩
            cases zero
          have ended : ¬(p.slotAfter start i = 0 ∧ p.slotAfter start (i + 1) ≠ start) :=
            fun both => slot.ne_zero both.1
          rw [if_pos unused, if_neg taken, if_neg ended, if_pos unused]
        · simp only [if_neg unused, true_and]
          split
          · rfl
          · rfl
      constructor
      · rw [round]
        split
        · rename_i unused
          exact ⟨next, fun _ => ⟨slot, unused⟩, fun zero => absurd zero slot.ne_zero, fun _ => rfl,
            fun _ => .inl rfl, fun zero => absurd zero slot.ne_zero⟩
        · rename_i used
          split
          · rename_i again
            have further := (slotAfter_ne_start inRange more).mp again
            exact .of_next slot used (ih (i + 1) further (by omega) _).1
          · rename_i back
            refine .of_last next slot used (Nat.not_lt.mp fun further => ?_)
            exact back ((slotAfter_ne_start inRange more).mpr further)
      · intro fuel' enough'
        obtain ⟨fuel', rfl⟩ : ∃ n, fuel' = n + 1 := ⟨fuel' - 1, by omega⟩
        rw [round, round]
        split
        · rfl
        · split
          · rename_i again
            have further := (slotAfter_ne_start inRange more).mp again
            exact (ih (i + 1) further (by omega) _).2 fuel' (by omega)
          · rfl

/-! ## The slot that is reclaimed -/

/-- The hash chains and the swap lists hold the frames that cache a slot, each frame once and no
slot twice. -/
structure SwapLists (p : Pages) : Prop where
  hashed : ∀ h f, f ∈ p.hashList h ↔
    (p.page f).swap = true ∧ entryHashfn (p.page f).index = h
  chains : ∀ h, (p.hashList h).Nodup
  active : ∀ f, f ∈ p.activeList ↔ (p.page f).swap = true ∧ (p.page f).active = true
  inactive : ∀ f, f ∈ p.inactiveList ↔ (p.page f).swap = true ∧ (p.page f).active = false
  actives : p.activeList.Nodup
  inactives : p.inactiveList.Nodup
  single : ∀ f g, (p.page f).swap = true → (p.page g).swap = true →
    (p.page f).index = (p.page g).index → f = g
  held : ∀ f, (p.page f).swap = true → p.free f = false ∧ (p.page f).reserved = false

/-- The frame `f` caches the slot. -/
def Caches (p : Pages) (f : Frame) (slot : Nat) : Prop :=
  (p.page f).swap = true ∧ (p.page f).index = slot

theorem SwapLists.find (lists : p.SwapLists) (caches : p.Caches f e) :
    p.swapHashFind e = some f := by
  obtain ⟨swap, rfl⟩ := caches
  have listed : f ∈ p.hashList (entryHashfn (p.page f).index) := (lists.hashed _ _).mpr ⟨swap, rfl⟩
  unfold swapHashFind
  cases found : (p.hashList (entryHashfn (p.page f).index)).find? fun g =>
      (p.page g).index == (p.page f).index with
  | none =>
      have none := List.find?_eq_none.mp found f listed
      exact absurd (beq_self_eq_true _) none
  | some g =>
      have own : (p.page g).index = (p.page f).index := by
        simpa using List.find?_some found
      have cached := ((lists.hashed _ _).mp (List.mem_of_find?_eq_some found)).1
      rw [lists.single g f cached swap own]

/-- `q` is `p` after the slot has been taken from the frame that caches it. -/
structure Reclaims (p q : Pages) (slot : Nat) (f : Frame) : Prop where
  memMap : q.memMap = Function.update p.memMap slot swapUnused
  hash : ∀ h, q.hashList h = (p.hashList h).erase f ∧ f ∉ q.hashList h
  lists : q.activeList = p.activeList.erase f ∧ q.inactiveList = p.inactiveList.erase f ∧
    f ∉ q.activeList ∧ f ∉ q.inactiveList
  counts : q.nrActive = (if (p.page f).active then p.nrActive - 1 else p.nrActive) ∧
    q.nrInactive = if (p.page f).active then p.nrInactive else p.nrInactive - 1
  swap : (q.page f).swap = false
  kept : (p.page f).ref ≠ 0 → q.page f = { p.page f with swap := false }
  free : ∀ g, q.free g = true ↔ p.free g = true ∨ g = f ∧ (p.page f).ref = 0
  others : ∀ g, g ≠ f → q.page g = p.page g
  rest : q = { p with
    memMap := q.memMap, hashList := q.hashList, activeList := q.activeList,
    inactiveList := q.inactiveList, nrActive := q.nrActive, nrInactive := q.nrInactive,
    page := q.page, free := q.free }

theorem stealSlot_reclaims (lists : p.SwapLists) (caches : p.Caches f e) :
    ∃ q, p.stealSlot e = .ok q ∧ Reclaims p q e f := by
  have found := lists.find caches
  obtain ⟨swap, index⟩ := caches
  obtain ⟨taken, unreserved⟩ := lists.held f swap
  unfold stealSlot
  rw [found]
  have unlisted : f ∉ p.activeList.erase f ∧ f ∉ p.inactiveList.erase f :=
    ⟨lists.actives.not_mem_erase, lists.inactives.not_mem_erase⟩
  have erased : ∀ h, Function.update p.hashList (entryHashfn (p.page f).index)
      ((p.hashList (entryHashfn (p.page f).index)).erase f) h = (p.hashList h).erase f := by
    intro h
    by_cases own : h = entryHashfn (p.page f).index
    · subst own
      exact Function.update_self ..
    · rw [Function.update_of_ne own, List.erase_of_not_mem]
      exact fun mem => own ((lists.hashed h f).mp mem).2.symm
  have unhashed : ∀ h, Function.update p.hashList (entryHashfn (p.page f).index)
      ((p.hashList (entryHashfn (p.page f).index)).erase f) h = (p.hashList h).erase f ∧
      f ∉ Function.update p.hashList (entryHashfn (p.page f).index)
        ((p.hashList (entryHashfn (p.page f).index)).erase f) h := by
    intro h
    rw [erased]
    exact ⟨rfl, (lists.chains h).not_mem_erase⟩
  by_cases unmapped : (p.page f).ref = 0
  · refine ⟨_, by simp only [swapListDel, swapFreePage, swapPageDel, freePage, swap, unmapped,
      if_true, bind, Except.bind, and_self, modify, Function.update_self, taken, unreserved,
      Bool.false_eq_true, or_self, if_false, pure, Except.pure]; rfl, ?_⟩
    constructor
    · rfl
    · exact unhashed
    · exact ⟨rfl, rfl, unlisted⟩
    · exact ⟨rfl, rfl⟩
    · simp [setMap]
    · exact fun mapped => absurd unmapped mapped
    · intro g
      by_cases own : g = f
      · simp [setMap, own, unmapped]
      · simp [setMap, own]
    · intro g other
      simp [setMap, other]
    · rfl
  · refine ⟨_, by simp only [swapListDel, swapPageDel, swap, unmapped,
      if_true, bind, Except.bind, if_false, pure, Except.pure]; rfl, ?_⟩
    constructor
    · rfl
    · exact unhashed
    · exact ⟨rfl, rfl, unlisted⟩
    · exact ⟨rfl, rfl⟩
    · simp [setMap, modify]
    · exact fun _ => by simp [setMap, modify]
    · intro g
      simp [setMap, modify, unmapped]
    · intro g other
      simp [setMap, modify, other]
    · rfl

/-! ## try_alloc_swap_entry -/

/-- A count of zero means that a cached page with that index exists. -/
def Accounted (p : Pages) : Prop :=
  ∀ o, p.IsSlot o → p.memMap o = 0 → ∃ f, p.Caches f o

/-- The scan comes back to its cursor; an unused slot is returned if there is one, and else a slot
without references is taken from the frame that caches it; nothing else changes but the cursor. -/
theorem tryAllocSwapEntry_spec (lists : p.SwapLists) (accounted : p.Accounted)
    (cursor : p.IsSlot p.next) :
    (∀ fuel, p.maxSwapOffset ≤ fuel →
      p.scanSlots p.next fuel p.next 0 = p.scanSlots p.next p.maxSwapOffset p.next 0) ∧
    ∃ entry q, p.tryAllocSwapEntry = .ok (entry, q) ∧ q.IsSlot q.next ∧
      (entry = 0 ↔ ∀ o, p.IsSlot o → p.memMap o ≠ swapUnused ∧ p.memMap o ≠ 0) ∧
      (entry = 0 → q = { p with next := q.next }) ∧
      (entry ≠ 0 → p.IsSlot entry) ∧
      ((∃ o, p.IsSlot o ∧ p.memMap o = swapUnused) →
        p.memMap entry = swapUnused ∧ q = { p with next := q.next }) ∧
      ((∀ o, p.IsSlot o → p.memMap o ≠ swapUnused) → entry ≠ 0 →
        p.memMap entry = 0 ∧ ∃ f, p.Caches f entry ∧
          Reclaims { p with next := q.next } q entry f) := by
  have first : p.slotAfter p.next 0 = p.next := if_pos cursor.2
  have more : 0 + 1 < p.maxSwapOffset := by
    obtain ⟨positive, below⟩ := cursor
    omega
  obtain ⟨scanned, independent⟩ := scanSlots_spec cursor p.maxSwapOffset 0 more (by omega) 0
  rw [first] at scanned independent
  refine ⟨fun fuel enough => independent fuel (by omega), ?_⟩
  -- the scan has been at every slot
  have everywhere : ∀ holds : Nat → Prop,
      (∀ j, 0 ≤ j → j + 1 < p.maxSwapOffset → holds (p.memMap (p.slotAfter p.next j))) →
        ∀ o, p.IsSlot o → holds (p.memMap o) := by
    intro holds all o slot
    obtain ⟨i, inRange, rfl⟩ := exists_slotAfter cursor slot
    exact all i (Nat.zero_le i) inRange
  unfold tryAllocSwapEntry
  rcases found : p.scanSlots p.next p.maxSwapOffset p.next 0 with ⟨empty, idle, next⟩
  rw [found] at scanned
  obtain ⟨cursor', unused, all, _, idleSlot, none⟩ := scanned
  dsimp only at cursor' unused all idleSlot none ⊢
  by_cases taken : empty = 0
  · have used := everywhere (· ≠ swapUnused) (all taken)
    rw [if_neg (not_not.mpr taken)]
    by_cases counted : idle = 0
    · have positive := everywhere (· ≠ 0) (none taken counted)
      rw [if_neg (not_not.mpr counted)]
      refine ⟨0, _, rfl, cursor', iff_of_true rfl fun o slot => ⟨used o slot, positive o slot⟩,
        fun _ => rfl, fun nonzero => absurd rfl nonzero, ?_, fun _ nonzero => absurd rfl nonzero⟩
      rintro ⟨o, slot, unusedSlot⟩
      exact absurd unusedSlot (used o slot)
    · rw [if_pos counted]
      obtain ⟨slot, zero⟩ := (idleSlot counted).resolve_left counted
      obtain ⟨f, caches⟩ := accounted idle slot zero
      have lists' : SwapLists { p with next := next } := ⟨lists.hashed, lists.chains, lists.active,
        lists.inactive, lists.actives, lists.inactives, lists.single, lists.held⟩
      obtain ⟨q, stolen, reclaims⟩ := stealSlot_reclaims lists' (e := idle) caches
      have nextEq : q.next = next := (congrArg Pages.next reclaims.rest :)
      have maxEq : q.maxSwapOffset = p.maxSwapOffset :=
        (congrArg Pages.maxSwapOffset reclaims.rest :)
      refine ⟨idle, q, ?_, ?_, ?_, fun zero => absurd zero counted, fun _ => slot, ?_, ?_⟩
      · rw [stolen]
        rfl
      · rw [IsSlot, nextEq, maxEq]
        exact cursor'
      · exact iff_of_false counted fun positive => (positive idle slot).2 zero
      · rintro ⟨o, slot, unusedSlot⟩
        exact absurd unusedSlot (used o slot)
      · intro _ _
        exact ⟨zero, f, caches, nextEq ▸ reclaims⟩
  · obtain ⟨slot, unusedSlot⟩ := unused taken
    rw [if_pos taken]
    refine ⟨empty, _, rfl, cursor', ?_, fun zero => absurd zero taken, fun _ => slot,
      fun _ => ⟨unusedSlot, rfl⟩, ?_⟩
    · exact iff_of_false taken fun positive => (positive empty slot).1 unusedSlot
    · exact fun used _ => absurd unusedSlot (used empty slot)

/-- Three slots, of which the frame 7 caches the second one, that no entry refers to. -/
def oneIdle : Pages where
  page f := ⟨0, false, false, f == 7, false, 2⟩
  free f := f != 7
  data _ _ := 0
  pgdir _ := 0
  table _ _ := none
  pte _ := .zero
  shmnList _ := []
  shmnCache _ := none
  memMap o := if o = 2 then 0 else 1
  hashList h := if h = entryHashfn 2 then [7] else []
  activeList := []
  inactiveList := [7]
  nrActive := 0
  nrInactive := 1
  next := 3
  maxSwapOffset := 4
  disk _ _ := 0
  grants := []
  io := []

theorem oneIdle_lists : oneIdle.SwapLists := by
  have swap : ∀ f, (oneIdle.page f).swap = true ↔ f = 7 := fun f => beq_iff_eq
  constructor
  · intro h f
    rw [swap]
    change f ∈ (if h = entryHashfn 2 then [7] else []) ↔ f = 7 ∧ entryHashfn 2 = h
    split
    · rename_i own
      simp [own]
    · rename_i other
      simp [Ne.symm other]
  · intro h
    change (if h = entryHashfn 2 then [7] else [] : List Frame).Nodup
    split
    · exact List.nodup_singleton 7
    · exact List.nodup_nil
  · intro f
    exact iff_of_false List.not_mem_nil fun both => Bool.false_ne_true both.2
  · intro f
    rw [swap]
    exact ⟨fun mem => ⟨List.mem_singleton.mp mem, rfl⟩, fun own => List.mem_singleton.mpr own.1⟩
  · exact List.nodup_nil
  · exact List.nodup_singleton 7
  · intro f g swapF swapG _
    exact ((swap f).mp swapF).trans ((swap g).mp swapG).symm
  · intro f swapF
    rw [(swap f).mp swapF]
    exact ⟨rfl, rfl⟩

theorem oneIdle_accounted : oneIdle.Accounted := by
  intro o slot zero
  have second : o = 2 := by
    by_contra other
    have one : oneIdle.memMap o = 1 := if_neg other
    rw [one] at zero
    cases zero
  exact ⟨7, rfl, second.symm⟩

/-- The second slot is taken from its frame, which is freed. -/
theorem tryAllocSwapEntry_spec_oneIdle :
    ∃ entry q, oneIdle.tryAllocSwapEntry = .ok (entry, q) ∧ entry ≠ 0 ∧
      oneIdle.memMap entry = 0 ∧ ∃ f, oneIdle.Caches f entry ∧
        Reclaims { oneIdle with next := q.next } q entry f := by
  obtain ⟨_, entry, q, result, _, zero, _, _, _, reclaims⟩ :=
    tryAllocSwapEntry_spec oneIdle_lists oneIdle_accounted (by decide)
  have unused : ∀ o, oneIdle.IsSlot o → oneIdle.memMap o ≠ swapUnused := by
    intro o _
    change (if o = 2 then 0 else 1) ≠ swapUnused
    split <;> decide
  have taken : entry ≠ 0 := fun none => (zero.mp none 2 (by decide)).2 rfl
  exact ⟨entry, q, result, taken, reclaims unused taken⟩

end Pages

end EdfKernel.Mm
