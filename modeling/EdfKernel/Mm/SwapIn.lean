import EdfKernel.Mm.Accounting

/-!
# Processes that swap in at once

`swap_in_page` may sleep in `alloc_page` and in `lock`, and anything may run there: other processes
that swap in, `kswapd`, and calls of every kind.  Nothing between `lock` and `unlock` sleeps, so that
part is one step, and the lock is free between the steps.
-/

namespace EdfKernel.Mm

open Library

/-- Where a process is in `swap_in_page`. -/
inductive Caller
  | outside
  /-- in `alloc_page`, as no page caches the slot -/
  | allocating (entry : SwapEntry)
  /-- in `lock`, with what `alloc_page` has returned -/
  | locking (entry : SwapEntry) (newpage : Option Frame)
  | returned (entry : SwapEntry) (ret : Int) (page : Frame)
  deriving DecidableEq, Repr

namespace Caller

/-- The slot that a call is for that has not returned. -/
def entry : Caller → Option SwapEntry
  | .allocating entry => some entry
  | .locking entry _ => some entry
  | _ => none

/-- The page that a process has allocated and not used yet. -/
def hand : Caller → Multiset Use
  | .locking _ newpage => Pages.spares newpage
  | _ => 0

/-- A process that is in no call has nothing in hand. -/
theorem hand_of_entry {caller : Caller} (none : caller.entry = none) : caller.hand = 0 := by
  cases caller with
  | locking entry newpage => cases none
  | _ => rfl

end Caller

/-- The memory, and where each process is. -/
structure Swapping where
  memory : Memory
  caller : Nat → Caller

/-- A step of a process in `swap_in_page`, or what others do meanwhile. -/
inductive Move
  | act (a : Act)
  /-- `swap_in_page` is called -/
  | enter (process : Nat) (entry : SwapEntry)
  /-- `alloc_page` returns -/
  | allocate (process : Nat) (answers : Input)
  /-- `lock` returns -/
  | lock (process : Nat) (answers : Input)
  deriving Repr

namespace Pages

variable {p : Pages} {e : SwapEntry} {newpage : Option Frame}

/-- The slot is counted for an entry at least. -/
def Live (p : Pages) (e : SwapEntry) : Prop :=
  p.IsSlot e ∧ p.memMap e ≠ 0 ∧ p.memMap e ≠ swapUnused

instance (p : Pages) (e : SwapEntry) : Decidable (p.Live e) :=
  inferInstanceAs (Decidable ((0 < e ∧ e < p.maxSwapOffset) ∧ p.memMap e ≠ 0 ∧
    p.memMap e ≠ swapUnused))

/-- Where the first look at the hash leads to. -/
def entering (p : Pages) (entry : SwapEntry) : Caller :=
  match p.swapHashFind entry with
  | some f => .returned entry 0 f
  | none => .allocating entry

theorem entering_hand : (p.entering e).hand = 0 := by
  unfold entering
  split <;> rfl

theorem entry_notMem_spares : Use.entry e ∉ spares newpage := by
  cases newpage with
  | none => exact Multiset.notMem_zero _
  | some f =>
      rw [spares, Multiset.mem_singleton]
      rintro ⟨⟩

end Pages

namespace Swapping

variable {s s' s₀ : Swapping} {process : Nat} {e : SwapEntry} {f g : Frame} {ret : Int}
  {newpage : Option Frame} {moves : List Move} {lost : Frame → Prop}

/-- The memory and a process change. -/
def set (s : Swapping) (process : Nat) (caller : Caller) (pages : Pages) : Swapping where
  memory := { s.memory with pages := pages }
  caller := Function.update s.caller process caller

/-- One move; a process that is not at this point of `swap_in_page` does not move. -/
def step (s : Swapping) : Move → Except Panic Swapping
  | .act a => do
      let m ← s.memory.act a
      return { s with memory := m }
  | .enter process entry =>
      if (s.caller process).entry = none then do
        let _ ← s.memory.pages.swapOffset entry
        return s.set process (s.memory.pages.entering entry) s.memory.pages
      else .ok s
  | .allocate process answers =>
      match s.caller process with
      | .allocating entry =>
          let (newpage, pages) := (s.memory.supply answers).pages.allocPage
          .ok ({ s with memory := s.memory.supply answers }.set process (.locking entry newpage)
            pages)
      | _ => .ok s
  | .lock process answers =>
      match s.caller process with
      | .locking entry newpage => do
          let (ret, page, pages) ←
            (s.memory.supply answers).pages.swapInLocked entry newpage
          return { s with memory := s.memory.supply answers }.set process
            (.returned entry ret page) pages
      | _ => .ok s

/-- A process that gets the lock is there for a slot that is counted for an entry. -/
def Serves (s : Swapping) : Move → Prop
  | .lock process _ => ∀ e ∈ (s.caller process).entry, s.memory.pages.Live e
  | _ => True

instance decidableServes (s : Swapping) : DecidablePred s.Serves
  | .lock process _ =>
      inferInstanceAs (Decidable (∀ e ∈ (s.caller process).entry, s.memory.pages.Live e))
  | .act _ | .enter .. | .allocate .. => .isTrue trivial

/-- Nobody is in `swap_in_page`, and nothing exists. -/
structure Start (s : Swapping) : Prop where
  initial : s.memory.Initial
  blank : s.memory.Blank
  outside : ∀ process, s.caller process = .outside

/-- What the processes have in hand. -/
noncomputable def hands (s : Swapping) : Multiset Use :=
  tally fun process => (s.caller process).hand

/-- The memory is in balance with what the processes have in hand. -/
structure Sound (s : Swapping) (lost : Frame → Prop) : Prop where
  formed : s.memory.Formed
  sparse : Sparse fun process => (s.caller process).hand
  balanced : ∃ left : Multiset Use, (∀ u ∈ left, ∃ f, u = .whole f) ∧
    s.memory.Balanced ⟨s.memory.vm.mmUsed, lost, left + s.hands⟩

@[simp]
theorem set_caller (process : Nat) (caller : Caller) (pages : Pages) :
    (s.set process caller pages).caller process = caller :=
  Function.update_self ..

/-! ## Hands -/

/-- A process has something else in hand. -/
theorem hands_set (sparse : Sparse fun process => (s.caller process).hand) (process : Nat)
    (caller : Caller) (pages : Pages) :
    (Sparse fun other => ((s.set process caller pages).caller other).hand) ∧
      (s.set process caller pages).hands + (s.caller process).hand = s.hands + caller.hand := by
  have same : (fun other => ((s.set process caller pages).caller other).hand) =
      Function.update (fun other => (s.caller other).hand) process caller.hand := by
    funext other
    change (Function.update s.caller process caller other).hand = _
    by_cases own : other = process
    · subst own
      rw [Function.update_self, Function.update_self]
    · rw [Function.update_of_ne own, Function.update_of_ne own]
  rw [hands, hands, same]
  exact ⟨sparse.update process caller.hand, tally_update sparse process caller.hand⟩

namespace Sound

variable (sound : s.Sound lost)
include sound

theorem supply (answers : Input) :
    ({ s with memory := s.memory.supply answers } : Swapping).Sound lost := by
  obtain ⟨left, wholes, balanced⟩ := sound.balanced
  exact ⟨sound.formed.supply answers, sound.sparse, left, wholes, balanced.supply answers⟩

/-- The pages are in balance with what a process has in hand and with the rest, and they may change
together with what the process has in hand. -/
theorem split (process : Nat) : ∃ rest,
    s.memory.pages.Balanced (s.memory.live lost) (rest + (s.caller process).hand) ∧
      ∀ caller pages, pages.userTables = s.memory.pages.userTables →
        pages.Balanced (s.memory.live lost) (rest + caller.hand) →
          (s.set process caller pages).Sound lost := by
  obtain ⟨left, wholes, balanced⟩ := sound.balanced
  -- what the other processes have in hand
  let others := (s.set process .outside s.memory.pages).hands
  have before : others + (s.caller process).hand = s.hands :=
    (hands_set sound.sparse process .outside s.memory.pages).2.trans (add_zero _)
  refine ⟨left + others, ?_, fun caller pages tables after => ?_⟩
  · rw [add_assoc, before]
    exact balanced.pages
  · obtain ⟨sparse, hands⟩ := hands_set sound.sparse process caller pages
    have same : (s.set process caller pages).hands = others + caller.hand := by
      rw [← before, add_right_comm] at hands
      exact add_right_cancel hands
    refine ⟨sound.formed.of_pages tables, sparse, left, wholes, ?_, balanced.ledger⟩
    rw [add_assoc, ← same] at after
    exact after

theorem books : ∃ held, s.memory.pages.SwapBooks held none := by
  obtain ⟨left, wholes, balanced⟩ := sound.balanced
  exact ⟨_, balanced.pages.accounts.books⟩

theorem single (caches : s.memory.pages.Caches f e) (caches' : s.memory.pages.Caches g e) :
    f = g := by
  obtain ⟨held, books⟩ := sound.books
  exact books.single f g caches.1 caches'.1 (caches.2.trans caches'.2.symm)

/-! ## Moves -/

theorem enter (process : Nat) (none : (s.caller process).entry = none) (e : SwapEntry) :
    (s.set process (s.memory.pages.entering e) s.memory.pages).Sound lost := by
  obtain ⟨rest, balanced, sets⟩ := sound.split process
  refine sets _ _ rfl ?_
  rw [Caller.hand_of_entry none] at balanced
  rw [Pages.entering_hand]
  exact balanced

theorem allocate (isCaller : s.caller process = .allocating e) :
    (s.set process (.locking e s.memory.pages.allocPage.1) s.memory.pages.allocPage.2).Sound
      lost := by
  obtain ⟨rest, balanced, sets⟩ := sound.split process
  rw [isCaller] at balanced
  change s.memory.pages.Balanced _ (rest + 0) at balanced
  rw [add_zero] at balanced
  rcases answer : s.memory.pages.allocPage with ⟨newpage, pages⟩
  cases newpage with
  | none =>
      refine sets _ _ ?_ ?_
      · obtain ⟨grants, rfl⟩ := Pages.allocPage_none answer
        rfl
      · change pages.Balanced _ (rest + 0)
        rw [add_zero]
        exact balanced.withGrants answer
  | some f =>
      refine sets _ _ ?_ (balanced.allocPage answer)
      obtain ⟨_, grants, rfl⟩ := Pages.allocPage_some answer
      rfl

/-- A process that gets the lock for a slot that is counted for an entry does not stop. -/
theorem lock (isCaller : s.caller process = .locking e newpage)
    (isLive : s.memory.pages.Live e) : ∃ ret f pages,
    s.memory.pages.swapInLocked e newpage = .ok (ret, f, pages) ∧
      s.memory.pages.SwappedIn e newpage ret f pages ∧
        (s.set process (.returned e ret f) pages).Sound lost := by
  obtain ⟨rest, balanced, sets⟩ := sound.split process
  rw [isCaller] at balanced
  change s.memory.pages.Balanced _ (rest + Pages.spares newpage) at balanced
  have accounts := balanced.accounts
  obtain ⟨isSlot, some, used⟩ := isLive
  have held : Use.entry e ∈ rest + tally (s.memory.pages.holds (s.memory.live lost)) := by
    have counted := accounts.books.counted e isSlot used
    rw [counted, ← Nat.pos_iff_ne_zero, Multiset.count_pos, add_right_comm,
      Multiset.mem_add] at some
    exact some.resolve_right Pages.entry_notMem_spares
  rw [add_right_comm] at accounts
  obtain ⟨⟨ret, f, pages⟩, done, after, places, swappedIn⟩ :=
    (accounts.swapInLocked held).exists_ok
  refine ⟨ret, f, pages, done, swappedIn, sets _ _ ?_ ?_⟩
  · exact Pages.userTables_of_tables (congrArg Prod.fst places)
  · change Pages.Balanced _ _ (rest + 0)
    rw [add_zero]
    exact balanced.of_places places after

/-- Calls of every kind between the steps of `swap_in_page`. -/
theorem act {a : Act} {m : Memory} (done : s.memory.act a = .ok m) :
    ({ s with memory := m } : Swapping).Sound lost := by
  obtain ⟨left, wholes, balanced⟩ := sound.balanced
  have goes := (Memory.act_goes balanced sound.formed a).post_of_ok done
  obtain ⟨more, after, abandoned⟩ := goes.balanced
  rw [add_right_comm] at after
  refine ⟨Memory.act_formed sound.formed done, sound.sparse, left + more, fun u mem => ?_, after⟩
  rcases Multiset.mem_add.mp mem with mem | mem
  · exact wholes u mem
  · obtain ⟨f, isWhole, _⟩ := abandoned u mem
    exact ⟨f, isWhole⟩

/-- What one move keeps. -/
theorem step {move : Move} (serves : s.Serves move) (taken : s.step move = .ok s') :
    s'.Sound lost := by
  cases move with
  | act a =>
      obtain ⟨m, done, rest⟩ := bind_eq_ok_iff.mp taken
      cases rest
      exact sound.act done
  | enter process entry =>
      rw [Swapping.step] at taken
      split at taken
      · rename_i none
        obtain ⟨offset, _, rest⟩ := bind_eq_ok_iff.mp taken
        cases rest
        exact sound.enter process none entry
      · cases taken
        exact sound
  | allocate process answers =>
      rw [Swapping.step] at taken
      split at taken
      · rename_i e isCaller
        cases taken
        exact (sound.supply answers).allocate isCaller
      · cases taken
        exact sound
  | lock process answers =>
      rw [Swapping.step] at taken
      split at taken
      · rename_i e newpage isCaller
        have isLive : s.memory.pages.Live e := serves e (by rw [isCaller]; rfl)
        obtain ⟨ret, f, pages, done, _, after⟩ := (sound.supply answers).lock isCaller isLive
        rw [done] at taken
        cases taken
        exact after
      · cases taken
        exact sound

end Sound

theorem Start.sound (start : s.Start) : s.Sound fun f => s.memory.pages.free f = false := by
  have evens := start.initial.evens start.blank
  have idle : (fun process => (s.caller process).hand) = fun _ => 0 := by
    funext process
    rw [start.outside process]
    rfl
  refine ⟨start.blank.formed, ?_, 0, fun u mem => absurd mem (Multiset.notMem_zero u), ?_⟩
  · rw [idle]
    exact sparse_zero
  · rw [hands, idle, tally_zero, add_zero]
    exact evens.balanced

theorem allocates (answers : Input) (isCaller : s.caller process = .allocating e) :
    ∃ s' newpage, s.step (.allocate process answers) = .ok s' ∧
      s'.caller process = .locking e newpage ∧ s'.memory.pages.book = s.memory.pages.book ∧
        s.memory.pages.SameCached s'.memory.pages := by
  rcases answer : (s.memory.supply answers).pages.allocPage with ⟨newpage, pages⟩
  have taken : s.step (.allocate process answers) =
      .ok ({ s with memory := s.memory.supply answers }.set process (.locking e newpage) pages) := by
    rw [step, isCaller]
    dsimp only
    rw [answer]
  refine ⟨_, newpage, taken, set_caller .., ?_⟩
  cases newpage with
  | none =>
      obtain ⟨grants, rfl⟩ := Pages.allocPage_none answer
      exact ⟨rfl, .refl _⟩
  | some f =>
      obtain ⟨_, grants, rfl⟩ := Pages.allocPage_some answer
      exact ⟨rfl, .refl _⟩

theorem Sound.locks (sound : s.Sound lost) (answers : Input)
    (isCaller : s.caller process = .locking e newpage) (isLive : s.memory.pages.Live e) :
    ∃ s' ret f, s.step (.lock process answers) = .ok s' ∧
      s'.caller process = .returned e ret f ∧
        s.memory.pages.SwappedIn e newpage ret f s'.memory.pages ∧
          ∀ g, ret = 0 → s'.memory.pages.Caches g e → g = f := by
  obtain ⟨ret, f, pages, done, swappedIn, after⟩ := (sound.supply answers).lock isCaller isLive
  have taken : s.step (.lock process answers) =
      .ok ({ s with memory := s.memory.supply answers }.set process (.returned e ret f) pages) := by
    rw [Swapping.step, isCaller]
    change (s.memory.supply answers).pages.swapInLocked e newpage >>= _ = _
    rw [done]
    rfl
  refine ⟨_, ret, f, taken, set_caller .., ?_, fun g zero caches => ?_⟩
  · exact ⟨swappedIn.caches, swappedIn.surplus, swappedIn.memMap, swappedIn.kept⟩
  · exact after.single caches (swappedIn.caches zero)

/-- Nobody is in `swap_in_page`, and no memory is used. -/
def unused : Swapping := ⟨Memory.unusedMemory, fun _ => .outside⟩

/-- A page is written and left to two processes by a fork, and its slot is on disk alone. -/
def forked : List Move := [
  .act (.call (.event ⟨.new, [some 1], [some 0], []⟩)),
  .act (.call (.event ⟨.map 1 userBase pgSize (vmRead ||| vmWrite), [some 2], [], []⟩)),
  .act (.call (.event ⟨.pgfault 1 6 userBase, [], [some 1, some 2], []⟩)),
  .act (.call (.event ⟨.swapOut 1 1, [], [], []⟩)),
  .act (.call (.event ⟨.fork 1, [some 2, some 3], [some 3, some 4], []⟩)),
  .act (.call (.event ⟨.refill, [], [], []⟩)),
  .act (.call (.event ⟨.launder, [], [], [false]⟩))]

end Swapping

end EdfKernel.Mm
