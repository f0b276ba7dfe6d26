import EdfKernel.Mm.SharedRuns
import EdfKernel.Mm.SpaceBalance

/-!
# Calls keep the balance

Every call, page fault, eviction and access keeps what frames and slots are counted for in balance,
and so does every run of them.  Only an address space that ends may leave frames behind: its page
tables that no area reaches into.
-/

namespace EdfKernel.Mm

open Library

/-- The event shares no segment. -/
def Event.isPrivate : Event → Bool
  | .shmem _ _ _ _ | .mapShmem _ _ _ _ => false
  | _ => true

/-- The call shares no segment. -/
def Call.isPrivate : Call → Bool
  | .event i => i.event.isPrivate
  | .dup _ _ _ => true

namespace Pages

variable {p : Pages} {live : Live} {f : Frame}

/-- An entry holds one thing. -/
theorem count_uses_le (entry : Pte) (u : Use) : entry.uses.count u ≤ 1 := by
  cases entry with
  | zero => simp [Pte.uses]
  | present f perm =>
      rw [Pte.uses, Multiset.count_singleton]
      split <;> omega
  | swapped e =>
      rw [Pte.uses, Multiset.count_singleton]
      split <;> omega

/-- A place holds once at most what is not a frame of the kernel. -/
theorem count_holds_le {u : Use} (part : ∀ f, u ≠ .whole f ∧ u ≠ .spare f) (holder : Holder) :
    (p.holds live holder).count u ≤ 1 := by
  by_cases mem : u ∈ p.holds live holder
  · obtain ⟨slot, rfl, has, _⟩ := (mem_holds part).mp mem
    rw [holds, if_pos has]
    exact count_uses_le _ u
  · rw [Multiset.count_eq_zero_of_notMem mem]
    omega

end Pages

/-- The page tables that an event leaves behind: an address space ends, and no area of it reaches
into the region of the page table. -/
def Event.Abandons (m : Memory) : Event → Frame → Prop
  | .leave mm, f => m.vm.mmUsed mm = true ∧ (m.vm.mm mm).mmCount - 1 = 0 ∧
      ∃ i, m.pages.table mm i = some f ∧ ¬m.Roofed mm i
  | _, _ => False

/-- What `kmalloc` and `alloc_page` answer does not matter. -/
theorem Event.abandons_supply (event : Event) (m : Memory) (i : Input) :
    event.Abandons (m.supply i) = event.Abandons m := by
  cases event <;> rfl

/-- The page tables that a call leaves behind. -/
def Call.Abandons (m : Memory) : Call → Frame → Prop
  | .event i, f => i.event.Abandons m f
  | .dup _ _ _, _ => False

namespace Memory

variable {m m' m₀ n : Memory} {mm : MmPtr} {f : Frame} {e : SwapEntry} {calls : List Call}
  {lost : Frame → Prop} {behind : Multiset Use}

/-! ## Calls -/

/-- What a call comes to: the memory is in balance, with the page tables that have been left
behind. -/
structure Goes (m n : Memory) (lost : Frame → Prop) (behind : Multiset Use)
    (abandons : Frame → Prop) (isPrivate : Bool) : Prop where
  balanced : ∃ more, n.Balanced ⟨n.vm.mmUsed, lost, behind + more⟩ ∧
    ∀ u ∈ more, ∃ f, u = .whole f ∧ abandons f
  fewer : isPrivate = true → ∀ s, n.vm.shmemUsed s = true → m.vm.shmemUsed s = true

theorem Held.goes {abandons : Frame → Prop} {isPrivate : Bool} (held : m.Held n lost behind) :
    m.Goes n lost behind abandons isPrivate := by
  refine ⟨⟨0, ?_, fun u mem => absurd mem (Multiset.notMem_zero u)⟩, fun _ => held.fewer⟩
  rw [add_zero]
  exact held.balanced

/-- The page tables that are left behind are known. -/
theorem mem_leaves {u : Use} {scope : Scope} (balanced : m.Balanced scope)
    (has : scope.mm mm = true) :
    u ∈ tally (m.leaves mm) ↔ ∃ f, u = .whole f ∧ ∃ i, m.pages.table mm i = some f ∧
      ¬m.Roofed mm i := by
  have sparse : Sparse (m.leaves mm) := by
    refine balanced.pages.sparse.of_le fun holder zero => ?_
    cases holder with
    | table mm' i =>
        rw [leaves]
        split
        · rename_i bare
          obtain ⟨rfl, _⟩ := bare
          have live : (scope.live m.vm.shmemUsed).mm mm' = true := has
          rw [Pages.holds, if_pos live] at zero
          exact zero
        · rfl
    | slot slot => rfl
    | directory mm' => rfl
    | nodes shmem => rfl
  rw [mem_tally sparse]
  constructor
  · rintro ⟨holder, mem⟩
    cases holder with
    | table mm' i =>
        rw [leaves] at mem
        split at mem
        · rename_i bare
          obtain ⟨rfl, open_⟩ := bare
          cases there : m.pages.table mm' i with
          | none =>
              rw [there] at mem
              exact absurd mem (Multiset.notMem_zero u)
          | some f =>
              rw [there] at mem
              exact ⟨f, Multiset.mem_singleton.mp mem, i, there, open_⟩
        · exact absurd mem (Multiset.notMem_zero u)
    | slot slot => exact absurd mem (Multiset.notMem_zero u)
    | directory mm' => exact absurd mem (Multiset.notMem_zero u)
    | nodes shmem => exact absurd mem (Multiset.notMem_zero u)
  · rintro ⟨f, rfl, i, there, open_⟩
    refine ⟨.table mm i, ?_⟩
    rw [leaves, if_pos ⟨rfl, open_⟩, there]
    exact Multiset.mem_singleton_self _

theorem Balanced.supply {scope : Scope} (balanced : m.Balanced scope) (i : Input) :
    (m.supply i).Balanced scope := by
  have pages := balanced.pages
  refine ⟨pages.of_places rfl ?_, balanced.ledger⟩
  exact pages.accounts.congr rfl rfl fun _ => ⟨rfl, rfl, rfl, rfl, rfl⟩

theorem perform_goes {event : Event} (balanced : m.Balanced ⟨m.vm.mmUsed, lost, behind⟩)
    (formed : m.Formed) (used : ∀ mm ∈ event.mm, m.vm.mmUsed mm = true)
    (segment : ∀ s ∈ event.segment, m.vm.shmemUsed s = true) :
    Meets Panic.Misuse (fun n => m.Goes n lost behind (event.Abandons m) event.isPrivate)
      (m.perform event) := by
  have kept : ∀ {n : Memory}, m.Keeps n ⟨m.vm.mmUsed, lost, behind⟩ →
      m.Goes n lost behind (event.Abandons m) event.isPrivate :=
    fun keeps => ((Held.refl balanced).keeps keeps).goes
  cases event with
  | new => exact ((newMm_held balanced formed).mono fun _ held => held.goes).map
  | fork mm =>
      exact ((copyMm_held balanced formed (used mm rfl)).mono fun _ held => held.goes).map
  | share mm => exact ((Held.refl balanced).modifyMm _ _).goes
  | leave mm =>
      have isUsed := used mm rfl
      refine (leaveMm_held balanced formed isUsed).mono fun n left => ?_
      refine ⟨⟨_, left.balanced, fun u mem => ?_⟩, fun _ => left.fewer⟩
      split at mem
      · rename_i last
        obtain ⟨f, rfl, bare⟩ := (mem_leaves balanced isUsed).mp mem
        exact ⟨f, rfl, isUsed, last, bare⟩
      · exact absurd mem (Multiset.notMem_zero u)
  | map mm addr len flags =>
      refine Vm.mmMap_alike.bind ?_
      rintro ⟨ret, v, vm⟩ mapped
      exact kept (balanced.alike mapped)
  | shmem mm addr len flags =>
      have set := (formed.wellFormed mm (used mm rfl)).set
      refine ((doShmem_balanced balanced set).mono fun result done => ?_).map
      obtain ⟨after, mmUsed⟩ := done
      refine ⟨⟨0, ?_, fun u mem => absurd mem (Multiset.notMem_zero u)⟩, by rintro ⟨⟩⟩
      rw [mmUsed, add_zero]
      exact after
  | mapShmem mm addr flags s =>
      have set := (formed.wellFormed mm (used mm rfl)).set
      refine (mmMapShmem_keeps balanced set (segment s rfl)).bind ?_
      rintro ⟨ret, vm⟩ keeps
      exact kept keeps
  | unmap mm addr len =>
      have before := formed.wellFormed mm (used mm rfl)
      exact ((mmUnmap_keeps balanced (used mm rfl) before).mono fun _ => kept).map
  | brk mm addr len =>
      have before := formed.wellFormed mm (used mm rfl)
      exact ((mmBrk_keeps balanced (used mm rfl) before).mono fun _ => kept).map
  | pgfault mm errorCode addr =>
      have set := (formed.wellFormed mm (used mm rfl)).set
      refine ((@doPgfault_balanced m mm addr _ _ errorCode balanced.pages (used mm rfl) rfl
        (balanced.linked set.owned) set).and_of_ok fun _ done => doPgfault_vm done).mono ?_ |>.map
      rintro ⟨ret, n⟩ ⟨after, vm⟩
      have finds := m.vm.findVma_alike mm addr
      rw [← vm] at finds
      exact kept (balanced.change finds after)
  | load mm addr =>
      have after := @userLoad_balanced m mm addr _ _ balanced.pages (used mm rfl)
      refine kept (balanced.change ?_ after)
      rw [userLoad_vm]
      exact .refl m.vm
  | store mm addr value =>
      have after := @userStore_balanced m mm addr _ _ value balanced.pages (used mm rfl)
      refine kept (balanced.change ?_ after)
      rw [userStore_vm]
      exact .refl m.vm
  | swapOut mm require =>
      have before := formed.wellFormed mm (used mm rfl)
      refine ((@swapOutMm_balanced m mm require _ _ balanced.pages (used mm rfl) rfl
        (balanced.linked before.set.owned) before.set).and_of_ok fun result done =>
          ((swapOutMm_evicts before).2 result done).keeps).mono ?_ |>.map
      rintro ⟨freed, n⟩ ⟨after, keeps⟩
      exact kept (balanced.change (.of_ledger keeps.ledger keeps.mmUsed keeps.shmem.2) after)
  | refill =>
      refine balanced.pages.accounts.refillInactiveScan.bind fun p done => ?_
      exact kept (balanced.withPages (balanced.pages.of_places done.2 done.1))
  | launder =>
      refine balanced.pages.accounts.pageLaunder.bind ?_
      rintro ⟨count, p⟩ ⟨accounts, places⟩
      exact kept (balanced.withPages (balanced.pages.of_places places accounts))

/-- What one call comes to. -/
theorem call_goes (balanced : m.Balanced ⟨m.vm.mmUsed, lost, behind⟩) (formed : m.Formed)
    (c : Call) :
    Meets Panic.Misuse (fun n => m.Goes n lost behind (c.Abandons m) c.isPrivate) (m.call c) := by
  cases c with
  | event i =>
      change Meets Panic.Misuse _ (m.step i)
      unfold step
      split
      · rename_i there
        refine (perform_goes (balanced.supply i) (formed.supply i) there.1 there.2).mono
          fun n goes => ?_
        rw [i.event.abandons_supply] at goes
        exact ⟨goes.balanced, goes.fewer⟩
      · exact (Held.refl balanced).goes
  | dup target source answers =>
      rw [call]
      split
      · rename_i there
        obtain ⟨isTarget, isSource, ne, empty⟩ := there
        have before := formed.supply answers
        have copies := dupMmap_keeps (balanced.supply answers) isTarget isSource
          (before.wellFormed target isTarget) (before.wellFormed source isSource).set ne empty
        refine (copies.mono fun _ keeps => ?_).map
        have held := (Held.refl (balanced.supply answers)).keeps keeps
        have goes : m.Held _ lost behind := ⟨held.balanced, held.fewer⟩
        exact goes.goes
      · exact (Held.refl balanced).goes

/-- What a run comes to, whatever its steps are. -/
theorem run_goes {ε : Type} (step : Memory → ε → Except Panic Memory)
    (abandons : Memory → ε → Frame → Prop) (isPrivate : ε → Bool) {events : List ε}
    (goes : ∀ m event behind, m.Balanced ⟨m.vm.mmUsed, lost, behind⟩ → m.Formed →
      Meets Panic.Misuse (fun n => m.Goes n lost behind (abandons m event) (isPrivate event))
        (step m event))
    (stays : ∀ m event n, m.Formed → step m event = .ok n → n.Formed)
    (balanced : m₀.Balanced ⟨m₀.vm.mmUsed, lost, behind⟩) (formed : m₀.Formed)
    (run : Run.exec step m₀ events = .ok m) :
    m.Formed ∧ (∃ more, m.Balanced ⟨m.vm.mmUsed, lost, behind + more⟩ ∧ ∀ u ∈ more,
        ∃ f, u = .whole f ∧ Run.Sometime step (fun m event => abandons m event f) m₀ events) ∧
      ((∀ event ∈ events, isPrivate event = true) →
        ∀ s, m.vm.shmemUsed s = true → m₀.vm.shmemUsed s = true) := by
  induction events generalizing m₀ behind with
  | nil =>
      cases run
      refine ⟨formed, ⟨0, ?_, fun u mem => absurd mem (Multiset.notMem_zero u)⟩, fun _ _ => id⟩
      rw [add_zero]
      exact balanced
  | cons event events ih =>
      obtain ⟨n, taken, run⟩ := Run.exec_cons_eq_ok_iff.mp run
      obtain ⟨⟨more, after, left⟩, fewer⟩ :=
        (goes m₀ event behind balanced formed).post_of_ok taken
      obtain ⟨formed', ⟨more', last, left'⟩, fewer'⟩ := ih after (stays m₀ event n formed taken) run
      refine ⟨formed', ⟨more + more', ?_, fun u mem => ?_⟩, fun isPrivate s there => ?_⟩
      · rw [← add_assoc]
        exact last
      · rcases Multiset.mem_add.mp mem with now | later
        · obtain ⟨f, isWhole, here⟩ := left u now
          exact ⟨f, isWhole, .here here⟩
        · obtain ⟨f, isWhole, there⟩ := left' u later
          exact ⟨f, isWhole, .later taken there⟩
      · exact fewer (isPrivate event List.mem_cons_self) s
          (fewer' (fun c mem => isPrivate c (List.mem_cons_of_mem _ mem)) s there)

end Memory

end EdfKernel.Mm
