import EdfKernel.Mm.UserAccess
import EdfKernel.Process.WaitCalls

/-!
# What do_wait returns

Every zombie that is freed is freed by one call of `do_wait`.  The call returns 0 with the exit
code stored when the address `code_store` is still writable at its end; where another thread
has unmapped it, the call fails with the zombie gone.
-/

namespace EdfKernel

open Library

/-- A call that returns a negative value has freed no zombie, and one that has freed a zombie
returns 0, with the exit code stored when it is to be stored. -/
def WaitReturn.Right (r : WaitReturn) : Prop :=
  (r.ret < 0 → r.freed = none) ∧
    ∀ freed ∈ r.freed, r.ret = 0 ∧ (r.codeStore ≠ 0 → r.stored = some freed.exitCode)

theorem WaitReturn.Right.of_none {caller : ProcPtr} {codeStore : Nat} {ret : Int}
    {stored : Option Int} : WaitReturn.Right ⟨caller, codeStore, ret, none, stored⟩ :=
  ⟨fun _ => rfl, by rintro freed ⟨⟩⟩

namespace WaitSystem

variable {wrap : Int → Int} {s s' : WaitSystem} {k k' : Kernel} {event : Event}

/-! ## The list of processes -/

theorem departed_of_stays (stays : k.Stays k') : departed k k' = [] := by
  unfold departed
  rw [List.filter_eq_nil_iff.mpr fun p mem => ?_, List.map_nil]
  simpa using stays.listed p mem

theorem departed_of_erase {zombie : ProcPtr} (nodup : k.procList.Nodup)
    (mem : zombie ∈ k.procList) (list : k'.procList = k.procList.erase zombie) :
    departed k k' = [⟨zombie, (k.procs zombie).exitCode⟩] := by
  have gone : k.procList.filter (fun p => p ∉ k'.procList) = [zombie] := by
    have same : k.procList.filter (fun p => p ∉ k'.procList) =
        k.procList.filter (fun p => p == zombie) := by
      apply List.filter_congr
      intro p memP
      have gone : p ∉ k'.procList ↔ p = zombie := by
        rw [list, nodup.mem_erase_iff]
        simp [memP]
      rw [decide_eq_decide.mpr gone]
      rfl
    rw [same, List.filter_beq, List.count_eq_one_of_mem nodup mem]
    rfl
  rw [departed, gone]
  rfl

theorem advance_eq_ok (advanced : s.advance wrap event = .ok s') :
    ∃ k, s.kernel.step wrap event = .ok k ∧
      s' = { s with kernel := k, freed := s.freed ++ departed s.kernel k } := by
  unfold advance at advanced
  split at advanced
  · cases advanced
  · rename_i k stepped
    cases advanced
    exact ⟨k, stepped, rfl⟩

theorem perform_eq_ok {calls : List Mm.Input} (performed : s.perform calls = .ok s') :
    ∃ memory, s' = { s with memory := memory } := by
  unfold perform at performed
  split at performed
  · cases performed
  · cases performed
    exact ⟨_, rfl⟩

/-! ## The books -/

/-- The zombies that have been freed are those of the calls of `do_wait` that have returned and
of those that are about to copy an exit code. -/
structure Books (wrap : Int → Int) (s : WaitSystem) : Prop where
  reachable : Kernel.Reachable wrap s.kernel
  known : ∀ call ∈ s.reaped, s.kernel.Known call.caller
  copies : ∀ call ∈ s.reaped, (s.kernel.procs call.caller).kstack.pc.copies = true
  nodup : (s.reaped.map Reaped.caller).Nodup
  once : s.freed.Perm (s.returns.filterMap WaitReturn.freed ++ s.reaped.map Reaped.freed)

/-- The current process has freed no zombie that it has not accounted for. -/
def Idle (s : WaitSystem) : Prop := ∀ call ∈ s.reaped, call.caller ≠ s.kernel.current

theorem Books.idle (books : Books wrap s) (place : s.kernel.pc.copies = false) : s.Idle := by
  intro call mem own
  have copies := books.copies call mem
  rw [own] at copies
  exact Bool.false_ne_true (place.symm.trans copies)

/-! ## One step -/

/-- The other calls that have freed a zombie stay where they are. -/
theorem step_other (inv : k.Inv) (stepped : k.step wrap event = .ok k') {q : ProcPtr}
    (known : k.Known q) (other : q ≠ k.current) (copies : (k.procs q).kstack.pc.copies = true) :
    k'.Known q ∧ (k'.procs q).kstack.pc.copies = true := by
  have transition := Kernel.Transition.of_step stepped
  have kept : (k'.procs q).kstack.pc.copies = true := by
    rw [transition.pc_of_ne inv (inv.others.table.allocated _ known) other]
    exact copies
  rcases transition.stays inv with
    stays | ⟨pid, caller, zombie, m, pc, source, found, reaped, moved⟩
  · exact ⟨stays.known known, kept⟩
  · obtain ⟨listed, isZombie, _, _⟩ :=
      Kernel.waitScan_found inv.others.table inv.others.current found
    obtain ⟨_, _, ⟨frame, _, _⟩, _⟩ := Kernel.reap_spec reaped
    have notZombie : q ≠ zombie := by
      rintro rfl
      have ended := ((inv.settled (.inl listed)).ended isZombie).1
      revert copies ended
      cases (k.procs q).kstack.pc <;> simp [Pc.copies, Pc.place]
    have list : m.procList = k.procList.erase zombie := (congrArg Kernel.procList frame :)
    have idleproc : m.idleproc = k.idleproc := (congrArg Kernel.idleproc frame :)
    have knownAfter : m.Known q := by
      rw [Kernel.Known, list, idleproc]
      exact known.imp_left fun mem => (List.mem_erase_of_ne notZombie).mpr mem
    exact ⟨(Kernel.known_of_relations (Kernel.movedTo_relations moved)).mpr knownAfter, kept⟩

theorem tick_eq_ok (stepped : k.step wrap .tick = .ok k') (kernel : k.pc ≠ .user) :
    k.runTimerList wrap = .ok k' := by
  change k.tick wrap = .ok k' at stepped
  unfold Kernel.tick at stepped
  split at stepped
  · rename_i user
    exact absurd user kernel
  · exact stepped

/-- A call of `do_wait` that has freed a zombie gets to copy the exit code, and not further. -/
theorem step_copies (inv : k.Inv) (stepped : k.step wrap event = .ok k')
    (copies : k.pc.copies = true)
    (before : k.pc = .work .memory → (∀ address, event ≠ .go address) ∧
      ∀ errorCode, event ≠ .fail errorCode) :
    (k'.procs k.current).kstack.pc.copies = true := by
  have moves : k.pc = .work .memory ∨ k.pc = .lockSched .memory ∨ k.pc = .freeMark .memory ∨
      k.pc = .freeSched .memory := by
    revert copies
    cases k.pc with
    | work w => cases w <;> simp [Pc.copies]
    | lockSched w => cases w <;> simp [Pc.copies]
    | freeMark w => cases w <;> simp [Pc.copies]
    | freeSched w => cases w <;> simp [Pc.copies]
    | _ => simp [Pc.copies]
  cases event with
  | tick =>
      have kernel : k.pc ≠ .user := by
        intro user
        rw [user] at copies
        contradiction
      obtain ⟨rouses, _⟩ := Kernel.runTimerList_spec inv.others.queue inv.timersWait
        (tick_eq_ok stepped kernel)
      rw [rouses.kstack]
      exact copies
  | noPage =>
      rcases moves with source | source | source | source <;>
        simp only [Kernel.step, source] at stepped
      · unfold Kernel.tryFreePages at stepped
        split at stepped
        · contradiction
        · obtain ⟨m, marked, result⟩ := bind_eq_ok_iff.mp stepped
          cases result
          have current : m.current = k.current := by
            rcases Kernel.freePagesMark_eq_ok marked with ⟨_, rfl | ⟨_, woken⟩⟩
            · rfl
            · exact (congrArg Kernel.current (Kernel.wakeupProc_unwoken woken) :)
          rw [← current]
          simp [Kernel.goto, Pc.copies]
      all_goals contradiction
  | lockBusy =>
      rcases moves with source | source | source | source <;>
        simp only [Kernel.step, source] at stepped
      · rw [Kernel.scheduleTo_pc stepped]
        rfl
      all_goals contradiction
  | fail errorCode =>
      rcases moves with source | source | source | source
      · exact absurd rfl ((before source).2 errorCode)
      all_goals
        simp only [Kernel.step, source] at stepped
        contradiction
  | go address =>
      rcases moves with source | source | source | source
      · exact absurd rfl ((before source).1 address)
      all_goals simp only [Kernel.step, Kernel.go, source] at stepped
      · cases stepped
        simp [Kernel.goto, Pc.copies]
      · rw [Kernel.scheduleTo_pc stepped]
        rfl
      · obtain ⟨m, post, result⟩ := bind_eq_ok_iff.mp stepped
        cases result
        have current : m.current = k.current := by
          unfold Kernel.freePagesPost at post
          split at post
          · contradiction
          · cases post
            rfl
        rw [← current]
        simp [Kernel.goto, Pc.copies]
  | _ =>
      rcases moves with source | source | source | source <;>
        · simp only [Kernel.step, source] at stepped
          contradiction

/-- A step takes no process off the list, or it is the step of `do_wait` that frees the zombie
it has found. -/
theorem step_departed (inv : k.Inv) (stepped : k.step wrap event = .ok k') :
    k.Stays k' ∨ ∃ pid caller zombie address, k.pc = .wait pid caller ∧
      event = .go address ∧ k.waitScan pid = .found zombie ∧
      departed k k' = [⟨zombie, (k.procs zombie).exitCode⟩] := by
  rcases (Kernel.Transition.of_step stepped).stays inv with
    stays | ⟨pid, caller, zombie, m, pc, source, found, reaped, moved⟩
  · exact .inl stays
  cases event with
  | tick =>
      have kernel : k.pc ≠ .user := by
        rw [source]
        rintro ⟨⟩
      obtain ⟨rouses, _⟩ := Kernel.runTimerList_spec inv.others.queue inv.timersWait
        (tick_eq_ok stepped kernel)
      exact .inl rouses.stays
  | go address =>
      obtain ⟨listed, _, _, _⟩ :=
        Kernel.waitScan_found inv.others.table inv.others.current found
      obtain ⟨_, _, ⟨frame, _, _⟩, _⟩ := Kernel.reap_spec reaped
      have list : k'.procList = k.procList.erase zombie := by
        obtain ⟨ret, exitCode, needResched, _, rfl⟩ := moved
        exact (congrArg Kernel.procList frame :)
      exact .inr ⟨pid, caller, zombie, address, source, rfl, found,
        departed_of_erase inv.others.table.numbered.nodup listed list⟩
  | _ =>
      simp only [Kernel.step, source] at stepped
      contradiction

/-- The step of `do_wait` that frees a zombie. -/
theorem step_found {pid : Int} {caller : Caller} {zombie : ProcPtr} {address : Nat} (inv : k.Inv)
    (source : k.pc = .wait pid caller) (found : k.waitScan pid = .found zombie)
    (stepped : k.step wrap (.go address) = .ok k') :
    departed k k' = [⟨zombie, (k.procs zombie).exitCode⟩] ∧ k'.current = k.current ∧
      (caller = .trap → k'.pc.copies = true) := by
  obtain ⟨listed, _, _, _⟩ := Kernel.waitScan_found inv.others.table inv.others.current found
  simp only [Kernel.step, Kernel.go, source] at stepped
  unfold Kernel.waitRepeat at stepped
  rw [found] at stepped
  obtain ⟨m, reaped, result⟩ := bind_eq_ok_iff.mp stepped
  obtain ⟨_, _, ⟨frame, _, _⟩, _⟩ := Kernel.reap_spec reaped
  have list : m.procList = k.procList.erase zombie := (congrArg Kernel.procList frame :)
  have current : m.current = k.current := (congrArg Kernel.current frame :)
  have nodup := inv.others.table.numbered.nodup
  cases caller with
  | trap =>
      cases result
      refine ⟨departed_of_erase nodup listed list, current, fun _ => ?_⟩
      simp [Kernel.goto, Kernel.pc, Pc.copies]
  | _ =>
      cases result
      exact ⟨departed_of_erase nodup listed list, current, by rintro ⟨⟩⟩

/-! ## The books stay right -/

theorem Books.advance (reachable : Kernel.Reachable wrap s.kernel)
    (known : ∀ call ∈ s.reaped, s.kernel.Known call.caller)
    (copies : ∀ call ∈ s.reaped, call.caller ≠ s.kernel.current →
      (s.kernel.procs call.caller).kstack.pc.copies = true)
    (nodup : (s.reaped.map Reaped.caller).Nodup) (advanced : s.advance wrap event = .ok s')
    (own : ∀ call ∈ s.reaped, call.caller = s.kernel.current →
      s'.kernel.Known call.caller ∧ (s'.kernel.procs call.caller).kstack.pc.copies = true)
    (once : (s.freed ++ departed s.kernel s'.kernel).Perm
      (s.returns.filterMap WaitReturn.freed ++ s.reaped.map Reaped.freed)) :
    Books wrap s' := by
  obtain ⟨k, stepped, rfl⟩ := advance_eq_ok advanced
  have other : ∀ call ∈ s.reaped, k.Known call.caller ∧
      (k.procs call.caller).kstack.pc.copies = true := by
    intro call mem
    by_cases isOwn : call.caller = s.kernel.current
    · exact own call mem isOwn
    · exact step_other reachable.inv stepped (known call mem) isOwn (copies call mem isOwn)
  exact ⟨reachable.step stepped, fun call mem => (other call mem).1,
    fun call mem => (other call mem).2, nodup, once⟩

/-- A step that frees no zombie, and that does not end a call of `do_wait` that has freed
one. -/
theorem Books.proceed (books : Books wrap s)
    (noReap : ∀ pid caller zombie address, s.kernel.pc = .wait pid caller → event = .go address →
      s.kernel.waitScan pid ≠ .found zombie)
    (before : ¬s.Idle → s.kernel.pc = .work .memory → (∀ address, event ≠ .go address) ∧
      ∀ errorCode, event ≠ .fail errorCode)
    (advanced : s.advance wrap event = .ok s') : Books wrap s' := by
  obtain ⟨k, stepped, rfl⟩ := advance_eq_ok advanced
  have inv := books.reachable.inv
  have stays : s.kernel.Stays k := by
    rcases step_departed inv stepped with
      stays | ⟨pid, caller, zombie, address, source, go, found, _⟩
    · exact stays
    · exact absurd found (noReap pid caller zombie address source go)
  refine .advance books.reachable books.known (fun call mem _ => books.copies call mem)
    books.nodup advanced ?_ ?_
  · intro call mem own
    have copies := books.copies call mem
    rw [own] at copies ⊢
    refine ⟨stays.known inv.others.current, step_copies inv stepped copies (before ?_)⟩
    exact fun idle => idle call mem own
  · rw [departed_of_stays stays, List.append_nil]
    exact books.once

/-- A call of `do_wait` that has freed no zombie returns. -/
theorem Books.record (books : Books wrap s) (codeStore : Nat) (ret : Int) :
    Books wrap (s.record codeStore ret none none) := by
  refine ⟨books.reachable, books.known, books.copies, books.nodup, ?_⟩
  change s.freed.Perm ((s.returns ++ [_]).filterMap _ ++ _)
  rw [List.filterMap_append]
  exact (List.append_nil (s.returns.filterMap WaitReturn.freed)).symm ▸ books.once

/-- A call of `do_wait` that has freed a zombie is ready to return. -/
theorem Books.settle (books : Books wrap s) {call : Reaped} (mem : call ∈ s.reaped)
    (own : call.caller = s.kernel.current) (ret : Int) (stored : Option Int) :
    Books wrap (s.settle call ret stored) ∧ (s.settle call ret stored).Idle := by
  have erased : s.reaped.Perm (call :: s.reaped.erase call) := List.perm_cons_erase mem
  have nodup := (erased.map Reaped.caller).nodup_iff.mp books.nodup
  rw [List.map_cons, List.nodup_cons] at nodup
  have old : ∀ other ∈ s.reaped.erase call, other ∈ s.reaped := fun _ => List.mem_of_mem_erase
  refine ⟨⟨books.reachable, fun other memOther => books.known other (old other memOther),
    fun other memOther => books.copies other (old other memOther), nodup.2, ?_⟩, ?_⟩
  · change s.freed.Perm ((s.returns ++ [_]).filterMap _ ++ (s.reaped.erase call).map _)
    rw [List.filterMap_append, List.append_assoc]
    exact books.once.trans ((erased.map Reaped.freed).append_left _)
  · intro other memOther isOwn
    exact nodup.1 (own.trans isOwn.symm ▸ List.mem_map_of_mem memOther)

/-- `do_wait` refuses the address where the exit code is to go. -/
theorem Books.refuse (books : Books wrap s) (user : s.kernel.pc = .user) (codeStore : Nat) :
    Books wrap { s.record codeStore (-eInval) none none with
      kernel := s.kernel.returnTo .trap (-eInval) } := by
  have reachable : Kernel.Reachable wrap (s.kernel.returnTo .trap (-eInval)) := by
    have called : s.kernel.step wrap (.syscall .memory) =
        .ok (s.kernel.goto (.work .memory)) := by
      simp only [Kernel.step, user]
      rfl
    have failed : (s.kernel.goto (.work .memory)).step wrap (.fail (-eInval)) =
        .ok ((s.kernel.goto (.work .memory)).returnTo .trap (-eInval)) := by
      have here : (s.kernel.goto (.work .memory)).pc = .work .memory := by
        simp [Kernel.goto, Kernel.pc]
      simp only [Kernel.step, here]
      rfl
    have same : (s.kernel.goto (.work .memory)).returnTo .trap (-eInval) =
        s.kernel.returnTo .trap (-eInval) := by
      simp [Kernel.goto, Kernel.returnTo, Kernel.modify]
    exact same ▸ (books.reachable.step called).step failed
  have idle : s.Idle := books.idle (by rw [user]; rfl)
  have before := books.record codeStore (-eInval)
  refine ⟨reachable, before.known, fun call mem => ?_, before.nodup, before.once⟩
  have same : ((s.kernel.returnTo .trap (-eInval)).procs call.caller) =
      s.kernel.procs call.caller := Kernel.modify_procs_of_ne _ _ _ (idle call mem)
  rw [same]
  exact books.copies call mem

/-- `do_wait` frees a zombie and goes on to copy its exit code. -/
theorem Books.reap (books : Books wrap s) {pid : Int} {zombie : ProcPtr} {address codeStore : Nat}
    (source : s.kernel.pc = .wait pid .trap) (found : s.kernel.waitScan pid = .found zombie)
    (advanced : (s.reap codeStore ⟨zombie, (s.kernel.procs zombie).exitCode⟩).advance wrap
      (.go address) = .ok s') : Books wrap s' := by
  have idle : s.Idle := books.idle (by rw [source]; rfl)
  have inv := books.reachable.inv
  obtain ⟨k, stepped, rfl⟩ := advance_eq_ok advanced
  obtain ⟨gone, current, copies⟩ := step_found inv source found stepped
  refine Books.advance (s := s.reap codeStore ⟨zombie, (s.kernel.procs zombie).exitCode⟩)
    books.reachable ?_ ?_ ?_ advanced ?_ ?_
  · intro call mem
    rcases List.mem_cons.mp mem with rfl | old
    · exact inv.others.current
    · exact books.known call old
  · intro call mem other
    rcases List.mem_cons.mp mem with rfl | old
    · exact absurd rfl other
    · exact books.copies call old
  · refine List.nodup_cons.mpr ⟨fun mem => ?_, books.nodup⟩
    obtain ⟨call, old, own⟩ := List.mem_map.mp mem
    exact idle call old own
  · intro call _ own
    rw [own]
    change k.Known s.kernel.current ∧ (k.procs s.kernel.current).kstack.pc.copies = true
    rw [← current]
    exact ⟨(books.reachable.step stepped).inv.others.current, copies rfl⟩
  · change (s.freed ++ departed s.kernel k).Perm _
    rw [gone]
    exact (List.perm_append_singleton _ _).trans
      ((books.once.cons _).trans List.perm_middle.symm)

/-- `do_wait` frees a zombie for a kernel thread. -/
theorem Books.reapKernel (books : Books wrap s) {pid : Int} {caller : Caller} {zombie : ProcPtr}
    {address codeStore : Nat} (source : s.kernel.pc = .wait pid caller)
    (found : s.kernel.waitScan pid = .found zombie)
    (advanced : (s.record codeStore 0 (some ⟨zombie, (s.kernel.procs zombie).exitCode⟩)
      none).advance wrap (.go address) = .ok s') : Books wrap s' := by
  have idle : s.Idle := books.idle (by rw [source]; rfl)
  obtain ⟨k, stepped, rfl⟩ := advance_eq_ok advanced
  obtain ⟨gone, _, _⟩ := step_found books.reachable.inv source found stepped
  refine Books.advance
    (s := s.record codeStore 0 (some ⟨zombie, (s.kernel.procs zombie).exitCode⟩) none)
    books.reachable books.known (fun call mem _ => books.copies call mem) books.nodup advanced
    (fun call mem own => absurd own (idle call mem)) ?_
  change (s.freed ++ departed s.kernel k).Perm ((s.returns ++ [_]).filterMap _ ++ _)
  rw [gone, List.filterMap_append, List.append_assoc]
  exact (List.perm_append_singleton _ _).trans ((books.once.cons _).trans List.perm_middle.symm)

/-! ## What the calls return -/

/-- The call of `do_wait` that copies an exit code in the step. -/
def copying (s : WaitSystem) (i : WaitInput) : Option Reaped :=
  match s.kernel.pc, i.event with
  | .work .memory, .go _ => s.ownReaped
  | _, _ => none

/-- Where `do_wait` copies the exit code, the process may still write it at `code_store`. -/
def Stores (s : WaitSystem) (i : WaitInput) : Prop :=
  ∀ call ∈ s.copying i, call.codeStore ≠ 0 → (s.codeCheck call.codeStore).1 = true

instance (s : WaitSystem) (i : WaitInput) : Decidable (s.Stores i) :=
  inferInstanceAs (Decidable
    (∀ call ∈ s.copying i, call.codeStore ≠ 0 → (s.codeCheck call.codeStore).1 = true))

theorem advance_returns (advanced : s.advance wrap event = .ok s') : s'.returns = s.returns := by
  obtain ⟨k, _, rfl⟩ := advance_eq_ok advanced
  rfl

theorem ownReaped_eq_some {call : Reaped} (own : s.ownReaped = some call) :
    call ∈ s.reaped ∧ call.caller = s.kernel.current := by
  have caller := List.find?_some own
  exact ⟨List.mem_of_find?_eq_some own, of_decide_eq_true caller⟩

theorem ownReaped_eq_none (none : s.ownReaped = none) : s.Idle := by
  intro call mem own
  have other := List.find?_eq_none.mp none call mem
  exact other (decide_eq_true own)

/-- The books do not depend on the address spaces. -/
theorem Books.withMemory (books : Books wrap s) (memory : Mm.Memory) :
    Books wrap { s with memory := memory } :=
  ⟨books.reachable, books.known, books.copies, books.nodup, books.once⟩

theorem Books.withCodeStore (books : Books wrap s) (codeStore : ProcPtr → Nat) :
    Books wrap { s with codeStore := codeStore } :=
  ⟨books.reachable, books.known, books.copies, books.nodup, books.once⟩

/-- A step keeps the books, and the calls that return in it are right exactly when the exit code
can be copied. -/
def Progress (wrap : Int → Int) (s : WaitSystem) (i : WaitInput) (s' : WaitSystem) : Prop :=
  Books wrap s' ∧ ((∀ r ∈ s'.returns, r.Right) ↔ (∀ r ∈ s.returns, r.Right) ∧ s.Stores i)

theorem Progress.quiet {i : WaitInput} (books : Books wrap s') (same : s'.returns = s.returns)
    (idle : s.copying i = none) : Progress wrap s i s' := by
  refine ⟨books, ?_⟩
  have stores : s.Stores i := by
    rw [Stores, idle]
    rintro call ⟨⟩
  rw [same]
  exact ⟨fun right => ⟨right, stores⟩, fun right => right.1⟩

theorem Progress.returned {i : WaitInput} {r : WaitReturn} (books : Books wrap s')
    (returned : s'.returns = s.returns ++ [r]) (right : r.Right ↔ s.Stores i) :
    Progress wrap s i s' := by
  refine ⟨books, ?_⟩
  rw [returned, List.forall_mem_append, List.forall_mem_singleton, right]

/-- The call that returns has not copied an exit code. -/
theorem Progress.uncopied {i : WaitInput} {r : WaitReturn} (books : Books wrap s')
    (returned : s'.returns = s.returns ++ [r]) (right : r.Right) (idle : s.copying i = none) :
    Progress wrap s i s' := by
  refine .returned books returned ⟨fun _ => ?_, fun _ => right⟩
  rw [Stores, idle]
  rintro call ⟨⟩

theorem copying_of_place {i : WaitInput} (place : s.kernel.pc ≠ .work .memory) :
    s.copying i = none := by
  unfold copying
  split
  · rename_i source _
    exact absurd source place
  · rfl

theorem Books.doWait {i : WaitInput} {pid : Int} {codeStore : Nat} (books : Books wrap s)
    (user : s.kernel.pc = .user) (called : s.doWait wrap pid codeStore = .ok s') :
    Progress wrap s i s' := by
  obtain ⟨passed, memory, checked⟩ : ∃ passed memory,
      (if codeStore = 0 then (true, s) else s.codeCheck codeStore) =
        (passed, { s with memory := memory }) := by
    split
    · exact ⟨true, s.memory, rfl⟩
    · exact ⟨_, _, rfl⟩
  have start := books.withMemory memory
  have elsewhere : s.copying i = none := copying_of_place (by rw [user]; rintro ⟨⟩)
  unfold WaitSystem.doWait at called
  rw [checked] at called
  simp only at called
  split at called
  · have entered := start.withCodeStore (Function.update s.codeStore s.kernel.current codeStore)
    have idle := entered.idle (by rw [user]; rfl)
    refine .quiet (entered.proceed ?_ (fun busy => absurd idle busy) called)
      (advance_returns called :) elsewhere
    rintro _ _ _ _ _ ⟨⟩
  · cases called
    exact .uncopied (start.refuse user codeStore) rfl .of_none elsewhere

theorem Books.waitRepeat {i : WaitInput} {pid : Int} {caller : Caller} {address : Nat}
    (books : Books wrap s) (source : s.kernel.pc = .wait pid caller)
    (called : s.waitRepeat wrap pid caller address = .ok s') : Progress wrap s i s' := by
  have idle := books.idle (by rw [source]; rfl)
  have elsewhere : s.copying i = none := copying_of_place (by rw [source]; rintro ⟨⟩)
  unfold WaitSystem.waitRepeat at called
  simp only at called
  split at called
  · rename_i zombie found
    split at called
    · exact .quiet (books.reap source found called) (advance_returns called :) elsewhere
    · rename_i notTrap
      refine .uncopied (books.reapKernel source found called) (advance_returns called :)
        ⟨fun negative => ?_, ?_⟩ elsewhere
      · contradiction
      · rintro freed ⟨⟩
        refine ⟨rfl, fun stored => absurd ?_ stored⟩
        cases caller with
        | trap => exact absurd rfl notTrap
        | kernelExecve => rfl
        | initKswapd => rfl
        | thread fn => rfl
  · rename_i haskid
    refine .quiet (books.proceed ?_ (fun busy => absurd idle busy) called)
      (advance_returns called :) elsewhere
    intro _ _ zombie _ source' _ found
    cases source.symm.trans source'
    cases haskid.symm.trans found
  · rename_i nokid
    refine .uncopied ((books.record _ _).proceed ?_ (fun busy => absurd idle busy) called)
      (advance_returns called :) .of_none elsewhere
    intro _ _ zombie _ source' _ found
    cases source.symm.trans source'
    cases nokid.symm.trans found

theorem Books.copyCode {i : WaitInput} {call : Reaped} {address : Nat} (books : Books wrap s)
    (source : s.kernel.pc = .work .memory) (called : i.event = .go address)
    (own : s.ownReaped = some call) (copied : s.copyCode wrap call address = .ok s') :
    Progress wrap s i s' := by
  obtain ⟨mem, isOwn⟩ := ownReaped_eq_some own
  have copying : s.copying i = some call := by
    rw [WaitSystem.copying, source, called]
    exact own
  have settles : ∀ memory event ret stored,
      ((({ s with memory := memory } : WaitSystem).settle call ret stored).advance wrap event =
        .ok s') → Books wrap s' ∧ s'.returns = s.returns ++
          [⟨s.kernel.current, call.codeStore, ret, some call.freed, stored⟩] := by
    intro memory event ret stored advanced
    obtain ⟨ready, idle⟩ := (books.withMemory memory).settle mem isOwn ret stored
    refine ⟨ready.proceed ?_ (fun busy => absurd idle busy) advanced, (advance_returns advanced :)⟩
    intro _ _ _ _ waits
    cases source.symm.trans waits
  have stores : s.Stores i ↔
      (call.codeStore ≠ 0 → (s.codeCheck call.codeStore).1 = true) := by
    rw [Stores, copying]
    exact ⟨fun all => all call rfl, by rintro stores _ ⟨⟩; exact stores⟩
  unfold WaitSystem.copyCode at copied
  split at copied
  · rename_i null
    obtain ⟨kept, returned⟩ := settles s.memory _ _ _ copied
    refine .returned kept returned ⟨fun _ => stores.mpr fun given => absurd null given,
      fun _ => ⟨fun negative => ?_, ?_⟩⟩
    · contradiction
    · rintro freed ⟨⟩
      exact ⟨rfl, fun given => absurd null given⟩
  · rename_i given
    obtain ⟨passed, memory, checked⟩ : ∃ passed memory, s.codeCheck call.codeStore =
        (passed, { s with memory := memory }) := ⟨_, _, rfl⟩
    rw [checked] at copied stores
    simp only at copied
    split at copied
    · rename_i writable
      obtain ⟨kept, returned⟩ := settles memory _ _ _ copied
      refine .returned kept returned ⟨fun _ => stores.mpr fun _ => writable,
        fun _ => ⟨fun negative => ?_, ?_⟩⟩
      · contradiction
      · rintro freed ⟨⟩
        exact ⟨rfl, fun _ => rfl⟩
    · rename_i refused
      obtain ⟨kept, returned⟩ := settles memory _ _ _ copied
      refine .returned kept returned ⟨fun right => ?_, fun able => ?_⟩
      · have success := (right.2 call.freed rfl).1
        contradiction
      · exact absurd (stores.mp able given) refused

/-- The current process does something other than `do_wait`. -/
theorem Books.other {i : WaitInput} (books : Books wrap s)
    (noReap : ∀ pid caller zombie address, s.kernel.pc = .wait pid caller →
      i.event = .go address → s.kernel.waitScan pid ≠ .found zombie)
    (before : ¬s.Idle → s.kernel.pc = .work .memory → (∀ address, i.event ≠ .go address) ∧
      ∀ errorCode, i.event ≠ .fail errorCode)
    (taken : (do (← s.perform i.calls).advance wrap i.event) = .ok s') :
    Progress wrap s i s' := by
  obtain ⟨m, performed, advanced⟩ := bind_eq_ok_iff.mp taken
  obtain ⟨memory, rfl⟩ := perform_eq_ok performed
  refine .quiet ((books.withMemory memory).proceed noReap before advanced)
    (advance_returns advanced :) ?_
  unfold copying
  split
  · rename_i source event
    by_contra own
    obtain ⟨call, own⟩ := Option.ne_none_iff_exists'.mp own
    obtain ⟨mem, isOwn⟩ := ownReaped_eq_some own
    exact (before (fun idle => idle call mem isOwn) source).1 _ event
  · rfl

/-- A step keeps the books, and at most one call of `do_wait` returns in it. -/
theorem Books.step {i : WaitInput} (books : Books wrap s) (stepped : s.step wrap i = .ok s') :
    Progress wrap s i s' := by
  unfold WaitSystem.step at stepped
  split at stepped
  · rename_i user _
    exact books.doWait user stepped
  · rename_i source _
    exact books.waitRepeat source stepped
  · rename_i address source event
    split at stepped
    · rename_i call own
      exact books.copyCode source event own stepped
    · rename_i idle
      refine books.other ?_ (fun busy => absurd (ownReaped_eq_none idle) busy) stepped
      rw [source]
      rintro _ _ _ _ ⟨⟩
  · rename_i source event
    split at stepped
    · contradiction
    · rename_i idle
      refine books.other ?_ (fun busy => absurd (ownReaped_eq_none idle) busy) stepped
      rw [source]
      rintro _ _ _ _ ⟨⟩
  · rename_i notUser notRepeat notCopy notFail
    refine books.other ?_ (fun _ source => ⟨?_, ?_⟩) stepped
    · intro pid caller _ address source called
      exact absurd called (notRepeat pid caller address source)
    · exact fun address called => notCopy address source called
    · exact fun errorCode called => notFail errorCode source called

/-! ## Runs -/

theorem start_books (procs : ProcPtr → ProcStruct) (memory : Mm.Memory) :
    Books wrap (start procs memory) where
  reachable := ⟨procs, [], rfl⟩
  known _ mem := absurd mem List.not_mem_nil
  copies _ mem := absurd mem List.not_mem_nil
  nodup := List.nodup_nil
  once := .refl _

/-- A run keeps the books, and the calls that return in it are right exactly when every exit
code can be copied. -/
theorem Books.run {inputs : List WaitInput} (books : Books wrap s)
    (run : Run.exec (WaitSystem.step wrap) s inputs = .ok s') :
    Books wrap s' ∧ ((∀ r ∈ s'.returns, r.Right) ↔
      (∀ r ∈ s.returns, r.Right) ∧ Run.Along (WaitSystem.step wrap) Stores s inputs) := by
  induction inputs generalizing s with
  | nil =>
      cases run
      exact ⟨books, ⟨fun right => ⟨right, trivial⟩, fun both => both.1⟩⟩
  | cons i inputs ih =>
      obtain ⟨next, taken, rest⟩ := Run.exec_cons_eq_ok_iff.mp run
      obtain ⟨kept, right⟩ := books.step taken
      obtain ⟨final, all⟩ := ih kept rest
      refine ⟨final, ?_⟩
      rw [all, right, and_assoc]
      refine and_congr_right fun _ => and_congr_right fun _ => ?_
      constructor
      · intro along other stepped
        cases taken.symm.trans stepped
        exact along
      · exact fun along => along next taken

/-- In every run, the zombies that have been freed are those of the calls of `do_wait` that have
returned, and of those on their way to copy the exit code, each once.  The calls that have
returned are right, a negative value for no zombie and 0 with the exit code stored for a zombie,
exactly when each call could still write at `code_store` as it copied the exit code. -/
theorem do_wait_returns {procs : ProcPtr → ProcStruct} {memory : Mm.Memory}
    {inputs : List WaitInput}
    (run : Run.exec (WaitSystem.step wrap) (start procs memory) inputs = .ok s) :
    s.freed.Perm (s.returns.filterMap WaitReturn.freed ++ s.reaped.map Reaped.freed) ∧
      (∀ call ∈ s.reaped, (s.kernel.procs call.caller).kstack.pc.copies = true) ∧
      ((∀ r ∈ s.returns, r.Right) ↔
        Run.Along (WaitSystem.step wrap) Stores (start procs memory) inputs) := by
  obtain ⟨books, right⟩ := (start_books procs memory).run run
  refine ⟨books.once, books.copies, right.trans (and_iff_right ?_)⟩
  exact fun r mem => absurd mem List.not_mem_nil

/-- A memory without address spaces. -/
def noSpaces : Mm.Memory where
  vm := { Mm.Memory.stackOnly.vm with vmaUsed := fun _ => false, mmUsed := fun _ => false }
  pages := Mm.Memory.stackOnly.pages

/-- An event at which no call on an address space is made. -/
def quiet (event : Event) : WaitInput := ⟨event, 0, []⟩

/-- The first user process maps a page, creates a process in its address space and waits for it,
with `code_store` in the page. -/
def sharedPage : List WaitInput :=
  Kernel.firstUser.dropLast.map quiet ++
    [⟨.go 0, 0, [⟨.new, [some 0], [some 1], []⟩,
      ⟨.map 0 Mm.userBase Mm.pgSize (Mm.vmRead ||| Mm.vmWrite), [some 1], [], []⟩]⟩] ++
    (Kernel.forked (.clone cloneVm) 4).map quiet ++
    [⟨.syscall (.wait 4), Mm.userBase, []⟩, quiet (.go 0), quiet (.go 0), quiet (.go 0),
      quiet (.go 0)]

/-- The process exits with the code 7, and the call of `do_wait` that waits for it returns. -/
def childEnds : List WaitInput :=
  [.syscall (.exit 7), .go 0, .go 0, .go 0, .go 0, .go 0].map quiet

/-- The processes when the kernel starts in cleared memory, and no address space. -/
def blankStart : WaitSystem :=
  start (fun _ => Kernel.blank) noSpaces

/-- The exit code is stored where the page is still mapped. -/
theorem do_wait_returns_stored :
    ∃ s, Run.exec (WaitSystem.step wrapInt32) blankStart (sharedPage ++ childEnds) = .ok s ∧
      s.returns = [⟨3, Mm.userBase, 0, some ⟨4, 7⟩, some 7⟩] ∧
      Run.Along (WaitSystem.step wrapInt32) Stores blankStart (sharedPage ++ childEnds) := by
  obtain ⟨s, run, returns⟩ := Run.exec_of_decide
    (fun s : WaitSystem => s.returns = [⟨3, Mm.userBase, 0, some ⟨4, 7⟩, some 7⟩])
    (by decide +kernel : (Run.exec (WaitSystem.step wrapInt32) blankStart
      (sharedPage ++ childEnds)).map _ = .ok true)
  refine ⟨s, run, returns, (do_wait_returns run).2.2.mp ?_⟩
  rw [returns, List.forall_mem_singleton]
  exact ⟨by decide, by decide⟩

/-- The child unmaps the page before it exits. -/
def pageUnmapped : List WaitInput :=
  sharedPage ++ [quiet (.syscall .memory),
    ⟨.go 0, 0, [⟨.unmap 0 Mm.userBase Mm.pgSize, [], [], []⟩]⟩, quiet (.go 0), quiet (.go 0)] ++
    childEnds

/-- Where the child has unmapped the page, `do_wait` frees the child and fails. -/
theorem do_wait_returns_unmapped :
    ¬∀ inputs s, Run.exec (WaitSystem.step wrapInt32) blankStart inputs = .ok s →
      ∀ r ∈ s.returns, r.Right := by
  intro right
  obtain ⟨s, run, returns⟩ := Run.exec_of_decide
    (fun s : WaitSystem => s.returns = [⟨3, Mm.userBase, -eInval, some ⟨4, 7⟩, none⟩])
    (by decide +kernel : (Run.exec (WaitSystem.step wrapInt32) blankStart pageUnmapped).map _ =
      .ok true)
  have all := right pageUnmapped s run
  rw [returns, List.forall_mem_singleton] at all
  exact Option.some_ne_none _ (all.1 (by decide))

end WaitSystem

end EdfKernel
