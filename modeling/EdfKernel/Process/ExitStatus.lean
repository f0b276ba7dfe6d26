import EdfKernel.Process.Ticks

/-!
# Exit codes of zombies

A zombie stays on its hash chain until `do_wait` finds it, and `__do_kill` only looks at
`PF_EXITING`.  A kill of a zombie that exited of its own accord writes `-E_KILLED` over its
exit code; nothing else changes the exit code of a zombie.
-/

namespace EdfKernel

open Library

namespace Kernel

variable {wrap : Int → Int} {k k' m : Kernel} {event : Event} {p q : ProcPtr}

/-- The event is not a kill that writes over the exit code of a zombie. -/
def SparesCodes (k : Kernel) (event : Event) : Prop :=
  ∀ pid p, event = .syscall (.kill pid) → k.findProc pid = some p →
    (k.procs p).state = .zombie → k.Exiting p ∨ (k.procs p).exitCode = -eKilled

/-! ## One step -/

/-- A process that has ended takes timer interrupts and calls `schedule`. -/
theorem step_of_ended (ended : k.pc.place = .ended) (stepped : k.step wrap event = .ok k') :
    k.runTimerList wrap = .ok k' ∨ k.scheduleTo .dead = .ok k' := by
  cases place : k.pc with
  | exitSched =>
      cases event with
      | tick =>
          simp only [step, tick, place] at stepped
          exact .inl stepped
      | go address =>
          simp only [step, go, place] at stepped
          exact .inr stepped
      | _ =>
          simp only [step, place] at stepped
          cases stepped
  | dead =>
      cases event with
      | tick =>
          simp only [step, tick, place] at stepped
          exact .inl stepped
      | _ =>
          simp only [step, go, place] at stepped
          cases stepped
  | _ =>
      rw [place] at ended
      cases ended

/-- What a kill writes. -/
theorem killProc_fate {errorCode ret : Int} (killed : k.killProc p errorCode = .ok (ret, m))
    (alive : ¬k.Exiting p) :
    (m.procs p).exitCode = errorCode ∧ (m.procs p).kstack.pc = (k.procs p).kstack.pc := by
  have flagged : ((k.flag p errorCode).procs p).exitCode = errorCode ∧
      ((k.flag p errorCode).procs p).kstack.pc = (k.procs p).kstack.pc := by
    simp [flag]
  rcases killProc_eq_ok killed with ⟨exiting, _⟩ | ⟨_, woken⟩ | ⟨_, rfl⟩
  · exact absurd exiting alive
  · have frame := wakeupProc_unwoken woken
    exact ⟨(congrArg (fun m => (m.procs p).exitCode) frame :).trans flagged.1,
      (congrArg (fun m => (m.procs p).kstack.pc) frame :).trans flagged.2⟩
  · exact flagged

/-- A step that spares the codes keeps the exit code and the place of a zombie. -/
theorem zombie_step (inv : k.Inv) (clocked : k.Clocked) (listed : p ∈ k.procList)
    (zombie : (k.procs p).state = .zombie) (spares : k.SparesCodes event)
    (stepped : k.step wrap event = .ok k') :
    (k'.procs p).exitCode = (k.procs p).exitCode ∧ (k'.procs p).kstack.pc.place = .ended := by
  have table := inv.others.table
  have ended := ((inv.settled (.inl listed)).ended zombie).1
  have of_fate : (k'.procs p).fate = (k.procs p).fate →
      (k'.procs p).exitCode = (k.procs p).exitCode ∧ (k'.procs p).kstack.pc.place = .ended := by
    intro same
    have pc : (k'.procs p).kstack.pc = (k.procs p).kstack.pc :=
      congrArg (fun fate => fate.2.2) same
    exact ⟨congrArg (fun fate => fate.2.1) same, pc ▸ ended⟩
  by_cases own : p = k.current
  · subst own
    rcases step_of_ended ended stepped with ticked | scheduled
    · exact of_fate (runTimerList_fate inv clocked.runs clocked.fits ticked _)
    · have frame := schedule_unsched scheduled
      have code : (k'.procs k.current).exitCode =
          ((k.goto .dead).procs k.current).exitCode :=
        (congrArg (fun m => (m.procs k.current).exitCode) frame :)
      have pc : (k'.procs k.current).kstack.pc = ((k.goto .dead).procs k.current).kstack.pc :=
        (congrArg (fun m => (m.procs k.current).kstack.pc) frame :)
      rw [code, pc]
      simp [Kernel.goto, Pc.place]
  · by_cases killed : k.Killed event p
    · obtain ⟨alive, ⟨pid, rfl, found⟩ | ⟨_, inRing⟩⟩ := killed
      · have same := (spares pid p rfl found zombie).resolve_left alive
        simp only [step] at stepped
        split at stepped
        · obtain ⟨⟨ret, m⟩, kill, result⟩ := bind_eq_ok_iff.mp stepped
          cases result
          simp only [doKill, found] at kill
          obtain ⟨code, pc⟩ := killProc_fate kill alive
          have current : m.current = k.current := (killProc_wakes kill).current
          have other : (m.returnTo .trap ret).procs p = m.procs p :=
            modify_procs_of_ne _ _ _ (current ▸ own)
          rw [other, code, pc, same]
          exact ⟨rfl, ended⟩
        · cases stepped
      · obtain ⟨alone, _⟩ := threadRing_alive table (List.mem_of_mem_tail inRing) zombie
        rw [alone] at inRing
        cases inRing
    · apply of_fate
      apply (Transition.of_step stepped).fate inv clocked
      rintro (isOwn | unknown | victim)
      · exact own isOwn
      · exact unknown (.inl listed)
      · exact killed victim

/-- `__do_exit` makes the current process a zombie with the exit code it has. -/
theorem exit_step {address : Nat} (reachable : Reachable wrap k) (place : k.pc = .exit)
    (stepped : k.step wrap (.go address) = .ok k') :
    (k'.procs k.current).state = .zombie ∧
      (k'.procs k.current).exitCode = (k.procs k.current).exitCode := by
  have reachable' := reachable.step stepped
  simp only [step, go, place] at stepped
  obtain ⟨m, exited, result⟩ := bind_eq_ok_iff.mp stepped
  cases result
  have wakes : k.Wakes (fun _ => False) m := exitProc_wakes exited
  have current := wakes.current
  constructor
  · have fits := reachable'.inv.own.settled.fits
    have pc : (m.goto .exitSched).pc = .exitSched := by simp [Kernel.pc, Kernel.goto]
    rw [pc] at fits
    exact current ▸ fits.1
  · refine (m.modify_field m.current _ ProcStruct.exitCode rfl k.current).trans ?_
    exact congrArg (fun fate => fate.2.1) (wakes.fate (q := k.current) id)

/-! ## Every run -/

/-- A process that exits becomes a zombie with the exit code that it has, and keeps it
until it is reaped, in every run without a kill of a zombie that had not been killed
before. -/
theorem zombie_exitCode (reachable : Reachable wrap k) :
    (∀ address k', k.pc = .exit → k.step wrap (.go address) = .ok k' →
      (k'.procs k.current).state = .zombie ∧
        (k'.procs k.current).exitCode = (k.procs k.current).exitCode) ∧
    ∀ p events k', p ∈ k.procList → (k.procs p).state = .zombie →
      Run.Along (step wrap) (fun m event => m.SparesCodes event ∧ p ∈ m.procList) k events →
      Run.exec (step wrap) k events = .ok k' → p ∈ k'.procList →
      (k'.procs p).state = .zombie ∧ (k'.procs p).exitCode = (k.procs p).exitCode := by
  refine ⟨fun address k' place => exit_step reachable place, ?_⟩
  intro p events k' listed zombie along run listed'
  have zombie_of_ended : ∀ m : Kernel, Reachable wrap m → p ∈ m.procList →
      (m.procs p).kstack.pc.place = .ended → (m.procs p).state = .zombie := by
    intro m reachable listed ended
    have fits := (reachable.inv.settled (.inl listed)).fits
    rw [ended] at fits
    exact fits.1
  obtain ⟨reachable', ended, code⟩ : Reachable wrap k' ∧
      (k'.procs p).kstack.pc.place = .ended ∧ (k'.procs p).exitCode = (k.procs p).exitCode := by
    refine @Run.exec_invariant_along _ _ _ _ (fun m => Reachable wrap m ∧
      (m.procs p).kstack.pc.place = .ended ∧ (m.procs p).exitCode = (k.procs p).exitCode)
      _ ?_ _ _ _ ?_ along run
    · rintro m event next ⟨reached, ended, code⟩ ⟨spares, listed⟩ stepped
      obtain ⟨same, ended'⟩ := zombie_step reached.inv reached.clocked listed
        (zombie_of_ended m reached listed ended) spares stepped
      exact ⟨reached.step stepped, ended', same.trans code⟩
    · exact ⟨reachable, ((reachable.inv.settled (.inl listed)).ended zombie).1, rfl⟩
  exact ⟨zombie_of_ended k' reachable' listed' ended, code⟩

/-- While a user process sleeps, its first child exits with the code 7; the timer
interrupt that wakes the process arrives in its second child. -/
def childExits : List Event :=
  firstUser ++ forked .fork 4 ++ forked .fork 5 ++
    [.syscall (.sleep 1), .go 0, .go 0, .syscall (.exit 7), .go 0, .go 0, .go 0, .tick,
      .go 0, .go 0, .go 0, .go 0, .go 0]

/-- A kill of the second child leaves the exit code of the first one. -/
theorem zombie_exitCode_other :
    ∃ k k', Run.exec (step wrapInt32) (boot fun _ => blank) childExits = .ok k ∧
      Run.exec (step wrapInt32) k [.syscall (.kill 5)] = .ok k' ∧
      (k'.procs 4).state = .zombie ∧ (k'.procs 4).exitCode = (k.procs 4).exitCode := by
  obtain ⟨k, run, listed, zombie, found, alive⟩ := Run.exec_of_decide
    (fun k : Kernel => 4 ∈ k.procList ∧ (k.procs 4).state = .zombie ∧ k.findProc 5 = some 5 ∧
      (k.procs 5).state = .runnable)
    (by decide +kernel : (Run.exec (step wrapInt32) (boot fun _ => blank) childExits).map _ =
      .ok true)
  obtain ⟨k', run', listed'⟩ := Run.exec_of_decide (fun k : Kernel => 4 ∈ k.procList)
    (by decide +kernel : (Run.exec (step wrapInt32) (boot fun _ => blank)
      (childExits ++ [.syscall (.kill 5)])).map _ = .ok true)
  rw [Run.exec_append, run] at run'
  have spares : k.SparesCodes (.syscall (.kill 5)) := by
    rintro pid p ⟨⟩ target zombie
    cases found.symm.trans target
    cases alive.symm.trans zombie
  have kept := (zombie_exitCode ⟨_, _, run⟩).2 4 [.syscall (.kill 5)] k' listed
    zombie ⟨⟨spares, listed⟩, fun _ _ => trivial⟩ run' listed'
  exact ⟨k, k', run, run', kept⟩

/-- A kill of the first child changes the exit code that its parent will get. -/
theorem zombie_exitCode_killed :
    ¬∀ k, Reachable wrapInt32 k → ∀ p events k', p ∈ k.procList → (k.procs p).state = .zombie →
      Run.Along (step wrapInt32) (fun m _ => p ∈ m.procList) k events →
      Run.exec (step wrapInt32) k events = .ok k' → p ∈ k'.procList →
      (k'.procs p).exitCode = (k.procs p).exitCode := by
  intro kept
  obtain ⟨k, run, listed, zombie, seven⟩ := Run.exec_of_decide
    (fun k : Kernel => 4 ∈ k.procList ∧ (k.procs 4).state = .zombie ∧ (k.procs 4).exitCode = 7)
    (by decide +kernel : (Run.exec (step wrapInt32) (boot fun _ => blank) childExits).map _ =
      .ok true)
  obtain ⟨k', run', listed', code⟩ := Run.exec_of_decide
    (fun k : Kernel => 4 ∈ k.procList ∧ (k.procs 4).exitCode = -eKilled)
    (by decide +kernel : (Run.exec (step wrapInt32) (boot fun _ => blank)
      (childExits ++ [.syscall (.kill 4)])).map _ = .ok true)
  rw [Run.exec_append, run] at run'
  have same := kept k ⟨_, _, run⟩ 4 [.syscall (.kill 4)] k' listed zombie
    ⟨listed, fun _ _ => trivial⟩ run' listed'
  rw [seven, code] at same
  cases same

end Kernel

end EdfKernel
