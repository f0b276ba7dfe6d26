import EdfKernel.Library.Run
import EdfKernel.Process.Frames
import EdfKernel.Process.Step

/-!
# The kinds of steps

`step` is inverted once: a step is a timer interrupt, a switch, a move of the
current process that changes nothing else, or one of the functions of `proc.c`
and `swap.c` followed by such a move.  The invariants are proved by cases on the
kind of step.
-/

namespace EdfKernel

open Library

/-- The places between which the current process moves without doing anything
else; `flagged` tells whether it has been killed. -/
inductive Pc.Moves (flagged : Bool) : Pc → Pc → Prop
  | userTail : Moves flagged .user .tail
  | userFork (flags : UInt32) (kind : ForkKind) (user : ∀ fn, kind ≠ .kernel fn) :
      Moves flagged .user (.work (.fork flags kind .trap))
  | userExit : Moves flagged .user .exit
  | userWait (pid : Int) : Moves flagged .user (.wait pid .trap)
  | userExec : Moves flagged .user (.work (.execName .trap))
  | userMemory : Moves flagged .user (.work .memory)
  | userFault : Moves flagged .user (.work .pgfault)
  | swapdFull : Moves flagged (.thread .initMain) .initKswapd
  | swapdFork : Moves flagged (.thread .initMain)
      (.work (.fork cloneVm (.kernel .kswapdMain) .initKswapd))
  | mainFull : Moves flagged (.thread .initMain) (.thread .initMain)
  | mainFork : Moves flagged (.thread .initMain)
      (.work (.fork cloneVm (.kernel .userMain) (.thread .initMain)))
  | mainWait : Moves flagged (.thread .initMain) (.wait 0 (.thread .initMain))
  | execve : Moves flagged (.thread .userMain) (.work (.execName .kernelExecve))
  | forkFail (flags : UInt32) (kind : ForkKind) (caller : Caller) :
      Moves flagged (.work (.fork flags kind caller)) caller.pc
  | nameFail : Moves flagged (.work (.execName .trap)) .tail
  | memoryDone : Moves flagged (.work .memory) .tail
  | faultDone : Moves flagged (.work .pgfault) .tail
  | idleDone : Moves flagged .idleSched .cpuIdle
  | threadDone (fn : KThread) : Moves flagged (.threadSched fn) (.thread fn)
  | userStart : Moves flagged (.forkret none) .user
  | threadStart (fn : KThread) : Moves flagged (.forkret (some fn)) (.thread fn)
  | tailKilled (killed : flagged = true) : Moves flagged .tail .exit
  | tailAlive (alive : flagged = false) : Moves flagged .tail .tailResched
  | tailDone : Moves flagged .tailResched .user
  | tailBack : Moves flagged .tailSched .user
  | lockDone (w : Work) : Moves flagged (.lockSched w) (.work w)
  | freeDone (w : Work) : Moves flagged (.freeSched w) (.work w)
  | waitKilled (pid : Int) (caller : Caller) (killed : flagged = true) :
      Moves flagged (.waitSched pid caller) .exit
  | waitAlive (pid : Int) (caller : Caller) (alive : flagged = false) :
      Moves flagged (.waitSched pid caller) (.wait pid caller)
  | waitNone (pid : Int) (caller : Caller) : Moves flagged (.wait pid caller) caller.pc

/-- The places at which the current process calls `schedule`, and where it goes on
after it. -/
inductive Pc.Parks : Pc → Pc → Prop
  | idle : Parks .cpuIdle .idleSched
  | thread : Parks (.thread .initMain) (.threadSched .initMain)
  | tail : Parks .tailResched .tailSched
  | lock (w : Work) : Parks (.work w) (.lockSched w)
  | free (w : Work) : Parks (.freeMark w) (.freeSched w)
  | wait (pid : Int) (caller : Caller) : Parks (.waitMark pid caller) (.waitSched pid caller)
  | sleep (caller : Caller) : Parks (.sleepMark caller) (.sleepSched caller)
  | exit : Parks .exitSched .dead

/-- The events at which the current process may call `do_exit`. -/
def Event.Exits : Event → Prop
  | .syscall (.exit _) => True
  | .fault => True
  | .fail _ => True
  | _ => False

namespace Kernel

/-- The current process has been killed. -/
def flagged (k : Kernel) : Bool :=
  decide ((k.procs k.current).flags &&& pfExiting ≠ 0)

/-- The current process goes on at `pc`. -/
def moved (k : Kernel) (pc : Pc) (ret exitCode : Int) (needResched : Bool) : Kernel :=
  k.modify k.current fun s =>
    { s with
      kstack := { s.kstack with pc := pc, ret := ret }
      exitCode := exitCode
      needResched := needResched }

/-- `k'` is `k` with the current process at `pc`, up to its return value, its exit
code and `need_resched`.  `init_main` only gets a pid from a fork that succeeds. -/
def MovedTo (k : Kernel) (pc : Pc) (k' : Kernel) : Prop :=
  ∃ ret exitCode needResched, (pc = .initKswapd → ret ≤ 0) ∧
    k' = k.moved pc ret exitCode needResched

theorem goto_movedTo (k : Kernel) (pc : Pc) (other : pc ≠ .initKswapd) :
    k.MovedTo pc (k.goto pc) :=
  ⟨(k.procs k.current).kstack.ret, (k.procs k.current).exitCode,
    (k.procs k.current).needResched, fun own => absurd own other, rfl⟩

theorem returnTo_movedTo (k : Kernel) (caller : Caller) (ret : Int)
    (failed : caller.pc = .initKswapd → ret ≤ 0) : k.MovedTo caller.pc (k.returnTo caller ret) :=
  ⟨ret, (k.procs k.current).exitCode, (k.procs k.current).needResched, failed, rfl⟩

theorem exitThread_movedTo (k : Kernel) (errorCode : Int) :
    k.MovedTo .exit (k.exitThread errorCode) := by
  refine ⟨(k.procs k.current).kstack.ret, errorCode, (k.procs k.current).needResched, nofun, ?_⟩
  simp [exitThread, goto, moved, modify]

/-- What a step does at an event; `k'` is the state after it. -/
inductive Transition (wrap : Int → Int) (k : Kernel) (event : Event) (k' : Kernel) : Prop
  | skip (same : k' = k)
  | move (pc : Pc) (moves : k.pc.Moves k.flagged pc) (moved : k.MovedTo pc k')
  | tickUser (called : event = .tick) (user : k.pc = .user)
      (ticked : (k.goto .tail).runTimerList wrap = .ok k')
  | tick (called : event = .tick) (kernel : k.pc ≠ .user) (ticked : k.runTimerList wrap = .ok k')
  | schedule (pc : Pc) (parks : k.pc.Parks pc) (scheduled : k.scheduleTo pc = .ok k')
  | doExit (errorCode : Int) (m : Kernel) (called : event.Exits)
      (source : k.pc = .user ∨ k.pc = .work .pgfault ∨ ∃ caller, k.pc = .work (.execLoad caller))
      (killed : k.exitGroup errorCode = .ok m) (moved : m.MovedTo .exit k')
  | kill (pid ret : Int) (m : Kernel) (called : event = .syscall (.kill pid))
      (user : k.pc = .user)
      (killed : k.doKill pid (-eKilled) = .ok (ret, m)) (moved : m.MovedTo .tail k')
  | sleep (time : Nat) (caller : Caller) (m : Kernel)
      (source : (k.pc = .user ∧ caller = .trap) ∨
        (k.pc = .thread .kswapdMain ∧ caller = .thread .kswapdMain))
      (marked : k.sleepMark time = .ok m) (moved : m.MovedTo (.sleepMark caller) k')
  | wakeKswapd (swapd : ProcPtr) (source : k.pc = .thread .initMain) (present : k.kswapd = some swapd)
      (asleep : (k.procs swapd).waitState = wtTimer) (woken : k.wakeupProc swapd = .ok k')
  | wakeupAll (source : k.pc = .thread .kswapdMain) (woken : k.kswapdWakeupAll = .ok k')
  | freePages (w : Work) (swapd : ProcPtr) (m : Kernel) (source : k.pc = .work w)
      (present : k.kswapd = some swapd) (marked : k.freePagesMark swapd = .ok m)
      (moved : m.MovedTo (.freeMark w) k')
  | setKswapd (source : k.pc = .initKswapd) (created : 0 < (k.procs k.current).kstack.ret)
      (moved : { k with kswapd := k.findProc (k.procs k.current).kstack.ret }.MovedTo
        (.thread .initMain) k')
  | forkAlloc (flags : UInt32) (kind : ForkKind) (caller : Caller) (child : ProcPtr) (m : Kernel)
      (source : k.pc = .work (.fork flags kind caller)) (forked : k.forkAlloc kind child = .ok m)
      (moved : m.MovedTo (.work (.forkChild flags child caller)) k')
  | forkFree (flags : UInt32) (child : ProcPtr) (caller : Caller)
      (source : k.pc = .work (.forkChild flags child caller))
      (moved : (k.freeProc child).MovedTo caller.pc k')
  | forkLink (flags : UInt32) (child : ProcPtr) (caller : Caller) (mm : MmPtr) (m : Kernel)
      (called : event = .go mm)
      (source : k.pc = .work (.forkChild flags child caller))
      (linked : k.forkLink flags child mm = .ok m) (moved : m.MovedTo (.forkWake child caller) k')
  | forkWake (child : ProcPtr) (caller : Caller) (m : Kernel)
      (source : k.pc = .forkWake child caller) (woken : k.wakeupProc child = .ok m)
      (moved : k' = m.returnTo caller (m.procs child).pid)
  | execDrop (caller : Caller) (source : k.pc = .work (.execName caller))
      (moved : (k.dropMm k.current).MovedTo (.work (.execLoad caller)) k')
  | execFinish (caller : Caller) (mm : MmPtr) (m : Kernel)
      (source : k.pc = .work (.execLoad caller)) (loaded : k.execFinish mm = .ok m)
      (moved : m.MovedTo caller.pc k')
  | reap (pid : Int) (caller : Caller) (zombie : ProcPtr) (m : Kernel) (pc : Pc)
      (source : k.pc = .wait pid caller) (found : k.waitScan pid = .found zombie)
      (reaped : k.reap zombie = .ok m)
      (target : pc = match caller with | .trap => .work .memory | _ => caller.pc)
      (moved : m.MovedTo pc k')
  | waitSleep (pid : Int) (caller : Caller) (source : k.pc = .wait pid caller)
      (found : k.waitScan pid = .haskid)
      (moved : (k.modify k.current fun s => { s with state := .sleeping }).MovedTo
        (.waitState pid caller) k')
  | waitMark (pid : Int) (caller : Caller) (source : k.pc = .waitState pid caller)
      (moved : (k.modify k.current fun s => { s with waitState := wtChild }).MovedTo
        (.waitMark pid caller) k')
  | delTimer (caller : Caller) (source : k.pc = .sleepSched caller)
      (moved : (k.delTimer k.current).MovedTo caller.pc k')
  | exit (m : Kernel) (source : k.pc = .exit) (exited : k.exitProc = .ok m)
      (moved : m.MovedTo .exitSched k')

namespace Transition

variable {wrap : Int → Int} {k k' : Kernel} {event : Event}

theorem of_doFork {flags : UInt32} {kind : ForkKind} {caller : Caller}
    (full : k.pc.Moves k.flagged caller.pc)
    (fork : k.pc.Moves k.flagged (.work (.fork flags kind caller))) :
    Transition wrap k event (k.doFork flags kind caller) := by
  unfold doFork
  split
  · exact .move _ full (returnTo_movedTo k caller _ fun _ => by decide)
  · exact .move _ fork (goto_movedTo k _ nofun)

theorem of_doExit {errorCode : Int}
    (called : event.Exits)
    (source : k.pc = .user ∨ k.pc = .work .pgfault ∨ ∃ caller, k.pc = .work (.execLoad caller))
    (exited : k.doExit errorCode = .ok k') : Transition wrap k event k' := by
  obtain ⟨m, killed, result⟩ := bind_eq_ok_iff.mp exited
  cases result
  exact .doExit errorCode m called source killed (exitThread_movedTo m errorCode)

theorem of_mayKilled {pc : Pc} (other : pc ≠ .initKswapd)
    (killed : k.flagged = true → k.pc.Moves k.flagged .exit)
    (alive : k.flagged = false → k.pc.Moves k.flagged pc) :
    Transition wrap k event (k.mayKilled pc) := by
  unfold mayKilled
  split
  · rename_i flag
    exact .move _ (killed (decide_eq_true flag)) (goto_movedTo k _ nofun)
  · rename_i flag
    exact .move _ (alive (decide_eq_false flag)) (goto_movedTo k _ other)

theorem of_doSleep {time : Nat} {caller : Caller}
    (source : (k.pc = .user ∧ caller = .trap) ∨
      (k.pc = .thread .kswapdMain ∧ caller = .thread .kswapdMain))
    (zero : time = 0 → k.pc.Moves k.flagged caller.pc)
    (slept : k.doSleep time caller = .ok k') : Transition wrap k event k' := by
  unfold doSleep at slept
  split at slept
  · rename_i isZero
    cases slept
    exact .move _ (zero isZero) (returnTo_movedTo k caller 0 fun _ => le_rfl)
  · obtain ⟨m, marked, result⟩ := bind_eq_ok_iff.mp slept
    cases result
    exact .sleep time caller m source marked (goto_movedTo m _ nofun)

theorem of_tick (ticked : k.tick wrap = .ok k') : Transition wrap k .tick k' := by
  unfold Kernel.tick at ticked
  split at ticked
  · rename_i user
    exact .tickUser rfl user ticked
  · rename_i kernel
    exact .tick rfl (fun user => kernel user) ticked

theorem of_syscall {call : Syscall} (user : k.pc = .user)
    (called : k.syscall wrap call = .ok k') : Transition wrap k (.syscall call) k' := by
  have tail : k.pc.Moves k.flagged .tail := user ▸ .userTail
  cases call with
  | fork =>
      cases called
      exact of_doFork tail (user ▸ .userFork _ _ (by rintro _ ⟨⟩))
  | forkRT ct pt =>
      cases called
      exact of_doFork tail (user ▸ .userFork _ _ (by rintro _ ⟨⟩))
  | clone flags =>
      cases called
      exact of_doFork tail (user ▸ .userFork _ _ (by rintro _ ⟨⟩))
  | exit errorCode => exact of_doExit trivial (.inl user) called
  | exitThread errorCode =>
      cases called
      exact .move _ (user ▸ .userExit) (exitThread_movedTo k errorCode)
  | wait pid =>
      cases called
      exact .move _ (user ▸ .userWait pid) (goto_movedTo k _ (by rintro ⟨⟩))
  | exec =>
      cases called
      exact .move _ (user ▸ .userExec) (goto_movedTo k _ (by rintro ⟨⟩))
  | sleep time => exact of_doSleep (.inl ⟨user, rfl⟩) (fun _ => tail) called
  | kill pid =>
      obtain ⟨⟨ret, m⟩, killed, result⟩ := bind_eq_ok_iff.mp called
      cases result
      exact .kill pid ret m rfl user killed (returnTo_movedTo m .trap ret (by rintro ⟨⟩))
  | yield =>
      cases called
      refine .move _ tail ⟨0, (k.procs k.current).exitCode, true, by rintro ⟨⟩, ?_⟩
      simp [returnTo, moved, modify, Caller.pc]
  | memory =>
      cases called
      exact .move _ (user ▸ .userMemory) (goto_movedTo k _ (by rintro ⟨⟩))

theorem of_kcall {fn : KThread} {call : KCall} (thread : k.pc = .thread fn)
    (called : k.kcall fn call = .ok k') : Transition wrap k event k' := by
  unfold kcall at called
  split at called
  · split at called
    · cases called
      exact of_doFork (thread ▸ .swapdFull) (thread ▸ .swapdFork)
    · contradiction
  · cases called
    exact of_doFork (thread ▸ .mainFull) (thread ▸ .mainFork)
  · cases called
    exact .move _ (thread ▸ .mainWait) (goto_movedTo k _ nofun)
  · exact .schedule _ (thread ▸ .thread) called
  · split at called
    · rename_i swapd present
      split at called
      · rename_i asleep
        exact .wakeKswapd swapd thread present asleep called
      · cases called
        exact .skip rfl
    · contradiction
  · exact .wakeupAll thread called
  · refine of_doSleep (.inr ⟨thread, rfl⟩) (fun impossible => ?_) called
    contradiction
  · cases called
    exact .move _ (thread ▸ .execve) (goto_movedTo k _ nofun)
  · contradiction

theorem of_workDone {address : Nat} {w : Work} (source : k.pc = .work w)
    (worked : k.workDone address w = .ok k') : Transition wrap k (.go address) k' := by
  cases w with
  | fork flags kind caller =>
      obtain ⟨m, forked, result⟩ := bind_eq_ok_iff.mp worked
      cases result
      exact .forkAlloc flags kind caller address m source forked (goto_movedTo m _ nofun)
  | forkChild flags child caller =>
      obtain ⟨m, linked, result⟩ := bind_eq_ok_iff.mp worked
      cases result
      exact .forkLink flags child caller address m rfl source linked (goto_movedTo m _ nofun)
  | execName caller =>
      cases worked
      exact .execDrop caller source (goto_movedTo _ _ nofun)
  | execLoad caller =>
      obtain ⟨m, loaded, result⟩ := bind_eq_ok_iff.mp worked
      cases result
      exact .execFinish caller address m source loaded (returnTo_movedTo m caller 0 fun _ => le_rfl)
  | pgfault =>
      cases worked
      exact .move _ (source ▸ .faultDone) (goto_movedTo k _ nofun)
  | memory =>
      cases worked
      exact .move _ (source ▸ .memoryDone) (returnTo_movedTo k .trap 0 nofun)

theorem of_workFailed {errorCode : Int} {w : Work} (source : k.pc = .work w)
    (failed : k.workFailed errorCode w = .ok k') :
    Transition wrap k (.fail errorCode) k' := by
  unfold workFailed at failed
  split at failed
  · cases failed
    exact .move _ (source ▸ .forkFail _ _ _) (returnTo_movedTo k _ _ fun _ => by decide)
  · cases failed
    exact .forkFree _ _ _ source (returnTo_movedTo _ _ _ fun _ => by decide)
  · cases failed
    exact .move _ (source ▸ .nameFail) (returnTo_movedTo k .trap _ nofun)
  · contradiction
  · exact of_doExit trivial (.inr (.inr ⟨_, source⟩)) failed
  · exact of_doExit trivial (.inr (.inl source)) failed
  · cases failed
    exact .move _ (source ▸ .memoryDone) (returnTo_movedTo k .trap _ nofun)

theorem of_waitRepeat {pid : Int} {caller : Caller} (source : k.pc = .wait pid caller)
    (waited : k.waitRepeat pid caller = .ok k') : Transition wrap k event k' := by
  unfold waitRepeat at waited
  split at waited
  · rename_i zombie found
    obtain ⟨m, reaped, result⟩ := bind_eq_ok_iff.mp waited
    cases caller <;> cases result
    · exact .reap pid _ zombie m _ source found reaped rfl (goto_movedTo m _ nofun)
    · exact .reap pid _ zombie m _ source found reaped rfl (returnTo_movedTo m _ 0 fun _ => le_rfl)
    · exact .reap pid _ zombie m _ source found reaped rfl (returnTo_movedTo m _ 0 fun _ => le_rfl)
    · exact .reap pid _ zombie m _ source found reaped rfl (returnTo_movedTo m _ 0 fun _ => le_rfl)
  · rename_i found
    cases waited
    exact .waitSleep pid caller source found (goto_movedTo _ _ nofun)
  · cases waited
    exact .move _ (source ▸ .waitNone pid caller) (returnTo_movedTo k caller _ fun _ => by decide)

theorem of_go {address : Nat} (went : k.go address = .ok k') :
    Transition wrap k (.go address) k' := by
  unfold go at went
  split at went
  · rename_i source
    split at went
    · exact .schedule _ (source ▸ .idle) went
    · cases went
      exact .skip rfl
  · rename_i source
    cases went
    exact .move _ (source ▸ .idleDone) (goto_movedTo k _ nofun)
  · rename_i fn source
    cases went
    exact .move _ (source ▸ .threadDone fn) (goto_movedTo k _ nofun)
  · rename_i source
    unfold Kernel.setKswapd at went
    simp only at went
    split at went
    · contradiction
    · rename_i created
      cases went
      exact .setKswapd source (not_le.mp created) (goto_movedTo _ _ nofun)
  · rename_i source
    cases went
    exact .move _ (source ▸ .userStart) (goto_movedTo k _ nofun)
  · rename_i fn source
    cases went
    exact .move _ (source ▸ .threadStart fn) (goto_movedTo k _ nofun)
  · rename_i source
    cases went
    exact of_mayKilled nofun (fun killed => source ▸ .tailKilled killed)
      (fun alive => source ▸ .tailAlive alive)
  · rename_i source
    split at went
    · exact .schedule _ (source ▸ .tail) went
    · cases went
      exact .move _ (source ▸ .tailDone) (goto_movedTo k _ nofun)
  · rename_i source
    cases went
    exact .move _ (source ▸ .tailBack) (goto_movedTo k _ nofun)
  · rename_i w source
    exact of_workDone source went
  · rename_i w source
    cases went
    exact .move _ (source ▸ .lockDone w) (goto_movedTo k _ nofun)
  · rename_i w source
    exact .schedule _ (source ▸ .free w) went
  · rename_i w source
    obtain ⟨m, post, result⟩ := bind_eq_ok_iff.mp went
    cases result
    unfold freePagesPost at post
    split at post
    · contradiction
    · cases post
      exact .move _ (source ▸ .freeDone w) (goto_movedTo k _ nofun)
  · rename_i child caller source
    obtain ⟨m, woken, result⟩ := bind_eq_ok_iff.mp went
    cases result
    exact .forkWake child caller m source woken rfl
  · rename_i pid caller source
    exact of_waitRepeat source went
  · rename_i pid caller source
    cases went
    exact .waitMark pid caller source (goto_movedTo _ _ nofun)
  · rename_i pid caller source
    exact .schedule _ (source ▸ .wait pid caller) went
  · rename_i pid caller source
    cases went
    exact of_mayKilled nofun (fun killed => source ▸ .waitKilled pid caller killed)
      (fun alive => source ▸ .waitAlive pid caller alive)
  · rename_i caller source
    exact .schedule _ (source ▸ .sleep caller) went
  · rename_i caller source
    cases went
    exact .delTimer caller source (returnTo_movedTo _ caller 0 fun _ => le_rfl)
  · rename_i source
    obtain ⟨m, exited, result⟩ := bind_eq_ok_iff.mp went
    cases result
    exact .exit m source exited (goto_movedTo m _ nofun)
  · rename_i source
    exact .schedule _ (source ▸ .exit) went
  · contradiction
  · contradiction
  · contradiction

/-- Every step is of one of the kinds. -/
theorem of_step (stepped : k.step wrap event = .ok k') : Transition wrap k event k' := by
  cases event with
  | tick => exact of_tick stepped
  | syscall call =>
      simp only [step] at stepped
      split at stepped
      · rename_i user
        exact of_syscall user stepped
      · contradiction
  | pgfault =>
      simp only [step] at stepped
      split at stepped
      · rename_i user
        cases stepped
        exact .move _ (user ▸ .userFault) (goto_movedTo k _ nofun)
      · contradiction
  | fault =>
      simp only [step] at stepped
      split at stepped
      · rename_i user
        exact of_doExit trivial (.inl user) stepped
      · contradiction
  | kcall call =>
      simp only [step] at stepped
      split at stepped
      · rename_i fn thread
        exact of_kcall thread stepped
      · contradiction
  | noPage =>
      simp only [step] at stepped
      split at stepped
      · rename_i w source
        unfold tryFreePages at stepped
        split at stepped
        · contradiction
        · rename_i swapd present
          obtain ⟨m, marked, result⟩ := bind_eq_ok_iff.mp stepped
          cases result
          exact .freePages w swapd m source present marked (goto_movedTo m _ nofun)
      · contradiction
  | lockBusy =>
      simp only [step] at stepped
      split at stepped
      · rename_i w source
        split at stepped
        · exact .schedule _ (source ▸ .lock w) stepped
        · contradiction
      · contradiction
  | fail errorCode =>
      simp only [step] at stepped
      split at stepped
      · rename_i w source
        exact of_workFailed source stepped
      · contradiction
  | go address => exact of_go stepped

end Transition

end Kernel

end EdfKernel
