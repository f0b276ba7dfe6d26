import EdfKernel.Mm.Machine
import EdfKernel.Process.Departures

/-!
# Calls of do_wait

A call of `do_wait` checks the address `code_store` before it looks for a zombie, and again
when it copies the exit code there; it has freed the zombie in between.  The processes and the
address spaces take their steps together here: where the current process does something other
than `do_wait`, it also makes any calls on address spaces, so the runs here include those of
the code.
-/

namespace EdfKernel

open Library

/-- A zombie that has been freed, with its exit code. -/
structure Freed where
  zombie : ProcPtr
  exitCode : Int
  deriving DecidableEq, Repr

/-- A call of `do_wait` that has freed a zombie and has not returned. -/
structure Reaped where
  caller : ProcPtr
  codeStore : Nat
  freed : Freed
  deriving DecidableEq, Repr

/-- A call of `do_wait` that has returned `ret`, with the zombie it has freed and what it has
stored at `code_store`. -/
structure WaitReturn where
  caller : ProcPtr
  codeStore : Nat
  ret : Int
  freed : Option Freed
  stored : Option Int
  deriving DecidableEq, Repr

/-- The processes and the address spaces; the arguments `code_store` on the kernel stacks, the
calls of `do_wait` that have freed a zombie, those that have returned, and the zombies that
have left the list of processes. -/
structure WaitSystem where
  kernel : Kernel
  memory : Mm.Memory
  codeStore : ProcPtr → Nat
  reaped : List Reaped
  returns : List WaitReturn
  freed : List Freed

/-- What happens next on the processor, the argument `code_store` of a call of `do_wait`, and
the calls on address spaces. -/
structure WaitInput where
  event : Event
  codeStore : Nat
  calls : List Mm.Input

/-- Why there is no next state. -/
inductive WaitStop
  | kernel (stop : Stop)
  | memory (panic : Mm.Panic)
  | disabled
  deriving DecidableEq, Repr

/-- The places of a call of `do_wait` that has freed a zombie. -/
def Pc.copies : Pc → Bool
  | .work .memory | .lockSched .memory | .freeMark .memory | .freeSched .memory => true
  | _ => false

namespace WaitSystem

variable (wrap : Int → Int) (s : WaitSystem)

/-- The processes that a step takes off the list of processes. -/
def departed (k k' : Kernel) : List Freed :=
  (k.procList.filter fun p => p ∉ k'.procList).map fun p => ⟨p, (k.procs p).exitCode⟩

/-- A step of the processes. -/
def advance (event : Event) : Except WaitStop WaitSystem :=
  match s.kernel.step wrap event with
  | .error stop => .error (.kernel stop)
  | .ok k => .ok { s with kernel := k, freed := s.freed ++ departed s.kernel k }

/-- The calls on address spaces that the current process makes. -/
def perform (calls : List Mm.Input) : Except WaitStop WaitSystem :=
  match Run.exec Mm.Memory.step s.memory calls with
  | .error panic => .error (.memory panic)
  | .ok memory => .ok { s with memory := memory }

/-- `user_mem_check` of the `int` at `code_store`. -/
def codeCheck (codeStore : Nat) : Bool × WaitSystem :=
  let (passed, vm) := s.memory.vm.userMemCheck (s.kernel.procs s.kernel.current).mm codeStore 4 true
  (passed, { s with memory := { s.memory with vm := vm } })

/-- A call of `do_wait` of the current process returns. -/
def record (codeStore : Nat) (ret : Int) (freed : Option Freed) (stored : Option Int) :
    WaitSystem :=
  { s with returns := s.returns ++ [⟨s.kernel.current, codeStore, ret, freed, stored⟩] }

/-- A call of `do_wait` of the current process frees a zombie and goes on to copy its exit
code. -/
def reap (codeStore : Nat) (freed : Freed) : WaitSystem :=
  { s with reaped := ⟨s.kernel.current, codeStore, freed⟩ :: s.reaped }

/-- A call of `do_wait` that has freed a zombie returns. -/
def settle (call : Reaped) (ret : Int) (stored : Option Int) : WaitSystem :=
  { s.record call.codeStore ret (some call.freed) stored with reaped := s.reaped.erase call }

/-- `do_wait` up to its label `repeat`. -/
def doWait (pid : Int) (codeStore : Nat) : Except WaitStop WaitSystem :=
  let (passed, s) := if codeStore = 0 then (true, s) else s.codeCheck codeStore
  if passed then
    { s with codeStore := Function.update s.codeStore s.kernel.current codeStore }.advance wrap
      (.syscall (.wait pid))
  else
    .ok { s.record codeStore (-eInval) none none with
      kernel := s.kernel.returnTo .trap (-eInval) }

/-- `do_wait` from its label `repeat` to the release of the zombie; the kernel threads call it
with `NULL`. -/
def waitRepeat (pid : Int) (caller : Caller) (address : Nat) : Except WaitStop WaitSystem :=
  let codeStore := match caller with
    | .trap => s.codeStore s.kernel.current
    | _ => 0
  match s.kernel.waitScan pid with
  | .found zombie =>
      let freed : Freed := ⟨zombie, (s.kernel.procs zombie).exitCode⟩
      match caller with
      | .trap => (s.reap codeStore freed).advance wrap (.go address)
      | _ => (s.record codeStore 0 (some freed) none).advance wrap (.go address)
  | .haskid => s.advance wrap (.go address)
  | .nokid => (s.record codeStore (-eBadProc) none none).advance wrap (.go address)

/-- The end of `do_wait`, after the release of the zombie. -/
def copyCode (call : Reaped) (address : Nat) : Except WaitStop WaitSystem :=
  if call.codeStore = 0 then (s.settle call 0 none).advance wrap (.go address)
  else
    let (passed, s) := s.codeCheck call.codeStore
    if passed then (s.settle call 0 (some call.freed.exitCode)).advance wrap (.go address)
    else (s.settle call (-eInval) none).advance wrap (.fail (-eInval))

/-- The call of `do_wait` of the current process that has freed a zombie. -/
def ownReaped : Option Reaped :=
  s.reaped.find? fun call => call.caller = s.kernel.current

/-- One step. -/
def step (i : WaitInput) : Except WaitStop WaitSystem :=
  match s.kernel.pc, i.event with
  | .user, .syscall (.wait pid) => s.doWait wrap pid i.codeStore
  | .wait pid caller, .go address => s.waitRepeat wrap pid caller address
  | .work .memory, .go address =>
      match s.ownReaped with
      | some call => s.copyCode wrap call address
      | none => do (← s.perform i.calls).advance wrap i.event
  | .work .memory, .fail _ =>
      match s.ownReaped with
      | some _ => .error .disabled
      | none => do (← s.perform i.calls).advance wrap i.event
  | _, _ => do (← s.perform i.calls).advance wrap i.event

/-- The system when the kernel starts. -/
def start (procs : ProcPtr → ProcStruct) (memory : Mm.Memory) : WaitSystem where
  kernel := .boot procs
  memory := memory
  codeStore _ := 0
  reaped := []
  returns := []
  freed := []

end WaitSystem

end EdfKernel
