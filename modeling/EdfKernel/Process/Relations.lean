import EdfKernel.Library.Rings
import EdfKernel.Sched.Core

/-!
# Process relations

The part of `proc.c` that keeps the process table: the links between parents,
children and siblings, the process list, the hash chains by pid, pid allocation,
and the thread-group rings.
-/

namespace EdfKernel

open Library

/-- `hash32` with `HASH_SHIFT` bits, as `pid_hashfn` uses it. -/
def pidHashfn (pid : Int) : Nat :=
  (pid.toNat * 0x9e370001 % 2 ^ 32) >>> (32 - 10)

/-! ## Pids -/

/-- One pass of `get_pid` over the process list.  The flag tells whether the
pass ends in `goto repeat`. -/
def pidScan : List Int → Int → Int → Bool × Int × Int
  | [], lastPid, nextSafe => (false, lastPid, nextSafe)
  | pid :: rest, lastPid, nextSafe =>
      if pid = lastPid then
        if nextSafe ≤ lastPid + 1 then
          (true, if maxPid ≤ lastPid + 1 then 1 else lastPid + 1, maxPid)
        else pidScan rest (lastPid + 1) nextSafe
      else if lastPid < pid ∧ pid < nextSafe then pidScan rest lastPid pid
      else pidScan rest lastPid nextSafe

/-- The passes of `get_pid` from the label `repeat` on. -/
def pidRepeat : Nat → List Int → Int → Int → Except Stop (Int × Int)
  | 0, _, _, _ => .error (.spin .getPid)
  | fuel + 1, pids, lastPid, nextSafe =>
      match pidScan pids lastPid nextSafe with
      | (true, lastPid, nextSafe) => pidRepeat fuel pids lastPid nextSafe
      | (false, lastPid, nextSafe) => .ok (lastPid, nextSafe)

/-- `get_pid` on the pids of the process list and its two static variables;
every pass but the last one advances `last_pid`. -/
def nextPid (pids : List Int) (lastPid nextSafe : Int) : Except Stop (Int × Int) :=
  if maxPid ≤ lastPid + 1 then pidRepeat maxPid.toNat pids 1 maxPid
  else if nextSafe ≤ lastPid + 1 then pidRepeat maxPid.toNat pids (lastPid + 1) maxPid
  else .ok (lastPid + 1, nextSafe)

/-! ## Thread-group rings -/

namespace Kernel

/-- The processes of a thread-group ring in the order of `next_thread`, from
`proc` on. -/
def threadRing (k : Kernel) (proc : ProcPtr) : List ProcPtr :=
  Rings.ring k.threadGroups proc

/-- `next_thread`. -/
def nextThread (k : Kernel) (proc : ProcPtr) : ProcPtr :=
  (k.threadRing proc).tail.headD proc

/-- `de_thread`, a `list_del_init`. -/
def deThread (k : Kernel) (proc : ProcPtr) : Kernel :=
  { k with threadGroups := Rings.leave proc k.threadGroups }

/-- The `list_add_before` that puts the new thread `proc` in the ring of `head`. -/
def joinThread (k : Kernel) (head proc : ProcPtr) : Kernel :=
  { k with threadGroups := Rings.join head proc k.threadGroups }

/-! ## The process list and the hash chains -/

/-- `get_pid`. -/
def getPid (k : Kernel) : Except Stop (Int × Kernel) := do
  let (lastPid, nextSafe) ← nextPid (k.procList.map fun p => (k.procs p).pid) k.lastPid k.nextSafe
  return (lastPid, { k with lastPid := lastPid, nextSafe := nextSafe })

/-- `hash_proc`. -/
def hashProc (k : Kernel) (proc : ProcPtr) : Kernel :=
  let chain := pidHashfn (k.procs proc).pid
  { k with hashList := Function.update k.hashList chain (proc :: k.hashList chain) }

/-- `unhash_proc`. -/
def unhashProc (k : Kernel) (proc : ProcPtr) : Kernel :=
  let chain := pidHashfn (k.procs proc).pid
  { k with hashList := Function.update k.hashList chain ((k.hashList chain).erase proc) }

/-- `find_proc`. -/
def findProc (k : Kernel) (pid : Int) : Option ProcPtr :=
  if 0 < pid ∧ pid < maxPid then
    (k.hashList (pidHashfn pid)).find? fun p => decide ((k.procs p).pid = pid)
  else none

/-- `set_links`, for a process whose `parent` field is `parent`. -/
def setLinks (k : Kernel) (proc parent : ProcPtr) : Kernel :=
  let k := { k with procList := proc :: k.procList, nrProcess := k.nrProcess + 1 }
  let k := k.modify proc fun s => { s with yptr := none, optr := (k.procs parent).cptr }
  let k := k.modifySome (k.procs proc).optr fun s => { s with yptr := some proc }
  k.modify parent fun s => { s with cptr := some proc }

/-- `remove_links`. -/
def removeLinks (k : Kernel) (proc : ProcPtr) : Kernel :=
  let k := { k with procList := k.procList.erase proc, nrProcess := k.nrProcess - 1 }
  let k := k.modifySome (k.procs proc).optr fun s => { s with yptr := (k.procs proc).yptr }
  match (k.procs proc).yptr with
  | some younger => k.modify younger fun s => { s with optr := (k.procs proc).optr }
  | none =>
      k.modifySome (k.procs proc).parent fun s => { s with cptr := (k.procs proc).optr }

end Kernel

end EdfKernel
