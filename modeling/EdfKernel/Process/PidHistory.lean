import EdfKernel.Process.Reachable
import Mathlib.Data.Int.Interval

/-!
# Histories of pids

`get_pid` between any sequence of new and removed processes.  Its loop ends because a pass
that ends in `goto repeat` only advances `last_pid` over pids in use, and so does not pass
the next pid that is not.
-/

namespace EdfKernel

open Library

/-! ## Termination -/

/-- A pass that ends in `goto repeat` does not advance `last_pid` past an unused pid. -/
theorem pidScan_progress {pids : List Int} {lastPid nextSafe lastPid' nextSafe' unused : Int}
    (scan : pidScan pids lastPid nextSafe = (true, lastPid', nextSafe'))
    (notUsed : unused ∉ pids) (inRange : unused < maxPid) :
    (lastPid ≤ unused → lastPid < lastPid' ∧ lastPid' ≤ unused) ∧
      (unused < lastPid → lastPid < lastPid' ∨ lastPid' = 1) := by
  induction pids generalizing lastPid nextSafe with
  | nil => simp [pidScan] at scan
  | cons pid rest ih =>
      rw [List.mem_cons, not_or] at notUsed
      unfold pidScan at scan
      split at scan
      · rename_i used
        split at scan
        · simp only [Prod.mk.injEq, true_and] at scan
          obtain ⟨last, _⟩ := scan
          split at last <;> omega
        · obtain ⟨before, after⟩ := ih scan notUsed.2
          omega
      · split at scan
        · exact ih scan notUsed.2
        · exact ih scan notUsed.2

/-- The pids that `last_pid` can still take before the unused one. -/
def pidsAhead (unused lastPid : Int) : Int :=
  if lastPid ≤ unused then unused - lastPid else maxPid - lastPid + unused

theorem pidRepeat_returns {pids : List Int} {unused : Int} (notUsed : unused ∉ pids)
    (positive : 1 ≤ unused) (inRange : unused < maxPid) (fuel : Nat) (lastPid nextSafe : Int)
    (lastPos : 1 ≤ lastPid) (lastRange : lastPid < maxPid)
    (enough : pidsAhead unused lastPid < fuel) :
    ∃ found, pidRepeat fuel pids lastPid nextSafe = .ok found := by
  induction fuel generalizing lastPid nextSafe with
  | zero =>
      unfold pidsAhead at enough
      split at enough <;> omega
  | succ fuel ih =>
      unfold pidRepeat
      split
      · rename_i last next scan
        obtain ⟨before, after⟩ := pidScan_progress scan notUsed inRange
        obtain ⟨lastPos', lastRange', _⟩ := pidScan_true scan lastPos
        refine ih last next lastPos' lastRange' ?_
        unfold pidsAhead at enough ⊢
        split at enough <;> split <;> omega
      · exact ⟨_, rfl⟩

/-- There is an unused pid unless all of them are in use. -/
theorem exists_unused_pid {pids : List Int} (few : (pids.length : Int) ≤ maxProcess) :
    ∃ unused, unused ∉ pids ∧ 1 ≤ unused ∧ unused < maxPid := by
  have more : pids.toFinset.card < (Finset.Ico 1 maxPid).card := by
    have range : (Finset.Ico 1 maxPid).card = 8191 := by
      rw [Int.card_Ico]
      rfl
    have distinct := pids.toFinset_card_le
    unfold maxProcess at few
    omega
  obtain ⟨unused, mem, new⟩ := Finset.exists_mem_notMem_of_card_lt_card more
  rw [Finset.mem_Ico] at mem
  rw [List.mem_toFinset] at new
  exact ⟨unused, new, mem⟩

/-- `get_pid` returns while there are at most `MAX_PROCESS` processes. -/
theorem nextPid_returns {pids : List Int} {lastPid nextSafe : Int} (gap : PidGap pids lastPid nextSafe)
    (few : (pids.length : Int) ≤ maxProcess) : ∃ found, nextPid pids lastPid nextSafe = .ok found := by
  obtain ⟨unused, notUsed, positive, inRange⟩ := exists_unused_pid few
  have ahead : ∀ last, 1 ≤ last → last < maxPid → pidsAhead unused last < (maxPid.toNat : Int) := by
    intro last lastPos lastRange
    unfold pidsAhead
    split <;> omega
  have lastPos := gap.last_pos
  unfold nextPid
  split
  · exact pidRepeat_returns notUsed positive inRange _ _ _ le_rfl (by omega)
      (ahead 1 le_rfl (by omega))
  · split
    · exact pidRepeat_returns notUsed positive inRange _ _ _ (by omega) (by omega)
        (ahead _ (by omega) (by omega))
    · exact ⟨_, rfl⟩

/-! ## Histories -/

/-- What happens to the process list. -/
inductive PidCall
  | create (proc parent : ProcPtr)
  | remove (proc : ProcPtr)
  deriving DecidableEq, Repr

namespace Kernel

variable {k k' : Kernel} {call : PidCall}

/-- The pids of the process list. -/
def pids (k : Kernel) : List Int := k.procList.map fun p => (k.procs p).pid

/-- `do_fork` gives a process its pid and links it; `do_wait` takes one off the list. -/
def pidStep (k : Kernel) : PidCall → Except Stop Kernel
  | .create proc parent => do
      let (pid, k) ← k.getPid
      let k := k.modify proc fun s => { s with pid := pid }
      return (k.hashProc proc).setLinks proc parent
  | .remove proc => .ok ((k.unhashProc proc).removeLinks proc)

/-- A process is linked once. -/
def AllowsPid (k : Kernel) : PidCall → Prop
  | .create proc _ => proc ∉ k.procList
  | .remove proc => proc ∈ k.procList

instance decidableAllowsPid (k : Kernel) : (call : PidCall) → Decidable (k.AllowsPid call)
  | .create proc _ => inferInstanceAs (Decidable (proc ∉ k.procList))
  | .remove proc => inferInstanceAs (Decidable (proc ∈ k.procList))

/-- The gap of unused pids above `last_pid`. -/
def HasGap (k : Kernel) : Prop := PidGap k.pids k.lastPid k.nextSafe

theorem setLinks_pid (k : Kernel) (p parent q : ProcPtr) :
    ((k.setLinks p parent).procs q).pid = (k.procs q).pid :=
  (congrArg ProcStruct.pid (k.setLinks_unrelated p parent q) :)

theorem removeLinks_pid (k : Kernel) (p q : ProcPtr) :
    ((k.removeLinks p).procs q).pid = (k.procs q).pid :=
  (congrArg ProcStruct.pid (k.removeLinks_unrelated p q) :)

/-- A new process has the pid that `get_pid` has returned, and the others keep theirs. -/
theorem pids_create {proc parent : ProcPtr} {pid nextSafe : Int} (new : proc ∉ k.procList) :
    let m := { k with lastPid := pid, nextSafe := nextSafe }
    (((m.modify proc fun s => { s with pid := pid }).hashProc proc).setLinks proc parent).pids =
      pid :: k.pids := by
  intro m
  have list : (((m.modify proc fun s => { s with pid := pid }).hashProc proc).setLinks proc
      parent).procList = proc :: k.procList :=
    congrArg Kernel.procList (setLinks_withProcs _ proc parent k.procs)
  have own : (((m.modify proc fun s => { s with pid := pid }).hashProc proc).procs proc).pid =
      pid := by
    simp [hashProc]
  rw [pids, list, List.map_cons, setLinks_pid, own]
  congr 1
  refine List.map_congr_left fun q mem => ?_
  have other : q ≠ proc := by
    rintro rfl
    exact new mem
  rw [setLinks_pid]
  exact congrArg ProcStruct.pid (modify_procs_of_ne m proc (fun s => { s with pid := pid }) other)

theorem HasGap.create {proc parent : ProcPtr} (gap : k.HasGap) (new : proc ∉ k.procList)
    (stepped : k.pidStep (.create proc parent) = .ok k') : k'.HasGap := by
  obtain ⟨⟨pid, m⟩, got, result⟩ := bind_eq_ok_iff.mp stepped
  cases result
  obtain ⟨⟨last, safe⟩, found, linked⟩ := bind_eq_ok_iff.mp got
  cases linked
  have lists := setLinks_withProcs ((Kernel.modify { k with lastPid := pid, nextSafe := safe }
    proc fun s => { s with pid := pid }).hashProc proc) proc parent k.procs
  have lastEq := congrArg Kernel.lastPid lists
  have safeEq := congrArg Kernel.nextSafe lists
  unfold HasGap
  rw [pids_create new]
  exact lastEq.symm ▸ safeEq.symm ▸ (nextPid_spec gap found).2

theorem HasGap.remove {proc : ProcPtr} (gap : k.HasGap)
    (stepped : k.pidStep (.remove proc) = .ok k') : k'.HasGap := by
  cases stepped
  have lists := (k.unhashProc proc).removeLinks_withProcs proc k.procs
  have list := congrArg Kernel.procList lists
  have lastEq := congrArg Kernel.lastPid lists
  have safeEq := congrArg Kernel.nextSafe lists
  have fewer : ((k.unhashProc proc).removeLinks proc).pids ⊆ k.pids := by
    intro pid mem
    obtain ⟨q, listed, own⟩ := List.mem_map.mp mem
    rw [removeLinks_pid] at own
    exact List.mem_map.mpr ⟨q, List.mem_of_mem_erase (list ▸ listed), own⟩
  constructor
  · exact fun pid mem => gap.range pid (fewer mem)
  · intro pid mem
    have outside := gap.gap pid (fewer mem)
    exact lastEq.symm ▸ safeEq.symm ▸ outside
  · exact lastEq.symm ▸ gap.last_pos
  · exact safeEq.symm ▸ gap.safe_le

/-- After every history `get_pid` returns a pid in range that no process has, as long as there
are at most `MAX_PROCESS` processes. -/
theorem getPid_fresh (k : Kernel) (calls : List PidCall) (empty : k.procList = [])
    (last : k.lastPid = maxPid) (safe : k.nextSafe = maxPid)
    (allowed : Run.Along pidStep AllowsPid k calls) (run : Run.exec pidStep k calls = .ok k')
    (few : (k'.procList.length : Int) ≤ maxProcess) :
    ∃ pid m, k'.getPid = .ok (pid, m) ∧ 1 ≤ pid ∧ pid < maxPid ∧
      ∀ p ∈ k'.procList, (k'.procs p).pid ≠ pid := by
  have start : k.HasGap := by
    unfold HasGap
    rw [pids, empty, last, safe]
    exact ⟨fun _ mem => by contradiction, fun _ mem => by contradiction, by decide, le_rfl⟩
  have gap : k'.HasGap := by
    refine Run.exec_invariant_along ?_ start allowed run
    intro m call m' gap allowed stepped
    cases call with
    | create proc parent => exact gap.create allowed stepped
    | remove proc => exact gap.remove stepped
  have count : (k'.pids.length : Int) ≤ maxProcess := by
    rw [pids, List.length_map]
    exact few
  obtain ⟨⟨pid, nextSafe⟩, found⟩ := nextPid_returns gap count
  obtain ⟨unused, gap'⟩ := nextPid_spec gap found
  have range := gap'.range pid List.mem_cons_self
  refine ⟨pid, { k' with lastPid := pid, nextSafe := nextSafe }, ?_, range.1, range.2, ?_⟩
  · exact bind_eq_ok_iff.mpr ⟨(pid, nextSafe), found, rfl⟩
  · intro p mem own
    exact unused (List.mem_map.mpr ⟨p, mem, own⟩)

/-- The kernel before the first process is on the list. -/
def unpopulated : Kernel :=
  { boot fun _ => blank with procList := [], hashList := fun _ => [], lastPid := maxPid,
                             nextSafe := maxPid }

/-- The first of two processes is removed and a third one created. -/
def threeCreated : List PidCall :=
  [.create 2 0, .create 3 0, .remove 2, .create 4 0]

/-- The process that is left of the first two still has its pid, and the next one gets another. -/
theorem getPid_fresh_threeCreated :
    ∃ k pid m, Run.exec pidStep unpopulated threeCreated = .ok k ∧ k.procList = [4, 3] ∧
      k.getPid = .ok (pid, m) ∧ ∀ p ∈ k.procList, (k.procs p).pid ≠ pid := by
  obtain ⟨k, run, list⟩ := Run.exec_of_decide (fun k : Kernel => k.procList = [4, 3])
    (by decide +kernel : (Run.exec pidStep unpopulated threeCreated).map _ = .ok true)
  have few : (k.procList.length : Int) ≤ maxProcess := by
    rw [list]
    decide
  obtain ⟨pid, m, got, _, _, fresh⟩ := getPid_fresh unpopulated threeCreated rfl rfl rfl
    (by decide +kernel) run few
  exact ⟨k, pid, m, run, list, got, fresh⟩

end Kernel

end EdfKernel
