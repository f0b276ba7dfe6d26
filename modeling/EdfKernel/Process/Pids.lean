import EdfKernel.Process.Frames

/-!
# Pids

`get_pid` keeps a gap of unused pids between `last_pid` and `next_safe`, and
`find_proc` finds the processes of the process list by their pids.
-/

namespace EdfKernel

open Library

/-! ## Allocation -/

/-- The pids in use, none of which lies between `last_pid` and `next_safe`. -/
structure PidGap (pids : List Int) (lastPid nextSafe : Int) : Prop where
  range : ∀ pid ∈ pids, 1 ≤ pid ∧ pid < maxPid
  gap : ∀ pid ∈ pids, pid ≤ lastPid ∨ nextSafe ≤ pid
  last_pos : 1 ≤ lastPid
  safe_le : nextSafe ≤ maxPid

/-- A pass over the process list that ends without `goto repeat` has opened a gap
above a pid that it has not met. -/
theorem pidScan_false {pids : List Int} {lastPid nextSafe lastPid' nextSafe' : Int}
    (scan : pidScan pids lastPid nextSafe = (false, lastPid', nextSafe'))
    (below : lastPid < nextSafe) :
    lastPid ≤ lastPid' ∧ lastPid' < nextSafe' ∧ nextSafe' ≤ nextSafe ∧
      ∀ pid ∈ pids, pid < lastPid' ∨ nextSafe' ≤ pid := by
  induction pids generalizing lastPid nextSafe with
  | nil =>
      simp only [pidScan, Prod.mk.injEq, true_and] at scan
      obtain ⟨rfl, rfl⟩ := scan
      exact ⟨le_rfl, below, le_rfl, fun pid mem => by contradiction⟩
  | cons pid rest ih =>
      unfold pidScan at scan
      split at scan
      · rename_i used
        split at scan
        · simp at scan
        · rename_i inGap
          obtain ⟨last, order, safe, outside⟩ := ih scan (by omega)
          refine ⟨by omega, order, safe, fun other mem => ?_⟩
          rcases List.mem_cons.mp mem with rfl | inRest
          · left
            omega
          · exact outside other inRest
      · split at scan
        · rename_i _ between
          obtain ⟨last, order, safe, outside⟩ := ih scan between.1
          refine ⟨last, order, by omega, fun other mem => ?_⟩
          rcases List.mem_cons.mp mem with rfl | inRest
          · right
            exact safe
          · exact outside other inRest
        · rename_i other notBetween
          obtain ⟨last, order, safe, outside⟩ := ih scan below
          refine ⟨last, order, safe, fun other mem => ?_⟩
          rcases List.mem_cons.mp mem with rfl | inRest
          · omega
          · exact outside other inRest

/-- A pass that ends in `goto repeat` starts the next one from a valid pid. -/
theorem pidScan_true {pids : List Int} {lastPid nextSafe lastPid' nextSafe' : Int}
    (scan : pidScan pids lastPid nextSafe = (true, lastPid', nextSafe')) (positive : 1 ≤ lastPid) :
    1 ≤ lastPid' ∧ lastPid' < maxPid ∧ nextSafe' = maxPid := by
  have small : (1 : Int) < maxPid := by decide
  induction pids generalizing lastPid nextSafe with
  | nil => simp [pidScan] at scan
  | cons pid rest ih =>
      unfold pidScan at scan
      split at scan
      · split at scan
        · simp only [Prod.mk.injEq, true_and] at scan
          obtain ⟨rfl, rfl⟩ := scan
          split <;> omega
        · exact ih scan (by omega)
      · split at scan
        · exact ih scan positive
        · exact ih scan positive

theorem pidRepeat_spec {fuel : Nat} {pids : List Int} {lastPid nextSafe lastPid' nextSafe' : Int}
    (found : pidRepeat fuel pids lastPid nextSafe = .ok (lastPid', nextSafe'))
    (positive : 1 ≤ lastPid) (below : lastPid < nextSafe) (safe : nextSafe ≤ maxPid) :
    1 ≤ lastPid' ∧ lastPid' < nextSafe' ∧ nextSafe' ≤ maxPid ∧
      ∀ pid ∈ pids, pid < lastPid' ∨ nextSafe' ≤ pid := by
  induction fuel generalizing lastPid nextSafe with
  | zero => contradiction
  | succ fuel ih =>
      unfold pidRepeat at found
      split at found
      · rename_i last next scan
        obtain ⟨last, order, nextEq⟩ := pidScan_true scan positive
        exact ih found last (by omega) (by omega)
      · rename_i last next scan
        cases found
        obtain ⟨last, order, le, outside⟩ := pidScan_false scan below
        exact ⟨by omega, order, by omega, outside⟩

/-- `get_pid` returns an unused pid and keeps the gap. -/
theorem nextPid_spec {pids : List Int} {lastPid nextSafe pid nextSafe' : Int}
    (gap : PidGap pids lastPid nextSafe) (found : nextPid pids lastPid nextSafe = .ok (pid, nextSafe')) :
    pid ∉ pids ∧ PidGap (pid :: pids) pid nextSafe' := by
  have small : (1 : Int) < maxPid := by decide
  have positive := gap.last_pos
  have outside : 1 ≤ pid ∧ pid < nextSafe' ∧ nextSafe' ≤ maxPid ∧
      ∀ other ∈ pids, other < pid ∨ nextSafe' ≤ other := by
    unfold nextPid at found
    split at found
    · exact pidRepeat_spec found le_rfl small le_rfl
    · split at found
      · exact pidRepeat_spec found (by omega) (by omega) le_rfl
      · cases found
        refine ⟨by omega, by omega, gap.safe_le, fun other mem => ?_⟩
        rcases gap.gap other mem with old | above
        · left
          omega
        · exact .inr above
  obtain ⟨pidPos, order, safe, other⟩ := outside
  constructor
  · intro used
    have := other pid used
    omega
  · constructor
    · intro p mem
      rcases List.mem_cons.mp mem with rfl | old
      · omega
      · exact gap.range p old
    · intro p mem
      rcases List.mem_cons.mp mem with rfl | old
      · exact .inl le_rfl
      · rcases other p old with less | above
        · exact .inl less.le
        · exact .inr above
    · exact pidPos
    · exact safe

/-! ## The process list and the hash chains -/

/-- The processes of the process list have distinct pids, and are found by them. -/
structure Numbered (k : Kernel) : Prop where
  nodup : k.procList.Nodup
  distinct : (k.procList.map fun p => (k.procs p).pid).Nodup
  gap : PidGap (k.procList.map fun p => (k.procs p).pid) k.lastPid k.nextSafe
  hashed : ∀ chain p, p ∈ k.hashList chain ↔
    p ∈ k.procList ∧ pidHashfn (k.procs p).pid = chain
  hashNodup : ∀ chain, (k.hashList chain).Nodup

namespace Numbered

variable {k k' : Kernel}

theorem pid_injective (numbered : Numbered k) {p q : ProcPtr} (memP : p ∈ k.procList)
    (memQ : q ∈ k.procList) (same : (k.procs p).pid = (k.procs q).pid) : p = q :=
  List.inj_on_of_nodup_map numbered.distinct memP memQ same

/-- `find_proc` returns exactly the process with the pid. -/
theorem findProc_eq_some_iff (numbered : Numbered k) {pid : Int} {p : ProcPtr} :
    k.findProc pid = some p ↔ p ∈ k.procList ∧ (k.procs p).pid = pid := by
  unfold Kernel.findProc
  constructor
  · intro found
    split at found
    · have mem := List.mem_of_find?_eq_some found
      exact ⟨((numbered.hashed _ p).mp mem).1, by simpa using List.find?_some found⟩
    · contradiction
  · rintro ⟨mem, rfl⟩
    have range := numbered.gap.range _ (List.mem_map_of_mem mem)
    rw [if_pos ⟨by omega, range.2⟩]
    cases found : (k.hashList (pidHashfn (k.procs p).pid)).find?
        (fun q => decide ((k.procs q).pid = (k.procs p).pid)) with
    | none =>
        have absent := List.find?_eq_none.mp found p ((numbered.hashed _ p).mpr ⟨mem, rfl⟩)
        simp at absent
    | some q =>
        have own : (k.procs q).pid = (k.procs p).pid := by simpa using List.find?_some found
        have memQ := ((numbered.hashed _ q).mp (List.mem_of_find?_eq_some found)).1
        rw [numbered.pid_injective memQ mem own]

/-- The numbering only depends on the process list, the hash chains and the pids of
the listed processes. -/
theorem congr (numbered : Numbered k) (list : k'.procList = k.procList)
    (hash : k'.hashList = k.hashList) (last : k'.lastPid = k.lastPid)
    (safe : k'.nextSafe = k.nextSafe)
    (pid : ∀ p ∈ k.procList, (k'.procs p).pid = (k.procs p).pid) : Numbered k' := by
  have pids : (k'.procList.map fun p => (k'.procs p).pid) =
      k.procList.map fun p => (k.procs p).pid := by
    rw [list]
    exact List.map_congr_left pid
  constructor
  · exact list ▸ numbered.nodup
  · exact pids ▸ numbered.distinct
  · rw [pids, last, safe]
    exact numbered.gap
  · intro chain p
    rw [hash, list, numbered.hashed]
    constructor
    · rintro ⟨mem, eq⟩
      exact ⟨mem, (pid p mem).symm ▸ eq⟩
    · rintro ⟨mem, eq⟩
      exact ⟨mem, pid p mem ▸ eq⟩
  · exact hash ▸ numbered.hashNodup

/-- A process with the next pid enters the process list and its hash chain. -/
theorem insert (numbered : Numbered k) {child : ProcPtr} {pid nextSafe : Int}
    (new : child ∉ k.procList)
    (found : nextPid (k.procList.map fun p => (k.procs p).pid) k.lastPid k.nextSafe =
      .ok (pid, nextSafe))
    (list : k'.procList = child :: k.procList)
    (hash : k'.hashList = Function.update k.hashList (pidHashfn pid)
      (child :: k.hashList (pidHashfn pid)))
    (last : k'.lastPid = pid) (safe : k'.nextSafe = nextSafe) (childPid : (k'.procs child).pid = pid)
    (oldPid : ∀ p ∈ k.procList, (k'.procs p).pid = (k.procs p).pid) : Numbered k' := by
  obtain ⟨unused, gap⟩ := nextPid_spec numbered.gap found
  have pids : (k'.procList.map fun p => (k'.procs p).pid) =
      pid :: k.procList.map fun p => (k.procs p).pid := by
    rw [list, List.map_cons, childPid]
    exact congrArg _ (List.map_congr_left oldPid)
  have notHashed : ∀ chain, child ∉ k.hashList chain :=
    fun chain mem => new ((numbered.hashed chain child).mp mem).1
  have oldIff : ∀ chain p, p ∈ k.hashList chain ↔
      p ∈ k.procList ∧ pidHashfn (k'.procs p).pid = chain := by
    intro chain p
    rw [numbered.hashed]
    constructor
    · rintro ⟨mem, eq⟩
      exact ⟨mem, (oldPid p mem).symm ▸ eq⟩
    · rintro ⟨mem, eq⟩
      exact ⟨mem, oldPid p mem ▸ eq⟩
  constructor
  · rw [list]
    exact List.nodup_cons.mpr ⟨new, numbered.nodup⟩
  · rw [pids]
    exact List.nodup_cons.mpr ⟨unused, numbered.distinct⟩
  · rw [pids, last, safe]
    exact gap
  · intro chain p
    rw [hash, list, Function.update_apply, List.mem_cons]
    by_cases atChain : chain = pidHashfn pid
    · subst atChain
      rw [if_pos rfl, List.mem_cons, oldIff]
      constructor
      · rintro (rfl | ⟨mem, eq⟩)
        · exact ⟨.inl rfl, by rw [childPid]⟩
        · exact ⟨.inr mem, eq⟩
      · rintro ⟨rfl | mem, eq⟩
        · exact .inl rfl
        · exact .inr ⟨mem, eq⟩
    · rw [if_neg atChain, oldIff]
      constructor
      · rintro ⟨mem, eq⟩
        exact ⟨.inr mem, eq⟩
      · rintro ⟨rfl | mem, eq⟩
        · exact absurd (childPid ▸ eq).symm atChain
        · exact ⟨mem, eq⟩
  · intro chain
    rw [hash, Function.update_apply]
    split
    · exact List.nodup_cons.mpr ⟨notHashed _, numbered.hashNodup _⟩
    · exact numbered.hashNodup chain

/-- A process leaves the process list and its hash chain. -/
theorem erase (numbered : Numbered k) {p : ProcPtr}
    (list : k'.procList = k.procList.erase p)
    (hash : k'.hashList = Function.update k.hashList (pidHashfn (k.procs p).pid)
      ((k.hashList (pidHashfn (k.procs p).pid)).erase p))
    (last : k'.lastPid = k.lastPid) (safe : k'.nextSafe = k.nextSafe)
    (pid : ∀ q, (k'.procs q).pid = (k.procs q).pid) : Numbered k' := by
  have sublist : (k'.procList.map fun q => (k'.procs q).pid).Sublist
      (k.procList.map fun q => (k.procs q).pid) := by
    rw [list, List.map_congr_left fun q _ => pid q]
    exact List.erase_sublist.map _
  have mem_iff : ∀ q, q ∈ k'.procList ↔ q ≠ p ∧ q ∈ k.procList := by
    intro q
    rw [list]
    exact numbered.nodup.mem_erase_iff
  constructor
  · rw [list]
    exact numbered.nodup.erase p
  · exact sublist.nodup numbered.distinct
  · constructor
    · exact fun q mem => numbered.gap.range q (sublist.subset mem)
    · rw [last, safe]
      exact fun q mem => numbered.gap.gap q (sublist.subset mem)
    · exact last ▸ numbered.gap.last_pos
    · exact safe ▸ numbered.gap.safe_le
  · intro chain q
    rw [hash, mem_iff, pid, Function.update_apply]
    by_cases atChain : chain = pidHashfn (k.procs p).pid
    · rw [if_pos atChain, (numbered.hashNodup _).mem_erase_iff, numbered.hashed, atChain, and_assoc]
    · rw [if_neg atChain, numbered.hashed]
      constructor
      · rintro ⟨mem, eq⟩
        refine ⟨⟨?_, mem⟩, eq⟩
        rintro rfl
        exact atChain eq.symm
      · rintro ⟨⟨_, mem⟩, eq⟩
        exact ⟨mem, eq⟩
  · intro chain
    rw [hash, Function.update_apply]
    split
    · exact (numbered.hashNodup _).erase p
    · exact numbered.hashNodup chain

end Numbered

end EdfKernel
