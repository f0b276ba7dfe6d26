import EdfKernel.Process.Exit
import Mathlib.Data.List.Perm.Subperm

/-!
# The scan of do_wait

`do_wait` looks for a zombie among the children of the thread group of the current
process.
-/

namespace EdfKernel

open Library Library.LinkedList

namespace Kernel

variable {k : Kernel} {p z : ProcPtr} {pid : Int}

/-- A zombie that `do_wait(pid)` of the process `p` accepts. -/
structure Accepts (k : Kernel) (p : ProcPtr) (pid : Int) (z : ProcPtr) : Prop where
  listed : z ∈ k.procList
  zombie : (k.procs z).state = .zombie
  child : ∃ q ∈ k.threadRing p, (k.procs z).parent = some q
  requested : pid ≠ 0 → (k.procs z).pid = pid

/-- What the scan of a sibling list finds. -/
theorem scanChildren_spec {fuel : Nat} {l : List ProcPtr} {before first : Option ProcPtr}
    (linked : Linked k.older k.younger before l first) (enough : l.length ≤ fuel) :
    (∀ z, k.scanChildren fuel first = .found z → z ∈ l ∧ (k.procs z).state = .zombie) ∧
      ((∀ z, k.scanChildren fuel first ≠ .found z) →
        ∀ z ∈ l, (k.procs z).state ≠ .zombie) := by
  induction l generalizing fuel before first with
  | nil =>
      cases linked
      have none : k.scanChildren fuel none = .nokid := by cases fuel <;> rfl
      rw [none]
      exact ⟨by rintro _ ⟨⟩, fun _ z mem => by contradiction⟩
  | cons c rest ih =>
      obtain ⟨rfl, _, linkedRest⟩ := linked
      cases fuel with
      | zero => simp at enough
      | succ fuel =>
          obtain ⟨foundRest, restAlive⟩ := ih linkedRest (by simpa using enough)
          by_cases isZombie : (k.procs c).state = .zombie
          · have here : k.scanChildren (fuel + 1) (some c) = .found c := by
              simp only [scanChildren, if_pos isZombie]
            rw [here]
            constructor
            · rintro z found
              cases found
              exact ⟨List.mem_cons_self, isZombie⟩
            · exact fun none => absurd rfl (none c)
          · cases scan : k.scanChildren fuel (k.older c) with
            | found z' =>
                obtain ⟨mem, isZombie'⟩ := foundRest z' scan
                have here : k.scanChildren (fuel + 1) (some c) = .found z' := by
                  simp only [scanChildren, if_neg isZombie]
                  rw [show k.scanChildren fuel (k.procs c).optr = .found z' from scan]
                rw [here]
                constructor
                · rintro z found
                  cases found
                  exact ⟨List.mem_cons_of_mem _ mem, isZombie'⟩
                · exact fun none => absurd rfl (none z')
            | haskid =>
                have here : k.scanChildren (fuel + 1) (some c) = .haskid := by
                  simp only [scanChildren, if_neg isZombie]
                  rw [show k.scanChildren fuel (k.procs c).optr = .haskid from scan]
                rw [here]
                refine ⟨by rintro _ ⟨⟩, fun _ z mem => ?_⟩
                rcases List.mem_cons.mp mem with rfl | inRest
                · exact isZombie
                · exact restAlive (by rw [scan]; rintro _ ⟨⟩) z inRest
            | nokid =>
                have here : k.scanChildren (fuel + 1) (some c) = .haskid := by
                  simp only [scanChildren, if_neg isZombie]
                  rw [show k.scanChildren fuel (k.procs c).optr = .nokid from scan]
                rw [here]
                refine ⟨by rintro _ ⟨⟩, fun _ z mem => ?_⟩
                rcases List.mem_cons.mp mem with rfl | inRest
                · exact isZombie
                · exact restAlive (by rw [scan]; rintro _ ⟨⟩) z inRest

/-- The scan of the children of a process. -/
theorem scanProc_spec (table : Table k) (known : k.Known p) :
    (∀ z, k.scanChildren k.procList.length (k.procs p).cptr = .found z →
      z ∈ k.procList ∧ (k.procs z).parent = some p ∧ (k.procs z).state = .zombie) ∧
      ((∀ z, k.scanChildren k.procList.length (k.procs p).cptr ≠ .found z) →
        ∀ z ∈ k.procList, (k.procs z).parent = some p → (k.procs z).state ≠ .zombie) := by
  obtain ⟨children, family⟩ := table.family
  have subset : children p ⊆ k.procList := fun c mem => ((family.mem_iff p c).mp mem).1
  have enough : (children p).length ≤ k.procList.length :=
    (List.subperm_of_subset (family.nodup p) subset).length_le
  obtain ⟨found, none⟩ := scanChildren_spec (family.linked p known nofun) enough
  constructor
  · intro z scan
    obtain ⟨mem, isZombie⟩ := found z scan
    obtain ⟨listed, parent⟩ := (family.mem_iff p z).mp mem
    exact ⟨listed, parent, isZombie⟩
  · exact fun missing z listed parent => none missing z ((family.mem_iff p z).mpr ⟨listed, parent⟩)

theorem scanAny_spec (table : Table k) {ring : List ProcPtr} (known : ∀ q ∈ ring, k.Known q) :
    (∀ z, k.scanAny ring = .found z → z ∈ k.procList ∧ (k.procs z).state = .zombie ∧
      ∃ q ∈ ring, (k.procs z).parent = some q) ∧
      ((∀ z, k.scanAny ring ≠ .found z) → ∀ q ∈ ring, ∀ z ∈ k.procList,
        (k.procs z).parent = some q → (k.procs z).state ≠ .zombie) := by
  induction ring with
  | nil => exact ⟨nofun, fun _ q mem => by contradiction⟩
  | cons p rest ih =>
      obtain ⟨foundRest, noneRest⟩ := ih fun q mem => known q (List.mem_cons_of_mem _ mem)
      obtain ⟨found, none⟩ := scanProc_spec table (known p List.mem_cons_self)
      have later : ∀ z, (z ∈ k.procList ∧ (k.procs z).state = .zombie ∧
          ∃ q ∈ rest, (k.procs z).parent = some q) → z ∈ k.procList ∧
            (k.procs z).state = .zombie ∧ ∃ q ∈ p :: rest, (k.procs z).parent = some q := by
        rintro z ⟨listed, isZombie, q, mem, parent⟩
        exact ⟨listed, isZombie, q, List.mem_cons_of_mem _ mem, parent⟩
      have both : (∀ z, k.scanChildren k.procList.length (k.procs p).cptr ≠ .found z) →
          (∀ z, k.scanAny rest ≠ .found z) → ∀ q ∈ p :: rest, ∀ z ∈ k.procList,
            (k.procs z).parent = some q → (k.procs z).state ≠ .zombie := by
        intro noOwn noRest q mem
        rcases List.mem_cons.mp mem with rfl | inRest
        · exact none noOwn
        · exact noneRest noRest q inRest
      unfold scanAny
      split
      · rename_i z scan
        obtain ⟨listed, parent, isZombie⟩ := found z scan
        constructor
        · rintro z' eq
          cases eq
          exact ⟨listed, isZombie, p, List.mem_cons_self, parent⟩
        · exact fun missing => absurd rfl (missing z)
      · rename_i scan
        split
        · rename_i z scanRest
          constructor
          · rintro z' eq
            cases eq
            exact later z (foundRest z scanRest)
          · exact fun missing => absurd rfl (missing z)
        · rename_i other
          refine ⟨nofun, fun _ => both ?_ fun z scanRest => other z scanRest⟩
          rw [scan]
          nofun
      · rename_i scan
        refine ⟨fun z scanRest => later z (foundRest z scanRest), fun missing => both ?_ missing⟩
        rw [scan]
        nofun

theorem scanOne_spec {ring : List ProcPtr} :
    (∀ z', k.scanOne z ring = .found z' → z' = z ∧ (k.procs z).state = .zombie ∧
      ∃ q ∈ ring, (k.procs z).parent = some q) ∧
      (k.scanOne z ring = .haskid → (k.procs z).state ≠ .zombie) := by
  induction ring with
  | nil => exact ⟨nofun, nofun⟩
  | cons p rest ih =>
      unfold scanOne
      split
      · rename_i parent
        split
        · rename_i isZombie
          refine ⟨fun z' eq => ?_, nofun⟩
          cases eq
          exact ⟨rfl, isZombie, p, List.mem_cons_self, parent⟩
        · rename_i alive
          exact ⟨nofun, fun _ => alive⟩
      · refine ⟨fun z' found => ?_, ih.2⟩
        obtain ⟨eq, isZombie, q, mem, parent⟩ := ih.1 z' found
        exact ⟨eq, isZombie, q, List.mem_cons_of_mem _ mem, parent⟩

/-- `do_wait` finds only a zombie that it accepts. -/
theorem waitScan_found (table : Table k) (known : k.Known k.current)
    (found : k.waitScan pid = .found z) : k.Accepts k.current pid z := by
  unfold waitScan at found
  split at found
  · rename_i requested
    split at found
    · rename_i proc search
      obtain ⟨listed, pidEq⟩ := table.numbered.findProc_eq_some_iff.mp search
      obtain ⟨rfl, isZombie, child⟩ := scanOne_spec.1 z found
      exact ⟨listed, isZombie, child, fun _ => pidEq⟩
    · contradiction
  · rename_i any
    obtain ⟨listed, isZombie, child⟩ :=
      (scanAny_spec table fun q mem => threadRing_known table known mem).1 z found
    exact ⟨listed, isZombie, child, fun requested => absurd requested any⟩

/-- `do_wait` goes to sleep only if there is no zombie that it accepts. -/
theorem waitScan_haskid (table : Table k) (known : k.Known k.current)
    (scan : k.waitScan pid = .haskid) (z : ProcPtr) : ¬k.Accepts k.current pid z := by
  rintro ⟨listed, isZombie, ⟨q, mem, parent⟩, pidEq⟩
  unfold waitScan at scan
  split at scan
  · rename_i requested
    split at scan
    · rename_i proc search
      have own : proc = z := by
        obtain ⟨listedProc, pidProc⟩ := table.numbered.findProc_eq_some_iff.mp search
        exact table.numbered.pid_injective listedProc listed
          (pidProc.trans (pidEq requested).symm)
      subst proc
      exact scanOne_spec.2 scan isZombie
    · contradiction
  · have none := (scanAny_spec table fun q mem => threadRing_known table known mem).2
      (by rw [scan]; nofun)
    exact none q mem z listed parent isZombie

end Kernel

end EdfKernel
