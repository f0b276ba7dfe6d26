import Mathlib.Algebra.BigOperators.Group.Finset.Basic
import Mathlib.Algebra.BigOperators.Ring.Finset
import Mathlib.Algebra.Order.BigOperators.Group.Finset
import Mathlib.Algebra.Order.Field.Rat
import Mathlib.Algebra.Order.Floor.Ring
import Mathlib.Tactic.Linarith
import Mathlib.Tactic.Ring
import Mathlib.Tactic.FieldSimp
import Mathlib.Tactic.Positivity

/-!
# Demand bounds for deadline scheduling

A periodic task has a cost `c` per period `p`; its progress is the number `ct`
of units already served to the current job and the time `pt` left to that job's
deadline.  The next job is released as soon as the current one is complete.

`demand d` is the work that has to be served within the next `d` ticks for no
deadline up to then to be missed.  The bound `demand d < U * d + 1`, with `U`
the utilisation, is what an earliest-deadline scheduler keeps, also when a task
that has just joined is served one tick late.
-/

namespace EdfKernel.Library.DemandBound

universe u

variable {ι : Type u}

/-- The static parameters and the progress of a family of tasks. -/
structure Tasks (ι : Type u) where
  cost : ι → ℤ
  period : ι → ℤ
  ct : ι → ℤ
  pt : ι → ℤ

namespace Tasks

variable (tasks : Tasks ι)

/-- One task is well formed: its job is unfinished and its deadline ahead. -/
structure Live (i : ι) : Prop where
  cost_pos : 1 ≤ tasks.cost i
  cost_le : tasks.cost i ≤ tasks.period i
  ct_nonneg : 0 ≤ tasks.ct i
  ct_lt : tasks.ct i < tasks.cost i
  pt_pos : 1 ≤ tasks.pt i

/-- The task has not been served, and its deadline not moved, since it joined. -/
def Fresh (i : ι) : Prop :=
  tasks.ct i = 0 ∧ tasks.pt i = tasks.period i

/-- The share of the processor one task asks for. -/
def share (i : ι) : ℚ :=
  tasks.cost i / tasks.period i

/-- The utilisation of a set of tasks. -/
def utilisation (s : Finset ι) : ℚ :=
  ∑ i ∈ s, tasks.share i

/-- Work one task must receive within `d` ticks: the rest of its current job and
every later job whose deadline is no later. -/
def work (d : ℤ) (i : ι) : ℤ :=
  if tasks.pt i ≤ d then
    tasks.cost i - tasks.ct i + (d - tasks.pt i) / tasks.period i * tasks.cost i
  else 0

/-- Work a set of tasks must receive within `d` ticks. -/
def demand (s : Finset ι) (d : ℤ) : ℤ :=
  ∑ i ∈ s, tasks.work d i

/-- The demand of every horizon is below the share of it plus one tick. -/
def Bounded (s : Finset ι) : Prop :=
  ∀ d : ℤ, 0 ≤ d → (tasks.demand s d : ℚ) < tasks.utilisation s * d + 1

variable {tasks}

theorem Live.period_pos {i : ι} (live : tasks.Live i) : 0 < tasks.period i := by
  have := live.cost_pos
  have := live.cost_le
  omega

theorem Live.share_pos {i : ι} (live : tasks.Live i) : 0 < tasks.share i := by
  have cost : (0 : ℚ) < tasks.cost i := by exact_mod_cast live.cost_pos
  have period : (0 : ℚ) < tasks.period i := by exact_mod_cast live.period_pos
  exact div_pos cost period

theorem work_of_lt {d : ℤ} {i : ι} (early : d < tasks.pt i) : tasks.work d i = 0 :=
  if_neg (not_le.mpr early)

theorem Live.work_nonneg {i : ι} (live : tasks.Live i) (d : ℤ) : 0 ≤ tasks.work d i := by
  unfold work
  split
  · rename_i reached
    have rest : 0 ≤ tasks.cost i - tasks.ct i := by
      have := live.ct_lt
      omega
    have later : 0 ≤ (d - tasks.pt i) / tasks.period i * tasks.cost i := by
      refine mul_nonneg (Int.ediv_nonneg (by omega) live.period_pos.le) ?_
      have := live.cost_pos
      omega
    omega
  · exact le_rfl

/-- A task whose deadline is within the horizon asks at least for the rest of
its current job. -/
theorem Live.rest_le_work {i : ι} (live : tasks.Live i) {d : ℤ} (reached : tasks.pt i ≤ d) :
    tasks.cost i - tasks.ct i ≤ tasks.work d i := by
  have later : 0 ≤ (d - tasks.pt i) / tasks.period i * tasks.cost i := by
    refine mul_nonneg (Int.ediv_nonneg (by omega) live.period_pos.le) ?_
    have := live.cost_pos
    omega
  unfold work
  rw [if_pos reached]
  omega

/-- A task that has just joined asks for whole jobs only. -/
theorem Fresh.work_eq {i : ι} (fresh : tasks.Fresh i) (live : tasks.Live i) {d : ℤ}
    (nonneg : 0 ≤ d) : tasks.work d i = d / tasks.period i * tasks.cost i := by
  obtain ⟨ctZero, ptPeriod⟩ := fresh
  have periodPos := live.period_pos
  unfold work
  rw [ctZero, ptPeriod]
  by_cases reached : tasks.period i ≤ d
  · have split : d / tasks.period i = (d - tasks.period i) / tasks.period i + 1 := by
      rw [← Int.add_mul_ediv_right _ 1 periodPos.ne']
      congr 1
      ring
    rw [if_pos reached, split]
    ring
  · rw [if_neg reached, Int.ediv_eq_zero_of_lt nonneg (not_le.mp reached), zero_mul]

/-- The demand of a task that has just joined is within its share. -/
theorem Fresh.work_le {i : ι} (fresh : tasks.Fresh i) (live : tasks.Live i) {d : ℤ}
    (nonneg : 0 ≤ d) : (tasks.work d i : ℚ) ≤ tasks.share i * d := by
  have periodPos : (0 : ℚ) < tasks.period i := by exact_mod_cast live.period_pos
  have costNonneg : (0 : ℚ) ≤ tasks.cost i := by
    have := live.cost_pos
    exact_mod_cast (by omega : 0 ≤ tasks.cost i)
  have whole : ((d / tasks.period i : ℤ) : ℚ) * tasks.period i ≤ d := by
    exact_mod_cast Int.ediv_mul_le d live.period_pos.ne'
  have jobs : ((d / tasks.period i : ℤ) : ℚ) ≤ d / tasks.period i := by
    rw [le_div_iff₀ periodPos]
    exact whole
  rw [fresh.work_eq live nonneg, share]
  push_cast
  calc
    ((d / tasks.period i : ℤ) : ℚ) * tasks.cost i ≤ d / tasks.period i * tasks.cost i :=
      mul_le_mul_of_nonneg_right jobs costNonneg
    _ = tasks.cost i / tasks.period i * d := by ring

theorem utilisation_congr {other : Tasks ι} {s : Finset ι}
    (cost : ∀ i ∈ s, other.cost i = tasks.cost i)
    (period : ∀ i ∈ s, other.period i = tasks.period i) :
    other.utilisation s = tasks.utilisation s :=
  Finset.sum_congr rfl fun i mem => by rw [share, share, cost i mem, period i mem]

/-- The bound of a set only depends on the tasks in it. -/
theorem Bounded.congr {other : Tasks ι} {s : Finset ι} (bounded : tasks.Bounded s)
    (cost : ∀ i ∈ s, other.cost i = tasks.cost i)
    (period : ∀ i ∈ s, other.period i = tasks.period i)
    (ct : ∀ i ∈ s, other.ct i = tasks.ct i) (pt : ∀ i ∈ s, other.pt i = tasks.pt i) :
    other.Bounded s := by
  intro d nonneg
  have demand : other.demand s d = tasks.demand s d :=
    Finset.sum_congr rfl fun i mem => by
      rw [work, work, cost i mem, period i mem, ct i mem, pt i mem]
  rw [demand, utilisation_congr cost period]
  exact bounded d nonneg

/-- A set of tasks that have all just joined is within the bound. -/
theorem bounded_of_fresh {s : Finset ι} (live : ∀ i ∈ s, tasks.Live i)
    (fresh : ∀ i ∈ s, tasks.Fresh i) : tasks.Bounded s := by
  intro d nonneg
  have each : ∀ i ∈ s, (tasks.work d i : ℚ) ≤ tasks.share i * d :=
    fun i mem => (fresh i mem).work_le (live i mem) nonneg
  have total := Finset.sum_le_sum each
  rw [← Finset.sum_mul] at total
  unfold demand utilisation
  push_cast
  linarith

/-- A task that joins adds its share to both sides of the bound. -/
theorem Bounded.insert [DecidableEq ι] {s : Finset ι} {new : ι} (bounded : tasks.Bounded s)
    (notMem : new ∉ s) (live : tasks.Live new) (fresh : tasks.Fresh new) :
    tasks.Bounded (insert new s) := by
  intro d nonneg
  have old := bounded d nonneg
  have added := fresh.work_le live nonneg
  unfold demand utilisation at old ⊢
  rw [Finset.sum_insert notMem, Finset.sum_insert notMem]
  push_cast at old ⊢
  linarith

/-- The tasks in a set after one tick that serves `cur`: every deadline is one
tick nearer, and a job that has received its cost makes room for the next. -/
structure Served (before after : Tasks ι) (s : Finset ι) (cur : ι) : Prop where
  cost_eq : ∀ i ∈ s, after.cost i = before.cost i
  period_eq : ∀ i ∈ s, after.period i = before.period i
  waiting_ct : ∀ i ∈ s, i ≠ cur → after.ct i = before.ct i
  waiting_pt : ∀ i ∈ s, i ≠ cur → after.pt i = before.pt i - 1
  served_ct : after.ct cur =
    if before.ct cur + 1 = before.cost cur then 0 else before.ct cur + 1
  served_pt : after.pt cur =
    if before.ct cur + 1 = before.cost cur then before.pt cur - 1 + before.period cur
    else before.pt cur - 1

section Serving

variable {before after : Tasks ι} {s : Finset ι} {cur : ι}

theorem Served.utilisation_eq (served : Served before after s cur) :
    after.utilisation s = before.utilisation s :=
  utilisation_congr served.cost_eq served.period_eq

/-- A task that waits asks for the same work one tick later. -/
theorem Served.work_waiting (served : Served before after s cur) {i : ι} (mem : i ∈ s)
    (ne : i ≠ cur) (d : ℤ) : after.work d i = before.work (d + 1) i := by
  unfold work
  rw [served.cost_eq i mem, served.period_eq i mem, served.waiting_ct i mem ne,
    served.waiting_pt i mem ne]
  have gap : d - (before.pt i - 1) = d + 1 - before.pt i := by ring
  have reach : before.pt i - 1 ≤ d ↔ before.pt i ≤ d + 1 := by omega
  simp only [gap, reach]

/-- The task that is served asks for one unit less, if its deadline was within
the horizon. -/
theorem Served.work_served (served : Served before after s cur) (mem : cur ∈ s)
    (live : before.Live cur) (d : ℤ) :
    after.work d cur = before.work (d + 1) cur - if before.pt cur ≤ d + 1 then 1 else 0 := by
  have periodPos := live.period_pos
  unfold work
  rw [served.cost_eq cur mem, served.period_eq cur mem, served.served_ct, served.served_pt]
  by_cases complete : before.ct cur + 1 = before.cost cur
  · simp only [if_pos complete]
    by_cases reached : before.pt cur ≤ d + 1
    · rw [if_pos reached, if_pos reached]
      by_cases again : before.pt cur - 1 + before.period cur ≤ d
      · have split : (d + 1 - before.pt cur) / before.period cur =
            (d - (before.pt cur - 1 + before.period cur)) / before.period cur + 1 := by
          rw [← Int.add_mul_ediv_right _ 1 periodPos.ne']
          congr 1
          ring
        rw [if_pos again, split]
        have unit : before.cost cur - before.ct cur = 1 := by omega
        rw [unit]
        ring
      · rw [if_neg again,
          Int.ediv_eq_zero_of_lt (by omega) (by omega : d + 1 - before.pt cur < before.period cur)]
        omega
    · have notAgain : ¬ before.pt cur - 1 + before.period cur ≤ d := by omega
      rw [if_neg reached, if_neg reached, if_neg notAgain]
      rfl
  · simp only [if_neg complete]
    have gap : d - (before.pt cur - 1) = d + 1 - before.pt cur := by ring
    have reach : before.pt cur - 1 ≤ d ↔ before.pt cur ≤ d + 1 := by omega
    simp only [gap, reach]
    split <;> ring

variable [DecidableEq ι]

theorem Served.demand_eq (served : Served before after s cur) (mem : cur ∈ s)
    (live : before.Live cur) (d : ℤ) :
    after.demand s d = before.demand s (d + 1) - if before.pt cur ≤ d + 1 then 1 else 0 := by
  unfold demand
  rw [← Finset.add_sum_erase s _ mem, ← Finset.add_sum_erase s (before.work (d + 1)) mem,
    served.work_served mem live]
  have rest : ∑ i ∈ s.erase cur, after.work d i = ∑ i ∈ s.erase cur, before.work (d + 1) i :=
    Finset.sum_congr rfl fun i memErase =>
      served.work_waiting (Finset.mem_of_mem_erase memErase) (Finset.ne_of_mem_erase memErase) d
  rw [rest]
  ring

/-- Only tasks that have just joined can be due before the task that is served;
together they ask for less than the whole share. -/
theorem demand_lt_of_late (mem : cur ∈ s) (live : ∀ i ∈ s, before.Live i)
    (order : ∀ i ∈ s, i ≠ cur → before.pt cur ≤ before.pt i ∨ before.Fresh i)
    {d : ℤ} (positive : 0 < d) (late : d < before.pt cur) :
    (before.demand s d : ℚ) < before.utilisation s * d := by
  have horizon : (0 : ℚ) < d := by exact_mod_cast positive
  have each : ∀ i ∈ s.erase cur, (before.work d i : ℚ) ≤ before.share i * d := by
    intro i memErase
    obtain ⟨ne, memS⟩ := Finset.mem_erase.mp memErase
    rcases order i memS ne with notEarlier | fresh
    · rw [work_of_lt (late.trans_le notEarlier)]
      have := (live i memS).share_pos
      push_cast
      positivity
    · exact fresh.work_le (live i memS) positive.le
  have total := Finset.sum_le_sum each
  have own := mul_pos (live cur mem).share_pos horizon
  unfold demand utilisation
  rw [← Finset.add_sum_erase s _ mem, ← Finset.add_sum_erase s before.share mem, work_of_lt late]
  rw [← Finset.sum_mul] at total
  push_cast at total ⊢
  linarith

/-- One tick keeps the bound when the task that is served is due no later than
any task except those that have just joined. -/
theorem Bounded.served (bounded : before.Bounded s) (served : Served before after s cur)
    (mem : cur ∈ s) (live : ∀ i ∈ s, before.Live i)
    (order : ∀ i ∈ s, i ≠ cur → before.pt cur ≤ before.pt i ∨ before.Fresh i)
    (full : before.utilisation s ≤ 1) : after.Bounded s := by
  intro d nonneg
  rw [served.utilisation_eq, served.demand_eq mem (live cur mem) d]
  by_cases reached : before.pt cur ≤ d + 1
  · have old := bounded (d + 1) (by omega)
    rw [if_pos reached]
    push_cast at old ⊢
    linarith
  · have old := demand_lt_of_late mem live order (by omega : 0 < d + 1) (not_le.mp reached)
    rw [if_neg reached]
    push_cast at old ⊢
    linarith

omit [DecidableEq ι] in
/-- Within the bound at most one unit is due at the next tick. -/
theorem Bounded.demand_one_le (bounded : before.Bounded s) (full : before.utilisation s ≤ 1) :
    before.demand s 1 ≤ 1 := by
  have next := bounded 1 (by omega)
  have below : (before.demand s 1 : ℚ) < 2 := by
    push_cast at next
    linarith
  have : before.demand s 1 < 2 := by exact_mod_cast below
  omega

omit [DecidableEq ι] in
/-- The task that is served does not miss its deadline. -/
theorem Bounded.served_meets (bounded : before.Bounded s) (mem : cur ∈ s)
    (live : ∀ i ∈ s, before.Live i) (full : before.utilisation s ≤ 1)
    (due : before.pt cur = 1) : before.ct cur + 1 = before.cost cur := by
  have total := bounded.demand_one_le full
  have own := (live cur mem).rest_le_work (d := 1) (by omega)
  have part : before.work 1 cur ≤ before.demand s 1 :=
    Finset.single_le_sum (fun i memS => (live i memS).work_nonneg 1) mem
  have := (live cur mem).ct_lt
  omega

/-- No task that waits is due at the next tick. -/
theorem Bounded.waiting_meets (bounded : before.Bounded s) (mem : cur ∈ s)
    (live : ∀ i ∈ s, before.Live i)
    (order : ∀ i ∈ s, i ≠ cur → before.pt cur ≤ before.pt i ∨ before.Fresh i)
    (full : before.utilisation s ≤ 1) {i : ι} (memI : i ∈ s) (ne : i ≠ cur) :
    2 ≤ before.pt i := by
  by_contra notLater
  have due : before.pt i = 1 := by
    have := (live i memI).pt_pos
    omega
  by_cases curDue : before.pt cur ≤ 1
  · have total := bounded.demand_one_le full
    have own := (live cur mem).rest_le_work curDue
    have other := (live i memI).rest_le_work due.le
    have pair : before.work 1 cur + before.work 1 i ≤ before.demand s 1 := by
      unfold demand
      rw [← Finset.add_sum_erase s _ mem]
      have single := Finset.single_le_sum
        (fun j memJ => (live j (Finset.mem_of_mem_erase memJ)).work_nonneg 1)
        (Finset.mem_erase.mpr ⟨ne, memI⟩)
      omega
    have := (live cur mem).ct_lt
    have := (live i memI).ct_lt
    omega
  · have below := demand_lt_of_late mem live order one_pos (not_le.mp curDue)
    have other := (live i memI).rest_le_work due.le
    have part : before.work 1 i ≤ before.demand s 1 :=
      Finset.single_le_sum (fun j memJ => (live j memJ).work_nonneg 1) memI
    have small : (before.demand s 1 : ℚ) < 1 := by
      push_cast at below
      linarith
    have : before.demand s 1 < 1 := by exact_mod_cast small
    have := (live i memI).ct_lt
    omega

end Serving

/-! ## Overload -/

/-- The units served to one task since `elapsed` ticks ago, when it joined, if
`jobs` of its jobs are complete. -/
def Progress (tasks : Tasks ι) (elapsed : ℤ) (jobs : ι → ℤ) (i : ι) : Prop :=
  tasks.pt i + elapsed = (jobs i + 1) * tasks.period i

/-- The units served to a set of tasks. -/
def servedUnits (tasks : Tasks ι) (s : Finset ι) (jobs : ι → ℤ) : ℤ :=
  ∑ i ∈ s, (jobs i * tasks.cost i + tasks.ct i)

/-- Every tick of service is counted, to the current job or by completing it. -/
theorem Served.progress [DecidableEq ι] {before after : Tasks ι} {s : Finset ι} {cur : ι}
    (served : Served before after s cur) (mem : cur ∈ s) {elapsed : ℤ} {jobs : ι → ℤ}
    (progress : ∀ i ∈ s, Progress before elapsed jobs i) :
    ∃ jobs', (∀ i ∈ s, Progress after (elapsed + 1) jobs' i) ∧
      servedUnits after s jobs' = servedUnits before s jobs + 1 := by
  let jobs' := if before.ct cur + 1 = before.cost cur then
    Function.update jobs cur (jobs cur + 1) else jobs
  have other : ∀ i, i ≠ cur → jobs' i = jobs i := by
    intro i ne
    by_cases complete : before.ct cur + 1 = before.cost cur
    · simp [jobs', complete, ne]
    · simp [jobs', complete]
  refine ⟨jobs', fun i memI => ?_, ?_⟩
  · have deadline := progress i memI
    unfold Progress at deadline ⊢
    rw [served.period_eq i memI]
    by_cases own : i = cur
    · subst i
      rw [served.served_pt]
      by_cases complete : before.ct cur + 1 = before.cost cur
      · simp only [jobs', if_pos complete, Function.update_self]
        linarith
      · simp only [jobs', if_neg complete]
        linarith
    · rw [served.waiting_pt i memI own, other i own]
      linarith
  · have rest : ∑ i ∈ s.erase cur, (jobs' i * after.cost i + after.ct i) =
        ∑ i ∈ s.erase cur, (jobs i * before.cost i + before.ct i) := by
      apply Finset.sum_congr rfl
      intro i memErase
      obtain ⟨ne, memI⟩ := Finset.mem_erase.mp memErase
      rw [other i ne, served.cost_eq i memI, served.waiting_ct i memI ne]
    have own : jobs' cur * after.cost cur + after.ct cur =
        jobs cur * before.cost cur + before.ct cur + 1 := by
      rw [served.cost_eq cur mem, served.served_ct]
      by_cases complete : before.ct cur + 1 = before.cost cur
      · simp only [jobs', if_pos complete, Function.update_self]
        linarith
      · simp only [jobs', if_neg complete]
        ring
    unfold servedUnits
    rw [← Finset.add_sum_erase s _ mem,
      ← Finset.add_sum_erase s (fun i => jobs i * before.cost i + before.ct i) mem, rest, own]
    ring

/-- A set of tasks that asks for more than the whole share cannot have all its
deadlines ahead after a common multiple of its periods. -/
theorem overload {s : Finset ι} {horizon : ℤ} {jobs : ι → ℤ} (live : ∀ i ∈ s, tasks.Live i)
    (multiple : ∀ i ∈ s, tasks.period i ∣ horizon) (positive : 0 < horizon)
    (progress : ∀ i ∈ s, Progress tasks horizon jobs i)
    (units : servedUnits tasks s jobs = horizon) : tasks.utilisation s ≤ 1 := by
  have each : ∀ i ∈ s, tasks.share i * horizon ≤
      ((jobs i * tasks.cost i + tasks.ct i : ℤ) : ℚ) := by
    intro i mem
    obtain ⟨quotient, horizonEq⟩ := multiple i mem
    have periodPos := (live i mem).period_pos
    have ahead : quotient ≤ jobs i := by
      have deadline := progress i mem
      have ptPos := (live i mem).pt_pos
      unfold Progress at deadline
      by_contra behind
      have less : jobs i + 1 ≤ quotient := by omega
      have := mul_le_mul_of_nonneg_right less periodPos.le
      have : quotient * tasks.period i = horizon := by rw [horizonEq]; ring
      omega
    have periodQ : (0 : ℚ) < tasks.period i := by exact_mod_cast periodPos
    have shareEq : tasks.share i * horizon = quotient * tasks.cost i := by
      rw [share, horizonEq]
      push_cast
      field_simp
    have costNonneg : 0 ≤ tasks.cost i := by
      have := (live i mem).cost_pos
      omega
    have jobsLe := mul_le_mul_of_nonneg_right ahead costNonneg
    have := (live i mem).ct_nonneg
    rw [shareEq]
    exact_mod_cast (by omega : quotient * tasks.cost i ≤ jobs i * tasks.cost i + tasks.ct i)
  have total := Finset.sum_le_sum each
  rw [← Finset.sum_mul] at total
  have horizonPos : (0 : ℚ) < horizon := by exact_mod_cast positive
  have unitsQ : ∑ i ∈ s, ((jobs i * tasks.cost i + tasks.ct i : ℤ) : ℚ) = horizon := by
    exact_mod_cast units
  rw [unitsQ] at total
  have := le_of_mul_le_mul_right (total.trans_eq (one_mul _).symm) horizonPos
  exact this

end Tasks

end EdfKernel.Library.DemandBound
