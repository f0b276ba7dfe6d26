import EdfKernel.Library.RingBuffer
import Mathlib.Data.List.Induction

/-!
# The console input buffer

`cons_intr` and `cons_getc` of `console.c`.  The drivers of the serial port and of the keyboard
are known by the characters that they return before they return -1.
-/

namespace EdfKernel.Driver

open Library

/-- `CONSBUFSIZE`. -/
def consBufSize : Nat := 512

/-- `cons`. -/
abbrev Cons := RingBuffer UInt8

/-- The buffer that the kernel starts with. -/
def Cons.zero : Cons := ⟨fun _ => 0, 0, 0⟩

namespace Cons

/-- The body of the loop of `cons_intr`. -/
def store (cons : Cons) (c : UInt8) : Cons :=
  if c ≠ 0 then cons.push consBufSize c else cons

/-- `cons_intr`. -/
def consIntr (cons : Cons) (proc : List UInt8) : Cons :=
  proc.foldl store cons

/-- The part of `cons_getc` after the polls. -/
def grab (cons : Cons) : UInt8 × Cons :=
  match cons.pop consBufSize with
  | (some c, cons) => (c, cons)
  | (none, cons) => (0, cons)

/-- `cons_getc`, which polls the serial port and the keyboard first. -/
def consGetc (cons : Cons) (serial kbd : List UInt8) : UInt8 × Cons :=
  ((cons.consIntr serial).consIntr kbd).grab

/-- The characters that `count` reads in a row yield. -/
def drain : Nat → Cons → List UInt8
  | 0, _ => []
  | count + 1, cons =>
      match cons.grab with
      | (c, cons) => if c ≠ 0 then c :: drain count cons else drain count cons

end Cons

/-- A call of an interrupt routine with the characters that have come, or of `cons_getc` with
those that its polls find. -/
inductive Input
  | intr (proc : List UInt8)
  | getc (serial kbd : List UInt8)
  deriving DecidableEq, Repr

/-- The results of the calls of `cons_getc`, and the buffer in the end. -/
def calls : List Input → Cons → List UInt8 × Cons
  | [], cons => ([], cons)
  | .intr proc :: inputs, cons => calls inputs (cons.consIntr proc)
  | .getc serial kbd :: inputs, cons =>
      match cons.consGetc serial kbd with
      | (c, cons) =>
          match calls inputs cons with
          | (results, cons) => (c :: results, cons)

/-! ## Single characters -/

/-- What the calls consist of: the delivery of one character, and a read. -/
inductive Step
  | deliver (c : UInt8)
  | take
  deriving DecidableEq, Repr

/-- The steps of a call. -/
def Input.steps : Input → List Step
  | .intr proc => proc.map .deliver
  | .getc serial kbd => (serial ++ kbd).map .deliver ++ [.take]

/-- The buffer, the characters delivered and the characters read so far. -/
structure Record where
  cons : Cons
  delivered : List UInt8
  read : List UInt8

namespace Record

def step (t : Record) : Step → Record
  | .deliver c =>
      { t with
        cons := t.cons.store c
        delivered := if c ≠ 0 then t.delivered ++ [c] else t.delivered }
  | .take =>
      match t.cons.grab with
      | (c, cons) => { t with cons := cons, read := if c ≠ 0 then t.read ++ [c] else t.read }

/-- How many characters have been delivered and not been read. -/
def unread (t : Record) : Nat := t.delivered.length - t.read.length

end Record

/-- The record of a sequence of steps. -/
def record (steps : List Step) : Record :=
  steps.foldl Record.step ⟨.zero, [], []⟩

/-- How many characters would be left over if none were ever lost. -/
def backlog (steps : List Step) : Nat :=
  steps.foldl (fun count step =>
    match step with
    | .deliver c => if c ≠ 0 then count + 1 else count
    | .take => count - 1) 0

variable {steps : List Step} {q : List UInt8} {c : UInt8} {cons : Cons}

theorem record_snoc (steps : List Step) (step : Step) :
    record (steps ++ [step]) = (record steps).step step := by
  simp [record]

@[simp]
theorem backlog_deliver (steps : List Step) (c : UInt8) :
    backlog (steps ++ [.deliver c]) = if c ≠ 0 then backlog steps + 1 else backlog steps := by
  simp [backlog]

@[simp]
theorem backlog_take (steps : List Step) : backlog (steps ++ [.take]) = backlog steps - 1 := by
  simp [backlog]

/-! ## The queue in the buffer -/

/-- The buffer holds a queue of characters, which with those read before it are some of those
delivered, in their order. -/
structure Held (t : Record) (q : List UInt8) : Prop where
  holds : t.cons.Holds consBufSize q
  chars : ∀ c ∈ q, c ≠ 0
  ordered : (t.read ++ q).Sublist t.delivered

/-- A delivery appends to the queue, or empties it. -/
theorem Held.deliver {t : Record} (held : Held t q) (given : c ≠ 0) :
    Held (t.step (.deliver c)) (RingBuffer.lossyPush consBufSize q c) := by
  have stored : (t.step (.deliver c)).cons = t.cons.push consBufSize c := if_pos given
  have delivered : (t.step (.deliver c)).delivered = t.delivered ++ [c] := if_pos given
  have read : (t.step (.deliver c)).read = t.read := rfl
  constructor
  · rw [stored]
    exact held.holds.push c
  · intro d mem
    unfold RingBuffer.lossyPush at mem
    split at mem
    · cases mem
    · rcases List.mem_append.mp mem with old | new
      · exact held.chars d old
      · rwa [List.mem_singleton.mp new]
  · rw [delivered, read]
    unfold RingBuffer.lossyPush
    split
    · rw [List.append_nil]
      exact ((List.sublist_append_left ..).trans held.ordered).trans (List.sublist_append_left ..)
    · rw [← List.append_assoc]
      exact held.ordered.append (List.Sublist.refl _)

theorem grab_nil (holds : cons.Holds consBufSize []) : cons.grab = (0, cons) := by
  rw [Cons.grab, holds.pop_nil]

/-- A read takes the first character of the queue. -/
theorem grab_cons (holds : cons.Holds consBufSize (c :: q)) :
    ∃ cons', cons.grab = (c, cons') ∧ cons'.Holds consBufSize q := by
  rcases holds.pop_cons with ⟨cons', popped, holds'⟩
  exact ⟨cons', by rw [Cons.grab, popped], holds'⟩

/-- Reads in a row yield the queue. -/
theorem drain_eq (holds : cons.Holds consBufSize q) (chars : ∀ c ∈ q, c ≠ 0) (count : Nat) :
    cons.drain count = q.take count := by
  induction count generalizing cons q with
  | zero => simp [Cons.drain]
  | succ count ih =>
      cases q with
      | nil =>
          rw [Cons.drain, grab_nil holds]
          simp [ih holds chars]
      | cons c q =>
          rcases grab_cons holds with ⟨cons', grabbed, holds'⟩
          rw [Cons.drain, grabbed]
          have rest := ih holds' fun d mem => chars d (List.mem_cons_of_mem c mem)
          simp [chars c List.mem_cons_self, rest]

theorem Held.take_nil {t : Record} (held : Held t []) : t.step .take = t := by
  unfold Record.step
  rw [grab_nil held.holds]
  simp

theorem Held.take_cons {t : Record} (held : Held t (c :: q)) :
    Held (t.step .take) q ∧ (t.step .take).read = t.read ++ [c] ∧
      (t.step .take).delivered = t.delivered := by
  rcases grab_cons held.holds with ⟨cons', grabbed, holds'⟩
  have stepped : t.step .take = { t with cons := cons', read := t.read ++ [c] } := by
    unfold Record.step
    rw [grabbed]
    simp [held.chars c List.mem_cons_self]
  rw [stepped]
  refine ⟨⟨holds', fun d mem => held.chars d (List.mem_cons_of_mem c mem), ?_⟩, rfl, rfl⟩
  simpa using held.ordered

/-- After any steps, the buffer holds a queue. -/
theorem record_held (steps : List Step) : ∃ q, Held (record steps) q := by
  induction steps using List.reverseRecOn with
  | nil =>
      exact ⟨[], RingBuffer.holds_nil (by decide) rfl, by simp, .slnil⟩
  | append_singleton steps step ih =>
      rcases ih with ⟨q, held⟩
      rw [record_snoc]
      cases step with
      | deliver c =>
          by_cases given : c = 0
          · exact ⟨q, by simpa [Record.step, Cons.store, given] using held⟩
          · exact ⟨_, held.deliver given⟩
      | take =>
          cases q with
          | nil => exact ⟨[], by rwa [held.take_nil]⟩
          | cons c q => exact ⟨q, held.take_cons.1⟩

/-! ## Nothing is lost until the buffer is full -/

/-- Nothing has been lost: the queue is all that is left of the characters delivered. -/
structure Exact (steps : List Step) (q : List UInt8) : Prop where
  held : Held (record steps) q
  delivered : (record steps).delivered = (record steps).read ++ q
  backlog : backlog steps = q.length

/-- The character that fills the buffer empties it. -/
structure Full (steps : List Step) : Prop where
  held : Held (record steps) []
  unread : (record steps).unread = consBufSize
  backlog : backlog steps = consBufSize

theorem Exact.unread (exact : Exact steps q) : (record steps).unread = q.length := by
  simp [Record.unread, exact.delivered]

theorem Exact.deliver (exact : Exact steps q) (given : c ≠ 0) :
    Exact (steps ++ [.deliver c]) (q ++ [c]) ∨ Full (steps ++ [.deliver c]) := by
  have held := exact.held.deliver given
  have delivered : ((record steps).step (.deliver c)).delivered =
      (record steps).delivered ++ [c] := if_pos given
  have read : ((record steps).step (.deliver c)).read = (record steps).read := rfl
  have counted := exact.backlog
  unfold RingBuffer.lossyPush at held
  rw [← record_snoc] at held delivered read
  by_cases full : q.length + 1 = consBufSize
  · rw [if_pos full] at held
    refine .inr ⟨held, ?_, by simp [given, counted, full]⟩
    rw [Record.unread, delivered, read, exact.delivered]
    simp
    omega
  · rw [if_neg full] at held
    refine .inl ⟨held, ?_, by simp [given, counted]⟩
    rw [delivered, read, exact.delivered, List.append_assoc]

theorem Exact.take (exact : Exact steps q) : Exact (steps ++ [.take]) q.tail := by
  have counted := exact.backlog
  cases q with
  | nil =>
      have same := exact.held.take_nil
      rw [← record_snoc] at same
      exact ⟨by rw [same]; exact exact.held, by rw [same]; exact exact.delivered,
        by simp [counted]⟩
  | cons c q =>
      rcases exact.held.take_cons with ⟨held, read, delivered⟩
      rw [← record_snoc] at held read delivered
      refine ⟨held, ?_, by simp [counted]⟩
      rw [delivered, read, exact.delivered]
      simp

/-- Either nothing has been lost, or the buffer was full before. -/
theorem exact_or_full (steps : List Step) :
    (∃ q, Exact steps q) ∨ ∃ earlier, earlier <+: steps ∧ Full earlier := by
  induction steps using List.reverseRecOn with
  | nil =>
      exact .inl ⟨[], ⟨RingBuffer.holds_nil (by decide) rfl, by simp, .slnil⟩, rfl, rfl⟩
  | append_singleton steps step ih =>
      rcases ih with ⟨q, exact⟩ | ⟨earlier, before, full⟩
      · cases step with
        | deliver c =>
            by_cases given : c = 0
            · have same : record (steps ++ [.deliver c]) = record steps := by
                rw [record_snoc]
                simp [Record.step, Cons.store, given]
              exact .inl ⟨q, by rw [same]; exact exact.held, by rw [same]; exact exact.delivered,
                by simp [given, exact.backlog]⟩
            · rcases exact.deliver given with longer | full
              · exact .inl ⟨_, longer⟩
              · exact .inr ⟨_, List.prefix_refl _, full⟩
        | take => exact .inl ⟨_, exact.take⟩
      · exact .inr ⟨earlier, before.trans (List.prefix_append ..), full⟩

/-! ## Calls -/

theorem deliveries_cons (proc : List UInt8) (t : Record) :
    ((proc.map Step.deliver).foldl Record.step t).cons = t.cons.consIntr proc ∧
      ((proc.map Step.deliver).foldl Record.step t).read = t.read := by
  induction proc generalizing t with
  | nil => exact ⟨rfl, rfl⟩
  | cons c proc ih => exact ih (t.step (.deliver c))

/-- The calls are made of their steps. -/
theorem calls_steps (inputs : List Input) (t : Record) :
    ((inputs.flatMap Input.steps).foldl Record.step t).cons = (calls inputs t.cons).2 ∧
      ((inputs.flatMap Input.steps).foldl Record.step t).read =
        t.read ++ (calls inputs t.cons).1.filter (· ≠ 0) := by
  induction inputs generalizing t with
  | nil => simp [calls]
  | cons input inputs ih =>
      rw [List.flatMap_cons, List.foldl_append]
      cases input with
      | intr proc =>
          rcases deliveries_cons proc t with ⟨cons, read⟩
          rcases ih ((proc.map Step.deliver).foldl Record.step t) with ⟨same, results⟩
          rw [cons] at same results
          rw [read] at results
          exact ⟨same, results⟩
      | getc serial kbd =>
          rcases deliveries_cons (serial ++ kbd) t with ⟨cons, read⟩
          rw [Input.steps, List.foldl_append]
          generalize ((serial ++ kbd).map Step.deliver).foldl Record.step t = polled at cons read ⊢
          have both : (t.cons.consIntr serial).consIntr kbd = polled.cons := by
            rw [cons, Cons.consIntr, Cons.consIntr, Cons.consIntr, List.foldl_append]
          rw [List.foldl_cons, List.foldl_nil]
          rcases ih (polled.step .take) with ⟨same, results⟩
          rcases grabbed : polled.cons.grab with ⟨c, cons'⟩
          have stepped : polled.step .take =
              { polled with cons := cons', read := if c ≠ 0 then t.read ++ [c] else t.read } := by
            rw [Record.step, grabbed, read]
          rw [stepped] at same results ⊢
          rw [same, results, calls, Cons.consGetc, both, grabbed]
          refine ⟨rfl, ?_⟩
          by_cases none : c = 0
          · simp [none]
          · simp [none]

/-- The record of a run of calls: the buffer in the end, and the results other than 0. -/
theorem calls_record (inputs : List Input) :
    (calls inputs .zero).2 = (record (inputs.flatMap Input.steps)).cons ∧
      (calls inputs .zero).1.filter (· ≠ 0) = (record (inputs.flatMap Input.steps)).read := by
  rcases calls_steps inputs ⟨.zero, [], []⟩ with ⟨cons, read⟩
  exact ⟨cons.symm, read.symm⟩

/-! ## What the buffer promises -/

/-- The characters read are some of those delivered, in their order, and stay so; and none is lost
while fewer than `CONSBUFSIZE` are unread. -/
structure Orderly (steps : List Step) : Prop where
  ordered : ∀ count, ((record steps).read ++ (record steps).cons.drain count).Sublist
    (record steps).delivered
  lossless : (∀ earlier, earlier <+: steps → (record earlier).unread < consBufSize) →
    ∃ count, (record steps).delivered =
      (record steps).read ++ (record steps).cons.drain count

/-- Besides, the reads that follow yield the characters unread, up to one less than
`CONSBUFSIZE`. -/
structure Kept (steps : List Step) : Prop extends Orderly steps where
  yields : ∃ count,
    min (record steps).unread (consBufSize - 1) ≤ ((record steps).cons.drain count).length

theorem Held.ordered_drain (held : Held (record steps) q) (count : Nat) :
    ((record steps).read ++ (record steps).cons.drain count).Sublist (record steps).delivered := by
  rw [drain_eq held.holds held.chars]
  exact ((List.Sublist.refl _).append (List.take_sublist ..)).trans held.ordered

theorem Exact.drain (exact : Exact steps q) : (record steps).cons.drain q.length = q := by
  rw [drain_eq exact.held.holds exact.held.chars, List.take_length]

/-- The buffer is in order even where characters have been lost. -/
theorem orderly (steps : List Step) : Orderly steps := by
  constructor
  · rcases record_held steps with ⟨q, held⟩
    exact held.ordered_drain
  · intro room
    rcases exact_or_full steps with ⟨q, exact⟩ | ⟨earlier, before, full⟩
    · refine ⟨q.length, ?_⟩
      rw [exact.drain]
      exact exact.delivered
    · have fewer := room earlier before
      rw [full.unread] at fewer
      exact absurd fewer (Nat.lt_irrefl _)

theorem Exact.kept (exact : Exact steps q) : Kept steps := by
  refine ⟨orderly steps, q.length, ?_⟩
  rw [exact.drain, exact.unread]
  exact Nat.min_le_left ..

theorem Full.not_kept (full : Full steps) : ¬Kept steps := by
  rintro ⟨_, count, yields⟩
  rw [drain_eq full.held.holds full.held.chars, full.unread] at yields
  simp [consBufSize] at yields

/-- The calls of a run leave the buffer, and read the characters, that its single steps do.  Every
state of the run, between two characters, is in order, and it keeps all that is promised if and
only if there are never as many unread characters as the buffer has places. -/
theorem console_keeps_iff (inputs : List Input) :
    (calls inputs .zero).2 = (record (inputs.flatMap Input.steps)).cons ∧
    (calls inputs .zero).1.filter (· ≠ 0) = (record (inputs.flatMap Input.steps)).read ∧
    (∀ steps, steps <+: inputs.flatMap Input.steps → Orderly steps) ∧
    ((∀ steps, steps <+: inputs.flatMap Input.steps → Kept steps) ↔
      ∀ steps, steps <+: inputs.flatMap Input.steps → backlog steps < consBufSize) := by
  obtain ⟨buffer, characters⟩ := calls_record inputs
  refine ⟨buffer, characters, fun steps _ => orderly steps, ?_, ?_⟩
  · intro kept steps before
    rcases exact_or_full steps with ⟨q, exact⟩ | ⟨earlier, first, full⟩
    · rw [exact.backlog]
      exact exact.held.holds.short
    · exact absurd (kept earlier (first.trans before)) full.not_kept
  · intro short steps before
    rcases exact_or_full steps with ⟨q, exact⟩ | ⟨earlier, first, full⟩
    · exact exact.kept
    · have fewer := short earlier (first.trans before)
      rw [full.backlog] at fewer
      exact absurd fewer (Nat.lt_irrefl _)

/-- As many characters as the buffer has places, before the first read. -/
def burst : List Input := [.intr (List.replicate consBufSize 97)]

theorem backlog_deliveries (c : UInt8) (given : c ≠ 0) (count : Nat) :
    backlog ((List.replicate count c).map .deliver) = count := by
  induction count with
  | zero => rfl
  | succ count ih =>
      rw [List.replicate_succ', List.map_append, List.map_singleton, backlog_deliver, ih,
        if_pos given]

theorem backlog_burst : backlog (burst.flatMap Input.steps) = consBufSize := by
  have counted := backlog_deliveries 97 (by decide) consBufSize
  rw [burst, List.flatMap_singleton]
  exact counted

/-- After a burst that fills the buffer, all of it is lost. -/
theorem console_burst_lost :
    ¬∀ inputs steps, steps <+: List.flatMap Input.steps inputs → Kept steps := by
  intro kept
  rcases exact_or_full (burst.flatMap Input.steps) with ⟨q, exact⟩ | ⟨earlier, first, full⟩
  · have short := exact.held.holds.short
    rw [← exact.backlog, backlog_burst] at short
    exact Nat.lt_irrefl _ short
  · exact full.not_kept (kept burst earlier first)

end EdfKernel.Driver
