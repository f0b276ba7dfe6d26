import EdfKernel.Library.Run

/-!
# Walks over consecutive positions

A step is taken at each of a number of consecutive positions.  A loop that jumps over positions
at which its step does nothing is such a walk.  What holds of no step and is carried back over a
first step holds of the walk.  A loop of which the position always gets nearer to its bound comes
to its end.
-/

namespace EdfKernel.Library

universe u v

variable {σ : Type u} {ε : Type v}

/-- The step is taken at `n` positions, the first one of which is `a`. -/
def walk (step : Nat → σ → Except ε σ) : Nat → Nat → σ → Except ε σ
  | _, 0, s => .ok s
  | a, n + 1, s => do
      let s ← step a s
      walk step (a + 1) n s

namespace Walk

variable {step : Nat → σ → Except ε σ} {a n k : Nat} {s s' : σ}

/-- Positions at which the step does nothing are jumped over. -/
theorem skip (idle : ∀ i, a ≤ i → i < a + k → step i s = .ok s) :
    walk step a (k + n) s = walk step (a + k) n s := by
  induction k generalizing a with
  | zero => rw [Nat.zero_add, Nat.add_zero]
  | succ k ih =>
      have here := idle a (Nat.le_refl a) (by omega)
      have later := @ih (a + 1) fun i low high => idle i (by omega) (by omega)
      rw [Nat.add_right_comm, walk, here, ok_bind, later, Nat.add_assoc, Nat.add_comm 1]

theorem idle (idle : ∀ i, a ≤ i → i < a + n → step i s = .ok s) : walk step a n s = .ok s :=
  skip (n := 0) idle

/-- A loop that takes the step and goes on at a later position, up to a bound, is a walk, if the
step does nothing at the positions between.  It comes to its end. -/
theorem of_jumps (loop : Nat → Nat → σ → Except ε σ) (next : Nat → σ → Nat) {stop : Nat}
    (round : ∀ fuel a s, a < stop → loop (fuel + 1) a s = step a s >>= fun s' =>
      if next a s < stop then loop fuel (next a s) s' else .ok s')
    (ahead : ∀ a s, a < stop → a < next a s)
    (idle : ∀ a s s', a < stop → step a s = .ok s' →
      ∀ i, a < i → i < next a s → i < stop → step i s' = .ok s')
    {fuel : Nat} (start : a < stop) (enough : stop ≤ a + fuel) :
    loop fuel a s = walk step a (stop - a) s := by
  induction fuel generalizing a s with
  | zero => omega
  | succ fuel ih =>
      have forward := ahead a s start
      have whole : stop - a = stop - (a + 1) + 1 := by omega
      rw [round fuel a s start, whole, walk]
      cases taken : step a s with
      | error reason => rfl
      | ok s' =>
          have between := idle a s s' start taken
          rw [ok_bind, ok_bind]
          by_cases more : next a s < stop
          · have rest : stop - (a + 1) = next a s - (a + 1) + (stop - next a s) := by omega
            have place : a + 1 + (next a s - (a + 1)) = next a s := by omega
            rw [if_pos more, ih more (by omega), rest,
              skip fun i low high => between i low (by omega) (by omega), place]
          · rw [if_neg more, Walk.idle fun i low high => between i low (by omega) (by omega)]

/-- What holds of no step, and of a walk if it holds behind its first step, holds of every
walk. -/
theorem relates {R : Nat → Nat → σ → σ → Prop} (none : ∀ a s, R a 0 s s)
    (first : ∀ a n s s₁ s', step a s = .ok s₁ → R (a + 1) n s₁ s' → R a (n + 1) s s')
    (done : walk step a n s = .ok s') : R a n s s' := by
  induction n generalizing a s with
  | zero =>
      cases done
      exact none a _
  | succ n ih =>
      rcases bind_eq_ok_iff.mp done with ⟨s₁, taken, rest⟩
      exact first a n s s₁ s' taken (ih rest)

/-- A walk does not stop if a condition on what is ahead lets each step be taken. -/
theorem succeeds {I : Nat → Nat → σ → Prop}
    (first : ∀ a n s, I a (n + 1) s → ∃ s', step a s = .ok s' ∧ I (a + 1) n s')
    (start : I a n s) : ∃ s', walk step a n s = .ok s' := by
  induction n generalizing a s with
  | zero => exact ⟨_, rfl⟩
  | succ n ih =>
      rcases first _ n _ start with ⟨s₁, taken, ahead⟩
      rcases ih ahead with ⟨s', rest⟩
      exact ⟨s', by rw [walk, taken, ok_bind, rest]⟩

end Walk

/-- A `do`-`while` loop comes to a result: a step is taken, and the loop goes on at the next
position while its condition holds there. -/
inductive DoWhile (step : Nat → σ → Except ε σ) (next : Nat → σ → Nat) (goes : Nat → σ → Prop) :
    Nat → σ → Except ε σ → Prop
  | fails {a : Nat} {s : σ} {reason : ε} (stopped : step a s = .error reason) :
      DoWhile step next goes a s (.error reason)
  | ends {a : Nat} {s s' : σ} (taken : step a s = .ok s') (last : ¬goes (next a s) s') :
      DoWhile step next goes a s (.ok s')
  | again {a : Nat} {s s' : σ} {result : Except ε σ} (taken : step a s = .ok s')
      (more : goes (next a s) s') (rest : DoWhile step next goes (next a s) s' result) :
      DoWhile step next goes a s result

/-- A loop that is given enough rounds comes to its end in them. -/
theorem DoWhile.of_rounds {step : Nat → σ → Except ε σ} {next : Nat → σ → Nat}
    {goes : Nat → σ → Prop} [∀ a s, Decidable (goes a s)] (loop : Nat → Nat → σ → Except ε σ)
    (inside : Nat → Prop) (rank : Nat → Nat)
    (round : ∀ fuel a s, loop (fuel + 1) a s = step a s >>= fun s' =>
      if goes (next a s) s' then loop fuel (next a s) s' else .ok s')
    (nearer : ∀ a s s', inside a → goes (next a s) s' →
      inside (next a s) ∧ rank (next a s) < rank a)
    {fuel a : Nat} {s : σ} (start : inside a) (enough : rank a < fuel) :
    DoWhile step next goes a s (loop fuel a s) := by
  induction fuel generalizing a s with
  | zero => exact absurd enough (Nat.not_lt_zero _)
  | succ fuel ih =>
      rw [round]
      cases taken : step a s with
      | error reason => exact .fails taken
      | ok s' =>
          rw [ok_bind]
          split
          case isTrue more =>
            obtain ⟨inside', less⟩ := nearer a s s' start more
            exact .again taken more (ih inside' (by omega))
          case isFalse last => exact .ends taken last

end EdfKernel.Library
