import Mathlib.Logic.Function.Basic

/-!
# Holdings

Things are taken from a stock and held at places.  `base` tells which things were in stock at
the beginning and `free` which are now; `held` tells what a place holds.  Nothing is held at two
places, and where everything that is missing from the stock is held somewhere, emptying all
places brings back the stock of the beginning.
-/

namespace EdfKernel.Library

universe u v

variable {P : Type u} {F : Type v} {base free : F → Bool}
  {held held' : P → Option F} {a b : P} {f : F}

/-- What the places hold has been taken from the stock, each thing by one place. -/
structure Holdings (base free : F → Bool) (held : P → Option F) : Prop where
  taken : ∀ a f, held a = some f → base f = true ∧ free f = false
  single : ∀ a b f, held a = some f → held b = some f → a = b
  kept : ∀ f, base f = false → free f = false

namespace Holdings

/-- Everything that has been taken from the stock is at some place. -/
def Complete (base free : F → Bool) (held : P → Option F) : Prop :=
  ∀ f, base f = true → free f = false → ∃ a, held a = some f

/-- At the beginning nothing is held. -/
theorem start (base : F → Bool) : Holdings base base fun _ : P => none where
  taken := by rintro a f ⟨⟩
  single := by rintro a b f ⟨⟩
  kept _ := id

theorem complete_start (base : F → Bool) : Complete base base fun _ : P => none := by
  intro f isBase notFree
  rw [isBase] at notFree
  cases notFree

/-- Places may forget what they hold. -/
theorem forget (holdings : Holdings base free held)
    (less : ∀ a f, held' a = some f → held a = some f) : Holdings base free held' where
  taken a f here := holdings.taken a f (less a f here)
  single a b f here there := holdings.single a b f (less a f here) (less b f there)
  kept := holdings.kept

/-- When nothing is held any more, the stock is that of the beginning. -/
theorem returned (holdings : Holdings base free held) (complete : Complete base free held)
    (empty : ∀ a, held a = none) : free = base := by
  funext f
  cases isBase : base f with
  | false => exact holdings.kept f isBase
  | true =>
      by_contra notFree
      obtain ⟨a, here⟩ := complete f isBase (Bool.eq_false_iff.mpr notFree)
      rw [empty a] at here
      cases here

variable [DecidableEq P]

/-- A thing goes from one place to another. -/
theorem move (holdings : Holdings base free held) (here : held a = some f) :
    Holdings base free (Function.update (Function.update held a none) b (some f)) := by
  have place : ∀ c g, Function.update (Function.update held a none) b (some f) c = some g →
      (c = b ∧ g = f) ∨ (c ≠ b ∧ c ≠ a ∧ held c = some g) := by
    intro c g there
    by_cases new : c = b
    · rw [new, Function.update_self] at there
      exact .inl ⟨new, (Option.some.inj there).symm⟩
    · rw [Function.update_of_ne new] at there
      by_cases old : c = a
      · rw [old, Function.update_self] at there
        cases there
      · rw [Function.update_of_ne old] at there
        exact .inr ⟨new, old, there⟩
  constructor
  · intro c g there
    rcases place c g there with ⟨_, rfl⟩ | ⟨_, _, before⟩
    · exact holdings.taken a g here
    · exact holdings.taken c g before
  · intro c d g there there'
    rcases place c g there with ⟨rfl, rfl⟩ | ⟨_, other, before⟩
    · rcases place d g there' with ⟨rfl, _⟩ | ⟨_, other, before'⟩
      · rfl
      · exact absurd (holdings.single d a g before' here) other
    · rcases place d g there' with ⟨_, rfl⟩ | ⟨_, _, before'⟩
      · exact absurd (holdings.single c a g before here) other
      · exact holdings.single c d g before before'
  · exact holdings.kept

theorem complete_move (complete : Complete base free held) (here : held a = some f)
    (empty : held b = none) :
    Complete base free (Function.update (Function.update held a none) b (some f)) := by
  intro g isBase taken
  obtain ⟨c, there⟩ := complete g isBase taken
  by_cases own : c = a
  · subst c
    exact ⟨b, by rw [Function.update_self, ← here, there]⟩
  · refine ⟨c, ?_⟩
    rw [Function.update_of_ne, Function.update_of_ne own]
    · exact there
    · rintro rfl
      rw [empty] at there
      cases there

variable [DecidableEq F]

/-- A thing from the stock goes to an empty place. -/
theorem acquire (holdings : Holdings base free held) (isFree : free f = true) :
    Holdings base (Function.update free f false) (Function.update held a (some f)) := by
  have other : ∀ b g, held b = some g → g ≠ f := by
    rintro b g here rfl
    rw [(holdings.taken b g here).2] at isFree
    cases isFree
  have isBase : base f = true := by
    by_contra notBase
    rw [holdings.kept f (Bool.eq_false_iff.mpr notBase)] at isFree
    cases isFree
  have place : ∀ b g, Function.update held a (some f) b = some g →
      (b = a ∧ g = f) ∨ (b ≠ a ∧ held b = some g) := by
    intro b g here
    by_cases own : b = a
    · rw [own, Function.update_self] at here
      exact .inl ⟨own, (Option.some.inj here).symm⟩
    · rw [Function.update_of_ne own] at here
      exact .inr ⟨own, here⟩
  constructor
  · intro b g here
    rcases place b g here with ⟨_, rfl⟩ | ⟨_, before⟩
    · exact ⟨isBase, Function.update_self ..⟩
    · rw [Function.update_of_ne (other b g before)]
      exact holdings.taken b g before
  · intro b c g here there
    rcases place b g here with ⟨rfl, rfl⟩ | ⟨_, before⟩
    · rcases place c g there with ⟨rfl, _⟩ | ⟨_, before'⟩
      · rfl
      · exact absurd rfl (other c g before')
    · rcases place c g there with ⟨_, rfl⟩ | ⟨_, before'⟩
      · exact absurd rfl (other b g before)
      · exact holdings.single b c g before before'
  · intro g notBase
    have ne : g ≠ f := by
      rintro rfl
      rw [notBase] at isBase
      cases isBase
    rw [Function.update_of_ne ne]
    exact holdings.kept g notBase

theorem complete_acquire (complete : Complete base free held) (empty : held a = none) :
    Complete base (Function.update free f false) (Function.update held a (some f)) := by
  intro g isBase taken
  by_cases own : g = f
  · exact ⟨a, by rw [own, Function.update_self]⟩
  · rw [Function.update_of_ne own] at taken
    obtain ⟨b, here⟩ := complete g isBase taken
    refine ⟨b, ?_⟩
    rw [Function.update_of_ne]
    · exact here
    · rintro rfl
      rw [empty] at here
      cases here

/-- What a place holds goes back to the stock. -/
theorem release (holdings : Holdings base free held) (here : held a = some f) :
    Holdings base (Function.update free f true) (Function.update held a none) := by
  have place : ∀ b g, Function.update held a none b = some g → b ≠ a ∧ held b = some g := by
    intro b g there
    by_cases own : b = a
    · rw [own, Function.update_self] at there
      cases there
    · rw [Function.update_of_ne own] at there
      exact ⟨own, there⟩
  constructor
  · intro b g there
    obtain ⟨other, before⟩ := place b g there
    have ne : g ≠ f := by
      rintro rfl
      exact other (holdings.single b a g before here)
    rw [Function.update_of_ne ne]
    exact holdings.taken b g before
  · intro b c g there there'
    exact holdings.single b c g (place b g there).2 (place c g there').2
  · intro g notBase
    have ne : g ≠ f := by
      rintro rfl
      rw [(holdings.taken a g here).1] at notBase
      cases notBase
    rw [Function.update_of_ne ne]
    exact holdings.kept g notBase

theorem complete_release (complete : Complete base free held) (here : held a = some f) :
    Complete base (Function.update free f true) (Function.update held a none) := by
  intro g isBase taken
  by_cases own : g = f
  · rw [own, Function.update_self] at taken
    cases taken
  · rw [Function.update_of_ne own] at taken
    obtain ⟨b, there⟩ := complete g isBase taken
    refine ⟨b, ?_⟩
    rw [Function.update_of_ne]
    · exact there
    · rintro rfl
      exact own (Option.some.inj (there.symm.trans here))

end Holdings

end EdfKernel.Library
