import EdfKernel.Library.Run
import Mathlib.Tactic.Ring
import Mathlib.Order.Basic

/-!
# Stabs

`stab_binsearch` of `kdebug.c`: the search for the debug symbol of a type that contains an
address, in an array in which symbols of all types are mixed.
-/

namespace EdfKernel.Debug

open Library

/-- `struct stab`, as far as the search reads it. -/
structure Stab where
  nType : UInt8
  nValue : UInt32
  deriving DecidableEq, Repr

/-- The array, with nothing outside of it. -/
abbrev Stabs := Int → Option Stab

/-- Why the search does not return. -/
inductive Stop
  /-- The rounds of the loop are used up. -/
  | hangs
  /-- A stab outside of the array is read. -/
  | outside
  deriving DecidableEq, Repr

def readStab (stabs : Stabs) (i : Int) : Except Stop Stab :=
  match stabs i with
  | some stab => .ok stab
  | none => .error .outside

/-- The loops that walk back from `m`, over `count` positions at most, to a stab of the type. -/
def walkBack (stabs : Stabs) (type : UInt8) : Nat → Int → Except Stop Int
  | 0, m => .ok m
  | count + 1, m => do
      let stab ← readStab stabs m
      if stab.nType = type then return m else walkBack stabs type count (m - 1)

/-- The variables of `stab_binsearch` in its loop. -/
structure Search where
  l : Int
  r : Int
  regionLeft : Int
  regionRight : Int
  anyMatches : Bool
  addr : UInt32
  deriving DecidableEq, Repr

/-- The loop of `stab_binsearch`. -/
def search (stabs : Stabs) (type : UInt8) : Nat → Search → Except Stop Search
  | 0, s => if s.l ≤ s.r then .error .hangs else .ok s
  | fuel + 1, s =>
      if s.l ≤ s.r then do
        let trueM := (s.l + s.r) / 2
        let m ← walkBack stabs type (trueM + 1 - s.l).toNat trueM
        if m < s.l then
          search stabs type fuel { s with l := trueM + 1 }
        else
          let stab ← readStab stabs m
          if stab.nValue < s.addr then
            search stabs type fuel
              { s with anyMatches := true, regionLeft := m, l := trueM + 1 }
          else if s.addr < stab.nValue then
            search stabs type fuel
              { s with anyMatches := true, regionRight := m - 1, r := m - 1 }
          else
            search stabs type fuel
              { s with anyMatches := true, regionLeft := m, l := m, addr := s.addr + 1 }
      else .ok s

/-- `stab_binsearch`, with the new values of `*region_left` and `*region_right`. -/
def stabBinsearch (stabs : Stabs) (regionLeft regionRight : Int) (type : UInt8) (addr : UInt32) :
    Except Stop (Int × Int) := do
  let s ← search stabs type (2 * (regionRight + 1 - regionLeft).toNat + 1)
    ⟨regionLeft, regionRight, regionLeft, regionRight, false, addr⟩
  if s.anyMatches then
    let l ← walkBack stabs type (s.regionRight - s.regionLeft).toNat s.regionRight
    return (l, s.regionRight)
  else
    return (s.regionLeft, s.regionLeft - 1)

/-- The address of the stab at a position, if it has the type. -/
def entry (stabs : Stabs) (type : UInt8) (i : Int) : Option Nat :=
  match stabs i with
  | some stab => if stab.nType = type then some stab.nValue.toNat else none
  | none => none

/-! ## One round -/

variable {stabs : Stabs} {type : UInt8} {l r i m : Int} {v : Nat}

/-- Every position of a range is in the array. -/
def Covers (stabs : Stabs) (l r : Int) : Prop :=
  ∀ i, l ≤ i → i ≤ r → ∃ stab, stabs i = some stab

/-- The addresses of the stabs of the type increase over a range. -/
def Increases (stabs : Stabs) (type : UInt8) (l r : Int) : Prop :=
  ∀ i j v w, l ≤ i → i < j → j ≤ r → entry stabs type i = some v → entry stabs type j = some w →
    v < w

/-- The walk stops at the last stab of the type, or in front of the positions it looks at. -/
theorem walkBack_spec (type : UInt8) (count : Nat) (m : Int) (covers : Covers stabs (m + 1 - count) m) :
    ∃ stop, walkBack stabs type count m = .ok stop ∧ m - count ≤ stop ∧ stop ≤ m ∧
      (∀ i, stop < i → i ≤ m → entry stabs type i = none) ∧
      (stop = m - count ∨ m - count < stop ∧ ∃ v, entry stabs type stop = some v) := by
  induction count generalizing m with
  | zero => exact ⟨m, rfl, by omega, le_rfl, fun i above below => by omega, .inl (by omega)⟩
  | succ count ih =>
      obtain ⟨stab, here⟩ := covers m (by omega) le_rfl
      unfold walkBack
      by_cases own : stab.nType = type
      · refine ⟨m, ?_, by omega, le_rfl, fun i above below => by omega, .inr ⟨by omega, ?_⟩⟩
        · simp [readStab, here, own, bind, Except.bind, pure, Except.pure]
        · exact ⟨stab.nValue.toNat, by simp [entry, here, own]⟩
      · obtain ⟨stop, walked, low, high, none, stopped⟩ :=
          ih (m - 1) fun i above below => covers i (by omega) (by omega)
        refine ⟨stop, ?_, by omega, by omega, fun i above below => ?_, ?_⟩
        · simpa [readStab, here, own, bind, Except.bind] using walked
        · by_cases last : i = m
          · subst last
            simp [entry, here, own]
          · exact none i above (by omega)
        · rcases stopped with atEnd | ⟨inside, found⟩
          · exact .inl (by omega)
          · exact .inr ⟨by omega, found⟩

/-- What a round of the loop does with the last stab of the type up to the midpoint. -/
inductive Probe (stabs : Stabs) (type : UInt8) (s : Search) : Search → Prop
  | none (empty : ∀ i, s.l ≤ i → i ≤ (s.l + s.r) / 2 → entry stabs type i = .none) :
      Probe stabs type s { s with l := (s.l + s.r) / 2 + 1 }
  | below (m : Int) (v : Nat) (low : s.l ≤ m) (high : m ≤ (s.l + s.r) / 2)
      (last : ∀ i, m < i → i ≤ (s.l + s.r) / 2 → entry stabs type i = .none)
      (found : entry stabs type m = some v) (less : v < s.addr.toNat) :
      Probe stabs type s
        { s with anyMatches := true, regionLeft := m, l := (s.l + s.r) / 2 + 1 }
  | above (m : Int) (v : Nat) (low : s.l ≤ m) (high : m ≤ (s.l + s.r) / 2)
      (last : ∀ i, m < i → i ≤ (s.l + s.r) / 2 → entry stabs type i = .none)
      (found : entry stabs type m = some v) (more : s.addr.toNat < v) :
      Probe stabs type s { s with anyMatches := true, regionRight := m - 1, r := m - 1 }
  | hit (m : Int) (low : s.l ≤ m) (high : m ≤ (s.l + s.r) / 2)
      (last : ∀ i, m < i → i ≤ (s.l + s.r) / 2 → entry stabs type i = .none)
      (found : entry stabs type m = some s.addr.toNat) :
      Probe stabs type s
        { s with anyMatches := true, regionLeft := m, l := m, addr := s.addr + 1 }

theorem search_probe (type : UInt8) (fuel : Nat) {s : Search} (more : s.l ≤ s.r)
    (covers : Covers stabs s.l s.r) :
    ∃ next, search stabs type (fuel + 1) s = search stabs type fuel next ∧
      Probe stabs type s next := by
  obtain ⟨m, walked, low, high, last, stopped⟩ :=
    walkBack_spec type ((s.l + s.r) / 2 + 1 - s.l).toNat ((s.l + s.r) / 2)
      fun i above below => covers i (by omega) (by omega)
  rw [search]
  simp only [if_pos more, walked, bind, Except.bind]
  by_cases outside : m < s.l
  · rw [if_pos outside]
    exact ⟨_, rfl, .none fun i above below => last i (by omega) below⟩
  · obtain ⟨v, found⟩ := (stopped.resolve_left (by omega)).2
    obtain ⟨stab, here⟩ := covers m (by omega) (by omega)
    have own : stab.nType = type ∧ stab.nValue.toNat = v := by
      simp only [entry, here] at found
      split at found
      · exact ⟨by assumption, Option.some.inj found⟩
      · cases found
    simp only [if_neg outside, readStab, here, UInt32.lt_iff_toNat_lt, own.2]
    rcases lt_trichotomy v s.addr.toNat with less | same | more
    · rw [if_pos less]
      exact ⟨_, rfl, .below m v (by omega) high last found less⟩
    · rw [if_neg (by omega), if_neg (by omega)]
      exact ⟨_, rfl, .hit m (by omega) high last (same ▸ found)⟩
    · rw [if_neg (by omega), if_pos more]
      exact ⟨_, rfl, .above m v (by omega) high last found more⟩

end EdfKernel.Debug
