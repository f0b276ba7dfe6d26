import EdfKernel.Debug.Stab

/-!
# What the search for a stab finds

Until it meets a stab with the address itself, the search keeps the stabs below the address to
the left of its range and those above it to the right.  When it meets one, it goes on with the
next address.
-/

namespace EdfKernel.Debug

open Library

variable {stabs : Stabs} {type : UInt8} {s : Search} {l r e e' : Int}

theorem Covers.mono {l' r' : Int} (covers : Covers stabs l r) (low : l ≤ l') (high : r' ≤ r) :
    Covers stabs l' r' :=
  fun i above below => covers i (low.trans above) (below.trans high)

theorem Increases.mono {l' r' : Int} (increases : Increases stabs type l r) (low : l ≤ l')
    (high : r' ≤ r) : Increases stabs type l' r' :=
  fun i j v w above before below => increases i j v w (low.trans above) before (below.trans high)

/-- The order of two stabs is that of their addresses. -/
theorem Increases.lt_of_lt {i j : Int} {v w : Nat} (increases : Increases stabs type l r)
    (highI : i ≤ r) (lowJ : l ≤ j) (foundI : entry stabs type i = some v)
    (foundJ : entry stabs type j = some w) (less : v < w) : i < j := by
  rcases lt_trichotomy i j with before | rfl | after
  · exact before
  · cases foundI.symm.trans foundJ
    omega
  · have := increases j i w v lowJ after highI foundJ foundI
    omega

theorem Increases.eq_of_eq {i j : Int} {v : Nat} (increases : Increases stabs type l r)
    (lowI : l ≤ i) (highI : i ≤ r) (lowJ : l ≤ j) (highJ : j ≤ r)
    (foundI : entry stabs type i = some v) (foundJ : entry stabs type j = some v) : i = j := by
  rcases lt_trichotomy i j with before | same | after
  · have := increases i j v v lowI before highJ foundI foundJ
    omega
  · exact same
  · have := increases j i v v lowJ after highI foundJ foundI
    omega

/-! ## Without a stab at the address -/

/-- The search has cut its range in front of the first stab above the address. -/
structure Parts (stabs : Stabs) (type : UInt8) (s final : Search) : Prop where
  right_le : final.regionRight ≤ s.r
  le_right : s.l ≤ final.regionRight + 1
  next : final.regionRight = s.r ∨ ∃ v, entry stabs type (final.regionRight + 1) = some v
  below : ∀ i v, s.l ≤ i → i ≤ final.regionRight → entry stabs type i = some v →
    v < s.addr.toNat
  above : ∀ i v, final.regionRight < i → i ≤ s.r → entry stabs type i = some v →
    s.addr.toNat < v
  left : final.regionLeft = s.regionLeft ∨ s.l ≤ final.regionLeft ∧
    final.regionLeft ≤ final.regionRight ∧ ∃ v, entry stabs type final.regionLeft = some v
  seen : final.anyMatches = true ↔
    s.anyMatches = true ∨ ∃ i v, s.l ≤ i ∧ i ≤ s.r ∧ entry stabs type i = some v

theorem Parts.of_empty (right : s.regionRight = s.r) (range : s.l = s.r + 1) :
    Parts stabs type s s := by
  constructor
  · exact right.le
  · omega
  · exact .inl right
  · exact fun i v above below => by omega
  · exact fun i v above below => by omega
  · exact .inl rfl
  · constructor
    · exact .inl
    · rintro (seen | ⟨i, v, above, below, _⟩)
      · exact seen
      · omega

/-- A round that does not meet the address only narrows the range. -/
theorem Parts.of_probe {next final : Search} (probe : Probe stabs type s next)
    (increases : Increases stabs type s.l s.r) (more : s.l ≤ s.r)
    (missing : ∀ i, s.l ≤ i → i ≤ s.r → entry stabs type i ≠ some s.addr.toNat)
    (parts : Parts stabs type next final) : Parts stabs type s final := by
  obtain ⟨rightLe, leRight, next, below, above, left, seen⟩ := parts
  cases probe with
  | none empty =>
      simp only at rightLe leRight next below above left seen
      refine ⟨rightLe, by omega, next, fun i v low high found => ?_, above, ?_, seen.trans ?_⟩
      · by_cases early : i ≤ (s.l + s.r) / 2
        · rw [empty i low early] at found
          cases found
        · exact below i v (by omega) high found
      · exact left.imp_right fun ⟨low, rest⟩ => ⟨by omega, rest⟩
      · refine or_congr_right ⟨fun ⟨i, v, low, rest⟩ => ⟨i, v, by omega, rest⟩, ?_⟩
        rintro ⟨i, v, low, high, found⟩
        refine ⟨i, v, ?_, high, found⟩
        by_contra early
        rw [empty i low (by omega)] at found
        cases found
  | below m v low high last found less =>
      simp only at rightLe leRight next below above left seen
      refine ⟨rightLe, by omega, next, fun i w lowI highI foundI => ?_, above, .inr ?_, ?_⟩
      · rcases lt_trichotomy i m with before | rfl | after
        · exact (increases i m w v lowI before (by omega) foundI found).trans less
        · cases found.symm.trans foundI
          exact less
        · by_cases early : i ≤ (s.l + s.r) / 2
          · rw [last i after early] at foundI
            cases foundI
          · exact below i w (by omega) highI foundI
      · rcases left with same | ⟨lowLeft, rest⟩
        · rw [same]
          exact ⟨low, by omega, v, found⟩
        · exact ⟨by omega, rest⟩
      · exact iff_of_true (seen.mpr (.inl trivial)) (.inr ⟨m, v, low, by omega, found⟩)
  | above m v low high last found more =>
      simp only at rightLe leRight next below above left seen
      refine ⟨by omega, leRight, .inr ?_, below, fun i w lowI highI foundI => ?_, left, ?_⟩
      · rcases next with same | found'
        · exact ⟨v, by rw [same, Int.sub_add_cancel]; exact found⟩
        · exact found'
      · rcases lt_trichotomy i m with before | rfl | after
        · exact above i w lowI (by omega) foundI
        · cases found.symm.trans foundI
          exact more
        · exact more.trans (increases m i v w low after highI found foundI)
      · exact iff_of_true (seen.mpr (.inl trivial)) (.inr ⟨m, v, low, by omega, found⟩)
  | hit m low high last found => exact absurd found (missing m low (by omega))

/-- A round leaves a smaller range, and `*region_right` at its end. -/
theorem Probe.narrows {next : Search} (probe : Probe stabs type s next) (more : s.l ≤ s.r)
    (right : s.regionRight = s.r)
    (missing : ∀ i, s.l ≤ i → i ≤ s.r → entry stabs type i ≠ some s.addr.toNat) :
    next.r + 1 - next.l < s.r + 1 - s.l ∧ next.regionRight = next.r ∧ next.l ≤ next.r + 1 ∧
      s.l ≤ next.l ∧ next.r ≤ s.r ∧ next.addr = s.addr := by
  cases probe with
  | none empty => exact ⟨by dsimp only; omega, right, by dsimp only; omega, by dsimp only; omega,
      le_rfl, rfl⟩
  | below m v low high last found less => exact ⟨by dsimp only; omega, right,
      by dsimp only; omega, by dsimp only; omega, le_rfl, rfl⟩
  | above m v low high last found more => exact ⟨by dsimp only; omega, rfl,
      by dsimp only; omega, le_rfl, by dsimp only; omega, rfl⟩
  | hit m low high last found => exact absurd found (missing m low (by omega))

theorem search_parts (fuel : Nat) (enough : s.r + 1 - s.l ≤ fuel) (right : s.regionRight = s.r)
    (range : s.l ≤ s.r + 1) (covers : Covers stabs s.l s.r)
    (increases : Increases stabs type s.l s.r)
    (missing : ∀ i, s.l ≤ i → i ≤ s.r → entry stabs type i ≠ some s.addr.toNat) :
    ∃ final, search stabs type fuel s = .ok final ∧ Parts stabs type s final := by
  induction fuel generalizing s with
  | zero =>
      refine ⟨s, ?_, .of_empty right (by omega)⟩
      rw [search, if_neg (by omega)]
  | succ fuel ih =>
      by_cases more : s.l ≤ s.r
      · obtain ⟨next, same, probe⟩ := search_probe type fuel more covers
        obtain ⟨less, right', range', low, high, addr⟩ := probe.narrows more right missing
        obtain ⟨final, found, parts⟩ := ih (by omega) right' range' (covers.mono low high)
          (increases.mono low high) fun i lowI highI => addr ▸ missing i (by omega) (by omega)
        exact ⟨final, same.trans found, parts.of_probe probe increases more missing⟩
      · refine ⟨s, ?_, .of_empty right (by omega)⟩
        rw [search, if_neg more]

/-! ## With a stab at the address -/

/-- In the bisection of `[l, r]` a midpoint falls between the stabs at `e` and `e'` before the
stab at `e'` is the last one up to a midpoint. -/
inductive Splits (stabs : Stabs) (type : UInt8) (e e' : Int) : Int → Int → Prop
  | between {l r : Int} (inside : e' ≤ r) (low : e ≤ (l + r) / 2) (high : (l + r) / 2 < e') :
      Splits stabs type e e' l r
  | up {l r : Int} (early : (l + r) / 2 < e) (rest : Splits stabs type e e' ((l + r) / 2 + 1) r) :
      Splits stabs type e e' l r
  | down {l r m : Int} (after : e' < m) (high : m ≤ (l + r) / 2)
      (found : entry stabs type m ≠ none)
      (last : ∀ i, m < i → i ≤ (l + r) / 2 → entry stabs type i = none)
      (rest : Splits stabs type e e' l (m - 1)) : Splits stabs type e e' l r

/-- The search after it has met the stab at `e`. -/
structure Met (stabs : Stabs) (type : UInt8) (e : Int) (addr : UInt32) (s : Search) : Prop where
  l : s.l = e
  left : s.regionLeft = e
  right : s.regionRight = s.r
  seen : s.anyMatches = true
  next_addr : s.addr = addr + 1
  inside : e ≤ s.r
  found : entry stabs type e = some addr.toNat

/-- The search comes to the stab at `e`, and has cut its range above it only at stabs above the
address. -/
structure Comes (stabs : Stabs) (type : UInt8) (e : Int) (s met : Search) : Prop
    extends Met stabs type e s.addr met where
  right_le : met.r ≤ s.r
  next : met.r = s.r ∨ ∃ v, entry stabs type (met.r + 1) = some v
  splits : ∀ e', e < e' → e' ≤ s.r → entry stabs type e' ≠ none →
    (∀ i, e < i → i < e' → entry stabs type i = none) →
    (e' ≤ met.r ↔ Splits stabs type e e' s.l s.r)

/-- A round below the stab at `e` goes up. -/
theorem splits_up_iff (before : e < e') (early : (l + r) / 2 < e) :
    Splits stabs type e e' l r ↔ Splits stabs type e e' ((l + r) / 2 + 1) r := by
  constructor
  · intro splits
    cases splits with
    | between inside low high => omega
    | up early rest => exact rest
    | down after high found last rest => omega
  · exact fun rest => .up early rest

/-- A round above the stab at `e'` goes down. -/
theorem splits_down_iff {m : Int} {w : Nat} (before : e < e') (after : e' < m)
    (high : m ≤ (l + r) / 2) (found : entry stabs type m = some w)
    (last : ∀ i, m < i → i ≤ (l + r) / 2 → entry stabs type i = none) :
    Splits stabs type e e' l r ↔ Splits stabs type e e' l (m - 1) := by
  constructor
  · intro splits
    cases splits with
    | between inside low high => omega
    | up early rest => omega
    | @down _ _ m' after' high' found' last' rest =>
        have same : m' = m := by
          rcases lt_trichotomy m' m with less | same | more
          · rw [last' m less high] at found
            cases found
          · exact same
          · exact absurd (last m' more high') found'
        exact same ▸ rest
  · exact fun rest => .down after high (by rw [found]; exact Option.some_ne_none w) last rest

/-- The round that comes to the stab at `e'` leaves it out. -/
theorem not_splits (before : e < e') (high : e' ≤ (l + r) / 2)
    (last : ∀ i, e' < i → i ≤ (l + r) / 2 → entry stabs type i = none) :
    ¬Splits stabs type e e' l r := by
  intro splits
  cases splits with
  | between inside low high => omega
  | up early rest => omega
  | @down _ _ m' after' high' found' last' rest => exact found' (last m' after' high')

/-- A round in front of the stab at the address keeps it in the range. -/
theorem Comes.of_probe {next met : Search} (probe : Probe stabs type s next)
    (increases : Increases stabs type s.l s.r) (low : s.l ≤ e) (high : e ≤ s.r)
    (found : entry stabs type e = some s.addr.toNat) (notHit : next.addr = s.addr)
    (comes : Comes stabs type e next met) : Comes stabs type e s met := by
  obtain ⟨state, rightLe, next, splits⟩ := comes
  rw [notHit] at state
  cases probe with
  | none empty =>
      have late : (s.l + s.r) / 2 < e := by
        by_contra early
        rw [empty e low (by omega)] at found
        cases found
      refine ⟨state, rightLe, next, fun e' before inside stab apart => ?_⟩
      rw [splits_up_iff before late]
      exact splits e' before inside stab apart
  | below m v lowM highM last foundM less =>
      have after : m < e := increases.lt_of_lt (by omega) low foundM found less
      have late : (s.l + s.r) / 2 < e := by
        by_contra early
        rw [last e after (by omega)] at found
        cases found
      refine ⟨state, rightLe, next, fun e' before inside stab apart => ?_⟩
      rw [splits_up_iff before late]
      exact splits e' before inside stab apart
  | above m v lowM highM last foundM more =>
      simp only at rightLe next splits
      have after : e < m := increases.lt_of_lt high lowM found foundM more
      refine ⟨state, by omega, ?_, fun e' before inside stab apart => ?_⟩
      · rcases next with same | further
        · exact .inr ⟨v, by rw [same, Int.sub_add_cancel]; exact foundM⟩
        · exact .inr further
      · have upTo : e' ≤ m := by
          by_contra beyond
          rw [apart m after (by omega)] at foundM
          cases foundM
        rcases upTo.lt_or_eq with beneath | rfl
        · rw [splits_down_iff before beneath highM foundM last]
          exact splits e' before (by omega) stab apart
        · exact iff_of_false (by omega) (not_splits before highM last)
  | hit m lowM highM last foundM =>
      have wrapped := congrArg UInt32.toNat notHit
      rw [UInt32.toNat_add] at wrapped
      have := s.addr.toNat_lt
      simp at wrapped
      omega

/-- The round that comes to the stab at the address. -/
theorem Comes.of_hit (right : s.regionRight = s.r) (low : s.l ≤ e) (high : e ≤ (s.l + s.r) / 2)
    (last : ∀ i, e < i → i ≤ (s.l + s.r) / 2 → entry stabs type i = none)
    (found : entry stabs type e = some s.addr.toNat) :
    Comes stabs type e s
      { s with anyMatches := true, regionLeft := e, l := e, addr := s.addr + 1 } := by
  have inside : e ≤ s.r := by omega
  refine ⟨⟨rfl, rfl, right, rfl, rfl, inside, found⟩, le_rfl, .inl rfl, ?_⟩
  intro e' before within stab apart
  have between : (s.l + s.r) / 2 < e' := by
    by_contra beyond
    exact stab (last e' before (by omega))
  exact iff_of_true within (.between within high between)

/-- The search comes to the stab at the address, with rounds left for the rest. -/
theorem search_comes (fuel : Nat) (enough : 2 * (s.r + 1 - s.l) ≤ fuel)
    (ample : s.l = e → 2 * (s.r + 1 - s.l) < fuel) (right : s.regionRight = s.r)
    (covers : Covers stabs s.l s.r) (increases : Increases stabs type s.l s.r)
    (low : s.l ≤ e) (high : e ≤ s.r) (found : entry stabs type e = some s.addr.toNat) :
    ∃ rest met, search stabs type fuel s = search stabs type rest met ∧
      Comes stabs type e s met ∧ 2 * (met.r + 1 - e) ≤ rest := by
  induction fuel generalizing s with
  | zero => omega
  | succ fuel ih =>
      have more : s.l ≤ s.r := low.trans high
      obtain ⟨next, same, probe⟩ := search_probe type fuel more covers
      have again : next.addr = s.addr → next.l ≤ e → e ≤ next.r → s.l ≤ next.l → next.r ≤ s.r →
          next.r + 1 - next.l < s.r + 1 - s.l → next.regionRight = next.r →
          ∃ rest met, search stabs type (fuel + 1) s = search stabs type rest met ∧
            Comes stabs type e s met ∧ 2 * (met.r + 1 - e) ≤ rest := by
        intro addr lowN highN mono monoR less rightN
        obtain ⟨rest, met, went, comes, left⟩ := ih (by omega) (by omega) rightN
          (covers.mono mono monoR) (increases.mono mono monoR) lowN highN (addr.symm ▸ found)
        exact ⟨rest, met, same.trans went, comes.of_probe probe increases low high found addr,
          left⟩
      cases probe with
      | none empty =>
          have late : (s.l + s.r) / 2 < e := by
            by_contra early
            rw [empty e low (by omega)] at found
            cases found
          exact again rfl (by dsimp only; omega) high (by dsimp only; omega) le_rfl
            (by dsimp only; omega) right
      | below m v lowM highM last foundM less =>
          have after : m < e := increases.lt_of_lt (by omega) low foundM found less
          have late : (s.l + s.r) / 2 < e := by
            by_contra early
            rw [last e after (by omega)] at found
            cases found
          exact again rfl (by dsimp only; omega) high (by dsimp only; omega) le_rfl
            (by dsimp only; omega) right
      | above m v lowM highM last foundM beyond =>
          have after : e < m := increases.lt_of_lt high lowM found foundM beyond
          exact again rfl low (by dsimp only; omega) le_rfl (by dsimp only; omega)
            (by dsimp only; omega) rfl
      | hit m lowM highM last foundM =>
          obtain rfl : m = e := increases.eq_of_eq lowM (by omega) low high foundM found
          exact ⟨fuel, _, same, .of_hit right low highM last found, by dsimp only; omega⟩

/-! ## After the stab at the address -/

variable {addr : UInt32}

theorem Met.next_toNat (state : Met stabs type e addr s) (room : addr.toNat + 1 < 2 ^ 32) :
    s.addr.toNat = addr.toNat + 1 := by
  rw [state.next_addr, UInt32.toNat_add]
  exact Nat.mod_eq_of_lt room

/-- After the greatest address of all, the search goes on with the address zero. -/
theorem Met.search_wraps (state : Met stabs type e addr s) (full : addr.toNat + 1 = 2 ^ 32)
    (fuel : Nat) (enough : 2 * (s.r + 1 - e) ≤ fuel) (covers : Covers stabs e s.r)
    (increases : Increases stabs type e s.r) :
    ∃ final, search stabs type fuel s = .ok final ∧ final.anyMatches = true ∧
      final.regionLeft = e ∧ final.regionRight = e - 1 := by
  have zero : s.addr.toNat = 0 := by
    rw [state.next_addr, UInt32.toNat_add]
    exact (congrArg (· % 2 ^ 32) full :)
  have inside := state.inside
  have l := state.l
  have missing : ∀ i, s.l ≤ i → i ≤ s.r → entry stabs type i ≠ some s.addr.toNat := by
    intro i low high found
    have := increases.lt_of_lt high le_rfl found state.found (by omega)
    omega
  obtain ⟨final, searched, parts⟩ := search_parts fuel (by omega) state.right (by omega)
    (l ▸ covers) (l ▸ increases) missing
  have cut : final.regionRight < e := by
    by_contra within
    have := parts.below e _ l.le (by omega) state.found
    omega
  have edge := parts.le_right
  refine ⟨final, searched, parts.seen.mpr (.inl state.seen), ?_, by omega⟩
  rcases parts.left with same | ⟨low, high, _⟩
  · exact same.trans state.left
  · omega

/-- Without a stab at the next address the search ends with the one that it has met. -/
theorem Met.search_ends (state : Met stabs type e addr s) (room : addr.toNat + 1 < 2 ^ 32)
    (fuel : Nat) (enough : 2 * (s.r + 1 - e) ≤ fuel) (covers : Covers stabs e s.r)
    (increases : Increases stabs type e s.r)
    (missing : ∀ i, e ≤ i → i ≤ s.r → entry stabs type i ≠ some (addr.toNat + 1)) :
    ∃ final, search stabs type fuel s = .ok final ∧ final.anyMatches = true ∧
      final.regionLeft = e ∧ e ≤ final.regionRight ∧ final.regionRight ≤ s.r ∧
      (final.regionRight = s.r ∨ ∃ v, entry stabs type (final.regionRight + 1) = some v) ∧
      ∀ i, e < i → i ≤ final.regionRight → entry stabs type i = none := by
  have next := state.next_toNat room
  have inside := state.inside
  have l := state.l
  obtain ⟨final, searched, parts⟩ := search_parts fuel (by omega) state.right (by omega)
    (l ▸ covers) (l ▸ increases)
    fun i low high => next ▸ missing i (l ▸ low) high
  have within : e ≤ final.regionRight := by
    by_contra cut
    have := parts.above e _ (by omega) inside state.found
    omega
  have alone : ∀ i, e < i → i ≤ final.regionRight → entry stabs type i = none := by
    intro i after before
    cases found : entry stabs type i with
    | none => rfl
    | some v =>
        have less := parts.below i v (by omega) before found
        have more := increases e i _ v le_rfl after (before.trans parts.right_le) state.found found
        omega
  refine ⟨final, searched, parts.seen.mpr (.inl state.seen), ?_, within, parts.right_le,
    parts.next, alone⟩
  rcases parts.left with same | ⟨low, high, v, found⟩
  · exact same.trans state.left
  · by_contra other
    rw [alone final.regionLeft (by omega) high] at found
    cases found

/-- The search does not cut off a stab that it has met, unless that has the greatest address. -/
theorem Met.search_keeps {e : Int} {addr : UInt32} {s : Search}
    (state : Met stabs type e addr s) (room : addr.toNat + 1 < 2 ^ 32)
    (fuel : Nat) (enough : 2 * (s.r + 1 - e) ≤ fuel) (covers : Covers stabs e s.r)
    (increases : Increases stabs type e s.r) :
    ∃ final, search stabs type fuel s = .ok final ∧ final.anyMatches = true ∧
      e ≤ final.regionRight ∧ e ≤ final.regionLeft ∧ final.regionRight ≤ s.r := by
  by_cases missing : ∀ i, e ≤ i → i ≤ s.r → entry stabs type i ≠ some (addr.toNat + 1)
  · obtain ⟨final, searched, seen, left, within, le, _⟩ :=
      state.search_ends room fuel enough covers increases missing
    exact ⟨final, searched, seen, within, left.ge, le⟩
  · push Not at missing
    obtain ⟨e', low, high, found⟩ := missing
    have next := state.next_toNat room
    have l := state.l
    have after : e < e' :=
      increases.lt_of_lt state.inside low state.found found (Nat.lt_succ_self _)
    obtain ⟨rest, met, went, comes, left⟩ := search_comes (e := e') fuel (by omega)
      (fun same => by omega) state.right (l ▸ covers) (l ▸ increases) (by omega) high
      (next ▸ found)
    have covers' : Covers stabs e' met.r := covers.mono after.le comes.right_le
    have increases' : Increases stabs type e' met.r := increases.mono after.le comes.right_le
    rw [went]
    by_cases room' : s.addr.toNat + 1 < 2 ^ 32
    · obtain ⟨final, searched, seen, within, leftLe, le⟩ :=
        comes.toMet.search_keeps room' rest left covers' increases'
      exact ⟨final, searched, seen, by omega, by omega, le.trans comes.right_le⟩
    · have bound := s.addr.toNat_lt
      obtain ⟨final, searched, seen, leftEq, rightEq⟩ :=
        comes.toMet.search_wraps (by omega) rest left covers' increases'
      exact ⟨final, searched, seen, by omega, by omega, by have := comes.right_le; omega⟩
termination_by 2 ^ 32 - addr.toNat

/-! ## The result -/

/-- The last stab of the type at or below the address. -/
def IsLast (stabs : Stabs) (type : UInt8) (l r : Int) (addr : UInt32) (j : Int) : Prop :=
  l ≤ j ∧ j ≤ r ∧ (∃ v, entry stabs type j = some v ∧ v ≤ addr.toNat) ∧
    ∀ i v, j < i → i ≤ r → entry stabs type i = some v → addr.toNat < v

/-- The region from the last stab at or below the address to the one in front of the next, or an
empty region where there is no such stab. -/
def Located (stabs : Stabs) (type : UInt8) (l r : Int) (addr : UInt32) (region : Int × Int) :
    Prop :=
  (∃ j, IsLast stabs type l r addr j ∧ region.1 = j ∧ j ≤ region.2 ∧ region.2 ≤ r ∧
    (∀ i, j < i → i ≤ region.2 → entry stabs type i = none) ∧
    (region.2 = r ∨ ∃ v, entry stabs type (region.2 + 1) = some v)) ∨
  (∀ i v, l ≤ i → i ≤ r → entry stabs type i = some v → addr.toNat < v) ∧ region.2 < region.1

/-- There is no stab of the type, or there is one at or below the address; and if there is one at
the address, then the address is not the greatest one, and the bisection does not come to that
stab before the one at the next address. -/
def Findable (stabs : Stabs) (type : UInt8) (l r : Int) (addr : UInt32) : Prop :=
  (∀ i, l ≤ i → i ≤ r → entry stabs type i = none) ∨
  (∃ i v, l ≤ i ∧ i ≤ r ∧ entry stabs type i = some v ∧ v ≤ addr.toNat) ∧
    ∀ e, l ≤ e → e ≤ r → entry stabs type e = some addr.toNat → addr.toNat + 1 < 2 ^ 32 ∧
      ∀ e', e < e' → e' ≤ r → entry stabs type e' = some (addr.toNat + 1) →
        ¬Splits stabs type e e' l r ∨ addr.toNat + 2 = 2 ^ 32 ∧ e' = e + 1

/-- The variables when the loop begins. -/
def startSearch (l r : Int) (addr : UInt32) : Search := ⟨l, r, l, r, false, addr⟩

/-- After the loop the region begins at the last stab that is not behind it. -/
theorem stabBinsearch_of_seen {final : Search}
    (searched : search stabs type (2 * (r + 1 - l).toNat + 1) (startSearch l r addr) = .ok final)
    (seen : final.anyMatches = true)
    (covers : Covers stabs (final.regionLeft + 1) final.regionRight) :
    ∃ left, stabBinsearch stabs l r type addr = .ok (left, final.regionRight) ∧
      left ≤ final.regionRight ∧
      (∀ i, left < i → i ≤ final.regionRight → entry stabs type i = none) ∧
      (final.regionLeft ≤ final.regionRight → left = final.regionLeft ∨
        final.regionLeft < left ∧ ∃ v, entry stabs type left = some v) ∧
      (final.regionRight < final.regionLeft → left = final.regionRight) := by
  obtain ⟨left, walked, low, high, none, stopped⟩ :=
    walkBack_spec type (final.regionRight - final.regionLeft).toNat final.regionRight
      (fun i above below => covers i (by omega) below)
  refine ⟨left, ?_, high, none, fun within => ?_, fun cut => by omega⟩
  · rw [startSearch] at searched
    simp [stabBinsearch, searched, seen, walked, bind, Except.bind, pure, Except.pure]
  · rcases stopped with atEnd | ⟨inside, found⟩
    · exact .inl (by omega)
    · exact .inr ⟨by omega, found⟩

theorem stabBinsearch_of_unseen {final : Search}
    (searched : search stabs type (2 * (r + 1 - l).toNat + 1) (startSearch l r addr) = .ok final)
    (unseen : final.anyMatches = false) :
    stabBinsearch stabs l r type addr = .ok (final.regionLeft, final.regionLeft - 1) := by
  rw [startSearch] at searched
  simp [stabBinsearch, searched, unseen, bind, Except.bind, pure, Except.pure]

/-- Where no stab is at the address, only a range whose stabs are all above it is misread. -/
theorem located_of_missing (range : l ≤ r + 1) (covers : Covers stabs l r)
    (increases : Increases stabs type l r)
    (missing : ∀ i, l ≤ i → i ≤ r → entry stabs type i ≠ some addr.toNat) :
    ∃ region, stabBinsearch stabs l r type addr = .ok region ∧
      (Located stabs type l r addr region ↔ Findable stabs type l r addr) := by
  obtain ⟨final, searched, parts⟩ := search_parts (s := startSearch l r addr)
    (2 * (r + 1 - l).toNat + 1) (by dsimp only [startSearch]; omega) rfl range covers increases
    missing
  obtain ⟨rightLe, leRight, next, below, above, left, seen⟩ := parts
  simp only [startSearch] at rightLe leRight next below above left seen
  cases any : final.anyMatches with
  | false =>
      have empty : ∀ i, l ≤ i → i ≤ r → entry stabs type i = none := by
        intro i low high
        cases found : entry stabs type i with
        | none => rfl
        | some v =>
            rw [seen.mpr (.inr ⟨i, v, low, high, found⟩)] at any
            cases any
      refine ⟨_, stabBinsearch_of_unseen searched any, iff_of_true (.inr ⟨?_, ?_⟩) (.inl empty)⟩
      · intro i v low high found
        rw [empty i low high] at found
        cases found
      · dsimp only
        omega
  | true =>
      obtain ⟨region, result, le, alone, start, _⟩ := stabBinsearch_of_seen searched any
        (covers.mono (by rcases left with same | ⟨low, _⟩ <;> omega) rightLe)
      refine ⟨_, result, ?_⟩
      obtain ⟨i, v, low, high, found⟩ := (seen.mp any).resolve_left (by simp)
      by_cases lower : ∃ i v, l ≤ i ∧ i ≤ r ∧ entry stabs type i = some v ∧ v ≤ addr.toNat
      · refine iff_of_true (.inl ?_) (.inr ⟨lower, fun e lowE highE own => ?_⟩)
        · obtain ⟨i, v, low, high, found, beneath⟩ := lower
          have within : i ≤ final.regionRight := by
            by_contra beyond
            have := above i v (by omega) high found
            omega
          have reaches : i ≤ region := by
            by_contra cut
            rw [alone i (by omega) within] at found
            cases found
          have own : l ≤ region ∧ ∃ v, entry stabs type region = some v := by
            rcases start (by rcases left with same | ⟨_, le, _⟩ <;> omega) with same | ⟨after, own⟩
            · rcases left with unset | ⟨lowLeft, _, own⟩
              · obtain rfl : i = region := by omega
                exact ⟨low, v, found⟩
              · exact ⟨by omega, same ▸ own⟩
            · exact ⟨by omega, own⟩
          obtain ⟨lowR, w, own⟩ := own
          refine ⟨region, ⟨lowR, by omega, ⟨w, own, (below region w lowR le own).le⟩, ?_⟩, rfl, le,
            rightLe, alone, next⟩
          intro k x after highK foundK
          by_cases early : k ≤ final.regionRight
          · rw [alone k after early] at foundK
            cases foundK
          · exact above k x (by omega) highK foundK
        · exact absurd own (missing e lowE highE)
      · refine iff_of_false ?_ ?_
        · rintro (⟨j, ⟨low, high, ⟨v, own, beneath⟩, _⟩, _⟩ | ⟨_, empty⟩)
          · exact lower ⟨j, v, low, high, own, beneath⟩
          · exact absurd le (not_le.mpr empty)
        · rintro (empty | ⟨some, _⟩)
          · rw [empty i low high] at found
            cases found
          · exact lower some

/-- The stab at the address is the last one that is not above it. -/
theorem IsLast.eq_of_found {j : Int} (isLast : IsLast stabs type l r addr j)
    (increases : Increases stabs type l r) (low : l ≤ e) (high : e ≤ r)
    (found : entry stabs type e = some addr.toNat) : j = e := by
  obtain ⟨lowJ, highJ, ⟨v, own, beneath⟩, after⟩ := isLast
  rcases lt_trichotomy j e with before | same | beyond
  · have := after e _ before high found
    omega
  · exact same
  · have := increases e j _ v low beyond highJ found own
    omega

theorem isLast_of_found (increases : Increases stabs type l r) (low : l ≤ e) (high : e ≤ r)
    (found : entry stabs type e = some addr.toNat) : IsLast stabs type l r addr e :=
  ⟨low, high, ⟨_, found, le_rfl⟩, fun i v after highI own =>
    increases e i _ v low after highI found own⟩

/-- A region that is not located although there is a stab at the address. -/
theorem not_located {region : Int × Int} (increases : Increases stabs type l r) (low : l ≤ e)
    (high : e ≤ r) (found : entry stabs type e = some addr.toNat) (within : region.1 ≤ region.2)
    (wrong : region.1 = e → e ≤ region.2 →
      (∀ i, e < i → i ≤ region.2 → entry stabs type i = none) → False) :
    ¬Located stabs type l r addr region := by
  rintro (⟨j, isLast, own, le, _, alone, _⟩ | ⟨all, empty⟩)
  · obtain rfl := isLast.eq_of_found increases low high found
    exact wrong own le alone
  · omega

/-- Whether the search finds the stab at the address is decided where it comes to it. -/
theorem located_of_found (covers : Covers stabs l r) (increases : Increases stabs type l r)
    (low : l ≤ e) (high : e ≤ r) (found : entry stabs type e = some addr.toNat) :
    ∃ region, stabBinsearch stabs l r type addr = .ok region ∧
      (Located stabs type l r addr region ↔ Findable stabs type l r addr) := by
  obtain ⟨rest, met, went, comes, left⟩ := search_comes (s := startSearch l r addr) (e := e)
    (2 * (r + 1 - l).toNat + 1) (by dsimp only [startSearch]; omega)
    (fun _ => by dsimp only [startSearch]; omega) rfl covers increases low high found
  obtain ⟨state, rightLe, next, splits⟩ := comes
  simp only [startSearch] at state rightLe next splits
  have covers' : Covers stabs e met.r := covers.mono low rightLe
  have increases' : Increases stabs type e met.r := increases.mono low rightLe
  have notEmpty : ¬∀ i, l ≤ i → i ≤ r → entry stabs type i = none := by
    intro empty
    rw [empty e low high] at found
    cases found
  by_cases room : addr.toNat + 1 < 2 ^ 32
  · by_cases missing : ∀ i, e ≤ i → i ≤ met.r → entry stabs type i ≠ some (addr.toNat + 1)
    · -- the next address is not met: the region is that of the stab
      obtain ⟨final, searched, seen, leftEq, within, le, edge, alone⟩ :=
        state.search_ends room rest left covers' increases' missing
      obtain ⟨region, result, leR, aloneR, start, _⟩ := stabBinsearch_of_seen (went.trans searched)
        seen (covers.mono (by omega) (by omega))
      have own : region = e := by
        rcases start (by omega) with same | ⟨after, v, foundR⟩
        · omega
        · rw [alone region (by omega) leR] at foundR
          cases foundR
      refine ⟨_, result, iff_of_true (.inl ⟨e, isLast_of_found increases low high found, own,
        within, le.trans rightLe, alone, ?_⟩) (.inr ⟨⟨e, _, low, high, found, le_rfl⟩, ?_⟩)⟩
      · rcases edge with same | further
        · rw [same]
          exact next
        · exact .inr further
      · intro e₂ low₂ high₂ found₂
        obtain rfl := increases.eq_of_eq low₂ high₂ low high found₂ found
        refine ⟨room, fun e' after high' found' => .inl ?_⟩
        rw [← splits e' after high' (by rw [found']; exact Option.some_ne_none _) ?_]
        · exact fun inside => missing e' after.le inside found'
        · intro i afterI beforeI
          cases foundI : entry stabs type i with
          | none => rfl
          | some v =>
              have := increases e₂ i _ v low₂ afterI (by omega) found₂ foundI
              have := increases i e' v _ (by omega) beforeI high' foundI found'
              omega
    · push Not at missing
      obtain ⟨e', low', high', found'⟩ := missing
      have nextAddr := state.next_toNat room
      have l' := state.l
      have after : e < e' :=
        increases'.lt_of_lt state.inside low' state.found found' (Nat.lt_succ_self _)
      have apart : ∀ i, e < i → i < e' → entry stabs type i = none := by
        intro i afterI beforeI
        cases foundI : entry stabs type i with
        | none => rfl
        | some v =>
            have := increases e i _ v low afterI (by omega) found foundI
            have := increases i e' v _ (by omega) beforeI (by omega) foundI found'
            omega
      have split : Splits stabs type e e' l r :=
        (splits e' after (by omega) (by rw [found']; exact Option.some_ne_none _) apart).mp high'
      obtain ⟨rest', met', went', comes', left'⟩ := search_comes (e := e') rest (by omega)
        (fun same => by omega) state.right (l' ▸ covers') (l' ▸ increases') (by omega) high'
        (nextAddr ▸ found')
      have covers₂ : Covers stabs e' met'.r := covers'.mono after.le comes'.right_le
      have increases₂ : Increases stabs type e' met'.r :=
        increases'.mono after.le comes'.right_le
      by_cases room' : met.addr.toNat + 1 < 2 ^ 32
      · -- the stab at the next address is met as well, and is not cut off again
        obtain ⟨final, searched, seen, within, leftLe, le⟩ :=
          comes'.toMet.search_keeps room' rest' left' covers₂ increases₂
        have rightLe' := comes'.right_le
        obtain ⟨region, result, leR, aloneR, _⟩ :=
          stabBinsearch_of_seen ((went.trans went').trans searched) seen
            (covers.mono (by omega) (by omega))
        refine ⟨_, result, iff_of_false (not_located increases low high found leR ?_) ?_⟩
        · intro _ _ alone
          rw [alone e' after within] at found'
          cases found'
        · rintro (empty | ⟨_, good⟩)
          · exact notEmpty empty
          · rcases (good e low high found).2 e' after (by omega) found' with apart' | ⟨edge, _⟩
            · exact apart' split
            · omega
      · -- the next address is the greatest one
        have bound := met.addr.toNat_lt
        obtain ⟨final, searched, seen, leftEq, rightEq⟩ :=
          comes'.toMet.search_wraps (by omega) rest' left' covers₂ increases₂
        obtain ⟨region, result, _, _, _, cut⟩ :=
          stabBinsearch_of_seen ((went.trans went').trans searched) seen
            (fun i above below => by omega)
        have own : region = e' - 1 := (cut (by omega)).trans rightEq
        refine ⟨_, result, ?_⟩
        by_cases neighbours : e' = e + 1
        · refine iff_of_true (.inl ⟨e, isLast_of_found increases low high found, by omega, ?_⟩)
            (.inr ⟨⟨e, _, low, high, found, le_rfl⟩, ?_⟩)
          · dsimp only
            refine ⟨by omega, by omega, fun i afterI beforeI => by omega,
              .inr ⟨addr.toNat + 1, ?_⟩⟩
            rw [rightEq, Int.sub_add_cancel]
            exact found'
          · intro e₂ low₂ high₂ found₂
            obtain rfl := increases.eq_of_eq low₂ high₂ low high found₂ found
            refine ⟨room, fun e'' after'' high'' found'' => .inr ⟨by omega, ?_⟩⟩
            exact (increases.eq_of_eq (by omega) high'' (by omega) (by omega) found''
              found').trans neighbours
        · refine iff_of_false (not_located increases low high found (by dsimp only; omega) ?_) ?_
          · dsimp only
            omega
          · rintro (empty | ⟨_, good⟩)
            · exact notEmpty empty
            · rcases (good e low high found).2 e' after (by omega) found' with apart' | ⟨_, edge⟩
              · exact apart' split
              · exact neighbours edge
  · -- the address is the greatest one
    have bound := addr.toNat_lt
    obtain ⟨final, searched, seen, leftEq, rightEq⟩ :=
      state.search_wraps (by omega) rest left covers' increases'
    obtain ⟨region, result, _, _, _, cut⟩ := stabBinsearch_of_seen (went.trans searched) seen
      (fun i above below => by omega)
    have own : region = e - 1 := (cut (by omega)).trans rightEq
    refine ⟨_, result, iff_of_false (not_located increases low high found (by dsimp only; omega)
      ?_) ?_⟩
    · dsimp only
      omega
    · rintro (empty | ⟨_, good⟩)
      · exact notEmpty empty
      · exact room (good e low high found).1

/-- The search returns, reads no stab outside of the range, and finds the region of the address
exactly where that is findable. -/
theorem stabBinsearch_located (stabs : Stabs) (type : UInt8) (l r : Int) (addr : UInt32)
    (range : l ≤ r + 1) (covers : Covers stabs l r) (increases : Increases stabs type l r) :
    ∃ region, stabBinsearch stabs l r type addr = .ok region ∧
      (Located stabs type l r addr region ↔ Findable stabs type l r addr) := by
  by_cases missing : ∀ i, l ≤ i → i ≤ r → entry stabs type i ≠ some addr.toNat
  · exact located_of_missing range covers increases missing
  · push Not at missing
    obtain ⟨e, low, high, found⟩ := missing
    exact located_of_found covers increases low high found

/-- `N_FUN`. -/
def nFun : UInt8 := 0x24

/-- Two functions, with the stab of a line between them. -/
def twoFunctions (i : Int) : Option Stab :=
  if i = 0 then some ⟨nFun, 0x100⟩
  else if i = 1 then some ⟨0x44, 0⟩
  else if i = 2 then some ⟨nFun, 0x140⟩
  else none

theorem twoFunctions_covers : Covers twoFunctions 0 2 := by
  intro i low high
  obtain rfl | rfl | rfl : i = 0 ∨ i = 1 ∨ i = 2 := by omega
  · exact ⟨_, rfl⟩
  · exact ⟨_, rfl⟩
  · exact ⟨_, rfl⟩

theorem twoFunctions_increases : Increases twoFunctions nFun 0 2 := by
  intro i j v w low before high foundI foundJ
  obtain ⟨rfl, rfl⟩ | rfl | rfl : (i = 0 ∧ j = 2) ∨ i = 1 ∨ j = 1 := by omega
  · cases foundI
    cases foundJ
    decide
  · cases foundI
  · cases foundJ

/-- The search for an address in the first function. -/
theorem stabBinsearch_located_twoFunctions :
    ∃ region, stabBinsearch twoFunctions 0 2 nFun 0x120 = .ok region ∧
      Located twoFunctions nFun 0 2 0x120 region := by
  obtain ⟨region, result, located⟩ := stabBinsearch_located twoFunctions nFun 0 2 0x120
    (by decide) twoFunctions_covers twoFunctions_increases
  refine ⟨region, result, located.mpr (.inr ⟨⟨0, 0x100, by decide, by decide, rfl, by decide⟩, ?_⟩)⟩
  intro e low high found
  obtain rfl | rfl | rfl : e = 0 ∨ e = 1 ∨ e = 2 := by omega
  · cases found
  · cases found
  · cases found

/-- An address in front of the first function is taken to be in a region that begins where the
search began. -/
theorem stabBinsearch_before_first :
    ¬∀ (stabs : Stabs) (type : UInt8) (l r : Int) (addr : UInt32), l ≤ r + 1 →
      Covers stabs l r → Increases stabs type l r →
      ∃ region, stabBinsearch stabs l r type addr = .ok region ∧
        Located stabs type l r addr region := by
  intro all
  obtain ⟨region, result, located⟩ := all twoFunctions nFun 1 2 0x120 (by decide)
    (twoFunctions_covers.mono (by decide) le_rfl)
    (twoFunctions_increases.mono (by decide) le_rfl)
  have first : stabBinsearch twoFunctions 1 2 nFun 0x120 = .ok (1, 1) := by decide +kernel
  cases first.symm.trans result
  rcases located with ⟨j, ⟨low, high, ⟨v, found, beneath⟩, _⟩, rfl, _⟩ | ⟨_, empty⟩
  · cases found
  · exact absurd empty (by decide)

end EdfKernel.Debug
