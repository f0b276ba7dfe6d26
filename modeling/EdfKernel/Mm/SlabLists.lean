import EdfKernel.Mm.SlabInvariant
import Mathlib.Algebra.BigOperators.Ring.Finset
import Mathlib.Algebra.BigOperators.Ring.List

/-!
# The lists and the sizes of slabs

Slabs move between the two lists of their cache when the last of their places is taken and when
the first is put back.  What `slab_allocated` adds up, less the `slab_t`s that lie in objects, is
what clients use.
-/

namespace EdfKernel.Mm.Slab

open Library

namespace Slabs

variable {s s' : Slabs} {base hand : Nat → Bool} {live : Addr → Option Owner} {c c' : Cachep}
  {slabp t : Addr} {fresh : Option Addr}

/-! ## Moves between lists -/

/-- The slabs of the other caches are in their lists as before. -/
structure Moves (s s' : Slabs) (c : Cachep) (l : List Addr) : Prop where
  slabs : s'.slabs c = l
  other : ∀ c', c' ≠ c → s'.slabsFull c' = s.slabsFull c' ∧ s'.slabsNotfull c' = s.slabsNotfull c'

theorem addFull_moves : s.Moves ((s.listDel c slabp).addFull c slabp) c
    (slabp :: ((s.slabsFull c).erase slabp ++ (s.slabsNotfull c).erase slabp)) := by
  refine ⟨?_, fun c' ne => ?_⟩
  · simp [Slabs.slabs, addFull, listDel]
  · simp [addFull, listDel, Function.update_of_ne ne]

theorem addNotfull_moves : s.Moves ((s.listDel c slabp).addNotfull c slabp) c
    ((s.slabsFull c).erase slabp ++ slabp :: (s.slabsNotfull c).erase slabp) := by
  refine ⟨?_, fun c' ne => ?_⟩
  · simp [Slabs.slabs, addNotfull, listDel]
  · simp [addNotfull, listDel, Function.update_of_ne ne]

/-- The two lists without a slab of theirs. -/
theorem erase_append (nodup : (s.slabs c).Nodup) :
    (s.slabsFull c).erase slabp ++ (s.slabsNotfull c).erase slabp = (s.slabs c).erase slabp := by
  by_cases full : slabp ∈ s.slabsFull c
  · have notThere : slabp ∉ s.slabsNotfull c := fun there =>
      List.disjoint_of_nodup_append nodup full there
    rw [slabs, List.erase_append_left _ full, List.erase_of_not_mem notThere]
  · rw [slabs, List.erase_append_right _ full, List.erase_of_not_mem full]

/-- A slab that moves within its cache keeps the slabs together. -/
theorem Moves.perm {l : List Addr} (moves : s.Moves s' c l) (nodup : (s.slabs c).Nodup)
    (mem : slabp ∈ s.slabs c)
    (isPerm : l.Perm (slabp :: ((s.slabsFull c).erase slabp ++ (s.slabsNotfull c).erase slabp)))
    (c' : Cachep) : (s'.slabs c').Perm (s.slabs c') := by
  by_cases own : c' = c
  · rw [own, moves.slabs]
    rw [erase_append nodup] at isPerm
    exact isPerm.trans (List.perm_cons_erase mem).symm
  · have same : s'.slabs c' = s.slabs c' := by
      rw [Slabs.slabs, (moves.other c' own).1, (moves.other c' own).2, Slabs.slabs]
    rw [same]

theorem addFull_perm (nodup : (s.slabs c).Nodup) (mem : slabp ∈ s.slabs c) (c' : Cachep) :
    (((s.listDel c slabp).addFull c slabp).slabs c').Perm (s.slabs c') :=
  addFull_moves.perm nodup mem (.refl _) c'

theorem addNotfull_perm (nodup : (s.slabs c).Nodup) (mem : slabp ∈ s.slabs c) (c' : Cachep) :
    (((s.listDel c slabp).addNotfull c slabp).slabs c').Perm (s.slabs c') :=
  addNotfull_moves.perm nodup mem List.perm_middle c'

/-! ## Sizes -/

/-- The objects in use of a cache. -/
def inuseOf (s : Slabs) (c : Cachep) : Nat := ((s.slabs c).map fun t => (s.slab t).inuse).sum

/-- The bytes of the `slab_t`s of a cache that lie in objects. -/
def controlOf (s : Slabs) (c : Cachep) : Nat :=
  if (s.cache c).offSlab then (s.slabs c).length * (s.cache (s.cache c).slabCachep).objsize else 0

/-- The bytes in objects that clients use. -/
def clientTotal (s : Slabs) : Int :=
  ∑ c ∈ Finset.range slabCacheNum, (((s.inuseOf c * (s.cache c).objsize : Nat) : Int) - s.controlOf c)

/-- The slabs that are full are those whose places are all in use. -/
theorem Filed.mem_full (filed : s.Filed) (mem : t ∈ s.slabs c) :
    t ∈ s.slabsFull c ↔ (s.slab t).inuse = (s.cache c).num := by
  constructor
  · exact filed.full c t
  · intro all
    rcases List.mem_append.mp mem with full | notfull
    · exact full
    · exact absurd all (filed.notfull c t notfull).ne

/-- What `slab_allocated` returns. -/
theorem Filed.slabAllocated (filed : s.Filed) : (s.slabAllocated : Int) =
    s.clientTotal + ∑ c ∈ Finset.range slabCacheNum, (s.controlOf c : Int) := by
  have each : ∀ c, ((s.slabsFull c).map fun _ => (s.cache c).num * (s.cache c).objsize).sum +
      ((s.slabsNotfull c).map fun slabp => (s.slab slabp).inuse * (s.cache c).objsize).sum =
      s.inuseOf c * (s.cache c).objsize := by
    intro c
    have full : ((s.slabsFull c).map fun _ => (s.cache c).num * (s.cache c).objsize) =
        (s.slabsFull c).map fun t => (s.slab t).inuse * (s.cache c).objsize :=
      List.map_congr_left fun t mem => by rw [filed.full c t mem]
    rw [full, inuseOf, slabs, List.map_append, List.sum_append, Nat.add_mul,
      List.sum_map_mul_right, List.sum_map_mul_right]
  have total : s.slabAllocated =
      ∑ c ∈ Finset.range slabCacheNum, s.inuseOf c * (s.cache c).objsize := by
    rw [Slabs.slabAllocated, funext each]
    rfl
  rw [total, clientTotal, ← Finset.sum_add_distrib, Nat.cast_sum]
  exact Finset.sum_congr rfl fun c _ => by omega

/-- What one cache adds to the bytes that clients use. -/
theorem clientTotal_eq_add {n : Int} (known : c < slabCacheNum)
    (here : ((s'.inuseOf c * (s'.cache c).objsize : Nat) : Int) - s'.controlOf c =
      ((s.inuseOf c * (s.cache c).objsize : Nat) : Int) - s.controlOf c + n)
    (other : ∀ c', c' ≠ c → s'.inuseOf c' = s.inuseOf c' ∧ s'.controlOf c' = s.controlOf c')
    (cache : s'.cache = s.cache) : s'.clientTotal = s.clientTotal + n := by
  have mem := Finset.mem_range.mpr known
  have rest : ∑ c' ∈ (Finset.range slabCacheNum).erase c,
      (((s'.inuseOf c' * (s'.cache c').objsize : Nat) : Int) - s'.controlOf c') =
      ∑ c' ∈ (Finset.range slabCacheNum).erase c,
        (((s.inuseOf c' * (s.cache c').objsize : Nat) : Int) - s.controlOf c') := by
    apply Finset.sum_congr rfl
    intro c' there
    obtain ⟨inuse, control⟩ := other c' (Finset.ne_of_mem_erase there)
    rw [inuse, control, cache]
  rw [clientTotal, clientTotal, ← Finset.add_sum_erase _ _ mem, ← Finset.add_sum_erase _ _ mem,
    rest, here]
  omega

theorem inuseOf_eq (perm : (s'.slabs c).Perm (s.slabs c)) :
    s'.inuseOf c = ((s.slabs c).map fun t => (s'.slab t).inuse).sum :=
  (perm.map _).sum_eq

theorem controlOf_eq (perm : (s'.slabs c).Perm (s.slabs c)) (cache : s'.cache = s.cache) :
    s'.controlOf c = s.controlOf c := by
  rw [controlOf, controlOf, cache, perm.length_eq]

/-- One slab at work changes what clients use by its own objects. -/
theorem Works.clientTotal_eq (works : s.Works s' slabp)
    (perm : ∀ c', (s'.slabs c').Perm (s.slabs c')) (nodup : (s.slabs c).Nodup)
    (mem : slabp ∈ s.slabs c) (known : c < slabCacheNum)
    (only : ∀ c', slabp ∈ s.slabs c' → c' = c) :
    s'.clientTotal = s.clientTotal +
      (((s'.slab slabp).inuse : Int) - (s.slab slabp).inuse) * (s.cache c).objsize := by
  have others : ∀ l : List Addr, slabp ∉ l →
      (l.map fun t => (s'.slab t).inuse) = l.map fun t => (s.slab t).inuse := by
    intro l notThere
    apply List.map_congr_left
    intro t there
    rw [works.other t]
    rintro rfl
    exact notThere there
  apply clientTotal_eq_add known
  · have first := List.perm_cons_erase mem
    have here : s'.inuseOf c + (s.slab slabp).inuse = s.inuseOf c + (s'.slab slabp).inuse := by
      rw [inuseOf_eq (perm c), inuseOf, (first.map _).sum_eq,
        (first.map fun t => (s.slab t).inuse).sum_eq, List.map_cons, List.map_cons, List.sum_cons,
        List.sum_cons, others _ fun there => (nodup.mem_erase_iff.mp there).1 rfl]
      omega
    have here' : (s'.inuseOf c : Int) = s.inuseOf c +
        (((s'.slab slabp).inuse : Int) - (s.slab slabp).inuse) := by omega
    rw [controlOf_eq (perm c) works.cache, works.cache, Nat.cast_mul, Nat.cast_mul, here',
      Int.add_mul]
    omega
  · intro c' ne
    refine ⟨?_, controlOf_eq (perm c') works.cache⟩
    rw [inuseOf_eq (perm c'), others _ fun there => ne (only c' there), inuseOf]
  · exact works.cache

/-- The slabs other than the one at work stay filed, and it is filed where it belongs. -/
theorem Works.filed (works : s.Works s' slabp) (filed : s.Filed)
    (perm : ∀ c', (s'.slabs c').Perm (s.slabs c'))
    (full : ∀ c', ∀ t ∈ s'.slabsFull c', t ≠ slabp ∧ t ∈ s.slabsFull c' ∨
      t = slabp ∧ (s'.slab slabp).inuse = (s.cache c').num)
    (notfull : ∀ c', ∀ t ∈ s'.slabsNotfull c', t ≠ slabp ∧ t ∈ s.slabsNotfull c' ∨
      t = slabp ∧ (s'.slab slabp).inuse < (s.cache c').num) : s'.Filed := by
  refine ⟨fun c' => (perm c').nodup_iff.mpr (filed.nodup c'), fun c' t mem => ?_,
    fun c' t mem => ?_⟩
  · rw [works.cache]
    rcases full c' t mem with ⟨ne, there⟩ | ⟨rfl, whole⟩
    · rw [works.other t ne]
      exact filed.full c' t there
    · exact whole
  · rw [works.cache]
    rcases notfull c' t mem with ⟨ne, there⟩ | ⟨rfl, room⟩
    · rw [works.other t ne]
      exact filed.notfull c' t there
    · exact room

/-- A slab that is put at the front of one list, after it has been taken out. -/
theorem mem_update_cons_erase {lists : Cachep → List Addr} (nodup : (lists c).Nodup)
    (only : ∀ c', slabp ∈ lists c' → c' = c)
    (mem : t ∈ Function.update lists c (slabp :: (lists c).erase slabp) c') :
    t ≠ slabp ∧ t ∈ lists c' ∨ t = slabp ∧ c' = c := by
  by_cases own : c' = c
  · subst own
    rw [Function.update_self, List.mem_cons, nodup.mem_erase_iff] at mem
    tauto
  · rw [Function.update_of_ne own] at mem
    refine .inl ⟨?_, mem⟩
    rintro rfl
    exact own (only c' mem)

theorem mem_update_erase {lists : Cachep → List Addr} (nodup : (lists c).Nodup)
    (only : ∀ c', slabp ∈ lists c' → c' = c) :
    t ∈ Function.update lists c ((lists c).erase slabp) c' ↔ t ∈ lists c' ∧ t ≠ slabp := by
  by_cases own : c' = c
  · subst own
    rw [Function.update_self, nodup.mem_erase_iff, and_comm]
  · rw [Function.update_of_ne own]
    refine ⟨fun mem => ⟨mem, ?_⟩, And.left⟩
    rintro rfl
    exact own (only c' mem)

end Slabs

end EdfKernel.Mm.Slab
