import EdfKernel.Library.Tally
import EdfKernel.Mm.AreaFrames

/-!
# Areas and the segments they share

The areas in use, wherever they are linked in, and the segments make a ledger.  It is sound when
every shared area lies within a segment and every segment counts the areas that share it.  What
the functions of `vmm.c` enter in the ledger keeps it sound.
-/

namespace EdfKernel.Mm

open Library

/-- The areas in use, without the address spaces they belong to, and the segments. -/
structure Ledger where
  area : VmaPtr → Option VmaStruct
  segment : ShmemPtr → Option ShmemStruct

namespace VmaStruct

/-- An area without the address space it belongs to. -/
def loose (a : VmaStruct) : VmaStruct :=
  { a with vmMm := 0 }

/-- The segment that an area refers to, if it does. -/
def refers (a : Option VmaStruct) : Multiset ShmemPtr :=
  (a.bind VmaStruct.shmem).elim 0 fun s => {s}

/-- An area refers to a segment only when it is shared, and the segment is there. -/
structure Links (a : VmaStruct) (segment : ShmemPtr → Option ShmemStruct) : Prop where
  plain : has a.vmFlags vmShare = false → a.shmem = none
  there : ∀ s, a.shmem = some s → ∃ t, segment s = some t

/-- A shared area lies within its segment. -/
def Within (a : VmaStruct) (segment : ShmemPtr → Option ShmemStruct) : Prop :=
  has a.vmFlags vmShare = true → ∃ s t, a.shmem = some s ∧ segment s = some t ∧
    a.shmemOff + (a.vmEnd - a.vmStart) ≤ t.len

variable {a b : VmaStruct} {s : ShmemPtr} {t : ShmemStruct}
  {segment segment' : ShmemPtr → Option ShmemStruct}

theorem refers_of_some (shmem : a.shmem = some s) : refers (some a) = {s} := by
  simp [refers, shmem]

theorem refers_of_none (shmem : a.shmem = none) : refers (some a) = 0 := by
  simp [refers, shmem]

theorem refers_of_shmem (same : b.shmem = a.shmem) : refers (some b) = refers (some a) := by
  simp [refers, same]

theorem Links.of_none (shmem : a.shmem = none) : a.Links segment := by
  refine ⟨fun _ => shmem, fun s isShmem => ?_⟩
  rw [shmem] at isShmem
  cases isShmem

theorem Links.is_shared (links : a.Links segment) (shmem : a.shmem = some s) :
    has a.vmFlags vmShare = true := by
  by_contra notShared
  rw [links.plain (Bool.not_eq_true _ ▸ notShared)] at shmem
  cases shmem

theorem within_of_plain (plain : has a.vmFlags vmShare = false) : a.Within segment := by
  intro shared
  rw [plain] at shared
  cases shared

/-- Segments may change, but not the length of the area's own. -/
theorem Within.mono (within : a.Within segment)
    (kept : ∀ s t, a.shmem = some s → segment s = some t → ∃ t', segment' s = some t' ∧
      t'.len = t.len) : a.Within segment' := by
  intro shared
  obtain ⟨s, t, shmem, there, inside⟩ := within shared
  obtain ⟨t', there', len⟩ := kept s t shmem there
  exact ⟨s, t', shmem, there', len ▸ inside⟩

end VmaStruct

open VmaStruct (refers refers_of_some)

namespace Ledger

/-- The segment that an area in use refers to, if it does. -/
def held (l : Ledger) (v : VmaPtr) : Multiset ShmemPtr :=
  refers (l.area v)

def setArea (l : Ledger) (v : VmaPtr) (a : Option VmaStruct) : Ledger :=
  { l with area := Function.update l.area v a }

def setSegment (l : Ledger) (s : ShmemPtr) (t : Option ShmemStruct) : Ledger :=
  { l with segment := Function.update l.segment s t }

/-- A segment that one area less shares: it goes with the last one. -/
def release (t : ShmemStruct) : Option ShmemStruct :=
  if t.shmemRef - 1 = 0 then none else some { t with shmemRef := t.shmemRef - 1 }

/-- Areas refer to segments that are there, and segments count them; `spare` is a segment that
nobody may share yet. -/
structure Tallied (l : Ledger) (spare : Option ShmemPtr) : Prop where
  sparse : Sparse l.held
  links : ∀ v a, l.area v = some a → a.Links l.segment
  counts : ∀ s t, l.segment s = some t → t.shmemRef = (tally l.held).count s
  shared : ∀ s t, l.segment s = some t → some s ≠ spare → s ∈ tally l.held

/-- Shared areas also lie within segments, of whole pages. -/
structure Sound (l : Ledger) (spare : Option ShmemPtr) : Prop extends Tallied l spare where
  within : ∀ v a, l.area v = some a → a.Within l.segment
  whole : ∀ s t, l.segment s = some t → t.len < 2 ^ 32 ∧ t.len % pgSize = 0

variable {l : Ledger} {v : VmaPtr} {s : ShmemPtr} {a b : VmaStruct} {t : ShmemStruct}
  {spare : Option ShmemPtr}

@[simp]
theorem area_setArea_self (l : Ledger) (v : VmaPtr) (a : Option VmaStruct) :
    (l.setArea v a).area v = a :=
  Function.update_self ..

theorem area_setArea_of_ne (l : Ledger) {w : VmaPtr} (a : Option VmaStruct) (other : w ≠ v) :
    (l.setArea v a).area w = l.area w :=
  Function.update_of_ne other ..

theorem setArea_setArea (l : Ledger) (v : VmaPtr) (a b : Option VmaStruct) :
    (l.setArea v a).setArea v b = l.setArea v b := by
  simp [setArea]

@[simp]
theorem area_setSegment (l : Ledger) (s : ShmemPtr) (t : Option ShmemStruct) :
    (l.setSegment s t).area = l.area :=
  rfl

@[simp]
theorem segment_setArea (l : Ledger) (v : VmaPtr) (a : Option VmaStruct) :
    (l.setArea v a).segment = l.segment :=
  rfl

@[simp]
theorem segment_setSegment_self (l : Ledger) (s : ShmemPtr) (t : Option ShmemStruct) :
    (l.setSegment s t).segment s = t :=
  Function.update_self ..

theorem segment_setSegment_of_ne (l : Ledger) {r : ShmemPtr} (t : Option ShmemStruct)
    (other : r ≠ s) : (l.setSegment s t).segment r = l.segment r :=
  Function.update_of_ne other ..

/-- A segment that has changed is changed back. -/
theorem setSegment_restore {x y : Option ShmemStruct} (there : l.segment s = y) :
    (l.setSegment s x).setSegment s y = l := by
  rw [← there]
  simp [setSegment]

/-- A segment after one of them has changed. -/
theorem segment_cases {x : Option ShmemStruct} {r : ShmemPtr} {u : ShmemStruct}
    (there : (l.setSegment s x).segment r = some u) :
    (r = s ∧ x = some u) ∨ (r ≠ s ∧ l.segment r = some u) := by
  by_cases own : r = s
  · subst own
    exact .inl ⟨rfl, (segment_setSegment_self ..).symm.trans there⟩
  · exact .inr ⟨own, (segment_setSegment_of_ne l x own).symm.trans there⟩

theorem held_setArea (l : Ledger) (v : VmaPtr) (a : Option VmaStruct) :
    (l.setArea v a).held = Function.update l.held v (refers a) := by
  funext w
  by_cases own : w = v
  · subst own
    rw [held, area_setArea_self, Function.update_self]
  · rw [held, area_setArea_of_ne l a own, Function.update_of_ne own, held]

@[simp]
theorem held_setSegment (l : Ledger) (s : ShmemPtr) (t : Option ShmemStruct) :
    (l.setSegment s t).held = l.held :=
  rfl

theorem mem_held_iff : s ∈ l.held v ↔ ∃ a, l.area v = some a ∧ a.shmem = some s := by
  unfold held refers
  cases l.area v with
  | none => simp
  | some a =>
      cases shmem : a.shmem with
      | none => simp [shmem]
      | some r => simp [shmem, eq_comm]

theorem count_held_le (l : Ledger) (s : ShmemPtr) (v : VmaPtr) : (l.held v).count s ≤ 1 := by
  unfold held refers
  cases (l.area v).bind VmaStruct.shmem with
  | none => simp
  | some r =>
      rw [Option.elim_some, Multiset.count_singleton]
      split <;> omega

/-- Where there is nothing yet. -/
theorem Sound.of_empty (noArea : ∀ v, l.area v = none) (noSegment : ∀ s, l.segment s = none) :
    l.Sound none := by
  have held : l.held = fun _ => 0 := by
    funext v
    rw [Ledger.held, noArea]
    rfl
  have sparse : Sparse l.held := held ▸ sparse_zero
  refine ⟨⟨sparse, fun v a there => ?_, fun s t there => ?_, fun s t there => ?_⟩,
    fun v a there => ?_, fun s t there => ?_⟩
  · cases (noArea v).symm.trans there
  · cases (noSegment s).symm.trans there
  · cases (noSegment s).symm.trans there
  · cases (noArea v).symm.trans there
  · cases (noSegment s).symm.trans there

theorem Tallied.mem_tally_iff (tallied : l.Tallied spare) :
    s ∈ tally l.held ↔ ∃ v a, l.area v = some a ∧ a.shmem = some s := by
  simp only [mem_tally tallied.sparse, mem_held_iff]

/-- A segment that is not there is shared by no area. -/
theorem Tallied.count_eq_zero (tallied : l.Tallied spare) (gone : l.segment s = none) :
    (tally l.held).count s = 0 := by
  rw [Multiset.count_eq_zero, tallied.mem_tally_iff]
  rintro ⟨v, a, there, shmem⟩
  obtain ⟨t, isSegment⟩ := (tallied.links v a there).there s shmem
  rw [gone] at isSegment
  cases isSegment

/-- The segment of an area. -/
theorem Sound.lies (sound : l.Sound spare) (isArea : l.area v = some a) (shmem : a.shmem = some s) :
    ∃ t, l.segment s = some t ∧ a.shmemOff + (a.vmEnd - a.vmStart) ≤ t.len := by
  obtain ⟨r, t, isShmem, there, inside⟩ :=
    sound.within v a isArea ((sound.links v a isArea).is_shared shmem)
  rw [shmem] at isShmem
  cases isShmem
  exact ⟨t, there, inside⟩

/-- An area is replaced by one that refers to the same segment. -/
theorem Tallied.replace {b : Option VmaStruct} (tallied : l.Tallied spare)
    (same : refers b = refers (l.area v)) (links : ∀ a ∈ b, a.Links l.segment) :
    (l.setArea v b).Tallied spare := by
  have held : (l.setArea v b).held = l.held := by
    rw [held_setArea, same]
    exact Function.update_eq_self v l.held
  refine ⟨held ▸ tallied.sparse, fun w a there => ?_, ?_, ?_⟩
  · by_cases own : w = v
    · subst own
      rw [area_setArea_self] at there
      exact links a there
    · rw [area_setArea_of_ne l b own] at there
      exact tallied.links w a there
  · rw [held]
    exact tallied.counts
  · rw [held]
    exact tallied.shared

theorem Sound.replace {b : Option VmaStruct} (sound : l.Sound spare)
    (same : refers b = refers (l.area v))
    (fits : ∀ a ∈ b, a.Links l.segment ∧ a.Within l.segment) : (l.setArea v b).Sound spare := by
  refine ⟨sound.toTallied.replace same fun a mem => (fits a mem).1, fun w a there => ?_, sound.whole⟩
  by_cases own : w = v
  · subst own
    rw [area_setArea_self] at there
    exact (fits a there).2
  · rw [area_setArea_of_ne l b own] at there
    exact sound.within w a there

/-- A segment changes, but is there as long as the area refers to it. -/
theorem Tallied.links_setSegment {x : Option ShmemStruct} {w : VmaPtr} (tallied : l.Tallied spare)
    (isArea : l.area w = some a) (kept : a.shmem = some s → ∃ t', x = some t') :
    a.Links (l.setSegment s x).segment := by
  refine ⟨(tallied.links w a isArea).plain, fun r isShmem => ?_⟩
  by_cases own : r = s
  · subst own
    rw [segment_setSegment_self]
    exact kept isShmem
  · rw [segment_setSegment_of_ne l x own]
    exact (tallied.links w a isArea).there r isShmem

/-- A segment changes, and not its length. -/
theorem Sound.within_setSegment {x : Option ShmemStruct} {w : VmaPtr} (sound : l.Sound spare)
    (isArea : l.area w = some a) (there : l.segment s = some t)
    (kept : a.shmem = some s → ∃ t', x = some t' ∧ t'.len = t.len) :
    a.Within (l.setSegment s x).segment := by
  refine (sound.within w a isArea).mono fun r u isShmem isSegment => ?_
  by_cases own : r = s
  · subst own
    rw [there] at isSegment
    cases isSegment
    rw [segment_setSegment_self]
    exact kept isShmem
  · exact ⟨u, (segment_setSegment_of_ne l x own).trans isSegment, rfl⟩

/-- A new area that shares a segment is counted. -/
theorem Tallied.take (tallied : l.Tallied spare) (isSpare : ∀ r ∈ spare, r = s)
    (free : l.area v = none) (there : l.segment s = some t) (shmem : b.shmem = some s)
    (shared : has b.vmFlags vmShare = true) :
    ((l.setArea v (some b)).setSegment s (some { t with shmemRef := t.shmemRef + 1 })).Tallied
      none := by
  have changed := tally_update tallied.sparse v (refers (some b))
  have empty : l.held v = 0 := by
    rw [held, free]
    rfl
  rw [← held_setArea, empty, add_zero, refers_of_some shmem] at changed
  refine ⟨?_, fun w a isArea => ?_, fun r u isSegment => ?_, fun r u isSegment _ => ?_⟩
  · rw [held_setSegment, held_setArea]
    exact tallied.sparse.update v _
  · by_cases own : w = v
    · subst own
      rw [area_setSegment, area_setArea_self] at isArea
      cases isArea
      refine ⟨fun plain => ?_, fun r isShmem => ?_⟩
      · rw [shared] at plain
        cases plain
      · rw [shmem] at isShmem
        cases isShmem
        exact ⟨_, segment_setSegment_self ..⟩
    · rw [area_setSegment, area_setArea_of_ne l _ own] at isArea
      exact tallied.links_setSegment isArea fun _ => ⟨_, rfl⟩
  · rw [held_setSegment, changed, Multiset.count_add, Multiset.count_singleton]
    rcases segment_cases isSegment with ⟨rfl, isNew⟩ | ⟨other, isOld⟩
    · cases isNew
      simp [tallied.counts r t there]
    · rw [if_neg other]
      exact tallied.counts r u isOld
  · rw [held_setSegment, changed, Multiset.mem_add, Multiset.mem_singleton]
    rcases segment_cases isSegment with ⟨own, _⟩ | ⟨other, isOld⟩
    · exact .inr own
    · exact .inl (tallied.shared r u isOld fun own => other (isSpare r own.symm))

theorem Sound.take (sound : l.Sound spare) (isSpare : ∀ r ∈ spare, r = s) (free : l.area v = none)
    (there : l.segment s = some t) (shmem : b.shmem = some s)
    (shared : has b.vmFlags vmShare = true)
    (inside : b.shmemOff + (b.vmEnd - b.vmStart) ≤ t.len) :
    ((l.setArea v (some b)).setSegment s (some { t with shmemRef := t.shmemRef + 1 })).Sound
      none := by
  refine ⟨sound.toTallied.take isSpare free there shmem shared, fun w a isArea => ?_,
    fun r u isSegment => ?_⟩
  · by_cases own : w = v
    · subst own
      rw [area_setSegment, area_setArea_self] at isArea
      cases isArea
      exact fun _ => ⟨s, _, shmem, segment_setSegment_self .., inside⟩
    · rw [area_setSegment, area_setArea_of_ne l _ own] at isArea
      exact sound.within_setSegment isArea there fun _ => ⟨_, rfl, rfl⟩
  · rcases segment_cases isSegment with ⟨_, isNew⟩ | ⟨_, isOld⟩
    · cases isNew
      exact sound.whole s t there
    · exact sound.whole r u isOld

theorem release_eq_some {u : ShmemStruct} (left : release t = some u) :
    t.shmemRef - 1 ≠ 0 ∧ u = { t with shmemRef := t.shmemRef - 1 } := by
  unfold release at left
  split at left
  · cases left
  · rename_i more
    exact ⟨more, (Option.some.inj left).symm⟩

/-- What is counted when an area that shares a segment is gone. -/
theorem Tallied.count_drop (tallied : l.Tallied spare) (isArea : l.area v = some a)
    (shmem : a.shmem = some s) (r : ShmemPtr) : (tally l.held).count r =
      (tally (l.setArea v none).held).count r + if r = s then 1 else 0 := by
  have changed := tally_update tallied.sparse v (refers none)
  have holds : l.held v = {s} := by
    rw [held, isArea]
    exact refers_of_some shmem
  rw [← held_setArea, holds] at changed
  change _ = tally l.held + 0 at changed
  rw [← add_zero (tally l.held), ← changed, Multiset.count_add, Multiset.count_singleton]

/-- A segment that another area shares is not gone with the first. -/
theorem Tallied.release_of_shared {w : VmaPtr} (tallied : l.Tallied spare)
    (isArea : l.area v = some a) (shmem : a.shmem = some s) (there : l.segment s = some t)
    (isB : (l.setArea v none).area w = some b) (isShmem : b.shmem = some s) :
    release t = some { t with shmemRef := t.shmemRef - 1 } := by
  have sparse : Sparse (l.setArea v none).held := by
    rw [held_setArea]
    exact tallied.sparse.update v _
  have counted : s ∈ tally (l.setArea v none).held :=
    (mem_tally sparse).mpr ⟨w, mem_held_iff.mpr ⟨b, isB, isShmem⟩⟩
  have positive := Multiset.count_pos.mpr counted
  have own := tallied.counts s t there
  rw [tallied.count_drop isArea shmem, if_pos rfl] at own
  refine if_neg ?_
  omega

/-- An area that shares a segment goes, and the segment with it when it was the last one. -/
theorem Tallied.drop (tallied : l.Tallied none) (isArea : l.area v = some a)
    (shmem : a.shmem = some s) (there : l.segment s = some t) :
    ((l.setArea v none).setSegment s (release t)).Tallied none := by
  have count := tallied.count_drop isArea shmem
  have own := tallied.counts s t there
  rw [count, if_pos rfl] at own
  refine ⟨?_, fun w b isB => ?_, fun r u isSegment => ?_, fun r u isSegment _ => ?_⟩
  · rw [held_setSegment, held_setArea]
    exact tallied.sparse.update v _
  · rw [area_setSegment] at isB
    have other : w ≠ v := by
      rintro rfl
      rw [area_setArea_self] at isB
      cases isB
    exact tallied.links_setSegment (area_setArea_of_ne l none other ▸ isB) fun isShmem =>
      ⟨_, tallied.release_of_shared isArea shmem there isB isShmem⟩
  · rw [held_setSegment]
    rcases segment_cases isSegment with ⟨rfl, isNew⟩ | ⟨other, isOld⟩
    · obtain ⟨_, rfl⟩ := release_eq_some isNew
      change t.shmemRef - 1 = _
      omega
    · rw [tallied.counts r u isOld, count, if_neg other, add_zero]
  · rw [held_setSegment, ← Multiset.count_pos]
    rcases segment_cases isSegment with ⟨rfl, isNew⟩ | ⟨other, isOld⟩
    · obtain ⟨more, _⟩ := release_eq_some isNew
      omega
    · have before := Multiset.count_pos.mpr (tallied.shared r u isOld (by simp))
      rwa [count, if_neg other, add_zero] at before

theorem Sound.drop (sound : l.Sound none) (isArea : l.area v = some a) (shmem : a.shmem = some s)
    (there : l.segment s = some t) :
    ((l.setArea v none).setSegment s (release t)).Sound none := by
  refine ⟨sound.toTallied.drop isArea shmem there, fun w b isB => ?_, fun r u isSegment => ?_⟩
  · rw [area_setSegment] at isB
    have other : w ≠ v := by
      rintro rfl
      rw [area_setArea_self] at isB
      cases isB
    exact sound.within_setSegment (area_setArea_of_ne l none other ▸ isB) there fun isShmem =>
      ⟨_, sound.release_of_shared isArea shmem there isB isShmem, rfl⟩
  · rcases segment_cases isSegment with ⟨rfl, isNew⟩ | ⟨_, isOld⟩
    · obtain ⟨_, rfl⟩ := release_eq_some isNew
      exact sound.whole r t there
    · exact sound.whole r u isOld

/-- A segment is made that nobody shares. -/
theorem Tallied.make (tallied : l.Tallied none) (gone : l.segment s = none) (len : Nat) :
    (l.setSegment s (some ⟨len, 0⟩)).Tallied (some s) := by
  refine ⟨tallied.sparse, fun w a isArea => tallied.links_setSegment isArea fun _ => ⟨_, rfl⟩,
    fun r u isSegment => ?_, fun r u isSegment ne => ?_⟩
  · rw [held_setSegment]
    rcases segment_cases isSegment with ⟨rfl, isNew⟩ | ⟨_, isOld⟩
    · cases isNew
      rw [tallied.count_eq_zero gone]
      rfl
    · exact tallied.counts r u isOld
  · rcases segment_cases isSegment with ⟨rfl, _⟩ | ⟨_, isOld⟩
    · exact absurd rfl ne
    · exact tallied.shared r u isOld (by simp)

theorem Sound.make (sound : l.Sound none) (gone : l.segment s = none) {len : Nat}
    (whole : len < 2 ^ 32 ∧ len % pgSize = 0) : (l.setSegment s (some ⟨len, 0⟩)).Sound (some s) := by
  refine ⟨sound.toTallied.make gone len, fun w a isArea => ?_, fun r u isSegment => ?_⟩
  · refine (sound.within w a isArea).mono fun r u _ isSegment => ⟨u, ?_, rfl⟩
    refine (segment_setSegment_of_ne l _ ?_).trans isSegment
    rintro rfl
    rw [gone] at isSegment
    cases isSegment
  · rcases segment_cases isSegment with ⟨_, isNew⟩ | ⟨_, isOld⟩
    · cases isNew
      exact whole
    · exact sound.whole r u isOld

/-- A shared area has no segment. -/
def Cut (l : Ledger) : Prop :=
  ∃ v a, l.area v = some a ∧ has a.vmFlags vmShare = true ∧ a.shmem = none

/-- An area comes, or one changes and keeps its flags and its segment. -/
theorem Cut.setArea (cut : l.Cut) (kept : ∀ a, l.area v = some a →
    b.vmFlags = a.vmFlags ∧ b.shmem = a.shmem) : (l.setArea v (some b)).Cut := by
  obtain ⟨w, a, there, shared, noSegment⟩ := cut
  by_cases own : w = v
  · subst own
    obtain ⟨flags, shmem⟩ := kept a there
    exact ⟨w, b, area_setArea_self .., flags ▸ shared, shmem.trans noSegment⟩
  · exact ⟨w, a, (area_setArea_of_ne l _ own).trans there, shared, noSegment⟩

end Ledger

namespace VmaStruct

/-- What `vma_resize` makes of an area. -/
def resize (start stop : Nat) (a : VmaStruct) : VmaStruct :=
  { a with
    shmemOff := if has a.vmFlags vmShare then add32 a.shmemOff (start - a.vmStart) else a.shmemOff
    vmStart := start
    vmEnd := stop }

/-- What is left of an area: its addresses are at the same places of the segment. -/
structure Part (a b : VmaStruct) : Prop where
  flags : b.vmFlags = a.vmFlags
  shmem : b.shmem = a.shmem
  inside : a.vmStart ≤ b.vmStart ∧ b.vmEnd ≤ a.vmEnd
  off : has a.vmFlags vmShare = true → b.shmemOff = a.shmemOff + (b.vmStart - a.vmStart)

/-- The segment that an address of an area is in, and the place in it, as `do_pgfault` computes
them. -/
def place (a : VmaStruct) (addr : Nat) : Option (ShmemPtr × Nat) :=
  if has a.vmFlags vmShare then a.shmem.map fun s => (s, add32 (addr - a.vmStart) a.shmemOff)
  else none

variable {a b c : VmaStruct} {start stop addr : Nat} {segment : ShmemPtr → Option ShmemStruct}

theorem Part.refl (a : VmaStruct) : a.Part a :=
  ⟨rfl, rfl, ⟨le_rfl, le_rfl⟩, fun _ => by rw [Nat.sub_self, add_zero]⟩

theorem Part.trans (first : a.Part b) (second : b.Part c) : a.Part c := by
  refine ⟨second.flags.trans first.flags, second.shmem.trans first.shmem,
    ⟨first.inside.1.trans second.inside.1, second.inside.2.trans first.inside.2⟩, fun shared => ?_⟩
  rw [second.off (first.flags ▸ shared), first.off shared]
  have := first.inside.1
  have := second.inside.1
  omega

theorem Part.place (part : a.Part b) (from_ : b.vmStart ≤ addr) : b.place addr = a.place addr := by
  unfold VmaStruct.place
  rw [part.flags, part.shmem]
  split
  · rename_i shared
    have start : addr - b.vmStart + b.shmemOff = addr - a.vmStart + a.shmemOff := by
      have off := part.off shared
      have inside := part.inside.1
      omega
    rw [add32, add32, start]
  · rfl

/-- An area that `vma_resize` trims stays within its segment. -/
theorem Within.trim (within : a.Within segment) (whole : ∀ s t, segment s = some t → t.len < 2 ^ 32)
    (from_ : a.vmStart ≤ start) (less : start < stop) (upTo : stop ≤ a.vmEnd) :
    (a.resize start stop).Within segment ∧ a.Part (a.resize start stop) := by
  have off : has a.vmFlags vmShare = true → ∃ s t, a.shmem = some s ∧ segment s = some t ∧
      (a.resize start stop).shmemOff = a.shmemOff + (start - a.vmStart) ∧
        a.shmemOff + (a.vmEnd - a.vmStart) ≤ t.len := by
    intro shared
    obtain ⟨s, t, shmem, there, inside⟩ := within shared
    have short := whole s t there
    refine ⟨s, t, shmem, there, ?_, inside⟩
    simp only [resize, if_pos shared]
    exact Nat.mod_eq_of_lt (by omega)
  refine ⟨fun shared => ?_, rfl, rfl, ⟨from_, upTo⟩, fun shared => ?_⟩
  · obtain ⟨s, t, shmem, there, isOff, inside⟩ := off shared
    refine ⟨s, t, shmem, there, ?_⟩
    rw [isOff]
    change a.shmemOff + (start - a.vmStart) + (stop - start) ≤ t.len
    omega
  · obtain ⟨_, _, _, _, isOff, _⟩ := off shared
    exact isOff

end VmaStruct

namespace Ledger

variable {l : Ledger} {v : VmaPtr} {a : VmaStruct} {start stop : Nat} {spare : Option ShmemPtr}

/-- An area in use changes, and keeps its flags and its segment. -/
theorem Tallied.change {b : VmaStruct} (tallied : l.Tallied spare) (isArea : l.area v = some a)
    (flags : b.vmFlags = a.vmFlags) (shmem : b.shmem = a.shmem) :
    (l.setArea v (some b)).Tallied spare := by
  refine tallied.replace ?_ ?_
  · rw [isArea]
    exact VmaStruct.refers_of_shmem shmem
  · rintro _ ⟨⟩
    obtain ⟨plain, there⟩ := tallied.links v a isArea
    refine ⟨fun notShared => ?_, fun s isShmem => ?_⟩
    · rw [shmem]
      exact plain (flags ▸ notShared)
    · rw [shmem] at isShmem
      exact there s isShmem

/-- An area in use is trimmed. -/
theorem Sound.trim (sound : l.Sound spare) (isArea : l.area v = some a) (from_ : a.vmStart ≤ start)
    (less : start < stop) (upTo : stop ≤ a.vmEnd) :
    (l.setArea v (some (a.resize start stop))).Sound spare ∧ a.Part (a.resize start stop) := by
  obtain ⟨within, part⟩ := (sound.within v a isArea).trim (fun s t there => (sound.whole s t there).1)
    from_ less upTo
  refine ⟨⟨sound.toTallied.change isArea part.flags part.shmem, fun w b there => ?_, sound.whole⟩,
    part⟩
  by_cases own : w = v
  · subst own
    rw [area_setArea_self] at there
    cases there
    exact within
  · rw [area_setArea_of_ne l _ own] at there
    exact sound.within w b there

/-- An area without a segment comes, or changes. -/
theorem Tallied.enter (tallied : l.Tallied spare) (noSegment : a.shmem = none)
    (before : ∀ b ∈ l.area v, b.shmem = none) : (l.setArea v (some a)).Tallied spare := by
  refine tallied.replace ?_ ?_
  · rw [VmaStruct.refers_of_none noSegment]
    cases isArea : l.area v with
    | none => rfl
    | some b => rw [VmaStruct.refers_of_none (before b isArea)]
  · rintro _ ⟨⟩
    exact .of_none noSegment

/-- An area that is not shared comes, or changes. -/
theorem Sound.enter (sound : l.Sound spare) (plain : has a.vmFlags vmShare = false)
    (noSegment : a.shmem = none) (before : ∀ b ∈ l.area v, b.shmem = none) :
    (l.setArea v (some a)).Sound spare := by
  refine ⟨sound.toTallied.enter noSegment before, fun w b there => ?_, sound.whole⟩
  by_cases own : w = v
  · subst own
    rw [area_setArea_self] at there
    cases there
    exact VmaStruct.within_of_plain plain
  · rw [area_setArea_of_ne l _ own] at there
    exact sound.within w b there

/-- An area that is not shared goes. -/
theorem Tallied.leave (tallied : l.Tallied spare) (isArea : l.area v = some a)
    (plain : has a.vmFlags vmShare = false) : (l.setArea v none).Tallied spare := by
  refine tallied.replace ?_ (by rintro _ ⟨⟩)
  rw [isArea, VmaStruct.refers_of_none ((tallied.links v a isArea).plain plain)]
  rfl

theorem Sound.leave (sound : l.Sound spare) (isArea : l.area v = some a)
    (plain : has a.vmFlags vmShare = false) : (l.setArea v none).Sound spare := by
  refine ⟨sound.toTallied.leave isArea plain, fun w b there => ?_, sound.whole⟩
  have other : w ≠ v := by
    rintro rfl
    rw [area_setArea_self] at there
    cases there
  exact sound.within w b (area_setArea_of_ne l none other ▸ there)

end Ledger

namespace Vm

/-- The ledger of the areas in use and the segments that there are. -/
def ledger (vm : Vm) : Ledger where
  area v := if vm.vmaUsed v then some (vm.vma v).loose else none
  segment s := if vm.shmemUsed s then some (vm.shmem s) else none

variable {vm vm' : Vm} {mm : MmPtr} {v : VmaPtr} {addr len start stop : Nat} {flags : BitVec 32}

theorem ledger_area (vm : Vm) (v : VmaPtr) :
    vm.ledger.area v = if vm.vmaUsed v then some (vm.vma v).loose else none :=
  rfl

theorem ledger_segment (vm : Vm) (s : ShmemPtr) :
    vm.ledger.segment s = if vm.shmemUsed s then some (vm.shmem s) else none :=
  rfl

theorem ledger_area_of_used (used : vm.vmaUsed v = true) :
    vm.ledger.area v = some (vm.vma v).loose :=
  if_pos used

/-! ## Entries of the functions on areas -/

theorem ledger_modifyMm (vm : Vm) (mm : MmPtr) (change : MmStruct → MmStruct) :
    (vm.modifyMm mm change).ledger = vm.ledger :=
  rfl

theorem ledger_modifyVma {change : VmaStruct → VmaStruct}
    (loose : ∀ a, (change a).loose = change a.loose) :
    (vm.modifyVma v change).ledger = vm.ledger.setArea v ((vm.ledger.area v).map change) := by
  refine congrArg (Ledger.mk · vm.ledger.segment) (funext fun w => ?_)
  have used : (vm.modifyVma v change).vmaUsed = vm.vmaUsed := rfl
  by_cases own : w = v
  · subst own
    rw [Function.update_self, ledger_area, modifyVma_vma_self, used, loose]
    split <;> rfl
  · rw [Function.update_of_ne own, ledger_area, modifyVma_vma_of_ne _ _ own, used]

theorem ledger_modifyShmem {change : ShmemStruct → ShmemStruct} {s : ShmemPtr} :
    (vm.modifyShmem s change).ledger =
      vm.ledger.setSegment s ((vm.ledger.segment s).map change) := by
  refine congrArg (Ledger.mk vm.ledger.area) (funext fun r => ?_)
  by_cases own : r = s
  · subst own
    rw [Function.update_self, ledger_segment]
    simp only [modifyShmem, Function.update_self]
    split <;> rfl
  · rw [Function.update_of_ne own, ledger_segment]
    simp only [modifyShmem, Function.update_of_ne own]

/-- `kfree` of an area. -/
theorem ledger_freeVma (vm : Vm) (v : VmaPtr) :
    ({ vm with vmaUsed := Function.update vm.vmaUsed v false } : Vm).ledger =
      vm.ledger.setArea v none := by
  refine congrArg (Ledger.mk · vm.ledger.segment) (funext fun w => ?_)
  by_cases own : w = v
  · subst own
    simp
  · simp [own, ledger_area]

/-- `kfree` of a segment. -/
theorem ledger_freeShmem (vm : Vm) (s : ShmemPtr) :
    ({ vm with shmemUsed := Function.update vm.shmemUsed s false } : Vm).ledger =
      vm.ledger.setSegment s none := by
  refine congrArg (Ledger.mk vm.ledger.area) (funext fun r => ?_)
  by_cases own : r = s
  · subst own
    simp
  · simp [own, ledger_segment]

/-- `find_vma` enters nothing. -/
theorem ledger_findVma (vm : Vm) (mm : MmPtr) (addr : Nat) :
    (vm.findVma mm addr).2.ledger = vm.ledger := by
  unfold findVma
  simp only
  split
  · rfl
  · rfl

/-- `vma_create` enters an area that is not shared yet. -/
theorem ledger_vmaCreate (created : vm.vmaCreate start stop flags = (some v, vm')) :
    vm.ledger.area v = none ∧
      vm'.ledger = vm.ledger.setArea v (some ⟨0, start, stop, flags, none, 0⟩) := by
  unfold vmaCreate at created
  rcases answer : vm.kmalloc vm.vmaUsed with ⟨found, vm₁⟩
  obtain ⟨grants, rfl, notUsed⟩ := kmalloc_spec answer
  rw [answer] at created
  cases found with
  | none => cases created
  | some w =>
      cases created
      have free := notUsed v rfl
      refine ⟨if_neg (by simp [free]), ?_⟩
      refine congrArg (Ledger.mk · vm.ledger.segment) ?_
      funext w
      by_cases own : w = v
      · subst own
        simp [VmaStruct.loose]
      · simp [own, ledger]

theorem ledger_buildTree (built : vm.buildTree mm = .ok vm') : vm'.ledger = vm.ledger := by
  unfold buildTree at built
  split at built
  · split at built
    · rename_i vm₁ answer
      obtain ⟨grants, rfl, _⟩ := kmalloc_spec answer
      cases built
      rfl
    · rename_i address vm₁ answer
      obtain ⟨grants, rfl, _⟩ := kmalloc_spec answer
      obtain ⟨tree, _, result⟩ := bind_eq_ok_iff.mp built
      cases result
      rfl
  · cases built
    rfl

/-- `insert_vma_struct` links an area in and enters nothing. -/
theorem ledger_insertVmaStruct (inserted : vm.insertVmaStruct mm v = .ok vm') :
    vm'.ledger = vm.ledger := by
  unfold insertVmaStruct at inserted
  split at inserted
  · obtain ⟨⟨tree, prev⟩, _, rest⟩ := bind_eq_ok_iff.mp inserted
    simp only at rest
    split at rest
    · rw [ledger_buildTree rest, ledger_modifyMm]
      have area : (vm.modifyVma v fun a => { a with vmMm := mm }).ledger.area = vm.ledger.area := by
        funext w
        rw [ledger_area, ledger_area]
        by_cases own : w = v
        · subst own
          rw [modifyVma_vma_self]
          rfl
        · rw [modifyVma_vma_of_ne _ _ own]
          rfl
      exact congrArg (Ledger.mk · vm.ledger.segment) area
    · cases rest
  · cases inserted

theorem ledger_removeVmaStruct (removed : vm.removeVmaStruct mm v = .ok vm') :
    vm'.ledger = vm.ledger := by
  unfold removeVmaStruct at removed
  split at removed
  · obtain ⟨tree, _, result⟩ := bind_eq_ok_iff.mp removed
    cases result
    rfl
  · cases removed

theorem ledger_takeOut {fuel : Nat} {freeList : List VmaPtr} {result : List VmaPtr × Vm}
    (taken : takeOut mm stop fuel v freeList vm = .ok result) : result.2.ledger = vm.ledger := by
  induction fuel generalizing v freeList vm with
  | zero =>
      cases taken
      rfl
  | succ fuel ih =>
      unfold takeOut at taken
      split at taken
      · obtain ⟨vm₁, removed, rest⟩ := bind_eq_ok_iff.mp taken
        have first := ledger_removeVmaStruct removed
        split at rest
        · cases rest
          exact first
        · exact (ih rest).trans first
      · cases taken
        rfl

theorem ledger_vmaResize (resized : vm.vmaResize v start stop = .ok vm') :
    vm'.ledger = vm.ledger.setArea v ((vm.ledger.area v).map (VmaStruct.resize start stop)) ∧
      vm.lo v ≤ start ∧ start < stop ∧ stop ≤ vm.hi v := by
  unfold vmaResize at resized
  split at resized
  · rename_i inside
    cases resized
    exact ⟨ledger_modifyVma fun a => rfl, inside.2.2⟩
  · cases resized

end Vm

end EdfKernel.Mm
