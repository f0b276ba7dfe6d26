import EdfKernel.Library.Meets
import EdfKernel.Mm.SwapBooks
import EdfKernel.Mm.Tables
import Mathlib.Algebra.Order.Group.Multiset

/-!
# Accounts of frames and swap slots

The uses that frames and swap slots are put to.  A frame is free, or maps or caches a page, or is
set aside, or belongs to the kernel as a whole, and `ref` counts the entries that map it.
-/

namespace EdfKernel.Mm

open Library

/-- A use of a frame or of a swap slot. -/
inductive Use
  /-- an entry maps the frame -/
  | frame (f : Frame)
  /-- an entry holds the slot -/
  | entry (e : SwapEntry)
  /-- a page table is in the frame, and the frame is counted for that -/
  | whole (f : Frame)
  /-- the frame has been allocated and is counted for nothing: a page directory or a node of a
  segment is in it, or nothing yet -/
  | spare (f : Frame)
  deriving DecidableEq

/-- What an entry uses. -/
def Pte.uses : Pte → Multiset Use
  | .zero => 0
  | .present f _ => {.frame f}
  | .swapped e => {.entry e}

theorem Pte.frame_mem_uses {entry : Pte} {f : Frame} :
    .frame f ∈ entry.uses ↔ ∃ perm, entry = .present f perm := by
  cases entry <;> simp [uses, eq_comm]

theorem Pte.entry_mem_uses {entry : Pte} {e : SwapEntry} :
    .entry e ∈ entry.uses ↔ entry = .swapped e := by
  cases entry <;> simp [uses, eq_comm]

/-- The panics at a frame or a cached page that is not what it is taken for. -/
def Panic.Misuse (reason : Panic) : Prop :=
  reason = .freePage ∨ reason = .swapPage ∨ reason = .swapList ∨ reason = .reserved

/-- The frame is put to a use. -/
def Page.InUse (s : Page) (isFree : Bool) (frames spares wholes : Nat) : Prop :=
  isFree = true ∨ s.swap = true ∨ 0 < frames ∨ 0 < spares ∨ 0 < wholes

/-- A frame is used once, but for the entries that map it, and its descriptor agrees; it is used
unless it is `lost`. -/
structure Page.Fits (s : Page) (isFree : Bool) (frames spares wholes : Nat) (lost : Prop) :
    Prop where
  once : isFree.toNat + (if s.swap = true ∨ 0 < frames then 1 else 0) + spares + wholes ≤ 1
  counted : isFree = true ∨ s.swap = true ∨ 0 < frames ∨ 0 < spares → s.ref = frames
  kept : s.InUse isFree frames spares wholes → s.reserved = false ∧ ¬lost
  used : s.InUse isFree frames spares wholes ∨ lost

namespace Page.Fits

variable {s s' : Page} {isFree : Bool} {frames spares wholes : Nat} {lost : Prop}

/-- What is said of a frame that is free. -/
theorem of_free (fits : s.Fits true frames spares wholes lost) :
    s.swap = false ∧ frames = 0 ∧ spares = 0 ∧ wholes = 0 ∧ s.ref = 0 ∧ s.reserved = false ∧
      ¬lost := by
  obtain ⟨once, counted, kept, _⟩ := fits
  rw [Bool.toNat_true] at once
  have used : ¬(s.swap = true ∨ 0 < frames) := fun used => by
    rw [if_pos used] at once
    omega
  rw [not_or, Bool.not_eq_true] at used
  have none : frames = 0 := by omega
  refine ⟨used.1, none, by omega, by omega, ?_, kept (.inl rfl)⟩
  rw [counted (.inl rfl), none]
  rfl

/-- What is said of a frame that is mapped or cached. -/
theorem of_data (fits : s.Fits isFree frames spares wholes lost)
    (used : s.swap = true ∨ 0 < frames) :
    isFree = false ∧ spares = 0 ∧ wholes = 0 ∧ s.ref = frames ∧ s.reserved = false ∧ ¬lost := by
  obtain ⟨once, counted, kept, _⟩ := fits
  rw [if_pos used] at once
  refine ⟨?_, by omega, by omega, counted (.inr (used.imp_right .inl)),
    kept (.inr (used.imp_right .inl))⟩
  cases isFree with
  | false => rfl
  | true =>
      rw [Bool.toNat_true] at once
      omega

/-- What is said of a frame that has been set aside. -/
theorem of_spare (fits : s.Fits isFree frames (spares + 1) wholes lost) :
    isFree = false ∧ s.swap = false ∧ frames = 0 ∧ spares = 0 ∧ wholes = 0 ∧ s.ref = 0 ∧
      s.reserved = false ∧ ¬lost := by
  have used : ¬(s.swap = true ∨ 0 < frames) := fun used => by
    have none := (fits.of_data used).2.1
    omega
  obtain ⟨once, counted, kept, _⟩ := fits
  rw [not_or, Bool.not_eq_true] at used
  have none : frames = 0 := by omega
  refine ⟨?_, used.1, none, by omega, by omega, ?_,
    kept (.inr (.inr (.inr (.inl (Nat.succ_pos _)))))⟩
  · cases isFree with
    | false => rfl
    | true =>
        rw [Bool.toNat_true] at once
        omega
  · rw [counted (.inr (.inr (.inr (Nat.succ_pos _)))), none]
    rfl

/-- What is said of a frame that a page table is in. -/
theorem of_whole (fits : s.Fits isFree frames spares (wholes + 1) lost) :
    isFree = false ∧ s.swap = false ∧ frames = 0 ∧ spares = 0 ∧ wholes = 0 ∧
      s.reserved = false ∧ ¬lost := by
  have used : ¬(s.swap = true ∨ 0 < frames) := fun used => by
    have none := (fits.of_data used).2.2.1
    omega
  obtain ⟨once, counted, kept, _⟩ := fits
  rw [not_or, Bool.not_eq_true] at used
  refine ⟨?_, used.1, by omega, by omega, by omega,
    kept (.inr (.inr (.inr (.inr (Nat.succ_pos _)))))⟩
  cases isFree with
  | false => rfl
  | true =>
      rw [Bool.toNat_true] at once
      omega

/-- Nothing is asked of a frame that is used for nothing but is not free. -/
theorem of_lost (swap : s.swap = false) (isLost : lost) : s.Fits false 0 0 0 lost := by
  refine ⟨?_, ?_, ?_, .inr isLost⟩
  · simp [swap]
  · simp [swap]
  · simp [Page.InUse, swap]

theorem acquire (fits : s.Fits true frames spares wholes lost) :
    s.Fits false frames (spares + 1) wholes lost := by
  obtain ⟨swap, rfl, rfl, rfl, ref, kept⟩ := fits.of_free
  refine ⟨?_, fun _ => ref, fun _ => kept, .inl <| .inr (.inr (.inr (.inl (Nat.succ_pos _))))⟩
  simp [swap]

theorem vacate (kept : s.reserved = false ∧ ¬lost) :
    Fits { s with ref := 0, dirty := false, swap := false, active := false } true 0 0 0 lost := by
  refine ⟨?_, fun _ => rfl, fun _ => kept, .inl (.inl rfl)⟩
  simp

/-- The first entry maps a frame that was set aside. -/
theorem take (fits : s.Fits isFree frames (spares + 1) wholes lost) :
    Fits { s with ref := s.ref + 1 } isFree (frames + 1) spares wholes lost := by
  obtain ⟨rfl, swap, rfl, rfl, rfl, ref, kept⟩ := fits.of_spare
  refine ⟨?_, fun _ => ?_, fun _ => kept, .inl <| .inr (.inr (.inl (Nat.succ_pos _)))⟩
  · simp
  · simp [ref]

/-- One more entry maps a frame. -/
theorem share (fits : s.Fits isFree frames spares wholes lost)
    (used : s.swap = true ∨ 0 < frames) :
    Fits { s with ref := s.ref + 1 } isFree (frames + 1) spares wholes lost := by
  obtain ⟨rfl, rfl, rfl, ref, kept⟩ := fits.of_data used
  refine ⟨?_, fun _ => ?_, fun _ => kept, .inl <| .inr (.inr (.inl (Nat.succ_pos _)))⟩
  · simp
  · simp [ref]

/-- One entry less maps a frame that others map, or that is cached. -/
theorem drop (fits : s.Fits isFree (frames + 1) spares wholes lost)
    (used : s.swap = true ∨ 0 < frames) :
    Fits { s with ref := s.ref - 1 } isFree frames spares wholes lost := by
  obtain ⟨rfl, rfl, rfl, ref, kept⟩ := fits.of_data (.inr (Nat.succ_pos _))
  refine ⟨?_, fun _ => ?_, fun _ => kept, .inl <| .inr (used.imp_right .inl)⟩
  · simp only [Bool.toNat_false]
    split <;> omega
  · simp [ref]

/-- No entry maps a frame any more, and it is set aside. -/
theorem part (fits : s.Fits isFree 1 spares wholes lost) (swap : s.swap = false) :
    Fits { s with ref := s.ref - 1 } isFree 0 (spares + 1) wholes lost := by
  obtain ⟨rfl, rfl, rfl, ref, kept⟩ := fits.of_data (.inr Nat.one_pos)
  refine ⟨?_, fun _ => ?_, fun _ => kept, .inl <| .inr (.inr (.inr (.inl (Nat.succ_pos _))))⟩
  · simp [swap]
  · simp [ref]

/-- A frame that was set aside becomes a page table. -/
theorem build (fits : s.Fits isFree frames (spares + 1) wholes lost) (swap : s'.swap = s.swap)
    (reserved : s'.reserved = s.reserved) : s'.Fits isFree frames spares (wholes + 1) lost := by
  obtain ⟨rfl, swap', rfl, rfl, rfl, _, kept⟩ := fits.of_spare
  rw [swap'] at swap
  refine ⟨?_, ?_, fun _ => ⟨reserved.trans kept.1, kept.2⟩,
    .inl <| .inr (.inr (.inr (.inr (Nat.succ_pos _))))⟩
  · simp [swap]
  · simp [swap]

/-- A frame that was set aside caches a page. -/
theorem cache (fits : s.Fits isFree frames (spares + 1) wholes lost) (index : SwapEntry) :
    Fits { s with swap := true, index := index } isFree frames spares wholes lost := by
  obtain ⟨rfl, _, rfl, rfl, rfl, ref, kept⟩ := fits.of_spare
  refine ⟨?_, fun _ => ref, fun _ => kept, .inl <| .inr (.inl rfl)⟩
  simp

/-- A mapped page becomes a cached one. -/
theorem cacheMapped (fits : s.Fits isFree frames spares wholes lost) (mapped : 0 < frames)
    (index : SwapEntry) :
    Fits { s with swap := true, index := index } isFree frames spares wholes lost := by
  obtain ⟨rfl, rfl, rfl, ref, kept⟩ := fits.of_data (.inr mapped)
  refine ⟨?_, fun _ => ref, fun _ => kept, .inl <| .inr (.inl rfl)⟩
  simp

/-- A cached page that is mapped is not cached any more. -/
theorem uncache (fits : s.Fits isFree frames spares wholes lost) (mapped : 0 < frames) :
    Fits { s with swap := false } isFree frames spares wholes lost := by
  obtain ⟨rfl, rfl, rfl, ref, kept⟩ := fits.of_data (.inr mapped)
  refine ⟨?_, fun _ => ref, fun _ => kept, .inl <| .inr (.inr (.inl mapped))⟩
  simp only [Bool.toNat_false]
  split <;> omega

/-- A cached page that nothing maps is not cached any more, and is set aside. -/
theorem uncacheIdle (fits : s.Fits isFree 0 spares wholes lost) (swap : s.swap = true) :
    Fits { s with swap := false } isFree 0 (spares + 1) wholes lost := by
  obtain ⟨rfl, rfl, rfl, ref, kept⟩ := fits.of_data (.inl swap)
  refine ⟨?_, fun _ => ref, fun _ => kept, .inl <| .inr (.inr (.inr (.inl (Nat.succ_pos _))))⟩
  simp

end Page.Fits

namespace Pages

variable {p q : Pages} {lost : Frame → Prop} {s t : Multiset Use} {off : Option Frame}
  {f g : Frame} {e : SwapEntry}

/-- What is in hand when a frame may have been set aside. -/
def spares : Option Frame → Multiset Use
  | none => 0
  | some f => {.spare f}

/-- What refers to frames and slots: the page directories, page tables and segments, with the nodes
that the segments have cached. -/
def places (p : Pages) :
    ((MmPtr → Frame) × (MmPtr → Nat → Option Frame) × (Slot → Pte) × (ShmemPtr → List Shmn)) ×
      (ShmemPtr → Option Shmn) :=
  (p.tables, p.shmnCache)

/-- `free_page` of a frame that is neither free nor reserved. -/
def vacate (p : Pages) (f : Frame) : Pages :=
  { p.modify f fun s => { s with ref := 0, dirty := false, swap := false, active := false } with
    free := Function.update p.free f true }

theorem freePage_eq (taken : p.free f = false) (reserved : (p.page f).reserved = false) :
    p.freePage f = .ok (p.vacate f) :=
  if_neg (by simp [taken, reserved])

theorem pageRefDec_page_self :
    (p.pageRefDec f).page f = { p.page f with ref := (p.page f).ref - 1 } :=
  modify_page_self _

theorem vacate_page_self : (p.vacate f).page f =
    { p.page f with ref := 0, dirty := false, swap := false, active := false } := by
  rw [vacate, modify_page_self]

theorem vacate_page_of_ne (ne : g ≠ f) : (p.vacate f).page g = p.page g := by
  rw [vacate, modify_page_of_ne _ ne]

/-- The uses agree with the descriptors, `mem_map`, the hash and the lists; the page `off` is on no
list. -/
structure Accounts (p : Pages) (lost : Frame → Prop) (s : Multiset Use) (off : Option Frame) :
    Prop where
  fits : ∀ f, (p.page f).Fits (p.free f) (s.count (.frame f)) (s.count (.spare f))
    (s.count (.whole f)) (lost f)
  books : p.SwapBooks (fun e => s.count (.entry e)) off

namespace Accounts

/-- Only one frame, and what it is used for, has changed. -/
theorem of_frame {off' : Option Frame} (accounts : p.Accounts lost s off)
    (others : ∀ g, g ≠ f → q.page g = p.page g ∧ q.free g = p.free g)
    (uses : ∀ g, g ≠ f → t.count (.frame g) = s.count (.frame g) ∧
      t.count (.spare g) = s.count (.spare g) ∧ t.count (.whole g) = s.count (.whole g))
    (fits : (q.page f).Fits (q.free f) (t.count (.frame f)) (t.count (.spare f))
      (t.count (.whole f)) (lost f))
    (books : q.SwapBooks (fun e => t.count (.entry e)) off') : q.Accounts lost t off' := by
  refine ⟨fun g => ?_, books⟩
  by_cases own : g = f
  · rw [own]
    exact fits
  · obtain ⟨page, free⟩ := others g own
    obtain ⟨frames, spares, wholes⟩ := uses g own
    rw [page, free, frames, spares, wholes]
    exact accounts.fits g

/-- Neither the uses nor the books have changed, nor what is used of the descriptors. -/
theorem congr (accounts : p.Accounts lost s off) (book : q.book = p.book) (free : q.free = p.free)
    (same : ∀ f, (q.page f).ref = (p.page f).ref ∧ (q.page f).reserved = (p.page f).reserved ∧
      (q.page f).swap = (p.page f).swap ∧ (q.page f).index = (p.page f).index ∧
      (q.page f).active = (p.page f).active) : q.Accounts lost s off := by
  refine ⟨fun f => ?_, accounts.books.congr book fun f => ?_⟩
  · obtain ⟨ref, reserved, swap, _, _⟩ := same f
    obtain ⟨once, counted, kept, used⟩ := accounts.fits f
    refine ⟨?_, ?_, ?_, ?_⟩
    · rw [free, swap]
      exact once
    · rw [free, swap, ref]
      exact counted
    · rw [Page.InUse, free, swap, reserved]
      exact kept
    · rw [Page.InUse, free, swap]
      exact used
  · obtain ⟨_, _, swap, index, active⟩ := same f
    exact ⟨swap, fun _ => ⟨index, active⟩⟩

theorem withDirty (accounts : p.Accounts lost s off) (f : Frame) (dirty : Bool) :
    (p.modify f fun s => { s with dirty := dirty }).Accounts lost s off := by
  refine accounts.congr rfl rfl fun g => ?_
  by_cases own : g = f
  · rw [own, modify_page_self]
    exact ⟨rfl, rfl, rfl, rfl, rfl⟩
  · rw [modify_page_of_ne _ own]
    exact ⟨rfl, rfl, rfl, rfl, rfl⟩

theorem setPageDirty (accounts : p.Accounts lost s off) (f : Frame) :
    (p.setPageDirty f).Accounts lost s off :=
  accounts.withDirty f true

theorem writePte (accounts : p.Accounts lost s off) (slot : Slot) (entry : Pte) :
    (p.writePte slot entry).Accounts lost s off :=
  accounts.congr rfl rfl fun _ => ⟨rfl, rfl, rfl, rfl, rfl⟩

/-! ## Frames -/

theorem withGrants (accounts : p.Accounts lost s off) (grants : List (Option Frame)) :
    ({ p with grants := grants } : Pages).Accounts lost s off :=
  accounts.congr rfl rfl fun _ => ⟨rfl, rfl, rfl, rfl, rfl⟩

/-- `alloc_page` sets a frame aside. -/
theorem allocPage (accounts : p.Accounts lost s off) (answer : p.allocPage = (some f, q)) :
    q.Accounts lost (s + {.spare f}) off ∧ q.page = p.page := by
  obtain ⟨isFree, grants, rfl⟩ := allocPage_some answer
  have fits := accounts.fits f
  rw [isFree] at fits
  have books := accounts.books.congr (q := { p with
    free := Function.update p.free f false, grants := grants }) rfl (.refl p)
  refine ⟨accounts.of_frame (f := f) (fun g ne => ⟨rfl, Function.update_of_ne ne ..⟩)
    (fun g ne => ?_) ?_ ?_, rfl⟩
  · simp [ne]
  · simpa using fits.acquire
  · simpa using books

/-- A frame that was set aside, or one of the kernel, is freed. -/
theorem vacate {u : Use} (accounts : p.Accounts lost (s + {u}) off)
    (own : u = .spare f ∨ u = .whole f) :
    p.freePage f = .ok (p.vacate f) ∧ (p.vacate f).Accounts lost s off := by
  have fits := accounts.fits f
  have alone : p.free f = false ∧ (p.page f).swap = false ∧ ((p.page f).reserved = false ∧ ¬lost f) ∧
      s.count (.frame f) = 0 ∧ s.count (.spare f) = 0 ∧ s.count (.whole f) = 0 := by
    rcases own with rfl | rfl
    · rw [show (s + {Use.spare f}).count (.spare f) = s.count (.spare f) + 1 by simp] at fits
      obtain ⟨taken, swap, frames, spares, wholes, _, kept⟩ := fits.of_spare
      exact ⟨taken, swap, kept, by simpa using frames, spares, by simpa using wholes⟩
    · rw [show (s + {Use.whole f}).count (.whole f) = s.count (.whole f) + 1 by simp] at fits
      obtain ⟨taken, swap, frames, spares, wholes, kept⟩ := fits.of_whole
      exact ⟨taken, swap, kept, by simpa using frames, by simpa using spares, wholes⟩
  obtain ⟨taken, swap, kept, frames, spares, wholes⟩ := alone
  have books := accounts.books.congr (q := p.vacate f) rfl fun g => ?_
  · refine ⟨freePage_eq taken kept.1, accounts.of_frame (f := f)
      (fun g ne => ⟨vacate_page_of_ne ne, Function.update_of_ne ne ..⟩) (fun g ne => ?_) ?_ ?_⟩
    · rcases own with rfl | rfl
      · simp [ne]
      · simp [ne]
    · have isFree : (p.vacate f).free f = true := Function.update_self ..
      rw [frames, spares, wholes, isFree, vacate_page_self]
      exact .vacate kept
    · rcases own with rfl | rfl
      · simpa using books
      · simpa using books
  · by_cases own : g = f
    · rw [own, vacate_page_self, swap]
      exact ⟨rfl, fun isCached => by cases isCached⟩
    · rw [vacate_page_of_ne own]
      exact ⟨rfl, fun _ => ⟨rfl, rfl⟩⟩

/-- A frame that was set aside is freed. -/
theorem freeSpare (accounts : p.Accounts lost (s + {.spare f}) off) :
    p.freePage f = .ok (p.vacate f) ∧ (p.vacate f).Accounts lost s off :=
  accounts.vacate (.inl rfl)

/-- A frame that was set aside becomes a page table. -/
theorem build (accounts : p.Accounts lost (s + {.spare f}) off)
    (others : ∀ g, g ≠ f → q.page g = p.page g) (swap : (q.page f).swap = (p.page f).swap)
    (reserved : (q.page f).reserved = (p.page f).reserved) (free : q.free = p.free)
    (book : q.book = p.book) : q.Accounts lost (s + {.whole f}) off := by
  have fits := accounts.fits f
  rw [show (s + {Use.spare f}).count (.spare f) = s.count (.spare f) + 1 by simp] at fits
  have uncached := fits.of_spare.2.1
  have books := accounts.books.congr book fun g => ?_
  · refine accounts.of_frame (f := f) (fun g ne => ⟨others g ne, congrFun free g⟩)
      (fun g ne => ?_) ?_ ?_
    · simp [ne]
    · rw [free]
      simpa using fits.build swap reserved
    · simpa using books
  · by_cases own : g = f
    · rw [own, swap, uncached]
      exact ⟨rfl, fun isCached => by cases isCached⟩
    · rw [others g own]
      exact ⟨rfl, fun _ => ⟨rfl, rfl⟩⟩

/-! ## Entries that map a frame -/

/-- Only the count of entries has changed. -/
theorem of_ref {ref : Int} (accounts : p.Accounts lost s off)
    (uses : ∀ u, (∀ g, g = f → u ≠ .frame g ∧ u ≠ .spare g) → t.count u = s.count u)
    (fits : Page.Fits { p.page f with ref := ref } (p.free f) (t.count (.frame f))
      (t.count (.spare f)) (t.count (.whole f)) (lost f)) :
    (p.modify f fun s => { s with ref := ref }).Accounts lost t off := by
  have entries : (fun e => t.count (Use.entry e)) = fun e => s.count (.entry e) :=
    funext fun e => uses _ fun _ _ => ⟨by rintro ⟨⟩, by rintro ⟨⟩⟩
  refine accounts.of_frame (f := f) (fun g ne => ⟨modify_page_of_ne _ ne, rfl⟩)
    (fun g ne => ?_) ?_ ?_
  · refine ⟨uses _ ?_, uses _ ?_, uses _ fun _ _ => ⟨by rintro ⟨⟩, by rintro ⟨⟩⟩⟩
    · rintro g' rfl
      exact ⟨fun same => ne (Use.frame.inj same), by rintro ⟨⟩⟩
    · rintro g' rfl
      exact ⟨by rintro ⟨⟩, fun same => ne (Use.spare.inj same)⟩
  · rw [modify_page_self]
    exact fits
  · rw [entries]
    refine accounts.books.congr rfl fun g => ?_
    by_cases own : g = f
    · rw [own, modify_page_self]
      exact ⟨rfl, fun _ => ⟨rfl, rfl⟩⟩
    · rw [modify_page_of_ne _ own]
      exact ⟨rfl, fun _ => ⟨rfl, rfl⟩⟩

/-- The first entry maps a frame that was set aside. -/
theorem take (accounts : p.Accounts lost (s + {.spare f}) off) :
    (p.pageRefInc f).Accounts lost (s + {.frame f}) off := by
  have fits := accounts.fits f
  refine accounts.of_ref (fun u other => ?_) ?_
  · obtain ⟨notFrame, notSpare⟩ := other f rfl
    simp [notFrame, notSpare]
  · simpa using Page.Fits.take (by simpa using fits)

/-- One more entry maps a frame that is mapped or cached. -/
theorem share (accounts : p.Accounts lost s off) (used : (p.page f).swap = true ∨ .frame f ∈ s) :
    (p.pageRefInc f).Accounts lost (s + {.frame f}) off := by
  have fits := (accounts.fits f).share (used.imp_right Multiset.count_pos.mpr)
  refine accounts.of_ref (fun u other => ?_) ?_
  · obtain ⟨notFrame, notSpare⟩ := other f rfl
    simp [notFrame]
  · simpa using fits

/-- One entry less maps a frame that others map, or that is cached. -/
theorem drop (accounts : p.Accounts lost (s + {.frame f}) off)
    (used : (p.page f).swap = true ∨ .frame f ∈ s) : (p.pageRefDec f).Accounts lost s off := by
  have fits := accounts.fits f
  refine accounts.of_ref (fun u other => ?_) ?_
  · obtain ⟨notFrame, notSpare⟩ := other f rfl
    simp [notFrame]
  · simpa using Page.Fits.drop (by simpa using fits) (used.imp_right Multiset.count_pos.mpr)

/-- No entry maps a frame any more, and it is set aside. -/
theorem part (accounts : p.Accounts lost (s + {.frame f}) off) (swap : (p.page f).swap = false)
    (last : .frame f ∉ s) : (p.pageRefDec f).Accounts lost (s + {.spare f}) off := by
  have fits := accounts.fits f
  have none := Multiset.count_eq_zero.mpr last
  refine accounts.of_ref (fun u other => ?_) ?_
  · obtain ⟨notFrame, notSpare⟩ := other f rfl
    simp [notFrame, notSpare]
  · simpa [none] using Page.Fits.part (by simpa [none] using fits) swap

end Accounts

end Pages

end EdfKernel.Mm
