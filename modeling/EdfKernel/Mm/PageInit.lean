import EdfKernel.Mm.BuddyCanonical
import EdfKernel.Mm.Layout

/-!
# The memory map at boot

`page_init` of `pmm.c`.  The memory map is the list of its first `nr_map` entries, and the
symbol `end` of the linker is a parameter.  The calls of `init_memmap` are carried along with
the buddy allocator, which they go to.
-/

namespace EdfKernel.Mm

open Library

/-- `E820_ARM`. -/
def e820Arm : UInt32 := 1

/-- `KMEMSIZE`. -/
def kmemSize : Nat := 0x38000000

/-- `sizeof(struct Page)`. -/
def sizeofPage : Nat := 36

/-- An entry of `struct e820map`. -/
structure E820Entry where
  addr : UInt64
  size : UInt64
  type : UInt32
  deriving DecidableEq, Repr

namespace E820Entry

/-- `begin`. -/
def start (e : E820Entry) : Nat := e.addr.toNat

/-- `end`. -/
def stop (e : E820Entry) : Nat := (e.addr + e.size).toNat

end E820Entry

/-- `struct e820map`. -/
abbrev E820Map := List E820Entry

/-- Why `page_init` stops. -/
inductive BootPanic
  /-- `PADDR called with invalid kva` -/
  | paddr
  /-- `pa2page called with invalid pa` -/
  | pa2page
  /-- the assertions of the allocator -/
  | buddy (panic : BuddyPanic)
  deriving DecidableEq, Repr

/-- `PADDR`. -/
def paddr (kva : Nat) : Except BootPanic Nat :=
  if kva < kernBase then .error .paddr else .ok (kva - kernBase)

/-- `pa2page`, which names a page by its number. -/
def pa2page (npage pa : Nat) : Except BootPanic Nat :=
  if npage ≤ pa / pgSize then .error .pa2page else .ok (pa / pgSize)

/-- The allocator, and the calls of `init_memmap` so far, the first one first. -/
structure Boot where
  buddy : Buddy
  calls : List (Nat × Nat)

/-- `init_memmap`. -/
def Boot.initMemmap (boot : Boot) (base n : Nat) : Except BootPanic Boot :=
  match boot.buddy.initMemmap base n with
  | .error panic => .error (.buddy panic)
  | .ok b => .ok ⟨b, boot.calls ++ [(base, n)]⟩

/-- The first loop of `page_init`: `maxpa`. -/
def maxpaLoop : E820Map → Nat → Nat
  | [], maxpa => maxpa
  | e :: map, maxpa =>
      maxpaLoop map
        (if e.type = e820Arm then
          if maxpa < e.stop ∧ e.start < kmemSize then e.stop else maxpa
        else maxpa)

/-- `npage`. -/
def npage (map : E820Map) : Nat :=
  (if kmemSize < maxpaLoop map 0 then kmemSize else maxpaLoop map 0) / pgSize

/-- `pages`. -/
def pagesBase (kernEnd : Nat) : Nat := roundUp kernEnd pgSize

/-- The round of the last loop of `page_init` for one entry. -/
def initEntry (npage freemem : Nat) (e : E820Entry) (boot : Boot) : Except BootPanic Boot :=
  if e.type = e820Arm then
    let start := if e.start < freemem then freemem else e.start
    let stop := if kmemSize < e.stop then kmemSize else e.stop
    if start < stop then
      let start := roundUp (start % 2 ^ 32) pgSize
      let stop := roundDown (stop % 2 ^ 32) pgSize
      if start < stop then do
        let base ← pa2page npage start
        boot.initMemmap base ((stop - start) / pgSize)
      else .ok boot
    else .ok boot
  else .ok boot

/-- The last loop of `page_init`. -/
def initLoop (npage freemem : Nat) : E820Map → Boot → Except BootPanic Boot
  | [], boot => .ok boot
  | e :: map, boot => do
      let boot ← initEntry npage freemem e boot
      initLoop npage freemem map boot

/-- `page_init`, where `memory` is what the array of the pages holds before. -/
def pageInit (map : E820Map) (kernEnd : Nat) (memory : Nat → BuddyPage) :
    Except BootPanic Boot := do
  let boot : Boot := ⟨.init (npage map) memory, []⟩
  let freemem ← paddr (add32 (pagesBase kernEnd) (sizeofPage * npage map))
  initLoop (npage map) freemem map boot

/-! ## What is to be handed out -/

/-- A frame is entirely inside a usable entry, and inside of the memory from `freemem` up to
`KMEMSIZE`. -/
def E820Entry.Gives (freemem : Nat) (e : E820Entry) (f : Nat) : Prop :=
  (e.type = e820Arm ∧ e.addr.toNat ≤ f * pgSize ∧
    (f + 1) * pgSize ≤ e.addr.toNat + e.size.toNat) ∧
  freemem ≤ f * pgSize ∧ (f + 1) * pgSize ≤ kmemSize

instance decidableGives (freemem : Nat) (e : E820Entry) (f : Nat) :
    Decidable (e.Gives freemem f) :=
  inferInstanceAs (Decidable (_ ∧ _))

/-- An entry contributes a frame. -/
def E820Entry.Contributes (freemem : Nat) (e : E820Entry) : Prop :=
  ∃ f < kmemSize / pgSize, e.Gives freemem f

instance decidableContributes (freemem : Nat) (e : E820Entry) :
    Decidable (e.Contributes freemem) :=
  inferInstanceAs (Decidable (∃ f < _, _))

/-- An address is in a usable entry. -/
def E820Entry.Covers (e : E820Entry) (a : Nat) : Prop :=
  e.type = e820Arm ∧ e.addr.toNat ≤ a ∧ a < e.addr.toNat + e.size.toNat

/-- The usable entries do not wrap around, and no address is in two of them. -/
structure Sane (map : E820Map) : Prop where
  noWrap : ∀ e ∈ map, e.type = e820Arm → e.addr.toNat + e.size.toNat < 2 ^ 64
  apart : map.Pairwise fun e e' => ∀ a, ¬(e.Covers a ∧ e'.Covers a)

/-- The frames of some calls of `init_memmap`. -/
def frames (calls : List (Nat × Nat)) : List Nat :=
  calls.flatMap fun call => List.range' call.1 call.2

/-- The physical address behind the pages array. -/
def freemem (map : E820Map) (kernEnd : Nat) : Nat :=
  pagesBase kernEnd - kernBase + sizeofPage * npage map

/-! ## The bounds -/

variable {map : E820Map} {kernEnd : Nat} {e : E820Entry} {free f : Nat}

theorem npage_le (map : E820Map) : npage map ≤ kmemSize / pgSize := by
  refine Nat.div_le_div_right ?_
  split
  · exact Nat.le_refl _
  · omega

/-- The last loop runs behind the pages array. -/
theorem paddr_freemem (map : E820Map) (low : kernBase ≤ kernEnd) (high : kernEnd ≤ kernTop) :
    paddr (add32 (pagesBase kernEnd) (sizeofPage * npage map)) = .ok (freemem map kernEnd) ∧
      kernEnd - kernBase ≤ pagesBase kernEnd - kernBase := by
  have few := npage_le map
  have rounded : kernEnd ≤ pagesBase kernEnd ∧ pagesBase kernEnd < kernEnd + pgSize := by
    unfold pagesBase roundUp roundDown add32 pgSize
    unfold kernTop kernBase at high
    omega
  unfold kernTop kernBase at *
  unfold pgSize kmemSize at *
  have small : add32 (pagesBase kernEnd) (sizeofPage * npage map) =
      pagesBase kernEnd + sizeofPage * npage map := by
    unfold sizeofPage
    exact Nat.mod_eq_of_lt (by omega)
  refine ⟨?_, by omega⟩
  rw [small, paddr, if_neg (by unfold kernBase; omega), freemem]
  refine congrArg Except.ok ?_
  unfold kernBase
  omega

theorem le_maxpaLoop (map : E820Map) (maxpa : Nat) : maxpa ≤ maxpaLoop map maxpa := by
  induction map generalizing maxpa with
  | nil => exact Nat.le_refl _
  | cons e map ih =>
      refine Nat.le_trans ?_ (ih _)
      split
      · split
        case isTrue more => exact Nat.le_of_lt more.1
        case isFalse => exact Nat.le_refl _
      · exact Nat.le_refl _

/-- `maxpa` is behind every usable entry that begins below `KMEMSIZE`. -/
theorem stop_le_maxpaLoop (mem : e ∈ map) (usable : e.type = e820Arm)
    (below : e.start < kmemSize) (maxpa : Nat) : e.stop ≤ maxpaLoop map maxpa := by
  induction map generalizing maxpa with
  | nil => cases mem
  | cons e' map ih =>
      rcases List.mem_cons.mp mem with rfl | later
      · refine Nat.le_trans ?_ (le_maxpaLoop map _)
        rw [if_pos usable]
        split
        case isTrue => exact Nat.le_refl _
        case isFalse more => exact Nat.le_of_not_lt fun less => more ⟨less, below⟩
      · exact ih later _

theorem stop_of_noWrap (noWrap : e.addr.toNat + e.size.toNat < 2 ^ 64) :
    e.stop = e.addr.toNat + e.size.toNat := by
  rw [E820Entry.stop, UInt64.toNat_add]
  exact Nat.mod_eq_of_lt noWrap

/-- The number of every frame that is to be handed out is in the pages array. -/
theorem lt_npage (sane : Sane map) (mem : e ∈ map) (gives : e.Gives free f) : f < npage map := by
  obtain ⟨⟨usable, low, high⟩, _, top⟩ := gives
  have below : e.start < kmemSize := by
    unfold E820Entry.start pgSize kmemSize at *
    omega
  have reached := stop_le_maxpaLoop mem usable below 0
  rw [stop_of_noWrap (sane.noWrap e mem usable)] at reached
  rw [npage, Nat.lt_iff_add_one_le, Nat.le_div_iff_mul_le (by decide)]
  split
  · exact top
  · exact Nat.le_trans high reached

/-! ## One entry -/

/-- The first frame that begins in an entry. -/
def firstFrame (free : Nat) (e : E820Entry) : Nat := (max e.start free + (pgSize - 1)) / pgSize

/-- The frame behind the last one that ends in an entry. -/
def frameStop (e : E820Entry) : Nat := min e.stop kmemSize / pgSize

theorem gives_iff (usable : e.type = e820Arm)
    (noWrap : e.addr.toNat + e.size.toNat < 2 ^ 64) :
    e.Gives free f ↔ firstFrame free e ≤ f ∧ f < frameStop e := by
  have stop := stop_of_noWrap noWrap
  unfold E820Entry.Gives firstFrame frameStop
  rw [stop]
  unfold E820Entry.start pgSize kmemSize
  constructor
  · rintro ⟨⟨_, low, high⟩, free, top⟩
    omega
  · rintro ⟨low, high⟩
    exact ⟨⟨usable, by omega, by omega⟩, by omega, by omega⟩

/-- What one round does: nothing, or one call with the frames of the entry. -/
theorem initEntry_eq (npage free : Nat) (boot : Boot) (usable : e.type = e820Arm) :
    initEntry npage free e boot =
      if firstFrame free e < frameStop e then
        pa2page npage (firstFrame free e * pgSize) >>= fun base =>
          boot.initMemmap base (frameStop e - firstFrame free e)
      else .ok boot := by
  have lower : (if e.start < free then free else e.start) = max e.start free := by
    split <;> omega
  have upper : (if kmemSize < e.stop then kmemSize else e.stop) = min e.stop kmemSize := by
    split <;> omega
  rw [initEntry, if_pos usable]
  simp only [lower, upper]
  have top : min e.stop kmemSize ≤ kmemSize := Nat.min_le_right ..
  unfold firstFrame frameStop
  generalize max e.start free = start at *
  generalize min e.stop kmemSize = stop at *
  by_cases some : start < stop
  · have first : roundUp (start % 2 ^ 32) pgSize = (start + (pgSize - 1)) / pgSize * pgSize := by
      unfold roundUp roundDown add32 pgSize
      unfold kmemSize at top
      omega
    have last : roundDown (stop % 2 ^ 32) pgSize = stop / pgSize * pgSize := by
      unfold roundDown pgSize
      unfold kmemSize at top
      omega
    rw [if_pos some, first, last]
    by_cases more : (start + (pgSize - 1)) / pgSize < stop / pgSize
    · rw [if_pos more, if_pos (Nat.mul_lt_mul_of_pos_right more (by decide)), ← Nat.sub_mul,
        Nat.mul_div_cancel _ (by decide)]
    · rw [if_neg more, if_neg fun less => more (Nat.lt_of_mul_lt_mul_right less)]
  · rw [if_neg some, if_neg]
    unfold pgSize
    omega

theorem contributes_iff (usable : e.type = e820Arm)
    (noWrap : e.addr.toNat + e.size.toNat < 2 ^ 64) :
    e.Contributes free ↔ firstFrame free e < frameStop e := by
  constructor
  · rintro ⟨f, _, gives⟩
    have between := (gives_iff usable noWrap).mp gives
    omega
  · intro more
    have top : frameStop e ≤ kmemSize / pgSize := Nat.div_le_div_right (Nat.min_le_right ..)
    exact ⟨firstFrame free e, by omega, (gives_iff usable noWrap).mpr ⟨Nat.le_refl _, more⟩⟩

/-! ## All entries -/

theorem mem_frames_concat {calls : List (Nat × Nat)} {base n : Nat} :
    f ∈ frames (calls ++ [(base, n)]) ↔ f ∈ frames calls ∨ (base ≤ f ∧ f < base + n) := by
  simp [frames, List.mem_range'_1]

/-- The calls that the entries so far have led to, and the allocator after them. -/
structure Handed (npage free : Nat) (done : E820Map) (boot : Boot) : Prop where
  npage : boot.buddy.npage = npage
  sound : (⟨boot.buddy, ∅⟩ : BuddyState).Sound
  isFree : ∀ f, boot.buddy.IsFree f ↔ f ∈ frames boot.calls
  frames : ∀ f, f ∈ frames boot.calls ↔ ∃ e ∈ done, e.Gives free f
  nodup : (Mm.frames boot.calls).Nodup
  zones : boot.buddy.zones.length = done.countP fun e => decide (e.Contributes free)

theorem handed_start (npage free : Nat) (memory : Nat → BuddyPage) :
    Handed npage free [] ⟨.init npage memory, []⟩ where
  npage := rfl
  sound := BuddyState.sound_start npage memory
  isFree f := by simp [Buddy.init, Buddy.IsFree, Mm.frames]
  frames f := by simp [Mm.frames]
  nodup := List.nodup_nil
  zones := rfl

/-- A page of the array that has not been handed out is reserved. -/
theorem Handed.pgReserved {npage : Nat} {done : E820Map} {boot : Boot}
    (handed : Handed npage free done boot) (less : f < npage) (fresh : f ∉ Mm.frames boot.calls) :
    (boot.buddy.page f).pgReserved = true := by
  by_contra notReserved
  have inZone : boot.buddy.InZone f :=
    ⟨handed.npage.symm ▸ less, Bool.eq_false_iff.mpr notReserved⟩
  rcases (handed.sound.pages f).mp inZone with isFree | out
  · exact fresh ((handed.isFree f).mp isFree)
  · exact Finset.notMem_empty f out

/-- A call hands out frames that have not been handed out. -/
theorem Handed.initMemmap {npage base n : Nat} {done : E820Map} {boot : Boot}
    (handed : Handed npage free done boot)
    (gives : ∀ f, e.Gives free f ↔ base ≤ f ∧ f < base + n) (contributes : e.Contributes free)
    (some : 0 < n) (bound : base + n ≤ npage)
    (fresh : ∀ f, e.Gives free f → f ∉ Mm.frames boot.calls)
    (room : boot.buddy.zones.length < maxZoneNum) :
    ∃ boot', boot.initMemmap base n = .ok boot' ∧ Handed npage free (done ++ [e]) boot' := by
  have reserved : ∀ q, base ≤ q → q < base + n → (boot.buddy.page q).pgReserved = true :=
    fun q low high =>
      handed.pgReserved (by omega) (fresh q ((gives q).mpr ⟨low, high⟩))
  have ran : boot.buddy.initMemmap base n =
      .ok ((boot.buddy.newZone base n).initBlocks base n maxOrder) :=
    Buddy.initMemmap_eq_ok_iff.mpr ⟨⟨some, room⟩, reserved, rfl⟩
  have inside : base + n ≤ boot.buddy.npage := by rwa [handed.npage]
  have freed := handed.sound.good.initMemmap inside ran
  have sound := handed.sound.step_initMemmap inside (BuddyState.step_initMemmap_of_ok ran)
  refine ⟨⟨_, boot.calls ++ [(base, n)]⟩, by rw [Boot.initMemmap, ran], ?_⟩
  refine ⟨freed.same.npage.trans handed.npage, sound, fun f => ?_, fun f => ?_, ?_, ?_⟩
  · have old : (boot.buddy.newZone base n).IsFree f ↔ boot.buddy.IsFree f := Iff.rfl
    rw [mem_frames_concat, freed.isFree, old, handed.isFree]
  · rw [mem_frames_concat, handed.frames, ← gives]
    simp [or_and_right, exists_or]
  · rw [Mm.frames, List.flatMap_append, List.nodup_append]
    refine ⟨handed.nodup, by simp [List.nodup_range'], fun f old f' new same => ?_⟩
    have within : base ≤ f' ∧ f' < base + n := by simpa [List.mem_range'_1] using new
    exact fresh f' ((gives f').mpr within) (same ▸ old)
  · have zones := congrArg List.length freed.same.zones
    refine zones.trans ?_
    rw [Buddy.newZone, List.length_append, handed.zones, List.countP_append]
    simp [contributes]

/-- An entry without frames leaves everything as it is. -/
theorem Handed.idle {npage : Nat} {done : E820Map} {boot : Boot}
    (handed : Handed npage free done boot) (nothing : ∀ f, ¬e.Gives free f) :
    Handed npage free (done ++ [e]) boot := by
  have none : ¬e.Contributes free := fun ⟨f, _, gives⟩ => nothing f gives
  refine ⟨handed.npage, handed.sound, handed.isFree, fun f => ?_, handed.nodup, ?_⟩
  · rw [handed.frames]
    simp [or_and_right, exists_or, nothing f]
  · rw [handed.zones, List.countP_append]
    simp [none]

/-- One round hands out the frames of its entry. -/
theorem Handed.step {npage : Nat} {done : E820Map} {boot : Boot}
    (handed : Handed npage free done boot)
    (noWrap : e.type = e820Arm → e.addr.toNat + e.size.toNat < 2 ^ 64)
    (apart : ∀ e' ∈ done, ∀ a, ¬(e'.Covers a ∧ e.Covers a))
    (inside : ∀ f, e.Gives free f → f < npage)
    (few : (done ++ [e]).countP (fun e => decide (e.Contributes free)) ≤ maxZoneNum) :
    ∃ boot', initEntry npage free e boot = .ok boot' ∧ Handed npage free (done ++ [e]) boot' := by
  by_cases usable : e.type = e820Arm
  case neg =>
    have nothing : ∀ f, ¬e.Gives free f := fun f gives => usable gives.1.1
    exact ⟨boot, by rw [initEntry, if_neg usable], handed.idle nothing⟩
  have gives : ∀ f, e.Gives free f ↔ firstFrame free e ≤ f ∧ f < frameStop e := fun f =>
    gives_iff usable (noWrap usable)
  rw [initEntry_eq npage free boot usable]
  by_cases more : firstFrame free e < frameStop e
  case neg =>
    have nothing : ∀ f, ¬e.Gives free f := by
      intro f given
      have between := (gives f).mp given
      omega
    exact ⟨boot, by rw [if_neg more], handed.idle nothing⟩
  have contributes : e.Contributes free := (contributes_iff usable (noWrap usable)).mpr more
  have first := inside _ ((gives _).mpr ⟨Nat.le_refl _, more⟩)
  have last := inside (frameStop e - 1) ((gives _).mpr (by omega))
  have paged : pa2page npage (firstFrame free e * pgSize) = .ok (firstFrame free e) := by
    rw [pa2page, Nat.mul_div_cancel _ (by decide), if_neg (Nat.not_le_of_lt first)]
  rw [if_pos more, paged, ok_bind]
  refine handed.initMemmap (fun f => ?_) contributes (Nat.sub_pos_of_lt more) (by omega)
    (fun f given old => ?_) ?_
  · rw [gives]
    omega
  · -- the first address of the frame would be in two entries
    rcases (handed.frames f).mp old with ⟨e', mem, given'⟩
    refine apart e' mem (f * pgSize) ⟨⟨given'.1.1, given'.1.2.1, ?_⟩, given.1.1, given.1.2.1, ?_⟩
    · have high := given'.1.2.2
      unfold pgSize at *
      omega
    · have high := given.1.2.2
      unfold pgSize at *
      omega
  · rw [List.countP_append, ← handed.zones] at few
    simp [contributes] at few
    omega

/-- The last loop hands out the frames of every entry. -/
theorem Handed.loop {npage : Nat} {done rest : E820Map} {boot : Boot}
    (handed : Handed npage free done boot) (sane : Sane (done ++ rest))
    (inside : ∀ e ∈ rest, ∀ f, e.Gives free f → f < npage)
    (few : (done ++ rest).countP (fun e => decide (e.Contributes free)) ≤ maxZoneNum) :
    ∃ boot', initLoop npage free rest boot = .ok boot' ∧
      Handed npage free (done ++ rest) boot' := by
  induction rest generalizing done boot with
  | nil => exact ⟨boot, rfl, by rwa [List.append_nil]⟩
  | cons e rest ih =>
      have split : done ++ e :: rest = done ++ [e] ++ rest := by simp
      rw [split] at sane few ⊢
      have apart : ∀ e' ∈ done, ∀ a, ¬(e'.Covers a ∧ e.Covers a) := fun e' mem =>
        (List.pairwise_append.mp (List.pairwise_append.mp sane.apart).1).2.2 e' mem e
          List.mem_cons_self
      rcases handed.step (sane.noWrap e (by simp)) apart (inside e List.mem_cons_self)
        (Nat.le_trans (List.Sublist.countP_le (List.sublist_append_left _ _)) few) with
        ⟨boot₁, ran, handed₁⟩
      rcases ih handed₁ sane (fun e' mem => inside e' (List.mem_cons_of_mem e mem)) few with
        ⟨boot', ran', handed'⟩
      exact ⟨boot', by rw [initLoop, ran, ok_bind, ran'], handed'⟩

/-- `page_init` comes to its end.  It hands out each frame that it has to exactly once, and no
other one; those are all the free pages of the allocator.  The pages array has an entry for each
of them, and none of them overlaps the kernel or the pages array. -/
theorem pageInit_hands_out (map : E820Map) (kernEnd : Nat) (memory : Nat → BuddyPage)
    (low : kernBase ≤ kernEnd) (high : kernEnd ≤ kernTop) (sane : Sane map)
    (few : map.countP (fun e => decide (e.Contributes (freemem map kernEnd))) ≤ maxZoneNum) :
    ∃ boot, pageInit map kernEnd memory = .ok boot ∧ (frames boot.calls).Nodup ∧
      (∀ f, f ∈ frames boot.calls ↔ ∃ e ∈ map, e.Gives (freemem map kernEnd) f) ∧
      (∀ f, boot.buddy.IsFree f ↔ f ∈ frames boot.calls) ∧
      ∀ f ∈ frames boot.calls, f < npage map ∧ kernEnd - kernBase ≤ f * pgSize ∧
        pagesBase kernEnd - kernBase + sizeofPage * npage map ≤ f * pgSize := by
  have inside : ∀ e ∈ map, ∀ f, e.Gives (freemem map kernEnd) f → f < npage map :=
    fun e mem f gives => lt_npage sane mem gives
  have start := paddr_freemem map low high
  rcases (handed_start (npage map) (freemem map kernEnd) memory).loop sane inside few with
    ⟨boot, ran, handed⟩
  refine ⟨boot, ?_, handed.nodup, handed.frames, handed.isFree, fun f mem => ?_⟩
  · rw [pageInit, start.1]
    exact ran
  · rcases (handed.frames f).mp mem with ⟨e, memMap, gives⟩
    have behind : freemem map kernEnd ≤ f * pgSize := gives.2.1
    refine ⟨inside e memMap f gives, ?_, behind⟩
    unfold freemem at behind
    omega

/-- A hole below 1 MB, and 128 MB of memory in all. -/
def smallMap : E820Map := [⟨0, 0x9fc00, 1⟩, ⟨0xf0000, 0x10000, 2⟩, ⟨0x100000, 0x7f00000, 1⟩]

theorem pageInit_hands_out_small :
    ∃ boot, pageInit smallMap 0xC0120000 (fun _ => ⟨0, false, false, 0, 0, 0⟩) = .ok boot ∧
      (frames boot.calls).Nodup := by
  have sane : Sane smallMap := by
    refine ⟨by decide, ?_⟩
    simp [smallMap, E820Entry.Covers, e820Arm]
    omega
  rcases pageInit_hands_out smallMap 0xC0120000 (fun _ => ⟨0, false, false, 0, 0, 0⟩)
    (by decide) (by decide) sane (Nat.le_trans List.countP_le_length (by decide)) with
    ⟨boot, ran, nodup, _⟩
  exact ⟨boot, ran, nodup⟩

end EdfKernel.Mm
