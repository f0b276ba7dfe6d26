import EdfKernel.Library.Run
import EdfKernel.Mm.LoadIcode
import EdfKernel.Mm.NewFrames
import Mathlib.Data.Set.Insert

/-!
# The pages of a segment

The loops of `load_icode` over the pages of a segment, and the clearing between them.  An address
that they have filled holds its byte, and the addresses in other pages keep theirs.
-/

namespace EdfKernel.Mm

open Library

theorem sub32_eq {a b : Nat} (le : b ≤ a) (word : a < 2 ^ 32) : sub32 a b = a - b := by
  unfold sub32
  omega

theorem add32_eq {a b : Nat} (word : a + b < 2 ^ 32) : add32 a b = a + b :=
  Nat.mod_eq_of_lt word

/-- The pages of a range that begins at a page. -/
def pagesIn (la stop : Nat) : Set Nat :=
  {n | la ≤ n * pgSize ∧ n * pgSize < stop}

/-- A read lies in the image. -/
def Image.Contains (img : Image) (addr len : Nat) : Prop :=
  img.binary ≤ addr ∧ addr + len ≤ img.binary + img.size

/-- The reads of a `memcpy` lie in the image. -/
def Source.Within (img : Image) (len : Nat) : Source → Prop
  | .file src => img.Contains src len
  | .zero => True

theorem Source.byte_advance (img : Image) (source : Source) (n i : Nat) :
    (source.advance n).byte img i = source.byte img (n + i) := by
  cases source with
  | zero => rfl
  | file src =>
      change (img.byte (add32 (add32 src n) i)).toNat = (img.byte (add32 src (n + i))).toNat
      rw [add32, add32, add32, Nat.mod_add_mod, Nat.add_assoc]

theorem mem_pagesIn {la stop n : Nat} :
    n ∈ pagesIn la stop ↔ la ≤ n * pgSize ∧ n * pgSize < stop :=
  Iff.rfl

namespace Load

variable {all : Prop} {m₀ : Memory} {img : Image} {mm : MmPtr} {perm : Perm} {l l' l'' : Load}
  {S T : Set Nat} {la start stop n : Nat} {page f : Frame} {source : Source} {s : SizeStep}

/-- An address holds a byte, in a page with these permissions. -/
def Holds (l : Load) (mm : MmPtr) (perm : Perm) (a v : Nat) : Prop :=
  ∃ f, l.memory.pages.pte (userSlot mm a) = .present f perm ∧
    l.memory.pages.data f (a % pgSize) = v

/-- The reads so far lie in the image. -/
def InBounds (l : Load) (img : Image) : Prop :=
  ∀ r ∈ l.reads, img.Contains r.1 r.2

/-- No size so far has wrapped, and none leaves its page. -/
def SizesOk (l : Load) : Prop :=
  ∀ s ∈ l.sizes, s.NoWrap ∧ s.off + s.size ≤ pgSize

/-! ## Changes to some pages -/

/-- Only these pages have changed. -/
structure Changes (all : Prop) (m₀ : Memory) (mm : MmPtr) (S : Set Nat) (l l' : Load) : Prop where
  owns : Pages.Owns all m₀.pages l'.memory.pages mm none
  vm : l'.memory.vm = l.memory.vm
  entries : ∀ n, n ∉ S → l'.memory.pages.pte (.user mm n) = l.memory.pages.pte (.user mm n)
  holds : ∀ perm a v, a / pgSize ∉ S → l.Holds mm perm a v → l'.Holds mm perm a v
  tables : ∀ index, (l'.memory.pages.table mm index).isSome = true →
    (l.memory.pages.table mm index).isSome = true ∨ ∃ n ∈ S, index = n / 1024

theorem Changes.refl (owns : Pages.Owns all m₀.pages l.memory.pages mm none) :
    Changes all m₀ mm S l l :=
  ⟨owns, rfl, fun _ _ => rfl, fun _ _ _ _ => id, fun _ => .inl⟩

theorem Changes.trans (first : Changes all m₀ mm S l l') (second : Changes all m₀ mm S l' l'') :
    Changes all m₀ mm S l l'' where
  owns := second.owns
  vm := second.vm.trans first.vm
  entries n other := (second.entries n other).trans (first.entries n other)
  holds perm a v other here := second.holds perm a v other (first.holds perm a v other here)
  tables index there := (second.tables index there).elim (first.tables index) .inr

theorem Changes.mono (changes : Changes all m₀ mm S l l') (sub : S ⊆ T) :
    Changes all m₀ mm T l l' where
  owns := changes.owns
  vm := changes.vm
  entries n other := changes.entries n fun here => other (sub here)
  holds perm a v other := changes.holds perm a v fun here => other (sub here)
  tables index there := (changes.tables index there).imp_right
    fun ⟨n, here, eq⟩ => ⟨n, sub here, eq⟩

theorem pdx_eq (low : la < 2 ^ 32) : pdx la = la / pgSize / 1024 := by
  unfold pdx ptSize pgSize
  omega

/-! ## One page -/

/-- `pgdir_alloc_page` below the kernel. -/
theorem allocAt_spec (owns : Pages.Owns all m₀.pages l.memory.pages mm none) (low : la < kernBase)
    (perm : Perm) : ∃ found l', l.allocAt mm la perm = .ok (found, l') ∧
      Changes all m₀ mm {la / pgSize} l l' ∧ l'.reads = l.reads ∧ l'.sizes = l.sizes ∧
      ∀ f, found = some f →
        l'.memory.pages.pte (.user mm (la / pgSize)) = .present f perm := by
  have word : la < 2 ^ 32 := low.trans (by decide)
  obtain ⟨found, q, done, owns', data, tables, failed, mapped⟩ :=
    owns.pgdirAllocPage word
  have run : l.allocAt mm la perm =
      .ok (found, l.withMemory { l.memory with pages := q }) := by
    rw [allocAt, if_neg (not_le.mpr low), done]
    rfl
  have others : ∀ n, n ≠ la / pgSize → q.pte (.user mm n) = l.memory.pages.pte (.user mm n) := by
    intro n other
    cases found with
    | none => exact failed rfl n
    | some f =>
        rw [(mapped f rfl).2 n, if_neg other]
  refine ⟨found, _, run, ⟨owns', rfl, fun n other => others n other, fun perm' a v other here => ?_,
    fun index there => ?_⟩, rfl, rfl, fun f isFound => ?_⟩
  · obtain ⟨g, entry, byte⟩ := here
    exact ⟨g, (others _ other).trans entry, (congrFun (congrFun data g) _).trans byte⟩
  · refine (tables index there).imp_right fun isIndex => ⟨la / pgSize, rfl, ?_⟩
    rw [isIndex, pdx_eq word]
  · exact ((mapped f isFound).2 _).trans (if_pos rfl)

/-- The bytes of a page after a copy or a clearing. -/
def filled (l : Load) (img : Image) (f : Frame) (source : Source) (s : SizeStep) (i : Nat) : Nat :=
  if s.off ≤ i ∧ i < s.off + s.size then source.byte img (i - s.off) else l.memory.pages.data f i

/-- A copy or a clearing that stays in its page. -/
theorem fill_spec (owns : Pages.Owns all m₀.pages l.memory.pages mm none)
    (here : l.memory.pages.pte (.user mm n) = .present f perm)
    (fits : s.off + s.size ≤ pgSize) : ∃ l', l.fill img f source s = .ok l' ∧
      Changes all m₀ mm {n} l l' ∧ l'.reads = (l.readSource s.size source).reads ∧
      l'.sizes = s :: l.sizes ∧ l'.memory.pages.pte = l.memory.pages.pte ∧
      l'.memory.pages.data f = l.filled img f source s := by
  have held := @Pages.Owns.entry_frame _ _ _ _ _ none here
  refine ⟨_, if_pos fits, ⟨owns.withData held _, rfl, fun _ _ => rfl, ?_, fun _ => .inl⟩, rfl, rfl,
    rfl, Function.update_self ..⟩
  rintro perm' a v other ⟨g, entry, byte⟩
  have ne : g ≠ f := by
    rintro rfl
    have there := @Pages.Owns.entry_frame _ _ (a / pgSize) _ _ none entry
    cases owns.holdings.single _ _ g there held
    exact other rfl
  exact ⟨g, entry, (congrFun (Function.update_of_ne ne ..) _).trans byte⟩

/-- The piece of a page from `start` on, up to where the page or the data end. -/
def piece (base start stop : Nat) : SizeStep :=
  ⟨start - base, base + pgSize, stop⟩

section Piece

variable {base : Nat}

theorem piece_size (low : base ≤ start) (inside : start < base + pgSize) (less : start < stop)
    (word : base + pgSize < 2 ^ 32) :
    start + (piece base start stop).size = min (base + pgSize) stop ∧
      (piece base start stop).NoWrap ∧
      (piece base start stop).off + (piece base start stop).size ≤ pgSize := by
  unfold SizeStep.NoWrap SizeStep.size piece sub32
  simp only
  unfold pgSize at *
  split <;> omega

/-- A piece of a page is filled, and nothing else. -/
theorem fill_piece (img : Image) (source : Source)
    (owns : Pages.Owns all m₀.pages l.memory.pages mm none)
    (here : l.memory.pages.pte (.user mm (base / pgSize)) = .present f perm)
    (aligned : base % pgSize = 0) (low : base ≤ start) (inside : start < base + pgSize)
    (less : start < stop) (word : base + pgSize < 2 ^ 32) :
    ∃ l', l.fill img f source (piece base start stop) = .ok l' ∧
      Changes all m₀ mm {base / pgSize} l l' ∧
      l'.memory.pages.pte = l.memory.pages.pte ∧ (l.SizesOk → l'.SizesOk) ∧
      l'.reads = (l.readSource (piece base start stop).size source).reads ∧
      (∀ a, start ≤ a → a < min (base + pgSize) stop →
        l'.Holds mm perm a (source.byte img (a - start))) ∧
      ∀ perm' a v, ¬(start ≤ a ∧ a < min (base + pgSize) stop) → l.Holds mm perm' a v →
        l'.Holds mm perm' a v := by
  obtain ⟨size, noWrap, fits⟩ := piece_size low inside less word
  obtain ⟨l', done, changes, reads, sizes, pte, data⟩ := fill_spec owns here fits
  have off : (piece base start stop).off = start - base := rfl
  -- an address of the page lies in the piece exactly when its offset does
  have offset : ∀ a, a / pgSize = base / pgSize → a % pgSize = a - base ∧ base ≤ a ∧
      a < base + pgSize := by
    intro a own
    unfold pgSize at *
    omega
  refine ⟨l', done, changes, pte, fun ok => ?_, reads, fun a from_ upTo => ?_,
    fun perm' a v outside held => ?_⟩
  · intro s mem
    rw [sizes, List.mem_cons] at mem
    rcases mem with rfl | old
    · exact ⟨noWrap, fits⟩
    · exact ok s old
  · have own : a / pgSize = base / pgSize := by
      unfold pgSize at *
      omega
    obtain ⟨mod, _, _⟩ := offset a own
    refine ⟨f, ?_, ?_⟩
    · rw [pte, userSlot, own]
      exact here
    · rw [data, filled, if_pos (by omega), off, mod]
      congr 1
      omega
  · by_cases own : a / pgSize = base / pgSize
    · obtain ⟨g, entry, byte⟩ := held
      have same : g = f := by
        have there := entry
        rw [userSlot, own, here] at there
        cases there
        rfl
      subst same
      obtain ⟨mod, _, _⟩ := offset a own
      refine ⟨g, by rw [pte]; exact entry, ?_⟩
      rw [data, filled, if_neg (by omega)]
      exact byte
    · exact changes.holds perm' a v own held

end Piece

/-! ## The loop over the pages -/

theorem inBounds_congr (same : l'.reads = l.reads) : l'.InBounds img ↔ l.InBounds img := by
  unfold InBounds
  rw [same]

theorem inBounds_readSource {len : Nat} :
    (l.readSource len source).InBounds img ↔ l.InBounds img ∧ source.Within img len := by
  cases source with
  | zero => exact (and_iff_left trivial).symm
  | file src => exact List.forall_mem_cons.trans and_comm

/-- The reads of a copy lie in the image when those of its pieces do. -/
theorem inBounds_advance (word : img.binary + img.size < 2 ^ 32) (len : Nat) :
    (l.readSource n source).InBounds img ∧ (source.advance n).Within img len ↔
      l.InBounds img ∧ source.Within img (n + len) := by
  cases source with
  | zero => exact Iff.rfl
  | file src =>
      rw [inBounds_readSource, and_assoc]
      refine and_congr_right fun _ => ?_
      change img.Contains src n ∧ img.Contains (add32 src n) len ↔ img.Contains src (n + len)
      unfold Image.Contains add32
      omega

/-- What the loop has done when there was a page for all of the range. -/
structure Filled (img : Image) (mm : MmPtr) (perm : Perm) (source : Source) (start stop : Nat)
    (l l' : Load) (la' : Nat) (page' : Frame) : Prop where
  bytes : ∀ a, start ≤ a → a < stop → l'.Holds mm perm a (source.byte img (a - start))
  last : stop ≤ la' ∧ la' < stop + pgSize ∧ la' % pgSize = 0
  below : stop ≤ kernBase
  page : l'.memory.pages.pte (.user mm (la' / pgSize - 1)) = .present page' perm
  sizes : l.SizesOk → l'.SizesOk
  reads : l'.InBounds img ↔ l.InBounds img ∧ source.Within img (stop - start)

theorem fillPages_done (fuel : Nat) (done : ¬start < stop) :
    l.fillPages img mm perm stop fuel start la page source = .ok (some (start, la, page), l) := by
  cases fuel with
  | zero => rw [fillPages, if_neg done]
  | succ fuel => rw [fillPages, if_neg done]

theorem fillPages_none {fuel : Nat} (less : start < stop)
    (got : l.allocAt mm la perm = .ok (none, l')) :
    l.fillPages img mm perm stop (fuel + 1) start la page source = .ok (none, l') := by
  rw [fillPages, if_pos less, got]
  rfl

/-- One round of the loop, which has found a page. -/
theorem fillPages_some {fuel : Nat} (low : la ≤ start) (inside : start < la + pgSize)
    (less : start < stop) (below : la < kernBase)
    (got : l.allocAt mm la perm = .ok (some f, l'))
    (copied : l'.fill img f source (piece la start stop) = .ok l'') :
    l.fillPages img mm perm stop (fuel + 1) start la page source =
      l''.fillPages img mm perm stop fuel (min (la + pgSize) stop) (la + pgSize) f
        (source.advance (piece la start stop).size) := by
  have page32 : la + pgSize < 2 ^ 32 := by
    unfold kernBase at below
    unfold pgSize
    omega
  have isPiece : (⟨sub32 start la, add32 la pgSize, stop⟩ : SizeStep) = piece la start stop := by
    rw [sub32_eq low (inside.trans page32), add32_eq page32]
    rfl
  obtain ⟨size, _, _⟩ := piece_size low inside less page32
  have next : add32 start (piece la start stop).size = min (la + pgSize) stop := by
    rw [add32_eq (by omega), size]
  rw [fillPages, if_pos less, got, ok_bind]
  simp only [isPiece, copied, ok_bind, next]
  rw [add32_eq page32]

/-- The loop fills the range, or there is no memory, or it comes to the pages of the kernel. -/
theorem fillPages_spec (word : img.binary + img.size < 2 ^ 32) {fuel : Nat}
    (owns : Pages.Owns all m₀.pages l.memory.pages mm none) (aligned : la % pgSize = 0)
    (low : la ≤ start) (inside : start < la + pgSize) (less : start < stop)
    (enough : stop - start ≤ fuel) :
    (l.fillPages img mm perm stop fuel start la page source = .error .kernelPage ∧
        kernBase < stop) ∨
      ∃ found l', l.fillPages img mm perm stop fuel start la page source = .ok (found, l') ∧
        Changes all m₀ mm (pagesIn la stop) l l' ∧
        ∀ start' la' page', found = some (start', la', page') →
          start' = stop ∧ Filled img mm perm source start stop l l' la' page' := by
  induction fuel generalizing start la page source l with
  | zero => omega
  | succ fuel ih =>
      have here : la / pgSize ∈ pagesIn la stop := by
        rw [mem_pagesIn]
        unfold pgSize at *
        omega
      by_cases kernel : kernBase ≤ la
      · left
        rw [fillPages, if_pos less, allocAt, if_pos kernel]
        exact ⟨rfl, by omega⟩
      · obtain ⟨found, l₁, got, changes₁, reads₁, sizes₁, entry⟩ :=
          allocAt_spec owns (not_le.mp kernel) perm
        have changes₁ := changes₁.mono (Set.singleton_subset_iff.mpr here)
        cases found with
        | none =>
            exact .inr ⟨none, l₁, fillPages_none less got, changes₁, by rintro _ _ _ ⟨⟩⟩
        | some f =>
            have page32 : la + pgSize < 2 ^ 32 := by
              unfold kernBase at kernel
              unfold pgSize
              omega
            obtain ⟨l₂, copied, changes₂, pte₂, sizes₂, reads₂, bytes₂, kept₂⟩ :=
              fill_piece img source changes₁.owns (entry f rfl) aligned low
                inside less page32
            have changes₂ := changes₂.mono (Set.singleton_subset_iff.mpr here)
            rw [fillPages_some low inside less (not_le.mp kernel) got copied]
            obtain ⟨size, _, _⟩ := piece_size low inside less page32
            by_cases ends : stop ≤ la + pgSize
            · -- this page is the last one
              rw [min_eq_right ends] at size bytes₂ kept₂ ⊢
              rw [fillPages_done fuel (lt_irrefl stop)]
              refine .inr ⟨_, _, rfl, changes₁.trans changes₂, ?_⟩
              rintro _ _ _ ⟨⟩
              refine ⟨rfl, bytes₂, ⟨ends, ?_, ?_⟩, ?_, ?_, fun ok => ?_, ?_⟩
              · omega
              · unfold pgSize at *
                omega
              · unfold kernBase at *
                unfold pgSize at *
                omega
              · have before : (la + pgSize) / pgSize - 1 = la / pgSize := by
                  unfold pgSize
                  omega
                rw [before, pte₂]
                exact entry f rfl
              · exact sizes₂ fun s mem => ok s (sizes₁ ▸ mem)
              · rw [inBounds_congr reads₂, inBounds_readSource, inBounds_congr reads₁,
                  Nat.sub_eq_of_eq_add' size.symm]
            · have more := not_le.mp ends
              rw [min_eq_left more.le] at size bytes₂ kept₂ ⊢
              have aligned' : (la + pgSize) % pgSize = 0 := by
                rw [Nat.add_mod_right]
                exact aligned
              have sub : pagesIn (la + pgSize) stop ⊆ pagesIn la stop :=
                fun n there => ⟨(Nat.le_add_right la pgSize).trans there.1, there.2⟩
              rcases @ih l₂ (la + pgSize) (la + pgSize) f
                (source.advance (piece la start stop).size) changes₂.owns aligned' le_rfl
                (Nat.lt_add_of_pos_right (by decide)) more (by omega) with
                ⟨stopped, kernel⟩ | ⟨found, l₃, done, changes₃, filled⟩
              · exact .inl ⟨stopped, kernel⟩
              · refine .inr ⟨found, l₃, done,
                  (changes₁.trans changes₂).trans (changes₃.mono sub), fun start' la' page' isFound => ?_⟩
                obtain ⟨isStop, filled⟩ := filled start' la' page' isFound
                refine ⟨isStop, fun a from_ upTo => ?_, filled.last, filled.below, filled.page,
                  fun ok => ?_, ?_⟩
                · by_cases first : a < la + pgSize
                  · refine changes₃.holds perm a _ ?_ (bytes₂ a from_ first)
                    rw [mem_pagesIn]
                    unfold pgSize at *
                    omega
                  · have byte := filled.bytes a (not_lt.mp first) upTo
                    rw [Source.byte_advance] at byte
                    have same : (piece la start stop).size + (a - (la + pgSize)) = a - start := by
                      omega
                    rwa [same] at byte
                · exact filled.sizes (sizes₂ fun s mem => ok s (sizes₁ ▸ mem))
                · have rest : stop - start =
                      (piece la start stop).size + (stop - (la + pgSize)) := by omega
                  rw [filled.reads, inBounds_congr reads₂, inBounds_advance word,
                    inBounds_congr reads₁, rest]

/-! ## The end of the last page -/

section Tail

variable {base : Nat}

/-- The end of the last page of the file is cleared, up to the end of the segment. -/
theorem clearTail_spec (img : Image)
    (owns : Pages.Owns all m₀.pages l.memory.pages mm none)
    (here : l.memory.pages.pte (.user mm (base / pgSize)) = .present f perm)
    (aligned : base % pgSize = 0) (low : base ≤ start) (high : start ≤ base + pgSize)
    (le : start ≤ stop) (below : base < kernBase) :
    ∃ l', l.clearTail img stop start (base + pgSize) f = .ok (min (base + pgSize) stop, l') ∧
      Changes all m₀ mm {base / pgSize} l l' ∧ (l.SizesOk → l'.SizesOk) ∧ l'.reads = l.reads ∧
      (∀ a, start ≤ a → a < min (base + pgSize) stop → l'.Holds mm perm a 0) ∧
      ∀ perm' a v, a < start → l.Holds mm perm' a v → l'.Holds mm perm' a v := by
  have page32 : base + pgSize + pgSize < 2 ^ 32 := by
    unfold kernBase at below
    unfold pgSize
    omega
  unfold clearTail
  by_cases inside : start < base + pgSize
  · rw [if_pos inside]
    by_cases empty : start = stop
    · subst empty
      rw [if_pos rfl, min_eq_right high]
      exact ⟨l, rfl, .refl owns, id, rfl, fun a from_ upTo => absurd upTo (not_lt.mpr from_),
        fun _ _ _ _ => id⟩
    · have less : start < stop := lt_of_le_of_ne le empty
      have isPiece : (⟨sub32 (add32 start pgSize) (base + pgSize), base + pgSize, stop⟩ : SizeStep) =
          piece base start stop := by
        rw [add32_eq (by omega), sub32_eq (by omega) (by omega), Nat.add_sub_add_right]
        rfl
      obtain ⟨size, _, _⟩ := piece_size low inside less (by omega)
      obtain ⟨l', copied, changes, _, sizes, reads, bytes, kept⟩ :=
        fill_piece img .zero owns here aligned low inside less (by omega)
      have next : add32 start (piece base start stop).size = min (base + pgSize) stop := by
        rw [add32_eq (by omega), size]
      have passes : (stop < base + pgSize ∧ min (base + pgSize) stop = stop) ∨
          (base + pgSize ≤ stop ∧ min (base + pgSize) stop = base + pgSize) := by omega
      rw [if_neg empty]
      simp only [isPiece, copied, ok_bind, next]
      rw [if_pos passes]
      exact ⟨l', rfl, changes, sizes, reads, bytes,
        fun perm' a v before => kept perm' a v fun there => absurd before (not_lt.mpr there.1)⟩
  · have atEnd : start = base + pgSize := high.antisymm (not_lt.mp inside)
    rw [if_neg inside, min_eq_left (atEnd ▸ le), atEnd]
    exact ⟨l, rfl, .refl owns, id, rfl, fun a from_ upTo => absurd upTo (not_lt.mpr from_),
      fun _ _ _ _ => id⟩

/-- An end below the address wraps the size, and the clearing leaves the page. -/
theorem clearTail_wild (inside : start < la) (page : la ≤ start + pgSize) (less : stop < start)
    (word : la + pgSize < 2 ^ 32) : l.clearTail img stop start la f = .error .wild := by
  have leaves : ¬(⟨sub32 (add32 start pgSize) la, la, stop⟩ : SizeStep).off +
      (⟨sub32 (add32 start pgSize) la, la, stop⟩ : SizeStep).size ≤ pgSize := by
    rw [SizeStep.size, if_pos (less.trans inside)]
    simp only
    unfold sub32 add32
    unfold pgSize at *
    omega
  have stops : l.fill img f .zero ⟨sub32 (add32 start pgSize) la, la, stop⟩ = .error .wild :=
    if_neg leaves
  rw [clearTail, if_pos inside, if_neg less.ne']
  simp only [stops]
  rfl

end Tail

end Load

end EdfKernel.Mm
