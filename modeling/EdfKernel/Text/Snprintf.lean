import EdfKernel.Text.Emission

/-!
# Formatting into a buffer

`sprintputch` and `vsnprintf` of `printfmt.c`.  Addresses are 32 bits wide, and the memory that
holds the buffer is apart from the format and its arguments.
-/

namespace EdfKernel.Text

open Library

/-- The memory, a byte at each address. -/
abbrev Bytes := Nat → UInt8

/-- `struct sprintbuf`, with the memory that it points into. -/
structure SprintBuf where
  mem : Bytes
  buf : UInt32
  ebuf : UInt32
  cnt : Int32

/-- `sprintputch`. -/
def sprintputch (ch : Int32) (b : SprintBuf) : SprintBuf :=
  let b := { b with cnt := b.cnt + 1 }
  if b.buf < b.ebuf then
    { b with mem := Function.update b.mem b.buf.toNat (toChar ch), buf := b.buf + 1 }
  else b

/-- `-E_INVAL`. -/
def eInval : Int32 := -3

/-- `vsnprintf`: what it returns, and the memory. -/
def vsnprintf (mem : Bytes) (str size : UInt32) (fmt : List UInt8) (args : Args) :
    Except Stop (Int32 × Bytes) :=
  let b : SprintBuf := ⟨mem, str, str + size - 1, 0⟩
  if str = 0 ∨ b.ebuf < b.buf then .ok (eInval, mem)
  else do
    let b ← vprintfmt sprintputch fmt args b
    return (b.cnt, Function.update b.mem b.buf.toNat 0)

/-- The full output of a format: the characters that `putch` is called with. -/
def output (fmt : List UInt8) (args : Args) : Except Stop (List Int32) :=
  vprintfmt (fun ch out => out ++ [ch]) fmt args []

variable {mem : Bytes} {str size : UInt32} {fmt : List UInt8} {args : Args} {out : List Int32}

theorem feed_collect (out first : List Int32) :
    feed (fun ch out => out ++ [ch]) out first = first ++ out := by
  induction out generalizing first with
  | nil => simp
  | cons ch out ih => simp [ih]

/-- What is put out elsewhere is the full output. -/
theorem vprintfmt_output (fmt : List UInt8) (args : Args) :
    ∃ out, output fmt args = .ok out ∧ ∀ (σ : Type) (putch : Putch σ) (s : σ),
      vprintfmt putch fmt args s = .ok (feed putch out s) := by
  rcases vprintfmt_emits fmt args with ⟨out, puts⟩
  exact ⟨out, by rw [output, puts, feed_collect, List.nil_append], puts⟩

/-- The first part of a text is stored, as much as there is room for, and all of it is
counted. -/
structure Stored (mem : Bytes) (str room : Nat) (out : List Int32) (b : SprintBuf) : Prop where
  buf : b.buf.toNat = str + min out.length room
  ebuf : b.ebuf.toNat = str + room
  cnt : b.cnt = Int32.ofNat out.length
  text : ∀ k ch, k < room → out[k]? = some ch → b.mem (str + k) = toChar ch
  frame : ∀ a, a < str ∨ str + min out.length room ≤ a → b.mem a = mem a

/-- One more character is counted, and stored if there is room for it. -/
theorem Stored.putch {str room : Nat} {b : SprintBuf} (stored : Stored mem str room out b)
    (ch : Int32) : Stored mem str room (out ++ [ch]) (sprintputch ch b) := by
  have length : (out ++ [ch]).length = out.length + 1 := List.length_append
  have counted : b.cnt + 1 = Int32.ofNat (out ++ [ch]).length := by
    rw [length, stored.cnt, Int32.ofNat_add]
    rfl
  have buf := stored.buf
  have ebuf := stored.ebuf
  by_cases fits : b.buf < b.ebuf
  · have below := UInt32.lt_iff_toNat_lt.mp fits
    have less : out.length < room := by omega
    have next : (b.buf + 1).toNat = b.buf.toNat + 1 := by
      have top := b.ebuf.toNat_lt
      rw [UInt32.toNat_add, UInt32.toNat_one]
      exact Nat.mod_eq_of_lt (by omega)
    have same : sprintputch ch b =
        ⟨Function.update b.mem b.buf.toNat (toChar ch), b.buf + 1, b.ebuf, b.cnt + 1⟩ :=
      if_pos fits
    have place : b.buf.toNat = str + out.length := by omega
    rw [same]
    refine ⟨?_, ebuf, counted, fun k c within found => ?_, fun a outside => ?_⟩
    · dsimp only
      rw [next, length]
      omega
    · dsimp only
      rw [place]
      rcases Nat.lt_or_ge k out.length with old | new
      · rw [Function.update_of_ne (by omega)]
        rw [List.getElem?_append_left old] at found
        exact stored.text k c within found
      · obtain ⟨last, _⟩ := List.getElem?_eq_some_iff.mp found
        obtain rfl : k = out.length := by omega
        rw [List.getElem?_append_right le_rfl, Nat.sub_self] at found
        cases found
        exact Function.update_self ..
    · dsimp only
      rw [length] at outside
      rw [Function.update_of_ne (by omega)]
      exact stored.frame a (by omega)
  · have above := UInt32.lt_iff_toNat_lt.not.mp fits
    have more : room ≤ out.length := by omega
    have same : sprintputch ch b = { b with cnt := b.cnt + 1 } := if_neg fits
    rw [same]
    refine ⟨?_, ebuf, counted, fun k c within found => ?_, fun a outside => ?_⟩
    · dsimp only
      rw [length]
      omega
    · rw [List.getElem?_append_left (by omega)] at found
      exact stored.text k c within found
    · rw [length] at outside
      exact stored.frame a (by omega)

/-- A whole text is stored and counted. -/
theorem Stored.feed {str room : Nat} {b : SprintBuf} (stored : Stored mem str room out b)
    (rest : List Int32) :
    Stored mem str room (out ++ rest) (Text.feed sprintputch rest b) := by
  induction rest generalizing out b with
  | nil => rwa [List.append_nil]
  | cons ch rest ih =>
      have next := ih (stored.putch ch)
      rwa [List.append_assoc] at next

/-- What a call leaves in the buffer and returns: the first characters of the full output, as
many as there is room for, a NUL behind them, nothing else, and the length of the full output. -/
structure Bounded (mem : Bytes) (str size : Nat) (out : List Int32) (result : Int32 × Bytes) :
    Prop where
  text : ∀ k ch, k < min out.length (size - 1) → out[k]? = some ch → result.2 (str + k) = toChar ch
  nul : result.2 (str + min out.length (size - 1)) = 0
  frame : ∀ a, a < str ∨ str + min out.length (size - 1) < a → result.2 a = mem a
  count : result.1.toInt = out.length

/-- Nothing is refused: the address is not `NULL`, and the buffer does not wrap around. -/
def Fits (str size : Nat) : Prop := str ≠ 0 ∧ str + (size - 1) < 2 ^ 32

/-- The end of a buffer that does not wrap around. -/
theorem ebuf_toNat (nonempty : 1 ≤ size.toNat) :
    (str + size - 1).toNat = (str.toNat + (size.toNat - 1)) % 2 ^ 32 := by
  have up := UInt32.toNat_add str size
  have top := size.toNat_lt
  have top' := str.toNat_lt
  rw [UInt32.toNat_sub, up, UInt32.toNat_one]
  omega

theorem vsnprintf_refused (nonempty : 1 ≤ size.toNat) (refused : ¬Fits str.toNat size.toNat) :
    vsnprintf mem str size fmt args = .ok (eInval, mem) := by
  refine if_pos ?_
  by_cases null : str = 0
  · exact .inl null
  · right
    have nonzero : str.toNat ≠ 0 := fun zero => null (UInt32.toNat_inj.mp zero)
    have wraps : 2 ^ 32 ≤ str.toNat + (size.toNat - 1) := by
      by_contra below
      exact refused ⟨nonzero, Nat.lt_of_not_le below⟩
    have top := size.toNat_lt
    have top' := str.toNat_lt
    rw [UInt32.lt_iff_toNat_lt]
    dsimp only
    rw [ebuf_toNat nonempty]
    omega

theorem vsnprintf_fits (mem : Bytes) (nonempty : 1 ≤ size.toNat) (fits : Fits str.toNat size.toNat)
    (puts : ∀ (σ : Type) (putch : Putch σ) (s : σ),
      vprintfmt putch fmt args s = .ok (feed putch out s)) :
    ∃ b, vsnprintf mem str size fmt args =
        .ok (Int32.ofNat out.length, Function.update b.mem b.buf.toNat 0) ∧
      Stored mem str.toNat (size.toNat - 1) out b := by
  have stop : (str + size - 1).toNat = str.toNat + (size.toNat - 1) := by
    rw [ebuf_toNat nonempty, Nat.mod_eq_of_lt fits.2]
  have start : Stored mem str.toNat (size.toNat - 1) [] ⟨mem, str, str + size - 1, 0⟩ :=
    ⟨by simp, stop, rfl, fun k ch _ found => by simp at found, fun a _ => rfl⟩
  have stored := start.feed out
  rw [List.nil_append] at stored
  have accepted : ¬(str = 0 ∨ str + size - 1 < str) := by
    rintro (null | wraps)
    · exact fits.1 (by rw [null]; rfl)
    · rw [UInt32.lt_iff_toNat_lt, stop] at wraps
      omega
  refine ⟨_, ?_, stored⟩
  rw [vsnprintf]
  simp only [if_neg accepted, puts, ok_bind, stored.cnt]
  rfl

/-- Formatting into a buffer comes to an end without leaving the format, and it stores and
returns what it should if and only if the call is not refused and the length of the output is an
`int`. -/
theorem vsnprintf_bounded_iff (mem : Bytes) (str size : UInt32) (fmt : List UInt8) (args : Args)
    (nonempty : 1 ≤ size.toNat) :
    ∃ out result, output fmt args = .ok out ∧ vsnprintf mem str size fmt args = .ok result ∧
      (Bounded mem str.toNat size.toNat out result ↔
        Fits str.toNat size.toNat ∧ out.length < 2 ^ 31) := by
  rcases vprintfmt_output fmt args with ⟨out, whole, puts⟩
  by_cases fits : Fits str.toNat size.toNat
  · rcases vsnprintf_fits mem nonempty fits puts with ⟨b, result, stored⟩
    refine ⟨out, _, whole, result, fun bounded => ⟨fits, ?_⟩, fun both => ?_⟩
    · have high := Int32.toInt_lt (Int32.ofNat out.length)
      have count := bounded.count
      dsimp only at count
      omega
    · have buf := stored.buf
      refine ⟨fun k ch below found => ?_, ?_, fun a outside => ?_,
        Int32.toInt_ofNat_of_lt both.2⟩
      · dsimp only
        rw [Function.update_of_ne (by omega)]
        exact stored.text k ch (by omega) found
      · dsimp only
        rw [← buf]
        exact Function.update_self ..
      · dsimp only
        rw [Function.update_of_ne (by omega)]
        exact stored.frame a (by omega)
  · refine ⟨out, _, whole, vsnprintf_refused nonempty fits, fun bounded => ?_, fun both => ?_⟩
    · have count := bounded.count
      have refused : eInval.toInt = -3 := rfl
      dsimp only at count
      omega
    · exact absurd both.1 fits

/-- Arguments that are all 1. -/
def ones : Args := fun _ => { word := 1 }

/-- `a%3d`. -/
def shortFormat : List UInt8 := [97, 37, 51, 100]

/-- The number is printed behind two blanks, of which the buffer takes one. -/
theorem vsnprintf_bounded_short :
    ∃ out result, output shortFormat ones = .ok out ∧ out = [97, 32, 32, 49] ∧
      vsnprintf (fun _ => 0) 0x1000 3 shortFormat ones = .ok result ∧
      Bounded (fun _ => 0) 0x1000 3 out result := by
  rcases vsnprintf_bounded_iff (fun _ => 0) 0x1000 3 shortFormat ones (by decide) with
    ⟨out, result, whole, formatted, bounded⟩
  have printed : output shortFormat ones = .ok [97, 32, 32, 49] := by decide +kernel
  cases whole.symm.trans printed
  exact ⟨_, result, whole, rfl, formatted, bounded.mpr ⟨⟨by decide, by decide⟩, by decide⟩⟩

/-- `%2147483647dx`. -/
def longFormat : List UInt8 := [37, 50, 49, 52, 55, 52, 56, 51, 54, 52, 55, 100, 120]

/-- The output of the format is one character longer than an `int` can say. -/
theorem output_long : ∃ out, output longFormat ones = .ok out ∧ out.length = 2 ^ 31 := by
  have pads : (padWidth 1 10 2147483647).toInt.toNat = 2147483646 := by
    rw [padWidth, if_neg (by decide)]
    rfl
  have digits : (digitsText 1 10).length = 1 := by
    rw [digitsText, if_neg (by decide)]
    rfl
  have read : readFmt longFormat 0 = .ok 37 := rfl
  have switched : reswitch longFormat 23 1 .zero ones =
      .ok (100, 12, ⟨32, 2147483647, -1, 0, false⟩, ones) := rfl
  have literal : readFmt longFormat 12 = .ok 120 := rfl
  have stop : readFmt longFormat 13 = .ok 0 := rfl
  have converts : convert (fun ch out => out ++ [ch]) 100 ⟨32, 2147483647, -1, 0, false⟩
      (vaArg ones) [] = some (printnum (fun ch out => out ++ [ch]) 1 10 2147483647 32 []) := rfl
  refine ⟨printnum (fun ch out => out ++ [ch]) 1 10 2147483647 32 [] ++ [ofUnsignedChar 120],
    ?_, ?_⟩
  · change vprintfmtLoop _ 23 _ _ _ _ = _
    rw [vprintfmtLoop_convert read switched (by decide) (by decide) converts,
      vprintfmtLoop_literal literal (by decide) (by decide), vprintfmtLoop_end stop]
  · rw [printnum_feed _ (by decide), feed_collect, List.nil_append, List.length_append,
      List.length_append, List.length_replicate, List.length_map, pads, digits]
    rfl

/-- The length of a long output is not returned. -/
theorem vsnprintf_count_overflows :
    ¬∀ (mem : Bytes) (str size : UInt32) (fmt : List UInt8) (args : Args), 1 ≤ size.toNat →
      Fits str.toNat size.toNat →
      ∃ out result, output fmt args = .ok out ∧ vsnprintf mem str size fmt args = .ok result ∧
        Bounded mem str.toNat size.toNat out result := by
  intro all
  rcases all (fun _ => 0) 0x1000 64 longFormat ones (by decide) ⟨by decide, by decide⟩ with
    ⟨out, result, whole, formatted, bounded⟩
  rcases output_long with ⟨out', whole', length⟩
  cases whole.symm.trans whole'
  have count := bounded.count
  have high := Int32.toInt_lt result.1
  omega

end EdfKernel.Text
