import EdfKernel.Text.Printfmt
import Mathlib.Order.Basic

/-!
# What formatting puts out

The characters that formatting puts out, and their order, do not depend on where they are put:
every function comes down to feeding a list of characters to `putch`.  Formatting comes to an end
for every format, and reads nothing outside of it.
-/

namespace EdfKernel.Text

open Library

/-- The characters of a list are put out one after the other. -/
def feed {σ : Type} (putch : Putch σ) (out : List Int32) (s : σ) : σ :=
  out.foldl (fun s ch => putch ch s) s

section

variable {σ : Type} (putch : Putch σ)

@[simp]
theorem feed_nil (s : σ) : feed putch [] s = s :=
  rfl

@[simp]
theorem feed_cons (ch : Int32) (out : List Int32) (s : σ) :
    feed putch (ch :: out) s = feed putch out (putch ch s) :=
  rfl

@[simp]
theorem feed_append (first rest : List Int32) (s : σ) :
    feed putch (first ++ rest) s = feed putch rest (feed putch first s) :=
  List.foldl_append

/-! ## Pieces -/

theorem putMany_feed (ch : Int32) (count : Nat) (s : σ) :
    putMany putch ch count s = feed putch (List.replicate count ch) s := by
  induction count generalizing s with
  | zero => rfl
  | succ count ih => exact ih (putch ch s)

theorem putPads_feed (ch width : Int32) (s : σ) :
    putPads putch ch width s = feed putch (List.replicate width.toInt.toNat ch) s :=
  putMany_feed putch ch _ s

/-- The width that is left for the padding of a number, after its digits but the first. -/
def padWidth (num base : Nat) (width : Int32) : Int32 :=
  if base ≤ num ∧ 1 < base then padWidth (num / base) base (width - 1) else width - 1
termination_by num
decreasing_by
  rename_i more
  exact Nat.div_lt_self (by omega) more.2

/-- The digits of a number, the first one first. -/
def digitsText (num base : Nat) : List UInt8 :=
  if base ≤ num ∧ 1 < base then
    digitsText (num / base) base ++ [hexDigits.getD (num % base) 0]
  else [hexDigits.getD (num % base) 0]
termination_by num
decreasing_by
  rename_i more
  exact Nat.div_lt_self (by omega) more.2

/-- A number is padding and digits. -/
theorem printnum_feed {base : Nat} (positive : 0 < base) (num : Nat) (width : Int32)
    (padc : UInt8) (s : σ) :
    printnum putch num base width padc s =
      feed putch (List.replicate (padWidth num base width).toInt.toNat (ofChar padc) ++
        (digitsText num base).map ofChar) s := by
  induction num using Nat.strong_induction_on generalizing width s with
  | _ num ih =>
      rw [printnum, padWidth, digitsText, doDiv_eq num positive]
      by_cases more : base ≤ num ∧ 1 < base
      · have less : num / base < num := Nat.div_lt_self (by omega) more.2
        simp only [if_pos more]
        rw [ih _ less, List.map_append, ← List.append_assoc]
        simp
      · simp only [if_neg more]
        rw [putPads_feed, feed_append]
        rfl

/-- A string is put out up to its end or its precision. -/
theorem stringLoop_feed (altflag : Bool) (p : List UInt8) (precision width : Int32) :
    ∃ width' out, ∀ (σ : Type) (putch : Putch σ) (s : σ),
      stringLoop putch altflag p precision width s = (width', feed putch out s) := by
  induction p generalizing precision width with
  | nil => exact ⟨width, [], fun _ _ _ => rfl⟩
  | cons c p ih =>
      by_cases stops : ofChar c = 0 ∨ 0 ≤ precision ∧ precision - 1 < 0
      · exact ⟨width, [], fun _ _ _ => if_pos stops⟩
      · rcases ih (if precision < 0 then precision else precision - 1) (width - 1) with
          ⟨width', out, same⟩
        refine ⟨width', (if altflag = true ∧ (ofChar c < 32 ∨ 126 < ofChar c) then 63
          else ofChar c) :: out, fun σ putch s => ?_⟩
        exact (if_neg stops).trans (same σ putch _)

end

/-- What a function puts out, wherever it puts it. -/
def Emits (run : ∀ (σ : Type), Putch σ → σ → σ) (out : List Int32) : Prop :=
  ∀ (σ : Type) (putch : Putch σ) (s : σ), run σ putch s = feed putch out s

theorem putNumber_emits (flags : Flags) (num : Nat) {base : Nat} (positive : 0 < base) :
    ∃ out, Emits (fun _ putch s => putNumber putch flags num base s) out :=
  ⟨_, fun _ putch s => printnum_feed putch positive num flags.width flags.padc s⟩

theorem finishString_emits (flags : Flags) (p : List UInt8) (width : Int32) :
    ∃ out, Emits (fun _ putch s => finishString putch flags p width s) out := by
  rcases stringLoop_feed flags.altflag p flags.precision width with ⟨width', out, same⟩
  refine ⟨out ++ List.replicate width'.toInt.toNat 32, fun σ putch s => ?_⟩
  change finishString putch flags p width s = _
  rw [finishString, same, feed_append]
  exact putPads_feed ..

theorem putString_emits (flags : Flags) (p : List UInt8) :
    ∃ out, Emits (fun _ putch s => putString putch flags p s) out := by
  by_cases padded : 0 < flags.width ∧ flags.padc ≠ 45
  · generalize left : flags.width - Int32.ofNat (strnlen p flags.precision.toUInt32.toNat) = width
    rcases finishString_emits flags p (if 0 < width then 0 else width) with ⟨out, same⟩
    refine ⟨List.replicate width.toInt.toNat (ofChar flags.padc) ++ out, fun σ putch s => ?_⟩
    change putString putch flags p s = _
    rw [putString, if_pos padded, left]
    simp only
    rw [putPads_feed, feed_append]
    exact same σ putch _
  · rcases finishString_emits flags p flags.width with ⟨out, same⟩
    refine ⟨out, fun σ putch s => ?_⟩
    change putString putch flags p s = _
    rw [putString, if_neg padded]
    exact same σ putch s

theorem putSigned_emits (flags : Flags) (num : Int64) :
    ∃ out, Emits (fun _ putch s => putSigned putch flags num s) out := by
  by_cases negative : num < 0
  · rcases putNumber_emits flags (-num).toUInt64.toNat (show 0 < 10 by decide) with ⟨out, same⟩
    refine ⟨45 :: out, fun σ putch s => ?_⟩
    change putSigned putch flags num s = _
    rw [putSigned, if_pos negative]
    exact same σ putch _
  · rcases putNumber_emits flags num.toUInt64.toNat (show 0 < 10 by decide) with ⟨out, same⟩
    refine ⟨out, fun σ putch s => ?_⟩
    change putSigned putch flags num s = _
    rw [putSigned, if_neg negative]
    exact same σ putch s

/-- A conversion is unknown, or it puts something out. -/
theorem convert_emits (ch : UInt8) (flags : Flags) (arg : Arg) :
    (∀ (σ : Type) (putch : Putch σ) (s : σ), convert putch ch flags arg s = none) ∨
      ∃ out, ∀ (σ : Type) (putch : Putch σ) (s : σ),
        convert putch ch flags arg s = some (feed putch out s) := by
  have known : ∀ (run : ∀ (σ : Type), Putch σ → σ → σ), (∃ out, Emits run out) →
      (∀ (σ : Type) (putch : Putch σ) (s : σ),
        convert putch ch flags arg s = some (run σ putch s)) →
      ∃ out, ∀ (σ : Type) (putch : Putch σ) (s : σ),
        convert putch ch flags arg s = some (feed putch out s) := by
    rintro run ⟨out, emits⟩ same
    exact ⟨out, fun σ putch s => (same σ putch s).trans (congrArg some (emits σ putch s))⟩
  by_cases c : ch = 99
  · refine .inr ⟨[arg.word.toInt32], fun σ putch s => ?_⟩
    rw [convert, if_pos c]
    rfl
  by_cases str : ch = 115
  · refine .inr (known _ (putString_emits flags (arg.string.getD (ascii "(null)")))
      fun σ putch s => ?_)
    rw [convert, if_neg c, if_pos str]
  by_cases d : ch = 100
  · refine .inr (known _ (putSigned_emits flags (getint arg flags.lflag)) fun σ putch s => ?_)
    rw [convert, if_neg c, if_neg str, if_pos d]
  by_cases u : ch = 117
  · refine .inr (known _ (putNumber_emits flags (getuint arg flags.lflag)
      (show 0 < 10 by decide)) fun σ putch s => ?_)
    rw [convert, if_neg c, if_neg str, if_neg d, if_pos u]
  by_cases o : ch = 111
  · refine .inr (known _ (putNumber_emits flags (getuint arg flags.lflag)
      (show 0 < 8 by decide)) fun σ putch s => ?_)
    rw [convert, if_neg c, if_neg str, if_neg d, if_neg u, if_pos o]
  by_cases p : ch = 112
  · rcases putNumber_emits flags arg.word.toNat (show 0 < 16 by decide) with ⟨out, same⟩
    refine .inr ⟨48 :: 120 :: out, fun σ putch s => ?_⟩
    rw [convert, if_neg c, if_neg str, if_neg d, if_neg u, if_neg o, if_pos p]
    exact congrArg some (same σ putch _)
  by_cases x : ch = 120
  · refine .inr (known _ (putNumber_emits flags (getuint arg flags.lflag)
      (show 0 < 16 by decide)) fun σ putch s => ?_)
    rw [convert, if_neg c, if_neg str, if_neg d, if_neg u, if_neg o, if_neg p, if_pos x]
  · refine .inl fun σ putch s => ?_
    rw [convert, if_neg c, if_neg str, if_neg d, if_neg u, if_neg o, if_neg p, if_neg x]

/-! ## The format is not left -/

variable {fmt : List UInt8} {fuel i : Nat}

theorem readFmt_of_le (inside : i ≤ fmt.length) : ∃ ch, readFmt fmt i = .ok ch := by
  rcases inside.eq_or_lt with last | before
  · exact ⟨0, by rw [readFmt, if_neg last.not_lt, if_pos last]⟩
  · exact ⟨_, if_pos before⟩

/-- A character other than NUL is in front of the end. -/
theorem lt_of_readFmt {ch : UInt8} (read : readFmt fmt i = .ok ch) (other : ch ≠ 0) :
    i < fmt.length := by
  unfold readFmt at read
  split at read
  · assumption
  · split at read
    · cases read
      exact absurd rfl other
    · cases read

/-- The digits of a width are in the format. -/
theorem widthLoop_spec (ch : UInt8) (precision : Int32) (inside : i ≤ fmt.length)
    (enough : fmt.length - i < fuel) :
    ∃ precision' i', widthLoop fmt fuel i ch precision = .ok (precision', i') ∧ i ≤ i' ∧
      i' ≤ fmt.length := by
  induction fuel generalizing i ch precision with
  | zero => exact absurd enough (Nat.not_lt_zero _)
  | succ fuel ih =>
      rcases readFmt_of_le inside with ⟨next, read⟩
      rw [widthLoop]
      simp only [read, bind, Except.bind]
      by_cases digit : isDecimal next = true
      · have nonzero : next ≠ 0 := by
          rintro rfl
          cases digit
        have before := lt_of_readFmt read nonzero
        rw [if_pos digit]
        rcases ih next (precision * 10 + ofChar ch - 48) before (by omega) with
          ⟨precision', i', result, low, high⟩
        exact ⟨precision', i', result, by omega, high⟩
      · rw [if_neg digit]
        exact ⟨_, i, rfl, le_rfl, inside⟩

/-- The flags come to an end at a character of the format, or at the NUL. -/
theorem reswitch_spec (flags : Flags) (args : Args) (inside : i ≤ fmt.length)
    (enough : fmt.length - i < fuel) :
    ∃ ch i' flags' args', reswitch fmt fuel i flags args = .ok (ch, i' + 1, flags', args') ∧
      i ≤ i' ∧ i' ≤ fmt.length ∧ readFmt fmt i' = .ok ch := by
  induction fuel generalizing i flags args with
  | zero => exact absurd enough (Nat.not_lt_zero _)
  | succ fuel ih =>
      rcases readFmt_of_le inside with ⟨ch, read⟩
      have more : ∀ (j : Nat) (flags' : Flags) (args' : Args), ch ≠ 0 → i < j → j ≤ fmt.length →
          ∃ ch i' flags'' args'', reswitch fmt fuel j flags' args' =
            .ok (ch, i' + 1, flags'', args'') ∧ i ≤ i' ∧ i' ≤ fmt.length ∧
            readFmt fmt i' = .ok ch := by
        intro j flags' args' _ after before
        rcases ih flags' args' before (by omega) with ⟨ch, i', flags'', args'', result, low, rest⟩
        exact ⟨ch, i', flags'', args'', result, by omega, rest⟩
      have next : ch ≠ 0 → i + 1 ≤ fmt.length := fun other => lt_of_readFmt read other
      rw [reswitch]
      simp only [read, bind, Except.bind]
      by_cases minus : ch = 45
      · have other : ch ≠ 0 := by rw [minus]; decide
        rw [if_pos minus]
        exact more _ _ _ other (Nat.lt_succ_self i) (next other)
      by_cases zero : ch = 48
      · have other : ch ≠ 0 := by rw [zero]; decide
        rw [if_neg minus, if_pos zero]
        exact more _ _ _ other (Nat.lt_succ_self i) (next other)
      by_cases digit : isDecimal ch = true
      · have other : ch ≠ 0 := by
          rintro rfl
          cases digit
        rw [if_neg minus, if_neg zero, if_pos digit]
        have room := next other
        have enough' : fmt.length - (i + 1) < fuel := by omega
        rcases widthLoop_spec ch 0 room enough' with ⟨precision, j, result, low, high⟩
        rw [result]
        exact more _ _ _ other low high
      by_cases star : ch = 42
      · have other : ch ≠ 0 := by rw [star]; decide
        rw [if_neg minus, if_neg zero, if_neg digit, if_pos star]
        exact more _ _ _ other (Nat.lt_succ_self i) (next other)
      by_cases dot : ch = 46
      · have other : ch ≠ 0 := by rw [dot]; decide
        rw [if_neg minus, if_neg zero, if_neg digit, if_neg star, if_pos dot]
        exact more _ _ _ other (Nat.lt_succ_self i) (next other)
      by_cases hash : ch = 35
      · have other : ch ≠ 0 := by rw [hash]; decide
        rw [if_neg minus, if_neg zero, if_neg digit, if_neg star, if_neg dot, if_pos hash]
        exact more _ _ _ other (Nat.lt_succ_self i) (next other)
      by_cases long : ch = 108
      · have other : ch ≠ 0 := by rw [long]; decide
        rw [if_neg minus, if_neg zero, if_neg digit, if_neg star, if_neg dot, if_neg hash,
          if_pos long]
        exact more _ _ _ other (Nat.lt_succ_self i) (next other)
      · rw [if_neg minus, if_neg zero, if_neg digit, if_neg star, if_neg dot, if_neg hash,
          if_neg long]
        exact ⟨ch, i, flags, args, rfl, le_rfl, inside, read⟩

/-- Going back ends behind the `%` of the conversion, or behind a later one. -/
theorem rewind_spec {start k : Nat} (percent : readFmt fmt start = .ok 37) (after : start < k)
    (inside : k ≤ fmt.length) : ∃ j, rewind fmt k = .ok j ∧ start < j ∧ j ≤ k := by
  induction k with
  | zero => exact absurd after (Nat.not_lt_zero _)
  | succ k ih =>
      rcases readFmt_of_le (Nat.le_of_succ_le inside) with ⟨ch, read⟩
      rw [rewind]
      simp only [read, bind, Except.bind]
      by_cases found : ch = 37
      · rw [if_pos found]
        exact ⟨k + 1, rfl, after, le_rfl⟩
      · rw [if_neg found]
        have earlier : start < k := by
          refine Nat.lt_of_le_of_ne (Nat.le_of_lt_succ after) fun same => ?_
          rw [same, read] at percent
          exact found (Except.ok.inj percent)
        rcases ih earlier (Nat.le_of_succ_le inside) with ⟨j, result, low, high⟩
        exact ⟨j, result, low, high.trans (Nat.le_succ k)⟩

/-! ## Whole formats -/

section

variable {σ : Type} {putch : Putch σ} {s s' : σ} {args args' : Args} {ch : UInt8} {flags : Flags}
  {j : Nat}

/-- The loop ends at the NUL. -/
theorem vprintfmtLoop_end (read : readFmt fmt i = .ok 0) :
    vprintfmtLoop putch (fuel + 1) fmt i args s = .ok s := by
  rw [vprintfmtLoop, read]
  rfl

/-- A character other than `%` is put out. -/
theorem vprintfmtLoop_literal (read : readFmt fmt i = .ok ch) (percent : ch ≠ 37) (stop : ch ≠ 0) :
    vprintfmtLoop putch (fuel + 1) fmt i args s =
      vprintfmtLoop putch fuel fmt (i + 1) args (putch (ofUnsignedChar ch) s) := by
  rw [vprintfmtLoop, read]
  simp only [ok_bind, ne_eq, percent, not_false_eq_true, if_true, if_neg stop]

/-- The argument of a conversion is put out. -/
theorem vprintfmtLoop_convert (read : readFmt fmt i = .ok 37)
    (switched : reswitch fmt (fuel + 1) (i + 1) .zero args = .ok (ch, j, flags, args'))
    (error : ch ≠ 101) (percent : ch ≠ 37)
    (converts : convert putch ch flags (vaArg args') s = some s') :
    vprintfmtLoop putch (fuel + 1) fmt i args s =
      vprintfmtLoop putch fuel fmt j (vaRest args') s' := by
  rw [vprintfmtLoop, read]
  simp only [ok_bind, switched, ne_eq, not_true_eq_false, if_false, if_neg error, if_neg percent,
    converts]

end

/-- What one round of the loop does: it ends, or it puts something out and goes on further
behind, or it first prints the message of an error. -/
inductive Round (fuel : Nat) (fmt : List UInt8) (i : Nat) (args : Args) : Prop
  | ends (ends : ∀ (σ : Type) (putch : Putch σ) (s : σ),
      vprintfmtLoop putch (fuel + 1) fmt i args s = .ok s)
  | goes (j : Nat) (args' : Args) (out : List Int32) (after : i < j) (inside : j ≤ fmt.length)
      (goes : ∀ (σ : Type) (putch : Putch σ) (s : σ),
        vprintfmtLoop putch (fuel + 1) fmt i args s =
          vprintfmtLoop putch fuel fmt j args' (feed putch out s))
  | error (j : Nat) (arg : Arg) (args' : Args) (after : i < j) (last : readFmt fmt j = .ok 101)
      (goes : ∀ (σ : Type) (putch : Putch σ) (s : σ),
        vprintfmtLoop putch (fuel + 1) fmt i args s =
          (vprintfmtLoop putch fuel (errorCall arg).1 0 (errorCall arg).2 s >>= fun s =>
            vprintfmtLoop putch fuel fmt (j + 1) args' s))

theorem vprintfmtLoop_round (args : Args) (inside : i ≤ fmt.length)
    (enough : fmt.length - i ≤ fuel) : Round fuel fmt i args := by
  rcases readFmt_of_le inside with ⟨ch, read⟩
  by_cases percent : ch = 37
  · subst percent
    have before := lt_of_readFmt read (by decide)
    have room : fmt.length - (i + 1) < fuel + 1 := by omega
    rcases reswitch_spec .zero args (Nat.succ_le_of_lt before) room with
      ⟨ch, i', flags, args', switched, low, high, last⟩
    have known : ch ≠ 0 → i' + 1 ≤ fmt.length := fun other => lt_of_readFmt last other
    by_cases error : ch = 101
    · refine .error i' (vaArg args') (vaRest args') (Nat.lt_of_succ_le low) (error ▸ last)
        fun σ putch s => ?_
      rw [vprintfmtLoop]
      simp only [read, switched, ok_bind, if_pos error, ne_eq, not_true_eq_false, if_false]
    by_cases literal : ch = 37
    · have other : ch ≠ 0 := by rw [literal]; decide
      refine .goes (i' + 1) args' [ofUnsignedChar ch] (by omega) (known other)
        fun σ putch s => ?_
      rw [vprintfmtLoop]
      simp only [read, switched, ok_bind, if_neg error, if_pos literal, ne_eq, not_true_eq_false,
        if_false]
      rfl
    rcases convert_emits ch flags (vaArg args') with unknown | ⟨out, converts⟩
    · rcases rewind_spec read (Nat.lt_of_succ_le low) high with ⟨j, rewound, after, before'⟩
      refine .goes j args' [37] after (before'.trans high) fun σ putch s => ?_
      rw [vprintfmtLoop]
      simp only [read, switched, ok_bind, if_neg error, if_neg literal, ne_eq, not_true_eq_false,
        if_false, unknown, Nat.add_sub_cancel, rewound]
      rfl
    · have other : ch ≠ 0 := by
        rintro rfl
        have none : convert (fun _ s => s) 0 flags (vaArg args') () = none := rfl
        rw [converts] at none
        cases none
      exact .goes (i' + 1) (vaRest args') out (by omega) (known other) fun σ putch s =>
        vprintfmtLoop_convert read switched error literal (converts σ putch s)
  · by_cases stop : ch = 0
    · exact .ends fun σ putch s => vprintfmtLoop_end (stop ▸ read)
    · exact .goes (i + 1) args [ofUnsignedChar ch] (Nat.lt_succ_self i)
        (lt_of_readFmt read stop) fun σ putch s => vprintfmtLoop_literal read percent stop

/-- A format without errors is put out in as many rounds as it has characters, and one. -/
theorem vprintfmtLoop_plain (args : Args) (plain : ∀ j, 0 < j → readFmt fmt j ≠ .ok 101)
    (inside : i ≤ fmt.length) (enough : fmt.length - i < fuel) :
    ∃ out, ∀ (σ : Type) (putch : Putch σ) (s : σ),
      vprintfmtLoop putch fuel fmt i args s = .ok (feed putch out s) := by
  induction fuel generalizing i args with
  | zero => exact absurd enough (Nat.not_lt_zero _)
  | succ fuel ih =>
      cases vprintfmtLoop_round args inside (Nat.le_of_lt_succ enough) with
      | ends ends => exact ⟨[], ends⟩
      | goes j args' out after inside' goes =>
          rcases ih (i := j) args' inside' (by omega) with ⟨rest, puts⟩
          refine ⟨out ++ rest, fun σ putch s => ?_⟩
          rw [goes, puts, feed_append]
      | error j arg args' after last goes =>
          exact absurd last (plain j (Nat.zero_lt_of_lt after))

theorem errorCall_format (arg : Arg) :
    (errorCall arg).1 = errorFormat ∨ (errorCall arg).1 = stringFormat := by
  unfold errorCall
  simp only
  split
  · exact .inl rfl
  · exact .inr rfl

/-- The message of an error is put out. -/
theorem errorCall_emits (arg : Arg) (enough : 9 ≤ fuel) :
    ∃ out, ∀ (σ : Type) (putch : Putch σ) (s : σ),
      vprintfmtLoop putch fuel (errorCall arg).1 0 (errorCall arg).2 s =
        .ok (feed putch out s) := by
  have plain : (errorCall arg).1.length ≤ 8 ∧
      ∀ j < (errorCall arg).1.length, 0 < j → readFmt (errorCall arg).1 j ≠ .ok 101 := by
    rcases errorCall_format arg with format | format
    · rw [format]
      decide
    · rw [format]
      decide
  refine vprintfmtLoop_plain _ (fun j positive error => ?_) (Nat.zero_le _) (by omega)
  exact plain.2 j (lt_of_readFmt error (by decide)) positive error

/-- Formatting comes to an end, whatever the format and the arguments are, and puts out the same
characters wherever they are put. -/
theorem vprintfmtLoop_emits (args : Args) (inside : i ≤ fmt.length)
    (enough : fmt.length - i + 10 ≤ fuel) :
    ∃ out, ∀ (σ : Type) (putch : Putch σ) (s : σ),
      vprintfmtLoop putch fuel fmt i args s = .ok (feed putch out s) := by
  induction fuel generalizing i args with
  | zero => omega
  | succ fuel ih =>
      have room : fmt.length - i ≤ fuel := by omega
      cases vprintfmtLoop_round args inside room with
      | ends ends => exact ⟨[], ends⟩
      | goes j args' out after inside' goes =>
          rcases ih (i := j) args' inside' (by omega) with ⟨rest, puts⟩
          refine ⟨out ++ rest, fun σ putch s => ?_⟩
          rw [goes, puts, feed_append]
      | error j arg args' after last goes =>
          have before := lt_of_readFmt last (by decide)
          have nine : 9 ≤ fuel := by omega
          rcases errorCall_emits arg nine with ⟨message, puts⟩
          rcases ih (i := j + 1) args' (Nat.succ_le_of_lt before) (by omega) with ⟨rest, puts'⟩
          refine ⟨message ++ rest, fun σ putch s => ?_⟩
          rw [goes, puts, ok_bind, puts', feed_append]

theorem vprintfmt_emits (fmt : List UInt8) (args : Args) :
    ∃ out, ∀ (σ : Type) (putch : Putch σ) (s : σ),
      vprintfmt putch fmt args s = .ok (feed putch out s) :=
  vprintfmtLoop_emits args (Nat.zero_le _) le_rfl

end EdfKernel.Text
