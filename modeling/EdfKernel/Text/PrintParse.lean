import EdfKernel.Text.Snprintf
import EdfKernel.Text.Strtol

/-!
# Numbers that are printed and read

What `vprintfmt` prints for a number, in whatever field, is read by `strtol` as that number.
-/

namespace EdfKernel.Text

open Library

/-! ## Digits -/

variable {base num : Nat} {digits : List UInt8}

theorem digitOf_hexDigits : ∀ d < 16, digitOf (hexDigits.getD d 0) = some d := by
  decide

/-- The digits of a number are digits of its base. -/
theorem digitsText_valid (num : Nat) (low : 2 ≤ base) (high : base ≤ 16) :
    ∀ c ∈ digitsText num base, IsDigit base c := by
  have last : ∀ num, IsDigit base (hexDigits.getD (num % base) 0) := by
    intro num
    have small : num % base < base := Nat.mod_lt num (by omega)
    exact ⟨num % base, digitOf_hexDigits _ (by omega), small⟩
  induction num using Nat.strong_induction_on with
  | _ num ih =>
      intro c mem
      rw [digitsText] at mem
      split at mem
      case isTrue more =>
        rcases List.mem_append.mp mem with first | own
        · exact ih (num / base) (Nat.div_lt_self (by omega) more.2) c first
        · rw [List.mem_singleton.mp own]
          exact last num
      case isFalse =>
        rw [List.mem_singleton.mp mem]
        exact last num

@[simp]
theorem magnitude_nil : magnitude base [] = 0 :=
  rfl

theorem magnitude_concat (digits : List UInt8) (c : UInt8) :
    magnitude base (digits ++ [c]) = magnitude base digits * base + digitValue c := by
  simp [magnitude, Nat.ofDigits_cons, Nat.mul_comm, Nat.add_comm]

/-- The digits of a number denote it. -/
theorem magnitude_digitsText (num : Nat) (low : 2 ≤ base) (high : base ≤ 16) :
    magnitude base (digitsText num base) = num := by
  have last : ∀ num, digitValue (hexDigits.getD (num % base) 0) = num % base := by
    intro num
    have small : num % base < base := Nat.mod_lt num (by omega)
    rw [digitValue, digitOf_hexDigits _ (by omega)]
    rfl
  induction num using Nat.strong_induction_on with
  | _ num ih =>
      rw [digitsText]
      split
      case isTrue more =>
        rw [magnitude_concat, ih (num / base) (Nat.div_lt_self (by omega) more.2), last]
        exact Nat.div_add_mod' num base
      case isFalse one =>
        have below : num < base := by omega
        rw [← List.nil_append [hexDigits.getD (num % base) 0], magnitude_concat, last,
          magnitude_nil, Nat.zero_mul, Nat.zero_add, Nat.mod_eq_of_lt below]

/-- Zeros in front of the digits do not count. -/
theorem magnitude_zeros (count : Nat) (digits : List UInt8) :
    magnitude base (List.replicate count 48 ++ digits) = magnitude base digits := by
  have zero : digitValue 48 = 0 := rfl
  induction count with
  | zero => rfl
  | succ count ih =>
      rw [← ih, List.replicate_succ, List.cons_append, magnitude, List.map_cons,
        Nat.ofDigits_reverse_cons, zero, Nat.mul_zero, Nat.add_zero]
      rfl

theorem zero_isDigit (low : 2 ≤ base) : IsDigit base 48 :=
  ⟨0, rfl, by omega⟩

/-- At most as many digits as binary digits are printed. -/
theorem length_digitsText (low : 2 ≤ base) {count : Nat} (positive : 0 < count)
    (below : num < 2 ^ count) : (digitsText num base).length ≤ count := by
  induction count generalizing num with
  | zero => exact absurd positive (Nat.lt_irrefl 0)
  | succ count ih =>
      rw [digitsText]
      split
      case isTrue more =>
        have half : num / base ≤ num / 2 := Nat.div_le_div_left low (by decide)
        have less : num / base < 2 ^ count := by
          rw [Nat.pow_succ] at below
          omega
        have nonzero : 0 < num / base := Nat.div_pos more.1 (by omega)
        have positive' : 0 < count := by
          by_contra none
          rw [Nat.eq_zero_of_not_pos none] at less
          omega
        rw [List.length_append, List.length_singleton]
        exact Nat.succ_le_succ (ih positive' less)
      case isFalse => simp

/-- Without a width there is no padding. -/
theorem padWidth_negative (width : Int32) (negative : width.toInt < 0)
    (enough : (digitsText num base).length ≤ 2 ^ 31 + width.toInt) :
    (padWidth num base width).toInt.toNat = 0 := by
  induction num using Nat.strong_induction_on generalizing width with
  | _ num ih =>
      have low := Int32.le_toInt width
      have shorter : 1 ≤ 2 ^ 31 + width.toInt → (width - 1).toInt = width.toInt - 1 := by
        intro room
        rw [Int32.toInt_sub]
        exact Int.bmod_eq_of_le (by simp; omega) (by simp; omega)
      rw [padWidth]
      rw [digitsText] at enough
      split
      case isTrue more =>
        rw [if_pos more, List.length_append, List.length_singleton] at enough
        have next := shorter (by omega)
        exact ih (num / base) (Nat.div_lt_self (by omega) more.2) (width - 1) (by omega)
          (by omega)
      case isFalse one =>
        rw [if_neg one, List.length_singleton] at enough
        have next := shorter (by omega)
        omega

/-! ## Reading -/

theorem IsDigit.printable {c : UInt8} (digit : IsDigit base c) :
    isGap c = false ∧ c ≠ 43 ∧ c ≠ 45 := by
  rcases digit with ⟨d, found, _⟩
  refine ⟨?_, ?_, ?_⟩
  · by_contra gap
    have blank : c = 32 ∨ c = 9 := by
      rw [Bool.not_eq_false, isGap, Bool.or_eq_true, beq_iff_eq, beq_iff_eq] at gap
      exact gap
    rcases blank with rfl | rfl <;> cases found
  · rintro rfl
    cases found
  · rintro rfl
    cases found

/-- Digits of a base up to 16 do not begin like a hexadecimal number. -/
theorem not_mark_of_digits (high : base ≤ 16) (valid : ∀ c ∈ digits, IsDigit base c)
    (mark : List UInt8) (isMark : IsHexMark mark) : ¬mark <+: digits := by
  intro begins
  have letter : ∃ c ∈ mark, digitOf c = some 33 := by
    rcases isMark with rfl | rfl
    · exact ⟨120, by decide, rfl⟩
    · exact ⟨88, by decide, rfl⟩
  rcases letter with ⟨c, mem, found⟩
  rcases valid c (begins.subset mem) with ⟨d, found', small⟩
  rw [found] at found'
  cases found'
  omega

/-- Digits behind blanks and a minus sign are read to their end. -/
theorem strtol_digits {sign : List UInt8} (gaps : List UInt8) (low : 2 ≤ base) (high : base ≤ 16)
    (blank : ∀ c ∈ gaps, isGap c = true) (signed : sign = [] ∨ sign = [45])
    (valid : ∀ c ∈ digits, IsDigit base c) :
    strtol (gaps ++ (sign ++ digits)) true base =
      (Int32.ofInt (if sign = [45] then -(magnitude base digits : Int) else magnitude base digits),
        some []) := by
  have first : ∀ c, digits[0]? = some c → IsDigit base c := fun c found =>
    valid c (List.mem_of_getElem? found)
  let n : Numeral base (gaps ++ (sign ++ digits)) :=
    { gaps, sign, mark := [], radix := base, digits, rest := []
      text := by simp
      gaps_blank := blank
      gaps_longest := by
        intro c found
        rcases signed with rfl | rfl
        · exact (first c (by simpa using found)).printable.1
        · cases found
          rfl
      sign_form := by
        rcases signed with rfl | rfl
        · exact .inr (.inr ⟨rfl, fun c found => (first c (by simpa using found)).printable.2⟩)
        · exact .inr (.inl rfl)
      mark_form := .plain (by omega) fun _ mark isMark => by
        simpa using not_mark_of_digits high valid mark isMark
      digits_form := valid
      digits_longest := by simp }
  exact n.strtol (by simp [n])

/-- Hexadecimal digits behind `0x` are read to their end in base 0. -/
theorem strtol_marked (valid : ∀ c ∈ digits, IsDigit 16 c) :
    strtol (48 :: 120 :: digits) true 0 = (Int32.ofInt (magnitude 16 digits), some []) := by
  let n : Numeral 0 (48 :: 120 :: digits) :=
    { gaps := [], sign := [], mark := [48, 120], radix := 16, digits, rest := []
      text := by simp
      gaps_blank := by simp
      gaps_longest := fun c found => by
        cases found
        rfl
      sign_form := .inr (.inr ⟨rfl, fun c found => by
        cases found
        decide⟩)
      mark_form := .hex _ (.inl rfl) (.inl rfl) (List.prefix_append ..)
      digits_form := valid
      digits_longest := by simp }
  exact n.strtol (by simp [n])

/-! ## Printing -/

/-- A field width in a format: digits, with a 0 in front for padding with zeros, and `*` for a
width among the arguments. -/
structure Field where
  text : List UInt8
  form : ∀ c ∈ text, isDecimal c = true ∨ c = 42

namespace Field

/-- The format that prints a number in the field, with the last character of its conversion. -/
def format (field : Field) (last : UInt8) : List UInt8 := 37 :: (field.text ++ [last])

/-- The argument that is printed: the first one behind the widths. -/
def arg (field : Field) (args : Args) : Arg := args (field.text.count 42)

/-- There is no width, or it is padded with zeros. -/
def Unblanked (field : Field) : Prop := field.text = [] ∨ field.text[0]? = some 48

end Field

/-- The text that is printed. -/
def printed (fmt : List UInt8) (args : Args) : Except Stop (List UInt8) :=
  (output fmt args).map fun out => out.map toChar

theorem readFmt_append (first : List UInt8) (c : UInt8) (rest : List UInt8) :
    readFmt (first ++ c :: rest) first.length = .ok c := by
  rw [readFmt, if_pos (by simp)]
  simp

theorem readFmt_length (fmt : List UInt8) : readFmt fmt fmt.length = .ok 0 := by
  simp [readFmt]

variable {first text : List UInt8} {last : UInt8} {fuel : Nat}

/-- The digits of a width are read up to a `*` or the end of the field. -/
theorem widthLoop_field (first : List UInt8) (form : ∀ c ∈ text, isDecimal c = true ∨ c = 42)
    (letter : isDecimal last = false) (enough : text.length < fuel) (ch : UInt8)
    (precision : Int32) :
    ∃ read left, text = read ++ left ∧ left.count 42 = text.count 42 ∧ ∃ precision',
      widthLoop (first ++ (text ++ [last])) fuel first.length ch precision =
        .ok (precision', (first ++ read).length) := by
  induction text generalizing first fuel ch precision with
  | nil =>
      cases fuel with
      | zero => exact absurd enough (Nat.not_lt_zero _)
      | succ fuel =>
          refine ⟨[], [], rfl, rfl, precision * 10 + ofChar ch - 48, ?_⟩
          rw [widthLoop, List.nil_append, readFmt_append]
          simp only [ok_bind, letter]
          rw [List.append_nil]
          rfl
  | cons c text ih =>
      cases fuel with
      | zero => exact absurd enough (Nat.not_lt_zero _)
      | succ fuel =>
          have enough' : text.length < fuel := Nat.lt_of_succ_lt_succ enough
          rw [widthLoop, List.cons_append, readFmt_append]
          simp only [ok_bind]
          by_cases digit : isDecimal c = true
          · rcases ih (first ++ [c]) (fun d mem => form d (List.mem_cons_of_mem c mem)) enough' c
              (precision * 10 + ofChar ch - 48) with
              ⟨read, left, split, stars, precision', result⟩
            have other : c ≠ 42 := by
              rintro rfl
              cases digit
            refine ⟨c :: read, left, by rw [split]; rfl, ?_, precision', ?_⟩
            · rw [stars, List.count_cons_of_ne other]
            · simpa [digit] using result
          · refine ⟨[], c :: text, rfl, rfl, precision * 10 + ofChar ch - 48, ?_⟩
            rw [if_neg digit, List.append_nil]
            rfl

@[simp]
theorem processPrecision_padc (flags : Flags) : (processPrecision flags).padc = flags.padc := by
  unfold processPrecision
  split <;> rfl

@[simp]
theorem processPrecision_lflag (flags : Flags) :
    (processPrecision flags).lflag = flags.lflag := by
  unfold processPrecision
  split <;> rfl

/-- The flags behind a field: padding with blanks or zeros, and an argument of 32 bits. -/
structure Flags.IsField (flags : Flags) : Prop where
  pad : flags.padc = 32 ∨ flags.padc = 48
  short : flags.lflag = 0

/-- A field is read up to the last character of the conversion. -/
theorem reswitch_field {flags : Flags} (first : List UInt8) (args : Args)
    (form : ∀ c ∈ text, isDecimal c = true ∨ c = 42) (letter : last = 120 ∨ last = 111)
    (enough : text.length < fuel) (isField : flags.IsField) :
    ∃ flags', reswitch (first ++ (text ++ [last])) fuel first.length flags args =
        .ok (last, (first ++ (text ++ [last])).length, flags', fun i => args (i + text.count 42)) ∧
      flags'.IsField ∧ (flags.padc = 48 ∨ text[0]? = some 48 → flags'.padc = 48) ∧
      (text = [] → flags' = flags) := by
  induction fuel generalizing first text flags args with
  | zero => exact absurd enough (Nat.not_lt_zero _)
  | succ fuel ih =>
      cases text with
      | nil =>
          refine ⟨flags, ?_, isField, fun zeros => zeros.resolve_right (by simp), fun _ => rfl⟩
          rw [reswitch, List.nil_append, readFmt_append]
          rcases letter with rfl | rfl <;> simp [isDecimal] <;> rfl
      | cons c text =>
          have form' : ∀ d ∈ text, isDecimal d = true ∨ d = 42 := fun d mem =>
            form d (List.mem_cons_of_mem c mem)
          have enough' : text.length < fuel := Nat.lt_of_succ_lt_succ enough
          have split : first ++ (c :: (text ++ [last])) = first ++ [c] ++ (text ++ [last]) := by
            simp
          have next : first.length + 1 = (first ++ [c]).length := by simp
          rw [reswitch, List.cons_append, readFmt_append]
          simp only [ok_bind]
          rcases form c List.mem_cons_self with digit | rfl
          · have other : c ≠ 42 := by
              rintro rfl
              cases digit
            have minus : c ≠ 45 := by
              rintro rfl
              cases digit
            rw [if_neg minus, List.count_cons_of_ne other, split, next]
            by_cases zero : c = 48
            · rw [if_pos zero]
              obtain ⟨flags', read, isField', zeros, _⟩ :=
                @ih text { flags with padc := 48 } _ _ form' enough' ⟨.inr rfl, isField.short⟩
              exact ⟨flags', read, isField', fun _ => zeros (.inl rfl), by rintro ⟨⟩⟩
            · have ends : isDecimal last = false := by
                rcases letter with rfl | rfl <;> rfl
              rw [if_neg zero, if_pos digit]
              rcases widthLoop_field (first ++ [c]) form' ends enough' c 0 with
                ⟨read, left, rfl, stars, precision, result⟩
              rw [result, ← stars]
              have chunk : first ++ [c] ++ (read ++ left ++ [last]) =
                  first ++ [c] ++ read ++ (left ++ [last]) := by simp
              rw [chunk]
              have isField₁ : (processPrecision { flags with precision }).IsField :=
                ⟨by simpa using isField.pad, by simpa using isField.short⟩
              have enough₁ : left.length < fuel := by
                simp at enough'
                omega
              obtain ⟨flags', read, isField', zeros, _⟩ := ih _ _
                (fun d mem => form' d (List.mem_append_right _ mem)) enough₁ isField₁
              refine ⟨flags', read, isField', fun before => zeros (.inl ?_), by rintro ⟨⟩⟩
              simpa using before.resolve_right fun same => zero (Option.some.inj same)
          · rw [if_neg (by decide), if_neg (by decide), if_neg (by decide), if_pos rfl,
              List.count_cons_self, split, next]
            have shift : (fun i => args (i + (text.count 42 + 1))) =
                fun i => vaRest args (i + text.count 42) := rfl
            rw [shift]
            have isField₁ : (processPrecision
                { flags with precision := (vaArg args).word.toInt32 }).IsField :=
              ⟨by simpa using isField.pad, by simpa using isField.short⟩
            obtain ⟨flags', read, isField', zeros, _⟩ := ih _ _ form' enough' isField₁
            refine ⟨flags', read, isField', fun before => zeros (.inl ?_), by rintro ⟨⟩⟩
            simpa using before.resolve_right (by simp)

/-- What a conversion with the last character `x` or `o` prints. -/
theorem output_field (field : Field) (args : Args)
    (letter : last = 120 ∧ base = 16 ∨ last = 111 ∧ base = 8) :
    ∃ count pad, (pad = 32 ∨ pad = 48) ∧ (field.Unblanked → count = 0 ∨ pad = 48) ∧
      output (field.format last) args = .ok ((List.replicate count pad ++ digitsText (field.arg args).word.toNat base).map
        ofChar) := by
  have fuel : field.text.length < (field.format last).length + 10 := by
    simp [Field.format]
    omega
  have zero : Flags.zero.IsField := ⟨.inl rfl, rfl⟩
  rcases reswitch_field [37] args field.form (letter.imp And.left And.left) fuel zero with
    ⟨flags, switched, isField, zeros, unpadded⟩
  have converts : convert (fun ch out => out ++ [ch]) last flags (field.arg args) [] =
      some (printnum (fun ch out => out ++ [ch]) (field.arg args).word.toNat base flags.width
        flags.padc []) := by
    rcases letter with ⟨rfl, rfl⟩ | ⟨rfl, rfl⟩
    · simp [convert, putNumber, getuint, isField.short]
    · simp [convert, putNumber, getuint, isField.short]
  have others : last ≠ 101 ∧ last ≠ 37 := by
    rcases letter with ⟨rfl, _⟩ | ⟨rfl, _⟩ <;> decide
  have stop : readFmt (field.format last) (field.format last).length = .ok 0 := readFmt_length _
  have positive : 0 < base := by omega
  refine ⟨(padWidth (field.arg args).word.toNat base flags.width).toInt.toNat, flags.padc,
    isField.pad, ?_, ?_⟩
  · rintro (plain | zero)
    · have digits : (digitsText (field.arg args).word.toNat base).length ≤ 32 :=
        length_digitsText (by omega) (by omega) (field.arg args).word.toNat_lt
      have minus : (-1 : Int32).toInt = -1 := rfl
      have width : flags.width = -1 := by rw [unpadded plain]; rfl
      exact .inl (width ▸ padWidth_negative (-1) (by decide) (by omega))
    · exact .inr (zeros (.inr zero))
  have started : readFmt (field.format last) 0 = .ok 37 := rfl
  have whole := vprintfmtLoop_convert started switched others.1 others.2
    (by simpa [Field.arg, vaArg] using converts)
  refine whole.trans ((vprintfmtLoop_end stop).trans ?_)
  rw [printnum_feed _ positive, feed_collect, List.nil_append, List.map_append,
    List.map_replicate]
  rfl

/-- A character survives being printed. -/
theorem toChar_ofChar (c : UInt8) : toChar (ofChar c) = c := by
  apply UInt8.toBitVec_inj.mp
  simp only [toChar, ofChar, UInt32.toBitVec_toUInt8, Int32.toBitVec_toUInt32,
    Int8.toBitVec_toInt32, UInt8.toBitVec_toInt8]
  ext i below
  rw [BitVec.getElem_setWidth, BitVec.getLsbD_signExtend]
  simp [below, show i < 32 by omega]

theorem printed_field (field : Field) (args : Args)
    (letter : last = 120 ∧ base = 16 ∨ last = 111 ∧ base = 8) :
    ∃ count pad, (pad = 32 ∨ pad = 48) ∧ (field.Unblanked → count = 0 ∨ pad = 48) ∧
      printed (field.format last) args =
        .ok (List.replicate count pad ++ digitsText (field.arg args).word.toNat base) := by
  rcases output_field field args letter with ⟨count, pad, either, unblanked, result⟩
  refine ⟨count, pad, either, unblanked, ?_⟩
  rw [printed, result]
  simp [Except.map, Function.comp_def, toChar_ofChar]

theorem toNat_of_nonneg {n : Int64} (nonneg : 0 ≤ n.toInt) :
    (n.toUInt64.toNat : Int) = n.toInt := by
  rw [Int64.toNat_toUInt64_of_le (Int64.le_iff_toInt_le.mpr nonneg)]
  exact Int.toNat_of_nonneg nonneg

/-- `%d`. -/
def signedFormat : List UInt8 := [37, 100]

/-- What the conversion `%d` prints for an `int`. -/
theorem output_signed (n : Int32) :
    output signedFormat (oneArg { word := n.toUInt32 }) =
      .ok (((if n.toInt < 0 then [45] else []) ++ digitsText n.toInt.natAbs 10).map ofChar) := by
  have low := Int32.le_toInt n
  have high := Int32.toInt_lt n
  have plain : ∀ (out : List Int32) (num : Nat), num < 2 ^ 32 →
      printnum (fun ch out => out ++ [ch]) num 10 (-1) 32 out =
        out ++ (digitsText num 10).map ofChar := by
    intro out num below
    have digits : (digitsText num 10).length ≤ 32 :=
      length_digitsText (by decide) (by decide) below
    have minus : (-1 : Int32).toInt = -1 := rfl
    rw [printnum_feed _ (by decide), feed_collect,
      padWidth_negative (-1) (by decide) (by omega), List.replicate_zero, List.nil_append]
  have whole : ∀ out, putSigned (fun ch out => out ++ [ch]) .zero n.toInt64 [] = out →
      output signedFormat (oneArg { word := n.toUInt32 }) = .ok out := by
    rintro out rfl
    rfl
  refine whole _ ?_
  rw [putSigned]
  by_cases negative : n.toInt < 0
  · have below : n.toInt64 < 0 := by
      rw [Int64.lt_iff_toInt_lt]
      simpa using negative
    have opposite : (-n.toInt64).toInt = -n.toInt := by
      rw [Int64.toInt_neg, Int32.toInt_toInt64]
      exact Int.bmod_eq_of_le (by simp; omega) (by simp; omega)
    have absolute := toNat_of_nonneg (n := -n.toInt64) (by omega)
    have same : (-n.toInt64).toUInt64.toNat = n.toInt.natAbs := by omega
    rw [if_pos below, if_pos negative, same, putNumber]
    exact plain _ _ (by omega)
  · have below : ¬n.toInt64 < 0 := by
      rw [Int64.lt_iff_toInt_lt]
      simpa using negative
    have absolute := toNat_of_nonneg (n := n.toInt64) (by simp; omega)
    rw [Int32.toInt_toInt64] at absolute
    have same : n.toInt64.toUInt64.toNat = n.toInt.natAbs := by omega
    rw [if_neg below, if_neg negative, same, putNumber]
    exact plain _ _ (by omega)

/-! ## Both -/

theorem strtol_field {count : Nat} {pad : UInt8} (low : 2 ≤ base) (high : base ≤ 16)
    (either : pad = 32 ∨ pad = 48) :
    strtol (List.replicate count pad ++ digitsText num base) true base =
      (Int32.ofInt num, some []) := by
  have valid := digitsText_valid num low high
  rcases either with rfl | rfl
  · have blank : ∀ c ∈ List.replicate count (32 : UInt8), isGap c = true := by
      intro c mem
      rw [List.eq_of_mem_replicate mem]
      rfl
    have read := strtol_digits _ low high blank (.inl rfl) valid
    simpa [magnitude_digitsText num low high] using read
  · have valid' : ∀ c ∈ List.replicate count 48 ++ digitsText num base, IsDigit base c := by
      intro c mem
      rcases List.mem_append.mp mem with zero | digit
      · rw [List.eq_of_mem_replicate zero]
        exact zero_isDigit low
      · exact valid c digit
    have read := strtol_digits [] low high (by simp) (.inl rfl) valid'
    simpa [magnitude_zeros, magnitude_digitsText num low high] using read

/-- A signed decimal number is read as itself. -/
theorem strtol_signed (n : Int32) :
    strtol ((if n.toInt < 0 then [45] else []) ++ digitsText n.toInt.natAbs 10) true 10 =
      (n, some []) := by
  have signed : (if n.toInt < 0 then [45] else []) = ([] : List UInt8) ∨
      (if n.toInt < 0 then [45] else []) = ([45] : List UInt8) := by
    split <;> simp
  have valid : ∀ c ∈ digitsText n.toInt.natAbs 10, IsDigit 10 c :=
    digitsText_valid _ (by decide) (by decide)
  have read := strtol_digits [] (by decide) (by decide) (by simp) signed valid
  rw [List.nil_append, magnitude_digitsText _ (by decide) (by decide)] at read
  refine read.trans ?_
  have value : (if (if n.toInt < 0 then [45] else []) = ([45] : List UInt8) then
      -(n.toInt.natAbs : Int) else n.toInt.natAbs) = n.toInt := by
    by_cases negative : n.toInt < 0
    · rw [if_pos negative, if_pos rfl]
      omega
    · rw [if_neg negative, if_neg (by simp)]
      omega
  rw [value, Int32.ofInt_toInt]

/-- Hexadecimal digits are read behind `0x`, also with zeros in front, unless there are blanks. -/
theorem strtol_marked_field {count : Nat} {pad : UInt8} (either : pad = 32 ∨ pad = 48)
    (unpadded : (List.replicate count pad ++ digitsText num 16)[0]? ≠ some 32) :
    strtol (48 :: 120 :: (List.replicate count pad ++ digitsText num 16)) true 0 =
      (Int32.ofInt num, some []) := by
  have value : magnitude 16 (digitsText num 16) = num :=
    magnitude_digitsText num (by decide) (by decide)
  have valid : ∀ c ∈ digitsText num 16, IsDigit 16 c :=
    digitsText_valid num (by decide) (by decide)
  rcases either with rfl | rfl
  · cases count with
    | zero =>
        rw [List.replicate_zero, List.nil_append, strtol_marked valid, value]
    | succ count => exact absurd rfl unpadded
  · rw [strtol_marked, magnitude_zeros, value]
    intro c mem
    rcases List.mem_append.mp mem with zero | digit
    · rw [List.eq_of_mem_replicate zero]
      exact zero_isDigit (by decide)
    · exact valid c digit

/-- A number without padding or behind zeros has no blank in front. -/
theorem not_blank {count : Nat} {pad : UInt8} (unblanked : count = 0 ∨ pad = 48) :
    (List.replicate count pad ++ digitsText num 16)[0]? ≠ some 32 := by
  intro blank
  have isDigit : IsDigit 16 32 := by
    rcases List.mem_append.mp (List.mem_of_getElem? blank) with zero | digit
    · rcases unblanked with rfl | rfl
      · cases zero
      · exact absurd (List.eq_of_mem_replicate zero) (by decide)
    · exact digitsText_valid num (by decide) (by decide) 32 digit
  obtain ⟨d, some, _⟩ := isDigit
  cases some

theorem ofInt_toNat (word : UInt32) : Int32.ofInt word.toNat = word.toInt32 := by
  apply Int32.toBitVec_inj.mp
  simp

/-- A number that is printed in any field, in hexadecimal or octal, or as a decimal number with
a sign, is read to its end as the same number; so is a hexadecimal number without blanks in
front behind `0x`, and a field without a width or padded with zeros has none. -/
theorem strtol_printed (field : Field) (args : Args) (n : Int32) :
    (∃ text, printed (field.format 120) args = .ok text ∧
      strtol text true 16 = ((field.arg args).word.toInt32, some []) ∧
      (text[0]? ≠ some 32 →
        strtol (48 :: 120 :: text) true 0 = ((field.arg args).word.toInt32, some [])) ∧
      (field.Unblanked → text[0]? ≠ some 32)) ∧
    (∃ text, printed (field.format 111) args = .ok text ∧
      strtol text true 8 = ((field.arg args).word.toInt32, some [])) ∧
    ∃ text, printed signedFormat (oneArg { word := n.toUInt32 }) = .ok text ∧
      strtol text true 10 = (n, some []) := by
  rcases printed_field field args (.inl ⟨rfl, rfl⟩) with
    ⟨count, pad, either, unblanked, hex⟩
  rcases printed_field field args (.inr ⟨rfl, rfl⟩) with ⟨count', pad', either', _, octal⟩
  rw [← ofInt_toNat]
  refine ⟨⟨_, hex, strtol_field (by decide) (by decide) either, fun unpadded => ?_,
      fun plain => not_blank (unblanked plain)⟩,
    ⟨_, octal, strtol_field (by decide) (by decide) either'⟩, ⟨_, ?_, strtol_signed n⟩⟩
  · exact strtol_marked_field either unpadded
  · rw [printed, output_signed]
    simp [Except.map, Function.comp_def, toChar_ofChar]

/-- `%08x`. -/
def eightDigits : Field := ⟨[48, 56], by simp [isDecimal]⟩

example : eightDigits.Unblanked := .inr rfl

example : printed (eightDigits.format 120) (oneArg { word := 0xbeef }) =
    .ok [48, 48, 48, 48, 98, 101, 101, 102] := by decide +kernel

end EdfKernel.Text
