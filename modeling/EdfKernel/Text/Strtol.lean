import Mathlib.Data.Nat.Digits.Defs
import Mathlib.Tactic.Ring

/-!
# Reading numbers

`strtol` of `string.c`, and the syntax that its comment describes.  A string is the list of its
characters before the NUL, and a pointer into it is what is left of it from there.
-/

namespace EdfKernel.Text

/-! ## The function -/

/-- The characters that the first loop skips. -/
def isGap (c : UInt8) : Bool := c == 32 || c == 9

/-- The first loop of `strtol`. -/
def skipGaps : List UInt8 → List UInt8
  | [] => []
  | c :: s => if isGap c then skipGaps s else c :: s

/-- The sign: the string behind it, and `neg`. -/
def takeSign : List UInt8 → List UInt8 × Bool
  | [] => ([], false)
  | c :: s => if c = 43 then (s, false) else if c = 45 then (s, true) else (c :: s, false)

/-- The prefix: the string behind it, and `base`. -/
def takePrefix (s : List UInt8) (base : Int) : List UInt8 × Int :=
  if (base = 0 ∨ base = 16) ∧ s[0]? = some 48 ∧ s[1]? = some 120 then (s.drop 2, 16)
  else if base = 0 ∧ s[0]? = some 48 then (s.drop 1, 8)
  else if base = 0 then (s, 10)
  else (s, base)

/-- `dig`, if the character is a digit or a letter. -/
def digitOf (c : UInt8) : Option Nat :=
  if 48 ≤ c ∧ c ≤ 57 then some (c.toNat - 48)
  else if 97 ≤ c ∧ c ≤ 122 then some (c.toNat - 97 + 10)
  else if 65 ≤ c ∧ c ≤ 90 then some (c.toNat - 65 + 10)
  else none

/-- The loop over the digits: the string behind them, and `val`. -/
def digitsLoop (base : Int) : List UInt8 → Int32 → List UInt8 × Int32
  | [], val => ([], val)
  | c :: s, val =>
      match digitOf c with
      | none => (c :: s, val)
      | some dig =>
          if base ≤ dig then (c :: s, val)
          else digitsLoop base s (val * Int32.ofInt base + Int32.ofInt dig)

/-- `strtol`, with what it stores at `endptr` unless that is `NULL`. -/
def strtol (s : List UInt8) (endptr : Bool) (base : Int) : Int32 × Option (List UInt8) :=
  match takeSign (skipGaps s) with
  | (s, neg) =>
      match takePrefix s base with
      | (s, base) =>
          match digitsLoop base s 0 with
          | (s, val) => (if neg then -val else val, if endptr then some s else none)

/-! ## The syntax -/

/-- A digit of a radix: a decimal digit or a letter whose value is less than the radix. -/
def IsDigit (radix : Nat) (c : UInt8) : Prop := ∃ d, digitOf c = some d ∧ d < radix

/-- `0x` or `0X`. -/
def IsHexMark (s : List UInt8) : Prop := s = [48, 120] ∨ s = [48, 88]

/-- The prefix that a text begins with, and the radix of the digits behind it. -/
inductive Prefixed (base : Nat) (text : List UInt8) : List UInt8 → Nat → Prop
  | hex (mark : List UInt8) (hexBase : base = 0 ∨ base = 16) (isMark : IsHexMark mark)
      (begins : mark <+: text) : Prefixed base text mark 16
  | octal (zero : base = 0) (begins : [48] <+: text)
      (unmarked : ∀ mark, IsHexMark mark → ¬mark <+: text) : Prefixed base text [48] 8
  | decimal (zero : base = 0) (nonzero : ¬[48] <+: text) : Prefixed base text [] 10
  | plain (radix : base ≠ 0)
      (unmarked : base = 16 → ∀ mark, IsHexMark mark → ¬mark <+: text) : Prefixed base text [] base

/-- How a string begins with a number: blanks, a sign, a prefix and digits, each as long as it
can be, and the rest. -/
structure Numeral (base : Nat) (s : List UInt8) where
  gaps : List UInt8
  sign : List UInt8
  mark : List UInt8
  radix : Nat
  digits : List UInt8
  rest : List UInt8
  text : s = gaps ++ (sign ++ (mark ++ (digits ++ rest)))
  gaps_blank : ∀ c ∈ gaps, isGap c = true
  gaps_longest : ∀ c, (sign ++ (mark ++ (digits ++ rest)))[0]? = some c → isGap c = false
  sign_form : sign = [43] ∨ sign = [45] ∨
    sign = [] ∧ ∀ c, (mark ++ (digits ++ rest))[0]? = some c → c ≠ 43 ∧ c ≠ 45
  mark_form : Prefixed base (mark ++ (digits ++ rest)) mark radix
  digits_form : ∀ c ∈ digits, IsDigit radix c
  digits_longest : ∀ c, rest[0]? = some c → ¬IsDigit radix c

/-- The value of a digit. -/
def digitValue (c : UInt8) : Nat := (digitOf c).getD 0

/-- The number that digits denote in a radix. -/
def magnitude (radix : Nat) (digits : List UInt8) : Nat :=
  Nat.ofDigits radix (digits.map digitValue).reverse

namespace Numeral

variable {base : Nat} {s : List UInt8}

/-- The number that is read. -/
def value (n : Numeral base s) : Int :=
  if n.sign = [45] then -(magnitude n.radix n.digits : Int) else magnitude n.radix n.digits

end Numeral

/-! ## The function follows the syntax -/

variable {base radix : Nat} {s digits rest gaps : List UInt8}

theorem skipGaps_append (blank : ∀ c ∈ gaps, isGap c = true)
    (longest : ∀ c, s[0]? = some c → isGap c = false) : skipGaps (gaps ++ s) = s := by
  induction gaps with
  | nil =>
      cases s with
      | nil => rfl
      | cons c s =>
          have other := longest c rfl
          simp [skipGaps, other]
  | cons c gaps ih =>
      have first := blank c List.mem_cons_self
      rw [List.cons_append, skipGaps, if_pos first]
      exact ih fun d mem => blank d (List.mem_cons_of_mem c mem)

/-- The loop over the digits reads all of them and adds up their number. -/
theorem digitsLoop_append (valid : ∀ c ∈ digits, IsDigit radix c)
    (longest : ∀ c, rest[0]? = some c → ¬IsDigit radix c) (v : Int) :
    digitsLoop radix (digits ++ rest) (Int32.ofInt v) =
      (rest, Int32.ofInt (v * radix ^ digits.length + magnitude radix digits)) := by
  induction digits generalizing v with
  | nil =>
      have value : v * (radix : Int) ^ ([] : List UInt8).length + magnitude radix [] = v := by
        simp [magnitude]
      rw [value]
      cases rest with
      | nil => rfl
      | cons c rest =>
          have stops := longest c rfl
          rw [List.nil_append, digitsLoop]
          cases found : digitOf c with
          | none => rfl
          | some dig =>
              have large : (radix : Int) ≤ dig := by
                by_contra small
                exact stops ⟨dig, found, by omega⟩
              exact if_pos large
  | cons c digits ih =>
      rcases valid c List.mem_cons_self with ⟨dig, found, small⟩
      have here : digitValue c = dig := by simp [digitValue, found]
      have less : ¬(radix : Int) ≤ dig := by omega
      rw [List.cons_append, digitsLoop, found]
      simp only [if_neg less]
      rw [← Int32.ofInt_mul, ← Int32.ofInt_add,
        ih (fun d mem => valid d (List.mem_cons_of_mem c mem))]
      have more : magnitude radix (c :: digits) =
          magnitude radix digits + radix ^ digits.length * dig := by
        rw [magnitude, List.map_cons, Nat.ofDigits_reverse_cons, here, List.length_map]
        rfl
      rw [more, List.length_cons]
      push_cast
      ring_nf

theorem one_prefix_iff {a : UInt8} {text : List UInt8} : [a] <+: text ↔ text[0]? = some a := by
  cases text with
  | nil => simp
  | cons c text => simp [List.cons_prefix_cons, eq_comm]

theorem two_prefix_iff {a b : UInt8} {text : List UInt8} :
    [a, b] <+: text ↔ text[0]? = some a ∧ text[1]? = some b := by
  cases text with
  | nil => simp
  | cons c text =>
      rw [List.cons_prefix_cons, one_prefix_iff]
      simp [eq_comm]

/-- A prefix other than `0X` is taken as it is described. -/
theorem takePrefix_append {mark text : List UInt8} (known : mark ≠ [48, 88])
    (prefixed : Prefixed base (mark ++ text) mark radix) :
    takePrefix (mark ++ text) base = (text, (radix : Int)) := by
  cases prefixed with
  | hex _ hexBase isMark begins =>
      have lower : mark = [48, 120] := isMark.resolve_right known
      subst lower
      have either : (base : Int) = 0 ∨ (base : Int) = 16 := by omega
      exact if_pos ⟨either, rfl, rfl⟩
  | octal zero begins unmarked =>
      subst zero
      have other : ([48] ++ text)[1]? ≠ some 120 := fun second =>
        unmarked [48, 120] (.inl rfl) (two_prefix_iff.mpr ⟨rfl, second⟩)
      rw [takePrefix, if_neg fun taken => other taken.2.2]
      rfl
  | decimal zero nonzero =>
      subst zero
      have other : ([] ++ text)[0]? ≠ some 48 := fun first => nonzero (one_prefix_iff.mpr first)
      rw [takePrefix, if_neg fun taken => other taken.2.1, if_neg fun taken => other taken.2]
      rfl
  | plain nonzero unmarked =>
      have nonzero' : (base : Int) ≠ 0 := by omega
      have other : ¬(((base : Int) = 0 ∨ (base : Int) = 16) ∧ ([] ++ text)[0]? = some 48 ∧
          ([] ++ text)[1]? = some 120) := by
        rintro ⟨hexBase, first, second⟩
        exact unmarked (by omega) [48, 120] (.inl rfl) (two_prefix_iff.mpr ⟨first, second⟩)
      rw [takePrefix, if_neg other, if_neg fun taken => nonzero' taken.1, if_neg nonzero']
      rfl

theorem takeSign_append {sign text : List UInt8}
    (form : sign = [43] ∨ sign = [45] ∨
      sign = [] ∧ ∀ c, text[0]? = some c → c ≠ 43 ∧ c ≠ 45) :
    takeSign (sign ++ text) = (text, decide (sign = [45])) := by
  rcases form with rfl | rfl | ⟨rfl, other⟩
  · rfl
  · rfl
  · cases text with
    | nil => rfl
    | cons c text =>
        have neither := other c rfl
        simp [takeSign, neither.1, neither.2]

namespace Numeral

/-- The function gets past the blanks and the sign. -/
theorem takeSign (n : Numeral base s) :
    Text.takeSign (skipGaps s) =
      (n.mark ++ (n.digits ++ n.rest), decide (n.sign = [45])) := by
  have skipped := (congrArg skipGaps n.text).trans
    (skipGaps_append n.gaps_blank n.gaps_longest)
  rw [skipped, takeSign_append n.sign_form]

/-- A number without the prefix `0X` is read as the syntax says. -/
theorem strtol (n : Numeral base s) (known : n.mark ≠ [48, 88]) :
    Text.strtol s true base = (Int32.ofInt n.value, some n.rest) := by
  have digits := digitsLoop_append n.digits_form n.digits_longest 0
  rw [Int.zero_mul, Int.zero_add] at digits
  have zero : (0 : Int32) = Int32.ofInt 0 := rfl
  rw [Text.strtol, n.takeSign]
  simp only [takePrefix_append known n.mark_form]
  rw [zero, digits]
  by_cases negative : n.sign = [45]
  · simp [value, negative]
  · simp [value, negative]

end Numeral

/-- A list begins with a longest part of which every element has a property. -/
theorem exists_longest (P : UInt8 → Prop) (s : List UInt8) :
    ∃ first rest, s = first ++ rest ∧ (∀ c ∈ first, P c) ∧ ∀ c, rest[0]? = some c → ¬P c := by
  induction s with
  | nil => exact ⟨[], [], rfl, by simp, by simp⟩
  | cons c s ih =>
      by_cases own : P c
      · rcases ih with ⟨first, rest, rfl, all, stops⟩
        refine ⟨c :: first, rest, rfl, ?_, stops⟩
        intro d mem
        rcases List.mem_cons.mp mem with rfl | later
        · exact own
        · exact all d later
      · refine ⟨[], c :: s, rfl, by simp, ?_⟩
        intro d first
        cases first
        exact own

theorem exists_prefixed (base : Nat) (text : List UInt8) :
    ∃ mark rest radix, text = mark ++ rest ∧ Prefixed base (mark ++ rest) mark radix := by
  by_cases hexBase : base = 0 ∨ base = 16
  · by_cases marked : ∃ mark, IsHexMark mark ∧ mark <+: text
    · rcases marked with ⟨mark, isMark, rest, rfl⟩
      exact ⟨mark, rest, 16, rfl, .hex mark hexBase isMark (List.prefix_append ..)⟩
    · have unmarked : ∀ mark, IsHexMark mark → ¬mark <+: text := fun mark isMark begins =>
        marked ⟨mark, isMark, begins⟩
      by_cases zero : base = 0
      · by_cases octal : [48] <+: text
        · rcases octal with ⟨rest, rfl⟩
          exact ⟨[48], rest, 8, rfl, .octal zero (List.prefix_append ..) unmarked⟩
        · exact ⟨[], text, 10, rfl, .decimal zero octal⟩
      · exact ⟨[], text, base, rfl, .plain zero fun _ => unmarked⟩
  · rw [not_or] at hexBase
    exact ⟨[], text, base, rfl, .plain hexBase.1 fun hex => absurd hex hexBase.2⟩

/-- Every string begins with a number in this sense. -/
theorem exists_numeral (base : Nat) (s : List UInt8) : Nonempty (Numeral base s) := by
  rcases exists_longest (fun c => isGap c = true) s with ⟨gaps, afterGaps, rfl, blank, longest⟩
  have signed : ∃ sign text, afterGaps = sign ++ text ∧ (sign = [43] ∨ sign = [45] ∨
      sign = [] ∧ ∀ c, text[0]? = some c → c ≠ 43 ∧ c ≠ 45) := by
    by_cases plus : [43] <+: afterGaps
    · rcases plus with ⟨text, rfl⟩
      exact ⟨[43], text, rfl, .inl rfl⟩
    · by_cases minus : [45] <+: afterGaps
      · rcases minus with ⟨text, rfl⟩
        exact ⟨[45], text, rfl, .inr (.inl rfl)⟩
      · rw [one_prefix_iff] at plus minus
        refine ⟨[], afterGaps, rfl, .inr (.inr ⟨rfl, fun c first => ⟨?_, ?_⟩⟩)⟩
        · rintro rfl
          exact plus first
        · rintro rfl
          exact minus first
  rcases signed with ⟨sign, text, rfl, form⟩
  rcases exists_prefixed base text with ⟨mark, afterMark, radix, rfl, prefixed⟩
  rcases exists_longest (IsDigit radix) afterMark with ⟨digits, rest, rfl, valid, stops⟩
  refine ⟨⟨gaps, sign, mark, radix, digits, rest, rfl, blank, fun c first => ?_, form, prefixed,
    valid, stops⟩⟩
  simpa using longest c first

/-! ## The prefix that is missed -/

/-- Behind the blanks and the sign, the string has the prefix `0X` where the base admits one. -/
def UpperMark (base : Nat) (s : List UInt8) : Prop :=
  (base = 0 ∨ base = 16) ∧ ∃ gaps sign rest,
    s = gaps ++ (sign ++ 48 :: 88 :: rest) ∧ (∀ c ∈ gaps, isGap c = true) ∧
      (sign = [] ∨ sign = [43] ∨ sign = [45])

/-- The syntax takes both characters of the prefix. -/
theorem Prefixed.long {text mark : List UInt8} (prefixed : Prefixed base text mark radix)
    (hexBase : base = 0 ∨ base = 16) (marked : [48, 88] <+: text) : 2 ≤ mark.length := by
  cases prefixed with
  | hex _ _ isMark _ => rcases isMark with rfl | rfl <;> decide
  | octal zero _ unmarked => exact absurd marked (unmarked _ (.inr rfl))
  | decimal zero nonzero =>
      exact absurd (one_prefix_iff.mpr (two_prefix_iff.mp marked).1) nonzero
  | plain nonzero unmarked =>
      exact absurd marked (unmarked (hexBase.resolve_left nonzero) _ (.inr rfl))

theorem Prefixed.hexBase {text mark : List UInt8} (prefixed : Prefixed base text mark radix)
    (upper : mark = [48, 88]) : base = 0 ∨ base = 16 := by
  cases prefixed with
  | hex _ hexBase _ _ => exact hexBase
  | octal => cases upper
  | decimal => cases upper
  | plain => cases upper

/-- With the prefix `0X`, only the `0` is read. -/
theorem strtol_upperMark {text : List UInt8} {neg : Bool} (hexBase : base = 0 ∨ base = 16)
    (signed : takeSign (skipGaps s) = (48 :: 88 :: text, neg)) :
    strtol s true base = (0, some (88 :: text)) := by
  have read : ∃ rest radix, takePrefix (48 :: 88 :: text) base = (rest, radix) ∧
      digitsLoop radix rest 0 = (88 :: text, 0) := by
    rcases hexBase with rfl | rfl
    · exact ⟨88 :: text, 8, rfl, rfl⟩
    · exact ⟨48 :: 88 :: text, 16, rfl, rfl⟩
  rcases read with ⟨rest, radix, taken, digits⟩
  rw [strtol, signed]
  simp only [taken, digits]
  cases neg <;> simp

/-- A number with the prefix `0X` is not read as the syntax says. -/
theorem UpperMark.misread (upper : UpperMark base s) (n : Numeral base s) :
    strtol s true base ≠ (Int32.ofInt n.value, some n.rest) := by
  intro result
  rcases upper with ⟨hexBase, gaps, sign, text, split, blank, form⟩
  have signed : takeSign (skipGaps s) = (48 :: 88 :: text, decide (sign = [45])) := by
    rw [split, skipGaps_append blank, takeSign_append]
    · rcases form with rfl | rfl | rfl
      · exact .inr (.inr ⟨rfl, fun c first => by cases first; decide⟩)
      · exact .inl rfl
      · exact .inr (.inl rfl)
    · intro c first
      rcases form with rfl | rfl | rfl <;> cases first <;> decide
  have same : n.mark ++ (n.digits ++ n.rest) = 48 :: 88 :: text :=
    congrArg Prod.fst (n.takeSign.symm.trans signed)
  have left : n.rest = 88 :: text := by
    have both := result.symm.trans (strtol_upperMark hexBase signed)
    exact Option.some.inj (congrArg Prod.snd both)
  have marked : [48, 88] <+: n.mark ++ (n.digits ++ n.rest) := by
    rw [same]
    exact ⟨text, rfl⟩
  -- the syntax takes both characters of the prefix, so it leaves less than the function
  have long := n.mark_form.long hexBase marked
  have lengths := congrArg List.length same
  rw [left] at lengths
  simp at lengths
  omega

/-- `strtol` reads what the syntax says if and only if the number does not have the prefix
`0X`. -/
theorem strtol_follows_iff (base : Nat) (s : List UInt8) :
    (∃ n : Numeral base s, strtol s true base = (Int32.ofInt n.value, some n.rest)) ↔
      ¬UpperMark base s := by
  constructor
  · rintro ⟨n, result⟩ upper
    exact upper.misread n result
  · intro lower
    rcases exists_numeral base s with ⟨n⟩
    refine ⟨n, n.strtol fun upper => lower ?_⟩
    refine ⟨n.mark_form.hexBase upper, n.gaps, n.sign, n.digits ++ n.rest, ?_, n.gaps_blank, ?_⟩
    · have text := n.text
      rw [upper] at text
      exact text
    · rcases n.sign_form with plus | minus | ⟨none, _⟩
      · exact .inr (.inl plus)
      · exact .inr (.inr minus)
      · exact .inl none

/-- `0X1F`. -/
def upperText : List UInt8 := [48, 88, 49, 70]

/-- The number `0X1F` is not read to its end in base 16. -/
theorem strtol_misses_upper :
    ¬∀ (base : Nat) (s : List UInt8), base = 0 ∨ 2 ≤ base ∧ base ≤ 36 →
      ∃ n : Numeral base s, strtol s true base = (Int32.ofInt n.value, some n.rest) := by
  intro all
  rcases all 16 upperText (by decide) with ⟨n, result⟩
  have upper : UpperMark 16 upperText :=
    ⟨.inr rfl, [], [], [49, 70], rfl, by simp, .inl rfl⟩
  exact upper.misread n result

end EdfKernel.Text
