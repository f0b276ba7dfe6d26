import EdfKernel.Library.Run
import Mathlib.Algebra.Group.Nat.Defs
import Mathlib.Data.List.Basic
import Mathlib.Data.Nat.Basic

/-!
# Formatting

`printnum` and `vprintfmt` of `printfmt.c`.  A format is the list of its characters before the
NUL, read by position; nothing in front of it or behind the NUL may be read.  The variable
arguments are those that the format asks for: each has the value that `va_arg` finds when it
asks for its type.
-/

namespace EdfKernel.Text

open Library

/-- Why formatting does not come to an end. -/
inductive Stop
  /-- the rounds of a loop are used up -/
  | hangs
  /-- a character outside of the format is read -/
  | outside
  deriving DecidableEq, Repr

/-- `putch`, on what `putdat` points to. -/
abbrev Putch (σ : Type) := Int32 → σ → σ

/-- An `unsigned char` as an `int`. -/
def ofUnsignedChar (c : UInt8) : Int32 := Int32.ofNat c.toNat

/-- A `char` as an `int`. -/
def ofChar (c : UInt8) : Int32 := c.toInt8.toInt32

/-- An `int` as a `char`. -/
def toChar (ch : Int32) : UInt8 := ch.toUInt32.toUInt8

/-- The characters of a string constant. -/
def ascii (s : String) : List UInt8 := s.toList.map fun c => UInt8.ofNat c.toNat

/-! ## Numbers -/

/-- `"0123456789abcdef"`. -/
def hexDigits : List UInt8 := [48, 49, 50, 51, 52, 53, 54, 55, 56, 57, 97, 98, 99, 100, 101, 102]

/-- `do_div` on a 64-bit number: the quotient, and the remainder that it evaluates to. -/
def doDiv (n base : Nat) : Nat × Nat :=
  let low := n % 2 ^ 32
  let high := n / 2 ^ 32
  let upper := if high ≠ 0 then high % base else high
  let high := if high ≠ 0 then high / base else high
  (high * 2 ^ 32 + (upper * 2 ^ 32 + low) / base, (upper * 2 ^ 32 + low) % base)

/-- `putch(ch, putdat)`, several times. -/
def putMany {σ : Type} (putch : Putch σ) (ch : Int32) : Nat → σ → σ
  | 0, s => s
  | count + 1, s => putMany putch ch count (putch ch s)

/-- `for (; width > 0; width --) putch(ch, putdat)`. -/
def putPads {σ : Type} (putch : Putch σ) (ch width : Int32) (s : σ) : σ :=
  putMany putch ch width.toInt.toNat s

theorem doDiv_eq (n : Nat) {base : Nat} (positive : 0 < base) :
    doDiv n base = (n / base, n % base) := by
  have whole : n = n / 2 ^ 32 * 2 ^ 32 + n % 2 ^ 32 := (Nat.div_add_mod' ..).symm
  have parts : n = n / 2 ^ 32 % base * 2 ^ 32 + n % 2 ^ 32 +
      base * (n / 2 ^ 32 / base * 2 ^ 32) := by
    have high := Nat.div_add_mod (n / 2 ^ 32) base
    calc n = n / 2 ^ 32 * 2 ^ 32 + n % 2 ^ 32 := whole
      _ = (base * (n / 2 ^ 32 / base) + n / 2 ^ 32 % base) * 2 ^ 32 + n % 2 ^ 32 := by rw [high]
      _ = _ := by rw [Nat.add_mul, Nat.mul_assoc]; omega
  by_cases small : n / 2 ^ 32 = 0
  · have below : n % 2 ^ 32 = n := by
      rw [small, Nat.zero_mul, Nat.zero_add] at whole
      exact whole.symm
    rw [doDiv]
    simp only [small, below, ne_eq, not_true_eq_false, if_false, Nat.zero_mul, Nat.zero_add]
  · have quotient : n / base = n / 2 ^ 32 / base * 2 ^ 32 +
        (n / 2 ^ 32 % base * 2 ^ 32 + n % 2 ^ 32) / base := by
      conv_lhs => rw [parts]
      rw [Nat.add_mul_div_left _ _ positive, Nat.add_comm]
    have remainder : n % base = (n / 2 ^ 32 % base * 2 ^ 32 + n % 2 ^ 32) % base := by
      conv_lhs => rw [parts]
      rw [Nat.add_mul_mod_self_left]
    rw [doDiv, quotient, remainder]
    simp only [ne_eq, small, not_false_eq_true, if_true]

/-- `printnum`.  A base of 0 or 1, which no caller passes, would have no end. -/
def printnum {σ : Type} (putch : Putch σ) (num base : Nat) (width : Int32) (padc : UInt8)
    (s : σ) : σ :=
  let s :=
    if base ≤ num ∧ 1 < base then printnum putch (doDiv num base).1 base (width - 1) padc s
    else putPads putch (ofChar padc) (width - 1) s
  putch (ofChar (hexDigits.getD (doDiv num base).2 0)) s
termination_by num
decreasing_by
  rename_i more
  rw [doDiv_eq num (by omega)]
  exact Nat.div_lt_self (by omega) more.2

/-! ## Arguments -/

/-- A variable argument: what `va_arg` finds for a type of 32 bits, of 64 bits, and for a string
(nothing for `NULL`). -/
structure Arg where
  word : UInt32 := 0
  dword : UInt64 := 0
  string : Option (List UInt8) := none
  deriving DecidableEq, Repr

/-- `va_list`: the arguments that are left. -/
abbrev Args := Nat → Arg

/-- `va_arg`: the first argument. -/
def vaArg (args : Args) : Arg := args 0

/-- `va_arg`: the arguments behind it. -/
def vaRest (args : Args) : Args := fun i => args (i + 1)

/-- The arguments of a call that passes one. -/
def oneArg (arg : Arg) : Args := fun _ => arg

/-- `getuint`. -/
def getuint (arg : Arg) (lflag : Int32) : Nat :=
  if 2 ≤ lflag then arg.dword.toNat
  else if lflag ≠ 0 then arg.word.toNat
  else arg.word.toNat

/-- `getint`. -/
def getint (arg : Arg) (lflag : Int32) : Int64 :=
  if 2 ≤ lflag then arg.dword.toInt64
  else if lflag ≠ 0 then arg.word.toInt32.toInt64
  else arg.word.toInt32.toInt64

/-! ## Conversions -/

/-- `*(fmt + i)`. -/
def readFmt (fmt : List UInt8) (i : Nat) : Except Stop UInt8 :=
  if i < fmt.length then .ok (fmt.getD i 0)
  else if i = fmt.length then .ok 0
  else .error .outside

/-- The variables that a conversion sets before its last character. -/
structure Flags where
  padc : UInt8
  width : Int32
  precision : Int32
  lflag : Int32
  altflag : Bool
  deriving DecidableEq, Repr

/-- Their values behind a `%`. -/
def Flags.zero : Flags := ⟨32, -1, -1, 0, false⟩

/-- `process_precision`. -/
def processPrecision (flags : Flags) : Flags :=
  if flags.width < 0 then { flags with width := flags.precision, precision := -1 } else flags

def isDecimal (ch : UInt8) : Bool := 48 ≤ ch && ch ≤ 57

/-- The loop over the digits of a width: `precision`, and the position behind them. -/
def widthLoop (fmt : List UInt8) : Nat → Nat → UInt8 → Int32 → Except Stop (Int32 × Nat)
  | 0, _, _, _ => .error .hangs
  | fuel + 1, i, ch, precision => do
      let precision := precision * 10 + ofChar ch - 48
      let ch ← readFmt fmt i
      if isDecimal ch then widthLoop fmt fuel (i + 1) ch precision else return (precision, i)

/-- `reswitch`, up to the last character of a conversion: that character and the position behind
it, the flags, and the arguments left over. -/
def reswitch (fmt : List UInt8) :
    Nat → Nat → Flags → Args → Except Stop (UInt8 × Nat × Flags × Args)
  | 0, _, _, _ => .error .hangs
  | fuel + 1, i, flags, args => do
      let ch ← readFmt fmt i
      if ch = 45 then reswitch fmt fuel (i + 1) { flags with padc := 45 } args
      else if ch = 48 then reswitch fmt fuel (i + 1) { flags with padc := 48 } args
      else if isDecimal ch then do
        let (precision, i) ← widthLoop fmt fuel (i + 1) ch 0
        reswitch fmt fuel i (processPrecision { flags with precision := precision }) args
      else if ch = 42 then
        reswitch fmt fuel (i + 1)
          (processPrecision { flags with precision := (vaArg args).word.toInt32 }) (vaRest args)
      else if ch = 46 then
        reswitch fmt fuel (i + 1)
          { flags with width := if flags.width < 0 then 0 else flags.width } args
      else if ch = 35 then reswitch fmt fuel (i + 1) { flags with altflag := true } args
      else if ch = 108 then
        reswitch fmt fuel (i + 1) { flags with lflag := flags.lflag + 1 } args
      else return (ch, i + 1, flags, args)

/-- `strnlen`. -/
def strnlen : List UInt8 → Nat → Nat
  | c :: s, len + 1 => if c = 0 then 0 else strnlen s len + 1
  | _, _ => 0

/-- The loop over the characters of a string, and `width` after it. -/
def stringLoop {σ : Type} (putch : Putch σ) (altflag : Bool) :
    List UInt8 → Int32 → Int32 → σ → Int32 × σ
  | [], _, width, s => (width, s)
  | c :: p, precision, width, s =>
      let ch := ofChar c
      if ch = 0 ∨ 0 ≤ precision ∧ precision - 1 < 0 then (width, s)
      else
        stringLoop putch altflag p (if precision < 0 then precision else precision - 1) (width - 1)
          (putch (if altflag = true ∧ (ch < 32 ∨ 126 < ch) then 63 else ch) s)

/-- The last two loops of the conversion `%s`. -/
def finishString {σ : Type} (putch : Putch σ) (flags : Flags) (p : List UInt8) (width : Int32)
    (s : σ) : σ :=
  match stringLoop putch flags.altflag p flags.precision width s with
  | (width, s) => putPads putch 32 width s

/-- The conversion `%s`. -/
def putString {σ : Type} (putch : Putch σ) (flags : Flags) (p : List UInt8) (s : σ) : σ :=
  if 0 < flags.width ∧ flags.padc ≠ 45 then
    let width := flags.width - Int32.ofNat (strnlen p flags.precision.toUInt32.toNat)
    finishString putch flags p (if 0 < width then 0 else width)
      (putPads putch (ofChar flags.padc) width s)
  else finishString putch flags p flags.width s

/-- `number`. -/
def putNumber {σ : Type} (putch : Putch σ) (flags : Flags) (num base : Nat) (s : σ) : σ :=
  printnum putch num base flags.width flags.padc s

/-- The conversion `%d`. -/
def putSigned {σ : Type} (putch : Putch σ) (flags : Flags) (num : Int64) (s : σ) : σ :=
  if num < 0 then putNumber putch flags (-num).toUInt64.toNat 10 (putch 45 s)
  else putNumber putch flags num.toUInt64.toNat 10 s

/-- The conversion of an argument with its last character, unless that is `e` or unknown. -/
def convert {σ : Type} (putch : Putch σ) (ch : UInt8) (flags : Flags) (arg : Arg) (s : σ) :
    Option σ :=
  if ch = 99 then some (putch arg.word.toInt32 s)
  else if ch = 115 then some (putString putch flags (arg.string.getD (ascii "(null)")) s)
  else if ch = 100 then some (putSigned putch flags (getint arg flags.lflag) s)
  else if ch = 117 then some (putNumber putch flags (getuint arg flags.lflag) 10 s)
  else if ch = 111 then some (putNumber putch flags (getuint arg flags.lflag) 8 s)
  else if ch = 112 then some (putNumber putch flags arg.word.toNat 16 (putch 120 (putch 48 s)))
  else if ch = 120 then some (putNumber putch flags (getuint arg flags.lflag) 16 s)
  else none

/-- The loop that goes back behind the last `%` before position `i`. -/
def rewind (fmt : List UInt8) : Nat → Except Stop Nat
  | 0 => .error .outside
  | i + 1 => do
      let ch ← readFmt fmt i
      if ch = 37 then return i + 1 else rewind fmt i

/-- `error_string`. -/
def errorStrings : List (Option (List UInt8)) :=
  [none, some (ascii "unspecified error"), some (ascii "bad process"),
    some (ascii "invalid parameter"), some (ascii "out of memory"), some (ascii "out of processes"),
    some (ascii "segmentation fault"), some (ascii "swap disk read/write fault"),
    some (ascii "invalid elf file"), some (ascii "process is killed"),
    some (ascii "panic failure")]

/-- `error_string[err]` for an error up to `MAXERROR`.  The place of an entry is computed modulo
`2 ^ 32`, so that of `INT_MIN` is the place of the first one. -/
def errorString (err : Int32) : Option (List UInt8) :=
  (errorStrings.getD (err.toUInt32.toNat % 2 ^ 30) none)

/-- `"error %d"`. -/
def errorFormat : List UInt8 := [101, 114, 114, 111, 114, 32, 37, 100]

/-- `"%s"`. -/
def stringFormat : List UInt8 := [37, 115]

/-- The format and the argument that `%e` prints. -/
def errorCall (arg : Arg) : List UInt8 × Args :=
  let err := if arg.word.toInt32 < 0 then -arg.word.toInt32 else arg.word.toInt32
  match (if 10 < err then none else errorString err) with
  | none => (errorFormat, oneArg { word := err.toUInt32 })
  | some p => (stringFormat, oneArg { string := some p })

/-- The loop of `vprintfmt`. -/
def vprintfmtLoop {σ : Type} (putch : Putch σ) :
    Nat → List UInt8 → Nat → Args → σ → Except Stop σ
  | 0, _, _, _, _ => .error .hangs
  | fuel + 1, fmt, i, args, s => do
      let ch ← readFmt fmt i
      if ch ≠ 37 then
        if ch = 0 then return s
        else vprintfmtLoop putch fuel fmt (i + 1) args (putch (ofUnsignedChar ch) s)
      else do
        let (ch, i, flags, args) ← reswitch fmt (fuel + 1) (i + 1) .zero args
        if ch = 101 then do
          let (fmt', args') := errorCall (vaArg args)
          let s ← vprintfmtLoop putch fuel fmt' 0 args' s
          vprintfmtLoop putch fuel fmt i (vaRest args) s
        else if ch = 37 then
          vprintfmtLoop putch fuel fmt i args (putch (ofUnsignedChar ch) s)
        else
          match convert putch ch flags (vaArg args) s with
          | some s => vprintfmtLoop putch fuel fmt i (vaRest args) s
          | none => do
              let i ← rewind fmt (i - 1)
              vprintfmtLoop putch fuel fmt i args (putch 37 s)

/-- `vprintfmt`. -/
def vprintfmt {σ : Type} (putch : Putch σ) (fmt : List UInt8) (args : Args) (s : σ) :
    Except Stop σ :=
  vprintfmtLoop putch (fmt.length + 10) fmt 0 args s

end EdfKernel.Text
