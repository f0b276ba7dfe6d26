import EdfKernel.Library.MaximalRuns
import EdfKernel.Library.Run
import Mathlib.Logic.Function.Basic

/-!
# The command line of the kernel monitor

`parse` of `monitor.c`, which cuts the command buffer into arguments in place, and `readline` of
`readline.c`, which fills the buffer.  What lies behind the last slot of `argv` belongs to
something else; the slots are numbered on, so that a store there is seen.
-/

namespace EdfKernel.Monitor

open Library

/-- The memory, a byte at each address. -/
abbrev Bytes := Nat → UInt8

/-- `MAXARGS`. -/
def maxArgs : Nat := 16

/-- `WHITESPACE`. -/
def whitespace : List UInt8 := [32, 9, 10, 13]

/-- `strchr`, with the place where the character is found. -/
def strchr (s : List UInt8) (c : UInt8) : Option Nat := s.findIdx? (· == c)

/-- `strchr(WHITESPACE, c) != NULL`. -/
def isBlank (c : UInt8) : Bool := (strchr whitespace c).isSome

/-- The loops have not come to an end in the rounds they were given. -/
inductive Stop
  | hangs
  deriving DecidableEq, Repr

/-- The variables of `parse`, the memory and what has been printed. -/
structure Parse where
  mem : Bytes
  buf : Nat
  argc : Nat
  argv : Nat → Option Nat
  out : List String

/-- The message of the limit test. -/
def tooMany : String := "Too many arguments (max 16).\n"

/-- The loop over the whitespace before an argument. -/
def skipBlanks : Nat → Parse → Except Stop Parse
  | 0, _ => .error .hangs
  | fuel + 1, s =>
      if s.mem s.buf ≠ 0 ∧ isBlank (s.mem s.buf) = true then
        skipBlanks fuel { s with mem := Function.update s.mem s.buf 0, buf := s.buf + 1 }
      else .ok s

/-- The loop over an argument: where it ends. -/
def scanArg : Nat → Bytes → Nat → Except Stop Nat
  | 0, _, _ => .error .hangs
  | fuel + 1, mem, buf =>
      if mem buf ≠ 0 ∧ isBlank (mem buf) = false then scanArg fuel mem (buf + 1) else .ok buf

/-- `argv[argc ++] = buf`, and the test before it. -/
def saveArg (s : Parse) : Parse :=
  { s with
    out := if s.argc = maxArgs - 1 then s.out ++ [tooMany] else s.out
    argv := Function.update s.argv s.argc (some s.buf)
    argc := s.argc + 1 }

/-- The loop of `parse`. -/
def parseLoop : Nat → Parse → Except Stop Parse
  | 0, _ => .error .hangs
  | fuel + 1, s => do
      let s ← skipBlanks (fuel + 1) s
      if s.mem s.buf = 0 then return s
      else
        let s := saveArg s
        let stop ← scanArg (fuel + 1) s.mem s.buf
        parseLoop fuel { s with buf := stop }

/-- `parse`, whose loops are given `fuel` rounds. -/
def parse (fuel : Nat) (mem : Bytes) (buf : Nat) : Except Stop Parse :=
  parseLoop fuel ⟨mem, buf, 0, fun _ => none, []⟩

/-- `BUFSIZE`. -/
def bufSize : Nat := 1024

/-- The buffer of `readline`, the length of the line in it and what has been echoed. -/
structure Line where
  buf : Bytes
  i : Nat
  echo : List UInt8

/-- The loop of `readline` over the characters that `getchar` returns, none of which is
negative; none as long as the line is not complete. -/
def readlineLoop : List UInt8 → Line → Option Line
  | [], _ => none
  | c :: chars, s =>
      if 32 ≤ c ∧ s.i < bufSize - 1 then
        readlineLoop chars
          { buf := Function.update s.buf s.i c, i := s.i + 1, echo := s.echo ++ [c] }
      else if c = 8 ∧ 0 < s.i then
        readlineLoop chars { s with i := s.i - 1, echo := s.echo ++ [c] }
      else if c = 10 ∨ c = 13 then
        some { s with buf := Function.update s.buf s.i 0, echo := s.echo ++ [c] }
      else readlineLoop chars s

/-- `readline`. -/
def readline (buf : Bytes) (prompt : Option (List UInt8)) (chars : List UInt8) : Option Line :=
  readlineLoop chars ⟨buf, 0, prompt.getD []⟩

/-! ## The loops -/

/-- A string of `len` characters, with a NUL behind it. -/
structure Terminated (mem : Bytes) (buf len : Nat) : Prop where
  chars : ∀ i, buf ≤ i → i < buf + len → mem i ≠ 0
  nul : mem (buf + len) = 0

/-- The positions of the characters other than whitespace. -/
def inArg (mem : Bytes) (i : Nat) : Bool := !isBlank (mem i)

/-- The memory after the whitespace before a position has been overwritten. -/
def wiped (mem : Bytes) (buf stop : Nat) : Bytes :=
  fun i => if buf ≤ i ∧ i < stop ∧ isBlank (mem i) = true then 0 else mem i

variable {mem mem' : Bytes} {buf len fuel b p q : Nat} {s : Parse}

theorem wiped_of_le (le : b ≤ p) : wiped mem buf b p = mem p :=
  if_neg fun inside => Nat.lt_irrefl p (inside.2.1.trans_le le)

theorem wiped_blank (low : buf ≤ b) (blank : isBlank (mem b) = true) :
    Function.update (wiped mem buf b) b 0 = wiped mem buf (b + 1) := by
  funext i
  by_cases own : i = b
  · subst own
    simp [wiped, low, blank]
  · have order : i < b + 1 ↔ i < b := by omega
    simp [wiped, own, order]

theorem wiped_succ (unmarked : isBlank (mem b) = false) :
    wiped mem buf (b + 1) = wiped mem buf b := by
  funext i
  by_cases own : i = b
  · subst own
    simp [wiped, unmarked]
  · have order : i < b + 1 ↔ i < b := by omega
    simp [wiped, order]

/-- No whitespace is overwritten in an argument. -/
theorem wiped_arg (le : p ≤ q) (arg : ∀ i, p ≤ i → i < q → isBlank (mem i) = false) :
    wiped mem buf q = wiped mem buf p := by
  induction q, le using Nat.le_induction with
  | base => rfl
  | succ q le ih =>
      rw [wiped_succ (arg q le (Nat.lt_succ_self q))]
      exact ih fun i low high => arg i low (high.trans (Nat.lt_succ_self q))

/-- The loop over the whitespace stops at the end of the string or at an argument. -/
theorem skipBlanks_spec (terminated : Terminated mem buf len) (low : buf ≤ s.buf)
    (high : s.buf ≤ buf + len) (memory : s.mem = wiped mem buf s.buf)
    (enough : buf + len - s.buf < fuel) :
    ∃ b, s.buf ≤ b ∧ b ≤ buf + len ∧
      skipBlanks fuel s = .ok { s with mem := wiped mem buf b, buf := b } ∧
      (∀ i, s.buf ≤ i → i < b → isBlank (mem i) = true) ∧
      (b = buf + len ∨ isBlank (mem b) = false) := by
  induction fuel generalizing s with
  | zero => exact absurd enough (Nat.not_lt_zero _)
  | succ fuel ih =>
      have here : s.mem s.buf = mem s.buf := by rw [memory, wiped_of_le le_rfl]
      rw [skipBlanks, here]
      by_cases blank : mem s.buf ≠ 0 ∧ isBlank (mem s.buf) = true
      · rw [if_pos blank]
        have inside : s.buf ≠ buf + len := fun stop => blank.1 (stop ▸ terminated.nul)
        have next := @ih { s with mem := Function.update s.mem s.buf 0, buf := s.buf + 1 }
          (by dsimp only; omega) (by dsimp only; omega)
          (by dsimp only; rw [memory, wiped_blank low blank.2]) (by dsimp only; omega)
        rcases next with ⟨b, after, before, skipped, blanks, stopped⟩
        refine ⟨b, by dsimp only at after; omega, before, skipped, fun i from' below => ?_, stopped⟩
        rcases from'.eq_or_lt with rfl | later
        · exact blank.2
        · exact blanks i later below
      · rw [if_neg blank]
        refine ⟨s.buf, le_rfl, high, ?_, fun i from' below => absurd below from'.not_gt, ?_⟩
        · rw [← memory]
        · rcases high.eq_or_lt with stop | inside
          · exact .inl stop
          · right
            simpa [terminated.chars s.buf low inside] using blank

/-- The loop over an argument stops behind it. -/
theorem scanArg_spec (terminated : Terminated mem buf len) (low : buf ≤ b) (high : b ≤ buf + len)
    (same : ∀ i, b ≤ i → mem' i = mem i) (enough : buf + len - b < fuel) :
    ∃ q, b ≤ q ∧ q ≤ buf + len ∧ scanArg fuel mem' b = .ok q ∧
      (∀ i, b ≤ i → i < q → isBlank (mem i) = false) ∧
      (q = buf + len ∨ isBlank (mem q) = true) := by
  induction fuel generalizing b with
  | zero => exact absurd enough (Nat.not_lt_zero _)
  | succ fuel ih =>
      rw [scanArg, same b le_rfl]
      by_cases arg : mem b ≠ 0 ∧ isBlank (mem b) = false
      · rw [if_pos arg]
        have inside : b ≠ buf + len := fun stop => arg.1 (stop ▸ terminated.nul)
        rcases ih (low.trans (Nat.le_succ b)) (by omega)
          (fun i from' => same i (Nat.le_of_succ_le from')) (by omega) with
          ⟨q, after, before, scanned, chars, stopped⟩
        refine ⟨q, by omega, before, scanned, fun i from' below => ?_, stopped⟩
        rcases from'.eq_or_lt with rfl | later
        · exact arg.2
        · exact chars i later below
      · rw [if_neg arg]
        refine ⟨b, le_rfl, high, rfl, fun i from' below => absurd below from'.not_gt, ?_⟩
        rcases high.eq_or_lt with stop | inside
        · exact .inl stop
        · right
          simpa [terminated.chars b low inside] using arg

/-- `readline` keeps within its buffer. -/
theorem readlineLoop_terminated {chars : List UInt8} {line line' : Line}
    (before : ∀ i < line.i, line.buf i ≠ 0) (room : line.i < bufSize)
    (complete : readlineLoop chars line = some line') :
    Terminated line'.buf 0 line'.i ∧ line'.i < bufSize := by
  induction chars generalizing line with
  | nil => cases complete
  | cons c chars ih =>
      rw [readlineLoop] at complete
      split at complete
      · rename_i printable
        refine ih (fun i below => ?_) (Nat.add_lt_of_lt_sub printable.2) complete
        dsimp only at below ⊢
        by_cases last : i = line.i
        · subst last
          rw [Function.update_self]
          rintro rfl
          exact absurd printable.1 (by decide)
        · rw [Function.update_of_ne last]
          exact before i (Nat.lt_of_le_of_ne (Nat.le_of_lt_succ below) last)
      · split at complete
        · refine ih (fun i below => ?_) ?_ complete
          · exact before i (below.trans_le (Nat.sub_le ..))
          · exact (Nat.sub_le ..).trans_lt room
        · split at complete
          · cases complete
            refine ⟨⟨fun i _ below => ?_, ?_⟩, room⟩
            · rw [Nat.zero_add] at below
              change Function.update line.buf line.i 0 i ≠ 0
              rw [Function.update_of_ne below.ne]
              exact before i below
            · rw [Nat.zero_add]
              exact Function.update_self ..
          · exact ih before room complete

theorem readline_terminated {prompt : Option (List UInt8)} {chars : List UInt8} {line : Line}
    (complete : readline mem prompt chars = some line) :
    Terminated line.buf 0 line.i ∧ line.i < bufSize :=
  readlineLoop_terminated (fun _ below => absurd below (Nat.not_lt_zero _))
    (Nat.zero_lt_succ 1023) complete

/-! ## The whole string -/

/-- The loop of `parse` has dealt with the characters before its position: the whitespace is
overwritten and the arguments that start there are saved. -/
structure At (mem : Bytes) (buf len : Nat) (s : Parse) : Prop where
  low : buf ≤ s.buf
  high : s.buf ≤ buf + len
  memory : s.mem = wiped mem buf s.buf
  argc : s.argc = (startsIn (inArg mem) buf buf (s.buf - buf)).length
  argv : ∀ i, s.argv i = (startsIn (inArg mem) buf buf (s.buf - buf))[i]?
  out : s.out = if maxArgs ≤ s.argc then [tooMany] else []
  edge : s.buf = buf ∨ s.buf = buf + len ∨ isBlank (mem s.buf) = true

/-- No argument starts in whitespace. -/
theorem startsIn_blanks (after : b ≤ q) (blanks : ∀ i, b ≤ i → i < q → isBlank (mem i) = true) :
    startsIn (inArg mem) buf b (q - b) = [] := by
  apply startsIn_unmarked
  intro i from' below
  simp [inArg, blanks i from' (by omega)]

/-- One round of the loop saves one argument. -/
theorem At.saveArg (at' : At mem buf len s) (after : s.buf ≤ b)
    (blanks : ∀ i, s.buf ≤ i → i < b → isBlank (mem i) = true)
    (run : MaximalRun (inArg mem) buf (buf + len) b q) (clean : isBlank (mem q) = true ∨ q = buf + len) :
    At mem buf len { Monitor.saveArg { s with mem := wiped mem buf b, buf := b } with buf := q } := by
  have low := at'.low
  have nonempty := run.nonempty
  have starts : startsIn (inArg mem) buf buf (q - buf) =
      startsIn (inArg mem) buf buf (s.buf - buf) ++ [b] := by
    have parts : q - buf = s.buf - buf + ((b - s.buf) + (q - b)) := by omega
    have first : buf + (s.buf - buf) = s.buf := by omega
    have second : s.buf + (b - s.buf) = b := by omega
    rw [parts, startsIn_add, first, startsIn_add, second, startsIn_run run,
      startsIn_blanks after blanks, List.nil_append]
  constructor
  · exact run.first.trans nonempty.le
  · exact run.last
  · change wiped mem buf b = wiped mem buf q
    refine (wiped_arg nonempty.le fun i from' below => ?_).symm
    simpa [inArg] using run.inside i from' below
  · change s.argc + 1 = (startsIn (inArg mem) buf buf (q - buf)).length
    rw [starts, List.length_append, ← at'.argc]
    rfl
  · intro i
    change Function.update s.argv s.argc (some b) i = (startsIn (inArg mem) buf buf (q - buf))[i]?
    rw [starts, at'.argc]
    rcases lt_trichotomy i (startsIn (inArg mem) buf buf (s.buf - buf)).length with old | new | beyond
    · rw [Function.update_of_ne old.ne, List.getElem?_append_left old, at'.argv]
    · rw [new, Function.update_self]
      simp
    · rw [Function.update_of_ne beyond.ne', at'.argv, List.getElem?_eq_none beyond.le,
        List.getElem?_eq_none]
      simp
      omega
  · change (if s.argc = maxArgs - 1 then s.out ++ [tooMany] else s.out) =
      if maxArgs ≤ s.argc + 1 then [tooMany] else []
    rw [at'.out]
    unfold maxArgs
    split_ifs <;> first | rfl | omega
  · exact .inr clean.symm

/-- The loop of `parse` comes to the end of the string. -/
theorem parseLoop_spec (terminated : Terminated mem buf len) (at' : At mem buf len s)
    (enough : buf + len - s.buf < fuel) :
    ∃ s', parseLoop fuel s = .ok s' ∧ At mem buf len s' ∧ s'.buf = buf + len := by
  induction fuel generalizing s with
  | zero => exact absurd enough (Nat.not_lt_zero _)
  | succ fuel ih =>
      rcases skipBlanks_spec terminated at'.low at'.high at'.memory enough with
        ⟨b, after, before, skipped, blanks, stopped⟩
      have low := at'.low
      have here : wiped mem buf b b = mem b := wiped_of_le le_rfl
      rw [parseLoop, skipped]
      simp only [bind, Except.bind, here]
      by_cases stop : b = buf + len
      · rw [if_pos (by rw [stop]; exact terminated.nul)]
        refine ⟨_, rfl, ?_, stop⟩
        have starts : startsIn (inArg mem) buf buf (b - buf) =
            startsIn (inArg mem) buf buf (s.buf - buf) := by
          have parts : b - buf = s.buf - buf + (b - s.buf) := by omega
          have first : buf + (s.buf - buf) = s.buf := by omega
          rw [parts, startsIn_add, first, startsIn_blanks after blanks, List.append_nil]
        exact ⟨low.trans after, before, rfl, by rw [starts]; exact at'.argc,
          by rw [starts]; exact at'.argv, at'.out, .inr (.inl stop)⟩
      · rw [if_neg (terminated.chars b (by omega) (by omega))]
        have unmarked := stopped.resolve_left stop
        have same : ∀ i, b ≤ i → wiped mem buf b i = mem i := fun i from' => wiped_of_le from'
        have enough' : buf + len - b < fuel + 1 := by omega
        rcases scanArg_spec terminated (low.trans after) before same enough' with
          ⟨q, afterB, beforeStop, scanned, chars, ended⟩
        have longer : b ≠ q := by
          rintro rfl
          rcases ended with atStop | blank
          · exact stop atStop
          · exact absurd (blank.symm.trans unmarked) (by decide)
        have run : MaximalRun (inArg mem) buf (buf + len) b q := by
          refine ⟨low.trans after, by omega, beforeStop, fun i from' below => ?_, ?_, ?_⟩
          · simp [inArg, chars i from' below]
          · rcases after.eq_or_lt with same | moved
            · rcases at'.edge with first | last | blank
              · exact .inl (same.symm.trans first)
              · exact absurd (same.symm.trans last) stop
              · rw [same] at blank
                exact absurd (blank.symm.trans unmarked) (by decide)
            · right
              simp [inArg, blanks (b - 1) (by omega) (by omega)]
          · rcases ended with atStop | blank
            · exact .inl atStop
            · exact .inr (by simp [inArg, blank])
        have next := at'.saveArg after blanks run ended.symm
        have saved : (saveArg { s with mem := wiped mem buf b, buf := b }).mem = wiped mem buf b ∧
            (saveArg { s with mem := wiped mem buf b, buf := b }).buf = b := ⟨rfl, rfl⟩
        rw [saved.1, saved.2, scanned]
        exact ih next (by dsimp only; omega)

/-- What `parse` leaves behind: the whitespace is overwritten, and the slots hold the places
where the runs of other characters start. -/
structure Parsed (mem : Bytes) (buf len : Nat) (s : Parse) : Prop where
  memory : s.mem = wiped mem buf (buf + len)
  argc : s.argc = (startsIn (inArg mem) buf buf len).length
  argv : ∀ i, s.argv i = (startsIn (inArg mem) buf buf len)[i]?
  out : s.out = if maxArgs ≤ s.argc then [tooMany] else []

theorem parse_spec (terminated : Terminated mem buf len) (enough : len < fuel) :
    ∃ s, parse fuel mem buf = .ok s ∧ Parsed mem buf len s := by
  have start : At mem buf len ⟨mem, buf, 0, fun _ => none, []⟩ := by
    have none : startsIn (inArg mem) buf buf (buf - buf) = [] := by
      rw [Nat.sub_self]
      rfl
    refine ⟨le_rfl, Nat.le_add_right .., ?_, by rw [none]; rfl, fun i => by rw [none]; rfl, rfl,
      .inl rfl⟩
    funext i
    exact (if_neg fun inside => Nat.lt_irrefl i (inside.2.1.trans_le inside.1)).symm
  have enough' : buf + len - buf < fuel := by omega
  rcases parseLoop_spec terminated start enough' with ⟨s, parsed, at', stop⟩
  have memory := at'.memory
  have argc := at'.argc
  have argv := at'.argv
  rw [stop, Nat.add_sub_cancel_left] at argc argv
  rw [stop] at memory
  exact ⟨s, parsed, memory, argc, argv, at'.out⟩

/-- Every line that is read is parsed. -/
theorem parse_readline {prompt : Option (List UInt8)} {chars : List UInt8} {line : Line}
    (complete : readline mem prompt chars = some line) :
    ∃ s, parse bufSize line.buf 0 = .ok s ∧ Parsed line.buf 0 line.i s := by
  rcases readline_terminated complete with ⟨terminated, room⟩
  exact parse_spec terminated room

/-- Only slots of `argv` are written, and they hold the maximal runs of characters other than
whitespace, in order, each as it was and with a NUL behind it that is in the buffer. -/
structure Tokenised (mem : Bytes) (buf len : Nat) (s : Parse) : Prop where
  slots : ∀ i, s.argv i ≠ none → i < maxArgs
  argc : s.argc ≤ maxArgs
  args : ∃ starts : List Nat, starts.Pairwise (· < ·) ∧
    (∀ p, p ∈ starts ↔ ∃ q, MaximalRun (inArg mem) buf (buf + len) p q) ∧
    s.argc = starts.length ∧ ∀ i, s.argv i = starts[i]?
  strings : ∀ p q, MaximalRun (inArg mem) buf (buf + len) p q →
    (∀ i, p ≤ i → i < q → s.mem i = mem i ∧ s.mem i ≠ 0) ∧ s.mem q = 0 ∧ q ≤ buf + len

theorem Parsed.strings (parsed : Parsed mem buf len s) (terminated : Terminated mem buf len)
    (run : MaximalRun (inArg mem) buf (buf + len) p q) :
    (∀ i, p ≤ i → i < q → s.mem i = mem i ∧ s.mem i ≠ 0) ∧ s.mem q = 0 ∧ q ≤ buf + len := by
  have first := run.first
  have nonempty := run.nonempty
  have last := run.last
  rw [parsed.memory]
  refine ⟨fun i from' below => ?_, ?_, last⟩
  · have arg : isBlank (mem i) = false := by simpa [inArg] using run.inside i from' below
    have same : wiped mem buf (buf + len) i = mem i := by simp [wiped, arg]
    rw [same]
    exact ⟨rfl, terminated.chars i (by omega) (by omega)⟩
  · rcases run.right with stop | unmarked
    · rw [stop, wiped_of_le le_rfl]
      exact terminated.nul
    · have blank : isBlank (mem q) = true := by simpa [inArg] using unmarked
      by_cases stop : q = buf + len
      · rw [stop, wiped_of_le le_rfl]
        exact terminated.nul
      · exact if_pos ⟨by omega, by omega, blank⟩

/-- `parse` comes to an end, and it stays within `argv` if and only if the line has at most as
many arguments as `argv` has slots. -/
theorem parse_tokenises_iff (mem : Bytes) (buf len fuel : Nat)
    (terminated : Terminated mem buf len) (enough : len < fuel) :
    ∃ s, parse fuel mem buf = .ok s ∧
      (Tokenised mem buf len s ↔ (startsIn (inArg mem) buf buf len).length ≤ maxArgs) := by
  rcases parse_spec terminated enough with ⟨s, result, parsed⟩
  refine ⟨s, result, fun tokenised => ?_, fun few => ?_⟩
  · rw [← parsed.argc]
    exact tokenised.argc
  · refine ⟨fun i stored => ?_, by rw [parsed.argc]; exact few,
      ⟨startsIn (inArg mem) buf buf len, ?_, fun p => mem_startsIn_iff, parsed.argc, parsed.argv⟩,
      fun p q => parsed.strings terminated⟩
    · rw [parsed.argv] at stored
      by_contra beyond
      exact stored (List.getElem?_eq_none (few.trans (Nat.le_of_not_lt beyond)))
    · exact (List.pairwise_lt_range' ..).filter _

/-- A string in memory, with zeros around it. -/
def stringAt (s : List UInt8) (buf : Nat) : Bytes :=
  fun i => if buf ≤ i then s.getD (i - buf) 0 else 0

theorem stringAt_terminated {s : List UInt8} (chars : ∀ c ∈ s, c ≠ 0) (buf : Nat) :
    Terminated (stringAt s buf) buf s.length := by
  constructor
  · intro i low high
    have inside : i - buf < s.length := by omega
    rw [stringAt, if_pos low, List.getD_eq_getElem?_getD, List.getElem?_eq_getElem inside,
      Option.getD_some]
    exact chars _ (List.getElem_mem inside)
  · rw [stringAt, if_pos (Nat.le_add_right ..), Nat.add_sub_cancel_left]
    simp

/-- `deldr 3`. -/
def deldrLine : List UInt8 := [100, 101, 108, 100, 114, 32, 51]

theorem parse_tokenises_deldr :
    ∃ s, parse 8 (stringAt deldrLine 0x1000) 0x1000 = .ok s ∧
      Tokenised (stringAt deldrLine 0x1000) 0x1000 7 s := by
  rcases parse_tokenises_iff (stringAt deldrLine 0x1000) 0x1000 7 8
    (stringAt_terminated (by simp [deldrLine]) _) (by decide) with ⟨s, result, tokenised⟩
  exact ⟨s, result, tokenised.mpr (by decide)⟩

/-- Seventeen arguments `a`. -/
def longLine : List UInt8 := (List.replicate 17 [97, 32]).flatten

/-- The seventeenth argument of a line that is read is stored behind `argv`. -/
theorem parse_overruns :
    (∃ line s, readline (fun _ => 0) none (longLine ++ [10]) = some line ∧
      parse bufSize line.buf 0 = .ok s ∧ s.argc = 17 ∧ s.argv 16 = some 32) ∧
    ¬∀ (mem : Bytes) (buf len fuel : Nat), Terminated mem buf len → len < fuel →
      ∃ s, parse fuel mem buf = .ok s ∧ Tokenised mem buf len s := by
  constructor
  · have complete : ∃ line, readline (fun _ => 0) none (longLine ++ [10]) = some line ∧
        startsIn (inArg line.buf) 0 0 line.i = (List.range 17).map (2 * ·) :=
      ⟨_, rfl, by decide +kernel⟩
    obtain ⟨line, complete, starts⟩ := complete
    obtain ⟨s, result, parsed⟩ := parse_readline complete
    have argc := parsed.argc
    have argv := parsed.argv 16
    rw [starts] at argc argv
    exact ⟨line, s, complete, result, argc, argv⟩
  · intro all
    have terminated : Terminated (stringAt longLine 0x1000) 0x1000 34 :=
      stringAt_terminated (by simp [longLine]) _
    rcases all _ _ _ 35 terminated (by decide) with ⟨s, result, tokenised⟩
    rcases parse_spec terminated (show 34 < 35 by decide) with ⟨s', result', parsed⟩
    cases result.symm.trans result'
    have slots := tokenised.argc
    rw [parsed.argc] at slots
    exact absurd slots (by decide)

end EdfKernel.Monitor
