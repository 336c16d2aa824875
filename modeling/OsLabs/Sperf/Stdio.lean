import Mathlib.Algebra.Order.Ring.Rat
import Mathlib.Data.List.TakeDrop
import Mathlib.Data.Nat.Digits.Defs

/-!
# OsLabs.Sperf.Stdio

The parts of the C library that a line reader over a fixed buffer is made of:
`fgets` into an array of `n` bytes and `sscanf` with `%lf`.

An array is a `Buffer`, a list of bytes with its length. `fgets` overwrites the
front of the buffer with a line and a terminator and leaves the rest as it was.

The numbers are those of any type with a `sscanf`: of `double`, whatever it makes of
the bytes it is given, and of the rationals, for which decimals are read exactly.
-/

namespace OsLabs.Sperf

/-- A C string: the bytes before the terminator. -/
abbrev CString := List UInt8

/-- `char s[n]`. -/
structure Buffer (n : Nat) where
  bytes : List UInt8
  size : bytes.length = n
  deriving DecidableEq

namespace Buffer

variable {n : Nat}

/-- All bytes NUL. -/
def zero (n : Nat) : Buffer n where
  bytes := List.replicate n 0
  size := List.length_replicate

/-- Overwrite the front of the buffer. -/
def store (s : Buffer n) (w : List UInt8) (h : w.length ≤ n) : Buffer n where
  bytes := w ++ s.bytes.drop w.length
  size := by
    rw [List.length_append, List.length_drop, s.size]
    omega

end Buffer

/-! ### Reading a line -/

/-- What `fgets` takes from the input when it may take `n` bytes, and what it leaves. -/
def readLine : Nat → List UInt8 → List UInt8 × List UInt8
  | 0, input => ([], input)
  | _ + 1, [] => ([], [])
  | n + 1, c :: input =>
      if c = '\n'.toUInt8 then
        ([c], input)
      else
        (c :: (readLine n input).1, (readLine n input).2)

theorem readLine_length (n : Nat) (input : List UInt8) : (readLine n input).1.length ≤ n := by
  induction n generalizing input with
  | zero => exact Nat.le_refl 0
  | succ n ih =>
      cases input with
      | nil => exact Nat.zero_le _
      | cons c input =>
          rw [readLine]
          split
          · simp
          · exact Nat.succ_le_succ (ih input)

theorem readLine_append (n : Nat) (input : List UInt8) :
    (readLine n input).1 ++ (readLine n input).2 = input := by
  induction n generalizing input with
  | zero => rfl
  | succ n ih =>
      cases input with
      | nil => rfl
      | cons c input =>
          rw [readLine]
          split
          · rfl
          · rw [List.cons_append, ih]

/-- Something is taken, if there is something. -/
theorem readLine_ne_nil {n : Nat} {input : List UInt8} (h : input ≠ []) :
    (readLine (n + 1) input).1 ≠ [] := by
  cases input with
  | nil => exact absurd rfl h
  | cons c input =>
      rw [readLine]
      split
      · simp
      · simp

/-- A line is taken as far as there is room, and what follows it is not touched. -/
theorem readLine_take {body : List UInt8} (hline : '\n'.toUInt8 ∉ body) (n : Nat)
    (rest : List UInt8) :
    readLine n (body ++ '\n'.toUInt8 :: rest) =
      ((body ++ ['\n'.toUInt8]).take n, (body ++ ['\n'.toUInt8]).drop n ++ rest) := by
  induction body generalizing n with
  | nil =>
      cases n with
      | zero => rfl
      | succ n => simp [readLine]
  | cons c body ih =>
      cases n with
      | zero => simp [readLine]
      | succ n =>
          rw [List.mem_cons, not_or] at hline
          rw [List.cons_append, readLine, if_neg (fun h => hline.1 h.symm), ih hline.2 n]
          rfl

/-- A line that fits is taken whole. -/
theorem readLine_line {n : Nat} {body rest : List UInt8} (hline : '\n'.toUInt8 ∉ body)
    (hlen : body.length + 1 ≤ n) :
    readLine n (body ++ '\n'.toUInt8 :: rest) = (body ++ ['\n'.toUInt8], rest) := by
  have hlen' : (body ++ ['\n'.toUInt8]).length ≤ n := by simpa using hlen
  rw [readLine_take hline, List.take_of_length_le hlen', List.drop_of_length_le hlen',
    List.nil_append]

/-- `fgets(s, n + 1, stdin)`: the buffer and the input afterwards, or `none` at the end of
the input. -/
def fgets {n : Nat} (s : Buffer (n + 1)) (stdin : List UInt8) :
    Option (Buffer (n + 1) × List UInt8) :=
  if stdin = [] then
    none
  else
    some (s.store ((readLine n stdin).1 ++ [0])
      (by
        have := readLine_length n stdin
        rw [List.length_append, List.length_singleton]
        omega),
      (readLine n stdin).2)

theorem fgets_nil {n : Nat} {s : Buffer (n + 1)} : fgets s [] = none := if_pos rfl

/-- What is in the buffer afterwards. -/
theorem fgets_of_ne_nil {n : Nat} (s : Buffer (n + 1)) {stdin : List UInt8} (h : stdin ≠ []) :
    ∃ s', fgets s stdin = some (s', (readLine n stdin).2) ∧ s'.bytes = (readLine n stdin).1 ++
      0 :: s.bytes.drop ((readLine n stdin).1.length + 1) := by
  refine ⟨_, if_neg h, ?_⟩
  simp [Buffer.store]

/-- Reading a line that fits. -/
theorem fgets_line {n : Nat} (s : Buffer (n + 1)) {body : List UInt8} (rest : List UInt8)
    (hline : '\n'.toUInt8 ∉ body) (hlen : body.length + 1 ≤ n) :
    ∃ s', fgets s (body ++ '\n'.toUInt8 :: rest) = some (s', rest) ∧
      s'.bytes = body ++ '\n'.toUInt8 :: 0 :: s.bytes.drop (body.length + 2) := by
  have hread : readLine n (body ++ '\n'.toUInt8 :: rest) = (body ++ ['\n'.toUInt8], rest) :=
    readLine_line hline hlen
  have hne : body ++ '\n'.toUInt8 :: rest ≠ [] := by simp
  obtain ⟨s', hs', hbytes⟩ := fgets_of_ne_nil s hne
  rw [hread] at hs' hbytes
  exact ⟨s', hs', by simpa using hbytes⟩

/-! ### Reading a number -/

def isDigit (b : UInt8) : Bool := '0'.toUInt8 ≤ b && b ≤ '9'.toUInt8

/-- `isspace`. -/
def isSpace (b : UInt8) : Bool := b = ' '.toUInt8 || 9 ≤ b && b ≤ 13

/-- The number a string of digits stands for. -/
def digitsValue (ds : List UInt8) : Nat :=
  Nat.ofDigits 10 (ds.map fun b => b.toNat - '0'.toUInt8.toNat).reverse

/-- An optional sign: is it a minus, and what follows. -/
def readSign : List UInt8 → Bool × List UInt8
  | [] => (false, [])
  | c :: s =>
      if c = '-'.toUInt8 then (true, s)
      else if c = '+'.toUInt8 then (false, s)
      else (false, c :: s)

/-- An optional fraction: its digits, and what follows. -/
def readFraction : List UInt8 → List UInt8 × List UInt8
  | [] => ([], [])
  | c :: s => if c = '.'.toUInt8 then s.span isDigit else ([], c :: s)

/-- An optional exponent; `none` when it is begun and has no digits. -/
def readExponent : List UInt8 → Option Int
  | [] => some 0
  | c :: s =>
      if c = 'e'.toUInt8 ∨ c = 'E'.toUInt8 then
        let (minus, s) := readSign s
        match s.takeWhile isDigit with
        | [] => none
        | ds => some (if minus then -(digitsValue ds : Int) else digitsValue ds)
      else
        some 0

/-- The decimal number that a string begins with, or `none` when it begins with none. -/
def scanDecimal (str : CString) : Option ℚ :=
  let (minus, s) := readSign (str.dropWhile isSpace)
  let (whole, s) := s.span isDigit
  let (frac, s) := readFraction s
  if whole = [] ∧ frac = [] then
    none
  else
    (readExponent s).map fun e =>
      let x : ℚ := (digitsValue whole + digitsValue frac / 10 ^ frac.length) * 10 ^ e
      if minus then -x else x

/-- The byte of a digit. -/
def digit (d : Fin 10) : UInt8 := '0'.toUInt8 + UInt8.ofNat d

theorem isDigit_digit : ∀ d, isDigit (digit d) = true := by decide

theorem digit_toNat : ∀ d, (digit d).toNat - '0'.toUInt8.toNat = d := by decide

/-- What follows a string of digits is not part of it. -/
theorem span_digits {ds : List (Fin 10)} {s : List UInt8} (hs : ∀ c ∈ s.head?, isDigit c = false) :
    (ds.map digit ++ s).span isDigit = (ds.map digit, s) := by
  have hall : ∀ c ∈ ds.map digit, isDigit c = true := by
    intro c hc
    obtain ⟨d, -, rfl⟩ := List.mem_map.mp hc
    exact isDigit_digit d
  rw [List.span_eq_takeWhile_dropWhile, List.takeWhile_append_of_pos hall,
    List.dropWhile_append_of_pos hall]
  cases s with
  | nil => simp
  | cons c s =>
      have hc : isDigit c = false := hs c rfl
      simp [hc]

/-- The value of the digits `ds` behind the point. -/
def fraction (ds : List (Fin 10)) : ℚ :=
  (Nat.ofDigits 10 (ds.map Fin.val).reverse : ℕ) / 10 ^ ds.length

theorem digitsValue_map (ds : List (Fin 10)) :
    digitsValue (ds.map digit) = Nat.ofDigits 10 (ds.map Fin.val).reverse := by
  rw [digitsValue, List.map_map]
  congr 2
  exact List.map_congr_left fun d _ => digit_toNat d

/-- A digit, a point and more digits. -/
def decimal (d : Fin 10) (ds : List (Fin 10)) : List UInt8 :=
  digit d :: '.'.toUInt8 :: ds.map digit

theorem decimal_length (d : Fin 10) (ds : List (Fin 10)) :
    (decimal d ds).length = ds.length + 2 := by
  simp [decimal]

theorem notMem_decimal {c : UInt8} (hc : isDigit c = false) (hdot : c ≠ '.'.toUInt8) {d : Fin 10}
    {ds : List (Fin 10)} : c ∉ decimal d ds := by
  rw [decimal, List.mem_cons, List.mem_cons, List.mem_map]
  intro hmem
  rcases hmem with h | h | ⟨d', -, h⟩
  · rw [h, isDigit_digit] at hc
    cases hc
  · exact hdot h
  · rw [← h, isDigit_digit] at hc
    cases hc

/-- A digit is no blank and no sign. -/
theorem digit_head : ∀ d, isSpace (digit d) = false ∧ digit d ≠ '-'.toUInt8 ∧
    digit d ≠ '+'.toUInt8 := by
  decide

/-- A decimal is read as what it is. -/
theorem scanDecimal_decimal (d : Fin 10) (ds : List (Fin 10)) :
    scanDecimal (decimal d ds) = some ((d : ℕ) + fraction ds) := by
  obtain ⟨hspace, hminus, hplus⟩ := digit_head d
  have hdrop : (decimal d ds).dropWhile isSpace = decimal d ds := by
    rw [decimal, List.dropWhile_cons, hspace]
    rfl
  have hsign : readSign (decimal d ds) = (false, decimal d ds) := by
    rw [decimal, readSign, if_neg hminus, if_neg hplus]
  have hwhole : (decimal d ds).span isDigit = ([digit d], '.'.toUInt8 :: ds.map digit) := by
    refine @span_digits [d] _ fun c hc => ?_
    obtain rfl := Option.some.inj hc
    decide
  have hfrac : readFraction ('.'.toUInt8 :: ds.map digit) = (ds.map digit, []) := by
    rw [readFraction, if_pos rfl]
    have hspan : (ds.map digit ++ []).span isDigit = (ds.map digit, []) :=
      span_digits (by simp)
    rwa [List.append_nil] at hspan
  have hone : digitsValue [digit d] = d := by
    simpa using digitsValue_map [d]
  unfold scanDecimal
  rw [hdrop, hsign]
  dsimp only
  rw [hwhole]
  dsimp only
  rw [hfrac]
  simp [readExponent, hone, digitsValue_map, fraction]

/-! ### The numbers of a program -/

/-- `sscanf` with `%lf`, for a type of numbers that stands for `double`. -/
class Scanf (τ : Type) where
  /-- `sscanf(str, "%lf", &x)`: the value stored, or `none` when nothing is. -/
  sscanfLf : CString → Option τ
  /-- A decimal is a number, -/
  isSome_decimal : ∀ d ds, (sscanfLf (decimal d ds)).isSome
  /-- and two of at most seven digits are read as one number just when they are one: `DBL_DIG`
  is at least 10. -/
  decimal_iff : ∀ d ds d' ds', ds.length ≤ 6 → ds'.length ≤ 6 →
    (sscanfLf (decimal d ds) = sscanfLf (decimal d' ds') ↔
      ((d : ℕ) + fraction ds = (d' : ℕ) + fraction ds' : Prop))

export Scanf (sscanfLf)

/-- There are two of them. -/
theorem Scanf.nontrivial (τ : Type) [Scanf τ] : Nontrivial τ := by
  refine ⟨(sscanfLf (decimal 0 [])).get (isSome_decimal 0 []),
    (sscanfLf (decimal 1 [])).get (isSome_decimal 1 []), fun hsame => ?_⟩
  have hread := (decimal_iff 0 [] 1 [] (by simp) (by simp)).mp (Option.get_inj.mp hsame)
  exact absurd hread (by norm_num [fraction])

/-- A time does not depend on what was in `time` before exactly when a number was found. -/
theorem forall_getD_iff {τ : Type} [Scanf τ] {number : Option τ} {time : τ} :
    (∀ junk, number.getD junk = time) ↔ number = some time := by
  constructor
  · intro h
    cases number with
    | none =>
        have hnontrivial := Scanf.nontrivial τ
        obtain ⟨other, hother⟩ := exists_ne time
        exact absurd (h other) hother
    | some x => rw [← h time, Option.getD_some]
  · rintro rfl junk
    rfl

/-- Exact numbers. -/
instance : Scanf ℚ where
  sscanfLf := scanDecimal
  isSome_decimal d ds := by rw [scanDecimal_decimal, Option.isSome_some]
  decimal_iff d ds d' ds' _ _ := by
    rw [scanDecimal_decimal, scanDecimal_decimal, Option.some_inj]

theorem sscanfLf_decimal (d : Fin 10) (ds : List (Fin 10)) :
    sscanfLf (decimal d ds) = some (((d : ℕ) : ℚ) + fraction ds) := scanDecimal_decimal d ds

end OsLabs.Sperf
