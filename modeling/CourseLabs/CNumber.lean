/-
**Numbers read from text**: `atoi` and `atof` of the C library.

Both skip white space, read a sign and then as much as belongs to a number; what follows does
not matter. So a newline behind the text does not either (`atof_append_newline`), and text
without a number is `0`. The value of a decimal or hexadecimal number is rounded to the nearest
double, of two as near to the even one.
-/
import CourseLabs.CDouble
import CourseLabs.CInt
import CourseLabs.CMem
import CourseLabs.CType

set_option autoImplicit false

namespace CourseLabs.CNumber

open CourseLabs.CDouble CourseLabs.CInt CourseLabs.CMem CourseLabs.CType

/-! ## Digits -/

/-- `isdigit` -/
def isdigit (c : Char) : Bool :=
  '0'.toNat ≤ c.toNat ∧ c.toNat ≤ '9'.toNat

/-- `isxdigit` -/
def isxdigit (c : Char) : Bool :=
  isdigit c || ('a'.toNat ≤ (tolower c).toNat ∧ (tolower c).toNat ≤ 'f'.toNat)

/-- The value of a digit, decimal or hexadecimal, in either case. -/
def digitVal (c : Char) : ℕ :=
  if isdigit c then c.toNat - '0'.toNat else (tolower c).toNat - 'a'.toNat + 10

/-- The number the digits stand for, in the base, the first of them as the highest. -/
def natVal (base : ℕ) (digits : List Char) : ℕ :=
  digits.foldl (fun n c => base * n + digitVal c) 0

/-- The sign, and what follows it; without one the number is not negative. -/
def sign : List Char → Bool × List Char
  | [] => (false, [])
  | c :: s => if c = '-' then (true, s) else if c = '+' then (false, s) else (false, c :: s)

/-- `atoi`: white space, a sign and digits, and whatever follows is left out; undefined when the
number is no `int`. -/
def atoi (s : List Char) : Option ℤ :=
  let (negative, s) := sign (s.dropWhile isspace)
  let n : ℤ := natVal 10 (s.takeWhile isdigit)
  int32 (if negative then -n else n)

/-! ## Doubles -/

/-- `n * base ^ e` -/
def scaled (negative : Bool) (n base : ℕ) (e : ℤ) : Double :=
  nearest negative (n * base ^ e.toNat) (base ^ (-e).toNat)

/-- Digits with at most one point among them. -/
structure Mantissa where
  digits : List Char
  /-- how many of them stand behind the point -/
  places : ℕ
  rest : List Char

/-- The digits of a number, with a point among them counted and left out. -/
def mantissa (p : Char → Bool) (s : List Char) : Mantissa :=
  match s.dropWhile p with
  | [] => ⟨s.takeWhile p, 0, []⟩
  | c :: rest =>
    if c = '.' then
      ⟨s.takeWhile p ++ rest.takeWhile p, (rest.takeWhile p).length, rest.dropWhile p⟩
    else
      ⟨s.takeWhile p, 0, c :: rest⟩

/-- The exponent behind its `mark`. Without digits there is none. -/
def exponent (mark : Char) : List Char → ℤ
  | [] => 0
  | c :: s =>
    if tolower c = mark then
      let (negative, s) := sign s
      let n : ℤ := natVal 10 (s.takeWhile isdigit)
      if negative then -n else n
    else
      0

/-- The digits behind `0x`, when there are any. -/
def hexadecimal : List Char → Option Mantissa
  | z :: x :: s =>
    if z = '0' ∧ tolower x = 'x' ∧ (mantissa isxdigit s).digits ≠ [] then
      some (mantissa isxdigit s)
    else
      none
  | _ => none

/-- `s` starts with the word, in capitals or not. -/
def startsWith (word s : List Char) : Bool :=
  word.isPrefixOf (s.map tolower)

/-- What follows the sign. -/
def unsigned (negative : Bool) (s : List Char) : Double :=
  if startsWith ['i', 'n', 'f'] s then
    Double.infinity negative
  else if startsWith ['n', 'a', 'n'] s then
    Double.nan negative
  else match hexadecimal s with
    | some x => scaled negative (natVal 16 x.digits) 2 (exponent 'p' x.rest - 4 * x.places)
    | none =>
      let x := mantissa isdigit s
      if x.digits = [] then
        Double.zero
      else
        scaled negative (natVal 10 x.digits) 10 (exponent 'e' x.rest - x.places)

/-- `atof` -/
def atof (s : List Char) : Double :=
  let (negative, s) := sign (s.dropWhile isspace)
  unsigned negative s

/-! ## What follows a number -/

section Newline

variable {p : Char → Bool}

/-- A line end is no digit. -/
theorem isdigit_newline : isdigit '\n' = false :=
  rfl

/-- A line end is no hexadecimal digit either. -/
theorem isxdigit_newline : isxdigit '\n' = false :=
  rfl

/-- Reading ahead over characters that a line end is none of stops before it. The lemmas of this
part say the same of each piece of a number. -/
theorem takeWhile_newline (hp : p '\n' = false) (s : List Char) :
    (s ++ ['\n']).takeWhile p = s.takeWhile p := by
  induction s with
  | nil => rw [List.nil_append, List.takeWhile_cons_of_neg (by simp [hp]), List.takeWhile_nil]
  | cons c s ih =>
      rw [List.cons_append, List.takeWhile_cons, List.takeWhile_cons, ih]

/-- And the line end is what is left. -/
theorem dropWhile_newline (hp : p '\n' = false) (s : List Char) :
    (s ++ ['\n']).dropWhile p = s.dropWhile p ++ ['\n'] := by
  induction s with
  | nil => rw [List.nil_append, List.dropWhile_cons_of_neg (by simp [hp]), List.dropWhile_nil,
      List.nil_append]
  | cons c s ih =>
      rw [List.cons_append, List.dropWhile_cons, List.dropWhile_cons, ih]
      split
      · rfl
      · rfl

/-- A sign is read the same with a line end behind the text. -/
theorem sign_newline (s : List Char) :
    sign (s ++ ['\n']) = ((sign s).1, (sign s).2 ++ ['\n']) := by
  cases s with
  | nil => rfl
  | cons c s =>
      rw [List.cons_append, sign, sign]
      split
      · rfl
      · split
        · rfl
        · rfl

/-- So are the digits. -/
theorem mantissa_newline (hp : p '\n' = false) (s : List Char) :
    mantissa p (s ++ ['\n'])
      = { mantissa p s with rest := (mantissa p s).rest ++ ['\n'] } := by
  unfold mantissa
  rw [dropWhile_newline hp, takeWhile_newline hp]
  cases s.dropWhile p with
  | nil => rfl
  | cons c rest =>
      by_cases hc : c = '.'
      · simp only [List.cons_append, hc, if_true, takeWhile_newline hp, dropWhile_newline hp]
      · simp only [List.cons_append, if_neg hc]

/-- So is the exponent. -/
theorem exponent_newline {mark : Char} (hmark : mark ≠ '\n') (s : List Char) :
    exponent mark (s ++ ['\n']) = exponent mark s := by
  cases s with
  | nil => exact if_neg fun h => hmark h.symm
  | cons c s =>
      simp only [List.cons_append, exponent, sign_newline, takeWhile_newline isdigit_newline]

/-- So is a hexadecimal number. -/
theorem hexadecimal_newline (s : List Char) :
    hexadecimal (s ++ ['\n'])
      = (hexadecimal s).map fun x => { x with rest := x.rest ++ ['\n'] } := by
  cases s with
  | nil => rfl
  | cons z s =>
      cases s with
      | nil => exact if_neg fun h => absurd h.2.1 (by decide)
      | cons x s =>
          simp only [List.cons_append, hexadecimal, mantissa_newline isxdigit_newline]
          split
          · rfl
          · rfl

/-- A word that has no line end in it begins a text with or without one behind. -/
theorem startsWith_newline {word : List Char} (hword : '\n' ∉ word) (s : List Char) :
    startsWith word (s ++ ['\n']) = startsWith word s := by
  rw [startsWith, startsWith, Bool.eq_iff_iff, List.isPrefixOf_iff_prefix,
    List.isPrefixOf_iff_prefix, List.map_append]
  change word <+: s.map tolower ++ ['\n'] ↔ _
  rw [List.prefix_concat_iff, or_iff_right]
  rintro rfl
  exact hword (List.mem_append_right _ List.mem_cons_self)

/-- So the whole number is read the same, which is why `atof` need not care whether the line end
was taken off. -/
theorem unsigned_newline (negative : Bool) (s : List Char) :
    unsigned negative (s ++ ['\n']) = unsigned negative s := by
  unfold unsigned
  rw [startsWith_newline (by decide), startsWith_newline (by decide), hexadecimal_newline,
    mantissa_newline isdigit_newline]
  cases hexadecimal s with
  | none => simp only [Option.map_none, exponent_newline (show 'e' ≠ '\n' by decide)]
  | some x => simp only [Option.map_some, exponent_newline (show 'p' ≠ '\n' by decide)]

/-- A newline is white space, so it goes too when nothing else stands before it. -/
theorem dropWhile_isspace_newline (s : List Char) :
    (s ++ ['\n']).dropWhile isspace = s.dropWhile isspace
      ∨ (s ++ ['\n']).dropWhile isspace = s.dropWhile isspace ++ ['\n'] := by
  induction s with
  | nil => exact Or.inl rfl
  | cons c s ih =>
      rw [List.cons_append, List.dropWhile_cons, List.dropWhile_cons]
      split
      · exact ih
      · exact Or.inr rfl

/-- **A newline behind the text does not matter.** -/
theorem atof_append_newline (s : List Char) : atof (s ++ ['\n']) = atof s := by
  unfold atof
  rcases dropWhile_isspace_newline s with h | h
  · rw [h]
  · rw [h, sign_newline]
    exact unsigned_newline _ _

end Newline

end CourseLabs.CNumber
