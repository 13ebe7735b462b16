/-
**Numbers that are printed and read again.**

What `%d` prints, `atoi` reads as the same number (`atoi_printInt`). What `%.1f` prints, `atof`
reads as the double nearest to what has been printed (`atof_printTenths`), which is not always
the double it was printed for, but prints the same.
-/
import CourseLabs.CNumber
import CourseLabs.Nearest
import Mathlib.Data.List.Basic

set_option autoImplicit false

namespace CourseLabs.CNumber

open CourseLabs.CDouble CourseLabs.CInt CourseLabs.CMem CourseLabs.CType

/-! ## Digits -/

section Digits

variable {n : ℕ} {c : Char} {digits : List Char}

/-- Lean's test for a digit and the C library's agree. -/
theorem isdigit_of_isDigit (h : c.isDigit = true) : isdigit c = true := by
  rw [Char.isDigit, Bool.and_eq_true, decide_eq_true_iff, decide_eq_true_iff] at h
  rw [isdigit, decide_eq_true_iff]
  exact h

/-- What a number is printed with are digits. -/
theorem isdigit_of_mem_toDigits (h : c ∈ Nat.toDigits 10 n) : isdigit c = true :=
  isdigit_of_isDigit (Nat.isDigit_of_mem_toDigits (by omega) (by omega) h)

/-- A digit has no case. -/
theorem tolower_of_isdigit (h : isdigit c = true) : tolower c = c := by
  rw [isdigit, decide_eq_true_iff] at h
  rw [tolower, isupper, if_neg]
  rw [decide_eq_true_iff]
  have hA : 'A'.toNat = 65 := rfl
  have h9 : '9'.toNat = 57 := rfl
  omega

/-- A digit is different from what is none. -/
theorem ne_of_isdigit {x : Char} (h : isdigit c = true) (hx : isdigit x = false) : c ≠ x := by
  rintro rfl
  exact Bool.false_ne_true (hx.symm.trans h)

/-- The value of a text of digits is that of Lean's own reader. -/
theorem natVal_eq (h : ∀ c ∈ digits, isdigit c = true) :
    natVal 10 digits = Nat.ofDigitChars 10 digits 0 := by
  rw [natVal, Nat.ofDigitChars_eq_foldl]
  apply List.foldl_ext
  intro v c hc
  rw [digitVal, if_pos (h c hc)]

/-- The digits of a number stand for it. -/
theorem natVal_toDigits (n : ℕ) : natVal 10 (Nat.toDigits 10 n) = n := by
  rw [natVal_eq fun c hc => isdigit_of_mem_toDigits hc,
    Nat.ofDigitChars_toDigits (by omega) (by omega)]

/-- The places in front of the point, and the one behind it. -/
theorem natVal_tenths (t : ℕ) :
    natVal 10 (Nat.toDigits 10 (t / 10) ++ Nat.toDigits 10 (t % 10)) = t := by
  have hlast : Nat.toDigits 10 (t % 10) = [(t % 10).digitChar] :=
    Nat.toDigits_of_lt_base (Nat.mod_lt t (by omega))
  have hdigits : ∀ c ∈ Nat.toDigits 10 (t / 10) ++ Nat.toDigits 10 (t % 10), isdigit c = true := by
    intro c hc
    exact (List.mem_append.mp hc).elim isdigit_of_mem_toDigits isdigit_of_mem_toDigits
  rw [natVal_eq hdigits, Nat.ofDigitChars_append, Nat.ofDigitChars_toDigits (by omega) (by omega),
    hlast, Nat.ofDigitChars_cons_digitChar_of_lt_ten (Nat.mod_lt t (by omega)),
    Nat.ofDigitChars_nil, Nat.div_add_mod]

/-- The digits of a text, with more digits behind them. -/
theorem takeWhile_digits (h : ∀ c ∈ digits, isdigit c = true) (rest : List Char) :
    (digits ++ rest).takeWhile isdigit = digits ++ rest.takeWhile isdigit :=
  List.takeWhile_append_of_pos h

/-- And what is behind all of them. -/
theorem dropWhile_digits (h : ∀ c ∈ digits, isdigit c = true) (rest : List Char) :
    (digits ++ rest).dropWhile isdigit = rest.dropWhile isdigit :=
  List.dropWhile_append_of_pos h

end Digits

/-! ## The sign -/

/-- Text that begins like a number without a sign. -/
def Bare : List Char → Prop
  | [] => False
  | c :: _ => isspace c = false ∧ c ≠ '-' ∧ c ≠ '+'

/-- A sign that was printed is the sign that is read. -/
theorem sign_signed {s : List Char} (h : Bare s) (negative : Bool) :
    sign ((signed negative s).dropWhile isspace) = (negative, s) := by
  cases s with
  | nil => exact absurd h id
  | cons c s =>
      obtain ⟨hspace, hminus, hplus⟩ := h
      cases negative with
      | true => rfl
      | false =>
          rw [signed, if_neg Bool.false_ne_true, List.dropWhile_cons_of_neg (by simp [hspace]),
            sign, if_neg hminus, if_neg hplus]

/-- A number that begins with a digit has no sign to read first. -/
theorem bare_of_isdigit {c : Char} (h : isdigit c = true) (s : List Char) : Bare (c :: s) := by
  have hne : ∀ x, isdigit x = false → c ≠ x := fun x hx => ne_of_isdigit h hx
  refine ⟨?_, hne '-' rfl, hne '+' rfl⟩
  rw [isdigit, decide_eq_true_iff] at h
  rw [isspace, decide_eq_false_iff_not, not_or]
  have hzero : '0'.toNat = 48 := rfl
  exact ⟨hne ' ' rfl, by omega⟩

/-- Such is a printed number. -/
theorem bare_toDigits (n : ℕ) (s : List Char) : Bare (Nat.toDigits 10 n ++ s) := by
  obtain ⟨c, cs, hcs⟩ := List.exists_cons_of_ne_nil (Nat.toDigits_ne_nil (n := n) (b := 10))
  rw [hcs]
  exact bare_of_isdigit (isdigit_of_mem_toDigits (n := n) (by rw [hcs]; exact List.mem_cons_self)) _

/-- **`%d` and `atoi`.** -/
theorem atoi_printInt {z : ℤ} (hlo : -2 ^ 31 ≤ z) (hhi : z < 2 ^ 31) :
    atoi (printInt z) = some z := by
  have hsigned : printInt z = signed (decide (z < 0)) (Nat.toDigits 10 z.natAbs) := by
    rw [printInt, signed]
    by_cases hz : z < 0
    · simp [hz]
    · simp [hz]
  have hbare := bare_toDigits z.natAbs []
  rw [List.append_nil] at hbare
  have htake := takeWhile_digits (fun c hc => @isdigit_of_mem_toDigits z.natAbs c hc) []
  rw [List.append_nil, List.takeWhile_nil, List.append_nil] at htake
  rw [atoi, hsigned, sign_signed hbare]
  simp only [htake, natVal_toDigits]
  -- only a negative number has a minus sign in front of its digits
  by_cases hz : z < 0
  · rw [decide_eq_true hz, if_pos rfl, int32_eq_some (by omega) (by omega)]
    congr 1
    omega
  · rw [decide_eq_false hz, if_neg Bool.false_ne_true, int32_eq_some (by omega) (by omega)]
    congr 1
    omega

/-! ## One decimal -/

section Tenths

variable {t : ℕ}

/-- A value printed with one decimal is read as its tenths, with one digit behind the point. -/
theorem mantissa_tenths (t : ℕ) :
    mantissa isdigit (Nat.toDigits 10 (t / 10) ++ '.' :: Nat.toDigits 10 (t % 10))
      = ⟨Nat.toDigits 10 (t / 10) ++ Nat.toDigits 10 (t % 10), 1, []⟩ := by
  have hfirst : ∀ c ∈ Nat.toDigits 10 (t / 10), isdigit c = true :=
    fun c hc => isdigit_of_mem_toDigits hc
  have hlast : ∀ c ∈ Nat.toDigits 10 (t % 10), isdigit c = true :=
    fun c hc => isdigit_of_mem_toDigits hc
  have hpoint : isdigit '.' = false := rfl
  have hone : (Nat.toDigits 10 (t % 10)).length = 1 := by
    rw [Nat.toDigits_of_lt_base (Nat.mod_lt t (by omega)), List.length_singleton]
  rw [mantissa, dropWhile_digits hfirst, takeWhile_digits hfirst,
    List.dropWhile_cons_of_neg (by simp [hpoint]), List.takeWhile_cons_of_neg (by simp [hpoint])]
  simp only [if_true, List.takeWhile_eq_self_iff.mpr hlast, List.dropWhile_eq_nil_iff.mpr hlast,
    hone, List.append_nil]

/-- A digit, and a point or another one. -/
theorem hexadecimal_tenths (t : ℕ) (s : List Char) :
    hexadecimal (Nat.toDigits 10 (t / 10) ++ '.' :: s) = none := by
  have hdigit : ∀ c ∈ Nat.toDigits 10 (t / 10), isdigit c = true :=
    fun c hc => isdigit_of_mem_toDigits hc
  have hother : ∀ x : Char, x = '.' ∨ isdigit x = true → tolower x ≠ 'x' := by
    rintro x (rfl | hx)
    · decide
    · rw [tolower_of_isdigit hx]
      exact ne_of_isdigit hx rfl
  cases hcs : Nat.toDigits 10 (t / 10) with
  | nil => exact absurd hcs Nat.toDigits_ne_nil
  | cons c cs =>
      rw [hcs] at hdigit
      cases cs with
      | nil => exact if_neg fun h => hother '.' (Or.inl rfl) h.2.1
      | cons d cs =>
          exact if_neg fun h => hother d (Or.inr (hdigit d (by simp))) h.2.1

/-- A text that begins otherwise does not begin with the word. -/
theorem startsWith_of_ne {w c : Char} {word s : List Char} (h : w ≠ tolower c) :
    startsWith (w :: word) (c :: s) = false := by
  rw [startsWith, List.map_cons, List.isPrefixOf_cons_cons]
  simp [h]

/-- **`%.1f` and `atof`.** -/
theorem atof_printTenths (d : Double) : atof (printTenths d) = toTenths d := by
  by_cases h : d.exponent = 2047
  · by_cases hf : d.fraction = 0
    · rw [printTenths_infinity h hf, toTenths_infinity h hf, eq_infinity h hf, atof,
        sign_signed (show Bare ['i', 'n', 'f'] from ⟨rfl, by decide, by decide⟩)]
      rfl
    · rw [printTenths_nan h hf, toTenths_nan h hf, atof,
        sign_signed (show Bare ['n', 'a', 'n'] from ⟨rfl, by decide, by decide⟩)]
      rfl
  · obtain ⟨c, cs, hcs⟩ := List.exists_cons_of_ne_nil
      (Nat.toDigits_ne_nil (n := tenths d / 10) (b := 10))
    have hc : isdigit c = true :=
      isdigit_of_mem_toDigits (n := tenths d / 10) (by rw [hcs]; exact List.mem_cons_self)
    have hword : ∀ (w : Char) (word s : List Char), isdigit w = false →
        startsWith (w :: word) (Nat.toDigits 10 (tenths d / 10) ++ s) = false := by
      intro w word s hw
      rw [hcs]
      apply startsWith_of_ne
      rw [tolower_of_isdigit hc]
      exact (ne_of_isdigit hc hw).symm
    rw [printTenths_finite h, toTenths_finite h, atof, sign_signed (bare_toDigits _ _)]
    simp only [unsigned, hword 'i' _ _ rfl, hword 'n' _ _ rfl, hexadecimal_tenths,
      mantissa_tenths, Bool.false_eq_true, if_false]
    rw [if_neg (List.append_ne_nil_of_left_ne_nil Nat.toDigits_ne_nil _), natVal_tenths]
    have hexp : exponent 'e' [] - (1 : ℕ) = -1 := rfl
    rw [hexp, scaled, show (-1 : ℤ).toNat = 0 from rfl, show (-(-1) : ℤ).toNat = 1 from rfl,
      Nat.pow_zero, Nat.mul_one, Nat.pow_one]

end Tenths

end CourseLabs.CNumber
