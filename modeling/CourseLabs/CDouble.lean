/-
The **doubles of the C programs**, as far as they are copied, compared and printed.

A `Double` is a binary64 number, by its fields. Its `value` is the number it stands for in
units of `2 ^ (-1074)`, of which every finite double is a whole multiple; an infinity counts
as the next binade, beyond them all. C compares doubles by value, so `0.0` and `-0.0` are
equal to it, and no other two doubles are; a comparison with a NaN is false.
-/
import Mathlib.Data.Fin.Basic
import Mathlib.Data.Int.Notation
import Mathlib.Tactic.Common
import Mathlib.Tactic.Linarith

set_option autoImplicit false

namespace CourseLabs.CDouble

/-- The 64 bits of a double as their three fields: sign, exponent, fraction. -/
@[ext]
structure Double where
  negative : Bool
  exponent : Fin 2048
  fraction : Fin (2 ^ 52)

namespace Double

/-- The double is no NaN. With one all comparisons are false, so it is neither below, above nor
equal to anything. -/
def Comparable (d : Double) : Prop :=
  d.exponent = 2047 → d.fraction = 0

instance (d : Double) : Decidable d.Comparable :=
  inferInstanceAs (Decidable (d.exponent = 2047 → d.fraction = 0))

/-- The distance from zero, in units of the least positive double. A subnormal number has no
leading one. -/
def magnitude (d : Double) : ℕ :=
  if d.exponent.val = 0 then
    d.fraction.val
  else
    (2 ^ 52 + d.fraction.val) * 2 ^ (d.exponent.val - 1)

/-- The value in units of the least positive one, where every finite double is a whole number.
Infinities come out above all of them. -/
def value (d : Double) : ℤ :=
  if d.negative then -(d.magnitude : ℤ) else d.magnitude

/-- `0.0` -/
def zero : Double where
  negative := false
  exponent := 0
  fraction := 0

/-- `-0.0` -/
def negZero : Double where
  negative := true
  exponent := 0
  fraction := 0

/-- The infinity of a sign. -/
def infinity (negative : Bool) : Double where
  negative := negative
  exponent := 2047
  fraction := 0

/-- The NaN that `strtod` gives, with a sign. -/
def nan (negative : Bool) : Double where
  negative := negative
  exponent := 2047
  fraction := Fin.ofNat (2 ^ 52) (2 ^ 51)

end Double

/-! ## Comparisons -/

section Compare

/-- `a < b`, which is false if one of the two is a NaN; the two zeros are equal. -/
def lt (a b : Double) : Bool :=
  a.Comparable ∧ b.Comparable ∧ a.value < b.value

/-- `a <= b` -/
def le (a b : Double) : Bool :=
  a.Comparable ∧ b.Comparable ∧ a.value ≤ b.value

/-- `a == b`, by the values: the two zeros are equal, though they are printed differently. -/
def eq (a b : Double) : Bool :=
  a.Comparable ∧ b.Comparable ∧ a.value = b.value

/-- Where no NaN is among them, `<` compares the values. -/
theorem lt_iff {a b : Double} (ha : a.Comparable) (hb : b.Comparable) :
    lt a b = true ↔ a.value < b.value := by
  unfold lt
  rw [decide_eq_true_iff]
  exact ⟨fun h => h.2.2, fun h => ⟨ha, hb, h⟩⟩

/-- So does `<=`. -/
theorem le_iff {a b : Double} (ha : a.Comparable) (hb : b.Comparable) :
    le a b = true ↔ a.value ≤ b.value := by
  unfold le
  rw [decide_eq_true_iff]
  exact ⟨fun h => h.2.2, fun h => ⟨ha, hb, h⟩⟩

/-- So does `==`, for which the two zeros are the same. -/
theorem eq_iff {a b : Double} (ha : a.Comparable) (hb : b.Comparable) :
    eq a b = true ↔ a.value = b.value := by
  unfold eq
  rw [decide_eq_true_iff]
  exact ⟨fun h => h.2.2, fun h => ⟨ha, hb, h⟩⟩

/-- `<=` is transitive, with NaNs too, as nothing compares with them. -/
theorem le_trans {a b c : Double} (hab : le a b = true) (hbc : le b c = true) :
    le a c = true := by
  unfold le at hab hbc ⊢
  rw [decide_eq_true_iff] at hab hbc ⊢
  exact ⟨hab.1, hbc.2.1, Int.le_trans hab.2.2 hbc.2.2⟩

/-- Without NaNs `<=` is total, which the merge of two sorted arrays rests on. -/
theorem le_total {a b : Double} (ha : a.Comparable) (hb : b.Comparable) :
    le a b = true ∨ le b a = true := by
  rw [le_iff ha hb, le_iff hb ha]
  exact Int.le_total a.value b.value

/-- A larger exponent is a larger number, whatever the fractions. -/
theorem magnitude_lt_of_exponent_lt {a b : Double} (h : a.exponent.val < b.exponent.val) :
    a.magnitude < b.magnitude := by
  have ha := a.fraction.isLt
  unfold Double.magnitude
  rw [if_neg (show b.exponent.val ≠ 0 by omega)]
  obtain ⟨k, hk⟩ : ∃ k, b.exponent.val = a.exponent.val + k + 1 :=
    ⟨b.exponent.val - a.exponent.val - 1, by omega⟩
  rw [hk, Nat.add_sub_cancel]
  -- `2 ^ 52` units of the larger binade are more than all of the smaller one
  have hbinade : 2 ^ 52 * 2 ^ (a.exponent.val + k)
      ≤ (2 ^ 52 + b.fraction.val) * 2 ^ (a.exponent.val + k) :=
    Nat.mul_le_mul_right _ (Nat.le_add_right _ _)
  apply Nat.lt_of_lt_of_le _ hbinade
  have hgrow : 2 ^ 52 * 2 ^ a.exponent.val ≤ 2 ^ 52 * 2 ^ (a.exponent.val + k) :=
    Nat.mul_le_mul_left _ (Nat.pow_le_pow_right (by decide) (Nat.le_add_right _ _))
  apply Nat.lt_of_lt_of_le _ hgrow
  split
  · next h0 =>
      rw [h0, Nat.pow_zero, Nat.mul_one]
      exact ha
  · next h0 =>
      obtain ⟨e, he⟩ : ∃ e, a.exponent.val = e + 1 := ⟨a.exponent.val - 1, by omega⟩
      have hpow : 2 ^ (e + 1) = 2 ^ e * 2 := Nat.pow_succ 2 e
      rw [he, Nat.add_sub_cancel]
      calc (2 ^ 52 + a.fraction.val) * 2 ^ e
          < (2 ^ 52 + 2 ^ 52) * 2 ^ e :=
            Nat.mul_lt_mul_of_pos_right (by omega) (Nat.two_pow_pos e)
        _ = 2 ^ 52 * 2 ^ (e + 1) := by omega

/-- The magnitude determines exponent and fraction, so a double is its sign and its magnitude. -/
theorem magnitude_injective {a b : Double} (h : a.magnitude = b.magnitude) :
    a.exponent = b.exponent ∧ a.fraction = b.fraction := by
  have hexp : a.exponent.val = b.exponent.val := by
    rcases Nat.lt_trichotomy a.exponent.val b.exponent.val with hlt | heq | hgt
    · exact absurd h (Nat.ne_of_lt (magnitude_lt_of_exponent_lt hlt))
    · exact heq
    · exact absurd h (Nat.ne_of_gt (magnitude_lt_of_exponent_lt hgt))
  refine ⟨Fin.ext hexp, Fin.ext ?_⟩
  unfold Double.magnitude at h
  rw [hexp] at h
  split at h
  · exact h
  · have := Nat.eq_of_mul_eq_mul_right (Nat.two_pow_pos _) h
    omega

/-- **Equal doubles are the same double, unless they are zeros.** -/
theorem eq_of_value_eq {a b : Double} (h : a.value = b.value) (h0 : a.value ≠ 0) : a = b := by
  unfold Double.value at h h0
  have hmag : a.magnitude = b.magnitude ∧ a.negative = b.negative := by
    cases ha : a.negative with
    | false =>
        cases hb : b.negative with
        | false =>
            simp only [ha, hb, Bool.false_eq_true, if_false] at h
            exact ⟨by omega, rfl⟩
        | true =>
            simp only [ha, hb, Bool.false_eq_true, if_false, if_true] at h h0
            omega
    | true =>
        cases hb : b.negative with
        | false =>
            simp only [ha, hb, Bool.false_eq_true, if_false, if_true] at h h0
            omega
        | true =>
            simp only [ha, hb, if_true] at h
            exact ⟨by omega, rfl⟩
  obtain ⟨hexp, hfrac⟩ := magnitude_injective hmag.1
  exact Double.ext hmag.2 hexp hfrac

/-- A zero is one of two doubles. -/
theorem zero_or_negZero {a : Double} (h : a.value = 0) : a = Double.zero ∨ a = Double.negZero := by
  have hmag : a.magnitude = Double.zero.magnitude := by
    unfold Double.value at h
    rw [show Double.zero.magnitude = 0 from rfl]
    split at h
    · omega
    · omega
  obtain ⟨hexp, hfrac⟩ := magnitude_injective hmag
  cases hneg : a.negative with
  | false => exact Or.inl (Double.ext hneg hexp hfrac)
  | true => exact Or.inr (Double.ext hneg hexp hfrac)

/-- Equal doubles are the same double, unless they are the two zeros. -/
theorem eq_of_value_eq_of_zeros {a b : Double} (h : a.value = b.value)
    (hpos : ¬ (a = Double.zero ∧ b = Double.negZero))
    (hneg : ¬ (a = Double.negZero ∧ b = Double.zero)) : a = b := by
  by_cases h0 : a.value = 0
  · rcases zero_or_negZero h0 with rfl | rfl
    · exact ((zero_or_negZero (h.symm.trans h0)).resolve_right (fun hb => hpos ⟨rfl, hb⟩)).symm
    · exact ((zero_or_negZero (h.symm.trans h0)).resolve_left (fun hb => hneg ⟨rfl, hb⟩)).symm
  · exact eq_of_value_eq h h0

end Compare

/-! ## Rounding -/

section Rounding

/-- `n / m` to the nearest whole number, and to the even one of two as near. -/
def divRound (n m : ℕ) : ℕ :=
  if 2 * (n % m) < m ∨ 2 * (n % m) = m ∧ n / m % 2 = 0 then n / m else n / m + 1

/-- Nothing rounds to nothing. -/
theorem divRound_zero {m : ℕ} (hm : 0 < m) : divRound 0 m = 0 := by
  unfold divRound
  rw [Nat.zero_mod, if_pos (Or.inl hm), Nat.zero_div]

/-- The double nearest to `n / m`. In units of `2 ^ (-1074)` it is `q * 2 ^ shift`, and the
number `shift * 2 ^ 52 + q` has its exponent above its fraction, also when `q` has been
rounded up to the next binade. -/
def nearest (negative : Bool) (n m : ℕ) : Double :=
  let shift := (n * 2 ^ 1074 / m).log2 - 52
  let q := divRound (n * 2 ^ 1074) (m * 2 ^ shift)
  let bits := shift * 2 ^ 52 + q
  if 2047 * 2 ^ 52 ≤ bits then
    Double.infinity negative
  else
    { negative, exponent := Fin.ofNat 2048 (bits / 2 ^ 52), fraction := Fin.ofNat (2 ^ 52) bits }

end Rounding

/-! ## Printing -/

section Print

/-- `%d`: the decimal digits, without zeros in front, behind a minus sign if need be. -/
def printInt (z : ℤ) : List Char :=
  if z < 0 then '-' :: Nat.toDigits 10 z.natAbs else Nat.toDigits 10 z.natAbs

/-- `%.1f`: the nearest tenth, and of two as near the even one; the sign is printed for a negative
zero too. -/
def printTenths (d : Double) : List Char :=
  let tenths := divRound (10 * d.magnitude) (2 ^ 1074)
  let digits := if d.exponent = 2047 then
      if d.fraction = 0 then ['i', 'n', 'f'] else ['n', 'a', 'n']
    else Nat.toDigits 10 (tenths / 10) ++ '.' :: Nat.toDigits 10 (tenths % 10)
  if d.negative then '-' :: digits else digits

/-- `%.1f` of zero. -/
theorem printTenths_zero : printTenths Double.zero = ['0', '.', '0'] := by
  unfold printTenths
  rw [show 10 * Double.zero.magnitude = 0 from rfl, divRound_zero (Nat.two_pow_pos 1074)]
  decide

/-- `%.1f` of the negative zero shows its sign. -/
theorem printTenths_negZero : printTenths Double.negZero = ['-', '0', '.', '0'] := by
  unfold printTenths
  rw [show 10 * Double.negZero.magnitude = 0 from rfl, divRound_zero (Nat.two_pow_pos 1074)]
  decide

end Print

end CourseLabs.CDouble
