/-
The **integers of the C programs**.

A signed type of width `w` is an integer that has to fit: `sint w z` is the value of
an expression whose exact result is `z`, and `none` when `z` does not fit, which in C
is undefined. An unsigned type is a natural number below `2 ^ w`, and its arithmetic
is the exact one followed by `% 2 ^ w`. Division and remainder truncate towards zero
(`Int.tdiv`, `Int.tmod`), as in C.
-/
import Mathlib.Tactic.Linarith
import Mathlib.Tactic.NormNum

set_option autoImplicit false

namespace CourseLabs.CInt

/-- The value of a signed expression of width `w`: the exact result where it fits. -/
def sint (w : ℕ) (z : ℤ) : Option ℤ :=
  if -(2 : ℤ) ^ (w - 1) ≤ z ∧ z < (2 : ℤ) ^ (w - 1) then some z else none

/-- A value in range is itself, at whatever width. -/
theorem sint_eq_some {w : ℕ} {z : ℤ} (hlo : -(2 : ℤ) ^ (w - 1) ≤ z)
    (hhi : z < (2 : ℤ) ^ (w - 1)) : sint w z = some z :=
  if_pos ⟨hlo, hhi⟩

/-- At the upper end of the range the computation has no value, which models the undefined
behaviour of a signed overflow. -/
theorem sint_eq_none {w : ℕ} {z : ℤ} (h : (2 : ℤ) ^ (w - 1) ≤ z) : sint w z = none :=
  if_neg fun hz => absurd hz.2 (not_lt.mpr h)

/-- A signed value that is there is the exact one. -/
theorem eq_of_sint {w : ℕ} {z r : ℤ} (h : sint w z = some r) : r = z := by
  rw [sint] at h
  split at h
  · exact (Option.some.inj h).symm
  · cases h

/-- `int` -/
abbrev int32 : ℤ → Option ℤ := sint 32

/-- `int64_t` -/
abbrev int64 : ℤ → Option ℤ := sint 64

/-- `__int128` -/
abbrev int128 : ℤ → Option ℤ := sint 128

/-- The range of an `int`. -/
theorem int32_eq_some {z : ℤ} (hlo : -2 ^ 31 ≤ z) (hhi : z < 2 ^ 31) : int32 z = some z :=
  sint_eq_some hlo hhi

/-- The range of an `int64_t`. -/
theorem int64_eq_some {z : ℤ} (hlo : -2 ^ 63 ≤ z) (hhi : z < 2 ^ 63) : int64 z = some z :=
  sint_eq_some hlo hhi

/-- The range of an `__int128`. -/
theorem int128_eq_some {z : ℤ} (hlo : -2 ^ 127 ≤ z) (hhi : z < 2 ^ 127) : int128 z = some z :=
  sint_eq_some hlo hhi

/-! ## Non-negative `int` values

A counter, a length or a position that starts at `0` and only grows is a natural number
that has to stay below `2 ^ 31`. -/

/-- The value of a non-negative `int` expression: a count or a position, which has no value where
an `int` would overflow. -/
def nat32 (n : ℕ) : Option ℕ :=
  if n < 2 ^ 31 then some n else none

/-- `1 << i`, in `int`: the shift by `31` does not fit, and one by more is undefined anyway. -/
def shl1 (i : ℕ) : Option ℕ :=
  if i < 31 then some (2 ^ i) else none

/-- A count that fits an `int` is itself. -/
theorem nat32_of_lt {n : ℕ} (h : n < 2 ^ 31) : nat32 n = some n :=
  if_pos h

/-- When a count in the program is an `int`, this is all one learns from its having a value. -/
theorem nat32_eq_some_iff {n m : ℕ} : nat32 n = some m ↔ m = n ∧ n < 2 ^ 31 := by
  unfold nat32
  by_cases h : n < 2 ^ 31
  · rw [if_pos h]
    exact ⟨fun hm => ⟨(Option.some.inj hm).symm, h⟩, fun hm => congrArg some hm.1.symm⟩
  · rw [if_neg h]
    exact ⟨fun hm => absurd hm (by simp), fun hm => absurd hm.2 h⟩

/-- `1 << i` for an `int`: the sign bit is not reached. -/
theorem shl1_of_lt {i : ℕ} (h : i < 31) : shl1 i = some (2 ^ i) :=
  if_pos h

/-! ## Division and conversions -/

/-- `a / b` in `int64_t`, rounded towards zero. The least number divided by `-1` does not fit. -/
def div64 (a b : ℤ) : Option ℤ :=
  if b = 0 then none else int64 (a.tdiv b)

/-- `a % b` in `int64_t`; undefined with the quotient. -/
def rem64 (a b : ℤ) : Option ℤ := do
  let _ ← div64 a b
  some (a.tmod b)

/-- A division that has a value is the C quotient, which truncates towards zero. The overflow of
the most negative number by `-1` is excluded by its having one. -/
theorem eq_of_div64 {a b r : ℤ} (h : div64 a b = some r) : b ≠ 0 ∧ r = a.tdiv b := by
  rw [div64] at h
  split at h
  · cases h
  · exact ⟨‹_›, eq_of_sint h⟩

/-- The same for the remainder. -/
theorem eq_of_rem64 {a b r : ℤ} (h : rem64 a b = some r) : b ≠ 0 ∧ r = a.tmod b := by
  obtain ⟨t, hdiv, hrem⟩ := Option.bind_eq_some_iff.mp h
  exact ⟨(eq_of_div64 hdiv).1, (Option.some.inj hrem).symm⟩

/-- `a % b` in `int`, with the sign of the dividend; undefined where the quotient is. -/
def rem32 (a b : ℤ) : Option ℤ := do
  let _ ← if b = 0 then none else int32 (a.tdiv b)
  some (a.tmod b)

/-- A value converted to an unsigned type of width `w`. -/
def uint (w : ℕ) (z : ℤ) : ℕ :=
  (z % (2 : ℤ) ^ w).toNat

/-- A `uint64_t` value passed where an `int64_t` is expected. -/
def asInt64 (n : ℕ) : ℤ :=
  if n < 2 ^ 63 then (n : ℤ) else (n : ℤ) - 2 ^ 64

/-- A conversion to an unsigned type keeps a value that fits it. -/
theorem uint_of_nonneg {w : ℕ} {z : ℤ} (hlo : 0 ≤ z) (hhi : z < (2 : ℤ) ^ w) :
    uint w z = z.toNat := by
  rw [uint, Int.emod_eq_of_lt hlo hhi]

/-- The conversion of any natural number is its remainder, so that wrapping around is a
remainder. -/
theorem uint_natCast (w n : ℕ) : uint w n = n % 2 ^ w := by
  rw [uint]
  norm_cast

/-- The bits of an `uint64_t` read as an `int64_t`, where the top bit is not set. -/
theorem asInt64_of_lt {n : ℕ} (h : n < 2 ^ 63) : asInt64 n = n :=
  if_pos h

/-- A division by a positive number cannot overflow: the quotient is no larger than the dividend.
-/
theorem div64_of_pos {a b : ℤ} (hb : 0 < b) (hlo : -2 ^ 63 < a) (hhi : a < 2 ^ 63) :
    div64 a b = some (a.tdiv b) := by
  -- the quotient is no larger than the dividend
  have habs := Int.natAbs_tdiv_le_natAbs a b
  rw [div64, if_neg (by omega)]
  exact int64_eq_some (by omega) (by omega)

/-- With a positive divisor the remainder has a value, as the one overflow needs the divisor
`-1`. -/
theorem rem64_of_pos {a b : ℤ} (hb : 0 < b) (hlo : -2 ^ 63 < a) (hhi : a < 2 ^ 63) :
    rem64 a b = some (a.tmod b) := by
  rw [rem64, div64_of_pos hb hlo hhi]
  rfl

/-- On non-negative values the two are the mathematical ones. -/
theorem div64_of_nonneg {a b : ℤ} (ha : 0 ≤ a) (hb : 0 < b) (hhi : a < 2 ^ 63) :
    div64 a b = some (a / b) := by
  rw [div64_of_pos hb (by omega) hhi, Int.tdiv_eq_ediv_of_nonneg ha]

/-- For a value that is not negative the C remainder is the usual one, which is what the modular
arithmetic of the programs is about. -/
theorem rem64_of_nonneg {a b : ℤ} (ha : 0 ≤ a) (hb : 0 < b) (hhi : a < 2 ^ 63) :
    rem64 a b = some (a % b) := by
  rw [rem64_of_pos hb (by omega) hhi, Int.tmod_eq_emod_of_nonneg ha]

/-- The same for an `int`. -/
theorem rem32_of_nonneg {a b : ℤ} (ha : 0 ≤ a) (hb : 0 < b) (hhi : a < 2 ^ 31) :
    rem32 a b = some (a % b) := by
  have hle : a / b ≤ a := Int.ediv_le_self b ha
  have hpos : 0 ≤ a / b := Int.ediv_nonneg ha (by omega)
  unfold rem32
  rw [if_neg (by omega), Int.tdiv_eq_ediv_of_nonneg ha, int32_eq_some (by omega) (by omega),
    Int.tmod_eq_emod_of_nonneg ha]
  rfl

/-- The same for an `int` of either sign, with the sign of the C remainder. -/
theorem rem32_of_pos {a b : ℤ} (hb : 0 < b) (hlo : -2 ^ 31 ≤ a) (hhi : a < 2 ^ 31) :
    rem32 a b = some (a.tmod b) := by
  have habs := Int.natAbs_tdiv_le_natAbs a b
  -- the quotient is no larger than the dividend, and on the same side of zero
  have hsign : 0 ≤ a ∧ 0 ≤ a.tdiv b ∨ a ≤ 0 ∧ a.tdiv b ≤ 0 := by
    rcases Int.le_total 0 a with ha | ha
    · exact Or.inl ⟨ha, Int.tdiv_nonneg ha hb.le⟩
    · have hneg := Int.tdiv_nonneg (show 0 ≤ -a by omega) hb.le
      rw [Int.neg_tdiv] at hneg
      exact Or.inr ⟨ha, by omega⟩
  unfold rem32
  rw [if_neg (by omega), int32_eq_some (by omega) (by omega)]
  rfl

/-- `(x % m + m) % m`, the C idiom for the residue of a signed value, is the residue. -/
theorem tmod_add_tmod (x : ℤ) {m : ℤ} (hm : 0 < m) : (x.tmod m + m).tmod m = x % m := by
  have hlo : -m < x.tmod m := Int.lt_tmod_of_pos x hm
  rw [Int.tmod_eq_emod_of_nonneg (by omega), Int.add_emod_right]
  have hdiv : x.tmod m = x - m * x.tdiv m := by
    have := Int.tmod_add_mul_tdiv x m
    omega
  rw [hdiv, Int.sub_mul_emod_self_left]

end CourseLabs.CInt
