/-
**One's complement sums** of width `w`, kept in a wider accumulator.

With `m = 2 ^ w - 1`, folding the carries of an accumulator back into its low `w` bits keeps
its class modulo `m`, and also whether it is zero. So what a fold ends in is `residue m s`:
the representative of `s` among `1, …, m`, and `0` for `0` alone.
-/
import Mathlib.Data.Nat.ModEq
import Mathlib.Tactic.Common
import Mathlib.Tactic.Ring

set_option autoImplicit false

namespace CourseLabs.OnesComplement

variable {m s t : ℕ}

/-- The representative of `s` modulo `m` among `1, …, m`; that of `0` is `0`. -/
def residue (m s : ℕ) : ℕ :=
  if s = 0 then 0 else (s - 1) % m + 1

theorem residue_of_le (h : s ≤ m) : residue m s = s := by
  unfold residue
  split
  · omega
  · rw [Nat.mod_eq_of_lt (by omega)]
    omega

theorem residue_le (hm : 0 < m) (s : ℕ) : residue m s ≤ m := by
  have := Nat.mod_lt (s - 1) hm
  unfold residue
  split
  · omega
  · omega

/-- Two accumulators of one class that are zero together have one residue. -/
theorem residue_congr (h : s ≡ t [MOD m]) (h0 : s = 0 ↔ t = 0) : residue m s = residue m t := by
  unfold residue
  by_cases hs : s = 0
  · rw [if_pos hs, if_pos (h0.mp hs)]
  · obtain ⟨a, rfl⟩ : ∃ a, s = a + 1 := ⟨s - 1, by omega⟩
    obtain ⟨b, rfl⟩ : ∃ b, t = b + 1 := ⟨t - 1, by omega⟩
    rw [if_neg hs, if_neg (by omega), Nat.add_sub_cancel, Nat.add_sub_cancel]
    exact congrArg (· + 1) (Nat.ModEq.add_right_cancel' 1 h)

theorem residue_modEq (m s : ℕ) : residue m s ≡ s [MOD m] := by
  unfold residue
  split
  · next h =>
      rw [h]
  · next h =>
      calc (s - 1) % m + 1 ≡ s - 1 + 1 [MOD m] := (Nat.mod_modEq (s - 1) m).add_right 1
        _ = s := Nat.sub_add_cancel (Nat.pos_of_ne_zero h)

theorem residue_eq_zero_iff : residue m s = 0 ↔ s = 0 := by
  unfold residue
  constructor
  · intro h
    by_contra hs
    rw [if_neg hs] at h
    omega
  · exact fun h => if_pos h

/-- **Carries can wait**: a term may be added to the residue or to the accumulator. -/
theorem residue_add (m s t : ℕ) : residue m (residue m s + t) = residue m (s + t) := by
  apply residue_congr
  · exact (residue_modEq m s).add_right t
  · have := residue_eq_zero_iff (m := m) (s := s)
    omega

/-- The positive multiples are the accumulators that end in `m`. -/
theorem residue_eq_self_iff (hm : 0 < m) : residue m s = m ↔ 0 < s ∧ m ∣ s := by
  constructor
  · intro h
    have hpos : s ≠ 0 := fun h0 => hm.ne' (h.symm.trans (residue_eq_zero_iff.mpr h0))
    have hmod := residue_modEq m s
    rw [h] at hmod
    exact ⟨Nat.pos_of_ne_zero hpos, (hmod.dvd_iff dvd_rfl).mp dvd_rfl⟩
  · rintro ⟨hpos, hdvd⟩
    calc residue m s = residue m m := by
          apply residue_congr
          · exact (Nat.modEq_zero_iff_dvd.mpr hdvd).trans (Nat.modEq_zero_iff_dvd.mpr dvd_rfl).symm
          · omega
      _ = m := residue_of_le (Nat.le_refl m)

/-- Two terms that take one accumulator to a multiple are the same, or the two zeros. -/
theorem eq_or_zeros_of_dvd {a b : ℕ} (ha : a ≤ m) (hb : b ≤ m) (hsa : m ∣ s + a)
    (hsb : m ∣ s + b) : a = b ∨ (a = 0 ∧ b = m) ∨ (a = m ∧ b = 0) := by
  have hcongr : a ≡ b [MOD m] := by
    have hzero := (Nat.modEq_zero_iff_dvd.mpr hsa).trans (Nat.modEq_zero_iff_dvd.mpr hsb).symm
    exact Nat.ModEq.add_left_cancel' s hzero
  -- below `m` congruent numbers are equal, and `m` is congruent to `0`
  rcases Nat.lt_or_ge a m with hlta | hgea
  · rcases Nat.lt_or_ge b m with hltb | hgeb
    · exact Or.inl (Nat.ModEq.eq_of_lt_of_lt hcongr hlta hltb)
    · obtain rfl : b = m := by omega
      have hdvd := Nat.modEq_zero_iff_dvd.mp (hcongr.trans (Nat.modEq_zero_iff_dvd.mpr dvd_rfl))
      exact Or.inr (Or.inl ⟨Nat.eq_zero_of_dvd_of_lt hdvd hlta, rfl⟩)
  · obtain rfl : a = m := by omega
    rcases Nat.lt_or_ge b a with hltb | hgeb
    · have hdvd := (Nat.modEq_zero_iff_dvd).mp
        (hcongr.symm.trans (Nat.modEq_zero_iff_dvd.mpr dvd_rfl))
      exact Or.inr (Or.inr ⟨rfl, Nat.eq_zero_of_dvd_of_lt hdvd hltb⟩)
    · exact Or.inl (by omega)

/-- **Folding the carries keeps the residue.** -/
theorem residue_fold (w s : ℕ) :
    residue (2 ^ w - 1) (s % 2 ^ w + s / 2 ^ w) = residue (2 ^ w - 1) s := by
  have hpow : 0 < 2 ^ w := Nat.two_pow_pos w
  have hdiv := Nat.mod_add_div s (2 ^ w)
  -- `2 ^ w` is `1` modulo `2 ^ w - 1`
  have hsplit : s % 2 ^ w + s / 2 ^ w + (2 ^ w - 1) * (s / 2 ^ w) = s := by
    calc s % 2 ^ w + s / 2 ^ w + (2 ^ w - 1) * (s / 2 ^ w)
        = s % 2 ^ w + (2 ^ w - 1 + 1) * (s / 2 ^ w) := by ring
      _ = s := by rw [Nat.sub_add_cancel hpow, hdiv]
  apply residue_congr
  · unfold Nat.ModEq
    conv_rhs => rw [← hsplit, Nat.add_mul_mod_self_left]
  · constructor
    · intro h
      rw [← hdiv, Nat.eq_zero_of_add_eq_zero_left h, Nat.eq_zero_of_add_eq_zero_right h,
        Nat.mul_zero]
    · rintro rfl
      rw [Nat.zero_mod, Nat.zero_div]

/-- Two words added with the carry put back in are one fold. -/
theorem fold_add {w a b : ℕ} (ha : a < 2 ^ w) (hb : b < 2 ^ w) :
    (a + b) % 2 ^ w + (a + b) / 2 ^ w = residue (2 ^ w - 1) (a + b) := by
  rw [← residue_fold, residue_of_le]
  rcases Nat.lt_or_ge (a + b) (2 ^ w) with hlt | hge
  · rw [Nat.mod_eq_of_lt hlt, Nat.div_eq_of_lt hlt]
    omega
  · have hdiv : (a + b) / 2 ^ w = 1 := by
      rw [Nat.div_eq_sub_div (Nat.two_pow_pos w) hge, Nat.div_eq_of_lt (by omega)]
    rw [Nat.mod_eq_sub_mod hge, Nat.mod_eq_of_lt (by omega), hdiv]
    omega

/-- A fold lowers an accumulator that has carries. -/
theorem fold_lt {w : ℕ} (hw : 0 < w) (hs : 2 ^ w ≤ s) : s % 2 ^ w + s / 2 ^ w < s := by
  have hdiv := Nat.mod_add_div s (2 ^ w)
  have hq : 0 < s / 2 ^ w := Nat.div_pos hs (Nat.two_pow_pos w)
  have htwo : 2 ≤ 2 ^ w := Nat.le_self_pow (by omega) 2
  have hmul : 2 * (s / 2 ^ w) ≤ 2 ^ w * (s / 2 ^ w) := Nat.mul_le_mul_right _ htwo
  omega

/-! ## The complement -/

/-- Adding the complement of its residue brings an accumulator to a multiple of `m`. -/
theorem add_complement (hm : 0 < m) (hs : 0 < s) :
    s + (m - residue m s) = m * ((s - 1) / m + 1) := by
  have hlt := Nat.mod_lt (s - 1) hm
  have hdiv := Nat.mod_add_div (s - 1) m
  unfold residue
  rw [if_neg (by omega), Nat.mul_add, Nat.mul_one]
  omega

/-- The sum of an accumulator and its complement is never past a multiple of `m` that the
accumulator itself is not past. -/
theorem add_complement_le (hm : 0 < m) {k : ℕ} (hk : 0 < k) (hs : s ≤ m * k) :
    s + (m - residue m s) ≤ m * k := by
  rcases Nat.eq_zero_or_pos s with rfl | hpos
  · have : m * 1 ≤ m * k := Nat.mul_le_mul_left m hk
    unfold residue
    rw [if_pos rfl]
    omega
  · rw [add_complement hm hpos]
    apply Nat.mul_le_mul_left
    have : (s - 1) / m < k := Nat.div_lt_of_lt_mul (by omega)
    omega

/-- **An accumulator and its complement fold to `m`**, never to `0`. -/
theorem residue_add_complement (hm : 0 < m) (s : ℕ) : residue m (s + (m - residue m s)) = m := by
  rcases Nat.eq_zero_or_pos s with rfl | hpos
  · have hzero : residue m 0 = 0 := if_pos rfl
    rw [hzero, Nat.zero_add, Nat.sub_zero]
    exact residue_of_le (Nat.le_refl m)
  · rw [add_complement hm hpos]
    calc residue m (m * ((s - 1) / m + 1))
        = residue m m := by
          apply residue_congr
          · unfold Nat.ModEq
            rw [Nat.mul_mod_right, Nat.mod_self]
          · have : 0 < m * ((s - 1) / m + 1) := Nat.mul_pos hm (Nat.succ_pos _)
            omega
      _ = m := residue_of_le (Nat.le_refl m)

end CourseLabs.OnesComplement
