/-
**Arithmetic modulo a number**: the facts a public-key program rests on, over arbitrary
natural numbers.

* `pow_modEq_self` is the exponent law of a product of two different primes: raising to
  a power congruent to `1` modulo `(p - 1) * (q - 1)` changes no residue, also not the
  multiples of `p` or `q`. `pow_modEq_self_iff` is the converse question, which moduli and
  exponents have such a law at all.
* `coprime_pred` and `coprime_of_lt_prime` are the two ends of a search for a coprime
  exponent.
* `bezout_step` is one unfolding of the extended Euclidean algorithm, and
  `bezout_bound` its effect on the size of the coefficients.
-/
import Mathlib.Algebra.BigOperators.Associated
import Mathlib.Data.Nat.Squarefree
import Mathlib.FieldTheory.Finite.Basic
import Mathlib.Tactic.Linarith
import Mathlib.Tactic.Ring

set_option autoImplicit false

namespace CourseLabs.ModMath

/-! ## Powers -/

/-- Fermat, in the form the exponent law needs: also for the multiples of `p`. -/
theorem pow_modEq_self_prime {p k : ℕ} (hp : p.Prime) (hk : k ≡ 1 [MOD p - 1]) (hk0 : k ≠ 0)
    (m : ℕ) : m ^ k ≡ m [MOD p] := by
  rcases Nat.coprime_or_dvd_of_prime hp m with hcop | hdvd
  -- a unit: the exponent is `1` and a multiple of `p - 1`
  · obtain ⟨t, ht⟩ : ∃ t, k = 1 + (p - 1) * t := by
      have hle : 1 ≤ k := Nat.one_le_iff_ne_zero.mpr hk0
      obtain ⟨t, ht⟩ := (Nat.modEq_iff_dvd' hle).mp hk.symm
      exact ⟨t, by omega⟩
    have hfermat : m ^ (p - 1) ≡ 1 [MOD p] := by
      have h := Nat.ModEq.pow_totient (Nat.coprime_comm.mp hcop)
      rwa [Nat.totient_prime hp] at h
    rw [ht, pow_add, pow_one, pow_mul]
    calc m * (m ^ (p - 1)) ^ t ≡ m * 1 ^ t [MOD p] := (hfermat.pow t).mul_left m
      _ = m := by rw [one_pow, mul_one]
  -- a multiple of `p`: both sides are `0`
  · have h0 : m ≡ 0 [MOD p] := (Nat.modEq_zero_iff_dvd).mpr hdvd
    calc m ^ k ≡ 0 ^ k [MOD p] := h0.pow k
      _ = 0 := zero_pow hk0
      _ ≡ m [MOD p] := h0.symm

/-- **The exponent law**, for every base: modulo each of the primes by Fermat, and modulo the
product since they are different. -/
theorem pow_modEq_self {p q k : ℕ} (hp : p.Prime) (hq : q.Prime) (hpq : p ≠ q)
    (hk : k ≡ 1 [MOD (p - 1) * (q - 1)]) (hk0 : k ≠ 0) (m : ℕ) :
    m ^ k ≡ m [MOD p * q] := by
  have hcop : p.Coprime q := (Nat.coprime_primes hp hq).mpr hpq
  rw [← Nat.modEq_and_modEq_iff_modEq_mul hcop]
  exact ⟨pow_modEq_self_prime hp (hk.of_mul_right _) hk0 m,
    pow_modEq_self_prime hq (hk.of_mul_left _) hk0 m⟩

/-- The exponents that change no residue of a prime: `p - 1` divides the power less one. -/
theorem pow_modEq_self_prime_iff {p k : ℕ} (hp : p.Prime) (hk : 1 ≤ k) :
    (∀ m : ℕ, m ^ k ≡ m [MOD p]) ↔ p - 1 ∣ k - 1 := by
  constructor
  · intro h
    have := Fact.mk hp
    rw [← ZMod.card p, ← FiniteField.forall_pow_eq_one_iff]
    intro x
    have hx : (x : ZMod p) ^ k = x := by
      have := (ZMod.natCast_eq_natCast_iff _ _ _).mpr (h (x : ZMod p).val)
      rwa [Nat.cast_pow, ZMod.natCast_zmod_val] at this
    have hpow : x * x ^ (k - 1) = x * 1 := by
      rw [mul_pow_sub_one (by omega), mul_one]
      exact Units.ext (by rw [Units.val_pow_eq_pow_val, hx])
    exact mul_left_cancel hpow
  · intro h m
    exact pow_modEq_self_prime hp ((Nat.modEq_iff_dvd' hk).mpr h).symm (by omega) m

/-- **When a power changes no residue**: the modulus is squarefree, and each of its primes
less one divides the exponent less one. -/
theorem pow_modEq_self_iff {n k : ℕ} (hk : 2 ≤ k) :
    (∀ m : ℕ, m ^ k ≡ m [MOD n])
      ↔ Squarefree n ∧ ∀ r : ℕ, r.Prime → r ∣ n → r - 1 ∣ k - 1 := by
  constructor
  · intro h
    refine ⟨Nat.squarefree_iff_prime_squarefree.mpr fun r hr hdvd => ?_, fun r hr hdvd => ?_⟩
    · -- `r` itself is changed: its power is a multiple of `r * r`
      have hself : r * r ∣ r ^ k := by
        rw [← pow_two]
        exact pow_dvd_pow r hk
      have := (Nat.ModEq.dvd_iff ((h r).of_dvd hdvd) dvd_rfl).mp hself
      have := Nat.le_of_dvd hr.pos this
      have := Nat.mul_le_mul_right r hr.two_le
      have := hr.pos
      omega
    · exact (pow_modEq_self_prime_iff hr (by omega)).mp fun m => (h m).of_dvd hdvd
  · rintro ⟨hsq, hdvd⟩ m
    refine ((Nat.modEq_iff_dvd' (Nat.le_self_pow (by omega) m)).mpr ?_).symm
    rw [← Nat.prod_primeFactors_of_squarefree hsq]
    refine Finset.prod_primes_dvd _ (fun r hr => (Nat.prime_of_mem_primeFactors hr).prime) ?_
    intro r hr
    have hrp := Nat.prime_of_mem_primeFactors hr
    have := (pow_modEq_self_prime_iff hrp (by omega)).mpr
      (hdvd r hrp (Nat.dvd_of_mem_primeFactors hr)) m
    exact (Nat.modEq_iff_dvd' (Nat.le_self_pow (by omega) m)).mp this.symm

/-- One pass of square and multiply: the bit of the exponent goes into the result, the
base is squared. -/
theorem square_multiply {r b k n x : ℕ} (h : r * b ^ k ≡ x [MOD n]) :
    (if k % 2 = 1 then r * b % n else r) * (b * b % n) ^ (k / 2) ≡ x [MOD n] := by
  have hsq : (b * b % n) ^ (k / 2) ≡ b ^ (2 * (k / 2)) [MOD n] := by
    rw [pow_mul, pow_two]
    exact (Nat.mod_modEq _ _).pow _
  have hk := Nat.div_add_mod k 2
  by_cases hodd : k % 2 = 1
  · rw [if_pos hodd]
    refine Nat.ModEq.trans ((Nat.mod_modEq _ _).mul hsq) ?_
    have hpow : r * b * b ^ (2 * (k / 2)) = r * b ^ k := by
      conv_rhs => rw [← hk, hodd, pow_succ]
      ring
    rwa [hpow]
  · rw [if_neg hodd]
    refine Nat.ModEq.trans (hsq.mul_left r) ?_
    rwa [show 2 * (k / 2) = k by omega]

/-! ## Coprime numbers -/

theorem coprime_pred {n : ℕ} (hn : 0 < n) : Nat.Coprime (n - 1) n := by
  obtain ⟨m, rfl⟩ : ∃ m, n = m + 1 := ⟨n - 1, by omega⟩
  simp

theorem coprime_of_lt_prime {r n : ℕ} (hr : r.Prime) (hn : 0 < n) (hlt : n < r) :
    Nat.Coprime r n :=
  (Nat.Prime.coprime_iff_not_dvd hr).mpr (fun h => absurd (Nat.le_of_dvd hn h) (by omega))

/-- Of two different primes one is odd, so the totient of their product is even. -/
theorem even_pred_mul_pred {p q : ℕ} (hp : p.Prime) (hq : q.Prime) (hpq : p ≠ q) :
    2 ∣ (p - 1) * (q - 1) := by
  have hodd : ∀ r : ℕ, r.Prime → r ≠ 2 → 2 ∣ r - 1 := by
    intro r hr h2
    have := hr.eq_two_or_odd
    omega
  rcases eq_or_ne p 2 with rfl | hp2
  · exact Dvd.dvd.mul_left (hodd q hq (fun h => hpq h.symm)) _
  · exact Dvd.dvd.mul_right (hodd p hp hp2) _

/-! ## The extended Euclidean algorithm -/

/-- Coefficients for `(b, a % b)` give coefficients for `(a, b)`. -/
theorem bezout_step {a b x y g : ℤ} (h : b * x + a % b * y = g) :
    a * y + b * (x - a / b * y) = g := by
  have hdiv := Int.emod_add_mul_ediv a b
  calc a * y + b * (x - a / b * y) = b * x + (a - b * (a / b)) * y := by ring
    _ = b * x + a % b * y := by
        congr 2
        omega
    _ = g := h

/-- A coefficient of the gcd `1` is an inverse. -/
theorem inverse_of_bezout {a n x y : ℤ} (h : a * x + n * y = 1) :
    a * (x % n) ≡ 1 [ZMOD n] :=
  -- a * x = 1 - n * y
  calc a * (x % n) ≡ a * x [ZMOD n] := (Int.mod_modEq x n).mul_left a
    _ ≡ a * x + n * y [ZMOD n] := by
        rw [Int.ModEq, Int.add_mul_emod_self_left]
    _ = 1 := h

/-- Two inverses of one number are congruent, so among the residues there is at most one. -/
theorem inverse_unique {a n d d' : ℤ} (h : a * d ≡ 1 [ZMOD n]) (h' : a * d' ≡ 1 [ZMOD n]) :
    d ≡ d' [ZMOD n] :=
  calc d = d * 1 := (mul_one d).symm
    _ ≡ d * (a * d') [ZMOD n] := h'.symm.mul_left d
    _ = a * d * d' := by ring
    _ ≡ 1 * d' [ZMOD n] := h.mul_right d'
    _ = d' := one_mul d'

/-- The coefficients stay below the arguments. The case of a remainder `0` is apart:
there the recursive call has returned `1` and `0`. -/
theorem bezout_bound {a b x y : ℤ} (ha : 0 ≤ a) (hb : 0 < b)
    (hx : |x| ≤ max 1 (a % b)) (hy : |y| ≤ max 1 b) (hbase : a % b = 0 → x = 1 ∧ y = 0) :
    |a / b * y| ≤ a ∧ |x - a / b * y| ≤ max 1 a := by
  have hq : 0 ≤ a / b := Int.ediv_nonneg ha hb.le
  have hdiv := Int.emod_add_mul_ediv a b
  have hr := Int.emod_nonneg a hb.ne'
  have hyb : |y| ≤ b := by rwa [max_eq_right (by omega)] at hy
  -- `|y| ≤ b`, and `b` times the quotient is at most `a`
  have hqy : |a / b * y| ≤ b * (a / b) := by
    rw [abs_mul, abs_of_nonneg hq, mul_comm b]
    exact mul_le_mul_of_nonneg_left hyb hq
  refine ⟨by omega, ?_⟩
  rcases eq_or_ne (a % b) 0 with h0 | hne
  · obtain ⟨rfl, rfl⟩ := hbase h0
    simp
  · rw [max_eq_right (by omega)] at hx
    have htri := abs_sub x (a / b * y)
    exact le_trans (by omega) (le_max_right _ _)

end CourseLabs.ModMath
