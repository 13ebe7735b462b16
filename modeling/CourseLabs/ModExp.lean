/-
`rsa.c`: `mod_exp` over the whole of `uint64_t`.

The products are taken in the signed `__int128`, and a product of two residues may need
one bit more. So whether a run stays defined depends on the powers of the base it meets:
pass `i` multiplies `base ^ (exp % 2 ^ i)` by `base ^ 2 ^ i` and squares the latter, each
reduced modulo `mod`. A modulus is safe for every base and exponent just when the square
of its largest residue fits.
-/
import CourseLabs.Rsa

set_option autoImplicit false

namespace CourseLabs.Rsa

open CourseLabs.CInt CourseLabs.CLoop CourseLabs.ModMath

section ModExpRange

variable {base exp mod : ℕ}

/-- The products for bit `i` of the exponent fit in `__int128`. -/
def FitsAt (base exp mod i : ℕ) : Prop :=
  (exp / 2 ^ i % 2 = 1 → base ^ (exp % 2 ^ i) % mod * (base ^ 2 ^ i % mod) < 2 ^ 127)
    ∧ base ^ 2 ^ i % mod * (base ^ 2 ^ i % mod) < 2 ^ 127

/-- They fit for every bit up to the highest one set. -/
def ProductsFit (base exp mod : ℕ) : Prop :=
  ∀ i, 2 ^ i ≤ exp → FitsAt base exp mod i

/-- The state of `mod_exp` after `i` passes: the power for the low `i` bits of the exponent, the
base squared so often, and the bits still to come. -/
def powers (base exp mod i : ℕ) : ℕ × ℕ × ℕ :=
  (base ^ (exp % 2 ^ i) % mod, base ^ 2 ^ i % mod, exp / 2 ^ i)

theorem powers_zero (hmod : 2 ≤ mod) : (1, base % mod, exp) = powers base exp mod 0 := by
  simp [powers, Nat.mod_one, Nat.mod_eq_of_lt hmod]

/-! ## One product -/

theorem int128_eq_none {a b : ℕ} (h : 2 ^ 127 ≤ a * b) : int128 ((a : ℤ) * b) = none :=
  sint_eq_none (by exact_mod_cast h)

theorem int128_of_lt {a b : ℕ} (h : a * b < 2 ^ 127) : int128 ((a : ℤ) * b) = some ((a : ℤ) * b) :=
  int128_eq_some (le_trans (by decide) (show (0 : ℤ) ≤ (a : ℤ) * b by positivity))
    (by exact_mod_cast h)

/-! ## One pass -/

/-- The low bits of an exponent, one more at a time. -/
theorem pow_mod_two_pow_succ (i : ℕ) (hbit : exp / 2 ^ i % 2 = 1) :
    base ^ (exp % 2 ^ i) % mod * (base ^ 2 ^ i % mod) % mod
      = base ^ (exp % 2 ^ (i + 1)) % mod := by
  rw [← Nat.mul_mod, ← pow_add, pow_succ, Nat.mod_mul, hbit, mul_one]

theorem pow_two_pow_succ (i : ℕ) :
    base ^ 2 ^ i % mod * (base ^ 2 ^ i % mod) % mod = base ^ 2 ^ (i + 1) % mod := by
  rw [← Nat.mul_mod, ← pow_add, ← two_mul, ← pow_succ']

theorem mod_exp_body_powers (hmod : 0 < mod) (hmod64 : mod < 2 ^ 64) {i : ℕ} (hi : 2 ^ i ≤ exp)
    (hfits : FitsAt base exp mod i) :
    mod_exp_body mod (powers base exp mod i) = some (.next (powers base exp mod (i + 1))) := by
  obtain ⟨hproduct, hsquare⟩ := hfits
  have hpos : exp / 2 ^ i > 0 := Nat.div_pos hi (Nat.two_pow_pos i)
  have hdiv : exp / 2 ^ i / 2 = exp / 2 ^ (i + 1) := by
    rw [Nat.div_div_eq_div_mul, ← pow_succ]
  rw [mod_exp_body, powers, if_pos hpos]
  by_cases hbit : exp / 2 ^ i % 2 = 1
  · simp only [if_pos hbit, int128_of_lt (hproduct hbit), int128_of_lt hsquare,
      Option.bind_eq_bind, Option.bind_some, uint_tmod hmod hmod64.le, hdiv]
    rw [pow_mod_two_pow_succ i hbit, pow_two_pow_succ, powers]
  · have hlow : exp % 2 ^ (i + 1) = exp % 2 ^ i := by
      rw [pow_succ, Nat.mod_mul, show exp / 2 ^ i % 2 = 0 by omega, mul_zero, add_zero]
    simp only [if_neg hbit, int128_of_lt hsquare, Option.bind_eq_bind, Option.bind_some,
      uint_tmod hmod hmod64.le, hdiv]
    rw [pow_two_pow_succ, powers, hlow]

theorem mod_exp_body_none {i : ℕ} (hi : 2 ^ i ≤ exp) (hfits : ¬ FitsAt base exp mod i) :
    mod_exp_body mod (powers base exp mod i) = none := by
  have hpos : exp / 2 ^ i > 0 := Nat.div_pos hi (Nat.two_pow_pos i)
  rw [mod_exp_body, powers, if_pos hpos]
  by_cases hbit : exp / 2 ^ i % 2 = 1
  · by_cases hproduct : base ^ (exp % 2 ^ i) % mod * (base ^ 2 ^ i % mod) < 2 ^ 127
    · have hsquare := not_lt.mp fun h => hfits ⟨fun _ => hproduct, h⟩
      simp only [if_pos hbit, int128_of_lt hproduct, int128_eq_none hsquare, Option.bind_eq_bind,
        Option.bind_some, Option.bind_none]
    · simp only [if_pos hbit, int128_eq_none (not_lt.mp hproduct), Option.bind_eq_bind,
        Option.bind_none]
  · have hsquare := not_lt.mp fun h => hfits ⟨fun h1 => absurd h1 hbit, h⟩
    simp only [if_neg hbit, int128_eq_none hsquare, Option.bind_eq_bind, Option.bind_some,
      Option.bind_none]

theorem mod_exp_body_done {i : ℕ} (hi : exp < 2 ^ i) :
    mod_exp_body mod (powers base exp mod i) = some (.done (base ^ exp % mod)) := by
  rw [mod_exp_body, powers, if_neg (by simp [Nat.div_eq_of_lt hi]), Nat.mod_eq_of_lt hi]

/-! ## All passes -/

/-- From pass `i` on, the run is defined when the products still to come fit. -/
theorem loop_powers (hmod : 0 < mod) (hmod64 : mod < 2 ^ 64) (i : ℕ) :
    loop (mod_exp_body mod) (powers base exp mod i) = some (base ^ exp % mod)
      ↔ ∀ j, i ≤ j → 2 ^ j ≤ exp → FitsAt base exp mod j := by
  generalize hm : exp / 2 ^ i = m
  -- the exponent is halved at each pass
  induction m using Nat.strongRecOn generalizing i with
  | ind m ih =>
      rcases Nat.lt_or_ge exp (2 ^ i) with hlt | hge
      · rw [loop_done (mod_exp_body_done hlt)]
        refine iff_of_true rfl fun j hij hj => ?_
        have := Nat.pow_le_pow_right two_pos hij
        omega
      · by_cases hfits : FitsAt base exp mod i
        · have hlt : exp / 2 ^ (i + 1) < m := by
            rw [← hm, pow_succ, ← Nat.div_div_eq_div_mul]
            exact Nat.div_lt_self (Nat.div_pos hge (Nat.two_pow_pos i)) (by decide)
          rw [loop_next (mod_exp_body_powers hmod hmod64 hge hfits), ih _ hlt (i + 1) rfl]
          constructor
          · intro h j hij hj
            rcases eq_or_lt_of_le hij with rfl | hij
            · exact hfits
            · exact h j hij hj
          · exact fun h j hij hj => h j (by omega) hj
        · rw [loop_none (mod_exp_body_none hge hfits)]
          exact iff_of_false (by simp) fun h => hfits (h i (le_refl i) hge)

theorem mod_exp_eq_some_iff (hmod : 2 ≤ mod) (hmod64 : mod < 2 ^ 64) :
    mod_exp base exp mod = some (base ^ exp % mod) ↔ ProductsFit base exp mod := by
  rw [mod_exp, if_neg (by omega), powers_zero hmod, loop_powers (by omega) hmod64]
  simp [ProductsFit]

/-! ## Safe moduli -/

/-- With the largest residue as base, the first pass already squares it. -/
theorem mod_exp_pred_eq_none (hmod : 2 ≤ mod) (hexp : 0 < exp) (hwide : 2 ^ 127 ≤ (mod - 1) ^ 2) :
    mod_exp (mod - 1) exp mod = none := by
  have hfits : ¬ FitsAt (mod - 1) exp mod 0 := by
    rintro ⟨-, hsquare⟩
    rw [pow_zero, pow_one, Nat.mod_eq_of_lt (by omega), ← pow_two] at hsquare
    omega
  rw [mod_exp, if_neg (by omega), powers_zero hmod]
  exact loop_none (mod_exp_body_none hexp hfits)

theorem mod_exp_pred (hmod : 2 ≤ mod) (hexp : 0 < exp) (hwide : 2 ^ 127 ≤ (mod - 1) ^ 2) :
    mod_exp (mod - 1) exp mod ≠ some ((mod - 1) ^ exp % mod) := by
  rw [mod_exp_pred_eq_none hmod hexp hwide]
  simp

/-- **When `mod_exp` is modular exponentiation**: on the inputs whose products fit, and on
no others; and for all bases and exponents just when the square of `mod - 1` fits. -/
theorem mod_exp_exact_iff (hmod : 2 ≤ mod) (hmod64 : mod < 2 ^ 64) :
    (∀ base exp, mod_exp base exp mod = some (base ^ exp % mod) ↔ ProductsFit base exp mod)
      ∧ ((∀ base exp, base < 2 ^ 64 → exp < 2 ^ 64 →
          mod_exp base exp mod = some (base ^ exp % mod)) ↔ (mod - 1) ^ 2 < 2 ^ 127) := by
  refine ⟨fun _ _ => mod_exp_eq_some_iff hmod hmod64, ?_, fun h _ _ _ _ => mod_exp_spec hmod h⟩
  intro h
  by_contra hwide
  exact mod_exp_pred hmod one_pos (not_lt.mp hwide)
    (h (mod - 1) 1 (by omega) (by decide))

/-- The largest modulus, with a base just below it: the square of the base does not fit, although
the exponent `1` does not need it. -/
theorem mod_exp_exact_iff_max :
    mod_exp (2 ^ 64 - 2) 1 (2 ^ 64 - 1) ≠ some ((2 ^ 64 - 2) ^ 1 % (2 ^ 64 - 1))
      ∧ ¬ ProductsFit (2 ^ 64 - 2) 1 (2 ^ 64 - 1) := by
  have hne : mod_exp (2 ^ 64 - 1 - 1) 1 (2 ^ 64 - 1)
      ≠ some ((2 ^ 64 - 1 - 1) ^ 1 % (2 ^ 64 - 1)) :=
    mod_exp_pred (by decide) one_pos (by norm_num)
  exact ⟨hne, fun h => hne (((mod_exp_exact_iff (by decide) (by decide)).1 _ _).mpr h)⟩

/-- So `mod_exp` is not safe for every modulus, although its comment says that the wide type
prevents an overflow. -/
theorem not_always_exact :
    ¬ ∀ base exp mod : ℕ, base < 2 ^ 64 → exp < 2 ^ 64 → mod < 2 ^ 64 → 2 ≤ mod →
      mod_exp base exp mod = some (base ^ exp % mod) := by
  intro h
  exact mod_exp_pred (by decide) one_pos (by norm_num)
    (h (2 ^ 64 - 2) 1 (2 ^ 64 - 1) (by decide) (by decide) (by decide) (by decide))

end ModExpRange

end CourseLabs.Rsa
