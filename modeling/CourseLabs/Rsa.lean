/-
`rsa.c`: key generation, and encryption with decryption.

The machine integers are kept apart from the arithmetic. Each function has a lemma
`_spec` that says which number it returns and, since it returns at all, that no
`int64_t` or `__int128` operation in it overflowed; the number theory is in `ModMath`.

Two places depend on the shape of `phi` rather than on its size. The search for `e`
goes up by `2` from `17`, so it ends because `phi` is even and `phi - 1` coprime to it;
and when `phi` is at most `17` the search does not start, and `17` serves because it is
a prime above `phi`.
-/
import CourseLabs.CInt
import CourseLabs.CLoop
import CourseLabs.ModMath
import Mathlib.Tactic.NormNum.Prime

set_option autoImplicit false

namespace CourseLabs.Rsa

open CourseLabs.CInt CourseLabs.CLoop CourseLabs.ModMath

/-! ## The program -/

/-- `ext_gcd` with its two output parameters: the gcd, `x` and `y`. -/
def ext_gcd (a b : ℤ) : Option (ℤ × ℤ × ℤ) :=
  letI ext_gcd : ℤ → ℤ → Option (ℤ × ℤ × ℤ) := by exact ext_gcd
  if b = 0 then
    some (a, 1, 0)
  else do
    let (g, x1, y1) ← ext_gcd b (← rem64 a b)
    let m ← int64 ((← div64 a b) * y1)
    let y ← int64 (x1 - m)
    some (g, y1, y)
partial_fixpoint

/-- One pass of the loop of Euclid. The state is `a`, `b`; the remainder is the one of C, which has
the sign of the dividend. -/
def gcd_body (s : ℤ × ℤ) : Option (Pass (ℤ × ℤ) ℤ) :=
  if s.2 ≠ 0 then do
    let r ← rem64 s.1 s.2
    some (.next (s.2, r))
  else
    some (.done s.1)

/-- `gcd`, the loop of Euclid with the C remainder, which `main` calls in its search for the
exponent. -/
def gcd (a b : ℤ) : Option ℤ :=
  loop gcd_body (a, b)

/-- `mod_inverse`: the coefficient of the extended Euclid, brought into the range from `0`. It is
`-1` where there is no inverse. -/
def mod_inverse (e phi : ℤ) : Option ℤ := do
  let (g, x, _) ← ext_gcd e phi
  if g ≠ 1 then
    some (-1) -- no inverse exists
  else do
    let r ← int64 ((← rem64 x phi) + phi)
    rem64 r phi

/-- The state is `result`, `base`, `exp`. Products are taken in `__int128`. -/
def mod_exp_body (mod : ℕ) (s : ℕ × ℕ × ℕ) : Option (Pass (ℕ × ℕ × ℕ) ℕ) :=
  if s.2.2 > 0 then do
    -- the lowest bit of the exponent decides whether the base goes in
    let result ← if s.2.2 % 2 = 1 then do
        let t ← int128 ((s.1 : ℤ) * s.2.1)
        some (uint 64 (t.tmod mod))
      else
        some s.1
    let t ← int128 ((s.2.1 : ℤ) * s.2.1)
    some (.next (result, uint 64 (t.tmod mod), s.2.2 / 2))
  else
    some (.done s.1)

/-- `mod_exp`: repeated squaring, in `__int128` products that are reduced at once. -/
def mod_exp (base exp mod : ℕ) : Option ℕ :=
  if mod = 0 then
    none
  else
    loop (mod_exp_body mod) (1, base % mod, exp)

/-- The search for the public exponent; the state is `e`. -/
def choose_e_body (phi : ℕ) (e : ℕ) : Option (Pass ℕ ℕ) :=
  if e < phi then do
    let g ← gcd (asInt64 e) (asInt64 phi)
    if g = 1 then
      some (.done e)
    else
      some (.next ((e + 2) % 2 ^ 64))
  else
    some (.done e)

/-- The search for the public exponent in `main`: the odd numbers from `17` on, until one has no
factor in common with `phi` or is not below it any more. -/
def choose_e (phi : ℕ) : Option ℕ :=
  loop (choose_e_body phi) 17

/-- The numbers `main` prints as the key. All but `d` are `uint64_t` in the source, and `d` is what
`mod_inverse` returns, so it may be `-1`. -/
structure Key where
  n : ℕ
  phi : ℕ
  e : ℕ
  d : ℤ

/-- The key generation in `main`; an error is the value `main` returns. -/
def generate_key (p q : ℤ) : Option (Except ℤ Key) := do
  let n := uint 64 p * uint 64 q % 2 ^ 64
  let phi := uint 64 (← int64 (p - 1)) * uint 64 (← int64 (q - 1)) % 2 ^ 64
  let e ← choose_e phi
  let d ← mod_inverse (asInt64 e) (asInt64 phi)
  if d < 0 then
    some (.error 1)
  else
    some (.ok { n, phi, e, d })

/-! ## Euclid -/

/-- The step of Euclid: the pair of the next pass has the same divisors. -/
theorem gcd_emod_right (a b : ℤ) : Int.gcd b (a % b) = Int.gcd a b := by
  rw [Int.gcd_comm b, Int.gcd_emod]

/-- What `ext_gcd` returns: coefficients no larger than the arguments. The bounds are what keeps
the products on the way back inside an `int64_t`. -/
def Coefficients (a b x y : ℤ) : Prop :=
  a * x + b * y = Int.gcd a b ∧ |x| ≤ max 1 b ∧ |y| ≤ max 1 a ∧ (b = 0 → x = 1 ∧ y = 0)

/-- One level of the recursion, on its way back: the coefficients of the smaller pair give those of
the pair, and the product fits. -/
theorem coefficients_step {a b x y : ℤ} (ha : 0 ≤ a) (hb : 0 < b)
    (h : Coefficients b (a % b) x y) :
    |a / b * y| ≤ a ∧ Coefficients a b y (x - a / b * y) := by
  obtain ⟨hsum, hx, hy, hbase⟩ := h
  obtain ⟨hprod, hsub⟩ := bezout_bound ha hb hx hy hbase
  refine ⟨hprod, ?_, hy, hsub, fun h0 => absurd h0 hb.ne'⟩
  rw [← gcd_emod_right]
  exact bezout_step hsum

/-- The extended Euclid gives the divisor and coefficients for it, and the coefficients stay in
range, so no product overflows. -/
theorem ext_gcd_spec {a b : ℤ} (ha : 0 ≤ a) (hb : 0 ≤ b) (ha' : a < 2 ^ 63)
    (hb' : b < 2 ^ 63) :
    ∃ x y, ext_gcd a b = some ((Int.gcd a b : ℤ), x, y) ∧ Coefficients a b x y := by
  -- the second argument falls at each call
  generalize hm : b.toNat = m
  induction m using Nat.strongRecOn generalizing a b with
  | ind m ih =>
      rcases eq_or_lt_of_le hb with rfl | hpos
      · refine ⟨1, 0, ?_, ?_⟩
        · rw [ext_gcd, if_pos rfl, Int.gcd_zero_right, Int.natAbs_of_nonneg ha]
        · refine ⟨?_, by simp, by simp, fun _ => ⟨rfl, rfl⟩⟩
          rw [Int.gcd_zero_right, Int.natAbs_of_nonneg ha]
          ring
      · have hr := Int.emod_nonneg a hpos.ne'
        have hlt := Int.emod_lt_of_pos a hpos
        -- the coefficients of the recursive call are in range, so the new ones are
        obtain ⟨x, y, hrun, hcoef⟩ := ih (a % b).toNat (by omega) hb hr hb' (by omega) rfl
        obtain ⟨hprod, hcoef'⟩ := coefficients_step ha hpos hcoef
        have hy := hcoef'.2.2.1
        have hmax : max 1 a < 2 ^ 63 := max_lt (by decide) ha'
        rw [abs_le] at hprod
        rw [abs_le] at hy
        refine ⟨y, x - a / b * y, ?_, hcoef'⟩
        rw [ext_gcd, if_neg hpos.ne', rem64_of_nonneg ha hpos ha',
          div64_of_nonneg ha hpos ha']
        simp only [Option.bind_eq_bind, Option.bind_some, hrun]
        rw [int64_eq_some (by omega) (by omega), Option.bind_some,
          int64_eq_some (by omega) (by omega), Option.bind_some, gcd_emod_right]

/-- The plain loop gives the same divisor as the recursion, on arguments that are not negative. -/
theorem gcd_spec {a b : ℤ} (ha : 0 ≤ a) (hb : 0 ≤ b) (ha' : a < 2 ^ 63)
    (hb' : b < 2 ^ 63) : gcd a b = some (Int.gcd a b : ℤ) := by
  -- the invariant of the loop: the divisor of the two is kept, and the second falls
  obtain ⟨g, hrun, rfl⟩ := loop_spec (f := gcd_body) (fun s => s.2.toNat)
    (fun s => 0 ≤ s.1 ∧ 0 ≤ s.2 ∧ s.1 < 2 ^ 63 ∧ s.2 < 2 ^ 63
      ∧ Int.gcd s.1 s.2 = Int.gcd a b)
    (fun g => g = (Int.gcd a b : ℤ)) (by
      rintro ⟨a', b'⟩ ⟨ha, hb, hau, hbu, hg⟩
      simp only at ha hb hau hbu hg
      rcases eq_or_lt_of_le hb with rfl | hpos
      · left
        refine ⟨a', by rw [gcd_body, if_neg (by simp)], ?_⟩
        rw [← hg, Int.gcd_zero_right, Int.natAbs_of_nonneg ha]
      · right
        have hr := Int.emod_nonneg a' hpos.ne'
        have hlt := Int.emod_lt_of_pos a' hpos
        refine ⟨(b', a' % b'), ?_, ⟨hb, hr, hbu, by omega, ?_⟩, by simp only; omega⟩
        · rw [gcd_body, if_pos hpos.ne', rem64_of_nonneg ha hpos hau]
          rfl
        · rw [← hg]
          exact gcd_emod_right a' b')
    (s := (a, b)) ⟨ha, hb, ha', hb', rfl⟩
  exact hrun

/-- `mod_inverse` on coprime arguments: a residue, and an inverse. The coefficient may be negative,
which is why `phi` is added before the last remainder. -/
theorem mod_inverse_spec {e phi : ℤ} (he : 0 ≤ e) (hphi : 0 < phi) (he' : e < 2 ^ 63)
    (hphi' : phi < 2 ^ 62) (hcop : Int.gcd e phi = 1) :
    ∃ d, mod_inverse e phi = some d ∧ 0 ≤ d ∧ d < phi ∧ e * d ≡ 1 [ZMOD phi] := by
  obtain ⟨x, y, hrun, hsum, hx, -, -⟩ := ext_gcd_spec he hphi.le he' (by omega)
  rw [max_eq_right (by omega), abs_le] at hx
  have hlo := Int.lt_tmod_of_pos x hphi
  have hhi := Int.tmod_lt_of_pos x hphi
  refine ⟨x % phi, ?_, Int.emod_nonneg x hphi.ne', Int.emod_lt_of_pos x hphi, ?_⟩
  · rw [mod_inverse, hrun]
    simp only [Option.bind_eq_bind, Option.bind_some, hcop, Nat.cast_one, ne_eq, not_true_eq_false,
      if_false]
    -- `x` may be negative: the residue is taken, shifted up by `phi` and taken again
    rw [rem64_of_pos hphi (by omega) (by omega), Option.bind_some,
      int64_eq_some (by omega) (by omega), Option.bind_some,
      rem64_of_pos hphi (by omega) (by omega), tmod_add_tmod x hphi]
  · exact inverse_of_bezout (by rw [hsum, hcop, Nat.cast_one])

/-- `mod_inverse` on arguments that are not coprime: there is no inverse, and `-1` says so. -/
theorem mod_inverse_of_gcd_ne {e phi : ℤ} (he : 0 ≤ e) (hphi : 0 ≤ phi) (he' : e < 2 ^ 63)
    (hphi' : phi < 2 ^ 63) (hgcd : Int.gcd e phi ≠ 1) : mod_inverse e phi = some (-1) := by
  obtain ⟨x, y, hrun, -⟩ := ext_gcd_spec he hphi he' hphi'
  have hne : (Int.gcd e phi : ℤ) ≠ 1 := by exact_mod_cast hgcd
  rw [mod_inverse, hrun, Option.bind_eq_bind, Option.bind_some]
  exact if_pos hne

/-- **The modular inverse.** `ext_gcd` returns the gcd with coefficients no larger than the
arguments, and `mod_inverse` returns `-1` if there is no inverse and otherwise the only one
there is among the residues. -/
theorem mod_inverse_correct {e phi : ℤ} (he : 0 ≤ e) (hphi : 1 ≤ phi) (he' : e < 2 ^ 62)
    (hphi' : phi < 2 ^ 62) :
    (∃ x y, ext_gcd e phi = some ((Int.gcd e phi : ℤ), x, y)
      ∧ e * x + phi * y = Int.gcd e phi ∧ |x| ≤ phi ∧ |y| ≤ max 1 e)
    ∧ ∃ d, mod_inverse e phi = some d ∧ (d = -1 ↔ Int.gcd e phi ≠ 1)
      ∧ (Int.gcd e phi = 1 →
        (0 ≤ d ∧ d < phi ∧ e * d ≡ 1 [ZMOD phi])
        ∧ ∀ d', 0 ≤ d' → d' < phi → e * d' ≡ 1 [ZMOD phi] → d' = d) := by
  have hpos : 0 < phi := by omega
  constructor
  · obtain ⟨x, y, hrun, hsum, hx, hy, -⟩ := ext_gcd_spec he hpos.le (by omega) (by omega)
    rw [max_eq_right hphi] at hx
    exact ⟨x, y, hrun, hsum, hx, hy⟩
  by_cases hcop : Int.gcd e phi = 1
  · obtain ⟨d, hrun, hd0, hdlt, hinv⟩ := mod_inverse_spec he hpos (by omega) hphi' hcop
    refine ⟨d, hrun, ?_, fun _ => ⟨⟨hd0, hdlt, hinv⟩, fun d' hd0' hdlt' hinv' => ?_⟩⟩
    · exact iff_of_false (by omega) (not_not.mpr hcop)
    -- congruent residues are the same
    · have hcongr := inverse_unique hinv' hinv
      rwa [Int.ModEq, Int.emod_eq_of_lt hd0' hdlt', Int.emod_eq_of_lt hd0 hdlt] at hcongr
  · have hrun := mod_inverse_of_gcd_ne he hpos.le (by omega) (by omega) hcop
    exact ⟨-1, hrun, iff_of_true rfl hcop, fun h => absurd h hcop⟩

/-- The exponents of the textbook key. -/
theorem mod_inverse_correct_main : Int.gcd 17 3120 = 1 ∧ mod_inverse 17 3120 = some 2753 := by
  have hgcd : Int.gcd 17 3120 = 1 := by decide
  obtain ⟨-, d, hrun, -, hcop⟩ := @mod_inverse_correct 17 3120 (by decide) (by decide) (by decide)
    (by decide)
  obtain ⟨-, honly⟩ := hcop hgcd
  refine ⟨hgcd, ?_⟩
  rw [hrun, ← honly 2753 (by decide) (by decide) (by decide)]

/-! ## Square and multiply -/

/-- What `mod_exp` holds on to while it works towards `x` modulo `mod`. -/
def Power (mod x : ℕ) (s : ℕ × ℕ × ℕ) : Prop :=
  s.1 < mod ∧ s.2.1 < mod ∧ s.1 * s.2.1 ^ s.2.2 ≡ x [MOD mod]

section ModExp

variable {mod : ℕ}

/-- A product reduced and put back into `uint64_t`: the remainder of a product that is not negative
is the usual one, and it fits. -/
theorem uint_tmod (hmod : 0 < mod) (hmod64 : mod ≤ 2 ^ 64) (a b : ℕ) :
    uint 64 (((a : ℤ) * b).tmod mod) = a * b % mod := by
  have hlt := Nat.mod_lt (a * b) hmod
  have hcast : ((a : ℤ) * b).tmod mod = (a * b % mod : ℕ) := by
    rw [Int.tmod_eq_emod_of_nonneg (by positivity)]
    push_cast
    rfl
  rw [hcast, uint_of_nonneg (by omega) (by exact_mod_cast lt_of_lt_of_le hlt hmod64)]
  exact Int.toNat_natCast _

/-- A product of two residues, reduced. The bound on the modulus is what keeps the product inside a
signed `__int128`. -/
theorem product_spec {a b : ℕ} (hmod : (mod - 1) ^ 2 < 2 ^ 127) (ha : a < mod) (hb : b < mod) :
    ∃ t, int128 ((a : ℤ) * b) = some t ∧ uint 64 (t.tmod mod) = a * b % mod := by
  have hab : a * b ≤ (mod - 1) ^ 2 := by
    rw [pow_two]
    exact Nat.mul_le_mul (by omega) (by omega)
  have hmod64 : mod ≤ 2 ^ 64 := by
    by_contra hgt
    have := Nat.pow_le_pow_left (show 2 ^ 64 ≤ mod - 1 by omega) 2
    omega
  have hpos : (0 : ℤ) ≤ (a : ℤ) * b := by positivity
  exact ⟨(a : ℤ) * b, int128_eq_some (by omega) (by exact_mod_cast lt_of_le_of_lt hab hmod),
    uint_tmod (by omega) hmod64 a b⟩

/-- A step of the squaring keeps the power that is looked for, as product of what is collected and
what is left. -/
theorem mod_exp_body_spec {x : ℕ} (hmod : (mod - 1) ^ 2 < 2 ^ 127) (s : ℕ × ℕ × ℕ)
    (hs : Power mod x s) :
    (∃ r, mod_exp_body mod s = some (.done r) ∧ r < mod ∧ r ≡ x [MOD mod])
      ∨ ∃ s', mod_exp_body mod s = some (.next s') ∧ Power mod x s' ∧ s'.2.2 < s.2.2 := by
  obtain ⟨result, base, exp⟩ := s
  obtain ⟨hresult, hbase, hpow⟩ := hs
  simp only at hresult hbase hpow
  rcases Nat.eq_zero_or_pos exp with rfl | hexp
  · left
    rw [pow_zero, mul_one] at hpow
    exact ⟨result, by rw [mod_exp_body, if_neg (by simp)], hresult, hpow⟩
  · right
    have hmod0 : 0 < mod := by omega
    obtain ⟨t1, hrun1, hval1⟩ := product_spec hmod hresult hbase
    obtain ⟨t2, hrun2, hval2⟩ := product_spec hmod hbase hbase
    refine ⟨(if exp % 2 = 1 then result * base % mod else result, base * base % mod, exp / 2),
      ?_, ⟨?_, Nat.mod_lt _ hmod0, square_multiply hpow⟩, Nat.div_lt_self hexp (by omega)⟩
    -- both products are in range, whichever branch the bit takes
    · rw [mod_exp_body, if_pos hexp]
      simp only [Option.bind_eq_bind, hrun1, hrun2, hval1, hval2, Option.bind_some]
      by_cases hodd : exp % 2 = 1
      · simp [hodd]
      · simp [hodd]
    · simp only
      split
      · exact Nat.mod_lt _ hmod0
      · exact hresult

/-- **`mod_exp` is modular exponentiation** where the square of a residue fits in the
`__int128` it is computed in. -/
theorem mod_exp_spec {base exp : ℕ} (hmod2 : 2 ≤ mod) (hmod : (mod - 1) ^ 2 < 2 ^ 127) :
    mod_exp base exp mod = some (base ^ exp % mod) := by
  have hinit : Power mod (base ^ exp) (1, base % mod, exp) := by
    refine ⟨hmod2, Nat.mod_lt _ (by omega), ?_⟩
    rw [one_mul]
    exact (Nat.mod_modEq base mod).pow exp
  obtain ⟨r, hrun, hlt, hmodEq⟩ := loop_spec (fun s => s.2.2) (Power mod (base ^ exp))
    (fun r => r < mod ∧ r ≡ base ^ exp [MOD mod]) (mod_exp_body_spec hmod) hinit
  rw [mod_exp, if_neg (by omega), hrun, ← hmodEq, Nat.mod_eq_of_lt hlt]

example : mod_exp 65 17 3233 = some 2790 :=
  (loop_eq_loopN 6 (by decide)).trans (by decide)

end ModExp

/-! ## The public exponent -/

/-- The odd numbers from `17` on that the search has passed over. -/
def Passed (phi e : ℕ) : Prop :=
  e % 2 = 1 ∧ 17 ≤ e ∧ ∀ k, k % 2 = 1 → 17 ≤ k → k < e → ¬ Nat.Coprime k phi

/-- The search stops at the first odd number from `17` on that is coprime to `phi`. -/
theorem choose_e_spec {phi : ℕ} (hphi : 0 < phi) (heven : 2 ∣ phi) (hlt : phi < 2 ^ 63) :
    ∃ e, choose_e phi = some e ∧ Passed phi e ∧ Nat.Coprime e phi
      ∧ (phi ≤ 17 → e = 17) ∧ (17 < phi → e < phi) := by
  obtain ⟨e, hrun, he⟩ := loop_spec (f := choose_e_body phi) (fun e => phi - e)
    (fun e => Passed phi e ∧ (phi ≤ 17 → e = 17) ∧ (17 < phi → e < phi))
    (fun e => Passed phi e ∧ Nat.Coprime e phi ∧ (phi ≤ 17 → e = 17) ∧ (17 < phi → e < phi)) (by
      rintro e ⟨hpassed, hsmall, hlarge⟩
      obtain ⟨hodd, h17, hnone⟩ := hpassed
      rcases Nat.lt_or_ge e phi with hlt' | hge
      · have hgcd : gcd (asInt64 e) (asInt64 phi) = some (Nat.gcd e phi : ℤ) := by
          rw [asInt64_of_lt (by omega), asInt64_of_lt (by omega),
            gcd_spec (by omega) (by omega) (by omega) (by omega), Int.gcd_natCast_natCast]
        by_cases hcop : Nat.Coprime e phi
        · left
          refine ⟨e, ?_, ⟨hodd, h17, hnone⟩, hcop, hsmall, hlarge⟩
          rw [choose_e_body, if_pos hlt', hgcd]
          simp [Nat.Coprime.gcd_eq_one hcop]
        · -- `phi - 1` is odd and coprime to `phi`, so the search is not past it
          have hne : e ≠ phi - 1 := fun h => hcop (h ▸ coprime_pred hphi)
          right
          refine ⟨e + 2, ?_, ⟨⟨by omega, by omega, ?_⟩, by omega, by omega⟩, by omega⟩
          · have hgcd1 : ((Nat.gcd e phi : ℕ) : ℤ) ≠ 1 := fun h => hcop (by exact_mod_cast h)
            rw [choose_e_body, if_pos hlt', hgcd, Option.bind_eq_bind, Option.bind_some,
              if_neg hgcd1, Nat.mod_eq_of_lt (by omega)]
          · intro k hk1 hk2 hk3
            rcases Nat.lt_or_ge k e with hlt | hge
            · exact hnone k hk1 hk2 hlt
            · exact (show e = k by omega) ▸ hcop
      · -- here `phi` is at most `17`: above it, the search stays below `phi`
        left
        have he17 : e = 17 := hsmall (by omega)
        refine ⟨e, ?_, ⟨hodd, h17, hnone⟩, ?_, hsmall, hlarge⟩
        · rw [choose_e_body, if_neg (by omega)]
        · rw [he17]
          exact coprime_of_lt_prime (by norm_num) hphi (by omega))
    (s := 17) ⟨⟨rfl, le_refl 17, fun k _ h1 h2 => absurd h1 (by omega)⟩, fun _ => rfl, id⟩
  exact ⟨e, hrun, he⟩

/-! ## The key -/

section GenerateKey

variable {p q : ℕ}

/-- A key that works: the numbers are the exact ones and the exponents are inverse. -/
structure Key.Valid (p q : ℕ) (k : Key) : Prop where
  n_eq : k.n = p * q
  phi_eq : k.phi = (p - 1) * (q - 1)
  coprime : Nat.gcd k.e k.phi = 1
  d_pos : 1 ≤ k.d
  inverse : (k.e : ℤ) * k.d ≡ 1 [ZMOD k.phi]

/-- The totient of two different primes is at least `2`. -/
theorem two_le_totient (hp : p.Prime) (hq : q.Prime) (hpq : p ≠ q) :
    2 ≤ (p - 1) * (q - 1) := by
  have hp2 := hp.two_le
  have hq2 := hq.two_le
  have hpos : 0 < (p - 1) * (q - 1) := Nat.mul_pos (by omega) (by omega)
  exact Nat.le_of_dvd hpos (even_pred_mul_pred hp hq hpq)

/-- The totient is below the modulus, so it fits where the modulus does. -/
theorem totient_lt (hp : p.Prime) (hq : q.Prime) : (p - 1) * (q - 1) < p * q := by
  have hp2 := hp.two_le
  have hq2 := hq.two_le
  exact Nat.mul_lt_mul_of_lt_of_le (by omega) (by omega) (by omega)

/-- For two different primes the key is made and is valid. Where `phi` is at most `17` the exponent
is `17` all the same, otherwise it is below `phi`. -/
theorem generate_key_spec (hp : p.Prime) (hq : q.Prime) (hpq : p ≠ q) (hn : p * q < 2 ^ 62) :
    ∃ k, generate_key p q = some (.ok k) ∧ k.Valid p q
      ∧ (k.phi ≤ 17 → k.e = 17) ∧ (17 < k.phi → k.e < k.phi) := by
  have hp2 := hp.two_le
  have hq2 := hq.two_le
  have hp' : p ≤ p * q := Nat.le_mul_of_pos_right p (by omega)
  have hq' : q ≤ p * q := Nat.le_mul_of_pos_left q (by omega)
  have hphi2 := two_le_totient hp hq hpq
  have hphi' := totient_lt hp hq
  obtain ⟨e, hrun_e, -, hcop, hsmall, hlarge⟩ :=
    choose_e_spec (by omega) (even_pred_mul_pred hp hq hpq) (by omega)
  generalize hphi : (p - 1) * (q - 1) = phi at *
  have he : e < 2 ^ 62 := by omega
  obtain ⟨d, hrun_d, hd0, -, hinv⟩ := mod_inverse_spec (show (0 : ℤ) ≤ e by omega)
    (show (0 : ℤ) < phi by omega) (by omega) (by omega) (by rwa [Int.gcd_natCast_natCast])
  have hd1 : d ≠ 0 := by
    rintro rfl
    -- then `phi` would divide `1`
    rw [mul_zero] at hinv
    have hdvd : (phi : ℤ) ∣ 1 := by simpa using hinv.dvd
    have := Int.le_of_dvd one_pos hdvd
    omega
  refine ⟨{ n := p * q, phi := phi, e := e, d := d }, ?_,
    ⟨rfl, hphi.symm, hcop, by simp only; omega, hinv⟩, hsmall, hlarge⟩
  have hup : uint 64 ((p : ℤ) - 1) = p - 1 := by
    rw [uint_of_nonneg (by omega) (by omega)]
    omega
  have huq : uint 64 ((q : ℤ) - 1) = q - 1 := by
    rw [uint_of_nonneg (by omega) (by omega)]
    omega
  rw [generate_key, int64_eq_some (by omega) (by omega), int64_eq_some (by omega) (by omega)]
  simp only [Option.bind_eq_bind, Option.bind_some]
  rw [hup, huq, uint_of_nonneg (by omega) (by omega), uint_of_nonneg (by omega) (by omega),
    Int.toNat_natCast, Int.toNat_natCast, hphi, Nat.mod_eq_of_lt (by omega),
    Nat.mod_eq_of_lt (by omega), hrun_e, Option.bind_some, asInt64_of_lt (by omega),
    asInt64_of_lt (by omega), hrun_d, Option.bind_some, if_neg (by omega)]

/-- Encryption followed by decryption under a valid key gives back every residue, prime to the
modulus or not. -/
theorem Key.Valid.round_trip {k : Key} (hk : k.Valid p q) (hp : p.Prime) (hq : q.Prime)
    (hpq : p ≠ q) (hn : p * q < 2 ^ 62) {m : ℕ} (hm : m < k.n) :
    ∃ c, mod_exp m k.e k.n = some c ∧ mod_exp c k.d.toNat k.n = some m := by
  have hn2 : 2 ≤ k.n := by
    have := two_le_totient hp hq hpq
    have := totient_lt hp hq
    rw [hk.n_eq]
    omega
  have hsq : (k.n - 1) ^ 2 < 2 ^ 127 := by
    have hlt : k.n - 1 < 2 ^ 62 := by
      rw [hk.n_eq]
      omega
    calc (k.n - 1) ^ 2 < (2 ^ 62) ^ 2 := Nat.pow_lt_pow_left hlt (by decide)
      _ < 2 ^ 127 := by norm_num
  have hd := hk.d_pos
  have hexp : k.e * k.d.toNat ≡ 1 [MOD (p - 1) * (q - 1)] := by
    have hcast : ((k.e * k.d.toNat : ℕ) : ℤ) = k.e * k.d := by
      rw [Nat.cast_mul, Int.toNat_of_nonneg (by omega)]
    rw [← hk.phi_eq, ← Int.natCast_modEq_iff, hcast]
    exact hk.inverse
  -- a zero exponent would make `phi` divide `1`
  have hexp0 : k.e * k.d.toNat ≠ 0 := by
    intro h0
    rw [h0] at hexp
    have hdvd := (Nat.modEq_zero_iff_dvd.mp hexp.symm)
    have := Nat.le_of_dvd one_pos hdvd
    have := two_le_totient hp hq hpq
    omega
  refine ⟨m ^ k.e % k.n, mod_exp_spec hn2 hsq, ?_⟩
  rw [mod_exp_spec hn2 hsq, ← Nat.pow_mod, ← pow_mul]
  have hmod := pow_modEq_self hp hq hpq hexp hexp0 m
  rw [← hk.n_eq] at hmod
  rw [hmod, Nat.mod_eq_of_lt hm]

/-- **RSA round trip.** For two different primes whose product leaves the machine integers their
room, `main` gets a key, and decryption undoes encryption on every residue. The residues need not
be prime to the modulus: the exponent law is put together from the two primes, and it holds
trivially where one of them divides the base. -/
theorem rsa_round_trip (hp : p.Prime) (hq : q.Prime) (hpq : p ≠ q) (hn : p * q < 2 ^ 62) :
    ∃ k, generate_key p q = some (.ok k)
      ∧ k.n = p * q ∧ k.phi = (p - 1) * (q - 1)
      ∧ Nat.gcd k.e k.phi = 1 ∧ (k.phi ≤ 17 → k.e = 17) ∧ (17 < k.phi → k.e < k.phi)
      ∧ 1 ≤ k.d ∧ (k.e : ℤ) * k.d ≡ 1 [ZMOD k.phi]
      ∧ ∀ m, m < k.n →
        ∃ c, mod_exp m k.e k.n = some c ∧ mod_exp c k.d.toNat k.n = some m := by
  obtain ⟨k, hrun, hk, hsmall, hlarge⟩ := generate_key_spec hp hq hpq hn
  exact ⟨k, hrun, hk.n_eq, hk.phi_eq, hk.coprime, hsmall, hlarge, hk.d_pos, hk.inverse,
    fun m hm => hk.round_trip hp hq hpq hn hm⟩

/-- The textbook primes of `main`. -/
theorem rsa_round_trip_main : Nat.Prime 61 ∧ Nat.Prime 53 ∧ 61 * 53 < 2 ^ 62
    ∧ ∃ k, generate_key (61 : ℕ) (53 : ℕ) = some (.ok k) ∧ k.n = 3233 ∧ k.phi = 3120
      ∧ ∃ c, mod_exp 42 k.e k.n = some c ∧ mod_exp c k.d.toNat k.n = some 42 := by
  have hp : Nat.Prime 61 := by norm_num
  have hq : Nat.Prime 53 := by norm_num
  obtain ⟨k, hrun, hn, hphi, -, -, -, -, -, hround⟩ :=
    rsa_round_trip hp hq (by decide) (by norm_num)
  exact ⟨hp, hq, by norm_num, k, hrun, hn, hphi, hround 42 (by omega)⟩

end GenerateKey

end CourseLabs.Rsa
