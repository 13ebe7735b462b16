/-
**Rounding to the nearest**, and printing with one decimal.

`divRound` gives a nearest multiple (`divRound_le_dist`), the even one of two; and the double
that `nearest` makes is a nearest one of all the numbers with `53` significant bits
(`nearest_spec`).

That is all it takes for one decimal. The number that is printed for a double is less than
half a tenth away from it, or half a tenth and then even; so the double nearest to that number
is no farther from it, and prints the same (`tenths_nearest`). It need not be the same double:
what is lost is lost the first time.
-/
import CourseLabs.CDouble

set_option autoImplicit false

namespace CourseLabs.CDouble

/-! ## Multiples -/

section Multiples

variable {n m k : ℕ}

/-- How far `n` is from `k`. -/
def gap (n k : ℕ) : ℕ :=
  ((n : ℤ) - k).natAbs

/-- The two multiples next to `n`, and which one is taken. -/
theorem divRound_cases (hm : 0 < m) :
    (∃ q r, divRound n m = q ∧ n = q * m + r ∧ 2 * r ≤ m ∧ (2 * r = m → q % 2 = 0))
      ∨ ∃ q r, divRound n m = q + 1 ∧ n + r = q * m + m ∧ 2 * r ≤ m
        ∧ (2 * r = m → (q + 1) % 2 = 0) := by
  have hdiv := Nat.div_add_mod' n m
  have hmod := Nat.mod_lt n hm
  unfold divRound
  split
  · left
    refine ⟨n / m, n % m, rfl, hdiv.symm, by omega, by omega⟩
  · right
    refine ⟨n / m, m - n % m, rfl, by omega, by omega, by omega⟩

/-- Half a multiple away at most, and then from an even one. -/
theorem divRound_half (hm : 0 < m) :
    2 * gap n (divRound n m * m) ≤ m
      ∧ (2 * gap n (divRound n m * m) = m → divRound n m % 2 = 0) := by
  unfold gap
  rcases divRound_cases (n := n) hm with ⟨q, r, hq, hn, hr, heven⟩ | ⟨q, r, hq, hn, hr, heven⟩
  · rw [hq]
    omega
  · rw [hq, Nat.add_mul, Nat.one_mul]
    omega

/-- **No multiple is nearer.** -/
theorem divRound_le_dist (hm : 0 < m) (k : ℕ) :
    gap n (divRound n m * m) ≤ gap n (k * m) := by
  obtain ⟨hhalf, -⟩ := divRound_half (n := n) hm
  unfold gap at hhalf ⊢
  rcases Nat.lt_trichotomy (divRound n m) k with hlt | heq | hgt
  · have hmul := Nat.mul_le_mul_right m (show divRound n m + 1 ≤ k from hlt)
    rw [Nat.add_mul, Nat.one_mul] at hmul
    omega
  · rw [heq]
  · have hmul := Nat.mul_le_mul_right m (show k + 1 ≤ divRound n m from hgt)
    rw [Nat.add_mul, Nat.one_mul] at hmul
    omega

/-- Only one multiple is that near. -/
theorem divRound_eq (hm : 0 < m) (h : 2 * gap n (k * m) ≤ m)
    (heven : 2 * gap n (k * m) = m → k % 2 = 0) : divRound n m = k := by
  obtain ⟨hhalf, htie⟩ := divRound_half (n := n) hm
  unfold gap at h heven hhalf htie
  -- two of them are half a multiple away on either side, and not both even
  rcases Nat.lt_trichotomy (divRound n m) k with hlt | heq | hgt
  · exfalso
    have hmul := Nat.mul_le_mul_right m (show divRound n m + 1 ≤ k from hlt)
    rw [Nat.add_mul, Nat.one_mul] at hmul
    have hnext : (divRound n m + 1) * m = k * m := by
      rw [Nat.add_mul, Nat.one_mul]
      omega
    have := Nat.eq_of_mul_eq_mul_right hm hnext
    omega
  · exact heq
  · exfalso
    have hmul := Nat.mul_le_mul_right m (show k + 1 ≤ divRound n m from hgt)
    rw [Nat.add_mul, Nat.one_mul] at hmul
    have hnext : (k + 1) * m = divRound n m * m := by
      rw [Nat.add_mul, Nat.one_mul]
      omega
    have := Nat.eq_of_mul_eq_mul_right hm hnext
    omega

/-- Rounding to the nearest, ties to the even, never reverses two values. -/
theorem divRound_mono (hm : 0 < m) (h : n ≤ k) : divRound n m ≤ divRound k m := by
  by_contra hlt
  have hn := divRound_le_dist (n := n) hm (divRound k m)
  have hk := divRound_le_dist (n := k) hm (divRound n m)
  have hmul := Nat.mul_lt_mul_of_pos_right (not_le.mp hlt) hm
  unfold gap at hn hk
  have heq : n = k := by omega
  rw [heq] at hlt
  exact hlt (Nat.le_refl _)

/-- A value between two whole numbers is rounded to one that lies between them too. This bounds the
rounding without looking at the tie. -/
theorem divRound_bounds {a b : ℕ} (hlo : a * m ≤ n) (hhi : n < b * m) :
    a ≤ divRound n m ∧ divRound n m ≤ b := by
  have hm : 0 < m := by
    rcases Nat.eq_zero_or_pos m with h0 | hpos
    · rw [h0] at hhi
      omega
    · exact hpos
  have ha := (Nat.le_div_iff_mul_le hm).mpr hlo
  have hb := (Nat.div_lt_iff_lt_mul hm).mpr hhi
  unfold divRound
  split
  · omega
  · omega

end Multiples

/-! ## Doubles -/

section Doubles

variable {negative : Bool} {n m q s : ℕ}

/-- A magnitude has `53` significant bits. -/
theorem exists_significand (d : Double) :
    ∃ f s, f < 2 ^ 53 ∧ s ≤ d.exponent.val - 1 ∧ d.magnitude = f * 2 ^ s := by
  have hf := d.fraction.isLt
  unfold Double.magnitude
  split
  · exact ⟨d.fraction.val, 0, by omega, Nat.zero_le _, by rw [Nat.pow_zero, Nat.mul_one]⟩
  · exact ⟨2 ^ 52 + d.fraction.val, d.exponent.val - 1, by omega, Nat.le_refl _, rfl⟩

/-- The fields of `q * 2 ^ s`, when they are put together as one number. -/
theorem magnitude_of_bits (hq : q ≤ 2 ^ 53) (hs : s = 0 ∨ 2 ^ 52 ≤ q)
    (hbits : s * 2 ^ 52 + q < 2047 * 2 ^ 52) :
    let d : Double := { negative, exponent := Fin.ofNat 2048 ((s * 2 ^ 52 + q) / 2 ^ 52),
                        fraction := Fin.ofNat (2 ^ 52) (s * 2 ^ 52 + q) }
    d.magnitude = q * 2 ^ s ∧ d.exponent ≠ 2047 := by
  have hexp : (Fin.ofNat 2048 ((s * 2 ^ 52 + q) / 2 ^ 52)).val = s + q / 2 ^ 52 := by
    rw [Fin.val_ofNat]
    omega
  have hfrac : (Fin.ofNat (2 ^ 52) (s * 2 ^ 52 + q)).val = q % 2 ^ 52 := by
    rw [Fin.val_ofNat]
    omega
  constructor
  · unfold Double.magnitude
    simp only [hexp, hfrac]
    by_cases hlow : q < 2 ^ 52
    · obtain rfl : s = 0 := by omega
      rw [if_pos (by omega), Nat.mod_eq_of_lt hlow, Nat.pow_zero, Nat.mul_one]
    · rw [if_neg (by omega)]
      by_cases hmax : q = 2 ^ 53
      · -- the significand has been rounded up to the next binade
        rw [hmax, show s + 2 ^ 53 / 2 ^ 52 - 1 = s + 1 by omega, Nat.pow_succ 2 s,
          show 2 ^ 52 + 2 ^ 53 % 2 ^ 52 = 2 ^ 52 by omega, Nat.mul_comm (2 ^ s) 2, ← Nat.mul_assoc,
          ← Nat.pow_succ]
      · rw [show s + q / 2 ^ 52 - 1 = s by omega, show 2 ^ 52 + q % 2 ^ 52 = q by omega]
  · intro h
    have hval := congrArg Fin.val h
    rw [hexp] at hval
    change s + q / 2 ^ 52 = 2047 at hval
    omega

/-- What does not fit the exponent is no smaller than the first power of two that does not. -/
theorem le_of_bits {e : ℕ} (hq : q ≤ 2 ^ 53) (hs : s = 0 ∨ 2 ^ 52 ≤ q) (he : 1 < e)
    (hbits : (e + 1) * 2 ^ 52 ≤ s * 2 ^ 52 + q) : 2 ^ 52 * 2 ^ e ≤ q * 2 ^ s := by
  rcases Nat.lt_or_ge s e with hlt | hge
  · obtain rfl : e = s + 1 := by omega
    obtain rfl : q = 2 ^ 53 := by omega
    rw [Nat.pow_succ 2 s, Nat.mul_comm (2 ^ s) 2, ← Nat.mul_assoc, ← Nat.pow_succ]
  · exact Nat.mul_le_mul (by omega) (Nat.pow_le_pow_right (by omega) hge)

/-- The quotient has `53` bits before the last place, or all it has when these are fewer. -/
theorem significand_bounds {N : ℕ} (hm : 0 < m) (hs : (N / m).log2 - 52 = s) :
    (s = 0 ∨ 2 ^ 52 * (m * 2 ^ s) ≤ N) ∧ N < 2 ^ 53 * (m * 2 ^ s) := by
  constructor
  -- no bit is dropped, or the quotient has more than 53 bits
  · rcases Nat.eq_zero_or_pos s with h0 | hpos
    · exact Or.inl h0
    · right
      have hlog : (N / m).log2 = 52 + s := by omega
      have hne : N / m ≠ 0 := by
        intro h0
        rw [h0, Nat.log2_zero] at hlog
        omega
      have hle := Nat.log2_self_le hne
      rw [hlog, Nat.le_div_iff_mul_le hm, Nat.pow_add] at hle
      calc 2 ^ 52 * (m * 2 ^ s) = 2 ^ 52 * 2 ^ s * m := by rw [Nat.mul_comm m, Nat.mul_assoc]
        _ ≤ N := hle
  · have hlt : N / m < 2 ^ (53 + s) := by
      apply Nat.lt_of_lt_of_le Nat.lt_log2_self
      exact Nat.pow_le_pow_right (by omega) (by omega)
    rw [Nat.div_lt_iff_lt_mul hm, Nat.pow_add] at hlt
    calc N < 2 ^ 53 * 2 ^ s * m := hlt
      _ = 2 ^ 53 * (m * 2 ^ s) := by rw [Nat.mul_comm m, Nat.mul_assoc]

/-- `nearest`, with the quotient in units of `2 ^ (-1074)`. -/
theorem nearest_eq {N : ℕ} (negative : Bool) (hN : n * 2 ^ 1074 = N)
    (hs : (N / m).log2 - 52 = s) :
    nearest negative n m
      = if 2047 * 2 ^ 52 ≤ s * 2 ^ 52 + divRound N (m * 2 ^ s) then Double.infinity negative
        else { negative
               exponent := Fin.ofNat 2048 ((s * 2 ^ 52 + divRound N (m * 2 ^ s)) / 2 ^ 52)
               fraction := Fin.ofNat (2 ^ 52) (s * 2 ^ 52 + divRound N (m * 2 ^ s)) } := by
  rw [nearest, hN, hs]

/-- **The double is a nearest one**: no number with `53` significant bits is nearer to the
quotient, and only from the magnitude of an infinity on it is one. -/
theorem nearest_spec {N : ℕ} (negative : Bool) (hm : 0 < m) (hN : n * 2 ^ 1074 = N) :
    ∃ x, (∀ f s, f < 2 ^ 53 → gap N (x * m) ≤ gap N (f * 2 ^ s * m))
      ∧ (nearest negative n m).negative = negative
      ∧ (nearest negative n m = Double.infinity negative ∧ 2 ^ 52 * 2 ^ 2046 ≤ x
        ∨ (nearest negative n m).exponent ≠ 2047 ∧ (nearest negative n m).magnitude = x) := by
  generalize hs : (N / m).log2 - 52 = s
  have hM : 0 < m * 2 ^ s := Nat.mul_pos hm (Nat.two_pow_pos s)
  obtain ⟨hlow, hhigh⟩ := significand_bounds hm hs
  have hq : divRound N (m * 2 ^ s) ≤ 2 ^ 53 :=
    (divRound_bounds (by rw [Nat.zero_mul]; exact Nat.zero_le _) hhigh).2
  have hq' : s = 0 ∨ 2 ^ 52 ≤ divRound N (m * 2 ^ s) :=
    hlow.imp_right fun h => (divRound_bounds h hhigh).1
  rw [nearest_eq negative hN hs]
  refine ⟨divRound N (m * 2 ^ s) * 2 ^ s, fun f t hf => ?_, ?_, ?_⟩
  · have hscale : ∀ k : ℕ, k * 2 ^ s * m = k * (m * 2 ^ s) := fun k => by
      rw [Nat.mul_assoc, Nat.mul_comm m]
    rw [hscale]
    rcases Nat.lt_or_ge t s with hts | hst
    · -- a smaller number than any of the binade
      have hmax : f * 2 ^ t * m ≤ 2 ^ 52 * (m * 2 ^ s) := by
        rw [← hscale]
        apply Nat.mul_le_mul_right
        calc f * 2 ^ t ≤ 2 ^ 53 * 2 ^ t := Nat.mul_le_mul_right _ hf.le
          _ = 2 ^ (53 + t) := (Nat.pow_add 2 53 t).symm
          _ ≤ 2 ^ (52 + s) := Nat.pow_le_pow_right (by omega) (by omega)
          _ = 2 ^ 52 * 2 ^ s := Nat.pow_add 2 52 s
      have hN : 2 ^ 52 * (m * 2 ^ s) ≤ N := hlow.resolve_left (by omega)
      apply (divRound_le_dist hM (2 ^ 52)).trans
      unfold gap
      omega
    · -- a multiple of the last place
      obtain ⟨j, rfl⟩ := Nat.exists_eq_add_of_le hst
      have hmul : f * 2 ^ (s + j) * m = f * 2 ^ j * (m * 2 ^ s) := by
        rw [Nat.pow_add, Nat.mul_comm (2 ^ s), ← Nat.mul_assoc, hscale]
      rw [hmul]
      exact divRound_le_dist hM _
  · split
    · rfl
    · rfl
  · split
    · next hinf => exact Or.inl ⟨rfl, le_of_bits hq hq' (by omega) hinf⟩
    · next hfin =>
      right
      obtain ⟨hmag, hexp⟩ := @magnitude_of_bits negative _ _ hq hq' (not_le.mp hfin)
      exact ⟨hexp, hmag⟩

/-- The sign is put to the magnitude last. -/
theorem magnitude_nearest (negative : Bool) (n m : ℕ) :
    (nearest negative n m).magnitude = (nearest false n m).magnitude := by
  generalize hN : n * 2 ^ 1074 = N
  rw [nearest_eq negative hN rfl, nearest_eq false hN rfl]
  split
  · rfl
  · rfl

end Doubles

/-! ## One decimal -/

/-- The number of tenths that is printed for a finite double. -/
def tenths (d : Double) : ℕ :=
  divRound (10 * d.magnitude) (2 ^ 1074)

/-- The double that is printed as one decimal, read from it. -/
def toTenths (d : Double) : Double :=
  if d.exponent.val = 2047 then
    if d.fraction.val = 0 then Double.infinity d.negative else Double.nan d.negative
  else
    nearest d.negative (tenths d) 10

section Tenths

variable {a b d : Double}

/-- The largest significand with a smaller exponent lies below the smallest with the next one,
which is what makes magnitudes comparable through exponent and fraction. -/
theorem significand_add_le {f e E : ℕ} (hf : f < 2 ^ 53) (he : e ≤ E) :
    f * 2 ^ e + 2 ^ E ≤ 2 ^ 52 * 2 ^ (E + 1) := by
  calc f * 2 ^ e + 2 ^ E ≤ f * 2 ^ E + 2 ^ E :=
        Nat.add_le_add_right (Nat.mul_le_mul_left f (Nat.pow_le_pow_right (by omega) he)) _
    _ = (f + 1) * 2 ^ E := (Nat.succ_mul f _).symm
    _ ≤ 2 ^ 53 * 2 ^ E := Nat.mul_le_mul_right _ hf
    _ = 2 ^ 52 * 2 ^ (E + 1) := by
      rw [Nat.pow_succ 2 E, Nat.mul_comm (2 ^ E) 2, ← Nat.mul_assoc, ← Nat.pow_succ]

/-- No finite double is within a last place of an infinity. -/
theorem magnitude_add_le (h : d.exponent ≠ 2047) :
    d.magnitude + 2 ^ 2045 ≤ 2 ^ 52 * 2 ^ 2046 := by
  have hlt : d.exponent.val - 1 ≤ 2045 := by
    have hexp := d.exponent.isLt
    have hne : d.exponent.val ≠ 2047 := fun heq => h (Fin.ext heq)
    omega
  obtain ⟨f, s, hf, hs, hmag⟩ := exists_significand d
  have hle := significand_add_le hf (hs.trans hlt)
  rw [show 2045 + 1 = 2046 from rfl] at hle
  rwa [hmag]

/-- Of `x`, no farther from the printed tenths than `M`, the same tenths are printed. -/
theorem tenths_of_gap_le {U V W M x t : ℕ} (hU : 0 < U) (hUV : U ≤ V) (hmax : M + V ≤ W)
    (hhalf : 2 * gap (10 * M) (t * U) ≤ U) (htie : 2 * gap (10 * M) (t * U) = U → t % 2 = 0)
    (hle : gap (t * U) (x * 10) ≤ gap (t * U) (M * 10)) : x < W ∧ divRound (10 * x) U = t := by
  have hx : gap (10 * x) (t * U) ≤ gap (10 * M) (t * U) := by
    unfold gap at hle ⊢
    omega
  refine ⟨?_, divRound_eq hU (by omega) fun heq => htie (by omega)⟩
  unfold gap at hhalf hx
  omega

/-- **What is printed is printed again.** -/
theorem tenths_nearest (negative : Bool) (h : d.exponent ≠ 2047) :
    (nearest negative (tenths d) 10).negative = negative
      ∧ (nearest negative (tenths d) 10).exponent ≠ 2047
      ∧ tenths (nearest negative (tenths d) 10) = tenths d := by
  have hU : 0 < 2 ^ 1074 := pow_pos Nat.two_pos 1074
  obtain ⟨x, hnear, hsign, hcases⟩ :=
    @nearest_spec (tenths d) 10 _ negative (by omega) rfl
  obtain ⟨f, s, hf, -, hmag⟩ := exists_significand d
  obtain ⟨hhalf, htie⟩ := divRound_half (n := 10 * d.magnitude) hU
  have hle := hnear f s hf
  rw [← hmag] at hle
  obtain ⟨hlt, hx⟩ := tenths_of_gap_le hU (pow_le_pow_right₀ (by omega) (by omega))
    (magnitude_add_le h) hhalf htie hle
  -- the value is far below the largest double, so the nearest number is finite
  rcases hcases with ⟨-, hlarge⟩ | ⟨hexp, hxmag⟩
  · exact absurd hlt (Nat.not_lt.mpr hlarge)
  · refine ⟨hsign, hexp, ?_⟩
    rw [tenths, hxmag, hx]
    rfl

/-- The exponent field of an infinity or a NaN, as a number. -/
theorem val_eq (h : d.exponent = 2047) : d.exponent.val = 2047 := by
  rw [h]
  rfl

/-- Reading back a printed finite value: the nearest `double` to so many tenths. -/
theorem toTenths_finite (h : d.exponent ≠ 2047) :
    toTenths d = nearest d.negative (tenths d) 10 :=
  if_neg fun hval => h (Fin.ext hval)

/-- A NaN comes back as a NaN, with its sign and without its payload. -/
theorem toTenths_nan (h : d.exponent = 2047) (hf : d.fraction ≠ 0) :
    toTenths d = Double.nan d.negative := by
  rw [toTenths, if_pos (val_eq h), if_neg]
  exact fun hval => hf (Fin.ext hval)

/-- With the largest exponent and no fraction there is only the infinity of each sign. -/
theorem eq_infinity (h : d.exponent = 2047) (hf : d.fraction = 0) :
    d = Double.infinity d.negative :=
  Double.ext rfl h hf

/-- An infinity comes back as itself. -/
theorem toTenths_infinity (h : d.exponent = 2047) (hf : d.fraction = 0) : toTenths d = d := by
  rw [toTenths, if_pos (val_eq h), if_pos (by rw [hf]; rfl)]
  exact (eq_infinity h hf).symm

/-- A number with its sign. -/
def signed (negative : Bool) (digits : List Char) : List Char :=
  if negative then '-' :: digits else digits

/-- A finite value prints as its whole tenths, a point and the last digit. -/
theorem printTenths_finite (h : d.exponent ≠ 2047) :
    printTenths d = signed d.negative
      (Nat.toDigits 10 (tenths d / 10) ++ '.' :: Nat.toDigits 10 (tenths d % 10)) := by
  simp only [printTenths, if_neg h]
  rfl

/-- `%.1f` prints an infinity as `inf`, with the sign in front. -/
theorem printTenths_infinity (h : d.exponent = 2047) (hf : d.fraction = 0) :
    printTenths d = signed d.negative ['i', 'n', 'f'] := by
  simp only [printTenths, if_pos h, if_pos hf]
  rfl

/-- `%.1f` prints a NaN as `nan`, with the sign in front. -/
theorem printTenths_nan (h : d.exponent = 2047) (hf : d.fraction ≠ 0) :
    printTenths d = signed d.negative ['n', 'a', 'n'] := by
  simp only [printTenths, if_pos h, if_neg hf]
  rfl

/-- Printing what was read back from a printed value prints the same text again. The three cases
are those of `printTenths`. -/
theorem printTenths_toTenths (d : Double) : printTenths (toTenths d) = printTenths d := by
  by_cases h : d.exponent = 2047
  · by_cases hf : d.fraction = 0
    · rw [toTenths_infinity h hf]
    · have hnan : ∀ negative, (Double.nan negative).fraction ≠ 0 := fun _ => by
        change Fin.ofNat (2 ^ 52) (2 ^ 51) ≠ 0
        decide
      rw [toTenths_nan h hf, printTenths_nan rfl (hnan _), printTenths_nan h hf]
      rfl
  · obtain ⟨hsign, hexp, htenths⟩ := tenths_nearest d.negative h
    rw [toTenths_finite h, printTenths_finite hexp, printTenths_finite h, hsign, htenths]

/-! ### The order -/

/-- Rounding to tenths keeps the order of magnitudes. -/
theorem tenths_mono (h : a.magnitude ≤ b.magnitude) : tenths a ≤ tenths b :=
  divRound_mono (pow_pos Nat.two_pos 1074) (Nat.mul_le_mul_left 10 h)

/-- Nothing finite lies above an infinity. -/
theorem exponent_eq_of_magnitude_le (h : a.magnitude ≤ b.magnitude) (ha : a.exponent = 2047) :
    b.exponent = 2047 := by
  by_contra hb
  have hlt : b.exponent.val < a.exponent.val := by
    rw [ha]
    have hexp := b.exponent.isLt
    have hne : b.exponent.val ≠ 2047 := fun heq => hb (Fin.ext heq)
    change b.exponent.val < 2047
    omega
  exact absurd (magnitude_lt_of_exponent_lt hlt) (Nat.not_lt.mpr h)

/-- A nearest number of a larger one is not smaller. -/
theorem magnitude_nearest_mono {t u : ℕ} {p q : Bool} (h : t ≤ u)
    (ht : (nearest p t 10).exponent ≠ 2047) (hu : (nearest q u 10).exponent ≠ 2047) :
    (nearest p t 10).magnitude ≤ (nearest q u 10).magnitude := by
  -- equal quotients give one magnitude; the sign plays no part in it
  rcases Nat.eq_or_lt_of_le h with rfl | hlt
  · rw [magnitude_nearest p, magnitude_nearest q]
  · have hmul := Nat.mul_lt_mul_of_pos_right hlt (pow_pos Nat.two_pos 1074)
    generalize hT : t * 2 ^ 1074 = T at hmul
    generalize hU : u * 2 ^ 1074 = U at hmul
    obtain ⟨x, hx, -, hcases⟩ := @nearest_spec t 10 _ p (by omega) hT
    obtain ⟨y, hy, -, hcases'⟩ := @nearest_spec u 10 _ q (by omega) hU
    have hinf : ∀ negative, (Double.infinity negative).exponent = 2047 := fun _ => rfl
    have hxmag := (hcases.resolve_left fun h => ht (by rw [h.1, hinf])).2
    have hymag := (hcases'.resolve_left fun h => hu (by rw [h.1, hinf])).2
    obtain ⟨f, s, hf, -, hfs⟩ := exists_significand (nearest p t 10)
    obtain ⟨g, r, hg, -, hgr⟩ := exists_significand (nearest q u 10)
    have hxy := hx g r hg
    have hyx := hy f s hf
    rw [← hgr, hymag] at hxy
    rw [← hfs, hxmag] at hyx
    rw [hxmag, hymag]
    unfold gap at hxy hyx
    omega

/-- Printing and reading back keeps the order of magnitudes, the infinities included. -/
theorem magnitude_toTenths_mono (ha : a.Comparable) (hb : b.Comparable)
    (h : a.magnitude ≤ b.magnitude) : (toTenths a).magnitude ≤ (toTenths b).magnitude := by
  by_cases hb' : b.exponent = 2047
  · rw [toTenths_infinity hb' (hb hb')]
    by_cases ha' : a.exponent = 2047
    · rwa [toTenths_infinity ha' (ha ha')]
    · -- what is read from a finite number is finite
      obtain ⟨-, hexp, -⟩ := tenths_nearest a.negative ha'
      rw [toTenths_finite ha']
      apply (magnitude_lt_of_exponent_lt _).le
      have hlt := (nearest a.negative (tenths a) 10).exponent.isLt
      have hne : (nearest a.negative (tenths a) 10).exponent.val ≠ 2047 :=
        fun heq => hexp (Fin.ext heq)
      rw [hb']
      change _ < 2047
      omega
  · have ha' : a.exponent ≠ 2047 := fun heq => hb' (exponent_eq_of_magnitude_le h heq)
    rw [toTenths_finite ha', toTenths_finite hb']
    exact magnitude_nearest_mono (tenths_mono h) (tenths_nearest a.negative ha').2.1
      (tenths_nearest b.negative hb').2.1

/-- Printing and reading back keeps the sign, of a zero too. -/
theorem negative_toTenths (d : Double) : (toTenths d).negative = d.negative := by
  by_cases h : d.exponent = 2047
  · by_cases hf : d.fraction = 0
    · rw [toTenths_infinity h hf]
    · rw [toTenths_nan h hf]
      rfl
  · rw [toTenths_finite h]
    exact (tenths_nearest d.negative h).1

/-- A value that can be compared still can when it has been read back: only a NaN becomes a NaN. -/
theorem comparable_toTenths (h : d.Comparable) : (toTenths d).Comparable := by
  by_cases hexp : d.exponent = 2047
  · rwa [toTenths_infinity hexp (h hexp)]
  · rw [toTenths_finite hexp]
    exact fun heq => absurd heq (tenths_nearest d.negative hexp).2.1

/-- Zero is a fixed point of printing and reading back. -/
theorem toTenths_zero : toTenths Double.zero = Double.zero := by
  have hexp : Double.zero.exponent ≠ 2047 := by decide
  have htenths : tenths Double.zero = 0 := divRound_zero (pow_pos Nat.two_pos 1074)
  rw [toTenths_finite hexp, htenths, nearest_eq _ (Nat.zero_mul _) rfl]
  rfl

/-- **Reading back keeps the order.** -/
theorem le_toTenths (h : le a b = true) : le (toTenths a) (toTenths b) = true := by
  have hcomp : a.Comparable ∧ b.Comparable := by
    unfold le at h
    rw [decide_eq_true_iff] at h
    exact ⟨h.1, h.2.1⟩
  obtain ⟨ha, hb⟩ := hcomp
  have hab := magnitude_toTenths_mono ha hb
  have hba := magnitude_toTenths_mono hb ha
  have haz := magnitude_toTenths_mono ha (show Double.zero.Comparable by decide)
  have hbz := magnitude_toTenths_mono hb (show Double.zero.Comparable by decide)
  rw [le_iff ha hb] at h
  rw [le_iff (comparable_toTenths ha) (comparable_toTenths hb)]
  unfold Double.value at h ⊢
  rw [negative_toTenths, negative_toTenths]
  rw [toTenths_zero] at haz hbz
  cases ha' : a.negative with
  | true =>
      cases hb' : b.negative with
      | true =>
          simp only [ha', hb', if_true] at h ⊢
          have := hba (by omega)
          omega
      | false =>
          simp only [if_true, Bool.false_eq_true, if_false]
          omega
  | false =>
      cases hb' : b.negative with
      | true =>
          -- both are zeros
          simp only [ha', hb', if_true, Bool.false_eq_true, if_false] at h ⊢
          have ha0 := haz (show a.magnitude ≤ Double.zero.magnitude by omega)
          have hb0 := hbz (show b.magnitude ≤ Double.zero.magnitude by omega)
          rw [show Double.zero.magnitude = 0 from rfl] at ha0 hb0
          omega
      | false =>
          simp only [ha', hb', Bool.false_eq_true, if_false] at h ⊢
          have := hab (by omega)
          omega

end Tenths

end CourseLabs.CDouble
