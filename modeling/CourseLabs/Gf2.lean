/-
**Long division of bit strings** by exclusive or, and the polynomials over the field of
two elements it is about. The leading coefficient of a string comes first.

`xorOnto w t` adds `t` to the front of `w`, and `longDiv t n w` makes `n` division steps:
each takes the leading bit away and, where it is set, adds the rest `t` of the divisor
to what follows. The leading bit of the divisor plays no part in this, so the division is
defined for every divisor, and three facts describe it:

* `longDiv_xor`: on a word that differs from another only after the first `n` bits, it
  makes the same steps. This holds for every divisor.
* `dvd_longDiv_sub`: by a divisor that starts with `1`, a step changes the polynomial by
  a multiple of the divisor.
* `longDiv_eq_modByMonic`: so what is left, being shorter, is the remainder.

A word whose set bits lie closer together than the divisor is long is a short word followed
by zeros, and a divisor that also ends with `1` divides no such word (`not_dvd_burst`).
-/
import Mathlib.Algebra.Field.ZMod
import Mathlib.Algebra.Polynomial.Div
import Mathlib.RingTheory.Coprime.Lemmas

set_option autoImplicit false

namespace CourseLabs.Gf2

open Polynomial

/-! ## Division on strings -/

/-- `t` added to the front of `w`, bit by bit; a word that is longer keeps its rest. -/
def xorOnto : List Bool → List Bool → List Bool
  | b :: w, c :: t => (b ^^ c) :: xorOnto w t
  | w, _ => w

/-- `n` steps of the division by `true :: t`. -/
def longDiv (t : List Bool) : ℕ → List Bool → List Bool
  | n + 1, b :: w => longDiv t n (if b then xorOnto w t else w)
  | _, w => w

section Strings

variable {t v w : List Bool} {n : ℕ}

/-- A divisor that is used up changes nothing. -/
@[simp] theorem xorOnto_nil (w : List Bool) : xorOnto w [] = w := by
  cases w with
  | nil => rfl
  | cons b w => rfl

/-- The length is that of the word. -/
@[simp] theorem length_xorOnto (w t : List Bool) : (xorOnto w t).length = w.length := by
  induction w generalizing t with
  | nil => rfl
  | cons b w ih =>
      cases t with
      | nil => rfl
      | cons c t => rw [xorOnto, List.length_cons, List.length_cons, ih]

/-- A word and itself cancel. -/
theorem xorOnto_self (w : List Bool) : xorOnto w w = List.replicate w.length false := by
  induction w with
  | nil => rfl
  | cons b w ih => rw [xorOnto, ih, Bool.xor_self, List.length_cons, List.replicate_succ]

/-- Added onto zeros, a word is itself. -/
theorem xorOnto_zeros (u : List Bool) : xorOnto (List.replicate u.length false) u = u := by
  induction u with
  | nil => rfl
  | cons b u ih => rw [List.length_cons, List.replicate_succ, xorOnto, ih, Bool.false_xor]

/-- Bits added to zeros at the end of a word take their place. -/
theorem xorOnto_append_zeros (v : List Bool) {u : List Bool} (h : u.length = n) :
    xorOnto (v ++ List.replicate n false) (List.replicate v.length false ++ u) = v ++ u := by
  induction v with
  | nil =>
      subst h
      exact xorOnto_zeros u
  | cons b v ih =>
      rw [List.length_cons, List.replicate_succ, List.cons_append, List.cons_append,
        xorOnto, ih, Bool.xor_false]
      rfl

/-- Additions commute, so the steps of a division of a sum are those of its parts. -/
theorem xorOnto_right_comm (w v t : List Bool) :
    xorOnto (xorOnto w v) t = xorOnto (xorOnto w t) v := by
  induction w generalizing v t with
  | nil => rfl
  | cons b w ih =>
      cases v with
      | nil => simp
      | cons c v =>
          cases t with
          | nil => simp
          | cons d t => rw [xorOnto, xorOnto, xorOnto, xorOnto, ih, Bool.xor_right_comm]

/-- Each step of the division takes one bit off the front. -/
theorem length_longDiv (h : n ≤ w.length) : (longDiv t n w).length = w.length - n := by
  induction n generalizing w with
  | zero => rw [longDiv, Nat.sub_zero]; rintro _ _ _ h; cases h
  | succ n ih =>
      cases w with
      | nil => simp at h
      | cons b w =>
          rw [List.length_cons] at h ⊢
          have hlen : (if b then xorOnto w t else w).length = w.length := by
            split
            · exact length_xorOnto w t
            · rfl
          rw [longDiv, ih (by omega), hlen]
          omega

/-- The steps look at the first `n` bits only: a difference after them stays as it is. -/
theorem longDiv_xor (t : List Bool) {u : List Bool} (h : n ≤ w.length) :
    longDiv t n (xorOnto w (List.replicate n false ++ u)) = xorOnto (longDiv t n w) u := by
  induction n generalizing w with
  | zero => simp [longDiv]
  | succ n ih =>
      cases w with
      | nil => simp at h
      -- the leading bits are equal, so both divisions take the same branch
      | cons b w =>
          rw [List.length_cons] at h
          rw [List.replicate_succ, List.cons_append, xorOnto, longDiv, longDiv, Bool.xor_false]
          have hlen : (xorOnto w t).length = w.length := length_xorOnto w t
          split
          · rw [xorOnto_right_comm, ih (by omega)]
          · rw [ih (by omega)]

end Strings

/-! ## Polynomials -/

/-- The polynomial of a bit string. -/
noncomputable def poly : List Bool → (ZMod 2)[X]
  | [] => 0
  | b :: w => (if b then X ^ w.length else 0) + poly w

section Polynomials

variable {t w : List Bool} {n : ℕ}

/-- A set bit in front is the power for the length behind it. -/
theorem poly_cons_true (w : List Bool) : poly (true :: w) = X ^ w.length + poly w := by
  rw [poly, if_pos rfl]

/-- A zero in front adds nothing. -/
theorem poly_cons_false (w : List Bool) : poly (false :: w) = poly w := by
  rw [poly, if_neg (by simp), zero_add]

/-- Two words behind each other: the first is shifted by the length of the second. -/
theorem poly_append (v w : List Bool) : poly (v ++ w) = poly v * X ^ w.length + poly w := by
  induction v with
  | nil => rw [List.nil_append, poly, zero_mul, zero_add]
  | cons b v ih =>
      rw [List.cons_append, poly, poly, ih, List.length_append]
      split
      · ring
      · ring

/-- Zeros are the zero polynomial. -/
theorem poly_replicate_false (n : ℕ) : poly (List.replicate n false) = 0 := by
  induction n with
  | zero => rfl
  | succ n ih => rw [List.replicate_succ, poly_cons_false, ih]

/-- A word has fewer degrees than bits: the bits are the coefficients, from the highest down. -/
theorem degree_poly_lt (w : List Bool) : (poly w).degree < w.length := by
  induction w with
  | nil =>
      rw [poly, degree_zero]
      exact WithBot.bot_lt_coe 0
  | cons b w ih =>
      have hlt : (w.length : WithBot ℕ) < (w.length + 1 : ℕ) := by
        exact_mod_cast Nat.lt_succ_self w.length
      rw [poly, List.length_cons]
      apply lt_of_le_of_lt (degree_add_le _ _)
      apply max_lt _ (lt_trans ih hlt)
      split
      · rw [degree_X_pow]
        exact hlt
      · rw [degree_zero]
        exact WithBot.bot_lt_coe _

/-- A string that starts with `1` is monic, of the degree its length says. -/
theorem monic_poly_cons_true (t : List Bool) : (poly (true :: t)).Monic := by
  rw [poly_cons_true]
  exact monic_X_pow_add (degree_poly_lt t)

/-- A leading one is the degree: a generator that starts with a one is monic. -/
theorem degree_poly_cons_true (t : List Bool) : (poly (true :: t)).degree = t.length := by
  rw [poly_cons_true, degree_add_eq_left_of_degree_lt, degree_X_pow]
  rw [degree_X_pow]
  exact degree_poly_lt t

/-- Only the string of zeros is the zero polynomial. -/
theorem poly_eq_zero_iff (w : List Bool) : poly w = 0 ↔ w = List.replicate w.length false := by
  constructor
  · intro h
    induction w with
    | nil => rfl
    | cons b w ih =>
        cases b with
        | true => exact absurd h (monic_poly_cons_true w).ne_zero
        | false =>
            rw [poly_cons_false] at h
            rw [List.length_cons, List.replicate_succ, ← ih h]
  · intro h
    rw [h]
    exact poly_replicate_false _

/-- Exclusive or is addition, of a word shifted to the front of the other. -/
theorem poly_xorOnto (h : t.length ≤ w.length) :
    poly (xorOnto w t) = poly w + poly t * X ^ (w.length - t.length) := by
  induction w generalizing t with
  | nil =>
      obtain rfl := List.length_eq_zero_iff.mp (Nat.le_zero.mp h)
      simp [poly]
  | cons b w ih =>
      cases t with
      | nil => simp [poly]
      | cons c t =>
          rw [List.length_cons, List.length_cons] at h
          have hshift : (if c then (X : (ZMod 2)[X]) ^ t.length else 0) * X ^ (w.length - t.length)
              = if c then X ^ w.length else 0 := by
            rw [ite_mul, zero_mul, ← pow_add, Nat.add_sub_cancel' (by omega)]
          have hxor : (if b ^^ c then (X : (ZMod 2)[X]) ^ w.length else 0)
              = (if b then X ^ w.length else 0) + (if c then X ^ w.length else 0) := by
            cases b with
            | false => simp
            | true =>
                cases c with
                | false => simp
                | true => simp [CharTwo.add_self_eq_zero]
          rw [xorOnto, poly, poly, poly, ih (by omega), length_xorOnto, List.length_cons,
            List.length_cons, Nat.add_sub_add_right, hxor, add_mul, hshift]
          ring

/-- The division changes the polynomial by multiples of the divisor. -/
theorem dvd_longDiv_sub (hn : n + t.length ≤ w.length) :
    poly (true :: t) ∣ poly w - poly (longDiv t n w) := by
  induction n generalizing w with
  | zero =>
      rw [show longDiv t 0 w = w by cases w <;> rfl, sub_self]
      exact dvd_zero _
  | succ n ih =>
      cases w with
      | nil => simp at hn
      | cons b w =>
          rw [List.length_cons] at hn
          cases b with
          | false =>
              rw [longDiv, if_neg (by simp), poly_cons_false]
              exact ih (by omega)
          | true =>
              rw [longDiv, if_pos rfl]
              have hrest := ih (w := xorOnto w t) (by rw [length_xorOnto]; omega)
              -- the leading bit and the sum added together are one multiple of the divisor
              have hstep : poly (true :: w) - poly (xorOnto w t)
                  = poly (true :: t) * X ^ (w.length - t.length)
                    - (poly t * X ^ (w.length - t.length)
                      + poly t * X ^ (w.length - t.length)) := by
                rw [poly_cons_true, poly_cons_true, poly_xorOnto (by omega), add_mul, ← pow_add,
                  Nat.add_sub_cancel' (by omega)]
                ring
              rw [CharTwo.add_self_eq_zero, sub_zero] at hstep
              have := dvd_add (Dvd.intro _ hstep.symm) hrest
              rwa [sub_add_sub_cancel] at this

/-- **Long division computes the remainder** of the polynomials over the field of two elements, as
long as there are bits to divide. -/
theorem longDiv_eq_modByMonic (hn : w.length = n + t.length) :
    poly (longDiv t n w) = poly w %ₘ poly (true :: t) := by
  obtain ⟨q, hq⟩ := dvd_longDiv_sub (t := t) hn.ge
  -- what is left is shorter than the divisor
  have hdeg : (poly (longDiv t n w)).degree < (poly (true :: t)).degree := by
    have h := degree_poly_lt (longDiv t n w)
    rw [length_longDiv (by omega), show w.length - n = t.length by omega] at h
    rwa [degree_poly_cons_true]
  exact (div_modByMonic_unique q _ (monic_poly_cons_true t)
    ⟨by rw [← hq]; ring, hdeg⟩).2.symm

/-- The remainder is a string of zeros exactly when the divisor divides. -/
theorem longDiv_eq_zeros_iff (hn : w.length = n + t.length) :
    longDiv t n w = List.replicate t.length false ↔ poly (true :: t) ∣ poly w := by
  rw [← modByMonic_eq_zero_iff_dvd (monic_poly_cons_true t), ← longDiv_eq_modByMonic hn,
    poly_eq_zero_iff, length_longDiv (by omega), show w.length - n = t.length by omega]

end Polynomials

/-! ## Bursts -/

section Bursts

variable {t e : List Bool}

/-- A word with set bits, cut before the first of them and behind the last. -/
theorem exists_burst {d : ℕ} (hne : ∃ i : ℕ, e[i]? = some true)
    (hd : ∀ i j : ℕ, e[i]? = some true → e[j]? = some true → j ≤ i + d) :
    ∃ a u k, e = List.replicate a false ++ (true :: u ++ List.replicate k false)
      ∧ u.length ≤ d := by
  induction e with
  | nil =>
      obtain ⟨i, hi⟩ := hne
      cases hi
  | cons b e ih =>
      cases b with
      | false =>
          have hne' : ∃ i : ℕ, e[i]? = some true := by
            obtain ⟨i, hi⟩ := hne
            cases i with
            | zero => cases hi
            | succ i => exact ⟨i, hi⟩
          have hd' : ∀ i j : ℕ, e[i]? = some true → e[j]? = some true → j ≤ i + d := by
            intro i j hi hj
            have := hd (i + 1) (j + 1) hi hj
            omega
          obtain ⟨a, u, k, rfl, hu⟩ := ih hne' hd'
          exact ⟨a + 1, u, k, rfl, hu⟩
      | true =>
          -- the first set bit: what is more than `d` behind it is zeros
          have hzeros : e.drop d = List.replicate (e.drop d).length false := by
            rw [List.eq_replicate_iff]
            refine ⟨rfl, fun x hx => ?_⟩
            obtain ⟨i, hi⟩ := List.mem_iff_getElem?.mp hx
            rw [List.getElem?_drop] at hi
            cases x with
            | false => rfl
            | true =>
                have := hd 0 (d + i + 1) rfl hi
                omega
          refine ⟨0, e.take d, (e.drop d).length, ?_, List.length_take_le d e⟩
          rw [← hzeros, List.cons_append, List.take_append_drop]
          rfl

/-- A divisor that ends with `1` has no factor in common with a power of `X`. -/
theorem isCoprime_X_pow {g : List Bool} (hlast : g.getLast? = some true) (k : ℕ) :
    IsCoprime (poly g) (X ^ k) := by
  obtain ⟨v, rfl⟩ := List.getLast?_eq_some_iff.mp hlast
  have hpoly : poly (v ++ [true]) = poly v * X + 1 := by
    rw [poly_append, poly_cons_true, List.length_nil, pow_zero, List.length_singleton, pow_one]
    exact congrArg _ (add_zero 1)
  apply IsCoprime.pow_right
  exact ⟨1, -poly v, by rw [hpoly]; ring⟩

/-- **A burst is no multiple** of a divisor that is longer than it and ends with `1`. -/
theorem not_dvd_burst (hlast : (true :: t).getLast? = some true)
    (hne : ∃ i : ℕ, e[i]? = some true)
    (hd : ∀ i j : ℕ, e[i]? = some true → e[j]? = some true → j < i + t.length) :
    ¬ poly (true :: t) ∣ poly e := by
  have hpos : 0 < t.length := by
    obtain ⟨i, hi⟩ := hne
    have := hd i i hi hi
    omega
  obtain ⟨a, u, k, rfl, hu⟩ := exists_burst (d := t.length - 1) hne (fun i j hi hj => by
    have := hd i j hi hj
    omega)
  intro hdvd
  rw [poly_append, poly_replicate_false, zero_mul, zero_add, poly_append, poly_replicate_false,
    add_zero, List.length_replicate] at hdvd
  -- the zeros behind the burst do not help, and the burst itself is of smaller degree
  have hburst := (isCoprime_X_pow hlast k).dvd_of_dvd_mul_right hdvd
  have hdeg : (poly (true :: u)).degree < (poly (true :: t)).degree := by
    rw [degree_poly_cons_true, degree_poly_cons_true]
    exact_mod_cast show u.length < t.length by omega
  exact (monic_poly_cons_true u).ne_zero (eq_zero_of_dvd_of_degree_lt hburst hdeg)

end Bursts

/-! ## Check bits -/

/-- The check bits of a word `d`: what the division of the word, with a zero for each of
them, leaves. -/
def checkBits (t d : List Bool) : List Bool :=
  longDiv t d.length (d ++ List.replicate t.length false)

section CheckBits

variable (t d : List Bool)

/-- The checksum has one bit less than the generator. -/
@[simp] theorem length_checkBits : (checkBits t d).length = t.length := by
  rw [checkBits, length_longDiv (by simp)]
  simp

/-- A word followed by its check bits leaves zeros, by any divisor. -/
theorem longDiv_append_checkBits :
    longDiv t d.length (d ++ checkBits t d) = List.replicate t.length false := by
  have hsum := xorOnto_append_zeros d (length_checkBits t d)
  -- the check bits are added to the zeros, which the division does not see
  rw [← hsum, longDiv_xor t (by simp), ← checkBits, xorOnto_self, length_checkBits]

/-- By a divisor that starts with `1`, the check bits are the remainder. -/
theorem poly_checkBits : poly (checkBits t d) = poly d * X ^ t.length %ₘ poly (true :: t) := by
  rw [checkBits, longDiv_eq_modByMonic (by simp), poly_append, poly_replicate_false, add_zero,
    List.length_replicate]

end CheckBits

end CourseLabs.Gf2
