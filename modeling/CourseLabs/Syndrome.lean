/-
The **arithmetic of a single-error-correcting code**, over words `b : ℕ → Bool` read at
the positions `1 … n`.

The syndrome of a word is the exclusive or of its set positions. Its bit `i` is the
parity of the word over the positions that have bit `i` (`testBit_syndrome`), so a
decoder that computes parities computes the syndrome; and to flip one position changes
the syndrome by that position (`syndrome_flip`), so from syndrome `0` it is the position.
To flip a set of positions changes it by the exclusive or of the set (`syndrome_flips`).

The positions that are powers of two are kept for the parities. `message` reads the
others in order and `place` puts a message there. The two are inverse when the message
has as many bits as there are positions, and that number is `n` less the number of
powers of two up to `n` (`nonPowers_add`). A word is known by its message and its syndrome
(`eq_of_message_of_syndrome`).
-/
import Mathlib.Data.Finset.Fold
import Mathlib.Data.Nat.Bitwise
import Mathlib.Order.Interval.Finset.Nat
import Mathlib.Tactic.Linarith

set_option autoImplicit false

namespace CourseLabs.Syndrome

/-! ## The syndrome -/

section Parity

/-- The exclusive or of the set positions in `1 … n`. -/
def syndrome (b : ℕ → Bool) : ℕ → ℕ
  | 0 => 0
  | n + 1 => if b (n + 1) then syndrome b n ^^^ (n + 1) else syndrome b n

/-- The number of set positions in `1 … n` that have bit `i`. -/
def ones (b : ℕ → Bool) (i : ℕ) : ℕ → ℕ
  | 0 => 0
  | n + 1 => ones b i n + if b (n + 1) ∧ (n + 1).testBit i then 1 else 0

/-- The word with position `p` inverted: an error at `p`, or its correction. -/
def flip (b : ℕ → Bool) (p : ℕ) : ℕ → Bool :=
  fun j => if j = p then !b j else b j

variable {b c : ℕ → Bool} {n : ℕ}

/-- The inverted position. -/
@[simp] theorem flip_same (p : ℕ) : flip b p p = !b p := by
  simp [flip]

/-- The other positions keep their bits. -/
theorem flip_other {p j : ℕ} (h : j ≠ p) : flip b p j = b j :=
  if_neg h

/-- At most every position is counted. -/
theorem ones_le (i : ℕ) : ones b i n ≤ n := by
  induction n with
  | zero => rfl
  | succ n ih =>
      rw [ones]
      split <;> omega

/-- A bit of the syndrome is a parity, that of the positions which have this bit in their number.
-/
theorem testBit_syndrome (i : ℕ) : (syndrome b n).testBit i = decide (ones b i n % 2 = 1) := by
  induction n with
  | zero => simp [syndrome, ones]
  | succ n ih =>
      rw [syndrome, ones]
      by_cases hb : b (n + 1)
      -- a set position counts for bit `i` when it has that bit
      · rw [if_pos hb, Nat.testBit_xor, ih]
        by_cases hi : (n + 1).testBit i
        · rw [if_pos ⟨hb, hi⟩, hi]
          rcases Nat.mod_two_eq_zero_or_one (ones b i n) with h | h
          · simp [h, Nat.add_mod]
          · simp [h, Nat.add_mod]
        · rw [if_neg (fun h => hi h.2)]
          simp [hi]
      · rw [if_neg hb, if_neg (fun h => hb h.1), ih, add_zero]

/-- The syndrome of a word has no more bits than its positions do. -/
theorem syndrome_lt {r : ℕ} (h : n < 2 ^ r) : syndrome b n < 2 ^ r := by
  induction n with
  | zero => exact h
  | succ n ih =>
      rw [syndrome]
      split
      · exact Nat.xor_lt_two_pow (ih (by omega)) h
      · exact ih (by omega)

/-- The syndrome depends on the positions up to `n` only. -/
theorem syndrome_congr (h : ∀ j, 1 ≤ j → j ≤ n → b j = c j) : syndrome b n = syndrome c n := by
  induction n with
  | zero => rfl
  | succ n ih =>
      rw [syndrome, syndrome, h (n + 1) (by omega) (le_refl _),
        ih (fun j h1 h2 => h j h1 (by omega))]

/-- **One flipped position shows in the syndrome**, and so in a codeword the syndrome is the
position. -/
theorem syndrome_flip {p : ℕ} (hp : 1 ≤ p) (hpn : p ≤ n) :
    syndrome (flip b p) n = syndrome b n ^^^ p := by
  induction n with
  | zero => omega
  | succ n ih =>
      rw [syndrome, syndrome]
      rcases Nat.lt_or_ge n p with hlt | hge
      -- the flipped position is the last one; the others are as they were
      · obtain rfl : p = n + 1 := by omega
        have hbelow : syndrome (flip b (n + 1)) n = syndrome b n :=
          syndrome_congr (fun j _ hj => flip_other (by omega))
        rw [flip_same, hbelow]
        by_cases hb : b (n + 1)
        · simp [hb]
        · simp [hb]
      · rw [flip_other (by omega), ih hge]
        split
        · rw [Nat.xor_assoc, Nat.xor_comm p, ← Nat.xor_assoc]
        · rfl

/-- The exclusive or of a set of positions: what the syndrome changes by when all of them are
inverted. -/
def xorOf (E : Finset ℕ) : ℕ :=
  E.fold (fun p q => p ^^^ q) 0 id

/-- The word with a set of positions inverted: several errors at once, in no order. -/
def flips (b : ℕ → Bool) (E : Finset ℕ) : ℕ → Bool :=
  fun j => if j ∈ E then !b j else b j

/-- A new position comes into the exclusive or. -/
theorem xorOf_insert {E : Finset ℕ} {p : ℕ} (h : p ∉ E) :
    xorOf (insert p E) = p ^^^ xorOf E :=
  Finset.fold_insert h

/-- Inverting one position more. -/
theorem flips_insert {E : Finset ℕ} {p : ℕ} (h : p ∉ E) :
    flips b (insert p E) = flip (flips b E) p := by
  funext j
  rcases eq_or_ne j p with rfl | hne
  · rw [flip_same, flips, flips, if_pos (Finset.mem_insert_self j E), if_neg h]
  · rw [flip_other hne, flips, flips]
    simp only [Finset.mem_insert, hne, false_or]

/-- **Flipped positions show in the syndrome** as their exclusive or. -/
theorem syndrome_flips {E : Finset ℕ} (hE : E ⊆ Finset.Icc 1 n) :
    syndrome (flips b E) n = syndrome b n ^^^ xorOf E := by
  induction E using Finset.induction_on with
  | empty =>
      have hnone : flips b ∅ = b := by
        funext j
        exact if_neg (Finset.notMem_empty j)
      rw [hnone]
      exact (Nat.xor_zero _).symm
  | insert p E hp ih =>
      rw [Finset.insert_subset_iff, Finset.mem_Icc] at hE
      obtain ⟨⟨hp1, hpn⟩, hE⟩ := hE
      rw [flips_insert hp, syndrome_flip hp1 hpn, ih hE, xorOf_insert hp, Nat.xor_assoc,
        Nat.xor_comm p]

/-- A word without set bits has the syndrome `0`. -/
theorem syndrome_zeros (n : ℕ) : syndrome (fun _ => false) n = 0 := by
  induction n with
  | zero => rfl
  | succ n ih =>
      rw [syndrome, if_neg (by decide)]
      exact ih

/-- The syndrome is the exclusive or of the set positions, over a set and not over a recursion. -/
theorem syndrome_eq_xorOf (b : ℕ → Bool) (n : ℕ) :
    syndrome b n = xorOf ((Finset.Icc 1 n).filter fun j => b j) := by
  have hsub := Finset.filter_subset (fun j => b j = true) (Finset.Icc 1 n)
  -- the word is the zero word with its set positions flipped
  have hword : ∀ j, 1 ≤ j → j ≤ n →
      flips (fun _ => false) ((Finset.Icc 1 n).filter fun j => b j) j = b j := by
    intro j h1 h2
    have hmem : j ∈ (Finset.Icc 1 n).filter (fun j => b j) ↔ b j = true := by
      rw [Finset.mem_filter, Finset.mem_Icc]
      exact and_iff_right ⟨h1, h2⟩
    rw [flips]
    simp only [hmem]
    cases b j with
    | false => rfl
    | true => rfl
  rw [← syndrome_congr hword, syndrome_flips hsub, syndrome_zeros, Nat.zero_xor]

/-- Two different positions have a non-zero exclusive or: this is why a double error is never taken
for a word of the code. -/
theorem xorOf_ne_zero {E : Finset ℕ} (h : E.card = 2) : xorOf E ≠ 0 := by
  obtain ⟨p, q, hne, rfl⟩ := Finset.card_eq_two.mp h
  have hpair : xorOf {p, q} = p ^^^ q := by
    rw [xorOf_insert (by rwa [Finset.mem_singleton])]
    exact congrArg (p ^^^ ·) (Nat.xor_zero q)
  rw [hpair]
  exact fun h0 => hne (Nat.xor_eq_zero_iff.mp h0)

/-- A number rebuilt from its bits, one bit at a time. -/
theorem mod_two_pow_succ (s i : ℕ) :
    s % 2 ^ (i + 1) = s % 2 ^ i + if s.testBit i then 2 ^ i else 0 := by
  rw [Nat.mod_pow_succ, Nat.testBit_eq_decide_div_mod_eq]
  rcases Nat.mod_two_eq_zero_or_one (s / 2 ^ i) with h | h
  · simp [h]
  · simp [h]

/-- No bits below `r`, and nothing above: the number is `0`. -/
theorem eq_zero_of_testBit {s r : ℕ} (hs : s < 2 ^ r) (h : ∀ i, i < r → s.testBit i = false) :
    s = 0 := by
  apply Nat.eq_of_testBit_eq
  intro i
  rw [Nat.zero_testBit]
  rcases Nat.lt_or_ge i r with hlt | hge
  · exact h i hlt
  · exact Nat.testBit_eq_false_of_lt (lt_of_lt_of_le hs (Nat.pow_le_pow_right (by omega) hge))

end Parity

/-! ## The message -/

section Message

/-- The bits of a word at the positions in `1 … n` that are no powers of two, in order. -/
def message (b : ℕ → Bool) : ℕ → List Bool
  | 0 => []
  | n + 1 => if (n + 1).isPowerOfTwo then message b n else message b n ++ [b (n + 1)]

/-- The number of positions in `1 … n` that are no powers of two. -/
def nonPowers : ℕ → ℕ
  | 0 => 0
  | n + 1 => if (n + 1).isPowerOfTwo then nonPowers n else nonPowers n + 1

/-- The word with a message at the positions that are no powers of two, and `0` at the
powers of two. -/
def place (d : List Bool) : ℕ → Bool :=
  fun j => if j.isPowerOfTwo then false else d.getD (nonPowers (j - 1)) false

variable {b c : ℕ → Bool} {n : ℕ}

/-- A longer word has no fewer places for message bits. -/
theorem nonPowers_mono {m n : ℕ} (h : m ≤ n) : nonPowers m ≤ nonPowers n := by
  induction n with
  | zero => rw [Nat.le_zero.mp h]
  | succ n ih =>
      rcases Nat.lt_or_ge n m with hlt | hge
      · rw [show m = n + 1 by omega]
      · have := ih hge
        rw [nonPowers]
        split <;> omega

/-- Between `2 ^ r` and `2 ^ (r + 1)` there have been `r + 1` powers of two. -/
theorem nonPowers_add {n r : ℕ} (hlo : 2 ^ r ≤ n) (hhi : n < 2 ^ (r + 1)) :
    nonPowers n + (r + 1) = n := by
  induction n generalizing r with
  | zero =>
      have := Nat.two_pow_pos r
      omega
  | succ n ih =>
      rw [nonPowers]
      by_cases hpow : (n + 1).isPowerOfTwo
      -- a power of two in this range is `2 ^ r` itself, and `n` lies in the range below
      · obtain ⟨s, hs⟩ := hpow
        rw [if_pos ⟨s, hs⟩]
        have hsr : s = r := by
          rw [hs] at hlo hhi
          have h1 := (Nat.pow_le_pow_iff_right (by omega)).mp hlo
          have h2 := (Nat.pow_lt_pow_iff_right (by omega)).mp hhi
          omega
        subst hsr
        rcases s with _ | s
        · -- the position `1`
          obtain rfl : n = 0 := by
            rw [pow_zero] at hs
            omega
          rfl
        · have hle : 2 ^ s ≤ n := by
            have := Nat.two_pow_pos s
            rw [pow_succ] at hs
            omega
          have := ih hle (by omega)
          omega
      · have hne : n + 1 ≠ 2 ^ r := fun h => hpow ⟨r, h⟩
        rw [if_neg hpow]
        have := ih (r := r) (by omega) (by omega)
        omega

/-- The message has one bit for each of those places. -/
theorem length_message : (message b n).length = nonPowers n := by
  induction n with
  | zero => rfl
  | succ n ih =>
      rw [message, nonPowers]
      split
      · exact ih
      · rw [List.length_append, ih, List.length_singleton]

/-- The message depends on the places that are no powers of two. -/
theorem message_congr (h : ∀ j, 1 ≤ j → j ≤ n → ¬ j.isPowerOfTwo → b j = c j) :
    message b n = message c n := by
  induction n with
  | zero => rfl
  | succ n ih =>
      have hn := ih (fun j h1 h2 => h j h1 (by omega))
      rw [message, message, hn]
      split
      · rfl
      · next hpow => rw [h (n + 1) (by omega) (le_refl _) hpow]

/-- And it determines them, so that comparing messages is comparing places. -/
theorem eq_of_message (h : message b n = message c n) :
    ∀ j, 1 ≤ j → j ≤ n → ¬ j.isPowerOfTwo → b j = c j := by
  induction n with
  | zero =>
      intro j h1 h2
      omega
  | succ n ih =>
      intro j h1 h2 hj
      rw [message, message] at h
      rcases Nat.lt_or_ge n j with hlt | hge
      · obtain rfl : j = n + 1 := by omega
        rw [if_neg hj, if_neg hj] at h
        exact List.singleton_injective (List.append_inj_right' h rfl)
      · refine ih ?_ j h1 hge hj
        split at h
        · exact h
        · exact List.append_inj_left' h rfl

/-- **A word is its message and its syndrome.** The last position, if it is a power of two,
is the only one with its highest bit, so the syndrome tells whether it is set. -/
theorem eq_of_message_of_syndrome (hmsg : message b n = message c n)
    (hsyn : syndrome b n = syndrome c n) : ∀ j, 1 ≤ j → j ≤ n → b j = c j := by
  have hdata := eq_of_message hmsg
  clear hmsg
  induction n with
  | zero =>
      intro j h1 h2
      omega
  | succ n ih =>
      have hlast : b (n + 1) = c (n + 1) := by
        -- at a power of two it is this bit of the syndrome that only the last position has
        by_cases hpow : (n + 1).isPowerOfTwo
        · obtain ⟨m, hm⟩ := hpow
          have hbit : ∀ d : ℕ → Bool, (syndrome d (n + 1)).testBit m = d (n + 1) := by
            intro d
            have hlow : (syndrome d n).testBit m = false :=
              Nat.testBit_eq_false_of_lt (syndrome_lt (by omega))
            rw [syndrome]
            cases hd : d (n + 1) with
            | false => simpa using hlow
            | true => simp [hlow, hm]
          rw [← hbit b, ← hbit c, hsyn]
        -- elsewhere it is a bit of the message
        · exact hdata (n + 1) (by omega) (le_refl _) hpow
      have hbelow : syndrome b n = syndrome c n := by
        rw [syndrome, syndrome, hlast] at hsyn
        split at hsyn
        · exact Nat.xor_right_injective.eq_iff.mp (by rwa [Nat.xor_comm, Nat.xor_comm (n + 1)])
        · exact hsyn
      intro j h1 h2
      rcases Nat.lt_or_ge n j with hlt | hge
      · obtain rfl : j = n + 1 := by omega
        exact hlast
      · exact ih hbelow (fun j h1 h2 => hdata j h1 (by omega)) j h1 hge

/-- To read a placed message gives the message back. -/
theorem message_place {d : List Bool} (h : nonPowers n ≤ d.length) :
    message (place d) n = d.take (nonPowers n) := by
  induction n with
  | zero => rfl
  | succ n ih =>
      rw [nonPowers] at h ⊢
      rw [message]
      by_cases hpow : (n + 1).isPowerOfTwo
      · rw [if_pos hpow] at h ⊢
        rw [if_pos hpow]
        exact ih h
      · rw [if_neg hpow] at h ⊢
        rw [if_neg hpow, ih (by omega), place, if_neg hpow, Nat.add_sub_cancel,
          List.take_add_one, List.getD_eq_getElem?_getD]
        simp [List.getElem?_eq_getElem (show nonPowers n < d.length by omega)]

end Message

end CourseLabs.Syndrome
