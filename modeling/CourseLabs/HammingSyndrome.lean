/-
`hamming.c`: the decoder on words with any number of errors.

`decode_and_correct` returns the syndrome of the word it is given, whatever the word. So
it returns `0` for the words the encoder makes and for no others, and after several errors
the exclusive or of their positions, which for two errors is some third position or a
number above `n`: the decoder sees that there is an error but takes it for another one.
-/
import CourseLabs.Hamming

set_option autoImplicit false

namespace CourseLabs.Hamming

open CourseLabs.CLoop CourseLabs.CMem CourseLabs.Syndrome

section Decoded

variable {k r : ℕ} {b c : ℕ → Bool} {buf : List ℤ}

/-- Where `calculate_r` has an answer, the sizes are those of `calculate_r_spec`. -/
theorem sizes_of_calculate_r (hr : calculate_r k = some r) :
    1 ≤ r ∧ r ≤ 30 ∧ 2 ^ (r - 1) ≤ k + r ∧ k + r < 2 ^ r := by
  have hk : k ≤ 2 ^ 30 - 31 := by
    by_contra hlt
    rw [calculate_r_none (by omega)] at hr
    cases hr
  obtain ⟨r', hr', hsizes⟩ := calculate_r_spec hk
  obtain rfl := Option.some.inj (hr.symm.trans hr')
  exact hsizes

/-- The data fill the positions that are no powers of two. -/
theorem nonPowers_of_calculate_r (hr : calculate_r k = some r) : nonPowers (k + r) = k := by
  obtain ⟨hr1, -, hlow, hhigh⟩ := sizes_of_calculate_r hr
  have := nonPowers_add hlow (show k + r < 2 ^ (r - 1 + 1) by rwa [Nat.sub_add_cancel hr1])
  omega

/-- The value returned is the syndrome, for every word. -/
theorem decode_returns_syndrome (hr : calculate_r k = some r) (h : Holds buf (k + r) b)
    {out : List Char} (hout : k < out.length) :
    ∃ rx out', decode_and_correct buf (k + r) r out = some (rx, out', syndrome b (k + r)) := by
  obtain ⟨-, hr30, -, hhigh⟩ := sizes_of_calculate_r hr
  rw [← nonPowers_of_calculate_r hr] at hout
  obtain ⟨out', hrun, -⟩ := decode_and_correct_spec hr30 hhigh h hout
  exact ⟨_, out', hrun⟩

theorem encode_returns_codeword (hr : calculate_r k = some r) {d : List Bool}
    (hd : d.length = k) (hlen : k + r < buf.length) :
    ∃ cw c, encode_hamming (d.map digit) k buf = some (cw, k + r, r) ∧ Holds cw (k + r) c
      ∧ IsCodeword (k + r) d c := by
  obtain ⟨hr1, hr30, hlow, hhigh⟩ := sizes_of_calculate_r hr
  subst hd
  exact encode_hamming_spec hr1 hr30 hr rfl hlow hhigh hlen

theorem cell_injective : Function.Injective cell := by
  intro x y h
  cases x with
  | false =>
      cases y with
      | false => rfl
      | true => cases h
  | true =>
      cases y with
      | false => cases h
      | true => rfl

/-- The buffers of two words agree where the words do. -/
theorem Holds.cells_eq_iff {buf' : List ℤ} {n : ℕ} (h : Holds buf n b) (h' : Holds buf' n c) :
    (∀ j, 1 ≤ j → j ≤ n → buf[j]? = buf'[j]?) ↔ ∀ j, 1 ≤ j → j ≤ n → b j = c j := by
  refine forall_congr' fun j => forall_congr' fun h1 => forall_congr' fun h2 => ?_
  rw [h.2 j h1 h2, h'.2 j h1 h2, Option.some_inj, cell_injective.eq_iff]

/-- Syndrome `0` is the image of the encoder. -/
theorem syndrome_eq_zero_iff {cw : List ℤ} {n : ℕ} (h : Holds buf n b) (hcw : Holds cw n c)
    (hc : IsCodeword n (message b n) c) :
    syndrome b n = 0 ↔ ∀ j, 1 ≤ j → j ≤ n → buf[j]? = cw[j]? := by
  obtain ⟨hmsg, hsyn⟩ := hc
  rw [h.cells_eq_iff hcw]
  constructor
  · exact fun h0 => eq_of_message_of_syndrome hmsg.symm (h0.trans hsyn.symm)
  · exact fun hbc => (syndrome_congr hbc).trans hsyn

end Decoded

/-- **What the decoder returns.** On any word it is the exclusive or of the positions that
hold a `1`; it is `0` on the codeword of the word's own data bits and on no other word with
these; and on a codeword with errors it is the exclusive or of their positions, which is
not `0` for two errors. -/
theorem decode_returns_xor {k r : ℕ} (hr : calculate_r k = some r) :
    (∀ received b recovered, Holds received (k + r) b → k < recovered.length →
      ∃ rx out s, decode_and_correct received (k + r) r recovered = some (rx, out, s)
        ∧ s = xorOf ((Finset.Icc 1 (k + r)).filter fun j => b j)
        ∧ ∀ codeword, k + r < codeword.length →
          ∃ cw, encode_hamming ((message b (k + r)).map digit) k codeword = some (cw, k + r, r)
            ∧ (s = 0 ↔ ∀ j, 1 ≤ j → j ≤ k + r → received[j]? = cw[j]?))
    ∧ ∀ d codeword, Binary d → d.length = k → k + r < codeword.length →
      ∃ cw c, encode_hamming d k codeword = some (cw, k + r, r) ∧ Holds cw (k + r) c
        ∧ ∀ E ⊆ Finset.Icc 1 (k + r), ∀ received recovered,
          Holds received (k + r) (flips c E) → k < recovered.length →
          ∃ rx out, decode_and_correct received (k + r) r recovered = some (rx, out, xorOf E)
            ∧ (E.card = 2 → xorOf E ≠ 0) := by
  constructor
  -- any word: its own data encoded again is the codeword to compare it with
  · intro received b recovered h hout
    obtain ⟨rx, out, hrun⟩ := decode_returns_syndrome hr h hout
    refine ⟨rx, out, _, hrun, syndrome_eq_xorOf b _, fun codeword hlen => ?_⟩
    have hdata : (message b (k + r)).length = k := by
      rw [length_message, nonPowers_of_calculate_r hr]
    obtain ⟨cw, c, henc, hcw, hc⟩ := encode_returns_codeword hr hdata hlen
    exact ⟨cw, henc, syndrome_eq_zero_iff h hcw hc⟩
  -- a codeword with errors: its syndrome is that of the errors alone
  · intro d codeword hbin hd hlen
    obtain ⟨bits, rfl⟩ := hbin.exists_bits
    rw [List.length_map] at hd
    obtain ⟨cw, c, henc, hcw, -, hsyn⟩ := encode_returns_codeword hr hd hlen
    refine ⟨cw, c, henc, hcw, fun E hE received recovered h hout => ?_⟩
    obtain ⟨rx, out, hrun⟩ := decode_returns_syndrome hr h hout
    rw [syndrome_flips hE, hsyn, Nat.zero_xor] at hrun
    exact ⟨rx, out, hrun, xorOf_ne_zero⟩

/-- Errors at `1` and `2` in the codeword of `main` are taken for one at `3`. -/
theorem decode_returns_xor_main : calculate_r 4 = some 3
    ∧ ∃ cw c, encode_hamming ['1', '0', '1', '1'] 4 (List.replicate 64 0) = some (cw, 7, 3)
      ∧ ∀ received, Holds received 7 (flips c {1, 2}) →
        ∃ rx out, decode_and_correct received 7 3 (List.replicate 64 NUL)
          = some (rx, out, 3) := by
  have hr : calculate_r 4 = some 3 := (loop_eq_loopN 3 (by decide)).trans (by decide)
  obtain ⟨-, hhit⟩ := decode_returns_xor hr
  obtain ⟨cw, c, henc, -, hE⟩ := hhit ['1', '0', '1', '1'] (List.replicate 64 0)
    (binary_digit [true, false, true, true]) rfl (by decide)
  refine ⟨hr, cw, c, henc, fun received h => ?_⟩
  obtain ⟨rx, out, hrun, -⟩ := hE {1, 2} (by decide) received (List.replicate 64 NUL) h (by decide)
  exact ⟨rx, out, hrun⟩

end CourseLabs.Hamming
