/-
`hamming.c`: the encoder and the decoder of the Hamming code.

Both are read on the buffers they are given. The proofs go through the word a buffer
holds (`Holds`), a `ℕ → Bool`, where the code is the one of `Syndrome`: each pass of the
parity loop of the encoder clears one bit of the syndrome and touches no other, since
`1 << i` has only bit `i`; the decoder adds up the bits of the syndrome.

`calculate_r` is where the size matters twice. The number it returns is exactly the
number of powers of two up to `n`, which is what makes the data fit; and `1 << r` is an
`int`, so there is no run for more than `2 ^ 30 - 31` data bits.
-/
import CourseLabs.CInt
import CourseLabs.CLoop
import CourseLabs.CMem
import CourseLabs.Syndrome
import Mathlib.Data.Int.Bitwise

set_option autoImplicit false

namespace CourseLabs.Hamming

open CourseLabs.CInt CourseLabs.CLoop CourseLabs.CMem CourseLabs.Syndrome

/-! ## The program -/

/-- The test of the source, `n > 0 && (n & (n - 1)) == 0`. -/
def is_power_of_two (n : ℕ) : Bool :=
  n > 0 ∧ n &&& (n - 1) = 0

/-- One pass of the search for `r`, the state: it goes on while `2 ^ r` is too small for the data,
the parity bits and the error-free case. -/
def calculate_r_body (k r : ℕ) : Option (Pass ℕ ℕ) := do
  let p ← shl1 r
  let s ← nat32 (k + r + 1)
  if p < s then
    some (.next (r + 1))
  else
    some (.done r)

/-- The loop that looks for the number of parity bits. The shift is an `int`, so it has no result
once `r` comes to `31`. -/
def calculate_r (k : ℕ) : Option ℕ :=
  loop (calculate_r_body k) 1

/-- The loop that sets the cells `1` to `n` to zero. -/
def clear_codeword (n : ℕ) (codeword : List ℤ) : Option (List ℤ) :=
  forLoop 1 (n + 1) codeword fun i codeword => store codeword i 0

/-- The data bits, at the positions that are no powers of two; the state is `data_idx`
and the array. -/
def place_data (n : ℕ) (data_bits : List Char) (codeword : List ℤ) : Option (ℕ × List ℤ) :=
  forLoop 1 (n + 1) (0, codeword) fun i s =>
    if !is_power_of_two i then do
      let c ← data_bits[s.1]?
      let codeword ← store s.2 i (charVal c - charVal '0')
      some (s.1 + 1, codeword)
    else
      some s

/-- The ones the encoder counts for the parity bit at `pos`: all but its own. -/
def count_other_ones (n pos : ℕ) (codeword : List ℤ) : Option ℕ :=
  forLoop 1 (n + 1) 0 fun j ones =>
    if j &&& pos ≠ 0 then
      if j ≠ pos then do
        let x ← codeword[j]?
        if x = 1 then nat32 (ones + 1) else some ones
      else
        some ones
    else
      some ones

/-- The loop over the parity bits: each is counted and set before the next. -/
def set_parity (n r : ℕ) (codeword : List ℤ) : Option (List ℤ) :=
  forLoop 0 r codeword fun i codeword => do
    let pos ← shl1 i
    let ones ← count_other_ones n pos codeword
    store codeword pos (if ones % 2 = 0 then 0 else 1)

/-- `encode_hamming`: the array, `*n_out` and `*r_out`. Three loops write the array one after the
other: zeros, the data, and the parity bits. -/
def encode_hamming (data_bits : List Char) (k : ℕ) (codeword : List ℤ) :
    Option (List ℤ × ℕ × ℕ) := do
  let r ← calculate_r k
  let n ← nat32 (k + r)
  let codeword ← clear_codeword n codeword
  let (_, codeword) ← place_data n data_bits codeword
  let codeword ← set_parity n r codeword
  some (codeword, n, r)

/-- The ones the decoder counts under `pos`, the parity bit itself among them, unlike in the count
of the encoder. -/
def count_ones (n pos : ℕ) (received : List ℤ) : Option ℕ :=
  forLoop 1 (n + 1) 0 fun j ones =>
    if j &&& pos ≠ 0 then do
      let x ← received[j]?
      if x = 1 then nat32 (ones + 1) else some ones
    else
      some ones

/-- The loop over the parity bits on the receiver's side: the failed ones added up. -/
def compute_syndrome (n r : ℕ) (received : List ℤ) : Option ℕ :=
  forLoop 0 r 0 fun i syndrome => do
    let pos ← shl1 i
    let ones ← count_ones n pos received
    if ones % 2 ≠ 0 then nat32 (syndrome + pos) else some syndrome

/-- `buf[i] ^= 1`: how `main` injects an error and how the decoder takes it back. -/
def toggle (buf : List ℤ) (i : ℕ) : Option (List ℤ) := do
  let x ← buf[i]?
  store buf i (Int.xor x 1)

/-- Correct the single bit error. A syndrome behind the end of the word is no position, and then
nothing is changed. -/
def correct_error (n syndrome : ℕ) (received : List ℤ) : Option (List ℤ) :=
  if syndrome > 0 ∧ syndrome ≤ n then toggle received syndrome else some received

/-- The data bits read back; the state is `d_idx` and the string. -/
def extract_data (n : ℕ) (received : List ℤ) (recovered_data : List Char) :
    Option (ℕ × List Char) :=
  forLoop 1 (n + 1) (0, recovered_data) fun i s =>
    if !is_power_of_two i then do
      let x ← received[i]?
      let v ← int32 (x + charVal '0')
      let recovered_data ← store s.2 s.1 (toChar v)
      some (s.1 + 1, recovered_data)
    else
      some s

/-- `decode_and_correct`: the two arrays as it leaves them, and the value it returns. -/
def decode_and_correct (received : List ℤ) (n r : ℕ) (recovered_data : List Char) :
    Option (List ℤ × List Char × ℕ) := do
  let syndrome ← compute_syndrome n r received
  let received ← correct_error n syndrome received
  let (d_idx, recovered_data) ← extract_data n received recovered_data
  let recovered_data ← store recovered_data d_idx NUL
  some (received, recovered_data, syndrome)

/-! ## Words in buffers -/

/-- The cell of a bit. -/
def cell (x : Bool) : ℤ :=
  if x then 1 else 0

/-- A buffer whose cells `1 … n` are the bits of `b`. -/
def Holds (buf : List ℤ) (n : ℕ) (b : ℕ → Bool) : Prop :=
  n < buf.length ∧ ∀ j, 1 ≤ j → j ≤ n → buf[j]? = some (cell (b j))

/-- The test of the source is the one of Mathlib. -/
theorem is_power_of_two_iff (n : ℕ) : is_power_of_two n = true ↔ n.isPowerOfTwo := by
  rw [is_power_of_two, decide_eq_true_eq, ← Nat.ne_zero_and_sub_one_eq_zero_iff_isPowerOfTwo]
  exact and_congr_left' Nat.pos_iff_ne_zero

theorem not_power_eq (n : ℕ) : (!is_power_of_two n) = !decide n.isPowerOfTwo := by
  rw [Bool.eq_iff_iff]
  simp [← is_power_of_two_iff]

/-- `j & (1 << i)` tests bit `i` of `j`. -/
theorem and_two_pow_ne_zero (j i : ℕ) : j &&& 2 ^ i ≠ 0 ↔ j.testBit i = true := by
  rw [Nat.and_two_pow]
  cases j.testBit i with
  | false => simp
  | true => simp

section Words

variable {buf : List ℤ} {n : ℕ} {b c : ℕ → Bool}

/-- The flip of the source, `^= 1`, is a negation. -/
theorem xor_cell (x : Bool) : Int.xor (cell x) 1 = cell (!x) := by
  cases x with
  | false => rfl
  | true => rfl

/-- Only the cells `1` to `n` matter: the cell `0` is never used, and what lies behind the word is
not looked at. -/
theorem Holds.congr (h : Holds buf n b) (hbc : ∀ j, 1 ≤ j → j ≤ n → b j = c j) :
    Holds buf n c :=
  ⟨h.1, fun j h1 h2 => by rw [h.2 j h1 h2, hbc j h1 h2]⟩

/-- A write to one of the cells. -/
theorem Holds.store (h : Holds buf n b) {p : ℕ} (hpn : p ≤ n) {x : Bool}
    (hp : c p = x) (hother : ∀ j, 1 ≤ j → j ≤ n → j ≠ p → c j = b j) :
    ∃ buf', CMem.store buf p (cell x) = some buf' ∧ buf' = buf.set p (cell x)
      ∧ Holds buf' n c := by
  have hlen := h.1
  refine ⟨buf.set p (cell x), store_of_lt (by omega) _, rfl, by rwa [List.length_set], ?_⟩
  intro j h1 h2
  rcases eq_or_ne j p with rfl | hne
  · rw [List.getElem?_set_self (by omega), hp]
  · rw [List.getElem?_set_ne hne.symm, h.2 j h1 h2, hother j h1 h2 hne]

/-- To toggle a cell is to flip the word there. -/
theorem Holds.toggle (h : Holds buf n b) {p : ℕ} (hp : 1 ≤ p) (hpn : p ≤ n) :
    ∃ buf', toggle buf p = some buf' ∧ buf' = buf.set p (cell (!b p))
      ∧ Holds buf' n (flip b p) := by
  obtain ⟨buf', hrun, heq, hbuf'⟩ := h.store hpn (c := flip b p) (flip_same p)
    (fun j _ _ hj => flip_other hj)
  refine ⟨buf', ?_, heq, hbuf'⟩
  rw [Hamming.toggle, h.2 p hp hpn, Option.bind_eq_bind, Option.bind_some, xor_cell]
  exact hrun

/-- Toggled twice, the buffer is the one it was. So a corrected word is the word that was sent,
cell for cell. -/
theorem Holds.set_set (h : Holds buf n b) {p : ℕ} (hp : 1 ≤ p) (hpn : p ≤ n) (x : ℤ) :
    (buf.set p x).set p (cell (b p)) = buf := by
  have hlen := h.1
  have hp' := h.2 p hp hpn
  rw [List.getElem?_eq_getElem (by omega)] at hp'
  rw [List.set_set, ← Option.some.inj hp', List.set_getElem_self]

end Words

/-! ## The number of parity bits -/

section Parity

variable {n r : ℕ} {buf : List ℤ} {b : ℕ → Bool}

/-- `calculate_r` stops at the exact number of powers of two up to `n = k + r`. -/
theorem calculate_r_spec {k : ℕ} (hk : k ≤ 2 ^ 30 - 31) :
    ∃ r, calculate_r k = some r ∧ 1 ≤ r ∧ r ≤ 30 ∧ 2 ^ (r - 1) ≤ k + r ∧ k + r < 2 ^ r := by
  obtain ⟨r, hrun, hr⟩ := loop_spec (f := calculate_r_body k) (fun r => 31 - r)
    (fun r => 1 ≤ r ∧ r ≤ 30 ∧ 2 ^ (r - 1) ≤ k + r)
    (fun r => 1 ≤ r ∧ r ≤ 30 ∧ 2 ^ (r - 1) ≤ k + r ∧ k + r < 2 ^ r) (by
      rintro r ⟨h1, h30, hlow⟩
      -- the powers stay below `2 ^ 31`, so the shift has a value
      have hbody : calculate_r_body k r
          = if 2 ^ r < k + r + 1 then some (.next (r + 1)) else some (.done r) := by
        rw [calculate_r_body, shl1_of_lt (by omega), nat32_of_lt (by omega)]
        rfl
      rw [hbody]
      rcases Nat.lt_or_ge (2 ^ r) (k + r + 1) with hlt | hge
      · right
        -- at `30` the power is above every admitted `k`
        have hne : r ≠ 30 := by
          rintro rfl
          omega
        refine ⟨r + 1, if_pos hlt, ⟨by omega, by omega, ?_⟩, by omega⟩
        rw [Nat.add_sub_cancel]
        omega
      · left
        exact ⟨r, if_neg (by omega), h1, h30, hlow, by omega⟩)
    (s := 1) ⟨le_refl 1, by omega, by simp⟩
  exact ⟨r, hrun, hr⟩

/-- Beyond that size the search reaches `1 << 31`, which is no `int`, and the function has no
result. -/
theorem calculate_r_none {k : ℕ} (hk : 2 ^ 30 - 31 < k) : calculate_r k = none := by
  -- downwards from `31`, where the shift is undefined
  have hdown : ∀ m, m ≤ 30 → loop (calculate_r_body k) (31 - m) = none := by
    intro m
    induction m with
    | zero =>
        intro _
        rw [loop, calculate_r_body, shl1, if_neg (by omega)]
        rfl
    | succ m ih =>
        intro hm
        have hpow : 2 ^ (31 - (m + 1)) ≤ 2 ^ 30 := Nat.pow_le_pow_right (by omega) (by omega)
        have hlt : 2 ^ (31 - (m + 1)) < k + (31 - (m + 1)) + 1 := by
          rcases Nat.eq_zero_or_pos m with rfl | hpos
          · omega
          · have : 2 ^ (31 - (m + 1)) ≤ 2 ^ 29 := Nat.pow_le_pow_right (by omega) (by omega)
            omega
        by_cases hfit : k + (31 - (m + 1)) + 1 < 2 ^ 31
        · have hnext : calculate_r_body k (31 - (m + 1)) = some (.next (31 - m)) := by
            rw [calculate_r_body, shl1_of_lt (by omega), nat32_of_lt hfit]
            simp only [Option.bind_eq_bind, Option.bind_some]
            rw [if_pos hlt, show 31 - (m + 1) + 1 = 31 - m by omega]
          rw [loop_next hnext]
          exact ih (by omega)
        · rw [loop, calculate_r_body, shl1_of_lt (by omega), nat32, if_neg hfit]
          rfl
  exact hdown 30 (le_refl 30)

/-! ## The encoder -/

/-- After the loop every cell in use is zero, whatever the array held. -/
theorem clear_codeword_spec (hlen : n < buf.length) :
    ∃ buf', clear_codeword n buf = some buf' ∧ Holds buf' n (fun _ => false) := by
  obtain ⟨buf', hrun, hlen', hzero⟩ := forLoop_spec
    (f := fun i codeword => store codeword i 0)
    (fun i (b' : List ℤ) => n < b'.length ∧ ∀ j, 1 ≤ j → j < i → b'[j]? = some 0)
    (show 1 ≤ n + 1 by omega) ⟨hlen, fun j h1 h2 => absurd h1 (by omega)⟩ (by
      rintro i b' h1 h2 ⟨hl, hz⟩
      refine ⟨b'.set i 0, store_of_lt (by omega) 0, by rwa [List.length_set], ?_⟩
      intro j hj1 hj2
      rcases eq_or_ne j i with rfl | hne
      · exact List.getElem?_set_self (by omega)
      · rw [List.getElem?_set_ne hne.symm]
        exact hz j hj1 (by omega))
  exact ⟨buf', hrun, hlen', fun j h1 h2 => hzero j h1 (by omega)⟩

/-- A character of the data is read as its bit. -/
theorem charVal_digit (x : Bool) : charVal (digit x) - charVal '0' = cell x := by
  cases x with
  | false => rfl
  | true => rfl

/-- The word while the data are being placed: the data bits below the position `i`, and zeros from
there on. -/
def placedBelow (d : List Bool) (i : ℕ) : ℕ → Bool :=
  fun j => if j < i then place d j else false

/-- The next position gets its own bit. -/
theorem placedBelow_succ_self (d : List Bool) (i : ℕ) : placedBelow d (i + 1) i = place d i :=
  if_pos (Nat.lt_succ_self i)

/-- The others keep theirs. -/
theorem placedBelow_succ_of_ne (d : List Bool) {i j : ℕ} (h : j ≠ i) :
    placedBelow d (i + 1) j = placedBelow d i j := by
  unfold placedBelow
  rcases Nat.lt_or_ge j i with hlt | hge
  · rw [if_pos hlt, if_pos (by omega)]
  · rw [if_neg (by omega), if_neg (by omega)]

/-- The encoder when it has passed the positions up to `m`. -/
structure Placing (n : ℕ) (d : List Bool) (m : ℕ) (s : ℕ × List ℤ) : Prop where
  data_idx : s.1 = nonPowers m
  word : Holds s.2 n (placedBelow d (m + 1))

section Placing

variable {d : List Bool} {m : ℕ} {s : ℕ × List ℤ}

/-- A power of two stays `0`: it is the place of a parity bit, and no data bit is used up on it. -/
theorem Placing.skip (h : Placing n d m s) (hpow : (m + 1).isPowerOfTwo) :
    Placing n d (m + 1) s := by
  refine ⟨by rw [nonPowers, if_pos hpow, h.data_idx], h.word.congr ?_⟩
  intro j _ _
  rcases eq_or_ne j (m + 1) with rfl | hne
  · rw [placedBelow_succ_self, place, if_pos hpow]
    exact if_neg (lt_irrefl _)
  · exact (placedBelow_succ_of_ne d hne).symm

/-- The next data bit is there, since no more are placed than there are. -/
theorem Placing.write (h : Placing n d m s) (hpow : ¬ (m + 1).isPowerOfTwo) (hmn : m + 1 ≤ n)
    (hd : d.length = nonPowers n) :
    ∃ x buf, d[s.1]? = some x ∧ CMem.store s.2 (m + 1) (cell x) = some buf
      ∧ Placing n d (m + 1) (s.1 + 1, buf) := by
  have hlt : nonPowers m < d.length := by
    have hmono := nonPowers_mono hmn
    rw [nonPowers, if_neg hpow] at hmono
    omega
  have hval : place d (m + 1) = d[nonPowers m] := by
    rw [place, if_neg hpow, Nat.add_sub_cancel, List.getD_eq_getElem?_getD,
      List.getElem?_eq_getElem hlt, Option.getD_some]
  obtain ⟨buf, hstore, -, hbuf⟩ := h.word.store hmn (c := placedBelow d (m + 1 + 1))
    (by rw [placedBelow_succ_self, hval]) (fun j _ _ hne => placedBelow_succ_of_ne d hne)
  refine ⟨d[nonPowers m], buf, by rw [h.data_idx, List.getElem?_eq_getElem hlt], hstore, ?_, hbuf⟩
  rw [nonPowers, if_neg hpow, h.data_idx]

end Placing

/-- The data go to the positions that are no powers of two, one after the other. -/
theorem place_data_spec {d : List Bool} (hd : d.length = nonPowers n)
    (h : Holds buf n (fun _ => false)) :
    ∃ s, place_data n (d.map digit) buf = some s ∧ Holds s.2 n (place d) := by
  obtain ⟨s, hrun, hs⟩ : ∃ s, place_data n (d.map digit) buf = some s ∧ Placing n d n s := by
    apply forLoop_one_spec (Placing n d)
    · exact ⟨rfl, h.congr (fun j h1 _ => (if_neg (by omega)).symm)⟩
    · intro m s hm hs
      rw [not_power_eq]
      by_cases hpow : (m + 1).isPowerOfTwo
      · exact ⟨s, by simp [hpow], hs.skip hpow⟩
      · obtain ⟨x, buf', hread, hstore, hnext⟩ := hs.write hpow hm hd
        refine ⟨_, ?_, hnext⟩
        simp [hpow, hread, charVal_digit, hstore]
  exact ⟨s, hrun, hs.word.congr (fun j _ h2 => if_pos (by omega))⟩

/-- A loop that adds one for each set position with bit `i` counts them. -/
theorem count_spec {i : ℕ} {f : ℕ → ℕ → Option ℕ}
    (hf : ∀ j ones, 1 ≤ j → j ≤ n → ones < j →
      f j ones = some (ones + if b j ∧ j.testBit i then 1 else 0)) :
    forLoop 1 (n + 1) 0 f = some (ones b i n) := by
  obtain ⟨m, hrun, rfl⟩ := forLoop_one_spec (f := f) (fun j m => m = ones b i j) (s := 0) rfl (by
    rintro j m hj rfl
    have hle : ones b i j ≤ j := ones_le i
    exact ⟨_, hf (j + 1) (ones b i j) (by omega) hj (by omega), rfl⟩)
  exact hrun

/-- One pass of a count. The counter is an `int`, and the words are short enough for it. -/
theorem count_pass (x : Bool) {ones : ℕ} (h : ones + 1 < 2 ^ 31) :
    (if cell x = 1 then nat32 (ones + 1) else some ones)
      = some (ones + if x then 1 else 0) := by
  cases x with
  | false => rfl
  | true => exact nat32_of_lt h

/-- The inner loop counts the ones among the cells whose index has bit `i`. -/
theorem count_ones_spec (hn : n < 2 ^ 31) (h : Holds buf n b) (i : ℕ) :
    count_ones n (2 ^ i) buf = some (ones b i n) := by
  apply count_spec
  intro j ones h1 h2 hlt
  by_cases hbit : j.testBit i = true
  · rw [if_pos ((and_two_pow_ne_zero j i).mpr hbit), h.2 j h1 h2, Option.bind_eq_bind,
      Option.bind_some, count_pass (b j) (by omega)]
    simp [hbit]
  · rw [if_neg (fun h => hbit ((and_two_pow_ne_zero j i).mp h))]
    simp [hbit]

/-- The cell left out of the count is `0`, so nothing is missed. -/
theorem count_other_ones_spec (hn : n < 2 ^ 31) (h : Holds buf n b) {i : ℕ}
    (hpos : b (2 ^ i) = false) : count_other_ones n (2 ^ i) buf = some (ones b i n) := by
  apply count_spec
  intro j ones h1 h2 hlt
  by_cases hbit : j.testBit i = true
  · rw [if_pos ((and_two_pow_ne_zero j i).mpr hbit)]
    -- the parity bit itself is skipped, and would not count
    rcases eq_or_ne j (2 ^ i) with rfl | hne
    · simp [hpos]
    · rw [if_pos hne, h.2 j h1 h2, Option.bind_eq_bind, Option.bind_some,
        count_pass (b j) (by omega)]
      simp [hbit]
  · rw [if_neg (fun h => hbit ((and_two_pow_ne_zero j i).mp h))]
    simp [hbit]

/-- The word after `i` parity bits: the data untouched, the first `i` parities even, the
other parity bits still `0`. -/
structure EvenBelow (n r i : ℕ) (b c : ℕ → Bool) : Prop where
  data : ∀ j, ¬ j.isPowerOfTwo → c j = b j
  clear : ∀ i', i ≤ i' → i' < r → c (2 ^ i') = false
  even : ∀ i', i' < i → (syndrome c n).testBit i' = false

/-- What one pass of the parity loop makes of the word. -/
def parityPass (n i : ℕ) (c : ℕ → Bool) : ℕ → Bool :=
  if ones c i n % 2 = 0 then c else flip c (2 ^ i)

/-- A pass writes one cell, the one of its own parity bit; the parities that are set already do not
contain it. -/
theorem parityPass_other {i j : ℕ} {c : ℕ → Bool} (h : j ≠ 2 ^ i) :
    parityPass n i c j = c j := by
  rw [parityPass]
  split
  · rfl
  · exact flip_other h

/-- And that cell is the parity of the others, since it was zero when they were counted. -/
theorem parityPass_same {i : ℕ} {c : ℕ → Bool} (h : c (2 ^ i) = false) :
    cell (parityPass n i c (2 ^ i)) = if ones c i n % 2 = 0 then 0 else 1 := by
  rw [parityPass]
  split
  · rw [h]
    rfl
  · rw [flip_same, h]
    rfl

/-- A pass evens out its own parity; no other changes, since `2 ^ i` has one bit. -/
theorem testBit_parityPass {i : ℕ} {c : ℕ → Bool} (hi : 2 ^ i ≤ n) (i' : ℕ) :
    (syndrome (parityPass n i c) n).testBit i'
      = if i' = i then false else (syndrome c n).testBit i' := by
  rw [parityPass]
  by_cases heven : ones c i n % 2 = 0
  · rw [if_pos heven]
    rcases eq_or_ne i' i with rfl | hne
    · rw [if_pos rfl, testBit_syndrome]
      simp [heven]
    · rw [if_neg hne]
  · rw [if_neg heven, syndrome_flip (Nat.one_le_two_pow) hi, Nat.testBit_xor,
      Nat.testBit_two_pow]
    rcases eq_or_ne i' i with rfl | hne
    · rw [if_pos rfl, testBit_syndrome]
      simp [show ones c i' n % 2 = 1 by omega]
    · rw [if_neg hne]
      simp [hne.symm]

/-- A pass makes its own check even and keeps the checks before it: the cell it writes is a power
of two, so it counts for no other check. -/
theorem EvenBelow.pass {i : ℕ} {c : ℕ → Bool} (h : EvenBelow n r i b c) (hi : 2 ^ i ≤ n) :
    EvenBelow n r (i + 1) b (parityPass n i c) := by
  refine ⟨fun j hj => ?_, fun i' h1 h2 => ?_, fun i' hlt => ?_⟩
  · rw [parityPass_other (fun hj' => hj ⟨i, hj'⟩)]
    exact h.data j hj
  -- another power of two is another cell
  · have hne : 2 ^ i' ≠ 2 ^ i := fun heq => by
      have := Nat.pow_right_injective (le_refl 2) heq
      omega
    rw [parityPass_other hne]
    exact h.clear i' (by omega) h2
  · rw [testBit_parityPass hi]
    split
    · rfl
    · exact h.even i' (by omega)

/-- **After the passes all checks are even.** The invariant is that those below `i` are. -/
theorem set_parity_spec (hn : n < 2 ^ 31) (hr : r ≤ 31) (hpos : ∀ i, i < r → 2 ^ i ≤ n)
    (h : Holds buf n b) (hb : ∀ i, i < r → b (2 ^ i) = false) :
    ∃ buf' c, set_parity n r buf = some buf' ∧ Holds buf' n c ∧ EvenBelow n r r b c := by
  obtain ⟨buf', hrun, c, hbuf', hc⟩ := forLoop_spec
    (f := fun i codeword => do
      let pos ← shl1 i
      let ones ← count_other_ones n pos codeword
      store codeword pos (if ones % 2 = 0 then 0 else 1))
    (fun i buf' => ∃ c, Holds buf' n c ∧ EvenBelow n r i b c)
    (Nat.zero_le r)
    ⟨b, h, fun _ _ => rfl, fun i' _ h2 => hb i' h2, fun i' h1 => absurd h1 (by omega)⟩ (by
      rintro i buf1 - hi ⟨c, hbuf1, hc⟩
      -- the parity position is clear, so counting the others counts all
      have hclear := hc.clear i (le_refl i) hi
      obtain ⟨buf2, hstore, -, hbuf2⟩ := hbuf1.store (hpos i hi)
        (c := parityPass n i c) rfl (fun j _ _ hne => parityPass_other hne)
      refine ⟨buf2, ?_, parityPass n i c, hbuf2, hc.pass (hpos i hi)⟩
      rw [shl1_of_lt (by omega)]
      simp only [Option.bind_eq_bind, Option.bind_some]
      rw [count_other_ones_spec hn hbuf1 hclear, Option.bind_some, ← parityPass_same hclear]
      exact hstore)
  exact ⟨buf', c, hrun, hbuf', hc⟩

/-- The word the encoder builds on the data `d`: the data in place, the syndrome `0`. -/
def IsCodeword (n : ℕ) (d : List Bool) (c : ℕ → Bool) : Prop :=
  message c n = d ∧ syndrome c n = 0

/-- **The encoder**: the data at the other positions, the checks even. The hypotheses are what
`calculate_r` has found. -/
theorem encode_hamming_spec {d : List Bool} (hr1 : 1 ≤ r) (hr30 : r ≤ 30)
    (hr : calculate_r d.length = some r) (hn : n = d.length + r) (hlow : 2 ^ (r - 1) ≤ n)
    (hhigh : n < 2 ^ r) (hlen : n < buf.length) :
    ∃ buf' c, encode_hamming (d.map digit) d.length buf = some (buf', n, r)
      ∧ Holds buf' n c ∧ IsCodeword n d c := by
  have hpow30 : 2 ^ r ≤ 2 ^ 30 := Nat.pow_le_pow_right (by omega) hr30
  -- the data fill the positions that are no powers of two
  have hcount : nonPowers n = d.length := by
    have := nonPowers_add hlow (show n < 2 ^ (r - 1 + 1) by rwa [Nat.sub_add_cancel hr1])
    omega
  have hpos : ∀ i, i < r → 2 ^ i ≤ n := fun i hi =>
    le_trans (Nat.pow_le_pow_right (by omega) (by omega)) hlow
  obtain ⟨buf1, hrun1, hbuf1⟩ := clear_codeword_spec hlen
  obtain ⟨⟨idx, buf2⟩, hrun2, hbuf2⟩ := place_data_spec hcount.symm hbuf1
  obtain ⟨buf3, c, hrun3, hbuf3, hc⟩ := set_parity_spec (by omega) (by omega) hpos hbuf2
    (fun i _ => if_pos ⟨i, rfl⟩)
  refine ⟨buf3, c, ?_, hbuf3, ?_, eq_zero_of_testBit (syndrome_lt hhigh) hc.even⟩
  · rw [encode_hamming, hr]
    simp only [Option.bind_eq_bind, Option.bind_some]
    rw [← hn, nat32_of_lt (by omega)]
    simp only [Option.bind_some, hrun1, hrun2, hrun3]
  · rw [message_congr (fun j _ _ hj => hc.data j hj), message_place hcount.le, hcount,
      List.take_length]

/-! ## The decoder -/

/-- **The syndrome** the loop adds up is the exclusive or of the positions that are set. -/
theorem compute_syndrome_spec (hr : r ≤ 30) (hn : n < 2 ^ r) (h : Holds buf n b) :
    compute_syndrome n r buf = some (syndrome b n) := by
  have hpow30 : 2 ^ r ≤ 2 ^ 30 := Nat.pow_le_pow_right (by omega) hr
  obtain ⟨s, hrun, hs⟩ := forLoop_spec
    (f := fun i s => do
      let pos ← shl1 i
      let ones ← count_ones n pos buf
      if ones % 2 ≠ 0 then nat32 (s + pos) else some s)
    (fun i s => s = syndrome b n % 2 ^ i) (Nat.zero_le r) (s := 0) (Nat.mod_one _).symm (by
      rintro i s - hi rfl
      -- the weight of the check is an `int`, as is the sum below it
      have hpow : 2 ^ i ≤ 2 ^ 30 := Nat.pow_le_pow_right (by omega) (by omega)
      have hlt := Nat.mod_lt (syndrome b n) (Nat.two_pow_pos i)
      refine ⟨_, ?_, rfl⟩
      rw [shl1_of_lt (by omega)]
      simp only [Option.bind_eq_bind, Option.bind_some]
      rw [count_ones_spec (by omega) h i, Option.bind_some, mod_two_pow_succ,
        testBit_syndrome]
      -- an odd check adds its bit to the syndrome
      by_cases hodd : ones b i n % 2 = 1
      · rw [if_pos (by omega), nat32_of_lt (by omega)]
        simp [hodd]
      · rw [if_neg (by omega)]
        simp [hodd])
  rw [compute_syndrome, hrun, hs, Nat.mod_eq_of_lt (syndrome_lt hn)]

/-- A cell is written as its character, and the sum fits an `int`. -/
theorem digit_cell (x : Bool) :
    int32 (cell x + charVal '0') = some (cell x + charVal '0')
      ∧ toChar (cell x + charVal '0') = digit x := by
  cases x with
  | false => exact ⟨rfl, rfl⟩
  | true => exact ⟨rfl, rfl⟩

/-- The decoder when it has read back the positions up to `m`. -/
structure Extracted (b : ℕ → Bool) (size m : ℕ) (s : ℕ × List Char) : Prop where
  d_idx : s.1 = nonPowers m
  written : ∃ rest, s.2 = (message b m).map digit ++ rest ∧ nonPowers m + rest.length = size

section Extracted

variable {size m : ℕ} {s : ℕ × List Char}

/-- A parity position is passed over, and no character is written for it. -/
theorem Extracted.skip (h : Extracted b size m s) (hpow : (m + 1).isPowerOfTwo) :
    Extracted b size (m + 1) s := by
  obtain ⟨hidx, rest, hs, hlen⟩ := h
  refine ⟨by rw [nonPowers, if_pos hpow, hidx], rest, ?_, by rwa [nonPowers, if_pos hpow]⟩
  rwa [message, if_pos hpow]

/-- The next data bit goes behind those read back so far. -/
theorem Extracted.write (h : Extracted b size m s) (hpow : ¬ (m + 1).isPowerOfTwo)
    (hfit : nonPowers m < size) :
    ∃ out, CMem.store s.2 s.1 (digit (b (m + 1))) = some out
      ∧ Extracted b size (m + 1) (s.1 + 1, out) := by
  obtain ⟨hidx, rest, hs, hlen⟩ := h
  cases rest with
  | nil =>
      rw [List.length_nil] at hlen
      omega
  | cons x rest =>
      have hpos : s.1 = ((message b m).map digit).length := by
        rw [List.length_map, length_message, hidx]
      rw [List.length_cons] at hlen
      refine ⟨(message b m).map digit ++ digit (b (m + 1)) :: rest, ?_, ?_, rest, ?_, ?_⟩
      · rw [hs, hpos, store_of_lt, List.set_append_right _ _ (le_refl _), Nat.sub_self,
          List.set_cons_zero]
        rw [List.length_append, List.length_cons]
        omega
      · rw [nonPowers, if_neg hpow, hidx]
      · rw [message, if_neg hpow, List.map_append, List.append_assoc]
        rfl
      · rw [nonPowers, if_neg hpow]
        omega

end Extracted

/-- **The decoder reads the data off the other positions**, in order, and leaves room behind
them. -/
theorem extract_data_spec {out : List Char} (h : Holds buf n b)
    (hout : nonPowers n < out.length) :
    ∃ rest, extract_data n buf out = some (nonPowers n, (message b n).map digit ++ rest)
      ∧ rest ≠ [] := by
  obtain ⟨s, hrun, hidx, rest, hs, hlen⟩ : ∃ s, extract_data n buf out = some s
      ∧ Extracted b out.length n s := by
    apply forLoop_one_spec (Extracted b out.length)
    · exact ⟨rfl, out, rfl, Nat.zero_add _⟩
    · intro m s hm hs
      rw [not_power_eq]
      by_cases hpow : (m + 1).isPowerOfTwo
      · exact ⟨s, by simp [hpow], hs.skip hpow⟩
      · have hmono := nonPowers_mono (show m ≤ n by omega)
        obtain ⟨hchar, hdigit⟩ := digit_cell (b (m + 1))
        obtain ⟨out', hstore, hnext⟩ := hs.write hpow (by omega)
        refine ⟨_, ?_, hnext⟩
        simp [hpow, h.2 (m + 1) (by omega) hm, hchar, hdigit, hstore]
  refine ⟨rest, by rw [hrun, ← hidx, ← hs], ?_⟩
  rintro rfl
  rw [List.length_nil] at hlen
  omega

/-- The word the decoder settles on: with the bit at the syndrome flipped, where the syndrome is a
position of the word. -/
def corrected (b : ℕ → Bool) (n : ℕ) : ℕ → Bool :=
  if syndrome b n > 0 ∧ syndrome b n ≤ n then flip b (syndrome b n) else b

/-- What `decode_and_correct` does to any word at all, with however many errors: the syndrome it
returns and the data it reads are those of the word alone. -/
theorem decode_and_correct_spec {out : List Char} (hr : r ≤ 30) (hn : n < 2 ^ r)
    (h : Holds buf n b) (hout : nonPowers n < out.length) :
    ∃ out', decode_and_correct buf n r out
        = some (if syndrome b n > 0 ∧ syndrome b n ≤ n
            then buf.set (syndrome b n) (cell (!b (syndrome b n))) else buf, out', syndrome b n)
      ∧ cstr out' = (message (corrected b n) n).map digit ∧ NUL ∈ out' := by
  obtain ⟨buf', hfix, hbuf', hheld⟩ : ∃ buf', correct_error n (syndrome b n) buf = some buf'
      ∧ buf' = (if syndrome b n > 0 ∧ syndrome b n ≤ n
            then buf.set (syndrome b n) (cell (!b (syndrome b n))) else buf)
      ∧ Holds buf' n (corrected b n) := by
    rw [corrected, correct_error]
    split
    · next hs => exact h.toggle (by omega) hs.2
    · exact ⟨buf, rfl, rfl, h⟩
  obtain ⟨rest, hrun, hrest⟩ := extract_data_spec hheld hout
  obtain ⟨x, rest', rfl⟩ := List.exists_cons_of_ne_nil hrest
  have hlen : ((message (corrected b n) n).map digit).length = nonPowers n := by
    rw [List.length_map, length_message]
  refine ⟨(message (corrected b n) n).map digit ++ NUL :: rest', ?_, cstr_digits _ _,
    List.mem_append_right _ List.mem_cons_self⟩
  rw [decode_and_correct, compute_syndrome_spec hr hn h]
  simp only [Option.bind_eq_bind, Option.bind_some]
  rw [hfix, Option.bind_some, hrun, Option.bind_some, ← hbuf', store_of_lt, Option.bind_some,
    List.set_append_right _ _ hlen.le, hlen, Nat.sub_self, List.set_cons_zero]
  rw [List.length_append, hlen, List.length_cons]
  omega

/-- A codeword decodes to its data, the array is left as it is, and the returned syndrome is `0`.
-/
theorem decode_codeword {cw : List ℤ} {d : List Bool} {out : List Char} (hr : r ≤ 30)
    (hn : n < 2 ^ r) (hcw : Holds cw n b) (hb : IsCodeword n d b)
    (hout : nonPowers n < out.length) :
    ∃ out', decode_and_correct cw n r out = some (cw, out', 0) ∧ cstr out' = d.map digit
      ∧ NUL ∈ out' := by
  obtain ⟨out', hdec, hdata, hnul⟩ := decode_and_correct_spec hr hn hcw hout
  have hsyn := hb.2
  rw [corrected, if_neg (by omega), hb.1] at hdata
  rw [if_neg (by omega), hsyn] at hdec
  exact ⟨out', hdec, hdata, hnul⟩

/-- And so does a codeword with one bit inverted, which is repaired. -/
theorem decode_toggled {cw : List ℤ} {d : List Bool} {out : List Char} {p : ℕ} (hr : r ≤ 30)
    (hn : n < 2 ^ r) (hcw : Holds cw n b) (hb : IsCodeword n d b)
    (hout : nonPowers n < out.length) (hp : 1 ≤ p) (hpn : p ≤ n) :
    ∃ rx out', toggle cw p = some rx ∧ Holds rx n (flip b p)
      ∧ decode_and_correct rx n r out = some (cw, out', p) ∧ cstr out' = d.map digit
      ∧ NUL ∈ out' := by
  obtain ⟨rx, htoggle, hrx, hheld⟩ := hcw.toggle hp hpn
  have hsyn : syndrome (flip b p) n = p := by
    rw [syndrome_flip hp hpn, hb.2, Nat.zero_xor]
  obtain ⟨out', hdec, hdata, hnul⟩ := decode_and_correct_spec hr hn hheld hout
  -- the second flip undoes the first
  have hback : flip (flip b p) p = b := by
    funext j
    rcases eq_or_ne j p with rfl | hne
    · simp
    · rw [flip_other hne, flip_other hne]
  rw [corrected, hsyn, if_pos ⟨hp, hpn⟩, hback, hb.1] at hdata
  rw [hsyn, if_pos ⟨hp, hpn⟩, flip_same, Bool.not_not, hrx, hcw.set_set hp hpn, ← hrx] at hdec
  exact ⟨rx, out', htoggle, hheld, hdec, hdata, hnul⟩

end Parity

/-! ## Correction -/

/-- What the code is for, on the data `d`: whatever the caller's arrays hold, the
codeword decodes to the data, and so does the codeword with any one bit inverted, whose
position comes back and whose array is repaired. -/
def CorrectsSingleErrors (d : List Char) : Prop :=
  ∃ n r, calculate_r d.length = some r ∧ n = d.length + r ∧
    ∀ codeword recovered, n < codeword.length → d.length < recovered.length →
      ∃ cw, encode_hamming d d.length codeword = some (cw, n, r)
        ∧ (∃ out, decode_and_correct cw n r recovered = some (cw, out, 0) ∧ cstr out = d)
        ∧ ∀ p, 1 ≤ p → p ≤ n → ∃ rx, toggle cw p = some rx
          ∧ ∃ out, decode_and_correct rx n r recovered = some (cw, out, p) ∧ cstr out = d

/-- **Single-error correction**, for every size the `int` arithmetic has room for: a word with one
flipped bit is decoded to the position of that bit, and flipping it back gives the codeword that
was sent. -/
theorem corrects_single_errors {d : List Char} (hbin : Binary d)
    (hk : d.length ≤ 2 ^ 30 - 31) : CorrectsSingleErrors d := by
  obtain ⟨bits, rfl⟩ := hbin.exists_bits
  rw [List.length_map] at hk
  obtain ⟨r, hr, hr1, hr30, hlow, hhigh⟩ := calculate_r_spec hk
  refine ⟨bits.length + r, r, by rwa [List.length_map], by rw [List.length_map], ?_⟩
  intro codeword recovered hcodeword hrecovered
  rw [List.length_map] at hrecovered
  obtain ⟨cw, c, henc, hcw, hc⟩ := encode_hamming_spec hr1 hr30 hr rfl hlow hhigh hcodeword
  have hout : nonPowers (bits.length + r) < recovered.length := by
    rw [← length_message (b := c), hc.1]
    exact hrecovered
  refine ⟨cw, by rwa [List.length_map], ?_, ?_⟩
  · obtain ⟨out, hdec, hdata, -⟩ := decode_codeword hr30 hhigh hcw hc hout
    exact ⟨out, hdec, hdata⟩
  · intro p hp hpn
    obtain ⟨rx, out, htoggle, -, hdec, hdata, -⟩ :=
      decode_toggled hr30 hhigh hcw hc hout hp hpn
    exact ⟨rx, htoggle, out, hdec, hdata⟩

/-- The default data of `main`. -/
theorem corrects_single_errors_main : CorrectsSingleErrors ['1', '0', '1', '1'] :=
  corrects_single_errors (binary_digit [true, false, true, true]) (by decide)

/-- One data bit more than there is room for: `1 << 31` is reached, so the encoder has no
run. -/
theorem not_corrects_single_errors :
    ¬ ∀ d : List Char, Binary d → CorrectsSingleErrors d := by
  intro h
  obtain ⟨n, r, hr, -⟩ := h (List.replicate (2 ^ 30 - 30) '0')
    (fun c hc => Or.inl (List.eq_of_mem_replicate hc))
  rw [List.length_replicate, calculate_r_none (by omega)] at hr
  exact absurd hr (by simp)

end CourseLabs.Hamming
