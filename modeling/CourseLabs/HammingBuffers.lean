/-
`hamming.c`, `main`: whether its arrays are long enough.

`main` cuts the data to `63` characters and encodes them into an array of `64` cells, which
are counted from `1` and hold the parity bits as well. With `57` data bits there are `6` of
these and the codeword ends with the array. From `58` on it does not fit: the encoder needs
`7`, and clears a cell that is not there.

What is printed is a `Report`, without the texts around the values.
-/
import CourseLabs.HammingSyndrome

set_option autoImplicit false

namespace CourseLabs.Hamming

open CourseLabs.CInt CourseLabs.CLoop CourseLabs.CMem CourseLabs.Syndrome

/-! ## The program -/

def MAX_BITS : ℕ := 64

/-- `char data[MAX_BITS] = "1011"` -/
def default_data : List Char :=
  ['1', '0', '1', '1'] ++ List.replicate 60 NUL

/-- The data, from the first argument if there is one. -/
def read_data : Option (List Char) → Option (List Char)
  | none => some default_data
  | some arg => do
    let data ← strncpy default_data (arg ++ [NUL]) (MAX_BITS - 1)
    store data (MAX_BITS - 1) NUL

/-- The loop that looks for a character that is no bit; the state is `i`. -/
def check_body (data : List Char) (k i : ℕ) : Option (Pass ℕ Bool) :=
  if i < k then do
    let c ← data[i]?
    if c ≠ '0' ∧ c ≠ '1' then
      some (.done false)
    else
      some (.next (i + 1))
  else
    some (.done true)

/-- The loops that print the cells `1 … n`: they read the array and write nothing. -/
def print_cells (n : ℕ) (buf : List ℤ) : Option (List ℤ) :=
  forLoop 1 (n + 1) [] fun i printed => do
    some (printed ++ [← buf[i]?])

/-- The breakdown: position, bit and whether it is a parity bit. -/
def print_breakdown (n : ℕ) (codeword : List ℤ) : Option (List (ℕ × ℤ × Bool)) :=
  forLoop 1 (n + 1) [] fun i lines => do
    some (lines ++ [(i, ← codeword[i]?, is_power_of_two i)])

/-- What is printed of the transmission with an error: the word before and after the correction,
and the data read from it. -/
structure Injected where
  received : List ℤ
  syndrome : ℕ
  flipped : ℤ
  corrected : List ℤ
  recovered : List Char
  verified : Bool

structure Report where
  n : ℕ
  r : ℕ
  codeword : List ℤ
  breakdown : List (ℕ × ℤ × Bool)
  syn_clean : ℕ
  extracted_clean : List Char
  injected : Option Injected

/-- Case 2, with the error at `error_pos`: the bit is flipped, the decoder corrects the word, and
the data are compared. -/
def inject_error (data : List Char) (codeword : List ℤ) (n r error_pos : ℕ)
    (extracted_corrected : List Char) : Option Injected := do
  let rx_corrupt ← toggle codeword error_pos
  let received ← print_cells n rx_corrupt
  let (rx_corrupt, extracted_corrected, syn) ←
    decode_and_correct rx_corrupt n r extracted_corrected
  let flipped ← rx_corrupt[syn]?
  let corrected ← print_cells n rx_corrupt
  let recovered ← print_string extracted_corrected
  some { received, syndrome := syn, flipped, corrected, recovered,
         verified := cstr data = recovered }

/-- `main`, with the first argument and the value of the second; the other arguments are what
its arrays contain at first. The inner `none` is the error message. -/
def main (arg : Option (List Char)) (error_pos : ℤ) (codeword : List ℤ)
    (extracted_clean extracted_corrected : List Char) : Option (Option Report) := do
  let data ← read_data arg
  let k ← strlen data
  if ← loop (check_body data k) 0 then do
    let (codeword, n, r) ← encode_hamming (cstr data) k codeword
    let printed ← print_cells n codeword
    let breakdown ← print_breakdown n codeword
    -- case 1: `rx_clean` is a copy
    let (_, extracted_clean, syn_clean) ← decode_and_correct codeword n r extracted_clean
    let extracted_clean ← print_string extracted_clean
    let injected ← if 1 ≤ error_pos ∧ error_pos ≤ n then do
        some (some (← inject_error data codeword n r error_pos.toNat extracted_corrected))
      else
        some none
    some (some { n, r, codeword := printed, breakdown, syn_clean, extracted_clean, injected })
  else
    some none

/-- Whatever the arrays contain at first, no index leaves them. -/
def BuffersSuffice (arg : Option (List Char)) (error_pos : ℤ) : Prop :=
  ∀ (codeword : List ℤ) (extracted_clean extracted_corrected : List Char),
    codeword.length = MAX_BITS → extracted_clean.length = MAX_BITS →
    extracted_corrected.length = MAX_BITS →
    (main arg error_pos codeword extracted_clean extracted_corrected).isSome

/-! ## The number of parity bits -/

section Buffers

variable {k n r : ℕ} {buf : List ℤ} {b : ℕ → Bool}

/-- Up to `57` data bits, `6` parity bits are enough. -/
theorem calculate_r_le (hk : k ≤ 57) (hr : calculate_r k = some r) : r ≤ 6 := by
  refine loop_inv (fun r => r ≤ 6) (fun r => r ≤ 6) ?_ ?_ (show 1 ≤ 6 by omega) hr
  · intro r r' hle hbody
    obtain ⟨p, hp, hbody⟩ := Option.bind_eq_some_iff.mp hbody
    obtain ⟨s, hs, hbody⟩ := Option.bind_eq_some_iff.mp hbody
    rw [shl1_of_lt (by omega), Option.some.injEq] at hp
    obtain ⟨rfl, -⟩ := nat32_eq_some_iff.mp hs
    split at hbody
    · next hlt =>
      cases hbody
      -- with `6` of them the loop would have stopped
      have hne : r ≠ 6 := by
        rintro rfl
        omega
      omega
    · cases hbody
  · intro r r' hle hbody
    obtain ⟨p, -, hbody⟩ := Option.bind_eq_some_iff.mp hbody
    obtain ⟨s, -, hbody⟩ := Option.bind_eq_some_iff.mp hbody
    split at hbody
    · cases hbody
    · cases hbody
      exact hle

/-- From `58` on, `6` are not enough: with a seventh check bit the word has more positions than the
array. -/
theorem lt_of_calculate_r (hk : 58 ≤ k) (hr : calculate_r k = some r) : 64 ≤ k + r := by
  obtain ⟨-, -, -, hhigh⟩ := sizes_of_calculate_r hr
  by_contra hlt
  have hpow : 2 ^ r ≤ 2 ^ 5 := Nat.pow_le_pow_right (by omega) (by omega)
  omega

/-- The encoder's first loop, over an array that is too short. -/
theorem clear_codeword_none (hlen : buf.length ≤ n) (hpos : 1 ≤ buf.length) :
    clear_codeword n buf = none := by
  refine forLoop_none_of (fun b => b.length = buf.length) rfl ?_ hpos
    (show buf.length < n + 1 by omega) fun b hb => if_neg (by omega)
  intro j b b' hb hstore
  rw [length_of_store hstore, hb]

theorem encode_hamming_none {d : List Char} (hk : 58 ≤ k) (hlen : buf.length = MAX_BITS) :
    encode_hamming d k buf = none := by
  rw [encode_hamming]
  cases hr : calculate_r k with
  | none => rfl
  | some r =>
      have hlt := lt_of_calculate_r hk hr
      rw [MAX_BITS] at hlen
      rw [Option.bind_eq_bind, Option.bind_some]
      cases hn : nat32 (k + r) with
      | none => rfl
      | some n =>
          obtain ⟨rfl, -⟩ := nat32_eq_some_iff.mp hn
          rw [Option.bind_eq_bind, Option.bind_some, clear_codeword_none (by omega) (by omega)]
          rfl

/-! ## What is printed -/

/-- Printing the cells of a word reads nothing else. -/
theorem forLoop_cells {α : Type} {f : ℕ → List α → Option (List α)}
    (hf : ∀ i s, 1 ≤ i → i ≤ n → (f i s).isSome) : (forLoop 1 (n + 1) [] f).isSome := by
  obtain ⟨s, hrun, -⟩ := @forLoop_one_spec _ n f (fun _ _ => True) [] trivial fun i s hi _ => by
    obtain ⟨s', hs'⟩ := Option.isSome_iff_exists.mp (hf (i + 1) s (by omega) hi)
    exact ⟨s', hs', trivial⟩
  rw [hrun]
  rfl

theorem print_cells_isSome (h : Holds buf n b) : (print_cells n buf).isSome := by
  apply forLoop_cells
  intro i s h1 hin
  rw [h.2 i h1 hin]
  rfl

theorem print_breakdown_isSome (h : Holds buf n b) : (print_breakdown n buf).isSome := by
  apply forLoop_cells
  intro i s h1 hin
  rw [h.2 i h1 hin]
  rfl

/-! ## The runs of `main` -/

theorem read_data_spec {arg : List Char} (hnul : NUL ∉ arg) :
    ∃ data, read_data (some arg) = some data ∧ cstr data = arg.take 63 ∧ data.length = 64 := by
  obtain ⟨copy, data, hcopy, hstore, hdata, hlen⟩ := @strncpy_store_spec default_data arg 63 rfl
    (fun c hc h => hnul (h ▸ hc)) []
  refine ⟨data, ?_, hdata, hlen⟩
  rw [read_data, MAX_BITS, hcopy]
  exact hstore

/-- Binary data are accepted. -/
theorem check_body_spec {data : List Char} (hbin : Binary (cstr data)) :
    loop (check_body data (cstr data).length) 0 = some true := by
  obtain ⟨b, hrun, rfl⟩ := loop_spec (f := check_body data (cstr data).length)
    (fun i => (cstr data).length - i) (fun _ => True) (fun b => b = true) (by
      rintro i -
      rw [check_body]
      rcases Nat.lt_or_ge i (cstr data).length with hlt | hge
      · right
        have hcell := List.prefix_iff_getElem?.mp (List.takeWhile_prefix _ : cstr data <+: data) i
          hlt
        have hbit := hbin (cstr data)[i] (List.getElem_mem hlt)
        rw [if_pos hlt, hcell, Option.bind_eq_bind, Option.bind_some, if_neg (by tauto)]
        exact ⟨i + 1, rfl, trivial, by omega⟩
      · left
        exact ⟨true, if_neg (by omega), rfl⟩)
    (s := 0) trivial
  exact hrun

/-- The transmission with an error, from a codeword: every access is inside, at whatever position
of the word the error is. -/
theorem inject_error_isSome {data extracted : List Char} {cw : List ℤ} {d : List Bool} {p : ℕ}
    (hr : r ≤ 30) (hn : n < 2 ^ r) (hcw : Holds cw n b) (hb : IsCodeword n d b)
    (hout : nonPowers n < extracted.length) (hp : 1 ≤ p) (hpn : p ≤ n) :
    (inject_error data cw n r p extracted).isSome := by
  obtain ⟨rx, out, htoggle, hheld, hdec, -, hnul⟩ := decode_toggled hr hn hcw hb hout hp hpn
  obtain ⟨received, hreceived⟩ := Option.isSome_iff_exists.mp (print_cells_isSome hheld)
  obtain ⟨corrected, hcorrected⟩ := Option.isSome_iff_exists.mp (print_cells_isSome hcw)
  obtain ⟨recovered, hrecovered⟩ := Option.isSome_iff_exists.mp (print_string_isSome hnul)
  rw [inject_error, htoggle]
  simp only [Option.bind_eq_bind, Option.bind_some, hreceived, hdec, hcw.2 p hp hpn, hcorrected,
    hrecovered]
  rfl

/-- Up to `57` data bits every access is inside. -/
theorem buffersSuffice_of_le {arg : List Char} (hnul : NUL ∉ arg) (hbin : Binary (arg.take 63))
    (hlen : arg.length ≤ 57) (error_pos : ℤ) : BuffersSuffice (some arg) error_pos := by
  intro codeword extracted_clean extracted_corrected hcodeword hclean hcorrected
  rw [MAX_BITS] at hcodeword hclean hcorrected
  -- nothing is cut off the argument
  obtain ⟨data, hread, hdata, hsize⟩ := read_data_spec hnul
  rw [List.take_of_length_le (by omega)] at hdata hbin
  have hstrlen : strlen data = some arg.length := by
    rw [strlen_of_lt (by rw [hdata]; omega), hdata]
  have hcheck := @check_body_spec data (by rwa [hdata])
  rw [hdata] at hcheck
  obtain ⟨d, rfl⟩ := hbin.exists_bits
  rw [List.length_map] at *
  -- six parity bits at most, so the codeword fits the arrays of `64`
  obtain ⟨r, hr, hr1, hr30, hlow, hhigh⟩ := @calculate_r_spec d.length (by omega)
  have hr6 := calculate_r_le hlen hr
  obtain ⟨cw, c, henc, hcw, hc⟩ :=
    encode_hamming_spec hr1 hr30 hr rfl hlow hhigh (show d.length + r < codeword.length by omega)
  have hcount := nonPowers_of_calculate_r hr
  obtain ⟨out, hdec, -, hnul'⟩ := decode_codeword hr30 hhigh hcw hc
    (show nonPowers (d.length + r) < extracted_clean.length by omega)
  obtain ⟨printed, hprinted⟩ := Option.isSome_iff_exists.mp (print_cells_isSome hcw)
  obtain ⟨lines, hlines⟩ := Option.isSome_iff_exists.mp (print_breakdown_isSome hcw)
  obtain ⟨shown, hshown⟩ := Option.isSome_iff_exists.mp (print_string_isSome hnul')
  rw [main, hread]
  simp only [Option.bind_eq_bind, Option.bind_some, hstrlen, hcheck, if_true, hdata, henc, hprinted,
    hlines, hdec, hshown]
  -- an error is injected only at a position of the codeword
  by_cases herror : 1 ≤ error_pos ∧ error_pos ≤ ((d.length + r : ℕ) : ℤ)
  · obtain ⟨injected, hinjected⟩ := Option.isSome_iff_exists.mp
      (@inject_error_isSome (d.length + r) r c data extracted_corrected cw d error_pos.toNat hr30
        hhigh hcw hc (by omega) (by omega) (by omega))
    rw [if_pos herror, hinjected]
    rfl
  · rw [if_neg herror]
    rfl

/-- From `58` on the codeword leaves its array. -/
theorem not_buffersSuffice_of_gt {arg : List Char} (hnul : NUL ∉ arg)
    (hbin : Binary (arg.take 63)) (hlen : 57 < arg.length) (error_pos : ℤ) :
    ¬ BuffersSuffice (some arg) error_pos := by
  intro h
  obtain ⟨data, hread, hdata, hsize⟩ := read_data_spec hnul
  have hk : 58 ≤ (arg.take 63).length := by
    rw [List.length_take]
    omega
  have hshort : (arg.take 63).length ≤ 63 := List.length_take_le _ _
  have hstrlen : strlen data = some (arg.take 63).length := by
    rw [strlen_of_lt (by rw [hdata]; omega), hdata]
  have hcheck := @check_body_spec data (by rwa [hdata])
  rw [hdata] at hcheck
  have hrun := h (List.replicate MAX_BITS 0) (List.replicate MAX_BITS NUL)
    (List.replicate MAX_BITS NUL) List.length_replicate List.length_replicate List.length_replicate
  rw [main, hread] at hrun
  simp only [Option.bind_eq_bind, Option.bind_some, hstrlen, hcheck, if_true,
    encode_hamming_none hk (List.length_replicate), Option.bind_none, Option.isSome_none,
    Bool.false_eq_true] at hrun

end Buffers

/-- **The arrays of `main` are long enough for `57` data bits**, and for no more: these take six
check bits and `63` positions, which are counted from one, so they fill the `64` cells. -/
theorem buffersSuffice_iff {arg : List Char} (hnul : NUL ∉ arg)
    (hbin : Binary (arg.take (MAX_BITS - 1))) (error_pos : ℤ) :
    BuffersSuffice (some arg) error_pos ↔ arg.length ≤ 57 := by
  constructor
  · intro h
    by_contra hgt
    exact not_buffersSuffice_of_gt hnul hbin (by omega) error_pos h
  · intro hlen
    exact buffersSuffice_of_le hnul hbin hlen error_pos

theorem buffersSuffice_iff_default :
    BuffersSuffice (some ['1', '0', '1', '1']) 3 ↔ ['1', '0', '1', '1'].length ≤ 57 :=
  buffersSuffice_iff (by decide)
    (show Binary (['1', '0', '1', '1'].take (MAX_BITS - 1)) from
      binary_digit [true, false, true, true]) 3

theorem not_buffersSuffice : ¬ BuffersSuffice (some (List.replicate 58 '0')) 3 :=
  not_buffersSuffice_of_gt (by decide)
    (fun c hc => Or.inl (List.eq_of_mem_replicate (List.mem_of_mem_take hc))) (by decide) 3

end CourseLabs.Hamming
