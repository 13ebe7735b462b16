/-
`caesar_cipher.c`: the shifts, what decryption with another key gives, and what the attack
lists.

A key is reduced to a rotation of the alphabet (`rotate`), so the keys act as the integers
modulo `26`: two encryptions are one, decryption is encryption with the negated key, and the
cipher is the one of `substitution_cipher.c` for the rotated alphabet. A rotation that moves
no letter moves none at all, so a wrong key is told from a right one by every text with a
letter in it (`decrypts_iff`).

The loop over the text is the one of `substitution_cipher.c` (`translate`). `main` is given
the number `atoi` reads.
-/
import CourseLabs.SubstitutionCipher

set_option autoImplicit false

namespace CourseLabs.CaesarCipher

open CourseLabs.CInt CourseLabs.CLoop CourseLabs.CMem CourseLabs.CType
open CourseLabs.SubstitutionCipher

/-! ## The program -/

/-- The size of the arrays for the texts; `main` cuts its argument to one character less. -/
def MAX_TEXT : ℕ := 1024

/-- `((key % 26) + 26) % 26`: the remainder of C may be negative, and the second one no longer is.
-/
def normalize (key : ℤ) : Option ℤ := do
  let r ← rem32 key 26
  rem32 (← int32 (r + 26)) 26

/-- A letter of the case that starts at `base`, moved by `offset`. -/
def shift_char (base ch : Char) (offset : ℤ) : Option Char := do
  let r ← rem32 (← int32 (ch.toNat - base.toNat + offset)) 26
  some (toChar (r + base.toNat))

/-- `(ch - base + offset) % 26 + base`, for the base of its own case; what is no letter stays. -/
def shift_letter (offset : ℤ) (ch : Char) : Option Char :=
  if isupper ch then
    shift_char 'A' ch offset
  else if islower ch then
    shift_char 'a' ch offset
  else
    some ch

/-- The key is brought into the range from `0` to `25` first, so that the sums fit an `int`
whatever it was. -/
def encrypt_caesar (plaintext ciphertext : List Char) (key : ℤ) : Option (List Char) := do
  let key ← normalize key
  translate plaintext ciphertext (shift_letter key)

/-- The same with `26 - key`: the way back is the rest of the way around the alphabet. -/
def decrypt_caesar (ciphertext plaintext : List Char) (key : ℤ) : Option (List Char) := do
  let key ← normalize key
  translate ciphertext plaintext (shift_letter (-key + 26))

/-- `brute_force_attack`: the lines it prints, each with its key. -/
def brute_force_attack (ciphertext candidate : List Char) : Option (List (ℕ × List Char)) := do
  let (_, lines) ← forLoop 1 26 (candidate, []) fun k (candidate, lines) => do
    let candidate ← decrypt_caesar ciphertext candidate k
    let line ← print_string candidate
    some (candidate, lines ++ [(k, line)])
  some lines

/-- The text of `main` when there is no argument. -/
def DEFAULT_TEXT : List Char := "Computer Networks and Cryptography".toList

/-- The contents of `text`: the first argument, cut, or the text the program brings. -/
def read_text : Option (List Char) → Option (List Char)
  | some arg => do
    let text ← strncpy (DEFAULT_TEXT ++ List.replicate (MAX_TEXT - DEFAULT_TEXT.length) NUL)
      (arg ++ [NUL]) (MAX_TEXT - 1)
    store text (MAX_TEXT - 1) NUL
  | none => some (DEFAULT_TEXT ++ List.replicate (MAX_TEXT - DEFAULT_TEXT.length) NUL)

/-- `main`: what it returns, and the lines of the attack. -/
def main (arg : Option (List Char)) (shift : ℤ) (encrypted decrypted candidate : List Char) :
    Option (ℤ × List (ℕ × List Char)) := do
  let text ← print_string (← read_text arg)
  let encrypted ← print_string (← encrypt_caesar text encrypted shift)
  let decrypted ← print_string (← decrypt_caesar encrypted decrypted shift)
  if text = decrypted then do
    let lines ← brute_force_attack encrypted candidate
    some (0, lines)
  else
    some (1, [])

/-! ## Rotations -/

/-- The alphabet, turned by any number of places in either direction, as a permutation of the
places. -/
def rotate (k : ℤ) : Equiv.Perm (Fin 26) where
  toFun i := ⟨((i + k) % 26).toNat, by omega⟩
  invFun i := ⟨((i - k) % 26).toNat, by omega⟩
  left_inv i := by
    apply Fin.ext
    simp only
    omega
  right_inv i := by
    apply Fin.ext
    simp only
    omega

section Rotate

variable (j k : ℤ)

/-- A rotation adds to the place, around the alphabet. -/
theorem val_rotate (i : Fin 26) : ((rotate k i : ℕ) : ℤ) = (i + k) % 26 := by
  simp only [rotate, Equiv.coe_fn_mk]
  omega

/-- Rotations add up. -/
theorem rotate_rotate (i : Fin 26) : rotate k (rotate j i) = rotate (j + k) i := by
  apply Fin.ext
  have hj := val_rotate j i
  have hk := val_rotate k (rotate j i)
  have hjk := val_rotate (j + k) i
  omega

/-- A rotation that moves no letter is one by a multiple of `26`. One letter that stays is enough
to tell. -/
theorem rotate_eq_self_iff (i : Fin 26) : rotate k i = i ↔ 26 ∣ k := by
  rw [Fin.ext_iff]
  have hk := val_rotate k i
  omega

/-- Only the residue of a key counts, so the keys that are not equal may do the same. -/
theorem rotate_congr {j k : ℤ} (h : j % 26 = k % 26) : rotate j = rotate k := by
  apply Equiv.ext
  intro i
  apply Fin.ext
  have hj := val_rotate j i
  have hk := val_rotate k i
  omega

theorem substitute_rotate (c : Char) :
    substitute (rotate k) (substitute (rotate j) c) = substitute (rotate (j + k)) c := by
  rcases letter_cases c with ⟨i, rfl⟩ | ⟨i, rfl⟩ | ⟨hupper, hlower⟩
  · rw [substitute_upper, substitute_upper, substitute_upper, rotate_rotate]
  · rw [substitute_lower, substitute_lower, substitute_lower, rotate_rotate]
  · rw [substitute_other _ hupper hlower, substitute_other _ hupper hlower,
      substitute_other _ hupper hlower]

/-- Encryption with one key after another is encryption with the sum. -/
theorem map_substitute_rotate (text : List Char) :
    (text.map (substitute (rotate j))).map (substitute (rotate k))
      = text.map (substitute (rotate (j + k))) := by
  rw [List.map_map]
  exact List.map_congr_left fun c _ => substitute_rotate j k c

/-- A letter that stays where it is makes the rotation the identity. -/
theorem substitute_eq_self_iff (c : Char) :
    substitute (rotate k) c = c ↔ 26 ∣ k ∨ isalpha c = false := by
  rcases letter_cases c with ⟨i, rfl⟩ | ⟨i, rfl⟩ | ⟨hupper, hlower⟩
  · rw [substitute_upper, upper_injective.eq_iff, rotate_eq_self_iff]
    simp [isalpha]
  · rw [substitute_lower, (Function.LeftInverse.injective place_lower).eq_iff, rotate_eq_self_iff]
    simp [isalpha]
  · rw [substitute_other _ hupper hlower]
    simp [isalpha, hupper, hlower]

/-- A text comes out as it went in for multiples of `26` and, with any key, when it has no
letter. -/
theorem map_substitute_eq_self_iff (text : List Char) :
    text.map (substitute (rotate k)) = text ↔ 26 ∣ k ∨ ∀ c ∈ text, isalpha c = false := by
  induction text with
  | nil => simp
  | cons c text ih =>
      rw [List.map_cons, List.cons.injEq, ih, substitute_eq_self_iff, List.forall_mem_cons]
      tauto

end Rotate

/-! ## The shifts -/

section Shift

variable {k : ℤ}

/-- `((key % 26) + 26) % 26` is the remainder that is not negative, and its sum is an `int`. -/
theorem normalize_spec (hlo : -2 ^ 31 ≤ k) (hhi : k < 2 ^ 31) : normalize k = some (k % 26) := by
  have hrem := Int.lt_tmod_of_pos k (show (0 : ℤ) < 26 by omega)
  have hrem' := Int.tmod_lt_of_pos k (show (0 : ℤ) < 26 by omega)
  rw [normalize, rem32_of_pos (by omega) hlo hhi, Option.bind_eq_bind, Option.bind_some,
    int32_eq_some (by omega) (by omega), Option.bind_some,
    rem32_of_pos (by omega) (by omega) (by omega), tmod_add_tmod k (by omega)]

theorem toChar_upper (i : Fin 26) : toChar ((i : ℤ) + ('A'.toNat : ℕ)) = upper i := by
  decide +revert

theorem toChar_lower (i : Fin 26) : toChar ((i : ℤ) + ('a'.toNat : ℕ)) = lower i := by
  decide +revert

/-- A shift that is not negative rotates the alphabet. The bounds keep the remainder of C from
being negative. -/
theorem shift_letter_spec (hlo : 0 ≤ k) (hhi : k ≤ 26) (c : Char) :
    shift_letter k c = some (substitute (rotate k) c) := by
  rw [shift_letter]
  rcases letter_cases c with ⟨i, rfl⟩ | ⟨i, rfl⟩ | ⟨hupper, hlower⟩
  · rw [isupper_upper, if_pos rfl, shift_char, toNat_upper, Nat.cast_add, add_sub_cancel_left,
      int32_eq_some (by omega) (by omega), Option.bind_eq_bind, Option.bind_some,
      rem32_of_nonneg (by omega) (by omega) (by omega), Option.bind_some,
      ← val_rotate, toChar_upper, substitute_upper]
  · rw [isupper_lower, if_neg Bool.false_ne_true, islower_lower, if_pos rfl, shift_char,
      toNat_lower, Nat.cast_add, add_sub_cancel_left, int32_eq_some (by omega) (by omega),
      Option.bind_eq_bind, Option.bind_some, rem32_of_nonneg (by omega) (by omega) (by omega),
      Option.bind_some, ← val_rotate, toChar_lower, substitute_lower]
  · rw [hupper, hlower, if_neg Bool.false_ne_true, if_neg Bool.false_ne_true,
      substitute_other _ hupper hlower]

end Shift

/-! ## The cipher -/

section Cipher

variable {text out : List Char} {j k : ℤ}

/-- An `int`. -/
def IsInt (k : ℤ) : Prop :=
  -2 ^ 31 ≤ k ∧ k < 2 ^ 31

/-- **`encrypt_caesar` is a substitution**, by a rotation of the alphabet, for every `int` key. -/
theorem encrypt_caesar_eq (hk : IsInt k) (text out : List Char) :
    encrypt_caesar text out k = translate text out fun c => some (substitute (rotate k) c) := by
  have hpos := Int.emod_nonneg k (show (26 : ℤ) ≠ 0 by omega)
  have hlt := Int.emod_lt_of_pos k (show (0 : ℤ) < 26 by omega)
  have hshift : shift_letter (k % 26) = fun c => some (substitute (rotate k) c) := by
    funext c
    rw [shift_letter_spec hpos (by omega), @rotate_congr _ k (by omega)]
  rw [encrypt_caesar, normalize_spec hk.1 hk.2, Option.bind_eq_bind, Option.bind_some, hshift]

/-- **`decrypt_caesar` is one too**, by the rotation the other way. -/
theorem decrypt_caesar_eq (hk : IsInt k) (text out : List Char) :
    decrypt_caesar text out k
      = translate text out fun c => some (substitute (rotate (-k)) c) := by
  have hpos := Int.emod_nonneg k (show (26 : ℤ) ≠ 0 by omega)
  have hlt := Int.emod_lt_of_pos k (show (0 : ℤ) < 26 by omega)
  have hshift : shift_letter (-(k % 26) + 26) = fun c => some (substitute (rotate (-k)) c) := by
    funext c
    rw [shift_letter_spec (by omega) (by omega), @rotate_congr _ (-k) (by omega)]
  rw [decrypt_caesar, normalize_spec hk.1 hk.2, Option.bind_eq_bind, Option.bind_some, hshift]

/-- What a function that rotates the alphabet leaves in its buffer. -/
theorem translate_rotate (k : ℤ) (hnul : NUL ∉ text) (hlen : text.length < 2 ^ 31)
    (hroom : text.length < out.length) :
    ∃ out', translate text out (fun c => some (substitute (rotate k) c)) = some out'
      ∧ out'.length = out.length ∧ print_string out' = some (text.map (substitute (rotate k))) := by
  refine ⟨_, translate_spec (fun c _ => rfl) hnul hlen hroom, ?_,
    print_string_append_nul (fun c hc h => map_substitute_nul_free hnul (h ▸ hc)) _⟩
  rw [List.length_append, List.length_map, List.length_cons, List.length_drop]
  omega

/-- **Which keys undo which.** A text encrypted with one key is what decryption with another
one gives back if and only if the two leave the same remainder, or nothing in the text is a
letter. -/
theorem decrypts_iff (hj : IsInt j) (hk : IsInt k) (hnul : NUL ∉ text)
    (hlen : text.length < 2 ^ 31) {ciphertext plaintext : List Char}
    (hc : text.length < ciphertext.length) (hp : text.length < plaintext.length) :
    ∃ c cipher p plain, encrypt_caesar text ciphertext j = some c
      ∧ print_string c = some cipher
      ∧ decrypt_caesar cipher plaintext k = some p
      ∧ print_string p = some plain
      ∧ (plain = text ↔ 26 ∣ j - k ∨ ∀ c ∈ text, isalpha c = false) := by
  obtain ⟨c, hrun, -, hprint⟩ := translate_rotate j hnul hlen hc
  obtain ⟨p, hrun', -, hprint'⟩ := @translate_rotate _ plaintext (-k)
    (@map_substitute_nul_free text (rotate j) hnul) (by rwa [List.length_map])
    (by rwa [List.length_map])
  refine ⟨c, _, p, _, by rw [encrypt_caesar_eq hj, hrun], hprint,
    by rw [decrypt_caesar_eq hk, hrun'], hprint', ?_⟩
  rw [map_substitute_rotate, map_substitute_eq_self_iff, Int.sub_eq_add_neg]

theorem decrypts_iff_default :
    ∃ c cipher p plain, encrypt_caesar DEFAULT_TEXT (List.replicate MAX_TEXT NUL) 3 = some c
      ∧ print_string c = some cipher
      ∧ decrypt_caesar cipher (List.replicate MAX_TEXT NUL) (-23) = some p
      ∧ print_string p = some plain
      ∧ (plain = DEFAULT_TEXT ↔
        26 ∣ (3 : ℤ) - (-23) ∨ ∀ c ∈ DEFAULT_TEXT, isalpha c = false) :=
  decrypts_iff ⟨by norm_num, by norm_num⟩ ⟨by norm_num, by norm_num⟩ (by decide) (by decide)
    (by rw [List.length_replicate]; decide) (by rw [List.length_replicate]; decide)

/-- The twenty-six letters, turned. -/
def rotated (k : ℤ) : List Char :=
  (List.finRange 26).map fun i => upper (rotate k i)

/-- The rotated alphabet is the key word of the rotation. -/
theorem spells_rotated (k : ℤ) : Spells (rotated k) (rotate k) := by
  intro i
  refine ⟨upper (rotate k i), ?_, toupper_upper _, tolower_upper _⟩
  rw [charAt, List.getElem?_append_left (by simp [rotated]), rotated, List.getElem?_map]
  simp

/-- So the other program takes it for a key: it has every letter once. -/
theorem validKey_rotated (k : ℤ) : ValidKey (rotated k) := by
  refine ⟨by simp [rotated], ?_, ?_⟩
  · intro c hc
    obtain ⟨i, -, rfl⟩ := List.mem_map.mp hc
    simp [isalpha]
  · rw [rotated, List.map_map]
    apply List.Nodup.map _ (List.nodup_finRange 26)
    intro a b hab
    simp only [Function.comp_apply, toupper_upper] at hab
    exact (rotate k).injective (upper_injective hab)

/-- **The two programs agree.** The cipher is the substitution cipher for the rotated
alphabet, which is one of its keys: in every text the two write the same, and each function
is undefined where the other one is. -/
theorem caesar_is_substitution (hk : IsInt k) :
    validate_key (rotated k) = some true
      ∧ ∀ text out : List Char,
        encrypt_caesar text out k = encrypt_substitution text out (rotated k)
          ∧ decrypt_caesar text out k = decrypt_substitution text out (rotated k) := by
  have hspells := spells_rotated k
  constructor
  -- the rotated alphabet is a key
  · obtain ⟨b, hrun, hb⟩ := validate_key_spec (rotated k)
    rw [hrun, hb.mpr (validKey_rotated k)]
  · intro text out
    constructor
    · have hchar : encrypt_char (rotated k) = fun c => some (substitute (rotate k) c) :=
        funext (encrypt_char_spec hspells)
      rw [encrypt_caesar_eq hk, encrypt_substitution, hchar]
    · obtain ⟨reverse_key, hbuild, hrev⟩ := build_reverse_spec hspells
      -- the table turned round is the rotation back
      have hsymm : (rotate k).symm = rotate (-k) := by
        apply Equiv.ext
        intro i
        rw [Equiv.symm_apply_eq, rotate_rotate, eq_comm, rotate_eq_self_iff]
        omega
      have hchar : decrypt_char reverse_key = fun c => some (substitute (rotate (-k)) c) := by
        funext c
        rw [decrypt_char_spec hrev, hsymm]
      rw [decrypt_caesar_eq hk, decrypt_substitution, hbuild, Option.bind_eq_bind,
        Option.bind_some, hchar]

theorem caesar_is_substitution_three :
    validate_key (rotated 3) = some true
      ∧ ∀ text out : List Char,
        encrypt_caesar text out 3 = encrypt_substitution text out (rotated 3)
          ∧ decrypt_caesar text out 3 = decrypt_substitution text out (rotated 3) :=
  caesar_is_substitution ⟨by norm_num, by norm_num⟩

/-! ## The attack -/

/-- Every rotation but the one that moves nothing, each with the key that undoes it. -/
def attackLines (text : List Char) : List (ℕ × List Char) :=
  (List.range' 1 25).map fun i => (i, text.map (substitute (rotate (-(i : ℤ)))))

/-- Every key is tried on the same ciphertext, and each line is written to the same array before it
is printed. -/
theorem brute_force_attack_spec (hnul : NUL ∉ text) (hlen : text.length < 2 ^ 31)
    {candidate : List Char} (hroom : text.length < candidate.length) :
    brute_force_attack text candidate = some (attackLines text) := by
  obtain ⟨⟨cand, lines⟩, hrun, -, hlines⟩ := forLoop_one_spec (n := 25)
    (f := fun k (s : List Char × List (ℕ × List Char)) => do
      let candidate ← decrypt_caesar text s.1 k
      let line ← print_string candidate
      some (candidate, s.2 ++ [(k, line)]))
    (fun i s => s.1.length = candidate.length
      ∧ s.2 = (List.range' 1 i).map fun i : ℕ =>
        (i, text.map (substitute (rotate (-(i : ℤ))))))
    (s := (candidate, [])) ⟨rfl, rfl⟩ (by
      -- a line more, with the same array written over
      rintro i ⟨cand, lines⟩ hi ⟨hsize, hlines⟩
      obtain ⟨out, hout, hsize', hprint⟩ := @translate_rotate _ cand (-((i + 1 : ℕ) : ℤ))
        hnul hlen (by rw [hsize]; exact hroom)
      refine ⟨(out, lines ++ [(i + 1, text.map (substitute (rotate (-((i + 1 : ℕ) : ℤ)))))]), ?_,
        hsize'.trans hsize, ?_⟩
      · rw [decrypt_caesar_eq ⟨by omega, by omega⟩, hout, Option.bind_eq_bind, Option.bind_some,
          hprint]
        rfl
      · simp only at hlines ⊢
        rw [hlines, List.range'_concat, List.map_append, Nat.one_mul, Nat.add_comm 1 i]
        rfl)
  rw [brute_force_attack, hrun, Option.bind_eq_bind, Option.bind_some]
  exact congrArg some hlines

/-- The text that is encrypted: at most `1023` characters of the argument. -/
def givenText (arg : Option (List Char)) : List Char :=
  (arg.getD DEFAULT_TEXT).take (MAX_TEXT - 1)

/-- The argument is cut where the array ends, and is a string then. -/
theorem read_text_spec {arg : Option (List Char)} (harg : ∀ s ∈ arg, NUL ∉ s) :
    ∃ text, read_text arg = some text ∧ print_string text = some (givenText arg) := by
  have hdefault : (DEFAULT_TEXT ++ List.replicate (MAX_TEXT - DEFAULT_TEXT.length) NUL).length
      = MAX_TEXT - 1 + 1 := by
    rw [List.length_append, List.length_replicate]
    decide
  -- the default text is shorter than the array, the argument may be cut
  cases arg with
  | none =>
      refine ⟨_, rfl, ?_⟩
      rw [show MAX_TEXT - DEFAULT_TEXT.length = 989 + 1 from rfl, List.replicate_succ,
        print_string_append_nul fun c hc h =>
          absurd (h ▸ hc) (show NUL ∉ DEFAULT_TEXT by decide)]
      rfl
  | some s =>
      have hs : ∀ c ∈ s, c ≠ NUL := fun c hc h => harg s rfl (h ▸ hc)
      obtain ⟨copy, text, hcopy, hstore, hcstr, hlen⟩ := strncpy_store_spec hdefault hs []
      refine ⟨text, ?_, ?_⟩
      · rw [read_text, hcopy, Option.bind_eq_bind, Option.bind_some, hstore]
      · have hlt : (cstr text).length < text.length := by
          rw [hcstr, hlen, List.length_take]
          omega
        rw [print_string_of_lt hlt, hcstr]
        rfl

theorem givenText_nul_free {arg : Option (List Char)} (harg : ∀ s ∈ arg, NUL ∉ s) :
    NUL ∉ givenText arg := by
  intro h
  have hmem := List.mem_of_mem_take h
  cases arg with
  | none => exact absurd hmem (by decide)
  | some s => exact harg s rfl hmem

/-- **The attack lists the text under the right key only.** Of every argument, cut to what
`text` holds, and every key, the program reports success; the attack prints a line for each
of the keys from `1` to `25`, and the text is on the line of a key if and only if that is
the remainder of the key used, or nothing in the text is a letter. -/
theorem main_attack {arg : Option (List Char)} {shift : ℤ}
    {encrypted decrypted candidate : List Char} (hshift : IsInt shift)
    (harg : ∀ s ∈ arg, NUL ∉ s) (hencrypted : encrypted.length = MAX_TEXT)
    (hdecrypted : decrypted.length = MAX_TEXT) (hcandidate : candidate.length = MAX_TEXT) :
    ∃ lines, main arg shift encrypted decrypted candidate = some (0, lines)
      ∧ lines.map Prod.fst = List.range' 1 25
      ∧ ∀ key line, (key, line) ∈ lines →
        (line = givenText arg ↔
          shift % 26 = key ∨ ∀ c ∈ givenText arg, isalpha c = false) := by
  have hnul := givenText_nul_free harg
  have hlen : (givenText arg).length < MAX_TEXT := by
    rw [givenText, List.length_take, MAX_TEXT]
    omega
  have hlen31 : (givenText arg).length < 2 ^ 31 := hlen.trans (by decide)
  obtain ⟨text, hread, htext⟩ := read_text_spec harg
  obtain ⟨c, hc, -, hcipher⟩ := @translate_rotate _ encrypted shift hnul hlen31
    (by rwa [hencrypted])
  have hnul' := @map_substitute_nul_free _ (rotate shift) hnul
  obtain ⟨p, hp, -, hplain⟩ := @translate_rotate _ decrypted (-shift) hnul'
    (by rwa [List.length_map]) (by rwa [List.length_map, hdecrypted])
  have hback : ((givenText arg).map (substitute (rotate shift))).map
      (substitute (rotate (-shift))) = givenText arg := by
    rw [map_substitute_rotate, map_substitute_eq_self_iff]
    exact Or.inl ⟨0, by omega⟩
  rw [hback] at hplain
  refine ⟨attackLines ((givenText arg).map (substitute (rotate shift))), ?_, ?_, ?_⟩
  · have hlines := brute_force_attack_spec hnul' (by rwa [List.length_map])
      (show _ < candidate.length by rwa [List.length_map, hcandidate])
    simp only [main, hread, htext, encrypt_caesar_eq hshift, hc, hcipher,
      decrypt_caesar_eq hshift, hp, hplain, hlines, Option.bind_eq_bind, Option.bind_some, if_true]
  · rw [attackLines, List.map_map]
    exact List.map_id _
  · rintro key line hmem
    obtain ⟨i, hi, heq⟩ := List.mem_map.mp hmem
    obtain ⟨rfl, rfl⟩ := Prod.mk.inj heq
    rw [List.mem_range'_1] at hi
    rw [map_substitute_rotate, map_substitute_eq_self_iff]
    apply or_congr_left
    omega

/-- The program as it stands. -/
theorem main_attack_default :
    ∃ lines, main none 3 (List.replicate MAX_TEXT NUL) (List.replicate MAX_TEXT NUL)
        (List.replicate MAX_TEXT NUL) = some (0, lines)
      ∧ lines.map Prod.fst = List.range' 1 25
      ∧ ∀ key line, (key, line) ∈ lines →
        (line = givenText none ↔
          (3 : ℤ) % 26 = key ∨ ∀ c ∈ givenText none, isalpha c = false) :=
  main_attack ⟨by norm_num, by norm_num⟩ (fun _ h => nomatch h) List.length_replicate
    List.length_replicate List.length_replicate

end Cipher

end CourseLabs.CaesarCipher
