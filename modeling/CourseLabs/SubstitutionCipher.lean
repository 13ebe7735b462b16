/-
`substitution_cipher.c`: the keys, and that decryption undoes encryption.

An accepted key spells a permutation of the alphabet (`Spells`), since the check for
duplicates makes it injective and there is no letter it could miss. Encryption applies it,
and the cells of the reverse table hold the inverse, so both are one loop over the text
with a function of the characters (`translate`).

The cells of the table are not initialised by the program: `none` is a cell that has not
been written, and its value is used nowhere.
-/
import CourseLabs.CInt
import CourseLabs.CLoop
import CourseLabs.CMem
import CourseLabs.CType
import Mathlib.Data.Fintype.EquivFin

set_option autoImplicit false

namespace CourseLabs.SubstitutionCipher

open CourseLabs.CInt CourseLabs.CLoop CourseLabs.CMem CourseLabs.CType

/-! ## The program -/

/-- The key the program uses when none is given: the letters in the order of a keyboard. -/
def DEFAULT_KEY : List Char := "QWERTYUIOPASDFGHJKLZXCVBNM".toList

/-- `toupper((unsigned char)c) - 'A'`: the place of a letter in the alphabet, which is the index of
its cell in `seen` and in the reverse table. -/
def letter_index (c : Char) : Option ℕ :=
  idx ((toupper c).toNat - 'A'.toNat)

/-- The variables of `validate_key`. -/
structure Checking where
  i : ℕ
  seen : List Bool

/-- The loop of `validate_key` over the 26 letters of the key. It stops at the first character that
is no letter, and at the first letter it has seen before. -/
def validate_body (key : List Char) (s : Checking) : Option (Pass Checking Bool) :=
  if s.i < 26 then do
    let c ← charAt key s.i
    if !isalpha c then
      some (.done false)
    else do
      let k ← letter_index c
      if ← s.seen[k]? then
        some (.done false) -- duplicate letter in the key
      else do
        let seen ← store s.seen k true
        some (.next { i := s.i + 1, seen })
  else
    some (.done true)

/-- `validate_key`: the length first, then the loop. A shorter key is refused before its letters
are read. -/
def validate_key (key : List Char) : Option Bool :=
  if key.length ≠ 26 then
    some false
  else
    loop (validate_body key) { i := 0, seen := List.replicate 26 false }

/-- The variables of the loop over a text. -/
structure Vars where
  i : ℕ
  out : List Char

/-- The loop the two directions share: one character read, looked up by `f` and stored. The index
is an `int`, so a text of `2 ^ 31` characters is where it ends. -/
def translate_body (text : List Char) (f : Char → Option Char) (v : Vars) :
    Option (Pass Vars Vars) := do
  let ch ← charAt text v.i
  if ch ≠ NUL then do
    let out ← store v.out v.i (← f ch)
    let i ← nat32 (v.i + 1)
    some (.next { i, out })
  else
    some (.done v)

/-- The loop over a text, and the `NUL` behind what it has written. -/
def translate (text out : List Char) (f : Char → Option Char) : Option (List Char) := do
  let v ← loop (translate_body text f) { i := 0, out }
  store v.out text.length NUL

/-- What encryption does to one character: a letter is looked up in the key by its place in the
alphabet, in its own case; everything else is kept. -/
def encrypt_char (key : List Char) (ch : Char) : Option Char :=
  if isupper ch then do
    some (toupper (← charAt key (← idx (ch.toNat - 'A'.toNat))))
  else if islower ch then do
    some (tolower (← charAt key (← idx (ch.toNat - 'a'.toNat))))
  else
    some ch

/-- `encrypt_substitution`: the loop with the key as its table. What is no letter stays, and the
case of a letter too. -/
def encrypt_substitution (plaintext ciphertext key : List Char) : Option (List Char) :=
  translate plaintext ciphertext (encrypt_char key)

/-- The reverse decryption table: for each letter of the key the letter it stands for. A cell that
is not written has no value. -/
def build_reverse (key : List Char) : Option (List (Option Char)) :=
  forLoop 0 26 (List.replicate 26 none) fun i reverse_key => do
    let target_idx ← letter_index (← charAt key i)
    store reverse_key target_idx (some (toChar ('A'.toNat + i)))

/-- What decryption does to one character, by the reverse table. -/
def decrypt_char (reverse_key : List (Option Char)) (ch : Char) : Option Char :=
  if isupper ch then do
    ← reverse_key[← idx (ch.toNat - 'A'.toNat)]?
  else if islower ch then do
    some (tolower (← (← reverse_key[← idx (ch.toNat - 'a'.toNat)]?)))
  else
    some ch

/-- `decrypt_substitution`: the reverse table is built from the key, and then the same loop runs
with it. -/
def decrypt_substitution (ciphertext plaintext key : List Char) : Option (List Char) := do
  let reverse_key ← build_reverse key
  translate ciphertext plaintext (decrypt_char reverse_key)

/-! ## The keys -/

/-- Twenty-six letters, distinct in upper case: a word that spells a permutation of the alphabet.
-/
structure ValidKey (key : List Char) : Prop where
  length_eq : key.length = 26
  letters : ∀ c ∈ key, isalpha c = true
  distinct : (key.map toupper).Nodup

instance (key : List Char) : Decidable (ValidKey key) :=
  have : Decidable (∀ c ∈ key, isalpha c = true) := List.decidableBAll _ key
  decidable_of_iff (key.length = 26 ∧ (∀ c ∈ key, isalpha c = true) ∧ (key.map toupper).Nodup)
    ⟨fun h => ⟨h.1, h.2.1, h.2.2⟩, fun h => ⟨h.length_eq, h.letters, h.distinct⟩⟩

section Keys

variable {key : List Char}

/-- The index of a letter in the alphabet, from its upper case form, as the source computes it with
a subtraction. -/
theorem letter_index_of {c : Char} {k : Fin 26} (h : toupper c = upper k) :
    letter_index c = some (k : ℕ) := by
  rw [letter_index, h, toNat_upper, Nat.cast_add, add_sub_cancel_left, idx_natCast]

/-- The letters of `pre` have been seen, and no other. -/
structure Seen (pre : List Char) (s : Checking) : Prop where
  i_eq : s.i = pre.length
  letters : ∀ c ∈ pre, isalpha c = true
  distinct : (pre.map toupper).Nodup
  cell : ∀ k : Fin 26, s.seen[(k : ℕ)]? = some (decide (upper k ∈ pre.map toupper))

/-- A letter that is new is marked, and anything else ends the check. -/
theorem validate_body_spec {pre rest : List Char} {s : Checking} (hlen : key.length = 26)
    (hkey : key = pre ++ rest) (hs : Seen pre s) :
    (∃ b, validate_body key s = some (.done b) ∧ (b = true ↔ ValidKey key))
      ∨ ∃ s' c rest', validate_body key s = some (.next s') ∧ rest = c :: rest'
        ∧ Seen (pre ++ [c]) s' := by
  obtain ⟨hi, hletters, hdistinct, hcell⟩ := hs
  rw [validate_body, hi]
  cases rest with
  | nil =>
      left
      rw [List.append_nil] at hkey
      rw [if_neg (by rw [← hkey]; omega)]
      exact ⟨true, rfl, iff_of_true rfl ⟨hlen, by rwa [hkey], by rwa [hkey]⟩⟩
  | cons c rest =>
      have hlt : pre.length < 26 := by
        rw [← hlen, hkey, List.length_append, List.length_cons]
        omega
      have hmem : c ∈ key := by
        rw [hkey]
        exact List.mem_append_right pre List.mem_cons_self
      rw [if_pos hlt, hkey, charAt_append_cons, Option.bind_eq_bind, Option.bind_some, ← hkey]
      by_cases halpha : isalpha c = true
      · obtain ⟨k, hk, -⟩ := exists_place halpha
        simp only [halpha, Bool.not_true, Bool.false_eq_true, if_false, letter_index_of hk,
          Option.bind_eq_bind, Option.bind_some, hcell k, decide_eq_true_eq]
        by_cases hseen : upper k ∈ pre.map toupper
        · -- the letter is in the key twice
          left
          rw [if_pos hseen]
          refine ⟨false, rfl, iff_of_false Bool.false_ne_true fun hvalid => ?_⟩
          have hnodup := hvalid.distinct
          rw [hkey, List.map_append, List.map_cons, hk, List.nodup_append] at hnodup
          exact hnodup.2.2 _ hseen _ List.mem_cons_self rfl
        · right
          rw [if_neg hseen]
          have hsize : (k : ℕ) < s.seen.length := by
            by_contra hge
            have := hcell k
            rw [List.getElem?_eq_none (by omega)] at this
            cases this
          rw [store_of_lt hsize, Option.bind_some]
          refine ⟨_, c, rest, rfl, rfl, ?_, ?_, ?_, ?_⟩
          · rw [List.length_append, List.length_singleton]
          · intro c' hc'
            rcases List.mem_append.mp hc' with hc' | hc'
            · exact hletters c' hc'
            · rw [List.mem_singleton.mp hc']
              exact halpha
          · rw [List.map_append, List.map_singleton, hk, List.nodup_append]
            refine ⟨hdistinct, List.nodup_singleton _, ?_⟩
            rintro a ha b hb rfl
            rw [List.mem_singleton] at hb
            exact hseen (hb ▸ ha)
          · intro k'
            rw [List.map_append, List.map_singleton, hk]
            by_cases hkk : k' = k
            · rw [hkk, List.getElem?_set_self hsize]
              simp
            · have hne : (k : ℕ) ≠ k' := fun h => hkk (Fin.ext h.symm)
              rw [List.getElem?_set_ne hne, hcell k']
              have hother : upper k' ≠ upper k := fun h => hkk (upper_injective h)
              simp [hother]
      · left
        simp only [halpha, Bool.not_false, if_true]
        exact ⟨false, rfl, iff_of_false Bool.false_ne_true fun hvalid =>
          halpha (hvalid.letters c hmem)⟩

/-- `validate_key` accepts the keys of `26` distinct letters. -/
theorem validate_key_spec (key : List Char) :
    ∃ b, validate_key key = some b ∧ (b = true ↔ ValidKey key) := by
  rw [validate_key]
  by_cases hlen : key.length = 26
  · rw [if_neg (not_not_intro hlen)]
    -- what has been read so far is seen, each letter once
    refine loop_spec (fun s => 26 - s.i) (fun s => ∃ pre rest, key = pre ++ rest ∧ Seen pre s)
      (fun b => b = true ↔ ValidKey key) ?_ ⟨[], key, rfl, rfl, ?_, List.nodup_nil, ?_⟩
    · rintro s ⟨pre, rest, hkey, hs⟩
      rcases validate_body_spec hlen hkey hs with hdone | ⟨s', c, rest', hnext, rfl, hs'⟩
      · exact Or.inl hdone
      · right
        have hi := hs'.i_eq
        have hlt := congrArg List.length hkey
        rw [List.length_append, List.length_cons, hlen] at hlt
        rw [List.length_append, List.length_singleton] at hi
        refine ⟨s', hnext, ⟨pre ++ [c], rest', ?_, hs'⟩, ?_⟩
        · rw [hkey, List.append_assoc]
          rfl
        · rw [hs.i_eq, hi]
          omega
    · intro c hc
      exact absurd hc List.not_mem_nil
    · intro k
      rw [List.getElem?_replicate, if_pos k.isLt]
      rfl
  · rw [if_pos hlen]
    exact ⟨false, rfl, iff_of_false Bool.false_ne_true fun h => hlen h.length_eq⟩

/-- The key, as a permutation of the alphabet: its character at a place is the letter the place
goes to, in one case or the other. -/
def Spells (key : List Char) (σ : Equiv.Perm (Fin 26)) : Prop :=
  ∀ i : Fin 26, ∃ c, charAt key i = some c ∧ toupper c = upper (σ i) ∧ tolower c = lower (σ i)

/-- **A valid key is a permutation**: with no letter twice, none is left out. -/
theorem ValidKey.exists_spells (h : ValidKey key) : ∃ σ, Spells key σ := by
  have hlt : ∀ i : Fin 26, (i : ℕ) < key.length := fun i => by
    rw [h.length_eq]
    exact i.isLt
  have hget : ∀ i : Fin 26, key[(i : ℕ)]? = some (key.get ⟨i, hlt i⟩) :=
    fun i => List.getElem?_eq_getElem (hlt i)
  have hplace : ∀ i : Fin 26, ∃ k, toupper (key.get ⟨i, hlt i⟩) = upper k
      ∧ tolower (key.get ⟨i, hlt i⟩) = lower k :=
    fun i => exists_place (h.letters _ (List.getElem_mem _))
  choose f hf using hplace
  have hinj : Function.Injective f := by
    intro i j hij
    have heq : (key.map toupper)[(i : ℕ)]? = (key.map toupper)[(j : ℕ)]? := by
      rw [List.getElem?_map, List.getElem?_map, hget, hget, Option.map_some, Option.map_some,
        (hf i).1, (hf j).1, hij]
    have hsize : (i : ℕ) < (key.map toupper).length := by
      rw [List.length_map]
      exact hlt i
    exact Fin.ext ((List.getElem?_inj hsize h.distinct).mp heq)
  refine ⟨Equiv.ofBijective f (Finite.injective_iff_bijective.mp hinj), fun i => ?_⟩
  refine ⟨key.get ⟨i, hlt i⟩, ?_, hf i⟩
  rw [charAt, List.getElem?_append_left (hlt i), hget]

end Keys

/-! ## The text -/

section Text

variable {text out key : List Char} {f : Char → Option Char} {σ : Equiv.Perm (Fin 26)}

/-- The loop has gone over `pre` and written `g` of its characters. -/
structure Translating (g : Char → Char) (buffer pre : List Char) (v : Vars) : Prop where
  i_eq : v.i = pre.length
  out : v.out = pre.map g ++ buffer.drop pre.length

/-- What is written, when the text is at its end. -/
theorem translate_spec {g : Char → Char} (hf : ∀ c ∈ text, f c = some (g c)) (hnul : NUL ∉ text)
    (hlen : text.length < 2 ^ 31) (hroom : text.length < out.length) :
    translate text out f = some (text.map g ++ NUL :: out.drop (text.length + 1)) := by
  obtain ⟨v, hrun, hv⟩ := loop_spec (f := translate_body text f) (fun v => text.length - v.i)
    (fun v => ∃ pre rest, text = pre ++ rest ∧ Translating g out pre v)
    (Translating g out text) (by
      rintro v ⟨pre, rest, rfl, hi, hout⟩
      rw [translate_body, hi, charAt_append, Option.bind_eq_bind, Option.bind_some]
      -- at the end of the text the NUL stops the loop
      cases rest with
      | nil =>
          left
          rw [List.append_nil]
          exact ⟨v, if_neg (not_not_intro rfl), hi, hout⟩
      | cons c rest =>
          right
          have hc : c ≠ NUL := fun h => hnul (by simp [h])
          rw [List.length_append, List.length_cons] at hlen hroom
          -- one character more is written behind those before
          have hwrite : store v.out pre.length (g c)
              = some (pre.map g ++ g c :: out.drop (pre.length + 1)) := by
            have hcell := store_append_cons (pre.map g) out[pre.length] (g c)
              (out.drop (pre.length + 1))
            rwa [List.length_map, ← List.drop_eq_getElem_cons, ← hout] at hcell
          rw [List.headD_cons, if_pos hc, hf c (by simp), Option.bind_eq_bind, Option.bind_some,
            hwrite, Option.bind_some, nat32_of_lt (by omega), Option.bind_eq_bind,
            Option.bind_some]
          refine ⟨_, rfl, ⟨pre ++ [c], rest, by simp, ?_, ?_⟩, ?_⟩
          · rw [List.length_append, List.length_singleton]
          · rw [List.length_append, List.length_singleton, List.map_append, List.append_assoc]
            rfl
          · simp only [List.length_append, List.length_cons]
            omega)
    (s := { i := 0, out }) ⟨[], text, rfl, rfl, rfl⟩
  have hcell := store_append_cons (text.map g) out[text.length] NUL (out.drop (text.length + 1))
  rw [List.length_map, ← List.drop_eq_getElem_cons, ← hv.out] at hcell
  rw [translate, hrun, Option.bind_eq_bind, Option.bind_some, hcell]

/-- Encryption permutes the letters, each within its own case, and leaves the other characters
alone. -/
theorem encrypt_char_spec (hσ : Spells key σ) (c : Char) :
    encrypt_char key c = some (substitute σ c) := by
  rw [encrypt_char]
  rcases letter_cases c with ⟨k, rfl⟩ | ⟨k, rfl⟩ | ⟨hupper, hlower⟩
  · obtain ⟨x, hx, hx', -⟩ := hσ k
    rw [isupper_upper, if_pos rfl, toNat_upper, Nat.cast_add, add_sub_cancel_left, idx_natCast,
      Option.bind_eq_bind, Option.bind_some, hx, Option.bind_eq_bind, Option.bind_some, hx',
      substitute_upper]
  · obtain ⟨x, hx, -, hx'⟩ := hσ k
    rw [isupper_lower, if_neg Bool.false_ne_true, islower_lower, if_pos rfl, toNat_lower,
      Nat.cast_add, add_sub_cancel_left, idx_natCast, Option.bind_eq_bind, Option.bind_some, hx,
      Option.bind_eq_bind, Option.bind_some, hx', substitute_lower]
  · rw [hupper, hlower, if_neg Bool.false_ne_true, if_neg Bool.false_ne_true,
      substitute_other σ hupper hlower]

/-- The table the text is decrypted with: every cell is written, with the letter that goes to
its place. -/
structure Reverse (σ : Equiv.Perm (Fin 26)) (reverse_key : List (Option Char)) : Prop where
  length_eq : reverse_key.length = 26
  cell : ∀ i : Fin 26, reverse_key[(σ i : ℕ)]? = some (some (upper i))

/-- The table decryption builds from a permutation is its inverse, with no cell left as it was. -/
theorem build_reverse_spec (hσ : Spells key σ) :
    ∃ reverse_key, build_reverse key = some reverse_key ∧ Reverse σ reverse_key := by
  obtain ⟨table, hrun, hlen, hcell⟩ := forLoop_spec
    (f := fun i reverse_key => do
      let target_idx ← letter_index (← charAt key i)
      store reverse_key target_idx (some (toChar ('A'.toNat + i))))
    (fun n table => table.length = 26
      ∧ ∀ j : Fin 26, (j : ℕ) < n → table[(σ j : ℕ)]? = some (some (upper j)))
    (Nat.zero_le 26) (s := List.replicate 26 none)
    ⟨List.length_replicate, fun j hj => absurd hj (Nat.not_lt_zero _)⟩ (by
      rintro n table - hn ⟨hlen, hcell⟩
      obtain ⟨c, hc, hplace, -⟩ := hσ ⟨n, hn⟩
      have hroom : (σ ⟨n, hn⟩ : ℕ) < table.length := by
        rw [hlen]
        exact (σ ⟨n, hn⟩).isLt
      have hletter : toChar ('A'.toNat + (n : ℤ)) = upper ⟨n, hn⟩ := by
        rw [toChar, upper, ← Nat.cast_add, Int.emod_eq_of_lt (by omega)
          (by have : 'A'.toNat = 65 := rfl; omega), Int.toNat_natCast]
      rw [hc, Option.bind_eq_bind, Option.bind_some, letter_index_of hplace, Option.bind_eq_bind,
        Option.bind_some, store_of_lt hroom, hletter]
      refine ⟨_, rfl, by rw [List.length_set, hlen], fun j hj => ?_⟩
      by_cases hjn : j = ⟨n, hn⟩
      · rw [hjn, List.getElem?_set_self hroom]
      · -- another letter has another cell
        have hne : (σ ⟨n, hn⟩ : ℕ) ≠ σ j := fun h => hjn (σ.injective (Fin.ext h)).symm
        have hlt : (j : ℕ) ≠ n := fun h => hjn (Fin.ext h)
        rw [List.getElem?_set_ne hne]
        exact hcell j (by omega))
  exact ⟨table, hrun, hlen, fun i => hcell i i.isLt⟩

/-- No cell is left as it was found: every letter stands in the key, so its cell is written. -/
theorem Reverse.initialised {reverse_key : List (Option Char)} (h : Reverse σ reverse_key) :
    ∀ cell ∈ reverse_key, cell ≠ none := by
  intro cell hmem
  obtain ⟨i, hi, rfl⟩ := List.mem_iff_getElem.mp hmem
  have hcell := h.cell (σ.symm ⟨i, h.length_eq ▸ hi⟩)
  rw [Equiv.apply_symm_apply, List.getElem?_eq_getElem hi, Option.some.injEq] at hcell
  rw [hcell]
  exact Option.some_ne_none _

/-- Hence decryption substitutes by the inverse permutation, in both cases of a letter. -/
theorem decrypt_char_spec {reverse_key : List (Option Char)} (h : Reverse σ reverse_key)
    (c : Char) : decrypt_char reverse_key c = some (substitute σ.symm c) := by
  have hcell : ∀ k : Fin 26, reverse_key[(k : ℕ)]? = some (some (upper (σ.symm k))) := by
    intro k
    rw [← h.cell, Equiv.apply_symm_apply]
  rw [decrypt_char]
  rcases letter_cases c with ⟨k, rfl⟩ | ⟨k, rfl⟩ | ⟨hupper, hlower⟩
  · rw [isupper_upper, if_pos rfl, toNat_upper, Nat.cast_add, add_sub_cancel_left, idx_natCast,
      Option.bind_eq_bind, Option.bind_some, hcell, Option.bind_eq_bind, Option.bind_some,
      substitute_upper]
  · rw [isupper_lower, if_neg Bool.false_ne_true, islower_lower, if_pos rfl, toNat_lower,
      Nat.cast_add, add_sub_cancel_left, idx_natCast, Option.bind_eq_bind, Option.bind_some, hcell,
      Option.bind_eq_bind, Option.bind_some, Option.bind_eq_bind, Option.bind_some, tolower_upper,
      substitute_lower]
  · rw [hupper, hlower, if_neg Bool.false_ne_true, if_neg Bool.false_ne_true,
      substitute_other σ.symm hupper hlower]

/-- A substitution makes no NUL, so the text keeps its length as a C string. -/
theorem map_substitute_nul_free (hnul : NUL ∉ text) : NUL ∉ text.map (substitute σ) := by
  intro h
  obtain ⟨c, hc, hsub⟩ := List.mem_map.mp h
  exact substitute_ne_nul σ (fun h => hnul (h ▸ hc)) hsub

/-- Substituting by a permutation and then by its inverse gives the text back. -/
theorem map_substitute_symm (text : List Char) :
    (text.map (substitute σ)).map (substitute σ.symm) = text := by
  rw [List.map_map]
  exact List.map_id'' (substitute_symm σ) text

/-- A function whose characters are permuted: both directions are this loop, with a permutation and
with its inverse. -/
theorem translate_substitute (hf : ∀ c, f c = some (substitute σ c)) (hnul : NUL ∉ text)
    (hlen : text.length < 2 ^ 31) (hroom : text.length < out.length) :
    ∃ out', translate text out f = some out' ∧ cstr out' = text.map (substitute σ) := by
  refine ⟨_, translate_spec (fun c _ => hf c) hnul hlen hroom, cstr_append_nul ?_ _⟩
  intro c hc h
  exact map_substitute_nul_free hnul (h ▸ hc)

/-- The two functions undo each other on `text`, and decryption reads no cell of its table that
it has not written. -/
structure Inverts (key text : List Char) : Prop where
  initialised : ∃ reverse_key, build_reverse key = some reverse_key
    ∧ reverse_key.length = 26 ∧ ∀ cell ∈ reverse_key, cell ≠ none
  decrypt_encrypt : ∀ ciphertext plaintext : List Char, text.length < ciphertext.length →
    text.length < plaintext.length → ∃ c p, encrypt_substitution text ciphertext key = some c
      ∧ decrypt_substitution (cstr c) plaintext key = some p ∧ cstr p = text
  encrypt_decrypt : ∀ ciphertext plaintext : List Char, text.length < ciphertext.length →
    text.length < plaintext.length → ∃ p c, decrypt_substitution text plaintext key = some p
      ∧ encrypt_substitution (cstr p) ciphertext key = some c ∧ cstr c = text

/-- A key that spells a permutation is inverted on every text the `int` index can walk. -/
theorem Spells.inverts (hσ : Spells key σ) (hnul : NUL ∉ text) (hlen : text.length < 2 ^ 31) :
    Inverts key text := by
  obtain ⟨reverse_key, hbuild, hrev⟩ := build_reverse_spec hσ
  have hdecrypt : ∀ t p : List Char, decrypt_substitution t p key
      = translate t p (decrypt_char reverse_key) := by
    intro t p
    rw [decrypt_substitution, hbuild, Option.bind_eq_bind, Option.bind_some]
  refine ⟨⟨reverse_key, hbuild, hrev.length_eq, hrev.initialised⟩, ?_, ?_⟩
  · intro ciphertext plaintext hc hp
    obtain ⟨c, hrun, hcstr⟩ := translate_substitute (encrypt_char_spec hσ) hnul hlen hc
    obtain ⟨p, hrun', hcstr'⟩ := translate_substitute (decrypt_char_spec hrev)
      (@map_substitute_nul_free text σ hnul) (by rwa [List.length_map])
      (show (text.map (substitute σ)).length < plaintext.length by rwa [List.length_map])
    rw [map_substitute_symm] at hcstr'
    exact ⟨c, p, hrun, by rw [hcstr, hdecrypt, hrun'], hcstr'⟩
  · intro ciphertext plaintext hc hp
    obtain ⟨p, hrun, hcstr⟩ := translate_substitute (decrypt_char_spec hrev) hnul hlen hp
    obtain ⟨c, hrun', hcstr'⟩ := translate_substitute (encrypt_char_spec hσ)
      (@map_substitute_nul_free text σ.symm hnul) (by rwa [List.length_map])
      (show (text.map (substitute σ.symm)).length < ciphertext.length by rwa [List.length_map])
    have hback := @map_substitute_symm σ.symm text
    rw [Equiv.symm_symm] at hback
    rw [hback] at hcstr'
    exact ⟨p, c, by rw [hdecrypt, hrun], by rw [hcstr]; exact hrun', hcstr'⟩

end Text

/-- **The cipher inverts for every key it accepts**, and it accepts the permutations of the
alphabet: 26 letters, in either case, none of them twice. -/
theorem substitution_inverts (key text : List Char) :
    (∃ b, validate_key key = some b ∧ (b = true ↔ ValidKey key))
      ∧ (validate_key key = some true → NUL ∉ text → text.length < 2 ^ 31 → Inverts key text) := by
  obtain ⟨b, hrun, hb⟩ := validate_key_spec key
  refine ⟨⟨b, hrun, hb⟩, fun hkey hnul hlen => ?_⟩
  rw [hrun, Option.some.injEq] at hkey
  obtain ⟨σ, hσ⟩ := (hb.mp hkey).exists_spells
  exact hσ.inverts hnul hlen

/-- What `test.sh` runs. -/
theorem substitution_inverts_test :
    Inverts DEFAULT_KEY "Selected Topics in Computer Networks".toList := by
  obtain ⟨b, hrun, hb⟩ := validate_key_spec DEFAULT_KEY
  have hvalid : b = true := hb.mpr (by decide)
  rw [hvalid] at hrun
  exact (substitution_inverts DEFAULT_KEY "Selected Topics in Computer Networks".toList).2 hrun
    (by decide) (by decide)

/-! ## A text that is too long -/

/-- The position of the `NUL` has to be an `int`. -/
theorem length_lt_of_translate {text out out' : List Char} {f : Char → Option Char}
    (hnul : NUL ∉ text) (h : translate text out f = some out') : text.length < 2 ^ 31 := by
  obtain ⟨v, hrun, -⟩ := Option.bind_eq_some_iff.mp h
  refine loop_inv (fun v : Vars => v.i < 2 ^ 31) (fun _ => text.length < 2 ^ 31) ?_ ?_
    (show (0 : ℕ) < 2 ^ 31 from Nat.two_pow_pos 31) hrun
  · intro v v' _ hbody
    obtain ⟨ch, -, hbody⟩ := Option.bind_eq_some_iff.mp hbody
    split at hbody
    · obtain ⟨x, -, hbody⟩ := Option.bind_eq_some_iff.mp hbody
      obtain ⟨out, -, hbody⟩ := Option.bind_eq_some_iff.mp hbody
      obtain ⟨i, hi, hbody⟩ := Option.bind_eq_some_iff.mp hbody
      obtain ⟨rfl, hlt⟩ := nat32_eq_some_iff.mp hi
      cases hbody
      exact hlt
    · cases hbody
  · intro v v' hv hbody
    obtain ⟨ch, hch, hbody⟩ := Option.bind_eq_some_iff.mp hbody
    split at hbody
    · obtain ⟨x, -, hbody⟩ := Option.bind_eq_some_iff.mp hbody
      obtain ⟨out, -, hbody⟩ := Option.bind_eq_some_iff.mp hbody
      obtain ⟨i, -, hbody⟩ := Option.bind_eq_some_iff.mp hbody
      cases hbody
    · next hstop =>
      -- the loop stops at a `NUL`, and there is none before the end
      rw [not_not.mp hstop] at hch
      by_contra hge
      rw [charAt, List.getElem?_append_left (by omega)] at hch
      exact hnul (List.mem_of_getElem? hch)

/-- On a text of `2 ^ 31` letters the index would have to count past the largest `int`. -/
theorem not_inverts_long {n : ℕ} (hn : n = 2 ^ 31) :
    NUL ∉ List.replicate n 'A' ∧ ¬ Inverts DEFAULT_KEY (List.replicate n 'A') := by
  have hnul : NUL ∉ List.replicate n 'A' := by
    rw [List.mem_replicate]
    rintro ⟨-, h⟩
    exact absurd h (by decide)
  refine ⟨hnul, fun h => ?_⟩
  have hroom : (List.replicate n 'A').length < (List.replicate (n + 1) NUL).length := by
    rw [List.length_replicate, List.length_replicate]
    omega
  obtain ⟨c, p, hrun, -⟩ := h.decrypt_encrypt _ _ hroom hroom
  have hlt := length_lt_of_translate hnul hrun
  rw [List.length_replicate] at hlt
  omega

/-- So the two functions do not undo each other on every text. -/
theorem not_substitution_inverts :
    NUL ∉ List.replicate (2 ^ 31) 'A' ∧ ¬ Inverts DEFAULT_KEY (List.replicate (2 ^ 31) 'A') :=
  not_inverts_long rfl

end CourseLabs.SubstitutionCipher
