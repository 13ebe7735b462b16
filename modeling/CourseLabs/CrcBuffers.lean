/-
`crc.c`, `main`: whether the arrays `temp` and `remainder` are long enough.

`main` cuts the data and the generator to `2047` characters each and looks at nothing else,
so they may be any characters but `NUL`. The dividend has a cell for each of both, and its
`NUL` is the last of them: with `2048` together it ends with the array. Two short arguments go wrong
as well. Without a generator the remainder has `-1` characters, and with a generator of one
character and no data the codeword is empty, so that the flip of its first character
overwrites the `NUL`.

The division is followed here through arbitrary characters; what it computes is the matter
of `Crc`.
-/
import CourseLabs.Crc

set_option autoImplicit false

namespace CourseLabs.Crc

open CourseLabs.CInt CourseLabs.CLoop CourseLabs.CMem

/-! ## The program -/

/-- `char s[MAX_LEN] = "…"`: the rest of the array is zero. -/
def array_of (s : List Char) : List Char :=
  s ++ List.replicate (MAX_LEN - s.length) NUL

/-- The data when the command line gives none. -/
def default_data : List Char :=
  ['1', '0', '0', '1', '0', '0']

/-- The generator when the command line gives none. -/
def default_generator : List Char :=
  ['1', '1', '0', '1']

/-- The two strings, from the arguments if there are any. -/
def read_args : Option (List Char × List Char) → Option (List Char × List Char)
  | none => some (array_of default_data, array_of default_generator)
  | some (data, generator) => do
    let data ← strncpy (array_of default_data) (data ++ [NUL]) (MAX_LEN - 1)
    let generator ← strncpy (array_of default_generator) (generator ++ [NUL]) (MAX_LEN - 1)
    some (data, generator)

/-- Flip first bit -/
def flip_first (codeword : List Char) : Option (List Char) := do
  let c ← codeword[0]?
  store codeword 0 (if c = '1' then '0' else '1')

/-- An array of `MAX_LEN` cells. -/
abbrev Cells := {b : List Char // b.length = MAX_LEN}

/-- What the local arrays contain at first: those of `main`, and `temp` in each of the three
calls. -/
structure Locals where
  remainder : Cells
  codeword : Cells
  corrupt_codeword : Cells
  temp_compute : Cells
  temp_check : Cells
  temp_corrupt : Cells

/-- What is printed, and the exit status: the two arguments, the frame, and the receiver's answer
to it with and without an error. -/
structure Report where
  data : List Char
  generator : List Char
  remainder : List Char
  codeword : List Char
  status1 : ℤ
  corrupt_codeword : List Char
  status2 : ℤ
  exit : ℤ

/-- `main`: data and generator from the command line or the defaults, the checksum appended, the
word checked, then checked again with its first bit inverted. Every array access is checked. -/
def main (args : Option (List Char × List Char)) (locals : Locals) : Option Report := do
  let (data, generator) ← read_args args
  let data ← print_string data
  let generator ← print_string generator
  let remainder ← compute_crc locals.temp_compute.1 data generator locals.remainder.1
  let remainder ← print_string remainder
  -- Construct transmitted codeword = Data + Remainder
  let codeword ← print_string (snprintf locals.codeword.1 (data ++ remainder))
  let status1 ← check_crc locals.temp_check.1 codeword generator
  let corrupt_codeword ← strcpy locals.corrupt_codeword.1 codeword
  let corrupt_codeword ← flip_first corrupt_codeword
  let corrupt_codeword ← print_string corrupt_codeword
  let status2 ← check_crc locals.temp_corrupt.1 corrupt_codeword generator
  some { data, generator, remainder, codeword, status1, corrupt_codeword, status2,
         exit := if status1 ≠ 0 ∧ status2 = 0 then 0 else 1 }

/-- Whatever the arrays contain at first, no index leaves them. -/
def BuffersSuffice (args : Option (List Char × List Char)) : Prop :=
  ∀ locals : Locals, (main args locals).isSome

/-! ## The division of arbitrary characters -/

/-- A buffer that starts with `n` characters, none of them `NUL`, and goes on with `post`. -/
def Filled (n : ℕ) (post s : List Char) : Prop :=
  ∃ w, s = w ++ post ∧ w.length = n ∧ ∀ c ∈ w, c ≠ NUL

section Division

variable {n : ℕ} {post s g : List Char}

/-- A cell of the written part has something in it. -/
theorem Filled.cell (h : Filled n post s) {k : ℕ} (hk : k < n) : ∃ c, s[k]? = some c := by
  obtain ⟨w, rfl, rfl, -⟩ := h
  exact ⟨w[k], by rw [List.getElem?_append_left hk, List.getElem?_eq_getElem hk]⟩

/-- A cell of the word is overwritten by another character that is no `NUL`, so the word is as long
as it was. -/
theorem Filled.store (h : Filled n post s) {k : ℕ} (hk : k < n) {x : Char} (hx : x ≠ NUL) :
    ∃ s', store s k x = some s' ∧ Filled n post s' := by
  obtain ⟨w, rfl, rfl, hw⟩ := h
  refine ⟨w.set k x ++ post, ?_, w.set k x, rfl, List.length_set, ?_⟩
  · rw [store_of_lt (by rw [List.length_append]; omega), List.set_append_left _ _ hk]
  · intro c hc
    rcases List.mem_or_eq_of_mem_set hc with hc | rfl
    · exact hw c hc
    · exact hx

/-- `xor_op` stays in the word when the divisor does: it touches as many cells as the divisor is
long. -/
theorem xor_op_filled {start : ℕ} (h : Filled n post s) (hfit : start + g.length ≤ n) :
    ∃ s', xor_op s g start g.length = some s' ∧ Filled n post s' := by
  apply forLoop_spec (fun _ s => Filled n post s) (Nat.zero_le g.length) h
  rintro i s - hi hs
  obtain ⟨x, hx⟩ := hs.cell (show start + i < n by omega)
  rw [hx, List.getElem?_eq_getElem hi]
  simp only [Option.bind_eq_bind, Option.bind_some]
  apply hs.store (by omega)
  split
  · decide
  · decide

/-- The division stays in the word when its last step does. -/
theorem divide_filled {last : ℤ} (h : Filled n post s) (hg : 0 < g.length)
    (hfit : last + g.length ≤ n) : ∃ s', divide g last s = some s' ∧ Filled n post s' := by
  apply forLoop_spec (fun _ s => Filled n post s) (Nat.zero_le _) h
  rintro i s - hi hs
  obtain ⟨c, hc⟩ := hs.cell (show i < n by omega)
  rw [hc, Option.bind_eq_bind, Option.bind_some]
  split
  · exact xor_op_filled hs (by omega)
  · exact ⟨s, rfl, hs⟩

end Division

/-! ## The two sides -/

section Sides

variable {temp d g : List Char}

/-- **The sender**, on any characters its array has room for. -/
theorem compute_crc_text {remainder : List Char} (hd : ∀ c ∈ d, c ≠ NUL) (hg : 0 < g.length)
    (htemp : temp.length = MAX_LEN) (hrem : remainder.length = MAX_LEN)
    (hlen : d.length + g.length ≤ MAX_LEN) :
    ∃ r tail, compute_crc temp d g remainder = some (r ++ NUL :: tail)
      ∧ r.length + 1 = g.length ∧ ∀ c ∈ r, c ≠ NUL := by
  rw [MAX_LEN] at htemp hrem hlen
  obtain ⟨rest, hprep⟩ := @prepare_spec temp d g.length hg (by omega)
  have hfilled : Filled (d.length + (g.length - 1)) (NUL :: rest)
      (d ++ List.replicate (g.length - 1) '0' ++ NUL :: rest) := by
    refine ⟨_, rfl, by simp, List.forall_mem_append.mpr ⟨hd, fun c hc => ?_⟩⟩
    rw [List.eq_of_mem_replicate hc]
    decide
  -- the last step ends with the word: `data_len - 1` is its start
  obtain ⟨_, hdiv, w, rfl, hw, hnul⟩ := divide_filled hfilled hg
    (show (d.length : ℤ) + g.length - 1 - g.length + g.length ≤ (d.length + (g.length - 1) : ℕ)
      by omega)
  have hdrop : (w ++ NUL :: rest).drop d.length = w.drop d.length ++ NUL :: rest :=
    List.drop_append_of_le_length (by omega)
  have hlen' : (w.drop d.length).length + 1 = g.length := by
    rw [List.length_drop]
    omega
  have hnul' : ∀ c ∈ w.drop d.length, c ≠ NUL := fun c hc => hnul c (List.mem_of_mem_drop hc)
  obtain ⟨tail, hrun⟩ := compute_crc_of_divide hprep hdiv hdrop hnul' hlen' (by omega)
    (show (w.drop d.length).length < remainder.length by omega)
  exact ⟨_, tail, hrun, hlen', hnul'⟩

/-- Without a generator the sender copies `-1` characters, and `strncpy` takes that for a size. -/
theorem compute_crc_nil {remainder : List Char} (hrem : remainder.length = MAX_LEN) :
    compute_crc temp d [] remainder = none := by
  have hsize : uint 64 (((([] : List Char).length : ℕ) : ℤ) - 1) = 2 ^ 64 - 1 := by decide
  rw [compute_crc]
  cases prepare temp d ([] : List Char).length with
  | none => rfl
  | some temp =>
      simp only [Option.bind_eq_bind, Option.bind_some]
      cases divide [] ((d.length : ℤ) + ([] : List Char).length - 1 - ([] : List Char).length)
          temp with
      | none => rfl
      | some temp =>
          rw [Option.bind_some, hsize, strncpy, if_neg (by rw [hrem, MAX_LEN]; omega)]
          rfl

/-- A dividend that is too long leaves the sender's array: at the latest its `NUL`. -/
theorem prepare_none {n : ℕ} (hlen : temp.length < d.length + n) : prepare temp d n = none := by
  rw [prepare, Option.eq_none_iff_forall_ne_some]
  intro out hout
  obtain ⟨copy, hcopy, hout⟩ := Option.bind_eq_some_iff.mp hout
  obtain ⟨s, hs, hout⟩ := Option.bind_eq_some_iff.mp hout
  obtain ⟨last, hlast, hout⟩ := Option.bind_eq_some_iff.mp hout
  -- no step changes the length of the array
  have hsize : copy.length = temp.length := by
    rw [strcpy] at hcopy
    split at hcopy
    · next hlt =>
      cases hcopy
      rw [List.length_append, List.length_cons, List.length_drop]
      omega
    · cases hcopy
  have hs : s.length = temp.length := forLoop_inv (fun s => s.length = temp.length) hsize
    (fun i s s' hs hstore => by rw [length_of_store hstore, hs]) hs
  -- the last write is outside it, below or above
  rw [idx] at hlast
  split at hlast
  · cases hlast
    rw [store, if_neg (by omega)] at hout
    cases hout
  · cases hlast

/-- Past the size of `temp` the division writes outside it. -/
theorem compute_crc_none {remainder : List Char} (htemp : temp.length = MAX_LEN)
    (hlen : MAX_LEN < d.length + g.length) : compute_crc temp d g remainder = none := by
  rw [compute_crc, prepare_none (by omega)]
  rfl

/-- **The receiver**, on any characters its array has room for. -/
theorem check_crc_isSome {c : List Char} (hc : ∀ x ∈ c, x ≠ NUL) (hg : 0 < g.length)
    (hle : g.length ≤ c.length + 1) (hlen : c.length < temp.length) :
    (check_crc temp c g).isSome := by
  have hfilled : Filled c.length (NUL :: temp.drop (c.length + 1))
      (c ++ NUL :: temp.drop (c.length + 1)) := ⟨c, rfl, rfl, hc⟩
  obtain ⟨s, hdiv, hs⟩ := divide_filled hfilled hg
    (show (c.length : ℤ) - g.length + g.length ≤ (c.length : ℕ) by omega)
  obtain ⟨v, hrun, -⟩ := loop_spec (f := check_body c.length s) (fun i => (c.length - i).toNat)
    (fun i => 0 ≤ i) (fun _ => True) (by
      intro i hi
      rw [check_body]
      by_cases hlt : i < c.length
      · obtain ⟨x, hx⟩ := hs.cell (show i.toNat < c.length by omega)
        rw [if_pos hlt, idx, if_pos hi, Option.bind_eq_bind, Option.bind_some, hx,
          Option.bind_eq_bind, Option.bind_some]
        by_cases hone : x = '0'
        · right
          exact ⟨i + 1, if_neg (by simp [hone]), by omega, by omega⟩
        · left
          exact ⟨0, if_pos hone, trivial⟩
      · left
        exact ⟨1, if_neg hlt, trivial⟩)
    (show 0 ≤ (c.length : ℤ) - g.length + 1 by omega)
  rw [check_crc, strcpy, if_pos hlen]
  simp only [Option.bind_eq_bind, Option.bind_some]
  rw [hdiv, Option.bind_some, hrun]
  rfl

end Sides

/-! ## The runs of `main` -/

section Main

variable {args : Option (List Char × List Char)} {data generator : List Char}

/-- `main` has read these two strings, from the arguments or from the defaults, each of them cut to
its array. -/
def Reads (args : Option (List Char × List Char)) (data generator : List Char) : Prop :=
  ∃ d g, read_args args = some (d, g) ∧ print_string d = some data
    ∧ print_string g = some generator

/-- What the array of an argument holds: as much of it as leaves a cell for the `NUL` that the
initialisation has put there. -/
theorem read_arg_spec {s arg : List Char} (hs : s.length < MAX_LEN) (harg : ∀ c ∈ arg, c ≠ NUL) :
    ∃ b, strncpy (array_of s) (arg ++ [NUL]) (MAX_LEN - 1) = some b
      ∧ print_string b = some (arg.take (MAX_LEN - 1)) := by
  rw [MAX_LEN] at hs
  have hlen : (array_of s).length = 2048 := by
    rw [array_of, MAX_LEN, List.length_append, List.length_replicate]
    omega
  -- the last cell is not copied to
  have hlast : (array_of s).drop 2047 = [NUL] := by
    rw [array_of, MAX_LEN, List.drop_append, List.drop_eq_nil_of_le (by omega), List.nil_append,
      List.drop_replicate, show 2048 - s.length - (2047 - s.length) = 1 by omega]
    rfl
  refine ⟨arg.take 2047 ++ NUL :: List.replicate (2047 - arg.length) NUL, ?_, ?_⟩
  · rw [strncpy, MAX_LEN, if_pos ⟨by omega, Or.inl (by simp)⟩, cstr_append_nul harg, hlast,
      List.append_assoc, ← List.replicate_succ', List.replicate_succ]
  · exact print_string_append_nul (fun c hc => harg c (List.mem_of_mem_take hc)) _

/-- The arguments are copied with `strncpy` and ended by hand, so at most one character less than
the array holds. -/
theorem reads_args (hd : ∀ c ∈ data, c ≠ NUL) (hg : ∀ c ∈ generator, c ≠ NUL) :
    Reads (some (data, generator)) (data.take (MAX_LEN - 1)) (generator.take (MAX_LEN - 1)) := by
  obtain ⟨d, hd, hdata⟩ := @read_arg_spec default_data data (by decide) hd
  obtain ⟨g, hg, hgenerator⟩ := @read_arg_spec default_generator generator (by decide) hg
  refine ⟨d, g, ?_, hdata, hgenerator⟩
  rw [read_args, hd, Option.bind_eq_bind, Option.bind_some, hg]
  rfl

/-- Whatever `main` goes on with needs the remainder, so without one there is no result. -/
theorem main_eq_none {locals : Locals} (h : Reads args data generator)
    (hcrc : compute_crc locals.temp_compute.1 data generator locals.remainder.1 = none) :
    main args locals = none := by
  obtain ⟨d, g, hread, hd, hg⟩ := h
  rw [main, hread]
  simp only [Option.bind_eq_bind, Option.bind_some, hd, hg, hcrc, Option.bind_none]

/-- `main` up to the flip: when the first transmission stays inside its arrays, the rest depends on
the frame alone. -/
theorem main_eq {locals : Locals} {r tail : List Char} {status1 : ℤ}
    (h : Reads args data generator) (hdata : ∀ c ∈ data, c ≠ NUL)
    (hcrc : compute_crc locals.temp_compute.1 data generator locals.remainder.1
      = some (r ++ NUL :: tail)) (hr : ∀ c ∈ r, c ≠ NUL)
    (hlen : (data ++ r).length < MAX_LEN)
    (hcheck : check_crc locals.temp_check.1 (data ++ r) generator = some status1) :
    main args locals = (do
      let corrupt_codeword ←
        flip_first (data ++ r ++ NUL :: locals.corrupt_codeword.1.drop ((data ++ r).length + 1))
      let corrupt_codeword ← print_string corrupt_codeword
      let status2 ← check_crc locals.temp_corrupt.1 corrupt_codeword generator
      some { data, generator, remainder := r, codeword := data ++ r, status1, corrupt_codeword,
             status2, exit := if status1 ≠ 0 ∧ status2 = 0 then 0 else 1 }) := by
  obtain ⟨d, g, hread, hd, hg⟩ := h
  have hcode : ∀ c ∈ data ++ r, c ≠ NUL := List.forall_mem_append.mpr ⟨hdata, hr⟩
  -- the codeword fits, so `snprintf` cuts nothing off
  have hroom : (data ++ r).length < locals.codeword.1.length := by
    rw [locals.codeword.2]
    exact hlen
  obtain ⟨rest, hprint⟩ := snprintf_prefix hroom
  rw [List.append_assoc, List.singleton_append] at hprint
  rw [main, hread]
  simp only [Option.bind_eq_bind, Option.bind_some, hd, hg, hcrc, print_string_append_nul hr]
  rw [← hprint, print_string_append_nul hcode, Option.bind_some, hcheck, Option.bind_some, strcpy,
    if_pos (by rw [locals.corrupt_codeword.2]; exact hlen), Option.bind_some]

/-- Inverting the first bit of a word leaves the rest alone, and the C string with it. -/
theorem flip_first_cons (c : Char) (s : List Char) :
    ∃ x, flip_first (c :: s) = some (x :: s) ∧ x ≠ NUL := by
  by_cases hc : c = '1'
  · exact ⟨'0', by rw [hc]; rfl, by decide⟩
  · refine ⟨'1', ?_, by decide⟩
    rw [flip_first, List.getElem?_cons_zero, Option.bind_eq_bind, Option.bind_some, if_neg hc]
    rfl

/-- What is enough for `main`: a generator, two characters together, and a word that fits. -/
theorem main_isSome {locals : Locals} (h : Reads args data generator)
    (hdata : ∀ c ∈ data, c ≠ NUL) (hgen : 0 < generator.length)
    (hlow : 2 ≤ data.length + generator.length)
    (hhigh : data.length + generator.length ≤ MAX_LEN) : (main args locals).isSome := by
  obtain ⟨r, tail, hcrc, hlen, hr⟩ := compute_crc_text hdata hgen locals.temp_compute.2
    locals.remainder.2 hhigh
  have hsize : (data ++ r).length + 1 = data.length + generator.length := by
    rw [List.length_append]
    omega
  have hcode : ∀ c ∈ data ++ r, c ≠ NUL := List.forall_mem_append.mpr ⟨hdata, hr⟩
  obtain ⟨status1, hcheck⟩ := Option.isSome_iff_exists.mp (check_crc_isSome hcode hgen
    (show generator.length ≤ (data ++ r).length + 1 by omega)
    (show (data ++ r).length < locals.temp_check.1.length by
      rw [locals.temp_check.2]
      omega))
  rw [main_eq h hdata hcrc hr (by omega) hcheck]
  cases hw : data ++ r with
  | nil =>
      rw [hw, List.length_nil] at hsize
      omega
  | cons c w =>
      rw [hw] at hcode hsize
      obtain ⟨x, hflip, hx⟩ := flip_first_cons c
        (w ++ NUL :: locals.corrupt_codeword.1.drop ((c :: w).length + 1))
      have hcorrupt : ∀ y ∈ x :: w, y ≠ NUL :=
        List.forall_mem_cons.mpr ⟨hx, (List.forall_mem_cons.mp hcode).2⟩
      rw [List.length_cons] at hsize
      obtain ⟨status2, hcheck⟩ := Option.isSome_iff_exists.mp (check_crc_isSome hcorrupt hgen
        (show generator.length ≤ (x :: w).length + 1 by rw [List.length_cons]; omega)
        (show (x :: w).length < locals.temp_corrupt.1.length by
          rw [locals.temp_corrupt.2, List.length_cons]
          omega))
      rw [List.cons_append, hflip]
      simp only [Option.bind_eq_bind, Option.bind_some]
      rw [← List.cons_append, print_string_append_nul hcorrupt, Option.bind_some, hcheck]
      rfl

/-! ## The arguments that go wrong -/

/-- Memory without a `NUL`, the worst that an uninitialised array can contain for a function that
looks for the end of a string. -/
def garbage : Cells :=
  ⟨List.replicate MAX_LEN '0', List.length_replicate⟩

/-- The arrays as they may be before anything is written to them: no cell of them is a NUL. -/
def garbage_locals : Locals where
  remainder := garbage
  codeword := garbage
  corrupt_codeword := garbage
  temp_compute := garbage
  temp_check := garbage
  temp_corrupt := garbage

/-- Without a generator the division reads before its first character. -/
theorem main_nil_generator (locals : Locals) (h : Reads args data []) : main args locals = none :=
  main_eq_none h (compute_crc_nil locals.remainder.2)

/-- A word that is too long for the arrays runs out of them. -/
theorem main_too_long (locals : Locals) (h : Reads args data generator)
    (hlen : MAX_LEN < data.length + generator.length) : main args locals = none :=
  main_eq_none h (compute_crc_none locals.temp_compute.2 hlen)

/-- The codeword is empty: the flip overwrites its `NUL`, and no other follows. -/
theorem main_empty_codeword (h : Reads args [] generator) (hgen : generator.length = 1) :
    main args garbage_locals = none := by
  obtain ⟨r, tail, hcrc, hlen, hr⟩ := @compute_crc_text garbage_locals.temp_compute.1 []
    generator garbage_locals.remainder.1 (by simp) (by omega) garbage.2 garbage.2
    (by rw [List.length_nil, MAX_LEN]; omega)
  obtain rfl : r = [] := List.length_eq_zero_iff.mp (by omega)
  obtain ⟨status1, hcheck⟩ := Option.isSome_iff_exists.mp (@check_crc_isSome
    garbage_locals.temp_check.1 generator [] (by simp) (by omega)
    (by rw [List.length_nil]; omega) (by rw [garbage_locals.temp_check.2]; decide))
  rw [main_eq h (by simp) hcrc hr (by decide) hcheck]
  obtain ⟨x, hflip, hx⟩ := flip_first_cons NUL (garbage.1.drop 1)
  -- after the flip no cell of the array is a NUL
  have hnul : NUL ∉ x :: garbage.1.drop 1 := by
    intro hmem
    rcases List.mem_cons.mp hmem with rfl | hmem
    · exact hx rfl
    · exact absurd (List.eq_of_mem_replicate (List.mem_of_mem_drop hmem)) (by decide)
  change (do
    let corrupt_codeword ← flip_first (NUL :: garbage.1.drop 1)
    _) = none
  rw [hflip]
  simp only [Option.bind_eq_bind, Option.bind_some, print_string_none hnul, Option.bind_none]

end Main

/-- **The arrays are long enough** exactly for these arguments: `main` cuts each of the two to its
own array, and nothing checks that the data and the appended zeros fit one array together. -/
theorem crc_buffers_iff {data generator : List Char} (hdata : NUL ∉ data)
    (hgenerator : NUL ∉ generator) :
    BuffersSuffice (some (data, generator)) ↔ generator ≠ []
      ∧ 2 ≤ data.length + generator.length
      ∧ min data.length (MAX_LEN - 1) + min generator.length (MAX_LEN - 1) ≤ MAX_LEN := by
  have hd : ∀ c ∈ data, c ≠ NUL := fun c hc h => hdata (h ▸ hc)
  have hg : ∀ c ∈ generator, c ≠ NUL := fun c hc h => hgenerator (h ▸ hc)
  have hreads := reads_args hd hg
  constructor
  · intro hall
    have hrun := hall garbage_locals
    have hne : generator ≠ [] := by
      rintro rfl
      rw [main_nil_generator garbage_locals hreads] at hrun
      cases hrun
    have hpos := List.length_pos_iff.mpr hne
    refine ⟨hne, ?_, ?_⟩
    · by_contra hlow
      obtain rfl : data = [] := List.length_eq_zero_iff.mp (by omega)
      rw [main_empty_codeword hreads (by rw [List.length_take, MAX_LEN]; omega)] at hrun
      cases hrun
    · by_contra hhigh
      rw [main_too_long garbage_locals hreads (by rw [List.length_take, List.length_take]; omega)]
        at hrun
      cases hrun
  · rintro ⟨hne, hlow, hhigh⟩ locals
    have hpos := List.length_pos_iff.mpr hne
    apply main_isSome hreads (fun c hc => hd c (List.mem_of_mem_take hc))
    · rw [List.length_take, MAX_LEN]
      omega
    · rw [List.length_take, List.length_take, MAX_LEN]
      omega
    · rw [List.length_take, List.length_take]
      omega

/-- The defaults of the program. -/
theorem crc_buffers_iff_default :
    BuffersSuffice (some (default_data, default_generator)) ↔ default_generator ≠ []
      ∧ 2 ≤ default_data.length + default_generator.length
      ∧ min default_data.length (MAX_LEN - 1) + min default_generator.length (MAX_LEN - 1)
        ≤ MAX_LEN :=
  crc_buffers_iff (by decide) (by decide)

/-- `2046` bits of data with the default generator. -/
theorem not_crc_buffers :
    ¬ ∀ data generator : List Char, NUL ∉ data → NUL ∉ generator →
      BuffersSuffice (some (data, generator)) := by
  intro h
  have hd : ∀ c ∈ List.replicate 2046 '1', c ≠ NUL := fun c hc => by
    rw [List.eq_of_mem_replicate hc]
    decide
  have hnul : NUL ∉ List.replicate 2046 '1' := fun hmem => hd NUL hmem rfl
  have hnul' : NUL ∉ default_generator := by decide
  have hg : ∀ c ∈ default_generator, c ≠ NUL := fun c hc h => hnul' (h ▸ hc)
  have hrun := h (List.replicate 2046 '1') default_generator hnul hnul' garbage_locals
  rw [main_too_long garbage_locals (reads_args hd hg) (by
    rw [List.length_take, List.length_take, List.length_replicate]
    decide)] at hrun
  cases hrun

end CourseLabs.Crc
