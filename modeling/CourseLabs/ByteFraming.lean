/-
`byte_stuffing.c`: byte stuffing and unstuffing, the frame, and the receiver.

The two loops are followed to the encoder and the decoder of the library. `main` sends the
frame through a buffer of its own, and the receiver checks the outer flags, copies what is
between them and unstuffs it.
-/
import CourseLabs.CInt
import CourseLabs.CLoop
import CourseLabs.CMem
import CourseLabs.Stuffing

set_option autoImplicit false

namespace CourseLabs.ByteFraming

open CourseLabs.CInt CourseLabs.CLoop CourseLabs.CMem CourseLabs.Stuffing

/-! ## The program -/

/-- The flag `main` frames with. -/
def DEFAULT_FLAG : Char := 'F'

/-- The escape character `main` stuffs with. -/
def DEFAULT_ESC : Char := 'E'

/-- The size of the text buffer of `main`, the NUL of the text included. -/
def MAX_BUF : ℕ := 1024

/-- The variables of either loop; `out` is the buffer it writes to. -/
structure Vars where
  i : ℕ
  j : ℕ
  out : List Char

/-- The loop of `byte_stuff`: a flag or an escape gets an escape in front. -/
def byte_stuff_body (data : List Char) (flag esc : Char) (v : Vars) :
    Option (Pass Vars Vars) := do
  let c ← charAt data v.i
  if c ≠ NUL then do
    let w ← if c = flag ∨ c = esc then do
        let out ← store v.out v.j esc -- insert escape byte before flag or esc
        let j ← nat32 (v.j + 1)
        some { v with j, out }
      else
        some v
    let out ← store w.out w.j c
    let j ← nat32 (w.j + 1)
    let i ← nat32 (v.i + 1)
    some (.next { i, j, out })
  else
    some (.done v)

/-- `byte_stuff`: the loop, and the NUL behind what it has written. -/
def byte_stuff (data stuffed : List Char) (flag esc : Char) : Option (List Char) := do
  let v ← loop (byte_stuff_body data flag esc) { i := 0, j := 0, out := stuffed }
  store v.out v.j NUL

/-- The loop of `byte_unstuff`: an escape is left out and the character behind it taken as it
is. -/
def byte_unstuff_body (stuffed : List Char) (esc : Char) (v : Vars) :
    Option (Pass Vars Vars) := do
  let c ← charAt stuffed v.i
  if c ≠ NUL then do
    -- skip the escape character, take the next literally
    let i ← if c = esc then nat32 (v.i + 1) else some v.i
    let out ← store v.out v.j (← charAt stuffed i)
    let j ← nat32 (v.j + 1)
    let i ← nat32 (i + 1)
    some (.next { i, j, out })
  else
    some (.done v)

/-- `byte_unstuff`: the loop, and the NUL behind what it has written. The parameter `flag` is not
used, as the escape alone tells what to leave out. -/
def byte_unstuff (stuffed unstuffed : List Char) (_flag esc : Char) : Option (List Char) := do
  let v ← loop (byte_unstuff_body stuffed esc) { i := 0, j := 0, out := unstuffed }
  store v.out v.j NUL

/-- `main`: the frame, printed with `"%c%s%c"` into a buffer that cuts what is too long. -/
def frame (framed stuffed : List Char) (flag : Char) : List Char :=
  snprintf framed (flag :: cstr stuffed ++ [flag])

/-- `main`: the outer flags are checked and what they enclose is copied. The inner `none` is
the error message. -/
def strip (framed : List Char) (flag : Char) (received_payload : List Char) :
    Option (Option (List Char)) := do
  let framed_len ← strlen framed
  let invalid ← if (← framed[0]?) ≠ flag then some true else do
    let last ← framed[← idx ((framed_len : ℤ) - 1)]?
    some (last ≠ flag)
  if invalid then
    some none
  else do
    let len := (framed_len : ℤ) - 2
    let received_payload ← strncpy received_payload (framed.drop 1) (uint 64 len)
    let received_payload ← store received_payload (← idx len) NUL
    some (some received_payload)

/-- The receiver's side of `main`: the flags are taken off, and what is left is unstuffed. -/
def receive (framed : List Char) (flag esc : Char) (received_payload unstuffed : List Char) :
    Option (Option (List Char)) := do
  match ← strip framed flag received_payload with
  | none => some none
  | some payload => do
      let out ← byte_unstuff (cstr payload) unstuffed flag esc
      some (some out)

/-! ## The two loops -/

section Loops

/-- The loop is `i` characters into its input, and has written `done`. -/
structure Wrote (v : Vars) (i : ℕ) (done : List Char) (size : ℕ) : Prop where
  i_eq : v.i = i
  j_eq : v.j = done.length
  out : done <+: v.out
  length_out : v.out.length = size

variable {size : ℕ} {flag esc : Char}

/-- `out[j++] = c`: there is room for the character, and the position behind it is an `int`. -/
theorem Wrote.push {v : Vars} {i : ℕ} {done : List Char} (h : Wrote v i done size) (c : Char)
    (hlt : done.length < size) (hint : size ≤ 2 ^ 31 - 1) :
    ∃ out, store v.out v.j c = some out ∧ nat32 (v.j + 1) = some (v.j + 1) ∧
      Wrote { v with j := v.j + 1, out } i (done ++ [c]) size := by
  obtain ⟨out, hstore, hpre, hsize⟩ := store_prefix h.out (by rw [h.length_out]; exact hlt) c
  rw [← h.j_eq] at hstore
  refine ⟨out, hstore, nat32_of_lt (by rw [h.j_eq]; omega), h.i_eq, ?_, hpre,
    hsize.trans h.length_out⟩
  rw [List.length_append, List.length_singleton, ← h.j_eq]

/-- The input has been read on, and nothing was written on the way. -/
theorem Wrote.at {v : Vars} {i : ℕ} {done : List Char} (h : Wrote v i done size) {i' k : ℕ}
    (hi : i' = k) : Wrote { v with i := i' } k done size :=
  ⟨hi, h.j_eq, h.out, h.length_out⟩

/-- What a loop has written when its input is read up to the `NUL`. -/
theorem Wrote.finish {v : Vars} {i : ℕ} {done : List Char} (h : Wrote v i done size)
    (hdone : NUL ∉ done) (hlt : done.length < size) :
    ∃ out, store v.out v.j NUL = some out ∧ cstr out = done := by
  obtain ⟨out, hstore, hpre, -⟩ := store_prefix h.out (by rw [h.length_out]; exact hlt) NUL
  rw [← h.j_eq] at hstore
  exact ⟨out, hstore, cstr_of_prefix (fun c hc hnul => hdone (hnul ▸ hc)) hpre⟩

/-- **One pass of the encoder** writes the escape form of one character. -/
theorem byte_stuff_pass {pre d done : List Char} {c : Char} {v : Vars} (hc : c ≠ NUL)
    (hv : Wrote v pre.length done size)
    (hroom : done.length + (escape flag esc [c]).length ≤ size) (hint : size ≤ 2 ^ 31 - 1)
    (hpre : pre.length < 2 ^ 31 - 1) :
    ∃ v', byte_stuff_body (pre ++ c :: d) flag esc v = some (.next v') ∧
      Wrote v' (pre.length + 1) (done ++ escape flag esc [c]) size := by
  have hread : charAt (pre ++ c :: d) v.i = some c := by
    rw [hv.i_eq]
    exact charAt_append_cons pre c d
  have hi : nat32 (v.i + 1) = some (v.i + 1) := nat32_of_lt (by rw [hv.i_eq]; omega)
  have hi' : v.i + 1 = pre.length + 1 := by rw [hv.i_eq]
  unfold byte_stuff_body
  simp only [hread, hi, Option.bind_eq_bind, Option.bind_some]
  rw [if_pos hc]
  -- an escape goes in front, so two characters are written
  by_cases hesc : c = flag ∨ c = esc
  · have hform : escape flag esc [c] = [esc] ++ [c] := by
      unfold escape
      rw [if_pos hesc]
      rfl
    rw [hform, List.length_append, List.length_singleton, List.length_singleton] at hroom
    obtain ⟨out, hstore, hj, hw⟩ := hv.push esc (by omega) hint
    obtain ⟨out', hstore', hj', hw'⟩ :=
      hw.push c (by rw [List.length_append, List.length_singleton]; omega) hint
    simp only at hstore' hj'
    rw [if_pos hesc, hstore, Option.bind_some, hj, Option.bind_some, hstore', Option.bind_some,
      hj', Option.bind_some, hform, ← List.append_assoc]
    exact ⟨_, rfl, hw'.at hi'⟩
  -- or the character stands for itself
  · have hform : escape flag esc [c] = [c] := by
      unfold escape
      rw [if_neg hesc]
      rfl
    rw [hform, List.length_singleton] at hroom
    obtain ⟨out, hstore, hj, hw⟩ := hv.push c (by omega) hint
    rw [if_neg hesc, hstore, Option.bind_some, hj, Option.bind_some, hform]
    exact ⟨_, rfl, hw.at hi'⟩

/-- The loop of `byte_stuff` writes what `escape` says. The induction is on what is left of the
data, with the bound that keeps the place in the output an `int` and inside the buffer. -/
theorem byte_stuff_loop (d : List Char) :
    ∀ {pre done : List Char} {v : Vars}, NUL ∉ d → Wrote v pre.length done size →
      done.length + (escape flag esc d).length ≤ size → size ≤ 2 ^ 31 - 1 →
      pre.length + d.length ≤ 2 ^ 31 - 1 →
      ∃ v' i, loop (byte_stuff_body (pre ++ d) flag esc) v = some v' ∧
        Wrote v' i (done ++ escape flag esc d) size := by
  induction d with
  | nil =>
      intro pre done v _ hv _ _ _
      refine ⟨v, pre.length, loop_done ?_, by simpa [escape] using hv⟩
      unfold byte_stuff_body
      rw [hv.i_eq, List.append_nil, charAt_length]
      rfl
  | cons c d ih =>
      intro pre done v hd hv hroom hint hpre
      rw [escape_cons] at hroom ⊢
      rw [List.length_append] at hroom
      rw [List.length_cons] at hpre
      obtain ⟨v₁, hpass, hv₁⟩ := @byte_stuff_pass size flag esc pre d done c v
        (fun h => hd (by simp [h])) hv (by omega) hint (by omega)
      obtain ⟨v', i, hrun, hw⟩ := @ih (pre ++ [c]) (done ++ escape flag esc [c]) v₁
        (fun h => hd (by simp [h])) (by simpa using hv₁)
        (by rw [List.length_append]; omega) hint
        (by simp only [List.length_append, List.length_singleton]; omega)
      rw [List.append_assoc, List.singleton_append] at hrun
      rw [List.append_assoc] at hw
      exact ⟨v', i, (loop_next hpass).trans hrun, hw⟩

/-- Escaping makes no NUL, so the frame is still a C string. -/
theorem escape_nul_free {d : List Char} (hd : NUL ∉ d) (hesc : esc ≠ NUL) :
    NUL ∉ escape flag esc d := by
  intro h
  rcases mem_of_mem_escape h with h | h
  · exact hesc h.symm
  · exact hd h

/-- `byte_stuff` writes the escaped data, which are at most twice as long as they were. -/
theorem byte_stuff_spec {d stuffed : List Char} (hd : NUL ∉ d) (hesc : esc ≠ NUL)
    (hroom : (escape flag esc d).length < stuffed.length) (hint : stuffed.length ≤ 2 ^ 31 - 1)
    (hlen : d.length ≤ 2 ^ 31 - 1) :
    ∃ out, byte_stuff d stuffed flag esc = some out ∧ cstr out = escape flag esc d := by
  have hv : Wrote { i := 0, j := 0, out := stuffed } 0 [] stuffed.length :=
    ⟨rfl, rfl, List.nil_prefix, rfl⟩
  obtain ⟨v', i, hrun, hw⟩ := @byte_stuff_loop stuffed.length flag esc d [] [] _ hd hv
    (by rw [List.length_nil]; omega) hint (by rw [List.length_nil]; omega)
  have hnul := @escape_nul_free flag esc d hd hesc
  obtain ⟨out, hstore, hout⟩ := hw.finish hnul hroom
  refine ⟨out, ?_, hout⟩
  unfold byte_stuff
  rw [show d = [] ++ d from rfl, hrun]
  exact hstore

/-- The decoder is `i` characters into its input, and has written `done` over the front of
`buffer`. -/
structure Decoded (v : Vars) (i : ℕ) (done buffer : List Char) : Prop where
  i_eq : v.i = i
  j_eq : v.j = done.length
  out : v.out = done ++ buffer.drop done.length

/-- `out[j] = c`: the decoder never overtakes its input, since it writes a character for one or two
it has read. -/
theorem Decoded.store {v : Vars} {i : ℕ} {done buffer : List Char} (h : Decoded v i done buffer)
    (c : Char) (hlt : done.length < buffer.length) :
    store v.out v.j c = some (done ++ c :: buffer.drop (done.length + 1)) := by
  rw [h.out, h.j_eq, List.drop_eq_getElem_cons hlt]
  exact store_append_cons done buffer[done.length] c _

/-- A pass over a character, with the position it takes the next one from. -/
theorem byte_unstuff_body_of_ne {s : List Char} {v : Vars} {c : Char}
    (hread : charAt s v.i = some c) (hc : c ≠ NUL) :
    byte_unstuff_body s esc v
      = (if c = esc then nat32 (v.i + 1) else some v.i).bind fun pos =>
          (charAt s pos).bind fun x => (store v.out v.j x).bind fun out =>
            (nat32 (v.j + 1)).bind fun j => (nat32 (pos + 1)).bind fun i =>
              some (.next { i, j, out }) := by
  rw [byte_unstuff_body, hread, Option.bind_eq_bind, Option.bind_some, if_pos hc]
  by_cases hesc : c = esc
  · rw [if_pos hesc, if_pos hesc]
    rfl
  · rw [if_neg hesc, if_neg hesc]
    rfl

/-- **One pass of the decoder** writes one character, the next one or the one behind the
escape. -/
theorem byte_unstuff_pass {s done buffer : List Char} {v : Vars} {i pos : ℕ} {c x : Char}
    (hread : charAt s v.i = some c) (hc : c ≠ NUL)
    (hpos : (if c = esc then nat32 (v.i + 1) else some v.i) = some pos)
    (hx : charAt s pos = some x) (hv : Decoded v i done buffer)
    (hroom : done.length < buffer.length) (hle : done.length ≤ pos) (hint : pos + 1 < 2 ^ 31) :
    ∃ v', byte_unstuff_body s esc v = some (.next v')
      ∧ Decoded v' (pos + 1) (done ++ [x]) buffer := by
  have hj : nat32 (v.j + 1) = some (v.j + 1) := nat32_of_lt (by rw [hv.j_eq]; omega)
  refine ⟨{ i := pos + 1, j := v.j + 1, out := done ++ x :: buffer.drop (done.length + 1) },
    ?_, rfl, ?_, ?_⟩
  · rw [byte_unstuff_body_of_ne hread hc, hpos]
    simp only [Option.bind_some, hx, hv.store x hroom, hj, nat32_of_lt hint]
  · rw [List.length_append, List.length_singleton, ← hv.j_eq]
  · rw [List.append_assoc, List.length_append]
    rfl

/-- The loop of `byte_unstuff` undoes it, by induction on the length, as it may read two characters
in a step. -/
theorem byte_unstuff_loop {buffer : List Char} (n : ℕ) :
    ∀ {pre s d done : List Char} {v : Vars}, s.length = n → NUL ∉ s →
      Decoded v pre.length done buffer → unescapeFrom esc false s = some d →
      done.length ≤ pre.length → done.length + d.length ≤ buffer.length →
      pre.length + s.length ≤ 2 ^ 31 - 1 →
      ∃ v', loop (byte_unstuff_body (pre ++ s) esc) v = some v' ∧
        Decoded v' (pre ++ s).length (done ++ d) buffer := by
  induction n using Nat.strongRecOn with
  | ind n ih =>
      intro pre s d done v hn hnul hv hs hle hroom hint
      have hread : ∀ {c : Char} {t : List Char}, s = c :: t → charAt (pre ++ s) v.i = some c := by
        rintro c t rfl
        rw [hv.i_eq]
        exact charAt_append_cons pre c t
      cases s with
      | nil =>
          obtain rfl : [] = d := Option.some.inj hs
          refine ⟨v, loop_done ?_, by simpa using hv⟩
          rw [byte_unstuff_body, hv.i_eq, List.append_nil, charAt_length]
          rfl
      | cons c s =>
          have hc : c ≠ NUL := fun h => hnul (by simp [h])
          rw [List.length_cons] at hint hn
          rw [unescapeFrom] at hs
          by_cases hesc : c = esc
          · rw [if_pos hesc] at hs
            -- an escape has a character behind it
            cases s with
            | nil => cases hs
            | cons x s =>
                rw [unescapeFrom] at hs
                obtain ⟨d', hd', rfl⟩ := Option.map_eq_some_iff.mp hs
                rw [List.length_cons] at hint hn hroom
                have hx : charAt (pre ++ c :: x :: s) (v.i + 1) = some x := by
                  have hcell := charAt_append_cons (pre ++ [c]) x s
                  rwa [List.append_assoc, List.length_append, ← hv.i_eq] at hcell
                obtain ⟨v₁, hpass, hv₁⟩ := byte_unstuff_pass (hread rfl) hc
                  (by rw [if_pos hesc, nat32_of_lt (by rw [hv.i_eq]; omega)]) hx hv (by omega)
                  (by rw [hv.i_eq]; omega) (by rw [hv.i_eq]; omega)
                obtain ⟨v', hrun, hw⟩ := @ih s.length (by omega) (pre ++ [c, x]) s d'
                  (done ++ [x]) v₁ rfl (fun h => hnul (by simp [h]))
                  (by rw [List.length_append]; rwa [hv.i_eq] at hv₁) hd'
                  (by simp only [List.length_append, List.length_cons, List.length_nil]; omega)
                  (by simp only [List.length_append, List.length_cons, List.length_nil]; omega)
                  (by simp only [List.length_append, List.length_cons, List.length_nil]; omega)
                rw [List.append_assoc] at hrun hw
                rw [List.append_assoc] at hw
                exact ⟨v', (loop_next hpass).trans hrun, hw⟩
          · rw [if_neg hesc] at hs
            obtain ⟨d', hd', rfl⟩ := Option.map_eq_some_iff.mp hs
            rw [List.length_cons] at hroom
            obtain ⟨v₁, hpass, hv₁⟩ := byte_unstuff_pass (hread rfl) hc (if_neg hesc)
              (hread rfl) hv (by omega) (by rw [hv.i_eq]; omega) (by rw [hv.i_eq]; omega)
            obtain ⟨v', hrun, hw⟩ := @ih s.length (by omega) (pre ++ [c]) s d' (done ++ [c]) v₁ rfl
              (fun h => hnul (by simp [h]))
              (by rw [List.length_append]; rwa [hv.i_eq] at hv₁) hd'
              (by simp only [List.length_append, List.length_singleton]; omega)
              (by simp only [List.length_append, List.length_singleton]; omega)
              (by simp only [List.length_append, List.length_singleton]; omega)
            rw [List.append_assoc] at hrun hw
            rw [List.append_assoc] at hw
            exact ⟨v', (loop_next hpass).trans hrun, hw⟩

/-- `byte_unstuff` writes the unescaped payload, its `NUL`, and nothing behind it. -/
theorem byte_unstuff_writes {s d unstuffed : List Char}
    (hs : unescapeFrom esc false s = some d) (hsnul : NUL ∉ s) (hroom : d.length < unstuffed.length)
    (hlen : s.length ≤ 2 ^ 31 - 1) :
    byte_unstuff s unstuffed flag esc = some (d ++ NUL :: unstuffed.drop (d.length + 1)) := by
  have hv : Decoded { i := 0, j := 0, out := unstuffed } 0 [] unstuffed := ⟨rfl, rfl, rfl⟩
  obtain ⟨v', hrun, hw⟩ := @byte_unstuff_loop esc unstuffed s.length [] s d [] _ rfl hsnul hv hs
    (Nat.le_refl 0) (by rw [List.length_nil]; omega) (by rw [List.length_nil]; omega)
  rw [List.nil_append] at hrun hw
  rw [byte_unstuff, hrun, Option.bind_eq_bind, Option.bind_some]
  exact hw.store NUL hroom

/-- What `byte_unstuff` makes of a text that was escaped, in a buffer with room for it. -/
theorem byte_unstuff_spec {s d unstuffed : List Char} (hs : unescapeFrom esc false s = some d)
    (hsnul : NUL ∉ s) (hd : NUL ∉ d) (hroom : d.length < unstuffed.length)
    (hlen : s.length ≤ 2 ^ 31 - 1) :
    ∃ out, byte_unstuff s unstuffed flag esc = some out ∧ cstr out = d :=
  ⟨_, byte_unstuff_writes hs hsnul hroom hlen,
    cstr_append_nul (fun _ hc hnul => hd (hnul ▸ hc)) _⟩

end Loops

/-! ## The frame -/

section Frame

variable {flag esc : Char}

/-- With the flags around it, it still is one: no character of the frame is a NUL, so the frame is
a string. -/
theorem frame_nul_free {p : List Char} (hp : NUL ∉ p) (hflag : flag ≠ NUL) :
    ∀ c ∈ flag :: p ++ [flag], c ≠ NUL := by
  intro c hc hnul
  simp only [List.mem_append, List.mem_cons, List.not_mem_nil, or_false] at hc
  rcases hc with (rfl | hc) | rfl
  · exact hflag hnul
  · exact hp (hnul ▸ hc)
  · exact hflag hnul

/-- The receiver's copy of what stands between the flags, when there is room for it and its NUL. -/
theorem strip_spec {p framed received_payload : List Char} (hp : NUL ∉ p) (hflag : flag ≠ NUL)
    (hframed : flag :: p ++ [flag] ++ [NUL] <+: framed) (hroom : p.length < received_payload.length)
    (hint : p.length < 2 ^ 31) :
    ∃ payload, strip framed flag received_payload = some (some payload) ∧ cstr payload = p := by
  have hcstr := cstr_of_prefix (frame_nul_free hp hflag) hframed
  obtain ⟨rest, rfl⟩ := hframed
  have hlen : strlen (flag :: p ++ [flag] ++ [NUL] ++ rest) = some (p.length + 2) := by
    unfold strlen
    rw [if_pos (by simp), hcstr]
    simp
  have hfirst : (flag :: p ++ [flag] ++ [NUL] ++ rest)[0]? = some flag := rfl
  have hlast : (flag :: p ++ [flag] ++ [NUL] ++ rest)[p.length + 1]? = some flag := by
    simp
  -- the two indices the receiver computes: that of the last character, and the length of the
  -- payload
  have hidx1 : idx (((p.length + 2 : ℕ) : ℤ) - 1) = some (p.length + 1) := by
    unfold idx
    rw [if_pos (by omega)]
    congr 1
    omega
  have hidx2 : idx (((p.length + 2 : ℕ) : ℤ) - 2) = some p.length := by
    unfold idx
    rw [if_pos (by omega)]
    congr 1
    omega
  have hsize : uint 64 (((p.length + 2 : ℕ) : ℤ) - 2) = p.length := by
    rw [uint_of_nonneg (by omega) (by omega)]
    omega
  have hdrop : (flag :: p ++ [flag] ++ [NUL] ++ rest).drop 1 = (p ++ [flag]) ++ NUL :: rest := by
    simp
  -- the payload is copied by its length, without a NUL behind it
  have hcopy : strncpy received_payload ((p ++ [flag]) ++ NUL :: rest) p.length
      = some (p ++ received_payload.drop p.length) := by
    unfold strncpy
    rw [if_pos ⟨by omega, Or.inl (by simp)⟩, cstr_append_nul]
    · simp
    · exact fun c hc => frame_nul_free hp hflag c (List.mem_cons_of_mem flag hc)
  -- which is then stored by hand
  obtain ⟨payload, hstore, hpayload, -⟩ :=
    store_prefix (b := p ++ received_payload.drop p.length) (List.prefix_append _ _)
      (by rw [List.length_append, List.length_drop]; omega) NUL
  refine ⟨payload, ?_, cstr_of_prefix (fun c hc hnul => hp (hnul ▸ hc)) hpayload⟩
  unfold strip
  simp only [hlen, hfirst, hidx1, hidx2, hlast, hsize, hdrop, hcopy, hstore,
    Option.bind_eq_bind, Option.bind_some]
  simp

/-- The frame of the data `d` ends where a scan behind the opening flag meets its first flag
that no escape hides, and the receiver makes `d` of it. The buffers are `main`'s. -/
def SelfDelimiting (d : List Char) (flag esc : Char) : Prop :=
  ∀ stuffed framed received_payload unstuffed : List Char, stuffed.length = MAX_BUF * 2 →
    framed.length = MAX_BUF * 2 + 3 → received_payload.length = MAX_BUF * 2 →
    unstuffed.length = MAX_BUF →
    ∃ out, byte_stuff d stuffed flag esc = some out
      ∧ cstr (frame framed out flag) = flag :: cstr out ++ [flag]
      ∧ scanFrom flag esc false (cstr out ++ [flag]) = some (cstr out).length
      ∧ ∃ back, receive (frame framed out flag) flag esc received_payload unstuffed
          = some (some back) ∧ cstr back = d

/-- **Byte-stuffed frames are self-delimiting and lossless.** A flag inside the data is always
behind an escape, so the first flag that is not is the end of the frame, and what stands before it
gives the data back. -/
theorem frames_self_delimiting {d : List Char} {flag esc : Char} (hd : NUL ∉ d)
    (hlen : d.length ≤ 1023) (hflag : flag ≠ NUL) (hesc : esc ≠ NUL) (hne : flag ≠ esc) :
    SelfDelimiting d flag esc := by
  intro stuffed framed received_payload unstuffed hstuffed hframed hreceived hunstuffed
  rw [MAX_BUF] at hstuffed hframed hreceived hunstuffed
  have hescape := @length_escape_le Char _ flag esc d
  obtain ⟨out, hrun, hout⟩ := @byte_stuff_spec flag esc d stuffed hd hesc (by omega) (by omega)
    (by omega)
  have hnul := @escape_nul_free flag esc d hd hesc
  -- the frame fits its buffer, so nothing is cut off
  have hframe : flag :: cstr out ++ [flag] ++ [NUL] <+: frame framed out flag := by
    apply snprintf_prefix
    simp only [hout, List.length_append, List.length_cons, List.length_nil]
    omega
  rw [hout] at hframe
  -- the receiver strips and unstuffs what came
  obtain ⟨payload, hstrip, hpayload⟩ := @strip_spec flag _ _ received_payload hnul hflag hframe
    (by omega) (by omega)
  obtain ⟨back, hback, hcstr⟩ := @byte_unstuff_spec flag esc _ d unstuffed
    (unescapeFrom_escape d) hnul hd (by omega) (by omega)
  refine ⟨out, hrun, ?_, ?_, back, ?_, hcstr⟩
  · rw [hout]
    exact cstr_of_prefix (frame_nul_free hnul hflag) hframe
  · rw [hout]
    exact scanFrom_escape hne d []
  · unfold receive
    rw [hstrip, Option.bind_eq_bind, Option.bind_some]
    simp only [hpayload, hback]
    rfl

/-- The data `test.sh` runs on, with the default flag and escape. -/
theorem frames_self_delimiting_test :
    SelfDelimiting "ABFCED".toList DEFAULT_FLAG DEFAULT_ESC :=
  frames_self_delimiting (by decide) (by decide) (by decide) (by decide) (by decide)

end Frame

end CourseLabs.ByteFraming
