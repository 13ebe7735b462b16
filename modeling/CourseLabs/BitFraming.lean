/-
`bit_stuffing.c`: bit stuffing and unstuffing, and the flags around a frame.

Each of the two loops is followed to the encoder or the decoder of the library, whose state
is the code's `count`; only the decoder's pass over a stuffed `'0'` takes two characters at
once. The positions `i` and `j` are of type `int`, so a string has a run as long as what it
is turned into has at most `INT_MAX` characters.
-/
import CourseLabs.CInt
import CourseLabs.CLoop
import CourseLabs.CMem
import CourseLabs.Stuffing

set_option autoImplicit false

namespace CourseLabs.BitFraming

open CourseLabs.CInt CourseLabs.CLoop CourseLabs.CMem CourseLabs.Stuffing

/-! ## The program -/

/-- The flag between frames, which no stuffed data can contain. -/
def FLAG : List Char := ['0', '1', '1', '1', '1', '1', '1', '0']

/-- The variables of either loop; `out` is the buffer it writes to. -/
structure Vars where
  count : ℕ
  i : ℕ
  j : ℕ
  out : List Char

/-- The loop of `bit_stuff`: after five ones in a row a zero is put in. The count of ones is reset
by a zero, by the inserted one too. -/
def bit_stuff_body (data : List Char) (v : Vars) : Option (Pass Vars Vars) := do
  let c ← charAt data v.i
  if c ≠ NUL then do
    let out ← store v.out v.j c
    let j ← nat32 (v.j + 1)
    let i ← nat32 (v.i + 1)
    if c = '1' then
      if v.count + 1 = 5 then do
        let out ← store out j '0' -- stuff '0' after five 1s
        let j ← nat32 (j + 1)
        some (.next { count := 0, i, j, out })
      else
        some (.next { count := v.count + 1, i, j, out })
    else
      some (.next { count := 0, i, j, out })
  else
    some (.done v)

/-- `bit_stuff`: the loop, and the NUL behind what it has written. -/
def bit_stuff (data stuffed : List Char) : Option (List Char) := do
  let v ← loop (bit_stuff_body data) { count := 0, i := 0, j := 0, out := stuffed }
  store v.out v.j NUL

/-- The loop of `bit_unstuff`: after five ones it looks at the next character and leaves it out if
it is a zero. -/
def bit_unstuff_body (stuffed : List Char) (v : Vars) : Option (Pass Vars Vars) := do
  let c ← charAt stuffed v.i
  if c ≠ NUL then do
    let out ← store v.out v.j c
    let j ← nat32 (v.j + 1)
    let next ← nat32 (v.i + 1)
    if c = '1' then
      if v.count + 1 = 5 then do
        -- a '0' behind five 1s was stuffed
        let i ← if (← charAt stuffed next) = '0' then nat32 (next + 1) else some next
        some (.next { count := 0, i, j, out })
      else
        some (.next { count := v.count + 1, i := next, j, out })
    else
      some (.next { count := 0, i := next, j, out })
  else
    some (.done v)

/-- `bit_unstuff`: the loop, and the NUL behind what it has written. -/
def bit_unstuff (stuffed unstuffed : List Char) : Option (List Char) := do
  let v ← loop (bit_unstuff_body stuffed) { count := 0, i := 0, j := 0, out := unstuffed }
  store v.out v.j NUL

/-- `main`: the frame around the stuffed data, in a buffer of `MAX_BITS * 2 + 32`. -/
def frame (framed stuffed : List Char) : List Char :=
  snprintf framed (FLAG ++ cstr stuffed ++ FLAG)

/-! ## The two loops -/

section Loops

/-- The loop is `i` characters into its input, and has written `done`. -/
structure Wrote (v : Vars) (i : ℕ) (done : List Bool) (size : ℕ) : Prop where
  i_eq : v.i = i
  j_eq : v.j = done.length
  out : done.map digit <+: v.out
  length_out : v.out.length = size

variable {size : ℕ}

/-- `out[j++] = c`: there is room for the character, and the position behind it is an `int`. -/
theorem Wrote.push {v : Vars} {i : ℕ} {done : List Bool} (h : Wrote v i done size) (b : Bool)
    (hlt : done.length < size) (hint : done.length + 1 < 2 ^ 31) :
    ∃ out, store v.out v.j (digit b) = some out ∧ nat32 (v.j + 1) = some (v.j + 1) ∧
      Wrote { v with j := v.j + 1, out } i (done ++ [b]) size := by
  have hlen : (done.map digit).length = done.length := List.length_map digit
  obtain ⟨out, hstore, hpre, hsize⟩ :=
    store_prefix h.out (by rw [hlen, h.length_out]; exact hlt) (digit b)
  rw [hlen, ← h.j_eq] at hstore
  refine ⟨out, hstore, nat32_of_lt (by rw [h.j_eq]; exact hint), h.i_eq, ?_, by simpa using hpre,
    hsize.trans h.length_out⟩
  rw [List.length_append, List.length_singleton, ← h.j_eq]

/-- The input has been read on, and nothing was written on the way. -/
theorem Wrote.at {v : Vars} {i : ℕ} {done : List Bool} (h : Wrote v i done size) {count i' k : ℕ}
    (hi : i' = k) : Wrote { v with count, i := i' } k done size :=
  ⟨hi, h.j_eq, h.out, h.length_out⟩

/-- What a loop has written when its input is read up to the `NUL`. -/
theorem finish {v : Vars} {i : ℕ} {done : List Bool} (h : Wrote v i done size)
    (hlt : done.length < size) :
    ∃ out, CMem.store v.out v.j NUL = some out ∧ cstr out = done.map digit := by
  have hlen : (done.map digit).length = done.length := List.length_map digit
  obtain ⟨out, hstore, hpre, -⟩ :=
    store_prefix h.out (by rw [hlen, h.length_out]; exact hlt) NUL
  rw [hlen, ← h.j_eq] at hstore
  refine ⟨out, hstore, cstr_of_prefix ?_ hpre⟩
  intro c hc
  obtain ⟨b, -, rfl⟩ := List.mem_map.mp hc
  exact digit_ne_nul b

/-- Reading a stuffed array at a place inside it. -/
theorem charAt_digits (pre : List Bool) (b : Bool) (d : List Bool) :
    charAt ((pre ++ b :: d).map digit) pre.length = some (digit b) := by
  rw [List.map_append, List.map_cons, ← List.length_map digit]
  exact charAt_append_cons _ _ _

/-- Reading it at its end gives the NUL the C string ends with. -/
theorem charAt_digits_end (pre : List Bool) :
    charAt (pre.map digit) pre.length = some NUL := by
  rw [← List.length_map digit]
  exact charAt_length _

/-- **One pass of the encoder** writes what the library's encoder does on one bit. -/
theorem bit_stuff_pass {pre d done : List Bool} {b : Bool} {v : Vars}
    (hv : Wrote v pre.length done size) (hle : pre.length ≤ done.length)
    (hroom : done.length + (stuffFrom 5 v.count [b]).length < min size (2 ^ 31)) :
    ∃ v', bit_stuff_body ((pre ++ b :: d).map digit) v = some (.next v') ∧
      v'.count = runAfter 5 v.count b ∧
      Wrote v' (pre.length + 1) (done ++ stuffFrom 5 v.count [b]) size := by
  have hread : charAt ((pre ++ b :: d).map digit) v.i = some (digit b) := by
    rw [hv.i_eq]
    exact charAt_digits pre b d
  have hpos : 0 < (stuffFrom 5 v.count [b]).length := length_le_stuffFrom [b] v.count
  obtain ⟨out, hstore, hj, hw⟩ := hv.push b (by omega) (by omega)
  have hi : nat32 (v.i + 1) = some (v.i + 1) := nat32_of_lt (by rw [hv.i_eq]; omega)
  have hi' : v.i + 1 = pre.length + 1 := by rw [hv.i_eq]
  unfold bit_stuff_body
  simp only [hread, hstore, hj, hi, Option.bind_eq_bind, Option.bind_some]
  rw [if_pos (digit_ne_nul b)]
  cases b with
  | false => exact ⟨_, rfl, rfl, hw.at hi'⟩
  | true =>
      rw [if_pos (show digit true = '1' from rfl)]
      by_cases hfull : v.count + 1 = 5
      -- the fifth one: a '0' goes behind it
      · have hstuff : stuffFrom 5 v.count [true] = [true] ++ [false] := by
          unfold stuffFrom
          rw [if_pos hfull]
          rfl
        rw [hstuff, List.length_append, List.length_singleton, List.length_singleton] at hroom
        obtain ⟨out', hstore', hj', hw'⟩ := hw.push false
          (by rw [List.length_append, List.length_singleton]; omega)
          (by rw [List.length_append, List.length_singleton]; omega)
        have hstore0 : store out (v.j + 1) '0' = some out' := hstore'
        rw [if_pos hfull, hstore0, Option.bind_some, hj', Option.bind_some, hstuff,
          ← List.append_assoc]
        refine ⟨_, rfl, ?_, hw'.at hi'⟩
        unfold runAfter
        rw [if_neg (by simp [hfull])]
      · have hstuff : stuffFrom 5 v.count [true] = [true] := by
          unfold stuffFrom
          rw [if_neg hfull]
          rfl
        rw [if_neg hfull, hstuff]
        refine ⟨_, rfl, ?_, hw.at hi'⟩
        unfold runAfter
        rw [if_pos ⟨rfl, hfull⟩]

/-- The loop of `bit_stuff` writes what `stuff` says. The induction is on what is left of the data,
with the ones counted so far and the bound that keeps the indices inside the array and inside an
`int`. -/
theorem bit_stuff_loop (d : List Bool) :
    ∀ {pre done : List Bool} {v : Vars}, Wrote v pre.length done size → v.count < 5 →
      pre.length ≤ done.length →
      done.length + (stuffFrom 5 v.count d).length < min size (2 ^ 31) →
      ∃ v' i, loop (bit_stuff_body ((pre ++ d).map digit)) v = some v' ∧
        Wrote v' i (done ++ stuffFrom 5 v.count d) size := by
  induction d with
  | nil =>
      intro pre done v hv _ _ _
      refine ⟨v, pre.length, loop_done ?_, by simpa [stuffFrom] using hv⟩
      unfold bit_stuff_body
      rw [hv.i_eq, List.append_nil, charAt_digits_end]
      rfl
  -- one bit is written, with a zero behind it after five ones
  | cons b d ih =>
      intro pre done v hv hcount hle hroom
      rw [stuffFrom_cons] at hroom ⊢
      rw [List.length_append] at hroom
      have hone : 1 ≤ (stuffFrom 5 v.count [b]).length := length_le_stuffFrom [b] v.count
      obtain ⟨v₁, hpass, hcount₁, hv₁⟩ := @bit_stuff_pass size pre d done b v hv hle (by omega)
      obtain ⟨v', i, hrun, hw⟩ := @ih (pre ++ [b]) (done ++ stuffFrom 5 v.count [b]) v₁
        (by simpa using hv₁) (by rw [hcount₁]; exact runAfter_lt hcount b)
        (by simp only [List.length_append, List.length_singleton]; omega)
        (by rw [hcount₁, List.length_append]; omega)
      rw [hcount₁, List.append_assoc] at hw
      rw [List.append_assoc, List.singleton_append] at hrun
      exact ⟨v', i, (loop_next hpass).trans hrun, hw⟩

/-- `bit_stuff` writes the stuffed word, when its length is an `int` and the buffer has a cell more
than that for the NUL. -/
theorem bit_stuff_spec {d : List Bool} {stuffed : List Char}
    (hint : (stuff 5 d).length < 2 ^ 31) (hroom : (stuff 5 d).length < stuffed.length) :
    ∃ out, bit_stuff (d.map digit) stuffed = some out ∧ cstr out = (stuff 5 d).map digit := by
  have hv : Wrote { count := 0, i := 0, j := 0, out := stuffed } 0 [] stuffed.length :=
    ⟨rfl, rfl, List.nil_prefix, rfl⟩
  obtain ⟨v', i, hrun, hw⟩ := @bit_stuff_loop stuffed.length d [] [] _ hv
    (Nat.zero_lt_succ 4) (Nat.le_refl 0)
    (by rw [List.length_nil, Nat.zero_add]; exact lt_min hroom hint)
  obtain ⟨out, hstore, hout⟩ := finish hw hroom
  refine ⟨out, ?_, hout⟩
  unfold bit_stuff
  rw [show d.map digit = ([] ++ d).map digit from rfl, hrun]
  exact hstore

/-- The character behind `pre`, the `NUL` included, is a `'0'` where the next bit is. -/
theorem charAt_digits_head (pre s : List Bool) :
    ∃ c, charAt ((pre ++ s).map digit) pre.length = some c ∧ (c = '0' ↔ s.head? = some false) := by
  cases s with
  | nil => exact ⟨NUL, by rw [List.append_nil, charAt_digits_end], by decide⟩
  | cons b s =>
      refine ⟨digit b, charAt_digits pre b s, ?_⟩
      rw [List.head?_cons]
      cases b with
      | false => decide
      | true => decide

/-- **One pass of the decoder** writes one bit, and goes over the stuffed `'0'` behind it if
there is one. -/
theorem bit_unstuff_pass {pre s done : List Bool} {b : Bool} {v : Vars}
    (hv : Wrote v pre.length done size) (hcount : v.count < 5) (hlt : done.length < size)
    (hle : done.length ≤ pre.length) (hint : pre.length + (s.length + 1) < 2 ^ 31) :
    ∃ v' u s', b :: s = u ++ s' ∧ u ≠ [] ∧
      bit_unstuff_body ((pre ++ b :: s).map digit) v = some (.next v') ∧ v'.count < 5 ∧
      Wrote v' (pre ++ u).length (done ++ [b]) size ∧
      unstuffFrom 5 v.count (b :: s) = b :: unstuffFrom 5 v'.count s' := by
  have hread : charAt ((pre ++ b :: s).map digit) v.i = some (digit b) := by
    rw [hv.i_eq]
    exact charAt_digits pre b s
  obtain ⟨out, hstore, hj, hw⟩ := hv.push b hlt (by omega)
  have hi : nat32 (v.i + 1) = some (v.i + 1) := nat32_of_lt (by rw [hv.i_eq]; omega)
  have hone : ∀ b : Bool, v.i + 1 = (pre ++ [b]).length := by simp [hv.i_eq]
  have hne5 : v.count ≠ 5 := by omega
  unfold bit_unstuff_body
  simp only [hread, hstore, hj, hi, Option.bind_eq_bind, Option.bind_some]
  rw [if_pos (digit_ne_nul b)]
  -- a zero ends the run of ones
  cases b with
  | false =>
      refine ⟨_, [false], s, rfl, by decide, rfl, Nat.zero_lt_succ 4, hw.at (hone false), ?_⟩
      rw [unstuffFrom, if_neg hne5]
  | true =>
      rw [if_pos (show digit true = '1' from rfl)]
      by_cases hfull : v.count + 1 = 5
      · rw [if_pos hfull]
        have hfive : unstuffFrom 5 v.count (true :: s) = true :: unstuffFrom 5 5 s := by
          rw [unstuffFrom, if_neg hne5, hfull]
        obtain ⟨c, hnext, hc⟩ := charAt_digits_head (pre ++ [true]) s
        rw [List.append_assoc, List.singleton_append, ← hone true] at hnext
        rw [hnext, Option.bind_some, hfive]
        -- it is one, and is gone over
        by_cases hzero : s.head? = some false
        · obtain ⟨s', rfl⟩ : ∃ s', s = false :: s' := by
            cases s with
            | nil => exact absurd hzero (by decide)
            | cons c s' => exact ⟨s', by rw [Option.some.inj hzero]⟩
          have hi' : nat32 (v.i + 1 + 1) = some (v.i + 1 + 1) :=
            nat32_of_lt (by rw [hv.i_eq]; simp only [List.length_cons] at hint; omega)
          rw [if_pos (hc.mpr hzero), hi', Option.bind_some]
          refine ⟨_, [true, false], s', rfl, by decide, rfl, Nat.zero_lt_succ 4,
            hw.at (by simp [hv.i_eq]), ?_⟩
          rw [unstuffFrom, if_pos rfl]
        -- something else is kept
        · rw [if_neg (fun h => hzero (hc.mp h))]
          refine ⟨_, [true], s, rfl, by decide, rfl, Nat.zero_lt_succ 4, hw.at (hone true), ?_⟩
          rw [unstuffFrom_self (by decide) hzero]
      · rw [if_neg hfull]
        refine ⟨_, [true], s, rfl, by decide, rfl, by simp only; omega, hw.at (hone true), ?_⟩
        rw [unstuffFrom, if_neg hne5]

/-- The same for the loop of `bit_unstuff`, which reads ahead by one bit, so the induction is on
the length. -/
theorem bit_unstuff_loop (n : ℕ) :
    ∀ {pre s done : List Bool} {v : Vars}, s.length = n → Wrote v pre.length done size →
      v.count < 5 → done.length ≤ pre.length → pre.length + s.length < 2 ^ 31 →
      done.length + (unstuffFrom 5 v.count s).length < size →
      ∃ v' i, loop (bit_unstuff_body ((pre ++ s).map digit)) v = some v' ∧
        Wrote v' i (done ++ unstuffFrom 5 v.count s) size := by
  induction n using Nat.strongRecOn with
  | ind n ih =>
      intro pre s done v hn hv hcount hle hint hroom
      cases s with
      | nil =>
          refine ⟨v, pre.length, loop_done ?_, by simpa [unstuffFrom] using hv⟩
          unfold bit_unstuff_body
          rw [hv.i_eq, List.append_nil, charAt_digits_end]
          rfl
      -- one or two bits are read, so the induction is on what is left after them
      | cons b s =>
          obtain ⟨v₁, u, s', hsplit, hu, hpass, hcount₁, hv₁, hdec⟩ :=
            @bit_unstuff_pass size pre s done b v hv hcount (by omega) hle hint
          rw [hdec, List.length_cons] at hroom
          have hlen : (b :: s).length = u.length + s'.length := by
            rw [hsplit, List.length_append]
          have hpos := List.length_pos_iff.mpr hu
          obtain ⟨v', i, hrun, hw⟩ := @ih s'.length (by omega) (pre ++ u) s' (done ++ [b]) v₁ rfl
            hv₁ hcount₁ (by simp only [List.length_append, List.length_singleton]; omega)
            (by rw [List.length_append]; omega)
            (by simp only [List.length_append, List.length_singleton]; omega)
          rw [List.append_assoc, ← hsplit] at hrun
          rw [hdec]
          exact ⟨v', i, (loop_next hpass).trans hrun, by simpa using hw⟩

/-- `bit_unstuff` writes the unstuffed word, of any word of bits, also of one that is not the
stuffed form of another. -/
theorem bit_unstuff_spec {s : List Bool} {unstuffed : List Char} (hint : s.length < 2 ^ 31)
    (hroom : (unstuff 5 s).length < unstuffed.length) :
    ∃ out, bit_unstuff (s.map digit) unstuffed = some out ∧
      cstr out = (unstuff 5 s).map digit := by
  have hv : Wrote { count := 0, i := 0, j := 0, out := unstuffed } 0 [] unstuffed.length :=
    ⟨rfl, rfl, List.nil_prefix, rfl⟩
  obtain ⟨v', i, hrun, hw⟩ := @bit_unstuff_loop unstuffed.length s.length [] s [] _ rfl hv
    (Nat.zero_lt_succ 4) (Nat.le_refl 0) (by rw [List.length_nil, Nat.zero_add]; exact hint)
    (by rw [List.length_nil, Nat.zero_add]; exact hroom)
  obtain ⟨out, hstore, hout⟩ := finish hw hroom
  refine ⟨out, ?_, hout⟩
  unfold bit_unstuff
  rw [show s.map digit = ([] ++ s).map digit from rfl, hrun]
  exact hstore

/-- A pass that ends has counted in an `int` what it has written. -/
theorem bit_stuff_body_inv {data : List Char} {v : Vars} {p : Pass Vars Vars} {b : Bool}
    (hread : charAt data v.i = some (digit b)) (h : bit_stuff_body data v = some p) :
    ∃ v', p = .next v' ∧ v'.i = v.i + 1 ∧ v'.count = runAfter 5 v.count b ∧
      v'.j = v.j + (stuffFrom 5 v.count [b]).length ∧ v'.j < 2 ^ 31 := by
  unfold bit_stuff_body at h
  rw [hread, Option.bind_eq_bind, Option.bind_some, if_pos (digit_ne_nul b)] at h
  obtain ⟨out, -, h⟩ := Option.bind_eq_some_iff.mp h
  obtain ⟨j, hj, h⟩ := Option.bind_eq_some_iff.mp h
  obtain ⟨i, hi, h⟩ := Option.bind_eq_some_iff.mp h
  obtain ⟨rfl, hlt⟩ := nat32_eq_some_iff.mp hj
  obtain ⟨rfl, -⟩ := nat32_eq_some_iff.mp hi
  -- the position is an `int` after the bit, and after the stuffed zero too
  cases b with
  | false =>
      rw [if_neg (by decide)] at h
      exact ⟨_, (Option.some.inj h).symm, rfl, rfl, rfl, hlt⟩
  | true =>
      rw [if_pos (show digit true = '1' from rfl)] at h
      unfold runAfter stuffFrom
      by_cases hfull : v.count + 1 = 5
      · rw [if_pos hfull] at h ⊢
        obtain ⟨out', -, h⟩ := Option.bind_eq_some_iff.mp h
        obtain ⟨j', hj', h⟩ := Option.bind_eq_some_iff.mp h
        obtain ⟨rfl, hlt'⟩ := nat32_eq_some_iff.mp hj'
        exact ⟨_, (Option.some.inj h).symm, rfl, (if_neg (by simp [hfull])).symm, rfl, hlt'⟩
      · rw [if_neg hfull] at h ⊢
        exact ⟨_, (Option.some.inj h).symm, rfl, (if_pos ⟨rfl, hfull⟩).symm, rfl, hlt⟩

/-- A run of `bit_stuff` has counted all it has written in an `int`. -/
theorem length_stuff_lt {d : List Bool} {stuffed out : List Char}
    (h : bit_stuff (d.map digit) stuffed = some out) : (stuff 5 d).length < 2 ^ 31 := by
  obtain ⟨v, hrun, -⟩ := Option.bind_eq_some_iff.mp h
  -- what is written, and what the rest will add
  apply loop_inv (fun v : Vars => v.j < 2 ^ 31 ∧ ∃ pre rest, d = pre ++ rest ∧
      v.i = pre.length ∧ v.j + (stuffFrom 5 v.count rest).length = (stuff 5 d).length)
    (fun _ => (stuff 5 d).length < 2 ^ 31) _ _ _ hrun
  · rintro v v' ⟨-, pre, rest, rfl, hi, hlen⟩ hpass
    cases rest with
    | nil =>
        unfold bit_stuff_body at hpass
        rw [hi, List.append_nil, charAt_digits_end] at hpass
        simp at hpass
    | cons b rest =>
        obtain ⟨w, hw, hi', hcount, hj, hlt⟩ :=
          bit_stuff_body_inv (by rw [hi]; exact charAt_digits pre b rest) hpass
        obtain rfl := Pass.next.inj hw
        rw [stuffFrom_cons, List.length_append] at hlen
        exact ⟨hlt, pre ++ [b], rest, by simp, by simp [hi', hi], by rw [hcount]; omega⟩
  · rintro v w ⟨hlt, pre, rest, rfl, hi, hlen⟩ hpass
    cases rest with
    | nil =>
        rw [stuffFrom, List.length_nil] at hlen
        omega
    | cons b rest =>
        obtain ⟨w, hw, -⟩ :=
          bit_stuff_body_inv (by rw [hi]; exact charAt_digits pre b rest) hpass
        cases hw
  · exact ⟨Nat.two_pow_pos 31, [], d, rfl, rfl, Nat.zero_add _⟩

end Loops

/-! ## The law of stuffing -/

section Laws

/-- Each occurrence of `11111` is immediately followed by a `0`. -/
def ValidCode (s : List Char) : Prop :=
  ∀ i, OccursAt (List.replicate 5 '1') s i → s[i + 5]? = some '0'

/-- A string of digits is a code word exactly if its bits are. -/
theorem validCode_digit (w : List Bool) : ValidCode (w.map digit) ↔ Stuffed 5 w := by
  have hocc : ∀ i, OccursAt (List.replicate 5 '1') (w.map digit) i
      ↔ OccursAt (List.replicate 5 true) w i :=
    fun i => occursAt_map digit_injective (p := List.replicate 5 true)
  have hread : ∀ i, (w.map digit)[i + 5]? = some '0' ↔ w[i + 5]? = some false := by
    intro i
    rw [List.getElem?_map, show some '0' = (some false).map digit from rfl]
    exact (Option.map_injective digit_injective).eq_iff
  unfold ValidCode Stuffed
  simp only [hocc, hread]

/-- What the two functions are for, on the data `d`: whatever buffers have room, the stuffed
form is valid, not much longer than `d`, and unstuffs to `d`. -/
def StuffsAndRecovers (d : List Char) : Prop :=
  ∀ stuffed unstuffed, d.length + d.length / 5 < stuffed.length → d.length < unstuffed.length →
    ∃ out, bit_stuff d stuffed = some out
      ∧ Binary (cstr out) ∧ ValidCode (cstr out)
      ∧ (cstr out).length ≤ d.length + d.length / 5
      ∧ ∃ out', bit_unstuff (cstr out) unstuffed = some out' ∧ cstr out' = d

/-- And on a valid word `s`: unstuffed and stuffed again it is `s`. -/
def UnstuffsAndRestuffs (s : List Char) : Prop :=
  ∀ unstuffed stuffed, s.length < unstuffed.length → s.length < stuffed.length →
    ∃ out, bit_unstuff s unstuffed = some out ∧ Binary (cstr out)
      ∧ ∃ out', bit_stuff (cstr out) stuffed = some out' ∧ cstr out' = s

/-- `s` is an output of `bit_stuff`, in every buffer that has room for it. -/
def IsOutput (s : List Char) : Prop :=
  ∃ d, Binary d ∧ ∀ stuffed : List Char, s.length < stuffed.length →
    ∃ out, bit_stuff d stuffed = some out ∧ cstr out = s

/-- The program's round trip on a text of digits, from the round trip on bits. -/
theorem stuffsAndRecovers_digit {d : List Bool} (hint : (stuff 5 d).length < 2 ^ 31) :
    StuffsAndRecovers (d.map digit) := by
  intro stuffed unstuffed hstuffed hunstuffed
  rw [List.length_map] at hstuffed hunstuffed
  have hlen := length_stuff_le (w := 5) (by decide) d
  obtain ⟨out, hrun, hout⟩ := @bit_stuff_spec d stuffed hint (by omega)
  have hback := unstuff_stuff (w := 5) (by decide) d
  obtain ⟨out', hrun', hout'⟩ := @bit_unstuff_spec _ unstuffed hint (by rwa [hback])
  rw [hback] at hout'
  refine ⟨out, hrun, ?_, ?_, ?_, out', ?_, hout'⟩
  · rw [hout]
    exact binary_digit _
  · rw [hout, validCode_digit]
    exact stuffed_stuff (by decide) d
  · rw [hout, List.length_map, List.length_map]
    exact hlen
  · rw [hout]
    exact hrun'

/-- The other direction: what `bit_stuff` can have written is written again. -/
theorem unstuffsAndRestuffs_digit {s : List Bool} (hint : s.length < 2 ^ 31)
    (hs : Stuffed 5 s) : UnstuffsAndRestuffs (s.map digit) := by
  intro unstuffed stuffed hunstuffed hstuffed
  rw [List.length_map] at hunstuffed hstuffed
  have hback := stuff_unstuff (w := 5) (by decide) hs
  have hlen : (unstuff 5 s).length ≤ s.length := length_unstuffFrom_le s 0
  obtain ⟨out, hrun, hout⟩ := @bit_unstuff_spec s unstuffed hint (by omega)
  obtain ⟨out', hrun', hout'⟩ := @bit_stuff_spec (unstuff 5 s) stuffed (by rwa [hback])
    (by rwa [hback])
  rw [hback] at hout'
  refine ⟨out, hrun, ?_, out', ?_, hout'⟩
  · rw [hout]
    exact binary_digit _
  · rw [hout]
    exact hrun'

/-- What the loops can write, read off the bits alone. -/
theorem isOutput_digit_iff {s : List Bool} (hint : s.length < 2 ^ 31) :
    IsOutput (s.map digit) ↔ Stuffed 5 s := by
  constructor
  · rintro ⟨d, hd, hout⟩
    obtain ⟨d, rfl⟩ := hd.exists_bits
    -- a buffer for both words
    obtain ⟨stuffed, hstuffed⟩ := exists_buffer (s.length + (stuff 5 d).length)
    obtain ⟨out, hrun, heq⟩ := hout stuffed (by rw [List.length_map]; omega)
    obtain ⟨out', hrun', heq'⟩ := @bit_stuff_spec d stuffed (length_stuff_lt hrun) (by omega)
    obtain rfl : out' = out := Option.some.inj (hrun'.symm.trans hrun)
    have hd : s = stuff 5 d :=
      (List.map_inj_right (fun _ _ h => digit_injective h)).mp (heq.symm.trans heq')
    rw [hd]
    exact stuffed_stuff (by decide) d
  · intro hs
    have hback := stuff_unstuff (w := 5) (by decide) hs
    refine ⟨(unstuff 5 s).map digit, binary_digit _, ?_⟩
    intro stuffed hroom
    rw [List.length_map] at hroom
    obtain ⟨out, hrun, hout⟩ := @bit_stuff_spec (unstuff 5 s) stuffed (by rwa [hback])
      (by rwa [hback])
    rw [hback] at hout
    exact ⟨out, hrun, hout⟩

/-- **Bit stuffing is a bijection onto its valid code**, on the words the `int` positions have room
for: what is stuffed is read back as it was, and a word in which every run of five ones is followed
by a zero comes from one word only. -/
theorem bit_stuffing_bijection {d s : List Char} (hd : Binary d)
    (hdint : (stuff 5 (bits d)).length < 2 ^ 31) (hs : Binary s) (hsint : s.length < 2 ^ 31) :
    StuffsAndRecovers d ∧ (ValidCode s → UnstuffsAndRestuffs s) ∧
      (IsOutput s ↔ ValidCode s) := by
  obtain ⟨d, rfl⟩ := hd.exists_bits
  obtain ⟨s, rfl⟩ := hs.exists_bits
  rw [bits_digit] at hdint
  rw [List.length_map] at hsint
  rw [validCode_digit]
  exact ⟨stuffsAndRecovers_digit hdint, unstuffsAndRestuffs_digit hsint,
    isOutput_digit_iff hsint⟩

/-- The data `test.sh` runs on, and a code word with one stuffed zero. -/
theorem bit_stuffing_bijection_test :
    StuffsAndRecovers "011111101111110".toList ∧ UnstuffsAndRestuffs "1111100".toList ∧
      IsOutput "1111100".toList := by
  have hd : Binary "011111101111110".toList := binary_digit
    [false, true, true, true, true, true, true, false, true, true, true, true, true, true, false]
  have hs : Binary "1111100".toList :=
    binary_digit [true, true, true, true, true, false, false]
  have hvalid : ValidCode "1111100".toList := by
    apply (validCode_digit [true, true, true, true, true, false, false]).mpr
    exact (stuffed_ones_false (c := 5) (Nat.le_refl 5) [false]).mpr
      ((stuffed_ones_false (c := 0) (Nat.zero_le 5) []).mpr (stuffed_ones (c := 0) (by decide)))
  obtain ⟨hrec, hre, hout⟩ := bit_stuffing_bijection hd (by decide) hs (by decide)
  exact ⟨hrec, hre hvalid, hout.mpr hvalid⟩

/-- `2 ^ 31` zeros are more than an `int` can count. -/
theorem bit_stuff_zeros (stuffed : List Char) :
    bit_stuff ((List.replicate (2 ^ 31) false).map digit) stuffed = none := by
  rw [Option.eq_none_iff_forall_not_mem]
  intro out hrun
  have hlt := length_stuff_lt hrun
  have hle := length_le_stuffFrom (w := 5) (List.replicate (2 ^ 31) false) 0
  rw [List.length_replicate] at hle
  exact absurd hlt (Nat.not_lt.mpr hle)

/-- On a text of `2 ^ 31` zeros the `int` positions of the loop run out. -/
theorem not_bit_stuffing_bijection : ¬ ∀ d, Binary d → StuffsAndRecovers d := by
  intro h
  obtain ⟨stuffed, hstuffed⟩ := exists_buffer _
  obtain ⟨unstuffed, hunstuffed⟩ := exists_buffer _
  obtain ⟨out, hrun, -⟩ := h _ (binary_digit (List.replicate (2 ^ 31) false)) stuffed unstuffed
    hstuffed hunstuffed
  rw [bit_stuff_zeros] at hrun
  cases hrun

end Laws

/-! ## The flags -/

section Flags

/-- `main`'s frame around the data `d`, in buffers that have room, has the flag at its two
ends and nowhere else. -/
def FlagsAtEnds (d : List Char) : Prop :=
  ∀ stuffed framed, d.length + d.length / 5 < stuffed.length →
    d.length + d.length / 5 + 16 < framed.length →
    ∃ out, bit_stuff d stuffed = some out
      ∧ cstr (frame framed out) = FLAG ++ cstr out ++ FLAG
      ∧ ∀ i, OccursAt FLAG (FLAG ++ cstr out ++ FLAG) i ↔ i = 0 ∨ i = 8 + (cstr out).length

/-- The flag as bits, for the general lemmas about flags. -/
theorem FLAG_eq : FLAG = (flag 5).map digit := by
  decide

/-- **Flag transparency**, for the data whose stuffed form an `int` can count: in a frame the flag
stands at the two ends and at no other position, not even across the border of the flag and the
data. -/
theorem flags_at_ends {d : List Char} (hd : Binary d)
    (hint : (stuff 5 (bits d)).length < 2 ^ 31) : FlagsAtEnds d := by
  obtain ⟨d, rfl⟩ := hd.exists_bits
  rw [bits_digit] at hint
  intro stuffed framed hstuffed hframed
  rw [List.length_map] at hstuffed hframed
  have hlen := length_stuff_le (w := 5) (by decide) d
  obtain ⟨out, hrun, hout⟩ := @bit_stuff_spec d stuffed hint (by omega)
  have hframe : FLAG ++ cstr out ++ FLAG = (flag 5 ++ stuff 5 d ++ flag 5).map digit := by
    rw [hout, FLAG_eq, List.map_append, List.map_append]
  refine ⟨out, hrun, ?_, ?_⟩
  · unfold frame
    rw [hframe]
    apply cstr_of_prefix
    · intro c hc
      obtain ⟨b, -, rfl⟩ := List.mem_map.mp hc
      exact digit_ne_nul b
    · apply snprintf_prefix
      simp only [List.length_map, List.length_append, length_flag]
      omega
  · intro i
    rw [hframe, FLAG_eq, occursAt_map digit_injective,
      flag_occursAt_iff (by decide) (stuffed_stuff (by decide) d), hout, length_flag,
      List.length_map]

/-- The data `test.sh` runs on. -/
theorem flags_at_ends_test : FlagsAtEnds "011111101111110".toList :=
  flags_at_ends (binary_digit [false, true, true, true, true, true, true, false, true, true,
    true, true, true, true, false]) (by decide)

/-- The same text also has no flag at its ends, as the frame is never written. -/
theorem not_flags_at_ends : ¬ ∀ d, Binary d → FlagsAtEnds d := by
  intro h
  obtain ⟨stuffed, hstuffed⟩ := exists_buffer _
  obtain ⟨framed, hframed⟩ := exists_buffer _
  obtain ⟨out, hrun, -⟩ := h _ (binary_digit (List.replicate (2 ^ 31) false)) stuffed framed
    hstuffed hframed
  rw [bit_stuff_zeros] at hrun
  cases hrun

end Flags

end CourseLabs.BitFraming
