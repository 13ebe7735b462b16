/-
`crc.c`: the sender (`compute_crc`) and the receiver (`check_crc`) of a cyclic redundancy
check.

Both divide in place, in a local array `temp` whose contents at entry are whatever the
stack holds; it is a parameter here. The loop they share (`divide`) goes over the buffer
from left to right, and `divide_spec` says what it leaves behind: `longDiv` of the word,
at the end of the buffer. The two sides call it with different last indices, and both
come to one step for each data bit.
-/
import CourseLabs.CInt
import CourseLabs.CLoop
import CourseLabs.CMem
import CourseLabs.Gf2

set_option autoImplicit false

namespace CourseLabs.Crc

open CourseLabs.CInt CourseLabs.CLoop CourseLabs.CMem CourseLabs.Gf2 Polynomial

/-! ## The program -/

def MAX_LEN : ℕ := 2048

def xor_op (dividend divisor : List Char) (start div_len : ℕ) : Option (List Char) :=
  forLoop 0 div_len dividend fun i dividend => do
    let x ← dividend[start + i]?
    let y ← divisor[i]?
    store dividend (start + i) (if x = y then '0' else '1')

/-- The loop both sides divide with: `for (i = 0; i <= last; i++)`. -/
def divide (generator : List Char) (last : ℤ) (temp : List Char) : Option (List Char) :=
  forLoop 0 (last + 1).toNat temp fun i temp => do
    let c ← temp[i]?
    if c = '1' then xor_op temp generator i generator.length else some temp

/-- The dividend: the data, `gen_len - 1` zeros and the `NUL`. -/
def prepare (temp data : List Char) (gen_len : ℕ) : Option (List Char) := do
  let temp ← strcpy temp data
  let temp ← forLoop 0 (gen_len - 1) temp fun i temp => store temp (data.length + i) '0'
  let last ← idx ((data.length : ℤ) + gen_len - 1)
  store temp last NUL

def compute_crc (temp data generator remainder : List Char) : Option (List Char) := do
  let data_len := data.length
  let gen_len := generator.length
  let temp ← prepare temp data gen_len
  let total_len : ℤ := (data_len : ℤ) + gen_len - 1
  let temp ← divide generator (total_len - gen_len) temp
  let remainder ← strncpy remainder (temp.drop data_len) (uint 64 ((gen_len : ℤ) - 1))
  let last ← idx ((gen_len : ℤ) - 1)
  store remainder last NUL

/-- The check of the remaining bits; the state is `i`. -/
def check_body (code_len : ℤ) (temp : List Char) (i : ℤ) : Option (Pass ℤ ℤ) :=
  if i < code_len then do
    let k ← idx i
    let c ← temp[k]?
    if c ≠ '0' then
      some (.done 0) -- error detected
    else
      some (.next (i + 1))
  else
    some (.done 1)

def check_crc (temp codeword generator : List Char) : Option ℤ := do
  let code_len : ℤ := codeword.length
  let gen_len : ℤ := generator.length
  let temp ← strcpy temp codeword
  let temp ← divide generator (code_len - gen_len) temp
  loop (check_body code_len temp) (code_len - gen_len + 1)

/-! ## The division in the buffer -/

section Divide

variable {b : Bool} {t w : List Bool} {n : ℕ}

theorem digit_xor (x y : Bool) :
    (if digit x = digit y then '0' else '1') = digit (x ^^ y) := by
  cases x with
  | false =>
      cases y with
      | false => rfl
      | true => rfl
  | true =>
      cases y with
      | false => rfl
      | true => rfl

/-- `xor_op` adds the divisor to the bits from `start` on. -/
theorem xor_op_spec {g cur : List Bool} (pre post : List Char) (hle : g.length ≤ cur.length) :
    xor_op (pre ++ cur.map digit ++ post) (g.map digit) pre.length g.length
      = some (pre ++ (xorOnto cur g).map digit ++ post) := by
  -- `front` is done, the rest of the divisor is still to be added to `left`
  obtain ⟨s, hrun, front, left, hfront, -, rfl, hdone⟩ := forLoop_spec
    (s := pre ++ cur.map digit ++ post)
    (f := fun i dividend => do
      let x ← dividend[pre.length + i]?
      let y ← (g.map digit)[i]?
      store dividend (pre.length + i) (if x = y then '0' else '1'))
    (fun i s => ∃ front left, front.length = i ∧ (g.drop i).length ≤ left.length
      ∧ s = pre ++ (front ++ left).map digit ++ post
      ∧ front ++ xorOnto left (g.drop i) = xorOnto cur g)
    (Nat.zero_le g.length) ⟨[], cur, rfl, hle, rfl, rfl⟩ (by
      rintro i s - hi ⟨front, left, hfront, hlen, rfl, hdone⟩
      rw [List.drop_eq_getElem_cons hi] at hlen hdone
      cases left with
      | nil =>
          rw [List.length_cons, List.length_nil] at hlen
          omega
      | cons x left =>
          rw [List.length_cons, List.length_cons] at hlen
          rw [xorOnto] at hdone
          refine ⟨_, ?_, front ++ [x ^^ g[i]], left, by simp [hfront], by omega, rfl, ?_⟩
          · have hbuf : pre ++ (front ++ x :: left).map digit ++ post
                = (pre ++ front.map digit) ++ digit x :: (left.map digit ++ post) := by simp
            have hpos : pre.length + i = (pre ++ front.map digit).length := by simp [hfront]
            rw [hbuf, hpos, getElem?_append_cons]
            simp only [Option.bind_eq_bind, Option.bind_some]
            rw [List.getElem?_map, List.getElem?_eq_getElem hi, Option.map_some, Option.bind_some,
              digit_xor, store_append_cons]
            simp
          · rw [← hdone, List.append_assoc]
            rfl)
  rw [List.drop_length, xorOnto_nil] at hdone
  rw [xor_op, hrun, hdone]

/-- What the division loop leaves: `n` cells that are done with, and the rest of the
word as `longDiv` has it. What follows the word is not touched. -/
theorem divide_spec (post : List Char) {last : ℤ} (hlast : last + 1 = n)
    (hn : n + t.length ≤ w.length) :
    ∃ pre, pre.length = n
      ∧ divide ((b :: t).map digit) last (w.map digit ++ post)
        = some (pre ++ (longDiv t n w).map digit ++ post) := by
  obtain ⟨s, hrun, pre, cur, hpre, -, rfl, hcur⟩ := forLoop_spec
    (s := w.map digit ++ post)
    (f := fun i temp => do
      let c ← temp[i]?
      if c = '1' then xor_op temp ((b :: t).map digit) i ((b :: t).map digit).length
        else some temp)
    (fun i s => ∃ pre cur, pre.length = i ∧ cur.length + i = w.length
      ∧ s = pre ++ cur.map digit ++ post ∧ longDiv t (n - i) cur = longDiv t n w)
    (Nat.zero_le n) ⟨[], w, rfl, rfl, rfl, rfl⟩ (by
      rintro i s - hi ⟨pre, cur, rfl, hlen, rfl, hcur⟩
      cases cur with
      | nil =>
          rw [List.length_nil] at hlen
          omega
      | cons c cur =>
          rw [List.length_cons] at hlen
          rw [show n - pre.length = n - (pre.length + 1) + 1 by omega, longDiv] at hcur
          have hread : (pre ++ (c :: cur).map digit ++ post)[pre.length]? = some (digit c) := by
            rw [List.append_assoc]
            exact getElem?_append_cons pre (digit c) (cur.map digit ++ post)
          simp only [hread, Option.bind_eq_bind, Option.bind_some]
          -- a leading `0` is passed over, on a leading `1` the generator is added
          cases c with
          | false =>
              refine ⟨_, if_neg (by decide), pre ++ ['0'], cur, by simp, by omega, ?_, hcur⟩
              simp [digit]
          | true =>
              refine ⟨pre ++ (xorOnto (true :: cur) (b :: t)).map digit ++ post, ?_,
                pre ++ [digit (true ^^ b)], xorOnto cur t, by simp, ?_, ?_, hcur⟩
              · rw [if_pos (show digit true = '1' from rfl), List.length_map]
                exact xor_op_spec pre post (by rw [List.length_cons, List.length_cons]; omega)
              · rw [length_xorOnto]
                omega
              · rw [xorOnto]
                simp)
  refine ⟨pre, hpre, ?_⟩
  rw [Nat.sub_self, show longDiv t 0 cur = cur by cases cur <;> rfl] at hcur
  rw [divide, hlast, Int.toNat_natCast, hrun, hcur]

end Divide

/-! ## The sender -/

section Sides

variable {b : Bool} {t w : List Bool} {n : ℕ}

/-- The dividend of the sender: the data with a zero for each bit of the remainder. -/
theorem prepare_spec {temp : List Char} (d : List Char) {g : ℕ} (hg : 0 < g)
    (hlen : d.length + g ≤ temp.length) :
    ∃ rest, prepare temp d g = some (d ++ List.replicate (g - 1) '0' ++ NUL :: rest) := by
  -- the loop appends one zero after the other
  obtain ⟨s, hrun, rest, rfl, hrest⟩ := forLoop_spec
    (s := d ++ NUL :: temp.drop (d.length + 1))
    (f := fun i temp => store temp (d.length + i) '0')
    (fun i s => ∃ rest, s = d ++ List.replicate i '0' ++ rest
      ∧ d.length + i + rest.length = temp.length)
    (Nat.zero_le (g - 1))
    ⟨NUL :: temp.drop (d.length + 1), by simp, by
      rw [List.length_cons, List.length_drop]
      omega⟩ (by
      rintro i s - hi ⟨rest, rfl, hrest⟩
      cases rest with
      | nil =>
          rw [List.length_nil] at hrest
          omega
      | cons x rest =>
          rw [List.length_cons] at hrest
          have hpos : d.length + i = (d ++ List.replicate i '0').length := by simp
          refine ⟨_, by rw [hpos, store_append_cons], rest, ?_, by omega⟩
          rw [List.replicate_succ']
          simp only [List.append_assoc, List.cons_append, List.nil_append])
  cases rest with
  | nil =>
      rw [List.length_nil] at hrest
      omega
  -- and the NUL goes behind the last of them
  | cons x rest =>
      refine ⟨rest, ?_⟩
      have hpos : (d.length : ℤ) + g - 1 = ((d ++ List.replicate (g - 1) '0').length : ℕ) := by
        rw [List.length_append, List.length_replicate]
        omega
      rw [prepare, strcpy, if_pos (by omega)]
      simp only [Option.bind_eq_bind, Option.bind_some]
      rw [hrun, Option.bind_some, hpos, idx_natCast, Option.bind_some, store_append_cons]

/-- The division of the sender leaves the check bits behind `d.length` cells. -/
theorem divide_padded_spec (b : Bool) (t d : List Bool) (rest : List Char) {last : ℤ}
    (hlast : last + 1 = d.length) :
    ∃ temp, divide ((b :: t).map digit) last
        ((d ++ List.replicate t.length false).map digit ++ NUL :: rest) = some temp
      ∧ temp.drop d.length = (checkBits t d).map digit ++ NUL :: rest := by
  obtain ⟨pre, hpre, hdiv⟩ := divide_spec (b := b) (t := t)
    (w := d ++ List.replicate t.length false) (n := d.length) (NUL :: rest) hlast (by simp)
  refine ⟨_, hdiv, ?_⟩
  rw [← hpre, List.append_assoc, List.drop_left, hpre]
  rfl

/-- The copy into the result: the `strncpy`, and the `NUL` behind it. -/
theorem copy_spec {r remainder : List Char} (hr : ∀ c ∈ r, c ≠ NUL) (rest : List Char)
    (hrem : r.length < remainder.length) :
    ∃ tail, (strncpy remainder (r ++ NUL :: rest) r.length).bind
        (fun out => store out r.length NUL) = some (r ++ NUL :: tail) := by
  have hcopy : strncpy remainder (r ++ NUL :: rest) r.length
      = some (r ++ remainder.drop r.length) := by
    rw [strncpy, if_pos ⟨by omega, Or.inl (by simp)⟩, cstr_append_nul hr, Nat.sub_self,
      List.take_of_length_le (Nat.le_refl _)]
    simp
  have hstore := store_append_cons r remainder[r.length] NUL (remainder.drop (r.length + 1))
  refine ⟨remainder.drop (r.length + 1), ?_⟩
  rw [hcopy, Option.bind_some, List.drop_eq_getElem_cons hrem, hstore]

/-- The last step of the sender: `r` has been divided out behind the data. -/
theorem compute_crc_of_divide {temp temp' temp'' d g remainder r rest : List Char}
    (hprep : prepare temp d g.length = some temp')
    (hdiv : divide g ((d.length : ℤ) + g.length - 1 - g.length) temp' = some temp'')
    (hdrop : temp''.drop d.length = r ++ NUL :: rest) (hr : ∀ c ∈ r, c ≠ NUL)
    (hlen : r.length + 1 = g.length) (hmax : r.length < 2 ^ 64)
    (hrem : r.length < remainder.length) :
    ∃ tail, compute_crc temp d g remainder = some (r ++ NUL :: tail) := by
  obtain ⟨tail, hcopy⟩ := copy_spec hr rest hrem
  have hsize : uint 64 ((g.length : ℤ) - 1) = r.length := by
    rw [uint_of_nonneg (by omega) (by omega)]
    omega
  have hlast : idx ((g.length : ℤ) - 1) = some r.length := by
    rw [← hlen, Nat.cast_succ, add_sub_cancel_right, idx_natCast]
  refine ⟨tail, ?_⟩
  rw [compute_crc]
  simp only [Option.bind_eq_bind]
  rw [hprep, Option.bind_some, hdiv, Option.bind_some, hdrop, hsize, hlast]
  simp only [Option.bind_some]
  exact hcopy

/-- **The sender** returns the check bits: the remainder that the division of the data, with as
many zeros behind it, leaves. -/
theorem compute_crc_spec {temp remainder : List Char} (b : Bool) (t d : List Bool)
    (htemp : temp.length = MAX_LEN) (hlen : d.length + t.length < MAX_LEN)
    (hrem : t.length < remainder.length) :
    ∃ out, compute_crc temp (d.map digit) ((b :: t).map digit) remainder = some out
      ∧ cstr out = (checkBits t d).map digit := by
  have hr := length_checkBits t d
  rw [MAX_LEN] at hlen
  -- the zeros are false bits, so the dividend is a word of bits
  obtain ⟨rest, hprep⟩ := @prepare_spec temp (d.map digit) (t.length + 1) (Nat.succ_pos t.length)
    (by rw [htemp, MAX_LEN, List.length_map]; omega)
  rw [Nat.succ_sub_one, show '0' = digit false from rfl, ← List.map_replicate, ← List.map_append]
    at hprep
  -- the division leaves the check bits in their place
  obtain ⟨temp', hdiv, hdrop⟩ := divide_padded_spec b t d rest
    (show (d.length : ℤ) + (t.length + 1 : ℕ) - 1 - (t.length + 1 : ℕ) + 1 = d.length by omega)
  obtain ⟨tail, hrun⟩ := @compute_crc_of_divide temp _ temp' (d.map digit) ((b :: t).map digit)
    remainder ((checkBits t d).map digit) rest
    (by rw [List.length_map, List.length_cons]; exact hprep)
    (by rw [List.length_map, List.length_map, List.length_cons]; exact hdiv)
    (by rw [List.length_map]; exact hdrop)
    (fun c hc => by
      obtain ⟨x, -, rfl⟩ := List.mem_map.mp hc
      exact digit_ne_nul x)
    (by rw [List.length_map, List.length_map, hr, List.length_cons])
    (by rw [List.length_map, hr]; omega) (by rwa [List.length_map, hr])
  exact ⟨_, hrun, cstr_digits _ tail⟩

/-! ## The receiver -/

/-- The check of the remaining bits, from the first of them on. -/
theorem check_loop_spec (pre : List Char) (r : List Bool) (post : List Char) :
    loop (check_body ((pre.length : ℤ) + r.length) (pre ++ r.map digit ++ post)) pre.length
      = some (if r = List.replicate r.length false then 1 else 0) := by
  induction r generalizing pre with
  | nil =>
      apply loop_done
      rw [check_body, if_neg (by simp)]
      rfl
  | cons x r ih =>
      have hread : (pre ++ (x :: r).map digit ++ post)[pre.length]? = some (digit x) := by
        rw [List.append_assoc]
        exact getElem?_append_cons pre (digit x) (r.map digit ++ post)
      have hbody : check_body ((pre.length : ℤ) + (x :: r).length)
          (pre ++ (x :: r).map digit ++ post) pre.length
          = if digit x ≠ '0' then some (.done 0) else some (.next ((pre.length : ℤ) + 1)) := by
        rw [check_body, if_pos (by rw [List.length_cons]; omega), idx, if_pos (by omega)]
        simp only [Option.bind_eq_bind, Option.bind_some, Int.toNat_natCast, hread]
      -- a one ends the check with `0`, a zero goes on
      cases x with
      | true =>
          rw [loop_done (hbody.trans (if_pos (by decide)))]
          simp [List.replicate_succ]
      | false =>
          rw [loop_next (hbody.trans (if_neg (by decide)))]
          have hnext := ih (pre ++ ['0'])
          rw [List.length_append, List.length_singleton, List.append_assoc pre] at hnext
          simp only [List.length_cons, List.replicate_succ, List.cons.injEq, true_and]
          convert hnext using 3
          · push_cast
            omega
          · rfl
          · exact (Nat.cast_succ pre.length).symm

/-- The receiver accepts when the long division leaves zeros. What it divides is the word it has
got, with no zeros put behind it. -/
theorem check_crc_spec {temp : List Char} (b : Bool) (htemp : w.length < temp.length)
    (hn : w.length = n + t.length) :
    check_crc temp (w.map digit) ((b :: t).map digit)
      = some (if longDiv t n w = List.replicate t.length false then 1 else 0) := by
  obtain ⟨pre, hpre, hdiv⟩ := divide_spec (b := b) (t := t) (w := w) (n := n)
    (NUL :: temp.drop (w.length + 1))
    (show (w.length : ℤ) - (t.length + 1 : ℕ) + 1 = n by omega) hn.ge
  have hr : (longDiv t n w).length = t.length := by
    rw [length_longDiv (by omega)]
    omega
  have hcheck := check_loop_spec pre (longDiv t n w) (NUL :: temp.drop (w.length + 1))
  rw [hr, hpre] at hcheck
  rw [check_crc, strcpy, if_pos (by rwa [List.length_map])]
  simp only [Option.bind_eq_bind, Option.bind_some, List.length_map, List.length_cons]
  rw [hdiv, Option.bind_some, ← hcheck]
  congr 2
  · rw [hn]
    push_cast
    rfl
  · omega

/-- The receiver's answer in terms of polynomials: it accepts the multiples of the generator, and
no others. -/
theorem check_crc_eq_some {temp : List Char} (htemp : w.length < temp.length)
    (hlen : t.length ≤ w.length) :
    (poly (true :: t) ∣ poly w
        → check_crc temp (w.map digit) ((true :: t).map digit) = some 1)
      ∧ (¬ poly (true :: t) ∣ poly w
        → check_crc temp (w.map digit) ((true :: t).map digit) = some 0) := by
  have hn : w.length = (w.length - t.length) + t.length := by omega
  rw [check_crc_spec true htemp hn, ← longDiv_eq_zeros_iff hn]
  exact ⟨fun h => by rw [if_pos h], fun h => by rw [if_neg h]⟩

end Sides

/-! ## The code -/

/-- **The check is polynomial division.** With any generator, not only one that starts
with `'1'`, the receiver accepts what the sender sends. With one that does, the sender's
bits are the remainder, and the receiver accepts exactly the multiples; the words are
those its array has room for. -/
theorem crc_is_division {G : List Char} (hG : Binary G) (hne : G ≠ []) :
    (∀ D temp temp' remainder, Binary D → D.length + G.length - 1 ≤ 2047
      → temp.length = MAX_LEN → temp'.length = MAX_LEN → G.length ≤ remainder.length →
      ∃ out, compute_crc temp D G remainder = some out
        ∧ (cstr out).length = G.length - 1
        ∧ check_crc temp' (D ++ cstr out) G = some 1
        ∧ (G.head? = some '1' → poly (bits (cstr out))
            = poly (bits D) * X ^ (G.length - 1) %ₘ poly (bits G)))
    ∧ (G.head? = some '1' → ∀ c temp, Binary c → G.length - 1 ≤ c.length → c.length ≤ 2047
      → temp.length = MAX_LEN →
      ∃ v, check_crc temp c G = some v ∧ (v = 1 ↔ poly (bits G) ∣ poly (bits c))) := by
  obtain ⟨g, rfl⟩ := hG.exists_bits
  cases g with
  | nil => exact absurd rfl hne
  | cons b t =>
      have hhead : ((b :: t).map digit).head? = some '1' → b = true := by
        cases b with
        | true => exact fun _ => rfl
        | false => exact fun h => absurd (Option.some.inj h) (by decide)
      constructor
      · intro D temp temp' remainder hD hlen htemp htemp' hrem
        obtain ⟨d, rfl⟩ := hD.exists_bits
        simp only [List.length_map, List.length_cons, Nat.add_sub_cancel] at hlen hrem ⊢
        obtain ⟨out, hrun, hout⟩ := compute_crc_spec b t d htemp (by rw [MAX_LEN]; omega) hrem
        have hword : (d ++ checkBits t d).length = d.length + t.length := by simp
        refine ⟨out, hrun, by rw [hout, List.length_map, length_checkBits], ?_, ?_⟩
        · -- the codeword leaves zeros, whatever the generator starts with
          have hfit : (d ++ checkBits t d).length < temp'.length := by
            rw [hword, htemp', MAX_LEN]
            omega
          rw [hout, ← List.map_append, check_crc_spec b hfit hword, longDiv_append_checkBits,
            if_pos rfl]
        · intro hb
          obtain rfl := hhead hb
          rw [hout, bits_digit, bits_digit, bits_digit, poly_checkBits]
      · intro hb c temp hc hlen hlen' htemp
        obtain rfl := hhead hb
        obtain ⟨w, rfl⟩ := hc.exists_bits
        simp only [List.length_map, List.length_cons, Nat.add_sub_cancel] at hlen hlen'
        obtain ⟨hyes, hno⟩ := @check_crc_eq_some t w temp (by rw [htemp, MAX_LEN]; omega) hlen
        rw [bits_digit, bits_digit]
        by_cases hdvd : poly (true :: t) ∣ poly w
        · exact ⟨1, hyes hdvd, iff_of_true rfl hdvd⟩
        · exact ⟨0, hno hdvd, iff_of_false (by decide) hdvd⟩

/-- The default data and generator of `main`. -/
theorem crc_is_division_main :
    ∃ out, compute_crc (List.replicate MAX_LEN NUL) ['1', '0', '0', '1', '0', '0']
        ['1', '1', '0', '1'] (List.replicate MAX_LEN NUL) = some out
      ∧ check_crc (List.replicate MAX_LEN NUL) (['1', '0', '0', '1', '0', '0'] ++ cstr out)
        ['1', '1', '0', '1'] = some 1 := by
  have hG : Binary ['1', '1', '0', '1'] := binary_digit [true, true, false, true]
  have hD : Binary ['1', '0', '0', '1', '0', '0'] :=
    binary_digit [true, false, false, true, false, false]
  have hlen : (List.replicate MAX_LEN NUL).length = MAX_LEN := List.length_replicate
  obtain ⟨out, hrun, -, hcheck, -⟩ := (crc_is_division hG (by decide)).1 _ _ _ _ hD
    (by decide) hlen hlen (by rw [hlen]; decide)
  exact ⟨out, hrun, hcheck⟩

/-- A word the array has no room for: `strcpy` writes beyond the end of `temp`. -/
theorem check_crc_none {temp c : List Char} (G : List Char) (htemp : temp.length = MAX_LEN)
    (hc : MAX_LEN ≤ c.length) : check_crc temp c G = none := by
  rw [check_crc, strcpy, if_neg (by omega)]
  rfl

/-- The receiver copies every word into an array of `2048` cells, so the division cannot
be right on a word of `2048` bits. -/
theorem not_crc_is_division :
    ¬ ∀ G c temp, Binary G → G.head? = some '1' → Binary c → G.length - 1 ≤ c.length
      → temp.length = MAX_LEN →
      ∃ v, check_crc temp c G = some v ∧ (v = 1 ↔ poly (bits G) ∣ poly (bits c)) := by
  intro h
  obtain ⟨v, hv, -⟩ := h ['1'] (List.replicate MAX_LEN '0') (List.replicate MAX_LEN NUL)
    (binary_digit [true]) rfl (fun c hc => Or.inl (List.eq_of_mem_replicate hc))
    (Nat.zero_le _) List.length_replicate
  rw [check_crc_none ['1'] List.length_replicate (by rw [List.length_replicate])] at hv
  exact absurd hv (by simp)

/-! ## Bursts -/

/-- The flip of scenario 2 of `main`, at every position of `E`. -/
def corrupt_codeword (E : Finset ℕ) (codeword : List Char) : List Char :=
  codeword.mapIdx fun i c => if i ∈ E then (if c = '1' then '0' else '1') else c

/-- The positions of `E` as a word of `n` bits. -/
def errors (E : Finset ℕ) (n : ℕ) : List Bool :=
  (List.range n).map fun i => decide (i ∈ E)

theorem getElem?_errors {E : Finset ℕ} {n i : ℕ} :
    (errors E n)[i]? = some true ↔ i < n ∧ i ∈ E := by
  rw [errors, List.getElem?_map]
  rcases Nat.lt_or_ge i n with hlt | hge
  · simp [hlt]
  · rw [List.getElem?_eq_none (by rwa [List.length_range])]
    exact iff_of_false (by simp) (by omega)

/-- To flip bits is to add a word over the field of two elements, with ones at the positions that
are flipped. -/
theorem mapIdx_flip (p : ℕ → Prop) [DecidablePred p] (w : List Bool) :
    (w.map digit).mapIdx (fun i c => if p i then (if c = '1' then '0' else '1') else c)
      = (xorOnto w ((List.range w.length).map fun i => decide (p i))).map digit := by
  induction w generalizing p with
  | nil => rfl
  | cons b w ih =>
      have hbit : (if p 0 then (if digit b = '1' then '0' else '1') else digit b)
          = digit (b ^^ decide (p 0)) := by
        by_cases hp : p 0
        · rw [if_pos hp, decide_eq_true hp, ← digit_xor]
          rfl
        · rw [if_neg hp, decide_eq_false hp, Bool.xor_false]
      rw [List.map_cons, List.mapIdx_cons, List.length_cons, List.range_succ_eq_map,
        List.map_cons, List.map_map, xorOnto, List.map_cons, hbit]
      exact congrArg _ (ih fun i => p (i + 1))

section Bursts

variable {G c : List Char} {temp temp' : List Char} {E : Finset ℕ}

/-- **Bursts are detected.** With a generator that starts and ends with `'1'`, no word the
receiver accepts is still accepted after errors that lie closer together than the generator
is long. -/
theorem detects_bursts (hG : Binary G) (hlen : 2 ≤ G.length) (hhead : G.head? = some '1')
    (hlast : G.getLast? = some '1') (hc : Binary c) (hGc : G.length ≤ c.length)
    (htemp : temp.length = MAX_LEN) (haccept : check_crc temp c G = some 1)
    (hE : E.Nonempty) (hword : ∀ i ∈ E, i < c.length)
    (hburst : ∀ i ∈ E, ∀ j ∈ E, j ≤ i + (G.length - 2)) (htemp' : temp'.length = MAX_LEN) :
    check_crc temp' (corrupt_codeword E c) G = some 0 := by
  have hfit : c.length < MAX_LEN := by
    by_contra hge
    rw [check_crc_none G htemp (by omega)] at haccept
    cases haccept
  obtain ⟨g, rfl⟩ := hG.exists_bits
  obtain ⟨w, rfl⟩ := hc.exists_bits
  cases g with
  | nil => cases hhead
  | cons b t =>
      obtain rfl : b = true := digit_injective (Option.some.inj hhead)
      have hlast' : (true :: t).getLast? = some true := by
        rw [List.getLast?_map, Option.map_eq_some_iff] at hlast
        obtain ⟨x, hx, hdigit⟩ := hlast
        obtain rfl : x = true := digit_injective hdigit
        exact hx
      simp only [List.length_map, List.length_cons] at hlen hGc hfit hword hburst
      have herrors : (errors E w.length).length = w.length := by simp [errors]
      -- accepted words are multiples, and the errors are none
      have hw : poly (true :: t) ∣ poly w := by
        by_contra hnot
        rw [(check_crc_eq_some (by omega) (by omega)).2 hnot] at haccept
        exact absurd (Option.some.inj haccept) (by decide)
      have he : ¬ poly (true :: t) ∣ poly (errors E w.length) := by
        apply not_dvd_burst hlast'
        · obtain ⟨i, hi⟩ := hE
          exact ⟨i, getElem?_errors.mpr ⟨hword i hi, hi⟩⟩
        · intro i j hi hj
          have := hburst i (getElem?_errors.mp hi).2 j (getElem?_errors.mp hj).2
          omega
      have hsum : poly (xorOnto w (errors E w.length)) = poly w + poly (errors E w.length) := by
        rw [poly_xorOnto herrors.le, herrors, Nat.sub_self, pow_zero, mul_one]
      have hcorrupt : corrupt_codeword E (w.map digit)
          = (xorOnto w (errors E w.length)).map digit := mapIdx_flip (· ∈ E) w
      rw [hcorrupt]
      refine (check_crc_eq_some ?_ ?_).2 ?_
      · rw [length_xorOnto]
        omega
      · rw [length_xorOnto]
        omega
      · rw [hsum]
        exact fun hdvd => he ((dvd_add_right hw).mp hdvd)

/-- Scenario 2 of `main`: the first bit of the codeword is flipped. -/
theorem detects_bursts_main :
    check_crc (List.replicate MAX_LEN NUL) ("100100001".toList) ("1101".toList) = some 1
    ∧ check_crc (List.replicate MAX_LEN NUL) ("000100001".toList) ("1101".toList) = some 0 := by
  have hG : Binary "1101".toList := binary_digit [true, true, false, true]
  have hc : Binary "100100001".toList :=
    binary_digit [true, false, false, true, false, false, false, false, true]
  have htemp : (List.replicate MAX_LEN NUL).length = MAX_LEN := List.length_replicate
  have haccept : check_crc (List.replicate MAX_LEN NUL) ("100100001".toList) ("1101".toList)
      = some 1 :=
    @check_crc_spec [true, false, true]
      [true, false, false, true, false, false, false, false, true] 6 _ true
      (by rw [htemp]; decide) rfl
  have hcorrupt : corrupt_codeword {0} "100100001".toList = "000100001".toList := by decide
  have hreject := detects_bursts hG (by decide) rfl rfl hc (by decide) htemp haccept
    (Finset.singleton_nonempty 0) (by decide) (by decide) htemp
  rw [hcorrupt] at hreject
  exact ⟨haccept, hreject⟩

end Bursts

end CourseLabs.Crc
