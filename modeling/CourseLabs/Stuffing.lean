/-
**Stuffing**: room for a delimiter in a stream that may hold anything.

*Bit stuffing* with run length `w` puts a `false` behind every `w` ones in a row, so that no
more than `w` of them stand together and a flag with `w + 1` ones cannot be taken for data.
*Byte stuffing* puts an escape before every character that is the flag or the escape.

Both are given with the state their encoder and decoder keep, a run of ones so far or an
escape that waits for its character, and the laws are by induction on the word for every
state.
-/
import Mathlib.Algebra.Group.Nat.Even
import Mathlib.Data.Bool.Basic
import Mathlib.Data.Int.Notation
import Mathlib.Data.List.DropRight
import Mathlib.Tactic.Common

set_option autoImplicit false

namespace CourseLabs.Stuffing

/-! ## Occurrences -/

section Occurs

variable {α : Type}

/-- The word `p` stands in `s` at position `i`. -/
def OccursAt (p s : List α) (i : ℕ) : Prop :=
  p <+: s.drop i

instance [DecidableEq α] (p s : List α) (i : ℕ) : Decidable (OccursAt p s i) :=
  inferInstanceAs (Decidable (p <+: s.drop i))

/-- Where a pattern occurs, its elements are those of the text. -/
theorem OccursAt.getElem? {p s : List α} {i : ℕ} (h : OccursAt p s i) {k : ℕ}
    (hk : k < p.length) : s[i + k]? = p[k]? := by
  rw [← List.getElem?_drop, List.getElem?_eq_getElem hk]
  exact List.prefix_iff_getElem?.mp h k hk

/-- A run of equal elements occurs where they follow one another. -/
theorem occursAt_replicate {n i : ℕ} {a : α} {s : List α} :
    OccursAt (List.replicate n a) s i ↔ ∀ k < n, s[i + k]? = some a := by
  unfold OccursAt
  rw [List.prefix_iff_getElem?]
  simp only [List.length_replicate, List.getElem?_drop, List.getElem_replicate]

/-- Letters may be renamed. -/
theorem occursAt_map {β : Type} {f : α → β} (hf : Function.Injective f) {p s : List α} {i : ℕ} :
    OccursAt (p.map f) (s.map f) i ↔ OccursAt p s i := by
  unfold OccursAt
  rw [← List.map_drop, List.prefix_map_iff_of_injective hf]

end Occurs

/-! ## Bit stuffing -/

section Bits

variable {w : ℕ}

/-- The encoder, with `c` ones behind it: when they come to `w` it writes a zero and begins to
count again. -/
def stuffFrom (w : ℕ) : ℕ → List Bool → List Bool
  | _, [] => []
  | _, false :: d => false :: stuffFrom w 0 d
  | c, true :: d =>
      if c + 1 = w then true :: false :: stuffFrom w 0 d else true :: stuffFrom w (c + 1) d

/-- The decoder, with `c` ones behind it. Behind `w` of them it drops a `false`. -/
def unstuffFrom (w : ℕ) : ℕ → List Bool → List Bool
  | _, [] => []
  | c, false :: s => if c = w then unstuffFrom w 0 s else false :: unstuffFrom w 0 s
  | c, true :: s => true :: unstuffFrom w (if c = w then 1 else c + 1) s

/-- A zero behind every `w` ones in a row. -/
def stuff (w : ℕ) (d : List Bool) : List Bool :=
  stuffFrom w 0 d

/-- The bit behind every `w` ones in a row is left out, whatever it is. -/
def unstuff (w : ℕ) (s : List Bool) : List Bool :=
  unstuffFrom w 0 s

/-- The encoder's state behind the bit `b`. -/
def runAfter (w c : ℕ) (b : Bool) : ℕ :=
  if b ∧ c + 1 ≠ w then c + 1 else 0

/-- The count of ones never comes to `w`: a stuffed zero sets it back. -/
theorem runAfter_lt {c : ℕ} (hc : c < w) (b : Bool) : runAfter w c b < w := by
  unfold runAfter
  split
  · omega
  · omega

/-- The encoder writes what the next bit calls for, and goes on from the state behind it. -/
theorem stuffFrom_cons (c : ℕ) (b : Bool) (d : List Bool) :
    stuffFrom w c (b :: d) = stuffFrom w c [b] ++ stuffFrom w (runAfter w c b) d := by
  cases b with
  | false => rfl
  | true =>
      unfold runAfter
      by_cases hfull : c + 1 = w
      · rw [if_neg (by simp [hfull]), stuffFrom, stuffFrom, if_pos hfull, if_pos hfull]
        rfl
      · rw [if_pos ⟨rfl, hfull⟩, stuffFrom, stuffFrom, if_neg hfull, if_neg hfull]
        rfl

/-- Behind `w` ones, a decoder that finds no `false` starts afresh. -/
theorem unstuffFrom_self (hw : 0 < w) {s : List Bool} (hs : s.head? ≠ some false) :
    unstuffFrom w w s = unstuffFrom w 0 s := by
  cases s with
  | nil => rfl
  | cons b s =>
      cases b with
      | false => exact absurd rfl hs
      | true =>
          unfold unstuffFrom
          rw [if_pos rfl, if_neg (by omega)]

/-- Each occurrence of `w` ones is immediately followed by a `false`. -/
def Stuffed (w : ℕ) (s : List Bool) : Prop :=
  ∀ i, OccursAt (List.replicate w true) s i → s[i + w]? = some false

/-! ### What is well stuffed -/

/-- What stands behind ones that have been counted already. -/
theorem getElem?_ones (c : ℕ) (s : List Bool) (j : ℕ) :
    (List.replicate c true ++ s)[j]? = if j < c then some true else s[j - c]? := by
  rw [List.getElem?_append, List.length_replicate, List.getElem?_replicate]
  split
  · rfl
  · rfl

/-- A `false` behind at most `w` ones cuts the word. -/
theorem stuffed_ones_false {c : ℕ} (hc : c ≤ w) (s : List Bool) :
    Stuffed w (List.replicate c true ++ false :: s) ↔ Stuffed w s := by
  have hread : ∀ j, (List.replicate c true ++ false :: s)[c + 1 + j]? = s[j]? := by
    intro j
    rw [getElem?_ones, if_neg (by omega), show c + 1 + j - c = j + 1 by omega,
      List.getElem?_cons_succ]
  have hcut : (List.replicate c true ++ false :: s)[c]? = some false := by
    rw [getElem?_ones, if_neg (by omega), Nat.sub_self, List.getElem?_cons_zero]
  constructor
  · intro h i hocc
    rw [occursAt_replicate] at hocc
    rw [← hread, ← Nat.add_assoc]
    apply h
    rw [occursAt_replicate]
    intro k hk
    rw [Nat.add_assoc, hread, hocc k hk]
  · intro h i hocc
    rw [occursAt_replicate] at hocc
    rcases Nat.lt_or_ge c i with hlt | hle
    -- behind the cut the occurrence is one in `s`
    · obtain ⟨j, rfl⟩ : ∃ j, i = c + 1 + j := ⟨i - (c + 1), by omega⟩
      rw [Nat.add_assoc, hread]
      apply h
      rw [occursAt_replicate]
      intro k hk
      rw [← hread, ← Nat.add_assoc, hocc k hk]
    -- and before it there is room for one only when the ones are `w`
    · rcases Nat.lt_or_ge c (i + w) with hin | hout
      · have := hocc (c - i) (by omega)
        rw [show i + (c - i) = c by omega, hcut] at this
        exact absurd this (by decide)
      · rw [show i + w = c by omega, hcut]

/-- Fewer than `w` ones need no stuffing. -/
theorem stuffed_ones {c : ℕ} (hc : c < w) : Stuffed w (List.replicate c true) := by
  intro i hocc
  rw [occursAt_replicate] at hocc
  have := hocc (w - 1) (by omega)
  rw [List.getElem?_replicate, if_neg (by omega)] at this
  exact absurd this (by decide)

/-- **What the encoder writes is well stuffed**, the ones in front of it counted too. -/
theorem stuffed_stuffFrom (d : List Bool) :
    ∀ {c : ℕ}, c < w → Stuffed w (List.replicate c true ++ stuffFrom w c d) := by
  induction d with
  | nil =>
      intro c hc
      unfold stuffFrom
      rw [List.append_nil]
      exact stuffed_ones hc
  | cons b d ih =>
      intro c hc
      have hw : 0 < w := by omega
      have hone : ∀ s, List.replicate c true ++ true :: s = List.replicate (c + 1) true ++ s := by
        intro s
        rw [List.replicate_succ', List.append_assoc]
        rfl
      -- a zero ends the run, which was short enough
      cases b with
      | false =>
          unfold stuffFrom
          rw [stuffed_ones_false (Nat.le_of_lt hc)]
          simpa using ih hw
      | true =>
          unfold stuffFrom
          -- the run is full, and the stuffed zero ends it
          by_cases hfull : c + 1 = w
          · rw [if_pos hfull, hone, stuffed_ones_false (Nat.le_of_eq hfull)]
            simpa using ih hw
          · rw [if_neg hfull, hone]
            exact ih (by omega)

/-- Stuffing leaves no `w` ones without a zero behind them. -/
theorem stuffed_stuff (hw : 0 < w) (d : List Bool) : Stuffed w (stuff w d) := by
  unfold stuff
  simpa using stuffed_stuffFrom d hw

/-! ### Both ways round -/

/-- Both sides count the same ones, so the receiver drops the zeros the sender put in. Induction on
the data, for every count they may have come to. -/
theorem unstuffFrom_stuffFrom (d : List Bool) :
    ∀ {c : ℕ}, c < w → unstuffFrom w c (stuffFrom w c d) = d := by
  induction d with
  | nil => exact fun _ => rfl
  | cons b d ih =>
      intro c hc
      cases b with
      | false =>
          unfold stuffFrom unstuffFrom
          rw [if_neg (Nat.ne_of_lt hc), ih (by omega)]
      | true =>
          unfold stuffFrom
          by_cases hfull : c + 1 = w
          -- the stuffed `false` is the next thing the decoder sees
          · rw [if_pos hfull, unstuffFrom, if_neg (Nat.ne_of_lt hc), hfull, unstuffFrom, if_pos rfl,
              ih (by omega)]
          · rw [if_neg hfull, unstuffFrom, if_neg (Nat.ne_of_lt hc), ih (by omega)]

/-- With `w` ones behind it a well stuffed word goes on with a `false`, and the encoder puts
it back. -/
theorem stuffFrom_unstuffFrom (hw : 0 < w) (s : List Bool) :
    ∀ {c : ℕ}, c ≤ w → Stuffed w (List.replicate c true ++ s) →
      (if c = w then false :: stuffFrom w 0 (unstuffFrom w c s)
        else stuffFrom w c (unstuffFrom w c s)) = s := by
  induction s with
  | nil =>
      intro c hc hs
      by_cases hfull : c = w
      · have hocc : OccursAt (List.replicate w true) (List.replicate c true ++ []) 0 := by
          rw [hfull, List.append_nil]
          exact List.prefix_refl _
        have := hs 0 hocc
        rw [List.append_nil, List.getElem?_replicate, if_neg (by omega)] at this
        exact absurd this (by decide)
      · rw [if_neg hfull]
        rfl
  | cons b s ih =>
      intro c hc hs
      cases b with
      | false =>
          rw [stuffed_ones_false hc] at hs
          have hrest := @ih 0 (by omega) (by simpa using hs)
          rw [if_neg (by omega)] at hrest
          unfold unstuffFrom
          by_cases hfull : c = w
          · rw [if_pos hfull, if_pos hfull, hrest]
          · rw [if_neg hfull, if_neg hfull, stuffFrom, hrest]
      | true =>
          have hone : List.replicate c true ++ true :: s = List.replicate (c + 1) true ++ s := by
            rw [List.replicate_succ', List.append_assoc]
            rfl
          rw [hone] at hs
          by_cases hfull : c = w
          -- one more than `w` ones in a row
          · have hocc : OccursAt (List.replicate w true) (List.replicate (c + 1) true ++ s) 0 := by
              rw [occursAt_replicate]
              intro k hk
              rw [getElem?_ones, if_pos (by omega)]
            have := hs 0 hocc
            rw [getElem?_ones, if_pos (by omega)] at this
            exact absurd this (by decide)
          · have hrest := @ih (c + 1) (by omega) hs
            unfold unstuffFrom
            rw [if_neg hfull, if_neg hfull, stuffFrom]
            by_cases hnext : c + 1 = w
            · rw [if_pos hnext] at hrest ⊢
              rw [hrest]
            · rw [if_neg hnext] at hrest ⊢
              rw [hrest]

/-- **The round trip**: what was stuffed is what comes out. -/
theorem unstuff_stuff (hw : 0 < w) (d : List Bool) : unstuff w (stuff w d) = d :=
  unstuffFrom_stuffFrom d hw

/-- **The other way round**: every stuffed text is the stuffing of what is taken out of it. So
stuffing is a bijection onto the stuffed texts. -/
theorem stuff_unstuff (hw : 0 < w) {s : List Bool} (hs : Stuffed w s) :
    stuff w (unstuff w s) = s := by
  have h := @stuffFrom_unstuffFrom w hw s 0 (by omega) (by simpa using hs)
  rwa [if_neg (by omega)] at h

/-! ### Lengths -/

/-- Each stuffed zero uses up `w` ones, those counted before included. -/
theorem length_stuffFrom_le (d : List Bool) :
    ∀ {c : ℕ}, c < w → (stuffFrom w c d).length ≤ d.length + (c + d.length) / w := by
  induction d with
  | nil => exact fun _ => Nat.zero_le _
  | cons b d ih =>
      intro c hc
      have hw : 0 < w := by omega
      cases b with
      | false =>
          have hrest := ih hw
          -- ones counted before a zero are lost for the next stuffed zero
          have hmono : (0 + d.length) / w ≤ (c + (d.length + 1)) / w :=
            Nat.div_le_div_right (by omega)
          simp only [stuffFrom, List.length_cons]
          omega
      | true =>
          unfold stuffFrom
          by_cases hfull : c + 1 = w
          · have hrest := ih hw
            -- the stuffed zero is paid for by the `w` ones before it
            have hdiv : (c + (d.length + 1)) / w = (0 + d.length) / w + 1 := by
              rw [show c + (d.length + 1) = 0 + d.length + w by omega, Nat.add_div_right _ hw]
            rw [if_pos hfull]
            simp only [List.length_cons]
            omega
          · have hrest := @ih (c + 1) (by omega)
            rw [if_neg hfull]
            simp only [List.length_cons]
            rw [show c + (d.length + 1) = c + 1 + d.length by omega]
            omega

/-- At most one bit in `w` is added, since each takes that many ones of the word. -/
theorem length_stuff_le (hw : 0 < w) (d : List Bool) :
    (stuff w d).length ≤ d.length + d.length / w := by
  unfold stuff
  simpa using length_stuffFrom_le d hw

/-- And none is taken away. -/
theorem length_le_stuffFrom (d : List Bool) : ∀ c, d.length ≤ (stuffFrom w c d).length := by
  induction d with
  | nil => exact fun _ => Nat.zero_le _
  | cons b d ih =>
      intro c
      cases b with
      | false => exact Nat.succ_le_succ (ih 0)
      | true =>
          unfold stuffFrom
          split
          · have := ih 0
            simp only [List.length_cons]
            omega
          · exact Nat.succ_le_succ (ih (c + 1))

/-- The decoder only drops, so what it writes fits where the input did. -/
theorem length_unstuffFrom_le (s : List Bool) : ∀ c, (unstuffFrom w c s).length ≤ s.length := by
  induction s with
  | nil => exact fun _ => Nat.zero_le _
  | cons b s ih =>
      intro c
      cases b with
      | false =>
          unfold unstuffFrom
          split
          · exact Nat.le_succ_of_le (ih 0)
          · exact Nat.succ_le_succ (ih 0)
      | true => exact Nat.succ_le_succ (ih _)

/-! ### The flag -/

/-- `w + 1` ones between two zeros, one more than a stuffed word has in a row. -/
def flag (w : ℕ) : List Bool :=
  false :: List.replicate (w + 1) true ++ [false]

/-- A flag is a zero, `w + 1` ones, a zero. -/
@[simp] theorem length_flag (w : ℕ) : (flag w).length = w + 3 := by
  simp [flag]

/-- The ones of a flag, by their place. -/
theorem getElem?_flag_ones {k : ℕ} (hk : k < w + 1) : (flag w)[k + 1]? = some true := by
  rw [flag, List.cons_append, List.getElem?_cons_succ, getElem?_ones, if_pos hk]

/-- The zero a flag ends in. -/
theorem getElem?_flag_last (w : ℕ) : (flag w)[w + 2]? = some false := by
  rw [flag, List.cons_append, show w + 2 = w + 1 + 1 from rfl, List.getElem?_cons_succ,
    getElem?_ones, if_neg (by omega), Nat.sub_self, List.getElem?_cons_zero]

/-- **The flag occurs in a frame exactly at its two ends.** Its ones stand together in the
frame, so they lie within one of the flags or within the payload, and the payload has no run
of that length. -/
theorem flag_occursAt_iff (hw : 0 < w) {s : List Bool} (hs : Stuffed w s) (i : ℕ) :
    OccursAt (flag w) (flag w ++ s ++ flag w) i ↔ i = 0 ∨ i = (flag w).length + s.length := by
  constructor
  · intro hocc
    have hones : ∀ k < w + 1, (flag w ++ s ++ flag w)[i + (k + 1)]? = some true := by
      intro k hk
      rw [hocc.getElem? (by rw [length_flag]; omega), getElem?_flag_ones hk]
    -- no zero of the frame stands among them
    have hzero : ∀ z, (flag w ++ s ++ flag w)[z]? = some false → ¬ (i < z ∧ z ≤ i + (w + 1)) := by
      rintro z hz ⟨hlo, hhi⟩
      have := hones (z - i - 1) (by omega)
      rw [show i + (z - i - 1 + 1) = z by omega, hz] at this
      exact absurd this (by decide)
    have hopen : (flag w ++ s ++ flag w)[w + 2]? = some false := by
      rw [List.append_assoc, List.getElem?_append_left (by rw [length_flag]; omega),
        getElem?_flag_last]
    have hclose : (flag w ++ s ++ flag w)[w + 3 + s.length]? = some false := by
      rw [List.getElem?_append_right (by simp), List.length_append, length_flag, Nat.sub_self]
      rfl
    have hend : i + (w + 1) < w + 3 + s.length + (w + 3) := by
      have hsome := hones w (by omega)
      have := (List.getElem?_eq_some_iff.mp hsome).1
      simp only [List.length_append, length_flag] at this
      omega
    have hlast : (flag w ++ s ++ flag w)[w + 3 + s.length + (w + 2)]? = some false := by
      rw [List.getElem?_append_right (by simp), List.length_append, length_flag,
        Nat.add_sub_cancel_left, getElem?_flag_last]
    have h1 := hzero _ hopen
    have h2 := hzero _ hclose
    have h3 := hzero _ hlast
    rw [length_flag]
    by_contra hne
    push Not at hne
    -- what is left is a run inside the payload
    obtain ⟨m, rfl⟩ : ∃ m, i = w + 2 + m := ⟨i - (w + 2), by omega⟩
    have hm : m + w < s.length := by omega
    have hpayload : ∀ k < w + 1, s[m + k]? = some true := by
      intro k hk
      have := hones k hk
      rwa [List.append_assoc, List.getElem?_append_right (by rw [length_flag]; omega),
        List.getElem?_append_left (by rw [length_flag]; omega), length_flag,
        show w + 2 + m + (k + 1) - (w + 3) = m + k by omega] at this
    have hrun : OccursAt (List.replicate w true) s m :=
      occursAt_replicate.mpr (fun k hk => hpayload k (by omega))
    have hfalse := hs m hrun
    rw [hpayload w (by omega)] at hfalse
    exact absurd hfalse (by decide)
  · rintro (rfl | rfl)
    · rw [List.append_assoc]
      exact List.prefix_append _ _
    · have hdrop : (flag w ++ s ++ flag w).drop ((flag w).length + s.length) = flag w := by
        rw [← List.length_append, List.drop_left]
      unfold OccursAt
      exact ⟨[], by rw [List.append_nil, hdrop]⟩

end Bits

/-! ## Byte stuffing -/

section Bytes

variable {α : Type} [DecidableEq α] {flag esc : α}

/-- `esc` in front of every `flag` and every `esc`. -/
def escape (flag esc : α) : List α → List α
  | [] => []
  | c :: d =>
      if c = flag ∨ c = esc then esc :: c :: escape flag esc d else c :: escape flag esc d

/-- The decoder; the `Bool` is whether an escape waits for its character. It has no answer
when none comes. -/
def unescapeFrom (esc : α) : Bool → List α → Option (List α)
  | false, [] => some []
  | true, [] => none
  | false, c :: s =>
      if c = esc then unescapeFrom esc true s else (unescapeFrom esc false s).map (c :: ·)
  | true, c :: s => (unescapeFrom esc false s).map (c :: ·)

/-- The position of the first flag that no escape hides. -/
def scanFrom (flag esc : α) : Bool → List α → Option ℕ
  | _, [] => none
  | true, _ :: s => (scanFrom flag esc false s).map (· + 1)
  | false, c :: s =>
      if c = flag then some 0 else (scanFrom flag esc (c = esc) s).map (· + 1)

/-- Characters are escaped one by one, whatever stands before or behind them. -/
theorem escape_cons (c : α) (d : List α) :
    escape flag esc (c :: d) = escape flag esc [c] ++ escape flag esc d := by
  by_cases hesc : c = flag ∨ c = esc
  · rw [escape, escape, if_pos hesc, if_pos hesc]
    rfl
  · rw [escape, escape, if_neg hesc, if_neg hesc]
    rfl

/-- **The round trip** of byte stuffing: an escaped text ends with no escape pending, and is the
text. -/
theorem unescapeFrom_escape (d : List α) :
    unescapeFrom esc false (escape flag esc d) = some d := by
  induction d with
  | nil => rfl
  | cons c d ih =>
      unfold escape
      by_cases hc : c = flag ∨ c = esc
      · rw [if_pos hc, unescapeFrom, if_pos rfl, unescapeFrom, ih, Option.map_some]
      · rw [if_neg hc, unescapeFrom, if_neg (fun h => hc (Or.inr h)), ih, Option.map_some]

/-- **The scanner goes over stuffed data and stops at the flag behind it.** -/
theorem scanFrom_escape (hne : flag ≠ esc) (d rest : List α) :
    scanFrom flag esc false (escape flag esc d ++ flag :: rest)
      = some (escape flag esc d).length := by
  induction d with
  | nil =>
      unfold escape
      rw [List.nil_append, scanFrom, if_pos rfl, List.length_nil]
  | cons c d ih =>
      unfold escape
      by_cases hc : c = flag ∨ c = esc
      -- the escape is no flag, and hides the character behind it
      · rw [if_pos hc, List.cons_append, List.cons_append, scanFrom, if_neg (Ne.symm hne),
          decide_eq_true rfl, scanFrom, ih]
        rfl
      · rw [if_neg hc, List.cons_append, scanFrom, if_neg (fun h => hc (Or.inl h)),
          decide_eq_false (fun h => hc (Or.inr h)), ih]
        rfl

/-- Escaping doubles the length at most: each character gets one escape or none. -/
theorem length_escape_le (d : List α) : (escape flag esc d).length ≤ 2 * d.length := by
  induction d with
  | nil => exact Nat.le_refl 0
  | cons c d ih =>
      unfold escape
      split
      · simp only [List.length_cons]
        omega
      · simp only [List.length_cons]
        omega

/-- Escaping brings in nothing but `esc`, so what was not in the data is not in their escaped form.
-/
theorem mem_of_mem_escape {d : List α} {c : α} (h : c ∈ escape flag esc d) :
    c = esc ∨ c ∈ d := by
  induction d with
  | nil => exact absurd h List.not_mem_nil
  | cons x d ih =>
      unfold escape at h
      by_cases hx : x = flag ∨ x = esc
      · rw [if_pos hx] at h
        rcases List.mem_cons.mp h with rfl | h
        · exact Or.inl rfl
        · rcases List.mem_cons.mp h with rfl | h
          · exact Or.inr List.mem_cons_self
          · exact (ih h).imp_right (List.mem_cons_of_mem x)
      · rw [if_neg hx] at h
        rcases List.mem_cons.mp h with rfl | h
        · exact Or.inr List.mem_cons_self
        · exact (ih h).imp_right (List.mem_cons_of_mem x)

/-- Taking the escapes out makes nothing longer. -/
theorem length_unescapeFrom_le {s : List α} {waits : Bool} {d : List α}
    (h : unescapeFrom esc waits s = some d) : d.length ≤ s.length := by
  induction s generalizing waits d with
  | nil =>
      cases waits with
      | false => exact (Option.some.inj h) ▸ Nat.le_refl 0
      | true => cases h
  | cons c s ih =>
      have htake : ∀ {d}, (unescapeFrom esc false s).map (c :: ·) = some d →
          d.length ≤ (c :: s).length := by
        intro d hd
        obtain ⟨d', hd', rfl⟩ := Option.map_eq_some_iff.mp hd
        exact Nat.succ_le_succ (ih hd')
      cases waits with
      | true => exact htake h
      | false =>
          rw [unescapeFrom] at h
          by_cases hc : c = esc
          · rw [if_pos hc] at h
            exact (ih h).trans (Nat.le_succ _)
          · rw [if_neg hc] at h
            exact htake h

omit [DecidableEq α] in
/-- The run at the end of a word, with a letter in front of the word. -/
theorem rtakeWhile_cons_of_neg {p : α → Bool} {c : α} (hc : ¬ p c) (s : List α) :
    (c :: s).rtakeWhile p = s.rtakeWhile p := by
  induction s using List.reverseRecOn with
  | nil => exact List.rtakeWhile_concat_neg p [] c hc
  | append_singleton s x ih =>
      rw [← List.cons_append, List.rtakeWhile_concat, List.rtakeWhile_concat, ih]

omit [DecidableEq α] in
/-- A letter of the run and any letter behind it do not change whether the run is even. -/
theorem even_rtakeWhile_cons_cons {p : α → Bool} {c : α} (hc : p c) (x : α) (s : List α) :
    Even ((c :: x :: s).rtakeWhile p).length ↔ Even (s.rtakeWhile p).length := by
  induction s using List.reverseRecOn with
  | nil =>
      rw [show [c, x] = [] ++ [c] ++ [x] from rfl, List.rtakeWhile_concat,
        List.rtakeWhile_concat_pos p [] c hc]
      split
      · rw [List.rtakeWhile_nil]
        exact iff_of_true (by decide : Even 2) Even.zero
      · rw [List.rtakeWhile_nil]
  | append_singleton s y ih =>
      rw [← List.cons_append, ← List.cons_append, List.rtakeWhile_concat, List.rtakeWhile_concat]
      split
      · rw [List.length_append, List.length_append, List.length_singleton, Nat.even_add_one,
          Nat.even_add_one, ih]
      · rfl

/-- **The decoder has an answer when the escapes at the very end pair off**; one that waits
counts as one of them. -/
theorem unescapeFrom_isSome_iff (waits : Bool) (s : List α) :
    (unescapeFrom esc waits s).isSome
      ↔ Even ((if waits then esc :: s else s).rtakeWhile (· = esc)).length := by
  induction s generalizing waits with
  | nil =>
      cases waits with
      | false =>
          rw [if_neg Bool.false_ne_true, List.rtakeWhile_nil]
          exact iff_of_true rfl Even.zero
      | true =>
          rw [if_pos rfl, show [esc] = [] ++ [esc] from rfl,
            List.rtakeWhile_concat_pos _ [] esc (by simp), List.rtakeWhile_nil]
          exact iff_of_false Bool.false_ne_true (by decide : ¬ Even 1)
  | cons c s ih =>
      -- a character that is taken as it is does not change what the end looks like
      have htake : ((unescapeFrom esc false s).map (c :: ·)).isSome
          ↔ Even (s.rtakeWhile (· = esc)).length := by
        rw [Option.isSome_map, ih false]
        rfl
      cases waits with
      | true =>
          rw [unescapeFrom, htake, if_pos rfl]
          exact (even_rtakeWhile_cons_cons (by simp) c s).symm
      | false =>
          rw [unescapeFrom, if_neg Bool.false_ne_true]
          -- an escape begins a pair
          by_cases hc : c = esc
          · rw [if_pos hc, ih true, if_pos rfl, hc]
          · rw [if_neg hc, htake, rtakeWhile_cons_of_neg (by simpa using hc)]

end Bytes

end CourseLabs.Stuffing
