/-
`byte_stuffing.c`: `byte_unstuff` on a payload that was not stuffed.

An escape takes whatever is behind it. Behind the last character of the payload that is the
`NUL`, which is copied, and the loop goes on in the memory behind the payload. Escapes take
each other in pairs, so it is the number of them at the very end that decides.
-/
import CourseLabs.ByteFraming

set_option autoImplicit false

namespace CourseLabs.ByteFraming

open CourseLabs.CInt CourseLabs.CLoop CourseLabs.CMem CourseLabs.Stuffing

/-- `byte_unstuff` stays in the payload `s`, and writes no more characters than it has in
front of its own `NUL`. -/
def UnstuffSafe (s : List Char) (flag esc : Char) : Prop :=
  ∀ unstuffed : List Char, s.length < unstuffed.length →
    ∃ written, written.length ≤ s.length ∧ byte_unstuff s unstuffed flag esc
      = some (written ++ NUL :: unstuffed.drop (written.length + 1))

/-- The escapes the payload ends in. -/
def finalEscapes (s : List Char) (esc : Char) : List Char :=
  s.rtakeWhile (· = esc)

section Unstuff

variable {s : List Char} {esc : Char}

/-- What a pass of the loop has read. -/
theorem byte_unstuff_body_cases {v : Vars} {p : Pass Vars Vars}
    (h : byte_unstuff_body s esc v = some p) :
    charAt s v.i = some NUL ∧ p = .done v
      ∨ ∃ c pos v', charAt s v.i = some c ∧ c ≠ NUL
        ∧ (if c = esc then nat32 (v.i + 1) else some v.i) = some pos ∧ (charAt s pos).isSome
        ∧ p = .next v' ∧ v'.i = pos + 1 ∧ pos + 1 < 2 ^ 31 := by
  obtain ⟨c, hc, h'⟩ := Option.bind_eq_some_iff.mp h
  -- the NUL ends the loop; any other byte is copied, an escaped one from the next position
  by_cases hnul : c = NUL
  · left
    rw [if_neg (not_not_intro hnul)] at h'
    exact ⟨hnul ▸ hc, (Option.some.inj h').symm⟩
  · right
    rw [byte_unstuff_body_of_ne hc hnul] at h
    obtain ⟨pos, hpos, h⟩ := Option.bind_eq_some_iff.mp h
    obtain ⟨x, hx, h⟩ := Option.bind_eq_some_iff.mp h
    obtain ⟨out, -, h⟩ := Option.bind_eq_some_iff.mp h
    obtain ⟨j, -, h⟩ := Option.bind_eq_some_iff.mp h
    obtain ⟨i, hi, h⟩ := Option.bind_eq_some_iff.mp h
    obtain ⟨rfl, hlt⟩ := nat32_eq_some_iff.mp hi
    exact ⟨c, pos, _, hc, hnul, hpos, Option.isSome_of_eq_some hx, (Option.some.inj h).symm, rfl,
      hlt⟩

/-- The loop is at the start of `t`, the rest of the payload, and without an answer for `t`
there is none for the payload; or it has gone past the `NUL`. -/
def Inside (s : List Char) (esc : Char) (v : Vars) : Prop :=
  v.i < 2 ^ 31 ∧ (s.length < v.i
    ∨ ∃ pre t, s = pre ++ t ∧ v.i = pre.length
      ∧ ((unescapeFrom esc false t).isSome → (unescapeFrom esc false s).isSome))

/-- A pass keeps to it. -/
theorem Inside.next {v v' : Vars} (hv : Inside s esc v)
    (h : byte_unstuff_body s esc v = some (.next v')) : Inside s esc v' := by
  rcases byte_unstuff_body_cases h with ⟨-, hp⟩ | ⟨c, pos, w, hc, hnul, hpos, hx, hp, hi, hlt⟩
  · cases hp
  · cases hp
    refine ⟨hi ▸ hlt, ?_⟩
    obtain ⟨-, hpast | ⟨pre, t, rfl, hvi, hiff⟩⟩ := hv
    · rw [charAt_past hpast] at hc
      cases hc
    · rw [hvi, charAt_append, Option.some.injEq] at hc
      cases t with
      | nil => exact absurd hc.symm hnul
      | cons c' t =>
          obtain rfl : c' = c := hc
          rw [unescapeFrom] at hiff
          by_cases hesc : c' = esc
          · rw [if_pos hesc] at hpos hiff
            obtain ⟨rfl, -⟩ := nat32_eq_some_iff.mp hpos
            cases t with
            | nil =>
                -- the escape has taken the `NUL`
                left
                rw [List.length_append, List.length_singleton]
                omega
            | cons x t =>
                right
                rw [unescapeFrom, Option.isSome_map] at hiff
                refine ⟨pre ++ [c', x], t, by simp, ?_, hiff⟩
                rw [List.length_append, List.length_cons, List.length_singleton]
                omega
          · right
            rw [if_neg hesc, Option.some.injEq] at hpos
            rw [if_neg hesc, Option.isSome_map] at hiff
            refine ⟨pre ++ [c'], t, by simp, ?_, hiff⟩
            rw [List.length_append, List.length_singleton]
            omega

/-- Where the function returns, the payload is short enough and its escapes pair off. -/
theorem of_byte_unstuff {unstuffed out : List Char} {flag : Char} (hs : NUL ∉ s)
    (h : byte_unstuff s unstuffed flag esc = some out) :
    s.length < 2 ^ 31 ∧ (unescapeFrom esc false s).isSome := by
  obtain ⟨v, hrun, -⟩ := Option.bind_eq_some_iff.mp h
  refine loop_inv (Inside s esc) (fun _ => s.length < 2 ^ 31 ∧ (unescapeFrom esc false s).isSome)
    (fun v v' hv hbody => hv.next hbody) ?_
    (show Inside s esc { i := 0, j := 0, out := unstuffed } from
      ⟨Nat.two_pow_pos 31, Or.inr ⟨[], s, rfl, rfl, id⟩⟩) hrun
  rintro v v' ⟨hlt, hv⟩ hbody
  rcases byte_unstuff_body_cases hbody with ⟨hc, -⟩ | ⟨c, pos, w, -, -, -, -, hp, -⟩
  -- the index has passed the NUL, or it stands at the start of a rest of the text
  · rcases hv with hpast | ⟨pre, t, rfl, hvi, hiff⟩
    · rw [charAt_past hpast] at hc
      cases hc
    · rw [hvi, charAt_append, Option.some.injEq] at hc
      cases t with
      | nil =>
          rw [List.append_nil] at hiff ⊢
          exact ⟨hvi ▸ hlt, hiff rfl⟩
      | cons c t =>
          obtain rfl : c = NUL := hc
          exact absurd (by simp) hs
  · cases hp

/-- **When `byte_unstuff` is safe**: on payloads whose positions are `int`s and that end in an even
number of escapes. An escape that is left over at the end makes the loop copy the `NUL` and go on
behind it. -/
theorem unstuffSafe_iff (hs : NUL ∉ s) (flag esc : Char) :
    UnstuffSafe s flag esc ↔ s.length < 2 ^ 31 ∧ Even (finalEscapes s esc).length := by
  have heven := @unescapeFrom_isSome_iff Char _ esc false s
  rw [if_neg Bool.false_ne_true] at heven
  rw [finalEscapes, ← heven]
  constructor
  · intro h
    obtain ⟨written, -, hrun⟩ := h (List.replicate (s.length + 1) NUL)
      (by rw [List.length_replicate]; exact Nat.lt_succ_self _)
    exact of_byte_unstuff hs hrun
  · rintro ⟨hlt, hsome⟩ unstuffed hroom
    obtain ⟨d, hd⟩ := Option.isSome_iff_exists.mp hsome
    have hle := length_unescapeFrom_le hd
    exact ⟨d, hle, byte_unstuff_writes hd hs (by omega) (by omega)⟩

theorem unstuffSafe_iff_stuffed :
    UnstuffSafe "ABEFCEED".toList DEFAULT_FLAG DEFAULT_ESC
      ↔ "ABEFCEED".toList.length < 2 ^ 31
        ∧ Even (finalEscapes "ABEFCEED".toList DEFAULT_ESC).length :=
  unstuffSafe_iff (by decide) DEFAULT_FLAG DEFAULT_ESC

/-- A payload of one escape: the position after the `NUL` is read. -/
theorem not_unstuffSafe : ¬ UnstuffSafe ['E'] DEFAULT_FLAG DEFAULT_ESC := by
  intro h
  obtain ⟨written, -, hrun⟩ := h [NUL, NUL] (by decide)
  have hsome := (@of_byte_unstuff ['E'] DEFAULT_ESC _ _ _ (by decide) hrun).2
  exact absurd hsome (by decide)

end Unstuff

end CourseLabs.ByteFraming
