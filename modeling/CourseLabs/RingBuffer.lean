/-
**Ring buffers.** A first-in-first-out list kept in a fixed array: the elements lie one
after the other from `head` on, and past the last cell they go on at the first.

`Holds cells head l` is the representation. It does not mention the position of the next
free cell, which follows from `head` and the number of elements, and it is what makes the
full buffer and the empty one different although both have that position at `head`.
-/
import Mathlib.Data.List.Basic
import Mathlib.Tactic.Common

set_option autoImplicit false

namespace CourseLabs.RingBuffer

section Ring

variable {α : Type} {cells : List α} {head : ℕ} {l : List α}

/-- The buffer holds `l`: its elements lie in a row from `head` on, around the end of the cells if
need be. -/
structure Holds (cells : List α) (head : ℕ) (l : List α) : Prop where
  head_lt : head < cells.length
  room : l.length ≤ cells.length
  cell : ∀ i, i < l.length → cells[(head + i) % cells.length]? = l[i]?

/-- The elements, read out of the cells, one for each of the `count` places from `head` on. -/
def contents (cells : List α) (head count : ℕ) : List α :=
  (List.range count).filterMap (fun i => cells[(head + i) % cells.length]?)

theorem Holds.nil (h : head < cells.length) : Holds cells head [] :=
  ⟨h, Nat.zero_le _, fun _ hi => absurd hi (Nat.not_lt_zero _)⟩

/-- An index that goes round comes back by at most one turn. -/
theorem add_mod_cases {cap i : ℕ} (hh : head < cap) (hi : i ≤ cap) :
    (head + i) % cap = head + i ∨ (head + i) % cap + cap = head + i := by
  rcases Nat.lt_or_ge (head + i) cap with hlt | hge
  · exact Or.inl (Nat.mod_eq_of_lt hlt)
  · right
    rw [Nat.mod_eq_sub_mod hge]
    rcases Nat.lt_or_ge (head + i - cap) cap with hlt | hge'
    · rw [Nat.mod_eq_of_lt hlt]
      omega
    · omega

/-- The free cell is none of those in use. -/
theorem add_mod_ne {cap n i : ℕ} (hh : head < cap) (hn : n < cap) (hi : i < n) :
    (head + i) % cap ≠ (head + n) % cap := by
  have h1 := add_mod_cases hh (show i ≤ cap by omega)
  have h2 := add_mod_cases hh (show n ≤ cap by omega)
  omega

/-- Writing the next free cell appends, and there is a free cell as long as the list is shorter
than the array. -/
theorem Holds.push (h : Holds cells head l) (hroom : l.length < cells.length) (x : α) :
    Holds (cells.set ((head + l.length) % cells.length) x) head (l ++ [x]) := by
  have hfree : (head + l.length) % cells.length < cells.length :=
    Nat.mod_lt _ (by omega)
  refine ⟨by rw [List.length_set]; exact h.head_lt, ?_, ?_⟩
  · rw [List.length_append, List.length_set, List.length_singleton]
    omega
  · intro i hi
    rw [List.length_append, List.length_singleton] at hi
    rw [List.length_set]
    rcases Nat.lt_or_ge i l.length with hlt | hge
    · rw [List.getElem?_set_ne (add_mod_ne h.head_lt hroom hlt).symm, h.cell i hlt,
        List.getElem?_append_left hlt]
    · obtain rfl : i = l.length := by omega
      rw [List.getElem?_set_self hfree, List.getElem?_append_right (Nat.le_refl _), Nat.sub_self,
        List.getElem?_cons_zero]

/-- The first element lies at `head`. -/
theorem Holds.front {x : α} (h : Holds cells head (x :: l)) : cells[head]? = some x := by
  have hcell := h.cell 0 (by rw [List.length_cons]; omega)
  rwa [Nat.add_zero, Nat.mod_eq_of_lt h.head_lt, List.getElem?_cons_zero] at hcell

/-- Moving `head` on by one drops it; the cell it was in is free from then on, whatever it
contains. -/
theorem Holds.pop {x : α} (h : Holds cells head (x :: l)) :
    Holds cells ((head + 1) % cells.length) l := by
  have hroom := h.room
  rw [List.length_cons] at hroom
  refine ⟨Nat.mod_lt _ (by omega), by omega, ?_⟩
  intro i hi
  have hcell := h.cell (i + 1) (by rw [List.length_cons]; omega)
  rw [List.getElem?_cons_succ] at hcell
  rw [Nat.mod_add_mod, Nat.add_assoc, Nat.add_comm 1 i, hcell]

/-- The representation determines the list: what is read out of the cells is what they hold. -/
theorem Holds.contents_eq (h : Holds cells head l) : contents cells head l.length = l := by
  have hread : ∀ n, n ≤ l.length →
      (List.range n).filterMap (fun i => cells[(head + i) % cells.length]?) = l.take n := by
    intro n
    induction n with
    | zero => intro _; rfl
    | succ n ih =>
        intro hn
        have hcell := h.cell n (by omega)
        rw [List.getElem?_eq_getElem (show n < l.length by omega)] at hcell
        rw [List.range_succ, List.filterMap_append, ih (by omega), List.take_add_one]
        simp [hcell, List.getElem?_eq_getElem (show n < l.length by omega)]
  rw [contents, hread l.length (Nat.le_refl _), List.take_length]

end Ring

end CourseLabs.RingBuffer
