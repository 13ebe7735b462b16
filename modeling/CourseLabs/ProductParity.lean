/-
**Parities along two directions.** A finite set `D` of places, and two functions that
give a place its line in either direction. A line is odd when `D` has an odd number of
places on it: those are the lines whose parity shows a change at the places of `D`.

There are as many odd lines as places, modulo `2`. So the places and the odd lines of both
directions are at least four as soon as there are two places (`four_le_iff`), if two
places share at most one line; a single place makes three.
-/
import Mathlib.Algebra.BigOperators.Ring.Nat
import Mathlib.Algebra.Ring.Parity

set_option autoImplicit false

namespace CourseLabs.ProductParity

section OddFibers

variable {α β γ : Type} [DecidableEq β] [DecidableEq γ]

/-- The lines with an odd number of places. -/
def oddFibers (f : α → β) (D : Finset α) : Finset β :=
  (D.image f).filter fun b => Odd (D.filter fun a => f a = b).card

variable {f : α → β} {g : α → γ} {D : Finset α}

theorem mem_oddFibers {b : β} : b ∈ oddFibers f D ↔ Odd (D.filter fun a => f a = b).card := by
  rw [oddFibers, Finset.mem_filter, and_iff_right_iff_imp]
  intro hodd
  obtain ⟨a, ha⟩ := Finset.card_pos.mp hodd.pos
  rw [Finset.mem_filter] at ha
  exact ha.2 ▸ Finset.mem_image_of_mem f ha.1

theorem card_oddFibers_le : (oddFibers f D).card ≤ D.card :=
  le_trans (Finset.card_filter_le _ _) Finset.card_image_le

/-- The odd lines, counted modulo `2`. -/
theorem odd_card_oddFibers : Odd (oddFibers f D).card ↔ Odd D.card := by
  rw [Finset.card_eq_sum_card_image f D, Finset.odd_sum_iff_odd_card_odd]
  rfl

/-- Two places on different lines make two odd ones. -/
theorem two_le_card_oddFibers [DecidableEq α] {p q : α} (hpq : f p ≠ f q) :
    2 ≤ (oddFibers f {p, q}).card := by
  have hne : p ≠ q := fun h => hpq (congrArg f h)
  have hfiber : ({p, q} : Finset α).filter (fun a => f a = f p) = {p} := by
    rw [Finset.filter_insert, if_pos rfl, Finset.filter_singleton, if_neg hpq.symm]
    rfl
  have hmem : f p ∈ oddFibers f {p, q} := by
    rw [mem_oddFibers, hfiber, Finset.card_singleton]
    exact odd_one
  have hpos := Finset.card_pos.mpr ⟨_, hmem⟩
  have heven : ¬ Odd (oddFibers f {p, q}).card := by
    rw [odd_card_oddFibers, Finset.card_pair hne]
    decide
  rw [Nat.odd_iff] at heven
  omega

/-- **Places and odd lines together.** -/
theorem four_le_iff (hline : ∀ p ∈ D, ∀ q ∈ D, f p = f q → g p = g q → p = q) :
    4 ≤ D.card + (oddFibers f D).card + (oddFibers g D).card ↔ 2 ≤ D.card := by
  classical
  have hf := card_oddFibers_le (f := f) (D := D)
  have hg := card_oddFibers_le (f := g) (D := D)
  constructor
  · intro h
    omega
  · intro h2
    rcases Nat.lt_or_ge 3 D.card with hlt | hle
    · omega
    · rcases (show D.card = 3 ∨ D.card = 2 by omega) with h3 | h2
      -- an odd number of places has an odd line
      · have hodd := odd_card_oddFibers (f := f) (D := D)
        rw [h3] at hodd
        have hpos := (hodd.mpr (by decide)).pos
        omega
      · obtain ⟨p, q, hpq, rfl⟩ := Finset.card_eq_two.mp h2
        by_cases hfpq : f p = f q
        · have hgpq : g p ≠ g q := fun h =>
            hpq (hline p (by simp) q (by simp) hfpq h)
          have := two_le_card_oddFibers hgpq
          omega
        · have := two_le_card_oddFibers hfpq
          omega

end OddFibers

end CourseLabs.ProductParity
