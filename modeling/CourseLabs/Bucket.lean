/-
**A bucket that is filled from above and leaks at a constant rate**, slot by slot.

In a slot the arrivals are put into the bucket, what it cannot hold is lost, and then at
most `R` leave it. Three facts make this a way to shape traffic. Nothing is lost exactly when
every window of `n` slots brings at most `C + R (n - 1)`, whatever the windows are
(`lost_eq_zero_iff`). Nobody who decides slot by slot what to let in, and never lets the
bucket overflow, has served or let in more by the end of any slot (`served_le_served`). And
what is in the bucket is served within as many slots as the rate needs for its capacity
(`level_le_served`). Nothing here mentions a program.
-/
import Mathlib.Algebra.BigOperators.Group.List.Basic
import Mathlib.Algebra.Order.Ring.Int
import Mathlib.Data.List.Forall2
import Mathlib.Data.List.Infix
import Mathlib.Tactic.Linarith
import Mathlib.Tactic.Ring

set_option autoImplicit false

namespace CourseLabs.Bucket

section Bucket

variable (C R : ℤ)

/-- The content once `x` have arrived: what is above the capacity stays outside. -/
def filled (b x : ℤ) : ℤ :=
  min C (b + x)

/-- The content after the slots with the arrivals of the list. -/
def level : ℤ → List ℤ → ℤ
  | b, [] => b
  | b, x :: xs => level (max 0 (filled C b x - R)) xs

/-- What leaves the bucket in them: in each slot as much as the rate allows, or all there is. -/
def served : ℤ → List ℤ → ℤ
  | _, [] => 0
  | b, x :: xs => min R (filled C b x) + served (max 0 (filled C b x - R)) xs

/-- What does not get in, because the bucket is full when it arrives. -/
def lost : ℤ → List ℤ → ℤ
  | _, [] => 0
  | b, x :: xs => max 0 (b + x - C) + lost (max 0 (filled C b x - R)) xs

end Bucket

section Facts

variable {C R b b' d x : ℤ} {xs ys : List ℤ}

theorem level_append (b : ℤ) (xs ys : List ℤ) :
    level C R b (xs ++ ys) = level C R (level C R b xs) ys := by
  induction xs generalizing b with
  | nil => rfl
  | cons x xs ih => exact ih _

theorem served_append (b : ℤ) (xs ys : List ℤ) :
    served C R b (xs ++ ys) = served C R b xs + served C R (level C R b xs) ys := by
  induction xs generalizing b with
  | nil => exact (zero_add _).symm
  | cons x xs ih =>
      rw [List.cons_append, served, served, ih, add_assoc]
      rfl

theorem lost_append (b : ℤ) (xs ys : List ℤ) :
    lost C R b (xs ++ ys) = lost C R b xs + lost C R (level C R b xs) ys := by
  induction xs generalizing b with
  | nil => exact (zero_add _).symm
  | cons x xs ih =>
      rw [List.cons_append, lost, lost, ih, add_assoc]
      rfl

theorem lost_nonneg (b : ℤ) (xs : List ℤ) : 0 ≤ lost C R b xs := by
  induction xs generalizing b with
  | nil => exact le_refl 0
  | cons x xs ih => exact add_nonneg (le_max_left 0 _) (ih _)

theorem level_nonneg (hb : 0 ≤ b) (xs : List ℤ) : 0 ≤ level C R b xs := by
  induction xs generalizing b with
  | nil => exact hb
  | cons x xs ih => exact ih (le_max_left 0 _)

/-- No more is lost than arrives. -/
theorem lost_le_sum (hC : 0 ≤ C) (hR : 0 ≤ R) (hb : b ≤ C) (hxs : ∀ x ∈ xs, 0 ≤ x) :
    lost C R b xs ≤ xs.sum := by
  induction xs generalizing b with
  | nil => exact le_refl 0
  | cons x xs ih =>
      have hx := hxs x List.mem_cons_self
      have hrest := @ih (max 0 (filled C b x - R)) (by simp only [filled]; omega)
        fun z hz => hxs z (List.mem_cons_of_mem x hz)
      rw [lost, List.sum_cons]
      omega

/-- Everything is served, lost or still there: no slot makes anything, and none forgets anything.
-/
theorem balance (b : ℤ) (xs : List ℤ) :
    b + xs.sum = served C R b xs + lost C R b xs + level C R b xs := by
  induction xs generalizing b with
  | nil =>
      rw [List.sum_nil, served, lost, level]
      ring
  | cons x xs ih =>
      have hrest := ih (max 0 (filled C b x - R))
      rw [List.sum_cons, served, lost, level]
      simp only [filled] at hrest ⊢
      omega

/-- The bucket never holds more than it can, and after the leak of a slot `R` less. -/
theorem level_le (hcap : R ≤ C) (hb : b ≤ C - R) (xs : List ℤ) :
    level C R b xs ≤ C - R := by
  induction xs generalizing b with
  | nil => exact hb
  | cons x xs ih =>
      apply ih
      simp only [filled]
      omega

/-! ## Nothing is lost -/

variable (C R) in
/-- No window of slots brings more than the capacity and the leak of the slots before its
last one. -/
def Conforms (xs : List ℤ) : Prop :=
  ∀ v, v <:+: xs → v ≠ [] → v.sum ≤ C + R * (v.length - 1)

variable (C R) in
/-- The same for the windows that begin now, with `b` in the bucket. -/
def Starts (b : ℤ) (xs : List ℤ) : Prop :=
  ∀ v, v <+: xs → v ≠ [] → b + v.sum ≤ C + R * (v.length - 1)

theorem starts_cons_iff :
    Starts C R b (x :: xs) ↔ b + x ≤ C ∧ ∀ w, w <+: xs → w ≠ [] →
      b + x - R + w.sum ≤ C + R * (w.length - 1) := by
  constructor
  · intro h
    refine ⟨?_, fun w hw _ => ?_⟩
    · have := h [x] ⟨xs, rfl⟩ (List.cons_ne_nil _ _)
      rw [List.sum_singleton, List.length_singleton] at this
      simpa using this
    · have := h (x :: w) (List.cons_prefix_cons.mpr ⟨rfl, hw⟩) (List.cons_ne_nil _ _)
      rw [List.sum_cons, List.length_cons] at this
      push_cast at this
      linarith
  · rintro ⟨hone, hmore⟩ v hv hne
    rcases List.prefix_cons_iff.mp hv with rfl | ⟨w, rfl, hw⟩
    · exact absurd rfl hne
    · rw [List.sum_cons, List.length_cons]
      by_cases hw0 : w = []
      · rw [hw0]
        simpa using hone
      · have := hmore w hw hw0
        push_cast
        linarith

theorem conforms_cons_iff :
    Conforms C R (x :: xs) ↔ Starts C R 0 (x :: xs) ∧ Conforms C R xs := by
  constructor
  · intro h
    refine ⟨fun v hv hne => ?_, fun v hv hne => h v (List.infix_cons hv) hne⟩
    rw [zero_add]
    exact h v hv.isInfix hne
  · rintro ⟨hstarts, hrest⟩ v hv hne
    rcases List.infix_cons_iff.mp hv with hv | hv
    · simpa using hstarts v hv hne
    · exact hrest v hv hne

theorem Starts.mono (h : Starts C R b xs) (hle : b' ≤ b) : Starts C R b' xs := by
  intro v hv hne
  have := h v hv hne
  omega

theorem lost_eq_zero_iff (hb : 0 ≤ b) :
    lost C R b xs = 0 ↔ Starts C R b xs ∧ Conforms C R xs := by
  induction xs generalizing b with
  | nil =>
      refine iff_of_true rfl ⟨fun v hv hne => ?_, fun v hv hne => ?_⟩
      · exact absurd (List.prefix_nil.mp hv) hne
      · exact absurd (List.infix_nil.mp hv) hne
  | cons x xs ih =>
      have hhead : lost C R b (x :: xs) = 0
          ↔ b + x ≤ C ∧ lost C R (max 0 (filled C b x - R)) xs = 0 := by
        have hrest := @lost_nonneg C R (max 0 (filled C b x - R)) xs
        rw [lost]
        omega
      rw [hhead, ih (le_max_left 0 _), conforms_cons_iff, starts_cons_iff]
      constructor
      · rintro ⟨hone, hstarts, hconf⟩
        have hmore : ∀ w, w <+: xs → w ≠ [] →
            b + x - R + w.sum ≤ C + R * (w.length - 1) := by
          intro w hw hne
          have := hstarts w hw hne
          have hle : b + x - R ≤ max 0 (filled C b x - R) := by
            simp only [filled]
            omega
          linarith
        refine ⟨⟨hone, hmore⟩, Starts.mono (starts_cons_iff.mpr ⟨hone, hmore⟩) hb, hconf⟩
      · rintro ⟨⟨hone, hmore⟩, -, hconf⟩
        refine ⟨hone, fun w hw hne => ?_, hconf⟩
        -- either the bucket was empty at the start of the window, or it was not
        rw [filled, min_eq_right hone]
        rcases max_choice 0 (b + x - R) with hmax | hmax
        · rw [hmax, zero_add]
          exact hconf w hw.isInfix hne
        · rw [hmax]
          exact hmore w hw hne

/-- The same for a bucket that is empty at the start. -/
theorem lost_empty_eq_zero_iff : lost C R 0 xs = 0 ↔ Conforms C R xs := by
  rw [lost_eq_zero_iff (le_refl 0)]
  refine ⟨And.right, fun h => ⟨fun v hv hne => ?_, h⟩⟩
  rw [zero_add]
  exact h v hv.isInfix hne

/-! ## Nobody does better -/

/-- From a start that is not behind, in what is served and in what has been let in. -/
theorem served_le_served (hd : 0 ≤ d) (hb : b' ≤ b + d) (hle : List.Forall₂ (· ≤ ·) ys xs)
    (hlost : lost C R b' ys = 0) :
    served C R b' ys ≤ d + served C R b xs
      ∧ served C R b' ys + level C R b' ys ≤ d + (served C R b xs + level C R b xs) := by
  induction hle generalizing b b' d with
  | nil =>
      simp only [served, level]
      omega
  | @cons y x ys xs hyx hle ih =>
      have hrest := @lost_nonneg C R (max 0 (filled C b' y - R)) ys
      rw [lost] at hlost
      have hfit : b' + y ≤ C := by omega
      have hnext := @ih (max 0 (filled C b x - R)) (max 0 (filled C b' y - R))
        (d + min R (filled C b x) - min R (filled C b' y))
        (by simp only [filled]; omega) (by simp only [filled]; omega) (by omega)
      simp only [served, level]
      omega

/-! ## What waits is served -/

theorem min_le_served (hR : 0 ≤ R) (hb : 0 ≤ b) (hcap : b ≤ C) (hxs : ∀ x ∈ xs, 0 ≤ x) :
    min b (R * xs.length) ≤ served C R b xs := by
  induction xs generalizing b with
  | nil =>
      rw [served, List.length_nil, Nat.cast_zero, mul_zero]
      exact min_le_right _ _
  | cons x xs ih =>
      have hx := hxs x List.mem_cons_self
      have hrest := @ih (max 0 (filled C b x - R)) (le_max_left 0 _)
        (by simp only [filled]; omega) fun z hz => hxs z (List.mem_cons_of_mem x hz)
      have hmul : R * ((x :: xs).length : ℤ) = R * (xs.length : ℤ) + R := by
        rw [List.length_cons]
        push_cast
        ring
      have hnonneg : 0 ≤ R * (xs.length : ℤ) := mul_nonneg hR (Int.natCast_nonneg _)
      rw [hmul, served]
      simp only [filled] at hrest ⊢
      omega

/-- What is in the bucket after a slot is gone after `n` more. -/
theorem level_le_served (hR : 0 ≤ R) (hb : 0 ≤ b) (hroom : b ≤ C - R)
    (hxs : ∀ x ∈ xs, 0 ≤ x) (hn : C ≤ R * (xs.length + 1)) : b ≤ served C R b xs := by
  have hmin := @min_le_served C R b xs hR hb (by omega) hxs
  rw [min_eq_left (by linarith)] at hmin
  exact hmin

end Facts

end CourseLabs.Bucket
