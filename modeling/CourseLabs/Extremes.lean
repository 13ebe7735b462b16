/-
The **elements of least key** in a list, and two ways to one of them.

A scan that moves on only for a smaller key ends at the first of them. A reduction that
takes the right side unless the left key is smaller ends at the last, however the list is
divided. For the greatest key the order is turned round.
-/
import Mathlib.Order.Lattice
import Mathlib.Tactic.Common

set_option autoImplicit false

namespace CourseLabs.Extremes

section

variable {α κ : Type} [LinearOrder κ]

/-- The elements of least key, in their order. -/
def leasts (key : α → κ) (l : List α) : List α :=
  l.filter (fun a => decide (∀ b ∈ l, key a ≤ key b))

structure FirstLeast (key : α → κ) (l : List α) (r : α) : Prop where
  split : ∃ a b, l = a ++ r :: b ∧ (∀ x ∈ a, key r < key x) ∧ ∀ x ∈ b, key r ≤ key x

structure LastLeast (key : α → κ) (l : List α) (r : α) : Prop where
  split : ∃ a b, l = a ++ r :: b ∧ (∀ x ∈ a, key r ≤ key x) ∧ ∀ x ∈ b, key r < key x

variable {key : α → κ} {l m : List α} {r s : α}

/-- Nothing above an element of the list is one of the least. -/
theorem filter_leasts_eq_nil {a : List α} (hr : r ∈ l) (ha : ∀ x ∈ a, key r < key x) :
    a.filter (fun x => decide (∀ y ∈ l, key x ≤ key y)) = [] := by
  rw [List.filter_eq_nil_iff]
  intro x hx
  rw [decide_eq_true_iff]
  intro hall
  exact absurd (hall r hr) (not_le.mpr (ha x hx))

/-! ## The scan -/

theorem FirstLeast.singleton (r : α) : FirstLeast key [r] r :=
  ⟨[], [], rfl, by simp, by simp⟩

theorem FirstLeast.mem (h : FirstLeast key l r) : r ∈ l := by
  obtain ⟨a, b, rfl, -, -⟩ := h.split
  exact List.mem_append_right a List.mem_cons_self

theorem FirstLeast.le (h : FirstLeast key l r) : ∀ x ∈ l, key r ≤ key x := by
  obtain ⟨a, b, rfl, ha, hb⟩ := h.split
  intro x hx
  rcases List.mem_append.mp hx with hx | hx
  · exact le_of_lt (ha x hx)
  · rcases List.mem_cons.mp hx with rfl | hx
    · exact le_refl _
    · exact hb x hx

/-- One element more: the scan moves on only for a smaller key. -/
theorem FirstLeast.snoc (h : FirstLeast key l r) (x : α) :
    FirstLeast key (l ++ [x]) (if key x < key r then x else r) := by
  by_cases hx : key x < key r
  · rw [if_pos hx]
    exact ⟨l, [], rfl, fun y hy => lt_of_lt_of_le hx (h.le y hy), by simp⟩
  · rw [if_neg hx]
    obtain ⟨a, b, rfl, ha, hb⟩ := h.split
    refine ⟨a, b ++ [x], by simp, ha, ?_⟩
    intro y hy
    rcases List.mem_append.mp hy with hy | hy
    · exact hb y hy
    · rw [List.mem_singleton.mp hy]
      exact not_lt.mp hx

/-- It ends at the first of the least. -/
theorem FirstLeast.head?_leasts (h : FirstLeast key l r) : (leasts key l).head? = some r := by
  have hle := h.le
  obtain ⟨a, b, rfl, ha, -⟩ := h.split
  unfold leasts
  rw [List.filter_append, filter_leasts_eq_nil (by simp) ha, List.nil_append, List.filter_cons,
    if_pos (decide_eq_true hle), List.head?_cons]

/-! ## The reduction -/

theorem LastLeast.singleton (r : α) : LastLeast key [r] r :=
  ⟨[], [], rfl, by simp, by simp⟩

theorem LastLeast.mem (h : LastLeast key l r) : r ∈ l := by
  obtain ⟨a, b, rfl, -, -⟩ := h.split
  exact List.mem_append_right a List.mem_cons_self

theorem LastLeast.le (h : LastLeast key l r) : ∀ x ∈ l, key r ≤ key x := by
  obtain ⟨a, b, rfl, ha, hb⟩ := h.split
  intro x hx
  rcases List.mem_append.mp hx with hx | hx
  · exact ha x hx
  · rcases List.mem_cons.mp hx with rfl | hx
    · exact le_refl _
    · exact le_of_lt (hb x hx)

/-- Two sides: the left one only when its key is smaller. -/
theorem LastLeast.append (hl : LastLeast key l r) (hm : LastLeast key m s) :
    LastLeast key (l ++ m) (if key r < key s then r else s) := by
  by_cases hlt : key r < key s
  · rw [if_pos hlt]
    obtain ⟨a, b, rfl, ha, hb⟩ := hl.split
    refine ⟨a, b ++ m, by simp, ha, ?_⟩
    intro x hx
    rcases List.mem_append.mp hx with hx | hx
    · exact hb x hx
    · exact lt_of_lt_of_le hlt (hm.le x hx)
  · rw [if_neg hlt]
    obtain ⟨a, b, rfl, ha, hb⟩ := hm.split
    refine ⟨l ++ a, b, by simp, ?_, hb⟩
    intro x hx
    rcases List.mem_append.mp hx with hx | hx
    · exact le_trans (not_lt.mp hlt) (hl.le x hx)
    · exact ha x hx

/-- It ends at the last of the least. -/
theorem LastLeast.getLast?_leasts (h : LastLeast key l r) :
    (leasts key l).getLast? = some r := by
  have hle := h.le
  obtain ⟨a, b, rfl, -, hb⟩ := h.split
  unfold leasts
  rw [List.filter_append, List.filter_cons, if_pos (decide_eq_true hle),
    filter_leasts_eq_nil (by simp) hb,
    List.getLast?_append]
  rfl

/-- Both have the least key. -/
theorem FirstLeast.key_eq (hr : FirstLeast key l r) (hs : LastLeast key l s) : key r = key s := by
  apply le_antisymm
  · exact hr.le s hs.mem
  · exact hs.le r hr.mem

end

end CourseLabs.Extremes
