/-
**Binary search** for the end of a prefix.

An array is split by a condition `p` when it holds of a first part and of nothing behind it.
Halving with `p` finds where the first part ends. In a sorted array a condition that small
elements meet splits it, and two such conditions, one for each end, cut out the elements
between them.
-/
import CourseLabs.CInt
import CourseLabs.CLoop
import Mathlib.Data.List.Basic

set_option autoImplicit false

namespace CourseLabs.BinarySearch

open CourseLabs.CInt CourseLabs.CLoop

variable {α : Type}

/-- `while (l < r)`: the half to go on in is decided at the middle. The state is `l`, `r`. -/
def bound_body (p : α → Bool) (arr : List α) (v : ℕ × ℕ) : Option (Pass (ℕ × ℕ) ℕ) :=
  let (l, r) := v
  if l < r then do
    let mid := (← nat32 (l + r)) / 2
    let x ← arr[mid]?
    if p x then
      some (.next (mid + 1, r))
    else
      some (.next (l, mid))
  else
    some (.done l)

section Bound

variable {p : α → Bool} {a b post : List α}

theorem bound_body_next {l r : ℕ} (ha : ∀ x ∈ a, p x = true) (hb : ∀ x ∈ b, p x = false)
    (hlt : l < r) (hl : l ≤ a.length) (hr : a.length ≤ r) (hr' : r ≤ a.length + b.length)
    (hint : r ≤ 2 ^ 30) :
    ∃ l' r', bound_body p (a ++ b ++ post) (l, r) = some (.next (l', r'))
      ∧ l' ≤ a.length ∧ a.length ≤ r' ∧ r' ≤ r ∧ r' - l' < r - l := by
  have hmid : (l + r) / 2 < (a ++ b).length := by
    rw [List.length_append]
    omega
  have hread : (a ++ b ++ post)[(l + r) / 2]? = some (a ++ b)[(l + r) / 2] := by
    rw [List.getElem?_append_left hmid, List.getElem?_eq_getElem hmid]
  have hbody : bound_body p (a ++ b ++ post) (l, r)
      = if p (a ++ b)[(l + r) / 2] then some (.next ((l + r) / 2 + 1, r))
        else some (.next (l, (l + r) / 2)) := by
    rw [bound_body]
    simp only [hlt, if_true, nat32_of_lt (show l + r < 2 ^ 31 by omega), Option.bind_eq_bind,
      Option.bind_some, hread]
  rw [hbody]
  -- the middle is in the part that meets the condition, or in the one that does not
  rcases Nat.lt_or_ge ((l + r) / 2) a.length with hin | hout
  · have hp : p (a ++ b)[(l + r) / 2] = true := by
      rw [List.getElem_append_left hin]
      exact ha _ (List.getElem_mem hin)
    exact ⟨_, r, by rw [if_pos hp], by omega, hr, le_refl r, by omega⟩
  · have hp : p (a ++ b)[(l + r) / 2] = false := by
      rw [List.getElem_append_right hout]
      exact hb _ (List.getElem_mem _)
    exact ⟨l, _, by rw [if_neg (by rw [hp]; decide)], hl, hout, by omega, by omega⟩

/-- **The search finds the end of the first part**, and looks at nothing behind the second. -/
theorem bound_spec (ha : ∀ x ∈ a, p x = true) (hb : ∀ x ∈ b, p x = false)
    (hint : a.length + b.length ≤ 2 ^ 30) :
    loop (bound_body p (a ++ b ++ post)) (0, a.length + b.length) = some a.length := by
  obtain ⟨l, hrun, rfl⟩ := @loop_spec (ℕ × ℕ) ℕ (bound_body p (a ++ b ++ post))
    (fun v => v.2 - v.1)
    (fun v => v.1 ≤ a.length ∧ a.length ≤ v.2 ∧ v.2 ≤ a.length + b.length)
    (fun l => l = a.length) (by
      rintro ⟨l, r⟩ ⟨hl, hr, hr'⟩
      simp only at hl hr hr'
      rcases Nat.lt_or_ge l r with hlt | hge
      · right
        obtain ⟨l', r', hnext, hl', hrl', hle, hshort⟩ :=
          @bound_body_next α p a b post l r ha hb hlt hl hr hr' (by omega)
        exact ⟨(l', r'), hnext, ⟨hl', hrl', by omega⟩, hshort⟩
      · left
        refine ⟨l, ?_, by omega⟩
        rw [bound_body]
        exact if_neg (by omega))
    (0, a.length + b.length) ⟨Nat.zero_le _, Nat.le_add_right _ _, le_refl _⟩
  exact hrun

end Bound

/-! ## Sorted arrays -/

section Split

variable {p q : α → Bool} {m : List α}

/-- A condition that passes from an element to those before it splits the list. -/
theorem exists_split (h : m.Pairwise fun x y => p y = true → p x = true) :
    ∃ a b, m = a ++ b ∧ (∀ x ∈ a, p x = true) ∧ ∀ x ∈ b, p x = false := by
  induction m with
  | nil => exact ⟨[], [], rfl, by simp, by simp⟩
  | cons x m ih =>
      rw [List.pairwise_cons] at h
      by_cases hx : p x = true
      · obtain ⟨a, b, rfl, ha, hb⟩ := ih h.2
        exact ⟨x :: a, b, rfl, List.forall_mem_cons.mpr ⟨hx, ha⟩, hb⟩
      · rw [Bool.not_eq_true] at hx
        refine ⟨[], x :: m, rfl, by simp, List.forall_mem_cons.mpr ⟨hx, fun y hy => ?_⟩⟩
        by_contra hpy
        rw [h.1 y hy (by rwa [Bool.not_eq_false] at hpy)] at hx
        cases hx

/-- **The search in a sorted array**: it splits the array where it ends. -/
theorem exists_bound (h : m.Pairwise fun x y => p y = true → p x = true)
    (hint : m.length ≤ 2 ^ 30) :
    ∃ a b, m = a ++ b
      ∧ (∀ post, loop (bound_body p (m ++ post)) (0, m.length) = some a.length)
      ∧ (∀ x ∈ a, p x = true) ∧ ∀ x ∈ b, p x = false := by
  obtain ⟨a, b, rfl, ha, hb⟩ := exists_split h
  rw [List.length_append] at hint
  refine ⟨a, b, rfl, fun post => ?_, ha, hb⟩
  rw [List.length_append]
  exact bound_spec ha hb hint

variable {a b c d : List α}

/-- Nothing is past the end of one split and before the end of another that comes first. -/
theorem filter_between_of_le (h : a ++ b = c ++ d) (ha : ∀ x ∈ a, p x = true)
    (hd : ∀ x ∈ d, q x = false) (hle : c.length ≤ a.length) :
    (a ++ b).filter (fun x => !p x && q x) = [] := by
  have hafter : ∀ x ∈ b, x ∈ d := by
    intro x hx
    have hdrop := congrArg (List.drop a.length) h
    rw [List.drop_left, List.drop_append, List.drop_of_length_le hle, List.nil_append] at hdrop
    exact List.mem_of_mem_drop (hdrop ▸ hx)
  rw [List.filter_eq_nil_iff]
  intro x hx
  rcases List.mem_append.mp hx with hxa | hxb
  · rw [ha x hxa]
    simp
  · rw [hd x (hafter x hxb)]
    simp

/-- What two splits cut out: the elements past the first condition and within the second. -/
theorem filter_between_of_lt (h : a ++ b = c ++ d) (ha : ∀ x ∈ a, p x = true)
    (hb : ∀ x ∈ b, p x = false) (hc : ∀ x ∈ c, q x = true) (hd : ∀ x ∈ d, q x = false)
    (hlt : a.length < c.length) :
    ∃ found, found ≠ [] ∧ c = a ++ found ∧ b = found ++ d
      ∧ (a ++ b).filter (fun x => !p x && q x) = found := by
  rcases List.append_eq_append_iff.mp h with ⟨e, rfl, rfl⟩ | ⟨e, rfl, rfl⟩
  · have hbefore : a.filter (fun x => !p x && q x) = [] := by
      rw [List.filter_eq_nil_iff]
      intro x hx
      rw [ha x hx]
      simp
    have hbetween : e.filter (fun x => !p x && q x) = e := by
      rw [List.filter_eq_self]
      intro x hx
      rw [hb x (List.mem_append_left d hx), hc x (List.mem_append_right a hx)]
      rfl
    have hafter : d.filter (fun x => !p x && q x) = [] := by
      rw [List.filter_eq_nil_iff]
      intro x hx
      rw [hd x hx]
      simp
    refine ⟨e, ?_, rfl, rfl, ?_⟩
    · rintro rfl
      rw [List.append_nil] at hlt
      omega
    · rw [List.filter_append, List.filter_append, hbefore, hbetween, hafter, List.nil_append,
        List.append_nil]
  -- here the second split comes first
  · rw [List.length_append] at hlt
    omega

end Split

end CourseLabs.BinarySearch
