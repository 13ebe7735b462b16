/-
**Binary heaps in an array**, ordered by a key in the natural numbers.

The two repairs of a heap are the same move, an exchange with the parent or with a
child, so each is described by what is allowed to be out of order: `UpOrdered` at `i`
excuses the pair of `i` and its parent, `DownOrdered` at `i` the pairs of `i` and its
children. `UpOrdered.move` and `DownOrdered.move` say that an exchange passes the excuse
on. What the array holds is a multiset (`contents`), which an exchange does not change.
-/
import CourseLabs.CMem
import Mathlib.Algebra.BigOperators.Group.Finset.Basic
import Mathlib.Algebra.Order.BigOperators.Group.Multiset

set_option autoImplicit false

namespace CourseLabs.BinaryHeap

open CourseLabs.CMem

/-- The parent of a place in a binary heap that begins at place `0`. -/
def parent (i : ℕ) : ℕ :=
  (i - 1) / 2

section Exchange

variable {α : Type} {a : ℕ → α} {i j k n : ℕ}

/-- The array with two cells exchanged. -/
def swapAt (a : ℕ → α) (i j : ℕ) : ℕ → α :=
  upd (upd a i (a j)) j (a i)

/-- The second place gets what was at the first. -/
@[simp] theorem swapAt_right (a : ℕ → α) (i j : ℕ) : swapAt a i j j = a i :=
  upd_same _ _ _

/-- The first place gets what was at the second. -/
@[simp] theorem swapAt_left (a : ℕ → α) (i j : ℕ) : swapAt a i j i = a j := by
  rw [swapAt]
  by_cases h : i = j
  · rw [h, upd_same]
  · rw [upd_other h, upd_same]

/-- Every other place keeps what it has. -/
theorem swapAt_other (hi : k ≠ i) (hj : k ≠ j) : swapAt a i j k = a k := by
  rw [swapAt, upd_other hj, upd_other hi]

/-- A swap of two places is an array read through a transposition, so that counting arguments can
use what is known of permutations. -/
theorem swapAt_eq_comp (a : ℕ → α) (i j : ℕ) : swapAt a i j = fun k => a (Equiv.swap i j k) := by
  funext k
  by_cases hi : k = i
  · rw [hi, swapAt_left, Equiv.swap_apply_left]
  · by_cases hj : k = j
    · rw [hj, swapAt_right, Equiv.swap_apply_right]
    · rw [swapAt_other hi hj, Equiv.swap_apply_of_ne_of_ne hi hj]

/-- To move the parent down and put `x` in its place is to exchange `x` with it. -/
theorem swapAt_upd (h : i ≠ j) (x : α) : swapAt (upd a i x) i j = upd (upd a i (a j)) j x := by
  funext k
  by_cases hj : k = j
  · rw [hj, swapAt_right, upd_same, upd_same]
  · by_cases hi : k = i
    · rw [hi, swapAt_left, upd_other h.symm, upd_other h, upd_same]
    · rw [swapAt_other hi hj, upd_other hi, upd_other hj, upd_other hi]

/-! ## What an array holds -/

/-- The first `n` cells, as a multiset: what the heap stores, whatever the order of the cells. -/
def contents (n : ℕ) (a : ℕ → α) : Multiset α :=
  ∑ i ∈ Finset.range n, {a i}

/-- The contents of one place more. -/
theorem contents_succ (n : ℕ) (a : ℕ → α) : contents (n + 1) a = a n ::ₘ contents n a := by
  rw [contents, Finset.sum_range_succ, add_comm, Multiset.singleton_add]
  rfl

/-- The contents depend on the places below `n` only. -/
theorem contents_congr {a b : ℕ → α} (h : ∀ k, k < n → a k = b k) :
    contents n a = contents n b :=
  Finset.sum_congr rfl fun k hk => by rw [h k (Finset.mem_range.mp hk)]

/-- There are as many contents as places. -/
theorem card_contents (n : ℕ) (a : ℕ → α) : (contents n a).card = n := by
  induction n with
  | zero => rfl
  | succ n ih => rw [contents_succ, Multiset.card_cons, ih]

/-- What is in the contents is at a place. -/
theorem mem_contents {x : α} : x ∈ contents n a ↔ ∃ k, k < n ∧ a k = x := by
  induction n with
  | zero => simp [contents]
  | succ n ih =>
      rw [contents_succ, Multiset.mem_cons, ih]
      constructor
      · rintro (rfl | ⟨k, hk, rfl⟩)
        · exact ⟨n, Nat.lt_succ_self n, rfl⟩
        · exact ⟨k, by omega, rfl⟩
      · rintro ⟨k, hk, rfl⟩
        by_cases h : k = n
        · exact Or.inl (by rw [h])
        · exact Or.inr ⟨k, by omega, rfl⟩

/-- A swap inside the array keeps its contents. This is the one fact about contents that both
directions of the heap need. -/
theorem contents_swapAt (hi : i < n) (hj : j < n) : contents n (swapAt a i j) = contents n a := by
  rw [swapAt_eq_comp]
  apply Equiv.Perm.sum_comp (Equiv.swap i j) (Finset.range n) (fun k => ({a k} : Multiset α))
  -- the exchange moves no cell from `n` on
  intro k hk
  rw [Finset.coe_range, Set.mem_Iio]
  by_contra hge
  exact hk (Equiv.swap_apply_of_ne_of_ne (by omega) (by omega))

/-- The root taken out and the last cell moved to its place. -/
theorem contents_remove_root (n : ℕ) (a : ℕ → α) :
    contents (n + 1) a = a 0 ::ₘ contents n (upd a 0 (a n)) := by
  rw [← contents_swapAt (Nat.succ_pos n) (Nat.lt_succ_self n), contents_succ, swapAt_right]
  congr 1
  apply contents_congr
  intro k hk
  rw [swapAt, upd_other (by omega)]

end Exchange

/-! ## Order -/

section Order

variable {α : Type} {key : α → ℕ} {a : ℕ → α} {i c n : ℕ}

/-- No place has a smaller key than its parent. -/
def Ordered (key : α → ℕ) (n : ℕ) (a : ℕ → α) : Prop :=
  ∀ j, 0 < j → j < n → key (a (parent j)) ≤ key (a j)

/-- In order, but for `i` and its parent: the state while an element rises. The children of `i` are
not below its parent either. -/
structure UpOrdered (key : α → ℕ) (n : ℕ) (a : ℕ → α) (i : ℕ) : Prop where
  except : ∀ j, 0 < j → j < n → j ≠ i → key (a (parent j)) ≤ key (a j)
  grand : ∀ j, 0 < j → j < n → parent j = i → 0 < i → key (a (parent i)) ≤ key (a j)

/-- In order, but for `i` and its children: the state while an element sinks. The children of `i`
are not below its parent either. -/
structure DownOrdered (key : α → ℕ) (n : ℕ) (a : ℕ → α) (i : ℕ) : Prop where
  except : ∀ j, 0 < j → j < n → parent j ≠ i → key (a (parent j)) ≤ key (a j)
  grand : ∀ j, 0 < j → j < n → parent j = i → 0 < i → key (a (parent i)) ≤ key (a j)

/-- A parent comes before its child, which is why climbing ends. -/
theorem parent_lt (h : 0 < i) : parent i < i := by
  unfold parent
  omega

/-- The positions with parent `i` are `2 * i + 1` and `2 * i + 2`. -/
theorem eq_of_parent_eq {j : ℕ} (hj : 0 < j) (h : parent j = i) :
    j = 2 * i + 1 ∨ j = 2 * i + 2 := by
  unfold parent at h
  omega

/-- The first child of a place has it as its parent. -/
theorem parent_left (i : ℕ) : parent (2 * i + 1) = i := by
  unfold parent
  omega

/-- So has the second. -/
theorem parent_right (i : ℕ) : parent (2 * i + 2) = i := by
  unfold parent
  omega

/-- The root is least: the keys do not grow on the way up to it. -/
theorem Ordered.root_le (h : Ordered key n a) {j : ℕ} (hj : j < n) : key (a 0) ≤ key (a j) := by
  induction j using Nat.strong_induction_on with
  | _ j up =>
      by_cases h0 : j = 0
      · rw [h0]
      · have hpos : 0 < j := by omega
        have hlt := parent_lt hpos
        calc key (a 0) ≤ key (a (parent j)) := up (parent j) hlt (by omega)
          _ ≤ key (a j) := h j hpos hj

/-- A new last cell is out of order with its parent at most. -/
theorem Ordered.upOrdered (h : Ordered key n a) (x : α) :
    UpOrdered key (n + 1) (upd a n x) n := by
  constructor
  · intro j hj hjn hne
    have := parent_lt hj
    rw [upd_other hne, upd_other (by omega)]
    exact h j hj (by omega)
  · intro j hj hjn hpar
    have := parent_lt hj
    omega

/-- Nothing left to move: when `i` is not below its parent, the whole array is in order. -/
theorem UpOrdered.ordered (h : UpOrdered key n a i)
    (hi : 0 < i → key (a (parent i)) ≤ key (a i)) : Ordered key n a := by
  intro j hj hjn
  by_cases hji : j = i
  · rw [hji]
    exact hi (by omega)
  · exact h.except j hj hjn hji

/-- One step up: the element changes places with its parent, and only its new place may be out of
order. -/
theorem UpOrdered.move (h : UpOrdered key n a i) (hi : 0 < i) (hin : i < n)
    (hlt : key (a i) < key (a (parent i))) :
    UpOrdered key n (swapAt a i (parent i)) (parent i) := by
  have hp := parent_lt hi
  constructor
  · intro j hj hjn hne
    by_cases hji : j = i
    -- `i` has the old parent now, which is larger
    · rw [hji, swapAt_right, swapAt_left]
      exact hlt.le
    · rw [swapAt_other hji hne]
      by_cases hpp : parent j = parent i
      -- a sibling of `i`: its parent has only become smaller
      · have := h.except j hj hjn hji
        rw [hpp] at this
        rw [hpp, swapAt_right]
        omega
      · by_cases hpi : parent j = i
        -- a child of `i` answers to its grandparent now
        · rw [hpi, swapAt_left]
          exact h.grand j hj hjn hpi hi
        · rw [swapAt_other hpi hpp]
          exact h.except j hj hjn hji
  · intro j hj hjn hpj hpos
    have hpp := parent_lt hpos
    have habove := h.except (parent i) hpos (by omega) (by omega)
    rw [swapAt_other (by omega) (by omega)]
    by_cases hji : j = i
    · rw [hji, swapAt_left]
      exact habove
    · have hjp := parent_lt hj
      have hbelow := h.except j hj hjn hji
      rw [hpj] at hbelow
      rw [swapAt_other hji (by omega)]
      exact le_trans habove hbelow

/-- With another value at the root, only the root can be out of order. -/
theorem Ordered.downOrdered {m : ℕ} (h : Ordered key n a) (hm : m ≤ n) (x : α) :
    DownOrdered key m (upd a 0 x) 0 := by
  constructor
  · intro j hj hjm hne
    rw [upd_other hne, upd_other (by omega)]
    exact h j hj (by omega)
  · intro j _ _ _ h0
    omega

/-- Where the one place that may be out of order is no larger than its children, the heap is in
order. -/
theorem DownOrdered.ordered (h : DownOrdered key n a i)
    (hmin : ∀ j, 0 < j → j < n → parent j = i → key (a i) ≤ key (a j)) : Ordered key n a := by
  intro j hj hjn
  by_cases hpar : parent j = i
  · rw [hpar]
    exact hmin j hj hjn hpar
  · exact h.except j hj hjn hpar

/-- One step down, to the child `c` that is least. -/
theorem DownOrdered.move (h : DownOrdered key n a i) (hc : 0 < c) (hcn : c < n)
    (hpar : parent c = i) (hlt : key (a c) < key (a i))
    (hmin : ∀ j, 0 < j → j < n → parent j = i → key (a c) ≤ key (a j)) :
    DownOrdered key n (swapAt a c i) c := by
  have hic : i < c := hpar ▸ parent_lt hc
  constructor
  · intro j hj hjn hne
    have hpj := parent_lt hj
    by_cases hpi : parent j = i
    · rw [hpi, swapAt_right]
      by_cases hjc : j = c
      -- the child that moved up is below the one that moved down
      · rw [hjc, swapAt_left]
        exact hlt.le
      · rw [swapAt_other hjc (by omega)]
        exact hmin j hj hjn hpi
    · rw [swapAt_other hne hpi]
      by_cases hji : j = i
      -- the cell of `i` itself: its new value came from below
      · rw [hji, swapAt_right]
        exact h.grand c hc hcn hpar (by omega)
      · have hjc : j ≠ c := fun hjc => hpi (hjc ▸ hpar)
        rw [swapAt_other hjc hji]
        exact h.except j hj hjn hpi
  · intro j hj hjn hpj _
    have hjc := parent_lt hj
    have := h.except j hj hjn (by omega)
    rw [hpj] at this
    rw [hpar, swapAt_right, swapAt_other (by omega) (by omega)]
    exact this

end Order

end CourseLabs.BinaryHeap
