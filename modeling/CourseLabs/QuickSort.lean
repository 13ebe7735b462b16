/-
`CSMCS26A017_Lab2_1.c`: `swapRecords`, `partition` and `quickSortRec`.

The values of `rand()` are an arbitrary stream. Whatever it holds, a partition leaves its
range as `a ++ p :: b` with nothing of `a` above the pivot `p` and nothing of `b` below it,
so the two recursive calls are on shorter ranges and what they leave around `p` ascends.
-/
import CourseLabs.MergeSort
import Mathlib.Tactic.Ring

set_option autoImplicit false

namespace CourseLabs.Rainfall

open CourseLabs.CDouble CourseLabs.CInt CourseLabs.CLoop CourseLabs.CMem

/-! ## The program -/

/-- The array and the two counters of the quick sort, and how often it has called `rand()`. -/
structure QuickState where
  arr : List RainfallRecord
  quickComparisons : ℕ
  quickSwaps : ℕ
  draws : ℕ

/-- `swapRecords(&arr[a], &arr[b])`: it counts also when the two are one cell. -/
def swapRecords (s : QuickState) (a b : ℕ) : Option QuickState := do
  let temp ← s.arr[a]?
  let y ← s.arr[b]?
  let arr ← store s.arr a y
  let arr ← store arr b temp
  some { s with arr, quickSwaps := s.quickSwaps + 1 }

/-- The body of the loop of `partition`; the state is `i` and the array. -/
def partition_body (pivot : Double) (j : ℕ) (v : ℤ × QuickState) : Option (ℤ × QuickState) := do
  let (i, s) := v
  let s := { s with quickComparisons := s.quickComparisons + 1 }
  let x ← s.arr[j]?
  if le x.annual pivot then
    if i + 1 ≠ j then do
      let s ← swapRecords s (← idx (i + 1)) j
      some (i + 1, s)
    else
      some (i + 1, s)
  else
    some (i, s)

/-- `partition`: a random record becomes the pivot and goes to the end, the others are split, and
the pivot goes between them. `rand` gives the value of each call of `rand()`. -/
def partition (rand : ℕ → Fin (2 ^ 31)) (low high : ℤ) (s : QuickState) :
    Option (ℤ × QuickState) := do
  let size ← int32 ((← int32 (high - low)) + 1)
  let randIdx ← int32 (low + (← rem32 ((rand s.draws).val : ℤ) size))
  let s ← swapRecords { s with draws := s.draws + 1 } (← idx randIdx) (← idx high)
  let pivot ← s.arr[← idx high]?
  let (i, s) ← forLoop (← idx low) (← idx high) (low - 1, s) (partition_body pivot.annual)
  if i + 1 ≠ high then do
    let s ← swapRecords s (← idx (i + 1)) (← idx high)
    some (i + 1, s)
  else
    some (i + 1, s)

def quickSortRec (rand : ℕ → Fin (2 ^ 31)) (low high : ℤ) (s : QuickState) :
    Option QuickState :=
  letI quickSortRec : (ℕ → Fin (2 ^ 31)) → ℤ → ℤ → QuickState → Option QuickState := by
    exact quickSortRec
  if low < high then do
    let (pi, s) ← partition rand low high s
    let s ← quickSortRec rand low (← int32 (pi - 1)) s
    quickSortRec rand (← int32 (pi + 1)) high s
  else
    some s
partial_fixpoint

/-! ## One partition -/

section Partition

variable {pre post : List RainfallRecord} {s : QuickState}

theorem swapRecords_spec {mid : List RainfallRecord} {x y : RainfallRecord} {a b : ℕ}
    (harr : s.arr = pre ++ x :: (mid ++ y :: post)) (ha : a = pre.length)
    (hb : b = pre.length + 1 + mid.length) :
    swapRecords s a b = some { s with
      arr := pre ++ y :: (mid ++ x :: post), quickSwaps := s.quickSwaps + 1 } := by
  have hsplit : ∀ z w : RainfallRecord,
      pre ++ z :: (mid ++ w :: post) = (pre ++ z :: mid) ++ w :: post := by simp
  have hlen : ∀ z : RainfallRecord, (pre ++ z :: mid).length = b := by
    intro z
    rw [hb, List.length_append, List.length_cons]
    omega
  -- the two cells are read before either is written
  have hy : (pre ++ x :: (mid ++ y :: post))[b]? = some y := by
    rw [hsplit, ← hlen x]
    exact getElem?_append_cons _ y post
  have hstore : store (pre ++ y :: (mid ++ y :: post)) b x
      = some (pre ++ y :: (mid ++ x :: post)) := by
    rw [hsplit, ← hlen y, hsplit]
    exact store_append_cons _ y x post
  unfold swapRecords
  rw [harr, hy, ha, getElem?_append_cons]
  simp only [Option.bind_eq_bind, Option.bind_some]
  rw [store_append_cons, Option.bind_some, hstore]
  rfl

/-- A record swapped with itself: the array stays, and only the counter goes up. -/
theorem swapRecords_self {x : RainfallRecord} (harr : s.arr = pre ++ x :: post) {a : ℕ}
    (ha : a = pre.length) :
    swapRecords s a a = some { s with quickSwaps := s.quickSwaps + 1 } := by
  unfold swapRecords
  rw [harr, ha, getElem?_append_cons]
  simp only [Option.bind_eq_bind, Option.bind_some]
  rw [store_append_cons, Option.bind_some, store_append_cons, ← harr]
  rfl

/-- Two elements exchanged make a permutation; a partition does nothing else to the array. -/
theorem exchange_perm {α : Type} (x y : α) (m r : List α) :
    (x :: (m ++ y :: r)).Perm (y :: (m ++ x :: r)) := by
  have hx : (x :: (m ++ y :: r)).Perm (x :: y :: (m ++ r)) :=
    List.Perm.cons x List.perm_middle
  have hy : (y :: x :: (m ++ r)).Perm (y :: (m ++ x :: r)) :=
    List.Perm.cons y List.perm_middle.symm
  exact (hx.trans (List.Perm.swap y x (m ++ r))).trans hy

/-- The chosen pivot comes to the end of the range, wherever in it it was. -/
theorem swap_to_end {seg : List RainfallRecord} {k : ℕ} (hk : k < seg.length)
    (harr : s.arr = pre ++ seg ++ post) :
    ∃ l p, swapRecords s (pre.length + k) (pre.length + seg.length - 1) = some { s with
        arr := pre ++ l ++ p :: post, quickSwaps := s.quickSwaps + 1 } ∧
      (p :: l).Perm seg := by
  obtain ⟨a, x, b, rfl, rfl⟩ : ∃ a x b, seg = a ++ x :: b ∧ a.length = k :=
    ⟨seg.take k, seg[k], seg.drop (k + 1), by simp, by rw [List.length_take]; omega⟩
  -- the pivot may be at the end already, and is swapped with itself then
  rcases List.eq_nil_or_concat b with rfl | ⟨m, y, rfl⟩
  · refine ⟨a, x, ?_, (List.perm_append_singleton x a).symm⟩
    rw [show pre.length + (a ++ [x]).length - 1 = pre.length + a.length by simp,
      @swapRecords_self (pre ++ a) post s x (by rw [harr]; simp) _ (by simp), harr]
    simp
  · refine ⟨a ++ y :: m, x, ?_, ?_⟩
    · rw [@swapRecords_spec (pre ++ a) post s m x y _ _ (by rw [harr]; simp) (by simp)
        (by simp; omega)]
      simp
    · apply List.Perm.trans List.perm_middle.symm
      apply List.Perm.append_left
      rw [List.concat_eq_append]
      exact List.Perm.cons x (List.perm_append_singleton y m).symm

/-- How far the loop of `partition` is, at `j`: of the `l` before the pivot `p` it has put
`a`, what is not above `p`, in front of `b`, what is, and `r` is still to come. -/
structure Splitting (pre l post : List RainfallRecord) (p : RainfallRecord) (s₀ : QuickState)
    (j : ℕ) (i : ℤ) (s : QuickState) (a b r : List RainfallRecord) : Prop where
  arr : s.arr = pre ++ a ++ b ++ r ++ p :: post
  i : i = pre.length + a.length - 1
  j : j = pre.length + a.length + b.length
  below : ∀ x ∈ a, annualLe x p = true
  above : ∀ x ∈ b, annualLe x p ≠ true
  perm : (a ++ b ++ r).Perm l
  comparisons : s.quickComparisons = s₀.quickComparisons + a.length + b.length
  swaps : s.quickSwaps ≤ s₀.quickSwaps + a.length

variable {l a b r : List RainfallRecord} {p x y : RainfallRecord} {s₀ : QuickState} {j : ℕ}
  {i : ℤ}

theorem Splitting.read (h : Splitting pre l post p s₀ j i s a b (x :: r)) :
    s.arr[j]? = some x := by
  rw [h.arr, h.j, ← List.length_append, ← List.length_append,
    show pre ++ a ++ b ++ (x :: r) ++ p :: post = (pre ++ a ++ b) ++ x :: (r ++ p :: post) by simp]
  exact getElem?_append_cons _ x _

/-- A record above the pivot stays behind the others of its kind. -/
theorem Splitting.step_above (h : Splitting pre l post p s₀ j i s a b (x :: r))
    (hx : annualLe x p ≠ true) :
    ∃ s', partition_body p.annual j (i, s) = some (i, s') ∧
      Splitting pre l post p s₀ (j + 1) i s' a (b ++ [x]) r := by
  refine ⟨{ s with quickComparisons := s.quickComparisons + 1 }, ?_, ?_⟩
  · unfold partition_body
    simp only [h.read, Option.bind_eq_bind, Option.bind_some]
    rw [if_neg (show ¬ le x.annual p.annual = true from hx)]
  · refine ⟨by simp [h.arr], h.i, ?_, h.below, ?_, by simpa using h.perm, ?_, h.swaps⟩
    · rw [h.j, List.length_append, List.length_singleton, Nat.add_assoc]
    · exact List.forall_mem_append.mpr ⟨h.above, by simpa using hx⟩
    · simp only [h.comparisons, List.length_append, List.length_singleton]
      omega

/-- With nothing above the pivot yet, a record not above it stays where it is. -/
theorem Splitting.step_stay (h : Splitting pre l post p s₀ j i s a [] (x :: r))
    (hx : annualLe x p = true) :
    ∃ s', partition_body p.annual j (i, s) = some (i + 1, s') ∧
      Splitting pre l post p s₀ (j + 1) (i + 1) s' (a ++ [x]) [] r := by
  have hi := h.i
  have hj := h.j
  have hswaps := h.swaps
  rw [List.length_nil, Nat.add_zero] at hj
  refine ⟨{ s with quickComparisons := s.quickComparisons + 1 }, ?_, ?_⟩
  · unfold partition_body
    simp only [h.read, Option.bind_eq_bind, Option.bind_some]
    rw [if_pos (show le x.annual p.annual = true from hx), if_neg (by omega)]
  · refine ⟨by simp [h.arr], ?_, ?_, ?_, h.above, by simpa using h.perm, ?_, ?_⟩
    · rw [List.length_append, List.length_singleton]
      omega
    · rw [List.length_append, List.length_singleton, List.length_nil]
      omega
    · exact List.forall_mem_append.mpr ⟨h.below, by simpa using hx⟩
    · simp only [h.comparisons, List.length_append, List.length_singleton, List.length_nil]
      omega
    · simp only [List.length_append, List.length_singleton]
      omega

/-- Otherwise it changes places with the first record above the pivot. -/
theorem Splitting.step_swap (h : Splitting pre l post p s₀ j i s a (y :: b) (x :: r))
    (hx : annualLe x p = true) :
    ∃ s', partition_body p.annual j (i, s) = some (i + 1, s') ∧
      Splitting pre l post p s₀ (j + 1) (i + 1) s' (a ++ [x]) (b ++ [y]) r := by
  have hi := h.i
  have hj := h.j
  have hswaps := h.swaps
  rw [List.length_cons] at hj
  have hswap := @swapRecords_spec (pre ++ a) (r ++ p :: post)
    { s with quickComparisons := s.quickComparisons + 1 } b y x
    (pre.length + a.length) j (by simp [h.arr]) (by simp) (by simp; omega)
  refine ⟨{ s with
    arr := pre ++ a ++ x :: (b ++ y :: (r ++ p :: post))
    quickComparisons := s.quickComparisons + 1
    quickSwaps := s.quickSwaps + 1 }, ?_, ?_⟩
  · unfold partition_body
    simp only [h.read, Option.bind_eq_bind, Option.bind_some]
    rw [if_pos (show le x.annual p.annual = true from hx), if_pos (by omega),
      show i + 1 = ((pre.length + a.length : ℕ) : ℤ) by omega, idx_natCast]
    simp only [Option.bind_some, hswap]
  · refine ⟨by simp, ?_, ?_, ?_, ?_, ?_, ?_, ?_⟩
    · rw [List.length_append, List.length_singleton]
      omega
    · rw [List.length_append, List.length_singleton, List.length_append, List.length_singleton]
      omega
    · exact List.forall_mem_append.mpr ⟨h.below, by simpa using hx⟩
    · intro z hz
      exact h.above z (by simpa [or_comm] using hz)
    · apply List.Perm.trans _ h.perm
      simpa using List.Perm.append_left a (exchange_perm x y b r)
    · simp only [h.comparisons, List.length_append, List.length_cons, List.length_nil]
      omega
    · simp only [List.length_append, List.length_singleton]
      omega

/-- **One pass of the loop of `partition`**: the next record goes to the small ones by a swap, or
stays where it is with the large ones. -/
theorem Splitting.step (h : Splitting pre l post p s₀ j i s a b (x :: r)) :
    ∃ i' s' a' b', partition_body p.annual j (i, s) = some (i', s') ∧
      Splitting pre l post p s₀ (j + 1) i' s' a' b' r := by
  by_cases hx : annualLe x p = true
  · cases b with
    | nil =>
        obtain ⟨s', hrun, hs'⟩ := h.step_stay hx
        exact ⟨_, s', _, _, hrun, hs'⟩
    | cons y b =>
        obtain ⟨s', hrun, hs'⟩ := h.step_swap hx
        exact ⟨_, s', _, _, hrun, hs'⟩
  · obtain ⟨s', hrun, hs'⟩ := h.step_above hx
    exact ⟨_, s', _, _, hrun, hs'⟩

/-- The whole loop: every record before the pivot is with the small ones or with the large ones. -/
theorem partition_loop (harr : s.arr = pre ++ l ++ p :: post) :
    ∃ i s' a b, forLoop pre.length (pre.length + l.length) ((pre.length : ℤ) - 1, s)
        (partition_body p.annual) = some (i, s') ∧
      Splitting pre l post p s (pre.length + l.length) i s' a b [] := by
  obtain ⟨⟨i, s'⟩, hrun, a, b, r, hs'⟩ := @forLoop_spec (ℤ × QuickState) pre.length
    (pre.length + l.length) (partition_body p.annual)
    (fun j v => ∃ a b r, Splitting pre l post p s j v.1 v.2 a b r)
    ((pre.length : ℤ) - 1, s) (Nat.le_add_right _ _)
    ⟨[], [], l, by simpa using harr, by simp, by simp, by simp, by simp, by simp, by simp,
      by simp⟩
    (by
      rintro j ⟨i, s'⟩ - hj ⟨a, b, r, hs'⟩
      cases r with
      | nil =>
          have hlen := hs'.perm.length_eq
          have := hs'.j
          rw [List.append_nil, List.length_append] at hlen
          omega
      | cons x r =>
          obtain ⟨i', s₁, a', b', hrun, hs₁⟩ := hs'.step
          exact ⟨(i', s₁), hrun, a', b', r, hs₁⟩)
  obtain rfl : r = [] := by
    have hlen := hs'.perm.length_eq
    have := hs'.j
    rw [List.length_append, List.length_append] at hlen
    exact List.eq_nil_of_length_eq_zero (by omega)
  exact ⟨i, s', a, b, hrun, hs'⟩

/-- The last swap brings the pivot between the two parts. -/
theorem Splitting.finish (h : Splitting pre l post p s₀ j i s a b []) :
    ∃ s' c, (if i + 1 ≠ (j : ℤ) then do
          let s ← swapRecords s (← idx (i + 1)) j
          some (i + 1, s)
        else
          some (i + 1, s)) = some (((pre.length + a.length : ℕ) : ℤ), s') ∧
      s'.arr = pre ++ a ++ p :: (c ++ post) ∧ c.Perm b ∧
      s'.quickComparisons = s.quickComparisons ∧ s'.quickSwaps ≤ s.quickSwaps + 1 := by
  have hi := h.i
  have hj := h.j
  have hi' : i + 1 = ((pre.length + a.length : ℕ) : ℤ) := by omega
  have harr := h.arr
  cases b with
  | nil =>
      rw [List.length_nil, Nat.add_zero] at hj
      refine ⟨s, [], ?_, by simpa using harr, List.Perm.refl _, rfl, Nat.le_succ _⟩
      rw [if_neg (by omega), hi']
  | cons y b =>
      rw [List.length_cons] at hj
      have hswap := @swapRecords_spec (pre ++ a) post s b y p (pre.length + a.length) j
        (by simp [harr]) (by simp) (by simp; omega)
      refine ⟨{ s with
        arr := pre ++ a ++ p :: (b ++ y :: post), quickSwaps := s.quickSwaps + 1 }, b ++ [y], ?_,
        by simp, List.perm_append_singleton y b, rfl, Nat.le_refl _⟩
      rw [if_pos (by omega), hi', idx_natCast, Option.bind_eq_bind, Option.bind_some, hswap]
      rfl

/-- **A partition**, whatever `rand()` says. -/
theorem partition_spec (rand : ℕ → Fin (2 ^ 31)) {seg : List RainfallRecord} {high : ℤ}
    (harr : s.arr = pre ++ seg ++ post) (hseg : 2 ≤ seg.length)
    (hhigh : high = pre.length + seg.length - 1) (hint : high + 1 < 2 ^ 31) :
    ∃ s' a p b, partition rand pre.length high s
        = some (((pre.length + a.length : ℕ) : ℤ), s') ∧
      s'.arr = pre ++ a ++ p :: (b ++ post) ∧ (a ++ p :: b).Perm seg ∧
      (∀ x ∈ a, annualLe x p = true) ∧ (∀ x ∈ b, annualLe x p ≠ true) ∧
      s'.quickComparisons = s.quickComparisons + a.length + b.length ∧
      s'.quickSwaps ≤ s.quickSwaps + a.length + 2 := by
  have hk : (rand s.draws).val % seg.length < seg.length := Nat.mod_lt _ (by omega)
  have hrand := (rand s.draws).isLt
  obtain ⟨l, p, hswap, hperm⟩ := @swap_to_end pre post { s with draws := s.draws + 1 } seg
    ((rand s.draws).val % seg.length) hk harr
  have hlen : seg.length = l.length + 1 := hperm.length_eq.symm
  have hhigh' : high = ((pre.length + l.length : ℕ) : ℤ) := by omega
  obtain ⟨i, s₁, a, b, hloop, hs₁⟩ := @partition_loop pre post { s with
    arr := pre ++ l ++ p :: post, quickSwaps := s.quickSwaps + 1, draws := s.draws + 1 } l p rfl
  obtain ⟨s₂, c, hfinish, harr₂, hc, hcomps₂, hswaps₂⟩ := hs₁.finish
  have hcomps₁ := hs₁.comparisons
  have hswaps₁ := hs₁.swaps
  have hpivot : (pre ++ l ++ p :: post)[pre.length + l.length]? = some p := by
    rw [← List.length_append]
    exact getElem?_append_cons _ p post
  refine ⟨s₂, a, p, c, ?_, harr₂, ?_, hs₁.below, ?_, ?_, ?_⟩
  · have hidx : int32 ((pre.length : ℤ) + ((rand s.draws).val : ℤ) % (seg.length : ℤ))
        = some ((pre.length + (rand s.draws).val % seg.length : ℕ) : ℤ) := by
      rw [int32_eq_some (by omega) (by omega)]
      norm_cast
    unfold partition
    rw [int32_eq_some (by omega) (by omega), Option.bind_eq_bind, Option.bind_some,
      show high - (pre.length : ℤ) + 1 = (seg.length : ℤ) by omega,
      int32_eq_some (by omega) (by omega), Option.bind_eq_bind, Option.bind_some,
      rem32_of_nonneg (by omega) (by omega) (by omega), Option.bind_some, hidx, Option.bind_some,
      hhigh']
    simp only [idx_natCast, Option.bind_eq_bind, Option.bind_some]
    rw [show pre.length + l.length = pre.length + seg.length - 1 by omega, hswap]
    simp only [Option.bind_some]
    rw [show pre.length + seg.length - 1 = pre.length + l.length by omega, hpivot,
      Option.bind_some, hloop]
    exact hfinish
  · have hab : (a ++ c).Perm l := by
      have := hs₁.perm
      rw [List.append_nil] at this
      exact (List.Perm.append_left a hc).trans this
    exact (List.perm_middle.trans (List.Perm.cons p hab)).trans hperm
  · exact fun x hx => hs₁.above x (hc.mem_iff.mp hx)
  · rw [hcomps₂, hcomps₁, hc.length_eq]
  · simp only at hswaps₁
    omega

end Partition

/-! ## The sort -/

/-- Two ascending parts, and the pivot between them: what the recursion on both sides of a
partition comes to. -/
theorem Ascending.append_pivot {a b : List RainfallRecord} {p : RainfallRecord}
    (ha : Ascending a) (hb : Ascending b) (hbelow : ∀ x ∈ a, annualLe x p = true)
    (habove : ∀ y ∈ b, annualLe p y = true) : Ascending (a ++ p :: b) := by
  apply List.pairwise_append.mpr
  refine ⟨ha, List.pairwise_cons.mpr ⟨habove, hb⟩, ?_⟩
  intro x hx y hy
  rcases List.mem_cons.mp hy with rfl | hy
  · exact hbelow x hx
  · exact annualLe_trans (hbelow x hx) (habove y hy)

/-- **The quick sort sorts its range**, whatever `rand()` says, and touches nothing else. -/
theorem quickSortRec_spec (rand : ℕ → Fin (2 ^ 31)) (n : ℕ) :
    ∀ {pre seg post : List RainfallRecord} {s : QuickState} {high : ℤ}, seg.length = n →
      s.arr = pre ++ seg ++ post → high = pre.length + n - 1 → high + 1 < 2 ^ 31 →
      ∃ s' seg', quickSortRec rand pre.length high s = some s' ∧
        s'.arr = pre ++ seg' ++ post ∧ seg'.Perm seg ∧ (Comparable seg → Ascending seg') ∧
        2 * s'.quickComparisons + n ≤ 2 * s.quickComparisons + n * n ∧
        s'.quickSwaps + s.quickComparisons
          ≤ s.quickSwaps + s'.quickComparisons + 2 * (n - 1) := by
  induction n using Nat.strongRecOn with
  | ind n ih =>
      intro pre seg post s high hlen harr hhigh hint
      rcases Nat.lt_or_ge 1 n with hlt | hle
      -- the pivot is in place, everything not above it on its left
      · obtain ⟨s₁, a, p, b, hrun₁, harr₁, hperm₁, hbelow, habove, hcomps₁, hswaps₁⟩ :=
          partition_spec rand harr (by omega) (by rw [hhigh, hlen]) hint
        have hn : n = a.length + b.length + 1 := by
          rw [← hlen, ← hperm₁.length_eq, List.length_append, List.length_cons]
          omega
        -- the left part is sorted in the array as `partition` left it
        obtain ⟨s₂, a', hrun₂, harr₂, hperm₂, hsorted₂, hcomps₂, hswaps₂⟩ :=
          @ih a.length (by omega) pre a (p :: (b ++ post)) s₁
            (((pre.length + a.length : ℕ) : ℤ) - 1) rfl harr₁ (by omega) (by omega)
        -- and the right part behind it
        obtain ⟨s₃, b', hrun₃, harr₃, hperm₃, hsorted₃, hcomps₃, hswaps₃⟩ :=
          @ih b.length (by omega) (pre ++ a' ++ [p]) b post s₂ high rfl (by rw [harr₂]; simp)
            (by simp only [List.length_append, List.length_singleton, hperm₂.length_eq]; omega)
            hint
        refine ⟨s₃, a' ++ p :: b', ?_, by rw [harr₃]; simp, ?_, ?_, ?_, ?_⟩
        · rw [quickSortRec, if_pos (by omega), hrun₁, Option.bind_eq_bind, Option.bind_some]
          simp only
          rw [int32_eq_some (by omega) (by omega), int32_eq_some (by omega) (by omega)]
          simp only [Option.bind_eq_bind, Option.bind_some, hrun₂]
          rw [← hrun₃]
          simp only [List.length_append, List.length_singleton, hperm₂.length_eq]
          norm_cast
        · exact (List.Perm.append hperm₂ (List.Perm.cons p hperm₃)).trans hperm₁
        · intro hseg
          have hab : Comparable (a ++ p :: b) := fun r hr => hseg r (hperm₁.mem_iff.mp hr)
          have ha : Comparable a := fun r hr => hab r (List.mem_append_left _ hr)
          have hp : Comparable (p :: b) := fun r hr => hab r (List.mem_append_right a hr)
          have hb : Comparable b := fun r hr => hp r (List.mem_cons_of_mem p hr)
          -- without NaNs what is not below the pivot is above it
          have habove' : ∀ y ∈ b, annualLe p y = true := by
            intro y hy
            exact (le_total (hp p List.mem_cons_self) (hb y hy)).resolve_right (habove y hy)
          exact (hsorted₂ ha).append_pivot (hsorted₃ hb)
            (fun x hx => hbelow x (hperm₂.mem_iff.mp hx))
            (fun y hy => habove' y (hperm₃.mem_iff.mp hy))
        -- the comparisons: a square is at least the squares of its parts and the products between
        · have hsq : n * n = a.length * a.length + b.length * b.length
              + 2 * (a.length * b.length) + 2 * a.length + 2 * b.length + 1 := by
            rw [hn]
            ring
          omega
        · omega
      -- one record or none is sorted
      · refine ⟨s, seg, ?_, harr, List.Perm.refl _, ?_, ?_, by omega⟩
        · rw [quickSortRec, if_neg (by omega)]
        · exact fun _ => Ascending.of_length_le_one (hlen.trans_le hle)
        · have := Nat.le_mul_self n
          omega

end CourseLabs.Rainfall
