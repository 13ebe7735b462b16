/-
`CSMCS26A017_Lab2_1.c`: `merge` and `mergeSortRec`.

The recursion halves a range as `List.mergeSort` does, the longer half first, and `merge`
takes from the left on a tie; so on a range the C function is `List.mergeSort`, and that it
sorts, permutes and is stable are the library's theorems. The scratch array is written before
it is read, wherever it is read, so what it holds at first does not show.
-/
import CourseLabs.CMem
import CourseLabs.Rainfall
import Mathlib.Data.List.Sort

set_option autoImplicit false

namespace CourseLabs.Rainfall

open CourseLabs.CDouble CourseLabs.CInt CourseLabs.CLoop CourseLabs.CMem

/-! ## The program -/

/-- The two arrays and the two counters of the merge sort. -/
structure MergeState where
  arr : List RainfallRecord
  temp : List RainfallRecord
  mergeComparisons : ℕ
  mergeSwaps : ℕ

/-- `temp[k] = x; mergeSwaps++;`: each record written to the scratch array counts as a swap. -/
def put (s : MergeState) (k : ℕ) (x : RainfallRecord) : Option MergeState := do
  let temp ← store s.temp k x
  some { s with temp, mergeSwaps := s.mergeSwaps + 1 }

/-- `while (i <= mid && j <= right)`; the state is `i`, `j`, `k` and the arrays. -/
def merge_body (mid right : ℕ) (v : ℕ × ℕ × ℕ × MergeState) :
    Option (Pass (ℕ × ℕ × ℕ × MergeState) (ℕ × ℕ × ℕ × MergeState)) :=
  let (i, j, k, s) := v
  if i ≤ mid ∧ j ≤ right then do
    let s := { s with mergeComparisons := s.mergeComparisons + 1 }
    let a ← s.arr[i]?
    let b ← s.arr[j]?
    if le a.annual b.annual then do
      let s ← put s k a
      some (.next (i + 1, j, k + 1, s))
    else do
      let s ← put s k b
      some (.next (i, j + 1, k + 1, s))
  else
    some (.done v)

/-- `while (p <= last) temp[k++] = arr[p++];`, for what is left of either half. -/
def drain_body (last : ℕ) (v : ℕ × ℕ × MergeState) :
    Option (Pass (ℕ × ℕ × MergeState) (ℕ × MergeState)) :=
  let (p, k, s) := v
  if p ≤ last then do
    let a ← s.arr[p]?
    let s ← put s k a
    some (.next (p + 1, k + 1, s))
  else
    some (.done (k, s))

/-- `arr[i] = temp[i]; mergeSwaps++;`: the way back counts once more. -/
def copy_back (i : ℕ) (s : MergeState) : Option MergeState := do
  let x ← s.temp[i]?
  let arr ← store s.arr i x
  some { s with arr, mergeSwaps := s.mergeSwaps + 1 }

def merge (left mid right : ℕ) (s : MergeState) : Option MergeState := do
  let (i, j, k, s) ← loop (merge_body mid right) (left, mid + 1, left, s)
  let (k, s) ← loop (drain_body mid) (i, k, s)
  let (_, s) ← loop (drain_body right) (j, k, s)
  forLoop left (right + 1) s copy_back

def mergeSortRec (left right : ℕ) (s : MergeState) : Option MergeState :=
  letI mergeSortRec : ℕ → ℕ → MergeState → Option MergeState := by exact mergeSortRec
  if left < right then do
    let mid := (← nat32 (left + right)) / 2
    let s ← mergeSortRec left mid s
    let s ← mergeSortRec (mid + 1) right s
    merge left mid right s
  else
    some s
partial_fixpoint

/-! ## The order -/

/-- `a.annual <= b.annual`, the comparison of doubles. Equal values go to the left part first,
which makes the sort stable. -/
def annualLe (a b : RainfallRecord) : Bool :=
  le a.annual b.annual

theorem annualLe_trans {a b c : RainfallRecord} (hab : annualLe a b = true)
    (hbc : annualLe b c = true) : annualLe a c = true :=
  CDouble.le_trans hab hbc

/-- The records have an annual value, no NaN. With a NaN the comparison is not an order, and
neither sort promises anything. -/
def Comparable (l : List RainfallRecord) : Prop :=
  ∀ r ∈ l, r.annual.Comparable

instance (l : List RainfallRecord) : Decidable (Comparable l) :=
  inferInstanceAs (Decidable (∀ r ∈ l, r.annual.Comparable))

/-- Ascending by the annual value, for any two records of the list and not only for neighbors. -/
def Ascending (l : List RainfallRecord) : Prop :=
  l.Pairwise (fun a b => annualLe a b = true)

theorem Ascending.of_length_le_one {l : List RainfallRecord} (h : l.length ≤ 1) : Ascending l := by
  rcases Nat.le_one_iff_eq_zero_or_eq_one.mp h with h0 | h1
  · rw [List.eq_nil_of_length_eq_zero h0]
    exact List.Pairwise.nil
  · obtain ⟨x, rfl⟩ := List.length_eq_one_iff.mp h1
    exact List.pairwise_singleton _ x

/-! ## One merge -/

section Merge

/-- The merge of a range of `cells` has put `done` into the scratch array, from `start` on. -/
structure Merging (cells : List RainfallRecord) (start : ℕ) (s : MergeState) (k : ℕ)
    (done : List RainfallRecord) : Prop where
  arr : s.arr = cells
  temp : ∃ pre post, s.temp = pre ++ done ++ post ∧ pre.length = start
  k : k = start + done.length
  size : s.temp.length = cells.length

variable {cells done : List RainfallRecord} {start k : ℕ} {s : MergeState}

/-- `temp[k++] = x; mergeSwaps++;`: the record joins what is merged already, and there is room for
it. -/
theorem Merging.put (h : Merging cells start s k done) (x : RainfallRecord)
    (hroom : k < cells.length) :
    ∃ s', put s k x = some s' ∧ Merging cells start s' (k + 1) (done ++ [x]) ∧
      s'.mergeSwaps = s.mergeSwaps + 1 ∧ s'.mergeComparisons = s.mergeComparisons := by
  obtain ⟨pre, post, htemp, hpre⟩ := h.temp
  have hk : k = (pre ++ done).length := by rw [h.k, List.length_append, hpre]
  -- no room left in temp is excluded by its size
  cases post with
  | nil =>
      have := h.size
      rw [htemp, List.append_nil, ← hk] at this
      omega
  | cons y post =>
      refine ⟨{ s with temp := pre ++ done ++ x :: post, mergeSwaps := s.mergeSwaps + 1 },
        ?_, ⟨h.arr, ⟨pre, post, by simp, hpre⟩, ?_, ?_⟩, rfl, rfl⟩
      · unfold Rainfall.put
        rw [htemp, hk, store_append_cons]
        rfl
      · rw [h.k, List.length_append]
        rfl
      · rw [← h.size, htemp]
        simp

/-- The part `l` of the array is what `p` and `last` bound. -/
structure Bounds (cells : List RainfallRecord) (p last : ℕ) (l : List RainfallRecord) : Prop where
  cells : ∃ pre post, cells = pre ++ l ++ post ∧ p = pre.length
  last : last + 1 = p + l.length

theorem Bounds.read {p last : ℕ} {x : RainfallRecord} {l : List RainfallRecord}
    (h : Bounds cells p last (x :: l)) : cells[p]? = some x := by
  obtain ⟨pre, post, rfl, rfl⟩ := h.cells
  simp

theorem Bounds.tail {p last : ℕ} {x : RainfallRecord} {l : List RainfallRecord}
    (h : Bounds cells p last (x :: l)) : Bounds cells (p + 1) last l := by
  obtain ⟨pre, post, rfl, rfl⟩ := h.cells
  have hlast := h.last
  rw [List.length_cons] at hlast
  exact ⟨⟨pre ++ [x], post, by simp, by simp⟩, by omega⟩

theorem Bounds.le_iff {p last : ℕ} {l : List RainfallRecord} (h : Bounds cells p last l) :
    p ≤ last ↔ l ≠ [] := by
  have hlast := h.last
  rw [← List.length_pos_iff]
  omega

/-- What is left of one half goes over as it is. -/
theorem drain_spec {last : ℕ} (l : List RainfallRecord) :
    ∀ {p k : ℕ} {s : MergeState} {done : List RainfallRecord}, Merging cells start s k done →
      Bounds cells p last l → k + l.length ≤ cells.length →
      ∃ k' s', loop (drain_body last) (p, k, s) = some (k', s') ∧
        Merging cells start s' k' (done ++ l) ∧ s'.mergeSwaps = s.mergeSwaps + l.length ∧
        s'.mergeComparisons = s.mergeComparisons := by
  induction l with
  | nil =>
      intro p k s done hs hb _
      refine ⟨k, s, loop_done ?_, by simpa using hs, rfl, rfl⟩
      exact if_neg (fun h => hb.le_iff.mp h rfl)
  | cons x l ih =>
      intro p k s done hs hb hroom
      rw [List.length_cons] at hroom
      obtain ⟨s₁, hput, hs₁, hswaps, hcomps⟩ := hs.put x (by omega)
      have hpass : drain_body last (p, k, s) = some (.next (p + 1, k + 1, s₁)) := by
        have hread : s.arr[p]? = some x := by rw [hs.arr]; exact hb.read
        have hle : p ≤ last := hb.le_iff.mpr (List.cons_ne_nil x l)
        unfold drain_body
        simp only [if_pos hle, hread, hput, Option.bind_eq_bind, Option.bind_some]
      obtain ⟨k', s', hrun, hs', hswaps', hcomps'⟩ := ih hs₁ hb.tail (by omega)
      refine ⟨k', s', (loop_next hpass).trans hrun, by simpa using hs', ?_, by rw [hcomps', hcomps]⟩
      rw [hswaps', hswaps, List.length_cons]
      omega

/-- **One pass of the comparing loop** moves the head of the merge, the left one on a tie. -/
theorem merge_pass {mid right i j : ℕ} {x y : RainfallRecord} {l r : List RainfallRecord}
    (hs : Merging cells start s k done) (hl : Bounds cells i mid (x :: l))
    (hr : Bounds cells j right (y :: r)) (hroom : k < cells.length) :
    ∃ z l' r' i' j' s', merge_body mid right (i, j, k, s) = some (.next (i', j', k + 1, s')) ∧
      Merging cells start s' (k + 1) (done ++ [z]) ∧ Bounds cells i' mid l' ∧
      Bounds cells j' right r' ∧
      List.merge (x :: l) (y :: r) annualLe = z :: List.merge l' r' annualLe ∧ l' ++ r' ≠ [] ∧
      s'.mergeSwaps = s.mergeSwaps + 1 ∧ s'.mergeComparisons = s.mergeComparisons + 1 := by
  have hcond : i ≤ mid ∧ j ≤ right :=
    ⟨hl.le_iff.mpr (List.cons_ne_nil x l), hr.le_iff.mpr (List.cons_ne_nil y r)⟩
  have hx : s.arr[i]? = some x := by rw [hs.arr]; exact hl.read
  have hy : s.arr[j]? = some y := by rw [hs.arr]; exact hr.read
  have hs₀ : Merging cells start { s with mergeComparisons := s.mergeComparisons + 1 } k done :=
    ⟨hs.arr, hs.temp, hs.k, hs.size⟩
  unfold merge_body
  simp only [if_pos hcond, hx, hy, Option.bind_eq_bind, Option.bind_some]
  -- `<=`, so a tie takes the left one: this is the stability
  by_cases hle : annualLe x y = true
  · obtain ⟨s₁, hput, hs₁, hswaps, hcomps⟩ := hs₀.put x hroom
    refine ⟨x, l, y :: r, i + 1, j, s₁, ?_, hs₁, hl.tail, hr,
      List.cons_merge_cons_pos _ _ _ hle, by simp, hswaps, hcomps⟩
    rw [if_pos (show le x.annual y.annual = true from hle), hput]
    rfl
  · obtain ⟨s₁, hput, hs₁, hswaps, hcomps⟩ := hs₀.put y hroom
    refine ⟨y, x :: l, r, i, j + 1, s₁, ?_, hs₁, hl, hr.tail,
      List.cons_merge_cons_neg _ _ _ hle, by simp, hswaps, hcomps⟩
    rw [if_neg (show ¬ le x.annual y.annual = true from hle), hput]
    rfl

/-- The comparing loop writes the merge up to the point where one half is used up. -/
theorem merge_loop {mid right : ℕ} (n : ℕ) :
    ∀ {l r : List RainfallRecord} {i j k : ℕ} {s : MergeState} {done : List RainfallRecord},
      l.length + r.length = n → Merging cells start s k done → Bounds cells i mid l →
      Bounds cells j right r → k + n ≤ cells.length →
      ∃ i' j' k' s' out l' r', loop (merge_body mid right) (i, j, k, s) = some (i', j', k', s') ∧
        Merging cells start s' k' (done ++ out) ∧ Bounds cells i' mid l' ∧
        Bounds cells j' right r' ∧ List.merge l r annualLe = out ++ (l' ++ r') ∧
        (l ++ r ≠ [] → l' ++ r' ≠ []) ∧ s'.mergeSwaps = s.mergeSwaps + out.length ∧
        s'.mergeComparisons = s.mergeComparisons + out.length := by
  induction n with
  | zero =>
      -- both halves are used up at once only if there was nothing
      intro l r i j k s done hn hs hl hr hroom
      obtain rfl : l = [] := List.eq_nil_of_length_eq_zero (by omega)
      obtain rfl : r = [] := List.eq_nil_of_length_eq_zero (by omega)
      refine ⟨i, j, k, s, [], [], [], loop_done ?_, by simpa using hs, hl, hr, by simp, by simp,
        rfl, rfl⟩
      exact if_neg (fun h => hl.le_iff.mp h.1 rfl)
  | succ n ih =>
      intro l r i j k s done hn hs hl hr hroom
      cases l with
      | nil =>
          refine ⟨i, j, k, s, [], [], r, loop_done ?_, by simpa using hs, hl, hr, by simp,
            fun h => h, rfl, rfl⟩
          exact if_neg (fun h => hl.le_iff.mp h.1 rfl)
      | cons x l =>
          cases r with
          | nil =>
              refine ⟨i, j, k, s, [], x :: l, [], loop_done ?_, by simpa using hs, hl, hr,
                by simp, fun h => h, rfl, rfl⟩
              exact if_neg (fun h => hr.le_iff.mp h.2 rfl)
          | cons y r =>
              obtain ⟨z, l₁, r₁, i₁, j₁, s₁, hpass, hs₁, hl₁, hr₁, hmerge₁, hne₁, hswaps₁,
                hcomps₁⟩ := merge_pass hs hl hr (by omega)
              -- the merge is one shorter, whichever half gave the record
              have hlen : l₁.length + r₁.length = n := by
                have := congrArg List.length hmerge₁
                simp only [List.length_merge, List.length_cons] at this hn
                omega
              obtain ⟨i', j', k', s', out, l', r', hrun, hs', hl', hr', hmerge, hne, hswaps,
                hcomps⟩ := ih hlen hs₁ hl₁ hr₁ (by omega)
              refine ⟨i', j', k', s', z :: out, l', r', (loop_next hpass).trans hrun,
                by simpa using hs', hl', hr', ?_, fun _ => hne hne₁, ?_, ?_⟩
              · rw [hmerge₁, hmerge]
                rfl
              · rw [hswaps, hswaps₁, List.length_cons]
                omega
              · rw [hcomps, hcomps₁, List.length_cons]
                omega

section CopyBack

variable {pre old post m tpre tpost : List RainfallRecord} {s₀ s : MergeState} {j : ℕ}

/-- The array when the first `j` of the merged records `m` are back, over what `old` held. -/
structure CopyingBack (pre old post m : List RainfallRecord) (s₀ : MergeState) (j : ℕ)
    (s : MergeState) : Prop where
  arr : s.arr = pre ++ m.take j ++ old.drop j ++ post
  temp : s.temp = s₀.temp
  swaps : s.mergeSwaps = s₀.mergeSwaps + j
  comparisons : s.mergeComparisons = s₀.mergeComparisons

/-- One more record comes back: the cells in front of it are done, those behind it still hold the
halves. -/
theorem CopyingBack.pass (h : CopyingBack pre old post m s₀ j s)
    (htemp : s₀.temp = tpre ++ m ++ tpost) (hpre : tpre.length = pre.length)
    (hlen : old.length = m.length) (hj : j < m.length) :
    ∃ s', copy_back (pre.length + j) s = some s' ∧ CopyingBack pre old post m s₀ (j + 1) s' := by
  -- temp is not written here, so the merged record is still there to copy back
  have hread : s.temp[pre.length + j]? = some m[j] := by
    rw [h.temp, htemp, ← hpre]
    exact getElem?_append_middle tpre tpost hj
  have hcells : s.arr = (pre ++ m.take j) ++ old[j] :: (old.drop (j + 1) ++ post) := by
    rw [h.arr, List.append_assoc (pre ++ m.take j), List.drop_eq_getElem_cons (by omega),
      List.cons_append]
  have hcell : pre.length + j = (pre ++ m.take j).length := by
    rw [List.length_append, List.length_take_of_le hj.le]
  refine ⟨{ s with
    arr := (pre ++ m.take j) ++ m[j] :: (old.drop (j + 1) ++ post)
    mergeSwaps := s.mergeSwaps + 1 }, ?_, ?_, h.temp, ?_, h.comparisons⟩
  · unfold copy_back
    rw [hread, Option.bind_eq_bind, Option.bind_some, hcells, hcell, store_append_cons]
    rfl
  · rw [List.take_succ_eq_append_getElem hj]
    simp only [List.append_assoc, List.cons_append, List.nil_append]
  · simp only [h.swaps, Nat.add_assoc]

/-- The merged range comes back into the array, and everything outside of it stays: the frame of
the merge. -/
theorem copy_back_spec (harr : s.arr = pre ++ old ++ post) (htemp : s.temp = tpre ++ m ++ tpost)
    (hpre : tpre.length = pre.length) (hlen : old.length = m.length) :
    ∃ s', forLoop pre.length (pre.length + m.length) s copy_back = some s' ∧
      s'.arr = pre ++ m ++ post ∧ s'.temp = s.temp ∧
      s'.mergeSwaps = s.mergeSwaps + m.length ∧ s'.mergeComparisons = s.mergeComparisons := by
  have hstart : CopyingBack pre old post m s 0 s :=
    ⟨by rw [harr, List.take_zero, List.drop_zero, List.append_nil], rfl, rfl, rfl⟩
  obtain ⟨s', hrun, hs'⟩ := forLoop_passes (CopyingBack pre old post m s) hstart
    (fun j s' hj h => h.pass htemp hpre hlen hj)
  refine ⟨s', hrun, ?_, hs'.temp, hs'.swaps, hs'.comparisons⟩
  -- the loop is through, so nothing of the old range is left
  rw [hs'.arr, List.take_length, ← hlen, List.drop_length, List.append_nil]

end CopyBack

/-- **`merge` is `List.merge`** on two halves that are not empty. -/
theorem merge_spec {pre l r post : List RainfallRecord} {s : MergeState} {mid right : ℕ}
    (harr : s.arr = pre ++ l ++ r ++ post) (hsize : s.temp.length = s.arr.length)
    (hl : l ≠ []) (hmid : mid + 1 = pre.length + l.length)
    (hright : right + 1 = pre.length + l.length + r.length) :
    ∃ s', merge pre.length mid right s = some s' ∧
      s'.arr = pre ++ List.merge l r annualLe ++ post ∧ s'.temp.length = s.temp.length ∧
      s'.mergeSwaps = s.mergeSwaps + 2 * (l.length + r.length) ∧
      s'.mergeComparisons + 1 ≤ s.mergeComparisons + (l.length + r.length) := by
  have hcells : s.arr.length = pre.length + l.length + r.length + post.length := by
    rw [harr]
    simp only [List.length_append]
  have htake : (s.temp.take pre.length).length = pre.length := by
    rw [List.length_take]
    omega
  -- at the start nothing is written and the scratch array is split at the place to write
  have hs : Merging s.arr pre.length s pre.length [] :=
    ⟨rfl, ⟨s.temp.take pre.length, s.temp.drop pre.length, by simp, htake⟩, rfl, hsize⟩
  have hbl : Bounds s.arr pre.length mid l :=
    ⟨⟨pre, r ++ post, by rw [harr]; simp, rfl⟩, hmid⟩
  have hbr : Bounds s.arr (mid + 1) right r :=
    ⟨⟨pre ++ l, post, harr, by rw [hmid, List.length_append]⟩, by omega⟩
  -- the comparing loop, then what is left of either half
  obtain ⟨i, j, k₁, s₁, out, l', r', hrun₁, hs₁, hl', hr', hmerge, hne, hswaps₁, hcomps₁⟩ :=
    merge_loop (l.length + r.length) rfl hs hbl hbr (by omega)
  have hlen : out.length + (l'.length + r'.length) = l.length + r.length := by
    rw [← List.length_append, ← List.length_append, ← hmerge, List.length_merge]
  -- the comparing loop leaves at least one record over, which saves a comparison
  have hrest : 1 ≤ l'.length + r'.length := by
    have := List.length_pos_iff.mpr (hne (fun h => hl (List.append_eq_nil_iff.mp h).1))
    rwa [List.length_append] at this
  have hk₁ := hs₁.k
  rw [List.nil_append] at hs₁ hk₁
  obtain ⟨k₂, s₂, hrun₂, hs₂, hswaps₂, hcomps₂⟩ := drain_spec l' hs₁ hl' (by omega)
  have hk₂ := hs₂.k
  rw [List.length_append] at hk₂
  obtain ⟨k₃, s₃, hrun₃, hs₃, hswaps₃, hcomps₃⟩ := drain_spec r' hs₂ hr' (by omega)
  rw [List.append_assoc, ← hmerge] at hs₃
  obtain ⟨tpre, tpost, htemp, htpre⟩ := hs₃.temp
  -- the copy back puts the merge where the halves were
  obtain ⟨s₄, hrun₄, harr₄, htemp₄, hswaps₄, hcomps₄⟩ :=
    @copy_back_spec pre (l ++ r) post (List.merge l r annualLe) tpre tpost s₃
      (by rw [hs₃.arr, harr]; simp) htemp htpre (by rw [List.length_merge, List.length_append])
  rw [List.length_merge] at hrun₄ hswaps₄
  refine ⟨s₄, ?_, harr₄, by rw [htemp₄, hs₃.size, hsize], by omega, by omega⟩
  unfold merge
  simp only [hrun₁, hrun₂, hrun₃, Option.bind_eq_bind, Option.bind_some]
  rw [show right + 1 = pre.length + (l.length + r.length) by omega]
  exact hrun₄

end Merge

/-! ## The sort -/

section Recursion

/-- What the sort of `n` records moves: all of them at each level of the recursion. -/
def mergeCost (n : ℕ) : ℕ :=
  if n ≤ 1 then 0 else mergeCost ((n + 1) / 2) + mergeCost (n / 2) + n
termination_by n
decreasing_by
  · omega
  · omega

/-- `List.mergeSort` by its halves: it splits where `mergeSort` of the source does, so the two
agree half by half. -/
theorem mergeSort_append {l r : List RainfallRecord} (hlen : 1 < l.length + r.length)
    (hl : l.length = (l.length + r.length + 1) / 2) :
    (l ++ r).mergeSort annualLe
      = List.merge (l.mergeSort annualLe) (r.mergeSort annualLe) annualLe := by
  -- there are at least two records, the case in which mergeSort splits its list
  obtain ⟨a, b, xs, hcons⟩ : ∃ a b xs, l ++ r = a :: b :: xs := by
    have hlen' : 1 < (l ++ r).length := by rwa [List.length_append]
    cases hlr : l ++ r with
    | nil => simp [hlr] at hlen'
    | cons a t =>
        cases t with
        | nil => simp [hlr] at hlen'
        | cons b xs => exact ⟨a, b, xs, rfl⟩
  have hn : l.length = (xs.length + 1 + 1 + 1) / 2 := by
    have := congrArg List.length hcons
    simp only [List.length_append, List.length_cons] at this
    omega
  have htake : (a :: b :: xs).take ((xs.length + 1 + 1 + 1) / 2) = l := by
    rw [← hcons, ← hn, List.take_left]
  have hdrop : (a :: b :: xs).drop ((xs.length + 1 + 1 + 1) / 2) = r := by
    rw [← hcons, ← hn, List.drop_left]
  rw [hcons, List.mergeSort]
  simp only [List.MergeSort.Internal.splitInTwo_fst, List.MergeSort.Internal.splitInTwo_snd,
    List.length_cons]
  rw [htake, hdrop]

/-- **`mergeSortRec` is `List.mergeSort`** on its range, whatever is in the scratch array. -/
theorem mergeSortRec_spec (n : ℕ) :
    ∀ {pre l post : List RainfallRecord} {s : MergeState} {right : ℕ}, l.length = n →
      s.arr = pre ++ l ++ post → s.temp.length = s.arr.length → right + 1 = pre.length + n →
      pre.length + n ≤ 2 ^ 30 + 1 →
      ∃ s', mergeSortRec pre.length right s = some s' ∧
        s'.arr = pre ++ l.mergeSort annualLe ++ post ∧ s'.temp.length = s.temp.length ∧
        s'.mergeSwaps = s.mergeSwaps + 2 * mergeCost n ∧
        s'.mergeComparisons + (n - 1) ≤ s.mergeComparisons + mergeCost n := by
  induction n using Nat.strongRecOn with
  | ind n ih =>
      intro pre l post s right hlen harr hsize hright hint
      rcases Nat.lt_or_ge 1 n with hlt | hle
      · obtain ⟨l₁, l₂, rfl, hl1, hl2⟩ := exists_halves hlen
        -- the source's middle is the end of the longer first half
        have hmid : (pre.length + right) / 2 + 1 = pre.length + (n + 1) / 2 := by omega
        -- the first half
        obtain ⟨s₁, hrun₁, harr₁, htemp₁, hswaps₁, hcomps₁⟩ :=
          @ih ((n + 1) / 2) (by omega) pre l₁ (l₂ ++ post) s ((pre.length + right) / 2) hl1
            (by rw [harr]; simp) hsize hmid (by omega)
        have hlen₁ : s₁.arr.length = s.arr.length := by
          rw [harr₁, harr]
          simp
        -- the second half, behind the sorted first
        obtain ⟨s₂, hrun₂, harr₂, htemp₂, hswaps₂, hcomps₂⟩ :=
          @ih (n / 2) (by omega) (pre ++ l₁.mergeSort annualLe) l₂ post s₁ right hl2
            (by rw [harr₁]; simp) (by rw [htemp₁, hlen₁, hsize])
            (by rw [List.length_append, List.length_mergeSort]; omega)
            (by rw [List.length_append, List.length_mergeSort]; omega)
        have hlen₂ : s₂.arr.length = s₁.arr.length := by
          rw [harr₂, harr₁]
          simp
        -- and the merge of the two
        obtain ⟨s₃, hrun₃, harr₃, htemp₃, hswaps₃, hcomps₃⟩ :=
          @merge_spec pre (l₁.mergeSort annualLe) (l₂.mergeSort annualLe) post s₂
            ((pre.length + right) / 2) right harr₂
            (by rw [htemp₂, htemp₁, hlen₂, hlen₁, hsize])
            (by
              intro hnil
              rw [← List.length_eq_zero_iff, List.length_mergeSort] at hnil
              omega)
            (by rw [List.length_mergeSort]; omega)
            (by rw [List.length_mergeSort, List.length_mergeSort]; omega)
        rw [List.length_append, List.length_mergeSort] at hrun₂
        rw [List.length_mergeSort, List.length_mergeSort] at hswaps₃ hcomps₃
        refine ⟨s₃, ?_, ?_, by rw [htemp₃, htemp₂, htemp₁], ?_, ?_⟩
        · rw [mergeSortRec, if_pos (by omega), nat32_of_lt (by omega)]
          simp only [Option.bind_eq_bind, Option.bind_some, hrun₁]
          rw [show (pre.length + right) / 2 + 1 = pre.length + l₁.length by omega, hrun₂]
          exact hrun₃
        · rw [harr₃, mergeSort_append (by omega) (by omega)]
        · rw [mergeCost, if_neg (by omega)]
          omega
        · rw [mergeCost, if_neg (by omega)]
          omega
      -- one record or none is not touched
      · have hsorted : l.mergeSort annualLe = l :=
          List.mergeSort_of_pairwise (Ascending.of_length_le_one (hlen.trans_le hle))
        refine ⟨s, ?_, by rw [hsorted, harr], rfl, ?_, by omega⟩
        · rw [mergeSortRec, if_neg (by omega)]
        · rw [mergeCost, if_pos hle, Nat.mul_zero, Nat.add_zero]

/-- By value the order is total, and on values that compare the two are the same. -/
theorem mergeSort_eq_value {l : List RainfallRecord} (hl : Comparable l) :
    l.mergeSort annualLe = l.mergeSort (fun a b => decide (a.annual.value ≤ b.annual.value)) := by
  have hmap := @List.map_mergeSort RainfallRecord RainfallRecord annualLe
    (fun a b => decide (a.annual.value ≤ b.annual.value)) id l
    (by
      intro a ha b hb
      rw [Bool.eq_iff_iff, decide_eq_true_iff]
      exact le_iff (hl a ha) (hl b hb))
  rwa [List.map_id, List.map_id] at hmap

theorem value_le_trans (a b c : RainfallRecord) (hab : decide (a.annual.value ≤ b.annual.value))
    (hbc : decide (b.annual.value ≤ c.annual.value)) :
    decide (a.annual.value ≤ c.annual.value) := by
  rw [decide_eq_true_iff] at hab hbc ⊢
  exact Int.le_trans hab hbc

theorem value_le_total (a b : RainfallRecord) :
    decide (a.annual.value ≤ b.annual.value) || decide (b.annual.value ≤ a.annual.value) := by
  rw [Bool.or_eq_true, decide_eq_true_iff, decide_eq_true_iff]
  exact Int.le_total _ _

/-- On values that compare, what `List.mergeSort` gives ascends. -/
theorem ascending_mergeSort {l : List RainfallRecord} (hl : Comparable l) :
    Ascending (l.mergeSort annualLe) := by
  have hsorted : (l.mergeSort annualLe).Pairwise
      (fun a b => decide (a.annual.value ≤ b.annual.value) = true) := by
    rw [mergeSort_eq_value hl]
    exact List.pairwise_mergeSort value_le_trans value_le_total l
  apply List.Pairwise.imp_of_mem _ hsorted
  intro a b ha hb hab
  have hmem : ∀ r ∈ l.mergeSort annualLe, r.annual.Comparable :=
    fun r hr => hl r (List.mem_mergeSort.mp hr)
  exact (le_iff (hmem a ha) (hmem b hb)).mpr (of_decide_eq_true hab)

end Recursion

end CourseLabs.Rainfall
