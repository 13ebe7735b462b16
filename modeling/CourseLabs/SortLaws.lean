/-
`CSMCS26A017_Lab2_1.c`: what the two sorts do to a range of any array, and what they count.

`mergeSortRec` makes the same copies whatever the data are, so its total is the solution of
the recurrence with the two halves. That a half may be on either side of a power of two does
not matter: at a power of two the closed form has the same value with the exponent of either
side (`mergeCost_add`).

Positions are `int`. The last halves the recursion comes to are the two or three records up
to `right`, so it adds `right` almost to itself, and it has no run when `right` is past
`2 ^ 30` (`mergeSortRec_none`).
-/
import CourseLabs.SortAgree
import Mathlib.Data.Nat.Log

set_option autoImplicit false

namespace CourseLabs.Rainfall

open CourseLabs.CDouble CourseLabs.CInt CourseLabs.CLoop CourseLabs.CMem

/-! ## Stable sorting -/

section Stable

variable {l m : List RainfallRecord}

/-- `m` is `l` in ascending order, and records that compare equal are in the order of `l`. -/
structure StablySorted (l m : List RainfallRecord) : Prop where
  perm : m.Perm l
  ascending : Ascending m
  stable : ∀ d, m.filter (fun r => eq r.annual d) = l.filter (fun r => eq r.annual d)

/-- Records equal to one value ascend as they stand, so the sort leaves them in order. -/
theorem filter_mergeSort (hl : Comparable l) (d : Double) :
    (l.mergeSort annualLe).filter (fun r => eq r.annual d)
      = l.filter (fun r => eq r.annual d) := by
  have hequal : (l.filter (fun r => eq r.annual d)).Pairwise
      (fun a b => decide (a.annual.value ≤ b.annual.value) = true) := by
    apply List.pairwise_of_forall_mem_list
    intro a ha b hb
    have ha' := (List.mem_filter.mp ha).2
    have hb' := (List.mem_filter.mp hb).2
    unfold eq at ha' hb'
    rw [decide_eq_true_iff] at ha' hb' ⊢
    exact (ha'.2.2.trans hb'.2.2.symm).le
  have hsub := (List.sublist_mergeSort value_le_trans value_le_total hequal
    List.filter_sublist).filter (fun r => eq r.annual d)
  rw [← mergeSort_eq_value hl, List.filter_filter] at hsub
  simp only [Bool.and_self] at hsub
  exact (hsub.eq_of_length ((List.mergeSort_perm l annualLe).filter _).length_eq.symm).symm

theorem stablySorted_mergeSort (hl : Comparable l) : StablySorted l (l.mergeSort annualLe) :=
  ⟨List.mergeSort_perm l annualLe, ascending_mergeSort hl, filter_mergeSort hl⟩

/-- A selection of sorted records is the selection, sorted. -/
theorem StablySorted.filter (h : StablySorted l m) (p : RainfallRecord → Bool) :
    StablySorted (l.filter p) (m.filter p) := by
  refine ⟨h.perm.filter p, h.ascending.filter p, fun d => ?_⟩
  rw [List.filter_comm, h.stable, List.filter_comm]

end Stable

/-! ## Any range of any array -/

section Range

/-- `mergeSortRec(arr, left, right, temp)` ends, sorts its range and touches nothing else. -/
def MergeSortsRange (left right : ℕ) (s : MergeState) : Prop :=
  ∃ s', mergeSortRec left right s = some s' ∧ s'.arr.length = s.arr.length ∧
    (∀ k, k < left ∨ right < k → s'.arr[k]? = s.arr[k]?) ∧
    StablySorted (range s.arr left right) (range s'.arr left right)

variable {left right : ℕ} {s : MergeState}

/-- **The merge sort is correct and stable** on every range whose positions can be added,
whatever is in the scratch array. -/
theorem merge_sort_stable (hright : right < s.arr.length) (htemp : s.temp.length = s.arr.length)
    (hint : left < right → right ≤ 2 ^ 30) (hcomparable : Comparable (range s.arr left right)) :
    MergeSortsRange left right s := by
  rcases Nat.lt_or_ge left right with hlt | hge
  · obtain ⟨pre, seg, post, harr, hleft, hseg⟩ := @exists_range s.arr left right (by omega)
      (by omega) (by omega)
    obtain rfl : left = pre.length := by omega
    obtain ⟨s', hrun, harr', -, -, -⟩ := mergeSortRec_spec seg.length rfl harr htemp
      (show right + 1 = pre.length + seg.length by omega) (by omega)
    have hrange : range s.arr (pre.length : ℕ) right = seg := by
      rw [harr]
      exact range_append rfl hseg
    have hrange' : range s'.arr (pre.length : ℕ) right = seg.mergeSort annualLe := by
      rw [harr']
      exact range_append rfl (by rw [List.length_mergeSort]; exact hseg)
    rw [hrange] at hcomparable
    refine ⟨s', hrun, ?_, fun k hk => ?_, ?_⟩
    · rw [harr', harr]
      simp only [List.length_append, List.length_mergeSort]
    · rw [harr', harr]
      exact getElem?_outside (List.length_mergeSort _) (by omega)
    · rw [hrange, hrange']
      exact stablySorted_mergeSort hcomparable
  -- at most one record
  · have hshort : (range s.arr left right).length ≤ 1 := by
      unfold range
      rw [List.length_take]
      omega
    refine ⟨s, by rw [mergeSortRec, if_neg (by omega)], rfl, fun _ _ => rfl, ?_⟩
    exact ⟨List.Perm.refl _, Ascending.of_length_le_one hshort, fun _ => rfl⟩

/-- Past `2 ^ 30` some addition of two positions leaves `int`. -/
theorem mergeSortRec_none (hlt : left < right) (hright : 2 ^ 30 < right) :
    mergeSortRec left right s = none := by
  generalize hm : right - left = m
  induction m using Nat.strongRecOn generalizing left s with
  | ind m ih =>
      rw [mergeSortRec, if_pos hlt]
      by_cases hfit : left + right < 2 ^ 31
      · -- the right half is the one to follow
        have hnone : ∀ s, mergeSortRec ((left + right) / 2 + 1) right s = none :=
          fun s => ih (right - ((left + right) / 2 + 1)) (by omega) (by omega) rfl
        simp only [nat32_of_lt hfit, Option.bind_eq_bind, Option.bind_some, hnone,
          Option.bind_none]
        exact Option.bind_fun_none _
      · rw [nat32, if_neg hfit]
        rfl

/-- A record with nothing but zeros. -/
def dryYear : RainfallRecord where
  year := 0
  monthly := fun _ => Double.zero
  annual := Double.zero

theorem comparable_replicate (n : ℕ) : Comparable (List.replicate n dryYear) := by
  intro r hr
  rw [List.eq_of_mem_replicate hr]
  decide

/-- Two records of one value, of the years `1` and `0`. -/
theorem merge_sort_stable_ties :
    MergeSortsRange 0 1 ⟨[{ dryYear with year := 1 }, dryYear], [dryYear, dryYear], 0, 0⟩ :=
  merge_sort_stable (by decide) rfl (fun _ => by decide) (by decide)

/-- More records than an `int` has halves for: the sum of the two ends overflows before it is
halved. -/
theorem not_merge_sort_stable :
    ¬ ∀ (left right : ℕ) (s : MergeState), right < s.arr.length → s.temp.length = s.arr.length →
      Comparable (range s.arr left right) → MergeSortsRange left right s := by
  intro h
  have hlen : ∀ n, (List.replicate n dryYear).length = n := fun n => List.length_replicate
  have hrange : Comparable (range (List.replicate (2 ^ 30 + 2) dryYear)
      (0 : ℕ) (2 ^ 30 + 1 : ℕ)) := by
    intro r hr
    exact comparable_replicate _ r (List.mem_of_mem_drop (List.mem_of_mem_take hr))
  obtain ⟨s', hrun, -⟩ := h 0 (2 ^ 30 + 1)
    ⟨List.replicate (2 ^ 30 + 2) dryYear, List.replicate (2 ^ 30 + 2) dryYear, 0, 0⟩
    (by rw [hlen]; omega) rfl hrange
  rw [mergeSortRec_none (by omega) (by omega)] at hrun
  cases hrun

end Range

/-! ## The statistics -/

section Statistics

/-- The closed form of the recurrence. For a power of two either neighbouring exponent will
do, and so the halves may be measured by one exponent. -/
theorem mergeCost_add {n j : ℕ} (hn : 0 < n) (hlo : n ≤ 2 ^ j) (hhi : 2 ^ j ≤ 2 * n) :
    mergeCost n + 2 ^ j = n * j + n := by
  induction n using Nat.strongRecOn generalizing j with
  | ind n ih =>
      rcases Nat.lt_or_ge 1 n with hlt | hle
      · cases j with
        | zero => omega
        -- both halves lie between the powers for `j`, as `n` does between those for `j + 1`
        | succ j =>
            rw [pow_succ] at hlo hhi ⊢
            have hpow : 1 ≤ j → 2 ∣ 2 ^ j := fun h => dvd_pow_self 2 (by omega)
            have hfirst := ih ((n + 1) / 2) (by omega) (by omega) (by omega)
              (show 2 ^ j ≤ 2 * ((n + 1) / 2) by omega)
            have hsecond := ih (n / 2) (by omega) (by omega) (by omega)
              (show 2 ^ j ≤ 2 * (n / 2) by
                rcases Nat.eq_zero_or_pos j with rfl | hj
                · omega
                · have := hpow hj
                  omega)
            have hsum : (n + 1) / 2 + n / 2 = n := by omega
            have hmul : (n + 1) / 2 * j + n / 2 * j = n * j := by rw [← Nat.add_mul, hsum]
            rw [mergeCost, if_neg (by omega), Nat.mul_succ n j]
            omega
      · obtain rfl : n = 1 := by omega
        have hcost : mergeCost 1 = 0 := by rw [mergeCost, if_pos (le_refl 1)]
        obtain rfl | rfl : j = 0 ∨ j = 1 := by
          rcases Nat.lt_or_ge j 2 with hj | hj
          · omega
          · have := Nat.pow_le_pow_right (show 0 < 2 by decide) hj
            omega
        · rw [hcost]
          rfl
        · rw [hcost]
          rfl

theorem mergeCost_clog {n : ℕ} (hn : 0 < n) :
    mergeCost n + 2 ^ Nat.clog 2 n = n * Nat.clog 2 n + n := by
  apply mergeCost_add hn (Nat.le_pow_clog (by decide) n)
  rcases Nat.lt_or_ge 1 n with hlt | hle
  · have hpred := Nat.pow_pred_clog_lt_self (b := 2) (by decide) hlt
    have hpos := Nat.clog_pos (b := 2) (by decide) hlt
    obtain ⟨k, hk⟩ : ∃ k, Nat.clog 2 n = k + 1 := ⟨Nat.clog 2 n - 1, by omega⟩
    rw [hk, Nat.pred_succ] at hpred
    rw [hk, pow_succ]
    omega
  · obtain rfl : n = 1 := by omega
    decide

/-- `mergeSortRec` over the whole array: what it adds to its two counters. -/
def MergeCounts (arr : List RainfallRecord) : Prop :=
  ∀ temp comparisons swaps, temp.length = arr.length →
    ∃ s', mergeSortRec 0 (arr.length - 1) ⟨arr, temp, comparisons, swaps⟩ = some s' ∧
      (s'.mergeSwaps : ℤ) = swaps + 2 * ((arr.length : ℤ) * Nat.clog 2 arr.length
        - 2 ^ Nat.clog 2 arr.length + arr.length) ∧
      (s'.mergeComparisons : ℤ) ≤ comparisons + ((arr.length : ℤ) * Nat.clog 2 arr.length
        - 2 ^ Nat.clog 2 arr.length + 1)

/-- `quickSortRec` over the whole array: the same, for every stream of `rand()`. -/
def QuickCounts (arr : List RainfallRecord) : Prop :=
  ∀ rand comparisons swaps draws,
    ∃ s', quickSortRec rand 0 (arr.length - 1) ⟨arr, comparisons, swaps, draws⟩ = some s' ∧
      s'.quickComparisons ≤ comparisons + arr.length * (arr.length - 1) / 2 ∧
      (s'.quickSwaps : ℤ) - swaps
        ≤ (s'.quickComparisons - comparisons) + 2 * ((arr.length : ℤ) - 1)

variable {arr : List RainfallRecord}

theorem mergeCounts (hpos : 1 ≤ arr.length) (hint : arr.length ≤ 2 ^ 30 + 1) :
    MergeCounts arr := by
  intro temp comparisons swaps htemp
  obtain ⟨s', hrun, -, -, hswaps, hcomps⟩ := @mergeSortRec_spec arr.length [] arr []
    ⟨arr, temp, comparisons, swaps⟩ (arr.length - 1) rfl (by simp) htemp
    (by rw [List.length_nil]; omega) (by rw [List.length_nil]; omega)
  have hcost := mergeCost_clog hpos
  zify at hcost hswaps hcomps
  refine ⟨s', hrun, ?_, ?_⟩
  · rw [hswaps]
    linarith
  · rw [Nat.cast_sub hpos] at hcomps
    push_cast at hcomps
    linarith

theorem quickCounts (hpos : 1 ≤ arr.length) (hint : arr.length < 2 ^ 31) : QuickCounts arr := by
  intro rand comparisons swaps draws
  obtain ⟨s', seg, hrun, -, -, -, hcomps, hswaps⟩ := @quickSortRec_spec rand arr.length [] arr []
    ⟨arr, comparisons, swaps, draws⟩ (arr.length - 1) rfl (by simp) (by simp) (by omega)
  refine ⟨s', hrun, ?_, ?_⟩
  · have hsquare : arr.length * (arr.length - 1) + arr.length = arr.length * arr.length := by
      rw [← Nat.mul_succ, Nat.succ_eq_add_one, Nat.sub_add_cancel hpos]
    simp only at hcomps
    omega
  · simp only at hswaps
    omega

/-- **The statistics**, for every array whose positions the sorts can compute. -/
theorem sort_statistics (hpos : 1 ≤ arr.length) :
    (arr.length ≤ 2 ^ 30 + 1 → MergeCounts arr) ∧ (arr.length < 2 ^ 31 → QuickCounts arr) :=
  ⟨mergeCounts hpos, quickCounts hpos⟩

/-- Two records. -/
theorem sort_statistics_two : ∃ s',
    mergeSortRec 0 1 ⟨[dryYear, dryYear], [dryYear, dryYear], 0, 0⟩ = some s' ∧
      (s'.mergeSwaps : ℤ) = 4 := by
  obtain ⟨hmerge, -⟩ := @sort_statistics [dryYear, dryYear] (by decide)
  obtain ⟨s', hrun, hswaps, -⟩ := hmerge (by decide) [dryYear, dryYear] 0 0 rfl
  have hclog : Nat.clog 2 [dryYear, dryYear].length = 1 := by decide
  rw [hclog] at hswaps
  exact ⟨s', hrun, hswaps⟩

/-- An array that the merge sort has no run for. -/
theorem not_sort_statistics : ¬ ∀ arr : List RainfallRecord, 1 ≤ arr.length →
    MergeCounts arr ∧ QuickCounts arr := by
  intro h
  have hlen : (List.replicate (2 ^ 30 + 2) dryYear).length = 2 ^ 30 + 2 := List.length_replicate
  obtain ⟨hmerge, -⟩ := h (List.replicate (2 ^ 30 + 2) dryYear) (by rw [hlen]; omega)
  obtain ⟨s', hrun, -⟩ := hmerge (List.replicate (2 ^ 30 + 2) dryYear) 0 0 rfl
  rw [hlen, mergeSortRec_none (by omega) (by omega)] at hrun
  cases hrun

end Statistics

end CourseLabs.Rainfall
