/-
`CSMCS26A017_Lab2_1.c`: the rainfall records, and the extreme years of a month by a linear
scan and by divide and conquer.

Both find the same two values. The scan keeps the first record that attains one, and the
combination of two halves, which takes the right one unless the left one is strictly better,
the last; so the reported years agree exactly when those two records are of one year.
-/
import CourseLabs.CDouble
import CourseLabs.CInt
import CourseLabs.CLoop
import CourseLabs.Extremes
import Mathlib.Order.OrderDual

set_option autoImplicit false

namespace CourseLabs.Rainfall

open CourseLabs.CDouble CourseLabs.CInt CourseLabs.CLoop CourseLabs.Extremes

/-! ## The program -/

/-- The records a dataset can have at most: the size of the global arrays. -/
def MAX_RECORDS : ℕ := 200

/-- The months of a year, which the tables are indexed by. -/
abbrev MONTHS : ℕ := 12

/-- A line of the file: the year, its twelve monthly values and the annual one. -/
structure RainfallRecord where
  year : ℤ
  monthly : Fin MONTHS → Double
  annual : Double

/-- What the two searches return: the extreme values of a month, and a year each of them occurs
in. -/
structure MinMax where
  min : Double
  max : Double
  minYear : ℤ
  maxYear : ℤ

/-- What one record is to the search: both extremes, with its own year for each. -/
def RainfallRecord.minMax (r : RainfallRecord) (month : Fin MONTHS) : MinMax where
  min := r.monthly month
  max := r.monthly month
  minYear := r.year
  maxYear := r.year

/-- The body of the scan. The comparisons are strict, so of equal values the first one found is
kept. -/
def scan (res : MinMax) (r : RainfallRecord) (month : Fin MONTHS) : MinMax :=
  let res := if lt (r.monthly month) res.min then
      { res with min := r.monthly month, minYear := r.year }
    else
      res
  if lt res.max (r.monthly month) then
    { res with max := r.monthly month, maxYear := r.year }
  else
    res

/-- The four output parameters are one `MinMax`; with no records they stay as they are. -/
def findMinMaxLinear (records : List RainfallRecord) (recordCount : ℕ) (month : Fin MONTHS)
    (out : MinMax) : Option MinMax :=
  if recordCount = 0 then
    some out
  else do
    let r ← records[0]?
    forLoop 1 recordCount (r.minMax month) (fun i res => do
      let r ← records[i]?
      some (scan res r month))

/-- Two halves. The right one gives the value and the year unless the left one is smaller,
or larger. -/
def combine (leftRes rightRes : MinMax) : MinMax where
  min := if lt leftRes.min rightRes.min then leftRes.min else rightRes.min
  minYear := if lt leftRes.min rightRes.min then leftRes.minYear else rightRes.minYear
  max := if lt rightRes.max leftRes.max then leftRes.max else rightRes.max
  maxYear := if lt rightRes.max leftRes.max then leftRes.maxYear else rightRes.maxYear

/-- `findMinMaxDC`: the halves are searched first and their results compared. On one record it is
that record. -/
def findMinMaxDC (records : List RainfallRecord) (left right : ℕ) (month : Fin MONTHS) :
    Option MinMax :=
  letI findMinMaxDC : List RainfallRecord → ℕ → ℕ → Fin MONTHS → Option MinMax := by
    exact findMinMaxDC
  if left = right then do
    let r ← records[left]?
    some (r.minMax month)
  else do
    let mid := (← nat32 (left + right)) / 2
    let leftRes ← findMinMaxDC records left mid month
    let rightRes ← findMinMaxDC records (mid + 1) right month
    some (combine leftRes rightRes)
partial_fixpoint

/-! ## Which records are found -/

section Extremes

variable {month : Fin MONTHS} {l m : List RainfallRecord} {res res' : MinMax}

/-- The key of the minimum. -/
def low (month : Fin MONTHS) (r : RainfallRecord) : ℤ :=
  (r.monthly month).value

/-- The key of the maximum. -/
def high (month : Fin MONTHS) (r : RainfallRecord) : ℤᵒᵈ :=
  OrderDual.toDual (r.monthly month).value

/-- `res` is what the scan has found in `l`: the first record of each extreme. -/
structure Scanned (month : Fin MONTHS) (l : List RainfallRecord) (res : MinMax) : Prop where
  min : ∃ r, FirstLeast (low month) l r ∧ res.min = r.monthly month ∧ res.minYear = r.year
  max : ∃ r, FirstLeast (high month) l r ∧ res.max = r.monthly month ∧ res.maxYear = r.year

/-- `res` is what the halves of `l` have been combined to: the last record of each. -/
structure Combined (month : Fin MONTHS) (l : List RainfallRecord) (res : MinMax) : Prop where
  min : ∃ r, LastLeast (low month) l r ∧ res.min = r.monthly month ∧ res.minYear = r.year
  max : ∃ r, LastLeast (high month) l r ∧ res.max = r.monthly month ∧ res.maxYear = r.year

/-- One record is its own minimum and maximum. -/
theorem Scanned.singleton (r : RainfallRecord) : Scanned month [r] (r.minMax month) :=
  ⟨⟨r, FirstLeast.singleton r, rfl, rfl⟩, ⟨r, FirstLeast.singleton r, rfl, rfl⟩⟩

/-- The two tests of the scan do not see each other. -/
theorem scan_eq (res : MinMax) (r : RainfallRecord) (month : Fin MONTHS) :
    scan res r month = {
      min := if lt (r.monthly month) res.min then r.monthly month else res.min
      minYear := if lt (r.monthly month) res.min then r.year else res.minYear
      max := if lt res.max (r.monthly month) then r.monthly month else res.max
      maxYear := if lt res.max (r.monthly month) then r.year else res.maxYear } := by
  unfold scan
  by_cases hmin : lt (r.monthly month) res.min = true
  · by_cases hmax : lt res.max (r.monthly month) = true
    · simp only [hmin, hmax, if_true]
    · simp only [hmin, hmax, if_true, Bool.false_eq_true, if_false]
  · by_cases hmax : lt res.max (r.monthly month) = true
    · simp only [hmin, hmax, if_true, Bool.false_eq_true, if_false]
    · simp only [hmin, hmax, Bool.false_eq_true, if_false]

/-- The records have a rainfall in the month, no NaN. -/
def Measured (month : Fin MONTHS) (l : List RainfallRecord) : Prop :=
  ∀ r ∈ l, (r.monthly month).Comparable

instance (month : Fin MONTHS) (l : List RainfallRecord) : Decidable (Measured month l) :=
  inferInstanceAs (Decidable (∀ r ∈ l, (r.monthly month).Comparable))

/-- For values that can be compared, the test `<` of both searches is the order of the keys. -/
theorem lt_low {r s : RainfallRecord} (hr : (r.monthly month).Comparable)
    (hs : (s.monthly month).Comparable) :
    lt (r.monthly month) (s.monthly month) = true ↔ low month r < low month s :=
  lt_iff hr hs

/-- The test `>` is the order of the keys of the maximum, which is the reversed one. -/
theorem lt_high {r s : RainfallRecord} (hr : (r.monthly month).Comparable)
    (hs : (s.monthly month).Comparable) :
    lt (s.monthly month) (r.monthly month) = true ↔ high month r < high month s :=
  (lt_iff hs hr).trans OrderDual.toDual_lt_toDual.symm

/-- A choice between two records is a choice between their fields. -/
theorem field_ite {β : Type} (f : RainfallRecord → β) {c d : Prop} [Decidable c] [Decidable d]
    (h : c ↔ d) (r s : RainfallRecord) :
    (if c then f r else f s) = f (if d then r else s) := by
  by_cases hd : d
  · rw [if_pos (h.mpr hd), if_pos hd]
  · rw [if_neg (fun hc => hd (h.mp hc)), if_neg hd]

/-- **One pass of the scan**: a value that is only as low, or only as high, leaves the year as it
was. -/
theorem Scanned.snoc (h : Scanned month l res) (hl : Measured month l) {r : RainfallRecord}
    (hr : (r.monthly month).Comparable) : Scanned month (l ++ [r]) (scan res r month) := by
  obtain ⟨a, ha, hmin, hminYear⟩ := h.min
  obtain ⟨b, hb, hmax, hmaxYear⟩ := h.max
  have hlow := lt_low hr (hl a ha.mem)
  have hhigh := lt_high hr (hl b hb.mem)
  rw [scan_eq, hmin, hminYear, hmax, hmaxYear]
  exact ⟨⟨_, ha.snoc r, field_ite (fun r => r.monthly month) hlow r a, field_ite _ hlow r a⟩,
    ⟨_, hb.snoc r, field_ite (fun r => r.monthly month) hhigh r b, field_ite _ hhigh r b⟩⟩

/-- One record is its own minimum and maximum in this sense too. -/
theorem Combined.singleton (r : RainfallRecord) : Combined month [r] (r.minMax month) :=
  ⟨⟨r, LastLeast.singleton r, rfl, rfl⟩, ⟨r, LastLeast.singleton r, rfl, rfl⟩⟩

/-- **One combination of two halves**: which of the two years is kept, when the extremes are equal,
is decided by the comparison in it. -/
theorem Combined.append (hl : Combined month l res) (hm : Combined month m res')
    (hmeasured : Measured month (l ++ m)) : Combined month (l ++ m) (combine res res') := by
  obtain ⟨a, ha, hmin, hminYear⟩ := hl.min
  obtain ⟨b, hb, hmax, hmaxYear⟩ := hl.max
  obtain ⟨c, hc, hmin', hminYear'⟩ := hm.min
  obtain ⟨d, hd, hmax', hmaxYear'⟩ := hm.max
  have hlow := lt_low (hmeasured a (List.mem_append_left m ha.mem))
    (hmeasured c (List.mem_append_right l hc.mem))
  have hhigh := lt_high (hmeasured b (List.mem_append_left m hb.mem))
    (hmeasured d (List.mem_append_right l hd.mem))
  unfold combine
  rw [hmin, hminYear, hmax, hmaxYear, hmin', hminYear', hmax', hmaxYear']
  exact ⟨⟨_, ha.append hc, field_ite (fun r => r.monthly month) hlow a c, field_ite _ hlow a c⟩,
    ⟨_, hb.append hd, field_ite (fun r => r.monthly month) hhigh b d, field_ite _ hhigh b d⟩⟩

/-! ## The two functions -/

/-- The linear search ends with the first record of each extreme, by induction on the records that
are scanned. -/
theorem findMinMaxLinear_spec {records : List RainfallRecord} {recordCount : ℕ}
    (hpos : 0 < recordCount) (hle : recordCount ≤ records.length)
    (hmeasured : Measured month (records.take recordCount)) (out : MinMax) :
    ∃ res, findMinMaxLinear records recordCount month out = some res ∧
      Scanned month (records.take recordCount) res := by
  have h0 : records[0]? = some records[0] := List.getElem?_eq_getElem (by omega)
  have hfirst : records.take 1 = [records[0]] := by
    rw [List.take_succ_eq_append_getElem (by omega), List.take_zero, List.nil_append]
  obtain ⟨res, hrun, hres⟩ := @forLoop_spec MinMax 1 recordCount
    (fun i res => do
      let r ← records[i]?
      some (scan res r month))
    (fun i res => Scanned month (records.take i) res) (records[0].minMax month) hpos
    (by rw [hfirst]; exact Scanned.singleton _)
    (by
      intro i res _ hi hres
      have hlt : i < records.length := by omega
      have hseen : Measured month (records.take i) :=
        fun r hr => hmeasured r (List.take_subset_take_left records (by omega) hr)
      have hread : (records[i].monthly month).Comparable :=
        hmeasured _ (List.mem_take_iff_getElem.mpr ⟨i, by omega, rfl⟩)
      rw [List.getElem?_eq_getElem hlt, List.take_succ_eq_append_getElem hlt]
      exact ⟨_, rfl, hres.snoc hseen hread⟩)
  refine ⟨res, ?_, hres⟩
  unfold findMinMaxLinear
  rw [if_neg (by omega), h0]
  exact hrun

/-- A range is cut at its middle, the longer half first. -/
theorem exists_halves {α : Type} {l : List α} {n : ℕ} (hlen : l.length = n) :
    ∃ l₁ l₂, l = l₁ ++ l₂ ∧ l₁.length = (n + 1) / 2 ∧ l₂.length = n / 2 := by
  refine ⟨l.take ((n + 1) / 2), l.drop ((n + 1) / 2), (List.take_append_drop _ l).symm, ?_, ?_⟩
  · rw [List.length_take]
    omega
  · rw [List.length_drop]
    omega

/-- On any range of the array, by its length, which both halves of the recursion have less of. -/
theorem findMinMaxDC_spec (n : ℕ) :
    ∀ {pre post l : List RainfallRecord}, l.length = n → 0 < n → pre.length + n ≤ 2 ^ 30 →
      Measured month l →
      ∃ res, findMinMaxDC (pre ++ l ++ post) pre.length (pre.length + n - 1) month = some res ∧
        Combined month l res := by
  induction n using Nat.strongRecOn with
  | ind n ih =>
      intro pre post l hlen hpos hint hmeasured
      rcases Nat.lt_or_ge 1 n with hlt | hone
      · obtain ⟨l₁, l₂, rfl, hl1, hl2⟩ := exists_halves hlen
        obtain ⟨r₁, hrun₁, hr₁⟩ := @ih ((n + 1) / 2) (by omega) pre (l₂ ++ post) l₁ hl1 (by omega)
          (by omega) (fun r hr => hmeasured r (List.mem_append_left l₂ hr))
        obtain ⟨r₂, hrun₂, hr₂⟩ := @ih (n / 2) (by omega) (pre ++ l₁) post l₂ hl2 (by omega)
          (by rw [List.length_append]; omega)
          (fun r hr => hmeasured r (List.mem_append_right l₁ hr))
        rw [List.length_append, hl1] at hrun₂
        have hmid : (pre.length + (pre.length + n - 1)) / 2 = pre.length + (n + 1) / 2 - 1 := by
          omega
        have harr : pre ++ (l₁ ++ l₂) ++ post = pre ++ l₁ ++ (l₂ ++ post) := by simp
        have harr' : pre ++ (l₁ ++ l₂) ++ post = pre ++ l₁ ++ l₂ ++ post := by simp
        refine ⟨combine r₁ r₂, ?_, hr₁.append hr₂ hmeasured⟩
        rw [findMinMaxDC, if_neg (by omega), nat32_of_lt (by omega), Option.bind_eq_bind,
          Option.bind_some]
        simp only [hmid]
        rw [harr, hrun₁, Option.bind_eq_bind, Option.bind_some, ← harr, harr',
          show pre.length + (n + 1) / 2 - 1 + 1 = pre.length + (n + 1) / 2 by omega,
          show pre.length + n - 1 = pre.length + (n + 1) / 2 + n / 2 - 1 by omega, hrun₂]
        rfl
      · obtain rfl : n = 1 := by omega
        obtain ⟨r, rfl⟩ := List.length_eq_one_iff.mp hlen
        refine ⟨r.minMax month, ?_, Combined.singleton r⟩
        have hread : (pre ++ [r] ++ post)[pre.length]? = some r := by simp
        rw [findMinMaxDC, if_pos (by omega), hread]
        rfl

end Extremes

/-! ## Agreement -/

section Agreement

/-- The same numbers, as C compares them, and the same years. -/
structure Agree (linear dc : MinMax) : Prop where
  min : eq linear.min dc.min = true
  max : eq linear.max dc.max = true
  minYear : linear.minYear = dc.minYear
  maxYear : linear.maxYear = dc.maxYear

/-- `doPartA`: what the two functions report on the loaded records. -/
def PartAAgrees (records : List RainfallRecord) (recordCount : ℕ) (month : Fin MONTHS) : Prop :=
  ∀ out, ∃ linear dc, findMinMaxLinear records recordCount month out = some linear
    ∧ findMinMaxDC records 0 (recordCount - 1) month = some dc
    ∧ Agree linear dc

/-- The first and the last of the records are of one year. -/
def SameYear (l : List RainfallRecord) : Prop :=
  l.head?.map RainfallRecord.year = l.getLast?.map RainfallRecord.year

/-- The two results are equal exactly where all least records have one year, and all greatest ones
too: the scan takes the first of them, the halves the last. -/
theorem agree_iff_sameYear {month : Fin MONTHS} {l : List RainfallRecord} {linear dc : MinMax}
    (hl : Measured month l) (hlinear : Scanned month l linear) (hdc : Combined month l dc) :
    Agree linear dc ↔ SameYear (leasts (low month) l) ∧ SameYear (leasts (high month) l) := by
  obtain ⟨a, ha, hmin, hminYear⟩ := hlinear.min
  obtain ⟨b, hb, hmax, hmaxYear⟩ := hlinear.max
  obtain ⟨c, hc, hmin', hminYear'⟩ := hdc.min
  obtain ⟨d, hd, hmax', hmaxYear'⟩ := hdc.max
  unfold SameYear
  rw [ha.head?_leasts, hc.getLast?_leasts, hb.head?_leasts, hd.getLast?_leasts]
  simp only [Option.map_some, Option.some.injEq]
  constructor
  · intro h
    exact ⟨by rw [← hminYear, ← hminYear', h.minYear], by rw [← hmaxYear, ← hmaxYear', h.maxYear]⟩
  · rintro ⟨hlow, hhigh⟩
    refine ⟨?_, ?_, by rw [hminYear, hminYear', hlow], by rw [hmaxYear, hmaxYear', hhigh]⟩
    · rw [hmin, hmin']
      exact (eq_iff (hl a ha.mem) (hl c hc.mem)).mpr (ha.key_eq hc)
    · rw [hmax, hmax']
      exact (eq_iff (hl b hb.mem) (hl d hd.mem)).mpr (OrderDual.toDual_inj.mp (hb.key_eq hd))

/-- **Divide and conquer agrees with the linear scan exactly when** the first and the last
record that attain the minimum are of one year, and those that attain the maximum. -/
theorem part_a_agrees_iff {records : List RainfallRecord} {recordCount : ℕ}
    (hpos : 0 < recordCount) (hle : recordCount ≤ records.length) (hint : recordCount ≤ 2 ^ 30)
    {month : Fin MONTHS} (hmeasured : Measured month (records.take recordCount)) :
    PartAAgrees records recordCount month ↔
      SameYear (leasts (low month) (records.take recordCount)) ∧
        SameYear (leasts (high month) (records.take recordCount)) := by
  have hlen : (records.take recordCount).length = recordCount := by
    rw [List.length_take]
    omega
  obtain ⟨dc, hrun', hdc⟩ := @findMinMaxDC_spec month recordCount []
    (records.drop recordCount) (records.take recordCount) hlen hpos
    (by rw [List.length_nil]; omega) hmeasured
  rw [List.nil_append, List.take_append_drop, List.length_nil, Nat.zero_add] at hrun'
  constructor
  · intro h
    obtain ⟨linear, dc', hlinear, hdc', hagree⟩ := h (records[0].minMax month)
    obtain ⟨linear', hrun, hscanned⟩ :=
      @findMinMaxLinear_spec month records recordCount hpos hle hmeasured
        (records[0].minMax month)
    obtain rfl := Option.some.inj (hrun.symm.trans hlinear)
    obtain rfl := Option.some.inj (hrun'.symm.trans hdc')
    exact (agree_iff_sameYear hmeasured hscanned hdc).mp hagree
  · intro h out
    obtain ⟨linear, hrun, hscanned⟩ := findMinMaxLinear_spec hpos hle hmeasured out
    exact ⟨linear, dc, hrun, hrun', (agree_iff_sameYear hmeasured hscanned hdc).mpr h⟩

/-- Two years without rain in any month, as the Decembers of 1908 and 1942 are. -/
def dryYears : List RainfallRecord :=
  [⟨1908, fun _ => Double.zero, Double.zero⟩, ⟨1942, fun _ => Double.zero, Double.zero⟩]

/-- Two years without rain in the last month: the condition, and what it says there. -/
theorem part_a_agrees_iff_dryYears :
    PartAAgrees dryYears 2 11 ↔
      SameYear (leasts (low 11) (dryYears.take 2)) ∧
        SameYear (leasts (high 11) (dryYears.take 2)) :=
  part_a_agrees_iff (by decide) (by decide) (by decide) (by decide)

/-- The scan reports 1908 and divide and conquer 1942. -/
theorem not_part_a_agrees : ¬ PartAAgrees dryYears 2 11 := by
  intro h
  obtain ⟨linear, dc, hlinear, hdc, hagree⟩ := h (dryYears[0].minMax 11)
  have hscan : findMinMaxLinear dryYears 2 11 (dryYears[0].minMax 11)
      = some (dryYears[0].minMax 11) := rfl
  have hhalf : ∀ i : Fin 2, findMinMaxDC dryYears i i 11 = some (dryYears[i].minMax 11) := by
    intro i
    rw [findMinMaxDC, if_pos rfl]
    exact Option.bind_eq_some_iff.mpr ⟨dryYears[i], List.getElem?_eq_getElem i.isLt, rfl⟩
  have hhalves : findMinMaxDC dryYears 0 1 11 = some (dryYears[1].minMax 11) := by
    rw [findMinMaxDC, if_neg (by decide), nat32_of_lt (by decide), Option.bind_eq_bind,
      Option.bind_some]
    exact Option.bind_eq_some_iff.mpr ⟨_, hhalf 0, Option.bind_eq_some_iff.mpr ⟨_, hhalf 1, rfl⟩⟩
  obtain rfl := Option.some.inj (hscan.symm.trans hlinear)
  obtain rfl := Option.some.inj (hhalves.symm.trans hdc)
  exact absurd hagree.minYear (by decide)

end Agreement

end CourseLabs.Rainfall
