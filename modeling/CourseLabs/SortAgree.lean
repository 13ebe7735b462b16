/-
`CSMCS26A017_Lab2_1.c`: `writeSortedToFile` and `doPartB`.

Both sorts leave an ascending permutation of the loaded records, so their annual values are
the same one by one, as numbers. A column of doubles with the same values is the same text,
but for one thing: `0.0` and `-0.0` are the same number, and nothing in either sort puts the
one before the other.
-/
import CourseLabs.QuickSort
import Mathlib.Data.List.Forall2

set_option autoImplicit false

namespace CourseLabs.Rainfall

open CourseLabs.CDouble CourseLabs.CInt CourseLabs.CLoop CourseLabs.CMem

/-! ## The program -/

/-- A line of a CSV file, by its fields. -/
abbrev Row := List (List Char)

def HEADER : Row :=
  ["YEAR", "JAN", "FEB", "MAR", "APR", "MAY", "JUN", "JUL", "AUG", "SEP", "OCT", "NOV", "DEC",
    "ANNUAL"].map String.toList

def row (r : RainfallRecord) : Row :=
  printInt r.year :: (List.ofFn (fun m => printTenths (r.monthly m)) ++ [printTenths r.annual])

/-- The file, or none when it does not open. -/
def writeSortedToFile (opens : Bool) (arr : List RainfallRecord) (n : ℕ) :
    Option (Option (List Row)) :=
  if opens then do
    let fp ← forLoop 0 n [HEADER] (fun i fp => do
      let r ← arr[i]?
      some (fp ++ [row r]))
    some (some fp)
  else
    some none

/-- What the system answers in one run of `doPartB`: the values of `rand()`, what the scratch
array holds at first, unless a `malloc` fails, and which of the two files open. -/
structure Environment (recordCount : ℕ) where
  rand : ℕ → Fin (2 ^ 31)
  scratch : Option (Fin recordCount → RainfallRecord)
  mergeOpens : Bool
  quickOpens : Bool

/-- The two files and the statistics: what `doPartB` leaves when both sorts have run. A file that
cannot be opened is missing. -/
structure PartB where
  mergeFile : Option (List Row)
  quickFile : Option (List Row)
  mergeComparisons : ℕ
  mergeSwaps : ℕ
  quickComparisons : ℕ
  quickSwaps : ℕ

/-- With no data, or no memory, there is nothing to report. -/
def doPartB (records : List RainfallRecord) (recordCount : ℕ) (env : Environment recordCount) :
    Option (Option PartB) :=
  if recordCount = 0 then
    some none
  else
    match env.scratch with
    | none => some none
    | some temp => do
      let mergeArr ← memcpy records recordCount
      let quickArr ← memcpy records recordCount
      let merged ← mergeSortRec 0 (recordCount - 1) ⟨mergeArr, List.ofFn temp, 0, 0⟩
      let mergeFile ← writeSortedToFile env.mergeOpens merged.arr recordCount
      let sorted ← quickSortRec env.rand 0 (recordCount - 1) ⟨quickArr, 0, 0, 0⟩
      let quickFile ← writeSortedToFile env.quickOpens sorted.arr recordCount
      some (some {
        mergeFile
        quickFile
        mergeComparisons := merged.mergeComparisons
        mergeSwaps := merged.mergeSwaps
        quickComparisons := sorted.quickComparisons
        quickSwaps := sorted.quickSwaps })

/-! ## The files -/

section Files

/-- The ANNUAL column: the last field of every line but the header. -/
def annualColumn (file : List Row) : List (Option (List Char)) :=
  file.tail.map List.getLast?

theorem writeSortedToFile_spec (opens : Bool) (arr : List RainfallRecord) :
    writeSortedToFile opens arr arr.length
      = some (if opens then some (HEADER :: arr.map row) else none) := by
  -- the invariant: the header and the rows of the first i records are written
  obtain ⟨fp, hrun, hfp⟩ := @forLoop_spec (List Row) 0 arr.length
    (fun i fp => do
      let r ← arr[i]?
      some (fp ++ [row r]))
    (fun i fp => fp = HEADER :: (arr.take i).map row) [HEADER] (Nat.zero_le _) rfl
    (by
      intro i fp _ hi hfp
      rw [List.getElem?_eq_getElem hi]
      refine ⟨_, rfl, ?_⟩
      rw [hfp, List.take_succ_eq_append_getElem hi, List.map_append]
      rfl)
  rw [List.take_length] at hfp
  unfold writeSortedToFile
  by_cases hopens : opens = true
  · rw [if_pos hopens, if_pos hopens, hrun, hfp]
    rfl
  · rw [if_neg hopens, if_neg hopens]

theorem annualColumn_file (arr : List RainfallRecord) :
    annualColumn (HEADER :: arr.map row) = arr.map (fun r => some (printTenths r.annual)) := by
  unfold annualColumn
  rw [List.tail_cons, List.map_map]
  apply List.map_congr_left
  intro r _
  rw [Function.comp_apply, row, ← List.cons_append, List.getLast?_concat]

end Files

/-! ## Two sorted arrays of the same records -/

section Sorted

variable {l merged sorted : List RainfallRecord}

/-- The values of two ascending permutations are the same one by one. -/
theorem map_value_eq (hl : Comparable l) (hmerged : merged.Perm l) (hsorted : sorted.Perm l)
    (ham : Ascending merged) (has : Ascending sorted) :
    merged.map (fun r => r.annual.value) = sorted.map (fun r => r.annual.value) := by
  have hvalues : ∀ {m : List RainfallRecord}, m.Perm l → Ascending m →
      (m.map (fun r => r.annual.value)).Pairwise (· ≤ ·) := by
    intro m hm ham
    rw [List.pairwise_map]
    apply List.Pairwise.imp_of_mem _ ham
    intro a b ha hb hab
    exact (le_iff (hl a (hm.mem_iff.mp ha)) (hl b (hm.mem_iff.mp hb))).mp hab
  apply List.Perm.eq_of_pairwise _ (hvalues hmerged ham) (hvalues hsorted has)
    ((hmerged.trans hsorted.symm).map (fun r => r.annual.value))
  exact fun _ _ _ _ hab hba => Int.le_antisymm hab hba

/-- So is all that is determined by the value. -/
theorem map_eq_of_value {β : Type} (f : RainfallRecord → β) (hmerged : merged.Perm l)
    (hsorted : sorted.Perm l)
    (hvalue : merged.map (fun r => r.annual.value) = sorted.map (fun r => r.annual.value))
    (hf : ∀ a ∈ l, ∀ b ∈ l, a.annual.value = b.annual.value → f a = f b) :
    merged.map f = sorted.map f := by
  apply List.ext_getElem
  · rw [List.length_map, List.length_map, hmerged.length_eq, hsorted.length_eq]
  · intro i hi hi'
    rw [List.length_map] at hi hi'
    have hi'' := List.getElem_of_eq hvalue (i := i) (by rwa [List.length_map])
    rw [List.getElem_map, List.getElem_map] at hi'' ⊢
    exact hf _ (hmerged.mem_iff.mp (List.getElem_mem hi)) _
      (hsorted.mem_iff.mp (List.getElem_mem hi')) hi''

/-- The text of a zero of either sign. -/
def ZeroText (t : Option (List Char)) : Prop :=
  t = some ['0', '.', '0'] ∨ t = some ['-', '0', '.', '0']

theorem zeroText_of_value {d : Double} (h : d.value = 0) : ZeroText (some (printTenths d)) := by
  rcases zero_or_negZero h with rfl | rfl
  · exact Or.inl (congrArg some printTenths_zero)
  · exact Or.inr (congrArg some printTenths_negZero)

/-- What two files of the same records, sorted in two ways, have in common. -/
structure FilesAgree (l : List RainfallRecord) (merge quick : List Row) : Prop where
  /-- the same line by line, where it is not two zeros -/
  lines : List.Forall₂ (fun s t => s = t ∨ ZeroText s ∧ ZeroText t)
    (annualColumn merge) (annualColumn quick)
  /-- the same text, where there are no two zeros of opposite sign -/
  column : ¬ (Double.zero ∈ l.map RainfallRecord.annual ∧
      Double.negZero ∈ l.map RainfallRecord.annual) →
    annualColumn merge = annualColumn quick
  /-- the same file, where no two annual values are equal -/
  whole : l.Pairwise (fun a b => eq a.annual b.annual = false) → merge = quick

/-- **Two ascending permutations of the same records make files that agree.** -/
theorem filesAgree_of_sorted (hl : Comparable l) (hmerged : merged.Perm l)
    (hsorted : sorted.Perm l) (ham : Ascending merged) (has : Ascending sorted) :
    FilesAgree l (HEADER :: merged.map row) (HEADER :: sorted.map row) := by
  have hvalue := map_value_eq hl hmerged hsorted ham has
  refine ⟨?_, ?_, ?_⟩
  -- the columns agree up to the sign of a zero
  · rw [← List.forall₂_eq_eq_eq, List.forall₂_map_left_iff, List.forall₂_map_right_iff] at hvalue
    rw [annualColumn_file, annualColumn_file, List.forall₂_map_left_iff,
      List.forall₂_map_right_iff]
    apply hvalue.imp
    intro a b hab
    by_cases h0 : a.annual.value = 0
    · exact Or.inr ⟨zeroText_of_value h0, zeroText_of_value (hab.symm.trans h0)⟩
    · exact Or.inl (by rw [eq_of_value_eq hab h0])
  -- without both zeros in the data they are equal
  · intro hzeros
    rw [annualColumn_file, annualColumn_file]
    apply map_eq_of_value _ hmerged hsorted hvalue
    intro a ha b hb hab
    have ha' : a.annual ∈ l.map RainfallRecord.annual := List.mem_map_of_mem ha
    have hb' : b.annual ∈ l.map RainfallRecord.annual := List.mem_map_of_mem hb
    rw [eq_of_value_eq_of_zeros hab (fun h => hzeros ⟨h.1 ▸ ha', h.2 ▸ hb'⟩)
      (fun h => hzeros ⟨h.2 ▸ hb', h.1 ▸ ha'⟩)]
  -- and with different values the files are
  · intro hdistinct
    have hnodup : (l.map (fun r => r.annual.value)).Nodup := by
      rw [List.Nodup, List.pairwise_map]
      apply List.Pairwise.imp_of_mem _ hdistinct
      intro a b ha hb hab hvalues
      rw [(eq_iff (hl a ha) (hl b hb)).mpr hvalues] at hab
      exact absurd hab (by decide)
    apply congrArg (HEADER :: ·)
    apply map_eq_of_value _ hmerged hsorted hvalue
    intro a ha b hb hab
    rw [List.inj_on_of_nodup_map hnodup ha hb hab]

end Sorted

/-! ## The quick sort against the merge sort -/

section Agreement

/-- `arr[low..high]`, with both ends in it, as the recursion of the source has its ranges. -/
def range (arr : List RainfallRecord) (low high : ℤ) : List RainfallRecord :=
  (arr.drop low.toNat).take (high + 1 - low).toNat

/-- `quickSortRec(arr, low, high)` ends, sorts its range and touches nothing else. -/
def SortsRange (rand : ℕ → Fin (2 ^ 31)) (low high : ℤ) (s : QuickState) : Prop :=
  ∃ s', quickSortRec rand low high s = some s' ∧ s'.arr.length = s.arr.length ∧
    (∀ k : ℕ, (k : ℤ) < low ∨ high < k → s'.arr[k]? = s.arr[k]?) ∧
    (range s'.arr low high).Perm (range s.arr low high) ∧ Ascending (range s'.arr low high)

/-- What is outside the part that changes, is the same at the same places, as long as the part
keeps its length. -/
theorem getElem?_outside {pre seg seg' post : List RainfallRecord} {k : ℕ}
    (hlen : seg'.length = seg.length) (hk : k < pre.length ∨ pre.length + seg.length ≤ k) :
    (pre ++ seg' ++ post)[k]? = (pre ++ seg ++ post)[k]? := by
  rw [List.append_assoc, List.append_assoc]
  rcases hk with hk | hk
  · rw [List.getElem?_append_left hk, List.getElem?_append_left hk]
  · rw [List.getElem?_append_right (by omega), List.getElem?_append_right (by omega),
      List.getElem?_append_right (by omega), List.getElem?_append_right (by omega), hlen]

theorem range_append {pre seg post : List RainfallRecord} {low high : ℤ}
    (hlow : low = pre.length) (hhigh : high = pre.length + seg.length - 1) :
    range (pre ++ seg ++ post) low high = seg := by
  unfold range
  rw [hlow, Int.toNat_natCast, List.append_assoc, List.drop_left,
    show (high + 1 - pre.length).toNat = seg.length by omega, List.take_left]

/-- A range inside the array, with what is before and behind it. -/
theorem exists_range {arr : List RainfallRecord} {low high : ℤ} (hlow : 0 ≤ low)
    (hle : low ≤ high) (hhigh : high < arr.length) :
    ∃ pre seg post, arr = pre ++ seg ++ post ∧ low = pre.length ∧
      high = pre.length + seg.length - 1 := by
  refine ⟨arr.take low.toNat, range arr low high, arr.drop (high + 1).toNat, ?_, ?_, ?_⟩
  · unfold range
    rw [List.append_assoc, show (high + 1).toNat = low.toNat + (high + 1 - low).toNat by omega,
      ← List.drop_drop, List.take_append_drop, List.take_append_drop]
  · rw [List.length_take]
    omega
  · unfold range
    rw [List.length_take, List.length_take, List.length_drop]
    omega

theorem sortsRange (rand : ℕ → Fin (2 ^ 31)) {low high : ℤ} {s : QuickState} (hlow : 0 ≤ low)
    (hhigh : high < s.arr.length) (hint : high + 1 < 2 ^ 31)
    (hcomparable : Comparable (range s.arr low high)) : SortsRange rand low high s := by
  -- an empty range is left alone
  rcases Int.lt_or_le high low with hempty | hle
  · have hnil : range s.arr low high = [] := by
      unfold range
      rw [Int.toNat_of_nonpos (by omega), List.take_zero]
    refine ⟨s, ?_, rfl, fun _ _ => rfl, List.Perm.refl _, ?_⟩
    · rw [quickSortRec, if_neg (by omega)]
    · rw [hnil]
      exact List.Pairwise.nil
  -- otherwise the array is taken apart at the range
  · obtain ⟨pre, seg, post, harr, rfl, rfl⟩ := exists_range hlow hle hhigh
    obtain ⟨s', seg', hrun, harr', hperm, hsorted, -, -⟩ :=
      quickSortRec_spec rand seg.length rfl harr rfl hint
    have hrange : range s.arr pre.length (pre.length + seg.length - 1) = seg := by
      rw [harr]
      exact range_append rfl rfl
    have hrange' : range s'.arr pre.length (pre.length + seg.length - 1) = seg' := by
      rw [harr']
      exact range_append rfl (by rw [hperm.length_eq])
    rw [hrange] at hcomparable
    -- its length and the cells around it are unchanged
    refine ⟨s', hrun, ?_, ?_, by rwa [hrange, hrange'], by rw [hrange']; exact hsorted hcomparable⟩
    · rw [harr', harr]
      simp only [List.length_append, hperm.length_eq]
    · intro k hk
      rw [harr', harr]
      exact getElem?_outside hperm.length_eq (by omega)

/-- `doPartB` ends, and the two files it writes agree. -/
theorem doPartB_spec {records : List RainfallRecord} {recordCount : ℕ}
    (hle : recordCount ≤ records.length) (hint : recordCount ≤ 2 ^ 30)
    (hcomparable : Comparable (records.take recordCount)) (env : Environment recordCount) :
    ∃ out, doPartB records recordCount env = some out ∧
      ∀ b ∈ out, ∀ merge ∈ b.mergeFile, ∀ quick ∈ b.quickFile,
        FilesAgree (records.take recordCount) merge quick := by
  unfold doPartB
  rcases Nat.eq_zero_or_pos recordCount with rfl | hpos
  · exact ⟨none, rfl, by simp⟩
  rw [if_neg (by omega)]
  cases env.scratch with
  | none => exact ⟨none, rfl, by simp⟩
  | some temp =>
      have hlen : (records.take recordCount).length = recordCount := by
        rw [List.length_take]
        omega
      simp only [memcpy_of_le hle, Option.bind_eq_bind, Option.bind_some]
      generalize records.take recordCount = l at hlen hcomparable
      -- both sorts begin from the copy of the records
      obtain ⟨s₁, hrun₁, harr₁, -, -, -⟩ := @mergeSortRec_spec recordCount [] l []
        ⟨l, List.ofFn temp, 0, 0⟩ (recordCount - 1) hlen (by simp) (by simp [hlen])
        (by rw [List.length_nil]; omega) (by rw [List.length_nil]; omega)
      obtain ⟨s₂, seg, hrun₂, harr₂, hperm₂, hsorted₂, -, -⟩ :=
        @quickSortRec_spec env.rand recordCount [] l [] ⟨l, 0, 0, 0⟩ (recordCount - 1) hlen
          (by simp) (by simp) (by omega)
      rw [List.nil_append, List.append_nil] at harr₁ harr₂
      have hmerge := writeSortedToFile_spec env.mergeOpens s₁.arr
      have hquick := writeSortedToFile_spec env.quickOpens s₂.arr
      -- and both end at a permutation of it
      have hperm₁ : s₁.arr.Perm l := by
        rw [harr₁]
        exact List.mergeSort_perm l annualLe
      rw [← harr₂] at hperm₂ hsorted₂
      rw [hperm₁.length_eq, hlen] at hmerge
      rw [hperm₂.length_eq, hlen] at hquick
      have hfiles := filesAgree_of_sorted hcomparable hperm₁ hperm₂
        (harr₁ ▸ ascending_mergeSort hcomparable) (hsorted₂ hcomparable)
      rw [List.length_nil] at hrun₁ hrun₂
      rw [hrun₁, Option.bind_some, hmerge, Option.bind_some, show (0 : ℤ) = ((0 : ℕ) : ℤ) from rfl,
        hrun₂, Option.bind_some, hquick]
      refine ⟨_, rfl, ?_⟩
      intro b hb merge hm quick hq
      obtain rfl := Option.mem_some.mp hb
      rw [Option.mem_def, Option.ite_none_right_eq_some] at hm hq
      rw [← Option.some.inj hm.2, ← Option.some.inj hq.2]
      exact hfiles

/-- **The quick sort agrees with the merge sort**, whatever `rand()` says. The two files hold the
same annual values line by line, but for zeros of different sign, and they are the same files where
no two values are equal. -/
theorem quick_sort_agrees :
    (∀ (rand : ℕ → Fin (2 ^ 31)) (low high : ℤ) (s : QuickState), 0 ≤ low →
      high < s.arr.length → high + 1 < 2 ^ 31 → Comparable (range s.arr low high) →
      SortsRange rand low high s) ∧
    (∀ (records : List RainfallRecord) (recordCount : ℕ) (env : Environment recordCount),
      recordCount ≤ records.length → recordCount ≤ 2 ^ 30 →
      Comparable (records.take recordCount) →
      ∃ out, doPartB records recordCount env = some out ∧
        ∀ b ∈ out, ∀ merge ∈ b.mergeFile, ∀ quick ∈ b.quickFile,
          FilesAgree (records.take recordCount) merge quick) :=
  ⟨fun rand _ _ _ hlow hhigh hint hcomparable =>
      sortsRange rand hlow hhigh hint hcomparable,
    fun _ _ env hle hint hcomparable => doPartB_spec hle hint hcomparable env⟩

/-- Two years without rain, the second of them with a sign. -/
def signedZeros : List RainfallRecord :=
  [⟨1908, fun _ => Double.zero, Double.zero⟩, ⟨1942, fun _ => Double.zero, Double.negZero⟩]

/-- A run in which `rand()` is `0`. -/
def noRandom : Environment 2 where
  rand := fun _ => 0
  scratch := some (fun _ => ⟨0, fun _ => Double.zero, Double.zero⟩)
  mergeOpens := true
  quickOpens := true

theorem quick_sort_agrees_signedZeros :
    SortsRange noRandom.rand 0 1 ⟨signedZeros, 0, 0, 0⟩ ∧
      ∃ out, doPartB signedZeros 2 noRandom = some out ∧
        ∀ b ∈ out, ∀ merge ∈ b.mergeFile, ∀ quick ∈ b.quickFile,
          FilesAgree signedZeros merge quick :=
  ⟨quick_sort_agrees.1 noRandom.rand 0 1 ⟨signedZeros, 0, 0, 0⟩ (by decide) (by decide)
      (by decide) (by decide),
    quick_sort_agrees.2 signedZeros 2 noRandom (by decide) (by decide) (by decide)⟩

/-- The one partition of that run: the pivot is the positive zero, and the negative one is not
above it. -/
theorem partition_signedZeros :
    partition noRandom.rand 0 1 ⟨signedZeros, 0, 0, 0⟩
      = some (1, ⟨signedZeros.reverse, 1, 1, 1⟩) := by
  have hswap : swapRecords ⟨signedZeros, 0, 0, 1⟩ 0 1
      = some ⟨signedZeros.reverse, 0, 1, 1⟩ := rfl
  have hloop : forLoop 0 1 (0 - 1, ⟨signedZeros.reverse, 0, 1, 1⟩) (partition_body Double.zero)
      = some (0, ⟨signedZeros.reverse, 1, 1, 1⟩) := rfl
  have hhigh : int32 (1 - 0) = some 1 := by decide
  have hsize : int32 (1 + 1) = some 2 := by decide
  have hrem : rem32 ((noRandom.rand 0).val : ℤ) 2 = some 0 := by decide
  have hrandIdx : int32 (0 + 0) = some 0 := by decide
  unfold partition
  simp only [hhigh, hsize, hrem, hrandIdx, Option.bind_eq_bind, Option.bind_some]
  rw [show idx 0 = some 0 from rfl, show idx 1 = some 1 from rfl, Option.bind_some,
    Option.bind_some, hswap]
  simp only [Option.bind_some]
  rw [show signedZeros.reverse[1]? = some signedZeros[0] from rfl, Option.bind_some,
    show signedZeros[0].annual = Double.zero from rfl, hloop]
  rfl

/-- The merge sort keeps the order of the two zeros and the quick sort does not. -/
theorem not_quick_sort_agrees :
    ¬ ∀ b merge quick, doPartB signedZeros 2 noRandom = some (some b) →
      b.mergeFile = some merge → b.quickFile = some quick →
      annualColumn merge = annualColumn quick := by
  obtain ⟨s₁, hrun₁, harr₁, -, -, -⟩ := @mergeSortRec_spec 2 [] signedZeros []
    ⟨signedZeros, List.ofFn (fun _ : Fin 2 => ⟨0, fun _ => Double.zero, Double.zero⟩), 0, 0⟩ 1 rfl
    rfl rfl rfl (by decide)
  rw [List.mergeSort_of_pairwise (by decide), List.nil_append, List.append_nil] at harr₁
  -- the pivot is the second zero, which compares as equal to the first
  have hrun₂ : quickSortRec noRandom.rand 0 1 ⟨signedZeros, 0, 0, 0⟩
      = some ⟨signedZeros.reverse, 1, 1, 1⟩ := by
    have hleft : quickSortRec noRandom.rand 0 0 ⟨signedZeros.reverse, 1, 1, 1⟩
        = some ⟨signedZeros.reverse, 1, 1, 1⟩ := by
      rw [quickSortRec, if_neg (by decide)]
    have hright : quickSortRec noRandom.rand 2 1 ⟨signedZeros.reverse, 1, 1, 1⟩
        = some ⟨signedZeros.reverse, 1, 1, 1⟩ := by
      rw [quickSortRec, if_neg (by decide)]
    rw [quickSortRec, if_pos (by decide), partition_signedZeros]
    simp only [Option.bind_eq_bind, Option.bind_some]
    rw [show int32 (1 - 1) = some 0 by decide, show int32 (1 + 1) = some 2 by decide,
      Option.bind_some, hleft, Option.bind_some, Option.bind_some, hright]
  have hmerge : writeSortedToFile noRandom.mergeOpens s₁.arr 2
      = some (some (HEADER :: signedZeros.map row)) := by
    rw [harr₁]
    exact writeSortedToFile_spec true signedZeros
  have hquick : writeSortedToFile noRandom.quickOpens signedZeros.reverse 2
      = some (some (HEADER :: signedZeros.reverse.map row)) :=
    writeSortedToFile_spec true signedZeros.reverse
  have hrun : doPartB signedZeros 2 noRandom = some (some
      ⟨some (HEADER :: signedZeros.map row), some (HEADER :: signedZeros.reverse.map row),
        s₁.mergeComparisons, s₁.mergeSwaps, 1, 1⟩) := by
    have hscratch : noRandom.scratch = some (fun _ => ⟨0, fun _ => Double.zero, Double.zero⟩) := rfl
    have hcopy : memcpy signedZeros 2 = some signedZeros := rfl
    rw [List.length_nil] at hrun₁
    unfold doPartB
    rw [if_neg (by decide), hcopy]
    simp only [hscratch, Option.bind_eq_bind, Option.bind_some]
    rw [show 2 - 1 = 1 from rfl, hrun₁, Option.bind_some, hmerge, Option.bind_some,
      show ((2 : ℕ) : ℤ) - 1 = 1 from rfl, hrun₂, Option.bind_some, hquick]
    rfl
  -- the first lines then show different signs
  intro h
  have hcolumns := h _ _ _ hrun rfl rfl
  rw [annualColumn_file, annualColumn_file] at hcolumns
  have htext : printTenths Double.zero = printTenths Double.negZero :=
    Option.some.inj (Option.some.inj (congrArg List.head? hcolumns))
  rw [printTenths_zero, printTenths_negZero] at htext
  exact absurd htext (by decide)

end Agreement

end CourseLabs.Rainfall
