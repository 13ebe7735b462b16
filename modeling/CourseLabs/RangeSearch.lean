/-
`CSMCS26A017_Lab2_1.c`: `lower_bound`, `upper_bound` and `doPartC`.

The records are sorted once, at the first search, and the sorted copy is kept: what a search
answers rests on that copy being the sorted records in every state the menu can reach
(`Loaded`). The two binary searches differ in their comparison only. The one stops behind the
records below the lower bound, the other behind those not above the upper bound, and what
lies between is listed.
-/
import CourseLabs.BinarySearch
import CourseLabs.SortLaws
import CourseLabs.Transition

set_option autoImplicit false

namespace CourseLabs.Rainfall

open CourseLabs.BinarySearch CourseLabs.CDouble CourseLabs.CInt CourseLabs.CLoop
open CourseLabs.CMem CourseLabs.Transition

/-! ## The program -/

/-- The global variables that `doPartC` works with. The sorted copy is made by the first search,
and `sortedCount` tells the later ones that it is there. -/
structure Globals where
  records : List RainfallRecord
  recordCount : ℕ
  sortedRecords : List RainfallRecord
  sortedCount : ℕ
  mergeComparisons : ℕ
  mergeSwaps : ℕ

def lower_bound (arr : List RainfallRecord) (n : ℕ) (val : Double) : Option ℕ :=
  loop (bound_body (fun r => lt r.annual val) arr) (0, n)

def upper_bound (arr : List RainfallRecord) (n : ℕ) (val : Double) : Option ℕ :=
  loop (bound_body (fun r => le r.annual val) arr) (0, n)

/-- The sorted copy, unless it is there already or a `malloc` fails; `scratch` is what the
second array holds at first. -/
def sort_once (g : Globals) (scratch : Option (Fin g.recordCount → RainfallRecord)) :
    Option (Option Globals) :=
  if g.sortedCount = 0 then
    match scratch with
    | none => some none
    | some temp => do
      let tempArr ← memcpy g.records g.recordCount
      let s ← mergeSortRec 0 (g.recordCount - 1)
        ⟨tempArr, List.ofFn temp, g.mergeComparisons, g.mergeSwaps⟩
      let copied ← memcpy s.arr g.recordCount
      if g.recordCount ≤ g.sortedRecords.length then
        some (some { g with
          sortedRecords := copied ++ g.sortedRecords.drop g.recordCount
          sortedCount := g.recordCount
          mergeComparisons := s.mergeComparisons
          mergeSwaps := s.mergeSwaps })
      else
        none
  else
    some (some g)

/-- `%-6s`, with the width. -/
def padRight (width : ℕ) (text : List Char) : List Char :=
  text ++ List.replicate (width - text.length) ' '

/-- `%8s` -/
def padLeft (width : ℕ) (text : List Char) : List Char :=
  List.replicate (width - text.length) ' ' ++ text

/-- `printf("%-6d %8.1f\n", r.year, r.annual);`: the year at the left of its field, the value at
the right. -/
def listing_line (r : RainfallRecord) : List Char :=
  padRight 6 (printInt r.year) ++ ' ' :: padLeft 8 (printTenths r.annual)

def heading (low high : Double) : List (List Char) :=
  ["Records with annual rainfall between ".toList ++ printTenths low ++ " and ".toList
      ++ printTenths high ++ [':'],
    padRight 6 "YEAR".toList ++ ' ' :: padLeft 8 "ANNUAL".toList]

/-- What `doPartC` prints behind the two prompts: one of two messages, or the records that were
found. -/
inductive Answer where
  /-- `Memory error.` -/
  | memoryError
  /-- `No records found in the given range.` -/
  | noRecords
  | listing (heading lines : List (List Char))

/-- The search in the sorted copy: the two bounds by bisection, and the records between them. -/
def search_sorted (g : Globals) (low high : Double) : Option Answer := do
  let l ← lower_bound g.sortedRecords g.sortedCount low
  let r ← upper_bound g.sortedRecords g.sortedCount high
  if l ≥ r then
    some .noRecords
  else do
    let lines ← forLoop l r [] (fun i lines => do
      let x ← g.sortedRecords[i]?
      some (lines ++ [listing_line x]))
    some (.listing (heading low high) lines)

/-- `doPartC`: the copy is sorted if it is not yet, and then searched. `low` and `high` are the two
numbers read. -/
def doPartC (g : Globals) (scratch : Option (Fin g.recordCount → RainfallRecord))
    (low high : Double) : Option (Globals × Answer) := do
  match ← sort_once g scratch with
  | none => some (g, .memoryError)
  | some g => do
    let a ← search_sorted g low high
    some (g, a)

/-! ## The two searches -/

section Searches

variable {m : List RainfallRecord} {low high : Double}

/-- `low <= annual && annual <= high`: what a record has to meet to be listed; with a NaN it is
false. -/
def inRange (low high : Double) (r : RainfallRecord) : Bool :=
  le low r.annual && le r.annual high

theorem exists_lower (hm : Comparable m) (hsorted : Ascending m) (hlow : low.Comparable)
    (hint : m.length ≤ 2 ^ 30) :
    ∃ a b, m = a ++ b ∧ (∀ post, lower_bound (m ++ post) m.length low = some a.length)
      ∧ (∀ r ∈ a, lt r.annual low = true) ∧ ∀ r ∈ b, lt r.annual low = false := by
  refine @exists_bound _ (fun r => lt r.annual low) m ?_ hint
  apply List.Pairwise.imp_of_mem _ hsorted
  intro x y hx hy hxy hlt
  have hx' := hm x hx
  have hy' := hm y hy
  rw [annualLe, le_iff hx' hy'] at hxy
  rw [lt_iff hy' hlow] at hlt
  exact (lt_iff hx' hlow).mpr (by omega)

theorem exists_upper (hsorted : Ascending m) (high : Double) (hint : m.length ≤ 2 ^ 30) :
    ∃ c d, m = c ++ d ∧ (∀ post, upper_bound (m ++ post) m.length high = some c.length)
      ∧ (∀ r ∈ c, le r.annual high = true) ∧ ∀ r ∈ d, le r.annual high = false := by
  refine @exists_bound _ (fun r => le r.annual high) m ?_ hint
  apply List.Pairwise.imp_of_mem _ hsorted
  intro x y _ _ hxy hle
  exact CDouble.le_trans hxy hle

/-- The records that are not below and not above are those in the range. -/
theorem filter_inRange (hm : Comparable m) (hlow : low.Comparable) :
    m.filter (fun r => !lt r.annual low && le r.annual high) = m.filter (inRange low high) := by
  apply List.filter_congr
  intro r hr
  have hle : (!lt r.annual low) = le low r.annual := by
    rw [Bool.eq_iff_iff, Bool.not_eq_true', ← Bool.not_eq_true, lt_iff (hm r hr) hlow,
      le_iff hlow (hm r hr)]
    exact not_lt
  rw [inRange, hle]

/-- The loop that prints, on the records between the two bounds and no others. -/
theorem print_spec (a found post : List RainfallRecord) :
    forLoop a.length (a.length + found.length) [] (fun i lines => do
      let x ← (a ++ found ++ post)[i]?
      some (lines ++ [listing_line x])) = some (found.map listing_line) := by
  obtain ⟨lines, hrun, hlines⟩ := @forLoop_passes (List (List Char)) a.length found.length
    (fun i lines => do
      let x ← (a ++ found ++ post)[i]?
      some (lines ++ [listing_line x]))
    (fun k lines => lines = (found.take k).map listing_line) [] rfl (by
      rintro k lines hk rfl
      rw [getElem?_append_middle a post hk]
      refine ⟨_, rfl, ?_⟩
      rw [List.take_succ_eq_append_getElem hk, List.map_append]
      rfl)
  rw [hrun, hlines, List.take_length]

end Searches

/-! ## One search -/

section Search

variable {l : List RainfallRecord} {g : Globals} {low high : Double}

/-- The sorted copy of `l` is in place, at the front of its array, and the count says so. -/
def Cached (l : List RainfallRecord) (g : Globals) : Prop :=
  g.sortedCount = l.length ∧ ∃ post, g.sortedRecords = l.mergeSort annualLe ++ post

/-- The records `l` are loaded, and what has been sorted is these. -/
structure Loaded (l : List RainfallRecord) (g : Globals) : Prop where
  data : g.records.take g.recordCount = l
  count : l.length = g.recordCount
  pos : 0 < g.recordCount
  small : g.recordCount ≤ MAX_RECORDS
  room : g.sortedRecords.length = MAX_RECORDS
  sorted : g.sortedCount = 0 ∨ Cached l g

theorem sort_once_spec (h : Loaded l g) (scratch : Option (Fin g.recordCount → RainfallRecord)) :
    (g.sortedCount = 0 ∧ scratch = none ∧ sort_once g scratch = some none)
      ∨ ∃ g', sort_once g scratch = some (some g') ∧ Loaded l g' ∧ Cached l g' := by
  obtain ⟨hdata, hcount, hpos, hsmall, hroom, hsorted⟩ := h
  rw [MAX_RECORDS] at hsmall hroom
  -- nothing is sorted yet
  rcases hsorted with h0 | hcached
  · cases scratch with
    | none =>
        left
        exact ⟨h0, rfl, by rw [sort_once, if_pos h0]⟩
    | some temp =>
        right
        have hread : memcpy g.records g.recordCount = some l := by
          rw [← hdata]
          apply memcpy_of_le
          have hlen := congrArg List.length hdata
          rw [List.length_take] at hlen
          omega
        -- the sort is that of part B, with scratch memory of its own
        obtain ⟨s, hrun, harr, -⟩ := @mergeSortRec_spec g.recordCount [] l []
          ⟨l, List.ofFn temp, g.mergeComparisons, g.mergeSwaps⟩ (g.recordCount - 1) hcount
          (by simp) (by simp [hcount]) (by rw [List.length_nil]; omega)
          (by rw [List.length_nil]; omega)
        rw [List.nil_append, List.append_nil] at harr
        have hlen : s.arr.length = g.recordCount := by
          rw [harr, List.length_mergeSort, hcount]
        have hcopy : memcpy s.arr g.recordCount = some (l.mergeSort annualLe) := by
          rw [memcpy_of_le hlen.ge, ← hlen, List.take_length, harr]
        rw [List.length_nil] at hrun
        -- the copy is made with the counters of the sort
        have hcached : Cached l { g with
            sortedRecords := l.mergeSort annualLe ++ g.sortedRecords.drop g.recordCount
            sortedCount := g.recordCount
            mergeComparisons := s.mergeComparisons
            mergeSwaps := s.mergeSwaps } := ⟨hcount.symm, _, rfl⟩
        have hroom' : (l.mergeSort annualLe ++ g.sortedRecords.drop g.recordCount).length
            = MAX_RECORDS := by
          rw [List.length_append, List.length_mergeSort, List.length_drop, hroom, MAX_RECORDS]
          omega
        refine ⟨_, ?_, ?_, hcached⟩
        · rw [sort_once, if_pos h0]
          simp only [hread, hrun, hcopy, Option.bind_eq_bind, Option.bind_some]
          rw [if_pos (by omega)]
        · exact ⟨hdata, hcount, hpos, hsmall, hroom', Or.inr hcached⟩
  -- the records were sorted by an earlier search: the copy is used again
  · right
    have hne : g.sortedCount ≠ 0 := by
      rw [hcached.1, hcount]
      omega
    refine ⟨g, ?_, ⟨hdata, hcount, hpos, hsmall, hroom, Or.inr hcached⟩, hcached⟩
    unfold sort_once
    rw [if_neg hne]

/-- What is printed for the records found. -/
def answer (low high : Double) : List RainfallRecord → Answer
  | [] => .noRecords
  | found => .listing (heading low high) (found.map listing_line)

/-- With the sorted copy in place, what is printed is the part of it that is in the range.
Both searches stay within the sorted records: they end too where there is nothing behind
these. -/
theorem search_sorted_spec (hl : Comparable l) (hlow : low.Comparable)
    (hsmall : l.length ≤ 2 ^ 30) (h : Cached l g) (high : Double) :
    search_sorted g low high
        = some (answer low high ((l.mergeSort annualLe).filter (inRange low high)))
      ∧ (∃ i, lower_bound (g.sortedRecords.take g.sortedCount) g.sortedCount low = some i)
      ∧ ∃ j, upper_bound (g.sortedRecords.take g.sortedCount) g.sortedCount high = some j := by
  obtain ⟨hcount, post, hpost⟩ := h
  have hm : Comparable (l.mergeSort annualLe) := fun r hr => hl r (List.mem_mergeSort.mp hr)
  have hsorted := ascending_mergeSort hl
  have hlen : (l.mergeSort annualLe).length = l.length := List.length_mergeSort l
  rw [← hlen] at hcount hsmall
  clear hlen
  -- from here on the sorted copy is any ascending list
  generalize l.mergeSort annualLe = m at hcount hsmall hpost hm hsorted
  obtain ⟨a, b, hab, hlower, ha, hb⟩ := exists_lower hm hsorted hlow hsmall
  obtain ⟨c, d, hcd, hupper, hc, hd⟩ := exists_upper hsorted high hsmall
  rw [hpost, hcount, List.take_left]
  -- a search that finds its place does so without the records behind
  have hinside_l := hlower []
  have hinside_u := hupper []
  rw [List.append_nil] at hinside_l hinside_u
  refine ⟨?_, ⟨_, hinside_l⟩, _, hinside_u⟩
  have hsplit : a ++ b = c ++ d := hab.symm.trans hcd
  rw [search_sorted, hpost, hcount, hlower, hupper, ← filter_inRange hm hlow, hab]
  simp only [Option.bind_eq_bind, Option.bind_some]
  -- something lies between the two places
  rcases Nat.lt_or_ge a.length c.length with hlt | hge
  · obtain ⟨found, hne, rfl, rfl, hfound⟩ := filter_between_of_lt hsplit ha hb hc hd hlt
    have hprint := print_spec a found (d ++ post)
    simp only [Option.bind_eq_bind, List.append_assoc] at hprint
    rw [if_neg (by omega), hfound, List.append_assoc, List.append_assoc, List.length_append, hprint,
      Option.bind_some]
    cases found with
    | nil => exact absurd rfl hne
    | cons r found => rfl
  -- the places are the wrong way round: nothing lies in the range
  · rw [if_pos hge, filter_between_of_le hsplit ha hd hge]
    rfl

end Search

/-! ## Every search -/

section Menu

variable {l : List RainfallRecord} {g g' : Globals} {low high : Double}

/-- The globals when `readCSV` has loaded some records, and no search has sorted them yet. -/
structure Start (g : Globals) : Prop where
  records : g.records.length = MAX_RECORDS
  sortedRecords : g.sortedRecords.length = MAX_RECORDS
  some_loaded : 0 < g.recordCount
  all_fit : g.recordCount ≤ MAX_RECORDS
  not_sorted : g.sortedCount = 0

/-- What a choice in the menu does to these globals: a search, with any answers of `malloc`
and any bounds, or another choice, which at most sets the two counters. -/
inductive Menu : Globals → Unit → Globals → Prop
  | search {g g' : Globals} {scratch : Option (Fin g.recordCount → RainfallRecord)}
      {low high : Double} {a : Answer} (h : doPartC g scratch low high = some (g', a)) :
      Menu g () g'
  | other (g : Globals) (mergeComparisons mergeSwaps : ℕ) :
      Menu g () { g with mergeComparisons, mergeSwaps }

theorem Start.loaded (h : Start g) : Loaded (g.records.take g.recordCount) g where
  data := rfl
  count := by
    rw [List.length_take, h.records]
    exact min_eq_left h.all_fit
  pos := h.some_loaded
  small := h.all_fit
  room := h.sortedRecords
  sorted := Or.inl h.not_sorted

theorem Loaded.step (h : Loaded l g) (hstep : Menu g () g') : Loaded l g' := by
  cases hstep with
  | search hrun =>
      obtain ⟨o, hsort, hrun⟩ := Option.bind_eq_some_iff.mp hrun
      rcases sort_once_spec h _ with ⟨-, -, hnone⟩ | ⟨g₁, hsome, hloaded, -⟩
      · obtain rfl := Option.some.inj (hsort.symm.trans hnone)
        obtain ⟨rfl, -⟩ := Prod.mk.inj (Option.some.inj hrun)
        exact h
      · obtain rfl := Option.some.inj (hsort.symm.trans hsome)
        obtain ⟨a, -, hrun⟩ := Option.bind_eq_some_iff.mp hrun
        obtain ⟨rfl, -⟩ := Prod.mk.inj (Option.some.inj hrun)
        exact hloaded
  | other comparisons swaps =>
      exact ⟨h.data, h.count, h.pos, h.small, h.room, h.sorted⟩

/-- The records in the range are none exactly when nothing is found. -/
theorem answer_eq_noRecords_iff (found : List RainfallRecord) :
    answer low high found = .noRecords ↔ found = [] := by
  cases found with
  | nil => exact iff_of_true rfl rfl
  | cons r found => exact iff_of_false (fun h => by cases h) (List.cons_ne_nil r found)

/-- **The range search is exact** in every state the menu can reach: unless there is no memory
for the sorted copy, it lists the records in the range, in ascending order and those of one
value in the order of the file, and it says that there are none when there are none. Neither
search looks at a cell behind the sorted records. -/
theorem range_search {start : Globals} (hstart : Start start) (hreach : Reachable Menu start g)
    (hcomparable : Comparable (start.records.take start.recordCount)) (hlow : low.Comparable)
    (scratch : Option (Fin g.recordCount → RainfallRecord)) :
    ∃ g' a, doPartC g scratch low high = some (g', a) ∧
      ((g.sortedCount = 0 ∧ scratch = none ∧ a = .memoryError) ∨
        ((∃ found, StablySorted
            ((start.records.take start.recordCount).filter (inRange low high)) found
              ∧ a = answer low high found)
          ∧ (a = .noRecords ↔
            ∀ r ∈ start.records.take start.recordCount, inRange low high r = false)
          ∧ (∃ i, lower_bound (g'.sortedRecords.take g'.sortedCount) g'.sortedCount low = some i)
          ∧ ∃ j, upper_bound (g'.sortedRecords.take g'.sortedCount) g'.sortedCount high
              = some j)) := by
  -- what a menu state looks like, by induction on the choices before
  have hloaded : Loaded (start.records.take start.recordCount) g :=
    hreach.invariant (Loaded _) hstart.loaded (fun _ _ _ h hstep => h.step hstep)
  generalize start.records.take start.recordCount = l at hcomparable hloaded ⊢
  -- without memory for the copy there is no search
  rcases sort_once_spec hloaded scratch with ⟨h0, hscratch, hrun⟩ | ⟨g₁, hrun, hloaded₁, hcached⟩
  · refine ⟨g, .memoryError, ?_, Or.inl ⟨h0, hscratch, rfl⟩⟩
    rw [doPartC, hrun]
    rfl
  · have hsmall : l.length ≤ 2 ^ 30 := by
      have := hloaded₁.small
      rw [MAX_RECORDS] at this
      rw [hloaded₁.count]
      omega
    obtain ⟨hsearch, hinside⟩ := search_sorted_spec hcomparable hlow hsmall hcached high
    have hfound := (stablySorted_mergeSort hcomparable).filter (inRange low high)
    refine ⟨g₁, _, ?_, Or.inr ⟨⟨_, hfound, rfl⟩, ?_, hinside⟩⟩
    · rw [doPartC, hrun]
      simp only [Option.bind_eq_bind, Option.bind_some, hsearch]
    -- nothing is printed exactly if nothing lies in the range
    · rw [answer_eq_noRecords_iff, ← List.length_eq_zero_iff, hfound.perm.length_eq,
        List.length_eq_zero_iff, List.filter_eq_nil_iff]
      simp only [Bool.not_eq_true]

/-- Five years with the annual values `20`, `10`, `20`, `90` and `10`. -/
def fiveYears : List RainfallRecord :=
  [20, 10, 20, 90, 10].zipIdx.map fun p =>
    ⟨1901 + p.2, fun _ => Double.zero, nearest false p.1 1⟩

/-- The globals with these records loaded. -/
def fiveLoaded : Globals where
  records := fiveYears ++ List.replicate (MAX_RECORDS - 5) dryYear
  recordCount := 5
  sortedRecords := List.replicate MAX_RECORDS dryYear
  sortedCount := 0
  mergeComparisons := 0
  mergeSwaps := 0

/-- Two values at each bound and one out of range, before the records are sorted and after. The
second search finds the sorted copy of the first, and nothing below its range. -/
theorem range_search_fiveYears : ∃ g a g' a' found,
    doPartC fiveLoaded (some fun _ => dryYear) (nearest false 10 1) (nearest false 20 1)
        = some (g, a)
      ∧ StablySorted (fiveYears.filter fun r => r.year ≠ 1904) found
      ∧ a = answer (nearest false 10 1) (nearest false 20 1) found
      ∧ doPartC g (some fun _ => dryYear) (nearest false 20 1) (nearest false 10 1) = some (g', a')
      ∧ a' = .noRecords := by
  have hstart : Start fiveLoaded := ⟨rfl, rfl, by decide, by decide, rfl⟩
  have htake : fiveLoaded.records.take fiveLoaded.recordCount = fiveYears := rfl
  have hcomparable : Comparable fiveYears := by decide +kernel
  have hsome : ∀ {n : ℕ}, (some fun _ : Fin n => dryYear) ≠ none := fun h => by cases h
  obtain ⟨g, a, hrun, h⟩ := @range_search fiveLoaded (nearest false 10 1) (nearest false 20 1)
    fiveLoaded hstart (Reachable.refl Menu fiveLoaded) (by rwa [htake]) (by decide +kernel)
    (some fun _ => dryYear)
  obtain ⟨g', a', hrun', h'⟩ := @range_search g (nearest false 20 1) (nearest false 10 1)
    fiveLoaded hstart ((Reachable.refl Menu fiveLoaded).tail (.search hrun)) (by rwa [htake])
    (by decide +kernel) (some fun _ => dryYear)
  rw [htake] at h h'
  obtain ⟨⟨found, hfound, ha⟩, -⟩ := h.resolve_left fun h => hsome h.2.1
  obtain ⟨-, hnone, -⟩ := h'.resolve_left fun h => hsome h.2.1
  have hin : fiveYears.filter (inRange (nearest false 10 1) (nearest false 20 1))
      = fiveYears.filter fun r => r.year ≠ 1904 := by
    apply List.filter_congr
    decide +kernel
  rw [hin] at hfound
  exact ⟨g, a, g', a', found, hrun, hfound, ha, hrun', hnone.mpr (by decide +kernel)⟩

end Menu

end CourseLabs.Rainfall
