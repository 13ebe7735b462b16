/-
`CSMCS26A017_Lab2_1.c`: **what `writeSortedToFile` writes, `readCSV` reads.**

The fields of a row have neither commas nor newlines in them and none is empty, so each value
is read from its own column. The years come back as they were. The values come back as the
doubles nearest to what was printed, with one decimal (`toTenths`), and a second time nothing
is lost. That keeps their order, so a sorted file is sorted when it is read.

A row is read whole only if it fits the buffer of `readCSV`: a value with hundreds of digits
does not.
-/
import CourseLabs.PrintedNumber
import CourseLabs.RainfallCsv
import CourseLabs.SortAgree

set_option autoImplicit false

namespace CourseLabs.Rainfall

open CourseLabs.CDouble CourseLabs.CMem CourseLabs.CNumber CourseLabs.CText

/-! ## The text of a file -/

/-- The fields of a row, with commas between them, and a newline. -/
def lineText (fields : Row) : List Char :=
  [','].intercalate fields ++ ['\n']

/-- The text of a written file: its lines one after the other, each with the line end `fprintf`
puts behind it. -/
def fileText (file : List Row) : List Char :=
  file.flatMap lineText

/-- The record that is read from the row of a record. -/
def RainfallRecord.reread (r : RainfallRecord) : RainfallRecord where
  year := r.year
  monthly := fun m => toTenths (r.monthly m)
  annual := toTenths r.annual

/-- No separator, and no end of a string. -/
def Plain (c : Char) : Prop :=
  c ≠ ',' ∧ c ≠ '\n' ∧ c ≠ NUL

instance (c : Char) : Decidable (Plain c) :=
  inferInstanceAs (Decidable (c ≠ ',' ∧ c ≠ '\n' ∧ c ≠ NUL))

section Fields

/-- A check of all characters at once, so that a fixed string is decided and not taken apart. -/
theorem plain_of_all {s : List Char} (h : s.all (fun c => Plain c) = true) :
    ∀ c ∈ s, Plain c := by
  intro c hc
  simpa using List.all_eq_true.mp h c hc

/-- A digit is none of the three separators. -/
theorem plain_of_isdigit {c : Char} (h : isdigit c = true) : Plain c :=
  ⟨ne_of_isdigit h rfl, ne_of_isdigit h rfl, ne_of_isdigit h rfl⟩

/-- A sign in front of a number adds no separator. -/
theorem plain_signed {negative : Bool} {s : List Char} (h : ∀ c ∈ s, Plain c) :
    ∀ c ∈ signed negative s, Plain c := by
  cases negative with
  | true =>
      intro c hc
      rcases List.mem_cons.mp hc with rfl | hc
      · decide
      · exact h c hc
  | false => exact h

/-- What `%d` prints of a number without a sign. -/
theorem plain_toDigits (n : ℕ) : ∀ c ∈ Nat.toDigits 10 n, Plain c :=
  fun _ hc => plain_of_isdigit (isdigit_of_mem_toDigits hc)

/-- What `%d` prints of an `int`. -/
theorem plain_printInt (z : ℤ) : ∀ c ∈ printInt z, Plain c := by
  have hsigned : printInt z = signed (decide (z < 0)) (Nat.toDigits 10 z.natAbs) := by
    rw [printInt, signed]
    by_cases hz : z < 0
    · simp [hz]
    · simp [hz]
  rw [hsigned]
  exact plain_signed (plain_toDigits _)

/-- What `%.1f` prints, an infinity and a NaN included: `inf` and `nan` are letters, and a decimal
point is no separator. -/
theorem plain_printTenths (d : Double) : ∀ c ∈ printTenths d, Plain c := by
  by_cases h : d.exponent = 2047
  · by_cases hf : d.fraction = 0
    · rw [printTenths_infinity h hf]
      exact plain_signed (plain_of_all rfl)
    · rw [printTenths_nan h hf]
      exact plain_signed (plain_of_all rfl)
  · rw [printTenths_finite h]
    apply plain_signed
    intro c hc
    rcases List.mem_append.mp hc with hc | hc
    · exact plain_toDigits _ c hc
    · rcases List.mem_cons.mp hc with rfl | hc
      · decide
      · exact plain_toDigits _ c hc

/-- A sign does not make a number the empty string. -/
theorem signed_ne_nil {negative : Bool} {s : List Char} (h : s ≠ []) : signed negative s ≠ [] := by
  cases negative with
  | true => exact List.cons_ne_nil _ _
  | false => exact h

/-- `%d` prints at least one digit, so `strtok` sees a field there. -/
theorem printInt_ne_nil (z : ℤ) : printInt z ≠ [] := by
  rw [printInt]
  split
  · exact List.cons_ne_nil _ _
  · exact Nat.toDigits_ne_nil

/-- `%.1f` prints at least one character. Together with the years this is why a written file has no
empty field, at which `strtok` would shift the columns. -/
theorem printTenths_ne_nil (d : Double) : printTenths d ≠ [] := by
  by_cases h : d.exponent = 2047
  · by_cases hf : d.fraction = 0
    · rw [printTenths_infinity h hf]
      exact signed_ne_nil (List.cons_ne_nil _ _)
    · rw [printTenths_nan h hf]
      exact signed_ne_nil (List.cons_ne_nil _ _)
  · rw [printTenths_finite h]
    exact signed_ne_nil (List.append_ne_nil_of_left_ne_nil Nat.toDigits_ne_nil _)

/-- The names of the columns have no separator either. -/
theorem plain_header : HEADER.all (fun f => f.all fun c => Plain c) = true :=
  rfl

/-- Every field of a written row is non-empty and has no separator in it, which is what reading it
back needs. -/
theorem row_field {r : RainfallRecord} {f : List Char} (h : f ∈ row r) :
    f ≠ [] ∧ ∀ c ∈ f, Plain c := by
  have hvalue : ∀ d : Double, printTenths d ≠ [] ∧ ∀ c ∈ printTenths d, Plain c :=
    fun d => ⟨printTenths_ne_nil d, plain_printTenths d⟩
  rcases List.mem_cons.mp h with rfl | h
  · exact ⟨printInt_ne_nil _, plain_printInt _⟩
  · rcases List.mem_append.mp h with h | h
    · obtain ⟨m, rfl⟩ := List.mem_ofFn.mp h
      exact hvalue _
    · rw [List.mem_singleton.mp h]
      exact hvalue _

end Fields

section Lines

variable {fields : Row}

/-- A character of a line is a comma or a character of one of its fields. -/
theorem mem_intercalate {c : Char} (h : c ∈ [','].intercalate fields) :
    c = ',' ∨ ∃ f ∈ fields, c ∈ f := by
  induction fields with
  | nil => exact absurd h List.not_mem_nil
  | cons f fs ih =>
      cases fs with
      | nil =>
          rw [List.intercalate_singleton] at h
          exact Or.inr ⟨f, List.mem_cons_self, h⟩
      | cons g fs =>
          rw [List.intercalate_cons_cons, List.mem_append, List.mem_append,
            List.mem_singleton] at h
          rcases h with (h | h) | h
          · exact Or.inr ⟨f, List.mem_cons_self, h⟩
          · exact Or.inl h
          · exact (ih h).imp_right fun ⟨f', hf', hc⟩ => ⟨f', List.mem_cons_of_mem f hf', hc⟩

/-- What follows the last field belongs to it. -/
theorem intercalate_concat_append (init : Row) (last t : List Char) :
    [','].intercalate (init ++ [last]) ++ t = [','].intercalate (init ++ [last ++ t]) := by
  induction init with
  | nil => rw [List.nil_append, List.nil_append, List.intercalate_singleton,
      List.intercalate_singleton]
  | cons f fs ih =>
      cases fs with
      | nil =>
          simp [List.intercalate_cons_cons]
      | cons g fs =>
          rw [List.cons_append, List.cons_append, List.cons_append, List.cons_append,
            List.intercalate_cons_cons, List.intercalate_cons_cons, List.append_assoc]
          rw [List.cons_append, List.cons_append] at ih
          rw [ih]

/-- The fields of a row have no newline, so its line is one. -/
theorem newline_notMem (h : ∀ f ∈ fields, ∀ c ∈ f, Plain c) :
    '\n' ∉ [','].intercalate fields ∧ NUL ∉ [','].intercalate fields := by
  constructor
  · intro hmem
    rcases mem_intercalate hmem with heq | ⟨f, hf, hc⟩
    · exact absurd heq (by decide)
    · exact (h f hf _ hc).2.1 rfl
  · intro hmem
    rcases mem_intercalate hmem with heq | ⟨f, hf, hc⟩
    · exact absurd heq (by decide)
    · exact (h f hf _ hc).2.2 rfl

/-- `fgets` reads a written file back line by line, as no field holds a line end. -/
theorem lines_fileText {file : List Row} (h : ∀ fields ∈ file, ∀ f ∈ fields, ∀ c ∈ f, Plain c) :
    lines (fileText file) = file.map lineText := by
  induction file with
  | nil => rfl
  | cons fields file ih =>
      have hfirst := newline_notMem (h fields List.mem_cons_self)
      rw [fileText, List.flatMap_cons, lineText, List.append_assoc, List.singleton_append,
        lines_line hfirst.1, ← fileText, ih fun fs hfs => h fs (List.mem_cons_of_mem fields hfs)]
      rfl

end Lines

section Reading

variable {arr : List RainfallRecord}

/-- The fields `readCSV` finds in a line: the newline is in the last one. -/
theorem splitOn_lineText (r : RainfallRecord) :
    (lineText (row r)).splitOn ','
      = printInt r.year :: (List.ofFn (fun m => printTenths (r.monthly m))
        ++ [printTenths r.annual ++ ['\n']]) := by
  have hfields : row r = (printInt r.year :: List.ofFn fun m => printTenths (r.monthly m))
      ++ [printTenths r.annual] := rfl
  rw [lineText, hfields, intercalate_concat_append, List.splitOn_intercalate]
  · rfl
  · intro f hf hcomma
    rcases List.mem_append.mp hf with hf | hf
    · exact ((row_field (r := r) (by rw [hfields]; exact List.mem_append_left _ hf)).2 _ hcomma).1
        rfl
    · rw [List.mem_singleton.mp hf, List.mem_append] at hcomma
      exact hcomma.elim (fun h => (plain_printTenths _ _ h).1 rfl) (by decide)
  · exact List.append_ne_nil_of_right_ne_nil _ (List.cons_ne_nil _ _)

/-- **One row**: the year, and the values with one decimal. -/
theorem read_row_lineText (months : ℕ → Double) {r : RainfallRecord}
    (hlo : -2 ^ 31 ≤ r.year) (hhi : r.year < 2 ^ 31) :
    ∃ c, read_row (fun token => CNumber.atof token.string) Double.zero months (lineText (row r))
        = some (some c) ∧ c.record = r.reread := by
  have hnul : NUL ∉ lineText (row r) := by
    have hrow := (newline_notMem fun f hf => (@row_field r f hf).2).2
    rw [lineText, List.mem_append]
    exact fun h => h.elim hrow (by decide)
  -- the fields behind the year
  generalize hfs : List.ofFn (fun m => printTenths (r.monthly m))
    ++ [printTenths r.annual ++ ['\n']] = fs
  have hlen : fs.length = MONTHS + 1 := by
    rw [← hfs, List.length_append, List.length_ofFn, List.length_singleton]
  have hmonth : ∀ k : Fin MONTHS, fs[(k : ℕ)]? = some (printTenths (r.monthly k)) := by
    intro k
    rw [← hfs, List.getElem?_append_left (by rw [List.length_ofFn]; exact k.isLt),
      List.getElem?_ofFn, dif_pos k.isLt]
  have hannual : fs[MONTHS]? = some (printTenths r.annual ++ ['\n']) := by
    rw [← hfs, List.getElem?_append_right (by rw [List.length_ofFn]), List.length_ofFn,
      Nat.sub_self, List.getElem?_cons_zero]
  have hne : ∀ f ∈ fs, f ≠ [] := by
    intro f hf
    rw [← hfs] at hf
    rcases List.mem_append.mp hf with hf | hf
    · obtain ⟨m, rfl⟩ := List.mem_ofFn.mp hf
      exact printTenths_ne_nil _
    · rw [List.mem_singleton.mp hf]
      exact List.append_ne_nil_of_right_ne_nil _ (List.cons_ne_nil _ _)
  have hfilled : Filled fs.length fs := fun i hi =>
    ⟨fs[i], hne _ (List.getElem_mem hi), List.getElem?_eq_getElem hi⟩
  have htokens := (tokens_of_filled (k := 1) hfilled).1
  have hsplit := splitOn_lineText r
  rw [hfs] at hsplit
  have hread := @read_row_eq _ (fun t => CNumber.atof t.2)
    (fun token => CNumber.atof token.string) Double.zero months _ (fun _ => rfl) hnul
  rw [hsplit, tokens_cons_of_ne_nil (printInt_ne_nil _), row_of, atoi_printInt hlo hhi,
    Option.map_some] at hread
  refine ⟨_, hread, ?_⟩
  rw [CsvRow.record, RainfallRecord.reread]
  simp only [htokens MONTHS (by omega), hannual, Option.map_some, Option.elim_some,
    atof_append_newline, atof_printTenths]
  congr 1
  funext k
  rw [htokens k (by have := k.isLt; omega), hmonth]
  exact atof_printTenths _

/-- The records of a written file. -/
theorem readCSV_fileText (stack : ℕ → ℕ → Double) (hroom : arr.length ≤ MAX_RECORDS)
    (hyear : ∀ r ∈ arr, -2 ^ 31 ≤ r.year ∧ r.year < 2 ^ 31)
    (hshort : ∀ r ∈ arr, ([','].intercalate (row r)).length < 1023) :
    readCSV stack (some (fileText (HEADER :: arr.map row)))
      = some (some (arr.map RainfallRecord.reread)) := by
  -- no field has a separator in it, so lines and fields are those that were written
  have hplain : ∀ fields ∈ HEADER :: arr.map row, ∀ f ∈ fields, ∀ c ∈ f, Plain c := by
    intro fields hfields
    rcases List.mem_cons.mp hfields with rfl | hfields
    · exact fun f hf => plain_of_all (List.all_eq_true.mp plain_header f hf)
    · obtain ⟨r, -, rfl⟩ := List.mem_map.mp hfields
      exact fun f hf => (row_field hf).2
  have hlines := lines_fileText hplain
  have hdata : data_lines (fileText (HEADER :: arr.map row))
      = arr.map fun r => lineText (row r) := by
    rw [data_lines, hlines, List.map_cons, List.tail_cons, List.map_map,
      List.take_of_length_le (by rw [List.length_map]; exact hroom)]
    rfl
  -- no NUL is in the file, and every line fits the array of `fgets`
  have htext : Readable (fileText (HEADER :: arr.map row)) := by
    constructor
    · intro h
      rw [← flatten_lines (fileText _), hlines] at h
      obtain ⟨l, hl, hmem⟩ := List.mem_flatten.mp h
      obtain ⟨fields, hfields, rfl⟩ := List.mem_map.mp hl
      rw [lineText, List.mem_append] at hmem
      exact hmem.elim (newline_notMem (hplain fields hfields)).2 (by decide)
    · intro l hl
      rw [hlines] at hl
      obtain ⟨fields, hfields, rfl⟩ := List.mem_map.mp hl
      rw [lineText, chomp_line (newline_notMem (hplain fields hfields)).1]
      rcases List.mem_cons.mp hfields with rfl | hfields
      · decide
      · obtain ⟨r, hr, rfl⟩ := List.mem_map.mp hfields
        exact hshort r hr
  have hne : fileText (HEADER :: arr.map row) ≠ [] := by
    intro h
    rw [← lines_eq_nil_iff, hlines] at h
    cases h
  -- a line is read as its record, and two records of one line read alike
  obtain ⟨rows, hrun, heach⟩ := @read_rows_spec _ _
    (fun _ _ token => CNumber.atof token.string) Double.zero stack
    (fun _ line c => ∀ r ∈ arr, lineText (row r) = line → c.record = r.reread)
    hne htext (by
      rw [hdata]
      intro line hline _ i
      obtain ⟨r, hr, rfl⟩ := List.mem_map.mp hline
      obtain ⟨c, hc, -⟩ := read_row_lineText (stack i) (hyear r hr).1 (hyear r hr).2
      refine ⟨c, hc, fun r' hr' heq => ?_⟩
      obtain ⟨c', hc', hrecord⟩ := read_row_lineText (stack i) (hyear r' hr').1 (hyear r' hr').2
      rw [heq, hc, Option.some.injEq, Option.some.injEq] at hc'
      rw [hc', hrecord])
  rw [hdata] at heach
  -- so the rows are the records, one by one
  have hrows : rows.map CsvRow.record = arr.map RainfallRecord.reread := by
    apply List.ext_getElem
    · rw [List.length_map, heach.length_eq, List.length_map, List.length_map]
    · intro i hi hi'
      rw [List.length_map] at hi hi'
      rw [List.getElem_map, List.getElem_map]
      have hline : (arr.map fun r => lineText (row r))[i]? = some (lineText (row arr[i])) := by
        rw [List.getElem?_map, List.getElem?_eq_getElem hi', Option.map_some]
      exact heach.get hline (List.getElem?_eq_getElem hi) arr[i] (List.getElem_mem hi') rfl
  rw [readCSV, hrun, Option.bind_eq_bind, Option.bind_some, Option.map_some, hrows]

/-- The record that comes back prints as the same row: printing a value that was already rounded to
tenths gives the same text. -/
theorem row_reread (r : RainfallRecord) : row r.reread = row r := by
  rw [row, row, RainfallRecord.reread]
  simp only [printTenths_toTenths]

/-- **The round trip.** What is written is read as the same records, with one decimal, and
what is read is written as the same file. -/
theorem csv_round_trip (stack : ℕ → ℕ → Double) (hroom : arr.length ≤ MAX_RECORDS)
    (hyear : ∀ r ∈ arr, -2 ^ 31 ≤ r.year ∧ r.year < 2 ^ 31)
    (hshort : ∀ r ∈ arr, ([','].intercalate (row r)).length < 1023) :
    ∃ file, writeSortedToFile true arr arr.length = some (some file)
      ∧ readCSV stack (some (fileText file)) = some (some (arr.map RainfallRecord.reread))
      ∧ writeSortedToFile true (arr.map RainfallRecord.reread) arr.length = some (some file) := by
  refine ⟨_, writeSortedToFile_spec true arr, readCSV_fileText stack hroom hyear hshort, ?_⟩
  have hwrite := writeSortedToFile_spec true (arr.map RainfallRecord.reread)
  rw [List.length_map, List.map_map, if_pos rfl] at hwrite
  rw [hwrite]
  congr 3
  exact List.map_congr_left fun r _ => row_reread r

/-- Two records of the data. -/
def twoYears : List RainfallRecord :=
  [⟨1901, fun _ => nearest false 123 10, nearest false 14760 10⟩,
    ⟨2020, fun _ => Double.negZero, nearest false 1 3⟩]

/-- Two years, the second with negative zeros in its months and a third of a millimetre as its
annual value, written and read back. -/
theorem csv_round_trip_twoYears :
    ∃ file, writeSortedToFile true twoYears twoYears.length = some (some file)
      ∧ readCSV (fun _ _ => Double.zero) (some (fileText file))
        = some (some (twoYears.map RainfallRecord.reread))
      ∧ writeSortedToFile true (twoYears.map RainfallRecord.reread) twoYears.length
        = some (some file) := by
  apply csv_round_trip (fun _ _ => Double.zero) (by decide) (by decide)
  decide +kernel

end Reading

/-! ## The files of `doPartB` -/

section PartB

variable {arr l : List RainfallRecord}

/-- Rounding to tenths keeps the order, so a sorted array is still sorted when it has been read
back. -/
theorem Ascending.reread (h : Ascending arr) : Ascending (arr.map RainfallRecord.reread) := by
  rw [Ascending, List.pairwise_map]
  exact h.imp fun hab => le_toTenths hab

/-- What is written of a sorted permutation of the records, read back. -/
theorem readCSV_sorted (stack : ℕ → ℕ → Double) (hperm : arr.Perm l) (hsorted : Ascending arr)
    (hroom : l.length ≤ MAX_RECORDS) (hyear : ∀ r ∈ l, -2 ^ 31 ≤ r.year ∧ r.year < 2 ^ 31)
    (hshort : ∀ r ∈ l, ([','].intercalate (row r)).length < 1023) :
    ∃ m, readCSV stack (some (fileText (HEADER :: arr.map row))) = some (some m)
      ∧ Ascending m ∧ m.Perm (l.map RainfallRecord.reread) := by
  refine ⟨_, readCSV_fileText stack (hperm.length_eq ▸ hroom)
    (fun r hr => hyear r (hperm.mem_iff.mp hr)) (fun r hr => hshort r (hperm.mem_iff.mp hr)),
    hsorted.reread, hperm.map _⟩

/-- **The sorted files are sorted when they are read.** In every run of `doPartB` in which there is
memory and the files open, whatever `rand()` says, `readCSV` reads from each of the two files the
loaded records in ascending order, with one decimal, if no row is too long for its line buffer. -/
theorem part_b_files_reread {records : List RainfallRecord} (hne : records ≠ [])
    (hroom : records.length ≤ MAX_RECORDS) (hcomparable : Comparable records)
    (hyear : ∀ r ∈ records, -2 ^ 31 ≤ r.year ∧ r.year < 2 ^ 31)
    (hshort : ∀ r ∈ records, ([','].intercalate (row r)).length < 1023)
    (rand : ℕ → Fin (2 ^ 31)) (scratch : Fin records.length → RainfallRecord)
    (stack : ℕ → ℕ → Double) :
    ∃ b merge quick m q,
      doPartB records records.length ⟨rand, some scratch, true, true⟩ = some (some b)
        ∧ b.mergeFile = some merge ∧ b.quickFile = some quick
        ∧ readCSV stack (some (fileText merge)) = some (some m)
        ∧ readCSV stack (some (fileText quick)) = some (some q)
        ∧ Ascending m ∧ Ascending q
        ∧ m.Perm (records.map RainfallRecord.reread)
        ∧ q.Perm (records.map RainfallRecord.reread) := by
  have hpos : 0 < records.length := List.length_pos_iff.mpr hne
  have hmax : MAX_RECORDS = 200 := rfl
  -- both sorts end, and each leaves the records in ascending order
  obtain ⟨s₁, hrun₁, harr₁, -, -, -⟩ := @mergeSortRec_spec records.length [] records []
    ⟨records, List.ofFn scratch, 0, 0⟩ (records.length - 1) rfl (by simp) (by simp)
    (by rw [List.length_nil]; omega) (by rw [List.length_nil]; omega)
  obtain ⟨s₂, seg, hrun₂, harr₂, hperm₂, hsorted₂, -, -⟩ :=
    @quickSortRec_spec rand records.length [] records [] ⟨records, 0, 0, 0⟩
      (records.length - 1) rfl (by simp) (by simp) (by omega)
  rw [List.nil_append, List.append_nil] at harr₁ harr₂
  have hperm₁ : s₁.arr.Perm records := by
    rw [harr₁]
    exact List.mergeSort_perm records annualLe
  rw [← harr₂] at hperm₂ hsorted₂
  have hmerge := writeSortedToFile_spec true s₁.arr
  have hquick := writeSortedToFile_spec true s₂.arr
  rw [hperm₁.length_eq, if_pos rfl] at hmerge
  rw [hperm₂.length_eq, if_pos rfl] at hquick
  -- which their files are read back in
  obtain ⟨m, hm, hmsorted, hmperm⟩ := readCSV_sorted stack hperm₁
    (harr₁ ▸ ascending_mergeSort hcomparable) hroom hyear hshort
  obtain ⟨q, hq, hqsorted, hqperm⟩ := readCSV_sorted stack hperm₂ (hsorted₂ hcomparable) hroom
    hyear hshort
  refine ⟨{ mergeFile := some (HEADER :: s₁.arr.map row)
            quickFile := some (HEADER :: s₂.arr.map row)
            mergeComparisons := s₁.mergeComparisons
            mergeSwaps := s₁.mergeSwaps
            quickComparisons := s₂.quickComparisons
            quickSwaps := s₂.quickSwaps }, _, _, m, q, ?_, rfl, rfl, hm, hq, hmsorted, hqsorted,
    hmperm, hqperm⟩
  rw [List.length_nil] at hrun₁ hrun₂
  unfold doPartB
  rw [if_neg hpos.ne']
  simp only [memcpy_of_le (Nat.le_refl _), List.take_length, Option.bind_eq_bind,
    Option.bind_some]
  rw [hrun₁, Option.bind_some, hmerge, Option.bind_some, show (0 : ℤ) = ((0 : ℕ) : ℤ) from rfl,
    hrun₂, Option.bind_some, hquick, Option.bind_some]

/-- Part B on the two years: both of its files read back as sorted arrays. -/
theorem part_b_files_reread_twoYears :
    ∃ b merge quick m q,
      doPartB twoYears twoYears.length
          ⟨fun _ => 0, some fun _ => ⟨0, fun _ => Double.zero, Double.zero⟩, true, true⟩
          = some (some b)
        ∧ b.mergeFile = some merge ∧ b.quickFile = some quick
        ∧ readCSV (fun _ _ => Double.zero) (some (fileText merge)) = some (some m)
        ∧ readCSV (fun _ _ => Double.zero) (some (fileText quick)) = some (some q)
        ∧ Ascending m ∧ Ascending q
        ∧ m.Perm (twoYears.map RainfallRecord.reread)
        ∧ q.Perm (twoYears.map RainfallRecord.reread) :=
  part_b_files_reread (by decide) (by decide) (by decide +kernel) (by decide) (by decide +kernel)
    _ _ _

end PartB

end CourseLabs.Rainfall
