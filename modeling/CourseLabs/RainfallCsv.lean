/-
`CSMCS26A017_Lab2_1.c`, `readCSV`: which column each stored value is from.

The function takes the tokens of a line for its columns. `strtok` passes over an empty field,
so from there on every value is one of a later column, and when the tokens run out before
December the rest of `months` is whatever the stack holds. The 14th value is the only one with
a fallback.

Two runs of the same code are compared. In one the values are the doubles that `atof` reads.
In the other each value is its `Source`: the row and the column that its text stands in.
-/
import CourseLabs.CNumber
import CourseLabs.CText
import CourseLabs.Rainfall

set_option autoImplicit false

namespace CourseLabs.Rainfall

open CourseLabs.CDouble CourseLabs.CLoop CourseLabs.CMem CourseLabs.CNumber CourseLabs.CText

/-! ## The program -/

/-- A record, with values of any type. The loop never computes with them, so the values may also
say where they are from. -/
structure CsvRow (V : Type) where
  year : ℤ
  monthly : Fin MONTHS → V
  annual : V

/-- The variables of the loop over the months: the counter, the array and the pointer `strtok`
keeps. -/
structure Months (V : Type) where
  i : ℕ
  months : ℕ → V
  saved : Pointer

/-- The variables of the loop over the lines. `row` counts them. -/
structure Reader (V : Type) where
  fp : List Char
  row : ℕ
  records : List (CsvRow V)

section Program

variable {V : Type}

/-- `months[i] = atof(token)`, until there is no token. The months behind the last token are left
as they were. -/
def month_body (atof : Pointer → V) (s : Months V) : Option (Pass (Months V) (Months V)) :=
  if s.i < MONTHS then
    match strtok ',' s.saved with
    | (none, saved) => some (.done { s with saved })
    | (some token, saved) =>
      some (.next { i := s.i + 1, months := upd s.months s.i (atof token), saved })
  else
    some (.done s)

/-- What is made of one line; `months` is what the array contains at first, and `absent` the
fallback of the annual value. A line without a token gives no record. -/
def read_row (atof : Pointer → V) (absent : V) (months : ℕ → V) (line : List Char) :
    Option (Option (CsvRow V)) :=
  match strtok ',' ⟨0, cstr line⟩ with
  | (none, _) => some none
  | (some token, saved) => do
    let year ← atoi token.string
    let s ← loop (month_body atof) { i := 0, months, saved }
    let annual := match (strtok ',' s.saved).1 with
      | some token => atof token
      | none => absent
    some (some { year, monthly := fun i => s.months i, annual })

/-- `records[count]`, and `count++`. The loop stops at the limit, so the store never leaves the
array. -/
def store_row (records : List (CsvRow V)) (r : CsvRow V) : Option (List (CsvRow V)) :=
  if records.length < MAX_RECORDS then some (records ++ [r]) else none

/-- One line of the file. `atof` is given the line and its number as well. -/
def csv_body (atof : ℕ → List Char → Pointer → V) (absent : V) (stack : ℕ → ℕ → V)
    (s : Reader V) : Option (Pass (Reader V) (List (CsvRow V))) :=
  match fgets 1024 s.fp with
  | none => some (.done s.records)
  | some (line, fp) => do
    match ← read_row (atof s.row line) absent (stack s.row) line with
    | none => some (.next { fp, row := s.row + 1, records := s.records })
    | some r => do
      let records ← store_row s.records r
      if MAX_RECORDS ≤ records.length then
        some (.done records)
      else
        some (.next { fp, row := s.row + 1, records })

/-- The header, and the lines behind it. The inner `none` is the return value `-1`. -/
def read_rows (atof : ℕ → List Char → Pointer → V) (absent : V) (stack : ℕ → ℕ → V)
    (text : List Char) : Option (Option (List (CsvRow V))) :=
  match fgets 1024 text with
  | none => some none
  | some (_, fp) => do
    let records ← loop (csv_body atof absent stack) { fp, row := 0, records := [] }
    some (some records)

end Program

def CsvRow.record (r : CsvRow Double) : RainfallRecord where
  year := r.year
  monthly := r.monthly
  annual := r.annual

/-- `readCSV`, of a file that may not open; `stack` is what the array `months` contains at first
in each row. -/
def readCSV (stack : ℕ → ℕ → Double) (file : Option (List Char)) :
    Option (Option (List RainfallRecord)) :=
  match file with
  | none => some none
  | some text => do
    let rows ← read_rows (fun _ _ token => atof token.string) Double.zero stack text
    some (rows.map (List.map CsvRow.record))

/-- Where a stored value is from: a field of the file, the value used where the line has no total,
or what the memory contained. -/
inductive Source where
  | field (row column : ℕ)
  | fallback
  | memory

/-- The same run, with the source of each value in its place. -/
def read_sources (text : List Char) : Option (Option (List (CsvRow Source))) :=
  read_rows (fun row line token => .field row (column ',' line token)) .fallback
    (fun _ _ => .memory) text

/-! ## What should be stored -/

/-- The data lines that there is room for. The first line is the header, which is read and thrown
away. -/
def data_lines (text : List Char) : List (List Char) :=
  (lines text).tail.take MAX_RECORDS

/-- The number in a field of a line. An absent or an empty field counts as `0.0`. -/
def number (line : List Char) (column : ℕ) : Double :=
  match ((chomp line).splitOn ',')[column]? with
  | none => Double.zero
  | some field => if field = [] then Double.zero else atof field

/-- The record has the numbers of the line, each in the place its column stands for. -/
structure RainfallRecord.HasNumbers (r : RainfallRecord) (line : List Char) : Prop where
  monthly : ∀ k : Fin MONTHS, r.monthly k = number line (k + 1)
  annual : r.annual = number line (MONTHS + 1)

/-- The values are from their own fields of the `i`-th line, or the annual one is the fallback. -/
structure CsvRow.FromOwn (r : CsvRow Source) (i : ℕ) : Prop where
  monthly : ∀ k : Fin MONTHS, r.monthly k = .field i (k + 1)
  annual : r.annual = .field i (MONTHS + 1) ∨ r.annual = .fallback

/-- **The rows are read column by column**: one record for each data line, with the numbers of
its own fields, and from these fields. -/
structure ByColumn (text : List Char) : Prop where
  values : ∀ stack, ∃ records, readCSV stack (some text) = some (some records)
    ∧ records.length ≤ MAX_RECORDS ∧ records.length = (data_lines text).length
    ∧ ∀ (i : ℕ) (line : List Char) (r : RainfallRecord), (data_lines text)[i]? = some line →
      records[i]? = some r → r.HasNumbers line
  sources : ∃ rows, read_sources text = some (some rows)
    ∧ rows.length = (data_lines text).length
    ∧ ∀ (i : ℕ) (r : CsvRow Source), rows[i]? = some r → r.FromOwn i

/-- The line has its year and its months, in fields that are not empty, and no later field
takes the place of an empty annual one. -/
structure RowOk (line : List Char) : Prop where
  months : Filled (MONTHS + 1) (line.splitOn ',')
  annual : (∃ f, f ≠ [] ∧ (line.splitOn ',')[MONTHS + 1]? = some f)
    ∨ ∀ f ∈ (line.splitOn ',').drop (MONTHS + 1), f = []
  year : ∃ f, (line.splitOn ',')[0]? = some f ∧ (atoi f).isSome

/-! ## One row -/

section Rows

variable {V : Type} {value : ℕ × List Char → V} {atof : Pointer → V} {absent : V}
  {months : ℕ → V} {line : List Char} {ts : List (ℕ × List Char)}

/-- The loop over the months stores the next tokens, as many as there are. -/
theorem months_spec (hvalue : ∀ token, atof token = value (column ',' line token, token.string))
    {saved : Pointer} (h : Ahead ',' line saved ts) :
    ∃ s, loop (month_body atof) { i := 0, months, saved } = some s
      ∧ (∀ k < MONTHS, s.months k = (ts[k]?).elim (months k) value)
      ∧ Ahead ',' line s.saved (ts.drop MONTHS) := by
  apply loop_spec (fun s => MONTHS - s.i)
    (fun s => s.i ≤ MONTHS ∧ Ahead ',' line s.saved (ts.drop s.i)
      ∧ ∀ k, s.months k = if k < s.i then (ts[k]?).elim (months k) value else months k)
  · rintro ⟨i, months', saved⟩ ⟨hi, hahead, hmonths⟩
    dsimp only at hi hahead hmonths
    rw [month_body]
    by_cases hlt : i < MONTHS
    · rw [if_pos hlt]
      rcases strtok_spec hahead with ⟨hnil, p, hrun, hahead'⟩
        | ⟨k, f, ts', token, p, hcons, hrun, hf, hcolumn, hahead'⟩
      · -- no token is left: the rest of the array stays as it was
        have hle : ts.length ≤ i := List.drop_eq_nil_iff.mp hnil
        left
        refine ⟨⟨i, months', p⟩, by rw [hrun], fun k hk => ?_, ?_⟩
        · refine (hmonths k).trans ?_
          split
          · rfl
          · rw [List.getElem?_eq_none (by omega)]
            rfl
        · rwa [List.drop_eq_nil_of_le (by omega)]
      · have hget : ts[i]? = some (k, f) := by
          rw [← List.head?_drop, hcons]
          rfl
        have hdrop : ts.drop (i + 1) = ts' := by
          rw [← List.tail_drop, hcons]
          rfl
        right
        refine ⟨⟨i + 1, upd months' i (atof token), p⟩, by rw [hrun], ⟨hlt, ?_, fun j => ?_⟩, ?_⟩
        · rwa [hdrop]
        · dsimp only
          rcases Nat.lt_trichotomy j i with hji | rfl | hij
          · rw [upd_other (by omega), hmonths, if_pos hji, if_pos (by omega)]
          · rw [upd_same, if_pos (by omega), hget, hvalue, hf, hcolumn]
            rfl
          · rw [upd_other (by omega), hmonths, if_neg (by omega), if_neg (by omega)]
        · dsimp only
          omega
    · obtain rfl : i = MONTHS := by omega
      left
      exact ⟨_, if_neg hlt, fun k hk => (hmonths k).trans (if_pos hk), hahead⟩
  · exact ⟨Nat.zero_le _, h, fun k => rfl⟩

/-- What the tokens of a line make of it: the first is the year, then come the months and the
total, and what is missing is filled in. -/
def row_of (value : ℕ × List Char → V) (absent : V) (months : ℕ → V) :
    List (ℕ × List Char) → Option (Option (CsvRow V))
  | [] => some none
  | t :: ts => (atoi t.2).map fun year => some {
      year
      monthly := fun k => (ts[(k : ℕ)]?).elim (months k) value
      annual := (ts[MONTHS]?).elim absent value }

/-- **One line**: the row is that of its tokens. A field that is empty is no token, so the values
behind it move up. -/
theorem read_row_eq (hvalue : ∀ token, atof token = value (column ',' line token, token.string))
    (hnul : NUL ∉ line) :
    read_row atof absent months line
      = row_of value absent months (tokens 0 (line.splitOn ',')) := by
  have hcstr : cstr line = line := cstr_of_ne_nul fun c hc h => hnul (h ▸ hc)
  rw [read_row, hcstr]
  -- the first token is the year, if there is one
  rcases strtok_spec (Ahead.start ',' line) with ⟨hnil, p, hrun, -⟩
    | ⟨k, f, ts, token, p, hcons, hrun, hf, -, hahead⟩
  · rw [hrun, hnil]
    rfl
  · rw [hrun, hcons, row_of]
    dsimp only
    rw [hf]
    cases hyear : atoi f with
    | none => rfl
    | some year =>
        obtain ⟨s, hloop, hmonths, hrest⟩ := @months_spec V value atof months line ts
          hvalue p hahead
        -- the annual value is the token behind the months
        have hannual : (match (strtok ',' s.saved).1 with
            | some token => atof token
            | none => absent) = (ts[MONTHS]?).elim absent value := by
          rw [← List.head?_drop]
          rcases strtok_spec hrest with ⟨hnil, p', hrun', -⟩
            | ⟨k', f', ts', token', p', hcons', hrun', hf', hcolumn', -⟩
          · rw [hrun', hnil]
            rfl
          · rw [hrun', hcons', List.head?_cons]
            dsimp only
            rw [hvalue, hf', hcolumn']
            rfl
        -- and the months are the tokens before it
        have hmonthly : (fun i : Fin MONTHS => s.months i)
            = fun k : Fin MONTHS => (ts[(k : ℕ)]?).elim (months k) value :=
          funext fun k => hmonths k k.isLt
        simp only [hloop, Option.bind_eq_bind, Option.bind_some, Option.map_some]
        rw [hannual, hmonthly]

/-- A line with a newline has a token, at least that. -/
theorem read_row_ne_skip
    (hvalue : ∀ token, atof token = value (column ',' line token, token.string))
    (hnul : NUL ∉ line) (hnewline : '\n' ∈ line) :
    read_row atof absent months line ≠ some none := by
  rw [read_row_eq hvalue hnul]
  cases htokens : tokens 0 (line.splitOn ',') with
  | nil =>
      obtain ⟨f, hf, hmem⟩ := exists_mem_splitOn hnewline (show '\n' ≠ ',' by decide)
      rw [tokens_eq_nil_iff.mp htokens f hf] at hmem
      exact absurd hmem List.not_mem_nil
  | cons t ts =>
      rw [row_of]
      cases atoi t.2 with
      | none => exact fun h => by cases h
      | some year => exact fun h => by cases h

end Rows

/-! ## All the rows -/

/-- Two lists of one length, with `P` of their members and the number of each. -/
inductive Each {α β : Type} (P : ℕ → α → β → Prop) : ℕ → List α → List β → Prop
  | nil {i : ℕ} : Each P i [] []
  | cons {i : ℕ} {a : α} {b : β} {as : List α} {bs : List β} (head : P i a b)
      (tail : Each P (i + 1) as bs) : Each P i (a :: as) (b :: bs)

section Each

variable {α β : Type} {P : ℕ → α → β → Prop} {i : ℕ} {as : List α} {bs : List β}

theorem Each.length_eq (h : Each P i as bs) : bs.length = as.length := by
  induction h with
  | nil => rfl
  | cons _ _ ih => rw [List.length_cons, List.length_cons, ih]

theorem Each.get (h : Each P i as bs) {j : ℕ} {a : α} {b : β} (ha : as[j]? = some a)
    (hb : bs[j]? = some b) : P (i + j) a b := by
  induction h generalizing j with
  | nil => cases ha
  | cons head _ ih =>
      cases j with
      | zero =>
          cases ha
          cases hb
          exact head
      | succ j =>
          rw [List.getElem?_cons_succ] at ha hb
          have hj := ih ha hb
          rwa [Nat.add_assoc, Nat.add_comm 1 j] at hj

/-- Every member of the first list has its partner. -/
theorem Each.exists_of_mem (h : Each P i as bs) {a : α} (ha : a ∈ as) :
    ∃ j b, bs[j]? = some b ∧ P (i + j) a b := by
  obtain ⟨j, hj⟩ := List.mem_iff_getElem?.mp ha
  have hlt : j < bs.length := by
    rw [h.length_eq]
    exact (List.getElem?_eq_some_iff.mp hj).1
  exact ⟨j, bs[j], List.getElem?_eq_getElem hlt, h.get hj (List.getElem?_eq_getElem hlt)⟩

end Each

/-- A text whose lines `fgets` takes whole: no line is longer than the buffer, and no `NUL` ends
one before its time. -/
structure Readable (fp : List Char) : Prop where
  nul_free : NUL ∉ fp
  short : ∀ l ∈ lines fp, (chomp l).length < 1023

section Lines

variable {V : Type} {atof : ℕ → List Char → Pointer → V} {absent : V} {stack : ℕ → ℕ → V}
  {fp l : List Char} {ls : List (List Char)}

theorem Readable.next (h : Readable fp) (hlines : lines fp = l :: ls) :
    ∃ rest, fgets 1024 fp = some (l, rest) ∧ lines rest = ls ∧ Readable rest ∧ NUL ∉ l := by
  have hlen := h.short l (by rw [hlines]; exact List.mem_cons_self)
  obtain ⟨rest, hget, hrest⟩ := fgets_lines hlines (show (chomp l).length + 1 < 1024 by omega)
  have htext : fp = l ++ rest := by
    rw [← flatten_lines fp, ← flatten_lines rest, hlines, hrest, List.flatten_cons]
  refine ⟨rest, hget, hrest, ⟨fun hmem => ?_, fun l' hl' => ?_⟩, fun hmem => ?_⟩
  · exact h.nul_free (htext ▸ List.mem_append_right l hmem)
  · exact h.short l' (by rw [hlines]; exact List.mem_cons_of_mem l (hrest ▸ hl'))
  · exact h.nul_free (htext ▸ List.mem_append_left rest hmem)

theorem csv_body_end (row : ℕ) (records : List (CsvRow V)) (h : lines fp = []) :
    csv_body atof absent stack ⟨fp, row, records⟩ = some (.done records) := by
  rw [csv_body, lines_eq_nil_iff.mp h]
  rfl

/-- A line that gives a row: the row is stored, and the loop ends if the array is full then. -/
theorem csv_body_row {rest : List Char} {row : ℕ} {records : List (CsvRow V)} {r : CsvRow V}
    (hget : fgets 1024 fp = some (l, rest))
    (hr : read_row (atof row l) absent (stack row) l = some (some r))
    (hroom : records.length < MAX_RECORDS) :
    csv_body atof absent stack ⟨fp, row, records⟩
      = if MAX_RECORDS ≤ records.length + 1 then some (.done (records ++ [r]))
        else some (.next ⟨rest, row + 1, records ++ [r]⟩) := by
  rw [csv_body, hget]
  simp only [hr, Option.bind_eq_bind, Option.bind_some, store_row, if_pos hroom,
    List.length_append, List.length_singleton]

/-- The loop over lines each of which gives a row: there is one for each, as far as there is
room. -/
theorem csv_run {P : ℕ → List Char → CsvRow V → Prop} {room : ℕ} :
    ∀ {fp : List Char} {row : ℕ} {records : List (CsvRow V)}, Readable fp → lines fp = ls →
      records.length + (room + 1) = MAX_RECORDS →
      (∀ line ∈ ls.take (room + 1), NUL ∉ line → ∀ i, ∃ r,
        read_row (atof i line) absent (stack i) line = some (some r) ∧ P i line r) →
      ∃ rows, loop (csv_body atof absent stack) ⟨fp, row, records⟩ = some (records ++ rows)
        ∧ Each P row (ls.take (room + 1)) rows := by
  induction ls generalizing room with
  | nil =>
      intro fp row records hfp hlines hroom hrow
      refine ⟨[], ?_, .nil⟩
      rw [List.append_nil]
      exact loop_done (csv_body_end row records hlines)
  | cons l ls ih =>
      intro fp row records hfp hlines hroom hrow
      obtain ⟨rest, hget, hrest, hreadable, hnul⟩ := hfp.next hlines
      obtain ⟨r, hr, hP⟩ := hrow l List.mem_cons_self hnul row
      have hbody := csv_body_row hget hr (show records.length < MAX_RECORDS by omega)
      rw [List.take_succ_cons]
      -- the dataset is full with this record, or there is room for more
      cases room with
      | zero =>
          rw [if_pos (by omega)] at hbody
          exact ⟨[r], loop_done hbody, .cons hP .nil⟩
      | succ room =>
          rw [if_neg (by omega)] at hbody
          obtain ⟨rows, hrun, hrows⟩ := @ih room rest (row + 1) (records ++ [r]) hreadable
            hrest (by rw [List.length_append, List.length_singleton]; omega)
            (fun line hline => hrow line (List.mem_cons_of_mem l hline))
          refine ⟨r :: rows, ?_, .cons hP hrows⟩
          rw [loop_next hbody, hrun, List.append_assoc, List.singleton_append]

/-- Where the loop has given a row for each line, it is the row of that line. -/
theorem csv_run_inv {room : ℕ}
    (hskip : ∀ i line, NUL ∉ line → '\n' ∈ line →
      read_row (atof i line) absent (stack i) line ≠ some none) :
    ∀ {fp : List Char} {row : ℕ} {records out : List (CsvRow V)}, Readable fp → lines fp = ls →
      records.length + (room + 1) = MAX_RECORDS →
      loop (csv_body atof absent stack) ⟨fp, row, records⟩ = some out →
      ∃ rows, out = records ++ rows ∧ (rows.length = (ls.take (room + 1)).length →
        Each (fun i line r => NUL ∉ line
          ∧ read_row (atof i line) absent (stack i) line = some (some r))
          row (ls.take (room + 1)) rows) := by
  induction ls generalizing room with
  | nil =>
      intro fp row records out hfp hlines hroom hrun
      rw [loop_done (csv_body_end row records hlines), Option.some.injEq] at hrun
      exact ⟨[], by rw [List.append_nil, hrun], fun _ => .nil⟩
  | cons l ls ih =>
      intro fp row records out hfp hlines hroom hrun
      obtain ⟨rest, hget, hrest, hreadable, hnul⟩ := hfp.next hlines
      rw [List.take_succ_cons]
      cases hr : read_row (atof row l) absent (stack row) l with
      | none =>
          have hnone : csv_body atof absent stack ⟨fp, row, records⟩ = none := by
            rw [csv_body, hget]
            simp only [hr, Option.bind_eq_bind, Option.bind_none]
          rw [loop_none hnone] at hrun
          cases hrun
      | some o =>
          cases o with
          | none =>
              -- no row for this line, which can only be the last: there is one row too few
              have hls : ls = [] := by
                rcases line_cases hlines with heq | ⟨-, -, hls⟩
                · exact absurd hr (hskip row l hnul (by rw [heq]; simp))
                · exact hls
              have hbody : csv_body atof absent stack ⟨fp, row, records⟩
                  = some (.next ⟨rest, row + 1, records⟩) := by
                rw [csv_body, hget]
                simp only [hr, Option.bind_eq_bind, Option.bind_some]
              rw [loop_next hbody, loop_done (csv_body_end _ records (hrest.trans hls)),
                Option.some.injEq] at hrun
              refine ⟨[], by rw [List.append_nil, hrun], fun hlen => ?_⟩
              rw [List.length_cons, List.length_nil] at hlen
              omega
          | some r =>
              have hbody := csv_body_row hget hr (show records.length < MAX_RECORDS by omega)
              cases room with
              | zero =>
                  rw [if_pos (by omega)] at hbody
                  rw [loop_done hbody, Option.some.injEq] at hrun
                  exact ⟨[r], hrun.symm, fun _ => .cons ⟨hnul, hr⟩ .nil⟩
              | succ room =>
                  rw [if_neg (by omega)] at hbody
                  rw [loop_next hbody] at hrun
                  obtain ⟨rows, hout, hrows⟩ := @ih room rest (row + 1) (records ++ [r]) out
                    hreadable hrest (by rw [List.length_append, List.length_singleton]; omega) hrun
                  refine ⟨r :: rows, ?_, fun hlen => .cons ⟨hnul, hr⟩ (hrows ?_)⟩
                  · rw [hout, List.append_assoc, List.singleton_append]
                  · exact Nat.succ.inj hlen

end Lines

/-! ## Rows in their own columns -/

section Columns

variable {V : Type} {value : ℕ × List Char → V} {absent : V} {months : ℕ → V}
  {line : List Char} {fs : List (List Char)}

/-- The tokens of filled fields, the first of them apart. -/
theorem tokens_of_row {t : ℕ × List Char} {ts : List (ℕ × List Char)}
    (h : Filled (MONTHS + 1) fs) (htokens : tokens 0 fs = t :: ts) :
    fs[0]? = some t.2 ∧ (∀ k < MONTHS, ts[k]? = fs[k + 1]?.map fun f => (k + 1, f))
      ∧ ts[MONTHS]? = (tokens (MONTHS + 1) (fs.drop (MONTHS + 1))).head? := by
  obtain ⟨hget, hdrop⟩ := tokens_of_filled (k := 0) h
  rw [htokens] at hget hdrop
  refine ⟨?_, fun k hk => ?_, ?_⟩
  · obtain ⟨f, -, hf⟩ := h 0 (Nat.succ_pos MONTHS)
    have hfirst := hget 0 (Nat.succ_pos MONTHS)
    rw [hf, List.getElem?_cons_zero] at hfirst
    rw [hf, Option.some.inj hfirst]
  · have hk' := hget (k + 1) (Nat.succ_lt_succ hk)
    rwa [List.getElem?_cons_succ, Nat.zero_add] at hk'
  · rw [← List.head?_drop]
    rw [List.drop_succ_cons, Nat.zero_add] at hdrop
    rw [hdrop]

/-- The row of a line that has its year and its months. -/
theorem row_of_rowOk (h : RowOk line) :
    ∃ r, row_of value absent months (tokens 0 (line.splitOn ',')) = some (some r)
      ∧ (∀ k : Fin MONTHS, ∃ f, (line.splitOn ',')[(k : ℕ) + 1]? = some f
        ∧ r.monthly k = value (k + 1, f))
      ∧ ((∃ f, (line.splitOn ',')[MONTHS + 1]? = some f ∧ r.annual = value (MONTHS + 1, f))
        ∨ (∀ f ∈ (line.splitOn ',').drop (MONTHS + 1), f = []) ∧ r.annual = absent) := by
  obtain ⟨hfilled, hannual, f₀, hf₀, hyear⟩ := h
  -- the line has a first field that is not empty, so it has a token
  cases htokens : tokens 0 (line.splitOn ',') with
  | nil =>
      obtain ⟨f, hne, hf⟩ := hfilled 0 (Nat.succ_pos MONTHS)
      exact absurd (tokens_eq_nil_iff.mp htokens f (List.mem_of_getElem? hf)) hne
  | cons t ts =>
      obtain ⟨hfirst, hmonths, hlast⟩ := tokens_of_row hfilled htokens
      obtain ⟨year, hyear⟩ := Option.isSome_iff_exists.mp hyear
      obtain rfl : f₀ = t.2 := Option.some.inj (hf₀.symm.trans hfirst)
      refine ⟨_, by rw [row_of, hyear, Option.map_some], fun k => ?_, ?_⟩
      -- the months: fields that are not empty are tokens of their own
      · obtain ⟨f, -, hf⟩ := hfilled (k + 1) (Nat.succ_lt_succ k.isLt)
        refine ⟨f, hf, ?_⟩
        dsimp only
        rw [hmonths k k.isLt, hf]
        rfl
      · dsimp only
        rw [hlast]
        -- the annual value is filled, or the line ends before it
        rcases hannual with ⟨f, hne, hf⟩ | hempty
        · left
          obtain ⟨rest, hrest⟩ : ∃ rest, (line.splitOn ',').drop (MONTHS + 1) = f :: rest :=
            List.head?_eq_some_iff.mp (by rw [List.head?_drop, hf])
          refine ⟨f, hf, ?_⟩
          rw [hrest, tokens_cons_of_ne_nil hne]
          rfl
        · right
          refine ⟨hempty, ?_⟩
          rw [tokens_eq_nil_iff.mpr hempty]
          rfl

/-- **A row whose values are from their own columns** is that of a line that has its year and
its months. -/
theorem rowOk_of_fromOwn {i : ℕ} {r : CsvRow Source} (hr : r.FromOwn i)
    (h : row_of (fun t => Source.field i t.1) .fallback (fun _ => .memory)
      (tokens 0 (line.splitOn ',')) = some (some r)) : RowOk line := by
  cases htokens : tokens 0 (line.splitOn ',') with
  | nil =>
      rw [htokens] at h
      cases h
  | cons t ts =>
      rw [htokens, row_of] at h
      obtain ⟨year, hyear, hrow⟩ := Option.map_eq_some_iff.mp h
      obtain rfl := Option.some.inj hrow
      -- December's token stands in its column, so no field before it is empty
      obtain ⟨f, hdecember⟩ : ∃ f, ts[11]? = some (12, f) := by
        have hsource := hr.monthly 11
        dsimp only at hsource
        cases htoken : ts[((11 : Fin MONTHS) : ℕ)]? with
        | none =>
            rw [htoken] at hsource
            cases hsource
        | some u =>
            rw [htoken] at hsource
            obtain ⟨k, f⟩ := u
            have hk : k = 12 := (Source.field.inj hsource).2
            exact ⟨f, hk ▸ htoken⟩
      have hfilled : Filled (MONTHS + 1) (line.splitOn ',') :=
        filled_of_tokens (k := 0) (n := MONTHS) (f := f) (by rw [htokens]; exact hdecember)
      obtain ⟨hfirst, -, hlast⟩ := tokens_of_row hfilled htokens
      refine ⟨hfilled, ?_, t.2, hfirst, by rw [hyear]; rfl⟩
      rw [← List.head?_drop]
      apply (head_tokens_iff (k := MONTHS + 1)).mp
      intro u hu
      rw [← hlast, Option.mem_def] at hu
      have hsource := hr.annual
      dsimp only at hsource
      rw [hu] at hsource
      rcases hsource with hfield | hfallback
      · exact (Source.field.inj hfield).2
      · cases hfallback

/-- The number in a field, read off the line with its newline. -/
theorem number_eq (h : line = chomp line ++ ['\n'] ∨ line = chomp line) (column : ℕ) :
    number line column = ((line.splitOn ',')[column]?).elim Double.zero CNumber.atof := by
  have hfield : ∀ o : Option (List Char), (match o with
      | none => Double.zero
      | some field => if field = [] then Double.zero else CNumber.atof field)
      = o.elim Double.zero CNumber.atof := by
    rintro (_ | field)
    · rfl
    · by_cases hfield : field = []
      · rw [hfield]
        rfl
      · exact if_neg hfield
  rw [number, hfield]
  rcases h with heq | heq
  · conv_rhs => rw [heq]
    -- the newline is part of one field at most, and `atof` does not see it
    have hrel := splitOn_newline (show ',' ≠ '\n' by decide) (chomp line)
    generalize (chomp line ++ ['\n']).splitOn ',' = fs' at hrel
    generalize (chomp line).splitOn ',' = fs at hrel
    induction hrel generalizing column with
    | nil => rfl
    | cons hhead _ ih =>
        cases column with
        | zero =>
            rcases hhead with rfl | rfl
            · rfl
            · exact (atof_append_newline _).symm
        | succ column => exact ih column
  · rw [← heq]

theorem hasNumbers_of_rowOk (hline : line = chomp line ++ ['\n'] ∨ line = chomp line)
    (h : RowOk line) (stack : ℕ → Double) :
    ∃ r, row_of (fun t => CNumber.atof t.2) Double.zero stack (tokens 0 (line.splitOn ','))
      = some (some r) ∧ r.record.HasNumbers line := by
  obtain ⟨r, hr, hmonthly, hannual⟩ := @row_of_rowOk _ (fun t => CNumber.atof t.2)
    Double.zero stack _ h
  refine ⟨r, hr, fun k => ?_, ?_⟩
  · obtain ⟨f, hf, hk⟩ := hmonthly k
    rw [number_eq hline, hf]
    exact hk
  · rw [number_eq hline]
    rcases hannual with ⟨f, hf, hannual⟩ | ⟨hempty, hannual⟩
    · rw [hf]
      exact hannual
    · cases hf : (line.splitOn ',')[MONTHS + 1]? with
      | none => exact hannual
      | some f =>
          have hmem : f ∈ (line.splitOn ',').drop (MONTHS + 1) :=
            List.mem_of_mem_head? (by rw [List.head?_drop, hf]; rfl)
          rw [hempty f hmem]
          exact hannual

theorem fromOwn_of_rowOk (h : RowOk line) (i : ℕ) :
    ∃ r, row_of (fun t => Source.field i t.1) .fallback (fun _ => .memory)
      (tokens 0 (line.splitOn ',')) = some (some r) ∧ r.FromOwn i := by
  obtain ⟨r, hr, hmonthly, hannual⟩ := @row_of_rowOk _ (fun t => Source.field i t.1)
    .fallback (fun _ => .memory) _ h
  refine ⟨r, hr, fun k => ?_, ?_⟩
  · obtain ⟨f, -, hk⟩ := hmonthly k
    exact hk
  · exact hannual.imp (fun ⟨_, _, hannual⟩ => hannual) fun h => h.2

end Columns

/-! ## The file -/

section File

variable {text : List Char}

section Run

variable {V : Type} {atof : ℕ → List Char → Pointer → V} {absent : V} {stack : ℕ → ℕ → V}

/-- The header is taken, and the loop goes over the rest. -/
theorem read_rows_eq (hne : text ≠ []) (htext : Readable text) :
    ∃ rest, Readable rest ∧ data_lines text = (lines rest).take (199 + 1)
      ∧ read_rows atof absent stack text
        = (loop (csv_body atof absent stack) ⟨rest, 0, []⟩).map some := by
  obtain ⟨header, ls, hlines⟩ :=
    List.exists_cons_of_ne_nil fun h => hne (lines_eq_nil_iff.mp h)
  obtain ⟨rest, hget, hrest, hreadable, -⟩ := htext.next hlines
  refine ⟨rest, hreadable, by rw [data_lines, hlines, hrest]; rfl, ?_⟩
  rw [read_rows, hget]
  dsimp only
  cases loop (csv_body atof absent stack) ⟨rest, 0, []⟩ with
  | none => rfl
  | some records => rfl

/-- One row for each data line, in the order of the file, when each line gives one. -/
theorem read_rows_spec {P : ℕ → List Char → CsvRow V → Prop} (hne : text ≠ [])
    (htext : Readable text)
    (hrow : ∀ line ∈ data_lines text, NUL ∉ line → ∀ i, ∃ r,
      read_row (atof i line) absent (stack i) line = some (some r) ∧ P i line r) :
    ∃ rows, read_rows atof absent stack text = some (some rows)
      ∧ Each P 0 (data_lines text) rows := by
  obtain ⟨rest, hreadable, hdata, hrun⟩ := read_rows_eq hne htext
  rw [hdata] at hrow ⊢
  obtain ⟨rows, hloop, heach⟩ := @csv_run V atof absent stack (lines rest) P 199 rest 0 []
    hreadable rfl rfl hrow
  exact ⟨rows, by rw [hrun, hloop]; rfl, heach⟩

/-- Where there is one for each, it is the row of that line. -/
theorem read_rows_inv {rows : List (CsvRow V)} (hne : text ≠ []) (htext : Readable text)
    (hskip : ∀ i line, NUL ∉ line → '\n' ∈ line →
      read_row (atof i line) absent (stack i) line ≠ some none)
    (hrows : read_rows atof absent stack text = some (some rows))
    (hlen : rows.length = (data_lines text).length) :
    Each (fun i line r => NUL ∉ line
      ∧ read_row (atof i line) absent (stack i) line = some (some r))
      0 (data_lines text) rows := by
  obtain ⟨rest, hreadable, hdata, hrun⟩ := read_rows_eq hne htext
  rw [hrun] at hrows
  obtain ⟨out, hloop, hout⟩ := Option.map_eq_some_iff.mp hrows
  cases hout
  rw [hdata] at hlen ⊢
  obtain ⟨rows', rfl, heach⟩ := @csv_run_inv V atof absent stack (lines rest) 199 hskip rest 0
    [] rows hreadable rfl rfl hloop
  exact heach hlen

end Run

theorem byColumn_of_rowOk (hne : text ≠ []) (htext : Readable text)
    (h : ∀ line ∈ data_lines text, RowOk line) : ByColumn text := by
  constructor
  -- the values: each line is read as its own fields say
  · intro stack
    obtain ⟨rows, hrun, heach⟩ := read_rows_spec (P := fun _ line r => r.record.HasNumbers line)
      hne htext fun line hline hnul i => by
        have hmem : line ∈ lines text := List.mem_of_mem_tail (List.mem_of_mem_take hline)
        obtain ⟨r, hr, hnumbers⟩ :=
          hasNumbers_of_rowOk (mem_lines_cases hmem) (h line hline) (stack i)
        exact ⟨r, (@read_row_eq _ _ (fun token => CNumber.atof token.string) _ _ _
          (fun _ => rfl) hnul).trans hr, hnumbers⟩
    refine ⟨rows.map CsvRow.record, ?_, ?_, ?_, fun i line r hline hr => ?_⟩
    · rw [readCSV, hrun]
      rfl
    · rw [List.length_map, heach.length_eq]
      exact List.length_take_le _ _
    · rw [List.length_map, heach.length_eq]
    · rw [List.getElem?_map] at hr
      obtain ⟨row, hrow, rfl⟩ := Option.map_eq_some_iff.mp hr
      exact heach.get hline hrow
  -- the origins: nothing is left from the stack or from the line before
  · obtain ⟨rows, hrun, heach⟩ := read_rows_spec (P := fun i _ r => r.FromOwn i) hne htext
      fun line hline hnul i => by
        obtain ⟨r, hr, hown⟩ := fromOwn_of_rowOk (h line hline) i
        exact ⟨r, (@read_row_eq _ _ (fun token => .field i (column ',' line token)) _ _ _
          (fun _ => rfl) hnul).trans hr, hown⟩
    refine ⟨rows, hrun, heach.length_eq, fun i r hr => ?_⟩
    have hlt : i < (data_lines text).length := by
      rw [← heach.length_eq]
      exact (List.getElem?_eq_some_iff.mp hr).1
    exact Nat.zero_add i ▸ heach.get (List.getElem?_eq_getElem hlt) hr

theorem rowOk_of_byColumn (hne : text ≠ []) (htext : Readable text) (h : ByColumn text) :
    ∀ line ∈ data_lines text, RowOk line := by
  obtain ⟨rows, hrun, hlen, hown⟩ := h.sources
  have heach := read_rows_inv hne htext
    (fun i line hnul hnewline => @read_row_ne_skip _ (fun t => Source.field i t.1) _ _ _ _
      (fun _ => rfl) hnul hnewline) hrun hlen
  intro line hline
  obtain ⟨j, r, hr, hnul, hrow⟩ := heach.exists_of_mem hline
  rw [Nat.zero_add] at hrow
  rw [@read_row_eq _ (fun t => Source.field j t.1) _ _ _ _ (fun _ => rfl) hnul] at hrow
  exact rowOk_of_fromOwn (hown j r hr) hrow

end File

/-- **The rows are read column by column exactly when every line has its months**, in fields
that are not empty. -/
theorem byColumn_iff {text : List Char} (hne : text ≠ []) (hnul : NUL ∉ text)
    (hshort : ∀ line ∈ lines text, (chomp line).length < 1023) :
    ByColumn text ↔ ∀ line ∈ data_lines text, RowOk line :=
  ⟨rowOk_of_byColumn hne ⟨hnul, hshort⟩, byColumn_of_rowOk hne ⟨hnul, hshort⟩⟩

/-- A header and one line, with these fields. -/
def csv (fields : List (List Char)) : List Char :=
  ['Y', 'E', 'A', 'R', '\n'] ++ [','].intercalate fields ++ ['\n']

theorem byColumn_iff_full :
    ByColumn (csv (['1', '9', '0', '1'] :: List.replicate 13 ['9', '.', '3']))
      ↔ ∀ line ∈ data_lines (csv (['1', '9', '0', '1'] :: List.replicate 13 ['9', '.', '3'])),
        RowOk line :=
  byColumn_iff (by decide) (by decide) (by decide)

/-- A line whose second month is empty. -/
theorem not_byColumn :
    ¬ ByColumn (csv (['1', '9', '0', '1'] :: ['9', '.', '3'] :: []
      :: List.replicate 11 ['9', '.', '3'])) := by
  intro h
  have hrow := rowOk_of_byColumn (by decide) ⟨by decide, by decide⟩ h _ List.mem_cons_self
  obtain ⟨f, hne, hf⟩ := hrow.months 2 (by decide)
  exact hne (Option.some.inj (hf.symm.trans rfl))

end CourseLabs.Rainfall
