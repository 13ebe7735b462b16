/-
**Text as the C library reads it**: lines by `fgets`, and the tokens of a line by `strtok`.

`fgets` takes one line at a time as long as the lines fit (`fgets_lines`). `strtok` passes
over delimiters before a token, so it never sees an empty field: what the calls on a line
give, one after the other, are the fields that are not empty, each with the column it really
stands in (`tokens`).
-/
import CourseLabs.CMem

set_option autoImplicit false

namespace CourseLabs.CText

open CourseLabs.CMem

/-! ## Lines -/

/-- What `fgets` takes from a file: up to a newline, and at most `n` characters. -/
def take_line : ℕ → List Char → List Char × List Char
  | 0, fp => ([], fp)
  | _ + 1, [] => ([], [])
  | n + 1, c :: fp =>
    if c = '\n' then
      (['\n'], fp)
    else
      let (line, fp) := take_line n fp
      (c :: line, fp)

/-- `fgets` into an array of `size` cells, with what is left of the file. -/
def fgets (size : ℕ) (fp : List Char) : Option (List Char × List Char) :=
  if fp = [] then none else some (take_line (size - 1) fp)

/-- The lines of a file, with their newlines. Only the last one may be without. -/
def lines : List Char → List (List Char)
  | [] => []
  | c :: fp =>
    if c = '\n' then
      ['\n'] :: lines fp
    else
      match lines fp with
      | [] => [[c]]
      | l :: ls => (c :: l) :: ls

/-- A line without its newline: what stands before the first one. -/
def chomp (l : List Char) : List Char :=
  l.takeWhile (fun c => c ≠ '\n')

section Lines

variable {fp l : List Char} {ls : List (List Char)}

/-- An empty file has no lines. -/
theorem lines_eq_nil_iff : lines fp = [] ↔ fp = [] := by
  cases fp with
  | nil => exact iff_of_true rfl rfl
  | cons c fp =>
      refine iff_of_false ?_ (List.cons_ne_nil c fp)
      rw [lines]
      split
      · exact List.cons_ne_nil _ _
      · split
        · exact List.cons_ne_nil _ _
        · exact List.cons_ne_nil _ _

/-- The lines of a file, put together again, are the file. -/
theorem flatten_lines (fp : List Char) : (lines fp).flatten = fp := by
  induction fp with
  | nil => rfl
  | cons c fp ih =>
      rw [lines]
      split
      · next hc => rw [List.flatten_cons, ih, hc, List.singleton_append]
      · split
        · next hls =>
          rw [lines_eq_nil_iff.mp hls]
          rfl
        · next hls =>
          rw [hls, List.flatten_cons] at ih
          rw [List.flatten_cons, List.cons_append, ih]

/-- A line ends in a newline, or it is the last one. -/
theorem line_cases (h : lines fp = l :: ls) :
    l = chomp l ++ ['\n'] ∨ l = chomp l ∧ l ≠ [] ∧ ls = [] := by
  induction fp generalizing l ls with
  | nil => cases h
  | cons c fp ih =>
      rw [lines] at h
      split at h
      · obtain ⟨rfl, rfl⟩ := List.cons.inj h
        exact Or.inl rfl
      · next hc =>
        have hchomp : ∀ l, chomp (c :: l) = c :: chomp l := fun l =>
          List.takeWhile_cons_of_pos (by simpa using hc)
        -- nothing follows the character, or the rest of its line does
        cases hls : lines fp with
        | nil =>
            rw [hls] at h
            obtain ⟨rfl, rfl⟩ := List.cons.inj h
            exact Or.inr ⟨(hchomp []).symm, List.cons_ne_nil _ _, rfl⟩
        | cons l' ls' =>
            rw [hls] at h
            obtain ⟨rfl, rfl⟩ := List.cons.inj h
            rw [hchomp]
            rcases ih hls with heq | ⟨heq, -, rfl⟩
            · exact Or.inl (congrArg (c :: ·) heq)
            · exact Or.inr ⟨congrArg (c :: ·) heq, List.cons_ne_nil _ _, rfl⟩

/-- A line of a file is not empty: its line end is part of it. -/
theorem line_ne_nil (h : lines fp = l :: ls) : l ≠ [] := by
  rcases line_cases h with heq | ⟨-, hne, -⟩
  · rw [heq]
    exact List.append_ne_nil_of_right_ne_nil _ (List.cons_ne_nil _ _)
  · exact hne

/-- What `fgets` reads is the next line, if the array has room for it. -/
theorem take_line_spec {n : ℕ} (h : lines fp = l :: ls) (hlen : l.length ≤ n) :
    ∃ rest, take_line n fp = (l, rest) ∧ lines rest = ls := by
  induction fp generalizing n l ls with
  | nil => cases h
  | cons c fp ih =>
      have hne : l ≠ [] := line_ne_nil h
      rw [lines] at h
      -- an array of one cell holds no character, and the line has one
      cases n with
      | zero => exact absurd (List.length_eq_zero_iff.mp (Nat.le_zero.mp hlen)) hne
      | succ n =>
          rw [take_line]
          split at h
          -- the line ends here
          · next hc =>
            obtain ⟨rfl, rfl⟩ := List.cons.inj h
            exact ⟨fp, if_pos hc, rfl⟩
          · next hc =>
            rw [if_neg hc]
            -- the character is the last of the file
            cases hls : lines fp with
            | nil =>
                rw [hls] at h
                obtain ⟨rfl, rfl⟩ := List.cons.inj h
                obtain rfl := lines_eq_nil_iff.mp hls
                cases n with
                | zero => exact ⟨[], rfl, rfl⟩
                | succ n => exact ⟨[], rfl, rfl⟩
            | cons l' ls' =>
                rw [hls] at h
                obtain ⟨rfl, rfl⟩ := List.cons.inj h
                obtain ⟨rest, htake, hrest⟩ := ih hls (Nat.le_of_succ_le_succ hlen)
                exact ⟨rest, by rw [htake], hrest⟩

/-- The first line of a file, with its newline; the lines behind it are those of the rest. -/
theorem lines_line (h : '\n' ∉ l) (rest : List Char) :
    lines (l ++ '\n' :: rest) = (l ++ ['\n']) :: lines rest := by
  induction l with
  | nil => exact if_pos rfl
  | cons c l ih =>
      have hc : c ≠ '\n' := fun heq => h (heq ▸ List.mem_cons_self)
      rw [List.cons_append, lines, if_neg hc, ih fun hmem => h (List.mem_cons_of_mem c hmem)]
      rfl

/-- The line end is taken off, and the line has no other. -/
theorem chomp_line (h : '\n' ∉ l) : chomp (l ++ ['\n']) = l := by
  have hall : ∀ c ∈ l, decide (c ≠ '\n') = true := fun c hc => by
    simpa using fun heq : c = '\n' => h (heq ▸ hc)
  rw [chomp, List.takeWhile_append_of_pos hall, List.takeWhile_cons_of_neg (by simp),
    List.append_nil]

/-- Any line of the file. -/
theorem mem_lines_cases {fp : List Char} (h : l ∈ lines fp) :
    l = chomp l ++ ['\n'] ∨ l = chomp l := by
  generalize hls : lines fp = ls at h
  induction ls generalizing fp with
  | nil => exact absurd h List.not_mem_nil
  | cons l' ls ih =>
      rcases List.mem_cons.mp h with rfl | h
      · exact (line_cases hls).imp_right fun hlast => hlast.1
      · obtain ⟨rest, -, hrest⟩ := take_line_spec hls (Nat.le_refl l'.length)
        exact ih hrest h

/-- **`fgets` takes the next line**, when it fits: the array has room for it, its newline and the
NUL. -/
theorem fgets_lines {size : ℕ} (h : lines fp = l :: ls) (hlen : (chomp l).length + 1 < size) :
    ∃ rest, fgets size fp = some (l, rest) ∧ lines rest = ls := by
  have hfits : l.length ≤ size - 1 := by
    rcases line_cases h with heq | ⟨heq, -, -⟩
    · rw [heq, List.length_append, List.length_singleton]
      omega
    · rw [heq]
      omega
  obtain ⟨rest, htake, hrest⟩ := take_line_spec h hfits
  refine ⟨rest, ?_, hrest⟩
  rw [fgets, if_neg, htake]
  rintro rfl
  cases h

/-- Whatever the lines are, `fgets` takes a piece of the file that the array holds. -/
theorem fgets_spec {size : ℕ} {line rest : List Char} (h : fgets size fp = some (line, rest)) :
    line ++ rest = fp ∧ line.length ≤ size - 1 ∧ (1 < size → line ≠ []) := by
  rw [fgets] at h
  split_ifs at h with hfp
  -- whatever the bound is, what was taken and what is left make up the file
  have htake : ∀ n fp, (take_line n fp).1 ++ (take_line n fp).2 = fp
      ∧ (take_line n fp).1.length ≤ n := by
    intro n
    induction n with
    | zero => exact fun fp => ⟨rfl, le_refl 0⟩
    | succ n ih =>
        intro fp
        cases fp with
        | nil => exact ⟨rfl, Nat.zero_le _⟩
        | cons c fp =>
            rw [take_line]
            split_ifs with hc
            · exact ⟨by rw [hc]; rfl, by simp⟩
            · obtain ⟨happend, hlen⟩ := ih fp
              exact ⟨congrArg (c :: ·) happend, Nat.succ_le_succ hlen⟩
  obtain ⟨happend, hlen⟩ := htake (size - 1) fp
  rw [Option.some.inj h] at happend hlen
  refine ⟨happend, hlen, fun hsize hnil => ?_⟩
  obtain ⟨n, hn⟩ := Nat.exists_eq_add_of_lt hsize
  obtain ⟨c, fp', rfl⟩ := List.exists_cons_of_ne_nil hfp
  -- with room for one character at least one is taken
  have hcons : (take_line (size - 1) (c :: fp')).1 ≠ [] := by
    rw [show size - 1 = n + 1 by omega, take_line]
    split_ifs
    · exact List.cons_ne_nil _ _
    · exact List.cons_ne_nil _ _
  rw [Option.some.inj h] at hcons
  exact hcons hnil

end Lines

/-! ## Tokens -/

/-- A pointer into a line: how far it is from the start, and the string it points to. -/
structure Pointer where
  offset : ℕ
  string : List Char

/-- `strtok` from the pointer it has kept, with the pointer it keeps now. The delimiter behind
the token becomes its `NUL`. -/
def strtok (delim : Char) (p : Pointer) : Option Pointer × Pointer :=
  let start := p.offset + (p.string.takeWhile (fun c => c = delim)).length
  let s := p.string.dropWhile (fun c => c = delim)
  let token := s.takeWhile (fun c => c ≠ delim)
  if s = [] then
    (none, ⟨start, []⟩)
  else
    match s.dropWhile (fun c => c ≠ delim) with
    | [] => (some ⟨start, token⟩, ⟨start + token.length, []⟩)
    | _ :: rest => (some ⟨start, token⟩, ⟨start + token.length + 1, rest⟩)

/-- The column of the line `s` that a pointer points into. -/
def column (delim : Char) (s : List Char) (p : Pointer) : ℕ :=
  (s.take p.offset).count delim

/-- The fields that are not empty, from column `k` on, each with its column. -/
def tokens : ℕ → List (List Char) → List (ℕ × List Char)
  | _, [] => []
  | k, f :: fs => if f = [] then tokens (k + 1) fs else (k, f) :: tokens (k + 1) fs

/-- The calls of `strtok` from `p` on will give the tokens `ts` of the line `s`. -/
structure Ahead (delim : Char) (s : List Char) (p : Pointer) (ts : List (ℕ × List Char)) :
    Prop where
  split : ∃ pre, s = pre ++ p.string ∧ p.offset = pre.length
    ∧ ts = tokens (pre.count delim) (p.string.splitOn delim)

section Tokens

variable {delim : Char} {s : List Char} {p : Pointer} {ts : List (ℕ × List Char)}

/-- Before the first call of `strtok` all tokens of the string are ahead. -/
theorem Ahead.start (delim : Char) (s : List Char) :
    Ahead delim s ⟨0, s⟩ (tokens 0 (s.splitOn delim)) :=
  ⟨[], rfl, rfl, rfl⟩

/-- A delimiter at the pointer is passed over, and so is every further one: this is how empty
fields are lost. -/
theorem strtok_delim (delim : Char) (offset : ℕ) (s : List Char) :
    strtok delim ⟨offset, delim :: s⟩ = strtok delim ⟨offset + 1, s⟩ := by
  have htake : (delim :: s).takeWhile (fun c => c = delim)
      = delim :: s.takeWhile (fun c => c = delim) := List.takeWhile_cons_of_pos (by simp)
  have hdrop : (delim :: s).dropWhile (fun c => c = delim)
      = s.dropWhile (fun c => c = delim) := List.dropWhile_cons_of_pos (by simp)
  unfold strtok
  rw [htake, hdrop, List.length_cons, show offset + ((s.takeWhile fun c => c = delim).length + 1)
    = offset + 1 + (s.takeWhile fun c => c = delim).length by omega]

/-- At the end of the string `strtok` returns the null pointer, and stays there. -/
theorem strtok_nil (delim : Char) (offset : ℕ) :
    strtok delim ⟨offset, []⟩ = (none, ⟨offset, []⟩) :=
  rfl

/-- A token at the pointer is taken, up to the end of the line or to the next delimiter, which is
used up. -/
theorem strtok_token {f : List Char} (hf : f ≠ []) (hdelim : delim ∉ f) (offset : ℕ) :
    strtok delim ⟨offset, f⟩ = (some ⟨offset, f⟩, ⟨offset + f.length, []⟩)
      ∧ ∀ rest, strtok delim ⟨offset, f ++ delim :: rest⟩
        = (some ⟨offset, f⟩, ⟨offset + f.length + 1, rest⟩) := by
  obtain ⟨c, f', rfl⟩ := List.exists_cons_of_ne_nil hf
  have hc : c ≠ delim := fun h => hdelim (h ▸ List.mem_cons_self)
  have hall : ∀ x ∈ c :: f', decide (x ≠ delim) = true := fun x hx => by
    simpa using fun h : x = delim => hdelim (h ▸ hx)
  -- no delimiter is in front, so nothing is skipped
  have hskip : ∀ t, ((c :: f') ++ t).takeWhile (fun c => c = delim) = []
      ∧ ((c :: f') ++ t).dropWhile (fun c => c = delim) = (c :: f') ++ t := fun t =>
    ⟨List.takeWhile_cons_of_neg (by simpa using hc), List.dropWhile_cons_of_neg (by simpa using hc)⟩
  -- the token goes to the end of the string, or to the delimiter
  constructor
  · obtain ⟨htake, hdrop⟩ := hskip []
    rw [List.append_nil] at htake hdrop
    unfold strtok
    rw [htake, hdrop, if_neg hf, List.takeWhile_eq_self_iff.mpr hall,
      List.dropWhile_eq_nil_iff.mpr hall]
    rfl
  · intro rest
    obtain ⟨htake, hdrop⟩ := hskip (delim :: rest)
    unfold strtok
    rw [htake, hdrop, if_neg (by simp), List.takeWhile_append_of_pos hall,
      List.dropWhile_append_of_pos hall, List.takeWhile_cons_of_neg (by simp),
      List.dropWhile_cons_of_neg (by simp), List.append_nil]
    rfl

/-- **One call of `strtok`**: it takes the next token that is not empty. -/
theorem strtok_spec (h : Ahead delim s p ts) :
    (ts = [] ∧ ∃ p', strtok delim p = (none, p') ∧ Ahead delim s p' [])
      ∨ ∃ k f ts' token p', ts = (k, f) :: ts' ∧ strtok delim p = (some token, p')
        ∧ token.string = f ∧ column delim s token = k ∧ Ahead delim s p' ts' := by
  obtain ⟨offset, string⟩ := p
  obtain ⟨pre, hs, hoffset, hts⟩ := h.split
  clear h
  dsimp only at hs hoffset hts
  induction string generalizing offset pre with
  | nil => exact Or.inl ⟨hts, _, strtok_nil delim offset, pre, hs, hoffset, rfl⟩
  | cons c string ih =>
      by_cases hc : c = delim
      · -- an empty field: the next one starts behind the delimiter
        subst hc
        rw [strtok_delim]
        apply ih (offset + 1) (pre ++ [c])
        · rw [hs, List.append_assoc, List.singleton_append]
        · rw [hoffset, List.length_append, List.length_singleton]
        · rw [hts, List.splitOn_cons_eq_if_modifyHead, if_pos (beq_self_eq_true c), tokens,
            if_pos rfl, List.count_append, List.count_singleton_self]
      · right
        have htake : s.take offset = pre := by rw [hs, hoffset, List.take_left]
        by_cases hmem : delim ∈ c :: string
        · obtain ⟨f, rest, hf, hdelim⟩ := List.eq_append_cons_of_mem hmem
          have hne : f ≠ [] := by
            rintro rfl
            exact hc (List.cons.inj hf).1
          rw [hf] at hs hts ⊢
          rw [List.splitOn_append_cons_self_of_not_mem hdelim, tokens, if_neg hne] at hts
          refine ⟨_, f, _, _, _, hts, (strtok_token hne hdelim offset).2 rest, rfl, ?_, ?_⟩
          · rw [column, htake]
          · refine ⟨pre ++ f ++ [delim], ?_, ?_, ?_⟩
            · simp [hs]
            · simp [hoffset, Nat.add_assoc]
            · rw [List.count_append, List.count_append, List.count_eq_zero_of_not_mem hdelim,
                List.count_singleton_self]
        · rw [List.splitOn_eq_singleton hmem, tokens, if_neg (List.cons_ne_nil c string)] at hts
          refine ⟨_, _, _, _, _, hts, (strtok_token (List.cons_ne_nil c string) hmem offset).1, rfl,
            ?_, ?_⟩
          · rw [column, htake]
          · exact ⟨pre ++ c :: string, by rw [hs, List.append_nil],
              by rw [hoffset, List.length_append], rfl⟩

end Tokens

/-! ## Fields and tokens -/

section Fields

variable {delim : Char} {s f : List Char} {fs : List (List Char)} {k n : ℕ}

/-- The first `n` fields are there, and none of them is empty. -/
def Filled (n : ℕ) (fs : List (List Char)) : Prop :=
  ∀ i < n, ∃ f, f ≠ [] ∧ fs[i]? = some f

/-- A line of filled fields has a first one that is filled. -/
theorem Filled.of_cons (h : Filled (n + 1) (f :: fs)) : f ≠ [] ∧ Filled n fs := by
  constructor
  · obtain ⟨g, hg, hfirst⟩ := h 0 (Nat.succ_pos n)
    rw [List.getElem?_cons_zero] at hfirst
    exact Option.some.inj hfirst ▸ hg
  · intro i hi
    simpa using h (i + 1) (Nat.succ_lt_succ hi)

/-- A filled field in front of filled ones. -/
theorem Filled.cons (hf : f ≠ []) (h : Filled n fs) : Filled (n + 1) (f :: fs) := by
  intro i hi
  cases i with
  | zero => exact ⟨f, hf, rfl⟩
  | succ i =>
      rw [List.getElem?_cons_succ]
      exact h i (Nat.lt_of_succ_lt_succ hi)

/-- A field that is not empty is the next token. The empty ones are what `strtok` runs over, so
that columns after them move up. -/
theorem tokens_cons_of_ne_nil (hf : f ≠ []) : tokens k (f :: fs) = (k, f) :: tokens (k + 1) fs := by
  rw [tokens, if_neg hf]

/-- Filled fields are tokens in their own columns, as long as none in front of them is empty. -/
theorem tokens_of_filled (h : Filled n fs) :
    (∀ i < n, (tokens k fs)[i]? = fs[i]?.map fun f => (k + i, f))
      ∧ (tokens k fs).drop n = tokens (k + n) (fs.drop n) := by
  induction n generalizing k fs with
  | zero => exact ⟨fun i hi => absurd hi (Nat.not_lt_zero i), rfl⟩
  | succ n ih =>
      -- the first field is filled, and the others are one column further
      cases fs with
      | nil =>
          obtain ⟨f, -, hf⟩ := h 0 (Nat.succ_pos n)
          cases hf
      | cons f fs =>
          obtain ⟨hf, hrest⟩ := h.of_cons
          obtain ⟨htokens, hdrop⟩ := ih (k := k + 1) hrest
          rw [tokens_cons_of_ne_nil hf]
          constructor
          · intro i hi
            cases i with
            | zero => rfl
            | succ i =>
                rw [List.getElem?_cons_succ, List.getElem?_cons_succ,
                  htokens i (Nat.lt_of_succ_lt_succ hi), Nat.add_right_comm, Nat.add_assoc]
          · rw [List.drop_succ_cons, List.drop_succ_cons, hdrop, Nat.add_right_comm, Nat.add_assoc]

/-- No token stands before its place in the order: empty fields can only move a value towards the
front. -/
theorem le_column {col : ℕ} (h : (tokens k fs)[n]? = some (col, f)) : k + n ≤ col := by
  induction fs generalizing k n with
  | nil => cases h
  | cons g fs ih =>
      rw [tokens] at h
      split at h
      · have hle := ih h
        omega
      · cases n with
        | zero =>
            obtain ⟨rfl, -⟩ := Prod.mk.inj (Option.some.inj h)
            exact Nat.le_refl k
        | succ n =>
            rw [List.getElem?_cons_succ] at h
            have hle := ih h
            omega

/-- **A token in its own column** has nothing but filled fields before it. -/
theorem filled_of_tokens (h : (tokens k fs)[n]? = some (k + n, f)) : Filled (n + 1) fs := by
  induction fs generalizing k n with
  | nil => cases h
  | cons g fs ih =>
      by_cases hg : g = []
      · rw [tokens, if_pos hg] at h
        have hle := le_column h
        omega
      · rw [tokens_cons_of_ne_nil hg] at h
        refine Filled.cons hg ?_
        cases n with
        | zero => exact fun i hi => absurd hi (Nat.not_lt_zero i)
        | succ n =>
            rw [List.getElem?_cons_succ, Nat.add_comm n 1, ← Nat.add_assoc] at h
            exact ih h

/-- Where all fields are empty, `strtok` finds no token at all. -/
theorem tokens_eq_nil_iff : tokens k fs = [] ↔ ∀ f ∈ fs, f = [] := by
  induction fs generalizing k with
  | nil => exact iff_of_true rfl fun f hf => absurd hf List.not_mem_nil
  | cons g fs ih =>
      rw [tokens, List.forall_mem_cons]
      by_cases hg : g = []
      · rw [if_pos hg, ih, and_iff_right hg]
      · rw [if_neg hg]
        exact iff_of_false (List.cons_ne_nil _ _) fun h => hg h.1

/-- The first token is in column `k`, if there is one. -/
theorem head_tokens_iff :
    (∀ t ∈ (tokens k fs).head?, t.1 = k)
      ↔ (∃ f, f ≠ [] ∧ fs.head? = some f) ∨ ∀ f ∈ fs, f = [] := by
  cases fs with
  | nil =>
      exact iff_of_true (fun t ht => by cases ht) (Or.inr fun f hf => absurd hf List.not_mem_nil)
  | cons g fs =>
      by_cases hg : g = []
      · have hleft : ¬ ∃ f, f ≠ [] ∧ (g :: fs).head? = some f := by
          rintro ⟨f, hf, hhead⟩
          exact hf ((Option.some.inj hhead).symm.trans hg)
        rw [or_iff_right hleft, List.forall_mem_cons, and_iff_right hg,
          ← tokens_eq_nil_iff (k := k + 1), tokens, if_pos hg]
        cases htokens : tokens (k + 1) fs with
        | nil => exact iff_of_true (fun t ht => by cases ht) rfl
        | cons t ts =>
            -- a token of a later column
            have hle : k + 1 + 0 ≤ t.1 := le_column (by rw [htokens]; rfl)
            refine iff_of_false (fun h => ?_) (List.cons_ne_nil t ts)
            have heq := h t rfl
            omega
      · rw [tokens_cons_of_ne_nil hg]
        refine iff_of_true (fun t ht => ?_) (Or.inl ⟨g, hg, rfl⟩)
        cases ht
        rfl

/-- A character joins the field behind it. -/
theorem splitOn_cons_of_ne {c : Char} (hc : c ≠ delim) (s : List Char) :
    ∃ f fs, s.splitOn delim = f :: fs ∧ (c :: s).splitOn delim = (c :: f) :: fs := by
  obtain ⟨f, fs, hs⟩ := List.exists_cons_of_ne_nil (List.splitOn_ne_nil delim s)
  refine ⟨f, fs, hs, ?_⟩
  rw [List.splitOn_cons_eq_if_modifyHead, if_neg (by simpa using hc), hs]
  rfl

/-- A character that is no delimiter is in one of the fields. -/
theorem exists_mem_splitOn {c : Char} (hmem : c ∈ s) (hc : c ≠ delim) :
    ∃ f ∈ s.splitOn delim, c ∈ f := by
  induction s with
  | nil => exact absurd hmem List.not_mem_nil
  | cons x s ih =>
      by_cases hx : x = delim
      · rw [hx, List.splitOn_cons_eq_if_modifyHead, if_pos (beq_self_eq_true delim)]
        obtain ⟨f, hf, hcf⟩ := ih ((List.mem_cons.mp hmem).resolve_left fun h => hc (h.trans hx))
        exact ⟨f, List.mem_cons_of_mem _ hf, hcf⟩
      · obtain ⟨f, fs, hs, hcons⟩ := splitOn_cons_of_ne hx s
        rw [hs] at ih
        rw [hcons]
        rcases List.mem_cons.mp hmem with rfl | hmem
        · exact ⟨c :: f, List.mem_cons_self, List.mem_cons_self⟩
        · obtain ⟨g, hg, hcg⟩ := ih hmem
          rcases List.mem_cons.mp hg with rfl | hg
          · exact ⟨x :: g, List.mem_cons_self, List.mem_cons_of_mem x hcg⟩
          · exact ⟨g, List.mem_cons_of_mem _ hg, hcg⟩

/-- The newline of a line is in its last field. -/
theorem splitOn_newline (hdelim : delim ≠ '\n') (l : List Char) :
    List.Forall₂ (fun f' f => f' = f ∨ f' = f ++ ['\n']) ((l ++ ['\n']).splitOn delim)
      (l.splitOn delim) := by
  induction l with
  | nil =>
      rw [List.nil_append, List.splitOn_eq_singleton (by simpa using hdelim), List.splitOn_nil]
      exact .cons (Or.inr rfl) .nil
  | cons c l ih =>
      rw [List.cons_append]
      -- a delimiter begins a field, and the line end stays in the last one
      by_cases hc : c = delim
      · rw [List.splitOn_cons_eq_if_modifyHead, List.splitOn_cons_eq_if_modifyHead,
          if_pos (beq_iff_eq.mpr hc), if_pos (beq_iff_eq.mpr hc)]
        exact .cons (Or.inl rfl) ih
      · obtain ⟨f', fs', hs', hcons'⟩ := splitOn_cons_of_ne hc (l ++ ['\n'])
        obtain ⟨f, fs, hs, hcons⟩ := splitOn_cons_of_ne hc l
        rw [hs', hs] at ih
        rw [hcons', hcons]
        obtain ⟨hhead, htail⟩ := List.forall₂_cons.mp ih
        refine .cons ?_ htail
        rcases hhead with rfl | rfl
        · exact Or.inl rfl
        · exact Or.inr rfl

end Fields

end CourseLabs.CText
