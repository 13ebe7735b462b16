/-
`proxy_server.c`: from the bytes of a request to the file that is opened.

`client_handler` calls `recv` once. What it takes for the request is the first segment of
the stream, up to a `NUL`; the name in it is the word behind `GET`, or all of it when there
is no such word, and `sanitize_filename` keeps what stands behind the last slash. All this is
one function of the bytes, `file_of` (`client_handler_spec`).

Two consequences. The name is always free of slashes and blanks and short, but it may be
empty, `.` or `..` (`confined_iff`). And when the line comes in pieces, the handler looks up
the same file as for the whole line only if the first piece is long enough, apart from a few
coincidences (`same_file_iff`).
-/
import CourseLabs.CMem
import Mathlib.Tactic.IntervalCases

set_option autoImplicit false

namespace CourseLabs.Proxy

open CourseLabs.CMem

/-! ## The program -/

/-- `"proxy_files"`, the directory every name is looked up in. -/
def PROXY_DIR : List Char :=
  ['p', 'r', 'o', 'x', 'y', '_', 'f', 'i', 'l', 'e', 's']

/-- The size of `recv_buffer`. `recv` is asked for one byte less, so that the NUL behind the
request fits. -/
def BUFFER_SIZE : ℕ := 4096

/-- The size of `req_file` and `raw_name`, their NUL included. Longer names are cut, not refused.
-/
def MAX_FILENAME_LEN : ℕ := 256

/-- What a successful `recv` returns: at least one byte, and at most as many as leave room for the
NUL. -/
structure Segment where
  bytes : List Char
  pos : 1 ≤ bytes.length
  le_max : bytes.length ≤ BUFFER_SIZE - 1

/-- The local arrays of `client_handler`, as they are before it writes to them. The last
stands for `header` and `err_msg`. -/
structure Locals where
  req_file : List Char
  raw_name : List Char
  file_path : List Char
  message : List Char
  req_file_size : req_file.length = MAX_FILENAME_LEN
  raw_name_size : raw_name.length = MAX_FILENAME_LEN
  file_path_size : file_path.length = 512
  message_size : message.length = BUFFER_SIZE

/-- What the handler has done: the two strings, and the bytes it has sent. -/
structure Answer where
  req_file : List Char
  file_path : List Char
  sent : List Char

/-- The word that `"GET %255s"` reads off a string, if there is one. The blank in the format
takes any white space, or none. -/
def get_word : List Char → Option (List Char)
  | 'G' :: 'E' :: 'T' :: s =>
    match (s.dropWhile isspace).takeWhile fun c => !isspace c with
    | [] => none
    | c :: word => some ((c :: word).take 255)
  | _ => none

/-- `sscanf(recv_buffer, "GET %255s", raw_name)`: whether it returns `1`, and `raw_name`. -/
def sscanf_get (recv_buffer raw_name : List Char) : Option (Bool × List Char) :=
  match get_word (cstr recv_buffer) with
  | none => some (false, raw_name)
  | some word => do some (true, ← strcpy raw_name word)

/-- `sanitize_filename`: what stands behind the last slash of `src`, copied with `strncpy`, ended
by hand in the last cell, and cut at the first line end or blank. -/
def sanitize_filename (dest src : List Char) (max_len : ℕ) : Option (List Char) := do
  let clean_name :=
    match strrchr src '/' with
    | some last_slash => last_slash.drop 1
    | none => src
  let dest ← strncpy dest clean_name (max_len - 1)
  let dest ← store dest (max_len - 1) NUL
  store dest (strcspn dest ['\r', '\n', ' ']) NUL

/-- The header of an answer with status `200`. It repeats the cleaned name, and the contents of the
file come behind it. -/
def ok_header (req_file : List Char) : List Char :=
  "STATUS: 200 OK (Served from Proxy Copy)\nFILE: ".toList ++ req_file
    ++ "\n----------------------------------------\n".toList

/-- The answer with status `404`. -/
def not_found (req_file : List Char) : List Char :=
  "STATUS: 404 NOT FOUND\nERROR: \"".toList ++ req_file
    ++ "\" not found in proxy copy.\nDesignated available proxy files: file1.txt, file2.txt\n".toList

/-- `client_handler`, with the results of `recv` one after the other; `fopen` gives the
contents of a file that can be opened. Nothing is answered if `recv` returns no bytes. -/
def client_handler (fopen : List Char → Option (List Char)) (v : Locals) (recv : List Segment) :
    Option (Option Answer) :=
  match recv with
  | [] => some none
  | segment :: _ => do
    let recv_buffer :=
      segment.bytes ++ List.replicate (BUFFER_SIZE - segment.bytes.length) NUL
    let recv_buffer ← store recv_buffer segment.bytes.length NUL
    let (found, raw_name) ← sscanf_get recv_buffer v.raw_name
    let req_file ← sanitize_filename v.req_file (if found then raw_name else recv_buffer)
      MAX_FILENAME_LEN
    let file_path := snprintf v.file_path (PROXY_DIR ++ '/' :: cstr req_file)
    let sent :=
      match fopen (cstr file_path) with
      | some contents => cstr (snprintf v.message (ok_header (cstr req_file))) ++ contents
      | none => cstr (snprintf v.message (not_found (cstr req_file)))
    some (some { req_file := cstr req_file, file_path := cstr file_path, sent })

/-! ## The name in a request -/

/-- What stands behind the last slash, and the whole string where there is none. -/
def basename : List Char → List Char
  | [] => []
  | c :: s => if '/' ∈ s then basename s else if c = '/' then s else c :: s

/-- What `sanitize_filename` is given of a request: the word behind `GET `, or all that came if it
does not start so. -/
def requested (s : List Char) : List Char :=
  (get_word s).getD s

/-- The name that is kept of a string: behind the last slash, cut to the array, and up to the first
space or line end. -/
def clean (s : List Char) : List Char :=
  ((basename s).take 255).takeWhile fun c => c ∉ ['\r', '\n', ' ']

/-- The file a segment asks for, by the string it holds: bytes behind a `NUL` are not seen. -/
def file_of (bytes : List Char) : List Char :=
  clean (requested (cstr bytes))

section Strings

variable {s : List Char}

/-- A name without a slash is its own last component, as `strrchr` then finds nothing. -/
theorem basename_of_not_mem (h : '/' ∉ s) : basename s = s := by
  cases s with
  | nil => rfl
  | cons c s =>
      rw [List.mem_cons, not_or] at h
      rw [basename, if_neg h.2, if_neg (Ne.symm h.1)]

/-- The last component has no slash. This is why a request cannot name another directory, whatever
it begins with. -/
theorem slash_not_mem_basename (s : List Char) : '/' ∉ basename s := by
  induction s with
  | nil => exact List.not_mem_nil
  | cons c s ih =>
      rw [basename]
      by_cases hs : '/' ∈ s
      · rwa [if_pos hs]
      · rw [if_neg hs]
        by_cases hc : c = '/'
        · rwa [if_pos hc]
        · rw [if_neg hc, List.mem_cons, not_or]
          exact ⟨Ne.symm hc, hs⟩

/-- The last component is the end of the path, so its characters are characters of the request. -/
theorem basename_suffix (s : List Char) : basename s <:+ s := by
  induction s with
  | nil => exact List.suffix_refl _
  | cons c s ih =>
      rw [basename]
      split
      · exact ih.trans (List.suffix_cons c s)
      · split
        · exact List.suffix_cons c s
        · exact List.suffix_refl _

/-- `strrchr` on a C string, with whatever the array holds behind the NUL: the part from the last
slash on if there is one, and the null pointer otherwise. -/
theorem strrchr_spec (hs : ∀ c ∈ s, c ≠ NUL) (rest : List Char) :
    strrchr (s ++ NUL :: rest) '/'
      = if '/' ∈ s then some ('/' :: (basename s ++ NUL :: rest)) else none := by
  induction s with
  | nil => rfl
  | cons c s ih =>
      have hc : c ≠ NUL := hs c List.mem_cons_self
      rw [List.cons_append, strrchr, if_neg hc, ih fun c hc => hs c (List.mem_cons_of_mem _ hc)]
      by_cases hmem : '/' ∈ s
      · rw [if_pos hmem, if_pos (List.mem_cons_of_mem c hmem), basename, if_pos hmem]
      · rw [if_neg hmem, basename, if_neg hmem]
        by_cases hslash : c = '/'
        · rw [hslash, if_pos rfl, if_pos List.mem_cons_self, if_pos rfl]
        · rw [if_neg hslash, if_neg]
          rw [List.mem_cons, not_or]
          exact ⟨Ne.symm hslash, hmem⟩

/-- **`sanitize_filename`**, of a string in memory: it stays inside both arrays and leaves the
cleaned name, whatever `dest` held. -/
theorem sanitize_filename_spec {dest : List Char} (hdest : dest.length = MAX_FILENAME_LEN)
    (hs : ∀ c ∈ s, c ≠ NUL) (rest : List Char) :
    ∃ dest', sanitize_filename dest (s ++ NUL :: rest) MAX_FILENAME_LEN = some dest'
      ∧ cstr dest' = clean s := by
  -- behind the last slash, or the whole of it
  have hclean : (match strrchr (s ++ NUL :: rest) '/' with
      | some last_slash => last_slash.drop 1
      | none => s ++ NUL :: rest) = basename s ++ NUL :: rest := by
    rw [strrchr_spec hs]
    by_cases hmem : '/' ∈ s
    · rw [if_pos hmem]
      rfl
    · rw [if_neg hmem, basename_of_not_mem hmem]
  have hbase : ∀ c ∈ basename s, c ≠ NUL := fun c hc => hs c ((basename_suffix s).mem hc)
  rw [MAX_FILENAME_LEN] at hdest
  obtain ⟨copy, b, hcopy, hstore, hcstr, hlen⟩ := strncpy_store_spec hdest hbase rest
  have hspan : strcspn b ['\r', '\n', ' '] ≤ (cstr b).length :=
    (List.takeWhile_prefix _).length_le
  -- the cut is inside the array: at the latest it is at the NUL that was stored
  have hroom : strcspn b ['\r', '\n', ' '] < b.length := by
    rw [hcstr, List.length_take] at hspan
    omega
  refine ⟨b.set (strcspn b ['\r', '\n', ' ']) NUL, ?_, ?_⟩
  · rw [sanitize_filename]
    simp only [hclean]
    rw [MAX_FILENAME_LEN, hcopy, Option.bind_eq_bind, Option.bind_some, hstore,
      Option.bind_some, store_of_lt hroom]
  · rw [cstr_set_nul hspan hroom, clean, strcspn, hcstr]
    exact (List.prefix_iff_eq_take.mp (List.takeWhile_prefix _)).symm

/-- The sanitised name fits its array, with room for the NUL. -/
theorem length_clean_le (s : List Char) : (clean s).length ≤ 255 :=
  Nat.le_trans (List.takeWhile_prefix _).length_le (List.length_take_le 255 _)

/-- The word is short, and its characters are some of the string's. -/
theorem get_word_spec {word : List Char} (h : get_word s = some word) :
    word.length ≤ 255 ∧ ∀ c ∈ word, c ∈ s := by
  unfold get_word at h
  split at h
  · next t =>
      split at h
      · exact absurd h (by simp)
      · next c w hw =>
          obtain rfl := Option.some.inj h
          refine ⟨List.length_take_le 255 _, fun x hx => ?_⟩
          have hx' := List.mem_of_mem_take hx
          rw [← hw] at hx'
          have := (List.dropWhile_suffix _).mem ((List.takeWhile_prefix _).mem hx')
          simp [this]
  · exact absurd h (by simp)

/-- The directory is a C string, so that joining it to a name loses nothing. -/
theorem proxy_dir_ne_nul : ∀ c ∈ PROXY_DIR, c ≠ NUL := by
  simp [PROXY_DIR, NUL]

/-- The parse of a string in memory, and the name kept of what it finds. -/
theorem parse_spec (v : Locals) (hs : ∀ c ∈ s, c ≠ NUL) (rest : List Char) :
    ∃ found raw_name dest', sscanf_get (s ++ NUL :: rest) v.raw_name = some (found, raw_name)
      ∧ sanitize_filename v.req_file (if found then raw_name else s ++ NUL :: rest)
        MAX_FILENAME_LEN = some dest'
      ∧ cstr dest' = clean (requested s) := by
  -- without a word `sanitize_filename` is given the request itself
  cases hword : get_word s with
  | none =>
      obtain ⟨dest', hrun, hdest'⟩ := sanitize_filename_spec v.req_file_size hs rest
      refine ⟨false, v.raw_name, dest', ?_, hrun, ?_⟩
      · rw [sscanf_get, cstr_append_nul hs, hword]
      · rw [hdest', requested, hword, Option.getD_none]
  | some word =>
      obtain ⟨hlen, hmem⟩ := get_word_spec hword
      obtain ⟨dest', hrun, hdest'⟩ := sanitize_filename_spec v.req_file_size
        (fun c hc => hs c (hmem c hc)) (v.raw_name.drop (word.length + 1))
      refine ⟨true, _, dest', ?_, hrun, ?_⟩
      · rw [sscanf_get, cstr_append_nul hs, hword]
        simp only [strcpy]
        rw [if_pos (by rw [v.raw_name_size, MAX_FILENAME_LEN]; omega)]
        rfl
      · rw [hdest', requested, hword, Option.getD_some]

/-- The path has room for every name that is kept. -/
theorem file_path_spec (v : Locals) {name : List Char} (hname : ∀ c ∈ name, c ≠ NUL)
    (hlen : name.length ≤ 255) :
    cstr (snprintf v.file_path (PROXY_DIR ++ '/' :: name)) = PROXY_DIR ++ '/' :: name := by
  apply cstr_of_prefix
  · intro c hc
    rcases List.mem_append.mp hc with hc | hc
    · exact proxy_dir_ne_nul c hc
    · rcases List.mem_cons.mp hc with rfl | hc
      · decide
      · exact hname c hc
  · apply snprintf_prefix
    rw [v.file_path_size, List.length_append, List.length_cons, PROXY_DIR]
    simp only [List.length_cons, List.length_nil]
    omega

/-- **`client_handler`**: the file is a function of the first segment. -/
theorem client_handler_spec (fopen : List Char → Option (List Char)) (v : Locals) (p : Segment)
    (more : List Segment) :
    ∃ sent, client_handler fopen v (p :: more)
      = some (some { req_file := file_of p.bytes
                     file_path := PROXY_DIR ++ '/' :: file_of p.bytes, sent }) := by
  have hbytes := p.le_max
  rw [BUFFER_SIZE] at hbytes
  obtain ⟨n, hn⟩ : ∃ n, BUFFER_SIZE - p.bytes.length = n + 1 :=
    ⟨4095 - p.bytes.length, by rw [BUFFER_SIZE]; omega⟩
  obtain ⟨rest, hrest⟩ := exists_cstr_append p.bytes (List.replicate n NUL)
  -- the buffer is cleared and the NUL goes behind the bytes received
  have hstore : store (p.bytes ++ List.replicate (BUFFER_SIZE - p.bytes.length) NUL)
      p.bytes.length NUL = some (cstr p.bytes ++ NUL :: rest) := by
    rw [hn, List.replicate_succ, store_append_cons, hrest]
  obtain ⟨found, raw_name, dest', hscan, hsanitize, hdest'⟩ := parse_spec v
    (@cstr_ne_nul p.bytes) rest
  rw [← file_of] at hdest'
  have hnul : ∀ c ∈ file_of p.bytes, c ≠ NUL := fun c hc => cstr_ne_nul c (hdest' ▸ hc)
  have hpath := file_path_spec v hnul (length_clean_le (requested (cstr p.bytes)))
  rw [client_handler]
  simp only [hstore, hscan, hsanitize, hdest', hpath, Option.bind_eq_bind, Option.bind_some]
  exact ⟨_, rfl⟩

end Strings

/-! ## Confinement -/

/-- A name that can only be an entry of the directory itself. -/
structure Direct (name : List Char) : Prop where
  ne_nil : name ≠ []
  chars : ∀ c ∈ name, c ≠ '/' ∧ c ≠ '\r' ∧ c ≠ '\n' ∧ c ≠ ' '
  short : name.length < MAX_FILENAME_LEN
  ne_dot : name ≠ ['.']
  ne_dots : name ≠ ['.', '.']

/-- The path that is opened is that of a direct entry of `PROXY_DIR`. -/
def Confined (fopen : List Char → Option (List Char)) (v : Locals) (recv : List Segment) : Prop :=
  ∃ answer name, client_handler fopen v recv = some (some answer)
    ∧ answer.file_path = PROXY_DIR ++ '/' :: name ∧ Direct name

/-- A component of a path, up to its first line end or blank, that is empty, `.` or `..`. -/
def Dotted (component : List Char) : Prop :=
  ∃ x ∈ [[], ['.'], ['.', '.']], component = x
    ∨ ∃ c ∈ ['\r', '\n', ' '], x ++ [c] <+: component

section Confined

variable {s : List Char}

/-- What is kept of every string has no slash in it, so it can name nothing below or above the
directory but `.` and `..`. -/
theorem clean_chars (s : List Char) :
    ∀ c ∈ clean s, c ≠ '/' ∧ c ≠ '\r' ∧ c ≠ '\n' ∧ c ≠ ' ' := by
  intro c hc
  have hbase : c ∈ basename s := List.mem_of_mem_take ((List.takeWhile_prefix _).mem hc)
  have hstop := List.all_eq_true.mp (@List.all_takeWhile _ _ ((basename s).take 255)) c hc
  have hslash : c ≠ '/' := fun h => slash_not_mem_basename s (h ▸ hbase)
  simp only [List.mem_cons, List.not_mem_nil, or_false, not_or] at hstop
  exact ⟨hslash, of_decide_eq_true hstop⟩

/-- A short string is kept when it is what stands before the first reject. -/
theorem takeWhile_take_eq_iff {l x reject : List Char} (hx : ∀ c ∈ x, c ∉ reject)
    (hlen : x.length < 255) :
    (l.take 255).takeWhile (fun c => c ∉ reject) = x
      ↔ l = x ∨ ∃ c ∈ reject, x ++ [c] <+: l := by
  constructor
  · intro h
    obtain ⟨r, hr⟩ := List.takeWhile_prefix (l := l.take 255) fun c => c ∉ reject
    rw [h] at hr
    -- nothing is left of the first 255 characters, or the next one is a reject
    cases r with
    | nil =>
        left
        rw [List.append_nil] at hr
        have hl := congrArg List.length hr
        rw [List.length_take] at hl
        rw [hr, List.take_of_length_le (by omega)]
    | cons c r =>
        right
        refine ⟨c, ?_, ?_⟩
        · by_contra hc
          rw [← hr, List.takeWhile_append_of_pos (by simpa using hx),
            List.takeWhile_cons_of_pos (by simpa using hc)] at h
          have := congrArg List.length h
          rw [List.length_append, List.length_cons] at this
          omega
        · refine List.IsPrefix.trans ?_ (List.take_prefix 255 l)
          rw [← hr]
          exact ⟨r, by rw [List.append_assoc, List.singleton_append]⟩
  -- conversely, short strings and rejects are not touched by the cut at 255
  · rintro (rfl | ⟨c, hc, r, rfl⟩)
    · rw [List.take_of_length_le (by omega)]
      exact List.takeWhile_eq_self_iff.mpr (by simpa using hx)
    · obtain ⟨n, hn⟩ : ∃ n, 255 - x.length = n + 1 := ⟨254 - x.length, by omega⟩
      rw [List.append_assoc, List.singleton_append, List.take_append, hn, List.take_succ_cons,
        List.take_of_length_le (by omega), List.takeWhile_append_of_pos (by simpa using hx),
        List.takeWhile_cons_of_neg (by simpa using hc), List.append_nil]

/-- The dotted components are the ones whose sanitised name is empty, `.` or `..`: the copy is cut
at 255 characters, and no longer name becomes one of the three by that. -/
theorem dotted_iff (s : List Char) :
    Dotted (basename s) ↔ clean s = [] ∨ clean s = ['.'] ∨ clean s = ['.', '.'] := by
  have hdots : ∀ x ∈ [[], ['.'], ['.', '.']], (clean s = x
      ↔ basename s = x ∨ ∃ c ∈ ['\r', '\n', ' '], x ++ [c] <+: basename s) := by
    intro x hx
    refine takeWhile_take_eq_iff ?_ ?_
    · revert x
      simp
    · revert x
      simp
  rw [Dotted]
  constructor
  · rintro ⟨x, hx, h⟩
    rw [← hdots x hx] at h
    rw [h]
    simpa using hx
  · intro h
    refine ⟨clean s, by simpa using h, (hdots _ (by simpa using h)).mp rfl⟩

/-- One half of `confined_iff`: where the handler keeps to its directory, the last component of the
request is not dotted, as the path would then name the directory or the one above it. -/
theorem Confined.not_dotted {fopen : List Char → Option (List Char)} {v : Locals} {p : Segment}
    {more : List Segment} (h : Confined fopen v (p :: more)) :
    ¬ Dotted (basename (requested (cstr p.bytes))) := by
  obtain ⟨answer, name, hrun', hpath, hdirect⟩ := h
  obtain ⟨sent, hrun⟩ := client_handler_spec fopen v p more
  rw [hrun, Option.some.injEq, Option.some.injEq] at hrun'
  rw [← hrun'] at hpath
  obtain ⟨-, hname⟩ := List.cons.inj (List.append_cancel_left hpath)
  rw [dotted_iff, ← file_of, hname]
  rintro (h | h | h)
  · exact hdirect.ne_nil h
  · exact hdirect.ne_dot h
  · exact hdirect.ne_dots h

end Confined

/-- **When the proxy stays in its directory**: unless what the request has behind its last slash is
empty, `.` or `..`. Everything before the last slash is dropped, so no other name leads out. -/
theorem confined_iff (fopen : List Char → Option (List Char)) (v : Locals) (p : Segment)
    (more : List Segment) :
    Confined fopen v (p :: more) ↔ ¬ Dotted (basename (requested (cstr p.bytes))) := by
  constructor
  · exact fun h => h.not_dotted
  · intro h
    rw [dotted_iff, not_or, not_or] at h
    obtain ⟨sent, hrun⟩ := client_handler_spec fopen v p more
    have hlen := length_clean_le (requested (cstr p.bytes))
    exact ⟨_, _, hrun, rfl, h.1, clean_chars _, Nat.lt_succ_of_le hlen, h.2.1, h.2.2⟩

/-- Arrays to start from, in the examples; the results hold for whatever the arrays contain. -/
def zeros : Locals where
  req_file := List.replicate MAX_FILENAME_LEN NUL
  raw_name := List.replicate MAX_FILENAME_LEN NUL
  file_path := List.replicate 512 NUL
  message := List.replicate BUFFER_SIZE NUL
  req_file_size := List.length_replicate
  raw_name_size := List.length_replicate
  file_path_size := List.length_replicate
  message_size := List.length_replicate

/-- `GET ..` opens the parent of the directory. -/
theorem not_always_confined :
    ¬ ∀ (fopen : List Char → Option (List Char)) (v : Locals) (recv : List Segment),
      recv ≠ [] → Confined fopen v recv := by
  intro h
  have hdots := (h (fun _ => none) zeros
    [⟨['G', 'E', 'T', ' ', '.', '.'], by decide, by decide⟩] (by simp)).not_dotted
  exact hdots ⟨['.', '.'], by decide, Or.inl (by decide)⟩

/-! ## Segments -/

/-- `"GET "` -/
def GET : List Char :=
  ['G', 'E', 'T', ' ']

/-- The line a client sends for a name: the command, the name and a newline. -/
def request_line (name : List Char) : List Char :=
  GET ++ name ++ ['\n']

/-- A name as it stands in a request line: not empty, no white space, and short enough for the
arrays of the proxy. -/
structure Name (name : List Char) : Prop where
  ne_nil : name ≠ []
  no_space : ∀ c ∈ name, isspace c = false
  short : name.length ≤ 255

/-- The file is the one of the whole line received at once. -/
def SameFile (fopen : List Char → Option (List Char)) (v : Locals) (name : List Char)
    (recv : List Segment) : Prop :=
  ∃ answer whole answer', whole.bytes = request_line name
    ∧ client_handler fopen v recv = some (some answer)
    ∧ client_handler fopen v [whole] = some (some answer')
    ∧ answer.req_file = answer'.req_file

/-- What the whole line asks for. A name that starts with a `NUL` is no word. -/
def asked (name : List Char) : List Char :=
  if cstr name = [] then ['G', 'E', 'T'] else basename (cstr name)

/-- The first segment has enough of the line: all of the name, up to a `NUL` in it, or a part
that happens to have the same last component, or just a part of `"GET "` that happens to be
the name. -/
def Arrived (name bytes : List Char) : Prop :=
  GET ++ cstr name <+: bytes
    ∨ (∃ u, u ≠ [] ∧ bytes = GET ++ u ∧ basename u = basename (cstr name))
    ∨ (bytes <+: GET ∧ bytes.takeWhile (fun c => c ≠ ' ') = asked name)

section Segments

variable {name u : List Char}

/-- The characters `sanitize_filename` cuts at are white space, so a word of `sscanf` has none of
them. -/
theorem not_reject_of_not_isspace {c : Char} (h : isspace c = false) :
    c ∉ ['\r', '\n', ' '] := by
  intro hc
  simp only [List.mem_cons, List.not_mem_nil, or_false] at hc
  rcases hc with rfl | rfl | rfl
  all_goals exact absurd h (by decide)

/-- A word behind `"GET "`, with or without the end of the line. -/
theorem clean_word (hne : u ≠ []) (hspace : ∀ c ∈ u, isspace c = false) (hlen : u.length ≤ 255)
    {tail : List Char} (htail : tail = [] ∨ tail = ['\n']) :
    clean (requested (GET ++ (u ++ tail))) = basename u := by
  -- `sscanf` skips the blank and stops at the end of the line
  have hword : get_word (GET ++ (u ++ tail)) = some u := by
    obtain ⟨c, w, rfl⟩ := List.exists_cons_of_ne_nil hne
    have hc : isspace c = false := hspace c List.mem_cons_self
    have hdrop : (' ' :: (c :: w ++ tail)).dropWhile isspace = c :: w ++ tail := by
      rw [List.dropWhile_cons_of_pos (by decide), List.cons_append,
        List.dropWhile_cons_of_neg (by simp [hc])]
    have htake : (c :: w ++ tail).takeWhile (fun c => !isspace c) = c :: w := by
      rw [List.takeWhile_append_of_pos (by simpa using hspace)]
      rcases htail with rfl | rfl
      · simp
      · rw [List.takeWhile_cons_of_neg (by decide), List.append_nil]
    simp only [GET, List.cons_append, List.nil_append, get_word]
    rw [← List.cons_append, hdrop, htake]
    exact congrArg some (List.take_of_length_le hlen)
  have hbase : ∀ c ∈ basename u, c ∉ ['\r', '\n', ' '] := fun c hc =>
    not_reject_of_not_isspace (hspace c ((basename_suffix u).mem hc))
  have hle : (basename u).length ≤ 255 := Nat.le_trans (basename_suffix u).length_le hlen
  rw [requested, hword, Option.getD_some, clean, List.take_of_length_le hle]
  exact List.takeWhile_eq_self_iff.mpr (by simpa using hbase)

/-- Without a word, the text itself is taken for the name. -/
theorem file_of_get {bytes : List Char} (hne : bytes ≠ []) (h : bytes <+: GET) :
    file_of bytes = bytes.takeWhile fun c => c ≠ ' ' := by
  rw [List.prefix_iff_eq_take] at h
  have hle : bytes.length ≤ 4 := by
    have := congrArg List.length h
    rw [List.length_take] at this
    exact Nat.le_trans (Nat.le_of_eq this) (Nat.min_le_right _ _)
  have hpos := List.length_pos_iff.mpr hne
  generalize bytes.length = k at h hle hpos
  subst h
  interval_cases k
  all_goals decide

/-- A C string ends at its first NUL, whatever stands behind it in the buffer. -/
theorem cstr_append_of_mem {a b : List Char} (h : NUL ∈ a) : cstr (a ++ b) = cstr a := by
  induction a with
  | nil => exact absurd h List.not_mem_nil
  | cons c a ih =>
      by_cases hc : c = NUL
      · simp [cstr, hc]
      · have hmem : NUL ∈ a := (List.mem_cons.mp h).resolve_left (Ne.symm hc)
        rw [List.cons_append, cstr, cstr, List.takeWhile_cons_of_pos (by simpa using hc),
          List.takeWhile_cons_of_pos (by simpa using hc)]
        exact congrArg (List.cons c) (ih hmem)

/-- The `GET ` in front of a request has no NUL, so the C string of the buffer is `GET ` and the C
string of the rest. -/
theorem cstr_get (u : List Char) : cstr (GET ++ u) = GET ++ cstr u :=
  List.takeWhile_append_of_pos (by simp [GET, NUL])

/-- The string of what has come of the line behind `"GET "`: a part of the name, or the name
up to its end or a `NUL`. -/
theorem cstr_part (h : u <+: name ++ ['\n']) :
    (cstr u = u ∧ u <+: cstr name) ∨ ∃ tail, (tail = [] ∨ tail = ['\n'])
      ∧ cstr u = cstr name ++ tail ∧ cstr name <+: u := by
  -- the line has come whole, with its end, or not
  rcases List.prefix_concat_iff.mp h with rfl | ⟨r, rfl⟩
  · right
    have hname : cstr name <+: name ++ ['\n'] :=
      (List.takeWhile_prefix _).trans (List.prefix_append name _)
    by_cases hnul : NUL ∈ name
    · exact ⟨[], Or.inl rfl, by rw [cstr_append_of_mem hnul, List.append_nil], hname⟩
    · have hne : ∀ c ∈ name, c ≠ NUL := fun c hc h0 => hnul (h0 ▸ hc)
      refine ⟨['\n'], Or.inr rfl, ?_, hname⟩
      rw [cstr_of_ne_nul hne, cstr, List.takeWhile_append_of_pos (by simpa using hne)]
      rfl
  -- a NUL in the name ends the string before the rest comes
  · by_cases hnul : NUL ∈ u
    · right
      refine ⟨[], Or.inl rfl, ?_, ?_⟩
      · rw [cstr_append_of_mem hnul, List.append_nil]
      · rw [cstr_append_of_mem hnul]
        exact List.takeWhile_prefix _
    · left
      have hne : ∀ c ∈ u, c ≠ NUL := fun c hc h0 => hnul (h0 ▸ hc)
      refine ⟨cstr_of_ne_nul hne, ?_⟩
      rw [cstr, List.takeWhile_append_of_pos (by simpa using hne)]
      exact List.prefix_append u _

/-- The file, once the whole name is there, with the end of the line or without it. -/
theorem file_of_whole (hname : Name name) {tail : List Char} (htail : tail = [] ∨ tail = ['\n'])
    (hu : cstr u = cstr name ++ tail) : file_of (GET ++ u) = asked name := by
  rw [file_of, cstr_get, hu, asked]
  by_cases hnil : cstr name = []
  · rw [if_pos hnil, hnil, List.nil_append]
    rcases htail with rfl | rfl
    all_goals decide
  · rw [if_neg hnil]
    have hsub : ∀ c ∈ cstr name, c ∈ name := fun c hc => (List.takeWhile_prefix _).mem hc
    exact clean_word hnil (fun c hc => hname.no_space c (hsub c hc))
      (Nat.le_trans (List.takeWhile_prefix _).length_le hname.short) htail

/-- The file, with only a part of the name there. -/
theorem file_of_part (hname : Name name) (hne : u ≠ []) (hu : cstr u = u)
    (hpart : u <+: cstr name) : file_of (GET ++ u) = basename u := by
  have hpre : u <+: name := hpart.trans (List.takeWhile_prefix _)
  have hword := clean_word hne (fun c hc => hname.no_space c (hpre.mem hc))
    (Nat.le_trans hpre.length_le hname.short) (Or.inl rfl)
  rw [file_of, cstr_get, hu, ← hword, List.append_nil]

/-- A request line that has arrived whole asks for the name that `client.c` has put in it. -/
theorem file_of_request_line (hname : Name name) : file_of (request_line name) = asked name := by
  rw [request_line, List.append_assoc]
  rcases cstr_part (List.prefix_refl (name ++ ['\n'])) with ⟨-, hpre⟩ | ⟨tail, htail, hu, -⟩
  · -- the end of the line is no part of the name
    have hlen := (hpre.trans (List.takeWhile_prefix _)).length_le
    rw [List.length_append, List.length_singleton] at hlen
    omega
  · exact file_of_whole hname htail hu

/-- Whether the proxy opens the asked file is read off the first segment alone: what `recv` returns
later is never read. -/
theorem sameFile_iff_file_of (hname : Name name) (fopen : List Char → Option (List Char))
    (v : Locals) (p : Segment) (more : List Segment) :
    SameFile fopen v name (p :: more) ↔ file_of p.bytes = asked name := by
  obtain ⟨sent, hrun⟩ := client_handler_spec fopen v p more
  rw [← file_of_request_line hname]
  -- the handler answers every segment, so its answer can be compared with the one to the whole
  -- line
  constructor
  · rintro ⟨answer, whole, answer', hwhole, hrun', hrun_whole, hfile⟩
    obtain ⟨sent', hrun_line⟩ := client_handler_spec fopen v whole []
    rw [hrun, Option.some.injEq, Option.some.injEq] at hrun'
    rw [hrun_line, Option.some.injEq, Option.some.injEq] at hrun_whole
    rw [← hrun', ← hrun_whole, hwhole] at hfile
    exact hfile
  · intro hfile
    have hlen : (request_line name).length ≤ BUFFER_SIZE - 1 := by
      have := hname.short
      simp only [request_line, GET, List.length_append, List.length_cons, List.length_nil,
        BUFFER_SIZE]
      omega
    obtain ⟨sent', hrun_line⟩ := client_handler_spec fopen v
      ⟨request_line name, by simp [request_line, GET], hlen⟩ []
    exact ⟨_, _, _, rfl, hrun, hrun_line, hfile⟩

/-- The first segment is at most `"GET "`: then none of the name has come, and the proxy looks up
something else. -/
theorem arrived_get_iff {bytes : List Char} (hne : bytes ≠ []) (h : bytes <+: GET) :
    Arrived name bytes ↔ file_of bytes = asked name := by
  rw [file_of_get hne h]
  constructor
  · rintro (hall | ⟨u, hu, rfl, -⟩ | ⟨-, heq⟩)
    · have hlen := (hall.trans h).length_le
      have hlen' := hall.length_le
      rw [List.length_append] at hlen hlen'
      have hnil : cstr name = [] := List.eq_nil_of_length_eq_zero (by omega)
      rw [hnil, List.append_nil] at hall
      rw [asked, if_pos hnil, h.eq_of_length (Nat.le_antisymm h.length_le hall.length_le)]
      decide
    · have hlen := h.length_le
      have hpos := List.length_pos_iff.mpr hu
      rw [List.length_append] at hlen
      omega
    · exact heq
  · exact fun heq => Or.inr (Or.inr ⟨h, heq⟩)

/-- It goes beyond `"GET "`: then the name has come as far as the file that is asked for depends on
it, or not. -/
theorem arrived_name_iff (hname : Name name) (hne : u ≠ []) (h : u <+: name ++ ['\n']) :
    Arrived name (GET ++ u) ↔ file_of (GET ++ u) = asked name := by
  have hlong : ¬ GET ++ u <+: GET := by
    intro hle
    have hlen := hle.length_le
    have hpos := List.length_pos_iff.mpr hne
    rw [List.length_append] at hlen
    omega
  -- of the three ways to arrive the one inside `GET ` is out, as something has come behind it
  have harrived : Arrived name (GET ++ u)
      ↔ cstr name <+: u ∨ basename u = basename (cstr name) := by
    rw [Arrived, List.prefix_append_right_inj]
    constructor
    · rintro (hall | ⟨u', -, heq, hbase⟩ | ⟨hle, -⟩)
      · exact Or.inl hall
      · rw [List.append_cancel_left heq]
        exact Or.inr hbase
      · exact absurd hle hlong
    · rintro (hall | hbase)
      · exact Or.inl hall
      · exact Or.inr (Or.inl ⟨u, hne, rfl, hbase⟩)
  rw [harrived]
  -- what has come is a part of the name, and then the file is that of the part
  rcases cstr_part h with ⟨hu, hpart⟩ | ⟨tail, htail, hu, hall⟩
  · have hnil : cstr name ≠ [] := fun h0 => hne (List.prefix_nil.mp (h0 ▸ hpart))
    rw [file_of_part hname hne hu hpart, asked, if_neg hnil]
    constructor
    · rintro (hall | hbase)
      · rw [hpart.eq_of_length (Nat.le_antisymm hpart.length_le hall.length_le)]
      · exact hbase
    · exact Or.inr
  · exact iff_of_true (Or.inl hall) (file_of_whole hname htail hu)

end Segments

/-- **When the segments do not matter**: when the first of them has enough of the line. The proxy
reads its request with one `recv`, so what comes later is never looked at. -/
theorem same_file_iff {name : List Char} (hname : Name name)
    (fopen : List Char → Option (List Char)) (v : Locals) {p : Segment} {more : List Segment}
    (hsplit : ((p :: more).map Segment.bytes).flatten = request_line name) :
    SameFile fopen v name (p :: more) ↔ Arrived name p.bytes := by
  have hne : p.bytes ≠ [] := List.length_pos_iff.mp p.pos
  have hpre : p.bytes <+: GET ++ (name ++ ['\n']) := by
    rw [← List.append_assoc, ← request_line, ← hsplit, List.map_cons, List.flatten_cons]
    exact List.prefix_append _ _
  rw [sameFile_iff_file_of hname]
  rcases List.prefix_or_prefix_of_prefix hpre (List.prefix_append GET _) with hle | ⟨u, hu⟩
  · exact (arrived_get_iff hne hle).symm
  · rw [← hu] at hpre ⊢
    by_cases hnil : u = []
    · rw [hnil, List.append_nil]
      exact (arrived_get_iff (by decide) (List.prefix_refl GET)).symm
    · exact (arrived_name_iff hname hnil ((List.prefix_append_right_inj GET).mp hpre)).symm

/-- The line `GET ab`, with its last letter in a segment of its own. -/
def early : Segment :=
  ⟨['G', 'E', 'T', ' ', 'a'], by decide, by decide⟩

/-- The rest of the line, which the handler never reads, as it calls `recv` once. -/
def late : Segment :=
  ⟨['b', '\n'], by decide, by decide⟩

/-- `ab` is a name `client.c` may send: a word of at most 255 characters. -/
theorem name_ab : Name ['a', 'b'] :=
  ⟨by decide, by simp [isspace], by decide⟩

/-- With `ab` split after its first letter the condition fails, and so does the property. -/
theorem same_file_iff_ab :
    ¬ Arrived ['a', 'b'] early.bytes
      ∧ ¬ SameFile (fun _ => none) zeros ['a', 'b'] [early, late] := by
  have hnot : ¬ Arrived ['a', 'b'] early.bytes := by
    rintro (⟨r, hr⟩ | ⟨u, -, hu, hbase⟩ | ⟨h, -⟩)
    · revert hr
      simp [early, GET, cstr, NUL]
    · have hu' : u = ['a'] := (List.append_cancel_left (show GET ++ ['a'] = GET ++ u from hu)).symm
      rw [hu'] at hbase
      exact absurd hbase (by decide)
    · exact absurd h.length_le (by decide)
  exact ⟨hnot, fun h => hnot ((same_file_iff name_ab _ _ rfl).mp h)⟩

/-- The handler then looks up `a`. -/
theorem not_always_same_file :
    ¬ ∀ (fopen : List Char → Option (List Char)) (v : Locals) (name : List Char)
      (recv : List Segment), Name name → (recv.map Segment.bytes).flatten = request_line name →
        SameFile fopen v name recv := by
  intro h
  have hsame := h (fun _ => none) zeros ['a', 'b'] [early, late] name_ab rfl
  rw [sameFile_iff_file_of name_ab] at hsame
  exact absurd hsame (by decide)

end CourseLabs.Proxy
