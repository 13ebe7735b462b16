/-
`client.c` and `proxy_server.c`: a file on its way from the proxy to a client.

The request is one `snprintf` and the answer one stream, that `recv` gives back in pieces. A
client that is alone prints every piece as a string: what stands behind a `NUL` is left out up
to the end of the piece, so that the answer is printed as it was sent exactly when the file has
no `NUL` in it (`transfer_alone`). A client of a pool reports the first line of the first piece,
which is the status line as soon as the piece has all of it (`transfer_pool`). Both count the
bytes right however the answer is cut.
-/
import CourseLabs.CLoop
import CourseLabs.Proxy

set_option autoImplicit false

namespace CourseLabs.FileTransfer

open CourseLabs.CLoop CourseLabs.CMem CourseLabs.Proxy

/-! ## The program -/

/-- The local arrays of `client_worker`, before it writes to them. -/
structure Arrays where
  request : List Char
  buffer : List Char
  request_size : request.length = 512
  buffer_size : buffer.length = BUFFER_SIZE

/-- What `client_worker` sends: the command, the name and a newline, cut to the array by
`snprintf`. -/
def request (v : Arrays) (filename : List Char) : Option (List Char) :=
  print_string (snprintf v.request ("GET ".toList ++ filename ++ "\n".toList))

/-- `recv`, and `buffer[n] = '\0'`: the front of the buffer is the piece, and what lies behind the
NUL is left from before. -/
def fill (buffer : List Char) (p : Segment) : Option (List Char) :=
  store (p.bytes ++ buffer.drop p.bytes.length) p.bytes.length NUL

/-- The state of the loop of a client that is alone. -/
structure Printing where
  buffer : List Char
  printed : List Char
  total_received : ℕ

/-- One piece: what is printed is the string in the buffer, not the bytes that came. -/
def print_pass (s : Printing) (p : Segment) : Option Printing := do
  let buffer ← fill s.buffer p
  let text ← print_string buffer
  some { buffer, printed := s.printed ++ text,
         total_received := (s.total_received + p.bytes.length) % 2 ^ 64 }

/-- `client_worker` alone, for the pieces `recv` returns: what is printed, and the number. -/
def receive_alone (v : Arrays) (recv : List Segment) : Option (List Char × ℕ) := do
  let s ← recv.foldlM print_pass { buffer := v.buffer, printed := [], total_received := 0 }
  some (s.printed, s.total_received)

/-- The state of the loop of a client of a pool. -/
structure Collecting where
  buffer : List Char
  first_line : List Char
  first_chunk : Bool
  total_received : ℕ

/-- `newline - buffer` if `strchr` finds a newline, and else the length of the string. -/
def first_length (buffer : List Char) : Option ℕ := do
  let len ← strlen buffer
  some (if '\n' ∈ cstr buffer then strcspn buffer ['\n'] else len)

/-- One piece in a pool: only the first one is looked at, for its first line, and the others are
counted. -/
def pool_pass (s : Collecting) (p : Segment) : Option Collecting := do
  let buffer ← fill s.buffer p
  let first_line ← (if s.first_chunk then do
      let len ← first_length buffer
      -- `sizeof(first_line)` is its length
      let len := if len ≥ s.first_line.length then s.first_line.length - 1 else len
      let copy ← memcpy buffer len
      store (copy ++ s.first_line.drop len) len NUL
    else some s.first_line)
  some { buffer, first_line, first_chunk := false,
         total_received := (s.total_received + p.bytes.length) % 2 ^ 64 }

/-- `client_worker` in a pool: the line it reports, and the number. -/
def receive_pool (v : Arrays) (recv : List Segment) : Option (List Char × ℕ) := do
  let s ← recv.foldlM pool_pass
    { buffer := v.buffer, first_line := List.replicate 256 NUL, first_chunk := true,
      total_received := 0 }
  let line ← print_string s.first_line
  some (line, s.total_received)

/-! ## The answer -/

/-- What the proxy sends for a name: the contents of the file behind a header, or the message that
there is none. -/
def response (fopen : List Char → Option (List Char)) (name : List Char) : List Char :=
  match fopen (PROXY_DIR ++ '/' :: name) with
  | some contents => ok_header name ++ contents
  | none => not_found name

/-- The line of an answer that tells how it went. -/
def status (fopen : List Char → Option (List Char)) (name : List Char) : List Char :=
  if (fopen (PROXY_DIR ++ '/' :: name)).isSome then
    "STATUS: 200 OK (Served from Proxy Copy)".toList
  else
    "STATUS: 404 NOT FOUND".toList

section Answer

variable {fopen : List Char → Option (List Char)} {name : List Char}

/-- The name the proxy keeps is a C string. -/
theorem file_of_ne_nul (bytes : List Char) : ∀ c ∈ file_of bytes, c ≠ NUL := by
  obtain ⟨found, raw_name, dest', -, -, hdest'⟩ := parse_spec zeros (@cstr_ne_nul bytes) []
  rw [← file_of] at hdest'
  exact fun c hc => cstr_ne_nul c (hdest' ▸ hc)

/-- It fits `req_file`, with its `NUL`. -/
theorem length_file_of (bytes : List Char) : (file_of bytes).length ≤ 255 :=
  length_clean_le _

/-- The texts of an answer are a name between two literals, so a `NUL` in one of them could only be
in the name. -/
theorem around_ne_nul {a b : List Char} (ha : NUL ∉ a) (hb : NUL ∉ b)
    (hname : ∀ c ∈ name, c ≠ NUL) : ∀ c ∈ a ++ name ++ b, c ≠ NUL := by
  intro c hc
  rcases List.mem_append.mp hc with hc | hc
  · exact (List.mem_append.mp hc).elim (fun hc => ne_of_mem_of_not_mem hc ha) (hname c)
  · exact ne_of_mem_of_not_mem hc hb

theorem ok_header_ne_nul (hname : ∀ c ∈ name, c ≠ NUL) : ∀ c ∈ ok_header name, c ≠ NUL :=
  around_ne_nul (by decide +kernel) (by decide +kernel) hname

theorem not_found_ne_nul (hname : ∀ c ∈ name, c ≠ NUL) : ∀ c ∈ not_found name, c ≠ NUL :=
  around_ne_nul (by decide +kernel) (by decide +kernel) hname

/-- The literals of both texts are together shorter than `200` characters. -/
theorem length_around {a b : List Char} (h : a.length + b.length ≤ 200) :
    (a ++ name ++ b).length ≤ name.length + 200 := by
  rw [List.length_append, List.length_append]
  omega

theorem length_ok_header (name : List Char) : (ok_header name).length ≤ name.length + 200 :=
  length_around (by decide +kernel)

theorem length_not_found (name : List Char) : (not_found name).length ≤ name.length + 200 :=
  length_around (by decide +kernel)

/-- The texts fit `header` and `err_msg`, so `snprintf` cuts nothing off. -/
theorem message_spec (v : Locals) {s : List Char} (hs : ∀ c ∈ s, c ≠ NUL)
    (hlen : s.length < BUFFER_SIZE) : cstr (snprintf v.message s) = s :=
  cstr_of_prefix hs <| snprintf_prefix (by rwa [v.message_size])

/-- **What the handler sends** is a function of the bytes it has received, whatever its local
arrays hold before: both texts have room in `header` and `err_msg`, and are sent whole. -/
theorem client_handler_sent (fopen : List Char → Option (List Char)) (v : Locals) (p : Segment)
    (more : List Segment) :
    client_handler fopen v (p :: more)
      = some (some { req_file := file_of p.bytes
                     file_path := PROXY_DIR ++ '/' :: file_of p.bytes
                     sent := response fopen (file_of p.bytes) }) := by
  obtain ⟨sent, hrun⟩ := client_handler_spec fopen v p more
  -- the texts have room, so that they are sent whole
  have hne := file_of_ne_nul p.bytes
  have hlen := length_file_of p.bytes
  have hok : cstr (snprintf v.message (ok_header (file_of p.bytes)))
      = ok_header (file_of p.bytes) := by
    apply message_spec v (ok_header_ne_nul hne)
    have := length_ok_header (file_of p.bytes)
    rw [BUFFER_SIZE]
    omega
  have hnot : cstr (snprintf v.message (not_found (file_of p.bytes)))
      = not_found (file_of p.bytes) := by
    apply message_spec v (not_found_ne_nul hne)
    have := length_not_found (file_of p.bytes)
    rw [BUFFER_SIZE]
    omega
  refine hrun.trans ?_
  -- what is sent is read off the run, with the names that are known of it
  rw [client_handler] at hrun
  obtain ⟨buffer, -, hrun⟩ := Option.bind_eq_some_iff.mp hrun
  obtain ⟨⟨found, raw_name⟩, -, hrun⟩ := Option.bind_eq_some_iff.mp hrun
  obtain ⟨req_file, -, hrun⟩ := Option.bind_eq_some_iff.mp hrun
  obtain ⟨hreq, hpath, hsent⟩ := Answer.mk.inj (Option.some.inj (Option.some.inj hrun))
  rw [hreq] at hpath hsent
  rw [hpath, hok, hnot] at hsent
  rw [← hsent]
  rfl

/-- An answer starts with its status, on a line of its own. -/
theorem response_status (fopen : List Char → Option (List Char)) (name : List Char) :
    ∃ rest, response fopen name = status fopen name ++ '\n' :: rest := by
  cases hfile : fopen (PROXY_DIR ++ '/' :: name) with
  | none => exact ⟨_, by rw [response, status, hfile]; rfl⟩
  | some contents => exact ⟨_, by rw [response, status, hfile]; rfl⟩

/-- The only `NUL`s of an answer are those of the file. -/
theorem nul_mem_response_iff (hname : ∀ c ∈ name, c ≠ NUL) :
    NUL ∈ response fopen name
      ↔ ∃ contents, fopen (PROXY_DIR ++ '/' :: name) = some contents ∧ NUL ∈ contents := by
  cases hfile : fopen (PROXY_DIR ++ '/' :: name) with
  | none =>
      simp only [response, hfile]
      refine iff_of_false (fun hmem => not_found_ne_nul hname NUL hmem rfl) ?_
      rintro ⟨contents, hsome, -⟩
      exact absurd hsome (Option.some_ne_none contents).symm
  | some contents =>
      simp only [response, hfile, List.mem_append]
      constructor
      · intro hmem
        exact ⟨contents, rfl, hmem.resolve_left fun hmem => ok_header_ne_nul hname NUL hmem rfl⟩
      · rintro ⟨contents', hsome, hmem⟩
        exact Or.inr (Option.some.inj hsome ▸ hmem)

end Answer

/-! ## The client -/

section Client

variable {p : Segment} {buffer : List Char}

/-- **The request** is the line, as far as there is room for it. -/
theorem request_spec (v : Arrays) {filename : List Char} (hclean : ∀ c ∈ filename, c ≠ NUL) :
    request v filename = some ((request_line filename).take 511) := by
  have hline : ∀ c ∈ request_line filename, c ≠ NUL :=
    around_ne_nul (by decide +kernel) (by decide +kernel) hclean
  -- of a line that is too long the newline, too, is cut off
  rw [request, snprintf, v.request_size, if_neg (by decide)]
  exact print_string_append_nul (fun c hc => hline c (List.mem_of_mem_take hc)) _

/-- The buffer has room for what `recv` may return, and for the NUL behind it. -/
theorem fill_spec (p : Segment) (hbuffer : buffer.length = BUFFER_SIZE) :
    ∃ b rest, fill buffer p = some b ∧ b.length = BUFFER_SIZE ∧ b = p.bytes ++ NUL :: rest := by
  -- `recv` is given one byte less than the buffer has
  have hle := p.le_max
  have hpos : 0 < (buffer.drop p.bytes.length).length := by
    rw [List.length_drop, hbuffer]
    rw [BUFFER_SIZE] at hle ⊢
    omega
  obtain ⟨c, rest, hdrop⟩ := List.exists_cons_of_ne_nil (List.length_pos_iff.mp hpos)
  refine ⟨_, rest, by rw [fill, hdrop, store_append_cons], ?_, rfl⟩
  have hlen := congrArg List.length hdrop
  rw [List.length_drop, hbuffer, List.length_cons] at hlen
  rw [List.length_append, List.length_cons]
  rw [BUFFER_SIZE] at *
  omega

/-- The `NUL` behind a piece ends its string at the latest. -/
theorem cstr_piece (bytes rest : List Char) : cstr (bytes ++ NUL :: rest) = cstr bytes := by
  by_cases hmem : NUL ∈ bytes
  · exact CMem.cstr_append_of_mem hmem _
  · have hne : ∀ c ∈ bytes, c ≠ NUL := fun c hc heq => hmem (heq ▸ hc)
    rw [cstr_append_nul hne, cstr_of_ne_nul hne]

/-- `printf("%s", buffer)` prints the piece up to its first `NUL`. -/
theorem print_piece (bytes rest : List Char) :
    print_string (bytes ++ NUL :: rest) = some (cstr bytes) := by
  rw [print_string_of_lt, cstr_piece]
  rw [cstr_piece, List.length_append, List.length_cons]
  have := (List.takeWhile_prefix (l := bytes) fun c => c ≠ NUL).length_le
  rw [← cstr] at this
  omega

/-- What is printed of the pieces of an answer: of each what stands before its first NUL. -/
def shown (recv : List Segment) : List Char :=
  recv.flatMap fun p => cstr p.bytes

/-- The bytes of the pieces. -/
def stream (recv : List Segment) : List Char :=
  recv.flatMap Segment.bytes

/-- One more piece, and what is printed of it. -/
theorem shown_snoc (recv : List Segment) (p : Segment) :
    shown (recv ++ [p]) = shown recv ++ cstr p.bytes := by
  rw [shown, List.flatMap_append, List.flatMap_singleton, shown]

/-- One more piece of the stream. -/
theorem stream_snoc (recv : List Segment) (p : Segment) :
    stream (recv ++ [p]) = stream recv ++ p.bytes := by
  rw [stream, List.flatMap_append, List.flatMap_singleton, stream]

theorem shown_cons (p : Segment) (recv : List Segment) :
    shown (p :: recv) = cstr p.bytes ++ shown recv :=
  List.flatMap_cons

theorem stream_cons (p : Segment) (recv : List Segment) :
    stream (p :: recv) = p.bytes ++ stream recv :=
  List.flatMap_cons

/-- The state of the loop when the pieces `done` have come. -/
structure Printed (done : List Segment) (s : Printing) : Prop where
  buffer_size : s.buffer.length = BUFFER_SIZE
  printed_eq : s.printed = shown done
  total_eq : s.total_received = (stream done).length % 2 ^ 64

/-- A pass prints the string of its piece and counts all of its bytes. What the buffer held before
does not matter. -/
theorem print_pass_spec {s : Printing} (hbuffer : s.buffer.length = BUFFER_SIZE) (p : Segment) :
    ∃ b, b.length = BUFFER_SIZE ∧ print_pass s p
      = some { buffer := b, printed := s.printed ++ cstr p.bytes,
               total_received := (s.total_received + p.bytes.length) % 2 ^ 64 } := by
  obtain ⟨b, rest, hfill, hlen, hb⟩ := fill_spec p hbuffer
  refine ⟨b, hlen, ?_⟩
  rw [print_pass, hfill, Option.bind_eq_bind, Option.bind_some, hb, print_piece]
  rfl

/-- **A client that is alone** prints the strings of its pieces, and counts all bytes. -/
theorem receive_alone_spec (v : Arrays) (recv : List Segment) :
    receive_alone v recv = some (shown recv, (stream recv).length % 2 ^ 64) := by
  have hstep : ∀ (done : List Segment) (p : Segment) (s : Printing), p ∈ recv →
      Printed done s → ∃ s', print_pass s p = some s' ∧ Printed (done ++ [p]) s' := by
    intro done p s _ hs
    obtain ⟨b, hlen, hpass⟩ := print_pass_spec hs.buffer_size p
    refine ⟨_, hpass, hlen, ?_, ?_⟩
    · rw [shown_snoc, ← hs.printed_eq]
    · rw [stream_snoc, List.length_append, hs.total_eq, Nat.mod_add_mod]
  have hstart : Printed [] { buffer := v.buffer, printed := [], total_received := 0 } :=
    ⟨v.buffer_size, rfl, rfl⟩
  obtain ⟨s, hrun, hs⟩ := foldlM_spec Printed hstart hstep
  rw [receive_alone, hrun, Option.bind_eq_bind, Option.bind_some, hs.printed_eq, hs.total_eq]

/-- What is printed is what was sent when there is no `NUL` in it, and only then. -/
theorem shown_eq_iff (recv : List Segment) : shown recv = stream recv ↔ NUL ∉ stream recv := by
  have hpiece : ∀ bytes : List Char, cstr bytes = bytes ↔ NUL ∉ bytes := by
    intro bytes
    refine ⟨fun h hmem => cstr_ne_nul NUL (h ▸ hmem) rfl, fun h => ?_⟩
    exact cstr_of_ne_nul fun c hc heq => h (heq ▸ hc)
  have hle : ∀ recv : List Segment, (shown recv).length ≤ (stream recv).length := by
    intro recv
    induction recv with
    | nil => exact Nat.le_refl _
    | cons p recv ih =>
        have hone := (List.takeWhile_prefix (l := p.bytes) fun c => c ≠ NUL).length_le
        rw [← cstr] at hone
        rw [shown_cons, stream_cons, List.length_append, List.length_append]
        omega
  induction recv with
  | nil => exact iff_of_true rfl List.not_mem_nil
  | cons p recv ih =>
      have hone := List.takeWhile_prefix (l := p.bytes) fun c => c ≠ NUL
      have hrest := hle recv
      rw [← cstr] at hone
      rw [shown_cons, stream_cons, List.mem_append, not_or]
      refine Iff.trans ?_ (and_congr (hpiece p.bytes) ih)
      constructor
      · intro h
        -- no piece can make up for what another one has lost
        have hlen := congrArg List.length h
        have hshort := hone.length_le
        rw [List.length_append, List.length_append] at hlen
        have heq := hone.eq_of_length (by omega)
        rw [heq] at h
        exact ⟨heq, List.append_cancel_left h⟩
      · rintro ⟨hfirst, hothers⟩
        rw [hfirst, hothers]

/-- The first line of a piece, as far as a client of a pool keeps it. -/
def line (bytes : List Char) : List Char :=
  ((cstr bytes).takeWhile fun c => c ≠ '\n').take 255

/-- `strchr` and `strlen` agree on the length of the first line, with a newline in the piece and
without. -/
theorem first_length_spec {b rest : List Char} {bytes : List Char} (hb : b = bytes ++ NUL :: rest) :
    first_length b = some ((cstr bytes).takeWhile fun c => c ≠ '\n').length := by
  have hcstr : cstr b = cstr bytes := by rw [hb, cstr_piece]
  have hnul : NUL ∈ b := by
    rw [hb]
    exact List.mem_append_right _ List.mem_cons_self
  rw [first_length, strlen, if_pos hnul, Option.bind_eq_bind, Option.bind_some, hcstr]
  by_cases hmem : '\n' ∈ cstr bytes
  · rw [if_pos hmem, strcspn, hcstr]
    simp
  · rw [if_neg hmem, List.takeWhile_eq_self_iff.mpr]
    intro c hc
    exact decide_eq_true fun heq => hmem (heq ▸ hc)

/-- The state of the loop when the pieces `done` have come, one at least. -/
structure Collected (first_line : List Char) (done : List Segment) (s : Collecting) : Prop where
  buffer_size : s.buffer.length = BUFFER_SIZE
  first_line_eq : s.first_line = first_line
  later : s.first_chunk = false
  total_eq : s.total_received = (stream done).length % 2 ^ 64

/-- The first piece: its first line is copied, as far as there is room, and a `NUL` put behind
it. -/
theorem first_pass_spec {s : Collecting} (hbuffer : s.buffer.length = BUFFER_SIZE)
    (hline : s.first_line.length = 256) (hfirst : s.first_chunk = true) (p : Segment) :
    ∃ b rest, b.length = BUFFER_SIZE ∧ pool_pass s p
      = some { buffer := b, first_line := line p.bytes ++ NUL :: rest, first_chunk := false,
               total_received := (s.total_received + p.bytes.length) % 2 ^ 64 } := by
  obtain ⟨b, rest, hfill, hlen, hb⟩ := fill_spec p hbuffer
  have hlength := first_length_spec hb
  have hprefix : (cstr p.bytes).takeWhile (fun c => c ≠ '\n') <+: b := by
    rw [hb]
    exact ((List.takeWhile_prefix _).trans (List.takeWhile_prefix _)).trans
      (List.prefix_append _ _)
  generalize hl : (cstr p.bytes).takeWhile (fun c => c ≠ '\n') = l at hlength hprefix
  have hmin : (if l.length ≥ 256 then 256 - 1 else l.length) = (l.take 255).length := by
    rw [List.length_take]
    split_ifs <;> omega
  have hcopy : memcpy b (l.take 255).length = some (l.take 255) := by
    have hsub := (List.take_prefix 255 l).trans hprefix
    rw [memcpy_of_le hsub.length_le]
    exact congrArg some (List.prefix_iff_eq_take.mp hsub).symm
  -- at most 255 are copied, and one place is left for the `NUL`
  have hroom : 0 < (s.first_line.drop (l.take 255).length).length := by
    rw [List.length_drop, hline, List.length_take]
    omega
  obtain ⟨c, rest', hdrop⟩ := List.exists_cons_of_ne_nil (List.length_pos_iff.mp hroom)
  refine ⟨b, rest', hlen, ?_⟩
  rw [pool_pass, hfill, Option.bind_eq_bind, Option.bind_some, if_pos hfirst]
  simp only [hlength, hline, hmin, hcopy, hdrop, store_append_cons, Option.bind_eq_bind,
    Option.bind_some, line, hl]

/-- The other pieces leave `first_line` alone; they are counted, and not looked at. -/
theorem later_pass_spec {s : Collecting} (hbuffer : s.buffer.length = BUFFER_SIZE)
    (hfirst : s.first_chunk = false) (p : Segment) :
    ∃ b, b.length = BUFFER_SIZE ∧ pool_pass s p
      = some { buffer := b, first_line := s.first_line, first_chunk := false,
               total_received := (s.total_received + p.bytes.length) % 2 ^ 64 } := by
  obtain ⟨b, rest, hfill, hlen, -⟩ := fill_spec p hbuffer
  refine ⟨b, hlen, ?_⟩
  rw [pool_pass, hfill, Option.bind_eq_bind, Option.bind_some, hfirst, if_neg Bool.false_ne_true]
  rfl

/-- **A client of a pool** reports the first line of the first piece, and counts all bytes. -/
theorem receive_pool_spec (v : Arrays) (p : Segment) (recv : List Segment) :
    receive_pool v (p :: recv)
      = some (line p.bytes, (stream (p :: recv)).length % 2 ^ 64) := by
  obtain ⟨b, rest, hlen, hpass⟩ := @first_pass_spec ⟨v.buffer, List.replicate 256 NUL, true, 0⟩
    v.buffer_size List.length_replicate rfl p
  have hstep : ∀ (done : List Segment) (p' : Segment) (s : Collecting), p' ∈ recv →
      Collected (line p.bytes ++ NUL :: rest) (p :: done) s →
        ∃ s', pool_pass s p' = some s'
          ∧ Collected (line p.bytes ++ NUL :: rest) (p :: (done ++ [p'])) s' := by
    intro done p' s _ hs
    obtain ⟨b, hlen, hpass⟩ := later_pass_spec hs.buffer_size hs.later p'
    refine ⟨_, hpass, hlen, hs.first_line_eq, rfl, ?_⟩
    rw [← List.cons_append, stream_snoc, List.length_append, hs.total_eq, Nat.mod_add_mod]
  have hstart : Collected (line p.bytes ++ NUL :: rest) [p]
      ⟨b, line p.bytes ++ NUL :: rest, false, (0 + p.bytes.length) % 2 ^ 64⟩ := by
    refine ⟨hlen, rfl, rfl, ?_⟩
    rw [stream_cons, Nat.zero_add]
    exact congrArg (fun l : List Char => l.length % 2 ^ 64) (List.append_nil p.bytes).symm
  obtain ⟨s, hrun, hs⟩ :=
    foldlM_spec (fun done => Collected (line p.bytes ++ NUL :: rest) (p :: done)) hstart hstep
  have hnul : ∀ c ∈ line p.bytes, c ≠ NUL := fun c hc =>
    cstr_ne_nul c ((List.takeWhile_prefix _).mem (List.mem_of_mem_take hc))
  rw [receive_pool, List.foldlM_cons, hpass]
  simp only [Option.bind_eq_bind, Option.bind_some, hrun, hs.first_line_eq, hs.total_eq,
    print_string_append_nul hnul]

end Client

/-! ## From the directory to the console -/

section Transfer

variable {fopen : List Char → Option (List Char)} {v : Locals} {a : Arrays}
  {filename : List Char} {p q : Segment} {more pieces : List Segment} {answer : Answer}

/-- The file that a request for a name asks for, when it comes in one piece. -/
def served (filename : List Char) : List Char :=
  file_of ((request_line filename).take 511)

/-- The name of the file that is opened is a C string. -/
theorem served_ne_nul (filename : List Char) : ∀ c ∈ served filename, c ≠ NUL :=
  file_of_ne_nul _

/-- A plain name asks for the file of that name. -/
theorem served_eq (hname : Name filename) (hclean : ∀ c ∈ filename, c ≠ NUL)
    (hslash : '/' ∉ filename) : served filename = filename := by
  have hshort : (request_line filename).length ≤ 511 := by
    have := hname.short
    rw [request_line, List.length_append, List.length_append, GET]
    simp only [List.length_cons, List.length_nil]
    omega
  rw [served, List.take_of_length_le hshort, file_of_request_line hname, asked,
    cstr_of_ne_nul hclean, if_neg hname.ne_nil, basename_of_not_mem hslash]

/-- What is sent for a request that has come in one piece. -/
theorem sent_eq (hclean : ∀ c ∈ filename, c ≠ NUL) (hrequest : request a filename = some p.bytes)
    (hanswer : client_handler fopen v (p :: more) = some (some answer)) :
    answer.sent = response fopen (served filename) := by
  rw [request_spec a hclean, Option.some.injEq] at hrequest
  rw [client_handler_sent, ← hrequest] at hanswer
  rw [← Option.some.inj (Option.some.inj hanswer), served]

/-- The first line of a piece of a stream that starts with the line `s`. -/
theorem line_of_status {s bytes after rest : List Char} (hnul : NUL ∉ s) (hnewline : '\n' ∉ s)
    (hlen : s.length ≤ 255) (h : bytes ++ after = s ++ '\n' :: rest) :
    line bytes = s.take bytes.length := by
  have hne : ∀ c ∈ s, c ≠ NUL := fun _ hc => ne_of_mem_of_not_mem hc hnul
  have hstop : ∀ c ∈ s, decide (c ≠ '\n') = true := fun _ hc =>
    decide_eq_true (ne_of_mem_of_not_mem hc hnewline)
  have hself : ∀ l : List Char, l <+: s → line l = l := by
    intro l hl
    rw [line, cstr_of_ne_nul fun c hc => hne c (hl.mem hc), List.takeWhile_eq_self_iff.mpr,
      List.take_of_length_le (hl.length_le.trans hlen)]
    exact fun c hc => hstop c (hl.mem hc)
  rcases List.prefix_or_prefix_of_prefix (h ▸ List.prefix_append bytes after)
    (List.prefix_append s ('\n' :: rest)) with hpart | ⟨t, ht⟩
  · -- the piece ends in the line
    rw [hself bytes hpart, ← List.prefix_iff_eq_take.mp hpart]
  · cases t with
    | nil =>
        -- it ends before the newline
        rw [List.append_nil] at ht
        rw [← ht, hself s (List.prefix_refl s), List.take_length]
    | cons c t =>
        -- it has the newline, and perhaps a `NUL` behind it
        rw [← ht, List.append_assoc, List.cons_append] at h
        obtain ⟨rfl, -⟩ := List.cons.inj (List.append_cancel_left h)
        have hcstr : cstr (s ++ '\n' :: t) = s ++ '\n' :: cstr t := by
          rw [cstr_append_of_not_mem hnul]
          rfl
        rw [← ht, line, hcstr, List.takeWhile_append_of_pos hstop,
          List.takeWhile_cons_of_neg (by simp), List.append_nil, List.take_of_length_le hlen,
          List.take_of_length_le (by simp)]

/-- **A client that is alone.** However the answer is cut, all its bytes are counted, and it is
printed as it was sent if, and only if, there is no `NUL` in the file. A plain name is answered
with the file of that name. -/
theorem transfer_alone (hclean : ∀ c ∈ filename, c ≠ NUL)
    (hrequest : request a filename = some p.bytes)
    (hanswer : client_handler fopen v (p :: more) = some (some answer))
    (hpieces : stream pieces = answer.sent) :
    ∃ printed, receive_alone a pieces
        = some (printed, (response fopen (served filename)).length % 2 ^ 64)
      ∧ (printed = response fopen (served filename)
        ↔ ∀ contents, fopen (PROXY_DIR ++ '/' :: served filename) = some contents →
          NUL ∉ contents)
      ∧ (Name filename → '/' ∉ filename → served filename = filename) := by
  rw [sent_eq hclean hrequest hanswer] at hpieces
  refine ⟨_, by rw [receive_alone_spec, hpieces], ?_,
    fun hname hslash => served_eq hname hclean hslash⟩
  rw [← hpieces, shown_eq_iff, hpieces, nul_mem_response_iff (served_ne_nul filename)]
  simp

/-- A directory with one file. -/
def directory (path : List Char) : Option (List Char) :=
  if path = PROXY_DIR ++ "/a.txt".toList then some "hi".toList else none

/-- The request for it. -/
def get_a : Segment :=
  ⟨"GET a.txt\n".toList, by decide, by decide⟩

/-- The answer, cut in the status line. -/
def front : Segment :=
  ⟨(response directory "a.txt".toList).take 20, by decide +kernel, by decide +kernel⟩

/-- The rest of the answer, from the status line on. -/
def back : Segment :=
  ⟨(response directory "a.txt".toList).drop 20, by decide +kernel, by decide +kernel⟩

/-- The array `request` of the source. -/
theorem length_request : (List.replicate 512 NUL).length = 512 :=
  List.length_replicate

/-- The array `buffer` of the source. -/
theorem length_buffer : (List.replicate BUFFER_SIZE NUL).length = BUFFER_SIZE :=
  List.length_replicate

/-- Local arrays with nothing in them. -/
def cleared : Arrays where
  request := List.replicate 512 NUL
  buffer := List.replicate BUFFER_SIZE NUL
  request_size := length_request
  buffer_size := length_buffer

theorem a_ne_nul : ∀ c ∈ "a.txt".toList, c ≠ NUL :=
  fun _ hc => ne_of_mem_of_not_mem hc (by decide +kernel)

/-- The request fits its array and one `recv`. -/
theorem request_a : request cleared "a.txt".toList = some get_a.bytes := by
  rw [request_spec cleared a_ne_nul]
  decide +kernel

/-- The proxy looks for the file of that name. -/
theorem served_a : served "a.txt".toList = "a.txt".toList :=
  served_eq ⟨by decide, by simp [isspace], by decide⟩ a_ne_nul (by decide)

/-- The two pieces are the answer. -/
theorem stream_a : stream [front, back] = response directory "a.txt".toList := by
  rw [stream_cons, stream_cons, front, back]
  exact (congrArg (_ ++ ·) (List.append_nil _)).trans (List.take_append_drop 20 _)

theorem transfer_alone_sample :
    receive_alone cleared [front, back]
      = some (response directory "a.txt".toList,
        (response directory "a.txt".toList).length % 2 ^ 64) := by
  have hanswer := client_handler_sent directory zeros get_a []
  have hserved : file_of get_a.bytes = "a.txt".toList := served_a
  obtain ⟨printed, hrun, hprinted, -⟩ := transfer_alone a_ne_nul request_a hanswer
    (stream_a.trans (congrArg (response directory) hserved.symm))
  have hall : printed = response directory (served "a.txt".toList) := by
    refine hprinted.mpr fun contents hcontents => ?_
    rw [served_a] at hcontents
    rw [← Option.some.inj hcontents]
    decide
  rw [hrun, hall, served_a]

/-- **A client of a pool.** However the answer is cut, all its bytes are counted, and what is
reported is a part of the status line; it is all of it if the first piece has all of it. -/
theorem transfer_pool (hclean : ∀ c ∈ filename, c ≠ NUL)
    (hrequest : request a filename = some p.bytes)
    (hanswer : client_handler fopen v (p :: more) = some (some answer))
    (hpieces : stream (q :: pieces) = answer.sent) :
    ∃ reported, receive_pool a (q :: pieces)
        = some (reported, (response fopen (served filename)).length % 2 ^ 64)
      ∧ reported ≠ [] ∧ reported <+: status fopen (served filename)
      ∧ (reported = status fopen (served filename)
        ↔ (status fopen (served filename)).length ≤ q.bytes.length) := by
  rw [sent_eq hclean hrequest hanswer] at hpieces
  refine ⟨_, by rw [receive_pool_spec, hpieces], ?_⟩
  obtain ⟨rest, hstatus⟩ := response_status fopen (served filename)
  rw [hstatus, stream_cons] at hpieces
  generalize hs : status fopen (served filename) = s at hpieces
  -- the status line is one of two fixed texts
  have hchars : NUL ∉ s ∧ '\n' ∉ s := by
    rw [← hs, status]
    split_ifs <;> decide +kernel
  have hlen : s.length ≤ 255 := by
    rw [← hs, status]
    split_ifs <;> decide +kernel
  have hpos : 0 < s.length := by
    rw [← hs, status]
    split_ifs <;> decide +kernel
  rw [line_of_status hchars.1 hchars.2 hlen hpieces]
  refine ⟨?_, List.take_prefix _ _, fun h => ?_, List.take_of_length_le⟩
  · have hq := q.pos
    apply List.ne_nil_of_length_pos
    rw [List.length_take]
    omega
  -- what was reported of it is all of it only if the first piece was that long
  · have hlength := congrArg List.length h
    rw [List.length_take] at hlength
    omega

theorem transfer_pool_sample :
    ∃ reported, receive_pool cleared [front, back]
        = some (reported, (response directory "a.txt".toList).length % 2 ^ 64)
      ∧ reported ≠ [] ∧ reported <+: status directory "a.txt".toList
      ∧ (reported = status directory "a.txt".toList
        ↔ (status directory "a.txt".toList).length ≤ front.bytes.length) := by
  have hanswer := client_handler_sent directory zeros get_a []
  have hserved : file_of get_a.bytes = "a.txt".toList := served_a
  have hrun := transfer_pool a_ne_nul request_a hanswer
    (stream_a.trans (congrArg (response directory) hserved.symm))
  rwa [served_a] at hrun

end Transfer

end CourseLabs.FileTransfer
