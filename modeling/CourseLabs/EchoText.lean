/-
The texts of the echo programs, `tcp_server.c`, `tcp_client.c`, `udp_server.c` and
`udp_client.c`.

The four share two pieces of code. A server makes a string of what it receives: the bytes of
one call into a cleared buffer, cut at the first line end, and compared with the two words
that stop it (`request_spec`). And an interactive client makes messages of what it reads: one
for each line that is not empty, up to the first of these words (`interactive_spec`). What is
sent in between is up to the network, in `UdpEcho` and `TcpEcho`.
-/
import CourseLabs.CLoop
import CourseLabs.CText
import CourseLabs.CType

set_option autoImplicit false

namespace CourseLabs.Echo

open CourseLabs.CLoop CourseLabs.CMem CourseLabs.CText CourseLabs.CType

/-! ## The program -/

def BUFFER_SIZE : ℕ := 1024

/-- `strcasecmp(a, b) == 0` -/
def strcasecmp_eq (a b : List Char) : Bool :=
  (cstr a).map tolower = (cstr b).map tolower

/-- Whether a buffer holds one of the two commands. -/
def is_exit (buffer : List Char) : Bool :=
  strcasecmp_eq buffer "exit".toList || strcasecmp_eq buffer "quit".toList

/-- `buffer[strcspn(buffer, "\r\n")] = '\0'` -/
def strip (buffer : List Char) : Option (List Char) :=
  store buffer (strcspn buffer ['\r', '\n']) NUL

/-- The buffer once it is cleared and `bytes` are received. -/
def filled (bytes : List Char) : List Char :=
  bytes ++ List.replicate (BUFFER_SIZE - bytes.length) NUL

/-- What a server makes of the bytes it receives: whether to stop, and the string. -/
def request (bytes : List Char) : Option (Bool × List Char) := do
  let buffer ← strip (filled bytes)
  some (is_exit buffer, ← print_string buffer)

/-- One pass of the interactive loop of a client, with the rest of the input and the messages
so far. The cells of the buffer behind the line are not read. -/
def interactive_body (v : List Char × List (List Char)) :
    Option (Pass (List Char × List (List Char)) (List (List Char))) :=
  match fgets BUFFER_SIZE v.1 with
  | none => some (.done v.2)
  | some (line, stdin) => do
    let buffer ← strip (line ++ [NUL])
    let len ← strlen buffer
    if len = 0 then
      some (.next (stdin, v.2))
    else do
      let message ← print_string buffer
      if is_exit buffer then
        some (.done (v.2 ++ [message]))
      else
        some (.next (stdin, v.2 ++ [message]))

/-- The messages an interactive client sends, if it is not told to stop by the server. -/
def interactive (stdin : List Char) : Option (List (List Char)) :=
  loop interactive_body (stdin, [])

/-! ## The string of a buffer -/

/-- The string in a buffer, up to its first line end. -/
def text (buffer : List Char) : List Char :=
  (cstr buffer).takeWhile fun c => c ∉ ['\r', '\n']

/-- The words that stop a server, in any case. -/
def asksToStop (s : List Char) : Bool :=
  s.map tolower = "exit".toList || s.map tolower = "quit".toList

section Strings

variable {buffer s : List Char}

theorem text_ne (h : s = text buffer) : ∀ c ∈ s, c ≠ NUL ∧ c ≠ '\r' ∧ c ≠ '\n' := by
  intro c hc
  rw [h] at hc
  have hline := List.all_eq_true.mp List.all_takeWhile c hc
  have hnul := cstr_ne_nul c ((List.takeWhile_subset _) hc)
  simp only [List.mem_cons, List.not_mem_nil, or_false, not_or, decide_eq_true_eq] at hline
  exact ⟨hnul, hline⟩

/-- A string without line ends is its own text. -/
theorem text_of_ne (h : ∀ c ∈ s, c ≠ NUL ∧ c ≠ '\r' ∧ c ≠ '\n') : text s = s := by
  rw [text, cstr_of_ne_nul fun c hc => (h c hc).1, List.takeWhile_eq_self_iff]
  intro c hc
  simp [(h c hc).2]

theorem length_text_le (buffer : List Char) : (text buffer).length ≤ buffer.length :=
  ((List.takeWhile_prefix _).trans (List.takeWhile_prefix _)).length_le

theorem cstr_append_nuls (s : List Char) (n : ℕ) : cstr (s ++ List.replicate n NUL) = cstr s := by
  by_cases hs : NUL ∈ s
  · exact cstr_append_of_mem hs _
  · rw [cstr_append_of_not_mem hs, cstr_of_ne_nul fun c hc heq => hs (heq ▸ hc)]
    cases n with
    | zero => exact List.append_nil s
    | succ n => simp [cstr, List.replicate_succ]

theorem strip_spec (h : NUL ∈ buffer) :
    ∃ b, strip buffer = some b ∧ cstr b = text buffer ∧ print_string b = some (text buffer) := by
  obtain ⟨rest, hrest⟩ := exists_cstr_split h
  have hlen : (cstr buffer).length < buffer.length := by
    conv_rhs => rw [hrest, List.length_append, List.length_cons]
    omega
  have hle : (text buffer).length ≤ (cstr buffer).length :=
    (List.takeWhile_prefix _).length_le
  have hcstr : cstr (buffer.set (text buffer).length NUL) = text buffer := by
    rw [cstr_set_nul hle (by omega)]
    exact (List.prefix_iff_eq_take.mp (List.takeWhile_prefix _)).symm
  refine ⟨_, store_of_lt (by omega : (text buffer).length < buffer.length) NUL, hcstr, ?_⟩
  rw [print_string_of_lt (by rw [hcstr, List.length_set]; omega), hcstr]

theorem is_exit_eq (h : cstr buffer = s) : is_exit buffer = asksToStop s := by
  rw [is_exit, strcasecmp_eq, strcasecmp_eq, h, asksToStop]
  congr 2

/-- **A request.** The server reads the text of the bytes, whatever they are. -/
theorem request_spec (bytes : List Char) (hlen : bytes.length ≤ BUFFER_SIZE - 1) :
    request bytes = some (asksToStop (text bytes), text bytes) := by
  have hnul : NUL ∈ filled bytes := by
    refine List.mem_append_right _ (List.mem_replicate.mpr ⟨?_, rfl⟩)
    rw [BUFFER_SIZE] at hlen ⊢
    omega
  have htext : text (filled bytes) = text bytes := by
    rw [text, filled, cstr_append_nuls, text]
  obtain ⟨b, hb, hcstr, hprint⟩ := strip_spec hnul
  rw [htext] at hcstr hprint
  rw [request, hb, Option.bind_eq_bind, Option.bind_some, hprint, is_exit_eq hcstr]
  rfl

end Strings

/-! ## The messages of a client -/

/-- A line that can be sent. -/
structure Message (m : List Char) : Prop where
  ne_nil : m ≠ []
  length_le : m.length ≤ BUFFER_SIZE - 1
  clean : ∀ c ∈ m, c ≠ NUL ∧ c ≠ '\r' ∧ c ≠ '\n'

/-- The messages of a session: none but the last one stops the server. -/
structure Messages (msgs : List (List Char)) : Prop where
  message : ∀ m ∈ msgs, Message m
  last : ∀ pre m post, msgs = pre ++ m :: post → asksToStop m = true → post = []

/-- The loop goes on while no message has stopped the server. -/
structure Reading (msgs : List (List Char)) : Prop where
  message : ∀ m ∈ msgs, Message m
  goes_on : ∀ m ∈ msgs, asksToStop m = false

theorem reading_nil : Reading [] :=
  ⟨fun _ h => absurd h List.not_mem_nil, fun _ h => absurd h List.not_mem_nil⟩

theorem Reading.messages {msgs : List (List Char)} (h : Reading msgs) : Messages msgs := by
  refine ⟨h.message, fun pre m post hsplit hstop => ?_⟩
  rw [h.goes_on m (by rw [hsplit]; simp)] at hstop
  exact nomatch hstop

theorem Reading.snoc {msgs : List (List Char)} {m : List Char} (h : Reading msgs)
    (hm : Message m) : Messages (msgs ++ [m]) ∧ (asksToStop m = false → Reading (msgs ++ [m])) := by
  have hmessage : ∀ m' ∈ msgs ++ [m], Message m' := by
    intro m' hm'
    rcases List.mem_append.mp hm' with hold | hnew
    · exact h.message m' hold
    · exact List.mem_singleton.mp hnew ▸ hm
  refine ⟨⟨hmessage, fun pre m' post hsplit hstop => ?_⟩, fun hgo => ⟨hmessage, ?_⟩⟩
  · by_contra hpost
    obtain ⟨init, x, rfl⟩ := List.eq_nil_or_concat post |>.resolve_left hpost
    rw [List.concat_eq_append, ← List.cons_append, ← List.append_assoc] at hsplit
    obtain ⟨rfl, -⟩ := List.append_inj' hsplit rfl
    rw [h.goes_on m' (by simp)] at hstop
    exact nomatch hstop
  · intro m' hm'
    rcases List.mem_append.mp hm' with hold | hnew
    · exact h.goes_on m' hold
    · exact List.mem_singleton.mp hnew ▸ hgo

/-- **The interactive loop** ends, and makes messages of the input whatever it is. -/
theorem interactive_spec (stdin : List Char) :
    ∃ msgs, interactive stdin = some msgs ∧ Messages msgs := by
  refine loop_spec (fun v => v.1.length) (fun v => Reading v.2) Messages ?_ reading_nil
  rintro ⟨stdin, msgs⟩ hread
  -- the end of the input ends the loop
  cases hline : fgets BUFFER_SIZE stdin with
  | none => exact Or.inl ⟨msgs, by rw [interactive_body, hline], hread.messages⟩
  | some p =>
      obtain ⟨line, rest⟩ := p
      obtain ⟨hsplit, hlen, hne⟩ := fgets_spec hline
      -- a line takes something off the input, which is why the loop ends
      have hless : rest.length < stdin.length := by
        rw [← hsplit, List.length_append]
        have := List.length_pos_iff.mpr (hne (by decide))
        omega
      obtain ⟨b, hb, hcstr, hprint⟩ := @strip_spec (line ++ [NUL]) (by simp)
      have hstrlen : strlen b = some (text (line ++ [NUL])).length := by
        rw [print_string] at hprint
        cases hlen : strlen b with
        | none =>
            rw [hlen] at hprint
            exact absurd hprint (Option.some_ne_none _).symm
        | some n =>
            rw [strlen] at hlen
            split_ifs at hlen
            rw [← hcstr, ← Option.some.inj hlen]
      -- an empty line is not sent
      by_cases hempty : text (line ++ [NUL]) = []
      · right
        refine ⟨(rest, msgs), ?_, hread, hless⟩
        simp only [interactive_body, hline, hb, hstrlen, Option.bind_eq_bind, Option.bind_some,
          hempty, List.length_nil, if_true]
      · have hmessage : Message (text (line ++ [NUL])) := by
          refine ⟨hempty, ?_, text_ne rfl⟩
          have htext : text (line ++ [NUL]) = text line := by
            rw [text, show [NUL] = List.replicate 1 NUL from rfl, cstr_append_nuls, text]
          rw [htext]
          exact (length_text_le line).trans hlen
        obtain ⟨hmessages, hreading⟩ := hread.snoc hmessage
        have hpos : (text (line ++ [NUL])).length ≠ 0 := by
          rwa [Ne, List.length_eq_zero_iff]
        -- `exit` is sent and then the loop ends
        cases hexit : asksToStop (text (line ++ [NUL])) with
        | true =>
            left
            refine ⟨msgs ++ [text (line ++ [NUL])], ?_, hmessages⟩
            simp only [interactive_body, hline, hb, hstrlen, Option.bind_eq_bind, Option.bind_some,
              if_neg hpos, hprint, is_exit_eq hcstr, hexit, if_true]
        | false =>
            right
            refine ⟨(rest, msgs ++ [text (line ++ [NUL])]), ?_, hreading hexit, hless⟩
            simp only [interactive_body, hline, hb, hstrlen, Option.bind_eq_bind, Option.bind_some,
              if_neg hpos, hprint, is_exit_eq hcstr, hexit, Bool.false_eq_true, if_false]

/-- Three lines of input, the second one empty. -/
def threeLines : List Char :=
  "hi\n\nexit\n".toList

theorem interactive_threeLines :
    interactive threeLines = some ["hi".toList, "exit".toList] := by
  rw [interactive, loop_eq_loopN 4 (by decide +kernel)]
  decide +kernel

end CourseLabs.Echo
