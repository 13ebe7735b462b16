/-
`tcpServer.c`: `read_line` over a TCP socket, and the receive loop of `main`.

`read_line` keeps the last segment in static variables between its calls. What they stand
for is one list, the bytes received and not yet returned (`Ahead`), and a call takes one
line off that list followed by what the socket still holds, wherever the segments end.

Two slips bound this. The test `*(rcv_msg+rcv_ptr)!=END_LINE && rcv_ptr<n` reads the byte
before it tests the bound, so a full buffer whose last byte is not the end of a line is read
past its end. And `ERROR` is `1`, which is also the return value of an empty line: `main`
takes it for the end of the connection and leaves the rest of the buffer to the next one.
-/
import CourseLabs.CLoop
import CourseLabs.CMem

set_option autoImplicit false

namespace CourseLabs.LineReader

open CourseLabs.CLoop CourseLabs.CMem

/-! ## The program -/

/-- The value `read_line` returns when the connection is over. It is also the length of an empty
line with its end, and `main` cannot tell them apart. -/
def ERROR : ℕ := 1

/-- The byte that ends a line: the NUL of the C string the client sends. -/
def END_LINE : Char := NUL

/-- The size of all three arrays of the program. -/
def MAX_MSG : ℕ := 100

/-- What one successful `recv` returns: at least one byte and no more than it asks for. -/
structure Segment where
  bytes : List Char
  pos : 1 ≤ bytes.length
  le_max : bytes.length ≤ MAX_MSG

/-- What a call of `recv` finds while the peer has not closed. -/
inductive Received where
  | data (m : Segment)
  | failed

/-- A socket: what the next calls of `recv` find, and then the peer has closed. `closed` is
whether the server has closed its side. -/
structure Socket where
  pending : List Received
  closed : Bool

/-- The static variables of `read_line`: the buffer, how much is in it and how far it is read. They
outlive the connection they were filled from. -/
structure Static where
  rcv_ptr : ℕ
  rcv_msg : List Char
  n : ℤ

/-- Static variables start as zeros, so the first call reads from its socket. -/
def Static.init : Static where
  rcv_ptr := 0
  rcv_msg := List.replicate MAX_MSG NUL
  n := 0

/-- The variables a call of `read_line` works on: the static ones, the socket, and the line with
the place it is written to. -/
structure Frame extends Static where
  newSd : Socket
  line_to_return : List Char
  offset : ℕ

/-- `memset` and `recv`, and the two branches that return. Only the end of the connection closes
the socket; an error does not. -/
def receive_data (f : Frame) : Pass Frame (ℕ × Frame) :=
  match f.newSd.pending with
  | [] =>
      .done (ERROR, { f with
        rcv_msg := List.replicate MAX_MSG NUL, n := 0, newSd := { f.newSd with closed := true } })
  | .failed :: pending =>
      .done (ERROR, { f with
        rcv_msg := List.replicate MAX_MSG NUL, n := -1, newSd := { f.newSd with pending } })
  | .data m :: pending =>
      .next { f with
        rcv_msg := m.bytes ++ List.replicate (MAX_MSG - m.bytes.length) NUL
        n := m.bytes.length
        newSd := { f.newSd with pending } }

/-- The copying loop. Its condition reads `rcv_msg[rcv_ptr]` before it tests `rcv_ptr<n`. -/
def copy_body (f : Frame) : Option (Pass Frame Frame) := do
  let c ← f.rcv_msg[f.rcv_ptr]?
  if c ≠ END_LINE ∧ (f.rcv_ptr : ℤ) < f.n then do
    let line_to_return ← store f.line_to_return f.offset c
    some (.next { f with line_to_return, offset := f.offset + 1, rcv_ptr := f.rcv_ptr + 1 })
  else
    some (.done f)

/-- The copying loop and the three tests behind it, which tell apart the end of a line, with or
without more data, and the end of the buffer. -/
def copy_line (f : Frame) : Option (Pass Frame (ℕ × Frame)) := do
  let f ← loop copy_body f
  if (f.rcv_ptr : ℤ) = f.n - 1 then do
    -- end of line and end of buffer
    let line_to_return ← store f.line_to_return f.offset END_LINE
    some (.done (f.offset + 1, { f with line_to_return, rcv_ptr := 0, offset := f.offset + 1 }))
  else if (f.rcv_ptr : ℤ) < f.n - 1 then do
    -- end of line, and still some data in the buffer
    let line_to_return ← store f.line_to_return f.offset END_LINE
    some (.done (f.offset + 1,
      { f with line_to_return, rcv_ptr := f.rcv_ptr + 1, offset := f.offset + 1 }))
  else if (f.rcv_ptr : ℤ) = f.n then
    -- end of buffer, and the line is not ended
    some (.next { f with rcv_ptr := 0 })
  else
    some (.next f)

/-- The outer loop of `read_line`: receive if the buffer is used up, then copy until the end of the
line or of the buffer. -/
def read_line_body (f : Frame) : Option (Pass Frame (ℕ × Frame)) :=
  if f.rcv_ptr = 0 then
    match receive_data f with
    | .done r => some (.done r)
    | .next f => copy_line f
  else
    copy_line f

/-- The return value, with the variables as the call leaves them. -/
def read_line (static : Static) (newSd : Socket) (line_to_return : List Char) :
    Option (ℕ × Frame) :=
  loop read_line_body { static with newSd, line_to_return, offset := 0 }

/-- The variables of the receive loop. `received` is what its `printf` has shown: the return
value of `read_line` and the line. -/
structure Receiver where
  static : Static
  newSd : Socket
  line : List Char
  received : List (ℕ × List Char)

/-- The loop of `main` over the lines of one connection. The line is cleared before each call. -/
def receive_body (r : Receiver) : Option (Pass Receiver Receiver) := do
  let (rc, f) ← read_line r.static r.newSd r.line
  if rc ≠ ERROR then
    some (.next {
      static := f.toStatic
      newSd := f.newSd
      line := List.replicate MAX_MSG NUL
      received := r.received ++ [(rc, cstr f.line_to_return)] })
  else
    some (.done { r with static := f.toStatic, newSd := f.newSd, line := f.line_to_return })

/-- `main` between two calls of `accept`: lines are read until `read_line` returns `ERROR`. -/
def receive (static : Static) (newSd : Socket) : Option Receiver :=
  loop receive_body { static, newSd, line := List.replicate MAX_MSG NUL, received := [] }

/-- What `main` made of one connection: the lines, each with the length returned for it, and
whether the socket was closed. -/
structure Session where
  received : List (ℕ × List Char)
  closed : Bool

/-- `main` on the connections it accepts, one after the other. -/
def serve : List Socket → Static → Option (List Session)
  | [], _ => some []
  | newSd :: rest, static => do
      let r ← receive static newSd
      let sessions ← serve rest r.static
      some (⟨r.received, r.newSd.closed⟩ :: sessions)

/-! ## The bytes ahead -/

/-- A full buffer has no padding, so it must end in the end of a line. -/
def Segment.Terminated (m : Segment) : Prop :=
  m.bytes.length = MAX_MSG → m.bytes.getLast? = some END_LINE

/-- The bytes of a sequence of segments. -/
def stream (ms : List Segment) : List Char :=
  ms.flatMap Segment.bytes

/-- A socket whose peer sends `ms` and closes. No `recv` fails on it. -/
def Socket.sends (ms : List Segment) : Socket where
  pending := ms.map Received.data
  closed := false

/-- The buffer holds the bytes `u` from `rcv_ptr` to `n`, and behind them a `NUL` that stops
the copying loop, unless the last of them is one. -/
structure Buffered (st : Static) (u : List Char) : Prop where
  cells : ∃ pre pad, st.rcv_msg = pre ++ u ++ pad ∧ st.rcv_ptr = pre.length ∧
    (u.getLast? = some NUL ∨ ∃ post, pad = NUL :: post)
  bound : st.n = st.rcv_ptr + u.length
  ne_nil : u ≠ []

/-- The bytes received and not yet returned. With `rcv_ptr` at `0` there are none, whatever the
buffer contains. -/
def Ahead (st : Static) (u : List Char) : Prop :=
  st.rcv_ptr = 0 ∧ u = [] ∨ st.rcv_ptr ≠ 0 ∧ Buffered st u

/-- What `read_line` will see, `s`: the bytes ahead, and then those still on the socket. -/
structure Unread (st : Static) (newSd : Socket) (s : List Char) : Prop where
  split : ∃ u ms, Ahead st u ∧ newSd = Socket.sends ms ∧ (∀ m ∈ ms, m.Terminated) ∧
    s = u ++ stream ms

/-- The part of the line a call has copied so far. -/
structure Copied (f : Frame) (part : List Char) : Prop where
  line : ∃ rest, f.line_to_return = part ++ rest
  offset : f.offset = part.length
  size : f.line_to_return.length = MAX_MSG

/-! ## One line -/

section Copy

/-- There is room in the line for one byte more. -/
theorem Copied.put {f : Frame} {part : List Char} (h : Copied f part)
    (hroom : part.length < MAX_MSG) (c : Char) :
    ∃ rest, store f.line_to_return f.offset c = some (part ++ c :: rest) ∧
      (part ++ c :: rest).length = MAX_MSG := by
  obtain ⟨rest, hline⟩ := h.line
  have hsize := h.size
  rw [hline, List.length_append] at hsize
  cases rest with
  | nil =>
      rw [List.length_nil] at hsize
      omega
  | cons r rest =>
      refine ⟨rest, ?_, by rw [List.length_append]; exact hsize⟩
      rw [hline, h.offset]
      exact store_append_cons part r c rest

/-- The copying loop goes over bytes none of which is a `NUL`. -/
theorem copy_over {a : List Char} :
    ∀ {f : Frame} {pre post part : List Char}, f.rcv_msg = pre ++ a ++ post →
      f.rcv_ptr = pre.length → NUL ∉ a → f.rcv_ptr + (a.length : ℤ) ≤ f.n → Copied f part →
      part.length + a.length ≤ MAX_MSG →
      ∃ f', loop copy_body f = loop copy_body f' ∧ Copied f' (part ++ a) ∧
        f'.rcv_ptr = f.rcv_ptr + a.length ∧ f'.rcv_msg = f.rcv_msg ∧ f'.n = f.n ∧
        f'.newSd = f.newSd := by
  induction a with
  | nil =>
      intro f pre post part _ _ _ _ hc _
      exact ⟨f, rfl, by simpa using hc, rfl, rfl, rfl, rfl⟩
  | cons c a ih =>
      intro f pre post part hmsg hptr ha hn hc hroom
      have hne : c ≠ NUL := fun h => ha (by simp [h])
      have hlen : (c :: a).length = a.length + 1 := rfl
      have hread : f.rcv_msg[f.rcv_ptr]? = some c := by rw [hmsg, hptr]; simp
      obtain ⟨rest, hput, hsize⟩ := hc.put (by omega) c
      -- one byte goes over, and the rest is a shorter run of the same loop
      have hpass : copy_body f = some (.next { f with
          line_to_return := part ++ c :: rest, offset := f.offset + 1,
          rcv_ptr := f.rcv_ptr + 1 }) := by
        unfold copy_body
        rw [hread, Option.bind_eq_bind, Option.bind_some, if_pos ⟨hne, by omega⟩, hput]
        rfl
      obtain ⟨f', hrun, hc', hptr', hmsg', hn', hsd'⟩ :=
        @ih { f with
            line_to_return := part ++ c :: rest, offset := f.offset + 1,
            rcv_ptr := f.rcv_ptr + 1 } (pre ++ [c]) post (part ++ [c])
          (by simp [hmsg]) (by simp [hptr]) (fun h => ha (by simp [h])) (by push_cast; omega)
          ⟨⟨rest, by simp⟩, by simp [hc.offset], hsize⟩ (by simp; omega)
      rw [loop_next hpass]
      exact ⟨f', hrun, by simpa using hc', by simp [hptr']; omega, hmsg', hn', hsd'⟩

/-- The copying loop goes up to the first `NUL`, which stands behind the bytes of a segment that
does not fill the buffer. -/
theorem copy_run {f : Frame} {a pre post part : List Char}
    (hmsg : f.rcv_msg = pre ++ a ++ NUL :: post) (hptr : f.rcv_ptr = pre.length) (ha : NUL ∉ a)
    (hn : f.rcv_ptr + (a.length : ℤ) ≤ f.n) (hc : Copied f part)
    (hroom : part.length + a.length ≤ MAX_MSG) :
    ∃ f', loop copy_body f = some f' ∧ Copied f' (part ++ a) ∧
      f'.rcv_ptr = f.rcv_ptr + a.length ∧ f'.rcv_msg = f.rcv_msg ∧ f'.n = f.n ∧
      f'.newSd = f.newSd := by
  obtain ⟨f', hrun, hc', hptr', hmsg', hrest⟩ := copy_over hmsg hptr ha hn hc hroom
  refine ⟨f', hrun.trans (loop_done ?_), hc', hptr', hmsg', hrest⟩
  have hread : f'.rcv_msg[f'.rcv_ptr]? = some NUL := by
    rw [hmsg', hptr', hmsg, hptr, ← List.length_append]
    exact getElem?_append_cons (pre ++ a) NUL post
  unfold copy_body
  rw [hread, Option.bind_eq_bind, Option.bind_some]
  exact if_neg fun h => h.1 rfl

/-- At a `NUL` before `n` the line is ended, and returned. -/
theorem copy_line_at_nul {f : Frame} {a pre post part : List Char}
    (hmsg : f.rcv_msg = pre ++ a ++ NUL :: post) (hptr : f.rcv_ptr = pre.length) (ha : NUL ∉ a)
    (hn : f.rcv_ptr + (a.length : ℤ) < f.n) (hc : Copied f part)
    (hroom : part.length + a.length < MAX_MSG) :
    ∃ f', copy_line f = some (.done (part.length + a.length + 1, f')) ∧
      f'.rcv_ptr
        = (if f.n = f.rcv_ptr + (a.length + 1 : ℤ) then 0 else (pre ++ a ++ [NUL]).length) ∧
      f'.rcv_msg = f.rcv_msg ∧ f'.n = f.n ∧ f'.newSd = f.newSd ∧
      ∃ rest, f'.line_to_return = part ++ a ++ NUL :: rest := by
  obtain ⟨f₁, hrun, hc₁, hptr₁, hmsg₁, hn₁, hsd₁⟩ :=
    copy_run hmsg hptr ha (Int.le_of_lt hn) hc hroom.le
  obtain ⟨rest, hput, -⟩ := hc₁.put (by rw [List.length_append]; exact hroom) END_LINE
  have hoff : f₁.offset = part.length + a.length := by rw [hc₁.offset, List.length_append]
  rw [hoff] at hput
  unfold copy_line
  rw [hrun, Option.bind_eq_bind, Option.bind_some, hoff, hput]
  by_cases hend : f.n = f.rcv_ptr + (a.length + 1 : ℤ)
  · -- the last byte of the buffer: the next call starts with a `recv`
    rw [if_pos (by omega), if_pos hend]
    exact ⟨_, rfl, rfl, hmsg₁, hn₁, hsd₁, rest, rfl⟩
  · rw [if_neg (by omega), if_pos (by omega), if_neg hend]
    refine ⟨_, rfl, ?_, hmsg₁, hn₁, hsd₁, rest, rfl⟩
    simp [hptr₁, hptr, Nat.add_assoc]

/-- At `n`, with a `NUL` behind it, the call goes back for more. -/
theorem copy_line_at_end {f : Frame} {u pre post part : List Char}
    (hmsg : f.rcv_msg = pre ++ u ++ NUL :: post) (hptr : f.rcv_ptr = pre.length) (hu : NUL ∉ u)
    (hn : f.n = f.rcv_ptr + (u.length : ℤ)) (hc : Copied f part)
    (hroom : part.length + u.length ≤ MAX_MSG) :
    ∃ f', copy_line f = some (.next f') ∧ f'.rcv_ptr = 0 ∧ f'.newSd = f.newSd ∧
      Copied f' (part ++ u) := by
  obtain ⟨f₁, hrun, hc₁, hptr₁, -, hn₁, hsd₁⟩ :=
    copy_run hmsg hptr hu (Int.le_of_eq hn.symm) hc hroom
  unfold copy_line
  rw [hrun, Option.bind_eq_bind, Option.bind_some, if_neg (by omega), if_neg (by omega),
    if_pos (by omega)]
  exact ⟨_, rfl, rfl, hsd₁, hc₁.line, hc₁.offset, hc₁.size⟩

/-- The buffer holds the end of the line: the call returns it, and the rest is ahead. -/
theorem copy_line_end {f : Frame} {a v part : List Char}
    (hb : Buffered f.toStatic (a ++ NUL :: v)) (ha : NUL ∉ a) (hc : Copied f part)
    (hroom : part.length + a.length < MAX_MSG) :
    ∃ f', copy_line f = some (.done (part.length + a.length + 1, f')) ∧ Ahead f'.toStatic v ∧
      f'.newSd = f.newSd ∧ ∃ rest, f'.line_to_return = part ++ a ++ NUL :: rest := by
  obtain ⟨pre, pad, hmsg, hptr, hpad⟩ := hb.cells
  have hn : f.n = f.rcv_ptr + (a.length + (v.length + 1)) := by simpa using hb.bound
  obtain ⟨f', hrun, hptr', hmsg', hn', hsd', hline⟩ :=
    @copy_line_at_nul f a pre (v ++ pad) part (by simp [hmsg]) hptr ha (by omega) hc hroom
  refine ⟨f', hrun, ?_, hsd', hline⟩
  -- with nothing behind the NUL the buffer is given up, else it starts there
  cases v with
  | nil =>
      rw [if_pos (by simpa using hn)] at hptr'
      exact Or.inl ⟨hptr', rfl⟩
  | cons c v =>
      rw [List.length_cons] at hn
      rw [if_neg (by omega)] at hptr'
      refine Or.inr ⟨by simp [hptr'], ⟨pre ++ a ++ [NUL], pad, ?_, hptr', ?_⟩, ?_,
        List.cons_ne_nil c v⟩
      · simp [hmsg', hmsg]
      · simpa [List.getLast?_append] using hpad
      · simp only [List.length_cons, List.length_append, List.length_nil] at hptr' ⊢
        omega

/-- The buffer does not hold the end of the line: the call goes back for more. -/
theorem copy_line_more {f : Frame} {u part : List Char} (hb : Buffered f.toStatic u)
    (hu : NUL ∉ u) (hc : Copied f part) (hroom : part.length + u.length ≤ MAX_MSG) :
    ∃ f', copy_line f = some (.next f') ∧ f'.rcv_ptr = 0 ∧ f'.newSd = f.newSd ∧
      Copied f' (part ++ u) := by
  obtain ⟨pre, pad, hmsg, hptr, hpad⟩ := hb.cells
  have hn := hb.bound
  -- the last byte is none that ends a line, so padding follows
  obtain ⟨post, rfl⟩ : ∃ post, pad = NUL :: post := by
    rcases hpad with hlast | hpad
    · exact absurd (List.mem_of_getLast? hlast) hu
    · exact hpad
  exact copy_line_at_end hmsg hptr hu hn hc hroom

end Copy

section ReadLine

/-- A call that works on the bytes ahead: it returns the line, or goes back for more. -/
theorem copy_line_spec {f : Frame} {u a rest part : List Char} {ms : List Segment}
    (hb : Buffered f.toStatic u) (hsd : f.newSd = Socket.sends ms)
    (hms : ∀ m ∈ ms, m.Terminated) (hc : Copied f part)
    (hs : u ++ stream ms = a ++ NUL :: rest) (ha : NUL ∉ a)
    (hroom : part.length + a.length < MAX_MSG) :
    (∃ f', copy_line f = some (.done (part.length + a.length + 1, f')) ∧
      Unread f'.toStatic f'.newSd rest ∧ ∃ t, f'.line_to_return = part ++ a ++ NUL :: t) ∨
    ∃ f' a', copy_line f = some (.next f') ∧ a = u ++ a' ∧ stream ms = a' ++ NUL :: rest ∧
      f'.rcv_ptr = 0 ∧ f'.newSd = Socket.sends ms ∧ Copied f' (part ++ u) := by
  -- the line goes on in the next segment
  have hmore : ∀ a', a = u ++ a' → stream ms = a' ++ NUL :: rest →
      ∃ f' a', copy_line f = some (.next f') ∧ a = u ++ a' ∧ stream ms = a' ++ NUL :: rest ∧
        f'.rcv_ptr = 0 ∧ f'.newSd = Socket.sends ms ∧ Copied f' (part ++ u) := by
    rintro a' rfl hs'
    rw [List.length_append] at hroom
    obtain ⟨f', hrun, hptr', hsd', hc'⟩ :=
      copy_line_more hb (fun h => ha (by simp [h])) hc (by omega)
    exact ⟨f', a', hrun, rfl, hs', hptr', hsd'.trans hsd, hc'⟩
  -- where the end of the line lies: in the buffer or behind it
  rcases List.append_eq_append_iff.mp hs with ⟨a', hsplit, hs'⟩ | ⟨v, hsplit, hs'⟩
  · exact Or.inr (hmore a' hsplit hs')
  · cases v with
    | nil => exact Or.inr (hmore [] (by simpa using hsplit.symm) (by simpa using hs'.symm))
    | cons c v =>
        obtain ⟨rfl, hrest⟩ : c = NUL ∧ rest = v ++ stream ms := by
          simpa [eq_comm] using hs'
        subst hsplit
        obtain ⟨f', hrun, hahead, hsd', hline⟩ := copy_line_end hb ha hc hroom
        exact Or.inl ⟨f', hrun, ⟨v, ms, hahead, hsd'.trans hsd, hms, hrest⟩, hline⟩

/-- What a refill leaves: the bytes of the segment, with zeros behind them or with the end of a
line as the last one. -/
theorem Buffered.of_segment {m : Segment} (hm : m.Terminated) {st : Static}
    (hptr : st.rcv_ptr = 0)
    (hmsg : st.rcv_msg = m.bytes ++ List.replicate (MAX_MSG - m.bytes.length) NUL)
    (hn : st.n = m.bytes.length) : Buffered st m.bytes where
  cells := by
    refine ⟨[], _, hmsg, hptr, ?_⟩
    rcases Nat.lt_or_ge m.bytes.length MAX_MSG with hlt | hge
    · obtain ⟨k, hk⟩ : ∃ k, MAX_MSG - m.bytes.length = k + 1 :=
        ⟨MAX_MSG - m.bytes.length - 1, by omega⟩
      exact Or.inr ⟨List.replicate k NUL, by rw [hk, List.replicate_succ]⟩
    · exact Or.inl (hm (Nat.le_antisymm m.le_max hge))
  bound := by simpa [hptr] using hn
  ne_nil := by
    have := m.pos
    exact List.ne_nil_of_length_pos (by omega)

/-- Nothing ahead: the line comes from the segments, the first of which may hold only a part
of it. -/
theorem read_fresh {ms : List Segment} :
    ∀ {f : Frame} {a rest part : List Char}, f.rcv_ptr = 0 → f.newSd = Socket.sends ms →
      (∀ m ∈ ms, m.Terminated) → Copied f part → stream ms = a ++ NUL :: rest → NUL ∉ a →
      part.length + a.length < MAX_MSG →
      ∃ f', loop read_line_body f = some (part.length + a.length + 1, f') ∧
        Unread f'.toStatic f'.newSd rest ∧ ∃ t, f'.line_to_return = part ++ a ++ NUL :: t := by
  induction ms with
  | nil =>
      intro f a rest part _ _ _ _ hs _ _
      simp [stream] at hs
  | cons m ms ih =>
      intro f a rest part hptr hsd hms hc hs ha hroom
      have hm := hms m List.mem_cons_self
      have hms' : ∀ m ∈ ms, m.Terminated := fun m' h => hms m' (List.mem_cons_of_mem m h)
      -- the refill
      obtain ⟨g, hg, hgptr, hgmsg, hgn, hgsd, hgc⟩ :
          ∃ g, read_line_body f = copy_line g ∧ g.rcv_ptr = 0 ∧
            g.rcv_msg = m.bytes ++ List.replicate (MAX_MSG - m.bytes.length) NUL ∧
            g.n = m.bytes.length ∧ g.newSd = Socket.sends ms ∧ Copied g part := by
        refine ⟨{ f with
          rcv_msg := m.bytes ++ List.replicate (MAX_MSG - m.bytes.length) NUL
          n := m.bytes.length, newSd := Socket.sends ms }, ?_, hptr, rfl, rfl, rfl,
          hc.line, hc.offset, hc.size⟩
        unfold read_line_body receive_data
        rw [if_pos hptr, hsd]
        rfl
      rcases copy_line_spec (Buffered.of_segment hm hgptr hgmsg hgn) hgsd hms' hgc hs ha hroom with
        ⟨f', hrun, hf'⟩ | ⟨f', a', hrun, rfl, hs', hptr', hsd', hc'⟩
      · exact ⟨f', loop_done (hg.trans hrun), hf'⟩
      · rw [List.length_append] at hroom
        obtain ⟨f'', hrun', hunread, t, ht⟩ := ih hptr' hsd' hms' hc' hs'
          (fun h => ha (by simp [h])) (by simp only [List.length_append]; omega)
        refine ⟨f'', ?_, hunread, t, by simpa using ht⟩
        rw [loop_next (hg.trans hrun), hrun']
        simp [Nat.add_assoc]

/-- **One call returns one line**, and leaves the rest of the stream unread. -/
theorem read_line_spec {st : Static} {newSd : Socket} {a rest buf : List Char}
    (hs : Unread st newSd (a ++ NUL :: rest)) (ha : NUL ∉ a) (hlen : a.length < MAX_MSG)
    (hbuf : buf.length = MAX_MSG) :
    ∃ f, read_line st newSd buf = some (a.length + 1, f) ∧ Unread f.toStatic f.newSd rest ∧
      cstr f.line_to_return = a := by
  obtain ⟨u, ms, hahead, hsd, hms, hs⟩ := hs.split
  have hc : Copied { st with newSd, line_to_return := buf, offset := 0 } [] :=
    ⟨⟨buf, rfl⟩, rfl, hbuf⟩
  have hcstr : ∀ t, cstr (a ++ NUL :: t) = a :=
    cstr_append_nul (fun c hc h => ha (h ▸ hc))
  -- what is written beyond the NUL does not matter
  suffices h : ∃ f, loop read_line_body { st with newSd, line_to_return := buf, offset := 0 }
      = some (a.length + 1, f) ∧ Unread f.toStatic f.newSd rest ∧
        ∃ t, f.line_to_return = a ++ NUL :: t by
    obtain ⟨f, hrun, hunread, t, ht⟩ := h
    exact ⟨f, hrun, hunread, ht ▸ hcstr t⟩
  -- the buffer is empty: this call receives
  rcases hahead with ⟨hptr, rfl⟩ | ⟨hptr, hb⟩
  · obtain ⟨f, hrun, hf⟩ := read_fresh hptr hsd hms hc hs.symm ha (by simpa using hlen)
    exact ⟨f, by simpa using hrun, hf⟩
  -- it is not: the call copies first, and receives when that was not enough
  · have hpass : read_line_body { st with newSd, line_to_return := buf, offset := 0 }
        = copy_line { st with newSd, line_to_return := buf, offset := 0 } := by
      unfold read_line_body
      exact if_neg hptr
    rcases copy_line_spec hb hsd hms hc hs.symm ha (by simpa using hlen) with
      ⟨f, hrun, hf⟩ | ⟨f, a', hrun, rfl, hs', hptr', hsd', hc'⟩
    · exact ⟨f, by simpa using loop_done (hpass.trans hrun), hf⟩
    · rw [List.length_append] at hlen
      obtain ⟨f', hrun', hf'⟩ :=
        read_fresh hptr' hsd' hms hc' hs' (fun h => ha (by simp [h])) (by simpa using hlen)
      refine ⟨f', ?_, hf'⟩
      rw [loop_next (hpass.trans hrun), hrun']
      simp

/-- With nothing left the call closes the socket and returns `ERROR`. -/
theorem read_line_closed {st : Static} {newSd : Socket} (hs : Unread st newSd [])
    (buf : List Char) :
    ∃ f, read_line st newSd buf = some (ERROR, f) ∧ f.rcv_ptr = 0 ∧ f.newSd.closed = true := by
  obtain ⟨u, ms, hahead, rfl, -, hnil⟩ := hs.split
  obtain ⟨rfl, hms⟩ : u = [] ∧ stream ms = [] := by simpa using hnil.symm
  -- no segment is empty, so there is none
  obtain rfl : ms = [] := by
    cases ms with
    | nil => rfl
    | cons m ms =>
        have hpos := m.pos
        have : m.bytes = [] := by
          simp only [stream, List.flatMap_cons, List.append_eq_nil_iff] at hms
          exact hms.1
        rw [this] at hpos
        exact absurd hpos (by decide)
  rcases hahead with ⟨hptr, -⟩ | ⟨-, hb⟩
  · have hpass : read_line_body
          { st with newSd := Socket.sends [], line_to_return := buf, offset := 0 } =
        some (.done (ERROR, { st with
          rcv_msg := List.replicate MAX_MSG NUL, n := 0, newSd := ⟨[], true⟩,
          line_to_return := buf, offset := 0 })) := by
      unfold read_line_body receive_data
      exact if_pos hptr
    exact ⟨_, loop_done hpass, hptr, rfl⟩
  · exact absurd rfl hb.ne_nil

end ReadLine

/-! ## One connection -/

section Receive

/-- The bytes of NUL-terminated lines, one after the other, as a client sends them. -/
def encode (lines : List (List Char)) : List Char :=
  lines.flatMap (fun l => l ++ [END_LINE])

/-- What a peer does: the lines it sends, and how `recv` finds them cut. -/
structure Connection where
  lines : List (List Char)
  segments : List Segment
  nul_free : ∀ l ∈ lines, END_LINE ∉ l
  short : ∀ l ∈ lines, l.length < MAX_MSG
  cut : stream segments = encode lines

/-- What `main` should make of a connection: its lines with their return values, and then the
end of the connection. -/
def Connection.session (c : Connection) : Session where
  received := c.lines.map (fun l => (l.length + 1, l))
  closed := true

/-- No line is empty, and no full segment ends inside a line. -/
structure Connection.Safe (c : Connection) : Prop where
  ne_nil : ∀ l ∈ c.lines, l ≠ []
  terminated : ∀ m ∈ c.segments, m.Terminated

/-- Every line of a connection is received, in order, when each fits the array and none is empty.
The induction is on the lines, with what is unread before each. -/
theorem receive_lines {lines : List (List Char)} :
    ∀ {r : Receiver}, Unread r.static r.newSd (encode lines) → r.line.length = MAX_MSG →
      (∀ l ∈ lines, END_LINE ∉ l) → (∀ l ∈ lines, l.length < MAX_MSG) →
      (∀ l ∈ lines, l ≠ []) →
      ∃ r', loop receive_body r = some r' ∧ r'.static.rcv_ptr = 0 ∧ r'.newSd.closed = true ∧
        r'.received = r.received ++ lines.map (fun l => (l.length + 1, l)) := by
  induction lines with
  | nil =>
      intro r hs _ _ _ _
      obtain ⟨f, hrun, hptr, hclosed⟩ := read_line_closed hs r.line
      have hpass : receive_body r = some (.done { r with
          static := f.toStatic, newSd := f.newSd, line := f.line_to_return }) := by
        unfold receive_body
        rw [hrun]
        rfl
      exact ⟨_, loop_done hpass, hptr, hclosed, (List.append_nil _).symm⟩
  | cons l lines ih =>
      intro r hs hbuf hnul hshort hne
      have hl : l ∈ l :: lines := List.mem_cons_self
      obtain ⟨f, hrun, hs', hcstr⟩ := @read_line_spec r.static r.newSd l (encode lines) r.line
        (by simpa [encode, END_LINE] using hs) (hnul l hl) (hshort l hl) hbuf
      -- the return value of a line that is not empty is not `ERROR`
      have hrc : l.length + 1 ≠ ERROR := by
        have := List.length_pos_iff.mpr (hne l hl)
        unfold ERROR
        omega
      have hpass : receive_body r = some (.next {
          static := f.toStatic, newSd := f.newSd, line := List.replicate MAX_MSG NUL,
          received := r.received ++ [(l.length + 1, l)] }) := by
        unfold receive_body
        rw [hrun, Option.bind_eq_bind, Option.bind_some]
        exact (if_pos hrc).trans (by rw [hcstr])
      obtain ⟨r', hrun', hptr, hclosed, hrec⟩ := @ih
        { static := f.toStatic, newSd := f.newSd, line := List.replicate MAX_MSG NUL,
          received := r.received ++ [(l.length + 1, l)] } hs' (List.length_replicate ..)
        (fun k hk => hnul k (List.mem_cons_of_mem l hk))
        (fun k hk => hshort k (List.mem_cons_of_mem l hk))
        (fun k hk => hne k (List.mem_cons_of_mem l hk))
      exact ⟨r', (loop_next hpass).trans hrun', hptr, hclosed, by simpa using hrec⟩

/-- A connection that starts with nothing ahead and is safe is received as it was sent. -/
theorem receive_safe {c : Connection} (hc : c.Safe) {st : Static} (hptr : st.rcv_ptr = 0) :
    ∃ r, receive st (Socket.sends c.segments) = some r ∧ r.static.rcv_ptr = 0 ∧
      (⟨r.received, r.newSd.closed⟩ : Session) = c.session := by
  have hunread : Unread st (Socket.sends c.segments) (encode c.lines) :=
    ⟨[], c.segments, Or.inl ⟨hptr, rfl⟩, rfl, hc.terminated, c.cut.symm⟩
  obtain ⟨r, hrun, hptr', hclosed, hrec⟩ := @receive_lines c.lines
    { static := st, newSd := Socket.sends c.segments, line := List.replicate MAX_MSG NUL,
      received := [] } hunread (List.length_replicate ..) c.nul_free c.short hc.ne_nil
  refine ⟨r, hrun, hptr', ?_⟩
  rw [hclosed, hrec]
  rfl

/-- What one round of the loop can do: a line is received and the loop goes on, or the call has
failed and it ends. -/
theorem receive_body_inv {r : Receiver} {p : Pass Receiver Receiver}
    (h : receive_body r = some p) :
    ∃ rc f, read_line r.static r.newSd r.line = some (rc, f) ∧
      (rc ≠ ERROR ∧ p = .next {
          static := f.toStatic, newSd := f.newSd, line := List.replicate MAX_MSG NUL,
          received := r.received ++ [(rc, cstr f.line_to_return)] } ∨
        p = .done { r with
          static := f.toStatic, newSd := f.newSd, line := f.line_to_return }) := by
  unfold receive_body at h
  obtain ⟨⟨rc, f⟩, hrun, h⟩ := Option.bind_eq_some_iff.mp h
  by_cases hrc : rc ≠ ERROR
  · exact ⟨rc, f, hrun, Or.inl ⟨hrc, by simpa [hrc] using h.symm⟩⟩
  · exact ⟨rc, f, hrun, Or.inr (by simpa [hrc] using h.symm)⟩

/-- `main` never shows an empty line: its return value is `ERROR`. -/
theorem received_ne_error {st : Static} {newSd : Socket} {r : Receiver}
    (h : receive st newSd = some r) : ∀ p ∈ r.received, p.1 ≠ ERROR := by
  apply loop_inv (fun r => ∀ p ∈ r.received, p.1 ≠ ERROR) _ _ _ _ h
  · intro r r' hr hpass
    obtain ⟨rc, f, -, ⟨hrc, hp⟩ | hp⟩ := receive_body_inv hpass
    · obtain rfl := Pass.next.inj hp
      intro p hp
      rcases List.mem_append.mp hp with hp | hp
      · exact hr p hp
      · rw [List.mem_singleton.mp hp]
        exact hrc
    · cases hp
  · intro r r' hr hpass
    obtain ⟨rc, f, -, ⟨-, hp⟩ | hp⟩ := receive_body_inv hpass
    · cases hp
    · obtain rfl := Pass.done.inj hp
      exact hr
  · intro p hp
    exact absurd hp List.not_mem_nil

end Receive

/-! ## A full segment that ends inside a line

Once such a segment is on the socket or in the buffer, no call gets past it: each ends with
bytes ahead of the last cell, or not at all. -/

section Doomed

/-- The buffer is full and its last byte ends no line. -/
structure Overfull (st : Static) : Prop where
  size : st.rcv_msg.length = MAX_MSG
  bound : st.n = MAX_MSG
  last : ∀ c, st.rcv_msg[MAX_MSG - 1]? = some c → c ≠ NUL

/-- A connection the server cannot get through: a segment without its NUL is still to come, or is
what the buffer holds. -/
structure Doomed (st : Static) (newSd : Socket) : Prop where
  isOpen : newSd.closed = false
  stuck : (∃ m, Received.data m ∈ newSd.pending ∧ ¬ m.Terminated) ∨
    st.rcv_ptr ≠ 0 ∧ Overfull st

/-- Copying changes only where it has come to and what it has written. -/
theorem copy_body_keeps {f g : Frame} {p : Pass Frame Frame} (h : copy_body f = some p)
    (hp : p = .next g ∨ p = .done g) :
    g.rcv_msg = f.rcv_msg ∧ g.n = f.n ∧ g.newSd = f.newSd := by
  unfold copy_body at h
  obtain ⟨c, -, h⟩ := Option.bind_eq_some_iff.mp h
  split at h
  · obtain ⟨buf, -, h⟩ := Option.bind_eq_some_iff.mp h
    rcases hp with rfl | rfl
    · obtain rfl : _ = g := by simpa using h
      exact ⟨rfl, rfl, rfl⟩
    · simp at h
  · rcases hp with rfl | rfl
    · simp at h
    · obtain rfl : f = g := by simpa using h
      exact ⟨rfl, rfl, rfl⟩

/-- The copying loop changes none of the buffer, its length and the socket, and stops at a
`NUL` or at the bound. -/
theorem copy_loop_inv {f g : Frame} (h : loop copy_body f = some g) :
    g.rcv_msg = f.rcv_msg ∧ g.n = f.n ∧ g.newSd = f.newSd ∧
      ∃ c, g.rcv_msg[g.rcv_ptr]? = some c ∧ (c = NUL ∨ g.n ≤ g.rcv_ptr) := by
  apply loop_inv (fun g : Frame => g.rcv_msg = f.rcv_msg ∧ g.n = f.n ∧ g.newSd = f.newSd) _ _ _
    ⟨rfl, rfl, rfl⟩ h
  · rintro s s' ⟨hmsg, hn, hsd⟩ hpass
    obtain ⟨hmsg', hn', hsd'⟩ := copy_body_keeps hpass (Or.inl rfl)
    exact ⟨hmsg'.trans hmsg, hn'.trans hn, hsd'.trans hsd⟩
  · rintro s s' ⟨hmsg, hn, hsd⟩ hpass
    obtain ⟨hmsg', hn', hsd'⟩ := copy_body_keeps hpass (Or.inr rfl)
    refine ⟨hmsg'.trans hmsg, hn'.trans hn, hsd'.trans hsd, ?_⟩
    unfold copy_body at hpass
    obtain ⟨c, hread, hpass⟩ := Option.bind_eq_some_iff.mp hpass
    -- a copied character goes on, and the other two cases are the ways to stop
    split at hpass
    · obtain ⟨buf, -, hpass⟩ := Option.bind_eq_some_iff.mp hpass
      simp at hpass
    · rename_i hcond
      obtain rfl : s = s' := by simpa using hpass
      refine ⟨c, hread, ?_⟩
      by_cases hc : c = NUL
      · exact Or.inl hc
      · exact Or.inr (Int.not_lt.mp (fun hlt => hcond ⟨hc, hlt⟩))

/-- What the part behind the refill can do: it returns a line, with the buffer used up or not, or
it asks for more data. -/
theorem copy_line_inv {f : Frame} {p : Pass Frame (ℕ × Frame)} (h : copy_line f = some p) :
    ∃ g f', loop copy_body f = some g ∧
      ((g.rcv_ptr : ℤ) = g.n - 1 ∧ (∃ rc, p = .done (rc, f')) ∨
        (g.rcv_ptr : ℤ) < g.n - 1 ∧ (∃ rc, p = .done (rc, f')) ∧ f'.rcv_ptr = g.rcv_ptr + 1 ∨
        g.n ≤ g.rcv_ptr ∧ p = .next f') ∧
      f'.rcv_msg = g.rcv_msg ∧ f'.n = g.n ∧ f'.newSd = g.newSd := by
  unfold copy_line at h
  obtain ⟨g, hrun, h⟩ := Option.bind_eq_some_iff.mp h
  -- the NUL is the last byte of the buffer, or has bytes behind it, or there is none
  by_cases hend : (g.rcv_ptr : ℤ) = g.n - 1
  · rw [if_pos hend] at h
    obtain ⟨buf, -, h⟩ := Option.bind_eq_some_iff.mp h
    obtain rfl := Option.some.inj h
    exact ⟨g, _, hrun, Or.inl ⟨hend, _, rfl⟩, rfl, rfl, rfl⟩
  · rw [if_neg hend] at h
    by_cases hmore : (g.rcv_ptr : ℤ) < g.n - 1
    · rw [if_pos hmore] at h
      obtain ⟨buf, -, h⟩ := Option.bind_eq_some_iff.mp h
      obtain rfl := Option.some.inj h
      exact ⟨g, _, hrun, Or.inr (Or.inl ⟨hmore, ⟨_, rfl⟩, rfl⟩), rfl, rfl, rfl⟩
    · rw [if_neg hmore] at h
      have hge : g.n ≤ g.rcv_ptr := by omega
      split at h
      · obtain rfl := Option.some.inj h
        exact ⟨g, _, hrun, Or.inr (Or.inr ⟨hge, rfl⟩), rfl, rfl, rfl⟩
      · obtain rfl := Option.some.inj h
        exact ⟨g, _, hrun, Or.inr (Or.inr ⟨hge, rfl⟩), rfl, rfl, rfl⟩

/-- Behind the refill the socket stays as it is, and a buffer that is overfull is not used
up. -/
theorem copy_line_doomed {f : Frame} {p : Pass Frame (ℕ × Frame)} (h : copy_line f = some p)
    (hopen : f.newSd.closed = false)
    (hf : (∃ m, Received.data m ∈ f.newSd.pending ∧ ¬ m.Terminated) ∨ Overfull f.toStatic) :
    ∃ f', (p = .next f' ∨ ∃ rc, p = .done (rc, f')) ∧ Doomed f'.toStatic f'.newSd := by
  obtain ⟨g, f', hrun, hp, hmsg', hn', hsd'⟩ := copy_line_inv h
  obtain ⟨hmsg, hn, hsd, c, hread, hc⟩ := copy_loop_inv hrun
  have hopen' : f'.newSd.closed = false := by rw [hsd', hsd, hopen]
  have hshape : p = .next f' ∨ ∃ rc, p = .done (rc, f') := by
    rcases hp with ⟨-, hp⟩ | ⟨-, hp, -⟩ | ⟨-, hp⟩
    · exact Or.inr hp
    · exact Or.inr hp
    · exact Or.inl hp
  refine ⟨f', hshape, hopen', ?_⟩
  rcases hf with hpending | hfull
  · rw [← hsd, ← hsd'] at hpending
    exact Or.inl hpending
  -- the loop has stopped at a `NUL` before the last cell
  · have hfull' : Overfull f'.toStatic :=
      ⟨by rw [hmsg', hmsg, hfull.size], by rw [hn', hn, hfull.bound],
        fun c hc => hfull.last c (by rw [← hmsg, ← hmsg', hc])⟩
    have hlt : g.rcv_ptr < MAX_MSG := by
      rw [← hfull.size, ← hmsg]
      exact (List.getElem?_eq_some_iff.mp hread).1
    have hbound : g.n = MAX_MSG := by rw [hn, hfull.bound]
    have hne : g.rcv_ptr ≠ MAX_MSG - 1 := by
      intro hlast
      rw [hlast, hmsg] at hread
      rcases hc with hnul | hge
      · exact hfull.last c hread hnul
      · omega
    unfold MAX_MSG at hlt hbound hne
    rcases hp with ⟨hend, -⟩ | ⟨-, -, hptr'⟩ | ⟨hge, -⟩
    · omega
    · exact Or.inr ⟨by omega, hfull'⟩
    · omega

/-- A full segment that ends inside a line, received, leaves the buffer overfull. -/
theorem overfull_of_segment {m : Segment} (hm : ¬ m.Terminated) {st : Static}
    (hmsg : st.rcv_msg = m.bytes ++ List.replicate (MAX_MSG - m.bytes.length) NUL)
    (hn : st.n = m.bytes.length) : Overfull st := by
  obtain ⟨hfull, hlast⟩ : m.bytes.length = MAX_MSG ∧ m.bytes.getLast? ≠ some END_LINE := by
    unfold Segment.Terminated at hm
    exact Classical.not_imp.mp hm
  rw [hfull, Nat.sub_self, List.replicate_zero, List.append_nil] at hmsg
  refine ⟨by rw [hmsg, hfull], by rw [hn, hfull], ?_⟩
  rintro c hc rfl
  rw [hmsg, ← hfull, ← List.getLast?_eq_getElem?] at hc
  exact hlast hc

/-- **One pass through `read_line` keeps a doomed connection doomed.** -/
theorem read_line_body_doomed {f : Frame} {p : Pass Frame (ℕ × Frame)}
    (h : read_line_body f = some p) (hf : Doomed f.toStatic f.newSd) :
    ∃ f', (p = .next f' ∨ ∃ rc, p = .done (rc, f')) ∧ Doomed f'.toStatic f'.newSd := by
  unfold read_line_body at h
  by_cases hptr : f.rcv_ptr = 0
  · obtain ⟨m, hm, hbad⟩ : ∃ m, Received.data m ∈ f.newSd.pending ∧ ¬ m.Terminated := by
      rcases hf.stuck with hm | ⟨hne, -⟩
      · exact hm
      · exact absurd hptr hne
    rw [if_pos hptr] at h
    unfold receive_data at h
    -- the bad segment is still to come, so the connection is not at its end
    cases hpending : f.newSd.pending with
    | nil => simp [hpending] at hm
    | cons r pending =>
        rw [hpending] at h hm
        cases r with
        | failed =>
            have hm' : Received.data m ∈ pending := by simpa using hm
            obtain rfl := Option.some.inj h
            exact ⟨_, Or.inr ⟨_, rfl⟩, hf.isOpen, Or.inl ⟨m, hm', hbad⟩⟩
        | data k =>
            apply copy_line_doomed h hf.isOpen
            -- it is the one received, and fills the buffer, or a later one
            rcases List.mem_cons.mp hm with heq | hm'
            · obtain rfl : m = k := by simpa using heq
              exact Or.inr (overfull_of_segment hbad rfl rfl)
            · exact Or.inl ⟨m, hm', hbad⟩
  · rw [if_neg hptr] at h
    apply copy_line_doomed h hf.isOpen
    rcases hf.stuck with hm | ⟨-, hfull⟩
    · exact Or.inl hm
    · exact Or.inr hfull

/-- A call on such a connection, if it returns at all, leaves it such a connection. -/
theorem read_line_doomed {st : Static} {newSd : Socket} {buf : List Char} {rc : ℕ} {f : Frame}
    (hst : Doomed st newSd) (h : read_line st newSd buf = some (rc, f)) :
    Doomed f.toStatic f.newSd := by
  apply loop_inv (fun f : Frame => Doomed f.toStatic f.newSd)
    (fun r => Doomed r.2.toStatic r.2.newSd) _ _ _ h
  · intro f f' hf hpass
    obtain ⟨g, hg, hdoomed⟩ := read_line_body_doomed hpass hf
    obtain rfl : f' = g := by simpa using hg
    exact hdoomed
  · intro f r hf hpass
    obtain ⟨g, hg, hdoomed⟩ := read_line_body_doomed hpass hf
    obtain ⟨rc, rfl⟩ : ∃ rc, r = (rc, g) := by simpa using hg
    exact hdoomed
  · exact hst

/-- A connection with such a segment is never closed. -/
theorem receive_doomed {st : Static} {newSd : Socket} {r : Receiver} (hst : Doomed st newSd)
    (h : receive st newSd = some r) : r.newSd.closed = false := by
  have hdoomed : Doomed r.static r.newSd := by
    apply loop_inv (fun r : Receiver => Doomed r.static r.newSd)
      (fun r => Doomed r.static r.newSd) _ _ _ h
    · intro r r' hr hpass
      obtain ⟨rc, f, hrun, ⟨-, hp⟩ | hp⟩ := receive_body_inv hpass
      · obtain rfl := Pass.next.inj hp
        exact read_line_doomed hr hrun
      · cases hp
    · intro r r' hr hpass
      obtain ⟨rc, f, hrun, ⟨-, hp⟩ | hp⟩ := receive_body_inv hpass
      · cases hp
      · obtain rfl := Pass.done.inj hp
        exact read_line_doomed hr hrun
    · exact hst
  exact hdoomed.isOpen

end Doomed

/-! ## All the connections -/

section Serve

/-- A connection received as it was sent is safe, whatever the calls before it have left. -/
theorem Connection.Safe.of_received {c : Connection} {st : Static} {r : Receiver}
    (h : receive st (Socket.sends c.segments) = some r)
    (hr : (⟨r.received, r.newSd.closed⟩ : Session) = c.session) : c.Safe := by
  obtain ⟨hrec, hclosed⟩ := Session.mk.inj hr
  refine ⟨?_, ?_⟩
  · rintro l hl rfl
    have hmem : (1, []) ∈ r.received := by
      rw [hrec]
      exact List.mem_map.mpr ⟨[], hl, rfl⟩
    exact received_ne_error h _ hmem rfl
  · intro m hm
    by_contra hbad
    have hdoomed : Doomed st (Socket.sends c.segments) :=
      ⟨rfl, Or.inl ⟨m, List.mem_map.mpr ⟨m, hm, rfl⟩, hbad⟩⟩
    rw [receive_doomed hdoomed h] at hclosed
    exact absurd hclosed (by decide)

/-- Each connection is received as it was sent, in the order of `accept`. -/
def Delivered (cs : List Connection) : Prop :=
  serve (cs.map (fun c => Socket.sends c.segments)) Static.init = some (cs.map Connection.session)

/-- Connections that are safe are served as they were sent. -/
theorem serve_safe {cs : List Connection} (hcs : ∀ c ∈ cs, c.Safe) :
    ∀ {st : Static}, st.rcv_ptr = 0 →
      serve (cs.map (fun c => Socket.sends c.segments)) st = some (cs.map Connection.session) := by
  induction cs with
  | nil => exact fun _ => rfl
  | cons c cs ih =>
      intro st hptr
      obtain ⟨r, hrun, hptr', hsession⟩ := receive_safe (hcs c List.mem_cons_self) hptr
      rw [List.map_cons, serve, hrun, Option.bind_eq_bind, Option.bind_some,
        ih (fun k hk => hcs k (List.mem_cons_of_mem c hk)) hptr', Option.bind_eq_bind,
        Option.bind_some, hsession]
      rfl

/-- Conversely, where all of them are served as they were sent, each is safe. -/
theorem safe_of_serve {cs : List Connection} :
    ∀ {st : Static},
      serve (cs.map (fun c => Socket.sends c.segments)) st = some (cs.map Connection.session) →
      ∀ c ∈ cs, c.Safe := by
  induction cs with
  | nil => exact fun _ c hc => absurd hc List.not_mem_nil
  | cons c cs ih =>
      intro st h k hk
      rw [List.map_cons, serve] at h
      obtain ⟨r, hrun, h⟩ := Option.bind_eq_some_iff.mp h
      obtain ⟨sessions, hrest, h⟩ := Option.bind_eq_some_iff.mp h
      obtain ⟨hsession, rfl⟩ := List.cons.inj (Option.some.inj h)
      rcases List.mem_cons.mp hk with rfl | hk
      · exact Connection.Safe.of_received hrun hsession
      · exact ih hrest k hk

/-- **The lines come through whole and in order exactly when every connection is safe**: no line is
empty and no full segment ends inside a line. For an empty line `read_line` returns `1`, which is
`ERROR`; and at the end of a full segment it looks at the cell behind the array before it compares
the position with `n`. -/
theorem delivered_iff (cs : List Connection) : Delivered cs ↔ ∀ c ∈ cs, c.Safe :=
  ⟨safe_of_serve, fun h => serve_safe h rfl⟩

/-- The peer sends an empty line and `"a"`, in one segment. -/
def emptyThenA : Connection where
  lines := [[], ['a']]
  segments := [⟨[END_LINE, 'a', END_LINE], by decide, by decide⟩]
  nul_free := by decide
  short := by decide
  cut := rfl

/-- The peer sends `"b"`. -/
def justB : Connection where
  lines := [['b']]
  segments := [⟨['b', END_LINE], by decide, by decide⟩]
  nul_free := by decide
  short := by decide
  cut := rfl

/-- The empty line ends the first connection for `main`, and its `"a"` stays in the buffer. -/
theorem not_delivered : ¬ Delivered [emptyThenA, justB] := by
  intro h
  have hsafe : emptyThenA.Safe := safe_of_serve h emptyThenA List.mem_cons_self
  exact hsafe.ne_nil [] List.mem_cons_self rfl

end Serve

end CourseLabs.LineReader
