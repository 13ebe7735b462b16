/-
`tcpServer.c`: whether `read_line` stays inside its two buffers.

Nothing in it looks at the size of `line_to_return`, and the read that tests for the end of
a line comes before the test against `n`. What a call can cope with is a matter of the bytes
that it finds, piece by piece: the rest of the buffer, and then what each `recv` brings
(`LineFits`). The calls are those of `main`, with whatever the calls before them have left.
-/
import CourseLabs.LineReader
import CourseLabs.Transition

set_option autoImplicit false

namespace CourseLabs.LineReader

open CourseLabs.CLoop CourseLabs.CMem CourseLabs.Transition

/-! ## The bytes a call finds -/

/-- Bytes in the buffer, and whether they go up to its last cell. -/
structure Piece where
  bytes : List Char
  full : Bool

/-- What one `recv` has put into the buffer: the bytes, and whether there is a cell left behind
them. -/
def Segment.piece (m : Segment) : Piece where
  bytes := m.bytes
  full := m.bytes.length = MAX_MSG

/-- What is received until the peer closes or `recv` fails. -/
def arriving : List Received → List Piece
  | [] => []
  | .failed :: _ => []
  | .data m :: pending => m.piece :: arriving pending

/-- The rest of the buffer, as a piece of its own: what a call finds that does not begin with a
`recv`. -/
def Static.piece (st : Static) : Piece where
  bytes := (st.rcv_msg.take st.n.toNat).drop st.rcv_ptr
  full := st.n = MAX_MSG

/-- What is still to be read on a connection: the rest of the buffer, if there is one, and the
segments that arrive. -/
def pieces (st : Static) (newSd : Socket) : List Piece :=
  if st.rcv_ptr = 0 then arriving newSd.pending else st.piece :: arriving newSd.pending

/-- The bytes of a sequence of pieces, which is where the next line is looked for. -/
def text (ps : List Piece) : List Char :=
  ps.flatMap Piece.bytes

/-- **The next line fits**, with `k` bytes of it copied already: with its `NUL`, if it has
one, it is no longer than `line_to_return`, and no piece that fills the buffer ends in it. -/
structure LineFits (k : ℕ) (ps : List Piece) : Prop where
  room : k + (cstr (text ps)).length ≤ MAX_MSG
  room_nul : NUL ∈ text ps → k + (cstr (text ps)).length < MAX_MSG
  ended : ∀ pre p post, ps = pre ++ p :: post → p.full = true → NUL ∈ text (pre ++ [p])

section Fits

variable {k : ℕ} {p : Piece} {ps : List Piece}

/-- The text of a piece and the pieces after it. -/
theorem text_cons (p : Piece) (ps : List Piece) : text (p :: ps) = p.bytes ++ text ps :=
  List.flatMap_cons

/-- Where nothing arrives any more, what was copied has to fit already. -/
theorem lineFits_nil : LineFits k [] ↔ k ≤ MAX_MSG := by
  refine ⟨fun h => h.room, fun h => ⟨h, ?_, ?_⟩⟩
  · intro hnul
    exact absurd hnul List.not_mem_nil
  · intro pre p post hsplit
    exact absurd hsplit.symm (by simp)

/-- The piece has the end of the line: the line fits if what is copied up to it leaves a cell for
the end. -/
theorem lineFits_cons_of_mem (h : NUL ∈ p.bytes) :
    LineFits k (p :: ps) ↔ k + (cstr p.bytes).length < MAX_MSG := by
  have hcstr : cstr (text (p :: ps)) = cstr p.bytes := by
    rw [text_cons, cstr_append_of_mem h]
  have hmem : NUL ∈ text (p :: ps) := by
    rw [text_cons]
    exact List.mem_append_left _ h
  refine ⟨fun hfits => hcstr ▸ hfits.room_nul hmem, fun hlt => ⟨?_, fun _ => ?_, ?_⟩⟩
  · rw [hcstr]
    omega
  · rwa [hcstr]
  · intro pre q post hsplit hfull
    cases pre with
    | nil =>
        obtain ⟨rfl, -⟩ := List.cons.inj hsplit
        rwa [List.nil_append, text_cons, text, List.flatMap_nil, List.append_nil]
    | cons q' pre =>
        obtain ⟨rfl, -⟩ := List.cons.inj hsplit
        rw [List.cons_append, text_cons]
        exact List.mem_append_left _ h

/-- The line goes on in the next piece: this one must leave a zero behind it, and the copied part
is longer by it. -/
theorem lineFits_cons_of_not_mem (h : NUL ∉ p.bytes) :
    LineFits k (p :: ps) ↔ p.full = false ∧ LineFits (k + p.bytes.length) ps := by
  have hcstr : cstr (text (p :: ps)) = p.bytes ++ cstr (text ps) := by
    rw [text_cons, cstr_append_of_not_mem h]
  have hlen : k + (cstr (text (p :: ps))).length
      = k + p.bytes.length + (cstr (text ps)).length := by
    rw [hcstr, List.length_append, Nat.add_assoc]
  have hmem : NUL ∈ text (p :: ps) ↔ NUL ∈ text ps := by
    rw [text_cons, List.mem_append, or_iff_right h]
  constructor
  -- a full piece without the end would have to have it, so this one is not full
  · rintro ⟨hroom, hnul, hended⟩
    refine ⟨?_, by rwa [hlen] at hroom, fun hm => hlen ▸ hnul (hmem.mpr hm), ?_⟩
    · by_contra hfull
      have hlast := hended [] p ps rfl (by simpa using hfull)
      rw [List.nil_append, text_cons, text, List.flatMap_nil, List.append_nil] at hlast
      exact h hlast
    · intro pre q post hsplit hfull
      have hlast := hended (p :: pre) q post (by rw [hsplit, List.cons_append]) hfull
      rw [List.cons_append, text_cons] at hlast
      exact (List.mem_append.mp hlast).resolve_left h
  -- no split of the pieces ends at the first one, as it is not full
  · rintro ⟨hfull, hroom, hnul, hended⟩
    refine ⟨by rwa [hlen], fun hm => hlen ▸ hnul (hmem.mp hm), ?_⟩
    intro pre q post hsplit hq
    cases pre with
    | nil =>
        obtain ⟨rfl, -⟩ := List.cons.inj hsplit
        rw [hfull] at hq
        exact absurd hq Bool.false_ne_true
    | cons q' pre =>
        obtain ⟨rfl, rfl⟩ := List.cons.inj hsplit
        rw [List.cons_append, text_cons]
        exact List.mem_append_right _ (hended pre q post rfl hq)

end Fits

/-! ## One call -/

/-- The buffer, from `rcv_ptr` to `n`. What follows is padding. -/
structure Holding (st : Static) (p : Piece) : Prop where
  cells : ∃ pre k, st.rcv_msg = pre ++ p.bytes ++ List.replicate k NUL
    ∧ st.rcv_ptr = pre.length ∧ (p.full = true ↔ k = 0)
  bound : st.n = st.rcv_ptr + p.bytes.length
  size : st.rcv_msg.length = MAX_MSG

/-- What the static variables are between two calls: with `rcv_ptr` at `0` anything, and otherwise
a buffer with a rest in it. -/
def Static.Ok (st : Static) : Prop :=
  st.rcv_ptr ≠ 0 → Holding st st.piece

section Copying

variable {f : Frame} {p : Piece} {part : List Char}

/-- The piece a buffer holds is read off its variables. -/
theorem Holding.piece_eq {st : Static} (h : Holding st p) : st.piece = p := by
  obtain ⟨pre, k, hmsg, hptr, hfull⟩ := h.cells
  have hn := h.bound
  have hsize := h.size
  rw [hmsg, List.length_append, List.length_append, List.length_replicate] at hsize
  have hbytes : (st.rcv_msg.take st.n.toNat).drop st.rcv_ptr = p.bytes := by
    rw [hn, hmsg, hptr, ← Int.natCast_add, Int.toNat_natCast, ← List.length_append, List.take_left,
      List.drop_left]
  have hend : decide (st.n = MAX_MSG) = p.full := by
    rw [Bool.eq_iff_iff, decide_eq_true_iff, hfull]
    omega
  rw [Static.piece, hbytes, hend]

/-- A line that is full has no room for a byte. -/
theorem Copied.full (h : Copied f part) (hfull : part.length = MAX_MSG) (c : Char) :
    store f.line_to_return f.offset c = none := by
  rw [store, if_neg]
  rw [h.offset, h.size, hfull]
  exact Nat.lt_irrefl _

/-- The copying loop over more bytes than there is room for. -/
theorem copy_overflow {a pre post : List Char} (hmsg : f.rcv_msg = pre ++ a ++ post)
    (hptr : f.rcv_ptr = pre.length) (ha : NUL ∉ a) (hn : f.rcv_ptr + (a.length : ℤ) ≤ f.n)
    (hc : Copied f part) (hle : part.length ≤ MAX_MSG) (hroom : MAX_MSG < part.length + a.length) :
    loop copy_body f = none := by
  -- as many as there is room for go over, and the next one does not
  have hlt : MAX_MSG - part.length < a.length := by omega
  obtain ⟨a₁, c, a₂, rfl, hlen⟩ :
      ∃ a₁ c a₂, a = a₁ ++ c :: a₂ ∧ part.length + a₁.length = MAX_MSG :=
    ⟨a.take (MAX_MSG - part.length), a[MAX_MSG - part.length], a.drop (MAX_MSG - part.length + 1),
      by rw [← List.drop_eq_getElem_cons hlt, List.take_append_drop],
      by rw [List.length_take]; omega⟩
  rw [List.length_append, List.length_cons] at hn
  have hne : c ≠ NUL := fun h => ha (by simp [h])
  obtain ⟨f', hrun, hc', hptr', hmsg', hn', -⟩ :=
    @copy_over a₁ f pre (c :: a₂ ++ post) part (by simp [hmsg]) hptr (fun h => ha (by simp [h]))
      (by omega) hc (by omega)
  have hread : f'.rcv_msg[f'.rcv_ptr]? = some c := by
    rw [hmsg', hptr', hmsg, hptr, ← List.length_append]
    simp
  rw [hrun]
  apply loop_none
  unfold copy_body
  rw [hread, Option.bind_eq_bind, Option.bind_some, if_pos ⟨hne, by omega⟩,
    hc'.full (by rw [List.length_append, hlen])]
  rfl

/-- The copying loop in a buffer without a `NUL`: it reads the cell behind the last. -/
theorem copy_past {a pre : List Char} (hmsg : f.rcv_msg = pre ++ a)
    (hptr : f.rcv_ptr = pre.length) (ha : NUL ∉ a) (hn : f.rcv_ptr + (a.length : ℤ) ≤ f.n)
    (hc : Copied f part) (hroom : part.length + a.length ≤ MAX_MSG) :
    loop copy_body f = none := by
  obtain ⟨f', hrun, -, hptr', hmsg', -⟩ :=
    @copy_over a f pre [] part (by rw [hmsg, List.append_nil]) hptr ha hn hc hroom
  have hread : f'.rcv_msg[f'.rcv_ptr]? = none := by
    rw [hmsg', hptr', hmsg, hptr, ← List.length_append]
    exact List.getElem?_eq_none (Nat.le_refl _)
  rw [hrun]
  apply loop_none
  unfold copy_body
  rw [hread]
  rfl

/-- The end of the line is in the piece, and in the line too. -/
theorem copy_line_ends {a v : List Char} (h : Holding f.toStatic p) (hp : p.bytes = a ++ NUL :: v)
    (ha : NUL ∉ a) (hc : Copied f part) (hroom : part.length + a.length < MAX_MSG) :
    ∃ f', copy_line f = some (.done (part.length + a.length + 1, f')) ∧ f'.toStatic.Ok
      ∧ f'.newSd = f.newSd
      ∧ text (pieces f'.toStatic f'.newSd) = v ++ text (arriving f.newSd.pending) := by
  obtain ⟨pre, k, hmsg, hptr, hfull⟩ := h.cells
  have hn := h.bound
  rw [hp, List.length_append, List.length_cons] at hn
  rw [hp] at hmsg
  obtain ⟨f', hrun, hptr', hmsg', hn', hsd', -⟩ :=
    @copy_line_at_nul f a pre (v ++ List.replicate k NUL) part (by simp [hmsg]) hptr ha (by omega)
      hc hroom
  refine ⟨f', hrun, ?_⟩
  -- the buffer is used up with the line, or holds the start of the next one
  cases v with
  | nil =>
      rw [List.length_nil] at hn
      rw [if_pos (by omega)] at hptr'
      refine ⟨fun h => absurd hptr' h, hsd', ?_⟩
      rw [pieces, if_pos hptr', List.nil_append, hsd']
  | cons c v =>
      rw [List.length_cons] at hn
      rw [if_neg (by omega)] at hptr'
      -- what is left starts behind the NUL
      have hrest : Holding f'.toStatic ⟨c :: v, p.full⟩ := by
        refine ⟨⟨pre ++ a ++ [NUL], k, by simp [hmsg', hmsg], hptr', hfull⟩, ?_, ?_⟩
        · simp only [List.length_cons, List.length_append, List.length_nil] at hptr' ⊢
          omega
        · rw [hmsg']
          exact h.size
      have hpos : f'.rcv_ptr ≠ 0 := by simp [hptr']
      refine ⟨fun _ => ?_, hsd', ?_⟩
      · rwa [hrest.piece_eq]
      · rw [pieces, if_neg hpos, text_cons, hrest.piece_eq, hsd']

/-- It is in the piece, but there is no room for it. -/
theorem copy_line_ends_none {a v : List Char} (h : Holding f.toStatic p)
    (hp : p.bytes = a ++ NUL :: v) (ha : NUL ∉ a) (hc : Copied f part)
    (hle : part.length ≤ MAX_MSG) (hroom : MAX_MSG ≤ part.length + a.length) :
    copy_line f = none := by
  obtain ⟨pre, k, hmsg, hptr, -⟩ := h.cells
  have hn := h.bound
  rw [hp, List.length_append, List.length_cons] at hn
  rw [hp] at hmsg
  unfold copy_line
  rcases Nat.eq_or_lt_of_le hroom with heq | hlt
  · obtain ⟨f₁, hrun, hc₁, hptr₁, -, hn₁, -⟩ :=
      @copy_run f a pre (v ++ List.replicate k NUL) part (by simp [hmsg]) hptr ha (by omega) hc
        (by omega)
    -- the line fills its buffer, and the `NUL` goes behind it
    have hput := hc₁.full (by rw [List.length_append, heq]) END_LINE
    rw [hrun, Option.bind_eq_bind, Option.bind_some, hput]
    by_cases hend : (f₁.rcv_ptr : ℤ) = f₁.n - 1
    · rw [if_pos hend]
      rfl
    · rw [if_neg hend, if_pos (by omega)]
      rfl
  · rw [@copy_overflow f part a pre (NUL :: v ++ List.replicate k NUL) (by simp [hmsg]) hptr ha
      (by omega) hc hle hlt]
    rfl

/-- The line goes on: the call goes back for more. -/
theorem copy_line_goes_on (h : Holding f.toStatic p) (hp : NUL ∉ p.bytes) (hfull : p.full = false)
    (hc : Copied f part) (hroom : part.length + p.bytes.length ≤ MAX_MSG) :
    ∃ f', copy_line f = some (.next f') ∧ f'.rcv_ptr = 0 ∧ f'.newSd = f.newSd
      ∧ Copied f' (part ++ p.bytes) := by
  obtain ⟨pre, k, hmsg, hptr, hk⟩ := h.cells
  have hn := h.bound
  cases k with
  | zero => exact absurd (hk.mpr rfl) (by simp [hfull])
  | succ k =>
      rw [List.replicate_succ] at hmsg
      exact copy_line_at_end hmsg hptr hp hn hc hroom

/-- It goes on, and either the line is too long by now or the buffer has no padding. -/
theorem copy_line_goes_on_none (h : Holding f.toStatic p) (hp : NUL ∉ p.bytes)
    (hc : Copied f part) (hle : part.length ≤ MAX_MSG)
    (hbad : p.full = true ∨ MAX_MSG < part.length + p.bytes.length) : copy_line f = none := by
  obtain ⟨pre, k, hmsg, hptr, hk⟩ := h.cells
  have hn := h.bound
  unfold copy_line
  rcases Nat.lt_or_ge MAX_MSG (part.length + p.bytes.length) with hlt | hge
  · rw [copy_overflow hmsg hptr hp (by omega) hc hle hlt]
    rfl
  · obtain rfl := hk.mp (hbad.resolve_right (by omega))
    rw [List.replicate_zero, List.append_nil] at hmsg
    rw [copy_past hmsg hptr hp (by omega) hc hge]
    rfl

end Copying

/-- A call returns when the line fits, with fewer bytes to come unless it ends the
connection. It has no result otherwise. -/
structure Outcome (ps : List Piece) (k : ℕ) (o : Option (ℕ × Frame)) : Prop where
  returns : LineFits k ps → ∃ rc f, o = some (rc, f) ∧ f.toStatic.Ok
    ∧ (rc ≠ ERROR → (text (pieces f.toStatic f.newSd)).length < (text ps).length)
  leaves : ¬ LineFits k ps → o = none

section Calls

/-- A call that works on a piece, where the rest of it is as it should be. -/
theorem outcome_of_copy_line {f g : Frame} {p : Piece} {part : List Char}
    (hg : read_line_body g = copy_line f) (h : Holding f.toStatic p) (hc : Copied f part)
    (hle : part.length ≤ MAX_MSG)
    (hrest : ∀ f', f'.rcv_ptr = 0 → f'.newSd = f.newSd → Copied f' (part ++ p.bytes) →
      (part ++ p.bytes).length ≤ MAX_MSG →
      Outcome (arriving f.newSd.pending) (part ++ p.bytes).length (loop read_line_body f')) :
    Outcome (p :: arriving f.newSd.pending) part.length (loop read_line_body g) := by
  -- the line ends in this piece
  by_cases hnul : NUL ∈ p.bytes
  · obtain ⟨v, hp⟩ := exists_cstr_split hnul
    have ha : NUL ∉ cstr p.bytes := fun hmem => cstr_ne_nul NUL hmem rfl
    refine ⟨fun hfits => ?_, fun hfits => ?_⟩
    · rw [lineFits_cons_of_mem hnul] at hfits
      obtain ⟨f', hrun, hok, -, htext⟩ := copy_line_ends h hp ha hc hfits
      refine ⟨_, f', loop_done (hg.trans hrun), hok, fun _ => ?_⟩
      rw [htext, text_cons, hp]
      simp only [List.length_append, List.length_cons]
      omega
    · rw [lineFits_cons_of_mem hnul] at hfits
      exact loop_none (hg.trans (copy_line_ends_none h hp ha hc hle (by omega)))
  -- it does not, but all of the piece can be copied and the next one read
  · by_cases hgood : p.full = false ∧ part.length + p.bytes.length ≤ MAX_MSG
    · obtain ⟨f', hrun, hptr', hsd', hc'⟩ := copy_line_goes_on h hnul hgood.1 hc hgood.2
      have hlen : (part ++ p.bytes).length = part.length + p.bytes.length := List.length_append
      have hout := hrest f' hptr' hsd' hc' (by omega)
      rw [loop_next (hg.trans hrun)]
      refine ⟨fun hfits => ?_, fun hfits => ?_⟩
      · rw [lineFits_cons_of_not_mem hnul, ← hlen] at hfits
        obtain ⟨rc, f'', hrun', hok, hless⟩ := hout.returns hfits.2
        refine ⟨rc, f'', hrun', hok, fun hrc => ?_⟩
        rw [text_cons, List.length_append]
        exact Nat.lt_of_lt_of_le (hless hrc) (Nat.le_add_left _ _)
      · rw [lineFits_cons_of_not_mem hnul, ← hlen] at hfits
        exact hout.leaves fun hfits' => hfits ⟨hgood.1, hfits'⟩
    -- or the piece is full, or runs past the line: either way an array is left
    · have hnot : ¬ LineFits part.length (p :: arriving f.newSd.pending) := by
        rw [lineFits_cons_of_not_mem hnul]
        rintro ⟨hfull, hfits⟩
        exact hgood ⟨hfull, Nat.le_of_add_right_le hfits.room⟩
      have hbad : p.full = true ∨ MAX_MSG < part.length + p.bytes.length := by
        rcases Bool.eq_false_or_eq_true p.full with hfull | hfull
        · exact Or.inl hfull
        · exact Or.inr (Nat.lt_of_not_le fun hroom => hgood ⟨hfull, hroom⟩)
      exact ⟨fun hfits => absurd hfits hnot,
        fun _ => loop_none (hg.trans (copy_line_goes_on_none h hnul hc hle hbad))⟩

/-- The buffer behind a refill. -/
theorem Holding.of_segment {st : Static} (m : Segment) (hptr : st.rcv_ptr = 0)
    (hmsg : st.rcv_msg = m.bytes ++ List.replicate (MAX_MSG - m.bytes.length) NUL)
    (hn : st.n = m.bytes.length) : Holding st m.piece := by
  have hle := m.le_max
  refine ⟨⟨[], MAX_MSG - m.bytes.length, hmsg, hptr, ?_⟩, ?_, ?_⟩
  · rw [Segment.piece, decide_eq_true_iff]
    omega
  · rw [hn, hptr]
    simp [Segment.piece]
  · rw [hmsg, List.length_append, List.length_replicate]
    omega

/-- The socket brings nothing: the call returns, without the end of a line. -/
theorem outcome_of_error {f g : Frame} {k : ℕ} (hpass : read_line_body f = some (.done (ERROR, g)))
    (hptr : g.rcv_ptr = 0) (hle : k ≤ MAX_MSG) : Outcome [] k (loop read_line_body f) :=
  ⟨fun _ => ⟨ERROR, g, loop_done hpass, fun hne => absurd hptr hne, fun hne => absurd rfl hne⟩,
    fun hfits => absurd (lineFits_nil.mpr hle) hfits⟩

/-- Nothing is left in the buffer: the induction is on what the socket brings. -/
theorem fresh_outcome {pending : List Received} :
    ∀ {f : Frame} {part : List Char}, f.rcv_ptr = 0 → f.newSd.pending = pending →
      Copied f part → part.length ≤ MAX_MSG →
      Outcome (arriving pending) part.length (loop read_line_body f) := by
  induction pending with
  -- the peer has closed
  | nil =>
      intro f part hptr hsd _ hle
      exact outcome_of_error (g := { f with
        rcv_msg := List.replicate MAX_MSG NUL, n := 0, newSd := { f.newSd with closed := true } })
        (by unfold read_line_body receive_data; rw [if_pos hptr, hsd]) hptr hle
  | cons r pending ih =>
      intro f part hptr hsd hc hle
      cases r with
      | failed =>
          exact outcome_of_error (g := { f with
            rcv_msg := List.replicate MAX_MSG NUL, n := -1, newSd := { f.newSd with pending } })
            (by unfold read_line_body receive_data; rw [if_pos hptr, hsd]) hptr hle
      -- a segment: the call works on it, and its rest is the induction
      | data m =>
          have hpass : read_line_body f = copy_line { f with
              rcv_msg := m.bytes ++ List.replicate (MAX_MSG - m.bytes.length) NUL
              n := m.bytes.length
              newSd := { f.newSd with pending } } := by
            unfold read_line_body receive_data
            rw [if_pos hptr, hsd]
          exact outcome_of_copy_line hpass (Holding.of_segment m hptr rfl rfl)
            ⟨hc.line, hc.offset, hc.size⟩ hle
            fun f' hptr' hsd' hc' hle' => ih hptr' (by rw [hsd']) hc' hle'

/-- **What a call does** is decided by the bytes that it finds. -/
theorem read_line_outcome {st : Static} (hst : st.Ok) (newSd : Socket) {line : List Char}
    (hline : line.length = MAX_MSG) :
    Outcome (pieces st newSd) 0 (read_line st newSd line) := by
  have hc : Copied { st with newSd, line_to_return := line, offset := 0 } [] :=
    ⟨⟨line, rfl⟩, rfl, hline⟩
  by_cases hptr : st.rcv_ptr = 0
  · rw [pieces, if_pos hptr]
    exact fresh_outcome hptr rfl hc (Nat.zero_le _)
  · rw [pieces, if_neg hptr]
    have hpass : read_line_body { st with newSd, line_to_return := line, offset := 0 }
        = copy_line { st with newSd, line_to_return := line, offset := 0 } := by
      unfold read_line_body
      exact if_neg hptr
    exact outcome_of_copy_line hpass (hst hptr) hc (Nat.zero_le _)
      fun f' hptr' hsd' hc' hle' => fresh_outcome hptr' (by rw [hsd']) hc' hle'

end Calls

/-! ## All the calls -/

/-- A call that `main` makes: what it starts with, and the connections that wait. -/
structure Call where
  static : Static
  newSd : Socket
  waiting : List Socket

/-- What a call of `read_line` returns, if it returns at all: `none` is a call that runs out of an
array. -/
def Call.result (c : Call) : Option (ℕ × Frame) :=
  read_line c.static c.newSd (List.replicate MAX_MSG NUL)

/-- From one call to the next: on the same connection, or on the one that is accepted then. -/
inductive Next (c : Call) : ℕ → Call → Prop
  | line {rc : ℕ} {f : Frame} (hrun : c.result = some (rc, f)) (hrc : rc ≠ ERROR) :
      Next c rc { c with static := f.toStatic, newSd := f.newSd }
  | accept {f : Frame} {newSd : Socket} {waiting : List Socket}
      (hrun : c.result = some (ERROR, f)) (hwaiting : c.waiting = newSd :: waiting) :
      Next c ERROR ⟨f.toStatic, newSd, waiting⟩

/-- The calls that `main` makes when it accepts these connections. -/
def Calls (sockets : List Socket) (c : Call) : Prop :=
  ∃ newSd waiting, sockets = newSd :: waiting ∧ Reachable Next ⟨Static.init, newSd, waiting⟩ c

/-- Every access of the calls is inside its buffer, and they return. -/
def StaysInside (sockets : List Socket) : Prop :=
  (serve sockets Static.init).isSome

section Runs

variable {c c' : Call} {received : List (ℕ × List Char)}

/-- `main` gets through from this call on: this connection, and all those that wait behind it. -/
def Call.Returns (c : Call) (received : List (ℕ × List Char)) : Prop :=
  ∃ r, loop receive_body ⟨c.static, c.newSd, List.replicate MAX_MSG NUL, received⟩ = some r
    ∧ (serve c.waiting r.static).isSome

/-- The server survives a connection exactly if every call it makes for that one returns. -/
theorem serve_cons_isSome {newSd : Socket} {waiting : List Socket} {st : Static} :
    (serve (newSd :: waiting) st).isSome ↔ Call.Returns ⟨st, newSd, waiting⟩ [] := by
  rw [serve, Call.Returns]
  change _ ↔ ∃ r, receive st newSd = some r ∧ _
  cases receive st newSd with
  | none => simp
  | some r =>
      cases hrest : serve waiting r.static with
      | none => simp [hrest]
      | some sessions => simp [hrest]

/-- A call with a line in it is one round of the receiver's loop. -/
theorem receive_body_line {rc : ℕ} {f : Frame} (hrun : c.result = some (rc, f)) (hrc : rc ≠ ERROR) :
    receive_body ⟨c.static, c.newSd, List.replicate MAX_MSG NUL, received⟩
      = some (.next ⟨f.toStatic, f.newSd, List.replicate MAX_MSG NUL,
        received ++ [(rc, cstr f.line_to_return)]⟩) := by
  rw [Call.result] at hrun
  rw [receive_body, hrun, Option.bind_eq_bind, Option.bind_some]
  exact if_pos hrc

/-- A call that fails ends the loop, with what was received so far. -/
theorem receive_body_error {f : Frame} (hrun : c.result = some (ERROR, f)) :
    receive_body ⟨c.static, c.newSd, List.replicate MAX_MSG NUL, received⟩
      = some (.done ⟨f.toStatic, f.newSd, f.line_to_return, received⟩) := by
  rw [Call.result] at hrun
  rw [receive_body, hrun, Option.bind_eq_bind, Option.bind_some]
  exact if_neg fun h => h rfl

/-- A call that `main` gets through from is defined. -/
theorem Call.Returns.result_isSome (h : c.Returns received) : c.result.isSome := by
  obtain ⟨r, hrun, -⟩ := h
  cases hresult : c.result with
  | some r => rfl
  | none =>
      rw [Call.result] at hresult
      rw [loop_none (by rw [receive_body, hresult]; rfl)] at hrun
      cases hrun

/-- It gets through from the next one too. -/
theorem Call.Returns.next {rc : ℕ} (h : c.Returns received) (hnext : Next c rc c') :
    ∃ received', c'.Returns received' := by
  obtain ⟨r, hloop, hserve⟩ := h
  cases hnext with
  | line hrun hrc =>
      rw [loop_next (receive_body_line hrun hrc)] at hloop
      exact ⟨_, r, hloop, hserve⟩
  | accept hrun hwaiting =>
      rw [loop_done (receive_body_error hrun)] at hloop
      cases hloop
      rw [hwaiting] at hserve
      exact ⟨[], serve_cons_isSome.mp hserve⟩

/-- What a call comes to is decided by the pieces before it: it returns exactly if the next line
fits. -/
theorem Call.outcome (hst : c.static.Ok) : Outcome (pieces c.static c.newSd) 0 c.result :=
  read_line_outcome hst c.newSd List.length_replicate

/-- **What one call keeps**: the static variables are in order at the next one. -/
theorem Next.ok {rc : ℕ} (hnext : Next c rc c') (hst : c.static.Ok) : c'.static.Ok := by
  have hout := Call.outcome hst
  have hok : ∀ {rc f}, c.result = some (rc, f) → f.toStatic.Ok := by
    intro rc f hrun
    by_cases hfits : LineFits 0 (pieces c.static c.newSd)
    · obtain ⟨rc', f', hrun', hok, -⟩ := hout.returns hfits
      obtain ⟨rfl, rfl⟩ := Prod.mk.inj (Option.some.inj (hrun'.symm.trans hrun))
      exact hok
    · rw [hout.leaves hfits] at hrun
      cases hrun
  cases hnext with
  | line hrun hrc => exact hok hrun
  | accept hrun hwaiting => exact hok hrun

/-- Every line of the calls from here on fits. The condition is on the state before each call, not
on what the call does. -/
def Call.Fits (c : Call) : Prop :=
  ∀ c', Reachable Next c c' → LineFits 0 (pieces c'.static c'.newSd)

/-- The condition for the later calls of a connection is part of the condition for this one. -/
theorem Call.Fits.next {rc : ℕ} (h : c.Fits) (hnext : Next c rc c') : c'.Fits :=
  fun _ hreach => h _ (hreach.head hnext)

/-- One connection: each call that returns a line leaves fewer bytes to come. -/
theorem returns_of_serve {waiting : List Socket}
    (hserve : ∀ st : Static, st.Ok →
      (∀ newSd rest, waiting = newSd :: rest → Call.Fits ⟨st, newSd, rest⟩) →
      (serve waiting st).isSome) {n : ℕ} :
    ∀ {c : Call} {received : List (ℕ × List Char)}, (text (pieces c.static c.newSd)).length = n →
      c.waiting = waiting → c.static.Ok → c.Fits → c.Returns received := by
  induction n using Nat.strongRecOn with
  | ind n ih =>
      intro c received hn hwaiting hst hfits
      have hline : LineFits 0 (pieces c.static c.newSd) := hfits c (Reachable.refl Next c)
      obtain ⟨rc, f, hrun, hok, hless⟩ := (Call.outcome hst).returns hline
      by_cases hrc : rc = ERROR
      · rw [hrc] at hrun
        refine ⟨_, loop_done (receive_body_error hrun), ?_⟩
        rw [hwaiting]
        apply hserve f.toStatic hok
        intro newSd rest hrest
        exact hfits.next (.accept hrun (hwaiting.trans hrest))
      · have hnext := hfits.next (.line hrun hrc)
        obtain ⟨r, hloop, hrest⟩ := @ih _ (hn ▸ hless hrc)
          { c with static := f.toStatic, newSd := f.newSd }
          (received ++ [(rc, cstr f.line_to_return)]) rfl hwaiting hok hnext
        exact ⟨r, (loop_next (receive_body_line hrun hrc)).trans hloop, hrest⟩

/-- All of them, one after the other: the induction is on the connections that wait, and within
each on what is to be received. -/
theorem returns_of_fits {waiting : List Socket} :
    ∀ {c : Call} {received : List (ℕ × List Char)}, c.waiting = waiting → c.static.Ok → c.Fits →
      c.Returns received := by
  induction waiting with
  | nil =>
      intro c received hwaiting hst hfits
      exact returns_of_serve (fun _ _ _ => rfl) rfl hwaiting hst hfits
  | cons newSd waiting ih =>
      intro c received hwaiting hst hfits
      refine returns_of_serve (fun st hok hrest => ?_) rfl hwaiting hst hfits
      exact serve_cons_isSome.mpr (ih rfl hok (hrest newSd waiting rfl))

/-- A call whose line does not fit leaves its buffers. -/
theorem not_returns_of_not_fits (hst : c.static.Ok)
    (hfits : ¬ LineFits 0 (pieces c.static c.newSd)) : ¬ c.Returns received := by
  intro h
  have hresult := h.result_isSome
  rw [(Call.outcome hst).leaves hfits] at hresult
  cases hresult

end Runs

/-- The program starts with an empty buffer. -/
theorem Static.init_ok : Static.init.Ok :=
  fun h => absurd rfl h

/-- **`read_line` stays inside its buffers exactly when every line fits**: for any
connections, the condition is on what each call of `main` finds. -/
theorem staysInside_iff (sockets : List Socket) :
    StaysInside sockets ↔ ∀ c, Calls sockets c → LineFits 0 (pieces c.static c.newSd) := by
  cases sockets with
  | nil =>
      refine iff_of_true rfl ?_
      rintro c ⟨newSd, waiting, hsplit, -⟩
      cases hsplit
  | cons newSd waiting =>
      rw [StaysInside, serve_cons_isSome]
      constructor
      · rintro hreturns c ⟨newSd', waiting', hsplit, hreach⟩
        obtain ⟨rfl, rfl⟩ := List.cons.inj hsplit
        obtain ⟨hok, received, hreturns⟩ := hreach.invariant
          (fun c => c.static.Ok ∧ ∃ received, c.Returns received)
          ⟨Static.init_ok, [], hreturns⟩
          fun c rc c' ⟨hok, received, hreturns⟩ hnext => ⟨hnext.ok hok, hreturns.next hnext⟩
        by_contra hfits
        exact not_returns_of_not_fits hok hfits hreturns
      · intro hall
        apply returns_of_fits rfl Static.init_ok
        intro c hreach
        exact hall c ⟨newSd, waiting, rfl, hreach⟩

/-- The peer sends a line of `100` bytes, in two segments. -/
def longLine : Socket :=
  Socket.sends [⟨List.replicate 50 'a', by decide, by decide⟩,
    ⟨List.replicate 50 'a' ++ [END_LINE], by decide, by decide⟩]

/-- So there are connections on which the server writes past an array. -/
theorem not_staysInside : ¬ ∀ sockets : List Socket, StaysInside sockets := by
  intro h
  refine not_returns_of_not_fits (c := ⟨Static.init, longLine, []⟩) Static.init_ok ?_
    (serve_cons_isSome.mp (h [longLine]))
  intro hfits
  have hroom := hfits.room_nul (by decide)
  exact absurd hroom (by decide)

end CourseLabs.LineReader
