/-
`leaky_bucket.c`: the simulation loop.

The loop goes on while entries are left or the bucket is not empty, one slot at a time,
and the bucket runs dry and fills again in between. What it works towards is one number,
the time of the first slot it does not enter: `finish` reads it off the entries ahead and
the content of the bucket, and no slot changes it (`finish_slot`). So `finish` less the
time is the measure of the loop. It is also the value the `int` of the clock has to reach:
the run is defined exactly when `finish` fits (`simulated_iff`).
-/
import CourseLabs.CInt
import CourseLabs.CLoop
import CourseLabs.CMem
import Mathlib.Algebra.BigOperators.Group.List.Basic

set_option autoImplicit false

namespace CourseLabs.LeakyBucket

open CourseLabs.CInt CourseLabs.CLoop CourseLabs.CMem

/-! ## The program -/

/-- The packets the bucket holds at most. What comes on top of it is dropped. -/
def BUCKET_CAPACITY : ℤ := 10

/-- The packets the bucket sends in a second, if there are as many in it. -/
def LEAK_RATE : ℤ := 3

/-- An arrival of the trace: when, and how many packets. -/
structure TimeSlot where
  time : ℤ
  incoming : ℤ

/-- A line of the output: one for every second, with the content before the arrivals and after the
leak. -/
structure Row where
  time : ℤ
  incoming : ℤ
  buffer_before : ℤ
  sent : ℤ
  dropped : ℤ
  bucket_content : ℤ
deriving DecidableEq

/-- The variables of the loop, and the lines printed so far. -/
structure Sim where
  time : ℤ
  trace_idx : ℕ
  bucket_content : ℤ
  rows : List Row
deriving DecidableEq

/-- `incoming` in a slot, and the next `trace_idx`. The index goes on only when the slot is the one
of the entry, so an entry that is out of order blocks those behind it. -/
def next_entry (trace : List TimeSlot) (time : ℤ) (trace_idx : ℕ) : Option (ℤ × ℕ) :=
  if trace_idx < trace.length then do
    let entry ← (trace)[trace_idx]?
    if entry.time = time then do
      some (entry.incoming, ← nat32 (trace_idx + 1))
    else
      some (0, trace_idx)
  else
    some (0, trace_idx)

/-- The arrivals: `dropped` and the new content. The sum is an `int`, and what is above the
capacity is dropped. -/
def fill (bucket_content incoming : ℤ) : Option (ℤ × ℤ) := do
  let sum ← int32 (bucket_content + incoming)
  if sum > BUCKET_CAPACITY then do
    some (← int32 (sum - BUCKET_CAPACITY), BUCKET_CAPACITY)
  else
    some (0, sum)

/-- The leak: `sent` and the new content. A bucket with fewer packets than the rate is emptied. -/
def leak (bucket_content : ℤ) : Option (ℤ × ℤ) :=
  if bucket_content ≥ LEAK_RATE then do
    some (LEAK_RATE, ← int32 (bucket_content - LEAK_RATE))
  else
    some (bucket_content, 0)

/-- A round of the simulation, one second of it: the arrivals of this second are added, what does
not fit is dropped, and then the bucket leaks. Every sum is an `int` sum. -/
def slot_body (trace : List TimeSlot) (s : Sim) : Option (Pass Sim Sim) :=
  if s.trace_idx < trace.length ∨ s.bucket_content > 0 then do
    let (incoming, trace_idx) ← next_entry trace s.time s.trace_idx
    let (dropped, content) ← fill s.bucket_content incoming
    let (sent, bucket_content) ← leak content
    let row : Row :=
      { time := s.time, incoming, buffer_before := s.bucket_content, sent, dropped
        bucket_content }
    let time ← int32 (s.time + 1)
    some (.next { time, trace_idx, bucket_content, rows := s.rows ++ [row] })
  else
    some (.done s)

/-- `simulate`: the clock starts at `1` with an empty bucket. -/
def simulate (trace : List TimeSlot) : Option Sim :=
  loop (slot_body trace) { time := 1, trace_idx := 0, bucket_content := 0, rows := [] }

/-! ## What a simulation is -/

/-- The arrival traces: times and arrivals are `int`s, the times strictly increasing. -/
structure Trace (trace : List TimeSlot) : Prop where
  sorted : trace.Pairwise fun a b => a.time < b.time
  time : ∀ e ∈ trace, 1 ≤ e.time ∧ e.time < 2 ^ 31
  incoming : ∀ e ∈ trace, 0 ≤ e.incoming ∧ e.incoming < 2 ^ 31 - BUCKET_CAPACITY

/-- A slot keeps the bounds, drops only what does not fit, and loses nothing else. -/
structure Row.Ok (row : Row) : Prop where
  before : 0 ≤ row.buffer_before ∧ row.buffer_before ≤ BUCKET_CAPACITY
  after : 0 ≤ row.bucket_content ∧ row.bucket_content ≤ BUCKET_CAPACITY
  sent : 0 ≤ row.sent ∧ row.sent ≤ LEAK_RATE
  dropped : 0 ≤ row.dropped
  full : row.dropped ≠ 0 → row.buffer_before + row.incoming - row.dropped = BUCKET_CAPACITY
  balance : row.buffer_before + row.incoming = row.sent + row.dropped + row.bucket_content

/-- The output is right: the whole trace is read, the bucket is empty at the end, the rows are the
seconds in order, their arithmetic holds, and no packet appears or vanishes. -/
structure Simulated (trace : List TimeSlot) (s : Sim) : Prop where
  consumed : s.trace_idx = trace.length
  empty : s.bucket_content = 0
  times : s.rows.map Row.time = (List.range s.rows.length).map fun i : ℕ => (i : ℤ) + 1
  served : ∀ e ∈ trace, ∃ row ∈ s.rows, row.time = e.time ∧ row.incoming = e.incoming
  arrivals : ∀ row ∈ s.rows, row.incoming = 0
    ∨ ∃ e ∈ trace, e.time = row.time ∧ e.incoming = row.incoming
  rows_ok : ∀ row ∈ s.rows, row.Ok
  conserved : (trace.map TimeSlot.incoming).sum
    = (s.rows.map Row.sent).sum + (s.rows.map Row.dropped).sum

/-! ## The clock -/

/-- The content after the arrivals of a slot, before the leak: never above the capacity. -/
def peak (content incoming : ℤ) : ℤ :=
  min BUCKET_CAPACITY (content + incoming)

/-- The content after `n` slots without arrivals, which is what the time of the end depends on. -/
def drained (content n : ℤ) : ℤ :=
  max 0 (content - LEAK_RATE * n)

/-- The time at which the loop ends, from a time, a content and the entries ahead. -/
def finish (time content : ℤ) : List TimeSlot → ℤ
  | [] => time + (content + (LEAK_RATE - 1)) / LEAK_RATE
  | e :: rest =>
    finish (e.time + 1) (drained (peak (drained content (e.time - time)) e.incoming) 1) rest

section Slot

variable {time content incoming : ℤ} {done rest done' rest' : List TimeSlot}

/-- Adding the arrivals to the bucket: what is over its capacity is dropped. The `int` sum cannot
overflow as arrivals and content are in range. -/
theorem fill_spec (hcontent : 0 ≤ content ∧ content ≤ BUCKET_CAPACITY)
    (hincoming : 0 ≤ incoming ∧ incoming < 2 ^ 31 - BUCKET_CAPACITY) :
    fill content incoming
      = some (max 0 (content + incoming - BUCKET_CAPACITY), peak content incoming) := by
  rw [BUCKET_CAPACITY] at hcontent hincoming
  rw [fill, int32_eq_some (by omega) (by omega), Option.bind_eq_bind, Option.bind_some, peak]
  by_cases hfull : content + incoming > BUCKET_CAPACITY
  · rw [if_pos hfull, min_eq_left hfull.le, max_eq_right (by omega)]
    rw [BUCKET_CAPACITY] at hfull ⊢
    rw [int32_eq_some (by omega) (by omega)]
    rfl
  · rw [if_neg hfull, min_eq_right (by omega), max_eq_left (by omega)]

/-- Sending takes `LEAK_RATE` packets away, or all there are; the content does not go below zero.
-/
theorem leak_spec (hcontent : 0 ≤ content ∧ content ≤ BUCKET_CAPACITY) :
    leak content = some (min LEAK_RATE content, drained content 1) := by
  rw [BUCKET_CAPACITY] at hcontent
  rw [leak, drained, mul_one]
  by_cases hrate : content ≥ LEAK_RATE
  · rw [if_pos hrate, min_eq_left hrate, max_eq_right (by omega)]
    rw [LEAK_RATE] at hrate ⊢
    rw [int32_eq_some (by omega) (by omega)]
    rfl
  · rw [if_neg hrate, min_eq_right (by omega), max_eq_left (by omega)]

/-- What arrives in a slot: nothing, or the entry of that time. -/
inductive Arrival (time : ℤ) (done : List TimeSlot) :
    List TimeSlot → ℤ → List TimeSlot → List TimeSlot → Prop
  | idle {rest : List TimeSlot} (h : ∀ e ∈ rest, time < e.time) : Arrival time done rest 0 done rest
  | entry {rest : List TimeSlot} (e : TimeSlot) (htime : e.time = time)
      (h : ∀ e' ∈ rest, time < e'.time) :
      Arrival time done (e :: rest) e.incoming (done ++ [e]) rest

/-- The trace is sorted, so what arrives in a second is read off its head, and every entry is read
in its own second. -/
theorem next_entry_spec (hsorted : rest.Pairwise fun a b => a.time < b.time)
    (hahead : ∀ e ∈ rest, time ≤ e.time) (hlen : done.length + 1 < 2 ^ 31) :
    ∃ incoming done' rest',
      next_entry (done ++ rest) time done.length = some (incoming, done'.length)
      ∧ Arrival time done rest incoming done' rest' := by
  -- the trace is used up
  cases rest with
  | nil =>
      refine ⟨0, done, [], ?_, .idle (by simp)⟩
      rw [List.append_nil, next_entry, if_neg (by omega)]
  | cons e rest =>
      obtain ⟨hfirst, -⟩ := List.pairwise_cons.mp hsorted
      have hread : next_entry (done ++ e :: rest) time done.length
          = if e.time = time then some (e.incoming, done.length + 1)
            else some (0, done.length) := by
        rw [next_entry, if_pos (by simp), getElem?_append_cons, nat32_of_lt hlen]
        rfl
      rw [hread]
      by_cases htime : e.time = time
      · rw [if_pos htime]
        refine ⟨e.incoming, done ++ [e], rest, by simp, .entry e htime fun e' he' => ?_⟩
        exact htime ▸ hfirst e' he'
      -- the next entry is for a later second, and so are those behind it
      · rw [if_neg htime]
        refine ⟨0, done, e :: rest, rfl, .idle fun e' he' => ?_⟩
        have hlt : time < e.time := lt_of_le_of_ne (hahead e List.mem_cons_self) (Ne.symm htime)
        rcases List.mem_cons.mp he' with rfl | hmem
        · exact hlt
        · exact lt_trans hlt (hfirst e' hmem)

/-- **No slot changes the time of the end**: what is foreseen from the state before it is what is
foreseen from the state after it. -/
theorem finish_slot (h : Arrival time done rest incoming done' rest')
    (hcontent : 0 ≤ content ∧ content ≤ BUCKET_CAPACITY) (hgo : rest ≠ [] ∨ content > 0) :
    finish (time + 1) (drained (peak content incoming) 1) rest' = finish time content rest := by
  cases h with
  | idle hlater =>
      have hpeak : peak content 0 = content := by
        rw [peak, add_zero, min_eq_right hcontent.2]
      rw [hpeak]
      cases rest with
      | nil =>
          have hpos : content > 0 := hgo.resolve_left (fun h => h rfl)
          rw [finish, finish, drained, LEAK_RATE]
          omega
      | cons e rest =>
          have hlt := hlater e List.mem_cons_self
          -- one slot of the gap is over
          have hgap : drained (drained content 1) (e.time - (time + 1))
              = drained content (e.time - time) := by
            simp only [drained, LEAK_RATE]
            omega
          rw [finish, finish, hgap]
  | entry e htime hlater =>
      have hnow : drained content (e.time - time) = content := by
        rw [htime, sub_self, drained, mul_zero, sub_zero, max_eq_right hcontent.1]
      rw [finish, hnow, htime]

/-- The clock does not run backwards: what is left ends no earlier than now. -/
theorem le_finish (hsorted : rest.Pairwise fun a b => a.time < b.time)
    (hahead : ∀ e ∈ rest, time ≤ e.time) (hcontent : 0 ≤ content) :
    time ≤ finish time content rest := by
  induction rest generalizing time content with
  | nil =>
      rw [finish, LEAK_RATE]
      omega
  | cons e rest ih =>
      obtain ⟨hfirst, hsorted'⟩ := List.pairwise_cons.mp hsorted
      have hnext := hahead e List.mem_cons_self
      have hle := @ih (e.time + 1) (drained (peak (drained content (e.time - time)) e.incoming) 1)
        hsorted' (fun e' he' => hfirst e' he') (le_max_left 0 _)
      rw [finish]
      omega

end Slot

/-! ## The loop -/

/-- The loop has come past the entries `done`, with `rest` ahead. -/
structure Inv (done rest : List TimeSlot) (s : Sim) : Prop where
  idx : s.trace_idx = done.length
  time : s.time = s.rows.length + 1
  idx_le : done.length ≤ s.rows.length
  ahead : ∀ e ∈ rest, s.time ≤ e.time
  content : 0 ≤ s.bucket_content ∧ s.bucket_content ≤ BUCKET_CAPACITY
  times : s.rows.map Row.time = (List.range s.rows.length).map fun i : ℕ => (i : ℤ) + 1
  served : ∀ e ∈ done, ∃ row ∈ s.rows, row.time = e.time ∧ row.incoming = e.incoming
  arrivals : ∀ row ∈ s.rows, row.incoming = 0
    ∨ ∃ e ∈ done, e.time = row.time ∧ e.incoming = row.incoming
  rows_ok : ∀ row ∈ s.rows, row.Ok
  balance : (done.map TimeSlot.incoming).sum
    = (s.rows.map Row.sent).sum + (s.rows.map Row.dropped).sum + s.bucket_content

section Loop

variable {trace done rest done' rest' : List TimeSlot} {s : Sim} {incoming : ℤ}

/-- The line a slot prints, by its variables before the slot and the arrivals in it. -/
def row_of (s : Sim) (incoming : ℤ) : Row :=
  { time := s.time, incoming, buffer_before := s.bucket_content
    sent := min LEAK_RATE (peak s.bucket_content incoming)
    dropped := max 0 (s.bucket_content + incoming - BUCKET_CAPACITY)
    bucket_content := drained (peak s.bucket_content incoming) 1 }

/-- The variables after a slot, with the line added to those printed before. -/
def after (s : Sim) (incoming : ℤ) (trace_idx : ℕ) : Sim :=
  { time := s.time + 1, trace_idx
    bucket_content := drained (peak s.bucket_content incoming) 1
    rows := s.rows ++ [row_of s incoming] }

/-- The row of a second satisfies the arithmetic its columns are printed for. -/
theorem row_ok (hcontent : 0 ≤ s.bucket_content ∧ s.bucket_content ≤ BUCKET_CAPACITY)
    (hincoming : 0 ≤ incoming) : (row_of s incoming).Ok := by
  rw [BUCKET_CAPACITY] at hcontent
  constructor
  all_goals
    simp only [row_of, drained, peak, BUCKET_CAPACITY, LEAK_RATE]
    omega

/-- What an arrival means for the entries behind and ahead. -/
theorem Arrival.spec (h : Arrival s.time done rest incoming done' rest') :
    done' ++ rest' = done ++ rest ∧ done'.length ≤ done.length + 1
      ∧ (∀ e ∈ rest', s.time < e.time)
      ∧ (∀ e ∈ done', e ∈ done ∨ (s.time = e.time ∧ incoming = e.incoming))
      ∧ (∀ e ∈ done, e ∈ done')
      ∧ (incoming = 0 ∨ ∃ e ∈ done', e.time = s.time ∧ e.incoming = incoming)
      ∧ (done'.map TimeSlot.incoming).sum = (done.map TimeSlot.incoming).sum + incoming := by
  -- nothing arrives in this second, or one entry does
  cases h with
  | idle hlater =>
      exact ⟨rfl, by omega, hlater, fun e he => Or.inl he, fun e he => he, Or.inl rfl,
        (add_zero _).symm⟩
  | entry e htime hlater =>
      have hmem : e ∈ done ++ [e] := List.mem_append_right _ (List.mem_singleton.mpr rfl)
      refine ⟨by rw [List.append_assoc, List.singleton_append], by simp, hlater, ?_,
        fun e' he' => List.mem_append_left _ he', Or.inr ⟨e, hmem, htime, rfl⟩, by simp⟩
      intro e' he'
      rcases List.mem_append.mp he' with hold | hnew
      · exact Or.inl hold
      · obtain rfl := List.mem_singleton.mp hnew
        exact Or.inr ⟨htime.symm, rfl⟩

/-- What arrives in a second is in the range of the trace, or is nothing. -/
theorem Arrival.incoming_range (h : Arrival s.time done rest incoming done' rest')
    (hrange : ∀ e ∈ rest, 0 ≤ e.incoming ∧ e.incoming < 2 ^ 31 - BUCKET_CAPACITY) :
    0 ≤ incoming ∧ incoming < 2 ^ 31 - BUCKET_CAPACITY := by
  cases h with
  | idle => exact ⟨le_refl 0, by rw [BUCKET_CAPACITY]; decide⟩
  | entry e => exact hrange e List.mem_cons_self

/-- **A slot keeps the invariant**, with the entry of its time served. -/
theorem Inv.slot (hs : Inv done rest s) (h : Arrival s.time done rest incoming done' rest')
    (hincoming : 0 ≤ incoming) : Inv done' rest' (after s incoming done'.length) := by
  obtain ⟨-, hlen, hlater, hserved, hsub, harrived, hsum⟩ := h.spec
  have hrow := row_ok hs.content hincoming
  have hidx := hs.idx_le
  have hnew : row_of s incoming ∈ s.rows ++ [row_of s incoming] :=
    List.mem_append_right _ (List.mem_singleton.mpr rfl)
  refine ⟨rfl, by simp [after, hs.time], ?_, hlater, hrow.after, ?_, ?_, ?_, ?_, ?_⟩
  · simp only [after, List.length_append, List.length_singleton]
    omega
  -- the rows are the seconds, with this one behind them
  · rw [after, List.map_append, hs.times, List.length_append, List.length_singleton,
      List.range_succ, List.map_append, List.map_singleton, List.map_singleton, row_of, hs.time]
  -- an entry served before, or the one of this second
  · intro e he
    rcases hserved e he with hold | heq
    · obtain ⟨row, hmem, heq⟩ := hs.served e hold
      exact ⟨row, List.mem_append_left _ hmem, heq⟩
    · exact ⟨row_of s incoming, hnew, heq⟩
  · intro row hmem
    rcases List.mem_append.mp hmem with hold | hmem
    · rcases hs.arrivals row hold with h0 | ⟨e, he, heq⟩
      · exact Or.inl h0
      · exact Or.inr ⟨e, hsub e he, heq⟩
    · rw [List.mem_singleton.mp hmem]
      exact harrived
  · intro row hmem
    rcases List.mem_append.mp hmem with hold | hmem
    · exact hs.rows_ok row hold
    · exact List.mem_singleton.mp hmem ▸ hrow
  -- the balance of the row is what the balance of the run gains
  · have hbalance := hrow.balance
    have hold := hs.balance
    simp only [row_of] at hbalance
    simp only [after, List.map_append, List.sum_append, List.map_singleton, List.sum_singleton,
      row_of]
    omega

/-- What is known of the state at the head of the loop. -/
structure AtHead (trace : List TimeSlot) (s : Sim) (done rest : List TimeSlot) : Prop where
  split : trace = done ++ rest
  inv : Inv done rest s
  time_lt : s.time < 2 ^ 31
  ends_at : finish s.time s.bucket_content rest = finish 1 0 trace

/-- The simulation starts at the head of the trace. -/
theorem AtHead.start (htrace : Trace trace) :
    AtHead trace { time := 1, trace_idx := 0, bucket_content := 0, rows := [] } [] trace := by
  refine ⟨rfl, ⟨rfl, rfl, le_refl 0, fun e he => (htrace.time e he).1, ⟨le_refl 0, ?_⟩, rfl, ?_, ?_,
    ?_, rfl⟩, by decide, rfl⟩
  · rw [BUCKET_CAPACITY]
    decide
  all_goals simp

/-- The bucket is never over its capacity, between the arrivals and the leak either. -/
theorem peak_range (hcontent : 0 ≤ s.bucket_content ∧ s.bucket_content ≤ BUCKET_CAPACITY)
    (hincoming : 0 ≤ incoming) :
    0 ≤ peak s.bucket_content incoming ∧ peak s.bucket_content incoming ≤ BUCKET_CAPACITY := by
  simp only [peak, BUCKET_CAPACITY] at hcontent ⊢
  omega

/-- Everything in a slot before the clock is defined: only the next second may be one too many for
an `int`. -/
theorem slot_body_eq (hs : Inv done rest s) (hgo : rest ≠ [] ∨ s.bucket_content > 0)
    (hentry : next_entry (done ++ rest) s.time done.length = some (incoming, done'.length))
    (hrange : 0 ≤ incoming ∧ incoming < 2 ^ 31 - BUCKET_CAPACITY) :
    slot_body (done ++ rest) s
      = (int32 (s.time + 1)).bind fun time => some (.next
        { after s incoming done'.length with time }) := by
  have hcond : s.trace_idx < (done ++ rest).length ∨ s.bucket_content > 0 := by
    rw [hs.idx, List.length_append]
    refine hgo.imp_left fun hne => ?_
    have := List.length_pos_iff.mpr hne
    omega
  rw [slot_body, if_pos hcond, hs.idx, hentry]
  simp only [Option.bind_eq_bind, Option.bind_some, fill_spec hs.content hrange,
    leak_spec (peak_range hs.content hrange.1)]
  rfl

/-- With nothing ahead and nothing in the bucket the loop is over. -/
theorem AtHead.over (hs : AtHead trace s done rest) (hstop : ¬ (rest ≠ [] ∨ s.bucket_content > 0)) :
    rest = [] ∧ s.bucket_content = 0 ∧ s.time = finish 1 0 trace
      ∧ slot_body trace s = some (.done s) := by
  obtain ⟨rfl, hinv, -, hfinish⟩ := hs
  rw [not_or, not_not, not_lt] at hstop
  obtain ⟨rfl, hle⟩ := hstop
  have hzero : s.bucket_content = 0 := le_antisymm hle hinv.content.1
  refine ⟨rfl, hzero, ?_, ?_⟩
  · rw [← hfinish, hzero, finish, LEAK_RATE]
    omega
  · rw [slot_body, if_neg]
    rw [hinv.idx, List.append_nil, hzero]
    omega

/-- **One pass**: the loop is over, or the clock overflows, or the slot is simulated. -/
theorem AtHead.pass (htrace : Trace trace) (hs : AtHead trace s done rest) :
    (rest = [] ∧ s.bucket_content = 0 ∧ s.time = finish 1 0 trace
        ∧ slot_body trace s = some (.done s))
      ∨ (s.time < finish 1 0 trace ∧ s.time + 1 = 2 ^ 31 ∧ slot_body trace s = none)
      ∨ (s.time < finish 1 0 trace ∧ ∃ s' done' rest',
        slot_body trace s = some (.next s') ∧ s'.time = s.time + 1
          ∧ AtHead trace s' done' rest') := by
  by_cases hgo : rest ≠ [] ∨ s.bucket_content > 0
  swap
  · exact Or.inl (hs.over hgo)
  right
  obtain ⟨rfl, hinv, htime, hfinish⟩ := hs
  have hidx := hinv.idx_le
  have hrows := hinv.time
  obtain ⟨incoming, done', rest', hentry, harrival⟩ := @next_entry_spec s.time done rest
    (List.pairwise_append.mp htrace.sorted).2.1 hinv.ahead (by omega)
  have hsplit := harrival.spec.1
  have hrange := harrival.incoming_range fun e he =>
    htrace.incoming e (List.mem_append_right _ he)
  have hnext := hinv.slot harrival hrange.1
  have hbody := slot_body_eq hinv hgo hentry hrange
  -- the time of the end is still ahead, since the slot has not changed it
  have hslot := finish_slot harrival hinv.content hgo
  have hsorted' : rest'.Pairwise fun a b => a.time < b.time :=
    (List.pairwise_append.mp (hsplit ▸ htrace.sorted)).2.1
  have hlt := le_finish hsorted' hnext.ahead hnext.content.1
  simp only [after] at hlt
  rw [hslot, hfinish] at hlt
  rcases eq_or_lt_of_le (show s.time + 1 ≤ 2 ^ 31 by omega) with hmax | hroom
  · left
    refine ⟨by omega, hmax, ?_⟩
    rw [hbody, int32, sint_eq_none (le_of_eq hmax.symm), Option.bind_none]
  · right
    refine ⟨by omega, after s incoming done'.length, done', rest', ?_, rfl,
      hsplit.symm, hnext, hroom, hslot.trans hfinish⟩
    rw [hbody, int32_eq_some (by omega) hroom]
    rfl

/-- At the end the simulation is complete. -/
theorem AtHead.simulated (hs : AtHead trace s done []) (hempty : s.bucket_content = 0) :
    Simulated trace s := by
  obtain ⟨hsplit, hinv, -, -⟩ := hs
  rw [List.append_nil] at hsplit
  subst hsplit
  refine ⟨hinv.idx, hempty, hinv.times, hinv.served, hinv.arrivals, hinv.rows_ok, ?_⟩
  rw [hinv.balance, hempty, add_zero]

/-- The clock has room: the loop ends. -/
theorem simulate_of_lt (htrace : Trace trace) (hfinish : finish 1 0 trace < 2 ^ 31) :
    ∃ s, simulate trace = some s ∧ Simulated trace s :=
  loop_spec (fun s => (finish 1 0 trace - s.time).toNat)
    (fun s => ∃ done rest, AtHead trace s done rest) (Simulated trace) (by
      rintro s ⟨done, rest, hs⟩
      rcases hs.pass htrace with ⟨rfl, hempty, -, hdone⟩ | ⟨hlt, hmax, -⟩
        | ⟨hlt, s', done', rest', hnext, htime, hs'⟩
      · exact Or.inl ⟨s, hdone, hs.simulated hempty⟩
      · omega
      · exact Or.inr ⟨s', hnext, ⟨done', rest', hs'⟩, by omega⟩)
    ⟨[], trace, AtHead.start htrace⟩

/-- The clock has not: it overflows on the way, and the simulation has no result. -/
theorem simulate_none (htrace : Trace trace) (hfinish : 2 ^ 31 ≤ finish 1 0 trace) :
    simulate trace = none := by
  -- each round takes a second off what the clock has left
  have hover : ∀ n s done rest, AtHead trace s done rest → (2 ^ 31 - s.time).toNat = n →
      loop (slot_body trace) s = none := by
    intro n
    induction n with
    | zero =>
        intro s done rest hs hn
        have := hs.time_lt
        omega
    | succ n ih =>
        intro s done rest hs hn
        rcases hs.pass htrace with ⟨-, -, heq, -⟩ | ⟨-, -, hnone⟩
          | ⟨-, s', done', rest', hnext, htime, hs'⟩
        · have := hs.time_lt
          omega
        · exact loop_none hnone
        · rw [loop_next hnext]
          exact ih s' done' rest' hs' (by omega)
  exact hover _ _ _ _ (AtHead.start htrace) rfl

/-- **Conservation and termination.** The simulation is complete, with every slot in its
bounds, exactly when the time at which it ends is an `int`. -/
theorem simulated_iff (htrace : Trace trace) :
    (∃ s, simulate trace = some s ∧ Simulated trace s) ↔ finish 1 0 trace < 2 ^ 31 := by
  constructor
  · rintro ⟨s, hrun, -⟩
    by_contra hge
    rw [simulate_none htrace (not_lt.mp hge)] at hrun
    exact absurd hrun (by simp)
  · exact simulate_of_lt htrace

end Loop

/-- The trace of `main`, with a burst in the second slot that the bucket has to drop a part of. -/
def sample_trace : List TimeSlot :=
  [⟨1, 4⟩, ⟨2, 8⟩, ⟨3, 6⟩, ⟨4, 2⟩, ⟨5, 0⟩, ⟨6, 5⟩]

/-- The trace of `main` is one. -/
theorem trace_sample : Trace sample_trace := by
  refine ⟨by simp [sample_trace], ?_, ?_⟩
  all_goals simp [sample_trace, BUCKET_CAPACITY]

/-- The trace of `main` is over at second `9`, and its simulation is as the output says. -/
theorem simulated_iff_sample :
    finish 1 0 sample_trace = 9 ∧ ∃ s, simulate sample_trace = some s ∧ Simulated sample_trace s :=
  ⟨by decide, (simulated_iff trace_sample).mpr (by decide)⟩

/-- An entry in the last slot an `int` can count. -/
theorem not_always_simulated :
    ¬ ∀ trace, Trace trace → ∃ s, simulate trace = some s ∧ Simulated trace s := by
  intro h
  have htrace : Trace [⟨2 ^ 31 - 1, 0⟩] :=
    ⟨List.pairwise_singleton _ _, by simp, by simp [BUCKET_CAPACITY]⟩
  obtain ⟨s, hrun, -⟩ := h _ htrace
  rw [simulate_none htrace (by decide)] at hrun
  exact absurd hrun (by simp)

end CourseLabs.LeakyBucket
