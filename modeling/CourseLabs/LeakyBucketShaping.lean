/-
`leaky_bucket.c`: the simulation is the bucket of `Bucket`, and what follows from it.

The rows it prints are the slots of a bucket of capacity `BUCKET_CAPACITY` with the leak
`LEAK_RATE`, for the arrivals the trace has in each second (`Tabled`). So the row of an
overflow is not an accident of the simulation: no packet is dropped exactly when the trace
keeps to a bound in every interval of time (`lossless_iff`). And when packets are dropped,
they have to be: whoever decides packet by packet what to let into such a bucket has dropped
as many by the end of every second, and sent no more (`drops_least`).
-/
import CourseLabs.Bucket
import CourseLabs.LeakyBucket
import Mathlib.Algebra.Order.BigOperators.Group.List

set_option autoImplicit false

namespace CourseLabs.LeakyBucket

open CourseLabs.Bucket CourseLabs.CInt CourseLabs.CLoop

/-- The packets that arrive from second `a` to second `b`. -/
def arrived (trace : List TimeSlot) (a b : ℤ) : ℤ :=
  ((trace.filter fun e => a ≤ e.time ∧ e.time ≤ b).map TimeSlot.incoming).sum

/-- In no interval do more packets arrive than the bucket can hold and leak. -/
def Conforming (trace : List TimeSlot) : Prop :=
  ∀ a b, a ≤ b → arrived trace a b ≤ BUCKET_CAPACITY + LEAK_RATE * (b - a)

/-! ## The rows are the slots of a bucket -/

/-- The arrivals of the rows. -/
def coming (rows : List Row) : List ℤ :=
  rows.map Row.incoming

/-- The packets that come in two parts of the output. -/
theorem coming_append (rows rows' : List Row) :
    coming (rows ++ rows') = coming rows ++ coming rows' :=
  List.map_append

/-- Row by row the table is the bucket's. -/
structure Tabled (rows : List Row) (content : ℤ) : Prop where
  level : level BUCKET_CAPACITY LEAK_RATE 0 (coming rows) = content
  sent : ∀ k, ((rows.take k).map Row.sent).sum
    = served BUCKET_CAPACITY LEAK_RATE 0 (coming (rows.take k))
  dropped : ∀ k, ((rows.take k).map Row.dropped).sum
    = lost BUCKET_CAPACITY LEAK_RATE 0 (coming (rows.take k))

section Table

variable {trace done rest : List TimeSlot} {s s' : Sim} {incoming : ℤ} {idx : ℕ}
  {rows : List Row}

/-- A quantity summed over the first rows, with one more row. -/
theorem sum_take_concat {f : Row → ℤ} {g : List ℤ → ℤ} {row : Row}
    (hold : ∀ k, ((rows.take k).map f).sum = g (coming (rows.take k)))
    (hnew : (rows.map f).sum + f row = g (coming rows ++ [row.incoming])) (k : ℕ) :
    (((rows ++ [row]).take k).map f).sum = g (coming ((rows ++ [row]).take k)) := by
  rcases Nat.lt_or_ge rows.length k with hk | hk
  · rw [List.take_of_length_le (by rw [List.length_append, List.length_singleton]; omega),
      List.map_append, List.sum_append, List.map_singleton, List.sum_singleton, hnew,
      coming_append]
    rfl
  · rw [List.take_append_of_le_length hk]
    exact hold k

/-- A round of the simulation is one row more of the table of the general bucket. -/
theorem Tabled.after (h : Tabled s.rows s.bucket_content) :
    Tabled (after s incoming idx).rows (after s incoming idx).bucket_content := by
  obtain ⟨hlevel, hsent, hdropped⟩ := h
  have hsent' := hsent s.rows.length
  have hdropped' := hdropped s.rows.length
  rw [List.take_length] at hsent' hdropped'
  refine ⟨?_, sum_take_concat hsent ?_, sum_take_concat hdropped ?_⟩
  · rw [LeakyBucket.after, coming_append, level_append, hlevel]
    simp only [coming, List.map_singleton, Bucket.level, filled, row_of, drained, peak, mul_one]
  · rw [hsent', served_append, hlevel, row_of]
    simp only [served, filled, peak, add_zero]
  · rw [hdropped', lost_append, hlevel, row_of]
    simp only [lost, add_zero]

/-- What a pass makes of the variables. -/
theorem AtHead.next (htrace : Trace trace) (hs : AtHead trace s done rest)
    (hnext : slot_body trace s = some (.next s')) :
    ∃ incoming idx, s' = LeakyBucket.after s incoming idx := by
  have hgo : rest ≠ [] ∨ s.bucket_content > 0 := by
    by_contra hstop
    rw [(hs.over hstop).2.2.2] at hnext
    exact nomatch hnext
  obtain ⟨rfl, hinv, htime, -⟩ := hs
  have hidx := hinv.idx_le
  have hrows := hinv.time
  obtain ⟨incoming, done', rest', hentry, harrival⟩ := @next_entry_spec s.time done rest
    (List.pairwise_append.mp htrace.sorted).2.1 hinv.ahead (by omega)
  have hrange := harrival.incoming_range fun e he =>
    htrace.incoming e (List.mem_append_right _ he)
  rw [slot_body_eq hinv hgo hentry hrange] at hnext
  obtain ⟨time, hclock, hs'⟩ := Option.bind_eq_some_iff.mp hnext
  obtain rfl := eq_of_sint hclock
  exact ⟨incoming, done'.length, (Pass.next.inj (Option.some.inj hs')).symm⟩

/-- The output of the program is such a table, by induction on the rounds. -/
theorem tabled_of_simulate (htrace : Trace trace) (hrun : simulate trace = some s) :
    Simulated trace s ∧ Tabled s.rows s.bucket_content := by
  refine loop_inv
    (fun s => (∃ done rest, AtHead trace s done rest) ∧ Tabled s.rows s.bucket_content)
    (fun s => Simulated trace s ∧ Tabled s.rows s.bucket_content) ?_ ?_
    ⟨⟨[], trace, AtHead.start htrace⟩, rfl, fun k => ?_, fun k => ?_⟩ hrun
  -- a round adds a row to both
  · rintro s s' ⟨⟨done, rest, hs⟩, htab⟩ hnext
    obtain ⟨incoming, idx, rfl⟩ := hs.next htrace hnext
    refine ⟨?_, htab.after⟩
    rcases hs.pass htrace with ⟨-, -, -, hdone⟩ | ⟨-, -, hnone⟩
      | ⟨-, s', done', rest', hnext', -, hs'⟩
    · rw [hdone] at hnext
      exact nomatch hnext
    · rw [hnone] at hnext
      exact nomatch hnext
    · rw [hnext'] at hnext
      exact ⟨done', rest', Pass.next.inj (Option.some.inj hnext) ▸ hs'⟩
  -- the last round adds none
  · rintro s b ⟨⟨done, rest, hs⟩, htab⟩ hdone
    rcases hs.pass htrace with ⟨rfl, hempty, -, hdone'⟩ | ⟨-, -, hnone⟩ | ⟨-, s', -, -, hnext, -⟩
    · rw [hdone'] at hdone
      obtain rfl := Pass.done.inj (Option.some.inj hdone)
      exact ⟨hs.simulated hempty, htab⟩
    · rw [hnone] at hdone
      exact nomatch hdone
    · rw [hnext] at hdone
      exact nomatch hdone
  · rw [List.take_nil]
    rfl
  · rw [List.take_nil]
    rfl

end Table

/-! ## The arrivals of a second -/

section Arrivals

variable {trace : List TimeSlot} {e : TimeSlot} {a b : ℤ} {s : Sim} {row : Row} {i k m : ℕ}

/-- Outside the times of the trace nothing arrives. -/
theorem arrived_eq_zero (h : ∀ e ∈ trace, ¬ (a ≤ e.time ∧ e.time ≤ b)) :
    arrived trace a b = 0 := by
  rw [arrived, List.filter_eq_nil_iff.mpr fun e he => by simpa using h e he]
  rfl

/-- The first entry arrives in a span of time or does not. -/
theorem arrived_cons (e : TimeSlot) (l : List TimeSlot) (a b : ℤ) :
    arrived (e :: l) a b
      = (if a ≤ e.time ∧ e.time ≤ b then e.incoming else 0) + arrived l a b := by
  by_cases hin : a ≤ e.time ∧ e.time ≤ b
  · rw [arrived, List.filter_cons_of_pos (by simpa using hin), if_pos hin]
    rfl
  · rw [arrived, List.filter_cons_of_neg (by simpa using hin), if_neg hin, zero_add]
    rfl

/-- Two spans with the same entries in them have the same arrivals. -/
theorem arrived_congr {a' b' : ℤ}
    (h : ∀ e ∈ trace, (a ≤ e.time ∧ e.time ≤ b ↔ a' ≤ e.time ∧ e.time ≤ b')) :
    arrived trace a b = arrived trace a' b' := by
  rw [arrived, List.filter_congr fun e he => by rw [decide_eq_decide.mpr (h e he)]]
  rfl

/-- At the time of an entry its packets arrive, and no others, as the times of a trace are
different. -/
theorem arrived_of_mem (hsorted : trace.Pairwise fun a b => a.time < b.time) (he : e ∈ trace) :
    arrived trace e.time e.time = e.incoming := by
  obtain ⟨l, r, rfl⟩ := List.append_of_mem he
  obtain ⟨-, hr, hl⟩ := List.pairwise_append.mp hsorted
  have hbefore : l.filter (fun e' => e.time ≤ e'.time ∧ e'.time ≤ e.time) = [] := by
    refine List.filter_eq_nil_iff.mpr fun e' he' => ?_
    have := hl e' he' e List.mem_cons_self
    simpa using fun _ => by omega
  have hbehind : r.filter (fun e' => e.time ≤ e'.time ∧ e'.time ≤ e.time) = [] := by
    refine List.filter_eq_nil_iff.mpr fun e' he' => ?_
    have := (List.pairwise_cons.mp hr).1 e' he'
    simpa using fun _ => by omega
  rw [arrived, List.filter_append, hbefore, List.nil_append,
    List.filter_cons_of_pos (by simp), hbehind, List.map_singleton, List.sum_singleton]

/-- One second more. -/
theorem arrived_succ (hab : a ≤ b + 1) :
    arrived trace a (b + 1) = arrived trace a b + arrived trace (b + 1) (b + 1) := by
  induction trace with
  | nil => rfl
  | cons e l ih =>
      rw [arrived_cons, arrived_cons, arrived_cons, ih]
      split_ifs
      all_goals omega

/-- A row's arrivals are those of its second. -/
theorem Simulated.incoming_eq (htrace : Trace trace) (h : Simulated trace s)
    (hrow : (s.rows)[k]? = some row) : row.incoming = arrived trace (k + 1) (k + 1) := by
  have htimes : ∀ (k' : ℕ) (row' : Row), (s.rows)[k']? = some row' → row'.time = k' + 1 := by
    intro k' row' hrow'
    have hlt := (List.getElem?_eq_some_iff.mp hrow').1
    have hcell := congrArg (fun l => l[k']?) h.times
    simp only [List.getElem?_map, hrow', List.getElem?_range hlt, Option.map_some] at hcell
    exact Option.some.inj hcell
  have htime := htimes k row hrow
  by_cases hentry : ∃ e ∈ trace, e.time = k + 1
  · obtain ⟨e, he, hk⟩ := hentry
    obtain ⟨row', hmem', htime', hincoming⟩ := h.served e he
    obtain ⟨k', hk'⟩ := List.mem_iff_getElem?.mp hmem'
    have hsame : k' = k := by
      have := htimes k' row' hk'
      omega
    subst hsame
    obtain rfl := Option.some.inj (hk'.symm.trans hrow)
    rw [hincoming, ← hk, arrived_of_mem htrace.sorted he]
  · rw [arrived_eq_zero fun e he hin => hentry ⟨e, he, by omega⟩]
    rcases h.arrivals row (List.mem_of_getElem? hrow) with hzero | ⟨e, he, hk, -⟩
    · exact hzero
    · exact absurd ⟨e, he, hk.trans htime⟩ hentry

/-- A window of rows has the arrivals of its interval. -/
theorem Simulated.sum_window (htrace : Trace trace) (h : Simulated trace s)
    (hlen : i + m ≤ s.rows.length) :
    (coming ((s.rows.drop i).take m)).sum = arrived trace (i + 1) (i + m) := by
  induction m with
  | zero =>
      rw [List.take_zero, arrived_eq_zero fun e _ hin => by push_cast at hin; omega]
      rfl
  | succ m ih =>
      obtain ⟨row, hrow⟩ : ∃ row, (s.rows)[i + m]? = some row :=
        ⟨_, List.getElem?_eq_getElem (by omega)⟩
      have hstep : (i : ℤ) + ((m + 1 : ℕ) : ℤ) = (i + m : ℤ) + 1 := by
        push_cast
        ring
      have hincoming := h.incoming_eq htrace hrow
      rw [Nat.cast_add] at hincoming
      rw [List.take_add_one, List.getElem?_drop, hrow, Option.toList_some, coming_append,
        List.sum_append, ih (by omega), coming, List.map_singleton, List.sum_singleton, hincoming,
        hstep, @arrived_succ trace (i + 1) (i + m) (by omega)]

/-- Every entry has a row. -/
theorem Simulated.time_le (h : Simulated trace s) (he : e ∈ trace) :
    1 ≤ e.time ∧ e.time ≤ s.rows.length := by
  obtain ⟨row, hmem, htime, -⟩ := h.served e he
  have hin := List.mem_map_of_mem (f := Row.time) hmem
  rw [h.times, htime] at hin
  obtain ⟨k, hk, hkt⟩ := List.mem_map.mp hin
  have := List.mem_range.mp hk
  omega

/-- The rows are all the seconds of the simulation, so a bound on every span of rows is a bound on
every span of time. -/
theorem Simulated.conforms_iff (htrace : Trace trace) (h : Simulated trace s) :
    Conforms BUCKET_CAPACITY LEAK_RATE (coming s.rows) ↔ Conforming trace := by
  constructor
  · intro hconf a b hab
    -- the part of the interval that has rows
    by_cases hpart : max a 1 ≤ min b s.rows.length
    · obtain ⟨i, hi⟩ := Int.eq_ofNat_of_zero_le (show 0 ≤ max a 1 - 1 by omega)
      obtain ⟨m, hm⟩ := Int.eq_ofNat_of_zero_le
        (show 0 ≤ min b s.rows.length - max a 1 by omega)
      have hwindow := h.sum_window (m := m + 1) htrace (show i + (m + 1) ≤ s.rows.length by omega)
      have hsame : arrived trace a b = arrived trace (i + 1) (i + (m + 1 : ℕ)) := by
        refine arrived_congr fun e he => ?_
        have := h.time_le he
        push_cast
        omega
      have hbound := hconf (coming ((s.rows.drop i).take (m + 1)))
        ((List.take_prefix _ _).isInfix.trans (List.drop_suffix _ _).isInfix |>.map _)
        (by
          intro hnil
          have := congrArg List.length hnil
          rw [coming, List.length_map, List.length_take, List.length_drop, List.length_nil] at this
          omega)
      rw [hwindow, ← hsame, coming, List.length_map, List.length_take, List.length_drop,
        min_eq_left (by omega)] at hbound
      rw [LEAK_RATE] at hbound ⊢
      push_cast at hbound
      omega
    · rw [arrived_eq_zero fun e he hin => by have := h.time_le he; omega]
      rw [BUCKET_CAPACITY, LEAK_RATE]
      omega
  · rintro hconf v ⟨pre, post, hv⟩ hne
    have hpos := List.length_pos_iff.mpr hne
    have hlen := congrArg List.length hv
    rw [List.length_append, List.length_append, coming, List.length_map] at hlen
    have hwindow : v = coming ((s.rows.drop pre.length).take v.length) := by
      rw [coming, List.map_take, List.map_drop, ← coming, ← hv, List.append_assoc,
        List.drop_left, List.take_left]
    have hsum := h.sum_window (i := pre.length) (m := v.length) htrace (by omega)
    rw [← hwindow] at hsum
    have hbound := hconf (pre.length + 1) (pre.length + v.length) (by omega)
    rw [hsum]
    rw [LEAK_RATE] at hbound ⊢
    omega

end Arrivals

/-! ## What the shaping is worth -/

section Shaping

variable {trace : List TimeSlot} {s : Sim} {k : ℕ}

/-- No row has dropped packets exactly if none were dropped in all, as a dropped number is never
negative. -/
theorem Simulated.dropped_eq_zero_iff (h : Simulated trace s) :
    (∀ row ∈ s.rows, row.dropped = 0) ↔ (s.rows.map Row.dropped).sum = 0 := by
  constructor
  · intro hzero
    rw [List.map_congr_left hzero, List.map_const', List.sum_replicate, nsmul_zero]
  · intro hsum row hmem
    obtain ⟨l, r, hsplit⟩ := List.append_of_mem hmem
    have hnonneg : ∀ l' : List Row, (∀ row ∈ l', row ∈ s.rows) → 0 ≤ (l'.map Row.dropped).sum := by
      intro l' hl'
      refine List.sum_nonneg fun x hx => ?_
      obtain ⟨row', hrow', rfl⟩ := List.mem_map.mp hx
      exact (h.rows_ok row' (hl' row' hrow')).dropped
    have hl := hnonneg l fun row' hrow' => hsplit ▸ List.mem_append_left _ hrow'
    have hr := hnonneg r fun row' hrow' =>
      hsplit ▸ List.mem_append_right _ (List.mem_cons_of_mem row hrow')
    have hrow := (h.rows_ok row hmem).dropped
    rw [hsplit, List.map_append, List.sum_append, List.map_cons, List.sum_cons] at hsum
    omega

/-- **Conformance.** No packet is dropped exactly when in no interval of time more packets
arrive than the bucket holds and leaks. -/
theorem lossless_iff (htrace : Trace trace) (hrun : simulate trace = some s) :
    (∀ row ∈ s.rows, row.dropped = 0) ↔ Conforming trace := by
  obtain ⟨hsim, htab⟩ := tabled_of_simulate htrace hrun
  have hlost := htab.dropped s.rows.length
  rw [List.take_length] at hlost
  rw [hsim.dropped_eq_zero_iff, hlost, lost_empty_eq_zero_iff, hsim.conforms_iff htrace]

/-- The trace of `main`. -/
theorem lossless_iff_sample :
    ∃ s, simulate sample_trace = some s
      ∧ ((∀ row ∈ s.rows, row.dropped = 0) ↔ Conforming sample_trace) := by
  obtain ⟨s, hrun, -⟩ := simulate_of_lt trace_sample (by decide)
  exact ⟨s, hrun, lossless_iff trace_sample hrun⟩

/-- In the third second of the sample there is one packet too many, behind two busy ones. -/
example : ¬ Conforming sample_trace := by
  intro h
  exact absurd (h 1 3 (by decide)) (by decide)

/-- What comes in is not negative. -/
theorem Simulated.incoming_nonneg (htrace : Trace trace) (h : Simulated trace s) {x : ℤ}
    (hx : x ∈ coming s.rows) : 0 ≤ x := by
  obtain ⟨row, hmem, rfl⟩ := List.mem_map.mp hx
  rcases h.arrivals row hmem with hzero | ⟨e, he, -, hsame⟩
  · exact hzero.ge
  · rw [← hsame]
    exact (htrace.incoming e he).1

/-- What is in the bucket after a second is sent in the next three, or the simulation ends. -/
theorem Simulated.level_le_served (htrace : Trace trace) (h : Simulated trace s)
    (htab : Tabled s.rows s.bucket_content) (k : ℕ) :
    level BUCKET_CAPACITY LEAK_RATE 0 (coming (s.rows.take k))
      ≤ Bucket.served BUCKET_CAPACITY LEAK_RATE (level BUCKET_CAPACITY LEAK_RATE 0
        (coming (s.rows.take k))) (coming ((s.rows.drop k).take 3)) := by
  have hnonneg := @level_nonneg BUCKET_CAPACITY LEAK_RATE 0 (le_refl 0) (coming (s.rows.take k))
  have hroom := @level_le BUCKET_CAPACITY LEAK_RATE 0 (by decide) (by decide)
    (coming (s.rows.take k))
  have hxs : ∀ x ∈ coming ((s.rows.drop k).take 3), 0 ≤ x := fun x hx =>
    h.incoming_nonneg htrace
      (List.map_subset _ (fun row hrow => List.mem_of_mem_drop (List.mem_of_mem_take hrow)) hx)
  by_cases hlen : 3 ≤ (s.rows.drop k).length
  · refine Bucket.level_le_served (by decide) hnonneg hroom hxs ?_
    rw [coming, List.length_map, List.length_take, min_eq_left hlen]
    decide
  · -- the rows end, with an empty bucket
    have hend := htab.level
    rw [h.empty] at hend
    rw [List.take_of_length_le (show (s.rows.drop k).length ≤ 3 by omega)] at hxs ⊢
    have hbalance := @Bucket.balance BUCKET_CAPACITY LEAK_RATE
      (level BUCKET_CAPACITY LEAK_RATE 0 (coming (s.rows.take k))) (coming (s.rows.drop k))
    rw [← level_append, ← coming_append, List.take_append_drop, hend] at hbalance
    have hlost := @lost_le_sum BUCKET_CAPACITY LEAK_RATE
      (level BUCKET_CAPACITY LEAK_RATE 0 (coming (s.rows.take k))) _ (by decide) (by decide)
      (hroom.trans (by decide)) hxs
    omega

/-- Some of the arrivals of each row let in, so that the bucket never overflows. -/
structure Admission (rows : List Row) (ys : List ℤ) : Prop where
  some_of : List.Forall₂ (fun y row => 0 ≤ y ∧ y ≤ row.incoming) ys rows
  fits : lost BUCKET_CAPACITY LEAK_RATE 0 ys = 0

/-- **Optimality.** By the end of every second nobody has sent more or dropped less, and what
is let in is sent within three seconds. -/
theorem drops_least (htrace : Trace trace) (hrun : simulate trace = some s) (k : ℕ) :
    (∀ ys, Admission (s.rows.take k) ys →
      served BUCKET_CAPACITY LEAK_RATE 0 ys ≤ ((s.rows.take k).map Row.sent).sum
        ∧ ((s.rows.take k).map Row.dropped).sum
          ≤ ((s.rows.take k).map Row.incoming).sum - ys.sum)
      ∧ ((s.rows.take k).map Row.incoming).sum - ((s.rows.take k).map Row.dropped).sum
        ≤ ((s.rows.take (k + 3)).map Row.sent).sum := by
  obtain ⟨hsim, htab⟩ := tabled_of_simulate htrace hrun
  have hsent := htab.sent k
  have hdropped := htab.dropped k
  have hall := @Bucket.balance BUCKET_CAPACITY LEAK_RATE 0 (coming (s.rows.take k))
  refine ⟨fun ys hys => ?_, ?_⟩
  · have hle : List.Forall₂ (· ≤ ·) ys (coming (s.rows.take k)) :=
      List.forall₂_map_right_iff.mpr (hys.some_of.imp fun _ _ h => h.2)
    obtain ⟨hserved, hin⟩ := @served_le_served BUCKET_CAPACITY LEAK_RATE 0 0 0 _ _ (le_refl 0)
      (le_refl 0) hle hys.fits
    have hbalance := @Bucket.balance BUCKET_CAPACITY LEAK_RATE 0 ys
    have hfits := hys.fits
    rw [coming] at *
    omega
  · have hlater := htab.sent (k + 3)
    have hwaits := hsim.level_le_served htrace htab k
    rw [hlater, List.take_add, coming_append, served_append]
    rw [coming] at *
    omega

/-- The first three seconds of the trace of `main`, against every way to admit some of their
packets. -/
theorem drops_least_sample :
    ∃ s, simulate sample_trace = some s
      ∧ (∀ ys, Admission (s.rows.take 3) ys →
        served BUCKET_CAPACITY LEAK_RATE 0 ys ≤ ((s.rows.take 3).map Row.sent).sum
          ∧ ((s.rows.take 3).map Row.dropped).sum
            ≤ ((s.rows.take 3).map Row.incoming).sum - ys.sum)
      ∧ ((s.rows.take 3).map Row.incoming).sum - ((s.rows.take 3).map Row.dropped).sum
        ≤ ((s.rows.take (3 + 3)).map Row.sent).sum := by
  obtain ⟨s, hrun, -⟩ := simulate_of_lt trace_sample (by decide)
  exact ⟨s, hrun, drops_least trace_sample hrun 3⟩

end Shaping

end CourseLabs.LeakyBucket
