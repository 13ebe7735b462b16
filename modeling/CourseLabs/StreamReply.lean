/-
**Requests and replies over a pair of byte streams.**

A client sends its messages one after the other, and after each waits for one read to
return. A server reads, answers what it has read, and stops after some answers. The streams
lose nothing and keep the order, but they keep no boundaries: a read returns at least one
byte and at most `N`, as many as the network likes. So an answer need not belong to a
message, and a client need not get the whole of one.

What is left is in the two streams as a whole: the server reads, in pieces, exactly what the
client has sent, and the client gets, in pieces, exactly the answers to these pieces
(`Exact`). Nobody waits for ever: every run ends within as many steps as there are bytes, and
two for each message (`run_bounded`), and the run that can not go on is at the end of both
programs (`Busy.progress`). And when every read takes what there is, the rounds are kept
apart exactly as long as no answer is longer than a read (`inStep_iff`). Nothing here mentions
a program.
-/
import CourseLabs.Transition
import Mathlib.Data.List.Basic

set_option autoImplicit false

namespace CourseLabs.StreamReply

open CourseLabs.Transition

/-- The two programs, with what each read of the client has returned, and the bytes that are
sent but not read. -/
structure State (α β : Type) where
  todo : List (List α)
  waiting : Option (List α)
  log : List (List α × Option (List β))
  up : List α
  down : List β
  /-- The server has not stopped. -/
  running : Bool

/-- Who takes a step; a read comes with the number of bytes it returns. -/
inductive Action where
  | send
  | serve (n : ℕ)
  | respond (n : ℕ)
  | hangup
  | close

section Protocol

variable {α β : Type}

def start (msgs : List (List α)) : State α β :=
  { todo := msgs, waiting := none, log := [], up := [], down := [], running := true }

/-- A client whose server has stopped may find the connection closed, in any of its calls, and
ends. A server ends when its client has. -/
inductive Step (N : ℕ) (serve : List α → Option (Bool × List β)) :
    State α β → Action → State α β → Prop
  | send {s : State α β} {a : List α} {as : List (List α)} (hwaiting : s.waiting = none)
      (htodo : s.todo = a :: as) :
      Step N serve s .send { s with todo := as, waiting := some a, up := s.up ++ a }
  | serve {s : State α β} {n : ℕ} {stop : Bool} {b : List β} (hrunning : s.running = true)
      (hpos : 1 ≤ n) (hroom : n ≤ N) (hin : n ≤ s.up.length)
      (hserve : serve (s.up.take n) = some (stop, b)) :
      Step N serve s (.serve n)
        { s with up := s.up.drop n, down := s.down ++ b, running := !stop }
  | respond {s : State α β} {n : ℕ} {a : List α} (hwaiting : s.waiting = some a)
      (hpos : 1 ≤ n) (hroom : n ≤ N) (hin : n ≤ s.down.length) :
      Step N serve s (.respond n)
        { s with waiting := none, log := s.log ++ [(a, some (s.down.take n))]
                 down := s.down.drop n }
  | hangup {s : State α β} (hstopped : s.running = false)
      (hgoes : s.waiting.isSome ∨ s.todo ≠ []) :
      Step N serve s .hangup
        { s with todo := [], waiting := none
                 log := s.log ++ s.waiting.toList.map fun a => (a, none) }
  | close {s : State α β} (hwaiting : s.waiting = none) (htodo : s.todo = [])
      (hrunning : s.running = true) :
      Step N serve s .close { s with running := false }

variable {N : ℕ} {serve : List α → Option (Bool × List β)} {msgs : List (List α)}
  {s t : State α β} {act : Action}

/-! ## The streams as a whole -/

/-- What the client has sent, in order: the messages of the finished rounds, and the one it waits
for the answer to. -/
def sent (s : State α β) : List (List α) :=
  s.log.map Prod.fst ++ s.waiting.toList

/-- What the client has got, round by round. These are the results of its reads, which need not be
the answers to its messages. -/
def got (s : State α β) : List (List β) :=
  s.log.filterMap Prod.snd

/-- `pieces` are what the server has read, each with its answer. -/
structure Exact (N : ℕ) (serve : List α → Option (Bool × List β)) (msgs : List (List α))
    (s : State α β) (pieces : List (List α × List β)) : Prop where
  order : sent s ++ s.todo <+: msgs
  requests : (pieces.map Prod.fst).flatten ++ s.up = (sent s).flatten
  answers : ∀ p ∈ pieces, p.1 ≠ [] ∧ p.1.length ≤ N ∧ ∃ stop, serve p.1 = some (stop, p.2)
  replies : (got s).flatten ++ s.down = (pieces.map Prod.snd).flatten
  reads : ∀ b ∈ got s, b.length ≤ N

theorem exact_start (msgs : List (List α)) : Exact N serve msgs (start msgs : State α β) [] :=
  ⟨List.prefix_refl msgs, rfl, fun _ h => absurd h List.not_mem_nil, rfl,
    fun _ h => absurd h List.not_mem_nil⟩

theorem Exact.step {pieces : List (List α × List β)} (h : Exact N serve msgs s pieces)
    (hstep : Step N serve s act t) : ∃ pieces', Exact N serve msgs t pieces' := by
  obtain ⟨horder, hrequests, hanswers, hreplies, hreads⟩ := h
  cases hstep with
  -- the message is on the way and not yet cut
  | @send a as hwaiting htodo =>
      have hsent : sent s = s.log.map Prod.fst := by
        rw [sent, hwaiting]
        exact List.append_nil _
      refine ⟨pieces, ?_, ?_, hanswers, hreplies, hreads⟩
      · rw [hsent, htodo] at horder
        simpa [sent] using horder
      · rw [hsent] at hrequests
        rw [← List.append_assoc, hrequests]
        simp [sent]
  -- what the server reads is a new piece
  | @serve n stop b hrunning hpos hroom hin hserve =>
      refine ⟨pieces ++ [(s.up.take n, b)], horder, ?_, fun p hp => ?_, ?_, hreads⟩
      · change _ = (sent s).flatten
        rw [← hrequests]
        simp
      · rcases List.mem_append.mp hp with hp | hp
        · exact hanswers p hp
        · obtain rfl := List.mem_singleton.mp hp
          refine ⟨fun hnil => ?_, Nat.le_trans (List.length_take_le _ _) hroom, stop, hserve⟩
          have := congrArg List.length hnil
          rw [List.length_take, List.length_nil] at this
          omega
      · rw [List.map_append, List.flatten_append, ← hreplies]
        simp [got]
  -- what the client reads comes off the replies
  | @respond n a hwaiting hpos hroom hin =>
      have hgot : (s.log ++ [(a, some (s.down.take n))]).filterMap Prod.snd
          = got s ++ [s.down.take n] := by
        rw [List.filterMap_append]
        rfl
      refine ⟨pieces, ?_, ?_, hanswers, ?_, fun b hb => ?_⟩
      · simpa [sent, hwaiting] using horder
      · simpa [sent, hwaiting] using hrequests
      · rw [got, hgot, ← hreplies]
        simp
      · rw [got, hgot] at hb
        rcases List.mem_append.mp hb with hb | hb
        · exact hreads b hb
        · rw [List.mem_singleton.mp hb]
          exact Nat.le_trans (List.length_take_le _ _) hroom
  | hangup hstopped hgoes =>
      have hsent : (s.log ++ s.waiting.toList.map fun a => (a, (none : Option (List β)))).map
          Prod.fst = sent s := by
        rw [List.map_append, List.map_map, sent]
        exact congrArg _ (List.map_id _)
      have hgot : (s.log ++ s.waiting.toList.map fun a => (a, (none : Option (List β)))).filterMap
          Prod.snd = got s := by
        rw [List.filterMap_append]
        simp [got]
      refine ⟨pieces, ?_, ?_, hanswers, ?_, fun b hb => ?_⟩
      · rw [sent, hsent]
        simpa using (List.prefix_append (sent s) s.todo).trans horder
      · rw [sent, hsent, hrequests]
        simp
      · rw [got, hgot, hreplies]
      · rw [got, hgot] at hb
        exact hreads b hb
  | close hwaiting htodo hrunning =>
      exact ⟨pieces, horder, hrequests, hanswers, hreplies, hreads⟩

/-- **Nothing is lost or invented**, however the streams are cut. -/
theorem exact_of_reachable (h : Reachable (Step N serve) (start msgs) s) :
    ∃ pieces, Exact N serve msgs s pieces :=
  h.invariant (fun s => ∃ pieces, Exact N serve msgs s pieces) ⟨[], exact_start msgs⟩
    fun _ _ _ ⟨_, hs⟩ hstep => hs.step hstep

/-! ## Nobody waits for ever -/

/-- A client that waits has something to wait for: bytes on their way to the server, or an answer
on its way back. -/
structure Busy (s : State α β) : Prop where
  todo : ∀ a ∈ s.todo, a ≠ []
  waiting : s.waiting.isSome → s.up ≠ [] ∨ s.down ≠ []

/-- The steps that may still come. Each byte to be read counts as one, since the network may
deliver the bytes one by one. -/
def left (s : State α β) : ℕ :=
  s.todo.flatten.length + 2 * s.todo.length + s.waiting.toList.length + s.up.length
    + s.running.toNat

theorem busy_start (hmsgs : ∀ a ∈ msgs, a ≠ []) : Busy (start msgs : State α β) :=
  ⟨hmsgs, fun hsome => absurd hsome Bool.false_ne_true⟩

section Answers

variable (hanswers : ∀ a : List α, a ≠ [] → a.length ≤ N →
  ∃ stop b, serve a = some (stop, b) ∧ b ≠ [])

include hanswers

theorem Busy.step (h : Busy s) (hstep : Step N serve s act t) :
    Busy t ∧ left t + 1 ≤ left s := by
  obtain ⟨htodo', hwaiting'⟩ := h
  cases hstep with
  -- a message goes from the list to the wire, and its bytes are counted there
  | @send a as hwaiting htodo =>
      rw [htodo] at htodo'
      have hne := htodo' a List.mem_cons_self
      refine ⟨⟨fun x hx => htodo' x (List.mem_cons_of_mem a hx), fun _ => Or.inl ?_⟩, ?_⟩
      · exact List.append_ne_nil_of_right_ne_nil _ hne
      · simp only [left, htodo, hwaiting, List.flatten_cons, List.length_cons,
          List.length_append, Option.toList_some, Option.toList_none, List.length_nil]
        omega
  -- the server takes at least a byte, and the reply is not empty
  | @serve n stop b hrunning hpos hroom hin hserve =>
      have hpiece : s.up.take n ≠ [] := by
        intro hnil
        have := congrArg List.length hnil
        rw [List.length_take, List.length_nil] at this
        omega
      obtain ⟨stop', b', hserve', hb⟩ :=
        hanswers _ hpiece (Nat.le_trans (List.length_take_le _ _) hroom)
      obtain ⟨-, rfl⟩ := Prod.mk.inj (Option.some.inj (hserve.symm.trans hserve'))
      refine ⟨⟨htodo', fun _ => Or.inr (List.append_ne_nil_of_right_ne_nil _ hb)⟩, ?_⟩
      have hstop : (!stop).toNat ≤ 1 := Bool.toNat_le _
      simp only [left, hrunning, List.length_drop, Bool.toNat_true]
      omega
  -- the client waits for nothing any more
  | @respond n a hwaiting hpos hroom hin =>
      refine ⟨⟨htodo', fun hsome => nomatch hsome⟩, ?_⟩
      simp only [left, hwaiting, Option.toList_some, Option.toList_none, List.length_singleton,
        List.length_nil]
      omega
  -- everything the client still had before it is given up
  | hangup hstopped hgoes =>
      refine ⟨⟨fun _ hx => absurd hx List.not_mem_nil, fun hsome => nomatch hsome⟩, ?_⟩
      -- which was something, or it would not have hung up
      have hsome : 1 ≤ s.waiting.toList.length + 2 * s.todo.length := by
        rcases hgoes with hwait | htodo
        · obtain ⟨a, ha⟩ := Option.isSome_iff_exists.mp hwait
          rw [ha, Option.toList_some, List.length_singleton]
          omega
        · obtain ⟨a, as, has⟩ := List.exists_cons_of_ne_nil htodo
          rw [has, List.length_cons]
          omega
      simp only [left, Option.toList_none, List.length_nil, List.flatten_nil]
      omega
  | close hwaiting htodo hrunning =>
      refine ⟨⟨htodo', hwaiting'⟩, ?_⟩
      simp only [left, hrunning, Bool.toNat_true, Bool.toNat_false]
      omega

/-- **Every run ends**, within a number of steps that depends on the messages alone. -/
theorem run_bounded (hmsgs : ∀ a ∈ msgs, a ≠ []) {trace : List (State α β × Action)}
    (hrun : Run (Step N serve) (start msgs) trace s) :
    Busy s ∧ trace.length + left s ≤ msgs.flatten.length + 2 * msgs.length + 1 := by
  refine hrun.invariant (fun trace s =>
    Busy s ∧ trace.length + left s ≤ msgs.flatten.length + 2 * msgs.length + 1)
    ⟨busy_start hmsgs, ?_⟩ fun trace t a u ⟨hbusy, hlen⟩ hstep => ?_
  · simp only [left, start, Option.toList_none, List.length_nil, Bool.toNat_true]
    omega
  · obtain ⟨hbusy', hless⟩ := hbusy.step hanswers hstep
    refine ⟨hbusy', ?_⟩
    rw [List.length_append, List.length_singleton]
    omega

/-- **And it ends where both programs do**: with no message left and none under way, so the client
is through and the server has seen the end. -/
theorem Busy.progress (hN : 1 ≤ N) (h : Busy s) (hstuck : Stuck (Step N serve) s) :
    s.waiting = none ∧ s.todo = [] ∧ s.running = false := by
  cases hrunning : s.running with
  -- a stopped server is hung up on while the client has anything left
  | false =>
      by_contra hgoes
      refine hstuck _ _ (.hangup hrunning ?_)
      cases hwaiting : s.waiting with
      | none => exact Or.inr fun htodo => hgoes ⟨hwaiting, htodo, rfl⟩
      | some a => exact Or.inl rfl
  -- a running one can always be given the next byte
  | true =>
      exfalso
      cases hwaiting : s.waiting with
      | none =>
          cases htodo : s.todo with
          | nil => exact hstuck _ _ (.close hwaiting htodo hrunning)
          | cons a as => exact hstuck _ _ (.send hwaiting htodo)
      | some a =>
          -- the message is still on its way, or the reply is
          rcases h.waiting (by rw [hwaiting]; rfl) with hup | hdown
          · have hpos := List.length_pos_iff.mpr hup
            have hpiece : s.up.take 1 ≠ [] := by
              intro hnil
              have := congrArg List.length hnil
              rw [List.length_take, List.length_nil] at this
              omega
            obtain ⟨stop, b, hserve, -⟩ :=
              hanswers _ hpiece (Nat.le_trans (List.length_take_le _ _) hN)
            exact hstuck _ _ (.serve hrunning (Nat.le_refl 1) hN hpos hserve)
          · have hpos := List.length_pos_iff.mpr hdown
            exact hstuck _ _ (.respond hwaiting (Nat.le_refl 1) hN hpos)

end Answers

/-! ## Rounds that are kept apart -/

/-- A read takes what there is, and the client ends only when there is nothing to read. -/
def Whole (N : ℕ) (s : State α β) : Action → Prop
  | .serve n => n = min N s.up.length
  | .respond n => n = min N s.down.length
  | .hangup => s.down = []
  | _ => True

/-- The server answers each message that comes in one piece, and only the last one stops it. -/
structure Session (N : ℕ) (serve : List α → Option (Bool × List β)) (rep : List α → List β)
    (stops : List α → Bool) (msgs : List (List α)) : Prop where
  serves : ∀ a ∈ msgs, serve a = some (stops a, rep a)
  fits : ∀ a ∈ msgs, a ≠ [] ∧ a.length ≤ N
  answers : ∀ a ∈ msgs, rep a ≠ []
  last : ∀ pre a post, msgs = pre ++ a :: post → stops a = true → post = []

/-- Between two rounds nothing is on the way, and in a round its message or its answer. -/
structure Kept (rep : List α → List β) (msgs : List (List α)) (s : State α β) : Prop where
  order : sent s ++ s.todo = msgs
  idle : s.waiting = none → s.up = [] ∧ s.down = []
  busy : ∀ a, s.waiting = some a →
    (s.up = a ∧ s.down = [] ∧ s.running = true) ∨ (s.up = [] ∧ s.down = rep a)
  log : ∀ e ∈ s.log, e.2 = some (rep e.1)
  stopped : s.running = false → s.todo = []

section InStep

variable {rep : List α → List β} {stops : List α → Bool}

theorem kept_start (msgs : List (List α)) : Kept rep msgs (start msgs : State α β) :=
  ⟨rfl, fun _ => ⟨rfl, rfl⟩, fun _ h => (nomatch h), fun _ h => absurd h List.not_mem_nil,
    fun h => absurd h.symm Bool.false_ne_true⟩

theorem Kept.mem {a : List α} (h : Kept rep msgs s) (hwaiting : s.waiting = some a) :
    a ∈ msgs ∧ msgs = s.log.map Prod.fst ++ a :: s.todo := by
  have hmsgs : msgs = s.log.map Prod.fst ++ a :: s.todo := by
    rw [← h.order, sent, hwaiting, List.append_assoc]
    rfl
  refine ⟨?_, hmsgs⟩
  rw [hmsgs]
  exact List.mem_append_right _ List.mem_cons_self

theorem Kept.step (hsession : Session N serve rep stops msgs)
    (hshort : ∀ a ∈ msgs, (rep a).length ≤ N) (h : Kept rep msgs s) (hwhole : Whole N s act)
    (hstep : Step N serve s act t) : Kept rep msgs t := by
  cases hstep with
  -- the wires are empty before, so they hold this message alone
  | @send a as hwaiting htodo =>
      obtain ⟨hup, hdown⟩ := h.idle hwaiting
      have horder := h.order
      refine ⟨?_, fun hnone => (nomatch hnone), fun x hx => ?_, h.log, fun hstop => ?_⟩
      · rw [← horder, htodo]
        simp [sent, hwaiting]
      · obtain rfl := Option.some.inj hx
        left
        refine ⟨by rw [hup]; rfl, hdown, ?_⟩
        cases hrunning : s.running with
        | true => rfl
        | false => exact nomatch htodo.symm.trans (h.stopped hrunning)
      · exact nomatch htodo.symm.trans (h.stopped hstop)
  -- a read of everything takes the one message, which fits the buffer
  | @serve n stop b hrunning hpos hroom hin hserve =>
      rcases Option.eq_none_or_eq_some s.waiting with hwaiting | ⟨a, hwaiting⟩
      · rw [(h.idle hwaiting).1, List.length_nil] at hin
        omega
      · obtain ⟨hmem, hmsgs⟩ := h.mem hwaiting
        rcases h.busy a hwaiting with ⟨hup, hdown, -⟩ | ⟨hup, -⟩
        · have hn : n = a.length := by
            have := (hsession.fits a hmem).2
            rw [hwhole, hup]
            omega
          rw [hup, hn, List.take_length, hsession.serves a hmem, Option.some.injEq,
            Prod.mk.injEq] at hserve
          obtain ⟨rfl, rfl⟩ := hserve
          refine ⟨h.order, fun hnone => (nomatch hwaiting.symm.trans hnone), fun x hx => ?_, h.log,
            fun hstop => ?_⟩
          · obtain rfl := Option.some.inj (hwaiting.symm.trans hx)
            right
            refine ⟨?_, by rw [hdown]; rfl⟩
            rw [hup, hn, List.drop_length]
          · exact hsession.last _ a s.todo hmsgs (by simpa using hstop)
        · rw [hup, List.length_nil] at hin
          omega
  -- and the one reply
  | @respond n a hwaiting hpos hroom hin =>
      obtain ⟨hmem, hmsgs⟩ := h.mem hwaiting
      rcases h.busy a hwaiting with ⟨-, hdown, -⟩ | ⟨hup, hdown⟩
      · rw [hdown, List.length_nil] at hin
        omega
      · have hn : n = (rep a).length := by
          have := hshort a hmem
          rw [hwhole, hdown]
          omega
        refine ⟨?_, fun _ => ⟨hup, ?_⟩, fun x hx => (nomatch hx), fun e he => ?_, h.stopped⟩
        · rw [hmsgs]
          simp [sent]
        · rw [hdown, hn, List.drop_length]
        · rcases List.mem_append.mp he with he | he
          · exact h.log e he
          · obtain rfl := List.mem_singleton.mp he
            rw [hdown, hn, List.take_length]
  -- nobody hangs up: the server stops at the last message, and its reply is there
  | hangup hstopped hgoes =>
      have htodo := h.stopped hstopped
      rcases hgoes with hwait | hne
      · obtain ⟨a, hwaiting⟩ := Option.isSome_iff_exists.mp hwait
        rcases h.busy a hwaiting with ⟨-, -, hrunning⟩ | ⟨-, hdown⟩
        · exact nomatch hrunning.symm.trans hstopped
        · exact absurd (hdown.symm.trans hwhole) (hsession.answers a (h.mem hwaiting).1)
      · exact absurd htodo hne
  | close hwaiting htodo hrunning =>
      exact ⟨h.order, h.idle, fun a ha => (nomatch hwaiting.symm.trans ha), h.log, fun _ => htodo⟩

theorem kept_of_run (hsession : Session N serve rep stops msgs)
    (hshort : ∀ a ∈ msgs, (rep a).length ≤ N) {trace : List (State α β × Action)}
    (hrun : Run (Step N serve) (start msgs) trace s)
    (hwhole : ∀ p ∈ trace, Whole N p.1 p.2) : Kept rep msgs s := by
  refine hrun.invariant (fun trace s => (∀ p ∈ trace, Whole N p.1 p.2) → Kept rep msgs s)
    (fun _ => kept_start msgs) (fun trace t a u ih hstep hwhole => ?_) hwhole
  exact (ih fun p hp => hwhole p (List.mem_append_left _ hp)).step hsession hshort
    (hwhole (t, a) (List.mem_append_right _ (List.mem_singleton_self _))) hstep

/-- One round in which every read takes what there is. -/
theorem exists_round {a : List α} (hserve : serve a = some (stops a, rep a))
    (hfits : a ≠ [] ∧ a.length ≤ N) (hanswer : rep a ≠ []) (as : List (List α))
    (log : List (List α × Option (List β))) :
    ∃ trace, Run (Step N serve) (State.mk (a :: as) none log [] [] true) trace
        (State.mk as none (log ++ [(a, some ((rep a).take N))]) [] ((rep a).drop N) (!stops a))
      ∧ ∀ p ∈ trace, Whole N p.1 p.2 := by
  have hpos := List.length_pos_iff.mpr hfits.1
  have hlen := List.length_pos_iff.mpr hanswer
  have htake : (rep a).take (min N (rep a).length) = (rep a).take N := by
    rw [← List.take_take, List.take_length]
  have hdrop : (rep a).drop (min N (rep a).length) = (rep a).drop N := by
    rcases Nat.le_total N (rep a).length with hle | hle
    · rw [Nat.min_eq_left hle]
    · rw [Nat.min_eq_right hle, List.drop_length, List.drop_eq_nil_of_le hle]
  -- the three steps of the round
  have hsend : Step N serve (State.mk (a :: as) none log [] [] true) .send
      (State.mk as (some a) log a [] true) := .send rfl rfl
  have hanswer : Step N serve (State.mk as (some a) log a [] true) (.serve a.length)
      (State.mk as (some a) log [] (rep a) (!stops a)) := by
    have := @Step.serve α β N serve (State.mk as (some a) log a [] true) a.length (stops a) (rep a)
      rfl hpos hfits.2 (Nat.le_refl _) (by rw [List.take_length]; exact hserve)
    rwa [List.drop_length] at this
  have hrespond : Step N serve (State.mk as (some a) log [] (rep a) (!stops a))
      (.respond (min N (rep a).length))
      (State.mk as none (log ++ [(a, some ((rep a).take N))]) [] ((rep a).drop N) (!stops a)) := by
    have := @Step.respond α β N serve (State.mk as (some a) log [] (rep a) (!stops a))
      (min N (rep a).length) a rfl (by have := hfits.2; omega) (Nat.min_le_left _ _)
      (Nat.min_le_right _ _)
    rwa [htake, hdrop] at this
  -- and each of them reads all there is
  refine ⟨_, ((Run.refl.snoc hsend).snoc hanswer).snoc hrespond, fun p hp => ?_⟩
  simp only [List.nil_append, List.cons_append, List.mem_cons, List.not_mem_nil, or_false] at hp
  rcases hp with rfl | rfl | rfl
  · trivial
  · exact (Nat.min_eq_right hfits.2).symm
  · rfl

/-- The rounds in front of a message, when none of them stops the server or leaves a rest. -/
theorem exists_rounds (hsession : Session N serve rep stops msgs) (pre : List (List α))
    (hpre : ∀ a ∈ pre, a ∈ msgs ∧ (rep a).length ≤ N ∧ stops a = false) (rest : List (List α))
    (log : List (List α × Option (List β))) :
    ∃ trace log', Run (Step N serve) (State.mk (pre ++ rest) none log [] [] true) trace
        (State.mk rest none log' [] [] true) ∧ ∀ p ∈ trace, Whole N p.1 p.2 := by
  induction pre generalizing log with
  | nil => exact ⟨[], log, .refl, fun _ h => absurd h List.not_mem_nil⟩
  | cons a pre ih =>
      obtain ⟨hmem, hshort, hgo⟩ := hpre a List.mem_cons_self
      obtain ⟨trace, hrun, hwhole⟩ := exists_round (hsession.serves a hmem) (hsession.fits a hmem)
        (hsession.answers a hmem) (pre ++ rest) log
      rw [List.drop_eq_nil_of_le hshort, hgo] at hrun
      obtain ⟨trace', log', hrun', hwhole'⟩ := ih
        (fun x hx => hpre x (List.mem_cons_of_mem a hx)) (log ++ [(a, some ((rep a).take N))])
      refine ⟨trace ++ trace', log', hrun.append hrun', fun p hp => ?_⟩
      rcases List.mem_append.mp hp with hp | hp
      · exact hwhole p hp
      · exact hwhole' p hp

/-- **In step.** Every client gets in every round the answer to its message, exactly when no
answer is longer than a read. -/
theorem inStep_iff (hsession : Session N serve rep stops msgs) :
    (∀ trace (s : State α β), Run (Step N serve) (start msgs) trace s →
      (∀ p ∈ trace, Whole N p.1 p.2) → ∀ e ∈ s.log, e.2 = some (rep e.1))
      ↔ ∀ a ∈ msgs, (rep a).length ≤ N := by
  constructor
  · intro hstep
    have hfirst : ∀ n pre a post, pre.length = n → msgs = pre ++ a :: post →
        (rep a).length ≤ N := by
      intro n
      induction n using Nat.strongRecOn with
      | ind n ih =>
          intro pre a post hn hsplit
          have hmem : ∀ x, x = a ∨ x ∈ pre → x ∈ msgs := by
            intro x hx
            rw [hsplit]
            rcases hx with rfl | hx
            · exact List.mem_append_right _ List.mem_cons_self
            · exact List.mem_append_left _ hx
          -- the messages in front leave nothing behind
          have hpre : ∀ x ∈ pre, x ∈ msgs ∧ (rep x).length ≤ N ∧ stops x = false := by
            intro x hx
            obtain ⟨l, r, rfl⟩ := List.append_of_mem hx
            have hsplit' : msgs = l ++ x :: (r ++ a :: post) := by
              rw [hsplit, List.append_assoc, List.cons_append]
            refine ⟨hmem x (Or.inr hx), ih l.length ?_ l x _ rfl hsplit', ?_⟩
            · rw [← hn, List.length_append, List.length_cons]
              omega
            · cases hstop : stops x with
              | false => rfl
              | true => exact absurd (hsession.last l x _ hsplit' hstop) (by simp)
          have ha := hmem a (Or.inl rfl)
          obtain ⟨trace, log, hrun, hwhole⟩ := exists_rounds hsession pre hpre (a :: post) []
          obtain ⟨trace', hrun', hwhole'⟩ := exists_round (hsession.serves a ha)
            (hsession.fits a ha) (hsession.answers a ha) post log
          rw [← hsplit] at hrun
          have hseen := hstep _ _ (hrun.append hrun') (fun p hp => ?_)
            (a, some ((rep a).take N)) (List.mem_append_right _ (List.mem_singleton_self _))
          · have hlen : ((rep a).take N).length = (rep a).length :=
              congrArg List.length (Option.some.inj hseen)
            rw [List.length_take] at hlen
            omega
          · rcases List.mem_append.mp hp with hp | hp
            · exact hwhole p hp
            · exact hwhole' p hp
    intro a ha
    obtain ⟨pre, post, hsplit⟩ := List.append_of_mem ha
    exact hfirst pre.length pre a post rfl hsplit
  · exact fun hshort trace s hrun hwhole => (kept_of_run hsession hshort hrun hwhole).log

end InStep

end Protocol

end CourseLabs.StreamReply
