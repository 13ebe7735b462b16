/-
`udp_server.c` and `udp_client.c`: a session over a network that promises nothing.

The two programs are the parties of `RequestReply`: the server answers each datagram with its
text, or stops, and the client sends its messages one after the other and prints what comes
back within the timeout. No reply names its request. So what is printed in a round is the
reply to a message of this round or of an earlier one (`echo_genuine`), and an earlier one it
can be: one timeout that comes too soon, and every later reply is printed one round late
(`late_replies`). It is the reply of the round when nothing is copied on the way and
no timeout comes while a datagram is still under way, and when nothing is lost either, a
session comes to its end with every message answered (`echo_session`).
-/
import CourseLabs.EchoText
import CourseLabs.RequestReply

set_option autoImplicit false

namespace CourseLabs.UdpEcho

open CourseLabs.CMem CourseLabs.Echo CourseLabs.RequestReply CourseLabs.Transition

/-! ## The program -/

/-- `reply` of the server, as it is before the pass. -/
abbrev Reply := {b : List Char // b.length = BUFFER_SIZE + 64}

/-- One pass of the loop of the server, for a datagram: whether it stops, and the datagram it
sends. -/
def serve (reply : Reply) (datagram : List Char) : Option (Bool × List Char) := do
  let (exit, buffer) ← request (datagram.take (BUFFER_SIZE - 1))
  let reply :=
    if exit then
      snprintf reply.1 "UDP Server Stopping. Goodbye!".toList
    else
      snprintf reply.1 ("UDP-ACK: [Echo] ".toList ++ buffer)
  some (exit, ← print_string reply)

/-- The client, for a datagram it receives: the text it prints, unless the datagram is empty. -/
def receive (datagram : List Char) : Option (Option (List Char)) := do
  let bytes := datagram.take (BUFFER_SIZE - 1)
  if bytes.length > 0 then do
    let buffer ← store (filled bytes) bytes.length NUL
    some (some (← print_string buffer))
  else
    some none

/-- The messages of the client: its argument and the end, or what it reads. One that is too
long for a datagram is always lost. -/
def messages (initial_msg : Option (List Char)) (stdin : List Char) :
    Option (List (List Char)) :=
  match initial_msg with
  | some m => some [m, "exit".toList]
  | none => interactive stdin

/-! ## One round -/

/-- The reply to a message, of which the server sees what its buffer holds. The words that stop it
get another answer. -/
def reply (m : List Char) : List Char :=
  if asksToStop (text (m.take (BUFFER_SIZE - 1))) then
    "UDP Server Stopping. Goodbye!".toList
  else
    "UDP-ACK: [Echo] ".toList ++ text (m.take (BUFFER_SIZE - 1))

/-- What is printed of it: as much as the buffer of the client holds. -/
def shown (m : List Char) : List Char :=
  (reply m).take (BUFFER_SIZE - 1)

section Round

variable {m : List Char} {cells : Reply}

theorem reply_ne_nul (m : List Char) : ∀ c ∈ reply m, c ≠ NUL := by
  have hstop : ∀ c ∈ "UDP Server Stopping. Goodbye!".toList, c ≠ NUL := by simp [NUL]
  have hack : ∀ c ∈ "UDP-ACK: [Echo] ".toList, c ≠ NUL := by simp [NUL]
  intro c hc
  rw [reply] at hc
  split_ifs at hc
  · exact hstop c hc
  · rcases List.mem_append.mp hc with hc | hc
    · exact hack c hc
    · exact (text_ne rfl c hc).1

theorem length_reply_le (m : List Char) : (reply m).length ≤ BUFFER_SIZE + 15 := by
  rw [reply]
  split_ifs
  · decide
  · have := length_text_le (m.take (BUFFER_SIZE - 1))
    rw [List.length_take] at this
    rw [List.length_append, BUFFER_SIZE] at *
    rw [show ("UDP-ACK: [Echo] ".toList).length = 16 from rfl]
    omega

/-- The server answers every datagram, the last one too, and stops after the answer. -/
theorem serve_spec (m : List Char) :
    serve cells m = some (asksToStop (text (m.take (BUFFER_SIZE - 1))), reply m) := by
  have hprint : print_string (snprintf cells.1 (reply m)) = some (reply m) := by
    have hlen := length_reply_le m
    have hroom : (reply m).length < cells.1.length := by
      rw [cells.2]
      omega
    obtain ⟨rest, hrest⟩ := snprintf_prefix hroom
    rw [← hrest, List.append_assoc, List.singleton_append]
    exact print_string_append_nul (reply_ne_nul m) rest
  rw [serve, request_spec _ (List.length_take_le _ _), Option.bind_eq_bind, Option.bind_some]
  by_cases hstop : asksToStop (text (m.take (BUFFER_SIZE - 1))) = true
  · rw [reply, if_pos hstop] at hprint ⊢
    simp only [if_pos hstop, hprint, Option.bind_eq_bind, Option.bind_some]
  · rw [reply, if_neg hstop] at hprint ⊢
    simp only [if_neg hstop, hprint, Option.bind_eq_bind, Option.bind_some]

/-- The client prints what the server has sent, as far as its buffer holds it. -/
theorem receive_spec (m : List Char) : receive (reply m) = some (some (shown m)) := by
  have hpos : 0 < (shown m).length := by
    have hne : 0 < (reply m).length := by
      rw [reply]
      split_ifs
      · decide
      · rw [List.length_append]
        exact Nat.add_pos_left (by decide) _
    rw [shown, List.length_take, BUFFER_SIZE]
    omega
  have hlt : (shown m).length < BUFFER_SIZE := by
    rw [shown, List.length_take, BUFFER_SIZE]
    omega
  obtain ⟨n, hn⟩ := Nat.exists_eq_add_of_lt hlt
  have hfilled : filled (shown m) = shown m ++ NUL :: List.replicate n NUL := by
    rw [filled, show BUFFER_SIZE - (shown m).length = n + 1 by omega, List.replicate_succ]
  have hshown : ∀ c ∈ shown m, c ≠ NUL := fun c hc =>
    reply_ne_nul m c (List.mem_of_mem_take hc)
  rw [receive, ← shown]
  simp only [if_pos hpos, hfilled, store_append_cons, print_string_append_nul hshown,
    Option.bind_eq_bind, Option.bind_some]

theorem answered (m : List Char) : Answered (serve cells) receive m (some (shown m)) :=
  ⟨_, reply m, serve_spec m, receive_spec m⟩

theorem eq_shown {t : Option (List Char)} (h : Answered (serve cells) receive m t) :
    t = some (shown m) := by
  obtain ⟨stop, b, hserve, hsee⟩ := h
  rw [serve_spec, Option.some.injEq, Prod.mk.injEq] at hserve
  rw [← hserve.2, receive_spec] at hsee
  exact (Option.some.inj hsee).symm

end Round

/-! ## A session -/

section Session

variable {cells : Reply} {msgs : List (List Char)}
  {s : State (List Char) (List Char) (List Char)}

theorem length_zeros : (List.replicate (BUFFER_SIZE + 64) NUL).length = BUFFER_SIZE + 64 :=
  List.length_replicate

/-- A reply buffer. -/
def zeros : Reply :=
  ⟨List.replicate (BUFFER_SIZE + 64) NUL, length_zeros⟩

/-- An interactive session is one the server can answer to its end. -/
theorem session_of_interactive (h : Messages msgs) : Session (serve cells) receive msgs := by
  refine ⟨fun m _ => ⟨some (shown m), answered m⟩, fun pre m post b hsplit hserve => ?_⟩
  have hm := h.message m (by rw [hsplit]; simp)
  rw [serve_spec, Option.some.injEq, Prod.mk.injEq, List.take_of_length_le hm.length_le,
    text_of_ne hm.clean] at hserve
  exact h.last pre m post hsplit hserve.1

/-- And so is one with an argument that does not stop the server. -/
theorem session_of_messages {initial_msg : Option (List Char)} {stdin : List Char}
    (hgo : ∀ m ∈ initial_msg, asksToStop (text (m.take (BUFFER_SIZE - 1))) = false)
    (hmsgs : messages initial_msg stdin = some msgs) : Session (serve cells) receive msgs := by
  -- without an argument the client reads its lines, which never ask the server to stop
  cases initial_msg with
  | none =>
      obtain ⟨msgs', hinput, hmessages⟩ := interactive_spec stdin
      obtain rfl := Option.some.inj (hmsgs.symm.trans hinput)
      exact session_of_interactive hmessages
  | some m =>
      obtain rfl := Option.some.inj hmsgs
      refine ⟨fun m _ => ⟨some (shown m), answered m⟩, fun pre m' post b hsplit hserve => ?_⟩
      rw [serve_spec, Option.some.injEq, Prod.mk.injEq] at hserve
      cases pre with
      | nil =>
          obtain ⟨rfl, -⟩ := List.cons.inj hsplit
          rw [hgo m rfl] at hserve
          exact nomatch hserve.1
      | cons x pre =>
          have hlen := congrArg List.length hsplit
          simp only [List.length_cons, List.length_nil, List.length_append] at hlen
          exact List.length_eq_zero_iff.mp (by omega)

/-- Once every message is answered, the log says how: each with the text of its own reply. -/
theorem log_eq (h : Steady (serve cells) receive msgs s) (hlog : s.log.map Prod.fst = msgs) :
    s.log = msgs.map fun m => (m, some (shown m)) := by
  rw [← hlog, List.map_map]
  refine (List.map_id _).symm.trans (List.map_congr_left fun e he => ?_)
  exact Prod.ext rfl (eq_shown (h.log e he))

theorem exists_answered (h : Messages msgs) :
    ∃ trace s, Run (Step (serve cells) receive) (start msgs) trace s
      ∧ (∀ p ∈ trace, Reliable p.2) ∧ left s = 0
      ∧ s.log = msgs.map fun m => (m, some (shown m)) := by
  have hsession : Session (serve cells) receive msgs := session_of_interactive h
  obtain ⟨trace, s, hrun, hreliable, hleft⟩ := exists_complete hsession
  have hsteady := (complete hsession hrun hreliable).1
  refine ⟨trace, s, hrun, hreliable, hleft, ?_⟩
  rcases hsteady.progress hsession with ⟨act, t, hact, hstep⟩ | ⟨-, hlog⟩
  · have := (hsteady.step hsession hact hstep).2
    omega
  · exact log_eq hsteady hlog

/-- The run of three lines in which nothing goes wrong. -/
theorem exists_answered_threeLines (cells : Reply) :
    ∃ trace s, Run (Step (serve cells) receive) (start ["hi".toList, "exit".toList]) trace s
      ∧ (∀ p ∈ trace, Reliable p.2) ∧ left s = 0
      ∧ s.log = ["hi".toList, "exit".toList].map fun m => (m, some (shown m)) := by
  obtain ⟨msgs, hinput, hmessages⟩ := interactive_spec threeLines
  obtain rfl := Option.some.inj (hinput.symm.trans interactive_threeLines)
  exact exists_answered hmessages

/-- **Nothing is invented.** Whatever the network does to the datagrams, and whenever the client
gives up, the text printed in a round is the reply to a message of this round or before. -/
theorem echo_genuine (h : Reachable (Step (serve cells) receive) (start msgs) s) {k : ℕ}
    {m t : List Char} (hk : (s.log)[k]? = some (m, some t)) :
    ∃ i m', i ≤ k ∧ (msgs)[i]? = some m' ∧ t = shown m' := by
  obtain ⟨b, ⟨m', stop, hm', hserve⟩, hsee⟩ := genuine h hk
  obtain ⟨i, hi⟩ := List.mem_iff_getElem?.mp hm'
  have hlt := (List.getElem?_eq_some_iff.mp hi).1
  rw [List.length_take] at hlt
  rw [List.getElem?_take_of_lt (by omega)] at hi
  exact ⟨i, m', by omega, hi, Option.some.inj (eq_shown ⟨stop, b, hserve, hsee⟩)⟩

theorem echo_genuine_threeLines :
    ∃ s, Reachable (Step (serve zeros) receive) (start ["hi".toList, "exit".toList]) s
      ∧ (s.log)[1]? = some ("exit".toList, some (shown "exit".toList))
      ∧ ∃ i m', i ≤ 1 ∧ (["hi".toList, "exit".toList])[i]? = some m'
        ∧ shown "exit".toList = shown m' := by
  obtain ⟨trace, s, hrun, -, -, hlog⟩ := exists_answered_threeLines zeros
  have hk : (s.log)[1]? = some ("exit".toList, some (shown "exit".toList)) := by
    rw [hlog]
    rfl
  exact ⟨s, ⟨trace, hrun⟩, hk, echo_genuine ⟨trace, hrun⟩ hk⟩

/-- **A session.** A message from the command line is one that does not ask the server to stop.
When nothing is copied and no timeout comes while a datagram is on the way, each text printed is
the reply to the message of its round. When nothing is lost and no timeout comes at all, somebody
can go on until every message is answered, three steps for each. -/
theorem echo_session {initial_msg : Option (List Char)} {stdin : List Char}
    (hgo : ∀ m ∈ initial_msg, asksToStop (text (m.take (BUFFER_SIZE - 1))) = false)
    (hmsgs : messages initial_msg stdin = some msgs)
    {trace : List (State (List Char) (List Char) (List Char) × Action (List Char) (List Char))}
    (hrun : Run (Step (serve cells) receive) (start msgs) trace s) :
    ((∀ p ∈ trace, Patient p.1 p.2) →
        ∀ e ∈ s.log, e.2 = none ∨ e.2 = some (shown e.1))
      ∧ ((∀ p ∈ trace, Reliable p.2) →
        trace.length ≤ 3 * msgs.length
          ∧ ((∃ act t, Reliable act ∧ Step (serve cells) receive s act t)
            ∨ (trace.length = 3 * msgs.length
              ∧ s.log = msgs.map fun m => (m, some (shown m))))) := by
  have hsession : Session (serve cells) receive msgs := session_of_messages hgo hmsgs
  refine ⟨fun hpatient e he => ?_, fun hreliable => ?_⟩
  · rcases (matching hrun hpatient).log e he with hnone | hanswered
    · exact Or.inl hnone
    · exact Or.inr (eq_shown hanswered)
  · obtain ⟨hsteady, hleft⟩ := complete hsession hrun hreliable
    exact ⟨by omega, (hsteady.progress hsession).imp_right fun ⟨hzero, hlog⟩ =>
      ⟨by omega, log_eq hsteady hlog⟩⟩

theorem echo_session_threeLines :
    ∃ trace s, Run (Step (serve zeros) receive) (start ["hi".toList, "exit".toList]) trace s
      ∧ (∀ e ∈ s.log, e.2 = none ∨ e.2 = some (shown e.1)) ∧ trace.length ≤ 6 := by
  obtain ⟨trace, s, hrun, hreliable, -⟩ := exists_answered_threeLines zeros
  obtain ⟨hpatient, hall⟩ := @echo_session _ _ _ none threeLines (fun _ h => (nomatch h))
    interactive_threeLines _ hrun
  exact ⟨trace, s, hrun, hpatient fun p hp => (hreliable p hp).patient p.1, (hall hreliable).1⟩

/-- A message that is not the last one leaves the server running. -/
theorem goes_on_of_mem_dropLast (h : Messages msgs) {m : List Char} (hm : m ∈ msgs.dropLast) :
    serve cells m = some (false, reply m) := by
  have hmem := h.message m ((List.dropLast_subset msgs) hm)
  rw [serve_spec, List.take_of_length_le hmem.length_le, text_of_ne hmem.clean]
  cases hstop : asksToStop m with
  | false => rfl
  | true =>
      obtain ⟨pre, post, hsplit⟩ := List.append_of_mem hm
      have hlast : msgs = pre ++ m :: (post ++ [msgs.getLast (by rintro rfl; simp at hm)]) := by
        conv_lhs => rw [← List.dropLast_append_getLast (l := msgs) (by rintro rfl; simp at hm)]
        rw [hsplit, List.append_assoc, List.cons_append]
      exact absurd (h.last pre m _ hlast hstop) (by simp)

/-- **Replies can be late for good.** For every interactive session there is a run whose first
timeout comes while the request is on the way and in which nothing goes wrong from then on, and
still each round prints the reply to the message of the round before. A reply carries nothing
that tells which message it answers. -/
theorem late_replies (stdin : List Char) {m : List Char} {ms : List (List Char)}
    (hinput : interactive stdin = some (m :: ms)) :
    ∃ s₁ s₂ trace s,
      Run (Step (serve cells) receive) (start (m :: ms))
        ([(start (m :: ms), .send), (s₁, .timeout)]) s₂
      ∧ Run (Step (serve cells) receive) s₂ trace s ∧ (∀ p ∈ trace, Reliable p.2)
      ∧ s.log = (m, none)
        :: List.zipWith (fun m' before => (m', some (shown before))) ms (m :: ms) := by
  obtain ⟨msgs', hinput', hmessages⟩ := interactive_spec stdin
  obtain rfl := Option.some.inj (hinput.symm.trans hinput')
  have hsend : Step (serve cells) receive (start (m :: ms)) .send
      (State.mk ms (some m) [] {m} 0 true) := .send rfl rfl
  have htimeout : Step (serve cells) receive (State.mk ms (some m) [] {m} 0 true) .timeout
      (State.mk ms none [(m, none)] {m} 0 true) := .timeout rfl
  obtain ⟨trace, s, hrun, hreliable, hlog⟩ := @exists_late _ _ _ (serve cells) receive reply
    (fun m => some (shown m)) receive_spec ms m (State.mk ms none [(m, none)] {m} 0 true) rfl rfl
    rfl rfl rfl fun m' hm' => goes_on_of_mem_dropLast hmessages hm'
  exact ⟨_, _, trace, s, (Run.refl.snoc hsend).snoc htimeout, hrun, hreliable, hlog⟩

theorem late_replies_threeLines :
    ∃ s, Reachable (Step (serve zeros) receive) (start ["hi".toList, "exit".toList]) s
      ∧ s.log = [("hi".toList, none), ("exit".toList, some (shown "hi".toList))] := by
  obtain ⟨s₁, s₂, trace, s, hrun, hlate, -, hlog⟩ :=
    @late_replies zeros threeLines _ _ interactive_threeLines
  exact ⟨s, ⟨_, hrun.append hlate⟩, hlog⟩

end Session

end CourseLabs.UdpEcho
