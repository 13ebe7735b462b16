/-
`tcp_server.c` and `tcp_client.c`: an interactive session over one connection.

The two programs are the parties of `StreamReply`. What a read of the server returns it takes
for a request and answers in upper case, so a message that comes in two pieces gets two
answers, and an answer that is longer than the buffer of the client is read in two rounds.
Still nothing is lost, invented or put out of order, however the network cuts the streams, and
every session ends (`session_ends`). The texts the client prints are the answers to its
messages, one by one, if the network keeps the messages together and none of them has more
than 1018 bytes; with one that has more, they are not (`in_step_iff`).
-/
import CourseLabs.EchoText
import CourseLabs.StreamReply
import CourseLabs.SubstitutionCipher

set_option autoImplicit false

namespace CourseLabs.TcpEcho

open CourseLabs.CMem CourseLabs.CType CourseLabs.Echo CourseLabs.StreamReply
open CourseLabs.SubstitutionCipher (translate translate_spec)
open CourseLabs.Transition

/-! ## The program -/

def str_toupper (dest src : List Char) : Option (List Char) :=
  translate src dest fun c => some (toupper c)

/-- The local arrays of a pass of the server, before it writes to them. -/
structure Locals where
  upper : List Char
  reply : List Char
  upper_size : upper.length = BUFFER_SIZE
  reply_size : reply.length = BUFFER_SIZE + 64

def zeros : Locals where
  upper := List.replicate BUFFER_SIZE NUL
  reply := List.replicate (BUFFER_SIZE + 64) NUL
  upper_size := List.length_replicate
  reply_size := List.length_replicate

/-- One pass of the loop of the server, for what `recv` returns: whether it ends the session,
and what it sends. -/
def serve (v : Locals) (bytes : List Char) : Option (Bool × List Char) := do
  let (exit, buffer) ← request bytes
  if exit then do
    some (true, ← print_string (snprintf v.reply "GOODBYE".toList))
  else do
    let upper ← str_toupper v.upper buffer
    some (false, ← print_string (snprintf v.reply ("ACK: ".toList ++ cstr upper)))

/-- The text the client prints of what `recv` returns. -/
def receive (bytes : List Char) : Option (List Char) := do
  let rx ← store (filled bytes) bytes.length NUL
  print_string rx

/-! ## One answer -/

/-- The answer to the bytes of a read: to a word that stops the server the goodbye, and otherwise
the text in capitals. -/
def reply (bytes : List Char) : List Char :=
  if asksToStop (text bytes) then
    "GOODBYE".toList
  else
    "ACK: ".toList ++ (text bytes).map toupper

section Answer

variable {v : Locals} {bytes : List Char}

theorem toupper_ne_nul {c : Char} (hc : c ≠ NUL) : toupper c ≠ NUL := by
  rcases letter_cases c with ⟨k, rfl⟩ | ⟨k, rfl⟩ | ⟨-, hlower⟩
  · rwa [toupper_upper]
  · rw [toupper_lower]
    intro h
    have hzero := congrArg Char.toNat h
    rw [toNat_upper] at hzero
    exact absurd hzero (Nat.ne_of_gt (Nat.add_pos_left (by decide) _))
  · rwa [toupper, hlower, if_neg Bool.false_ne_true]

theorem reply_ne_nul (bytes : List Char) : ∀ c ∈ reply bytes, c ≠ NUL := by
  have hbye : ∀ c ∈ "GOODBYE".toList, c ≠ NUL := by simp [NUL]
  have hack : ∀ c ∈ "ACK: ".toList, c ≠ NUL := by simp [NUL]
  intro c hc
  rw [reply] at hc
  split_ifs at hc
  · exact hbye c hc
  · rcases List.mem_append.mp hc with hc | hc
    · exact hack c hc
    · obtain ⟨x, hx, rfl⟩ := List.mem_map.mp hc
      exact toupper_ne_nul (text_ne rfl x hx).1

theorem length_reply (hgo : asksToStop (text bytes) = false) :
    (reply bytes).length = (text bytes).length + 5 := by
  rw [reply, hgo, if_neg Bool.false_ne_true, List.length_append, List.length_map]
  exact Nat.add_comm _ _

theorem length_reply_pos (bytes : List Char) : 0 < (reply bytes).length := by
  rw [reply]
  split_ifs
  · decide
  · rw [List.length_append]
    exact Nat.add_pos_left (by decide) _

/-- The server answers whatever it reads, be it a whole message, a part of one or more than one, as
if it were a message. -/
theorem serve_spec (hlen : bytes.length ≤ BUFFER_SIZE - 1) :
    serve v bytes = some (asksToStop (text bytes), reply bytes) := by
  have htext := length_text_le bytes
  -- the reply fits its array, so what is sent is the reply
  have hsend : print_string (snprintf v.reply (reply bytes)) = some (reply bytes) := by
    have hroom : (reply bytes).length < v.reply.length := by
      rw [v.reply_size, reply, BUFFER_SIZE] at *
      split_ifs
      · decide
      · rw [List.length_append, List.length_map]
        rw [show ("ACK: ".toList).length = 5 from rfl]
        omega
    obtain ⟨rest, hrest⟩ := snprintf_prefix hroom
    rw [← hrest, List.append_assoc, List.singleton_append]
    exact print_string_append_nul (reply_ne_nul bytes) rest
  rw [serve, request_spec bytes hlen, Option.bind_eq_bind, Option.bind_some]
  by_cases hstop : asksToStop (text bytes) = true
  · rw [reply, if_pos hstop] at hsend ⊢
    simp only [hsend, hstop, Option.bind_eq_bind, Option.bind_some, if_true]
  -- the upper case copy has the length of the text
  · have hupper : str_toupper v.upper (text bytes)
        = some ((text bytes).map toupper ++ NUL :: v.upper.drop ((text bytes).length + 1)) := by
      refine translate_spec (fun c _ => rfl) (fun h => (text_ne rfl NUL h).1 rfl) ?_ ?_
      · rw [BUFFER_SIZE] at hlen
        omega
      · rw [v.upper_size, BUFFER_SIZE] at *
        omega
    have hcstr := @cstr_append_nul ((text bytes).map toupper) (fun c hc => by
      obtain ⟨x, hx, rfl⟩ := List.mem_map.mp hc
      exact toupper_ne_nul (text_ne rfl x hx).1) (v.upper.drop ((text bytes).length + 1))
    rw [reply, if_neg hstop] at hsend ⊢
    rw [Bool.not_eq_true] at hstop
    simp only [hupper, hcstr, hsend, hstop, Option.bind_eq_bind, Option.bind_some,
      Bool.false_eq_true, if_false]

/-- The client prints what it reads, all of it when there is no `NUL` in it. -/
theorem receive_spec (hlen : bytes.length ≤ BUFFER_SIZE - 1) (hbytes : ∀ c ∈ bytes, c ≠ NUL) :
    receive bytes = some bytes := by
  have hlt : bytes.length < BUFFER_SIZE := by
    rw [BUFFER_SIZE] at *
    omega
  obtain ⟨n, hn⟩ := Nat.exists_eq_add_of_lt hlt
  have hfilled : filled bytes = bytes ++ NUL :: List.replicate n NUL := by
    rw [filled, show BUFFER_SIZE - bytes.length = n + 1 by omega, List.replicate_succ]
  rw [receive, hfilled, store_append_cons, Option.bind_eq_bind, Option.bind_some,
    print_string_append_nul hbytes]

end Answer

/-! ## A session -/

section Session

variable {v : Locals} {msgs : List (List Char)} {s : State Char Char}
  {trace : List (State Char Char × Action)}

theorem serve_answers (bytes : List Char) (hlen : bytes.length ≤ BUFFER_SIZE - 1) :
    ∃ stop b, serve v bytes = some (stop, b) ∧ b ≠ [] :=
  ⟨_, _, serve_spec hlen, List.length_pos_iff.mp (length_reply_pos bytes)⟩

/-- What the client gets it prints. -/
theorem receive_got (h : Reachable (Step (BUFFER_SIZE - 1) (serve v)) (start msgs) s)
    {t : List Char} (ht : t ∈ got s) : receive t = some t := by
  obtain ⟨pieces, hexact⟩ := exact_of_reachable h
  refine receive_spec (hexact.reads t ht) fun c hc => ?_
  have hin : c ∈ (pieces.map Prod.snd).flatten := by
    rw [← hexact.replies]
    exact List.mem_append_left _ (List.mem_flatten.mpr ⟨t, ht, hc⟩)
  obtain ⟨b, hb, hcb⟩ := List.mem_flatten.mp hin
  obtain ⟨q, hq, rfl⟩ := List.mem_map.mp hb
  obtain ⟨-, hle, stop, hserve⟩ := hexact.answers q hq
  rw [serve_spec hle, Option.some.injEq, Prod.mk.injEq] at hserve
  exact reply_ne_nul q.1 c (hserve.2 ▸ hcb)

theorem session_of_messages (h : Messages msgs) :
    StreamReply.Session (BUFFER_SIZE - 1) (serve v) reply asksToStop msgs := by
  refine ⟨fun m hm => ?_, fun m hm => ⟨(h.message m hm).ne_nil, (h.message m hm).length_le⟩,
    fun m _ => List.length_pos_iff.mp (length_reply_pos m), h.last⟩
  rw [serve_spec (h.message m hm).length_le, text_of_ne (h.message m hm).clean]

/-- **Every session ends, and nothing is lost or invented.** However the network cuts the
streams and whoever goes first, a run ends within a step for each byte and two for each
message, with both programs. What the server has read, in pieces, and what lies unread in the
stream to it are together what the client has sent; what the client has printed and what lies
unread in the stream to it are together the answers to the pieces, one after the other. The
unread parts may be there in the end too: a message that comes in two pieces gets two answers,
and the client reads once for each message. -/
theorem session_ends {stdin : List Char} (hinput : interactive stdin = some msgs)
    (hrun : Run (Step (BUFFER_SIZE - 1) (serve v)) (start msgs) trace s) :
    trace.length ≤ msgs.flatten.length + 2 * msgs.length + 1
      ∧ (Stuck (Step (BUFFER_SIZE - 1) (serve v)) s →
        s.waiting = none ∧ s.todo = [] ∧ s.running = false)
      ∧ ∃ pieces : List (List Char), (∀ p ∈ pieces, p ≠ [])
        ∧ pieces.flatten ++ s.up = (sent s).flatten
        ∧ (got s).flatten ++ s.down = (pieces.map reply).flatten
        ∧ ∀ t ∈ got s, receive t = some t := by
  obtain ⟨msgs', hinput', hmessages⟩ := interactive_spec stdin
  obtain rfl := Option.some.inj (hinput.symm.trans hinput')
  obtain ⟨hbusy, hlen⟩ := run_bounded (fun a _ ha => serve_answers a ha)
    (fun m hm => (hmessages.message m hm).ne_nil) hrun
  refine ⟨by omega, hbusy.progress (fun a _ ha => serve_answers a ha) (by decide), ?_⟩
  obtain ⟨pieces, hexact⟩ := exact_of_reachable ⟨trace, hrun⟩
  refine ⟨pieces.map Prod.fst, fun p hp => ?_, hexact.requests, ?_,
    fun t ht => receive_got ⟨trace, hrun⟩ ht⟩
  · obtain ⟨q, hq, rfl⟩ := List.mem_map.mp hp
    exact (hexact.answers q hq).1
  · rw [hexact.replies, List.map_map]
    refine congrArg List.flatten (List.map_congr_left fun q hq => ?_)
    obtain ⟨-, hle, stop, hserve⟩ := hexact.answers q hq
    rw [serve_spec hle, Option.some.injEq, Prod.mk.injEq] at hserve
    exact hserve.2.symm

theorem session_ends_threeLines :
    ∃ trace s,
      Run (Step (BUFFER_SIZE - 1) (serve zeros)) (start ["hi".toList, "exit".toList]) trace s
      ∧ s.todo = ["exit".toList] ∧ trace.length ≤ 11
      ∧ ∃ pieces : List (List Char), pieces.flatten = (sent s).flatten
        ∧ (got s).flatten = (pieces.map reply).flatten := by
  obtain ⟨msgs, hinput, hmessages⟩ := interactive_spec threeLines
  obtain rfl := Option.some.inj (hinput.symm.trans interactive_threeLines)
  obtain ⟨trace, log, hrun, -⟩ := exists_rounds (session_of_messages (v := zeros) hmessages)
    ["hi".toList] (by decide +kernel) ["exit".toList] []
  obtain ⟨hlen, -, pieces, -, hsent, hgot, -⟩ := session_ends interactive_threeLines hrun
  rw [List.append_nil] at hsent hgot
  exact ⟨trace, _, hrun, rfl, hlen, pieces, hsent, hgot⟩

theorem length_reply_le_iff {m : List Char} (h : Message m) :
    (reply m).length ≤ BUFFER_SIZE - 1 ↔ m.length ≤ 1018 := by
  have htext := text_of_ne h.clean
  cases hstop : asksToStop m with
  | false =>
      rw [length_reply (by rw [htext, hstop]), htext, BUFFER_SIZE]
      omega
  | true =>
      have hreply : (reply m).length ≤ BUFFER_SIZE - 1 := by
        rw [reply, htext, hstop, if_pos rfl]
        decide
      rw [asksToStop, Bool.or_eq_true, decide_eq_true_iff, decide_eq_true_iff] at hstop
      have hlen : m.length = 4 := by
        rw [← List.length_map tolower]
        rcases hstop with h | h
        all_goals
          rw [h]
          rfl
      exact iff_of_true hreply (by omega)

/-- **In step.** If the network keeps the messages together, the client prints the answer to
each message in its round, exactly when no message has more than 1018 bytes. -/
theorem in_step_iff {stdin : List Char} (hinput : interactive stdin = some msgs) :
    (∀ trace (s : State Char Char),
      Run (Step (BUFFER_SIZE - 1) (serve v)) (start msgs) trace s →
      (∀ p ∈ trace, Whole (BUFFER_SIZE - 1) p.1 p.2) →
      ∀ e ∈ s.log, e.2.bind receive = some (reply e.1))
      ↔ ∀ m ∈ msgs, m.length ≤ 1018 := by
  obtain ⟨msgs', hinput', hmessages⟩ := interactive_spec stdin
  obtain rfl := Option.some.inj (hinput.symm.trans hinput')
  have hprinted : ∀ {s : State Char Char},
      Reachable (Step (BUFFER_SIZE - 1) (serve v)) (start msgs) s →
      ∀ e ∈ s.log, e.2.bind receive = e.2 := by
    intro s hs e he
    cases ht : e.2 with
    | none => rfl
    | some t => exact receive_got hs (List.mem_filterMap.mpr ⟨e, he, ht⟩)
  rw [← forall₂_congr fun m hm => length_reply_le_iff (hmessages.message m hm),
    ← inStep_iff (session_of_messages hmessages)]
  refine forall_congr' fun trace => forall_congr' fun s => forall_congr' fun hrun =>
    forall_congr' fun _ => forall₂_congr fun e he => ?_
  rw [hprinted ⟨trace, hrun⟩ e he]

theorem in_step_iff_threeLines :
    ((∀ trace (s : State Char Char),
        Run (Step (BUFFER_SIZE - 1) (serve zeros)) (start ["hi".toList, "exit".toList]) trace s →
        (∀ p ∈ trace, Whole (BUFFER_SIZE - 1) p.1 p.2) →
        ∀ e ∈ s.log, e.2.bind receive = some (reply e.1))
        ↔ ∀ m ∈ ["hi".toList, "exit".toList], m.length ≤ 1018)
      ∧ ∀ m ∈ ["hi".toList, "exit".toList], m.length ≤ 1018 :=
  ⟨in_step_iff interactive_threeLines, by decide⟩

end Session

end CourseLabs.TcpEcho
