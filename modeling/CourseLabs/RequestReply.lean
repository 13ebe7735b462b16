/-
**Requests and replies over a network that promises nothing.**

A client has a list of messages. It sends one, waits for a reply or until it has waited long
enough, and goes on to the next. A server answers what it receives, one datagram at a time, and
stops after some. The datagrams on the way may be lost, copied and overtaken by others, and the
client takes whatever reply comes first: it cannot tell which of its messages it is a reply to.

In every run, what the client sees in a round is the reply to a message it has sent, in this
round or before (`genuine`). It is the reply to the message of the round if nothing is copied
and the client gives up only when nothing is on the way any more (`matching`). And if nothing is
lost either, the run ends with every message answered (`complete`). Nothing here mentions a
program: `serve` and `see` are what the server makes of a datagram, and the client of a reply.
-/
import CourseLabs.Transition
import Mathlib.Data.Multiset.AddSub

set_option autoImplicit false

namespace CourseLabs.RequestReply

open CourseLabs.Transition

/-- The client, with what it has seen in each round, and the datagrams on the way. -/
structure State (α β γ : Type) where
  todo : List α
  waiting : Option α
  log : List (α × Option γ)
  requests : Multiset α
  replies : Multiset β
  /-- The server has not stopped. -/
  running : Bool

/-- What can happen in the system: a send, a delivery, a loss, an answer, a copy. -/
inductive Action (α β : Type) where
  | send
  | serve (a : α)
  | respond (b : β)
  | timeout
  | loseRequest (a : α)
  | loseReply (b : β)
  | copyRequest (a : α)
  | copyReply (b : β)

section Protocol

variable {α β γ : Type}

/-- The client has all its messages before it, and nothing is under way. -/
def start (msgs : List α) : State α β γ :=
  { todo := msgs, waiting := none, log := [], requests := 0, replies := 0, running := true }

/-- One step of client, server and network. The client sends its next message only when it waits
for nothing. -/
inductive Step (serve : α → Option (Bool × β)) (see : β → Option (Option γ)) :
    State α β γ → Action α β → State α β γ → Prop
  | send {s : State α β γ} {a : α} {as : List α} (hwaiting : s.waiting = none)
      (htodo : s.todo = a :: as) :
      Step serve see s .send
        { s with todo := as, waiting := some a, requests := a ::ₘ s.requests }
  | serve {s : State α β γ} {a : α} {stop : Bool} {b : β} {R : Multiset α}
      (hrunning : s.running = true) (hin : s.requests = a ::ₘ R)
      (hserve : serve a = some (stop, b)) :
      Step serve see s (.serve a)
        { s with requests := R, replies := b ::ₘ s.replies, running := !stop }
  | respond {s : State α β γ} {a : α} {b : β} {text : Option γ} {R : Multiset β}
      (hwaiting : s.waiting = some a) (hin : s.replies = b ::ₘ R) (hsee : see b = some text) :
      Step serve see s (.respond b)
        { s with waiting := none, log := s.log ++ [(a, text)], replies := R }
  | timeout {s : State α β γ} {a : α} (hwaiting : s.waiting = some a) :
      Step serve see s .timeout { s with waiting := none, log := s.log ++ [(a, none)] }
  | loseRequest {s : State α β γ} {a : α} {R : Multiset α} (hin : s.requests = a ::ₘ R) :
      Step serve see s (.loseRequest a) { s with requests := R }
  | loseReply {s : State α β γ} {b : β} {R : Multiset β} (hin : s.replies = b ::ₘ R) :
      Step serve see s (.loseReply b) { s with replies := R }
  | copyRequest {s : State α β γ} {a : α} (hin : a ∈ s.requests) :
      Step serve see s (.copyRequest a) { s with requests := a ::ₘ s.requests }
  | copyReply {s : State α β γ} {b : β} (hin : b ∈ s.replies) :
      Step serve see s (.copyReply b) { s with replies := b ::ₘ s.replies }

variable {serve : α → Option (Bool × β)} {see : β → Option (Option γ)} {msgs : List α}
  {s t : State α β γ} {act : Action α β}

/-! ## Every run -/

/-- What the client has sent: the messages of the finished rounds, with a reply or without, and the
one it waits with. -/
def sent (s : State α β γ) : List α :=
  s.log.map Prod.fst ++ s.waiting.toList

/-- The end of a round changes nothing in it. -/
theorem sent_log {a : α} (text : Option γ) (hwaiting : s.waiting = some a) :
    (s.log ++ [(a, text)]).map Prod.fst ++ (none : Option α).toList = sent s := by
  rw [sent, hwaiting, List.map_append]
  exact List.append_nil _

/-- `b` is what the server answers to one of `as`. -/
def ReplyTo (serve : α → Option (Bool × β)) (as : List α) (b : β) : Prop :=
  ∃ a stop, a ∈ as ∧ serve a = some (stop, b)

/-- A reply to one of some messages is a reply to one of more. -/
theorem ReplyTo.mono {as as' : List α} {b : β} (h : ReplyTo serve as b) (hsub : as ⊆ as') :
    ReplyTo serve as' b := by
  obtain ⟨a, stop, ha, hserve⟩ := h
  exact ⟨a, stop, hsub ha, hserve⟩

/-- Nothing on the way, and nothing seen, is invented. Requests are messages that were sent, and
replies are answers to these, though perhaps late ones. -/
structure Honest (serve : α → Option (Bool × β)) (see : β → Option (Option γ)) (msgs : List α)
    (s : State α β γ) : Prop where
  order : sent s ++ s.todo = msgs
  requests : ∀ a ∈ s.requests, a ∈ sent s
  replies : ∀ b ∈ s.replies, ReplyTo serve (sent s) b
  log : ∀ k a text, s.log[k]? = some (a, some text) →
    ∃ b, ReplyTo serve (msgs.take (k + 1)) b ∧ see b = some (some text)

/-- At the start no message and no reply is under way. -/
theorem honest_start (msgs : List α) : Honest serve see msgs (start msgs : State α β γ) :=
  ⟨rfl, fun _ h => absurd h (Multiset.notMem_zero _), fun _ h => absurd h (Multiset.notMem_zero _),
    fun k _ _ h => by simp [start] at h⟩

/-- What a new round puts into the log: a text for a message of this round or an earlier one, or no
text after a timeout. -/
theorem Honest.log_append {a : α} {text : Option γ} (h : Honest serve see msgs s)
    (hnew : ∀ x, text = some x →
      ∃ b, ReplyTo serve (msgs.take (s.log.length + 1)) b ∧ see b = some (some x)) :
    ∀ k a' x, (s.log ++ [(a, text)])[k]? = some (a', some x) →
      ∃ b, ReplyTo serve (msgs.take (k + 1)) b ∧ see b = some (some x) := by
  intro k a' x hk
  rcases Nat.lt_trichotomy k s.log.length with hlt | heq | hgt
  · rw [List.getElem?_append_left hlt] at hk
    exact h.log k a' x hk
  · rw [heq, List.getElem?_concat_length, Option.some.injEq, Prod.mk.injEq] at hk
    rw [heq]
    exact hnew x hk.2
  · rw [List.getElem?_eq_none (by rw [List.length_append, List.length_singleton]; omega)] at hk
    exact nomatch hk

/-- The messages sent so far are the first ones, since they are sent in their order and each of
them once. -/
theorem Honest.take_eq {a : α} (h : Honest serve see msgs s) (hwaiting : s.waiting = some a) :
    msgs.take (s.log.length + 1) = sent s := by
  rw [← h.order, List.take_left']
  rw [sent, hwaiting, List.length_append, List.length_map]
  rfl

/-- Every step keeps replies honest, the losses and copies of the network too: the network invents
nothing. -/
theorem Honest.step (h : Honest serve see msgs s) (hstep : Step serve see s act t) :
    Honest serve see msgs t := by
  obtain ⟨horder, hreq, hrep, hlog⟩ := id h
  cases hstep with
  -- one message more is sent, and it is the next one
  | @send a as hwaiting htodo =>
      have hsent : sent s = s.log.map Prod.fst := by
        rw [sent, hwaiting]
        exact List.append_nil _
      have hsub : sent s ⊆ s.log.map Prod.fst ++ [a] := by
        rw [hsent]
        exact List.subset_append_left _ _
      refine ⟨?_, fun a' ha' => ?_, fun b hb => (hrep b hb).mono hsub, hlog⟩
      · rw [hsent, htodo] at horder
        rw [← horder]
        exact List.append_assoc _ [a] as
      · rcases Multiset.mem_cons.mp ha' with rfl | ha'
        · exact List.mem_append_right _ (List.mem_singleton_self _)
        · exact hsub (hreq a' ha')
  -- the new reply is one to a message that was sent
  | @serve a stop b R hrunning hin hserve =>
      refine ⟨horder, fun a' ha' => hreq a' ?_, fun b' hb' => ?_, hlog⟩
      · rw [hin]
        exact Multiset.mem_cons_of_mem ha'
      · rcases Multiset.mem_cons.mp hb' with rfl | hb'
        · exact ⟨a, stop, hreq a (hin ▸ Multiset.mem_cons_self a R), hserve⟩
        · exact hrep b' hb'
  -- the reply goes to the log, with the message that waited for it
  | @respond a b text R hwaiting hin hsee =>
      have hsent := sent_log text hwaiting
      refine ⟨?_, fun a' ha' => ?_, fun b' hb' => ?_,
        h.log_append fun x hx => ⟨b, ?_, hx ▸ hsee⟩⟩
      · rw [← horder, ← hsent]
        rfl
      · rw [sent, hsent]
        exact hreq a' ha'
      · rw [sent, hsent]
        exact hrep b' (hin ▸ Multiset.mem_cons_of_mem hb')
      · rw [h.take_eq hwaiting]
        exact hrep b (hin ▸ Multiset.mem_cons_self b R)
  -- the message goes to the log without a reply
  | @timeout a hwaiting =>
      have hsent := sent_log (none : Option γ) hwaiting
      refine ⟨?_, fun a' ha' => ?_, fun b' hb' => ?_, h.log_append fun x hx => nomatch hx⟩
      · rw [← horder, ← hsent]
        rfl
      · rw [sent, hsent]
        exact hreq a' ha'
      · rw [sent, hsent]
        exact hrep b' hb'
  -- the network only takes away or copies
  | @loseRequest a R hin =>
      exact ⟨horder, fun a' ha' => hreq a' (hin ▸ Multiset.mem_cons_of_mem ha'), hrep, hlog⟩
  | @loseReply b R hin =>
      exact ⟨horder, hreq, fun b' hb' => hrep b' (hin ▸ Multiset.mem_cons_of_mem hb'), hlog⟩
  | @copyRequest a hin =>
      refine ⟨horder, fun a' ha' => ?_, hrep, hlog⟩
      rcases Multiset.mem_cons.mp ha' with rfl | ha'
      · exact hreq a' hin
      · exact hreq a' ha'
  | @copyReply b hin =>
      refine ⟨horder, hreq, fun b' hb' => ?_, hlog⟩
      rcases Multiset.mem_cons.mp hb' with rfl | hb'
      · exact hrep b' hin
      · exact hrep b' hb'

/-- So they are in every state a run comes to. -/
theorem Honest.reachable (h : Reachable (Step serve see) (start msgs) s) :
    Honest serve see msgs s :=
  h.invariant (Honest serve see msgs) (honest_start msgs) fun _ _ _ hs hstep => hs.step hstep

/-- **Nothing seen is invented.** What the client sees in round `k` is the reply to one of its
first `k + 1` messages. -/
theorem genuine (h : Reachable (Step serve see) (start msgs) s) {k : ℕ} {a : α} {text : γ}
    (hk : (s.log)[k]? = some (a, some text)) :
    ∃ b, ReplyTo serve (msgs.take (k + 1)) b ∧ see b = some (some text) :=
  (Honest.reachable h).log k a text hk

/-! ## Runs of a patient client, without copies -/

/-- No datagram is copied, and the client gives up only when none is on the way. -/
def Patient (s : State α β γ) : Action α β → Prop
  | .copyRequest _ => False
  | .copyReply _ => False
  | .timeout => s.requests = 0 ∧ s.replies = 0
  | _ => True

/-- `text` is what the client sees of the reply to `a`. -/
def Answered (serve : α → Option (Bool × β)) (see : β → Option (Option γ)) (a : α)
    (text : Option γ) : Prop :=
  ∃ stop b, serve a = some (stop, b) ∧ see b = some text

/-- What is on the way in the round of `a`. -/
inductive OnWay (serve : α → Option (Bool × β)) (s : State α β γ) (a : α) : Prop
  | request (hrequests : s.requests = {a}) (hreplies : s.replies = 0)
  | reply {stop : Bool} {b : β} (hserve : serve a = some (stop, b)) (hrequests : s.requests = 0)
      (hreplies : s.replies = {b})
  | lost (hrequests : s.requests = 0) (hreplies : s.replies = 0)

/-- One datagram at most is on the way, and it belongs to the round. -/
structure Matched (serve : α → Option (Bool × β)) (see : β → Option (Option γ))
    (s : State α β γ) : Prop where
  idle : s.waiting = none → s.requests = 0 ∧ s.replies = 0
  busy : ∀ a, s.waiting = some a → OnWay serve s a
  log : ∀ e ∈ s.log, e.2 = none ∨ Answered serve see e.1 e.2

/-- At the start no reply is awaited, so there is nothing that could be mismatched. -/
theorem matched_start (msgs : List α) : Matched serve see (start msgs : State α β γ) :=
  ⟨fun _ => ⟨rfl, rfl⟩, fun _ h => (nomatch h), fun _ h => absurd h List.not_mem_nil⟩

/-- A request on the way is the one of the round. -/
theorem Matched.request {a : α} {R : Multiset α} (h : Matched serve see s)
    (hin : s.requests = a ::ₘ R) : s.waiting = some a ∧ R = 0 ∧ s.replies = 0 := by
  cases hwaiting : s.waiting with
  | none =>
      rw [(h.idle hwaiting).1] at hin
      exact absurd hin (Multiset.zero_ne_cons)
  | some a' =>
      rcases h.busy a' hwaiting with ⟨hq, hp⟩ | ⟨-, hq, -⟩ | ⟨hq, -⟩
      · rw [hq, Multiset.singleton_eq_cons_iff] at hin
        exact ⟨by rw [hin.1], hin.2, hp⟩
      · exact absurd (hq.symm.trans hin) (Multiset.zero_ne_cons)
      · exact absurd (hq.symm.trans hin) (Multiset.zero_ne_cons)

/-- And so is a reply: it is the only datagram under way, and the answer to the message the client
waits with. -/
theorem Matched.reply {b : β} {R : Multiset β} (h : Matched serve see s)
    (hin : s.replies = b ::ₘ R) :
    ∃ a stop, s.waiting = some a ∧ serve a = some (stop, b) ∧ R = 0 ∧ s.requests = 0 := by
  cases hwaiting : s.waiting with
  | none =>
      rw [(h.idle hwaiting).2] at hin
      exact absurd hin (Multiset.zero_ne_cons)
  | some a =>
      rcases h.busy a hwaiting with ⟨-, hp⟩ | @⟨stop, b', hserve, hq, hp⟩ | ⟨-, hp⟩
      · exact absurd (hp.symm.trans hin) (Multiset.zero_ne_cons)
      · rw [hp, Multiset.singleton_eq_cons_iff] at hin
        exact ⟨a, stop, rfl, hin.1 ▸ hserve, hin.2, hq⟩
      · exact absurd (hp.symm.trans hin) (Multiset.zero_ne_cons)

/-- Without copies, and where the client gives up only when nothing is under way, every reply is a
reply to the message it is taken for. -/
theorem Matched.step (h : Matched serve see s) (hpatient : Patient s act)
    (hstep : Step serve see s act t) : Matched serve see t := by
  cases hstep with
  -- nothing was under way, so only this message is
  | @send a as hwaiting htodo =>
      obtain ⟨hq, hp⟩ := h.idle hwaiting
      refine ⟨fun hnone => (nomatch hnone), fun a' ha' => ?_, h.log⟩
      obtain rfl := Option.some.inj ha'
      exact .request (by rw [hq]; rfl) hp
  -- the one request becomes the one reply
  | @serve a stop b R hrunning hin hserve =>
      obtain ⟨hwaiting, rfl, hp⟩ := h.request hin
      refine ⟨fun hnone => (nomatch hwaiting.symm.trans hnone), fun a' ha' => ?_, h.log⟩
      obtain rfl := Option.some.inj (hwaiting.symm.trans ha')
      exact .reply hserve rfl (by rw [hp]; rfl)
  -- and this reply is the one that is awaited
  | @respond a b text R hwaiting hin hsee =>
      obtain ⟨a', stop, hwaiting', hserve, rfl, hq⟩ := h.reply hin
      obtain rfl := Option.some.inj (hwaiting.symm.trans hwaiting')
      refine ⟨fun _ => ⟨hq, rfl⟩, fun a' ha' => (nomatch ha'), fun e he => ?_⟩
      rcases List.mem_append.mp he with he | he
      · exact h.log e he
      · obtain rfl := List.mem_singleton.mp he
        exact Or.inr ⟨stop, b, hserve, hsee⟩
  -- a patient client gives up only when nothing can come
  | @timeout a hwaiting =>
      refine ⟨fun _ => hpatient, fun a' ha' => (nomatch ha'), fun e he => ?_⟩
      rcases List.mem_append.mp he with he | he
      · exact h.log e he
      · obtain rfl := List.mem_singleton.mp he
        exact Or.inl rfl
  | @loseRequest a R hin =>
      obtain ⟨hwaiting, rfl, hp⟩ := h.request hin
      exact ⟨fun _ => ⟨rfl, hp⟩, fun a' _ => .lost rfl hp, h.log⟩
  | @loseReply b R hin =>
      obtain ⟨a, stop, hwaiting, -, rfl, hq⟩ := h.reply hin
      exact ⟨fun _ => ⟨hq, rfl⟩, fun a' _ => .lost hq rfl, h.log⟩
  | copyRequest => exact hpatient.elim
  | copyReply => exact hpatient.elim

/-- **Replies match their messages**, or there is none. The client is patient: it gives up only
when nothing is under way that it could wait for. -/
theorem matching {trace : List (State α β γ × Action α β)}
    (hrun : Run (Step serve see) (start msgs) trace s) (hpatient : ∀ p ∈ trace, Patient p.1 p.2) :
    Matched serve see s := by
  refine hrun.invariant (fun trace s => (∀ p ∈ trace, Patient p.1 p.2) → Matched serve see s)
    (fun _ => matched_start msgs) (fun trace t a u ih hstep hpatient => ?_) hpatient
  exact (ih fun p hp => hpatient p (List.mem_append_left _ hp)).step
    (hpatient (t, a) (List.mem_append_right _ (List.mem_singleton_self _))) hstep

/-! ## Runs in which nothing goes wrong -/

/-- Neither the network nor the clock interferes: nothing is lost or copied, and no timeout comes.
-/
def Reliable : Action α β → Prop
  | .send => True
  | .serve _ => True
  | .respond _ => True
  | _ => False

/-- On a network that loses nothing, a client need not give up waiting. -/
theorem Reliable.patient (h : Reliable act) (s : State α β γ) : Patient s act := by
  cases act with
  | send => trivial
  | serve => trivial
  | respond => trivial
  | timeout => exact h.elim
  | loseRequest => exact h.elim
  | loseReply => exact h.elim
  | copyRequest => exact h.elim
  | copyReply => exact h.elim

/-- The steps that are still to come: three for a message. -/
def left (s : State α β γ) : ℕ :=
  3 * s.todo.length + 2 * s.requests.card + s.replies.card

/-- The server can answer every message, and only the last one stops it. -/
structure Session (serve : α → Option (Bool × β)) (see : β → Option (Option γ))
    (msgs : List α) : Prop where
  answers : ∀ a ∈ msgs, ∃ text, Answered serve see a text
  last : ∀ pre a post b, msgs = pre ++ a :: post → serve a = some (true, b) → post = []

/-- What holds in a session on such a network: at most one message or reply is under way, and it is
the one awaited. -/
structure Steady (serve : α → Option (Bool × β)) (see : β → Option (Option γ)) (msgs : List α)
    (s : State α β γ) : Prop where
  honest : Honest serve see msgs s
  matched : Matched serve see s
  kept : s.waiting.isSome → s.requests ≠ 0 ∨ s.replies ≠ 0
  log : ∀ e ∈ s.log, Answered serve see e.1 e.2
  running : s.running = false → s.todo = [] ∧ s.requests = 0

/-- Every step keeps it, and one step less is left, so the session ends. -/
theorem Steady.step (hsession : Session serve see msgs) (h : Steady serve see msgs s)
    (hreliable : Reliable act) (hstep : Step serve see s act t) :
    Steady serve see msgs t ∧ left t + 1 = left s := by
  have hhonest := h.honest.step hstep
  have hmatched := h.matched.step (hreliable.patient s) hstep
  cases hstep with
  -- `left` counts three for a message not yet sent, two for a request and one for a reply
  | @send a as hwaiting htodo =>
      refine ⟨⟨hhonest, hmatched, fun _ => Or.inl Multiset.cons_ne_zero, h.log,
        fun hstop => ?_⟩, ?_⟩
      · rw [(h.running hstop).1] at htodo
        exact nomatch htodo
      · simp only [left, htodo, List.length_cons, Multiset.card_cons]
        omega
  | @serve a stop b R hrunning hin hserve =>
      obtain ⟨hwaiting, rfl, -⟩ := h.matched.request hin
      refine ⟨⟨hhonest, hmatched, fun _ => Or.inr Multiset.cons_ne_zero, h.log,
        fun hstop => ?_⟩, ?_⟩
      -- the server stops at the last message only
      · have hlast : stop = true := by simpa using hstop
        have horder := h.honest.order
        rw [sent, hwaiting, Option.toList_some, List.append_assoc, List.singleton_append] at horder
        exact ⟨hsession.last _ a s.todo b horder.symm (hlast ▸ hserve), rfl⟩
      · simp only [left, hin, Multiset.card_cons, Multiset.card_zero]
        omega
  | @respond a b text R hwaiting hin hsee =>
      obtain ⟨a', stop, hwaiting', hserve, rfl, hq⟩ := h.matched.reply hin
      obtain rfl := Option.some.inj (hwaiting.symm.trans hwaiting')
      refine ⟨⟨hhonest, hmatched, fun hsome => (nomatch hsome), fun e he => ?_, h.running⟩, ?_⟩
      · rcases List.mem_append.mp he with he | he
        · exact h.log e he
        · obtain rfl := List.mem_singleton.mp he
          exact ⟨stop, b, hserve, hsee⟩
      · simp only [left, hin, Multiset.card_cons, Multiset.card_zero]
  | timeout => exact hreliable.elim
  | loseRequest => exact hreliable.elim
  | loseReply => exact hreliable.elim
  | copyRequest => exact hreliable.elim
  | copyReply => exact hreliable.elim

/-- Somebody can go on, or every message has its reply. -/
theorem Steady.progress (hsession : Session serve see msgs) (h : Steady serve see msgs s) :
    (∃ act t, Reliable act ∧ Step serve see s act t)
      ∨ (left s = 0 ∧ s.log.map Prod.fst = msgs) := by
  have horder := h.honest.order
  cases hwaiting : s.waiting with
  -- the client waits for nothing: it sends, or it is through
  | none =>
      obtain ⟨hq, hp⟩ := h.matched.idle hwaiting
      cases htodo : s.todo with
      | nil =>
          right
          rw [sent, hwaiting, htodo, List.append_nil] at horder
          refine ⟨by rw [left, htodo, hq, hp]; rfl, ?_⟩
          rw [← horder]
          exact (List.append_nil _).symm
      | cons a as => exact Or.inl ⟨.send, _, trivial, .send hwaiting htodo⟩
  -- it waits, so the message or its reply is under way
  | some a =>
      left
      have hmem : a ∈ msgs := by
        rw [← horder, sent, hwaiting]
        simp
      obtain ⟨text, stop, b, hserve, hsee⟩ := hsession.answers a hmem
      rcases h.matched.busy a hwaiting with ⟨hq, hp⟩ | @⟨stop', b', hserve', hq, hp⟩ | ⟨hq, hp⟩
      · refine ⟨.serve a, _, trivial, .serve ?_ (R := 0) hq hserve⟩
        cases hrunning : s.running with
        | true => rfl
        | false =>
            rw [(h.running hrunning).2] at hq
            exact absurd hq (Multiset.zero_ne_cons)
      · rw [hserve, Option.some.injEq, Prod.mk.injEq] at hserve'
        obtain ⟨-, rfl⟩ := hserve'
        exact ⟨.respond b, _, trivial, .respond hwaiting (R := 0) hp hsee⟩
      -- none of the two would be a loss, which there is not
      · rcases h.kept (by rw [hwaiting]; rfl) with hne | hne
        · exact absurd hq hne
        · exact absurd hp hne

/-- **Completeness.** A run in which nothing goes wrong ends after three steps for each
message, and then every message has its reply. -/
theorem complete (hsession : Session serve see msgs)
    {trace : List (State α β γ × Action α β)}
    (hrun : Run (Step serve see) (start msgs) trace s) (hreliable : ∀ p ∈ trace, Reliable p.2) :
    Steady serve see msgs s ∧ trace.length + left s = 3 * msgs.length := by
  refine hrun.invariant (fun trace s => (∀ p ∈ trace, Reliable p.2) →
    Steady serve see msgs s ∧ trace.length + left s = 3 * msgs.length) (fun _ => ?_)
    (fun trace t a u ih hstep hreliable => ?_) hreliable
  · refine ⟨⟨honest_start msgs, matched_start msgs, fun h => (nomatch h),
      fun _ h => absurd h List.not_mem_nil, fun h => (nomatch h)⟩, ?_⟩
    simp [left, start]
  · obtain ⟨hsteady, hleft⟩ := ih fun p hp => hreliable p (List.mem_append_left _ hp)
    obtain ⟨hsteady', hless⟩ := hsteady.step hsession
      (hreliable (t, a) (List.mem_append_right _ (List.mem_singleton_self _))) hstep
    refine ⟨hsteady', ?_⟩
    rw [List.length_append, List.length_singleton]
    omega

/-- And there is such a run: the three steps of each round, one round after the other. -/
theorem exists_complete (hsession : Session serve see msgs) :
    ∃ trace s, Run (Step serve see) (start msgs : State α β γ) trace s
      ∧ (∀ p ∈ trace, Reliable p.2) ∧ left s = 0 := by
  have hmore : ∀ n trace (s : State α β γ), Run (Step serve see) (start msgs) trace s →
      (∀ p ∈ trace, Reliable p.2) → left s = n →
      ∃ trace s, Run (Step serve see) (start msgs : State α β γ) trace s
        ∧ (∀ p ∈ trace, Reliable p.2) ∧ left s = 0 := by
    intro n
    induction n with
    | zero => exact fun trace s hrun hreliable hleft => ⟨trace, s, hrun, hreliable, hleft⟩
    | succ n ih =>
        intro trace s hrun hreliable hleft
        have hsteady := (complete hsession hrun hreliable).1
        rcases hsteady.progress hsession with ⟨act, t, hact, hstep⟩ | ⟨hzero, -⟩
        · have hless := (hsteady.step hsession hact hstep).2
          refine ih _ t (hrun.snoc hstep) (fun p hp => ?_) (by omega)
          rcases List.mem_append.mp hp with hp | hp
          · exact hreliable p hp
          · exact List.mem_singleton.mp hp ▸ hact
        · omega
  exact hmore _ [] _ .refl (fun _ h => absurd h List.not_mem_nil) rfl

/-! ## One timeout that comes too soon -/

/-- With the request of the last round still on the way, each round sees the reply of the one
before, though nothing is lost any more. -/
theorem exists_late {rep : α → β} {sh : α → Option γ} (hsee : ∀ a, see (rep a) = some (sh a))
    (as : List α) {a : α} {s : State α β γ} (hwaiting : s.waiting = none)
    (hrequests : s.requests = {a}) (hreplies : s.replies = 0) (hrunning : s.running = true)
    (htodo : s.todo = as) (hserve : ∀ a' ∈ (a :: as).dropLast, serve a' = some (false, rep a')) :
    ∃ trace t, Run (Step serve see) s trace t ∧ (∀ p ∈ trace, Reliable p.2)
      ∧ t.log = s.log ++ List.zipWith (fun a' before => (a', sh before)) as (a :: as) := by
  induction as generalizing a s with
  | nil =>
      exact ⟨[], s, .refl, fun _ h => absurd h List.not_mem_nil, (List.append_nil _).symm⟩
  | cons a' as ih =>
      obtain ⟨todo, waiting, log, requests, replies, running⟩ := s
      subst hwaiting hrequests hreplies hrunning htodo
      have hswap : a' ::ₘ ({a} : Multiset α) = a ::ₘ {a'} := Multiset.pair_comm a' a
      -- a round: the message is sent, the server answers the older one, the client takes that
      -- answer
      have hsend : Step serve see (State.mk (a' :: as) none log {a} 0 true) .send
          (State.mk as (some a') log (a' ::ₘ {a}) 0 true) := .send rfl rfl
      have hanswer : Step serve see (State.mk as (some a') log (a' ::ₘ {a}) 0 true) (.serve a)
          (State.mk as (some a') log {a'} {rep a} true) :=
        .serve rfl hswap (hserve a (List.mem_cons_self ..))
      have hrespond : Step serve see (State.mk as (some a') log {a'} {rep a} true)
          (.respond (rep a)) (State.mk as none (log ++ [(a', sh a)]) {a'} 0 true) :=
        .respond rfl rfl (hsee a)
      -- after it the newer message is the one on the way, and the induction goes on
      obtain ⟨trace, t, hrun, hreliable, hlog⟩ := @ih a' (State.mk as none _ {a'} 0 true) rfl rfl
        rfl rfl rfl fun x hx => hserve x (List.mem_cons_of_mem a hx)
      refine ⟨_, t, ((Run.refl.snoc hsend).snoc hanswer).snoc hrespond |>.append hrun, ?_, ?_⟩
      · intro p hp
        rcases List.mem_append.mp hp with hp | hp
        · simp only [List.nil_append, List.cons_append, List.mem_cons, List.not_mem_nil,
            or_false] at hp
          rcases hp with rfl | rfl | rfl
          all_goals trivial
        · exact hreliable p hp
      · rw [hlog, List.append_assoc]
        rfl

end Protocol

end CourseLabs.RequestReply
