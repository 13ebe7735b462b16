/-
`server.c`: the bounded queue of accepted connections, and that it is a
first-in-first-out list.

Here a critical section is one step, taken when the condition its thread waits on is
over (`push_waits`, `pop_waits`). The ring buffer of the library says what the cells hold;
`Represents` adds the two fields that follow from it, `tail` and `count`. One lemma for
each section carries the representation, and `queue_refines_fifo` is the run: whoever
pushes and pops, what came out followed by what is stored is what went in.

The parts of the two functions have names of their own, since the model of the whole
server interleaves them with the stop signal.
-/
import CourseLabs.CMem
import CourseLabs.RingBuffer
import CourseLabs.Transition
import Mathlib.Tactic.Linarith
import Mathlib.Tactic.Ring

set_option autoImplicit false

namespace CourseLabs.ConnectionQueue

open CourseLabs.CMem CourseLabs.RingBuffer CourseLabs.Transition

/-! ## The program -/

def QUEUE_SIZE : ℕ := 32

/-- `connection_queue_t`, without the mutex and the conditions. The indices are `int`s, as in the
source. -/
structure connection_queue_t where
  client_sockets : List ℤ
  head : ℤ
  tail : ℤ
  count : ℤ

def queue_init (q : connection_queue_t) : connection_queue_t :=
  { q with head := 0, tail := 0, count := 0 }

/-- `queue_push` waits: `while (q->count == QUEUE_SIZE && server_running)`. -/
def push_waits (server_running : Bool) (q : connection_queue_t) : Bool :=
  q.count = QUEUE_SIZE && server_running

def push_store (q : connection_queue_t) (client_sd : ℤ) : Option connection_queue_t := do
  let client_sockets ← store q.client_sockets (← idx q.tail) client_sd
  some { q with client_sockets, tail := (q.tail + 1).tmod QUEUE_SIZE, count := q.count + 1 }

/-- `queue_push` behind its wait: it stores the descriptor, unless the server is to stop. -/
def queue_push (server_running : Bool) (q : connection_queue_t) (client_sd : ℤ) :
    Option connection_queue_t :=
  if !server_running then some q else push_store q client_sd

/-- `queue_pop` waits: `while (q->count == 0 && server_running)`. -/
def pop_waits (server_running : Bool) (q : connection_queue_t) : Bool :=
  q.count = 0 && server_running

def pop_take (q : connection_queue_t) : Option (ℤ × connection_queue_t) := do
  let client_sd ← q.client_sockets[← idx q.head]?
  some (client_sd, { q with head := (q.head + 1).tmod QUEUE_SIZE, count := q.count - 1 })

/-- `queue_pop` behind its wait: `-1` if the server is to stop and nothing is stored, and otherwise
the first descriptor. -/
def queue_pop (server_running : Bool) (q : connection_queue_t) :
    Option (ℤ × connection_queue_t) :=
  if !server_running && q.count = 0 then some (-1, q) else pop_take q

/-! ## The list a queue represents -/

/-- The descriptors stored in the queue, in the order of `head`. -/
def stored (q : connection_queue_t) : List ℤ :=
  contents q.client_sockets q.head.toNat q.count.toNat

structure Represents (q : connection_queue_t) (l : List ℤ) : Prop where
  size : q.client_sockets.length = QUEUE_SIZE
  head_nonneg : 0 ≤ q.head
  ring : Holds q.client_sockets q.head.toNat l
  tail : q.tail = (q.head + l.length) % QUEUE_SIZE
  count : q.count = l.length

section Sections

variable {q : connection_queue_t} {l : List ℤ}

theorem queue_init_spec (h : q.client_sockets.length = QUEUE_SIZE) :
    Represents (queue_init q) [] := by
  refine ⟨h, le_refl 0, Holds.nil ?_, rfl, rfl⟩
  rw [queue_init]
  dsimp only
  rw [h]
  decide

theorem Represents.stored_eq (h : Represents q l) : stored q = l := by
  rw [stored, h.count, Int.toNat_natCast]
  exact h.ring.contents_eq

theorem Represents.length_le (h : Represents q l) : l.length ≤ QUEUE_SIZE :=
  h.size ▸ h.ring.room

/-- `head` moved on by some places, as an index. -/
theorem Represents.toNat_emod (h : Represents q l) (i : ℕ) :
    ((q.head + i) % (QUEUE_SIZE : ℤ)).toNat = (q.head.toNat + i) % q.client_sockets.length := by
  obtain ⟨head, hhead⟩ := Int.eq_ofNat_of_zero_le h.head_nonneg
  rw [hhead, h.size, Int.toNat_natCast, ← Nat.cast_add, ← Int.natCast_mod, Int.toNat_natCast]

/-- What `queue_push` stores comes last, and the others stay in their order. -/
theorem push_store_spec (h : Represents q l) (hroom : l.length < QUEUE_SIZE) (client_sd : ℤ) :
    ∃ q', push_store q client_sd = some q' ∧ Represents q' (l ++ [client_sd]) := by
  have htail0 : 0 ≤ q.tail := by
    rw [h.tail]
    exact Int.emod_nonneg _ (by decide)
  have htail : q.tail.toNat = (q.head.toNat + l.length) % q.client_sockets.length := by
    rw [h.tail, h.toNat_emod]
  have hsize := h.size
  have hlt : q.tail.toNat < q.client_sockets.length := by
    rw [htail]
    exact Nat.mod_lt _ (by omega)
  refine ⟨_, by rw [push_store, idx, if_pos htail0]
                simp only [Option.bind_eq_bind, Option.bind_some]
                rw [store_of_lt hlt, Option.bind_some], ?_⟩
  refine ⟨?_, h.head_nonneg, ?_, ?_, ?_⟩
  -- the ring, its tail and its count follow the list with the new socket
  · rw [List.length_set, hsize]
  · have hpush := h.ring.push (by omega) client_sd
    rwa [← htail] at hpush
  · rw [Int.tmod_eq_emod_of_nonneg (by omega), h.tail, Int.emod_add_emod, List.length_append,
      List.length_singleton, Nat.cast_add, Nat.cast_one, add_assoc]
  · rw [h.count, List.length_append, List.length_singleton, Nat.cast_add, Nat.cast_one]

/-- What `queue_pop` takes came first, and the others stay in their order. -/
theorem pop_take_spec {client_sd : ℤ} (h : Represents q (client_sd :: l)) :
    ∃ q', pop_take q = some (client_sd, q') ∧ Represents q' l := by
  have hlen := h.length_le
  rw [List.length_cons] at hlen
  refine ⟨_, by rw [pop_take, idx, if_pos h.head_nonneg]
                simp only [Option.bind_eq_bind, Option.bind_some, h.ring.front]
                rfl, ?_⟩
  have hhead := h.toNat_emod 1
  have hemod : (q.head + 1).tmod QUEUE_SIZE = (q.head + (1 : ℕ)) % QUEUE_SIZE :=
    Int.tmod_eq_emod_of_nonneg (by have := h.head_nonneg; omega)
  refine ⟨h.size, ?_, ?_, ?_, ?_⟩
  · rw [hemod]
    exact Int.emod_nonneg _ (by decide)
  · rw [hemod, hhead]
    exact h.ring.pop
  · rw [hemod, Int.emod_add_emod, h.tail, List.length_cons]
    push_cast
    ring_nf
  · rw [h.count, List.length_cons, Nat.cast_add, Nat.cast_one, add_sub_cancel_right]

end Sections

/-! ## Runs -/

/-- The queue, with what has been pushed into it and what `queue_pop` has returned. -/
structure Shared where
  queue : connection_queue_t
  pushed : List ℤ
  popped : List ℤ

/-- A completed critical section, of `main` or of one of the workers. The mutex keeps the sections
apart, so they come one after the other. -/
inductive Section where
  | push (client_sd : ℤ)
  | pop (worker : ℕ)

/-- One critical section of any thread, while `server_running` is `1`. -/
inductive Step : Shared → Section → Shared → Prop
  | push {s : Shared} {client_sd : ℤ} {q : connection_queue_t}
      (hgo : push_waits true s.queue = false) (h : queue_push true s.queue client_sd = some q) :
      Step s (.push client_sd) { s with queue := q, pushed := s.pushed ++ [client_sd] }
  | pop {s : Shared} {worker : ℕ} {client_sd : ℤ} {q : connection_queue_t}
      (hgo : pop_waits true s.queue = false)
      (h : queue_pop true s.queue = some (client_sd, q)) :
      Step s (.pop worker) { s with queue := q, popped := s.popped ++ [client_sd] }

def start (q : connection_queue_t) : Shared :=
  { queue := queue_init q, pushed := [], popped := [] }

/-- What every section keeps: the queue holds a list, and that list is what has been pushed and not
yet popped. -/
structure Fifo (s : Shared) (l : List ℤ) : Prop where
  queue : Represents s.queue l
  order : s.pushed = s.popped ++ l

section Steps

variable {s t : Shared} {l : List ℤ}

/-- The section of `queue_push` is defined whenever it is entered. -/
theorem queue_push_spec (h : Represents s.queue l) (hgo : push_waits true s.queue = false)
    (client_sd : ℤ) : ∃ q, queue_push true s.queue client_sd = some q
      ∧ Represents q (l ++ [client_sd]) := by
  have hle := h.length_le
  have hne : s.queue.count ≠ QUEUE_SIZE := by simpa [push_waits] using hgo
  rw [h.count] at hne
  exact push_store_spec h (by omega) client_sd

/-- And the section of `queue_pop`: where it does not wait there is a descriptor, and it returns
the oldest. -/
theorem queue_pop_spec (h : Represents s.queue l) (hgo : pop_waits true s.queue = false) :
    ∃ client_sd l' q, l = client_sd :: l' ∧ queue_pop true s.queue = some (client_sd, q)
      ∧ Represents q l' := by
  have hne : s.queue.count ≠ 0 := by simpa [pop_waits] using hgo
  rw [h.count] at hne
  cases l with
  | nil => exact absurd rfl hne
  | cons client_sd l =>
      obtain ⟨q, hrun, hq⟩ := pop_take_spec h
      exact ⟨client_sd, l, q, rfl, hrun, hq⟩

theorem fifo_start {q : connection_queue_t} (h : q.client_sockets.length = QUEUE_SIZE) :
    Fifo (start q) [] :=
  ⟨queue_init_spec h, rfl⟩

theorem Fifo.step {a : Section} (h : Fifo s l) (hstep : Step s a t) : ∃ l', Fifo t l' := by
  cases hstep with
  | push hgo hrun =>
      obtain ⟨q, hrun', hq⟩ := queue_push_spec h.queue hgo _
      obtain rfl := Option.some.inj (hrun.symm.trans hrun')
      exact ⟨_, hq, by rw [h.order, List.append_assoc]⟩
  | pop hgo hrun =>
      obtain ⟨client_sd, l', q, rfl, hrun', hq⟩ := queue_pop_spec h.queue hgo
      obtain ⟨rfl, rfl⟩ := Prod.mk.inj (Option.some.inj (hrun.symm.trans hrun'))
      exact ⟨l', hq, by rw [h.order, List.append_assoc, List.singleton_append]⟩

end Steps

/-- **The queue is a first-in-first-out list.** After any sections of any threads the
indices are in step, what `queue_pop` has returned is the beginning of what was pushed,
the rest is what the cells hold, and neither section can fail. -/
theorem queue_refines_fifo {q : connection_queue_t} {s : Shared}
    (hsize : q.client_sockets.length = QUEUE_SIZE) (h : Reachable Step (start q) s) :
    (0 ≤ s.queue.count ∧ s.queue.count ≤ QUEUE_SIZE)
      ∧ s.queue.tail = (s.queue.head + s.queue.count) % QUEUE_SIZE
      ∧ s.pushed = s.popped ++ stored s.queue
      ∧ (push_waits true s.queue = false →
          ∀ client_sd, (queue_push true s.queue client_sd).isSome)
      ∧ (pop_waits true s.queue = false → (queue_pop true s.queue).isSome) := by
  -- at every moment the queue holds some list that is in step with both counts
  obtain ⟨l, hl⟩ := h.invariant (fun s => ∃ l, Fifo s l) ⟨[], fifo_start hsize⟩
    (fun t a u ht hstep => ht.elim fun _ hl => hl.step hstep)
  have hle := hl.queue.length_le
  have hcount := hl.queue.count
  refine ⟨⟨by omega, by omega⟩, ?_, ?_, ?_, ?_⟩
  · rw [hl.queue.tail, hcount]
  · rw [hl.queue.stored_eq, hl.order]
  · intro hgo client_sd
    obtain ⟨q', hrun, -⟩ := queue_push_spec hl.queue hgo client_sd
    rw [hrun, Option.isSome_some]
  · intro hgo
    obtain ⟨_, _, q', -, hrun, -⟩ := queue_pop_spec hl.queue hgo
    rw [hrun, Option.isSome_some]

/-- Two connections come in, and a worker takes one. -/
theorem queue_refines_fifo_two :
    ∃ s, Reachable Step (start ⟨List.replicate QUEUE_SIZE 0, 0, 0, 0⟩) s
      ∧ s.popped = [4] ∧ s.pushed = s.popped ++ stored s.queue := by
  have hrun := (((Reachable.refl Step (start ⟨List.replicate QUEUE_SIZE 0, 0, 0, 0⟩)).tail
    (@Step.push _ 4 _ rfl rfl)).tail (@Step.push _ 5 _ rfl rfl)).tail (@Step.pop _ 1 _ _ rfl rfl)
  exact ⟨_, hrun, rfl, (queue_refines_fifo List.length_replicate hrun).2.2.1⟩

end CourseLabs.ConnectionQueue
