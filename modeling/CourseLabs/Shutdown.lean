/-
`server.c`: which connections a shutdown loses.

Two places test `server_running` on their own and forget a connection when it is `0`.
`queue_push` returns without storing the descriptor it was given and without closing it
(`lost`). The loop of a worker stops without looking at the queue, so when the last worker
stops there (`Abandons`), what is stored, or is about to be stored, stays. `queue_pop`
itself keeps draining the queue after the flag has fallen.

The invariant (`Inv`) has three parts: who holds the mutex; where each accepted
descriptor is (`conserve`); and, once every worker has returned, whether something is
left for them (`abandoned`). The last two speak of the trace of the run, and at the end
they say that the shutdown was clean exactly when neither of the two things happened.
-/
import CourseLabs.Server
import Mathlib.Algebra.BigOperators.Fin
import Mathlib.Tactic.IntervalCases

set_option autoImplicit false

namespace CourseLabs.Server

open CourseLabs.ConnectionQueue CourseLabs.Transition

/-! ## What a line says about its thread -/

/-- A line of `main`, or of what `main` calls. The others are lines of the workers, and the two
kinds of threads share the queue only. -/
def Pc.ofMain : Pc → Bool
  | .workerTest | .popLock | .popEmpty | .popWait | .popCheck | .popTake | .popUnlock _
  | .popped _ | .recv _ | .send _ | .close _ | .returned => false
  | _ => true

/-- The thread holds the mutex: it is between `pthread_mutex_lock` and `pthread_mutex_unlock`, and
not asleep in between. -/
def Pc.locks : Pc → Bool
  | .pushFull _ | .pushCheck _ | .pushStore _ | .pushUnlock | .stopUnlock
  | .popEmpty | .popCheck | .popTake | .popUnlock _ => true
  | _ => false

/-- The lines of `signal_handler` between its `pthread_mutex_lock` and `pthread_mutex_unlock`: the
two broadcasts, and the unlock itself, which still holds the mutex when it begins. -/
def HandlerPc.locks : HandlerPc → Bool
  | .broadcast | .unlock => true
  | _ => false

/-- The descriptor the thread has to see to. The result of `queue_pop` is one unless it is
negative. -/
def Pc.carries : Pc → List ℤ
  | .pushLock d | .pushFull d | .pushWait d | .pushCheck d | .pushStore d
  | .recv d | .send d | .close d => [d]
  | .popUnlock d | .popped d => if d < 0 then [] else [d]
  | _ => []

/-- `queue_pop` has found the queue empty after the stop, and is about to return `-1` or has
returned it. -/
def Pc.drained : Pc → Bool
  | .popUnlock d | .popped d => d < 0
  | _ => false

/-- The thread has seen that `server_running` is `0`; it takes no further connection from then on.
-/
def Pc.stopping : Pc → Bool
  | .stopLock | .stopUnlock | .join | .returned => true
  | pc => pc.drained

/-- The descriptor `queue_push` returns without: it is neither stored nor closed when the flag is
down behind the wait. -/
def lostAt (pc : Pc) (sh : Shared) : List ℤ :=
  match pc with
  | .pushCheck d => if sh.server_running then [] else [d]
  | _ => []

section Lines

variable {t : Thread} {pc pc' : Pc} {sh sh' : Shared} {l : List ℤ}

/-- No line of a thread writes `server_running`. Only the handler clears it, so a loop that has
read the flag and goes on still knows it when the signal has not come. -/
theorem Line.running (h : Line t pc sh pc' sh') : sh'.server_running = sh.server_running := by
  cases h <;> rfl

/-- A thread stays in its own code: `main` never enters `queue_pop` and a worker never enters
`queue_push` or the shutdown at the end of `main`. -/
theorem Line.ofMain (h : Line t pc sh pc' sh') : pc'.ofMain = pc.ofMain := by
  cases h <;> rfl

/-- A line keeps the mutex, takes it or gives it up. -/
theorem Line.mutex (h : Line t pc sh pc' sh') :
    (pc'.locks = pc.locks ∧ sh'.mutex = sh.mutex)
      ∨ (pc'.locks = true ∧ sh.mutex = none ∧ sh'.mutex = some t)
      ∨ (pc.locks = true ∧ pc'.locks = false ∧ sh'.mutex = none) := by
  cases h with
  | pushLock h | pushWake h | stopLock h | popLock h | popWake h =>
      exact Or.inr (Or.inl ⟨rfl, h, rfl⟩)
  | pushFull | pushUnlock | stopUnlock | popEmpty | popUnlock =>
      exact Or.inr (Or.inr ⟨rfl, rfl, rfl⟩)
  | _ => exact Or.inl ⟨rfl, rfl⟩

/-- The queue changes in two lines only, the store of `queue_push` and the removal of `queue_pop`.
-/
theorem Line.queue (h : Line t pc sh pc' sh') :
    sh'.queue = sh.queue
      ∨ (∃ d, pc = .pushStore d ∧ push_store sh.queue d = some sh'.queue)
      ∨ (∃ d, pc = .popTake ∧ pc' = .popUnlock d ∧ pop_take sh.queue = some (d, sh'.queue)) := by
  cases h with
  | pushStore h => exact Or.inr (Or.inl ⟨_, rfl, h⟩)
  | popTake h => exact Or.inr (Or.inr ⟨_, rfl, rfl, h⟩)
  | _ => exact Or.inl rfl

/-- A thread stops when it has seen the flag down, and in no other line. -/
theorem Line.stopping (h : Line t pc sh pc' sh') (hstop : pc'.stopping = true)
    (hnonneg : ∀ d, pc = .popTake → pc' = .popUnlock d → 0 ≤ d) :
    pc.stopping = true ∨ sh.server_running = false := by
  cases h with
  | acceptStop h | errorBreak h | workerStop h => exact Or.inr h
  | popDrained h => exact Or.inr h
  | stopLock | stopUnlock => exact Or.inl rfl
  | popUnlock => exact Or.inl hstop
  | workerBreak h => exact Or.inl (by simpa [Pc.stopping, Pc.drained] using h)
  | popTake =>
      have := hnonneg _ rfl rfl
      simp [Pc.stopping, Pc.drained] at hstop
      omega
  | _ => simp [Pc.stopping, Pc.drained] at hstop

/-- What `accept` returns with is pushed only after the test `client_sd < 0`, so every descriptor
in the queue is one the system handed out. -/
theorem Line.accepted_nonneg (h : Line t pc sh pc' sh') (hd : ∀ d ∈ sh.accepted, 0 ≤ d) :
    ∀ d ∈ sh'.accepted, 0 ≤ d := by
  cases h with
  | accepted d h => exact List.forall_mem_cons.mpr ⟨h, hd⟩
  | _ => exact hd

/-- Where `queue_push` goes on, there is room: it has just tested the count, or it comes from the
line behind that test. -/
theorem Line.room (h : Line t pc sh pc' sh') {d : ℤ}
    (hpc : (pc' = .pushCheck d ∧ sh.server_running = true) ∨ pc' = .pushStore d) :
    sh'.queue = sh.queue
      ∧ ((∃ d, pc = .pushCheck d ∧ sh.server_running = true) ∨ sh.queue.count ≠ QUEUE_SIZE) := by
  cases h with
  | pushRoom h =>
      obtain ⟨-, hrun⟩ | hpc := hpc
      · exact ⟨rfl, Or.inr (by simpa [push_waits, hrun] using h)⟩
      · exact absurd hpc (by simp)
  | pushGo h => exact ⟨rfl, Or.inl ⟨_, rfl, h⟩⟩
  | _ => simp at hpc

/-- Where `queue_pop` goes on, there is a descriptor: it has just tested the count, or it comes
from the line behind that test. -/
theorem Line.some (h : Line t pc sh pc' sh')
    (hpc : (pc' = .popCheck ∧ sh.server_running = true) ∨ pc' = .popTake) :
    sh'.queue = sh.queue
      ∧ ((pc = .popCheck ∧ sh.server_running = true) ∨ sh.queue.count ≠ 0) := by
  cases h with
  | popAny h =>
      obtain ⟨-, hrun⟩ | hpc := hpc
      · exact ⟨rfl, Or.inr (by simpa [pop_waits, hrun] using h)⟩
      · exact absurd hpc (by simp)
  | @popGo sh h =>
      cases hrun : sh.server_running with
      | true => exact ⟨rfl, Or.inl ⟨rfl, rfl⟩⟩
      | false => exact ⟨rfl, Or.inr fun hcount => h ⟨hrun, hcount⟩⟩
  | _ => simp at hpc

/-- Where the descriptors go in one line: what has been accepted is stored, carried by a thread,
closed or lost, and it stays so. -/
theorem Line.balance (h : Line t pc sh pc' sh') (hq : Represents sh.queue l)
    (hroom : ∀ d, pc = .pushStore d → l.length < QUEUE_SIZE) (htake : pc = .popTake → l ≠ [])
    (hnonneg : ∀ d ∈ l, 0 ≤ d) :
    ∃ l', Represents sh'.queue l'
      ∧ ∀ x, l'.count x + pc'.carries.count x + sh'.closed.count x + (lostAt pc sh).count x
          + sh.accepted.count x
        = l.count x + pc.carries.count x + sh.closed.count x + sh'.accepted.count x := by
  cases h with
  -- the descriptor moves from `main` into the queue
  | pushStore h =>
      obtain ⟨q, hrun, hq'⟩ := push_store_spec hq (hroom _ rfl) _
      obtain rfl := Option.some.inj (h.symm.trans hrun)
      refine ⟨_, hq', fun x => ?_⟩
      simp only [Pc.carries, lostAt, List.count_append, List.count_nil]
      omega
  -- and from the queue to a worker
  | popTake h =>
      cases l with
      | nil => exact absurd rfl (htake rfl)
      | cons d l =>
          obtain ⟨q, hrun, hq'⟩ := pop_take_spec hq
          obtain ⟨rfl, rfl⟩ := Prod.mk.inj (Option.some.inj (h.symm.trans hrun))
          have hd := hnonneg _ List.mem_cons_self
          refine ⟨_, hq', fun x => ?_⟩
          simp only [Pc.carries, lostAt, if_neg (not_lt.mpr hd), List.count_nil, List.count_cons]
          omega
  -- a new one
  | accepted d h =>
      refine ⟨l, hq, fun x => ?_⟩
      simp only [Pc.carries, lostAt, List.count_nil, List.count_cons]
      omega
  -- the worker is through with it
  | close =>
      refine ⟨l, hq, fun x => ?_⟩
      simp only [Pc.carries, lostAt, List.count_nil, List.count_cons]
      omega
  -- `queue_push` returns after the stop: this is where one is lost
  | pushReturn h =>
      refine ⟨l, hq, fun x => ?_⟩
      simp only [Pc.carries, lostAt, h, Bool.false_eq_true, if_false, List.count_nil]
      omega
  | pushGo h =>
      refine ⟨l, hq, fun x => ?_⟩
      simp only [Pc.carries, lostAt, h, if_true, List.count_nil]
      omega
  -- a negative value is none
  | workerBreak h =>
      refine ⟨l, hq, fun x => ?_⟩
      simp only [Pc.carries, lostAt, if_pos h, List.count_nil]
      omega
  | workerServe h =>
      refine ⟨l, hq, fun x => ?_⟩
      simp only [Pc.carries, lostAt, if_neg (not_lt.mpr h), List.count_nil]
      omega
  | _ => exact ⟨l, hq, fun x => by simp [Pc.carries, lostAt]⟩

end Lines

/-! ## The mutex -/

/-- The mutex belongs to the one thread, or handler, that is inside. -/
structure Locked (s : State) : Prop where
  main : (s.pc .main).ofMain = true
  worker : ∀ i, (s.pc (.worker i)).ofMain = false
  thread : ∀ t, (s.pc t).locks = true → s.mutex = some t
  handler : ∀ t pc, s.handler = some (t, pc) → pc.locks = true →
    s.mutex = some t ∧ (s.pc t).locks = false

section Locked

variable {s s' : State} {a : Actor}

/-- At the start of the accept loop nobody holds the mutex, and every thread stands in the code
that is its own. -/
theorem locked_start (q : connection_queue_t) (listen_sd : ℤ) : Locked (start q listen_sd) := by
  refine ⟨rfl, fun _ => rfl, ?_, fun _ _ h => absurd h (by simp [start])⟩
  intro t h
  cases t <;> exact absurd h (by simp [start, Pc.locks])

/-- What another thread holds, a line leaves to it: no line unlocks a mutex its own thread has not
locked. -/
theorem Locked.mutex_kept {t u : Thread} {pc : Pc} {sh : Shared} (hs : Locked s)
    (h : Line t (s.pc t) s.toShared pc sh) (hheld : s.mutex = some u) (hne : u ≠ t) :
    sh.mutex = some u := by
  rcases h.mutex with ⟨-, hm⟩ | ⟨-, hnone, -⟩ | ⟨hheld', -, -⟩
  · rw [hm, hheld]
  · rw [hnone] at hheld
    exact absurd hheld (by simp)
  · rw [hs.thread t hheld'] at hheld
    exact absurd (Option.some.inj hheld).symm hne

/-- One line of one thread keeps the mutex discipline. The cases are whether the line takes the
mutex, gives it back, or leaves it where it is. -/
theorem Locked.line {t : Thread} {pc : Pc} {sh : Shared} (hs : Locked s)
    (hrun : ∀ h, s.handler ≠ some (t, h)) (h : Line t (s.pc t) s.toShared pc sh) :
    Locked { s with toShared := sh, pc := Function.update s.pc t pc } := by
  -- a line stays in the code of its thread
  have hcode : ∀ u, (Function.update s.pc t pc u).ofMain = (s.pc u).ofMain :=
    (Function.forall_update_iff s.pc fun u p => p.ofMain = (s.pc u).ofMain).mpr
      ⟨h.ofMain, fun _ _ => rfl⟩
  refine ⟨(hcode _).trans hs.main, fun i => (hcode _).trans (hs.worker i), ?_, ?_⟩
  · refine (Function.forall_update_iff s.pc fun u p => p.locks = true → sh.mutex = some u).mpr
      ⟨fun hpc => ?_, fun u hu hpc => ?_⟩
    -- the line leaves the mutex alone, or takes it, or gives it back
    · rcases h.mutex with ⟨heq, hm⟩ | ⟨-, -, hm⟩ | ⟨-, hfree, -⟩
      · rw [hm]
        exact hs.thread t (heq ▸ hpc)
      · exact hm
      · rw [hpc] at hfree
        exact absurd hfree (by decide)
    · exact hs.mutex_kept h (hs.thread u hpc) hu
  · intro u hpc hu hlock
    have hne : u ≠ t := fun heq => hrun hpc (heq ▸ hu)
    obtain ⟨hheld, hout⟩ := hs.handler u hpc hu hlock
    exact ⟨hs.mutex_kept h hheld hne, by dsimp only; rwa [Function.update_of_ne hne]⟩

/-- The mutex discipline over every step: a line of a thread, a line of the handler on top of one,
and the delivery of the signal, which takes nothing. -/
theorem Locked.step (hs : Locked s) (h : Step s a s') : Locked s' := by
  cases h with
  | thread hrun h => exact hs.line hrun h
  -- the handler begins outside its critical section
  | deliver =>
      refine ⟨hs.main, hs.worker, hs.thread, ?_⟩
      rintro u pc hu hlock
      obtain ⟨-, rfl⟩ := Prod.mk.inj (Option.some.inj hu)
      exact absurd hlock (by decide)
  | handler hpc h =>
      cases h with
      | clear | closeListen =>
          refine ⟨hs.main, hs.worker, hs.thread, ?_⟩
          rintro u pc hu hlock
          obtain ⟨-, rfl⟩ := Prod.mk.inj (Option.some.inj hu)
          exact absurd hlock (by decide)
      -- the mutex is free, so no thread is inside
      | lock hfree =>
          have hout : ∀ u, (s.pc u).locks = false := by
            intro u
            rw [Bool.eq_false_iff]
            intro hu
            rw [hs.thread u hu] at hfree
            exact absurd hfree (by simp)
          refine ⟨hs.main, hs.worker, fun u hu => ?_, ?_⟩
          · rw [hout u] at hu
            exact absurd hu (by decide)
          · rintro u pc hu -
            obtain ⟨rfl, -⟩ := Prod.mk.inj (Option.some.inj hu)
            exact ⟨rfl, hout _⟩
      | broadcast =>
          obtain ⟨hheld, hout⟩ := hs.handler _ _ hpc rfl
          refine ⟨hs.main, hs.worker, hs.thread, ?_⟩
          rintro u pc hu -
          obtain ⟨rfl, -⟩ := Prod.mk.inj (Option.some.inj hu)
          exact ⟨hheld, hout⟩
      -- the handler had the mutex, so again no thread is inside
      | unlock =>
          obtain ⟨hheld, hout⟩ := hs.handler _ _ hpc rfl
          refine ⟨hs.main, hs.worker, fun u hu => ?_, fun u pc hu => absurd hu (by simp)⟩
          have hu' := hs.thread u hu
          rw [hheld] at hu'
          obtain rfl := Option.some.inj hu'
          rw [hout] at hu
          exact absurd hu (by decide)

/-- Two threads are not inside together: this is what the mutex is for. -/
theorem Locked.unique (hs : Locked s) {t u : Thread} (ht : (s.pc t).locks = true)
    (hu : (s.pc u).locks = true) : t = u :=
  Option.some.inj ((hs.thread t ht).symm.trans (hs.thread u hu))

end Locked

/-! ## What is lost, and what is left -/

/-- The descriptor `queue_push` forgets in a step: the first of the two ways in which a connection
is lost. -/
def lost (s : State) : Actor → List ℤ
  | .thread t => lostAt (s.pc t) s.toShared
  | _ => []

/-- What `queue_push` has forgotten in a run, descriptor by descriptor. With the queue, the
threads' own descriptors and the closed ones it makes up everything that was accepted. -/
def lostIn (trace : List (State × Actor)) : List ℤ :=
  trace.flatMap fun p => lost p.1 p.2

/-- Every worker has returned, so nobody is left to take a descriptor out of the queue. `main` may
still be running. -/
def AllReturned (s : State) : Prop :=
  ∀ i, s.pc (.worker i) = .returned

/-- Something is stored, or `queue_push` is past its test and will store something. -/
def Pending (s : State) : Prop :=
  s.queue.count ≠ 0 ∨ ∃ d, s.pc .main = .pushStore d

/-- The last worker stops at its loop condition, with something pending. -/
def Abandons (s : State) : Actor → Prop
  | .thread (.worker i) => s.pc (.worker i) = .workerTest ∧ s.server_running = false
      ∧ (∀ j, j ≠ i → s.pc (.worker j) = .returned) ∧ Pending s
  | _ => False

/-- What holds in every state of a run with this trace. -/
structure Inv (trace : List (State × Actor)) (s : State) : Prop where
  locked : Locked s
  queue : Represents s.queue (stored s.queue)
  nonneg : ∀ d ∈ s.accepted, 0 ≤ d
  room : ∀ t d, (s.pc t = .pushCheck d ∧ s.server_running = true) ∨ s.pc t = .pushStore d →
    s.queue.count < QUEUE_SIZE
  take : ∀ t, (s.pc t = .popCheck ∧ s.server_running = true) ∨ s.pc t = .popTake →
    s.queue.count ≠ 0
  stopping : ∀ t, (s.pc t).stopping = true → s.server_running = false
  drained : ∀ t, (s.pc t).drained = true → ¬ Pending s
  conserve : ∀ x, s.accepted.count x = (stored s.queue).count x
    + ∑ t, (s.pc t).carries.count x + s.closed.count x + (lostIn trace).count x
  abandoned : (∃ p ∈ trace, Abandons p.1 p.2) ↔ AllReturned s ∧ Pending s

/-- One thread moves, and the sum over the threads with it. -/
theorem sum_update (f : Pc → ℕ) (pcs : Thread → Pc) (t : Thread) (pc : Pc) :
    ∑ u, f (Function.update pcs t pc u) + f (pcs t) = ∑ u, f (pcs u) + f pc := by
  have hcomp : ∀ u, f (Function.update pcs t pc u) = Function.update (f ∘ pcs) t (f pc) u :=
    fun u => congrFun (Function.comp_update f pcs t pc) u
  have hold := Finset.sum_eq_add_sum_sdiff_singleton_of_mem (Finset.mem_univ t) (f ∘ pcs)
  rw [Finset.sum_congr rfl fun u _ => hcomp u, Finset.sum_update_of_mem (Finset.mem_univ t)]
  simp only [Function.comp_apply] at hold ⊢
  omega

/-- The invariant at the start: the queue is empty, nothing was accepted, and the trace is the
empty run. -/
theorem inv_start {q : connection_queue_t} (hsize : q.client_sockets.length = QUEUE_SIZE)
    (listen_sd : ℤ) : Inv [] (start q listen_sd) := by
  have hq := queue_init_spec hsize
  have hstored : stored (start q listen_sd).queue = [] := hq.stored_eq
  have hcarries : ∀ t, ((start q listen_sd).pc t).carries = [] := by
    intro t
    cases t <;> rfl
  refine ⟨locked_start q listen_sd, hstored ▸ hq, fun d hd => absurd hd List.not_mem_nil,
    ?_, ?_, ?_, ?_, ?_, ?_⟩
  -- nobody is past a test, on the way out, or back from a queue that was empty
  · intro t d h
    cases t <;> simp [start] at h
  · intro t h
    cases t <;> simp [start] at h
  · intro t h
    cases t <;> simp [start, Pc.stopping, Pc.drained] at h
  · intro t h
    cases t <;> simp [start, Pc.drained] at h
  · intro x
    have hsum : ∑ t, ((start q listen_sd).pc t).carries.count x = 0 :=
      Finset.sum_eq_zero fun t _ => by rw [hcarries, List.count_nil]
    rw [hstored, hsum]
    rfl
  · refine iff_of_false (by simp) fun h => ?_
    exact absurd (h.1 ⟨0, by decide⟩) (by simp [start])

section Steps

variable {trace : List (State × Actor)} {s s' : State} {a : Actor} {t : Thread} {pc : Pc}
  {sh : Shared}

/-- Whoever changes the queue is inside, so it stays as it is while another thread is. -/
theorem Line.queue_kept (h : Line t (s.pc t) s.toShared pc sh) (hs : Locked s) {u : Thread}
    (hu : (s.pc u).locks = true) (hne : u ≠ t) : sh.queue = s.queue := by
  rcases h.queue with heq | ⟨d, hpc, -⟩ | ⟨d, hpc, -⟩
  · exact heq
  · exact absurd (hs.unique hu (by rw [hpc]; rfl)) hne
  · exact absurd (hs.unique hu (by rw [hpc]; rfl)) hne

/-- After the stop nothing comes to the queue but what was past the test. -/
theorem Inv.pending_of_line (hi : Inv trace s) (h : Line t (s.pc t) s.toShared pc sh)
    (hrun : s.server_running = false)
    (hp : Pending { s with toShared := sh, pc := Function.update s.pc t pc }) : Pending s := by
  by_contra hno
  rw [Pending, not_or, not_ne_iff] at hno
  obtain ⟨hcount, hstore⟩ := hno
  rcases hp with hp | ⟨d, hp⟩
  -- something is stored: it was before, or the line has stored it, or one was left behind by a
  -- take
  · rcases h.queue with heq | ⟨d, hpc, -⟩ | ⟨d, hpc, -, -⟩
    · exact hp (by rw [← hcount]; exact congrArg _ heq)
    · cases t with
      | main => exact hstore ⟨d, hpc⟩
      | worker i =>
          have hcode := hi.locked.worker i
          rw [hpc] at hcode
          exact absurd hcode (by simp [Pc.ofMain])
    · exact hi.take t (Or.inr hpc) hcount
  -- `main` is past the test: the flag is cleared, so it was there before
  · dsimp only at hp
    cases t with
    | main =>
        rw [Function.update_self] at hp
        subst hp
        generalize hold : s.pc .main = old at h
        cases h with
        | pushGo h =>
            rw [hrun] at h
            exact absurd h (by decide)
    | worker i =>
        rw [Function.update_of_ne (by simp)] at hp
        exact hstore ⟨d, hp⟩

/-- Where `queue_push` stores, there is room, and something is stored afterwards. -/
theorem Inv.store (hi : Inv trace s) {d : ℤ} (hpc : s.pc t = .pushStore d) :
    ∃ q, push_store s.queue d = some q ∧ q.count ≠ 0 := by
  have hroom := hi.room t d (Or.inr hpc)
  have hcount := hi.queue.count
  obtain ⟨q, hrun, hq⟩ := push_store_spec hi.queue (by omega) d
  refine ⟨q, hrun, ?_⟩
  rw [hq.count, List.length_append, List.length_singleton]
  omega

/-- Where `queue_pop` takes, there is a descriptor, and it is one of those stored. -/
theorem Inv.front (hi : Inv trace s) (hpc : s.pc t = .popTake) :
    ∃ d q, pop_take s.queue = some (d, q) ∧ d ∈ stored s.queue := by
  have hcount := hi.take t (Or.inr hpc)
  have hq := hi.queue
  cases hl : stored s.queue with
  | nil =>
      rw [hl] at hq
      exact absurd hq.count hcount
  | cons d l =>
      rw [hl] at hq
      obtain ⟨q, hrun, -⟩ := pop_take_spec hq
      exact ⟨d, q, hrun, List.mem_cons_self⟩

/-- A worker that has returned takes no step, so only `main` is left to take one. -/
theorem AllReturned.eq_main (hall : AllReturned s) (h : Line t (s.pc t) s.toShared pc sh) :
    t = .main := by
  cases t with
  | main => rfl
  | worker i =>
      rw [hall i] at h
      nomatch h

/-- The queue is not empty after `queue_push` has stored, so what is stored when all workers are
gone is left behind. -/
theorem Inv.count_of_store (hi : Inv trace s) {d : ℤ} {q : connection_queue_t}
    (hpc : s.pc t = .pushStore d) (h : push_store s.queue d = some q) : q.count ≠ 0 := by
  obtain ⟨q', hrun, hcount⟩ := hi.store hpc
  rwa [Option.some.inj (h.symm.trans hrun)]

/-- What the workers have left behind stays: nobody but a worker takes something out of the queue.
-/
theorem Inv.pending_line (hi : Inv trace s) (hall : AllReturned s)
    (h : Line t (s.pc t) s.toShared pc sh) (hp : Pending s) :
    Pending { s with toShared := sh, pc := Function.update s.pc t pc } := by
  obtain rfl := hall.eq_main h
  rcases h.queue with heq | ⟨d, hpc, hstore⟩ | ⟨d, hpc, -, -⟩
  · rcases hp with hp | ⟨d, hp⟩
    · exact Or.inl fun h0 => hp (by rw [← h0]; exact congrArg _ heq.symm)
    · have hline := h
      rw [hp] at hline
      cases hline with
      | pushStore hstore => exact Or.inl (hi.count_of_store hp hstore)
  · exact Or.inl (hi.count_of_store hpc hstore)
  · have hmain := hi.locked.main
    rw [hpc] at hmain
    exact absurd hmain (by simp [Pc.ofMain])

/-- The stored descriptors have been accepted. -/
theorem Inv.stored_nonneg (hi : Inv trace s) : ∀ d ∈ stored s.queue, 0 ≤ d := by
  intro d hd
  have hcons := hi.conserve d
  have hpos := List.count_pos_iff.mpr hd
  exact hi.nonneg d (List.count_pos_iff.mp (by omega))

/-- `queue_pop` returns `-1`, or what has been stored; and what it takes out has been accepted, so
it is no error value. -/
theorem Inv.popped_nonneg (hi : Inv trace s) {d : ℤ}
    (h : Line t (s.pc t) s.toShared (.popUnlock d) sh) (hpc : s.pc t = .popTake) : 0 ≤ d := by
  obtain ⟨d', q, hrun, hmem⟩ := hi.front hpc
  rw [hpc] at h
  cases h with
  | popTake hpop =>
      obtain ⟨rfl, -⟩ := Prod.mk.inj (Option.some.inj (hpop.symm.trans hrun))
      exact hi.stored_nonneg _ hmem

/-- Where a thread has found the queue empty, it is, and stays so. -/
theorem Inv.drained_line (hi : Inv trace s) (h : Line t (s.pc t) s.toShared pc sh)
    (hpc : pc.drained = true) : ¬ Pending s := by
  have hline := h
  generalize hold : s.pc t = old at h
  cases h with
  | popDrained hrun hcount =>
      rw [Pending, not_or, not_ne_iff]
      refine ⟨hcount, ?_⟩
      rintro ⟨d, hmain⟩
      have hlocks : (s.pc t).locks = true := by rw [hold]; rfl
      obtain rfl := hi.locked.unique (by rw [hmain]; rfl) hlocks
      rw [hold] at hmain
      exact absurd hmain (by simp)
  | popTake hpop =>
      have hnonneg := hi.popped_nonneg hline hold
      exact absurd hpc (by simpa [Pc.drained] using hnonneg)
  | popUnlock => exact hi.drained t (by rw [hold]; exact hpc)
  | _ => exact absurd hpc (by simp [Pc.drained])

/-- The last worker to leave, and how. -/
theorem Inv.abandons_line (hi : Inv trace s) (hsome : ¬ AllReturned s)
    (h : Line t (s.pc t) s.toShared pc sh) :
    Abandons s (.thread t) ↔ AllReturned { s with toShared := sh, pc := Function.update s.pc t pc }
      ∧ Pending { s with toShared := sh, pc := Function.update s.pc t pc } := by
  have hne : ∀ i j : Fin NUM_WORKERS, j ≠ i → Thread.worker j ≠ .worker i := by simp
  -- all have returned exactly if this one just did and the others had
  have hothers : ∀ i, t = .worker i → (AllReturned
      { s with toShared := sh, pc := Function.update s.pc t pc }
        ↔ pc = .returned ∧ ∀ j, j ≠ i → s.pc (.worker j) = .returned) := by
    rintro i rfl
    constructor
    · intro hall
      refine ⟨by simpa using hall i, fun j hj => ?_⟩
      simpa [Function.update_of_ne (hne i j hj)] using hall j
    · rintro ⟨rfl, hall⟩ j
      rcases eq_or_ne j i with rfl | hj
      · exact Function.update_self ..
      · dsimp only
        rw [Function.update_of_ne (hne i j hj)]
        exact hall j hj
  cases t with
  -- `main` is no worker
  | main =>
      refine iff_of_false id fun hall => hsome fun i => ?_
      simpa using hall.1 i
  | worker i =>
      rw [hothers i rfl]
      constructor
      -- the loop condition is the line, and it fails after the stop
      · rintro ⟨htest, hrun, hall, hp⟩
        rw [htest] at h
        cases h with
        | workerRun h =>
            rw [hrun] at h
            exact absurd h (by decide)
        | workerStop => exact ⟨⟨rfl, hall⟩, by simpa [Pending] using hp⟩
      -- the other way to return is the `break`, which finds the queue empty
      · rintro ⟨⟨rfl, hall⟩, hp⟩
        generalize hold : s.pc (.worker i) = old at h
        cases h with
        | workerStop h => exact ⟨hold, h, hall, by simpa [Pending] using hp⟩
        | workerBreak h =>
            refine absurd ?_ (hi.drained (.worker i) (by simpa [hold, Pc.drained] using h))
            simpa [Pending] using hp

/-- A line keeps the room behind the test of `queue_push`. For the thread that moves this is what
the line has just tested; for another one it holds because the thread past its test has the mutex,
so the line cannot have touched the queue. -/
theorem Inv.room_line (hi : Inv trace s) (h : Line t (s.pc t) s.toShared pc sh) {u : Thread}
    {d : ℤ} (hu : (Function.update s.pc t pc u = .pushCheck d ∧ sh.server_running = true)
      ∨ Function.update s.pc t pc u = .pushStore d) : sh.queue.count < QUEUE_SIZE := by
  rw [h.running] at hu
  rcases eq_or_ne u t with rfl | hne
  · rw [Function.update_self] at hu
    obtain ⟨heq, ⟨d', hpc, hrun⟩ | hroom⟩ := h.room hu
    · exact heq ▸ hi.room u d' (Or.inl ⟨hpc, hrun⟩)
    · have hlen := hi.queue.length_le
      have hcount := hi.queue.count
      rw [heq]
      omega
  · rw [Function.update_of_ne hne] at hu
    have hlock : (s.pc u).locks = true := by
      rcases hu with ⟨hu, -⟩ | hu
      · rw [hu]; rfl
      · rw [hu]; rfl
    exact h.queue_kept hi.locked hlock hne ▸ hi.room u d hu

/-- The same at the other end: a worker past the test of `queue_pop` finds a descriptor when it
comes to take it. The worker holds the mutex from the test on. -/
theorem Inv.take_line (hi : Inv trace s) (h : Line t (s.pc t) s.toShared pc sh) {u : Thread}
    (hu : (Function.update s.pc t pc u = .popCheck ∧ sh.server_running = true)
      ∨ Function.update s.pc t pc u = .popTake) : sh.queue.count ≠ 0 := by
  rw [h.running] at hu
  rcases eq_or_ne u t with rfl | hne
  · rw [Function.update_self] at hu
    obtain ⟨heq, hpc | hsome⟩ := h.some hu
    · exact heq ▸ hi.take u (Or.inl hpc)
    · rwa [heq]
  · rw [Function.update_of_ne hne] at hu
    have hlock : (s.pc u).locks = true := by
      rcases hu with ⟨hu, -⟩ | hu
      · rw [hu]; rfl
      · rw [hu]; rfl
    exact h.queue_kept hi.locked hlock hne ▸ hi.take u hu

/-- A thread on its way out of the server has seen `server_running` cleared. A worker also leaves
for a negative descriptor, and `Inv.popped_nonneg` says that `queue_pop` returns one only after the
signal. -/
theorem Inv.stopping_line (hi : Inv trace s) (h : Line t (s.pc t) s.toShared pc sh) {u : Thread}
    (hu : (Function.update s.pc t pc u).stopping = true) : s.server_running = false := by
  rcases eq_or_ne u t with rfl | hne
  · rw [Function.update_self] at hu
    rcases h.stopping hu (fun d hpc hd => hi.popped_nonneg (hd ▸ h) hpc) with hold | hrun
    · exact hi.stopping u hold
    · exact hrun
  · rw [Function.update_of_ne hne] at hu
    exact hi.stopping u hu

/-- A worker that has found the queue empty after the stop has seen the flag. -/
theorem Pc.stopping_of_drained {pc : Pc} (h : pc.drained = true) : pc.stopping = true := by
  cases pc with
  | popUnlock d | popped d => exact h
  | _ => exact absurd h (by simp [Pc.drained])

/-- A line leaves something behind exactly if it is the return of the last worker while a
descriptor is pending. This is the clause of the invariant that speaks of the whole trace; the
cases are whether the workers are gone before the line. -/
theorem Inv.abandoned_line (hi : Inv trace s) (h : Line t (s.pc t) s.toShared pc sh) :
    (∃ p ∈ trace ++ [(s, .thread t)], Abandons p.1 p.2)
      ↔ AllReturned { s with toShared := sh, pc := Function.update s.pc t pc }
        ∧ Pending { s with toShared := sh, pc := Function.update s.pc t pc } := by
  simp only [List.mem_append, List.mem_singleton, or_and_right, exists_or, exists_eq_left]
  by_cases hall : AllReturned s
  -- only `main` is left
  · obtain rfl := hall.eq_main h
    have hrun := hi.stopping (.worker ⟨0, by decide⟩) (by rw [hall]; rfl)
    rw [hi.abandoned, or_iff_left (show ¬ Abandons s (.thread .main) from id)]
    constructor
    · rintro ⟨-, hp⟩
      exact ⟨fun i => by simpa using hall i, hi.pending_line hall h hp⟩
    · rintro ⟨-, hp⟩
      exact ⟨hall, hi.pending_of_line h hrun hp⟩
  · rw [← hi.abandons_line hall h, or_iff_right]
    exact fun hex => hall (hi.abandoned.mp hex).1

/-- One line of one thread keeps the invariant. The clauses about the other threads are the `_line`
lemmas above, the one about the trace is `Inv.abandoned_line`. -/
theorem Inv.line (hi : Inv trace s) (hrun : ∀ h, s.handler ≠ some (t, h))
    (h : Line t (s.pc t) s.toShared pc sh) :
    Inv (trace ++ [(s, .thread t)]) { s with toShared := sh, pc := Function.update s.pc t pc } := by
  obtain ⟨l, hl, hbalance⟩ := h.balance hi.queue
    (fun d hpc => by have := hi.room t d (Or.inr hpc); have := hi.queue.count; omega)
    (fun hpc hnil => hi.take t (Or.inr hpc) (by rw [hi.queue.count, hnil]; rfl)) hi.stored_nonneg
  have hstored := hl.stored_eq
  refine ⟨hi.locked.line hrun h, hstored.symm ▸ hl, h.accepted_nonneg hi.nonneg,
    fun u d hu => hi.room_line h hu, fun u hu => hi.take_line h hu,
    fun u hu => h.running.trans (hi.stopping_line h hu), ?_, ?_, hi.abandoned_line h⟩
  -- `drained`: nothing can be pending after the stop that was not before
  · intro u hu hp
    refine absurd (hi.pending_of_line h (hi.stopping_line h (Pc.stopping_of_drained hu)) hp) ?_
    dsimp only at hu
    rcases eq_or_ne u t with rfl | hne
    · rw [Function.update_self] at hu
      exact hi.drained_line h hu
    · rw [Function.update_of_ne hne] at hu
      exact hi.drained u hu
  -- `conserve`: what the thread has lost, the queue or the closed ones have gained
  · intro x
    have hcons := hi.conserve x
    have hsum := sum_update (fun pc => pc.carries.count x) s.pc t pc
    have hb := hbalance x
    rw [lostIn, List.flatMap_append, List.count_append, ← lostIn, List.flatMap_cons,
      List.flatMap_nil, List.append_nil, hstored]
    simp only [lost]
    omega

/-- The signal and its handler touch neither the queue nor the threads' lines. -/
theorem Inv.quiet (hi : Inv trace s) (hlocked : Locked s') (hpc : s'.pc = s.pc)
    (hqueue : s'.queue = s.queue) (hacc : s'.accepted = s.accepted)
    (hclosed : s'.closed = s.closed)
    (hflag : s'.server_running = true → s.server_running = true) (hlost : lost s a = [])
    (hkept : ¬ Abandons s a) : Inv (trace ++ [(s, a)]) s' := by
  -- what is pending does not change either
  have hpending : Pending s' ↔ Pending s := by
    rw [Pending, Pending, hpc, hqueue]
  refine ⟨hlocked, hqueue ▸ hi.queue, hacc ▸ hi.nonneg, ?_, ?_, ?_, ?_, ?_, ?_⟩
  · intro t d h
    rw [hqueue]
    exact hi.room t d (by rw [← hpc]; exact h.imp_left (And.imp_right hflag))
  · intro t h
    rw [hqueue]
    exact hi.take t (by rw [← hpc]; exact h.imp_left (And.imp_right hflag))
  · intro t h
    rw [Bool.eq_false_iff]
    intro hrun
    rw [hi.stopping t (hpc ▸ h)] at hflag
    exact absurd (hflag hrun) (by decide)
  · intro t h
    rw [hpending]
    exact hi.drained t (hpc ▸ h)
  · intro x
    rw [lostIn, List.flatMap_append, List.count_append, ← lostIn, List.flatMap_cons,
      List.flatMap_nil, List.append_nil, hlost, List.count_nil, hacc, hqueue, hclosed, hpc]
    exact hi.conserve x
  · simp only [List.mem_append, List.mem_singleton, or_and_right, exists_or, exists_eq_left]
    rw [or_iff_left hkept, hi.abandoned, hpending, AllReturned, AllReturned, hpc]

/-- Every step keeps the invariant. The handler and the delivery of the signal leave the queue and
the threads alone, so only a line of a thread has something to prove. -/
theorem Inv.step (hi : Inv trace s) (h : Step s a s') : Inv (trace ++ [(s, a)]) s' := by
  have hlocked := hi.locked.step h
  cases h with
  | thread hrun h => exact hi.line hrun h
  | deliver => exact hi.quiet hlocked rfl rfl rfl rfl id rfl id
  | handler _ h =>
      cases h with
      | clear => exact hi.quiet hlocked rfl rfl rfl rfl (fun h => absurd h (by simp)) rfl id
      | closeListen | lock | broadcast | unlock => exact hi.quiet hlocked rfl rfl rfl rfl id rfl id

end Steps

/-- No thread fails inside: the queue has room where `queue_push` stores, and a descriptor
where `queue_pop` takes one. -/
theorem sections_defined {q : connection_queue_t} {listen_sd : ℤ} {s : State}
    (hsize : q.client_sockets.length = QUEUE_SIZE) (h : Reachable Step (start q listen_sd) s)
    (t : Thread) :
    (∀ d, s.pc t = .pushStore d → (push_store s.queue d).isSome)
      ∧ (s.pc t = .popTake → (pop_take s.queue).isSome) := by
  obtain ⟨trace, hrun⟩ := h
  have hi : Inv trace s := hrun.invariant Inv (inv_start hsize listen_sd)
    fun _ _ _ _ hi hstep => hi.step hstep
  constructor
  · intro d hpc
    obtain ⟨q', hstore, -⟩ := hi.store hpc
    rw [hstore, Option.isSome_some]
  · intro hpc
    obtain ⟨d, q', htake, -⟩ := hi.front hpc
    rw [htake, Option.isSome_some]

/-! ## Shutdown -/

/-- All workers have returned and `main` has left its accept loop. -/
def Stopped (s : State) : Prop :=
  AllReturned s ∧ (s.pc .main = .stopLock ∨ s.pc .main = .stopUnlock ∨ s.pc .main = .join)

/-- The queue is empty, and every descriptor has been closed as often as `accept` has
returned it, which it does only while the descriptor is not open. -/
def Clean (s : State) : Prop :=
  s.queue.count = 0 ∧ ∀ d, s.closed.count d = s.accepted.count d

/-- A step in which the server forgets a connection, in one of the two ways there are: `queue_push`
drops it, or the last worker leaves it. -/
def Forgets (s : State) (a : Actor) : Prop :=
  lost s a ≠ [] ∨ Abandons s a

/-- **When a shutdown loses no connection**: exactly in the runs without a step of the two
kinds that forget one. -/
theorem clean_iff {q : connection_queue_t} {listen_sd : ℤ} {trace : List (State × Actor)}
    {s : State} (hsize : q.client_sockets.length = QUEUE_SIZE)
    (h : Run Step (start q listen_sd) trace s) (hstop : Stopped s) :
    Clean s ↔ ∀ p ∈ trace, ¬ Forgets p.1 p.2 := by
  have hi : Inv trace s := h.invariant Inv (inv_start hsize listen_sd)
    fun _ _ _ _ hi hstep => hi.step hstep
  obtain ⟨hall, hmain⟩ := hstop
  -- nobody has a descriptor in hand
  have hcarries : ∀ x, ∑ t, (s.pc t).carries.count x = 0 := by
    refine fun x => Finset.sum_eq_zero fun t _ => ?_
    cases t with
    | main => rcases hmain with hpc | hpc | hpc <;> rw [hpc] <;> rfl
    | worker i => rw [hall i]; rfl
  have hpending : Pending s ↔ s.queue.count ≠ 0 := by
    rw [Pending, or_iff_left]
    rintro ⟨d, hpc⟩
    rcases hmain with hm | hm | hm <;> rw [hm] at hpc <;> exact absurd hpc (by simp)
  have habandoned := hi.abandoned
  rw [hpending, and_iff_right hall] at habandoned
  have hlost : (∀ p ∈ trace, lost p.1 p.2 = []) ↔ lostIn trace = [] :=
    List.flatMap_eq_nil_iff.symm
  constructor
  · rintro ⟨hcount, hclosed⟩ p hp hforgets
    have hnil : stored s.queue = [] :=
      List.length_eq_zero_iff.mp (by have := hi.queue.count; omega)
    have hnone : lostIn trace = [] := by
      refine List.eq_nil_iff_forall_not_mem.mpr fun d hd => ?_
      have hpos := List.count_pos_iff.mpr hd
      have hcons := hi.conserve d
      rw [hnil, List.count_nil, hcarries, ← hclosed] at hcons
      omega
    rcases hforgets with hl | hab
    · exact hl (hlost.mpr hnone p hp)
    · exact habandoned.mp ⟨p, hp, hab⟩ hcount
  · intro hgood
    have hcount : s.queue.count = 0 := by
      by_contra hne
      obtain ⟨p, hp, hab⟩ := habandoned.mpr hne
      exact hgood p hp (Or.inr hab)
    refine ⟨hcount, fun d => ?_⟩
    have hnil : stored s.queue = [] :=
      List.length_eq_zero_iff.mp (by have := hi.queue.count; omega)
    have hnone := hlost.mp fun p hp => not_not.mp fun hl => hgood p hp (Or.inl hl)
    have hcons := hi.conserve d
    rw [hnil, hnone, List.count_nil, hcarries] at hcons
    omega

/-- The queue of a server that has just been started. -/
def emptyQueue : connection_queue_t :=
  { client_sockets := List.replicate QUEUE_SIZE 0, head := 0, tail := 0, count := 0 }

/-- Outside the handler every thread may move, which the run below needs at every line. -/
theorem idle {s : State} (t : Thread) (h : s.handler = none) :
    ∀ hpc, s.handler ≠ some (t, hpc) := by
  simp [h]

/-- A signal that arrives between `accept` and `queue_push`, in one thread or another. -/
theorem exists_lost_connection :
    ∃ trace s, Run Step (start emptyQueue 3) trace s ∧ Stopped s
      ∧ s.accepted = [4] ∧ s.closed = [] := by
  -- `main` comes back from `accept` with descriptor `4`
  have accept := (((Run.refl : Run Step (start emptyQueue 3) [] _).snoc
    (.thread (idle .main rfl) (.acceptRun rfl))).snoc (.thread (idle .main rfl) .acceptCall)).snoc
    (.thread (idle .main rfl) (.accepted 4 (by decide) (by decide) (by decide) rfl))
  -- the signal comes and is handled
  have signal := (((((accept.snoc (@Step.deliver _ .main (by simp) rfl)).snoc
    (.handler rfl .clear)).snoc (.handler rfl .closeListen)).snoc (.handler rfl (.lock rfl))).snoc
    (.handler rfl .broadcast)).snoc (.handler rfl .unlock)
  -- `queue_push` sees the flag and forgets the descriptor
  have push := ((((signal.snoc
    (.thread (idle .main rfl) (.pushLock rfl))).snoc
    (.thread (idle .main rfl) (.pushRoom rfl))).snoc
    (.thread (idle .main rfl) (.pushReturn rfl))).snoc
    (.thread (idle .main rfl) .pushUnlock)).snoc
    (.thread (idle .main rfl) (.acceptStop rfl))
  -- and the five workers return
  have workers := ((((push.snoc
    (.thread (idle (.worker ⟨0, by decide⟩) rfl) (.workerStop rfl))).snoc
    (.thread (idle (.worker ⟨1, by decide⟩) rfl) (.workerStop rfl))).snoc
    (.thread (idle (.worker ⟨2, by decide⟩) rfl) (.workerStop rfl))).snoc
    (.thread (idle (.worker ⟨3, by decide⟩) rfl) (.workerStop rfl))).snoc
    (.thread (idle (.worker ⟨4, by decide⟩) rfl) (.workerStop rfl))
  refine ⟨_, _, workers, ⟨?_, Or.inl rfl⟩, rfl, rfl⟩
  rintro ⟨i, hi⟩
  rw [NUM_WORKERS] at hi
  interval_cases i <;> rfl

/-- Descriptor `4` was accepted and is closed nowhere, so the end of that run is not clean. -/
theorem not_clean {s : State} (hacc : s.accepted = [4]) (hclosed : s.closed = []) : ¬ Clean s := by
  rintro ⟨-, h⟩
  have h4 := h 4
  rw [hacc, hclosed] at h4
  exact absurd h4 (by decide)

/-- In that run a connection is forgotten. -/
theorem clean_iff_lost :
    ∃ trace s, Run Step (start emptyQueue 3) trace s ∧ Stopped s
      ∧ ∃ p ∈ trace, Forgets p.1 p.2 := by
  obtain ⟨trace, s, hrun, hstop, hacc, hclosed⟩ := exists_lost_connection
  refine ⟨trace, s, hrun, hstop, ?_⟩
  by_contra hno
  push Not at hno
  exact not_clean hacc hclosed ((clean_iff List.length_replicate hrun hstop).mpr hno)

/-- So the shutdown is not clean in every run. -/
theorem not_always_clean :
    ¬ ∀ (q : connection_queue_t) (listen_sd : ℤ) (trace : List (State × Actor)) (s : State),
      q.client_sockets.length = QUEUE_SIZE → Run Step (start q listen_sd) trace s → Stopped s →
        Clean s := by
  intro h
  obtain ⟨trace, s, hrun, hstop, hacc, hclosed⟩ := exists_lost_connection
  exact not_clean hacc hclosed (h _ _ trace s List.length_replicate hrun hstop)

end CourseLabs.Server
