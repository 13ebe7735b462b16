/-
`server.c`: how the server comes to a stop, and that its shutdown ends.

A thread of this server can be kept from moving in four ways. Three are its own: it is
asleep at a condition, in front of the mutex, or below a handler. The fourth is not. An
`accept`, a `recv` or a `send` returns when a peer, or the system, lets it, which may be
never: closing the listening socket in the handler need not wake an `accept` on another
thread, and a client that sends nothing keeps its worker in `recv`. So a state is `Halted`
when no move is left but the return of such a call.

There are three kinds of halted states and no other (`halted_cases`): the server has
finished; somebody is inside a call, and everybody else has ended or waits for work, with a
reason; or the handler waits for the mutex of the thread it runs on, the one deadlock of
`SignalHandler`.

Once the handler has returned nobody sleeps and nobody goes to sleep, so every line brings
its thread closer to its end. `Pc.rank` counts the lines left, and their sum bounds every
run. What keeps the server from finishing then is a call that does not return, and nothing
else (`shutdown_ends`).
-/
import CourseLabs.Wakeups
import Mathlib.Algebra.Order.BigOperators.Group.Finset

set_option autoImplicit false

namespace CourseLabs.Server

open CourseLabs.ConnectionQueue CourseLabs.Transition

/-! ## Where nothing moves -/

/-- The thread is inside a call of the system that waits for a peer. -/
def Pc.calls : Pc → Bool
  | .accept _ | .recv _ | .send _ => true
  | _ => false

/-- Nothing moves by itself: a move the program could still make is the return of an `accept`,
a `recv` or a `send`, which may keep its thread for ever. -/
def Halted (s : World) : Prop :=
  ∀ e t, e.ofProgram = true → Moves s e t →
    ∃ u, e = .step (.thread u) ∧ (s.pc u).calls = true

section Halting

variable {s s' : World} {t : Thread} {pc : Pc} {sh : Shared}

theorem Halted.handler (hhalt : Halted s) : ¬ Moves s (.step .handler) s' := by
  intro hmove
  obtain ⟨u, heq, -⟩ := hhalt _ _ rfl hmove
  cases heq

/-- A thread inside a call is outside the critical sections, and at none of its ends. -/
theorem Pc.calls_spec (h : pc.calls = true) :
    pc.locks = false ∧ pc.cond = none ∧ pc.pops = false ∧ pc ≠ .join ∧ pc ≠ .returned := by
  cases pc <;> simp [Pc.calls, Pc.locks, Pc.cond, Pc.pops] at h ⊢

/-- A thread that has not ended, and that neither sleeps nor waits for the mutex, has a next
line. -/
theorem line_exists (t : Thread) (hjoin : pc ≠ .join) (hret : pc ≠ .returned)
    (hfree : pc.locks = true ∨ sh.mutex = none)
    (hstore : ∀ d, pc = .pushStore d → (push_store sh.queue d).isSome)
    (htake : pc = .popTake → (pop_take sh.queue).isSome) :
    ∃ pc' sh', Line t pc sh pc' sh' := by
  -- a line that takes the mutex begins outside it, so the mutex is free
  have hunlocked : pc.locks = false → sh.mutex = none := by
    intro hpc
    rcases hfree with hlocks | hnone
    · rw [hpc] at hlocks
      cases hlocks
    · exact hnone
  cases pc with
  | acceptTest =>
      cases hr : sh.server_running with
      | true => exact ⟨_, _, .acceptRun hr⟩
      | false => exact ⟨_, _, .acceptStop hr⟩
  -- the calls can return in either way; one of the two is enough here
  | acceptCall => exact ⟨_, _, .acceptCall⟩
  | accept d => exact ⟨_, _, .acceptFailed⟩
  | acceptError =>
      cases hr : sh.server_running with
      | true => exact ⟨_, _, .errorContinue hr⟩
      | false => exact ⟨_, _, .errorBreak hr⟩
  | pushLock d => exact ⟨_, _, .pushLock (hunlocked rfl)⟩
  | pushFull d =>
      cases hw : push_waits sh.server_running sh.queue with
      | true => exact ⟨_, _, .pushFull hw⟩
      | false => exact ⟨_, _, .pushRoom hw⟩
  | pushWait d => exact ⟨_, _, .pushWake (hunlocked rfl)⟩
  | pushCheck d =>
      cases hr : sh.server_running with
      | true => exact ⟨_, _, .pushGo hr⟩
      | false => exact ⟨_, _, .pushReturn hr⟩
  -- the index is inside the array by the invariant of the queue
  | pushStore d =>
      obtain ⟨q, hq⟩ := Option.isSome_iff_exists.mp (hstore d rfl)
      exact ⟨_, _, .pushStore hq⟩
  | pushUnlock => exact ⟨_, _, .pushUnlock⟩
  | stopLock => exact ⟨_, _, .stopLock (hunlocked rfl)⟩
  | stopUnlock => exact ⟨_, _, .stopUnlock⟩
  | join => exact absurd rfl hjoin
  | workerTest =>
      cases hr : sh.server_running with
      | true => exact ⟨_, _, .workerRun hr⟩
      | false => exact ⟨_, _, .workerStop hr⟩
  | popLock => exact ⟨_, _, .popLock (hunlocked rfl)⟩
  | popEmpty =>
      cases hw : pop_waits sh.server_running sh.queue with
      | true => exact ⟨_, _, .popEmpty hw⟩
      | false => exact ⟨_, _, .popAny hw⟩
  | popWait => exact ⟨_, _, .popWake (hunlocked rfl)⟩
  | popCheck =>
      by_cases hgo : sh.server_running = false ∧ sh.queue.count = 0
      · exact ⟨_, _, .popDrained hgo.1 hgo.2⟩
      · exact ⟨_, _, .popGo hgo⟩
  | popTake =>
      obtain ⟨⟨d, q⟩, hq⟩ := Option.isSome_iff_exists.mp (htake rfl)
      exact ⟨_, _, .popTake hq⟩
  | popUnlock d => exact ⟨_, _, .popUnlock⟩
  | popped d =>
      rcases lt_or_ge d 0 with hd | hd
      · exact ⟨_, _, .workerBreak hd⟩
      · exact ⟨_, _, .workerServe hd⟩
  | recv d => exact ⟨_, _, .recvNothing⟩
  | send d => exact ⟨_, _, .send⟩
  | close d => exact ⟨_, _, .close⟩
  | returned => exact absurd rfl hret

theorem signal_exists (c : Cond) (pcs : Thread → Pc) (A : Finset Thread) :
    ∃ B, Signal c pcs A B := by
  by_cases hsome : ∃ u ∈ A, (pcs u).cond = some c
  · obtain ⟨u, hu, hc⟩ := hsome
    refine ⟨A.erase u, Finset.erase_subset u A, fun v hv hvu => ?_, fun _ _ _ => ?_⟩
    · have heq : v = u := by
        by_contra hne
        exact hvu (Finset.mem_erase.mpr ⟨hne, hv⟩)
      rwa [heq]
    · exact ⟨u, hu, Finset.notMem_erase u A⟩
  · refine ⟨A, subset_rfl, fun v hv hvA => absurd hv hvA, fun u hu hc => ?_⟩
    exact absurd ⟨u, hu, hc⟩ hsome

theorem sleeps_exists {pcs : Thread → Pc} {A : Finset Thread} (hawake : t ∉ A) :
    ∃ B, Sleeps t pcs pc A B := by
  by_cases hcond : pc.cond = none
  · cases hsig : (pcs t).signals with
    | some c =>
        obtain ⟨B, hB⟩ := signal_exists c pcs A
        exact ⟨B, .signal hawake hsig hB⟩
    | none =>
        by_cases hstop : pcs t = .stopUnlock
        · exact ⟨_, .broadcast hawake hstop⟩
        · exact ⟨A, .quiet hawake hcond hsig hstop⟩
  · exact ⟨_, .wait hawake hcond⟩

/-- Where nothing moves, a thread below no handler is inside a call, has ended, sleeps, or waits
for the mutex. -/
theorem Halted.thread {trace : List (State × Actor)} (hhalt : Halted s)
    (hi : Inv trace s.toState) (hrun : ∀ h, s.handler ≠ some (t, h)) (hawake : t ∉ s.asleep)
    (hfree : (s.pc t).locks = true ∨ s.mutex = none) :
    (s.pc t).calls = true ∨ s.pc t = .join ∨ s.pc t = .returned := by
  by_contra hno
  rw [not_or, not_or] at hno
  obtain ⟨hcalls, hjoin, hret⟩ := hno
  have hstore : ∀ d, s.pc t = .pushStore d → (push_store s.queue d).isSome := by
    intro d hpc
    obtain ⟨q, hq, -⟩ := hi.store hpc
    exact Option.isSome_iff_exists.mpr ⟨q, hq⟩
  have htake : s.pc t = .popTake → (pop_take s.queue).isSome := by
    intro hpc
    obtain ⟨d, q, hq, -⟩ := hi.front hpc
    exact Option.isSome_iff_exists.mpr ⟨(d, q), hq⟩
  obtain ⟨pc', sh', hline⟩ := line_exists t hjoin hret hfree hstore htake
  obtain ⟨B, hB⟩ : ∃ B, Sleeps t s.pc pc' s.asleep B := sleeps_exists hawake
  -- its next line is a move, and by assumption not the return of a call
  obtain ⟨u, heq, hu⟩ := hhalt _ _ rfl (.thread hrun hline hB)
  cases heq
  exact hcalls hu

/-- `main` waits for nobody any more and the workers have returned. -/
def Finished (s : World) : Prop :=
  s.pc .main = .join ∧ AllReturned s.toState ∧ s.handler = none

/-- The server waits for its peers. Somebody is inside a call, and everybody else is too, or has
ended, or sleeps for a reason: `main` on a full queue, a worker on an empty one, and nobody
once the handler has returned. -/
structure Waiting (s : World) : Prop where
  handler : s.handler = none
  mutex : s.mutex = none
  some : ∃ t, (s.pc t).calls = true
  each : ∀ t, (s.pc t).calls = true ∨ t ∈ s.asleep ∨ s.pc t = .join ∨ s.pc t = .returned
  full : .main ∈ s.asleep → s.queue.count = QUEUE_SIZE
  empty : (∃ i, .worker i ∈ s.asleep) → s.queue.count = 0
  stopped : s.delivered = true → s.asleep = ∅

/-- A thread inside a critical section has a next line, unless the handler is on top of it. -/
theorem Halted.owner {trace : List (State × Actor)} (hhalt : Halted s) (hs : Awake s)
    (hi : Inv trace s.toState) {u : Thread} (hlocks : (s.pc u).locks = true) :
    ∃ h, s.handler = some (u, h) := by
  by_contra hno
  push Not at hno
  have hawake : u ∉ s.asleep := by
    intro hmem
    have hcond := hs.waits u hmem
    generalize s.pc u = pc at hlocks hcond
    cases pc <;> simp [Pc.locks, Pc.cond] at hlocks hcond
  rcases hhalt.thread hi hno hawake (.inl hlocks) with hpc | hpc | hpc
  · rw [(Pc.calls_spec hpc).1] at hlocks
    cases hlocks
  all_goals
    rw [hpc] at hlocks
    cases hlocks

/-- A handler that does not move is in front of the lock, and the mutex is its thread's. -/
theorem Halted.selfDeadlock {trace : List (State × Actor)} (hhalt : Halted s) (hs : Awake s)
    (hi : Inv trace s.toState) (hh : Handling trace s.toState) {pc : HandlerPc}
    (hhandler : s.handler = some (t, pc)) : SelfDeadlock s.toState := by
  -- every line of the handler but the lock can be taken
  cases pc with
  | clear => exact absurd (.handler hhandler .clear) hhalt.handler
  | closeListen => exact absurd (.handler hhandler .closeListen) hhalt.handler
  | broadcast => exact absurd (.handler hhandler .broadcast) hhalt.handler
  | unlock => exact absurd (.handler hhandler .unlock) hhalt.handler
  | lock =>
      cases hm : s.mutex with
      | none => exact absurd (.handler hhandler (.lock hm)) hhalt.handler
      | some u =>
          have hlocks : (s.pc u).locks = true := by
            rcases hh.owner u hm with hlocks | ⟨pc, hpc, hlocks⟩
            · exact hlocks
            · rw [hhandler] at hpc
              cases hpc
              cases hlocks
          obtain ⟨h, hu⟩ := hhalt.owner hs hi hlocks
          rw [hhandler] at hu
          cases hu
          exact ⟨_, hhandler, hm⟩

/-- **Why nothing moves.** The server has finished, it waits for its peers, or the handler waits
for the thread it runs on. -/
theorem halted_finished_or {trace : List (State × Actor)} (hs : Awake s)
    (hi : Inv trace s.toState) (hh : Handling trace s.toState) (hhalt : Halted s) :
    Finished s ∨ Waiting s ∨ SelfDeadlock s.toState := by
  cases hhandler : s.handler with
  | some x => exact .inr (.inr (hhalt.selfDeadlock hs hi hh hhandler))
  | none =>
      have hrun : ∀ t h, s.handler ≠ some (t, h) := by simp [hhandler]
      have hfree : s.mutex = none := by
        cases hm : s.mutex with
        | none => rfl
        | some u =>
            rcases hh.owner u hm with hlocks | ⟨pc, hpc, -⟩
            · obtain ⟨h, hu⟩ := hhalt.owner hs hi hlocks
              exact absurd hu (hrun u h)
            · exact absurd hpc (hrun u pc)
      have hended : ∀ t, t ∉ s.asleep →
          (s.pc t).calls = true ∨ s.pc t = .join ∨ s.pc t = .returned :=
        fun t hawake => hhalt.thread hi (hrun t) hawake (.inr hfree)
      have hstopped : s.server_running = false → s.asleep = ∅ :=
        fun hr => hs.stopped (hs.cleared hr) (.inl hhandler)
      -- nobody is on the way to the queue, so a worker sleeps on an empty one
      have hempty : engaged s.pc s.asleep = ∅ := by
        rw [Finset.eq_empty_iff_forall_notMem]
        intro u hu
        obtain ⟨hpops, hawake⟩ := mem_engaged.mp hu
        rcases hended u hawake with hpc | hpc | hpc
        · rw [(Pc.calls_spec hpc).2.2.1] at hpops
          cases hpops
        all_goals
          rw [hpc] at hpops
          cases hpops
      have hcount : (∃ i, .worker i ∈ s.asleep) → s.queue.count = 0 := by
        intro hworker
        have hle := hs.workers hworker
        rw [hempty, Finset.card_empty] at hle
        have hlen := hi.queue.count
        omega
      by_cases hcalls : ∃ t, (s.pc t).calls = true
      · refine .inr (.inl ⟨hhandler, hfree, hcalls, fun t => ?_, hs.full, hcount,
          fun hd => hs.stopped hd (.inl hhandler)⟩)
        by_cases hawake : t ∈ s.asleep
        · exact .inr (.inl hawake)
        · exact (hended t hawake).imp_right .inr
      · left
        have hdone : ∀ t, t ∉ s.asleep → s.pc t = .join ∨ s.pc t = .returned :=
          fun t hawake => (hended t hawake).resolve_left fun h => hcalls ⟨t, h⟩
        have hreturned : ∀ i, .worker i ∉ s.asleep → s.pc (.worker i) = .returned := by
          intro i hawake
          refine (hdone _ hawake).resolve_left fun hpc => ?_
          have hcode := hs.locked.worker i
          rw [hpc] at hcode
          cases hcode
        by_cases hmain : .main ∈ s.asleep
        · -- the queue is full, so no worker sleeps; but that they have returned is too late for it
          have hnone : ∀ i, .worker i ∉ s.asleep := by
            intro i hi'
            have hzero := hcount ⟨i, hi'⟩
            rw [hs.full hmain] at hzero
            exact absurd hzero (by decide)
          have hrunning := hi.stopping (.worker ⟨0, by decide⟩)
            (by rw [hreturned _ (hnone _)]; rfl)
          rw [hstopped hrunning] at hmain
          exact absurd hmain (Finset.notMem_empty _)
        · have hjoin : s.pc .main = .join := by
            refine (hdone .main hmain).resolve_right fun hpc => ?_
            have hcode := hs.locked.main
            rw [hpc] at hcode
            cases hcode
          have hnobody := hstopped (hi.stopping .main (by rw [hjoin]; rfl))
          refine ⟨hjoin, fun i => hreturned i ?_, hhandler⟩
          rw [hnobody]
          exact Finset.notMem_empty _

/-- A delivery that hits a critical section leaves its handler in front of the lock. -/
theorem hit_blocks {q : connection_queue_t} {listen_sd : ℤ} {trace : List (State × Actor)}
    {s : State} (h : Run Step (start q listen_sd) trace s)
    (hhit : ∃ p ∈ trace, Hits p.1 p.2) :
    ∃ t pc, s.handler = some (t, pc) ∧ pc.locks = false ∧ (s.pc t).locks = true := by
  -- once hit, the handler stays before its lock and the thread under it inside
  have hkept := h.invariant (fun trace s => Handling trace s ∧ ((∃ p ∈ trace, Hits p.1 p.2) →
      ∃ t pc, s.handler = some (t, pc) ∧ pc.locks = false ∧ (s.pc t).locks = true))
    ⟨handling_start q listen_sd, fun h => absurd h (by simp)⟩ (by
      rintro trace s a u ⟨hh, hkept⟩ hstep
      refine ⟨hh.step hstep, ?_⟩
      cases hstep with
      -- the thread under the handler does not move, and the others do not matter
      | @thread v pc sh hrun h =>
          rw [hits_snoc (not_hits_thread v)]
          intro hhit
          obtain ⟨t, pc', hpc, hlocks, hin⟩ := hkept hhit
          have hne : t ≠ v := fun heq => hrun pc' (heq ▸ hpc)
          refine ⟨t, pc', hpc, hlocks, ?_⟩
          dsimp only
          rwa [Function.update_of_ne hne]
      -- the one delivery is the one that hits
      | @deliver t halive hfirst =>
          intro hhit
          simp only [List.mem_append, List.mem_singleton, or_and_right, exists_or,
            exists_eq_left] at hhit
          rcases hhit with hhit | hhit
          · exact absurd hhit (hh.before hfirst).2
          · exact ⟨t, .clear, rfl, rfl, (hits_deliver t).mp hhit⟩
      | @handler t pc pc' sh hpc h =>
          rw [hits_snoc not_hits_handler]
          intro hhit
          obtain ⟨t', pc'', hpc', hlocks, hin⟩ := hkept hhit
          rw [hpc] at hpc'
          cases hpc'
          cases h with
          | clear => exact ⟨_, _, rfl, rfl, hin⟩
          | closeListen => exact ⟨_, _, rfl, rfl, hin⟩
          -- the lock is not free: the thread under the handler has it
          | lock hfree =>
              rw [hh.locked.thread _ hin] at hfree
              cases hfree
          | broadcast => cases hlocks
          | unlock => cases hlocks)
  exact hkept.2 hhit

section FromStart

variable {q : connection_queue_t} {listen_sd : ℤ} {trace trace' : List (World × Event)}

theorem handling_of_run (h : Run Moves (World.start q listen_sd) trace s) :
    Handling (forget trace) s.toState :=
  (run_forget h).invariant Handling (handling_start q listen_sd)
    fun _ _ _ _ hh hstep => hh.step hstep

theorem halted_of_run (hsize : q.client_sockets.length = QUEUE_SIZE)
    (h : Run Moves (World.start q listen_sd) trace s) (hhalt : Halted s) :
    Finished s ∨ Waiting s ∨ SelfDeadlock s.toState :=
  halted_finished_or (awake_of_reachable ⟨trace, h⟩)
    ((run_forget h).invariant Inv (inv_start hsize listen_sd) fun _ _ _ _ hi hstep => hi.step hstep)
    (handling_of_run h) hhalt

/-- **How the server comes to a stop.** In every run, where no move is left but the return of an
`accept`, a `recv` or a `send`, one of three things is the case: the server has finished; some
thread is inside such a call, and the others have ended or sleep with a reason; or the handler
waits for the mutex of its own thread. The signal has hit a critical section in the third case
and in no other. -/
theorem halted_cases (hsize : q.client_sockets.length = QUEUE_SIZE)
    (h : Run Moves (World.start q listen_sd) trace s) (hhalt : Halted s) :
    ((Finished s ∨ Waiting s) ∧ ¬ ∃ p ∈ forget trace, Hits p.1 p.2)
      ∨ (SelfDeadlock s.toState ∧ ∃ p ∈ forget trace, Hits p.1 p.2) := by
  have hh := handling_of_run h
  -- a delivery that had hit one would have left its handler behind
  have hmissed : s.handler = none → ¬ ∃ p ∈ forget trace, Hits p.1 p.2 := by
    intro hnone hhit
    obtain ⟨t, pc, hpc, -⟩ := hit_blocks (run_forget h) hhit
    rw [hnone] at hpc
    cases hpc
  rcases halted_of_run hsize h hhalt with hfin | hwait | hdead
  · exact .inl ⟨.inl hfin, hmissed hfin.2.2⟩
  · exact .inl ⟨.inr hwait, hmissed hwait.handler⟩
  · have hlock := hdead
    obtain ⟨t, hpc, -⟩ := hlock
    exact .inr ⟨hdead, (hh.inside t .lock hpc rfl).mp ((hh.selfDeadlock_iff_locks hpc).mp hdead)⟩

end FromStart

/-- Each thread has ended, or is inside a call. -/
def Ended (s : World) : Prop :=
  s.handler = none
    ∧ ∀ t, (s.pc t).calls = true ∨ s.pc t = .join ∨ s.pc t = .returned

theorem Ended.halted (h : Ended s) : Halted s := by
  rintro e t hprogram hmove
  cases hmove with
  | @thread u pc sh A hrun hline hsleeps =>
      rcases h.2 u with hpc | hpc | hpc
      · exact ⟨u, rfl, hpc⟩
      all_goals
        rw [hpc] at hline
        cases hline
  | handler hpc _ =>
      rw [h.1] at hpc
      cases hpc
  | deliver => cases hprogram
  | spurious => cases hprogram

theorem Finished.ended (h : Finished s) : Ended s := by
  refine ⟨h.2.2, fun t => .inr ?_⟩
  cases t with
  | main => exact .inl h.1
  | worker i => exact .inr (h.2.1 i)

/-- The call may return all the same: then there is a move. -/
theorem Waiting.move (hs : Awake s) (h : Waiting s) :
    ∃ e t, e.ofProgram = true ∧ Moves s e t := by
  obtain ⟨t, hcalls⟩ := h.some
  obtain ⟨-, hcond, -, hjoin, hret⟩ := Pc.calls_spec hcalls
  have hawake : t ∉ s.asleep := fun hmem => hs.waits t hmem hcond
  obtain ⟨pc', sh', hline⟩ := line_exists t hjoin hret (.inr h.mutex)
    (fun d hpc => absurd hcalls (by rw [hpc]; exact Bool.false_ne_true))
    (fun hpc => absurd hcalls (by rw [hpc]; exact Bool.false_ne_true))
  obtain ⟨B, hB⟩ : ∃ B, Sleeps t s.pc pc' s.asleep B := sleeps_exists hawake
  exact ⟨_, _, rfl, .thread (fun pc hpc => by rw [h.handler] at hpc; cases hpc) hline hB⟩

/-! ## Shutting down -/

/-- How many lines a thread has still to go once the flag is down. -/
def Pc.rank : Pc → ℕ
  | .join | .returned => 0
  | .stopUnlock | .workerTest => 1
  | .stopLock | .close _ => 2
  | .acceptTest | .acceptError | .send _ => 3
  | .pushUnlock | .recv _ => 4
  | .pushCheck _ | .pushStore _ | .popped _ => 5
  | .pushFull _ | .popUnlock _ => 6
  | .pushLock _ | .pushWait _ | .popTake => 7
  | .accept _ | .popCheck => 8
  | .acceptCall | .popEmpty => 9
  | .popLock | .popWait => 10

theorem line_rank {pc' : Pc} {sh' : Shared} (h : Line t pc sh pc' sh')
    (hflag : sh.server_running = false) : pc'.rank < pc.rank := by
  cases h with
  | acceptRun h | errorContinue h | pushGo h | workerRun h =>
      rw [hflag] at h
      cases h
  | pushFull h =>
      rw [push_waits, hflag, Bool.and_false] at h
      cases h
  | popEmpty h =>
      rw [pop_waits, hflag, Bool.and_false] at h
      cases h
  | _ => simp [Pc.rank]

def World.rank (s : World) : ℕ :=
  ∑ t, (s.pc t).rank

/-- The handler has run and returned. -/
def Signalled (s : World) : Prop :=
  s.delivered = true ∧ s.handler = none

/-- After the handler every move is one of the last lines. -/
theorem Signalled.move {e : Event} (hd : Signalled s) (hs : Awake s) (h : Moves s e s') :
    Signalled s' ∧ s'.rank < s.rank := by
  have hflag : s.server_running = false := hs.flag hd.1 (by simp [hd.2])
  cases h with
  | @thread t pc sh A hrun hline hsleeps =>
      refine ⟨hd, ?_⟩
      have hlt := line_rank hline hflag
      have hsum := sum_update Pc.rank s.pc t pc
      simp only [World.rank]
      omega
  | handler hpc h =>
      rw [hd.2] at hpc
      cases hpc
  | deliver halive h =>
      rw [hd.1] at h
      cases h
  | spurious h =>
      rw [hs.stopped hd.1 (.inl hd.2)] at h
      exact absurd h (Finset.notMem_empty _)

/-- The lines left over bound every run: each move takes at least one of them off, whoever makes
it. -/
theorem Signalled.run {trace : List (World × Event)} (hd : Signalled s) (hs : Awake s)
    (h : Run Moves s trace s') : Signalled s' ∧ Awake s' ∧ trace.length + s'.rank ≤ s.rank := by
  apply h.invariant (fun trace u => Signalled u ∧ Awake u ∧ trace.length + u.rank ≤ s.rank)
    ⟨hd, hs, by simp⟩
  rintro trace t e u ⟨hd', hs', hle⟩ hmove
  obtain ⟨hd'', hlt⟩ := hd'.move hs' hmove
  refine ⟨hd'', hs'.move hmove, ?_⟩
  rw [List.length_append, List.length_singleton]
  omega

section FromStart

variable {q : connection_queue_t} {listen_sd : ℤ} {trace : List (World × Event)}

/-- The handler has returned, so nobody waits for it, and nobody sleeps. -/
theorem Signalled.halted (hsize : q.client_sockets.length = QUEUE_SIZE) (hd : Signalled s)
    (h : Reachable Moves (World.start q listen_sd) s) (hhalt : Halted s) :
    Finished s ∨ (Waiting s ∧ Ended s) := by
  obtain ⟨trace, hrun⟩ := h
  rcases halted_of_run hsize hrun hhalt with hfin | hwait | ⟨t, hpc, -⟩
  · exact .inl hfin
  · refine .inr ⟨hwait, hwait.handler, fun t => (hwait.each t).imp_right fun ht => ?_⟩
    refine ht.resolve_left ?_
    rw [hwait.stopped hd.1]
    exact Finset.notMem_empty t
  · rw [hd.2] at hpc
    cases hpc

/-- A server that has not finished has a move, if only the return of a call, and the rank falls
with it. -/
theorem Signalled.finishes (hsize : q.client_sockets.length = QUEUE_SIZE) (hd : Signalled s)
    (h : Reachable Moves (World.start q listen_sd) s) :
    ∃ t, Reachable Moves s t ∧ Finished t := by
  generalize hn : s.rank = n
  induction n using Nat.strongRecOn generalizing s with
  | ind n ih =>
      by_cases hfin : Finished s
      · exact ⟨s, Reachable.refl Moves s, hfin⟩
      · obtain ⟨e, u, -, hmove⟩ : ∃ e u, e.ofProgram = true ∧ Moves s e u := by
          by_cases hhalt : Halted s
          · obtain ⟨hwait, -⟩ := (hd.halted hsize h hhalt).resolve_left hfin
            exact hwait.move (awake_of_reachable h)
          · simp only [Halted, not_forall] at hhalt
            obtain ⟨e, u, hprogram, hmove, -⟩ := hhalt
            exact ⟨e, u, hprogram, hmove⟩
        obtain ⟨hdu, hlt⟩ := hd.move (awake_of_reachable h) hmove
        obtain ⟨t, ht, hfin⟩ := ih u.rank (hn ▸ hlt) hdu (h.tail hmove) rfl
        exact ⟨t, Reachable.head hmove ht, hfin⟩

end FromStart

/-- The signal arrives in the accept loop. -/
theorem exists_signalled :
    ∃ s, Reachable Moves (World.start emptyQueue 3) s ∧ Signalled s := by
  have signal := ((((((Run.refl : Run Moves (World.start emptyQueue 3) [] _).snoc
    (@Moves.deliver _ .main (by simp [World.start, start]) rfl)).snoc
    (.handler rfl .clear)).snoc (.handler rfl .closeListen)).snoc (.handler rfl (.lock rfl))).snoc
    (.handler rfl .broadcast)).snoc (.handler rfl .unlock)
  exact ⟨_, ⟨_, signal⟩, rfl, rfl⟩

/-- Where everybody has left after it, it had hit no critical section. -/
theorem halted_cases_start :
    ∃ trace t, Run Moves (World.start emptyQueue 3) trace t ∧ Halted t
      ∧ ¬ ∃ p ∈ forget trace, Hits p.1 p.2 := by
  obtain ⟨s, ⟨trace₁, hrun₁⟩, hd⟩ := exists_signalled
  obtain ⟨t, ⟨trace₂, hrun₂⟩, hfin⟩ := hd.finishes List.length_replicate ⟨trace₁, hrun₁⟩
  have hrun := hrun₁.append hrun₂
  refine ⟨_, t, hrun, hfin.ended.halted, ?_⟩
  rcases halted_cases List.length_replicate hrun hfin.ended.halted with ⟨-, hno⟩ | ⟨⟨u, hpc, -⟩, -⟩
  · exact hno
  · rw [hfin.2.2] at hpc
    cases hpc

end Halting

end CourseLabs.Server
