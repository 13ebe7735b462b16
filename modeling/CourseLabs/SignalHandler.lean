/-
`server.c`: when `handle_signal` waits for itself.

The handler locks `queue.mutex`, and it runs on whatever thread the signal interrupts. On
a thread inside `queue_push`, `queue_pop` or the last broadcast of `main` that mutex is
held by the very thread, which goes on only when the handler has returned. So a handler
that has got to its lock is deadlocked exactly when the delivery hit such a thread
(`selfDeadlock_iff`), and then it stays there (`selfDeadlock_forever`).
-/
import CourseLabs.Shutdown

set_option autoImplicit false

namespace CourseLabs.Server

open CourseLabs.ConnectionQueue CourseLabs.Transition

/-- The handler waits for a mutex that its own thread holds. -/
def SelfDeadlock (s : State) : Prop :=
  ∃ t, s.handler = some (t, .lock) ∧ s.mutex = some t

/-- The handler is about to lock the mutex, on the thread the signal was delivered to. -/
def AtLock (s : State) : Prop :=
  ∃ t, s.handler = some (t, .lock)

/-- A step that delivers the signal to a thread inside a critical section. -/
def Hits (s : State) (a : Actor) : Prop :=
  ∃ t, a = .deliver t ∧ (s.pc t).locks = true

/-- What a run tells about its handler: before the lock, the thread below it is in a
critical section exactly when the delivery hit one. -/
structure Handling (trace : List (State × Actor)) (s : State) : Prop where
  locked : Locked s
  owner : ∀ t, s.mutex = some t →
    (s.pc t).locks = true ∨ ∃ pc, s.handler = some (t, pc) ∧ pc.locks = true
  before : s.delivered = false → s.handler = none ∧ ¬ ∃ p ∈ trace, Hits p.1 p.2
  inside : ∀ t pc, s.handler = some (t, pc) → pc.locks = false →
    ((s.pc t).locks = true ↔ ∃ p ∈ trace, Hits p.1 p.2)

section Handling

variable {trace : List (State × Actor)} {s s' : State} {a : Actor}

theorem handling_start (q : connection_queue_t) (listen_sd : ℤ) :
    Handling [] (start q listen_sd) := by
  refine ⟨locked_start q listen_sd, fun t h => absurd h (by simp [start]),
    fun _ => ⟨rfl, by simp⟩, fun t pc h => absurd h (by simp [start])⟩

/-- Only a delivery hits, so another step adds nothing to the hits of a run. -/
theorem hits_snoc (h : ¬ Hits s a) :
    (∃ p ∈ trace ++ [(s, a)], Hits p.1 p.2) ↔ ∃ p ∈ trace, Hits p.1 p.2 := by
  simp only [List.mem_append, List.mem_singleton, or_and_right, exists_or, exists_eq_left]
  exact or_iff_left h

theorem not_hits_thread (t : Thread) : ¬ Hits s (.thread t) := by
  rintro ⟨u, h, -⟩
  exact absurd h (by simp)

theorem not_hits_handler : ¬ Hits s .handler := by
  rintro ⟨u, h, -⟩
  exact absurd h (by simp)

theorem hits_deliver (t : Thread) : Hits s (.deliver t) ↔ (s.pc t).locks = true := by
  constructor
  · rintro ⟨u, h, hu⟩
    rwa [Actor.deliver.inj h]
  · exact fun h => ⟨t, rfl, h⟩

theorem Handling.line {t : Thread} {pc : Pc} {sh : Shared} (hs : Handling trace s)
    (hrun : ∀ h, s.handler ≠ some (t, h)) (h : Line t (s.pc t) s.toShared pc sh) :
    Handling (trace ++ [(s, .thread t)])
      { s with toShared := sh, pc := Function.update s.pc t pc } := by
  refine ⟨hs.locked.line hrun h, ?_, ?_, ?_⟩
  · intro u hu
    dsimp only at hu ⊢
    rcases eq_or_ne u t with rfl | hne
    · left
      rw [Function.update_self]
      rcases h.mutex with ⟨heq, hm⟩ | ⟨hin, -, -⟩ | ⟨-, -, hfree⟩
      · rw [hm] at hu
        rcases hs.owner u hu with hold | ⟨hpc, hh, -⟩
        · rwa [heq]
        · exact absurd hh (hrun hpc)
      · exact hin
      · rw [hfree] at hu
        exact absurd hu (by simp)
    · rw [Function.update_of_ne hne]
      -- another thread had the mutex before, too
      rcases h.mutex with ⟨-, hm⟩ | ⟨-, -, hm⟩ | ⟨-, -, hm⟩
      · exact hs.owner u (hm ▸ hu)
      · rw [hm] at hu
        exact absurd (Option.some.inj hu).symm hne
      · rw [hm] at hu
        exact absurd hu (by simp)
  · rw [hits_snoc (not_hits_thread t)]
    exact hs.before
  · intro u hpc hu hlock
    have hne : u ≠ t := fun heq => hrun hpc (heq ▸ hu)
    dsimp only
    rw [hits_snoc (not_hits_thread t), Function.update_of_ne hne]
    exact hs.inside u hpc hu hlock

theorem Handling.delivered (hs : Handling trace s) {x : Thread × HandlerPc}
    (h : s.handler = some x) : s.delivered = true := by
  by_contra hfalse
  rw [(hs.before (by simpa using hfalse)).1] at h
  cases h

theorem Handling.deliver {t : Thread} (hs : Handling trace s) (hfirst : s.delivered = false)
    (hlocked : Locked { s with delivered := true, handler := some (t, .clear) }) :
    Handling (trace ++ [(s, .deliver t)])
      { s with delivered := true, handler := some (t, .clear) } := by
  obtain ⟨hnone, hno⟩ := hs.before hfirst
  refine ⟨hlocked, ?_, fun h => absurd h (by simp), ?_⟩
  · intro u hu
    rcases hs.owner u hu with hold | ⟨hpc, hh, -⟩
    · exact Or.inl hold
    · rw [hnone] at hh
      cases hh
  · intro u pc hu _
    obtain ⟨rfl, -⟩ := Prod.mk.inj (Option.some.inj hu)
    simp only [List.mem_append, List.mem_singleton, or_and_right, exists_or, exists_eq_left]
    rw [or_iff_right hno, hits_deliver]

/-- What a step of the handler does about the mutex: it is not there yet, it is inside, or it
returns and leaves the mutex free. -/
theorem Handler.mutex {t : Thread} {pc : HandlerPc} {pc' : Option HandlerPc} {sh sh' : Shared}
    (h : Handler t pc sh pc' sh') (hheld : pc.locks = true → sh.mutex = some t) :
    (pc.locks = false ∧ sh'.mutex = sh.mutex ∧ ∃ q, pc' = some q)
      ∨ (sh'.mutex = some t ∧ ∃ q, pc' = some q ∧ q.locks = true)
      ∨ (sh'.mutex = none ∧ pc' = none) := by
  cases h with
  | clear => exact Or.inl ⟨rfl, rfl, _, rfl⟩
  | closeListen => exact Or.inl ⟨rfl, rfl, _, rfl⟩
  | lock => exact Or.inr (Or.inl ⟨rfl, _, rfl, rfl⟩)
  | broadcast => exact Or.inr (Or.inl ⟨hheld rfl, _, rfl, rfl⟩)
  | unlock => exact Or.inr (Or.inr ⟨rfl, rfl⟩)

theorem Handling.handler {t : Thread} {pc : HandlerPc} {pc' : Option HandlerPc} {sh : Shared}
    (hs : Handling trace s) (hpc : s.handler = some (t, pc))
    (h : Handler t pc s.toShared pc' sh)
    (hlocked : Locked { s with toShared := sh, handler := pc'.map fun pc' => (t, pc') }) :
    Handling (trace ++ [(s, .handler)])
      { s with toShared := sh, handler := pc'.map fun pc' => (t, pc') } := by
  have hbefore : s.delivered = false → False := by
    rw [hs.delivered hpc]
    exact fun h => absurd h (by decide)
  rcases h.mutex fun hlock => (hs.locked.handler t pc hpc hlock).1 with
    ⟨hlock, hm, q, rfl⟩ | ⟨hm, q, rfl, hlock⟩ | ⟨hm, rfl⟩
  · refine ⟨hlocked, ?_, fun h => (hbefore h).elim, ?_⟩
    · intro u hu
      rcases hs.owner u (hm ▸ hu) with hold | ⟨hpc', hh, hlock'⟩
      · exact Or.inl hold
      · rw [hpc] at hh
        obtain ⟨-, rfl⟩ := Prod.mk.inj (Option.some.inj hh)
        rw [hlock] at hlock'
        cases hlock'
    · intro u pc' hu _
      obtain ⟨rfl, -⟩ := Prod.mk.inj (Option.some.inj hu)
      rw [hits_snoc not_hits_handler]
      exact hs.inside _ pc hpc hlock
  · refine ⟨hlocked, ?_, fun h => (hbefore h).elim, ?_⟩
    · intro u hu
      obtain rfl := Option.some.inj (hm.symm.trans hu)
      exact Or.inr ⟨q, rfl, hlock⟩
    · intro u pc' hu hlock'
      obtain ⟨-, rfl⟩ := Prod.mk.inj (Option.some.inj hu)
      rw [hlock] at hlock'
      cases hlock'
  · refine ⟨hlocked, fun u hu => ?_, fun h => (hbefore h).elim, fun u pc hu => ?_⟩
    · cases hm.symm.trans hu
    · cases hu

theorem Handling.step (hs : Handling trace s) (h : Step s a s') :
    Handling (trace ++ [(s, a)]) s' := by
  have hlocked := hs.locked.step h
  cases h with
  | thread hrun h => exact hs.line hrun h
  | deliver _ hfirst => exact hs.deliver hfirst hlocked
  | handler hpc h => exact hs.handler hpc h hlocked

/-- At its lock, the handler waits for itself when its thread is inside. -/
theorem Handling.selfDeadlock_iff_locks (hs : Handling trace s) {t : Thread}
    (h : s.handler = some (t, .lock)) : SelfDeadlock s ↔ (s.pc t).locks = true := by
  constructor
  · rintro ⟨u, hu, hm⟩
    rw [h] at hu
    obtain ⟨rfl, -⟩ := Prod.mk.inj (Option.some.inj hu)
    rcases hs.owner t hm with hin | ⟨pc, hpc, hlock⟩
    · exact hin
    · rw [h] at hpc
      obtain ⟨-, rfl⟩ := Prod.mk.inj (Option.some.inj hpc)
      exact absurd hlock (by decide)
  · exact fun hin => ⟨t, h, hs.locked.thread t hin⟩

/-- Nobody gets the handler out of there: its own thread does not run meanwhile, and no other one
unlocks the mutex. -/
theorem SelfDeadlock.step (hd : SelfDeadlock s) (hs : Locked s)
    (hdelivered : s.delivered = true) (h : Step s a s') :
    SelfDeadlock s' ∧ s'.delivered = true := by
  obtain ⟨t, hpc, hm⟩ := hd
  cases h with
  | @thread u pc sh hrun h =>
      have hne : t ≠ u := fun heq => hrun .lock (heq ▸ hpc)
      exact ⟨⟨t, hpc, hs.mutex_kept h hm hne⟩, hdelivered⟩
  | deliver _ h =>
      rw [hdelivered] at h
      exact absurd h (by decide)
  | handler hpc' h =>
      rw [hpc] at hpc'
      obtain ⟨rfl, rfl⟩ := Prod.mk.inj (Option.some.inj hpc')
      cases h with
      | lock hfree =>
          rw [hm] at hfree
          exact absurd hfree (by simp)

/-- So the deadlock is for ever, whatever the other threads do. -/
theorem Handling.selfDeadlock_forever (hs : Handling trace s) (hd : SelfDeadlock s)
    (h : Reachable Step s s') : SelfDeadlock s' := by
  have hdelivered : s.delivered = true := by
    obtain ⟨t, hpc, -⟩ := hd
    exact hs.delivered hpc
  have hkept := h.invariant (fun s => SelfDeadlock s ∧ s.delivered = true ∧ Locked s)
    ⟨hd, hdelivered, hs.locked⟩ (by
      rintro t a u ⟨hd, hdelivered, hlocked⟩ hstep
      obtain ⟨hd', hdelivered'⟩ := hd.step hlocked hdelivered hstep
      exact ⟨hd', hdelivered', hlocked.step hstep⟩)
  exact hkept.1

end Handling

/-! ## The deadlock -/

/-- **When the handler deadlocks**: in a state of a run where it is at its lock, exactly if
the signal was delivered to a thread that held the mutex. -/
theorem selfDeadlock_iff {q : connection_queue_t} {listen_sd : ℤ}
    {trace : List (State × Actor)} {s : State} (h : Run Step (start q listen_sd) trace s) :
    SelfDeadlock s ↔ AtLock s ∧ ∃ p ∈ trace, Hits p.1 p.2 := by
  have hs : Handling trace s := h.invariant Handling (handling_start q listen_sd)
    fun _ _ _ _ hs hstep => hs.step hstep
  constructor
  · intro hd
    have hwait := hd
    obtain ⟨t, hpc, -⟩ := hwait
    exact ⟨⟨t, hpc⟩, (hs.inside t .lock hpc rfl).mp ((hs.selfDeadlock_iff_locks hpc).mp hd)⟩
  · rintro ⟨⟨t, hpc⟩, hhit⟩
    exact (hs.selfDeadlock_iff_locks hpc).mpr ((hs.inside t .lock hpc rfl).mpr hhit)

/-- The signal arrives at a worker that has just locked the mutex in `queue_pop`. -/
theorem exists_selfDeadlock :
    ∃ trace s, Run Step (start emptyQueue 3) trace s ∧ SelfDeadlock s := by
  have pop := ((Run.refl : Run Step (start emptyQueue 3) [] _).snoc
    (.thread (idle (.worker ⟨0, by decide⟩) rfl) (.workerRun rfl))).snoc
    (.thread (idle (.worker ⟨0, by decide⟩) rfl) (.popLock rfl))
  have signal := ((pop.snoc (@Step.deliver _ (.worker ⟨0, by decide⟩) (by simp) rfl)).snoc
    (.handler rfl .clear)).snoc (.handler rfl .closeListen)
  exact ⟨_, _, signal, .worker ⟨0, by decide⟩, rfl, rfl⟩

/-- In that run the delivery hits the worker. -/
theorem selfDeadlock_iff_pop :
    ∃ trace s, Run Step (start emptyQueue 3) trace s ∧ ∃ p ∈ trace, Hits p.1 p.2 := by
  obtain ⟨trace, s, hrun, hd⟩ := exists_selfDeadlock
  exact ⟨trace, s, hrun, ((selfDeadlock_iff hrun).mp hd).2⟩

/-- So the handler can deadlock the server. -/
theorem not_deadlock_free :
    ¬ ∀ (q : connection_queue_t) (listen_sd : ℤ) (s : State),
      Reachable Step (start q listen_sd) s → ¬ SelfDeadlock s := by
  intro h
  obtain ⟨trace, s, hrun, hd⟩ := exists_selfDeadlock
  exact h _ _ s ⟨trace, hrun⟩ hd

end CourseLabs.Server
