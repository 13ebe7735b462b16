/-
`server.c` with its **condition variables**: nobody sleeps through a wakeup.

`Server` lets a waiting thread take the mutex again whenever it likes, which is all its
safety needs. Here a thread that calls `pthread_cond_wait` is asleep until it is woken, by
a signal, a broadcast or, as POSIX allows, for no reason. `World` keeps the sleepers;
`Moves` is `Server.Step` with what each line does to them. `pthread_cond_signal` wakes at
least one of the threads that sleep on its condition. Store and signal, take and signal,
broadcast and unlock are one move each: both halves are inside the critical section.

What a program with lost wakeups would violate is `no_lost_wakeup`: while a worker sleeps,
no more descriptors are stored than workers are up and on their way to the queue.
-/
import CourseLabs.SignalHandler
import Mathlib.Data.Finset.Card

set_option autoImplicit false

namespace CourseLabs.Server

open CourseLabs.ConnectionQueue CourseLabs.Transition

/-! ## Sleeping -/

/-- The two conditions of the queue, by the source's names: workers wait for `not_empty` in
`queue_pop`, `main` waits for `not_full` in `queue_push`. -/
inductive Cond where
  | not_empty
  | not_full
deriving DecidableEq

/-- The condition the thread has called `pthread_cond_wait` on, while it waits to be woken. -/
def Pc.cond : Pc → Option Cond
  | .pushWait _ => some .not_full
  | .popWait => some .not_empty
  | _ => none

/-- The condition the line signals: a descriptor more for the workers, or a place more for `main`.
-/
def Pc.signals : Pc → Option Cond
  | .pushStore _ => some .not_empty
  | .popTake => some .not_full
  | _ => none

/-- The server with its sleepers. A thread in `asleep` has given the mutex back in
`pthread_cond_wait` and is not to move until it is woken up. -/
structure World extends State where
  asleep : Finset Thread

/-- `pthread_cond_signal`: of the threads asleep on the condition at least one is woken, if there
is one. More may be, as the standard allows. -/
structure Signal (c : Cond) (pcs : Thread → Pc) (A B : Finset Thread) : Prop where
  subset : B ⊆ A
  only : ∀ u ∈ A, u ∉ B → (pcs u).cond = some c
  one : ∀ u ∈ A, (pcs u).cond = some c → ∃ v ∈ A, v ∉ B

/-- `pthread_cond_broadcast`: everybody asleep on the condition is woken, and nobody else. -/
def broadcast (c : Cond) (pcs : Thread → Pc) (A : Finset Thread) : Finset Thread :=
  A.filter fun u => (pcs u).cond ≠ some c

/-- What a line of `t`, from `pcs t` to `pc`, does to the sleepers. Only a thread that is
awake moves. -/
inductive Sleeps (t : Thread) (pcs : Thread → Pc) (pc : Pc) :
    Finset Thread → Finset Thread → Prop
  | wait {A : Finset Thread} (hawake : t ∉ A) (h : pc.cond ≠ none) : Sleeps t pcs pc A (insert t A)
  | signal {A B : Finset Thread} {c : Cond} (hawake : t ∉ A) (hc : (pcs t).signals = some c)
      (h : Signal c pcs A B) : Sleeps t pcs pc A B
  | broadcast {A : Finset Thread} (hawake : t ∉ A) (h : pcs t = .stopUnlock) :
      Sleeps t pcs pc A (broadcast .not_empty pcs A)
  | quiet {A : Finset Thread} (hawake : t ∉ A) (hwait : pc.cond = none)
      (hsignal : (pcs t).signals = none) (hstop : pcs t ≠ .stopUnlock) : Sleeps t pcs pc A A

/-- What a line of the handler does to the sleepers. -/
def handlerSleeps (pc : HandlerPc) (pcs : Thread → Pc) (A : Finset Thread) : Finset Thread :=
  match pc with
  | .broadcast => broadcast .not_full pcs (broadcast .not_empty pcs A)
  | _ => A

/-- What can happen next: a step of the server, or a wakeup that nobody asked for, which
`pthread_cond_wait` is allowed and both loops of the queue test for. -/
inductive Event where
  | step (a : Actor)
  /-- A wakeup without a signal. -/
  | spurious (t : Thread)

/-- One move of the server with sleepers. The lines are those of the server below; what is new is
who sleeps afterwards, and that a thread that sleeps cannot move. -/
inductive Moves : World → Event → World → Prop
  | thread {s : World} {t : Thread} {pc : Pc} {sh : Shared} {A : Finset Thread}
      (hrun : ∀ h, s.handler ≠ some (t, h)) (h : Line t (s.pc t) s.toShared pc sh)
      (hsleeps : Sleeps t s.pc pc s.asleep A) :
      Moves s (.step (.thread t))
        { s with toShared := sh, pc := Function.update s.pc t pc, asleep := A }
  | handler {s : World} {t : Thread} {pc : HandlerPc} {pc' : Option HandlerPc} {sh : Shared}
      (hpc : s.handler = some (t, pc)) (h : Handler t pc s.toShared pc' sh) :
      Moves s (.step .handler)
        { s with toShared := sh, handler := pc'.map fun pc' => (t, pc')
                 asleep := handlerSleeps pc s.pc s.asleep }
  | deliver {s : World} {t : Thread} (halive : s.pc t ≠ .returned) (h : s.delivered = false) :
      Moves s (.step (.deliver t)) { s with delivered := true, handler := some (t, .clear) }
  | spurious {s : World} {t : Thread} (h : t ∈ s.asleep) :
      Moves s (.spurious t) { s with asleep := s.asleep.erase t }

/-- A move the program makes by itself: a line of a thread, or of the handler, but no signal from
outside and no wakeup without a cause. -/
def Event.ofProgram : Event → Bool
  | .step (.thread _) | .step .handler => true
  | _ => false

/-- The server when `main` enters its accept loop, everybody awake. -/
def World.start (q : connection_queue_t) (listen_sd : ℤ) : World :=
  { Server.start q listen_sd with asleep := ∅ }

/-! ## The server below -/

/-- The moves of the server in a run with sleepers. -/
def forget (trace : List (World × Event)) : List (State × Actor) :=
  trace.filterMap fun p => match p.2 with
    | .step a => some (p.1.toState, a)
    | .spurious _ => none

section Projection

variable {s t : World} {trace : List (World × Event)}

/-- Without its sleepers a step is a step of the server, so what `Shutdown` proves of every run
holds here. -/
theorem Moves.step {a : Actor} (h : Moves s (.step a) t) : Step s.toState a t.toState := by
  cases h with
  | thread hrun h => exact .thread hrun h
  | handler hpc h => exact .handler hpc h
  | deliver halive h => exact .deliver halive h

/-- **A run with sleepers is a run of the server.** -/
theorem run_forget (h : Run Moves s trace t) : Run Step s.toState (forget trace) t.toState := by
  induction h with
  | refl => exact .refl
  | @snoc trace t u e _ hmove ih =>
      rw [forget, List.filterMap_append]
      cases e with
      | step a => exact ih.snoc hmove.step
      | spurious v =>
          cases hmove with
          | spurious h =>
              rw [List.filterMap_cons_none rfl, List.filterMap_nil, List.append_nil]
              exact ih

end Projection

/-! ## No lost wakeup

A worker is on its way to the queue from the wakeup in `queue_pop` to the descriptor it
takes there. -/

/-- The lines of a worker from the wakeup in `queue_pop` to the descriptor it takes: a worker there
will take one if it is left alone, so a signal sent to it is not lost. -/
def Pc.pops : Pc → Bool
  | .popWait | .popEmpty | .popCheck | .popTake => true
  | _ => false

/-- The threads on their way to the queue: workers that will look at it again before they sleep. -/
def engaged (pcs : Thread → Pc) (A : Finset Thread) : Finset Thread :=
  Finset.univ.filter fun u => (pcs u).pops = true ∧ u ∉ A

section Engaged

variable {pcs : Thread → Pc} {A B : Finset Thread} {t u : Thread} {pc : Pc}

/-- A thread is on its way to the queue if it is in `queue_pop` and awake. -/
theorem mem_engaged : u ∈ engaged pcs A ↔ (pcs u).pops = true ∧ u ∉ A := by
  simp [engaged]

/-- The fewer sleep, the more are on their way: a thread that is woken becomes one of them. -/
theorem engaged_anti (h : B ⊆ A) : engaged pcs A ⊆ engaged pcs B := by
  intro u hu
  rw [mem_engaged] at hu ⊢
  exact ⟨hu.1, fun hB => hu.2 (h hB)⟩

/-- Nobody leaves but the thread that moves, since the others stay at their lines. -/
theorem engaged_erase_subset :
    (engaged pcs A).erase t ⊆ engaged (Function.update pcs t pc) A := by
  intro u hu
  rw [Finset.mem_erase, mem_engaged] at hu
  rw [mem_engaged, Function.update_of_ne hu.1]
  exact hu.2

/-- A move that does not leave `queue_pop` takes nobody away from the queue. -/
theorem engaged_subset (h : (pcs t).pops = true → pc.pops = true) :
    engaged pcs A ⊆ engaged (Function.update pcs t pc) A := by
  intro u hu
  rcases eq_or_ne u t with rfl | hne
  · rw [mem_engaged] at hu ⊢
    rw [Function.update_self]
    exact ⟨h hu.1, hu.2⟩
  · exact engaged_erase_subset (Finset.mem_erase.mpr ⟨hne, hu⟩)

end Engaged

section Lines

variable {t : Thread} {pc pc' : Pc} {sh sh' : Shared}

/-- A thread waits for what is not there, while the server runs. -/
theorem line_waits (h : Line t pc sh pc' sh') (hc : pc'.cond ≠ none) :
    sh.server_running = true ∧ sh'.queue = sh.queue
      ∧ ((pc'.cond = some .not_full ∧ pc.ofMain = true ∧ sh.queue.count = QUEUE_SIZE)
        ∨ (pc'.cond = some .not_empty ∧ pc = .popEmpty ∧ sh.queue.count = 0)) := by
  cases h with
  | pushFull h =>
      simp only [push_waits, Bool.and_eq_true, decide_eq_true_eq] at h
      exact ⟨h.2, rfl, .inl ⟨rfl, rfl, h.1⟩⟩
  | popEmpty h =>
      simp only [pop_waits, Bool.and_eq_true, decide_eq_true_eq] at h
      exact ⟨h.2, rfl, .inr ⟨rfl, rfl, h.1⟩⟩
  | _ => exact absurd rfl hc

/-- The line that stores a descriptor is the one that adds one to the count, whatever else it
writes. -/
theorem count_of_store {q q' : connection_queue_t} {d : ℤ} (h : push_store q d = some q') :
    q'.count = q.count + 1 := by
  obtain ⟨i, -, h⟩ := Option.bind_eq_some_iff.mp h
  obtain ⟨l, -, h⟩ := Option.bind_eq_some_iff.mp h
  cases h
  rfl

/-- The line that takes a descriptor takes one off the count. -/
theorem count_of_take {q q' : connection_queue_t} {d : ℤ} (h : pop_take q = some (d, q')) :
    q'.count = q.count - 1 := by
  obtain ⟨i, -, h⟩ := Option.bind_eq_some_iff.mp h
  obtain ⟨l, -, h⟩ := Option.bind_eq_some_iff.mp h
  cases h
  rfl

/-- A line that signals has just changed the count: `not_empty` comes with one descriptor more,
`not_full` with one less. -/
theorem line_signals {c : Cond} (h : Line t pc sh pc' sh') (hc : pc.signals = some c) :
    (c = .not_empty ∧ pc.ofMain = true ∧ pc.pops = false
        ∧ sh'.queue.count = sh.queue.count + 1)
      ∨ (c = .not_full ∧ pc = .popTake ∧ sh'.queue.count = sh.queue.count - 1) := by
  cases h with
  | pushStore h => exact .inl ⟨(Option.some.inj hc).symm, rfl, rfl, count_of_store h⟩
  | popTake h => exact .inr ⟨(Option.some.inj hc).symm, rfl, count_of_take h⟩
  | _ => exact absurd hc (by simp [Pc.signals])

/-- Every other line leaves the queue alone, so that what the sleepers wait for is as it was. -/
theorem line_quiet (h : Line t pc sh pc' sh') (hc : pc.signals = none) :
    sh'.queue = sh.queue := by
  cases h with
  | pushStore | popTake => exact absurd hc (by simp [Pc.signals])
  | _ => rfl

/-- A worker leaves the queue with a descriptor, or because there is none. -/
theorem line_pops (h : Line t pc sh pc' sh') (hc : pc.signals = none) (hp : pc.pops = true) :
    pc'.pops = true ∨ sh.queue.count = 0 := by
  cases h with
  | popDrained h hcount => exact .inr hcount
  | popEmpty | popWake | popAny | popGo => exact .inl rfl
  | popTake => exact absurd hc (by simp [Pc.signals])
  | _ => exact absurd hp (by simp [Pc.pops])

/-- Whatever a line does to the sleepers, the thread that moves was awake. This is the one thing
the four ways have in common. -/
theorem sleeps_of_cond {pcs : Thread → Pc} {A B : Finset Thread} (h : Sleeps t pcs pc A B) :
    t ∉ A := by
  cases h <;> assumption

/-- Who sleeps after a line did so before, unless it is the thread that moved. -/
theorem sleeps_subset {pcs : Thread → Pc} {A B : Finset Thread} (h : Sleeps t pcs pc A B) :
    B ⊆ A ∨ (pc.cond ≠ none ∧ B = insert t A) := by
  cases h with
  | wait _ h => exact .inr ⟨h, rfl⟩
  | signal _ _ h => exact .inl h.subset
  | broadcast => exact .inl (Finset.filter_subset _ _)
  | quiet => exact .inl subset_rfl

end Lines

/-- What every run keeps. The conditions `stopped` and `flag` are about the handler. -/
structure Awake (s : World) : Prop where
  locked : Locked s.toState
  waits : ∀ t ∈ s.asleep, (s.pc t).cond ≠ none
  full : .main ∈ s.asleep → s.queue.count = QUEUE_SIZE
  workers : (∃ i, .worker i ∈ s.asleep) → s.queue.count ≤ (engaged s.pc s.asleep).card
  before : s.delivered = false → s.handler = none
  cleared : s.server_running = false → s.delivered = true
  flag : s.delivered = true → (∀ t, s.handler ≠ some (t, .clear)) → s.server_running = false
  stopped : s.delivered = true → (s.handler = none ∨ ∃ t, s.handler = some (t, .unlock)) →
    s.asleep = ∅

section Moves

variable {s s' : World} {e : Event}

/-- Nobody sleeps at the start and the signal has not come, so every clause about sleepers or the
handler is void. -/
theorem awake_start (q : connection_queue_t) (listen_sd : ℤ) : Awake (World.start q listen_sd) where
  locked := locked_start q listen_sd
  waits := fun t h => absurd h (Finset.notMem_empty t)
  full := fun h => absurd h (Finset.notMem_empty _)
  workers := fun ⟨_, h⟩ => absurd h (Finset.notMem_empty _)
  before := fun _ => rfl
  cleared := fun h => absurd h (by simp [World.start, start])
  flag := fun h => absurd h (by simp [World.start, start])
  stopped := fun _ _ => rfl

/-- A worker sleeps in `queue_pop`. -/
theorem Awake.worker_cond (hs : Awake s) {i : Fin NUM_WORKERS} (h : .worker i ∈ s.asleep) :
    s.pc (.worker i) = .popWait := by
  have hcode := hs.locked.worker i
  have hcond := hs.waits _ h
  generalize s.pc (.worker i) = pc at hcode hcond ⊢
  cases pc with
  | popWait => rfl
  | pushWait d => exact absurd hcode (by simp [Pc.ofMain])
  | _ => exact absurd rfl hcond

/-- Nobody but `main` waits for room. -/
theorem Awake.eq_main (hs : Awake s) {t : Thread} (h : (s.pc t).cond = some .not_full) :
    t = .main := by
  cases t with
  | main => rfl
  | worker i =>
      have hcode := hs.locked.worker i
      generalize s.pc (.worker i) = pc at hcode h
      cases pc with
      | pushWait d => exact absurd hcode (by simp [Pc.ofMain])
      | _ => exact absurd h (by simp [Pc.cond])

/-- Code of `main` is run by `main`, by the mutex discipline of the server below. -/
theorem Awake.main_of_ofMain (hs : Awake s) {t : Thread} (h : (s.pc t).ofMain = true) :
    t = .main := by
  cases t with
  | main => rfl
  | worker i =>
      rw [hs.locked.worker i] at h
      cases h

/-- `main` sleeps nowhere but in `queue_push`, the only wait in its code. -/
theorem Awake.main_cond (hs : Awake s) (h : .main ∈ s.asleep) :
    (s.pc .main).cond = some .not_full := by
  have hcode := hs.locked.main
  have hcond := hs.waits _ h
  generalize s.pc .main = pc at hcode hcond ⊢
  cases pc with
  | pushWait d => rfl
  | popWait => exact absurd hcode (by simp [Pc.ofMain])
  | _ => exact absurd rfl hcond

section Line

variable {t : Thread} {pc : Pc} {sh : Shared} {A : Finset Thread}

/-- A line keeps every sleeper at a wait. Only `wait` adds a sleeper, the thread that moved, and it
has just come to its wait; the others have not moved. -/
theorem Awake.waits_line (hs : Awake s) (hsleeps : Sleeps t s.pc pc s.asleep A) :
    ∀ u ∈ A, (Function.update s.pc t pc u).cond ≠ none := by
  intro u hu
  have hold : u ∈ s.asleep → (Function.update s.pc t pc u).cond ≠ none := by
    intro hold
    have hne : u ≠ t := by
      rintro rfl
      exact sleeps_of_cond hsleeps hold
    rw [Function.update_of_ne hne]
    exact hs.waits u hold
  rcases sleeps_subset hsleeps with hsub | ⟨hcond, rfl⟩
  · exact hold (hsub hu)
  · rcases Finset.mem_insert.mp hu with rfl | hu
    · rwa [Function.update_self]
    · exact hold hu

/-- `main` sleeps on a full queue: whoever takes from it wakes `main`. -/
theorem Awake.full_line (hs : Awake s) (h : Line t (s.pc t) s.toShared pc sh)
    (hsleeps : Sleeps t s.pc pc s.asleep A) (hmain : .main ∈ A) :
    sh.queue.count = QUEUE_SIZE := by
  cases hsleeps with
  | wait hawake hcond =>
      obtain ⟨-, hqueue, ⟨-, -, hcount⟩ | ⟨-, hpc, -⟩⟩ := line_waits h hcond
      · rw [hqueue]
        exact hcount
      · -- a worker went to sleep, `main` slept before
        have hne : .main ≠ t := by
          rintro rfl
          have hcode := hs.locked.main
          rw [hpc] at hcode
          exact absurd hcode (by simp [Pc.ofMain])
        rw [hqueue]
        exact hs.full (Finset.mem_of_mem_insert_of_ne hmain hne)
  | signal hawake hc hsig =>
      have hold := hsig.subset hmain
      have hne : t ≠ .main := fun heq => hawake (by rwa [heq])
      rcases line_signals h hc with ⟨-, hcode, -⟩ | ⟨rfl, -⟩
      · exact absurd (hs.main_of_ofMain hcode) hne
      · -- the signal of `queue_pop` can reach nobody else
        obtain ⟨v, hv, hvA⟩ := hsig.one .main hold (hs.main_cond hold)
        obtain rfl := hs.eq_main (hsig.only v hv hvA)
        exact absurd hmain hvA
  | broadcast hawake hstop =>
      have hold : .main ∈ s.asleep := (Finset.mem_filter.mp hmain).1
      have hne : t ≠ .main := fun heq => hawake (by rwa [heq])
      exact absurd (hs.main_of_ofMain (by rw [hstop]; rfl)) hne
  | quiet hawake hwait hsig hstop =>
      rw [line_quiet h hsig]
      exact hs.full hmain

/-- **One line keeps the balance** between what is stored and who is on the way to it. -/
theorem Awake.workers_line (hs : Awake s) (h : Line t (s.pc t) s.toShared pc sh)
    (hsleeps : Sleeps t s.pc pc s.asleep A) (hsome : ∃ i, .worker i ∈ A) :
    sh.queue.count ≤ (engaged (Function.update s.pc t pc) A).card := by
  obtain ⟨i, hi⟩ := hsome
  cases hsleeps with
  | wait hawake hcond =>
      obtain ⟨-, hqueue, ⟨-, hcode, -⟩ | ⟨-, -, hcount⟩⟩ := line_waits h hcond
      · -- `main` went to sleep, the workers are as before
        obtain rfl := hs.main_of_ofMain hcode
        have hi' : .worker i ∈ s.asleep := by simpa using hi
        refine (hqueue ▸ hs.workers ⟨i, hi'⟩).trans (Nat.cast_le.mpr (Finset.card_le_card ?_))
        intro u hu
        rw [mem_engaged] at hu
        have hne : u ≠ .main := by
          rintro rfl
          generalize s.pc .main = old at hcode hu
          cases old <;> simp [Pc.ofMain, Pc.pops] at hcode hu
        rw [mem_engaged, Function.update_of_ne hne, Finset.mem_insert, not_or]
        exact ⟨hu.1, hne, hu.2⟩
      · rw [hqueue, hcount]
        exact Int.natCast_nonneg _
  | signal hawake hc hsig =>
      have hold := hs.workers ⟨i, hsig.subset hi⟩
      rcases line_signals h hc with ⟨rfl, -, hpops, hcount⟩ | ⟨rfl, hpc, hcount⟩
      · -- one of the sleeping workers is on its way now
        have hcond : (s.pc (.worker i)).cond = some .not_empty := by
          rw [hs.worker_cond (hsig.subset hi)]
          rfl
        obtain ⟨v, hv, hvA⟩ := hsig.one _ (hsig.subset hi) hcond
        have hvpops : (s.pc v).pops = true := by
          have hvcond := hsig.only v hv hvA
          generalize s.pc v = old at hvcond
          cases old with
          | popWait => rfl
          | _ => exact absurd hvcond (by simp [Pc.cond])
        have hsub : insert v (engaged s.pc s.asleep)
            ⊆ engaged (Function.update s.pc t pc) A := by
          refine Finset.insert_subset ?_ ?_
          · have hne : v ≠ t := by
              rintro rfl
              exact hawake hv
            rw [mem_engaged, Function.update_of_ne hne]
            exact ⟨hvpops, hvA⟩
          · exact (engaged_subset fun hp => absurd hp (by rw [hpops]; simp)).trans
              (engaged_anti hsig.subset)
        have hcard := Finset.card_le_card hsub
        rw [Finset.card_insert_of_notMem fun hmem => (mem_engaged.mp hmem).2 hv] at hcard
        rw [hcount]
        omega
      · have hsub : (engaged s.pc s.asleep).erase t ⊆ engaged (Function.update s.pc t pc) A :=
          engaged_erase_subset.trans (engaged_anti hsig.subset)
        have hcard := Finset.card_le_card hsub
        have herase := Finset.pred_card_le_card_erase (s := engaged s.pc s.asleep) (a := t)
        rw [hcount]
        omega
  | broadcast _ hstop =>
      have hold : .worker i ∈ s.asleep := (Finset.mem_filter.mp hi).1
      exact absurd (by rw [hs.worker_cond hold]; rfl) (Finset.mem_filter.mp hi).2
  | quiet hawake hwait hsig hstop =>
      rw [line_quiet h hsig]
      by_cases hzero : s.queue.count = 0
      · rw [hzero]
        exact Int.natCast_nonneg _
      · have hsub : engaged s.pc s.asleep ⊆ engaged (Function.update s.pc t pc) s.asleep :=
          engaged_subset fun hp => (line_pops h hsig hp).resolve_right hzero
        exact (hs.workers ⟨i, hi⟩).trans (Nat.cast_le.mpr (Finset.card_le_card hsub))

/-- One line of one thread keeps what every run keeps. The clause `workers` is the one with an
argument, in `Awake.workers_line`: each descriptor that is stored wakes up one more worker. -/
theorem Awake.line (hs : Awake s) (hrun : ∀ h, s.handler ≠ some (t, h))
    (h : Line t (s.pc t) s.toShared pc sh) (hsleeps : Sleeps t s.pc pc s.asleep A) :
    Awake { s with toShared := sh, pc := Function.update s.pc t pc, asleep := A } where
  locked := hs.locked.line hrun h
  waits := hs.waits_line hsleeps
  full := hs.full_line h hsleeps
  workers := hs.workers_line h hsleeps
  before := hs.before
  cleared := fun hr => hs.cleared (h.running.symm.trans hr)
  flag := fun hd hclear => h.running.trans (hs.flag hd hclear)
  stopped := by
    intro hd hhandler
    have hnone : s.asleep = ∅ := hs.stopped hd hhandler
    have hflag : s.server_running = false := by
      refine hs.flag hd fun u hu => ?_
      rcases hhandler with hh | ⟨v, hh⟩ <;> · rw [hu] at hh; cases hh
    rcases sleeps_subset hsleeps with hsub | ⟨hcond, -⟩
    · exact Finset.subset_empty.mp (hnone ▸ hsub)
    · -- nobody goes to sleep once the flag is down
      rw [(line_waits h hcond).1] at hflag
      cases hflag

end Line

/-- The sleepers of a state that nobody has to wake. -/
theorem broadcast_all (hs : Awake s) :
    broadcast .not_full s.pc (broadcast .not_empty s.pc s.asleep) = ∅ := by
  rw [Finset.eq_empty_iff_forall_notMem]
  intro u hu
  rw [broadcast, Finset.mem_filter, broadcast, Finset.mem_filter] at hu
  obtain ⟨⟨hmem, hempty⟩, hfull⟩ := hu
  have hcond := hs.waits u hmem
  cases hc : (s.pc u).cond with
  | none => exact hcond hc
  | some c =>
      cases c with
      | not_empty => exact hempty hc
      | not_full => exact hfull hc

/-- A line of the handler keeps it. The broadcast empties the set of sleepers, which is what
`stopped` asks for, and the flag is already cleared by then. -/
theorem Awake.handler (hs : Awake s) {t : Thread} {pc : HandlerPc} {pc' : Option HandlerPc}
    {sh : Shared} (hpc : s.handler = some (t, pc)) (h : Handler t pc s.toShared pc' sh) :
    Awake { s with toShared := sh, handler := pc'.map fun pc' => (t, pc')
                   asleep := handlerSleeps pc s.pc s.asleep } := by
  have hlocked := hs.locked.step (.handler hpc h)
  -- the handler runs only after the delivery
  have hdelivered : s.delivered = true := by
    by_contra hfalse
    rw [hs.before (by simpa using hfalse)] at hpc
    cases hpc
  -- and the flag is cleared by its first line
  have hflag : pc ≠ .clear → s.server_running = false := by
    intro hne
    refine hs.flag hdelivered fun u hu => hne ?_
    rw [hpc] at hu
    exact (Prod.mk.inj (Option.some.inj hu)).2
  cases h with
  | clear =>
      refine { hs with locked := hlocked, before := ?_, cleared := fun _ => hdelivered,
                       flag := fun _ _ => rfl, stopped := ?_ }
      · exact fun h => absurd (hdelivered.symm.trans h) (by simp)
      · rintro - (hh | ⟨v, hh⟩) <;> simp at hh
  | closeListen =>
      refine { hs with locked := hlocked, before := ?_, flag := fun _ _ => hflag (by simp),
                       stopped := ?_ }
      · exact fun h => absurd (hdelivered.symm.trans h) (by simp)
      · rintro - (hh | ⟨v, hh⟩) <;> simp at hh
  | lock =>
      refine { hs with locked := hlocked, before := ?_, flag := fun _ _ => hflag (by simp),
                       stopped := ?_ }
      · exact fun h => absurd (hdelivered.symm.trans h) (by simp)
      · rintro - (hh | ⟨v, hh⟩) <;> simp at hh
  -- nobody sleeps after both broadcasts
  | broadcast =>
      have hnone : handlerSleeps .broadcast s.pc s.asleep = ∅ := broadcast_all hs
      refine ⟨hlocked, ?_, ?_, ?_, ?_, fun _ => hdelivered, fun _ _ => hflag (by simp),
        fun _ _ => hnone⟩
      · exact fun u hu => absurd (hnone ▸ hu) (Finset.notMem_empty u)
      · exact fun hu => absurd (hnone ▸ hu) (Finset.notMem_empty _)
      · exact fun ⟨i, hu⟩ => absurd (hnone ▸ hu) (Finset.notMem_empty _)
      · exact fun h => absurd (hdelivered.symm.trans h) (by simp)
  | unlock =>
      refine { hs with locked := hlocked, before := fun _ => rfl,
                       flag := fun _ _ => hflag (by simp), stopped := ?_ }
      exact fun _ _ => hs.stopped hdelivered (.inr ⟨t, hpc⟩)

/-- Every move keeps it, a wakeup without a signal among them: it only takes away a sleeper. -/
theorem Awake.move (hs : Awake s) (h : Moves s e s') : Awake s' := by
  cases h with
  | thread hrun h hsleeps => exact hs.line hrun h hsleeps
  | handler hpc h => exact hs.handler hpc h
  | deliver halive h =>
      refine { hs with locked := hs.locked.step (.deliver halive h), before := ?_,
                       cleared := fun _ => rfl, flag := ?_, stopped := ?_ }
      · exact fun h => absurd h (by simp)
      · exact fun _ hclear => absurd rfl (hclear _)
      · rintro - (hh | ⟨v, hh⟩) <;> simp at hh
  | @spurious t h =>
      have hsub : s.asleep.erase t ⊆ s.asleep := Finset.erase_subset t s.asleep
      refine { hs with waits := fun u hu => hs.waits u (hsub hu)
                       full := fun hu => hs.full (hsub hu), workers := ?_, stopped := ?_ }
      · rintro ⟨i, hu⟩
        exact (hs.workers ⟨i, hsub hu⟩).trans
          (Nat.cast_le.mpr (Finset.card_le_card (engaged_anti hsub)))
      · intro hd hh
        have hnone := hs.stopped hd hh
        rw [hnone] at h
        exact absurd h (Finset.notMem_empty t)

end Moves

/-- Hence it holds in whatever state a run comes to. -/
theorem awake_of_reachable {q : connection_queue_t} {listen_sd : ℤ} {s : World}
    (h : Reachable Moves (World.start q listen_sd) s) : Awake s :=
  h.invariant Awake (awake_start q listen_sd) fun _ _ _ hs hmove => hs.move hmove

end CourseLabs.Server
