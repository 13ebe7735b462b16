/-
`client.c` of both problems: a pool of clients and its two barriers.

Each client creates a socket, resolves the host and connects, and returns when one of the
three fails; only behind the connection do they wait for each other, at two barriers that
were made for all of them. A client that returns early is never counted, so the others
wait for ever: `no_deadlock_iff` says that the pool gets through when all clients connect
or none does, and else reaches a deadlock.

What the three calls of each client answer is a parameter (`Calls`). Sending and
receiving may go either way. Receiving may also go on, as it does in the client of the
proxy server. The lock around printing is held for one call and is left out.
-/
import CourseLabs.Transition
import Mathlib.Data.Fintype.Card
import Mathlib.Data.Fintype.Pi
import Mathlib.Tactic.Linarith

set_option autoImplicit false

namespace CourseLabs.ClientPool

open CourseLabs.Transition

/-! ## The program -/

/-- What the calls of a client answer. They are fixed before the run, and the results hold for
every choice of them. -/
structure Calls where
  socket : Bool
  inet_pton : Bool
  gethostbyname : Bool
  connect : Bool

/-- The client has a connection in the end: by the address itself, or by the name it stands for. -/
def Calls.connects (c : Calls) : Bool :=
  c.socket && (c.inet_pton || c.gethostbyname) && c.connect

/-- The two barriers every client of a pool comes to. -/
inductive Barrier where
  | connect
  | send
deriving DecidableEq

/-- Where a client is: at a call, at one of the barriers, blocked in one, or returned. -/
inductive Pc where
  | socket
  | resolve
  | lookup
  | connect
  -- at a barrier, and blocked in it
  | atBarrier (b : Barrier)
  | blocked (b : Barrier)
  | send
  | recv
  | returned
deriving DecidableEq

/-- Behind a barrier. -/
def Barrier.next : Barrier → Pc
  | .connect => .atBarrier .send
  | .send => .send

/-- The steps of `client_worker` outside the barriers. A call that fails makes the client return,
with no barrier on the way out. -/
inductive Line (c : Calls) (pool_size : ℕ) : Pc → Pc → Prop
  | socketFailed (h : c.socket = false) : Line c pool_size .socket .returned
  | socket (h : c.socket = true) : Line c pool_size .socket .resolve
  | resolved (h : c.inet_pton = true) : Line c pool_size .resolve .connect
  | resolve (h : c.inet_pton = false) : Line c pool_size .resolve .lookup
  | lookupFailed (h : c.gethostbyname = false) : Line c pool_size .lookup .returned
  | lookup (h : c.gethostbyname = true) : Line c pool_size .lookup .connect
  | connectFailed (h : c.connect = false) : Line c pool_size .connect .returned
  | connect (h : c.connect = true) (hpool : 1 < pool_size) :
      Line c pool_size .connect (.atBarrier .connect)
  | connectAlone (h : c.connect = true) (hpool : ¬ 1 < pool_size) : Line c pool_size .connect .send
  | sendFailed : Line c pool_size .send .returned
  | send : Line c pool_size .send .recv
  | recvMore : Line c pool_size .recv .recv
  | recv : Line c pool_size .recv .returned

/-- Where each client is, and how many wait at each barrier. -/
structure State (pool_size : ℕ) where
  pc : Fin pool_size → Pc
  /-- How many clients are blocked in each barrier. -/
  waiting : Barrier → ℕ

variable {N : ℕ}

/-- A step of the client `i`. The last one to arrive at a barrier lets all of them go. -/
inductive Step (calls : Fin N → Calls) : State N → Fin N → State N → Prop
  | line {s : State N} {i : Fin N} {pc : Pc} (h : Line (calls i) N (s.pc i) pc) :
      Step calls s i { s with pc := Function.update s.pc i pc }
  | block {s : State N} {i : Fin N} {b : Barrier} (hpc : s.pc i = .atBarrier b)
      (h : s.waiting b + 1 < N) :
      Step calls s i { pc := Function.update s.pc i (.blocked b)
                       waiting := Function.update s.waiting b (s.waiting b + 1) }
  | release {s : State N} {i : Fin N} {b : Barrier} (hpc : s.pc i = .atBarrier b)
      (h : s.waiting b + 1 = N) :
      Step calls s i { pc := fun j => if j = i ∨ s.pc j = .blocked b then b.next else s.pc j
                       waiting := Function.update s.waiting b 0 }

/-- Every client is about to make its socket, and nobody waits. -/
def start (N : ℕ) : State N where
  pc := fun _ => .socket
  waiting := fun _ => 0

/-- Some client is unfinished, and all unfinished ones are blocked in a barrier. -/
def Deadlock (s : State N) : Prop :=
  (∃ i, s.pc i ≠ .returned) ∧ ∀ i, s.pc i ≠ .returned → ∃ b, s.pc i = .blocked b

/-! ## The invariant

The pool as a whole is in front of the first barrier, between the two, or behind the
second. A client that returns in front of the first keeps the pool there for good. -/

/-- Before the first barrier has let anybody through, or returned without having come to it. -/
def Early (c : Calls) : Pc → Prop
  | .socket | .resolve | .lookup | .connect | .atBarrier .connect | .blocked .connect => True
  | .returned => c.connects = false
  | _ => False

/-- Past the first barrier, and not past the second: the request is about to be sent. -/
def Between : Pc → Prop
  | .atBarrier .send | .blocked .send => True
  | _ => False

/-- Past both barriers, or returned: no barrier is left for the client to wait at. -/
def Late : Pc → Prop
  | .send | .recv | .returned => True
  | _ => False

/-- What a client has behind it: which of its calls must have succeeded for it to be where it is.
-/
def Passed (c : Calls) : Pc → Prop
  | .resolve => c.socket = true
  | .lookup => c.socket = true ∧ c.inet_pton = false
  | .connect => c.socket = true ∧ (c.inet_pton || c.gethostbyname) = true
  | .atBarrier _ | .blocked _ => c.connects = true
  | _ => True

/-- The clients that are blocked in a barrier. The count of the barrier is the number of these. -/
def blockedAt (s : State N) (b : Barrier) : Finset (Fin N) :=
  Finset.univ.filter fun i => s.pc i = .blocked b

/-- What every run keeps: the counts of the barriers are those of the clients blocked there, and
nobody is past a barrier while another one, that will come to it, has not. -/
structure Inv (calls : Fin N → Calls) (s : State N) : Prop where
  phase : (∀ i, Early (calls i) (s.pc i)) ∨ (∀ i, Between (s.pc i)) ∨ ∀ i, Late (s.pc i)
  passed : ∀ i, Passed (calls i) (s.pc i)
  count : ∀ b, s.waiting b = (blockedAt s b).card
  room : ∀ b, s.waiting b < N

section Steps

variable {calls : Fin N → Calls} {s t : State N} {i : Fin N} {b : Barrier} {pc pc' : Pc}
  {c : Calls}

/-- A client is blocked at a barrier if its program counter says so. -/
theorem mem_blockedAt : i ∈ blockedAt s b ↔ s.pc i = .blocked b := by
  rw [blockedAt, Finset.mem_filter, and_iff_right (Finset.mem_univ i)]

/-- Whoever has got past the calls that may fail has a connection. -/
theorem Line.passed (h : Line c N pc pc') (hp : Passed c pc) : Passed c pc' := by
  cases h with
  | resolved h => exact ⟨hp, by rw [h]; rfl⟩
  | resolve h => exact ⟨hp, h⟩
  | lookup h => exact ⟨hp.1, by rw [h, Bool.or_true]⟩
  | connect h =>
      have hp' : c.socket = true ∧ (c.inet_pton || c.gethostbyname) = true := hp
      simp [Passed, Calls.connects, hp'.1, hp'.2, h]
  | socket h => exact h
  | _ => trivial

/-- A client that returns early has no connection. -/
theorem Line.early (h : Line c N pc pc') (hN : 2 ≤ N) (hp : Passed c pc) (he : Early c pc) :
    Early c pc' := by
  cases h with
  | socketFailed h => simp [Early, Calls.connects, h]
  | lookupFailed h =>
      have hp' : c.socket = true ∧ c.inet_pton = false := hp
      simp [Early, Calls.connects, hp'.2, h]
  | connectFailed h => simp [Early, Calls.connects, h]
  | connectAlone _ hpool => exact absurd (show 1 < N by omega) hpool
  | sendFailed | send | recvMore | recv => exact he.elim
  | _ => trivial

/-- Nobody goes back. -/
theorem Line.late (h : Line c N pc pc') (hl : Late pc) : Late pc' := by
  cases h with
  | sendFailed | send | recvMore | recv => trivial
  | _ => exact hl.elim

/-- Outside the barriers nobody is blocked. -/
theorem Line.not_blocked (h : Line c N pc pc') (b : Barrier) :
    pc ≠ .blocked b ∧ pc' ≠ .blocked b := by
  cases h <;> simp

/-- Nobody waits at the start. -/
theorem inv_start (calls : Fin N → Calls) (hN : 2 ≤ N) : Inv calls (start N) := by
  refine ⟨Or.inl fun _ => trivial, fun _ => trivial, fun b => ?_, fun _ => show 0 < N by omega⟩
  rw [blockedAt, Finset.filter_false_of_mem fun _ _ => by simp [start]]
  rfl

/-- A line of one client changes no count. -/
theorem Inv.line (hN : 2 ≤ N) (hi : Inv calls s) (h : Line (calls i) N (s.pc i) pc) :
    Inv calls { s with pc := Function.update s.pc i pc } := by
  refine ⟨?_, ?_, fun b => ?_, hi.room⟩
  -- no line but the barriers leads from one part of the program to the next
  · rcases hi.phase with he | hb | hl
    · exact Or.inl ((Function.forall_update_iff s.pc fun j p => Early (calls j) p).mpr
        ⟨h.early hN (hi.passed i) (he i), fun j _ => he j⟩)
    · have hbi := hb i
      generalize s.pc i = old at h hbi
      cases h <;> exact hbi.elim
    · exact Or.inr (Or.inr ((Function.forall_update_iff s.pc fun _ p => Late p).mpr
        ⟨h.late (hl i), fun j _ => hl j⟩))
  · exact (Function.forall_update_iff s.pc fun j p => Passed (calls j) p).mpr
      ⟨h.passed (hi.passed i), fun j _ => hi.passed j⟩
  -- and no line makes a client wait
  · rw [hi.count]
    congr 1
    ext j
    rw [mem_blockedAt, mem_blockedAt]
    rcases eq_or_ne j i with rfl | hne
    · simp [h.not_blocked b]
    · simp [Function.update_of_ne hne]

/-- A client that is not the last to come to a barrier waits there. -/
theorem Inv.block (hi : Inv calls s) (hpc : s.pc i = .atBarrier b) (h : s.waiting b + 1 < N) :
    Inv calls { pc := Function.update s.pc i (.blocked b)
                waiting := Function.update s.waiting b (s.waiting b + 1) } := by
  have hpassed := hi.passed i
  rw [hpc] at hpassed
  refine ⟨?_, ?_, fun b' => ?_, ?_⟩
  -- whether the clients are before the first barrier, between the two, or past both
  · rcases hi.phase with he | hb | hl
    · refine Or.inl ((Function.forall_update_iff s.pc fun j p => Early (calls j) p).mpr
        ⟨?_, fun j _ => he j⟩)
      have hei := he i
      rw [hpc] at hei
      cases b with
      | connect => trivial
      | send => exact hei.elim
    · refine Or.inr (Or.inl ((Function.forall_update_iff s.pc fun _ p => Between p).mpr
        ⟨?_, fun j _ => hb j⟩))
      have hbi := hb i
      rw [hpc] at hbi
      cases b with
      | connect => exact hbi.elim
      | send => trivial
    · have hli := hl i
      rw [hpc] at hli
      exact hli.elim
  -- no call is made at a barrier
  · exact (Function.forall_update_iff s.pc fun j p => Passed (calls j) p).mpr
      ⟨hpassed, fun j _ => hi.passed j⟩
  -- one waits more at this barrier, and as many as before at the other
  · rcases eq_or_ne b' b with rfl | hne
    · have hset : blockedAt { pc := Function.update s.pc i (.blocked b')
                              waiting := Function.update s.waiting b' (s.waiting b' + 1) } b'
          = insert i (blockedAt s b') := by
        ext j
        rw [Finset.mem_insert, mem_blockedAt, mem_blockedAt]
        rcases eq_or_ne j i with rfl | hj
        · simp
        · simp [hj]
      rw [hset, Finset.card_insert_of_notMem (by rw [mem_blockedAt, hpc]; simp), ← hi.count]
      exact Function.update_self ..
    · dsimp only
      rw [Function.update_of_ne hne, hi.count]
      congr 1
      ext j
      rw [mem_blockedAt, mem_blockedAt]
      rcases eq_or_ne j i with rfl | hj
      · simp [hpc, hne.symm]
      · simp [Function.update_of_ne hj]
  · exact (Function.forall_update_iff s.waiting fun _ n => n < N).mpr ⟨h, fun b' _ => hi.room b'⟩

/-- When the last one arrives, everybody else is blocked. -/
theorem Inv.all_blocked (hi : Inv calls s) (hpc : s.pc i = .atBarrier b)
    (h : s.waiting b + 1 = N) : ∀ j, j = i ∨ s.pc j = .blocked b := by
  have hsub : blockedAt s b ⊆ Finset.univ.erase i := by
    intro j hj
    rw [mem_blockedAt] at hj
    refine Finset.mem_erase.mpr ⟨?_, Finset.mem_univ j⟩
    rintro rfl
    rw [hpc] at hj
    exact absurd hj (by simp)
  have hall := Finset.eq_of_subset_of_card_le hsub (by
    rw [Finset.card_erase_of_mem (Finset.mem_univ i), Finset.card_univ, Fintype.card_fin,
      ← hi.count]
    omega)
  intro j
  rcases eq_or_ne j i with hj | hj
  · exact Or.inl hj
  · right
    rw [← mem_blockedAt, hall]
    exact Finset.mem_erase.mpr ⟨hj, Finset.mem_univ j⟩

/-- The last one to come takes all of them through. This is the only step that moves several
clients. -/
theorem Inv.release (hi : Inv calls s) (hpc : s.pc i = .atBarrier b) (h : s.waiting b + 1 = N) :
    Inv calls { pc := fun j => if j = i ∨ s.pc j = .blocked b then b.next else s.pc j
                waiting := Function.update s.waiting b 0 } := by
  -- as many are at the barrier as there are clients, so all are
  have hall := hi.all_blocked hpc h
  have hnext : ∀ j, (if j = i ∨ s.pc j = .blocked b then b.next else s.pc j) = b.next :=
    fun j => if_pos (hall j)
  have hpassed : ∀ j, (calls j).connects = true := by
    intro j
    have hj := hi.passed j
    rcases hall j with rfl | hb
    · rwa [hpc] at hj
    · rwa [hb] at hj
  -- all of them are then at the line behind it
  refine ⟨?_, fun j => ?_, fun b' => ?_, ?_⟩
  · simp only [hnext]
    cases b with
    | connect => exact Or.inr (Or.inl fun _ => trivial)
    | send => exact Or.inr (Or.inr fun _ => trivial)
  · dsimp only
    rw [hnext]
    cases b with
    | connect => exact hpassed j
    | send => trivial
  -- nobody waits there any more, and nobody waited at the other one
  · rw [blockedAt, Finset.filter_false_of_mem (fun j _ => by
      dsimp only
      rw [hnext]
      cases b <;> simp [Barrier.next]), Finset.card_empty]
    rcases eq_or_ne b' b with rfl | hne
    · exact Function.update_self ..
    · dsimp only
      rw [Function.update_of_ne hne, hi.count, Finset.card_eq_zero,
        Finset.eq_empty_iff_forall_notMem]
      intro j hj
      rw [mem_blockedAt] at hj
      rcases hall j with rfl | hb
      · rw [hpc] at hj
        exact absurd hj (by simp)
      · rw [hb] at hj
        exact hne (by simpa using hj.symm)
  · exact (Function.forall_update_iff s.waiting fun _ n => n < N).mpr
      ⟨by omega, fun b' _ => hi.room b'⟩

/-- **Every step keeps the invariant.** -/
theorem Inv.step (hN : 2 ≤ N) (hi : Inv calls s) (h : Step calls s i t) : Inv calls t := by
  cases h with
  | line h => exact hi.line hN h
  | block hpc h => exact hi.block hpc h
  | release hpc h => exact hi.release hpc h

theorem inv_of_reachable (hN : 2 ≤ N) (h : Reachable (Step calls) (start N) s) : Inv calls s :=
  h.invariant (Inv calls) (inv_start calls hN) fun _ _ _ hi hstep => hi.step hN hstep

/-- A barrier never has all the clients. -/
theorem Inv.not_all_blocked (hi : Inv calls s) (b : Barrier) : ∃ i, s.pc i ≠ .blocked b := by
  by_contra hno
  push Not at hno
  have hroom := hi.room b
  rw [hi.count, blockedAt, Finset.filter_true_of_mem fun i _ => hno i, Finset.card_univ,
    Fintype.card_fin] at hroom
  exact lt_irrefl N hroom

/-! ## Pools that get through -/

/-- If everybody connects somebody can always move: the last one to come to a barrier opens it. -/
theorem Inv.not_deadlock_of_all (hi : Inv calls s) (hall : ∀ i, (calls i).connects = true) :
    ¬ Deadlock s := by
  rintro ⟨⟨i, hi'⟩, hblocked⟩
  rcases hi.phase with he | hb | hl
  -- before the first barrier: one of them is not at it yet, and has not failed
  · obtain ⟨j, hj⟩ := hi.not_all_blocked .connect
    have hej := he j
    rcases eq_or_ne (s.pc j) .returned with hret | hret
    · rw [hret] at hej
      rw [Early, hall j] at hej
      exact absurd hej (by decide)
    · obtain ⟨b, hb⟩ := hblocked j hret
      rw [hb] at hej hj
      cases b with
      | connect => exact hj rfl
      | send => exact hej.elim
  -- between the two: one is not at the second yet
  · obtain ⟨j, hj⟩ := hi.not_all_blocked .send
    have hbj := hb j
    obtain ⟨b, hb⟩ := hblocked j (fun hret => by rw [hret] at hbj; exact hbj.elim)
    rw [hb] at hbj hj
    cases b with
    | connect => exact hbj.elim
    | send => exact hj rfl
  -- past both nobody is blocked
  · have hli := hl i
    obtain ⟨b, hb⟩ := hblocked i hi'
    rw [hb] at hli
    exact hli.elim

/-- If nobody connects nobody comes to a barrier. -/
theorem Inv.not_deadlock_of_none (hi : Inv calls s) (hnone : ∀ i, (calls i).connects = false) :
    ¬ Deadlock s := by
  rintro ⟨⟨i, hi'⟩, hblocked⟩
  obtain ⟨b, hb⟩ := hblocked i hi'
  have hpassed := hi.passed i
  rw [hb, Passed, hnone i] at hpassed
  exact absurd hpassed (by decide)

/-- Outside the barriers a client that has not returned has a next line. -/
theorem exists_line (hN : 2 ≤ N) (c : Calls) (hbarrier : ∀ b, pc ≠ .atBarrier b)
    (hblocked : ∀ b, pc ≠ .blocked b) (hret : pc ≠ .returned) : ∃ pc', Line c N pc pc' := by
  -- the lines of a client, with both outcomes where the call has two
  cases pc with
  | atBarrier b => exact absurd rfl (hbarrier b)
  | blocked b => exact absurd rfl (hblocked b)
  | returned => exact absurd rfl hret
  | socket =>
      cases h : c.socket with
      | true => exact ⟨_, .socket h⟩
      | false => exact ⟨_, .socketFailed h⟩
  | resolve =>
      cases h : c.inet_pton with
      | true => exact ⟨_, .resolved h⟩
      | false => exact ⟨_, .resolve h⟩
  | lookup =>
      cases h : c.gethostbyname with
      | true => exact ⟨_, .lookup h⟩
      | false => exact ⟨_, .lookupFailed h⟩
  | connect =>
      cases h : c.connect with
      | true => exact ⟨_, .connect h (by omega)⟩
      | false => exact ⟨_, .connectFailed h⟩
  | send => exact ⟨_, .send⟩
  | recv => exact ⟨_, .recv⟩

/-- A client can take a step unless it has returned or is blocked. -/
theorem Inv.exists_step (hN : 2 ≤ N) (hi : Inv calls s) (hblocked : ∀ b, s.pc i ≠ .blocked b)
    (hret : s.pc i ≠ .returned) : ∃ t, Step calls s i t := by
  by_cases hbarrier : ∃ b, s.pc i = .atBarrier b
  · obtain ⟨b, hpc⟩ := hbarrier
    have hroom := hi.room b
    rcases Nat.lt_or_eq_of_le (show s.waiting b + 1 ≤ N by omega) with hlt | heq
    · exact ⟨_, .block hpc hlt⟩
    · exact ⟨_, .release hpc heq⟩
  · push Not at hbarrier
    obtain ⟨pc', hline⟩ := exists_line hN (calls i) hbarrier hblocked hret
    exact ⟨_, .line hline⟩

/-- Nothing moves exactly when whoever has not returned is blocked at a barrier. -/
theorem Inv.stuck_iff (hN : 2 ≤ N) (hi : Inv calls s) :
    Stuck (Step calls) s ↔ ∀ i, s.pc i ≠ .returned → ∃ b, s.pc i = .blocked b := by
  constructor
  -- somebody at a line or a barrier could move
  · intro hstuck i hret
    by_contra hno
    push Not at hno
    obtain ⟨t, hstep⟩ := hi.exists_step hN hno hret
    exact hstuck i t hstep
  -- whoever moves is not blocked, whichever step it is
  · intro hall i t hstep
    have hblocked := hall i
    cases hstep with
    | line h =>
        have hret : s.pc i ≠ .returned := by
          intro hret
          rw [hret] at h
          nomatch h
        obtain ⟨b, hb⟩ := hblocked hret
        exact (h.not_blocked b).1 hb
    | block hpc h | release hpc h =>
        rw [hpc] at hblocked
        obtain ⟨b', hb⟩ := hblocked (by simp)
        exact absurd hb (by simp)

end Steps

/-! ## Pools that do not

One client after the other runs until it has returned or is blocked. As long as one of
them fails, the first barrier never gets the last arrival it waits for. -/

section Mixed

variable {calls : Fin N → Calls} {s s₀ : State N} {i : Fin N} {pc pc' : Pc}

/-- The client `i` of the pool at `pc`. -/
def State.at (s : State N) (i : Fin N) (pc : Pc) : State N :=
  { s with pc := Function.update s.pc i pc }

/-- One line more of one client. -/
theorem reachable_at (hr : Reachable (Step calls) s₀ (s.at i pc)) (h : Line (calls i) N pc pc') :
    Reachable (Step calls) s₀ (s.at i pc') := by
  have hline : Line (calls i) N ((s.at i pc).pc i) pc' := by
    rw [State.at]
    dsimp only
    rwa [Function.update_self]
  have hstep := hr.tail (.line hline)
  rwa [State.at, Function.update_idem] at hstep

/-- A client on its own, up to the first barrier. -/
theorem reachable_connect (hN : 2 ≤ N) (hr : Reachable (Step calls) s₀ (s.at i .socket)) :
    Reachable (Step calls) s₀
      (s.at i (if (calls i).connects then .atBarrier .connect else .returned)) := by
  cases hsocket : (calls i).socket with
  | false =>
      rw [if_neg (by simp [Calls.connects, hsocket])]
      exact reachable_at hr (.socketFailed hsocket)
  | true =>
      have hresolve := reachable_at hr (.socket hsocket)
      -- the address is a number or a name, or neither
      cases hhost : (calls i).inet_pton || (calls i).gethostbyname with
      | false =>
          rw [if_neg (by simp [Calls.connects, hhost])]
          rw [Bool.or_eq_false_iff] at hhost
          exact reachable_at (reachable_at hresolve (.resolve hhost.1)) (.lookupFailed hhost.2)
      | true =>
          have hconnect : Reachable (Step calls) s₀ (s.at i .connect) := by
            cases hpton : (calls i).inet_pton with
            | true => exact reachable_at hresolve (.resolved hpton)
            | false =>
                rw [hpton, Bool.false_or] at hhost
                exact reachable_at (reachable_at hresolve (.resolve hpton)) (.lookup hhost)
          cases hconn : (calls i).connect with
          | false =>
              rw [if_neg (by simp [Calls.connects, hconn])]
              exact reachable_at hconnect (.connectFailed hconn)
          | true =>
              rw [if_pos (by simp [Calls.connects, hsocket, hhost, hconn])]
              exact reachable_at hconnect (.connect hconn (by omega))

/-- The pool after the clients of `T` have run: blocked, or returned. -/
def ranUntilBlocked (calls : Fin N → Calls) (T : Finset (Fin N)) : State N where
  pc := fun i => if i ∈ T then
      if (calls i).connects then .blocked .connect else .returned
    else .socket
  waiting := Function.update (fun _ => 0) .connect (T.filter fun i => (calls i).connects).card

/-- One client more. -/
theorem ranUntilBlocked_insert {T : Finset (Fin N)} (hi : i ∉ T) :
    ranUntilBlocked calls (insert i T)
      = { pc := Function.update (ranUntilBlocked calls T).pc i
            (if (calls i).connects then .blocked .connect else .returned)
          waiting := if (calls i).connects then Function.update (ranUntilBlocked calls T).waiting
              .connect ((ranUntilBlocked calls T).waiting .connect + 1)
            else (ranUntilBlocked calls T).waiting } := by
  refine congrArg₂ State.mk (funext fun j => ?_) ?_
  · rcases eq_or_ne j i with rfl | hj
    · simp
    · simp [ranUntilBlocked, hj]
  · rw [Finset.filter_insert]
    cases hc : (calls i).connects with
    | false => rfl
    | true =>
        rw [if_pos rfl, if_pos rfl, Finset.card_insert_of_notMem (by simp [hi])]
        simp [ranUntilBlocked]

/-- While one client fails, there is no last arrival. -/
theorem card_connecting_lt {T : Finset (Fin N)} (hN : 2 ≤ N)
    (hfail : ∃ k, (calls k).connects = false) (hi : i ∉ T) (hc : (calls i).connects = true) :
    (T.filter fun i => (calls i).connects).card + 1 < N := by
  obtain ⟨k, hk⟩ := hfail
  have hki : k ≠ i := by
    rintro rfl
    rw [hk] at hc
    exact absurd hc (by decide)
  -- the connecting ones of the set are neither the failing client nor the one that comes
  have hsub : T.filter (fun i => (calls i).connects) ⊆ (Finset.univ.erase i).erase k := by
    intro j hj
    rw [Finset.mem_filter] at hj
    refine Finset.mem_erase.mpr ⟨?_, Finset.mem_erase.mpr ⟨?_, Finset.mem_univ j⟩⟩
    · rintro rfl
      rw [hk] at hj
      exact absurd hj.2 (by decide)
    · rintro rfl
      exact hi hj.1
  have hcard := Finset.card_le_card hsub
  rw [Finset.card_erase_of_mem (Finset.mem_erase.mpr ⟨hki, Finset.mem_univ k⟩),
    Finset.card_erase_of_mem (Finset.mem_univ i), Finset.card_univ, Fintype.card_fin] at hcard
  omega

/-- **The run into the deadlock**: the clients of a set go as far as they get, one after the other.
Induction on the set; a failing client keeps every barrier shut. -/
theorem reachable_ranUntilBlocked (hN : 2 ≤ N) (hfail : ∃ k, (calls k).connects = false)
    (T : Finset (Fin N)) : Reachable (Step calls) (start N) (ranUntilBlocked calls T) := by
  induction T using Finset.induction_on with
  | empty =>
      have hstart : ranUntilBlocked calls ∅ = start N := by
        simp [ranUntilBlocked, start]
      rw [hstart]
      exact .refl _ _
  | insert i T hi ih =>
      have hat : (ranUntilBlocked calls T).at i .socket = ranUntilBlocked calls T := by
        rw [State.at, Function.update_eq_self_iff.mpr (by simp [ranUntilBlocked, hi])]
      rw [← hat] at ih
      have hrun := reachable_connect hN ih
      rw [ranUntilBlocked_insert hi]
      -- a client that fails returns, one that connects waits
      cases hc : (calls i).connects with
      | false =>
          rw [hc, if_neg (by decide)] at hrun
          exact hrun
      | true =>
          rw [hc, if_pos rfl] at hrun
          -- and is not the last, as one fails
          have hroom := card_connecting_lt hN hfail hi hc
          have hstep := hrun.tail (.block (b := .connect) (Function.update_self ..)
            (by simpa [State.at, ranUntilBlocked] using hroom))
          rwa [State.at, Function.update_idem] at hstep

/-- With a client that fails and one that connects there is a run into a deadlock. -/
theorem exists_deadlock (hN : 2 ≤ N) (hfail : ∃ i, (calls i).connects = false)
    (hsome : ∃ i, (calls i).connects = true) :
    ∃ s, Reachable (Step calls) (start N) s ∧ Deadlock s := by
  obtain ⟨i, hi⟩ := hsome
  refine ⟨_, reachable_ranUntilBlocked hN hfail Finset.univ, ⟨i, by simp [ranUntilBlocked, hi]⟩, ?_⟩
  intro j hj
  cases hc : (calls j).connects with
  | false => exact absurd (by simp [ranUntilBlocked, hc]) hj
  | true => exact ⟨.connect, by simp [ranUntilBlocked, hc]⟩

end Mixed

/-! ## Deadlock -/

/-- **When the pool cannot deadlock**: exactly when every client connects, or none does.
The two statements of it agree: no reachable state is a deadlock, and a reachable state
without a step is one where all clients have returned. -/
theorem no_deadlock_iff (hN : 2 ≤ N) (calls : Fin N → Calls) :
    ((∀ s, Reachable (Step calls) (start N) s → ¬ Deadlock s)
        ↔ (∀ i, (calls i).connects = true) ∨ ∀ i, (calls i).connects = false)
      ∧ ((∀ s, Reachable (Step calls) (start N) s → Stuck (Step calls) s → ∀ i, s.pc i = .returned)
        ↔ (∀ i, (calls i).connects = true) ∨ ∀ i, (calls i).connects = false) := by
  have hiff : (∀ s, Reachable (Step calls) (start N) s → ¬ Deadlock s)
      ↔ (∀ i, (calls i).connects = true) ∨ ∀ i, (calls i).connects = false := by
    constructor
    -- a pool in which some connect and some fail runs into a deadlock
    · intro h
      by_contra hmixed
      rw [not_or, not_forall, not_forall] at hmixed
      simp only [Bool.not_eq_true, Bool.not_eq_false] at hmixed
      obtain ⟨s, hreach, hdead⟩ := exists_deadlock hN hmixed.1 hmixed.2
      exact h s hreach hdead
    -- with all or none of them there is a next step
    · rintro (hall | hnone) s hreach
      · exact (inv_of_reachable hN hreach).not_deadlock_of_all hall
      · exact (inv_of_reachable hN hreach).not_deadlock_of_none hnone
  refine ⟨hiff, Iff.trans (forall₂_congr fun s hreach => ?_) hiff⟩
  rw [(inv_of_reachable hN hreach).stuck_iff hN, Deadlock, not_and']
  exact imp_congr_right fun _ => by simp

/-- Two clients that both connect. -/
theorem no_deadlock_iff_two :
    (∀ s, Reachable (Step fun _ : Fin 2 => Calls.mk true true true true) (start 2) s →
        ¬ Deadlock s)
      ∧ ∀ s, Reachable (Step fun _ : Fin 2 => Calls.mk true true true true) (start 2) s →
        Stuck (Step fun _ : Fin 2 => Calls.mk true true true true) s →
          ∀ i, s.pc i = .returned :=
  ⟨(no_deadlock_iff (le_refl 2) fun _ => Calls.mk true true true true).1.mpr
      (Or.inl fun _ => rfl),
    (no_deadlock_iff (le_refl 2) fun _ => Calls.mk true true true true).2.mpr
      (Or.inl fun _ => rfl)⟩

/-- Two clients, of which one cannot connect. -/
theorem not_no_deadlock :
    ¬ ∀ (N : ℕ) (calls : Fin N → Calls), 2 ≤ N →
      ∀ s, Reachable (Step calls) (start N) s → ¬ Deadlock s := by
  intro h
  let calls : Fin 2 → Calls := fun i =>
    { socket := true, inet_pton := true, gethostbyname := true, connect := i = 0 }
  obtain ⟨s, hreach, hdead⟩ := @exists_deadlock 2 calls (le_refl 2) ⟨1, rfl⟩ ⟨0, rfl⟩
  exact h 2 _ (le_refl 2) s hreach hdead

end CourseLabs.ClientPool
