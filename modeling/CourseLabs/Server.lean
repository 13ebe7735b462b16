/-
`server.c`: the acceptor, the workers and the handler of the stop signal, as a transition
system.

Every thread has a program counter (`Pc`), which names the line it executes next and
keeps the local variables that are still needed. A step is one access to what the threads
share: a read of `server_running`, the body of a critical section (nobody else touches
the queue while the mutex is held), a lock, an unlock, a call of the system. So the flag
may fall between any two of them, also inside a critical section.

The system is as free as POSIX lets it be. `accept` fails, or returns any descriptor that
is not open. A wait on a condition gives the mutex up and takes it again at any later
time, with or without a signal, which is why signalling a condition is not a step. The
stop signal is delivered once, to any thread that has not returned; the handler runs on
top of that thread, which does not move until the handler has returned. Printing,
`getpeername` and the contents of the messages are left out.
-/
import CourseLabs.ConnectionQueue
import Mathlib.Data.Fintype.Sum
import Mathlib.Tactic.DeriveFintype

set_option autoImplicit false

namespace CourseLabs.Server

open CourseLabs.ConnectionQueue

def NUM_WORKERS : ℕ := 5

inductive Thread where
  | main
  | worker (i : Fin NUM_WORKERS)
deriving DecidableEq, Fintype

/-- Where a thread is. The descriptor is `client_sd`, unless it is `accept`'s argument. -/
inductive Pc where
  -- main: the accept loop
  | acceptTest
  | acceptCall
  | accept (listen_sd : ℤ)
  | acceptError
  -- queue_push
  | pushLock (client_sd : ℤ)
  | pushFull (client_sd : ℤ)
  | pushWait (client_sd : ℤ)
  | pushCheck (client_sd : ℤ)
  | pushStore (client_sd : ℤ)
  | pushUnlock
  -- main: behind the accept loop
  | stopLock
  | stopUnlock
  | join
  -- worker_routine
  | workerTest
  -- queue_pop
  | popLock
  | popEmpty
  | popWait
  | popCheck
  | popTake
  | popUnlock (client_sd : ℤ)
  -- worker_routine, with the result of queue_pop
  | popped (client_sd : ℤ)
  | recv (client_sd : ℤ)
  | send (client_sd : ℤ)
  | close (client_sd : ℤ)
  | returned

/-- What the threads share, and, in `accepted` and `closed`, the descriptors that
`accept` has returned and that `close(client_sd)` has been called with. -/
structure Shared where
  queue : connection_queue_t
  mutex : Option Thread
  server_running : Bool
  listen_sd : ℤ
  accepted : List ℤ
  closed : List ℤ

/-- One step of the thread `t`, from one line to the next. -/
inductive Line (t : Thread) : Pc → Shared → Pc → Shared → Prop
  -- while (server_running)
  | acceptRun {sh : Shared} (h : sh.server_running = true) : Line t .acceptTest sh .acceptCall sh
  | acceptStop {sh : Shared} (h : sh.server_running = false) : Line t .acceptTest sh .stopLock sh
  | acceptCall {sh : Shared} : Line t .acceptCall sh (.accept sh.listen_sd) sh
  | accepted {sh : Shared} {listen_sd : ℤ} (client_sd : ℤ) (h : 0 ≤ client_sd)
      (hlisten : 0 ≤ listen_sd) (hne : client_sd ≠ sh.listen_sd)
      (hfresh : sh.accepted.count client_sd = sh.closed.count client_sd) :
      Line t (.accept listen_sd) sh (.pushLock client_sd)
        { sh with accepted := client_sd :: sh.accepted }
  | acceptFailed {sh : Shared} {listen_sd : ℤ} : Line t (.accept listen_sd) sh .acceptError sh
  -- if (!server_running) break; ... continue;
  | errorBreak {sh : Shared} (h : sh.server_running = false) : Line t .acceptError sh .stopLock sh
  | errorContinue {sh : Shared} (h : sh.server_running = true) :
      Line t .acceptError sh .acceptTest sh
  -- queue_push
  | pushLock {sh : Shared} {client_sd : ℤ} (h : sh.mutex = none) :
      Line t (.pushLock client_sd) sh (.pushFull client_sd) { sh with mutex := some t }
  | pushFull {sh : Shared} {client_sd : ℤ} (h : push_waits sh.server_running sh.queue = true) :
      Line t (.pushFull client_sd) sh (.pushWait client_sd) { sh with mutex := none }
  | pushWake {sh : Shared} {client_sd : ℤ} (h : sh.mutex = none) :
      Line t (.pushWait client_sd) sh (.pushFull client_sd) { sh with mutex := some t }
  | pushRoom {sh : Shared} {client_sd : ℤ} (h : push_waits sh.server_running sh.queue = false) :
      Line t (.pushFull client_sd) sh (.pushCheck client_sd) sh
  -- if (!server_running) ... return;
  | pushReturn {sh : Shared} {client_sd : ℤ} (h : sh.server_running = false) :
      Line t (.pushCheck client_sd) sh .pushUnlock sh
  | pushGo {sh : Shared} {client_sd : ℤ} (h : sh.server_running = true) :
      Line t (.pushCheck client_sd) sh (.pushStore client_sd) sh
  | pushStore {sh : Shared} {client_sd : ℤ} {q : connection_queue_t}
      (h : push_store sh.queue client_sd = some q) :
      Line t (.pushStore client_sd) sh .pushUnlock { sh with queue := q }
  | pushUnlock {sh : Shared} : Line t .pushUnlock sh .acceptTest { sh with mutex := none }
  -- the broadcast behind the accept loop
  | stopLock {sh : Shared} (h : sh.mutex = none) :
      Line t .stopLock sh .stopUnlock { sh with mutex := some t }
  | stopUnlock {sh : Shared} : Line t .stopUnlock sh .join { sh with mutex := none }
  -- while (server_running)
  | workerRun {sh : Shared} (h : sh.server_running = true) : Line t .workerTest sh .popLock sh
  | workerStop {sh : Shared} (h : sh.server_running = false) : Line t .workerTest sh .returned sh
  -- queue_pop
  | popLock {sh : Shared} (h : sh.mutex = none) :
      Line t .popLock sh .popEmpty { sh with mutex := some t }
  | popEmpty {sh : Shared} (h : pop_waits sh.server_running sh.queue = true) :
      Line t .popEmpty sh .popWait { sh with mutex := none }
  | popWake {sh : Shared} (h : sh.mutex = none) :
      Line t .popWait sh .popEmpty { sh with mutex := some t }
  | popAny {sh : Shared} (h : pop_waits sh.server_running sh.queue = false) :
      Line t .popEmpty sh .popCheck sh
  -- if (!server_running && q->count == 0) ... return -1;
  | popDrained {sh : Shared} (h : sh.server_running = false) (hcount : sh.queue.count = 0) :
      Line t .popCheck sh (.popUnlock (-1)) sh
  | popGo {sh : Shared} (h : ¬ (sh.server_running = false ∧ sh.queue.count = 0)) :
      Line t .popCheck sh .popTake sh
  | popTake {sh : Shared} {client_sd : ℤ} {q : connection_queue_t}
      (h : pop_take sh.queue = some (client_sd, q)) :
      Line t .popTake sh (.popUnlock client_sd) { sh with queue := q }
  | popUnlock {sh : Shared} {client_sd : ℤ} :
      Line t (.popUnlock client_sd) sh (.popped client_sd) { sh with mutex := none }
  -- if (client_sd < 0) break;
  | workerBreak {sh : Shared} {client_sd : ℤ} (h : client_sd < 0) :
      Line t (.popped client_sd) sh .returned sh
  | workerServe {sh : Shared} {client_sd : ℤ} (h : 0 ≤ client_sd) :
      Line t (.popped client_sd) sh (.recv client_sd) sh
  -- bytes_received > 0, and not
  | recvRequest {sh : Shared} {client_sd : ℤ} : Line t (.recv client_sd) sh (.send client_sd) sh
  | recvNothing {sh : Shared} {client_sd : ℤ} : Line t (.recv client_sd) sh (.close client_sd) sh
  | send {sh : Shared} {client_sd : ℤ} : Line t (.send client_sd) sh (.close client_sd) sh
  | close {sh : Shared} {client_sd : ℤ} :
      Line t (.close client_sd) sh .workerTest { sh with closed := client_sd :: sh.closed }

/-- Where the handler of the signal is. -/
inductive HandlerPc where
  | clear
  | closeListen
  | lock
  | broadcast
  | unlock

/-- One step of `handle_signal`, on the thread `t`; `none` is its return. -/
inductive Handler (t : Thread) : HandlerPc → Shared → Option HandlerPc → Shared → Prop
  | clear {sh : Shared} :
      Handler t .clear sh (some .closeListen) { sh with server_running := false }
  | closeListen {sh : Shared} :
      Handler t .closeListen sh (some .lock)
        { sh with listen_sd := if sh.listen_sd ≥ 0 then -1 else sh.listen_sd }
  | lock {sh : Shared} (h : sh.mutex = none) :
      Handler t .lock sh (some .broadcast) { sh with mutex := some t }
  | broadcast {sh : Shared} : Handler t .broadcast sh (some .unlock) sh
  | unlock {sh : Shared} : Handler t .unlock sh none { sh with mutex := none }

structure State extends Shared where
  pc : Thread → Pc
  /-- The signal has been delivered. -/
  delivered : Bool
  /-- The thread the handler runs on, and where it is. -/
  handler : Option (Thread × HandlerPc)

/-- Who takes a step: a thread, the system delivering the signal, the handler. -/
inductive Actor where
  | thread (t : Thread)
  | deliver (t : Thread)
  | handler

inductive Step : State → Actor → State → Prop
  | thread {s : State} {t : Thread} {pc : Pc} {sh : Shared}
      (hrun : ∀ h, s.handler ≠ some (t, h)) (h : Line t (s.pc t) s.toShared pc sh) :
      Step s (.thread t) { s with toShared := sh, pc := Function.update s.pc t pc }
  | deliver {s : State} {t : Thread} (halive : s.pc t ≠ .returned) (h : s.delivered = false) :
      Step s (.deliver t) { s with delivered := true, handler := some (t, .clear) }
  | handler {s : State} {t : Thread} {pc : HandlerPc} {pc' : Option HandlerPc} {sh : Shared}
      (hpc : s.handler = some (t, pc)) (h : Handler t pc s.toShared pc' sh) :
      Step s .handler { s with toShared := sh, handler := pc'.map fun pc' => (t, pc') }

/-- The server when `main` enters its accept loop. The workers exist by then. -/
def start (q : connection_queue_t) (listen_sd : ℤ) : State where
  queue := queue_init q
  mutex := none
  server_running := true
  listen_sd := listen_sd
  accepted := []
  closed := []
  pc := fun t => match t with
    | .main => .acceptTest
    | .worker _ => .workerTest
  delivered := false
  handler := none

end CourseLabs.Server
