/-
`simulate_go_back_n` of the flow-control experiment (`go_back_n.c`), read against the
protocol it stages.

The function has no channel. It keeps two counters and a flag, and prints what a sender, a
channel and a receiver would do, with the loss of frame 1 written into its first pass. So
the model returns what is printed, one `Event` a line, and the lines are then played back:
each is an assertion about a sliding window over numbered frames (`Event.tells`) and some
steps of it (`Event.actions`). A simulation is a true one when the whole of its output can
be played.

`WINDOW_SIZE` and `TOTAL_FRAMES` are parameters. The loss of frame 1 needs a frame 1 in
the first window, so the output is a true one exactly where both are at least 2, and for
no frames at all.
-/
import CourseLabs.CInt
import CourseLabs.CLoop
import CourseLabs.SlidingWindow

set_option autoImplicit false

namespace CourseLabs.GoBackN

open CInt CLoop SlidingWindow SlidingWindow.Script

/-! ## The simulation -/

/-- The lines printed, with the numbers in them. -/
inductive Event where
  /-- "Window Size (W) = %d | Total Frames to Transmit = %d" -/
  | banner (w t : ℕ)
  /-- "CURRENT WINDOW STATE: [%d to %d]" -/
  | window (lo : ℕ) (hi : ℤ)
  /-- "[Sender] Transmitting Frame %d..." -/
  | transmitting (f : ℕ)
  /-- "[Channel] Frame %d arrived" -/
  | arrived (f : ℕ)
  /-- "[Receiver] Frame %d accepted -> Sent ACK %d." -/
  | accepted (f ack : ℕ)
  /-- "[Sender] Received ACK %d.", and the window slides -/
  | receivedAck (ack : ℕ)
  /-- "[Channel] ERROR: Frame %d was LOST in transit" -/
  | lost (f : ℕ)
  /-- "[Receiver] Out of order! Expected Frame %d, received Frame %d." -/
  | outOfOrder (expected f : ℕ)
  /-- "[Receiver] Frame %d DISCARDED! Resending cumulative ACK %d." -/
  | discarded (f ack : ℕ)
  /-- "[Sender] TIMEOUT for Frame %d!" -/
  | timeout (f : ℕ)
  /-- "[Sender] Rolling back transmission pointer to Frame %d." -/
  | rollback (f : ℕ)
  /-- "Simulation Complete: All %d frames delivered successfully via GBN!" -/
  | complete (t : ℕ)
  deriving Repr, DecidableEq

/-- The variables of the simulation, with what it has printed. -/
structure Sim where
  ack_expected : ℕ
  next_frame_to_send : ℕ
  error_simulated : Bool
  log : List Event
  deriving Repr, DecidableEq

section Simulation

variable (WINDOW_SIZE TOTAL_FRAMES : ℕ)

/-- "Transmit frames within sender window" -/
def transmit_window (ack_expected : ℕ) :
    ℕ × List Event → Option (Pass (ℕ × List Event) (ℕ × List Event))
  | (next_frame_to_send, log) => do
    let top ← nat32 (ack_expected + WINDOW_SIZE)
    if next_frame_to_send < top ∧ next_frame_to_send < TOTAL_FRAMES then
      let next ← nat32 (next_frame_to_send + 1)
      some (.next (next, log ++ [.transmitting next_frame_to_send]))
    else
      some (.done (next_frame_to_send, log))

/-- "Normal error-free reception for remaining frames" -/
def receive_window (next_frame_to_send : ℕ) :
    ℕ × List Event → Option (Pass (ℕ × List Event) (ℕ × List Event))
  | (ack_expected, log) =>
    if ack_expected < next_frame_to_send then do
      let ack ← nat32 (ack_expected + 1)
      some (.next (ack, log ++ [.accepted ack_expected ack, .receivedAck ack]))
    else
      some (.done (ack_expected, log))

/-- The last frame of the window line: that of the window, or the last one there is. -/
def window_end (top : ℕ) : ℤ :=
  if (top : ℤ) - 1 < TOTAL_FRAMES then (top : ℤ) - 1 else (TOTAL_FRAMES : ℤ) - 1

/-- "Inject loss on Frame 1 during the first pass" -/
def inject_loss (next_frame_to_send : ℕ) (log : List Event) : Option (Pass Sim (List Event)) := do
  let log := log ++ [.arrived 0, .accepted 0 1, .receivedAck 1, .lost 1]
  let log ← forLoop 2 next_frame_to_send log fun f log =>
    some (log ++ [.arrived f, .outOfOrder 1 f, .discarded f 1])
  some (.next ⟨1, 1, true, log ++ [.timeout 1, .rollback 1]⟩)

/-- One round of the outer loop: the window is filled, and then it goes through, or loses its frame
1 in the first round. -/
def round (s : Sim) : Option (Pass Sim (List Event)) :=
  if s.ack_expected < TOTAL_FRAMES then do
    let top ← nat32 (s.ack_expected + WINDOW_SIZE)
    let log := s.log ++ [.window s.ack_expected (window_end TOTAL_FRAMES top)]
    let (next, log) ← loop (transmit_window WINDOW_SIZE TOTAL_FRAMES s.ack_expected)
      (s.next_frame_to_send, log)
    if !s.error_simulated && s.ack_expected == 0 then
      inject_loss next log
    else
      let (ack, log) ← loop (receive_window next) (s.ack_expected, log)
      some (.next ⟨ack, next, s.error_simulated, log⟩)
  else
    some (.done s.log)

/-- `simulate_go_back_n`: the banner, the rounds of the window, and the line of the end. The value
is what is printed. -/
def simulate_go_back_n : Option (List Event) := do
  let log ← loop (round WINDOW_SIZE TOTAL_FRAMES)
    ⟨0, 0, false, [.banner WINDOW_SIZE TOTAL_FRAMES]⟩
  some (log ++ [.complete TOTAL_FRAMES])

end Simulation

/-! ## Playing the output back -/

/-- What a line asserts of the window before it. -/
def Event.tells (W T : ℕ) (s : State ℕ) : Event → Bool
  | .banner w t => w = W ∧ t = T
  | .window lo hi => s.base = lo ∧ hi = (min (lo + W) T : ℕ) - (1 : ℤ)
  | .transmitting f => s.next = f
  | .arrived f => s.frames.head? = some (f, f)
  | .accepted f ack => s.frames.head? = some (f, f) ∧ s.expected = f ∧ ack = f + 1
  | .receivedAck ack => s.acks.head? = some ack ∧ s.base < ack
  | .lost f => s.frames.head? = some (f, f)
  | .outOfOrder e f => s.frames.head? = some (f, f) ∧ s.expected = e ∧ f ≠ e
  | .discarded f ack => s.frames.head? = some (f, f) ∧ s.expected = ack ∧ f ≠ ack
  | .timeout f => s.base = f ∧ f < s.next
  | .rollback f => s.next = f
  | .complete t => t = T ∧ s.base = T ∧ s.delivered = List.range T

/-- What a line does. The acknowledgement sent again for a discarded frame reaches the
sender unseen. -/
def Event.actions : Event → List Action
  | .transmitting _ => [.send]
  | .accepted _ _ => [.receive]
  | .receivedAck _ => [.receiveAck]
  | .lost _ => [.loseFrame]
  | .discarded _ _ => [.receive, .receiveAck]
  | .timeout _ => [.timeout]
  | _ => []

section Playback

variable (W T : ℕ)

/-- The protocol the output is about: a window of `W` frames, the packets `0` to `T - 1`, and what
each line tells of it. -/
def script : Script ℕ Event :=
  ⟨W, id, List.range T, Event.tells W T, Event.actions⟩

/-- The frames sent, those sent again counted again: the number the loss is paid with. -/
def transmissions (log : List Event) : ℕ :=
  log.countP fun e => match e with
    | .transmitting _ => true
    | _ => false

/-- The window from `b` with `n` frames under way and everything before it settled. -/
def window (b n : ℕ) : State ℕ :=
  ⟨b, b + n, b, List.range b, (List.range' b n).map fun f => (f, f), []⟩

variable {W T}

/-- The transmissions in two parts of the output add up. -/
@[simp] theorem transmissions_append (log l : List Event) :
    transmissions (log ++ l) = transmissions log + transmissions l :=
  List.countP_append

/-- The line of a transmission sends the next frame of the window, if the window has room for it
and there is such a frame. -/
theorem play_transmitting {b n : ℕ} (hn : n < W) (hT : b + n < T) :
    (script W T).play (window b n) (.transmitting (b + n)) = some (window b (n + 1)) := by
  have hmsg : (List.range T)[b + n]? = some (b + n) := List.getElem?_range hT
  have htells : (script W T).tells (window b n) (.transmitting (b + n)) = true := by
    simp [script, Event.tells, window]
  rw [play_one htells rfl, step, send]
  simp only [script, window, hmsg, Option.bind_eq_bind, Option.bind_some, id_eq]
  rw [List.range'_concat, List.map_append]
  simp [hn, Nat.add_assoc]

/-- The oldest frame is taken and its acknowledgement slides the window. -/
theorem play_delivery {b n : ℕ} (hW : 0 < W) (log : List Event) :
    (script W T).playFrom (window b (n + 1)) (.accepted b (b + 1) :: .receivedAck (b + 1) :: log)
      = (script W T).playFrom (window (b + 1) n) log := by
  have hframes : (List.range' b (n + 1)).map (fun f => (f, f))
      = (b, b) :: (List.range' (b + 1) n).map (fun f => (f, f)) := by
    rw [List.range'_succ, List.map_cons]
  have htaken : (script W T).play (window b (n + 1)) (.accepted b (b + 1))
      = some { window (b + 1) n with base := b, acks := [b + 1] } := by
    rw [play_one (by simp [script, Event.tells, window, hframes]) rfl, step, receive]
    simp [script, window, hframes, List.range_succ, Nat.add_assoc, Nat.add_comm 1 n]
  have hslid : (script W T).play { window (b + 1) n with base := b, acks := [b + 1] }
      (.receivedAck (b + 1)) = some (window (b + 1) n) := by
    rw [play_one (by simp [script, Event.tells]) rfl, step, script]
    dsimp only
    rw [receiveAck_eq (separates_id W) hW rfl]
    simp [window]
  rw [playFrom_cons htaken, playFrom_cons hslid]

/-! ## The passes -/

/-- The sender fills its window: all frames below its upper end are under way when the loop ends.
-/
theorem transmit_window_spec {b m : ℕ} {log : List Event} (hb : b < T) (hint : W + T ≤ 2 ^ 31)
    (hm : m ≤ min W (T - b)) (hlog : (script W T).playback log = some (window b m)) :
    ∃ log', loop (transmit_window W T b) (b + m, log) = some (b + min W (T - b), log')
      ∧ (script W T).playback log' = some (window b (min W (T - b)))
      ∧ transmissions log' + m = transmissions log + min W (T - b) := by
  obtain ⟨r, hr, hr1, hr2, hr3⟩ := loop_spec (f := transmit_window W T b)
    (fun s => b + W - s.1)
    (fun s => ∃ n, s.1 = b + n ∧ n ≤ min W (T - b) ∧ (script W T).playback s.2 = some (window b n)
      ∧ transmissions s.2 + m = transmissions log + n)
    (fun r => r.1 = b + min W (T - b) ∧ (script W T).playback r.2 = some (window b (min W (T - b)))
      ∧ transmissions r.2 + m = transmissions log + min W (T - b)) (by
      rintro ⟨next, l⟩ ⟨n, hnext, hn, hl, hcount⟩
      dsimp only at hnext hl hcount
      subst hnext
      rw [transmit_window, nat32_of_lt (by omega), Option.bind_eq_bind, Option.bind_some]
      by_cases hroom : b + n < b + W ∧ b + n < T
      · -- one more frame, and the window of the playback is one longer
        rw [if_pos hroom, nat32_of_lt (by omega)]
        refine .inr ⟨_, rfl, ⟨n + 1, rfl, by omega, ?_, ?_⟩, by dsimp only; omega⟩
        · rw [playback_append hl, playFrom_cons (play_transmitting (by omega) hroom.2)]
          rfl
        · have hone : transmissions [.transmitting (b + n)] = 1 := rfl
          rw [transmissions_append, hone]
          omega
      · rw [if_neg hroom]
        obtain rfl : n = min W (T - b) := by omega
        exact .inl ⟨_, rfl, rfl, hl, hcount⟩)
    (s := (b + m, log)) ⟨m, rfl, hm, hlog, rfl⟩
  exact ⟨r.2, by rw [hr, ← hr1], hr2, hr3⟩

/-- The receiver takes all of it, in order, and every acknowledgement reaches the sender. -/
theorem receive_window_spec {b n : ℕ} {log : List Event} (hW : 0 < W) (hn : b + n < 2 ^ 31)
    (hlog : (script W T).playback log = some (window b n)) :
    ∃ log', loop (receive_window (b + n)) (b, log) = some (b + n, log')
      ∧ (script W T).playback log' = some (window (b + n) 0)
      ∧ transmissions log' = transmissions log := by
  -- after `ack` frames the window begins there and holds the rest of them
  obtain ⟨r, hr, hr1, hr2, hr3⟩ := loop_spec (f := receive_window (b + n))
    (fun s => b + n - s.1)
    (fun s => s.1 ≤ b + n ∧ (script W T).playback s.2 = some (window s.1 (b + n - s.1))
      ∧ transmissions s.2 = transmissions log)
    (fun r => r.1 = b + n ∧ (script W T).playback r.2 = some (window (b + n) 0)
      ∧ transmissions r.2 = transmissions log) (by
      rintro ⟨ack, l⟩ ⟨hle, hl, hcount⟩
      dsimp only at hle hl hcount
      rw [receive_window]
      -- one frame more is taken and acknowledged
      by_cases hmore : ack < b + n
      · rw [if_pos hmore, nat32_of_lt (by omega)]
        refine .inr ⟨_, rfl, ⟨hmore, ?_, ?_⟩, by dsimp only; omega⟩
        · rw [playback_append hl, show b + n - ack = b + n - (ack + 1) + 1 by omega,
            play_delivery hW]
          rfl
        · rw [transmissions_append, hcount]
          rfl
      · rw [if_neg hmore]
        obtain rfl : ack = b + n := by omega
        rw [Nat.sub_self] at hl
        exact .inl ⟨_, rfl, rfl, hl, hcount⟩)
    (s := (b, log)) ⟨Nat.le_add_right _ _, by rwa [Nat.add_sub_cancel_left], rfl⟩
  exact ⟨r.2, by rw [hr, ← hr1], hr2, hr3⟩

/-- Frame 1 is lost and `m` frames are behind it, those below `f` thrown away. -/
def behindLoss (m f : ℕ) : State ℕ :=
  { window 1 (m + 1) with frames := (List.range' f (m + 2 - f)).map fun f => (f, f) }

/-- A frame behind the lost one is out of order for the receiver, which throws it away. Three lines
are printed for that and one step is taken. -/
theorem play_discard {m f : ℕ} (hlo : 2 ≤ f) (hhi : f < m + 2) :
    (script W T).playFrom (behindLoss m f) [.arrived f, .outOfOrder 1 f, .discarded f 1]
      = some (behindLoss m (f + 1)) := by
  have hframes : (behindLoss m f).frames
      = (f, f) :: (behindLoss m (f + 1)).frames := by
    rw [behindLoss, behindLoss, show m + 2 - f = m + 2 - (f + 1) + 1 by omega, List.range'_succ,
      List.map_cons]
  have hne : f ≠ 1 := by omega
  have hexp : (behindLoss m f).expected = 1 := rfl
  have harrived : (script W T).play (behindLoss m f) (.arrived f) = some (behindLoss m f) :=
    play_report (by simp [script, Event.tells, hframes]) rfl
  have hout : (script W T).play (behindLoss m f) (.outOfOrder 1 f) = some (behindLoss m f) :=
    play_report (by simp [script, Event.tells, hframes, hexp, hne]) rfl
  -- the repeated acknowledgement names the base itself
  have hdiscarded : (script W T).play (behindLoss m f) (.discarded f 1)
      = some (behindLoss m (f + 1)) := by
    have hacts : (script W T).actions (.discarded f 1) = [.receive, .receiveAck] := rfl
    rw [play, if_pos (by simp [script, Event.tells, hframes, hexp, hne]), hacts]
    simp only [script, run_cons, run_nil, step, receive, hframes, hexp, id_eq, if_neg hne,
      Option.bind_some]
    rw [receiveAck_eq (separates_id W) (Nat.zero_le W) rfl]
    simp [behindLoss, window]
  rw [playFrom_cons harrived, playFrom_cons hout, playFrom_cons hdiscarded, playFrom_nil]

/-- The frames behind the lost one are thrown away, each with a repeated acknowledgement. -/
theorem discards_spec {m : ℕ} {log : List Event}
    (hlog : (script W T).playback log = some (behindLoss m 2)) :
    ∃ log', forLoop 2 (m + 2) log (fun f log =>
        some (log ++ [.arrived f, .outOfOrder 1 f, .discarded f 1])) = some log'
      ∧ (script W T).playback log' = some (behindLoss m (m + 2))
      ∧ transmissions log' = transmissions log := by
  apply forLoop_spec (fun f l => (script W T).playback l = some (behindLoss m f)
    ∧ transmissions l = transmissions log) (by omega) ⟨hlog, rfl⟩
  rintro f l hlo hhi ⟨hl, hcount⟩
  refine ⟨_, rfl, ?_, ?_⟩
  · rw [playback_append hl, play_discard hlo hhi]
  · rw [transmissions_append, hcount]
    rfl

/-- The head line of a round tells the window as it is, and changes nothing. -/
theorem play_window {b n : ℕ} :
    (script W T).play (window b n) (.window b (window_end T (b + W))) = some (window b n) := by
  apply play_report _ rfl
  have hend : window_end T (b + W) = (min (b + W) T : ℕ) - (1 : ℤ) := by
    rw [window_end]
    split <;> omega
  simp [script, Event.tells, window, hend]

/-- Both kinds of round begin alike: with a window that is settled, filled up to its end. -/
theorem round_start {b : ℕ} {e : Bool} {log : List Event} (hb : b < T) (hint : W + T ≤ 2 ^ 31)
    (hlog : (script W T).playback log = some (window b 0)) :
    ∃ log', (script W T).playback log' = some (window b (min W (T - b)))
      ∧ transmissions log' = transmissions log + min W (T - b)
      ∧ round W T ⟨b, b, e, log⟩ =
        if !e && b == 0 then inject_loss (b + min W (T - b)) log'
        else (loop (receive_window (b + min W (T - b))) (b, log')).bind
          fun r => some (.next ⟨r.1, b + min W (T - b), e, r.2⟩) := by
  -- the line of the window tells the state and moves nothing
  have hwindow : (script W T).playback (log ++ [.window b (window_end T (b + W))])
      = some (window b 0) := by
    rw [playback_append hlog, playFrom_cons play_window, playFrom_nil]
  have hzero : transmissions [.window b (window_end T (b + W))] = 0 := rfl
  obtain ⟨log', hloop, hplay, hcount⟩ :=
    transmit_window_spec hb hint (Nat.zero_le _) hwindow
  rw [transmissions_append, hzero] at hcount
  refine ⟨log', hplay, by omega, ?_⟩
  rw [Nat.add_zero] at hloop
  rw [round, if_pos hb, nat32_of_lt (by dsimp only; omega), Option.bind_eq_bind, Option.bind_some]
  dsimp only
  rw [hloop]
  rfl

/-- The round that loses frame 1 takes the sender back to it. -/
theorem round_loss {log : List Event} (hW : 2 ≤ W) (hT : 2 ≤ T) (hint : W + T ≤ 2 ^ 31)
    (hlog : (script W T).playback log = some (window 0 0)) :
    ∃ log', round W T ⟨0, 0, false, log⟩ = some (.next ⟨1, 1, true, log'⟩)
      ∧ (script W T).playback log' = some (window 1 0)
      ∧ transmissions log' = transmissions log + min W T := by
  obtain ⟨log₁, hplay₁, hcount₁, hround⟩ := round_start (e := false) (by omega) hint hlog
  obtain ⟨m, hm⟩ : ∃ m, min W (T - 0) = m + 2 := ⟨min W T - 2, by omega⟩
  rw [hm] at hplay₁ hcount₁ hround
  -- frame 0 is through, frame 1 is the head of the channel and goes
  have harrived : (script W T).play (window 0 (m + 2)) (.arrived 0) = some (window 0 (m + 2)) :=
    play_report (by simp [script, Event.tells, window, List.range'_succ]) rfl
  have hlost : (script W T).play (window 1 (m + 1)) (.lost 1) = some (behindLoss m 2) := by
    rw [play_one (by simp [script, Event.tells, window, List.range'_succ]) rfl, step]
    simp [window, behindLoss, List.range'_succ]
  have hloss : (script W T).playback (log₁ ++ [.arrived 0, .accepted 0 1, .receivedAck 1, .lost 1])
      = some (behindLoss m 2) := by
    rw [playback_append hplay₁, playFrom_cons harrived, play_delivery (by omega),
      playFrom_cons hlost, playFrom_nil]
  obtain ⟨log₂, hloop, hplay₂, hcount₂⟩ := discards_spec hloss
  have hcount₃ : transmissions (log₁ ++ [.arrived 0, .accepted 0 1, .receivedAck 1, .lost 1])
      = transmissions log₁ := by
    rw [transmissions_append]
    rfl
  refine ⟨log₂ ++ [.timeout 1, .rollback 1], ?_, ?_, ?_⟩
  · rw [hround, Nat.zero_add, inject_loss]
    simp only [hloop]
    rfl
  · -- the channel is empty, so the sender starts again with nothing under way
    have htimeout : (script W T).play (behindLoss m (m + 2)) (.timeout 1)
        = some (window 1 0) := by
      rw [play_one (by simp [script, Event.tells, behindLoss, window]) rfl, step]
      simp [behindLoss, window]
    have hrollback : (script W T).play (window 1 0) (.rollback 1) = some (window 1 0) :=
      play_report (by simp [script, Event.tells, window]) rfl
    rw [playback_append hplay₂, playFrom_cons htimeout, playFrom_cons hrollback, playFrom_nil]
  · have hzero : transmissions [.timeout 1, .rollback 1] = 0 := rfl
    rw [transmissions_append, hzero, hcount₂, hcount₃, hcount₁]
    omega

/-- Every other round settles its window, and the next one begins where it ends. -/
theorem round_clean {b : ℕ} {log : List Event} (hW : 0 < W) (hb : b < T) (hint : W + T ≤ 2 ^ 31)
    (hlog : (script W T).playback log = some (window b 0)) :
    ∃ log', round W T ⟨b, b, true, log⟩
        = some (.next ⟨b + min W (T - b), b + min W (T - b), true, log'⟩)
      ∧ (script W T).playback log' = some (window (b + min W (T - b)) 0)
      ∧ transmissions log' = transmissions log + min W (T - b) := by
  obtain ⟨log₁, hplay₁, hcount₁, hround⟩ := round_start (e := true) hb hint hlog
  obtain ⟨log₂, hloop, hplay₂, hcount₂⟩ := receive_window_spec hW (by omega) hplay₁
  refine ⟨log₂, ?_, hplay₂, by omega⟩
  rw [hround, hloop]
  rfl

/-- **The rounds after the loss** settle every frame, and send each once. -/
theorem rounds_spec {log : List Event} (hW : 0 < W) (hT : 0 < T) (hint : W + T ≤ 2 ^ 31)
    (hlog : (script W T).playback log = some (window 1 0)) :
    ∃ log', loop (round W T) ⟨1, 1, true, log⟩ = some log'
      ∧ (script W T).playback log' = some (window T 0)
      ∧ transmissions log' = transmissions log + (T - 1) := by
  apply loop_spec (f := round W T) (fun s => T - s.ack_expected)
    (fun s => s.ack_expected ≤ T ∧ 1 ≤ s.ack_expected
      ∧ s.next_frame_to_send = s.ack_expected ∧ s.error_simulated = true
      ∧ (script W T).playback s.log = some (window s.ack_expected 0)
      ∧ transmissions s.log = transmissions log + (s.ack_expected - 1))
  · rintro ⟨ack, b, e, l⟩ ⟨hb, hone, hnext, he, hl, hcount⟩
    dsimp only at hb hone hnext he hl hcount
    subst hnext he
    -- every round settles a frame at least, so `T` less what is settled goes down
    by_cases hmore : b < T
    · obtain ⟨l', hround, hl', hcount'⟩ := round_clean hW hmore hint hl
      exact .inr ⟨_, hround, ⟨by dsimp only; omega, by dsimp only; omega, rfl, rfl, hl',
        by dsimp only; omega⟩, by dsimp only; omega⟩
    · obtain rfl : b = T := by omega
      refine .inl ⟨l, ?_, hl, hcount⟩
      rw [round, if_neg hmore]
  · exact ⟨hT, Nat.le_refl _, rfl, rfl, hlog, rfl⟩

/-! ## The whole output -/

/-- The banner is printed before anything is sent. -/
theorem play_banner : (script W T).playback [.banner W T] = some (window 0 0) := by
  rw [playback, playFrom_cons (play_report (by simp [script, Event.tells]) rfl)]
  rfl

/-- The last line holds where every frame is acknowledged: nothing else is asked of the protocol at
the end. -/
theorem play_complete : (script W T).play (window T 0) (.complete T) = some (window T 0) :=
  play_report (by simp [script, Event.tells, window]) rfl

/-- The simulation ends, its output can be played back to the state with everything settled, and
the first window is sent a second time but for its first frame. -/
theorem simulate_spec (hW : 2 ≤ W) (hT : 2 ≤ T) (hint : W + T ≤ 2 ^ 31) :
    ∃ log, simulate_go_back_n W T = some log ∧ (script W T).playback log = some (window T 0)
      ∧ transmissions log = T + min W T - 1 := by
  obtain ⟨log₁, hround, hplay₁, hcount₁⟩ := round_loss hW hT hint play_banner
  obtain ⟨log₂, hrounds, hplay₂, hcount₂⟩ := rounds_spec (by omega) (by omega) hint hplay₁
  have hstart : transmissions [.banner W T] = 0 := rfl
  have hend : transmissions [.complete T] = 0 := rfl
  refine ⟨log₂ ++ [.complete T], ?_, ?_, ?_⟩
  · rw [simulate_go_back_n, loop_next hround, hrounds]
    rfl
  · rw [playback_append hplay₂, playFrom_cons play_complete, playFrom_nil]
  · rw [transmissions_append, hend, hcount₂, hcount₁, hstart]
    omega

/-! Every part of a round only prints on, so what cannot be played stays so. -/

/-- An output that cannot be played back stays so, whatever is printed after it. Here for the
transmissions of a window. -/
theorem transmit_window_none {b : ℕ} {s r : ℕ × List Event} (h : (script W T).playback s.2 = none)
    (hrun : loop (transmit_window W T b) s = some r) : (script W T).playback r.2 = none := by
  apply loop_inv (fun s => (script W T).playback s.2 = none)
    (fun r => (script W T).playback r.2 = none) _ _ h hrun
  · rintro ⟨n, l⟩ s' hl hpass
    obtain ⟨t, -, hpass⟩ := Option.bind_eq_some_iff.mp hpass
    split at hpass
    · obtain ⟨n', -, hpass⟩ := Option.bind_eq_some_iff.mp hpass
      cases hpass
      exact playback_none hl _
    · cases hpass
  · rintro ⟨n, l⟩ r hl hpass
    obtain ⟨t, -, hpass⟩ := Option.bind_eq_some_iff.mp hpass
    split at hpass
    · obtain ⟨n', -, hpass⟩ := Option.bind_eq_some_iff.mp hpass
      cases hpass
    · cases hpass
      exact hl

/-- The same for the frames that arrive: an output that was no run before is none with more lines
behind it. -/
theorem receive_window_none {n : ℕ} {s r : ℕ × List Event} (h : (script W T).playback s.2 = none)
    (hrun : loop (receive_window n) s = some r) : (script W T).playback r.2 = none := by
  apply loop_inv (fun s => (script W T).playback s.2 = none)
    (fun r => (script W T).playback r.2 = none) _ _ h hrun
  · rintro ⟨b, l⟩ s' hl hpass
    rw [receive_window] at hpass
    split at hpass
    · obtain ⟨a, -, hpass⟩ := Option.bind_eq_some_iff.mp hpass
      cases hpass
      exact playback_none hl _
    · cases hpass
  · rintro ⟨b, l⟩ r hl hpass
    rw [receive_window] at hpass
    split at hpass
    · obtain ⟨a, -, hpass⟩ := Option.bind_eq_some_iff.mp hpass
      cases hpass
    · cases hpass
      exact hl

/-- The first lines of the staged loss decide the rest. -/
theorem inject_loss_none {n : ℕ} {log : List Event} {s' : Sim}
    (h : (script W T).playback (log ++ [.arrived 0, .accepted 0 1, .receivedAck 1, .lost 1]) = none)
    (hrun : inject_loss n log = some (.next s')) : (script W T).playback s'.log = none := by
  obtain ⟨l, hdrop, hrun⟩ := Option.bind_eq_some_iff.mp hrun
  have hl : (script W T).playback l = none :=
    forLoop_inv (fun l => (script W T).playback l = none) h
      (fun _ _ _ hl hpass => by
        cases hpass
        exact playback_none hl _) hdrop
  cases hrun
  exact playback_none hl _

/-- Hence for a whole round of the simulation: a line that is not true is not made good by what is
printed later. -/
theorem round_none {s s' : Sim} (h : (script W T).playback s.log = none)
    (hround : round W T s = some (.next s')) : (script W T).playback s'.log = none := by
  rw [round] at hround
  split at hround
  · obtain ⟨top, -, hround⟩ := Option.bind_eq_some_iff.mp hround
    obtain ⟨⟨next, l₁⟩, hfill, hround⟩ := Option.bind_eq_some_iff.mp hround
    have hl₁ : (script W T).playback l₁ = none := transmit_window_none (playback_none h _) hfill
    dsimp only at hround
    split at hround
    · exact inject_loss_none (playback_none hl₁ _) hround
    · obtain ⟨⟨ack, l₂⟩, htake, hround⟩ := Option.bind_eq_some_iff.mp hround
      cases hround
      exact receive_window_none hl₁ htake
  · cases hround

/-- The round that ends the simulation prints nothing. -/
theorem round_done {s : Sim} {log : List Event} (hround : round W T s = some (.done log)) :
    log = s.log := by
  rw [round] at hround
  split at hround
  · obtain ⟨top, -, hround⟩ := Option.bind_eq_some_iff.mp hround
    obtain ⟨⟨next, l₁⟩, -, hround⟩ := Option.bind_eq_some_iff.mp hround
    dsimp only at hround
    split at hround
    · obtain ⟨l₂, -, hround⟩ := Option.bind_eq_some_iff.mp hround
      cases hround
    · obtain ⟨⟨ack, l₂⟩, -, hround⟩ := Option.bind_eq_some_iff.mp hround
      cases hround
  · cases hround
    rfl

/-- With no frame 1 in the first window, its loss cannot be played. -/
theorem simulate_none (hT : 1 ≤ T) (hsmall : W < 2 ∨ T < 2) (hint : W + T ≤ 2 ^ 31)
    {log : List Event} (h : simulate_go_back_n W T = some log) :
    (script W T).playback log = none := by
  obtain ⟨log₁, hplay₁, -, hround⟩ := round_start (e := false) hT hint play_banner
  have hloss : (script W T).playback (log₁ ++ [.arrived 0, .accepted 0 1, .receivedAck 1, .lost 1])
      = none := by
    rw [playback_append hplay₁]
    rcases (by omega : min W (T - 0) = 0 ∨ min W (T - 0) = 1) with hn | hn
    · -- nothing has left, and the frame 0 that arrives is not there
      have harrived : (script W T).play (window 0 0) (.arrived 0) = none :=
        if_neg (by simp [script, Event.tells, window])
      rw [hn, playFrom_cons_none harrived]
    · have harrived : (script W T).play (window 0 1) (.arrived 0) = some (window 0 1) :=
        play_report (by simp [script, Event.tells, window]) rfl
      have hlost : (script W T).play (window 1 0) (.lost 1) = none :=
        if_neg (by simp [script, Event.tells, window])
      rw [hn, playFrom_cons harrived, play_delivery (by omega), playFrom_cons_none hlost]
  obtain ⟨log₂, hloop, hlog⟩ := Option.bind_eq_some_iff.mp h
  cases hlog
  apply playback_none
  apply loop_inv (fun s => s = ⟨0, 0, false, [.banner W T]⟩ ∨ (script W T).playback s.log = none)
    (fun l => (script W T).playback l = none) _ _ (.inl rfl) hloop
  · rintro s s' (rfl | hs) hpass
    · rw [hround] at hpass
      exact .inr (inject_loss_none hloss hpass)
    · exact .inr (round_none hs hpass)
  · rintro s l (rfl | hs) hpass
    · rw [hround] at hpass
      obtain ⟨l', -, hpass⟩ := Option.bind_eq_some_iff.mp hpass
      cases hpass
    · rw [round_done hpass]
      exact hs

/-- With no frame at all the two lines are the whole output. -/
theorem simulate_no_frames :
    simulate_go_back_n W 0 = some [.banner W 0, .complete 0]
      ∧ (script W 0).playback [.banner W 0, .complete 0] = some (window 0 0) := by
  constructor
  · have hround : round W 0 ⟨0, 0, false, [.banner W 0]⟩ = some (.done [.banner W 0]) := rfl
    rw [simulate_go_back_n, loop_done hround]
    rfl
  · exact (playback_append play_banner [.complete 0]).trans
      ((playFrom_cons play_complete []).trans playFrom_nil)

/-- **The output is a true run exactly where a frame 1 is in the first window**, and where
there is nothing to send. -/
theorem simulate_go_back_n_playable_iff (W T : ℕ) (hint : W + T ≤ 2 ^ 31) :
    (∃ log s, simulate_go_back_n W T = some log ∧ (script W T).playback log = some s)
      ↔ T = 0 ∨ (2 ≤ W ∧ 2 ≤ T) := by
  constructor
  · rintro ⟨log, s, hlog, hs⟩
    by_contra hbad
    rw [simulate_none (by omega) (by omega) hint hlog] at hs
    cases hs
  · rintro (rfl | ⟨hW, hT⟩)
    · exact ⟨_, _, simulate_no_frames⟩
    · obtain ⟨log, hlog, hplay, -⟩ := simulate_spec hW hT hint
      exact ⟨log, _, hlog, hplay⟩

/-- The shipped window of four and its eight frames. -/
theorem simulate_go_back_n_playable_shipped :
    ∃ log s, simulate_go_back_n 4 8 = some log ∧ (script 4 8).playback log = some s :=
  (simulate_go_back_n_playable_iff 4 8 (by norm_num)).mpr (.inr ⟨by norm_num, by norm_num⟩)

/-- **At every line the receiver holds a prefix of the frames**, each once and in order, and
the sender is within its window. At the last line it holds all of them and nothing is
under way. The loss costs the frames of one window less one. -/
theorem simulate_go_back_n_delivers (W T : ℕ) (hW : 2 ≤ W) (hT : 2 ≤ T)
    (hint : W + T ≤ 2 ^ 31) :
    ∃ log, simulate_go_back_n W T = some log
      ∧ (∀ pre, pre <+: log → ∃ s, (script W T).playback pre = some s
          ∧ s.delivered = List.range s.expected ∧ s.base ≤ s.expected
          ∧ s.expected ≤ s.base + W ∧ s.next ≤ s.base + W)
      ∧ (∃ s, (script W T).playback log = some s ∧ s.delivered = List.range T ∧ s.base = T
          ∧ s.frames = [] ∧ s.acks = [])
      ∧ transmissions log = T + min W T - 1 := by
  obtain ⟨log, hlog, hplay, hcount⟩ := simulate_spec hW hT hint
  refine ⟨log, hlog, ?_, ⟨_, hplay, rfl, rfl, rfl, rfl⟩, hcount⟩
  intro pre hpre
  obtain ⟨s, hs, hinv⟩ := playback_prefix (separates_id W) hplay hpre
  have hle : s.expected ≤ T := by simpa [script] using hinv.expected_le
  refine ⟨s, hs, ?_, hinv.base_le, hinv.expected_le_base, hinv.next_le⟩
  rw [hinv.delivered, script, List.take_range, Nat.min_eq_left hle]

/-- Eight frames in a window of four cost eleven transmissions. -/
theorem simulate_go_back_n_delivers_shipped :
    ∃ log, simulate_go_back_n 4 8 = some log ∧ transmissions log = 11 := by
  obtain ⟨log, hlog, -, -, hcount⟩ :=
    simulate_go_back_n_delivers 4 8 (by norm_num) (by norm_num) (by norm_num)
  exact ⟨log, hlog, hcount⟩

end Playback

end CourseLabs.GoBackN
