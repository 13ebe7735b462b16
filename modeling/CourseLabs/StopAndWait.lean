/-
`simulate_stop_and_wait` of the flow-control experiment (`stop_and_wait.c`), read against
the sliding window of width one with the numbers 0 and 1.

Packets are numbered from 1 and a frame carries the parity of its packet. The simulation
loses the first frame of packet 2 and the first acknowledgement of packet 4; packet 4 then
arrives twice, and its second copy has to be told from packet 5 by one bit. As for
Go-Back-N the printed lines are played back (`script`), and here every output is a run of
the protocol, however many packets there are.
-/
import CourseLabs.CInt
import CourseLabs.CLoop
import CourseLabs.SlidingWindow

set_option autoImplicit false

namespace CourseLabs.StopAndWait

open CInt CLoop SlidingWindow SlidingWindow.Script

/-! ## The simulation -/

/-- The lines printed, with the numbers in them. -/
inductive Event where
  /-- "[Packet %d] Beginning transmission of Frame (Seq=%d)" -/
  | beginning (packet seq : ℕ)
  /-- "[Sender] Transmitting Frame [Seq=%d] (Attempt %d)... Timer started." -/
  | transmitting (seq attempt : ℕ)
  /-- "[Channel] ERROR: Frame [Seq=%d] was LOST in transit" -/
  | frameLost (seq : ℕ)
  /-- "[Sender] TIMEOUT expired! No ACK received." -/
  | timeout
  /-- "[Sender] Retransmitting..." -/
  | retransmitting
  /-- "[Receiver] Received Frame [Seq=%d]." -/
  | received (seq : ℕ)
  /-- "[Receiver] Frame accepted. Generated ACK [Seq=%d]." -/
  | generatedAck (ack : ℕ)
  /-- "[Channel] ERROR: ACK [Seq=%d] was LOST in transit" -/
  | ackLost (ack : ℕ)
  /-- "[Sender] Retransmitting duplicate Frame [Seq=%d]..." -/
  | retransmittingDuplicate (seq : ℕ)
  /-- "[Receiver] Detected duplicate Frame [Seq=%d]! Discarding duplicate payload." -/
  | duplicate (seq : ℕ)
  /-- "[Receiver] Re-sending ACK [Seq=%d] to synchronize sender." -/
  | resendingAck (ack : ℕ)
  /-- "[Sender] Received ACK [Seq=%d]. Frame successfully acknowledged!" -/
  | acknowledged (ack : ℕ)
  /-- "[Receiver] Frame verified. Sending ACK [Seq=%d]..." -/
  | verified (ack : ℕ)
  /-- "[Sender] Received ACK [Seq=%d]. Frame successfully delivered!" -/
  | delivered (ack : ℕ)
  /-- "Simulation Complete: All %d frames successfully delivered!" -/
  | complete (n : ℕ)
  deriving Repr, DecidableEq

/-- The variables the attempts for one packet share, with what is printed. -/
structure Sim where
  attempts : ℕ
  ack_seq : ℕ
  log : List Event
  deriving Repr, DecidableEq

/-- One pass of `while (!frame_delivered)`; a `continue` goes round again. -/
def attempt (i frame_seq : ℕ) (s : Sim) : Option (Pass Sim Sim) := do
  let attempts ← nat32 (s.attempts + 1)
  let log := s.log ++ [.transmitting frame_seq attempts]
  if i = 2 ∧ attempts = 1 then
    some (.next ⟨attempts, s.ack_seq, log ++ [.frameLost frame_seq, .timeout, .retransmitting]⟩)
  else
    let log := log ++ [.received frame_seq]
    let ack_seq := (frame_seq + 1) % 2
    if i = 4 ∧ attempts = 1 then
      some (.next ⟨attempts, ack_seq, log ++ [.generatedAck ack_seq, .ackLost ack_seq, .timeout,
        .retransmittingDuplicate frame_seq]⟩)
    else if i = 4 ∧ 1 < attempts then
      some (.done ⟨attempts, ack_seq, log ++ [.duplicate frame_seq, .resendingAck ack_seq,
        .acknowledged ack_seq]⟩)
    else
      some (.done ⟨attempts, ack_seq, log ++ [.verified ack_seq, .delivered ack_seq]⟩)

/-- The body of the loop over the packets, with the `i++` behind it. -/
def packet (i : ℕ) : ℕ × List Event → Option (ℕ × List Event)
  | (ack_seq, log) => do
    let frame_seq := i % 2
    let s ← loop (attempt i frame_seq) ⟨0, ack_seq, log ++ [.beginning i frame_seq]⟩
    let _ ← nat32 (i + 1)
    some (s.ack_seq, s.log)

/-- `simulate_stop_and_wait`: the frames `1` to `TOTAL_FRAMES` one after the other, each with its
own loop of attempts, and the line of the end. The value is what is printed. -/
def simulate_stop_and_wait (TOTAL_FRAMES : ℕ) : Option (List Event) := do
  let (_, log) ← forLoop 1 (TOTAL_FRAMES + 1) (0, []) packet
  some (log ++ [.complete TOTAL_FRAMES])

/-! ## Playing the output back -/

/-- The number of the frame at an index: packets count from 1. -/
def seqOf (k : ℕ) : ℕ :=
  (k + 1) % 2

/-- One bit is enough for a window of one: the frame before and the frame expected have different
numbers. -/
theorem separates_seqOf : Separates 1 seqOf := by
  intro i j hlt hle
  rw [seqOf, seqOf]
  omega

/-- The packet under way and its number, as the lines of the output give the number alone. -/
def head? (s : State ℕ) : Option ℕ :=
  s.frames.head?.map Prod.fst

/-- What a line asserts of the protocol before it. -/
def Event.tells (T : ℕ) (s : State ℕ) : Event → Bool
  | .beginning i q => i = s.base + 1 ∧ q = seqOf s.base
  | .transmitting q _ => s.next = s.base ∧ q = seqOf s.next
  | .frameLost q => head? s = some q
  | .timeout => s.acks = [] ∧ s.base < s.next
  | .retransmitting => s.next = s.base
  | .received q => head? s = some q
  | .generatedAck a => head? s = some (seqOf s.expected) ∧ a = seqOf (s.expected + 1)
  | .ackLost a => s.acks.head? = some a
  | .retransmittingDuplicate q => s.next = s.base ∧ q = seqOf s.base ∧ s.base < s.expected
  | .duplicate q => head? s = some q ∧ q ≠ seqOf s.expected
  | .resendingAck a => head? s ≠ some (seqOf s.expected) ∧ a = seqOf s.expected
  | .acknowledged a => s.acks.head? = some a ∧ a = seqOf (s.base + 1)
  | .verified a => head? s = some (seqOf s.expected) ∧ a = seqOf (s.expected + 1)
  | .delivered a => s.acks.head? = some a ∧ a = seqOf (s.base + 1)
  | .complete n => n = T ∧ s.base = T ∧ s.delivered = List.range' 1 T

/-- What a line does. -/
def Event.actions : Event → List Action
  | .transmitting _ _ => [.send]
  | .frameLost _ => [.loseFrame]
  | .timeout => [.timeout]
  | .generatedAck _ => [.receive]
  | .ackLost _ => [.loseAck]
  | .resendingAck _ => [.receive]
  | .acknowledged _ => [.receiveAck]
  | .verified _ => [.receive]
  | .delivered _ => [.receiveAck]
  | _ => []

/-- The frames carry their packets. -/
def script (T : ℕ) : Script ℕ Event :=
  ⟨1, seqOf, List.range' 1 T, Event.tells T, Event.actions⟩

/-- The frames sent, those sent again counted again: each loss adds one. -/
def transmissions (log : List Event) : ℕ :=
  log.countP fun e => match e with
    | .transmitting _ _ => true
    | _ => false

/-- The transmissions in two parts of the output add up. -/
theorem transmissions_append (log l : List Event) :
    transmissions (log ++ l) = transmissions log + transmissions l :=
  List.countP_append

/-! ## The states of one packet -/

section Playback

variable {T k : ℕ}

/-- `k` packets are through and nothing is under way: the state between two passes of the loop. -/
def settled (k : ℕ) : State ℕ :=
  ⟨k, k, k, List.range' 1 k, [], []⟩

/-- The frame of the next packet is under way, for the first time. -/
def sent (k : ℕ) : State ℕ :=
  { settled k with next := k + 1, frames := [(seqOf k, k + 1)] }

/-- The receiver has the packet, its acknowledgement is under way. -/
def taken (k : ℕ) : State ℕ :=
  { settled (k + 1) with base := k, acks := [seqOf (k + 1)] }

/-- The receiver has the packet and the sender does not know. -/
def unheard (k : ℕ) : State ℕ :=
  { settled (k + 1) with base := k, next := k }

/-- A second copy of the packet is under way, which the receiver has already; it can only
acknowledge it again. -/
def resent (k : ℕ) : State ℕ :=
  { settled (k + 1) with base := k, frames := [(seqOf k, k + 1)] }

/-- The two sequence numbers alternate, which is what tells a new frame from a repeated one. -/
theorem seqOf_succ_ne (k : ℕ) : seqOf k ≠ seqOf (k + 1) :=
  separates_seqOf k (k + 1) (Nat.lt_succ_self k) (Nat.le_refl _)

/-- The `k`-th packet carries the number `k + 1`, as the program numbers frames from `1`. -/
theorem getElem?_packets (hk : k < T) : (List.range' 1 T)[k]? = some (k + 1) := by
  rw [List.getElem?_range' hk, Nat.one_mul, Nat.add_comm]

/-- The header of a frame tells nothing the protocol does. -/
theorem play_beginning :
    (script T).play (settled k) (.beginning (k + 1) (seqOf k)) = some (settled k) :=
  play_report (by simp [script, Event.tells, settled]) rfl

/-- The line of a transmission is the step that puts the frame under way. -/
theorem play_transmitting (hk : k < T) (n : ℕ) :
    (script T).play (settled k) (.transmitting (seqOf k) n) = some (sent k) := by
  rw [play_one (by simp [script, Event.tells, settled]) rfl, step, send]
  simp [script, settled, sent, getElem?_packets hk]

/-- The line that the frame was received is printed while it is still under way. -/
theorem play_received :
    (script T).play (sent k) (.received (seqOf k)) = some (sent k) :=
  play_report (by simp [script, Event.tells, head?, sent]) rfl

/-- Both lines for an accepted frame are the same step. -/
theorem receive_sent : receive seqOf (sent k) = some (taken k) := by
  simp [receive, sent, taken, settled, List.range'_1_concat, Nat.add_comm 1 k]

/-- The receiver takes the packet when the sequence number is the one it expects, and its
acknowledgement is then under way. -/
theorem play_verified :
    (script T).play (sent k) (.verified (seqOf (k + 1))) = some (taken k) := by
  rw [play_one (by simp [script, Event.tells, head?, sent, settled]) rfl, step]
  exact receive_sent

/-- The line of the acknowledgement is the same step of the protocol, told in other words. -/
theorem play_generatedAck :
    (script T).play (sent k) (.generatedAck (seqOf (k + 1))) = some (taken k) := by
  rw [play_one (by simp [script, Event.tells, head?, sent, settled]) rfl, step]
  exact receive_sent

/-- The sender takes the acknowledgement and slides to the next packet. -/
theorem receiveAck_taken : receiveAck 1 seqOf (taken k) = some (settled (k + 1)) := by
  rw [receiveAck_eq separates_seqOf (Nat.le_refl 1) rfl]
  simp [taken, settled]

/-- The line of the delivery is that step. -/
theorem play_delivered :
    (script T).play (taken k) (.delivered (seqOf (k + 1))) = some (settled (k + 1)) := by
  rw [play_one (by simp [script, Event.tells, taken]) rfl, step]
  exact receiveAck_taken

/-- So is the line that the acknowledgement was received. -/
theorem play_acknowledged :
    (script T).play (taken k) (.acknowledged (seqOf (k + 1))) = some (settled (k + 1)) := by
  rw [play_one (by simp [script, Event.tells, taken]) rfl, step]
  exact receiveAck_taken

/-- A lost frame leaves the sender where it was. -/
theorem play_frame_loss (log : List Event) :
    (script T).playFrom (sent k) (.frameLost (seqOf k) :: .timeout :: .retransmitting :: log)
      = (script T).playFrom (settled k) log := by
  have hlost : (script T).play (sent k) (.frameLost (seqOf k))
      = some { settled k with next := k + 1 } := by
    rw [play_one (by simp [script, Event.tells, head?, sent]) rfl, step]
    simp [sent, settled]
  have htimeout : (script T).play { settled k with next := k + 1 } .timeout
      = some (settled k) := by
    rw [play_one (by simp [script, Event.tells, settled]) rfl, step]
    simp [settled]
  have hagain : (script T).play (settled k) .retransmitting = some (settled k) :=
    play_report (by simp [script, Event.tells, settled]) rfl
  rw [playFrom_cons hlost, playFrom_cons htimeout, playFrom_cons hagain]

/-- A lost acknowledgement leaves the receiver ahead. -/
theorem play_ack_loss (log : List Event) :
    (script T).playFrom (taken k)
        (.ackLost (seqOf (k + 1)) :: .timeout :: .retransmittingDuplicate (seqOf k) :: log)
      = (script T).playFrom (unheard k) log := by
  have hlost : (script T).play (taken k) (.ackLost (seqOf (k + 1)))
      = some { taken k with acks := [] } := by
    rw [play_one (by simp [script, Event.tells, taken]) rfl, step]
    simp [taken]
  have htimeout : (script T).play { taken k with acks := [] } .timeout
      = some (unheard k) := by
    rw [play_one (by simp [script, Event.tells, taken, settled]) rfl, step]
    simp [taken, unheard, settled]
  have hagain : (script T).play (unheard k) (.retransmittingDuplicate (seqOf k))
      = some (unheard k) :=
    play_report (by simp [script, Event.tells, unheard, settled]) rfl
  rw [playFrom_cons hlost, playFrom_cons htimeout, playFrom_cons hagain]

/-- **The second copy is told from the next packet** by its one bit, and thrown away. -/
theorem play_duplicate (hk : k < T) (n : ℕ) (log : List Event) :
    (script T).playFrom (unheard k) (.transmitting (seqOf k) n :: .received (seqOf k)
        :: .duplicate (seqOf k) :: .resendingAck (seqOf (k + 1)) :: log)
      = (script T).playFrom (taken k) log := by
  have hne := seqOf_succ_ne k
  have hsent : (script T).play (unheard k) (.transmitting (seqOf k) n) = some (resent k) := by
    rw [play_one (by simp [script, Event.tells, unheard]) rfl, step, send]
    simp [script, unheard, resent, settled, getElem?_packets hk]
  have hreceived : (script T).play (resent k) (.received (seqOf k)) = some (resent k) :=
    play_report (by simp [script, Event.tells, head?, resent]) rfl
  have hduplicate : (script T).play (resent k) (.duplicate (seqOf k)) = some (resent k) :=
    play_report (by simp [script, Event.tells, head?, resent, settled, hne]) rfl
  have hagain : (script T).play (resent k) (.resendingAck (seqOf (k + 1))) = some (taken k) := by
    rw [play_one (by simp [script, Event.tells, head?, resent, settled, hne]) rfl, step, receive]
    simp [script, resent, taken, settled, hne]
  rw [playFrom_cons hsent, playFrom_cons hreceived, playFrom_cons hduplicate,
    playFrom_cons hagain]

/-! ## The packets -/

/-- The program computes the next sequence number as a remainder by two. -/
theorem seqOf_step (k : ℕ) : (seqOf k + 1) % 2 = seqOf (k + 1) := by
  rw [seqOf, seqOf]
  omega

/-- The lines of packet `k + 1`. -/
def lines (k : ℕ) : List Event :=
  .beginning (k + 1) (seqOf k) :: .transmitting (seqOf k) 1 ::
    if k + 1 = 2 then
      [.frameLost (seqOf k), .timeout, .retransmitting, .transmitting (seqOf k) 2,
        .received (seqOf k), .verified (seqOf (k + 1)), .delivered (seqOf (k + 1))]
    else if k + 1 = 4 then
      [.received (seqOf k), .generatedAck (seqOf (k + 1)), .ackLost (seqOf (k + 1)), .timeout,
        .retransmittingDuplicate (seqOf k), .transmitting (seqOf k) 2, .received (seqOf k),
        .duplicate (seqOf k), .resendingAck (seqOf (k + 1)), .acknowledged (seqOf (k + 1))]
    else
      [.received (seqOf k), .verified (seqOf (k + 1)), .delivered (seqOf (k + 1))]

/-- What the attempts for a packet print. The clean packet needs one, the two others two. -/
theorem attempts_spec (k ack : ℕ) (log : List Event) :
    ∃ n, loop (attempt (k + 1) (seqOf k)) ⟨0, ack, log ++ [.beginning (k + 1) (seqOf k)]⟩
      = some ⟨n, seqOf (k + 1), log ++ lines k⟩ := by
  have hone : nat32 (0 + 1) = some 1 := nat32_of_lt (by norm_num)
  have htwo : nat32 (1 + 1) = some 2 := nat32_of_lt (by norm_num)
  by_cases h2 : k + 1 = 2
  · have hlost : attempt (k + 1) (seqOf k) ⟨0, ack, log ++ [.beginning (k + 1) (seqOf k)]⟩
        = some (.next ⟨1, ack, log ++ [.beginning (k + 1) (seqOf k), .transmitting (seqOf k) 1,
            .frameLost (seqOf k), .timeout, .retransmitting]⟩) := by
      simp [attempt, hone, h2]
    refine ⟨2, (loop_next hlost).trans (loop_done ?_)⟩
    simp [attempt, htwo, seqOf_step, lines, h2]
  · by_cases h4 : k + 1 = 4
    · have hunheard : attempt (k + 1) (seqOf k) ⟨0, ack, log ++ [.beginning (k + 1) (seqOf k)]⟩
          = some (.next ⟨1, seqOf (k + 1), log ++ [.beginning (k + 1) (seqOf k),
              .transmitting (seqOf k) 1, .received (seqOf k), .generatedAck (seqOf (k + 1)),
              .ackLost (seqOf (k + 1)), .timeout, .retransmittingDuplicate (seqOf k)]⟩) := by
        simp [attempt, hone, seqOf_step, h4]
      refine ⟨2, (loop_next hunheard).trans (loop_done ?_)⟩
      simp [attempt, htwo, seqOf_step, lines, h4]
    · refine ⟨1, loop_done ?_⟩
      simp [attempt, hone, seqOf_step, lines, h2, h4]

/-- What the program prints for one packet, and the sequence number it goes on with. It can lose
the frame once and the acknowledgement once, at the packet numbers the source names. -/
theorem packet_eq (hk : k + 2 < 2 ^ 31) (ack : ℕ) (log : List Event) :
    packet (k + 1) (ack, log) = some (seqOf (k + 1), log ++ lines k) := by
  obtain ⟨n, hloop⟩ := attempts_spec k ack log
  have hnext : nat32 (k + 1 + 1) = some (k + 2) := nat32_of_lt hk
  have hseq : (k + 1) % 2 = seqOf k := rfl
  rw [packet, hseq, hloop, Option.bind_eq_bind, Option.bind_some, hnext]
  rfl

/-- The lines of a packet take it through, once. -/
theorem play_lines (hk : k < T) :
    (script T).playFrom (settled k) (lines k) = some (settled (k + 1)) := by
  rw [lines, playFrom_cons play_beginning, playFrom_cons (play_transmitting hk 1)]
  split
  · rw [play_frame_loss, playFrom_cons (play_transmitting hk 2), playFrom_cons play_received,
      playFrom_cons play_verified, playFrom_cons play_delivered, playFrom_nil]
  · split
    · rw [playFrom_cons play_received, playFrom_cons play_generatedAck, play_ack_loss,
        play_duplicate hk, playFrom_cons play_acknowledged, playFrom_nil]
    · rw [playFrom_cons play_received, playFrom_cons play_verified,
        playFrom_cons play_delivered, playFrom_nil]

/-- A packet costs one transmission, and one more where a frame or an acknowledgement is lost. -/
theorem transmissions_lines (k : ℕ) :
    transmissions (lines k) = 1 + (if k + 1 = 2 then 1 else 0) + (if k + 1 = 4 then 1 else 0) := by
  rw [lines]
  split
  · rw [if_neg (by omega)]
    rfl
  · split <;> rfl

/-- **Every output is a run of the protocol.** At every line the receiver holds the first
packets, each once and in order, and is at most one ahead of the sender; at the last line
it holds all of them. Each of the two losses costs one frame. -/
theorem simulate_stop_and_wait_delivers (T : ℕ) (hT : T + 1 < 2 ^ 31) :
    ∃ log, simulate_stop_and_wait T = some log
      ∧ (∀ pre, pre <+: log → ∃ s, (script T).playback pre = some s
          ∧ s.delivered = List.range' 1 s.expected ∧ s.base ≤ s.expected
          ∧ s.expected ≤ s.base + 1)
      ∧ (∃ s, (script T).playback log = some s ∧ s.delivered = List.range' 1 T ∧ s.base = T
          ∧ s.frames = [] ∧ s.acks = [])
      ∧ transmissions log = T + (if 2 ≤ T then 1 else 0) + (if 4 ≤ T then 1 else 0) := by
  -- after `k` packets the output can be played back to the state with `k` settled
  obtain ⟨⟨ack, log⟩, hloop, hplay, hcount⟩ := forLoop_one_spec (n := T) (f := packet)
    (fun k s => (script T).playback s.2 = some (settled k)
      ∧ transmissions s.2 = k + (if 2 ≤ k then 1 else 0) + (if 4 ≤ k then 1 else 0))
    (s := (0, [])) ⟨rfl, rfl⟩ (by
      rintro k ⟨ack, log⟩ hk ⟨hlog, hcount⟩
      dsimp only at hlog hcount
      refine ⟨_, packet_eq (by omega) ack log, ?_, ?_⟩
      · rw [playback_append hlog, play_lines hk]
      · rw [transmissions_append, transmissions_lines, hcount]
        split_ifs <;> omega)
  have hcomplete : (script T).play (settled T) (.complete T) = some (settled T) :=
    play_report (by simp [script, Event.tells, settled]) rfl
  have hlast : (script T).playback (log ++ [.complete T]) = some (settled T) := by
    rw [playback_append hplay, playFrom_cons hcomplete, playFrom_nil]
  have hsep : Separates (script T).W (script T).seq := separates_seqOf
  refine ⟨log ++ [.complete T], ?_, ?_, ⟨_, hlast, rfl, rfl, rfl, rfl⟩, ?_⟩
  · rw [simulate_stop_and_wait, hloop]
    rfl
  -- a part of the output can be played back too, and the protocol keeps its invariant
  · intro pre hpre
    obtain ⟨s, hs, hinv⟩ := playback_prefix hsep hlast hpre
    have hle : s.expected ≤ T := by simpa [script] using hinv.expected_le
    refine ⟨s, hs, ?_, hinv.base_le, hinv.expected_le_base⟩
    rw [hinv.delivered]
    exact List.take_range'_of_length_ge hle
  · rw [transmissions_append, hcount]
    rfl

/-- The five frames of `main`: seven transmissions, with both losses. -/
theorem simulate_stop_and_wait_delivers_shipped :
    ∃ log, simulate_stop_and_wait 5 = some log ∧ transmissions log = 7 := by
  obtain ⟨log, hlog, -, -, hcount⟩ := simulate_stop_and_wait_delivers 5 (by norm_num)
  exact ⟨log, hlog, hcount⟩

end Playback

end CourseLabs.StopAndWait
