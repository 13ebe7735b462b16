/-
A **sliding-window protocol** over two channels that lose, and what it delivers.

A sender holds the messages of a list and may have `W` of them under way at once. Each
travels under the number `seq i` of its index `i`. The receiver takes the one message it
expects, throws everything else away, and answers every frame with the number it expects
next. An acknowledgement moves the sender's window to the index it names, a timeout takes
the sender back to the first index it has no acknowledgement for. Both channels keep the
order and lose at their head.

The numbers need not be all different: it is enough that they tell the `W + 1` indices of
a window apart (`Separates`). Then an acknowledgement names one index of the window and a
frame under way is never taken for another one, so in every run, whatever is lost and
whenever the timeout fires, what is delivered is a prefix of the messages, each once and
in order. Nothing here mentions a program.
-/
import Mathlib.Tactic.Common
import Mathlib.Data.List.Basic
import Mathlib.Order.Lattice

set_option autoImplicit false

namespace CourseLabs.SlidingWindow

/-- `W + 1` consecutive indices have different numbers: what the sequence numbers must do for a
window of `W` frames. -/
def Separates (W : ℕ) (seq : ℕ → ℕ) : Prop :=
  ∀ i j, i < j → j ≤ i + W → seq i ≠ seq j

/-- Indices no further apart than the window are known by their numbers. -/
theorem Separates.eq {W : ℕ} {seq : ℕ → ℕ} (h : Separates W seq) {i j : ℕ} (hij : i ≤ j + W)
    (hji : j ≤ i + W) (heq : seq i = seq j) : i = j := by
  rcases Nat.lt_trichotomy i j with hlt | heq' | hlt
  · exact absurd heq (h i j hlt hji)
  · exact heq'
  · exact absurd heq.symm (h j i hlt hij)

/-- Frames numbered by their index, at any window. -/
theorem separates_id (W : ℕ) : Separates W id :=
  fun _ _ hlt _ => Nat.ne_of_lt hlt

/-! ## The two parties and their channels -/

/-- The two channels, the sender and the receiver. `delivered` is what the receiver has handed
on. -/
structure State (α : Type) where
  base : ℕ
  next : ℕ
  expected : ℕ
  delivered : List α
  frames : List (ℕ × α)
  acks : List ℕ
  deriving Repr, DecidableEq

/-- What can happen: the sender sends or times out, and each channel delivers or loses its
first. -/
inductive Action where
  | send
  | timeout
  | loseFrame
  | receive
  | loseAck
  | receiveAck
  deriving Repr, DecidableEq

/-- Nothing sent, nothing delivered, and nothing on either channel. -/
def start (α : Type) : State α :=
  ⟨0, 0, 0, [], [], []⟩

section Protocol

variable {α : Type} (W : ℕ) (seq : ℕ → ℕ) (msgs : List α)

/-- The next message leaves, if the window has room and there is one. -/
def send (s : State α) : Option (State α) := do
  let a ← msgs[s.next]?
  if s.next < s.base + W then
    some { s with next := s.next + 1, frames := s.frames ++ [(seq s.next, a)] }
  else
    none

/-- The receiver takes the frame at the head of its channel and answers it. -/
def receive (s : State α) : Option (State α) :=
  match s.frames with
  | [] => none
  | (n, a) :: fs =>
      if n = seq s.expected then
        some { s with expected := s.expected + 1, delivered := s.delivered ++ [a], frames := fs,
                      acks := s.acks ++ [seq (s.expected + 1)] }
      else
        some { s with frames := fs, acks := s.acks ++ [seq s.expected] }

/-- The sender looks the acknowledged number up in its window. -/
def receiveAck (s : State α) : Option (State α) :=
  match s.acks with
  | [] => none
  | n :: as =>
      match (List.range (W + 1)).find? (fun d => seq (s.base + d) = n) with
      | none => some { s with acks := as }
      | some d => some { s with base := s.base + d, next := max s.next (s.base + d), acks := as }

/-- One action. It is `none` where the action is not possible, such as a frame to send beyond the
window. -/
def step (s : State α) : Action → Option (State α)
  | .send => send W seq msgs s
  | .timeout => some { s with next := s.base }
  | .loseFrame => if s.frames = [] then none else some { s with frames := s.frames.tail }
  | .receive => receive seq s
  | .loseAck => if s.acks = [] then none else some { s with acks := s.acks.tail }
  | .receiveAck => receiveAck W seq s

/-- The actions one after the other; a run has a result if each of them is possible where it comes.
-/
def run (s : State α) (acts : List Action) : Option (State α) :=
  acts.foldlM (step W seq msgs) s

@[simp] theorem run_nil (s : State α) : run W seq msgs s [] = some s :=
  rfl

@[simp] theorem run_cons (s : State α) (a : Action) (acts : List Action) :
    run W seq msgs s (a :: acts)
      = (step W seq msgs s a).bind (fun t => run W seq msgs t acts) :=
  List.foldlM_cons

/-! ## What is under way

Frames leave from a base that only grows, so along the channel the bases do not fall. The
oldest of them bounds how far the receiver can be. -/

/-- The frames under way, oldest first, sent from bases of `[lo, hi]`. -/
inductive Frames : ℕ → ℕ → List (ℕ × α) → Prop
  | nil {lo hi : ℕ} (h : lo ≤ hi) : Frames lo hi []
  | cons {lo hi b i : ℕ} {a : α} {fs : List (ℕ × α)} (hlo : lo ≤ b) (hb : b ≤ i)
      (hi' : i < b + W) (ha : msgs[i]? = some a) (h : Frames b hi fs) :
      Frames lo hi ((seq i, a) :: fs)

/-- The acknowledgements under way, oldest first, for indices of `[lo, hi]`. -/
inductive Acks : ℕ → ℕ → List ℕ → Prop
  | nil {lo hi : ℕ} (h : lo ≤ hi) : Acks lo hi []
  | cons {lo hi i : ℕ} {as : List ℕ} (hlo : lo ≤ i) (h : Acks i hi as) :
      Acks lo hi (seq i :: as)

variable {W seq msgs}

/-- The range of a channel is one. -/
theorem Frames.le {lo hi : ℕ} {fs : List (ℕ × α)} (h : Frames W seq msgs lo hi fs) :
    lo ≤ hi := by
  induction h with
  | nil h => exact h
  | cons hlo _ _ _ _ ih => exact hlo.trans ih

/-- A channel within a range is within a wider one. -/
theorem Frames.mono {lo lo' hi hi' : ℕ} {fs : List (ℕ × α)} (h : Frames W seq msgs lo hi fs)
    (hlo : lo' ≤ lo) (hhi : hi ≤ hi') : Frames W seq msgs lo' hi' fs := by
  induction h generalizing lo' with
  | nil h => exact .nil (by omega)
  | cons hle hb hi' ha _ ih => exact .cons (hlo.trans hle) hb hi' ha (ih (Nat.le_refl _) hhi)

/-- A frame enters at the end, from the base of the moment. -/
theorem Frames.append {lo hi i : ℕ} {a : α} {fs : List (ℕ × α)}
    (h : Frames W seq msgs lo hi fs) (hb : hi ≤ i) (hi' : i < hi + W) (ha : msgs[i]? = some a) :
    Frames W seq msgs lo hi (fs ++ [(seq i, a)]) := by
  induction h with
  | nil h => exact .cons h hb hi' ha (.nil (Nat.le_refl _))
  | cons hlo hb' hi'' ha' _ ih => exact .cons hlo hb' hi'' ha' (ih hb hi')

/-- What is left when the first frame is delivered or lost. -/
theorem Frames.tail {lo hi : ℕ} {fs : List (ℕ × α)} (h : Frames W seq msgs lo hi fs) :
    Frames W seq msgs lo hi fs.tail := by
  cases h with
  | nil h => exact .nil h
  | cons hlo _ _ _ h => exact h.mono hlo (Nat.le_refl _)

theorem Acks.le {lo hi : ℕ} {as : List ℕ} (h : Acks seq lo hi as) : lo ≤ hi := by
  induction h with
  | nil h => exact h
  | cons hlo _ ih => exact hlo.trans ih

/-- An acknowledgement that is not older than one bound is not older than a lower one. -/
theorem Acks.mono {lo lo' hi : ℕ} {as : List ℕ} (h : Acks seq lo hi as) (hlo : lo' ≤ lo) :
    Acks seq lo' hi as := by
  cases h with
  | nil h => exact .nil (hlo.trans h)
  | cons hle h => exact .cons (hlo.trans hle) h

/-- The receiver acknowledges an index no older one passes. -/
theorem Acks.append {lo hi i : ℕ} {as : List ℕ} (h : Acks seq lo hi as) (hi' : hi ≤ i) :
    Acks seq lo i (as ++ [seq i]) := by
  induction h with
  | nil h => exact .cons (h.trans hi') (.nil (Nat.le_refl _))
  | cons hlo _ ih => exact .cons hlo (ih hi')

/-- What is left when the first acknowledgement is delivered or lost. -/
theorem Acks.tail {lo hi : ℕ} {as : List ℕ} (h : Acks seq lo hi as) : Acks seq lo hi as.tail := by
  cases h with
  | nil h => exact .nil h
  | cons hlo h => exact h.mono hlo

variable (W seq msgs)

/-- What every run keeps. The receiver is ahead of the base of no frame under way by more
than the window. -/
structure Inv (s : State α) : Prop where
  delivered : s.delivered = msgs.take s.expected
  expected_le : s.expected ≤ msgs.length
  base_le_next : s.base ≤ s.next
  next_le : s.next ≤ s.base + W
  acks : Acks seq s.base s.expected s.acks
  frames : ∃ lo, s.expected ≤ lo + W ∧ Frames W seq msgs lo s.base s.frames

variable {W seq msgs} {s t : State α}

/-- The sender's window never starts beyond what the receiver expects. -/
theorem Inv.base_le (h : Inv W seq msgs s) : s.base ≤ s.expected :=
  h.acks.le

/-- And the receiver is never ahead of the window's end. -/
theorem Inv.expected_le_base (h : Inv W seq msgs s) : s.expected ≤ s.base + W := by
  obtain ⟨lo, hlo, hframes⟩ := h.frames
  have := hframes.le
  omega

theorem inv_start : Inv W seq msgs (start α) where
  delivered := rfl
  expected_le := Nat.zero_le _
  base_le_next := Nat.le_refl _
  next_le := Nat.zero_le _
  acks := .nil (Nat.le_refl _)
  frames := ⟨0, Nat.zero_le _, .nil (Nat.le_refl _)⟩

/-- A frame that is sent has the next number of the window, so it is no older than what the
receiver may still see. -/
theorem send_inv (h : Inv W seq msgs s) (hs : send W seq msgs s = some t) : Inv W seq msgs t := by
  obtain ⟨a, ha, hs⟩ := Option.bind_eq_some_iff.mp hs
  have hnext := h.base_le_next
  split at hs
  · rename_i hroom
    obtain ⟨lo, hlo, hframes⟩ := h.frames
    cases hs
    exact { h with
      base_le_next := by dsimp only; omega
      next_le := hroom
      frames := ⟨lo, hlo, hframes.append hnext hroom ha⟩ }
  · cases hs

/-- **A frame the receiver takes is the one it expects**: the window is too narrow for two
frames of one number. -/
theorem receive_inv (hsep : Separates W seq) (h : Inv W seq msgs s) (hs : receive seq s = some t) :
    Inv W seq msgs t := by
  obtain ⟨lo, hlo, hframes⟩ := h.frames
  have hbase := h.base_le
  unfold receive at hs
  split at hs
  · cases hs
  · rename_i n a fs hfs
    rw [hfs] at hframes
    cases hframes with
    | @cons _ _ b i _ _ hlb hbi hiw ha hrest =>
        have hble := hrest.le
        split at hs
        · -- the index of the accepted frame is the expected one
          rename_i hnum
          obtain rfl : i = s.expected := hsep.eq (by omega) (by omega) hnum
          have hlen : s.expected < msgs.length := (List.getElem?_eq_some_iff.mp ha).1
          cases hs
          exact { h with
            delivered := by
              dsimp only
              rw [h.delivered, List.take_add_one, ha]
              rfl
            expected_le := hlen
            acks := h.acks.append (Nat.le_succ _)
            frames := ⟨b, by dsimp only; omega, hrest⟩ }
        · cases hs
          exact { h with
            acks := h.acks.append (Nat.le_refl _)
            frames := ⟨b, by dsimp only; omega, hrest⟩ }

/-- The window moves to the index the acknowledgement stands for. -/
theorem receiveAck_inv (hsep : Separates W seq) (h : Inv W seq msgs s)
    (hs : receiveAck W seq s = some t) : Inv W seq msgs t := by
  have hexp := h.expected_le_base
  obtain ⟨lo, hlo, hframes⟩ := h.frames
  have hacks := h.acks
  have hnext := h.next_le
  have hble := h.base_le_next
  unfold receiveAck at hs
  split at hs
  · cases hs
  · rename_i n as has
    rw [has] at hacks
    cases hacks with
    | @cons _ _ i _ hbi hrest =>
        have hile := hrest.le
        -- the search finds an index, as the acknowledged one is in the window
        split at hs
        · rename_i hnone
          have hi := List.find?_eq_none.mp hnone (i - s.base) (List.mem_range.mpr (by omega))
          rw [show s.base + (i - s.base) = i by omega] at hi
          exact absurd (decide_eq_true rfl) hi
        · rename_i d hd
          have hmem : d < W + 1 := List.mem_range.mp (List.mem_of_find?_eq_some hd)
          have hnum : seq (s.base + d) = seq i := by
            simpa only [decide_eq_true_eq] using List.find?_some hd
          -- and it is this one, since the numbers of a window are different
          obtain rfl : s.base + d = i := hsep.eq (by omega) (by omega) hnum
          cases hs
          exact { h with
            base_le_next := Nat.le_max_right _ _
            next_le := by dsimp only; omega
            acks := hrest
            frames := ⟨lo, hlo, hframes.mono (Nat.le_refl _) (Nat.le_add_right _ _)⟩ }

/-- **One action keeps the invariant.** The case that needs the numbering is a frame that is
delivered: equal numbers have to mean equal frames within the window (`Separates`). -/
theorem step_inv (hsep : Separates W seq) (h : Inv W seq msgs s) {a : Action}
    (hs : step W seq msgs s a = some t) : Inv W seq msgs t := by
  cases a with
  | send => exact send_inv h hs
  | timeout =>
      cases hs
      exact { h with base_le_next := Nat.le_refl _, next_le := Nat.le_add_right _ _ }
  | loseFrame =>
      rw [step] at hs
      split at hs
      · cases hs
      · cases hs
        obtain ⟨lo, hlo, hframes⟩ := h.frames
        exact { h with frames := ⟨lo, hlo, hframes.tail⟩ }
  | receive => exact receive_inv hsep h hs
  | loseAck =>
      rw [step] at hs
      split at hs
      · cases hs
      · cases hs
        exact { h with acks := h.acks.tail }
  | receiveAck => exact receiveAck_inv hsep h hs

/-- **So does a run**, of any length and with any losses: the invariant holds wherever the actions
lead. -/
theorem run_inv (hsep : Separates W seq) {acts : List Action} (h : Inv W seq msgs s)
    (hrun : run W seq msgs s acts = some t) : Inv W seq msgs t := by
  induction acts generalizing s with
  | nil =>
      cases hrun
      exact h
  | cons a acts ih =>
      rw [run_cons] at hrun
      obtain ⟨u, hu, hrest⟩ := Option.bind_eq_some_iff.mp hrun
      exact ih (step_inv hsep h hu) hrest

/-- The acknowledgement of an index of the window is found at its distance from the base. -/
theorem receiveAck_eq (hsep : Separates W seq) {k : ℕ} {as : List ℕ} (hk : k ≤ W)
    (hacks : s.acks = seq (s.base + k) :: as) :
    receiveAck W seq s
      = some { s with base := s.base + k, next := max s.next (s.base + k), acks := as } := by
  have hfind : (List.range (W + 1)).find? (fun d => seq (s.base + d) = seq (s.base + k))
      = some k := by
    rw [List.find?_range_eq_some]
    refine ⟨by simp, List.mem_range.mpr (by omega), fun j hj => ?_⟩
    have hne : seq (s.base + j) ≠ seq (s.base + k) := hsep _ _ (by omega) (by omega)
    simp [hne]
  rw [receiveAck, hacks]
  simp only [hfind]

/-- Once every message is acknowledged, every message is delivered. -/
theorem Inv.complete (h : Inv W seq msgs s) (hbase : msgs.length ≤ s.base) :
    s.delivered = msgs := by
  rw [h.delivered, List.take_of_length_le (hbase.trans h.base_le)]

end Protocol

/-! ## Logs

A program that stages the protocol prints what happens. A `Script` says what a line of its
log asserts of the state before it and which steps it stands for; a log that can be played
to its end is a run of the protocol. -/

/-- How a program's log is read as actions of the protocol: which actions a line stands for, and
what it tells about the state. -/
structure Script (α ε : Type) where
  W : ℕ
  seq : ℕ → ℕ
  msgs : List α
  tells : State α → ε → Bool
  actions : ε → List Action

namespace Script

variable {α ε : Type} (c : Script α ε)

/-- A line of the log, if its actions are possible and it tells the truth. -/
def play (s : State α) (e : ε) : Option (State α) :=
  if c.tells s e then run c.W c.seq c.msgs s (c.actions e) else none

/-- The lines of a log one after the other. -/
def playFrom (s : State α) (log : List ε) : Option (State α) :=
  log.foldlM c.play s

/-- The log from the start. A log that has a playback is one that the protocol allows. -/
def playback (log : List ε) : Option (State α) :=
  c.playFrom (start α) log

variable {c} {s t : State α} {e : ε} {log : List ε}

@[simp] theorem playFrom_nil : c.playFrom s [] = some s :=
  rfl

theorem playFrom_cons (h : c.play s e = some t) (log : List ε) :
    c.playFrom s (e :: log) = c.playFrom t log := by
  rw [playFrom, List.foldlM_cons, h]
  rfl

theorem playFrom_cons_none (h : c.play s e = none) (log : List ε) :
    c.playFrom s (e :: log) = none := by
  rw [playFrom, List.foldlM_cons, h]
  rfl

/-- A log may be played in two parts, the second from where the first ends; so the lines of a loop
can be added one by one. -/
theorem playFrom_append (h : c.playFrom s log = some t) (l : List ε) :
    c.playFrom s (log ++ l) = c.playFrom t l := by
  unfold playFrom at h ⊢
  rw [List.foldlM_append, h]
  rfl

theorem playback_append (h : c.playback log = some s) (l : List ε) :
    c.playback (log ++ l) = c.playFrom s l :=
  playFrom_append h l

/-- What cannot be played cannot be played on: a line that was false stays in the log. -/
theorem playback_none (h : c.playback log = none) (l : List ε) : c.playback (log ++ l) = none := by
  unfold playback playFrom at h ⊢
  rw [List.foldlM_append, h]
  rfl

/-- A line that only reports leaves the state as it is. -/
theorem play_report (h : c.tells s e = true) (ha : c.actions e = []) : c.play s e = some s := by
  rw [play, if_pos h, ha, run_nil]

/-- A line that stands for one action: when what it tells is true, playing it is that step. -/
theorem play_one (h : c.tells s e = true) {a : Action} (ha : c.actions e = [a]) :
    c.play s e = step c.W c.seq c.msgs s a := by
  rw [play, if_pos h, ha, run_cons]
  cases step c.W c.seq c.msgs s a <;> rfl

/-- What a log reaches is a state of the protocol. -/
theorem playback_inv (hsep : Separates c.W c.seq) (h : c.playback log = some s) :
    Inv c.W c.seq c.msgs s := by
  have hgen : ∀ {l : List ε} {s t : State α}, Inv c.W c.seq c.msgs s →
      c.playFrom s l = some t → Inv c.W c.seq c.msgs t := by
    intro l
    induction l with
    | nil =>
        intro s t hs ht
        cases ht
        exact hs
    | cons e l ih =>
        intro s t hs ht
        obtain ⟨u, hu, hrest⟩ := Option.bind_eq_some_iff.mp ht
        rw [play] at hu
        split at hu
        · exact ih (run_inv hsep hs hu) hrest
        · cases hu
  exact hgen inv_start h

/-- **Every line of a log that can be played** stands where a prefix of the messages is
delivered. -/
theorem playback_prefix (hsep : Separates c.W c.seq) (h : c.playback log = some t)
    {pre : List ε} (hpre : pre <+: log) :
    ∃ s, c.playback pre = some s ∧ Inv c.W c.seq c.msgs s := by
  obtain ⟨rest, rfl⟩ := hpre
  cases hs : c.playback pre with
  | none =>
      rw [playback_none hs] at h
      cases h
  | some s => exact ⟨s, rfl, playback_inv hsep hs⟩

end Script

end CourseLabs.SlidingWindow
