/-
The **loops** every program of this development is written with, and the rules
their proofs go through.

A C function is read as a function into `Option`. `none` stands for a run that has
no result: it left the language (an index outside an array, a signed overflow, a
division by zero, a dereferenced `NULL`) or it never ends. So one equation
`f x = some y` says three things at once: the run ends, nothing on the way was
undefined, and the value is `y`. No definition carries a fuel argument.

* `forLoop` is the counting loop `for (i = lo; i < hi; i++)`, structural on the
  number of passes left.
* `loop` is the open-ended loop. Its body answers `next` to go round again and `done`
  to leave, so a condition at the head, a `break` and a `return` are all one shape.
  It is a least fixed point: a run that never leaves is `none`.

Each has one rule, an invariant carried over one pass. Nothing here mentions a
program.

A recursive C function is a least fixed point too. Its recursive call goes under a
local name (`letI f := by exact f`, gone when the definition is elaborated): the fixed
point then holds the call alone, without its position in the file.
-/
import Mathlib.Tactic.Common

set_option autoImplicit false

namespace CourseLabs.CLoop

/-- What one pass through a loop body answers: go round with a new state, or leave. -/
inductive Pass (σ β : Type) where
  | next (s : σ)
  | done (b : β)

section ForLoop

variable {σ : Type}

/-- `n` passes of `body`, on the counters `lo`, `lo + 1`, …. -/
def forFrom (body : ℕ → σ → Option σ) : ℕ → ℕ → σ → Option σ
  | _, 0, s => some s
  | lo, n + 1, s => (body lo s).bind (forFrom body (lo + 1) n)

/-- `for (i = lo; i < hi; i++)`: the bounds are evaluated before the loop, and the body may end it
only by having no result. -/
def forLoop (lo hi : ℕ) (s : σ) (body : ℕ → σ → Option σ) : Option σ :=
  forFrom body lo (hi - lo) s

theorem forLoop_of_le {lo hi : ℕ} (h : hi ≤ lo) (s : σ) (body : ℕ → σ → Option σ) :
    forLoop lo hi s body = some s := by
  rw [forLoop, Nat.sub_eq_zero_of_le h, forFrom]

/-- The first pass, peeled off: what evaluates a loop on given bounds, and what an induction from
the front uses. -/
theorem forLoop_step {lo hi : ℕ} (h : lo < hi) (s : σ) (body : ℕ → σ → Option σ) :
    forLoop lo hi s body = (body lo s).bind (fun s' => forLoop (lo + 1) hi s' body) := by
  obtain ⟨n, rfl⟩ : ∃ n, hi = lo + 1 + n := ⟨hi - (lo + 1), by omega⟩
  simp only [forLoop]
  rw [show lo + 1 + n - lo = n + 1 by omega, show lo + 1 + n - (lo + 1) = n by omega, forFrom]

/-- **The rule of the counting loop.** An invariant indexed by the counter, true at
`lo` and carried over each pass, is true at `hi` of the state the loop ends in. -/
theorem forLoop_spec {lo hi : ℕ} {f : ℕ → σ → Option σ} (I : ℕ → σ → Prop) {s : σ}
    (hle : lo ≤ hi) (h0 : I lo s)
    (hstep : ∀ i s, lo ≤ i → i < hi → I i s → ∃ s', f i s = some s' ∧ I (i + 1) s') :
    ∃ s', forLoop lo hi s f = some s' ∧ I hi s' := by
  obtain ⟨n, rfl⟩ : ∃ n, hi = lo + n := ⟨hi - lo, by omega⟩
  induction n generalizing lo s with
  | zero => exact ⟨s, forLoop_of_le (by omega) s f, h0⟩
  | succ n ih =>
      -- the first pass moves the invariant to `lo + 1`, and the rest is a shorter loop
      obtain ⟨s1, hs1, hI1⟩ := hstep lo s (Nat.le_refl lo) (by omega) h0
      rw [forLoop_step (by omega), hs1, Option.bind_some,
        show lo + (n + 1) = lo + 1 + n by omega]
      exact ih hI1 (by omega) (fun i s hi1 hi2 => hstep i s (by omega) (by omega))

/-- The same rule with the invariant indexed by the passes made. -/
theorem forLoop_passes {lo n : ℕ} {f : ℕ → σ → Option σ} (I : ℕ → σ → Prop) {s : σ} (h0 : I 0 s)
    (hstep : ∀ j s, j < n → I j s → ∃ s', f (lo + j) s = some s' ∧ I (j + 1) s') :
    ∃ s', forLoop lo (lo + n) s f = some s' ∧ I n s' := by
  obtain ⟨s', hrun, hI⟩ := @forLoop_spec σ lo (lo + n) f (fun i s => I (i - lo) s) s
    (Nat.le_add_right lo n) (by rwa [Nat.sub_self]) (by
      intro i s hlo hhi hi
      obtain ⟨j, rfl⟩ : ∃ j, i = lo + j := ⟨i - lo, by omega⟩
      rw [Nat.add_sub_cancel_left] at hi
      rw [Nat.add_assoc, Nat.add_sub_cancel_left]
      exact hstep j s (by omega) hi)
  rw [Nat.add_sub_cancel_left] at hI
  exact ⟨s', hrun, hI⟩

/-- The rule for `for (i = 1; i <= n; i++)`. -/
theorem forLoop_one_spec {n : ℕ} {f : ℕ → σ → Option σ} (I : ℕ → σ → Prop) {s : σ} (h0 : I 0 s)
    (hstep : ∀ i s, i < n → I i s → ∃ s', f (i + 1) s = some s' ∧ I (i + 1) s') :
    ∃ s', forLoop 1 (n + 1) s f = some s' ∧ I n s' := by
  rw [Nat.add_comm n 1]
  apply forLoop_passes I h0
  intro j s hj hI
  rw [Nat.add_comm 1 j]
  exact hstep j s hj hI

/-- The rule for a loop that is known to have a result. -/
theorem forLoop_inv {lo hi : ℕ} {f : ℕ → σ → Option σ} (I : σ → Prop) {s s' : σ} (h0 : I s)
    (hstep : ∀ i s s', I s → f i s = some s' → I s') (h : forLoop lo hi s f = some s') : I s' := by
  generalize hn : hi - lo = n
  induction n generalizing lo s with
  | zero =>
      rw [forLoop_of_le (by omega), Option.some.injEq] at h
      exact h ▸ h0
  | succ n ih =>
      rw [forLoop_step (by omega)] at h
      obtain ⟨s1, hs1, hrest⟩ := Option.bind_eq_some_iff.mp h
      exact ih (hstep lo s s1 h0 hs1) hrest (by omega)

/-- **Two counting loops in step**: a relation that every pass keeps holds when they have ended,
and the second one has a result if the first has. -/
theorem forLoop_sim {τ : Type} {lo hi : ℕ} {f : ℕ → σ → Option σ} {g : ℕ → τ → Option τ}
    (R : σ → τ → Prop)
    (hstep : ∀ i s s' t, R s t → f i s = some s' → ∃ t', g i t = some t' ∧ R s' t')
    {s s' : σ} {t : τ} (h0 : R s t) (h : forLoop lo hi s f = some s') :
    ∃ t', forLoop lo hi t g = some t' ∧ R s' t' := by
  generalize hn : hi - lo = n
  induction n generalizing lo s t with
  | zero =>
      rw [forLoop_of_le (by omega), Option.some.injEq] at h
      exact ⟨t, forLoop_of_le (by omega) t g, h ▸ h0⟩
  | succ n ih =>
      rw [forLoop_step (by omega)] at h
      obtain ⟨s1, hs1, hrest⟩ := Option.bind_eq_some_iff.mp h
      obtain ⟨t1, ht1, hR⟩ := hstep lo s s1 t h0 hs1
      rw [forLoop_step (by omega), ht1]
      exact ih hR hrest (by omega)

/-- A pass that has no result leaves the loop without one. The invariant is what the passes
before it keep. -/
theorem forLoop_none_of {lo hi i : ℕ} {f : ℕ → σ → Option σ} (I : σ → Prop) {s : σ} (h0 : I s)
    (hstep : ∀ j s s', I s → f j s = some s' → I s') (hlo : lo ≤ i) (hi' : i < hi)
    (h : ∀ s, I s → f i s = none) : forLoop lo hi s f = none := by
  obtain ⟨n, rfl⟩ : ∃ n, i = lo + n := ⟨i - lo, by omega⟩
  induction n generalizing lo s with
  | zero =>
      have hfirst : f lo s = none := h s h0
      rw [forLoop_step (by omega), hfirst]
      rfl
  | succ n ih =>
      rw [forLoop_step (by omega)]
      cases hpass : f lo s with
      | none => rfl
      | some s' =>
          refine ih (hstep lo s s' h0 hpass) (by omega) (by omega) fun s hs => ?_
          rw [show lo + 1 + n = lo + (n + 1) by omega]
          exact h s hs

theorem forLoop_none {lo hi i : ℕ} {f : ℕ → σ → Option σ} {s : σ} (hlo : lo ≤ i) (hi' : i < hi)
    (h : ∀ s, f i s = none) : forLoop lo hi s f = none :=
  forLoop_none_of (fun _ => True) trivial (fun _ _ _ _ _ => trivial) hlo hi' fun s _ => h s

/-- A counting loop from `0` is a monadic fold over the counters. -/
theorem forLoop_eq_foldlM (hi : ℕ) (s : σ) (body : ℕ → σ → Option σ) :
    forLoop 0 hi s body = (List.range hi).foldlM (fun s i => body i s) s := by
  have hgen : ∀ n lo (s : σ), forFrom body lo n s
      = (List.range' lo n).foldlM (fun s i => body i s) s := by
    intro n
    induction n with
    | zero => intro lo s; rfl
    | succ n ih =>
        intro lo s
        rw [forFrom, List.range'_succ, List.foldlM_cons]
        cases body lo s with
        | none => rfl
        | some s' => exact ih (lo + 1) s'
  rw [forLoop, hgen, List.range_eq_range', Nat.sub_zero]

/-- **The rule of the fold.** An invariant indexed by the elements that are done. -/
theorem foldlM_spec {α : Type} {f : σ → α → Option σ} (I : List α → σ → Prop) {l : List α} {s : σ}
    (h0 : I [] s)
    (hstep : ∀ done a s, a ∈ l → I done s → ∃ s', f s a = some s' ∧ I (done ++ [a]) s') :
    ∃ s', l.foldlM f s = some s' ∧ I l s' := by
  have hgen : ∀ (rest done : List α) (s : σ), (∀ a ∈ rest, a ∈ l) → I done s →
      ∃ s', rest.foldlM f s = some s' ∧ I (done ++ rest) s' := by
    intro rest
    induction rest with
    | nil => exact fun done s _ hI => ⟨s, rfl, by rwa [List.append_nil]⟩
    | cons a rest ih =>
        intro done s hmem hI
        obtain ⟨s1, hs1, hI1⟩ := hstep done a s (hmem a List.mem_cons_self) hI
        obtain ⟨s', hrest, hI'⟩ :=
          ih (done ++ [a]) s1 (fun b hb => hmem b (List.mem_cons_of_mem a hb)) hI1
        rw [List.append_assoc, List.singleton_append] at hI'
        refine ⟨s', ?_, hI'⟩
        rw [List.foldlM_cons, hs1]
        exact hrest
  exact hgen l [] s (fun _ ha => ha) h0

/-- A loop inside a loop is one fold over the inner lists strung together. -/
theorem foldlM_flatMap {α β : Type} (f : α → List β) (g : σ → β → Option σ) (l : List α)
    (s : σ) : (l.flatMap f).foldlM g s = l.foldlM (fun s a => (f a).foldlM g s) s := by
  induction l generalizing s with
  | nil => rfl
  | cons a l ih =>
      rw [List.flatMap_cons, List.foldlM_append, List.foldlM_cons]
      cases (f a).foldlM g s with
      | none => rfl
      | some s' => exact ih s'

end ForLoop

section Loop

variable {σ β : Type}

/-- Run `body` until it answers `done`. A loop that goes on for ever has no result, like one with a
pass that is undefined. -/
def loop (body : σ → Option (Pass σ β)) (s : σ) : Option β :=
  letI loop : (σ → Option (Pass σ β)) → σ → Option β := by exact loop
  do
    match ← body s with
    | .done b => some b
    | .next s' => loop body s'
partial_fixpoint

theorem loop_done {body : σ → Option (Pass σ β)} {s : σ} {b : β}
    (h : body s = some (.done b)) : loop body s = some b := by
  rw [loop, h]
  rfl

theorem loop_next {body : σ → Option (Pass σ β)} {s s' : σ}
    (h : body s = some (.next s')) : loop body s = loop body s' := by
  rw [loop, h]
  rfl

theorem loop_none {body : σ → Option (Pass σ β)} {s : σ} (h : body s = none) :
    loop body s = none := by
  rw [loop, h]
  rfl

/-- **The rule of the open-ended loop.** A pass from a state of the invariant either
leaves with an answer `Q` accepts, or keeps the invariant and lowers the measure. -/
theorem loop_spec {f : σ → Option (Pass σ β)} (μ : σ → ℕ) (I : σ → Prop) (Q : β → Prop)
    (hstep : ∀ s, I s → (∃ b, f s = some (.done b) ∧ Q b)
      ∨ ∃ s', f s = some (.next s') ∧ I s' ∧ μ s' < μ s)
    {s : σ} (h0 : I s) : ∃ b, loop f s = some b ∧ Q b := by
  generalize hm : μ s = m
  induction m using Nat.strongRecOn generalizing s with
  | ind m ih =>
      subst hm
      rcases hstep s h0 with ⟨b, hb, hQ⟩ | ⟨s', hs', hI', hlt⟩
      · exact ⟨b, loop_done hb, hQ⟩
      -- the measure falls, so the induction on it takes over
      · rw [loop_next hs']
        exact ih (μ s') hlt hI' rfl

/-- The rule for a loop that is known to end: what every pass keeps shows in the answer. -/
theorem loop_inv {f : σ → Option (Pass σ β)} (I : σ → Prop) (Q : β → Prop)
    (hnext : ∀ s s', I s → f s = some (.next s') → I s')
    (hdone : ∀ s b, I s → f s = some (.done b) → Q b)
    {s : σ} {b : β} (h0 : I s) (h : loop f s = some b) : Q b := by
  apply loop.partial_correctness f (fun s b => I s → Q b) _ s b h h0
  intro rec hrec s b hpass hI
  cases hf : f s with
  | none => simp [hf] at hpass
  | some p =>
      cases p with
      | done b' =>
          obtain rfl : b' = b := by simpa [hf] using hpass
          exact hdone s b' hI hf
      | next s' => exact hrec s' b (by simpa [hf] using hpass) (hnext s s' hI hf)

/-- Two answers of one kind, related: both loops go round, or both are left in the same pass. -/
inductive Pass.Rel {τ γ : Type} (R : σ → τ → Prop) (Q : β → γ → Prop) :
    Pass σ β → Pass τ γ → Prop
  | next {s : σ} {t : τ} (h : R s t) : Pass.Rel R Q (.next s) (.next t)
  | done {b : β} {c : γ} (h : Q b c) : Pass.Rel R Q (.done b) (.done c)

/-- **Two loops in step.** If the other body answers as the one does, from any state related to
its, so does the other loop. -/
theorem loop_sim {τ γ : Type} {f : σ → Option (Pass σ β)} {g : τ → Option (Pass τ γ)}
    (R : σ → τ → Prop) (Q : β → γ → Prop)
    (hstep : ∀ s t p, R s t → f s = some p → ∃ q, g t = some q ∧ Pass.Rel R Q p q)
    {s : σ} {t : τ} {b : β} (h0 : R s t) (h : loop f s = some b) :
    ∃ c, loop g t = some c ∧ Q b c := by
  apply loop.partial_correctness f
    (fun s b => ∀ t, R s t → ∃ c, loop g t = some c ∧ Q b c) _ s b h t h0
  intro rec hrec s b hpass t hR
  cases hf : f s with
  | none => simp [hf] at hpass
  | some p =>
      obtain ⟨q, hq, hrel⟩ := hstep s t p hR hf
      cases hrel with
      | @done b' c hQ =>
          obtain rfl : b' = b := by simpa [hf] using hpass
          exact ⟨c, loop_done hq, hQ⟩
      | @next s' t' hR' =>
          rw [loop_next hq]
          exact hrec s' b (by simpa [hf] using hpass) t' hR'

/-- The same loop with a bound on the passes. It is structural, so it evaluates. -/
def loopN (body : σ → Option (Pass σ β)) : ℕ → σ → Option β
  | 0, _ => none
  | n + 1, s => do
    match ← body s with
    | .done b => some b
    | .next s' => loopN body n s'

/-- A bound the run stays within does not show. -/
theorem loop_eq_loopN {body : σ → Option (Pass σ β)} (n : ℕ) {s : σ}
    (h : (loopN body n s).isSome) : loop body s = loopN body n s := by
  induction n generalizing s with
  | zero => simp [loopN] at h
  | succ n ih =>
      rw [loopN] at h ⊢
      cases hb : body s with
      | none => simp [hb] at h
      | some p =>
          cases p with
          | done b' =>
              rw [loop_done hb]
              rfl
          | next s' =>
              rw [loop_next hb]
              exact ih (by simpa [hb] using h)

end Loop

end CourseLabs.CLoop
