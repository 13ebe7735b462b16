/-
**Runs of a transition system**, for the programs with several threads.

A step relation `step s a t` says that `a` (a thread, a message, an operation of the
caller) may take the state `s` to `t`. A run keeps each step together with the state it
was taken in, so a condition on the steps of a run is a condition on the members of its
trace. A property of a run of any length goes through one rule, `Run.invariant`.
-/
import Mathlib.Tactic.Common

set_option autoImplicit false

namespace CourseLabs.Transition

section Runs

variable {σ ι : Type} {step : σ → ι → σ → Prop} {s t : σ} {trace : List (σ × ι)}

/-- The runs from `s`, with their steps in order. -/
inductive Run (step : σ → ι → σ → Prop) (s : σ) : List (σ × ι) → σ → Prop
  | refl : Run step s [] s
  | snoc {trace : List (σ × ι)} {t u : σ} {a : ι} (h : Run step s trace t) (hstep : step t a u) :
      Run step s (trace ++ [(t, a)]) u

def Reachable (step : σ → ι → σ → Prop) (s t : σ) : Prop :=
  ∃ trace, Run step s trace t

/-- No step is possible, whoever would take it: the end of the system, or its deadlock. -/
def Stuck (step : σ → ι → σ → Prop) (s : σ) : Prop :=
  ∀ a t, ¬ step s a t

/-- **The rule of invariants**, with the trace so far. -/
theorem Run.invariant (I : List (σ × ι) → σ → Prop) (h0 : I [] s)
    (hstep : ∀ trace t a u, I trace t → step t a u → I (trace ++ [(t, a)]) u)
    (h : Run step s trace t) : I trace t := by
  induction h with
  | refl => exact h0
  | snoc _ hst ih => exact hstep _ _ _ _ ih hst

/-- The same for a property of the states alone. -/
theorem Reachable.invariant (I : σ → Prop) (h0 : I s)
    (hstep : ∀ t a u, I t → step t a u → I u) (h : Reachable step s t) : I t := by
  obtain ⟨trace, hrun⟩ := h
  exact hrun.invariant (fun _ t => I t) h0 (fun _ t a u => hstep t a u)

theorem Reachable.refl (step : σ → ι → σ → Prop) (s : σ) : Reachable step s s :=
  ⟨[], .refl⟩

theorem Reachable.tail {u : σ} {a : ι} (h : Reachable step s t) (hstep : step t a u) :
    Reachable step s u := by
  obtain ⟨trace, hrun⟩ := h
  exact ⟨_, hrun.snoc hstep⟩

theorem Reachable.head {u : σ} {a : ι} (hstep : step s a t) (h : Reachable step t u) :
    Reachable step s u :=
  h.invariant (fun u => Reachable step s u) ((Reachable.refl step s).tail hstep)
    fun _ _ _ hu hstep => hu.tail hstep

/-- Runs follow one another: the trace of the whole is that of the first run, and then that of the
second. -/
theorem Run.append {u : σ} {trace' : List (σ × ι)} (h : Run step s trace t)
    (h' : Run step t trace' u) : Run step s (trace ++ trace') u := by
  induction h' with
  | refl => rwa [List.append_nil]
  | snoc _ hst ih =>
      rw [← List.append_assoc]
      exact ih.snoc hst

end Runs

end CourseLabs.Transition
