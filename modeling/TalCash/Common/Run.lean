import Mathlib
/-!
# Runs

A system takes one step for each operation it is given; a run is a list
of operations. `Along` says that a condition on the state and the
operation holds at every step of a run, and the rules below carry an
invariant, or a fact that stays once it holds, along such a run.
-/

namespace Run

variable {σ ο : Type*} {step : σ → ο → σ} {cond : σ → ο → Prop} {s : σ} {os os' : List ο}

/-- The state after a run. -/
def run (step : σ → ο → σ) (s : σ) (os : List ο) : σ := os.foldl step s

/-- Every step of the run, taken in its turn, meets the condition. -/
def Along (cond : σ → ο → Prop) (step : σ → ο → σ) : σ → List ο → Prop
  | _, [] => True
  | s, o :: os => cond s o ∧ Along cond step (step s o) os

theorem along_append :
    Along cond step s (os ++ os') ↔
      Along cond step s os ∧ Along cond step (run step s os) os' := by
  induction os generalizing s with
  | nil => exact (iff_of_eq (true_and _)).symm
  | cons o os ih => simp only [List.cons_append, Along, ih, and_assoc, run, List.foldl_cons]

/-- A condition that every operation of the run meets, whatever the state. -/
theorem along_of_mem (h : ∀ o ∈ os, ∀ s, cond s o) : Along cond step s os := by
  induction os generalizing s with
  | nil => trivial
  | cons o os ih =>
    exact ⟨h o List.mem_cons_self s, ih fun o' ho' => h o' (List.mem_cons_of_mem _ ho')⟩

theorem along_trivial (h : ∀ s o, cond s o) : Along cond step s os :=
  along_of_mem fun o _ s => h s o

theorem Along.mono {cond' : σ → ο → Prop} (h : Along cond step s os)
    (hc : ∀ s o, cond s o → cond' s o) : Along cond' step s os := by
  induction os generalizing s with
  | nil => trivial
  | cons o os ih => exact ⟨hc _ _ h.1, ih h.2⟩

/-- Two conditions that each hold along a run hold together. -/
theorem Along.and {cond' : σ → ο → Prop} (h : Along cond step s os) (h' : Along cond' step s os) :
    Along (fun s o => cond s o ∧ cond' s o) step s os := by
  induction os generalizing s with
  | nil => trivial
  | cons o os ih => exact ⟨⟨h.1, h'.1⟩, ih h.2 h'.2⟩

/-- **The invariant rule.** What holds at first and what every step that
meets the condition preserves, holds after the run. -/
theorem Along.invariant {P : σ → Prop} (h : Along cond step s os) (h0 : P s)
    (hstep : ∀ s o, P s → cond s o → P (step s o)) : P (run step s os) := by
  induction os generalizing s with
  | nil => exact h0
  | cons o os ih => exact ih h.2 (hstep s o h0 h.1)

end Run
