import TalCash.Common.Run
/-!
# Interleaved runs

Components that do not share a state take the operations of one run in
turns. What becomes of a component is its own run over the operations
meant for it (`run_interleaved`), so that what holds along the whole run
holds along the run of each.
-/

namespace Run

variable {ι σ ο : Type*} [DecidableEq ι] {step : ι → σ → ο → σ} {cond : ι → σ → ο → Prop}
variable {states : ι → σ} {os : List (ι × ο)}

/-- One of the components takes an operation. -/
def interleaved (step : ι → σ → ο → σ) (states : ι → σ) (o : ι × ο) : ι → σ :=
  Function.update states o.1 (step o.1 (states o.1) o.2)

/-- The operations for one component, in order. -/
def opsOf (i : ι) (os : List (ι × ο)) : List ο := (os.filter fun o => o.1 = i).map Prod.snd

@[simp] theorem mem_opsOf {i : ι} {o : ο} : o ∈ opsOf i os ↔ (i, o) ∈ os := by
  simp [opsOf]

theorem opsOf_cons_self (i : ι) (o : ο) : opsOf i ((i, o) :: os) = o :: opsOf i os := by
  simp [opsOf]

theorem opsOf_cons_ne {i j : ι} (o : ο) (h : j ≠ i) : opsOf i ((j, o) :: os) = opsOf i os := by
  simp [opsOf, h]

/-- **Each component makes its own run.** -/
theorem run_interleaved (i : ι) :
    run (interleaved step) states os i = run (step i) (states i) (opsOf i os) := by
  induction os generalizing states with
  | nil => rfl
  | cons o os ih =>
    obtain ⟨j, o⟩ := o
    rw [run, List.foldl_cons, ← run, ih]
    by_cases h : j = i
    · subst h
      rw [opsOf_cons_self, interleaved, Function.update_self, run, run, List.foldl_cons]
    · rw [opsOf_cons_ne o h, interleaved, Function.update_of_ne (Ne.symm h)]

/-- A condition along the whole run is one along the run of a component. -/
theorem Along.opsOf
    (h : Along (fun states o => cond o.1 (states o.1) o.2) (interleaved step) states os) (i : ι) :
    Along (cond i) (step i) (states i) (opsOf i os) := by
  induction os generalizing states with
  | nil => trivial
  | cons o os ih =>
    obtain ⟨j, o⟩ := o
    have hrest := ih h.2
    by_cases hj : j = i
    · subst hj
      rw [opsOf_cons_self]
      rw [interleaved, Function.update_self] at hrest
      exact ⟨h.1, hrest⟩
    · rw [opsOf_cons_ne o hj]
      rw [interleaved, Function.update_of_ne (Ne.symm hj)] at hrest
      exact hrest

end Run
