import TalCash.Common.Run
import TalCash.Node.Submit
/-!
# Runs of a node

The calls a node takes: blocks submitted, and chunk files applied that
passed their checks. A call leaves a node whether it returned or raised.
-/

namespace TalCash

/-- A call of the chain manager. -/
inductive Call
  | submit (block : Block)
  | apply (checked : CheckedChunk)

variable [Primitives]

/-- A chunk is applied after it passed `checkChunkFile`. -/
def Call.Passed (params : NetworkParams) : Call → Prop
  | .submit _ => True
  | .apply checked => ∃ data most, checkChunkFile data params most = .ok checked

namespace Node

/-- The node after a call. -/
def step (params : NetworkParams) (clock : ℕ → ℤ) (n : Node) : Call → Node
  | .submit block => Exec.final (submitBlock params clock block) n
  | .apply checked => Exec.final (applyChunk params checked) n

/-- The node after a run of calls. -/
def after (params : NetworkParams) (clock : ℕ → ℤ) (calls : List Call) : Node :=
  Run.run (step params clock) (fresh params) calls

variable {params : NetworkParams} {clock : ℕ → ℤ} {n : Node} {calls : List Call}

theorem pool_fresh : Pool (fresh params) :=
  ⟨fun _ _ h => (nomatch h), rfl, Nat.zero_le _, Nat.zero_le _⟩

/-- Applying a chunk is an operation on the store. -/
theorem step_apply (checked : CheckedChunk) :
    step params clock n (.apply checked) =
      { n with store := Exec.final (Store.applyChunk params checked) n.store } := by
  rw [step, applyChunk, onStore]
  exact Exec.final_zoom

/-- Every call keeps the pool of orphans. -/
theorem Pool.step (h : Pool n) (call : Call) : Pool (step params clock n call) := by
  cases call with
  | submit block =>
    refine Exec.wp_const_iff.1 ((submitBlock_invariant (P := fun _ => True) (C := fun _ _ => True) h
      (fun _ _ => trivial) (fun _ _ _ => Exec.wp_of_forall (fun _ _ => trivial) fun _ _ => trivial)
      (fun _ _ => trivial) trivial).mono (fun _ _ h => h.2) fun _ _ h => h.2)
  | apply checked =>
    rw [step_apply]
    exact SamePool.pool (n := n) ⟨rfl, rfl⟩ h

end Node

end TalCash
