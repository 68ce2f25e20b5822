import Mathlib
/-!
# Searching up to a gap

A search asks for 0, 1, 2, … whether they are used and stops once `gap` in
a row are not. `Scanned` is what it knows after each answer; where it stops,
the last one it found is the greatest that can be reached from 0 without
crossing a gap (`Scanned.stop`).
-/

namespace GapScan

variable {used : ℕ → Prop} {gap n : ℕ}

/-- No `gap` unused numbers in a row lie below a number. -/
def Reached (used : ℕ → Prop) (gap n : ℕ) : Prop :=
  ∀ k, k + gap ≤ n → ∃ j, k ≤ j ∧ j < k + gap ∧ used j

/-- The greatest used number that is reached, or -1. -/
def IsLast (used : ℕ → Prop) (gap : ℕ) (last : ℤ) : Prop :=
  IsGreatest {m : ℤ | m = -1 ∨ ∃ i : ℕ, m = i ∧ used i ∧ Reached used gap i} last

/-- What is known once all below `index` were asked for: `last` is the last
one used, and less than a gap behind. -/
structure Scanned (used : ℕ → Prop) (gap : ℕ) (last : ℤ) (index : ℕ) : Prop where
  found : last = -1 ∨ ∃ i : ℕ, last = i ∧ used i ∧ Reached used gap i
  lt_index : last < index
  above : ∀ j < index, used j → (j : ℤ) ≤ last
  near : index - last ≤ gap + 1

variable {last : ℤ} {index : ℕ}

theorem IsLast.unique {last' : ℤ} (h : IsLast used gap last) (h' : IsLast used gap last') :
    last = last' := IsGreatest.unique h h'

theorem IsLast.neg_one_le (h : IsLast used gap last) : -1 ≤ last := h.2 (.inl rfl)

namespace Scanned

theorem init : Scanned used gap (-1) 0 where
  found := .inl rfl
  lt_index := by omega
  above j hj := absurd hj (Nat.not_lt_zero j)
  near := by omega

theorem neg_one_le (h : Scanned used gap last index) : -1 ≤ last := by
  obtain rfl | ⟨i, rfl, -⟩ := h.found <;> omega

/-- A number less than a gap behind the last one is reached. -/
theorem reached (h : Scanned used gap last index) (hgap : index - last ≤ gap) :
    Reached used gap index := by
  intro k hk
  obtain rfl | ⟨i, rfl, hused, hreached⟩ := h.found
  · omega
  · rcases Nat.lt_or_ge i (k + gap) with hlt | hge
    · exact ⟨i, by omega, hlt, hused⟩
    · exact hreached k hge

/-- **A used one.** -/
theorem hit (h : Scanned used gap last index) (hgap : index - last ≤ gap) (hused : used index) :
    Scanned used gap index (index + 1) where
  found := .inr ⟨index, rfl, hused, h.reached hgap⟩
  lt_index := by omega
  above j hj _ := by omega
  near := by omega

/-- **An unused one.** -/
theorem miss (h : Scanned used gap last index) (hgap : index - last ≤ gap)
    (hunused : ¬ used index) : Scanned used gap last (index + 1) where
  found := h.found
  lt_index := by
    have := h.lt_index
    omega
  above j hj hused := by
    rcases Nat.lt_succ_iff_lt_or_eq.1 hj with hlt | rfl
    · exact h.above j hlt hused
    · exact absurd hused hunused
  near := by omega

/-- **Where the search stops** it found the last one that is reached, and
asked for exactly `gap` more. -/
theorem stop (h : Scanned used gap last index) (hgap : ¬ index - last ≤ gap) :
    index = last + gap + 1 ∧ IsLast used gap last := by
  have hnear := h.near
  refine ⟨by omega, h.found, ?_⟩
  rintro m (rfl | ⟨i, rfl, hused, hreached⟩)
  · exact h.neg_one_le
  · by_contra hlt
    -- one further up has the whole gap below it
    have hneg := h.neg_one_le
    have hge : index ≤ i := by
      by_contra hbelow
      exact hlt (h.above i (by omega) hused)
    obtain ⟨j, hle, hj, husedj⟩ := hreached (last + 1).toNat (by omega)
    have := h.above j (by omega) husedj
    omega

end Scanned

end GapScan
