import Mathlib
/-!
# Metered spending

A level rises at a rate up to a cap, and spending lowers it, below zero
too. What was asked for at one time is released once the level, left to
rise, is back at zero; `Metered` describes the events of such a meter from
a time and a level on. What is released up to a time is covered by the
level and what it gained until then (`Metered.releasedBy_le`); where every
event is released at once, the same holds from any time on, with the cap
for the level (`Metered.within_le`).
-/

namespace Metering

variable {K : Type*} [Field K] [LinearOrder K]

/-- Something spent: when it was asked for, when it was released, and how
much it was. -/
structure Event (K : Type*) where
  asked : K
  released : K
  cost : K

/-- The events of a meter from a time and a level on. -/
inductive Metered (rate cap : K) : K → K → List (Event K) → Prop
  | nil {time level : K} : Metered rate cap time level []
  /-- Time passes. -/
  | wait {time time' level level' : K} {es : List (Event K)} (later : time ≤ time')
      (gain : level' ≤ level + rate * (time' - time)) (below : level' ≤ cap)
      (rest : Metered rate cap time' level' es) : Metered rate cap time level es
  /-- Something is asked for, and released when the debt is paid. -/
  | spend {level : K} {e : Event K} {es : List (Event K)} (cost : 0 ≤ e.cost)
      (paid : 0 ≤ level - e.cost + rate * (e.released - e.asked))
      (rest : Metered rate cap e.asked (level - e.cost) es) :
      Metered rate cap e.asked level (e :: es)

/-- What was released up to a time. -/
def releasedBy (es : List (Event K)) (time : K) : K :=
  ((es.filter fun e => e.released ≤ time).map Event.cost).sum

/-- What was released between two times. -/
def within (es : List (Event K)) (first last : K) : K :=
  ((es.filter fun e => first ≤ e.released ∧ e.released ≤ last).map Event.cost).sum

omit [LinearOrder K] in
theorem sum_filter_cons (p : Event K → Bool) (e : Event K) (es : List (Event K)) :
    (((e :: es).filter p).map Event.cost).sum =
      (if p e then e.cost else 0) + ((es.filter p).map Event.cost).sum := by
  rw [List.filter_cons]
  split
  · rw [List.map_cons, List.sum_cons]
  · rw [zero_add]

variable [IsStrictOrderedRing K] {rate cap time level : K} {es : List (Event K)}

namespace Metered

omit [IsStrictOrderedRing K] in
theorem cost_nonneg (h : Metered rate cap time level es) : ∀ e ∈ es, 0 ≤ e.cost := by
  induction h with
  | nil => exact fun e he => absurd he List.not_mem_nil
  | wait _ _ _ _ ih => exact ih
  | spend cost _ _ ih =>
    intro e he
    rcases List.mem_cons.1 he with rfl | he
    · exact cost
    · exact ih e he

/-- **What is released is paid for**: by the level, and by what it can
gain. -/
theorem releasedBy_le (h : Metered rate cap time level es) (hrate : 0 ≤ rate) (last : K) :
    releasedBy es last ≤ max 0 (level + rate * (last - time)) := by
  induction h with
  | nil => exact le_max_left _ _
  | @wait time time' level level' es later gain below rest ih =>
    refine ih.trans (max_le_max le_rfl ?_)
    calc level' + rate * (last - time')
        ≤ level + rate * (time' - time) + rate * (last - time') := by gcongr
      _ = level + rate * (last - time) := by ring
  | @spend level e es cost paid rest ih =>
    rw [releasedBy, sum_filter_cons, ← releasedBy]
    split
    · rename_i hlast
      have hlast := of_decide_eq_true hlast
      -- the debt is paid by then, so the bound of the rest is no maximum
      have hpaid : 0 ≤ level - e.cost + rate * (last - e.asked) := paid.trans (by gcongr)
      rw [max_eq_right hpaid] at ih
      refine le_trans ?_ (le_max_right _ _)
      linarith
    · rw [zero_add]
      refine ih.trans (max_le_max le_rfl ?_)
      linarith

theorem within_le_releasedBy (h : ∀ e ∈ es, 0 ≤ e.cost) (first last : K) :
    within es first last ≤ releasedBy es last := by
  induction es with
  | nil => exact le_rfl
  | cons e es ih =>
    have hrest := ih fun e' he' => h e' (List.mem_cons_of_mem _ he')
    have hcost := h e List.mem_cons_self
    rw [within, releasedBy, sum_filter_cons, sum_filter_cons, ← within, ← releasedBy]
    split
    · rename_i hwithin
      rw [if_pos (decide_eq_true (of_decide_eq_true hwithin).2)]
      linarith
    · split
      · linarith
      · linarith

/-- **Within any interval** events that are released at once cost at most
the cap and what the interval gains. -/
theorem within_le (h : Metered rate cap time level es) (hrate : 0 ≤ rate) (hcap : 0 ≤ cap)
    (hlevel : level ≤ cap) (hprompt : ∀ e ∈ es, e.released = e.asked) (first : K) {length : K}
    (hlength : 0 ≤ length) : within es first (first + length) ≤ cap + rate * length := by
  have hbound : 0 ≤ cap + rate * length := add_nonneg hcap (mul_nonneg hrate hlength)
  induction h with
  | nil => exact hbound
  | wait _ _ below _ ih => exact ih below hprompt
  | @spend level e es cost paid rest ih =>
    have hrest := ih (by linarith) fun e' he' => hprompt e' (List.mem_cons_of_mem _ he')
    by_cases hwithin : first ≤ e.released ∧ e.released ≤ first + length
    · -- the first event inside: from here on the level pays
      have hall := spend cost paid rest
      refine (within_le_releasedBy hall.cost_nonneg _ _).trans
        ((hall.releasedBy_le hrate _).trans (max_le hbound ?_))
      rw [hprompt e List.mem_cons_self] at hwithin
      have hgain : first + length - e.asked ≤ length := by linarith [hwithin.1]
      gcongr
    · rw [within, sum_filter_cons, ← within, if_neg (by rw [decide_eq_true_iff]; exact hwithin),
        zero_add]
      exact hrest

end Metered

end Metering
