import Mathlib
/-!
# Greedy choice from queues

Items wait in queues. Whoever chooses takes the item that rates highest
among the first ones of the queues not yet given up, if it fits in what is
left of a budget, and else gives its queue up. `Greedy` says which choices
come about so, whatever breaks ties, and the results below say what they
have in common.
-/

namespace Greedy

variable {ι α ρ : Type*} [DecidableEq ι] [LinearOrder ρ]
variable (queue : ι → List α) (owner : α → ι) (size : α → ℕ) (rate : α → ρ) (budget : ℕ)

/-- What is left of a queue. -/
def left (chosen : List α) (i : ι) : List α := (queue i).drop (chosen.countP (owner · = i))

/-- How much was chosen. -/
def used (chosen : List α) : ℕ := (chosen.map size).sum

/-- An item is the first of a queue not given up, and none of the others
rates higher. -/
def Best (chosen : List α) (gone : List ι) (e : α) : Prop :=
  owner e ∉ gone ∧ (left queue owner chosen (owner e)).head? = some e ∧
    ∀ i ∉ gone, ∀ f, (left queue owner chosen i).head? = some f → rate f ≤ rate e

/-- The choices made so far and the queues given up. -/
inductive Run : List α → List ι → Prop
  | start : Run [] []
  | take {chosen : List α} {gone : List ι} {e : α} (h : Run chosen gone)
    (hbest : Best queue owner rate chosen gone e) (hfits : used size chosen + size e ≤ budget) :
    Run (chosen ++ [e]) gone
  | giveUp {chosen : List α} {gone : List ι} {e : α} (h : Run chosen gone)
    (hbest : Best queue owner rate chosen gone e) (hfits : budget < used size chosen + size e) :
    Run chosen (owner e :: gone)

variable {queue owner size rate budget} {chosen : List α} {gone : List ι} {e f : α} {i : ι}

omit [DecidableEq ι] in
theorem used_append : used size (chosen ++ [e]) = used size chosen + size e := by
  rw [used, List.map_append, List.sum_append]
  exact congrArg (used size chosen + ·) (Nat.add_zero _)

theorem countP_append_self :
    (chosen ++ [e]).countP (owner · = owner e) = chosen.countP (owner · = owner e) + 1 := by
  rw [List.countP_append, List.countP_singleton, if_pos (by simp)]

theorem countP_append_of_ne (h : owner e ≠ i) :
    (chosen ++ [e]).countP (owner · = i) = chosen.countP (owner · = i) := by
  rw [List.countP_append, List.countP_singleton, if_neg (by simpa using h), Nat.add_zero]

theorem left_append_self :
    left queue owner (chosen ++ [e]) (owner e) = (left queue owner chosen (owner e)).tail := by
  rw [left, left, countP_append_self, List.tail_drop]

theorem left_append_of_ne (h : owner e ≠ i) :
    left queue owner (chosen ++ [e]) i = left queue owner chosen i := by
  rw [left, left, countP_append_of_ne h]

/-- The first item of what is left of a queue is in the queue. -/
theorem mem_of_head? (h : (left queue owner chosen i).head? = some e) : e ∈ queue i :=
  List.mem_of_mem_drop (List.mem_of_mem_head? h)

namespace Run

/-- **Nothing beyond the budget.** -/
theorem used_le (h : Run queue owner size rate budget chosen gone) : used size chosen ≤ budget := by
  induction h with
  | start => exact Nat.zero_le _
  | take _ _ hfits _ =>
    rw [used_append]
    exact hfits
  | giveUp _ _ _ ih => exact ih

theorem mem_queue (h : Run queue owner size rate budget chosen gone) (he : e ∈ chosen) :
    e ∈ queue (owner e) := by
  induction h with
  | start => cases he
  | take _ hbest _ ih =>
    rcases List.mem_append.1 he with he | he
    · exact ih he
    · obtain rfl := List.mem_singleton.1 he
      exact mem_of_head? hbest.2.1
  | giveUp _ _ _ ih => exact ih he

/-- **What is chosen of a queue is what it began with**, in its order. -/
theorem filter_append_left (h : Run queue owner size rate budget chosen gone) (i : ι) :
    chosen.filter (owner · = i) ++ left queue owner chosen i = queue i := by
  induction h with
  | start => rfl
  | @take chosen gone e _ hbest _ ih =>
    by_cases hi : owner e = i
    · subst hi
      obtain ⟨tail, htail⟩ := List.head?_eq_some_iff.1 hbest.2.1
      have hself : [e].filter (owner · = owner e) = [e] := by simp
      rw [List.filter_append, hself, left_append_self, htail, List.tail_cons, List.append_assoc,
        List.singleton_append, ← htail]
      exact ih
    · have hnone : [e].filter (owner · = i) = [] := by simpa using hi
      rw [List.filter_append, hnone, List.append_nil, left_append_of_ne hi]
      exact ih
  | giveUp _ _ _ ih => exact ih

theorem isPrefix (h : Run queue owner size rate budget chosen gone) (i : ι) :
    chosen.filter (owner · = i) <+: queue i := ⟨_, h.filter_append_left i⟩

/-- **Nothing is chosen twice.** -/
theorem nodup (h : Run queue owner size rate budget chosen gone) (hq : ∀ i, (queue i).Nodup) :
    chosen.Nodup := by
  classical
  rw [List.nodup_iff_count_le_one]
  intro e
  have hcount : chosen.count e = (chosen.filter (owner · = owner e)).count e :=
    (List.count_filter (by simp)).symm
  rw [hcount]
  exact List.nodup_iff_count_le_one.1 ((hq _).sublist (h.isPrefix _).sublist) e

/-- **Each choice was the best** when it was made. -/
theorem best (h : Run queue owner size rate budget chosen gone) {before after : List α}
    (hsplit : chosen = before ++ e :: after) : ∃ gone', Run queue owner size rate budget before gone' ∧
      Best queue owner rate before gone' e := by
  induction h generalizing after with
  | start => exact absurd hsplit.symm (List.append_ne_nil_of_right_ne_nil _ (List.cons_ne_nil _ _))
  | @take chosen gone f h hbest _ ih =>
    rcases List.eq_nil_or_concat after with rfl | ⟨rest, g, rfl⟩
    · obtain ⟨rfl, hef⟩ := List.append_inj' hsplit rfl
      obtain rfl := List.singleton_inj.1 hef
      exact ⟨gone, h, hbest⟩
    · rw [List.concat_eq_append, ← List.cons_append, ← List.append_assoc] at hsplit
      exact ih (List.append_inj' hsplit rfl).1
  | giveUp _ _ _ ih => exact ih hsplit

/-- **A queue given up stays so**: its first item does not fit any more. -/
theorem not_fits (h : Run queue owner size rate budget chosen gone) (hi : i ∈ gone) :
    ∃ e, (left queue owner chosen i).head? = some e ∧ budget < used size chosen + size e := by
  induction h with
  | start => cases hi
  | @take chosen gone e _ hbest _ ih =>
    obtain ⟨f, hf, hlt⟩ := ih hi
    have hne : owner e ≠ i := fun h => hbest.1 (h ▸ hi)
    refine ⟨f, by rw [left_append_of_ne hne, hf], ?_⟩
    rw [used_append]
    omega
  | giveUp _ hbest hfits ih =>
    rcases List.mem_cons.1 hi with rfl | hi
    · exact ⟨_, hbest.2.1, hfits⟩
    · exact ih hi

end Run

end Greedy
