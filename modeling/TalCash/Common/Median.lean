import Mathlib
/-!
# Medians of sliding windows

The upper median of a list is the value in the middle of its sorted form.
It reaches a bound exactly when at least half of the values do
(`le_upper_iff`), which is a count and so does not depend on the order. A
window over the newest values that lets in a value above its median, and
lets go of the oldest one or of none, has a median no lower
(`upper_le_upper`).
-/

namespace Median

variable {α : Type*} [LinearOrder α]

/-- The upper median. -/
def upper (l : List α) : Option α :=
  let ordered := l.insertionSort (· ≤ ·)
  ordered[ordered.length / 2]?

theorem upper_isSome {l : List α} (h : l ≠ []) : ∃ m, upper l = some m := by
  have hpos := List.length_pos_iff.2 h
  have hlt : (l.insertionSort (· ≤ ·)).length / 2 < (l.insertionSort (· ≤ ·)).length := by
    rw [List.length_insertionSort]
    omega
  exact ⟨_, List.getElem?_eq_getElem hlt⟩

/-- How many values reach a bound. -/
def reaching (a : α) (l : List α) : ℕ := l.countP fun x => decide (a ≤ x)

theorem reaching_le_length (a : α) (l : List α) : reaching a l ≤ l.length := List.countP_le_length

theorem reaching_cons_of_le {a x : α} (h : a ≤ x) (l : List α) :
    reaching a (x :: l) = reaching a l + 1 := List.countP_cons_of_pos (decide_eq_true h)

theorem reaching_cons_of_not_le {a x : α} (h : ¬ a ≤ x) (l : List α) :
    reaching a (x :: l) = reaching a l := List.countP_cons_of_neg (by simpa using h)

theorem reaching_append (a : α) (l l' : List α) :
    reaching a (l ++ l') = reaching a l + reaching a l' := List.countP_append

/-- In a sorted list the value at an index reaches a bound exactly when
as many values do as stand from there on. -/
theorem le_getElem_iff {a : α} : ∀ {l : List α}, l.Pairwise (· ≤ ·) → ∀ {k : ℕ} (hk : k < l.length),
    a ≤ l[k] ↔ l.length - k ≤ reaching a l := by
  intro l
  induction l with
  | nil => intro _ k hk; exact absurd hk (Nat.not_lt_zero k)
  | cons x rest ih =>
    intro hs k hk
    have hx := (List.pairwise_cons.1 hs).1
    have hle := reaching_le_length a rest
    by_cases ha : a ≤ x
    · -- the head reaches the bound, and with it the whole list
      have hall : reaching a rest = rest.length :=
        List.countP_eq_length.2 fun y hy => decide_eq_true (ha.trans (hx y hy))
      rw [reaching_cons_of_le ha, hall, List.length_cons]
      refine ⟨fun _ => Nat.sub_le _ _, fun _ => ?_⟩
      cases k with
      | zero => exact ha
      | succ k => exact ha.trans (hx _ (List.getElem_mem _))
    · rw [reaching_cons_of_not_le ha, List.length_cons]
      cases k with
      | zero =>
        refine ⟨fun h => absurd h ha, fun h => ?_⟩
        omega
      | succ k =>
        have hk' : k < rest.length := Nat.lt_of_succ_lt_succ hk
        rw [List.getElem_cons_succ, ih (List.pairwise_cons.1 hs).2 hk', Nat.add_sub_add_right]

/-- **The median reaches a bound exactly when at least half of the values
do.** -/
theorem le_upper_iff {l : List α} {a m : α} (h : upper l = some m) :
    a ≤ m ↔ l.length - l.length / 2 ≤ reaching a l := by
  obtain ⟨hk, rfl⟩ := List.getElem?_eq_some_iff.1 h
  have hperm : reaching a (l.insertionSort (· ≤ ·)) = reaching a l :=
    (List.perm_insertionSort _ l).countP_eq _
  rw [le_getElem_iff (List.pairwise_insertionSort _ l) hk, hperm, List.length_insertionSort]

/-- **The median of a window never goes back**, if what comes in is not
below it: where the window still grows, and where it lets go of its
oldest value. -/
theorem upper_le_upper (room : ℕ) {values : List α} {v m m' : α}
    (h : upper (values.take (room + 1)) = some m) (hv : m ≤ v)
    (h' : upper ((v :: values).take (room + 1)) = some m') : m ≤ m' := by
  have hold := (le_upper_iff h).1 le_rfl
  rw [List.take_succ_cons] at h'
  rw [le_upper_iff h', reaching_cons_of_le hv, List.length_cons]
  rcases Nat.lt_or_ge room values.length with hlt | hge
  · -- the oldest value leaves the window
    rw [List.take_succ_eq_append_getElem hlt, reaching_append, List.length_append] at hold
    have hone := reaching_le_length m [values[room]]
    rw [List.length_singleton] at hold hone
    omega
  · rw [List.take_of_length_le (by omega)] at hold
    rw [List.take_of_length_le hge]
    omega

end Median
