import TalCash.Common.Merkle
/-!
# Merkle roots by splitting

The recursive definition of a Merkle root: a list of more than one leaf is
cut at the largest power of two below its length, and the roots of the two
parts are hashed together. Pairing neighbours level by level gives the
same root (`reduce_eq_splitRoot`), because one level of pairs halves the
point where the list is cut (`splitPoint_half`, `splitRoot_pairUp`).
-/

namespace Merkle

variable {α δ : Type*}

/-! ## Where a list is cut -/

/-- The largest power of two below a number of leaves. -/
def splitPoint (n : ℕ) : ℕ := 2 ^ Nat.log 2 (n - 1)

theorem splitPoint_pos (n : ℕ) : 0 < splitPoint n := Nat.two_pow_pos _

theorem splitPoint_lt {n : ℕ} (h : 1 < n) : splitPoint n < n := by
  have hle : splitPoint n ≤ n - 1 := Nat.pow_log_le_self 2 (by omega)
  omega

theorem splitPoint_isGreatest {n : ℕ} (h : 1 < n) :
    IsGreatest {k | (∃ i, k = 2 ^ i) ∧ k < n} (splitPoint n) := by
  refine ⟨⟨⟨_, rfl⟩, splitPoint_lt h⟩, ?_⟩
  rintro _ ⟨⟨i, rfl⟩, hi⟩
  exact Nat.pow_le_pow_right two_pos (Nat.le_log_of_pow_le one_lt_two (by omega))

/-- One level up the list is cut at half the point. -/
theorem splitPoint_half {n : ℕ} (h : 2 < n) : splitPoint n = 2 * splitPoint ((n + 1) / 2) := by
  have hhalf : (n + 1) / 2 - 1 = (n - 1) / 2 := by omega
  have hlog : Nat.log 2 (n - 1) = Nat.log 2 ((n - 1) / 2) + 1 :=
    Nat.log_of_one_lt_of_le one_lt_two (by omega)
  rw [splitPoint, splitPoint, hhalf, hlog, pow_succ, mul_comm]

/-! ## Pairs on either side of a cut -/

theorem take_pairUp (node : δ → δ → δ) (k : ℕ) :
    ∀ l : List δ, (pairUp node l).take k = pairUp node (l.take (2 * k)) := by
  induction k with
  | zero => intro l; simp [pairUp]
  | succ k ih =>
    intro l
    have hk : 2 * (k + 1) = 2 * k + 1 + 1 := by omega
    rcases l with _ | ⟨a, _ | ⟨b, rest⟩⟩
    · simp [pairUp]
    · simp [pairUp, hk]
    · simp only [hk, pairUp, List.take_succ_cons, ih rest]

theorem drop_pairUp (node : δ → δ → δ) (k : ℕ) :
    ∀ l : List δ, (pairUp node l).drop k = pairUp node (l.drop (2 * k)) := by
  induction k with
  | zero => intro l; simp
  | succ k ih =>
    intro l
    have hk : 2 * (k + 1) = 2 * k + 1 + 1 := by omega
    rcases l with _ | ⟨a, _ | ⟨b, rest⟩⟩
    · simp [pairUp]
    · simp [pairUp, hk]
    · simp only [hk, pairUp, List.drop_succ_cons, ih rest]

/-! ## The recursive root -/

/-- The root of a list of leaves, by cutting it. -/
def splitRoot (leafHash : α → δ) (node : δ → δ → δ) (l : List α) : Option δ :=
  match l with
  | [] => none
  | [a] => some (leafHash a)
  | a :: b :: rest =>
    Option.map₂ node
      (splitRoot leafHash node ((a :: b :: rest).take (splitPoint (rest.length + 2))))
      (splitRoot leafHash node ((a :: b :: rest).drop (splitPoint (rest.length + 2))))
termination_by l.length
decreasing_by
  · have hlt := splitPoint_lt (Nat.le_add_left 2 rest.length)
    simp only [List.length_take, List.length_cons]
    omega
  · have hpos := splitPoint_pos (rest.length + 2)
    simp only [List.length_drop, List.length_cons]
    omega

variable {leafHash : α → δ} {node : δ → δ → δ}

theorem splitRoot_cut {l : List α} (h : 1 < l.length) :
    splitRoot leafHash node l =
      Option.map₂ node (splitRoot leafHash node (l.take (splitPoint l.length)))
        (splitRoot leafHash node (l.drop (splitPoint l.length))) := by
  rcases l with _ | ⟨a, _ | ⟨b, rest⟩⟩
  · exact absurd h (by simp)
  · exact absurd h (by simp)
  · rw [splitRoot]
    rfl

/-- Leaves may be hashed before the list is cut. -/
theorem splitRoot_map : ∀ (n : ℕ) (l : List α), l.length = n →
    splitRoot leafHash node l = splitRoot id node (l.map leafHash) := by
  intro n
  induction n using Nat.strong_induction_on with
  | _ n ih =>
    intro l hl
    rcases Nat.lt_or_ge 1 l.length with h | h
    · have hpos := splitPoint_pos l.length
      have hlt := splitPoint_lt h
      rw [splitRoot_cut h, splitRoot_cut (l := l.map leafHash) (by simpa using h),
        List.length_map, ← List.map_take, ← List.map_drop,
        ih _ (by rw [← hl, List.length_take]; omega) (l.take _) rfl,
        ih _ (by rw [← hl, List.length_drop]; omega) (l.drop _) rfl]
    · rcases l with _ | ⟨a, _ | ⟨b, rest⟩⟩
      · simp [splitRoot]
      · simp [splitRoot]
      · exact absurd h (by simp)

/-- **A level of pairs keeps the root.** -/
theorem splitRoot_pairUp : ∀ (n : ℕ) (l : List δ), l.length = n →
    splitRoot id node (pairUp node l) = splitRoot id node l := by
  intro n
  induction n using Nat.strong_induction_on with
  | _ n ih =>
    intro l hl
    rcases Nat.lt_or_ge 2 l.length with h | h
    · have hhalf := splitPoint_half h
      have hpos := splitPoint_pos l.length
      have hlt := splitPoint_lt (show 1 < l.length by omega)
      have hlen := length_pairUp node l
      rw [splitRoot_cut (l := l) (by omega), splitRoot_cut (l := pairUp node l) (by omega), hlen,
        take_pairUp, drop_pairUp, ← hhalf,
        ih _ (by rw [← hl, List.length_take]; omega) (l.take _) rfl,
        ih _ (by rw [← hl, List.length_drop]; omega) (l.drop _) rfl]
    · rcases l with _ | ⟨a, _ | ⟨b, _ | ⟨c, rest⟩⟩⟩
      · rfl
      · rfl
      · -- two leaves are cut into one and one
        have hcut : splitPoint [a, b].length = 1 := by simp [splitPoint]
        rw [splitRoot_cut (l := [a, b]) (by simp), hcut]
        simp [pairUp, splitRoot]
      · exact absurd h (by simp)

/-- **The loop ends with the recursive root**, after as many rounds as
there are nodes. -/
theorem reduce_eq_splitRoot : ∀ (rounds : ℕ) (l : List δ), l ≠ [] → l.length ≤ rounds + 1 →
    ∃ root, splitRoot id node l = some root ∧ reduce node rounds l = [root] := by
  intro rounds
  induction rounds with
  | zero =>
    intro l hne hl
    rcases l with _ | ⟨a, _ | ⟨b, rest⟩⟩
    · exact absurd rfl hne
    · exact ⟨a, by simp [splitRoot], rfl⟩
    · exact absurd hl (by simp)
  | succ rounds ih =>
    intro l hne hl
    have hpos := List.length_pos_iff.2 hne
    rw [reduce]
    split
    · have hlen := length_pairUp node l
      obtain ⟨root, hroot, hreduce⟩ :=
        ih (pairUp node l) (List.length_pos_iff.1 (by omega)) (by omega)
      exact ⟨root, by rw [← hroot, splitRoot_pairUp _ l rfl], hreduce⟩
    · obtain ⟨a, rfl⟩ := List.length_eq_one_iff.1 (show l.length = 1 by omega)
      exact ⟨a, by simp [splitRoot], rfl⟩

end Merkle
