import TalCash.Common.Table
/-!
# Tables of tables

An index with two keys is a table whose values are tables, none of them
empty: writing makes an inner table where there is none, and erasing the
last entry of one takes it away. What is found under two keys after a
write or an erasure is what was found before, but at those keys.
-/

namespace Nested

variable {κ ι ν : Type*} [DecidableEq κ] [DecidableEq ι] {t : Table κ (Table ι ν)} {k k' : κ}
variable {i i' : ι} {v : ν}

/-- The inner table of a key, empty where there is none. -/
def inner (t : Table κ (Table ι ν)) (k : κ) : Table ι ν := (t.lookup k).getD ∅

/-- What is found under two keys. -/
def find (t : Table κ (Table ι ν)) (k : κ) (i : ι) : Option ν := (inner t k).lookup i

/-- A table that is not empty has a row at its greatest key. -/
theorem lookup_maxKey {ν : Type*} {t : Table ℕ ν} (h : t.entries ≠ []) :
    ∃ v, t.lookup t.maxKey = some v := by
  obtain ⟨⟨n, v⟩, hmem⟩ := List.exists_mem_of_ne_nil _ h
  have hn : t.lookup n = some v := AList.mem_lookup_iff.2 hmem
  exact Option.isSome_iff_exists.1 (Table.isSome_lookup_maxKey (by rw [hn]; rfl))

/-- Writing one entry. -/
def insert (k : κ) (i : ι) (v : ν) (t : Table κ (Table ι ν)) : Table κ (Table ι ν) :=
  Table.put k (Table.put i v (inner t k)) t

/-- Erasing one entry. -/
def erase (k : κ) (i : ι) (t : Table κ (Table ι ν)) : Table κ (Table ι ν) :=
  let rest := Table.remove i (inner t k)
  if rest.entries.isEmpty then Table.remove k t else Table.put k rest t

/-- No inner table is empty. -/
def Tight (t : Table κ (Table ι ν)) : Prop :=
  ∀ k pending, t.lookup k = some pending → pending.entries ≠ []

omit [DecidableEq ι] in
theorem inner_of_lookup {pending : Table ι ν} (h : t.lookup k = some pending) :
    inner t k = pending := by rw [inner, h, Option.getD_some]

/-- Where something is found there is an inner table. -/
theorem lookup_inner (h : (find t k i).isSome) : t.lookup k = some (inner t k) := by
  unfold find inner at h
  unfold inner
  cases hk : t.lookup k with
  | none =>
    rw [hk] at h
    cases h
  | some pending => rfl

theorem inner_insert : inner (insert k i v t) k' =
    if k' = k then Table.put i v (inner t k) else inner t k' := by
  rw [insert, inner, Table.lookup_put]
  split
  · rfl
  · rfl

theorem inner_erase : inner (erase k i t) k' =
    if k' = k then Table.remove i (inner t k) else inner t k' := by
  have hempty : (Table.remove i (inner t k)).entries.isEmpty →
      (∅ : Table ι ν) = Table.remove i (inner t k) := fun h =>
    AList.ext (List.isEmpty_iff.1 h).symm
  unfold erase
  by_cases hk : k' = k
  · subst hk
    rw [if_pos rfl]
    dsimp only
    split
    · rename_i h
      rw [inner, Table.lookup_remove_self]
      exact hempty h
    · rw [inner, Table.lookup_put_self]
      rfl
  · rw [if_neg hk]
    dsimp only
    split
    · rw [inner, Table.lookup_remove_ne hk, inner]
    · rw [inner, Table.lookup_put_ne hk, inner]

theorem find_insert : find (insert k i v t) k' i' =
    if k' = k ∧ i' = i then some v else find t k' i' := by
  rw [find, inner_insert]
  by_cases hk : k' = k
  · subst hk
    rw [if_pos rfl, Table.lookup_put, find]
    simp only [true_and]
  · rw [if_neg hk, if_neg fun h => hk h.1, find]

theorem find_erase : find (erase k i t) k' i' =
    if k' = k ∧ i' = i then none else find t k' i' := by
  rw [find, inner_erase]
  by_cases hk : k' = k
  · subst hk
    rw [if_pos rfl, Table.lookup_remove, find]
    simp only [true_and]
  · rw [if_neg hk, if_neg fun h => hk h.1, find]

theorem Tight.insert (h : Tight t) : Tight (insert k i v t) := by
  intro k' pending hk'
  rw [Nested.insert, Table.lookup_put] at hk'
  split at hk'
  · rw [← Option.some.inj hk', Table.entries_put]
    exact List.cons_ne_nil _ _
  · exact h k' pending hk'

theorem Tight.erase (h : Tight t) : Tight (erase k i t) := by
  intro k' pending hk'
  unfold Nested.erase at hk'
  dsimp only at hk'
  split at hk'
  · rw [Table.lookup_remove] at hk'
    split at hk'
    · cases hk'
    · exact h k' pending hk'
  · rename_i hne
    rw [Table.lookup_put] at hk'
    split at hk'
    · rw [← Option.some.inj hk']
      exact fun he => hne (List.isEmpty_iff.2 he)
    · exact h k' pending hk'

/-! ## Several keys at once -/

/-- Writing an entry under several keys. -/
theorem find_foldl_insert : ∀ {l : List κ} {t : Table κ (Table ι ν)},
    find (l.foldl (fun t k => insert k i v t) t) k' i' =
      if k' ∈ l ∧ i' = i then some v else find t k' i'
  | [], t => by simp only [List.foldl_nil, List.not_mem_nil, false_and, if_false]
  | k :: l, t => by
    simp only [List.foldl_cons, find_foldl_insert (l := l), find_insert, List.mem_cons]
    by_cases hi : i' = i <;> by_cases hk : k' = k <;> by_cases hl : k' ∈ l <;> simp [hi, hk, hl]

/-- Erasing an entry under several keys. -/
theorem find_foldl_erase : ∀ {l : List κ} {t : Table κ (Table ι ν)},
    find (l.foldl (fun t k => erase k i t) t) k' i' =
      if k' ∈ l ∧ i' = i then none else find t k' i'
  | [], t => by simp only [List.foldl_nil, List.not_mem_nil, false_and, if_false]
  | k :: l, t => by
    simp only [List.foldl_cons, find_foldl_erase (l := l), find_erase, List.mem_cons]
    by_cases hi : i' = i <;> by_cases hk : k' = k <;> by_cases hl : k' ∈ l <;> simp [hi, hk, hl]

end Nested
