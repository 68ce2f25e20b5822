import Mathlib
/-!
# Tables

A table with a primary key is Mathlib's `AList` at a constant value type,
so that no two rows share a key. `lookup`, `insert` and `erase` are
`AList`'s; this file adds what a database or an ordered dictionary does
besides: deleting and updating by a condition, dropping the oldest row,
the greatest key and a column's total. `Lists` says which rows a table
holds, whatever their order.
-/

/-- A table: at most one value for each key, the newest row first. -/
abbrev Table (κ ν : Type*) := AList fun _ : κ => ν

namespace Table

variable {κ ν : Type*} [DecidableEq κ] {t t' : Table κ ν} {k k' : κ} {v v' : ν}

/-! ## Rows -/

/-- The rows, newest first. -/
def rows (t : Table κ ν) : List (κ × ν) := t.entries.map fun e => (e.1, e.2)

theorem mem_rows : (k, v) ∈ t.rows ↔ t.lookup k = some v := by
  rw [← Option.mem_def, AList.mem_lookup_iff]
  constructor
  · intro h
    obtain ⟨⟨a, b⟩, hm, he⟩ := List.mem_map.1 h
    obtain ⟨rfl, rfl⟩ := Prod.mk.inj he
    exact hm
  · exact fun h => List.mem_map.2 ⟨_, h, rfl⟩

omit [DecidableEq κ] in
theorem rows_map_fst : t.rows.map Prod.fst = t.keys := by
  simp only [rows, AList.keys, List.keys, List.map_map]
  rfl

omit [DecidableEq κ] in
/-- No two rows share a key. -/
theorem rows_nodup_keys : (t.rows.map Prod.fst).Nodup := by
  rw [rows_map_fst]; exact t.keys_nodup

/-- Where a lookup finds a row, the key is one of the table's. -/
theorem mem_of_lookup (h : t.lookup k = some v) : k ∈ t := by
  rw [← AList.lookup_isSome, h]; rfl

/-- Tables that answer every lookup alike hold the same rows, up to order. -/
theorem rows_perm (h : ∀ k, t.lookup k = t'.lookup k) : t.rows.Perm t'.rows := by
  refine List.Perm.map _ (List.lookup_ext t.nodupKeys t'.nodupKeys fun k v => ?_)
  change t.lookup k = some v ↔ t'.lookup k = some v
  rw [h]

/-! ## Writing and removing one row -/

/-- `INSERT OR REPLACE`: the row becomes the newest. -/
def put (k : κ) (v : ν) (t : Table κ ν) : Table κ ν := AList.insert k v t

/-- `DELETE … WHERE key = k`. -/
def remove (k : κ) (t : Table κ ν) : Table κ ν := AList.erase k t

theorem lookup_put : (t.put k v).lookup k' = if k' = k then some v else t.lookup k' := by
  by_cases h : k' = k
  · subst h; rw [if_pos rfl]; exact AList.lookup_insert _
  · rw [if_neg h]; exact AList.lookup_insert_ne h

@[simp] theorem lookup_put_self : (t.put k v).lookup k = some v := AList.lookup_insert _

theorem lookup_put_ne (h : k' ≠ k) : (t.put k v).lookup k' = t.lookup k' :=
  AList.lookup_insert_ne h

theorem lookup_remove : (t.remove k).lookup k' = if k' = k then none else t.lookup k' := by
  by_cases h : k' = k
  · subst h; rw [if_pos rfl]; exact AList.lookup_erase _ _
  · rw [if_neg h]; exact AList.lookup_erase_ne h

@[simp] theorem lookup_remove_self : (t.remove k).lookup k = none := AList.lookup_erase _ _

theorem lookup_remove_ne (h : k' ≠ k) : (t.remove k).lookup k' = t.lookup k' :=
  AList.lookup_erase_ne h

theorem entries_put : (t.put k v).entries = ⟨k, v⟩ :: List.kerase k t.entries :=
  AList.entries_insert

theorem entries_put_of_lookup_none (h : t.lookup k = none) :
    (t.put k v).entries = ⟨k, v⟩ :: t.entries :=
  AList.entries_insert_of_notMem (AList.lookup_eq_none.1 h)

theorem rows_put_of_lookup_none (h : t.lookup k = none) :
    (t.put k v).rows = (k, v) :: t.rows := by
  simp only [rows, entries_put_of_lookup_none h, List.map_cons]

/-- Removing a row that was just added gives the table back. -/
theorem remove_put_of_lookup_none (h : t.lookup k = none) : (t.put k v).remove k = t := by
  apply AList.ext
  change List.kerase k (t.put k v).entries = t.entries
  rw [entries_put_of_lookup_none h]
  exact List.kerase_cons_eq (β := fun _ => ν) (s := ⟨k, v⟩) rfl

/-- Removing after writing is removing. -/
theorem remove_put_self : (t.put k v).remove k = t.remove k := by
  apply AList.ext
  change List.kerase k (t.put k v).entries = List.kerase k t.entries
  rw [entries_put]
  exact List.kerase_cons_eq (β := fun _ => ν) (s := ⟨k, v⟩) rfl

/-! ## Deleting and updating by a condition -/

/-- `DELETE … WHERE p`. -/
def deleteWhere (p : κ → ν → Bool) (t : Table κ ν) : Table κ ν where
  entries := t.entries.filter fun e => !p e.1 e.2
  nodupKeys := t.nodupKeys.sublist List.filter_sublist

theorem lookup_deleteWhere {p : κ → ν → Bool} :
    (t.deleteWhere p).lookup k = (t.lookup k).filter fun v => !p k v := by
  refine Option.ext fun v => ?_
  rw [Option.filter_eq_some_iff, ← Option.mem_def, ← Option.mem_def, AList.mem_lookup_iff,
    AList.mem_lookup_iff]
  exact List.mem_filter

/-- `UPDATE … SET f WHERE key = k`. -/
def update (k : κ) (f : ν → ν) (t : Table κ ν) : Table κ ν :=
  match t.lookup k with
  | none => t
  | some v => t.put k (f v)

theorem lookup_update {f : ν → ν} :
    (t.update k f).lookup k' = if k' = k then (t.lookup k).map f else t.lookup k' := by
  unfold update
  cases h : t.lookup k with
  | none =>
    by_cases hk : k' = k
    · rw [if_pos hk, hk, h]; rfl
    · rw [if_neg hk]
  | some v => rw [lookup_put]; rfl

theorem lookup_update_self {f : ν → ν} : (t.update k f).lookup k = (t.lookup k).map f := by
  rw [lookup_update, if_pos rfl]

theorem lookup_update_ne {f : ν → ν} (h : k' ≠ k) :
    (t.update k f).lookup k' = t.lookup k' := by
  rw [lookup_update, if_neg h]

/-! ## Oldest rows first out -/

/-- The key of the row added longest ago. -/
def oldest (t : Table κ ν) : Option κ := t.entries.getLast?.map fun e => e.1

omit [DecidableEq κ] in
theorem length_keys : t.keys.length = t.entries.length := List.length_map _

theorem length_remove (h : t.lookup k = some v) :
    (t.remove k).entries.length + 1 = t.entries.length := by
  have hk : k ∈ t.keys := mem_of_lookup h
  have he : (t.remove k).keys = t.keys.erase k := AList.keys_erase k t
  have hpos := List.length_pos_of_mem hk
  rw [← length_keys, ← length_keys, he, List.length_erase_of_mem hk]
  omega

omit [DecidableEq κ] in
theorem oldest_eq_none : t.oldest = none ↔ t.entries = [] := by
  rw [oldest, Option.map_eq_none_iff, List.getLast?_eq_none_iff]

theorem lookup_oldest (h : t.oldest = some k) : ∃ v, t.lookup k = some v := by
  obtain ⟨⟨k', v⟩, he, rfl⟩ := Option.map_eq_some_iff.1 h
  exact ⟨v, AList.mem_lookup_iff.2 (List.mem_of_getLast? he)⟩

/-- The table without the row added longest ago. -/
def dropOldest (t : Table κ ν) : Table κ ν where
  entries := t.entries.dropLast
  nodupKeys := t.nodupKeys.sublist (List.dropLast_sublist _)

theorem lookup_of_dropOldest (h : t.dropOldest.lookup k = some v) : t.lookup k = some v := by
  rw [← Option.mem_def, AList.mem_lookup_iff] at h ⊢
  exact List.dropLast_subset _ h

/-! ## The greatest key -/

/-- `SELECT MAX(key)` (`0` of an empty table). -/
def maxKey (t : Table ℕ ν) : ℕ := t.keys.foldr max 0

theorem le_foldr_max {l : List ℕ} {n : ℕ} (h : n ∈ l) : n ≤ l.foldr max 0 := by
  induction l with
  | nil => cases h
  | cons a l ih =>
    rcases List.mem_cons.1 h with rfl | h
    · exact le_max_left _ _
    · exact le_trans (ih h) (le_max_right _ _)

theorem foldr_max_le {l : List ℕ} {n : ℕ} (h : ∀ a ∈ l, a ≤ n) : l.foldr max 0 ≤ n := by
  induction l with
  | nil => exact Nat.zero_le _
  | cons a l ih =>
    exact max_le (h a List.mem_cons_self) (ih fun b hb => h b (List.mem_cons_of_mem _ hb))

theorem le_maxKey {t : Table ℕ ν} {k : ℕ} (h : (t.lookup k).isSome) : k ≤ t.maxKey :=
  le_foldr_max (AList.lookup_isSome.1 h)

/-- The greatest key of a table that has one is a key. -/
theorem isSome_lookup_maxKey {t : Table ℕ ν} {k : ℕ} (h : (t.lookup k).isSome) :
    (t.lookup t.maxKey).isSome := by
  have hmem : ∀ l : List ℕ, l ≠ [] → l.foldr max 0 ∈ l := by
    intro l hl
    induction l with
    | nil => exact absurd rfl hl
    | cons a l ih =>
      rw [List.foldr_cons, List.mem_cons]
      rcases max_choice a (l.foldr max 0) with hmax | hmax
      · exact Or.inl hmax
      · by_cases hnil : l = []
        · subst hnil
          exact Or.inl (Nat.max_zero a)
        · refine Or.inr ?_
          rw [hmax]
          exact ih hnil
  exact AList.lookup_isSome.2 (hmem _ (List.ne_nil_of_mem (AList.lookup_isSome.1 h)))

/-- A table whose keys are `0 … n` has greatest key `n`. -/
theorem maxKey_eq {t : Table ℕ ν} {n : ℕ} (h : ∀ i, (t.lookup i).isSome ↔ i ≤ n) :
    t.maxKey = n := by
  refine le_antisymm (foldr_max_le fun a ha => ?_) (le_foldr_max ?_)
  · exact (h a).1 (AList.lookup_isSome.2 ha)
  · exact AList.lookup_isSome.1 ((h n).2 le_rfl)

/-! ## What a table lists -/

/-- The table holds exactly the given rows, in whatever order. -/
def Lists (t : Table κ ν) (rs : List (κ × ν)) : Prop :=
  ∀ k v, t.lookup k = some v ↔ (k, v) ∈ rs

theorem lists_rows (t : Table κ ν) : t.Lists t.rows := fun _ _ => mem_rows.symm

/-- Two tables that list the same rows answer every lookup alike. -/
theorem Lists.lookup_eq {rs : List (κ × ν)} (h : t.Lists rs) (h' : t'.Lists rs) (k : κ) :
    t.lookup k = t'.lookup k :=
  Option.ext fun v => (h k v).trans (h' k v).symm

theorem Lists.congr {rs : List (κ × ν)} (h : t.Lists rs) (he : ∀ k, t'.lookup k = t.lookup k) :
    t'.Lists rs := fun k v => by rw [he]; exact h k v

/-- The order and the repetition of the rows do not matter. -/
theorem Lists.of_mem {rs rs' : List (κ × ν)} (h : t.Lists rs) (hm : ∀ r, r ∈ rs ↔ r ∈ rs') :
    t.Lists rs' := fun k v => (h k v).trans (hm (k, v))

/-- A row added under a new key is listed first. -/
theorem Lists.put {rs : List (κ × ν)} (h : t.Lists rs) (hk : t.lookup k = none) :
    Lists (t.put k v) ((k, v) :: rs) := by
  intro k' v'
  rw [lookup_put, List.mem_cons, Prod.mk.injEq]
  by_cases he : k' = k
  · subst he
    rw [if_pos rfl, Option.some.injEq]
    constructor
    · intro he; exact Or.inl ⟨rfl, he.symm⟩
    · rintro (⟨-, rfl⟩ | hm)
      · rfl
      · rw [← h, hk] at hm; cases hm
  · rw [if_neg he, h k' v']
    exact ⟨Or.inr, fun h => h.resolve_left fun hc => he hc.1⟩

/-- Erasing the first listed row leaves the others. -/
theorem Lists.remove {rs : List (κ × ν)} (h : t.Lists ((k, v) :: rs))
    (hk : ∀ v', (k, v') ∉ rs) : Lists (t.remove k) rs := by
  intro k' v'
  rw [lookup_remove]
  by_cases he : k' = k
  · subst he
    rw [if_pos rfl]
    exact ⟨fun h => (nomatch h), fun hm => absurd hm (hk v')⟩
  · rw [if_neg he, h k' v', List.mem_cons, Prod.mk.injEq]
    exact ⟨fun h => h.resolve_left fun hc => he hc.1, Or.inr⟩

/-- Erasing a key that no row has changes nothing. -/
theorem Lists.remove_absent {rs : List (κ × ν)} (h : t.Lists rs) (hk : ∀ v', (k, v') ∉ rs) :
    Lists (t.remove k) rs := by
  intro k' v'
  rw [lookup_remove]
  by_cases he : k' = k
  · subst he
    rw [if_pos rfl]
    exact ⟨fun h => (nomatch h), fun hm => absurd hm (hk v')⟩
  · rw [if_neg he]
    exact h k' v'

/-- Deleting by a condition keeps the listed rows that fail it. -/
theorem Lists.deleteWhere {rs : List (κ × ν)} (h : t.Lists rs) (p : κ → ν → Bool) :
    Lists (t.deleteWhere p) (rs.filter fun r => !p r.1 r.2) := by
  intro k v
  rw [lookup_deleteWhere, Option.filter_eq_some_iff, h k v, List.mem_filter]

/-! ## Totals -/

/-- The sum of a column. -/
def total (f : κ → ν → ℕ) (t : Table κ ν) : ℕ := (t.rows.map fun r => f r.1 r.2).sum

omit [DecidableEq κ] in
theorem total_of_entries_nil {f : κ → ν → ℕ} (h : t.entries = []) : t.total f = 0 := by
  simp only [total, rows, h, List.map_nil, List.sum_nil]

theorem total_put_of_lookup_none {f : κ → ν → ℕ} (h : t.lookup k = none) :
    (t.put k v).total f = f k v + t.total f := by
  simp only [total, rows_put_of_lookup_none h, List.map_cons, List.sum_cons]

theorem entries_sum_kerase (f : κ → ν → ℕ) :
    ∀ {l : List (Sigma fun _ : κ => ν)}, List.dlookup k l = some v →
      (l.map fun e => f e.1 e.2).sum =
        f k v + ((List.kerase k l).map fun e => f e.1 e.2).sum := by
  intro l
  induction l with
  | nil => intro h; cases h
  | cons e l ih =>
    intro h
    by_cases hk : k = e.1
    · obtain ⟨a, b⟩ := e
      subst hk
      rw [List.dlookup_cons_eq, Option.some.injEq] at h
      subst h
      rw [List.kerase_cons_eq (s := ⟨_, _⟩) rfl, List.map_cons, List.sum_cons]
    · rw [List.dlookup_cons_ne _ _ hk] at h
      rw [List.kerase_cons_ne hk, List.map_cons, List.sum_cons, List.map_cons, List.sum_cons, ih h]
      omega

/-- A row's share of a total. -/
theorem total_remove {f : κ → ν → ℕ} (h : t.lookup k = some v) :
    t.total f = f k v + (t.remove k).total f := by
  simp only [total, rows, List.map_map]
  exact entries_sum_kerase f h

/-- Overwriting a row changes the total by the difference. -/
theorem total_put {f : κ → ν → ℕ} (h : t.lookup k = some v) (v' : ν) :
    (t.put k v').total f + f k v = t.total f + f k v' := by
  rw [total_remove h, total_remove (t := t.put k v') lookup_put_self, remove_put_self]
  omega

/-- Every entry of a column is at most its total. -/
theorem le_total {f : κ → ν → ℕ} (h : t.lookup k = some v) : f k v ≤ t.total f := by
  rw [total_remove h]; exact Nat.le_add_right _ _

end Table
