import TalCash.Node.Accept
/-!
# What each write does to the rows

The writes of the chain manager, as far as the rows of `headers`, the
active chain and the count of sealed chunks go: which rows are there
afterwards and what of them changed. Nothing is assumed of the tables.
-/

namespace TalCash

variable [Primitives] {params : NetworkParams} {db db' : Db} {id : Digest} {b : Block}

namespace Db

omit [Primitives] in
theorem setLocation_ok {l : ChunkLocation} (h : db.setLocation id l = .ok db') :
    db' = { db with
      headers := Table.update id (fun r => { r with location := some l }) db.headers } := by
  unfold Db.setLocation at h
  simp only [bind_eq_ok] at h
  obtain ⟨_, -, _, -, _, -, _, -, h⟩ := h
  exact (Except.ok.inj h).symm

omit [Primitives] in
theorem setLocations_ok : ∀ {placed : List (Digest × ChunkLocation)} {db db' : Db},
    Store.setLocations placed db = .ok db' →
      db' = { db with headers := placeRows placed db.headers }
  | [], _, _, h => (Except.ok.inj h).symm
  | (id, l) :: placed, db, db', h => by
    obtain ⟨db₁, h₁, h⟩ := bind_eq_ok.1 h
    rw [setLocations_ok h, setLocation_ok h₁]
    rfl

omit [Primitives] in
/-- A row after locations were set is one from before, at its place or at a
new one. -/
theorem lookup_placeRows : ∀ {placed : List (Digest × ChunkLocation)} {t : Table Digest HeaderRow}
    {r' : HeaderRow}, (placeRows placed t).lookup id = some r' → ∃ r, t.lookup id = some r ∧
      (r' = r ∨ ∃ l, (id, l) ∈ placed ∧ r' = { r with location := some l })
  | [], _, r', h => ⟨r', h, Or.inl rfl⟩
  | (x, l) :: placed, t, r', h => by
    have h' : (placeRows placed _).lookup id = some r' := h
    obtain ⟨r₁, hr₁, hr'⟩ := lookup_placeRows h'
    rw [Table.lookup_update] at hr₁
    split at hr₁
    · rename_i hx
      subst hx
      obtain ⟨r, hr, rfl⟩ := Option.map_eq_some_iff.1 hr₁
      refine ⟨r, hr, Or.inr ?_⟩
      rcases hr' with rfl | ⟨l', hl', rfl⟩
      · exact ⟨l, List.mem_cons_self, rfl⟩
      · exact ⟨l', List.mem_cons_of_mem _ hl', rfl⟩
    · refine ⟨r₁, hr₁, hr'.imp_right ?_⟩
      rintro ⟨l', hl', rfl⟩
      exact ⟨l', List.mem_cons_of_mem _ hl', rfl⟩

omit [Primitives] in
theorem isSome_placeRows : ∀ {placed : List (Digest × ChunkLocation)} {t : Table Digest HeaderRow},
    ((placeRows placed t).lookup id).isSome = (t.lookup id).isSome
  | [], _ => rfl
  | (x, l) :: placed, t => by
    show ((placeRows placed _).lookup id).isSome = _
    rw [isSome_placeRows, Table.lookup_update]
    split
    · rename_i hx
      rw [hx, Option.isSome_map]
    · rfl

omit [Primitives] in
/-- The transaction of `seal_chunk`. -/
theorem sealDb_ok {index : ℕ} {placed : List (Digest × ChunkLocation)} {lost : List (ℕ × Digest)}
    (h : Store.sealDb index placed lost db = .ok db') :
    db' = { db with
      headers := Table.deleteWhere (fun id _ => lost.any fun l => l.2 = id)
        (placeRows placed db.headers)
      sealedChunks := index + 1 } := by
  obtain ⟨db₁, h₁, h⟩ := bind_eq_ok.1 h
  rw [← Except.ok.inj h, setLocations_ok h₁]

omit [Primitives] in
/-- A row that sealing leaves is one from before that is not lost, at its
place or at its new one. -/
theorem lookup_sealDb {index : ℕ} {placed : List (Digest × ChunkLocation)} {lost : List (ℕ × Digest)}
    (h : Store.sealDb index placed lost db = .ok db') {r' : HeaderRow}
    (hr' : db'.headers.lookup id = some r') :
    (∀ height, (height, id) ∉ lost) ∧ ∃ r, db.headers.lookup id = some r ∧
      (r' = r ∨ ∃ l, (id, l) ∈ placed ∧ r' = { r with location := some l }) := by
  rw [sealDb_ok h, Table.lookup_deleteWhere, Option.filter_eq_some_iff] at hr'
  obtain ⟨hr', hlost⟩ := hr'
  refine ⟨fun height hm => ?_, lookup_placeRows hr'⟩
  rw [Bool.not_eq_true', List.any_eq_false] at hlost
  exact hlost _ hm (decide_eq_true rfl)

omit [Primitives] in
/-- A row that is not lost is still there after sealing. -/
theorem isSome_sealDb {index : ℕ} {placed : List (Digest × ChunkLocation)} {lost : List (ℕ × Digest)}
    (h : Store.sealDb index placed lost db = .ok db') (hr : (db.headers.lookup id).isSome)
    (hlost : ∀ height, (height, id) ∉ lost) : (db'.headers.lookup id).isSome := by
  rw [sealDb_ok h, Table.lookup_deleteWhere]
  have hplaced : ((placeRows placed db.headers).lookup id).isSome = (db.headers.lookup id).isSome :=
    isSome_placeRows
  rw [← hplaced] at hr
  obtain ⟨r', hr'⟩ := Option.isSome_iff_exists.1 hr
  rw [hr', Option.filter_some]
  have hany : (lost.any fun l => l.2 = id) = false := by
    rw [List.any_eq_false]
    intro l hl he
    rw [← of_decide_eq_true he] at hlost
    exact hlost l.1 hl
  rw [hany]
  rfl

/-- What disconnecting a block does to the rows and to the active chain. -/
theorem disconnectBlock_ok {height : ℕ} (h : db.disconnectBlock height b = .ok db') :
    db'.headers = db.headers ∧ db'.sealedChunks = db.sealedChunks ∧
      db'.mainChain = Table.remove height db.mainChain := by
  unfold Db.disconnectBlock takeUndo at h
  obtain ⟨x, hx, h⟩ := bind_eq_ok.1 h
  split at hx
  · cases hx
  obtain ⟨previous, -, hx⟩ := bind_eq_ok.1 hx
  obtain ⟨db₂, hdb₂, h⟩ := bind_eq_ok.1 h
  rw [Db.writeAccounts] at hdb₂
  obtain ⟨accounts, -, hdb₂⟩ := bind_eq_ok.1 hdb₂
  rw [← Except.ok.inj h, ← Except.ok.inj hdb₂, ← Except.ok.inj hx]
  exact ⟨rfl, rfl, rfl⟩

/-- What connecting a block does to the rows and to the active chain. -/
theorem connectBlock_touched {ctx : BlockContext} (h : db.connectBlock params b ctx = .ok db') :
    Touched b db db' ∧ db'.mainChain = Table.put b.height b.blockId db.mainChain ∧
      db.mainChain.lookup b.height = none ∧ ∀ height, db.mainChain.lookup height ≠ some b.blockId := by
  unfold Db.connectBlock at h
  simp only [bind_eq_ok, Db.writeAccounts_ok_iff, Db.putUndo_ok_iff, Db.setMain_ok_iff] at h
  obtain ⟨changes, -, _, ⟨-, rfl⟩, _, ⟨-, -, rfl⟩, _, ⟨-, hid, hheight, rfl⟩, db₄, hix, h⟩ := h
  obtain ⟨hother, -, -⟩ := Db.indexFrom_ok hix (Table.lists_rows _) (Table.lists_rows _)
  unfold Db.IndexesOnly at hother
  rw [hother] at h
  split at h
  · simp only [bind_eq_ok, Db.putSnapshot_ok_iff] at h
    obtain ⟨root, -, -, -, rfl⟩ := h
    exact ⟨⟨rfl, rfl⟩, rfl, hheight, hid⟩
  · rw [← Except.ok.inj h]
    exact ⟨⟨rfl, rfl⟩, rfl, hheight, hid⟩

/-- A block that is connected obeys the header rules of its context. -/
theorem connectBlock_checked {ctx : BlockContext} (h : db.connectBlock params b ctx = .ok db') :
    CheckedHeader b.header ctx := by
  unfold Db.connectBlock at h
  obtain ⟨changes, hchanges, -⟩ := bind_eq_ok.1 h
  exact (applyBlock_ok_iff.1 hchanges).header

end Db

end TalCash
