import TalCash.Node.Switch
import TalCash.Node.ChunkLayout
import TalCash.Node.Coherence
/-!
# Sealing a chunk

Sealing writes the blocks of the next chunk to one file, points their
rows at it, and deletes their recent files and the rows and files of the
branches that lost. The active chain is read back afterwards as it was
before, provided no segment of an earlier file of that index is cached.
-/

namespace TalCash

open BlockFiles Ledger

variable [Primitives] {params : NetworkParams} {B : Set Block} {lim : ℕ} {s s' : Store}
variable {L L' : Ledger} {b block : Block} {r : HeaderRow} {id : Digest}

/-! ## Reading what is sealed -/

/-- The id of the block of a height, and the bytes it is stored as. -/
def MainBytes (L : Ledger) (height : ℕ) (p : Digest × Bytes) : Prop :=
  ∃ b ∈ L.chain, b.height = height ∧ b.blockId = p.1 ∧ blockFromBytes p.2 = .ok b ∧
    1 ≤ p.2.length ∧ p.2.length ≤ 1000000

theorem Good.mainBytes_spec : ∀ (count : ℕ) {s : Store} (first : ℕ), Good params B lim s L →
    first + count ≤ L.chain.length →
      Exec.wp (Store.mainBytes first count)
        (fun ps s' => s.Reading s' ∧
          List.Forall₂ (MainBytes L) (List.range' first count) ps)
        (fun _ _ => False) s
  | 0, s, first, h, _ => Exec.wp_pure.2 ⟨.refl s, .nil⟩
  | count + 1, s, first, h, hle => by
    obtain ⟨b, hb, rfl⟩ := h.valid.linked.getElem?_of_height (by omega : first < L.chain.length)
    have hmem := List.mem_of_getElem? hb
    obtain ⟨-, r, hr, hbody⟩ := h.chain b hmem
    obtain ⟨-, data, hraw, hread, hsize⟩ := hbody
    simp only [Store.mainBytes, Exec.wp_bind, Exec.wp_get, h.mainId_of_mem hmem]
    refine (Store.blockBytes_spec h.files hr (h.keyed _ _ hr) (fun l hl => h.located _ _ l hr hl)
      hraw).mono ?_ fun _ _ h => h
    rintro x s₁ ⟨rfl, h₁⟩
    rw [Exec.wp_bind]
    refine ((h.reading h₁).mainBytes_spec count (b.height + 1) (by omega)).mono ?_ fun _ _ h => h
    rintro ps s₂ ⟨h₂, hps⟩
    refine Exec.wp_pure.2 ⟨h₁.trans h₂, ?_⟩
    rw [List.range'_succ]
    exact .cons ⟨b, hmem, rfl, rfl, hread, hsize⟩ hps

/-! ## Deleting recent files -/

/-- What deleting recent files leaves of the store. -/
structure Deleted (names : List (ℕ × Digest)) (s s' : Store) : Prop where
  db : s'.db = s.db
  recent : s'.files.RecentCoherent
  segments : s'.files.segments = s.files.segments
  chunk : ∀ index, s'.files.disk.lookup (.chunk index) = s.files.disk.lookup (.chunk index)
  kept : ∀ height id, (height, id) ∉ names →
    s'.files.disk.lookup (.recent height id) = s.files.disk.lookup (.recent height id)

omit [Primitives] in
theorem deleteRecents_spec : ∀ (names : List (ℕ × Digest)) {s : Store}, s.files.RecentCoherent →
    Exec.wp (names.forM fun r => Store.onFiles (BlockFiles.deleteRecent r.1 r.2))
      (fun _ s' => Deleted names s s') (fun _ _ => False) s
  | [], s, h => Exec.wp_pure.2 ⟨rfl, h, rfl, fun _ => rfl, fun _ _ _ => rfl⟩
  | r :: names, s, h => by
    change Exec.wp (Store.onFiles (BlockFiles.deleteRecent r.1 r.2) >>= fun _ =>
      names.forM fun r => Store.onFiles (BlockFiles.deleteRecent r.1 r.2)) _ _ s
    rw [Exec.wp_bind, Store.onFiles, Exec.wp_zoom]
    refine (h.deleteRecent r.1 r.2).mono ?_ fun _ _ h => h
    rintro _ f' ⟨hr, hs, hd⟩
    refine (deleteRecents_spec names hr).mono ?_ fun _ _ h => h
    rintro _ s₂ ⟨hdb, hr₂, hs₂, hc₂, hk₂⟩
    refine ⟨hdb, hr₂, hs₂.trans hs, fun index => ?_, fun height id hn => ?_⟩
    · rw [hc₂, hd]
      exact Table.lookup_remove_ne (by simp)
    · rw [List.mem_cons, not_or] at hn
      rw [hk₂ height id hn.2, hd]
      refine Table.lookup_remove_ne fun he => hn.1 ?_
      cases he
      rfl

/-! ## Setting locations -/

omit [Primitives] in
theorem setLocation_of {db : Db} {l : ChunkLocation} (hc : l.chunk < 2 ^ 63)
    (ho : l.segmentOffset < 2 ^ 63) (hn : l.segmentLength < 2 ^ 63) (hp : l.position < 2 ^ 63) :
    db.setLocation id l = .ok { db with
      headers := Table.update id (fun r => { r with location := some l }) db.headers } := by
  unfold Db.setLocation
  simp only [bind_eq_ok, sqlInteger_ok_iff]
  exact ⟨(), hc, (), ho, (), hn, (), hp, rfl⟩

theorem Holds.setLocation {data bytes : Bytes} {index : ℕ} {l : ChunkLocation} {db : Db}
    (h : Holds data index bytes l) (hi : index < 256 ^ 4) : db.setLocation id l = .ok { db with
      headers := Table.update id (fun r => { r with location := some l }) db.headers } := by
  have h1 := h.length_lt
  have h2 := h.position_lt
  exact setLocation_of (by rw [h.chunk]; omega) h.offset_lt (by omega) (by omega)

/-- The headers after locations were set. -/
def placeRows (placed : List (Digest × ChunkLocation)) (headers : Table Digest HeaderRow) :
    Table Digest HeaderRow :=
  placed.foldl (fun t p => Table.update p.1 (fun r => { r with location := some p.2 }) t) headers

omit [Primitives] in
theorem lookup_placeRows_of_notMem : ∀ {placed : List (Digest × ChunkLocation)}
    {t : Table Digest HeaderRow}, id ∉ placed.map Prod.fst →
      (placeRows placed t).lookup id = t.lookup id
  | [], _, _ => rfl
  | p :: placed, t, h => by
    rw [List.map_cons, List.mem_cons, not_or] at h
    change (placeRows placed _).lookup id = _
    rw [lookup_placeRows_of_notMem h.2, Table.lookup_update_ne h.1]

omit [Primitives] in
theorem lookup_placeRows_of_mem {l : ChunkLocation} : ∀ {placed : List (Digest × ChunkLocation)}
    {t : Table Digest HeaderRow}, (placed.map Prod.fst).Nodup → (id, l) ∈ placed →
      (placeRows placed t).lookup id =
        (t.lookup id).map fun r => { r with location := some l }
  | p :: placed, t, hn, hm => by
    rw [List.map_cons, List.nodup_cons] at hn
    change (placeRows placed _).lookup id = _
    rcases List.mem_cons.1 hm with rfl | hm
    · rw [lookup_placeRows_of_notMem hn.1, Table.lookup_update_self]
    · have hne : id ≠ p.1 := fun he => hn.1 (he ▸ List.mem_map_of_mem hm)
      rw [lookup_placeRows_of_mem hn.2 hm, Table.lookup_update_ne hne]

theorem setLocations_of {data : Bytes} {index : ℕ} (hi : index < 256 ^ 4) :
    ∀ {placed : List (Digest × ChunkLocation)} {db : Db},
      (∀ p ∈ placed, ∃ bytes, Holds data index bytes p.2) →
        Store.setLocations placed db = .ok { db with headers := placeRows placed db.headers }
  | [], _, _ => rfl
  | p :: placed, db, h => by
    obtain ⟨hp, hrest⟩ := List.forall_mem_cons.1 h
    obtain ⟨bytes, hb⟩ := hp
    rw [Store.setLocations, hb.setLocation hi]
    exact setLocations_of hi hrest

/-! ## Bodies after files changed -/

theorem Body.of_lookup {f f' : BlockFiles} (h : Body f r b)
    (hn : r.location = none →
      f'.disk.lookup (.recent r.height r.blockId) = f.disk.lookup (.recent r.height r.blockId))
    (hs : ∀ l, r.location = some l →
      f'.disk.lookup (.chunk l.chunk) = f.disk.lookup (.chunk l.chunk)) : Body f' r b := by
  obtain ⟨hh, data, hraw, hd⟩ := h
  refine ⟨hh, data, ?_, hd⟩
  unfold RawAt at hraw ⊢
  cases hl : r.location with
  | none =>
    rw [hl] at hraw
    dsimp only at hraw ⊢
    rw [hn hl]
    exact hraw
  | some l =>
    rw [hl] at hraw
    dsimp only at hraw ⊢
    unfold diskSegment at hraw ⊢
    rw [hs l hl]
    exact hraw

/-- A row pointed at the bytes of a block that a chunk file holds. -/
theorem Holds.body {f : BlockFiles} {data bytes : Bytes} {index : ℕ} {l : ChunkLocation}
    (h : Holds data index bytes l) (hd : f.disk.lookup (.chunk index) = some data)
    (hb : blockFromBytes bytes = .ok b) (hsize : 1 ≤ bytes.length ∧ bytes.length ≤ 1000000)
    (hh : b.header = r.header) : Body f { r with location := some l } b := by
  obtain ⟨g, hg, hp⟩ := h.unpacked
  refine ⟨hh, bytes, ⟨g, ?_, hp⟩, hb, hsize⟩
  rw [diskSegment, h.chunk, hd]
  exact hg

/-! ## Sealing -/

omit [Primitives] in
theorem mem_losers {first last : ℕ} {db : Db} {height : ℕ} :
    (height, id) ∈ Store.losers first last db ↔ ∃ r, db.headers.lookup id = some r ∧
      height = r.height ∧ first ≤ r.height ∧ r.height ≤ last ∧ ∀ h, db.mainId h ≠ some id := by
  simp only [Store.losers, List.mem_map, List.mem_filter, decide_eq_true_eq, List.all_eq_true,
    Prod.mk.injEq, Prod.exists, Table.mem_rows, Bool.decide_and, Bool.and_eq_true]
  constructor
  · rintro ⟨id', r, ⟨hr, hf, hl, hm⟩, rfl, rfl⟩
    exact ⟨r, hr, rfl, hf, hl, fun h hid => hm (h, id') (Table.mem_rows.2 hid) rfl⟩
  · rintro ⟨r, hr, rfl, hf, hl, hm⟩
    refine ⟨id, r, ⟨hr, hf, hl, ?_⟩, rfl, rfl⟩
    rintro ⟨h, id'⟩ hmem he
    exact hm h (he ▸ Table.mem_rows.1 hmem)

/-- Rows that were there before, but for their locations. -/
def SubRows (db db' : Db) : Prop :=
  ∀ id r', db'.headers.lookup id = some r' → ∃ r, db.headers.lookup id = some r ∧
    r'.header = r.header ∧ r'.chainWork = r.chainWork ∧ r'.status = r.status

/-- Only the headers and the count of sealed chunks differ. -/
def HeadersOnly (db db' : Db) : Prop :=
  db' = { db with headers := db'.headers, sealedChunks := db'.sealedChunks }

omit [Primitives] in
theorem HeadersOnly.trans {db db' db'' : Db} (h : HeadersOnly db db') (h' : HeadersOnly db' db'') :
    HeadersOnly db db'' := by
  unfold HeadersOnly at h h' ⊢
  rw [h', h]

omit [Primitives] in
theorem SubRows.trans {db db' db'' : Db} (h : SubRows db db') (h' : SubRows db' db'') :
    SubRows db db'' := by
  intro id r'' hr''
  obtain ⟨r', hr', hh', hw', hs'⟩ := h' id r'' hr''
  obtain ⟨r, hr, hh, hw, hs⟩ := h id r' hr'
  exact ⟨r, hr, hh'.trans hh, hw'.trans hw, hs'.trans hs⟩

theorem Matches.headersOnly {db db' : Db} (h : Matches db L) (hd : HeadersOnly db db') :
    Matches db' L := by
  unfold HeadersOnly at hd
  rw [hd]
  exact ⟨h.main, h.ids, h.accounts, h.nonces, h.undo, h.storable, h.snapshots, h.txIndex,
    h.addressIndex⟩

/-- The store after a chunk was sealed. -/
structure SealedStore (params : NetworkParams) (B : Set Block) (lim : ℕ) (s s' : Store) (L : Ledger) :
    Prop where
  good : Good params B (lim + 1) s' L
  rows : Rows params B s'
  noStale : s'.files.NoStale (lim + 1)
  sealedChunks : s'.db.sealedChunks = lim + 1
  headersOnly : HeadersOnly s.db s'.db
  subRows : SubRows s.db s'.db

/-- The files and rows of a chunk that was written: what the last step of
sealing finds. -/
structure Written (L : Ledger) (lim first : ℕ) (ps : List (Digest × Bytes))
    (locations : List ChunkLocation) (data : Bytes) : Prop where
  main : List.Forall₂ (MainBytes L) (List.range' first ps.length) ps
  holds : List.Forall₂ (Holds data lim) (ps.map Prod.snd) locations
  index_lt : lim < 256 ^ 4

namespace Written

variable {first : ℕ} {ps : List (Digest × Bytes)} {locations : List ChunkLocation} {data : Bytes}

/-- Every location set is that of a block of the active chain. -/
theorem placed (h : Written L lim first ps locations data) {l : ChunkLocation}
    (hm : (id, l) ∈ (ps.map Prod.fst).zip locations) :
    ∃ bytes, Holds data lim bytes l ∧ ∃ b ∈ L.chain, b.blockId = id ∧
      blockFromBytes bytes = .ok b ∧ 1 ≤ bytes.length ∧ bytes.length ≤ 1000000 := by
  obtain ⟨i, hi, he⟩ := List.mem_iff_getElem.1 hm
  rw [List.length_zip, List.length_map] at hi
  rw [List.getElem_zip, Prod.mk.injEq, List.getElem_map] at he
  obtain ⟨hid, hl⟩ := he
  have hlen := h.main.length_eq
  have hholds := (List.forall₂_iff_get.1 h.holds).2 i (by rw [List.length_map]; omega) (by omega)
  obtain ⟨b, hb, -, hbid, hread, hsize⟩ :=
    (List.forall₂_iff_get.1 h.main).2 i (by omega) (by omega)
  simp only [List.get_eq_getElem, List.getElem_map] at hholds hbid hread hsize
  exact ⟨ps[i].2, hl ▸ hholds, b, hb, hbid.trans hid, hread, hsize⟩

theorem mem_placed (h : Written L lim first ps locations data) (hm : id ∈ ps.map Prod.fst) :
    ∃ l, (id, l) ∈ (ps.map Prod.fst).zip locations := by
  obtain ⟨i, hi, he⟩ := List.mem_iff_getElem.1 hm
  have hlen := h.holds.length_eq
  rw [List.length_map] at hi hlen
  refine ⟨locations[i], List.mem_iff_getElem.2 ⟨i, ?_, ?_⟩⟩
  · rw [List.length_zip, List.length_map]; omega
  · rw [List.getElem_zip, he]

theorem ids_nodup (h : Written L lim first ps locations data)
    (hids : (L.chain.map Block.blockId).Nodup) : (ps.map Prod.fst).Nodup := by
  have hblock : ∀ i (hi : i < ps.length), ∃ b ∈ L.chain, b.height = first + i ∧
      b.blockId = ps[i].1 := by
    intro i hi
    have hlen := h.main.length_eq
    obtain ⟨b, hb, hh, hbid, -⟩ := (List.forall₂_iff_get.1 h.main).2 i (by omega) hi
    simp only [List.get_eq_getElem, List.getElem_range'] at hh hbid
    exact ⟨b, hb, by omega, hbid⟩
  refine List.pairwise_iff_getElem.2 fun i j hi hj hlt he => ?_
  rw [List.length_map] at hi hj
  obtain ⟨b, hb, hbh, hbid⟩ := hblock i hi
  obtain ⟨c, hc, hch, hcid⟩ := hblock j hj
  rw [List.getElem_map, List.getElem_map, ← hbid, ← hcid] at he
  have hbc := List.inj_on_of_nodup_map hids hb hc he
  rw [hbc] at hbh
  omega

/-- The rows that sealing leaves. -/
def rowsAfter (ps : List (Digest × Bytes)) (locations : List ChunkLocation)
    (lost : List (ℕ × Digest)) (headers : Table Digest HeaderRow) : Table Digest HeaderRow :=
  Table.deleteWhere (fun id _ => lost.any fun l => l.2 = id)
    (placeRows ((ps.map Prod.fst).zip locations) headers)

/-- A row that is left is one from before: at its old place, which is not
lost, or at its new place in the chunk. -/
theorem lookup_rowsAfter (h : Written L lim first ps locations data)
    (hids : (L.chain.map Block.blockId).Nodup) {lost : List (ℕ × Digest)}
    {headers : Table Digest HeaderRow} {r' : HeaderRow}
    (hr : (rowsAfter ps locations lost headers).lookup id = some r') :
    (∀ height, (height, id) ∉ lost) ∧ ∃ r, headers.lookup id = some r ∧
      (id ∉ ps.map Prod.fst ∧ r' = r ∨ ∃ l, (id, l) ∈ (ps.map Prod.fst).zip locations ∧
        r' = { r with location := some l }) := by
  rw [rowsAfter, Table.lookup_deleteWhere, Option.filter_eq_some_iff] at hr
  obtain ⟨hr, hkeep⟩ := hr
  have hnot : ∀ height, (height, id) ∉ lost := by
    intro height hm
    have hany : (lost.any fun l => decide (l.2 = id)) = true :=
      List.any_eq_true.2 ⟨_, hm, decide_eq_true rfl⟩
    rw [hany] at hkeep
    cases hkeep
  refine ⟨hnot, ?_⟩
  have hfst : ((ps.map Prod.fst).zip locations).map Prod.fst = ps.map Prod.fst := by
    have := h.holds.length_eq
    rw [List.length_map] at this
    exact List.map_fst_zip (by rw [List.length_map]; omega)
  by_cases hm : id ∈ ps.map Prod.fst
  · obtain ⟨l, hl⟩ := h.mem_placed hm
    rw [lookup_placeRows_of_mem (by rw [hfst]; exact h.ids_nodup hids) hl] at hr
    obtain ⟨r, hr₀, rfl⟩ := Option.map_eq_some_iff.1 hr
    exact ⟨r, hr₀, Or.inr ⟨l, hl, rfl⟩⟩
  · rw [lookup_placeRows_of_notMem (by rw [hfst]; exact hm)] at hr
    exact ⟨r', hr, Or.inl ⟨hm, rfl⟩⟩

/-- **What sealing leaves is sound**: every block is read back from the
chunk or from where it was. -/
theorem sealedStore (h : Written L lim first ps locations data) (hg : Good params B lim s L)
    (hrows : Rows params B s) (hns : s.files.NoStale lim) (last : ℕ) {s₁ s₂ : Store}
    (hs₁ : s₁.files = { s.files with disk := Table.put (.chunk lim) data s.files.disk })
    (hdb : s₁.db = { s.db with
      headers := rowsAfter ps locations (Store.losers first last s.db) s.db.headers
      sealedChunks := lim + 1 })
    (hd : Deleted ((List.range' first ps.length).zip (ps.map Prod.fst) ++
      Store.losers first last s.db) s₁ s₂) : SealedStore params B lim s s₂ L := by
  have hids := hg.tables.ids
  have hheaders : s₂.db.headers =
      rowsAfter ps locations (Store.losers first last s.db) s.db.headers := by rw [hd.db, hdb]
  have hchunk : s₂.files.disk.lookup (.chunk lim) = some data := by
    rw [hd.chunk, hs₁]; exact Table.lookup_put_self
  have hother : ∀ index, index ≠ lim →
      s₂.files.disk.lookup (.chunk index) = s.files.disk.lookup (.chunk index) := by
    intro index hi
    rw [hd.chunk, hs₁]
    exact Table.lookup_put_ne fun he => hi (FileName.chunk.inj he)
  have hsegments : s₂.files.segments = s.files.segments := by rw [hd.segments, hs₁]
  -- The body of a row that is left: the sealed block, or what was at its place.
  have hbody : ∀ {id r' b}, s₂.db.headers.lookup id = some r' →
      (∃ r, s.db.headers.lookup id = some r ∧ Body s.files r b) →
      (∀ c ∈ L.chain, c.blockId = id → b = c) → Body s₂.files r' b := by
    rintro id r' b hr' ⟨r₀, hr₀, hb⟩ hchain
    rw [hheaders] at hr'
    obtain ⟨hnot, r, hr, hcase⟩ := h.lookup_rowsAfter hids hr'
    rw [hr₀, Option.some.injEq] at hr
    subst hr
    rcases hcase with ⟨hmem, rfl⟩ | ⟨l, hl, rfl⟩
    · refine hb.of_lookup (fun hloc => ?_) fun l hloc => ?_
      · have hid : r'.blockId = id := hg.keyed _ _ hr₀
        rw [hd.kept, hs₁]
        · exact Table.lookup_put_ne (by simp)
        · rw [hid, List.mem_append, not_or]
          exact ⟨fun hm => hmem (List.of_mem_zip hm).2, hnot _⟩
      · have := hg.located _ _ l hr₀ hloc
        exact hother _ (by omega)
    · obtain ⟨bytes, hholds, c, hc, hcid, hread, hsize⟩ := h.placed hl
      have hbc := hchain c hc hcid
      rw [hbc]
      exact hholds.body hchunk hread hsize (hbc ▸ hb.header)
  have hsub : SubRows s.db s₂.db := by
    intro id r' hr'
    rw [hheaders] at hr'
    obtain ⟨-, r, hr, hcase⟩ := h.lookup_rowsAfter hids hr'
    rcases hcase with ⟨-, rfl⟩ | ⟨l, -, rfl⟩
    · exact ⟨r', hr, rfl, rfl, rfl⟩
    · exact ⟨r, hr, rfl, rfl, rfl⟩
  have hheadersOnly : HeadersOnly s.db s₂.db := by
    rw [hd.db, hdb]
    rfl
  refine ⟨⟨hg.valid, hg.tables.headersOnly hheadersOnly, fun id r' hr' => ?_, fun b hb => ?_,
    fun id r' l hr' hl => ?_, ⟨hd.recent, fun index offset g hi hg' => ?_, fun index hi => ?_⟩⟩,
    fun id r' hr' => ?_, fun index offset hi => ?_, by rw [hd.db, hdb], hheadersOnly, hsub⟩
  · obtain ⟨r, hr, hh, -, -⟩ := hsub id r' hr'
    rw [← hg.keyed id r hr, HeaderRow.blockId, hh]
    rfl
  · obtain ⟨hB, r, hr, hb'⟩ := hg.chain b hb
    refine ⟨hB, ?_⟩
    -- A block of the active chain is not lost.
    have hkept : ∃ r', s₂.db.headers.lookup b.blockId = some r' := by
      have hfst : ((ps.map Prod.fst).zip locations).map Prod.fst = ps.map Prod.fst := by
        have := h.holds.length_eq
        rw [List.length_map] at this
        exact List.map_fst_zip (by rw [List.length_map]; omega)
      have hplace : ∃ r', (placeRows ((ps.map Prod.fst).zip locations) s.db.headers).lookup
          b.blockId = some r' := by
        by_cases hm : b.blockId ∈ ps.map Prod.fst
        · obtain ⟨l, hl⟩ := h.mem_placed hm
          rw [lookup_placeRows_of_mem (by rw [hfst]; exact h.ids_nodup hids) hl, hr]
          exact ⟨_, rfl⟩
        · rw [lookup_placeRows_of_notMem (by rw [hfst]; exact hm)]
          exact ⟨r, hr⟩
      obtain ⟨r', hr'⟩ := hplace
      refine ⟨r', ?_⟩
      rw [hheaders, rowsAfter, Table.lookup_deleteWhere, hr', Option.filter_some, if_pos]
      rw [Bool.not_eq_true', List.any_eq_false]
      rintro ⟨height, id⟩ hm he
      have hid : id = b.blockId := of_decide_eq_true he
      rw [hid] at hm
      obtain ⟨_, -, -, -, -, hno⟩ := mem_losers.1 hm
      exact hno _ (hg.mainId_of_mem hb)
    obtain ⟨r', hr'⟩ := hkept
    refine ⟨r', hr', hbody hr' ⟨r, hr, hb'⟩ fun c hc hcid => ?_⟩
    exact List.inj_on_of_nodup_map hids hb hc hcid.symm
  · rw [hheaders] at hr'
    obtain ⟨-, r, hr, hcase⟩ := h.lookup_rowsAfter hids hr'
    rcases hcase with ⟨-, rfl⟩ | ⟨l', hl', rfl⟩
    · have := hg.located _ _ l hr hl
      omega
    · obtain ⟨_, hholds, -⟩ := h.placed hl'
      rw [← Option.some.inj hl, hholds.chunk]
      omega
  · rw [hsegments] at hg'
    have hlt : index < lim := by
      by_contra hge
      rw [hns index offset (by omega)] at hg'
      cases hg'
    obtain ⟨length, hl⟩ := hg.files.segments index offset g hlt hg'
    refine ⟨length, ?_⟩
    rw [diskSegment, hother index (by omega)]
    exact hl
  · rw [hother index (by omega)]
    exact hg.files.unsealed index (by omega)
  · obtain ⟨r, hr, hh, hw, -⟩ := hsub id r' hr'
    obtain ⟨ha, b, hB, hc, hb⟩ := hrows id r hr
    refine ⟨by rw [hh, hw]; exact ha, ?_⟩
    by_cases hm : ∃ c ∈ L.chain, c.blockId = id
    · obtain ⟨c, hc', rfl⟩ := hm
      obtain ⟨hcB, hcr⟩ := hg.chain c hc'
      exact ⟨c, hcB, hg.valid.linked.checked hc', hbody hr' hcr fun d hd hdid =>
        List.inj_on_of_nodup_map hids hc' hd hdid.symm⟩
    · exact ⟨b, hB, hc, hbody hr' ⟨r, hr, hb⟩ fun c hc hcid => absurd ⟨c, hc, hcid⟩ hm⟩
  · rw [hsegments]
    exact hns index offset (by omega)

end Written

/-- What every file that is written takes: the blocks read from the chain
are packed. -/
theorem packable_of_main {first : ℕ} {ps : List (Digest × Bytes)}
    (h : List.Forall₂ (MainBytes L) (List.range' first ps.length) ps) :
    Packable (ps.map Prod.snd) := by
  intro bytes hm
  obtain ⟨p, hp, rfl⟩ := List.mem_map.1 hm
  obtain ⟨i, hi, rfl⟩ := List.mem_iff_getElem.1 hp
  have hlen := h.length_eq
  obtain ⟨b, -, -, -, -, hsize⟩ := (List.forall₂_iff_get.1 h).2 i (by omega) hi
  exact hsize

/-- **Sealing a chunk.** It leaves a sound store, and raises only where
the index does not fit the file format. -/
theorem Good.sealChunk_spec (h : Good params B lim s L) (hrows : Rows params B s)
    (hns : s.files.NoStale lim) (hlen : (lim + 1) * params.chunkSize ≤ L.chain.length) :
    Exec.wp (Store.sealChunk params.networkId lim (lim * params.chunkSize)
        ((lim + 1) * params.chunkSize - 1))
      (fun _ s' => SealedStore params B lim s s' L)
      (fun _ s' => s.Reading s' ∧ 256 ^ 4 ≤ lim) s := by
  have hsize := params.chunkSize_ge
  have hmul : (lim + 1) * params.chunkSize = lim * params.chunkSize + params.chunkSize := by
    rw [Nat.add_mul, Nat.one_mul]
  have hcount : (lim + 1) * params.chunkSize - 1 + 1 - lim * params.chunkSize = params.chunkSize := by
    omega
  simp only [Store.sealChunk, Exec.wp_bind, hcount]
  refine (h.mainBytes_spec params.chunkSize _ (by omega)).mono ?_ fun _ _ h => h.elim
  rintro ps s₁ ⟨hread, hmain⟩
  have hps : ps.length = params.chunkSize := by
    rw [← hmain.length_eq, List.length_range']
  have hmain' : List.Forall₂ (MainBytes L) (List.range' (lim * params.chunkSize) ps.length) ps := by
    rw [hps]; exact hmain
  have hpack := packable_of_main hmain'
  have h₁ := h.reading hread
  simp only [Store.onFiles, Exec.wp_zoom, BlockFiles.writeChunk, Exec.wp_bind, Exec.wp_lift,
    BlockFiles.write, Exec.wp_modify, Exec.wp_pure, Exec.wp_get]
  refine ⟨fun enc henc => ?_, fun e he => ⟨⟨hread.db, hread.files⟩, ?_⟩⟩
  · obtain ⟨data, locations⟩ := enc
    obtain ⟨segments, hencoded⟩ := encodeChunk_spec henc
    have hwritten : Written L lim (lim * params.chunkSize) ps locations data :=
      ⟨hmain', hencoded.holds hpack, hencoded.index_lt⟩
    have hset : Store.setLocations ((ps.map Prod.fst).zip locations) s₁.db = .ok { s₁.db with
        headers := placeRows ((ps.map Prod.fst).zip locations) s₁.db.headers } :=
      setLocations_of hencoded.index_lt fun p hp => by
        obtain ⟨bytes, hb, -⟩ := hwritten.placed (show (p.1, p.2) ∈ _ from hp)
        exact ⟨bytes, hb⟩
    simp only [Store.transaction, Exec.wp_atomically, Store.writeDb, Exec.wp_bind, Exec.wp_get,
      Exec.wp_lift, Exec.wp_set, Store.sealDb, hset]
    refine ⟨fun db hdb => ?_, fun e he => by cases he⟩
    have hrec : RecentCoherent { s₁.files with
        disk := Table.put (.chunk lim) data s₁.files.disk } :=
      h₁.files.recent.chunk fun _ _ => Table.lookup_put_ne (by simp)
    refine (deleteRecents_spec _ hrec).mono ?_ fun _ _ h => h.elim
    intro _ s₂ hd
    rw [List.length_map] at hd
    have hstore := hwritten.sealedStore h₁ (hrows.reading hread) (hns.reading h.files hread.files)
      ((lim + 1) * params.chunkSize - 1) rfl (Except.ok.inj hdb).symm hd
    refine ⟨hstore.good, hstore.rows, hstore.noStale, hstore.sealedChunks, ?_, ?_⟩
    · rw [← hread.db]; exact hstore.headersOnly
    · rw [← hread.db]; exact hstore.subRows
  · by_contra hlt
    have hmax := params.maxBlockSize_ge
    have hbound := params.chunkSize_mul_le
    have hle := Nat.le_mul_of_pos_right params.chunkSize (by omega : 0 < params.maxBlockSize)
    have hfirst : lim * params.chunkSize < 2 ^ 32 * 2 ^ 31 :=
      Nat.mul_lt_mul'' (by omega) (by omega)
    have hne : ps.map Prod.snd ≠ [] := by
      rw [ne_eq, List.map_eq_nil_iff, ← List.length_eq_zero_iff]
      omega
    obtain ⟨r, hr⟩ := encodeChunk_isOk params.networkId_lt (by omega : lim < 256 ^ 4)
      (by omega : lim * params.chunkSize < 256 ^ 8)
      (by rw [List.length_map]; omega : (ps.map Prod.snd).length < 256 ^ 4) hne hpack
    rw [hr] at he
    cases he

/-! ## Sealing what is ready -/

/-- The store is sound: it holds a ledger, every row is that of a stored
block, and the sealed chunks are below the tip. -/
structure Sound (params : NetworkParams) (B : Set Block) (s : Store) (L : Ledger) : Prop where
  good : Good params B s.db.sealedChunks s L
  rows : Rows params B s
  sealed : s.db.sealedChunks * params.chunkSize ≤ L.chain.length

/-- No segment of a chunk that is not sealed is cached. -/
def Fresh (s : Store) : Prop := s.files.NoStale s.db.sealedChunks

theorem Sound.reading (h : Sound params B s L) (hr : s.Reading s') : Sound params B s' L := by
  refine ⟨?_, h.rows.reading hr, ?_⟩
  · rw [hr.db]; exact h.good.reading hr
  · rw [hr.db]; exact h.sealed

theorem Fresh.reading (h : Fresh s) (hs : Sound params B s L) (hr : s.Reading s') : Fresh s' := by
  unfold Fresh
  rw [hr.db]
  exact NoStale.reading h hs.good.files hr.files

theorem Sound.kept {ids : List Digest} (h : Sound params B s L) (hk : Store.Kept ids s s')
    (hg : Good params B s.db.sealedChunks s' L')
    (hl : s.db.sealedChunks * params.chunkSize ≤ L'.chain.length) : Sound params B s' L' := by
  refine ⟨?_, h.rows.kept hk, ?_⟩
  · rw [hk.sealedChunks]; exact hg
  · rw [hk.sealedChunks]; exact hl

theorem Fresh.kept {ids : List Digest} (h : Fresh s) (hs : Sound params B s L)
    (hk : Store.Kept ids s s') : Fresh s' := by
  unfold Fresh
  rw [hk.sealedChunks]
  exact NoStale.reading h hs.good.files hk.files

/-- The store before and after sealing chunks. -/
structure Seals (params : NetworkParams) (B : Set Block) (s s' : Store) (L : Ledger) : Prop where
  sound : Sound params B s' L
  fresh : Fresh s'
  headersOnly : HeadersOnly s.db s'.db
  subRows : SubRows s.db s'.db
  sealedChunks : s.db.sealedChunks ≤ s'.db.sealedChunks

theorem Seals.refl (h : Sound params B s L) (hf : Fresh s) : Seals params B s s L :=
  ⟨h, hf, rfl, fun _ r hr => ⟨r, hr, rfl, rfl, rfl⟩, le_rfl⟩

theorem Seals.trans {s'' : Store} (h : Seals params B s s' L) (h' : Seals params B s' s'' L) :
    Seals params B s s'' L :=
  ⟨h'.sound, h'.fresh, h.headersOnly.trans h'.headersOnly, h.subRows.trans h'.subRows,
    h.sealedChunks.trans h'.sealedChunks⟩

theorem Seals.of_reading (h : Sound params B s L) (hf : Fresh s) (hr : s.Reading s') :
    Seals params B s s' L :=
  ⟨h.reading hr, hf.reading h hr, by rw [HeadersOnly, hr.db], fun _ r hl => ⟨r, by
    rw [← hr.db]; exact hl, rfl, rfl, rfl⟩, by rw [hr.db]⟩

/-- **Sealing what is ready** keeps the store sound. It stops early only
where the chunks are too many for the file format. -/
theorem Sound.sealReadyChunks_spec : ∀ (steps : ℕ) {s : Store}, Sound params B s L → Fresh s →
    Exec.wp (Store.sealReadyChunks params steps)
      (fun _ s' => Seals params B s s' L)
      (fun _ s' => Seals params B s s' L ∧
        (L.chain.length < s.db.sealedChunks + steps + 1 →
          (256 ^ 4 + 1) * params.chunkSize + params.finalityDepth ≤ L.chain.length))
      s
  | 0, s, h, hf => by
    have htip := h.good.tables.tipHeight h.good.valid
    have hsize := params.chunkSize_ge
    simp only [Store.sealReadyChunks, Exec.wp_bind, Exec.wp_get]
    rw [Exec.wp_ite]
    refine ⟨fun hready => Exec.wp_throw.2 ⟨.refl h hf, fun hsteps => ?_⟩,
      fun _ => Exec.wp_pure.2 (.refl h hf)⟩
    have hle : s.db.sealedChunks + 1 ≤ (s.db.sealedChunks + 1) * params.chunkSize :=
      Nat.le_mul_of_pos_right _ (by omega)
    have hready' := of_decide_eq_true hready
    have hdepth := params.finalityDepth_pos
    omega
  | steps + 1, s, h, hf => by
    have htip := h.good.tables.tipHeight h.good.valid
    simp only [Store.sealReadyChunks, Exec.wp_bind, Exec.wp_get]
    rw [Exec.wp_ite]
    refine ⟨fun hready => ?_, fun _ => Exec.wp_pure.2 (.refl h hf)⟩
    have hready' := of_decide_eq_true hready
    have hdepth := params.finalityDepth_pos
    rw [Exec.wp_bind]
    refine (h.good.sealChunk_spec h.rows hf (by omega)).mono ?_ ?_
    · intro _ s₁ hs
      have hsound : Sound params B s₁ L := by
        refine ⟨?_, hs.rows, ?_⟩
        · rw [hs.sealedChunks]; exact hs.good
        · rw [hs.sealedChunks]; omega
      have hfresh : Fresh s₁ := by
        unfold Fresh
        rw [hs.sealedChunks]
        exact hs.noStale
      have hseals : Seals params B s s₁ L :=
        ⟨hsound, hfresh, hs.headersOnly, hs.subRows, by rw [hs.sealedChunks]; omega⟩
      refine (hsound.sealReadyChunks_spec steps hfresh).mono (fun _ s₂ h₂ => hseals.trans h₂) ?_
      rintro e s₂ ⟨h₂, hsteps⟩
      refine ⟨hseals.trans h₂, fun hlt => hsteps ?_⟩
      rw [hs.sealedChunks]
      omega
    · rintro e s₁ ⟨hr, hlim⟩
      refine ⟨.of_reading h hf hr, fun _ => ?_⟩
      have hle : (256 ^ 4 + 1) * params.chunkSize ≤ (s.db.sealedChunks + 1) * params.chunkSize :=
        Nat.mul_le_mul_right _ (Nat.add_le_add_right hlim 1)
      omega

end TalCash
