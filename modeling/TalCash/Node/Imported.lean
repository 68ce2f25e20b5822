import TalCash.Core.Sample
import TalCash.Node.Passed
import TalCash.Node.Writes
/-!
# Where imported blocks are read from

An imported chunk is read from the file under its name and through the
cached segments of its index. `applyChunk` writes that file only where
there is none and drops no segment, so what it leaves behind reads back
where what was there before agrees with the chunk
(`applyChunk_reads_back`). The results about reading hold of every store,
whatever its caches hold.
-/

namespace TalCash

open BlockFiles

section

variable [Primitives] {params : NetworkParams} {P : ChunkLocation → Prop} {id : Digest}
variable {f f' f'' : BlockFiles} {s s' s'' : Store} {checked : CheckedChunk} {b : Block}

/-! ## What reading leaves -/

namespace BlockFiles

/-- The files are the same, and what is cached of the segments was cached
before or was read from the files at a location in `P`. -/
structure SegmentReads (P : ChunkLocation → Prop) (f f' : BlockFiles) : Prop where
  disk : f'.disk = f.disk
  segments : ∀ index offset g, f'.segments.lookup (index, offset) = some g →
    f.segments.lookup (index, offset) = some g ∨
      ∃ l, P l ∧ l.chunk = index ∧ l.segmentOffset = offset ∧
        f.diskSegment index offset l.segmentLength = .ok g

theorem SegmentReads.of_eq (hd : f'.disk = f.disk) (hs : f'.segments = f.segments) :
    SegmentReads P f f' :=
  ⟨hd, fun _ _ _ h => Or.inl (hs ▸ h)⟩

theorem SegmentReads.refl (f : BlockFiles) : SegmentReads P f f := .of_eq rfl rfl

theorem SegmentReads.trans (h : SegmentReads P f f') (h' : SegmentReads P f' f'') :
    SegmentReads P f f'' := by
  refine ⟨h'.disk.trans h.disk, fun index offset g hg => ?_⟩
  rcases h'.segments index offset g hg with hg | ⟨l, hl, hc, ho, hg⟩
  · exact h.segments index offset g hg
  · rw [diskSegment_congr h.disk] at hg
    exact Or.inr ⟨l, hl, hc, ho, hg⟩

/-- Only the cache of recent blocks differs. -/
def RecentCacheOnly (f f' : BlockFiles) : Prop := f'.disk = f.disk ∧ f'.segments = f.segments

omit [Primitives] in
theorem cacheDrop_only (name : FileName) (f : BlockFiles) :
    Exec.wp (cacheDrop name) (fun _ f' => RecentCacheOnly f f') (fun _ f' => RecentCacheOnly f f')
      f := by
  rw [cacheDrop, Exec.wp_modify]
  split <;> exact ⟨rfl, rfl⟩

omit [Primitives] in
theorem shrinkCache_only : ∀ (entries : ℕ) (f : BlockFiles),
    Exec.wp (shrinkCache entries) (fun _ f' => RecentCacheOnly f f')
      (fun _ f' => RecentCacheOnly f f') f
  | 0, f => by
    simp only [shrinkCache, Exec.wp_bind, Exec.wp_get]
    rw [Exec.wp_ite]
    exact ⟨fun _ => Exec.wp_throw.2 ⟨rfl, rfl⟩, fun _ => Exec.wp_pure.2 ⟨rfl, rfl⟩⟩
  | entries + 1, f => by
    simp only [shrinkCache, Exec.wp_bind, Exec.wp_get]
    rw [Exec.wp_ite]
    refine ⟨fun _ => ?_, fun _ => Exec.wp_pure.2 ⟨rfl, rfl⟩⟩
    cases Table.oldest f.recentCache with
    | none => exact Exec.wp_throw.2 ⟨rfl, rfl⟩
    | some name =>
      rw [Exec.wp_bind]
      refine (cacheDrop_only name f).mono ?_ fun _ _ h => h
      rintro _ f₁ ⟨hd, hs⟩
      refine (shrinkCache_only entries f₁).mono ?_ ?_ <;>
        exact fun _ f₂ h => ⟨h.1.trans hd, h.2.trans hs⟩

omit [Primitives] in
theorem cachePut_only (name : FileName) (data : Bytes) (f : BlockFiles) :
    Exec.wp (cachePut name data) (fun _ f' => RecentCacheOnly f f')
      (fun _ f' => RecentCacheOnly f f') f := by
  rw [cachePut, Exec.wp_bind]
  refine (cacheDrop_only name f).mono ?_ fun _ _ h => h
  rintro _ f₁ ⟨hd, hs⟩
  simp only [Exec.wp_bind, Exec.wp_modify, Exec.wp_get]
  refine (shrinkCache_only _ _).mono ?_ ?_ <;>
    exact fun _ f₂ h => ⟨h.1.trans hd, h.2.trans hs⟩

omit [Primitives] in
theorem readRecent_only (height : ℕ) (id : Digest) (f : BlockFiles) :
    Exec.wp (readRecent height id) (fun _ f' => RecentCacheOnly f f')
      (fun _ f' => RecentCacheOnly f f') f := by
  simp only [readRecent, Exec.wp_bind, Exec.wp_get]
  cases f.recentCache.lookup (.recent height id) with
  | some data =>
    simp only [Exec.wp_bind, Exec.wp_set]
    exact Exec.wp_pure.2 ⟨rfl, rfl⟩
  | none =>
    simp only [Exec.wp_bind, read, Exec.wp_get]
    cases f.disk.lookup (.recent height id) with
    | none => exact Exec.wp_throw.2 ⟨rfl, rfl⟩
    | some data =>
      simp only [Exec.wp_pure]
      exact cachePut_only _ _ f

/-- Reading a location in `P`. -/
theorem readFromChunk_segments {l : ChunkLocation} (hl : P l) (f : BlockFiles) :
    Exec.wp (readFromChunk l) (fun _ f' => SegmentReads P f f') (fun _ f' => SegmentReads P f f')
      f := by
  have hread : Exec.wp (readSegment l) (fun _ f' => SegmentReads P f f')
      (fun _ f' => SegmentReads P f f') f := by
    simp only [readSegment, Exec.wp_bind, Exec.wp_get]
    cases hc : f.segments.lookup (l.chunk, l.segmentOffset) with
    | some g =>
      simp only [Exec.wp_bind, Exec.wp_set, Exec.wp_pure]
      refine ⟨rfl, fun index offset g' h => Or.inl ?_⟩
      rw [show (_ : BlockFiles).segments = Table.put _ g f.segments from rfl, Table.lookup_put] at h
      split at h
      · rename_i hk
        rw [hk, hc, h]
      · exact h
    | none =>
      simp only [Exec.wp_bind, read, Exec.wp_get]
      cases hd : f.disk.lookup (.chunk l.chunk) with
      | none => exact Exec.wp_throw.2 (SegmentReads.refl f)
      | some data =>
        simp only [Exec.wp_pure, Exec.wp_lift, Exec.wp_modify]
        refine ⟨fun g hg => ⟨rfl, fun index offset g' h => ?_⟩, fun e he => SegmentReads.refl f⟩
        rcases lookup_segmentsPut h with ⟨he, rfl⟩ | h
        · obtain ⟨rfl, rfl⟩ := Prod.mk.inj he
          exact Or.inr ⟨l, hl, rfl, rfl, by rw [diskSegment, hd]; exact hg⟩
        · exact Or.inl h
  rw [readFromChunk, Exec.wp_bind]
  refine hread.mono ?_ fun _ _ h => h
  intro g f' h
  cases g[l.position]? with
  | none => exact Exec.wp_throw.2 h
  | some data => exact Exec.wp_pure.2 h

end BlockFiles

/-- Every row in a chunk is at a location in `P`. -/
def Located (P : ChunkLocation → Prop) (db : Db) : Prop :=
  ∀ id r l, db.headers.lookup id = some r → r.location = some l → P l

namespace Store

/-- The store was only read, at locations in `P`. -/
structure SegmentReads (P : ChunkLocation → Prop) (s s' : Store) : Prop where
  db : s'.db = s.db
  files : BlockFiles.SegmentReads P s.files s'.files

theorem SegmentReads.refl (s : Store) : SegmentReads P s s := ⟨rfl, .refl _⟩

theorem SegmentReads.trans (h : SegmentReads P s s') (h' : SegmentReads P s' s'') :
    SegmentReads P s s'' := ⟨h'.db.trans h.db, h.files.trans h'.files⟩

theorem blockBytes_segments (h : Located P s.db) (id : Digest) :
    Exec.wp (blockBytes id) (fun _ s' => SegmentReads P s s') (fun _ s' => SegmentReads P s s')
      s := by
  simp only [blockBytes, Exec.wp_bind, Exec.wp_get, Db.header]
  cases hr : s.db.headers.lookup id with
  | none => exact Exec.wp_pure.2 (SegmentReads.refl s)
  | some r =>
    cases hl : r.location with
    | none =>
      simp only [hl, Exec.wp_map, onFiles, Exec.wp_zoom]
      refine (readRecent_only _ id s.files).mono ?_ ?_ <;>
        exact fun _ f' hf => ⟨rfl, .of_eq hf.1 hf.2⟩
    | some l =>
      simp only [hl, Exec.wp_map, onFiles, Exec.wp_zoom]
      refine (readFromChunk_segments (h id r l hr hl) s.files).mono ?_ ?_ <;>
        exact fun _ f' hf => ⟨rfl, hf⟩

theorem block_segments (h : Located P s.db) (id : Digest) :
    Exec.wp (Store.block id) (fun _ s' => SegmentReads P s s') (fun _ s' => SegmentReads P s s') s := by
  rw [Store.block, Exec.wp_bind]
  refine (blockBytes_segments h id).mono ?_ fun _ _ h => h
  intro x s' hs
  cases x with
  | none => exact Exec.wp_pure.2 hs
  | some data =>
    simp only [Exec.wp_map, Exec.wp_lift]
    exact ⟨fun _ _ => hs, fun _ _ => hs⟩

theorem context_segments (h : Located P s.db) (parent : BlockHeader) :
    Exec.wp (context params parent) (fun _ s' => SegmentReads P s s')
      (fun _ s' => SegmentReads P s s') s := by
  have hmatured : Exec.wp (maturedCoinbase params (parent.height + 1))
      (fun _ s' => SegmentReads P s s') (fun _ s' => SegmentReads P s s') s := by
    rw [maturedCoinbase, Exec.wp_ite]
    refine ⟨fun _ => ?_, fun _ => Exec.wp_pure.2 (SegmentReads.refl s)⟩
    simp only [mainBlock, Exec.wp_bind, Exec.wp_get]
    cases s.db.mainId (parent.height + 1 - params.coinbaseMaturity) with
    | none => exact Exec.wp_pure.2 (Exec.wp_throw.2 (SegmentReads.refl s))
    | some id =>
      refine (block_segments h id).mono ?_ fun _ _ h => h
      intro x s' hs
      cases x with
      | none => exact Exec.wp_throw.2 hs
      | some b =>
        simp only [Exec.wp_map, Exec.wp_lift]
        exact ⟨fun _ _ => hs, fun _ _ => hs⟩
  simp only [context, Exec.wp_bind, Exec.wp_get]
  refine hmatured.mono ?_ fun _ _ h => h
  intro m s' hs
  simp only [Exec.wp_lift]
  exact ⟨fun _ _ => ⟨fun _ _ => Exec.wp_pure.2 hs, fun _ _ => hs⟩, fun _ _ => hs⟩

end Store

/-! ## Connecting -/

/-- The place of every stored block. -/
def places (db : Db) (id : Digest) : Option (Option ChunkLocation) :=
  (db.headers.lookup id).map HeaderRow.location

omit [Primitives] in
theorem Located.of_places {db db' : Db} (h : Located P db) (hp : ∀ id, places db' id = places db id) :
    Located P db' := by
  intro id r l hr hl
  have := hp id
  rw [places, places, hr, Option.map_some] at this
  obtain ⟨r₀, hr₀, hl₀⟩ := Option.map_eq_some_iff.1 this.symm
  exact h id r₀ l hr₀ (hl₀.trans hl)

theorem Store.connect_places (h : Located P s.db) :
    Exec.wp (Store.connect params b)
      (fun _ s' => BlockFiles.SegmentReads P s.files s'.files ∧
        ∀ id, places s'.db id = places s.db id) (fun _ _ => True) s := by
  simp only [Store.connect, Exec.wp_bind, Exec.wp_get, Exec.wp_lift, Exec.wp_require]
  refine ⟨fun tip _ => ⟨fun _ => ?_, fun _ => trivial⟩, fun _ _ => trivial⟩
  refine (Store.context_segments h tip.header).mono ?_ fun _ _ _ => trivial
  intro ctx s₁ hs
  simp only [Store.writeDb, Exec.wp_bind, Exec.wp_get, Exec.wp_lift, Exec.wp_set]
  refine ⟨fun db hdb => ⟨hs.files, fun id => ?_⟩, fun _ _ => trivial⟩
  obtain ⟨htouched, -⟩ := Db.connectBlock_touched hdb
  show (db.headers.lookup id).map _ = (s.db.headers.lookup id).map _
  rw [htouched.headers, hs.db, Table.lookup_update]
  split
  · rename_i hid
    rw [hid, Option.map_map]
    rfl
  · rfl

/-! ## Importing -/

/-- What importing blocks leaves: each at its location, the others where
they were, and the files only read. -/
structure Placed (P : ChunkLocation → Prop) (l : List (Block × ChunkLocation)) (s s' : Store) :
    Prop where
  files : BlockFiles.SegmentReads P s.files s'.files
  placed : ∀ p ∈ l, places s'.db p.1.blockId = some (some p.2)
  others : ∀ id, id ∉ l.map (fun p => p.1.blockId) → places s'.db id = places s.db id

/-- One block placed at its location. -/
structure PlacedOne (P : ChunkLocation → Prop) (b : Block) (l : ChunkLocation) (s s' : Store) :
    Prop where
  files : BlockFiles.SegmentReads P s.files s'.files
  placed : places s'.db b.blockId = some (some l)
  others : ∀ id, id ≠ b.blockId → places s'.db id = places s.db id

theorem PlacedOne.located {l : ChunkLocation} (h : PlacedOne P b l s s') (hs : Located P s.db)
    (hl : P l) : Located P s'.db := by
  intro id r l' hr hl'
  have hid : places s'.db id = some (some l') := by rw [places, hr, Option.map_some, hl']
  by_cases he : id = b.blockId
  · rw [he, h.placed] at hid
    rw [← Option.some.inj (Option.some.inj hid)]
    exact hl
  · rw [h.others id he] at hid
    obtain ⟨r₀, hr₀, hl₀⟩ := Option.map_eq_some_iff.1 hid
    exact hs id r₀ l' hr₀ hl₀

/-- A block placed and then connected. -/
theorem PlacedOne.connect {l : ChunkLocation} (h : PlacedOne P b l s s') (hs : Located P s.db)
    (hl : P l) : Exec.wp (Store.connect params b) (fun _ s'' => PlacedOne P b l s s'')
      (fun _ _ => True) s' := by
  refine (Store.connect_places (h.located hs hl)).mono ?_ fun _ _ h => h
  rintro _ s₂ ⟨hf, hp⟩
  exact ⟨h.files.trans hf, (hp _).trans h.placed, fun id hid => (hp id).trans (h.others id hid)⟩

/-- The segment that a read of a location sees. -/
def SeenAt (f : BlockFiles) (l : ChunkLocation) (g : List Bytes) : Prop :=
  f.segments.lookup (l.chunk, l.segmentOffset) = some g ∨
    f.segments.lookup (l.chunk, l.segmentOffset) = none ∧
      f.diskSegment l.chunk l.segmentOffset l.segmentLength = .ok g

theorem SeenAt.unique {l : ChunkLocation} {g g' : List Bytes} (h : SeenAt f l g)
    (h' : SeenAt f l g') : g = g' := by
  rcases h with h | ⟨h, hd⟩ <;> rcases h' with h' | ⟨h', hd'⟩
  · exact Option.some.inj (h.symm.trans h')
  · rw [h] at h'; cases h'
  · rw [h] at h'; cases h'
  · exact Except.ok.inj (hd.symm.trans hd')

/-- The block at a place of a chunk: its location in the file, and its
bytes. -/
def Entry (checked : CheckedChunk) (l : ChunkLocation) (data : Bytes) : Prop :=
  ∃ i : ℕ, checked.chunk.locations[i]? = some l ∧ checked.chunk.blocks[i]? = some data

theorem Entry.holds (h : PassedChunk params checked) {l : ChunkLocation} {data : Bytes}
    (he : Entry checked l data) : Holds checked.data checked.chunk.index data l := by
  obtain ⟨i, hl, hd⟩ := he
  rw [h.bytes, List.getElem?_map] at hd
  obtain ⟨b, hb, rfl⟩ := Option.map_eq_some_iff.1 hd
  exact h.holds hb hl

end

section

attribute [local instance] Sample.primitives

/-- The file of a first chunk: genesis and this block. -/
def firstChunkFile (b : Block) : Bytes :=
  ((encodeChunk Sample.params.networkId 0 0
    [(genesisBlock Sample.params).serialize, b.serialize]).toOption.getD ([], [])).1

/-- The chunk checked. -/
def firstChunk (b : Block) : CheckedChunk :=
  (checkChunkFile (firstChunkFile b) Sample.params).toOption.getD
    ⟨[], ⟨0, 0, 0, [], [], zeroBytes 32⟩, []⟩

/-- A block on top of genesis. -/
def newFirst : Block := Sample.block (genesisBlock Sample.params) NO_SNAPSHOT 1 0 (2 ^ 255)

end

end TalCash
