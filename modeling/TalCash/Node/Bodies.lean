import TalCash.Node.Matches
import TalCash.Node.Caches
/-!
# Reading stored blocks

Where a row of `headers` has its block: in its own recent file, or at its
location in a chunk. While the caches agree with the files below a chunk
index (`FilesOk`), a stored block is read from wherever its row says, and
reading changes nothing that later reads see.
-/

namespace TalCash

/-! ## Rows -/

/-- The rows are the same but for their status. -/
def SameRows (db db' : Db) : Prop :=
  ∀ id, (db'.headers.lookup id).map (fun r => (r.header, r.chainWork, r.location)) =
    (db.headers.lookup id).map fun r => (r.header, r.chainWork, r.location)

namespace SameRows

variable {db db' db'' : Db} {id : Digest} {status : Status}

theorem refl (db : Db) : SameRows db db := fun _ => rfl

theorem symm (h : SameRows db db') : SameRows db' db := fun id => (h id).symm

theorem trans (h : SameRows db db') (h' : SameRows db' db'') : SameRows db db'' :=
  fun id => (h' id).trans (h id)

theorem of_headers_eq (h : db'.headers = db.headers) : SameRows db db' := fun id => by rw [h]

theorem update_status (h : db'.headers =
    Table.update id (fun r => { r with status := status }) db.headers) : SameRows db db' := by
  intro id'
  rw [h, Table.lookup_update]
  split
  · rename_i he
    rw [he, Option.map_map]
    rfl
  · rfl

theorem lookup (h : SameRows db db') {r' : HeaderRow} (hr : db'.headers.lookup id = some r') :
    ∃ r, db.headers.lookup id = some r ∧ r'.header = r.header ∧ r'.chainWork = r.chainWork ∧
      r'.location = r.location := by
  have hid := h id
  rw [hr, Option.map_some] at hid
  obtain ⟨r, hl, he⟩ := Option.map_eq_some_iff.1 hid.symm
  simp only [Prod.mk.injEq] at he
  exact ⟨r, hl, he.1.symm, he.2.1.symm, he.2.2.symm⟩

end SameRows

variable [Primitives]

/-! ## Files and caches -/

namespace BlockFiles

variable {f f' : BlockFiles} {lim : ℕ}

/-- Segments unpacked at one place of a chunk are equal, whatever lengths
the locations give. -/
theorem diskSegment_unique {index offset n m : ℕ} {g g' : List Bytes}
    (h : f.diskSegment index offset n = .ok g) (h' : f.diskSegment index offset m = .ok g') :
    g = g' := by
  unfold diskSegment at h h'
  cases hd : f.disk.lookup (.chunk index) with
  | none => simp only [hd] at h; cases h
  | some data =>
    simp only [hd] at h h'
    rw [slice_eq_of_complete (unpackSegment_complete h') (unpackSegment_complete h), h] at h'
    exact Except.ok.inj h'

/-- The caches agree with the files of the chunks below `lim`, and there
are no other chunks. -/
structure FilesOk (f : BlockFiles) (lim : ℕ) : Prop where
  recent : f.RecentCoherent
  segments : ∀ index offset g, index < lim → f.segments.lookup (index, offset) = some g →
    ∃ length, f.diskSegment index offset length = .ok g
  unsealed : ∀ index, lim ≤ index → f.disk.lookup (.chunk index) = none

/-- No segment of a chunk from `lim` on is cached. -/
def NoStale (f : BlockFiles) (lim : ℕ) : Prop :=
  ∀ index offset, lim ≤ index → f.segments.lookup (index, offset) = none

theorem FilesOk.reading (h : f.FilesOk lim) (hr : Reading f f') : f'.FilesOk lim := by
  refine ⟨hr.recent h.recent, fun index offset g hi hg => ?_, fun index hi => ?_⟩
  · rcases hr.segments index offset g hg with hg | ⟨length, hg⟩
    · obtain ⟨length, hd⟩ := h.segments index offset g hi hg
      exact ⟨length, by rw [diskSegment_congr hr.disk]; exact hd⟩
    · exact ⟨length, by rw [diskSegment_congr hr.disk]; exact hg⟩
  · rw [hr.disk]
    exact h.unsealed index hi

theorem NoStale.reading (h : f.NoStale lim) (hf : f.FilesOk lim) (hr : Reading f f') :
    f'.NoStale lim := by
  intro index offset hi
  cases hg : f'.segments.lookup (index, offset) with
  | none => rfl
  | some g =>
    rcases hr.segments index offset g hg with hg | ⟨length, hg⟩
    · rw [h index offset hi] at hg
      cases hg
    · rw [diskSegment, hf.unsealed index hi] at hg
      cases hg

/-- Reading at a location of a sealed chunk gives what its file has there. -/
theorem FilesOk.readFromChunk (h : f.FilesOk lim) {l : ChunkLocation} (hl : l.chunk < lim)
    {g : List Bytes} {data : Bytes}
    (hg : f.diskSegment l.chunk l.segmentOffset l.segmentLength = .ok g)
    (hd : g[l.position]? = some data) :
    Exec.wp (BlockFiles.readFromChunk l) (fun x f' => x = data ∧ Reading f f') (fun _ _ => False)
      f := by
  simp only [BlockFiles.readFromChunk, Exec.wp_bind]
  refine (readSegment_spec l).mono ?_ ?_
  · rintro g' f' ⟨hr, hg'⟩
    have heq : g' = g := by
      rcases hg' with hc | ⟨-, hg'⟩
      · obtain ⟨length, hd'⟩ := h.segments _ _ _ hl hc
        exact diskSegment_unique hd' hg
      · exact diskSegment_unique hg' hg
    rw [heq, hd]
    exact Exec.wp_pure.2 ⟨rfl, hr⟩
  · rintro e f' ⟨-, -, he⟩
    rw [hg] at he
    cases he

end BlockFiles

open BlockFiles

/-! ## The place of a row -/

/-- The bytes at the place a row names. -/
def RawAt (f : BlockFiles) (r : HeaderRow) (data : Bytes) : Prop :=
  match r.location with
  | none => f.disk.lookup (.recent r.height r.blockId) = some data
  | some l => ∃ g, f.diskSegment l.chunk l.segmentOffset l.segmentLength = .ok g ∧
      g[l.position]? = some data

/-- The block at the place a row names; its size is one a chunk takes. -/
structure Body (f : BlockFiles) (r : HeaderRow) (b : Block) : Prop where
  header : b.header = r.header
  raw : ∃ data, RawAt f r data ∧ blockFromBytes data = .ok b ∧ 1 ≤ data.length ∧
    data.length ≤ 1000000

/-- The row but for its status and its work. -/
structure SamePlace (r r' : HeaderRow) : Prop where
  header : r'.header = r.header
  location : r'.location = r.location

variable {f f' : BlockFiles} {r r' : HeaderRow} {b : Block} {data : Bytes} {lim : ℕ}

theorem RawAt.reading (h : RawAt f r data) (hr : f'.disk = f.disk) : RawAt f' r data := by
  unfold RawAt at h ⊢
  split
  · rename_i hl
    rw [hl] at h
    rw [hr]
    exact h
  · rename_i l hl
    rw [hl] at h
    simp only [diskSegment_congr hr]
    exact h

theorem Body.reading (h : Body f r b) (hr : f'.disk = f.disk) : Body f' r b := by
  obtain ⟨hh, data, hraw, hd⟩ := h
  exact ⟨hh, data, hraw.reading hr, hd⟩

theorem Body.samePlace (h : Body f r b) (hr : SamePlace r r') : Body f r' b := by
  obtain ⟨hh, data, hraw, hd⟩ := h
  refine ⟨hh.trans hr.header.symm, data, ?_, hd⟩
  unfold RawAt at hraw ⊢
  rw [hr.location, HeaderRow.height, HeaderRow.blockId, hr.header]
  exact hraw

/-- A block is read back whole: two blocks at one place are one block. -/
theorem Body.unique {b' : Block} (h : Body f r b) (h' : Body f r b') : b = b' := by
  obtain ⟨-, data, hraw, hd, -⟩ := h
  obtain ⟨-, data', hraw', hd', -⟩ := h'
  have heq : data = data' := by
    unfold RawAt at hraw hraw'
    split at hraw
    · rename_i hl
      rw [hl] at hraw'
      exact Option.some.inj (hraw.symm.trans hraw')
    · rename_i l hl
      rw [hl] at hraw'
      obtain ⟨g, hg, hp⟩ := hraw
      obtain ⟨g', hg', hp'⟩ := hraw'
      rw [diskSegment_unique hg hg'] at hp
      exact Option.some.inj (hp.symm.trans hp')
  rw [heq, hd'] at hd
  exact (Except.ok.inj hd).symm

/-! ## Reading through the store -/

/-- The store was only read. -/
structure Store.Reading (s s' : Store) : Prop where
  db : s'.db = s.db
  files : BlockFiles.Reading s.files s'.files

namespace Store

variable {s s' : Store} {id : Digest}

theorem Reading.refl (s : Store) : Reading s s := ⟨rfl, BlockFiles.Reading.refl _⟩

theorem Reading.trans {s'' : Store} (h : Reading s s') (h' : Reading s' s'') : Reading s s'' :=
  ⟨h'.db.trans h.db, h.files.trans h'.files⟩

/-- **A stored block is read from its place.** -/
theorem blockBytes_spec (hf : s.files.FilesOk lim) (hr : s.db.headers.lookup id = some r)
    (hid : r.blockId = id) (hl : ∀ l, r.location = some l → l.chunk < lim)
    (hraw : RawAt s.files r data) :
    Exec.wp (blockBytes id) (fun x s' => x = some data ∧ Reading s s') (fun _ _ => False) s := by
  unfold RawAt at hraw
  simp only [blockBytes, Exec.wp_bind, Exec.wp_get, Db.header, hr]
  cases hloc : r.location with
  | none =>
    simp only [hloc] at hraw ⊢
    rw [Exec.wp_map, onFiles, Exec.wp_zoom]
    refine (readRecent_spec hf.recent r.height id).mono ?_ ?_
    · rintro x f' ⟨hread, hx⟩
      rw [hid, hx] at hraw
      exact ⟨by rw [Option.some.inj hraw], rfl, hread⟩
    · rintro e f' ⟨-, -, hnone⟩
      rw [hid, hnone] at hraw
      cases hraw
  | some l =>
    simp only [hloc] at hraw ⊢
    obtain ⟨g, hg, hd⟩ := hraw
    rw [Exec.wp_map, onFiles, Exec.wp_zoom]
    refine (hf.readFromChunk (hl l hloc) hg hd).mono ?_ fun _ _ h => h
    rintro x f' ⟨rfl, hread⟩
    exact ⟨rfl, rfl, hread⟩

theorem block_spec (hf : s.files.FilesOk lim) (hr : s.db.headers.lookup id = some r)
    (hid : r.blockId = id) (hl : ∀ l, r.location = some l → l.chunk < lim)
    (hb : Body s.files r b) :
    Exec.wp (block id) (fun x s' => x = some b ∧ Reading s s') (fun _ _ => False) s := by
  obtain ⟨-, data, hraw, hd, -⟩ := hb
  simp only [block, Exec.wp_bind]
  refine (blockBytes_spec hf hr hid hl hraw).mono ?_ fun _ _ h => h
  rintro x s' ⟨rfl, hread⟩
  simp only [Exec.wp_map, Exec.wp_lift, hd]
  exact ⟨fun c hc => ⟨by rw [Except.ok.inj hc], hread⟩, fun e he => by cases he⟩

end Store

end TalCash
