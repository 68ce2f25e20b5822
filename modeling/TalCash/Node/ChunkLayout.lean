import TalCash.Node.Coherence
/-!
# What a chunk file holds

A file that `encodeChunk` writes or `decodeChunk` accepts holds each of
its blocks at the location given for it: the location's segment unpacks,
to a list with the block at the location's position (`Holds`). The
locations are in the file's segment table, too (`HasSegment`).
-/

namespace TalCash

open BigEndian

variable [Primitives]

/-- The file of chunk `index` holds a block at a location. -/
structure Holds (data : Bytes) (index : ℕ) (block : Bytes) (location : ChunkLocation) : Prop where
  chunk : location.chunk = index
  unpacked : ∃ g, unpackSegment (slice data location.segmentOffset location.segmentLength) = .ok g ∧
    g[location.position]? = some block
  segment : HasSegment data location.segmentOffset location.segmentLength
  offset_lt : location.segmentOffset < 2 ^ 63
  length_lt : location.segmentLength < 2 ^ 32
  position_lt : location.position < 64

/-! ## Segments -/

/-- Packing yields something: nothing else could be told from it. -/
theorem deflate_ne_nil (b : Bytes) : deflate b ≠ [] := by
  intro h
  have hall : ∀ c, deflate c = [] := fun c => by
    refine Primitives.inflate_append (deflate b) (deflate c) ?_ ?_
    · rw [Packing.inflate_deflate]
    · rw [h, List.nil_append, Packing.inflate_deflate]
  have h0 := Packing.inflate_deflate []
  have h1 := Packing.inflate_deflate [0]
  rw [hall] at h0 h1
  rw [h0] at h1
  cases h1

omit [Primitives] in
theorem framed_eq {b : Bytes} (h : b.length < 256 ^ 4) :
    framed b = .ok (beBytes 4 b.length ++ b) := by
  rw [framed, toBytes_of_lt h]; rfl

/-- The frames of a segment's blocks, one after the other. -/
def frames (blocks : List Bytes) : Bytes := blocks.flatMap fun b => beBytes 4 b.length ++ b

omit [Primitives] in
theorem mapM_framed {blocks : List Bytes} (h : ∀ b ∈ blocks, b.length < 256 ^ 4) :
    blocks.mapM framed = .ok (blocks.map fun b => beBytes 4 b.length ++ b) := by
  rw [mapM_eq_ok, List.forall₂_map_right_iff, List.forall₂_same]
  exact fun b hb => framed_eq (h b hb)

/-- Blocks a segment can hold. -/
def Packable (blocks : List Bytes) : Prop := ∀ b ∈ blocks, 1 ≤ b.length ∧ b.length ≤ 1000000

omit [Primitives] in
theorem length_frames {blocks : List Bytes} (h : Packable blocks) :
    (frames blocks).length ≤ blocks.length * (1000000 + 4) := by
  induction blocks with
  | nil => exact Nat.zero_le _
  | cons b blocks ih =>
    have hb := (h b List.mem_cons_self).2
    have := ih fun b hb => h b (List.mem_cons_of_mem _ hb)
    have hf : frames (b :: blocks) = (beBytes 4 b.length ++ b) ++ frames blocks := rfl
    rw [hf, List.length_append, List.length_append, length_beBytes, List.length_cons]
    omega

omit [Primitives] in
/-- Splitting the frames gives the blocks back. -/
theorem splitSegment_frames {blocks : List Bytes} (h : Packable blocks) :
    ∀ room, blocks.length ≤ room → splitSegment room (frames blocks) = .ok blocks := by
  induction blocks with
  | nil => intro room _; cases room <;> rfl
  | cons b blocks ih =>
    intro room hr
    obtain ⟨room, rfl⟩ : ∃ r, room = r + 1 := ⟨room - 1, by simp at hr; omega⟩
    obtain ⟨hb1, hb2⟩ := h b List.mem_cons_self
    have hf : frames (b :: blocks) = beBytes 4 b.length ++ (b ++ frames blocks) := by
      simp only [frames, List.flatMap_cons, List.append_assoc]
    have hhead : beNat ((frames (b :: blocks)).take 4) = b.length := by
      rw [hf, List.take_left' (length_beBytes 4 _), beNat_beBytes (lt_of_le_of_lt hb2 (by decide))]
    have hlen : (frames (b :: blocks)).length = 4 + b.length + (frames blocks).length := by
      simp only [hf, List.length_append, length_beBytes]; omega
    have hdrop4 : (frames (b :: blocks)).drop 4 = b ++ frames blocks := by
      rw [hf, List.drop_left' (length_beBytes 4 _)]
    have hslice : slice (frames (b :: blocks)) 4 b.length = b := by
      rw [slice, hdrop4, List.take_left' rfl]
    have hrest : (frames (b :: blocks)).drop (4 + b.length) = frames blocks := by
      rw [← List.drop_drop, hdrop4, List.drop_left' rfl]
    have hne : ∃ x xs, frames (b :: blocks) = x :: xs := by
      cases hx : frames (b :: blocks) with
      | nil => rw [hx, List.length_nil] at hlen; omega
      | cons x xs => exact ⟨x, xs, rfl⟩
    obtain ⟨x, xs, hx⟩ := hne
    rw [hx] at hhead hlen hslice hrest ⊢
    simp only [splitSegment, hhead]
    rw [if_neg (by omega), if_neg (by omega), hrest, hslice,
      ih (fun b hb => h b (List.mem_cons_of_mem _ hb)) room (by simpa using hr)]

omit [Primitives] in
/-- A packed segment unpacks to its blocks. -/
theorem unpackSegment_packSegment [Packing] {blocks : List Bytes} (h : Packable blocks)
    (hl : blocks.length ≤ SEGMENT_BLOCKS) :
    packSegment blocks = .ok (deflate (frames blocks)) ∧
      unpackSegment (deflate (frames blocks)) = .ok blocks := by
  have hsize : (frames blocks).length ≤ MAX_SEGMENT_BYTES :=
    (length_frames h).trans (Nat.mul_le_mul_right _ hl)
  constructor
  · rw [packSegment, mapM_framed fun b hb => lt_of_le_of_lt (h b hb).2 (by decide)]
    rw [frames, List.flatMap_def]
    rfl
  · have htake : (frames blocks).take (min MAX_SEGMENT_BYTES MAX_SEGMENT_BYTES + 1) =
        frames blocks := List.take_of_length_le (by rw [min_self]; omega)
    simp only [unpackSegment, Packing.inflate_deflate, htake]
    rw [if_neg (fun hc => nomatch hc.1), if_neg (by omega), if_neg (by omega),
      if_neg (fun hc => hc rfl)]
    exact splitSegment_frames h _ hl

omit [Primitives] in
theorem groupsFrom_spec : ∀ (n : ℕ) (blocks : List Bytes), blocks.length ≤ n →
    (groupsFrom n blocks).flatten = blocks ∧
      (∀ g ∈ groupsFrom n blocks, g.length ≤ SEGMENT_BLOCKS ∧ ∀ b ∈ g, b ∈ blocks) ∧
      (groupsFrom n blocks).length = (blocks.length + SEGMENT_BLOCKS - 1) / SEGMENT_BLOCKS
  | 0, blocks, h => by
    have : blocks = [] := List.length_eq_zero_iff.1 (Nat.le_zero.1 h)
    subst this
    exact ⟨rfl, fun _ hg => (nomatch hg), rfl⟩
  | n + 1, blocks, h => by
    rw [groupsFrom]
    split
    · rename_i he
      rw [List.isEmpty_iff.1 he]
      exact ⟨rfl, fun _ hg => (nomatch hg), rfl⟩
    · rename_i he
      have hpos : 0 < blocks.length := List.length_pos_iff.2 fun h0 => he (by rw [h0]; rfl)
      have h64 : SEGMENT_BLOCKS = 64 := rfl
      obtain ⟨hflat, hmem, hlen⟩ := groupsFrom_spec n (blocks.drop SEGMENT_BLOCKS)
        (by rw [List.length_drop]; omega)
      refine ⟨by rw [List.flatten_cons, hflat, List.take_append_drop], ?_, ?_⟩
      · intro g hg
        rcases List.mem_cons.1 hg with rfl | hg
        · exact ⟨List.length_take_le _ _, fun b hb => List.mem_of_mem_take hb⟩
        · exact ⟨(hmem g hg).1, fun b hb => List.mem_of_mem_drop ((hmem g hg).2 b hb)⟩
      · rw [List.length_cons, hlen, List.length_drop]
        simp only [h64]
        omega

omit [Primitives] in
theorem groups_spec (blocks : List Bytes) : (groups blocks).flatten = blocks ∧
    (∀ g ∈ groups blocks, g.length ≤ SEGMENT_BLOCKS ∧ ∀ b ∈ g, b ∈ blocks) ∧
    (groups blocks).length = (blocks.length + SEGMENT_BLOCKS - 1) / SEGMENT_BLOCKS :=
  groupsFrom_spec _ _ le_rfl

/-! ## The segment table -/

/-- One row of the segment table, written. -/
def rowBytes (r : ℕ × ℕ) : Bytes := beBytes 8 r.1 ++ beBytes 4 r.2

/-- The segment table of segments from `offset` on. -/
def rowsFrom : (offset : ℕ) → List Bytes → List (ℕ × ℕ)
  | _, [] => []
  | offset, segment :: rest => (offset, segment.length) :: rowsFrom (offset + segment.length) rest

/-- The locations in segments from `offset` on. -/
def locationsFrom (index : ℕ) : (offset : ℕ) → List (List Bytes × Bytes) → List ChunkLocation
  | _, [] => []
  | offset, (group, segment) :: rest =>
    segmentLocations index offset segment.length group.length ++
      locationsFrom index (offset + segment.length) rest

omit [Primitives] in
theorem length_rowsFrom (segments : List Bytes) (offset : ℕ) :
    (rowsFrom offset segments).length = segments.length := by
  induction segments generalizing offset with
  | nil => rfl
  | cons s segments ih => rw [rowsFrom, List.length_cons, ih, List.length_cons]

omit [Primitives] in
theorem uintBytes_ok_iff {value size : ℕ} {b : Bytes} :
    uintBytes value size = .ok b ↔ value < 256 ^ size ∧ b = beBytes size value := by
  unfold uintBytes
  split
  · rename_i h
    exact ⟨fun h => (nomatch h), fun hv => absurd hv.1 (not_lt.2 h)⟩
  · rename_i h
    rw [Except.ok.injEq, eq_comm]
    exact ⟨fun hb => ⟨not_le.1 h, hb⟩, fun hb => hb.2⟩

omit [Primitives] in
theorem layoutSegments_ok {index : ℕ} : ∀ {l : List (List Bytes × Bytes)} {offset : ℕ}
    {t : Bytes} {locations : List ChunkLocation},
    layoutSegments index offset l = .ok (t, locations) →
      (∀ r ∈ rowsFrom offset (l.map Prod.snd), r.1 < 256 ^ 8 ∧ r.2 < 256 ^ 4) ∧
      t = (rowsFrom offset (l.map Prod.snd)).flatMap rowBytes ∧
      locations = locationsFrom index offset l
  | [], _, _, _, h => by cases h; exact ⟨fun _ h => (nomatch h), rfl, rfl⟩
  | (group, segment) :: rest, offset, t, locations, h => by
    simp only [layoutSegments, bind_eq_ok] at h
    obtain ⟨o, ho, n, hn, ⟨t', locations'⟩, hrest, h⟩ := h
    obtain ⟨ho', rfl⟩ := uintBytes_ok_iff.1 ho
    obtain ⟨hn', rfl⟩ := uintBytes_ok_iff.1 hn
    obtain ⟨hr, rfl, rfl⟩ := layoutSegments_ok hrest
    cases h
    refine ⟨?_, rfl, rfl⟩
    intro r hr'
    rcases List.mem_cons.1 hr' with rfl | hr'
    · exact ⟨ho', hn'⟩
    · exact hr r hr'

omit [Primitives] in
theorem slice_middle (a b c : Bytes) : slice (a ++ (b ++ c)) a.length b.length = b := by
  rw [slice, List.drop_left' rfl, List.take_left' rfl]

omit [Primitives] in
/-- The rows of a written table point at the segments. -/
theorem slice_of_mem_rowsFrom : ∀ {segments : List Bytes} {a c : Bytes} {r : ℕ × ℕ},
    r ∈ rowsFrom a.length segments → ∃ s ∈ segments, slice (a ++ (segments.flatten ++ c)) r.1 r.2 = s
  | s :: segments, a, c, r, hr => by
    rcases List.mem_cons.1 hr with rfl | hr
    · refine ⟨s, List.mem_cons_self, ?_⟩
      rw [List.flatten_cons, List.append_assoc]
      exact slice_middle a s _
    · rw [← List.length_append] at hr
      obtain ⟨s', hs', h⟩ := slice_of_mem_rowsFrom (c := c) hr
      refine ⟨s', List.mem_cons_of_mem _ hs', ?_⟩
      rw [← h, List.flatten_cons]
      simp only [List.append_assoc]

omit [Primitives] in
theorem checkLayout_rowsFrom : ∀ {segments : List Bytes} {offset bodyLength : ℕ},
    (∀ s ∈ segments, s ≠ []) → offset + segments.flatten.length ≤ bodyLength →
      checkLayout bodyLength offset (rowsFrom offset segments) =
        .ok (offset + segments.flatten.length)
  | [], _, _, _, _ => rfl
  | s :: segments, offset, bodyLength, h, hb => by
    rw [List.flatten_cons, List.length_append] at hb ⊢
    have hs : s.length ≠ 0 := fun h0 => h s List.mem_cons_self (List.length_eq_zero_iff.1 h0)
    rw [rowsFrom, checkLayout, if_neg (by omega),
      checkLayout_rowsFrom (fun s hs => h s (List.mem_cons_of_mem _ hs)) (by omega), Nat.add_assoc]

/-- The fields before the segment table, written. -/
def headBytes (head : ChunkHead) : Bytes :=
  MAGIC ++ (beBytes 1 head.networkId ++ (beBytes 4 head.index ++ (beBytes 8 head.firstHeight ++
    (beBytes 4 head.count ++ (head.root.1 ++ beBytes 4 head.segmentCount)))))

omit [Primitives] in
theorem length_MAGIC : MAGIC.length = 8 := by decide +kernel

omit [Primitives] in
theorem length_headBytes (head : ChunkHead) : (headBytes head).length = HEADER_BYTES := by
  simp only [headBytes, List.length_append, length_beBytes, head.root.2, length_MAGIC]
  rfl

omit [Primitives] in
theorem reads_head {head : ChunkHead} (h1 : head.networkId < 256 ^ 1) (h2 : head.index < 256 ^ 4)
    (h3 : head.firstHeight < 256 ^ 8) (h4 : head.count < 256 ^ 4)
    (h5 : head.segmentCount < 256 ^ 4) : Reads readChunkHead (headBytes head) head :=
  (Reads.take_of_length MAGIC length_MAGIC).bind <| (Reads.uint h1).bind <| (Reads.uint h2).bind <|
    (Reads.uint h3).bind <| (Reads.uint h4).bind <| (Reads.fixed head.root).bind <|
    (Reads.uint h5).bind_pure

omit [Primitives] in
theorem reads_row {r : ℕ × ℕ} (h : r.1 < 256 ^ 8 ∧ r.2 < 256 ^ 4) :
    Reads readTableRow (rowBytes r) r :=
  (Reads.uint h.1).bind (Reads.uint h.2).bind_pure

omit [Primitives] in
/-- The head and the table are read back from the body of a file. -/
theorem readSegmentTable_of (head : ChunkHead) (rows : List (ℕ × ℕ)) (rest : Bytes)
    (maxBlocks : Option ℕ) (hh : Reads readChunkHead (headBytes head) head)
    (hr : ∀ r ∈ rows, r.1 < 256 ^ 8 ∧ r.2 < 256 ^ 4) (hn : rows.length = head.segmentCount)
    (hc : checkChunkHead (headBytes head ++ (rows.flatMap rowBytes ++ rest)).length maxBlocks head =
      .ok ())
    (ht : checkChunkTable (headBytes head ++ (rows.flatMap rowBytes ++ rest)).length rows = .ok ()) :
    Exec.outcome (readSegmentTable (headBytes head ++ (rows.flatMap rowBytes ++ rest)) maxBlocks)
      ⟨0, headBytes head ++ (rows.flatMap rowBytes ++ rest)⟩ = .ok (head, rows) := by
  have hmany : Reads (Reader.many readTableRow rows.length) (rows.flatMap rowBytes) ⟨rows, rfl⟩ :=
    Reads.many fun r h => reads_row (hr r h)
  rw [Exec.outcome_ok_iff]
  obtain ⟨networkId, index, firstHeight, count, root, segmentCount⟩ := head
  dsimp only at hn
  subst hn
  refine ⟨_, Exec.bind_ok_iff.2 ⟨_, _, hh _ _, Exec.bind_ok_iff.2 ⟨(), _, Exec.lift_ok_iff.2
    ⟨hc, rfl⟩, Exec.bind_ok_iff.2 ⟨_, _, hmany _ _, Exec.bind_ok_iff.2 ⟨(), _, Exec.lift_ok_iff.2
    ⟨ht, rfl⟩, rfl⟩⟩⟩⟩⟩

/-! ## Written files -/

/-- The blocks of one segment at its locations. -/
theorem holds_segmentLocations {data : Bytes} {index offset length : ℕ} {group : List Bytes}
    (hu : unpackSegment (slice data offset length) = .ok group)
    (hs : HasSegment data offset length) (ho : offset < 2 ^ 63) (hl : length < 2 ^ 32)
    (hg : group.length ≤ SEGMENT_BLOCKS) :
    List.Forall₂ (Holds data index) group (segmentLocations index offset length group.length) := by
  rw [List.forall₂_iff_get]
  refine ⟨by simp [segmentLocations], fun i h₁ h₂ => ?_⟩
  have hloc : (segmentLocations index offset length group.length).get ⟨i, h₂⟩ =
      ⟨index, offset, length, i⟩ := by simp [segmentLocations]
  rw [hloc]
  exact ⟨rfl, ⟨group, hu, List.getElem?_eq_getElem h₁⟩, hs, ho, hl, lt_of_lt_of_le h₁ hg⟩

theorem holds_locationsFrom {data : Bytes} (index : ℕ) : ∀ {l : List (List Bytes × Bytes)}
    {a c : Bytes}, data = a ++ ((l.map Prod.snd).flatten ++ c) →
      (∀ p ∈ l, unpackSegment p.2 = .ok p.1 ∧ p.1.length ≤ SEGMENT_BLOCKS ∧ p.2.length < 2 ^ 32) →
      (∀ r ∈ rowsFrom a.length (l.map Prod.snd), HasSegment data r.1 r.2 ∧ r.1 < 2 ^ 63) →
      List.Forall₂ (Holds data index) (l.flatMap Prod.fst) (locationsFrom index a.length l)
  | [], _, _, _, _, _ => .nil
  | (group, segment) :: l, a, c, hd, hp, hr => by
    obtain ⟨hu, hg, hl⟩ := hp _ List.mem_cons_self
    obtain ⟨hs, ho⟩ := hr _ List.mem_cons_self
    have hslice : slice data a.length segment.length = segment := by
      rw [hd, List.map_cons, List.flatten_cons, List.append_assoc]
      exact slice_middle a segment _
    refine List.rel_append (holds_segmentLocations (by rw [hslice]; exact hu) hs ho hl hg) ?_
    have hd' : data = (a ++ segment) ++ ((l.map Prod.snd).flatten ++ c) := by
      rw [hd, List.map_cons, List.flatten_cons]
      simp only [List.append_assoc]
    have := holds_locationsFrom index hd' (fun p h => hp p (List.mem_cons_of_mem _ h))
      fun r h => hr r (List.mem_cons_of_mem _ (by rwa [List.length_append] at h))
    rwa [List.length_append] at this

/-- The head of a file that `encodeChunk` writes. -/
def encodedHead (networkId index firstHeight count segmentCount : ℕ) (root : Digest) : ChunkHead :=
  ⟨networkId, index, firstHeight, count, root, segmentCount⟩

/-- What `encodeChunk` returns: the file, its segments, its segment table
and the locations in it. -/
structure EncodedChunk (index : ℕ) (blocks : List Bytes) (data : Bytes)
    (locations : List ChunkLocation) (segments : List Bytes) : Prop where
  packed : List.Forall₂ (fun g s => packSegment g = .ok s) (groups blocks) segments
  index_lt : index < 256 ^ 4
  table : segmentTable data = rowsFrom (HEADER_BYTES + 12 * segments.length) segments
  row_lt : ∀ r ∈ rowsFrom (HEADER_BYTES + 12 * segments.length) segments,
    r.1 < 2 ^ 63 ∧ r.2 < 2 ^ 32
  locations_eq : locations =
    locationsFrom index (HEADER_BYTES + 12 * segments.length) ((groups blocks).zip segments)
  layout : ∃ a c : Bytes, a.length = HEADER_BYTES + 12 * segments.length ∧
    data = a ++ (segments.flatten ++ c)

omit [Primitives] in
theorem length_rows_flatMap (rows : List (ℕ × ℕ)) : (rows.flatMap rowBytes).length = 12 * rows.length := by
  induction rows with
  | nil => rfl
  | cons r rows ih =>
    simp only [List.flatMap_cons, List.length_append, rowBytes, length_beBytes, ih, List.length_cons]
    omega

omit [Primitives] in
theorem rowsFrom_le : ∀ {segments : List Bytes} {offset : ℕ},
    (∀ r ∈ rowsFrom offset segments, r.2 < 2 ^ 32) →
      ∀ r ∈ rowsFrom offset segments, r.1 ≤ offset + segments.length * 2 ^ 32
  | [], _, _ => fun _ h => (nomatch h)
  | s :: segments, offset, h => by
    intro r hr
    have hs : s.length < 2 ^ 32 := h _ List.mem_cons_self
    rw [List.length_cons]
    rcases List.mem_cons.1 hr with rfl | hr
    · dsimp only; omega
    · have := rowsFrom_le (fun r h' => h r (List.mem_cons_of_mem _ h')) r hr
      omega

theorem packSegment_ok {g : List Bytes} {s : Bytes} (h : packSegment g = .ok s) :
    (inflate s).ending = .complete ∧ s ≠ [] := by
  simp only [packSegment, bind_eq_ok] at h
  obtain ⟨fs, -, h⟩ := h
  cases h
  exact ⟨by rw [Packing.inflate_deflate], deflate_ne_nil _⟩

theorem encodeChunk_spec {networkId index firstHeight : ℕ} {blocks : List Bytes} {data : Bytes}
    {locations : List ChunkLocation}
    (h : encodeChunk networkId index firstHeight blocks = .ok (data, locations)) :
    ∃ segments, EncodedChunk index blocks data locations segments := by
  simp only [encodeChunk, bind_eq_ok] at h
  obtain ⟨segments, hseg, root, hroot, ⟨table, locs⟩, hlay, n, hn, i, hi, f, hf, c, hc, k, hk, h⟩ := h
  rw [mapM_eq_ok] at hseg
  have hlen : (groups blocks).length = segments.length := hseg.length_eq
  have hsnd : ((groups blocks).zip segments).map Prod.snd = segments :=
    List.map_snd_zip (le_of_eq hlen.symm)
  obtain ⟨hrows, htab, hlocs⟩ := layoutSegments_ok hlay
  rw [hsnd] at hrows htab
  subst htab hlocs
  clear hlay
  obtain ⟨hn', rfl⟩ := uintBytes_ok_iff.1 hn
  obtain ⟨hi', rfl⟩ := uintBytes_ok_iff.1 hi
  obtain ⟨hf', rfl⟩ := uintBytes_ok_iff.1 hf
  obtain ⟨hc', rfl⟩ := uintBytes_ok_iff.1 hc
  obtain ⟨hk', rfl⟩ := uintBytes_ok_iff.1 hk
  obtain ⟨hflat, hgroups, hcount⟩ := groups_spec blocks
  have hne : blocks ≠ [] := by
    rintro rfl
    cases hroot
  have hpos : 0 < blocks.length := List.length_pos_iff.2 hne
  have h64 : (groups blocks).length = (blocks.length + 64 - 1) / 64 := hcount
  have hHB : HEADER_BYTES = 61 := rfl
  have hseg' : ∀ s ∈ segments, (inflate s).ending = .complete ∧ s ≠ [] := by
    intro s hs
    rw [← hsnd] at hs
    obtain ⟨p, hp, rfl⟩ := List.mem_map.1 hs
    exact packSegment_ok (List.forall₂_zip hseg hp)
  have hr32 : ∀ r ∈ rowsFrom (HEADER_BYTES + 12 * segments.length) segments, r.2 < 2 ^ 32 :=
    fun r hr => (hrows r hr).2
  have hrow : ∀ r ∈ rowsFrom (HEADER_BYTES + 12 * segments.length) segments,
      r.1 < 2 ^ 63 ∧ r.2 < 2 ^ 32 := by
    intro r hr
    have := rowsFrom_le hr32 r hr
    exact ⟨by omega, hr32 r hr⟩
  have hrowslen := length_rowsFrom segments (HEADER_BYTES + 12 * segments.length)
  generalize hrowsdef : rowsFrom (HEADER_BYTES + 12 * segments.length) segments = rows at *
  -- the body as head, table and segments
  let head : ChunkHead := ⟨networkId, index, firstHeight, blocks.length, root, segments.length⟩
  have hbody : ∀ t : Bytes, MAGIC ++ beBytes 1 networkId ++ beBytes 4 index ++ beBytes 8 firstHeight ++
      beBytes 4 blocks.length ++ root.1 ++ beBytes 4 segments.length ++ rows.flatMap rowBytes ++ t =
        headBytes head ++ (rows.flatMap rowBytes ++ t) := by
    intro t
    simp only [headBytes, List.append_assoc, head]
  have hlenBody : (headBytes head ++ (rows.flatMap rowBytes ++ segments.flatten)).length =
      HEADER_BYTES + 12 * segments.length + segments.flatten.length := by
    rw [List.length_append, List.length_append, length_headBytes, length_rows_flatMap, hrowslen]
    omega
  have hhead : checkChunkHead (headBytes head ++ (rows.flatMap rowBytes ++ segments.flatten)).length
      none head = .ok () := by
    rw [hlenBody]
    unfold checkChunkHead
    rw [if_neg (by simp [head]; omega), if_neg (by simp only [head]; rw [← hlen, hcount]; simp),
      if_neg (by simp only [head]; omega)]
  have htable : checkChunkTable (headBytes head ++ (rows.flatMap rowBytes ++ segments.flatten)).length
      rows = .ok () := by
    rw [hlenBody, ← hrowsdef]
    unfold checkChunkTable
    rw [length_rowsFrom, checkLayout_rowsFrom (fun s hs => (hseg' s hs).2) le_rfl]
    exact if_neg (fun h => h rfl)
  have hread := readSegmentTable_of head rows segments.flatten none (reads_head hn' hi' hf' hc' hk')
    hrows hrowslen hhead htable
  simp only [hbody] at h
  obtain ⟨rfl, hl⟩ := Prod.mk.inj (Except.ok.inj h)
  subst hl
  refine ⟨segments, hseg, hi', ?_, hrowsdef ▸ hrow, rfl, headBytes head ++ rows.flatMap rowBytes,
    (sha256 (headBytes head ++ (rows.flatMap rowBytes ++ segments.flatten))).1, ?_, ?_⟩
  · unfold segmentTable
    rw [List.length_append, (sha256 _).2, Nat.add_sub_cancel, List.take_left' rfl]
    dsimp only
    rw [hread, hrowsdef]
  · rw [List.length_append, length_headBytes, length_rows_flatMap, hrowslen]
  · simp only [List.append_assoc]

namespace EncodedChunk

variable {index : ℕ} {blocks : List Bytes} {data : Bytes} {locations : List ChunkLocation}
  {segments : List Bytes}

/-- Every row of the table is a segment of the file. -/
theorem hasSegment (h : EncodedChunk index blocks data locations segments) :
    ∀ r ∈ rowsFrom (HEADER_BYTES + 12 * segments.length) segments, HasSegment data r.1 r.2 := by
  intro r hr
  refine ⟨by rw [h.table]; exact hr, ?_⟩
  obtain ⟨a, c, ha, hd⟩ := h.layout
  rw [← ha] at hr
  obtain ⟨s, hs, he⟩ := slice_of_mem_rowsFrom (c := c) hr
  have hsnd : ((groups blocks).zip segments).map Prod.snd = segments :=
    List.map_snd_zip (le_of_eq h.packed.length_eq.symm)
  rw [hd, he]
  rw [← hsnd] at hs
  obtain ⟨p, hp, rfl⟩ := List.mem_map.1 hs
  exact (packSegment_ok (List.forall₂_zip h.packed hp)).1

/-- **A written file holds its blocks** at the locations returned for
them, where the blocks have sizes a segment can hold. -/
theorem holds (h : EncodedChunk index blocks data locations segments) (hb : Packable blocks) :
    List.Forall₂ (Holds data index) blocks locations := by
  obtain ⟨a, c, ha, hd⟩ := h.layout
  have hlen := h.packed.length_eq
  have hsnd : ((groups blocks).zip segments).map Prod.snd = segments :=
    List.map_snd_zip (le_of_eq hlen.symm)
  have hfst : ((groups blocks).zip segments).flatMap Prod.fst = blocks := by
    rw [List.flatMap_def, List.map_fst_zip (le_of_eq hlen), (groups_spec blocks).1]
  have hpair : ∀ p ∈ (groups blocks).zip segments, unpackSegment p.2 = .ok p.1 ∧
      p.1.length ≤ SEGMENT_BLOCKS ∧ p.2.length < 2 ^ 32 := by
    intro p hp
    obtain ⟨hg, hmem⟩ := (groups_spec blocks).2.1 p.1 (List.of_mem_zip hp).1
    have hpack : Packable p.1 := fun b hb' => hb b (hmem b hb')
    obtain ⟨h1, h2⟩ := unpackSegment_packSegment hpack hg
    have hs := (List.forall₂_zip h.packed hp).symm.trans h1
    rw [Except.ok.injEq] at hs
    rw [hs]
    refine ⟨h2, hg, (Packing.length_deflate _ ?_).2⟩
    exact (length_frames hpack).trans (Nat.mul_le_mul_right _ hg)
  rw [h.locations_eq]
  have hr := fun r hr => And.intro (h.hasSegment r hr) (h.row_lt r hr).1
  rw [← ha] at hr ⊢
  have hd' : data = a ++ ((((groups blocks).zip segments).map Prod.snd).flatten ++ c) := by
    rw [hsnd]; exact hd
  have := holds_locationsFrom index hd' hpair (by rw [hsnd]; exact hr)
  rwa [hfst] at this

end EncodedChunk

/-- Every location that `encodeChunk` returns belongs to the file. -/
theorem hasSegment_encodeChunk {networkId index firstHeight : ℕ} {blocks : List Bytes}
    {data : Bytes} {locations : List ChunkLocation}
    (h : encodeChunk networkId index firstHeight blocks = .ok (data, locations)) :
    ∀ l ∈ locations, HasSegment data l.segmentOffset l.segmentLength := by
  obtain ⟨segments, he⟩ := encodeChunk_spec h
  have hsnd : ((groups blocks).zip segments).map Prod.snd = segments :=
    List.map_snd_zip (le_of_eq he.packed.length_eq.symm)
  have hmem : ∀ (l : List (List Bytes × Bytes)) (offset : ℕ), ∀ loc ∈ locationsFrom index offset l,
      (loc.segmentOffset, loc.segmentLength) ∈ rowsFrom offset (l.map Prod.snd) := by
    intro l
    induction l with
    | nil => intro _ _ h; cases h
    | cons p l ih =>
      intro offset loc hloc
      rcases List.mem_append.1 hloc with hloc | hloc
      · obtain ⟨i, -, rfl⟩ := List.mem_map.1 hloc
        exact List.mem_cons_self
      · exact List.mem_cons_of_mem _ (ih _ _ hloc)
  intro loc hloc
  rw [he.locations_eq] at hloc
  have := hmem _ _ loc hloc
  rw [hsnd] at this
  exact he.hasSegment _ this

/-- Blocks of the right sizes can be written. -/
theorem encodeChunk_isOk {networkId index firstHeight : ℕ} {blocks : List Bytes}
    (hn : networkId < 256 ^ 1) (hi : index < 256 ^ 4) (hf : firstHeight < 256 ^ 8)
    (hc : blocks.length < 256 ^ 4) (hne : blocks ≠ []) (hb : Packable blocks) :
    ∃ r, encodeChunk networkId index firstHeight blocks = .ok r := by
  obtain ⟨-, hgroups, hcount⟩ := groups_spec blocks
  have hpack : ∀ g ∈ groups blocks, packSegment g = .ok (deflate (frames g)) ∧
      (deflate (frames g)).length < 256 ^ 4 := by
    intro g hg
    obtain ⟨hg64, hmem⟩ := hgroups g hg
    have hpg : Packable g := fun b hb' => hb b (hmem b hb')
    exact ⟨(unpackSegment_packSegment hpg hg64).1, (Packing.length_deflate _
      ((length_frames hpg).trans (Nat.mul_le_mul_right _ hg64))).2⟩
  have hseg : (groups blocks).mapM packSegment =
      .ok ((groups blocks).map fun g => deflate (frames g)) := by
    rw [mapM_eq_ok, List.forall₂_map_right_iff, List.forall₂_same]
    exact fun g hg => (hpack g hg).1
  have hlay : ∀ (gs : List (List Bytes)) (offset : ℕ),
      (∀ g ∈ gs, (deflate (frames g)).length < 256 ^ 4) → offset + gs.length * 2 ^ 32 < 256 ^ 8 →
      ∃ r, layoutSegments index offset (gs.zip (gs.map fun g => deflate (frames g))) = .ok r := by
    intro gs
    induction gs with
    | nil => intro _ _ _; exact ⟨_, rfl⟩
    | cons g gs ih =>
      intro offset hg ho
      have hg0 := hg g List.mem_cons_self
      rw [List.length_cons] at ho
      obtain ⟨r, hr⟩ := ih (offset + (deflate (frames g)).length)
        (fun g' h => hg g' (List.mem_cons_of_mem _ h)) (by omega)
      refine ⟨_, bind_eq_ok.2 ⟨_, uintBytes_ok_iff.2 ⟨by omega, rfl⟩, bind_eq_ok.2
        ⟨_, uintBytes_ok_iff.2 ⟨hg0, rfl⟩, bind_eq_ok.2 ⟨r, hr, rfl⟩⟩⟩⟩
  have h64 : (groups blocks).length = (blocks.length + 64 - 1) / 64 := hcount
  have hHB : HEADER_BYTES = 61 := rfl
  obtain ⟨r, hr⟩ := hlay (groups blocks) (HEADER_BYTES + 12 * (groups blocks).length)
    (fun g hg => (hpack g hg).2) (by omega)
  obtain ⟨root, hroot⟩ : ∃ d, merkleRoot (blocks.map fun b => (blockIdOf b).1) = .ok d :=
    merkleRoot_isOk (by simpa using hne)
  have hk : ((groups blocks).map fun g => deflate (frames g)).length < 256 ^ 4 := by
    rw [List.length_map]; omega
  refine ⟨_, bind_eq_ok.2 ⟨_, hseg, bind_eq_ok.2 ⟨_, hroot, bind_eq_ok.2 ⟨r, ?_, bind_eq_ok.2
    ⟨_, uintBytes_ok_iff.2 ⟨hn, rfl⟩, bind_eq_ok.2 ⟨_, uintBytes_ok_iff.2 ⟨hi, rfl⟩, bind_eq_ok.2
    ⟨_, uintBytes_ok_iff.2 ⟨hf, rfl⟩, bind_eq_ok.2 ⟨_, uintBytes_ok_iff.2 ⟨hc, rfl⟩, bind_eq_ok.2
    ⟨_, uintBytes_ok_iff.2 ⟨hk, rfl⟩, rfl⟩⟩⟩⟩⟩⟩⟩⟩⟩
  rw [List.length_map]
  exact hr

/-! ## Accepted files -/

omit [Primitives] in
theorem splitSegment_ok : ∀ {room : ℕ} {raw : Bytes} {blocks : List Bytes},
    splitSegment room raw = .ok blocks → Packable blocks ∧ blocks.length ≤ room
  | room, [], blocks, h => by
    have hb : blocks = [] := by
      cases room <;> exact (Except.ok.inj h).symm
    rw [hb]
    exact ⟨fun _ h => (nomatch h), Nat.zero_le _⟩
  | 0, _ :: _, _, h => nomatch h
  | room + 1, x :: xs, blocks, h => by
    rw [splitSegment] at h
    split at h
    · cases h
    · dsimp only at h
      split at h
      · cases h
      · rename_i h4 hlen
        split at h
        · cases h
        · rename_i rest hrest
          obtain ⟨hp, hl⟩ := splitSegment_ok hrest
          cases h
          refine ⟨fun b hb => ?_, Nat.succ_le_succ hl⟩
          rcases List.mem_cons.1 hb with rfl | hb
          · rw [slice, List.length_take, List.length_drop]
            omega
          · exact hp b hb

omit [Primitives] in
theorem unpackSegment_ok [Library] {data : Bytes} {m : ℕ} {g : List Bytes}
    (h : unpackSegment data m = .ok g) : Packable g ∧ g.length ≤ SEGMENT_BLOCKS := by
  unfold unpackSegment at h
  dsimp only at h
  split_ifs at h
  exact splitSegment_ok h

/-- What `decodeChunk` accepts: the file holds the blocks at the locations
returned, and the blocks form a chain. -/
structure DecodedChunk (data : Bytes) (chunk : ChunkFile) : Prop where
  holds : List.Forall₂ (Holds data chunk.index) chunk.blocks chunk.locations
  packable : Packable chunk.blocks
  index_lt : chunk.index < 256 ^ 4
  chain : checkChain chunk.firstHeight none chunk.blocks = .ok ()

end TalCash
