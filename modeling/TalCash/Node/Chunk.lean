import TalCash.Core.Snapshot
/-!
# Chunk files

The bytes of a sealed chunk: segments of up to 64 blocks, each packed by
zlib, behind a table of their offsets. `encodeChunk` writes them and
`decodeChunk` verifies them.
-/

namespace TalCash

open BigEndian

variable [Library]

/-! ## Layout -/

def MAGIC : Bytes := "TCCHUNK1".toUTF8.toList
def SEGMENT_BLOCKS : ℕ := 64
/-- `_HEADER_BYTES`: the fields before the segment table. -/
def HEADER_BYTES : ℕ := 8 + 1 + 4 + 8 + 4 + 32 + 4
def MAX_SEGMENT_BYTES : ℕ := SEGMENT_BLOCKS * (1000000 + 4)

/-- Where a block sits inside a chunk file. -/
structure ChunkLocation where
  chunk : ℕ
  segmentOffset : ℕ
  segmentLength : ℕ
  position : ℕ
deriving DecidableEq

/-- A chunk file taken apart. -/
structure ChunkFile where
  networkId : ℕ
  index : ℕ
  firstHeight : ℕ
  blocks : List Bytes
  locations : List ChunkLocation
  root : Digest

/-- `block_id_of`. -/
def blockIdOf (blockBytes : Bytes) : Digest := sha256 (blockBytes.take HEADER_SIZE)

/-- `data[offset:offset + length]`. -/
def slice (data : Bytes) (offset length : ℕ) : Bytes := (data.drop offset).take length

/-- The locations of a segment's blocks. -/
def segmentLocations (index offset length count : ℕ) : List ChunkLocation :=
  (List.range count).map fun position => ⟨index, offset, length, position⟩

/-! ## Segments -/

/-- What is packed for one block. -/
def framed (block : Bytes) : Except PyError Bytes := do
  let length ← toBytes block.length 4
  pure (length ++ block)

/-- `_pack_segment`. -/
def packSegment (blocks : List Bytes) : Except PyError Bytes := do
  let frames ← blocks.mapM framed
  pure (deflate frames.flatten)

/-- The loop of `_unpack_segment`, with room for so many blocks. -/
def splitSegment : (room : ℕ) → Bytes → Except PyError (List Bytes)
  | _, [] => .ok []
  | 0, _ :: _ => .error (.zlib "invalid segment block count or length")
  | room + 1, raw@(_ :: _) =>
    if raw.length < 4 then .error (.zlib "invalid segment block count or length")
    else
      let length := beNat (raw.take 4)
      if length < 1 ∨ 1000000 < length ∨ raw.length < 4 + length then
        .error (.zlib "invalid block length in segment")
      else
        match splitSegment room (raw.drop (4 + length)) with
        | .error e => .error e
        | .ok rest => .ok (slice raw 4 length :: rest)

/-- `_unpack_segment`. -/
def unpackSegment (data : Bytes) (maxBytes : ℕ := MAX_SEGMENT_BYTES) :
    Except PyError (List Bytes) :=
  let out := inflate data
  let limit := min maxBytes MAX_SEGMENT_BYTES + 1
  let raw := out.raw.take limit
  if out.ending = .corrupt ∧ out.raw.length < limit then .error (.zlib "invalid stream")
  else if MAX_SEGMENT_BYTES < raw.length then
    .error (.zlib "segment unpacks to more than 64 full blocks")
  else if maxBytes < raw.length then .error (.chunkTooLarge "chunk exceeds the decoded byte budget")
  else if out.ending ≠ .complete then
    .error (.zlib "segment is cut short or has extra bytes")
  else splitSegment SEGMENT_BLOCKS raw

/-! ## Writing a chunk file -/

/-- `[blocks[i:i + SEGMENT_BLOCKS] for i in range(0, len(blocks), SEGMENT_BLOCKS)]`. -/
def groupsFrom : ℕ → List Bytes → List (List Bytes)
  | 0, _ => []
  | n + 1, blocks =>
    if blocks.isEmpty then []
    else blocks.take SEGMENT_BLOCKS :: groupsFrom n (blocks.drop SEGMENT_BLOCKS)

/-- The groups a chunk's blocks are packed in. -/
def groups (blocks : List Bytes) : List (List Bytes) := groupsFrom blocks.length blocks

/-- The segment table and the locations, of segments from `offset` on. -/
def layoutSegments (index : ℕ) : (offset : ℕ) → List (List Bytes × Bytes) →
    Except PyError (Bytes × List ChunkLocation)
  | _, [] => .ok ([], [])
  | offset, (group, segment) :: rest => do
    let entryOffset ← uintBytes offset 8
    let entryLength ← uintBytes segment.length 4
    let (table, locations) ← layoutSegments index (offset + segment.length) rest
    pure (entryOffset ++ entryLength ++ table,
      segmentLocations index offset segment.length group.length ++ locations)

/-- `encode_chunk`. -/
def encodeChunk (networkId index firstHeight : ℕ) (blocks : List Bytes) :
    Except PyError (Bytes × List ChunkLocation) := do
  let segments ← (groups blocks).mapM packSegment
  let root ← merkleRoot (blocks.map fun b => (blockIdOf b).1)
  let (table, locations) ←
    layoutSegments index (HEADER_BYTES + 12 * segments.length) ((groups blocks).zip segments)
  let networkIdBytes ← uintBytes networkId 1
  let indexBytes ← uintBytes index 4
  let firstHeightBytes ← uintBytes firstHeight 8
  let countBytes ← uintBytes blocks.length 4
  let segmentCountBytes ← uintBytes segments.length 4
  let body := MAGIC ++ networkIdBytes ++ indexBytes ++ firstHeightBytes ++ countBytes ++ root.1 ++
    segmentCountBytes ++ table ++ segments.flatten
  pure (body ++ (sha256 body).1, locations)

/-! ## Reading a chunk file -/

/-- The fields before the segment table. -/
structure ChunkHead where
  networkId : ℕ
  index : ℕ
  firstHeight : ℕ
  count : ℕ
  root : Digest
  segmentCount : ℕ

/-- The reads of `decode_chunk` before the segment table. -/
def readChunkHead : Reader ChunkHead := do
  let _ ← Reader.fixed 8
  let networkId ← Reader.u8
  let index ← Reader.u32
  let firstHeight ← Reader.u64
  let count ← Reader.u32
  let root ← Reader.fixed 32
  let segmentCount ← Reader.u32
  pure ⟨networkId.1, index.1, firstHeight.1, count.1, root, segmentCount.1⟩

/-- One row of the segment table. -/
def readTableRow : Reader (ℕ × ℕ) := do
  let offset ← Reader.u64
  let length ← Reader.u32
  pure (offset.1, length.1)

/-- The layout check of `decode_chunk`: where the segments end. -/
def checkLayout (bodyLength : ℕ) : (expectedOffset : ℕ) → List (ℕ × ℕ) → Except PyError ℕ
  | expectedOffset, [] => .ok expectedOffset
  | expectedOffset, (offset, length) :: rest =>
    if offset ≠ expectedOffset ∨ length = 0 ∨ bodyLength < offset + length then
      .error (.chunk "invalid segment layout")
    else checkLayout bodyLength (expectedOffset + length) rest

/-- The checks of `decode_chunk` before the segment table is read. -/
def checkChunkHead (bodyLength : ℕ) (maxBlocks : Option ℕ) (head : ChunkHead) :
    Except PyError Unit :=
  if head.count = 0 ∨ maxBlocks.any fun most => most < head.count then
    .error (.chunk "wrong number of blocks")
  else if head.segmentCount ≠ (head.count + SEGMENT_BLOCKS - 1) / SEGMENT_BLOCKS then
    .error (.chunk "wrong number of segments")
  else if bodyLength < HEADER_BYTES + 12 * head.segmentCount then
    .error (.chunk "truncated segment table")
  else .ok ()

/-- The checks of `decode_chunk` on the segment table. -/
def checkChunkTable (bodyLength : ℕ) (table : List (ℕ × ℕ)) : Except PyError Unit := do
  let endOffset ← checkLayout bodyLength (HEADER_BYTES + 12 * table.length) table
  if endOffset ≠ bodyLength then .error (.chunk "extra bytes after segments") else .ok ()

/-- The head and the verified segment table of a chunk file's body. -/
def readSegmentTable (body : Bytes) (maxBlocks : Option ℕ) :
    Reader (ChunkHead × List (ℕ × ℕ)) := do
  let head ← readChunkHead
  Exec.lift (checkChunkHead body.length maxBlocks head)
  let table ← Reader.many readTableRow head.segmentCount
  Exec.lift (checkChunkTable body.length table.1)
  pure (head, table.1)

/-- The segment loop of `decode_chunk`: the blocks and their locations. -/
def readSegments (body : Bytes) (index count : ℕ) (maxDecodedBytes : Option ℕ) :
    (decodedBytes found : ℕ) → List (ℕ × ℕ) → Except PyError (List (Bytes × ChunkLocation))
  | _, _, [] => .ok []
  | decodedBytes, found, (offset, length) :: rest => do
    let remaining := match maxDecodedBytes with
      | none => MAX_SEGMENT_BYTES
      | some most => most - decodedBytes
    let group ← unpackSegment (slice body offset length) remaining
    if group.length ≠ min SEGMENT_BLOCKS (count - found) then
      .error (.chunk "wrong number of blocks in segment")
    else do
      let decoded := (group.map fun block => block.length + 4).sum
      let others ← readSegments body index count maxDecodedBytes (decodedBytes + decoded)
        (found + group.length) rest
      pure (group.zip (segmentLocations index offset length group.length) ++ others)

/-- `except (DecodeError, zlib.error)`, in `decode_chunk`. -/
def PyError.asChunkError : PyError → PyError
  | .decode error => .chunk s!"unreadable chunk: {error}"
  | .zlib error => .chunk s!"unreadable chunk: {error}"
  | e => e

/-- The last loop of `decode_chunk`: the blocks form a chain. -/
def checkChain : (height : ℕ) → (previousId : Option Digest) → List Bytes → Except PyError Unit
  | _, _, [] => .ok ()
  | height, previousId, block :: rest =>
    match headerFromBytes (block.take HEADER_SIZE) with
    | .error _ => .error (.chunk s!"unreadable block header at height {height}")
    | .ok header =>
      if header.height ≠ height ∨ previousId.any fun id => id ≠ header.prevId then
        .error (.chunk s!"blocks don't form a chain at height {height}")
      else checkChain (height + 1) (some header.blockId) rest

/-- The part of `decode_chunk` inside its `try`. -/
def decodeBody (body : Bytes) (maxBlocks maxDecodedBytes : Option ℕ) :
    Except PyError (ChunkHead × List (Bytes × ChunkLocation)) := do
  let (head, table) ← Exec.outcome (readSegmentTable body maxBlocks) ⟨0, body⟩
  let found ← readSegments body head.index head.count maxDecodedBytes 0 0 table
  pure (head, found)

/-- `decode_chunk`. -/
def decodeChunk (data : Bytes) (maxBlocks maxDecodedBytes : Option ℕ) :
    Except PyError ChunkFile :=
  if data.length < HEADER_BYTES + 32 ∨ ¬ MAGIC <+: data then
    .error (.chunk "not a TalCash chunk file")
  else
    let body := data.take (data.length - 32)
    let checksum := data.drop (data.length - 32)
    if (sha256 body).1 ≠ checksum then
      .error (.chunk "checksum mismatch: the file is damaged or was changed")
    else
      match decodeBody body maxBlocks maxDecodedBytes with
      | .error e => .error e.asChunkError
      | .ok (head, found) =>
        let blocks := found.map Prod.fst
        if blocks.length ≠ head.count ∨ blocks.isEmpty then .error (.chunk "wrong number of blocks")
        else do
          let root ← merkleRoot (blocks.map fun b => (blockIdOf b).1)
          if root ≠ head.root then .error (.chunk "chunk root mismatch")
          else do
            checkChain head.firstHeight none blocks
            pure ⟨head.networkId, head.index, head.firstHeight, blocks, found.map Prod.snd, root⟩

end TalCash
