import TalCash.Node.Chunk
/-!
# Block files and their caches

The files of a node and the two caches in front of them: recent blocks by
name, unpacked segments by chunk index and offset. A missing file raises
`KeyError` in memory and `FileNotFoundError` on disk; `PyError.key`
stands for both.
-/

namespace TalCash

variable [Primitives]

def RECENT_CACHE_BYTES : ℕ := 64 * 1024 * 1024

/-- `recent_name` and `chunk_name`. -/
inductive FileName
  | recent (height : ℕ) (blockId : Digest)
  | chunk (index : ℕ)
deriving DecidableEq

/-- `BlockFiles`: the files, `_segments`, `_recent_cache` and its size. -/
structure BlockFiles where
  disk : Table FileName Bytes := ∅
  segments : Table (ℕ × ℕ) (List Bytes) := ∅
  recentCache : Table FileName Bytes := ∅
  recentCacheBytes : ℕ := 0

/-- Operations on block files. -/
abbrev FilesM (α : Type) := Exec PyError BlockFiles α

namespace BlockFiles

/-- `_cache_drop`. -/
def cacheDrop (name : FileName) : FilesM Unit := modify fun f =>
  match f.recentCache.lookup name with
  | none => f
  | some data =>
    { f with
      recentCache := Table.remove name f.recentCache
      recentCacheBytes := f.recentCacheBytes - data.length }

/-- The loop of `_cache_put`, over a cache of so many entries: the oldest
go until the rest fits. -/
def shrinkCache : (entries : ℕ) → FilesM Unit
  | 0 => do
    let f ← get
    if RECENT_CACHE_BYTES < f.recentCacheBytes then throw .stopIteration
  | entries + 1 => do
    let f ← get
    if RECENT_CACHE_BYTES < f.recentCacheBytes then
      match Table.oldest f.recentCache with
      | none => throw .stopIteration
      | some name => do
        cacheDrop name
        shrinkCache entries

/-- `_cache_put`. -/
def cachePut (name : FileName) (data : Bytes) : FilesM Unit := do
  cacheDrop name
  modify fun f =>
    { f with
      recentCache := Table.put name data f.recentCache
      recentCacheBytes := f.recentCacheBytes + data.length }
  let f ← get
  shrinkCache f.recentCache.entries.length

/-! ## Recent blocks -/

/-- `_write`. -/
def write (name : FileName) (data : Bytes) : FilesM Unit :=
  modify fun f => { f with disk := Table.put name data f.disk }

/-- `_read`. -/
def read (name : FileName) : FilesM Bytes := do
  let f ← get
  match f.disk.lookup name with
  | none => throw .key
  | some data => pure data

/-- `_delete`. -/
def delete (name : FileName) : FilesM Unit :=
  modify fun f => { f with disk := Table.remove name f.disk }

/-- `write_recent`. -/
def writeRecent (block : Block) : FilesM Unit := do
  let name := FileName.recent block.height block.blockId
  let data := block.serialize
  write name data
  cachePut name data

/-- `read_recent`. -/
def readRecent (height : ℕ) (blockId : Digest) : FilesM Bytes := do
  let name := FileName.recent height blockId
  let f ← get
  match f.recentCache.lookup name with
  | none => do
    let data ← read name
    cachePut name data
    pure data
  | some data => do
    -- `move_to_end`
    set { f with recentCache := Table.put name data f.recentCache }
    pure data

/-- `delete_recent`. -/
def deleteRecent (height : ℕ) (blockId : Digest) : FilesM Unit := do
  cacheDrop (.recent height blockId)
  delete (.recent height blockId)

/-! ## Chunks -/

/-- `write_chunk`. -/
def writeChunk (networkId index firstHeight : ℕ) (blocks : List Bytes) :
    FilesM (List ChunkLocation) := do
  let (data, locations) ← Exec.lift (encodeChunk networkId index firstHeight blocks)
  write (.chunk index) data
  pure locations

/-- `save_chunk_bytes`. -/
def saveChunkBytes (index : ℕ) (data : Bytes) : FilesM Unit := write (.chunk index) data

/-- `delete_chunk`. -/
def deleteChunk (index : ℕ) : FilesM Unit := delete (.chunk index)

/-- `has_chunk`. -/
def hasChunk (f : BlockFiles) (index : ℕ) : Bool := (f.disk.lookup (.chunk index)).isSome

/-- A new entry of `_segments`; of more than 64, the oldest goes. -/
def segmentsPut (key : ℕ × ℕ) (blocks : List Bytes) (f : BlockFiles) : BlockFiles :=
  let segments := Table.put key blocks f.segments
  { f with segments := if 64 < segments.entries.length then Table.dropOldest segments else segments }

/-- The segment of a location, from the cache or the file. -/
def readSegment (location : ChunkLocation) : FilesM (List Bytes) := do
  let key := (location.chunk, location.segmentOffset)
  let f ← get
  match f.segments.lookup key with
  | none => do
    let data ← read (.chunk location.chunk)
    let blocks ← Exec.lift
      (unpackSegment (slice data location.segmentOffset location.segmentLength))
    modify (segmentsPut key blocks)
    pure blocks
  | some blocks => do
    -- `move_to_end`
    set { f with segments := Table.put key blocks f.segments }
    pure blocks

/-- `read_from_chunk`. -/
def readFromChunk (location : ChunkLocation) : FilesM Bytes := do
  let blocks ← readSegment location
  match blocks[location.position]? with
  | none => throw .index
  | some block => pure block

end BlockFiles

end TalCash
