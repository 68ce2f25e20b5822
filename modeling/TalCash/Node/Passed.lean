import TalCash.Core.Canonical
import TalCash.Node.ChunkLayout
import TalCash.Node.Chain
/-!
# What a checked chunk is

A chunk file that passed `checkChunkFile` holds a full day of blocks that
follow one another, each at its location, as the bytes it is written as,
and each with the proof of work its header claims.
-/

namespace TalCash

variable [Primitives] {params : NetworkParams} {checked : CheckedChunk} {b block : Block}

/-- What `checkChain` finds of the blocks from a height on. -/
structure Chained (height : ℕ) (previousId : Option Digest) (blocks : List Block) : Prop where
  heights : ∀ i b, blocks[i]? = some b → b.height = height + i
  first : ∀ id b, previousId = some id → blocks.head? = some b → b.header.prevId = id
  linked : List.IsChain (fun p b => b.header.prevId = p.blockId) blocks

/-- A chunk that passed `checkChunkFile`. -/
structure PassedChunk (params : NetworkParams) (checked : CheckedChunk) : Prop where
  decoded : DecodedChunk checked.data checked.chunk
  networkId : checked.chunk.networkId = params.networkId
  length : checked.blocks.length = params.chunkSize
  bytes : checked.chunk.blocks = checked.blocks.map Block.serialize
  pow : ∀ b ∈ checked.blocks, meetsTarget b.header params.pow = true
  chained : Chained (checked.chunk.index * params.chunkSize) none checked.blocks

namespace PassedChunk

/-- The location of each block holds its bytes. -/
theorem holds (h : PassedChunk params checked) {i : ℕ} {l : ChunkLocation}
    (hb : checked.blocks[i]? = some b) (hl : checked.chunk.locations[i]? = some l) :
    Holds checked.data checked.chunk.index b.serialize l := by
  obtain ⟨hlen, hall⟩ := List.forall₂_iff_zip.1 h.decoded.holds
  refine hall (List.mem_iff_getElem?.2 ⟨i, ?_⟩)
  rw [List.getElem?_zip_eq_some]
  refine ⟨?_, hl⟩
  rw [h.bytes, List.getElem?_map, hb]
  rfl

theorem height_eq (h : PassedChunk params checked) {i : ℕ} (hb : checked.blocks[i]? = some b) :
    b.height = checked.chunk.index * params.chunkSize + i := h.chained.heights i b hb

/-- The blocks of a chunk have different ids, where their headers do not
collide. -/
theorem ids_nodup (h : PassedChunk params checked)
    (hS : CollisionFree {m | ∃ b ∈ checked.blocks, m ∈ b.messages}) :
    (checked.blocks.map Block.blockId).Nodup := by
  rw [List.nodup_iff_pairwise_ne, List.pairwise_map, List.pairwise_iff_getElem]
  intro i j hi hj hij he
  have hhead := header_eq_of_blockId_eq hS ⟨_, List.getElem_mem hi, Block.header_mem_messages _⟩
    ⟨_, List.getElem_mem hj, Block.header_mem_messages _⟩ he
  have hhi := h.height_eq (List.getElem?_eq_getElem hi)
  have hhj := h.height_eq (List.getElem?_eq_getElem hj)
  rw [Block.height, hhead, ← Block.height, hhj] at hhi
  omega

end PassedChunk

end TalCash
