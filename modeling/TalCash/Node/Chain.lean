import TalCash.Node.Store
/-!
# The chain manager

The node's view of the chain: receiving blocks, holding and adopting
orphans, switching to the branch with the most work, sealing and
importing chunks. What needs only the store runs in `StoreM`, what needs
the orphans or the clock in `ChainM`. A `while` loop is a recursion on a
bound of its iterations that no reachable state exceeds, and raises
`diverged` beyond it.
-/

namespace TalCash

variable [Primitives]

/-! ## Results -/

inductive Outcome
  | newTip
  | sideBranch
  | duplicate
  | orphan
  | invalid
deriving DecidableEq, Repr

/-- `SubmitResult`: what happened to a block, and what changed on the
active chain. -/
structure SubmitResult where
  outcome : Outcome
  blockId : Digest
  error : Option ValidationError := none
  connected : List Block := []
  disconnected : List Block := []

/-- A chunk file that passed every check that needs no chain state. -/
structure CheckedChunk where
  data : Bytes
  chunk : ChunkFile
  blocks : List Block

/-! ## Checking a chunk file -/

/-- `all_meet_target`. -/
def allMeetTarget (headers : List BlockHeader) (params : PowParams) : Bool :=
  headers.all fun h => meetsTarget h params

/-- `block_from_bytes` with its `DecodeError` turned into a rejection. -/
def chunkBlockFromBytes (data : Bytes) : Except PyError Block :=
  match blockFromBytes data with
  | .error (.decode error) => invalid "bad-chunk" s!"unreadable block: {error}"
  | r => r

/-- `check_chunk_file`. -/
def checkChunkFile (data : Bytes) (params : NetworkParams) (maxDecodedBytes : Option ℕ := none) :
    Except PyError CheckedChunk := do
  let chunk ← decodeChunk data (some params.chunkSize) maxDecodedBytes
  if chunk.networkId ≠ params.networkId then
    invalid "wrong-network" "chunk is from another network"
  else if chunk.firstHeight ≠ chunk.index * params.chunkSize ∨
      chunk.blocks.length ≠ params.chunkSize then
    invalid "bad-chunk" "a chunk holds exactly one full day of blocks"
  else do
    let blocks ← chunk.blocks.mapM chunkBlockFromBytes
    if !allMeetTarget (blocks.map Block.header) params.pow then
      invalid "bad-pow" "a block in the chunk has invalid proof of work"
    else pure ⟨data, chunk, blocks⟩

/-! ## Reading the database -/

namespace Db

variable (params : NetworkParams) (db : Db)

/-- `tip`. -/
def tip : Except PyError HeaderRow :=
  match (db.mainId db.tipHeight).bind db.header with
  | none => .error .assertion
  | some row => .ok row

/-- `finalized_height`; `sealed_height` is `sealedChunks * chunkSize - 1`. -/
def finalizedHeight : ℕ :=
  max (db.tipHeight - params.finalityDepth) (db.sealedChunks * params.chunkSize - 1)

/-- `is_on_main_chain`. -/
def isOnMainChain (blockId : Digest) : Bool :=
  match db.header blockId with
  | none => false
  | some row => db.mainId row.height = some blockId

/-- The timestamps of a stored block and of its ancestors, at most
`count` of them. -/
def recentTimestamps : (count : ℕ) → Option HeaderRow → List ℕ
  | 0, _ => []
  | _ + 1, none => []
  | count + 1, some row =>
    row.header.timestamp ::
      recentTimestamps count (if 0 < row.height then db.header row.header.prevId else none)

/-- `median_time_past` of a stored block. -/
def medianTimePast (blockId : Digest) : Except PyError ℕ :=
  TalCash.medianTimePast (db.recentTimestamps params.medianTimeSpan (db.header blockId))

/-- `expected_target`. -/
def expectedTarget (parent : BlockHeader) : ℕ :=
  nextTarget params (genesisBlock params).header parent

/-- `_check_finality`, from a stored block downwards. -/
def checkFinality : (steps : ℕ) → Option HeaderRow → Except PyError Unit
  | _, none => .error .attribute
  | steps, some current =>
    let finalized := db.finalizedHeight params
    if db.isOnMainChain current.blockId then
      if current.height < finalized then
        invalid "fork-below-finality" s!"history up to height {finalized} is final"
      else .ok ()
    else if current.height ≤ finalized then
      invalid "fork-below-finality" s!"history up to height {finalized} is final"
    else
      match steps with
      | 0 => .error .diverged
      | steps + 1 => checkFinality steps (db.header current.header.prevId)

/-- The checks of `_submit_one` on a block whose parent is not stored. -/
def checkOrphan (now : ℤ) (block : Block) : Except PyError Unit := do
  checkNotInFuture block.header now params
  checkBlock params block

/-- The checks of `_submit_one` on a block whose parent is stored. -/
def checkChild (now : ℤ) (checkPow : Bool) (block : Block) (parent : HeaderRow) :
    Except PyError Unit := do
  checkNotInFuture block.header now params
  db.checkFinality params parent.height (some parent)
  let median ← db.medianTimePast params parent.blockId
  checkHeaderAgainstParent block.header parent.header median (expectedTarget params parent.header)
    params checkPow
  checkBlock params block

/-- The first loop of `_switch_to`: the branch, newest first, and the
height at which it leaves the active chain. -/
def branchFrom : (steps : ℕ) → Option HeaderRow → Except PyError (List Digest × ℕ)
  | _, none => .error .attribute
  | steps, some current =>
    if db.isOnMainChain current.blockId then .ok ([], current.height)
    else
      match steps with
      | 0 => .error .diverged
      | steps + 1 => do
        let (branch, forkHeight) ← branchFrom steps (db.header current.header.prevId)
        pure (current.blockId :: branch, forkHeight)

/-- `_mark_invalid`: the ids still to mark, the next one first. -/
def markInvalid : (steps : ℕ) → List Digest → Db → Except PyError Db
  | _, [], db => .ok db
  | 0, _ :: _, _ => .error .diverged
  | steps + 1, current :: pending, db =>
    let db := db.setStatus current .invalid
    markInvalid steps ((db.children current).reverse ++ pending) db

/-- The writes of `_connect`. -/
def connectBlock (block : Block) (ctx : BlockContext) (db : Db) : Except PyError Db := do
  let changes ← applyBlock block ctx db.getAccount params false
  let db ← db.writeAccounts changes.accounts.rows.reverse
  let db ← db.putUndo block.blockId changes.previous.rows.reverse
  let db ← db.setMain block.height block.blockId
  let db ← db.indexBlock block
  let db := db.setStatus block.blockId .valid
  if isSnapshotPoint block.height params then do
    let root ← stateRoot db.accounts.rows
    db.putSnapshot block.height root
  else pure db

/-- The writes of `_disconnect_tip`. -/
def disconnectBlock (height : ℕ) (block : Block) (db : Db) : Except PyError Db := do
  let (previous, db) ← db.takeUndo block.blockId
  let db ← db.writeAccounts previous
  pure (((db.unindexBlock block).deleteMain height).deleteSnapshot height)

end Db

/-! ## What needs the store only -/

namespace Store

variable (params : NetworkParams)

/-- `main_block`. -/
def mainBlock (height : ℕ) : StoreM (Option Block) := do
  let s ← get
  match s.db.mainId height with
  | none => pure none
  | some id => block id

/-- The coinbase that matures at a height, in `_context`. -/
def maturedCoinbase (height : ℕ) : StoreM (Option Coinbase) := do
  if params.coinbaseMaturity ≤ height then
    let b ← mainBlock (height - params.coinbaseMaturity)
    match b with
    | none => throw .attribute
    | some b => some <$> Exec.lift b.coinbase
  else pure none

/-- The snapshot root a height must carry, in `_context`. -/
def requiredRoot (height : ℕ) (db : Db) : Except PyError Digest :=
  match snapshotHeight height params with
  | none => .ok NO_SNAPSHOT
  | some snap =>
    match db.snapshotRoot snap with
    | none => .error (.runtime s!"snapshot {snap} missing from the active chain")
    | some root => .ok root

/-- `_context`. -/
def context (parent : BlockHeader) : StoreM BlockContext := do
  let height := parent.height + 1
  let matured ← maturedCoinbase params height
  let s ← get
  let root ← Exec.lift (requiredRoot params height s.db)
  let median ← Exec.lift (s.db.medianTimePast params parent.blockId)
  pure ⟨parent, median, Db.expectedTarget params parent, matured, root⟩

/-- `_connect`. -/
def connect (block : Block) : StoreM Unit := do
  let s ← get
  let tip ← Exec.lift s.db.tip
  Exec.require (block.header.prevId = tip.blockId) .assertion
  let ctx ← context params tip.header
  writeDb (Db.connectBlock params block ctx)

/-- `_disconnect_tip`. -/
def disconnectTip : StoreM Block := do
  let s ← get
  let height := s.db.tipHeight
  let b ← mainBlock height
  match b with
  | none => throw .attribute
  | some b => do
    writeDb (Db.disconnectBlock height b)
    pure b

/-- The undoing loop of `_switch_to`. -/
def disconnectTo (forkHeight : ℕ) : (steps : ℕ) → StoreM (List Block)
  | 0 => do
    let s ← get
    if forkHeight < s.db.tipHeight then throw .diverged else pure []
  | steps + 1 => do
    let s ← get
    if forkHeight < s.db.tipHeight then
      let b ← disconnectTip
      let rest ← disconnectTo forkHeight steps
      pure (b :: rest)
    else pure []

/-- One block of the connecting loop of `_switch_to`. -/
def connectStored (blockId : Digest) : StoreM Block := do
  let b ← block blockId
  match b with
  | none => throw .attribute
  | some b => do
    let r ← Exec.attempt (connect params b)
    match r with
    | .ok () => pure b
    | .error (.validation error) => throw (.connectFailed blockId error)
    | .error e => throw e

/-- The transaction of `_switch_to`: what it connected and disconnected. -/
def switch (branch : List Digest) (forkHeight : ℕ) : StoreM (List Block × List Block) := do
  let s ← get
  let disconnected ← disconnectTo forkHeight s.db.tipHeight
  let connected ← branch.mapM (connectStored params)
  pure (connected, disconnected)

/-- The next chunk to seal is final. -/
def sealReady (db : Db) : Bool :=
  (db.sealedChunks + 1) * params.chunkSize - 1 + params.finalityDepth ≤ db.tipHeight

/-- `_seal_ready_chunks`. -/
def sealReadyChunks : (steps : ℕ) → StoreM Unit
  | 0 => do
    let s ← get
    if sealReady params s.db then throw .diverged
  | steps + 1 => do
    let s ← get
    if sealReady params s.db then
      let index := s.db.sealedChunks
      sealChunk params.networkId index (index * params.chunkSize)
        ((index + 1) * params.chunkSize - 1)
      sealReadyChunks steps

/-- `_switch_to`. -/
def switchTo (newTipId : Digest) : StoreM SubmitResult := do
  let s ← get
  let newTip := s.db.header newTipId
  let (branch, forkHeight) ← Exec.lift (s.db.branchFrom (newTip.elim 0 HeaderRow.height) newTip)
  let r ← Exec.attempt (transaction (switch params branch.reverse forkHeight))
  match r with
  | .ok (connected, disconnected) => do
    let s ← get
    sealReadyChunks params (s.db.tipHeight + 1)
    pure { outcome := .newTip, blockId := newTipId, connected, disconnected }
  | .error (.connectFailed blockId error) => do
    let s ← get
    transaction (writeDb (Db.markInvalid (s.db.headers.entries.length + 1) [blockId]))
    pure { outcome := .invalid, blockId := newTipId, error := some error }
  | .error e => throw e

/-- The loop of `apply_chunk`: the blocks it connected. -/
def importBlocks : List (Block × ChunkLocation) → StoreM (List Block)
  | [] => pure []
  | (block, location) :: rest => do
    let s ← get
    if s.db.isOnMainChain block.blockId then
      writeDb (Db.setLocation block.blockId location)
      importBlocks rest
    else do
      let tip ← Exec.lift s.db.tip
      if block.header.prevId ≠ tip.blockId then
        throw (.validation ⟨"chunk-not-next", "the chunk doesn't continue our active chain"⟩)
      if (s.db.header block.blockId).isNone then
        addBlock block (tip.chainWork + blockWork block.header.target) .stored (some location)
      else writeDb (Db.setLocation block.blockId location)
      connect params block
      let added ← importBlocks rest
      pure (block :: added)

/-- The transaction of `apply_chunk`. -/
def importChunk (checked : CheckedChunk) : StoreM (List Block) := do
  let added ← importBlocks params (checked.blocks.zip checked.chunk.locations)
  writeDb fun db => .ok { db with sealedChunks := checked.chunk.index + 1 }
  pure added

/-- `apply_chunk`. -/
def applyChunk (checked : CheckedChunk) : StoreM (List Block) := do
  let s ← get
  let index := checked.chunk.index
  let expected := s.db.sealedChunks
  if index ≠ expected then
    throw (.validation ⟨"chunk-not-next", s!"expected chunk {expected}, got {index}"⟩)
  let wroteFile := !s.files.hasChunk index
  if wroteFile then onFiles (BlockFiles.saveChunkBytes index checked.data)
  let r ← Exec.attempt (transaction (importChunk params checked))
  match r with
  | .ok added => do
    checked.blocks.forM fun b => onFiles (BlockFiles.deleteRecent b.height b.blockId)
    pure added
  | .error (.validation error) => do
    if wroteFile then onFiles (BlockFiles.deleteChunk index)
    throw (.validation error)
  | .error e => throw e

/-- `_init_genesis`, on an empty database. -/
def initGenesis : StoreM Unit := do
  let genesis := genesisBlock params
  transaction do
    addBlock genesis (blockWork genesis.header.target) .valid
    writeDb (Db.setMain 0 genesis.blockId)
    writeDb (Db.indexBlock genesis)
  sealReadyChunks params 1

/-- The store of a fresh node. -/
@[irreducible] def fresh : Store := Exec.final (initGenesis params) {}

end Store

/-! ## Receiving blocks -/

/-- `ChainManager`: the store, the orphans (newest first) and their size,
the headers whose proof of work was checked, and how often the clock was
read. -/
structure Node where
  store : Store
  orphans : Table Digest Block := ∅
  orphanBytes : ℕ := 0
  powChecked : Table Digest Unit := ∅
  clockReads : ℕ := 0

/-- Operations of the chain manager. -/
abbrev ChainM (α : Type) := Exec PyError Node α

namespace Node

def MAX_ORPHANS : ℕ := 256
def MAX_ORPHAN_BYTES : ℕ := 16000000

variable (params : NetworkParams) (clock : ℕ → ℤ)

/-- A fresh node. -/
def fresh : Node where
  store := Store.fresh params

/-- An operation on the store. -/
def onStore {α : Type} (x : StoreM α) : ChainM α :=
  Exec.zoom Node.store (fun store n => { n with store := store }) x

/-- `int(self.clock())`. -/
def readClock : ChainM ℤ := do
  let n ← get
  set { n with clockReads := n.clockReads + 1 }
  pure (clock n.clockReads)

/-- `_invalid`. -/
def rejected (blockId : Digest) (error : ValidationError) : SubmitResult where
  outcome := .invalid
  blockId := blockId
  error := some error

/-- A check whose `ValidationError` becomes the result. -/
def guarded (blockId : Digest) (check : ChainM Unit) (rest : ChainM SubmitResult) :
    ChainM SubmitResult := do
  let r ← Exec.attempt check
  match r with
  | .ok () => rest
  | .error (.validation error) => pure (rejected blockId error)
  | .error e => throw e

/-- `_forget_orphan`. -/
def forgetOrphan (blockId : Digest) : ChainM Block := do
  let n ← get
  match n.orphans.lookup blockId with
  | none => throw .key
  | some b => do
    set { n with orphans := Table.remove blockId n.orphans, orphanBytes := n.orphanBytes - b.size }
    pure b

/-- The loop of `_hold_orphan`: the oldest orphans go, at most all of
them. -/
def makeRoom (size : ℕ) : (orphans : ℕ) → ChainM Unit
  | 0 => pure ()
  | orphans + 1 => do
    let n ← get
    if MAX_ORPHANS ≤ n.orphans.entries.length ∨ MAX_ORPHAN_BYTES < n.orphanBytes + size then
      match Table.oldest n.orphans with
      | none => pure ()
      | some id => do
        let _ ← forgetOrphan id
        makeRoom size orphans

/-- `_hold_orphan`. -/
def holdOrphan (block : Block) : ChainM Unit := do
  let n ← get
  makeRoom block.size n.orphans.entries.length
  modify fun n =>
    { n with
      orphans := Table.put block.blockId block n.orphans
      orphanBytes := n.orphanBytes + block.size }

/-- The orphans that wait for a block, oldest first. -/
def orphansOf (parentId : Digest) (n : Node) : List Block :=
  (n.orphans.rows.reverse.map Prod.snd).filter fun b => b.header.prevId = parentId

/-- `_forget_orphan` of some orphans in turn. -/
def forgetOrphans : List Block → ChainM Unit
  | [] => pure ()
  | b :: rest => do
    let _ ← forgetOrphan b.blockId
    forgetOrphans rest

/-- `_drop_orphans_of`: the ids whose orphans are dropped, the next first. -/
def dropOrphansOf : (steps : ℕ) → List Digest → ChainM Unit
  | _, [] => pure ()
  | 0, _ :: _ => throw .diverged
  | steps + 1, parentId :: doomed => do
    let n ← get
    let dropped := orphansOf parentId n
    forgetOrphans dropped
    dropOrphansOf steps ((dropped.map Block.blockId).reverse ++ doomed)

/-- `_submit_one` of a block whose parent is not stored. -/
def submitOrphan (block : Block) : ChainM SubmitResult := do
  let blockId := block.blockId
  if params.powLimit < block.header.target ∨ meetsTarget block.header params.pow = false then
    pure (rejected blockId ⟨"bad-pow", ""⟩)
  else
    let check : ChainM Unit := do
      let now ← readClock clock
      Exec.lift (Db.checkOrphan params now block)
    guarded blockId check do
      holdOrphan block
      pure { outcome := .orphan, blockId := blockId }

/-- The checks of `_submit_one` on a block whose parent is stored. -/
def checkChild (block : Block) (parent : HeaderRow) : ChainM Unit := do
  let now ← readClock clock
  let n ← get
  Exec.lift (n.store.db.checkChild params now (n.powChecked.lookup block.blockId).isNone block parent)

/-- The rest of `_submit_one` on such a block: it is stored, and followed
if its branch has more work. -/
def acceptChild (block : Block) (parent : HeaderRow) : ChainM SubmitResult := do
  let chainWork := parent.chainWork + blockWork block.header.target
  onStore (Store.transaction (Store.addBlock block chainWork .stored))
  let n ← get
  let tip ← Exec.lift n.store.db.tip
  if tip.chainWork < chainWork then onStore (Store.switchTo params block.blockId)
  else pure { outcome := .sideBranch, blockId := block.blockId }

/-- `_submit_one`. -/
def submitOne (block : Block) : ChainM SubmitResult := do
  let blockId := block.blockId
  let n ← get
  match n.store.db.header blockId with
  | some known =>
    if known.status = .invalid then pure (rejected blockId ⟨"known-invalid", ""⟩)
    else pure { outcome := .duplicate, blockId := blockId }
  | none =>
    if (n.orphans.lookup blockId).isSome then
      pure { outcome := .duplicate, blockId := blockId }
    else if block.height = 0 then
      pure (rejected blockId ⟨"bad-genesis", "genesis blocks can't be submitted"⟩)
    else
      match n.store.db.header block.header.prevId with
      | none => submitOrphan params clock block
      | some parent =>
        if parent.status = .invalid then pure (rejected blockId ⟨"invalid-parent", ""⟩)
        else
          guarded blockId (checkChild params clock block parent) (acceptChild params block parent)

/-- The inner loop of `_adopt_orphans`, over the children of a block that
arrived: the result so far and the blocks that arrived since. -/
def adoptChildren : List Block → SubmitResult → List Digest → ChainM (SubmitResult × List Digest)
  | [], result, waiting => pure (result, waiting)
  | child :: rest, result, waiting => do
    let _ ← forgetOrphan child.blockId
    let childResult ← submitOne params clock child
    let result :=
      { result with
        connected := result.connected ++ childResult.connected
        disconnected := result.disconnected ++ childResult.disconnected }
    match childResult.outcome with
    | .newTip | .sideBranch => adoptChildren rest result (child.blockId :: waiting)
    | .invalid => do
      let n ← get
      dropOrphansOf (n.orphans.entries.length + 1) [child.blockId]
      adoptChildren rest result waiting
    | _ => adoptChildren rest result waiting

/-- `_adopt_orphans`: the blocks that arrived, the next one first. -/
def adoptOrphans : (steps : ℕ) → List Digest → SubmitResult → ChainM SubmitResult
  | _, [], result => pure result
  | 0, _ :: _, _ => throw .diverged
  | steps + 1, current :: waiting, result => do
    let n ← get
    let (result, waiting) ← adoptChildren params clock (orphansOf current n) result waiting
    adoptOrphans steps waiting result

/-- `submit_block`. -/
def submitBlock (block : Block) : ChainM SubmitResult := do
  let result ← submitOne params clock block
  let n ← get
  match result.outcome with
  | .newTip | .sideBranch =>
    adoptOrphans params clock (n.orphans.entries.length + 1) [block.blockId] result
  | .invalid => do
    dropOrphansOf (n.orphans.entries.length + 1) [block.blockId]
    pure result
  | _ => pure result

/-- `apply_chunk`, on a node. -/
def applyChunk (checked : CheckedChunk) : ChainM (List Block) :=
  onStore (Store.applyChunk params checked)

end Node

end TalCash
