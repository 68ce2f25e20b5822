import TalCash.Node.BlockFiles
import TalCash.Core.Genesis
/-!
# The store

The database of a node and its block files. The tables are `Db`; what
only reads or only writes the database is a pure function of it, and an
`INSERT` on a key that is there already, or of an integer a column cannot
hold, raises. `transaction` restores the database, not the files.
-/

namespace TalCash

open BigEndian

variable [Primitives]

/-- `STATUS_STORED`, `STATUS_VALID` and `STATUS_INVALID`. -/
inductive Status
  | stored
  | valid
  | invalid
deriving DecidableEq, Repr

/-- A row of `headers`, which is keyed by the block id. The columns
`prev_id` and `height` repeat the header; no location stands for `NULL`:
the block is in its own recent file. -/
structure HeaderRow where
  header : BlockHeader
  chainWork : ℕ
  status : Status
  location : Option ChunkLocation

namespace HeaderRow

def blockId (r : HeaderRow) : Digest := r.header.blockId

def height (r : HeaderRow) : ℕ := r.header.height

end HeaderRow

/-- A row of `tx_index`, which is keyed by the txid. -/
structure TxLocation where
  blockId : Digest
  height : ℕ
  position : ℕ
deriving DecidableEq

/-- The database. `meta` is left with the count of sealed chunks. -/
structure Db where
  sealedChunks : ℕ := 0
  headers : Table Digest HeaderRow := ∅
  mainChain : Table ℕ Digest := ∅
  accounts : Table Address Account := ∅
  undo : Table Digest Bytes := ∅
  snapshots : Table ℕ Digest := ∅
  txIndex : Table Digest TxLocation := ∅
  addressIndex : Table (Address × ℕ × ℕ) Digest := ∅

/-- The database and the block files. -/
structure Store where
  db : Db := {}
  files : BlockFiles := {}

/-- An integer column holds 63 bits. -/
def sqlInteger (value : ℕ) : Except PyError Unit :=
  if 2 ^ 63 ≤ value then .error .overflow else .ok ()

/-- `INSERT`. -/
def insertNew {κ ν : Type} [DecidableEq κ] (k : κ) (v : ν) (t : Table κ ν) :
    Except PyError (Table κ ν) :=
  if (t.lookup k).isSome then .error .integrity else .ok (Table.put k v t)

/-- `_addresses_of`. -/
def addressesOf : Transaction → List Address
  | .coinbase tx => [tx.address]
  | .transfer tx => (tx.sender :: tx.outputs.map Output.address).dedup

/-- One account of the undo data, 37 bytes. -/
def undoEntry (r : Address × Account) : Except PyError Bytes := do
  let balance ← toBytes r.2.balance 8
  let nonce ← toBytes r.2.nonce 8
  pure (r.1.1 ++ balance ++ nonce)

/-- One account read back from 37 bytes of the undo data. -/
def readUndoEntry : Reader (Address × Account) := do
  let address ← Reader.fixed 21
  let balance ← Reader.u64
  let nonce ← Reader.u64
  pure (address, ⟨balance.1, nonce.1⟩)

namespace Db

/-! ## Headers -/

/-- The insertion of `add_block`. -/
def addRow (header : BlockHeader) (chainWork : ℕ) (status : Status)
    (location : Option ChunkLocation) (db : Db) : Except PyError Db := do
  if 256 ^ 48 ≤ chainWork then throw .overflow
  sqlInteger header.height
  let headers ← insertNew header.blockId ⟨header, chainWork, status, location⟩ db.headers
  pure { db with headers := headers }

/-- `set_location`. -/
def setLocation (blockId : Digest) (location : ChunkLocation) (db : Db) : Except PyError Db := do
  sqlInteger location.chunk
  sqlInteger location.segmentOffset
  sqlInteger location.segmentLength
  sqlInteger location.position
  pure { db with
    headers := Table.update blockId (fun r => { r with location := some location }) db.headers }

/-- `header`. -/
def header (db : Db) (blockId : Digest) : Option HeaderRow := db.headers.lookup blockId

/-- `set_status`. -/
def setStatus (blockId : Digest) (status : Status) (db : Db) : Db :=
  { db with headers := Table.update blockId (fun r => { r with status := status }) db.headers }

/-- `children`. -/
def children (db : Db) (blockId : Digest) : List Digest :=
  (db.headers.rows.filter fun r => r.2.header.prevId = blockId).map Prod.fst

/-! ## The active chain -/

/-- `tip_height`; the table is never empty. -/
def tipHeight (db : Db) : ℕ := Table.maxKey db.mainChain

/-- `main_id`. -/
def mainId (db : Db) (height : ℕ) : Option Digest := db.mainChain.lookup height

/-- `set_main`; heights and block ids are both unique. -/
def setMain (height : ℕ) (blockId : Digest) (db : Db) : Except PyError Db := do
  sqlInteger height
  if db.mainChain.rows.any fun r => r.2 = blockId then throw .integrity
  let mainChain ← insertNew height blockId db.mainChain
  pure { db with mainChain := mainChain }

/-- `delete_main`. -/
def deleteMain (height : ℕ) (db : Db) : Db :=
  { db with mainChain := Table.remove height db.mainChain }

/-! ## Accounts -/

/-- `get_account`. -/
def getAccount (db : Db) (address : Address) : Account := TalCash.getAccount db.accounts address

/-- One account of `write_accounts`. -/
def writeAccount (r : Address × Account) (accounts : Table Address Account) :
    Except PyError (Table Address Account) :=
  if r.2 = EMPTY_ACCOUNT then .ok (Table.remove r.1 accounts)
  else do
    sqlInteger r.2.balance
    sqlInteger r.2.nonce
    pure (Table.put r.1 r.2 accounts)

/-- `write_accounts`, of the accounts in the order of their dictionary. -/
def writeAccounts (written : List (Address × Account)) (db : Db) : Except PyError Db := do
  let accounts ← written.foldlM (fun t r => writeAccount r t) db.accounts
  pure { db with accounts := accounts }

/-! ## Undo data and snapshots -/

/-- `put_undo`. -/
def putUndo (blockId : Digest) (previous : List (Address × Account)) (db : Db) :
    Except PyError Db := do
  let entries ← previous.mapM undoEntry
  let undo ← insertNew blockId entries.flatten db.undo
  pure { db with undo := undo }

/-- `take_undo`: the data has a whole number of entries, since `put_undo`
wrote it. -/
def takeUndo (blockId : Digest) (db : Db) : Except PyError (List (Address × Account) × Db) :=
  match db.undo.lookup blockId with
  | none => .error (.runtime "missing undo data for a block on the active chain")
  | some data => do
    let previous ← (Reader.many readUndoEntry (data.length / 37)).onBytes data
    pure (previous.1, { db with undo := Table.remove blockId db.undo })

/-- `snapshot_root`. -/
def snapshotRoot (db : Db) (height : ℕ) : Option Digest := db.snapshots.lookup height

/-- `put_snapshot`. -/
def putSnapshot (height : ℕ) (root : Digest) (db : Db) : Except PyError Db := do
  sqlInteger height
  let snapshots ← insertNew height root db.snapshots
  pure { db with snapshots := snapshots }

/-- `delete_snapshot`. -/
def deleteSnapshot (height : ℕ) (db : Db) : Db :=
  { db with snapshots := Table.remove height db.snapshots }

/-! ## The indexes -/

/-- The rows of `address_index` for one transaction. -/
def indexAddresses (height position : ℕ) (txid : Digest) :
    List Address → Table (Address × ℕ × ℕ) Digest → Except PyError (Table (Address × ℕ × ℕ) Digest)
  | [], t => .ok t
  | address :: rest, t => do
    let t ← insertNew (address, height, position) txid t
    indexAddresses height position txid rest t

/-- One transaction of `index_block`. -/
def indexTx (blockId : Digest) (height position : ℕ) (tx : Transaction) (db : Db) :
    Except PyError Db := do
  sqlInteger height
  sqlInteger position
  let txIndex ← insertNew tx.txid ⟨blockId, height, position⟩ db.txIndex
  let addressIndex ← indexAddresses height position tx.txid (addressesOf tx) db.addressIndex
  pure { db with txIndex := txIndex, addressIndex := addressIndex }

/-- The loop of `index_block`, from a position on. -/
def indexFrom (blockId : Digest) (height : ℕ) :
    (position : ℕ) → List Transaction → Db → Except PyError Db
  | _, [], db => .ok db
  | position, tx :: rest, db => do
    let db ← indexTx blockId height position tx db
    indexFrom blockId height (position + 1) rest db

/-- `index_block`. -/
def indexBlock (block : Block) (db : Db) : Except PyError Db :=
  indexFrom block.blockId block.height 0 block.transactions db

/-- `unindex_block`. -/
def unindexBlock (block : Block) (db : Db) : Db :=
  { db with
    txIndex := Table.deleteWhere (fun _ l => l.height = block.height) db.txIndex
    addressIndex := Table.deleteWhere (fun k _ => k.2.1 = block.height) db.addressIndex }

end Db

/-! ## Operations on the store -/

/-- Operations on the store. -/
abbrev StoreM (α : Type) := Exec PyError Store α

namespace Store

/-- A write to the database. -/
def writeDb (f : Db → Except PyError Db) : StoreM Unit := do
  let s ← get
  let db ← Exec.lift (f s.db)
  set { s with db := db }

/-- An operation on the files. -/
def onFiles {α : Type} (x : FilesM α) : StoreM α :=
  Exec.zoom Store.files (fun files s => { s with files := files }) x

/-- `transaction`. -/
def transaction {α : Type} (x : StoreM α) : StoreM α :=
  Exec.atomically Store.db (fun db s => { s with db := db }) x

/-- `add_block`. -/
def addBlock (block : Block) (chainWork : ℕ) (status : Status)
    (location : Option ChunkLocation := none) : StoreM Unit := do
  if location.isNone then onFiles (BlockFiles.writeRecent block)
  writeDb (Db.addRow block.header chainWork status location)

/-- `block_bytes`. -/
def blockBytes (blockId : Digest) : StoreM (Option Bytes) := do
  let s ← get
  match s.db.header blockId with
  | none => pure none
  | some row =>
    match row.location with
    | none => some <$> onFiles (BlockFiles.readRecent row.height blockId)
    | some location => some <$> onFiles (BlockFiles.readFromChunk location)

/-- `block`. -/
def block (blockId : Digest) : StoreM (Option Block) := do
  let data ← blockBytes blockId
  match data with
  | none => pure none
  | some data => some <$> Exec.lift (blockFromBytes data)

/-- The ids and the bytes of the active chain's blocks from a height on,
in `seal_chunk`. -/
def mainBytes (firstHeight : ℕ) : (count : ℕ) → StoreM (List (Digest × Bytes))
  | 0 => pure []
  | count + 1 => do
    let s ← get
    match s.db.mainId firstHeight with
    | none => throw .type
    | some id => do
      let data ← blockBytes id
      match data with
      | none => throw .type
      | some data => do
        let rest ← mainBytes (firstHeight + 1) count
        pure ((id, data) :: rest)

/-- The branches that lost: rows between two heights that are not on the
active chain. -/
def losers (firstHeight lastHeight : ℕ) (db : Db) : List (ℕ × Digest) :=
  (db.headers.rows.filter fun r => firstHeight ≤ r.2.height ∧ r.2.height ≤ lastHeight ∧
    db.mainChain.rows.all fun m => m.2 ≠ r.1).map fun r => (r.2.height, r.1)

/-- The locations set by `seal_chunk` and `apply_chunk`. -/
def setLocations : List (Digest × ChunkLocation) → Db → Except PyError Db
  | [], db => .ok db
  | (id, location) :: rest, db => do
    let db ← Db.setLocation id location db
    setLocations rest db

/-- The transaction of `seal_chunk`. -/
def sealDb (index : ℕ) (placed : List (Digest × ChunkLocation)) (lost : List (ℕ × Digest))
    (db : Db) : Except PyError Db := do
  let db ← setLocations placed db
  pure { db with
    headers := Table.deleteWhere (fun id _ => lost.any fun l => l.2 = id) db.headers
    sealedChunks := index + 1 }

/-- `seal_chunk`. -/
def sealChunk (networkId index firstHeight lastHeight : ℕ) : StoreM Unit := do
  let blocks ← mainBytes firstHeight (lastHeight + 1 - firstHeight)
  let ids := blocks.map Prod.fst
  let locations ← onFiles
    (BlockFiles.writeChunk networkId index firstHeight (blocks.map Prod.snd))
  let s ← get
  let lost := losers firstHeight lastHeight s.db
  transaction (writeDb (sealDb index (ids.zip locations) lost))
  let heights := List.range' firstHeight ids.length
  (heights.zip ids ++ lost).forM fun r => onFiles (BlockFiles.deleteRecent r.1 r.2)

end Store

end TalCash
