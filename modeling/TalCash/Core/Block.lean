import TalCash.Common.Merkle
import TalCash.Core.Tx
/-!
# Blocks

Headers and blocks with the widths of their fields, their bytes, and the
rules that need no chain state. `CheckedBlock` says what `checkBlock`
accepts. A block id covers only the header; that it nevertheless fixes
the whole block, where SHA-256 has no collision, is `eq_of_blockId_eq`.
-/

namespace TalCash

open BigEndian

variable [Library]

def BLOCK_VERSION : ℕ := 1
def HEADER_SIZE : ℕ := 156

/-! ## The merkle root -/

/-- What is hashed for a leaf. -/
def leafMessage (leaf : Bytes) : Bytes := 0 :: leaf

/-- What is hashed for an inner node. -/
def nodeMessage (left right : Digest) : Bytes := 1 :: (left.1 ++ right.1)

/-- `merkle_root`. -/
def merkleRoot (leaves : List Bytes) : Except PyError Digest :=
  match Merkle.root sha256 leafMessage nodeMessage leaves with
  | none => .error (.value "merkle tree needs at least one leaf")
  | some root => .ok root

/-- The messages hashed for a merkle root. -/
def merkleMessages (leaves : List Bytes) : List Bytes :=
  Merkle.messages sha256 leafMessage nodeMessage leaves

omit [Library] in
theorem nodeMessage_inj (a b c d : Digest) (h : nodeMessage a b = nodeMessage c d) :
    a = c ∧ b = d := by
  have h' := List.append_inj (List.cons.inj h).2 (by rw [a.2, c.2])
  exact ⟨Subtype.ext h'.1, Subtype.ext h'.2⟩

omit [Library] in
theorem leafMessage_ne_nodeMessage (a : Bytes) (b c : Digest) :
    leafMessage a ≠ nodeMessage b c := fun h => absurd (List.cons.inj h).1 (by decide)

/-- **A merkle root commits to the list of leaves.** -/
theorem eq_of_merkleRoot_eq {S : Set Bytes} (hS : CollisionFree S) {l l' : List Bytes}
    {root : Digest} (hl : ∀ m ∈ merkleMessages l, m ∈ S) (hl' : ∀ m ∈ merkleMessages l', m ∈ S)
    (h : merkleRoot l = .ok root) (h' : merkleRoot l' = .ok root) : l = l' := by
  have hroot : ∀ {l : List Bytes}, merkleRoot l = .ok root →
      l ≠ [] ∧ Merkle.root sha256 leafMessage nodeMessage l = some root := by
    intro l h
    unfold merkleRoot at h
    split at h
    · cases h
    · rename_i d hd
      refine ⟨fun he => ?_, by rw [hd, Except.ok.inj h]⟩
      rw [he] at hd
      cases hd
  obtain ⟨hne, hr⟩ := hroot h
  obtain ⟨hne', hr'⟩ := hroot h'
  exact Merkle.eq_of_root_eq (fun a b h => (List.cons.inj h).2) nodeMessage_inj
    leafMessage_ne_nodeMessage hS hl hl' hne hne' (hr.trans hr'.symm)

/-- A root is the hash of a message that is not empty. -/
theorem exists_message_of_merkleRoot {l : List Bytes} {root : Digest}
    (h : merkleRoot l = .ok root) : ∃ m ∈ merkleMessages l, sha256 m = root ∧ m ≠ [] := by
  unfold merkleRoot at h
  split at h
  · cases h
  · rename_i d hd
    obtain ⟨m, hm, he, hform⟩ := Merkle.exists_message_of_root hd
    refine ⟨m, hm, he.trans (Except.ok.inj h), ?_⟩
    rcases hform with ⟨a, rfl⟩ | ⟨a, b, rfl⟩
    · exact List.cons_ne_nil _ _
    · exact List.cons_ne_nil _ _

theorem merkleRoot_isOk {l : List Bytes} (h : l ≠ []) : ∃ d, merkleRoot l = .ok d := by
  obtain ⟨d, hd⟩ : ∃ d, Merkle.root sha256 leafMessage nodeMessage l = some d :=
    Merkle.root_isSome h
  exact ⟨d, by rw [merkleRoot, hd]⟩

/-! ## Headers and blocks -/

omit [Library] in
theorem BLOCK_VERSION_lt : BLOCK_VERSION < 256 ^ 4 := by decide

/-- The 156 bytes that are mined. -/
@[ext]
structure BlockHeader where
  version : ℕ
  height : ℕ
  prevId : Digest
  merkleRoot : Digest
  snapshotRoot : Digest
  timestamp : ℕ
  target : ℕ
  nonce : ℕ
  version_lt : version < 256 ^ 4
  height_lt : height < 256 ^ 8
  timestamp_lt : timestamp < 256 ^ 8
  target_lt : target < 256 ^ 32
  nonce_lt : nonce < 256 ^ 8

instance : DecidableEq BlockHeader := fun _ _ => decidable_of_iff' _ BlockHeader.ext_iff

/-- A header and its transactions, the coinbase first. -/
structure Block where
  header : BlockHeader
  transactions : List Transaction
  count_lt : transactions.length < 256 ^ 4
deriving DecidableEq

namespace BlockHeader

def serialize (h : BlockHeader) : Bytes :=
  beBytes 4 h.version ++ (beBytes 8 h.height ++ (h.prevId.1 ++ (h.merkleRoot.1 ++
    (h.snapshotRoot.1 ++ (beBytes 8 h.timestamp ++ (beBytes 32 h.target ++
      beBytes 8 h.nonce))))))

def blockId (h : BlockHeader) : Digest := sha256 h.serialize

end BlockHeader

namespace Block

def serialize (b : Block) : Bytes :=
  b.header.serialize ++ (beBytes 4 b.transactions.length ++
    b.transactions.flatMap Transaction.serialize)

def size (b : Block) : ℕ := b.serialize.length

def blockId (b : Block) : Digest := b.header.blockId

def height (b : Block) : ℕ := b.header.height

/-- `Block.coinbase`: the first transaction, asserted to be a coinbase. -/
def coinbase (b : Block) : Except PyError Coinbase :=
  match b.transactions with
  | [] => .error .index
  | .transfer _ :: _ => .error .assertion
  | .coinbase c :: _ => .ok c

/-- The transfers after the first transaction. -/
def transfers (b : Block) : List Transfer := b.transactions.tail.filterMap Transaction.transfer?

end Block

/-- `compute_merkle_root`. -/
def computeMerkleRoot (transactions : List Transaction) : Except PyError Digest :=
  merkleRoot (transactions.map fun tx => tx.txid.1)

/-! ## Reading -/

omit [Library] in
theorem u64_lt (n : {n : ℕ // n < 256 ^ 8}) : n.1 < 256 ^ 8 := n.2

/-- `read_header`. -/
def readHeader : Reader BlockHeader := do
  let version ← Reader.u32
  let height ← Reader.u64
  let prevId ← Reader.fixed 32
  let merkleRoot ← Reader.fixed 32
  let snapshotRoot ← Reader.fixed 32
  let timestamp ← Reader.u64
  let target ← Reader.u256
  let nonce ← Reader.u64
  pure ⟨version.1, height.1, prevId, merkleRoot, snapshotRoot, timestamp.1, target.1, nonce.1,
    version.2, u64_lt height, u64_lt timestamp, target.2, u64_lt nonce⟩

/-- `read_block`. -/
def readBlock : Reader Block := do
  let header ← readHeader
  let count ← Reader.u32
  let transactions ← Reader.many readTransaction count.1
  pure ⟨header, transactions.1, lt_of_eq_of_lt transactions.2 count.2⟩

/-- `header_from_bytes`. -/
def headerFromBytes (data : Bytes) : Except PyError BlockHeader := readHeader.onBytes data

/-- `block_from_bytes`. -/
def blockFromBytes (data : Bytes) : Except PyError Block := readBlock.onBytes data

omit [Library] in
theorem reads_header (h : BlockHeader) : Reads readHeader h.serialize h :=
  (Reads.uint h.version_lt).bind <| (Reads.uint h.height_lt).bind <|
    (Reads.fixed h.prevId).bind <| (Reads.fixed h.merkleRoot).bind <|
    (Reads.fixed h.snapshotRoot).bind <| (Reads.uint h.timestamp_lt).bind <|
    (Reads.uint h.target_lt).bind <| (Reads.uint h.nonce_lt).bind_pure

omit [Library] in
theorem reads_block (b : Block) : Reads readBlock b.serialize b :=
  (reads_header b.header).bind <| (Reads.uint b.count_lt).bind <|
    (Reads.many fun tx _ => reads_transaction tx).bind_pure

omit [Library] in
/-- **A block is read back from its bytes.** -/
theorem blockFromBytes_serialize (b : Block) : blockFromBytes b.serialize = .ok b :=
  (reads_block b).onBytes

omit [Library] in
theorem BlockHeader.serialize_injective : Function.Injective BlockHeader.serialize :=
  fun a b h => (reads_header a).injective (h ▸ reads_header b)

omit [Library] in
@[simp] theorem BlockHeader.length_serialize (h : BlockHeader) :
    h.serialize.length = HEADER_SIZE := by
  simp only [BlockHeader.serialize, List.length_append, length_beBytes, h.prevId.2,
    h.merkleRoot.2, h.snapshotRoot.2]
  rfl

/-! ## The rules that need no chain state -/

/-- `check_block`. -/
def checkBlock (params : NetworkParams) (block : Block) : Except PyError Unit :=
  let version := block.header.version
  let size := block.size
  if version ≠ BLOCK_VERSION then invalid "bad-version" s!"block version {version}"
  else if params.maxBlockSize < size then invalid "block-too-large" s!"{size} bytes"
  else
    match block.transactions with
    | .coinbase c :: rest =>
      if rest.any Transaction.isCoinbase then invalid "extra-coinbase"
      else if c.height ≠ block.header.height then invalid "bad-coinbase-height"
      else if ¬ (block.transactions.map Transaction.txid).Nodup then
        invalid "duplicate-transaction"
      else
        match computeMerkleRoot block.transactions with
        | .error e => .error e
        | .ok root =>
          if root ≠ block.header.merkleRoot then invalid "bad-merkle-root"
          else block.transactions.forM (checkTransaction params)
    | _ => invalid "missing-coinbase"

/-- What `checkBlock` accepts. -/
structure CheckedBlock (params : NetworkParams) (block : Block) : Prop where
  version : block.header.version = BLOCK_VERSION
  size_le : block.size ≤ params.maxBlockSize
  transactions : ∃ c, block.transactions = .coinbase c :: block.transfers.map .transfer ∧
    c.height = block.header.height
  nodup : (block.transactions.map Transaction.txid).Nodup
  root : computeMerkleRoot block.transactions = .ok block.header.merkleRoot
  checked : ∀ tx ∈ block.transactions, checkTransaction params tx = .ok ()

omit [Library] in
theorem forM_ok_iff {α ε : Type} {f : α → Except ε Unit} {l : List α} :
    l.forM f = .ok () ↔ ∀ a ∈ l, f a = .ok () := by
  induction l with
  | nil => exact ⟨fun _ _ h => absurd h List.not_mem_nil, fun _ => rfl⟩
  | cons a l ih =>
    rw [List.forall_mem_cons, ← ih]
    change (f a >>= fun _ => l.forM f) = .ok () ↔ _
    cases f a with
    | error e => exact ⟨fun h => (nomatch h), fun h => (nomatch h.1)⟩
    | ok u => exact ⟨fun h => ⟨rfl, h⟩, fun h => h.2⟩

omit [Library] in
theorem map_transfer_filterMap {l : List Transaction} (h : l.any Transaction.isCoinbase = false) :
    (l.filterMap Transaction.transfer?).map .transfer = l := by
  induction l with
  | nil => rfl
  | cons tx l ih =>
    rw [List.any_cons, Bool.or_eq_false_iff] at h
    cases tx with
    | coinbase c => cases h.1
    | transfer t =>
      exact congrArg (Transaction.transfer t :: ·) (ih h.2)

omit [Library] in
theorem any_isCoinbase_map_transfer (l : List Transfer) :
    (l.map Transaction.transfer).any Transaction.isCoinbase = false := by
  induction l with
  | nil => rfl
  | cons t l ih => rw [List.map_cons, List.any_cons, ih]; rfl

/-- **`checkBlock` accepts exactly the blocks that keep every rule.** -/
theorem checkBlock_ok_iff {params : NetworkParams} {block : Block} :
    checkBlock params block = .ok () ↔ CheckedBlock params block := by
  constructor
  · intro h
    simp only [checkBlock, ite_invalid_eq_ok, not_not, not_lt] at h
    obtain ⟨hv, hs, h⟩ := h
    split at h
    · rename_i c rest hb
      simp only [ite_invalid_eq_ok, not_not] at h
      obtain ⟨hc, hh, hn, h⟩ := h
      split at h
      · cases h
      · rename_i root hr
        simp only [ite_invalid_eq_ok, not_not] at h
        refine ⟨hv, hs, ⟨c, ?_, hh⟩, hn, by rw [hr, h.1], forM_ok_iff.1 h.2⟩
        rw [Block.transfers, hb, List.tail_cons, map_transfer_filterMap (Bool.eq_false_iff.2 hc)]
    · cases h
  · rintro ⟨hv, hs, ⟨c, hb, hh⟩, hn, hr, hc⟩
    simp only [checkBlock, hv, ne_eq, not_true_eq_false, if_false, if_neg (not_lt.2 hs), hr]
    rw [hb] at hn hc ⊢
    simp only [any_isCoinbase_map_transfer, hh, hn, not_true_eq_false, if_false]
    exact forM_ok_iff.2 hc

theorem CheckedBlock.coinbase {params : NetworkParams} {block : Block}
    (h : CheckedBlock params block) :
    ∃ c, block.coinbase = .ok c ∧ c.height = block.height ∧
      block.transactions = .coinbase c :: block.transfers.map .transfer := by
  obtain ⟨c, hb, hh⟩ := h.transactions
  exact ⟨c, by unfold Block.coinbase; rw [hb], hh, hb⟩

/-- A block that breaks a rule is refused with `ValidationError`. -/
theorem raises_checkBlock {P : PyError → Prop} (hP : Rules P) (params : NetworkParams)
    (block : Block) : Raises P (checkBlock params block) := by
  unfold checkBlock
  refine .ite (fun _ => .invalid (hP _ _ (by decide))) fun _ =>
    .ite (fun _ => .invalid (hP _ _ (by decide))) fun _ => ?_
  split
  · rename_i c rest hb
    refine .ite (fun _ => .invalid (hP _ _ (by decide))) fun _ =>
      .ite (fun _ => .invalid (hP _ _ (by decide))) fun _ =>
      .ite (fun _ => .invalid (hP _ _ (by decide))) fun _ => ?_
    obtain ⟨d, hd⟩ : ∃ d, computeMerkleRoot block.transactions = .ok d :=
      merkleRoot_isOk (by simp [hb])
    rw [hd]
    exact .ite (fun _ => .invalid (hP _ _ (by decide))) fun _ =>
      .forM fun tx _ => raises_checkTransaction hP params tx
  · exact .invalid (hP _ _ (by decide))

/-! ## A block id fixes the block -/

/-- The messages SHA-256 sees when a block is checked: the header, the
transactions, and the nodes of the merkle tree over their ids. -/
def Block.messages (b : Block) : List Bytes :=
  b.header.serialize :: (b.transactions.map Transaction.serialize ++
    merkleMessages (b.transactions.map fun tx => tx.txid.1))

theorem Block.header_mem_messages (b : Block) : b.header.serialize ∈ b.messages :=
  List.mem_cons_self

theorem Block.tx_mem_messages {b : Block} {tx : Transaction} (h : tx ∈ b.transactions) :
    tx.serialize ∈ b.messages :=
  List.mem_cons_of_mem _ (List.mem_append_left _ (List.mem_map_of_mem h))

/-- Where SHA-256 has no collision among their messages, transactions of
two blocks with one txid are one transaction. -/
theorem eq_of_txid_eq {S : Set Bytes} (hS : CollisionFree S) {tx tx' : Transaction}
    (h : tx.serialize ∈ S) (h' : tx'.serialize ∈ S) (he : tx.txid = tx'.txid) : tx = tx' :=
  Transaction.serialize_injective (hS h h' he)

/-- Headers with one id are one header. -/
theorem header_eq_of_blockId_eq {S : Set Bytes} (hS : CollisionFree S) {a b : BlockHeader}
    (ha : a.serialize ∈ S) (hb : b.serialize ∈ S) (h : a.blockId = b.blockId) : a = b :=
  BlockHeader.serialize_injective (hS ha hb h)

/-- **A block id fixes the whole block** among blocks that pass
`checkBlock`: the header carries the merkle root, which commits to the
txids, which commit to the transactions. -/
theorem eq_of_blockId_eq {S : Set Bytes} (hS : CollisionFree S) {params : NetworkParams}
    {a b : Block} (ha : ∀ m ∈ a.messages, m ∈ S) (hb : ∀ m ∈ b.messages, m ∈ S)
    (hca : CheckedBlock params a) (hcb : CheckedBlock params b) (h : a.blockId = b.blockId) :
    a = b := by
  have hh : a.header = b.header :=
    header_eq_of_blockId_eq hS (ha _ a.header_mem_messages) (hb _ b.header_mem_messages) h
  have hids : (a.transactions.map fun tx => tx.txid.1) =
      b.transactions.map fun tx => tx.txid.1 :=
    eq_of_merkleRoot_eq hS (fun m hm => ha m (List.mem_cons_of_mem _ (List.mem_append_right _ hm)))
      (fun m hm => hb m (List.mem_cons_of_mem _ (List.mem_append_right _ hm))) hca.root
      (hh ▸ hcb.root)
  have htx : a.transactions = b.transactions := by
    have hids' : a.transactions.map Transaction.txid = b.transactions.map Transaction.txid := by
      refine List.map_injective_iff.2 Subtype.val_injective ?_
      have hval : ∀ l : List Transaction,
          (l.map Transaction.txid).map Subtype.val = l.map fun tx => tx.txid.1 :=
        fun l => List.map_map
      exact (hval _).trans (hids.trans (hval _).symm)
    refine List.ext_getElem (by simpa using congrArg List.length hids') fun i h₁ h₂ => ?_
    have hi := congrArg (·[i]?) hids'
    simp only [List.getElem?_map, List.getElem?_eq_getElem h₁, List.getElem?_eq_getElem h₂,
      Option.map_some, Option.some.injEq] at hi
    exact eq_of_txid_eq hS (ha _ (Block.tx_mem_messages (List.getElem_mem h₁)))
      (hb _ (Block.tx_mem_messages (List.getElem_mem h₂))) hi
  cases a; cases b
  cases hh; cases htx
  rfl

end TalCash
