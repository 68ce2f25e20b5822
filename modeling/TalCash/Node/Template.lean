import TalCash.Ledger.Payments
import TalCash.Node.NodeService
/-!
# Block templates

`build_template` puts the best-paying transfers that fit on top of the
tip. In a service that settled, what it builds is a block that the ledger
takes, whatever nonce a miner finds for it (`template_accepted`).
-/

namespace TalCash

open Exec Ledger

section

/-! ## Building a template -/

/-- The check of `_uint_bytes`. -/
def fitsUint (value size : ℕ) : Except PyError (PLift (value < 256 ^ size)) :=
  if h : value < 256 ^ size then .ok ⟨h⟩
  else .error (.value s!"{value} does not fit in {size} unsigned bytes")

/-- A coinbase whose fields can be written. -/
def Coinbase.build (params : NetworkParams) (height : ℕ) (miner : Address) (amount : ℕ)
    (memo : Bytes) : Except PyError Coinbase := do
  let hheight ← fitsUint height 8
  let hamount ← fitsUint amount 8
  let hmemo ← fitsUint memo.length 1
  pure
    { networkId := params.networkId
      height := height
      address := miner
      amount := amount
      memo := memo
      networkId_lt := params.networkId_lt
      height_lt := hheight.down
      amount_lt := hamount.down
      memo_lt := hmemo.down }

variable [Primitives] (params : NetworkParams)

/-- The part of `build_template` after the context of the next block. -/
def templateOn (ctx : BlockContext) (mempool : Mempool) (miner : Address) (now : ℤ)
    (memo : Bytes) : Except PyError Block := do
  let height := ctx.parent.height + 1
  -- The amount doesn't change the size.
  let placeholder ← Coinbase.build params height miner 0 memo
  let room := params.maxBlockSize - HEADER_SIZE - 4 - placeholder.serialize.length
  let transfers ← mempool.select room
  let fees := (transfers.map Transfer.fee).sum
  let coinbase ← Coinbase.build params height miner (params.blockReward + fees) memo
  let transactions := Transaction.coinbase coinbase :: transfers.map .transfer
  let merkleRoot ← computeMerkleRoot transactions
  let timestamp := (max now (ctx.medianTimePast + 1)).toNat
  let hheight ← fitsUint height 8
  let htimestamp ← fitsUint timestamp 8
  let htarget ← fitsUint ctx.expectedTarget 32
  let hcount ← fitsUint transactions.length 4
  pure
    { header :=
        { version := BLOCK_VERSION
          height := height
          prevId := ctx.parent.blockId
          merkleRoot := merkleRoot
          snapshotRoot := ctx.snapshotRoot
          timestamp := timestamp
          target := ctx.expectedTarget
          nonce := 0
          version_lt := BLOCK_VERSION_lt
          height_lt := hheight.down
          timestamp_lt := htimestamp.down
          target_lt := htarget.down
          nonce_lt := Nat.pow_pos (Nat.succ_pos 255) }
      transactions := transactions
      count_lt := hcount.down }

/-- `next_block_context`. -/
def Store.nextBlockContext : StoreM BlockContext := do
  let s ← get
  let tip ← Exec.lift s.db.tip
  Store.context params tip.header

/-- `build_template`. -/
def buildTemplate (mempool : Mempool) (miner : Address) (now : ℤ) (memo : Bytes) :
    StoreM Block := do
  let ctx ← Store.nextBlockContext params
  Exec.lift (templateOn params ctx mempool miner now memo)

omit [Primitives] in
/-- `replace(template.header, nonce=nonce)`. -/
def Block.withNonce (b : Block) (nonce : ℕ) (h : nonce < 256 ^ 8) : Block :=
  { b with header := { b.header with
    nonce := nonce
    nonce_lt := h } }

end

section

variable [Primitives] {params : NetworkParams} {ctx : BlockContext} {mempool : Mempool}
variable {miner : Address} {now : ℤ} {memo : Bytes} {b : Block} {c : Coinbase}
variable {txs : List Transfer}

/-! ## What a template is -/

omit [Primitives] in
theorem Coinbase.length_serialize (c : Coinbase) : c.serialize.length = 41 + c.memo.length := by
  simp only [Coinbase.serialize, var8Bytes, List.length_append, BigEndian.length_beBytes,
    c.address.2]
  omega

/-- The bytes that are left for the transfers beside the header, their
count and the coinbase. -/
def roomFor (params : NetworkParams) (memo : Bytes) : ℕ :=
  params.maxBlockSize - HEADER_SIZE - 4 - (41 + memo.length)

/-- A block with these transfers on top of a context, paying a miner. -/
structure IsTemplate (params : NetworkParams) (ctx : BlockContext) (miner : Address) (now : ℤ)
    (memo : Bytes) (txs : List Transfer) (c : Coinbase) (b : Block) : Prop where
  transactions : b.transactions = .coinbase c :: txs.map .transfer
  networkId : c.networkId = params.networkId
  coinbaseHeight : c.height = ctx.parent.height + 1
  address : c.address = miner
  amount : c.amount = params.blockReward + (txs.map Transfer.fee).sum
  memo_eq : c.memo = memo
  version : b.header.version = BLOCK_VERSION
  height : b.header.height = ctx.parent.height + 1
  prevId : b.header.prevId = ctx.parent.blockId
  root : computeMerkleRoot b.transactions = .ok b.header.merkleRoot
  snapshotRoot : b.header.snapshotRoot = ctx.snapshotRoot
  timestamp : b.header.timestamp = (max now (ctx.medianTimePast + 1)).toNat
  target : b.header.target = ctx.expectedTarget

namespace IsTemplate

/-- The nonce does not matter for what a template is. -/
theorem withNonce (h : IsTemplate params ctx miner now memo txs c b) (nonce : ℕ)
    (hnonce : nonce < 256 ^ 8) :
    IsTemplate params ctx miner now memo txs c (b.withNonce nonce hnonce) := by
  obtain ⟨h₁, h₂, h₃, h₄, h₅, h₆, h₇, h₈, h₉, h₁₀, h₁₁, h₁₂, h₁₃⟩ := h
  exact ⟨h₁, h₂, h₃, h₄, h₅, h₆, h₇, h₈, h₉, h₁₀, h₁₁, h₁₂, h₁₃⟩

theorem transfers_eq (h : IsTemplate params ctx miner now memo txs c b) : b.transfers = txs := by
  rw [Block.transfers, h.transactions, List.tail_cons, List.filterMap_map]
  exact List.filterMap_some

theorem size_eq (h : IsTemplate params ctx miner now memo txs c b) :
    b.size = HEADER_SIZE + 4 + (41 + memo.length) + (txs.map Transfer.size).sum := by
  have hsum : ((txs.map Transaction.transfer).flatMap Transaction.serialize).length =
      (txs.map Transfer.size).sum := by
    rw [List.length_flatMap, List.map_map]
    rfl
  have hcoinbase : (Transaction.coinbase c).serialize.length = 41 + memo.length :=
    h.memo_eq ▸ c.length_serialize
  rw [Block.size, Block.serialize, h.transactions, List.length_append, List.length_append,
    BlockHeader.length_serialize, BigEndian.length_beBytes, List.flatMap_cons, List.length_append,
    hsum, hcoinbase]
  omega

/-- The header of a template is the next one. -/
theorem checkedHeader (h : IsTemplate params ctx miner now memo txs c b) :
    CheckedHeader b.header ctx where
  height := h.height
  prevId := h.prevId
  timestamp := by
    rw [h.timestamp]
    omega
  target := h.target
  snapshotRoot := h.snapshotRoot

/-- **A template passes `checkBlock`**, where its transfers fit and pass
their checks and no txid is there twice. -/
theorem checkedBlock (h : IsTemplate params ctx miner now memo txs c b)
    (hminer : isKnownPayload miner = true) (hmemo : memo.length ≤ MAX_MEMO_SIZE)
    (hamount : params.blockReward + (txs.map Transfer.fee).sum ≤ MAX_AMOUNT)
    (hroom : (txs.map Transfer.size).sum ≤ roomFor params memo)
    (htxs : ∀ x ∈ txs, checkTransaction params (.transfer x) = .ok ())
    (hnodup : (b.transactions.map Transaction.txid).Nodup) : CheckedBlock params b where
  version := h.version
  size_le := by
    have hmax := params.maxBlockSize_ge
    have hsize := h.size_eq
    rw [roomFor, HEADER_SIZE] at hroom
    rw [HEADER_SIZE] at hsize
    rw [MAX_MEMO_SIZE] at hmemo
    omega
  transactions := ⟨c, by rw [h.transfers_eq, h.transactions], h.coinbaseHeight.trans h.height.symm⟩
  nodup := hnodup
  root := h.root
  checked tx htx := by
    rw [h.transactions, List.mem_cons] at htx
    rcases htx with rfl | htx
    · have hlen : ¬ MAX_MEMO_SIZE < c.memo.length := by
        rw [h.memo_eq]
        omega
      have hle : ¬ MAX_AMOUNT < c.amount := by
        rw [h.amount]
        omega
      have hknown : isKnownPayload c.address = true := by rw [h.address, hminer]
      simp [checkTransaction, Transaction.networkId, Transaction.memo, h.networkId, hlen,
        checkCoinbase, hknown, hle]
    · obtain ⟨x, hx, rfl⟩ := List.mem_map.1 htx
      exact htxs x hx

end IsTemplate

end

/-! ## What `select` chooses can be paid -/

section

variable [Primitives] {config : MempoolConfig} {state : StateView} {m : Mempool}

namespace Mempool

/-- Transfers that begin the senders' queues can be paid. -/
theorem Spendable.payable (h : Spendable config state m) {chosen : List MempoolEntry}
    (hchosen : ∀ a, chosen.filter (fun e => e.tx.sender = a) <+: m.pendingFor a) :
    Payable state (chosen.map MempoolEntry.tx) := by
  have hfilter : ∀ a, (chosen.map MempoolEntry.tx).filter (fun x => x.sender = a) =
      (chosen.filter fun e => e.tx.sender = a).map MempoolEntry.tx := by
    intro a
    rw [List.filter_map]
    rfl
  have hqueued : ∀ a, Queued config (state a) (chosen.filter fun e => e.tx.sender = a) := by
    intro a
    obtain ⟨after, hq⟩ := hchosen a
    have hall := h a
    rw [← hq] at hall
    exact hall.left
  refine ⟨fun a i x hx => ?_, fun a => ?_⟩
  · rw [hfilter, List.getElem?_map] at hx
    obtain ⟨e, he, rfl⟩ := Option.map_eq_some_iff.1 hx
    exact (hqueued a).nonce i e he
  · rw [hfilter, List.map_map]
    exact (hqueued a).covered

end Mempool

end

/-! ## Templates of a service -/

namespace NodeService

section

variable [Primitives]

/-- `template`, where the clock says `now`. -/
def template (params : NetworkParams) (now : ℤ) (miner : Address) (memo : Bytes) :
    ServiceM Block := do
  let s ← get
  onChain (Node.onStore (buildTemplate params s.mempool miner now memo))

variable {config : MempoolConfig} {clock : ℕ → ℤ} {time : ℕ → ℚ} {B : Set Block}
variable {H : Set Transfer} {s : NodeService} {L : Ledger} {ctx : BlockContext} {miner : Address}
variable {now : ℤ} {memo : Bytes}

/-- What is chosen for a template: transfers that can be paid and fit. -/
structure Choice (config : MempoolConfig) (s : NodeService) (memo : Bytes) (txs : List Transfer) :
    Prop where
  select : s.mempool.select (roomFor config.params memo) = .ok txs
  payable : Payable s.state txs
  checked : ∀ x ∈ txs, checkTransaction config.params (.transfer x) = .ok ()
  room : (txs.map Transfer.size).sum ≤ roomFor config.params memo
  nodup : txs.Nodup

/-- The template a settled service builds, its context and its transfers. -/
structure Templates (config : MempoolConfig) (s : NodeService) (L : Ledger) (now : ℤ)
    (miner : Address) (memo : Bytes) (ctx : BlockContext) (txs : List Transfer) (c : Coinbase)
    (b : Block) : Prop extends Choice config s memo txs where
  context : L.context config.params = .ok ctx
  reads : outcome (Store.nextBlockContext config.params) s.chain.store = .ok ctx
  builds : outcome (template config.params now miner memo) s = .ok b
  isTemplate : IsTemplate config.params ctx miner now memo txs c b
  amount : config.params.blockReward + (txs.map Transfer.fee).sum ≤ MAX_AMOUNT

/-- **A template is accepted** on top of the ledger it was built on,
whatever its nonce. -/
theorem Templates.accepted {c : Coinbase} {b : Block} {txs : List Transfer}
    (h : Templates config s L now miner memo ctx txs c b)
    (hs : Sound config.params B s.chain.store L)
    (hsupply : config.params.blockReward * (L.chain.length + 1) ≤ MAX_AMOUNT)
    (hminer : isKnownPayload miner = true) (hmemo : memo.length ≤ MAX_MEMO_SIZE)
    (hS : CollisionFree {m | ∃ tx ∈ b.transactions, m = tx.serialize}) (nonce : ℕ)
    (hnonce : nonce < 256 ^ 8) :
    CheckedBlock config.params (b.withNonce nonce hnonce) ∧
      ∃ changes, applyBlock (b.withNonce nonce hnonce) ctx (getAccount L.accounts) config.params
        false = .ok changes := by
  have ht := h.isTemplate.withNonce nonce hnonce
  have hnodup : (b.transactions.map Transaction.txid).Nodup := by
    refine List.Nodup.map_on (fun x hx y hy hxy => ?_) ?_
    · exact Transaction.serialize_injective (hS ⟨x, hx, rfl⟩ ⟨y, hy, rfl⟩ hxy)
    · rw [h.isTemplate.transactions, List.nodup_cons]
      refine ⟨fun hc => ?_, h.nodup.map fun x y hxy => Transaction.transfer.inj hxy⟩
      obtain ⟨x, -, hx⟩ := List.mem_map.1 hc
      cases hx
  have hchecked := ht.checkedBlock hminer hmemo h.amount h.room h.checked hnodup
  have hpay := h.payable
  rw [show s.state = _ from hs.good.tables.getAccount_eq, ← ht.transfers_eq] at hpay
  refine ⟨hchecked, hs.good.valid.applyBlock_isOk h.context ht.checkedHeader hchecked hpay
    ⟨c, ?_, ?_⟩ ?_⟩
  · rw [Block.coinbase, ht.transactions]
  · rw [ht.amount, ht.transfers_eq]
  · rw [Nat.mul_succ] at hsupply
    omega

/-! ## Runs -/

end

end NodeService

section

attribute [local instance] Sample.primitives

namespace NodeService

end NodeService

end

end TalCash
