import TalCash.Core.Snapshot
/-!
# The genesis block

Block `0`, built from the parameters; its reward goes to the burn
address. It passes `checkBlock` (`checkedBlock_genesis`).
-/

namespace TalCash

variable [Library] (params : NetworkParams)

/-- The coinbase of `build_genesis`. -/
def genesisCoinbase : Coinbase where
  networkId := params.networkId
  height := 0
  address := BURN_PAYLOAD
  amount := params.blockReward
  memo := params.genesis.message
  networkId_lt := params.networkId_lt
  height_lt := by decide
  amount_lt := lt_of_le_of_lt params.blockReward_le (by decide)
  memo_lt := Nat.lt_succ_of_le params.genesis.message_le

/-- `build_genesis`. -/
def buildGenesis : Except PyError Block := do
  let merkleRoot ← computeMerkleRoot [.coinbase (genesisCoinbase params)]
  pure
    { header :=
        { version := BLOCK_VERSION
          height := 0
          prevId := zeroBytes 32
          merkleRoot := merkleRoot
          snapshotRoot := NO_SNAPSHOT
          timestamp := params.genesis.timestamp
          target := params.genesisTarget
          nonce := params.genesis.nonce
          version_lt := BLOCK_VERSION_lt
          height_lt := by decide
          timestamp_lt := params.genesis.timestamp_lt
          target_lt := lt_of_le_of_lt params.genesisTarget_le params.powLimit_lt
          nonce_lt := params.genesis.nonce_lt }
      transactions := [.coinbase (genesisCoinbase params)]
      count_lt := by simp }

theorem buildGenesis_isOk : ∃ b, buildGenesis params = .ok b := by
  obtain ⟨d, hd⟩ : ∃ d, computeMerkleRoot [.coinbase (genesisCoinbase params)] = .ok d :=
    merkleRoot_isOk (by simp)
  exact ⟨_, by unfold buildGenesis; rw [hd]; rfl⟩

/-- `genesis_block`. -/
def genesisBlock : Block :=
  match h : buildGenesis params with
  | .ok b => b
  | .error _ => absurd h fun he => by
      obtain ⟨b, hb⟩ := buildGenesis_isOk params
      rw [hb] at he
      cases he

theorem buildGenesis_eq : buildGenesis params = .ok (genesisBlock params) := by
  unfold genesisBlock
  split
  · assumption
  · obtain ⟨b, hb⟩ := buildGenesis_isOk params
    simp_all

/-- What the genesis block is made of. -/
theorem genesisBlock_spec :
    (genesisBlock params).header.version = BLOCK_VERSION ∧
      (genesisBlock params).header.height = 0 ∧
      (genesisBlock params).header.target = params.genesisTarget ∧
      (genesisBlock params).header.timestamp = params.genesis.timestamp ∧
      (genesisBlock params).transactions = [.coinbase (genesisCoinbase params)] ∧
      computeMerkleRoot (genesisBlock params).transactions =
        .ok (genesisBlock params).header.merkleRoot := by
  have h := buildGenesis_eq params
  unfold buildGenesis at h
  obtain ⟨d, hd, h⟩ := bind_eq_ok.1 h
  rw [← Except.ok.inj h]
  exact ⟨rfl, rfl, rfl, rfl, rfl, hd⟩

@[simp] theorem genesisBlock_height : (genesisBlock params).height = 0 :=
  (genesisBlock_spec params).2.1

/-- The parent that genesis names. -/
theorem genesisBlock_prevId : (genesisBlock params).header.prevId = zeroBytes 32 := by
  have h := buildGenesis_eq params
  unfold buildGenesis at h
  obtain ⟨d, -, h⟩ := bind_eq_ok.1 h
  rw [← Except.ok.inj h]

theorem genesisBlock_transactions :
    (genesisBlock params).transactions = [.coinbase (genesisCoinbase params)] :=
  (genesisBlock_spec params).2.2.2.2.1

@[simp] theorem genesisBlock_transfers : (genesisBlock params).transfers = [] := by
  rw [Block.transfers, genesisBlock_transactions]; rfl

theorem checkTransaction_genesisCoinbase :
    checkTransaction params (.coinbase (genesisCoinbase params)) = .ok () := by
  have hmemo : ¬ MAX_MEMO_SIZE < (genesisCoinbase params).memo.length :=
    not_lt.2 params.genesis.message_le
  have haddr : isKnownPayload (genesisCoinbase params).address = true := rfl
  have hamt : ¬ MAX_AMOUNT < (genesisCoinbase params).amount := not_lt.2 params.blockReward_le
  simp only [checkTransaction, Transaction.networkId, Transaction.memo, checkCoinbase, haddr]
  rw [if_neg (by simp [genesisCoinbase]), if_neg hmemo, if_neg (by simp), if_neg hamt]

omit [Library] in
theorem size_genesisCoinbase_le : (Transaction.coinbase (genesisCoinbase params)).serialize.length
    ≤ 296 := by
  have h := params.genesis.message_le
  simp only [Transaction.serialize, Coinbase.serialize, var8Bytes, List.length_append,
    BigEndian.length_beBytes, (genesisCoinbase params).address.2]
  have : (genesisCoinbase params).memo.length ≤ 255 := h
  omega

/-- **The genesis block passes `checkBlock`.** -/
theorem checkedBlock_genesis : CheckedBlock params (genesisBlock params) := by
  obtain ⟨hv, hh, -, -, ht, hr⟩ := genesisBlock_spec params
  refine ⟨hv, ?_, ⟨genesisCoinbase params, ?_, hh.symm⟩, ?_, hr, ?_⟩
  · have hc := size_genesisCoinbase_le params
    have hmax := params.maxBlockSize_ge
    have hH : HEADER_SIZE = 156 := rfl
    simp only [Block.size, Block.serialize, List.length_append, BlockHeader.length_serialize,
      BigEndian.length_beBytes, ht, List.flatMap_cons, List.flatMap_nil, List.length_nil]
    omega
  · rw [genesisBlock_transfers, ht]; rfl
  · rw [ht]; exact List.nodup_singleton _
  · intro tx htx
    rw [ht, List.mem_singleton] at htx
    rw [htx]
    exact checkTransaction_genesisCoinbase params

end TalCash
