import TalCash.Core.Encoding
import TalCash.Core.Params
/-!
# Transactions

Transfers and coinbases with the widths of their encoded fields as part
of the types, so that every value serializes. The reader of transactions
reads back what was written (`reads_transaction`), and so a transaction
is fixed by its bytes, across the two types.
-/

namespace TalCash

open BigEndian

variable [Library]

def TX_VERSION : ℕ := 1
def TYPE_COINBASE : ℕ := 0
def TYPE_TRANSFER : ℕ := 1
def MAX_OUTPUTS : ℕ := 255
def MAX_MEMO_SIZE : ℕ := 255
def SIGNATURE_DOMAIN : Bytes := "TalCash/tx/1\x00".toUTF8.toList

/-! ## Addresses -/

/-- `payload_from_public_key`. -/
def payloadFromPublicKey (publicKey : PublicKey) : Address :=
  ⟨0 :: (sha256 publicKey.1).1.take 20, by
    rw [List.length_cons, List.length_take, (sha256 publicKey.1).2]; rfl⟩

/-- `is_known_payload`: the version byte is `0` (the length is the type's). -/
def isKnownPayload (payload : Address) : Bool := payload.1.head? == some 0

theorem isKnownPayload_payloadFromPublicKey (publicKey : PublicKey) :
    isKnownPayload (payloadFromPublicKey publicKey) = true := rfl

/-- `BURN_PAYLOAD`: nobody can spend what is sent here. -/
def BURN_PAYLOAD : Address := zeroBytes 21

/-! ## The two kinds of transaction -/

/-- One payment of a transfer. -/
structure Output where
  address : Address
  amount : ℕ
  amount_lt : amount < 256 ^ 8
deriving DecidableEq

/-- One sender pays one or more receivers. -/
structure Transfer where
  networkId : ℕ
  senderPublicKey : PublicKey
  nonce : ℕ
  fee : ℕ
  outputs : List Output
  memo : Bytes := []
  signature : Signature
  networkId_lt : networkId < 256 ^ 1
  nonce_lt : nonce < 256 ^ 8
  fee_lt : fee < 256 ^ 8
  outputs_lt : outputs.length < 256 ^ 1
  memo_lt : memo.length < 256 ^ 1
deriving DecidableEq

/-- The first transaction of a block pays the miner. -/
structure Coinbase where
  networkId : ℕ
  height : ℕ
  address : Address
  amount : ℕ
  memo : Bytes := []
  networkId_lt : networkId < 256 ^ 1
  height_lt : height < 256 ^ 8
  amount_lt : amount < 256 ^ 8
  memo_lt : memo.length < 256 ^ 1
deriving DecidableEq

/-- `Transfer | Coinbase`. -/
inductive Transaction
  | transfer (tx : Transfer)
  | coinbase (tx : Coinbase)
deriving DecidableEq

namespace Output

def serialize (o : Output) : Bytes := o.address.1 ++ beBytes 8 o.amount

end Output

namespace Transfer

/-- `Transfer.unsigned_bytes`. -/
def unsignedBytes (tx : Transfer) : Bytes :=
  beBytes 1 TX_VERSION ++ (beBytes 1 tx.networkId ++ (beBytes 1 TYPE_TRANSFER ++
    (tx.senderPublicKey.1 ++ (beBytes 8 tx.nonce ++ (beBytes 8 tx.fee ++
      (beBytes 1 tx.outputs.length ++ (tx.outputs.flatMap Output.serialize ++
        var8Bytes tx.memo)))))))

/-- `Transfer.serialize`. -/
def serialize (tx : Transfer) : Bytes := tx.unsignedBytes ++ tx.signature.1

def txid (tx : Transfer) : Digest := sha256 tx.serialize

def size (tx : Transfer) : ℕ := tx.serialize.length

/-- The address payload of the sender. -/
def sender (tx : Transfer) : Address := payloadFromPublicKey tx.senderPublicKey

/-- The amounts a transfer pays out. -/
def paid (tx : Transfer) : ℕ := (tx.outputs.map Output.amount).sum

/-- `Transfer.total_spent`. -/
def totalSpent (tx : Transfer) : ℕ := tx.paid + tx.fee

def signingMessage (tx : Transfer) : Bytes := SIGNATURE_DOMAIN ++ tx.unsignedBytes

def hasValidSignature (tx : Transfer) : Bool :=
  verifySignature tx.senderPublicKey tx.signingMessage tx.signature

end Transfer

namespace Coinbase

/-- `Coinbase.serialize`. -/
def serialize (tx : Coinbase) : Bytes :=
  beBytes 1 TX_VERSION ++ (beBytes 1 tx.networkId ++ (beBytes 1 TYPE_COINBASE ++
    (beBytes 8 tx.height ++ (tx.address.1 ++ (beBytes 8 tx.amount ++ var8Bytes tx.memo)))))

def txid (tx : Coinbase) : Digest := sha256 tx.serialize

end Coinbase

namespace Transaction

def serialize : Transaction → Bytes
  | transfer tx => tx.serialize
  | coinbase tx => tx.serialize

def txid (tx : Transaction) : Digest := sha256 tx.serialize

def networkId : Transaction → ℕ
  | transfer tx => tx.networkId
  | coinbase tx => tx.networkId

def memo : Transaction → Bytes
  | transfer tx => tx.memo
  | coinbase tx => tx.memo

/-- `isinstance(tx, Coinbase)`. -/
def isCoinbase : Transaction → Bool
  | transfer _ => false
  | coinbase _ => true

/-- The transfer, where it is one. -/
def transfer? : Transaction → Option Transfer
  | transfer tx => some tx
  | coinbase _ => none

end Transaction

/-! ## Reading -/

/-- `Output(r.fixed(PAYLOAD_SIZE), r.u64())`. -/
def readOutput : Reader Output := do
  let address ← Reader.fixed 21
  let amount ← Reader.u64
  pure ⟨address, amount.1, amount.2⟩

/-- The part of `read_transaction` after the type byte of a transfer. -/
def readTransfer (networkId : {n : ℕ // n < 256 ^ 1}) : Reader Transaction := do
  let senderPublicKey ← Reader.fixed 32
  let nonce ← Reader.u64
  let fee ← Reader.u64
  let count ← Reader.u8
  let outputs ← Reader.many readOutput count.1
  let memo ← Reader.var8
  let signature ← Reader.fixed 64
  pure (.transfer ⟨networkId.1, senderPublicKey, nonce.1, fee.1, outputs.1, memo.1, signature,
    networkId.2, nonce.2, fee.2, lt_of_eq_of_lt outputs.2 count.2, memo.2⟩)

/-- The part of `read_transaction` after the type byte of a coinbase. -/
def readCoinbase (networkId : {n : ℕ // n < 256 ^ 1}) : Reader Transaction := do
  let height ← Reader.u64
  let address ← Reader.fixed 21
  let amount ← Reader.u64
  let memo ← Reader.var8
  pure (.coinbase ⟨networkId.1, height.1, address, amount.1, memo.1, networkId.2, height.2,
    amount.2, memo.2⟩)

/-- The part of `read_transaction` after the version byte. -/
def readUnversioned : Reader Transaction := do
  let networkId ← Reader.u8
  let txType ← Reader.u8
  if txType.1 = TYPE_TRANSFER then readTransfer networkId
  else if txType.1 = TYPE_COINBASE then readCoinbase networkId
  else
    let t := txType.1
    throw (.decode s!"unknown transaction type {t}")

/-- `read_transaction`. -/
def readTransaction : Reader Transaction := do
  let version ← Reader.u8
  if version.1 ≠ TX_VERSION then
    let v := version.1
    throw (.decode s!"unknown transaction version {v}")
  else readUnversioned

omit [Library] in
theorem reads_output (o : Output) : Reads readOutput o.serialize o :=
  (Reads.fixed o.address).bind (Reads.uint o.amount_lt).bind_pure

omit [Library] in
theorem reads_transfer (tx : Transfer) :
    Reads (readTransfer ⟨tx.networkId, tx.networkId_lt⟩)
      (tx.senderPublicKey.1 ++ (beBytes 8 tx.nonce ++ (beBytes 8 tx.fee ++
        (beBytes 1 tx.outputs.length ++ (tx.outputs.flatMap Output.serialize ++
          (var8Bytes tx.memo ++ tx.signature.1))))))
      (.transfer tx) :=
  (Reads.fixed tx.senderPublicKey).bind <| (Reads.uint tx.nonce_lt).bind <|
    (Reads.uint tx.fee_lt).bind <| (Reads.uint tx.outputs_lt).bind <|
    (Reads.many fun o _ => reads_output o).bind <| (Reads.var8 tx.memo_lt).bind <|
    (Reads.fixed tx.signature).bind_pure

omit [Library] in
theorem reads_coinbase (tx : Coinbase) :
    Reads (readCoinbase ⟨tx.networkId, tx.networkId_lt⟩)
      (beBytes 8 tx.height ++ (tx.address.1 ++ (beBytes 8 tx.amount ++ var8Bytes tx.memo)))
      (.coinbase tx) :=
  (Reads.uint tx.height_lt).bind <| (Reads.fixed tx.address).bind <|
    (Reads.uint tx.amount_lt).bind <| (Reads.var8 tx.memo_lt).bind_pure

omit [Library] in
theorem reads_version {b : Bytes} {tx : Transaction} (h : Reads readUnversioned b tx) :
    Reads readTransaction (beBytes 1 TX_VERSION ++ b) tx := by
  have hv : Reads (Reader.uint 1) (beBytes 1 TX_VERSION) ⟨TX_VERSION, by decide⟩ :=
    Reads.uint (by decide)
  refine hv.bind ?_
  rw [if_neg (by decide : ¬ TX_VERSION ≠ TX_VERSION)]
  exact h

omit [Library] in
theorem reads_typed {networkId t : ℕ} {x : Reader Transaction} {b : Bytes} {tx : Transaction}
    (hn : networkId < 256 ^ 1) (ht : t < 256 ^ 1)
    (hx : t = TYPE_TRANSFER ∧ x = readTransfer ⟨networkId, hn⟩ ∨
      t = TYPE_COINBASE ∧ x = readCoinbase ⟨networkId, hn⟩) (h : Reads x b tx) :
    Reads readUnversioned (beBytes 1 networkId ++ (beBytes 1 t ++ b)) tx := by
  refine (Reads.uint hn).bind ((Reads.uint ht).bind ?_)
  rcases hx with ⟨rfl, rfl⟩ | ⟨rfl, rfl⟩
  · rw [if_pos rfl]; exact h
  · rw [if_neg (by decide : ¬ TYPE_COINBASE = TYPE_TRANSFER), if_pos rfl]; exact h

omit [Library] in
/-- **A transaction is read back from its bytes.** -/
theorem reads_transaction (tx : Transaction) : Reads readTransaction tx.serialize tx := by
  cases tx with
  | transfer tx =>
    simp only [Transaction.serialize, Transfer.serialize, Transfer.unsignedBytes,
      List.append_assoc]
    exact reads_version (reads_typed tx.networkId_lt (by decide) (Or.inl ⟨rfl, rfl⟩)
      (reads_transfer tx))
  | coinbase tx =>
    exact reads_version (reads_typed tx.networkId_lt (by decide) (Or.inr ⟨rfl, rfl⟩)
      (reads_coinbase tx))

omit [Library] in
/-- **The bytes fix the transaction**, its type included. -/
theorem Transaction.serialize_injective : Function.Injective Transaction.serialize :=
  fun a b h => (reads_transaction a).injective (h ▸ reads_transaction b)

/-! ## The rules that need no chain state -/

/-- The rules for an output, in `check_transaction`. -/
def checkOutput (output : Output) : Except PyError Unit :=
  if !isKnownPayload output.address then
    invalid "bad-address" "output pays an unknown address type"
  else if output.amount < 1 ∨ MAX_AMOUNT < output.amount then
    invalid "bad-amount" "every output must be at least 1 base unit"
  else .ok ()

/-- The rules for a coinbase, in `check_transaction`. -/
def checkCoinbase (tx : Coinbase) : Except PyError Unit :=
  if !isKnownPayload tx.address then
    invalid "bad-address" "coinbase pays an unknown address type"
  else if MAX_AMOUNT < tx.amount then
    invalid "bad-amount" "coinbase amount out of range"
  else .ok ()

/-- The rules for a transfer, in `check_transaction`. -/
def checkTransfer (tx : Transfer) : Except PyError Unit :=
  let outputs := tx.outputs.length
  if outputs < 1 ∨ MAX_OUTPUTS < outputs then
    invalid "bad-output-count" s!"{outputs} outputs"
  else
    match tx.outputs.forM checkOutput with
    | .error e => .error e
    | .ok () =>
      if MAX_AMOUNT < tx.fee then invalid "bad-fee"
      else if MAX_AMOUNT < tx.totalSpent then invalid "amount-overflow"
      else if !tx.hasValidSignature then invalid "bad-signature"
      else .ok ()

/-- `check_transaction`. -/
def checkTransaction (params : NetworkParams) (tx : Transaction) : Except PyError Unit :=
  let network := tx.networkId
  if network ≠ params.networkId then
    invalid "wrong-network" s!"transaction is for network {network}"
  else if MAX_MEMO_SIZE < tx.memo.length then invalid "memo-too-large"
  else
    match tx with
    | .coinbase tx => checkCoinbase tx
    | .transfer tx => checkTransfer tx

section Raises

variable {P : PyError → Prop} (hP : Rules P)
include hP

omit [Library] in
theorem raises_checkOutput (o : Output) : Raises P (checkOutput o) :=
  .ite (fun _ => .invalid (hP _ _ (by decide))) fun _ =>
    .ite (fun _ => .invalid (hP _ _ (by decide))) fun _ => .ok ()

/-- A transaction that breaks a rule is refused with `ValidationError`. -/
theorem raises_checkTransaction (params : NetworkParams) (tx : Transaction) :
    Raises P (checkTransaction params tx) := by
  refine .ite (fun _ => .invalid (hP _ _ (by decide))) fun _ =>
    .ite (fun _ => .invalid (hP _ _ (by decide))) fun _ => ?_
  cases tx with
  | coinbase tx =>
    exact .ite (fun _ => .invalid (hP _ _ (by decide))) fun _ =>
      .ite (fun _ => .invalid (hP _ _ (by decide))) fun _ => .ok ()
  | transfer tx =>
    refine .ite (fun _ => .invalid (hP _ _ (by decide))) fun _ => ?_
    split
    · rename_i e he
      exact (Raises.forM fun o _ => raises_checkOutput hP o).error he
    · exact .ite (fun _ => .invalid (hP _ _ (by decide))) fun _ =>
        .ite (fun _ => .invalid (hP _ _ (by decide))) fun _ =>
        .ite (fun _ => .invalid (hP _ _ (by decide))) fun _ => .ok ()

end Raises

end TalCash
