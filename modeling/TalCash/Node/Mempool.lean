import TalCash.Common.Exec
import TalCash.Core.Sample
import TalCash.Core.State
/-!
# The mempool

The transfers a node has accepted that are in no block yet. A full
mempool gives up the transfer with the lowest fee rate among each
sender's last; the heap that finds it keeps entries that went stale.
`_trim_to_size` is an argument of what calls it, so that the class and
its subclass that looks at every sender (`trimScanning`) share the rest.
Nothing returned depends on the order of a dictionary, for which a
`Table` stands. A heap is the sorted list of its items, a clock reading
an exact number of seconds.
-/

namespace TalCash

variable [Library]

/-! ## Entries and keys -/

/-- `MempoolEntry`. -/
structure MempoolEntry where
  tx : Transfer
  size : ℕ
  added : ℚ

/-- `Fraction(fee, size)`. -/
def feeRateOf (fee size : ℕ) : ℚ := fee / size

/-- `MempoolEntry.fee_rate`. -/
def MempoolEntry.feeRate (e : MempoolEntry) : ℚ := feeRateOf e.tx.fee e.size

omit [Library] in
/-- Byte strings compare from the left. -/
instance bytesOrder {n : ℕ} : LinearOrder (List.Vector UInt8 n) where
  le a b := a.1 ≤ b.1
  lt a b := a.1 < b.1
  le_refl a := List.le_refl a.1
  le_trans _ _ _ := List.le_trans
  le_antisymm _ _ h h' := Subtype.ext (List.le_antisymm h h')
  le_total a b := List.le_total a.1 b.1
  toDecidableLE a b := inferInstanceAs (Decidable (a.1 ≤ b.1))
  lt_iff_le_not_ge a b := ⟨fun h => ⟨List.le_of_lt h, List.not_le.2 h⟩, fun h => List.not_le.1 h.2⟩

/-- An item of `_evictable`: fee rate, negated time and txid. -/
structure EvictionKey where
  feeRate : ℚ
  negAdded : ℚ
  txid : Digest
deriving DecidableEq

namespace EvictionKey

/-- The item as a tuple. -/
def tuple (k : EvictionKey) : ℚ ×ₗ ℚ ×ₗ Digest := toLex (k.feeRate, toLex (k.negAdded, k.txid))

omit [Library] in
theorem tuple_injective : Function.Injective tuple := by
  rintro ⟨a, b, c⟩ ⟨a', b', c'⟩ h
  cases h
  rfl

/-- Tuples compare from the left. -/
instance : LinearOrder EvictionKey := LinearOrder.lift' tuple tuple_injective

omit [Library] in
theorem le_iff {a b : EvictionKey} : a ≤ b ↔ a.feeRate < b.feeRate ∨ a.feeRate = b.feeRate ∧
    (a.negAdded < b.negAdded ∨ a.negAdded = b.negAdded ∧ a.txid ≤ b.txid) := by
  show a.tuple ≤ b.tuple ↔ _
  rw [Prod.Lex.le_iff, Prod.Lex.le_iff]
  rfl

end EvictionKey

/-- An item of the heap of `select`: negated fee rate, sender and nonce. -/
structure SelectKey where
  negRate : ℚ
  sender : Address
  nonce : ℕ

namespace SelectKey

/-- The item as a tuple. -/
def tuple (k : SelectKey) : ℚ ×ₗ Address ×ₗ ℕ := toLex (k.negRate, toLex (k.sender, k.nonce))

omit [Library] in
theorem tuple_injective : Function.Injective tuple := by
  rintro ⟨a, b, c⟩ ⟨a', b', c'⟩ h
  cases h
  rfl

instance : LinearOrder SelectKey := LinearOrder.lift' tuple tuple_injective

omit [Library] in
theorem negRate_le {a b : SelectKey} (h : a ≤ b) : a.negRate ≤ b.negRate := by
  rcases Prod.Lex.le_iff.1 (show a.tuple ≤ b.tuple from h) with h | ⟨h, -⟩
  · exact le_of_lt h
  · exact le_of_eq h

end SelectKey

/-- The item of an entry. -/
def MempoolEntry.key (e : MempoolEntry) : EvictionKey := ⟨e.feeRate, -e.added, e.tx.txid⟩

/-! ## The mempool and its settings -/

/-- What `Mempool` is constructed with, and an order in which a set is
gone through. -/
structure MempoolConfig where
  params : NetworkParams
  minFeePerByte : ℕ := 1
  maxBytes : ℕ := 50000000
  maxPerSender : ℕ := 64
  expiry : ℕ := 14 * 24 * 3600
  setOrder : List Address → List Address
  setOrder_perm : ∀ l, (setOrder l).Perm l

/-- `Mempool`, and how often its clock was read. -/
structure Mempool where
  byId : Table Digest MempoolEntry := ∅
  bySender : Table Address (Table ℕ MempoolEntry) := ∅
  byReceiver : Table Address (Table Digest MempoolEntry) := ∅
  evictable : List EvictionKey := []
  bytes : ℕ := 0
  clockReads : ℕ := 0

/-- Operations of the mempool. -/
abbrev MempoolM (α : Type) := Exec PyError Mempool α

/-- `d[k]`. -/
def getItem {κ ν : Type} [DecidableEq κ] (k : κ) (t : Table κ ν) : Except PyError ν :=
  match t.lookup k with
  | none => .error .key
  | some v => .ok v

/-- `del d[k]`. -/
def delItem {κ ν : Type} [DecidableEq κ] (k : κ) (t : Table κ ν) : Except PyError (Table κ ν) :=
  match t.lookup k with
  | none => .error .key
  | some _ => .ok (Table.remove k t)

/-- `{o.address for o in tx.outputs}`. -/
def receiversOf (tx : Transfer) : List Address := (tx.outputs.map Output.address).dedup

/-- `pending[min(pending)]`. -/
def firstOf (pending : Table ℕ MempoolEntry) : Except PyError MempoolEntry :=
  match pending.keys.min? with
  | none => .error (.value "min() arg is an empty sequence")
  | some nonce => getItem nonce pending

/-- `pending[max(pending)]`. -/
def lastOf (pending : Table ℕ MempoolEntry) : Except PyError MempoolEntry :=
  match pending.lookup pending.maxKey with
  | none => .error (.value "max() arg is an empty sequence")
  | some e => .ok e

namespace Mempool

/-- `_by_sender.get(address, {})`. -/
def pendingOf (m : Mempool) (address : Address) : Table ℕ MempoolEntry :=
  (m.bySender.lookup address).getD ∅

/-- `pending_for`. -/
def pendingFor (m : Mempool) (address : Address) : List MempoolEntry :=
  let pending := m.pendingOf address
  (pending.keys.insertionSort (· ≤ ·)).filterMap fun nonce => pending.lookup nonce

/-- `self.clock()`. -/
def readClock (clock : ℕ → ℚ) : MempoolM ℚ := do
  let m ← get
  set { m with clockReads := m.clockReads + 1 }
  pure (clock m.clockReads)

/-! ## Entries come and go -/

/-- `_push_evictable`. -/
def pushEvictable (entry : MempoolEntry) : MempoolM Unit := do
  modify fun m => { m with evictable := m.evictable.orderedInsert (· ≤ ·) entry.key }
  let m ← get
  if 2 * m.bySender.entries.length + 1000 < m.evictable.length then
    -- Mostly stale: the heap is built again.
    let lasts ← Exec.lift (m.bySender.rows.mapM fun r => lastOf r.2)
    set { m with evictable := (lasts.map MempoolEntry.key).insertionSort (· ≤ ·) }

/-- One receiver of `_remove`. -/
def forgetReceiver (txid : Digest) (address : Address) : MempoolM Unit := do
  let m ← get
  let incoming ← Exec.lift (getItem address m.byReceiver)
  let incoming ← Exec.lift (delItem txid incoming)
  if incoming.entries.isEmpty then set { m with byReceiver := Table.remove address m.byReceiver }
  else set { m with byReceiver := Table.put address incoming m.byReceiver }

/-- `_remove`. -/
def remove (entry : MempoolEntry) : MempoolM Unit := do
  let tx := entry.tx
  let m ← get
  let byId ← Exec.lift (delItem tx.txid m.byId)
  set { m with byId := byId }
  let m ← get
  let pending ← Exec.lift (getItem tx.sender m.bySender)
  let pending ← Exec.lift (delItem tx.nonce pending)
  if pending.entries.isEmpty then set { m with bySender := Table.remove tx.sender m.bySender }
  else do
    set { m with bySender := Table.put tx.sender pending m.bySender }
    if pending.maxKey < tx.nonce then
      let last ← Exec.lift (lastOf pending)
      pushEvictable last
  (receiversOf tx).forM (forgetReceiver tx.txid)
  modify fun m => { m with bytes := m.bytes - entry.size }

/-- One receiver of `_insert`. -/
def noteReceiver (entry : MempoolEntry) (address : Address) : MempoolM Unit :=
  modify fun m =>
    let incoming := (m.byReceiver.lookup address).getD ∅
    { m with
      byReceiver := Table.put address (Table.put entry.tx.txid entry incoming) m.byReceiver }

/-- The entries of `_insert`: every index gets the new one. -/
def place (entry : MempoolEntry) : MempoolM Unit := do
  let tx := entry.tx
  modify fun m => { m with byId := Table.put tx.txid entry m.byId }
  modify fun m => { m with
    bySender := Table.put tx.sender (Table.put tx.nonce entry (m.pendingOf tx.sender)) m.bySender }
  (receiversOf tx).forM (noteReceiver entry)
  let m ← get
  if tx.nonce = (m.pendingOf tx.sender).maxKey then pushEvictable entry
  modify fun m => { m with bytes := m.bytes + entry.size }

/-! ## Making room -/

variable (config : MempoolConfig)

/-- The loop of `_trim_to_size`. -/
def trimLoop : (steps : ℕ) → MempoolM Unit
  | 0 => do
    let m ← get
    if config.maxBytes < m.bytes then throw .diverged
  | steps + 1 => do
    let m ← get
    if config.maxBytes < m.bytes then
      match m.evictable with
      | [] => throw .index
      | key :: rest => do
        set { m with evictable := rest }
        match m.byId.lookup key.txid with
        -- Already gone.
        | none => trimLoop steps
        | some entry => do
          let pending ← Exec.lift (getItem entry.tx.sender m.bySender)
          -- No longer the sender's last: it is pushed again if it becomes last.
          if entry.tx.nonce ≠ pending.maxKey then trimLoop steps
          else do
            remove entry
            trimLoop steps

/-- `_trim_to_size`. -/
def trimToSize : MempoolM Unit := do
  let m ← get
  trimLoop config (m.evictable.length + m.byId.entries.length)

/-- `min(entries, key=…)`: the first one with the least key. -/
def cheapest : List MempoolEntry → Option MempoolEntry
  | [] => none
  | e :: rest =>
    match cheapest rest with
    | none => some e
    | some e' => if e'.key < e.key then some e' else some e

/-- The loop of `_trim_to_size` that looks at every sender. -/
def scanLoop : (steps : ℕ) → MempoolM Unit
  | 0 => do
    let m ← get
    if config.maxBytes < m.bytes then throw .diverged
  | steps + 1 => do
    let m ← get
    if config.maxBytes < m.bytes then
      let lasts ← Exec.lift (m.bySender.rows.mapM fun r => lastOf r.2)
      match cheapest lasts with
      | none => throw (.value "min() arg is an empty sequence")
      | some entry => do
        remove entry
        scanLoop steps

/-- `_trim_to_size` of the subclass that looks at every sender. -/
def trimScanning : MempoolM Unit := do
  let m ← get
  scanLoop config m.byId.entries.length

/-! ## Adding -/

/-- `REPLACEMENT_FACTOR`. -/
def REPLACEMENT_FACTOR : ℚ := 5 / 4

/-- The policy checks of `_insert`: the transfer that is replaced. -/
def checkPolicy (state : StateView) (m : Mempool) (tx : Transfer) :
    Except PyError (Option MempoolEntry) := do
  let size := tx.size
  let least := config.minFeePerByte * size
  if tx.fee < least then invalid "fee-too-low" s!"this node needs at least {least}"
  else do
    let account := state tx.sender
    let pending := m.pendingOf tx.sender
    let nonce := tx.nonce
    if nonce < account.nonce then invalid "nonce-too-low" s!"nonce {nonce} is already used"
    else do
      let replaced := pending.lookup nonce
      match replaced with
      | none => do
        let expected := account.nonce + pending.entries.length
        if nonce ≠ expected then invalid "nonce-gap" s!"the next nonce is {expected}"
        else if config.maxPerSender ≤ pending.entries.length then invalid "too-many-pending"
        else pure ()
      | some r =>
        if tx.fee ≤ r.tx.fee ∨ feeRateOf tx.fee size < r.feeRate * REPLACEMENT_FACTOR then
          invalid "replacement-fee-too-low" "a replacement must pay at least 25% more per byte"
        else pure ()
      let others := pending.rows.filter fun r => r.1 ≠ nonce
      let spending := tx.totalSpent + (others.map fun r => r.2.tx.totalSpent).sum
      if account.balance < spending then
        invalid "insufficient-funds" "confirmed balance doesn't cover all waiting transfers"
      else pure replaced

variable (trim : MempoolM Unit) (clock : ℕ → ℚ)

/-- `_insert`. -/
def insert (state : StateView) (tx : Transfer) (added : ℚ) : MempoolM MempoolEntry := do
  let m ← get
  let replaced ← Exec.lift (checkPolicy config state m tx)
  replaced.forM remove
  let entry : MempoolEntry := ⟨tx, tx.size, added⟩
  place entry
  trim
  let m ← get
  if (m.byId.lookup tx.txid).isNone then
    throw (.validation ⟨"mempool-full", "fee per byte too low to fit"⟩)
  pure entry

/-- `add`. -/
def add (state : StateView) (tx : Transaction) : MempoolM MempoolEntry :=
  match tx with
  | .coinbase _ => throw (.validation ⟨"not-a-transfer", "only transfers can wait in the mempool"⟩)
  | .transfer tx => do
    let m ← get
    if (m.byId.lookup tx.txid).isSome then throw (.validation ⟨"already-known", ""⟩)
    Exec.lift (checkTransaction config.params (.transfer tx))
    let now ← readClock clock
    insert config trim state tx now

/-! ## Keeping up with the chain -/

/-- The transfers of undone blocks that are not confirmed again. -/
def returningOf (confirmed : List Digest) (disconnected : List Block) : List Transfer :=
  disconnected.flatMap fun block => block.transactions.tail.filterMap fun tx =>
    if tx.txid ∈ confirmed then none else tx.transfer?

/-- `tx.sender`, which a coinbase does not have. -/
def senderOf : Transaction → Except PyError Address
  | .transfer tx => .ok tx.sender
  | .coinbase _ => .error .attribute

/-- The senders that `update` looks at again. -/
def affectedSenders (m : Mempool) (connected disconnected : List Block) (returning : List Transfer) :
    Except PyError (List Address) :=
  if disconnected.isEmpty then
    -- New blocks only raise balances, but for the senders they include.
    (connected.flatMap fun block => block.transactions.tail).mapM senderOf
  else .ok (m.bySender.keys ++ returning.map Transfer.sender)

/-- The transfers that return, each with the time it is taken up. -/
def timed : List Transfer → MempoolM (List (Transfer × ℚ))
  | [] => pure []
  | tx :: rest => do
    let now ← readClock clock
    let others ← timed rest
    pure ((tx, now) :: others)

/-- The waiting transfers of some senders, taken out. -/
def takeOut : List Address → MempoolM (List (Transfer × ℚ))
  | [] => pure []
  | sender :: rest => do
    let m ← get
    let pending := m.pendingFor sender
    pending.forM remove
    let others ← takeOut rest
    pure (pending.map (fun e => (e.tx, e.added)) ++ others)

/-- The order of `sorted(candidates, key=…)`. -/
def candidateLe (a b : Transfer × ℚ) : Prop :=
  toLex (a.1.sender, a.1.nonce) ≤ toLex (b.1.sender, b.1.nonce)

instance : DecidableRel candidateLe := fun a b =>
  inferInstanceAs (Decidable (toLex (a.1.sender, a.1.nonce) ≤ toLex (b.1.sender, b.1.nonce)))

/-- The candidates of `update` put back in turn. -/
def putBack (state : StateView) (confirmed : List Digest) : List (Transfer × ℚ) → MempoolM Unit
  | [] => pure ()
  | (tx, added) :: rest => do
    let m ← get
    if tx.txid ∈ confirmed ∨ (m.byId.lookup tx.txid).isSome then putBack state confirmed rest
    else do
      let r ← Exec.attempt (insert config trim state tx added)
      match r with
      | .ok _ => putBack state confirmed rest
      -- No longer valid on the new chain.
      | .error (.validation _) => putBack state confirmed rest
      | .error e => throw e

/-- `update`. -/
def update (state : StateView) (connected disconnected : List Block) :
    MempoolM (List Transfer) := do
  let confirmed := connected.flatMap fun block => block.transactions.map Transaction.txid
  let returning := returningOf confirmed disconnected
  let m ← get
  let senders ← Exec.lift (affectedSenders m connected disconnected returning)
  let returned ← timed clock returning
  let taken ← takeOut (config.setOrder senders.dedup)
  putBack config trim state confirmed ((returned ++ taken).insertionSort candidateLe)
  let m ← get
  pure (returning.filter fun tx => (m.byId.lookup tx.txid).isSome)

/-- The loop of `expire` over the senders: how many transfers it drops. -/
def expireFor (cutoff : ℚ) : List Address → MempoolM ℕ
  | [] => pure 0
  | sender :: rest => do
    let m ← get
    -- From the first old one on.
    let old := (m.pendingFor sender).dropWhile fun e => !decide (e.added < cutoff)
    old.forM remove
    let others ← expireFor cutoff rest
    pure (old.length + others)

/-- `expire`. -/
def expire : MempoolM ℕ := do
  let now ← readClock clock
  let m ← get
  expireFor (now - config.expiry) m.bySender.keys.reverse

/-! ## Mining -/

/-- The loop of `select`. -/
def selectLoop (m : Mempool) (maxBytes : ℕ) :
    (steps : ℕ) → List SelectKey → List Transfer → ℕ → Except PyError (List Transfer)
  | _, [], chosen, _ => .ok chosen
  | 0, _ :: _, _, _ => .error .diverged
  | steps + 1, key :: heap, chosen, used => do
    let pending ← getItem key.sender m.bySender
    let entry ← getItem key.nonce pending
    -- This sender's later transfers need this one first.
    if maxBytes < used + entry.size then selectLoop m maxBytes steps heap chosen used
    else
      let heap :=
        match pending.lookup (key.nonce + 1) with
        | none => heap
        | some following =>
          heap.orderedInsert (· ≤ ·) ⟨-following.feeRate, key.sender, following.tx.nonce⟩
      selectLoop m maxBytes steps heap (chosen ++ [entry.tx]) (used + entry.size)

/-- `select`. -/
def select (m : Mempool) (maxBytes : ℕ) : Except PyError (List Transfer) := do
  let heap ← m.bySender.rows.mapM fun r => do
    let first ← firstOf r.2
    pure (⟨-first.feeRate, r.1, first.tx.nonce⟩ : SelectKey)
  let steps := (m.bySender.rows.map fun r => r.2.entries.length).sum
  selectLoop m maxBytes steps (heap.insertionSort (· ≤ ·)) [] 0

end Mempool

namespace Sample

omit [Library] in
theorem length_senderKey (sender : UInt8) : (sender :: List.replicate 31 0).length = 32 := by
  rw [List.length_cons, List.length_replicate]

omit [Library] in
theorem one_lt_amount : 1 < 256 ^ 8 := by decide

omit [Library] in
theorem one_lt_count : 1 < 256 ^ 1 := by decide

omit [Library] in
theorem zero_lt_count : 0 < 256 ^ 1 := by decide

omit [Library] in
theorem mod_lt_amount (n : ℕ) : n % 256 ^ 8 < 256 ^ 8 := Nat.mod_lt _ (pow_pos (Nat.succ_pos _) _)

/-- A small payment of one of the senders. -/
def payment (sender : UInt8) (nonce fee : ℕ) : Transfer where
  networkId := params.networkId
  senderPublicKey := ⟨sender :: List.replicate 31 0, length_senderKey sender⟩
  nonce := nonce % 256 ^ 8
  fee := fee % 256 ^ 8
  outputs := [⟨zeroBytes 21, 1, one_lt_amount⟩]
  memo := []
  signature := zeroBytes 64
  networkId_lt := params.networkId_lt
  nonce_lt := mod_lt_amount nonce
  fee_lt := mod_lt_amount fee
  outputs_lt := one_lt_count
  memo_lt := zero_lt_count

/-- A mempool with room for two small payments. -/
def mempoolConfig : MempoolConfig where
  params := params
  maxBytes := 300
  setOrder := id
  setOrder_perm l := List.Perm.refl l

end Sample

end TalCash
