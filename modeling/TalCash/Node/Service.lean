import TalCash.Node.Keeping
import TalCash.Node.Mempool
/-!
# Questions to a node

What `NodeService` answers from the store and the mempool: an account, the
history of an address, a transaction. On a store that holds a ledger the
answers are those of the ledger (`account_spec`, `history_spec`,
`findTransaction_spec`).
-/

namespace TalCash

/-! ## What the database and the mempool are asked -/

namespace Db

/-- `find_tx`. -/
def findTx (txid : Digest) (db : Db) : Option TxLocation := db.txIndex.lookup txid

/-- `coinbase_heights`. -/
def coinbaseHeights (address : Address) (above : ℤ) (db : Db) : List ℕ :=
  (db.addressIndex.rows.filter fun r =>
    r.1.1 = address ∧ r.1.2.2 = 0 ∧ above < r.1.2.1).map fun r => r.1.2.1

/-- A height and a position, which order the rows of `address_index`. -/
abbrev Cursor := ℕ ×ₗ ℕ

/-- The condition on the cursor in the query of `address_history`. -/
def isOlder (before : Option Cursor) (c : Cursor) : Bool :=
  match before with
  | none => true
  | some cursor => c < cursor

end Db

namespace Mempool

/-- `incoming_for`. -/
def incomingFor (m : Mempool) (address : Address) : List MempoolEntry :=
  ((m.byReceiver.lookup address).getD ∅).rows.reverse.map Prod.snd

variable [Library]

/-- `involving`: a transfer that is in both lists stands where `pending_for`
has it. -/
def involving (m : Mempool) (address : Address) : List MempoolEntry :=
  let pending := m.pendingFor address
  let incoming := m.incomingFor address
  let entries := pending.map (fun e => (incoming.find? fun i => i.tx.txid = e.tx.txid).getD e) ++
    incoming.filter fun i => pending.all fun e => e.tx.txid ≠ i.tx.txid
  entries.insertionSort fun e f => f.added ≤ e.added

end Mempool

/-! ## Answers -/

/-- `AccountInfo`. -/
structure AccountInfo where
  balance : ℕ
  nonce : ℕ
  nextNonce : ℕ
  pendingOut : ℕ
  pendingIn : ℕ
  immature : ℕ

/-- `AccountInfo.available`. -/
def AccountInfo.available (info : AccountInfo) : ℤ := info.balance - info.pendingOut

/-- `HistoryItem`: no location and no time while a transfer waits. -/
structure HistoryItem where
  tx : Transaction
  location : Option TxLocation
  time : Option ℕ
deriving DecidableEq

namespace Service

variable [Primitives] (params : NetworkParams) (m : Mempool)

/-- The loop of `account` over the coinbases that have not matured. -/
def immatureAt : List ℕ → StoreM ℕ
  | [] => pure 0
  | height :: rest => do
    let b ← Store.mainBlock height
    match b with
    | none => throw .attribute
    | some b => do
      let coinbase ← Exec.lift b.coinbase
      let others ← immatureAt rest
      pure (coinbase.amount + others)

/-- What the waiting transfers pay an address. -/
def pendingIn (address : Address) : ℕ :=
  ((m.incomingFor address).flatMap fun e =>
    (e.tx.outputs.filter fun o => o.address = address).map Output.amount).sum

/-- `account`. -/
def account (address : Address) : StoreM AccountInfo := do
  let s ← get
  let confirmed := s.db.getAccount address
  let pending := m.pendingFor address
  let tip : ℤ := s.db.tipHeight
  let immature ← immatureAt (s.db.coinbaseHeights address (tip - params.coinbaseMaturity))
  pure ⟨confirmed.balance, confirmed.nonce, confirmed.nonce + pending.length,
    (pending.map fun e => e.tx.totalSpent).sum, pendingIn m address, immature⟩

/-- The item of a waiting transfer. -/
def waitingItem (e : MempoolEntry) : HistoryItem := ⟨.transfer e.tx, none, none⟩

/-- `find_transaction`. -/
def findTransaction (txid : Digest) : StoreM (Option HistoryItem) := do
  let s ← get
  match s.db.findTx txid with
  | none => pure ((m.byId.lookup txid).map waitingItem)
  | some location => do
    let b ← Store.block location.blockId
    match b with
    | none => throw .attribute
    | some b => do
      match b.transactions[location.position]? with
      | none => throw .index
      | some tx => pure (some ⟨tx, some location, some b.header.timestamp⟩)

/-- `confirmations`. -/
def confirmations (height : ℕ) (db : Db) : ℤ := db.tipHeight - height + 1

end Service

/-! ## What a chain says of an address -/

/-- The height and the position an item is at. -/
def HistoryItem.cursor? (i : HistoryItem) : Option Db.Cursor :=
  i.location.map fun l => toLex (l.height, l.position)

/-- The same of an item that is at some place. -/
def HistoryItem.cursor (i : HistoryItem) : Db.Cursor := i.cursor?.getD (toLex (0, 0))

variable [Primitives]

/-- A transaction at its place in a block. -/
def Block.item (b : Block) (t : Transaction × ℕ) : HistoryItem :=
  ⟨t.1, some ⟨b.blockId, b.height, t.2⟩, some b.header.timestamp⟩

/-- The transactions of a block that touch an address, the last one first. -/
def Block.touching (address : Address) (b : Block) : List HistoryItem :=
  (b.transactions.zipIdx.reverse.filter fun t => address ∈ addressesOf t.1).map b.item

/-- The transactions of a chain that touch an address, newest first. -/
def Ledger.touching (L : Ledger) (address : Address) : List HistoryItem :=
  L.chain.flatMap (Block.touching address)

variable {params : NetworkParams} {B : Set Block} {lim : ℕ} {s s' : Store} {L : Ledger}
variable {b : Block} {a : Address} {i : HistoryItem}

namespace Matches

variable {db : Db}

end Matches

/-! ## Answers from a store that holds a ledger -/

namespace Good

variable {m : Mempool}

/-- **A transaction that is asked for** is found where the chain has it;
otherwise it is the one that waits, if one does. -/
theorem findTransaction_spec (h : Good params B lim s L) (m : Mempool) (txid : Digest) :
    Exec.wp (Service.findTransaction m txid)
      (fun x s' => ((∃ b ∈ L.chain, ∃ tx position, b.transactions[position]? = some tx ∧
          tx.txid = txid ∧ x = some (b.item (tx, position))) ∨
        (∀ b ∈ L.chain, ∀ tx ∈ b.transactions, tx.txid ≠ txid) ∧
          x = (m.byId.lookup txid).map Service.waitingItem) ∧ Store.Reading s s')
      (fun _ _ => False) s := by
  rw [Service.findTransaction, Exec.wp_bind, Exec.wp_get]
  cases hfind : s.db.findTx txid with
  | none =>
    refine Exec.wp_pure.2 ⟨Or.inr ⟨fun b hb tx htx hid => ?_, rfl⟩, Store.Reading.refl s⟩
    obtain ⟨position, hlt, hget⟩ := List.mem_iff_getElem.1 htx
    have hrow : (txid, ⟨b.blockId, b.height, position⟩) ∈ L.chain.flatMap txRows :=
      List.mem_flatMap.2 ⟨b, hb, mem_txRows.2
        ⟨rfl, rfl, tx, hget ▸ List.getElem?_eq_getElem hlt, hid⟩⟩
    have hsome := (h.tables.txIndex _ _).2 hrow
    rw [Db.findTx, hsome] at hfind
    cases hfind
  | some location =>
    obtain ⟨b, hb, hm⟩ := List.mem_flatMap.1 ((h.tables.txIndex _ _).1 hfind)
    obtain ⟨hid, hheight, tx, htx, htxid⟩ := mem_txRows.1 hm
    dsimp only
    rw [hid, Exec.wp_bind]
    refine (h.block_spec hb).mono ?_ fun _ _ h => h
    rintro _ s' ⟨rfl, hr⟩
    dsimp only
    rw [htx]
    refine Exec.wp_pure.2 ⟨Or.inl ⟨b, hb, tx, location.position, htx, htxid, ?_⟩, hr⟩
    rw [Block.item, ← hid, ← hheight]

end Good

/-! ## Accounts -/

/-- The coinbase of a block pays this address. -/
def Block.paysMiner (address : Address) (b : Block) : Bool :=
  match b.coinbase with
  | .ok c => c.address = address
  | .error _ => false

/-- What an address is going to get from coinbases that have not matured. -/
def Ledger.immature (params : NetworkParams) (L : Ledger) (address : Address) : ℕ :=
  (((L.unmatured params).filter (Block.paysMiner address)).map coinbaseAmount).sum

/-- What a ledger and a mempool say of an account. -/
def Ledger.accountInfo (params : NetworkParams) (L : Ledger) (m : Mempool) (address : Address) :
    AccountInfo where
  balance := (getAccount L.accounts address).balance
  nonce := (getAccount L.accounts address).nonce
  nextNonce := (getAccount L.accounts address).nonce + (m.pendingFor address).length
  pendingOut := ((m.pendingFor address).map fun e => e.tx.totalSpent).sum
  pendingIn := Service.pendingIn m address
  immature := L.immature params address

theorem CheckedBlock.paysMiner_iff (h : CheckedBlock params b) :
    b.paysMiner a = true ↔ ∃ tx, b.transactions[0]? = some tx ∧ a ∈ addressesOf tx := by
  obtain ⟨c, hc, -, htxs⟩ := h.coinbase
  rw [Block.paysMiner, hc, htxs]
  simp only [decide_eq_true_eq, List.getElem?_cons_zero, Option.some.injEq, exists_eq_left',
    addressesOf, List.mem_singleton]
  exact eq_comm

/-- The heights of the coinbases that have not matured. -/
theorem Matches.coinbaseHeights_perm {db : Db} (h : Matches db L) (hv : Ledger.Valid params L)
    (a : Address) :
    (db.coinbaseHeights a ((db.tipHeight : ℤ) - params.coinbaseMaturity)).Perm
      (((L.unmatured params).filter (Block.paysMiner a)).map Block.height) := by
  have htip := h.tipHeight hv
  have hkeys : (db.addressIndex.rows.filter fun r =>
      r.1.1 = a ∧ r.1.2.2 = 0 ∧ (db.tipHeight : ℤ) - params.coinbaseMaturity < r.1.2.1).Pairwise
      fun r r' => r.1 ≠ r'.1 :=
    (List.pairwise_map.1 Table.rows_nodup_keys).filter _
  have hheights : (((L.unmatured params).filter (Block.paysMiner a)).map Block.height).Nodup :=
    hv.linked.heights_nodup.sublist
      ((List.filter_sublist.trans List.filter_sublist).map Block.height)
  refine (List.perm_ext_iff_of_nodup ?_ hheights).2 fun height => ?_
  · refine List.pairwise_map.2 (hkeys.imp_of_mem fun {r r'} hr hr' hne heq => hne ?_)
    obtain ⟨-, hr⟩ := List.mem_filter.1 hr
    obtain ⟨-, hr'⟩ := List.mem_filter.1 hr'
    obtain ⟨ha, hp, -⟩ := of_decide_eq_true hr
    obtain ⟨ha', hp', -⟩ := of_decide_eq_true hr'
    exact Prod.ext (ha.trans ha'.symm) (Prod.ext heq (hp.trans hp'.symm))
  · simp only [Db.coinbaseHeights, Ledger.unmatured, List.mem_map, List.mem_filter,
      decide_eq_true_eq]
    constructor
    · rintro ⟨⟨⟨_, height', position⟩, txid⟩, ⟨hr, rfl, rfl, habove⟩, rfl⟩
      obtain ⟨b, hb, hm⟩ := List.mem_flatMap.1 ((h.addressIndex _ _).1 (Table.mem_rows.1 hr))
      obtain ⟨rfl, tx, htx, -, ha⟩ := mem_addressRows.1 hm
      refine ⟨b, ⟨⟨hb, ?_⟩, (hv.linked.checked hb).paysMiner_iff.2 ⟨tx, htx, ha⟩⟩, rfl⟩
      dsimp only at habove
      omega
    · rintro ⟨b, ⟨⟨hb, habove⟩, hpays⟩, rfl⟩
      obtain ⟨tx, htx, ha⟩ := (hv.linked.checked hb).paysMiner_iff.1 hpays
      refine ⟨((a, b.height, 0), tx.txid), ⟨Table.mem_rows.2 ?_, rfl, rfl, ?_⟩, rfl⟩
      · exact (h.addressIndex _ _).2
          (List.mem_flatMap.2 ⟨b, hb, mem_addressRows.2 ⟨rfl, tx, htx, rfl, ha⟩⟩)
      · dsimp only
        omega

namespace Good

/-- The amount of the coinbase at a height. -/
def amountAt (L : Ledger) (height : ℕ) : ℕ :=
  (L.chain[L.chain.length - 1 - height]?.map coinbaseAmount).getD 0

theorem amountAt_height (hv : Ledger.Valid params L) (hb : b ∈ L.chain) :
    amountAt L b.height = coinbaseAmount b := by
  obtain ⟨c, hc, hheight⟩ := hv.linked.getElem?_of_height (hv.linked.height_lt hb)
  rw [amountAt, hc, hv.linked.eq_of_height (List.mem_of_getElem? hc) hb hheight]
  rfl

theorem immatureAt_spec : ∀ {heights : List ℕ} {s : Store}, Good params B lim s L →
    (∀ height ∈ heights, ∃ b ∈ L.chain, b.height = height) →
    Exec.wp (Service.immatureAt heights)
      (fun x s' => x = (heights.map (amountAt L)).sum ∧ Store.Reading s s')
      (fun _ _ => False) s := by
  intro heights
  induction heights with
  | nil => exact fun _ _ => Exec.wp_pure.2 ⟨rfl, Store.Reading.refl _⟩
  | cons height heights ih =>
    intro s h hmem
    obtain ⟨⟨b, hb, rfl⟩, hrest⟩ := List.forall_mem_cons.1 hmem
    obtain ⟨c, hc, -, -⟩ := (h.valid.linked.checked hb).coinbase
    have hamount : coinbaseAmount b = c.amount := by
      rw [coinbaseAmount, hc]
    rw [Service.immatureAt, Exec.wp_bind]
    refine (h.mainBlock_spec hb).mono ?_ fun _ _ h => h
    rintro _ s₁ ⟨rfl, hr₁⟩
    rw [Exec.wp_bind, Exec.wp_lift]
    refine ⟨fun c' he => ?_, fun e he => ?_⟩
    · cases hc.symm.trans he
      rw [Exec.wp_bind]
      refine (ih (h.reading hr₁) hrest).mono ?_ fun _ _ h => h
      rintro others s₂ ⟨rfl, hr₂⟩
      refine Exec.wp_pure.2 ⟨?_, hr₁.trans hr₂⟩
      rw [List.map_cons, List.sum_cons, amountAt_height h.valid hb, hamount]
    · cases hc.symm.trans he

/-- **An account is answered from the ledger** and the mempool. -/
theorem account_spec (h : Good params B lim s L) (m : Mempool) (a : Address) :
    Exec.wp (Service.account params m a)
      (fun x s' => x = L.accountInfo params m a ∧ Store.Reading s s')
      (fun _ _ => False) s := by
  have hperm := h.tables.coinbaseHeights_perm h.valid a
  have hmem : ∀ b ∈ (L.unmatured params).filter (Block.paysMiner a), b ∈ L.chain := fun b hb =>
    List.mem_of_mem_filter (List.mem_of_mem_filter hb)
  rw [Service.account, Exec.wp_bind, Exec.wp_get, Exec.wp_bind]
  refine (h.immatureAt_spec fun height hh => ?_).mono ?_ fun _ _ h => h
  · obtain ⟨b, hb, rfl⟩ := List.mem_map.1 (hperm.mem_iff.1 hh)
    exact ⟨b, hmem b hb, rfl⟩
  · rintro immature s' ⟨rfl, hr⟩
    refine Exec.wp_pure.2 ⟨?_, hr⟩
    have hamounts : (((L.unmatured params).filter (Block.paysMiner a)).map
        (amountAt L ∘ Block.height)).sum = L.immature params a :=
      congrArg List.sum (List.map_congr_left fun b hb => amountAt_height h.valid (hmem b hb))
    rw [(hperm.map _).sum_eq, List.map_map, hamounts, h.tables.getAccount_eq]
    rfl

end Good

/-! ## Answers after a run -/

/-- The amounts of blocks, by the address their coinbase pays. -/
theorem sum_paysMiner : ∀ {bs : List Block}, (∀ b ∈ bs, CheckedBlock params b) →
    ∑ a, ((bs.filter (Block.paysMiner a)).map coinbaseAmount).sum =
      (bs.map coinbaseAmount).sum := by
  intro bs
  induction bs with
  | nil => exact fun _ => Finset.sum_const_zero
  | cons b bs ih =>
    intro h
    obtain ⟨hb, hbs⟩ := List.forall_mem_cons.1 h
    obtain ⟨c, hc, -, -⟩ := hb.coinbase
    have hsplit : ∀ a, (((b :: bs).filter (Block.paysMiner a)).map coinbaseAmount).sum =
        (if c.address = a then coinbaseAmount b else 0) +
          ((bs.filter (Block.paysMiner a)).map coinbaseAmount).sum := by
      intro a
      have hpays : b.paysMiner a = decide (c.address = a) := by
        rw [Block.paysMiner, hc]
      rw [List.filter_cons, hpays]
      by_cases ha : c.address = a
      · rw [if_pos ha, if_pos (decide_eq_true ha), List.map_cons, List.sum_cons]
      · rw [if_neg ha, if_neg (by simpa using ha), zero_add]
    rw [Finset.sum_congr rfl fun a _ => hsplit a, Finset.sum_add_distrib, ih hbs,
      Finset.sum_ite_eq, if_pos (Finset.mem_univ _), List.map_cons, List.sum_cons]

namespace Node

variable {clock : ℕ → ℤ} {n : Node}

/-- The active chain of a node is that of a valid ledger. -/
def HoldsChain (params : NetworkParams) (n : Node) (L : Ledger) : Prop :=
  Ledger.Valid params L ∧ ∀ height id, n.store.db.mainId height = some id ↔
    ∃ b ∈ L.chain, b.height = height ∧ b.blockId = id

theorem SoundNode.holdsChain (h : SoundNode params B n) :
    ∃ L, HoldsChain params n L ∧ ∃ lim, Good params B lim n.store L := by
  obtain ⟨L, hs, -⟩ := h
  exact ⟨L, ⟨hs.good.valid, fun _ _ => hs.good.tables.mainId_eq_some⟩, _, hs.good⟩

/-- **The accounts add up to the money issued.** After any run of submitted
blocks, whatever was switched, every account is answered, and what the
answers say is owned or about to mature is one reward for each block. -/
theorem accounts_add_up (params : NetworkParams) (clock : ℕ → ℤ) (blocks : List Block)
    (m : Mempool) :
    let s := (afterBlocks params clock blocks).store
    ∃ info : Address → AccountInfo,
      (∀ a, Exec.outcome (Service.account params m a) s = .ok (info a)) ∧
        ∑ a, ((info a).balance + (info a).immature) =
          params.blockReward * (s.db.tipHeight + 1) := by
  intro s
  obtain ⟨L, ⟨hv, -⟩, lim, hgood⟩ := (soundNode_after params clock blocks (B := Set.univ)
    trivial fun _ _ => trivial).holdsChain
  refine ⟨L.accountInfo params m, fun a => ?_, ?_⟩
  · obtain ⟨info, s', hrun, rfl, -⟩ := (hgood.account_spec m a).exists_ok
    exact Exec.outcome_ok_iff.2 ⟨s', hrun⟩
  · have hmem : ∀ b ∈ L.unmatured params, CheckedBlock params b := fun b hb =>
      hv.linked.checked (List.mem_of_mem_filter hb)
    have htip := hgood.tables.tipHeight hv
    rw [htip, ← hv.supply, ← hv.unmatured_eq, ← sum_paysMiner hmem]
    exact Finset.sum_add_distrib

/-- **A transaction is found where the chain has it.** After any run of
submitted blocks a txid is answered with the transaction of the active
chain that has it, at its block and position, and otherwise with the one
that waits. -/
theorem findTransaction_run (params : NetworkParams) (clock : ℕ → ℤ) (blocks : List Block)
    (m : Mempool) :
    let n := afterBlocks params clock blocks
    ∃ L, HoldsChain params n L ∧ ∀ txid, ∃ x,
      Exec.outcome (Service.findTransaction m txid) n.store = .ok x ∧
        ((∃ b ∈ L.chain, ∃ tx position, b.transactions[position]? = some tx ∧ tx.txid = txid ∧
            x = some (b.item (tx, position))) ∨
          (∀ b ∈ L.chain, ∀ tx ∈ b.transactions, tx.txid ≠ txid) ∧
            x = (m.byId.lookup txid).map Service.waitingItem) := by
  intro n
  obtain ⟨L, hholds, lim, hgood⟩ := (soundNode_after params clock blocks (B := Set.univ)
    trivial fun _ _ => trivial).holdsChain
  refine ⟨L, hholds, fun txid => ?_⟩
  obtain ⟨x, s', hrun, hx, -⟩ := (hgood.findTransaction_spec m txid).exists_ok
  exact ⟨x, Exec.outcome_ok_iff.2 ⟨s', hrun⟩, hx⟩

end Node

end TalCash
