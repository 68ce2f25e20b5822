import TalCash.Ledger.Supply
/-!
# Nonces

A transfer carries the number of transfers its sender sent before, and
raises it by one. So along a chain of accepted blocks the transfers of an
account carry the nonces `0, 1, 2, …` in order (`nonces_sentBy`), none of
them is ever held again, and where SHA-256 has no collision no two
transactions share a txid. The nonces add up to the number of transfers,
which the sizes of the blocks bound.
-/

namespace TalCash

/-! ## What credits and transfers leave of an account -/

namespace Overlay

variable {o o' : Overlay} {a b : Address} {n : ℕ}

/-- Nobody's nonce changed and nobody lost anything. -/
def Grows (o o' : Overlay) : Prop :=
  ∀ a, (o'.get a).nonce = (o.get a).nonce ∧ (o.get a).balance ≤ (o'.get a).balance

theorem Grows.refl (o : Overlay) : Grows o o := fun _ => ⟨rfl, le_rfl⟩

theorem Grows.trans {o'' : Overlay} (h : Grows o o') (h' : Grows o' o'') : Grows o o'' :=
  fun a => ⟨(h' a).1.trans (h a).1, (h a).2.trans (h' a).2⟩

theorem Grows.sum_nonce (h : Grows o o') : o'.sum Account.nonce = o.sum Account.nonce :=
  Finset.sum_congr rfl fun a _ => (h a).1

theorem grows_credit (h : o.credit a n = .ok o') : Grows o o' := by
  obtain ⟨-, rfl⟩ := credit_ok_iff.1 h
  intro b
  rw [get_set]
  split
  · rename_i hb
    rw [hb]
    exact ⟨rfl, Nat.le_add_right _ _⟩
  · exact ⟨rfl, le_rfl⟩

end Overlay

theorem grows_creditOutputs {o o' : Overlay} {outputs : List Output}
    (h : creditOutputs o outputs = .ok o') : o.Grows o' :=
  creditOutputs_induct (P := o.Grows) (fun _ _ _ _ ho hc => ho.trans (Overlay.grows_credit hc))
    (Overlay.Grows.refl o) h

theorem grows_matureCoinbase {params : NetworkParams} {height : ℕ} {matured : Option Coinbase}
    {o o' : Overlay} (h : matureCoinbase params height matured o = .ok o') : o.Grows o' := by
  unfold matureCoinbase at h
  dsimp only at h
  split at h
  · split at h
    · cases h
    · split at h
      · cases h
      · exact Overlay.grows_credit h
  · split at h
    · cases h
    · rw [← Except.ok.inj h]
      exact Overlay.Grows.refl o

variable [Library]

/-- A transfer takes the nonce it carries and raises it by one; accounts
other than the sender's only grow. -/
structure Spends (o : Overlay) (tx : Transfer) (o' : Overlay) : Prop where
  nonce : tx.nonce = (o.get tx.sender).nonce
  next : (o'.get tx.sender).nonce = (o.get tx.sender).nonce + 1
  others : ∀ a, a ≠ tx.sender →
    (o'.get a).nonce = (o.get a).nonce ∧ (o.get a).balance ≤ (o'.get a).balance
  total : o'.sum Account.nonce = o.sum Account.nonce + 1

theorem spends_applyTransfer {o o' : Overlay} {tx : Transfer}
    (h : applyTransfer o tx = .ok o') : Spends o tx o' := by
  obtain ⟨hn, -, hc⟩ := applyTransfer_ok_iff.1 h
  have hgrows := grows_creditOutputs hc
  have hsum := Overlay.sum_set Account.nonce o tx.sender
    ⟨(o.get tx.sender).balance - tx.totalSpent, (o.get tx.sender).nonce + 1⟩
  refine ⟨hn, ?_, fun a ha => ?_, ?_⟩
  · rw [(hgrows tx.sender).1, Overlay.get_set, if_pos rfl]
  · have := hgrows a
    rwa [Overlay.get_set, if_neg ha] at this
  · rw [hgrows.sum_nonce]
    dsimp only at hsum
    omega

/-- What a run of transfers does to the nonces. -/
structure SpendsAll (o : Overlay) (txs : List Transfer) (o' : Overlay) : Prop where
  mono : ∀ a, (o.get a).nonce ≤ (o'.get a).nonce
  spent : ∀ tx ∈ txs, (o.get tx.sender).nonce ≤ tx.nonce ∧ tx.nonce < (o'.get tx.sender).nonce
  others : ∀ a, (∀ tx ∈ txs, tx.sender ≠ a) →
    (o'.get a).nonce = (o.get a).nonce ∧ (o.get a).balance ≤ (o'.get a).balance
  total : o'.sum Account.nonce = o.sum Account.nonce + txs.length

theorem spendsAll_applyTransfers : ∀ {txs : List Transfer} {o o' : Overlay} {fees fees' : ℕ},
    applyTransfers o fees (txs.map .transfer) = .ok (o', fees') → SpendsAll o txs o'
  | [], o, _, _, _, h => by
    cases h
    exact ⟨fun _ => le_rfl, fun tx htx => absurd htx List.not_mem_nil, fun _ _ => ⟨rfl, le_rfl⟩, rfl⟩
  | tx :: rest, o, o', _, _, h => by
    rw [List.map_cons, applyTransfers] at h
    split at h
    · cases h
    · rename_i o₁ h₁
      have hs := spends_applyTransfer h₁
      have hr := spendsAll_applyTransfers h
      have hmono : ∀ a, (o.get a).nonce ≤ (o₁.get a).nonce := by
        intro a
        by_cases ha : a = tx.sender
        · rw [ha, hs.next]; omega
        · rw [(hs.others a ha).1]
      refine ⟨fun a => (hmono a).trans (hr.mono a), fun t ht => ?_, fun a ha => ?_, ?_⟩
      · rcases List.mem_cons.1 ht with rfl | ht
        · have := hr.mono t.sender
          rw [hs.next] at this
          have := hs.nonce
          omega
        · exact ⟨(hmono _).trans (hr.spent t ht).1, (hr.spent t ht).2⟩
      · obtain ⟨hn, hb⟩ := hs.others a (ha tx List.mem_cons_self).symm
        obtain ⟨hn', hb'⟩ := hr.others a fun t ht => ha t (List.mem_cons_of_mem _ ht)
        exact ⟨hn'.trans hn, hb.trans hb'⟩
      · rw [hr.total, hs.total, List.length_cons]
        omega

/-- The transfers of an account, in order. -/
def sentOf (a : Address) (txs : List Transfer) : List Transfer := txs.filter fun tx => tx.sender = a

/-- The transfers of an account in a run carry its next nonces, one after
the other. -/
theorem nonces_applyTransfers (a : Address) : ∀ {txs : List Transfer} {o o' : Overlay}
    {fees fees' : ℕ}, applyTransfers o fees (txs.map .transfer) = .ok (o', fees') →
      (sentOf a txs).map Transfer.nonce = List.range' (o.get a).nonce (sentOf a txs).length ∧
        (o'.get a).nonce = (o.get a).nonce + (sentOf a txs).length
  | [], _, _, _, _, h => by
    cases h
    exact ⟨rfl, rfl⟩
  | tx :: rest, o, o', _, _, h => by
    rw [List.map_cons, applyTransfers] at h
    split at h
    · cases h
    · rename_i o₁ h₁
      have hs := spends_applyTransfer h₁
      obtain ⟨hlist, hend⟩ := nonces_applyTransfers a h
      by_cases ha : tx.sender = a
      · have hcons : sentOf a (tx :: rest) = tx :: sentOf a rest :=
          List.filter_cons_of_pos (by simpa using ha)
        subst ha
        rw [hs.next] at hlist hend
        rw [hcons, List.map_cons, List.length_cons, List.range'_succ, hlist, hs.nonce]
        exact ⟨rfl, by omega⟩
      · have hcons : sentOf a (tx :: rest) = sentOf a rest :=
          List.filter_cons_of_neg (by simpa using ha)
        have hsame : (o₁.get a).nonce = (o.get a).nonce := (hs.others a (Ne.symm ha)).1
        rw [hcons, ← hsame]
        exact ⟨hlist, hend⟩

/-! ## A block -/

section Applied

variable {params : NetworkParams} {block : Block} {ctx : BlockContext} {changes : StateChanges}
variable {accounts : Table Address Account}

/-- The sum of all nonces. -/
noncomputable def nonces (accounts : Table Address Account) : ℕ :=
  ∑ a, (getAccount accounts a).nonce

/-- What a block did to the nonces of the accounts, and to the balances
of those that sent nothing. -/
structure Advances (accounts : Table Address Account) (block : Block)
    (accounts' : Table Address Account) : Prop where
  mono : ∀ a, (getAccount accounts a).nonce ≤ (getAccount accounts' a).nonce
  spent : ∀ tx ∈ block.transfers, (getAccount accounts tx.sender).nonce ≤ tx.nonce ∧
    tx.nonce < (getAccount accounts' tx.sender).nonce
  others : ∀ a, (∀ tx ∈ block.transfers, tx.sender ≠ a) →
    (getAccount accounts' a).nonce = (getAccount accounts a).nonce ∧
      (getAccount accounts a).balance ≤ (getAccount accounts' a).balance
  total : nonces accounts' = nonces accounts + block.transfers.length

/-- **A block spends the nonces of its transfers.** -/
theorem AppliedBlock.advances (h : AppliedBlock params block ctx (getAccount accounts) changes) :
    Advances accounts block (writeRows changes.accounts.rows.reverse accounts) := by
  obtain ⟨o, o', ho⟩ := h.overlays
  have hm := grows_matureCoinbase ho.mature
  have hs := spendsAll_applyTransfers ho.transfers
  have hstart : ∀ a, Overlay.get { base := getAccount accounts } a = getAccount accounts a :=
    fun _ => rfl
  have hn : ∀ a, (o.get a).nonce = (getAccount accounts a).nonce := fun a => (hm a).1
  refine ⟨fun a => ?_, fun tx htx => ?_, fun a ha => ?_, ?_⟩
  · rw [ho.getAccount_eq, ← hn]
    exact hs.mono a
  · rw [ho.getAccount_eq, ← hn]
    exact hs.spent tx htx
  · rw [ho.getAccount_eq, ← hn]
    exact ⟨(hs.others a ha).1, (hm a).2.trans (hs.others a ha).2⟩
  · have hend : nonces (writeRows changes.accounts.rows.reverse accounts) =
        o'.sum Account.nonce := Finset.sum_congr rfl fun a _ => by rw [ho.getAccount_eq]
    rw [hend, hs.total, hm.sum_nonce]
    rfl

/-- **The transfers of an account in a block carry its next nonces.** -/
theorem AppliedBlock.sent (h : AppliedBlock params block ctx (getAccount accounts) changes)
    (a : Address) :
    (sentOf a block.transfers).map Transfer.nonce =
        List.range' (getAccount accounts a).nonce (sentOf a block.transfers).length ∧
      (getAccount (writeRows changes.accounts.rows.reverse accounts) a).nonce =
        (getAccount accounts a).nonce + (sentOf a block.transfers).length := by
  obtain ⟨o, o', ho⟩ := h.overlays
  have hstart : (o.get a).nonce = (getAccount accounts a).nonce :=
    (grows_matureCoinbase ho.mature a).1
  rw [ho.getAccount_eq, ← hstart]
  exact nonces_applyTransfers a ho.transfers

omit [Library] in
theorem length_le_size (b : Block) : b.transactions.length ≤ b.size := by
  have hone : ∀ tx : Transaction, 1 ≤ tx.serialize.length := by
    intro tx
    cases tx with
    | transfer tx =>
      simp only [Transaction.serialize, Transfer.serialize, Transfer.unsignedBytes,
        List.length_append, BigEndian.length_beBytes]
      omega
    | coinbase tx =>
      simp only [Transaction.serialize, Coinbase.serialize, List.length_append,
        BigEndian.length_beBytes]
      omega
  have hsum : ∀ l : List Transaction, l.length ≤ (l.flatMap Transaction.serialize).length := by
    intro l
    induction l with
    | nil => exact le_rfl
    | cons tx l ih =>
      have := hone tx
      rw [List.flatMap_cons, List.length_append, List.length_cons]
      omega
  have := hsum b.transactions
  simp only [Block.size, Block.serialize, List.length_append]
  omega

theorem CheckedBlock.length_transfers_le (h : CheckedBlock params block) :
    block.transfers.length ≤ params.maxBlockSize := by
  obtain ⟨c, hc, -⟩ := h.transactions
  have hlen := length_le_size block
  have hsize := h.size_le
  rw [hc, List.length_cons, List.length_map] at hlen
  omega

end Applied

/-! ## The ledger -/

namespace Ledger

variable {params : NetworkParams} {L L' : Ledger} {block : Block}

theorem Valid.nonces_le (h : Valid params L) :
    nonces L.accounts ≤ L.chain.length * params.maxBlockSize := by
  induction h with
  | start =>
    have : nonces (Ledger.start params).accounts = 0 := Finset.sum_eq_zero fun a _ => rfl
    omega
  | extend _ he ih =>
    obtain ⟨_, _, hx⟩ := extend_ok_iff.1 he
    have hlen := hx.applied.checked.length_transfers_le
    rw [hx.accounts, hx.chain, hx.applied.advances.total, List.length_cons, Nat.add_mul]
    omega

/-- Nonces stay below the number of bytes in the chain. -/
theorem Valid.nonce_le (h : Valid params L) (a : Address) :
    (getAccount L.accounts a).nonce ≤ L.chain.length * params.maxBlockSize :=
  (Finset.single_le_sum (f := fun a => (getAccount L.accounts a).nonce) (fun _ _ => Nat.zero_le _)
    (Finset.mem_univ a)).trans h.nonces_le

/-- Where the nonces stay in range, a block that applies is accepted. -/
theorem Valid.extended_of_applied (h : Valid params L) {ctx : BlockContext}
    {changes : StateChanges} (hctx : L.context params = .ok ctx)
    (ha : AppliedBlock params block ctx (getAccount L.accounts) changes)
    (hn : (L.chain.length + 1) * params.maxBlockSize < 2 ^ 63) :
    ∃ L', Extended params L block L' ctx changes := by
  have hsnaps : ∃ snaps, snapshotsAfter params block.height
      (writeRows changes.accounts.rows.reverse L.accounts) L.snapshots = .ok snaps := by
    unfold snapshotsAfter
    split
    · obtain ⟨root, hr⟩ := stateRoot_isOk
        (l := (writeRows changes.accounts.rows.reverse L.accounts).rows) Table.rows_nodup_keys
        fun r hr => by
          have hget : getAccount (writeRows changes.accounts.rows.reverse L.accounts) r.1 = r.2 := by
            rw [getAccount, Table.mem_rows.1 hr]; rfl
          have hb := ha.bounded h.balance_le r.1
          have hle := Finset.single_le_sum (f := fun a => (getAccount
            (writeRows changes.accounts.rows.reverse L.accounts) a).nonce)
            (fun _ _ => Nat.zero_le _) (Finset.mem_univ r.1)
          have htotal := ha.advances.total
          have hlen := ha.checked.length_transfers_le
          have hall := h.nonces_le
          have hmax : MAX_AMOUNT < 256 ^ 8 := by decide
          have hpow : 2 ^ 63 < 256 ^ 8 := by decide
          rw [hget] at hb
          rw [Nat.add_mul, Nat.one_mul] at hn
          change (getAccount _ r.1).nonce ≤ nonces _ at hle
          rw [hget] at hle
          exact ⟨by omega, by omega⟩
      exact ⟨_, by rw [hr]; rfl⟩
    · exact ⟨_, rfl⟩
  obtain ⟨snaps, hsnaps⟩ := hsnaps
  exact ⟨⟨block :: L.chain, writeRows changes.accounts.rows.reverse L.accounts,
    (block.blockId, changes.previous.rows.reverse) :: L.undo, snaps⟩, hctx, ha, rfl, rfl, rfl, hsnaps⟩

end Ledger

/-! ## Chains of accepted blocks -/

/-- The chains whose blocks `apply_block` accepted one after another above
genesis, newest first, and the accounts they lead to. Beside its parent a
context may be any. -/
inductive AcceptedChain (params : NetworkParams) : List Block → Table Address Account → Prop
  | genesis : AcceptedChain params [genesisBlock params] ∅
  | block {parent : Block} {rest : List Block} {accounts : Table Address Account} {b : Block}
      {ctx : BlockContext} {checkPow : Bool} {changes : StateChanges}
      (chain : AcceptedChain params (parent :: rest) accounts)
      (parent_eq : ctx.parent = parent.header)
      (applied : applyBlock b ctx (getAccount accounts) params checkPow = .ok changes) :
      AcceptedChain params (b :: parent :: rest) (writeRows changes.accounts.rows.reverse accounts)

/-- The transfers an account sent on a chain, in the order of the chain. -/
def sentBy (a : Address) (chain : List Block) : List Transfer :=
  sentOf a (chain.reverse.flatMap Block.transfers)

/-- The chain of a valid ledger was accepted block by block. -/
theorem Ledger.Valid.acceptedChain {params : NetworkParams} {L : Ledger} (h : Valid params L) :
    AcceptedChain params L.chain L.accounts := by
  induction h with
  | start => exact .genesis
  | @extend L L' block hv he ih =>
    obtain ⟨ctx, changes, hx⟩ := extend_ok_iff.1 he
    obtain ⟨parent, hp⟩ := context_ok_iff.1 hx.context
    obtain ⟨rest, hchain⟩ : ∃ rest, L.chain = parent :: rest := by
      cases hc : L.chain with
      | nil => exact absurd hc hv.chain_ne_nil
      | cons b rest =>
        have hhead := hp.head
        rw [hc, List.head?_cons, Option.some.injEq] at hhead
        exact ⟨rest, by rw [hhead]⟩
    rw [hchain] at ih
    rw [hx.chain, hx.accounts, hchain]
    exact .block ih hp.parent_eq (applyBlock_ok_iff.2 hx.applied)

namespace AcceptedChain

variable {params : NetworkParams} {chain rest : List Block} {accounts : Table Address Account}
variable {block : Block}

theorem linked (h : AcceptedChain params chain accounts) : Ledger.Valid.Linked params chain := by
  induction h with
  | genesis => exact .genesis
  | block _ hp ha ih =>
    have happ := (applyBlock_checkPow_iff.1 ha).2
    have hheight := happ.header.height
    have hprev := happ.header.prevId
    rw [hp] at hheight hprev
    exact .cons ih hheight hprev happ.checked

/-- **The transfers of an account carry the nonces `0, 1, 2, …`**, as many
as its account counts. -/
theorem nonces_sentBy (h : AcceptedChain params chain accounts) (a : Address) :
    (sentBy a chain).map Transfer.nonce = List.range (getAccount accounts a).nonce := by
  induction h with
  | genesis =>
    have hnone : sentBy a [genesisBlock params] = [] := by
      have ht : ([genesisBlock params].reverse.flatMap Block.transfers) =
          (genesisBlock params).transfers := List.append_nil _
      rw [sentBy, ht, genesisBlock_transfers]
      rfl
    rw [hnone]
    rfl
  | @block parent rest accounts b ctx checkPow changes _ _ ha ih =>
    obtain ⟨hsent, hnonce⟩ := (applyBlock_checkPow_iff.1 ha).2.sent a
    have happend : sentBy a (b :: parent :: rest) =
        sentBy a (parent :: rest) ++ sentOf a b.transfers := by
      simp only [sentBy, sentOf, List.reverse_cons (a := b), List.flatMap_append,
        List.filter_append, List.flatMap_cons, List.flatMap_nil, List.append_nil]
    rw [happend, List.map_append, ih, hsent, hnonce, List.range_eq_range', List.range_eq_range',
      ← List.range'_append_1, Nat.zero_add]

/-- **The transfers of a chain are spent.** -/
theorem spent (h : AcceptedChain params chain accounts) (hb : block ∈ chain) {tx : Transfer}
    (htx : tx ∈ block.transfers) : tx.nonce < (getAccount accounts tx.sender).nonce := by
  have hmem : tx ∈ sentBy tx.sender chain :=
    List.mem_filter.2 ⟨List.mem_flatMap.2 ⟨block, List.mem_reverse.2 hb, htx⟩, by simp⟩
  have := List.mem_map_of_mem (f := Transfer.nonce) hmem
  rwa [h.nonces_sentBy, List.mem_range] at this

/-- **The transactions of an accepted block are new to the chain**, and
where SHA-256 has no collision so are their txids. -/
theorem fresh_txid (h : AcceptedChain params (block :: rest) accounts) {S : Set Bytes}
    (hS : CollisionFree S) (hblock : ∀ m ∈ block.messages, m ∈ S)
    (hchain : ∀ b ∈ rest, ∀ m ∈ b.messages, m ∈ S) {b : Block} (hb : b ∈ rest)
    {tx tx' : Transaction} (htx : tx ∈ block.transactions) (htx' : tx' ∈ b.transactions) :
    tx.txid ≠ tx'.txid := by
  intro hid
  have heq := eq_of_txid_eq hS (hblock _ (Block.tx_mem_messages htx))
    (hchain b hb _ (Block.tx_mem_messages htx')) hid
  subst heq
  have hlink := h.linked
  cases h with
  | genesis => cases hb
  | block hc hp ha =>
    have happ := (applyBlock_checkPow_iff.1 ha).2
    have hheight := hlink.head_height
    have hbelow := hc.linked.height_lt hb
    obtain ⟨c, hcb, hch⟩ := happ.checked.transactions
    obtain ⟨c', hcb', hch'⟩ := (hc.linked.checked hb).transactions
    rw [hcb, List.mem_cons] at htx
    rw [hcb', List.mem_cons] at htx'
    -- A coinbase carries the height of its block, a transfer a nonce its sender has used up.
    rcases htx with rfl | htx
    · rcases htx' with heq | htx'
      · rw [Transaction.coinbase.injEq] at heq
        rw [heq, hch'] at hch
        have : b.height = block.height := hch
        omega
      · obtain ⟨_, _, heq⟩ := List.mem_map.1 htx'
        cases heq
    · obtain ⟨t, ht, rfl⟩ := List.mem_map.1 htx
      rcases htx' with heq | htx'
      · cases heq
      · obtain ⟨t', ht', heq⟩ := List.mem_map.1 htx'
        rw [Transaction.transfer.injEq] at heq
        subst heq
        have := (happ.advances.spent t' ht).1
        have := hc.spent hb ht'
        omega

end AcceptedChain

/-- The same, of the block that extends a valid ledger. -/
theorem Ledger.Valid.fresh_txid {params : NetworkParams} {L L' : Ledger} {block : Block}
    (h : Valid params L) (he : L.extend params block = .ok L') {S : Set Bytes}
    (hS : CollisionFree S) (hblock : ∀ m ∈ block.messages, m ∈ S)
    (hchain : ∀ b ∈ L.chain, ∀ m ∈ b.messages, m ∈ S) {b : Block} (hb : b ∈ L.chain)
    {tx tx' : Transaction} (htx : tx ∈ block.transactions) (htx' : tx' ∈ b.transactions) :
    tx.txid ≠ tx'.txid := by
  obtain ⟨_, _, hx⟩ := extend_ok_iff.1 he
  have hacc := (Valid.extend h he).acceptedChain
  rw [hx.chain] at hacc
  exact hacc.fresh_txid hS hblock hchain hb htx htx'

end TalCash
