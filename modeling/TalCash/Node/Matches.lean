import TalCash.Node.Chain
import TalCash.Ledger.Nonces
/-!
# The tables of the active chain

What each write to the database does, and that the tables a block changes
follow the ledger: `connectBlock` takes tables that match a ledger to
tables that match the ledger with one more block, `disconnectBlock` takes
them back. Neither says anything about the other tables than that they
stay as they were.
-/

namespace TalCash

open BigEndian

/-! ## Single writes -/

section Writes

variable {κ ν : Type} [DecidableEq κ] {k : κ} {v : ν} {t t' : Table κ ν}

theorem insertNew_ok_iff : insertNew k v t = .ok t' ↔ t.lookup k = none ∧ t' = Table.put k v t := by
  unfold insertNew
  cases h : t.lookup k with
  | none =>
    exact ⟨fun he => ⟨rfl, (Except.ok.inj he).symm⟩, fun he => by rw [he.2]; rfl⟩
  | some w => exact ⟨fun he => (nomatch he), fun he => (nomatch he.1)⟩

theorem sqlInteger_ok_iff {n : ℕ} {u : Unit} : sqlInteger n = .ok u ↔ n < 2 ^ 63 := by
  unfold sqlInteger
  split
  · exact ⟨fun h => (nomatch h), fun h => by omega⟩
  · exact ⟨fun _ => by omega, fun _ => rfl⟩

theorem toBytes_ok_iff {n size : ℕ} {b : Bytes} :
    toBytes n size = .ok b ↔ n < 256 ^ size ∧ b = beBytes size n := by
  unfold toBytes
  split
  · exact ⟨fun h => (nomatch h), fun h => by omega⟩
  · exact ⟨fun h => ⟨by omega, (Except.ok.inj h).symm⟩, fun h => by rw [h.2]⟩

end Writes

/-- The undo data of a block, from the accounts as they were before it. -/
def undoBytes (previous : List (Address × Account)) : Bytes :=
  previous.flatMap fun r => r.1.1 ++ (beBytes 8 r.2.balance ++ beBytes 8 r.2.nonce)

/-- Values that a column and eight bytes hold. -/
def Storable (rs : List (Address × Account)) : Prop :=
  ∀ r ∈ rs, r.2.balance < 2 ^ 63 ∧ r.2.nonce < 2 ^ 63

namespace Db

variable {db db' : Db} {block : Block} {id : Digest} {height : ℕ}

theorem foldlM_writeAccount {rs : List (Address × Account)} {t t' : Table Address Account} :
    rs.foldlM (fun t r => writeAccount r t) t = .ok t' ↔ Storable rs ∧ t' = writeRows rs t := by
  induction rs generalizing t with
  | nil =>
    exact ⟨fun h => ⟨fun _ hr => absurd hr List.not_mem_nil, (Except.ok.inj h).symm⟩,
      fun h => by rw [h.2]; rfl⟩
  | cons r rs ih =>
    have hrow : ∀ t₁, writeAccount r t = .ok t₁ ↔
        (r.2.balance < 2 ^ 63 ∧ r.2.nonce < 2 ^ 63) ∧ t₁ = writeRow r t := by
      intro t₁
      unfold writeAccount writeRow
      split
      · rename_i he
        rw [he]
        exact ⟨fun h => ⟨⟨by decide, by decide⟩, (Except.ok.inj h).symm⟩, fun h => by rw [h.2]⟩
      · simp only [bind_eq_ok, sqlInteger_ok_iff]
        exact ⟨fun ⟨_, hb, _, hn, h⟩ => ⟨⟨hb, hn⟩, (Except.ok.inj h).symm⟩,
          fun ⟨⟨hb, hn⟩, h⟩ => ⟨(), hb, (), hn, by rw [h]; rfl⟩⟩
    rw [List.foldlM_cons, bind_eq_ok]
    constructor
    · rintro ⟨t₁, h₁, h⟩
      obtain ⟨hr, rfl⟩ := (hrow t₁).1 h₁
      obtain ⟨hrs, rfl⟩ := ih.1 h
      exact ⟨List.forall_mem_cons.2 ⟨hr, hrs⟩, rfl⟩
    · rintro ⟨hs, rfl⟩
      obtain ⟨hr, hrs⟩ := List.forall_mem_cons.1 hs
      exact ⟨_, (hrow _).2 ⟨hr, rfl⟩, ih.2 ⟨hrs, rfl⟩⟩

theorem writeAccounts_ok_iff {rs : List (Address × Account)} :
    db.writeAccounts rs = .ok db' ↔
      Storable rs ∧ db' = { db with accounts := writeRows rs db.accounts } := by
  unfold writeAccounts
  simp only [bind_eq_ok, foldlM_writeAccount]
  constructor
  · rintro ⟨_, ⟨hs, rfl⟩, h⟩
    exact ⟨hs, (Except.ok.inj h).symm⟩
  · rintro ⟨hs, rfl⟩
    exact ⟨_, ⟨hs, rfl⟩, rfl⟩

theorem mapM_undoEntry : ∀ (rs : List (Address × Account)) {entries : List Bytes},
    rs.mapM undoEntry = .ok entries ↔
      (∀ r ∈ rs, r.2.balance < 256 ^ 8 ∧ r.2.nonce < 256 ^ 8) ∧
        entries = rs.map fun r => r.1.1 ++ beBytes 8 r.2.balance ++ beBytes 8 r.2.nonce
  | [], entries => by
    rw [List.mapM_nil]
    exact ⟨fun h => ⟨fun _ hr => absurd hr List.not_mem_nil, (Except.ok.inj h).symm⟩,
      fun h => by rw [h.2]; rfl⟩
  | r :: rs, entries => by
    rw [List.mapM_cons]
    simp only [bind_eq_ok, undoEntry, toBytes_ok_iff, mapM_undoEntry rs]
    constructor
    · rintro ⟨e, ⟨_, ⟨hb, rfl⟩, _, ⟨hn, rfl⟩, he⟩, es, ⟨hrs, rfl⟩, h⟩
      refine ⟨List.forall_mem_cons.2 ⟨⟨hb, hn⟩, hrs⟩, ?_⟩
      rw [← Except.ok.inj h, ← Except.ok.inj he]
      rfl
    · rintro ⟨hs, rfl⟩
      obtain ⟨⟨hb, hn⟩, hrs⟩ := List.forall_mem_cons.1 hs
      exact ⟨_, ⟨_, ⟨hb, rfl⟩, _, ⟨hn, rfl⟩, rfl⟩, _, ⟨hrs, rfl⟩, rfl⟩

theorem putUndo_ok_iff {rs : List (Address × Account)} :
    db.putUndo id rs = .ok db' ↔
      (∀ r ∈ rs, r.2.balance < 256 ^ 8 ∧ r.2.nonce < 256 ^ 8) ∧ db.undo.lookup id = none ∧
        db' = { db with undo := Table.put id (undoBytes rs) db.undo } := by
  have hbytes : (rs.map fun r => r.1.1 ++ beBytes 8 r.2.balance ++ beBytes 8 r.2.nonce).flatten =
      undoBytes rs := by
    simp only [undoBytes, List.flatMap_def, List.append_assoc]
  unfold putUndo
  simp only [bind_eq_ok, mapM_undoEntry, insertNew_ok_iff]
  constructor
  · rintro ⟨_, ⟨hs, rfl⟩, _, ⟨hn, rfl⟩, h⟩
    rw [hbytes] at h
    exact ⟨hs, hn, (Except.ok.inj h).symm⟩
  · rintro ⟨hs, hn, rfl⟩
    exact ⟨_, ⟨hs, rfl⟩, _, ⟨hn, rfl⟩, by rw [hbytes]; rfl⟩

theorem reads_undoEntry {r : Address × Account} (hb : r.2.balance < 256 ^ 8)
    (hn : r.2.nonce < 256 ^ 8) :
    Reads readUndoEntry (r.1.1 ++ (beBytes 8 r.2.balance ++ beBytes 8 r.2.nonce)) r :=
  (Reads.fixed r.1).bind ((Reads.uint hb).bind (Reads.uint hn).bind_pure)

theorem length_undoBytes (rs : List (Address × Account)) :
    (undoBytes rs).length = rs.length * 37 := by
  induction rs with
  | nil => rfl
  | cons r rs ih =>
    have h21 : r.1.1.length = 21 := r.1.2
    rw [undoBytes, List.flatMap_cons, List.length_append]
    change _ + (undoBytes rs).length = _
    simp only [ih, List.length_append, length_beBytes, List.length_cons]
    omega

/-- The undo data is read back as it was written. -/
theorem takeUndo_of (db : Db) {rs : List (Address × Account)} (hs : Storable rs)
    (h : db.undo.lookup id = some (undoBytes rs)) :
    db.takeUndo id = .ok (rs, { db with undo := Table.remove id db.undo }) := by
  have hread : (Reader.many readUndoEntry rs.length).onBytes (undoBytes rs) = .ok ⟨rs, rfl⟩ :=
    Reads.onBytes (Reads.many fun r hr =>
      reads_undoEntry (lt_trans (hs r hr).1 (by decide)) (lt_trans (hs r hr).2 (by decide)))
  have hlen : (undoBytes rs).length / 37 = rs.length := by
    rw [length_undoBytes]; omega
  unfold takeUndo
  rw [h]
  dsimp only
  rw [hlen, hread]
  rfl

theorem setMain_ok_iff :
    db.setMain height id = .ok db' ↔ height < 2 ^ 63 ∧
      (∀ other, db.mainChain.lookup other ≠ some id) ∧ db.mainChain.lookup height = none ∧
        db' = { db with mainChain := Table.put height id db.mainChain } := by
  have hany : (db.mainChain.rows.any fun r => decide (r.2 = id)) = true ↔
      ∃ other, db.mainChain.lookup other = some id := by
    simp only [List.any_eq_true, decide_eq_true_eq]
    constructor
    · rintro ⟨⟨k, v⟩, hm, rfl⟩
      exact ⟨k, Table.mem_rows.1 hm⟩
    · rintro ⟨k, hk⟩
      exact ⟨(k, id), Table.mem_rows.2 hk, rfl⟩
  unfold setMain
  simp only [bind_eq_ok, sqlInteger_ok_iff]
  constructor
  · rintro ⟨_, hh, h⟩
    split at h
    · cases h
    · rename_i hno
      obtain ⟨_, ht, h⟩ := bind_eq_ok.1 h
      obtain ⟨hnone, rfl⟩ := insertNew_ok_iff.1 ht
      refine ⟨hh, fun other ho => hno (hany.2 ⟨other, ho⟩), hnone, (Except.ok.inj h).symm⟩
  · rintro ⟨hh, hno, hnone, rfl⟩
    refine ⟨(), hh, ?_⟩
    rw [if_neg fun h => (hany.1 h).elim hno]
    exact bind_eq_ok.2 ⟨_, insertNew_ok_iff.2 ⟨hnone, rfl⟩, rfl⟩

theorem putSnapshot_ok_iff {root : Digest} :
    db.putSnapshot height root = .ok db' ↔ height < 2 ^ 63 ∧ db.snapshots.lookup height = none ∧
      db' = { db with snapshots := Table.put height root db.snapshots } := by
  unfold putSnapshot
  simp only [bind_eq_ok, sqlInteger_ok_iff, insertNew_ok_iff]
  constructor
  · rintro ⟨_, hh, _, ⟨hn, rfl⟩, h⟩
    exact ⟨hh, hn, (Except.ok.inj h).symm⟩
  · rintro ⟨hh, hn, rfl⟩
    exact ⟨(), hh, _, ⟨hn, rfl⟩, rfl⟩

end Db

variable [Primitives]

/-! ## The indexes -/

/-- The row of a transaction at a position of a block. -/
def txRow (blockId : Digest) (height : ℕ) (t : Transaction × ℕ) : Digest × TxLocation :=
  (t.1.txid, ⟨blockId, height, t.2⟩)

/-- The rows of the addresses of a transaction. -/
def addressRowsOf (height : ℕ) (t : Transaction × ℕ) : List ((Address × ℕ × ℕ) × Digest) :=
  (addressesOf t.1).map fun a => ((a, height, t.2), t.1.txid)

/-- The rows of a block in `tx_index`. -/
def txRows (b : Block) : List (Digest × TxLocation) :=
  b.transactions.zipIdx.map (txRow b.blockId b.height)

/-- The rows of a block in `address_index`. -/
def addressRows (b : Block) : List ((Address × ℕ × ℕ) × Digest) :=
  b.transactions.zipIdx.flatMap (addressRowsOf b.height)

theorem mem_txRows {b : Block} {txid : Digest} {l : TxLocation} :
    (txid, l) ∈ txRows b ↔ l.blockId = b.blockId ∧ l.height = b.height ∧
      ∃ tx, b.transactions[l.position]? = some tx ∧ tx.txid = txid := by
  simp only [txRows, List.mem_map, txRow, Prod.mk.injEq, Prod.exists,
    List.mem_zipIdx_iff_getElem?]
  constructor
  · rintro ⟨tx, i, hi, rfl, rfl⟩
    exact ⟨rfl, rfl, tx, hi, rfl⟩
  · rintro ⟨hb, hh, tx, hi, rfl⟩
    exact ⟨tx, l.position, hi, rfl, by rw [← hb, ← hh]⟩

theorem mem_addressRows {b : Block} {a : Address} {height position : ℕ} {txid : Digest} :
    ((a, height, position), txid) ∈ addressRows b ↔ height = b.height ∧
      ∃ tx, b.transactions[position]? = some tx ∧ tx.txid = txid ∧ a ∈ addressesOf tx := by
  simp only [addressRows, List.mem_flatMap, addressRowsOf, List.mem_map, Prod.mk.injEq,
    Prod.exists, List.mem_zipIdx_iff_getElem?]
  constructor
  · rintro ⟨tx, i, hi, a', ha, ⟨rfl, rfl, rfl⟩, rfl⟩
    exact ⟨rfl, tx, hi, rfl, ha⟩
  · rintro ⟨rfl, tx, hi, rfl, ha⟩
    exact ⟨tx, position, hi, a, ha, ⟨rfl, rfl, rfl⟩, rfl⟩

theorem addressesOf_nodup (tx : Transaction) : (addressesOf tx).Nodup := by
  cases tx with
  | coinbase tx => exact List.nodup_singleton _
  | transfer tx => exact List.nodup_dedup _

namespace Db

variable {db db' : Db} {id : Digest} {height : ℕ}

omit [Primitives] in
theorem indexAddresses_ok {position : ℕ} {txid : Digest} : ∀ {l : List Address}
    {t t' : Table (Address × ℕ × ℕ) Digest} {rs : List ((Address × ℕ × ℕ) × Digest)},
    indexAddresses height position txid l t = .ok t' → t.Lists rs →
      t'.Lists ((l.map fun a => ((a, height, position), txid)) ++ rs)
  | [], _, _, _, h, ht => Except.ok.inj h ▸ ht
  | a :: l, t, t', rs, h, ht => by
    obtain ⟨t₁, h₁, h⟩ := bind_eq_ok.1 h
    obtain ⟨hn, rfl⟩ := insertNew_ok_iff.1 h₁
    refine (indexAddresses_ok h (ht.put hn)).of_mem fun r => ?_
    simp only [List.mem_append, List.mem_cons, List.map_cons]
    tauto

omit [Primitives] in
theorem indexAddresses_isOk (height position : ℕ) (txid : Digest) : ∀ (l : List Address)
    (t : Table (Address × ℕ × ℕ) Digest), l.Nodup →
    (∀ a ∈ l, t.lookup (a, height, position) = none) →
      ∃ t', indexAddresses height position txid l t = .ok t'
  | [], t, _, _ => ⟨t, rfl⟩
  | a :: l, t, hl, ht => by
    rw [List.nodup_cons] at hl
    obtain ⟨t', h'⟩ := indexAddresses_isOk height position txid l
      (Table.put (a, height, position) txid t) hl.2 fun b hb => by
        have hne : (b, height, position) ≠ (a, height, position) :=
          fun he => hl.1 ((Prod.mk.inj he).1 ▸ hb)
        rw [Table.lookup_put_ne hne]
        exact ht b (List.mem_cons_of_mem _ hb)
    exact ⟨t', bind_eq_ok.2 ⟨_, insertNew_ok_iff.2 ⟨ht a List.mem_cons_self, rfl⟩, h'⟩⟩

/-- Only the two indexes differ. -/
def IndexesOnly (db db' : Db) : Prop :=
  db' = { db with txIndex := db'.txIndex, addressIndex := db'.addressIndex }

theorem indexTx_ok {position : ℕ} {tx : Transaction} {rs : List (Digest × TxLocation)}
    {as : List ((Address × ℕ × ℕ) × Digest)} (h : indexTx id height position tx db = .ok db')
    (ht : db.txIndex.Lists rs) (ha : db.addressIndex.Lists as) :
    db.IndexesOnly db' ∧ db'.txIndex.Lists (txRow id height (tx, position) :: rs) ∧
      db'.addressIndex.Lists (addressRowsOf height (tx, position) ++ as) := by
  unfold indexTx at h
  simp only [bind_eq_ok, insertNew_ok_iff] at h
  obtain ⟨_, -, _, -, _, ⟨hn, rfl⟩, t, hat, h⟩ := h
  rw [← Except.ok.inj h]
  exact ⟨rfl, ht.put hn, indexAddresses_ok hat ha⟩

theorem indexFrom_ok : ∀ {txs : List Transaction} {position : ℕ} {db db' : Db}
    {rs : List (Digest × TxLocation)} {as : List ((Address × ℕ × ℕ) × Digest)},
    indexFrom id height position txs db = .ok db' → db.txIndex.Lists rs →
    db.addressIndex.Lists as →
      db.IndexesOnly db' ∧
      db'.txIndex.Lists ((txs.zipIdx position).map (txRow id height) ++ rs) ∧
      db'.addressIndex.Lists ((txs.zipIdx position).flatMap (addressRowsOf height) ++ as)
  | [], _, _, _, _, _, h, ht, ha => by
    cases h
    exact ⟨rfl, ht, ha⟩
  | tx :: rest, position, db, db', rs, as, h, ht, ha => by
    obtain ⟨db₁, h₁, h⟩ := bind_eq_ok.1 h
    obtain ⟨ho, ht₁, ha₁⟩ := indexTx_ok h₁ ht ha
    obtain ⟨ho', ht', ha'⟩ := indexFrom_ok h ht₁ ha₁
    refine ⟨?_, ht'.of_mem fun r => ?_, ha'.of_mem fun r => ?_⟩
    · unfold IndexesOnly at ho ho' ⊢
      rw [ho', ho]
    · simp only [List.zipIdx_cons, List.map_cons, List.mem_append, List.mem_cons]
      tauto
    · simp only [List.zipIdx_cons, List.flatMap_cons, List.mem_append]
      tauto

/-- Indexing succeeds where the transactions are new and the height is. -/
theorem indexFrom_isOk (id : Digest) {height : ℕ} (hh : height < 2 ^ 63) : ∀ (txs : List Transaction) (position : ℕ) (db : Db),
    position + txs.length ≤ 2 ^ 63 → (txs.map Transaction.txid).Nodup →
    (∀ tx ∈ txs, db.txIndex.lookup tx.txid = none) →
    (∀ a p, position ≤ p → db.addressIndex.lookup (a, height, p) = none) →
      ∃ db', indexFrom id height position txs db = .ok db'
  | [], _, db, _, _, _, _ => ⟨db, rfl⟩
  | tx :: rest, position, db, hp, hn, ht, ha => by
    rw [List.map_cons, List.nodup_cons] at hn
    rw [List.length_cons] at hp
    obtain ⟨t, hat⟩ := indexAddresses_isOk height position tx.txid (addressesOf tx)
      db.addressIndex (addressesOf_nodup tx) fun a _ => ha a position le_rfl
    have h₁ : indexTx id height position tx db = .ok { db with
        txIndex := Table.put tx.txid ⟨id, height, position⟩ db.txIndex, addressIndex := t } := by
      unfold indexTx
      simp only [bind_eq_ok, insertNew_ok_iff, sqlInteger_ok_iff]
      exact ⟨(), hh, (), by omega, _, ⟨ht tx List.mem_cons_self, rfl⟩, t, hat, rfl⟩
    have ht' : ∀ tx' ∈ rest,
        (Table.put tx.txid ⟨id, height, position⟩ db.txIndex).lookup tx'.txid = none := by
      intro tx' hm
      have hne : tx'.txid ≠ tx.txid := fun he => hn.1 (he ▸ List.mem_map_of_mem hm)
      exact (Table.lookup_put_ne hne).trans (ht tx' (List.mem_cons_of_mem _ hm))
    have ha' : ∀ a p, position + 1 ≤ p → t.lookup (a, height, p) = none := by
      intro a p hle
      cases hl : t.lookup (a, height, p) with
      | none => rfl
      | some v =>
        rcases List.mem_append.1 ((indexAddresses_ok hat (Table.lists_rows _) _ _).1 hl) with hm | hm
        · obtain ⟨a', -, he⟩ := List.mem_map.1 hm
          simp only [Prod.mk.injEq] at he
          omega
        · rw [Table.mem_rows, ha a p (by omega)] at hm
          cases hm
    obtain ⟨db', h'⟩ := indexFrom_isOk id hh rest (position + 1) { db with
        txIndex := Table.put tx.txid ⟨id, height, position⟩ db.txIndex, addressIndex := t }
      (by omega) hn.2 ht' ha'
    exact ⟨db', bind_eq_ok.2 ⟨_, h₁, h'⟩⟩

end Db

/-! ## The tables and the ledger -/

open Ledger

/-- The tables that a block changes hold what the ledger says. -/
structure Matches (db : Db) (L : Ledger) : Prop where
  main : db.mainChain.Lists (L.chain.map fun b => (b.height, b.blockId))
  ids : (L.chain.map Block.blockId).Nodup
  accounts : ∀ a, db.accounts.lookup a = L.accounts.lookup a
  nonces : ∀ a, (getAccount L.accounts a).nonce < 2 ^ 63
  undo : db.undo.Lists (L.undo.map fun u => (u.1, undoBytes u.2))
  storable : ∀ u ∈ L.undo, Storable u.2
  snapshots : db.snapshots.Lists L.snapshots
  txIndex : db.txIndex.Lists (L.chain.flatMap txRows)
  addressIndex : db.addressIndex.Lists (L.chain.flatMap addressRows)

variable {params : NetworkParams} {db db' : Db} {L L' : Ledger} {block : Block}
variable {ctx : BlockContext} {changes : StateChanges}

namespace Matches

theorem getAccount_eq (h : Matches db L) : db.getAccount = TalCash.getAccount L.accounts :=
  funext fun a => by simp only [Db.getAccount, TalCash.getAccount, h.accounts]

/-- The accounts a block leaves have one root in the table and the ledger. -/
theorem stateRoot_eq (h : Matches db L) (w : Table Address Account) :
    stateRoot (writeRows w.rows.reverse db.accounts).rows =
      stateRoot (writeRows w.rows.reverse L.accounts).rows := by
  refine stateRoot_congr (Table.rows_perm fun a => ?_) Table.rows_nodup_keys
  rw [lookup_writeRows, lookup_writeRows, h.accounts]

end Matches

/-- What a block finds of an account can be stored again. -/
theorem storable_previous (hv : Valid params L) (hM : Matches db L)
    (h : AppliedBlock params block ctx (getAccount L.accounts) changes) :
    Storable changes.previous.rows.reverse := by
  intro r hr
  rw [List.mem_reverse, Table.mem_rows, h.recorded] at hr
  obtain ⟨_, -, hr⟩ := Option.map_eq_some_iff.1 hr
  rw [← hr]
  have := hv.balance_le r.1
  have hmax : MAX_AMOUNT < 2 ^ 63 := by decide
  exact ⟨by omega, hM.nonces r.1⟩

/-! ## Connecting a block -/

/-- What connecting a block leaves of the other tables. -/
structure Touched (block : Block) (db db' : Db) : Prop where
  headers : db'.headers =
    Table.update block.blockId (fun r => { r with status := .valid }) db.headers
  sealedChunks : db'.sealedChunks = db.sealedChunks

/-- **A block connected is a block of the ledger.** -/
theorem Matches.connectBlock (hM : Matches db L) (hv : Valid params L)
    (hctx : L.context params = .ok ctx) (h : db.connectBlock params block ctx = .ok db') :
    ∃ L', L.extend params block = .ok L' ∧ Matches db' L' ∧ Touched block db db' := by
  unfold Db.connectBlock at h
  simp only [bind_eq_ok, Db.writeAccounts_ok_iff, Db.putUndo_ok_iff, Db.setMain_ok_iff] at h
  obtain ⟨changes, happ, _, ⟨hstore, rfl⟩, _, ⟨-, hundo, rfl⟩, _, ⟨-, hid, hheight, rfl⟩, db₄, hix, h⟩
    := h
  rw [hM.getAccount_eq, applyBlock_ok_iff] at happ
  obtain ⟨hother, htx, haddr⟩ := Db.indexFrom_ok hix hM.txIndex hM.addressIndex
  have hroot := hM.stateRoot_eq changes.accounts
  have hids : block.blockId ∉ L.chain.map Block.blockId := by
    intro hm
    obtain ⟨b, hb, he⟩ := List.mem_map.1 hm
    exact hid b.height ((hM.main _ _).2 (List.mem_map.2 ⟨b, hb, by rw [he]⟩))
  -- The snapshot is taken of the table, where the ledger takes it of its accounts.
  have hsnap : ∃ snaps, snapshotsAfter params block.height
      (writeRows changes.accounts.rows.reverse L.accounts) L.snapshots = .ok snaps ∧
      db'.snapshots.Lists snaps ∧
      db' = { db₄.setStatus block.blockId .valid with snapshots := db'.snapshots } := by
    have hlist : db₄.snapshots.Lists L.snapshots := by rw [hother]; exact hM.snapshots
    have hacc : (db₄.setStatus block.blockId .valid).accounts =
        writeRows changes.accounts.rows.reverse db.accounts := by rw [hother]; rfl
    unfold snapshotsAfter
    split at h
    · rename_i hp
      simp only [bind_eq_ok, Db.putSnapshot_ok_iff] at h
      obtain ⟨root, hr, -, hn, rfl⟩ := h
      rw [hacc, hroot] at hr
      rw [if_pos hp, hr]
      exact ⟨_, rfl, hlist.put hn, rfl⟩
    · rename_i hp
      rw [if_neg hp, ← Except.ok.inj h]
      exact ⟨_, rfl, hlist, rfl⟩
  obtain ⟨snaps, hsnaps, hlists, hdb⟩ := hsnap
  refine ⟨⟨block :: L.chain, writeRows changes.accounts.rows.reverse L.accounts,
    (block.blockId, changes.previous.rows.reverse) :: L.undo, snaps⟩,
    extend_ok_iff.2 ⟨ctx, changes, hctx, happ, rfl, rfl, rfl, hsnaps⟩, ?_, ?_⟩
  · rw [hdb]
    constructor
    · rw [hother]; exact hM.main.put hheight
    · exact List.nodup_cons.2 ⟨hids, hM.ids⟩
    · intro a
      rw [hother]
      change (writeRows _ db.accounts).lookup a = _
      rw [lookup_writeRows, lookup_writeRows, hM.accounts]
    · intro a
      rw [getAccount_writeRows]
      cases hl : changes.accounts.lookup a with
      | none => exact hM.nonces a
      | some acc => exact (hstore (a, acc) (List.mem_reverse.2 (Table.mem_rows.2 hl))).2
    · rw [hother]; exact hM.undo.put hundo
    · exact List.forall_mem_cons.2 ⟨storable_previous hv hM happ, hM.storable⟩
    · exact hlists
    · exact htx
    · exact haddr
  · rw [hdb, hother]
    exact ⟨rfl, rfl⟩

/-- There is room for a block on top of a ledger: the numbers stay within
their columns, and SHA-256 has no collision among the messages of the
block and the chain. -/
structure Fits (params : NetworkParams) (L : Ledger) (block : Block) : Prop where
  nonces : (L.chain.length + 1) * params.maxBlockSize < 2 ^ 63
  messages : ∃ S, CollisionFree S ∧ (∀ m ∈ block.messages, m ∈ S) ∧
    ∀ b ∈ L.chain, ∀ m ∈ b.messages, m ∈ S

theorem Fits.height_lt (h : Fits params L block) : L.chain.length < 2 ^ 63 := by
  have hmax := params.maxBlockSize_ge
  have hle := Nat.le_mul_of_pos_right (L.chain.length + 1) (by omega : 0 < params.maxBlockSize)
  have := h.nonces
  omega

/-- The id of the next block is new to the chain. -/
theorem Fits.blockId_notMem (h : Fits params L block) (hv : Valid params L)
    (hheight : block.height = L.chain.length) : block.blockId ∉ L.chain.map Block.blockId := by
  obtain ⟨S, hS, hblock, hchain⟩ := h.messages
  intro hm
  obtain ⟨b, hb, he⟩ := List.mem_map.1 hm
  have hhead := header_eq_of_blockId_eq hS (hchain b hb _ b.header_mem_messages)
    (hblock _ block.header_mem_messages) he
  have hlt := hv.linked.height_lt hb
  have : b.height = block.height := congrArg BlockHeader.height hhead
  omega

/-- **A block of the ledger that fits is connected.** -/
theorem Matches.connectBlock_isOk (hM : Matches db L) (hv : Valid params L)
    (hx : Extended params L block L' ctx changes) (hf : Fits params L block) :
    ∃ db', db.connectBlock params block ctx = .ok db' := by
  have hv' : Valid params L' := hv.extend (extend_ok_iff.2 ⟨ctx, changes, hx⟩)
  have hlink := hv'.linked
  rw [hx.chain] at hlink
  have hheight : block.height = L.chain.length := hlink.head_height
  have hmain : ∀ id, (block.height, id) ∉ L.chain.map fun b => (b.height, b.blockId) := by
    intro id hm
    obtain ⟨b, hb, he⟩ := List.mem_map.1 hm
    have := hv.linked.height_lt hb
    have := (Prod.mk.inj he).1
    omega
  have hstore : Storable changes.accounts.rows.reverse := by
    intro r hr
    have hl : changes.accounts.lookup r.1 = some r.2 := Table.mem_rows.1 (List.mem_reverse.1 hr)
    have hget : getAccount L'.accounts r.1 = r.2 := by
      rw [hx.accounts, getAccount_writeRows, hl]; rfl
    have hb := hv'.balance_le r.1
    have hn := hv'.nonce_le r.1
    have hroom := hf.nonces
    have hmax : MAX_AMOUNT < 2 ^ 63 := by decide
    rw [hx.chain, List.length_cons] at hn
    rw [hget] at hb hn
    exact ⟨by omega, by omega⟩
  have hprev := storable_previous hv hM hx.applied
  have hid := hf.blockId_notMem hv hheight
  have htxids : ∀ tx ∈ block.transactions, ∀ b ∈ L.chain, ∀ tx' ∈ b.transactions,
      tx.txid ≠ tx'.txid := by
    obtain ⟨S, hS, hblock, hchain⟩ := hf.messages
    exact fun tx htx b hb tx' htx' =>
      hv.fresh_txid (extend_ok_iff.2 ⟨ctx, changes, hx⟩) hS hblock hchain hb htx htx'
  have hundo : db.undo.lookup block.blockId = none := by
    cases hl : db.undo.lookup block.blockId with
    | none => rfl
    | some data =>
      obtain ⟨u, hu, he⟩ := List.mem_map.1 ((hM.undo _ _).1 hl)
      refine absurd ?_ hid
      have hmem : u.1 ∈ L.undo.map Prod.fst := List.mem_map_of_mem hu
      rw [hv.undo_ids, (Prod.mk.inj he).1] at hmem
      exact List.dropLast_subset _ hmem
  have hlt : block.height < 2 ^ 63 := by rw [hheight]; exact hf.height_lt
  obtain ⟨db₄, hix⟩ := Db.indexFrom_isOk block.blockId hlt block.transactions 0 { db with
      accounts := writeRows changes.accounts.rows.reverse db.accounts
      undo := Table.put block.blockId (undoBytes changes.previous.rows.reverse) db.undo
      mainChain := Table.put block.height block.blockId db.mainChain }
    (by have := block.count_lt; omega) hx.applied.checked.nodup
    (fun tx htx => by
      cases hl : db.txIndex.lookup tx.txid with
      | none => rfl
      | some l =>
        obtain ⟨b, hb, hm⟩ := List.mem_flatMap.1 ((hM.txIndex _ _).1 hl)
        obtain ⟨-, -, tx', hi, he⟩ := mem_txRows.1 hm
        exact absurd he.symm (htxids tx htx b hb tx' (List.mem_of_getElem? hi)))
    (fun a p _ => by
      cases hl : db.addressIndex.lookup (a, block.height, p) with
      | none => rfl
      | some txid =>
        obtain ⟨b, hb, hm⟩ := List.mem_flatMap.1 ((hM.addressIndex _ _).1 hl)
        have := hv.linked.height_lt hb
        have := (mem_addressRows.1 hm).1
        omega)
  have hother := (Db.indexFrom_ok hix hM.txIndex hM.addressIndex).1
  have hroot := hM.stateRoot_eq changes.accounts
  have hfinal : ∃ db', (if isSnapshotPoint block.height params then do
      let root ← stateRoot (db₄.setStatus block.blockId .valid).accounts.rows
      (db₄.setStatus block.blockId .valid).putSnapshot block.height root
      else pure (db₄.setStatus block.blockId .valid)) = Except.ok db' := by
    split
    · rename_i hp
      have hsnaps := hx.snapshots
      rw [snapshotsAfter, if_pos hp] at hsnaps
      obtain ⟨root, hr, -⟩ := bind_eq_ok.1 hsnaps
      have hacc : (db₄.setStatus block.blockId .valid).accounts =
          writeRows changes.accounts.rows.reverse db.accounts := by rw [hother]; rfl
      have hnone : (db₄.setStatus block.blockId .valid).snapshots.lookup block.height = none := by
        rw [hother]
        cases hl : db.snapshots.lookup block.height with
        | none => exact hl
        | some r =>
          have hm := List.mem_map_of_mem (f := Prod.fst) ((hM.snapshots _ _).1 hl)
          rw [hv.snapshots_heights] at hm
          obtain ⟨b, hb, he⟩ := List.mem_map.1 (List.mem_of_mem_filter hm)
          have := hv.linked.height_lt hb
          omega
      refine ⟨_, bind_eq_ok.2 ⟨root, ?_, Db.putSnapshot_ok_iff.2 ⟨?_, hnone, rfl⟩⟩⟩
      · rw [hacc, hroot, ← hx.accounts, hr]
      · exact hlt
    · exact ⟨_, rfl⟩
  obtain ⟨db', hdb'⟩ := hfinal
  refine ⟨db', ?_⟩
  unfold Db.connectBlock
  simp only [bind_eq_ok, Db.writeAccounts_ok_iff, Db.putUndo_ok_iff, Db.setMain_ok_iff]
  refine ⟨changes, ?_, _, ⟨hstore, rfl⟩, _, ⟨fun r hr => ?_, hundo, rfl⟩, _, ⟨?_, ?_, ?_, rfl⟩, db₄,
    hix, hdb'⟩
  · rw [hM.getAccount_eq, applyBlock_ok_iff]; exact hx.applied
  · exact ⟨lt_trans (hprev r hr).1 (by decide), lt_trans (hprev r hr).2 (by decide)⟩
  · exact hlt
  · intro other ho
    obtain ⟨b, hb, he⟩ := List.mem_map.1 ((hM.main _ _).1 ho)
    exact hid (List.mem_map.2 ⟨b, hb, (Prod.mk.inj he).2⟩)
  · cases hl : db.mainChain.lookup block.height with
    | none => rfl
    | some id => exact absurd ((hM.main _ _).1 hl) (hmain id)

/-- Connecting a block raises what applying it raises, where there is
room for it. -/
theorem Matches.connectBlock_error (hM : Matches db L) (hv : Valid params L)
    (hctx : L.context params = .ok ctx)
    (hf : block.height = L.chain.length → Fits params L block) {e : PyError}
    (h : db.connectBlock params block ctx = .error e) :
    e.IsInvalid ∧ ∀ L', L.extend params block ≠ .ok L' := by
  have hfits : ∀ {ctx' changes}, L.context params = .ok ctx' →
      AppliedBlock params block ctx' (getAccount L.accounts) changes → Fits params L block := by
    intro ctx' changes hctx' ha
    obtain ⟨parent, hp⟩ := context_ok_iff.1 hctx'
    refine hf ?_
    rw [← hv.parent_height hp, Block.height, ha.header.height, hp.parent_eq]
    rfl
  constructor
  · unfold Db.connectBlock at h
    rcases bind_eq_error.1 h with happ | ⟨changes, happ, h⟩
    · exact hv.onlyInvalid_applyBlock hctx _ _ e happ
    · rw [hM.getAccount_eq, applyBlock_ok_iff] at happ
      obtain ⟨L', hx⟩ := hv.extended_of_applied hctx happ (hfits hctx happ).nonces
      obtain ⟨db', hdb⟩ := hM.connectBlock_isOk hv hx (hfits hctx happ)
      unfold Db.connectBlock at hdb
      obtain ⟨changes', happ', hdb⟩ := bind_eq_ok.1 hdb
      rw [hM.getAccount_eq, applyBlock_ok_iff.2 happ] at happ'
      rw [← Except.ok.inj happ', h] at hdb
      cases hdb
  · intro L' he
    obtain ⟨ctx', changes, hx⟩ := extend_ok_iff.1 he
    have hc := hctx.symm.trans hx.context
    rw [Except.ok.injEq] at hc
    subst hc
    obtain ⟨db', hdb⟩ := hM.connectBlock_isOk hv hx (hfits hctx hx.applied)
    rw [h] at hdb
    cases hdb

/-! ## Disconnecting the tip -/

/-- **The block disconnected, the tables are as they were before it.** -/
theorem Matches.disconnectBlock {L₀ : Ledger} (hM : Matches db L) (hv : Valid params L₀)
    (he : L₀.extend params block = .ok L) :
    ∃ db', db.disconnectBlock block.height block = .ok db' ∧ Matches db' L₀ ∧
      db'.headers = db.headers ∧ db'.sealedChunks = db.sealedChunks := by
  obtain ⟨ctx, changes, hx⟩ := extend_ok_iff.1 he
  have hlink := (hv.extend he).linked
  rw [hx.chain] at hlink
  have hheight : block.height = L₀.chain.length := hlink.head_height
  have hbelow : ∀ b ∈ L₀.chain, b.height ≠ block.height := fun b hb => by
    have := hv.linked.height_lt hb
    omega
  have hundo : db.undo.Lists ((block.blockId, undoBytes changes.previous.rows.reverse) ::
      L₀.undo.map fun u => (u.1, undoBytes u.2)) := by
    have := hM.undo
    rwa [hx.undo] at this
  have hstore : Storable changes.previous.rows.reverse :=
    hM.storable (block.blockId, _) (by rw [hx.undo]; exact List.mem_cons_self)
  have htake := Db.takeUndo_of db hstore ((hundo _ _).2 List.mem_cons_self)
  have hids : block.blockId ∉ L₀.chain.map Block.blockId ∧ (L₀.chain.map Block.blockId).Nodup := by
    have := hM.ids
    rwa [hx.chain, List.map_cons, List.nodup_cons] at this
  have hrun : db.disconnectBlock block.height block = .ok
      ((({ db with
          undo := Table.remove block.blockId db.undo
          accounts := writeRows changes.previous.rows.reverse db.accounts }).unindexBlock
        block).deleteMain block.height |>.deleteSnapshot block.height) := by
    unfold Db.disconnectBlock
    rw [htake]
    exact bind_eq_ok.2 ⟨_, rfl, bind_eq_ok.2 ⟨_, Db.writeAccounts_ok_iff.2 ⟨hstore, rfl⟩, rfl⟩⟩
  refine ⟨_, hrun, ⟨?_, hids.2, fun a => ?_, fun a => ?_, ?_, fun u hu => ?_, ?_, ?_, ?_⟩, rfl, rfl⟩
  · have hmain := hM.main
    rw [hx.chain, List.map_cons] at hmain
    refine hmain.remove fun id hm => ?_
    obtain ⟨b, hb, heq⟩ := List.mem_map.1 hm
    exact hbelow b hb (Prod.mk.inj heq).1
  · refine hx.applied.undo hv.noEmpty (fun a => ?_) a
    rw [hM.accounts, hx.accounts]
  · have hmono := hx.applied.advances.mono a
    have hn := hM.nonces a
    rw [hx.accounts] at hn
    omega
  · refine hundo.remove fun data hm => ?_
    obtain ⟨u, hu, heq⟩ := List.mem_map.1 hm
    have hmem : u.1 ∈ L₀.undo.map Prod.fst := List.mem_map_of_mem hu
    rw [hv.undo_ids, (Prod.mk.inj heq).1] at hmem
    exact hids.1 (List.dropLast_subset _ hmem)
  · exact hM.storable u (by rw [hx.undo]; exact List.mem_cons_of_mem _ hu)
  · have habsent : ∀ root, (block.height, root) ∉ L₀.snapshots := by
      intro root hm
      have hmem := List.mem_map_of_mem (f := Prod.fst) hm
      rw [hv.snapshots_heights] at hmem
      obtain ⟨b, hb, heq⟩ := List.mem_map.1 (List.mem_of_mem_filter hmem)
      exact hbelow b hb heq
    have hsnaps := hx.snapshots
    have hlist := hM.snapshots
    unfold snapshotsAfter at hsnaps
    split at hsnaps
    · obtain ⟨root, -, hsnaps⟩ := bind_eq_ok.1 hsnaps
      rw [← Except.ok.inj hsnaps] at hlist
      exact hlist.remove habsent
    · rw [← Except.ok.inj hsnaps] at hlist
      exact hlist.remove_absent habsent
  · refine (hM.txIndex.deleteWhere _).of_mem fun r => ?_
    rw [hx.chain, List.mem_filter, List.flatMap_cons, List.mem_append, Bool.not_eq_true',
      decide_eq_false_iff_not]
    constructor
    · rintro ⟨hm | hm, hne⟩
      · exact absurd (mem_txRows.1 hm).2.1 hne
      · exact hm
    · intro hm
      obtain ⟨b, hb, hr⟩ := List.mem_flatMap.1 hm
      exact ⟨Or.inr hm, fun heq => hbelow b hb ((mem_txRows.1 hr).2.1.symm.trans heq)⟩
  · refine (hM.addressIndex.deleteWhere _).of_mem fun r => ?_
    obtain ⟨⟨a, height, position⟩, txid⟩ := r
    rw [hx.chain, List.mem_filter, List.flatMap_cons, List.mem_append, Bool.not_eq_true',
      decide_eq_false_iff_not]
    constructor
    · rintro ⟨hm | hm, hne⟩
      · exact absurd (mem_addressRows.1 hm).1 hne
      · exact hm
    · intro hm
      obtain ⟨b, hb, hr⟩ := List.mem_flatMap.1 hm
      exact ⟨Or.inr hm, fun heq => hbelow b hb ((mem_addressRows.1 hr).1.symm.trans heq)⟩

end TalCash
