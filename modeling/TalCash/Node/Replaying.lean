import TalCash.Node.Keeping
/-!
# The tables are the replayed chain

After any run of submitted blocks the tables that blocks change are what
replaying the active chain gives: accounts, undo data, snapshots and
indexes. They depend on the active chain alone (`replayed_afterBlocks`),
however often it was left and taken up again.
-/

namespace TalCash

open BlockFiles Ledger

variable [Primitives] {params : NetworkParams} {B : Set Block} {lim : ℕ} {s s' : Store}
variable {L L' : Ledger} {b block : Block} {blocks : List Block}

/-- The tables of a store are what replaying its active chain gives; the
blocks are those above genesis, oldest first. -/
structure Replayed (params : NetworkParams) (s : Store) (blocks : List Block) (L : Ledger) :
    Prop where
  replay : Ledger.replay params blocks = .ok L
  active : ∀ height id, s.db.mainId height = some id ↔
    ∃ b, (genesisBlock params :: blocks)[height]? = some b ∧ b.blockId = id
  read : ∀ b ∈ genesisBlock params :: blocks, Exec.outcome (Store.block b.blockId) s = .ok (some b)
  accounts : ∀ a, s.db.accounts.lookup a = L.accounts.lookup a
  snapshots : ∀ height root, s.db.snapshots.lookup height = some root ↔
    isSnapshotPoint height params = true ∧ height ≤ blocks.length ∧
      ∃ L₀, Ledger.replay params (blocks.take height) = .ok L₀ ∧
        stateRoot L₀.accounts.rows = .ok root
  undo : s.db.undo.Lists (L.undo.map fun u => (u.1, undoBytes u.2))
  txIndex : s.db.txIndex.Lists ((genesisBlock params :: blocks).flatMap txRows)
  addressIndex : s.db.addressIndex.Lists ((genesisBlock params :: blocks).flatMap addressRows)

/-- The tables that blocks change answer every lookup alike. -/
structure SameTables (db db' : Db) : Prop where
  accounts : ∀ a, db.accounts.lookup a = db'.accounts.lookup a
  snapshots : ∀ height, db.snapshots.lookup height = db'.snapshots.lookup height
  undo : ∀ id, db.undo.lookup id = db'.undo.lookup id
  txIndex : ∀ txid, db.txIndex.lookup txid = db'.txIndex.lookup txid
  addressIndex : ∀ k, db.addressIndex.lookup k = db'.addressIndex.lookup k

/-- A valid chain, oldest first, starts with genesis. -/
theorem Ledger.Valid.reverse_chain (h : Valid params L) :
    L.chain.reverse = genesisBlock params :: L.chain.reverse.tail := by
  have hc := (valid_of_replay h.replay).2
  have := congrArg List.reverse hc
  rw [List.reverse_append, List.reverse_reverse, List.reverse_singleton] at this
  exact this

/-- The block of a height. -/
theorem Ledger.Valid.getElem?_reverse_chain (h : Valid params L) {height : ℕ} :
    L.chain.reverse[height]? = some b ↔ b ∈ L.chain ∧ b.height = height := by
  constructor
  · intro hb
    have hlt : height < L.chain.length := by
      have := (List.getElem?_eq_some_iff.1 hb).1
      rwa [List.length_reverse] at this
    rw [List.getElem?_reverse hlt] at hb
    have := h.linked.height_eq hb
    exact ⟨List.mem_of_getElem? hb, by omega⟩
  · rintro ⟨hb, rfl⟩
    obtain ⟨i, hi⟩ := List.getElem?_of_mem hb
    have hh := h.linked.height_eq hi
    rw [List.getElem?_reverse (by omega), show L.chain.length - 1 - b.height = i by omega, hi]

/-- The replayed chains below a valid ledger are its beginnings. -/
theorem Ledger.Valid.replay_take (h : Valid params L) {height : ℕ} {L₀ : Ledger} :
    (Valid params L₀ ∧ L₀.chain <:+ L.chain ∧ L₀.chain.length = height + 1) ↔
      height ≤ L.chain.reverse.tail.length ∧
        Ledger.replay params (L.chain.reverse.tail.take height) = .ok L₀ := by
  have hlen : L.chain.reverse.tail.length + 1 = L.chain.length := by
    have := congrArg List.length h.reverse_chain
    rw [List.length_reverse, List.length_cons] at this
    exact this.symm
  constructor
  · rintro ⟨hv, hs, hl⟩
    have hle := hs.length_le
    refine ⟨by omega, ?_⟩
    have hp : L₀.chain.reverse <+: L.chain.reverse := List.reverse_prefix.2 hs
    rw [hv.reverse_chain, h.reverse_chain, List.cons_prefix_cons] at hp
    have htl : L₀.chain.reverse.tail.length = height := by
      rw [List.length_tail, List.length_reverse, hl, Nat.add_sub_cancel]
    rw [← htl, ← List.prefix_iff_eq_take.1 hp.2]
    exact hv.replay
  · rintro ⟨hle, hr⟩
    obtain ⟨hv, hc⟩ := valid_of_replay hr
    refine ⟨hv, ?_, ?_⟩
    · rw [← List.reverse_prefix, hv.reverse_chain, h.reverse_chain, hc, List.cons_prefix_cons]
      refine ⟨rfl, ?_⟩
      rw [List.reverse_append, List.reverse_reverse, List.reverse_singleton]
      exact List.take_prefix _ _
    · rw [hc, List.length_append, List.length_reverse, List.length_take, List.length_singleton]
      omega

/-- A store that holds a ledger has its tables. -/
theorem Good.replayed (h : Good params B lim s L) :
    Replayed params s L.chain.reverse.tail L := by
  have hrev := h.valid.reverse_chain
  have hmem : ∀ c, c ∈ genesisBlock params :: L.chain.reverse.tail ↔ c ∈ L.chain := by
    intro c
    rw [← hrev, List.mem_reverse]
  refine ⟨h.valid.replay, fun height id => ?_, fun c hc => ?_, h.tables.accounts,
    fun height root => ?_, h.tables.undo, h.tables.txIndex.of_mem fun r => ?_,
    h.tables.addressIndex.of_mem fun r => ?_⟩
  · rw [h.tables.mainId_eq_some, ← hrev]
    exact exists_congr fun c => by rw [h.valid.getElem?_reverse_chain, and_assoc]
  · exact Exec.outcome_eq ((h.block_spec ((hmem c).1 hc)).mono (fun x _ hx => by rw [hx.1])
      fun _ _ he => he.elim)
  · rw [h.tables.snapshots height root, h.valid.mem_snapshots]
    refine and_congr_right fun _ => ?_
    constructor
    · rintro ⟨L₀, hv, hs, hl, hroot⟩
      obtain ⟨hle, hr⟩ := h.valid.replay_take.1 ⟨hv, hs, hl⟩
      exact ⟨hle, L₀, hr, hroot⟩
    · rintro ⟨hle, L₀, hr, hroot⟩
      obtain ⟨hv, hs, hl⟩ := h.valid.replay_take.2 ⟨hle, hr⟩
      exact ⟨L₀, hv, hs, hl, hroot⟩
  · simp only [List.mem_flatMap, hmem]
  · simp only [List.mem_flatMap, hmem]

/-- A block of one ledger is one of any ledger with its active chain. -/
theorem Good.mem_of_mainId {lim' : ℕ} (h : Good params B lim s L) (h' : Good params B lim' s' L')
    (hS : CollisionFree (messagesOf B)) (hm : ∀ height, s.db.mainId height = s'.db.mainId height)
    (hb : b ∈ L.chain) : b ∈ L'.chain := by
  have hid := h.mainId_of_mem hb
  rw [hm, h'.tables.mainId_eq_some] at hid
  obtain ⟨c, hc, -, he⟩ := hid
  have hcb : c = b := eq_of_blockId_eq hS (messages_subset (h'.chain c hc).1)
    (messages_subset (h.chain b hb).1) (h'.valid.linked.checked hc) (h.valid.linked.checked hb) he
  exact hcb ▸ hc

/-- Ledgers of one active chain are one ledger. -/
theorem Good.eq_of_mainId {lim' : ℕ} (h : Good params B lim s L) (h' : Good params B lim' s' L')
    (hS : CollisionFree (messagesOf B)) (hm : ∀ height, s.db.mainId height = s'.db.mainId height) :
    L = L' := by
  have hget : ∀ i : ℕ, L.chain.reverse[i]? = L'.chain.reverse[i]? := by
    intro i
    refine Option.ext fun c => ?_
    rw [h.valid.getElem?_reverse_chain, h'.valid.getElem?_reverse_chain]
    exact and_congr_left fun _ => ⟨h.mem_of_mainId h' hS hm,
      h'.mem_of_mainId h hS fun height => (hm height).symm⟩
  exact h.valid.eq_of_chain_eq h'.valid (List.reverse_injective (List.ext_getElem? hget))

namespace Node

variable {clock : ℕ → ℤ}

/-- **The tables are the replayed chain.** After any run of submitted
blocks the tables are what replaying the active chain gives; two runs
that end on one chain end with the same tables. -/
theorem replayed_afterBlocks (blocks : List Block) :
    (∃ chain L, Replayed params (afterBlocks params clock blocks).store chain L) ∧
      ∀ blocks', CollisionFree
          (messagesOf {b | b = genesisBlock params ∨ b ∈ blocks ∨ b ∈ blocks'}) →
        (∀ height, (afterBlocks params clock blocks).store.db.mainId height =
          (afterBlocks params clock blocks').store.db.mainId height) →
        SameTables (afterBlocks params clock blocks).store.db
          (afterBlocks params clock blocks').store.db := by
  constructor
  · obtain ⟨L, hs, -⟩ := soundNode_after params clock blocks (B := Set.univ) trivial
      fun _ _ => trivial
    exact ⟨_, L, hs.good.replayed⟩
  · intro blocks' hS hm
    obtain ⟨L, hs, -⟩ := soundNode_after params clock blocks
      (B := {b | b = genesisBlock params ∨ b ∈ blocks ∨ b ∈ blocks'}) (.inl rfl)
      fun b hb => .inr (.inl hb)
    obtain ⟨L', hs', -⟩ := soundNode_after params clock blocks'
      (B := {b | b = genesisBlock params ∨ b ∈ blocks ∨ b ∈ blocks'}) (.inl rfl)
      fun b hb => .inr (.inr hb)
    obtain rfl := hs.good.eq_of_mainId hs'.good hS hm
    exact ⟨fun a => (hs.good.tables.accounts a).trans (hs'.good.tables.accounts a).symm,
      hs.good.tables.snapshots.lookup_eq hs'.good.tables.snapshots,
      hs.good.tables.undo.lookup_eq hs'.good.tables.undo,
      hs.good.tables.txIndex.lookup_eq hs'.good.tables.txIndex,
      hs.good.tables.addressIndex.lookup_eq hs'.good.tables.addressIndex⟩

end Node

end TalCash
