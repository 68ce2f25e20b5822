import TalCash.Node.Following
import TalCash.Node.Calls
/-!
# Accepting a block

What `_submit_one` does with a block whose parent is stored and whose
checks passed: it is stored, and its branch followed where it has more
work. The finality check has walked from the parent to the active chain,
so there is a branch to follow, and it leaves the chain above the sealed
chunks. A node that holds a ledger holds one after the call.
-/

namespace TalCash

open BlockFiles Ledger

variable [Primitives] {params : NetworkParams} {B : Set Block} {lim : ℕ} {s s' : Store}
variable {L L' : Ledger} {b block : Block} {r : HeaderRow} {id : Digest}

/-! ## Finality -/

/-- A block that passes the finality check has a branch, which leaves the
active chain at a height that is not below the finalized one. -/
theorem branch_of_checkFinality {db : Db} : ∀ {steps : ℕ} {r : Option HeaderRow},
    db.checkFinality params steps r = .ok () →
      ∃ row ids fork, r = some row ∧ Branch db row ids fork ∧ db.finalizedHeight params ≤ fork
  | steps, none, h => by
    unfold Db.checkFinality at h
    cases h
  | steps, some row, h => by
    unfold Db.checkFinality at h
    dsimp only at h
    by_cases hon : db.isOnMainChain row.blockId = true
    · rw [if_pos hon, ite_invalid_eq_ok] at h
      exact ⟨row, [], row.height, rfl, .on hon, Nat.le_of_not_lt h.1⟩
    · rw [if_neg hon, ite_invalid_eq_ok] at h
      cases steps with
      | zero => exact nomatch h.2
      | succ steps =>
        obtain ⟨p, ids, fork, hp, hb, hle⟩ := branch_of_checkFinality h.2
        exact ⟨row, row.blockId :: ids, fork, rfl, .off (Bool.eq_false_iff.2 hon) hp hb, hle⟩

/-- Where a block has a branch, the finality check raises nothing but a
rejection. -/
theorem onlyInvalid_checkFinality {db : Db} {ids : List Digest} {fork : ℕ}
    (h : Branch db r ids fork) : ∀ {steps : ℕ}, ids.length ≤ steps →
      OnlyInvalid (db.checkFinality params steps (some r)) := by
  induction h with
  | on hon =>
    intro steps _
    unfold Db.checkFinality
    dsimp only
    rw [if_pos hon]
    exact Raises.ite (fun _ => .invalid ⟨_, rfl⟩) fun _ => .ok ()
  | off hoff hp _ ih =>
    intro steps hl
    obtain ⟨steps, rfl⟩ : ∃ k, steps = k + 1 := ⟨steps - 1, by rw [List.length_cons] at hl; omega⟩
    unfold Db.checkFinality
    dsimp only
    rw [if_neg (by rw [hoff]; exact Bool.false_ne_true)]
    refine Raises.ite (fun _ => .invalid ⟨_, rfl⟩) fun _ => ?_
    change OnlyInvalid (db.checkFinality params steps (db.header _))
    rw [hp]
    exact ih (Nat.le_of_succ_le_succ hl)

/-! ## Storing a block -/

/-- The file of a block was written, and nothing else. -/
structure Wrote (b : Block) (f f' : BlockFiles) : Prop where
  recent : f.RecentCoherent → f'.RecentCoherent
  segments : f'.segments = f.segments
  disk : f'.disk = Table.put (.recent b.height b.blockId) b.serialize f.disk

namespace Wrote

variable {f f' : BlockFiles}

theorem chunk (h : Wrote b f f') (index : ℕ) :
    f'.disk.lookup (.chunk index) = f.disk.lookup (.chunk index) := by
  rw [h.disk, Table.lookup_put_ne (by rintro ⟨⟩)]

theorem other (h : Wrote b f f') {height : ℕ} (hid : id ≠ b.blockId) :
    f'.disk.lookup (.recent height id) = f.disk.lookup (.recent height id) := by
  rw [h.disk, Table.lookup_put_ne fun he => hid (FileName.recent.inj he).2]

theorem self (h : Wrote b f f') :
    f'.disk.lookup (.recent b.height b.blockId) = some b.serialize := by
  rw [h.disk, Table.lookup_put_self]

/-- The other blocks are where they were. -/
theorem body (h : Wrote b f f') (hb : Body f r block) (hid : r.blockId ≠ b.blockId) :
    Body f' r block :=
  hb.of_lookup (fun _ => h.other hid) fun l _ => h.chunk l.chunk

theorem filesOk (h : Wrote b f f') (hf : f.FilesOk lim) : f'.FilesOk lim := by
  refine ⟨h.recent hf.recent, fun index offset g hi hg => ?_, fun index hi => ?_⟩
  · rw [h.segments] at hg
    obtain ⟨length, hd⟩ := hf.segments index offset g hi hg
    exact ⟨length, by rw [diskSegment, h.chunk, ← diskSegment, hd]⟩
  · rw [h.chunk, hf.unsealed index hi]

end Wrote

theorem Db.addRow_ok_iff {db db' : Db} {header : BlockHeader} {work : ℕ} {status : Status}
    {location : Option ChunkLocation} : db.addRow header work status location = .ok db' ↔
      work < 256 ^ 48 ∧ header.height < 2 ^ 63 ∧ db.headers.lookup header.blockId = none ∧
        db' = { db with
          headers := Table.put header.blockId ⟨header, work, status, location⟩ db.headers } := by
  unfold Db.addRow
  by_cases hw : 256 ^ 48 ≤ work
  · rw [if_pos hw]
    exact ⟨fun h => (nomatch h), fun h => absurd hw (Nat.not_le_of_lt h.1)⟩
  · rw [if_neg hw]
    simp only [bind_eq_ok, sqlInteger_ok_iff, insertNew_ok_iff]
    constructor
    · rintro ⟨_, hh, _, ⟨hn, rfl⟩, h⟩
      exact ⟨Nat.lt_of_not_le hw, hh, hn, (Except.ok.inj h).symm⟩
    · rintro ⟨-, hh, hn, rfl⟩
      exact ⟨(), hh, _, ⟨hn, rfl⟩, rfl⟩

/-- The store after a block was added to it. -/
structure Added (b : Block) (work : ℕ) (s s' : Store) : Prop where
  db : s'.db = { s.db with
    headers := Table.put b.blockId ⟨b.header, work, .stored, none⟩ s.db.headers }
  files : Wrote b s.files s'.files

theorem addBlock_spec {work : ℕ} (hf : s.files.RecentCoherent)
    (hnew : s.db.headers.lookup b.blockId = none) :
    Exec.wp (Store.transaction (Store.addBlock b work .stored))
      (fun _ s' => Added b work s s')
      (fun _ s' => s'.db = s.db ∧ Wrote b s.files s'.files ∧
        (256 ^ 48 ≤ work ∨ 2 ^ 63 ≤ b.height)) s := by
  simp only [Store.transaction, Exec.wp_atomically, Store.addBlock, Option.isNone_none, if_true,
    Exec.wp_bind, Store.onFiles, Exec.wp_zoom]
  refine (hf.writeRecent b).mono ?_ fun _ _ h => h.elim
  rintro _ f' ⟨hrecent, hsegments, hdisk⟩
  have hwrote : Wrote b s.files f' := ⟨fun _ => hrecent, hsegments, hdisk⟩
  simp only [Store.writeDb, Exec.wp_bind, Exec.wp_get, Exec.wp_lift, Exec.wp_set]
  refine ⟨fun db hdb => ⟨?_, hwrote⟩, fun e he => ⟨trivial, hwrote, ?_⟩⟩
  · obtain ⟨-, -, -, rfl⟩ := Db.addRow_ok_iff.1 hdb
    rfl
  · by_contra hno
    rw [not_or, Nat.not_le, Nat.not_le] at hno
    rw [Db.addRow_ok_iff.2 ⟨hno.1, hno.2, hnew, rfl⟩] at he
    cases he

/-! ## Storing keeps a store sound -/

theorem Branch.mono {db db' : Db} {ids : List Digest} {fork : ℕ}
    (hon : ∀ id, db'.isOnMainChain id = db.isOnMainChain id)
    (hrows : ∀ id r, db.header id = some r → db'.header id = some r)
    (h : Branch db r ids fork) : Branch db' r ids fork := by
  induction h with
  | on h => exact .on ((hon _).trans h)
  | off h hp _ ih => exact .off ((hon _).trans h) (hrows _ _ hp) ih

/-- A store whose database is the same holds the same ledger after a file
of a block that has no row was written. -/
theorem Sound.wrote (h : Sound params B s L) (hdb : s'.db = s.db) (hw : Wrote b s.files s'.files)
    (hnew : s.db.headers.lookup b.blockId = none) : Sound params B s' L := by
  have hne : ∀ {id r}, s.db.headers.lookup id = some r → r.blockId ≠ b.blockId := by
    intro id r hr he
    rw [← h.good.keyed id r hr, he, hnew] at hr
    cases hr
  refine ⟨⟨h.good.valid, hdb ▸ h.good.tables, hdb ▸ h.good.keyed, fun c hc => ?_,
    by rw [hdb]; exact h.good.located, hdb ▸ hw.filesOk h.good.files⟩, fun id r hr => ?_, by rw [hdb]; exact h.sealed⟩
  · obtain ⟨hB, r, hr, hbody⟩ := h.good.chain c hc
    exact ⟨hB, r, hdb ▸ hr, hw.body hbody (hne hr)⟩
  · rw [hdb] at hr
    obtain ⟨ha, c, hB, hcheck, hbody⟩ := h.rows id r hr
    exact ⟨ha, c, hB, hcheck, hw.body hbody (hne hr)⟩

theorem Fresh.wrote (h : Fresh s) (hdb : s'.db = s.db) (hw : Wrote b s.files s'.files) : Fresh s' := by
  unfold Fresh BlockFiles.NoStale
  rw [hdb, hw.segments]
  exact h

/-- Stores that hold one ledger have one active chain. -/
theorem Sound.isOnMainChain_eq (h : Sound params B s L) (h' : Sound params B s' L) (id : Digest) :
    s'.db.isOnMainChain id = s.db.isOnMainChain id := by
  rw [Bool.eq_iff_iff, h.good.isOnMainChain_iff, h'.good.isOnMainChain_iff]

omit [Primitives] in
theorem Block.one_le_size (b : Block) : 1 ≤ b.size := by
  rw [Block.size, Block.serialize, List.length_append, BlockHeader.length_serialize]
  exact Nat.le_add_right_of_le (by decide)

namespace Added

variable {work : ℕ}

theorem lookup (h : Added b work s s') : s'.db.headers.lookup id =
    if id = b.blockId then some ⟨b.header, work, .stored, none⟩ else s.db.headers.lookup id := by
  rw [h.db]
  exact Table.lookup_put

theorem lookup_self (h : Added b work s s') :
    s'.db.headers.lookup b.blockId = some ⟨b.header, work, .stored, none⟩ := by
  rw [h.lookup, if_pos rfl]

theorem lookup_of_some (h : Added b work s s') (hnew : s.db.headers.lookup b.blockId = none)
    (hr : s.db.headers.lookup id = some r) : s'.db.headers.lookup id = some r := by
  rw [h.lookup, if_neg, hr]
  rintro rfl
  rw [hnew] at hr
  cases hr

theorem headersOnly (h : Added b work s s') : HeadersOnly s.db s'.db := by
  rw [HeadersOnly, h.db]

/-- **A checked child of a stored block is stored soundly.** -/
theorem sound (h : Added b work s s') (hs : Sound params B s L)
    (hnew : s.db.headers.lookup b.blockId = none) (hb : b ∈ B) (hcheck : CheckedBlock params b)
    (ha : Ancestry params B b.header work) : Sound params B s' L := by
  have hw : Sound params B { s' with db := s.db } L := hs.wrote rfl h.files hnew
  have hsealed : s'.db.sealedChunks = s.db.sealedChunks := by rw [h.db]
  refine ⟨⟨hs.good.valid, hs.good.tables.headersOnly h.headersOnly, fun id r hr => ?_,
    fun c hc => ?_, fun id r l hr hl => ?_, hsealed ▸ hw.good.files⟩, fun id r hr => ?_,
    hsealed ▸ hs.sealed⟩
  · rw [h.lookup] at hr
    split at hr
    · rename_i hid
      cases hr
      exact hid.symm
    · exact hs.good.keyed id r hr
  · obtain ⟨hB, r, hr, hbody⟩ := hw.good.chain c hc
    exact ⟨hB, r, h.lookup_of_some hnew hr, hbody⟩
  · rw [h.lookup] at hr
    rw [hsealed]
    split at hr
    · cases hr
      cases hl
    · exact hs.good.located id r l hr hl
  · rw [h.lookup] at hr
    split at hr
    · cases hr
      exact ⟨ha, b, hb, hcheck, rfl, b.serialize, h.files.self, blockFromBytes_serialize b,
        b.one_le_size, hcheck.size_le.trans params.maxBlockSize_le⟩
    · exact hw.rows id r hr

theorem fresh (h : Added b work s s') (hf : Fresh s) : Fresh s' := by
  have hw : Fresh { s' with db := s.db } := hf.wrote rfl h.files
  unfold Fresh at hw ⊢
  rw [h.db]
  exact hw

/-- The branch of the parent is one of the block. -/
theorem branch (h : Added b work s s') (hs : Sound params B s L) (hs' : Sound params B s' L)
    (hnew : s.db.headers.lookup b.blockId = none) {p : HeaderRow} {ids : List Digest} {fork : ℕ}
    (hp : s.db.header b.header.prevId = some p) (hb : Branch s.db p ids fork) :
    Branch s'.db ⟨b.header, work, .stored, none⟩ (b.blockId :: ids) fork := by
  refine .off ?_ (h.lookup_of_some hnew hp)
    (hb.mono (hs.isOnMainChain_eq hs') fun _ _ => h.lookup_of_some hnew)
  change s'.db.isOnMainChain b.blockId = false
  rw [hs.isOnMainChain_eq hs', Db.isOnMainChain, Db.header, hnew]

end Added

/-! ## A child of a stored block -/

/-- A new block whose parent is stored and that passed its checks: its
branch leaves the active chain above what is final. -/
structure Child (params : NetworkParams) (B : Set Block) (s : Store) (b : Block)
    (p : HeaderRow) : Prop where
  new : s.db.headers.lookup b.blockId = none
  parent : s.db.header b.header.prevId = some p
  branch : ∃ ids fork, Branch s.db p ids fork ∧ s.db.finalizedHeight params ≤ fork
  height : b.height = p.height + 1
  checked : CheckedBlock params b
  mem : b ∈ B

/-- What became of a block that was stored: it stays on its branch, its
branch is the chain now, or its branch was refused. -/
inductive Accepted (params : NetworkParams) (B : Set Block) (b : Block) (work : ℕ) (s : Store)
    (L : Ledger) : SubmitResult → Store → Prop
  | side {s' : Store} {tip : HeaderRow} {res : SubmitResult} (added : Added b work s s')
      (sound : Sound params B s' L) (fresh : Fresh s') (tip_eq : s'.db.tip = .ok tip)
      (le : work ≤ tip.chainWork) (quiet : Node.Quiet res) (outcome : res.outcome = .sideBranch) :
      Accepted params B b work s L res s'
  | switched {s₁ s' : Store} {tip : HeaderRow} {res : SubmitResult} {L₀ L' : Ledger}
      {bs : List Block} (added : Added b work s s₁) (sound : Sound params B s₁ L)
      (tip_eq : s₁.db.tip = .ok tip) (lt : tip.chainWork < work)
      (onTop : OnTop params B s₁ L ⟨b.header, work, .stored, none⟩ L₀ bs)
      (switched : Switched params B s₁ s' L₀ bs L') (outcome : res.outcome = .newTip)
      (connected : res.connected = bs) (disconnected : L.chain = res.disconnected ++ L₀.chain) :
      Accepted params B b work s L res s'
  | failed {s₁ s' : Store} {tip : HeaderRow} {res : SubmitResult} {L₀ : Ledger} {bs : List Block}
      (added : Added b work s s₁) (sound : Sound params B s₁ L) (tip_eq : s₁.db.tip = .ok tip)
      (lt : tip.chainWork < work)
      (onTop : OnTop params B s₁ L ⟨b.header, work, .stored, none⟩ L₀ bs)
      (failed : Failed params B s₁ s' L L₀ bs) (quiet : Node.Quiet res) (outcome : res.outcome = .invalid) :
      Accepted params B b work s L res s'

theorem Accepted.sound {work : ℕ} {res : SubmitResult} (h : Accepted params B b work s L res s') :
    ∃ L', Sound params B s' L' ∧ Fresh s' := by
  cases h with
  | side _ sound fresh => exact ⟨L, sound, fresh⟩
  | @switched _ _ _ _ _ L' _ _ _ _ _ _ switched =>
    obtain ⟨_, _, _, hseals⟩ := switched.kept
    exact ⟨L', hseals.sound, hseals.fresh⟩
  | failed _ _ _ _ _ failed => exact ⟨L, failed.sound, failed.fresh⟩

/-- The chain's work and height fit their columns. -/
theorem Regular.fits (hB : Regular params B) {work : ℕ} (ha : Ancestry params B b.header work) :
    work < 256 ^ 48 ∧ b.height < 2 ^ 63 := by
  have hlt := hB.height_lt _ _ ha
  have hle := ha.work_le
  have hchunk : params.chunkSize ≤ 2 * 10 ^ 9 :=
    (Nat.le_mul_of_pos_right _ (by have := params.maxBlockSize_ge; omega)).trans
      params.chunkSize_mul_le
  have hfinal : params.finalityDepth ≤ 10 ^ 9 :=
    (Nat.le_mul_of_pos_right _ (by have := params.maxBlockSize_ge; omega)).trans
      params.finalityDepth_mul_le
  have hh : b.header.height + 1 < 2 ^ 63 := by
    have := Nat.mul_le_mul_left (256 ^ 4 + 1) hchunk
    omega
  refine ⟨hle.trans_lt ?_, Nat.lt_of_succ_lt hh⟩
  calc (b.header.height + 1) * 2 ^ 256 < 2 ^ 63 * 2 ^ 256 :=
        Nat.mul_lt_mul_of_pos_right hh (by decide)
    _ ≤ 256 ^ 48 := by decide

namespace Node

variable {n n' : Node} {p : HeaderRow}

/-- **Accepting a child** leaves a sound store; of regular blocks it
raises nothing. -/
theorem acceptChild_spec (hn : n.store = s) (h : Sound params B s L) (hf : Fresh s)
    (hc : Child params B s b p) :
    Exec.wp (acceptChild params b p)
      (fun res n' =>
        Accepted params B b (p.chainWork + blockWork b.header.target) s L res n'.store)
      (fun _ n' => (∃ L', Sound params B n'.store L' ∧ Fresh n'.store) ∧ ¬ Regular params B) n := by
  have hprev : b.header.prevId = p.blockId := (h.good.keyed _ _ hc.parent).symm
  have ha : Ancestry params B b.header (p.chainWork + blockWork b.header.target) :=
    .child (h.rows _ _ hc.parent).ancestry hc.mem hprev hc.height
  obtain ⟨ids, fork, hbranch, hfork⟩ := hc.branch
  simp only [acceptChild, Exec.wp_bind, onStore, Exec.wp_zoom, Exec.wp_get, Exec.wp_lift, hn]
  refine (addBlock_spec h.good.files.recent hc.new).mono ?_ ?_
  · intro _ s₁ hadd
    have hs₁ := hadd.sound h hc.new hc.mem hc.checked ha
    have hf₁ := hadd.fresh hf
    obtain ⟨top, rest, htop⟩ := List.exists_cons_of_ne_nil h.good.valid.chain_ne_nil
    obtain ⟨tip, htip, -, -⟩ := hs₁.good.tip htop
    refine ⟨fun tip htip => ?_, fun e he => by rw [htip] at he; cases he⟩
    rw [Exec.wp_ite]
    refine ⟨fun hlt => ?_, fun hle => ?_⟩
    · have hb₁ := hadd.branch h hs₁ hc.new hc.parent hbranch
      rw [Exec.wp_zoom]
      refine (hs₁.switchTo_spec hf₁ hadd.lookup_self fun ids' fork' hb' => ?_).mono ?_ ?_
      · obtain ⟨-, rfl⟩ := hb'.unique hb₁
        have hsealed : s₁.db.sealedChunks = s.db.sealedChunks := by rw [hadd.db]
        have := le_trans (le_max_right _ _) hfork
        rw [hsealed]
        omega
      · rintro res s' ⟨L₀, bs, hon, ⟨L', hsw, ho, hconn, hdisc⟩ | ⟨hfail, ho, hconn, hdisc⟩⟩
        · exact .switched hadd hs₁ htip hlt hon hsw ho hconn hdisc
        · exact .failed hadd hs₁ htip hlt hon hfail ⟨hconn, hdisc⟩ ho
      · exact fun e s' he => ⟨he.1, fun hB => he.2 hB _ _ hb₁⟩
    · exact Exec.wp_pure.2 (.side hadd hs₁ hf₁ htip (Nat.le_of_not_lt hle) ⟨rfl, rfl⟩ rfl)
  · rintro e s₁ ⟨hdb, hw, hbig⟩
    refine ⟨⟨L, h.wrote hdb hw hc.new, hf.wrote hdb hw⟩, fun hB => ?_⟩
    obtain ⟨hwork, hheight⟩ := hB.fits ha
    omega

/-- What a checked child is. -/
theorem ChildChecked.child {clock : ℕ → ℤ} (hrow : n.store.db.header b.blockId = none)
    (hp : n.store.db.header b.header.prevId = some p) (hb : b ∈ B)
    (h : childChecks params clock n b p = .ok ()) : Child params B n.store b p := by
  have hc := checkChild_ok_iff.1 h
  obtain ⟨_, -, hhead⟩ := hc.header
  obtain ⟨row, ids, fork, hrow', hbranch⟩ := branch_of_checkFinality hc.finality
  cases hrow'
  exact ⟨hrow, hp, ⟨ids, fork, hbranch⟩, (checkHeaderAgainstParent_ok_iff.1 hhead).1, hc.block, hb⟩

/-- The node's store is sound and nothing stale is cached. -/
def SoundNode (params : NetworkParams) (B : Set Block) (n : Node) : Prop :=
  ∃ L, Sound params B n.store L ∧ Fresh n.store

/-- Whatever a block is answered, the node stays sound. -/
theorem SoundNode.submitOne {clock : ℕ → ℤ} (h : SoundNode params B n) (hp : Pool n) (hb : b ∈ B) :
    Exec.wp (submitOne params clock b) (fun _ n' => SoundNode params B n')
      (fun _ n' => SoundNode params B n') n := by
  have htick : SoundNode params B n.tick := h
  refine submitOne_rule ?_ ?_ ?_ ?_
  · rintro r n' - (rfl | rfl) -
    exacts [h, htick]
  · intro hnew _ _ _ hchecks
    refine (holdOrphan_spec (n := n.tick) (SamePool.pool (n := n) ⟨rfl, rfl⟩ hp) hnew.orphan
      (CheckedBlock.size_le_orphans (checkOrphan_ok_iff.1 hchecks).2)).mono ?_ fun _ _ h => h.elim
    intro _ n' hheld
    unfold SoundNode
    rw [hheld.rest.store]
    exact htick
  · intro p hnew hparent _ hchecks
    obtain ⟨L, hs, hf⟩ := h
    exact (acceptChild_spec (n := n.tick) rfl hs hf
      (ChildChecked.child (n := n) hnew.row hparent hb hchecks)).mono (fun _ _ h => h.sound) fun _ _ h => h.1
  · exact fun _ _ _ _ _ _ _ => htick

end Node

/-! ## A fresh node -/

/-- The row of the genesis block. -/
def genesisRow (params : NetworkParams) : HeaderRow where
  header := (genesisBlock params).header
  chainWork := blockWork (genesisBlock params).header.target
  status := .valid
  location := none

/-- The database of a fresh node. -/
structure GenesisDb (params : NetworkParams) (db : Db) : Prop where
  headers : db.headers = Table.put (genesisBlock params).blockId (genesisRow params) ∅
  sealedChunks : db.sealedChunks = 0
  tables : Matches db (Ledger.start params)

/-- The writes of a fresh node succeed. -/
theorem genesisDb_isOk (params : NetworkParams) : ∃ db₁ db₂ db,
    Db.addRow (genesisBlock params).header (blockWork (genesisBlock params).header.target) .valid
      none {} = .ok db₁ ∧
    db₁.setMain 0 (genesisBlock params).blockId = .ok db₂ ∧
    db₂.indexBlock (genesisBlock params) = .ok db ∧ GenesisDb params db := by
  have hh : (genesisBlock params).header.height = 0 := genesisBlock_height params
  have hcheck := checkedBlock_genesis params
  let db₁ : Db := { headers := Table.put (genesisBlock params).blockId (genesisRow params) ∅ }
  let db₂ : Db := { db₁ with mainChain := Table.put 0 (genesisBlock params).blockId ∅ }
  have h₁ : Db.addRow (genesisBlock params).header (blockWork (genesisBlock params).header.target)
      .valid none {} = .ok db₁ :=
    Db.addRow_ok_iff.2 ⟨(blockWork_le _).trans_lt (by decide), by rw [hh]; decide, rfl, rfl⟩
  have h₂ : db₁.setMain 0 (genesisBlock params).blockId = .ok db₂ :=
    Db.setMain_ok_iff.2 ⟨by decide, fun _ h => (nomatch h), rfl, rfl⟩
  have hempty : ∀ {κ ν : Type} [DecidableEq κ] (t : Table κ ν), t = ∅ → t.Lists [] := by
    rintro κ ν _ t rfl k v
    exact ⟨fun h => (nomatch h), fun h => (nomatch h)⟩
  have hmain : db₂.mainChain.Lists [(0, (genesisBlock params).blockId)] :=
    (hempty (∅ : Table ℕ Digest) rfl).put rfl
  obtain ⟨db, h₃⟩ := Db.indexFrom_isOk (genesisBlock params).blockId (show 0 < 2 ^ 63 by decide)
    (genesisBlock params).transactions 0 db₂
    (by rw [genesisBlock_transactions, List.length_singleton]; decide) hcheck.nodup
    (fun _ _ => rfl) fun _ _ _ => rfl
  obtain ⟨hother, htx, haddr⟩ := Db.indexFrom_ok h₃ (hempty db₂.txIndex rfl)
    (hempty db₂.addressIndex rfl)
  have h₃' : db₂.indexBlock (genesisBlock params) = .ok db := by
    rw [Db.indexBlock, genesisBlock_height]
    exact h₃
  refine ⟨db₁, db₂, db, h₁, h₂, h₃', by rw [hother], by rw [hother], ?_⟩
  refine ⟨?_, List.nodup_singleton _, fun a => by rw [hother]; rfl, fun a => Nat.two_pow_pos 63, ?_,
    fun u hu => (nomatch hu), ?_, ?_, ?_⟩
  · rw [hother]
    change db₂.mainChain.Lists [((genesisBlock params).height, (genesisBlock params).blockId)]
    rw [genesisBlock_height]
    exact hmain
  · rw [hother]
    exact hempty _ rfl
  · rw [hother]
    exact hempty _ rfl
  · rw [List.append_nil] at htx
    change db.txIndex.Lists (txRows (genesisBlock params) ++ [])
    rw [List.append_nil, txRows, genesisBlock_height]
    exact htx
  · rw [List.append_nil] at haddr
    change db.addressIndex.Lists (addressRows (genesisBlock params) ++ [])
    rw [List.append_nil, addressRows, genesisBlock_height]
    exact haddr

omit [Primitives] in
theorem recentCoherent_empty : ({} : BlockFiles).RecentCoherent :=
  ⟨fun _ _ h => (nomatch h), fun _ _ h => (nomatch h), rfl⟩

theorem initGenesis_spec : Exec.wp (Store.initGenesis params)
    (fun _ s => GenesisDb params s.db ∧ Wrote (genesisBlock params) {} s.files) (fun _ _ => False)
    {} := by
  obtain ⟨db₁, db₂, db, h₁, h₂, h₃, hdb⟩ := genesisDb_isOk params
  simp only [Store.initGenesis, Store.transaction, Exec.wp_bind, Exec.wp_atomically,
    Store.addBlock, Option.isNone_none, if_true, Store.onFiles, Exec.wp_zoom]
  refine (recentCoherent_empty.writeRecent _).mono ?_ fun _ _ h => h.elim
  rintro _ f ⟨hrecent, hsegments, hdisk⟩
  simp only [Store.writeDb, Exec.wp_bind, Exec.wp_get, h₁, h₂, h₃, Exec.lift, Exec.wp_pure,
    Exec.wp_set, Store.sealReadyChunks]
  rw [Exec.wp_ite]
  have hready : Store.sealReady params db = false := by
    unfold Store.sealReady
    have := hdb.tables.tipHeight .start
    have := params.chunkSize_ge
    rw [hdb.sealedChunks, decide_eq_false_iff_not]
    have hlen : (Ledger.start params).chain.length = 1 := rfl
    omega
  refine ⟨fun h => ?_, fun _ => Exec.wp_pure.2 ⟨hdb, fun _ => hrecent, hsegments, hdisk⟩⟩
  rw [hready] at h
  cases h

theorem fresh_store (params : NetworkParams) : GenesisDb params (Store.fresh params).db ∧
    Wrote (genesisBlock params) {} (Store.fresh params).files := by
  unfold Store.fresh
  exact Exec.wp_const_iff
    (P := fun s => GenesisDb params s.db ∧ Wrote (genesisBlock params) {} s.files).1
    (initGenesis_spec.mono (fun _ _ h => h) fun _ _ h => h.elim)

/-- **A fresh store holds the genesis block.** -/
theorem sound_fresh (hg : genesisBlock params ∈ B) :
    Sound params B (Store.fresh params) (Ledger.start params) ∧ Fresh (Store.fresh params) := by
  obtain ⟨hdb, hw⟩ := fresh_store params
  have hrow : ∀ {id r}, (Store.fresh params).db.headers.lookup id = some r →
      id = (genesisBlock params).blockId ∧ r = genesisRow params := by
    intro id r hr
    rw [hdb.headers, Table.lookup_put] at hr
    split at hr
    · rename_i hid
      exact ⟨hid, (Option.some.inj hr).symm⟩
    · cases hr
  have hbody : Body (Store.fresh params).files (genesisRow params) (genesisBlock params) :=
    ⟨rfl, (genesisBlock params).serialize, hw.self, blockFromBytes_serialize _,
      Block.one_le_size _, (checkedBlock_genesis params).size_le.trans params.maxBlockSize_le⟩
  refine ⟨⟨⟨.start, hdb.tables, fun id r hr => ?_, fun b hb => ?_, fun id r l hr hl => ?_, ?_⟩,
    fun id r hr => ?_, ?_⟩, fun index offset _ => ?_⟩
  · obtain ⟨rfl, rfl⟩ := hrow hr
    rfl
  · rw [List.mem_singleton.1 hb]
    exact ⟨hg, genesisRow params, by rw [hdb.headers, Table.lookup_put_self], hbody⟩
  · obtain ⟨-, rfl⟩ := hrow hr
    cases hl
  · refine ⟨hw.recent recentCoherent_empty, fun index offset g _ h => ?_, fun index _ => ?_⟩
    · rw [hw.segments] at h
      cases h
    · rw [hw.chunk]
      rfl
  · obtain ⟨-, rfl⟩ := hrow hr
    exact ⟨.genesis, _, hg, checkedBlock_genesis params, hbody⟩
  · rw [hdb.sealedChunks, Nat.zero_mul]
    exact Nat.zero_le _
  · rw [hw.segments]
    rfl

theorem Node.SoundNode.fresh (hg : genesisBlock params ∈ B) :
    SoundNode params B (Node.fresh params) := by
  obtain ⟨hs, hf⟩ := sound_fresh hg
  have hstore : (Node.fresh params).store = Store.fresh params := rfl
  unfold SoundNode
  rw [hstore]
  exact ⟨_, hs, hf⟩

end TalCash
