import TalCash.Node.Bodies
/-!
# A store that holds a ledger

`Good`: the tables match a valid ledger, and every block of its chain is
read back from where its row says. In such a store the node computes the
context the ledger has, connecting a block extends the ledger, and
disconnecting the tip takes its newest block off. `lim` is the number of
chunks that have files: the sealed ones, and one more during an import.
-/

namespace TalCash

open BlockFiles Ledger

variable [Primitives]

/-- The store holds the ledger, whose blocks are among `B`. -/
structure Good (params : NetworkParams) (B : Set Block) (lim : ℕ) (s : Store) (L : Ledger) :
    Prop where
  valid : Valid params L
  tables : Matches s.db L
  keyed : ∀ id r, s.db.headers.lookup id = some r → r.blockId = id
  chain : ∀ b ∈ L.chain, b ∈ B ∧
    ∃ r, s.db.headers.lookup b.blockId = some r ∧ Body s.files r b
  located : ∀ id r l, s.db.headers.lookup id = some r → r.location = some l → l.chunk < lim
  files : s.files.FilesOk lim

variable {params : NetworkParams} {B : Set Block} {lim : ℕ} {s s' : Store} {L L' : Ledger}
variable {b block : Block} {r : HeaderRow} {id : Digest}

/-! ## The active chain -/

namespace Matches

variable {db : Db}

theorem mainId_eq_some {height : ℕ} (h : Matches db L) :
    db.mainId height = some id ↔ ∃ b ∈ L.chain, b.height = height ∧ b.blockId = id := by
  change db.mainChain.lookup height = some id ↔ _
  rw [h.main height id, List.mem_map]
  simp only [Prod.mk.injEq]

theorem tipHeight (h : Matches db L) (hv : Valid params L) : db.tipHeight + 1 = L.chain.length := by
  have hpos := List.length_pos_iff.2 hv.chain_ne_nil
  have hmax : db.tipHeight = L.chain.length - 1 := by
    refine Table.maxKey_eq fun i => ?_
    rw [Option.isSome_iff_exists]
    constructor
    · rintro ⟨id, hid⟩
      obtain ⟨b, hb, rfl, -⟩ := h.mainId_eq_some.1 hid
      have := hv.linked.height_lt hb
      omega
    · intro hi
      obtain ⟨b, hb, hbh⟩ := hv.linked.getElem?_of_height (by omega : i < L.chain.length)
      exact ⟨b.blockId, h.mainId_eq_some.2 ⟨b, List.mem_of_getElem? hb, hbh, rfl⟩⟩
  omega

end Matches

namespace Good

theorem reading (h : Good params B lim s L) (hr : Store.Reading s s') :
    Good params B lim s' L := by
  refine ⟨h.valid, hr.db ▸ h.tables, hr.db ▸ h.keyed, fun b hb => ?_, hr.db ▸ h.located,
    h.files.reading hr.files⟩
  obtain ⟨hB, r, hl, hbody⟩ := h.chain b hb
  exact ⟨hB, r, by rw [hr.db]; exact hl, hbody.reading hr.files.disk⟩

theorem mainId_of_mem (h : Good params B lim s L) (hb : b ∈ L.chain) :
    s.db.mainId b.height = some b.blockId :=
  h.tables.mainId_eq_some.2 ⟨b, hb, rfl, rfl⟩

/-- The rows of the active chain are those of its blocks. -/
theorem isOnMainChain_iff (h : Good params B lim s L) :
    s.db.isOnMainChain id = true ↔ ∃ b ∈ L.chain, b.blockId = id := by
  unfold Db.isOnMainChain
  constructor
  · intro hon
    split at hon
    · cases hon
    · obtain ⟨b, hb, -, hid⟩ := h.tables.mainId_eq_some.1 (of_decide_eq_true hon)
      exact ⟨b, hb, hid⟩
  · rintro ⟨b, hb, rfl⟩
    obtain ⟨-, r, hr, hbody⟩ := h.chain b hb
    have hheight : r.height = b.height := by
      rw [HeaderRow.height, ← hbody.header]; rfl
    have hrow : s.db.header b.blockId = some r := hr
    simp only [hrow, hheight, h.mainId_of_mem hb, decide_true]

/-- The tip is the newest block of the chain. -/
theorem tip (h : Good params B lim s L) {rest : List Block} (hL : L.chain = b :: rest) :
    ∃ r, s.db.tip = .ok r ∧ r.header = b.header ∧ s.db.headers.lookup b.blockId = some r := by
  have hb : b ∈ L.chain := by rw [hL]; exact List.mem_cons_self
  have hlink := h.valid.linked
  rw [hL] at hlink
  have htip := h.tables.tipHeight h.valid
  rw [hL, List.length_cons, Nat.add_right_cancel_iff, ← hlink.head_height] at htip
  obtain ⟨-, r, hr, hbody⟩ := h.chain b hb
  refine ⟨r, ?_, hbody.header.symm, hr⟩
  unfold Db.tip
  rw [htip, h.mainId_of_mem hb, Option.bind_some, Db.header, hr]

/-! ## Reading the chain -/

theorem block_spec (h : Good params B lim s L) (hb : b ∈ L.chain) :
    Exec.wp (Store.block b.blockId) (fun x s' => x = some b ∧ Store.Reading s s')
      (fun _ _ => False) s := by
  obtain ⟨-, r, hr, hbody⟩ := h.chain b hb
  exact Store.block_spec h.files hr (h.keyed _ _ hr) (fun l hl => h.located _ _ l hr hl) hbody

/-- **The active chain is read back**: at every height, the block of the
ledger. -/
theorem mainBlock_spec (h : Good params B lim s L) (hb : b ∈ L.chain) :
    Exec.wp (Store.mainBlock b.height) (fun x s' => x = some b ∧ Store.Reading s s')
      (fun _ _ => False) s := by
  simp only [Store.mainBlock, Exec.wp_bind, Exec.wp_get, h.mainId_of_mem hb]
  exact h.block_spec hb

/-- The timestamps read from the rows are those of the chain. -/
theorem recentTimestamps_eq (h : Good params B lim s L) :
    ∀ (n : ℕ) {b : Block} {rest : List Block}, Valid.Linked params (b :: rest) →
      (∀ c ∈ b :: rest, c ∈ L.chain) →
      s.db.recentTimestamps n (s.db.header b.blockId) =
        ((b :: rest).take n).map fun c => c.header.timestamp
  | 0, _, _, _, _ => by simp only [Db.recentTimestamps, List.take_zero, List.map_nil]
  | n + 1, b, rest, hlink, hmem => by
    obtain ⟨-, r, hr, hbody⟩ := h.chain b (hmem b List.mem_cons_self)
    have hheight : r.height = b.height := by
      rw [HeaderRow.height, ← hbody.header]; rfl
    rw [Db.header, hr, Db.recentTimestamps, List.take_succ_cons, List.map_cons, hbody.header, hheight]
    congr 1
    cases hlink with
    | genesis =>
      rw [genesisBlock_height, if_neg (lt_irrefl 0), List.take_nil]
      cases n <;> rfl
    | @cons _ parent rest hl hh hp _ =>
      rw [if_pos (by omega), ← hbody.header, hp]
      exact h.recentTimestamps_eq n hl fun c hc => hmem c (List.mem_cons_of_mem _ hc)

theorem medianTimePast_eq (h : Good params B lim s L) {rest : List Block}
    (hL : L.chain = b :: rest) :
    s.db.medianTimePast params b.blockId =
      TalCash.medianTimePast ((L.chain.take params.medianTimeSpan).map fun c => c.header.timestamp) := by
  have hlink := h.valid.linked
  rw [hL] at hlink
  rw [Db.medianTimePast, h.recentTimestamps_eq _ hlink fun c hc => by rwa [hL], hL]

theorem maturedCoinbase_spec (h : Good params B lim s L) {m : Option Coinbase}
    (hm : L.matured params L.chain.length = .ok m) :
    Exec.wp (Store.maturedCoinbase params L.chain.length) (fun x s' => x = m ∧ Store.Reading s s')
      (fun _ _ => False) s := by
  unfold Store.maturedCoinbase
  unfold Ledger.matured at hm
  rw [Exec.wp_ite]
  refine ⟨fun hle => ?_, fun hlt => ?_⟩
  · rw [if_pos hle] at hm
    have hpos := params.coinbaseMaturity_pos
    split at hm
    · cases hm
    · rename_i b hb
      have hbh := h.valid.linked.height_eq hb
      have hheight : L.chain.length - params.coinbaseMaturity = b.height := by omega
      rw [hheight, Exec.wp_bind]
      refine (h.mainBlock_spec (List.mem_of_getElem? hb)).mono ?_ fun _ _ h => h
      rintro x s' ⟨rfl, hr⟩
      cases hc : b.coinbase with
      | error e => rw [hc] at hm; cases hm
      | ok c =>
        rw [hc] at hm
        simp only [Exec.wp_map, Exec.wp_lift, hc]
        exact ⟨fun c' hc' => ⟨by rw [← Except.ok.inj hc']; exact Except.ok.inj hm, hr⟩,
          fun e he => by cases he⟩
  · rw [if_neg hlt] at hm
    exact Exec.wp_pure.2 ⟨Except.ok.inj hm, Store.Reading.refl s⟩

theorem requiredRoot_eq (h : Good params B lim s L) (height : ℕ) :
    Store.requiredRoot params height s.db = L.requiredRoot params height := by
  have hlookup : ∀ snap, s.db.snapshotRoot snap = L.snapshots.lookup snap := by
    intro snap
    refine Option.ext fun root => ?_
    change s.db.snapshots.lookup snap = some root ↔ _
    rw [h.tables.snapshots snap root]
    constructor
    · intro hm
      have hsome : (L.snapshots.lookup snap).isSome := by
        rw [List.lookup_isSome_iff]
        exact ⟨_, hm, beq_self_eq_true _⟩
      obtain ⟨root', hr'⟩ := Option.isSome_iff_exists.1 hsome
      obtain ⟨l₁, l₂, hl, -⟩ := List.lookup_eq_some_iff.1 hr'
      have hm' : (snap, root') ∈ L.snapshots := by
        rw [hl]; exact List.mem_append_right _ List.mem_cons_self
      rw [hr', (Prod.mk.inj (List.inj_on_of_nodup_map h.valid.snapshots_nodup hm' hm rfl)).2]
    · intro hr
      obtain ⟨l₁, l₂, hl, -⟩ := List.lookup_eq_some_iff.1 hr
      rw [hl]
      exact List.mem_append_right _ List.mem_cons_self
  unfold Store.requiredRoot Ledger.requiredRoot
  cases snapshotHeight height params with
  | none => rfl
  | some snap => cases hl : L.snapshots.lookup snap <;> simp only [hlookup, hl]

/-- **The node's context is the ledger's.** -/
theorem context_spec (h : Good params B lim s L) {ctx : BlockContext} {rest : List Block}
    (hL : L.chain = b :: rest) (hctx : L.context params = .ok ctx) :
    Exec.wp (Store.context params b.header) (fun x s' => x = ctx ∧ Store.Reading s s')
      (fun _ _ => False) s := by
  obtain ⟨parent, hp⟩ := context_ok_iff.1 hctx
  have hparent : parent = b := by
    have hhead := hp.head
    rw [hL, List.head?_cons, Option.some.injEq] at hhead
    exact hhead.symm
  subst hparent
  have hlen : parent.header.height + 1 = L.chain.length := h.valid.parent_height hp
  have hmatured := hp.matured
  have hroot := hp.root
  have hheight : parent.height + 1 = L.chain.length := hlen
  rw [hheight] at hmatured hroot
  simp only [Store.context, Exec.wp_bind, hlen]
  refine (h.maturedCoinbase_spec hmatured).mono ?_ fun _ _ h => h
  rintro m s' ⟨rfl, hr⟩
  have h' := h.reading hr
  have hmedian := (h'.medianTimePast_eq hL).trans hp.median
  simp only [Exec.wp_get, Exec.wp_lift, Exec.wp_pure, h'.requiredRoot_eq, hroot]
  refine ⟨fun root' hr' => ⟨fun t ht => ⟨?_, hr⟩, fun e he => ?_⟩, fun e he => by cases he⟩
  · have hid : parent.header.blockId = parent.blockId := rfl
    rw [hid, hmedian] at ht
    obtain ⟨cp, cm, ct, cc, cr⟩ := ctx
    have hpe := hp.parent_eq
    have hte := hp.target
    dsimp only at hpe hte hr' ht ⊢
    rw [← Except.ok.inj ht, ← Except.ok.inj hr', hpe, hte]
    rfl
  · have hid : parent.header.blockId = parent.blockId := rfl
    rw [hid, hmedian] at he
    cases he

end Good

/-! ## What connecting and disconnecting keep -/

/-- The same rows, the same sealed chunks, and the files only read; of
the rows, those of `ids` may have become valid. -/
structure Store.Kept (ids : List Digest) (s s' : Store) : Prop where
  rows : SameRows s.db s'.db
  statuses : ∀ id r r', s.db.headers.lookup id = some r → s'.db.headers.lookup id = some r' →
    r'.status = r.status ∨ id ∈ ids ∧ r'.status = .valid
  sealedChunks : s'.db.sealedChunks = s.db.sealedChunks
  files : BlockFiles.Reading s.files s'.files

namespace Store.Kept

variable {ids ids' : List Digest}

theorem of_headers_eq (hh : s'.db.headers = s.db.headers)
    (hs : s'.db.sealedChunks = s.db.sealedChunks) (hf : BlockFiles.Reading s.files s'.files) :
    Kept ids s s' := by
  refine ⟨.of_headers_eq hh, fun id r r' hr hr' => Or.inl ?_, hs, hf⟩
  rw [hh, hr, Option.some.injEq] at hr'
  rw [hr']

theorem refl (s : Store) : Kept ids s s := of_headers_eq rfl rfl (.refl _)

theorem of_reading (h : s.Reading s') : Kept ids s s' :=
  of_headers_eq (by rw [h.db]) (by rw [h.db]) h.files

theorem trans {s'' : Store} (h : Kept ids s s') (h' : Kept ids' s' s'') :
    Kept (ids ++ ids') s s'' := by
  refine ⟨h.rows.trans h'.rows, fun id r r'' hr hr'' => ?_, h'.sealedChunks.trans h.sealedChunks,
    h.files.trans h'.files⟩
  obtain ⟨r', hr', -⟩ := h'.rows.lookup hr''
  rcases h'.statuses id r' r'' hr' hr'' with he | ⟨hm, he⟩
  · rcases h.statuses id r r' hr hr' with he' | ⟨hm, he'⟩
    · exact Or.inl (he.trans he')
    · exact Or.inr ⟨List.mem_append_left _ hm, he.trans he'⟩
  · exact Or.inr ⟨List.mem_append_right _ hm, he⟩

/-- A row kept has its body where it was. -/
theorem body (h : Kept ids s s') (hr : s.db.headers.lookup id = some r) (hb : Body s.files r b) :
    ∃ r', s'.db.headers.lookup id = some r' ∧ Body s'.files r' b := by
  obtain ⟨r', hr', hh, -, hl⟩ := h.rows.symm.lookup hr
  exact ⟨r', hr', (hb.samePlace ⟨hh.symm, hl.symm⟩).reading h.files.disk⟩

end Store.Kept

namespace Good

/-- What is kept of a store holds any ledger the tables match whose
blocks the store has. -/
theorem kept {ids : List Digest} (h : Good params B lim s L) (hk : Store.Kept ids s s') (hv : Valid params L')
    (ht : Matches s'.db L')
    (hc : ∀ b ∈ L'.chain, b ∈ B ∧ ∃ r, s.db.headers.lookup b.blockId = some r ∧ Body s.files r b) :
    Good params B lim s' L' := by
  refine ⟨hv, ht, fun id r hr => ?_, fun b hb => ?_, fun id r l hr hl => ?_,
    h.files.reading hk.files⟩
  · obtain ⟨r', hr', hh, -, -⟩ := hk.rows.lookup hr
    rw [← h.keyed id r' hr', HeaderRow.blockId, hh]
    rfl
  · obtain ⟨hB, r, hr, hbody⟩ := hc b hb
    exact ⟨hB, hk.body hr hbody⟩
  · obtain ⟨r', hr', -, -, hl'⟩ := hk.rows.lookup hr
    exact h.located id r' l hr' (hl' ▸ hl)

/-- Why a block was not connected: it is not the next one, there is no
room for it, or the ledger refuses it. -/
def Refused (params : NetworkParams) (L : Ledger) (block : Block) (e : PyError) : Prop :=
  (∃ parent, L.chain.head? = some parent ∧ block.header.prevId = parent.blockId) →
    (block.height = L.chain.length → Fits params L block) →
      e.IsInvalid ∧ ∀ L', L.extend params block ≠ .ok L'

/-- **Connecting a stored block extends the ledger**, or changes nothing. -/
theorem connect_spec (h : Good params B lim s L) (hB : block ∈ B)
    (hr : s.db.headers.lookup block.blockId = some r) (hbody : Body s.files r block) :
    Exec.wp (Store.connect params block)
      (fun _ s' => ∃ L', L.extend params block = .ok L' ∧ Good params B lim s' L' ∧
        Store.Kept [block.blockId] s s')
      (fun e s' => s.Reading s' ∧ Refused params L block e) s := by
  obtain ⟨parent, rest, hL⟩ := List.exists_cons_of_ne_nil h.valid.chain_ne_nil
  obtain ⟨tip, htip, hhead, -⟩ := h.tip hL
  obtain ⟨ctx, hctx⟩ := h.valid.context_isOk
  have htipId : tip.blockId = parent.blockId := by rw [HeaderRow.blockId, hhead]; rfl
  simp only [Store.connect, Exec.wp_bind, Exec.wp_get, htip, Exec.wp_lift, Exec.wp_require]
  refine ⟨fun t ht => ⟨fun hprev => ?_, fun hprev => ⟨.refl s, fun hp => ?_⟩⟩,
    fun e he => by cases he⟩
  · rw [← Except.ok.inj ht, hhead]
    refine (h.context_spec hL hctx).mono ?_ fun _ _ h => h.elim
    rintro c s₁ ⟨rfl, hread⟩
    have h₁ := h.reading hread
    simp only [Store.writeDb, Exec.wp_bind, Exec.wp_get, Exec.wp_lift, Exec.wp_set]
    refine ⟨fun db' hdb => ?_, fun e he => ⟨hread, fun _ hf => ?_⟩⟩
    · obtain ⟨L', he, hM, htouched⟩ := h₁.tables.connectBlock h₁.valid hctx hdb
      have hkept₁ : Store.Kept [block.blockId] s₁ { s₁ with db := db' } := by
        refine ⟨.update_status htouched.headers, fun id r r' hr hr' => ?_, htouched.sealedChunks,
          .refl _⟩
        change db'.headers.lookup id = some r' at hr'
        rw [htouched.headers, Table.lookup_update] at hr'
        split at hr'
        · rename_i hid
          obtain ⟨_, -, rfl⟩ := Option.map_eq_some_iff.1 hr'
          exact Or.inr ⟨List.mem_singleton.2 hid, rfl⟩
        · rw [hr, Option.some.injEq] at hr'
          exact Or.inl (by rw [hr'])
      have hkept : Store.Kept [block.blockId] s { s₁ with db := db' } :=
        (show Store.Kept [] s s₁ from .of_reading hread).trans hkept₁
      refine ⟨L', he, h.kept hkept (h.valid.extend he) hM fun b hb => ?_, hkept⟩
      obtain ⟨_, _, hx⟩ := extend_ok_iff.1 he
      rw [hx.chain, List.mem_cons] at hb
      rcases hb with rfl | hb
      · exact ⟨hB, r, hr, hbody⟩
      · exact h.chain b hb
    · exact h₁.tables.connectBlock_error h₁.valid hctx hf he
  · obtain ⟨p, hp, hid⟩ := hp
    rw [hL, List.head?_cons, Option.some.injEq] at hp
    refine absurd ?_ hprev
    rw [← Except.ok.inj ht, htipId, hid, ← hp]

/-- **Disconnecting the tip takes the newest block off the ledger.** -/
theorem disconnectTip_spec {L₀ : Ledger} (h : Good params B lim s L) (hv : Valid params L₀)
    (he : L₀.extend params block = .ok L) :
    Exec.wp Store.disconnectTip
      (fun x s' => x = block ∧ Good params B lim s' L₀ ∧ Store.Kept [] s s') (fun _ _ => False)
      s := by
  obtain ⟨_, _, hx⟩ := extend_ok_iff.1 he
  have hmem : block ∈ L.chain := by rw [hx.chain]; exact List.mem_cons_self
  have hlink := h.valid.linked
  have htip := h.tables.tipHeight h.valid
  rw [hx.chain] at hlink htip
  have hheight : s.db.tipHeight = block.height := by
    rw [hlink.head_height]
    rw [List.length_cons] at htip
    omega
  simp only [Store.disconnectTip, Exec.wp_bind, Exec.wp_get, hheight]
  refine (h.mainBlock_spec hmem).mono ?_ fun _ _ h => h
  rintro x s₁ ⟨rfl, hread⟩
  have h₁ := h.reading hread
  obtain ⟨db', hdb, hM, hheaders, hsealed⟩ := h₁.tables.disconnectBlock hv he
  simp only [Store.writeDb, Exec.wp_bind, Exec.wp_get, Exec.wp_lift, Exec.wp_set, Exec.wp_pure]
  refine ⟨fun db₁ hdb₁ => ?_, fun e hdb₁ => ?_⟩
  · rw [hdb] at hdb₁
    rw [← Except.ok.inj hdb₁]
    have hkept : Store.Kept [] s { s₁ with db := db' } :=
      .of_headers_eq (by rw [← hread.db]; exact hheaders) (by rw [← hread.db]; exact hsealed)
        hread.files
    exact ⟨trivial, h.kept hkept hv hM fun b hb =>
      h.chain b (by rw [hx.chain]; exact List.mem_cons_of_mem _ hb), hkept⟩
  · rw [hdb] at hdb₁
    cases hdb₁

end Good

end TalCash
