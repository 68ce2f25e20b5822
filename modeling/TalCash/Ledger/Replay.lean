import TalCash.Core.Genesis
/-!
# The ledger of a chain

What a chain of blocks means: the accounts, the undo data and the
snapshots that follow from applying its blocks in order, each in the
context its predecessors give it. A ledger is `Valid` where every block
was accepted; `replay` computes it from the blocks above genesis. The
node's tables are compared with it later.
-/

namespace TalCash

variable [Library]

/-- A chain, newest block first, and what it leads to: the accounts, the
previous values of each block above genesis, and the snapshot roots. -/
structure Ledger where
  chain : List Block
  accounts : Table Address Account := ∅
  undo : List (Digest × List (Address × Account)) := []
  snapshots : List (ℕ × Digest) := []

namespace Ledger

variable (params : NetworkParams)

/-- The ledger of the genesis block: nobody owns anything. -/
def start : Ledger where
  chain := [genesisBlock params]

/-- The coinbase that matures on top of the chain. -/
def matured (L : Ledger) (height : ℕ) : Except PyError (Option Coinbase) :=
  if params.coinbaseMaturity ≤ height then
    match L.chain[params.coinbaseMaturity - 1]? with
    | none => .error .attribute
    | some b => some <$> b.coinbase
  else .ok none

/-- The snapshot root the next header must carry. -/
def requiredRoot (L : Ledger) (height : ℕ) : Except PyError Digest :=
  match snapshotHeight height params with
  | none => .ok NO_SNAPSHOT
  | some snap =>
    match L.snapshots.lookup snap with
    | none => .error (.runtime s!"snapshot {snap} missing from the active chain")
    | some root => .ok root

/-- The context of a block on top of the chain. -/
def context (L : Ledger) : Except PyError BlockContext :=
  match L.chain with
  | [] => .error .assertion
  | parent :: _ => do
    let matured ← L.matured params (parent.height + 1)
    let root ← L.requiredRoot params (parent.height + 1)
    let median ← medianTimePast
      ((L.chain.take params.medianTimeSpan).map fun b => b.header.timestamp)
    pure ⟨parent.header, median, nextTarget params (genesisBlock params).header parent.header,
      matured, root⟩

/-- The snapshots after a block that leaves these accounts. -/
def snapshotsAfter (height : ℕ) (accounts : Table Address Account) (snapshots : List (ℕ × Digest)) :
    Except PyError (List (ℕ × Digest)) :=
  if isSnapshotPoint height params then do
    let root ← stateRoot accounts.rows
    pure ((height, root) :: snapshots)
  else .ok snapshots

/-- The ledger after one more block, if the block is accepted. -/
def extend (block : Block) (L : Ledger) : Except PyError Ledger := do
  let ctx ← L.context params
  let changes ← applyBlock block ctx (getAccount L.accounts) params false
  let accounts := writeRows changes.accounts.rows.reverse L.accounts
  let snapshots ← snapshotsAfter params block.height accounts L.snapshots
  pure ⟨block :: L.chain, accounts, (block.blockId, changes.previous.rows.reverse) :: L.undo,
    snapshots⟩

/-- The ledger after more blocks, oldest first. -/
def extendAll (blocks : List Block) (L : Ledger) : Except PyError Ledger :=
  blocks.foldlM (fun L b => L.extend params b) L

/-- The ledger of the blocks above genesis, oldest first. -/
def replay (blocks : List Block) : Except PyError Ledger := extendAll params blocks (start params)

/-- The ledgers of the chains that were accepted block by block. -/
inductive Valid : Ledger → Prop
  | start : Valid (start params)
  | extend {L L' : Ledger} {block : Block} (valid : Valid L)
      (extended : L.extend params block = .ok L') : Valid L'

variable {params} {L L' : Ledger} {block : Block}

/-! ## One more block -/

/-- What an accepted block did. -/
structure Extended (params : NetworkParams) (L : Ledger) (block : Block) (L' : Ledger)
    (ctx : BlockContext) (changes : StateChanges) : Prop where
  context : L.context params = .ok ctx
  applied : AppliedBlock params block ctx (getAccount L.accounts) changes
  chain : L'.chain = block :: L.chain
  accounts : L'.accounts = writeRows changes.accounts.rows.reverse L.accounts
  undo : L'.undo = (block.blockId, changes.previous.rows.reverse) :: L.undo
  snapshots : snapshotsAfter params block.height L'.accounts L.snapshots = .ok L'.snapshots

theorem extend_ok_iff :
    L.extend params block = .ok L' ↔ ∃ ctx changes, Extended params L block L' ctx changes := by
  simp only [extend, bind_eq_ok, applyBlock_ok_iff]
  constructor
  · rintro ⟨ctx, hctx, changes, happ, snaps, hs, h⟩
    cases h
    exact ⟨ctx, changes, hctx, happ, rfl, rfl, rfl, hs⟩
  · rintro ⟨ctx, changes, hctx, happ, hc, ha, hu, hs⟩
    refine ⟨ctx, hctx, changes, happ, L'.snapshots, ha ▸ hs, ?_⟩
    rw [← hc, ← ha, ← hu]
    rfl

/-- What a context is made of. -/
structure IsContext (params : NetworkParams) (L : Ledger) (ctx : BlockContext) (parent : Block) :
    Prop where
  head : L.chain.head? = some parent
  parent_eq : ctx.parent = parent.header
  matured : L.matured params (parent.height + 1) = .ok ctx.maturedCoinbase
  root : L.requiredRoot params (parent.height + 1) = .ok ctx.snapshotRoot
  median : medianTimePast ((L.chain.take params.medianTimeSpan).map fun b => b.header.timestamp) =
    .ok ctx.medianTimePast
  target : ctx.expectedTarget = nextTarget params (genesisBlock params).header parent.header

theorem context_ok_iff {ctx : BlockContext} :
    L.context params = .ok ctx ↔ ∃ parent, IsContext params L ctx parent := by
  unfold context
  constructor
  · intro h
    split at h
    · cases h
    · rename_i parent rest hc
      simp only [bind_eq_ok] at h
      obtain ⟨m, hm, r, hr, t, ht, h⟩ := h
      cases h
      exact ⟨parent, by rw [hc]; rfl, rfl, hm, hr, ht, rfl⟩
  · rintro ⟨parent, hh, hp, hm, hr, ht, hg⟩
    obtain ⟨cp, cm, ct, cc, cr⟩ := ctx
    dsimp only at hp hm hr ht hg
    cases hL : L.chain with
    | nil => rw [hL] at hh; cases hh
    | cons b rest =>
      rw [hL, List.head?_cons, Option.some.injEq] at hh
      subst hh hp hg
      rw [hL] at ht
      simp only [hm, hr, ht]
      rfl

/-! ## The shape of a valid chain -/

namespace Valid

theorem chain_ne_nil (h : Valid params L) : L.chain ≠ [] := by
  cases h with
  | start => exact List.cons_ne_nil _ _
  | extend _ he =>
    obtain ⟨_, _, hx⟩ := extend_ok_iff.1 he
    rw [hx.chain]
    exact List.cons_ne_nil _ _

/-- The chain above any of its blocks: each block follows the next one of
the list, and genesis is the last. -/
inductive Linked (params : NetworkParams) : List Block → Prop
  | genesis : Linked params [genesisBlock params]
  | cons {block parent : Block} {rest : List Block} (linked : Linked params (parent :: rest))
      (height : block.height = parent.height + 1) (prevId : block.header.prevId = parent.blockId)
      (checked : CheckedBlock params block) : Linked params (block :: parent :: rest)

theorem linked (h : Valid params L) : Linked params L.chain := by
  induction h with
  | start => exact .genesis
  | @extend L L' block _ he ih =>
    obtain ⟨ctx, changes, hx⟩ := extend_ok_iff.1 he
    obtain ⟨parent, hp⟩ := context_ok_iff.1 hx.context
    rw [hx.chain]
    cases hL : L.chain with
    | nil => rw [hL] at ih; cases ih
    | cons b rest =>
      have hb : b = parent := by simpa [hL] using hp.head
      subst hb
      rw [hL] at ih
      have hh := hx.applied.header
      exact .cons ih (by rw [Block.height, hh.height, hp.parent_eq]; rfl)
        (by rw [hh.prevId, hp.parent_eq]; rfl) hx.applied.checked

end Valid

namespace Valid.Linked

variable {chain rest : List Block} {b : Block}

/-- The blocks of a chain have the heights below its length, in order. -/
theorem height_eq (h : Linked params chain) {i : ℕ} (hi : chain[i]? = some b) :
    b.height + i + 1 = chain.length := by
  induction h generalizing i b with
  | genesis =>
    cases i with
    | zero => rw [← Option.some.inj hi, genesisBlock_height]; rfl
    | succ i => cases hi
  | @cons block parent rest _ hh _ _ ih =>
    have hp := ih (i := 0) List.getElem?_cons_zero
    cases i with
    | zero => rw [← Option.some.inj hi, hh, List.length_cons]; omega
    | succ i =>
      have := ih (i := i) hi
      rw [List.length_cons]
      omega

theorem head_height (h : Linked params (b :: rest)) : b.height = rest.length := by
  have := h.height_eq (i := 0) rfl
  rw [List.length_cons] at this
  omega

theorem height_lt (h : Linked params chain) (hb : b ∈ chain) : b.height < chain.length := by
  obtain ⟨i, hi, rfl⟩ := List.mem_iff_getElem.1 hb
  have := h.height_eq (List.getElem?_eq_getElem hi)
  omega

/-- At every height below the length there is one block. -/
theorem getElem?_of_height (h : Linked params chain) {height : ℕ} (hh : height < chain.length) :
    ∃ b, chain[chain.length - 1 - height]? = some b ∧ b.height = height := by
  have hi : chain.length - 1 - height < chain.length := by omega
  have := h.height_eq (List.getElem?_eq_getElem hi)
  exact ⟨_, List.getElem?_eq_getElem hi, by omega⟩

theorem eq_of_height (h : Linked params chain) {c : Block} (hb : b ∈ chain) (hc : c ∈ chain)
    (he : b.height = c.height) : b = c := by
  obtain ⟨i, hi, rfl⟩ := List.mem_iff_getElem.1 hb
  obtain ⟨j, hj, rfl⟩ := List.mem_iff_getElem.1 hc
  have h1 := h.height_eq (List.getElem?_eq_getElem hi)
  have h2 := h.height_eq (List.getElem?_eq_getElem hj)
  have hij : i = j := by omega
  subst hij
  rfl

theorem checked (h : Linked params chain) (hb : b ∈ chain) : CheckedBlock params b := by
  induction h with
  | genesis => rw [List.mem_singleton.1 hb]; exact checkedBlock_genesis params
  | cons _ _ _ hc ih =>
    rcases List.mem_cons.1 hb with rfl | hb
    · exact hc
    · exact ih hb

theorem tail (h : Linked params (b :: rest)) (hr : rest ≠ []) : Linked params rest := by
  cases h with
  | genesis => exact absurd rfl hr
  | cons h _ _ _ => exact h

theorem heights_nodup (h : Linked params chain) : (chain.map Block.height).Nodup := by
  induction h with
  | genesis => exact List.nodup_singleton _
  | @cons block parent rest hl hh _ _ ih =>
    rw [List.map_cons, List.nodup_cons]
    refine ⟨fun hm => ?_, ih⟩
    obtain ⟨c, hc, he⟩ := List.mem_map.1 hm
    have h1 := hl.height_lt hc
    have h2 := hl.head_height
    rw [List.length_cons] at h1
    omega

theorem genesis_mem (h : Linked params chain) : genesisBlock params ∈ chain := by
  induction h with
  | genesis => exact List.mem_singleton_self _
  | cons _ _ _ _ ih => exact List.mem_cons_of_mem _ ih

end Valid.Linked

/-- The height of the next block. -/
theorem Valid.parent_height (h : Valid params L) {ctx : BlockContext} {parent : Block}
    (hp : IsContext params L ctx parent) : parent.height + 1 = L.chain.length := by
  have hhead := hp.head
  cases hL : L.chain with
  | nil => rw [hL] at hhead; cases hhead
  | cons b rest =>
    rw [hL, List.head?_cons, Option.some.injEq] at hhead
    have hlink := h.linked
    rw [hL] at hlink
    rw [← hhead, hlink.head_height, List.length_cons]

/-- The coinbase of a context is the one due at the height of the block,
so applying a block raises nothing but the breach of a rule. -/
theorem Valid.onlyInvalid_applyBlock (h : Valid params L) {ctx : BlockContext}
    (hctx : L.context params = .ok ctx) (state : StateView) (checkPow : Bool) :
    OnlyInvalid (applyBlock block ctx state params checkPow) := by
  obtain ⟨parent, hp⟩ := context_ok_iff.1 hctx
  have hlen := h.parent_height hp
  refine TalCash.onlyInvalid_applyBlock fun hheight => ?_
  have hblock : block.height = L.chain.length := by
    have : ctx.parent.height = parent.height := by rw [hp.parent_eq]; rfl
    change block.height = _ at hheight
    omega
  have hmatured := hp.matured
  rw [hlen, Ledger.matured] at hmatured
  unfold matureCoinbase
  rw [hblock]
  split at hmatured
  · rename_i hle
    have hpos := params.coinbaseMaturity_pos
    split at hmatured
    · cases hmatured
    · rename_i b hb
      obtain ⟨c, hc, hch, -⟩ := (h.linked.checked (List.mem_of_getElem? hb)).coinbase
      have hbh := h.linked.height_eq hb
      rw [hc] at hmatured
      rw [if_pos hle, ← Except.ok.inj hmatured]
      exact .ite (fun hne => absurd (by omega) hne) fun _ => Overlay.onlyInvalid_credit
  · rename_i hlt
    rw [if_neg hlt, ← Except.ok.inj hmatured]
    exact .ok _

/-! ## Replaying -/

theorem extendAll_cons {blocks : List Block} :
    L.extendAll params (block :: blocks) = .ok L' ↔
      ∃ L₁, L.extend params block = .ok L₁ ∧ L₁.extendAll params blocks = .ok L' := by
  rw [extendAll, List.foldlM_cons, bind_eq_ok]
  rfl

theorem extendAll_append {blocks more : List Block} :
    L.extendAll params (blocks ++ more) = .ok L' ↔
      ∃ L₁, L.extendAll params blocks = .ok L₁ ∧ L₁.extendAll params more = .ok L' := by
  rw [extendAll, List.foldlM_append, bind_eq_ok]
  rfl

theorem extendAll_singleton : L.extendAll params [block] = .ok L' ↔ L.extend params block = .ok L' := by
  rw [extendAll_cons]
  constructor
  · rintro ⟨L₁, h, h'⟩
    cases h'
    exact h
  · exact fun h => ⟨L', h, rfl⟩

/-- Blocks that a valid ledger takes leave a valid ledger, with them on top. -/
theorem Valid.extendAll {blocks : List Block} (hv : Valid params L)
    (h : L.extendAll params blocks = .ok L') :
    Valid params L' ∧ L'.chain = blocks.reverse ++ L.chain := by
  induction blocks generalizing L with
  | nil => cases h; exact ⟨hv, rfl⟩
  | cons b blocks ih =>
    obtain ⟨L₁, he, h⟩ := extendAll_cons.1 h
    obtain ⟨_, _, hx⟩ := extend_ok_iff.1 he
    obtain ⟨hv', hc⟩ := ih (hv.extend he) h
    refine ⟨hv', ?_⟩
    rw [hc, hx.chain, List.reverse_cons, List.append_assoc]
    rfl

/-- **Replaying gives the valid ledgers.** -/
theorem valid_of_replay {blocks : List Block} (h : replay params blocks = .ok L) :
    Valid params L ∧ L.chain = blocks.reverse ++ [genesisBlock params] :=
  Valid.start.extendAll h

theorem Valid.replay (h : Valid params L) :
    Ledger.replay params L.chain.reverse.tail = .ok L := by
  have hstrong : ∃ blocks, L.chain = blocks.reverse ++ [genesisBlock params] ∧
      Ledger.replay params blocks = .ok L := by
    induction h with
    | start => exact ⟨[], rfl, rfl⟩
    | @extend L L' block _ he ih =>
      obtain ⟨blocks, hc, hr⟩ := ih
      obtain ⟨ctx, changes, hx⟩ := extend_ok_iff.1 he
      refine ⟨blocks ++ [block], by rw [hx.chain, hc, List.reverse_append]; rfl, ?_⟩
      exact extendAll_append.2 ⟨L, hr, extendAll_singleton.2 he⟩
  obtain ⟨blocks, hc, hr⟩ := hstrong
  rw [hc, List.reverse_append, List.reverse_reverse]
  exact hr

/-- Two valid ledgers of one chain are one ledger. -/
theorem Valid.eq_of_chain_eq (h : Valid params L) (h' : Valid params L')
    (hc : L.chain = L'.chain) : L = L' := by
  have h1 := h.replay
  rw [hc, h'.replay] at h1
  exact (Except.ok.inj h1).symm

/-! ## Undo data, accounts and snapshots -/

/-- There is undo data for every block above genesis. -/
theorem Valid.undo_ids (h : Valid params L) :
    L.undo.map Prod.fst = (L.chain.map Block.blockId).dropLast := by
  induction h with
  | start => rfl
  | extend hv he ih =>
    obtain ⟨_, _, hx⟩ := extend_ok_iff.1 he
    have hne : _ ≠ [] := hv.chain_ne_nil
    rw [hx.undo, hx.chain, List.map_cons, List.map_cons,
      List.dropLast_cons_of_ne_nil (by simpa using hne), ih]

theorem Valid.noEmpty (h : Valid params L) : NoEmpty L.accounts := by
  induction h with
  | start => intro a acc h; cases h
  | extend _ he ih =>
    obtain ⟨_, changes, hx⟩ := extend_ok_iff.1 he
    rw [hx.accounts]
    exact ih.writeRows _

omit [Library] in
theorem isSnapshotPoint_zero : isSnapshotPoint 0 params = false := by
  have := params.chunkSize_ge
  unfold isSnapshotPoint
  rw [Nat.zero_add, Nat.mod_eq_of_lt (by omega)]
  rfl

/-- Snapshots are kept at the snapshot points up to the tip, newest first. -/
theorem Valid.snapshots_heights (h : Valid params L) :
    L.snapshots.map Prod.fst =
      (L.chain.map Block.height).filter fun height => isSnapshotPoint height params := by
  induction h with
  | start =>
    have : (Ledger.start params).chain.map Block.height = [0] := by
      change [(genesisBlock params).height] = [0]
      rw [genesisBlock_height]
    rw [this, List.filter_cons, isSnapshotPoint_zero]
    rfl
  | @extend L L' block _ he ih =>
    obtain ⟨_, changes, hx⟩ := extend_ok_iff.1 he
    have hs := hx.snapshots
    unfold snapshotsAfter at hs
    rw [hx.chain, List.map_cons, List.filter_cons]
    split at hs
    · rename_i hp
      obtain ⟨root, -, hs⟩ := bind_eq_ok.1 hs
      rw [← Except.ok.inj hs, if_pos hp, List.map_cons, ih]
    · rename_i hp
      rw [← Except.ok.inj hs, if_neg hp, ih]

theorem Valid.snapshots_nodup (h : Valid params L) : (L.snapshots.map Prod.fst).Nodup := by
  rw [h.snapshots_heights]
  exact h.linked.heights_nodup.filter _

/-- The ledger with its newest block taken off. -/
theorem Valid.uncons {block parent : Block} {rest : List Block} (h : Valid params L)
    (hc : L.chain = block :: parent :: rest) :
    ∃ L₀, Valid params L₀ ∧ L₀.chain = parent :: rest ∧ L₀.extend params block = .ok L := by
  cases h with
  | start => cases hc
  | @extend L₀ _ b hv he =>
    obtain ⟨_, _, hx⟩ := extend_ok_iff.1 he
    rw [hx.chain] at hc
    obtain ⟨rfl, hrest⟩ := List.cons.inj hc
    exact ⟨L₀, hv, hrest, he⟩

/-- **The snapshot rows.** At every snapshot point up to the tip there is
the root of the ledger at that height, and there is no other row. -/
theorem Valid.mem_snapshots (h : Valid params L) {height : ℕ} {root : Digest} :
    (height, root) ∈ L.snapshots ↔ isSnapshotPoint height params = true ∧
      ∃ L₀ : Ledger, Valid params L₀ ∧ L₀.chain <:+ L.chain ∧ L₀.chain.length = height + 1 ∧
        stateRoot L₀.accounts.rows = .ok root := by
  induction h with
  | start =>
    constructor
    · intro h; cases h
    · rintro ⟨hp, L₀, hv, hs, hl, -⟩
      have hle := hs.length_le
      have hz : height = 0 := by
        have : (Ledger.start params).chain.length = 1 := rfl
        omega
      rw [hz, isSnapshotPoint_zero] at hp
      cases hp
  | @extend L L' block hv he ih =>
    obtain ⟨_, changes, hx⟩ := extend_ok_iff.1 he
    have hlink := (hv.extend he).linked
    rw [hx.chain] at hlink
    have hheight : block.height = L.chain.length := hlink.head_height
    have hs := hx.snapshots
    unfold snapshotsAfter at hs
    rw [hx.chain]
    constructor
    · intro hm
      have hcase : (isSnapshotPoint block.height params = true ∧ height = block.height ∧
          stateRoot L'.accounts.rows = .ok root) ∨ (height, root) ∈ L.snapshots := by
        split at hs
        · rename_i hp
          obtain ⟨r, hr, hs⟩ := bind_eq_ok.1 hs
          rw [← Except.ok.inj hs] at hm
          rcases List.mem_cons.1 hm with he' | hm
          · obtain ⟨rfl, rfl⟩ := Prod.mk.inj he'
            exact Or.inl ⟨hp, rfl, hr⟩
          · exact Or.inr hm
        · rw [← Except.ok.inj hs] at hm
          exact Or.inr hm
      rcases hcase with ⟨hp, rfl, hr⟩ | hm
      · exact ⟨hp, L', hv.extend he, by rw [hx.chain], by rw [hx.chain, List.length_cons, hheight],
          hr⟩
      · obtain ⟨hp, L₀, hv₀, hs₀, hl₀, hr₀⟩ := ih.1 hm
        exact ⟨hp, L₀, hv₀, hs₀.trans (List.suffix_cons _ _), hl₀, hr₀⟩
    · rintro ⟨hp, L₀, hv₀, hs₀, hl₀, hr₀⟩
      rcases List.suffix_cons_iff.1 hs₀ with hs₀ | hs₀
      · have hL : L₀ = L' := hv₀.eq_of_chain_eq (hv.extend he) (hs₀.trans hx.chain.symm)
        subst hL
        rw [hs₀, List.length_cons, ← hheight, Nat.add_right_cancel_iff] at hl₀
        subst hl₀
        rw [if_pos hp, hr₀] at hs
        rw [← Except.ok.inj hs]
        exact List.mem_cons_self
      · have hm := ih.2 ⟨hp, L₀, hv₀, hs₀, hl₀, hr₀⟩
        split at hs
        · obtain ⟨r, -, hs⟩ := bind_eq_ok.1 hs
          rw [← Except.ok.inj hs]
          exact List.mem_cons_of_mem _ hm
        · rw [← Except.ok.inj hs]
          exact hm

/-- On top of a valid chain there is always a context: the coinbase that
matures and the snapshot a header must carry exist. -/
theorem Valid.context_isOk (h : Valid params L) : ∃ ctx, L.context params = .ok ctx := by
  obtain ⟨parent, rest, hL⟩ := List.exists_cons_of_ne_nil h.chain_ne_nil
  have hlink := h.linked
  rw [hL] at hlink
  have hheight : parent.height + 1 = L.chain.length := by
    rw [hlink.head_height, hL, List.length_cons]
  obtain ⟨matured, hm⟩ : ∃ m, L.matured params (parent.height + 1) = .ok m := by
    unfold Ledger.matured
    split
    · rename_i hle
      have hpos := params.coinbaseMaturity_pos
      have hlt : params.coinbaseMaturity - 1 < L.chain.length := by omega
      obtain ⟨c, hc, -⟩ := (h.linked.checked (List.getElem_mem hlt)).coinbase
      rw [List.getElem?_eq_getElem hlt]
      exact ⟨some c, by dsimp only; rw [hc]; rfl⟩
    · exact ⟨none, rfl⟩
  obtain ⟨root, hr⟩ : ∃ r, L.requiredRoot params (parent.height + 1) = .ok r := by
    unfold Ledger.requiredRoot
    split
    · exact ⟨_, rfl⟩
    · rename_i snap hs
      obtain ⟨hlt, hp⟩ := snapshotHeight_spec hs
      obtain ⟨b, hb, hbh⟩ := h.linked.getElem?_of_height (by omega : snap < L.chain.length)
      have hmem : snap ∈ L.snapshots.map Prod.fst := by
        rw [h.snapshots_heights, List.mem_filter]
        exact ⟨List.mem_map.2 ⟨b, List.mem_of_getElem? hb, hbh⟩, hp⟩
      have hsome : (L.snapshots.lookup snap).isSome := by
        rw [List.lookup_isSome_iff]
        obtain ⟨r, hr, rfl⟩ := List.mem_map.1 hmem
        exact ⟨r, hr, beq_self_eq_true _⟩
      obtain ⟨root, hroot⟩ := Option.isSome_iff_exists.1 hsome
      exact ⟨root, by rw [hroot]⟩
  have hne : (L.chain.take params.medianTimeSpan).map (fun b => b.header.timestamp) ≠ [] := by
    have := params.medianTimeSpan_pos
    rw [hL]
    simp only [ne_eq, List.map_eq_nil_iff, List.take_eq_nil_iff]
    rintro (h | h)
    · omega
    · cases h
  obtain ⟨median, ht⟩ := medianTimePast_isOk hne
  exact ⟨⟨parent.header, median, nextTarget params (genesisBlock params).header parent.header,
    matured, root⟩, context_ok_iff.2 ⟨parent, by rw [hL]; rfl, rfl, hm, hr, ht, rfl⟩⟩

end Ledger

end TalCash
