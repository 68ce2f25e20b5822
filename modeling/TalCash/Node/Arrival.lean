import TalCash.Common.Interleaving
import TalCash.Node.MedianTime
import TalCash.Node.Statuses
import TalCash.Node.Waiting
/-!
# The order of arrival

Blocks reach a node in any order, some of them more than once. Where no
chain is longer than the finality depth, nothing is sealed and no row is
deleted (`Retained`), so that a block the ledger takes stays stored or
waits for its parent (`Gathered`). After the last block nothing waits that
could be stored, and the tip is the best of what is stored: the active
chain is the heaviest of all that can be built from the blocks
(`heaviest_arrived`). So nodes that received the same blocks have chains
of the same work, however their deliveries interleaved (`nodes_agree`).
-/

namespace TalCash

open BlockFiles Ledger Exec

section

variable [Primitives] {params : NetworkParams} {B D : Set Block} {s s' : Store}
variable {L L' L₁ L₂ : Ledger} {b c : Block} {r p : HeaderRow} {id : Digest}

/-! ## Nothing is sealed -/

/-- No chain that the ledger takes is longer than the finality depth. -/
def Shallow (params : NetworkParams) (B : Set Block) : Prop :=
  ∀ L, LedgerIn params B L → L.chain.length ≤ params.finalityDepth

omit [Primitives] in
/-- No row is gone and nothing was sealed. -/
structure Retained (s s' : Store) : Prop where
  sealedChunks : s'.db.sealedChunks = s.db.sealedChunks
  rows : ∀ id, (s.db.headers.lookup id).isSome → (s'.db.headers.lookup id).isSome

namespace Retained

omit [Primitives] in
theorem of_sameRows (hs : s'.db.sealedChunks = s.db.sealedChunks) (hr : SameRows s.db s'.db) :
    Retained s s' := by
  refine ⟨hs, fun id hid => ?_⟩
  have hmap := congrArg Option.isSome (hr id)
  simp only [Option.isSome_map] at hmap
  rw [hmap]
  exact hid

omit [Primitives] in
theorem of_db (h : s'.db = s.db) : Retained s s' :=
  of_sameRows (by rw [h]) (by rw [h]; exact .refl _)

omit [Primitives] in
theorem trans {s'' : Store} (h : Retained s s') (h' : Retained s' s'') : Retained s s'' :=
  ⟨h'.sealedChunks.trans h.sealedChunks, fun id hid => h'.rows id (h.rows id hid)⟩

theorem added {work : ℕ} (h : Added b work s s') : Retained s s' := by
  refine ⟨by rw [h.db], fun id hid => ?_⟩
  rw [h.lookup]
  split
  · rfl
  · exact hid

end Retained

/-- A chain that is not longer than the finality depth has nothing to
seal. -/
theorem Good.sealReadyChunks_eq {lim : ℕ} (h : Good params B lim s L)
    (hlen : L.chain.length ≤ params.finalityDepth) (steps : ℕ) :
    wp (Store.sealReadyChunks params steps) (fun _ s' => s' = s) (fun _ _ => False) s := by
  have htip := h.tables.tipHeight h.valid
  have hready : ¬ Store.sealReady params s.db = true := by
    rw [Store.sealReady, decide_eq_true_eq]
    omega
  cases steps with
  | zero =>
    simp only [Store.sealReadyChunks, wp_bind, wp_get, wp_ite, wp_throw, wp_pure]
    exact ⟨hready, fun _ => trivial⟩
  | succ steps =>
    simp only [Store.sealReadyChunks, wp_bind, wp_get]
    rw [wp_ite]
    exact ⟨fun h => absurd h hready, fun _ => wp_pure.2 rfl⟩

/-- **Following a branch seals nothing** and deletes no row. -/
theorem Sound.switchTo_retained (h : Sound params B s L) (hB : Shallow params B)
    (hr : s.db.headers.lookup id = some r) :
    wp (Store.switchTo params id) (fun _ s' => Retained s s') (fun _ s' => Retained s s') s := by
  have hr' : s.db.headers.lookup r.blockId = some r := by rw [h.good.keyed _ _ hr]; exact hr
  simp only [Store.switchTo, wp_bind, wp_get, Db.header, hr, wp_lift, Option.elim_some]
  refine ⟨?_, fun _ _ => .of_db rfl⟩
  rintro ⟨ids, fork⟩ hids
  obtain ⟨r₁, hr₁, hb⟩ := branch_of_branchFrom hids
  cases hr₁
  obtain ⟨L₀, bs, hon⟩ := h.onTop hr' hb
  obtain ⟨hids', hfork⟩ := hon.branch.unique hb
  have hlt := hon.branch_lt
  rw [← hids', List.reverse_reverse, wp_attempt]
  refine (h.good.switch_spec (show fork < _ by omega) hon.stored).mono ?_ ?_
  · rintro ⟨connected, disconnected⟩ s₁ ⟨-, L₁, L', -, -, -, -, hg, hk⟩
    have hin : LedgerIn params B L' := ⟨hg.valid, fun c hc => (hg.chain c hc).1⟩
    simp only [wp_bind, wp_get]
    refine (hg.sealReadyChunks_eq (hB L' hin) _).mono ?_ fun _ _ h => h.elim
    rintro _ s₂ rfl
    exact wp_pure.2 (.of_sameRows hk.sealedChunks hk.rows)
  · rintro e s₁ ⟨hread, -⟩
    have hkept : Retained s s₁ := .of_db hread.db
    cases e with
    | connectFailed bad error =>
      simp only [wp_bind, wp_get, Store.transaction, wp_atomically, Store.writeDb, wp_lift, wp_set,
        wp_pure]
      refine ⟨fun db₂ hdb₂ => ?_, fun _ _ => hkept⟩
      have hm := marked_of_markInvalid hdb₂
      exact hkept.trans (.of_sameRows (s := s₁) hm.sealedChunks hm.rows)
    | _ => exact wp_throw.2 hkept

namespace Node

variable {n n' : Node}

/-- **Accepting a child** stores it and deletes no row. -/
theorem acceptChild_retained (h : Sound params B n.store L) (hB : Shallow params B)
    (hc : Child params B n.store b p) :
    wp (acceptChild params b p)
      (fun _ n' => Retained n.store n'.store ∧ (n'.store.db.headers.lookup b.blockId).isSome)
      (fun _ n' => Retained n.store n'.store) n := by
  have hprev : b.header.prevId = p.blockId := (h.good.keyed _ _ hc.parent).symm
  have ha : Ancestry params B b.header (p.chainWork + blockWork b.header.target) :=
    .child (h.rows _ _ hc.parent).ancestry hc.mem hprev hc.height
  simp only [acceptChild, wp_bind, onStore, wp_zoom, wp_get, wp_lift]
  refine (addBlock_spec h.good.files.recent hc.new).mono ?_ ?_
  · intro _ s₁ hadd
    have hs₁ := hadd.sound h hc.new hc.mem hc.checked ha
    have hself : (s₁.db.headers.lookup b.blockId).isSome := by rw [hadd.lookup_self]; rfl
    have hadded : Retained n.store s₁ := .added hadd
    refine ⟨fun tip _ => ?_, fun _ _ => hadded⟩
    rw [wp_ite, wp_zoom]
    refine ⟨fun _ => ?_, fun _ => wp_pure.2 ⟨hadded, hself⟩⟩
    exact (hs₁.switchTo_retained hB hadd.lookup_self).mono
      (fun _ _ h => ⟨hadded.trans h, h.rows _ hself⟩) fun _ _ h => hadded.trans h
  · exact fun _ _ hdb => .of_db hdb.1

end Node

/-! ## The chain below a stored block -/

/-- Nothing is sealed, and above genesis the parent of every row is
stored. -/
structure Rooted (params : NetworkParams) (db : Db) : Prop where
  sealedChunks : db.sealedChunks = 0
  parent : ∀ id r, db.headers.lookup id = some r →
    r.header = (genesisBlock params).header ∨ (db.headers.lookup r.header.prevId).isSome

/-- The row of a block has its header. -/
theorem Sound.row_header (h : Sound params B s L) (hB : Regular params B) (hb : b ∈ B)
    (hr : s.db.headers.lookup b.blockId = some r) : r.header = b.header := by
  obtain ⟨-, c, hc, -, hbody⟩ := h.rows _ _ hr
  rw [← hbody.header]
  refine hB.header_eq hc hb ?_
  rw [← h.good.keyed _ _ hr, Block.blockId, hbody.header]
  rfl

namespace Rooted

theorem retained (h : Rooted params s.db) (hr : Retained s s')
    (hrows : RowsFrom {b.header} s.db s'.db)
    (hp : (s.db.headers.lookup b.header.prevId).isSome) : Rooted params s'.db := by
  refine ⟨hr.sealedChunks.trans h.sealedChunks, fun id r' hr' => ?_⟩
  rcases hrows id r' hr' with ⟨r, hlook, hheader⟩ | hb
  · rw [hheader]
    exact (h.parent id r hlook).imp_right (hr.rows _)
  · rw [Set.mem_singleton_iff.1 hb]
    exact Or.inr (hr.rows _ hp)

/-- The chain below a stored block is stored. -/
theorem stored (h : Rooted params s.db) (hs : Sound params B s L) (hB : Regular params B) :
    ∀ {rest : List Block} {b : Block}, Valid.Linked params (b :: rest) → (∀ c ∈ b :: rest, c ∈ B) →
      (s.db.headers.lookup b.blockId).isSome →
        ∀ c ∈ b :: rest, ∃ r, s.db.headers.lookup c.blockId = some r ∧ r.header = c.header
  | [], b, _, hmem, hb, c, hc => by
    obtain ⟨r, hr⟩ := Option.isSome_iff_exists.1 hb
    rw [List.mem_singleton.1 hc]
    exact ⟨r, hr, hs.row_header hB (hmem b List.mem_cons_self) hr⟩
  | parent :: rest, b, hl, hmem, hb, c, hc => by
    obtain ⟨r, hr⟩ := Option.isSome_iff_exists.1 hb
    have hheader := hs.row_header hB (hmem b List.mem_cons_self) hr
    cases hl with
    | cons hlinked hheight hprev hchecked =>
      rcases List.mem_cons.1 hc with rfl | hc
      · exact ⟨r, hr, hheader⟩
      refine stored h hs hB hlinked (fun c hc => hmem c (List.mem_cons_of_mem _ hc)) ?_ c hc
      rcases h.parent _ _ hr with hg | hp
      · have hz : b.height = 0 := by
          rw [Block.height, ← hheader, hg]
          exact genesisBlock_height params
        omega
      · rwa [hheader, hprev] at hp

/-- A stored chain is one the node reads timestamps from. -/
theorem storedChain : ∀ {rest : List Block} {b : Block}, Valid.Linked params (b :: rest) →
    (∀ c ∈ b :: rest, ∃ r, s.db.headers.lookup c.blockId = some r ∧ r.header = c.header) →
      StoredChain s.db ((b :: rest).map Block.header)
  | [], b, hl, hall => by
    obtain ⟨r, hr, hheader⟩ := hall b List.mem_cons_self
    cases hl
    exact .genesis hr hheader (genesisBlock_height params)
  | parent :: rest, b, hl, hall => by
    obtain ⟨r, hr, hheader⟩ := hall b List.mem_cons_self
    cases hl with
    | cons hlinked hheight hprev hchecked =>
      refine .child (storedChain hlinked fun c hc => hall c (List.mem_cons_of_mem _ hc)) hr hheader
        ?_ hprev
      rw [Block.height] at hheight
      omega

/-- No walk down from a row ends above genesis. -/
theorem not_dangling (h : Rooted params s.db)
    (hr : s.db.headers.lookup id = some r) : ¬ Dangling params s.db r := by
  intro hd
  induction hd generalizing id with
  | @here r off above gone =>
    rcases h.parent _ _ hr with hg | hp
    · have hz : r.height = 0 := by
        rw [HeaderRow.height, hg]
        exact genesisBlock_height params
      omega
    · rw [Db.header] at gone
      rw [gone] at hp
      cases hp
  | up _ _ parent _ ih => exact ih parent

/-- Where the chain below a row is stored, the finality check passes. -/
theorem checkFinality (h : Rooted params s.db) (hs : Sound params B s L)
    (hlen : L.chain.length ≤ params.finalityDepth) :
    ∀ {rest : List Block} {b : Block} {r : HeaderRow} {steps : ℕ},
      Valid.Linked params (b :: rest) →
      (∀ c ∈ b :: rest, ∃ r, s.db.headers.lookup c.blockId = some r ∧ r.header = c.header) →
      s.db.headers.lookup b.blockId = some r → b.height ≤ steps →
        s.db.checkFinality params steps (some r) = .ok ()
  | rest, b, r, steps, hl, hall, hr, hsteps => by
    have htip := hs.good.tables.tipHeight hs.good.valid
    have hfinal : s.db.finalizedHeight params = 0 := by
      rw [Db.finalizedHeight, h.sealedChunks]
      omega
    have hid : r.blockId = b.blockId := hs.good.keyed _ _ hr
    by_cases hon : s.db.isOnMainChain r.blockId = true
    · unfold Db.checkFinality
      dsimp only
      rw [if_pos hon, ite_invalid_eq_ok, hfinal]
      exact ⟨Nat.not_lt_zero _, rfl⟩
    · cases hl with
      | genesis =>
        refine absurd (hs.good.isOnMainChain_iff.2 ⟨_, ?_, hid.symm⟩) hon
        exact hs.good.valid.linked.genesis_mem
      | @cons _ parent rest hlinked hheight hprev hchecked =>
        obtain ⟨r₁, hr₁, hheader⟩ := hall b List.mem_cons_self
        rw [hr, Option.some.injEq] at hr₁
        obtain ⟨q, hq, -⟩ := hall parent (List.mem_cons_of_mem _ List.mem_cons_self)
        have hpos : s.db.finalizedHeight params < r.height := by
          rw [hfinal, HeaderRow.height, hr₁, hheader]
          rw [Block.height] at hheight
          omega
        obtain ⟨k, rfl⟩ : ∃ k, steps = k + 1 := ⟨steps - 1, by omega⟩
        rw [checkFinality_off (Bool.eq_false_iff.2 hon) hpos, hr₁, hheader, hprev, Db.header, hq]
        exact checkFinality h hs hlen hlinked (fun c hc => hall c (List.mem_cons_of_mem _ hc)) hq
          (by omega)

end Rooted

/-! ## Blocks that a chain can be built with -/

/-- A ledger of blocks of `B` that have their proof of work. -/
structure Rightful (params : NetworkParams) (B : Set Block) (L : Ledger) : Prop
    extends LedgerIn params B L where
  mined : ∀ c ∈ L.chain, c.header = (genesisBlock params).header ∨
    meetsTarget c.header params.pow = true

/-- A block at the end of such a ledger. -/
def Worthy (params : NetworkParams) (B : Set Block) (b : Block) : Prop :=
  ∃ L, Rightful params B L ∧ L.chain.head? = some b

/-- A block that such a ledger takes on top of a parent. -/
structure TakenOn (params : NetworkParams) (B : Set Block) (b parent : Block) (L L' : Ledger) :
    Prop where
  rightful : Rightful params B L
  head : L.chain.head? = some parent
  prevId : b.header.prevId = parent.blockId
  extended : L.extend params b = .ok L'
  pow : meetsTarget b.header params.pow = true

/-- What is assumed of the blocks: they are told apart by their ids, and no
chain of them is longer than the finality depth. -/
structure Lasting (params : NetworkParams) (B : Set Block) : Prop where
  regular : Regular params B
  injOn : Set.InjOn Block.blockId B
  shallow : Shallow params B

theorem Rightful.worthy (h : Rightful params B L) (hb : b ∈ L.chain) : Worthy params B b := by
  obtain ⟨L₁, rest, h₁, hc, hs⟩ := h.toLedgerIn.upTo hb
  exact ⟨L₁, ⟨h₁, fun c hc' => h.mined c (hs.subset hc')⟩, by rw [hc]; rfl⟩

theorem TakenOn.height (h : TakenOn params B b c L L') : b.height = c.height + 1 := by
  obtain ⟨ctx, changes, hx⟩ := extend_ok_iff.1 h.extended
  obtain ⟨parent, hctx⟩ := context_ok_iff.1 hx.context
  have hparent := hctx.head
  rw [h.head, Option.some.injEq] at hparent
  rw [Block.height, hx.applied.header.height, hctx.parent_eq, ← hparent]
  rfl

theorem TakenOn.checked (h : TakenOn params B b c L L') : CheckedBlock params b := by
  obtain ⟨ctx, changes, hx⟩ := extend_ok_iff.1 h.extended
  exact hx.applied.checked

theorem TakenOn.target_le (h : TakenOn params B b c L L') : b.header.target ≤ params.powLimit := by
  obtain ⟨ctx, changes, hx⟩ := extend_ok_iff.1 h.extended
  obtain ⟨parent, hctx⟩ := context_ok_iff.1 hx.context
  rw [hx.applied.header.target, hctx.target]
  exact nextTarget_le _ _ _

namespace Worthy

theorem mem (h : Worthy params B b) : b ∈ B := by
  obtain ⟨L, hL, hb⟩ := h
  exact hL.mem b (List.mem_of_mem_head? hb)

/-- Above genesis a worthy block was taken on top of another. -/
theorem takenOn (h : Worthy params B b) : b = genesisBlock params ∨
    ∃ parent L L', TakenOn params B b parent L L' := by
  obtain ⟨L, hL, hb⟩ := h
  obtain ⟨rest, hc⟩ : ∃ rest, L.chain = b :: rest := by
    cases hl : L.chain with
    | nil => exact absurd hl hL.valid.chain_ne_nil
    | cons c rest =>
      rw [hl, List.head?_cons, Option.some.injEq] at hb
      exact ⟨rest, by rw [hb]⟩
  have hlinked := hL.valid.linked
  rw [hc] at hlinked
  cases rest with
  | nil =>
    cases hlinked
    exact Or.inl rfl
  | cons parent rest =>
    obtain ⟨L₀, hv₀, hc₀, he⟩ := hL.valid.uncons hc
    have hsub : ∀ c ∈ L₀.chain, c ∈ L.chain := fun c hc' => by
      rw [hc]
      exact List.mem_cons_of_mem _ (hc₀ ▸ hc')
    cases hlinked with
    | cons _ hheight hprev _ =>
      refine Or.inr ⟨parent, L₀, L, ⟨⟨hv₀, fun c hc' => hL.mem c (hsub c hc')⟩,
        fun c hc' => hL.mined c (hsub c hc')⟩, by rw [hc₀]; rfl, hprev, he, ?_⟩
      refine (hL.mined b (by rw [hc]; exact List.mem_cons_self)).resolve_left fun hg => ?_
      have hz : b.height = 0 := by
        rw [Block.height, hg]
        exact genesisBlock_height params
      omega

/-- What a worthy block is built on is worthy. -/
theorem of_child (hB : Lasting params B) (h : Worthy params B b) (hc : c ∈ B)
    (hprev : b.header.prevId = c.blockId) : Worthy params B c := by
  rcases h.takenOn with rfl | ⟨parent, L, L', ht⟩
  · exact absurd hprev.symm (hB.regular.blockId_ne c hc)
  · have hp := ht.rightful.mem parent (List.mem_of_mem_head? ht.head)
    rw [← hB.injOn hp hc (ht.prevId.symm.trans hprev)]
    exact ⟨L, ht.rightful, ht.head⟩

end Worthy

theorem Refuted.not_worthy (hB : Regular params B) (hr : Refuted params B b.header) :
    ¬ Worthy params B b := by
  rintro ⟨L, hL, hb⟩
  exact hr.notMem hB hL.toLedgerIn b (List.mem_of_mem_head? hb) rfl

/-- A block whose branch was refused is refuted. -/
theorem Accepted.refuted {work : ℕ} {res : SubmitResult} (hB : Regular params B)
    (hs : Sound params B s L) (ha : Accepted params B b work s L res s')
    (ho : res.outcome = .invalid) : Refuted params B b.header := by
  cases ha with
  | side _ _ _ _ _ _ outcome => rw [outcome] at ho; cases ho
  | switched _ _ _ _ _ _ outcome => rw [outcome] at ho; cases ho
  | @failed s₁ _ _ _ L₀ bs added sound tip_eq lt onTop failed quiet outcome =>
    obtain ⟨id, hm, hreason⟩ := failed.marked
    obtain ⟨pre, c, post, L₁, rfl, rfl, he, hrefused⟩ := hreason hB
    obtain ⟨r, hr, href⟩ := onTop.refuted hs.ledgerIn.mem he sound.rows sound.good.keyed hrefused
      onTop.end_below
    have hself := added.lookup_self
    change s₁.db.headers.lookup b.blockId = some r at hr
    rw [hself, Option.some.injEq] at hr
    rw [← hr] at href
    exact href

namespace Node

variable {n n' : Node} {clock : ℕ → ℤ} {parent : Block}

/-- The checks of a child pass where the ledger of its parent takes it, if
it has its proof of work, is in time and its branch is not final. -/
theorem childChecks_of_extend (hext : L.extend params b = .ok L')
    (hhead : L.chain.head? = some parent) (hp : p.header = parent.header)
    (hpow : meetsTarget b.header params.pow = true)
    (htime : checkNotInFuture b.header (n.now clock) params = .ok ())
    (hfinal : n.store.db.checkFinality params p.height (some p) = .ok ())
    (hmedian : n.store.db.medianTimePast params p.blockId = TalCash.medianTimePast
      ((L.chain.take params.medianTimeSpan).map fun b => b.header.timestamp)) :
    childChecks params clock n b p = .ok () := by
  obtain ⟨ctx, changes, hx⟩ := extend_ok_iff.1 hext
  obtain ⟨parent', hctx⟩ := context_ok_iff.1 hx.context
  have hparent := hctx.head
  rw [hhead, Option.some.injEq] at hparent
  subst hparent
  have hheader := hx.applied.header
  refine checkChild_ok_iff.2 ⟨htime, hfinal, ⟨ctx.medianTimePast, hmedian.trans hctx.median,
    checkHeaderAgainstParent_ok_iff.2 ⟨?_, ?_, hheader.timestamp, ?_, fun _ => hpow⟩⟩,
    hx.applied.checked⟩
  · rw [hheader.height, hctx.parent_eq, hp]
  · rw [hheader.prevId, hctx.parent_eq, hp]
  · rw [hheader.target, hctx.target, hp]
    rfl

/-! ## What a node keeps of the blocks it received -/

/-- A node that has kept what it needs of the blocks of `D`: a worthy one
is stored, or waits for its parent. -/
structure Gathered (params : NetworkParams) (B D : Set Block) (n : Node) : Prop where
  settles : SettlesNode params B n
  rooted : Rooted params n.store.db
  mined : ∀ id r, n.store.db.headers.lookup id = some r →
    r.header = (genesisBlock params).header ∨ meetsTarget r.header params.pow = true
  unchecked : ∀ id, n.powChecked.lookup id = none
  orphans : OrphansIn B n
  kept : ∀ c ∈ D, Worthy params B c →
    (n.store.db.headers.lookup c.blockId).isSome ∨ n.orphans.lookup c.blockId = some c

namespace Gathered

theorem tick (h : Gathered params B D n) : Gathered params B D n.tick :=
  ⟨h.settles, h.rooted, h.mined, h.unchecked, h.orphans, h.kept⟩

/-- Only the orphans differ, and none that is worthy is gone. -/
theorem onlyOrphans {D' : Set Block} (h : Gathered params B D n) (ho : OnlyOrphans n n')
    (horphans : OrphansIn B n')
    (hkept : ∀ c ∈ D', Worthy params B c →
      (n.store.db.headers.lookup c.blockId).isSome ∨ n'.orphans.lookup c.blockId = some c) :
    Gathered params B D' n' := by
  have hstore := ho.store
  have hpow : n'.powChecked = n.powChecked := by
    unfold OnlyOrphans at ho
    rw [ho]
  exact ⟨h.settles.onlyOrphans ho, hstore ▸ h.rooted, hstore ▸ h.mined, hpow ▸ h.unchecked,
    horphans, hstore ▸ hkept⟩

theorem genesis (h : Gathered params B D n) :
    (n.store.db.headers.lookup (genesisBlock params).blockId).isSome := by
  obtain ⟨L, hs⟩ := h.settles
  obtain ⟨-, r, hr, -⟩ := hs.sound.good.chain _ hs.sound.good.valid.linked.genesis_mem
  rw [hr]
  rfl

/-- A worthy block that is not stored was taken on top of another. -/
theorem takenOn (h : Gathered params B D n) (hrow : n.store.db.header b.blockId = none)
    (hw : Worthy params B b) : ∃ parent L L', TakenOn params B b parent L L' := by
  refine hw.takenOn.resolve_left ?_
  rintro rfl
  have hg := h.genesis
  rw [Db.header] at hrow
  rw [hrow] at hg
  cases hg

/-- The checks let a worthy block pass whose parent is stored. -/
theorem childChecks (hB : Lasting params B) (h : Gathered params B D n)
    (ht : TakenOn params B b parent L L') (hp : n.store.db.header b.header.prevId = some p)
    (htime : checkNotInFuture b.header (n.now clock) params = .ok ()) :
    Node.childChecks params clock n b p = .ok () := by
  obtain ⟨M, hs⟩ := h.settles
  have hmem := ht.rightful.mem
  have hprow : n.store.db.headers.lookup parent.blockId = some p := ht.prevId ▸ hp
  have hheader := hs.sound.row_header hB.regular (hmem _ (List.mem_of_mem_head? ht.head)) hprow
  obtain ⟨rest, hc⟩ : ∃ rest, L.chain = parent :: rest := by
    cases hl : L.chain with
    | nil => exact absurd hl ht.rightful.valid.chain_ne_nil
    | cons c rest =>
      have hhead := ht.head
      rw [hl, List.head?_cons, Option.some.injEq] at hhead
      exact ⟨rest, by rw [hhead]⟩
  have hlinked := ht.rightful.valid.linked
  rw [hc] at hlinked hmem
  have hall := h.rooted.stored hs.sound hB.regular hlinked hmem (by rw [hprow]; rfl)
  refine childChecks_of_extend ht.extended ht.head hheader ht.pow htime ?_ ?_
  · refine h.rooted.checkFinality hs.sound (hB.shallow M hs.sound.ledgerIn) hlinked hall hprow ?_
    rw [HeaderRow.height, hheader]
    exact le_rfl
  · have hmedian := (Rooted.storedChain hlinked hall).medianTimePast_eq params (i := 0)
      (by simp only [List.map_cons, List.length_cons]; omega)
    simp only [List.map_cons, List.getElem_cons_zero, List.drop_zero] at hmedian
    rw [hs.sound.good.keyed _ _ hprow, hc]
    change n.store.db.medianTimePast params parent.blockId = _ at hmedian
    rw [hmedian, medianAt, ← List.map_cons, ← List.map_take, List.map_map]
    rfl

/-- **What is answered without being kept** is not worthy, or was kept
before. -/
theorem unstored (hB : Lasting params B) (hpool : Pool n) (h : Gathered params B D n) (hb : b ∈ B)
    (htime : checkNotInFuture b.header (n.now clock) params = .ok ()) {o : Outcome}
    (hu : Unstored params clock n b o) (hw : Worthy params B b) :
    o = .duplicate ∧
      ((n.store.db.headers.lookup b.blockId).isSome ∨ n.orphans.lookup b.blockId = some b) := by
  obtain ⟨L, hs⟩ := h.settles
  -- A row that is marked invalid is refuted.
  have hrefuted : ∀ {c : Block} {r : HeaderRow}, Worthy params B c →
      n.store.db.header c.blockId = some r → r.status ≠ .invalid := by
    intro c r hc hr hstatus
    have href := hs.truthful.invalid _ r hr hstatus
    rw [hs.sound.row_header hB.regular hc.mem hr] at href
    exact href.not_worthy hB.regular hc
  cases hu with
  | knownInvalid hr hstatus => exact absurd hstatus (hrefuted hw hr)
  | known hr _ =>
    rw [Db.header] at hr
    exact ⟨rfl, Or.inl (by rw [hr]; rfl)⟩
  | waiting _ ho =>
    obtain ⟨c, hc⟩ := Option.isSome_iff_exists.1 ho
    rw [hB.injOn (h.orphans _ _ hc) hb (hpool.keyed _ _ hc)] at hc
    exact ⟨rfl, Or.inr hc⟩
  | genesis hrow _ hheight =>
    obtain ⟨parent, L₀, L₁, ht⟩ := h.takenOn hrow hw
    have := ht.height
    omega
  | badPow hnew _ hpow =>
    obtain ⟨parent, L₀, L₁, ht⟩ := h.takenOn hnew.row hw
    rcases hpow with hpow | hpow
    · exact absurd ht.target_le (Nat.not_le_of_lt hpow)
    · rw [ht.pow] at hpow
      cases hpow
  | badOrphan hnew _ hchecks =>
    obtain ⟨parent, L₀, L₁, ht⟩ := h.takenOn hnew.row hw
    rw [checkOrphan_ok_iff.2 ⟨htime, ht.checked⟩] at hchecks
    cases hchecks
  | @invalidParent q hnew hq hstatus =>
    obtain ⟨parent, L₀, L₁, ht⟩ := h.takenOn hnew.row hw
    exact absurd hstatus (hrefuted ⟨L₀, ht.rightful, ht.head⟩ (ht.prevId ▸ hq))
  | badChild hnew hp _ hchecks =>
    obtain ⟨parent, L₀, L₁, ht⟩ := h.takenOn hnew.row hw
    rw [h.childChecks hB ht hp htime] at hchecks
    cases hchecks

end Gathered

/-- What submitting one block made of a node: it keeps the block too, no
row is gone, and what was refused is not worthy. -/
structure Received (params : NetworkParams) (B D : Set Block) (b : Block) (n : Node)
    (r : SubmitResult) (n' : Node) : Prop where
  gathered : Gathered params B (insert b D) n'
  rows : ∀ id, (n.store.db.headers.lookup id).isSome → (n'.store.db.headers.lookup id).isSome
  stored : Arrived r → (n'.store.db.headers.lookup b.blockId).isSome
  refused : r.outcome = .invalid → ¬ Worthy params B b

/-- Accepting a child keeps it. -/
theorem Gathered.acceptChild (hB : Lasting params B) (h : Gathered params B D n) (hnew : New n b)
    (hp : n.store.db.header b.header.prevId = some p) (hb : b ∈ B)
    (hchecks : Node.childChecks params clock n b p = .ok ()) :
    wp (acceptChild params b p) (fun r n' => Received params B D b n r n') (fun _ _ => True)
      n.tick := by
  obtain ⟨L, hs⟩ := h.settles
  have hchild := ChildChecked.child (n := n) hnew.row hp hb hchecks
  refine (((acceptChild_spec (n := n.tick) rfl hs.sound hs.fresh hchild).and
    (acceptChild_onlyStore p)).and ((acceptChild_rowsFrom b p n.tick).and
      (acceptChild_retained (n := n.tick) hs.sound hB.shallow hchild))).mono ?_
    fun _ _ _ => trivial
  rintro r n' ⟨⟨haccepted, hstore⟩, hrows, hretained, hstored⟩
  have horphans : n'.orphans = n.orphans := by rw [hstore]; rfl
  have hpow : n'.powChecked = n.powChecked := by rw [hstore]; rfl
  have hparent : (n.store.db.headers.lookup b.header.prevId).isSome := by
    rw [Db.header] at hp
    rw [hp]
    rfl
  obtain ⟨median, -, hheader⟩ := (checkChild_ok_iff.1 hchecks).header
  have hmeets : meetsTarget b.header params.pow = true :=
    (checkHeaderAgainstParent_ok_iff.1 hheader).2.2.2.2 (by rw [h.unchecked]; rfl)
  refine ⟨⟨(hs.accepted hB.regular haccepted).imp fun _ h => h.1,
    h.rooted.retained hretained hrows hparent, fun id r' hr' => ?_, hpow ▸ h.unchecked,
    fun id c hc => h.orphans id c (horphans ▸ hc), ?_⟩,
    hretained.rows, fun _ => hstored,
    fun ho => (haccepted.refuted hB.regular hs.sound ho).not_worthy hB.regular⟩
  · rcases hrows id r' hr' with ⟨r₀, hr₀, he⟩ | he
    · rw [he]
      exact h.mined id r₀ hr₀
    · rw [Set.mem_singleton_iff.1 he]
      exact Or.inr hmeets
  · rintro c (rfl | hc) hw
    · exact Or.inl hstored
    · rw [horphans]
      exact (h.kept c hc hw).imp_left (hretained.rows _)

/-- **One block**: the node keeps it, too. -/
theorem Gathered.submitOne (hB : Lasting params B) (hpool : Pool n) (h : Gathered params B D n)
    (hb : b ∈ B) (htime : checkNotInFuture b.header (n.now clock) params = .ok ())
    (hroom : n.store.db.header b.header.prevId = none → Room n b) :
    wp (submitOne params clock b) (fun r n' => Received params B D b n r n') (fun _ _ => False)
      n := by
  obtain ⟨L, hs⟩ := h.settles
  have hstranded : ¬Stranded params clock n b := by
    rintro ⟨_, _, p, hp, _, hd⟩
    exact h.rooted.not_dangling hp hd
  have hreturns := submitOne_returns hB.regular ⟨L, hs.sound, hs.fresh⟩ hpool hb hstranded
  suffices hmain : wp (Node.submitOne params clock b) (fun r n' => Received params B D b n r n')
      (fun _ _ => True) n from (hmain.and hreturns).mono (fun _ _ h => h.1) fun _ _ h => h.2
  refine submitOne_rule ?_ ?_ ?_ fun _ _ _ _ _ _ _ => trivial
  · intro r n' _ hn' hu
    have hkept := h.unstored hB hpool hb htime hu
    have hgathered : Gathered params B (insert b D) n :=
      h.onlyOrphans (.refl n) h.orphans fun c hc hw => by
        rcases hc with rfl | hc
        exacts [(hkept hw).2, h.kept c hc hw]
    have hout : ¬ Arrived r := by
      rintro (ha | ha) <;> rcases hu.outcome with ho | ho <;> rw [ha] at ho <;> cases ho
    have hrefused : r.outcome = .invalid → ¬ Worthy params B b := fun ho hw => by
      rw [(hkept hw).1] at ho
      cases ho
    rcases hn' with rfl | rfl
    · exact ⟨hgathered, fun _ h => h, fun ha => absurd ha hout, hrefused⟩
    · exact ⟨hgathered.tick, fun _ h => h, fun ha => absurd ha hout, hrefused⟩
  · intro hnew hparent _ _ hchecks
    refine (holdOrphan_spec (n := n.tick) (SamePool.pool (n := n) ⟨rfl, rfl⟩ hpool) hnew.orphan
      (CheckedBlock.size_le_orphans (checkOrphan_ok_iff.1 hchecks).2)).mono ?_ fun _ _ h => h.elim
    intro _ n' hheld
    have hstore : n'.store = n.store := hheld.rest.store
    refine ⟨h.tick.onlyOrphans hheld.rest (fun id c hc => ?_) fun c hc hw => ?_,
      hstore ▸ fun _ h => h, fun ha => ?_, fun ho => by cases ho⟩
    · by_cases hid : id = b.blockId
      · rw [hid, hheld.held, Option.some.injEq] at hc
        exact hc ▸ hb
      · exact h.orphans id c (hheld.sub id c hid hc)
    · by_cases hid : c.blockId = b.blockId
      · rw [hB.injOn hw.mem hb hid]
        exact Or.inr hheld.held
      · rw [hheld.room (hroom hparent) _ hid]
        rcases hc with rfl | hc
        · exact absurd rfl hid
        · exact h.kept c hc hw
    · rcases ha with ha | ha <;> cases ha
  · exact fun p hnew hp _ hchecks => h.acceptChild hB hnew hp hb hchecks

/-! ## Adopting orphans -/

/-- The block is not ahead of any time that the clock gives. -/
def InTime (params : NetworkParams) (clock : ℕ → ℤ) (b : Block) : Prop :=
  ∀ i, checkNotInFuture b.header (clock i) params = .ok ()

/-- What adopting orphans carries from one block to the next. -/
structure Gathering (params : NetworkParams) (clock : ℕ → ℤ) (B D : Set Block)
    (children : List Block) (arrived : List Digest) (n : Node) : Prop where
  gathered : Gathered params B D n
  adoption : Adoption params children arrived n
  inTime : OrphansIn {b | InTime params clock b} n
  parents : ∀ c ∈ children, (n.store.db.headers.lookup c.header.prevId).isSome
  arrived : ∀ w ∈ arrived, (n.store.db.headers.lookup w).isSome

variable {children : List Block} {waiting : List Digest}

/-- Orphans that are dropped wait for a block that is not worthy. -/
theorem Gathered.dropped (hB : Lasting params B) (hpool : Pool n) (h : Gathered params B D n)
    (hb : b ∈ B) (hw : ¬ Worthy params B b) (hd : Dropped [b.blockId] n n') :
    Gathered params B D n' := by
  refine h.onlyOrphans hd.rest (h.orphans.dropped hd) fun c hc hcw => ?_
  refine (h.kept c hc hcw).imp_right fun hc' => ?_
  refine hd.kept (fun id => ∃ x ∈ B, x.blockId = id ∧ ¬ Worthy params B x) ?_ ?_ _ _ hc' ?_
  · intro id hid
    exact ⟨b, hb, (List.mem_singleton.1 hid).symm, hw⟩
  · rintro id x hx ⟨y, hy, hprev, hyw⟩
    exact ⟨x, h.orphans id x hx, hpool.keyed id x hx, fun hxw =>
      hyw (hxw.of_child hB hy hprev.symm)⟩
  · rintro ⟨y, hy, hprev, hyw⟩
    exact hyw (hcw.of_child hB hy hprev.symm)

/-- A child that is taken out of the pool is the one that may be lost. -/
theorem Gathered.without (hB : Lasting params B) (h : Gathered params B D n) (hb : b ∈ B) :
    Gathered params B (D \ {b}) (n.without b) := by
  refine h.onlyOrphans (onlyOrphans_without n b) (h.orphans.without b) fun c hc hw => ?_
  refine (h.kept c hc.1 hw).imp_right fun hc' => ?_
  rw [lookup_without, if_neg fun hid => hc.2 (hB.injOn hw.mem hb hid)]
  exact hc'

/-- **One block while orphans are adopted.** -/
theorem Gathering.submitOne (results : SubmitResult → SubmitResult) {D' : Set Block}
    (hB : Lasting params B) (hpool : Pool n)
    (h : Gathering params clock B D children waiting n) (hb : b ∈ B)
    (htime : InTime params clock b) (hD : D' ⊆ insert b D)
    (hroom : n.store.db.header b.header.prevId = none → Room n b) :
    wp (submitOne params clock b)
      (fun r n' => After
        (fun children arrived _ n => Gathering params clock B D' children arrived n)
        b children waiting (results r) r.outcome n') (fun _ _ => False) n := by
  refine ((h.gathered.submitOne hB hpool hb (htime _) hroom).and
    ((h.adoption.submitOne results hpool).and
      ((h.inTime.submitOne hpool htime).and (submitOne_pool hpool)))).mono ?_ fun _ _ h => h.1
  rintro r n' ⟨hreceived, hadoption, htime', hp⟩
  have hpool' : Pool n' := by
    rcases hp with ⟨hs, -⟩ | ⟨-, hheld⟩
    exacts [hs.pool hpool, hheld.pool]
  have hgathered : Gathered params B D' n' :=
    ⟨hreceived.gathered.settles, hreceived.gathered.rooted, hreceived.gathered.mined,
      hreceived.gathered.unchecked, hreceived.gathered.orphans,
      fun c hc => hreceived.gathered.kept c (hD hc)⟩
  have hparents : ∀ c ∈ children, (n'.store.db.headers.lookup c.header.prevId).isSome :=
    fun c hc => hreceived.rows _ (h.parents c hc)
  have harrived : ∀ w ∈ waiting, (n'.store.db.headers.lookup w).isSome :=
    fun w hw => hreceived.rows _ (h.arrived w hw)
  have hstored := hreceived.stored
  have hrefused := hreceived.refused
  unfold After Arrived at *
  cases ho : r.outcome with
  | newTip =>
    rw [ho] at hadoption hstored
    exact ⟨hgathered, hadoption, htime', hparents,
      List.forall_mem_cons.2 ⟨hstored (Or.inl rfl), harrived⟩⟩
  | sideBranch =>
    rw [ho] at hadoption hstored
    exact ⟨hgathered, hadoption, htime', hparents,
      List.forall_mem_cons.2 ⟨hstored (Or.inr rfl), harrived⟩⟩
  | invalid =>
    rw [ho] at hadoption
    intro n'' hd
    have hstore : n''.store = n'.store := hd.rest.store
    exact ⟨hgathered.dropped hB hpool' hb (hrefused ho) hd, hadoption n'' hd, htime'.dropped hd,
      hstore ▸ hparents, hstore ▸ harrived⟩
  | duplicate =>
    rw [ho] at hadoption
    exact ⟨hgathered, hadoption, htime', hparents, harrived⟩
  | orphan =>
    rw [ho] at hadoption
    exact ⟨hgathered, hadoption, htime', hparents, harrived⟩

theorem adopts_gathering (hB : Lasting params B) : Adopts params clock (fun _ _ => True)
    (fun children arrived _ n => Gathering params clock B D children arrived n)
    fun _ _ => False where
  next {current waiting result n} hp h := by
    refine ⟨h.gathered, h.adoption.next hp, h.inTime, fun c hc => ?_,
      fun w hw => h.arrived w (List.mem_cons_of_mem _ hw)⟩
    rw [((mem_orphansOf hp).1 hc).2]
    exact h.arrived current List.mem_cons_self
  child {child rest waiting result n} hp hl _ h := by
    have hb : child ∈ B := h.gathered.orphans _ _ hl
    have hparent := h.parents child List.mem_cons_self
    have hrest : Gathering params clock B (D \ {child}) rest waiting (n.without child) :=
      ⟨h.gathered.without hB hb, h.adoption.child hp, h.inTime.without child,
        fun c hc => h.parents c (List.mem_cons_of_mem _ hc), h.arrived⟩
    refine hrest.submitOne _ hB (hp.without hl) hb (h.inTime _ _ hl) ?_ fun hnone => ?_
    · rw [Set.insert_sdiff_singleton]
      exact Set.subset_insert _ _
    · have hnone : n.store.db.headers.lookup child.header.prevId = none := hnone
      rw [hnone] at hparent
      cases hparent

/-- **A call** keeps the block that it submits. -/
theorem Gathering.submitBlock (hB : Lasting params B) (hpool : Pool n)
    (h : Gathering params clock B D [] [] n) (hb : b ∈ B) (htime : InTime params clock b)
    (hroom : n.store.db.header b.header.prevId = none → Room n b) :
    Gathering params clock B (insert b D) [] [] (step params clock n (.submit b)) ∧
      Pool (step params clock n (.submit b)) := by
  have hcall := (@adopts_gathering _ _ _ (insert b D) clock hB).submitBlock hpool
    (fun _ _ => trivial) fun _ => h.submitOne id hB hpool hb htime subset_rfl hroom
  exact Exec.wp_const_iff.1 (hcall.mono (fun _ _ h => h) fun _ _ h => h.1.elim)

/-! ## Runs -/

/-- Where the block has to wait for its parent, there is room for it. -/
def CanWait (n : Node) (b : Block) : Prop :=
  n.store.db.header b.header.prevId = none → Room n b

theorem gathering_fresh (hg : genesisBlock params ∈ B) :
    Gathering params clock B ∅ [] [] (fresh params) := by
  have hrow : ∀ {id r}, (fresh params).store.db.headers.lookup id = some r →
      r.header = (genesisBlock params).header := by
    intro id r hr
    change (Store.fresh params).db.headers.lookup id = some r at hr
    rw [(fresh_store params).1.headers, Table.lookup_put] at hr
    split at hr
    · rw [← Option.some.inj hr]
      rfl
    · cases hr
  refine ⟨⟨⟨_, settles_fresh hg⟩, ⟨(fresh_store params).1.sealedChunks, fun id r hr =>
      Or.inl (hrow hr)⟩, fun id r hr => Or.inl (hrow hr), fun _ => rfl, fun _ _ hc => ?_,
      fun _ hc => hc.elim⟩, ⟨fun _ _ hc => ?_, fun _ _ hc => ?_, tallied_fresh⟩, fun _ _ hc => ?_,
    List.forall_mem_nil _, List.forall_mem_nil _⟩
  all_goals cases hc

/-- A run keeps the blocks that it submits. -/
theorem Gathering.run (hB : Lasting params B) : ∀ {blocks : List Block} {n : Node} {D : Set Block},
    Gathering params clock B D [] [] n → Pool n → (∀ b ∈ blocks, b ∈ B) →
    (∀ b ∈ blocks, InTime params clock b) →
    Run.Along CanWait (fun n b => step params clock n (.submit b)) n blocks →
      Gathering params clock B (D ∪ {b | b ∈ blocks}) [] []
        (Run.run (fun n b => step params clock n (.submit b)) n blocks)
  | [], n, D, h, _, _, _, _ => by
    rw [show D ∪ {b | b ∈ ([] : List Block)} = D by simp]
    exact h
  | b :: blocks, n, D, h, hpool, hmem, htime, hroom => by
    obtain ⟨hb, hmem⟩ := List.forall_mem_cons.1 hmem
    obtain ⟨hbt, htime⟩ := List.forall_mem_cons.1 htime
    obtain ⟨hnext, hpool'⟩ := h.submitBlock hB hpool hb hbt hroom.1
    have hset : D ∪ {x | x ∈ b :: blocks} = insert b D ∪ {x | x ∈ blocks} := by
      ext x
      simp only [Set.mem_union, Set.mem_ofPred_eq, Set.mem_insert_iff, List.mem_cons]
      tauto
    rw [hset]
    exact Gathering.run hB hnext hpool' hmem htime hroom.2

/-- Every worthy block of those received is stored after a call. -/
theorem Gathering.stored (h : Gathering params clock B D [] [] n) (hB : Lasting params B)
    (hD : B ⊆ insert (genesisBlock params) D) : ∀ {rest : List Block} {b : Block},
      Valid.Linked params (b :: rest) → (∀ c ∈ b :: rest, Worthy params B c) →
        (n.store.db.headers.lookup b.blockId).isSome
  | [], b, hl, _ => by
    cases hl
    exact h.gathered.genesis
  | parent :: rest, b, hl, hw => by
    cases hl with
    | cons hlinked hheight hprev hchecked =>
      obtain ⟨hb, hw⟩ := List.forall_mem_cons.1 hw
      have hparent := h.stored hB hD hlinked hw
      rcases hD hb.mem with rfl | hbD
      · exact h.gathered.genesis
      refine (h.gathered.kept b hbD hb).resolve_right fun ho => ?_
      have hstored : (n.store.db.header b.header.prevId).isSome := by
        rw [hprev]
        exact hparent
      rcases h.adoption.unadopted _ _ ho hstored with hm | hm <;> cases hm

/-- The chain of a node that kept what it received is the heaviest. -/
theorem Gathering.heaviest (h : Gathering params clock B D [] [] n) (hB : Lasting params B)
    (hD : B ⊆ insert (genesisBlock params) D) :
    ∃ L, Sound params B n.store L ∧ Rightful params B L ∧
      ∀ L', Rightful params B L' → L'.totalWork ≤ L.totalWork := by
  obtain ⟨L, hs⟩ := h.gathered.settles
  refine ⟨L, hs.sound, ⟨hs.sound.ledgerIn, fun c hc => ?_⟩, fun L' h' => ?_⟩
  · obtain ⟨-, r, hr, hbody⟩ := hs.sound.good.chain c hc
    rw [hbody.header]
    exact h.gathered.mined _ r hr
  · obtain ⟨b, rest, hc⟩ := List.exists_cons_of_ne_nil h'.valid.chain_ne_nil
    have hlinked := h'.valid.linked
    rw [hc] at hlinked
    have hsome := h.stored hB hD hlinked fun c hc' => h'.worthy (hc ▸ hc')
    obtain ⟨r, hr⟩ := Option.isSome_iff_exists.1 hsome
    have hhead : L'.chain.head? = some b := by rw [hc]; rfl
    have hb := h'.mem b (List.mem_of_mem_head? hhead)
    have hheader := hs.sound.row_header hB.regular hb hr
    rw [← h'.toLedgerIn.work_eq hB.regular hhead hs.sound.rows hr hheader]
    refine hs.best _ r hr fun ht => ?_
    exact (hs.truthful.invalid _ r hr ht).notMem hB.regular h'.toLedgerIn b
      (List.mem_of_mem_head? hhead) hheader.symm

variable {blocks : List Block}

/-- The heaviest chain after a run. -/
theorem heaviest_afterBlocks (hB : Lasting params (withGenesis params blocks))
    (htime : ∀ b ∈ blocks, InTime params clock b)
    (hroom : Run.Along CanWait (fun n b => step params clock n (.submit b)) (fresh params) blocks) :
    ∃ L, Sound params (withGenesis params blocks) (afterBlocks params clock blocks).store L ∧
      Rightful params (withGenesis params blocks) L ∧
      ∀ L', Rightful params (withGenesis params blocks) L' → L'.totalWork ≤ L.totalWork := by
  have hrun := (@gathering_fresh _ _ _ clock hB.regular.genesis).run hB pool_fresh
    (fun b hb => Or.inr hb) htime hroom
  rw [Set.empty_union] at hrun
  have hafter : afterBlocks params clock blocks =
      Run.run (fun n b => step params clock n (.submit b)) (fresh params) blocks := by
    rw [afterBlocks, after, Run.run, List.foldl_map, Run.run]
  rw [hafter]
  exact hrun.heaviest hB fun b hb => hb

/-- **The order of arrival does not matter.** After blocks were submitted
in any order and any number of times, none of them ahead of the clock,
with room for the orphans and no chain longer than the finality depth, the
active chain is one of the blocks that follows every rule, and no such
chain has more work. -/
theorem heaviest_arrived (params : NetworkParams) (clock : ℕ → ℤ) (blocks : List Block)
    (hB : Lasting params (withGenesis params blocks))
    (htime : ∀ b ∈ blocks, InTime params clock b)
    (hroom : Run.Along CanWait (fun n b => step params clock n (.submit b)) (fresh params) blocks) :
    ∃ L, HoldsChain params (afterBlocks params clock blocks) L ∧
      Rightful params (withGenesis params blocks) L ∧
      ∀ L', Rightful params (withGenesis params blocks) L' → L'.totalWork ≤ L.totalWork := by
  obtain ⟨L, hs, hright, hbest⟩ := heaviest_afterBlocks hB htime hroom
  exact ⟨L, ⟨hs.good.valid, fun _ _ => hs.good.tables.mainId_eq_some⟩, hright, hbest⟩

/-! ## Nodes that receive the same blocks -/

variable {ι : Type} [DecidableEq ι]

/-- The nodes after deliveries of blocks to them, one after another. -/
def network (params : NetworkParams) (clock : ι → ℕ → ℤ) (deliveries : List (ι × Block)) :
    ι → Node :=
  Run.run (Run.interleaved fun i n b => step params (clock i) n (.submit b))
    (fun _ => fresh params) deliveries

theorem network_apply {clock : ι → ℕ → ℤ} {deliveries : List (ι × Block)} (i : ι) :
    network params clock deliveries i =
      afterBlocks params (clock i) (Run.opsOf i deliveries) := by
  rw [network, Run.run_interleaved, afterBlocks, after, Run.run, Run.run, List.foldl_map]

/-- **Nodes agree.** Whatever the interleaving of the deliveries, two
nodes that received the same blocks hold chains of the same work; where
one chain has more work than all others, they hold the same chain and
answer the same accounts. -/
theorem nodes_agree (params : NetworkParams) (clock : ι → ℕ → ℤ) (deliveries : List (ι × Block))
    {i j : ι} (hsame : ∀ b, (i, b) ∈ deliveries ↔ (j, b) ∈ deliveries)
    (hB : Lasting params (withGenesis params (Run.opsOf i deliveries)))
    (htime : ∀ d ∈ deliveries, InTime params (clock d.1) d.2)
    (hroom : Run.Along (fun nodes d => CanWait (nodes d.1) d.2)
      (Run.interleaved fun i n b => step params (clock i) n (.submit b)) (fun _ => fresh params)
      deliveries) :
    let n := network params clock deliveries i
    let n' := network params clock deliveries j
    ∃ L L', HoldsChain params n L ∧ HoldsChain params n' L' ∧ L.totalWork = L'.totalWork ∧
      ((∀ M, Rightful params (withGenesis params (Run.opsOf i deliveries)) M →
          M.totalWork = L.totalWork → M = L) →
        L' = L ∧ n'.store.db.getAccount = n.store.db.getAccount) := by
  intro n n'
  have hset : withGenesis params (Run.opsOf j deliveries) =
      withGenesis params (Run.opsOf i deliveries) := by
    ext b
    simp only [withGenesis, Set.mem_ofPred_eq, Run.mem_opsOf, hsame]
  have hheaviest : ∀ k, withGenesis params (Run.opsOf k deliveries) =
      withGenesis params (Run.opsOf i deliveries) →
      ∃ L, Sound params (withGenesis params (Run.opsOf i deliveries))
          (network params clock deliveries k).store L ∧
        Rightful params (withGenesis params (Run.opsOf i deliveries)) L ∧
        ∀ M, Rightful params (withGenesis params (Run.opsOf i deliveries)) M →
          M.totalWork ≤ L.totalWork := by
    intro k hk
    rw [network_apply, ← hk]
    have hroomk : Run.Along CanWait (fun n b => step params (clock k) n (.submit b))
        (fresh params) (Run.opsOf k deliveries) :=
      @Run.Along.opsOf _ _ _ _ (fun j n b => step params (clock j) n (.submit b))
        (fun _ => CanWait) (fun _ => fresh params) _ hroom k
    exact heaviest_afterBlocks (hk ▸ hB) (fun b hb => htime _ (Run.mem_opsOf.1 hb)) hroomk
  obtain ⟨L, hs, hright, hbest⟩ := hheaviest i rfl
  obtain ⟨L', hs', hright', hbest'⟩ := hheaviest j hset
  have hwork : L.totalWork = L'.totalWork := le_antisymm (hbest' L hright) (hbest L' hright')
  refine ⟨L, L', ⟨hs.good.valid, fun _ _ => hs.good.tables.mainId_eq_some⟩,
    ⟨hs'.good.valid, fun _ _ => hs'.good.tables.mainId_eq_some⟩, hwork, fun hunique => ?_⟩
  have he := hunique L' hright' hwork.symm
  refine ⟨he, ?_⟩
  rw [hs.good.tables.getAccount_eq, hs'.good.tables.getAccount_eq, he]

end Node

end

section

attribute [local instance] Sample.primitives

theorem Sample.deep_pos : 0 < 10 := by decide

theorem Sample.deep_mul_le : 10 * 1000000 ≤ 10 ^ 9 := by decide

/-- A network on which ten blocks are not final yet. -/
def Sample.deepParams : NetworkParams :=
  { Sample.params with
    finalityDepth := 10
    finalityDepth_pos := Sample.deep_pos
    finalityDepth_mul_le := Sample.deep_mul_le }

namespace Node

/-- Two blocks, the second before the first, and one beside them. -/
def sampleArrivals : List Block :=
  let b₁ := Sample.block (genesisBlock Sample.deepParams) NO_SNAPSHOT 1 0 (2 ^ 255)
  [Sample.block b₁ NO_SNAPSHOT 2 0 (2 ^ 255), b₁,
    Sample.block (genesisBlock Sample.deepParams) NO_SNAPSHOT 1 1 (2 ^ 255)]

/-- The blocks in this order for one node, and in another for the other. -/
def sampleDeliveries : List (Bool × Block) :=
  sampleArrivals.map (fun b => (false, b)) ++
    (sampleArrivals.reverse ++ sampleArrivals.take 1).map fun b => (true, b)

instance (n : Node) (b : Block) : Decidable (CanWait n b) :=
  decidable_of_iff (n.store.db.header b.header.prevId = none →
    n.orphans.entries.length < MAX_ORPHANS ∧ n.orphanBytes + b.size ≤ MAX_ORPHAN_BYTES) Iff.rfl

theorem lasting_sampleArrivals :
    Lasting Sample.deepParams (withGenesis Sample.deepParams sampleArrivals) := by
  have hmem : ∀ c ∈ withGenesis Sample.deepParams sampleArrivals,
      c ∈ genesisBlock Sample.deepParams :: sampleArrivals := by
    rintro c (rfl | hc)
    · exact List.mem_cons_self
    · exact List.mem_cons_of_mem _ hc
  have hall : ∀ c ∈ genesisBlock Sample.deepParams :: sampleArrivals,
      c.blockId ≠ zeroBytes 32 ∧ c.height < 5 := by decide +kernel
  have hnodup : ((genesisBlock Sample.deepParams :: sampleArrivals).map Block.blockId).Nodup := by
    decide +kernel
  refine ⟨regular_of_height (Sample.collisionFree
    (l := (genesisBlock Sample.deepParams :: sampleArrivals).flatMap Block.messages) ?_
    (by decide +kernel)) (fun c hc => (hall c (hmem c hc)).1) (.inl rfl) fun c hc => ?_,
    fun b hb c hc he => List.inj_on_of_nodup_map hnodup (hmem b hb) (hmem c hc) he,
    fun L hL => ?_⟩
  · rintro m ⟨b, hb, hm⟩
    exact List.mem_flatMap.2 ⟨b, hmem b hb, hm⟩
  · have := (hall c (hmem c hc)).2
    have hdepth : Sample.deepParams.finalityDepth = 10 := rfl
    omega
  · obtain ⟨b, rest, hc⟩ := List.exists_cons_of_ne_nil hL.valid.chain_ne_nil
    have hlinked := hL.valid.linked
    rw [hc] at hlinked
    have hheight := hlinked.head_height
    have hlt := (hall b (hmem b (hL.mem b (hc ▸ List.mem_cons_self)))).2
    have hdepth : Sample.deepParams.finalityDepth = 10 := rfl
    rw [hc, List.length_cons, hdepth]
    omega

theorem inTime_sampleArrivals : ∀ b ∈ sampleArrivals,
    InTime Sample.deepParams (fun _ => 1000) b := by
  have hall : ∀ b ∈ sampleArrivals, b.header.timestamp ≤ 1000 := by decide +kernel
  intro b hb i
  have := hall b hb
  refine if_neg ?_
  dsimp only
  omega

/-- The two blocks on top of each other are the chain. -/
theorem heaviest_arrived_sample :
    (afterBlocks Sample.deepParams (fun _ => 1000) sampleArrivals).store.db.tipHeight = 2 ∧
      ∃ L, HoldsChain Sample.deepParams
          (afterBlocks Sample.deepParams (fun _ => 1000) sampleArrivals) L ∧
        Rightful Sample.deepParams (withGenesis Sample.deepParams sampleArrivals) L ∧
        ∀ L', Rightful Sample.deepParams (withGenesis Sample.deepParams sampleArrivals) L' →
          L'.totalWork ≤ L.totalWork :=
  ⟨by decide +kernel, heaviest_arrived Sample.deepParams (fun _ => 1000) sampleArrivals
    lasting_sampleArrivals inTime_sampleArrivals
    ⟨by decide +kernel, by decide +kernel, by decide +kernel, trivial⟩⟩

theorem nodes_agree_sample :
    let n := network Sample.deepParams (fun (_ : Bool) _ => 1000) sampleDeliveries false
    let n' := network Sample.deepParams (fun (_ : Bool) _ => 1000) sampleDeliveries true
    ∃ L L', HoldsChain Sample.deepParams n L ∧ HoldsChain Sample.deepParams n' L' ∧
      L.totalWork = L'.totalWork ∧
      ((∀ M, Rightful Sample.deepParams
          (withGenesis Sample.deepParams (Run.opsOf false sampleDeliveries)) M →
          M.totalWork = L.totalWork → M = L) →
        L' = L ∧ n'.store.db.getAccount = n.store.db.getAccount) := by
  have hmem : ∀ d ∈ sampleDeliveries, d.2 ∈ sampleArrivals := by
    intro d hd
    simp only [sampleDeliveries, List.mem_append, List.mem_map, List.mem_reverse] at hd
    rcases hd with ⟨b, hb, rfl⟩ | ⟨b, hb | hb, rfl⟩
    exacts [hb, hb, List.mem_of_mem_take hb]
  refine nodes_agree Sample.deepParams (fun _ _ => 1000) sampleDeliveries (fun b => ?_)
    lasting_sampleArrivals (fun d hd => inTime_sampleArrivals d.2 (hmem d hd)) ?_
  · simp only [sampleDeliveries, List.mem_append, List.mem_map, List.mem_reverse, Prod.mk.injEq,
      true_and, exists_eq_right, Bool.false_eq_true, Bool.true_eq_false, false_and, and_false,
      exists_false, or_false, false_or]
    exact ⟨Or.inl, fun h => h.elim id List.mem_of_mem_take⟩
  · exact ⟨by decide +kernel, by decide +kernel, by decide +kernel, by decide +kernel,
      by decide +kernel, by decide +kernel, by decide +kernel, trivial⟩

end Node

end

end TalCash
