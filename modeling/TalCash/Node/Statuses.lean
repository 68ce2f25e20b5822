import TalCash.Node.Raising
import TalCash.Node.Service
/-!
# Statuses and the choice of the tip

A row is marked valid once its block was connected, and invalid where it,
or a block it is built on, was refused. Along a run of submitted blocks
the marks are right: what is marked valid ends a chain that the ledger
takes, and what is marked invalid is on no such chain (`Truthful`). No row
that is not marked invalid has more work than the tip. So of the valid
chains whose newest block is stored, none has more work than the active
one (`heaviest_stored`).
-/

namespace TalCash

open BlockFiles Ledger

section

variable [Primitives] {params : NetworkParams} {B : Set Block} {lim : ℕ} {s s' : Store}
variable {L L' : Ledger} {b c : Block} {r : HeaderRow} {id : Digest}

/-! ## Refuted blocks -/

/-- A ledger of blocks of `B`. -/
structure LedgerIn (params : NetworkParams) (B : Set Block) (L : Ledger) : Prop where
  valid : Valid params L
  mem : ∀ c ∈ L.chain, c ∈ B

/-- A block of `B` that breaks a rule on top of its parent's ledger, or
whose parent is refuted. -/
inductive Refuted (params : NetworkParams) (B : Set Block) : BlockHeader → Prop
  | refused {b parent : Block} {L : Ledger} (mem : b ∈ B) (checked : CheckedBlock params b)
      (ledger : LedgerIn params B L) (head : L.chain.head? = some parent)
      (prevId : b.header.prevId = parent.blockId) (refused : ∀ L', L.extend params b ≠ .ok L') :
      Refuted params B b.header
  | child {b : Block} {p : BlockHeader} (mem : b ∈ B) (parent : Refuted params B p)
      (prevId : b.header.prevId = p.blockId) : Refuted params B b.header

theorem Refuted.mem {h : BlockHeader} (hr : Refuted params B h) : ∃ b ∈ B, b.header = h := by
  cases hr with
  | refused hb _ _ _ _ _ => exact ⟨_, hb, rfl⟩
  | child hb _ _ => exact ⟨_, hb, rfl⟩

/-- Checked blocks of `B` with one id are one block. -/
theorem Regular.eq_of_blockId_eq (hB : Regular params B) (hb : b ∈ B) (hc : c ∈ B)
    (hcb : CheckedBlock params b) (hcc : CheckedBlock params c) (h : b.blockId = c.blockId) :
    b = c :=
  TalCash.eq_of_blockId_eq hB.collisionFree (messages_subset hb) (messages_subset hc) hcb hcc h

theorem Regular.header_eq (hB : Regular params B) (hb : b ∈ B) (hc : c ∈ B)
    (h : b.blockId = c.blockId) : b.header = c.header :=
  header_eq_of_blockId_eq hB.collisionFree (messages_subset hb _ b.header_mem_messages)
    (messages_subset hc _ c.header_mem_messages) h

/-- **A block fixes the chain below it.** -/
theorem Regular.chain_eq (hB : Regular params B) : ∀ {rest rest' : List Block} {b : Block},
    Valid.Linked params (b :: rest) → Valid.Linked params (b :: rest') →
      (∀ c ∈ rest, c ∈ B) → (∀ c ∈ rest', c ∈ B) → rest = rest'
  | [], [], _, _, _, _, _ => rfl
  | [], _ :: _, _, h, h', _, _ => by
    have := h.head_height
    have := h'.head_height
    simp only [List.length_nil, List.length_cons] at *
    omega
  | _ :: _, [], _, h, h', _, _ => by
    have := h.head_height
    have := h'.head_height
    simp only [List.length_nil, List.length_cons] at *
    omega
  | p :: rest, p' :: rest', b, h, h', hr, hr' => by
    cases h with
    | cons hl _ hprev _ =>
      cases h' with
      | cons hl' _ hprev' _ =>
        have hp : p = p' := hB.eq_of_blockId_eq (hr _ List.mem_cons_self)
          (hr' _ List.mem_cons_self) (hl.checked List.mem_cons_self)
          (hl'.checked List.mem_cons_self) (hprev.symm.trans hprev')
        subst hp
        rw [hB.chain_eq hl hl' (fun c hc => hr c (List.mem_cons_of_mem _ hc))
          fun c hc => hr' c (List.mem_cons_of_mem _ hc)]

/-- Two ledgers of `B` with one newest block are one ledger. -/
theorem LedgerIn.eq_of_head (hB : Regular params B) (h : LedgerIn params B L)
    (h' : LedgerIn params B L') (hb : L.chain.head? = some b) (hb' : L'.chain.head? = some b) :
    L = L' := by
  obtain ⟨rest, hc⟩ := List.head?_eq_some_iff.1 hb
  obtain ⟨rest', hc'⟩ := List.head?_eq_some_iff.1 hb'
  refine h.valid.eq_of_chain_eq h'.valid ?_
  have hl := h.valid.linked
  have hl' := h'.valid.linked
  have hm := h.mem
  have hm' := h'.mem
  rw [hc] at hl hm ⊢
  rw [hc'] at hl' hm' ⊢
  rw [hB.chain_eq hl hl' (fun c hx => hm c (List.mem_cons_of_mem _ hx))
    fun c hx => hm' c (List.mem_cons_of_mem _ hx)]

/-- The ledger up to a block of the chain. -/
theorem LedgerIn.upTo (h : LedgerIn params B L) (hb : b ∈ L.chain) :
    ∃ L₁ rest, LedgerIn params B L₁ ∧ L₁.chain = b :: rest ∧ L₁.chain <:+ L.chain := by
  obtain ⟨L₁, hv, hs, hl⟩ := h.valid.truncate (h.valid.linked.height_lt hb)
  obtain ⟨c, rest, hc⟩ := List.exists_cons_of_ne_nil hv.chain_ne_nil
  have hcm : c ∈ L.chain := hs.mem (by rw [hc]; exact List.mem_cons_self)
  have hlink := hv.linked
  rw [hc] at hlink hl
  have hheight := hlink.head_height
  rw [List.length_cons] at hl
  have hcb : c = b := h.valid.linked.eq_of_height hcm hb (by omega)
  exact ⟨L₁, rest, ⟨hv, fun x hx => h.mem x (hs.mem hx)⟩, hcb ▸ hc, hs⟩

/-- A block of the chain that names another one of `B` as its parent was
taken on top of that block's ledger. -/
theorem LedgerIn.taken (hB : Regular params B) (h : LedgerIn params B L) (hb : b ∈ L.chain)
    (hc : c ∈ B) (hprev : b.header.prevId = c.blockId) :
    ∃ p ∈ L.chain, p.blockId = c.blockId ∧ ∃ L₀ L₁, LedgerIn params B L₀ ∧
      L₀.chain.head? = some p ∧ L₀.extend params b = .ok L₁ := by
  obtain ⟨L₁, rest, h₁, hchain, hs⟩ := h.upTo hb
  have hlink := h₁.valid.linked
  rw [hchain] at hlink
  cases hlink with
  | genesis => exact absurd (hprev.symm.trans (genesisBlock_prevId params)) (hB.blockId_ne c hc)
  | @cons _ p rest hl _ hp _ =>
    obtain ⟨L₀, hv₀, hc₀, hext⟩ := h₁.valid.uncons hchain
    refine ⟨p, hs.mem ?_, hp.symm.trans hprev, L₀, L₁, ⟨hv₀, fun x hx => h₁.mem x ?_⟩, ?_, hext⟩
    · rw [hchain]
      exact List.mem_cons_of_mem _ List.mem_cons_self
    · rw [hchain, ← hc₀]
      exact List.mem_cons_of_mem _ hx
    · rw [hc₀]
      rfl

/-- **A refuted block is on no chain that a ledger takes.** -/
theorem Refuted.notMem (hB : Regular params B) {h : BlockHeader} (hr : Refuted params B h) :
    ∀ {L : Ledger}, LedgerIn params B L → ∀ c ∈ L.chain, c.header ≠ h := by
  induction hr with
  | @refused b parent L₁ hb hcheck h₁ hhead hprev href =>
    intro L hL c hc heq
    have hcb : c = b := hB.eq_of_blockId_eq (hL.mem c hc) hb (hL.valid.linked.checked hc) hcheck
      (congrArg BlockHeader.blockId heq)
    subst hcb
    have hparent := h₁.mem _ (List.mem_of_mem_head? hhead)
    obtain ⟨p, hp, hid, L₀, L₂, h₀, hhead₀, hext⟩ := hL.taken hB hc hparent hprev
    have hpp : p = parent := hB.eq_of_blockId_eq (hL.mem p hp) hparent
      (hL.valid.linked.checked hp) (h₁.valid.linked.checked (List.mem_of_mem_head? hhead)) hid
    rw [hpp] at hhead₀
    rw [h₀.eq_of_head hB h₁ hhead₀ hhead] at hext
    exact href L₂ hext
  | @child b p hb hp hprev ih =>
    intro L hL c hc heq
    obtain ⟨q, hq, hqp⟩ := hp.mem
    have hprev' : c.header.prevId = q.blockId := by
      rw [heq, hprev, ← hqp]
      rfl
    obtain ⟨x, hx, hid, -⟩ := hL.taken hB hc hq hprev'
    exact ih hL x hx ((hB.header_eq (hL.mem x hx) hq hid).trans hqp)

/-! ## What the marks say -/

/-- A block at the end of a chain that a ledger takes. -/
def Confirmed (params : NetworkParams) (B : Set Block) (h : BlockHeader) : Prop :=
  ∃ L b, LedgerIn params B L ∧ L.chain.head? = some b ∧ b.header = h

theorem Refuted.not_confirmed (hB : Regular params B) {h : BlockHeader} (hr : Refuted params B h) :
    ¬ Confirmed params B h := by
  rintro ⟨L, b, hL, hb, heq⟩
  exact hr.notMem hB hL b (List.mem_of_mem_head? hb) heq

/-- What is marked valid is taken by a ledger; what is marked invalid is
refuted. -/
structure Truthful (params : NetworkParams) (B : Set Block) (db : Db) : Prop where
  valid : ∀ id r, db.headers.lookup id = some r → r.status = .valid → Confirmed params B r.header
  invalid : ∀ id r, db.headers.lookup id = some r → r.status = .invalid →
    Refuted params B r.header

omit [Primitives] in
/-- No row that is not marked invalid has more than this work. -/
def NoneBetter (work : ℕ) (db : Db) : Prop :=
  ∀ id r, db.headers.lookup id = some r → r.status ≠ .invalid → r.chainWork ≤ work

variable {work work' : ℕ} {db db' : Db} {ids : List Digest}

namespace Truthful

/-- Rows from before, with their marks. -/
theorem subRows (h : Truthful params B db) (hs : SubRows db db') : Truthful params B db' := by
  refine ⟨fun id r' hr' ht => ?_, fun id r' hr' ht => ?_⟩ <;>
    obtain ⟨r, hr, hh, -, hst⟩ := hs id r' hr'
  · rw [hh]
    exact h.valid id r hr (hst ▸ ht)
  · rw [hh]
    exact h.invalid id r hr (hst ▸ ht)

/-- Rows of which some became valid. -/
theorem kept (h : Truthful params B s.db) (hk : Store.Kept ids s s')
    (hids : ∀ id ∈ ids, ∀ r, s.db.headers.lookup id = some r → Confirmed params B r.header) :
    Truthful params B s'.db := by
  refine ⟨fun id r' hr' ht => ?_, fun id r' hr' ht => ?_⟩ <;>
    obtain ⟨r, hr, hh, -, -⟩ := hk.rows.lookup hr' <;>
    rcases hk.statuses id r r' hr hr' with hst | ⟨hid, hst⟩
  · rw [hh]
    exact h.valid id r hr (hst ▸ ht)
  · rw [hh]
    exact hids id hid r hr
  · rw [hh]
    exact h.invalid id r hr (hst ▸ ht)
  · rw [hst] at ht
    cases ht

/-- A new row. -/
theorem added (h : Truthful params B s.db) (ha : Added b work s s') : Truthful params B s'.db := by
  refine ⟨fun id r hr ht => ?_, fun id r hr ht => ?_⟩ <;>
    (rw [ha.lookup] at hr; split at hr)
  · rw [← Option.some.inj hr] at ht
    cases ht
  · exact h.valid id r hr ht
  · rw [← Option.some.inj hr] at ht
    cases ht
  · exact h.invalid id r hr ht

end Truthful

omit [Primitives] in
/-- A row that is not below the one marked is as it was. -/
theorem Marked.lookup_of_not_below (hm : Marked [id] db db') {x : Digest} (hx : ¬ Below db id x) :
    db'.headers.lookup x = db.headers.lookup x := by
  refine hm.kept x ?_
  rintro ⟨p, hp, hbelow⟩
  rw [List.mem_singleton.1 hp] at hbelow
  exact hx hbelow

omit [Primitives] in
theorem Marked.status_of_below (hm : Marked [id] db db') {x : Digest} (hx : Below db id x)
    (hr : db'.headers.lookup x = some r) : r.status = .invalid :=
  hm.marked x r hr ⟨id, List.mem_singleton_self _, hx⟩

/-- A row and everything below it was marked invalid. -/
theorem Truthful.marked (h : Truthful params B db) (hm : Marked [id] db db')
    (hrefuted : ∀ x r, db.headers.lookup x = some r → Below db id x → Refuted params B r.header) :
    Truthful params B db' := by
  refine ⟨fun x r' hr' ht => ?_, fun x r' hr' ht => ?_⟩ <;> by_cases hx : Below db id x
  · rw [hm.status_of_below hx hr'] at ht
    cases ht
  · exact h.valid x r' (hm.lookup_of_not_below hx ▸ hr') ht
  · obtain ⟨r, hr, hh, -, -⟩ := hm.rows.lookup hr'
    rw [hh]
    exact hrefuted x r hr hx
  · exact h.invalid x r' (hm.lookup_of_not_below hx ▸ hr') ht

namespace NoneBetter

omit [Primitives] in
theorem mono (h : NoneBetter work db) (hle : work ≤ work') : NoneBetter work' db :=
  fun id r hr hs => (h id r hr hs).trans hle

omit [Primitives] in
theorem subRows (h : NoneBetter work db) (hs : SubRows db db') : NoneBetter work db' := by
  intro id r' hr' ht
  obtain ⟨r, hr, -, hw, hst⟩ := hs id r' hr'
  rw [hw]
  exact h id r hr (hst ▸ ht)

theorem added (h : NoneBetter work' s.db) (ha : Added b work s s') (hle : work ≤ work') :
    NoneBetter work' s'.db := by
  intro id r hr ht
  rw [ha.lookup] at hr
  split at hr
  · rw [← Option.some.inj hr]
    exact hle
  · exact h id r hr ht

/-- Blocks that were connected were not marked invalid before. -/
theorem kept (hB : Regular params B) (h : NoneBetter work s.db) (ht : Truthful params B s.db)
    (hk : Store.Kept ids s s')
    (hids : ∀ id ∈ ids, ∀ r, s.db.headers.lookup id = some r → Confirmed params B r.header) :
    NoneBetter work s'.db := by
  intro id r' hr' hs
  obtain ⟨r, hr, -, hw, -⟩ := hk.rows.lookup hr'
  rw [hw]
  rcases hk.statuses id r r' hr hr' with hst | ⟨hid, -⟩
  · exact h id r hr (hst ▸ hs)
  · refine h id r hr fun hinv => ?_
    exact (ht.invalid id r hr hinv).not_confirmed hB (hids id hid r hr)

/-- A new row that was marked at once. -/
theorem marked {s₁ : Store} (h : NoneBetter work' s.db) (ha : Added b work s s₁)
    (hm : Marked [id] s₁.db db') (hb : Below s₁.db id b.blockId) : NoneBetter work' db' := by
  intro x r' hr' hs
  by_cases hx : Below s₁.db id x
  · exact absurd (hm.status_of_below hx hr') hs
  · rw [hm.lookup_of_not_below hx, ha.lookup, if_neg (by rintro rfl; exact hx hb)] at hr'
    exact h x r' hr' hs

end NoneBetter

/-! ## Following a branch -/

namespace OnTop

variable {L₀ L₁ : Ledger} {bs pre post : List Block}

/-- The ledger after some blocks of a branch. -/
theorem ledgerIn (h : OnTop params B s L r L₀ (pre ++ post)) (hL : ∀ c ∈ L.chain, c ∈ B)
    (he : L₀.extendAll params pre = .ok L₁) : LedgerIn params B L₁ := by
  obtain ⟨hv, hc⟩ := h.valid.extendAll he
  refine ⟨hv, fun c hm => ?_⟩
  rw [hc, List.mem_append, List.mem_reverse] at hm
  rcases hm with hm | hm
  · exact (h.stored c (List.mem_append_left _ hm)).mem
  · exact hL c (h.below.mem hm)

/-- The row of a block of the branch has its header. -/
theorem header_eq (h : OnTop params B s L r L₀ bs) (hb : b ∈ bs) {r' : HeaderRow}
    (hr : s.db.headers.lookup b.blockId = some r') : r'.header = b.header := by
  obtain ⟨x, hx, hbody⟩ := (h.stored b hb).row
  rw [hr] at hx
  rw [Option.some.inj hx]
  exact hbody.header.symm

/-- **The blocks of a branch that was connected are confirmed.** -/
theorem confirmed (h : OnTop params B s L r L₀ bs) (hL : ∀ c ∈ L.chain, c ∈ B)
    (he : L₀.extendAll params bs = .ok L') :
    ∀ id ∈ bs.map Block.blockId, ∀ x, s.db.headers.lookup id = some x →
      Confirmed params B x.header := by
  intro id hid x hx
  obtain ⟨b, hb, rfl⟩ := List.mem_map.1 hid
  obtain ⟨pre, post, rfl⟩ := List.append_of_mem hb
  obtain ⟨L₁, h₁, h₂⟩ := extendAll_append.1 he
  obtain ⟨L₂, hext, -⟩ := extendAll_cons.1 h₂
  have h' : OnTop params B s L r L₀ ((pre ++ [b]) ++ post) := by
    rw [List.append_assoc]
    exact h
  have hall : L₀.extendAll params (pre ++ [b]) = .ok L₂ :=
    extendAll_append.2 ⟨L₁, h₁, extendAll_singleton.2 hext⟩
  obtain ⟨ctx, changes, hextended⟩ := extend_ok_iff.1 hext
  refine ⟨L₂, b, h'.ledgerIn hL hall, by rw [hextended.chain]; rfl, ?_⟩
  exact (h.header_eq hb hx).symm

/-- What a branch was refused for refutes the block and all that is built
on it. -/
theorem refuted (h : OnTop params B s L r L₀ (pre ++ b :: post)) (hL : ∀ c ∈ L.chain, c ∈ B)
    (he : L₀.extendAll params pre = .ok L₁) (hrows : Rows params B s)
    (hk : ∀ id r, s.db.headers.lookup id = some r → r.blockId = id)
    (hrefused : ∀ L', L₁.extend params b ≠ .ok L') {x : Digest}
    (hx : Below s.db b.blockId x) :
    ∃ r, s.db.headers.lookup x = some r ∧ Refuted params B r.header := by
  induction hx with
  | refl =>
    have hb : b ∈ pre ++ b :: post := List.mem_append_right _ List.mem_cons_self
    have hrow := h.stored b hb
    obtain ⟨parent, hhead, hprev⟩ := h.next he
    obtain ⟨r', hr', hbody⟩ := hrow.row
    refine ⟨r', hr', ?_⟩
    rw [← hbody.header]
    exact .refused hrow.mem hrow.checked (h.ledgerIn hL he) hhead hprev hrefused
  | @tail y z _ hchild ih =>
    obtain ⟨r', hr', hprev⟩ := hchild
    obtain ⟨ry, hry, href⟩ := ih
    obtain ⟨c, hc, hrow⟩ := hrows.hasRow hr' (hk _ _ hr')
    refine ⟨r', hr', ?_⟩
    rw [← hc]
    exact .child hrow.mem href (by rw [hc, hprev, ← hk _ _ hry]; rfl)

end OnTop

/-- Blocks that follow a stored block are built on it. -/
theorem below_of_follow : ∀ {post : List Block} {b : Block}, Follow b post →
    (∀ c ∈ post, HasRow params B s c) → ∀ c ∈ b :: post, Below s.db b.blockId c.blockId
  | [], b, _, _, c, hc => by
    rw [List.mem_singleton.1 hc]
    exact Relation.ReflTransGen.refl
  | d :: post, b, h, hrow, c, hc => by
    obtain ⟨hprev, hrest⟩ := List.isChain_cons_cons.1 h
    rcases List.mem_cons.1 hc with rfl | hc
    · exact Relation.ReflTransGen.refl
    · obtain ⟨r, hr, hbody⟩ := (hrow d List.mem_cons_self).row
      have hchild : IsChild s.db b.blockId d.blockId := ⟨r, hr, hbody.header ▸ hprev⟩
      exact .head hchild
        (below_of_follow hrest (fun x hx => hrow x (List.mem_cons_of_mem _ hx)) c hc)

/-- The end of a branch is built on each of its blocks. -/
theorem OnTop.end_below {L₀ : Ledger} {pre post : List Block}
    (h : OnTop params B s L r L₀ (pre ++ b :: post)) : Below s.db b.blockId r.blockId := by
  obtain ⟨base, rest, -, hfollow, hlast⟩ := h.base
  have hfollow' : Follow b post := by
    unfold Follow at hfollow ⊢
    rw [← List.cons_append] at hfollow
    exact (List.isChain_append.1 hfollow).2.1
  have hrow : ∀ c ∈ post, HasRow params B s c := fun c hc =>
    h.stored c (List.mem_append_right _ (List.mem_cons_of_mem _ hc))
  have hend : (base :: (pre ++ b :: post)).getLast (List.cons_ne_nil _ _) =
      (b :: post).getLast (List.cons_ne_nil _ _) :=
    List.getLast_append_of_ne_nil (l := base :: pre) (List.cons_ne_nil _ _) (List.cons_ne_nil _ _)
  have hid : r.blockId = ((b :: post).getLast (List.cons_ne_nil _ _)).blockId := by
    rw [← hend, HeaderRow.blockId, ← hlast]
    rfl
  rw [hid]
  exact below_of_follow hfollow' hrow _ (List.getLast_mem _)

/-! ## The work of a chain -/

omit [Primitives] in
/-- The work of all blocks of the chain. -/
def Ledger.totalWork (L : Ledger) : ℕ := (L.chain.map fun b => blockWork b.header.target).sum

theorem Valid.Linked.ancestry : ∀ {chain : List Block} {b : Block},
    Valid.Linked params (b :: chain) → (∀ c ∈ b :: chain, c ∈ B) →
      Ancestry params B b.header (((b :: chain).map fun c => blockWork c.header.target).sum)
  | [], _, h, _ => by
    cases h
    exact .genesis
  | p :: rest, b, h, hm => by
    cases h with
    | cons hl hheight hprev _ =>
      have hp := Valid.Linked.ancestry hl fun c hc => hm c (List.mem_cons_of_mem _ hc)
      rw [List.map_cons, List.sum_cons, Nat.add_comm]
      exact .child hp (hm _ List.mem_cons_self) hprev hheight

/-- The row of the newest block of a ledger has the work of its chain. -/
theorem LedgerIn.work_eq (hB : Regular params B) (h : LedgerIn params B L)
    (hb : L.chain.head? = some b) (hrows : Rows params B s)
    (hr : s.db.headers.lookup id = some r) (hh : r.header = b.header) :
    r.chainWork = L.totalWork := by
  obtain ⟨rest, hc⟩ := List.head?_eq_some_iff.1 hb
  have hlink := h.valid.linked
  have hm := h.mem
  rw [hc] at hlink hm
  have ha := (hrows _ _ hr).ancestry
  rw [hh] at ha
  rw [Ledger.totalWork, hc]
  exact ha.work_unique hB.collisionFree hB.genesis (Valid.Linked.ancestry hlink hm)

theorem Sound.ledgerIn (h : Sound params B s L) : LedgerIn params B L :=
  ⟨h.good.valid, fun c hc => (h.good.chain c hc).1⟩

/-- The work of the tip is that of the active chain. -/
theorem Sound.tip_work (hB : Regular params B) (h : Sound params B s L) {tip : HeaderRow}
    (ht : s.db.tip = .ok tip) : tip.chainWork = L.totalWork := by
  obtain ⟨b, rest, hc⟩ := List.exists_cons_of_ne_nil h.good.valid.chain_ne_nil
  obtain ⟨r, hr, hheader, hrow⟩ := h.good.tip hc
  rw [hr] at ht
  rw [← Except.ok.inj ht]
  exact h.ledgerIn.work_eq hB (by rw [hc]; rfl) h.rows hrow hheader

/-- The newest block after a branch is the end of the branch. -/
theorem OnTop.head_eq {L₀ : Ledger} {bs : List Block} (h : OnTop params B s L r L₀ bs)
    (he : L₀.extendAll params bs = .ok L') :
    ∃ c, L'.chain.head? = some c ∧ c.header = r.header := by
  obtain ⟨base, rest, hL₀, -, hlast⟩ := h.base
  obtain ⟨-, hc⟩ := h.valid.extendAll he
  refine ⟨_, ?_, hlast⟩
  rw [hc, hL₀]
  cases bs using List.reverseRecOn with
  | nil => rfl
  | append_singleton pre c => simp

/-! ## One block -/

/-- A store that holds a ledger, with right marks, and nothing better than
its tip. -/
structure Settles (params : NetworkParams) (B : Set Block) (s : Store) (L : Ledger) : Prop where
  sound : Sound params B s L
  fresh : Fresh s
  truthful : Truthful params B s.db
  best : NoneBetter L.totalWork s.db

/-- What a result tells of the ledgers before and after: they are the same
where it reports no block, and the later one has more work where it does. -/
def Moved (r : SubmitResult) (L L' : Ledger) : Prop :=
  (r.connected = [] ∧ r.disconnected = []) ∧ L' = L ∨
    ¬ (r.connected = [] ∧ r.disconnected = []) ∧ L.totalWork < L'.totalWork

/-- **Accepting a block leaves the marks right** and the tip the best. -/
theorem Settles.accepted {res : SubmitResult} (hB : Regular params B) (h : Settles params B s L)
    (ha : Accepted params B b work s L res s') :
    ∃ L', Settles params B s' L' ∧ Moved res L L' := by
  have hL : ∀ c ∈ L.chain, c ∈ B := h.sound.ledgerIn.mem
  cases ha with
  | side added sound fresh tip_eq le quiet outcome =>
    rw [sound.tip_work hB tip_eq] at le
    exact ⟨L, ⟨sound, fresh, h.truthful.added added, h.best.added added le⟩,
      Or.inl ⟨⟨quiet.connected, quiet.disconnected⟩, rfl⟩⟩
  | @switched s₁ _ tip _ L₀ L' bs added sound tip_eq lt onTop switched outcome connected
      disconnected =>
    rw [sound.tip_work hB tip_eq] at lt
    obtain ⟨s₂, hkept, -, hseals⟩ := switched.kept
    have hconf := onTop.confirmed hL switched.extended
    obtain ⟨c, hc, hheader⟩ := onTop.head_eq switched.extended
    have hwork : work = L'.totalWork := hseals.sound.ledgerIn.work_eq hB hc sound.rows
      added.lookup_self hheader.symm
    have htrue := h.truthful.added added
    have hbest := ((h.best.mono lt.le).added added le_rfl).kept hB htrue hkept hconf
    refine ⟨L', ⟨hseals.sound, hseals.fresh, (htrue.kept hkept hconf).subRows hseals.subRows,
      hwork ▸ hbest.subRows hseals.subRows⟩, Or.inr ⟨?_, hwork ▸ lt⟩⟩
    -- A switch that reported no block would have left the chain as it was.
    rintro ⟨hconn, hdisc⟩
    rw [hdisc, List.nil_append] at disconnected
    rw [connected] at hconn
    obtain ⟨-, hchain⟩ := onTop.valid.extendAll switched.extended
    rw [hconn, List.reverse_nil, List.nil_append, ← disconnected] at hchain
    have hsame : L'.totalWork = L.totalWork := by rw [Ledger.totalWork, hchain, Ledger.totalWork]
    omega
  | @failed s₁ _ tip _ L₀ bs added sound tip_eq lt onTop failed quiet outcome =>
    obtain ⟨id, hm, hreason⟩ := failed.marked
    obtain ⟨pre, c, post, L₁, rfl, rfl, he, hrefused⟩ := hreason hB
    refine ⟨L, ⟨failed.sound, failed.fresh, (h.truthful.added added).marked hm ?_,
      h.best.marked added hm onTop.end_below⟩, Or.inl ⟨⟨quiet.connected, quiet.disconnected⟩, rfl⟩⟩
    intro x r hr hx
    obtain ⟨r', hr', href⟩ := onTop.refuted hL he sound.rows sound.good.keyed hrefused hx
    rw [hr, Option.some.injEq] at hr'
    rw [hr']
    exact href

/-- A fresh store: genesis is marked valid, and the tip. -/
theorem settles_fresh (hg : genesisBlock params ∈ B) :
    Settles params B (Store.fresh params) (Ledger.start params) := by
  obtain ⟨hsound, hfresh⟩ := sound_fresh hg
  have hrow : ∀ id r, (Store.fresh params).db.headers.lookup id = some r →
      r = genesisRow params := by
    intro id r hr
    rw [(fresh_store params).1.headers, Table.lookup_put] at hr
    split at hr
    · exact (Option.some.inj hr).symm
    · cases hr
  refine ⟨hsound, hfresh, ⟨fun id r hr _ => ?_, fun id r hr ht => ?_⟩, fun id r hr _ => ?_⟩
  · rw [hrow id r hr]
    exact ⟨_, genesisBlock params, hsound.ledgerIn, rfl, rfl⟩
  · rw [hrow id r hr] at ht
    cases ht
  · rw [hrow id r hr]
    exact le_of_eq (by simp [genesisRow, Ledger.totalWork, Ledger.start])

namespace Node

variable {clock : ℕ → ℤ} {n n' : Node} {blocks : List Block}

/-- The node's store holds a ledger, and its marks are right. -/
def SettlesNode (params : NetworkParams) (B : Set Block) (n : Node) : Prop :=
  ∃ L, Settles params B n.store L

/-- Whatever a block is answered, the marks are right. -/
theorem SettlesNode.submitOne (hB : Regular params B) (h : SettlesNode params B n) (hp : Pool n)
    (hb : b ∈ B) : Exec.wp (submitOne params clock b) (fun _ n' => SettlesNode params B n')
      (fun _ n' => SettlesNode params B n') n := by
  have htick : SettlesNode params B n.tick := h
  refine submitOne_rule ?_ ?_ ?_ fun _ _ _ _ _ _ _ => htick
  · rintro r n' - (rfl | rfl) -
    exacts [h, htick]
  · intro hnew _ _ _ hchecks
    refine (holdOrphan_spec (n := n.tick) (SamePool.pool (n := n) ⟨rfl, rfl⟩ hp) hnew.orphan
      (CheckedBlock.size_le_orphans (checkOrphan_ok_iff.1 hchecks).2)).mono ?_ fun _ _ h => h.elim
    intro _ n' hheld
    unfold SettlesNode
    rw [hheld.rest.store]
    exact htick
  · intro p hnew hparent _ hchecks
    obtain ⟨L, hs⟩ := h
    exact (acceptChild_spec (n := n.tick) rfl hs.sound hs.fresh
      (ChildChecked.child (n := n) hnew.row hparent hb hchecks)).mono
        (fun _ _ ha => (hs.accepted hB ha).imp fun _ h => h.1) fun _ _ ha => absurd hB ha.2

theorem SettlesNode.onlyOrphans (ho : OnlyOrphans n n') (h : SettlesNode params B n) :
    SettlesNode params B n' := by
  unfold SettlesNode
  rw [ho.store]
  exact h

/-- Genesis and the blocks of a list. -/
def withGenesis (params : NetworkParams) (blocks : List Block) : Set Block :=
  {b | b = genesisBlock params ∨ b ∈ blocks}

theorem settlesNode_after (clock : ℕ → ℤ) (hB : Regular params (withGenesis params blocks)) :
    SettlesNode params (withGenesis params blocks) (afterBlocks params clock blocks) :=
  (afterBlocks_invariant params clock blocks (C := fun _ _ => True) SettlesNode.onlyOrphans
    (fun hp hb _ h => h.submitOne hB hp hb) (fun _ hb => .inr hb)
    (Run.along_trivial fun _ _ _ _ => trivial) ⟨_, settles_fresh (.inl rfl)⟩).1.1

/-- **The marks are right.** After any run of submitted blocks, a row that
is marked valid is of a block at the end of a chain that the ledger takes,
and a row that is marked invalid is of a block that is on no such chain of
the blocks submitted. -/
theorem statuses_true (params : NetworkParams) (clock : ℕ → ℤ) (blocks : List Block)
    (hB : Regular params (withGenesis params blocks)) {id : Digest} {r : HeaderRow}
    (hr : (afterBlocks params clock blocks).store.db.header id = some r) :
    (r.status = .valid → ∃ L b, LedgerIn params (withGenesis params blocks) L ∧
      L.chain.head? = some b ∧ b.header = r.header) ∧
    (r.status = .invalid → ∀ L, LedgerIn params (withGenesis params blocks) L →
      ∀ b ∈ L.chain, b.header ≠ r.header) := by
  obtain ⟨L, hs⟩ := settlesNode_after clock hB
  exact ⟨hs.truthful.valid id r hr, fun ht L hL => (hs.truthful.invalid id r hr ht).notMem hB hL⟩

/-- **The tip is the best block stored.** After any run of submitted
blocks, no chain of them that the ledger takes, and whose newest block is
stored, has more work than the active chain. -/
theorem heaviest_stored (params : NetworkParams) (clock : ℕ → ℤ) (blocks : List Block)
    (hB : Regular params (withGenesis params blocks)) :
    let n := afterBlocks params clock blocks
    ∃ L, HoldsChain params n L ∧ LedgerIn params (withGenesis params blocks) L ∧
      ∀ L₁ b, LedgerIn params (withGenesis params blocks) L₁ → L₁.chain.head? = some b →
        (n.store.db.header b.blockId).isSome → L₁.totalWork ≤ L.totalWork := by
  intro n
  obtain ⟨L, hs⟩ := settlesNode_after clock hB
  refine ⟨L, ⟨hs.sound.good.valid, fun _ _ => hs.sound.good.tables.mainId_eq_some⟩,
    hs.sound.ledgerIn, fun L₁ b h₁ hhead hsome => ?_⟩
  obtain ⟨r, hr⟩ := Option.isSome_iff_exists.1 hsome
  have hb := h₁.mem b (List.mem_of_mem_head? hhead)
  have hid := hs.sound.good.keyed _ _ hr
  obtain ⟨c, hc, hrow⟩ := hs.sound.rows.hasRow hr hid
  have hheader : b.header = r.header := by
    rw [← hc]
    refine hB.header_eq hb hrow.mem ?_
    rw [← hid, HeaderRow.blockId, ← hc]
    rfl
  rw [← h₁.work_eq hB hhead hs.sound.rows hr hheader.symm]
  refine hs.best _ r hr fun ht => ?_
  exact (hs.truthful.invalid _ r hr ht).notMem hB h₁ b (List.mem_of_mem_head? hhead) hheader

end Node

end

namespace Node

section

attribute [local instance] Sample.primitives

theorem sampleAmount_lt : 1 < 256 ^ 8 := by decide

/-- A block that claims too little, on top of a side branch. -/
def wrongClaim : Block :=
  Sample.blockWith [.coinbase { Sample.coinbase 2 with
    amount := 1
    amount_lt := sampleAmount_lt }] (sideChain.getD 0 (genesisBlock Sample.params)) NO_SNAPSHOT 2 0
    (2 ^ 255)

/-- A block, one beside it, and one on top of that which is refused. -/
def refusedBranch : List Block := mainChain.take 1 ++ sideChain.take 1 ++ [wrongClaim]

theorem regular_refusedBranch :
    Regular Sample.params (withGenesis Sample.params refusedBranch) := by
  have hmem : ∀ c ∈ withGenesis Sample.params refusedBranch,
      c ∈ genesisBlock Sample.params :: refusedBranch := by
    rintro c (rfl | hc)
    · exact List.mem_cons_self
    · exact List.mem_cons_of_mem _ hc
  have hall : ∀ c ∈ genesisBlock Sample.params :: refusedBranch,
      c.blockId ≠ zeroBytes 32 ∧ c.height < 10 := by decide +kernel
  refine regular_of_height (Sample.collisionFree
    (l := (genesisBlock Sample.params :: refusedBranch).flatMap Block.messages) ?_
    (by decide +kernel)) (fun c hc => (hall c (hmem c hc)).1) (.inl rfl) fun c hc => ?_
  · rintro m ⟨b, hb, hm⟩
    exact List.mem_flatMap.2 ⟨b, hmem b hb, hm⟩
  · have := (hall c (hmem c hc)).2
    have hsize : Sample.params.chunkSize = 2 := rfl
    rw [hsize]
    omega

theorem status_wrongClaim :
    ((afterBlocks Sample.params (fun _ => 1000) refusedBranch).store.db.header
      wrongClaim.blockId).map (fun r => (r.status, r.header)) =
        some (.invalid, wrongClaim.header) := by
  decide +kernel

/-- The block that claims too little is marked, and on no chain. -/
theorem statuses_true_sample : ∃ r,
    (afterBlocks Sample.params (fun _ => 1000) refusedBranch).store.db.header wrongClaim.blockId =
      some r ∧ r.status = .invalid ∧
      ∀ L, LedgerIn Sample.params (withGenesis Sample.params refusedBranch) L →
        ∀ b ∈ L.chain, b.header ≠ r.header := by
  obtain ⟨r, hr, hs⟩ := Option.map_eq_some_iff.1 status_wrongClaim
  have ht : r.status = .invalid := congrArg Prod.fst hs
  exact ⟨r, hr, ht, (statuses_true Sample.params (fun _ => 1000) refusedBranch
    regular_refusedBranch hr).2 ht⟩

theorem heaviest_stored_sample :
    let n := afterBlocks Sample.params (fun _ => 1000) refusedBranch
    ∃ L, HoldsChain Sample.params n L ∧
      LedgerIn Sample.params (withGenesis Sample.params refusedBranch) L ∧
      ∀ L₁ b, LedgerIn Sample.params (withGenesis Sample.params refusedBranch) L₁ →
        L₁.chain.head? = some b → (n.store.db.header b.blockId).isSome →
          L₁.totalWork ≤ L.totalWork :=
  heaviest_stored Sample.params (fun _ => 1000) refusedBranch regular_refusedBranch

end

end Node

end TalCash
