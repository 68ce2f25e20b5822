import TalCash.Node.Invalid
/-!
# Following a branch

What `switchTo` makes of a sound store: the chain with the branch on top
of its fork and the chunks that became final sealed, or the chain as it
was and a subtree marked invalid. Whatever it raises, the store is sound
afterwards; it raises only where the branch does not lead to the active
chain, or where the blocks are not `Regular`.
-/

namespace TalCash

open BlockFiles Ledger

variable [Primitives] {params : NetworkParams} {B : Set Block} {lim : ℕ} {s s' : Store}
variable {L L' : Ledger} {b block : Block} {r : HeaderRow} {id : Digest}

/-- What is assumed of the blocks where operations are shown to return:
SHA-256 has no collision among their messages and does not give the 32
zero bytes that genesis names as its parent, and their chunks can be
numbered in the file format. -/
structure Regular (params : NetworkParams) (B : Set Block) : Prop where
  collisionFree : CollisionFree (messagesOf B)
  blockId_ne : ∀ b ∈ B, b.blockId ≠ zeroBytes 32
  genesis : genesisBlock params ∈ B
  height_lt : ∀ h work, Ancestry params B h work →
    h.height + 1 < (256 ^ 4 + 1) * params.chunkSize + params.finalityDepth

/-- There is room for a block on a ledger of such blocks. -/
theorem fits_of_height_lt (hS : CollisionFree (messagesOf B)) (hc : ∀ b ∈ L.chain, b ∈ B)
    (hb : block ∈ B) (hh : block.height = L.chain.length)
    (hlt : block.height + 1 < (256 ^ 4 + 1) * params.chunkSize + params.finalityDepth) :
    Fits params L block := by
  refine ⟨?_, messagesOf B, hS, messages_subset hb, fun b hb => messages_subset (hc b hb)⟩
  have hle : (L.chain.length + 1) * params.maxBlockSize ≤
      ((256 ^ 4 + 1) * params.chunkSize + params.finalityDepth) * params.maxBlockSize :=
    Nat.mul_le_mul_right _ (by omega)
  have hsize := params.chunkSize_mul_le
  have hdepth := params.finalityDepth_mul_le
  rw [Nat.add_mul (_ * _), Nat.mul_assoc] at hle
  omega

/-! ## Rows of regular blocks -/

/-- The row of the parent of a stored block: they are one apart, and the
work of the one is that of the other and of the block. -/
theorem Rows.parent (hB : Regular params B) (h : Rows params B s)
    (hk : ∀ id r, s.db.headers.lookup id = some r → r.blockId = id) {p : HeaderRow}
    (hr : s.db.headers.lookup id = some r) (hp : s.db.headers.lookup r.header.prevId = some p) :
    r.height = p.height + 1 ∧ r.chainWork = p.chainWork + blockWork r.header.target := by
  have hpid := hk _ _ hp
  obtain ⟨ha, -⟩ := h id r hr
  obtain ⟨hap, -⟩ := h _ p hp
  rw [HeaderRow.height, HeaderRow.height]
  generalize r.header = header at *
  generalize r.chainWork = work at *
  cases ha with
  | genesis =>
    rw [genesisBlock_prevId] at hpid
    obtain ⟨c, hc, hch⟩ := hap.mem hB.genesis
    refine absurd ?_ (hB.blockId_ne c hc)
    rw [Block.blockId, hch]
    exact hpid
  | @child q work b hq hb hprev hheight =>
    have hqp : q = p.header := Ancestry.header_unique hB.collisionFree hB.genesis hq hap
      (hprev.symm.trans hpid.symm)
    subst hqp
    exact ⟨hheight, by rw [hq.work_unique hB.collisionFree hB.genesis hap]⟩

theorem Rows.graded (hB : Regular params B) (h : Rows params B s)
    (hk : ∀ id r, s.db.headers.lookup id = some r → r.blockId = id) : Graded s.db :=
  fun _ _ _ hr hp => (h.parent hB hk hr hp).1

/-- A branch is not longer than its end is high. -/
theorem Branch.length_le (hB : Regular params B) (hrows : Rows params B s)
    (hk : ∀ id r, s.db.headers.lookup id = some r → r.blockId = id) {ids : List Digest} {fork : ℕ}
    (h : Branch s.db r ids fork) (hr : s.db.headers.lookup r.blockId = some r) :
    ids.length + fork = r.height := by
  induction h with
  | on => exact Nat.zero_add _
  | @off r p ids fork _ hp _ ih =>
    have hpid := hk _ _ hp
    have := (hrows.parent hB hk hr hp).1
    have := ih (by rw [hpid]; exact hp)
    rw [List.length_cons]
    omega

/-- A row has at most one branch. -/
theorem Branch.unique {db : Db} {ids ids' : List Digest} {fork fork' : ℕ}
    (h : Branch db r ids fork) (h' : Branch db r ids' fork') : ids = ids' ∧ fork = fork' := by
  induction h generalizing ids' fork' with
  | on hon =>
    cases h' with
    | on => exact ⟨rfl, rfl⟩
    | off hoff => rw [hon] at hoff; cases hoff
  | off hoff hp _ ih =>
    cases h' with
    | on hon => rw [hon] at hoff; cases hoff
    | off _ hp' hb' =>
      rw [hp, Option.some.injEq] at hp'
      subst hp'
      obtain ⟨he, hf⟩ := ih hb'
      exact ⟨by rw [he], hf⟩

/-! ## The branch of a stored block -/

/-- The ledger up to a height. -/
theorem Ledger.Valid.truncate (h : Valid params L) {height : ℕ} (hh : height < L.chain.length) :
    ∃ L₀, Valid params L₀ ∧ L₀.chain <:+ L.chain ∧ L₀.chain.length = height + 1 := by
  induction h with
  | start =>
    have hlen : (Ledger.start params).chain.length = 1 := rfl
    exact ⟨_, .start, List.suffix_rfl, by omega⟩
  | @extend L L' block hv he ih =>
    obtain ⟨_, _, hx⟩ := extend_ok_iff.1 he
    rw [hx.chain] at hh ⊢
    rw [List.length_cons] at hh
    rcases Nat.lt_succ_iff_lt_or_eq.1 hh with hlt | heq
    · obtain ⟨L₀, hv₀, hs, hl⟩ := ih hlt
      exact ⟨L₀, hv₀, hs.trans (List.suffix_cons _ _), hl⟩
    · exact ⟨L', hv.extend he, by rw [hx.chain], by rw [hx.chain, List.length_cons, heq]⟩

/-- Ledgers below one ledger are one ledger where they have one length. -/
theorem Ledger.Valid.eq_of_suffix {L₀ L₁ : Ledger} (h₀ : Valid params L₀) (h₁ : Valid params L₁)
    (hs₀ : L₀.chain <:+ L.chain) (hs₁ : L₁.chain <:+ L.chain)
    (hl : L₀.chain.length = L₁.chain.length) : L₀ = L₁ :=
  h₀.eq_of_chain_eq h₁ ((List.suffix_of_suffix_length_le hs₀ hs₁ hl.le).eq_of_length hl)

/-- Stored blocks on top of a part of the active chain: the branch of a
stored block. -/
structure OnTop (params : NetworkParams) (B : Set Block) (s : Store) (L : Ledger) (r : HeaderRow)
    (L₀ : Ledger) (bs : List Block) : Prop where
  valid : Valid params L₀
  below : L₀.chain <:+ L.chain
  base : ∃ base rest, L₀.chain = base :: rest ∧ Follow base bs ∧
    ((base :: bs).getLast (List.cons_ne_nil _ _)).header = r.header
  branch : Branch s.db r (bs.map Block.blockId).reverse (L₀.chain.length - 1)
  stored : ∀ b ∈ bs, HasRow params B s b

theorem Sound.onTop (h : Sound params B s L) (hr : s.db.headers.lookup r.blockId = some r)
    {ids : List Digest} {fork : ℕ} (hb : Branch s.db r ids fork) :
    ∃ L₀ bs, OnTop params B s L r L₀ bs := by
  obtain ⟨base, hbase, hfork, bs, hids, hfollow, hall, hlast⟩ := hb.blocks h.good h.rows hr
  have hlt := h.good.valid.linked.height_lt hbase
  obtain ⟨L₀, hv₀, hs₀, hl₀⟩ := h.good.valid.truncate hlt
  refine ⟨L₀, bs, hv₀, hs₀, ?_, ?_, hall⟩
  · obtain ⟨c, rest, hc⟩ := List.exists_cons_of_ne_nil hv₀.chain_ne_nil
    have hcm : c ∈ L.chain := hs₀.mem (by rw [hc]; exact List.mem_cons_self)
    have hlink := hv₀.linked
    rw [hc] at hlink hl₀
    have hheight := hlink.head_height
    rw [List.length_cons] at hl₀
    have hcb : c = base := h.good.valid.linked.eq_of_height hcm hbase (by omega)
    subst hcb
    exact ⟨c, rest, hc, hfollow, hlast⟩
  · rw [hids, List.reverse_reverse, hl₀, Nat.add_sub_cancel, hfork]
    exact hb

theorem OnTop.branch_lt {L₀ : Ledger} {bs : List Block} (h : OnTop params B s L r L₀ bs) :
    L₀.chain.length - 1 < L.chain.length := by
  have := h.below.length_le
  have := List.length_pos_iff.2 h.valid.chain_ne_nil
  omega

/-- After some blocks of a branch, the next one names the newest block of
the ledger as its parent. -/
theorem OnTop.next {L₀ L₁ : Ledger} {pre post : List Block}
    (h : OnTop params B s L r L₀ (pre ++ b :: post)) (he : L₀.extendAll params pre = .ok L₁) :
    ∃ parent, L₁.chain.head? = some parent ∧ b.header.prevId = parent.blockId := by
  obtain ⟨base, rest, hL₀, hfollow, -⟩ := h.base
  obtain ⟨-, hc⟩ := h.valid.extendAll he
  unfold Follow at hfollow
  rw [← List.cons_append, List.isChain_append] at hfollow
  obtain ⟨-, -, hlink⟩ := hfollow
  refine ⟨(base :: pre).getLast (List.cons_ne_nil _ _), ?_,
    hlink _ (List.getLast?_eq_getLast_of_ne_nil _) b rfl⟩
  rw [hc, hL₀]
  cases pre using List.reverseRecOn with
  | nil => rfl
  | append_singleton pre c => simp

/-- What stopped a switch of regular blocks is a rule of the ledger. -/
theorem OnTop.stopped (hB : Regular params B) (hL : ∀ b ∈ L.chain, b ∈ B) {L₀ : Ledger}
    {bs : List Block} (h : OnTop params B s L r L₀ bs) (hrows : Rows params B s) {e : PyError}
    (hs : Good.Stopped params L₀ bs e) :
    ∃ pre b post L₁ v, bs = pre ++ b :: post ∧ L₀.extendAll params pre = .ok L₁ ∧
      (∀ L', L₁.extend params b ≠ .ok L') ∧ e = .connectFailed b.blockId v := by
  obtain ⟨pre, b, post, L₁, e', rfl, he, hrefused, rfl⟩ := hs
  obtain ⟨-, hc⟩ := h.valid.extendAll he
  have hbs : ∀ c ∈ pre ++ b :: post, c ∈ B := fun c hc => (h.stored c hc).mem
  obtain ⟨rb, hrb, hbody⟩ := (h.stored b (by simp)).row
  have hlt := hB.height_lt _ _ (hrows _ _ hrb).ancestry
  rw [← hbody.header] at hlt
  obtain ⟨⟨v, rfl⟩, hno⟩ := hrefused (h.next he) fun hh =>
    fits_of_height_lt hB.collisionFree (fun c hcm => by
      rw [hc, List.mem_append, List.mem_reverse] at hcm
      rcases hcm with hcm | hcm
      · exact hbs c (List.mem_append_left _ hcm)
      · exact hL c (h.below.mem hcm)) (hbs b (by simp)) hh hlt
  exact ⟨pre, b, post, L₁, v, rfl, he, hno, rfl⟩

/-! ## The switch and what follows it -/

/-- The store after a switch: the branch connected, then chunks sealed. -/
structure Switched (params : NetworkParams) (B : Set Block) (s s' : Store) (L₀ : Ledger)
    (bs : List Block) (L' : Ledger) : Prop where
  extended : L₀.extendAll params bs = .ok L'
  kept : ∃ s₁, Store.Kept (bs.map Block.blockId) s s₁ ∧ Good params B s.db.sealedChunks s₁ L' ∧
    Seals params B s₁ s' L'

/-- The store after a failed switch: the chain as it was, and what is
built on the refused block marked invalid. -/
structure Failed (params : NetworkParams) (B : Set Block) (s s' : Store) (L L₀ : Ledger)
    (bs : List Block) : Prop where
  sound : Sound params B s' L
  fresh : Fresh s'
  files : BlockFiles.Reading s.files s'.files
  marked : ∃ id, Marked [id] s.db s'.db ∧ (Regular params B → ∃ pre b post L₁, b.blockId = id ∧
    bs = pre ++ b :: post ∧ L₀.extendAll params pre = .ok L₁ ∧ ∀ L', L₁.extend params b ≠ .ok L')

theorem Marked.good {pending : List Digest} (hm : Marked pending s.db s'.db)
    (hf : s'.files = s.files) (h : Good params B lim s L) : Good params B lim s' L := by
  refine ⟨h.valid, h.tables.headersOnly hm.headersOnly, fun id r' hr' => ?_, fun b hb => ?_,
    fun id r' l hr' hl => ?_, hf ▸ h.files⟩
  · obtain ⟨r, hr, hh, -, -⟩ := hm.rows.lookup hr'
    rw [← h.keyed id r hr, HeaderRow.blockId, hh]
    rfl
  · obtain ⟨hB, r, hr, hb'⟩ := h.chain b hb
    obtain ⟨r', hr', hh, -, hl⟩ := hm.rows.symm.lookup hr
    exact ⟨hB, r', hr', by rw [hf]; exact hb'.samePlace ⟨hh.symm, hl.symm⟩⟩
  · obtain ⟨r, hr, -, -, hl'⟩ := hm.rows.lookup hr'
    exact h.located id r l hr (hl' ▸ hl)

theorem Marked.sound {pending : List Digest} (hm : Marked pending s.db s'.db)
    (hf : s'.files = s.files) (h : Sound params B s L) : Sound params B s' L := by
  refine ⟨?_, fun id r' hr' => ?_, ?_⟩
  · rw [hm.sealedChunks]; exact hm.good hf h.good
  · obtain ⟨r, hr, hh, hw, hl⟩ := hm.rows.lookup hr'
    obtain ⟨ha, b, hB, hc, hb⟩ := h.rows id r hr
    exact ⟨by rw [hh, hw]; exact ha, b, hB, hc, by rw [hf]; exact hb.samePlace ⟨hh, hl⟩⟩
  · rw [hm.sealedChunks]; exact h.sealed

/-- **Following a branch.** The branch becomes the chain or its refused
part invalid. An exception leaves the store sound; with regular blocks
there is none where the branch leads to the active chain. -/
theorem Sound.switchTo_spec (h : Sound params B s L) (hf : Fresh s)
    (hr : s.db.headers.lookup id = some r)
    (hfinal : ∀ ids fork, Branch s.db r ids fork →
      s.db.sealedChunks * params.chunkSize ≤ fork + 1) :
    Exec.wp (Store.switchTo params id)
      (fun res s' => ∃ L₀ bs, OnTop params B s L r L₀ bs ∧
        ((∃ L', Switched params B s s' L₀ bs L' ∧ res.outcome = .newTip ∧ res.connected = bs ∧
            L.chain = res.disconnected ++ L₀.chain) ∨
          Failed params B s s' L L₀ bs ∧ res.outcome = .invalid ∧ res.connected = [] ∧
            res.disconnected = []))
      (fun _ s' => (∃ L', Sound params B s' L' ∧ Fresh s') ∧
        (Regular params B → ∀ ids fork, ¬ Branch s.db r ids fork)) s := by
  have hid : r.blockId = id := h.good.keyed _ _ hr
  have hr' : s.db.headers.lookup r.blockId = some r := by rw [hid]; exact hr
  simp only [Store.switchTo, Exec.wp_bind, Exec.wp_get, Db.header, hr, Exec.wp_lift,
    Option.elim_some]
  refine ⟨?_, fun e he => ⟨⟨L, h, hf⟩, fun hB ids fork hb => ?_⟩⟩
  · rintro ⟨ids, fork⟩ hids
    obtain ⟨r₁, hr₁, hb⟩ := branch_of_branchFrom hids
    cases hr₁
    obtain ⟨L₀, bs, hon⟩ := h.onTop hr' hb
    obtain ⟨hids', hfork⟩ := hon.branch.unique hb
    have hlen : L₀.chain.length = fork + 1 := by
      have := List.length_pos_iff.2 hon.valid.chain_ne_nil
      omega
    have hforklt : fork < L.chain.length := by
      have := hon.below.length_le
      omega
    rw [← hids', List.reverse_reverse, Exec.wp_attempt]
    refine (h.good.switch_spec hforklt hon.stored).mono ?_ ?_
    · rintro ⟨connected, disconnected⟩ s₁ ⟨rfl, L₁, L', hchain, hl₁, hv₁, hall, hg, hk⟩
      have hL₁ : L₁ = L₀ := hv₁.eq_of_suffix hon.valid (hchain ▸ List.suffix_append _ _) hon.below
        (by rw [hl₁, hlen])
      subst hL₁
      obtain ⟨hv', hc'⟩ := hv₁.extendAll hall
      have hs₁ : Sound params B s₁ L' := h.kept hk hg (by
        have := hfinal ids fork hb
        rw [hc', List.length_append]
        omega)
      have hf₁ := hf.kept h hk
      simp only [Exec.wp_bind, Exec.wp_get]
      refine (hs₁.sealReadyChunks_spec _ hf₁).mono ?_ ?_
      · intro _ s₂ hseals
        exact Exec.wp_pure.2 ⟨L₁, connected, hon, Or.inl ⟨L', ⟨hall, s₁, hk, hg, hseals⟩, rfl, rfl, hchain⟩⟩
      · rintro e s₂ ⟨hseals, hlong⟩
        refine ⟨⟨L', hseals.sound, hseals.fresh⟩, fun hB => ?_⟩
        have htip := hg.tables.tipHeight hg.valid
        obtain ⟨top, rest, htop⟩ := List.exists_cons_of_ne_nil hv'.chain_ne_nil
        have hlink := hv'.linked
        rw [htop] at hlink
        have hheight := hlink.head_height
        obtain ⟨-, rt, hrt, hbt⟩ := hg.chain top (by rw [htop]; exact List.mem_cons_self)
        have hlt := hB.height_lt _ _ (hs₁.rows _ _ hrt).ancestry
        rw [← hbt.header] at hlt
        have := hlong (by omega)
        rw [htop, List.length_cons] at this
        rw [Block.height] at hheight
        omega
    · rintro e s₁ ⟨hread, L₁, hv₁, hs₁, hl₁, hstop⟩
      have hL₁ : L₁ = L₀ := hv₁.eq_of_suffix hon.valid hs₁ hon.below (by rw [hl₁, hlen])
      subst hL₁
      have hsound := h.reading hread
      have hfresh := hf.reading h hread
      have hrule : Regular params B → ∃ pre b post L₂ v, bs = pre ++ b :: post ∧
          L₁.extendAll params pre = .ok L₂ ∧ (∀ L', L₂.extend params b ≠ .ok L') ∧
          e = .connectFailed b.blockId v := fun hB =>
        hon.stopped hB (fun c hc => (h.good.chain c hc).1) h.rows hstop
      -- What is not a refused block goes on.
      have hother : (∀ id v, e ≠ .connectFailed id v) →
          (∃ L', Sound params B s₁ L' ∧ Fresh s₁) ∧
            (Regular params B → ∀ ids fork, ¬ Branch s.db r ids fork) := by
        refine fun hne => ⟨⟨L, hsound, hfresh⟩, fun hB => ?_⟩
        obtain ⟨_, b, _, _, v, -, -, -, he⟩ := hrule hB
        exact absurd he (hne b.blockId v)
      cases e with
      | connectFailed bad error =>
        simp only [Exec.wp_bind, Exec.wp_get, Store.transaction, Exec.wp_atomically, Store.writeDb,
          Exec.wp_lift, Exec.wp_set, Exec.wp_pure]
        refine ⟨fun db₂ hdb₂ => ?_, fun e he => ⟨⟨L, hsound, hfresh⟩, fun hB => ?_⟩⟩
        · have hm := marked_of_markInvalid hdb₂
          have hs₂ : Sound params B { s₁ with db := db₂ } L :=
            Marked.sound (s := s₁) hm rfl hsound
          refine ⟨L₁, bs, hon, Or.inr ⟨⟨hs₂, ?_, hread.files, bad, ?_, fun hB => ?_⟩, trivial,
            trivial, trivial⟩⟩
          · unfold Fresh
            change s₁.files.NoStale db₂.sealedChunks
            rw [hm.sealedChunks]
            exact hfresh
          · rw [← hread.db]; exact hm
          · obtain ⟨pre, b, post, L₂, v, hbs, hpre, hno, he⟩ := hrule hB
            cases he
            exact ⟨pre, b, post, L₂, rfl, hbs, hpre, hno⟩
        · obtain ⟨pre, b, post, L₂, v, hbs, -, -, hbad⟩ := hrule hB
          cases hbad
          obtain ⟨rb, hrb, -⟩ := (hon.stored b (by rw [hbs]; simp)).row
          rw [← hread.db] at hrb
          obtain ⟨db₂, hdb₂⟩ := markInvalid_isOk (hsound.rows.graded hB hsound.good.keyed) hrb
          rw [hdb₂] at he
          cases he
      | _ =>
        simp only [Exec.wp_throw]
        exact hother fun _ _ he => by cases he
  · have hle := hb.length_le hB h.rows h.good.keyed hr'
    rw [branchFrom_of_branch hb (by omega)] at he
    cases he

end TalCash
