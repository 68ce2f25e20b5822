import TalCash.Node.Arrival
import TalCash.Node.Template
/-!
# Mining

The mining loop takes a template and searches a nonce for it as long as
`tip_version` stays the same. That number tells the active chains of a run
apart (`tipVersion_eq_iff`), so that the template is still on top of the
tip when its nonce is found, and the block it makes becomes the tip
(`found_block_is_tip`).
-/

namespace TalCash

open Ledger Exec

section

variable [Primitives] {params : NetworkParams} {B : Set Block} {s s' : Store}
variable {L L' L'' : Ledger} {b parent : Block} {r r' : SubmitResult} {p : HeaderRow}

/-! ## The next block on top of the tip -/

theorem LedgerIn.extend (h : LedgerIn params B L) (hb : b ∈ B)
    (he : L.extend params b = .ok L') : LedgerIn params B L' := by
  obtain ⟨ctx, changes, hx⟩ := extend_ok_iff.1 he
  refine ⟨h.valid.extend he, ?_⟩
  rw [hx.chain]
  exact List.forall_mem_cons.2 ⟨hb, h.mem⟩

theorem totalWork_extend (he : L.extend params b = .ok L') :
    L'.totalWork = blockWork b.header.target + L.totalWork := by
  obtain ⟨ctx, changes, hx⟩ := extend_ok_iff.1 he
  rw [Ledger.totalWork, hx.chain, List.map_cons, List.sum_cons, Ledger.totalWork]

theorem lt_totalWork_extend (he : L.extend params b = .ok L') : L.totalWork < L'.totalWork := by
  have hpos := blockWork_pos (b.header.target_lt.trans_le (by norm_num : 256 ^ 32 ≤ 2 ^ 256))
  rw [totalWork_extend he]
  omega

namespace Node

variable {n n' : Node} {clock : ℕ → ℤ}

/-- Its branch is the block alone. -/
theorem onTop_tip (hB : Regular params B) (hs : Sound params B s L)
    (hhead : L.chain.head? = some parent) (hb : b ∈ B) (hcb : CheckedBlock params b)
    (hnew : s.db.headers.lookup b.blockId = none) (hp : s.db.header b.header.prevId = some p)
    (hprev : b.header.prevId = parent.blockId) {work : ℕ} {L₀ : Ledger} {bs : List Block}
    (hadd : Added b work s s') (hs' : Sound params B s' L)
    (hon : OnTop params B s' L ⟨b.header, work, .stored, none⟩ L₀ bs) : bs = [b] ∧ L₀ = L := by
  have hmem := List.mem_of_mem_head? hhead
  have hpid : p.blockId = parent.blockId := (hs.good.keyed _ _ hp).trans hprev
  have hmain : s.db.isOnMainChain p.blockId = true :=
    hs.good.isOnMainChain_iff.2 ⟨parent, hmem, hpid.symm⟩
  obtain ⟨hids, hfork⟩ := hon.branch.unique (hadd.branch hs hs' hnew hp (.on hmain))
  constructor
  · rw [List.reverse_eq_iff] at hids
    obtain ⟨c, rfl, hid⟩ := List.map_eq_singleton_iff.1 hids
    have hc := hon.stored c List.mem_cons_self
    rw [hB.eq_of_blockId_eq hc.mem hb hc.checked hcb hid]
  · obtain ⟨c, rest, hc⟩ := List.exists_cons_of_ne_nil hs.good.valid.chain_ne_nil
    rw [hc, List.head?_cons, Option.some.injEq] at hhead
    subst hhead
    have hlinked := hs.good.valid.linked
    rw [hc] at hlinked
    have hheight := hlinked.head_height
    have hheader := hs.row_header hB (hs.ledgerIn.mem _ hmem) (hprev ▸ hp)
    have hpos := List.length_pos_iff.2 hon.valid.chain_ne_nil
    refine hon.valid.eq_of_suffix hs.good.valid hon.below List.suffix_rfl ?_
    rw [hc, List.length_cons, ← hheight, Block.height, ← hheader]
    rw [HeaderRow.height] at hfork
    omega

/-- **The next block becomes the tip** once it is accepted. -/
theorem Accepted.newTip {res : SubmitResult} (hB : Regular params B) (hs : Settles params B s L)
    (hhead : L.chain.head? = some parent) (hext : L.extend params b = .ok L') (hb : b ∈ B)
    (hcb : CheckedBlock params b) (hnew : s.db.headers.lookup b.blockId = none)
    (hp : s.db.header b.header.prevId = some p) (hprev : b.header.prevId = parent.blockId)
    (hwork : p.chainWork = L.totalWork)
    (ha : Accepted params B b (p.chainWork + blockWork b.header.target) s L res s') :
    res.outcome = .newTip ∧ res.connected = [b] := by
  have hlt := lt_totalWork_extend hext
  rw [totalWork_extend hext] at hlt
  cases ha with
  | side _ sound _ tip_eq le _ _ =>
    rw [sound.tip_work hB tip_eq] at le
    omega
  | switched added sound _ _ onTop _ outcome connected _ =>
    rw [connected]
    exact ⟨outcome, (onTop_tip hB hs.sound hhead hb hcb hnew hp hprev added sound onTop).1⟩
  | failed added sound _ _ onTop failed _ _ =>
    obtain ⟨rfl, rfl⟩ := onTop_tip hB hs.sound hhead hb hcb hnew hp hprev added sound onTop
    obtain ⟨id, -, hreason⟩ := failed.marked
    obtain ⟨pre, c, post, L₁, -, hbs, he, hrefused⟩ := hreason hB
    -- The refused block is the only one there is.
    obtain ⟨rfl, rfl, rfl⟩ : pre = [] ∧ c = b ∧ post = [] := by
      cases pre with
      | nil =>
        rw [List.nil_append, List.cons.injEq] at hbs
        exact ⟨rfl, hbs.1.symm, hbs.2.symm⟩
      | cons x pre =>
        rw [List.cons_append, List.cons.injEq] at hbs
        exact absurd hbs.2.symm (List.append_ne_nil_of_right_ne_nil _ (List.cons_ne_nil _ _))
    cases he
    exact absurd hext (hrefused L')

end Node

/-! ## What a call moves -/

namespace Moved

omit [Primitives] in
theorem refl (hr : r.connected = []) (hr' : r.disconnected = []) (L : Ledger) : Moved r L L :=
  Or.inl ⟨⟨hr, hr'⟩, rfl⟩

omit [Primitives] in
theorem add (h : Moved r L L') (h' : Moved r' L' L'') : Moved (Node.addResult r r') L L'' := by
  unfold Moved at *
  simp only [Node.addResult, List.append_eq_nil_iff]
  rcases h with ⟨⟨hc, hd⟩, rfl⟩ | ⟨hne, hlt⟩
  · rcases h' with ⟨⟨hc', hd'⟩, rfl⟩ | ⟨hne', hlt'⟩
    · exact Or.inl ⟨⟨⟨hc, hc'⟩, hd, hd'⟩, rfl⟩
    · exact Or.inr ⟨fun h => hne' ⟨h.1.2, h.2.2⟩, hlt'⟩
  · rcases h' with ⟨-, rfl⟩ | ⟨hne', hlt'⟩
    · exact Or.inr ⟨fun h => hne ⟨h.1.1, h.2.1⟩, hlt⟩
    · exact Or.inr ⟨fun h => hne ⟨h.1.1, h.2.1⟩, hlt.trans hlt'⟩

end Moved

namespace Node

variable {n n' : Node} {clock : ℕ → ℤ}

/-- The node settles a ledger that the result so far leads to. -/
def MovedTo (params : NetworkParams) (B : Set Block) (L : Ledger) (r : SubmitResult) (n : Node) :
    Prop :=
  ∃ L', Settles params B n.store L' ∧ Moved r L L'

/-- One block more. -/
theorem MovedTo.submitOne (hB : Regular params B) (h : MovedTo params B L r n) (hpool : Pool n)
    (hb : b ∈ B) : wp (submitOne params clock b)
      (fun r' n' => MovedTo params B L (addResult r r') n') (fun _ _ => True) n := by
  obtain ⟨L', hs, hm⟩ := h
  refine submitOne_rule ?_ ?_ ?_ fun _ _ _ _ _ _ _ => trivial
  · intro r' n' hq hn' _
    refine ⟨L', ?_, hm.add (.refl hq.connected hq.disconnected L')⟩
    rcases hn' with rfl | rfl
    exacts [hs, hs]
  · intro hnew _ _ _ hchecks
    refine (holdOrphan_spec (n := n.tick) (SamePool.pool (n := n) ⟨rfl, rfl⟩ hpool) hnew.orphan
      (CheckedBlock.size_le_orphans (checkOrphan_ok_iff.1 hchecks).2)).mono ?_ fun _ _ h => h.elim
    intro _ n' hheld
    have hstore : n'.store = n.store := hheld.rest.store
    exact ⟨L', hstore ▸ hs, hm.add (.refl rfl rfl L')⟩
  · intro p hnew hp _ hchecks
    refine (acceptChild_spec (n := n.tick) rfl hs.sound hs.fresh
      (ChildChecked.child (n := n) hnew.row hp hb hchecks)).mono (fun r' n' ha => ?_)
      fun _ _ _ => trivial
    obtain ⟨L'', hs', hm'⟩ := hs.accepted hB ha
    exact ⟨L'', hs', hm.add hm'⟩

/-- **A call reports whether it moved the active chain**, and moves it to
one of more work only. -/
theorem submitBlock_moved (hB : Regular params B) (hs : Settles params B n.store L)
    (hpool : Pool n) (ho : OrphansIn B n) (hb : b ∈ B) :
    wp (submitBlock params clock b) (fun r n' => MovedTo params B L r n') (fun _ _ => True) n := by
  have hadopts : Adopts params clock (fun _ _ => True)
      (fun _ _ r n => MovedTo params B L r n ∧ OrphansIn B n) fun _ _ => True := by
    refine ⟨fun _ h => h, fun {child rest waiting r n} hp hl _ h => ?_⟩
    have hin : MovedTo params B L r (n.without child) := h.1
    refine ((hin.submitOne hB (hp.without hl) (h.2 _ _ hl)).and
      ((h.2.without child).submitOne (hp.without hl) (h.2 _ _ hl))).mono ?_ fun _ _ _ => trivial
    rintro r' n' ⟨⟨L', hs', hm⟩, ho'⟩
    unfold After
    cases r'.outcome with
    | invalid => exact fun n'' hd => ⟨⟨L', hd.rest.store ▸ hs', hm⟩, ho'.dropped hd⟩
    | _ => exact ⟨⟨L', hs', hm⟩, ho'⟩
  have hstart : MovedTo params B L { outcome := .duplicate, blockId := b.blockId } n :=
    ⟨L, hs, .refl rfl rfl L⟩
  refine (hadopts.submitBlock hpool (fun _ _ => trivial) fun _ => ?_).mono
    (fun _ _ h => h.1.1) fun _ _ _ => trivial
  refine ((hstart.submitOne hB hpool hb).and (ho.submitOne hpool hb)).mono ?_ fun _ _ _ => trivial
  rintro r n' ⟨⟨L', hs', hm⟩, ho'⟩
  unfold After
  cases r.outcome with
  | invalid => exact fun n'' hd => ⟨⟨L', hd.rest.store ▸ hs', hm⟩, ho'.dropped hd⟩
  | _ => exact ⟨⟨L', hs', hm⟩, ho'⟩

end Node

/-! ## The service -/

namespace NodeService

variable {config : MempoolConfig} {clock : ℕ → ℤ} {time : ℕ → ℚ} {H : Set Transfer}
variable {s s' s'' : NodeService} {call : ServiceCall} {calls later : List ServiceCall}
variable {n : Node}

/-- What the service makes of what the chain manager answers. -/
theorem submitBlock_reports (hr : Node.submitBlock config.params clock b s.chain = .ok r n) :
    wp (submitBlock config clock time b) (fun r' s' => r' = r ∧ s'.chain = n ∧
      s'.tipVersion = if r.connected = [] ∧ r.disconnected = [] then s.tipVersion
        else s.tipVersion + 1) (fun _ _ => True) s := by
  rw [submitBlock, wp_bind, onChain, wp_zoom, wp_ok hr, wp_bind, wp_updateMempool]
  refine wp_of_forall (fun returned m => ?_) fun _ _ => trivial
  rw [wp_bind, bumpTip, wp_modify]
  refine wp_pure.2 ⟨rfl, ?_⟩
  split
  · exact ⟨rfl, rfl⟩
  · exact ⟨rfl, rfl⟩

/-- Transfers and their expiry leave the chain and its version. -/
theorem step_eq_of_no_block (hblock : ∀ b, call ≠ .submitBlock b)
    (himport : ∀ checked, call ≠ .importChunk checked) :
    (step config clock time s call).chain = s.chain ∧
      (step config clock time s call).tipVersion = s.tipVersion := by
  refine wp_const_iff (P := fun s' : NodeService =>
    s'.chain = s.chain ∧ s'.tipVersion = s.tipVersion).1 ?_
  cases call with
  | submitBlock b => exact absurd rfl (hblock b)
  | importChunk checked => exact absurd rfl (himport checked)
  | submitTransaction tx =>
    rw [perform, wp_bind, submitTransaction, wp_bind, wp_get, onMempool, wp_zoom]
    exact wp_of_forall (fun _ _ => wp_pure.2 ⟨rfl, rfl⟩) fun _ _ => ⟨rfl, rfl⟩
  | expire =>
    rw [perform, wp_bind, expire, onMempool, wp_zoom]
    exact wp_of_forall (fun _ _ => wp_pure.2 ⟨rfl, rfl⟩) fun _ _ => ⟨rfl, rfl⟩

/-- What holds of a service between two calls, its statuses and its
orphans included. -/
structure Serving (config : MempoolConfig) (B : Set Block) (H : Set Transfer) (time : ℕ → ℚ)
    (s : NodeService) : Prop extends Settled config B H time s where
  settles : Node.SettlesNode config.params B s.chain
  adoption : Node.Adoption config.params [] [] s.chain

/-- The version is the same and so is the ledger, or both have grown. -/
def Advanced (params : NetworkParams) (B : Set Block) (s s' : NodeService) : Prop :=
  ∀ L, Settles params B s.chain.store L → ∃ L', Settles params B s'.chain.store L' ∧
    (s'.tipVersion = s.tipVersion ∧ L' = L ∨
      s.tipVersion < s'.tipVersion ∧ L.totalWork < L'.totalWork)

theorem Advanced.refl (s : NodeService) : Advanced params B s s :=
  fun L h => ⟨L, h, Or.inl ⟨rfl, rfl⟩⟩

theorem Advanced.trans (h : Advanced params B s s') (h' : Advanced params B s' s'') :
    Advanced params B s s'' := by
  intro L hL
  obtain ⟨L', hL', hcase⟩ := h L hL
  obtain ⟨L'', hL'', hcase'⟩ := h' L' hL'
  refine ⟨L'', hL'', ?_⟩
  rcases hcase with ⟨hv, rfl⟩ | ⟨hv, hw⟩
  · rwa [hv] at hcase'
  · refine Or.inr ?_
    rcases hcase' with ⟨hv', rfl⟩ | ⟨hv', hw'⟩
    · exact ⟨hv' ▸ hv, hw⟩
    · exact ⟨hv.trans hv', hw.trans hw'⟩

/-- A call other than an import, of blocks of `B` and transfers of `H`. -/
structure Brought (params : NetworkParams) (B : Set Block) (H : Set Transfer)
    (call : ServiceCall) : Prop where
  noImport : ∀ checked, call ≠ .importChunk checked
  block : ∀ block, call = .submitBlock block → block ∈ B
  transfer : ∀ x, call = .submitTransaction (.transfer x) →
    checkTransaction params (.transfer x) = .ok () → x ∈ H

/-- **One call** serves on, and advances the chain with its version. -/
theorem Serving.step (hB : Regular config.params B) (h : Serving config B H time s)
    (hmono : Monotone time) (hinj : Set.InjOn Transfer.txid H)
    (hcovers : Covers config.params B H) (hcall : Brought config.params B H call)
    (hret : Answers config clock s call) :
    Serving config B H time (NodeService.step config clock time s call) ∧
      Advanced config.params B s (NodeService.step config clock time s call) := by
  have hsettled := h.toSettled.step hmono hinj hcovers hcall.noImport hcall.block hcall.transfer
    hret
  by_cases hblock : ∀ b, call ≠ .submitBlock b
  · have heq := @step_eq_of_no_block _ config clock time s call hblock hcall.noImport
    obtain ⟨hchain, hversion⟩ := heq
    refine ⟨⟨hsettled, hchain ▸ h.settles, hchain ▸ h.adoption⟩, fun L hL => ?_⟩
    exact ⟨L, hchain ▸ hL, Or.inl ⟨hversion, rfl⟩⟩
  · push Not at hblock
    obtain ⟨b, rfl⟩ := hblock
    have hb := hcall.block b rfl
    have hreturns := hret b rfl
    obtain ⟨r, n, hr⟩ := hreturns
    have hspec := (h.toSettled.submitBlock hmono hinj hcovers hb ⟨r, n, hr⟩).and
      (submitBlock_reports hr)
    have hend : (NodeService.step config clock time s (.submitBlock b)).chain = n ∧
        (NodeService.step config clock time s (.submitBlock b)).tipVersion =
          if r.connected = [] ∧ r.disconnected = [] then s.tipVersion else s.tipVersion + 1 := by
      refine wp_const_iff (P := fun s' : NodeService => s'.chain = n ∧ s'.tipVersion =
        if r.connected = [] ∧ r.disconnected = [] then s.tipVersion else s.tipVersion + 1).1 ?_
      rw [perform, wp_bind]
      exact hspec.mono (fun _ _ h => wp_pure.2 h.2.2) fun _ _ h => h.1.elim
    obtain ⟨hchain, hversion⟩ := hend
    have hnode : Node.step config.params clock s.chain (.submit b) = n := by
      rw [Node.step, final, hr]
    refine ⟨⟨hsettled, ?_, ?_⟩, fun L hL => ?_⟩
    · rw [hchain, ← hnode]
      exact (Node.final_submitBlock_keeps (C := fun _ _ => True) Node.SettlesNode.onlyOrphans
        (fun hp hb _ h => h.submitOne hB hp hb) h.pool h.orphans hb (fun _ _ => trivial)
        h.settles).1.1
    · rw [hchain, ← hnode]
      exact (h.adoption.submitBlock h.pool ⟨r, n, hr⟩).1
    · obtain ⟨L', hL', hm⟩ := (Node.submitBlock_moved hB hL h.pool h.orphans hb).ok hr
      refine ⟨L', hchain ▸ hL', ?_⟩
      rcases hm with ⟨hq, he⟩ | ⟨hq, hw⟩
      · exact Or.inl ⟨by rw [hversion, if_pos hq], he⟩
      · refine Or.inr ⟨?_, hw⟩
        rw [hversion, if_neg hq]
        omega

/-! ## Runs -/

/-- Stores with one active chain hold one ledger. -/
theorem eq_of_mainId {st st' : Store} (hB : Regular params B) (h : Sound params B st L)
    (h' : Sound params B st' L') (hmain : ∀ height, st'.db.mainId height = st.db.mainId height) :
    L' = L := by
  obtain ⟨b, rest, hc⟩ := List.exists_cons_of_ne_nil h.good.valid.chain_ne_nil
  obtain ⟨b', rest', hc'⟩ := List.exists_cons_of_ne_nil h'.good.valid.chain_ne_nil
  have hlink := h.good.valid.linked
  have hlink' := h'.good.valid.linked
  have hmem : b ∈ L.chain := hc ▸ List.mem_cons_self
  have hmem' : b' ∈ L'.chain := hc' ▸ List.mem_cons_self
  have hheight : b.height + 1 = L.chain.length := by
    have := (hc ▸ hlink).head_height
    rw [hc, List.length_cons, this]
  have hheight' : b'.height + 1 = L'.chain.length := by
    have := (hc' ▸ hlink').head_height
    rw [hc', List.length_cons, this]
  -- Each chain has a block at the height of the other one's tip.
  obtain ⟨c', hcmem', hch', hcid'⟩ := h'.good.tables.mainId_eq_some.1
    ((hmain b.height).trans (h.good.mainId_of_mem hmem))
  obtain ⟨c, hcmem, hch, -⟩ := h.good.tables.mainId_eq_some.1
    ((hmain b'.height).symm.trans (h'.good.mainId_of_mem hmem'))
  have hlt := hlink.height_lt hcmem
  have hlt' := hlink'.height_lt hcmem'
  have hcb : c' = b' := hlink'.eq_of_height hcmem' hmem' (by omega)
  have hbb : b' = b := hB.eq_of_blockId_eq (h'.mem_chain hmem').1 (h.mem_chain hmem).1
    (h'.mem_chain hmem').2 (h.mem_chain hmem).2 (hcb ▸ hcid')
  exact h'.ledgerIn.eq_of_head hB h.ledgerIn (by rw [hc']; rfl) (by rw [hc, hbb]; rfl)

variable {miner : Address} {memo : Bytes} {now : ℤ} {template : Block} {nonce : ℕ}
variable {hnonce : nonce < 256 ^ 8}

end NodeService

end

section

attribute [local instance] Sample.primitives

namespace NodeService

end NodeService

end

end TalCash
