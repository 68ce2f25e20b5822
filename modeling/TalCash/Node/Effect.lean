import TalCash.Ledger.Spares
import TalCash.Node.Keeping
/-!
# What a call reports

`submit_block` answers with the blocks it connected and those it
disconnected. They account for the ledger the node holds afterwards
(`submitBlock_turned`): where no block was disconnected, the ones connected
extend the ledger from before, in their order.
-/

namespace TalCash

open Ledger

variable [Primitives] {params : NetworkParams} {B : Set Block} {L L' L'' : Ledger}

/-- The blocks connected and disconnected lead from one ledger to another. -/
structure Turned (params : NetworkParams) (B : Set Block) (L L' : Ledger)
    (connected disconnected : List Block) : Prop where
  extended : disconnected = [] → L.extendAll params connected = .ok L'
  blocks : ∀ c ∈ connected ++ disconnected, c ∈ B ∧ CheckedBlock params c

namespace Turned

variable {connected connected' disconnected disconnected' : List Block}

theorem refl (L : Ledger) : Turned params B L L [] [] := ⟨fun _ => rfl, fun _ h => by cases h⟩

theorem trans (h : Turned params B L L' connected disconnected)
    (h' : Turned params B L' L'' connected' disconnected') :
    Turned params B L L'' (connected ++ connected') (disconnected ++ disconnected') := by
  refine ⟨fun hd => ?_, fun c hc => ?_⟩
  · obtain ⟨hd₁, hd₂⟩ := List.append_eq_nil_iff.1 hd
    exact extendAll_append.2 ⟨L', h.extended hd₁, h'.extended hd₂⟩
  · simp only [List.mem_append] at hc
    rcases hc with (hc | hc) | hc | hc
    · exact h.blocks c (List.mem_append_left _ hc)
    · exact h'.blocks c (List.mem_append_left _ hc)
    · exact h.blocks c (List.mem_append_right _ hc)
    · exact h'.blocks c (List.mem_append_right _ hc)

/-- The ledger is the same where nothing was connected or disconnected. -/
theorem eq_of_nil (h : Turned params B L L' [] []) : L' = L :=
  (Except.ok.inj (h.extended rfl)).symm

/-- Where no block was disconnected, those connected cost their senders
only. -/
theorem spares (h : Turned params B L L' connected disconnected) (hd : disconnected = []) :
    Spares connected (getAccount L.accounts) (getAccount L'.accounts) :=
  extendAll_spares (h.extended hd)

end Turned

variable {s s' : Store} {b : Block} {r : SubmitResult}

/-- The blocks of a ledger that a store holds. -/
theorem Sound.mem_chain (h : Sound params B s L) (hb : b ∈ L.chain) :
    b ∈ B ∧ CheckedBlock params b :=
  ⟨(h.good.chain b hb).1, h.good.valid.linked.checked hb⟩

/-- **What accepting a block reports** is what it did. -/
theorem Accepted.turned {work : ℕ} (h : Accepted params B b work s L r s')
    (hs : Sound params B s L) :
    ∃ L', Sound params B s' L' ∧ Fresh s' ∧ Turned params B L L' r.connected r.disconnected := by
  cases h with
  | side _ hs' hf _ _ hq _ =>
    rw [hq.connected, hq.disconnected]
    exact ⟨L, hs', hf, .refl L⟩
  | failed _ _ _ _ _ hfailed hq _ =>
    rw [hq.connected, hq.disconnected]
    exact ⟨L, hfailed.sound, hfailed.fresh, .refl L⟩
  | @switched _ _ _ _ L₀ L' bs _ _ _ _ onTop switched _ hc hd =>
    obtain ⟨_, _, _, hseals⟩ := switched.kept
    refine ⟨L', hseals.sound, hseals.fresh, fun hnil => ?_, fun c hmem => ?_⟩
    · rw [hnil, List.nil_append] at hd
      rw [hc, hs.good.valid.eq_of_chain_eq onTop.valid hd]
      exact switched.extended
    · rw [hc] at hmem
      rcases List.mem_append.1 hmem with hmem | hmem
      · refine hseals.sound.mem_chain ?_
        rw [(onTop.valid.extendAll switched.extended).2]
        exact List.mem_append_left _ (List.mem_reverse.2 hmem)
      · exact hs.mem_chain (hd ▸ List.mem_append_left _ hmem)

namespace Node

variable {clock : ℕ → ℤ} {n n' : Node} {blocks : List Block}

/-- The node holds a ledger to which the blocks reported lead. -/
def Reported (params : NetworkParams) (B : Set Block) (L : Ledger) (r : SubmitResult) (n : Node) :
    Prop :=
  ∃ L', Sound params B n.store L' ∧ Fresh n.store ∧
    Turned params B L L' r.connected r.disconnected

theorem Reported.of_store (h : Reported params B L r n) (hstore : n'.store = n.store) :
    Reported params B L r n' := by
  unfold Reported
  rw [hstore]
  exact h

/-- One block more. -/
theorem Reported.submitOne (h : Reported params B L r n) (hp : Pool n) (hb : b ∈ B) :
    Exec.wp (submitOne params clock b) (fun r' n' => Reported params B L (addResult r r') n')
      (fun _ _ => True) n := by
  have hquiet : ∀ {r' n'}, Quiet r' → n'.store = n.store →
      Reported params B L (addResult r r') n' := by
    intro r' n' hq hstore
    refine Reported.of_store ?_ hstore
    unfold Reported addResult
    rw [hq.connected, hq.disconnected, List.append_nil, List.append_nil]
    exact h
  refine submitOne_rule ?_ ?_ ?_ fun _ _ _ _ _ _ _ => trivial
  · rintro r' n' hq (rfl | rfl) -
    exacts [hquiet hq rfl, hquiet hq rfl]
  · intro hnew _ _ _ hchecks
    refine (holdOrphan_spec (n := n.tick) (SamePool.pool (n := n) ⟨rfl, rfl⟩ hp) hnew.orphan
      (CheckedBlock.size_le_orphans (checkOrphan_ok_iff.1 hchecks).2)).mono ?_ fun _ _ h => h.elim
    exact fun _ n' hheld => hquiet ⟨rfl, rfl⟩ hheld.rest.store
  · intro p hnew hparent _ hchecks
    obtain ⟨L₁, hs, hf, hturned⟩ := h
    refine (acceptChild_spec (n := n.tick) rfl hs hf
      (ChildChecked.child (n := n) hnew.row hparent hb hchecks)).mono ?_ fun _ _ _ => trivial
    intro r' n' haccepted
    obtain ⟨L', hs', hf', hturned'⟩ := haccepted.turned hs
    exact ⟨L', hs', hf', hturned.trans hturned'⟩

/-- The report so far, while orphans are adopted. -/
theorem adopts_reported : Adopts params clock (fun _ _ => True)
    (fun _ _ r n => Reported params B L r n ∧ OrphansIn B n) fun _ _ => True := by
  refine ⟨fun _ h => h, fun {child rest waiting r n} hp hl _ h => ?_⟩
  have hin : Reported params B L r (n.without child) := h.1.of_store rfl
  refine ((hin.submitOne (hp.without hl) (h.2 _ _ hl)).and
    ((h.2.without child).submitOne (hp.without hl) (h.2 _ _ hl))).mono ?_ fun _ _ _ => trivial
  rintro r' n' hn'
  unfold After
  cases r'.outcome with
  | invalid => exact fun n'' hd => ⟨hn'.1.of_store hd.rest.store, hn'.2.dropped hd⟩
  | _ => exact hn'

/-- **What `submit_block` reports** leads from the ledger before to the one
after. -/
theorem submitBlock_turned (hs : Sound params B n.store L) (hf : Fresh n.store) (hp : Pool n)
    (ho : OrphansIn B n) (hb : b ∈ B) :
    Exec.wp (submitBlock params clock b)
      (fun r n' => Reported params B L r n' ∧ OrphansIn B n' ∧ Pool n') (fun _ _ => True) n := by
  have hstart : Reported params B L { outcome := .duplicate, blockId := b.blockId } n :=
    ⟨L, hs, hf, .refl L⟩
  refine (adopts_reported.submitBlock hp (fun _ _ => trivial) fun _ => ?_).mono
    (fun _ _ h => ⟨h.1.1, h.1.2, h.2⟩) fun _ _ _ => trivial
  refine ((hstart.submitOne hp hb).and (ho.submitOne hp hb)).mono ?_ fun _ _ _ => trivial
  rintro r n' hn'
  unfold After
  cases r.outcome with
  | invalid => exact fun n'' hd => ⟨hn'.1.of_store hd.rest.store, hn'.2.dropped hd⟩
  | _ => exact hn'

end Node

end TalCash
