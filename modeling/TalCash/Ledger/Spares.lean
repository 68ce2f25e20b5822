import TalCash.Core.Sequential
import TalCash.Ledger.Replay
/-!
# Whom new blocks cost nothing

Of all accounts a block debits those of its senders only. So a chain that
grows leaves everybody else the nonce, and at least the balance
(`extendAll_spares`).
-/

namespace TalCash

variable [Library]

/-- An account that kept its nonce and lost nothing. -/
def Account.Gains (account account' : Account) : Prop :=
  account'.nonce = account.nonce ∧ account.balance ≤ account'.balance

/-- The senders of the transfers of some blocks. -/
def Senders (blocks : List Block) : Set Address :=
  {a | ∃ b ∈ blocks, ∃ x : Transfer, .transfer x ∈ b.transactions.tail ∧ x.sender = a}

/-- The accounts of other senders lost nothing. -/
def Spares (blocks : List Block) (state state' : StateView) : Prop :=
  ∀ a ∉ Senders blocks, (state a).Gains (state' a)

/-- Only the first transaction of a block is a coinbase. -/
def CoinbaseFirst (b : Block) : Prop := ∀ tx ∈ b.transactions.tail, ∃ x, tx = .transfer x

namespace Account.Gains

omit [Library] in
theorem refl (account : Account) : account.Gains account := ⟨rfl, le_rfl⟩

omit [Library] in
theorem trans {x y z : Account} (h : x.Gains y) (h' : y.Gains z) : x.Gains z :=
  ⟨h'.1.trans h.1, h.2.trans h'.2⟩

end Account.Gains

theorem CheckedBlock.tail {params : NetworkParams} {b : Block} (h : CheckedBlock params b) :
    b.transactions.tail = b.transfers.map .transfer := by
  obtain ⟨c, hc, -⟩ := h.transactions
  rw [hc, List.tail_cons]

theorem CheckedBlock.coinbaseFirst {params : NetworkParams} {b : Block}
    (h : CheckedBlock params b) : CoinbaseFirst b := by
  intro tx htx
  rw [h.tail] at htx
  obtain ⟨x, -, rfl⟩ := List.mem_map.1 htx
  exact ⟨x, rfl⟩

/-! ## One block -/

namespace Sequential

variable {m m' : Address → Account} {a : Address}

omit [Library] in
theorem credit_gains {b : Address} {n : ℕ} (h : credit m b n = some m') : (m a).Gains (m' a) := by
  unfold credit at h
  split at h
  · rw [← Option.some.inj h]
    by_cases ha : a = b
    · rw [ha, Function.update_self]
      exact ⟨rfl, Nat.le_add_right _ _⟩
    · rw [Function.update_of_ne ha]
      exact .refl _
  · cases h

omit [Library] in
theorem creditAll_gains : ∀ {outputs : List Output} {m m' : Address → Account},
    creditAll m outputs = some m' → (m a).Gains (m' a)
  | [], _, _, h => Option.some.inj h ▸ .refl _
  | o :: rest, m, m', h => by
    obtain ⟨m₁, h₁, h⟩ := Option.bind_eq_some_iff.1 h
    exact (credit_gains h₁).trans (creditAll_gains h)

theorem transfer_gains {tx : Transfer} (h : transfer m tx = some m') (ha : a ≠ tx.sender) :
    (m a).Gains (m' a) := by
  unfold transfer at h
  split at h
  · have hgains := creditAll_gains (a := a) h
    rw [Function.update_of_ne ha] at hgains
    exact hgains
  · cases h

theorem transfers_gains : ∀ {txs : List Transfer} {m m' : Address → Account},
    transfers m txs = some m' → a ∉ txs.map Transfer.sender → (m a).Gains (m' a)
  | [], _, _, h, _ => Option.some.inj h ▸ .refl _
  | tx :: rest, m, m', h, ha => by
    obtain ⟨m₁, h₁, h⟩ := Option.bind_eq_some_iff.1 h
    rw [List.map_cons, List.mem_cons, not_or] at ha
    exact (transfer_gains h₁ ha.1).trans (transfers_gains h ha.2)

/-- A block costs its senders only. -/
theorem process_gains {params : NetworkParams} {block : Block} {ctx : BlockContext}
    (h : process params block ctx m = some m') (ha : a ∉ block.transfers.map Transfer.sender) :
    (m a).Gains (m' a) := by
  obtain ⟨m₁, h₁, h⟩ := Option.bind_eq_some_iff.1 h
  refine Account.Gains.trans ?_ (transfers_gains h ha)
  unfold mature at h₁
  split at h₁
  · exact Option.some.inj h₁ ▸ .refl _
  · exact credit_gains h₁

end Sequential

/-! ## A chain that grows -/

namespace Spares

variable {blocks more : List Block} {state state' state'' : StateView}

theorem refl (state : StateView) : Spares [] state state := fun _ _ => .refl _

theorem trans (h : Spares blocks state state') (h' : Spares more state' state'') :
    Spares (blocks ++ more) state state'' := by
  intro a ha
  have hnot : ∀ {l : List Block}, (∀ b ∈ l, b ∈ blocks ++ more) → a ∉ Senders l := by
    intro l hl hs
    obtain ⟨b, hb, hx⟩ := hs
    exact ha ⟨b, hl b hb, hx⟩
  exact (h a (hnot fun b hb => List.mem_append_left _ hb)).trans
    (h' a (hnot fun b hb => List.mem_append_right _ hb))

end Spares

namespace Ledger

variable {params : NetworkParams} {L L' : Ledger} {block : Block}

theorem extend_spares (h : L.extend params block = .ok L') :
    Spares [block] (getAccount L.accounts) (getAccount L'.accounts) := by
  obtain ⟨ctx, changes, hext⟩ := extend_ok_iff.1 h
  have haccepts := applyBlock_accepted.2 changes (applyBlock_ok_iff.2 hext.applied)
  rw [← hext.accounts] at haccepts
  intro a ha
  refine Sequential.process_gains haccepts.process fun hs => ha ?_
  obtain ⟨x, hx, hxs⟩ := List.mem_map.1 hs
  refine ⟨block, List.mem_singleton_self _, x, ?_, hxs⟩
  rw [hext.applied.checked.tail]
  exact List.mem_map_of_mem hx

/-- **New blocks cost their senders only.** -/
theorem extendAll_spares : ∀ {blocks : List Block} {L L' : Ledger},
    L.extendAll params blocks = .ok L' →
      Spares blocks (getAccount L.accounts) (getAccount L'.accounts)
  | [], _, _, h => Except.ok.inj h ▸ .refl _
  | _ :: _, _, _, h => by
    obtain ⟨L₁, h₁, h⟩ := extendAll_cons.1 h
    exact (extend_spares h₁).trans (extendAll_spares h)

end Ledger

end TalCash
