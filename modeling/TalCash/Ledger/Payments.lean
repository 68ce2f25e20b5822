import TalCash.Ledger.Nonces
import TalCash.Ledger.Spares
/-!
# Transfers that go through

Transfers whose senders have the nonces for them, in their order, and the
coins (`Payable`) are carried out one after the other, whatever they pay
each other: an account that is not debited never loses anything. Where the
supply is in range nothing overflows either, so a block of such transfers
is applied (`Valid.applyBlock_isOk`).
-/

namespace TalCash

variable [Library]

/-- In their order, the transfers of each sender have the nonces from the
account's next one on, and the balance covers them all. -/
structure Payable (state : StateView) (txs : List Transfer) : Prop where
  nonce : ∀ a i x, (txs.filter fun x => x.sender = a)[i]? = some x → x.nonce = (state a).nonce + i
  covered : ∀ a, ((txs.filter fun x => x.sender = a).map Transfer.totalSpent).sum ≤
    (state a).balance

namespace Payable

variable {state state' : StateView} {tx : Transfer} {txs : List Transfer}

/-- Accounts that gained coins. -/
theorem gains (h : Payable state txs) (hgains : ∀ a, (state a).Gains (state' a)) :
    Payable state' txs where
  nonce a i x hx := by
    rw [(hgains a).1]
    exact h.nonce a i x hx
  covered a := (h.covered a).trans (hgains a).2

theorem filter_sender : (tx :: txs).filter (fun x => x.sender = tx.sender) =
    tx :: txs.filter fun x => x.sender = tx.sender := by
  simp

/-- The first transfer has the next nonce of a sender who can pay it. -/
theorem head (h : Payable state (tx :: txs)) :
    tx.nonce = (state tx.sender).nonce ∧ tx.totalSpent ≤ (state tx.sender).balance := by
  have hnonce := h.nonce tx.sender 0 tx (by rw [filter_sender]; rfl)
  have hcovered := h.covered tx.sender
  rw [filter_sender, List.map_cons, List.sum_cons] at hcovered
  exact ⟨hnonce, by omega⟩

/-- The others go through once the sender was debited. -/
theorem tail (h : Payable state (tx :: txs)) :
    Payable (Function.update state tx.sender
      ⟨(state tx.sender).balance - tx.totalSpent, (state tx.sender).nonce + 1⟩) txs := by
  have hfilter : ∀ {a}, a ≠ tx.sender →
      (tx :: txs).filter (fun x => x.sender = a) = txs.filter fun x => x.sender = a := by
    intro a ha
    rw [List.filter_cons_of_neg (by simpa using Ne.symm ha)]
  refine ⟨fun a i x hx => ?_, fun a => ?_⟩
  · by_cases ha : a = tx.sender
    · subst ha
      have hnonce := h.nonce _ (i + 1) x (by rw [filter_sender]; exact hx)
      rw [Function.update_self, hnonce]
      dsimp only
      omega
    · rw [Function.update_of_ne ha]
      exact h.nonce a i x (by rw [hfilter ha]; exact hx)
  · by_cases ha : a = tx.sender
    · subst ha
      have hcovered := h.covered tx.sender
      rw [filter_sender, List.map_cons, List.sum_cons] at hcovered
      rw [Function.update_self]
      dsimp only
      omega
    · rw [Function.update_of_ne ha, ← hfilter ha]
      exact h.covered a

end Payable

/-! ## Carrying them out -/

section

variable {o : Overlay}

omit [Library] in
theorem credit_isOk {a : Address} {n : ℕ} (h : o.supply + n ≤ MAX_AMOUNT) :
    ∃ o', o.credit a n = .ok o' := by
  have hle : (o.get a).balance ≤ o.supply := o.le_sum Account.balance a
  exact ⟨_, Overlay.credit_ok_iff.2 ⟨by omega, rfl⟩⟩

omit [Library] in
/-- Outputs that fit below the limit together are credited. -/
theorem creditOutputs_isOk : ∀ (outputs : List Output) {o : Overlay},
    o.supply + (outputs.map Output.amount).sum ≤ MAX_AMOUNT →
      ∃ o', creditOutputs o outputs = .ok o'
  | [], o, _ => ⟨o, rfl⟩
  | out :: rest, o, h => by
    rw [List.map_cons, List.sum_cons] at h
    obtain ⟨o₁, ho₁⟩ := credit_isOk (o := o) (a := out.address) (n := out.amount) (by omega)
    obtain ⟨o', ho'⟩ := creditOutputs_isOk rest (o := o₁)
      (by rw [Overlay.supply_credit ho₁]; omega)
    exact ⟨o', by rw [creditOutputs, ho₁]; exact ho'⟩

/-- **Transfers that are payable go through**, while the supply is in
range. -/
theorem Payable.applyTransfers : ∀ {txs : List Transfer} {o : Overlay} (fees : ℕ),
    Payable o.get txs → o.supply ≤ MAX_AMOUNT →
      ∃ o', applyTransfers o fees (txs.map .transfer) =
        .ok (o', fees + (txs.map Transfer.fee).sum)
  | [], o, fees, _, _ => ⟨o, rfl⟩
  | tx :: rest, o, fees, h, hle => by
    obtain ⟨hnonce, hspent⟩ := h.head
    have hset := Overlay.supply_set o tx.sender
      ⟨(o.get tx.sender).balance - tx.totalSpent, (o.get tx.sender).nonce + 1⟩
    have hpaid : tx.totalSpent = tx.paid + tx.fee := rfl
    obtain ⟨o₁, ho₁⟩ := creditOutputs_isOk tx.outputs
      (o := o.set tx.sender ⟨(o.get tx.sender).balance - tx.totalSpent,
        (o.get tx.sender).nonce + 1⟩) (by
          change _ + tx.paid ≤ _
          dsimp only at hset
          omega)
    have htx : applyTransfer o tx = .ok o₁ := applyTransfer_ok_iff.2 ⟨hnonce, hspent, ho₁⟩
    have hrest : Payable o₁.get rest := by
      refine h.tail.gains fun a => ?_
      rw [← Overlay.get_set_eq]
      exact grows_creditOutputs ho₁ a
    have hsupply := supply_applyTransfer htx
    obtain ⟨o', ho'⟩ := hrest.applyTransfers (fees + tx.fee) (by omega)
    refine ⟨o', ?_⟩
    rw [List.map_cons, TalCash.applyTransfers, htx, List.map_cons, List.sum_cons, ← Nat.add_assoc]
    exact ho'

end

/-! ## A block of such transfers -/

namespace Ledger

variable {params : NetworkParams} {L : Ledger} {block : Block} {ctx : BlockContext}

/-- The coinbase that is due is credited, while the supply is in range. -/
theorem Valid.matureCoinbase_isOk (h : Valid params L) (hctx : L.context params = .ok ctx)
    (hle : params.blockReward * L.chain.length ≤ MAX_AMOUNT) :
    ∃ o, matureCoinbase params L.chain.length ctx.maturedCoinbase
        { base := getAccount L.accounts } = .ok o ∧
      o.supply ≤ params.blockReward * L.chain.length := by
  obtain ⟨parent, hp⟩ := context_ok_iff.1 hctx
  have hmatured := hp.matured
  rw [h.parent_height hp] at hmatured
  have hsum := maturedAmount_eq hmatured
  have hsupply := h.supply
  have hstart : Overlay.supply { base := getAccount L.accounts } = balances L.accounts := rfl
  -- What is due is in the supply already, as a coinbase that has not matured.
  have hin : ∀ {o}, matureCoinbase params L.chain.length ctx.maturedCoinbase
      { base := getAccount L.accounts } = .ok o →
        o.supply ≤ params.blockReward * L.chain.length := by
    intro o ho
    have := supply_matureCoinbase ho
    omega
  rw [Ledger.matured] at hmatured
  split at hmatured
  · rename_i hdue
    split at hmatured
    · cases hmatured
    · rename_i b hb
      have hpos := params.coinbaseMaturity_pos
      obtain ⟨c, hc, hheight, -⟩ := (h.linked.checked (List.mem_of_getElem? hb)).coinbase
      have hbh := h.linked.height_eq hb
      rw [hc] at hmatured
      have hsome : ctx.maturedCoinbase = some c := (Except.ok.inj hmatured).symm
      rw [hsome] at hsum
      obtain ⟨o, ho⟩ := credit_isOk (o := { base := getAccount L.accounts }) (a := c.address)
        (n := c.amount) (by change _ = _ + c.amount at hsum; omega)
      have hmature : matureCoinbase params L.chain.length ctx.maturedCoinbase
          { base := getAccount L.accounts } = .ok o := by
        rw [hsome, matureCoinbase, if_pos hdue]
        dsimp only
        rw [if_neg (by omega)]
        exact ho
      exact ⟨o, hmature, hin hmature⟩
  · rename_i hdue
    have hnone : ctx.maturedCoinbase = none := (Except.ok.inj hmatured).symm
    have hmature : matureCoinbase params L.chain.length ctx.maturedCoinbase
        { base := getAccount L.accounts } = .ok { base := getAccount L.accounts } := by
      rw [hnone, matureCoinbase, if_neg hdue]
      rfl
    exact ⟨_, hmature, hin hmature⟩

/-- **A block of payable transfers is applied**, while the supply is in
range, where it keeps the rules that need no accounts and claims its fees. -/
theorem Valid.applyBlock_isOk (h : Valid params L) (hctx : L.context params = .ok ctx)
    (hheader : CheckedHeader block.header ctx) (hblock : CheckedBlock params block)
    (hpay : Payable (getAccount L.accounts) block.transfers)
    (hcoinbase : ∃ c, block.coinbase = .ok c ∧
      c.amount = params.blockReward + (block.transfers.map Transfer.fee).sum)
    (hle : params.blockReward * L.chain.length ≤ MAX_AMOUNT) :
    ∃ changes, applyBlock block ctx (getAccount L.accounts) params false = .ok changes := by
  obtain ⟨parent, hp⟩ := context_ok_iff.1 hctx
  have hheight : block.height = L.chain.length := by
    have hparent := h.parent_height hp
    have := hheader.height
    rw [hp.parent_eq] at this
    exact this.trans hparent
  obtain ⟨o, ho, hsupply⟩ := h.matureCoinbase_isOk hctx hle
  obtain ⟨o', ho'⟩ := (hpay.gains (grows_matureCoinbase ho)).applyTransfers 0 (by omega)
  refine ⟨⟨o'.accounts, o'.previous, (block.transfers.map Transfer.fee).sum⟩,
    applyBlock_ok_iff.2 ⟨hheader, hblock, ⟨o, o', ?_, ?_, rfl, rfl⟩, hcoinbase⟩⟩
  · rw [hheight]
    exact ho
  · rw [Nat.zero_add] at ho'
    exact ho'

end Ledger

end TalCash
