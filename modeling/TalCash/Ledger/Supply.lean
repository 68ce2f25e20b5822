import TalCash.Core.Sample
import TalCash.Ledger.Replay
/-!
# Conservation of supply

Every block mints its reward and nothing else: what the accounts hold,
together with the coinbases that have not matured, is one reward for each
block of the chain. The sum is followed through the overlay: a write
changes it at one address, a transfer moves its fee out of it, and the
coinbase takes the fees in again.
-/

namespace TalCash

instance finite_uint8 : Finite UInt8 := Finite.of_injective UInt8.toFin fun _ _ h => UInt8.toFin_inj.1 h

/-- There are finitely many addresses. -/
noncomputable instance fintypeAddress : Fintype Address := Fintype.ofFinite _

/-! ## What an overlay holds -/

namespace Overlay

variable {o o' : Overlay} {a : Address} {account : Account} {n : ℕ}

/-- The sum of a number over all accounts. -/
noncomputable def sum (f : Account → ℕ) (o : Overlay) : ℕ := ∑ a, f (o.get a)

/-- The sum of all balances. -/
noncomputable def supply (o : Overlay) : ℕ := o.sum Account.balance

/-- No balance is above the limit. -/
def Bounded (o : Overlay) : Prop := ∀ a, (o.get a).balance ≤ MAX_AMOUNT

theorem le_sum (f : Account → ℕ) (o : Overlay) (a : Address) : f (o.get a) ≤ o.sum f :=
  Finset.single_le_sum (f := fun a => f (o.get a)) (fun _ _ => Nat.zero_le _) (Finset.mem_univ a)

/-- A write changes a sum by the difference at its address. -/
theorem sum_set (f : Account → ℕ) (o : Overlay) (a : Address) (account : Account) :
    (o.set a account).sum f + f (o.get a) = o.sum f + f account := by
  have hnew := Finset.add_sum_erase Finset.univ (fun b => f ((o.set a account).get b))
    (Finset.mem_univ a)
  have hold := Finset.add_sum_erase Finset.univ (fun b => f (o.get b)) (Finset.mem_univ a)
  have hrest : ∑ b ∈ Finset.univ.erase a, f ((o.set a account).get b) =
      ∑ b ∈ Finset.univ.erase a, f (o.get b) :=
    Finset.sum_congr rfl fun b hb => by rw [get_set, if_neg (Finset.ne_of_mem_erase hb)]
  rw [get_set, if_pos rfl, hrest] at hnew
  unfold sum
  omega

theorem supply_set (o : Overlay) (a : Address) (account : Account) :
    (o.set a account).supply + (o.get a).balance = o.supply + account.balance :=
  sum_set Account.balance o a account

theorem Bounded.set (h : o.Bounded) (ha : account.balance ≤ MAX_AMOUNT) :
    (o.set a account).Bounded := by
  intro b
  rw [get_set]
  split
  · exact ha
  · exact h b

theorem supply_credit (h : o.credit a n = .ok o') : o'.supply = o.supply + n := by
  obtain ⟨-, rfl⟩ := credit_ok_iff.1 h
  have := supply_set o a ⟨(o.get a).balance + n, (o.get a).nonce⟩
  dsimp only at this
  omega

theorem Bounded.credit (hb : o.Bounded) (h : o.credit a n = .ok o') : o'.Bounded := by
  obtain ⟨hle, rfl⟩ := credit_ok_iff.1 h
  exact hb.set hle

end Overlay

section Transfers

variable {o o' : Overlay}

theorem supply_creditOutputs : ∀ {outputs : List Output} {o o' : Overlay},
    creditOutputs o outputs = .ok o' → o'.supply = o.supply + (outputs.map Output.amount).sum
  | [], _, _, h => by cases h; rfl
  | x :: rest, o, o', h => by
    unfold creditOutputs at h
    split at h
    · cases h
    · rename_i o₁ h₁
      rw [supply_creditOutputs h, Overlay.supply_credit h₁, List.map_cons, List.sum_cons]
      omega

variable [Library] {tx : Transfer}

/-- What a transfer takes from the accounts is its fee. -/
theorem supply_applyTransfer (h : applyTransfer o tx = .ok o') :
    o'.supply + tx.fee = o.supply := by
  obtain ⟨-, hle, hc⟩ := applyTransfer_ok_iff.1 h
  have hset := Overlay.supply_set o tx.sender
    ⟨(o.get tx.sender).balance - tx.totalSpent, (o.get tx.sender).nonce + 1⟩
  have hcredit := supply_creditOutputs hc
  have hspent : tx.totalSpent = (tx.outputs.map Output.amount).sum + tx.fee := rfl
  dsimp only at hset
  omega

theorem bounded_applyTransfer (hb : o.Bounded) (h : applyTransfer o tx = .ok o') :
    o'.Bounded := by
  obtain ⟨-, -, hc⟩ := applyTransfer_ok_iff.1 h
  refine creditOutputs_induct (P := Overlay.Bounded) (fun _ _ _ _ ho => ho.credit) ?_ hc
  exact hb.set ((Nat.sub_le _ _).trans (hb _))

/-- A run of transfers moves value from the accounts to the fees. -/
theorem supply_applyTransfers {txs : List Transaction} {fees fees' : ℕ}
    (h : applyTransfers o fees txs = .ok (o', fees')) :
    o'.supply + fees' = o.supply + fees := by
  refine applyTransfers_induct (P := fun p n => p.supply + n = o.supply + fees) ?_ rfl h
  intro p n tx p' hp ht
  have := supply_applyTransfer ht
  omega

theorem bounded_applyTransfers {txs : List Transaction} {fees fees' : ℕ} (hb : o.Bounded)
    (h : applyTransfers o fees txs = .ok (o', fees')) : o'.Bounded :=
  applyTransfers_induct (P := fun p _ => p.Bounded) (fun _ _ _ _ hp => bounded_applyTransfer hp)
    hb h

end Transfers

/-! ## The coinbase that matures -/

section Matured

variable {params : NetworkParams} {height : ℕ} {matured : Option Coinbase} {o o' : Overlay}

/-- What matures at a height. -/
def maturedAmount (matured : Option Coinbase) : ℕ := (matured.map Coinbase.amount).getD 0

theorem supply_matureCoinbase (h : matureCoinbase params height matured o = .ok o') :
    o'.supply = o.supply + maturedAmount matured := by
  unfold matureCoinbase at h
  dsimp only at h
  split at h
  · split at h
    · cases h
    · split at h
      · cases h
      · exact Overlay.supply_credit h
  · split at h
    · cases h
    · rename_i hnone
      rw [Option.not_isSome_iff_eq_none.1 hnone, ← Except.ok.inj h]
      rfl

theorem bounded_matureCoinbase (hb : o.Bounded) (h : matureCoinbase params height matured o = .ok o') :
    o'.Bounded := by
  unfold matureCoinbase at h
  dsimp only at h
  split at h
  · split at h
    · cases h
    · split at h
      · cases h
      · exact hb.credit h
  · split at h
    · cases h
    · rw [← Except.ok.inj h]
      exact hb

end Matured

/-! ## The ledger -/

section Applied

variable [Library] {params : NetworkParams} {block : Block} {ctx : BlockContext}
variable {changes : StateChanges} {accounts : Table Address Account}

/-- The sum of all balances. -/
noncomputable def balances (accounts : Table Address Account) : ℕ :=
  ∑ a, (getAccount accounts a).balance

/-- The amount of a block's coinbase. -/
def coinbaseAmount (b : Block) : ℕ :=
  match b.coinbase with
  | .ok c => c.amount
  | .error _ => 0

/-- **What a block does to the supply**: the coinbase that matures comes
in, the fees go into the block's own coinbase, and the reward is new. -/
theorem AppliedBlock.supply (h : AppliedBlock params block ctx (getAccount accounts) changes) :
    balances (writeRows changes.accounts.rows.reverse accounts) + coinbaseAmount block =
      balances accounts + maturedAmount ctx.maturedCoinbase + params.blockReward := by
  obtain ⟨o, o', ho⟩ := h.overlays
  have hmature := supply_matureCoinbase ho.mature
  have htransfers := supply_applyTransfers ho.transfers
  obtain ⟨c, hc, hamount⟩ := h.coinbase
  have hcoinbase : coinbaseAmount block = c.amount := by rw [coinbaseAmount, hc]
  have hend : balances (writeRows changes.accounts.rows.reverse accounts) = o'.supply :=
    Finset.sum_congr rfl fun a _ => by rw [ho.getAccount_eq]
  have hstart : Overlay.supply { base := getAccount accounts } = balances accounts := rfl
  omega

theorem AppliedBlock.bounded (h : AppliedBlock params block ctx (getAccount accounts) changes)
    (hb : ∀ a, (getAccount accounts a).balance ≤ MAX_AMOUNT) (a : Address) :
    (getAccount (writeRows changes.accounts.rows.reverse accounts) a).balance ≤ MAX_AMOUNT := by
  obtain ⟨o, o', ho⟩ := h.overlays
  have hstart : Overlay.Bounded { base := getAccount accounts } := hb
  rw [ho.getAccount_eq]
  exact bounded_applyTransfers (bounded_matureCoinbase hstart ho.mature) ho.transfers a

end Applied

namespace Ledger

variable [Library] {params : NetworkParams} {L L' : Ledger} {block : Block}

/-- The blocks whose coinbase has not matured: those above the height of
the tip less the maturity. -/
def unmatured (params : NetworkParams) (L : Ledger) : List Block :=
  L.chain.filter fun b => L.chain.length - 1 < b.height + params.coinbaseMaturity

omit [Library] in
theorem filter_eq_take {α : Type} {p : α → Bool} {n : ℕ} {l : List α}
    (h : ∀ i a, l[i]? = some a → (p a = true ↔ i < n)) : l.filter p = l.take n := by
  conv_lhs => rw [← List.take_append_drop n l]
  have htake : (l.take n).filter p = l.take n := by
    refine List.filter_eq_self.2 fun a ha => ?_
    obtain ⟨i, hi, rfl⟩ := List.mem_iff_getElem.1 ha
    rw [List.length_take] at hi
    rw [List.getElem_take]
    exact (h i _ (List.getElem?_eq_getElem (by omega))).2 (by omega)
  have hdrop : (l.drop n).filter p = [] := by
    refine List.filter_eq_nil_iff.2 fun a ha hp => ?_
    obtain ⟨i, hi, rfl⟩ := List.mem_iff_getElem.1 ha
    rw [List.length_drop] at hi
    rw [List.getElem_drop] at hp
    have := (h (n + i) _ (List.getElem?_eq_getElem (by omega))).1 hp
    omega
  rw [List.filter_append, htake, hdrop, List.append_nil]

theorem Valid.unmatured_eq (h : Valid params L) :
    L.unmatured params = L.chain.take params.coinbaseMaturity := by
  refine filter_eq_take fun i b hi => ?_
  have := h.linked.height_eq hi
  rw [decide_eq_true_eq]
  omega

omit [Library] in
/-- What matures on top of a chain is the coinbase of its oldest
block that has not matured, if there are enough of them. -/
theorem maturedAmount_eq {matured : Option Coinbase}
    (hm : L.matured params L.chain.length = .ok matured) :
    ((L.chain.take params.coinbaseMaturity).map coinbaseAmount).sum =
      ((L.chain.take (params.coinbaseMaturity - 1)).map coinbaseAmount).sum +
        maturedAmount matured := by
  have hpos := params.coinbaseMaturity_pos
  unfold Ledger.matured at hm
  split at hm
  · rename_i hle
    split at hm
    · cases hm
    · rename_i b hb
      cases hc : b.coinbase with
      | error e => rw [hc] at hm; cases hm
      | ok c =>
        rw [hc] at hm
        have htake := List.take_concat_get' L.chain (params.coinbaseMaturity - 1) (by omega)
        have hget : L.chain[params.coinbaseMaturity - 1] = b :=
          Option.some.inj ((List.getElem?_eq_getElem (by omega)).symm.trans hb)
        rw [hget, Nat.sub_add_cancel hpos] at htake
        have hamount : coinbaseAmount b = c.amount := by rw [coinbaseAmount, hc]
        rw [← htake, List.map_append, List.sum_append, List.map_singleton, List.sum_singleton,
          hamount, ← Except.ok.inj hm]
        rfl
  · rename_i hlt
    rw [← Except.ok.inj hm, List.take_of_length_le (by omega), List.take_of_length_le (by omega)]
    rfl

/-- The value of the whole ledger. -/
theorem Valid.supply (h : Valid params L) :
    balances L.accounts + ((L.chain.take params.coinbaseMaturity).map coinbaseAmount).sum =
      params.blockReward * L.chain.length := by
  induction h with
  | start =>
    have hpos := params.coinbaseMaturity_pos
    have hacc : balances (Ledger.start params).accounts = 0 :=
      Finset.sum_eq_zero fun a _ => rfl
    have hchain : (Ledger.start params).chain = [genesisBlock params] := rfl
    have hgenesis : coinbaseAmount (genesisBlock params) = params.blockReward := by
      rw [coinbaseAmount, Block.coinbase, genesisBlock_transactions]; rfl
    rw [hacc, hchain, List.take_of_length_le hpos, List.map_singleton,
      List.sum_singleton, hgenesis, List.length_singleton]
    omega
  | @extend L L' block hv he ih =>
    obtain ⟨ctx, changes, hx⟩ := extend_ok_iff.1 he
    obtain ⟨parent, hp⟩ := context_ok_iff.1 hx.context
    have hpos := params.coinbaseMaturity_pos
    have hmatured := hp.matured
    rw [hv.parent_height hp] at hmatured
    have hsum := maturedAmount_eq hmatured
    have hsupply := hx.applied.supply
    obtain ⟨m, hm⟩ : ∃ m, params.coinbaseMaturity = m + 1 := ⟨_, (Nat.sub_add_cancel hpos).symm⟩
    rw [hm, Nat.add_sub_cancel] at hsum
    rw [hm] at ih
    rw [hx.chain, hx.accounts, hm, List.take_succ_cons, List.map_cons, List.sum_cons,
      List.length_cons, Nat.mul_add, Nat.mul_one]
    omega

theorem Valid.balance_le (h : Valid params L) (a : Address) :
    (getAccount L.accounts a).balance ≤ MAX_AMOUNT := by
  induction h generalizing a with
  | start => exact Nat.zero_le _
  | extend _ he ih =>
    obtain ⟨_, _, hx⟩ := extend_ok_iff.1 he
    rw [hx.accounts]
    exact hx.applied.bounded ih a

end Ledger

namespace Ledger

attribute [local instance] Sample.primitives

end Ledger

end TalCash
