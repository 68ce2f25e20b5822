import TalCash.Core.Sample
/-!
# The ledger as a sequential process

What a block is for, on a map of all accounts and without an overlay: the
coinbase that is due is credited, and the transfers are carried out one
after the other. `applyBlock` reads through an overlay and records the
first previous values; reading the overlay is the map of the process
(`applyTransfers_eq`), whichever addresses coincide.
-/

namespace TalCash

section

variable [Library]

/-! ## The process -/

namespace Sequential

omit [Library] in
/-- One credit, up to the limit of a balance. -/
def credit (m : Address → Account) (address : Address) (amount : ℕ) :
    Option (Address → Account) :=
  if (m address).balance + amount ≤ MAX_AMOUNT then
    some (Function.update m address ⟨(m address).balance + amount, (m address).nonce⟩)
  else none

/-- The outputs of a transfer, one by one. -/
def creditAll (m : Address → Account) : List Output → Option (Address → Account)
  | [] => some m
  | o :: rest => (credit m o.address o.amount).bind fun m => creditAll m rest

/-- A transfer: the next nonce of a sender who can pay it. -/
def transfer (m : Address → Account) (tx : Transfer) : Option (Address → Account) :=
  if tx.nonce = (m tx.sender).nonce ∧ tx.totalSpent ≤ (m tx.sender).balance then
    creditAll (Function.update m tx.sender
      ⟨(m tx.sender).balance - tx.totalSpent, (m tx.sender).nonce + 1⟩) tx.outputs
  else none

/-- The transfers in order. -/
def transfers (m : Address → Account) : List Transfer → Option (Address → Account)
  | [] => some m
  | tx :: rest => (transfer m tx).bind fun m => transfers m rest

/-- The coinbase of the context, if one is due at the height. -/
def mature (params : NetworkParams) (height : ℕ) (matured : Option Coinbase)
    (m : Address → Account) : Option (Address → Account) :=
  match matured.filter fun _ => params.coinbaseMaturity ≤ height with
  | none => some m
  | some c => credit m c.address c.amount

/-- The whole process of a block. -/
def process (params : NetworkParams) (block : Block) (ctx : BlockContext)
    (m : Address → Account) : Option (Address → Account) :=
  (mature params block.height ctx.maturedCoinbase m).bind fun m => transfers m block.transfers

end Sequential

/-- The context supplies the coinbase that is due at a height, and none
where none is due. -/
def SuppliesDue (params : NetworkParams) (height : ℕ) (matured : Option Coinbase) : Prop :=
  if params.coinbaseMaturity ≤ height then
    ∃ c, matured = some c ∧ c.height = height - params.coinbaseMaturity
  else matured = none

/-! ## The overlay reads as the map -/

namespace Overlay

omit [Library] in
theorem get_set_eq (o : Overlay) (a : Address) (account : Account) :
    (o.set a account).get = Function.update o.get a account := by
  funext b
  rw [get_set, Function.update_apply]

omit [Library] in
theorem credit_eq (o : Overlay) (a : Address) (n : ℕ) :
    (o.credit a n).toOption.map Overlay.get = Sequential.credit o.get a n := by
  unfold credit Sequential.credit
  by_cases h : (o.get a).balance + n ≤ MAX_AMOUNT
  · rw [if_neg (not_lt.2 h), if_pos h, ← get_set_eq]
    rfl
  · rw [if_pos (not_le.1 h), if_neg h]
    rfl

end Overlay

omit [Library] in
theorem creditOutputs_eq : ∀ (outputs : List Output) (o : Overlay),
    (creditOutputs o outputs).toOption.map Overlay.get = Sequential.creditAll o.get outputs
  | [], _ => rfl
  | x :: rest, o => by
    have hx := o.credit_eq x.address x.amount
    rw [creditOutputs, Sequential.creditAll, ← hx]
    cases o.credit x.address x.amount with
    | error e => rfl
    | ok o₁ => exact creditOutputs_eq rest o₁

theorem applyTransfer_eq (o : Overlay) (tx : Transfer) :
    (applyTransfer o tx).toOption.map Overlay.get = Sequential.transfer o.get tx := by
  unfold applyTransfer Sequential.transfer
  dsimp only
  by_cases hn : tx.nonce = (o.get tx.sender).nonce
  · by_cases hb : tx.totalSpent ≤ (o.get tx.sender).balance
    · rw [if_neg (not_not.2 hn), if_neg (not_lt.2 hb), if_pos ⟨hn, hb⟩, creditOutputs_eq,
        Overlay.get_set_eq]
    · rw [if_neg (not_not.2 hn), if_pos (not_le.1 hb), if_neg fun h => hb h.2]
      rfl
  · rw [if_pos hn, if_neg fun h => hn h.1]
    rfl

/-- **A run of transfers is the sequential process**, read through the
overlay, and its fees are those of the transfers. -/
theorem applyTransfers_eq : ∀ (txs : List Transfer) (o : Overlay) (fees : ℕ),
    (applyTransfers o fees (txs.map .transfer)).toOption.map (fun r => (r.1.get, r.2)) =
      (Sequential.transfers o.get txs).map fun m => (m, fees + (txs.map Transfer.fee).sum)
  | [], _, _ => rfl
  | tx :: rest, o, fees => by
    have htx := applyTransfer_eq o tx
    rw [List.map_cons, applyTransfers, Sequential.transfers, ← htx]
    cases applyTransfer o tx with
    | error e => rfl
    | ok o₁ =>
      dsimp only
      rw [applyTransfers_eq rest o₁ (fees + tx.fee), List.map_cons, List.sum_cons, Nat.add_assoc]
      rfl

omit [Library] in
/-- The coinbase matures where the context supplies what is due, and then
as in the process. -/
theorem matureCoinbase_eq (params : NetworkParams) (height : ℕ) (matured : Option Coinbase)
    (o : Overlay) :
    (SuppliesDue params height matured →
      (matureCoinbase params height matured o).toOption.map Overlay.get =
        Sequential.mature params height matured o.get) ∧
    (¬ SuppliesDue params height matured →
      (matureCoinbase params height matured o).toOption = none) := by
  unfold SuppliesDue matureCoinbase Sequential.mature
  by_cases hd : params.coinbaseMaturity ≤ height
  · simp only [if_pos hd]
    cases matured with
    | none =>
      refine ⟨?_, fun _ => rfl⟩
      rintro ⟨c, hc, -⟩
      cases hc
    | some c =>
      simp only [hd, decide_true, Option.filter_some, Option.some.injEq]
      refine ⟨?_, fun hne => ?_⟩
      · rintro ⟨c', rfl, hc⟩
        rw [if_neg (not_not.2 hc)]
        exact o.credit_eq _ _
      · rw [if_pos fun hc => hne ⟨c, rfl, hc⟩]
        rfl
  · simp only [if_neg hd]
    cases matured with
    | none => exact ⟨fun _ => rfl, fun hne => absurd rfl hne⟩
    | some c =>
      refine ⟨?_, fun _ => rfl⟩
      intro hc
      cases hc

/-! ## A block -/

/-- What the protocol demands of a block on a map of accounts, and the map
it leads to. -/
structure Sequential.Accepts (params : NetworkParams) (block : Block) (ctx : BlockContext) (checkPow : Bool)
    (m m' : Address → Account) : Prop where
  header : checkHeader block.header ctx params checkPow = .ok ()
  stateless : checkBlock params block = .ok ()
  supplies : SuppliesDue params block.height ctx.maturedCoinbase
  process : Sequential.process params block ctx m = some m'
  coinbase : ∃ c, block.coinbase = .ok c ∧
    c.amount = params.blockReward + (block.transfers.map Transfer.fee).sum

/-- The run over the overlay succeeds where the process does, and its last
overlay reads as the map of the process. -/
theorem exists_overlays_iff {params : NetworkParams} {block : Block} {ctx : BlockContext}
    {state m' : Address → Account} {fees : ℕ} :
    (∃ o o' : Overlay,
      matureCoinbase params block.height ctx.maturedCoinbase { base := state } = .ok o ∧
      applyTransfers o 0 (block.transfers.map .transfer) = .ok (o', fees) ∧ o'.get = m') ↔
    SuppliesDue params block.height ctx.maturedCoinbase ∧
      Sequential.process params block ctx state = some m' ∧
      fees = (block.transfers.map Transfer.fee).sum := by
  obtain ⟨hdue, hnot⟩ := matureCoinbase_eq params block.height ctx.maturedCoinbase
    { base := state }
  have hstart : Overlay.get { base := state } = state := rfl
  constructor
  · rintro ⟨o, o', ho, ho', rfl⟩
    have hs : SuppliesDue params block.height ctx.maturedCoinbase := by
      by_contra hs
      have hnone := hnot hs
      rw [ho] at hnone
      cases hnone
    have hm := hdue hs
    rw [ho, hstart] at hm
    have ht := applyTransfers_eq block.transfers o 0
    rw [ho'] at ht
    obtain ⟨m₁, hm₁, he⟩ := Option.map_eq_some_iff.1 ht.symm
    obtain ⟨rfl, hfees⟩ := Prod.mk.inj he
    rw [Nat.zero_add] at hfees
    refine ⟨hs, ?_, hfees.symm⟩
    rw [Sequential.process, ← hm]
    exact hm₁
  · rintro ⟨hs, hp, rfl⟩
    have hm := hdue hs
    rw [hstart] at hm
    obtain ⟨m₁, hm₁, hp⟩ := Option.bind_eq_some_iff.1 hp
    rw [hm₁] at hm
    obtain ⟨o, ho, rfl⟩ := Option.map_eq_some_iff.1 hm
    have ht := applyTransfers_eq block.transfers o 0
    rw [hp, Option.map_some] at ht
    obtain ⟨⟨o', fees⟩, ho', he⟩ := Option.map_eq_some_iff.1 ht
    obtain ⟨rfl, rfl⟩ := Prod.mk.inj he
    refine ⟨o, o', toOption_eq_some.1 ho, ?_, rfl⟩
    rw [toOption_eq_some.1 ho', Nat.zero_add]

/-- **`apply_block` succeeds exactly where the protocol accepts**, and the
changes then lead to the map of the process. -/
theorem applyBlock_accepted {params : NetworkParams} {block : Block} {ctx : BlockContext}
    {checkPow : Bool} {accounts : Table Address Account} :
    (∀ m, Sequential.Accepts params block ctx checkPow (getAccount accounts) m →
      ∃ changes, applyBlock block ctx (getAccount accounts) params checkPow = .ok changes) ∧
    ∀ changes, applyBlock block ctx (getAccount accounts) params checkPow = .ok changes →
      Sequential.Accepts params block ctx checkPow (getAccount accounts)
        (getAccount (writeRows changes.accounts.rows.reverse accounts)) := by
  constructor
  · intro m h
    obtain ⟨o, o', ho, ho', -⟩ := exists_overlays_iff.2 ⟨h.supplies, h.process, rfl⟩
    exact ⟨⟨o'.accounts, o'.previous, (block.transfers.map Transfer.fee).sum⟩,
      applyBlock_checkPow_iff.2 ⟨h.header, checkHeader_ok_iff.1 (checkHeader_checkPow h.header),
        checkBlock_ok_iff.1 h.stateless, ⟨o, o', ho, ho', rfl, rfl⟩, h.coinbase⟩⟩
  · intro changes h
    obtain ⟨hh, happ⟩ := applyBlock_checkPow_iff.1 h
    obtain ⟨o, o', hov⟩ := happ.overlays
    have hget : o'.get = getAccount (writeRows changes.accounts.rows.reverse accounts) :=
      funext fun a => (hov.getAccount_eq a).symm
    obtain ⟨hs, hp, hfees⟩ := exists_overlays_iff.1 ⟨o, o', hov.mature, hov.transfers, hget⟩
    refine ⟨hh, checkBlock_ok_iff.2 happ.checked, hs, hp, ?_⟩
    rw [← hfees]
    exact happ.coinbase

/-! ## What a block leaves alone -/

namespace Sequential

variable {m m' : Address → Account} {a : Address}

end Sequential

omit [Library] in
/-- What is stored of an account, where no empty account is. -/
theorem NoEmpty.lookup_eq {t : Table Address Account} (h : NoEmpty t) (a : Address) :
    t.lookup a = if getAccount t a = EMPTY_ACCOUNT then none else some (getAccount t a) := by
  unfold getAccount
  cases hl : t.lookup a with
  | none => exact (if_pos rfl).symm
  | some acc => exact (if_neg (h a acc hl)).symm

/-! ## A state in memory -/

omit [Library] in
/-- `MemoryState.apply`. -/
def MemoryState.apply (changes : StateChanges) (accounts : Table Address Account) :
    Table Address Account := writeRows changes.accounts.rows.reverse accounts

end

section

attribute [local instance] Sample.primitives

end

end TalCash
