import TalCash.Common.Table
import TalCash.Core.Difficulty
/-!
# The state transition

`applyBlock` runs a block's transfers on an overlay over a state and
returns the new and the previous value of every account it touched.
`AppliedBlock` says what a successful run did.
-/

namespace TalCash

variable [Library]

/-- A balance and the number of transfers sent. -/
structure Account where
  balance : ℕ := 0
  nonce : ℕ := 0
deriving DecidableEq, Repr

def EMPTY_ACCOUNT : Account := {}

/-- What `apply_block` reads a state through: `get_account`. -/
abbrev StateView := Address → Account

/-- Facts about the chain a block extends. -/
structure BlockContext where
  parent : BlockHeader
  medianTimePast : ℕ
  expectedTarget : ℕ
  maturedCoinbase : Option Coinbase
  snapshotRoot : Digest

/-- The accounts a block touched, after it and before it, and its fees. -/
structure StateChanges where
  accounts : Table Address Account
  previous : Table Address Account
  fees : ℕ

/-! ## The overlay -/

/-- `_Overlay`: reads from a state, records writes without touching it. -/
structure Overlay where
  base : StateView
  accounts : Table Address Account := ∅
  previous : Table Address Account := ∅

namespace Overlay

/-- `_Overlay.get`. -/
def get (o : Overlay) (address : Address) : Account :=
  (o.accounts.lookup address).getD (o.base address)

/-- `_Overlay.set`. -/
def set (o : Overlay) (address : Address) (account : Account) : Overlay where
  base := o.base
  accounts := Table.put address account o.accounts
  previous :=
    if (o.previous.lookup address).isSome then o.previous
    else Table.put address (o.base address) o.previous

/-- `_Overlay.credit`. -/
def credit (o : Overlay) (address : Address) (amount : ℕ) : Except PyError Overlay :=
  let account := o.get address
  let balance := account.balance + amount
  if MAX_AMOUNT < balance then invalid "balance-overflow"
  else .ok (o.set address ⟨balance, account.nonce⟩)

end Overlay

/-! ## Header rules -/

/-- `meets_target`. -/
def meetsTarget (header : BlockHeader) (params : PowParams) : Bool :=
  BigEndian.beNat (argon2id params header.serialize).1 ≤ header.target

/-- `check_header_against_parent`. -/
def checkHeaderAgainstParent (header parent : BlockHeader) (medianTimePast expectedTarget : ℕ)
    (params : NetworkParams) (checkPow : Bool) : Except PyError Unit :=
  let expected := parent.height + 1
  let got := header.height
  if got ≠ expected then invalid "bad-height" s!"expected {expected}, got {got}"
  else if header.prevId ≠ parent.blockId then invalid "bad-prev-id"
  else if header.timestamp ≤ medianTimePast then
    invalid "time-too-old" "timestamp must be after the median of the last 11 blocks"
  else if header.target ≠ expectedTarget then invalid "bad-target"
  else if checkPow && !meetsTarget header params.pow then invalid "bad-pow"
  else .ok ()

/-- `check_header`. -/
def checkHeader (header : BlockHeader) (ctx : BlockContext) (params : NetworkParams)
    (checkPow : Bool) : Except PyError Unit :=
  match checkHeaderAgainstParent header ctx.parent ctx.medianTimePast ctx.expectedTarget params
      checkPow with
  | .error e => .error e
  | .ok () =>
    if header.snapshotRoot ≠ ctx.snapshotRoot then invalid "bad-snapshot-root" else .ok ()

/-- `check_not_in_future`, at the whole seconds of the clock. -/
def checkNotInFuture (header : BlockHeader) (now : ℤ) (params : NetworkParams) :
    Except PyError Unit :=
  if now + params.maxFutureDrift < header.timestamp then
    invalid "time-too-new" "block timestamp is too far in the future"
  else .ok ()

/-! ## Applying a block -/

/-- The credit of the coinbase that matures, step 1 of `apply_block`. -/
def matureCoinbase (params : NetworkParams) (height : ℕ) (matured : Option Coinbase)
    (overlay : Overlay) : Except PyError Overlay :=
  if params.coinbaseMaturity ≤ height then
    let dueHeight := height - params.coinbaseMaturity
    match matured with
    | none => .error (.value s!"context must supply the coinbase of block {dueHeight}")
    | some c =>
      if c.height ≠ dueHeight then
        .error (.value s!"context must supply the coinbase of block {dueHeight}")
      else overlay.credit c.address c.amount
  else if matured.isSome then .error (.value "no coinbase can mature at this height")
  else .ok overlay

/-- The outputs of a transfer credited in order. -/
def creditOutputs (overlay : Overlay) : List Output → Except PyError Overlay
  | [] => .ok overlay
  | o :: rest =>
    match overlay.credit o.address o.amount with
    | .error e => .error e
    | .ok overlay => creditOutputs overlay rest

/-- One transfer of step 2 of `apply_block`. -/
def applyTransfer (overlay : Overlay) (tx : Transfer) : Except PyError Overlay :=
  let sender := overlay.get tx.sender
  let expected := sender.nonce
  let got := tx.nonce
  if got ≠ expected then invalid "bad-nonce" s!"expected nonce {expected}, got {got}"
  else if sender.balance < tx.totalSpent then invalid "insufficient-funds"
  else
    creditOutputs (overlay.set tx.sender ⟨sender.balance - tx.totalSpent, sender.nonce + 1⟩)
      tx.outputs

/-- Step 2 of `apply_block`: the transfers in block order, and their fees. -/
def applyTransfers (overlay : Overlay) (fees : ℕ) :
    List Transaction → Except PyError (Overlay × ℕ)
  | [] => .ok (overlay, fees)
  | .coinbase _ :: _ => .error .assertion
  | .transfer tx :: rest =>
    match applyTransfer overlay tx with
    | .error e => .error e
    | .ok overlay => applyTransfers overlay (fees + tx.fee) rest

/-- `apply_block`. -/
def applyBlock (block : Block) (ctx : BlockContext) (state : StateView) (params : NetworkParams)
    (checkPow : Bool) : Except PyError StateChanges := do
  checkHeader block.header ctx params checkPow
  checkBlock params block
  let overlay ← matureCoinbase params block.height ctx.maturedCoinbase { base := state }
  let (overlay, fees) ← applyTransfers overlay 0 block.transactions.tail
  let coinbase ← block.coinbase
  let expected := params.blockReward + fees
  let got := coinbase.amount
  if got ≠ expected then invalid "bad-coinbase-amount" s!"expected {expected}, got {got}"
  else pure ⟨overlay.accounts, overlay.previous, fees⟩

/-! ## What the overlay records -/

namespace Overlay

variable {o o' : Overlay} {a b : Address} {account : Account} {n : ℕ}

omit [Library] in
@[simp] theorem set_base : (o.set a account).base = o.base := rfl

omit [Library] in
theorem get_set : (o.set a account).get b = if b = a then account else o.get b := by
  unfold get set
  rw [Table.lookup_put]
  by_cases h : b = a
  · rw [if_pos h, if_pos h]; rfl
  · rw [if_neg h, if_neg h]

omit [Library] in
theorem credit_ok_iff : o.credit a n = .ok o' ↔
    (o.get a).balance + n ≤ MAX_AMOUNT ∧
      o' = o.set a ⟨(o.get a).balance + n, (o.get a).nonce⟩ := by
  unfold credit
  rw [ite_invalid_eq_ok, not_lt, Except.ok.injEq, eq_comm (a := o')]

omit [Library] in
theorem onlyInvalid_credit : OnlyInvalid (o.credit a n) :=
  .ite (fun _ => .invalid ⟨_, rfl⟩) fun _ => .ok _

/-- The previous values are those of the base, of the accounts written. -/
def Recorded (o : Overlay) : Prop :=
  ∀ a, o.previous.lookup a = (o.accounts.lookup a).map fun _ => o.base a

omit [Library] in
theorem recorded_empty (state : StateView) : Recorded { base := state } := fun _ => rfl

omit [Library] in
theorem Recorded.set (h : o.Recorded) : (o.set a account).Recorded := by
  intro b
  have hp : (o.set a account).previous =
      if (o.previous.lookup a).isSome then o.previous
      else Table.put a (o.base a) o.previous := rfl
  have hacc : (o.set a account).accounts = Table.put a account o.accounts := rfl
  rw [hp, hacc, Table.lookup_put, set_base]
  by_cases hb : b = a
  · subst hb
    rw [if_pos rfl, Option.map_some]
    split
    · rename_i hs
      rw [h b] at hs ⊢
      cases hl : o.accounts.lookup b with
      | none => rw [hl] at hs; cases hs
      | some v => rfl
    · exact Table.lookup_put_self
  · rw [if_neg hb]
    split
    · exact h b
    · rw [Table.lookup_put_ne hb]; exact h b

end Overlay

/-! ## Runs of transfers, step by step -/

section Induct

variable {P : Overlay → Prop}

omit [Library] in
/-- What every credit preserves, the outputs of a transfer preserve. -/
theorem creditOutputs_induct (h : ∀ o a n o', P o → o.credit a n = .ok o' → P o') :
    ∀ {outputs : List Output} {o o' : Overlay}, P o → creditOutputs o outputs = .ok o' → P o'
  | [], _, _, ho, he => Except.ok.inj he ▸ ho
  | _ :: rest, _, _, ho, he => by
    unfold creditOutputs at he
    split at he
    · cases he
    · rename_i o₁ h₁
      exact creditOutputs_induct h (h _ _ _ _ ho h₁) he

theorem applyTransfer_ok_iff {o o' : Overlay} {tx : Transfer} :
    applyTransfer o tx = .ok o' ↔ tx.nonce = (o.get tx.sender).nonce ∧
      tx.totalSpent ≤ (o.get tx.sender).balance ∧
      creditOutputs (o.set tx.sender ⟨(o.get tx.sender).balance - tx.totalSpent,
        (o.get tx.sender).nonce + 1⟩) tx.outputs = .ok o' := by
  unfold applyTransfer
  simp only [ite_invalid_eq_ok, ne_eq, not_not, not_lt]

/-- What a write to the sender and every credit preserve, a run of
transfers preserves. -/
theorem applyTransfers_induct {P : Overlay → ℕ → Prop} (h : ∀ o fees tx o', P o fees →
    applyTransfer o tx = .ok o' → P o' (fees + tx.fee)) :
    ∀ {txs : List Transaction} {o o' : Overlay} {fees fees' : ℕ}, P o fees →
      applyTransfers o fees txs = .ok (o', fees') → P o' fees'
  | [], _, _, _, _, ho, he => by cases he; exact ho
  | .coinbase _ :: _, _, _, _, _, _, he => nomatch he
  | .transfer tx :: rest, _, _, _, _, ho, he => by
    rw [applyTransfers] at he
    split at he
    · cases he
    · rename_i o₁ h₁
      exact applyTransfers_induct h (h _ _ _ _ ho h₁) he

end Induct

omit [Library] in
theorem onlyInvalid_creditOutputs :
    ∀ (outputs : List Output) (o : Overlay), OnlyInvalid (creditOutputs o outputs)
  | [], _ => .ok _
  | x :: rest, o => by
    unfold creditOutputs
    split
    · rename_i e he
      exact Overlay.onlyInvalid_credit.error he
    · exact onlyInvalid_creditOutputs rest _

/-- Where every transfer of a run raises nothing else, the run does not. -/
theorem raises_applyTransfers {P : PyError → Prop} {Q : Overlay → ℕ → Prop}
    (hP : ∀ o fees tx, Q o fees → Raises P (applyTransfer o tx))
    (hQ : ∀ o fees tx o', Q o fees → applyTransfer o tx = .ok o' → Q o' (fees + tx.fee)) :
    ∀ (txs : List Transfer) (o : Overlay) (fees : ℕ), Q o fees →
      Raises P (applyTransfers o fees (txs.map .transfer))
  | [], _, _, _ => .ok _
  | tx :: rest, o, fees, h => by
    rw [List.map_cons, applyTransfers]
    split
    · rename_i e he
      exact (hP o fees tx h).error he
    · rename_i o' ho'
      exact raises_applyTransfers hP hQ rest _ _ (hQ o fees tx o' h ho')

theorem onlyInvalid_applyTransfer (o : Overlay) (tx : Transfer) :
    OnlyInvalid (applyTransfer o tx) :=
  .ite (fun _ => .invalid ⟨_, rfl⟩) fun _ => .ite (fun _ => .invalid ⟨_, rfl⟩) fun _ =>
    onlyInvalid_creditOutputs _ _

section Raises

variable {P : PyError → Prop} (hP : Rules P)
include hP

theorem raises_checkHeaderAgainstParent (header parent : BlockHeader) (mtp target : ℕ)
    (params : NetworkParams) (checkPow : Bool) :
    Raises P (checkHeaderAgainstParent header parent mtp target params checkPow) :=
  .ite (fun _ => .invalid (hP _ _ (by decide))) fun _ =>
    .ite (fun _ => .invalid (hP _ _ (by decide))) fun _ =>
    .ite (fun _ => .invalid (hP _ _ (by decide))) fun _ =>
    .ite (fun _ => .invalid (hP _ _ (by decide))) fun _ =>
    .ite (fun _ => .invalid (hP _ _ (by decide))) fun _ => .ok ()

theorem raises_checkHeader (header : BlockHeader) (ctx : BlockContext) (params : NetworkParams)
    (checkPow : Bool) : Raises P (checkHeader header ctx params checkPow) := by
  unfold checkHeader
  split
  · rename_i e he
    exact (raises_checkHeaderAgainstParent hP _ _ _ _ _ _).error he
  · exact .ite (fun _ => .invalid (hP _ _ (by decide))) fun _ => .ok ()

omit [Library] in
theorem raises_checkNotInFuture (header : BlockHeader) (now : ℤ) (params : NetworkParams) :
    Raises P (checkNotInFuture header now params) :=
  .ite (fun _ => .invalid (hP _ _ (by decide))) fun _ => .ok ()

end Raises

/-- What `check_header` demands. -/
structure CheckedHeader (header : BlockHeader) (ctx : BlockContext) : Prop where
  height : header.height = ctx.parent.height + 1
  prevId : header.prevId = ctx.parent.blockId
  timestamp : ctx.medianTimePast < header.timestamp
  target : header.target = ctx.expectedTarget
  snapshotRoot : header.snapshotRoot = ctx.snapshotRoot

theorem checkHeaderAgainstParent_ok_iff {header parent : BlockHeader} {mtp target : ℕ}
    {params : NetworkParams} {checkPow : Bool} :
    checkHeaderAgainstParent header parent mtp target params checkPow = .ok () ↔
      header.height = parent.height + 1 ∧ header.prevId = parent.blockId ∧
        mtp < header.timestamp ∧ header.target = target ∧
        (checkPow = true → meetsTarget header params.pow = true) := by
  unfold checkHeaderAgainstParent
  simp only [ite_invalid_eq_ok, ne_eq, not_not, not_le, Bool.and_eq_true, Bool.not_eq_true',
    not_and, Bool.not_eq_false, and_true]

/-- `check_header` without proof of work. -/
theorem checkHeader_ok_iff {header : BlockHeader} {ctx : BlockContext} {params : NetworkParams} :
    checkHeader header ctx params false = .ok () ↔ CheckedHeader header ctx := by
  unfold checkHeader
  constructor
  · intro h
    split at h
    · cases h
    · rename_i hc
      obtain ⟨hh, hp, ht, hg, -⟩ := checkHeaderAgainstParent_ok_iff.1 hc
      simp only [ite_invalid_eq_ok, ne_eq, not_not] at h
      exact ⟨hh, hp, ht, hg, h.1⟩
  · rintro ⟨hh, hp, ht, hg, hs⟩
    have hc : checkHeaderAgainstParent header ctx.parent ctx.medianTimePast ctx.expectedTarget
        params false = .ok () :=
      checkHeaderAgainstParent_ok_iff.2 ⟨hh, hp, ht, hg, fun h => by cases h⟩
    rw [hc]
    exact if_neg (not_not.2 hs)

/-! ## What a block did -/

/-- A successful `apply_block`, without proof of work, taken apart. -/
structure AppliedBlock (params : NetworkParams) (block : Block) (ctx : BlockContext)
    (state : StateView) (changes : StateChanges) : Prop where
  header : CheckedHeader block.header ctx
  checked : CheckedBlock params block
  run : ∃ o o' : Overlay,
    matureCoinbase params block.height ctx.maturedCoinbase { base := state } = .ok o ∧
      applyTransfers o 0 (block.transfers.map .transfer) = .ok (o', changes.fees) ∧
      changes.accounts = o'.accounts ∧ changes.previous = o'.previous
  coinbase : ∃ c, block.coinbase = .ok c ∧ c.amount = params.blockReward + changes.fees

/-- **`apply_block` returns exactly where every step does.** -/
theorem applyBlock_ok_iff {params : NetworkParams} {block : Block} {ctx : BlockContext}
    {state : StateView} {changes : StateChanges} :
    applyBlock block ctx state params false = .ok changes ↔
      AppliedBlock params block ctx state changes := by
  unfold applyBlock
  simp only [bind_eq_ok]
  constructor
  · rintro ⟨_, hh, _, hb, o, ho, ⟨o', fees⟩, hr, c, hc, h⟩
    simp only [ite_invalid_eq_ok, ne_eq, not_not] at h
    obtain ⟨ha, h⟩ := h
    have hck := checkBlock_ok_iff.1 hb
    obtain ⟨c', -, -, ht⟩ := hck.coinbase
    rw [ht, List.tail_cons] at hr
    cases h
    exact ⟨checkHeader_ok_iff.1 hh, hck, ⟨o, o', ho, hr, rfl, rfl⟩, ⟨c, hc, ha⟩⟩
  · rintro ⟨hh, hb, ⟨o, o', ho, hr, ha, hp⟩, ⟨c, hc, hamt⟩⟩
    obtain ⟨c', -, -, ht⟩ := hb.coinbase
    refine ⟨(), checkHeader_ok_iff.2 hh, (), checkBlock_ok_iff.2 hb, o, ho, (o', changes.fees),
      ?_, c, hc, ?_⟩
    · rw [ht, List.tail_cons]; exact hr
    · simp only [ite_invalid_eq_ok, ne_eq, not_not]
      exact ⟨hamt, by rw [← ha, ← hp]; rfl⟩

/-- Proof of work is the one rule that `check_pow` turns off. -/
theorem checkHeader_checkPow {header : BlockHeader} {ctx : BlockContext} {params : NetworkParams}
    {checkPow : Bool} (h : checkHeader header ctx params checkPow = .ok ()) :
    checkHeader header ctx params false = .ok () := by
  unfold checkHeader at h ⊢
  split at h
  · cases h
  · rename_i hc
    obtain ⟨hh, hp, ht, hg, -⟩ := checkHeaderAgainstParent_ok_iff.1 hc
    have hc' : checkHeaderAgainstParent header ctx.parent ctx.medianTimePast ctx.expectedTarget
        params false = .ok () :=
      checkHeaderAgainstParent_ok_iff.2 ⟨hh, hp, ht, hg, fun he => by cases he⟩
    rw [hc']
    exact h

theorem applyBlock_checkPow_iff {params : NetworkParams} {block : Block} {ctx : BlockContext}
    {state : StateView} {changes : StateChanges} {checkPow : Bool} :
    applyBlock block ctx state params checkPow = .ok changes ↔
      checkHeader block.header ctx params checkPow = .ok () ∧
        AppliedBlock params block ctx state changes := by
  rw [← applyBlock_ok_iff]
  unfold applyBlock
  constructor
  · intro h
    obtain ⟨u, hh, h⟩ := bind_eq_ok.1 h
    exact ⟨hh, bind_eq_ok.2 ⟨u, checkHeader_checkPow hh, h⟩⟩
  · rintro ⟨hh, h⟩
    obtain ⟨u, -, h⟩ := bind_eq_ok.1 h
    exact bind_eq_ok.2 ⟨u, hh, h⟩

/-- The overlays of the run: after the coinbase that matures, and at the
end, where they hold the changes. -/
structure AppliedBlock.Overlays (params : NetworkParams) (block : Block) (ctx : BlockContext)
    (state : StateView) (changes : StateChanges) (o o' : Overlay) : Prop where
  mature : matureCoinbase params block.height ctx.maturedCoinbase { base := state } = .ok o
  transfers : applyTransfers o 0 (block.transfers.map .transfer) = .ok (o', changes.fees)
  accounts : changes.accounts = o'.accounts
  previous : changes.previous = o'.previous
  recorded : o'.Recorded
  base : o'.base = state

theorem AppliedBlock.overlays {params : NetworkParams} {block : Block} {ctx : BlockContext}
    {state : StateView} {changes : StateChanges}
    (h : AppliedBlock params block ctx state changes) :
    ∃ o o', AppliedBlock.Overlays params block ctx state changes o o' := by
  obtain ⟨o, o', hm, hr, ha, hp⟩ := h.run
  have hcredit : ∀ (o : Overlay) a n o', (o.Recorded ∧ o.base = state) → o.credit a n = .ok o' →
      o'.Recorded ∧ o'.base = state := by
    intro o a n o' ho hc
    rw [(Overlay.credit_ok_iff.1 hc).2]
    exact ⟨ho.1.set, ho.2⟩
  have ho : o.Recorded ∧ o.base = state := by
    unfold matureCoinbase at hm
    split at hm
    · dsimp only at hm
      split at hm
      · cases hm
      · split at hm
        · cases hm
        · exact hcredit _ _ _ _ ⟨Overlay.recorded_empty state, rfl⟩ hm
    · split at hm
      · cases hm
      · cases hm; exact ⟨Overlay.recorded_empty state, rfl⟩
  have ho' : o'.Recorded ∧ o'.base = state := by
    refine applyTransfers_induct (P := fun o _ => o.Recorded ∧ o.base = state) ?_ ho hr
    intro o fees tx o₁ ho hx
    obtain ⟨-, -, hx⟩ := applyTransfer_ok_iff.1 hx
    exact creditOutputs_induct hcredit ⟨ho.1.set, ho.2⟩ hx
  exact ⟨o, o', hm, hr, ha, hp, ho'.1, ho'.2⟩

/-- The previous values are those of the state, of the accounts changed. -/
theorem AppliedBlock.recorded {params : NetworkParams} {block : Block} {ctx : BlockContext}
    {state : StateView} {changes : StateChanges}
    (h : AppliedBlock params block ctx state changes) (a : Address) :
    changes.previous.lookup a = (changes.accounts.lookup a).map fun _ => state a := by
  obtain ⟨o, o', ho⟩ := h.overlays
  rw [ho.accounts, ho.previous, ho.recorded a, ho.base]

/-- What `apply_block` raises: the breach of a rule, or what maturing and
the transfers raise. -/
theorem raises_applyBlock {P : PyError → Prop} (hP : Rules P) {params : NetworkParams}
    {block : Block} {ctx : BlockContext} {state : StateView} {checkPow : Bool}
    (hm : block.header.height = ctx.parent.height + 1 →
      Raises P (matureCoinbase params block.height ctx.maturedCoinbase { base := state }))
    (ht : ∀ o, matureCoinbase params block.height ctx.maturedCoinbase { base := state } = .ok o →
      Raises P (applyTransfers o 0 (block.transfers.map .transfer))) :
    Raises P (applyBlock block ctx state params checkPow) := by
  unfold applyBlock
  refine .bind (raises_checkHeader hP _ _ _ _) fun _ hh => ?_
  refine .bind (raises_checkBlock hP _ _) fun _ hb => ?_
  have hheight : block.header.height = ctx.parent.height + 1 := by
    unfold checkHeader at hh
    split at hh
    · cases hh
    · rename_i hc
      exact (checkHeaderAgainstParent_ok_iff.1 hc).1
  obtain ⟨c, hc, -, htx⟩ := (checkBlock_ok_iff.1 hb).coinbase
  refine .bind (hm hheight) fun o ho => ?_
  refine .bind ?_ fun r _ => ?_
  · rw [htx, List.tail_cons]; exact ht o ho
  · rw [hc]
    exact .ite (fun _ => .invalid (hP _ _ (by decide))) fun _ => .ok _

/-- Where the context supplies the coinbase that matures, `apply_block`
refuses with `ValidationError` only. -/
theorem onlyInvalid_applyBlock {params : NetworkParams} {block : Block} {ctx : BlockContext}
    {state : StateView} {checkPow : Bool}
    (hm : block.header.height = ctx.parent.height + 1 →
      OnlyInvalid (matureCoinbase params block.height ctx.maturedCoinbase { base := state })) :
    OnlyInvalid (applyBlock block ctx state params checkPow) :=
  raises_applyBlock rules_isInvalid hm fun o _ =>
    raises_applyTransfers (Q := fun _ _ => True) (fun o _ tx _ => onlyInvalid_applyTransfer o tx)
      (fun _ _ _ _ _ _ => trivial) _ o 0 trivial

/-! ## States in memory -/

/-- `MemoryState.get_account`. -/
def getAccount (accounts : Table Address Account) (address : Address) : Account :=
  (accounts.lookup address).getD EMPTY_ACCOUNT

/-- One account of `MemoryState._write`. -/
def writeRow (r : Address × Account) (accounts : Table Address Account) : Table Address Account :=
  if r.2 = EMPTY_ACCOUNT then Table.remove r.1 accounts else Table.put r.1 r.2 accounts

/-- `MemoryState._write`, of the values in the order of their dictionary. -/
def writeRows (values : List (Address × Account)) (accounts : Table Address Account) :
    Table Address Account := values.foldl (fun t r => writeRow r t) accounts

omit [Library] in
theorem lookup_writeRow (r : Address × Account) (t : Table Address Account) (a : Address) :
    (writeRow r t).lookup a =
      if a = r.1 then (if r.2 = EMPTY_ACCOUNT then none else some r.2) else t.lookup a := by
  unfold writeRow
  split
  · rw [Table.lookup_remove]
  · rw [Table.lookup_put]

omit [Library] in
theorem lookup_writeRows_of_notMem {a : Address} : ∀ {rs : List (Address × Account)}
    {t : Table Address Account}, a ∉ rs.map Prod.fst → (writeRows rs t).lookup a = t.lookup a
  | [], _, _ => rfl
  | r :: rs, t, h => by
    rw [List.map_cons, List.mem_cons, not_or] at h
    change (writeRows rs (writeRow r t)).lookup a = _
    rw [lookup_writeRows_of_notMem h.2, lookup_writeRow, if_neg h.1]

omit [Library] in
theorem lookup_writeRows_of_mem {a : Address} {acc : Account} :
    ∀ {rs : List (Address × Account)} {t : Table Address Account}, (rs.map Prod.fst).Nodup →
      (a, acc) ∈ rs → (writeRows rs t).lookup a = if acc = EMPTY_ACCOUNT then none else some acc
  | r :: rs, t, hn, h => by
    rw [List.map_cons, List.nodup_cons] at hn
    change (writeRows rs (writeRow r t)).lookup a = _
    rcases List.mem_cons.1 h with rfl | h
    · rw [lookup_writeRows_of_notMem hn.1, lookup_writeRow, if_pos rfl]
    · exact lookup_writeRows_of_mem hn.2 h

omit [Library] in
/-- Writing the rows of a table. -/
theorem lookup_writeRows (w t : Table Address Account) (a : Address) :
    (writeRows w.rows.reverse t).lookup a =
      match w.lookup a with
      | none => t.lookup a
      | some acc => if acc = EMPTY_ACCOUNT then none else some acc := by
  have hn : (w.rows.reverse.map Prod.fst).Nodup := by
    rw [List.map_reverse, List.nodup_reverse]; exact Table.rows_nodup_keys
  cases h : w.lookup a with
  | none =>
    refine lookup_writeRows_of_notMem fun hm => ?_
    obtain ⟨⟨a', acc⟩, hr, rfl⟩ := List.mem_map.1 hm
    rw [List.mem_reverse, Table.mem_rows, h] at hr
    cases hr
  | some acc => exact lookup_writeRows_of_mem hn (List.mem_reverse.2 (Table.mem_rows.2 h))

/-- No empty account is stored. -/
def NoEmpty (t : Table Address Account) : Prop := ∀ a acc, t.lookup a = some acc → acc ≠ EMPTY_ACCOUNT

omit [Library] in
theorem NoEmpty.writeRows {t : Table Address Account} (h : NoEmpty t) (w : Table Address Account) :
    NoEmpty (TalCash.writeRows w.rows.reverse t) := by
  intro a acc ha
  rw [lookup_writeRows] at ha
  split at ha
  · exact h a acc ha
  · split at ha
    · cases ha
    · rename_i hne
      rw [← Option.some.inj ha]
      exact hne

omit [Library] in
theorem getAccount_writeRows (w t : Table Address Account) (a : Address) :
    getAccount (writeRows w.rows.reverse t) a = (w.lookup a).getD (getAccount t a) := by
  rw [getAccount, lookup_writeRows]
  cases w.lookup a with
  | none => rfl
  | some acc =>
    dsimp only
    split
    · rename_i h; rw [h]; rfl
    · rfl

/-- Writing the changes makes the accounts what the last overlay reads. -/
theorem AppliedBlock.Overlays.getAccount_eq {params : NetworkParams} {block : Block}
    {ctx : BlockContext} {changes : StateChanges} {t : Table Address Account} {o o' : Overlay}
    (h : AppliedBlock.Overlays params block ctx (getAccount t) changes o o') (a : Address) :
    getAccount (writeRows changes.accounts.rows.reverse t) a = o'.get a := by
  rw [getAccount_writeRows, h.accounts, Overlay.get, h.base]

/-- **Writing the previous values undoes writing the new ones.** -/
theorem AppliedBlock.undo {params : NetworkParams} {block : Block} {ctx : BlockContext}
    {changes : StateChanges} {t t' : Table Address Account}
    (h : AppliedBlock params block ctx (getAccount t) changes) (ht : NoEmpty t)
    (ht' : ∀ a, t'.lookup a = (writeRows changes.accounts.rows.reverse t).lookup a) (a : Address) :
    (writeRows changes.previous.rows.reverse t').lookup a = t.lookup a := by
  rw [lookup_writeRows, h.recorded a]
  cases hc : changes.accounts.lookup a with
  | none =>
    change t'.lookup a = _
    rw [ht' a, lookup_writeRows, hc]
  | some acc =>
    change (if getAccount t a = EMPTY_ACCOUNT then none else some (getAccount t a)) = _
    unfold getAccount
    cases hl : t.lookup a with
    | none => exact if_pos rfl
    | some acc' => exact if_neg (ht a acc' hl)

end TalCash
