import TalCash.Core.Amounts
import TalCash.Core.Percent
import TalCash.Crypto.Hd
/-!
# Payment links

`talcash:ADDRESS?amount=…&memo=…&label=…`. `parseLink` refuses whatever is
unusual; `toLink` writes a request and reads it back before it returns.
-/

namespace TalCash

open Crypto

/-- `SCHEME` and the colon. -/
def SCHEME : Text := text "talcash:"

def MAX_LINK_LENGTH : ℕ := 2048
def MAX_LABEL_LENGTH : ℕ := 100

/-- What reading and writing links raise: `PaymentLinkError`, or what came
through from a function they call. -/
inductive LinkFailure
  | link (detail : String)
  | python (error : PyError)

structure PaymentRequest where
  network : String
  address : Text
  amount : Option ℕ := none
  memo : Option Text := none
  label : Option Text := none
deriving DecidableEq

/-- `NETWORKS.values()`. -/
def NETWORKS : List Network := [MAINNET, TESTNET, DEVNET, REGTEST]

/-- `_ENDS`. -/
def ENDS : Text := text " \t\r\n"

/-- `text.strip(_ENDS)`. -/
def stripEnds (t : Text) : Text := (t.dropWhile (· ∈ ENDS)).rdropWhile (· ∈ ENDS)

/-- A text inside a message. -/
def shown (t : Text) : String := String.ofList (t.map fun c => Char.ofNat c.val)

/-- `_NAME.fullmatch(name)`. -/
def matchesName (name : Text) : Bool :=
  !name.isEmpty && name.all fun c =>
    (0x61 ≤ c.val && c.val ≤ 0x7a) || isDigit c || c == ord '-'

/-- `_AMOUNT.fullmatch(amount)`. -/
def matchesAmount (amount : Text) : Bool :=
  let whole := amount.takeWhile isDigit
  !whole.isEmpty &&
    match amount.dropWhile isDigit with
    | [] => true
    | point :: frac => point == POINT && !frac.isEmpty && frac.all isDigit

section

variable [Library] [Unicode]

/-- `is_link`. -/
def isLink (t : Text) : Bool := lower ((stripEnds t).take SCHEME.length) == SCHEME

/-- `_network_of`. -/
def networkOf (address : Text) : List Network → Except LinkFailure Network
  | [] => .error (.link "the payment link has no TalCash address")
  | network :: rest =>
    if network.addressPrefix.isPrefixOf address then
      match decodeAddress address network.addressPrefix with
      | .ok _ => .ok network
      | .error (.value error) =>
        .error (.link s!"the address in the payment link is invalid: {error}")
      | .error e => .error (.python e)
    else networkOf address rest

/-- `_decode`. -/
def decodePart (name raw : Text) : Except LinkFailure Text :=
  if raw = [] then .error (.link s!"{shown name} is empty in the payment link")
  else if hasBrokenEscape raw then
    .error (.link s!"broken %-escape in {shown name} in the payment link")
  else
    match unquote raw with
    | none => .error (.link s!"{shown name} in the payment link isn't valid UTF-8")
    | some value =>
      if value.any forbidden then
        .error (.link s!"{shown name} in the payment link contains a control character")
      else .ok value

/-- The loop over the parts of the query. -/
def readParts : List Text → List (Text × Text) → Except LinkFailure (List (Text × Text))
  | [], values => .ok values
  | part :: rest, values =>
    let name := (partition (ord '=') part).1
    match (partition (ord '=') part).2 with
    | none => .error (.link s!"malformed part {Unicode.repr (part.take 40)} in the payment link")
    | some raw =>
      if !matchesName name then
        .error (.link s!"malformed part {Unicode.repr (part.take 40)} in the payment link")
      else if (values.lookup name).isSome then
        .error (.link s!"{shown name} appears twice in the payment link")
      else do
        let value ← decodePart name raw
        readParts rest (values ++ [(name, value)])

/-- The amount of a link. -/
def readAmount : Option Text → Except LinkFailure (Option ℕ)
  | none => .ok none
  | some amount =>
    if !matchesAmount amount then
      .error (.link s!"invalid amount {Unicode.repr (amount.take 40)} in the payment link")
    else
      match parseAmount amount with
      | .error (.value error) => .error (.link error)
      | .error e => .error (.python e)
      | .ok units =>
        if units = 0 then .error (.link "the payment link asks for 0 TC") else .ok (some units)

/-- The memo of a link. -/
def readMemo : Option Text → Except LinkFailure (Option Text)
  | none => .ok none
  | some memo =>
    match encodeUtf8 memo with
    | .error e => .error (.python e)
    | .ok bytes =>
      if MAX_MEMO_SIZE < bytes.length then
        .error (.link s!"the memo in the payment link is longer than {MAX_MEMO_SIZE} bytes")
      else .ok (some memo)

/-- The label of a link. -/
def readLabel : Option Text → Except LinkFailure (Option Text)
  | none => .ok none
  | some label =>
    if MAX_LABEL_LENGTH < label.length then
      .error (.link
        s!"the label in the payment link is longer than {MAX_LABEL_LENGTH} characters")
    else .ok (some label)

/-- With `params`, the link must be for that network. -/
def checkNetwork (network : Network) : Option Network → Except LinkFailure Unit
  | none => .ok ()
  | some params =>
    if network.name ≠ params.name then
      .error (.link s!"this payment link is for {network.name}, not {params.name}")
    else .ok ()

/-- Parts that a wallet has to understand. -/
def checkRequired (values : List (Text × Text)) : Except LinkFailure Unit :=
  match values.find? fun v => (text "req-").isPrefixOf v.1 with
  | some (name, _) =>
    .error (.link s!"this payment link needs a wallet that understands {Unicode.repr name}")
  | none => .ok ()

/-- `query.split("&") if query else []`. -/
def splitQuery : Option Text → List Text
  | some query => if query = [] then [] else query.splitOn (ord '&')
  | none => []

/-- `parse_link`. -/
def parseLink (t : Text) (params : Option Network) : Except LinkFailure PaymentRequest :=
  let t := stripEnds t
  if MAX_LINK_LENGTH < t.length then
    .error (.link s!"the payment link is longer than {MAX_LINK_LENGTH} characters")
  else if !isLink t then .error (.link "a payment link starts with talcash:")
  else if ord '#' ∈ t then
    .error (.link "a payment link can't contain # (write it as %23)")
  else
    let (address, query) := partition (ord '?') (t.drop SCHEME.length)
    if query = some [] then .error (.link "the payment link ends with an empty ?")
    else do
      let network ← networkOf address NETWORKS
      checkNetwork network params
      let values ← readParts (splitQuery query) []
      checkRequired values
      let amount ← readAmount (values.lookup (text "amount"))
      let memo ← readMemo (values.lookup (text "memo"))
      let label ← readLabel (values.lookup (text "label"))
      pure ⟨network.name, address, amount, memo, label⟩

namespace PaymentRequest

variable (r : PaymentRequest)

/-- The parts of the query, in order. -/
def parts : Except PyError (List Text) := do
  let amount := r.amount.map fun a => text "amount=" ++ formatAmount a false
  let memo ← r.memo.mapM fun memo => do
    let raw ← quote memo
    pure (text "memo=" ++ raw)
  let label ← r.label.mapM fun label => do
    let raw ← quote label
    pure (text "label=" ++ raw)
  pure (amount.toList ++ memo.toList ++ label.toList)

/-- `to_link`. -/
def toLink : Except LinkFailure Text := do
  let parts ← r.parts.mapError .python
  let link := SCHEME ++ r.address ++
    if parts ≠ [] then ord '?' :: [ord '&'].intercalate parts else []
  let read ← parseLink link none
  if read ≠ r then .error (.link "this payment request can't be written as a valid link")
  else pure link

end PaymentRequest

end

end TalCash
