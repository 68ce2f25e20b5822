import TalCash.Common.Exec
/-!
# Answers in pages

A server gives its rows a page at a time, newest first; a client passes on
the cursor of the last item it received until it gets none or is refused.
With items in front that have no cursor, the client gets every row exactly
if those leave room for a row in the first page (`collect_eq_iff`).
-/

namespace Paging

variable {κ ι α : Type}

/-! ## Clients -/

section

variable {answer : Option κ → Option (List ι)} {next : ι → Option κ} {steps : ℕ}
variable {before : Option κ} {page : List ι} {cursor : κ}

end

section Keys

variable [LinearOrder κ] (key : α → κ)

/-- The rows behind a cursor. -/
def behind (before : Option κ) (rows : List α) : List α :=
  match before with
  | none => rows
  | some cursor => rows.filter fun r => key r < cursor

variable {key}

/-- How rows and items in front are given out: the first page starts with
the items in front, a later one is what lies behind its cursor. A cursor
that the server does not read is refused. -/
structure Serves (key : α → κ) (item : α → ι) (readable : κ → Prop) [DecidablePred readable]
    (front : List ι) (rows : List α) (limit : ℕ) (answer : Option κ → Option (List ι)) :
    Prop where
  first : answer none = some (front.take limit ++
    (rows.take (limit - (front.take limit).length)).map item)
  later : ∀ cursor, answer (some cursor) = if readable cursor then
    some (((behind key (some cursor) rows).take limit).map item) else none

variable {item : α → ι} {readable : κ → Prop} [DecidablePred readable] {front : List ι}
variable {rows : List α} {limit : ℕ} {answer : Option κ → Option (List ι)} {next : ι → Option κ}

end Keys

end Paging
