import TalCash.Common.Exec
import TalCash.Common.BigEndian
/-!
# Byte strings of fixed size, the cryptographic primitives, exceptions

What the code takes from libraries enters as the class `Library`:
SHA-256, Argon2id, Ed25519 verification and zlib, each an arbitrary
function. A result that needs SHA-256 free of collisions says among which
messages (`CollisionFree`). What writing and reading block files relies on
is added in two steps: `Packing`, that zlib unpacks what it packed, and
`Primitives`, that a stream says where it ends.
-/

namespace TalCash

/-- A SHA-256 digest: block ids, txids, merkle and snapshot roots. -/
abbrev Digest := List.Vector UInt8 32

/-- An address payload: the version byte and 20 bytes of a hash. -/
abbrev Address := List.Vector UInt8 21

/-- An Ed25519 public key. -/
abbrev PublicKey := List.Vector UInt8 32

/-- An Ed25519 signature. -/
abbrev Signature := List.Vector UInt8 64

/-- `bytes(n)`: zeros. -/
def zeroBytes (n : ℕ) : List.Vector UInt8 n := ⟨List.replicate n 0, List.length_replicate⟩

/-! ## Exceptions -/

/-- A well-formed object breaks a consensus rule: a stable code and a
readable detail. -/
structure ValidationError where
  code : String
  detail : String := ""
deriving DecidableEq, Repr

/-- The exceptions the code raises, its own and Python's. -/
inductive PyError
  | validation (error : ValidationError)
  /-- `_ConnectFailed`: which block of a branch could not be connected. -/
  | connectFailed (blockId : Digest) (error : ValidationError)
  | decode (detail : String)
  | chunk (detail : String)
  | chunkTooLarge (detail : String)
  | zlib (detail : String)
  | value (detail : String)
  | runtime (detail : String)
  | assertion
  | attribute
  | type
  | key
  | index
  | stopIteration
  /-- `sqlite3.IntegrityError`: a key is there already. -/
  | integrity
  /-- `OverflowError`: an integer does not fit its column or its bytes. -/
  | overflow
  /-- Not an exception of Python: a `while` loop that does not end. -/
  | diverged

/-- `raise ValidationError(code, detail)`. -/
def invalid {α : Type} (code : String) (detail : String := "") : Except PyError α :=
  .error (.validation ⟨code, detail⟩)

@[simp] theorem ite_invalid_eq_ok {α : Type} {c : Prop} [Decidable c] {code detail : String}
    {x : Except PyError α} {a : α} :
    (if c then invalid code detail else x) = .ok a ↔ ¬ c ∧ x = .ok a := by
  by_cases h : c
  · rw [if_pos h]
    exact ⟨fun he => (nomatch he), fun he => absurd h he.1⟩
  · rw [if_neg h]
    exact ⟨fun he => ⟨h, he⟩, fun he => he.2⟩

@[simp] theorem invalid_ne_ok {α : Type} {code detail : String} {a : α} :
    (invalid code detail : Except PyError α) = .ok a ↔ False :=
  ⟨fun he => (nomatch he), False.elim⟩

/-- A sequence returns where both its parts do. -/
theorem bind_eq_ok {ε α β : Type} {x : Except ε α} {f : α → Except ε β} {b : β} :
    (x >>= f) = .ok b ↔ ∃ a, x = .ok a ∧ f a = .ok b := by
  cases x with
  | error e => exact ⟨fun h => (nomatch h), fun ⟨_, h, _⟩ => (nomatch h)⟩
  | ok a =>
    exact ⟨fun h => ⟨a, rfl, h⟩, fun ⟨_, h, hf⟩ => by cases h; exact hf⟩

/-- A sequence raises what its first or its second part raises. -/
theorem bind_eq_error {ε α β : Type} {x : Except ε α} {f : α → Except ε β} {e : ε} :
    (x >>= f) = .error e ↔ x = .error e ∨ ∃ a, x = .ok a ∧ f a = .error e := by
  cases x with
  | error e' =>
    exact ⟨fun h => Or.inl (congrArg Except.error (Except.error.inj h)),
      fun h => h.elim (fun h => congrArg Except.error (Except.error.inj h))
        fun ⟨_, h, _⟩ => (nomatch h)⟩
  | ok a =>
    exact ⟨fun h => Or.inr ⟨a, rfl, h⟩,
      fun h => h.elim (fun h => (nomatch h)) fun ⟨_, h, hf⟩ => by cases h; exact hf⟩

theorem toOption_eq_some {ε α : Type} {x : Except ε α} {a : α} :
    x.toOption = some a ↔ x = .ok a := by
  cases x with
  | error e =>
    constructor
    · intro h
      cases h
    · intro h
      cases h
  | ok b => exact ⟨fun h => congrArg Except.ok (Option.some.inj h), fun h => by rw [h]; rfl⟩

/-- A check passes where it returns. -/
theorem eq_ok_of_isOk {ε : Type} {x : Except ε Unit} (h : x.isOk = true) : x = .ok () := by
  cases x with
  | ok u => rfl
  | error e => cases h

/-- A computation over a list returns where it does for every entry. -/
theorem mapM_eq_ok {ε α β : Type} {f : α → Except ε β} :
    ∀ {l : List α} {bs : List β}, l.mapM f = .ok bs ↔ List.Forall₂ (fun a b => f a = .ok b) l bs
  | [], bs => by
    rw [List.mapM_nil, List.forall₂_nil_left_iff]
    exact ⟨fun h => (Except.ok.inj h).symm, fun h => h ▸ rfl⟩
  | a :: l, bs => by
    rw [List.mapM_cons, List.forall₂_cons_left_iff, bind_eq_ok]
    constructor
    · rintro ⟨b, hb, h⟩
      obtain ⟨bs', hbs, h⟩ := bind_eq_ok.1 h
      exact ⟨b, bs', hb, mapM_eq_ok.1 hbs, (Except.ok.inj h).symm⟩
    · rintro ⟨b, bs', hb, hbs, rfl⟩
      exact ⟨b, hb, bind_eq_ok.2 ⟨bs', mapM_eq_ok.2 hbs, rfl⟩⟩

/-- A computation raises nothing but what satisfies `P`. -/
def Raises {α : Type} (P : PyError → Prop) (x : Except PyError α) : Prop :=
  ∀ e, x = .error e → P e

/-- Every rule of consensus may be broken, the overflow of a balance
apart. -/
def Rules (P : PyError → Prop) : Prop :=
  ∀ code detail, code ≠ "balance-overflow" → P (.validation ⟨code, detail⟩)

/-- The exception is a `ValidationError`. -/
def PyError.IsInvalid (e : PyError) : Prop := ∃ v, e = .validation v

theorem rules_isInvalid : Rules PyError.IsInvalid := fun _ _ _ => ⟨_, rfl⟩

/-- A computation raises nothing but `ValidationError`. -/
abbrev OnlyInvalid {α : Type} (x : Except PyError α) : Prop := Raises PyError.IsInvalid x

namespace Raises

variable {P : PyError → Prop} {α β : Type} {x : Except PyError α}

theorem ok (a : α) : Raises P (.ok a) := fun _ h => (nomatch h)

theorem invalid {code detail : String} (h : P (.validation ⟨code, detail⟩)) :
    Raises P (TalCash.invalid code detail : Except PyError α) :=
  fun _ he => Except.error.inj he ▸ h

/-- What a computation raised, raised again. -/
theorem error {e : PyError} (hx : Raises P x) (h : x = .error e) :
    Raises P (.error e : Except PyError β) :=
  fun _ he => Except.error.inj he ▸ hx e h

theorem ite {c : Prop} [Decidable c] {y : Except PyError α} (hx : c → Raises P x)
    (hy : ¬ c → Raises P y) : Raises P (if c then x else y) := by
  by_cases h : c
  · rw [if_pos h]; exact hx h
  · rw [if_neg h]; exact hy h

theorem bind {f : α → Except PyError β} (hx : Raises P x)
    (hf : ∀ a, x = .ok a → Raises P (f a)) : Raises P (x >>= f) := by
  intro e he
  rcases bind_eq_error.1 he with h | ⟨a, ha, h⟩
  · exact hx e h
  · exact hf a ha e h

theorem forM {f : α → Except PyError Unit} : ∀ {l : List α}, (∀ a ∈ l, Raises P (f a)) →
    Raises P (l.forM f)
  | [], _ => Raises.ok ()
  | a :: l, h => by
    change Raises P (f a >>= fun _ => l.forM f)
    exact (h a List.mem_cons_self).bind fun _ _ =>
      forM fun b hb => h b (List.mem_cons_of_mem _ hb)

end Raises

/-! ## Library functions -/

/-- Argon2id settings of a network. -/
structure PowParams where
  memoryKib : ℕ
  iterations : ℕ
  salt : Bytes := "TalCash/Argon2/1".toUTF8.toList

/-- Where a zlib stream leads: to its end exactly at the end of the bytes,
elsewhere (cut short, or with bytes after it), or to an error. -/
inductive StreamEnd
  | complete
  | elsewhere
  | corrupt
deriving DecidableEq

/-- What `zlib.decompressobj` makes of a byte string: all it unpacks, and
how the stream ends. -/
structure Inflated where
  raw : Bytes
  ending : StreamEnd

/-- The library functions the code is built on. -/
class Library where
  sha256 : Bytes → Digest
  argon2id : PowParams → Bytes → Digest
  verifySignature : PublicKey → Bytes → Signature → Bool
  deflate : Bytes → Bytes
  inflate : Bytes → Inflated

export Library (sha256 argon2id verifySignature deflate inflate)

/-- Library functions whose zlib unpacks what it packed. -/
class Packing extends Library where
  /-- Unpacking what was packed. -/
  inflate_deflate : ∀ b, inflate (deflate b) = ⟨b, .complete⟩
  /-- Packing a segment (at most 64 blocks of 1 MB) gives at least one
  byte and fewer than `2 ^ 32`. -/
  length_deflate : ∀ b, b.length ≤ 64000256 → 0 < (deflate b).length ∧ (deflate b).length < 2 ^ 32

/-- And whose packed streams say where they end. -/
class Primitives extends Packing where
  /-- Nothing complete extends a complete stream. -/
  inflate_append : ∀ a b, (inflate a).ending = .complete → (inflate (a ++ b)).ending = .complete →
    b = []

/-- SHA-256 has no collision among the messages of `S`. -/
def CollisionFree [Library] (S : Set Bytes) : Prop := Set.InjOn sha256 S

theorem CollisionFree.mono [Library] {S S' : Set Bytes} (h : CollisionFree S) (hs : S' ⊆ S) :
    CollisionFree S' := Set.InjOn.mono hs h

end TalCash
