import TalCash.Common.GapScan
import TalCash.Crypto.Hd
/-!
# Wallets

A wallet is one passphrase, encrypted, and a list of the addresses it has
in use. What uses a key first derives the addresses of the list again
(`Wallet.verifiedSeed_eq_ok_iff`); what adds an address leaves a list that
still passes.
-/

namespace TalCash

open Crypto GapScan

/-- What wallets raise. -/
inductive WalletFailure
  | wallet (detail : String)
  | wrongPassword
  | python (error : PyError)

/-- The encrypted passphrase: what the password opens. -/
class Vault (Blob : Type) where
  /-- `_secret`: the words and the extra passphrase. -/
  secret : Blob → Text → Except WalletFailure (Text × Text)

structure WalletAddress where
  index : ℤ
  address : Text
deriving DecidableEq

structure Wallet (Blob : Type) where
  params : Network
  encrypted : Blob
  addresses : List WalletAddress
  /-- The addresses in the wallet file. -/
  file : List WalletAddress

/-- What a function of the other modules raises. -/
def python {α : Type} (x : Except PyError α) : Except WalletFailure α := x.mapError .python

@[simp] theorem python_ok {α : Type} (a : α) : python (.ok a : Except PyError α) = .ok a := rfl

@[simp] theorem python_error {α : Type} (e : PyError) :
    python (.error e : Except PyError α) = .error (.python e) := rfl

theorem python_eq_ok {α : Type} {x : Except PyError α} {a : α} :
    python x = .ok a ↔ x = .ok a := by
  cases x with
  | ok b => rw [python_ok, Except.ok.injEq, Except.ok.injEq]
  | error e => exact ⟨fun h => (by cases h), fun h => (by cases h)⟩

variable {Blob : Type}

/-- `save`. -/
def Wallet.save (w : Wallet Blob) : Wallet Blob := { w with file := w.addresses }

section

variable [Vault Blob] [KeyLibrary] [Library] [Unicode]

/-- The loop of `_verified_seed`. -/
def checkAddresses (seed : Bytes) (params : Network) :
    List WalletAddress → Except WalletFailure Unit
  | [] => .ok ()
  | entry :: rest => do
    let address ← python (deriveAddress seed entry.index params)
    if address ≠ entry.address then
      .error (.wallet (s!"address #{entry.index} in the wallet file does not match its keys " ++
        "(file edited?)"))
    else checkAddresses seed params rest

namespace Wallet

variable (w : Wallet Blob)

/-- `_verified_seed`. -/
def verifiedSeed (password : Text) : Except WalletFailure Bytes := do
  let (phrase, extra) ← Vault.secret w.encrypted password
  let seed ← python (toSeed phrase extra)
  checkAddresses seed w.params w.addresses
  pure seed

/-- `max(a.index for a in self._addresses)`. -/
def maxIndex : Except WalletFailure ℤ :=
  match (w.addresses.map WalletAddress.index).max? with
  | none => .error (.python (.value "max() iterable argument is empty"))
  | some index => .ok index

/-- `new_address`. -/
def newAddress (password : Text) : Except WalletFailure (WalletAddress × Wallet Blob) := do
  let seed ← w.verifiedSeed password
  let last ← w.maxIndex
  let index := last + 1
  let address ← python (deriveAddress seed index w.params)
  let entry : WalletAddress := ⟨index, address⟩
  pure (entry, { w with addresses := w.addresses ++ [entry] }.save)

/-- `known.get(index)`; of several entries with an index the last counts. -/
def known (index : ℤ) : Option Text :=
  (w.addresses.reverse.find? fun a => a.index = index).map WalletAddress.address

end Wallet

/-- The variables of the loop of `discover`, and what `is_used` was asked. -/
structure Search where
  /-- `found`: its keys are the indexes from 0 on. -/
  found : List Text
  lastUsed : ℤ
  index : ℕ
  asked : List Text

/-- `known.get(index) or _derive_address(...)`. -/
def addressAt (seed : Bytes) (w : Wallet Blob) (index : ℤ) : Except WalletFailure Text :=
  match w.known index with
  | some address => if address ≠ [] then .ok address else python (deriveAddress seed index w.params)
  | none => python (deriveAddress seed index w.params)

/-- The loop of `discover`, for at most `rounds` rounds. -/
def searchLoop (seed : Bytes) (w : Wallet Blob) (isUsed : Text → Bool) (gap : ℤ) :
    (rounds : ℕ) → Search → Except WalletFailure Search
  | 0, s => if s.index - s.lastUsed ≤ gap then .error (.python .diverged) else .ok s
  | rounds + 1, s =>
    if s.index - s.lastUsed ≤ gap then do
      let address ← addressAt seed w s.index
      let lastUsed := if isUsed address then (s.index : ℤ) else s.lastUsed
      searchLoop seed w isUsed gap rounds
        ⟨s.found ++ [address], lastUsed, s.index + 1, s.asked ++ [address]⟩
    else .ok s

/-- `WalletAddress(i, found[i])`. -/
def Search.entryAt (s : Search) (i : ℕ) : Except WalletFailure WalletAddress :=
  match s.found[i]? with
  | some address => .ok ⟨i, address⟩
  | none => .error (.python .key)

/-- What `discover` returns, the wallet it leaves and what it asked. -/
structure Discovery (Blob : Type) where
  added : List WalletAddress
  wallet : Wallet Blob
  asked : List Text

/-- The rounds after which every index was asked for that has an address. -/
def ROUNDS : ℕ := 2 ^ 32 + 1

/-- `discover`. -/
def Wallet.discover (w : Wallet Blob) (password : Text) (isUsed : Text → Bool) (gap : ℤ) :
    Except WalletFailure (Discovery Blob) :=
  if gap < 1 then .error (.python (.value "the gap must be at least 1"))
  else do
    let seed ← w.verifiedSeed password
    let s ← searchLoop seed w isUsed gap ROUNDS ⟨[], -1, 0, []⟩
    let unknown := (List.range (s.lastUsed + 1).toNat).filter fun i : ℕ => (w.known i).isNone
    let added ← unknown.mapM s.entryAt
    if added = [] then pure ⟨added, w, s.asked⟩
    else
      let addresses := (w.addresses ++ added).mergeSort fun a b => a.index ≤ b.index
      pure ⟨added, { w with addresses := addresses }.save, s.asked⟩

end

/-! ## Lists that pass verification -/

section

variable [Vault Blob] [KeyLibrary] [Library] [Unicode]

/-- Every address is the one of its index. -/
def Derived (seed : Bytes) (params : Network) (addresses : List WalletAddress) : Prop :=
  ∀ a ∈ addresses, deriveAddress seed a.index params = .ok a.address

omit [Unicode] in
theorem checkAddresses_eq_ok_iff {seed : Bytes} {params : Network}
    {addresses : List WalletAddress} :
    checkAddresses seed params addresses = .ok () ↔ Derived seed params addresses := by
  induction addresses with
  | nil => exact ⟨fun _ a ha => absurd ha List.not_mem_nil, fun _ => rfl⟩
  | cons entry rest ih =>
    rw [checkAddresses, Derived, List.forall_mem_cons]
    cases hd : deriveAddress seed entry.index params with
    | error e =>
      rw [python_error, error_bind]
      exact ⟨fun h => (by cases h), fun h => (by cases h.1)⟩
    | ok address =>
      rw [python_ok, ok_bind, Except.ok.injEq]
      by_cases hne : address = entry.address
      · rw [if_neg (not_not.2 hne), ih]
        exact ⟨fun h => ⟨hne, h⟩, fun h => h.2⟩
      · rw [if_pos hne]
        exact ⟨fun h => (by cases h), fun h => absurd h.1 hne⟩

namespace Wallet

/-- The seed behind the password. -/
def Opens (w : Wallet Blob) (password : Text) (seed : Bytes) : Prop :=
  ∃ phrase extra, Vault.secret w.encrypted password = .ok (phrase, extra) ∧
    toSeed phrase extra = .ok seed

/-- **What passes verification.** -/
theorem verifiedSeed_eq_ok_iff {w : Wallet Blob} {password : Text} {seed : Bytes} :
    w.verifiedSeed password = .ok seed ↔
      w.Opens password seed ∧ Derived seed w.params w.addresses := by
  simp only [verifiedSeed, bind_eq_ok, python_eq_ok, Prod.exists, Opens,
    ← checkAddresses_eq_ok_iff]
  constructor
  · rintro ⟨phrase, extra, hsecret, seed', hseed, _, hcheck, h⟩
    cases h
    exact ⟨⟨phrase, extra, hsecret, hseed⟩, hcheck⟩
  · rintro ⟨⟨phrase, extra, hsecret, hseed⟩, hcheck⟩
    exact ⟨phrase, extra, hsecret, seed, hseed, (), hcheck, rfl⟩

/-- What adds entries with the addresses of their indexes leaves a list that
passes with the same password. -/
theorem verifiedSeed_of_perm {w w' : Wallet Blob} {password : Text} {seed : Bytes}
    (h : w.verifiedSeed password = .ok seed) (hparams : w'.params = w.params)
    (hencrypted : w'.encrypted = w.encrypted) {added : List WalletAddress}
    (hadded : Derived seed w.params added)
    (hperm : w'.addresses.Perm (w.addresses ++ added)) : w'.verifiedSeed password = .ok seed := by
  obtain ⟨⟨phrase, extra, hsecret, hseed⟩, hderived⟩ := verifiedSeed_eq_ok_iff.1 h
  refine verifiedSeed_eq_ok_iff.2 ⟨⟨phrase, extra, by rw [hencrypted]; exact hsecret, hseed⟩,
    fun a ha => ?_⟩
  rw [hparams]
  exact (List.mem_append.1 (hperm.mem_iff.1 ha)).elim (hderived a) (hadded a)

omit [Vault Blob] [KeyLibrary] [Library] [Unicode] in
theorem le_maxIndex {w : Wallet Blob} {last : ℤ} (h : w.maxIndex = .ok last) :
    ∀ a ∈ w.addresses, a.index ≤ last := by
  intro a ha
  rw [maxIndex] at h
  split at h
  · cases h
  · rename_i index hmax
    cases h
    exact (List.max?_eq_some_iff.1 hmax).2 _ (List.mem_map_of_mem ha)

/-- **A new address** comes after all the others, and the wallet still
passes verification. -/
theorem newAddress_spec {w w' : Wallet Blob} {password : Text} {entry : WalletAddress}
    (h : w.newAddress password = .ok (entry, w')) :
    w'.addresses = w.addresses ++ [entry] ∧ (∀ a ∈ w.addresses, a.index < entry.index) ∧
      w'.file = w'.addresses ∧
      ∃ seed, w.verifiedSeed password = .ok seed ∧ w'.verifiedSeed password = .ok seed := by
  simp only [newAddress, bind_eq_ok, python_eq_ok] at h
  obtain ⟨seed, hseed, last, hlast, address, haddress, h⟩ := h
  cases h
  have hnew : Derived seed w.params [⟨last + 1, address⟩] := fun a ha => by
    rw [List.mem_singleton.1 ha]
    exact haddress
  refine ⟨rfl, fun a ha => ?_, rfl, seed, hseed,
    verifiedSeed_of_perm hseed rfl rfl hnew (List.Perm.refl _)⟩
  exact Int.lt_add_one_iff.2 (le_maxIndex hlast a ha)

end Wallet

end

end TalCash
