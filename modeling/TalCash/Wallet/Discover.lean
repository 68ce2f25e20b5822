import TalCash.Wallet.Wallet
/-!
# Finding used addresses

The loop of `discover` is a search up to a gap: its invariant `Searched`
holds at every round (`Searched.next`), and where it stops it has asked for
everything up to a gap behind the last used address that can be reached
(`searchLoop_spec`). Addresses made by hand change nothing in the search,
and are not added again (`discover_finds`).
-/

namespace TalCash

open Crypto GapScan

section

variable {Blob : Type} [KeyLibrary] [Library]

/-- The index of a used address. -/
def UsedAt (seed : Bytes) (params : Network) (isUsed : Text → Bool) (index : ℕ) : Prop :=
  ∃ address, deriveAddress seed index params = .ok address ∧ isUsed address = true

/-- The addresses of the first `n` indexes, in order. -/
def FirstAddresses (seed : Bytes) (params : Network) (n : ℕ) (addresses : List Text) : Prop :=
  addresses.map Except.ok = (List.range n).map fun i : ℕ => deriveAddress seed i params

variable {seed : Bytes} {params : Network} {isUsed : Text → Bool} {gap : ℕ}

/-! ## One round -/

theorem FirstAddresses.concat {n : ℕ} {addresses : List Text} {address : Text}
    (h : FirstAddresses seed params n addresses) (ha : deriveAddress seed n params = .ok address) :
    FirstAddresses seed params (n + 1) (addresses ++ [address]) := by
  rw [FirstAddresses, List.map_append, h, List.range_succ, List.map_append, List.map_singleton,
    List.map_singleton, ha]

theorem FirstAddresses.getElem? {n i : ℕ} {addresses : List Text}
    (h : FirstAddresses seed params n addresses) (hi : i < n) :
    ∃ address, addresses[i]? = some address ∧ deriveAddress seed i params = .ok address := by
  have hget := congrArg (fun l => l[i]?) h
  simp only [List.getElem?_map, List.getElem?_range hi, Option.map_some,
    Option.map_eq_some_iff] at hget
  obtain ⟨address, ha, hd⟩ := hget
  exact ⟨address, ha, hd.symm⟩

/-- What holds between two rounds. -/
structure Searched (seed : Bytes) (params : Network) (isUsed : Text → Bool) (gap : ℕ)
    (s : Search) : Prop where
  scanned : Scanned (UsedAt seed params isUsed) gap s.lastUsed s.index
  found : FirstAddresses seed params s.index s.found
  asked : s.asked = s.found
  index_le : s.index ≤ 2 ^ 32

theorem Searched.init : Searched seed params isUsed gap ⟨[], -1, 0, []⟩ where
  scanned := .init
  found := rfl
  asked := rfl
  index_le := Nat.zero_le _

/-- **One round** asks for one more address. -/
theorem Searched.next {s : Search} {address : Text} (h : Searched seed params isUsed gap s)
    (hgap : s.index - s.lastUsed ≤ gap) (ha : deriveAddress seed s.index params = .ok address)
    (hlt : s.index < 2 ^ 32) :
    Searched seed params isUsed gap ⟨s.found ++ [address],
      if isUsed address then (s.index : ℤ) else s.lastUsed, s.index + 1, s.asked ++ [address]⟩ where
  scanned := by
    dsimp only
    split
    · exact h.scanned.hit hgap ⟨address, ha, ‹_›⟩
    · rename_i hunused
      refine h.scanned.miss hgap ?_
      rintro ⟨address', ha', hused⟩
      rw [ha, Except.ok.injEq] at ha'
      exact hunused (ha' ▸ hused)
  found := h.found.concat ha
  asked := by rw [h.asked]
  index_le := hlt

/-- Nothing is used where there are no addresses left, so the last one used
is the last one reached. -/
theorem Searched.isLast {s : Search} (h : Searched seed params isUsed gap s)
    (hindex : s.index = 2 ^ 32) : IsLast (UsedAt seed params isUsed) gap s.lastUsed := by
  refine ⟨h.scanned.found, ?_⟩
  rintro m (rfl | ⟨i, rfl, ⟨address, ha, hused⟩, -⟩)
  · exact h.scanned.neg_one_le
  · refine h.scanned.above i ?_ ⟨address, ha, hused⟩
    by_contra hge
    rw [deriveAddress_of_ge seed params (hindex ▸ not_lt.1 hge)] at ha
    cases ha

/-! ## The loop -/

/-- Entries that pass verification give the addresses derivation gives. -/
theorem addressAt_eq {w : Wallet Blob} (hw : Derived seed w.params w.addresses) (index : ℤ) :
    addressAt seed w index = python (deriveAddress seed index w.params) := by
  rw [addressAt]
  split
  · rename_i address hknown
    obtain ⟨a, ha, rfl⟩ := Option.map_eq_some_iff.1 hknown
    have hmatch := List.find?_some ha
    have hindex : a.index = index := of_decide_eq_true hmatch
    have hderived := hw a (List.mem_reverse.1 (List.mem_of_find?_eq_some ha))
    rw [← hindex, hderived, python_ok, ite_self]
  · rfl

/-- **The loop** stops a gap behind the last address that is reached, or
raises where derivation runs out of indexes. -/
theorem searchLoop_spec {w : Wallet Blob} (hw : Derived seed w.params w.addresses) :
    ∀ (rounds : ℕ) (s : Search), Searched seed w.params isUsed gap s → ROUNDS ≤ rounds + s.index →
    ∃ L, IsLast (UsedAt seed w.params isUsed) gap L ∧
      ((∃ s', searchLoop seed w isUsed gap rounds s = .ok s' ∧
          Searched seed w.params isUsed gap s' ∧ s'.lastUsed = L ∧ s'.index = L + gap + 1) ∨
        2 ^ 32 ≤ L + gap ∧
          searchLoop seed w isUsed gap rounds s = .error (.python .overflow)) := by
  intro rounds
  induction rounds with
  | zero =>
    intro s hs hrounds
    have := hs.index_le
    have hROUNDS : ROUNDS = 2 ^ 32 + 1 := rfl
    omega
  | succ rounds ih =>
    intro s hs hrounds
    rw [searchLoop]
    by_cases hgap : (s.index : ℤ) - s.lastUsed ≤ gap
    · rw [if_pos hgap, addressAt_eq hw]
      rcases Nat.lt_or_ge s.index (2 ^ 32) with hlt | hge
      · obtain ⟨address, ha⟩ := deriveAddress_of_lt seed w.params hlt
        rw [ha, python_ok, ok_bind]
        exact ih _ (hs.next hgap ha hlt) (by dsimp only; omega)
      · have hindex := Nat.le_antisymm hs.index_le hge
        refine ⟨s.lastUsed, hs.isLast hindex, .inr ⟨by omega, ?_⟩⟩
        rw [deriveAddress_of_ge seed w.params hge, python_error, error_bind]
    · obtain ⟨hindex, hlast⟩ := hs.scanned.stop hgap
      rw [if_neg hgap]
      exact ⟨s.lastUsed, hlast, .inl ⟨s, rfl, hs, rfl, hindex⟩⟩

/-! ## What is added -/

omit [KeyLibrary] [Library] in
theorem isNone_known_iff {w : Wallet Blob} {index : ℤ} :
    (w.known index).isNone = true ↔ index ∉ w.addresses.map WalletAddress.index := by
  rw [Wallet.known, Option.isNone_map, Option.isNone_iff_eq_none, List.find?_eq_none]
  simp only [List.mem_reverse, decide_eq_true_eq, List.mem_map, not_exists, not_and]

/-- The entries of indexes that were asked for. -/
theorem mapM_entryAt {s : Search} (hs : FirstAddresses seed params s.index s.found) :
    ∀ (indexes : List ℕ), (∀ i ∈ indexes, i < s.index) →
    ∃ added, indexes.mapM s.entryAt = .ok added ∧
      added.map WalletAddress.index = indexes.map Nat.cast ∧ Derived seed params added := by
  intro indexes
  induction indexes with
  | nil => exact fun _ => ⟨[], rfl, rfl, fun _ ha => absurd ha List.not_mem_nil⟩
  | cons i indexes ih =>
    intro h
    obtain ⟨hi, hrest⟩ := List.forall_mem_cons.1 h
    obtain ⟨address, hget, hd⟩ := hs.getElem? hi
    obtain ⟨added, hadded, hindexes, hderived⟩ := ih hrest
    have hentry : s.entryAt i = .ok ⟨i, address⟩ := by rw [Search.entryAt, hget]
    refine ⟨⟨i, address⟩ :: added, ?_, ?_, List.forall_mem_cons.2 ⟨hd, hderived⟩⟩
    · rw [List.mapM_cons, hentry, ok_bind, hadded, ok_bind]
      rfl
    · rw [List.map_cons, List.map_cons, hindexes]

/-- The indexes up to the last one used that the wallet has no address of. -/
def Wallet.missing (w : Wallet Blob) (L : ℤ) : List ℤ :=
  ((List.range (L + 1).toNat).map Nat.cast).filter fun i => i ∉ w.addresses.map WalletAddress.index

omit [KeyLibrary] [Library] in
theorem mem_missing_iff {w : Wallet Blob} {L i : ℤ} :
    i ∈ w.missing L ↔ i ∉ w.addresses.map WalletAddress.index ∧ 0 ≤ i ∧ i ≤ L := by
  rw [Wallet.missing, List.mem_filter, decide_eq_true_iff, List.mem_map, and_comm]
  refine and_congr_right fun _ => ⟨?_, fun h => ⟨i.toNat, List.mem_range.2 ?_, ?_⟩⟩
  · rintro ⟨n, hn, rfl⟩
    have := List.mem_range.1 hn
    omega
  · omega
  · omega

omit [KeyLibrary] [Library] in
theorem nodup_missing (w : Wallet Blob) (L : ℤ) : (w.missing L).Nodup :=
  (List.nodup_range.map Nat.cast_injective).filter _

omit [KeyLibrary] [Library] in
theorem map_unknown (w : Wallet Blob) (L : ℤ) :
    (((List.range (L + 1).toNat).filter fun i : ℕ => (w.known i).isNone).map Nat.cast : List ℤ) =
      w.missing L := by
  rw [Wallet.missing, List.filter_map]
  congr 1
  refine List.filter_congr fun i _ => ?_
  rw [Bool.eq_iff_iff, isNone_known_iff, Function.comp_apply, decide_eq_true_iff]

variable {w : Wallet Blob}

/-- What a discovery did: it asked for the addresses up to a gap behind
the last one reached, and added those that were missing up to that one. -/
structure Discovers (w : Wallet Blob) (seed : Bytes) (gap : ℕ) (L : ℤ) (d : Discovery Blob) :
    Prop where
  asked : FirstAddresses seed w.params (L + gap + 1).toNat d.asked
  added : d.added.map WalletAddress.index = w.missing L
  derived : Derived seed w.params d.added
  params : d.wallet.params = w.params
  encrypted : d.wallet.encrypted = w.encrypted
  perm : d.wallet.addresses.Perm (w.addresses ++ d.added)
  unchanged : d.added = [] → d.wallet = w
  sorted : d.added ≠ [] → d.wallet.addresses.Pairwise (fun a b => a.index ≤ b.index) ∧
    d.wallet.file = d.wallet.addresses

namespace Discovers

variable {L : ℤ} {d : Discovery Blob}

/-- The indexes of the wallet afterwards. -/
theorem mem_indexes_iff (h : Discovers w seed gap L d) {i : ℤ} :
    i ∈ d.wallet.addresses.map WalletAddress.index ↔
      i ∈ w.addresses.map WalletAddress.index ∨ 0 ≤ i ∧ i ≤ L := by
  rw [(h.perm.map _).mem_iff, List.map_append, List.mem_append, h.added, mem_missing_iff]
  tauto

/-- Each once, if each was there once. -/
theorem nodup (h : Discovers w seed gap L d) (hw : (w.addresses.map WalletAddress.index).Nodup) :
    (d.wallet.addresses.map WalletAddress.index).Nodup := by
  rw [(h.perm.map _).nodup_iff, List.map_append, h.added, List.nodup_append']
  exact ⟨hw, nodup_missing w L, fun i hi hm => (mem_missing_iff.1 hm).1 hi⟩

/-- In increasing order, if they were. -/
theorem increasing (h : Discovers w seed gap L d)
    (hw : (w.addresses.map WalletAddress.index).Pairwise (· < ·)) :
    (d.wallet.addresses.map WalletAddress.index).Pairwise (· < ·) := by
  by_cases hnil : d.added = []
  · rw [h.unchanged hnil]
    exact hw
  · have hle := List.pairwise_map.2 (h.sorted hnil).1
    have hne : (d.wallet.addresses.map WalletAddress.index).Pairwise (· ≠ ·) :=
      h.nodup (hw.imp fun hlt => hlt.ne)
    exact (hle.and hne).imp fun hab => lt_of_le_of_ne hab.1 hab.2

end Discovers

variable [Vault Blob] [Unicode] {password : Text}

/-- **What `discover` does.** -/
theorem discover_spec (hseed : w.verifiedSeed password = .ok seed) (hgap : 1 ≤ gap)
    (isUsed : Text → Bool) :
    ∃ L, IsLast (UsedAt seed w.params isUsed) gap L ∧
      ((L + gap < 2 ^ 32 ∧
          ∃ d, w.discover password isUsed gap = .ok d ∧ Discovers w seed gap L d) ∨
        2 ^ 32 ≤ L + gap ∧ w.discover password isUsed gap = .error (.python .overflow)) := by
  have hderived := (Wallet.verifiedSeed_eq_ok_iff.1 hseed).2
  have hinit : Searched seed w.params isUsed gap ⟨[], -1, 0, []⟩ := .init
  obtain ⟨L, hlast, hloop⟩ := searchLoop_spec hderived ROUNDS _ hinit le_rfl
  have hguard : ¬ (gap : ℤ) < 1 := by omega
  refine ⟨L, hlast, ?_⟩
  rw [Wallet.discover, if_neg hguard, hseed, ok_bind]
  rcases hloop with ⟨s, hs, hsearched, rfl, hindex⟩ | ⟨hge, hraise⟩
  · have hle := hsearched.index_le
    have hneg := hlast.neg_one_le
    refine .inl ⟨by omega, ?_⟩
    obtain ⟨added, hadded, hindexes, hnew⟩ := mapM_entryAt hsearched.found
      ((List.range (s.lastUsed + 1).toNat).filter fun i : ℕ => (w.known i).isNone)
      fun i hi => by
        have := List.mem_range.1 (List.mem_filter.1 hi).1
        omega
    rw [map_unknown] at hindexes
    have hasked : FirstAddresses seed w.params (s.lastUsed + gap + 1).toNat s.asked := by
      rw [hsearched.asked, show (s.lastUsed + gap + 1).toNat = s.index by omega]
      exact hsearched.found
    dsimp only
    rw [hs, ok_bind, hadded, ok_bind]
    by_cases hnil : added = []
    · rw [if_pos hnil]
      refine ⟨_, rfl, hasked, hindexes, hnew, rfl, rfl, ?_, fun _ => rfl, fun h => absurd hnil h⟩
      rw [hnil, List.append_nil]
    · rw [if_neg hnil]
      refine ⟨_, rfl, hasked, hindexes, hnew, rfl, rfl, List.mergeSort_perm _ _,
        fun h => absurd h hnil, fun _ => ⟨?_, rfl⟩⟩
      refine (List.pairwise_mergeSort (fun a b c hab hbc => ?_) (fun a b => ?_) _).imp
        fun hle => of_decide_eq_true hle
      · exact decide_eq_true ((of_decide_eq_true hab).trans (of_decide_eq_true hbc))
      · rw [Bool.or_eq_true, decide_eq_true_iff, decide_eq_true_iff]
        exact le_total _ _
  · rw [hraise, error_bind]
    exact .inr ⟨hge, rfl⟩

namespace Discovers

variable {L : ℤ} {d : Discovery Blob}

/-- The wallet passes verification with the password. -/
theorem verified (h : Discovers w seed gap L d) (hseed : w.verifiedSeed password = .ok seed) :
    d.wallet.verifiedSeed password = .ok seed :=
  Wallet.verifiedSeed_of_perm hseed h.params h.encrypted h.derived h.perm

/-- **A second discovery adds nothing.** -/
theorem again (h : Discovers w seed gap L d) (hseed : w.verifiedSeed password = .ok seed)
    (hgap : 1 ≤ gap) {isUsed : Text → Bool} (hL : IsLast (UsedAt seed w.params isUsed) gap L)
    (hlt : L + gap < 2 ^ 32) :
    ∃ d', d.wallet.discover password isUsed gap = .ok d' ∧ d'.added = [] ∧
      d'.wallet = d.wallet := by
  obtain ⟨L', hL', ⟨-, d', hd', hdis⟩ | ⟨hge, -⟩⟩ := discover_spec (h.verified hseed) hgap isUsed
  · rw [h.params] at hL'
    obtain rfl := hL.unique hL'
    have hnone : d'.added = [] := by
      rw [← List.map_eq_nil_iff (f := WalletAddress.index), hdis.added,
        List.eq_nil_iff_forall_not_mem]
      intro i hi
      obtain ⟨hni, hle⟩ := mem_missing_iff.1 hi
      exact hni (h.mem_indexes_iff.2 (.inr hle))
    exact ⟨d', hd', hnone, hdis.unchanged hnone⟩
  · rw [h.params] at hL'
    obtain rfl := hL.unique hL'
    omega

end Discovers

/-- **Restoring finds the used addresses within the gap.** Let a wallet
pass verification, `gap` be at least 1, and `L` be the greatest used index
that is reached from 0 without `gap` unused ones in a row, or -1. If
`L + gap` is an index of four bytes, `discover` returns; it asked for the
addresses of `0 .. L + gap` in order, once each; the wallet then has the
indexes `0 .. L` and those it had, each once and in increasing order if
the list was; what is returned are the entries that are new; and a second
call adds nothing. Otherwise `discover` raises `OverflowError`. -/
theorem discover_finds (hseed : w.verifiedSeed password = .ok seed) (hgap : 1 ≤ gap)
    (isUsed : Text → Bool) :
    ∃ L, IsLast (UsedAt seed w.params isUsed) gap L ∧
      (L + gap < 2 ^ 32 → ∃ d, w.discover password isUsed gap = .ok d ∧
        FirstAddresses seed w.params (L + gap + 1).toNat d.asked ∧
        (∀ i, i ∈ d.wallet.addresses.map WalletAddress.index ↔
          i ∈ w.addresses.map WalletAddress.index ∨ 0 ≤ i ∧ i ≤ L) ∧
        ((w.addresses.map WalletAddress.index).Nodup →
          (d.wallet.addresses.map WalletAddress.index).Nodup) ∧
        ((w.addresses.map WalletAddress.index).Pairwise (· < ·) →
          (d.wallet.addresses.map WalletAddress.index).Pairwise (· < ·)) ∧
        d.wallet.addresses.Perm (w.addresses ++ d.added) ∧
        (d.added.map WalletAddress.index).Nodup ∧
        (∀ i, i ∈ d.added.map WalletAddress.index ↔
          i ∉ w.addresses.map WalletAddress.index ∧ 0 ≤ i ∧ i ≤ L) ∧
        Derived seed w.params d.added ∧
        ∃ d', d.wallet.discover password isUsed gap = .ok d' ∧ d'.added = [] ∧
          d'.wallet = d.wallet) ∧
      (2 ^ 32 ≤ L + gap → w.discover password isUsed gap = .error (.python .overflow)) := by
  obtain ⟨L, hL, ⟨hlt, d, hd, h⟩ | ⟨hge, hraise⟩⟩ := discover_spec hseed hgap isUsed
  · refine ⟨L, hL, fun _ => ⟨d, hd, h.asked, fun i => h.mem_indexes_iff, h.nodup, h.increasing,
      h.perm, ?_, fun i => ?_, h.derived, h.again hseed hgap hL hlt⟩, fun hge => by omega⟩
    · rw [h.added]
      exact nodup_missing w L
    · rw [h.added, mem_missing_iff]
  · exact ⟨L, hL, fun hlt => by omega, fun _ => hraise⟩

end

/-! ## A sample wallet -/

/-- Key functions that are easy to compute with. -/
@[reducible] def Sample.keys : KeyLibrary where
  hmacSha512 key message := Sample.hash (key ++ message) ++ Sample.hash (message ++ key)
  pbkdf2 password salt := (Sample.hash (password ++ salt)).toList
  publicKey key := (Sample.hash key).reverse

/-- A vault that any password opens. -/
@[reducible] def Sample.vault : Vault Unit where
  secret _ _ := .ok (text "abandon", [])

attribute [local instance] Sample.primitives Sample.unicode Sample.keys Sample.vault

/-- The seed of the vault. -/
def Sample.seed : Bytes := (toSeed (text "abandon") []).toOption.getD []

/-- A wallet with its first address. -/
def Sample.wallet : Wallet Unit where
  params := REGTEST
  encrypted := ()
  addresses := [⟨0, (deriveAddress Sample.seed 0 REGTEST).toOption.getD []⟩]
  file := []

theorem verifiedSeed_sample : Sample.wallet.verifiedSeed [] = .ok Sample.seed := by
  have h : (Sample.wallet.verifiedSeed []).toOption = some Sample.seed := by decide +kernel
  cases hv : Sample.wallet.verifiedSeed [] with
  | error e =>
    rw [hv] at h
    cases h
  | ok seed =>
    rw [hv] at h
    cases h
    rfl

/-- The addresses with these indexes are used. -/
def Sample.isUsed (indexes : List ℕ) (address : Text) : Bool :=
  indexes.any fun i => (deriveAddress Sample.seed i REGTEST).toOption == some address

/-- With 0, 2 and 5 used and a gap of 2 the last one reached is 2. -/
theorem discover_finds_sample :
    ∃ L, IsLast (UsedAt Sample.seed REGTEST (Sample.isUsed [0, 2, 5])) 2 L ∧
      (L + 2 < 2 ^ 32 →
        ∃ d, Sample.wallet.discover [] (Sample.isUsed [0, 2, 5]) 2 = .ok d ∧
          FirstAddresses Sample.seed REGTEST (L + 2 + 1).toNat d.asked ∧
          d.added.map WalletAddress.index = [1, 2]) := by
  obtain ⟨L, hL, hfinds, -⟩ := discover_finds verifiedSeed_sample (show 1 ≤ 2 by decide)
    (Sample.isUsed [0, 2, 5])
  refine ⟨L, hL, fun hlt => ?_⟩
  obtain ⟨d, hd, hasked, -⟩ := hfinds hlt
  have hadded : (Sample.wallet.discover [] (Sample.isUsed [0, 2, 5]) 2).toOption.map
      (fun d => d.added.map WalletAddress.index) = some [1, 2] := by decide +kernel
  refine ⟨d, hd, hasked, ?_⟩
  rw [show ((2 : ℕ) : ℤ) = 2 from rfl] at hd
  rw [hd] at hadded
  exact Option.some.inj hadded

/-- **A gap of more than `2 ^ 32` raises**: the indexes of four bytes run
out before it ends. -/
theorem discover_overflows : ¬ ∀ (w : Wallet Unit) (password : Text) (seed : Bytes) (gap : ℕ)
    (isUsed : Text → Bool), w.verifiedSeed password = .ok seed → 1 ≤ gap →
    {i | UsedAt seed w.params isUsed i}.Finite →
    ∃ d, w.discover password isUsed gap = .ok d := by
  intro h
  have hunused : ∀ i, ¬ UsedAt Sample.seed REGTEST (fun _ => false) i := by
    rintro i ⟨_, -, hused⟩
    cases hused
  have hempty : {i | UsedAt Sample.seed REGTEST (fun _ => false) i} = ∅ :=
    Set.eq_empty_iff_forall_notMem.2 hunused
  obtain ⟨d, hd⟩ := h Sample.wallet [] Sample.seed (2 ^ 32 + 1) (fun _ => false)
    verifiedSeed_sample (by norm_num) (hempty ▸ Set.finite_empty)
  obtain ⟨L, hL, ⟨hlt, -⟩ | ⟨-, hraise⟩⟩ := discover_spec verifiedSeed_sample
    (show 1 ≤ 2 ^ 32 + 1 by norm_num) fun _ => false
  · have hneg := hL.neg_one_le
    push_cast at hlt
    omega
  · rw [hraise] at hd
    cases hd

end TalCash
