import TalCash.Core.Sample
/-!
# What a block id and a snapshot root commit to

A block id covers the header, the header the txids, and the txids the
transactions; a snapshot root covers the accounts that are not empty. So
each of them fixes what it stands for, among messages without a collision
of SHA-256.
-/

namespace TalCash

open BigEndian

section

variable [Library]

/-! ## Block ids -/

/-- **A block id fixes the whole block.** Of a block that passes
`check_block`, another one that passes has the same id only if it is the
same block, byte by byte; and no other list of transactions keeps both the
id and the rules. -/
theorem blockId_commits {S : Set Bytes} (hS : CollisionFree S) {params : NetworkParams}
    {a b : Block} (ha : ∀ m ∈ a.messages, m ∈ S) (hb : ∀ m ∈ b.messages, m ∈ S)
    (hca : checkBlock params a = .ok ()) :
    (checkBlock params b = .ok () → a.blockId = b.blockId →
      a = b ∧ a.serialize = b.serialize) ∧
    (a.transactions ≠ b.transactions → a.blockId ≠ b.blockId ∨ checkBlock params b ≠ .ok ()) := by
  have heq : checkBlock params b = .ok () → a.blockId = b.blockId → a = b := fun hcb h =>
    eq_of_blockId_eq hS ha hb (checkBlock_ok_iff.1 hca) (checkBlock_ok_iff.1 hcb) h
  refine ⟨fun hcb h => ⟨heq hcb h, congrArg Block.serialize (heq hcb h)⟩, fun hne => ?_⟩
  by_contra hc
  rw [not_or, not_not, not_not] at hc
  exact hne (congrArg Block.transactions (heq hc.2 hc.1))

end

section

attribute [local instance] Sample.primitives

/-- A block with one payment, and the same header over another payment. -/
theorem blockId_commits_sample :
    let coinbase (amount : ℕ) : Transaction := .coinbase
      { Sample.coinbase 1 with amount := amount % 256 ^ 8, amount_lt := Nat.mod_lt _ (by decide) }
    let a := Sample.blockWith [coinbase 5] (genesisBlock Sample.params) NO_SNAPSHOT 1 0 (2 ^ 255)
    let b : Block := ⟨a.header, [coinbase 6], Nat.one_lt_pow (by decide) (by decide)⟩
    a.blockId ≠ b.blockId ∨ checkBlock Sample.params b ≠ .ok () := by
  intro coinbase a b
  refine (blockId_commits (S := {m | m ∈ a.messages ++ b.messages}) ?_ ?_ ?_ ?_).2 ?_
  · exact Sample.collisionFree (fun _ h => h) (by decide +kernel)
  · exact fun m hm => List.mem_append_left _ hm
  · exact fun m hm => List.mem_append_right _ hm
  · exact eq_ok_of_isOk (by decide +kernel)
  · decide +kernel

end

/-! ## Snapshot roots -/

section

variable [Library]

omit [Library] in
/-- The accounts a state root covers. -/
def nonEmptyAccounts (accounts : List (Address × Account)) : List (Address × Account) :=
  accounts.filter fun r => r.2 ≠ EMPTY_ACCOUNT

/-- The leaf of an account whose values fit. -/
def leafBytes (r : Address × Account) : Bytes :=
  r.1.1 ++ beBytes 8 r.2.balance ++ beBytes 8 r.2.nonce

/-- The messages hashed for a state root, `EMPTY_STATE_ROOT` included. -/
def stateMessages (accounts : List (Address × Account)) : List Bytes :=
  [] :: merkleMessages ((orderedAccounts accounts).map leafBytes)

/-- Accounts with balances and nonces that fit, and no address repeated
among those that are not empty. -/
structure ValidAccounts (accounts : List (Address × Account)) : Prop where
  fits : ∀ r ∈ accounts, r.2.balance < 2 ^ 64 ∧ r.2.nonce < 2 ^ 64
  distinct : ((nonEmptyAccounts accounts).map Prod.fst).Nodup

omit [Library] in
theorem mem_orderedAccounts {l : List (Address × Account)} {r : Address × Account} :
    r ∈ orderedAccounts l ↔ r ∈ nonEmptyAccounts l := (orderedAccounts_perm l).mem_iff

omit [Library] in
/-- Sorting looks at the accounts that are not empty. -/
theorem orderedAccounts_nonEmptyAccounts (l : List (Address × Account)) :
    orderedAccounts (nonEmptyAccounts l) = orderedAccounts l := by
  unfold orderedAccounts nonEmptyAccounts
  rw [List.filter_filter]
  simp only [Bool.and_self]

omit [Library] in
theorem leafBytes_inj {r r' : Address × Account}
    (h : r.2.balance < 2 ^ 64 ∧ r.2.nonce < 2 ^ 64)
    (h' : r'.2.balance < 2 ^ 64 ∧ r'.2.nonce < 2 ^ 64) (he : leafBytes r = leafBytes r') :
    r = r' := by
  obtain ⟨a, balance, nonce⟩ := r
  obtain ⟨a', balance', nonce'⟩ := r'
  simp only [leafBytes, List.append_assoc] at he
  obtain ⟨ha, he⟩ := List.append_inj he (by rw [a.2, a'.2])
  obtain ⟨hb, hn⟩ := List.append_inj he (by rw [length_beBytes, length_beBytes])
  have hbalance : balance = balance' := beBytes_injective h.1 h'.1 hb
  have hnonce : nonce = nonce' := beBytes_injective h.2 h'.2 hn
  rw [Subtype.ext ha, hbalance, hnonce]

omit [Library] in
/-- Lists with one image are equal where their entries are told apart. -/
theorem eq_of_map_eq {α β : Type} {f : α → β} : ∀ {l l' : List α},
    (∀ a ∈ l, ∀ b ∈ l', f a = f b → a = b) → l.map f = l'.map f → l = l'
  | [], l', _, h => (List.map_eq_nil_iff.1 h.symm).symm
  | a :: l, [], _, h => by cases h
  | a :: l, b :: l', hf, h => by
    rw [List.map_cons, List.map_cons, List.cons.injEq] at h
    rw [hf a List.mem_cons_self b List.mem_cons_self h.1,
      eq_of_map_eq (fun a ha b hb => hf a (List.mem_cons_of_mem _ ha) b
        (List.mem_cons_of_mem _ hb)) h.2]

namespace ValidAccounts

variable {l l' : List (Address × Account)}

omit [Library] in
theorem leaves_eq (h : ValidAccounts l) :
    (orderedAccounts l).mapM (fun r => accountLeaf r.1 r.2) =
      .ok ((orderedAccounts l).map leafBytes) := by
  rw [mapM_eq_ok, List.forall₂_map_right_iff, List.forall₂_same]
  intro r hr
  obtain ⟨hb, hn⟩ := h.fits r (List.mem_of_mem_filter (mem_orderedAccounts.1 hr))
  rw [accountLeaf, toBytes_of_lt hb, toBytes_of_lt hn]
  rfl

/-- The root of valid accounts: the empty root or a merkle root. -/
theorem stateRoot_eq (h : ValidAccounts l) :
    stateRoot l = if orderedAccounts l = [] then .ok EMPTY_STATE_ROOT
      else merkleRoot ((orderedAccounts l).map leafBytes) := by
  have hnd : ((orderedAccounts l).map Prod.fst).Nodup :=
    ((orderedAccounts_perm l).map Prod.fst).nodup_iff.2 h.distinct
  have hzip : ((orderedAccounts l).zip (orderedAccounts l).tail).any
      (fun p => p.1.1 = p.2.1) = false := by
    simp only [List.any_eq_false, decide_eq_true_eq]
    exact zip_tail_ne hnd
  unfold stateRoot
  simp only [hzip, h.leaves_eq, List.isEmpty_iff]
  rfl

/-- A root exists, and it is the empty one of the empty state only. -/
theorem stateRoot_spec {S : Set Bytes} (hS : CollisionFree S) (h : ValidAccounts l)
    (hl : ∀ m ∈ stateMessages l, m ∈ S) : ∃ root, stateRoot l = .ok root ∧
      (root = EMPTY_STATE_ROOT ↔ orderedAccounts l = []) := by
  rw [h.stateRoot_eq]
  by_cases he : orderedAccounts l = []
  · exact ⟨EMPTY_STATE_ROOT, if_pos he, fun _ => he, fun _ => rfl⟩
  · rw [if_neg he]
    have hne : (orderedAccounts l).map leafBytes ≠ [] := fun h => he (List.map_eq_nil_iff.1 h)
    obtain ⟨root, hroot⟩ := merkleRoot_isOk hne
    refine ⟨root, hroot, fun h0 => ?_, fun h => absurd h he⟩
    obtain ⟨m, hm, hmroot, hne⟩ := exists_message_of_merkleRoot hroot
    have hmem : m ∈ S := hl m (List.mem_cons_of_mem _ hm)
    exact absurd (hS hmem (hl [] List.mem_cons_self) (hmroot.trans h0)) hne

end ValidAccounts

/-- Roots that agree are roots of the same sorted accounts. -/
theorem orderedAccounts_eq_of_stateRoot_eq {S : Set Bytes} (hS : CollisionFree S)
    {l l' : List (Address × Account)} (h : ValidAccounts l) (h' : ValidAccounts l')
    (hl : ∀ m ∈ stateMessages l, m ∈ S) (hl' : ∀ m ∈ stateMessages l', m ∈ S)
    (he : stateRoot l = stateRoot l') : orderedAccounts l = orderedAccounts l' := by
  obtain ⟨root, hroot, hempty⟩ := h.stateRoot_spec hS hl
  obtain ⟨root', hroot', hempty'⟩ := h'.stateRoot_spec hS hl'
  have hsame : root = root' := Except.ok.inj (hroot.symm.trans (he.trans hroot'))
  subst hsame
  by_cases hnil : orderedAccounts l = []
  · rw [hnil, hempty'.1 (hempty.2 hnil)]
  · have hnil' : orderedAccounts l' ≠ [] := fun hn => hnil (hempty.1 (hempty'.2 hn))
    rw [h.stateRoot_eq, if_neg hnil] at hroot
    rw [h'.stateRoot_eq, if_neg hnil'] at hroot'
    have hleaves := eq_of_merkleRoot_eq hS (fun m hm => hl m (List.mem_cons_of_mem _ hm))
      (fun m hm => hl' m (List.mem_cons_of_mem _ hm)) hroot hroot'
    exact eq_of_map_eq (fun r hr r' hr' => leafBytes_inj
      (h.fits r (List.mem_of_mem_filter (mem_orderedAccounts.1 hr)))
      (h'.fits r' (List.mem_of_mem_filter (mem_orderedAccounts.1 hr')))) hleaves

/-- **A snapshot root commits to exactly one state.** Every list of valid
accounts has a root, two lists have the same root exactly where they hold
the same accounts that are not empty, and no other state shares the root
of the empty one. -/
theorem stateRoot_commits {S : Set Bytes} (hS : CollisionFree S)
    {l l' : List (Address × Account)} (h : ValidAccounts l) (h' : ValidAccounts l')
    (hl : ∀ m ∈ stateMessages l, m ∈ S) (hl' : ∀ m ∈ stateMessages l', m ∈ S) :
    (∃ root, stateRoot l = .ok root) ∧
    (stateRoot l = stateRoot l' ↔ ∀ r, r ∈ nonEmptyAccounts l ↔ r ∈ nonEmptyAccounts l') ∧
    (stateRoot l = .ok EMPTY_STATE_ROOT ↔ nonEmptyAccounts l = []) := by
  obtain ⟨root, hroot, hempty⟩ := h.stateRoot_spec hS hl
  refine ⟨⟨root, hroot⟩, ⟨fun he r => ?_, fun hmem => ?_⟩, ?_⟩
  · rw [← mem_orderedAccounts, ← mem_orderedAccounts,
      orderedAccounts_eq_of_stateRoot_eq hS h h' hl hl' he]
  · have hperm : (nonEmptyAccounts l).Perm (nonEmptyAccounts l') :=
      (List.perm_ext_iff_of_nodup h.distinct.of_map h'.distinct.of_map).2 hmem
    have hordered : orderedAccounts l = orderedAccounts l' := by
      rw [← orderedAccounts_nonEmptyAccounts l, ← orderedAccounts_nonEmptyAccounts l',
        orderedAccounts_congr hperm h.distinct]
    rw [h.stateRoot_eq, h'.stateRoot_eq, hordered]
  · rw [hroot, Except.ok.injEq, hempty]
    exact ⟨fun hn => List.Perm.nil_eq (hn ▸ orderedAccounts_perm l) |>.symm,
      fun hn => List.Perm.eq_nil (hn ▸ orderedAccounts_perm l)⟩

end

section

attribute [local instance] Sample.primitives

/-- Neither the order nor an empty account shows in the root. -/
theorem stateRoot_commits_sample :
    let address (n : UInt8) : Address := ⟨n :: List.replicate 20 0, List.length_cons⟩
    stateRoot [(address 3, ⟨5, 0⟩), (address 2, ⟨0, 0⟩), (address 1, ⟨0, 2⟩)] =
      stateRoot [(address 1, ⟨0, 2⟩), (address 3, ⟨5, 0⟩)] := by
  intro address
  have hmem : ∀ {l : List (Address × Account)}, (∀ r ∈ l, r.2.balance < 2 ^ 64 ∧
      r.2.nonce < 2 ^ 64) → ((nonEmptyAccounts l).map Prod.fst).Nodup → ValidAccounts l :=
    fun hf hn => ⟨hf, hn⟩
  refine (stateRoot_commits (S := {m | m ∈ stateMessages
    [(address 3, ⟨5, 0⟩), (address 2, ⟨0, 0⟩), (address 1, ⟨0, 2⟩)] ++ stateMessages
    [(address 1, ⟨0, 2⟩), (address 3, ⟨5, 0⟩)]}) ?_ (hmem ?_ ?_) (hmem ?_ ?_) ?_ ?_).2.1.2 ?_
  · exact Sample.collisionFree (fun _ h => h) (by decide +kernel)
  · decide +kernel
  · decide +kernel
  · decide +kernel
  · decide +kernel
  · exact fun m hm => List.mem_append_left _ hm
  · exact fun m hm => List.mem_append_right _ hm
  · intro r
    have hl : nonEmptyAccounts [(address 3, ⟨5, 0⟩), (address 2, ⟨0, 0⟩), (address 1, ⟨0, 2⟩)] =
        [(address 3, ⟨5, 0⟩), (address 1, ⟨0, 2⟩)] := by decide +kernel
    have hl' : nonEmptyAccounts [(address 1, ⟨0, 2⟩), (address 3, ⟨5, 0⟩)] =
        [(address 1, ⟨0, 2⟩), (address 3, ⟨5, 0⟩)] := by decide +kernel
    rw [hl, hl']
    exact List.Perm.mem_iff (List.Perm.swap _ _ _)

end

end TalCash
