import TalCash.Core.State
/-!
# Balance snapshots

The root over every non-empty account, sorted by address, and the heights
at which it is taken and demanded. The root depends only on which rows
there are, not on their order (`stateRoot_congr`).
-/

namespace TalCash

open BigEndian

variable [Library]

/-- Header value for blocks before the first snapshot. -/
def NO_SNAPSHOT : Digest := zeroBytes 32

/-- Root of a state with no accounts. -/
def EMPTY_STATE_ROOT : Digest := sha256 []

/-- `int.to_bytes(size, "big")`. -/
def toBytes (value size : ℕ) : Except PyError Bytes :=
  if 256 ^ size ≤ value then .error .overflow else .ok (beBytes size value)

/-- `account_leaf`. -/
def accountLeaf (address : Address) (account : Account) : Except PyError Bytes := do
  let balance ← toBytes account.balance 8
  let nonce ← toBytes account.nonce 8
  pure (address.1 ++ balance ++ nonce)

/-- The order of `sorted(…, key=lambda item: item[0])`. -/
def addressLe (a b : Address × Account) : Prop := a.1.1 ≤ b.1.1

instance : DecidableRel addressLe := fun a b => inferInstanceAs (Decidable (a.1.1 ≤ b.1.1))

/-- The non-empty accounts in order of address. -/
def orderedAccounts (accounts : List (Address × Account)) : List (Address × Account) :=
  (accounts.filter fun r => r.2 ≠ EMPTY_ACCOUNT).insertionSort addressLe

/-- `state_root`. -/
def stateRoot (accounts : List (Address × Account)) : Except PyError Digest :=
  let ordered := orderedAccounts accounts
  if (ordered.zip ordered.tail).any fun p => p.1.1 = p.2.1 then
    .error (.value "an address appears twice in the state")
  else if ordered.isEmpty then .ok EMPTY_STATE_ROOT
  else do
    let leaves ← ordered.mapM fun r => accountLeaf r.1 r.2
    merkleRoot leaves

omit [Library] in
theorem orderedAccounts_perm (accounts : List (Address × Account)) :
    (orderedAccounts accounts).Perm (accounts.filter fun r => r.2 ≠ EMPTY_ACCOUNT) :=
  List.perm_insertionSort _ _

omit [Library] in
theorem addressLe_total : Std.Total addressLe := ⟨fun a b => List.le_total a.1.1 b.1.1⟩

omit [Library] in
theorem addressLe_trans : IsTrans (Address × Account) addressLe := ⟨fun _ _ _ => List.le_trans⟩

omit [Library] in
/-- Sorting forgets the order the rows came in. -/
theorem orderedAccounts_congr {l l' : List (Address × Account)} (h : l.Perm l')
    (hn : (l.map Prod.fst).Nodup) : orderedAccounts l = orderedAccounts l' := by
  have := addressLe_total
  have := addressLe_trans
  have hp : (orderedAccounts l).Perm (orderedAccounts l') :=
    (orderedAccounts_perm l).trans ((h.filter _).trans (orderedAccounts_perm l').symm)
  refine hp.eq_of_pairwise ?_ (List.pairwise_insertionSort _ _) (List.pairwise_insertionSort _ _)
  intro a b ha hb hab hba
  have ha' : a ∈ l := List.mem_of_mem_filter ((orderedAccounts_perm l).mem_iff.1 ha)
  have hb' : b ∈ l := h.mem_iff.2 (List.mem_of_mem_filter ((orderedAccounts_perm l').mem_iff.1 hb))
  exact List.inj_on_of_nodup_map hn ha' hb' (Subtype.ext (List.le_antisymm hab hba))

/-- **The root depends on the accounts, not on the order of the rows.** -/
theorem stateRoot_congr {l l' : List (Address × Account)} (h : l.Perm l')
    (hn : (l.map Prod.fst).Nodup) : stateRoot l = stateRoot l' := by
  unfold stateRoot
  rw [orderedAccounts_congr h hn]

omit [Library] in
theorem toBytes_of_lt {value size : ℕ} (h : value < 256 ^ size) :
    toBytes value size = .ok (beBytes size value) := if_neg (not_le.2 h)

omit [Library] in
theorem zip_tail_ne {κ ν : Type} {l : List (κ × ν)} (h : (l.map Prod.fst).Nodup) :
    ∀ p ∈ l.zip l.tail, p.1.1 ≠ p.2.1 := by
  induction l with
  | nil => intro p hp; cases hp
  | cons a l ih =>
    intro p hp
    rw [List.map_cons, List.nodup_cons] at h
    cases l with
    | nil => cases hp
    | cons b l =>
      rcases List.mem_cons.1 hp with rfl | hp
      · exact fun he => h.1 (List.mem_map.2 ⟨b, List.mem_cons_self, he.symm⟩)
      · exact ih h.2 p hp

omit [Library] in
theorem mapM_isOk {ε α β : Type} {f : α → Except ε β} :
    ∀ {l : List α}, (∀ a ∈ l, ∃ b, f a = .ok b) →
      ∃ bs, l.mapM f = .ok bs ∧ bs.length = l.length
  | [], _ => ⟨[], rfl, rfl⟩
  | a :: l, h => by
    obtain ⟨b, hb⟩ := h a List.mem_cons_self
    obtain ⟨bs, hbs, hlen⟩ := mapM_isOk fun a ha => h a (List.mem_cons_of_mem _ ha)
    refine ⟨b :: bs, ?_, congrArg (· + 1) hlen⟩
    rw [List.mapM_cons, hb, hbs]
    rfl

/-- A table of accounts whose values fit has a root. -/
theorem stateRoot_isOk {l : List (Address × Account)} (hn : (l.map Prod.fst).Nodup)
    (hl : ∀ r ∈ l, r.2.balance < 256 ^ 8 ∧ r.2.nonce < 256 ^ 8) : ∃ d, stateRoot l = .ok d := by
  have hmem : ∀ r ∈ orderedAccounts l, r ∈ l := fun r hr =>
    List.mem_of_mem_filter ((orderedAccounts_perm l).mem_iff.1 hr)
  have hnd : ((orderedAccounts l).map Prod.fst).Nodup :=
    ((orderedAccounts_perm l).map Prod.fst).nodup_iff.2 (hn.sublist (List.filter_sublist.map _))
  have hzip : ((orderedAccounts l).zip (orderedAccounts l).tail).any
      (fun p => p.1.1 = p.2.1) = false := by
    simp only [List.any_eq_false, decide_eq_true_eq]
    exact zip_tail_ne hnd
  unfold stateRoot
  simp only [hzip]
  rw [if_neg Bool.false_ne_true]
  by_cases he : (orderedAccounts l).isEmpty = true
  · exact ⟨_, if_pos he⟩
  · rw [if_neg he]
    obtain ⟨leaves, hm, hlen⟩ := mapM_isOk (f := fun r : Address × Account => accountLeaf r.1 r.2)
      (l := orderedAccounts l) fun r hr => by
        obtain ⟨hb, hc⟩ := hl r (hmem r hr)
        exact ⟨_, by unfold accountLeaf; rw [toBytes_of_lt hb, toBytes_of_lt hc]; rfl⟩
    have hne : leaves ≠ [] := by
      intro hnil
      rw [hnil] at hlen
      exact he (List.isEmpty_iff.2 (List.length_eq_zero_iff.1 hlen.symm))
    obtain ⟨d, hd⟩ := merkleRoot_isOk hne
    exact ⟨d, by rw [hm]; exact hd⟩

/-! ## Snapshot heights -/

/-- `is_snapshot_point`. -/
def isSnapshotPoint (height : ℕ) (params : NetworkParams) : Bool :=
  (height + 1) % params.chunkSize == 0

/-- `snapshot_height`. -/
def snapshotHeight (height : ℕ) (params : NetworkParams) : Option ℕ :=
  let finishedChunks : ℤ := ((height : ℤ) - params.snapshotDelay).fdiv params.chunkSize
  if finishedChunks < 1 then none else some (finishedChunks.toNat * params.chunkSize - 1)

omit [Library] in
/-- The block a header commits to closes a chunk, below the header. -/
theorem snapshotHeight_spec {height : ℕ} {params : NetworkParams} {h : ℕ}
    (hs : snapshotHeight height params = some h) : h < height ∧ isSnapshotPoint h params = true := by
  have hc : 0 < params.chunkSize := by have := params.chunkSize_ge; omega
  unfold snapshotHeight at hs
  dsimp only at hs
  split at hs
  · cases hs
  · rename_i hlt
    rw [Option.some.injEq] at hs
    rw [Int.fdiv_eq_ediv_of_nonneg _ (Int.natCast_nonneg _)] at hs hlt
    obtain ⟨q, hq⟩ := Int.eq_ofNat_of_zero_le (by omega :
      0 ≤ ((height : ℤ) - params.snapshotDelay) / params.chunkSize)
    rw [hq, Int.toNat_natCast] at hs
    rw [hq] at hlt
    have hmul : q * params.chunkSize ≤ height := by
      have := Int.ediv_mul_le ((height : ℤ) - params.snapshotDelay)
        (show (params.chunkSize : ℤ) ≠ 0 by omega)
      rw [hq] at this
      have h2 : ((q * params.chunkSize : ℕ) : ℤ) ≤ height := by push_cast; omega
      exact_mod_cast h2
    have hpos : 0 < q * params.chunkSize := Nat.mul_pos (by omega) hc
    refine ⟨by omega, ?_⟩
    unfold isSnapshotPoint
    rw [← hs, Nat.sub_add_cancel hpos, Nat.mul_mod_left]
    rfl

end TalCash
