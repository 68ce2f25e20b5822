import TalCash.Common.Nested
import TalCash.Node.Mempool
/-!
# The indexes of the mempool

Every entry is found by its txid, by its sender and nonce and by each of
its receivers, and the indexes hold nothing else (`Indexed`). On indexes
in this state taking an entry out and putting one in never raise; what
they do to the indexes does not depend on the heap (`remove_spec`,
`place_spec`).
-/

namespace TalCash

variable [Library]

namespace Mempool

open Exec

variable {m m' : Mempool} {e y : MempoolEntry} {a : Address} {txid : Digest}

/-! ## What the indexes say -/

/-- Two mempools that differ in their heaps at most. -/
structure SameTables (m m' : Mempool) : Prop where
  byId : m'.byId = m.byId
  bySender : m'.bySender = m.bySender
  byReceiver : m'.byReceiver = m.byReceiver
  bytes : m'.bytes = m.bytes
  clockReads : m'.clockReads = m.clockReads

namespace SameTables

omit [Library] in
theorem refl (m : Mempool) : SameTables m m := ⟨rfl, rfl, rfl, rfl, rfl⟩

omit [Library] in
theorem symm (h : SameTables m m') : SameTables m' m :=
  ⟨h.byId.symm, h.bySender.symm, h.byReceiver.symm, h.bytes.symm, h.clockReads.symm⟩

omit [Library] in
theorem trans {m'' : Mempool} (h : SameTables m m') (h' : SameTables m' m'') : SameTables m m'' :=
  ⟨h'.byId.trans h.byId, h'.bySender.trans h.bySender, h'.byReceiver.trans h.byReceiver,
    h'.bytes.trans h.bytes, h'.clockReads.trans h.clockReads⟩

end SameTables

/-- An entry is waiting. -/
def Live (m : Mempool) (e : MempoolEntry) : Prop := m.byId.lookup e.tx.txid = some e

/-- An entry is its sender's last. -/
def IsLast (m : Mempool) (e : MempoolEntry) : Prop :=
  (m.pendingOf e.tx.sender).lookup (m.pendingOf e.tx.sender).maxKey = some e

/-- Each sender's last entry. -/
def lasts (m : Mempool) : List MempoolEntry :=
  m.bySender.rows.filterMap fun r => r.2.lookup r.2.maxKey

/-- The indexes agree. -/
structure Indexed (m : Mempool) : Prop where
  ids : ∀ t e, m.byId.lookup t = some e → e.tx.txid = t ∧ e.size = e.tx.size ∧
    (m.pendingOf e.tx.sender).lookup e.tx.nonce = some e
  slots : ∀ a n e, (m.pendingOf a).lookup n = some e →
    e.tx.sender = a ∧ e.tx.nonce = n ∧ m.Live e
  tight : Nested.Tight m.bySender
  received : ∀ a t, Nested.find m.byReceiver a t =
    (m.byId.lookup t).filter fun e => a ∈ receiversOf e.tx
  bytes : m.bytes = m.byId.total fun _ e => e.size

/-- The indexes agree whatever the heap holds. -/
theorem Indexed.congr (h : m.Indexed) (ht : SameTables m m') : m'.Indexed := by
  obtain ⟨hi, hs, hn, hr, hb⟩ := h
  have hp : m'.pendingOf = m.pendingOf := by
    unfold pendingOf
    rw [ht.bySender]
  constructor
  · rwa [ht.byId, hp]
  · unfold Live
    rwa [ht.byId, hp]
  · rwa [ht.bySender]
  · rwa [ht.byId, ht.byReceiver]
  · rwa [ht.byId, ht.bytes]

/-! ## Each sender's last -/

omit [Library] in
theorem lastOf_ok {p : Table ℕ MempoolEntry} (h : p.lookup p.maxKey = some e) :
    lastOf p = .ok e := by rw [lastOf, h]

omit [Library] in
/-- Going through the senders finds each one's last. -/
theorem mapM_lastOf (h : Nested.Tight m.bySender) :
    m.bySender.rows.mapM (fun r => lastOf r.2) = .ok m.lasts := by
  have hall : ∀ r ∈ m.bySender.rows, ∃ e, r.2.lookup r.2.maxKey = some e := fun r hr =>
    Nested.lookup_maxKey (h r.1 r.2 (Table.mem_rows.1 hr))
  rw [mapM_eq_ok, lasts]
  generalize m.bySender.rows = l at hall
  induction l with
  | nil => exact .nil
  | cons r l ih =>
    obtain ⟨e, he⟩ := hall r List.mem_cons_self
    rw [List.filterMap_cons, he]
    exact .cons (lastOf_ok he) (ih fun r' hr' => hall r' (List.mem_cons_of_mem _ hr'))

theorem Indexed.live_of_isLast (h : m.Indexed) (hl : m.IsLast e) : m.Live e := (h.slots _ _ _ hl).2.2

theorem Indexed.mem_lasts (h : m.Indexed) : e ∈ m.lasts ↔ m.IsLast e := by
  unfold lasts IsLast
  rw [List.mem_filterMap]
  constructor
  · rintro ⟨⟨a, p⟩, hr, he⟩
    have hp : m.pendingOf a = p := Nested.inner_of_lookup (Table.mem_rows.1 hr)
    have hf : (m.pendingOf a).lookup (m.pendingOf a).maxKey = some e := by rw [hp]; exact he
    obtain ⟨rfl, -, -⟩ := h.slots _ _ _ hf
    exact hf
  · intro he
    refine ⟨(e.tx.sender, m.pendingOf e.tx.sender), ?_, he⟩
    have hsome : (Nested.find m.bySender e.tx.sender (m.pendingOf e.tx.sender).maxKey).isSome := by
      rw [show Nested.find _ _ _ = some e from he]
      rfl
    exact Table.mem_rows.2 (Nested.lookup_inner hsome)

/-- An entry is last where no other of its sender has a greater nonce. -/
theorem Indexed.isLast_iff (h : m.Indexed) (he : m.Live e) :
    m.IsLast e ↔ e.tx.nonce = (m.pendingOf e.tx.sender).maxKey := by
  constructor
  · intro hl
    exact (h.slots _ _ _ hl).2.1
  · intro hn
    rw [IsLast, ← hn]
    exact (h.ids _ _ he).2.2

/-- Entries with one txid are one entry. -/
theorem Live.unique (he : m.Live e) (hy : m.Live y) (ht : e.tx.txid = y.tx.txid) : e = y := by
  unfold Live at he hy
  rw [ht, hy] at he
  exact (Option.some.inj he).symm

/-! ## The heap while entries come and go -/

/-- What became of a heap: it stayed, or one entry, last now, was pushed,
perhaps with the heap built again. -/
def Pushed (heap : List EvictionKey) (m' : Mempool) : Option MempoolEntry → Prop
  | none => m'.evictable = heap
  | some y => m'.IsLast y ∧ m'.evictable.length ≤ heap.length + 1 ∧
    (m'.evictable = heap.orderedInsert (· ≤ ·) y.key ∨
      m'.evictable = (m'.lasts.map MempoolEntry.key).insertionSort (· ≤ ·))

theorem pushEvictable_spec (h : Nested.Tight m.bySender) (y : MempoolEntry) :
    wp (pushEvictable y) (fun _ m' => SameTables m m' ∧
      m'.evictable.length ≤ m.evictable.length + 1 ∧
      (m'.evictable = m.evictable.orderedInsert (· ≤ ·) y.key ∨
        m'.evictable = (m'.lasts.map MempoolEntry.key).insertionSort (· ≤ ·)))
      (fun _ _ => False) m := by
  simp only [pushEvictable, wp_bind, wp_modify, wp_get]
  rw [wp_ite]
  have hlen : (m.evictable.orderedInsert (· ≤ ·) y.key).length = m.evictable.length + 1 :=
    List.orderedInsert_length _ _ _
  refine ⟨fun hlong => ?_, fun _ => wp_pure.2 ⟨⟨rfl, rfl, rfl, rfl, rfl⟩, hlen.le, Or.inl rfl⟩⟩
  simp only [wp_bind, wp_lift, wp_set]
  refine ⟨fun ls hls => ?_, fun e he => ?_⟩
  · rw [mapM_lastOf h] at hls
    obtain rfl := Except.ok.inj hls
    refine ⟨⟨rfl, rfl, rfl, rfl, rfl⟩, ?_, Or.inr rfl⟩
    show ((m.lasts.map MempoolEntry.key).insertionSort (· ≤ ·)).length ≤ _
    have hlasts : m.lasts.length ≤ m.bySender.entries.length :=
      (List.length_filterMap_le _ _).trans (le_of_eq (List.length_map _))
    rw [List.length_insertionSort, List.length_map]
    omega
  · rw [mapM_lastOf h] at he
    cases he

/-! ## Taking an entry out -/

/-- The indexes without an entry. -/
def without (m : Mempool) (e : MempoolEntry) : Mempool :=
  { m with
    byId := Table.remove e.tx.txid m.byId
    bySender := Nested.erase e.tx.sender e.tx.nonce m.bySender
    byReceiver := (receiversOf e.tx).foldl (fun t a => Nested.erase a e.tx.txid t) m.byReceiver
    bytes := m.bytes - e.size }

omit [Library] in
theorem forgetReceiver_spec (h : (Nested.find m.byReceiver a txid).isSome) :
    wp (forgetReceiver txid a)
      (fun _ m' => m' = { m with byReceiver := Nested.erase a txid m.byReceiver })
      (fun _ _ => False) m := by
  have hget : getItem a m.byReceiver = .ok (Nested.inner m.byReceiver a) := by
    rw [getItem, Nested.lookup_inner h]
  have hdel : delItem txid (Nested.inner m.byReceiver a) =
      .ok (Table.remove txid (Nested.inner m.byReceiver a)) := by
    obtain ⟨e, he⟩ := Option.isSome_iff_exists.1 h
    rw [delItem, show (Nested.inner m.byReceiver a).lookup txid = some e from he]
  simp only [forgetReceiver, wp_bind, wp_get, wp_lift, hget, hdel, Except.ok.injEq, forall_eq',
    reduceCtorEq, false_implies, implies_true, and_true]
  rw [wp_ite]
  refine ⟨fun hempty => wp_set.2 ?_, fun hempty => wp_set.2 ?_⟩
  · rw [Nested.erase, if_pos hempty]
  · rw [Nested.erase, if_neg hempty]

omit [Library] in
theorem forgetReceivers_spec : ∀ {l : List Address} {m : Mempool}, l.Nodup →
    (∀ a ∈ l, (Nested.find m.byReceiver a txid).isSome) →
    wp (l.forM (forgetReceiver txid))
      (fun _ m' => m' =
        { m with byReceiver := l.foldl (fun t a => Nested.erase a txid t) m.byReceiver })
      (fun _ _ => False) m
  | [], m, _, _ => wp_pure.2 rfl
  | a :: l, m, hnd, h => by
    obtain ⟨ha, hnd⟩ := List.nodup_cons.1 hnd
    show wp (forgetReceiver txid a >>= fun _ => l.forM (forgetReceiver txid)) _ _ m
    rw [wp_bind]
    refine (forgetReceiver_spec (h a List.mem_cons_self)).mono ?_ fun _ _ h => h
    rintro _ m' rfl
    have hrest : ∀ b ∈ l, (Nested.find (Nested.erase a txid m.byReceiver) b txid).isSome := by
      intro b hb
      have hne : ¬ (b = a ∧ txid = txid) := fun he => ha (he.1 ▸ hb)
      rw [Nested.find_erase, if_neg hne]
      exact h b (List.mem_cons_of_mem _ hb)
    exact forgetReceivers_spec (m := { m with byReceiver := Nested.erase a txid m.byReceiver }) hnd
      hrest

theorem pendingOf_without : (m.without e).pendingOf a =
    if a = e.tx.sender then Table.remove e.tx.nonce (m.pendingOf e.tx.sender)
    else m.pendingOf a := Nested.inner_erase

omit [Library] in
theorem SameTables.pendingOf (h : SameTables m m') : m'.pendingOf a = m.pendingOf a := by
  rw [Mempool.pendingOf, h.bySender, Mempool.pendingOf]

theorem SameTables.isLast_iff (h : SameTables m m') : m'.IsLast y ↔ m.IsLast y := by
  unfold IsLast
  rw [h.pendingOf]

/-- Who is last once an entry is gone: of another sender, who was last. -/
theorem isLast_without_of_ne (hs : y.tx.sender ≠ e.tx.sender) :
    (m.without e).IsLast y ↔ m.IsLast y := by
  unfold IsLast
  rw [pendingOf_without, if_neg hs]

theorem isLast_without (hs : y.tx.sender = e.tx.sender) :
    (m.without e).IsLast y ↔ (Table.remove e.tx.nonce (m.pendingOf e.tx.sender)).lookup
      (Table.remove e.tx.nonce (m.pendingOf e.tx.sender)).maxKey = some y := by
  unfold IsLast
  rw [pendingOf_without, if_pos hs]

omit [Library] in
/-- Where the entry that goes is not the greatest key, the greatest stays. -/
theorem maxKey_remove {p : Table ℕ MempoolEntry} {n : ℕ}
    (hne : (Table.remove n p).entries ≠ []) (h : ¬ (Table.remove n p).maxKey < n) :
    (Table.remove n p).maxKey = p.maxKey := by
  obtain ⟨z, hz⟩ := Nested.lookup_maxKey hne
  have hmax : (Table.remove n p).maxKey ≤ p.maxKey := by
    refine Table.le_maxKey ?_
    rw [Table.lookup_remove] at hz
    split at hz
    · cases hz
    · rw [hz]
      rfl
  refine le_antisymm hmax ?_
  have hp : p.entries ≠ [] := fun hp => hne (by
    show List.kerase n p.entries = []
    rw [hp]
    rfl)
  obtain ⟨w, hw⟩ := Nested.lookup_maxKey hp
  by_cases hn : p.maxKey = n
  · omega
  · refine Table.le_maxKey ?_
    rw [Table.lookup_remove_ne hn, hw]
    rfl

/-- The end of `_remove`: the receivers and the bytes. -/
theorem forget_spec (h : m.Indexed) (he : m.Live e) (hm : m'.byReceiver = m.byReceiver) :
    wp ((receiversOf e.tx).forM (forgetReceiver e.tx.txid) >>= fun _ =>
      modify fun m => { m with bytes := m.bytes - e.size })
      (fun _ m'' => m'' = { m' with
        byReceiver := (receiversOf e.tx).foldl (fun t a => Nested.erase a e.tx.txid t) m.byReceiver
        bytes := m'.bytes - e.size }) (fun _ _ => False) m' := by
  have hall : ∀ a ∈ receiversOf e.tx, (Nested.find m'.byReceiver a e.tx.txid).isSome := by
    intro a ha
    rw [hm, h.received, show m.byId.lookup e.tx.txid = some e from he, Option.filter_some,
      if_pos (decide_eq_true ha)]
    rfl
  rw [wp_bind]
  refine (forgetReceivers_spec (List.nodup_dedup _) hall).mono ?_ fun _ _ h => h
  rintro _ m'' rfl
  rw [wp_modify, ← hm]
  rfl

/-- **Taking an entry out** never raises; one entry of its sender may
become the last, and is pushed. -/
theorem remove_spec (h : m.Indexed) (he : m.Live e) :
    wp (remove e) (fun _ m' => SameTables (m.without e) m' ∧ ∃ y, Pushed m.evictable m' y ∧
      (∀ z, y = some z → ¬ m.IsLast z) ∧ ∀ z, m'.IsLast z → m.IsLast z ∧ z ≠ e ∨ y = some z)
      (fun _ _ => False) m := by
  obtain ⟨-, -, hslot⟩ := h.ids _ _ he
  have hdel : delItem e.tx.txid m.byId = .ok (Table.remove e.tx.txid m.byId) := by
    rw [delItem, show m.byId.lookup e.tx.txid = some e from he]
  have hget : getItem e.tx.sender m.bySender = .ok (m.pendingOf e.tx.sender) := by
    have hsome : (Nested.find m.bySender e.tx.sender e.tx.nonce).isSome := by
      rw [show Nested.find _ _ _ = some e from hslot]
      rfl
    rw [getItem, Nested.lookup_inner hsome]
    rfl
  have hdel' : delItem e.tx.nonce (m.pendingOf e.tx.sender) =
      .ok (Table.remove e.tx.nonce (m.pendingOf e.tx.sender)) := by
    rw [delItem, show (m.pendingOf e.tx.sender).lookup e.tx.nonce = some e from hslot]
  have hother : ∀ {m' : Mempool} {z : MempoolEntry}, SameTables (m.without e) m' → m'.IsLast z →
      z.tx.sender ≠ e.tx.sender → m.IsLast z ∧ z ≠ e := fun hm hz hs =>
    ⟨(isLast_without_of_ne hs).1 (hm.isLast_iff.1 hz), fun hze => hs (by rw [hze])⟩
  have hsame : ∀ {m' : Mempool} {z : MempoolEntry}, SameTables (m.without e) m' → m'.IsLast z →
      z.tx.sender = e.tx.sender → (Table.remove e.tx.nonce (m.pendingOf e.tx.sender)).lookup
        (Table.remove e.tx.nonce (m.pendingOf e.tx.sender)).maxKey = some z := fun hm hz hs =>
    (isLast_without hs).1 (hm.isLast_iff.1 hz)
  simp only [remove, wp_bind, wp_get, wp_lift, wp_set, hdel, hget, hdel', Except.ok.injEq,
    forall_eq', reduceCtorEq, false_implies, implies_true, and_true]
  rw [wp_ite]
  refine ⟨fun hempty => ?_, fun hmore => ?_⟩
  · rw [wp_bind, wp_set]
    obtain ⟨m₁, hm₁⟩ : ∃ m₁ : Mempool, m₁ = { m with
      byId := Table.remove e.tx.txid m.byId
      bySender := Table.remove e.tx.sender m.bySender } := ⟨_, rfl⟩
    rw [← hm₁]
    refine (forget_spec h he (by rw [hm₁])).mono ?_ fun _ _ h => h
    rintro _ m' hm'
    rw [hm₁] at hm'
    have hm : SameTables (m.without e) m' := by
      rw [hm']
      exact ⟨rfl, (if_pos hempty).symm, rfl, rfl, rfl⟩
    refine ⟨hm, none, by rw [hm']; rfl, fun z hz => (by cases hz), fun z hz => Or.inl ?_⟩
    by_cases hs : z.tx.sender = e.tx.sender
    · have := hsame hm hz hs
      rw [show Table.remove e.tx.nonce (m.pendingOf e.tx.sender) = ∅ from
        AList.ext (List.isEmpty_iff.1 hempty)] at this
      cases this
    · exact hother hm hz hs
  · rw [List.isEmpty_iff] at hmore
    obtain ⟨last, hlast⟩ := Nested.lookup_maxKey hmore
    have hput : Nested.erase e.tx.sender e.tx.nonce m.bySender = Table.put e.tx.sender
        (Table.remove e.tx.nonce (m.pendingOf e.tx.sender)) m.bySender := by
      unfold Nested.erase
      exact if_neg fun hempty => hmore (List.isEmpty_iff.1 hempty)
    rw [← hput, wp_bind, wp_set, lastOf_ok hlast, wp_ite]
    refine ⟨fun hlt => ?_, fun hge => ?_⟩
    · simp only [wp_bind, wp_lift, Except.ok.injEq, forall_eq', reduceCtorEq, false_implies,
        implies_true, and_true]
      refine (pushEvictable_spec h.tight.erase last).mono ?_ fun _ _ h => h
      rintro _ m₁ ⟨hm₁, hheap⟩
      rw [← wp_bind]
      refine (forget_spec h he hm₁.byReceiver).mono ?_ fun _ _ h => h
      rintro _ m' hm'
      have hm : SameTables (m.without e) m' := by
        rw [hm']
        exact ⟨hm₁.byId, hm₁.bySender, rfl, congrArg (· - e.size) hm₁.bytes, hm₁.clockReads⟩
      have hl : (m.pendingOf e.tx.sender).lookup
          (Table.remove e.tx.nonce (m.pendingOf e.tx.sender)).maxKey = some last := by
        rw [Table.lookup_remove] at hlast
        split at hlast
        · cases hlast
        · exact hlast
      obtain ⟨hsender, hnonce, hlive⟩ := h.slots _ _ _ hl
      have hnew : m'.IsLast last := hm.isLast_iff.2 ((isLast_without hsender).2 hlast)
      refine ⟨hm, some last, ⟨hnew, ?_⟩, fun z hz hz' => ?_, fun z hz => ?_⟩
      · rw [hm']
        exact hheap
      · -- It was below the entry that went.
        obtain rfl := Option.some.inj hz
        have hmax := (h.isLast_iff hlive).1 hz'
        have hle : e.tx.nonce ≤ (m.pendingOf e.tx.sender).maxKey :=
          Table.le_maxKey (by rw [hslot]; rfl)
        rw [hsender] at hmax
        omega
      · by_cases hs : z.tx.sender = e.tx.sender
        · exact Or.inr (congrArg some (Option.some.inj (hlast.symm.trans (hsame hm hz hs))))
        · exact Or.inl (hother hm hz hs)
    · obtain ⟨m₁, hm₁⟩ : ∃ m₁ : Mempool, m₁ = { m with
        byId := Table.remove e.tx.txid m.byId
        bySender := Nested.erase e.tx.sender e.tx.nonce m.bySender } := ⟨_, rfl⟩
      rw [← hm₁]
      refine (forget_spec h he (by rw [hm₁])).mono ?_ fun _ _ h => h
      rintro _ m' hm'
      rw [hm₁] at hm'
      have hm : SameTables (m.without e) m' := by
        rw [hm']
        exact ⟨rfl, rfl, rfl, rfl, rfl⟩
      refine ⟨hm, none, by rw [hm']; rfl, fun z hz => (by cases hz), fun z hz => Or.inl ?_⟩
      by_cases hs : z.tx.sender = e.tx.sender
      · -- The greatest nonce was not the one that went.
        have hz' := hsame hm hz hs
        rw [maxKey_remove hmore hge, Table.lookup_remove] at hz'
        split at hz'
        · cases hz'
        · rename_i hne
          refine ⟨by rw [IsLast, hs]; exact hz', ?_⟩
          rintro rfl
          exact hne (h.slots _ _ _ hz').2.1.symm
      · exact hother hm hz hs

theorem byId_without (t : Digest) : (m.without e).byId.lookup t =
    if t = e.tx.txid then none else m.byId.lookup t := Table.lookup_remove

/-- What waits once an entry is gone: the others. -/
theorem live_without : (m.without e).Live y ↔ y.tx.txid ≠ e.tx.txid ∧ m.Live y := by
  unfold Live
  rw [byId_without]
  split
  · rename_i h
    exact ⟨fun h' => (by cases h'), fun h' => absurd h h'.1⟩
  · rename_i h
    exact ⟨fun h' => ⟨h, h'⟩, fun h' => h'.2⟩

/-- **The indexes still agree** once an entry is gone. -/
theorem Indexed.without (h : m.Indexed) (he : m.Live e) : (m.without e).Indexed := by
  obtain ⟨-, hsize, hslot⟩ := h.ids _ _ he
  refine ⟨fun t y hy => ?_, fun a n y hy => ?_, h.tight.erase, fun a t => ?_, ?_⟩
  · rw [byId_without] at hy
    split at hy
    · cases hy
    · rename_i hne
      obtain ⟨ht, hs, hn⟩ := h.ids t y hy
      refine ⟨ht, hs, ?_⟩
      rw [pendingOf_without]
      split
      · rename_i hsender
        rw [hsender] at hn
        rw [Table.lookup_remove_ne, hn]
        -- Another entry has another slot.
        intro hnonce
        rw [hnonce, hslot] at hn
        exact hne (ht.symm.trans (by rw [Option.some.inj hn]))
      · exact hn
  · have hfind : (m.pendingOf a).lookup n = some y ∧ ¬ (a = e.tx.sender ∧ n = e.tx.nonce) := by
      rw [pendingOf_without] at hy
      split at hy
      · rename_i ha
        rw [Table.lookup_remove] at hy
        split at hy
        · cases hy
        · rename_i hn
          exact ⟨ha ▸ hy, fun h => hn h.2⟩
      · rename_i ha
        exact ⟨hy, fun h => ha h.1⟩
    obtain ⟨hs, hn, hl⟩ := h.slots a n y hfind.1
    refine ⟨hs, hn, live_without.2 ⟨fun ht => hfind.2 ?_, hl⟩⟩
    obtain rfl := hl.unique he ht
    exact ⟨hs.symm, hn.symm⟩
  · show Nested.find ((receiversOf e.tx).foldl (fun t a => Nested.erase a e.tx.txid t)
      m.byReceiver) a t = _
    rw [Nested.find_foldl_erase, byId_without, h.received]
    by_cases ht : t = e.tx.txid
    · subst ht
      rw [if_pos rfl, show m.byId.lookup e.tx.txid = some e from he, Option.filter_some]
      by_cases ha : a ∈ receiversOf e.tx
      · rw [if_pos ⟨ha, rfl⟩]
        rfl
      · rw [if_neg fun h => ha h.1, if_neg (by simpa using ha)]
        rfl
    · rw [if_neg fun h => ht h.2, if_neg ht]
  · have := Table.total_remove (f := fun _ e => MempoolEntry.size e) he
    show m.bytes - e.size = _
    rw [h.bytes, this]
    exact Nat.add_sub_cancel_left _ _

/-! ## Putting an entry in -/

/-- The indexes with a new entry. -/
def adding (m : Mempool) (e : MempoolEntry) : Mempool :=
  { m with
    byId := Table.put e.tx.txid e m.byId
    bySender := Nested.insert e.tx.sender e.tx.nonce e m.bySender
    byReceiver := (receiversOf e.tx).foldl (fun t a => Nested.insert a e.tx.txid e t) m.byReceiver
    bytes := m.bytes + e.size }

theorem pendingOf_adding : (m.adding e).pendingOf a =
    if a = e.tx.sender then Table.put e.tx.nonce e (m.pendingOf e.tx.sender)
    else m.pendingOf a := Nested.inner_insert

theorem byId_adding (t : Digest) : (m.adding e).byId.lookup t =
    if t = e.tx.txid then some e else m.byId.lookup t := Table.lookup_put

/-- **The indexes still agree** once an entry is put where there is none. -/
theorem Indexed.adding (h : m.Indexed) (hid : m.byId.lookup e.tx.txid = none)
    (hslot : (m.pendingOf e.tx.sender).lookup e.tx.nonce = none) (hsize : e.size = e.tx.size) :
    (m.adding e).Indexed := by
  refine ⟨fun t y hy => ?_, fun a n y hy => ?_, h.tight.insert, fun a t => ?_, ?_⟩
  · rw [byId_adding] at hy
    split at hy
    · rename_i ht
      obtain rfl := Option.some.inj hy
      refine ⟨ht.symm, hsize, ?_⟩
      rw [pendingOf_adding, if_pos rfl, Table.lookup_put_self]
    · obtain ⟨ht, hs, hn⟩ := h.ids t y hy
      refine ⟨ht, hs, ?_⟩
      rw [pendingOf_adding]
      split
      · rename_i hsender
        rw [hsender] at hn
        rw [Table.lookup_put_ne, hn]
        intro hnonce
        rw [hnonce, hslot] at hn
        cases hn
      · exact hn
  · have hlive : ∀ y, m.Live y → (m.adding e).Live y := by
      intro y hy
      rw [Live, byId_adding, if_neg, hy]
      intro ht
      rw [Live, ht, hid] at hy
      cases hy
    rw [pendingOf_adding] at hy
    split at hy
    · rename_i ha
      rw [Table.lookup_put] at hy
      split at hy
      · rename_i hn
        obtain rfl := Option.some.inj hy
        refine ⟨ha.symm, hn.symm, ?_⟩
        rw [Live, byId_adding, if_pos rfl]
      · obtain ⟨hs, hn, hl⟩ := h.slots _ n y hy
        exact ⟨hs.trans ha.symm, hn, hlive y hl⟩
    · obtain ⟨hs, hn, hl⟩ := h.slots a n y hy
      exact ⟨hs, hn, hlive y hl⟩
  · show Nested.find ((receiversOf e.tx).foldl (fun t a => Nested.insert a e.tx.txid e t)
      m.byReceiver) a t = _
    rw [Nested.find_foldl_insert, byId_adding, h.received]
    by_cases ht : t = e.tx.txid
    · subst ht
      rw [if_pos rfl, Option.filter_some, hid]
      by_cases ha : a ∈ receiversOf e.tx
      · rw [if_pos ⟨ha, rfl⟩, if_pos (decide_eq_true ha)]
      · rw [if_neg fun h => ha h.1, if_neg (by simpa using ha)]
        rfl
    · rw [if_neg fun h => ht h.2, if_neg ht]
  · show m.bytes + e.size = _
    rw [h.bytes]
    exact (Nat.add_comm _ _).trans
      (Table.total_put_of_lookup_none (f := fun _ e => MempoolEntry.size e) hid).symm

theorem noteReceivers_spec : ∀ {l : List Address} {m : Mempool},
    wp (l.forM (noteReceiver e))
      (fun _ m' => m' =
        { m with byReceiver := l.foldl (fun t a => Nested.insert a e.tx.txid e t) m.byReceiver })
      (fun _ _ => False) m
  | [], m => wp_pure.2 rfl
  | a :: l, m => by
    show wp (noteReceiver e a >>= fun _ => l.forM (noteReceiver e)) _ _ m
    rw [wp_bind, noteReceiver, wp_modify]
    exact noteReceivers_spec
      (m := { m with byReceiver := Nested.insert a e.tx.txid e m.byReceiver })

omit [Library] in
/-- Where the entry that comes is not the greatest key, the greatest stays. -/
theorem maxKey_put {p : Table ℕ MempoolEntry} {n : ℕ} (h : n ≠ (Table.put n e p).maxKey) :
    (Table.put n e p).maxKey = p.maxKey := by
  obtain ⟨z, hz⟩ := Nested.lookup_maxKey (t := Table.put n e p) (by
    rw [Table.entries_put]
    exact List.cons_ne_nil _ _)
  rw [Table.lookup_put_ne h.symm] at hz
  have hsome : (p.lookup p.maxKey).isSome := Table.isSome_lookup_maxKey (by rw [hz]; rfl)
  refine le_antisymm (Table.le_maxKey (by rw [hz]; rfl)) (Table.le_maxKey ?_)
  rw [Table.lookup_put]
  split
  · rfl
  · exact hsome

/-- **Putting an entry in** never raises; it is pushed where it is its
sender's last. -/
theorem place_spec (h : m.Indexed) :
    wp (place e) (fun _ m' => SameTables (m.adding e) m' ∧ ∃ y, Pushed m.evictable m' y ∧
      (∀ z, y = some z → z = e) ∧ ∀ z, m'.IsLast z → m.IsLast z ∨ y = some z)
      (fun _ _ => False) m := by
  have hpending : (Nested.insert e.tx.sender e.tx.nonce e m.bySender) =
      Table.put e.tx.sender (Table.put e.tx.nonce e (m.pendingOf e.tx.sender)) m.bySender := rfl
  -- Who is last: of another sender who was; of this one the greatest nonce.
  have hlast : ∀ {m' : Mempool}, SameTables (m.adding e) m' → ∀ z, m'.IsLast z →
      m.IsLast z ∨ z.tx.sender = e.tx.sender ∧
        (Table.put e.tx.nonce e (m.pendingOf e.tx.sender)).lookup
          (Table.put e.tx.nonce e (m.pendingOf e.tx.sender)).maxKey = some z := by
    intro m' hm z hz
    rw [hm.isLast_iff, IsLast, pendingOf_adding] at hz
    by_cases hs : z.tx.sender = e.tx.sender
    · rw [if_pos hs] at hz
      exact Or.inr ⟨hs, hz⟩
    · rw [if_neg hs] at hz
      exact Or.inl hz
  simp only [place, wp_bind, wp_modify]
  refine noteReceivers_spec.mono ?_ fun _ _ h => h
  intro _ m₁ hm₁
  simp only [wp_get]
  have hp₁ : m₁.pendingOf e.tx.sender = Table.put e.tx.nonce e (m.pendingOf e.tx.sender) := by
    rw [hm₁]
    exact (pendingOf_adding (m := m) (e := e)).trans (if_pos rfl)
  rw [hp₁, wp_ite]
  refine ⟨fun hmax => ?_, fun hmax => ?_⟩
  · rw [wp_bind]
    have htight : Nested.Tight m₁.bySender := by
      rw [hm₁]
      exact h.tight.insert
    refine (pushEvictable_spec htight e).mono ?_ fun _ _ h => h
    rintro _ m₂ ⟨hm₂, hheap⟩
    rw [wp_modify]
    obtain ⟨m', hm'⟩ : ∃ m', m' = { m₂ with bytes := m₂.bytes + e.size } := ⟨_, rfl⟩
    rw [← hm']
    have hm : SameTables (m.adding e) m' := by
      rw [hm₁] at hm₂
      rw [hm']
      exact ⟨hm₂.byId, hm₂.bySender, hm₂.byReceiver, congrArg (· + e.size) hm₂.bytes,
        hm₂.clockReads⟩
    have hself : (Table.put e.tx.nonce e (m.pendingOf e.tx.sender)).lookup
        (Table.put e.tx.nonce e (m.pendingOf e.tx.sender)).maxKey = some e := by
      rw [← hmax, Table.lookup_put_self]
    refine ⟨hm, some e, ⟨?_, ?_⟩, fun z hz => (Option.some.inj hz).symm, fun z hz => ?_⟩
    · rw [hm.isLast_iff, IsLast, pendingOf_adding, if_pos rfl]
      exact hself
    · rw [hm₁] at hheap
      rw [hm']
      exact hheap
    · refine (hlast hm z hz).imp_right fun hz => ?_
      exact hself.symm.trans hz.2
  · rw [wp_modify]
    obtain ⟨m', hm'⟩ : ∃ m', m' = { m₁ with bytes := m₁.bytes + e.size } := ⟨_, rfl⟩
    rw [← hm']
    have hm : SameTables (m.adding e) m' := by
      rw [hm', hm₁]
      exact ⟨rfl, rfl, rfl, rfl, rfl⟩
    refine ⟨hm, none, by rw [hm', hm₁]; rfl, fun z hz => (by cases hz), fun z hz => Or.inl ?_⟩
    rcases hlast hm z hz with hz | ⟨hs, hz⟩
    · exact hz
    · rw [maxKey_put hmax, Table.lookup_put_ne (maxKey_put hmax ▸ Ne.symm hmax)] at hz
      rw [IsLast, hs]
      exact hz

end Mempool

end TalCash
