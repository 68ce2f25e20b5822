import TalCash.Common.Run
import TalCash.Node.Inserting
/-!
# Runs of the mempool

Two mempools take the same calls and readings of one clock; one pops
items to make room, the other looks at every sender. Call by call they
hold the same transfers and return or raise the same
(`perform_agrees`).
-/

namespace TalCash

section

variable [Library]

namespace Mempool

open Exec

variable {m m' n : Mempool} {e y z : MempoolEntry} {k : EvictionKey} {config : MempoolConfig}
variable {H : Set Transfer} {clock : ℕ → ℚ} {j : ℕ} {tx x : Transfer} {added : ℚ}
variable {state : StateView} {E : PyError → Mempool → Mempool → Prop}

/-! ## Entries taken out -/

/-- What taking some entries out leaves. -/
structure Dropped (m m' : Mempool) (l : List MempoolEntry) : Prop where
  live : ∀ z, m'.Live z ↔ m.Live z ∧ z ∉ l
  items : ∀ k ∈ m'.evictable, k ∈ m.evictable ∨ ∃ z, m.Live z ∧ k = z.key
  clockReads : m'.clockReads = m.clockReads
  bytes : m'.bytes ≤ m.bytes

namespace Dropped

variable {l l' : List MempoolEntry} {m'' : Mempool}

theorem nil : Dropped m m [] :=
  ⟨fun _ => ⟨fun h => ⟨h, List.not_mem_nil⟩, fun h => h.1⟩, fun _ h => Or.inl h, rfl, le_rfl⟩

theorem trans (h : Dropped m m' l) (h' : Dropped m' m'' l') : Dropped m m'' (l ++ l') := by
  refine ⟨fun z => ?_, fun k hk => ?_, h'.clockReads.trans h.clockReads, h'.bytes.trans h.bytes⟩
  · rw [h'.live, h.live, List.mem_append, not_or, and_assoc]
  · rcases h'.items k hk with hk | ⟨z, hz, hkz⟩
    · exact h.items k hk
    · exact Or.inr ⟨z, ((h.live z).1 hz).1, hkz⟩

/-- No item comes before the one its entry had. -/
theorem bound (h : Dropped m m' l) (hm : Heaped H clock j m) (hk : k ∈ m'.evictable)
    (he : m.Live e) (ht : e.tx.txid = k.txid) : e.key ≤ k := by
  rcases h.items k hk with hk | ⟨z, hz, rfl⟩
  · exact hm.bound k hk e he ht
  · rw [he.unique hz ht]

end Dropped

theorem remove_lockstep (h : Heaped H clock j m) (hm : SameTables m n) (he : m.Live e) :
    Lockstep (remove e) (remove e) (fun _ m' n' => SameTables m' n' ∧ Heaped H clock j m' ∧
      Dropped m m' [e]) E m n := by
  have he' : n.Live e := hm.live_iff.2 he
  refine (Lockstep.of_wp (h.remove he fun z hz _ => h.lasts z hz)
    (remove_spec (h.indexed.congr hm) he')).mono ?_ fun _ _ _ h => h
  rintro _ m' n' ⟨⟨hm', hheaped, y, hp, -⟩, hn', -⟩
  refine ⟨hm'.symm.trans (hm.without.trans hn'), hheaped, fun z => ?_, fun k hk => ?_,
    hm'.clockReads, hm'.bytes.trans_le (Nat.sub_le _ _)⟩
  · rw [hm'.live_iff, live_without, and_comm, List.mem_singleton]
    refine and_congr_right fun hz => not_congr ⟨fun ht => hz.unique he ht, fun h => by rw [h]⟩
  · refine (hp.mem hheaped.indexed hk).imp_right ?_
    rintro ⟨z, hz, hkz⟩
    exact ⟨z, (live_without.1 (hm'.live_iff.1 (hheaped.indexed.live_of_isLast hz))).2, hkz⟩

/-- **Several entries are taken out** alike in both mempools. -/
theorem removeAll_lockstep : ∀ {l : List MempoolEntry} {m n : Mempool}, Heaped H clock j m →
    SameTables m n → l.Nodup → (∀ e ∈ l, m.Live e) →
    Lockstep (l.forM remove) (l.forM remove) (fun _ m' n' => SameTables m' n' ∧
      Heaped H clock j m' ∧ Dropped m m' l) E m n
  | [], m, n, h, hm, _, _ => Lockstep.pure ⟨hm, h, .nil⟩
  | e :: l, m, n, h, hm, hnd, hl => by
    obtain ⟨hne, hnd⟩ := List.nodup_cons.1 hnd
    refine Lockstep.bind ((remove_lockstep h hm (hl e List.mem_cons_self)).mono ?_
      fun _ _ _ h => h)
    rintro _ m₁ n₁ ⟨hm₁, h₁, hd₁⟩
    have hl₁ : ∀ y ∈ l, m₁.Live y := fun y hy => (hd₁.live y).2
      ⟨hl y (List.mem_cons_of_mem _ hy), fun hye => hne (List.mem_singleton.1 hye ▸ hy)⟩
    refine (removeAll_lockstep h₁ hm₁ hnd hl₁).mono ?_ fun _ _ _ h => h
    rintro _ m' n' ⟨hm', h', hd'⟩
    exact ⟨hm', h', hd₁.trans hd'⟩

/-- What waits of a sender. -/
theorem Indexed.mem_pendingFor (h : m.Indexed) {a : Address} :
    e ∈ m.pendingFor a ↔ m.Live e ∧ e.tx.sender = a := by
  unfold pendingFor
  rw [List.mem_filterMap]
  constructor
  · rintro ⟨nonce, -, he⟩
    obtain ⟨hs, -, hlive⟩ := h.slots _ _ _ he
    exact ⟨hlive, hs⟩
  · rintro ⟨hlive, rfl⟩
    obtain ⟨-, -, hslot⟩ := h.ids _ _ hlive
    exact ⟨e.tx.nonce, (List.mem_insertionSort _).2 (Table.mem_of_lookup hslot), hslot⟩

theorem Indexed.nodup_pendingFor (h : m.Indexed) (a : Address) : (m.pendingFor a).Nodup := by
  refine List.Nodup.filterMap ?_ ((List.perm_insertionSort _ _).nodup_iff.2
    (AList.keys_nodup _))
  intro nonce nonce' y hy hy'
  exact (h.slots _ _ _ hy).2.1.symm.trans (h.slots _ _ _ hy').2.1

omit [Library] in
theorem SameTables.pendingFor (h : SameTables m n) (a : Address) :
    n.pendingFor a = m.pendingFor a := by
  unfold Mempool.pendingFor
  rw [h.pendingOf]

/-! ## The clock -/

theorem Heaped.later {j' : ℕ} (h : Heaped H clock j m) (hj : j ≤ j') : Heaped H clock j' m := by
  refine ⟨⟨h.indexed, h.sorted, h.bound, fun k hk => ?_, fun e he => ?_⟩, h.lasts⟩
  · obtain ⟨tx, hmem, ht, hr, htime⟩ := h.keys k hk
    exact ⟨tx, hmem, ht, hr, fun i hi => htime i (hj.trans hi)⟩
  · obtain ⟨hmem, htime⟩ := h.entries e he
    exact ⟨hmem, fun i hi => htime i (hj.trans hi)⟩

theorem Heaped.ticked {i : ℕ} (h : Heaped H clock j m) :
    Heaped H clock j { m with clockReads := i } :=
  ⟨⟨⟨h.indexed.ids, h.indexed.slots, h.indexed.tight, h.indexed.received, h.indexed.bytes⟩,
    h.sorted, h.bound, h.keys, h.entries⟩, h.lasts⟩

/-- The item of a transfer taken up now comes before all its older ones. -/
theorem Heaped.clear_of_later {i : ℕ} (h : Heaped H clock j m) (hinj : Set.InjOn Transfer.txid H)
    (hx : x ∈ H) (hj : j ≤ i) : Clear m x (clock i) := by
  intro k hk hkt
  obtain ⟨tx, htx, hkt', hkr, htime⟩ := h.keys k (mem_of_mem_othersIn hk)
  obtain rfl := hinj htx hx (hkt'.symm.trans hkt)
  have hle : -clock i ≤ k.negAdded := by
    have := htime i hj
    linarith only [this]
  refine EvictionKey.le_iff.2 (Or.inr ⟨hkr.symm, ?_⟩)
  rcases hle.lt_or_eq with hlt | heq
  · exact Or.inl hlt
  · exact Or.inr ⟨heq, hkt.symm.le⟩

omit [Library] in
theorem SameTables.ticked {i : ℕ} (h : SameTables m n) :
    SameTables { m with clockReads := i } { n with clockReads := i } :=
  ⟨h.byId, h.bySender, h.byReceiver, h.bytes, rfl⟩

omit [Library] in
/-- Both mempools read the clock as often, and the same. -/
theorem readClock_lockstep (hm : SameTables m n) :
    Lockstep (readClock clock) (readClock clock) (fun now m' n' => now = clock m.clockReads ∧
      m' = { m with clockReads := m.clockReads + 1 } ∧
      n' = { n with clockReads := m.clockReads + 1 }) E m n :=
  Or.inl ⟨_, _, _, rfl, by rw [← hm.clockReads]; rfl, rfl, rfl, rfl⟩

omit [Library] in
theorem timed_lockstep : ∀ {txs : List Transfer} {m n : Mempool}, SameTables m n →
    Lockstep (timed clock txs) (timed clock txs) (fun returned m' n' =>
      m' = { m with clockReads := m.clockReads + txs.length } ∧
      n' = { n with clockReads := m.clockReads + txs.length } ∧
      ∀ c ∈ returned, c.1 ∈ txs ∧
        ∃ i, m.clockReads ≤ i ∧ i < m.clockReads + txs.length ∧ c.2 = clock i) E m n
  | [], m, n, hm => Lockstep.pure ⟨rfl, by rw [List.length_nil, Nat.add_zero, ← hm.clockReads],
      fun c hc => (by cases hc)⟩
  | tx :: txs, m, n, hm => by
    refine Lockstep.bind ((readClock_lockstep hm).mono ?_ fun _ _ _ h => h)
    rintro now m₁ n₁ ⟨rfl, rfl, rfl⟩
    refine Lockstep.bind ((timed_lockstep hm.ticked).mono ?_ fun _ _ _ h => h)
    rintro others m' n' ⟨hm', hn', hothers⟩
    have hlen : m.clockReads + 1 + txs.length = m.clockReads + (tx :: txs).length := by
      rw [List.length_cons]
      omega
    refine Lockstep.pure ⟨?_, ?_, fun c hc => ?_⟩
    · rw [hm', ← hlen]
    · rw [hn', ← hlen]
    · rw [← hlen]
      rcases List.mem_cons.1 hc with rfl | hc
      · exact ⟨List.mem_cons_self, m.clockReads, le_refl _, by omega, rfl⟩
      · obtain ⟨hmem, i, hi, hi', ht⟩ := hothers c hc
        exact ⟨List.mem_cons_of_mem _ hmem, i, Nat.le_of_succ_le hi, hi', ht⟩

/-! ## Keeping up with the chain -/

/-- **What waits of some senders is taken out** alike in both mempools. -/
theorem takeOut_lockstep : ∀ {senders : List Address} {m n : Mempool}, Heaped H clock j m →
    SameTables m n →
    Lockstep (takeOut senders) (takeOut senders) (fun taken m' n' => SameTables m' n' ∧
      Heaped H clock j m' ∧ ∃ l : List MempoolEntry, taken = l.map (fun e => (e.tx, e.added)) ∧
        Dropped m m' l ∧ (∀ e ∈ l, m.Live e ∧ e.tx.sender ∈ senders) ∧
        ∀ z, m'.Live z → z.tx.sender ∉ senders) E m n
  | [], m, n, h, hm => Lockstep.pure ⟨hm, h, [], rfl, Dropped.nil, fun e he => (by cases he),
      fun _ _ => List.not_mem_nil⟩
  | sender :: senders, m, n, h, hm => by
    refine Lockstep.get_bind ?_
    rw [hm.pendingFor]
    have hp : ∀ {e}, e ∈ m.pendingFor sender ↔ m.Live e ∧ e.tx.sender = sender :=
      h.indexed.mem_pendingFor
    refine Lockstep.bind ((removeAll_lockstep h hm (h.indexed.nodup_pendingFor sender)
      fun e he => (hp.1 he).1).mono ?_ fun _ _ _ h => h)
    rintro _ m₁ n₁ ⟨hm₁, h₁, hd₁⟩
    refine Lockstep.bind ((takeOut_lockstep h₁ hm₁).mono ?_
      fun _ _ _ h => h)
    rintro others m' n' ⟨hm', h', l, rfl, hd', hl, hgone⟩
    refine Lockstep.pure ⟨hm', h', m.pendingFor sender ++ l, by rw [List.map_append],
      hd₁.trans hd', fun e he => ?_, fun z hz hs => ?_⟩
    · rcases List.mem_append.1 he with he | he
      · obtain ⟨hlive, hs⟩ := hp.1 he
        exact ⟨hlive, List.mem_cons.2 (Or.inl hs)⟩
      · obtain ⟨hlive, hs⟩ := hl e he
        exact ⟨((hd₁.live e).1 hlive).1, List.mem_cons_of_mem _ hs⟩
    · obtain ⟨hz₁, -⟩ := (hd'.live z).1 hz
      obtain ⟨hz₀, hnot⟩ := (hd₁.live z).1 hz₁
      rcases List.mem_cons.1 hs with hs | hs
      · exact hnot (hp.2 ⟨hz₀, hs⟩)
      · exact hgone z hz hs

instance : Std.Total candidateLe := ⟨fun _ _ => le_total _ _⟩

instance : IsTrans (Transfer × ℚ) candidateLe := ⟨fun _ _ _ => le_trans⟩

/-- **The candidates of `update`**: what was taken out, and what returns
from blocks undone, taken up later than all items in the heap. -/
theorem Awaiting.of_taken {l : List MempoolEntry} {senders : List Address}
    {returned : List (Transfer × ℚ)} {j' : ℕ} (hmono : Monotone clock) (hj : j ≤ j')
    (h : Heaped H clock j m) (hinj : Set.InjOn Transfer.txid H)
    (h' : Heaped H clock j m') (hd : Dropped m m' l)
    (hl : ∀ e ∈ l, m.Live e ∧ e.tx.sender ∈ senders)
    (hgone : ∀ z, m'.Live z → z.tx.sender ∉ senders)
    (hret : ∀ c ∈ returned, c.1 ∈ H ∧ c.1.sender ∈ senders ∧
      ∃ i, j ≤ i ∧ i < j' ∧ c.2 = clock i) :
    Awaiting H clock j' {s | s ∈ senders} m'
      ((returned ++ l.map fun e => (e.tx, e.added)).insertionSort candidateLe) := by
  have hmem : ∀ c ∈ (returned ++ l.map fun e => (e.tx, e.added)).insertionSort candidateLe,
      c ∈ returned ∨ ∃ e ∈ l, c = (e.tx, e.added) := by
    intro c hc
    rcases List.mem_append.1 ((List.mem_insertionSort _).1 hc) with hc | hc
    · exact Or.inl hc
    · obtain ⟨e, he, rfl⟩ := List.mem_map.1 hc
      exact Or.inr ⟨e, he, rfl⟩
  refine ⟨List.pairwise_insertionSort _ _, fun c hc => ?_, fun c hc => Or.inl ?_,
    fun z hz hs => absurd hs (hgone z hz)⟩
  · rcases hmem c hc with hc | ⟨e, he, rfl⟩
    · obtain ⟨hcH, hs, i, -, hi, ht⟩ := hret c hc
      exact ⟨hcH, hs, fun i' hi' => by rw [ht]; exact hmono (hi.le.trans hi')⟩
    · obtain ⟨hlive, hs⟩ := hl e he
      obtain ⟨heH, htime⟩ := h.entries e hlive
      exact ⟨heH, hs, fun i hi => htime i (hj.trans hi)⟩
  · rcases hmem c hc with hc | ⟨e, he, rfl⟩
    · obtain ⟨hcH, -, i, hji, -, ht⟩ := hret c hc
      rw [ht]
      exact h'.clear_of_later hinj hcH hji
    · intro k hk hkt
      obtain ⟨hlive, -⟩ := hl e he
      rw [← h.indexed.key_eq hlive]
      exact hd.bound h (mem_of_mem_othersIn hk) hlive hkt.symm

/-! ## The calls -/

/-- Two mempools that took the same calls. -/
structure Alongside (config : MempoolConfig) (H : Set Transfer) (clock : ℕ → ℚ) (m n : Mempool) :
    Prop where
  same : SameTables m n
  heaped : Heaped H clock m.clockReads m
  fits : m.bytes ≤ config.maxBytes

/-- A call raises `ValidationError`, or `AttributeError` for a coinbase
that has no sender. -/
def Refused (err : PyError) : Prop := err.IsInvalid ∨ err = .attribute

/-- **`add`.** -/
theorem add_lockstep (hmono : Monotone clock) (hinj : Set.InjOn Transfer.txid H)
    (h : Alongside config H clock m n) {tx : Transaction} (hmem : ∀ x, tx = .transfer x → x ∈ H) :
    Lockstep (add config (trimToSize config) clock state tx)
      (add config (trimScanning config) clock state tx) (fun _ => Alongside config H clock)
      (fun err m' n' => Refused err ∧ Alongside config H clock m' n') m n := by
  cases tx with
  | coinbase tx => exact Lockstep.throw ⟨Or.inl ⟨_, rfl⟩, h⟩
  | transfer x =>
    obtain ⟨hm, h, hfits⟩ := h
    refine Lockstep.get_bind ?_
    rw [hm.byId]
    refine Lockstep.ite (fun _ => Lockstep.bind (Lockstep.throw ⟨Or.inl ⟨_, rfl⟩, hm, h, hfits⟩))
      fun hnew => ?_
    have hid : m.byId.lookup x.txid = none := by
      cases hl : m.byId.lookup x.txid with
      | none => rfl
      | some w => exact absurd (by rw [hl]; rfl) hnew
    refine Lockstep.bind (Lockstep.lift (fun _ _ => ?_) fun err herr => ⟨Or.inl
      (raises_checkTransaction rules_isInvalid config.params (.transfer x) err herr), hm, h, hfits⟩)
    refine Lockstep.bind ((readClock_lockstep hm).mono ?_ fun _ _ _ h => h)
    rintro now m₁ n₁ ⟨rfl, rfl, rfl⟩
    have hx := hmem x rfl
    have hclear := (h.ticked (i := m.clockReads + 1)).clear_of_later hinj hx le_rfl
    have hafter := (h.later (Nat.le_succ _)).ticked (i := m.clockReads + 1)
    refine (insert_lockstep hinj hafter (hm.ticked (i := m.clockReads + 1)) hx
      (fun i hi => hmono (Nat.le_of_succ_le hi)) hid (Or.inl hclear)).mono ?_ ?_
    · rintro _ m' n' ⟨⟨hm', h', hclock, -⟩, hw, -⟩
      exact ⟨hm', by rw [hclock]; exact h', hw.fits hfits⟩
    · rintro err m' n' ⟨herr, ⟨hm', h', hclock, -⟩, hw, -⟩
      exact ⟨Or.inl herr, hm', by rw [hclock]; exact h', hw.fits hfits⟩

theorem raises_mapM_senderOf : ∀ {l : List Transaction},
    Raises (fun err => err = .attribute) (l.mapM senderOf)
  | [] => .ok []
  | tx :: l => by
    rw [List.mapM_cons]
    refine Raises.bind ?_ fun _ _ => raises_mapM_senderOf.bind fun _ _ => .ok _
    intro err herr
    cases tx with
    | transfer tx => cases herr
    | coinbase tx => exact (Except.error.inj herr).symm

theorem raises_affectedSenders {connected disconnected : List Block} {returning : List Transfer} :
    Raises (fun err => err = .attribute)
      (affectedSenders m connected disconnected returning) :=
  .ite (fun _ => raises_mapM_senderOf) fun _ => .ok _

/-- What returns is of an undone block. -/
theorem mem_returningOf {confirmed : List Digest} {disconnected : List Block}
    (h : x ∈ returningOf confirmed disconnected) :
    ∃ block ∈ disconnected, .transfer x ∈ block.transactions := by
  obtain ⟨block, hblock, hx⟩ := List.mem_flatMap.1 h
  obtain ⟨tx, htx, hx⟩ := List.mem_filterMap.1 hx
  refine ⟨block, hblock, List.mem_of_mem_tail ?_⟩
  split at hx
  · cases hx
  · cases tx with
    | transfer tx =>
      obtain rfl := Option.some.inj hx
      exact htx
    | coinbase tx => cases hx

/-- The sender of what returns is looked at again. -/
theorem sender_mem_affected {connected disconnected : List Block} {confirmed : List Digest}
    {senders : List Address}
    (h : affectedSenders m connected disconnected (returningOf confirmed disconnected) = .ok senders)
    (hx : x ∈ returningOf confirmed disconnected) : x.sender ∈ senders := by
  obtain ⟨block, hblock, -⟩ := mem_returningOf hx
  have hne : ¬ disconnected.isEmpty := fun hempty => by
    rw [List.isEmpty_iff.1 hempty] at hblock
    cases hblock
  rw [affectedSenders, if_neg hne] at h
  rw [← Except.ok.inj h]
  exact List.mem_append_right _ (List.mem_map_of_mem hx)

/-- **`update`.** -/
theorem update_lockstep (hmono : Monotone clock) (hinj : Set.InjOn Transfer.txid H)
    (h : Alongside config H clock m n) {connected disconnected : List Block}
    (hmem : ∀ block ∈ disconnected, ∀ x, .transfer x ∈ block.transactions → x ∈ H) :
    Lockstep (update config (trimToSize config) clock state connected disconnected)
      (update config (trimScanning config) clock state connected disconnected)
      (fun _ => Alongside config H clock) (fun err m' n' => Refused err ∧ Alongside config H clock m' n')
      m n := by
  obtain ⟨hm, h, hfits⟩ := h
  refine Lockstep.get_bind ?_
  rw [show affectedSenders n = affectedSenders m by
    unfold affectedSenders
    rw [hm.bySender]]
  refine Lockstep.bind (Lockstep.lift (fun senders hsenders => ?_)
    fun err herr => ⟨Or.inr (raises_affectedSenders err herr), hm, h, hfits⟩)
  refine Lockstep.bind ((timed_lockstep hm).mono ?_ fun _ _ _ h => h)
  rintro returned m₁ n₁ ⟨rfl, rfl, hreturned⟩
  refine Lockstep.bind ((takeOut_lockstep h.ticked hm.ticked).mono ?_ fun _ _ _ h => h)
  rintro taken m₂ n₂ ⟨hm₂, h₂, l, rfl, hd, hl, hgone⟩
  have hperm : ∀ s, s ∈ config.setOrder senders.dedup ↔ s ∈ senders := fun s =>
    (config.setOrder_perm senders.dedup).mem_iff.trans List.mem_dedup
  have hawaiting := Awaiting.of_taken hmono (Nat.le_add_right _ _) h.ticked hinj h₂ hd hl hgone
    fun c hc => by
      obtain ⟨hx, hi⟩ := hreturned c hc
      obtain ⟨block, hblock, htx⟩ := mem_returningOf hx
      exact ⟨hmem block hblock _ htx, (hperm _).2 (sender_mem_affected hsenders hx), hi⟩
  refine Lockstep.bind ((putBack_lockstep hinj (h₂.later (Nat.le_add_right _ _)) hm₂
    hawaiting).mono ?_ fun _ _ _ h => h.elim)
  rintro _ m' n' ⟨hm', h', hclock, hfits'⟩
  refine Lockstep.get_bind ?_
  rw [hm'.byId]
  refine Lockstep.pure ⟨hm', ?_, hfits' (hd.bytes.trans hfits)⟩
  rw [hclock, hd.clockReads]
  exact h'

/-- **`expire`.** -/
theorem expireFor_lockstep {cutoff : ℚ} : ∀ {senders : List Address} {m n : Mempool},
    Heaped H clock j m → SameTables m n →
    Lockstep (expireFor cutoff senders) (expireFor cutoff senders) (fun _ m' n' =>
      SameTables m' n' ∧ Heaped H clock j m' ∧ m'.clockReads = m.clockReads ∧
        m'.bytes ≤ m.bytes) E m n
  | [], m, n, h, hm => Lockstep.pure ⟨hm, h, rfl, le_rfl⟩
  | sender :: senders, m, n, h, hm => by
    refine Lockstep.get_bind ?_
    rw [hm.pendingFor]
    have hsub := List.dropWhile_sublist (l := m.pendingFor sender)
      (fun e => !decide (e.added < cutoff))
    refine Lockstep.bind ((removeAll_lockstep h hm
      ((h.indexed.nodup_pendingFor sender).sublist hsub)
      fun e he => (h.indexed.mem_pendingFor.1 (hsub.subset he)).1).mono ?_ fun _ _ _ h => h)
    rintro _ m₁ n₁ ⟨hm₁, h₁, hd⟩
    refine Lockstep.bind ((expireFor_lockstep h₁ hm₁).mono ?_ fun _ _ _ h => h)
    rintro others m' n' ⟨hm', h', hclock, hbytes⟩
    exact Lockstep.pure ⟨hm', h', hclock.trans hd.clockReads, hbytes.trans hd.bytes⟩

theorem expire_lockstep (h : Alongside config H clock m n) :
    Lockstep (expire config clock) (expire config clock) (fun _ => Alongside config H clock) E m n := by
  obtain ⟨hm, h, hfits⟩ := h
  refine Lockstep.bind ((readClock_lockstep hm).mono ?_ fun _ _ _ h => h)
  rintro now m₁ n₁ ⟨rfl, rfl, rfl⟩
  refine Lockstep.get_bind ?_
  show Lockstep (expireFor _ m.bySender.keys.reverse) (expireFor _ n.bySender.keys.reverse) _ _ _ _
  rw [show n.bySender.keys = m.bySender.keys by rw [hm.bySender]]
  refine (expireFor_lockstep ((h.later (Nat.le_succ _)).ticked (i := m.clockReads + 1))
    (hm.ticked (i := m.clockReads + 1))).mono ?_ fun _ _ _ h => h
  rintro count m' n' ⟨hm', h', hclock, hbytes⟩
  exact ⟨hm', by rw [hclock]; exact h', hbytes.trans hfits⟩

end Mempool

/-! ## Runs -/

/-- A call of the mempool, with the state of the tip it reads. -/
inductive PoolCall
  | add (state : StateView) (tx : Transaction)
  | update (state : StateView) (connected disconnected : List Block)
  | expire

/-- What a call returns. -/
inductive PoolResult
  | entry (entry : MempoolEntry)
  | waiting (returning : List Transfer)
  | removed (count : ℕ)

omit [Library] in
/-- The transfers a call may put in the mempool. -/
def PoolCall.Brings (tx : Transfer) : PoolCall → Prop
  | .add _ t => t = .transfer tx
  | .update _ _ disconnected => ∃ block ∈ disconnected, .transfer tx ∈ block.transactions
  | .expire => False

namespace Mempool

open Exec

variable (config : MempoolConfig) (trim : MempoolM Unit) (clock : ℕ → ℚ)

/-- One call. -/
def perform : PoolCall → MempoolM PoolResult
  | .add state tx => do
    let entry ← add config trim clock state tx
    pure (.entry entry)
  | .update state connected disconnected => do
    let returning ← update config trim clock state connected disconnected
    pure (.waiting returning)
  | .expire => do
    let count ← expire config clock
    pure (.removed count)

/-- The mempool after a run of calls, each of which returned or raised. -/
def after (calls : List PoolCall) : Mempool :=
  Run.run (fun m call => final (perform config trim clock call) m) {} calls

section

variable {config} {clock} {m n : Mempool} {H : Set Transfer}

variable (config) in
theorem perform_lockstep (call : PoolCall) (hmono : Monotone clock) (hinj : Set.InjOn Transfer.txid H)
    (h : Alongside config H clock m n) (hmem : ∀ tx, call.Brings tx → tx ∈ H) :
    Lockstep (perform config (trimToSize config) clock call)
      (perform config (trimScanning config) clock call) (fun _ => Alongside config H clock)
      (fun err m' n' => Refused err ∧ Alongside config H clock m' n') m n := by
  cases call with
  | add state tx =>
    exact Lockstep.bind ((add_lockstep hmono hinj h hmem).mono
      (fun _ _ _ h => Lockstep.pure h) fun _ _ _ h => h)
  | update state connected disconnected =>
    exact Lockstep.bind ((update_lockstep hmono hinj h fun block hblock x hx =>
      hmem x ⟨block, hblock, hx⟩).mono (fun _ _ _ h => Lockstep.pure h) fun _ _ _ h => h)
  | expire =>
    exact Lockstep.bind ((expire_lockstep h).mono (fun _ _ _ h => Lockstep.pure h)
      fun _ _ _ h => h)

theorem alongside_empty : Alongside config H clock {} {} := by
  refine ⟨.refl _, ⟨⟨⟨fun t e h => ?_, fun a n e h => ?_, fun a t h => ?_, fun a t => rfl, rfl⟩,
    .nil, fun k h => ?_, fun k h => ?_, fun e h => ?_⟩, fun y h => ?_⟩, Nat.zero_le _⟩
  all_goals cases h

variable (config) in
/-- Two mempools stay side by side along a run. -/
theorem alongside_run (hmono : Monotone clock) (hinj : Set.InjOn Transfer.txid H) :
    ∀ (calls : List PoolCall) {m n : Mempool}, Alongside config H clock m n →
      (∀ call ∈ calls, ∀ tx, call.Brings tx → tx ∈ H) → Alongside config H clock
        (Run.run (fun m call => final (perform config (trimToSize config) clock call) m) m calls)
        (Run.run (fun m call => final (perform config (trimScanning config) clock call) m) n calls)
  | [], _, _, h, _ => h
  | call :: calls, m, n, h, hmem => by
    have hstep : Alongside config H clock (final (perform config (trimToSize config) clock call) m)
        (final (perform config (trimScanning config) clock call) n) :=
      ((perform_lockstep config call hmono hinj h (hmem call List.mem_cons_self)).mono
        (fun _ _ _ h => h) fun _ _ _ h => h.2).final
    exact alongside_run hmono hinj calls hstep
      fun call' hcall' => hmem call' (List.mem_cons_of_mem _ hcall')

/-- **Popping items evicts as looking at every sender does.** After any
calls the two mempools hold the same, the next call returns or raises the
same in both, and it raises no `IndexError`: the heap is not empty while
the mempool is over its limit. -/
theorem perform_agrees (hmono : Monotone clock) (calls : List PoolCall) (call : PoolCall)
    (hS : CollisionFree {b | ∃ c ∈ call :: calls, ∃ tx, c.Brings tx ∧ b = tx.serialize}) :
    SameTables (after config (trimToSize config) clock calls)
        (after config (trimScanning config) clock calls) ∧
      outcome (perform config (trimToSize config) clock call)
          (after config (trimToSize config) clock calls) =
        outcome (perform config (trimScanning config) clock call)
          (after config (trimScanning config) clock calls) ∧
      ∀ err, outcome (perform config (trimToSize config) clock call)
        (after config (trimToSize config) clock calls) = .error err →
          err.IsInvalid ∨ err = .attribute := by
  have hinj : Set.InjOn Transfer.txid {tx | ∃ c ∈ call :: calls, c.Brings tx} := by
    rintro x ⟨c, hc, hx⟩ y ⟨c', hc', hy⟩ hxy
    have hser : (Transaction.transfer x).serialize = (Transaction.transfer y).serialize :=
      hS ⟨c, hc, x, hx, rfl⟩ ⟨c', hc', y, hy, rfl⟩ hxy
    exact Transaction.transfer.inj (Transaction.serialize_injective hser)
  have hrun : Alongside config _ clock (after config (trimToSize config) clock calls)
      (after config (trimScanning config) clock calls) :=
    alongside_run config hmono hinj calls alongside_empty fun c hc tx htx =>
      ⟨c, List.mem_cons_of_mem _ hc, htx⟩
  have hstep := perform_lockstep config call hmono hinj hrun fun tx htx => ⟨call, List.mem_cons_self, htx⟩
  refine ⟨hrun.same, hstep.outcome_eq, fun err herr => ?_⟩
  obtain ⟨_, _, hrefused, -⟩ := hstep.raised herr
  exact hrefused

end

end Mempool

end

section

attribute [local instance] Sample.primitives

/-- Three payments, of which two fit, and then old ones expire. -/
theorem Mempool.perform_agrees_sample :
    let clock : ℕ → ℚ := fun i => i
    let calls : List PoolCall := [.add (fun _ => ⟨10 ^ 6, 0⟩) (.transfer (Sample.payment 1 0 200)),
      .add (fun _ => ⟨10 ^ 6, 0⟩) (.transfer (Sample.payment 2 0 300)),
      .add (fun _ => ⟨10 ^ 6, 0⟩) (.transfer (Sample.payment 3 0 250))]
    SameTables (after Sample.mempoolConfig (trimToSize Sample.mempoolConfig) clock calls)
      (after Sample.mempoolConfig (trimScanning Sample.mempoolConfig) clock calls) := by
  intro clock calls
  refine (Mempool.perform_agrees Nat.mono_cast calls .expire (Sample.collisionFree
    (l := [Sample.payment 1 0 200, Sample.payment 2 0 300, Sample.payment 3 0 250].map
      Transfer.serialize) ?_ (by decide +kernel))).1
  rintro b ⟨c, hc, tx, hbrings, rfl⟩
  refine List.mem_map_of_mem ?_
  rcases List.mem_cons.1 hc with rfl | hc
  · exact hbrings.elim
  · rcases List.mem_cons.1 hc with rfl | hc
    · rw [← Transaction.transfer.inj hbrings]
      exact List.mem_cons_self
    · rcases List.mem_cons.1 hc with rfl | hc
      · rw [← Transaction.transfer.inj hbrings]
        exact List.mem_cons_of_mem _ List.mem_cons_self
      · rw [List.mem_singleton] at hc
        subst hc
        rw [← Transaction.transfer.inj hbrings]
        exact List.mem_cons_of_mem _ (List.mem_cons_of_mem _ List.mem_cons_self)

end

end TalCash
