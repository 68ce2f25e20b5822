import TalCash.Common.Lockstep
import TalCash.Node.Indexes
/-!
# Eviction

The heap keeps items of entries that left, came back at another time or
stopped being their sender's last. It finds the right entry all the same:
each sender's last has its item in the heap, and no item of a waiting
entry comes before the item that entry has now (`Heaped`). So the first
item that counts is the least item of a last entry, which is what looking
at every sender finds (`trim_lockstep`).
-/

namespace TalCash

variable [Library]

namespace Mempool

open Exec

variable {m m' : Mempool} {e y z : MempoolEntry} {heap : List EvictionKey} {k : EvictionKey}
variable {config : MempoolConfig}

/-! ## The heap -/

/-- The fee rate of a transfer. -/
def rate (tx : Transfer) : ℚ := feeRateOf tx.fee tx.size

/-- The item of a transfer taken up at a time. -/
def keyOf (tx : Transfer) (added : ℚ) : EvictionKey := ⟨rate tx, -added, tx.txid⟩

theorem Indexed.key_eq (h : m.Indexed) (he : m.Live e) : e.key = keyOf e.tx e.added := by
  rw [MempoolEntry.key, keyOf, MempoolEntry.feeRate, rate, (h.ids _ _ he).2.1]

/-- Entries with one item are one entry. -/
theorem Live.eq_of_key (he : m.Live e) (hy : m.Live y) (h : e.key = y.key) : e = y :=
  he.unique hy (congrArg EvictionKey.txid h)

/-- What the heap says, of transfers among `H` and of times up to the
clock's reading at `j`. -/
structure HeapOk (H : Set Transfer) (clock : ℕ → ℚ) (j : ℕ) (m : Mempool) : Prop where
  indexed : m.Indexed
  sorted : m.evictable.Pairwise (· ≤ ·)
  bound : ∀ k ∈ m.evictable, ∀ e, m.Live e → e.tx.txid = k.txid → e.key ≤ k
  keys : ∀ k ∈ m.evictable, ∃ tx ∈ H, k.txid = tx.txid ∧ k.feeRate = rate tx ∧
    ∀ i, j ≤ i → -k.negAdded ≤ clock i
  entries : ∀ e, m.Live e → e.tx ∈ H ∧ ∀ i, j ≤ i → e.added ≤ clock i

/-- And each sender's last entry has its item in the heap. -/
structure Heaped (H : Set Transfer) (clock : ℕ → ℚ) (j : ℕ) (m : Mempool) : Prop
    extends HeapOk H clock j m where
  lasts : ∀ y, m.IsLast y → y.key ∈ m.evictable

variable {H : Set Transfer} {clock : ℕ → ℚ} {i j : ℕ} {tx : Transfer} {added : ℚ}

/-- The item of an entry that waits would be in order in the heap. -/
theorem HeapOk.key_ok (h : HeapOk H clock j m) (he : m.Live e) :
    ∃ tx ∈ H, e.key.txid = tx.txid ∧ e.key.feeRate = rate tx ∧
      ∀ i, j ≤ i → -e.key.negAdded ≤ clock i := by
  obtain ⟨hmem, ht⟩ := h.entries e he
  refine ⟨e.tx, hmem, rfl, ?_, fun i hi => ?_⟩
  · rw [h.indexed.key_eq he]
    rfl
  · show - -e.added ≤ clock i
    rw [neg_neg]
    exact ht i hi

/-! ## What a push leaves -/

namespace Pushed

variable {pushed : Option MempoolEntry}

theorem length_le (h : Pushed heap m' pushed) : m'.evictable.length ≤ heap.length + 1 := by
  cases pushed with
  | none =>
    rw [show m'.evictable = heap from h]
    exact Nat.le_succ _
  | some y => exact h.2.1

/-- An item after a push is one from before, or a last entry's. -/
theorem mem (h : Pushed heap m' pushed) (hi : m'.Indexed) (hk : k ∈ m'.evictable) :
    k ∈ heap ∨ ∃ z, m'.IsLast z ∧ k = z.key := by
  cases pushed with
  | none =>
    rw [show m'.evictable = heap from h] at hk
    exact Or.inl hk
  | some y =>
    obtain ⟨hy, -, he | he⟩ := h <;> rw [he] at hk
    · rcases (List.mem_orderedInsert _).1 hk with rfl | hk
      · exact Or.inr ⟨y, hy, rfl⟩
      · exact Or.inl hk
    · rw [List.mem_insertionSort] at hk
      obtain ⟨z, hz, rfl⟩ := List.mem_map.1 hk
      exact Or.inr ⟨z, hi.mem_lasts.1 hz, rfl⟩

theorem sorted (h : Pushed heap m' pushed) (hs : heap.Pairwise (· ≤ ·)) :
    m'.evictable.Pairwise (· ≤ ·) := by
  cases pushed with
  | none =>
    rw [show m'.evictable = heap from h]
    exact hs
  | some y =>
    obtain ⟨hy, -, he | he⟩ := h <;> rw [he]
    · exact hs.orderedInsert _ _
    · exact List.pairwise_insertionSort _ _

/-- Where every last entry but the one pushed had its item, all have. -/
theorem lasts (h : Pushed heap m' pushed) (hi : m'.Indexed)
    (hl : ∀ z, m'.IsLast z → z.key ∈ heap ∨ pushed = some z) :
    ∀ z, m'.IsLast z → z.key ∈ m'.evictable := by
  intro z hz
  cases pushed with
  | none =>
    rw [show m'.evictable = heap from h]
    exact (hl z hz).resolve_right fun h => by cases h
  | some y =>
    obtain ⟨hy, -, he | he⟩ := h <;> rw [he]
    · rw [List.mem_orderedInsert]
      exact (hl z hz).symm.imp (fun h => congrArg _ (Option.some.inj h).symm) fun h => h
    · rw [List.mem_insertionSort]
      exact List.mem_map_of_mem (hi.mem_lasts.2 hz)

end Pushed

theorem SameTables.live_iff (h : SameTables m m') : m'.Live y ↔ m.Live y := by
  unfold Live
  rw [h.byId]

/-! ## Entries come and go -/

/-- The heap stays in order where items are pushed of entries that wait. -/
theorem HeapOk.pushed {pushed : Option MempoolEntry} (h : HeapOk H clock j m)
    (hi : m'.Indexed) (hp : Pushed m.evictable m' pushed)
    (hlive : ∀ z, m'.Live z → m.Live z ∨ (z.tx ∈ H ∧ (∀ i, j ≤ i → z.added ≤ clock i)) ∧
      ∀ k ∈ m.evictable, z.tx.txid = k.txid → z.key ≤ k)
    (hl : ∀ z, m'.IsLast z → z.key ∈ m.evictable ∨ pushed = some z) : Heaped H clock j m' := by
  have hentries : ∀ z, m'.Live z → z.tx ∈ H ∧ ∀ i, j ≤ i → z.added ≤ clock i := fun z hz =>
    (hlive z hz).elim (h.entries z) fun h => h.1
  refine ⟨⟨hi, hp.sorted h.sorted, fun k hk z hz ht => ?_, fun k hk => ?_, hentries⟩,
    hp.lasts hi hl⟩
  · rcases hp.mem hi hk with hk | ⟨y, hy, rfl⟩
    · rcases hlive z hz with hz | ⟨-, hz⟩
      · exact h.bound k hk z hz ht
      · exact hz k hk ht
    · rw [hz.unique (hi.live_of_isLast hy) ht]
  · rcases hp.mem hi hk with hk | ⟨y, hy, rfl⟩
    · exact h.keys k hk
    · have hy := hi.live_of_isLast hy
      obtain ⟨hmem, htime⟩ := hentries y hy
      refine ⟨y.tx, hmem, rfl, ?_, fun i hij => ?_⟩
      · rw [hi.key_eq hy]
        rfl
      · show - -y.added ≤ clock i
        rw [neg_neg]
        exact htime i hij

/-- **Taking an entry out**, where the others that are last have their
items in the heap. -/
theorem HeapOk.remove (h : HeapOk H clock j m) (he : m.Live e)
    (hl : ∀ z, m.IsLast z → z ≠ e → z.key ∈ m.evictable) :
    wp (remove e) (fun _ m' => SameTables (m.without e) m' ∧ Heaped H clock j m' ∧
      ∃ y, Pushed m.evictable m' y ∧ ∀ z, y = some z → ¬ m.IsLast z) (fun _ _ => False) m := by
  refine (remove_spec h.indexed he).mono ?_ fun _ _ h => h
  rintro _ m' ⟨hm, y, hp, hy, hlast⟩
  refine ⟨hm, h.pushed ((h.indexed.without he).congr hm) hp (fun z hz => Or.inl ?_)
    fun z hz => ?_, y, hp, hy⟩
  · exact (live_without.1 (hm.live_iff.1 hz)).2
  · exact (hlast z hz).imp_left fun hz => hl z hz.1 hz.2

theorem live_adding : (m.adding e).Live y ↔ y = e ∨ y.tx.txid ≠ e.tx.txid ∧ m.Live y := by
  unfold Live
  rw [byId_adding]
  split
  · rename_i ht
    constructor
    · exact fun h => Or.inl (Option.some.inj h).symm
    · rintro (rfl | ⟨hne, -⟩)
      · rfl
      · exact absurd ht hne
  · rename_i ht
    constructor
    · exact fun h => Or.inr ⟨ht, h⟩
    · rintro (rfl | ⟨-, h⟩)
      · exact absurd rfl ht
      · exact h

/-- **Putting an entry in**, none of whose items comes before its own. -/
theorem Heaped.place (h : Heaped H clock j m) (hid : m.byId.lookup e.tx.txid = none)
    (hslot : (m.pendingOf e.tx.sender).lookup e.tx.nonce = none) (hsize : e.size = e.tx.size)
    (hmem : e.tx ∈ H) (htime : ∀ i, j ≤ i → e.added ≤ clock i)
    (hkeys : ∀ k ∈ m.evictable, e.tx.txid = k.txid → e.key ≤ k) :
    wp (place e) (fun _ m' => SameTables (m.adding e) m' ∧ Heaped H clock j m' ∧
      ∃ y, Pushed m.evictable m' y ∧ ∀ z, y = some z → z = e) (fun _ _ => False) m := by
  refine (place_spec h.indexed).mono ?_ fun _ _ h => h
  rintro _ m' ⟨hm, y, hp, hy, hlast⟩
  refine ⟨hm, h.pushed ((h.indexed.adding hid hslot hsize).congr hm) hp (fun z hz => ?_)
    fun z hz => (hlast z hz).imp_left (h.lasts z), y, hp, hy⟩
  rcases live_adding.1 (hm.live_iff.1 hz) with rfl | ⟨-, hz⟩
  · exact Or.inr ⟨⟨hmem, htime⟩, hkeys⟩
  · exact Or.inl hz

/-! ## Transfers that may come back -/

/-- The items of a heap, but for one of the entry a transfer waits as. -/
def othersIn (heap : List EvictionKey) (m : Mempool) (tx : Transfer) : List EvictionKey :=
  match m.byId.lookup tx.txid with
  | none => heap
  | some e => heap.erase e.key

/-- No other item of a transfer comes before the one it would have. -/
def Clear (m : Mempool) (tx : Transfer) (added : ℚ) : Prop :=
  ∀ k ∈ othersIn m.evictable m tx, k.txid = tx.txid → keyOf tx added ≤ k

/-- A better transfer has the place of another. -/
def Barred (m : Mempool) (tx : Transfer) : Prop :=
  ∃ z, m.Live z ∧ z.tx.sender = tx.sender ∧ z.tx.nonce = tx.nonce ∧ tx.fee < z.tx.fee ∧
    rate tx < rate z.tx

/-- A transfer that may be put back: if it waits, it is its sender's last;
and its older items are no harm, or it cannot be put back now. -/
structure Settled (m : Mempool) (tx : Transfer) (added : ℚ) : Prop where
  last : ∀ z, m.Live z → z.tx.txid = tx.txid → m.IsLast z
  clear : Clear m tx added ∨ Barred m tx

theorem othersIn_of_live (he : m.Live e) (ht : e.tx.txid = tx.txid) :
    othersIn heap m tx = heap.erase e.key := by
  unfold othersIn
  rw [← ht, show m.byId.lookup e.tx.txid = some e from he]

theorem othersIn_of_none (h : m.byId.lookup tx.txid = none) : othersIn heap m tx = heap := by
  unfold othersIn
  rw [h]

theorem mem_of_mem_othersIn (h : k ∈ othersIn heap m tx) : k ∈ heap := by
  unfold othersIn at h
  split at h
  · exact h
  · exact List.mem_of_mem_erase h

/-- No two senders' last entries have one item. -/
theorem Indexed.nodup_keys_lasts (h : m.Indexed) : (m.lasts.map MempoolEntry.key).Nodup := by
  unfold lasts
  rw [List.nodup_iff_pairwise_ne, List.pairwise_map, List.pairwise_filterMap]
  have hrows : m.bySender.rows.Pairwise fun r r' => r.1 ≠ r'.1 := by
    have := Table.rows_nodup_keys (t := m.bySender)
    rwa [List.nodup_iff_pairwise_ne, List.pairwise_map] at this
  refine hrows.imp_of_mem fun {r r'} hr hr' hne y hy y' hy' hkey => ?_
  have hslot : ∀ {r : Address × Table ℕ MempoolEntry} {y : MempoolEntry}, r ∈ m.bySender.rows →
      r.2.lookup r.2.maxKey = some y → y.tx.sender = r.1 ∧ m.Live y := by
    intro r y hr hy
    have hp : m.pendingOf r.1 = r.2 := Nested.inner_of_lookup (Table.mem_rows.1 hr)
    obtain ⟨hs, -, hl⟩ := h.slots r.1 r.2.maxKey y (by rw [hp]; exact hy)
    exact ⟨hs, hl⟩
  obtain ⟨hs, hl⟩ := hslot hr hy
  obtain ⟨hs', hl'⟩ := hslot hr' hy'
  exact hne (by rw [← hs, ← hs', hl.eq_of_key hl' hkey])

/-- An item of a transfer after a push was in the heap, and counted there
unless the entry pushed is the one the transfer waits as. -/
theorem Pushed.others {pushed : Option MempoolEntry} (h : Pushed heap m' pushed) (hi : m'.Indexed)
    (hk : k ∈ othersIn m'.evictable m' tx) (ht : k.txid = tx.txid) :
    k ∈ heap ∧ ((∀ z, pushed = some z → z.tx.txid ≠ tx.txid) → k ∈ othersIn heap m' tx) := by
  cases pushed with
  | none =>
    rw [show m'.evictable = heap from h] at hk
    exact ⟨mem_of_mem_othersIn hk, fun _ => hk⟩
  | some y =>
    obtain ⟨hy, -, he | he⟩ := h <;> rw [he] at hk
    · have hy := hi.live_of_isLast hy
      cases hx : m'.byId.lookup tx.txid with
      | none =>
        rw [othersIn_of_none hx] at hk ⊢
        rcases (List.mem_orderedInsert _).1 hk with rfl | hk
        · rw [Live, show y.tx.txid = tx.txid from ht, hx] at hy
          cases hy
        · exact ⟨hk, fun _ => hk⟩
      | some e =>
        have hte := (hi.ids _ _ hx).1
        have hlive : m'.Live e := by rw [Live, hte, hx]
        rw [othersIn_of_live hlive hte] at hk ⊢
        have hk := ((List.perm_orderedInsert (· ≤ ·) y.key heap).erase e.key).mem_iff.1 hk
        by_cases hye : y = e
        · subst hye
          rw [List.erase_cons_head] at hk
          exact ⟨hk, fun hne => absurd hte (hne y rfl)⟩
        · have hne : y.key ≠ e.key := fun h => hye (hy.eq_of_key hlive h)
          rw [List.erase_cons_tail (by simpa using hne)] at hk
          rcases List.mem_cons.1 hk with rfl | hk
          · exact absurd (hy.unique hlive (ht.trans hte.symm)) hye
          · exact ⟨List.mem_of_mem_erase hk, fun _ => hk⟩
    · -- A heap built again has one item of each last entry.
      exfalso
      have hk' := mem_of_mem_othersIn hk
      rw [List.mem_insertionSort] at hk'
      obtain ⟨w, hw, rfl⟩ := List.mem_map.1 hk'
      have hlive := hi.live_of_isLast (hi.mem_lasts.1 hw)
      rw [othersIn_of_live hlive ht] at hk
      have hnd := (List.perm_insertionSort (· ≤ ·) _).nodup_iff.2 hi.nodup_keys_lasts
      exact (List.Nodup.mem_erase_iff hnd).1 hk |>.1 rfl

/-! ## Items popped -/

variable {rest : List EvictionKey}

theorem othersIn_subset (hsub : rest.Sublist heap) (hk : k ∈ othersIn rest m tx) :
    k ∈ othersIn heap m tx := by
  unfold othersIn at *
  split at hk
  · exact hsub.subset hk
  · exact (hsub.erase _).subset hk

/-- Without its first item the heap is still in order. -/
theorem HeapOk.tail (h : HeapOk H clock j m) (hheap : m.evictable = k :: rest) :
    HeapOk H clock j { m with evictable := rest } := by
  have hmem : ∀ k' ∈ rest, k' ∈ m.evictable := fun k' hk' => by
    rw [hheap]
    exact List.mem_cons_of_mem _ hk'
  refine ⟨h.indexed.congr ⟨rfl, rfl, rfl, rfl, rfl⟩, ?_, fun k' hk' => h.bound k' (hmem k' hk'),
    fun k' hk' => h.keys k' (hmem k' hk'), h.entries⟩
  have := h.sorted
  rw [hheap] at this
  exact (List.pairwise_cons.1 this).2

/-- **An item of no last entry** may be popped. -/
theorem Heaped.skip (h : Heaped H clock j m) (hheap : m.evictable = k :: rest)
    (hne : ∀ y, m.IsLast y → y.tx.txid ≠ k.txid) :
    Heaped H clock j { m with evictable := rest } := by
  refine ⟨h.toHeapOk.tail hheap, fun y hy => ?_⟩
  have hy : m.IsLast y := hy
  have hmem := h.lasts y hy
  rw [hheap] at hmem
  refine (List.mem_cons.1 hmem).resolve_left ?_
  rintro rfl
  exact hne y hy rfl

theorem Settled.skip (h : Settled m tx added) (hheap : m.evictable = k :: rest) :
    Settled { m with evictable := rest } tx added := by
  refine ⟨h.last, h.clear.imp_left fun hclear k' hk' => hclear k' ?_⟩
  rw [hheap]
  exact othersIn_subset (List.sublist_cons_self _ _) hk'

/-- The first item of a last entry is the one it has now, and the least
that any last entry has. -/
theorem Heaped.head_eq (h : Heaped H clock j m) (hheap : m.evictable = k :: rest)
    (he : m.IsLast e) (ht : e.tx.txid = k.txid) :
    k = e.key ∧ ∀ y, m.IsLast y → e.key ≤ y.key := by
  have hsorted := h.sorted
  rw [hheap] at hsorted
  have hle : ∀ y, m.IsLast y → k ≤ y.key := fun y hy => by
    have hy := h.lasts y hy
    rw [hheap] at hy
    rcases List.mem_cons.1 hy with hy | hy
    · exact le_of_eq hy.symm
    · exact (List.pairwise_cons.1 hsorted).1 _ hy
  have hk : k ∈ m.evictable := by
    rw [hheap]
    exact List.mem_cons_self
  have heq : k = e.key :=
    le_antisymm (hle e he) (h.bound k hk e (h.indexed.live_of_isLast he) ht)
  exact ⟨heq, fun y hy => heq ▸ hle y hy⟩

theorem IsLast.unique (he : m.IsLast e) (hy : m.IsLast y) (hs : e.tx.sender = y.tx.sender) :
    e = y := by
  unfold IsLast at he hy
  rw [hs, hy] at he
  exact (Option.some.inj he).symm

/-- **Evicting a last entry**, its item popped. -/
theorem Heaped.evict (h : Heaped H clock j m) (hinj : Set.InjOn Transfer.txid H)
    (hheap : m.evictable = k :: rest) (he : m.IsLast e) (ht : e.tx.txid = k.txid) :
    wp (remove e) (fun _ m' => SameTables (m.without e) m' ∧
      m'.evictable.length ≤ rest.length + 1 ∧ Heaped H clock j m' ∧
      ∀ tx ∈ H, ∀ added, Settled m tx added → Settled m' tx added) (fun _ _ => False)
      { m with evictable := rest } := by
  obtain ⟨hk, -⟩ := h.head_eq hheap he ht
  have hlive := h.indexed.live_of_isLast he
  have hl : ∀ z, m.IsLast z → z ≠ e → z.key ∈ rest := by
    intro z hz hne
    have hmem := h.lasts z hz
    rw [hheap] at hmem
    refine (List.mem_cons.1 hmem).resolve_left fun hzk => hne ?_
    exact (h.indexed.live_of_isLast hz).eq_of_key hlive (hzk.trans hk)
  refine ((h.toHeapOk.tail hheap).remove (e := e) hlive hl).mono ?_ fun _ _ h => h
  rintro _ m' ⟨hm, hheaped, pushed, hp, hpushed⟩
  have hpopped : SameTables (m.without e) (({ m with evictable := rest } : Mempool).without e) :=
    ⟨rfl, rfl, rfl, rfl, rfl⟩
  have hm := hpopped.trans hm
  refine ⟨hm, hp.length_le, hheaped, fun tx htx added hset => ⟨fun z hz hzt => ?_, ?_⟩⟩
  · obtain ⟨hne, hz⟩ := live_without.1 (hm.live_iff.1 hz)
    have hz := hset.last z hz hzt
    rw [hm.isLast_iff, isLast_without_of_ne]
    · exact hz
    · exact fun hs => hne (by rw [hz.unique he hs])
  · have hsorted := h.sorted
    rw [hheap] at hsorted
    rcases hset.clear with hclear | ⟨z, hz, hzs, hzn, hfee, hrate⟩
    · refine Or.inl fun k' hk' hkt => hclear k' ?_ hkt
      obtain ⟨hmem, hothers⟩ := Pushed.others hp hheaped.indexed hk' hkt
      rw [hheap]
      by_cases hte : e.tx.txid = tx.txid
      · -- The item popped was the one that did not count.
        rw [othersIn_of_live hlive hte, hk, List.erase_cons_head]
        exact hmem
      · have hne : ∀ z, pushed = some z → z.tx.txid ≠ tx.txid := by
          rintro z rfl hzt
          have hz := (live_without.1 (hm.live_iff.1 (hheaped.indexed.live_of_isLast hp.1))).2
          exact hpushed z rfl (hset.last z hz hzt)
        have hsame : m'.byId.lookup tx.txid = m.byId.lookup tx.txid := by
          rw [hm.byId, byId_without, if_neg (Ne.symm hte)]
        have hk' := hothers hne
        unfold othersIn at hk'
        rw [hsame] at hk'
        exact othersIn_subset (List.sublist_cons_self _ _) hk'
    · by_cases hze : z.tx.txid = e.tx.txid
      · -- Items after the one of the better transfer are not of a cheaper one.
        refine Or.inl fun k' hk' hkt => ?_
        obtain rfl := hz.unique hlive hze
        obtain ⟨hmem, -⟩ := Pushed.others hp hheaped.indexed hk' hkt
        have hle : k ≤ k' := (List.pairwise_cons.1 hsorted).1 _ hmem
        obtain ⟨tx', htx', hkt', hkr, -⟩ := h.keys k' (by
          rw [hheap]
          exact List.mem_cons_of_mem _ hmem)
        obtain rfl := hinj htx' htx (hkt'.symm.trans hkt)
        have hlow : k'.feeRate < k.feeRate := by
          rw [hkr, hk, h.indexed.key_eq hlive]
          exact hrate
        rcases EvictionKey.le_iff.1 hle with hlt | ⟨heq, -⟩
        · exact absurd hlow (not_lt.2 hlt.le)
        · exact absurd hlow (not_lt.2 heq.le)
      · exact Or.inr ⟨z, hm.live_iff.2 (live_without.2 ⟨hze, hz⟩), hzs, hzn, hfee, hrate⟩

end Mempool

end TalCash
