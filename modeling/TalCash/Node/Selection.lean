import TalCash.Common.Greedy
import TalCash.Node.PoolRuns
/-!
# Selecting transfers for a block

Each sender's waiting transfers are a queue, in the order of their nonces.
The heap of `select` holds the first transfer of every queue that is not
given up, so that what it chooses is a greedy choice from the queues
(`Selecting`, `select_greedy`).
-/

namespace TalCash

section

variable [Library]

namespace Mempool

variable {m : Mempool} {e f : MempoolEntry} {a : Address} {budget : ℕ}

/-! ## The queues -/

/-- The waiting nonces of a sender follow on. -/
def NoGaps (m : Mempool) : Prop :=
  ∀ a i j k, i ≤ j → j ≤ k → ((m.pendingOf a).lookup i).isSome →
    ((m.pendingOf a).lookup k).isSome → ((m.pendingOf a).lookup j).isSome

omit [Library] in
theorem noGaps_empty : NoGaps {} := by
  intro a i j k _ _ h
  cases h

/-- **The next nonce leaves no gap.** -/
theorem NoGaps.adding (h : m.NoGaps)
    (hnext : ∀ k, ((m.pendingOf e.tx.sender).lookup k).isSome → k < e.tx.nonce ∧
      (k + 1 = e.tx.nonce ∨ ((m.pendingOf e.tx.sender).lookup (k + 1)).isSome)) :
    (m.adding e).NoGaps := by
  intro a i j k hij hjk hi hk
  rw [pendingOf_adding] at hi hk ⊢
  by_cases ha : a = e.tx.sender
  · rw [if_pos ha, Table.lookup_put] at hi hk ⊢
    by_cases hj : j = e.tx.nonce
    · rw [if_pos hj]
      rfl
    · rw [if_neg hj]
      by_cases hie : i = e.tx.nonce
      · by_cases hke : k = e.tx.nonce
        · omega
        · rw [if_neg hke] at hk
          have := (hnext k hk).1
          omega
      · rw [if_neg hie] at hi
        -- From an old nonce on, up to the new one, all are there.
        have hall : ∀ n ≥ i, n < e.tx.nonce → ((m.pendingOf e.tx.sender).lookup n).isSome := by
          intro n hn
          induction n, hn using Nat.le_induction with
          | base => exact fun _ => hi
          | succ n _ ih =>
            intro hlt
            rcases (hnext n (ih (by omega))).2 with heq | hsome
            · omega
            · exact hsome
        refine hall j hij ?_
        by_cases hke : k = e.tx.nonce
        · omega
        · rw [if_neg hke] at hk
          have := (hnext k hk).1
          omega
  · rw [if_neg ha] at hi hk ⊢
    exact h a i j k hij hjk hi hk

/-- The last transfer leaves no gap. -/
theorem NoGaps.without (h : m.NoGaps) (hi : m.Indexed) (he : m.IsLast e) :
    (m.without e).NoGaps := by
  have hlast := (hi.isLast_iff (hi.live_of_isLast he)).1 he
  intro a i j k hij hjk hsi hsk
  rw [pendingOf_without] at hsi hsk ⊢
  by_cases ha : a = e.tx.sender
  · rw [if_pos ha, Table.lookup_remove] at hsi hsk ⊢
    by_cases hk : k = e.tx.nonce
    · rw [if_pos hk] at hsk
      cases hsk
    · rw [if_neg hk] at hsk
      have hle := Table.le_maxKey hsk
      by_cases hie : i = e.tx.nonce
      · rw [if_pos hie] at hsi
        cases hsi
      · rw [if_neg hie] at hsi
        rw [if_neg (by omega)]
        exact h _ i j k hij hjk hsi hsk
  · rw [if_neg ha] at hsi hsk ⊢
    exact h a i j k hij hjk hsi hsk

/-- **Making room leaves no gaps.** -/
theorem NoGaps.evicts {maxBytes : ℕ} {m' : Mempool} (h : m.NoGaps) (hi : m.Indexed)
    (he : Evicts maxBytes m m') : m'.NoGaps := by
  induction he with
  | done _ hm =>
    intro a
    rw [hm.pendingOf]
    exact h a
  | evict _ he _ _ ih => exact ih (h.without hi he) (hi.without (hi.live_of_isLast he))

/-- The waiting transfers of a sender are in the order of their nonces. -/
theorem Indexed.pendingFor_sorted (h : m.Indexed) (a : Address) :
    (m.pendingFor a).Pairwise fun e f => e.tx.nonce < f.tx.nonce := by
  unfold pendingFor
  rw [List.pairwise_filterMap]
  have hnodup := (List.perm_insertionSort (· ≤ ·) (m.pendingOf a).keys).nodup_iff.2
    (AList.keys_nodup _)
  have hsorted := List.pairwise_insertionSort (· ≤ ·) (m.pendingOf a).keys
  refine (hsorted.and hnodup).imp fun hlt e he f hf => ?_
  obtain ⟨-, rfl, -⟩ := h.slots _ _ _ he
  obtain ⟨-, rfl, -⟩ := h.slots _ _ _ hf
  exact lt_of_le_of_ne hlt.1 hlt.2

/-- **The transfer with the next nonce is the next in the queue.** -/
theorem Indexed.lookup_next (h : m.Indexed) (hgaps : m.NoGaps) {before after : List MempoolEntry}
    (hq : m.pendingFor a = before ++ e :: after) :
    (m.pendingOf a).lookup (e.tx.nonce + 1) = after.head? := by
  have hsorted := h.pendingFor_sorted a
  rw [hq] at hsorted
  obtain ⟨-, hsorted, hbefore⟩ := List.pairwise_append.1 hsorted
  obtain ⟨hafter, hsorted⟩ := List.pairwise_cons.1 hsorted
  have hslot : ∀ {f}, f ∈ m.pendingFor a → (m.pendingOf a).lookup f.tx.nonce = some f := by
    intro f hf
    obtain ⟨hlive, rfl⟩ := h.mem_pendingFor.1 hf
    exact (h.ids _ _ hlive).2.2
  -- A transfer with the next nonce comes after.
  have hnext : ∀ f, (m.pendingOf a).lookup (e.tx.nonce + 1) = some f →
      f ∈ after ∧ f.tx.nonce = e.tx.nonce + 1 := by
    intro f hf
    obtain ⟨hs, hn, hlive⟩ := h.slots _ _ _ hf
    have hmem := h.mem_pendingFor.2 ⟨hlive, hs⟩
    rw [hq] at hmem
    refine ⟨?_, hn⟩
    rcases List.mem_append.1 hmem with hmem | hmem
    · have := hbefore f hmem e List.mem_cons_self
      omega
    · rcases List.mem_cons.1 hmem with rfl | hmem
      · omega
      · exact hmem
  cases hafter' : after with
  | nil =>
    cases hl : (m.pendingOf a).lookup (e.tx.nonce + 1) with
    | none => rfl
    | some f =>
      have := (hnext f hl).1
      rw [hafter'] at this
      cases this
  | cons f rest =>
    subst hafter'
    have he := hslot (f := e) (by rw [hq]; simp)
    have hf := hslot (f := f) (by rw [hq]; simp)
    have hlt := hafter f List.mem_cons_self
    obtain ⟨g, hg⟩ := Option.isSome_iff_exists.1 (hgaps a e.tx.nonce (e.tx.nonce + 1) f.tx.nonce
      (Nat.le_succ _) hlt (by rw [he]; rfl) (by rw [hf]; rfl))
    obtain ⟨hmem, hn⟩ := hnext g hg
    rw [hg, List.head?_cons]
    rcases List.mem_cons.1 hmem with rfl | hmem
    · rfl
    · have := (List.pairwise_cons.1 hsorted).1 g hmem
      omega

/-! ## The heap -/

/-- The greedy choices from the senders' queues. -/
abbrev Chosen (m : Mempool) (budget : ℕ) (chosen : List MempoolEntry) (gone : List Address) : Prop :=
  Greedy.Run m.pendingFor (fun e => e.tx.sender) MempoolEntry.size MempoolEntry.feeRate budget chosen
    gone

/-- What is left of a sender's queue. -/
abbrev leftOf (m : Mempool) (chosen : List MempoolEntry) (a : Address) : List MempoolEntry :=
  Greedy.left m.pendingFor (fun e => e.tx.sender) chosen a

/-- The item of an entry in the heap of `select`. -/
def selectKey (e : MempoolEntry) : SelectKey := ⟨-e.feeRate, e.tx.sender, e.tx.nonce⟩

/-- **What the heap holds**: of each queue that is not given up the first
transfer left. -/
structure Selecting (m : Mempool) (budget : ℕ) (heap : List SelectKey) (chosen : List MempoolEntry)
    (gone : List Address) : Prop where
  run : Chosen m budget chosen gone
  sorted : heap.Pairwise (· ≤ ·)
  senders : (heap.map SelectKey.sender).Nodup
  items : ∀ k ∈ heap, k.sender ∉ gone ∧
    ∃ e, (leftOf m chosen k.sender).head? = some e ∧ k = selectKey e
  first : ∀ a ∉ gone, ∀ e, (leftOf m chosen a).head? = some e → selectKey e ∈ heap

variable {heap : List SelectKey} {k : SelectKey} {chosen : List MempoolEntry} {gone : List Address}

theorem mem_leftOf (h : m.Indexed) (he : (leftOf m chosen a).head? = some e) :
    m.Live e ∧ e.tx.sender = a := h.mem_pendingFor.1 (Greedy.mem_of_head? he)

/-- The first item is of the best transfer. -/
theorem Selecting.best (hs : Selecting m budget (k :: heap) chosen gone) :
    ∃ e, k = selectKey e ∧
      Greedy.Best m.pendingFor (fun e => e.tx.sender) MempoolEntry.feeRate chosen gone e := by
  obtain ⟨hgone, e, he, rfl⟩ := hs.items k List.mem_cons_self
  refine ⟨e, rfl, hgone, he, fun a ha f hf => ?_⟩
  have hle : selectKey e ≤ selectKey f := by
    rcases List.mem_cons.1 (hs.first a ha f hf) with hmem | hmem
    · exact le_of_eq hmem.symm
    · exact (List.pairwise_cons.1 hs.sorted).1 _ hmem
  exact neg_le_neg_iff.1 (SelectKey.negRate_le hle)

/-- The other items are of other senders. -/
theorem Selecting.sender_ne (hs : Selecting m budget (k :: heap) chosen gone) {l : SelectKey}
    (hl : l ∈ heap) : l.sender ≠ k.sender := fun heq =>
  (List.nodup_cons.1 hs.senders).1 (heq ▸ List.mem_map_of_mem hl)

/-- The best transfer does not fit: its sender is given up. -/
theorem Selecting.giveUp (hs : Selecting m budget (selectKey e :: heap) chosen gone)
    (h : m.Indexed)
    (hbest : Greedy.Best m.pendingFor (fun e => e.tx.sender) MempoolEntry.feeRate chosen gone e)
    (hfits : budget < Greedy.used MempoolEntry.size chosen + e.size) :
    Selecting m budget heap chosen (e.tx.sender :: gone) := by
  refine ⟨.giveUp hs.run hbest hfits, (List.pairwise_cons.1 hs.sorted).2,
    (List.nodup_cons.1 hs.senders).2, fun l hl => ⟨?_, ?_⟩, fun a ha f hf => ?_⟩
  · obtain ⟨hgone, -⟩ := hs.items l (List.mem_cons_of_mem _ hl)
    exact List.not_mem_cons_of_ne_of_not_mem (hs.sender_ne hl) hgone
  · exact (hs.items l (List.mem_cons_of_mem _ hl)).2
  · obtain ⟨hne, ha⟩ := not_or.1 (mt List.mem_cons.2 ha)
    refine (List.mem_cons.1 (hs.first a ha f hf)).resolve_left fun heq => hne ?_
    rw [← (mem_leftOf h hf).2]
    exact congrArg SelectKey.sender heq

/-- The best transfer is chosen: the next of its sender comes in. -/
theorem Selecting.take (hs : Selecting m budget (selectKey e :: heap) chosen gone) (h : m.Indexed)
    (hbest : Greedy.Best m.pendingFor (fun e => e.tx.sender) MempoolEntry.feeRate chosen gone e)
    (hfits : Greedy.used MempoolEntry.size chosen + e.size ≤ budget) {heap' : List SelectKey}
    (hsorted : heap'.Pairwise (· ≤ ·))
    (hperm : heap'.Perm
      ((leftOf m (chosen ++ [e]) e.tx.sender).head?.toList.map selectKey ++ heap)) :
    Selecting m budget heap' (chosen ++ [e]) gone := by
  have hnew : ∀ l ∈ (leftOf m (chosen ++ [e]) e.tx.sender).head?.toList.map selectKey,
      ∃ f, (leftOf m (chosen ++ [e]) e.tx.sender).head? = some f ∧ l = selectKey f ∧
        f.tx.sender = e.tx.sender := by
    intro l hl
    obtain ⟨f, hf, rfl⟩ := List.mem_map.1 hl
    have hf := Option.mem_toList.1 hf
    exact ⟨f, hf, rfl, (mem_leftOf h hf).2⟩
  have hother : ∀ {a}, a ≠ e.tx.sender → leftOf m (chosen ++ [e]) a = leftOf m chosen a :=
    fun ha => Greedy.left_append_of_ne (Ne.symm ha)
  refine ⟨.take hs.run hbest hfits, hsorted, ?_, fun l hl => ?_, fun a ha f hf => ?_⟩
  · rw [(hperm.map SelectKey.sender).nodup_iff, List.map_append, List.nodup_append]
    refine ⟨?_, (List.nodup_cons.1 hs.senders).2, ?_⟩
    · cases (leftOf m (chosen ++ [e]) e.tx.sender).head? with
      | none => exact List.nodup_nil
      | some f => exact List.nodup_singleton _
    · rintro _ hl _ hl' rfl
      obtain ⟨l, hl, heq⟩ := List.mem_map.1 hl
      obtain ⟨f, -, rfl, hf⟩ := hnew l hl
      obtain ⟨l', hl', heq'⟩ := List.mem_map.1 hl'
      exact hs.sender_ne hl' (heq'.trans (heq.symm.trans hf))
  · rcases List.mem_append.1 (hperm.mem_iff.1 hl) with hl | hl
    · obtain ⟨f, hf, rfl, hsender⟩ := hnew l hl
      have hkey : (selectKey f).sender = e.tx.sender := hsender
      rw [hkey]
      exact ⟨hbest.1, f, hf, rfl⟩
    · obtain ⟨hgone, f, hf, hl'⟩ := hs.items l (List.mem_cons_of_mem _ hl)
      rw [hother (hs.sender_ne hl)]
      exact ⟨hgone, f, hf, hl'⟩
  · refine hperm.mem_iff.2 (List.mem_append.2 ?_)
    by_cases hae : a = e.tx.sender
    · subst hae
      exact Or.inl (List.mem_map_of_mem (Option.mem_toList.2 hf))
    · rw [hother hae] at hf
      refine Or.inr ((List.mem_cons.1 (hs.first a ha f hf)).resolve_left fun heq => hae ?_)
      rw [← (mem_leftOf h hf).2]
      exact congrArg SelectKey.sender heq

/-- How often the loop can still go round. -/
def roundsLeft (m : Mempool) (heap : List SelectKey) (chosen : List MempoolEntry) : ℕ :=
  (heap.map fun k => (leftOf m chosen k.sender).length).sum

/-- **The loop of `select` chooses greedily** and ends with every queue
given up or at its end. -/
theorem selectLoop_spec (h : m.Indexed) (hgaps : m.NoGaps) {steps : ℕ}
    (hs : Selecting m budget heap chosen gone) (hsteps : roundsLeft m heap chosen ≤ steps) :
    ∃ chosen' gone', selectLoop m budget steps heap (chosen.map MempoolEntry.tx)
        (Greedy.used MempoolEntry.size chosen) = .ok (chosen'.map MempoolEntry.tx) ∧
      Chosen m budget chosen' gone' ∧
      ∀ a e, (leftOf m chosen' a).head? = some e → a ∈ gone' := by
  induction steps generalizing heap chosen gone with
  | zero =>
    cases heap with
    | nil =>
      refine ⟨chosen, gone, rfl, hs.run, fun a e he => ?_⟩
      by_contra ha
      cases hs.first a ha e he
    | cons k heap =>
      obtain ⟨-, e, he, -⟩ := hs.items k List.mem_cons_self
      have hpos := List.length_pos_of_mem (List.mem_of_mem_head? he)
      rw [roundsLeft, List.map_cons, List.sum_cons] at hsteps
      omega
  | succ steps ih =>
    cases heap with
    | nil =>
      refine ⟨chosen, gone, rfl, hs.run, fun a e he => ?_⟩
      by_contra ha
      cases hs.first a ha e he
    | cons k heap =>
      obtain ⟨e, rfl, hbest⟩ := hs.best
      obtain ⟨rest, hrest⟩ := List.head?_eq_some_iff.1 hbest.2.1
      have hlive := (mem_leftOf h hbest.2.1).1
      obtain ⟨-, -, hslot⟩ := h.ids _ _ hlive
      have hget : getItem e.tx.sender m.bySender = .ok (m.pendingOf e.tx.sender) := by
        rw [getItem, Nested.lookup_inner (by
          rw [show Nested.find _ _ _ = some e from hslot]
          rfl)]
        rfl
      have hget' : getItem e.tx.nonce (m.pendingOf e.tx.sender) = .ok e := by
        rw [getItem, hslot]
      have hrounds : roundsLeft m (selectKey e :: heap) chosen =
          (rest.length + 1) + roundsLeft m heap chosen := by
        rw [roundsLeft, List.map_cons, List.sum_cons]
        exact congrArg (· + roundsLeft m heap chosen) (congrArg List.length hrest)
      have hused : Greedy.used MempoolEntry.size (chosen ++ [e]) =
          Greedy.used MempoolEntry.size chosen + e.size := Greedy.used_append
      have htx : (chosen ++ [e]).map MempoolEntry.tx = chosen.map MempoolEntry.tx ++ [e.tx] :=
        List.map_append
      rw [selectLoop]
      simp only [selectKey, hget, hget', bind, Except.bind]
      by_cases hfits : budget < Greedy.used MempoolEntry.size chosen + e.size
      · rw [if_pos hfits]
        exact ih (hs.giveUp h hbest hfits) (by omega)
      · rw [if_neg hfits, ← hused, ← htx]
        have hfits := not_lt.1 hfits
        have hself : leftOf m (chosen ++ [e]) e.tx.sender = rest := by
          have hleft : leftOf m (chosen ++ [e]) e.tx.sender = (leftOf m chosen e.tx.sender).tail :=
            Greedy.left_append_self
          rw [hleft]
          exact congrArg List.tail hrest
        have hnext : (m.pendingOf e.tx.sender).lookup (e.tx.nonce + 1) = rest.head? := by
          have hq := hs.run.filter_append_left e.tx.sender
          rw [show Greedy.left _ _ chosen e.tx.sender = e :: rest from hrest] at hq
          exact h.lookup_next hgaps hq.symm
        have hgo : ∀ heap' : List SelectKey, heap'.Pairwise (· ≤ ·) →
            heap'.Perm (rest.head?.toList.map selectKey ++ heap) →
            ∃ chosen' gone', selectLoop m budget steps heap' ((chosen ++ [e]).map MempoolEntry.tx)
                (Greedy.used MempoolEntry.size (chosen ++ [e])) =
                  .ok (chosen'.map MempoolEntry.tx) ∧
              Chosen m budget chosen' gone' ∧
              ∀ a e, (leftOf m chosen' a).head? = some e → a ∈ gone' := by
          intro heap' hsorted hperm
          refine ih (hs.take h hbest hfits hsorted (by rw [hself]; exact hperm)) ?_
          have hnew : roundsLeft m (rest.head?.toList.map selectKey) (chosen ++ [e]) ≤
              rest.length := by
            cases rest with
            | nil => exact le_refl _
            | cons f rest =>
              have hf := mem_leftOf h (show (leftOf m (chosen ++ [e]) e.tx.sender).head? = some f by
                rw [hself]
                rfl)
              show (leftOf m (chosen ++ [e]) f.tx.sender).length + 0 ≤ _
              rw [hf.2, hself]
              exact le_refl _
          have hold : roundsLeft m heap (chosen ++ [e]) = roundsLeft m heap chosen := by
            refine congrArg List.sum (List.map_congr_left fun l hl => ?_)
            exact congrArg List.length (Greedy.left_append_of_ne (hs.sender_ne hl).symm)
          have hsum : roundsLeft m heap' (chosen ++ [e]) =
              roundsLeft m (rest.head?.toList.map selectKey) (chosen ++ [e]) +
                roundsLeft m heap (chosen ++ [e]) := by
            rw [roundsLeft, (hperm.map _).sum_eq, List.map_append, List.sum_append]
            rfl
          omega
        rw [hnext]
        have hsorted := (List.pairwise_cons.1 hs.sorted).2
        cases hrest' : rest.head? with
        | none =>
          rw [hrest'] at hgo
          exact hgo heap hsorted (List.Perm.refl _)
        | some f =>
          rw [hrest'] at hgo
          have hf := mem_leftOf h (show (leftOf m (chosen ++ [e]) e.tx.sender).head? = some f by
            rw [hself, hrest'])
          have hkey : (⟨-f.feeRate, e.tx.sender, f.tx.nonce⟩ : SelectKey) = selectKey f := by
            rw [selectKey, hf.2]
          show ∃ chosen' gone', selectLoop m budget steps
            (heap.orderedInsert (· ≤ ·) ⟨-f.feeRate, e.tx.sender, f.tx.nonce⟩) _ _ = _ ∧ _
          rw [hkey]
          exact hgo _ (hsorted.orderedInsert _ _) (List.perm_orderedInsert _ _ _)

/-! ## The whole selection -/

/-- A queue starts with the transfer with the least nonce. -/
theorem Indexed.firstOf_row (h : m.Indexed) {p : Table ℕ MempoolEntry}
    (hp : m.bySender.lookup a = some p) :
    ∃ e, firstOf p = .ok e ∧ (m.pendingFor a).head? = some e := by
  have hpending : m.pendingOf a = p := Nested.inner_of_lookup hp
  have hkeys : p.keys ≠ [] := fun hempty => h.tight a p hp (List.map_eq_nil_iff.1 hempty)
  obtain ⟨n, ns, hsorted⟩ := List.exists_cons_of_ne_nil
    (show p.keys.insertionSort (· ≤ ·) ≠ [] from fun hempty => hkeys
      (List.length_eq_zero_iff.1 (by rw [← List.length_insertionSort (· ≤ ·), hempty]; rfl)))
  have hmem : ∀ k, k ∈ p.keys ↔ k ∈ n :: ns := fun k => by
    rw [← hsorted, List.mem_insertionSort]
  have hmin : p.keys.min? = some n := by
    rw [List.min?_eq_some_iff]
    refine ⟨(hmem n).2 List.mem_cons_self, fun k hk => ?_⟩
    have hle := List.pairwise_insertionSort (· ≤ ·) p.keys
    rw [hsorted] at hle
    rcases List.mem_cons.1 ((hmem k).1 hk) with rfl | hk
    · exact le_refl _
    · exact (List.pairwise_cons.1 hle).1 k hk
  obtain ⟨e, he⟩ := Option.isSome_iff_exists.1
    (AList.lookup_isSome.2 ((hmem n).2 List.mem_cons_self))
  have hget : getItem n p = .ok e := by rw [getItem, he]
  refine ⟨e, by rw [firstOf, hmin]; exact hget, ?_⟩
  unfold pendingFor
  rw [hpending]
  show ((p.keys.insertionSort (· ≤ ·)).filterMap fun nonce => p.lookup nonce).head? = some e
  rw [hsorted, List.filterMap_cons, he]
  rfl

omit [Library] in
/-- Where each step returns, so does going through a list. -/
theorem mapM_eq_filterMap {α β : Type} {g : α → Except PyError β} {v : α → Option β} :
    ∀ {l : List α}, (∀ r ∈ l, ∃ b, g r = .ok b ∧ v r = some b) → l.mapM g = .ok (l.filterMap v)
  | [], _ => rfl
  | r :: l, h => by
    obtain ⟨b, hg, hv⟩ := h r List.mem_cons_self
    rw [List.mapM_cons, hg, List.filterMap_cons, hv,
      mapM_eq_filterMap fun r' hr' => h r' (List.mem_cons_of_mem _ hr')]
    rfl

omit [Library] in
theorem sum_filterMap_le {α β : Type} {v : α → Option β} {p : β → ℕ} {q : α → ℕ} :
    ∀ {l : List α}, (∀ r ∈ l, ∀ b, v r = some b → p b ≤ q r) →
      ((l.filterMap v).map p).sum ≤ (l.map q).sum
  | [], _ => le_refl _
  | r :: l, h => by
    have ih := sum_filterMap_le fun r' hr' => h r' (List.mem_cons_of_mem r hr')
    rw [List.map_cons, List.sum_cons, List.filterMap_cons]
    cases hv : v r with
    | none => exact ih.trans (Nat.le_add_left _ _)
    | some b =>
      show ((b :: l.filterMap v).map p).sum ≤ _
      rw [List.map_cons, List.sum_cons]
      exact Nat.add_le_add (h r List.mem_cons_self b hv) ih

/-- The items the heap starts with. -/
def firsts (m : Mempool) : List SelectKey :=
  m.bySender.rows.filterMap fun r => (m.pendingFor r.1).head?.map selectKey

theorem Indexed.mem_firsts (h : m.Indexed) :
    k ∈ m.firsts ↔ ∃ a e, (m.pendingFor a).head? = some e ∧ k = selectKey e := by
  unfold firsts
  rw [List.mem_filterMap]
  constructor
  · rintro ⟨r, -, hk⟩
    obtain ⟨e, he, rfl⟩ := Option.map_eq_some_iff.1 hk
    exact ⟨r.1, e, he, rfl⟩
  · rintro ⟨a, e, he, rfl⟩
    obtain ⟨hlive, rfl⟩ := h.mem_pendingFor.1 (List.mem_of_mem_head? he)
    have hslot := (h.ids _ _ hlive).2.2
    have hrow := Nested.lookup_inner (t := m.bySender) (by
      rw [show Nested.find _ _ _ = some e from hslot]
      rfl)
    exact ⟨_, Table.mem_rows.2 hrow, by rw [he]; rfl⟩

/-- The heap at the start. -/
theorem Indexed.selecting_start (h : m.Indexed) :
    Selecting m budget (m.firsts.insertionSort (· ≤ ·)) [] [] := by
  have hsender : ∀ {a e}, (m.pendingFor a).head? = some e → e.tx.sender = a := fun he =>
    (h.mem_pendingFor.1 (List.mem_of_mem_head? he)).2
  refine ⟨.start, List.pairwise_insertionSort _ _, ?_, fun l hl => ⟨List.not_mem_nil, ?_⟩,
    fun a _ e he => ?_⟩
  · rw [((List.perm_insertionSort (· ≤ ·) m.firsts).map SelectKey.sender).nodup_iff, firsts,
      List.nodup_iff_pairwise_ne, List.pairwise_map, List.pairwise_filterMap]
    have hrows := Table.rows_nodup_keys (t := m.bySender)
    rw [List.nodup_iff_pairwise_ne, List.pairwise_map] at hrows
    refine hrows.imp fun {r r'} hne l hl l' hl' heq => hne ?_
    obtain ⟨e, he, rfl⟩ := Option.map_eq_some_iff.1 hl
    obtain ⟨e', he', rfl⟩ := Option.map_eq_some_iff.1 hl'
    rw [← hsender he, ← hsender he']
    exact heq
  · obtain ⟨a, e, he, rfl⟩ := h.mem_firsts.1 ((List.mem_insertionSort _).1 hl)
    refine ⟨e, ?_, rfl⟩
    rw [show (selectKey e).sender = a from hsender he]
    exact he
  · exact (List.mem_insertionSort _).2 (h.mem_firsts.2 ⟨a, e, he, rfl⟩)

/-- **`select` chooses greedily** from the senders' queues: it returns
distinct waiting transfers that fit in the budget, of each sender the first
ones in the order of the nonces; each was the best when it was taken; and
in the end no sender's next one fits. -/
theorem select_greedy (h : m.Indexed) (hgaps : m.NoGaps) (budget : ℕ) :
    ∃ chosen : List MempoolEntry, m.select budget = .ok (chosen.map MempoolEntry.tx) ∧
      (chosen.map MempoolEntry.tx).Nodup ∧ (∀ e ∈ chosen, m.Live e) ∧
      ((chosen.map MempoolEntry.tx).map Transfer.size).sum ≤ budget ∧
      (∀ a, chosen.filter (fun e => e.tx.sender = a) <+: m.pendingFor a) ∧
      (∀ before e after, chosen = before ++ e :: after → ∃ gone, Chosen m budget before gone ∧
        Greedy.Best m.pendingFor (fun e => e.tx.sender) MempoolEntry.feeRate before gone e) ∧
      ∀ a e, (leftOf m chosen a).head? = some e →
        budget < ((chosen.map MempoolEntry.tx).map Transfer.size).sum + e.tx.size := by
  have hfirsts : (m.bySender.rows.mapM fun r => do
      let first ← firstOf r.2
      pure (⟨-first.feeRate, r.1, first.tx.nonce⟩ : SelectKey)) = .ok m.firsts := by
    refine mapM_eq_filterMap fun r hr => ?_
    obtain ⟨e, he, hhead⟩ := h.firstOf_row (Table.mem_rows.1 hr)
    obtain ⟨-, hs⟩ := h.mem_pendingFor.1 (List.mem_of_mem_head? hhead)
    refine ⟨selectKey e, ?_, by rw [hhead]; rfl⟩
    rw [he, selectKey, hs]
    rfl
  have hrounds : roundsLeft m (m.firsts.insertionSort (· ≤ ·)) [] ≤
      (m.bySender.rows.map fun r => r.2.entries.length).sum := by
    rw [roundsLeft, ((List.perm_insertionSort (· ≤ ·) m.firsts).map _).sum_eq]
    refine sum_filterMap_le fun r hr k hk => ?_
    obtain ⟨e, he, rfl⟩ := Option.map_eq_some_iff.1 hk
    obtain ⟨-, hs⟩ := h.mem_pendingFor.1 (List.mem_of_mem_head? he)
    have hp : m.pendingOf r.1 = r.2 := Nested.inner_of_lookup (Table.mem_rows.1 hr)
    show (m.pendingFor e.tx.sender).length ≤ _
    rw [hs, ← hp]
    refine (List.length_filterMap_le _ _).trans ?_
    rw [List.length_insertionSort, Table.length_keys]
  have hstart : Selecting m budget (m.firsts.insertionSort (· ≤ ·)) [] [] := h.selecting_start
  obtain ⟨chosen, gone, hloop, hrun, hend⟩ := selectLoop_spec h hgaps hstart hrounds
  have hlive : ∀ e ∈ chosen, m.Live e := fun e he => (h.mem_pendingFor.1 (hrun.mem_queue he)).1
  have hsize : (chosen.map MempoolEntry.tx).map Transfer.size = chosen.map MempoolEntry.size := by
    rw [List.map_map]
    exact List.map_congr_left fun e he => (h.ids _ _ (hlive e he)).2.1.symm
  refine ⟨chosen, ?_, ?_, hlive, ?_, hrun.isPrefix, fun before e after hsplit => hrun.best hsplit,
    fun a e he => ?_⟩
  · rw [select, hfirsts]
    exact hloop
  · refine (hrun.nodup h.nodup_pendingFor).map_on fun e he f hf hef => ?_
    exact (hlive e he).unique (hlive f hf) (congrArg Transfer.txid hef)
  · rw [hsize]
    exact hrun.used_le
  · obtain ⟨f, hf, hlt⟩ := hrun.not_fits (hend a e he)
    obtain rfl := Option.some.inj (hf.symm.trans he)
    rw [hsize, ← (h.ids _ _ (mem_leftOf h he).1).2.1]
    exact hlt

end Mempool

end

namespace Mempool

section

attribute [local instance] Sample.primitives

/-- An entry of a small payment. -/
def sampleEntry (sender : UInt8) (nonce fee : ℕ) : MempoolEntry :=
  ⟨Sample.payment sender nonce fee, (Sample.payment sender nonce fee).size, 0⟩

/-- Two payments of one sender, of which one fits. -/
theorem select_greedy_sample :
    let m := (({} : Mempool).adding (sampleEntry 1 0 200)).adding (sampleEntry 1 1 900)
    ∃ chosen : List MempoolEntry, m.select 200 = .ok (chosen.map MempoolEntry.tx) ∧
      (chosen.map MempoolEntry.tx).Nodup := by
  intro m
  have halong : Alongside Sample.mempoolConfig ∅ (fun _ => 0) {} {} := alongside_empty
  have hfirst := halong.heaped.indexed.adding (e := sampleEntry 1 0 200) (by decide +kernel)
    (by decide +kernel) rfl
  have hindexed : m.Indexed := hfirst.adding (e := sampleEntry 1 1 900) (by decide +kernel)
    (by decide +kernel) rfl
  have hgaps₁ : (({} : Mempool).adding (sampleEntry 1 0 200)).NoGaps :=
    noGaps_empty.adding fun k hk => by cases hk
  have hgaps : m.NoGaps := hgaps₁.adding fun k hk => by
    have hk0 : k = 0 := by
      by_contra hne
      have hnone : ((({} : Mempool).adding (sampleEntry 1 0 200)).pendingOf
          (sampleEntry 1 1 900).tx.sender).lookup k = none := by
        have hne : k ≠ (sampleEntry 1 0 200).tx.nonce := hne
        rw [pendingOf_adding, if_pos (by decide +kernel), Table.lookup_put_ne hne]
        rfl
      rw [hnone] at hk
      cases hk
    subst hk0
    exact ⟨by decide +kernel, Or.inl (by decide +kernel)⟩
  obtain ⟨chosen, hchosen, hnodup, -⟩ := select_greedy hindexed hgaps 200
  exact ⟨chosen, hchosen, hnodup⟩

end

end Mempool

end TalCash
