import TalCash.Node.Eviction
/-!
# Making room

While the mempool holds too many bytes the last entry with the least item
leaves (`Evicts`), whatever finds it: popping items (`trimLoop_spec`) or
looking at every sender (`scanLoop_spec`). So the two leave the same
indexes (`trim_lockstep`), and the heap never runs out.
-/

namespace TalCash

variable [Library]

namespace Mempool

open Exec

variable {m m' n : Mempool} {e y : MempoolEntry} {config : MempoolConfig} {maxBytes : ℕ}

/-! ## What leaves -/

/-- What making room does to the indexes: while there are too many bytes,
the last entry with the least item leaves. -/
inductive Evicts (maxBytes : ℕ) : Mempool → Mempool → Prop
  | done {m m' : Mempool} (hfit : m.bytes ≤ maxBytes) (hm : SameTables m m') : Evicts maxBytes m m'
  | evict {m m' : Mempool} {e : MempoolEntry} (hfull : maxBytes < m.bytes) (he : m.IsLast e)
    (hleast : ∀ y, m.IsLast y → e.key ≤ y.key) (hrest : Evicts maxBytes (m.without e) m') :
    Evicts maxBytes m m'

theorem SameTables.without (h : SameTables m m') : SameTables (m.without e) (m'.without e) := by
  unfold Mempool.without
  exact ⟨congrArg (Table.remove e.tx.txid) h.byId,
    congrArg (Nested.erase e.tx.sender e.tx.nonce) h.bySender, by rw [h.byReceiver],
    congrArg (· - e.size) h.bytes, h.clockReads⟩

theorem SameTables.adding (h : SameTables m m') : SameTables (m.adding e) (m'.adding e) := by
  unfold Mempool.adding
  exact ⟨congrArg (Table.put e.tx.txid e) h.byId,
    congrArg (Nested.insert e.tx.sender e.tx.nonce e) h.bySender, by rw [h.byReceiver],
    congrArg (· + e.size) h.bytes, h.clockReads⟩

/-- The heap has no say in it. -/
theorem Evicts.congr (h : Evicts maxBytes m m') (hn : SameTables m n) : Evicts maxBytes n m' := by
  induction h generalizing n with
  | done hfit hm => exact .done (by rwa [hn.bytes]) (hn.symm.trans hm)
  | evict hfull he hleast _ ih =>
    refine .evict (by rwa [hn.bytes]) (hn.isLast_iff.2 he) (fun y hy => ?_) (ih hn.without)
    exact hleast y (hn.isLast_iff.1 hy)

/-- **One way to make room.** -/
theorem Evicts.unique (h : Evicts maxBytes m m') (hi : m.Indexed) (h' : Evicts maxBytes m n) :
    SameTables m' n := by
  induction h with
  | done hfit hm =>
    cases h' with
    | done _ hn => exact hm.symm.trans hn
    | evict hfull => omega
  | evict hfull he hleast _ ih =>
    cases h' with
    | done hfit => omega
    | evict _ he' hleast' hrest' =>
      have hlive := hi.live_of_isLast he
      have hlive' := hi.live_of_isLast he'
      obtain rfl := hlive.eq_of_key hlive' (le_antisymm (hleast _ he') (hleast' _ he))
      exact ih (hi.without hlive) hrest'

/-- What still waits waited before. -/
theorem Evicts.live (h : Evicts maxBytes m m') (hy : m'.Live y) : m.Live y := by
  induction h with
  | done _ hm => exact hm.live_iff.1 hy
  | evict _ _ _ _ ih => exact (live_without.1 (ih hy)).2

theorem Evicts.clockReads (h : Evicts maxBytes m m') : m'.clockReads = m.clockReads := by
  induction h with
  | done _ hm => exact hm.clockReads
  | evict _ _ _ _ ih => exact ih

/-- Once room is made there are not too many bytes. -/
theorem Evicts.fits (h : Evicts maxBytes m m') : m'.bytes ≤ maxBytes := by
  induction h with
  | done hfit hm => rwa [hm.bytes]
  | evict _ _ _ _ ih => exact ih

/-- **A mempool over its limit has a last entry.** -/
theorem Indexed.exists_isLast (h : m.Indexed) (hfull : maxBytes < m.bytes) : ∃ e, m.IsLast e := by
  have hne : m.byId.entries ≠ [] := fun hempty => by
    rw [h.bytes, Table.total_of_entries_nil hempty] at hfull
    omega
  obtain ⟨⟨t, e⟩, hmem⟩ := List.exists_mem_of_ne_nil m.byId.rows
    fun hrows => hne (List.map_eq_nil_iff.1 hrows)
  obtain ⟨-, -, hslot⟩ := h.ids t e (Table.mem_rows.1 hmem)
  have hsome := Table.isSome_lookup_maxKey (by rw [hslot]; rfl)
  obtain ⟨z, hz⟩ := Option.isSome_iff_exists.1 hsome
  refine ⟨z, ?_⟩
  obtain ⟨hs, -, -⟩ := h.slots _ _ _ hz
  rw [IsLast, hs]
  exact hz

/-! ## Popping items -/

variable {H : Set Transfer} {clock : ℕ → ℚ} {j : ℕ}

/-- **Making room by popping items.** It never raises: while there are too
many bytes some item left is a last entry's. -/
theorem trimLoop_spec (hinj : Set.InjOn Transfer.txid H) : ∀ {steps : ℕ} {m : Mempool},
    Heaped H clock j m → m.evictable.length + m.byId.entries.length ≤ steps →
    wp (trimLoop config steps) (fun _ m' => Evicts config.maxBytes m m' ∧ Heaped H clock j m' ∧
      ∀ tx ∈ H, ∀ added, Settled m tx added → Settled m' tx added) (fun _ _ => False) m := by
  intro steps
  induction steps with
  | zero =>
    intro m h hsteps
    simp only [trimLoop, wp_bind, wp_get]
    rw [wp_ite]
    refine ⟨fun hfull => ?_, fun hfit => ?_⟩
    · obtain ⟨e, he⟩ := h.indexed.exists_isLast hfull
      have := List.length_pos_of_mem (h.lasts e he)
      omega
    · exact wp_pure.2 ⟨.done (not_lt.1 hfit) (.refl m), h, fun _ _ _ hset => hset⟩
  | succ steps ih =>
    intro m h hsteps
    simp only [trimLoop, wp_bind, wp_get]
    rw [wp_ite]
    refine ⟨fun hfull => ?_, fun hfit => ?_⟩
    · obtain ⟨y, hy⟩ := h.indexed.exists_isLast hfull
      cases hheap : m.evictable with
      | nil =>
        have := h.lasts y hy
        rw [hheap] at this
        cases this
      | cons k rest =>
        rw [hheap, List.length_cons] at hsteps
        simp only [wp_bind, wp_set]
        -- An item that is no last entry's is let go.
        have hskip : (∀ y, m.IsLast y → y.tx.txid ≠ k.txid) →
            wp (trimLoop config steps) (fun _ m' => Evicts config.maxBytes m m' ∧
              Heaped H clock j m' ∧ ∀ tx ∈ H, ∀ added, Settled m tx added → Settled m' tx added)
              (fun _ _ => False) { m with evictable := rest } := by
          intro hne
          have hless : rest.length + m.byId.entries.length ≤ steps := by omega
          refine (ih (h.skip hheap hne) hless).mono ?_ fun _ _ h => h
          rintro _ m' ⟨hevicts, hheaped, hset⟩
          exact ⟨hevicts.congr ⟨rfl, rfl, rfl, rfl, rfl⟩, hheaped,
            fun tx htx added hs => hset tx htx added (hs.skip hheap)⟩
        cases hlook : m.byId.lookup k.txid with
        | none =>
          refine hskip fun z hz hzk => ?_
          have hz := h.indexed.live_of_isLast hz
          rw [Live, hzk, hlook] at hz
          cases hz
        | some e =>
          obtain ⟨hek, -, hslot⟩ := h.indexed.ids _ _ hlook
          have he : m.Live e := by rw [Live, hek, hlook]
          have hget : getItem e.tx.sender m.bySender = .ok (m.pendingOf e.tx.sender) := by
            rw [getItem, Nested.lookup_inner (by
              rw [show Nested.find _ _ _ = some e from hslot]
              rfl)]
            rfl
          simp only [wp_bind, wp_lift, hget, Except.ok.injEq, forall_eq', reduceCtorEq,
            false_implies, implies_true, and_true]
          rw [wp_ite]
          refine ⟨fun hnot => hskip fun z hz hzk => ?_, fun hlast => ?_⟩
          · obtain rfl := (h.indexed.live_of_isLast hz).unique he (hzk.trans hek.symm)
            exact hnot ((h.indexed.isLast_iff he).1 hz)
          · have hlast := (h.indexed.isLast_iff he).2 (not_not.1 hlast)
            obtain ⟨-, hleast⟩ := h.head_eq hheap hlast hek
            rw [wp_bind]
            refine (h.evict hinj hheap hlast hek).mono ?_ fun _ _ h => h
            rintro _ m₁ ⟨hm₁, hlen, hheaped, hset⟩
            have hid : m₁.byId.entries.length + 1 = m.byId.entries.length := by
              rw [hm₁.byId]
              exact Table.length_remove he
            refine (ih hheaped (by omega)).mono ?_ fun _ _ h => h
            rintro _ m' ⟨hevicts, hheaped', hset'⟩
            exact ⟨.evict hfull hlast hleast (hevicts.congr hm₁.symm), hheaped',
              fun tx htx added hs => hset' tx htx added (hset tx htx added hs)⟩
    · exact wp_pure.2 ⟨.done (not_lt.1 hfit) (.refl m), h, fun _ _ _ hset => hset⟩

/-! ## Looking at every sender -/

/-- `min` finds the least of the entries, if there are any. -/
theorem cheapest_spec : ∀ {l : List MempoolEntry}, l ≠ [] →
    ∃ e, cheapest l = some e ∧ e ∈ l ∧ ∀ y ∈ l, e.key ≤ y.key
  | [e], _ => ⟨e, rfl, List.mem_singleton_self e, fun y hy => by rw [List.mem_singleton.1 hy]⟩
  | e :: e' :: l, _ => by
    obtain ⟨w, hw, hmem, hle⟩ := cheapest_spec (l := e' :: l) (List.cons_ne_nil _ _)
    rw [cheapest, hw]
    show ∃ z, (if w.key < e.key then some w else some e) = some z ∧ _
    by_cases hlt : w.key < e.key
    · rw [if_pos hlt]
      refine ⟨w, rfl, List.mem_cons_of_mem _ hmem, fun y hy => ?_⟩
      rcases List.mem_cons.1 hy with rfl | hy
      · exact hlt.le
      · exact hle y hy
    · rw [if_neg hlt]
      refine ⟨e, rfl, List.mem_cons_self, fun y hy => ?_⟩
      rcases List.mem_cons.1 hy with rfl | hy
      · exact le_refl _
      · exact (not_lt.1 hlt).trans (hle y hy)

/-- **Making room by looking at every sender.** -/
theorem scanLoop_spec : ∀ {steps : ℕ} {m : Mempool}, m.Indexed →
    m.byId.entries.length ≤ steps →
    wp (scanLoop config steps) (fun _ m' => Evicts config.maxBytes m m') (fun _ _ => False) m := by
  intro steps
  induction steps with
  | zero =>
    intro m h hsteps
    simp only [scanLoop, wp_bind, wp_get]
    rw [wp_ite]
    refine ⟨fun hfull => ?_, fun hfit => wp_pure.2 (.done (not_lt.1 hfit) (.refl m))⟩
    rw [h.bytes, Table.total_of_entries_nil (List.length_eq_zero_iff.1 (by omega))] at hfull
    omega
  | succ steps ih =>
    intro m h hsteps
    simp only [scanLoop, wp_bind, wp_get]
    rw [wp_ite]
    refine ⟨fun hfull => ?_, fun hfit => wp_pure.2 (.done (not_lt.1 hfit) (.refl m))⟩
    obtain ⟨y, hy⟩ := h.exists_isLast hfull
    obtain ⟨e, hcheapest, hmem, hle⟩ := cheapest_spec (List.ne_nil_of_mem (h.mem_lasts.2 hy))
    have he := h.mem_lasts.1 hmem
    have hlive := h.live_of_isLast he
    simp only [wp_bind, wp_lift, mapM_lastOf h.tight, Except.ok.injEq, forall_eq', reduceCtorEq,
      false_implies, implies_true, and_true, hcheapest]
    refine (remove_spec h hlive).mono ?_ fun _ _ h => h
    rintro _ m₁ ⟨hm₁, -⟩
    have hid : m₁.byId.entries.length + 1 = m.byId.entries.length := by
      rw [hm₁.byId]
      exact Table.length_remove hlive
    refine (ih ((h.without hlive).congr hm₁) (by omega)).mono ?_ fun _ _ h => h
    intro _ m' hevicts
    exact .evict hfull he (fun y hy => hle y (h.mem_lasts.2 hy)) (hevicts.congr hm₁.symm)

/-- **The two ways to make room leave the same indexes.** -/
theorem trim_lockstep {E : PyError → Mempool → Mempool → Prop} (hinj : Set.InjOn Transfer.txid H)
    (h : Heaped H clock j m) (hm : SameTables m n) :
    Lockstep (trimToSize config) (trimScanning config) (fun _ m' n' => SameTables m' n' ∧
      Evicts config.maxBytes m m' ∧ Heaped H clock j m' ∧
      ∀ tx ∈ H, ∀ added, Settled m tx added → Settled m' tx added) E m n := by
  refine Lockstep.get_bind (Lockstep.mono (Lockstep.of_wp (trimLoop_spec hinj h le_rfl)
    (scanLoop_spec (h.indexed.congr hm) le_rfl)) ?_ fun _ _ _ h => h)
  rintro _ m' n' ⟨⟨hevicts, hheaped, hset⟩, hevicts'⟩
  exact ⟨hevicts.unique h.indexed (hevicts'.congr hm.symm), hevicts, hheaped, hset⟩

end Mempool

end TalCash
