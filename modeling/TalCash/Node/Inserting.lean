import TalCash.Node.Trimming
/-!
# Putting transfers back

What a transfer meets when it is inserted, side by side in a mempool that
pops items and one that looks at every sender (`insert_lockstep`). The
transfers `update` puts back in turn may have older items in the heap.
They do no harm (`Awaiting`): such an item goes when its entry is
evicted, or a better transfer has the place of the one it belongs to.
-/

namespace TalCash

variable [Library]

namespace Mempool

open Exec

variable {m m' n : Mempool} {e y z : MempoolEntry} {k : EvictionKey} {config : MempoolConfig}
variable {H : Set Transfer} {clock : ℕ → ℚ} {j : ℕ} {tx x : Transfer} {added : ℚ}
variable {state : StateView}

/-! ## Replacing -/

omit [Library] in
/-- Bytes and a signature: no transfer is empty. -/
theorem size_pos (tx : Transfer) : 0 < tx.size := by
  rw [Transfer.size, Transfer.serialize, List.length_append, tx.signature.2]
  omega

omit [Library] in
/-- **A replacement pays more per byte.** -/
theorem rate_lt (hfee : z.tx.fee < tx.fee) (hsize : z.size = z.tx.size)
    (hrate : z.feeRate * REPLACEMENT_FACTOR ≤ rate tx) : rate z.tx < rate tx := by
  have hz : z.feeRate = rate z.tx := by rw [MempoolEntry.feeRate, hsize, rate]
  rw [hz, REPLACEMENT_FACTOR] at hrate
  have hpos : (0 : ℚ) < rate tx := by
    have hs : (0 : ℚ) < tx.size := Nat.cast_pos.2 (size_pos tx)
    have hf : (0 : ℚ) < tx.fee := Nat.cast_pos.2 (by omega)
    exact div_pos hf hs
  by_cases h0 : rate z.tx ≤ 0
  · exact lt_of_le_of_lt h0 hpos
  · linarith only [hrate, h0]

omit [Library] in
theorem invalid_bind {α β : Type} {code detail : String} {f : α → Except PyError β} :
    (invalid code detail >>= f) = invalid code detail := rfl

theorem checkPolicy_congr (hm : SameTables m n) :
    checkPolicy config state n tx = checkPolicy config state m tx := by
  unfold checkPolicy
  rw [hm.pendingOf]

/-- The transfer replaced is the one with the slot, and pays less. -/
theorem checkPolicy_ok {r : Option MempoolEntry} (h : checkPolicy config state m tx = .ok r) :
    (m.pendingOf tx.sender).lookup tx.nonce = r ∧
      ∀ z, r = some z → z.tx.fee < tx.fee ∧ z.feeRate * REPLACEMENT_FACTOR ≤ rate tx := by
  cases hp : (m.pendingOf tx.sender).lookup tx.nonce with
  | none =>
    simp only [checkPolicy, hp, invalid_bind, ite_invalid_eq_ok] at h
    obtain ⟨-, -, -, -, -, hr⟩ := h
    exact ⟨Except.ok.inj hr, fun z hz => by rw [← Except.ok.inj hr] at hz; cases hz⟩
  | some w =>
    simp only [checkPolicy, hp, invalid_bind, ite_invalid_eq_ok] at h
    obtain ⟨-, -, hcheap, -, hr⟩ := h
    refine ⟨Except.ok.inj hr, fun z hz => ?_⟩
    rw [← Except.ok.inj hr] at hz
    obtain rfl := Option.some.inj hz
    exact ⟨not_le.1 fun h => hcheap (Or.inl h), not_lt.1 fun h => hcheap (Or.inr h)⟩

/-- The policy checks raise `ValidationError` only. -/
theorem onlyInvalid_checkPolicy : OnlyInvalid (checkPolicy config state m tx) := by
  cases hp : (m.pendingOf tx.sender).lookup tx.nonce with
  | none =>
    simp only [checkPolicy, hp, invalid_bind]
    exact .ite (fun _ => .invalid ⟨_, rfl⟩) fun _ => .ite (fun _ => .invalid ⟨_, rfl⟩) fun _ =>
      .ite (fun _ => .invalid ⟨_, rfl⟩) fun _ => .ite (fun _ => .invalid ⟨_, rfl⟩) fun _ =>
        .ite (fun _ => .invalid ⟨_, rfl⟩) fun _ => .ok none
  | some w =>
    simp only [checkPolicy, hp, invalid_bind]
    exact .ite (fun _ => .invalid ⟨_, rfl⟩) fun _ => .ite (fun _ => .invalid ⟨_, rfl⟩) fun _ =>
      .ite (fun _ => .invalid ⟨_, rfl⟩) fun _ => .ite (fun _ => .invalid ⟨_, rfl⟩) fun _ =>
        .ok (some w)

/-! ## The slot is freed and taken -/

/-- The indexes once a transfer's slot is free. -/
def freeing (m : Mempool) : Option MempoolEntry → Mempool
  | none => m
  | some r => m.without r

/-- The indexes once a transfer has its slot. -/
def offered (m : Mempool) (tx : Transfer) (replaced : Option MempoolEntry) (added : ℚ) : Mempool :=
  (m.freeing replaced).adding ⟨tx, tx.size, added⟩

/-- What freeing a transfer's slot leaves. -/
structure Freed (m m' : Mempool) (tx : Transfer) (replaced : Option MempoolEntry) : Prop where
  tables : SameTables (m.freeing replaced) m'
  slot : (m'.pendingOf tx.sender).lookup tx.nonce = none
  live : ∀ z, m'.Live z ↔ m.Live z ∧ replaced ≠ some z
  items : ∀ k ∈ m'.evictable, k ∈ m.evictable ∨ ∃ z, m'.Live z ∧ k = z.key

theorem freeing_clockReads (m : Mempool) (r : Option MempoolEntry) :
    (m.freeing r).clockReads = m.clockReads := by
  cases r <;> rfl

theorem free_lockstep {E : PyError → Mempool → Mempool → Prop} {r : Option MempoolEntry}
    (h : Heaped H clock j m) (hm : SameTables m n)
    (hr : (m.pendingOf tx.sender).lookup tx.nonce = r) :
    Lockstep (r.forM remove) (r.forM remove) (fun _ m' n' => SameTables m' n' ∧
      Heaped H clock j m' ∧ Freed m m' tx r) E m n := by
  cases r with
  | none =>
    refine Lockstep.pure ⟨hm, h, .refl m, hr, fun z => ?_, fun k hk => Or.inl hk⟩
    exact ⟨fun hz => ⟨hz, fun h => by cases h⟩, fun hz => hz.1⟩
  | some r =>
    obtain ⟨hs, hn, hlive⟩ := h.indexed.slots _ _ _ hr
    have hlive' : n.Live r := hm.live_iff.2 hlive
    refine (Lockstep.of_wp (h.remove hlive fun z hz _ => h.lasts z hz)
      (remove_spec (h.indexed.congr hm) hlive')).mono ?_ fun _ _ _ h => h
    rintro _ m' n' ⟨⟨hm', hheaped, y, hp, -⟩, hn', -⟩
    refine ⟨hm'.symm.trans (hm.without.trans hn'), hheaped, hm', ?_, fun z => ?_, fun k hk => ?_⟩
    · rw [hm'.pendingOf, pendingOf_without, if_pos hs.symm, hn, Table.lookup_remove_self]
    · rw [hm'.live_iff, live_without]
      constructor
      · rintro ⟨hne, hz⟩
        refine ⟨hz, ?_⟩
        rintro ⟨⟩
        exact hne rfl
      · rintro ⟨hz, hne⟩
        exact ⟨fun ht => hne (by rw [hz.unique hlive ht]), hz⟩
    · refine (hp.mem hheaped.indexed hk).imp_right ?_
      rintro ⟨z, hz, hkz⟩
      exact ⟨z, hheaped.indexed.live_of_isLast hz, hkz⟩

/-- What putting an entry in leaves. -/
structure Placed (m m' : Mempool) (e : MempoolEntry) : Prop where
  tables : SameTables (m.adding e) m'
  live : ∀ z, m'.Live z ↔ z = e ∨ m.Live z
  items : ∀ tx, ∀ k ∈ othersIn m'.evictable m' tx, k.txid = tx.txid → k ∈ m.evictable

theorem place_lockstep {E : PyError → Mempool → Mempool → Prop} (h : Heaped H clock j m)
    (hm : SameTables m n) (hid : m.byId.lookup e.tx.txid = none)
    (hslot : (m.pendingOf e.tx.sender).lookup e.tx.nonce = none) (hsize : e.size = e.tx.size)
    (hmem : e.tx ∈ H) (htime : ∀ i, j ≤ i → e.added ≤ clock i)
    (hkeys : ∀ k ∈ m.evictable, e.tx.txid = k.txid → e.key ≤ k) :
    Lockstep (place e) (place e) (fun _ m' n' => SameTables m' n' ∧ Heaped H clock j m' ∧
      Placed m m' e) E m n := by
  refine (Lockstep.of_wp (h.place hid hslot hsize hmem htime hkeys)
    (place_spec (h.indexed.congr hm))).mono ?_ fun _ _ _ h => h
  rintro _ m' n' ⟨⟨hm', hheaped, y, hp, -⟩, hn', -⟩
  refine ⟨hm'.symm.trans (hm.adding.trans hn'), hheaped, hm', fun z => ?_, fun tx k hk hkt => ?_⟩
  · rw [hm'.live_iff, live_adding]
    refine or_congr_right ⟨fun hz => hz.2, fun hz => ⟨fun ht => ?_, hz⟩⟩
    rw [Live, ht, hid] at hz
    cases hz
  · exact (hp.others hheaped.indexed hk hkt).1

/-! ## Transfers in turn -/

/-- Transfers of some senders that are put back in turn: what waits of
these senders comes before them, and their older items do no harm. -/
structure Awaiting (H : Set Transfer) (clock : ℕ → ℚ) (j : ℕ) (senders : Set Address) (m : Mempool)
    (cs : List (Transfer × ℚ)) : Prop where
  sorted : cs.Pairwise candidateLe
  known : ∀ c ∈ cs, c.1 ∈ H ∧ c.1.sender ∈ senders ∧ ∀ i, j ≤ i → c.2 ≤ clock i
  settled : ∀ c ∈ cs, Clear m c.1 c.2 ∨ Barred m c.1
  behind : ∀ z, m.Live z → z.tx.sender ∈ senders → ∀ c ∈ cs,
    toLex (z.tx.sender, z.tx.nonce) ≤ toLex (c.1.sender, c.1.nonce)

variable {senders : Set Address} {cs : List (Transfer × ℚ)} {c : Transfer × ℚ}

/-- An entry with the greatest nonce of its sender is the last. -/
theorem Indexed.isLast_of_forall (h : m.Indexed) (he : m.Live e)
    (hmax : ∀ w, m.Live w → w.tx.sender = e.tx.sender → w.tx.nonce ≤ e.tx.nonce) : m.IsLast e := by
  obtain ⟨-, -, hslot⟩ := h.ids _ _ he
  obtain ⟨w, hw⟩ := Option.isSome_iff_exists.1 (Table.isSome_lookup_maxKey (by rw [hslot]; rfl))
  obtain ⟨hs, hn, hlive⟩ := h.slots _ _ _ hw
  have hle := hmax w hlive hs
  have hge : e.tx.nonce ≤ (m.pendingOf e.tx.sender).maxKey := Table.le_maxKey (by rw [hslot]; rfl)
  rw [h.isLast_iff he]
  omega

/-- A transfer that waits while its turn is to come is its sender's last. -/
theorem Awaiting.settle (ha : Awaiting H clock j senders m cs) (h : Heaped H clock j m)
    (hinj : Set.InjOn Transfer.txid H) (hc : c ∈ cs) : Settled m c.1 c.2 := by
  obtain ⟨hmem, hsender, -⟩ := ha.known c hc
  refine ⟨fun z hz hzt => ?_, ha.settled c hc⟩
  have hzc : z.tx = c.1 := hinj (h.entries z hz).1 hmem hzt
  refine h.indexed.isLast_of_forall hz fun w hw hws => ?_
  rw [hzc] at hws ⊢
  rcases (Prod.Lex.le_iff.1 (ha.behind w hw (hws ▸ hsender) c hc)) with hlt | ⟨-, hle⟩
  · exact absurd hws hlt.ne
  · exact hle

/-- **The next transfer takes its place**, and the others' older items
still do no harm. -/
theorem Awaiting.placed {m₁ m₂ : Mempool} {r : Option MempoolEntry}
    (ha : Awaiting H clock j senders m ((e.tx, added) :: cs)) (h : Heaped H clock j m)
    (hinj : Set.InjOn Transfer.txid H) (hid : m.byId.lookup e.tx.txid = none)
    (hr : (m.pendingOf e.tx.sender).lookup e.tx.nonce = r)
    (hbetter : ∀ z, r = some z → z.tx.fee < e.tx.fee ∧ rate z.tx < rate e.tx)
    (hfreed : Freed m m₁ e.tx r) (hplaced : Placed m₁ m₂ e) :
    Awaiting H clock j senders m₂ cs := by
  obtain ⟨hfirst, hsorted⟩ := List.pairwise_cons.1 ha.sorted
  obtain ⟨hmem, hsender, -⟩ := ha.known (e.tx, added) List.mem_cons_self
  have hlive : ∀ z, m₂.Live z → z = e ∨ m.Live z := fun z hz =>
    ((hplaced.live z).1 hz).imp_right fun hz => ((hfreed.live z).1 hz).1
  have hself : m₂.Live e := (hplaced.live e).2 (Or.inl rfl)
  refine ⟨hsorted, fun c hc => ha.known c (List.mem_cons_of_mem _ hc), fun c hc => ?_,
    fun z hz hs c hc => ?_⟩
  · obtain ⟨hcmem, -, -⟩ := ha.known c (List.mem_cons_of_mem _ hc)
    have hset := ha.settled c (List.mem_cons_of_mem _ hc)
    -- Where the transfer does not wait its items are from before.
    have hclear : (∀ w, m.Live w → w.tx.txid ≠ c.1.txid) → Clear m c.1 c.2 →
        Clear m₂ c.1 c.2 := by
      intro hnone hclear k hk hkt
      have hlook : m.byId.lookup c.1.txid = none := by
        cases hl : m.byId.lookup c.1.txid with
        | none => rfl
        | some w =>
          have hwt := (h.indexed.ids _ _ hl).1
          exact absurd hwt (hnone w (by rw [Live, hwt, hl]))
      refine hclear k ?_ hkt
      rw [othersIn_of_none hlook]
      refine (hfreed.items k (hplaced.items c.1 k hk hkt)).resolve_right ?_
      rintro ⟨w, hw, rfl⟩
      exact hnone w ((hfreed.live w).1 hw).1 hkt
    by_cases hx : c.1.txid = e.tx.txid
    · have hce : c.1 = e.tx := hinj hcmem hmem hx
      rcases hset with hset | ⟨z, hz, hzs, hzn, hfee, -⟩
      · refine Or.inl (hclear (fun w hw hwt => ?_) hset)
        rw [Live, hwt, hx, hid] at hw
        cases hw
      · -- The place was taken by a better transfer: it could not be inserted.
        exfalso
        obtain ⟨-, -, hslot⟩ := h.indexed.ids _ _ hz
        rw [hce] at hzs hzn hfee
        rw [hzs, hzn, hr] at hslot
        have := (hbetter z hslot).1
        omega
    · rcases hset with hset | ⟨z, hz, hzs, hzn, hfee, hrate⟩
      · by_cases hwait : ∃ w, m.Live w ∧ w.tx.txid = c.1.txid
        · -- It waits, in the place that is taken.
          obtain ⟨w, hw, hwt⟩ := hwait
          have hwc : w.tx = c.1 := hinj (h.entries w hw).1 hcmem hwt
          obtain ⟨-, hcs, -⟩ := ha.known c (List.mem_cons_of_mem _ hc)
          have hle := ha.behind w hw (by rw [hwc]; exact hcs) _ List.mem_cons_self
          have hge : candidateLe (e.tx, added) c := hfirst c hc
          have heq : toLex (w.tx.sender, w.tx.nonce) = toLex (e.tx.sender, e.tx.nonce) :=
            le_antisymm hle (by rw [hwc]; exact hge)
          obtain ⟨hws, hwn⟩ := Prod.mk.inj (toLex_inj.1 heq)
          obtain ⟨-, -, hslot⟩ := h.indexed.ids _ _ hw
          rw [hws, hwn, hr] at hslot
          obtain ⟨hfee, hrate⟩ := hbetter w hslot
          rw [hwc] at hws hwn hfee hrate
          exact Or.inr ⟨e, hself, hws.symm, hwn.symm, hfee, hrate⟩
        · exact Or.inl (hclear (fun w hw hwt => hwait ⟨w, hw, hwt⟩) hset)
      · by_cases hrz : r = some z
        · obtain ⟨hfee', hrate'⟩ := hbetter z hrz
          obtain ⟨hs, hn, -⟩ := h.indexed.slots _ _ _ (hr.trans hrz)
          exact Or.inr ⟨e, hself, hs.symm.trans hzs, hn.symm.trans hzn, hfee.trans hfee',
            hrate.trans hrate'⟩
        · exact Or.inr ⟨z, (hplaced.live z).2 (Or.inr ((hfreed.live z).2 ⟨hz, hrz⟩)), hzs, hzn,
            hfee, hrate⟩
  · rcases hlive z hz with rfl | hz
    · exact hfirst c hc
    · exact ha.behind z hz hs c (List.mem_cons_of_mem _ hc)

/-- **Making room** leaves the transfers to come no worse. -/
theorem Awaiting.trimmed {maxBytes : ℕ} (ha : Awaiting H clock j senders m cs)
    (h : Heaped H clock j m) (hinj : Set.InjOn Transfer.txid H) (hevicts : Evicts maxBytes m m')
    (hset : ∀ tx ∈ H, ∀ added, Settled m tx added → Settled m' tx added) :
    Awaiting H clock j senders m' cs :=
  ⟨ha.sorted, ha.known, fun c hc => (hset c.1 (ha.known c hc).1 c.2 (ha.settle h hinj hc)).clear,
    fun z hz => ha.behind z (hevicts.live hz)⟩

theorem Awaiting.tail (ha : Awaiting H clock j senders m (c :: cs)) :
    Awaiting H clock j senders m cs :=
  ⟨(List.pairwise_cons.1 ha.sorted).2, fun c hc => ha.known c (List.mem_cons_of_mem _ hc),
    fun c hc => ha.settled c (List.mem_cons_of_mem _ hc),
    fun z hz hs c hc => ha.behind z hz hs c (List.mem_cons_of_mem _ hc)⟩

/-! ## Inserting a transfer -/

/-- What trying to insert a transfer leaves in the two mempools, whether or
not it was taken. -/
structure Tried (H : Set Transfer) (clock : ℕ → ℚ) (j : ℕ) (m : Mempool) (tx : Transfer) (added : ℚ)
    (m' n' : Mempool) : Prop where
  same : SameTables m' n'
  heaped : Heaped H clock j m'
  clockReads : m'.clockReads = m.clockReads
  awaiting : ∀ senders cs, Awaiting H clock j senders m ((tx, added) :: cs) →
    Awaiting H clock j senders m' cs

/-- How inserting a transfer went: refused by the policy checks, or put in
its slot before room was made. -/
inductive Went (config : MempoolConfig) (state : StateView) (m : Mempool) (tx : Transfer)
    (added : ℚ) (m' : Mempool) : Prop
  | refused {err : PyError} (hpolicy : checkPolicy config state m tx = .error err) (hm : m' = m)
  | offered {r : Option MempoolEntry} (hpolicy : checkPolicy config state m tx = .ok r)
    (hindexed : (m.offered tx r added).Indexed)
    (hevicts : Evicts config.maxBytes (m.offered tx r added) m')

theorem Went.fits (h : Went config state m tx added m') (hfits : m.bytes ≤ config.maxBytes) :
    m'.bytes ≤ config.maxBytes := by
  cases h with
  | refused _ hm => rwa [hm]
  | offered _ _ hevicts => exact hevicts.fits

/-- **Inserting a transfer** does the same in both mempools, and raises
`ValidationError` only. -/
theorem insert_lockstep (hinj : Set.InjOn Transfer.txid H) (h : Heaped H clock j m)
    (hm : SameTables m n) (hmem : tx ∈ H) (htime : ∀ i, j ≤ i → added ≤ clock i)
    (hid : m.byId.lookup tx.txid = none) (hclear : Clear m tx added ∨ Barred m tx) :
    Lockstep (insert config (trimToSize config) state tx added)
      (insert config (trimScanning config) state tx added)
      (fun _ m' n' => Tried H clock j m tx added m' n' ∧ Went config state m tx added m' ∧
        (m'.byId.lookup tx.txid).isSome)
      (fun err m' n' => err.IsInvalid ∧ Tried H clock j m tx added m' n' ∧
        Went config state m tx added m' ∧ m'.byId.lookup tx.txid = none) m n := by
  refine Lockstep.get_bind ?_
  rw [checkPolicy_congr hm]
  refine Lockstep.bind (Lockstep.lift (fun r hr => ?_) fun err herr => ?_)
  · obtain ⟨hslot, hbetter⟩ := checkPolicy_ok hr
    have hbetter : ∀ z, r = some z → z.tx.fee < tx.fee ∧ rate z.tx < rate tx := by
      intro z hz
      obtain ⟨hfee, hrate⟩ := hbetter z hz
      rw [hz] at hslot
      obtain ⟨-, -, hlive⟩ := h.indexed.slots _ _ _ hslot
      exact ⟨hfee, rate_lt hfee (h.indexed.ids _ _ hlive).2.1 hrate⟩
    -- A barred transfer was not let through.
    have hclear : Clear m tx added := hclear.resolve_right (by
      rintro ⟨z, hz, hzs, hzn, hfee, -⟩
      obtain ⟨-, -, hz⟩ := h.indexed.ids _ _ hz
      rw [hzs, hzn, hslot] at hz
      have := (hbetter z hz).1
      omega)
    refine Lockstep.bind ((free_lockstep h hm hslot).mono ?_ fun _ _ _ h => h)
    rintro _ m₁ n₁ ⟨hm₁, h₁, hfreed⟩
    have hnone : ∀ w, m₁.Live w → w.tx.txid ≠ tx.txid := by
      intro w hw hwt
      have hw := ((hfreed.live w).1 hw).1
      rw [Live, hwt, hid] at hw
      cases hw
    have hid₁ : m₁.byId.lookup tx.txid = none := by
      cases hl : m₁.byId.lookup tx.txid with
      | none => rfl
      | some w =>
        have hwt := (h₁.indexed.ids _ _ hl).1
        exact absurd hwt (hnone w (by rw [Live, hwt, hl]))
    have hkeys : ∀ k ∈ m₁.evictable, tx.txid = k.txid → keyOf tx added ≤ k := by
      intro k hk hkt
      refine hclear k ?_ hkt.symm
      rw [othersIn_of_none hid]
      refine (hfreed.items k hk).resolve_right ?_
      rintro ⟨w, hw, rfl⟩
      exact hnone w hw hkt.symm
    refine Lockstep.bind ((place_lockstep (e := ⟨tx, tx.size, added⟩) h₁ hm₁ hid₁ hfreed.slot rfl
      hmem htime hkeys).mono ?_ fun _ _ _ h => h)
    rintro _ m₂ n₂ ⟨hm₂, h₂, hplaced⟩
    refine Lockstep.bind ((trim_lockstep hinj h₂ hm₂).mono ?_ fun _ _ _ h => h)
    rintro _ m' n' ⟨hm', hevicts, h', hset⟩
    have htables : SameTables (m.offered tx r added) m₂ :=
      (hfreed.tables.adding (e := ⟨tx, tx.size, added⟩)).trans hplaced.tables
    have hwent : Went config state m tx added m' :=
      .offered hr (h₂.indexed.congr htables.symm) (hevicts.congr htables.symm)
    have htried : Tried H clock j m tx added m' n' :=
      ⟨hm', h', hevicts.clockReads.trans (htables.clockReads.trans (freeing_clockReads m r)),
        fun senders cs ha => (ha.placed h hinj hid hslot hbetter hfreed hplaced).trimmed h₂ hinj
          hevicts hset⟩
    refine Lockstep.get_bind ?_
    rw [hm'.byId]
    refine Lockstep.ite (fun hgone => Lockstep.bind (Lockstep.throw ⟨⟨_, rfl⟩, htried, hwent, ?_⟩))
      fun hstays => Lockstep.pure ⟨htried, hwent, ?_⟩
    · exact Option.isNone_iff_eq_none.1 hgone
    · exact Option.isSome_iff_ne_none.2 fun hnone => hstays (Option.isNone_iff_eq_none.2 hnone)
  · exact ⟨onlyInvalid_checkPolicy err herr, ⟨hm, h, rfl, fun senders cs ha => ha.tail⟩,
      .refused herr rfl, hid⟩

/-- **Putting transfers back in turn** does the same in both mempools, and
raises nothing. -/
theorem putBack_lockstep (hinj : Set.InjOn Transfer.txid H) {confirmed : List Digest} :
    ∀ {cs : List (Transfer × ℚ)} {m n : Mempool}, Heaped H clock j m → SameTables m n →
      Awaiting H clock j senders m cs →
      Lockstep (putBack config (trimToSize config) state confirmed cs)
        (putBack config (trimScanning config) state confirmed cs)
        (fun _ m' n' => SameTables m' n' ∧ Heaped H clock j m' ∧ m'.clockReads = m.clockReads ∧
          (m.bytes ≤ config.maxBytes → m'.bytes ≤ config.maxBytes)) (fun _ _ _ => False) m n
  | [], m, n, h, hm, _ => Lockstep.pure ⟨hm, h, rfl, fun hfits => hfits⟩
  | (tx, added) :: cs, m, n, h, hm, ha => by
    refine Lockstep.get_bind ?_
    rw [hm.byId]
    refine Lockstep.ite (fun _ => putBack_lockstep hinj h hm ha.tail) fun hnew => ?_
    obtain ⟨hmem, -, htime⟩ := ha.known (tx, added) List.mem_cons_self
    have hid : m.byId.lookup tx.txid = none := by
      cases hl : m.byId.lookup tx.txid with
      | none => rfl
      | some w => exact absurd (Or.inr (by rw [hl]; rfl)) hnew
    have hnext : ∀ m' n', Tried H clock j m tx added m' n' → Went config state m tx added m' →
        Lockstep (putBack config (trimToSize config) state confirmed cs)
          (putBack config (trimScanning config) state confirmed cs)
          (fun _ m' n' => SameTables m' n' ∧ Heaped H clock j m' ∧ m'.clockReads = m.clockReads ∧
            (m.bytes ≤ config.maxBytes → m'.bytes ≤ config.maxBytes))
          (fun _ _ _ => False) m' n' := by
      intro m' n' ht hw
      refine (putBack_lockstep hinj ht.heaped ht.same (ht.awaiting _ _ ha)).mono ?_
        fun _ _ _ h => h
      rintro _ m'' n'' ⟨hm'', h'', hclock, hfits⟩
      exact ⟨hm'', h'', hclock.trans ht.clockReads, fun h => hfits (hw.fits h)⟩
    refine Lockstep.bind (Lockstep.attempt ((insert_lockstep hinj h hm hmem htime hid
      (ha.settled (tx, added) List.mem_cons_self)).mono (fun _ m' n' ht => hnext m' n' ht.1 ht.2.1) ?_))
    rintro _ m' n' ⟨⟨v, rfl⟩, ht, hw, -⟩
    exact hnext m' n' ht hw

end Mempool

end TalCash
