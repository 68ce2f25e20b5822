import TalCash.Ledger.Spares
import TalCash.Node.Refusals
import TalCash.Node.Selection
/-!
# The queues of the senders

What waits of a sender is a queue that can be sent on top of its account:
the nonces follow on from the confirmed one and the confirmed balance
covers them all (`Queued`). Inserting a transfer, making room, expiring
and keeping up with the chain keep every queue so (`Spendable`).
-/

namespace TalCash

/-! ## A queue -/

/-- What waits of a sender can be sent on top of an account. -/
structure Queued (config : MempoolConfig) (account : Account) (queue : List MempoolEntry) :
    Prop where
  nonce : ∀ i e, queue[i]? = some e → e.tx.nonce = account.nonce + i
  covered : (queue.map fun e => e.tx.totalSpent).sum ≤ account.balance
  count : queue.length ≤ config.maxPerSender
  fees : ∀ e ∈ queue, config.minFeePerByte * e.tx.size ≤ e.tx.fee

namespace Queued

variable {config : MempoolConfig} {account account' : Account} {e z : MempoolEntry}
variable {queue before after : List MempoolEntry}

theorem nil : Queued config account [] :=
  ⟨fun _ _ h => (by cases h), Nat.zero_le _, Nat.zero_le _, fun _ h => (by cases h)⟩

/-- An account that gained coins. -/
theorem mono (h : Queued config account queue) (hnonce : account'.nonce = account.nonce)
    (hle : account.balance ≤ account'.balance) : Queued config account' queue :=
  ⟨fun i e he => by rw [hnonce]; exact h.nonce i e he, h.covered.trans hle, h.count, h.fees⟩

/-- The first transfers of a queue. -/
theorem left (h : Queued config account (before ++ after)) : Queued config account before := by
  have hsum := h.covered
  have hcount := h.count
  rw [List.map_append, List.sum_append] at hsum
  rw [List.length_append] at hcount
  refine ⟨fun i e he => h.nonce i e ?_, by omega, by omega,
    fun e he => h.fees e (List.mem_append_left _ he)⟩
  rw [List.getElem?_append_left (List.getElem?_eq_some_iff.1 he).1]
  exact he

/-- A transfer with the next nonce. -/
theorem push (h : Queued config account queue) (hnonce : e.tx.nonce = account.nonce + queue.length)
    (hspent : e.tx.totalSpent + (queue.map fun e => e.tx.totalSpent).sum ≤ account.balance)
    (hcount : queue.length < config.maxPerSender)
    (hfee : config.minFeePerByte * e.tx.size ≤ e.tx.fee) :
    Queued config account (queue ++ [e]) := by
  refine ⟨fun i f hf => ?_, ?_, ?_, fun f hf => ?_⟩
  · by_cases hi : i < queue.length
    · rw [List.getElem?_append_left hi] at hf
      exact h.nonce i f hf
    · rw [List.getElem?_append_right (not_lt.1 hi), List.getElem?_singleton] at hf
      split at hf
      · rw [← Option.some.inj hf, hnonce]
        omega
      · cases hf
  · rw [List.map_append, List.sum_append, List.map_singleton, List.sum_singleton]
    omega
  · rw [List.length_append, List.length_singleton]
    omega
  · rcases List.mem_append.1 hf with hf | hf
    · exact h.fees f hf
    · rw [List.mem_singleton.1 hf]
      exact hfee

/-- A transfer that takes another's place. -/
theorem replace (h : Queued config account (before ++ z :: after))
    (hnonce : e.tx.nonce = z.tx.nonce)
    (hspent : e.tx.totalSpent + ((before ++ after).map fun e => e.tx.totalSpent).sum ≤
      account.balance) (hfee : config.minFeePerByte * e.tx.size ≤ e.tx.fee) :
    Queued config account (before ++ e :: after) := by
  refine ⟨fun i f hf => ?_, ?_, ?_, fun f hf => ?_⟩
  · rcases Nat.lt_trichotomy i before.length with hi | hi | hi
    · rw [List.getElem?_append_left hi] at hf
      exact h.nonce i f (by rw [List.getElem?_append_left hi, hf])
    · subst hi
      rw [List.getElem?_append_right le_rfl, Nat.sub_self, List.getElem?_cons_zero] at hf
      rw [← Option.some.inj hf, hnonce]
      refine h.nonce before.length z ?_
      rw [List.getElem?_append_right le_rfl, Nat.sub_self, List.getElem?_cons_zero]
    · obtain ⟨k, rfl⟩ : ∃ k, i = before.length + (k + 1) := ⟨i - before.length - 1, by omega⟩
      rw [List.getElem?_append_right (by omega), Nat.add_sub_cancel_left,
        List.getElem?_cons_succ] at hf
      refine h.nonce _ f ?_
      rw [List.getElem?_append_right (by omega), Nat.add_sub_cancel_left,
        List.getElem?_cons_succ, hf]
  · simp only [List.map_append, List.sum_append, List.map_cons, List.sum_cons] at hspent ⊢
    omega
  · have hcount := h.count
    simp only [List.length_append, List.length_cons] at hcount ⊢
    omega
  · rcases List.mem_append.1 hf with hf | hf
    · exact h.fees f (List.mem_append_left _ hf)
    rcases List.mem_cons.1 hf with rfl | hf
    · exact hfee
    · exact h.fees f (List.mem_append_right _ (List.mem_cons_of_mem _ hf))

end Queued

namespace Mempool

open Exec

variable [Library]

variable {m m' : Mempool} {e f y z : MempoolEntry} {a : Address} {config : MempoolConfig}
variable {tx x : Transfer} {added : ℚ} {state state' : StateView} {r : Option MempoolEntry}

/-! ## The queue of a sender -/

/-- What waits of a sender, in the order of the nonces, is its queue. -/
theorem Indexed.pendingFor_eq (h : m.Indexed) {queue : List MempoolEntry}
    (hsorted : queue.Pairwise fun e f => e.tx.nonce < f.tx.nonce)
    (hmem : ∀ e, e ∈ queue ↔ m.Live e ∧ e.tx.sender = a) : m.pendingFor a = queue := by
  have hperm : (m.pendingFor a).Perm queue := by
    refine (List.perm_ext_iff_of_nodup (h.nodup_pendingFor a) ?_).2 fun e =>
      h.mem_pendingFor.trans (hmem e).symm
    exact hsorted.imp fun hlt he => absurd hlt (by rw [he]; exact lt_irrefl _)
  exact hperm.eq_of_pairwise (fun e f _ _ hef hfe => absurd hef (lt_asymm hfe))
    (h.pendingFor_sorted a) hsorted

omit [Library] in
/-- The queue holds what the index by sender does. -/
theorem rows_perm_pendingFor (m : Mempool) (a : Address) :
    ((m.pendingOf a).rows.map Prod.snd).Perm (m.pendingFor a) := by
  have hrows : (m.pendingOf a).rows.map Prod.snd =
      (m.pendingOf a).keys.filterMap fun nonce => (m.pendingOf a).lookup nonce := by
    rw [← Table.rows_map_fst, List.filterMap_map, ← List.filterMap_eq_map]
    refine List.filterMap_congr fun row hrow => ?_
    exact (Table.mem_rows.1 hrow).symm
  rw [hrows]
  exact ((List.perm_insertionSort _ _).symm).filterMap _

omit [Library] in
theorem length_pendingFor (m : Mempool) (a : Address) :
    (m.pendingFor a).length = (m.pendingOf a).entries.length := by
  rw [← (rows_perm_pendingFor m a).length_eq, List.length_map, Table.rows, List.length_map]

/-- Another account is not concerned. -/
theorem Indexed.pendingFor_congr (h : m.Indexed) (h' : m'.Indexed)
    (hlive : ∀ e, e.tx.sender = a → (m'.Live e ↔ m.Live e)) : m'.pendingFor a = m.pendingFor a :=
  h'.pendingFor_eq (h.pendingFor_sorted a) fun e => h.mem_pendingFor.trans
    (and_congr_left fun hs => (hlive e hs).symm)

/-! ## The policy checks -/

/-- What the policy checks of a transfer demand, where `r` has its slot. -/
structure Policy (config : MempoolConfig) (account : Account) (queue : List MempoolEntry)
    (tx : Transfer) (r : Option MempoolEntry) : Prop where
  fee : config.minFeePerByte * tx.size ≤ tx.fee
  next : r = none → tx.nonce = account.nonce + queue.length ∧ queue.length < config.maxPerSender
  covered : tx.totalSpent + ((queue.filter fun e => e.tx.nonce ≠ tx.nonce).map
    fun e => e.tx.totalSpent).sum ≤ account.balance

/-- What waits at other nonces. -/
theorem Indexed.sum_others (h : m.Indexed) (nonce : ℕ) :
    ((((m.pendingOf a).rows.filter fun r => r.1 ≠ nonce).map fun r => r.2.tx.totalSpent).sum) =
      (((m.pendingFor a).filter fun e => e.tx.nonce ≠ nonce).map fun e => e.tx.totalSpent).sum := by
  have hrows : ((m.pendingOf a).rows.filter fun r => r.1 ≠ nonce).map Prod.snd =
      ((m.pendingOf a).rows.map Prod.snd).filter fun e => e.tx.nonce ≠ nonce := by
    rw [List.filter_map]
    refine congrArg _ (List.filter_congr fun row hrow => ?_)
    rw [Function.comp_apply, (h.slots a row.1 row.2 (Table.mem_rows.1 hrow)).2.1]
  rw [← ((rows_perm_pendingFor m a).filter _ |>.map _).sum_eq, ← hrows, List.map_map]
  rfl

theorem Indexed.policy (h : m.Indexed) (hr : checkPolicy config state m tx = .ok r) :
    Policy config (state tx.sender) (m.pendingFor tx.sender) tx r := by
  have hlength := length_pendingFor m tx.sender
  have hsum := h.sum_others (a := tx.sender) tx.nonce
  cases hp : (m.pendingOf tx.sender).lookup tx.nonce with
  | none =>
    simp only [checkPolicy, hp, invalid_bind, ite_invalid_eq_ok] at hr
    obtain ⟨hfee, -, hnonce, hcount, hspent, -⟩ := hr
    rw [hsum] at hspent
    exact ⟨not_lt.1 hfee, fun _ => ⟨by rw [hlength]; exact not_not.1 hnonce,
      by rw [hlength]; exact not_le.1 hcount⟩, not_lt.1 hspent⟩
  | some w =>
    simp only [checkPolicy, hp, invalid_bind, ite_invalid_eq_ok] at hr
    obtain ⟨hfee, -, -, hspent, hr⟩ := hr
    rw [hsum] at hspent
    exact ⟨not_lt.1 hfee, fun hn => (by rw [hn] at hr; cases hr), not_lt.1 hspent⟩

/-! ## One more transfer -/

theorem live_offered (hi : m.Indexed) (hx : m.byId.lookup tx.txid = none)
    (hr : (m.pendingOf tx.sender).lookup tx.nonce = r) :
    (m.offered tx r added).Live z ↔ z = ⟨tx, tx.size, added⟩ ∨ m.Live z ∧ r ≠ some z := by
  have hplace : (inPlace (fun _ => added) m tx r).Live z ↔
      z = ⟨tx, tx.size, added⟩ ∨ m.Live z ∧ r ≠ some z := live_inPlace hx hi hr
  cases r with
  | none => exact hplace
  | some w => exact hplace

/-- A queue with its transfer at a nonce in the middle. -/
theorem Indexed.queue_split (h : m.Indexed) (hr : (m.pendingOf a).lookup z.tx.nonce = some z) :
    ∃ before after, m.pendingFor a = before ++ z :: after ∧
      ∀ e ∈ before ++ after, e.tx.nonce ≠ z.tx.nonce := by
  obtain ⟨hs, -, hlive⟩ := h.slots _ _ _ hr
  obtain ⟨before, after, hq⟩ := List.append_of_mem (h.mem_pendingFor.2 ⟨hlive, hs⟩)
  refine ⟨before, after, hq, fun e he => ?_⟩
  have hsorted := h.pendingFor_sorted a
  rw [hq] at hsorted
  obtain ⟨-, hsorted, hbefore⟩ := List.pairwise_append.1 hsorted
  rcases List.mem_append.1 he with he | he
  · have := hbefore e he z List.mem_cons_self
    omega
  · have := (List.pairwise_cons.1 hsorted).1 e he
    omega

/-- **A transfer that passed the policy checks** keeps its sender's queue. -/
theorem Indexed.queued_offered (h : m.Indexed) (h' : (m.offered tx r added).Indexed)
    (hx : m.byId.lookup tx.txid = none)
    (hr : checkPolicy config state m tx = .ok r)
    (hq : Queued config (state tx.sender) (m.pendingFor tx.sender)) :
    Queued config (state tx.sender) ((m.offered tx r added).pendingFor tx.sender) := by
  have hpolicy := h.policy hr
  have hslot := (checkPolicy_ok hr).1
  have hlive : ∀ z, (m.offered tx r added).Live z ↔
      z = ⟨tx, tx.size, added⟩ ∨ m.Live z ∧ r ≠ some z := fun z => live_offered h hx hslot
  have hsorted := h.pendingFor_sorted tx.sender
  cases r with
  | none =>
    obtain ⟨hnonce, hcount⟩ := hpolicy.next rfl
    have hlt : ∀ e ∈ m.pendingFor tx.sender, e.tx.nonce < tx.nonce := by
      intro e he
      obtain ⟨i, hi⟩ := List.mem_iff_getElem?.1 he
      have := hq.nonce i e hi
      have := (List.getElem?_eq_some_iff.1 hi).1
      omega
    have hqueue : (m.offered tx none added).pendingFor tx.sender =
        m.pendingFor tx.sender ++ [⟨tx, tx.size, added⟩] := by
      refine h'.pendingFor_eq (List.pairwise_append.2 ⟨hsorted, List.pairwise_singleton _ _,
        fun e he f hf => ?_⟩) fun e => ?_
      · rw [List.mem_singleton.1 hf]
        exact hlt e he
      · rw [List.mem_append, List.mem_singleton, h.mem_pendingFor, hlive]
        constructor
        · rintro (⟨he, hs⟩ | rfl)
          exacts [⟨Or.inr ⟨he, fun hn => by cases hn⟩, hs⟩, ⟨Or.inl rfl, rfl⟩]
        · rintro ⟨rfl | ⟨he, -⟩, hs⟩
          exacts [Or.inr rfl, Or.inl ⟨he, hs⟩]
    rw [hqueue]
    refine hq.push hnonce ?_ hcount hpolicy.fee
    have hall : (m.pendingFor tx.sender).filter (fun e => e.tx.nonce ≠ tx.nonce) =
        m.pendingFor tx.sender :=
      List.filter_eq_self.2 fun e he => decide_eq_true (hlt e he).ne
    have hcovered := hpolicy.covered
    rw [hall] at hcovered
    exact hcovered
  | some w =>
    obtain ⟨hs, hn, hw⟩ := h.slots _ _ _ hslot
    obtain ⟨before, after, hsplit, hne⟩ := h.queue_split (a := tx.sender) (z := w) (hn ▸ hslot)
    rw [hsplit] at hsorted hq
    have hqueue : (m.offered tx (some w) added).pendingFor tx.sender =
        before ++ ⟨tx, tx.size, added⟩ :: after := by
      refine h'.pendingFor_eq ?_ fun e => ?_
      · rw [List.pairwise_append, List.pairwise_cons] at hsorted ⊢
        obtain ⟨hb, ⟨hwa, ha⟩, hba⟩ := hsorted
        refine ⟨hb, ⟨fun e he => hn ▸ hwa e he, ha⟩, fun e he f hf => ?_⟩
        rcases List.mem_cons.1 hf with rfl | hf
        · exact hn ▸ hba e he w List.mem_cons_self
        · exact hba e he f (List.mem_cons_of_mem _ hf)
      · have hmem := (h.mem_pendingFor (e := e) (a := tx.sender)).symm
        rw [hsplit, List.mem_append, List.mem_cons] at hmem
        rw [List.mem_append, List.mem_cons, hlive]
        constructor
        · rintro (he | rfl | he)
          · exact ⟨Or.inr ⟨(hmem.2 (Or.inl he)).1, fun hwe => hne e (List.mem_append_left _ he)
              (by rw [Option.some.inj hwe])⟩, (hmem.2 (Or.inl he)).2⟩
          · exact ⟨Or.inl rfl, rfl⟩
          · exact ⟨Or.inr ⟨(hmem.2 (Or.inr (Or.inr he))).1, fun hwe =>
              hne e (List.mem_append_right _ he) (by rw [Option.some.inj hwe])⟩,
              (hmem.2 (Or.inr (Or.inr he))).2⟩
        · rintro ⟨rfl | ⟨he, hwe⟩, hes⟩
          · exact Or.inr (Or.inl rfl)
          · rcases hmem.1 ⟨he, hes⟩ with hb | rfl | ha
            exacts [Or.inl hb, absurd rfl hwe, Or.inr (Or.inr ha)]
    rw [hqueue]
    refine hq.replace hn.symm ?_ hpolicy.fee
    have hothers : (m.pendingFor tx.sender).filter (fun e => e.tx.nonce ≠ tx.nonce) =
        before ++ after := by
      have hkeep : ∀ e ∈ before ++ after, decide (e.tx.nonce ≠ tx.nonce) = true :=
        fun e he => decide_eq_true (hn ▸ hne e he)
      rw [hsplit, List.filter_append, List.filter_cons_of_neg (by simpa using hn),
        ← List.filter_append, List.filter_eq_self.2 hkeep]
    have hcovered := hpolicy.covered
    rw [hothers] at hcovered
    exact hcovered

/-! ## Transfers that leave -/

/-- A queue that loses its end. -/
theorem Indexed.pendingFor_of_suffix (h : m.Indexed) (h' : m'.Indexed)
    {before after : List MempoolEntry} (hq : m.pendingFor a = before ++ after)
    (hlive : ∀ e, e.tx.sender = a → (m'.Live e ↔ m.Live e ∧ e ∉ after)) :
    m'.pendingFor a = before := by
  have hsorted := h.pendingFor_sorted a
  rw [hq] at hsorted
  obtain ⟨hbefore, -, hlt⟩ := List.pairwise_append.1 hsorted
  refine h'.pendingFor_eq hbefore fun e => ?_
  have hmem := (h.mem_pendingFor (e := e) (a := a)).symm
  rw [hq, List.mem_append] at hmem
  constructor
  · intro he
    obtain ⟨hl, hs⟩ := hmem.2 (Or.inl he)
    exact ⟨(hlive e hs).2 ⟨hl, fun ha => lt_irrefl _ (hlt e he e ha)⟩, hs⟩
  · rintro ⟨hl, hs⟩
    obtain ⟨hl, hnot⟩ := (hlive e hs).1 hl
    exact (hmem.1 ⟨hl, hs⟩).resolve_right hnot

/-- **Every queue can be sent** on top of the state. -/
def Spendable (config : MempoolConfig) (state : StateView) (m : Mempool) : Prop :=
  ∀ a, Queued config (state a) (m.pendingFor a)

omit [Library] in
theorem Spendable.congr (h : Spendable config state m) (hm : SameTables m m') :
    Spendable config state m' := fun a => by
  rw [hm.pendingFor]
  exact h a

/-- Queues that lose their ends. -/
theorem Spendable.of_suffix (h : Spendable config state m) (hi : m.Indexed) (hi' : m'.Indexed)
    (gone : List MempoolEntry)
    (hgone : ∀ a, ∃ before, m.pendingFor a = before ++ gone.filter fun e => e.tx.sender = a)
    (hlive : ∀ e, m'.Live e ↔ m.Live e ∧ e ∉ gone) : Spendable config state m' := by
  intro a
  obtain ⟨before, hq⟩ := hgone a
  rw [hi.pendingFor_of_suffix hi' hq fun e hs => (hlive e).trans (and_congr_right fun _ =>
    not_congr (by rw [List.mem_filter, decide_eq_true hs]; exact (and_iff_left rfl).symm))]
  exact (hq ▸ h a).left

/-- **A sender's last transfer leaves.** -/
theorem Spendable.without (h : Spendable config state m) (hi : m.Indexed) (he : m.IsLast e) :
    Spendable config state (m.without e) := by
  have hlive := hi.live_of_isLast he
  have hlast := (hi.isLast_iff hlive).1 he
  refine h.of_suffix hi (hi.without hlive) [e] (fun a => ?_) fun y => ?_
  · by_cases ha : e.tx.sender = a
    · subst ha
      obtain ⟨before, after, hq, hne⟩ := hi.queue_split (hi.ids _ _ hlive).2.2
      have hafter : after = [] := by
        refine List.eq_nil_iff_forall_not_mem.2 fun f hf => ?_
        have hmem : f ∈ m.pendingFor e.tx.sender := by
          rw [hq]
          exact List.mem_append_right _ (List.mem_cons_of_mem _ hf)
        obtain ⟨hfl, hfs⟩ := hi.mem_pendingFor.1 hmem
        have hslot := (hi.ids _ _ hfl).2.2
        rw [hfs] at hslot
        have hle := Table.le_maxKey (Option.isSome_iff_exists.2 ⟨f, hslot⟩)
        have hsorted := hi.pendingFor_sorted e.tx.sender
        rw [hq] at hsorted
        have := (List.pairwise_cons.1 (List.pairwise_append.1 hsorted).2.1).1 f hf
        omega
      exact ⟨before, by simp [hq, hafter]⟩
    · exact ⟨m.pendingFor a, by simp [ha]⟩
  · rw [live_without, List.mem_singleton, and_comm]
    exact and_congr_right fun hy => not_congr ⟨fun ht => hy.unique hlive ht, fun ht => ht ▸ rfl⟩

/-- **Making room** takes the ends of queues. -/
theorem Spendable.evicts {maxBytes : ℕ} (h : Spendable config state m) (hi : m.Indexed)
    (he : Evicts maxBytes m m') : Spendable config state m' := by
  induction he with
  | done _ hm => exact h.congr hm
  | evict _ he _ _ ih => exact ih (h.without hi he) (hi.without (hi.live_of_isLast he))

/-- **Inserting a transfer**, whether or not it stays. -/
theorem Spendable.went (h : Spendable config state m) (hi : m.Indexed)
    (hx : m.byId.lookup tx.txid = none) (hw : Went config state m tx added m') :
    Spendable config state m' := by
  cases hw with
  | refused _ hm => exact hm ▸ h
  | offered hr hindexed hevicts =>
    refine Spendable.evicts (fun a => ?_) hindexed hevicts
    by_cases ha : a = tx.sender
    · subst ha
      exact hi.queued_offered hindexed hx hr (h tx.sender)
    · rename_i r
      rw [hi.pendingFor_congr hindexed fun e hs => ?_]
      · exact h a
      rw [live_offered hi hx (checkPolicy_ok hr).1]
      have hne : e.tx.sender ≠ tx.sender := fun he => ha (hs.symm.trans he)
      refine ⟨fun hl => (hl.resolve_left fun he => hne (by rw [he])).1, fun hl => Or.inr ⟨hl, ?_⟩⟩
      intro hre
      obtain ⟨hws, -, -⟩ := hi.slots _ _ _ (hre ▸ (checkPolicy_ok hr).1)
      exact hne hws

/-! ## Keeping up with the chain -/

variable {H : Set Transfer} {clock : ℕ → ℚ} {j : ℕ} {senders : Set Address}

/-- What every transfer put back keeps, whether or not it stays, putting
them back in turn keeps. -/
theorem putBack_keeps (hinj : Set.InjOn Transfer.txid H) {confirmed : List Digest}
    {P : Mempool → Prop} (hP : ∀ {tx added m m'}, Heaped H clock j m →
      m.byId.lookup tx.txid = none → Went config state m tx added m' → P m → P m') :
    ∀ {cs : List (Transfer × ℚ)} {m : Mempool}, Heaped H clock j m →
      Awaiting H clock j senders m cs → P m →
      wp (putBack config (trimToSize config) state confirmed cs)
        (fun _ m' => Heaped H clock j m' ∧ m'.clockReads = m.clockReads ∧ P m')
        (fun _ _ => False) m
  | [], m, h, _, hPm => wp_pure.2 ⟨h, rfl, hPm⟩
  | (tx, added) :: cs, m, h, ha, hPm => by
    rw [putBack, wp_bind, wp_get]
    refine wp_ite.2 ⟨fun _ => putBack_keeps hinj hP h ha.tail hPm, fun hnew => ?_⟩
    obtain ⟨hmem, -, htime⟩ := ha.known (tx, added) List.mem_cons_self
    have hid : m.byId.lookup tx.txid = none :=
      Option.not_isSome_iff_eq_none.1 fun hsome => hnew (Or.inr hsome)
    have hnext : ∀ m' n', Tried H clock j m tx added m' n' → Went config state m tx added m' →
        wp (putBack config (trimToSize config) state confirmed cs)
          (fun _ m' => Heaped H clock j m' ∧ m'.clockReads = m.clockReads ∧ P m')
          (fun _ _ => False) m' := by
      intro m' n' ht hw
      refine (putBack_keeps hinj hP ht.heaped (ht.awaiting _ _ ha) (hP h hid hw hPm)).mono ?_
        fun _ _ h => h
      rintro _ m'' ⟨h'', hclock, hPm''⟩
      exact ⟨h'', hclock.trans ht.clockReads, hPm''⟩
    rw [wp_bind, wp_attempt]
    refine (insert_lockstep hinj h (.refl m) hmem htime hid
      (ha.settled (tx, added) List.mem_cons_self)).left.mono ?_ ?_
    · rintro _ m' ⟨n', ht, hw, -⟩
      exact hnext m' n' ht hw
    · rintro _ m' ⟨n', ⟨v, rfl⟩, ht, hw, -⟩
      exact hnext m' n' ht hw

theorem mapM_senderOf : ∀ {l : List Transaction}, (∀ tx ∈ l, ∃ x, tx = .transfer x) →
    ∃ senders, l.mapM senderOf = .ok senders ∧ ∀ x, .transfer x ∈ l → x.sender ∈ senders
  | [], _ => ⟨[], rfl, fun _ h => by cases h⟩
  | tx :: l, h => by
    obtain ⟨x, rfl⟩ := h tx List.mem_cons_self
    obtain ⟨senders, hl, hmem⟩ := mapM_senderOf fun tx htx => h tx (List.mem_cons_of_mem _ htx)
    refine ⟨x.sender :: senders, ?_, fun y hy => ?_⟩
    · rw [List.mapM_cons, hl]
      rfl
    · rcases List.mem_cons.1 hy with hy | hy
      · rw [Transaction.transfer.inj hy]
        exact List.mem_cons_self
      · exact List.mem_cons_of_mem _ (hmem y hy)

/-- The senders looked at again: what no block sends and nothing waits for
may be left out. -/
theorem affectedSenders_ok {connected : List Block} (disconnected : List Block)
    (returning : List Transfer) (hfirst : ∀ b ∈ connected, CoinbaseFirst b) :
    ∃ senders, affectedSenders m connected disconnected returning = .ok senders ∧
      ∀ a, a ∉ senders → (disconnected = [] → a ∉ Senders connected) ∧
        (disconnected ≠ [] → m.pendingFor a = []) := by
  unfold affectedSenders
  by_cases hd : disconnected = []
  · subst hd
    rw [if_pos List.isEmpty_nil]
    obtain ⟨senders, hl, hmem⟩ := mapM_senderOf
      (l := connected.flatMap fun block => block.transactions.tail) fun tx htx => by
        obtain ⟨b, hb, htx⟩ := List.mem_flatMap.1 htx
        exact hfirst b hb tx htx
    refine ⟨senders, hl, fun a ha => ⟨fun _ => ?_, fun h => absurd rfl h⟩⟩
    rintro ⟨b, hb, x, hx, rfl⟩
    exact ha (hmem x (List.mem_flatMap.2 ⟨b, hb, hx⟩))
  · rw [if_neg (by simpa using hd)]
    refine ⟨_, rfl, fun a ha => ⟨fun h => absurd h hd, fun _ => ?_⟩⟩
    rw [List.mem_append, not_or] at ha
    have hnone : m.bySender.lookup a = none := AList.lookup_eq_none.2 ha.1
    rw [pendingFor, pendingOf, hnone]
    rfl

/-- **`update` keeps every queue sendable**: where no block was undone, only
the senders of new blocks are looked at again, and nobody else lost coins. -/
theorem Spendable.update (h : Spendable config state m) (hmono : Monotone clock)
    (hinj : Set.InjOn Transfer.txid H) (hheap : Heaped H clock m.clockReads m)
    (hfits : m.bytes ≤ config.maxBytes) {connected disconnected : List Block}
    (hmem : ∀ b ∈ disconnected, ∀ x, .transfer x ∈ b.transactions → x ∈ H)
    (hfirst : ∀ b ∈ connected, CoinbaseFirst b)
    (hspares : disconnected = [] → Spares connected state state') :
    wp (update config (trimToSize config) clock state' connected disconnected)
      (fun _ m' => Heaped H clock m'.clockReads m' ∧ m'.bytes ≤ config.maxBytes ∧
        Spendable config state' m') (fun _ _ => False) m := by
  obtain ⟨senders, hsenders, hothers⟩ := affectedSenders_ok (m := m) disconnected (returningOf
    (connected.flatMap fun block => block.transactions.map Transaction.txid) disconnected) hfirst
  simp only [Mempool.update, wp_bind, wp_get, wp_lift, hsenders]
  refine ⟨fun senders' hs => ?_, fun e he => by cases he⟩
  obtain rfl := Except.ok.inj hs
  refine (timed_lockstep (E := fun _ _ _ => False) (.refl m)).left.mono ?_
    fun _ _ h => h.elim fun _ h => h
  rintro returned m₁ ⟨-, rfl, -, hreturned⟩
  refine (takeOut_lockstep (E := fun _ _ _ => False) hheap.ticked (.refl _)).left.mono ?_
    fun _ _ h => h.elim fun _ h => h
  rintro taken m₂ ⟨-, -, h₂, l, rfl, hd, hl, hgone⟩
  have hperm : ∀ s, s ∈ config.setOrder senders.dedup ↔ s ∈ senders := fun s =>
    (config.setOrder_perm senders.dedup).mem_iff.trans List.mem_dedup
  have hawaiting := Awaiting.of_taken hmono (Nat.le_add_right _ _) hheap.ticked hinj h₂ hd hl hgone
    fun c hc => by
      obtain ⟨hx, hi⟩ := hreturned c hc
      obtain ⟨block, hblock, htx⟩ := mem_returningOf hx
      exact ⟨hmem block hblock _ htx, (hperm _).2 (sender_mem_affected hsenders hx), hi⟩
  -- The queues of the senders looked at are empty now, the others as they were.
  have hstart : Spendable config state' m₂ := by
    intro a
    by_cases ha : a ∈ senders
    · have hempty : m₂.pendingFor a = [] := List.eq_nil_iff_forall_not_mem.2 fun e he => by
        obtain ⟨hlive, hs⟩ := h₂.indexed.mem_pendingFor.1 he
        exact hgone e hlive ((hperm _).2 (hs ▸ ha))
      rw [hempty]
      exact Queued.nil
    · have hsame : m₂.pendingFor a = m.pendingFor a := by
        refine hheap.indexed.pendingFor_congr h₂.indexed fun e hs => (hd.live e).trans
          (and_iff_left fun he => ?_)
        exact ha (hs ▸ (hperm _).1 (hl e he).2)
      rw [hsame]
      by_cases hd : disconnected = []
      · obtain ⟨hnonce, hle⟩ := hspares hd a ((hothers a ha).1 hd)
        exact (h a).mono hnonce hle
      · rw [(hothers a ha).2 hd]
        exact Queued.nil
  refine (putBack_keeps hinj
    (P := fun m => Spendable config state' m ∧ m.bytes ≤ config.maxBytes)
    (fun hheap hid hw hP => ⟨hP.1.went hheap.indexed hid hw, hw.fits hP.2⟩)
    (h₂.later (Nat.le_add_right _ _)) hawaiting ⟨hstart, hd.bytes.trans hfits⟩).mono ?_
    fun _ _ h => h
  rintro _ m' ⟨h', hclock, hspendable, hbytes⟩
  refine wp_pure.2 ⟨?_, hbytes, hspendable⟩
  rw [hclock, hd.clockReads]
  exact h'

/-! ## A transfer from outside -/

/-- **`add` keeps every queue sendable**, whether it takes the transfer or
refuses it. -/
theorem Spendable.add (h : Spendable config state m) (hmono : Monotone clock)
    (hinj : Set.InjOn Transfer.txid H) (hheap : Heaped H clock m.clockReads m)
    (hfits : m.bytes ≤ config.maxBytes) {tx : Transaction}
    (hmem : ∀ x, tx = .transfer x → checkTransaction config.params tx = .ok () → x ∈ H) :
    wp (add config (trimToSize config) clock state tx)
      (fun _ m' => Heaped H clock m'.clockReads m' ∧ m'.bytes ≤ config.maxBytes ∧
        Spendable config state m')
      (fun err m' => err.IsInvalid ∧ Heaped H clock m'.clockReads m' ∧
        m'.bytes ≤ config.maxBytes ∧ Spendable config state m') m := by
  cases tx with
  | coinbase tx => exact wp_throw.2 ⟨⟨_, rfl⟩, hheap, hfits, h⟩
  | transfer x =>
    simp only [Mempool.add, wp_bind, wp_get]
    refine wp_ite.2 ⟨fun _ => ?_, fun hnew => ?_⟩
    · rw [wp_bind]
      exact wp_throw.2 ⟨⟨_, rfl⟩, hheap, hfits, h⟩
    rw [wp_bind, wp_lift]
    refine ⟨fun _ hcheck => ?_, fun err herr => ⟨raises_checkTransaction rules_isInvalid
      config.params (.transfer x) err herr, hheap, hfits, h⟩⟩
    have hx := hmem x rfl hcheck
    have hid : m.byId.lookup x.txid = none := Option.not_isSome_iff_eq_none.1 hnew
    have hheap' := (hheap.later (Nat.le_succ _)).ticked (i := m.clockReads + 1)
    have hclear := (hheap.ticked (i := m.clockReads + 1)).clear_of_later hinj hx le_rfl
    have hticked : Spendable config state { m with clockReads := m.clockReads + 1 } := h
    simp only [readClock, wp_bind, wp_get, wp_set, wp_pure]
    refine (insert_lockstep hinj hheap' (.refl _) hx (fun i hi => hmono (Nat.le_of_succ_le hi)) hid
      (Or.inl hclear)).left.mono ?_ ?_
    · rintro _ m' ⟨n', ht, hw, -⟩
      exact ⟨ht.clockReads ▸ ht.heaped, hw.fits hfits, hticked.went hheap'.indexed hid hw⟩
    · rintro err m' ⟨n', herr, ht, hw, -⟩
      exact ⟨herr, ht.clockReads ▸ ht.heaped, hw.fits hfits, hticked.went hheap'.indexed hid hw⟩

/-! ## Old transfers -/

/-- The first old transfer of a queue and those after it leave. -/
theorem Spendable.expireFor {cutoff : ℚ} : ∀ {senders : List Address} {m : Mempool},
    Spendable config state m → Heaped H clock j m →
    wp (expireFor cutoff senders) (fun _ m' => Heaped H clock j m' ∧ m'.clockReads = m.clockReads ∧
      m'.bytes ≤ m.bytes ∧ Spendable config state m') (fun _ _ => False) m
  | [], m, h, hheap => wp_pure.2 ⟨hheap, rfl, le_rfl, h⟩
  | sender :: senders, m, h, hheap => by
    have hqueue := List.takeWhile_append_dropWhile (l := m.pendingFor sender)
      (p := fun e => !decide (e.added < cutoff))
    have hsub := List.dropWhile_sublist (l := m.pendingFor sender)
      (fun e => !decide (e.added < cutoff))
    have hold : ∀ e ∈ (m.pendingFor sender).dropWhile fun e => !decide (e.added < cutoff),
        m.Live e ∧ e.tx.sender = sender :=
      fun e he => hheap.indexed.mem_pendingFor.1 (hsub.subset he)
    rw [Mempool.expireFor, wp_bind, wp_get, wp_bind]
    refine (removeAll_lockstep (E := fun _ _ _ => False) hheap (.refl m)
      ((hheap.indexed.nodup_pendingFor sender).sublist hsub) fun e he => (hold e he).1).left.mono ?_
      fun _ _ h => h.elim fun _ h => h
    rintro _ m₁ ⟨-, -, h₁, hd⟩
    have hs₁ : Spendable config state m₁ := by
      refine h.of_suffix hheap.indexed h₁.indexed _ (fun a => ?_) hd.live
      by_cases ha : a = sender
      · subst ha
        refine ⟨_, hqueue.symm.trans (congrArg _ (List.filter_eq_self.2 fun e he => ?_).symm)⟩
        exact decide_eq_true (hold e he).2
      · refine ⟨m.pendingFor a, ?_⟩
        rw [List.filter_eq_nil_iff.2 fun e he => ?_, List.append_nil]
        exact fun hs => ha ((of_decide_eq_true hs).symm.trans (hold e he).2)
    rw [wp_bind]
    refine (expireFor hs₁ h₁).mono ?_ fun _ _ h => h
    rintro _ m' ⟨h', hclock, hbytes, hs'⟩
    exact wp_pure.2 ⟨h', hclock.trans hd.clockReads, hbytes.trans hd.bytes, hs'⟩

/-- **`expire` keeps every queue sendable.** -/
theorem Spendable.expire (h : Spendable config state m) (hheap : Heaped H clock m.clockReads m)
    (hfits : m.bytes ≤ config.maxBytes) :
    wp (expire config clock) (fun _ m' => Heaped H clock m'.clockReads m' ∧
      m'.bytes ≤ config.maxBytes ∧ Spendable config state m') (fun _ _ => False) m := by
  have hticked : Spendable config state { m with clockReads := m.clockReads + 1 } := h
  simp only [Mempool.expire, readClock, wp_bind, wp_get, wp_set, wp_pure]
  refine (hticked.expireFor ((hheap.later (Nat.le_succ _)).ticked (i := m.clockReads + 1))).mono ?_
    fun _ _ h => h
  rintro _ m' ⟨h', hclock, hbytes, hs'⟩
  exact ⟨by rw [hclock]; exact h', hbytes.trans hfits, hs'⟩

end Mempool

end TalCash
