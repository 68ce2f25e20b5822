import TalCash.Node.Tallied
import TalCash.Core.Sample
/-!
# Headers first

A node that catches up checks headers before it downloads their blocks.
`check_headers` carries a window of timestamps and a total of the work
from header to header; `_submit_one` walks the rows of stored ancestors
for each block. Once the blocks are stored both say the same
(`checkHeaders_agrees`).
-/

namespace TalCash

section

variable [Primitives]

/-! ## Checking headers -/

/-- `HeaderTip`: the end of a chain of checked headers, with the
timestamps of its last headers, newest first. -/
structure HeaderTip where
  header : BlockHeader
  chainWork : ℕ
  recentTimes : List ℕ

/-- `header_tip`. -/
def Db.headerTip (params : NetworkParams) (db : Db) (blockId : Digest) : Option HeaderTip :=
  (db.header blockId).map fun stored =>
    ⟨stored.header, stored.chainWork, db.recentTimestamps params.medianTimeSpan (some stored)⟩

variable (params : NetworkParams)

/-- The tip after a header that passed. -/
def HeaderTip.next (tip : HeaderTip) (header : BlockHeader) : HeaderTip where
  header := header
  chainWork := tip.chainWork + blockWork header.target
  recentTimes := header.timestamp :: tip.recentTimes.take (params.medianTimeSpan - 1)

/-- `check_headers`, at the whole seconds of the clock. -/
def checkHeaders (now : ℤ) (tip : HeaderTip) :
    List BlockHeader → Except PyError (HeaderTip × List BlockHeader)
  | [] => .ok (tip, [])
  | header :: rest =>
    match checkNotInFuture header now params with
    -- The clock may be wrong, and not the sender.
    | .error _ => .ok (tip, [])
    | .ok () =>
      if header.version ≠ BLOCK_VERSION then
        invalid "bad-version" s!"block version {header.version}"
      else do
        let median ← medianTimePast tip.recentTimes
        checkHeaderAgainstParent header tip.header median (Db.expectedTarget params tip.header)
          params false
        let (last, checked) ← checkHeaders now (tip.next params header) rest
        pure (last, header :: checked)

/-- `check_headers` gets past the header at a place: of the headers up to
there it returns every one. -/
def GetsPast (now : ℤ) (tip : HeaderTip) (headers : List BlockHeader) (i : ℕ) : Prop :=
  ∃ last, checkHeaders params now tip (headers.take (i + 1)) = .ok (last, headers.take (i + 1))

/-! ## What is stored -/

namespace Db

/-- A row and this many of its ancestors, or all of them, are stored. -/
def AncestorsStored (db : Db) : (count : ℕ) → HeaderRow → Prop
  | 0, _ => True
  | count + 1, row =>
    0 < row.height → ∃ parent, db.header row.header.prevId = some parent ∧
      AncestorsStored db count parent

/-- A block is stored with the ancestors that its median takes. -/
def WindowStored (db : Db) (blockId : Digest) : Prop :=
  ∃ row, db.header blockId = some row ∧ db.AncestorsStored (params.medianTimeSpan - 1) row

/-- A block with this header is stored. -/
def HasBlock (db : Db) (header : BlockHeader) : Prop :=
  ∃ row, db.header header.blockId = some row ∧ row.header = header

/-- What `_submit_one` checks of a header whose parent is stored, but for
finality and proof of work. -/
structure WouldPass (now : ℤ) (db : Db) (header : BlockHeader) : Prop where
  version : header.version = BLOCK_VERSION
  notInFuture : checkNotInFuture header now params = .ok ()
  againstParent : ∃ parent median, db.header header.prevId = some parent ∧
    db.medianTimePast params parent.blockId = .ok median ∧
    checkHeaderAgainstParent header parent.header median (expectedTarget params parent.header)
      params false = .ok ()

end Db

variable {params} {now : ℤ} {tip last : HeaderTip} {header : BlockHeader}
variable {headers checked : List BlockHeader} {db db' : Db} {B : Set Block} {r r' : HeaderRow}

/-! ## One header -/

/-- A header passes after a tip. -/
structure Passes (params : NetworkParams) (now : ℤ) (tip : HeaderTip) (header : BlockHeader) :
    Prop where
  notInFuture : checkNotInFuture header now params = .ok ()
  version : header.version = BLOCK_VERSION
  againstTip : ∃ median, medianTimePast tip.recentTimes = .ok median ∧
    checkHeaderAgainstParent header tip.header median (Db.expectedTarget params tip.header) params
      false = .ok ()

/-- After a header that passes, the check goes on from the next tip. -/
theorem checkHeaders_of_passes {rest : List BlockHeader} (h : Passes params now tip header) :
    checkHeaders params now tip (header :: rest) =
      (checkHeaders params now (tip.next params header) rest).map fun r => (r.1, header :: r.2) := by
  obtain ⟨median, hm, ht⟩ := h.againstTip
  rw [checkHeaders, h.notInFuture]
  simp only [h.version, ne_eq, not_true_eq_false, if_false, bind, Except.bind, hm, ht]
  cases checkHeaders params now (tip.next params header) rest <;> rfl

/-- What `check_headers` returns at its first header: nothing, where it
stops, or a header that passed. -/
theorem checkHeaders_cons_ok {rest : List BlockHeader}
    (h : checkHeaders params now tip (header :: rest) = .ok (last, checked)) :
    checked = [] ∧ last = tip ∨ ∃ checked', checked = header :: checked' ∧
      Passes params now tip header ∧
        checkHeaders params now (tip.next params header) rest = .ok (last, checked') := by
  rw [checkHeaders] at h
  cases hf : checkNotInFuture header now params with
  | error e =>
    rw [hf] at h
    cases h
    exact Or.inl ⟨rfl, rfl⟩
  | ok u =>
    rw [hf] at h
    simp only [ite_invalid_eq_ok, bind_eq_ok, ne_eq, not_not] at h
    obtain ⟨hv, median, hm, _, ht, ⟨l, c⟩, hr, he⟩ := h
    cases he
    exact Or.inr ⟨c, rfl, ⟨hf, hv, median, hm, ht⟩, hr⟩

theorem checkHeaders_cons_ok_iff {rest : List BlockHeader} :
    checkHeaders params now tip (header :: rest) = .ok (last, header :: checked) ↔
      Passes params now tip header ∧
        checkHeaders params now (tip.next params header) rest = .ok (last, checked) := by
  constructor
  · intro h
    rcases checkHeaders_cons_ok h with ⟨h, -⟩ | ⟨c, he, hp, hr⟩
    · cases h
    · cases he
      exact ⟨hp, hr⟩
  · rintro ⟨hp, hr⟩
    rw [checkHeaders_of_passes hp, hr]
    rfl

/-- **Batches**: after headers that all passed, the check goes on from the
tip they lead to. -/
theorem checkHeaders_append {before after : List BlockHeader}
    (h : checkHeaders params now tip before = .ok (last, before)) :
    checkHeaders params now tip (before ++ after) =
      (checkHeaders params now last after).map fun r => (r.1, before ++ r.2) := by
  induction before generalizing tip with
  | nil =>
    cases h
    rw [List.nil_append]
    cases checkHeaders params now last after <;> rfl
  | cons header before ih =>
    obtain ⟨hp, hrest⟩ := checkHeaders_cons_ok_iff.1 h
    rw [List.cons_append, checkHeaders_of_passes hp, ih hrest]
    cases checkHeaders params now last after <;> rfl

/-! ## Windows -/

/-- **Windows agree** between databases that store the same ancestors. -/
theorem Tallied.recentTimestamps_eq (hS : CollisionFree (messagesOf B))
    (hg : genesisBlock params ∈ B) (h : Tallied params B db) (h' : Tallied params B db') :
    ∀ {count : ℕ} {r r' : HeaderRow}, r'.header = r.header → db.AncestorsStored count r →
      db'.AncestorsStored count r' →
      db'.recentTimestamps (count + 1) (some r') = db.recentTimestamps (count + 1) (some r)
  | 0, r, r', he, _, _ => by simp only [Db.recentTimestamps, he]
  | count + 1, r, r', he, ha, ha' => by
    have hheight : r'.height = r.height := congrArg BlockHeader.height he
    rw [Db.recentTimestamps, Db.recentTimestamps, he, hheight]
    by_cases hpos : 0 < r.height
    · obtain ⟨p, hp, hrest⟩ := ha hpos
      obtain ⟨p', hp', hrest'⟩ := ha' (hheight ▸ hpos)
      rw [he] at hp'
      have hpp : p'.header = p.header :=
        Ancestry.header_unique hS hg (h'.ancestry _ p' hp') (h.ancestry _ p hp)
          ((h'.keyed _ p' hp').trans (h.keyed _ p hp).symm)
      rw [if_pos hpos, if_pos hpos, hp, hp', recentTimestamps_eq hS hg h h' hpp hrest hrest']
    · rw [if_neg hpos, if_neg hpos, Db.recentTimestamps, Db.recentTimestamps]

omit [Primitives] in
/-- A shorter window is the beginning of a longer one. -/
theorem Db.take_recentTimestamps {db : Db} : ∀ (n : ℕ) {m : ℕ} {row : Option HeaderRow}, n ≤ m →
    (db.recentTimestamps m row).take n = db.recentTimestamps n row
  | 0, m, row, _ => by rw [List.take_zero, Db.recentTimestamps]
  | n + 1, m + 1, none, _ => by rw [Db.recentTimestamps, Db.recentTimestamps, List.take_nil]
  | n + 1, m + 1, some row, hle => by
    rw [Db.recentTimestamps, Db.recentTimestamps, List.take_succ_cons,
      take_recentTimestamps n (Nat.le_of_succ_le_succ hle)]

/-! ## Tips and rows -/

/-- A tip that says of a stored block what its row says. -/
structure Follows (params : NetworkParams) (db : Db) (tip : HeaderTip) (row : HeaderRow) : Prop where
  stored : db.headers.lookup row.blockId = some row
  header : tip.header = row.header
  chainWork : tip.chainWork = row.chainWork
  recentTimes : tip.recentTimes = db.recentTimestamps params.medianTimeSpan (some row)

/-- **The first tip**, taken from another database that stores the block
and its window too. -/
theorem Follows.first (hS : CollisionFree (messagesOf B)) (hg : genesisBlock params ∈ B)
    (h : Tallied params B db) (h' : Tallied params B db') {id : Digest}
    (hw : db.WindowStored params id) (hw' : db'.WindowStored params id) :
    ∃ tip row, db.headerTip params id = some tip ∧ db'.header id = some row ∧
      Follows params db' tip row := by
  obtain ⟨r, hr, ha⟩ := hw
  obtain ⟨r', hr', ha'⟩ := hw'
  have hid : r'.blockId = id := h'.keyed id r' hr'
  have he : r'.header = r.header :=
    Ancestry.header_unique hS hg (h'.ancestry _ r' hr') (h.ancestry _ r hr)
      (hid.trans (h.keyed id r hr).symm)
  have hspan : params.medianTimeSpan - 1 + 1 = params.medianTimeSpan :=
    Nat.sub_add_cancel params.medianTimeSpan_pos
  have htimes := h.recentTimestamps_eq hS hg h' he ha ha'
  rw [hspan] at htimes
  refine ⟨⟨r.header, r.chainWork, db.recentTimestamps params.medianTimeSpan (some r)⟩, r', ?_, hr',
    hid ▸ hr', he.symm, ?_, htimes.symm⟩
  · rw [Db.headerTip, hr, Option.map_some]
  · refine Ancestry.work_unique hS hg (h.ancestry _ r hr) ?_
    rw [← he]
    exact h'.ancestry _ r' hr'

namespace Follows

variable {row : HeaderRow}

/-- **A header passes as its block does**, where it names the header
before it. -/
theorem passes_iff (hf : Follows params db tip row) :
    Passes params now tip header ↔
      header.prevId = tip.header.blockId ∧ db.WouldPass params now header := by
  have hid : tip.header.blockId = row.blockId := congrArg BlockHeader.blockId hf.header
  have hmedian : db.medianTimePast params row.blockId = medianTimePast tip.recentTimes := by
    rw [Db.medianTimePast, Db.header, hf.stored, hf.recentTimes]
  constructor
  · rintro ⟨hn, hv, median, hm, ht⟩
    have hprev : header.prevId = tip.header.blockId := (checkHeaderAgainstParent_ok_iff.1 ht).2.1
    refine ⟨hprev, hv, hn, row, median, ?_, hmedian.trans hm, ?_⟩
    · rw [hprev, hid]
      exact hf.stored
    · rwa [hf.header] at ht
  · rintro ⟨hprev, hv, hn, parent, median, hp, hm, ht⟩
    obtain rfl : row = parent := by
      rw [hprev, hid] at hp
      exact Option.some.inj (hf.stored.symm.trans hp)
    refine ⟨hn, hv, median, hmedian.symm.trans hm, ?_⟩
    rwa [hf.header]

/-- **The next tip** says what the row of its block says. -/
theorem next (hS : CollisionFree (messagesOf B)) (hg : genesisBlock params ∈ B)
    (h : Tallied params B db) (hf : Follows params db tip row)
    (hp : Passes params now tip header) (hb : db.HasBlock header) :
    ∃ row', Follows params db (tip.next params header) row' := by
  obtain ⟨row', hr', rfl⟩ := hb
  obtain ⟨median, -, ht⟩ := hp.againstTip
  obtain ⟨hheight, hprev, -⟩ := checkHeaderAgainstParent_ok_iff.1 ht
  have hpos : 0 < row'.height := by
    show 0 < row'.header.height
    omega
  have hparent : db.header row'.header.prevId = some row := by
    rw [hprev, hf.header]
    exact hf.stored
  refine ⟨row', hr', rfl, ?_, ?_⟩
  · -- The parent that the row was stored on top of is the row of the tip.
    have hrow := h.ancestry _ row hf.stored
    show tip.chainWork + blockWork row'.header.target = row'.chainWork
    rw [hf.chainWork]
    refine Ancestry.work_unique hS hg ?_ (h.ancestry _ row' hr')
    obtain ⟨b, hb, he⟩ := (h.ancestry _ row' hr').mem hg
    rw [← he]
    refine .child hrow hb ?_ ?_
    · rw [he, hprev, hf.header]
    · show b.header.height = _
      rw [he, hheight, hf.header]
  · have hspan : params.medianTimeSpan = params.medianTimeSpan - 1 + 1 :=
      (Nat.sub_add_cancel params.medianTimeSpan_pos).symm
    show _ :: tip.recentTimes.take (params.medianTimeSpan - 1) = _
    rw [hf.recentTimes, Db.take_recentTimestamps _ (Nat.sub_le _ _)]
    conv_rhs => rw [hspan, Db.recentTimestamps, if_pos hpos, hparent]

end Follows

/-- Each header names the one before it and would pass as a block. -/
def Linked (params : NetworkParams) (now : ℤ) (db : Db) (parent : BlockHeader)
    (headers : List BlockHeader) : Prop :=
  ∀ (j : ℕ) (p h : BlockHeader), (parent :: headers)[j]? = some p → headers[j]? = some h →
    h.prevId = p.blockId ∧ db.WouldPass params now h

theorem linked_nil {parent : BlockHeader} : Linked params now db parent [] :=
  fun _ _ _ _ hx => by cases hx

theorem linked_cons {parent : BlockHeader} :
    Linked params now db parent (header :: headers) ↔
      (header.prevId = parent.blockId ∧ db.WouldPass params now header) ∧
        Linked params now db header headers := by
  constructor
  · intro h
    exact ⟨h 0 parent header rfl rfl, fun j p x hp hx => h (j + 1) p x hp hx⟩
  · rintro ⟨h0, h⟩ j p x hp hx
    cases j with
    | zero =>
      cases hp
      cases hx
      exact h0
    | succ j => exact h j p x hp hx

/-- **All headers pass** exactly where each would as a block, once the
blocks before it are stored. -/
theorem checkHeaders_all_iff (hS : CollisionFree (messagesOf B)) (hg : genesisBlock params ∈ B)
    (h : Tallied params B db) {row : HeaderRow} (hf : Follows params db tip row)
    (hstored : ∀ x ∈ headers.dropLast, db.HasBlock x) :
    (∃ last, checkHeaders params now tip headers = .ok (last, headers)) ↔
      Linked params now db tip.header headers := by
  induction headers generalizing tip row with
  | nil => exact ⟨fun _ => linked_nil, fun _ => ⟨tip, rfl⟩⟩
  | cons header rest ih =>
    have hstep : Passes params now tip header →
        ((∃ last, checkHeaders params now (tip.next params header) rest = .ok (last, rest)) ↔
          Linked params now db header rest) := by
      intro hp
      cases rest with
      | nil => exact ⟨fun _ => linked_nil, fun _ => ⟨_, rfl⟩⟩
      | cons x rest =>
        obtain ⟨row', hf'⟩ := hf.next hS hg h hp (hstored header List.mem_cons_self)
        exact ih hf' fun y hy => hstored y (List.mem_cons_of_mem _ hy)
    rw [linked_cons, ← hf.passes_iff]
    simp only [checkHeaders_cons_ok_iff, exists_and_left]
    exact and_congr_right hstep

/-- **The tip that is returned** says what the row of the last header says. -/
theorem checkHeaders_follows (hS : CollisionFree (messagesOf B)) (hg : genesisBlock params ∈ B)
    (h : Tallied params B db) {row : HeaderRow} (hf : Follows params db tip row)
    (hc : checkHeaders params now tip headers = .ok (last, checked))
    (hstored : ∀ x ∈ checked, db.HasBlock x) :
    last.header = checked.getLastD tip.header ∧ ∃ row', Follows params db last row' := by
  induction headers generalizing tip row checked with
  | nil =>
    cases hc
    exact ⟨rfl, row, hf⟩
  | cons header rest ih =>
    rcases checkHeaders_cons_ok hc with ⟨rfl, rfl⟩ | ⟨checked', rfl, hp, hr⟩
    · exact ⟨rfl, row, hf⟩
    · obtain ⟨row', hf'⟩ := hf.next hS hg h hp (hstored header List.mem_cons_self)
      obtain ⟨hl, hrow⟩ := ih hf' hr fun y hy => hstored y (List.mem_cons_of_mem _ hy)
      refine ⟨?_, hrow⟩
      rw [hl]
      cases checked' <;> rfl

/-! ## Headers and blocks agree -/

/-- Genesis and the blocks that a run of calls brings. -/
def broughtBy (params : NetworkParams) (calls : List Call) : Set Block :=
  {b | b = genesisBlock params ∨ ∃ call ∈ calls, b ∈ Node.blocksOf call}

/-- **Headers-first checking agrees with block checking.** Take a block
that a reachable node stores with the ancestors of its window, and any
later state that stores them still. From the tip of that block,
`check_headers` gets past a header exactly where it and every header
before it names the one before and would pass as a block, the blocks of
the earlier headers being stored; and a tip that is returned carries the
work and the window of the last block once it is stored. -/
theorem checkHeaders_agrees {clock : ℕ → ℤ} {calls later : List Call}
    (hS : CollisionFree (messagesOf (broughtBy params (calls ++ later)))) {n n' : Node}
    (hn : n = Node.after params clock calls) (hn' : n' = Node.after params clock (calls ++ later))
    {id : Digest} (hw : n.store.db.WindowStored params id)
    (hw' : n'.store.db.WindowStored params id) :
    ∃ tip, n.store.db.headerTip params id = some tip ∧ ∀ (now : ℤ) (headers : List BlockHeader),
      (∀ i < headers.length, (∀ h ∈ headers.take i, n'.store.db.HasBlock h) →
        (GetsPast params now tip headers i ↔
          ∀ j ≤ i, ∀ p h, (tip.header :: headers)[j]? = some p → headers[j]? = some h →
            h.prevId = p.blockId ∧ n'.store.db.WouldPass params now h)) ∧
      ∀ last checked, checkHeaders params now tip headers = .ok (last, checked) →
        (∀ h ∈ checked, n'.store.db.HasBlock h) →
        ∃ row, n'.store.db.header last.header.blockId = some row ∧
          last.header = checked.getLastD tip.header ∧ row.header = last.header ∧
          last.chainWork = row.chainWork ∧
          last.recentTimes = n'.store.db.recentTimestamps params.medianTimeSpan (some row) := by
  have hg : genesisBlock params ∈ broughtBy params (calls ++ later) := Or.inl rfl
  have h : Tallied params (broughtBy params (calls ++ later)) n.store.db := by
    rw [hn]
    exact Node.tallied_after fun call hc b hb => Or.inr ⟨call, List.mem_append_left _ hc, hb⟩
  have h' : Tallied params (broughtBy params (calls ++ later)) n'.store.db := by
    rw [hn']
    exact Node.tallied_after fun call hc b hb => Or.inr ⟨call, hc, hb⟩
  obtain ⟨tip, row, htip, -, hf⟩ := Follows.first hS hg h h' hw hw'
  refine ⟨tip, htip, fun now headers => ⟨fun i hi hstored => ?_, fun last checked hc hstored => ?_⟩⟩
  · have hlast : (headers.take (i + 1)).dropLast = headers.take i := by
      rw [List.take_succ_eq_append_getElem hi, List.dropLast_concat]
    refine (checkHeaders_all_iff hS hg h' hf (hlast.symm ▸ hstored)).trans ?_
    -- Up to the place in question, the list and its beginning agree.
    rw [Linked, ← List.take_succ_cons]
    refine forall_congr' fun j => ?_
    by_cases hj : j ≤ i
    · rw [List.getElem?_take_of_lt (by omega), List.getElem?_take_of_lt (by omega)]
      exact ⟨fun hlink _ => hlink, fun hlink => hlink hj⟩
    · rw [List.getElem?_eq_none (l := headers.take (i + 1)) (by rw [List.length_take]; omega)]
      exact ⟨fun _ hle => absurd hle hj, fun _ p x _ hx => by cases hx⟩
  · obtain ⟨hl, row', hf'⟩ := checkHeaders_follows hS hg h' hf hc hstored
    have hid : last.header.blockId = row'.blockId := congrArg BlockHeader.blockId hf'.header
    refine ⟨row', ?_, hl, hf'.header.symm, hf'.chainWork, hf'.recentTimes⟩
    rw [hid]
    exact hf'.stored

end

section

attribute [local instance] Sample.primitives

/-- Two blocks on top of genesis. -/
def sibling (timestamp : ℕ) : Block :=
  Sample.block (genesisBlock Sample.params) NO_SNAPSHOT timestamp 0 (2 ^ 255)

/-- A node that was given the first of them. -/
def withFirst : Node := Node.after Sample.params (fun _ => 0) [.submit (sibling 1)]

theorem windowStored_genesis : (Node.fresh Sample.params).store.db.WindowStored Sample.params
      (genesisBlock Sample.params).blockId ∧
    withFirst.store.db.WindowStored Sample.params (genesisBlock Sample.params).blockId := by
  have hrow : ((Node.fresh Sample.params).store.db.header
      (genesisBlock Sample.params).blockId).map HeaderRow.height = some 0 := by decide +kernel
  have hrow' : (withFirst.store.db.header
      (genesisBlock Sample.params).blockId).map HeaderRow.height = some 0 := by decide +kernel
  constructor
  · obtain ⟨row, hr, hz⟩ := Option.map_eq_some_iff.1 hrow
    exact ⟨row, hr, fun hpos => absurd (hz ▸ hpos) (lt_irrefl 0)⟩
  · obtain ⟨row, hr, hz⟩ := Option.map_eq_some_iff.1 hrow'
    exact ⟨row, hr, fun hpos => absurd (hz ▸ hpos) (lt_irrefl 0)⟩

theorem checkHeaders_agrees_sample :
    ∃ tip, (Node.fresh Sample.params).store.db.headerTip Sample.params
        (genesisBlock Sample.params).blockId = some tip ∧
      (GetsPast Sample.params 0 tip [(sibling 1).header] 0 ↔
        ∀ j ≤ 0, ∀ p h, [tip.header, (sibling 1).header][j]? = some p →
          [(sibling 1).header][j]? = some h →
          h.prevId = p.blockId ∧ withFirst.store.db.WouldPass Sample.params 0 h) := by
  have hS : CollisionFree (messagesOf (broughtBy Sample.params ([] ++ [.submit (sibling 1)]))) := by
    refine Sample.collisionFree
      (l := [genesisBlock Sample.params, sibling 1].flatMap Block.messages) ?_ (by decide +kernel)
    rintro m ⟨b, hb, hm⟩
    refine List.mem_flatMap.2 ⟨b, ?_, hm⟩
    rcases hb with hb | ⟨call, hcall, hb⟩
    · exact hb ▸ List.mem_cons_self
    · rw [List.nil_append, List.mem_singleton] at hcall
      rw [hcall] at hb
      exact List.mem_cons_of_mem _ hb
  have hfresh : Node.fresh Sample.params = Node.after Sample.params (fun _ => 0) [] := rfl
  have hfirst : withFirst = Node.after Sample.params (fun _ => 0) ([] ++ [.submit (sibling 1)]) :=
    rfl
  obtain ⟨tip, htip, hagree⟩ := checkHeaders_agrees hS hfresh hfirst windowStored_genesis.1
    windowStored_genesis.2
  exact ⟨tip, htip, (hagree 0 [(sibling 1).header]).1 0 (by decide) fun h hh => by cases hh⟩

/-- A computation that finds every check passed. -/
theorem wouldPass_of_checks {header : BlockHeader} (hv : header.version = BLOCK_VERSION)
    (hn : (checkNotInFuture header 0 Sample.params).isOk = true)
    (hp : ((withFirst.store.db.header header.prevId).bind fun parent =>
      (withFirst.store.db.medianTimePast Sample.params parent.blockId).toOption.map fun median =>
        (checkHeaderAgainstParent header parent.header median
          (Db.expectedTarget Sample.params parent.header) Sample.params false).isOk) = some true) :
    withFirst.store.db.WouldPass Sample.params 0 header := by
  obtain ⟨parent, hparent, hp⟩ := Option.bind_eq_some_iff.1 hp
  obtain ⟨median, hmedian, hp⟩ := Option.map_eq_some_iff.1 hp
  exact ⟨hv, eq_ok_of_isOk hn, parent, median, hparent, toOption_eq_some.1 hmedian,
    eq_ok_of_isOk hp⟩

/-- **A header that starts a branch of its own is refused**, though its
block would pass: `check_headers` wants it on top of the header before. -/
theorem checkHeaders_sibling :
    withFirst.store.db.HasBlock (sibling 1).header ∧
    withFirst.store.db.WouldPass Sample.params 0 (sibling 1).header ∧
    withFirst.store.db.WouldPass Sample.params 0 (sibling 2).header ∧
    ∃ tip, (Node.fresh Sample.params).store.db.headerTip Sample.params
        (genesisBlock Sample.params).blockId = some tip ∧
      ¬ GetsPast Sample.params 0 tip [(sibling 1).header, (sibling 2).header] 1 := by
  have hrow : (withFirst.store.db.header (sibling 1).header.blockId).map HeaderRow.header =
      some (sibling 1).header := by decide +kernel
  have hraise : (((Node.fresh Sample.params).store.db.headerTip Sample.params
      (genesisBlock Sample.params).blockId).map fun tip =>
        (checkHeaders Sample.params 0 tip [(sibling 1).header, (sibling 2).header]).isOk) =
      some false := by decide +kernel
  obtain ⟨tip, htip, hraise⟩ := Option.map_eq_some_iff.1 hraise
  refine ⟨Option.map_eq_some_iff.1 hrow, wouldPass_of_checks rfl (by decide +kernel)
    (by decide +kernel), wouldPass_of_checks rfl (by decide +kernel) (by decide +kernel), tip, htip,
    ?_⟩
  rintro ⟨last, h⟩
  have hall : [(sibling 1).header, (sibling 2).header].take (1 + 1) =
      [(sibling 1).header, (sibling 2).header] := rfl
  rw [hall] at h
  rw [h] at hraise
  cases hraise

end

end TalCash
