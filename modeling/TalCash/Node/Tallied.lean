import TalCash.Node.Keeping
import TalCash.Node.Moves
import TalCash.Node.Writes
/-!
# The work beside every row

Whatever a node does, each of its rows is found under the id of its
header, whose ancestors lead to genesis with the work beside it
(`tallied_after`). A row comes in on top of a stored one; every other
write drops rows or changes their status and their location.
-/

namespace TalCash

open Exec

variable [Primitives] {params : NetworkParams} {B : Set Block} {db db' : Db} {s : Store} {b : Block}
variable {id : Digest} {r r' : HeaderRow}

/-! ## Writes that add no row -/

/-- Every row is one from before, but for its status and its location. -/
def Thinned (db db' : Db) : Prop :=
  ∀ id r', db'.headers.lookup id = some r' →
    ∃ r, db.headers.lookup id = some r ∧ r'.header = r.header ∧ r'.chainWork = r.chainWork

omit [Primitives] in
theorem thinned_of_headers_eq (h : db'.headers = db.headers) : Thinned db db' :=
  fun _ r' hr' => ⟨r', h ▸ hr', rfl, rfl⟩

omit [Primitives] in
theorem thinned_update {f : HeaderRow → HeaderRow} (hh : ∀ r, (f r).header = r.header)
    (hw : ∀ r, (f r).chainWork = r.chainWork) (h : db'.headers = Table.update id f db.headers) :
    Thinned db db' := by
  intro id' r' hr'
  rw [h, Table.lookup_update] at hr'
  split at hr'
  · rename_i hid
    obtain ⟨r, hr, rfl⟩ := Option.map_eq_some_iff.1 hr'
    exact ⟨r, hid ▸ hr, hh r, hw r⟩
  · exact ⟨r', hr', rfl, rfl⟩

omit [Primitives] in
theorem move_thinned : Move Thinned := by
  refine ⟨fun db => thinned_of_headers_eq rfl, fun h h' id r'' hr'' => ?_⟩
  obtain ⟨r', hr', hh', hw'⟩ := h' id r'' hr''
  obtain ⟨r, hr, hh, hw⟩ := h id r' hr'
  exact ⟨r, hr, hh'.trans hh, hw'.trans hw⟩

theorem connects_thinned : Store.Connects params Thinned := fun h =>
  thinned_update (f := fun r => { r with status := .valid }) (fun _ => rfl) (fun _ => rfl)
    (Db.connectBlock_touched h).1.headers

omit [Primitives] in
theorem thinned_setLocation {l : ChunkLocation} (h : db.setLocation id l = .ok db') :
    Thinned db db' :=
  thinned_update (f := fun r => { r with location := some l }) (fun _ => rfl) (fun _ => rfl)
    (congrArg Db.headers (Db.setLocation_ok h))

theorem switches_thinned : Store.Switches params Thinned where
  connect := connects_thinned
  disconnect h := thinned_of_headers_eq (Db.disconnectBlock_ok h).1
  mark h := fun id r' hr' => by
    obtain ⟨r, hr, hh, hw, -⟩ := (marked_of_markInvalid h).rows.lookup hr'
    exact ⟨r, hr, hh, hw⟩
  sealed h := fun id r' hr' => by
    obtain ⟨-, r, hr, he⟩ := Db.lookup_sealDb h hr'
    rcases he with rfl | ⟨l, -, rfl⟩
    · exact ⟨r', hr, rfl, rfl⟩
    · exact ⟨r, hr, rfl, rfl⟩

/-! ## The invariant -/

/-- Every row is found under the id of its header, whose ancestors lead to
genesis with the work beside it. -/
structure Tallied (params : NetworkParams) (B : Set Block) (db : Db) : Prop where
  keyed : ∀ id r, db.headers.lookup id = some r → r.blockId = id
  ancestry : ∀ id r, db.headers.lookup id = some r → Ancestry params B r.header r.chainWork

omit [Primitives] in
/-- The tip is the row of the highest active id. -/
theorem Db.tip_ok_iff {tip : HeaderRow} : db.tip = .ok tip ↔
    ∃ id, db.mainId db.tipHeight = some id ∧ db.header id = some tip := by
  rw [← Option.bind_eq_some_iff]
  unfold Db.tip
  cases (db.mainId db.tipHeight).bind db.header with
  | none =>
    constructor <;> intro h <;> cases h
  | some row => exact ⟨fun h => congrArg some (Except.ok.inj h), fun h => congrArg _ (Option.some.inj h)⟩

namespace Tallied

theorem thinned (h : Tallied params B db) (ht : Thinned db db') : Tallied params B db' := by
  refine ⟨fun id r' hr' => ?_, fun id r' hr' => ?_⟩ <;> obtain ⟨r, hr, hh, hw⟩ := ht id r' hr'
  · rw [← h.keyed id r hr]
    exact congrArg BlockHeader.blockId hh
  · rw [hh, hw]
    exact h.ancestry id r hr

/-- A row on top of a stored one. -/
theorem addRow (h : Tallied params B db) (hb : b ∈ B) {p : HeaderRow}
    (hp : db.headers.lookup p.blockId = some p) (hprev : b.header.prevId = p.blockId)
    (hheight : b.height = p.height + 1) {status : Status} {location : Option ChunkLocation}
    (hdb : db.addRow b.header (p.chainWork + blockWork b.header.target) status location = .ok db') :
    Tallied params B db' := by
  obtain ⟨-, -, -, rfl⟩ := Db.addRow_ok_iff.1 hdb
  have hchild : Ancestry params B b.header (p.chainWork + blockWork b.header.target) :=
    .child (h.ancestry _ p hp) hb hprev hheight
  refine ⟨fun id r hr => ?_, fun id r hr => ?_⟩ <;> rw [Table.lookup_put] at hr <;> split at hr
  · rw [← Option.some.inj hr]
    exact (‹id = _›).symm
  · exact h.keyed id r hr
  · rw [← Option.some.inj hr]
    exact hchild
  · exact h.ancestry id r hr

/-- The row of the tip is found under its id. -/
theorem lookup_tip (h : Tallied params B db) {tip : HeaderRow} (ht : db.tip = .ok tip) :
    db.headers.lookup tip.blockId = some tip := by
  obtain ⟨id, -, hid⟩ := Db.tip_ok_iff.1 ht
  rw [h.keyed id tip hid]
  exact hid

end Tallied

/-! ## What a block is connected to -/

/-- A block that is connected is one above the tip it names. -/
theorem Store.connect_height (b : Block) (s : Store) :
    Exec.wp (Store.connect params b)
      (fun _ s' => Thinned s.db s'.db ∧ ∃ tip, s.db.tip = .ok tip ∧ b.height = tip.height + 1)
      (fun _ _ => True) s := by
  have hkeeps : Keeps (OnDb Thinned) (Store.connect params b) :=
    Store.keeps_connect move_thinned connects_thinned b
  have hthin := hkeeps s
  have hheight : Exec.wp (Store.connect params b)
      (fun _ _ => ∃ tip, s.db.tip = .ok tip ∧ b.height = tip.height + 1) (fun _ _ => True) s := by
    simp only [Store.connect, Exec.wp_bind, Exec.wp_get, Exec.wp_lift, Exec.wp_require]
    refine ⟨fun tip htip => ⟨fun _ => ?_, fun _ => trivial⟩, fun _ _ => trivial⟩
    simp only [Store.context, Store.writeDb, Exec.wp_bind, Exec.wp_get, Exec.wp_lift, Exec.wp_pure,
      Exec.wp_set]
    refine Exec.wp_of_forall (fun matured s₁ => ?_) fun _ _ => trivial
    refine ⟨fun root _ => ⟨fun median _ => ⟨fun db' hdb => ⟨tip, htip, ?_⟩, fun _ _ => trivial⟩,
      fun _ _ => trivial⟩, fun _ _ => trivial⟩
    exact (Db.connectBlock_checked hdb).height
  exact (hthin.and hheight).mono (fun _ _ h => h) fun _ _ _ => trivial

/-! ## Importing a chunk -/

/-- A new row is not the tip's. -/
theorem Db.tip_addRow {header : BlockHeader} {work : ℕ} {status : Status}
    {location : Option ChunkLocation} (h : db.addRow header work status location = .ok db')
    {tip : HeaderRow} (ht : db.tip = .ok tip) : db'.tip = .ok tip := by
  obtain ⟨-, -, hnew, rfl⟩ := Db.addRow_ok_iff.1 h
  obtain ⟨id, hid, hrow⟩ := Db.tip_ok_iff.1 ht
  have hne : id ≠ header.blockId := by
    rintro rfl
    rw [Db.header, hnew] at hrow
    cases hrow
  exact Db.tip_ok_iff.2 ⟨id, hid, (Table.lookup_put_ne hne).trans hrow⟩

namespace Tallied

/-- Connecting a block keeps the rows tallied. -/
theorem connect (h : Tallied params B s.db) (b : Block) :
    Exec.wp (Store.connect params b) (fun _ s' => Tallied params B s'.db) (fun _ _ => True) s :=
  (Store.connect_height b s).mono (fun _ _ h' => h.thinned h'.1) fun _ _ _ => trivial

/-- **The blocks of a chunk** are stored on top of the tip, and one that
does not connect undoes them all. -/
theorem importBlocks : ∀ (l : List (Block × ChunkLocation)) {s : Store},
    Tallied params B s.db → (∀ p ∈ l, p.1 ∈ B) →
      Exec.wp (Store.importBlocks params l) (fun _ s' => Tallied params B s'.db)
        (fun _ _ => True) s
  | [], s, h, _ => Exec.wp_pure.2 h
  | (b, loc) :: rest, s, h, hl => by
    have hrest : ∀ s₁ : Store, Tallied params B s₁.db →
        Exec.wp (Store.importBlocks params rest) (fun _ s' => Tallied params B s'.db)
          (fun _ _ => True) s₁ := fun s₁ h₁ =>
      importBlocks rest h₁ fun p hp => hl p (List.mem_cons_of_mem _ hp)
    have hlocated : ∀ {db'}, s.db.setLocation b.blockId loc = .ok db' → Tallied params B db' :=
      fun hdb => h.thinned (thinned_setLocation hdb)
    simp only [Store.importBlocks, Exec.wp_bind, Exec.wp_get]
    rw [Exec.wp_ite]
    refine ⟨fun _ => ?_, fun _ => ?_⟩
    · simp only [Store.writeDb, Exec.wp_bind, Exec.wp_get, Exec.wp_lift, Exec.wp_set]
      exact ⟨fun db' hdb => hrest _ (hlocated hdb), fun _ _ => trivial⟩
    · simp only [Exec.wp_bind, Exec.wp_lift]
      refine ⟨fun tip htip => ?_, fun _ _ => trivial⟩
      rw [Exec.wp_ite]
      refine ⟨fun _ => Exec.wp_throw.2 trivial, fun hprev => ?_⟩
      rw [ne_eq, not_not] at hprev
      rw [Exec.wp_ite]
      refine ⟨fun _ => ?_, fun _ => ?_⟩
      · simp only [Store.addBlock, Option.isNone_some, Bool.false_eq_true, if_false, Exec.wp_bind,
          Exec.wp_pure, Store.writeDb, Exec.wp_get, Exec.wp_lift, Exec.wp_set]
        refine ⟨fun db' hdb => ?_, fun _ _ => trivial⟩
        -- The row is known to be one above the tip once its block is connected.
        refine (Store.connect_height b { s with db := db' }).mono ?_ fun _ _ h => h
        rintro _ s₂ ⟨hthin, tip', htip', hheight⟩
        rw [show (Db.tip _ : Except PyError HeaderRow) = .ok tip from Db.tip_addRow hdb htip] at htip'
        obtain rfl : tip = tip' := Except.ok.inj htip'
        exact hrest s₂ ((h.addRow (hl _ List.mem_cons_self) (h.lookup_tip htip) hprev hheight
          hdb).thinned hthin)
      · simp only [Store.writeDb, Exec.wp_bind, Exec.wp_get, Exec.wp_lift, Exec.wp_set, Exec.wp_pure]
        refine ⟨fun db' hdb => ?_, fun _ _ => trivial⟩
        exact (connect (s := { s with db := db' }) (hlocated hdb) b).mono (fun _ s₂ h₂ => hrest s₂ h₂) fun _ _ h => h

/-- **Applying a chunk** keeps the rows tallied, applied or refused. -/
theorem applyChunk (h : Tallied params B s.db) {checked : CheckedChunk}
    (hB : ∀ b ∈ checked.blocks, b ∈ B) :
    Tallied params B (Exec.final (Store.applyChunk params checked) s).db := by
  have hR : Move fun db db' : Db => Tallied params B db → Tallied params B db' :=
    ⟨fun _ h => h, fun h h' hdb => h' (h hdb)⟩
  refine (Store.keeps_applyChunk_of_import hR fun s => ?_).final s h
  rw [Store.transaction, Exec.wp_atomically]
  refine Exec.wp.mono (Q := fun _ s' => Tallied params B s.db → Tallied params B s'.db)
    (E := fun _ _ => True) ?_ (fun _ s' h => show Tallied params B s.db → Tallied params B s'.db from h)
    fun _ _ _ hs => hs
  by_cases hs : Tallied params B s.db
  · simp only [Store.importChunk, Exec.wp_bind]
    refine (importBlocks _ hs fun p hp => hB _ (List.of_mem_zip hp).1).mono (fun _ s₁ h₁ => ?_)
      fun _ _ _ => trivial
    simp only [Store.writeDb, Exec.wp_bind, Exec.wp_get, Exec.wp_lift, Exec.wp_set, Exec.wp_pure]
    refine ⟨fun db' hdb _ => ?_, fun _ _ => trivial⟩
    obtain rfl := Except.ok.inj hdb
    exact h₁.thinned (thinned_of_headers_eq rfl)
  · exact Exec.wp_of_forall (fun _ _ h => absurd h hs) fun _ _ => trivial

end Tallied

/-! ## Submitting a block -/

namespace Node

variable {clock : ℕ → ℤ} {n n' : Node} {calls : List Call} {call : Call}

/-- Accepting a block adds a row on top of its parent's. -/
theorem tallied_acceptChild (h : Tallied params B n.store.db) (hb : b ∈ B) {p : HeaderRow}
    (hp : n.store.db.header b.header.prevId = some p) (hheight : b.height = p.height + 1) :
    Exec.wp (acceptChild params b p) (fun _ n' => Tallied params B n'.store.db)
      (fun _ n' => Tallied params B n'.store.db) n := by
  have hprev : b.header.prevId = p.blockId := (h.keyed _ p hp).symm
  have hp' : n.store.db.headers.lookup p.blockId = some p := hprev ▸ hp
  have hadd : Exec.wp (Store.transaction (Store.addBlock b
      (p.chainWork + blockWork b.header.target) .stored)) (fun _ s => Tallied params B s.db)
      (fun _ s => Tallied params B s.db) n.store := by
    rw [Store.transaction, Exec.wp_atomically]
    simp only [Store.addBlock, Option.isNone_none, if_true, Exec.wp_bind]
    have hfiles := (Store.keeps_onFiles (R := Eq) ⟨fun _ => rfl, Eq.trans⟩
      (BlockFiles.writeRecent b)) n.store
    refine hfiles.mono (fun _ s₁ h₁ => ?_) fun _ _ _ => h
    have h₁ : n.store.db = s₁.db := h₁
    simp only [Store.writeDb, Exec.wp_bind, Exec.wp_get, Exec.wp_lift, Exec.wp_set]
    exact ⟨fun db' hdb => h.addRow hb hp' hprev hheight (h₁ ▸ hdb), fun _ _ => h⟩
  simp only [acceptChild, onStore, Exec.wp_bind, Exec.wp_zoom, Exec.wp_get, Exec.wp_lift]
  refine hadd.mono (fun _ s₁ h₁ => ?_) fun _ _ h₁ => h₁
  refine ⟨fun tip _ => ?_, fun _ _ => h₁⟩
  rw [Exec.wp_ite]
  refine ⟨fun _ => ?_, fun _ => Exec.wp_pure.2 h₁⟩
  rw [Exec.wp_zoom]
  exact (Store.keeps_switchTo move_thinned switches_thinned b.blockId s₁).mono
    (fun _ _ ht => h₁.thinned ht) fun _ _ ht => h₁.thinned ht

/-- **A block that is submitted** is stored, if at all, on top of a row. -/
theorem tallied_submitOne (hp : Pool n) (hb : b ∈ B) (h : Tallied params B n.store.db) :
    Exec.wp (submitOne params clock b) (fun _ n' => Tallied params B n'.store.db)
      (fun _ n' => Tallied params B n'.store.db) n := by
  refine submitOne_rule ?_ ?_ ?_ ?_
  · rintro r n' - (rfl | rfl) -
    exacts [h, h]
  · intro hnew _ _ _ hchecks
    refine (holdOrphan_spec (n := n.tick) (SamePool.pool (n := n) ⟨rfl, rfl⟩ hp) hnew.orphan
      (CheckedBlock.size_le_orphans (checkOrphan_ok_iff.1 hchecks).2)).mono ?_ fun _ _ h => h.elim
    intro _ n' hheld
    have hrest := hheld.rest
    unfold OnlyOrphans at hrest
    rw [hrest]
    exact h
  · intro parent _ hparent _ hchecks
    obtain ⟨median, -, hheader⟩ := (checkChild_ok_iff.1 hchecks).header
    exact tallied_acceptChild (n := n.tick) h hb hparent
      (checkHeaderAgainstParent_ok_iff.1 hheader).1
  · exact fun _ _ _ _ _ _ _ => h

/-! ## Runs -/

/-- The blocks that a call brings. -/
def blocksOf : Call → List Block
  | .submit block => [block]
  | .apply checked => checked.blocks

theorem tallied_fresh : Tallied params B (fresh params).store.db := by
  have hstore : (fresh params).store = Store.fresh params := rfl
  refine ⟨fun id r hr => ?_, fun id r hr => ?_⟩ <;>
    rw [hstore, (fresh_store params).1.headers, Table.lookup_put] at hr <;> split at hr
  · rw [← Option.some.inj hr]
    exact (‹id = _›).symm
  · cases hr
  · rw [← Option.some.inj hr]
    exact .genesis
  · cases hr

/-- A call whose blocks are among `B` keeps the rows tallied. -/
theorem tallied_step (hp : Pool n) (ho : OrphansIn B n) (h : Tallied params B n.store.db)
    (hB : ∀ b ∈ blocksOf call, b ∈ B) :
    (Tallied params B (step params clock n call).store.db ∧
      OrphansIn B (step params clock n call)) ∧ Pool (step params clock n call) := by
  cases call with
  | submit block =>
    refine final_submitBlock_keeps (P := fun n => Tallied params B n.store.db)
      (C := fun _ _ => True) (fun hrest h => ?_)
      (fun hp hb _ h => tallied_submitOne hp hb h) hp ho (hB _ List.mem_cons_self)
      (fun _ _ => trivial) h
    unfold OnlyOrphans at hrest
    rw [hrest]
    exact h
  | apply checked =>
    refine ⟨?_, hp.step (.apply checked)⟩
    rw [step_apply]
    exact ⟨h.applyChunk hB, ho⟩

/-- **The rows are tallied after every run** of calls whose blocks are
among `B`. -/
theorem tallied_after (hB : ∀ call ∈ calls, ∀ b ∈ blocksOf call, b ∈ B) :
    Tallied params B (after params clock calls).store.db := by
  have hrun : Run.Along (fun _ call => ∀ b ∈ blocksOf call, b ∈ B) (step params clock)
      (fresh params) calls := Run.along_of_mem fun call hcall _ => hB call hcall
  have hafter := hrun.invariant
    (P := fun n => (Tallied params B n.store.db ∧ OrphansIn B n) ∧ Pool n)
    ⟨⟨tallied_fresh, fun _ _ h => by cases h⟩, pool_fresh⟩
    fun _ _ h hcall => tallied_step h.2 h.1.2 h.1.1 hcall
  exact hafter.1.1

end Node

end TalCash
