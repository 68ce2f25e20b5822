import TalCash.Node.Imported
import TalCash.Node.Keeping
import TalCash.Node.Moves
/-!
# No block from the future

Rows come into the database with a submitted block, which
`checkNotInFuture` let through at that moment, or with an imported chunk,
whose blocks nothing compares with the clock. Where the new blocks of
every imported chunk are not ahead of the clock, no active block ever is
(`notAhead_after`).
-/

namespace TalCash

open Exec

section

variable [Primitives] {params : NetworkParams} {clock : ℕ → ℤ} {X : Set BlockHeader}

/-! ## Where rows come from -/

/-- The rows are from before, but for headers of `X`. -/
def RowsFrom (X : Set BlockHeader) (db db' : Db) : Prop :=
  ∀ id r', db'.headers.lookup id = some r' →
    (∃ r, db.headers.lookup id = some r ∧ r'.header = r.header) ∨ r'.header ∈ X

omit [Primitives] in
theorem RowsFrom.of_rows {db db' : Db}
    (h : ∀ id r', db'.headers.lookup id = some r' →
      ∃ r, db.headers.lookup id = some r ∧ r'.header = r.header) : RowsFrom X db db' :=
  fun id r' hr' => Or.inl (h id r' hr')

omit [Primitives] in
theorem RowsFrom.of_update {db db' : Db} {x : Digest} {f : HeaderRow → HeaderRow}
    (hf : ∀ r, (f r).header = r.header) (h : db'.headers = Table.update x f db.headers) :
    RowsFrom X db db' := by
  refine .of_rows fun id r' hr' => ?_
  rw [h, Table.lookup_update] at hr'
  split at hr'
  · rename_i hid
    obtain ⟨r, hr, rfl⟩ := Option.map_eq_some_iff.1 hr'
    exact ⟨r, hid ▸ hr, hf r⟩
  · exact ⟨r', hr', rfl⟩

omit [Primitives] in
theorem move_rowsFrom : Move (RowsFrom X) := by
  refine ⟨fun db => .of_rows fun id r h => ⟨r, h, rfl⟩, fun h h' id r'' hr'' => ?_⟩
  rcases h' id r'' hr'' with ⟨r', hr', he⟩ | hX
  · rcases h id r' hr' with ⟨r, hr, he'⟩ | hX
    · exact Or.inl ⟨r, hr, he.trans he'⟩
    · exact Or.inr (he ▸ hX)
  · exact Or.inr hX

theorem connects_rowsFrom : Store.Connects params (RowsFrom X) := fun h =>
  .of_update (f := fun r => { r with status := .valid }) (fun _ => rfl)
    (Db.connectBlock_touched h).1.headers

theorem switches_rowsFrom : Store.Switches params (RowsFrom X) where
  connect := connects_rowsFrom
  disconnect h := .of_rows fun id r' hr' => by
    rw [(Db.disconnectBlock_ok h).1] at hr'
    exact ⟨r', hr', rfl⟩
  mark h := .of_rows fun id r' hr' => by
    obtain ⟨r, hr, he, -, -⟩ := (marked_of_markInvalid h).rows.lookup hr'
    exact ⟨r, hr, he⟩
  sealed h := .of_rows fun id r' hr' => by
    obtain ⟨-, r, hr, he⟩ := Db.lookup_sealDb h hr'
    rcases he with rfl | ⟨l, -, rfl⟩
    · exact ⟨r', hr, rfl⟩
    · exact ⟨r, hr, rfl⟩

theorem RowsFrom.of_addRow {db db' : Db} {header : BlockHeader} {work : ℕ} {status : Status}
    {location : Option ChunkLocation} (hX : header ∈ X)
    (h : Db.addRow header work status location db = .ok db') : RowsFrom X db db' := by
  intro id r' hr'
  obtain ⟨-, -, -, rfl⟩ := Db.addRow_ok_iff.1 h
  rw [Table.lookup_put] at hr'
  split at hr'
  · rw [← Option.some.inj hr']
    exact Or.inr hX
  · exact Or.inl ⟨r', hr', rfl⟩

/-- Accepting a block adds no row but its own. -/
theorem acceptChild_rowsFrom (b : Block) (parent : HeaderRow) :
    Keeps (fun n n' : Node => RowsFrom {b.header} n.store.db n'.store.db)
      (Node.acceptChild params b parent) := by
  have hR : Move (RowsFrom {b.header}) := move_rowsFrom
  have hM : Move (fun n n' : Node => RowsFrom {b.header} n.store.db n'.store.db) :=
    ⟨fun n => hR.refl _, fun h h' => hR.trans h h'⟩
  have hstore : ∀ {α : Type} {x : StoreM α}, Keeps (OnDb (RowsFrom {b.header})) x →
      Keeps (fun n n' : Node => RowsFrom {b.header} n.store.db n'.store.db) (Node.onStore x) :=
    fun hx => hx.zoom fun _ _ h => h
  have hadd : Keeps (OnDb (RowsFrom {b.header})) (Store.addBlock b
      (parent.chainWork + blockWork b.header.target) .stored) :=
    Keeps.bind (Store.move_onDb hR) (Store.keeps_onFiles hR _) fun _ =>
      Store.keeps_writeDb (fun _ _ h => .of_addRow rfl h) hR
  refine Keeps.bind hM (hstore (Store.keeps_transaction hR hadd)) fun _ => Keeps.get_bind fun n => ?_
  refine Keeps.bind hM (Keeps.lift hM _) (fun tip => ?_) n
  exact Keeps.ite (fun _ => hstore (Store.keeps_switchTo hR switches_rowsFrom _)) fun _ => Keeps.pure hM _

/-- The rows after an import are from before or those of blocks that were
not stored before. -/
theorem applyChunk_rowsFrom (checked : CheckedChunk) (s : Store) :
    RowsFrom {h | ∃ b ∈ checked.blocks, b.header = h ∧ s.db.header b.blockId = none} s.db
      (Exec.final (Store.applyChunk params checked) s).db := by
  let X : Set BlockHeader := {h | ∃ b ∈ checked.blocks, b.header = h ∧ s.db.header b.blockId = none}
  -- What was stored at first stays stored, so a block that is added was not stored then.
  let Stays : Db → Prop := fun db => ∀ id, (s.db.headers.lookup id).isSome → (db.headers.lookup id).isSome
  let R : Db → Db → Prop := fun db db' => Stays db → RowsFrom X db db' ∧ Stays db'
  have hR : Move R := ⟨fun db h => ⟨move_rowsFrom.refl db, h⟩, fun h h' hs =>
    ⟨move_rowsFrom.trans (h hs).1 (h' (h hs).2).1, (h' (h hs).2).2⟩⟩
  have hupdate : ∀ {db db' : Db} {x : Digest} {f : HeaderRow → HeaderRow},
      (∀ r, (f r).header = r.header) → db'.headers = Table.update x f db.headers → R db db' := by
    intro db db' x f hf h hs
    refine ⟨.of_update hf h, fun id hid => ?_⟩
    rw [h, Table.lookup_update]
    split
    · rename_i hx
      rw [Option.isSome_map, ← hx]
      exact hs id hid
    · exact hs id hid
  have hi : Store.Imports params checked.blocks R := by
    refine ⟨fun h => hupdate (f := fun r => { r with status := .valid }) (fun _ => rfl)
        (Db.connectBlock_touched h).1.headers,
      fun h => ?_, fun hb h hs => ?_, fun db n hs => ⟨move_rowsFrom.refl db, hs⟩⟩
    · rename_i id l db db'
      exact hupdate (f := fun r => { r with location := some l }) (fun _ => rfl)
        (congrArg Db.headers (Db.setLocation_ok h))
    · rename_i b work l db db'
      obtain ⟨-, -, hnew, hdb⟩ := Db.addRow_ok_iff.1 h
      have hfirst : s.db.header b.blockId = none := by
        by_contra hsome
        have := hs b.blockId (Option.isSome_iff_ne_none.2 hsome)
        rw [Block.blockId, hnew] at this
        cases this
      refine ⟨.of_addRow ⟨b, hb, rfl, hfirst⟩ h, fun id hid => ?_⟩
      rw [hdb, Table.lookup_put]
      split
      · rfl
      · exact hs id hid
  exact ((Store.keeps_applyChunk hR hi).final s (fun _ h => h)).1

namespace Node

variable {n n' : Node} {b : Block} {calls : List Call} {call : Call}

/-! ## Rows of blocks not from the future -/

/-- The time that the last reading of the clock gave. -/
def lastTime (clock : ℕ → ℤ) (n : Node) : ℤ := clock (n.clockReads - 1)

/-- Every active block but genesis was not ahead of this time. -/
def NotAhead (params : NetworkParams) (time : ℤ) (db : Db) : Prop :=
  ∀ height id r, db.mainId height = some id → db.header id = some r →
    r.header = (genesisBlock params).header ∨ checkNotInFuture r.header time params = .ok ()

/-- Every stored block but genesis was not ahead of the last time read. -/
def RowsNotAhead (params : NetworkParams) (clock : ℕ → ℤ) (n : Node) : Prop :=
  ∀ id r, n.store.db.headers.lookup id = some r →
    r.header = (genesisBlock params).header ∨
      checkNotInFuture r.header (n.lastTime clock) params = .ok ()

theorem RowsNotAhead.notAhead (h : RowsNotAhead params clock n) :
    NotAhead params (n.lastTime clock) n.store.db := fun _ id r _ hr => h id r hr

omit [Primitives] in
/-- What was not ahead of one time is not ahead of a later one. -/
theorem checkNotInFuture_mono {header : BlockHeader} {time time' : ℤ} (hle : time ≤ time')
    (h : checkNotInFuture header time params = .ok ()) :
    checkNotInFuture header time' params = .ok () := by
  unfold checkNotInFuture at h ⊢
  split at h
  · cases h
  · rw [if_neg (by omega)]

/-- Rows from before, or of blocks that are not ahead of the last time
read now. -/
theorem RowsNotAhead.rowsFrom (h : RowsNotAhead params clock n) (hclock : Monotone clock)
    (hle : n.clockReads ≤ n'.clockReads) (hrows : RowsFrom X n.store.db n'.store.db)
    (hX : ∀ header ∈ X, checkNotInFuture header (n'.lastTime clock) params = .ok ()) :
    RowsNotAhead params clock n' := by
  intro id r' hr'
  rcases hrows id r' hr' with ⟨r, hr, he⟩ | hnew
  · rw [he]
    refine (h id r hr).imp_right (checkNotInFuture_mono (hclock ?_))
    show n.clockReads - 1 ≤ n'.clockReads - 1
    omega
  · exact Or.inr (hX _ hnew)

theorem RowsNotAhead.onlyOrphans (ho : OnlyOrphans n n') (h : RowsNotAhead params clock n) :
    RowsNotAhead params clock n' := by
  unfold OnlyOrphans at ho
  rw [ho]
  exact h

/-- The clock was read once more. -/
theorem RowsNotAhead.tick (hclock : Monotone clock) (h : RowsNotAhead params clock n) :
    RowsNotAhead params clock n.tick :=
  h.rowsFrom hclock (Nat.le_succ _) (move_rowsFrom (X := ∅).refl _) fun _ hx => hx.elim

/-- **A block that is submitted** is stored only if it is not ahead of the
time that was read for it. -/
theorem RowsNotAhead.submitOne (hclock : Monotone clock) (hp : Pool n)
    (h : RowsNotAhead params clock n) :
    Exec.wp (submitOne params clock b) (fun _ n' => RowsNotAhead params clock n')
      (fun _ n' => RowsNotAhead params clock n') n := by
  have htick := h.tick hclock
  refine submitOne_rule ?_ ?_ ?_ ?_
  · rintro r n' - (rfl | rfl) -
    exacts [h, htick]
  · intro hnew _ _ _ hchecks
    refine (holdOrphan_spec (n := n.tick) (SamePool.pool (n := n) ⟨rfl, rfl⟩ hp) hnew.orphan
      (CheckedBlock.size_le_orphans (checkOrphan_ok_iff.1 hchecks).2)).mono ?_ fun _ _ h => h.elim
    exact fun _ n' hheld => htick.onlyOrphans (n := n.tick) hheld.rest
  · intro parent _ _ _ hchecks
    -- The check of this moment speaks for the one row that is new.
    have hnow := (checkChild_ok_iff.1 hchecks).notInFuture
    have hrest : ∀ n' : Node, n' = { n.tick with store := n'.store } →
        RowsFrom {b.header} n.tick.store.db n'.store.db → RowsNotAhead params clock n' := by
      intro n' hn' hrows
      have hreads : n'.clockReads = n.clockReads + 1 := by rw [hn']; rfl
      refine htick.rowsFrom hclock hreads.ge hrows fun header hx => ?_
      rw [Set.mem_singleton_iff.1 hx]
      unfold lastTime
      rw [hreads, Nat.add_sub_cancel]
      exact hnow
    exact ((acceptChild_onlyStore parent).and (acceptChild_rowsFrom b parent n.tick)).mono
      (fun _ n' h' => hrest n' h'.1 h'.2) fun _ n' h' => hrest n' h'.1 h'.2
  · exact fun _ _ _ _ _ _ _ => htick

/-! ## Runs -/

variable (params clock) in
/-- The node after a call, where an import takes a moment of the clock
too, though it does not read it. -/
def timedStep (n : Node) : Call → Node
  | .submit block => step params clock n (.submit block)
  | .apply checked => step params clock n.tick (.apply checked)

variable (params clock) in
/-- The nodes that a call goes through: one for each block it handles, and
the last one. -/
def moments (n : Node) : Call → List Node
  | .submit block =>
    (handled params clock block n).map Prod.fst ++ [timedStep params clock n (.submit block)]
  | .apply checked => [timedStep params clock n (.apply checked)]

variable (params clock) in
/-- The blocks that an import adds are not ahead of the clock. -/
def Timely (n : Node) : Call → Prop
  | .submit _ => True
  | .apply checked => ∀ b ∈ checked.blocks, n.store.db.header b.blockId = none →
      checkNotInFuture b.header (n.now clock) params = .ok ()

/-- A call that is timely keeps the rows not ahead, at every moment. -/
theorem RowsNotAhead.moments (hclock : Monotone clock) (hp : Pool n)
    (h : RowsNotAhead params clock n) (hcall : Timely params clock n call) :
    ∀ m ∈ moments params clock n call, RowsNotAhead params clock m := by
  have honly : ∀ {n n' : Node}, OnlyOrphans n n' → RowsNotAhead params clock n →
      RowsNotAhead params clock n' := fun ho h => h.onlyOrphans ho
  have hone : ∀ {b : Block} {n : Node}, Pool n → RowsNotAhead params clock n →
      Exec.wp (Node.submitOne params clock b) (fun _ n' => RowsNotAhead params clock n')
        (fun _ n' => RowsNotAhead params clock n') n := fun hp h => h.submitOne hclock hp
  cases call with
  | submit block =>
    intro m hm
    rcases List.mem_append.1 hm with hm | hm
    · obtain ⟨p, hpm, rfl⟩ := List.mem_map.1 hm
      exact handled_keeps honly hone hp h p hpm
    · rw [List.mem_singleton.1 hm]
      exact (Exec.wp_const_iff.1 (submitBlock_invariant (C := fun _ _ => True) hp honly
        (fun hp _ h => hone hp h) (fun _ _ => trivial) h)).1
  | apply checked =>
    intro m hm
    rw [List.mem_singleton.1 hm]
    have hstore : timedStep params clock n (.apply checked) =
        { n.tick with store := Exec.final (Store.applyChunk params checked) n.store } := by
      rw [timedStep, step_apply]
      rfl
    have hreads : (timedStep params clock n (.apply checked)).clockReads = n.clockReads + 1 := by
      rw [hstore]; rfl
    have hrows : RowsFrom
        {h | ∃ b ∈ checked.blocks, b.header = h ∧ n.store.db.header b.blockId = none} n.store.db
        (timedStep params clock n (.apply checked)).store.db := by
      rw [hstore]
      exact applyChunk_rowsFrom checked n.store
    refine h.rowsFrom hclock (by rw [hreads]; exact Nat.le_succ _) hrows ?_
    rintro _ ⟨b, hb, rfl, hrow⟩
    unfold lastTime
    rw [hreads, Nat.add_sub_cancel]
    exact hcall b hb hrow

theorem rowsNotAhead_fresh : RowsNotAhead params clock (fresh params) := by
  intro id r hr
  have hstore : (fresh params).store = Store.fresh params := rfl
  rw [hstore, (fresh_store params).1.headers, Table.lookup_put] at hr
  split at hr
  · rw [← Option.some.inj hr]
    exact Or.inl rfl
  · cases hr

theorem pool_timedStep (h : Pool n) : Pool (timedStep params clock n call) := by
  cases call with
  | submit block => exact h.step (.submit block)
  | apply checked =>
    have htick : Pool n.tick := SamePool.pool (n := n) ⟨rfl, rfl⟩ h
    have hstep : Pool (step params clock n.tick (.apply checked)) := htick.step _
    exact hstep

/-- The node after a call is the last of its moments. -/
theorem timedStep_mem_moments : timedStep params clock n call ∈ moments params clock n call := by
  cases call with
  | submit block => exact List.mem_append_right _ List.mem_cons_self
  | apply checked => exact List.mem_cons_self

/-- **No block from the future**: where no import adds a block that is
ahead of the clock, every active block but genesis is not ahead of the
time last read, at every moment of every run. -/
theorem notAhead_run (hclock : Monotone clock)
    (h : Run.Along (Timely params clock) (timedStep params clock) (fresh params) (calls ++ [call])) :
    ∀ m ∈ moments params clock (Run.run (timedStep params clock) (fresh params) calls) call,
      NotAhead params (m.lastTime clock) m.store.db := by
  obtain ⟨hcalls, hcall, -⟩ := Run.along_append.1 h
  have hrun : RowsNotAhead params clock (Run.run (timedStep params clock) (fresh params) calls) ∧
      Pool (Run.run (timedStep params clock) (fresh params) calls) :=
    hcalls.invariant (P := fun n => RowsNotAhead params clock n ∧ Pool n)
      ⟨rowsNotAhead_fresh, pool_fresh⟩ fun n call hn hc =>
        ⟨hn.1.moments hclock hn.2 hc _ timedStep_mem_moments, pool_timedStep hn.2⟩
  exact fun m hm => (hrun.1.moments hclock hrun.2 hcall m hm).notAhead

end Node

end

namespace Node

section

attribute [local instance] Sample.primitives

/-- A block on top of genesis from the far future. -/
def aheadFirst : Block := Sample.block (genesisBlock Sample.params) NO_SNAPSHOT 1000000 0 (2 ^ 255)

theorem timely_firstChunk :
    Timely Sample.params (fun _ => 1000) (fresh Sample.params) (.apply (firstChunk newFirst)) := by
  have h : ∀ b ∈ (firstChunk newFirst).blocks, b.header.timestamp ≤ 1000 := by decide +kernel
  intro b hb _
  unfold checkNotInFuture
  have := h b hb
  rw [if_neg (by simp only [now]; omega)]

theorem notAhead_run_sample :
    Run.Along (Timely Sample.params fun _ => 1000) (timedStep Sample.params fun _ => 1000)
        (fresh Sample.params) [.apply (firstChunk newFirst)] ∧
      ∀ m ∈ moments Sample.params (fun _ => 1000) (fresh Sample.params)
        (.apply (firstChunk newFirst)),
        NotAhead Sample.params (m.lastTime fun _ => 1000) m.store.db := by
  have halong : Run.Along (Timely Sample.params fun _ => 1000)
      (timedStep Sample.params fun _ => 1000) (fresh Sample.params)
      ([] ++ [.apply (firstChunk newFirst)]) := ⟨timely_firstChunk, trivial⟩
  have hrun := notAhead_run (fun _ _ _ => le_rfl) halong
  exact ⟨halong, hrun⟩

/-- **An imported block may be from the future.** -/
theorem imported_from_future : ¬ ∀ (clock : ℕ → ℤ) (calls : List Call) (call : Call),
    Monotone clock → (∀ c ∈ calls ++ [call], c.Passed Sample.params) →
    ∀ m ∈ moments Sample.params clock (Run.run (timedStep Sample.params clock)
      (fresh Sample.params) calls) call,
      NotAhead Sample.params (m.lastTime clock) m.store.db := by
  intro h
  have hpassed : (Call.apply (firstChunk aheadFirst)).Passed Sample.params := by
    have hok : (checkChunkFile (firstChunkFile aheadFirst) Sample.params).isOk = true := by
      decide +kernel
    refine ⟨firstChunkFile aheadFirst, none, ?_⟩
    unfold firstChunk
    cases hc : checkChunkFile (firstChunkFile aheadFirst) Sample.params with
    | error e => rw [hc] at hok; cases hok
    | ok c => rfl
  obtain ⟨m, hm⟩ : ∃ m, m = timedStep Sample.params (fun _ => 1000) (fresh Sample.params)
    (.apply (firstChunk aheadFirst)) := ⟨_, rfl⟩
  have hall : NotAhead Sample.params (m.lastTime fun _ => 1000) m.store.db := by
    rw [hm]
    exact h (fun _ => 1000) [] (.apply (firstChunk aheadFirst)) (fun _ _ _ => le_rfl)
      (List.forall_mem_singleton.2 hpassed) _ List.mem_cons_self
  have hrow : ((m.store.db.mainId 1).bind fun id =>
      (m.store.db.header id).map HeaderRow.header) = some aheadFirst.header := by
    rw [hm]
    decide +kernel
  obtain ⟨id, hid, hr⟩ := Option.bind_eq_some_iff.1 hrow
  obtain ⟨r, hr, hheader⟩ := Option.map_eq_some_iff.1 hr
  have hbad := hall 1 id r hid hr
  rw [hheader] at hbad
  rcases hbad with hbad | hbad
  · exact absurd hbad (by decide +kernel)
  · have : (checkNotInFuture aheadFirst.header 1000 Sample.params).isOk = false := by decide +kernel
    have htime : m.lastTime (fun _ => 1000) = 1000 := rfl
    rw [show checkNotInFuture aheadFirst.header 1000 Sample.params = .ok () from hbad] at this
    cases this

end

end Node

end TalCash
