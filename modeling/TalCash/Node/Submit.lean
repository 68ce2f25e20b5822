import TalCash.Node.Orphans
/-!
# Submitting a block

`submitOne_rule` takes `_submit_one` apart once: what it answers without
storing the block, and why (`Unstored`), and the two places where the
block is kept. Adopting orphans never looks one up that is gone, and
ends; `submitBlock_rule` carries an invariant of the node through a whole
call by one obligation for each block that the call handles (`handled`).
-/

namespace TalCash

namespace Node

variable [Primitives] {params : NetworkParams} {clock : ℕ → ℤ} {n n' : Node} {b c : Block}
variable {id : Digest} {bs : List Block}

/-! ## One block -/

/-- The node after the clock was read. -/
def tick (n : Node) : Node := { n with clockReads := n.clockReads + 1 }

/-- The time that the next reading of the clock gives. -/
def now (clock : ℕ → ℤ) (n : Node) : ℤ := clock n.clockReads

/-- A block the node knows nothing of, above genesis. -/
structure New (n : Node) (b : Block) : Prop where
  row : n.store.db.header b.blockId = none
  orphan : n.orphans.lookup b.blockId = none
  height : b.height ≠ 0

/-- The checks of a block whose parent is stored, at this time. -/
def childChecks (params : NetworkParams) (clock : ℕ → ℤ) (n : Node) (b : Block)
    (parent : HeaderRow) : Except PyError Unit :=
  n.store.db.checkChild params (n.now clock) (n.powChecked.lookup b.blockId).isNone b parent

/-- What the checks of a block whose parent is stored demand. -/
structure ChildChecked (params : NetworkParams) (time : ℤ) (db : Db) (checkPow : Bool) (b : Block)
    (parent : HeaderRow) : Prop where
  notInFuture : checkNotInFuture b.header time params = .ok ()
  finality : db.checkFinality params parent.height (some parent) = .ok ()
  header : ∃ median, db.medianTimePast params parent.blockId = .ok median ∧
    checkHeaderAgainstParent b.header parent.header median (Db.expectedTarget params parent.header)
      params checkPow = .ok ()
  block : CheckedBlock params b

theorem checkChild_ok_iff {time : ℤ} {db : Db} {checkPow : Bool} {parent : HeaderRow} :
    db.checkChild params time checkPow b parent = .ok () ↔
      ChildChecked params time db checkPow b parent := by
  unfold Db.checkChild
  simp only [bind_eq_ok]
  constructor
  · rintro ⟨_, h1, _, h2, m, hm, _, h3, h4⟩
    exact ⟨h1, h2, ⟨m, hm, h3⟩, checkBlock_ok_iff.1 h4⟩
  · rintro ⟨h1, h2, ⟨m, hm, h3⟩, h4⟩
    exact ⟨(), h1, (), h2, m, hm, (), h3, checkBlock_ok_iff.2 h4⟩

/-- Why a block is answered without being kept. -/
inductive Unstored (params : NetworkParams) (clock : ℕ → ℤ) (n : Node) (b : Block) : Outcome → Prop
  | knownInvalid {r : HeaderRow} (row : n.store.db.header b.blockId = some r)
      (status : r.status = .invalid) : Unstored params clock n b .invalid
  | known {r : HeaderRow} (row : n.store.db.header b.blockId = some r)
      (status : r.status ≠ .invalid) : Unstored params clock n b .duplicate
  | waiting (row : n.store.db.header b.blockId = none)
      (orphan : (n.orphans.lookup b.blockId).isSome) : Unstored params clock n b .duplicate
  | genesis (row : n.store.db.header b.blockId = none)
      (orphan : n.orphans.lookup b.blockId = none) (height : b.height = 0) :
      Unstored params clock n b .invalid
  | badPow (new : New n b) (parent : n.store.db.header b.header.prevId = none)
      (pow : params.powLimit < b.header.target ∨ meetsTarget b.header params.pow = false) :
      Unstored params clock n b .invalid
  | badOrphan {v : ValidationError} (new : New n b) (parent : n.store.db.header b.header.prevId = none)
      (checks : Db.checkOrphan params (n.now clock) b = .error (.validation v)) :
      Unstored params clock n b .invalid
  | invalidParent {p : HeaderRow} (new : New n b)
      (parent : n.store.db.header b.header.prevId = some p) (status : p.status = .invalid) : Unstored params clock n b .invalid
  | badChild {p : HeaderRow} {v : ValidationError} (new : New n b)
      (parent : n.store.db.header b.header.prevId = some p) (status : p.status ≠ .invalid)
      (checks : childChecks params clock n b p = .error (.validation v)) :
      Unstored params clock n b .invalid

theorem Unstored.outcome {o : Outcome} (h : Unstored params clock n b o) :
    o = .invalid ∨ o = .duplicate := by
  cases h <;> simp

/-- A result that changed nothing on the active chain. -/
structure Quiet (r : SubmitResult) : Prop where
  connected : r.connected = []
  disconnected : r.disconnected = []

omit [Primitives] in
theorem wp_guarded {check : ChainM Unit} {rest : ChainM SubmitResult}
    {Q : SubmitResult → Node → Prop} {E : PyError → Node → Prop} :
    Exec.wp (guarded id check rest) Q E n ↔
      Exec.wp check (fun _ n' => Exec.wp rest Q E n')
        (fun e n' => match e with
          | .validation v => Q (rejected id v) n'
          | e => E e n') n := by
  unfold guarded
  rw [Exec.wp_bind, Exec.wp_attempt]
  constructor
  · refine fun h => h.mono (fun _ _ h => h) fun e n' h => ?_
    cases e <;> simpa only [Exec.wp_pure, Exec.wp_throw] using h
  · refine fun h => h.mono (fun _ _ h => h) fun e n' h => ?_
    cases e <;> simpa only [Exec.wp_pure, Exec.wp_throw] using h

theorem onlyInvalid_checkOrphan (time : ℤ) (b : Block) : OnlyInvalid (Db.checkOrphan params time b) :=
  (raises_checkNotInFuture rules_isInvalid _ _ _).bind fun _ _ =>
    raises_checkBlock rules_isInvalid _ _

/-- **What `_submit_one` does with a block**: it answers without keeping
it, holds it as an orphan, or accepts it as a child. -/
theorem submitOne_rule {Q : SubmitResult → Node → Prop} {E : PyError → Node → Prop}
    (hquiet : ∀ r n', Quiet r → n' = n ∨ n' = n.tick → Unstored params clock n b r.outcome → Q r n')
    (hheld : New n b → n.store.db.header b.header.prevId = none →
      b.header.target ≤ params.powLimit → meetsTarget b.header params.pow = true →
      Db.checkOrphan params (n.now clock) b = .ok () →
      Exec.wp (holdOrphan b) (fun _ => Q { outcome := .orphan, blockId := b.blockId }) E n.tick)
    (haccept : ∀ parent, New n b → n.store.db.header b.header.prevId = some parent →
      parent.status ≠ .invalid → childChecks params clock n b parent = .ok () →
      Exec.wp (acceptChild params b parent) Q E n.tick)
    (hraise : ∀ parent e, New n b → n.store.db.header b.header.prevId = some parent →
      parent.status ≠ .invalid → childChecks params clock n b parent = .error e → ¬ e.IsInvalid →
      E e n.tick) :
    Exec.wp (submitOne params clock b) Q E n := by
  have hanswer : ∀ r, Quiet r → Unstored params clock n b r.outcome →
      Exec.wp (pure r : ChainM SubmitResult) Q E n :=
    fun r hr hu => Exec.wp_pure.2 (hquiet r n hr (.inl rfl) hu)
  simp only [submitOne, Exec.wp_bind, Exec.wp_get]
  cases hrow : n.store.db.header b.blockId with
  | some row =>
    dsimp only
    rw [Exec.wp_ite]
    exact ⟨fun hs => hanswer _ ⟨rfl, rfl⟩ (.knownInvalid hrow hs),
      fun hs => hanswer _ ⟨rfl, rfl⟩ (.known hrow hs)⟩
  | none =>
    dsimp only
    rw [Exec.wp_ite]
    refine ⟨fun ho => hanswer _ ⟨rfl, rfl⟩ (.waiting hrow ho), fun ho => ?_⟩
    have horphan : n.orphans.lookup b.blockId = none := by simpa using ho
    rw [Exec.wp_ite]
    refine ⟨fun hh => hanswer _ ⟨rfl, rfl⟩ (.genesis hrow horphan hh), fun hh => ?_⟩
    have hnew : New n b := ⟨hrow, horphan, hh⟩
    cases hparent : n.store.db.header b.header.prevId with
    | none =>
      simp only [submitOrphan]
      rw [Exec.wp_ite]
      refine ⟨fun hp => hanswer _ ⟨rfl, rfl⟩ (.badPow hnew hparent hp), fun hp => ?_⟩
      rw [not_or, not_lt, Bool.not_eq_false] at hp
      simp only [wp_guarded, readClock, Exec.wp_bind, Exec.wp_get, Exec.wp_set, Exec.wp_pure,
        Exec.wp_lift]
      refine ⟨fun _ hc => hheld hnew hparent hp.1 hp.2 hc, fun e hc => ?_⟩
      obtain ⟨v, rfl⟩ := onlyInvalid_checkOrphan _ b e hc
      exact hquiet _ _ ⟨rfl, rfl⟩ (.inr rfl) (.badOrphan hnew hparent hc)
    | some parent =>
      dsimp only
      rw [Exec.wp_ite]
      refine ⟨fun hs => hanswer _ ⟨rfl, rfl⟩ (.invalidParent hnew hparent hs),
        fun hs => ?_⟩
      simp only [wp_guarded, checkChild, readClock, Exec.wp_bind, Exec.wp_get, Exec.wp_set,
        Exec.wp_pure, Exec.wp_lift]
      refine ⟨fun _ hc => haccept parent hnew hparent hs hc, fun e hc => ?_⟩
      by_cases hi : e.IsInvalid
      · obtain ⟨v, rfl⟩ := hi
        exact hquiet _ _ ⟨rfl, rfl⟩ (.inr rfl) (.badChild hnew hparent hs hc)
      · have hE := hraise parent e hnew hparent hs hc hi
        cases e with
        | validation v => exact absurd ⟨v, rfl⟩ hi
        | _ => exact hE

/-! ## What a block does to the pool -/

/-- The orphans are the same. -/
structure SamePool (n n' : Node) : Prop where
  orphans : n'.orphans = n.orphans
  bytes : n'.orphanBytes = n.orphanBytes

theorem SamePool.pool (h : SamePool n n') (hp : Pool n) : Pool n' :=
  ⟨fun id b hb => hp.keyed id b (h.orphans ▸ hb), by rw [h.bytes, h.orphans]; exact hp.bytes,
    by rw [h.orphans]; exact hp.count_le, by rw [h.bytes]; exact hp.bytes_le⟩

/-- The block is stored now, as the tip or on a side branch. -/
def Arrived (r : SubmitResult) : Prop := r.outcome = .newTip ∨ r.outcome = .sideBranch

omit [Primitives] in
/-- An operation on the store changes the store only. -/
theorem onStore_onlyStore {α : Type} (x : StoreM α) (n : Node) :
    Exec.wp (onStore x) (fun _ n' => n' = { n with store := n'.store })
      (fun _ n' => n' = { n with store := n'.store }) n := by
  rw [onStore, Exec.wp_zoom]
  unfold Exec.wp
  split <;> rfl

/-- Accepting a child changes the store only. -/
theorem acceptChild_onlyStore (parent : HeaderRow) :
    Exec.wp (acceptChild params b parent) (fun _ n' => n' = { n with store := n'.store })
      (fun _ n' => n' = { n with store := n'.store }) n := by
  have htrans : ∀ {n n' n'' : Node}, n' = { n with store := n'.store } →
      n'' = { n' with store := n''.store } → n'' = { n with store := n''.store } := by
    intro n n' n'' h h'
    rw [h', h]
  simp only [acceptChild, Exec.wp_bind, Exec.wp_get, Exec.wp_lift]
  refine (onStore_onlyStore _ n).mono (fun _ n₁ h₁ => ⟨fun tip _ => ?_, fun _ _ => h₁⟩) fun _ _ h => h
  rw [Exec.wp_ite]
  exact ⟨fun _ => (onStore_onlyStore _ n₁).mono (fun _ _ h => htrans h₁ h) fun _ _ h => htrans h₁ h,
    fun _ => Exec.wp_pure.2 h₁⟩

theorem CheckedBlock.size_le_orphans (h : CheckedBlock params b) : b.size ≤ MAX_ORPHAN_BYTES := by
  have := h.size_le
  have := params.maxBlockSize_le
  unfold MAX_ORPHAN_BYTES
  omega

theorem checkOrphan_ok_iff {time : ℤ} : Db.checkOrphan params time b = .ok () ↔
    checkNotInFuture b.header time params = .ok () ∧ CheckedBlock params b := by
  rw [← checkBlock_ok_iff]
  unfold Db.checkOrphan
  rw [bind_eq_ok]
  exact ⟨fun ⟨(), h, h'⟩ => ⟨h, h'⟩, fun ⟨h, h'⟩ => ⟨(), h, h'⟩⟩

/-- A block leaves the orphans as they are, or is held. -/
theorem submitOne_pool (h : Pool n) :
    Exec.wp (submitOne params clock b)
      (fun r n' => SamePool n n' ∧ (Arrived r → n.orphans.lookup b.blockId = none) ∨
        r.outcome = .orphan ∧ Held b n.tick n')
      (fun _ n' => SamePool n n') n := by
  have hpool : Pool n.tick := SamePool.pool (n := n) ⟨rfl, rfl⟩ h
  refine submitOne_rule ?_ ?_ ?_ ?_
  · intro r n' _ hn' hu
    refine Or.inl ⟨?_, fun ha => ?_⟩
    · rcases hn' with rfl | rfl <;> exact ⟨rfl, rfl⟩
    · rcases hu.outcome with ho | ho <;> rcases ha with ha | ha <;> rw [ho] at ha <;> cases ha
  · intro hnew _ _ _ hc
    refine (holdOrphan_spec hpool hnew.orphan
      (CheckedBlock.size_le_orphans (checkOrphan_ok_iff.1 hc).2)).mono ?_ fun _ _ h => h.elim
    exact fun _ n' hh => Or.inr ⟨rfl, hh⟩
  · intro parent hnew _ _ _
    refine (acceptChild_onlyStore parent).mono (fun r n' hn' => Or.inl ⟨?_, fun _ => hnew.orphan⟩)
      fun e n' hn' => ?_ <;> rw [hn'] <;> exact ⟨rfl, rfl⟩
  · intro _ _ _ _ _ _ _
    exact ⟨rfl, rfl⟩

/-! ## The blocks a call handles -/

/-- The result so far with what one more block changed. -/
def addResult (result childResult : SubmitResult) : SubmitResult :=
  { result with
    connected := result.connected ++ childResult.connected
    disconnected := result.disconnected ++ childResult.disconnected }

variable (params clock) in
/-- The blocks that `adoptChildren` handles, each with the node that finds
it. -/
def adoptedChildren : List Block → SubmitResult → List Digest → Node → List (Node × Block)
  | [], _, _, _ => []
  | child :: rest, result, waiting, n =>
    (n.without child, child) ::
      match adoptChildren params clock [child] result waiting n with
      | .ok (result, waiting) n' => adoptedChildren rest result waiting n'
      | .error _ _ => []

variable (params clock) in
/-- The blocks that `adoptOrphans` handles. -/
def adopted : (steps : ℕ) → List Digest → SubmitResult → Node → List (Node × Block)
  | 0, _, _, _ => []
  | _, [], _, _ => []
  | steps + 1, current :: waiting, result, n =>
    adoptedChildren params clock (orphansOf current n) result waiting n ++
      match adoptChildren params clock (orphansOf current n) result waiting n with
      | .ok (result, waiting) n' => adopted steps waiting result n'
      | .error _ _ => []

variable (params clock) in
/-- The blocks that `submitBlock` handles: the one submitted and the
orphans it lets in, each with the node that finds it. -/
def handled (block : Block) (n : Node) : List (Node × Block) :=
  (n, block) ::
    match submitOne params clock block n with
    | .ok result n' =>
      match result.outcome with
      | .newTip | .sideBranch =>
        adopted params clock (n'.orphans.entries.length + 1) [block.blockId] result n'
      | _ => []
    | .error _ _ => []

theorem adoptChildren_cons (child : Block) (rest : List Block) (result : SubmitResult)
    (waiting : List Digest) :
    adoptChildren params clock (child :: rest) result waiting =
      adoptChildren params clock [child] result waiting >>= fun x =>
        adoptChildren params clock rest x.1 x.2 := by
  simp only [adoptChildren, bind_assoc]
  congr 1
  funext _
  congr 1
  funext r
  cases r.outcome <;> simp only [bind_assoc, pure_bind]

/-! ## Adopting orphans -/

/-- What has to be shown after one block for an invariant over the
children still to be handled, the blocks whose orphans wait, the result so
far and the node: the block arrived, or what waits for it is dropped, or
neither. -/
def After (I : List Block → List Digest → SubmitResult → Node → Prop) (block : Block)
    (rest : List Block) (waiting : List Digest) (result : SubmitResult) (outcome : Outcome)
    (n : Node) : Prop :=
  match outcome with
  | .newTip | .sideBranch => I rest (block.blockId :: waiting) result n
  | .invalid => ∀ n', Dropped [block.blockId] n n' → I rest waiting result n'
  | _ => I rest waiting result n

/-- The obligations for carrying an invariant through the adoption of
orphans, where every block handled meets the condition `C`. -/
structure Adopts (params : NetworkParams) (clock : ℕ → ℤ) (C : Node → Block → Prop)
    (I : List Block → List Digest → SubmitResult → Node → Prop) (E : PyError → Node → Prop) :
    Prop where
  next : ∀ {current waiting result n}, Pool n → I [] (current :: waiting) result n →
    I (orphansOf current n) waiting result n
  child : ∀ {child rest waiting result n}, Pool n →
    n.orphans.lookup child.blockId = some child → C (n.without child) child →
    I (child :: rest) waiting result n →
    Exec.wp (submitOne params clock child)
      (fun r n' => After I child rest waiting (addResult result r) r.outcome n') E (n.without child)

/-- The pool while children are handled: those to come are in it, and no
block that arrived is. -/
structure Adopting (current : Digest) (children : List Block) (waiting : List Digest) (n : Node) :
    Prop where
  pool : Pool n
  nodup : (children.map Block.blockId).Nodup
  children : ∀ c ∈ children, n.orphans.lookup c.blockId = some c ∧ c.header.prevId = current
  current : n.orphans.lookup current = none
  waiting : ∀ w ∈ waiting, n.orphans.lookup w = none

namespace Adopting

variable {current : Digest} {child : Block} {rest : List Block} {waiting : List Digest}

theorem child_ne (h : Adopting current (child :: rest) waiting n) (hc : c ∈ rest) :
    c.blockId ≠ child.blockId := by
  intro he
  have := h.nodup
  rw [List.map_cons, List.nodup_cons] at this
  exact this.1 (he ▸ List.mem_map_of_mem hc)

theorem lookup_child (h : Adopting current (child :: rest) waiting n) :
    n.orphans.lookup child.blockId = some child := (h.children child List.mem_cons_self).1

theorem ne_child {w : Digest} (h : Adopting current (child :: rest) waiting n)
    (hw : n.orphans.lookup w = none) : w ≠ child.blockId := by
  rintro rfl
  rw [h.lookup_child] at hw
  cases hw

/-- What handling a child leaves of the pool, where only this child may be
held again. -/
theorem step (h : Adopting current (child :: rest) waiting n) (hp : Pool n')
    (hk : ∀ id, id ≠ child.blockId → n'.orphans.lookup id = n.orphans.lookup id) :
    Adopting current rest waiting n' := by
  have hnodup := h.nodup
  rw [List.map_cons, List.nodup_cons] at hnodup
  refine ⟨hp, hnodup.2, fun c hc => ?_, ?_, fun w hw => ?_⟩
  · rw [hk _ (h.child_ne hc)]
    exact h.children c (List.mem_cons_of_mem _ hc)
  · rw [hk _ (h.ne_child h.current)]
    exact h.current
  · rw [hk _ (h.ne_child (h.waiting w hw))]
    exact h.waiting w hw

/-- The siblings of a child are not dropped with those that wait for it. -/
theorem dropped (h : Adopting current rest waiting n) (hne : child.blockId ≠ current)
    (hc : child.blockId ∉ rest.map Block.blockId) (hd : Dropped [child.blockId] n n') :
    Adopting current rest waiting n' := by
  have hnone : ∀ {w}, n.orphans.lookup w = none → n'.orphans.lookup w = none := by
    intro w hw
    cases hl : n'.orphans.lookup w with
    | none => rfl
    | some b =>
      have := hd.sub w b hl
      rw [hw] at this
      cases this
  refine ⟨hd.pool, h.nodup, fun c hcm => ?_, hnone h.current, fun w hw => hnone (h.waiting w hw)⟩
  obtain ⟨hlook, hprev⟩ := h.children c hcm
  refine ⟨hd.kept (fun x => x ∉ rest.map Block.blockId ∧ x ≠ current) (fun p hp => ?_)
    (fun id b hb hP => ?_) _ c hlook fun hP => hP.2 hprev, hprev⟩
  · rw [List.mem_singleton.1 hp]
    exact ⟨hc, hne⟩
  · refine ⟨fun hm => ?_, fun he => ?_⟩
    · obtain ⟨d, hd', hid⟩ := List.mem_map.1 hm
      obtain ⟨hdl, hdp⟩ := h.children d hd'
      rw [hid, hb, Option.some.injEq] at hdl
      exact hP.2 (by rw [hdl]; exact hdp)
    · rw [he, h.current] at hb
      cases hb

end Adopting

section Rule

variable {C : Node → Block → Prop} {I : List Block → List Digest → SubmitResult → Node → Prop}
variable {E : PyError → Node → Prop} {current : Digest}

/-- One child. -/
theorem Adopts.adoptChild (hA : Adopts params clock C I E) {child : Block} {rest : List Block}
    {waiting : List Digest} {result : SubmitResult} (h : Adopting current (child :: rest) waiting n)
    (hC : C (n.without child) child) (hI : I (child :: rest) waiting result n) :
    Exec.wp (adoptChildren params clock [child] result waiting)
      (fun x n' => I rest x.2 x.1 n' ∧ Adopting current rest x.2 n' ∧
        n'.orphans.entries.length + x.2.length ≤ n.orphans.entries.length + waiting.length)
      (fun e n' => E e n' ∧ Pool n') n := by
  have hlook := h.lookup_child
  have hlen := length_without hlook
  have hnodup := h.nodup
  rw [List.map_cons, List.nodup_cons] at hnodup
  have hne : child.blockId ≠ current := (h.ne_child h.current).symm
  simp only [adoptChildren, Exec.wp_bind]
  rw [Exec.wp_ok (forgetOrphan_eq hlook)]
  refine ((hA.child h.pool hlook hC hI).and (submitOne_pool (h.pool.without hlook))).mono ?_
    fun _ _ he => ⟨he.1, he.2.pool (h.pool.without hlook)⟩
  rintro r n₁ ⟨hafter, hpool⟩
  have hkeep : Pool n₁ ∧ (∀ id, id ≠ child.blockId → n₁.orphans.lookup id = n.orphans.lookup id) ∧
      (r.outcome ≠ .orphan → n₁.orphans.lookup child.blockId = none ∧
        n₁.orphans.entries.length + 1 = n.orphans.entries.length) ∧
      n₁.orphans.entries.length ≤ n.orphans.entries.length := by
    rcases hpool with ⟨hs, -⟩ | ⟨ho, hheld⟩
    · refine ⟨hs.pool (h.pool.without hlook), fun id hid => ?_, fun _ => ⟨?_, ?_⟩, ?_⟩
      · rw [hs.orphans, lookup_without, if_neg hid]
      · rw [hs.orphans, lookup_without, if_pos rfl]
      · rw [hs.orphans]; exact hlen
      · rw [hs.orphans]; omega
    · have hroom : Room (n.without child).tick child := h.pool.room_without hlook
      refine ⟨hheld.pool, fun id hid => ?_, fun hno => absurd ho hno, ?_⟩
      · rw [hheld.room hroom id hid]
        exact lookup_without.trans (if_neg hid)
      · have := hheld.length_le hroom
        change n₁.orphans.entries.length ≤ (n.without child).orphans.entries.length + 1 at this
        omega
  obtain ⟨hp₁, hk, hgone, hle⟩ := hkeep
  have hstep := h.step hp₁ hk
  have harrived : ∀ {w}, r.outcome ≠ .orphan → w ∈ child.blockId :: waiting →
      n₁.orphans.lookup w = none := by
    intro w ho hw
    rcases List.mem_cons.1 hw with rfl | hw
    · exact (hgone ho).1
    · exact hstep.waiting w hw
  unfold After at hafter
  cases ho : r.outcome with
  | newTip =>
    rw [ho] at hafter
    have hno : r.outcome ≠ .orphan := by rw [ho]; exact Outcome.noConfusion
    have := (hgone hno).2
    exact Exec.wp_pure.2 ⟨hafter, ⟨hp₁, hstep.nodup, hstep.children, hstep.current,
      fun w => harrived hno⟩, by
      rw [List.length_cons]; omega⟩
  | sideBranch =>
    rw [ho] at hafter
    have hno : r.outcome ≠ .orphan := by rw [ho]; exact Outcome.noConfusion
    have := (hgone hno).2
    exact Exec.wp_pure.2 ⟨hafter, ⟨hp₁, hstep.nodup, hstep.children, hstep.current,
      fun w => harrived hno⟩, by
      rw [List.length_cons]; omega⟩
  | invalid =>
    rw [ho] at hafter
    simp only [Exec.wp_bind, Exec.wp_get]
    refine (dropOrphansOf_spec _ [child.blockId] hp₁ le_rfl).mono ?_ fun _ _ h => h.elim
    intro _ n₂ hd
    exact Exec.wp_pure.2 ⟨hafter n₂ hd, hstep.dropped hne hnodup.1 hd,
      Nat.add_le_add_right (hd.length_le.trans hle) _⟩
  | duplicate =>
    rw [ho] at hafter
    exact Exec.wp_pure.2 ⟨hafter, hstep, Nat.add_le_add_right hle _⟩
  | orphan =>
    rw [ho] at hafter
    exact Exec.wp_pure.2 ⟨hafter, hstep, Nat.add_le_add_right hle _⟩

/-- The children of a block. -/
theorem Adopts.adoptChildren (hA : Adopts params clock C I E) : ∀ (children : List Block)
    {waiting : List Digest} {result : SubmitResult} {n : Node},
    Adopting current children waiting n →
    (∀ p ∈ adoptedChildren params clock children result waiting n, C p.1 p.2) →
    I children waiting result n →
    Exec.wp (adoptChildren params clock children result waiting)
      (fun x n' => I [] x.2 x.1 n' ∧ Adopting current [] x.2 n' ∧
        n'.orphans.entries.length + x.2.length ≤ n.orphans.entries.length + waiting.length)
      (fun e n' => E e n' ∧ Pool n') n
  | [], _, _, _, h, _, hI => Exec.wp_pure.2 ⟨hI, h, le_rfl⟩
  | child :: rest, waiting, result, n, h, hC, hI => by
    rw [adoptedChildren, List.forall_mem_cons] at hC
    have hone := hA.adoptChild h hC.1 hI
    rw [adoptChildren_cons, Exec.wp_bind]
    cases hx : Node.adoptChildren params clock [child] result waiting n with
    | ok x n₁ =>
      obtain ⟨hI₁, h₁, hle⟩ := hone.ok hx
      rw [Exec.wp_ok hx]
      have hC₁ := hC.2
      rw [hx] at hC₁
      refine (hA.adoptChildren rest h₁ hC₁ hI₁).mono ?_ fun _ _ h => h
      rintro y n₂ ⟨hI₂, h₂, hle₂⟩
      exact ⟨hI₂, h₂, hle₂.trans hle⟩
    | error e n₁ =>
      rw [Exec.wp_error hx]
      exact hone.error hx

/-- **Adopting orphans** ends, and looks up only orphans that are there. -/
theorem Adopts.adoptOrphans (hA : Adopts params clock C I E) : ∀ (steps : ℕ) {waiting : List Digest}
    {result : SubmitResult} {n : Node}, Pool n → (∀ w ∈ waiting, n.orphans.lookup w = none) →
    n.orphans.entries.length + waiting.length ≤ steps →
    (∀ p ∈ adopted params clock steps waiting result n, C p.1 p.2) →
    I [] waiting result n →
    Exec.wp (adoptOrphans params clock steps waiting result)
      (fun result' n' => I [] [] result' n' ∧ Pool n') (fun e n' => E e n' ∧ Pool n') n
  | steps, [], result, n, hp, _, _, _, hI => by
    unfold Node.adoptOrphans
    exact Exec.wp_pure.2 ⟨hI, hp⟩
  | 0, _ :: _, _, n, _, _, hs, _, _ => by
    rw [List.length_cons] at hs
    omega
  | steps + 1, current :: waiting, result, n, hp, hw, hs, hC, hI => by
    rw [List.length_cons] at hs
    obtain ⟨hcur, hw⟩ := List.forall_mem_cons.1 hw
    have hadopting : Adopting current (orphansOf current n) waiting n :=
      ⟨hp, orphansOf_nodup hp current, fun c hc => (mem_orphansOf hp).1 hc, hcur, hw⟩
    rw [adopted, List.forall_mem_append] at hC
    have hall := hA.adoptChildren _ hadopting hC.1 (hA.next hp hI)
    simp only [Node.adoptOrphans, Exec.wp_bind, Exec.wp_get]
    cases hx : Node.adoptChildren params clock (orphansOf current n) result waiting n with
    | ok x n₁ =>
      obtain ⟨hI₁, h₁, hle⟩ := hall.ok hx
      rw [Exec.wp_ok hx]
      have hC₁ := hC.2
      rw [hx] at hC₁
      exact hA.adoptOrphans steps h₁.pool h₁.waiting (by omega) hC₁ hI₁
    | error e n₁ =>
      rw [Exec.wp_error hx]
      exact hall.error hx

/-- **Submitting a block**: an invariant holds after the call that holds
after each block it handles. -/
theorem Adopts.submitBlock (hA : Adopts params clock C I E) (hp : Pool n)
    (hC : ∀ p ∈ handled params clock b n, C p.1 p.2)
    (hfirst : C n b → Exec.wp (submitOne params clock b)
      (fun r n' => After I b [] [] r r.outcome n') E n) :
    Exec.wp (submitBlock params clock b) (fun r n' => I [] [] r n' ∧ Pool n')
      (fun e n' => E e n' ∧ Pool n') n := by
  rw [handled, List.forall_mem_cons] at hC
  have hone := (hfirst hC.1).and (submitOne_pool hp)
  rw [Node.submitBlock, Exec.wp_bind]
  cases hx : submitOne params clock b n with
  | error e n₁ =>
    rw [Exec.wp_error hx]
    exact ⟨(hone.error hx).1, (hone.error hx).2.pool hp⟩
  | ok r n₁ =>
    obtain ⟨hafter, hpool⟩ := hone.ok hx
    have hC₁ := hC.2
    rw [hx] at hC₁
    have hp₁ : Pool n₁ := by
      rcases hpool with ⟨hs, -⟩ | ⟨-, hheld⟩
      · exact hs.pool hp
      · exact hheld.pool
    have hgone : Arrived r → n₁.orphans.lookup b.blockId = none := by
      intro ha
      rcases hpool with ⟨hs, hnone⟩ | ⟨ho, -⟩
      · rw [hs.orphans]; exact hnone ha
      · rcases ha with ha | ha <;> rw [ho] at ha <;> cases ha
    rw [Exec.wp_ok hx, Exec.wp_bind, Exec.wp_get]
    unfold After at hafter
    cases ho : r.outcome with
    | newTip =>
      simp only [ho] at hafter hC₁ ⊢
      exact hA.adoptOrphans _ hp₁ (fun w hw => by
        rw [List.mem_singleton.1 hw]; exact hgone (.inl ho)) le_rfl hC₁ hafter
    | sideBranch =>
      simp only [ho] at hafter hC₁ ⊢
      exact hA.adoptOrphans _ hp₁ (fun w hw => by
        rw [List.mem_singleton.1 hw]; exact hgone (.inr ho)) le_rfl hC₁ hafter
    | invalid =>
      simp only [ho] at hafter ⊢
      rw [Exec.wp_bind]
      refine (dropOrphansOf_spec _ [b.blockId] hp₁ le_rfl).mono ?_ fun _ _ h => h.elim
      exact fun _ n₂ hd => Exec.wp_pure.2 ⟨hafter n₂ hd, hd.pool⟩
    | duplicate =>
      simp only [ho] at hafter ⊢
      exact Exec.wp_pure.2 ⟨hafter, hp₁⟩
    | orphan =>
      simp only [ho] at hafter ⊢
      exact Exec.wp_pure.2 ⟨hafter, hp₁⟩

/-- An invariant of the node that does not look at the orphans, kept by
every block handled, whatever its answer, is kept by the call. -/
theorem submitBlock_invariant {P : Node → Prop} (hp : Pool n)
    (horphans : ∀ {n n' : Node}, OnlyOrphans n n' → P n → P n')
    (hone : ∀ {b : Block} {n : Node}, Pool n → C n b → P n →
      Exec.wp (submitOne params clock b) (fun _ n' => P n') (fun _ n' => P n') n)
    (hC : ∀ p ∈ handled params clock b n, C p.1 p.2) (h : P n) :
    Exec.wp (submitBlock params clock b) (fun _ n' => P n' ∧ Pool n') (fun _ n' => P n' ∧ Pool n')
      n := by
  have hafter : ∀ {b : Block} {rest waiting result o} {n : Node}, P n →
      After (fun _ _ _ n => P n) b rest waiting result o n := by
    intro b rest waiting result o n hn
    cases o with
    | invalid => exact fun n' hd => horphans hd.rest hn
    | _ => exact hn
  have hA : Adopts params clock C (fun _ _ _ n => P n) fun _ n => P n := by
    refine ⟨fun _ h => h, fun {child rest waiting result n} hp hl hc hn => ?_⟩
    exact (hone (hp.without hl) hc (horphans (onlyOrphans_without n child) hn)).mono
      (fun _ _ h => hafter h) fun _ _ h => h
  exact hA.submitBlock hp hC fun hc => (hone hp hc h).mono (fun _ _ h => hafter h) fun _ _ h => h

end Rule

end Node

end TalCash
