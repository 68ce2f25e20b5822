import TalCash.Core.Sample
import TalCash.Node.Keeping
/-!
# When submitting a block raises

A row whose parent was deleted when a chunk was sealed dangles: the walk
of `checkFinality` from it, above the finalized height, meets no row. That
is all that raises (`submitBlock_returns_iff`), where the blocks are
`Regular`.
-/

namespace TalCash

open BlockFiles Ledger

section

variable [Primitives] {params : NetworkParams} {B : Set Block} {s s' : Store}
variable {L : Ledger} {r : HeaderRow} {id : Digest}

/-- The walk of the finality check from a row meets a row above the
finalized height whose parent is not stored. -/
inductive Dangling (params : NetworkParams) (db : Db) : HeaderRow → Prop
  | here {r : HeaderRow} (off : db.isOnMainChain r.blockId = false)
      (above : db.finalizedHeight params < r.height) (gone : db.header r.header.prevId = none) :
      Dangling params db r
  | up {r p : HeaderRow} (off : db.isOnMainChain r.blockId = false)
      (above : db.finalizedHeight params < r.height) (parent : db.header r.header.prevId = some p)
      (dangling : Dangling params db p) : Dangling params db r

/-- One step of the finality check above the finalized height. -/
theorem checkFinality_off {db : Db} (hoff : db.isOnMainChain r.blockId = false)
    (habove : db.finalizedHeight params < r.height) (steps : ℕ) :
    db.checkFinality params (steps + 1) (some r) =
      db.checkFinality params steps (db.header r.header.prevId) := by
  rw [Db.checkFinality, if_neg (by rw [hoff]; exact Bool.false_ne_true),
    if_neg (Nat.not_le_of_lt habove)]

/-- The finality check of a row that dangles raises. -/
theorem Dangling.raises {db : Db} (h : Dangling params db r) : ∀ steps : ℕ,
    ∃ e, db.checkFinality params steps (some r) = .error e ∧ ¬ e.IsInvalid := by
  have hplain : ∀ {e : PyError}, (∀ v, e ≠ .validation v) → ¬ e.IsInvalid :=
    fun h he => he.elim h
  have hzero : ∀ {r : HeaderRow}, db.isOnMainChain r.blockId = false →
      db.finalizedHeight params < r.height →
        db.checkFinality params 0 (some r) = .error .diverged := by
    intro r hoff habove
    unfold Db.checkFinality
    dsimp only
    rw [if_neg (by rw [hoff]; exact Bool.false_ne_true), if_neg (Nat.not_le_of_lt habove)]
  induction h with
  | here hoff habove hgone =>
    rintro (_ | steps)
    · exact ⟨_, hzero hoff habove, hplain fun _ h => by cases h⟩
    · rw [checkFinality_off hoff habove, hgone, Db.checkFinality]
      exact ⟨_, rfl, hplain fun _ h => by cases h⟩
  | up hoff habove hp _ ih =>
    rintro (_ | steps)
    · exact ⟨_, hzero hoff habove, hplain fun _ h => by cases h⟩
    · rw [checkFinality_off hoff habove, hp]
      exact ih steps

/-- From any other row it returns or rejects. -/
theorem onlyInvalid_checkFinality_of_not_dangling {db : Db} (hg : Graded db) : ∀ (steps : ℕ)
    {r : HeaderRow} {id : Digest}, db.headers.lookup id = some r → r.height ≤ steps →
      ¬ Dangling params db r → OnlyInvalid (db.checkFinality params steps (some r))
  | steps, r, id, hr, hs, hd => by
    cases hoff : db.isOnMainChain r.blockId with
    | true => exact onlyInvalid_checkFinality (.on hoff) (Nat.zero_le _)
    | false =>
      by_cases habove : r.height ≤ db.finalizedHeight params
      · unfold Db.checkFinality
        dsimp only
        rw [if_neg (by rw [hoff]; exact Bool.false_ne_true), if_pos habove]
        exact .invalid ⟨_, rfl⟩
      · have habove := Nat.lt_of_not_le habove
        cases steps with
        | zero => omega
        | succ steps =>
          rw [checkFinality_off hoff habove]
          cases hp : db.header r.header.prevId with
          | none => exact absurd (.here hoff habove hp) hd
          | some p =>
            have := hg id r p hr hp
            exact onlyInvalid_checkFinality_of_not_dangling hg steps hp (by omega)
              fun h => hd (.up hoff habove hp h)

/-- Blocks whose heights are in bounds are regular. -/
theorem regular_of_height (hS : CollisionFree (messagesOf B))
    (hid : ∀ b ∈ B, b.blockId ≠ zeroBytes 32) (hg : genesisBlock params ∈ B)
    (hh : ∀ b ∈ B, b.height + 1 < (256 ^ 4 + 1) * params.chunkSize + params.finalityDepth) :
    Regular params B := by
  refine ⟨hS, hid, hg, fun h work ha => ?_⟩
  obtain ⟨b, hb, rfl⟩ := ha.mem hg
  exact hh b hb

namespace Node

variable {clock : ℕ → ℤ} {n n' : Node} {b : Block} {p : HeaderRow} {blocks : List Block}

/-- The ancestors of the block lead nowhere: it is new, not ahead of the
clock, and the row of its parent dangles. -/
def Stranded (params : NetworkParams) (clock : ℕ → ℤ) (n : Node) (b : Block) : Prop :=
  New n b ∧ checkNotInFuture b.header (n.now clock) params = .ok () ∧
    ∃ p, n.store.db.header b.header.prevId = some p ∧ p.status ≠ .invalid ∧
      Dangling params n.store.db p

/-- The checks of a block that is not stranded return or reject. -/
theorem onlyInvalid_childChecks (hB : Regular params B) (h : Sound params B n.store L)
    (hnew : New n b) (hp : n.store.db.header b.header.prevId = some p) (hs : p.status ≠ .invalid)
    (hb : ¬ Stranded params clock n b) : OnlyInvalid (childChecks params clock n b p) := by
  have hid : p.blockId = b.header.prevId := h.good.keyed _ _ hp
  unfold childChecks Db.checkChild
  refine (raises_checkNotInFuture rules_isInvalid _ _ _).bind fun _ hnow => ?_
  refine Raises.bind (onlyInvalid_checkFinality_of_not_dangling (h.rows.graded hB h.good.keyed) _
    hp le_rfl fun hd => hb ⟨hnew, hnow, p, hp, hs, hd⟩) fun _ _ => ?_
  have hmedian : ∃ t, n.store.db.medianTimePast params p.blockId = .ok t := by
    refine medianTimePast_isOk ?_
    obtain ⟨k, hk⟩ := Nat.exists_eq_succ_of_ne_zero (Nat.ne_of_gt params.medianTimeSpan_pos)
    rw [hk, hid, hp, Db.recentTimestamps]
    exact List.cons_ne_nil _ _
  obtain ⟨t, ht⟩ := hmedian
  rw [ht]
  exact Raises.bind (.ok t) fun _ _ =>
    (raises_checkHeaderAgainstParent rules_isInvalid _ _ _ _ _ _).bind fun _ _ =>
      raises_checkBlock rules_isInvalid _ _

/-- **A block that is not stranded is answered.** -/
theorem submitOne_returns (hB : Regular params B) (h : SoundNode params B n) (hp : Pool n)
    (hb : b ∈ B) (hs : ¬ Stranded params clock n b) :
    Exec.wp (submitOne params clock b) (fun _ n' => SoundNode params B n') (fun _ _ => False) n := by
  refine submitOne_rule ?_ ?_ ?_ ?_
  · rintro r n' - (rfl | rfl) -
    exacts [h, h]
  · intro hnew _ _ _ hchecks
    refine (holdOrphan_spec (n := n.tick) (SamePool.pool (n := n) ⟨rfl, rfl⟩ hp) hnew.orphan
      (CheckedBlock.size_le_orphans (checkOrphan_ok_iff.1 hchecks).2)).mono ?_ fun _ _ h => h.elim
    exact fun _ n' hheld => h.onlyOrphans (n := n.tick) hheld.rest
  · intro p hnew hparent _ hchecks
    obtain ⟨L, hs, hf⟩ := h
    exact (acceptChild_spec (n := n.tick) rfl hs hf
      (ChildChecked.child (n := n) hnew.row hparent hb hchecks)).mono (fun _ _ h => h.sound)
      fun _ _ h => h.2 hB
  · intro p e hnew hparent hstatus hchecks hno
    obtain ⟨L, hsound, -⟩ := h
    exact hno (onlyInvalid_childChecks hB hsound hnew hparent hstatus hs e hchecks)

/-- A stranded block is not answered. -/
theorem Stranded.raises (h : Stranded params clock n b) :
    Exec.wp (submitOne params clock b) (fun _ _ => False) (fun _ _ => True) n := by
  obtain ⟨hnew, hnow, p, hp, hs, hd⟩ := h
  have hraise : ∃ e, childChecks params clock n b p = .error e ∧ ¬ e.IsInvalid := by
    obtain ⟨e, he, hno⟩ := hd.raises p.height
    refine ⟨e, ?_, hno⟩
    unfold childChecks Db.checkChild
    rw [hnow]
    exact bind_eq_error.2 (.inr ⟨(), rfl, bind_eq_error.2 (.inl he)⟩)
  obtain ⟨e, he, hno⟩ := hraise
  refine submitOne_rule ?_ ?_ ?_ fun _ _ _ _ _ _ _ => trivial
  · intro res n' _ _ hu
    generalize res.outcome = o at hu
    cases hu with
    | knownInvalid hr _ => rw [hnew.row] at hr; cases hr
    | known hr _ => rw [hnew.row] at hr; cases hr
    | waiting _ ho => rw [hnew.orphan] at ho; cases ho
    | genesis _ _ hh => exact hnew.height hh
    | badPow _ hn _ => rw [hp] at hn; cases hn
    | badOrphan _ hn _ => rw [hp] at hn; cases hn
    | invalidParent _ hq hi =>
      rw [hp, Option.some.injEq] at hq
      exact hs (hq ▸ hi)
    | badChild _ hq _ hc =>
      rw [hp, Option.some.injEq] at hq
      rw [← hq, he] at hc
      cases hc
      exact hno ⟨_, rfl⟩
  · intro _ hn
    rw [hp] at hn
    cases hn
  · intro q _ hq _ hc
    rw [hp, Option.some.injEq] at hq
    rw [← hq, he] at hc
    cases hc

/-! ## What was handled was answered -/

/-- The call returns. -/
def Returns {α : Type} (x : ChainM α) (n : Node) : Prop := ∃ a n', x n = .ok a n'

omit [Primitives] in
theorem returns_iff {α : Type} {x : ChainM α} :
    Returns x n ↔ Exec.wp x (fun _ _ => True) (fun _ _ => False) n := by
  unfold Returns Exec.wp
  cases x n with
  | ok a n' => exact ⟨fun _ => trivial, fun _ => ⟨a, n', rfl⟩⟩
  | error e n' => exact ⟨fun ⟨_, _, h⟩ => (nomatch h), False.elim⟩

omit [Primitives] in
theorem not_returns {α : Type} {x : ChainM α}
    (h : Exec.wp x (fun _ _ => False) (fun _ _ => True) n) : ¬ Returns x n :=
  fun ⟨_, _, hx⟩ => h.ok hx

/-- Nothing is asked of the blocks. -/
theorem adopts_trivial : Adopts params clock (fun _ _ => True) (fun _ _ _ _ => True)
    fun _ _ => True := by
  refine ⟨fun _ _ => trivial, fun {child rest waiting result n} _ _ _ _ => ?_⟩
  refine Exec.wp_of_forall (fun r n' => ?_) fun _ _ => trivial
  unfold After
  cases r.outcome with
  | invalid => exact fun _ _ => trivial
  | _ => trivial

theorem adoptChildren_returns {current : Digest} : ∀ (children : List Block)
    {waiting : List Digest} {result : SubmitResult} {n : Node},
    Adopting current children waiting n →
    Returns (adoptChildren params clock children result waiting) n →
      ∀ p ∈ adoptedChildren params clock children result waiting n,
        Returns (submitOne params clock p.2) p.1
  | [], _, _, _, _, _, p, hp => nomatch hp
  | child :: rest, waiting, result, n, h, hret, p, hp => by
    obtain ⟨y, n₂, hret⟩ := hret
    rw [adoptChildren_cons, Exec.bind_ok_iff] at hret
    obtain ⟨x, n₁, hx, hy⟩ := hret
    rw [adoptedChildren, hx, List.mem_cons] at hp
    rcases hp with rfl | hp
    · have hlook := h.lookup_child
      simp only [adoptChildren, Exec.bind_ok_iff] at hx
      obtain ⟨_, _, hforget, r, n₃, hone, -⟩ := hx
      rw [forgetOrphan_eq hlook] at hforget
      cases hforget
      exact ⟨r, n₃, hone⟩
    · exact adoptChildren_returns rest ((adopts_trivial.adoptChild h trivial trivial).ok hx).2.1
        ⟨y, n₂, hy⟩ p hp

theorem adoptOrphans_returns : ∀ (steps : ℕ) {waiting : List Digest} {result : SubmitResult}
    {n : Node}, Pool n → (∀ w ∈ waiting, n.orphans.lookup w = none) →
    Returns (adoptOrphans params clock steps waiting result) n →
      ∀ p ∈ adopted params clock steps waiting result n, Returns (submitOne params clock p.2) p.1
  | 0, _, _, _, _, _, _, p, hp => nomatch hp
  | _ + 1, [], _, _, _, _, _, p, hp => nomatch hp
  | steps + 1, current :: waiting, result, n, hpool, hw, hret, p, hp => by
    obtain ⟨hcur, hw⟩ := List.forall_mem_cons.1 hw
    have hadopting : Adopting current (orphansOf current n) waiting n :=
      ⟨hpool, orphansOf_nodup hpool current, fun c hc => (mem_orphansOf hpool).1 hc, hcur, hw⟩
    obtain ⟨y, n₂, hret⟩ := hret
    simp only [adoptOrphans, Exec.bind_ok_iff] at hret
    obtain ⟨_, _, hget, x, n₁, hx, hy⟩ := hret
    cases hget
    rw [adopted, hx, List.mem_append] at hp
    rcases hp with hp | hp
    · exact adoptChildren_returns _ hadopting ⟨x, n₁, hx⟩ p hp
    · have h₁ := ((adopts_trivial.adoptChildren _ hadopting (fun _ _ => trivial) trivial).ok hx).2.1
      exact adoptOrphans_returns steps h₁.pool h₁.waiting ⟨y, n₂, hy⟩ p hp

/-- **A call that returned has answered every block it handled.** -/
theorem submitBlock_returns (hp : Pool n) (h : Returns (submitBlock params clock b) n) :
    ∀ p ∈ handled params clock b n, Returns (submitOne params clock p.2) p.1 := by
  obtain ⟨y, n₂, hret⟩ := h
  rw [submitBlock, Exec.bind_ok_iff] at hret
  obtain ⟨r, n₁, hx, hret⟩ := hret
  rw [handled, List.forall_mem_cons]
  refine ⟨⟨r, n₁, hx⟩, ?_⟩
  rw [hx]
  obtain ⟨_, _, hget, hret⟩ := Exec.bind_ok_iff.1 hret
  cases hget
  have hpool := (submitOne_pool hp).ok hx
  have hp₁ : Pool n₁ := by
    rcases hpool with ⟨hs, -⟩ | ⟨-, hheld⟩
    exacts [hs.pool hp, hheld.pool]
  have hgone : Arrived r → ∀ w ∈ [b.blockId], n₁.orphans.lookup w = none := by
    intro ha w hw
    rw [List.mem_singleton.1 hw]
    rcases hpool with ⟨hs, hnone⟩ | ⟨ho, -⟩
    · rw [hs.orphans]; exact hnone ha
    · rcases ha with ha | ha <;> rw [ho] at ha <;> cases ha
  cases ho : r.outcome with
  | newTip =>
    simp only [ho] at hret ⊢
    exact adoptOrphans_returns _ hp₁ (hgone (.inl ho)) ⟨y, n₂, hret⟩
  | sideBranch =>
    simp only [ho] at hret ⊢
    exact adoptOrphans_returns _ hp₁ (hgone (.inr ho)) ⟨y, n₂, hret⟩
  | _ =>
    simp only [ho]
    exact List.forall_mem_nil _

/-- **When submitting a block returns**: in every state a run of submitted
blocks leads to, exactly where no block handled is stranded. -/
theorem submitBlock_returns_iff
    (hB : Regular params {c | c = genesisBlock params ∨ c ∈ blocks ∨ c = b}) :
    Returns (submitBlock params clock b) (afterBlocks params clock blocks) ↔
      ∀ p ∈ handled params clock b (afterBlocks params clock blocks),
        ¬ Stranded params clock p.1 p.2 := by
  have hafter := afterBlocks_invariant params clock blocks
    (B := {c | c = genesisBlock params ∨ c ∈ blocks ∨ c = b}) (C := fun _ _ => True)
    SoundNode.onlyOrphans (fun hp hb _ h => h.submitOne hp hb) (fun c hc => .inr (.inl hc))
    (Run.along_trivial fun _ _ _ _ => trivial) (.fresh (.inl rfl))
  constructor
  · exact fun h p hp hs => not_returns hs.raises (submitBlock_returns hafter.2 h p hp)
  · intro h
    refine returns_iff.2 ((submitBlock_keeps (E := fun _ _ => False)
      (C := fun n b => ¬ Stranded params clock n b) SoundNode.onlyOrphans
      (fun hp hb hs h => submitOne_returns hB h hp hb hs) hafter.2 hafter.1.2 (.inr (.inr rfl)) h
      hafter.1.1).mono (fun _ _ _ => trivial) fun _ _ he => he.1.1)

end Node

end

namespace Node

section

attribute [local instance] Sample.primitives

/-- A chain of three blocks. -/
def mainChain : List Block :=
  let b₁ := Sample.block (genesisBlock Sample.params) NO_SNAPSHOT 1 0 (2 ^ 255)
  let b₂ := Sample.block b₁ NO_SNAPSHOT 2 0 (2 ^ 255)
  [b₁, b₂, Sample.block b₂ Sample.emptyRoot 3 0 (2 ^ 255)]

/-- Another one. -/
def sideChain : List Block :=
  let b₁ := Sample.block (genesisBlock Sample.params) NO_SNAPSHOT 1 1 (2 ^ 255)
  let b₂ := Sample.block b₁ NO_SNAPSHOT 2 1 (2 ^ 255)
  [b₁, b₂, Sample.block b₂ Sample.emptyRoot 3 1 (2 ^ 255)]

/-- The main chain up to height 2, two blocks of the other, and the block
that seals the first chunk. -/
def sealedUnderSide : List Block := mainChain.take 2 ++ sideChain.take 2 ++ mainChain.drop 2

/-- The block on top of the row that dangles. -/
def sideTip : Block := sideChain.getD 2 (genesisBlock Sample.params)

theorem collisionFree_sealedUnderSide : CollisionFree (messagesOf
    {c | c = genesisBlock Sample.params ∨ c ∈ sealedUnderSide ∨ c = sideTip}) := by
  refine Sample.collisionFree
    (l := (genesisBlock Sample.params :: sealedUnderSide ++ [sideTip]).flatMap Block.messages)
    ?_ (by decide +kernel)
  rintro m ⟨b, hb, hm⟩
  refine List.mem_flatMap.2 ⟨b, ?_, hm⟩
  rcases hb with rfl | hb | rfl
  · exact List.mem_cons_self
  · exact List.mem_append_left _ (List.mem_cons_of_mem _ hb)
  · exact List.mem_append_right _ (List.mem_singleton_self _)

theorem regular_sealedUnderSide : Regular Sample.params
    {c | c = genesisBlock Sample.params ∨ c ∈ sealedUnderSide ∨ c = sideTip} := by
  have hall : ∀ c ∈ genesisBlock Sample.params :: sealedUnderSide ++ [sideTip],
      c.blockId ≠ zeroBytes 32 ∧ c.height < 10 := by decide +kernel
  have hmem : ∀ c, (c = genesisBlock Sample.params ∨ c ∈ sealedUnderSide ∨ c = sideTip) →
      c ∈ genesisBlock Sample.params :: sealedUnderSide ++ [sideTip] := by
    rintro c (rfl | hc | rfl)
    · exact List.mem_cons_self
    · exact List.mem_append_left _ (List.mem_cons_of_mem _ hc)
    · exact List.mem_append_right _ (List.mem_singleton_self _)
  refine regular_of_height collisionFree_sealedUnderSide (fun c hc => (hall c (hmem c hc)).1)
    (.inl rfl) fun c hc => ?_
  have := (hall c (hmem c hc)).2
  have hsize : Sample.params.chunkSize = 2 := rfl
  rw [hsize]
  omega

theorem submitBlock_returns_iff_sample :
    Returns (submitBlock Sample.params (fun _ => 1000) sideTip)
        (afterBlocks Sample.params (fun _ => 1000) sealedUnderSide) ↔
      ∀ p ∈ handled Sample.params (fun _ => 1000) sideTip
          (afterBlocks Sample.params (fun _ => 1000) sealedUnderSide),
        ¬ Stranded Sample.params (fun _ => 1000) p.1 p.2 :=
  submitBlock_returns_iff regular_sealedUnderSide

/-- **A block on a branch that sealing cut off raises.** -/
theorem submitBlock_raises : ¬ ∀ (blocks : List Block) (b : Block),
    CollisionFree (messagesOf {c | c = genesisBlock Sample.params ∨ c ∈ blocks ∨ c = b}) →
    (∀ c, c ∈ blocks ∨ c = b → Sample.params.blockReward * (c.height + 1) ≤ MAX_AMOUNT) →
    Returns (submitBlock Sample.params (fun _ => 1000) b)
      (afterBlocks Sample.params (fun _ => 1000) blocks) := by
  intro h
  have hsupply : ∀ c ∈ sealedUnderSide ++ [sideTip],
      Sample.params.blockReward * (c.height + 1) ≤ MAX_AMOUNT := by decide +kernel
  obtain ⟨r, n', hr⟩ := h sealedUnderSide sideTip collisionFree_sealedUnderSide fun c hc =>
    hsupply c (List.mem_append.2 (hc.imp_right List.mem_singleton.2))
  have hraises : (Exec.outcome (submitBlock Sample.params (fun _ => 1000) sideTip)
      (afterBlocks Sample.params (fun _ => 1000) sealedUnderSide)).isOk = false := by
    decide +kernel
  rw [Exec.outcome_ok_iff.2 ⟨n', hr⟩] at hraises
  cases hraises

end

end Node

end TalCash
