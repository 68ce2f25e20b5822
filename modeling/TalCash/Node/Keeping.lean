import TalCash.Node.Accept
/-!
# Runs of submitted blocks

`submitBlock_keeps` carries a property of the store through a call, where
the blocks handled are among `B`: the one submitted, and the orphans,
which were submitted before. Along a run of submitted blocks the node
holds a ledger (`soundNode_after`).
-/

namespace TalCash

open BlockFiles Ledger

namespace Node

variable [Primitives] {params : NetworkParams} {clock : ℕ → ℤ} {B : Set Block} {n n' : Node}
variable {b c : Block} {blocks : List Block}

/-- The orphans are blocks of `B`. -/
def OrphansIn (B : Set Block) (n : Node) : Prop := ∀ id c, n.orphans.lookup id = some c → c ∈ B

theorem OrphansIn.without (h : OrphansIn B n) (b : Block) : OrphansIn B (n.without b) := by
  intro id c hc
  rw [lookup_without] at hc
  split at hc
  · cases hc
  · exact h id c hc

theorem OrphansIn.dropped {pending : List Digest} (h : OrphansIn B n) (hd : Dropped pending n n') :
    OrphansIn B n' := fun id c hc => h id c (hd.sub id c hc)

/-- A block of `B` leaves orphans of `B`. -/
theorem OrphansIn.submitOne (h : OrphansIn B n) (hp : Pool n) (hb : b ∈ B) :
    Exec.wp (submitOne params clock b) (fun _ n' => OrphansIn B n') (fun _ n' => OrphansIn B n')
      n := by
  refine (submitOne_pool hp).mono ?_ fun _ n' hs id c hc => h id c (hs.orphans ▸ hc)
  rintro _ n' (⟨hs, -⟩ | ⟨-, hheld⟩) id c hc
  · exact h id c (hs.orphans ▸ hc)
  · by_cases hid : id = b.blockId
    · rw [hid, hheld.held, Option.some.injEq] at hc
      exact hc ▸ hb
    · exact h id c (hheld.sub id c hid hc)

/-- **What every block handled keeps, a call keeps.** -/
theorem submitBlock_keeps {P : Node → Prop} {C : Node → Block → Prop} {E : PyError → Node → Prop}
    (horphans : ∀ {n n' : Node}, OnlyOrphans n n' → P n → P n')
    (hone : ∀ {b : Block} {n : Node}, Pool n → b ∈ B → C n b → P n →
      Exec.wp (submitOne params clock b) (fun _ n' => P n') E n)
    (hp : Pool n) (ho : OrphansIn B n) (hb : b ∈ B)
    (hC : ∀ p ∈ handled params clock b n, C p.1 p.2) (h : P n) :
    Exec.wp (submitBlock params clock b) (fun _ n' => (P n' ∧ OrphansIn B n') ∧ Pool n')
      (fun e n' => (E e n' ∧ OrphansIn B n') ∧ Pool n') n := by
  have hafter : ∀ {b : Block} {rest waiting result o} {n : Node}, P n ∧ OrphansIn B n →
      After (fun _ _ _ n => P n ∧ OrphansIn B n) b rest waiting result o n := by
    intro b rest waiting result o n hn
    cases o with
    | invalid => exact fun n' hd => ⟨horphans hd.rest hn.1, hn.2.dropped hd⟩
    | _ => exact hn
  have hone' : ∀ {b : Block} {n : Node}, Pool n → b ∈ B → C n b → P n → OrphansIn B n →
      Exec.wp (submitOne params clock b) (fun _ n' => P n' ∧ OrphansIn B n')
        (fun e n' => E e n' ∧ OrphansIn B n') n := fun hp hb hc hn ho =>
    (hone hp hb hc hn).and (ho.submitOne hp hb)
  have hA : Adopts params clock C (fun _ _ _ n => P n ∧ OrphansIn B n)
      fun e n => E e n ∧ OrphansIn B n := by
    refine ⟨fun _ h => h, fun {child rest waiting result n} hp hl hc hn => ?_⟩
    exact (hone' (hp.without hl) (hn.2 _ _ hl) hc (horphans (onlyOrphans_without n child) hn.1)
      (hn.2.without child)).mono (fun _ _ h => hafter h) fun _ _ h => h
  exact hA.submitBlock hp hC fun hc =>
    (hone' hp hb hc h ho).mono (fun _ _ h => hafter h) fun _ _ h => h

/-- A property kept whether the call returns or raises. -/
theorem final_submitBlock_keeps {P : Node → Prop} {C : Node → Block → Prop}
    (horphans : ∀ {n n' : Node}, OnlyOrphans n n' → P n → P n')
    (hone : ∀ {b : Block} {n : Node}, Pool n → b ∈ B → C n b → P n →
      Exec.wp (submitOne params clock b) (fun _ n' => P n') (fun _ n' => P n') n)
    (hp : Pool n) (ho : OrphansIn B n) (hb : b ∈ B)
    (hC : ∀ p ∈ handled params clock b n, C p.1 p.2) (h : P n) :
    (P (step params clock n (.submit b)) ∧ OrphansIn B (step params clock n (.submit b))) ∧
      Pool (step params clock n (.submit b)) :=
  Exec.wp_const_iff (P := fun n => (P n ∧ OrphansIn B n) ∧ Pool n).1
    (submitBlock_keeps horphans hone hp ho hb hC h)

/-! ## The nodes in between -/

section Handled

variable {P : Node → Prop}

/-- The obligations of `submitBlock_keeps`, where nothing is asked of the
blocks. -/
theorem adopts_keeps (horphans : ∀ {n n' : Node}, OnlyOrphans n n' → P n → P n')
    (hone : ∀ {b : Block} {n : Node}, Pool n → P n →
      Exec.wp (submitOne params clock b) (fun _ n' => P n') (fun _ n' => P n') n) :
    Adopts params clock (fun _ _ => True) (fun _ _ _ n => P n) fun _ n => P n := by
  refine ⟨fun _ h => h, fun {child rest waiting result n} hp hl _ hn => ?_⟩
  refine (hone (hp.without hl) (horphans (onlyOrphans_without n child) hn)).mono ?_ fun _ _ h => h
  intro r n' hn'
  unfold After
  cases r.outcome with
  | invalid => exact fun n'' hd => horphans hd.rest hn'
  | _ => exact hn'

theorem adoptedChildren_keeps (horphans : ∀ {n n' : Node}, OnlyOrphans n n' → P n → P n')
    (hA : Adopts params clock (fun _ _ => True) (fun _ _ _ n => P n) fun _ n => P n)
    {current : Digest} : ∀ (children : List Block) {waiting : List Digest} {result : SubmitResult}
      {n : Node}, Adopting current children waiting n → P n →
        ∀ p ∈ adoptedChildren params clock children result waiting n, P p.1
  | [], _, _, _, _, _, p, hp => nomatch hp
  | child :: rest, waiting, result, n, h, hn, p, hp => by
    rw [adoptedChildren, List.mem_cons] at hp
    rcases hp with rfl | hp
    · exact horphans (onlyOrphans_without n child) hn
    · cases hx : adoptChildren params clock [child] result waiting n with
      | error e n₁ =>
        rw [hx] at hp
        cases hp
      | ok x n₁ =>
        rw [hx] at hp
        obtain ⟨hn₁, h₁, -⟩ := (hA.adoptChild h trivial hn).ok hx
        exact adoptedChildren_keeps horphans hA rest h₁ hn₁ p hp

theorem adopted_keeps (horphans : ∀ {n n' : Node}, OnlyOrphans n n' → P n → P n')
    (hA : Adopts params clock (fun _ _ => True) (fun _ _ _ n => P n) fun _ n => P n) :
    ∀ (steps : ℕ) {waiting : List Digest} {result : SubmitResult} {n : Node}, Pool n →
      (∀ w ∈ waiting, n.orphans.lookup w = none) → P n →
        ∀ p ∈ adopted params clock steps waiting result n, P p.1
  | 0, _, _, _, _, _, _, p, hp => nomatch hp
  | _ + 1, [], _, _, _, _, _, p, hp => nomatch hp
  | steps + 1, current :: waiting, result, n, hpool, hw, hn, p, hp => by
    obtain ⟨hcur, hw⟩ := List.forall_mem_cons.1 hw
    have hadopting : Adopting current (orphansOf current n) waiting n :=
      ⟨hpool, orphansOf_nodup hpool current, fun c hc => (mem_orphansOf hpool).1 hc, hcur, hw⟩
    rw [adopted, List.mem_append] at hp
    rcases hp with hp | hp
    · exact adoptedChildren_keeps horphans hA _ hadopting hn p hp
    · cases hx : adoptChildren params clock (orphansOf current n) result waiting n with
      | error e n₁ =>
        rw [hx] at hp
        cases hp
      | ok x n₁ =>
        rw [hx] at hp
        obtain ⟨hn₁, h₁, -⟩ :=
          (hA.adoptChildren _ hadopting (fun _ _ => trivial) hn).ok hx
        exact adopted_keeps horphans hA steps h₁.pool h₁.waiting hn₁ p hp

/-- **What every block handled keeps holds whenever one is found.** -/
theorem handled_keeps (horphans : ∀ {n n' : Node}, OnlyOrphans n n' → P n → P n')
    (hone : ∀ {b : Block} {n : Node}, Pool n → P n →
      Exec.wp (submitOne params clock b) (fun _ n' => P n') (fun _ n' => P n') n)
    (hp : Pool n) (h : P n) : ∀ p ∈ handled params clock b n, P p.1 := by
  have hA : Adopts params clock (fun _ _ => True) (fun _ _ _ n => P n) fun _ n => P n :=
    adopts_keeps horphans hone
  intro p hm
  rw [handled, List.mem_cons] at hm
  rcases hm with rfl | hm
  · exact h
  cases hx : submitOne params clock b n with
  | error e n₁ =>
    rw [hx] at hm
    cases hm
  | ok r n₁ =>
    rw [hx] at hm
    obtain ⟨hn₁, hpool⟩ := ((hone hp h).and (submitOne_pool hp)).ok hx
    have hp₁ : Pool n₁ := by
      rcases hpool with ⟨hs, -⟩ | ⟨-, hheld⟩
      exacts [hs.pool hp, hheld.pool]
    have hgone : Arrived r → ∀ w ∈ [b.blockId], n₁.orphans.lookup w = none := by
      intro ha w hw
      rw [List.mem_singleton.1 hw]
      rcases hpool with ⟨hs, hnone⟩ | ⟨ho, -⟩
      · rw [hs.orphans]; exact hnone ha
      · rcases ha with ha | ha <;> rw [ho] at ha <;> cases ha
    cases ho : r.outcome with
    | newTip =>
      simp only [ho] at hm
      exact adopted_keeps horphans hA _ hp₁ (hgone (.inl ho)) hn₁ p hm
    | sideBranch =>
      simp only [ho] at hm
      exact adopted_keeps horphans hA _ hp₁ (hgone (.inr ho)) hn₁ p hm
    | _ =>
      simp only [ho] at hm
      cases hm

end Handled

/-! ## Runs -/

/-- The node after blocks were submitted to a fresh one. -/
def afterBlocks (params : NetworkParams) (clock : ℕ → ℤ) (blocks : List Block) : Node :=
  after params clock (blocks.map .submit)

/-- Every block that the next block of a run handles meets the condition. -/
def Handles (params : NetworkParams) (clock : ℕ → ℤ) (C : Node → Block → Prop) (n : Node)
    (b : Block) : Prop :=
  ∀ p ∈ handled params clock b n, C p.1 p.2

/-- **The run rule for submitted blocks.** -/
theorem afterBlocks_invariant (params : NetworkParams) (clock : ℕ → ℤ) (blocks : List Block) {P : Node → Prop} {C : Node → Block → Prop}
    (horphans : ∀ {n n' : Node}, OnlyOrphans n n' → P n → P n')
    (hone : ∀ {b : Block} {n : Node}, Pool n → b ∈ B → C n b → P n →
      Exec.wp (submitOne params clock b) (fun _ n' => P n') (fun _ n' => P n') n)
    (hB : ∀ b ∈ blocks, b ∈ B)
    (hC : Run.Along (Handles params clock C) (fun n b => step params clock n (.submit b))
      (fresh params) blocks) (h : P (fresh params)) :
    (P (afterBlocks params clock blocks) ∧ OrphansIn B (afterBlocks params clock blocks)) ∧
      Pool (afterBlocks params clock blocks) := by
  have hrun : ∀ (bs : List Block) {n : Node}, (∀ b ∈ bs, b ∈ B) →
      Run.Along (Handles params clock C) (fun n b => step params clock n (.submit b)) n bs →
      ((P n ∧ OrphansIn B n) ∧ Pool n) →
      ((P (Run.run (step params clock) n (bs.map .submit)) ∧
          OrphansIn B (Run.run (step params clock) n (bs.map .submit))) ∧
        Pool (Run.run (step params clock) n (bs.map .submit))) := by
    intro bs
    induction bs with
    | nil => exact fun _ _ h => h
    | cons b bs ih =>
      intro n hB hC h
      exact ih (fun c hc => hB c (List.mem_cons_of_mem _ hc)) hC.2
        (final_submitBlock_keeps horphans hone h.2 h.1.2 (hB b List.mem_cons_self) hC.1 h.1.1)
  exact hrun blocks hB hC ⟨⟨h, fun _ _ hc => (nomatch hc)⟩, pool_fresh⟩

theorem SoundNode.onlyOrphans (ho : OnlyOrphans n n') (h : SoundNode params B n) :
    SoundNode params B n' := by
  unfold SoundNode
  rw [ho.store]
  exact h

/-- **A node that only took blocks holds a ledger.** -/
theorem soundNode_after (params : NetworkParams) (clock : ℕ → ℤ) (blocks : List Block) (hg : genesisBlock params ∈ B) (hB : ∀ b ∈ blocks, b ∈ B) :
    SoundNode params B (afterBlocks params clock blocks) :=
  (afterBlocks_invariant params clock blocks (C := fun _ _ => True) SoundNode.onlyOrphans
    (fun hp hb _ h => h.submitOne hp hb) hB (Run.along_trivial fun _ _ _ _ => trivial)
    (.fresh hg)).1.1

end Node

end TalCash
