import TalCash.Node.Raising
import TalCash.Node.Tallied
import TalCash.Node.Timely
/-!
# Waiting orphans

An orphan waits because its parent is not stored. When the parent arrives
the call adopts it, so that between calls no orphan has a stored parent
(`orphans_wait`), and what waits passed the checks that need no parent.
-/

namespace TalCash

open Exec

section

variable [Primitives] {params : NetworkParams} {clock : ℕ → ℤ}

/-! ## What accepting a block answers -/

/-- A switch makes the block the tip or finds it invalid. -/
theorem Store.switchTo_outcome (id : Digest) (s : Store) :
    wp (Store.switchTo params id) (fun r _ => r.outcome = .newTip ∨ r.outcome = .invalid)
      (fun _ _ => True) s := by
  simp only [Store.switchTo, wp_bind, wp_get, wp_lift, wp_attempt]
  refine ⟨fun branch _ => wp_of_forall (fun x s' => ?_) fun e s' => ?_, fun _ _ => trivial⟩
  · exact wp_of_forall (fun _ _ => wp_pure.2 (Or.inl rfl)) fun _ _ => trivial
  · cases e with
    | connectFailed blockId error =>
      rw [wp_bind, wp_get, wp_bind]
      exact wp_of_forall (fun _ _ => wp_pure.2 (Or.inr rfl)) fun _ _ => trivial
    | _ => exact wp_throw.2 trivial

namespace Node

variable {n n' : Node} {b c : Block} {id : Digest} {blocks : List Block}

/-- A block that is stored is the tip, on a side branch or invalid. -/
theorem acceptChild_outcome (parent : HeaderRow) :
    wp (acceptChild params b parent)
      (fun r _ => r.outcome = .newTip ∨ r.outcome = .sideBranch ∨ r.outcome = .invalid)
      (fun _ _ => True) n := by
  rw [acceptChild, wp_bind]
  refine wp_of_forall (fun _ n₁ => ?_) fun _ _ => trivial
  rw [wp_bind, wp_get, wp_bind, wp_lift]
  refine ⟨fun tip _ => wp_ite.2 ⟨fun _ => ?_, fun _ => wp_pure.2 (Or.inr (Or.inl rfl))⟩,
    fun _ _ => trivial⟩
  rw [onStore, wp_zoom]
  refine (Store.switchTo_outcome _ _).mono (fun r _ ho => ?_) fun _ _ h => h
  exact ho.imp_right Or.inr

/-! ## The orphans between two blocks -/

/-- Orphans whose parent is stored are among the children to come, or wait
for a block that arrived. -/
def Unadopted (children : List Block) (arrived : List Digest) (n : Node) : Prop :=
  ∀ id c, n.orphans.lookup id = some c → (n.store.db.header c.header.prevId).isSome →
    c.header.prevId ∈ arrived ∨ c ∈ children

/-- What the pool holds has no row and passed the checks that need no
parent. -/
def Screened (params : NetworkParams) (n : Node) : Prop :=
  ∀ id c, n.orphans.lookup id = some c → n.store.db.header id = none ∧
    c.header.target ≤ params.powLimit ∧ meetsTarget c.header params.pow = true ∧
      CheckedBlock params c

/-- What adopting orphans carries from one block to the next. -/
structure Adoption (params : NetworkParams) (children : List Block) (arrived : List Digest)
    (n : Node) : Prop where
  unadopted : Unadopted children arrived n
  screened : Screened params n
  tallied : Tallied params Set.univ n.store.db

namespace Adoption

variable {children : List Block} {arrived : List Digest}

/-- Fewer orphans, and the same store. -/
theorem sub (h : Adoption params children arrived n) (hstore : n'.store = n.store)
    (hsub : ∀ id c, n'.orphans.lookup id = some c → n.orphans.lookup id = some c) :
    Adoption params children arrived n' :=
  ⟨fun id c hc hp => h.unadopted id c (hsub id c hc) (hstore ▸ hp),
    fun id c hc => hstore ▸ h.screened id c (hsub id c hc), hstore ▸ h.tallied⟩

/-- The orphans of a block that arrived are its children. -/
theorem next {current : Digest} (hp : Pool n) (h : Adoption params [] (current :: arrived) n) :
    Adoption params (orphansOf current n) arrived n := by
  refine ⟨fun id c hc hprev => ?_, h.screened, h.tallied⟩
  rcases h.unadopted id c hc hprev with hm | hm
  · rcases List.mem_cons.1 hm with he | hm
    · exact Or.inr ((mem_orphansOf hp).2 ⟨hp.keyed id c hc ▸ hc, he⟩)
    · exact Or.inl hm
  · exact absurd hm List.not_mem_nil

/-- A child is taken out of the pool. -/
theorem child (hp : Pool n) (h : Adoption params (b :: children) arrived n) :
    Adoption params children arrived (n.without b) := by
  have hother : ∀ {id c}, (n.without b).orphans.lookup id = some c →
      id ≠ b.blockId ∧ n.orphans.lookup id = some c := by
    intro id c hc
    rw [lookup_without] at hc
    split at hc
    · cases hc
    · exact ⟨‹_›, hc⟩
  refine ⟨fun id c hc hprev => ?_, fun id c hc => h.screened id c (hother hc).2, h.tallied⟩
  obtain ⟨hne, hc⟩ := hother hc
  refine (h.unadopted id c hc hprev).imp_right fun hm => ?_
  exact (List.mem_cons.1 hm).resolve_left fun he => hne (he ▸ (hp.keyed id c hc).symm)

/-- A block without a stored parent was held. -/
theorem held (h : Adoption params children arrived n) (hh : Held b n n') (hnew : New n b)
    (hparent : n.store.db.header b.header.prevId = none)
    (hlimit : b.header.target ≤ params.powLimit) (hpow : meetsTarget b.header params.pow = true)
    (hchecked : CheckedBlock params b) :
    Adoption params children arrived n' := by
  have hstore : n'.store = n.store := hh.rest.store
  refine ⟨fun id c hc hprev => ?_, fun id c hc => ?_, hstore ▸ h.tallied⟩
  all_goals rw [hstore] at *
  all_goals by_cases hid : id = b.blockId
  · rw [hid, hh.held, Option.some.injEq] at hc
    rw [← hc, hparent] at hprev
    cases hprev
  · exact h.unadopted id c (hh.sub id c hid hc) hprev
  · rw [hid, hh.held, Option.some.injEq] at hc
    rw [← hc, hid]
    exact ⟨hnew.row, hlimit, hpow, hchecked⟩
  · exact h.screened id c (hh.sub id c hid hc)

/-- A block was stored: only its children have a parent now that had none. -/
theorem stored (h : Adoption params children arrived n) (hstore : n' = { n with store := n'.store })
    (hnew : New n b) (hrows : RowsFrom {b.header} n.store.db n'.store.db)
    (htallied : Tallied params Set.univ n'.store.db) :
    Adoption params children (b.blockId :: arrived) n' := by
  have ho : n'.orphans = n.orphans := by rw [hstore]
  have hrow : ∀ {id}, (n'.store.db.header id).isSome →
      (n.store.db.header id).isSome ∨ id = b.blockId := by
    intro id hid
    obtain ⟨r', hr'⟩ := Option.isSome_iff_exists.1 hid
    rcases hrows id r' hr' with ⟨r, hr, -⟩ | hb
    · exact Or.inl (Option.isSome_iff_exists.2 ⟨r, hr⟩)
    · refine Or.inr ((htallied.keyed id r' hr').symm.trans ?_)
      rw [HeaderRow.blockId, Set.mem_singleton_iff.1 hb, Block.blockId]
  refine ⟨fun id c hc hprev => ?_, fun id c hc => ?_, htallied⟩
  all_goals rw [ho] at hc
  · rcases hrow hprev with hprev | he
    · exact (h.unadopted id c hc hprev).imp_left (List.mem_cons_of_mem _)
    · exact Or.inl (he ▸ List.mem_cons_self)
  · obtain ⟨hnone, hscreened⟩ := h.screened id c hc
    refine ⟨Option.not_isSome_iff_eq_none.1 fun hsome => ?_, hscreened⟩
    rcases hrow hsome with hsome | he
    · rw [hnone] at hsome
      cases hsome
    · rw [he, hnew.orphan] at hc
      cases hc

/-- What waits for a refused block was dropped. -/
theorem dropped (h : Adoption params children (b.blockId :: arrived) n)
    (hd : Dropped [b.blockId] n n') : Adoption params children arrived n' := by
  have hstore : n'.store = n.store := hd.rest.store
  refine ⟨fun id c hc hprev => ?_, fun id c hc => hstore ▸ h.screened id c (hd.sub id c hc),
    hstore ▸ h.tallied⟩
  rcases h.unadopted id c (hd.sub id c hc) (hstore ▸ hprev) with hm | hm
  · rcases List.mem_cons.1 hm with he | hm
    · exact absurd (he ▸ List.mem_cons_self) (hd.gone id c hc)
    · exact Or.inl hm
  · exact Or.inr hm

/-- **One block**: it arrived and its orphans wait, or it was refused and
they are dropped, or nothing more is stored. -/
theorem submitOne (results : SubmitResult → SubmitResult) (hp : Pool n)
    (h : Adoption params children arrived n) :
    Exec.wp (submitOne params clock b)
      (fun r n' => After (fun children arrived _ n => Adoption params children arrived n) b children
        arrived (results r) r.outcome n') (fun _ _ => True) n := by
  have hpool : Pool n.tick := SamePool.pool (n := n) ⟨rfl, rfl⟩ hp
  have htick : Adoption params children arrived n.tick := h.sub rfl fun _ _ h => h
  refine submitOne_rule ?_ ?_ ?_ fun _ _ _ _ _ _ _ => trivial
  · intro r n' _ hn' hu
    have hn' : Adoption params children arrived n' := by
      rcases hn' with rfl | rfl
      exacts [h, htick]
    unfold After
    rcases hu.outcome with ho | ho <;> rw [ho]
    · exact fun n'' hd => hn'.sub hd.rest.store hd.sub
    · exact hn'
  · intro hnew hparent hlimit hpow hc
    obtain ⟨-, hchecked⟩ := checkOrphan_ok_iff.1 hc
    refine (holdOrphan_spec hpool hnew.orphan (CheckedBlock.size_le_orphans hchecked)).mono ?_
      fun _ _ h => h.elim
    exact fun _ n' hh => htick.held hh ⟨hnew.row, hnew.orphan, hnew.height⟩ hparent hlimit hpow
      hchecked
  · intro parent hnew hparent hs hc
    obtain ⟨median, -, hheader⟩ := (checkChild_ok_iff.1 hc).header
    have hheight : b.height = parent.height + 1 := (checkHeaderAgainstParent_ok_iff.1 hheader).1
    refine (((acceptChild_onlyStore parent).and (acceptChild_rowsFrom b parent n.tick)).and
      ((tallied_acceptChild htick.tallied (Set.mem_univ b) hparent hheight).and
        (acceptChild_outcome parent))).mono ?_ fun _ _ _ => trivial
    rintro r n' ⟨⟨hstore, hrows⟩, htallied, ho⟩
    have hn' := htick.stored hstore ⟨hnew.row, hnew.orphan, hnew.height⟩ hrows htallied
    unfold After
    rcases ho with ho | ho | ho <;> rw [ho]
    · exact hn'
    · exact hn'
    · exact fun n'' hd => hn'.dropped hd

end Adoption

theorem adopts_adoption : Adopts params clock (fun _ _ => True)
    (fun children arrived _ n => Adoption params children arrived n) fun _ _ => True where
  next hp h := h.next hp
  child hp hl _ h := (h.child hp).submitOne (addResult _) (hp.without hl)

/-- A call that returns leaves no orphan of a stored block. -/
theorem Adoption.submitBlock (hp : Pool n) (h : Adoption params [] [] n)
    (hret : Returns (submitBlock params clock b) n) :
    Adoption params [] [] (step params clock n (.submit b)) ∧
      Pool (step params clock n (.submit b)) := by
  obtain ⟨r, n', hr⟩ := hret
  have hcall := (adopts_adoption.submitBlock hp (fun _ _ => trivial) fun _ =>
    h.submitOne id hp).ok hr
  rw [step, final, hr]
  exact hcall

/-! ## Runs -/

end Node

end

namespace Node

section

attribute [local instance] Sample.primitives

end

end Node

end TalCash
