import TalCash.Node.Chain
/-!
# The orphan pool

What each operation makes of the orphans, whatever the store: the pool
stays within its limits and keyed by block ids (`Pool`), forgetting takes
one orphan out, holding puts one in (`Held`), and dropping takes out those
that wait for a refused block (`Dropped`).
-/

namespace TalCash

namespace Node

/-- Only the orphans differ. -/
def OnlyOrphans [Primitives] (n n' : Node) : Prop :=
  n' = { n with orphans := n'.orphans, orphanBytes := n'.orphanBytes }

variable [Primitives] {params : NetworkParams} {clock : ℕ → ℤ} {n n' : Node} {b c : Block}
variable {id : Digest} {bs : List Block}

/-- The orphans are kept under their ids and within the limits. -/
structure Pool (n : Node) : Prop where
  keyed : ∀ id b, n.orphans.lookup id = some b → b.blockId = id
  bytes : n.orphanBytes = n.orphans.total fun _ b => b.size
  count_le : n.orphans.entries.length ≤ MAX_ORPHANS
  bytes_le : n.orphanBytes ≤ MAX_ORPHAN_BYTES

/-- There is room for one more orphan. -/
def Room (n : Node) (b : Block) : Prop :=
  n.orphans.entries.length < MAX_ORPHANS ∧ n.orphanBytes + b.size ≤ MAX_ORPHAN_BYTES

namespace OnlyOrphans

theorem refl (n : Node) : OnlyOrphans n n := rfl

theorem trans {n'' : Node} (h : OnlyOrphans n n') (h' : OnlyOrphans n' n'') :
    OnlyOrphans n n'' := by
  unfold OnlyOrphans at h h' ⊢
  rw [h', h]

theorem store (h : OnlyOrphans n n') : n'.store = n.store := by
  unfold OnlyOrphans at h
  rw [h]

end OnlyOrphans

/-! ## Forgetting an orphan -/

/-- The node without an orphan. -/
def without (n : Node) (b : Block) : Node :=
  { n with
    orphans := Table.remove b.blockId n.orphans
    orphanBytes := n.orphanBytes - b.size }

theorem forgetOrphan_eq (h : n.orphans.lookup b.blockId = some b) :
    forgetOrphan b.blockId n = .ok b (n.without b) := by
  simp only [forgetOrphan, Exec.get_bind_apply, h]
  rfl

theorem lookup_without : (n.without b).orphans.lookup id =
    if id = b.blockId then none else n.orphans.lookup id := Table.lookup_remove

theorem onlyOrphans_without (n : Node) (b : Block) : OnlyOrphans n (n.without b) := rfl

theorem length_without (h : n.orphans.lookup b.blockId = some b) :
    (n.without b).orphans.entries.length + 1 = n.orphans.entries.length :=
  Table.length_remove h

theorem Pool.size_le (h : Pool n) (hb : n.orphans.lookup id = some b) : b.size ≤ n.orphanBytes := by
  rw [h.bytes]
  exact Table.le_total (f := fun _ b => b.size) hb

theorem Pool.without (h : Pool n) (hb : n.orphans.lookup b.blockId = some b) :
    Pool (n.without b) := by
  have hlen := length_without hb
  have hcount := h.count_le
  refine ⟨fun id c hc => ?_, ?_, by omega, (Nat.sub_le _ _).trans h.bytes_le⟩
  · rw [lookup_without] at hc
    split at hc
    · cases hc
    · exact h.keyed id c hc
  · have ht := Table.total_remove (f := fun (_ : Digest) (b : Block) => b.size) hb
    change n.orphanBytes - b.size = _
    rw [h.bytes, ht, Nat.add_sub_cancel_left]
    rfl

/-- There is room for an orphan that was just taken out. -/
theorem Pool.room_without (h : Pool n) (hb : n.orphans.lookup b.blockId = some b) :
    Room (n.without b) b := by
  have hlen := length_without hb
  have hcount := h.count_le
  have hsize := h.size_le hb
  have hbytes := h.bytes_le
  refine ⟨by omega, ?_⟩
  change n.orphanBytes - b.size + b.size ≤ _
  omega

/-! ## Holding an orphan -/

/-- The node after an orphan was held. -/
structure Held (b : Block) (n n' : Node) : Prop where
  pool : Pool n'
  rest : OnlyOrphans n n'
  held : n'.orphans.lookup b.blockId = some b
  sub : ∀ id c, id ≠ b.blockId → n'.orphans.lookup id = some c → n.orphans.lookup id = some c
  room : Room n b → ∀ id, id ≠ b.blockId → n'.orphans.lookup id = n.orphans.lookup id
  length_le : Room n b → n'.orphans.entries.length ≤ n.orphans.entries.length + 1

/-- Making room drops orphans only, and no more than it must. -/
theorem makeRoom_spec {size : ℕ} (hsize : size ≤ MAX_ORPHAN_BYTES) : ∀ (k : ℕ) {n : Node}, Pool n →
    n.orphans.entries.length = k →
    Exec.wp (makeRoom size k) (fun _ n' => Pool n' ∧ OnlyOrphans n n' ∧
        n'.orphans.entries.length < MAX_ORPHANS ∧ n'.orphanBytes + size ≤ MAX_ORPHAN_BYTES ∧
        (∀ id c, n'.orphans.lookup id = some c → n.orphans.lookup id = some c) ∧
        (n.orphans.entries.length < MAX_ORPHANS ∧ n.orphanBytes + size ≤ MAX_ORPHAN_BYTES → n' = n))
      (fun _ _ => False) n
  | 0, n, h, hk => by
    have hz : n.orphanBytes = 0 := by
      rw [h.bytes, Table.total_of_entries_nil (List.length_eq_zero_iff.1 hk)]
    refine Exec.wp_pure.2 ⟨h, .refl n, ?_, by omega, fun _ _ h => h, fun _ => rfl⟩
    rw [hk]
    decide
  | k + 1, n, h, hk => by
    simp only [makeRoom, Exec.wp_bind, Exec.wp_get]
    rw [Exec.wp_ite]
    refine ⟨fun hfull => ?_, fun hroom => ?_⟩
    · cases ho : Table.oldest n.orphans with
      | none =>
        rw [Table.oldest_eq_none.1 ho] at hk
        cases hk
      | some id =>
        obtain ⟨b, hb⟩ := Table.lookup_oldest ho
        have hid := h.keyed id b hb
        subst hid
        have hlen := length_without hb
        rw [Exec.wp_bind, Exec.wp_ok (forgetOrphan_eq hb)]
        refine (makeRoom_spec hsize k (h.without hb) (by omega)).mono ?_ fun _ _ h => h
        rintro _ n' ⟨hp, ho', hlt, hle, hsub, -⟩
        refine ⟨hp, (onlyOrphans_without n b).trans ho', hlt, hle, fun id c hc => ?_, fun hr => ?_⟩
        · have := hsub id c hc
          rw [lookup_without] at this
          split at this
          · cases this
          · exact this
        · omega
    · rw [not_or, not_le, not_lt] at hroom
      exact Exec.wp_pure.2 ⟨h, .refl n, hroom.1, hroom.2, fun _ _ h => h, fun _ => rfl⟩

theorem holdOrphan_spec (h : Pool n) (hb : n.orphans.lookup b.blockId = none)
    (hsize : b.size ≤ MAX_ORPHAN_BYTES) :
    Exec.wp (holdOrphan b) (fun _ n' => Held b n n') (fun _ _ => False) n := by
  simp only [holdOrphan, Exec.wp_bind, Exec.wp_get]
  refine (makeRoom_spec hsize _ h rfl).mono ?_ fun _ _ h => h
  rintro _ n₁ ⟨hp, ho, hlt, hle, hsub, hroom⟩
  rw [Exec.wp_modify]
  have hnone : n₁.orphans.lookup b.blockId = none := by
    cases hc : n₁.orphans.lookup b.blockId with
    | none => rfl
    | some c =>
      have := hsub _ c hc
      rw [hb] at this
      cases this
  have hlen : (Table.put b.blockId b n₁.orphans).entries.length =
      n₁.orphans.entries.length + 1 := by
    rw [Table.entries_put_of_lookup_none hnone, List.length_cons]
  refine ⟨⟨fun id c hc => ?_, ?_, ?_, hle⟩, ?_, Table.lookup_put_self, fun id c hid hc => ?_,
    fun hr id hid => ?_, fun hr => ?_⟩
  · change (Table.put b.blockId b n₁.orphans).lookup id = some c at hc
    rw [Table.lookup_put] at hc
    split at hc
    · rename_i hid
      rw [← Option.some.inj hc, hid]
    · exact hp.keyed id c hc
  · change n₁.orphanBytes + b.size = (Table.put b.blockId b n₁.orphans).total _
    rw [Table.total_put_of_lookup_none hnone, hp.bytes, Nat.add_comm]
  · change (Table.put b.blockId b n₁.orphans).entries.length ≤ _
    omega
  · unfold OnlyOrphans at ho ⊢
    rw [ho]
  · exact hsub id c ((Table.lookup_put_ne hid).symm.trans hc)
  · rw [← hroom hr]
    exact Table.lookup_put_ne hid
  · rw [← hroom hr]
    exact hlen.le

/-! ## Dropping orphans -/

theorem mem_orphansOf (h : Pool n) : b ∈ orphansOf id n ↔
    n.orphans.lookup b.blockId = some b ∧ b.header.prevId = id := by
  simp only [orphansOf, List.mem_filter, List.mem_map, List.mem_reverse, Prod.exists, Table.mem_rows,
    exists_eq_right, decide_eq_true_eq]
  constructor
  · rintro ⟨⟨k, hk⟩, hp⟩
    exact ⟨by rw [h.keyed k b hk]; exact hk, hp⟩
  · rintro ⟨hb, hp⟩
    exact ⟨⟨_, hb⟩, hp⟩

theorem orphansOf_nodup (h : Pool n) (id : Digest) : ((orphansOf id n).map Block.blockId).Nodup := by
  have hids : n.orphans.rows.map (fun r => r.2.blockId) = n.orphans.rows.map Prod.fst :=
    List.map_congr_left fun r hr => h.keyed r.1 r.2 (Table.mem_rows.1 hr)
  have hnodup : ((n.orphans.rows.reverse.map Prod.snd).map Block.blockId).Nodup := by
    rw [List.map_map, List.map_reverse, List.nodup_reverse]
    have : n.orphans.rows.map (Block.blockId ∘ Prod.snd) = n.orphans.rows.map Prod.fst := hids
    rw [this]
    exact Table.rows_nodup_keys
  exact hnodup.sublist (List.filter_sublist.map _)

/-- Forgetting some orphans of the pool takes them out. -/
theorem forgetOrphans_spec : ∀ (bs : List Block) {n : Node}, Pool n → (bs.map Block.blockId).Nodup →
    (∀ b ∈ bs, n.orphans.lookup b.blockId = some b) →
    Exec.wp (forgetOrphans bs) (fun _ n' => Pool n' ∧ OnlyOrphans n n' ∧
        n'.orphans.entries.length + bs.length = n.orphans.entries.length ∧
        ∀ id, n'.orphans.lookup id =
          if id ∈ bs.map Block.blockId then none else n.orphans.lookup id)
      (fun _ _ => False) n
  | [], n, h, _, _ =>
    Exec.wp_pure.2 ⟨h, .refl n, rfl, fun id => by rw [List.map_nil, if_neg List.not_mem_nil]⟩
  | b :: bs, n, h, hn, hb => by
    obtain ⟨hb, hbs⟩ := List.forall_mem_cons.1 hb
    rw [List.map_cons, List.nodup_cons] at hn
    have hlen := length_without hb
    rw [forgetOrphans, Exec.wp_bind, Exec.wp_ok (forgetOrphan_eq hb)]
    refine (forgetOrphans_spec bs (h.without hb) hn.2 fun c hc => ?_).mono ?_ fun _ _ h => h
    · have hne : c.blockId ≠ b.blockId := fun he => hn.1 (he ▸ List.mem_map_of_mem hc)
      rw [lookup_without, if_neg hne]
      exact hbs c hc
    · rintro _ n' ⟨hp, ho, hl, hlook⟩
      refine ⟨hp, (onlyOrphans_without n b).trans ho, by rw [List.length_cons]; omega, fun id => ?_⟩
      rw [hlook, lookup_without, List.map_cons]
      by_cases hid : id = b.blockId
      · rw [if_pos hid, ite_self, if_pos (hid ▸ List.mem_cons_self)]
      · simp only [List.mem_cons, hid, false_or, if_false]

/-- The node after the orphans that wait for some blocks, and those that
wait for these, were dropped. -/
structure Dropped (pending : List Digest) (n n' : Node) : Prop where
  pool : Pool n'
  rest : OnlyOrphans n n'
  sub : ∀ id b, n'.orphans.lookup id = some b → n.orphans.lookup id = some b
  gone : ∀ id b, n'.orphans.lookup id = some b → b.header.prevId ∉ pending
  kept : ∀ P : Digest → Prop, (∀ p ∈ pending, P p) →
    (∀ id b, n.orphans.lookup id = some b → P b.header.prevId → P id) →
    ∀ id b, n.orphans.lookup id = some b → ¬ P b.header.prevId → n'.orphans.lookup id = some b
  length_le : n'.orphans.entries.length ≤ n.orphans.entries.length

theorem dropOrphansOf_spec : ∀ (steps : ℕ) (pending : List Digest) {n : Node}, Pool n →
    n.orphans.entries.length + pending.length ≤ steps →
    Exec.wp (dropOrphansOf steps pending) (fun _ n' => Dropped pending n n') (fun _ _ => False) n
  | steps, [], n, h, _ => by
    unfold dropOrphansOf
    exact Exec.wp_pure.2 ⟨h, .refl n, fun _ _ h => h, fun _ _ _ => List.not_mem_nil, fun _ _ _ _ _ h _ => h, le_rfl⟩
  | 0, _ :: _, n, h, hs => by
    rw [List.length_cons] at hs
    omega
  | steps + 1, parentId :: doomed, n, h, hs => by
    rw [List.length_cons] at hs
    simp only [dropOrphansOf, Exec.wp_bind, Exec.wp_get]
    refine (forgetOrphans_spec (orphansOf parentId n) h (orphansOf_nodup h parentId)
      fun b hb => ((mem_orphansOf h).1 hb).1).mono ?_ fun _ _ h => h
    rintro _ n₁ ⟨hp, ho, hl, hlook⟩
    have hmem : ∀ {id b}, n.orphans.lookup id = some b → b.header.prevId = parentId →
        id ∈ (orphansOf parentId n).map Block.blockId := by
      intro id b hb hprev
      have hid := h.keyed id b hb
      exact List.mem_map.2 ⟨b, (mem_orphansOf h).2 ⟨by rw [hid]; exact hb, hprev⟩, hid⟩
    have hsub : ∀ {id b}, n₁.orphans.lookup id = some b →
        id ∉ (orphansOf parentId n).map Block.blockId ∧ n.orphans.lookup id = some b := by
      intro id b hb
      rw [hlook] at hb
      split at hb
      · cases hb
      · rename_i hid
        exact ⟨hid, hb⟩
    refine (dropOrphansOf_spec steps _ hp ?_).mono ?_ fun _ _ h => h
    · rw [List.length_append, List.length_reverse, List.length_map]
      omega
    · rintro _ n' ⟨hp', ho', hsub', hgone, hkept, hle⟩
      refine ⟨hp', ho.trans ho', fun id b hb => (hsub (hsub' id b hb)).2, fun id b hb hmem' => ?_,
        fun P hP hclosed id b hb hnot => ?_, by omega⟩
      · rcases List.mem_cons.1 hmem' with hprev | hdoomed
        · obtain ⟨hnot, hb₀⟩ := hsub (hsub' id b hb)
          exact hnot (hmem hb₀ hprev)
        · exact hgone id b hb (List.mem_append_right _ hdoomed)
      · -- What is dropped in this step waits for a block that satisfies `P`.
        have hdropped : ∀ x ∈ (orphansOf parentId n).map Block.blockId, P x := by
          intro x hx
          obtain ⟨c, hc, rfl⟩ := List.mem_map.1 hx
          obtain ⟨hc₀, hprev⟩ := (mem_orphansOf h).1 hc
          exact hclosed _ c hc₀ (by rw [hprev]; exact hP parentId List.mem_cons_self)
        refine hkept P (fun p hp => ?_) (fun id b hb hprev => hclosed id b (hsub hb).2 hprev) id b ?_
          hnot
        · rcases List.mem_append.1 hp with hp | hp
          · exact hdropped p (List.mem_reverse.1 hp)
          · exact hP p (List.mem_cons_of_mem _ hp)
        · rw [hlook, if_neg fun hm => ?_]
          · exact hb
          · obtain ⟨c, hc, hid⟩ := List.mem_map.1 hm
            obtain ⟨hc₀, hprev⟩ := (mem_orphansOf h).1 hc
            rw [hid, hb, Option.some.injEq] at hc₀
            rw [hc₀, hprev] at hnot
            exact hnot (hP parentId List.mem_cons_self)

end Node

end TalCash
