import TalCash.Node.Sealing
/-!
# Marking a branch invalid

`markInvalid` marks a row and everything built on it, and nothing else.
The walk ends: where a row is one higher than its parent, no row is
reached twice, so there are no more steps than rows.
-/

namespace TalCash

variable {db db' : Db} {id : Digest}

/-- One stored block is built on another. -/
def IsChild (db : Db) (parent child : Digest) : Prop :=
  ∃ r, db.headers.lookup child = some r ∧ r.header.prevId = parent

/-- A stored block is another one or is built on it. -/
def Below (db : Db) : Digest → Digest → Prop := Relation.ReflTransGen (IsChild db)

theorem mem_children {parent : Digest} : id ∈ db.children parent ↔ IsChild db parent id := by
  simp only [Db.children, List.mem_map, List.mem_filter, decide_eq_true_eq, Prod.exists, IsChild,
    Table.mem_rows]
  exact ⟨fun ⟨_, r, ⟨hr, hp⟩, he⟩ => ⟨r, he ▸ hr, hp⟩, fun ⟨r, hr, hp⟩ => ⟨id, r, ⟨hr, hp⟩, rfl⟩⟩

theorem children_nodup (db : Db) (parent : Digest) : (db.children parent).Nodup :=
  Table.rows_nodup_keys.sublist (List.filter_sublist.map _)

theorem SameRows.isChild (h : SameRows db db') {a c : Digest} (hc : IsChild db' a c) :
    IsChild db a c := by
  obtain ⟨r', hr', hp⟩ := hc
  obtain ⟨r, hr, hh, -, -⟩ := h.lookup hr'
  exact ⟨r, hr, by rw [← hh]; exact hp⟩

theorem SameRows.below (h : SameRows db db') {a c : Digest} (hc : Below db' a c) : Below db a c :=
  Relation.ReflTransGen.mono (fun _ _ => h.isChild) _ _ hc

/-- What marking did to the rows: those below a pending one are invalid,
the others are as they were. -/
structure Marked (pending : List Digest) (db db' : Db) : Prop where
  headersOnly : HeadersOnly db db'
  sealedChunks : db'.sealedChunks = db.sealedChunks
  rows : SameRows db db'
  marked : ∀ id r', db'.headers.lookup id = some r' → (∃ p ∈ pending, Below db p id) →
    r'.status = .invalid
  kept : ∀ id, ¬ (∃ p ∈ pending, Below db p id) →
    db'.headers.lookup id = db.headers.lookup id

theorem below_cons {x : Digest} {pending : List Digest} :
    (∃ p ∈ x :: pending, Below db p id) ↔
      id = x ∨ ∃ p ∈ (db.children x).reverse ++ pending, Below db p id := by
  constructor
  · rintro ⟨p, hp, hb⟩
    rcases List.mem_cons.1 hp with rfl | hp
    · rcases Relation.ReflTransGen.cases_head hb with rfl | ⟨c, hc, hb⟩
      · exact Or.inl rfl
      · exact Or.inr ⟨c, List.mem_append_left _ (List.mem_reverse.2 (mem_children.2 hc)), hb⟩
    · exact Or.inr ⟨p, List.mem_append_right _ hp, hb⟩
  · rintro (rfl | ⟨p, hp, hb⟩)
    · exact ⟨id, List.mem_cons_self, .refl⟩
    · rcases List.mem_append.1 hp with hp | hp
      · exact ⟨x, List.mem_cons_self, .head (mem_children.1 (List.mem_reverse.1 hp)) hb⟩
      · exact ⟨p, List.mem_cons_of_mem _ hp, hb⟩

theorem children_congr (h : SameRows db db') (x id : Digest) :
    id ∈ db'.children x ↔ id ∈ db.children x := by
  rw [mem_children, mem_children]
  exact ⟨h.isChild, h.symm.isChild⟩

/-- **Marking marks what is below, and nothing else.** -/
theorem marked_of_markInvalid : ∀ {steps : ℕ} {pending : List Digest} {db db' : Db},
    Db.markInvalid steps pending db = .ok db' → Marked pending db db'
  | steps, [], db, db', h => by
    unfold Db.markInvalid at h
    cases h
    exact ⟨rfl, rfl, .refl _, fun _ _ _ ⟨_, hp, _⟩ => absurd hp List.not_mem_nil, fun _ _ => rfl⟩
  | 0, x :: pending, db, db', h => by
    unfold Db.markInvalid at h
    cases h
  | steps + 1, x :: pending, db, db', h => by
    unfold Db.markInvalid at h
    have ih := marked_of_markInvalid h
    have hset : SameRows db (db.setStatus x .invalid) := .update_status rfl
    have hiff : ∀ id, (∃ p ∈ ((db.setStatus x .invalid).children x).reverse ++ pending,
        Below (db.setStatus x .invalid) p id) ↔
        ∃ p ∈ (db.children x).reverse ++ pending, Below db p id := by
      intro id
      constructor
      · rintro ⟨p, hp, hb⟩
        refine ⟨p, ?_, hset.below hb⟩
        rw [List.mem_append, List.mem_reverse] at hp ⊢
        exact hp.imp (children_congr hset x p).1 fun h => h
      · rintro ⟨p, hp, hb⟩
        refine ⟨p, ?_, hset.symm.below hb⟩
        rw [List.mem_append, List.mem_reverse] at hp ⊢
        exact hp.imp (children_congr hset x p).2 fun h => h
    have hlookup : ∀ id, id ≠ x →
        (db.setStatus x .invalid).headers.lookup id = db.headers.lookup id :=
      fun id hid => Table.lookup_update_ne hid
    have honly : HeadersOnly db (db.setStatus x .invalid) := rfl
    refine ⟨honly.trans ih.headersOnly, ih.sealedChunks, hset.trans ih.rows,
      fun id r' hr' hb => ?_, fun id hb => ?_⟩
    · rcases below_cons.1 hb with rfl | hb
      · by_cases hagain : ∃ p ∈ ((db.setStatus id .invalid).children id).reverse ++ pending,
            Below (db.setStatus id .invalid) p id
        · exact ih.marked id r' hr' hagain
        · rw [ih.kept id hagain] at hr'
          change (Table.update id _ db.headers).lookup id = some r' at hr'
          rw [Table.lookup_update_self] at hr'
          obtain ⟨_, -, rfl⟩ := Option.map_eq_some_iff.1 hr'
          rfl
      · exact ih.marked id r' hr' ((hiff id).2 hb)
    · rw [below_cons, not_or] at hb
      rw [ih.kept id (fun h => hb.2 ((hiff id).1 h)), hlookup id hb.1]

/-! ## The walk ends -/

/-- Every row whose parent is stored is one higher than it. -/
def Graded (db : Db) : Prop :=
  ∀ id r p, db.headers.lookup id = some r → db.headers.lookup r.header.prevId = some p →
    r.height = p.height + 1

theorem SameRows.graded (h : SameRows db db') (hg : Graded db) : Graded db' := by
  intro id r' p' hr' hp'
  obtain ⟨r, hr, hh, -, -⟩ := h.lookup hr'
  obtain ⟨p, hp, hph, -, -⟩ := h.lookup hp'
  rw [hh] at hp
  rw [HeaderRow.height, HeaderRow.height, hh, hph]
  exact hg id r p hr hp

/-- How far the walk from a root has come: which rows it marked, which
are pending, and that none is there twice. -/
structure Walk (db : Db) (root : Digest) (visited pending : List Digest) : Prop where
  nodup : (visited ++ pending).Nodup
  stored : ∀ x ∈ visited ++ pending, ∃ r, db.headers.lookup x = some r ∧
    (x = root ∨ r.header.prevId ∈ visited)
  above : ∀ x ∈ visited ++ pending, ∀ r r₀, db.headers.lookup x = some r →
    db.headers.lookup root = some r₀ → r₀.height ≤ r.height

/-- One more row marked. -/
theorem Walk.step {root x : Digest} {visited pending : List Digest} (hg : Graded db)
    (h : Walk db root visited (x :: pending)) :
    Walk db root (visited ++ [x]) ((db.children x).reverse ++ pending) := by
  have hx : x ∈ visited ++ x :: pending := List.mem_append_right _ List.mem_cons_self
  obtain ⟨rx, hrx, -⟩ := h.stored x hx
  have hnodup : (visited ++ [x] ++ pending).Nodup := by
    have := h.nodup
    rwa [List.append_cons] at this
  have hxv : x ∉ visited := by
    have := (List.nodup_append.1 h.nodup).2.2
    exact fun hm => this x hm x List.mem_cons_self rfl
  -- A child is new: its parent was not marked before, and it is above the root.
  have hnew : ∀ c ∈ db.children x, c ∉ visited ++ [x] ++ pending := by
    intro c hc hm
    rw [List.append_assoc, List.singleton_append] at hm
    obtain ⟨rc, hrc, hp⟩ := mem_children.1 hc
    obtain ⟨rc', hrc', hroot⟩ := h.stored c hm
    rw [hrc, Option.some.injEq] at hrc'
    subst hrc'
    rcases hroot with rfl | hv
    · have h1 := hg c rc rx hrc (by rw [hp]; exact hrx)
      have h2 := h.above x hx rx rc hrx hrc
      omega
    · rw [hp] at hv
      exact hxv hv
  have hmem : ∀ y, y ∈ visited ++ [x] ++ ((db.children x).reverse ++ pending) →
      y ∈ db.children x ∨ y ∈ visited ++ x :: pending := by
    intro y hy
    simp only [List.mem_append, List.mem_reverse, List.mem_cons] at hy ⊢
    tauto
  refine ⟨?_, fun y hy => ?_, fun y hy r r₀ hr hr₀ => ?_⟩
  · have hperm : (visited ++ [x] ++ ((db.children x).reverse ++ pending)).Perm
        (db.children x ++ (visited ++ [x] ++ pending)) := by
      have h1 : ((db.children x).reverse ++ pending).Perm (db.children x ++ pending) :=
        (List.reverse_perm _).append_right _
      have hcomm : (visited ++ [x] ++ db.children x).Perm (db.children x ++ (visited ++ [x])) :=
        List.perm_append_comm
      have h2 := hcomm.append_right pending
      simp only [List.append_assoc] at h1 h2 ⊢
      exact ((h1.append_left [x]).append_left visited).trans h2
    rw [hperm.nodup_iff, List.nodup_append]
    exact ⟨children_nodup db x, hnodup, fun a ha b hb he => hnew a ha (he ▸ hb)⟩
  · rcases hmem y hy with hc | hm
    · obtain ⟨r, hr, hp⟩ := mem_children.1 hc
      exact ⟨r, hr, Or.inr (by rw [hp]; simp)⟩
    · obtain ⟨r, hr, hroot⟩ := h.stored y hm
      exact ⟨r, hr, hroot.imp_right fun hv => List.mem_append_left _ hv⟩
  · rcases hmem y hy with hc | hm
    · obtain ⟨r', hr', hp⟩ := mem_children.1 hc
      rw [hr, Option.some.injEq] at hr'
      subst hr'
      have h1 := hg y r rx hr (by rw [hp]; exact hrx)
      have h2 := h.above x hx rx r₀ hrx hr₀
      omega
    · exact h.above y hm r r₀ hr hr₀

theorem markInvalid_isOk_of_walk {root : Digest} : ∀ (steps : ℕ) (visited pending : List Digest)
    (db : Db), Graded db → Walk db root visited pending →
    db.headers.entries.length + 1 = steps + visited.length →
      ∃ db', Db.markInvalid steps pending db = .ok db'
  | steps, visited, [], db, _, _, _ => ⟨db, by cases steps <;> rfl⟩
  | 0, visited, x :: pending, db, hg, h, hs => by
    -- More rows marked than there are.
    have hsub : (visited ++ x :: pending) ⊆ db.headers.keys := fun y hy => by
      obtain ⟨r, hr, -⟩ := h.stored y hy
      exact Table.mem_of_lookup hr
    have hle := (List.subperm_of_subset h.nodup hsub).length_le
    rw [List.length_append, List.length_cons, Table.length_keys] at hle
    omega
  | steps + 1, visited, x :: pending, db, hg, h, hs => by
    have hset : SameRows db (db.setStatus x .invalid) := .update_status rfl
    have hstep := h.step hg
    have hlen : (db.setStatus x .invalid).headers.entries.length = db.headers.entries.length := by
      have hkeys : ∀ y, y ∈ (db.setStatus x .invalid).headers.keys ↔ y ∈ db.headers.keys := by
        intro y
        change y ∈ (db.setStatus x .invalid).headers ↔ y ∈ db.headers
        rw [← AList.lookup_isSome, ← AList.lookup_isSome, ← Option.isSome_map,
          ← Option.isSome_map (x := db.headers.lookup y), hset y]
      rw [← Table.length_keys, ← Table.length_keys]
      exact ((List.perm_ext_iff_of_nodup (AList.keys_nodup _) (AList.keys_nodup _)).2
        hkeys).length_eq
    have hchildren : ((db.setStatus x .invalid).children x).Perm (db.children x) :=
      (List.perm_ext_iff_of_nodup (children_nodup _ x) (children_nodup _ x)).2
        (children_congr hset x)
    have hwalk : Walk (db.setStatus x .invalid) root (visited ++ [x])
        (((db.setStatus x .invalid).children x).reverse ++ pending) := by
      have hperm : (visited ++ [x] ++ (((db.setStatus x .invalid).children x).reverse ++ pending)).Perm
          (visited ++ [x] ++ ((db.children x).reverse ++ pending)) :=
        (((List.reverse_perm _).trans (hchildren.trans (List.reverse_perm _).symm)).append_right
          pending).append_left _
      refine ⟨hperm.nodup_iff.2 hstep.nodup, fun y hy => ?_, fun y hy r r₀ hr hr₀ => ?_⟩
      · obtain ⟨r, hr, hroot⟩ := hstep.stored y (hperm.mem_iff.1 hy)
        obtain ⟨r', hr', hh, -, -⟩ := hset.symm.lookup hr
        exact ⟨r', hr', by rw [← hh]; exact hroot⟩
      · obtain ⟨r', hr', hh, -, -⟩ := hset.lookup hr
        obtain ⟨r₀', hr₀', hh₀, -, -⟩ := hset.lookup hr₀
        rw [HeaderRow.height, HeaderRow.height, hh, hh₀]
        exact hstep.above y (hperm.mem_iff.1 hy) r' r₀' hr' hr₀'
    have hsteps : (db.setStatus x .invalid).headers.entries.length + 1 =
        steps + (visited ++ [x]).length := by
      rw [hlen, List.length_append, List.length_singleton]
      omega
    exact markInvalid_isOk_of_walk steps _ _ _ (hset.graded hg) hwalk hsteps

/-- **Marking ends.** -/
theorem markInvalid_isOk (hg : Graded db) {r : HeaderRow} (hr : db.headers.lookup id = some r) :
    ∃ db', Db.markInvalid (db.headers.entries.length + 1) [id] db = .ok db' := by
  refine markInvalid_isOk_of_walk _ [] [id] db hg (⟨?_, ?_, ?_⟩ : Walk db id [] [id]) rfl
  · exact List.nodup_singleton _
  · intro x hx
    have hx' : x = id := by simpa using hx
    exact ⟨r, by rw [hx']; exact hr, Or.inl hx'⟩
  · intro x hx r₁ r₀ hr₁ hr₀
    have hx' : x = id := by simpa using hx
    rw [hx', hr₀, Option.some.injEq] at hr₁
    rw [hr₁]

end TalCash
