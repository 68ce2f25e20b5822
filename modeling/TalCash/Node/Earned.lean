import TalCash.Node.Writes
/-!
# Headers that were earned

A header is earned if it is that of genesis, or follows an earned header
by every rule a header can break: its height, its target, its timestamp
and its proof of work. `Spine` says that every stored header is earned
with the work beside it, and that the active chain leads through stored
rows from the tip to genesis; the windows of timestamps that the node
computes are then those of the whole ancestry.
-/

namespace TalCash

variable [Primitives] {params : NetworkParams} {H : Set BlockHeader}

/-! ## Earned headers -/

/-- No two headers of the set share an id. -/
def IdsUnique (H : Set BlockHeader) : Prop := Set.InjOn BlockHeader.blockId H

theorem idsUnique_of_collisionFree (h : CollisionFree {m | ∃ a ∈ H, a.serialize = m}) :
    IdsUnique H := fun _ ha _ hb he =>
  header_eq_of_blockId_eq h ⟨_, ha, rfl⟩ ⟨_, hb, rfl⟩ he

/-- A header obeys the rules after its parent, whose chain has this work
and these timestamps, newest first. -/
structure EarnedFrom (params : NetworkParams) (parent : BlockHeader) (parentWork : ℕ)
    (times : List ℕ) (header : BlockHeader) (work : ℕ) : Prop where
  prevId : header.prevId = parent.blockId
  height : header.height = parent.height + 1
  target : header.target = nextTarget params (genesisBlock params).header parent
  timestamp : ∃ median, medianTimePast (times.take params.medianTimeSpan) = .ok median ∧
    median < header.timestamp
  pow : meetsTarget header params.pow = true
  work : work = parentWork + blockWork header.target

/-- An earned header of `H`, the work of its chain and the timestamps of
the chain, newest first. -/
inductive Earned (params : NetworkParams) (H : Set BlockHeader) : BlockHeader → ℕ → List ℕ → Prop
  | genesis : Earned params H (genesisBlock params).header
      (blockWork (genesisBlock params).header.target) [(genesisBlock params).header.timestamp]
  | child {parent header : BlockHeader} {parentWork work : ℕ} {times : List ℕ}
      (chain : Earned params H parent parentWork times) (mem : header ∈ H)
      (rules : EarnedFrom params parent parentWork times header work) :
      Earned params H header work (header.timestamp :: times)

namespace Earned

variable {h : BlockHeader} {work work' : ℕ} {times times' : List ℕ}

theorem mem (he : Earned params H h work times) (hg : (genesisBlock params).header ∈ H) : h ∈ H := by
  cases he with
  | genesis => exact hg
  | child _ mem => exact mem

/-- Above genesis an earned header has a parent. -/
theorem parent (he : Earned params H h work times) (hpos : 0 < h.height) :
    ∃ p pwork ptimes, Earned params H p pwork ptimes ∧ EarnedFrom params p pwork ptimes h work ∧
      times = h.timestamp :: ptimes := by
  cases he with
  | genesis =>
    have := genesisBlock_height params
    rw [Block.height] at this
    omega
  | child chain _ rules => exact ⟨_, _, _, chain, rules, rfl⟩

/-- At height 0 there is only genesis. -/
theorem eq_genesis (he : Earned params H h work times) (hz : h.height = 0) :
    h = (genesisBlock params).header ∧ times = [h.timestamp] := by
  cases he with
  | genesis => exact ⟨rfl, rfl⟩
  | child _ _ rules =>
    have := rules.height
    omega

/-- **A header fixes its chain**: its work and its timestamps. -/
theorem unique (hH : IdsUnique H) (hg : (genesisBlock params).header ∈ H)
    (he : Earned params H h work times) (he' : Earned params H h work' times') :
    work = work' ∧ times = times' := by
  induction he generalizing work' times' with
  | genesis =>
    cases he' with
    | genesis => exact ⟨rfl, rfl⟩
    | child _ _ rules =>
      have := rules.height
      have := genesisBlock_height params
      rw [Block.height] at this
      omega
  | @child p h pwork work times hp _ rules ih =>
    have hheight := rules.height
    obtain ⟨q, qwork, qtimes, hq, rules', rfl⟩ := he'.parent (by omega)
    have hpq : q = p :=
      hH (hq.mem hg) (hp.mem hg) (rules'.prevId.symm.trans rules.prevId)
    subst hpq
    obtain ⟨hw, rfl⟩ := ih hq
    exact ⟨by rw [rules.work, rules'.work, hw], rfl⟩

end Earned

/-! ## The spine of the database -/

/-- Every row is that of an earned header, the active chain leads from the
tip to genesis through rows, and only rows below chunk `lim` are located
in a chunk. -/
structure Spine (params : NetworkParams) (H : Set BlockHeader) (lim : ℕ) (db : Db) : Prop where
  keyed : ∀ id r, db.headers.lookup id = some r → r.blockId = id
  earned : ∀ id r, db.headers.lookup id = some r → ∃ times, Earned params H r.header r.chainWork times
  genesis : db.mainChain.lookup 0 = some (genesisBlock params).blockId
  main : ∀ height id, db.mainChain.lookup height = some id →
    ∃ r, db.headers.lookup id = some r ∧ r.height = height
  below : ∀ height id r, db.mainChain.lookup (height + 1) = some id →
    db.headers.lookup id = some r → db.mainChain.lookup height = some r.header.prevId
  located : ∀ id r l, db.headers.lookup id = some r → r.location = some l →
    r.height < lim * params.chunkSize

namespace Spine

variable {lim lim' : ℕ} {db db' : Db} {id : Digest} {r p : HeaderRow} {b : Block}

theorem mono (h : Spine params H lim db) (hle : lim ≤ lim') : Spine params H lim' db :=
  { h with
    located := fun id r l hr hl =>
      (h.located id r l hr hl).trans_le (Nat.mul_le_mul_right _ hle) }

theorem mem (h : Spine params H lim db) (hg : (genesisBlock params).header ∈ H)
    (hr : db.headers.lookup id = some r) : r.header ∈ H := by
  obtain ⟨_, he⟩ := h.earned id r hr
  exact he.mem hg

/-- A row is found under the id of a header of `H` only if it is its row. -/
theorem header_eq (hH : IdsUnique H) (hg : (genesisBlock params).header ∈ H)
    (h : Spine params H lim db) {header : BlockHeader} (hm : header ∈ H)
    (hr : db.headers.lookup header.blockId = some r) : r.header = header :=
  hH (h.mem hg hr) hm (h.keyed _ _ hr)

omit [Primitives] in
theorem isSome_main_of_le (hbelow : ∀ height, (db.mainChain.lookup (height + 1)).isSome →
    (db.mainChain.lookup height).isSome) : ∀ {n m : ℕ}, (db.mainChain.lookup n).isSome → m ≤ n →
      (db.mainChain.lookup m).isSome := by
  intro n m hn hle
  induction n with
  | zero =>
    rw [Nat.le_zero.1 hle]
    exact hn
  | succ n ih =>
    rcases Nat.lt_succ_iff_lt_or_eq.1 (Nat.lt_succ_of_le hle) with hlt | rfl
    · exact ih (hbelow n hn) (Nat.le_of_lt_succ hlt)
    · exact hn

/-- **The tip** is the row of the highest block of the active chain, and
every height up to it has one. -/
theorem tip (h : Spine params H lim db) : ∃ r, db.tip = .ok r ∧
    db.mainChain.lookup db.tipHeight = some r.blockId ∧ db.headers.lookup r.blockId = some r ∧
      r.height = db.tipHeight := by
  obtain ⟨id, hid⟩ := Option.isSome_iff_exists.1
    (Table.isSome_lookup_maxKey (t := db.mainChain) (by rw [h.genesis]; rfl))
  obtain ⟨r, hr, hh⟩ := h.main _ _ hid
  have hkey := h.keyed _ _ hr
  refine ⟨r, ?_, hkey ▸ hid, hkey ▸ hr, hh⟩
  unfold Db.tip Db.mainId Db.tipHeight
  rw [hid, Option.bind_some, Db.header, hr]

theorem isSome_main_iff (h : Spine params H lim db) {height : ℕ} :
    (db.mainChain.lookup height).isSome ↔ height ≤ db.tipHeight := by
  constructor
  · exact fun hs => Table.le_maxKey hs
  · intro hle
    refine isSome_main_of_le (fun n hn => ?_)
      (Table.isSome_lookup_maxKey (t := db.mainChain) (by rw [h.genesis]; rfl)) hle
    obtain ⟨id, hid⟩ := Option.isSome_iff_exists.1 hn
    obtain ⟨r, hr, -⟩ := h.main _ _ hid
    rw [h.below _ _ _ hid hr]
    rfl

theorem isOnMainChain_iff (h : Spine params H lim db) :
    db.isOnMainChain id = true ↔ ∃ height, db.mainChain.lookup height = some id := by
  unfold Db.isOnMainChain Db.header Db.mainId
  constructor
  · intro hon
    split at hon
    · cases hon
    · exact ⟨_, of_decide_eq_true hon⟩
  · rintro ⟨height, hid⟩
    obtain ⟨r, hr, rfl⟩ := h.main _ _ hid
    rw [hr]
    exact decide_eq_true hid

/-! ## Windows of timestamps -/

/-- The parent of a row above genesis, of the chain that earned it. -/
theorem parent_row (hH : IdsUnique H) (hg : (genesisBlock params).header ∈ H)
    (h : Spine params H lim db) {times : List ℕ} (he : Earned params H r.header r.chainWork times)
    (hpos : 0 < r.height) (hp : db.headers.lookup r.header.prevId = some p) :
    ∃ ptimes, Earned params H p.header p.chainWork ptimes ∧
      EarnedFrom params p.header p.chainWork ptimes r.header r.chainWork ∧
      times = r.header.timestamp :: ptimes := by
  obtain ⟨q, qwork, qtimes, hq, rules, rfl⟩ := he.parent hpos
  obtain ⟨ptimes, hpe⟩ := h.earned _ _ hp
  have hqp : q = p.header :=
    hH (hq.mem hg) (hpe.mem hg) (rules.prevId.symm.trans (h.keyed _ _ hp).symm)
  subst hqp
  obtain ⟨rfl, rfl⟩ := hq.unique hH hg hpe
  exact ⟨_, hpe, rules, rfl⟩

/-- The window of a block of the active chain, where rows may have been
added. -/
theorem recentTimestamps_main (hH : IdsUnique H) (hg : (genesisBlock params).header ∈ H)
    (h : Spine params H lim db)
    (hsub : ∀ id r, db.headers.lookup id = some r → ∃ r', db'.headers.lookup id = some r' ∧
      r'.header = r.header) :
    ∀ (count : ℕ) {r r' : HeaderRow} {times : List ℕ},
      db.mainChain.lookup r.height = some r.blockId → db.headers.lookup r.blockId = some r →
      r'.header = r.header → Earned params H r.header r.chainWork times →
      db'.recentTimestamps count (some r') = times.take count
  | 0, _, _, _, _, _, _, _ => rfl
  | count + 1, r, r', times, hm, hr, hrr, he => by
    have hheight : r'.height = r.height := by rw [HeaderRow.height, hrr]; rfl
    rw [Db.recentTimestamps, hheight, hrr]
    rcases Nat.eq_zero_or_pos r.height with hz | hpos
    · rw [if_neg (by omega), (he.eq_genesis hz).2, List.take_succ_cons, List.take_nil]
      cases count <;> rfl
    · obtain ⟨height, hh⟩ := Nat.exists_eq_succ_of_ne_zero (Nat.ne_of_gt hpos)
      rw [hh] at hm
      have hprev := h.below _ _ _ hm hr
      obtain ⟨p, hp, hph⟩ := h.main _ _ hprev
      have hkey := h.keyed _ _ hp
      obtain ⟨ptimes, hpe, -, rfl⟩ := h.parent_row hH hg he hpos hp
      obtain ⟨p', hp', hpp⟩ := hsub _ _ hp
      rw [if_pos hpos, Db.header, hp', List.take_succ_cons,
        recentTimestamps_main hH hg h hsub count (r := p) (by rw [hph, hkey]; exact hprev)
          (by rw [hkey]; exact hp) hpp hpe]

/-- **The window of a row whose branch is stored** is that of its whole
ancestry. -/
theorem recentTimestamps_branch (hH : IdsUnique H) (hg : (genesisBlock params).header ∈ H)
    (h : Spine params H lim db) {ids : List Digest} {fork : ℕ} (hb : Branch db r ids fork)
    (hr : db.headers.lookup r.blockId = some r) {times : List ℕ}
    (he : Earned params H r.header r.chainWork times) (count : ℕ) :
    db.recentTimestamps count (some r) = times.take count := by
  induction hb generalizing times count with
  | @on r hon =>
    obtain ⟨height, hm⟩ := h.isOnMainChain_iff.1 hon
    obtain ⟨r', hr', hh⟩ := h.main _ _ hm
    rw [hr, Option.some.injEq] at hr'
    subst hr'
    rw [← hh] at hm
    exact h.recentTimestamps_main hH hg (fun id r hr => ⟨r, hr, rfl⟩) count hm hr rfl he
  | @off r p ids fork hoff hp _ ih =>
    have hpos : 0 < r.height := by
      rcases Nat.eq_zero_or_pos r.height with hz | hpos
      · have hid : r.blockId = (genesisBlock params).blockId := by
          rw [HeaderRow.blockId, (he.eq_genesis hz).1]
          rfl
        have hon := h.isOnMainChain_iff.2 ⟨0, hid ▸ h.genesis⟩
        rw [hoff] at hon
        cases hon
      · exact hpos
    cases count with
    | zero => rfl
    | succ count =>
      obtain ⟨ptimes, hpe, -, rfl⟩ := h.parent_row hH hg he hpos hp
      rw [Db.recentTimestamps, if_pos hpos, hp, List.take_succ_cons,
        ih (by rw [h.keyed _ _ hp]; exact hp) hpe]

/-! ## What writes keep -/

/-- Rows that stand for rows from before, on the same active chain. -/
theorem of_rows (h : Spine params H lim db) (hle : lim ≤ lim')
    (hmain : db'.mainChain = db.mainChain)
    (hrows : ∀ id r', db'.headers.lookup id = some r' → ∃ r, db.headers.lookup id = some r ∧
      r'.header = r.header ∧ r'.chainWork = r.chainWork ∧
      (r'.location = r.location ∨ r.height < lim' * params.chunkSize))
    (hkept : ∀ height id, db.mainChain.lookup height = some id →
      (db.headers.lookup id).isSome → (db'.headers.lookup id).isSome) :
    Spine params H lim' db' := by
  refine ⟨fun id r' hr' => ?_, fun id r' hr' => ?_, hmain ▸ h.genesis, fun height id hm => ?_,
    fun height id r' hm hr' => ?_, fun id r' l hr' hl => ?_⟩
  · obtain ⟨r, hr, hh, -, -⟩ := hrows id r' hr'
    rw [HeaderRow.blockId, hh]
    exact h.keyed id r hr
  · obtain ⟨r, hr, hh, hw, -⟩ := hrows id r' hr'
    rw [hh, hw]
    exact h.earned id r hr
  · rw [hmain] at hm
    obtain ⟨r, hr, hh⟩ := h.main height id hm
    obtain ⟨r', hr'⟩ := Option.isSome_iff_exists.1 (hkept height id hm (by rw [hr]; rfl))
    obtain ⟨r₁, hr₁, he, -, -⟩ := hrows id r' hr'
    rw [hr, Option.some.injEq] at hr₁
    subst hr₁
    exact ⟨r', hr', by rw [HeaderRow.height, he]; exact hh⟩
  · rw [hmain] at hm ⊢
    obtain ⟨r, hr, he, -, -⟩ := hrows id r' hr'
    rw [he]
    exact h.below height id r hm hr
  · obtain ⟨r, hr, he, -, hloc⟩ := hrows id r' hr'
    rw [HeaderRow.height, he]
    rcases hloc with hloc | hlt
    · exact (h.located id r l hr (hloc ▸ hl)).trans_le (Nat.mul_le_mul_right _ hle)
    · exact hlt

/-- A new row of an earned header. -/
theorem addRow (h : Spine params H lim db) {header : BlockHeader} {work : ℕ} {status : Status}
    {location : Option ChunkLocation} {times : List ℕ} (he : Earned params H header work times)
    (hl : ∀ l, location = some l → header.height < lim * params.chunkSize)
    (hdb : db.addRow header work status location = .ok db') : Spine params H lim db' := by
  obtain ⟨-, -, hnew, rfl⟩ := Db.addRow_ok_iff.1 hdb
  -- The new id was that of no row, so of no block of the active chain.
  have hold : ∀ {height id}, db.mainChain.lookup height = some id →
      (Table.put header.blockId ⟨header, work, status, location⟩ db.headers).lookup id =
        db.headers.lookup id := by
    intro height id hm
    obtain ⟨r, hr, -⟩ := h.main height id hm
    refine Table.lookup_put_ne fun hid => ?_
    rw [hid, hnew] at hr
    cases hr
  refine ⟨fun id r hr => ?_, fun id r hr => ?_, h.genesis, fun height id hm => ?_,
    fun height id r hm hr => ?_, fun id r l hr hl' => ?_⟩
  · rw [Table.lookup_put] at hr
    split at hr
    · rename_i hid
      rw [← Option.some.inj hr, hid]
      rfl
    · exact h.keyed id r hr
  · rw [Table.lookup_put] at hr
    split at hr
    · rw [← Option.some.inj hr]
      exact ⟨times, he⟩
    · exact h.earned id r hr
  · obtain ⟨r, hr, hh⟩ := h.main height id hm
    exact ⟨r, (hold hm).trans hr, hh⟩
  · exact h.below height id r hm ((hold hm).symm.trans hr)
  · rw [Table.lookup_put] at hr
    split at hr
    · rw [← Option.some.inj hr] at hl' ⊢
      exact hl l hl'
    · exact h.located id r l hr hl'

/-- The block on top of the tip is connected. -/
theorem connect (h : Spine params H lim db) (hr : db.headers.lookup b.blockId = some r)
    (hh : r.header = b.header) (hnext : b.height = db.tipHeight + 1) {tip : Digest}
    (htip : db.mainChain.lookup db.tipHeight = some tip) (hprev : b.header.prevId = tip)
    (hrows : Touched b db db')
    (hmain : db'.mainChain = Table.put b.height b.blockId db.mainChain) :
    Spine params H lim db' := by
  have hlook : ∀ {id r'}, db'.headers.lookup id = some r' → ∃ r, db.headers.lookup id = some r ∧
      r'.header = r.header ∧ r'.chainWork = r.chainWork ∧ r'.location = r.location := by
    intro id r' hr'
    rw [hrows.headers, Table.lookup_update] at hr'
    split at hr'
    · rename_i hid
      obtain ⟨r, hr, rfl⟩ := Option.map_eq_some_iff.1 hr'
      exact ⟨r, hid ▸ hr, rfl, rfl, rfl⟩
    · exact ⟨r', hr', rfl, rfl, rfl⟩
  have hback : ∀ {id r}, db.headers.lookup id = some r → ∃ r', db'.headers.lookup id = some r' ∧
      r'.header = r.header := by
    intro id r hr
    rw [hrows.headers, Table.lookup_update]
    split
    · rename_i hid
      rw [← hid, hr]
      exact ⟨_, rfl, rfl⟩
    · exact ⟨r, hr, rfl⟩
  refine ⟨fun id r' hr' => ?_, fun id r' hr' => ?_, ?_, fun height id hm => ?_,
    fun height id r' hm hr' => ?_, fun id r' l hr' hl => ?_⟩
  · obtain ⟨r, hr, he, -, -⟩ := hlook hr'
    rw [HeaderRow.blockId, he]
    exact h.keyed id r hr
  · obtain ⟨r, hr, he, hw, -⟩ := hlook hr'
    rw [he, hw]
    exact h.earned id r hr
  · rw [hmain, Table.lookup_put_ne (by omega)]
    exact h.genesis
  · rw [hmain, Table.lookup_put] at hm
    split at hm
    · rename_i hheight
      rw [← Option.some.inj hm]
      obtain ⟨r', hr', he⟩ := hback hr
      exact ⟨r', hr', by rw [HeaderRow.height, he, hh, hheight]; rfl⟩
    · obtain ⟨r, hr, he⟩ := h.main height id hm
      obtain ⟨r', hr', he'⟩ := hback hr
      exact ⟨r', hr', by rw [HeaderRow.height, he']; exact he⟩
  · obtain ⟨r₁, hr₁, he, -, -⟩ := hlook hr'
    rw [hmain, Table.lookup_put] at hm
    rw [hmain]
    split at hm
    · rename_i hheight
      rw [← Option.some.inj hm, hr, Option.some.injEq] at hr₁
      rw [Table.lookup_put_ne (by omega), he, ← hr₁, hh, hprev, ← htip]
      congr 1
      omega
    · have hle := Table.le_maxKey (t := db.mainChain) (k := height + 1) (by rw [hm]; rfl)
      rw [Db.tipHeight] at hnext
      rw [Table.lookup_put_ne (by omega), he]
      exact h.below height id r₁ hm hr₁
  · obtain ⟨r, hr, he, -, hloc⟩ := hlook hr'
    rw [HeaderRow.height, he]
    exact h.located id r l hr (hloc ▸ hl)

/-- The tip is taken off. -/
theorem disconnect (h : Spine params H lim db) (hpos : 0 < db.tipHeight)
    (hrows : db'.headers = db.headers)
    (hmain : db'.mainChain = Table.remove db.tipHeight db.mainChain) : Spine params H lim db' := by
  have hlook : ∀ {height id}, db'.mainChain.lookup height = some id →
      height ≠ db.tipHeight ∧ db.mainChain.lookup height = some id := by
    intro height id hm
    rw [hmain, Table.lookup_remove] at hm
    split at hm
    · cases hm
    · rename_i hne
      exact ⟨hne, hm⟩
  refine ⟨by rw [hrows]; exact h.keyed, by rw [hrows]; exact h.earned, ?_, fun height id hm => ?_,
    fun height id r hm hr => ?_, by rw [hrows]; exact h.located⟩
  · rw [hmain, Table.lookup_remove_ne (by omega)]
    exact h.genesis
  · rw [hrows]
    exact h.main height id (hlook hm).2
  · rw [hrows] at hr
    have hle := h.isSome_main_iff.1 (by rw [(hlook hm).2]; rfl : (db.mainChain.lookup (height + 1)).isSome)
    rw [hmain, Table.lookup_remove_ne (by omega)]
    exact h.below height id r (hlook hm).2 hr

end Spine

end TalCash
