import TalCash.Node.Good
/-!
# The rows of stored blocks

Every row of `headers` stands for a block that was checked and whose
ancestors lead to genesis (`Ancestry`), so its work is fixed by its
header. A walk from a row towards the active chain is a `Branch`: the
blocks that a switch connects, and the height at which they leave the
active chain.
-/

namespace TalCash

open BlockFiles Ledger

variable [Primitives]

/-- The messages SHA-256 sees when the blocks of a set are checked. -/
def messagesOf (B : Set Block) : Set Bytes := {m | ∃ b ∈ B, m ∈ b.messages}

theorem messages_subset {B : Set Block} {b : Block} (h : b ∈ B) :
    ∀ m ∈ b.messages, m ∈ messagesOf B := fun _ hm => ⟨b, h, hm⟩

variable {params : NetworkParams} {B : Set Block} {lim : ℕ} {s s' : Store} {L L' : Ledger}
variable {b block : Block} {r : HeaderRow} {id : Digest}

/-! ## Ancestry -/

/-- The header of a block of `B` whose ancestors, all of `B`, lead to
genesis, and the work of them all. -/
inductive Ancestry (params : NetworkParams) (B : Set Block) : BlockHeader → ℕ → Prop
  | genesis : Ancestry params B (genesisBlock params).header
      (blockWork (genesisBlock params).header.target)
  | child {p : BlockHeader} {work : ℕ} {b : Block} (parent : Ancestry params B p work) (mem : b ∈ B)
      (prevId : b.header.prevId = p.blockId) (height : b.height = p.height + 1) :
      Ancestry params B b.header (work + blockWork b.header.target)

namespace Ancestry

variable {h h' : BlockHeader} {work work' : ℕ}

theorem mem (ha : Ancestry params B h work) (hg : genesisBlock params ∈ B) :
    ∃ b ∈ B, b.header = h := by
  cases ha with
  | genesis => exact ⟨_, hg, rfl⟩
  | child _ hb _ _ => exact ⟨_, hb, rfl⟩

/-- Headers with one id are one header, among the headers of `B`. -/
theorem header_unique (hS : CollisionFree (messagesOf B)) (hg : genesisBlock params ∈ B)
    (ha : Ancestry params B h work) (ha' : Ancestry params B h' work')
    (he : h.blockId = h'.blockId) : h = h' := by
  obtain ⟨b, hb, rfl⟩ := ha.mem hg
  obtain ⟨b', hb', rfl⟩ := ha'.mem hg
  exact header_eq_of_blockId_eq hS (messages_subset hb _ b.header_mem_messages)
    (messages_subset hb' _ b'.header_mem_messages) he

/-- **A header fixes the work of its chain.** -/
theorem work_unique (hS : CollisionFree (messagesOf B)) (hg : genesisBlock params ∈ B)
    (ha : Ancestry params B h work) (ha' : Ancestry params B h work') : work = work' := by
  induction ha generalizing work' with
  | genesis =>
    generalize hh : (genesisBlock params).header = h at ha'
    cases ha' with
    | genesis => rfl
    | child _ _ _ height =>
      have hzero : (genesisBlock params).header.height = 0 := genesisBlock_height params
      rw [hh] at hzero
      change _ = _ at height
      rw [Block.height, hzero] at height
      omega
  | @child p work b hp hb prevId height ih =>
    generalize hh : b.header = h at ha'
    cases ha' with
    | genesis =>
      have hzero : (genesisBlock params).header.height = 0 := genesisBlock_height params
      rw [Block.height, hh, hzero] at height
      omega
    | @child p' work₁ b' hp' hb' prevId' height' =>
      have hpp : p = p' := by
        refine header_unique hS hg hp hp' ?_
        rw [← prevId, ← prevId', hh]
      subst hpp
      rw [ih hp']

theorem work_le (ha : Ancestry params B h work) : work ≤ (h.height + 1) * 2 ^ 256 := by
  induction ha with
  | genesis =>
    have hzero : (genesisBlock params).header.height = 0 := genesisBlock_height params
    rw [hzero]
    exact le_of_le_of_eq (blockWork_le _) (by omega)
  | @child p work b _ _ _ height ih =>
    have := blockWork_le b.header.target
    have hh : b.header.height = p.height + 1 := height
    rw [hh, Nat.add_mul (p.height + 1), Nat.one_mul]
    omega

theorem mono {B' : Set Block} (ha : Ancestry params B h work) (hB : B ⊆ B') :
    Ancestry params B' h work := by
  induction ha with
  | genesis => exact .genesis
  | child _ hb hp hh ih => exact .child ih (hB hb) hp hh

end Ancestry

/-! ## Rows -/

/-- The row of a block that was checked before it was stored. -/
structure Stored (params : NetworkParams) (B : Set Block) (f : BlockFiles) (r : HeaderRow) :
    Prop where
  ancestry : Ancestry params B r.header r.chainWork
  body : ∃ b ∈ B, CheckedBlock params b ∧ Body f r b

/-- Every row is that of a stored block. -/
def Rows (params : NetworkParams) (B : Set Block) (s : Store) : Prop :=
  ∀ id r, s.db.headers.lookup id = some r → Stored params B s.files r

theorem Rows.kept {ids : List Digest} (h : Rows params B s) (hk : Store.Kept ids s s') : Rows params B s' := by
  intro id r' hr'
  obtain ⟨r, hr, hh, hw, hl⟩ := hk.rows.lookup hr'
  obtain ⟨ha, b, hB, hc, hbody⟩ := h id r hr
  refine ⟨by rw [hh, hw]; exact ha, b, hB, hc, ?_⟩
  exact (hbody.samePlace ⟨hh, hl⟩).reading hk.files.disk

theorem Rows.reading (h : Rows params B s) (hr : s.Reading s') : Rows params B s' :=
  h.kept (show Store.Kept [] s s' from .of_reading hr)

/-- A block that has a row, and is read back from it. -/
structure HasRow (params : NetworkParams) (B : Set Block) (s : Store) (b : Block) : Prop where
  mem : b ∈ B
  checked : CheckedBlock params b
  row : ∃ r, s.db.headers.lookup b.blockId = some r ∧ Body s.files r b

theorem HasRow.kept {ids : List Digest} (h : HasRow params B s b) (hk : Store.Kept ids s s') :
    HasRow params B s' b := by
  obtain ⟨r, hr, hb⟩ := h.row
  exact ⟨h.mem, h.checked, hk.body hr hb⟩

/-- The block of a row. -/
theorem Rows.hasRow (h : Rows params B s) (hr : s.db.headers.lookup id = some r)
    (hid : r.blockId = id) : ∃ b, b.header = r.header ∧ HasRow params B s b := by
  obtain ⟨-, b, hB, hc, hb⟩ := h id r hr
  have hbid : b.blockId = id := by rw [Block.blockId, hb.header]; exact hid
  exact ⟨b, hb.header, hB, hc, r, by rw [hbid]; exact hr, hb⟩

theorem Good.hasRow (h : Good params B lim s L) (hb : b ∈ L.chain) : HasRow params B s b :=
  ⟨(h.chain b hb).1, h.valid.linked.checked hb, (h.chain b hb).2⟩

/-! ## Branches -/

/-- The walk from a row to the active chain: the ids it passes, newest
first, and the height at which it arrives. -/
inductive Branch (db : Db) : HeaderRow → List Digest → ℕ → Prop
  | on {r : HeaderRow} (on : db.isOnMainChain r.blockId = true) : Branch db r [] r.height
  | off {r p : HeaderRow} {ids : List Digest} {fork : ℕ}
      (off : db.isOnMainChain r.blockId = false) (parent : db.header r.header.prevId = some p)
      (rest : Branch db p ids fork) : Branch db r (r.blockId :: ids) fork

theorem branch_of_branchFrom {db : Db} : ∀ {steps : ℕ} {r : Option HeaderRow} {ids : List Digest}
    {fork : ℕ}, db.branchFrom steps r = .ok (ids, fork) → ∃ row, r = some row ∧ Branch db row ids fork
  | steps, none, _, _, h => by
    unfold Db.branchFrom at h
    cases h
  | 0, some row, ids, fork, h => by
    unfold Db.branchFrom at h
    split at h
    · rename_i hon
      cases h
      exact ⟨row, rfl, .on hon⟩
    · cases h
  | steps + 1, some row, ids, fork, h => by
    unfold Db.branchFrom at h
    split at h
    · rename_i hon
      cases h
      exact ⟨row, rfl, .on hon⟩
    · rename_i hoff
      obtain ⟨⟨ids', fork'⟩, h', h⟩ := bind_eq_ok.1 h
      cases h
      obtain ⟨p, hp, hb⟩ := branch_of_branchFrom h'
      exact ⟨row, rfl, .off (Bool.eq_false_iff.2 hoff) hp hb⟩

theorem branchFrom_of_branch {db : Db} {ids : List Digest} {fork : ℕ} (h : Branch db r ids fork) :
    ∀ {steps : ℕ}, ids.length ≤ steps → db.branchFrom steps (some r) = .ok (ids, fork) := by
  induction h with
  | on hon =>
    intro steps _
    cases steps <;> exact if_pos hon
  | @off r p ids fork hoff hp _ ih =>
    intro steps hs
    cases steps with
    | zero => cases hs
    | succ n =>
      rw [List.length_cons] at hs
      rw [Db.branchFrom, if_neg (by rw [hoff]; decide), hp, ih (by omega)]
      rfl

/-- The blocks of a list follow one another, the first one a given block. -/
def Follow (base : Block) (bs : List Block) : Prop :=
  List.IsChain (fun p b => b.header.prevId = p.blockId) (base :: bs)

/-- **What a walk passes are stored blocks on top of the active chain.** -/
theorem Branch.blocks {ids : List Digest} {fork : ℕ} (h : Branch s.db r ids fork)
    (hg : Good params B lim s L) (hrows : Rows params B s)
    (hr : s.db.headers.lookup r.blockId = some r) :
    ∃ base ∈ L.chain, base.height = fork ∧ ∃ bs : List Block, bs.map Block.blockId = ids.reverse ∧
      Follow base bs ∧ (∀ b ∈ bs, HasRow params B s b) ∧
      ((base :: bs).getLast (List.cons_ne_nil _ _)).header = r.header := by
  induction h with
  | @on r hon =>
    obtain ⟨c, hc, hid⟩ := hg.isOnMainChain_iff.1 hon
    obtain ⟨-, r', hr', hbody⟩ := hg.chain c hc
    rw [hid, hr, Option.some.injEq] at hr'
    subst hr'
    have hheight : c.height = r.height := by rw [HeaderRow.height, ← hbody.header]; rfl
    exact ⟨c, hc, hheight, [], rfl, List.isChain_singleton _,
      fun b hb => absurd hb List.not_mem_nil, hbody.header⟩
  | @off r p ids fork hoff hp _ ih =>
    have hpid : p.blockId = r.header.prevId := hg.keyed _ _ hp
    obtain ⟨base, hbase, hfork, bs, hids, hfollow, hall, hlast⟩ := ih (by rw [hpid]; exact hp)
    obtain ⟨b, hbh, hb⟩ := hrows.hasRow hr rfl
    have hbid : b.blockId = r.blockId := by rw [Block.blockId, hbh]; rfl
    refine ⟨base, hbase, hfork, bs ++ [b], ?_, ?_, ?_, ?_⟩
    · rw [List.map_append, hids, List.map_singleton, hbid, List.reverse_cons]
    · have hprev : b.header.prevId = ((base :: bs).getLast (List.cons_ne_nil _ _)).blockId := by
        rw [Block.blockId, hlast, hbh]
        exact hpid.symm
      unfold Follow
      rw [← List.cons_append]
      refine List.IsChain.append hfollow (List.isChain_singleton _) fun x hx y hy => ?_
      rw [List.getLast?_eq_getLast_of_ne_nil (List.cons_ne_nil _ _), Option.mem_def,
        Option.some.injEq] at hx
      rw [List.head?_cons, Option.mem_def, Option.some.injEq] at hy
      rw [← hx, ← hy]
      exact hprev
    · intro c hc
      rcases List.mem_append.1 hc with hc | hc
      · exact hall c hc
      · rw [List.mem_singleton.1 hc]; exact hb
    · rw [List.getLast_cons (by simp), List.getLast_append_of_ne_nil _ (by simp)]
      exact hbh

end TalCash
