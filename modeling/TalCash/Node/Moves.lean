import TalCash.Common.Keeps
import TalCash.Node.Chain
/-!
# Moves of the database

What a call can do to the database follows from what its writes do to it,
whatever the files hold and whatever the call returns or raises. For a
relation between databases that each write obeys, every operation of the
chain manager moves the database along it.
-/

namespace TalCash

variable [Primitives] {params : NetworkParams} {R : Db → Db → Prop}

/-- Two stores whose databases stand in a relation. -/
def OnDb (R : Db → Db → Prop) (s s' : Store) : Prop := R s.db s'.db

namespace Store

open Exec

omit [Primitives] in
theorem move_onDb (hR : Move R) : Move (OnDb R) := ⟨fun s => hR.refl s.db, fun h h' => hR.trans h h'⟩

/-! ## Reading and writing -/

omit [Primitives] in
theorem keeps_onFiles (hR : Move R) {α : Type} (x : FilesM α) : Keeps (OnDb R) (onFiles x) :=
  Keeps.zoom (T := fun _ _ => True) (fun _ => wp_of_forall (fun _ _ => trivial) fun _ _ => trivial)
    fun s _ _ => hR.refl s.db

omit [Primitives] in
theorem keeps_writeDb {f : Db → Except PyError Db} (hf : ∀ db db', f db = .ok db' → R db db')
    (hR : Move R) : Keeps (OnDb R) (writeDb f) := by
  intro s
  simp only [writeDb, wp_bind, wp_get, wp_lift, wp_set]
  exact ⟨fun db' h => hf s.db db' h, fun _ _ => hR.refl s.db⟩

omit [Primitives] in
theorem keeps_transaction (hR : Move R) {α : Type} {x : StoreM α} (hx : Keeps (OnDb R) x) :
    Keeps (OnDb R) (transaction x) :=
  hx.atomically fun s _ _ => hR.refl s.db

theorem keeps_blockBytes (hR : Move R) (id : Digest) : Keeps (OnDb R) (blockBytes id) := by
  refine Keeps.get_bind fun s => ?_
  split
  · exact wp_pure.2 (hR.refl _)
  · split <;> exact Keeps.map (keeps_onFiles hR _) s

theorem keeps_block (hR : Move R) (id : Digest) : Keeps (OnDb R) (Store.block id) := by
  refine Keeps.bind (move_onDb hR) (keeps_blockBytes hR id) fun data => ?_
  split
  · exact Keeps.pure (move_onDb hR) _
  · exact Keeps.map (Keeps.lift (move_onDb hR) _)

theorem keeps_mainBlock (hR : Move R) (height : ℕ) : Keeps (OnDb R) (mainBlock height) := by
  refine Keeps.get_bind fun s => ?_
  split
  · exact wp_pure.2 (hR.refl _)
  · exact keeps_block hR _ s

theorem keeps_context (hR : Move R) (parent : BlockHeader) :
    Keeps (OnDb R) (context params parent) := by
  have hM := move_onDb hR
  have hmatured : Keeps (OnDb R) (maturedCoinbase params (parent.height + 1)) := by
    refine Keeps.ite (fun _ => Keeps.bind hM (keeps_mainBlock hR _) fun b => ?_)
      fun _ => Keeps.pure hM _
    split
    · exact Keeps.throw hM _
    · exact Keeps.map (Keeps.lift hM _)
  exact Keeps.bind hM hmatured fun _ => Keeps.get_bind fun s =>
    Keeps.bind hM (Keeps.lift hM _) (fun _ => Keeps.bind hM (Keeps.lift hM _) fun _ =>
      Keeps.pure hM _) s

/-! ## Connecting and disconnecting -/

/-- Connecting blocks obeys the relation. -/
def Connects (params : NetworkParams) (R : Db → Db → Prop) : Prop :=
  ∀ {b ctx db db'}, Db.connectBlock params b ctx db = .ok db' → R db db'

theorem keeps_connect (hR : Move R) (hc : Connects params R) (b : Block) :
    Keeps (OnDb R) (connect params b) := by
  have hM := move_onDb hR
  refine Keeps.get_bind fun s => Keeps.bind hM (Keeps.lift hM _) (fun tip => ?_) s
  exact Keeps.bind hM (Keeps.require hM _ _) fun _ => Keeps.bind hM (keeps_context hR _) fun ctx =>
    keeps_writeDb (fun _ _ h => hc h) hR

/-- The writes of a switch and of sealing obey the relation. -/
structure Switches (params : NetworkParams) (R : Db → Db → Prop) : Prop where
  connect : Connects params R
  disconnect : ∀ {height b db db'}, Db.disconnectBlock height b db = .ok db' → R db db'
  mark : ∀ {steps ids db db'}, Db.markInvalid steps ids db = .ok db' → R db db'
  sealed : ∀ {index placed lost db db'}, sealDb index placed lost db = .ok db' → R db db'

theorem keeps_disconnectTo (hR : Move R) (hs : Switches params R) (fork : ℕ) : ∀ steps : ℕ,
    Keeps (OnDb R) (disconnectTo fork steps)
  | 0 => Keeps.get_bind fun s => Keeps.ite (fun _ => Keeps.throw (move_onDb hR) _)
      (fun _ => Keeps.pure (move_onDb hR) _) s
  | steps + 1 => by
    have hM := move_onDb hR
    have htip : Keeps (OnDb R) disconnectTip := by
      refine Keeps.get_bind fun s => Keeps.bind hM (keeps_mainBlock hR _) (fun b => ?_) s
      split
      · exact Keeps.throw hM _
      · exact Keeps.bind hM (keeps_writeDb (fun _ _ h => hs.disconnect h) hR) fun _ =>
          Keeps.pure hM _
    refine Keeps.get_bind fun s => Keeps.ite (fun _ => ?_) (fun _ => Keeps.pure hM _) s
    exact Keeps.bind hM htip fun _ => Keeps.bind hM (keeps_disconnectTo hR hs fork steps) fun _ =>
      Keeps.pure hM _

theorem keeps_switch (hR : Move R) (hs : Switches params R) (branch : List Digest) (fork : ℕ) :
    Keeps (OnDb R) (switch params branch fork) := by
  have hM := move_onDb hR
  have hone : ∀ id, Keeps (OnDb R) (connectStored params id) := by
    intro id
    refine Keeps.bind hM (keeps_block hR id) fun b => ?_
    split
    · exact Keeps.throw hM _
    · refine Keeps.bind hM (Keeps.attempt (keeps_connect hR hs.connect _)) fun r => ?_
      split
      · exact Keeps.pure hM _
      · exact Keeps.throw hM _
      · exact Keeps.throw hM _
  refine Keeps.get_bind fun s => Keeps.bind hM (keeps_disconnectTo hR hs fork _) (fun _ => ?_) s
  exact Keeps.bind hM (Keeps.mapM hM fun id _ => hone id) fun _ => Keeps.pure hM _

/-! ## Sealing -/

theorem keeps_mainBytes (hR : Move R) : ∀ (count first : ℕ), Keeps (OnDb R) (mainBytes first count)
  | 0, _ => Keeps.pure (move_onDb hR) _
  | count + 1, first => by
    have hM := move_onDb hR
    refine Keeps.get_bind fun s => ?_
    split
    · exact wp_throw.2 (hR.refl _)
    · refine Keeps.bind hM (keeps_blockBytes hR _) (fun data => ?_) s
      split
      · exact Keeps.throw hM _
      · exact Keeps.bind hM (keeps_mainBytes hR count (first + 1)) fun _ => Keeps.pure hM _

theorem keeps_sealChunk (hR : Move R) (hs : Switches params R) (networkId index first last : ℕ) :
    Keeps (OnDb R) (sealChunk networkId index first last) := by
  have hM := move_onDb hR
  refine Keeps.bind hM (keeps_mainBytes hR _ _) fun _ =>
    Keeps.bind hM (keeps_onFiles hR _) fun _ => Keeps.get_bind fun s => ?_
  exact Keeps.bind hM (keeps_transaction hR (keeps_writeDb (fun _ _ h => hs.sealed h) hR)) (fun _ =>
    Keeps.forM hM fun _ _ => keeps_onFiles hR _) s

theorem keeps_sealReadyChunks (hR : Move R) (hs : Switches params R) : ∀ steps : ℕ,
    Keeps (OnDb R) (sealReadyChunks params steps)
  | 0 => Keeps.get_bind fun s => Keeps.ite (fun _ => Keeps.throw (move_onDb hR) _)
      (fun _ => Keeps.pure (move_onDb hR) _) s
  | steps + 1 => by
    have hM := move_onDb hR
    refine Keeps.get_bind fun s => Keeps.ite (fun _ => ?_) (fun _ => Keeps.pure hM _) s
    exact Keeps.bind hM (keeps_sealChunk hR hs _ _ _ _) fun _ => keeps_sealReadyChunks hR hs steps

/-- **Following a branch** moves the database along. -/
theorem keeps_switchTo (hR : Move R) (hs : Switches params R) (id : Digest) :
    Keeps (OnDb R) (switchTo params id) := by
  have hM := move_onDb hR
  refine Keeps.get_bind fun s => Keeps.bind hM (Keeps.lift hM _) (fun x => ?_) s
  refine Keeps.bind hM (Keeps.attempt (keeps_transaction hR (keeps_switch hR hs _ _))) fun r => ?_
  split
  · exact Keeps.get_bind fun s => Keeps.bind hM (keeps_sealReadyChunks hR hs _) (fun _ =>
      Keeps.pure hM _) s
  · exact Keeps.get_bind fun s => Keeps.bind hM (keeps_transaction hR
      (keeps_writeDb (fun _ _ h => hs.mark h) hR)) (fun _ => Keeps.pure hM _) s
  · exact Keeps.throw hM _

/-! ## Importing -/

/-- The writes of an import obey the relation, for the blocks of a list. -/
structure Imports (params : NetworkParams) (blocks : List Block) (R : Db → Db → Prop) : Prop where
  connect : Connects params R
  locate : ∀ {id l db db'}, Db.setLocation id l db = .ok db' → R db db'
  add : ∀ {b work l db db'}, b ∈ blocks → Db.addRow b.header work .stored (some l) db = .ok db' →
    R db db'
  count : ∀ db n, R db { db with sealedChunks := n }

theorem keeps_importBlocks (hR : Move R) {blocks : List Block} (hi : Imports params blocks R) :
    ∀ l : List (Block × ChunkLocation), (∀ p ∈ l, p.1 ∈ blocks) →
      Keeps (OnDb R) (importBlocks params l)
  | [], _ => Keeps.pure (move_onDb hR) _
  | (b, location) :: rest, hl => by
    have hM := move_onDb hR
    have hb : b ∈ blocks := hl _ List.mem_cons_self
    have hrest := keeps_importBlocks hR hi rest fun p hp => hl p (List.mem_cons_of_mem _ hp)
    have hset : Keeps (OnDb R) (writeDb (Db.setLocation b.blockId location)) :=
      keeps_writeDb (fun _ _ h => hi.locate h) hR
    have hconnect : Keeps (OnDb R) (do
        connect params b; let added ← importBlocks params rest; pure (b :: added)) :=
      Keeps.bind hM (keeps_connect hR hi.connect b) fun _ => Keeps.bind hM hrest fun _ =>
        Keeps.pure hM _
    refine Keeps.get_bind fun s => Keeps.ite (fun _ => Keeps.bind hM hset fun _ => hrest)
      (fun _ => Keeps.bind hM (Keeps.lift hM _) fun tip => Keeps.ite (fun _ => Keeps.throw hM _)
        fun _ => Keeps.ite (fun _ => ?_) fun _ => Keeps.bind hM hset fun _ => hconnect) s
    have hadd : Keeps (OnDb R) (addBlock b (tip.chainWork + blockWork b.header.target) .stored
        (some location)) := keeps_writeDb (fun _ _ h => hi.add hb h) hR
    exact Keeps.bind hM hadd fun _ => hconnect

/-- Applying a chunk moves the database as its transaction does. -/
theorem keeps_applyChunk_of_import (hR : Move R) {checked : CheckedChunk}
    (himport : Keeps (OnDb R) (transaction (importChunk params checked))) :
    Keeps (OnDb R) (applyChunk params checked) := by
  have hM := move_onDb hR
  refine Keeps.get_bind fun s => Keeps.ite (fun _ => Keeps.throw hM _) (fun _ => ?_) s
  refine Keeps.ite (fun _ => Keeps.bind hM (keeps_onFiles hR _) fun _ => ?_) fun _ => ?_
  -- Whether or not the file was there, only files change after the import.
  all_goals
    refine Keeps.bind hM (Keeps.attempt himport) fun r => ?_
    split
    · exact Keeps.bind hM (Keeps.forM hM fun _ _ => keeps_onFiles hR _) fun _ => Keeps.pure hM _
    · exact Keeps.ite (fun _ => Keeps.bind hM (keeps_onFiles hR _) fun _ => Keeps.throw hM _)
        fun _ => Keeps.throw hM _
    · exact Keeps.throw hM _

/-- **Applying a chunk** moves the database along. -/
theorem keeps_applyChunk (hR : Move R) {checked : CheckedChunk}
    (hi : Imports params checked.blocks R) : Keeps (OnDb R) (applyChunk params checked) := by
  have hM := move_onDb hR
  refine keeps_applyChunk_of_import hR (keeps_transaction hR ?_)
  refine Keeps.bind hM (keeps_importBlocks hR hi _ fun p hp => (List.of_mem_zip hp).1) fun _ => ?_
  refine Keeps.bind hM (keeps_writeDb (fun db db' h => ?_) hR) fun _ => Keeps.pure hM _
  rw [← Except.ok.inj h]
  exact hi.count db _

end Store

end TalCash
