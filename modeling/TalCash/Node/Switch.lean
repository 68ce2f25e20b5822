import TalCash.Node.Rows
/-!
# Switching to a branch

The transaction of a switch, taken apart: undoing takes blocks off the
ledger down to the fork, connecting puts the branch on, and a block that
the ledger refuses stops it with the state before. `switch_spec` is all
that later results use of the two loops.
-/

namespace TalCash

open BlockFiles Ledger

variable [Primitives] {params : NetworkParams} {B : Set Block} {lim : ℕ} {s s' : Store}
variable {L L' : Ledger} {b block : Block} {r : HeaderRow} {id : Digest}

namespace Good

/-! ## Undoing -/

theorem disconnectTo_spec : ∀ (steps : ℕ) {s : Store} {L : Ledger}, Good params B lim s L →
    ∀ (fork : ℕ), fork < L.chain.length → L.chain.length ≤ fork + 1 + steps →
      Exec.wp (Store.disconnectTo fork steps)
        (fun bs s' => ∃ L₀, L.chain = bs ++ L₀.chain ∧ L₀.chain.length = fork + 1 ∧
          L₀.extendAll params bs.reverse = .ok L ∧ Good params B lim s' L₀ ∧ Store.Kept [] s s')
        (fun _ _ => False) s
  | 0, s, L, h, fork, hf, hs => by
    have htip := h.tables.tipHeight h.valid
    simp only [Store.disconnectTo, Exec.wp_bind, Exec.wp_get]
    rw [Exec.wp_ite]
    exact ⟨fun hlt => by omega, fun _ => Exec.wp_pure.2 ⟨L, rfl, by omega, rfl, h, .refl s⟩⟩
  | steps + 1, s, L, h, fork, hf, hs => by
    have htip := h.tables.tipHeight h.valid
    simp only [Store.disconnectTo, Exec.wp_bind, Exec.wp_get]
    rw [Exec.wp_ite]
    refine ⟨fun hlt => ?_, fun hge => Exec.wp_pure.2 ⟨L, rfl, by omega, rfl, h, .refl s⟩⟩
    obtain ⟨b, parent, rest, hL⟩ : ∃ b parent rest, L.chain = b :: parent :: rest := by
      rcases hc : L.chain with - | ⟨b, - | ⟨parent, rest⟩⟩
      · rw [hc] at htip; cases htip
      · rw [hc, List.length_singleton] at htip; omega
      · exact ⟨b, parent, rest, rfl⟩
    obtain ⟨L₁, hv₁, hc₁, he⟩ := h.valid.uncons hL
    rw [Exec.wp_bind]
    refine (h.disconnectTip_spec hv₁ he).mono ?_ fun _ _ h => h
    rintro x s₁ ⟨rfl, h₁, hk₁⟩
    have hlen : L.chain.length = L₁.chain.length + 1 := by rw [hL, hc₁, List.length_cons]
    rw [Exec.wp_bind]
    refine (h₁.disconnectTo_spec steps fork (by omega) (by omega)).mono ?_ fun _ _ h => h
    rintro bs s₂ ⟨L₀, hchain, hl₀, hall, h₀, hk₂⟩
    refine Exec.wp_pure.2 ⟨L₀, by rw [hL, ← hc₁, hchain]; rfl, hl₀, ?_, h₀, hk₁.trans hk₂⟩
    rw [List.reverse_cons]
    exact extendAll_append.2 ⟨L₁, hall, extendAll_singleton.2 he⟩

/-! ## Connecting -/

/-- What a refused block makes of a switch. -/
def switchError (id : Digest) : PyError → PyError
  | .validation error => .connectFailed id error
  | e => e

theorem connectStored_spec (h : Good params B lim s L) (hb : HasRow params B s b) :
    Exec.wp (Store.connectStored params b.blockId)
      (fun x s' => x = b ∧ ∃ L', L.extend params b = .ok L' ∧ Good params B lim s' L' ∧
        Store.Kept [b.blockId] s s')
      (fun e s' => s.Reading s' ∧ ∃ e', Refused params L b e' ∧ e = switchError b.blockId e') s := by
  obtain ⟨r, hr, hbody⟩ := hb.row
  simp only [Store.connectStored, Exec.wp_bind]
  refine (Store.block_spec h.files hr (h.keyed _ _ hr) (fun l hl => h.located _ _ l hr hl)
    hbody).mono ?_ fun _ _ h => h.elim
  rintro x s₁ ⟨rfl, hread⟩
  have hbody₁ := hbody.reading hread.files.disk
  simp only [Exec.wp_bind, Exec.wp_attempt]
  refine ((h.reading hread).connect_spec hb.mem (by rw [hread.db]; exact hr) hbody₁).mono ?_ ?_
  · rintro _ s₂ ⟨L', he, h₂, hk⟩
    exact Exec.wp_pure.2 ⟨rfl, L', he, h₂, (show Store.Kept [] s s₁ from .of_reading hread).trans hk⟩
  · rintro e s₂ ⟨hr₂, hrefused⟩
    have hreads := hread.trans hr₂
    cases e with
    | _ =>
      simp only [Exec.wp_throw]
      exact ⟨hreads, _, hrefused, rfl⟩

/-- A list of blocks was connected up to one that was refused. -/
structure Stopped (params : NetworkParams) (L : Ledger) (bs : List Block) (e : PyError) : Prop where
  stopped : ∃ pre b post L₁ e', bs = pre ++ b :: post ∧ L.extendAll params pre = .ok L₁ ∧
    Refused params L₁ b e' ∧ e = switchError b.blockId e'

theorem connectAll_spec : ∀ (bs : List Block) {s : Store} {L : Ledger}, Good params B lim s L →
    (∀ b ∈ bs, HasRow params B s b) →
      Exec.wp ((bs.map Block.blockId).mapM (Store.connectStored params))
        (fun x s' => x = bs ∧ ∃ L', L.extendAll params bs = .ok L' ∧ Good params B lim s' L' ∧
          Store.Kept (bs.map Block.blockId) s s')
        (fun e s' => BlockFiles.Reading s.files s'.files ∧ Stopped params L bs e) s
  | [], s, L, h, _ => by
    rw [List.map_nil, List.mapM_nil]
    exact Exec.wp_pure.2 ⟨rfl, L, rfl, h, .refl s⟩
  | b :: bs, s, L, h, hbs => by
    obtain ⟨hb, hrest⟩ := List.forall_mem_cons.1 hbs
    rw [List.map_cons, List.mapM_cons, Exec.wp_bind]
    refine (h.connectStored_spec hb).mono ?_ ?_
    · rintro x s₁ ⟨rfl, L₁, he, h₁, hk₁⟩
      rw [Exec.wp_bind]
      refine (h₁.connectAll_spec bs fun c hc => (hrest c hc).kept hk₁).mono ?_ ?_
      · rintro xs s₂ ⟨rfl, L', hall, h', hk₂⟩
        exact Exec.wp_pure.2 ⟨rfl, L', extendAll_cons.2 ⟨L₁, he, hall⟩, h', hk₁.trans hk₂⟩
      · rintro e s₂ ⟨hr₂, ⟨pre, c, post, L₂, e', rfl, hpre, hrefused, rfl⟩⟩
        exact ⟨hk₁.files.trans hr₂, x :: pre, c, post, L₂, e', rfl,
          extendAll_cons.2 ⟨L₁, he, hpre⟩, hrefused, rfl⟩
    · rintro e s₁ ⟨hr₁, e', hrefused, rfl⟩
      exact ⟨hr₁.files, [], b, bs, L, e', rfl, rfl, hrefused, rfl⟩

/-! ## The switch -/

/-- **A switch** leaves the chain up to the fork with the branch on top,
or stops at a block that the ledger refuses. -/
theorem switch_spec (h : Good params B lim s L) {fork : ℕ} (hf : fork < L.chain.length)
    {bs : List Block} (hbs : ∀ b ∈ bs, HasRow params B s b) :
    Exec.wp (Store.transaction (Store.switch params (bs.map Block.blockId) fork))
      (fun x s' => x.1 = bs ∧ ∃ L₀ L', L.chain = x.2 ++ L₀.chain ∧ L₀.chain.length = fork + 1 ∧
        Valid params L₀ ∧ L₀.extendAll params bs = .ok L' ∧ Good params B lim s' L' ∧
        Store.Kept (bs.map Block.blockId) s s')
      (fun e s' => s.Reading s' ∧ ∃ L₀, Valid params L₀ ∧ L₀.chain <:+ L.chain ∧
        L₀.chain.length = fork + 1 ∧ Stopped params L₀ bs e) s := by
  have htip := h.tables.tipHeight h.valid
  simp only [Store.transaction, Exec.wp_atomically, Store.switch, Exec.wp_bind, Exec.wp_get]
  refine (h.disconnectTo_spec s.db.tipHeight fork hf (by omega)).mono ?_ fun _ _ h => h.elim
  rintro ds s₁ ⟨L₀, hchain, hl₀, -, h₀, hk₁⟩
  refine (h₀.connectAll_spec bs fun b hb => (hbs b hb).kept hk₁).mono ?_ ?_
  · rintro xs s₂ ⟨rfl, L', hall, h', hk₂⟩
    exact Exec.wp_pure.2 ⟨rfl, L₀, L', hchain, hl₀, h₀.valid, hall, h', hk₁.trans hk₂⟩
  · rintro e s₂ ⟨hr₂, hstop⟩
    exact ⟨⟨rfl, hk₁.files.trans hr₂⟩, L₀, h₀.valid, hchain ▸ List.suffix_append _ _, hl₀, hstop⟩

end Good

end TalCash
