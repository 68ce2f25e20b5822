import TalCash.Common.Exec
/-!
# Moves of a state

A relation between states that is reflexive and transitive is kept by a
program that moves every state along it, whatever its outcome. `Keeps` is
closed under the ways programs are put together, so that what a program
can do to a state follows from what its writes do.
-/

namespace Exec

variable {ε σ τ α β : Type} {R : σ → σ → Prop}

/-- A relation that standing still and moving on obey. -/
structure Move (R : σ → σ → Prop) : Prop where
  refl : ∀ s, R s s
  trans : ∀ {s s' s''}, R s s' → R s' s'' → R s s''

/-- The program moves every state along the relation. -/
def Keeps (R : σ → σ → Prop) (x : Exec ε σ α) : Prop :=
  ∀ s, wp x (fun _ s' => R s s') (fun _ s' => R s s') s

namespace Keeps

theorem pure (hR : Move R) (a : α) : Keeps R (Pure.pure a : Exec ε σ α) :=
  fun s => wp_pure.2 (hR.refl s)

theorem throw (hR : Move R) (e : ε) : Keeps R (MonadExcept.throw e : Exec ε σ α) :=
  fun s => wp_throw.2 (hR.refl s)

theorem bind (hR : Move R) {x : Exec ε σ β} {f : β → Exec ε σ α} (hx : Keeps R x)
    (hf : ∀ b, Keeps R (f b)) : Keeps R (x >>= f) := by
  intro s
  rw [wp_bind]
  refine (hx s).mono ?_ fun _ _ h => h
  intro b s₁ h₁
  exact (hf b s₁).mono (fun _ _ h => hR.trans h₁ h) fun _ _ h => hR.trans h₁ h

/-- A program that looks at the state first. -/
theorem get_bind {f : σ → Exec ε σ α}
    (hf : ∀ s, wp (f s) (fun _ s' => R s s') (fun _ s' => R s s') s) :
    Keeps R (get >>= f) := by
  intro s
  rw [wp_bind, wp_get]
  exact hf s

theorem map {x : Exec ε σ β} {f : β → α} (hx : Keeps R x) : Keeps R (f <$> x) := by
  intro s
  rw [wp_map]
  exact hx s

theorem lift (hR : Move R) (r : Except ε α) : Keeps R (Exec.lift r : Exec ε σ α) := by
  intro s
  rw [wp_lift]
  exact ⟨fun _ _ => hR.refl s, fun _ _ => hR.refl s⟩

theorem require (hR : Move R) (c : Prop) [Decidable c] (e : ε) :
    Keeps R (Exec.require c e : Exec ε σ Unit) := by
  intro s
  rw [wp_require]
  exact ⟨fun _ => hR.refl s, fun _ => hR.refl s⟩

theorem attempt {x : Exec ε σ α} (hx : Keeps R x) : Keeps R (Exec.attempt x) := by
  intro s
  rw [wp_attempt]
  exact hx s

theorem ite {c : Prop} [Decidable c] {x y : Exec ε σ α} (hx : c → Keeps R x)
    (hy : ¬ c → Keeps R y) : Keeps R (if c then x else y) := by
  split
  · exact hx ‹c›
  · exact hy ‹¬ c›

/-- A program on a part of the state. -/
theorem zoom {part : σ → τ} {put : τ → σ → σ} {x : Exec ε τ α} {T : τ → τ → Prop}
    (hx : Keeps T x) (h : ∀ s t, T (part s) t → R s (put t s)) :
    Keeps R (Exec.zoom part put x) := by
  intro s
  rw [wp_zoom]
  exact (hx (part s)).mono (fun _ t ht => h s t ht) fun _ t ht => h s t ht

theorem atomically {part : σ → τ} {put : τ → σ → σ} {x : Exec ε σ α} (hx : Keeps R x)
    (h : ∀ s s', R s s' → R s (put (part s) s')) : Keeps R (Exec.atomically part put x) := by
  intro s
  rw [wp_atomically]
  exact (hx s).mono (fun _ _ h => h) fun _ s' hs => h s s' hs

theorem mapM (hR : Move R) {f : β → Exec ε σ α} : ∀ {l : List β}, (∀ b ∈ l, Keeps R (f b)) →
    Keeps R (l.mapM f)
  | [], _ => by
    rw [List.mapM_nil]
    exact pure hR []
  | b :: l, h => by
    rw [List.mapM_cons]
    exact bind hR (h b List.mem_cons_self) fun _ =>
      bind hR (mapM hR fun c hc => h c (List.mem_cons_of_mem _ hc)) fun _ => pure hR _

theorem forM (hR : Move R) {f : β → Exec ε σ PUnit} : ∀ {l : List β}, (∀ b ∈ l, Keeps R (f b)) →
    Keeps R (l.forM f)
  | [], _ => pure hR PUnit.unit
  | b :: _, h => bind hR (h b List.mem_cons_self) fun _ =>
      forM hR fun c hc => h c (List.mem_cons_of_mem _ hc)

/-- The state a program ends in. -/
theorem final {x : Exec ε σ α} (hx : Keeps R x) (s : σ) : R s (Exec.final x s) :=
  wp_const_iff.1 (hx s)

end Keeps

end Exec
