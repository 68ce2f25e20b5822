import TalCash.Common.Exec
/-!
# Programs in lockstep

Two programs run side by side, each from its own state. They agree if
both return, and the same value, or both raise, and the same exception;
`Lockstep` says so and what holds of the two states then. Programs put
together alike from parts that agree agree.
-/

namespace Exec

variable {ε σ α β : Type}

/-- Started in `s` and `s'`, the two programs return one value, with states
in `Q`, or raise one exception, with states in `E`. -/
def Lockstep (x y : Exec ε σ α) (Q : α → σ → σ → Prop) (E : ε → σ → σ → Prop) (s s' : σ) : Prop :=
  (∃ a t t', x s = .ok a t ∧ y s' = .ok a t' ∧ Q a t t') ∨
    ∃ e t t', x s = .error e t ∧ y s' = .error e t' ∧ E e t t'

namespace Lockstep

variable {x y : Exec ε σ α} {Q Q' : α → σ → σ → Prop} {E E' : ε → σ → σ → Prop} {s s' : σ}

/-- The rule of consequence. -/
theorem mono (h : Lockstep x y Q E s s') (hQ : ∀ a t t', Q a t t' → Q' a t t')
    (hE : ∀ e t t', E e t t' → E' e t t') : Lockstep x y Q' E' s s' := by
  rcases h with ⟨a, t, t', hx, hy, h⟩ | ⟨e, t, t', hx, hy, h⟩
  · exact Or.inl ⟨a, t, t', hx, hy, hQ a t t' h⟩
  · exact Or.inr ⟨e, t, t', hx, hy, hE e t t' h⟩

theorem pure {a : α} (h : Q a s s') :
    Lockstep (Pure.pure a : Exec ε σ α) (Pure.pure a) Q E s s' := Or.inl ⟨a, s, s', rfl, rfl, h⟩

theorem throw {e : ε} (h : E e s s') :
    Lockstep (MonadExcept.throw e : Exec ε σ α) (MonadExcept.throw e) Q E s s' :=
  Or.inr ⟨e, s, s', rfl, rfl, h⟩

theorem bind {u v : Exec ε σ β} {f g : β → Exec ε σ α}
    (h : Lockstep u v (fun b t t' => Lockstep (f b) (g b) Q E t t') E s s') :
    Lockstep (u >>= f) (v >>= g) Q E s s' := by
  have hok : ∀ {u : Exec ε σ β} {f : β → Exec ε σ α} {s t : σ} {b : β}, u s = .ok b t →
      (u >>= f) s = f b t := by
    intro u f s t b hu
    show EStateM.bind u f s = _
    unfold EStateM.bind
    rw [hu]
  have herror : ∀ {u : Exec ε σ β} {f : β → Exec ε σ α} {s t : σ} {e : ε}, u s = .error e t →
      (u >>= f) s = .error e t := by
    intro u f s t e hu
    show EStateM.bind u f s = _
    unfold EStateM.bind
    rw [hu]
  rcases h with ⟨b, t, t', hu, hv, h⟩ | ⟨e, t, t', hu, hv, h⟩
  · unfold Lockstep
    rw [hok hu, hok hv]
    exact h
  · exact Or.inr ⟨e, t, t', herror hu, herror hv, h⟩

/-- Each program looks at its own state. -/
theorem get_bind {f g : σ → Exec ε σ α} (h : Lockstep (f s) (g s') Q E s s') :
    Lockstep (get >>= f) (get >>= g) Q E s s' := h

theorem lift {r : Except ε α} (hQ : ∀ a, r = .ok a → Q a s s') (hE : ∀ e, r = .error e → E e s s') :
    Lockstep (Exec.lift r : Exec ε σ α) (Exec.lift r) Q E s s' := by
  cases r with
  | ok a => exact pure (hQ a rfl)
  | error e => exact throw (hE e rfl)

theorem attempt {Q : Except ε α → σ → σ → Prop}
    (h : Lockstep x y (fun a => Q (.ok a)) (fun e => Q (.error e)) s s') :
    Lockstep (Exec.attempt x) (Exec.attempt y) Q E s s' := by
  unfold Lockstep Exec.attempt
  rcases h with ⟨a, t, t', hx, hy, h⟩ | ⟨e, t, t', hx, hy, h⟩
  · rw [hx, hy]
    exact Or.inl ⟨_, t, t', rfl, rfl, h⟩
  · rw [hx, hy]
    exact Or.inl ⟨_, t, t', rfl, rfl, h⟩

theorem ite {c : Prop} [Decidable c] {u v : Exec ε σ α} (h : c → Lockstep x y Q E s s')
    (h' : ¬ c → Lockstep u v Q E s s') :
    Lockstep (if c then x else u) (if c then y else v) Q E s s' := by
  by_cases hc : c
  · rw [if_pos hc, if_pos hc]
    exact h hc
  · rw [if_neg hc, if_neg hc]
    exact h' hc

/-- Two programs that each return nothing to tell apart. -/
theorem of_wp {x y : Exec ε σ Unit} {P P' : σ → Prop} (h : wp x (fun _ => P) (fun _ _ => False) s)
    (h' : wp y (fun _ => P') (fun _ _ => False) s') :
    Lockstep x y (fun _ t t' => P t ∧ P' t') E s s' := by
  cases hx : x s with
  | ok a t =>
    cases hy : y s' with
    | ok b t' => exact Or.inl ⟨(), t, t', hx, hy, h.ok hx, h'.ok hy⟩
    | error e' t' => exact (h'.error hy).elim
  | error e t => exact (h.error hx).elim

/-- What the first program does, alone. -/
theorem left (h : Lockstep x y Q E s s') :
    wp x (fun a t => ∃ t', Q a t t') (fun e t => ∃ t', E e t t') s := by
  rcases h with ⟨a, t, t', hx, -, h⟩ | ⟨e, t, t', hx, -, h⟩
  · rw [wp_ok hx]
    exact ⟨t', h⟩
  · rw [wp_error hx]
    exact ⟨t', h⟩

/-- What the two programs return or raise is the same. -/
theorem outcome_eq (h : Lockstep x y Q E s s') : outcome x s = outcome y s' := by
  unfold outcome
  rcases h with ⟨a, t, t', hx, hy, -⟩ | ⟨e, t, t', hx, hy, -⟩ <;> rw [hx, hy]

/-- What holds of the two states whatever the outcome holds of the last. -/
theorem final {R : σ → σ → Prop} (h : Lockstep x y (fun _ => R) (fun _ => R) s s') :
    R (Exec.final x s) (Exec.final y s') := by
  unfold Exec.final
  rcases h with ⟨a, t, t', hx, hy, h⟩ | ⟨e, t, t', hx, hy, h⟩ <;> rw [hx, hy] <;> exact h

/-- What is raised, of the first program. -/
theorem raised {e : ε} (h : Lockstep x y Q E s s') (he : outcome x s = .error e) :
    ∃ t t', E e t t' := by
  unfold outcome at he
  rcases h with ⟨a, t, t', hx, -⟩ | ⟨e', t, t', hx, -, h⟩ <;> rw [hx] at he
  · cases he
  · cases he
    exact ⟨t, t', h⟩

end Lockstep

end Exec
