import Mathlib
/-!
# Programs with a state and exceptions

An `Exec` program reads and writes a state and may stop with an
exception; the state it had reached then stays (Lean's `EStateM` without
backtracking). `atomically` is the exception: it puts a part of the state
back. `wp` is the weakest precondition of a program, one postcondition
for a value and one for an exception, and the rules below are equations,
so that a specification is taken apart by rewriting.
-/

/-- Programs over the state `σ` that return an `α` or raise an `ε`. -/
abbrev Exec (ε σ α : Type) := EStateM ε σ α

namespace Exec

variable {ε σ τ α β : Type}

/-- Raise unless the condition holds. -/
def require (c : Prop) [Decidable c] (e : ε) : Exec ε σ Unit :=
  if c then pure () else throw e

/-- The outcome of a pure computation. -/
def lift (r : Except ε α) : Exec ε σ α :=
  match r with
  | .ok a => pure a
  | .error e => throw e

/-- Run a program and hand its exception on as a value. -/
def attempt (x : Exec ε σ α) : Exec ε σ (Except ε α) := fun s =>
  match x s with
  | .ok a s' => .ok (.ok a) s'
  | .error e s' => .ok (.error e) s'

/-- Run a program on a part of the state. -/
def zoom (part : σ → τ) (put : τ → σ → σ) (x : Exec ε τ α) : Exec ε σ α := fun s =>
  match x (part s) with
  | .ok a t => .ok a (put t s)
  | .error e t => .error e (put t s)

/-- All or nothing for a part of the state: an exception restores it. -/
def atomically (part : σ → τ) (put : τ → σ → σ) (x : Exec ε σ α) : Exec ε σ α := fun s =>
  match x s with
  | .ok a s' => .ok a s'
  | .error e s' => .error e (put (part s) s')

/-- The state a program ends in, whatever its outcome. -/
def final (x : Exec ε σ α) (s : σ) : σ :=
  match x s with
  | .ok _ s' => s'
  | .error _ s' => s'

/-- What a program returned or raised. -/
def outcome (x : Exec ε σ α) (s : σ) : Except ε α :=
  match x s with
  | .ok a _ => .ok a
  | .error e _ => .error e

/-! ## Weakest preconditions -/

/-- Started in `s`, the program ends with a value and a state in `Q`, or
with an exception and a state in `E`. -/
def wp (x : Exec ε σ α) (Q : α → σ → Prop) (E : ε → σ → Prop) (s : σ) : Prop :=
  match x s with
  | .ok a s' => Q a s'
  | .error e s' => E e s'

variable {Q Q' : α → σ → Prop} {R : β → σ → Prop} {E E' : ε → σ → Prop} {s : σ}

theorem wp_ok {x : Exec ε σ α} {a : α} {s' : σ} (h : x s = .ok a s') :
    wp x Q E s ↔ Q a s' := by
  unfold wp; rw [h]

theorem wp_error {x : Exec ε σ α} {e : ε} {s' : σ} (h : x s = .error e s') :
    wp x Q E s ↔ E e s' := by
  unfold wp; rw [h]

/-- A specification read at a run that returned. -/
theorem wp.ok {x : Exec ε σ α} {a : α} {s' : σ} (h : wp x Q E s) (hx : x s = .ok a s') :
    Q a s' := (wp_ok hx).1 h

/-- A specification read at a run that raised. -/
theorem wp.error {x : Exec ε σ α} {e : ε} {s' : σ} (h : wp x Q E s)
    (hx : x s = .error e s') : E e s' := (wp_error hx).1 h

/-- The rule of consequence. -/
theorem wp.mono {x : Exec ε σ α} (h : wp x Q E s) (hQ : ∀ a s', Q a s' → Q' a s')
    (hE : ∀ e s', E e s' → E' e s') : wp x Q' E' s := by
  cases hx : x s with
  | ok a s' => exact (wp_ok hx).2 (hQ a s' (h.ok hx))
  | error e s' => exact (wp_error hx).2 (hE e s' (h.error hx))

/-- A program that does not raise returns. -/
theorem wp.exists_ok {x : Exec ε σ α} (h : wp x Q (fun _ _ => False) s) :
    ∃ a s', x s = .ok a s' ∧ Q a s' := by
  cases hx : x s with
  | ok a s' => exact ⟨a, s', rfl, h.ok hx⟩
  | error e s' => exact absurd (h.error hx) not_false

theorem wp_of_forall {x : Exec ε σ α} (hQ : ∀ a s', Q a s') (hE : ∀ e s', E e s') :
    wp x Q E s := by
  cases hx : x s with
  | ok a s' => exact (wp_ok hx).2 (hQ a s')
  | error e s' => exact (wp_error hx).2 (hE e s')

/-- Two specifications of one program hold together. -/
theorem wp.and {x : Exec ε σ α} (h : wp x Q E s) (h' : wp x Q' E' s) :
    wp x (fun a s' => Q a s' ∧ Q' a s') (fun e s' => E e s' ∧ E' e s') s := by
  cases hx : x s with
  | ok a s' => exact (wp_ok hx).2 ⟨h.ok hx, h'.ok hx⟩
  | error e s' => exact (wp_error hx).2 ⟨h.error hx, h'.error hx⟩

/-- A specification that does not look at the outcome speaks of the final
state. -/
theorem wp_const_iff {x : Exec ε σ α} {P : σ → Prop} :
    wp x (fun _ => P) (fun _ => P) s ↔ P (final x s) := by
  unfold wp final
  cases x s <;> rfl

theorem wp_outcome_final (x : Exec ε σ α) :
    wp x (fun a s' => outcome x s = .ok a ∧ final x s = s')
      (fun e s' => outcome x s = .error e ∧ final x s = s') s := by
  unfold wp outcome final
  cases x s <;> exact ⟨rfl, rfl⟩

/-- A specification that fixes the outcome. -/
theorem outcome_eq {x : Exec ε σ α} {r : Except ε α}
    (h : wp x (fun a _ => r = .ok a) (fun e _ => r = .error e) s) : outcome x s = r := by
  cases hx : x s with
  | ok a s' => rw [h.ok hx, outcome, hx]
  | error e s' => rw [h.error hx, outcome, hx]

theorem modify_apply (f : σ → σ) (s : σ) :
    (modify f : Exec ε σ PUnit) s = .ok ⟨⟩ (f s) := rfl

theorem get_bind_apply (f : σ → Exec ε σ α) (s : σ) : (get >>= f) s = f s s := rfl

/-- A sequence returns where both its parts do. -/
theorem bind_ok_iff {x : Exec ε σ β} {f : β → Exec ε σ α} {a : α} {s' : σ} :
    (x >>= f) s = .ok a s' ↔ ∃ b s₁, x s = .ok b s₁ ∧ f b s₁ = .ok a s' := by
  change EStateM.bind x f s = _ ↔ _
  unfold EStateM.bind
  cases x s with
  | ok b s₁ =>
    exact ⟨fun h => ⟨b, s₁, rfl, h⟩, fun ⟨_, _, h, hf⟩ => by cases h; exact hf⟩
  | error e s₁ => exact ⟨fun h => (nomatch h), fun ⟨_, _, h, _⟩ => (nomatch h)⟩

theorem lift_ok_iff {r : Except ε α} {a : α} {s' : σ} :
    (lift r : Exec ε σ α) s = .ok a s' ↔ r = .ok a ∧ s' = s := by
  cases r with
  | ok b =>
    exact ⟨fun h => by cases h; exact ⟨rfl, rfl⟩, fun ⟨h, hs⟩ => by cases h; rw [hs]; rfl⟩
  | error e => exact ⟨fun h => (nomatch h), fun h => (nomatch h.1)⟩

theorem outcome_ok_iff {x : Exec ε σ α} {a : α} :
    outcome x s = .ok a ↔ ∃ s', x s = .ok a s' := by
  unfold outcome
  cases x s with
  | ok b s' => exact ⟨fun h => ⟨s', by cases h; rfl⟩, fun ⟨_, h⟩ => by cases h; rfl⟩
  | error e s' => exact ⟨fun h => (nomatch h), fun ⟨_, h⟩ => (nomatch h)⟩

theorem final_zoom {part : σ → τ} {put : τ → σ → σ} {x : Exec ε τ α} :
    final (zoom part put x) s = put (final x (part s)) s := by
  unfold final zoom
  cases x (part s) <;> rfl

@[simp] theorem wp_pure {a : α} : wp (pure a : Exec ε σ α) Q E s ↔ Q a s := Iff.rfl

@[simp] theorem wp_throw {e : ε} : wp (throw e : Exec ε σ α) Q E s ↔ E e s := Iff.rfl

@[simp] theorem wp_bind {x : Exec ε σ β} {f : β → Exec ε σ α} :
    wp (x >>= f) Q E s ↔ wp x (fun b s' => wp (f b) Q E s') E s := by
  change (match EStateM.bind x f s with | .ok a s' => Q a s' | .error e s' => E e s') ↔ _
  unfold wp EStateM.bind
  cases x s <;> rfl

@[simp] theorem wp_map {x : Exec ε σ β} {f : β → α} :
    wp (f <$> x) Q E s ↔ wp x (fun b s' => Q (f b) s') E s := by
  change (match EStateM.map f x s with | .ok a s' => Q a s' | .error e s' => E e s') ↔ _
  unfold wp EStateM.map
  cases x s <;> rfl

@[simp] theorem wp_get {Q : σ → σ → Prop} :
    wp (get : Exec ε σ σ) Q E s ↔ Q s s := Iff.rfl

@[simp] theorem wp_set {Q : PUnit → σ → Prop} {s' : σ} :
    wp (set s' : Exec ε σ PUnit) Q E s ↔ Q ⟨⟩ s' := Iff.rfl

@[simp] theorem wp_modify {Q : PUnit → σ → Prop} {f : σ → σ} :
    wp (modify f : Exec ε σ PUnit) Q E s ↔ Q ⟨⟩ (f s) := Iff.rfl

@[simp] theorem wp_require {Q : Unit → σ → Prop} {c : Prop} [Decidable c] {e : ε} :
    wp (require c e : Exec ε σ Unit) Q E s ↔ (c → Q () s) ∧ (¬ c → E e s) := by
  unfold require
  by_cases h : c
  · rw [if_pos h, wp_pure]
    exact ⟨fun hq => ⟨fun _ => hq, fun hn => absurd h hn⟩, fun hq => hq.1 h⟩
  · rw [if_neg h, wp_throw]
    exact ⟨fun hq => ⟨fun hc => absurd hc h, fun _ => hq⟩, fun hq => hq.2 h⟩

@[simp] theorem wp_lift {r : Except ε α} :
    wp (lift r : Exec ε σ α) Q E s ↔ (∀ a, r = .ok a → Q a s) ∧ ∀ e, r = .error e → E e s := by
  cases r with
  | ok a =>
    exact ⟨fun h => ⟨fun _ he => Except.ok.inj he ▸ h, fun _ he => nomatch he⟩,
      fun h => h.1 a rfl⟩
  | error e =>
    exact ⟨fun h => ⟨fun _ he => (nomatch he), fun _ he => Except.error.inj he ▸ h⟩,
      fun h => h.2 e rfl⟩

@[simp] theorem wp_attempt {x : Exec ε σ α} {Q : Except ε α → σ → Prop} :
    wp (attempt x) Q E s ↔ wp x (fun a => Q (.ok a)) (fun e => Q (.error e)) s := by
  unfold wp attempt
  cases x s <;> rfl

@[simp] theorem wp_zoom {part : σ → τ} {put : τ → σ → σ} {x : Exec ε τ α} :
    wp (zoom part put x) Q E s ↔
      wp x (fun a t => Q a (put t s)) (fun e t => E e (put t s)) (part s) := by
  unfold wp zoom
  cases x (part s) <;> rfl

@[simp] theorem wp_atomically {part : σ → τ} {put : τ → σ → σ} {x : Exec ε σ α} :
    wp (atomically part put x) Q E s ↔ wp x Q (fun e s' => E e (put (part s) s')) s := by
  unfold wp atomically
  cases x s <;> rfl

theorem wp_ite {c : Prop} [Decidable c] {x y : Exec ε σ α} :
    wp (if c then x else y) Q E s ↔ (c → wp x Q E s) ∧ (¬ c → wp y Q E s) := by
  by_cases h : c
  · rw [if_pos h]
    exact ⟨fun hx => ⟨fun _ => hx, fun hn => absurd h hn⟩, fun hx => hx.1 h⟩
  · rw [if_neg h]
    exact ⟨fun hy => ⟨fun hc => absurd hc h, fun _ => hy⟩, fun hy => hy.2 h⟩

-- The rules above take a specification apart; unfolding `wp` would run the program instead.
attribute [irreducible] wp

end Exec
