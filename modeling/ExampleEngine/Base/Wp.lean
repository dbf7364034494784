import Mathlib.Algebra.Group.Int.Defs
import Mathlib.Algebra.GroupWithZero.Nat
import Mathlib.Logic.Basic

/-!
# Weakest preconditions of stateful code that may fault

Library `Base`. Code is a function from a state to either a fault or a result with a
new state. `wp` demands the postcondition of every normal return and allows only the
faults admitted by a chosen predicate, so one triple covers both outcomes.
-/

namespace ExampleEngine.Base

universe u

variable {ε σ τ α β : Type u}

/-- Code over a state of type `σ` that returns a value or stops at a fault. -/
abbrev Code (ε σ α : Type u) := StateT σ (Except ε) α

/-- Every run of `m` from `s` returns in `Q` or stops at a fault admitted by `E`. -/
def wp (E : ε → Prop) (m : Code ε σ α) (Q : α → σ → Prop) (s : σ) : Prop :=
  match m.run s with
  | .ok (a, s') => Q a s'
  | .error e => E e

/-- Returning a value establishes what already holds of it. -/
@[simp] theorem wp_pure (E : ε → Prop) (a : α) (Q : α → σ → Prop) (s : σ) :
    wp E (pure a) Q s ↔ Q a s := Iff.rfl

/-- Sequencing composes preconditions. -/
@[simp] theorem wp_bind (E : ε → Prop) (m : Code ε σ α) (f : α → Code ε σ β)
    (Q : β → σ → Prop) (s : σ) :
    wp E (m >>= f) Q s ↔ wp E m (fun a s' ↦ wp E (f a) Q s') s := by
  unfold wp
  simp only [StateT.run_bind]
  cases h : m.run s with
  | error e => rfl
  | ok p => rfl

/-- Mapping over a result maps its postcondition. -/
@[simp] theorem wp_map (E : ε → Prop) (m : Code ε σ α) (f : α → β)
    (Q : β → σ → Prop) (s : σ) :
    wp E (f <$> m) Q s ↔ wp E m (fun a s' ↦ Q (f a) s') s := by
  rw [map_eq_pure_bind, wp_bind]
  simp only [wp_pure]

/-- Reading the state returns it unchanged. -/
@[simp] theorem wp_get (E : ε → Prop) (Q : σ → σ → Prop) (s : σ) :
    wp E (get : Code ε σ σ) Q s ↔ Q s s := Iff.rfl

/-- Replacing the state forgets the old one. -/
@[simp] theorem wp_set (E : ε → Prop) (s' : σ) (Q : PUnit → σ → Prop) (s : σ) :
    wp E (set s' : Code ε σ PUnit) Q s ↔ Q ⟨⟩ s' := Iff.rfl

/-- Modifying the state applies the function once. -/
@[simp] theorem wp_modify (E : ε → Prop) (f : σ → σ) (Q : PUnit → σ → Prop) (s : σ) :
    wp E (modify f : Code ε σ PUnit) Q s ↔ Q ⟨⟩ (f s) := Iff.rfl

/-- Modifying the state with a result returns the result. -/
@[simp] theorem wp_modifyGet (E : ε → Prop) (f : σ → α × σ) (Q : α → σ → Prop) (s : σ) :
    wp E (modifyGet f : Code ε σ α) Q s ↔ Q (f s).1 (f s).2 := Iff.rfl

/-- A fault is acceptable exactly when it is admitted. -/
@[simp] theorem wp_throw (E : ε → Prop) (e : ε) (Q : α → σ → Prop) (s : σ) :
    wp E (throw e : Code ε σ α) Q s ↔ E e := Iff.rfl

/-- A computation without state keeps the state. -/
@[simp] theorem wp_liftM (E : ε → Prop) (x : Except ε α) (Q : α → σ → Prop) (s : σ) :
    wp E (liftM x : Code ε σ α) Q s ↔
      match x with
      | .ok a => Q a s
      | .error e => E e := by
  cases x <;> rfl

/-- Consequence: a weaker postcondition holds whenever a stronger one does. -/
theorem wp_mono {E : ε → Prop} {m : Code ε σ α} {Q R : α → σ → Prop} {s : σ}
    (h : wp E m Q s) (hQR : ∀ a s', Q a s' → R a s') : wp E m R s := by
  unfold wp at *
  split at h
  · exact hQR _ _ h
  · exact h

/-- Two triples of one run hold of it together. -/
theorem wp_and {E : ε → Prop} {m : Code ε σ α} {Q R : α → σ → Prop} {s : σ}
    (h : wp E m Q s) (h' : wp E m R s) : wp E m (fun a s' ↦ Q a s' ∧ R a s') s := by
  unfold wp at *
  split at h
  · next hr =>
    rw [hr] at h'
    exact ⟨h, h'⟩
  · exact h

/-- A run that returns has established the postcondition. -/
theorem wp_ok {E : ε → Prop} {m : Code ε σ α} {Q : α → σ → Prop} {s s' : σ} {a : α}
    (h : wp E m Q s) (hr : m.run s = .ok (a, s')) : Q a s' := by
  unfold wp at h
  rw [hr] at h
  exact h

/-- A run that faults stops at an admitted fault. -/
theorem wp_error {E : ε → Prop} {m : Code ε σ α} {Q : α → σ → Prop} {s : σ} {e : ε}
    (h : wp E m Q s) (hr : m.run s = .error e) : E e := by
  unfold wp at h
  rw [hr] at h
  exact h

/-- A run for which no fault is admitted returns. -/
theorem exists_run {m : Code ε σ α} {Q : α → σ → Prop} {s : σ} (h : wp (fun _ ↦ False) m Q s) :
    ∃ a s', m.run s = .ok (a, s') ∧ Q a s' := by
  unfold wp at h
  split at h
  · next a s' hr => exact ⟨a, s', hr, h⟩
  · exact h.elim

/-- The postcondition may use the run that returns. -/
theorem wp_run {E : ε → Prop} {m : Code ε σ α} {Q : α → σ → Prop} {s : σ} (h : wp E m Q s) :
    wp E m (fun a s' ↦ m.run s = .ok (a, s') ∧ Q a s') s := by
  unfold wp at h ⊢
  split at h
  · next hr => exact ⟨hr, h⟩
  · exact h

/-- When the outcome is known to be a return, the precondition is the postcondition of it. -/
theorem wp_of_run {E : ε → Prop} {m : Code ε σ α} {Q : α → σ → Prop} {s s' : σ} {a : α}
    (hr : m.run s = .ok (a, s')) (h : Q a s') : wp E m Q s := by
  unfold wp
  rw [hr]
  exact h

/-- A sequence that returns did so after its first part did. -/
theorem run_of_bind {m : Code ε σ α} {f : α → Code ε σ β} {s s' : σ} {b : β}
    (h : (m >>= f).run s = .ok (b, s')) :
    ∃ a s₁, m.run s = .ok (a, s₁) ∧ (f a).run s₁ = .ok (b, s') := by
  rw [StateT.run_bind] at h
  cases hm : m.run s with
  | error e =>
    rw [hm] at h
    cases h
  | ok p =>
    rw [hm] at h
    exact ⟨p.1, p.2, rfl, h⟩

/-- Run code on a component of a larger state, written back afterwards. -/
def zoom (get : τ → σ) (put : σ → τ → τ) (m : Code ε σ α) : Code ε τ α := fun t ↦
  match m.run (get t) with
  | .ok (a, s) => .ok (a, put s t)
  | .error e => .error e

/-- Code on a component establishes what its own postcondition says of the component. -/
theorem wp_zoom (E : ε → Prop) (get : τ → σ) (put : σ → τ → τ) (m : Code ε σ α)
    (Q : α → τ → Prop) (t : τ) :
    wp E (zoom get put m) Q t ↔ wp E m (fun a s ↦ Q a (put s t)) (get t) := by
  unfold wp
  change (match zoom get put m t with | .ok (a, s') => Q a s' | .error e => E e) ↔ _
  unfold zoom
  cases m.run (get t) with
  | error e => rfl
  | ok p => rfl

end ExampleEngine.Base
