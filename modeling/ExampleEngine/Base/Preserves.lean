import ExampleEngine.Base.Wp

/-!
# What code keeps

Library `Base`. A property of states that code keeps whatever else it does, faults aside. It is
closed under the ways of putting code together, and can be added to any triple of the code.
-/

namespace ExampleEngine.Base

universe u

variable {ε σ τ α β : Type u}

/-- Every return from a state with the property is to a state with it. -/
def Preserves (P : σ → Prop) (m : Code ε σ α) : Prop :=
  ∀ s, P s → wp (fun _ ↦ True) m (fun _ s' ↦ P s') s

/-- The property is kept beside what a triple says. -/
theorem Preserves.wp {P : σ → Prop} {m : Code ε σ α} {E : ε → Prop} {Q : α → σ → Prop} {s : σ}
    (hm : Preserves P m) (h : wp E m Q s) (hs : P s) :
    Base.wp E m (fun a s' ↦ Q a s' ∧ P s') s := by
  have hP := hm s hs
  unfold Base.wp at h hP ⊢
  split at h
  · next hr =>
    rw [hr] at hP
    exact ⟨h, hP⟩
  · exact h

namespace Preserves

variable {P : σ → Prop} {m : Code ε σ α} {g : α → Code ε σ β} {a : α} {s s' : σ}

/-- A state that is returned has it. -/
protected theorem run (hm : Preserves P m) (hs : P s) (h : m.run s = .ok (a, s')) : P s' := by
  have hwp := hm s hs
  exact wp_ok hwp h

protected theorem pure (a : α) : Preserves P (pure a : Code ε σ α) := fun _ hs ↦ hs

protected theorem throw (e : ε) : Preserves P (throw e : Code ε σ α) := fun _ _ ↦ trivial

protected theorem get : Preserves P (get : Code ε σ σ) := fun _ hs ↦ hs

protected theorem liftM (x : Except ε α) : Preserves P (liftM x : Code ε σ α) := by
  cases x with
  | ok a => exact .pure a
  | error e => exact .throw e

protected theorem bind (hm : Preserves P m) (hg : ∀ a, Preserves P (g a)) :
    Preserves P (m >>= g) := by
  intro s hs
  rw [wp_bind]
  exact wp_mono (hm s hs) fun a s' hs' ↦ hg a s' hs'

protected theorem map {f : α → β} (hm : Preserves P m) : Preserves P (f <$> m) := by
  intro s hs
  rw [wp_map]
  exact hm s hs

protected theorem ite {c : Prop} [Decidable c] {m' : Code ε σ α} (hm : Preserves P m)
    (hm' : Preserves P m') : Preserves P (if c then m else m') := by
  split
  · exact hm
  · exact hm'

protected theorem modify {f : σ → σ} (hf : ∀ s, P s → P (f s)) :
    Preserves P (modify f : Code ε σ PUnit) := fun s hs ↦ hf s hs

protected theorem modifyGet {f : σ → α × σ} (hf : ∀ s, P s → P (f s).2) :
    Preserves P (modifyGet f : Code ε σ α) := fun s hs ↦ hf s hs

/-- Code on a component keeps what the component keeps. -/
protected theorem zoom {P : τ → Prop} {P' : σ → Prop} {get : τ → σ} {put : σ → τ → τ}
    (hm : Preserves P' m) (hget : ∀ t, P t → P' (get t)) (hput : ∀ s t, P t → P' s → P (put s t)) :
    Preserves P (zoom get put m) := by
  intro t ht
  rw [wp_zoom]
  exact wp_mono (hm (get t) (hget t ht)) fun _ s hs ↦ hput s t ht hs

end Preserves

end ExampleEngine.Base
