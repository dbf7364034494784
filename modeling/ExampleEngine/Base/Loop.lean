import Mathlib.Algebra.Group.Int.Defs
import Mathlib.Algebra.GroupWithZero.Nat
import Mathlib.Data.List.Nodup

/-!
# Loops that may stop early

Library `Base`. A loop over a list of numbers makes a step for each on some state, until it
comes to one where it stops. What its steps keep, whether it finishes, and how many steps it
made.
-/

namespace ExampleEngine.Base

/-- A loop over indexes that makes a step for each, or stops early. -/
inductive Loop {T : Type} (Step Stop : Nat → T → T → Prop) : List Nat → T → Bool → T → Prop
  | done (t : T) : Loop Step Stop [] t true t
  | stop (i : Nat) (rest : List Nat) (t t' : T) (h : Stop i t t') :
      Loop Step Stop (i :: rest) t false t'
  | step (i : Nat) (rest : List Nat) (t t₁ t' : T) (b : Bool) (h : Step i t t₁)
      (h' : Loop Step Stop rest t₁ b t') : Loop Step Stop (i :: rest) t b t'

namespace Loop

variable {T : Type} {Step Stop : Nat → T → T → Prop} {idxs : List Nat} {t t' : T} {b : Bool}

/-- What every step keeps and every stop establishes from it. -/
theorem rec_on_steps {P : T → Prop} (h : Loop Step Stop idxs t b t')
    (hstep : ∀ i ∈ idxs, ∀ t t', Step i t t' → P t → P t')
    (hstop : ∀ i ∈ idxs, ∀ t t', Stop i t t' → P t → P t') (hP : P t) : P t' := by
  induction h with
  | done t => exact hP
  | stop i rest t t' h => exact hstop i (by simp) t t' h hP
  | step i rest t t₁ t' b h _ ih =>
    exact ih (fun j hj ↦ hstep j (by simp [hj])) (fun j hj ↦ hstop j (by simp [hj]))
      (hstep i (by simp) t t₁ h hP)

/-- A loop finishes when every step is possible at the start, provided that steps do not
interfere with each other. -/
theorem finishes_iff {P : Nat → T → Prop} (h : Loop Step Stop idxs t b t') (hnodup : idxs.Nodup)
    (hstep : ∀ i ∈ idxs, ∀ t t', Step i t t' → P i t)
    (hother : ∀ i ∈ idxs, ∀ j ∈ idxs, i ≠ j → ∀ t t', Step i t t' → (P j t' ↔ P j t))
    (hstop : ∀ i ∈ idxs, ∀ t t', Stop i t t' → ¬ P i t) : b = true ↔ ∀ i ∈ idxs, P i t := by
  induction h with
  | done t => simp
  | stop i rest t t' h =>
    have hP := hstop i (by simp) t t' h
    simp only [Bool.false_eq_true, false_iff]
    exact fun hall ↦ hP (hall i (by simp))
  | step i rest t t₁ t' b h _ ih =>
    obtain ⟨hi, hrest⟩ := List.nodup_cons.mp hnodup
    have ih' := ih hrest (fun j hj ↦ hstep j (by simp [hj]))
      (fun j hj k hk ↦ hother j (by simp [hj]) k (by simp [hk]))
      (fun j hj ↦ hstop j (by simp [hj]))
    rw [ih', List.forall_mem_cons]
    have hsame : ∀ j ∈ rest, (P j t₁ ↔ P j t) := fun j hj ↦
      hother i (by simp) j (by simp [hj]) (fun hij ↦ hi (hij ▸ hj)) t t₁ h
    constructor
    · exact fun hall ↦ ⟨hstep i (by simp) t t₁ h, fun j hj ↦ (hsame j hj).mp (hall j hj)⟩
    · exact fun hall j hj ↦ (hsame j hj).mpr (hall.2 j hj)

/-- A loop that finishes made a step for each index, and one that stops made fewer. -/
theorem length {f : T → Int} {d : Int} (h : Loop Step Stop idxs t b t')
    (hstep : ∀ i ∈ idxs, ∀ t t', Step i t t' → f t' = f t + d)
    (hstop : ∀ i ∈ idxs, ∀ t t', Stop i t t' → f t' = f t) :
    ∃ k : Nat, f t' = f t + k * d ∧
      if b = true then k = idxs.length else k < idxs.length := by
  induction h with
  | done t => exact ⟨0, by simp, rfl⟩
  | stop i rest t t' h =>
    exact ⟨0, by rw [hstop i (by simp) t t' h]; simp, Nat.succ_pos _⟩
  | step i rest t t₁ t' b h _ ih =>
    obtain ⟨k, hk, hlen⟩ := ih (fun j hj ↦ hstep j (by simp [hj])) fun j hj ↦ hstop j (by simp [hj])
    refine ⟨k + 1, ?_, ?_⟩
    · rw [hk, hstep i (by simp) t t₁ h]
      push_cast
      rw [Int.add_mul]
      omega
    · rw [List.length_cons]
      split at hlen
      · next hb =>
        rw [if_pos hb]
        omega
      · next hb =>
        rw [if_neg hb]
        omega

end Loop

end ExampleEngine.Base
