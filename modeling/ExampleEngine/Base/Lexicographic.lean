import ExampleEngine.Base.Comparison

/-!
# Lexicographic comparators and markers

Library `Base`. Comparators built from others: through a function, by a number, and one
after another. A marker is a search key that a lexicographic comparator places before or
after all the entries whose first parts are equal to its own.
-/

namespace ExampleEngine.Base

variable {K K' E : Type}

/-- The second comparator decides among keys that the first finds equal. -/
def lexicographic (first second : K → K → Int) (a b : K) : Int :=
  if first a b ≠ 0 then first a b else second a b

namespace Comparison

variable {cmp first second : K → K → Int} {S S' : K → Prop}

/-- Fewer keys are compared by the same laws. -/
theorem mono (h : Comparison cmp S) (hS : ∀ a, S' a → S a) : Comparison cmp S' where
  flip ha hb := h.flip (hS _ ha) (hS _ hb)
  trans ha hb hc := h.trans (hS _ ha) (hS _ hb) (hS _ hc)

/-- Comparing the values of a function. -/
theorem comap (h : Comparison cmp S) (f : K' → K) :
    Comparison (fun a b ↦ cmp (f a) (f b)) fun a ↦ S (f a) where
  flip ha hb := h.flip ha hb
  trans ha hb hc := h.trans ha hb hc

/-- A comparator that agrees with another on the keys in question. -/
theorem congr (h : Comparison cmp S) (heq : ∀ a b, S a → S b → first a b = cmp a b) :
    Comparison first S where
  flip ha hb := by
    rw [heq _ _ ha hb, heq _ _ hb ha]
    exact h.flip ha hb
  trans ha hb hc := by
    rw [heq _ _ ha hb, heq _ _ hb hc, heq _ _ ha hc]
    exact h.trans ha hb hc

/-- Comparing by a difference of numbers. -/
theorem sub (f : K → Int) : Comparison (fun a b ↦ f a - f b) S where
  flip _ _ := by omega
  trans _ _ _ := by omega

/-- Finding all keys equal. -/
theorem zero : Comparison (fun _ _ ↦ 0) S where
  flip _ _ := by omega
  trans _ _ _ := by omega

/-- Keys equal to one key are equal to each other. -/
theorem equal_trans (h : Comparison cmp S) {a b c : K} (ha : S a) (hb : S b) (hc : S c)
    (hab : cmp a b = 0) (hbc : cmp b c = 0) : cmp a c = 0 := by
  have h1 := h.trans ha hb hc (by omega) (by omega)
  have hcb := h.symm hb hc hbc
  have hba := h.symm ha hb hab
  have h2 := h.trans hc hb ha (by omega) (by omega)
  have h3 := h.flip ha hc
  have h4 := h.flip hc ha
  omega

/-- Comparators compose one after another; the second is needed on equal keys only. -/
theorem lexicographic (h₁ : Comparison first S)
    (h₂ : ∀ r, S r → Comparison second fun a ↦ S a ∧ first r a = 0) :
    Comparison (lexicographic first second) S where
  flip {a b} ha hb := by
    have hab := h₁.flip ha hb
    have hba := h₁.flip hb ha
    unfold Base.lexicographic
    by_cases h0 : first a b = 0
    · have h0' := h₁.symm ha hb h0
      have h2 := (h₂ a ha).flip ⟨ha, h₁.self ha⟩ ⟨hb, h0⟩
      simpa [h0, h0'] using h2
    · have h0' : first b a ≠ 0 := by omega
      simpa [h0, h0'] using hab
  trans {a b c} ha hb hc hab hbc := by
    unfold Base.lexicographic at *
    by_cases h0 : first a b = 0
    · by_cases h1 : first b c = 0
      · -- all three are equal, and the second comparator decides
        have hac := h₁.equal_trans ha hb hc h0 h1
        rw [if_neg (by simpa using h0)] at hab
        rw [if_neg (by simpa using h1)] at hbc
        rw [if_neg (by simpa using hac)]
        exact (h₂ a ha).trans ⟨ha, h₁.self ha⟩ ⟨hb, h0⟩ ⟨hc, hac⟩ hab hbc
      · rw [if_pos h1] at hbc
        have hac := h₁.lt_of_le_of_lt ha hb hc (by omega) (by omega)
        rw [if_pos (by omega)]
        omega
    · rw [if_pos h0] at hab
      have hbc' : first b c ≤ 0 := by
        split at hbc <;> omega
      have hac := h₁.lt_of_lt_of_le ha hb hc (by omega) hbc'
      rw [if_pos (by omega)]
      omega

end Comparison

section Lexicographic

variable {first second : K → K → Int} {a b : K}

/-- Keys are equal when both comparators find them equal. -/
theorem lexicographic_eq_zero :
    lexicographic first second a b = 0 ↔ first a b = 0 ∧ second a b = 0 := by
  unfold lexicographic
  split
  · next h => simp [h]
  · next h =>
    have h0 : first a b = 0 := by simpa using h
    simp [h0]

/-- A key below another is at most equal to it by the first comparator. -/
theorem le_of_lexicographic (h : lexicographic first second a b ≤ 0) : first a b ≤ 0 := by
  unfold lexicographic at h
  split at h <;> omega

/-- A key below another by the first comparator is below it. -/
theorem lexicographic_neg (h : first a b < 0) : lexicographic first second a b < 0 := by
  unfold lexicographic
  rw [if_pos (by omega)]
  exact h

end Lexicographic

section Markers

variable {cmp first : K → K → Int} {S : K → Prop} {key : E → K} {k : K} {es : List E}

/-- The key `k` is a marker among keys: it is compared by `first`, and where that finds
equality, all of them are on the side that `sign` tells. -/
def Marks (cmp first : K → K → Int) (S : K → Prop) (k : K) (sign : Int) : Prop :=
  ∀ a, S a → cmp a k = if first a k ≠ 0 then first a k else sign

/-- A marker bisects entries that are sorted by `first`. -/
theorem Sorted.probe_marker {S' : K → Prop} {sign : Int} (hs : Sorted cmp key es)
    (hfirst : Comparison first S') (hle : ∀ a b, S a → S b → cmp a b < 0 → first a b ≤ 0)
    (hS : ∀ a, S a → S' a) (hes : ∀ e ∈ es, S (key e)) (hk : S' k) (hsign : sign ≠ 0)
    (hmark : Marks cmp first S k sign) : Probe cmp key k es := by
  refine List.Pairwise.imp_of_mem ?_ hs
  intro a b ha hb hab hak
  have hka := hes a ha
  have hkb := hes b hb
  have hle' := hle _ _ hka hkb hab
  rw [hmark _ hka] at hak
  rw [hmark _ hkb]
  by_cases hb0 : first (key b) k = 0
  · -- then the earlier entry is not above the marker by `first`
    rw [if_neg (by simpa using hb0)]
    have ha0 := hfirst.trans (hS _ hka) (hS _ hkb) hk hle' (by omega)
    split at hak <;> omega
  · rw [if_pos hb0]
    by_contra hneg
    have ha0 := hfirst.lt_of_le_of_lt (hS _ hka) (hS _ hkb) hk hle' (by omega)
    rw [if_pos (by omega)] at hak
    omega

end Markers

end ExampleEngine.Base
