import ExampleEngine.Base.Comparison

/-!
# Reads of an ordered collection

Library `Base`. A read asks for the first item, or the last one, among those with a key that is
accepted. The items need not be listed in order, and two collections with the same keys under the
comparator give the same answers.
-/

namespace ExampleEngine.Base

variable {K E F : Type}

/-- In a direction, a key comes no later than another. -/
def Leads (cmp : K → K → Int) (back : Bool) (a b : K) : Prop :=
  if back then cmp b a ≤ 0 else cmp a b ≤ 0

/-- A condition that does not tell equal keys apart. -/
def Congruent (cmp : K → K → Int) (S A : K → Prop) : Prop :=
  ∀ a b, S a → S b → cmp a b = 0 → A a → A b

/-- The answer of some items to a read. -/
def Wanted (cmp : K → K → Int) (key : E → K) (A : K → Prop) (back : Bool) (items : E → Prop) :
    Option E → Prop
  | none => ∀ x, items x → ¬ A (key x)
  | some x => items x ∧ A (key x) ∧ ∀ y, items y → A (key y) → Leads cmp back (key x) (key y)

variable {cmp : K → K → Int} {S A A' : K → Prop} {back : Bool} {a a' b b' : K}

/-- Equal keys come where the others do. -/
theorem Leads.congr (h : Leads cmp back a b) (hcmp : Comparison cmp S) (ha : S a) (ha' : S a')
    (hb : S b) (hb' : S b') (haa : cmp a a' = 0) (hbb : cmp b b' = 0) : Leads cmp back a' b' := by
  unfold Leads at h ⊢
  cases back with
  | false =>
    rw [if_neg Bool.false_ne_true] at h ⊢
    have hle := hcmp.trans ha' ha hb (Int.le_of_eq (hcmp.symm ha ha' haa)) h
    exact hcmp.trans ha' hb hb' hle (Int.le_of_eq hbb)
  | true =>
    rw [if_pos rfl] at h ⊢
    have hle := hcmp.trans hb' hb ha (Int.le_of_eq (hcmp.symm hb hb' hbb)) h
    exact hcmp.trans hb' ha ha' hle (Int.le_of_eq haa)

/-- Two keys neither of which comes later are equal. -/
theorem Leads.antisymm (h : Leads cmp back a b) (h' : Leads cmp back b a)
    (hcmp : Comparison cmp S) (ha : S a) (hb : S b) : cmp a b = 0 := by
  have hflip := hcmp.flip ha hb
  have hflip' := hcmp.flip hb ha
  unfold Leads at h h'
  cases back with
  | false =>
    rw [if_neg Bool.false_ne_true] at h h'
    omega
  | true =>
    rw [if_pos rfl] at h h'
    omega

namespace Wanted

variable {key : E → K} {key' : F → K} {items : E → Prop} {items' : F → Prop} {x y : Option E}

/-- Only the keys of the items count. -/
theorem congr (h : Wanted cmp key A back items x) (hA : ∀ z, items z → (A (key z) ↔ A' (key z))) :
    Wanted cmp key A' back items x := by
  cases x with
  | none => exact fun z hz hacc ↦ h z hz ((hA z hz).mpr hacc)
  | some z =>
    obtain ⟨hz, hacc, hleads⟩ := h
    exact ⟨hz, (hA z hz).mp hacc, fun w hw hacc' ↦ hleads w hw ((hA w hw).mpr hacc')⟩

/-- Where equal keys are of one item, there is one answer. -/
theorem unique (h : Wanted cmp key A back items x) (h' : Wanted cmp key A back items y)
    (hcmp : Comparison cmp S) (hS : ∀ z, items z → S (key z))
    (heq : ∀ z w, items z → items w → cmp (key z) (key w) = 0 → z = w) : x = y := by
  cases x with
  | none =>
    cases y with
    | none => rfl
    | some w => exact absurd h'.2.1 (h w h'.1)
  | some z =>
    cases y with
    | none => exact absurd h.2.1 (h' z h.1)
    | some w =>
      obtain ⟨hz, hacc, hleads⟩ := h
      obtain ⟨hw, hacc', hleads'⟩ := h'
      have hzero := (hleads w hw hacc').antisymm (hleads' z hz hacc) hcmp (hS z hz) (hS w hw)
      rw [heq z w hz hw hzero]

/-- Nothing is wanted of a collection with the same keys either. -/
theorem transfer_none (h : Wanted cmp key A back items none) (hcmp : Comparison cmp S)
    (hS : ∀ z, items z → S (key z)) (hS' : ∀ w, items' w → S (key' w)) (hA : Congruent cmp S A)
    (hto : ∀ w, items' w → ∃ z, items z ∧ cmp (key z) (key' w) = 0) :
    Wanted cmp key' A back items' none := by
  intro w hw hacc
  obtain ⟨z, hz, hzw⟩ := hto w hw
  exact h z hz (hA _ _ (hS' w hw) (hS z hz) (hcmp.symm (hS z hz) (hS' w hw) hzw) hacc)

/-- Of a collection with the same keys the item with an equal key is wanted. -/
theorem transfer_some {z : E} {w : F} (h : Wanted cmp key A back items (some z))
    (hcmp : Comparison cmp S) (hS : ∀ z, items z → S (key z)) (hS' : ∀ w, items' w → S (key' w))
    (hA : Congruent cmp S A) (hto : ∀ w, items' w → ∃ z, items z ∧ cmp (key z) (key' w) = 0)
    (hw : items' w) (hzw : cmp (key z) (key' w) = 0) :
    Wanted cmp key' A back items' (some w) := by
  obtain ⟨hz, hacc, hleads⟩ := h
  refine ⟨hw, hA _ _ (hS z hz) (hS' w hw) hzw hacc, fun w' hw' hacc' ↦ ?_⟩
  obtain ⟨z', hz', hzw'⟩ := hto w' hw'
  have hacc'' := hA _ _ (hS' w' hw') (hS z' hz') (hcmp.symm (hS z' hz') (hS' w' hw') hzw') hacc'
  exact (hleads z' hz' hacc'').congr hcmp (hS z hz) (hS' w hw) (hS z' hz') (hS' w' hw') hzw hzw'

/-- When fewer keys are accepted, but none of them behind one that no longer is, the answer is the
same or there is none. -/
theorem filter {p : E → Bool} (h : Wanted cmp key A back items x)
    (hp : ∀ z, items z → (p z = true ↔ A' (key z))) (hsub : ∀ z, items z → A' (key z) → A (key z))
    (hdown : ∀ z w, items z → items w → A (key z) → A' (key w) → Leads cmp back (key z) (key w) →
      A' (key z)) : Wanted cmp key A' back items (x.filter p) := by
  cases x with
  | none => exact fun z hz hacc ↦ h z hz (hsub z hz hacc)
  | some z =>
    obtain ⟨hz, hacc, hleads⟩ := h
    by_cases hpz : p z = true
    · rw [Option.filter_some_pos hpz]
      exact ⟨hz, (hp z hz).mp hpz, fun w hw hacc' ↦ hleads w hw (hsub w hw hacc')⟩
    · rw [Option.filter_some_neg (Bool.eq_false_iff.mpr hpz)]
      intro w hw hacc'
      exact hpz ((hp z hz).mpr (hdown z w hz hw hacc hacc' (hleads w hw (hsub w hw hacc'))))

end Wanted

/-- The item at an end of a sorted list is wanted when all are accepted. -/
theorem Sorted.wanted_head {key : E → K} {es : List E} (hs : Sorted cmp key es)
    (hcmp : Comparison cmp S) (hes : ∀ e ∈ es, S (key e)) :
    Wanted cmp key (fun _ ↦ True) back (· ∈ es) (if back then es.reverse else es).head? := by
  cases hhead : (if back then es.reverse else es).head? with
  | none =>
    have hnil : es = [] := by
      rw [List.head?_eq_none_iff] at hhead
      split at hhead
      · exact List.reverse_eq_nil_iff.mp hhead
      · exact hhead
    intro e he
    rw [hnil] at he
    cases he
  | some e =>
    obtain ⟨rest, hrest⟩ := List.head?_eq_some_iff.mp hhead
    cases back with
    | false =>
      rw [if_neg Bool.false_ne_true] at hrest
      subst hrest
      refine ⟨List.mem_cons_self, trivial, fun e' he' _ ↦ ?_⟩
      unfold Leads
      rw [if_neg Bool.false_ne_true]
      rcases List.mem_cons.mp he' with rfl | hmem
      · exact Int.le_of_eq (hcmp.self (hes e' he'))
      · exact Int.le_of_lt ((List.pairwise_cons.mp hs).1 e' hmem)
    | true =>
      rw [if_pos rfl] at hrest
      have hlast : es = rest.reverse ++ [e] := by
        rw [← List.reverse_reverse es, hrest, List.reverse_cons]
      subst hlast
      refine ⟨by simp, trivial, fun e' he' _ ↦ ?_⟩
      unfold Leads
      rw [if_pos rfl]
      rcases List.mem_append.mp he' with hmem | hmem
      · exact Int.le_of_lt ((List.pairwise_append.mp hs).2.2 e' hmem e List.mem_cons_self)
      · obtain rfl := List.mem_singleton.mp hmem
        exact Int.le_of_eq (hcmp.self (hes e' he'))

end ExampleEngine.Base
