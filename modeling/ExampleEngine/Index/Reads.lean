import ExampleEngine.Base.Wanted
import ExampleEngine.Index.Contents

/-!
# Searches as reads

Library `Index`. The reference search of a flag, for `BTree::Iterator::locate` of
`src/lib/btree.cpp:156–203`, answers the read that asks for what the flag accepts.
-/

namespace ExampleEngine.Index

open ExampleEngine.Base ExampleEngine.Storage

namespace IterFlag

variable {K : Type} {flag : IterFlag} {cmp : K → K → Int} {S : K → Prop} {es : List (Slot K)}
  {a b k : K}

/-- What a flag accepts does not tell equal keys apart. -/
theorem congruent_qualifies (flag : IterFlag) (hcmp : Comparison cmp S) (hk : S k) :
    Congruent cmp S fun a ↦ flag.Qualifies (cmp a k) := by
  intro a b ha hb hab hq
  have hba := hcmp.symm ha hb hab
  have hlt := hcmp.lt_of_le_of_lt hb ha hk (Int.le_of_eq hba)
  have hle := hcmp.trans hb ha hk (Int.le_of_eq hba)
  have hlt' := hcmp.lt_of_le_of_lt ha hb hk (Int.le_of_eq hab)
  have hle' := hcmp.trans ha hb hk (Int.le_of_eq hab)
  cases flag <;> simp only [IterFlag.Qualifies] at hq ⊢ <;> omega

/-- Nor does a flag tell apart keys to search for that are equal. -/
theorem qualifies_congr (hcmp : Comparison cmp S) (ha : S a) (hb : S b) (hk : S k)
    (hab : cmp a b = 0) : flag.Qualifies (cmp k a) ↔ flag.Qualifies (cmp k b) := by
  have hba := hcmp.symm ha hb hab
  have hlt := hcmp.lt_of_lt_of_le hk ha hb
  have hle := hcmp.trans hk ha hb
  have hlt' := hcmp.lt_of_lt_of_le hk hb ha
  have hle' := hcmp.trans hk hb ha
  cases flag <;> simp only [IterFlag.Qualifies] <;> omega

/-- The reference search finds the slot wanted. -/
theorem wanted_search (flag : IterFlag) (hcmp : Comparison cmp S) (hes : ∀ e ∈ es, S e.key)
    (hs : Sorted cmp Slot.key es) :
    Wanted cmp Slot.key (fun a ↦ flag.Qualifies (cmp a k)) flag.backward (· ∈ es)
      (flag.search cmp k es) := by
  cases hsearch : flag.search cmp k es with
  | none =>
    intro e he hq
    obtain ⟨f, hf⟩ := exists_search he hq
    rw [hsearch] at hf
    cases hf
  | some e =>
    obtain ⟨he, hq⟩ := of_search hsearch
    exact ⟨he, hq, fun e' he' hq' ↦ search_extremal hs hcmp hes hsearch he' hq'⟩

end IterFlag

end ExampleEngine.Index
