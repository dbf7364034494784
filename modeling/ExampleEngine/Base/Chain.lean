import Mathlib.Algebra.Group.Int.Defs
import Mathlib.Algebra.GroupWithZero.Nat
import Mathlib.Data.List.Basic
import Mathlib.Data.List.Nodup

/-!
# Doubly linked chains of numbered nodes

Library `Base`. The nodes are numbers, `next` and `last` are the two link fields, and 0
is the missing neighbour. A chain lists the nodes in order.
-/

namespace ExampleEngine.Base

/-- `ids` is linked in both directions, after `prev` and up to the missing neighbour. -/
def Chain (next last : Nat → Nat) : Nat → List Nat → Prop
  | _, [] => True
  | prev, a :: ids => last a = prev ∧ next a = ids.headD 0 ∧ Chain next last a ids

namespace Chain

variable {next last next' last' : Nat → Nat} {prev a n : Nat} {A B ids : List Nat}

/-- A chain only depends on the links of its own nodes. -/
theorem congr (h : Chain next last prev ids) (hn : ∀ i ∈ ids, next' i = next i)
    (hl : ∀ i ∈ ids, last' i = last i) : Chain next' last' prev ids := by
  induction ids generalizing prev with
  | nil => trivial
  | cons a ids ih =>
    obtain ⟨hla, hna, hrest⟩ := h
    refine ⟨by rw [hl a (by simp), hla], by rw [hn a (by simp), hna], ih hrest ?_ ?_⟩
    · intro i hi; exact hn i (by simp [hi])
    · intro i hi; exact hl i (by simp [hi])

/-- The links of a node are its neighbours in the list. -/
theorem links (h : Chain next last prev (A ++ a :: B)) :
    last a = A.getLastD prev ∧ next a = B.headD 0 := by
  induction A generalizing prev with
  | nil => exact ⟨h.1, h.2.1⟩
  | cons x A ih =>
    obtain ⟨hla, hna⟩ := ih h.2.2
    exact ⟨by rw [hla, List.getLastD_cons], hna⟩

/-- Splicing `n` in after `a` keeps the chain, when only the links at the splice change. -/
theorem insert_after (h : Chain next last prev (A ++ a :: B)) (hd : (A ++ a :: B).Nodup)
    (hna : next' a = n) (hnn : next' n = B.headD 0) (hln : last' n = a)
    (hlb : ∀ b ∈ B.head?, last' b = n)
    (hn : ∀ i ∈ A ++ a :: B, i ≠ a → next' i = next i)
    (hl : ∀ i ∈ A ++ a :: B, i ∉ B.head? → last' i = last i) :
    Chain next' last' prev (A ++ a :: n :: B) := by
  induction A generalizing prev with
  | nil =>
    obtain ⟨hla, _, hB⟩ := h
    have had := (List.nodup_cons.mp hd)
    have hahead : a ∉ B.head? := fun ha ↦ had.1 (List.mem_of_mem_head? ha)
    refine ⟨by rw [hl a (by simp) hahead, hla], hna, hln, hnn, ?_⟩
    cases B with
    | nil => trivial
    | cons b B =>
      obtain ⟨_, hnb, hrest⟩ := hB
      have hba : b ≠ a := fun e ↦ had.1 (by simp [e])
      refine ⟨hlb b rfl, by rw [hn b (by simp) hba, hnb], ?_⟩
      refine hrest.congr ?_ ?_
      · intro i hi
        exact hn i (by simp [hi]) fun e ↦ had.1 (by simp [← e, hi])
      · intro i hi
        refine hl i (by simp [hi]) ?_
        have hbB := (List.nodup_cons.mp had.2).1
        simp only [List.head?_cons, Option.mem_def, Option.some.injEq]
        rintro rfl
        exact hbB hi
  | cons x A ih =>
    obtain ⟨hlx, hnx, hrest⟩ := h
    obtain ⟨hxd, hAd⟩ := List.nodup_cons.mp hd
    have hxa : x ≠ a := fun e ↦ hxd (by simp [e])
    have hxb : x ∉ B.head? := fun hb ↦ hxd (by simp [List.mem_of_mem_head? hb])
    refine ⟨by rw [hl x (by simp) hxb, hlx], ?_, ?_⟩
    · rw [hn x (by simp) hxa, hnx]
      cases A <;> rfl
    · refine ih hrest hAd ?_ ?_
      · intro i hi; exact hn i (by simp at hi ⊢; tauto)
      · intro i hi; exact hl i (by simp at hi ⊢; tauto)

end Chain

end ExampleEngine.Base
