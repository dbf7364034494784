import ExampleEngine.Base.Comparison
import Mathlib.Data.List.Flatten

/-!
# Search trees of one depth with numbered nodes

Library `Base`. A tree of height `h` has all its leaves `h` levels below its root by
construction, and every node carries a number, such as the index of the block that
stores it. `update` is insertion as a B+tree performs it: descend by greatest keys,
`upsert` in the leaf, and split every node that became full on the way back.
-/

namespace ExampleEngine.Base

/-- A node: its number and its items. -/
structure Numbered (C : Type) where
  id : Nat
  items : List C

/-- The items of a node of height `h`: entries in a leaf, subtrees above. -/
def Item (E : Type) : Nat → Type
  | 0 => E
  | h + 1 => Numbered (Item E h)

/-- A tree all of whose leaves are `h` levels below the root. -/
abbrev LTree (E : Type) (h : Nat) := Numbered (Item E h)

namespace LTree

variable {E K : Type}

/-- The subtrees of an interior node. -/
def children {h : Nat} (t : LTree E (h + 1)) : List (LTree E h) := t.items

/-- An interior node from its subtrees. -/
def node {h : Nat} (id : Nat) (cs : List (LTree E h)) : LTree E (h + 1) := ⟨id, cs⟩

/-- A leaf from its entries. -/
def leaf (id : Nat) (es : List E) : LTree E 0 := ⟨id, es⟩

@[simp] theorem children_node {h : Nat} (id : Nat) (cs : List (LTree E h)) :
    (node id cs).children = cs := rfl

@[simp] theorem id_node {h : Nat} (id : Nat) (cs : List (LTree E h)) :
    (node id cs).id = id := rfl

@[simp] theorem length_items_node {h : Nat} (id : Nat) (cs : List (LTree E h)) :
    (node id cs).items.length = cs.length := rfl

/-- The entries in order. -/
def entries : (h : Nat) → LTree E h → List E
  | 0, t => t.items
  | h + 1, t => t.children.flatMap (entries h)

/-- The leaves in order. -/
def leaves : (h : Nat) → LTree E h → List (Numbered E)
  | 0, t => [⟨t.id, t.items⟩]
  | h + 1, t => t.children.flatMap (leaves h)

/-- The numbers of the nodes `d` levels above the leaves, in order. -/
def level : (h : Nat) → LTree E h → Nat → List Nat
  | 0, t, d => if d = 0 then [t.id] else []
  | h + 1, t, d => if d = h + 1 then [t.id] else t.children.flatMap fun c ↦ level h c d

/-- Every node below the root has an item, and room for one more. -/
def Bounded (cap : Nat → Nat) : (h : Nat) → LTree E h → Prop
  | 0, _ => True
  | h + 1, t => ∀ c ∈ t.children,
      1 ≤ c.items.length ∧ c.items.length < cap h ∧ Bounded cap h c

/-- The key of the last entry. -/
def topKey (key : E → K) (h : Nat) (t : LTree E h) : Option K :=
  (entries h t).getLast?.map key

/-- Split a node in two, the greater half staying in place; `n` numbers the other. -/
def split {h : Nat} (t : LTree E h) (n : Nat) : LTree E h × LTree E h :=
  (⟨t.id, t.items.take ((t.items.length + 1) / 2)⟩,
    ⟨n, t.items.drop ((t.items.length + 1) / 2)⟩)

/-- Whether all entries of a subtree are below `k`, judged by its greatest key. -/
def before (cmp : K → K → Int) (key : E → K) (k : K) (h : Nat) (t : LTree E h) : Bool :=
  match topKey key h t with
  | some top => cmp top k < 0
  | none => false

/-- The subtree a search for `k` enters: the first not before `k`, else the last. -/
def route (cmp : K → K → Int) (key : E → K) (k : K) (h : Nat) (cs : List (LTree E h)) : Nat :=
  min (cs.takeWhile (before cmp key k h)).length (cs.length - 1)

/-- The tree with other entries in its leaves, given by their numbers. -/
def refill (f : Nat → List E) : (h : Nat) → LTree E h → LTree E h
  | 0, t => leaf t.id (f t.id)
  | h + 1, t => node t.id (t.children.map (refill f h))

/-- Insertion with splits; nodes are numbered from `n`, and the next number is returned. -/
def update (cap : Nat → Nat) (cmp : K → K → Int) (key : E → K) (k : K) (fresh : E)
    (revive : E → E) : (h : Nat) → LTree E h → Nat → LTree E h × Nat
  | 0, t, n => (leaf t.id (upsert cmp key k fresh revive t.items), n)
  | h + 1, t, n =>
    let i := route cmp key k h t.children
    match t.children[i]? with
    | none => (t, n)
    | some son =>
      let r := update cap cmp key k fresh revive h son n
      if r.1.items.length = cap h then
        (node t.id (t.children.take i ++
          (split r.1 r.2).1 :: (split r.1 r.2).2 :: t.children.drop (i + 1)), r.2 + 1)
      else
        (node t.id (t.children.take i ++ r.1 :: t.children.drop (i + 1)), r.2)

/-- Leaves after an upsert: that of one leaf, which is split when it is full. -/
structure LeafUpdate (cap : Nat) (cmp : K → K → Int) (key : E → K) (k : K) (fresh : E)
    (revive : E → E) (ls ls' : List (Numbered E)) : Prop where
  leaf : ∃ l lf r up, ls = l ++ lf :: r ∧ up = upsert cmp key k fresh revive lf.items ∧
    (∀ y ∈ l, ∀ e ∈ y.items, cmp (key e) k < 0) ∧
    (r = [] ∨ ∃ e ∈ lf.items, 0 ≤ cmp (key e) k) ∧
    (up.length < cap ∧ ls' = l ++ ⟨lf.id, up⟩ :: r ∨
      up.length = cap ∧ ∃ n, ls' = l ++ ⟨lf.id, up.take ((cap + 1) / 2)⟩ ::
        ⟨n, up.drop ((cap + 1) / 2)⟩ :: r)

section Structure

variable {h : Nat}

/-- Entries of a concatenation of subtrees. -/
theorem entries_node (id : Nat) (cs : List (LTree E h)) :
    entries (h + 1) (node id cs) = cs.flatMap (entries h) := rfl

/-- The entries of a subtree are among those of the node. -/
theorem sublist_entries {c : LTree E h} {cs : List (LTree E h)} (hc : c ∈ cs) :
    (entries h c).Sublist (cs.flatMap (entries h)) := by
  obtain ⟨a, b, rfl⟩ := List.append_of_mem hc
  rw [List.flatMap_append, List.flatMap_cons]
  exact (List.sublist_append_left _ _).trans (List.sublist_append_right _ _)

/-- Splitting preserves the entries. -/
theorem entries_split (t : LTree E h) (n : Nat) :
    entries h (split t n).1 ++ entries h (split t n).2 = entries h t := by
  cases h with
  | zero => exact List.take_append_drop _ _
  | succ h =>
    change (List.take _ t.children).flatMap _ ++ (List.drop _ t.children).flatMap _ = _
    rw [← List.flatMap_append, List.take_append_drop]
    rfl

/-- The entries are those of the leaves. -/
theorem entries_eq_leaves (t : LTree E h) :
    entries h t = (leaves h t).flatMap Numbered.items := by
  induction h with
  | zero => exact (List.append_nil (t.items : List E)).symm
  | succ h ih =>
    simp only [entries, leaves, List.flatMap_assoc]
    exact List.flatMap_congr fun c _ ↦ ih c

/-- Bounded nodes with an item have leaves with an entry below them. -/
theorem leaf_bounds {cap : Nat → Nat} (t : LTree E h) (hb : Bounded cap h t)
    (h1 : 1 ≤ t.items.length) (hroom : t.items.length < cap h) :
    ∀ lf ∈ leaves h t, 1 ≤ lf.items.length ∧ lf.items.length < cap 0 := by
  induction h with
  | zero =>
    intro lf hlf
    rw [List.mem_singleton.mp hlf]
    exact ⟨h1, hroom⟩
  | succ h ih =>
    intro lf hlf
    obtain ⟨c, hc, hlfc⟩ := List.mem_flatMap.mp hlf
    obtain ⟨hc1, hc2, hcb⟩ := hb c hc
    exact ih c hcb hc1 hc2 lf hlfc

/-- The lowest level numbers the leaves. -/
theorem level_zero (t : LTree E h) : level h t 0 = (leaves h t).map Numbered.id := by
  induction h with
  | zero => simp [level, leaves]
  | succ h ih =>
    have h0 : (0 : Nat) ≠ h + 1 := by omega
    simp only [level, h0, if_false, leaves, List.map_flatMap]
    exact List.flatMap_congr fun c _ ↦ ih c

/-- The root is alone on its level. -/
theorem level_self (t : LTree E h) : level h t h = [t.id] := by
  cases h <;> simp [level]

/-- There is nothing above the root. -/
theorem level_of_lt (t : LTree E h) {d : Nat} (hd : h < d) : level h t d = [] := by
  induction h with
  | zero =>
    have : d ≠ 0 := by omega
    simp [level, this]
  | succ h ih =>
    have : d ≠ h + 1 := by omega
    simp only [level, this, if_false, List.flatMap_eq_nil_iff]
    intro c _
    exact ih c (by omega)

/-- Below its own level, an interior node has the levels of its subtrees. -/
theorem level_node (t : LTree E (h + 1)) {d : Nat} (hd : d ≠ h + 1) :
    level (h + 1) t d = t.children.flatMap fun c ↦ level h c d := by
  simp [level, hd]

/-- Splitting a node puts the new number right after its own, on its level only. -/
theorem level_split (t : LTree E h) (n d : Nat) :
    level h (split t n).1 d ++ level h (split t n).2 d =
      if d = h then [t.id, n] else level h t d := by
  cases h with
  | zero => by_cases hd : d = 0 <;> simp [level, split, hd]
  | succ h =>
    by_cases hd : d = h + 1
    · simp [level, split, hd]
    · rw [level_node _ hd, level_node _ hd, level_node _ hd, if_neg hd]
      change (List.take _ t.children).flatMap _ ++ (List.drop _ t.children).flatMap _ = _
      rw [← List.flatMap_append, List.take_append_drop]

end Structure

section Descent

variable {cmp : K → K → Int} {key : E → K} {k : K} {h : Nat}

variable (cmp key k) in
/-- A search with subtrees to choose from enters one; those to its left are before `k`,
and it is not itself before `k` unless it is the last. -/
theorem exists_route (cs : List (LTree E h)) (hne : cs ≠ []) :
    ∃ l c r, cs = l ++ c :: r ∧ route cmp key k h cs = l.length ∧
      (∀ x ∈ l, before cmp key k h x = true) ∧
      (before cmp key k h c = true → r = []) ∧
      (cs.takeWhile (before cmp key k h)).length =
        if before cmp key k h c = true then l.length + 1 else l.length := by
  induction cs with
  | nil => exact absurd rfl hne
  | cons c cs ih =>
    by_cases hc : before cmp key k h c = true
    · cases cs with
      | nil => exact ⟨[], c, [], rfl, by simp [route], by simp, fun _ ↦ rfl, by simp [hc]⟩
      | cons c' cs =>
        obtain ⟨l, x, r, hcs, hr, hl, hlast, htw⟩ := ih (by simp)
        refine ⟨c :: l, x, r, by rw [hcs]; rfl, ?_, ?_, hlast, ?_⟩
        · simp only [route, List.takeWhile_cons_of_pos hc, List.length_cons] at hr ⊢
          omega
        · intro y hy
          rcases List.mem_cons.mp hy with rfl | hy
          · exact hc
          · exact hl y hy
        · rw [List.takeWhile_cons_of_pos hc, List.length_cons, htw]
          split <;> simp
    · refine ⟨[], c, cs, rfl, ?_, by simp, fun h ↦ absurd h hc, ?_⟩
      · simp [route, List.takeWhile_cons_of_neg hc]
      · simp [List.takeWhile_cons_of_neg hc, hc]

/-- The entries of a subtree before `k` are all below `k`. -/
theorem below_of_before (t : LTree E h) (hd : Downward cmp key k (entries h t))
    (hb : before cmp key k h t = true) : ∀ e ∈ entries h t, cmp (key e) k < 0 := by
  intro e he
  unfold before topKey at hb
  cases hl : (entries h t).getLast? with
  | none => simp [hl] at hb
  | some top =>
    simp only [hl, Option.map_some, decide_eq_true_eq] at hb
    obtain ⟨init, hinit⟩ := List.getLast?_eq_some_iff.mp hl
    rw [hinit] at he hd
    rcases List.mem_append.mp he with he | he
    · exact (List.pairwise_append.mp hd).2.2 e he top (by simp) hb
    · rw [List.mem_singleton.mp he]
      exact hb

/-- A nonempty subtree that is not before `k` has an entry not below `k`. -/
theorem exists_not_below (t : LTree E h) (hne : entries h t ≠ [])
    (hb : ¬ before cmp key k h t = true) : ∃ e ∈ entries h t, 0 ≤ cmp (key e) k := by
  unfold before topKey at hb
  cases hl : (entries h t).getLast? with
  | none => exact absurd (List.getLast?_eq_none_iff.mp hl) hne
  | some top =>
    simp only [hl, Option.map_some, decide_eq_true_eq] at hb
    exact ⟨top, List.mem_of_getLast? hl, by omega⟩

end Descent

section Update

variable {cap : Nat → Nat} {cmp : K → K → Int} {key : E → K} {S : K → Prop} {k : K}
  {fresh : E} {revive : E → E} {h : Nat}

/-- What `update` does at an interior node, at the subtree it enters. -/
theorem update_node (t : LTree E (h + 1)) (n : Nat) {l r : List (LTree E h)} {c : LTree E h}
    (hcs : t.children = l ++ c :: r) (hr : route cmp key k h t.children = l.length) :
    update cap cmp key k fresh revive (h + 1) t n =
      let u := update cap cmp key k fresh revive h c n
      if u.1.items.length = cap h then
        (node t.id (l ++ (split u.1 u.2).1 :: (split u.1 u.2).2 :: r), u.2 + 1)
      else (node t.id (l ++ u.1 :: r), u.2) := by
  have hget : t.children[route cmp key k h t.children]? = some c := by
    rw [hr, hcs]
    simp
  have htake : t.children.take l.length = l := by rw [hcs]; simp
  have hdrop : t.children.drop (l.length + 1) = r := by
    rw [hcs]
    simp [List.drop_append]
  rw [hr] at hget
  rw [update]
  simp only [hr, hget, htake, hdrop]

/-- Updating keeps the number of the root. -/
theorem id_update (t : LTree E h) (n : Nat) :
    (update cap cmp key k fresh revive h t n).1.id = t.id := by
  cases h with
  | zero => rfl
  | succ h =>
    rw [update]
    split
    · rfl
    · dsimp only
      split <;> rfl

/-- An update takes at most one number for each level above the leaves. -/
theorem update_le (t : LTree E h) (n : Nat) :
    (update cap cmp key k fresh revive h t n).2 ≤ n + h := by
  induction h with
  | zero => exact Nat.le_refl _
  | succ h ih =>
    rw [update]
    split
    · exact Nat.le_add_right _ _
    · next son _ =>
      have := ih son
      dsimp only
      split <;> (dsimp only; omega)

/-- Every number taken is that of a node. -/
theorem mem_level_of_taken (t : LTree E h) (n : Nat) {i : Nat} (hi : n ≤ i)
    (hi' : i < (update cap cmp key k fresh revive h t n).2) :
    ∃ d, i ∈ level h (update cap cmp key k fresh revive h t n).1 d := by
  induction h with
  | zero => exact absurd hi' (Nat.not_lt.mpr hi)
  | succ h ih =>
    by_cases hne : t.children = []
    · rw [update, hne] at hi'
      exact absurd hi' (Nat.not_lt.mpr hi)
    obtain ⟨l, c, r, hcs, hr, -⟩ := exists_route cmp key k t.children hne
    have hson := ih c
    rw [update_node t n hcs hr] at hi' ⊢
    revert hson hi'
    generalize update cap cmp key k fresh revive h c n = u
    dsimp only
    intro hi' hson
    have hbelow : ∀ d, i ∈ level h u.1 d → d ≤ h := by
      intro d hd
      by_contra hlt
      rw [level_of_lt _ (by omega)] at hd
      cases hd
    by_cases hfull : u.1.items.length = cap h
    · rw [if_pos hfull] at hi' ⊢
      -- the numbers of a split node and of its new half are on one level
      have hmem : ∀ d, i ∈ (if d = h then [u.1.id, u.2] else level h u.1 d) → d ≤ h →
          i ∈ level (h + 1) (node t.id (l ++ (split u.1 u.2).1 :: (split u.1 u.2).2 :: r)) d := by
        intro d hd hle
        rw [← level_split] at hd
        rw [level_node _ (by omega)]
        simp only [children_node, List.flatMap_append, List.flatMap_cons, List.mem_append] at hd ⊢
        tauto
      by_cases hlast : i = u.2
      · exact ⟨h, hmem h (by rw [if_pos rfl, hlast]; simp) (Nat.le_refl h)⟩
      · obtain ⟨d, hd⟩ := hson (by omega)
        refine ⟨d, hmem d ?_ (hbelow d hd)⟩
        split
        · next hdh =>
          rw [hdh, level_self] at hd
          simp only [List.mem_singleton] at hd
          simp [hd]
        · exact hd
    · rw [if_neg hfull] at hi' ⊢
      obtain ⟨d, hd⟩ := hson hi'
      have hle := hbelow d hd
      refine ⟨d, ?_⟩
      rw [level_node _ (by omega)]
      simp only [children_node, List.flatMap_append, List.flatMap_cons, List.mem_append]
      tauto

/-- No node leaves its level in an update. -/
theorem mem_level_update (t : LTree E h) (n : Nat) {d i : Nat} (hi : i ∈ level h t d) :
    i ∈ level h (update cap cmp key k fresh revive h t n).1 d := by
  induction h generalizing n d with
  | zero => exact hi
  | succ h ih =>
    by_cases hd : d = h + 1
    · subst hd
      rw [level_self] at hi ⊢
      rwa [id_update]
    · rw [level_node t hd] at hi
      obtain ⟨y, hy, hiy⟩ := List.mem_flatMap.mp hi
      obtain ⟨l, c, r, hcs, hr, -⟩ := exists_route cmp key k _ (List.ne_nil_of_mem hy)
      rw [hcs] at hy
      rw [update_node t n hcs hr]
      dsimp only
      -- the halves of a split node have its level between them
      have hcase : y = c → i ∈ level h (update cap cmp key k fresh revive h c n).1 d := by
        rintro rfl
        exact ih y n hiy
      simp only [List.mem_append, List.mem_cons] at hy
      split
      · have hsplit := level_split (update cap cmp key k fresh revive h c n).1
          (update cap cmp key k fresh revive h c n).2 d
        rw [level_node _ hd]
        simp only [children_node, List.flatMap_append, List.flatMap_cons, List.mem_append]
        rcases hy with hy | hy | hy
        · exact .inl (List.mem_flatMap.mpr ⟨y, hy, hiy⟩)
        · have hmem := hcase hy
          have : i ∈ level h (split (update cap cmp key k fresh revive h c n).1
              (update cap cmp key k fresh revive h c n).2).1 d ++
              level h (split (update cap cmp key k fresh revive h c n).1
              (update cap cmp key k fresh revive h c n).2).2 d := by
            rw [hsplit]
            split
            · next hdh =>
              rw [hdh, level_self] at hmem
              rw [List.mem_singleton.mp hmem]
              exact List.mem_cons_self ..
            · exact hmem
          rcases List.mem_append.mp this with h1 | h1
          · exact .inr (.inl h1)
          · exact .inr (.inr (.inl h1))
        · exact .inr (.inr (.inr (List.mem_flatMap.mpr ⟨y, hy, hiy⟩)))
      · rw [level_node _ hd]
        simp only [children_node, List.flatMap_append, List.flatMap_cons, List.mem_append]
        rcases hy with hy | hy | hy
        · exact .inl (List.mem_flatMap.mpr ⟨y, hy, hiy⟩)
        · exact .inr (.inl (hcase hy))
        · exact .inr (.inr (List.mem_flatMap.mpr ⟨y, hy, hiy⟩))

/-- Updating adds at most one item to a node and takes none away. -/
theorem length_update (t : LTree E h) (n : Nat) :
    t.items.length ≤ (update cap cmp key k fresh revive h t n).1.items.length ∧
      (update cap cmp key k fresh revive h t n).1.items.length ≤ t.items.length + 1 := by
  cases h with
  | zero => exact ⟨le_length_upsert _, length_upsert_le _⟩
  | succ h =>
    by_cases hne : t.children = []
    · have hget : t.children[route cmp key k h t.children]? = none := by simp [hne]
      rw [update]
      simp [hget]
    · obtain ⟨l, c, r, hcs, hr, -⟩ := exists_route cmp key k _ hne
      have hlen : t.items.length = l.length + r.length + 1 := by
        change t.children.length = _
        rw [hcs]
        simp
        omega
      rw [update_node t n hcs hr, hlen]
      dsimp only
      split <;> simp only [length_items_node, List.length_append, List.length_cons] <;> omega

/-- An updated node is not empty, if an interior node was not empty before. -/
theorem one_le_length_update (t : LTree E h) (n : Nat) (h1 : h ≠ 0 → 1 ≤ t.items.length) :
    1 ≤ (update cap cmp key k fresh revive h t n).1.items.length := by
  cases h with
  | zero => exact List.length_pos_iff.mpr (upsert_ne_nil _)
  | succ h =>
    have hle : t.items.length ≤
        (update cap cmp key k fresh revive (h + 1) t n).1.items.length := (length_update t n).1
    have := h1 (by omega)
    omega

/-- Bounded nodes with an item have an entry below them. -/
theorem entries_ne_nil (t : LTree E h) (hb : Bounded cap h t) (h1 : 1 ≤ t.items.length) :
    entries h t ≠ [] := by
  induction h with
  | zero => exact List.length_pos_iff.mp h1
  | succ h ih =>
    obtain ⟨c, hc⟩ : ∃ c, c ∈ t.children := List.exists_mem_of_length_pos h1
    obtain ⟨hc1, _, hcb⟩ := hb c hc
    intro hnil
    exact ih c hcb hc1 (List.flatMap_eq_nil_iff.mp hnil c hc)

/-- Both halves of a bounded node are bounded below. -/
theorem bounded_split (t : LTree E h) (n : Nat) (hb : Bounded cap h t) :
    Bounded cap h (split t n).1 ∧ Bounded cap h (split t n).2 := by
  cases h with
  | zero => exact ⟨trivial, trivial⟩
  | succ h =>
    exact ⟨fun c hc ↦ hb c (List.mem_of_mem_take hc), fun c hc ↦ hb c (List.mem_of_mem_drop hc)⟩

/-- A full node splits into two nodes with an item and room for one more. -/
theorem length_split {m : Nat} (t : LTree E h) (n : Nat) (hm : 2 ≤ m)
    (hlen : t.items.length = m) :
    (1 ≤ (split t n).1.items.length ∧ (split t n).1.items.length < m) ∧
      1 ≤ (split t n).2.items.length ∧ (split t n).2.items.length < m := by
  simp only [split, List.length_take, List.length_drop]
  omega

/-- Splits on the way back keep every node below the root bounded. -/
theorem bounded_update (t : LTree E h) (n : Nat) (hcap : ∀ d, 2 ≤ cap d)
    (hb : Bounded cap h t) (h1 : h ≠ 0 → 1 ≤ t.items.length) :
    Bounded cap h (update cap cmp key k fresh revive h t n).1 := by
  induction h with
  | zero => trivial
  | succ h ih =>
    have hne : t.children ≠ [] := List.length_pos_iff.mp (h1 (by omega))
    obtain ⟨l, c, r, hcs, hr, -⟩ := exists_route cmp key k _ hne
    have hmem : ∀ x ∈ l ++ c :: r,
        1 ≤ x.items.length ∧ x.items.length < cap h ∧ Bounded cap h x := by
      intro x hx
      exact hb x (by rw [hcs]; exact hx)
    obtain ⟨hc1, hc2, hcb⟩ := hmem c (by simp)
    have hu := ih c hcb fun _ ↦ hc1
    have hulen : c.items.length ≤ (update cap cmp key k fresh revive h c n).1.items.length ∧
        (update cap cmp key k fresh revive h c n).1.items.length ≤ c.items.length + 1 :=
      length_update c n
    rw [update_node t n hcs hr]
    dsimp only
    split
    · next hfull =>
      obtain ⟨⟨hl1, hl2⟩, hr1, hr2⟩ := length_split _
        (update cap cmp key k fresh revive h c n).2 (hcap h) hfull
      obtain ⟨hbl, hbr⟩ := bounded_split _ (update cap cmp key k fresh revive h c n).2 hu
      intro x hx
      simp only [children_node, List.mem_append, List.mem_cons] at hx
      rcases hx with hx | rfl | rfl | hx
      · exact hmem x (by simp [hx])
      · exact ⟨hl1, hl2, hbl⟩
      · exact ⟨hr1, hr2, hbr⟩
      · exact hmem x (by simp [hx])
    · next hfull =>
      intro x hx
      simp only [children_node, List.mem_append, List.mem_cons] at hx
      rcases hx with hx | rfl | hx
      · exact hmem x (by simp [hx])
      · exact ⟨by omega, by omega, hu⟩
      · exact hmem x (by simp [hx])

/-- Updating a tree upserts into its entries. -/
theorem entries_update (t : LTree E h) (n : Nat) (hcmp : Comparison cmp S)
    (hs : Sorted cmp key (entries h t)) (hes : ∀ e ∈ entries h t, S (key e)) (hk : S k)
    (hb : Bounded cap h t) (h1 : h ≠ 0 → 1 ≤ t.items.length) :
    entries h (update cap cmp key k fresh revive h t n).1 =
      upsert cmp key k fresh revive (entries h t) := by
  induction h generalizing n with
  | zero => rfl
  | succ h ih =>
    have hne : t.children ≠ [] := List.length_pos_iff.mp (h1 (by omega))
    obtain ⟨l, c, r, hcs, hr, hl, hlast, -⟩ := exists_route cmp key k _ hne
    have hent : entries (h + 1) t =
        l.flatMap (entries h) ++ (entries h c ++ r.flatMap (entries h)) := by
      change t.children.flatMap _ = _
      rw [hcs]
      simp
    rw [hent] at hs hes ⊢
    obtain ⟨hsl, hsr, _⟩ := List.pairwise_append.mp hs
    have hsc : Sorted cmp key (entries h c) := (List.pairwise_append.mp hsr).1
    have hmem : c ∈ t.children := by rw [hcs]; simp
    obtain ⟨hc1, _, hcb⟩ := hb c hmem
    have hu := ih c n hsc (fun e he ↦ hes e (by simp [he])) hcb fun _ ↦ hc1
    -- the subtrees to the left are below the key, those to the right come after the cut
    have hbelow : ∀ e ∈ l.flatMap (entries h), cmp (key e) k < 0 := by
      have hd := Sorted.downward hsl hcmp (fun e he ↦ hes e (List.mem_append_left _ he)) hk
      intro e he
      obtain ⟨x, hx, hex⟩ := List.mem_flatMap.mp he
      exact below_of_before x (hd.sublist (sublist_entries hx)) (hl x hx) e hex
    have hup : upsert cmp key k fresh revive
        (l.flatMap (entries h) ++ (entries h c ++ r.flatMap (entries h))) =
          l.flatMap (entries h) ++ (upsert cmp key k fresh revive (entries h c) ++
            r.flatMap (entries h)) := by
      rw [upsert_append_left _ hbelow]
      by_cases hbc : before cmp key k h c = true
      · rw [hlast hbc]
        simp
      · rw [upsert_append_right _ (exists_not_below c (entries_ne_nil c hcb hc1) hbc)]
    rw [hup, ← hu, update_node t n hcs hr]
    dsimp only
    split
    · rw [entries_node, List.flatMap_append, List.flatMap_cons, List.flatMap_cons,
        ← List.append_assoc (entries h _), entries_split]
    · rw [entries_node, List.flatMap_append, List.flatMap_cons]

/-- Splitting a node above the leaves preserves the leaves. -/
theorem leaves_split (t : LTree E (h + 1)) (n : Nat) :
    leaves (h + 1) (split t n).1 ++ leaves (h + 1) (split t n).2 = leaves (h + 1) t := by
  change (List.take _ t.children).flatMap _ ++ (List.drop _ t.children).flatMap _ = _
  rw [← List.flatMap_append, List.take_append_drop]
  rfl

/-- Leaves between others. -/
theorem LeafUpdate.context {m : Nat} {ls ls' L R : List (Numbered E)}
    (hl : LeafUpdate m cmp key k fresh revive ls ls')
    (hL : ∀ y ∈ L, ∀ e ∈ y.items, cmp (key e) k < 0)
    (hR : R = [] ∨ ∃ y ∈ ls, ∃ e ∈ y.items, 0 ≤ cmp (key e) k) :
    LeafUpdate m cmp key k fresh revive (L ++ ls ++ R) (L ++ ls' ++ R) := by
  obtain ⟨l, lf, r, up, rfl, hup, hbelow, hr, hls'⟩ := hl.leaf
  refine ⟨L ++ l, lf, r ++ R, up, by simp, hup, fun y hy ↦ ?_, ?_, ?_⟩
  · rcases List.mem_append.mp hy with hy | hy
    · exact hL y hy
    · exact hbelow y hy
  · rcases hr with rfl | hr
    · rcases hR with rfl | ⟨y, hy, e, he, hek⟩
      · exact .inl rfl
      · -- an entry not below the key is in the last leaf
        rcases List.mem_append.mp hy with hy | hy
        · have := hbelow y hy e he
          omega
        · rw [List.mem_singleton.mp hy] at he
          exact .inr ⟨e, he, hek⟩
    · exact .inr hr
  · rcases hls' with ⟨hlt, rfl⟩ | ⟨hfull, n, rfl⟩
    · exact .inl ⟨hlt, by simp⟩
    · exact .inr ⟨hfull, n, by simp⟩

/-- The leaves after an update and a split of the root when it is full. -/
theorem leaves_update (t : LTree E h) (n m : Nat) (hcmp : Comparison cmp S)
    (hs : Sorted cmp key (entries h t)) (hes : ∀ e ∈ entries h t, S (key e)) (hk : S k)
    (hb : Bounded cap h t) (h1 : h ≠ 0 → 1 ≤ t.items.length) (hroom : t.items.length < cap h) :
    LeafUpdate (cap 0) cmp key k fresh revive (leaves h t)
      (if (update cap cmp key k fresh revive h t n).1.items.length = cap h then
        leaves h (split (update cap cmp key k fresh revive h t n).1 m).1 ++
          leaves h (split (update cap cmp key k fresh revive h t n).1 m).2
      else leaves h (update cap cmp key k fresh revive h t n).1) := by
  induction h generalizing n m with
  | zero =>
    have hle : (upsert cmp key k fresh revive t.items).length ≤ t.items.length + 1 :=
      length_upsert_le _
    refine ⟨[], ⟨t.id, t.items⟩, [], _, rfl, rfl, by simp, .inl rfl, ?_⟩
    change (_ ∧ (if (upsert cmp key k fresh revive t.items).length = cap 0 then _ else _) = _) ∨
      _ ∧ ∃ n, (if (upsert cmp key k fresh revive t.items).length = cap 0 then _ else _) = _
    by_cases hfull : (upsert cmp key k fresh revive t.items).length = cap 0
    · refine .inr ⟨hfull, m, ?_⟩
      rw [if_pos hfull, ← hfull]
      rfl
    · refine .inl ⟨?_, by rw [if_neg hfull]; rfl⟩
      change (upsert cmp key k fresh revive t.items).length < cap 0
      omega
  | succ h ih =>
    have hne : t.children ≠ [] := List.length_pos_iff.mp (h1 (by omega))
    obtain ⟨l, c, r, hcs, hr, hl, hlast, -⟩ := exists_route cmp key k _ hne
    have hent : entries (h + 1) t =
        l.flatMap (entries h) ++ (entries h c ++ r.flatMap (entries h)) := by
      change t.children.flatMap _ = _
      rw [hcs]
      simp
    rw [hent] at hs hes
    obtain ⟨hsl, hsr, _⟩ := List.pairwise_append.mp hs
    have hsc : Sorted cmp key (entries h c) := (List.pairwise_append.mp hsr).1
    obtain ⟨hc1, hc2, hcb⟩ := hb c (by rw [hcs]; simp)
    have hu := ih c n (update cap cmp key k fresh revive h c n).2 hsc
      (fun e he ↦ hes e (by simp [he])) hcb (fun _ ↦ hc1) hc2
    have hleaves : leaves (h + 1) t =
        l.flatMap (leaves h) ++ leaves h c ++ r.flatMap (leaves h) := by
      change t.children.flatMap _ = _
      rw [hcs]
      simp
    have hwhole : ∀ u : LTree E (h + 1), (if u.items.length = cap (h + 1) then
        leaves (h + 1) (split u m).1 ++ leaves (h + 1) (split u m).2 else leaves (h + 1) u) =
        leaves (h + 1) u := by
      intro u
      rw [leaves_split, ite_self]
    have hnode : leaves (h + 1) (update cap cmp key k fresh revive (h + 1) t n).1 =
        l.flatMap (leaves h) ++ (if (update cap cmp key k fresh revive h c n).1.items.length =
          cap h then
            leaves h (split (update cap cmp key k fresh revive h c n).1
              (update cap cmp key k fresh revive h c n).2).1 ++
            leaves h (split (update cap cmp key k fresh revive h c n).1
              (update cap cmp key k fresh revive h c n).2).2
          else leaves h (update cap cmp key k fresh revive h c n).1) ++ r.flatMap (leaves h) := by
      rw [update_node t n hcs hr]
      dsimp only
      split
      · change List.flatMap _ (l ++ _ :: _ :: r) = _
        simp
      · change List.flatMap _ (l ++ _ :: r) = _
        simp
    rw [hwhole, hnode, hleaves]
    refine hu.context ?_ ?_
    · have hd := Sorted.downward hsl hcmp (fun e he ↦ hes e (List.mem_append_left _ he)) hk
      intro y hy e he
      obtain ⟨x, hx, hyx⟩ := List.mem_flatMap.mp hy
      refine below_of_before x (hd.sublist (sublist_entries hx)) (hl x hx) e ?_
      rw [entries_eq_leaves]
      exact List.mem_flatMap.mpr ⟨y, hyx, he⟩
    · by_cases hbc : before cmp key k h c = true
      · left
        rw [hlast hbc]
        rfl
      · right
        obtain ⟨e, he, hek⟩ := exists_not_below c (entries_ne_nil c hcb hc1) hbc
        rw [entries_eq_leaves] at he
        obtain ⟨y, hy, hey⟩ := List.mem_flatMap.mp he
        exact ⟨y, hy, e, hey, hek⟩

/-- Updating a subtree that is not before the key keeps its greatest key. -/
theorem topKey_update (t : LTree E h) (n : Nat) (hcmp : Comparison cmp S)
    (hs : Sorted cmp key (entries h t)) (hes : ∀ e ∈ entries h t, S (key e)) (hk : S k)
    (hb : Bounded cap h t) (h1 : 1 ≤ t.items.length) (hr : ∀ e, key (revive e) = key e)
    (hbk : ¬ before cmp key k h t = true) :
    topKey key h (update cap cmp key k fresh revive h t n).1 = topKey key h t := by
  unfold topKey
  rw [entries_update t n hcmp hs hes hk hb fun _ ↦ h1]
  exact getLast?_upsert hr (exists_not_below t (entries_ne_nil t hb h1) hbk)

end Update

section Refill

variable {f : Nat → List E} {h : Nat}

/-- Refilling keeps the number of the root. -/
@[simp] theorem id_refill (t : LTree E h) : (refill f h t).id = t.id := by
  cases h <;> rfl

/-- Refilling keeps the leaves in place. -/
theorem leaves_refill (t : LTree E h) :
    leaves h (refill f h t) = (leaves h t).map fun lf ↦ ⟨lf.id, f lf.id⟩ := by
  induction h with
  | zero => rfl
  | succ h ih =>
    simp only [leaves, refill, children_node, List.flatMap_map, List.map_flatMap]
    exact List.flatMap_congr fun c _ ↦ ih c

/-- Refilling keeps the nodes on their levels. -/
theorem level_refill (t : LTree E h) (d : Nat) : level h (refill f h t) d = level h t d := by
  induction h with
  | zero => rfl
  | succ h ih =>
    simp only [level, refill, children_node, id_node, List.flatMap_map]
    split
    · rfl
    · exact List.flatMap_congr fun c _ ↦ ih c

/-- Refilling leaves to the same length keeps the number of items of a node. -/
theorem length_refill (t : LTree E h) (hf : ∀ lf ∈ leaves h t, (f lf.id).length = lf.items.length) :
    (refill f h t).items.length = t.items.length := by
  cases h with
  | zero => exact hf _ (List.mem_singleton_self _)
  | succ h => exact List.length_map ..

/-- Refilling leaves to the same length keeps the bounds. -/
theorem bounded_refill {cap : Nat → Nat} (t : LTree E h) (hb : Bounded cap h t)
    (hf : ∀ lf ∈ leaves h t, (f lf.id).length = lf.items.length) :
    Bounded cap h (refill f h t) := by
  induction h with
  | zero => trivial
  | succ h ih =>
    intro c hc
    obtain ⟨y, hy, rfl⟩ := List.mem_map.mp hc
    have hfy : ∀ lf ∈ leaves h y, (f lf.id).length = lf.items.length :=
      fun lf hlf ↦ hf lf (List.mem_flatMap.mpr ⟨y, hy, hlf⟩)
    obtain ⟨h1, h2, hyb⟩ := hb y hy
    exact ⟨by rwa [length_refill y hfy], by rwa [length_refill y hfy], ih y hyb hfy⟩

/-- Refilling leaves with entries of the same image keeps the image of the entries. -/
theorem map_entries_refill {β : Type} (g : E → β) (t : LTree E h)
    (hf : ∀ lf ∈ leaves h t, (f lf.id).map g = lf.items.map g) :
    (entries h (refill f h t)).map g = (entries h t).map g := by
  rw [entries_eq_leaves, entries_eq_leaves, leaves_refill, List.flatMap_map, List.map_flatMap,
    List.map_flatMap]
  exact List.flatMap_congr hf

/-- Refilling leaves with entries of the same keys keeps the greatest key. -/
theorem topKey_refill {key : E → K} (t : LTree E h)
    (hf : ∀ lf ∈ leaves h t, (f lf.id).map key = lf.items.map key) :
    topKey key h (refill f h t) = topKey key h t := by
  unfold topKey
  rw [← List.getLast?_map, ← List.getLast?_map, map_entries_refill key t hf]

end Refill

end LTree

end ExampleEngine.Base
