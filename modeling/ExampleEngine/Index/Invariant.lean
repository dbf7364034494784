import ExampleEngine.Base.Chain
import ExampleEngine.Base.NumberedTree
import ExampleEngine.Index.Values

/-!
# The B+tree in the block heap

Library `Index`. Relates node blocks to a search tree of one depth whose nodes are
numbered by their blocks: slots are entries in a leaf and name subtrees above, under their
greatest keys, and on each level the nodes are chained in order.
-/

namespace ExampleEngine.Index

open ExampleEngine.Base ExampleEngine.Storage

variable {K : Type}

namespace Config

/-- The value size of nodes `h` levels above the leaves. -/
def valueSizeAt (c : Config K) (h : Nat) : Nat :=
  if h = 0 then c.leafValueSize else c.nodeValueSize

/-- How many slots a node `h` levels above the leaves holds. -/
def capacity (c : Config K) (h : Nat) : Nat :=
  (BLOCK_SIZE - 34) / (c.keySize + c.valueSizeAt h + 1)

/-- Nodes hold at least three slots. -/
def Wide (c : Config K) : Prop := ∀ h, 3 ≤ c.capacity h

/-- Nodes on all levels are wide as soon as leaves and their parents are. -/
theorem wide_iff (c : Config K) : c.Wide ↔ 3 ≤ c.capacity 0 ∧ 3 ≤ c.capacity 1 := by
  constructor
  · intro h
    exact ⟨h 0, h 1⟩
  · rintro ⟨h0, h1⟩ h
    cases h with
    | zero => exact h0
    | succ h => exact h1

end Config

/-- A node block of the tree's sizes, `h` levels above the leaves. -/
structure Shape (c : Config K) (h : Nat) (n : NodeBlock K) : Prop where
  keySize : n.keySize = c.keySize
  valSize : n.valSize = c.valueSizeAt h
  type : n.header.type = if h = 0 then .leaf else .node

/-- The capacity that a node block computes in 16 bits is the one intended. -/
theorem Shape.size {c : Config K} {h : Nat} {n : NodeBlock K} (hs : Shape c h n)
    (hc : c.Wide) : n.size = c.capacity h := by
  have hcap := hc h
  unfold Config.capacity at hcap
  have hpos : 0 < c.keySize + c.valueSizeAt h + 1 := by omega
  rw [Nat.le_div_iff_mul_le hpos] at hcap
  simp only [BLOCK_SIZE] at hcap
  unfold NodeBlock.size NodeBlock.sizeOfItem Config.capacity
  rw [hs.keySize, hs.valSize, Nat.mod_eq_of_lt (by omega)]

/-- Leaf blocks are the nodes without a level below. -/
theorem Shape.leaf {c : Config K} {h : Nat} {n : NodeBlock K} (hs : Shape c h n) :
    n.leaf = decide (h = 0) := by
  unfold NodeBlock.leaf
  rw [hs.type]
  by_cases h0 : h = 0 <;> simp [h0]

/-- A slot names a subtree, under its greatest key. -/
def Separates (h : Nat) (s : Slot K) (x : LTree (Slot K) h) : Prop :=
  LTree.topKey Slot.key h x = some s.key ∧ s.value = leBytes 4 x.id

/-- The slots of a block hold the items of a node: entries in a leaf, subtrees above. -/
def Fits : (h : Nat) → List (Slot K) → List (Item (Slot K) h) → Prop
  | 0, kv, items => kv = items
  | h + 1, kv, items => List.Forall₂ (Separates h) kv items

/-- The blocks hold a tree: the root block its items, other blocks the subtrees. -/
def Rep (c : Config K) (v : Nat → Page K) : (h : Nat) → LTree (Slot K) h → Prop
  | 0, x => ∃ n, v x.id = .node n ∧ Shape c 0 n ∧ Fits 0 n.kv x.items
  | h + 1, x => (∃ n, v x.id = .node n ∧ Shape c (h + 1) n ∧ Fits (h + 1) n.kv x.items) ∧
      ∀ y ∈ x.children, Rep c v h y

namespace Fits

variable {h : Nat} {kv : List (Slot K)} {items : List (Item (Slot K) h)}

/-- A block has as many slots as its node has items. -/
theorem length_eq (hf : Fits h kv items) : kv.length = items.length := by
  cases h with
  | zero => exact congrArg List.length hf
  | succ h => exact List.Forall₂.length_eq hf

/-- The first slots hold the first items. -/
theorem take (hf : Fits h kv items) (k : Nat) : Fits h (kv.take k) (items.take k) := by
  cases h with
  | zero => exact congrArg (List.take k) hf
  | succ h => exact List.forall₂_take k hf

/-- The last slots hold the last items. -/
theorem drop (hf : Fits h kv items) (k : Nat) : Fits h (kv.drop k) (items.drop k) := by
  cases h with
  | zero => exact congrArg (List.drop k) hf
  | succ h => exact List.forall₂_drop k hf

/-- The key of the last slot is the greatest key of the node's entries. -/
theorem topKey {x : LTree (Slot K) h} {A : List (Slot K)} {s : Slot K} {cap : Nat → Nat}
    (hf : Fits h (A ++ [s]) x.items) (hb : LTree.Bounded cap h x) :
    LTree.topKey Slot.key h x = some s.key := by
  unfold LTree.topKey
  cases h with
  | zero =>
    have hent : LTree.entries 0 x = A ++ [s] := hf.symm
    rw [hent]
    simp
  | succ h =>
    obtain ⟨cs, y, ds, hxc, _, hy, hds⟩ := forall₂_split_left hf
    cases hds
    have hxc' : x.children = cs ++ [y] := hxc
    have hyb := hb y (by rw [hxc']; simp)
    have hent : LTree.entries (h + 1) x = cs.flatMap (LTree.entries h) ++ LTree.entries h y := by
      change x.children.flatMap _ = _
      rw [hxc']
      simp
    rw [hent, List.getLast?_append_of_ne_nil _ (LTree.entries_ne_nil y hyb.2.2 hyb.1)]
    exact hy.1

end Fits

/-- The block of the root. -/
theorem Rep.root {c : Config K} {v : Nat → Page K} {h : Nat} {x : LTree (Slot K) h}
    (hx : Rep c v h x) : ∃ n, v x.id = .node n ∧ Shape c h n ∧ Fits h n.kv x.items := by
  cases h with
  | zero => exact hx
  | succ h => exact hx.1

/-- A node is the same but for its links. -/
structure SameSlots (n n' : NodeBlock K) : Prop where
  type : n'.header.type = n.header.type
  keySize : n'.keySize = n.keySize
  valSize : n'.valSize = n.valSize
  kv : n'.kv = n.kv

/-- Every node is the same as itself. -/
theorem SameSlots.refl (n : NodeBlock K) : SameSlots n n := ⟨rfl, rfl, rfl, rfl⟩

/-- The relation is transitive. -/
theorem SameSlots.trans {a b d : NodeBlock K} (h : SameSlots a b) (h' : SameSlots b d) :
    SameSlots a d :=
  ⟨h'.type.trans h.type, h'.keySize.trans h.keySize, h'.valSize.trans h.valSize,
    h'.kv.trans h.kv⟩

/-- The shape does not depend on the links. -/
theorem Shape.congr {c : Config K} {h : Nat} {n n' : NodeBlock K} (hs : Shape c h n)
    (he : SameSlots n n') : Shape c h n' :=
  ⟨he.keySize.trans hs.keySize, he.valSize.trans hs.valSize, he.type.trans hs.type⟩

/-- A tree only depends on the slots of its own nodes. -/
theorem Rep.congr {c : Config K} {v v' : Nat → Page K} {h : Nat} {x : LTree (Slot K) h}
    (hx : Rep c v h x)
    (hv : ∀ d, ∀ i ∈ LTree.level h x d, ∀ n, v i = .node n →
      ∃ n', v' i = .node n' ∧ SameSlots n n') : Rep c v' h x := by
  induction h with
  | zero =>
    obtain ⟨n, hn, hs, hkv⟩ := hx
    obtain ⟨n', hn', he⟩ := hv 0 x.id (by simp [LTree.level]) n hn
    exact ⟨n', hn', hs.congr he, by rw [he.kv]; exact hkv⟩
  | succ h ih =>
    obtain ⟨⟨n, hn, hs, hkv⟩, hsub⟩ := hx
    obtain ⟨n', hn', he⟩ := hv (h + 1) x.id (by simp [LTree.level]) n hn
    refine ⟨⟨n', hn', hs.congr he, by rw [he.kv]; exact hkv⟩, fun y hy ↦ ?_⟩
    refine ih (hsub y hy) fun d i hi n hn ↦ ?_
    have hd : d ≠ h + 1 := by
      rintro rfl
      rw [LTree.level_of_lt y (Nat.lt_succ_self h)] at hi
      cases hi
    refine hv d i ?_ n hn
    rw [LTree.level_node x hd]
    exact List.mem_flatMap.mpr ⟨y, hy, hi⟩

/-- A node with other items of the same subtrees, when the subtrees' nodes keep their slots. -/
theorem Rep.subnode {c : Config K} {v v' : Nat → Page K} {h id : Nat} {x : LTree (Slot K) h}
    {items : List (Item (Slot K) h)} {n : NodeBlock K} (hx : Rep c v h x)
    (hsub : ∀ y ∈ items, y ∈ x.items) (hn : v' id = .node n) (hs : Shape c h n)
    (hf : Fits h n.kv items)
    (hv : ∀ d < h, ∀ i ∈ LTree.level h x d, ∀ n, v i = .node n →
      ∃ n', v' i = .node n' ∧ SameSlots n n') : Rep c v' h ⟨id, items⟩ := by
  cases h with
  | zero => exact ⟨n, hn, hs, hf⟩
  | succ h =>
    refine ⟨⟨n, hn, hs, hf⟩, fun y hy ↦ ?_⟩
    refine (hx.2 y (hsub y hy)).congr fun d i hi k hk ↦ ?_
    have hd : d < h + 1 := by
      by_contra hlt
      rw [LTree.level_of_lt y (by omega)] at hi
      cases hi
    refine hv d hd i ?_ k hk
    rw [LTree.level_node x (by omega)]
    exact List.mem_flatMap.mpr ⟨y, hsub y hy, hi⟩

/-- A search for `k` in an interior node: the subtree it enters, the slot that names it, and
the cut that bisection finds. -/
structure Entered (cmp : K → K → Int) (k : K) (h : Nat) (kv : List (Slot K))
    (cs : List (LTree (Slot K) h)) (X : List (Slot K)) (s : Slot K) (Y : List (Slot K))
    (l : List (LTree (Slot K) h)) (x : LTree (Slot K) h) (r : List (LTree (Slot K) h)) : Prop where
  slots : kv = X ++ s :: Y
  subtrees : cs = l ++ x :: r
  left : List.Forall₂ (Separates h) X l
  here : Separates h s x
  right : List.Forall₂ (Separates h) Y r
  route : LTree.route cmp Slot.key k h cs = l.length
  before : ∀ y ∈ l, LTree.before cmp Slot.key k h y = true
  last : LTree.before cmp Slot.key k h x = true → r = []
  cut : ∃ A B, Cut cmp Slot.key k kv A B ∧
    (LTree.before cmp Slot.key k h x = true → A = kv) ∧
    (¬ LTree.before cmp Slot.key k h x = true → A = X)

/-- A search enters a subtree of any interior node. -/
theorem exists_entered {cmp : K → K → Int} {k : K} {h : Nat} {kv : List (Slot K)}
    (cs : List (LTree (Slot K) h)) (hf : List.Forall₂ (Separates h) kv cs) (hne : cs ≠ [])
    (hd : Downward cmp Slot.key k (cs.flatMap (LTree.entries h))) :
    ∃ X s Y l x r, Entered cmp k h kv cs X s Y l x r := by
  obtain ⟨l, x, r, hcs, hroute, hl, hlast, -⟩ := LTree.exists_route cmp Slot.key k cs hne
  rw [hcs] at hf
  obtain ⟨X, s, Y, hkv, hX, hs, hY⟩ := forall₂_split_right hf
  have hbelow : ∀ e ∈ X, cmp e.key k < 0 := by
    intro e he
    obtain ⟨y, hy, hsep⟩ := forall₂_left_mem hX he
    have := hl y hy
    unfold LTree.before at this
    rw [hsep.1] at this
    simpa using this
  refine ⟨X, s, Y, l, x, r, hkv, hcs, hX, hs, hY, hroute, hl, hlast, ?_⟩
  by_cases hx : LTree.before cmp Slot.key k h x = true
  · have hxs : cmp s.key k < 0 := by
      unfold LTree.before at hx
      rw [hs.1] at hx
      simpa using hx
    have hYnil : Y = [] := by
      rw [hlast hx] at hY
      cases hY
      rfl
    subst hYnil
    refine ⟨kv, [], ⟨by simp, ?_, by simp⟩, fun _ ↦ rfl, fun hn ↦ absurd hx hn⟩
    intro e he
    rw [hkv] at he
    rcases List.mem_append.mp he with he | he
    · exact hbelow e he
    · rw [List.mem_singleton.mp he]
      exact hxs
  · have hxs : ¬ cmp s.key k < 0 := by
      unfold LTree.before at hx
      rw [hs.1] at hx
      simpa using hx
    refine ⟨X, s :: Y, ⟨hkv, hbelow, ?_⟩, fun h ↦ absurd h hx, fun _ ↦ rfl⟩
    intro e he
    rcases List.mem_cons.mp he with rfl | he
    · omega
    · obtain ⟨y, hy, hsep⟩ := forall₂_left_mem hY he
      obtain ⟨a, ha, hak⟩ := Option.map_eq_some_iff.mp hs.1
      obtain ⟨b, hb, hbk⟩ := Option.map_eq_some_iff.mp hsep.1
      -- the greatest entry of a later subtree comes after the greatest one here
      have hab : cmp b.key k < 0 → cmp a.key k < 0 := by
        rw [hcs, List.flatMap_append, List.flatMap_cons] at hd
        have hd' := (List.pairwise_append.mp (List.pairwise_append.mp hd).2.1).2.2
        exact hd' a (List.mem_of_getLast? ha) b
          (List.mem_flatMap.mpr ⟨y, hy, List.mem_of_getLast? hb⟩)
      rw [hak, hbk] at hab
      omega

section Entered

variable {cmp : K → K → Int} {S : K → Prop} {k : K} {h : Nat} {kv X Y : List (Slot K)}
  {s : Slot K} {cs l r : List (LTree (Slot K) h)} {x : LTree (Slot K) h}

/-- The subtree entered is the only one that can hold an entry equal to the key. -/
theorem Entered.mem (he : Entered cmp k h kv cs X s Y l x r) (hcmp : Comparison cmp S)
    (hs : Sorted cmp Slot.key (cs.flatMap (LTree.entries h)))
    (hes : ∀ e ∈ cs.flatMap (LTree.entries h), S e.key) (hk : S k)
    (hne : LTree.entries h x ≠ []) {e : Slot K} (hmem : e ∈ cs.flatMap (LTree.entries h))
    (hek : cmp e.key k = 0) : e ∈ LTree.entries h x := by
  rw [he.subtrees, List.flatMap_append, List.flatMap_cons] at hs hes hmem
  obtain ⟨hsl, hsr, _⟩ := List.pairwise_append.mp hs
  simp only [List.mem_append] at hmem hes
  rcases hmem with hl | hx | hr
  · obtain ⟨y, hy, hey⟩ := List.mem_flatMap.mp hl
    have hd := Sorted.downward hsl hcmp (fun e he ↦ hes e (.inl he)) hk
    have := LTree.below_of_before y (hd.sublist (LTree.sublist_entries hy)) (he.before y hy) e hey
    omega
  · exact hx
  · have hb : ¬ LTree.before cmp Slot.key k h x = true := by
      intro hb
      rw [he.last hb] at hr
      simp at hr
    obtain ⟨a, ha, hak⟩ := LTree.exists_not_below x hne hb
    have hae := (List.pairwise_append.mp hsr).2.2 a ha e hr
    have := hcmp.pos_of_le_of_pos (hes a (.inr (.inl ha))) (hes e (.inr (.inr hr))) hk hae hak
    omega

end Entered

/-- The next node on the same level. -/
def nextOf (v : Nat → Page K) (i : Nat) : Nat := (v i).header.next

/-- The preceding node on the same level. -/
def lastOf (v : Nat → Page K) (i : Nat) : Nat := (v i).header.last

/-- The nodes of each level are chained in order, and every node has one block in use. -/
structure Placed (v : Nat → Page K) (L : Nat → List Nat) (n : Nat) : Prop where
  node : ∀ d, ∀ i ∈ L d, ∃ b, v i = .node b
  chain : ∀ d, Chain (nextOf v) (lastOf v) 0 (L d)
  nodup : ∀ d, (L d).Nodup
  disjoint : ∀ d d' i, i ∈ L d → i ∈ L d' → d = d'
  range : ∀ d, ∀ i ∈ L d, 0 < i ∧ i < n

/-- Placement depends on the links of the nodes alone. -/
theorem Placed.congr {v v' : Nat → Page K} {L : Nat → List Nat} {n n' : Nat}
    (h : Placed v L n) (hn : n ≤ n')
    (hv : ∀ d, ∀ i ∈ L d, ∀ b, v i = .node b → ∃ b', v' i = .node b' ∧
      b'.header.next = b.header.next ∧ b'.header.last = b.header.last) :
    Placed v' L n' := by
  have hlinks : ∀ d, ∀ i ∈ L d, nextOf v' i = nextOf v i ∧ lastOf v' i = lastOf v i := by
    intro d i hi
    obtain ⟨b, hb⟩ := h.node d i hi
    obtain ⟨b', hb', hnext, hlast⟩ := hv d i hi b hb
    unfold nextOf lastOf
    rw [hb, hb']
    exact ⟨hnext, hlast⟩
  constructor
  · intro d i hi
    obtain ⟨b, hb⟩ := h.node d i hi
    obtain ⟨b', hb', _⟩ := hv d i hi b hb
    exact ⟨b', hb'⟩
  · intro d
    exact (h.chain d).congr (fun i hi ↦ (hlinks d i hi).1) fun i hi ↦ (hlinks d i hi).2
  · exact h.nodup
  · exact h.disjoint
  · intro d i hi
    exact ⟨(h.range d i hi).1, Nat.lt_of_lt_of_le (h.range d i hi).2 hn⟩

/-- Splitting a node puts the new one next to it on its level. -/
theorem Placed.split {v v' : Nat → Page K} {L L' : Nat → List Nat} {n h a : Nat}
    {A B : List Nat} (hp : Placed v L n) (hn : 0 < n) (hL : L h = A ++ a :: B)
    (hL' : ∀ d, L' d = if d = h then A ++ a :: n :: B else L d)
    (hnode : ∀ i b, v i = .node b → i < n → ∃ b', v' i = .node b')
    (hnoden : ∃ b, v' n = .node b) (hna : nextOf v' a = n) (hla : lastOf v' a = lastOf v a)
    (hnn : nextOf v' n = nextOf v a) (hln : lastOf v' n = a)
    (hnext : nextOf v a ≠ 0 → nextOf v' (nextOf v a) = nextOf v (nextOf v a) ∧
      lastOf v' (nextOf v a) = n)
    (hother : ∀ d, ∀ i ∈ L d, i ≠ a → i ≠ nextOf v a →
      nextOf v' i = nextOf v i ∧ lastOf v' i = lastOf v i) : Placed v' L' (n + 1) := by
  have hlinks := (hL ▸ hp.chain h).links
  have hfresh : ∀ d, n ∉ L d := fun d hmem ↦ Nat.lt_irrefl _ (hp.range d n hmem).2
  have haL : a ∈ L h := by rw [hL]; simp
  have hnodup := hp.nodup h
  have hbne : nextOf v a ≠ a := by
    rw [hlinks.2]
    cases B with
    | nil => exact Nat.ne_of_lt (hp.range h a haL).1
    | cons b B =>
      rw [hL] at hnodup
      rintro rfl
      have := (List.nodup_append.mp hnodup).2.1
      simp at this
  have hnextL : ∀ d, ∀ i ∈ L d, i ≠ a → nextOf v' i = nextOf v i := by
    intro d i hi hia
    by_cases hib : i = nextOf v a
    · have hb0 : nextOf v a ≠ 0 := by
        have := (hp.range d i hi).1
        omega
      rw [hib]
      exact (hnext hb0).1
    · exact (hother d i hi hia hib).1
  have hlastL : ∀ d, ∀ i ∈ L d, i ≠ nextOf v a → lastOf v' i = lastOf v i := by
    intro d i hi hib
    by_cases hia : i = a
    · rw [hia, hla]
    · exact (hother d i hi hia hib).2
  have hmem' : ∀ d i, i ∈ L' d → i = n ∧ d = h ∨ i ∈ L d := by
    intro d i hi
    rw [hL'] at hi
    split at hi
    · next heq =>
      subst heq
      rw [hL]
      simp only [List.mem_append, List.mem_cons] at hi ⊢
      tauto
    · exact .inr hi
  constructor
  · intro d i hi
    rcases hmem' d i hi with ⟨rfl, _⟩ | hi
    · exact hnoden
    · obtain ⟨b, hb⟩ := hp.node d i hi
      exact hnode i b hb (hp.range d i hi).2
  · intro d
    rw [hL' d]
    split
    · have hchain := hL ▸ hp.chain h
      refine hchain.insert_after (hL ▸ hnodup) hna (by rw [hnn, hlinks.2]) hln ?_ ?_ ?_
      · intro b hb
        have hbe : nextOf v a = b := by
          rw [hlinks.2]
          cases B with
          | nil => simp at hb
          | cons x B => simpa using hb
        have hb0 : nextOf v a ≠ 0 := by
          have hbL : b ∈ L h := by
            rw [hL]
            exact List.mem_append_right _ (List.mem_cons_of_mem _ (List.mem_of_mem_head? hb))
          have := (hp.range h b hbL).1
          omega
        rw [← hbe]
        exact (hnext hb0).2
      · intro i hi hia
        exact hnextL h i (hL ▸ hi) hia
      · intro i hi hib
        refine hlastL h i (hL ▸ hi) ?_
        rintro rfl
        have hi0 := (hp.range h _ (hL ▸ hi)).1
        rw [hlinks.2] at hib hi0
        cases B with
        | nil => simp at hi0
        | cons b B => simp at hib
    · next hd =>
      refine (hp.chain d).congr ?_ ?_
      · intro i hi
        refine hnextL d i hi ?_
        rintro rfl
        exact hd (hp.disjoint d h _ hi haL)
      · intro i hi
        refine hlastL d i hi ?_
        rintro rfl
        have hi0 := (hp.range d _ hi).1
        have hbL : nextOf v a ∈ L h := by
          rw [hlinks.2] at hi0 ⊢
          cases B with
          | nil => simp at hi0
          | cons b B => rw [hL]; simp
        exact hd (hp.disjoint d h _ hi hbL)
  · intro d
    rw [hL' d]
    split
    · rw [hL] at hnodup
      have hf := hfresh h
      rw [hL] at hf
      simp only [List.nodup_append, List.nodup_cons, List.mem_append, List.mem_cons] at hnodup hf ⊢
      grind
    · exact hp.nodup d
  · intro d d' i hi hi'
    rcases hmem' d i hi with ⟨rfl, rfl⟩ | h1 <;> rcases hmem' d' i hi' with ⟨h2, h3⟩ | h2
    · exact h3.symm
    · exact absurd h2 (hfresh d')
    · subst h2
      exact absurd h1 (hfresh d)
    · exact hp.disjoint d d' i h1 h2
  · intro d i hi
    rcases hmem' d i hi with ⟨rfl, _⟩ | hi
    · omega
    · have := hp.range d i hi
      omega

/-- Adding a new node above a tree. -/
theorem Placed.top {v : Nat → Page K} {L L' : Nat → List Nat} {n i : Nat}
    (hp : Placed v L n) (d₀ : Nat) (hL : L d₀ = []) (hL' : ∀ d, L' d = if d = d₀ then [i] else L d)
    (hi : ∀ d, i ∉ L d) (h0 : 0 < i) (hn : i < n) {b : NodeBlock K} (hb : v i = .node b)
    (hnext : b.header.next = 0) (hlast : b.header.last = 0) : Placed v L' n := by
  have hcase : ∀ d, ∀ j ∈ L' d, (j = i ∧ d = d₀) ∨ (j ∈ L d ∧ d ≠ d₀) := by
    intro d j hj
    rw [hL'] at hj
    split at hj
    · next heq => exact .inl ⟨by simpa using hj, heq⟩
    · next hne => exact .inr ⟨hj, hne⟩
  constructor
  · intro d j hj
    rcases hcase d j hj with ⟨rfl, _⟩ | ⟨hj, _⟩
    · exact ⟨b, hb⟩
    · exact hp.node d j hj
  · intro d
    rw [hL']
    split
    · refine ⟨?_, ?_, trivial⟩
      · rw [lastOf, hb]
        exact hlast
      · rw [nextOf, hb]
        exact hnext
    · exact hp.chain d
  · intro d
    rw [hL']
    split
    · simp
    · exact hp.nodup d
  · intro d d' j hj hj'
    rcases hcase d j hj with ⟨rfl, rfl⟩ | ⟨h1, _⟩ <;>
      rcases hcase d' j hj' with ⟨h2, h3⟩ | ⟨h2, _⟩
    · exact h3.symm
    · exact absurd h2 (hi d')
    · exact absurd (h2 ▸ h1) (hi d)
    · exact hp.disjoint d d' j h1 h2
  · intro d j hj
    rcases hcase d j hj with ⟨rfl, _⟩ | ⟨hj, _⟩
    · exact ⟨h0, hn⟩
    · exact hp.range d j hj

end ExampleEngine.Index
