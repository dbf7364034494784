import ExampleEngine.Index.Insert
import Mathlib.Data.Fintype.Card

/-!
# The tree invariant and `put`

Library `Index`. The invariant of an open tree, and that `BTree::put` of
`src/lib/btree.cpp:588–619`, which splits a full root, keeps it and upserts the entry.
-/

namespace ExampleEngine.Index

open ExampleEngine.Base ExampleEngine.Storage

namespace BTree

variable {K : Type} {c : Config K} {S : K → Prop} {t t' t'' : BTree K}
  {m m' m'' : BTreeMetadata} {h : Nat} {x : LTree (Slot K) h} {key : K} {value : List UInt8}
  {E : Fault → Prop}

/-- An open tree whose blocks hold the search tree `x` of height `h`: every block in use is
the metadata, one node, or a data block. -/
structure Holds (c : Config K) (S : K → Prop) (t : BTree K) (m : BTreeMetadata) (h : Nat)
    (x : LTree (Slot K) h) : Prop where
  heap : Heap t m
  root : t.root = x.id
  metaRoot : m.root = x.id
  dirty : t.buffer.Dirty x.id
  tree : Subtree c S t.page m.countOfBlock (fun _ ↦ []) (fun _ ↦ []) h x
  two : h ≠ 0 → 2 ≤ x.items.length
  roles : ∀ i, 0 < i → i < m.countOfBlock → IsData t.page i ∨ ∃ d, i ∈ LTree.level h x d

/-- The levels of a whole tree. -/
theorem Holds.placed (ht : Holds c S t m h x) :
    Placed t.page (LTree.level h x) m.countOfBlock := by
  have := ht.tree.placed
  simpa only [List.nil_append, List.append_nil] using this

private theorem level_ne_nil {cap : Nat → Nat} (x : LTree (Slot K) h) (hb : LTree.Bounded cap h x)
    (h1 : h ≠ 0 → 1 ≤ x.items.length) {d : Nat} (hd : d ≤ h) : LTree.level h x d ≠ [] := by
  induction h with
  | zero =>
    obtain rfl : d = 0 := by omega
    simp [LTree.level]
  | succ h ih =>
    by_cases hdh : d = h + 1
    · rw [hdh, LTree.level_self]
      simp
    · obtain ⟨y, hy⟩ : ∃ y, y ∈ x.children := List.exists_mem_of_length_pos (h1 (by omega))
      obtain ⟨hy1, _, hyb⟩ := hb y hy
      rw [LTree.level_node x hdh]
      intro hnil
      exact ih y hyb (fun _ ↦ hy1) (by omega) (List.flatMap_eq_nil_iff.mp hnil y hy)

/-- A tree has a node on each of its levels, so it is less high than it has blocks. -/
theorem Holds.height_lt (ht : Holds c S t m h x) : h < m.countOfBlock := by
  have hne : ∀ d : Fin (h + 1), ∃ i, i ∈ LTree.level h x d := by
    intro d
    apply List.exists_mem_of_ne_nil
    exact level_ne_nil x ht.tree.bounded ht.tree.nonempty (by omega)
  choose f hf using hne
  let g : Fin (h + 1) → Fin m.countOfBlock := fun d ↦ ⟨f d, (ht.placed.range d (f d) (hf d)).2⟩
  have hinj : Function.Injective g := by
    intro d d' hdd
    have heq : f d = f d' := congrArg Fin.val hdd
    exact Fin.ext (ht.placed.disjoint d d' (f d) (hf d) (heq ▸ hf d'))
  have := Fintype.card_le_of_injective g hinj
  simp only [Fintype.card_fin] at this
  omega

/-- The heap does not depend on the root pointer. -/
theorem Heap.withRoot (hh : Heap t m) (r : Nat) : Heap { t with root := r } m :=
  ⟨hh.reliable, hh.metadata, hh.pinned, hh.index, hh.pooled, hh.count_le, hh.number⟩

/-- The root pointer is not part of the contents. -/
theorem page_withRoot (t : BTree K) (r : Nat) : BTree.page { t with root := r } = t.page := rfl

/-- The tree above a full root that was split: the new root and the other half take the
next two blocks. -/
def grownTree (x : LTree (Slot K) h) (n : Nat) : LTree (Slot K) (h + 1) :=
  LTree.node n [(LTree.split x (n + 1)).1, (LTree.split x (n + 1)).2]

/-- What the split of a full root does. -/
structure Raised (c : Config K) (t t' : BTree K) (m m' : BTreeMetadata) (h : Nat)
    (x : LTree (Slot K) h) : Prop where
  later : t.buffer.Later t'.buffer
  heap : Heap t' m'
  root : t'.root = m.countOfBlock
  metaRoot : m'.root = m.countOfBlock
  count : m'.countOfBlock = m.countOfBlock + 2
  items : m'.countOfItem = m.countOfItem
  dirty : t'.buffer.Dirty m.countOfBlock
  rep : Rep c t'.page (h + 1) (grownTree x m.countOfBlock)
  placed : Placed t'.page (LTree.level (h + 1) (grownTree x m.countOfBlock)) m'.countOfBlock
  data : ∀ i d, i < m.countOfBlock → t.page i = .data d → t'.page i = .data d

private theorem level_grownTree (x : LTree (Slot K) h) (n d : Nat) :
    LTree.level (h + 1) (grownTree x n) d =
      if d = h + 1 then [n] else if d = h then [x.id, n + 1] else LTree.level h x d := by
  by_cases hd : d = h + 1
  · rw [if_pos hd, hd, LTree.level_self]
    rfl
  · rw [if_neg hd, LTree.level_node _ hd, ← LTree.level_split x (n + 1) d]
    simp [grownTree]

/-- The nodes of a tree are nodes of the one above it. -/
private theorem mem_level_grownTree {x : LTree (Slot K) h} {n i d : Nat}
    (hi : i ∈ LTree.level h x d) : i ∈ LTree.level (h + 1) (grownTree x n) d := by
  have hd : d ≤ h := by
    by_contra hgt
    rw [LTree.level_of_lt x (by omega)] at hi
    cases hi
  rw [level_grownTree, if_neg (by omega)]
  split
  · next hdh =>
    rw [hdh, LTree.level_self] at hi
    rw [List.mem_singleton.mp hi]
    exact List.mem_cons_self ..
  · exact hi

/-- So are the two blocks that its root takes. -/
private theorem mem_level_grownTree_of_taken {x : LTree (Slot K) h} {n i : Nat} (hi : n ≤ i)
    (hi' : i < n + 2) : ∃ d, i ∈ LTree.level (h + 1) (grownTree x n) d := by
  by_cases htop : i = n
  · exact ⟨h + 1, by rw [level_grownTree, if_pos rfl, htop]; exact List.mem_cons_self ..⟩
  · refine ⟨h, ?_⟩
    rw [level_grownTree, if_neg (by omega), if_pos rfl]
    have : i = n + 1 := by omega
    simp [this]

/-- `splitRoot` puts a new root above the halves of a full one. -/
theorem wp_splitRoot {Q : Unit → BTree K → Prop} (hwide : c.Wide) (hh : Heap t m)
    (hE : Covers E (m.countOfBlock + 2))
    (hroot : t.root = x.id) (hd : t.buffer.Dirty x.id) (hrep : Rep c t.page h x)
    (hplaced : Placed t.page (LTree.level h x) m.countOfBlock)
    (hb : LTree.Bounded c.capacity h x) (hlen : x.items.length = c.capacity h)
    (hQ : ∀ t' m', Raised c t t' m m' h x → Q () t') :
    wp E (splitRoot c) Q t := by
  obtain ⟨r, hr, hshape, hf⟩ := hrep.root
  have hcap := hwide h
  have hcount : r.count = x.items.length := hf.length_eq
  have hxid := hplaced.range h x.id (by rw [LTree.level_self]; simp)
  have hri : r.header.index = x.id := by
    have := hh.index x.id hxid.2
    rwa [hr] at this
  have hlinks : r.header.next = 0 ∧ r.header.last = 0 := by
    have hchain := hplaced.chain h
    rw [LTree.level_self] at hchain
    obtain ⟨hlast, hnext, _⟩ := hchain
    rw [lastOf, hr] at hlast
    rw [nextOf, hr] at hnext
    exact ⟨hnext, hlast⟩
  have hrlen : r.kv.length = r.count := rfl
  obtain ⟨A, s, hA⟩ : ∃ A s, r.kv = A ++ [s] := by
    refine ⟨_, _, (List.dropLast_append_getLast (List.length_pos_iff.mp ?_)).symm⟩
    omega
  obtain ⟨lo, z, hlo⟩ : ∃ lo z, r.kv.take ((r.count + 1) / 2) = lo ++ [z] := by
    refine ⟨_, _, (List.dropLast_append_getLast (List.length_pos_iff.mp ?_)).symm⟩
    rw [List.length_take]
    omega
  unfold splitRoot
  simp only [wp_bind, wp_get, hroot, wp_readNode hd.pooled hr]
  refine wp_getFreeNodeBlock hh (hE.mono (by omega)) fun t₁ m₁ ha₁ ↦ ?_
  have hE₁ : Covers E (m₁.countOfBlock + 1) := ha₁.count ▸ hE
  refine wp_getFreeNodeBlock ha₁.heap hE₁ fun t₂ m₂ ha₂ ↦ ?_
  rw [ha₁.count] at ha₂
  rw [ha₁.count]
  have hcount₂ : m₂.countOfBlock = m.countOfBlock + 2 := by rw [ha₂.count, ha₁.count]
  have hpos := hh.count_pos
  have hpage₂ : ∀ i, i ≠ 0 → i ≠ m.countOfBlock → i ≠ m.countOfBlock + 1 →
      t₂.page i = t.page i := by
    intro i hi0 hin hin'
    rw [ha₂.page, ha₁.count, Function.update_of_ne hin', Function.update_of_ne hi0, ha₁.page,
      Function.update_of_ne hin, Function.update_of_ne hi0]
  have htop : t₂.page m.countOfBlock = .node
      ⟨⟨.node, m.countOfBlock, 0, 0⟩, c.keySize, c.nodeValueSize, []⟩ := by
    rw [ha₂.page, ha₁.count, Function.update_of_ne (by omega), Function.update_of_ne (by omega),
      ha₁.page, Function.update_self]
  have hfresh : t₂.page (m.countOfBlock + 1) = .node
      ⟨⟨r.header.type, m.countOfBlock + 1, 0, 0⟩, c.keySize, r.valSize, []⟩ := by
    rw [ha₂.page, ha₁.count, Function.update_self]
  have hd₁ : t₂.buffer.Dirty m.countOfBlock := ha₂.later.dirty ha₁.dirty
  have hd₂ : t₂.buffer.Dirty (m.countOfBlock + 1) := by
    have := ha₂.dirty
    rwa [ha₁.count] at this
  have hdx := ha₂.later.dirty (ha₁.later.dirty hd)
  have hsplit : r.split ⟨⟨r.header.type, m.countOfBlock + 1, 0, 0⟩, c.keySize, r.valSize, []⟩ =
      ({ r with kv := lo ++ [z] }, ⟨⟨r.header.type, m.countOfBlock + 1, 0, 0⟩, c.keySize,
        r.valSize, r.kv.drop ((r.count + 1) / 2)⟩) := by
    simp only [NodeBlock.split, hlo]
  have hmax : NodeBlock.maxKey { r with kv := lo ++ [z] } = .ok z.key :=
    NodeBlock.maxKey_append rfl
  simp only [wp_readNode hd₁.pooled htop, wp_readNode hd₂.pooled hfresh,
    NodeBlock.maxKey_append hA, wp_liftM, hsplit, hmax]
  refine wp_store_page ha₂.heap hdx (by omega) hri fun t₃ hl₃ hh₃ hp₃ ↦ ?_
  refine wp_store_page hh₃ (hl₃.dirty hd₂) (by omega) rfl fun t₄ hl₄ hh₄ hp₄ ↦ ?_
  refine wp_store_page hh₄ (hl₄.dirty (hl₃.dirty hd₁)) (by omega) rfl fun t₅ hl₅ hh₅ hp₅ ↦ ?_
  have hl₂₅ := hl₃.trans (hl₄.trans hl₅)
  rw [wp_readMeta hh₅, wp_writeMeta]
  simp only [wp_modify]
  have hm0 : m₂.header.index = 0 := hh₅.index_metadata
  have hl₆ := later_write hh₅.pinned (.metadata { m₂ with root := m.countOfBlock })
  have hh₆ : Heap (t₅.write 0 (.metadata { m₂ with root := m.countOfBlock }))
      { m₂ with root := m.countOfBlock } :=
    hh₅.write hh₅.pinned.pooled hm0 (fun _ ↦ rfl) (fun hz ↦ absurd rfl hz) rfl hh₅.number
  have hp₆ := page_write hh₅.pinned.pooled (.metadata { m₂ with root := m.countOfBlock })
  have hx₆ : (t₅.write 0 (.metadata { m₂ with root := m.countOfBlock })).page x.id =
      .node { r with header := { r.header with next := m.countOfBlock + 1 }, kv := lo ++ [z] } := by
    rw [hp₆, Function.update_of_ne (by omega), hp₅, Function.update_of_ne (by omega), hp₄,
      Function.update_of_ne (by omega), hp₃, Function.update_self]
  have hn₆ : (t₅.write 0 (.metadata { m₂ with root := m.countOfBlock })).page (m.countOfBlock + 1) =
      .node ⟨⟨r.header.type, m.countOfBlock + 1, 0, x.id⟩, c.keySize, r.valSize,
        r.kv.drop ((r.count + 1) / 2)⟩ := by
    rw [hp₆, Function.update_of_ne (by omega), hp₅, Function.update_of_ne (by omega), hp₄,
      Function.update_self, hri]
  have ht₆ : (t₅.write 0 (.metadata { m₂ with root := m.countOfBlock })).page m.countOfBlock =
      .node ⟨⟨.node, m.countOfBlock, 0, 0⟩, c.keySize, c.nodeValueSize,
        [⟨z.key, 1, leBytes 4 x.id⟩, ⟨s.key, 1, leBytes 4 (m.countOfBlock + 1)⟩]⟩ := by
    rw [hp₆, Function.update_of_ne (by omega), hp₅, Function.update_self, hri]
  have ho₆ : ∀ i, i ≠ 0 → i ≠ x.id → i ≠ m.countOfBlock → i ≠ m.countOfBlock + 1 →
      (t₅.write 0 (.metadata { m₂ with root := m.countOfBlock })).page i = t.page i := by
    intro i hi0 hix hin hin'
    rw [hp₆, Function.update_of_ne hi0, hp₅, Function.update_of_ne hin, hp₄,
      Function.update_of_ne hin', hp₃, Function.update_of_ne hix, hpage₂ i hi0 hin hin']
  -- the halves as trees
  obtain ⟨hb1, hb2⟩ := LTree.bounded_split x (m.countOfBlock + 1) hb
  obtain ⟨_, hr1, _⟩ := LTree.length_split x (m.countOfBlock + 1) (Nat.le_of_succ_le hcap) hlen
  have htop1 : LTree.topKey Slot.key h (LTree.split x (m.countOfBlock + 1)).1 = some z.key := by
    refine Fits.topKey (A := lo) ?_ hb1
    rw [← hlo, hcount]
    exact hf.take _
  have htop2 : LTree.topKey Slot.key h (LTree.split x (m.countOfBlock + 1)).2 = some s.key := by
    have hu : LTree.topKey Slot.key h x = some s.key := by
      rw [hA] at hf
      exact hf.topKey hb
    unfold LTree.topKey at hu ⊢
    rwa [← LTree.entries_split x (m.countOfBlock + 1),
      List.getLast?_append_of_ne_nil _ (LTree.entries_ne_nil _ hb2 hr1)] at hu
  have hbelow : ∀ d < h, ∀ i ∈ LTree.level h x d, ∀ b, t.page i = .node b →
      ∃ b', (t₅.write 0 (.metadata { m₂ with root := m.countOfBlock })).page i = .node b' ∧
        SameSlots b b' := by
    intro d hdh i hi b hbi
    have hrange := hplaced.range d i hi
    have hix : i ≠ x.id := by
      rintro rfl
      have := hplaced.disjoint d h x.id hi (by rw [LTree.level_self]; simp)
      omega
    exact ⟨b, by rw [ho₆ i (by omega) hix (by omega) (by omega), hbi], .refl b⟩
  have hrep' : Rep c (t₅.write 0 (.metadata { m₂ with root := m.countOfBlock })).page (h + 1)
      (grownTree x m.countOfBlock) := by
    refine ⟨⟨_, ht₆, ⟨rfl, rfl, rfl⟩, ?_⟩, fun y hy ↦ ?_⟩
    · exact .cons ⟨htop1, rfl⟩ (.cons ⟨htop2, rfl⟩ .nil)
    · simp only [grownTree, LTree.children_node, List.mem_cons, List.not_mem_nil, or_false] at hy
      rcases hy with rfl | rfl
      · refine hrep.subnode (fun y hy ↦ List.mem_of_mem_take hy) hx₆
          ⟨hshape.keySize, hshape.valSize, hshape.type⟩ ?_ hbelow
        change Fits h (lo ++ [z]) _
        rw [← hlo, hcount]
        exact hf.take _
      · refine hrep.subnode (fun y hy ↦ List.mem_of_mem_drop hy) hn₆
          ⟨rfl, hshape.valSize, hshape.type⟩ ?_ hbelow
        change Fits h (r.kv.drop ((r.count + 1) / 2)) _
        rw [hcount]
        exact hf.drop _
  have hlev : LTree.level h x h = [] ++ x.id :: [] := by rw [LTree.level_self]; rfl
  have hx₀ : nextOf t.page x.id = 0 := by rw [nextOf, hr]; exact hlinks.1
  have hplaced₁ : Placed t.page (LTree.level h x) (m.countOfBlock + 1) :=
    hplaced.congr (by omega) fun d i _ b hbi ↦ ⟨b, hbi, rfl, rfl⟩
  have hplaced₂ : Placed (t₅.write 0 (.metadata { m₂ with root := m.countOfBlock })).page
      (fun d ↦ if d = h then [] ++ x.id :: (m.countOfBlock + 1) :: [] else LTree.level h x d)
      (m.countOfBlock + 1 + 1) := by
    refine hplaced₁.split (h := h) (by omega) hlev (fun _ ↦ rfl) ?_ ⟨_, hn₆⟩ ?_ ?_ ?_ ?_ ?_ ?_
    · intro i b hbi hlt
      have hi0 : i ≠ 0 := hh.ne_zero_of_node hbi
      by_cases hix : i = x.id
      · exact ⟨_, hix ▸ hx₆⟩
      · by_cases hin : i = m.countOfBlock
        · rw [hin]
          exact ⟨_, ht₆⟩
        · exact ⟨b, by rw [ho₆ i hi0 hix hin (by omega), hbi]⟩
    · rw [nextOf, hx₆]
      rfl
    · rw [lastOf, lastOf, hx₆, hr]
      rfl
    · rw [hx₀, nextOf, hn₆]
      rfl
    · rw [lastOf, hn₆]
      rfl
    · exact fun hne ↦ absurd hx₀ hne
    · intro d i hi hix _
      have hrange := hplaced.range d i hi
      unfold nextOf lastOf
      rw [ho₆ i (by omega) hix (by omega) (by omega)]
      exact ⟨rfl, rfl⟩
  refine hQ _ { m₂ with root := m.countOfBlock } ⟨?_, hh₆.withRoot _, rfl, rfl, hcount₂, ?_, ?_,
    hrep', ?_, ?_⟩
  · exact ha₁.later.buffer.trans (ha₂.later.buffer.trans (hl₂₅.buffer.trans hl₆.buffer))
  · exact ha₂.items.trans ha₁.items
  · exact hl₆.dirty (hl₂₅.dirty hd₁)
  · have hplaced₃ := hplaced₂.congr (Nat.le_of_eq hcount₂.symm)
      fun _ _ _ b hb ↦ ⟨b, hb, rfl, rfl⟩
    refine hplaced₃.top (h + 1) ?_ ?_ ?_ hpos ?_ ht₆ rfl rfl
    · rw [if_neg (by omega)]
      exact LTree.level_of_lt x (Nat.lt_succ_self h)
    · intro d
      rw [level_grownTree]
      rfl
    · intro d hmem
      split at hmem
      · simp only [List.nil_append, List.mem_cons, List.not_mem_nil, or_false] at hmem
        omega
      · have := hplaced.range d _ hmem
        omega
    · omega
  · intro i d hi hid
    have hi0 : i ≠ 0 := hh.ne_zero_of_data hid
    have hix : i ≠ x.id := by
      rintro rfl
      rw [hr] at hid
      cases hid
    rw [page_withRoot, ho₆ i hi0 hix (by omega) (by omega), hid]

/-- The data blocks are those of before and maybe some of the `k` blocks after the last one. -/
def DataWithin (t t' : BTree K) (m m' : BTreeMetadata) (k : Nat) : Prop :=
  ∀ i, i < m'.countOfBlock → IsData t'.page i →
    i < m.countOfBlock ∧ IsData t.page i ∨ m.countOfBlock ≤ i ∧ i < m.countOfBlock + k

/-- Blocks that hold nodes are no data blocks. -/
private theorem Holds.dataWithin {h' : Nat} {x' : LTree (Slot K) h'} {k : Nat}
    (ht : Holds c S t m h x) (ht' : Holds c S t' m' h' x')
    (hold : ∀ d i, i ∈ LTree.level h x d → ∃ d', i ∈ LTree.level h' x' d')
    (hnew : ∀ i, m.countOfBlock + k ≤ i → i < m'.countOfBlock →
      ∃ d', i ∈ LTree.level h' x' d') : DataWithin t t' m m' k := by
  intro i hi hdata
  have hnode : ∀ d', i ∉ LTree.level h' x' d' := by
    intro d' hd'
    obtain ⟨b, hb⟩ := ht'.placed.node d' i hd'
    obtain ⟨d, hd, _⟩ := hdata
    rw [hb] at hd
    cases hd
  by_cases hlt : i < m.countOfBlock
  · refine .inl ⟨hlt, ?_⟩
    have hi0 : 0 < i := by
      obtain ⟨d, hd, _⟩ := hdata
      exact Nat.pos_of_ne_zero (ht'.heap.ne_zero_of_data hd)
    rcases ht.roles i hi0 hlt with hd | ⟨d, hd⟩
    · exact hd
    · obtain ⟨d', hd'⟩ := hold d i hd
      exact absurd hd' (hnode d')
  · refine .inr ⟨by omega, ?_⟩
    by_contra hge
    obtain ⟨d', hd'⟩ := hnew i (by omega) hi
    exact hnode d' hd'

/-- What `put` finds and does. -/
inductive PutOutcome (c : Config K) (S : K → Prop) (key : K) (value : List UInt8)
    (t : BTree K) (m : BTreeMetadata) (h : Nat) (x : LTree (Slot K) h) : Int → BTree K → Prop
  /-- A live entry has an equal key. -/
  | duplicate (e : Slot K) (he : e ∈ LTree.entries h x) (heq : c.cmp e.key key = 0)
      (hlive : e.isRemoved = false) (t' : BTree K) (ht : Holds c S t' m h x)
      (hl : t.buffer.Later t'.buffer) (hp : t'.page = t.page) :
      PutOutcome c S key value t m h x 0 t'
  /-- The entry is inserted or revived. -/
  | done (hdead : ∀ e ∈ LTree.entries h x, c.cmp e.key key = 0 → e.isRemoved = true)
      (t' : BTree K) (m' : BTreeMetadata) (h' : Nat) (x' : LTree (Slot K) h') (w : List UInt8)
      (ht : Holds c S t' m' h' x') (hl : t.buffer.Later t'.buffer)
      (hle : m.countOfBlock ≤ m'.countOfBlock) (hk : KeepsData t.page t'.page m.countOfBlock)
      (hitems : m'.countOfItem = (m.countOfItem + 1) % 2 ^ 32)
      (hent : LTree.entries h' x' =
        upsert c.cmp Slot.key key ⟨key, 1, w⟩ (reviveWith w) (LTree.entries h x))
      (hleaves : LTree.LeafUpdate (c.capacity 0) c.cmp Slot.key key ⟨key, 1, w⟩ (reviveWith w)
        (LTree.leaves h x) (LTree.leaves h' x'))
      (hw : Written c t'.page m'.countOfBlock value w)
      (hst : c.isConstValueSize = false → Storable value.length)
      (hdata : DataWithin t t' m m' (blocksFor value)) : PutOutcome c S key value t m h x 1 t'
  /-- The length of the value is negative as a signed one. -/
  | failed (hdead : ∀ e ∈ LTree.entries h x, c.cmp e.key key = 0 → e.isRemoved = true)
      (t' : BTree K) (m' : BTreeMetadata) (ht : Holds c S t' m' h x)
      (hl : t.buffer.Later t'.buffer) (hle : m.countOfBlock ≤ m'.countOfBlock)
      (hk : KeepsData t.page t'.page m.countOfBlock) (hitems : m'.countOfItem = m.countOfItem)
      (hnode : ∀ i n, i < m.countOfBlock → t.page i = .node n → t'.page i = .node n)
      (hc : c.isConstValueSize = false) (hv : 2 ^ 31 ≤ value.length)
      (hdata : DataWithin t t' m m' (blocksFor value)) :
      PutOutcome c S key value t m h x (-1) t'

/-- What a tree grows to by one entry: itself, with its nodes below the root split where they
became full, or under a new root when it became full itself. -/
inductive Enlarged (c : Config K) (key : K) (x : LTree (Slot K) h) :
    (h' : Nat) → LTree (Slot K) h' → Prop
  | same : Enlarged c key x h x
  | updated (fresh : Slot K) (revive : Slot K → Slot K) (n : Nat) :
      Enlarged c key x h (LTree.update c.capacity c.cmp Slot.key key fresh revive h x n).1
  | raised (fresh : Slot K) (revive : Slot K → Slot K) (n n' : Nat)
      (hfull : (LTree.update c.capacity c.cmp Slot.key key fresh revive h x n).1.items.length =
        c.capacity h) :
      Enlarged c key x (h + 1)
        (grownTree (LTree.update c.capacity c.cmp Slot.key key fresh revive h x n).1 n')

/-- Nodes that stay as they are hold the same tree. -/
theorem Holds.of_records (ht : Holds c S t m h x) (hr : Records t t' m m') :
    Holds c S t' m' h x := by
  have hnode : ∀ d, ∀ i ∈ LTree.level h x d, ∀ b, t.page i = .node b → t'.page i = .node b :=
    fun d i hi b hb ↦ hr.node i b (ht.placed.range d i hi).2 hb
  constructor
  · exact hr.heap
  · exact hr.later.root.trans ht.root
  · exact hr.root.trans ht.metaRoot
  · exact hr.later.dirty ht.dirty
  · constructor
    · exact ht.tree.rep.congr fun d i hi b hb ↦ ⟨b, hnode d i hi b hb, .refl b⟩
    · exact ht.tree.bounded
    · exact ht.tree.nonempty
    · exact ht.tree.room
    · exact ht.tree.sorted
    · exact ht.tree.keys
    · exact fun e he ↦ hr.data.recorded hr.count_le (ht.tree.values e he)
    · refine ht.tree.placed.congr hr.count_le fun d i hi b hb ↦ ⟨b, ?_, rfl, rfl⟩
      exact hr.node i b (ht.tree.placed.range d i hi).2 hb
  · exact ht.two
  · intro i hi0 hi
    by_cases hlt : i < m.countOfBlock
    · rcases ht.roles i hi0 hlt with hd | hlev
      · exact .inl (hr.data.isData hlt hd)
      · exact .inr hlev
    · exact .inl (hr.fresh i (by omega) hi)

/-- `put` upserts the entry, unless a live entry has an equal key or the length of the value is
negative as a signed one, and the tree grows by no more. -/
theorem wp_put_enlarged {Q : Int → BTree K → Prop} (hwide : c.Wide) (hcmp : Comparison c.cmp S)
    (hk : S key) (ht : Holds c S t m h x)
    (hE : Covers E (m.countOfBlock + blocksFor value + h + 2))
    (hQ : ∀ r t', PutOutcome c S key value t m h x r t' →
      (∃ m' h', ∃ x' : LTree (Slot K) h',
        Holds c S t' m' h' x' ∧ Enlarged c key x h' x') → Q r t') :
    wp E (put c key value) Q t := by
  unfold put
  simp only [wp_bind, wp_get, wp_readMeta ht.heap, ht.root]
  refine wp_insert hwide hcmp hk ht.height_lt ht.heap (hE.mono (by omega)) ht.dirty ht.tree
    fun r t₁ ho ↦ ?_
  cases ho with
  | duplicate e he hek hlive t₁ hl₁ hh₁ hp₁ =>
    simp only [ne_eq, Int.reduceEq, not_false_eq_true, if_true, wp_pure]
    have ht₁ : Holds c S t₁ m h x := { ht with
      heap := hh₁
      root := hl₁.root.trans ht.root
      dirty := hl₁.dirty ht.dirty
      tree := hp₁ ▸ ht.tree
      roles := hp₁ ▸ ht.roles }
    exact hQ 0 t₁ (.duplicate e he hek hlive t₁ ht₁ hl₁.buffer hp₁) ⟨m, h, x, ht₁, .same⟩
  | failed hdead t₁ m₁ hr hc hv hn =>
    simp only [ne_eq, Int.reduceEq, not_false_eq_true, if_true, wp_pure]
    have hdata := ht.dataWithin (ht.of_records hr) (k := blocksFor value)
      (fun d i hi ↦ ⟨d, hi⟩) (fun i hi hi' ↦ absurd hi' (by omega))
    exact hQ (-1) t₁ (.failed hdead t₁ m₁ (ht.of_records hr) hr.later.buffer hr.count_le hr.data
      hr.items hr.node hc hv hdata) ⟨m₁, h, x, ht.of_records hr, .same⟩
  | done hdead t₁ m₁ w n u hn hn' hst hu hg hcount hrep hplaced hfresh hw =>
    have hb : LTree.Bounded c.capacity h u.1 := by
      rw [← hu]
      exact LTree.bounded_update x n (fun d ↦ Nat.le_of_succ_le (hwide d)) ht.tree.bounded
        ht.tree.nonempty
    have hlen : x.items.length ≤ u.1.items.length ∧ u.1.items.length ≤ x.items.length + 1 := by
      rw [← hu]
      exact LTree.length_update x n
    have hone : 1 ≤ u.1.items.length := by
      rw [← hu]
      exact LTree.one_le_length_update x n ht.tree.nonempty
    have hle₁ : m₁.countOfBlock ≤ n + h := by
      rw [← hcount, ← hu]
      exact LTree.update_le x n
    have hold : ∀ d i, i ∈ LTree.level h x d → ∃ d', i ∈ LTree.level h u.1 d' := by
      intro d i hi
      rw [← hu]
      exact ⟨d, LTree.mem_level_update x n hi⟩
    have hnew : ∀ i, n ≤ i → i < m₁.countOfBlock → ∃ d', i ∈ LTree.level h u.1 d' := by
      intro i hi hi'
      rw [← hcount, ← hu] at hi'
      rw [← hu]
      exact LTree.mem_level_of_taken x n hi hi'
    have hent : LTree.entries h u.1 =
        upsert c.cmp Slot.key key ⟨key, 1, w⟩ (reviveWith w) (LTree.entries h x) := by
      rw [← hu]
      exact LTree.entries_update x n hcmp ht.tree.sorted ht.tree.keys hk ht.tree.bounded
        ht.tree.nonempty
    have hleaves : ∀ k, LTree.LeafUpdate (c.capacity 0) c.cmp Slot.key key ⟨key, 1, w⟩
        (reviveWith w) (LTree.leaves h x) (if u.1.items.length = c.capacity h then
          LTree.leaves h (LTree.split u.1 k).1 ++ LTree.leaves h (LTree.split u.1 k).2
        else LTree.leaves h u.1) := by
      intro k
      rw [← hu]
      exact LTree.leaves_update x n k hcmp ht.tree.sorted ht.tree.keys hk ht.tree.bounded
        ht.tree.nonempty ht.tree.room
    have hrev : ∀ e : Slot K, (reviveWith w e).key = e.key := fun _ ↦ rfl
    have hsorted : Sorted c.cmp Slot.key (LTree.entries h u.1) := by
      rw [hent]
      exact sorted_upsert hcmp ht.tree.keys hk rfl hrev ht.tree.sorted
    have hkeys : ∀ e ∈ LTree.entries h u.1, S e.key := by
      intro e he
      rw [hent] at he
      rcases mem_upsert he with rfl | ⟨y, hy, _, rfl⟩ | he
      · exact hk
      · exact ht.tree.keys y hy
      · exact ht.tree.keys e he
    have hvalues : ∀ e ∈ LTree.entries h u.1, Recorded c t₁.page m₁.countOfBlock e.value := by
      intro e he
      rw [hent] at he
      rcases mem_upsert he with rfl | ⟨y, hy, _, rfl⟩ | he
      · exact hw.recorded
      · exact hw.recorded
      · exact hg.data.recorded hg.count_le (ht.tree.values e he)
    have huid : u.1.id = x.id := by rw [← hu, LTree.id_update]
    have hplaced₁ : Placed t₁.page (LTree.level h u.1) m₁.countOfBlock := by
      simpa only [List.nil_append, List.append_nil] using hplaced
    have hroles₁ : ∀ i, 0 < i → i < m₁.countOfBlock →
        IsData t₁.page i ∨ ∃ d, i ∈ LTree.level h u.1 d := by
      intro i hi0 hi
      by_cases hlt : i < m.countOfBlock
      · rcases ht.roles i hi0 hlt with hd | ⟨d, hd⟩
        · exact .inl (hg.data.isData hlt hd)
        · exact .inr (hold d i hd)
      · exact hfresh i (by omega) hi
    simp only [ne_eq, not_true_eq_false, if_false, wp_bind, wp_readMeta hg.heap]
    -- the metadata is the only block that counting the item changes
    have hm0 : m₁.header.index = 0 := hg.heap.index_metadata
    rw [wp_writeMeta]
    generalize hm₂ : ({ m₁ with countOfItem := (m₁.countOfItem + 1) % 2 ^ 32 } :
      BTreeMetadata) = m₂
    have hc₂ : m₂.countOfBlock = m₁.countOfBlock := by rw [← hm₂]
    have hi₂ : m₂.countOfItem = (m.countOfItem + 1) % 2 ^ 32 := by rw [← hm₂, ← hg.items]
    have hr₂ : m₂.root = m₁.root := by rw [← hm₂]
    have hh₂ : Heap (t₁.write 0 (.metadata m₂)) m₂ :=
      hg.heap.write hg.heap.pinned.pooled (by rw [← hm₂]; exact hm0) (fun _ ↦ rfl)
        (fun hz ↦ absurd rfl hz) hc₂ (by rw [← hm₂]; exact hg.heap.number)
    have hl₂ := later_write hg.heap.pinned (.metadata m₂)
    have hp₂ : ∀ i, i ≠ 0 → (t₁.write 0 (.metadata m₂)).page i = t₁.page i := by
      intro i hi
      rw [page_write hg.heap.pinned.pooled, Function.update_of_ne hi]
    revert hh₂ hl₂ hp₂
    generalize t₁.write 0 (.metadata m₂) = t₂
    intro hh₂ hl₂ hp₂
    have hnode₂ : ∀ i b, t₁.page i = .node b → t₂.page i = .node b := by
      intro i b hbi
      rw [hp₂ i (hg.heap.ne_zero_of_node hbi), hbi]
    have hdata₂ : ∀ i d, t₁.page i = .data d → t₂.page i = .data d := by
      intro i d hdi
      rw [hp₂ i (hg.heap.ne_zero_of_data hdi), hdi]
    have hkeep₁₂ : KeepsData t₁.page t₂.page m₁.countOfBlock :=
      .of_eq fun i d _ hd ↦ hdata₂ i d hd
    have hrep₂ : Rep c t₂.page h u.1 :=
      hrep.congr fun d i _ b hb ↦ ⟨b, hnode₂ i b hb, .refl b⟩
    have hplaced₂ : Placed t₂.page (LTree.level h u.1) m₂.countOfBlock :=
      hplaced₁.congr (Nat.le_of_eq hc₂.symm) fun _ i _ b hb ↦ ⟨b, hnode₂ i b hb, rfl, rfl⟩
    have hdirty₂ : t₂.buffer.Dirty u.1.id := huid ▸ hl₂.dirty (hg.later.dirty ht.dirty)
    have hroot₂ : t₂.root = u.1.id := by rw [hl₂.root, hg.later.root, ht.root, huid]
    have hw₂ : Written c t₂.page m₂.countOfBlock value w :=
      hkeep₁₂.written (Nat.le_of_eq hc₂.symm) hw
    have hvalues₂ : ∀ e ∈ LTree.entries h u.1, Recorded c t₂.page m₂.countOfBlock e.value :=
      fun e he ↦ hkeep₁₂.recorded (Nat.le_of_eq hc₂.symm) (hvalues e he)
    have hroles₂ : ∀ i, 0 < i → i < m₂.countOfBlock →
        IsData t₂.page i ∨ ∃ d, i ∈ LTree.level h u.1 d := by
      intro i hi0 hi
      rcases hroles₁ i hi0 (hc₂ ▸ hi) with hd | hlev
      · exact .inl (hkeep₁₂.isData (hc₂ ▸ hi) hd)
      · exact .inr hlev
    have hkeep₂ : KeepsData t.page t₂.page m.countOfBlock := hg.data.trans hkeep₁₂ hg.count_le
    have hle₂ : m.countOfBlock ≤ m₂.countOfBlock := hc₂ ▸ hg.count_le
    have hlater₂ := hg.later.buffer.trans hl₂.buffer
    obtain ⟨r, hr, hshape, hf⟩ := hrep₂.root
    have hroom := ht.tree.room
    have hfull : r.full = .ok (u.1.items.length == c.capacity h) := by
      have hcr : r.count = u.1.items.length := hf.length_eq
      unfold NodeBlock.full
      rw [hshape.size hwide, hcr, if_pos (by omega)]
    rw [← huid]
    simp only [wp_readNode hdirty₂.pooled hr, hfull, wp_liftM, beq_iff_eq]
    split
    · next heq =>
      rw [wp_bind]
      have hE₂ : Covers E (m₂.countOfBlock + 2) := hE.mono (by omega)
      refine wp_splitRoot hwide hh₂ hE₂ hroot₂ hdirty₂ hrep₂ hplaced₂ hb heq fun t₃ m₃ hra ↦ ?_
      have hkeep₂₃ : KeepsData t₂.page t₃.page m₂.countOfBlock := .of_eq hra.data
      have hle₃ : m₂.countOfBlock ≤ m₃.countOfBlock := by
        rw [hra.count]
        omega
      have hleaves₃ := hleaves (m₂.countOfBlock + 1)
      rw [if_pos heq] at hleaves₃
      have hgrown : LTree.leaves (h + 1) (grownTree u.1 m₂.countOfBlock) =
          LTree.leaves h (LTree.split u.1 (m₂.countOfBlock + 1)).1 ++
            LTree.leaves h (LTree.split u.1 (m₂.countOfBlock + 1)).2 := by
        simp [grownTree, LTree.leaves]
      have hent₃ : LTree.entries (h + 1) (grownTree u.1 m₂.countOfBlock) = LTree.entries h u.1 := by
        rw [← LTree.entries_split u.1 (m₂.countOfBlock + 1)]
        simp [grownTree, LTree.entries_node]
      obtain ⟨hb1, hb2⟩ := LTree.bounded_split u.1 (m₂.countOfBlock + 1) hb
      obtain ⟨⟨hl1, hl2⟩, hr1, hr2⟩ := LTree.length_split u.1 (m₂.countOfBlock + 1)
        (Nat.le_of_succ_le (hwide h)) heq
      suffices ht₃ : Holds c S t₃ m₃ (h + 1) (grownTree u.1 m₂.countOfBlock) by
        have hdata := ht.dataWithin ht₃ (k := blocksFor value)
          (fun d i hi ↦ (hold d i hi).imp fun _ ↦ mem_level_grownTree) fun i hi hi' ↦ by
            rw [hra.count] at hi'
            by_cases hlt : i < m₁.countOfBlock
            · exact (hnew i (by omega) hlt).imp fun _ ↦ mem_level_grownTree
            · exact mem_level_grownTree_of_taken (by omega) hi'
        refine hQ 1 t₃ (.done hdead t₃ m₃ (h + 1) (grownTree u.1 m₂.countOfBlock) w ht₃
          (hlater₂.trans hra.later) (Nat.le_trans hle₂ hle₃) (hkeep₂.trans hkeep₂₃ hle₂)
          (hra.items.trans hi₂) (hent₃.trans hent) (hgrown ▸ hleaves₃)
          (hkeep₂₃.written hle₃ hw₂) hst hdata) ⟨m₃, h + 1, _, ht₃, ?_⟩
        rw [← hu] at heq ⊢
        exact .raised _ _ n _ heq
      · constructor
        · exact hra.heap
        · exact hra.root
        · exact hra.metaRoot
        · exact hra.dirty
        · constructor
          · exact hra.rep
          · intro y hy
            simp only [grownTree, LTree.children_node, List.mem_cons, List.not_mem_nil,
              or_false] at hy
            rcases hy with rfl | rfl
            · exact ⟨hl1, hl2, hb1⟩
            · exact ⟨hr1, hr2, hb2⟩
          · intro _
            simp [grownTree]
          · have := hwide (h + 1)
            simp only [grownTree, LTree.length_items_node, List.length_cons, List.length_nil]
            omega
          · rw [hent₃]
            exact hsorted
          · rw [hent₃]
            exact hkeys
          · rw [hent₃]
            exact fun e he ↦ hkeep₂₃.recorded hle₃ (hvalues₂ e he)
          · simpa only [List.nil_append, List.append_nil] using hra.placed
        · intro _
          simp [grownTree]
        · intro i hi0 hi
          rw [hra.count] at hi
          by_cases hlt : i < m₂.countOfBlock
          · rcases hroles₂ i hi0 hlt with hd | ⟨d, hd⟩
            · exact .inl (hkeep₂₃.isData hlt hd)
            · exact .inr ⟨d, mem_level_grownTree hd⟩
          · exact .inr (mem_level_grownTree_of_taken (by omega) hi)
    · next hne =>
      have hleaves₂ := hleaves 0
      rw [if_neg hne] at hleaves₂
      suffices ht₂ : Holds c S t₂ m₂ h u.1 by
        have hdata := ht.dataWithin ht₂ (k := blocksFor value) hold
          fun i hi hi' ↦ hnew i (by omega) (hc₂ ▸ hi')
        refine hQ 1 t₂ (.done hdead t₂ m₂ h u.1 w ht₂ hlater₂ hle₂ hkeep₂ hi₂ hent hleaves₂ hw₂
          hst hdata) ⟨m₂, h, u.1, ht₂, ?_⟩
        rw [← hu]
        exact .updated _ _ n
      constructor
      · exact hh₂
      · exact hroot₂
      · rw [hr₂, hg.root, ht.metaRoot, huid]
      · exact hdirty₂
      · constructor
        · exact hrep₂
        · exact hb
        · exact fun _ ↦ hone
        · omega
        · exact hsorted
        · exact hkeys
        · exact hvalues₂
        · simpa only [List.nil_append, List.append_nil] using hplaced₂
      · intro h0
        have := ht.two h0
        omega
      · exact hroles₂

/-- `put` upserts the entry, unless a live entry has an equal key or the length of the value is
negative as a signed one. -/
theorem wp_put {Q : Int → BTree K → Prop} (hwide : c.Wide) (hcmp : Comparison c.cmp S)
    (hk : S key) (ht : Holds c S t m h x)
    (hE : Covers E (m.countOfBlock + blocksFor value + h + 2))
    (hQ : ∀ r t', PutOutcome c S key value t m h x r t' → Q r t') :
    wp E (put c key value) Q t :=
  wp_put_enlarged hwide hcmp hk ht hE fun r t' ho _ ↦ hQ r t' ho

end BTree

end ExampleEngine.Index
