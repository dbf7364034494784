import ExampleEngine.Index.Put

/-!
# Creating and opening

Library `Index`. The file that `BTree::create` writes holds an empty tree, and
`BTree::open` of `src/lib/btree.cpp:317–367` makes the tree that a file holds an open one.
-/

namespace ExampleEngine.Index

open ExampleEngine.Base ExampleEngine.Storage

variable {K : Type} {c : Config K} {S : K → Prop}

/-- Blocks, in memory or in a file, that hold a search tree with its metadata. -/
structure Image (c : Config K) (S : K → Prop) (v : Nat → Page K) (m : BTreeMetadata) (h : Nat)
    (x : LTree (Slot K) h) : Prop where
  metadata : v 0 = .metadata m
  index : ∀ i < m.countOfBlock, (v i).header.index = i
  count_le : m.countOfBlock ≤ 2 ^ 19
  number : m.countOfBlock ≤ m.numberOfBlock
  root : m.root = x.id
  tree : BTree.Subtree c S v m.countOfBlock (fun _ ↦ []) (fun _ ↦ []) h x
  two : h ≠ 0 → 2 ≤ x.items.length
  roles : ∀ i, 0 < i → i < m.countOfBlock → IsData v i ∨ ∃ d, i ∈ LTree.level h x d

/-- The contents of an open tree are such blocks. -/
theorem BTree.Holds.image {t : BTree K} {m : BTreeMetadata} {h : Nat} {x : LTree (Slot K) h}
    (ht : BTree.Holds c S t m h x) : Image c S t.page m h x :=
  ⟨ht.heap.metadata, ht.heap.index, ht.heap.count_le, ht.heap.number, ht.metaRoot, ht.tree,
    ht.two, ht.roles⟩

/-- The root of a tree has a block in use. -/
theorem Image.root_range {v : Nat → Page K} {m : BTreeMetadata} {h : Nat} {x : LTree (Slot K) h}
    (hi : Image c S v m h x) : 0 < x.id ∧ x.id < m.countOfBlock :=
  hi.tree.placed.range h x.id (by rw [LTree.level_self]; simp)

namespace BTree

/-- Opening a file on a reliable platform. -/
theorem wp_openTree {platform : Platform} {file : Nat → Page K} {m : BTreeMetadata} {h : Nat}
    {x : LTree (Slot K) h} {E : Fault → Prop} {Q : Int → BTree K → Prop} (hp : platform.Reliable)
    (hi : Image c S file m h x)
    (hQ : ∀ t, Holds c S t m h x → t.page = file → t.buffer.file = file →
      t.buffer.platform = platform → t.buffer.Synced Eq → Q 1 t) :
    wp E openTree Q (unopened platform file) := by
  obtain ⟨hx0, hxlt⟩ := hi.root_range
  have hnot : ∀ i, ¬ BufferManager.Pooled (⟨platform, file, []⟩ : BufferManager K) i := by
    intro i
    simp [BufferManager.Pooled, BufferManager.frame]
  unfold openTree
  rw [wp_bind, wp_onBuffer]
  refine BufferManager.wp_getBlock hp (by decide) (fun hpool ↦ absurd hpool (hnot 0))
    fun b hb ↦ ?_
  have hview : BTree.page (⟨0, b⟩ : BTree K) = file := by
    change b.view = file
    rw [hb.view]
    rfl
  have hh : Heap (⟨0, b⟩ : BTree K) m := by
    constructor
    · exact hb.later.platform ▸ hp
    · rw [hview, hi.metadata]
    · exact hb.dirty (by decide)
    · rw [hview]
      exact hi.index
    · intro i hpool
      rcases (hb.pooled i).mp hpool with hpool | rfl
      · exact absurd hpool (hnot i)
      · omega
    · exact hi.count_le
    · exact hi.number
  have hsynced : BufferManager.Synced Eq (⟨platform, file, []⟩ : BufferManager K) := by
    intro i f hf
    simp [BufferManager.frame] at hf
  change wp E _ Q ⟨0, b⟩
  simp only [wp_bind, wp_readMeta hh]
  refine wp_getNodeBlock hh (by rw [hi.root]; exact hxlt) fun t hf ↦ ?_
  rw [hi.root] at hf ⊢
  obtain ⟨n, hn, _, _⟩ := hi.tree.rep.root
  have hpage : t.page = file := hf.page.trans hview
  rw [← hpage] at hn
  simp only [wp_bind, wp_readNode hf.pooled hn, wp_modify, wp_pure]
  refine hQ _ ⟨hf.heap.withRoot _, rfl, hi.root, hf.dirty (by decide), ?_, hi.two, ?_⟩ hpage
    ?_ ?_ ?_
  · rw [page_withRoot, hpage]
    exact hi.tree
  · rw [page_withRoot, hpage]
    exact hi.roles
  · exact hf.later.buffer.file.trans hb.later.file
  · exact hf.later.buffer.platform.trans hb.later.platform
  · exact hf.later.buffer.synced Eq (fun _ ↦ rfl) (hb.later.synced Eq (fun _ ↦ rfl) hsynced)

/-- The metadata of a file just created. -/
def freshMetadata : BTreeMetadata where
  header := ⟨.metadata, 0, 0, 0⟩
  root := 1
  countOfItem := 0
  countOfBlock := 2
  numberOfBlock := 32

/-- A file just created holds the tree without entries. -/
theorem image_create (hwide : c.Wide) (file : Nat → Page K) :
    Image c S (create c file) freshMetadata 0 (LTree.leaf 1 []) := by
  have h0 : create c file 0 = .metadata freshMetadata := by
    unfold create
    rw [Function.update_self]
    rfl
  have h1 : create c file 1 = .node ⟨⟨.leaf, 1, 0, 0⟩, c.keySize, c.leafValueSize, []⟩ := by
    unfold create
    rw [Function.update_of_ne (by decide), Function.update_self]
    rfl
  have hlevel : ∀ d, ∀ i ∈ LTree.level 0 (LTree.leaf 1 ([] : List (Slot K))) d, i = 1 := by
    intro d i hi
    simp only [LTree.level] at hi
    split at hi
    · exact List.mem_singleton.mp hi
    · simp at hi
  constructor
  · exact h0
  · intro i hi
    change i < 2 at hi
    obtain rfl | rfl : i = 0 ∨ i = 1 := by omega
    · rw [h0]
      rfl
    · rw [h1]
      rfl
  · decide
  · decide
  · rfl
  · constructor
    · exact ⟨_, h1, ⟨rfl, rfl, rfl⟩, rfl⟩
    · trivial
    · exact fun hne ↦ absurd rfl hne
    · exact Nat.lt_of_lt_of_le (Nat.succ_pos 2) (hwide 0)
    · exact List.Pairwise.nil
    · intro e he
      cases he
    · intro e he
      cases he
    · simp only [List.nil_append, List.append_nil]
      constructor
      · intro d i hi
        rw [hlevel d i hi]
        exact ⟨_, h1⟩
      · intro d
        simp only [LTree.level]
        split
        · refine ⟨?_, ?_, trivial⟩
          · change lastOf (create c file) 1 = 0
            rw [lastOf, h1]
            rfl
          · change nextOf (create c file) 1 = 0
            rw [nextOf, h1]
            rfl
        · trivial
      · intro d
        simp only [LTree.level]
        split <;> simp
      · intro d d' i hi hi'
        simp only [LTree.level] at hi hi'
        split at hi
        · split at hi'
          · omega
          · simp at hi'
        · simp at hi
      · intro d i hi
        rw [hlevel d i hi]
        decide
  · exact fun hne ↦ absurd rfl hne
  · intro i hi0 hi
    change i < 2 at hi
    obtain rfl : i = 1 := by omega
    exact .inr ⟨0, by simp [LTree.level, LTree.leaf]⟩

end BTree

end ExampleEngine.Index
