import ExampleEngine.Index.BTree
import ExampleEngine.Storage.Pool

/-!
# The blocks of an open tree as a heap

Library `Index`. The invariant of the block heap under an open tree, and what each
allocation, fetch and store of `src/lib/btree.cpp:407–491` does to it. On a reliable
platform the only way to stop is to ask for a block past 2 GiB.
-/

namespace ExampleEngine.Index

open ExampleEngine.Base ExampleEngine.Storage

/-- The faults that remain when no input or output fails: a block past 2 GiB. -/
def Beyond : Fault → Prop
  | .unreadable i => 2 ^ 19 ≤ i
  | _ => False

/-- Where up to `n` blocks are in use and a file does not take that many, the fault of the first
block past 2 GiB is admitted. -/
def Covers (E : Fault → Prop) (n : Nat) : Prop := 2 ^ 19 < n → E (.unreadable (2 ^ 19))

/-- The fault is always one of those that remain. -/
theorem covers_beyond (n : Nat) : Covers Beyond n := fun _ ↦ Nat.le_refl (2 ^ 19)

/-- Fewer blocks are covered as well. -/
theorem Covers.mono {E : Fault → Prop} {n n' : Nat} (h : Covers E n') (hn : n ≤ n') :
    Covers E n := fun hlt ↦ h (by omega)

namespace BTree

variable {K : Type} {t t' : BTree K} {m : BTreeMetadata} {i : Nat}

/-- The contents of a block. -/
def page (t : BTree K) (i : Nat) : Page K := t.buffer.view i

/-- The invariant of the block heap, with the metadata that block 0 holds. -/
structure Heap (t : BTree K) (m : BTreeMetadata) : Prop where
  reliable : t.buffer.platform.Reliable
  metadata : t.page 0 = .metadata m
  pinned : t.buffer.Dirty 0
  index : ∀ i < m.countOfBlock, (t.page i).header.index = i
  pooled : ∀ i, t.buffer.Pooled i → i < m.countOfBlock
  count_le : m.countOfBlock ≤ 2 ^ 19
  number : m.countOfBlock ≤ m.numberOfBlock

/-- A tree with other contents in one block. -/
def write (t : BTree K) (i : Nat) (p : Page K) : BTree K :=
  { t with buffer := t.buffer.modifyFrame i fun f ↦ { f with page := p } }

/-- The contents after a write. -/
theorem page_write (hi : t.buffer.Pooled i) (p : Page K) :
    (t.write i p).page = Function.update t.page i p :=
  BufferManager.view_modifyFrame hi p

@[simp] theorem pooled_write {j : Nat} (p : Page K) :
    (t.write i p).buffer.Pooled j ↔ t.buffer.Pooled j :=
  BufferManager.pooled_modifyFrame _

namespace Heap

/-- Block 0 is in use. -/
theorem count_pos (h : Heap t m) : 0 < m.countOfBlock := h.pooled 0 h.pinned.pooled

/-- The next block is not in the pool. -/
theorem not_pooled (h : Heap t m) : ¬ t.buffer.Pooled m.countOfBlock := fun hp ↦
  Nat.lt_irrefl _ (h.pooled _ hp)

/-- A node is in another block than the metadata. -/
theorem ne_zero_of_node {n : NodeBlock K} (h : Heap t m) (hn : t.page i = .node n) : i ≠ 0 := by
  rintro rfl
  rw [h.metadata] at hn
  cases hn

/-- So is a data block. -/
theorem ne_zero_of_data {d : DataBlock} (h : Heap t m) (hd : t.page i = .data d) : i ≠ 0 := by
  rintro rfl
  rw [h.metadata] at hd
  cases hd

/-- The metadata carries the index of its block. -/
theorem index_metadata (h : Heap t m) : m.header.index = 0 := by
  have := h.index 0 h.count_pos
  rwa [h.metadata] at this

/-- Writing a page that carries its index, and the metadata into block 0, keeps the heap. -/
theorem write {m' : BTreeMetadata} (h : Heap t m) (hi : t.buffer.Pooled i) {p : Page K}
    (hp : p.header.index = i) (h0 : i = 0 → p = .metadata m') (h0' : i ≠ 0 → m' = m)
    (hc : m'.countOfBlock = m.countOfBlock) (hn : m'.countOfBlock ≤ m'.numberOfBlock) :
    Heap (t.write i p) m' where
  reliable := h.reliable
  metadata := by
    rw [page_write hi]
    by_cases hz : i = 0
    · subst hz
      rw [Function.update_self, h0 rfl]
    · rw [Function.update_of_ne (Ne.symm hz), h.metadata, h0' hz]
  pinned := (BufferManager.dirty_modifyFrame p).mpr h.pinned
  index j hj := by
    rw [page_write hi]
    by_cases hji : j = i
    · subst hji
      rw [Function.update_self, hp]
    · rw [Function.update_of_ne hji, h.index j (hc ▸ hj)]
  pooled j hj := hc ▸ h.pooled j ((pooled_write p).mp hj)
  count_le := hc ▸ h.count_le
  number := hn

end Heap

/-- What later operations keep, with the root they work on. -/
structure Later (t t' : BTree K) : Prop where
  root : t'.root = t.root
  buffer : t.buffer.Later t'.buffer

/-- Doing nothing keeps everything. -/
theorem Later.refl (t : BTree K) : Later t t := ⟨rfl, .refl _⟩

/-- Operations compose. -/
theorem Later.trans {t'' : BTree K} (h : Later t t') (h' : Later t' t'') : Later t t'' :=
  ⟨h'.root.trans h.root, h.buffer.trans h'.buffer⟩

/-- A dirty block stays dirty. -/
theorem Later.dirty (h : Later t t') (hi : t.buffer.Dirty i) : t'.buffer.Dirty i :=
  h.buffer.dirty i hi

/-- A pooled block stays pooled. -/
theorem Later.pooled (h : Later t t') (hi : t.buffer.Pooled i) : t'.buffer.Pooled i :=
  h.buffer.pooled i hi

/-- A write through a dirty pointer keeps everything else. -/
theorem later_write (hi : t.buffer.Dirty i) (p : Page K) : Later t (t.write i p) :=
  ⟨rfl, BufferManager.later_store hi p⟩

section Rules

variable {E : Fault → Prop} {α : Type}

/-- A buffer operation changes the buffer only. -/
theorem wp_onBuffer (x : Code Fault (BufferManager K) α) (Q : α → BTree K → Prop) :
    wp E (onBuffer x) Q t ↔ wp E x (fun a b ↦ Q a { t with buffer := b }) t.buffer :=
  wp_zoom ..

/-- Reading through a pointer into the pool. -/
theorem wp_deref (hi : t.buffer.Pooled i) (Q : Page K → BTree K → Prop) :
    wp E (deref (some i)) Q t ↔ Q (t.page i) t := by
  obtain ⟨f, hf⟩ := Option.isSome_iff_exists.mp hi
  have hv : t.page i = f.page := by simp [page, BufferManager.view, hf]
  unfold deref
  simp only [wp_bind, wp_get, hf, wp_pure, hv]

/-- Reading a node through a pointer. -/
theorem wp_readNode {n : NodeBlock K} (hi : t.buffer.Pooled i) (hn : t.page i = .node n)
    (Q : NodeBlock K → BTree K → Prop) : wp E (readNode (some i)) Q t ↔ Q n t := by
  unfold readNode
  simp only [wp_bind, wp_deref hi, hn, wp_pure]

/-- Reading a data block through a pointer. -/
theorem wp_readData {d : DataBlock} (hi : t.buffer.Pooled i) (hd : t.page i = .data d)
    (Q : DataBlock → BTree K → Prop) : wp E (readData (some i)) Q t ↔ Q d t := by
  unfold readData
  simp only [wp_bind, wp_deref hi, hd, wp_pure]

/-- Reading the metadata. -/
theorem wp_readMeta (h : Heap t m) (Q : BTreeMetadata → BTree K → Prop) :
    wp E readMeta Q t ↔ Q m t := by
  unfold readMeta
  simp only [wp_bind, wp_deref h.pinned.pooled, h.metadata, wp_pure]

/-- Writing through a pointer. -/
theorem wp_store (p : Page K) (Q : Unit → BTree K → Prop) :
    wp E (store (some i) p) Q t ↔ Q () (t.write i p) := Iff.rfl

/-- Writing the metadata. -/
theorem wp_writeMeta (m : BTreeMetadata) (Q : Unit → BTree K → Prop) :
    wp E (writeMeta m) Q t ↔ Q () (t.write 0 (.metadata m)) := Iff.rfl

/-- Changing a node through a pointer. -/
theorem wp_modifyNode {n n' : NodeBlock K} {f : NodeBlock K → Except Fault (NodeBlock K)}
    (hi : t.buffer.Pooled i) (hn : t.page i = .node n) (hf : f n = .ok n')
    (Q : Unit → BTree K → Prop) :
    wp E (modifyNode (some i) f) Q t ↔ Q () (t.write i (.node n')) := by
  unfold modifyNode
  simp only [wp_bind, wp_readNode hi hn, wp_liftM, hf, wp_store]

/-- Storing a page other than the metadata. -/
theorem wp_store_page {p : Page K} {Q : Unit → BTree K → Prop} (h : Heap t m)
    (hi : t.buffer.Dirty i) (h0 : i ≠ 0) (hp : p.header.index = i)
    (hQ : ∀ t', Later t t' → Heap t' m → t'.page = Function.update t.page i p → Q () t') :
    wp E (store (some i) p) Q t :=
  hQ _ (later_write hi p)
    (h.write hi.pooled hp (fun hz ↦ absurd hz h0) (fun _ ↦ rfl) rfl h.number)
    (page_write hi.pooled p)

/-- Changing a node but not its number. -/
theorem wp_modify_page {n n' : NodeBlock K} {f : NodeBlock K → Except Fault (NodeBlock K)}
    {Q : Unit → BTree K → Prop} (h : Heap t m) (hi : t.buffer.Dirty i) (h0 : i ≠ 0)
    (hn : t.page i = .node n) (hf : f n = .ok n') (hidx : n'.header.index = i)
    (hQ : ∀ t', Later t t' → Heap t' m → t'.page = Function.update t.page i (.node n') →
      Q () t') :
    wp E (modifyNode (some i) f) Q t := by
  unfold modifyNode
  simp only [wp_bind, wp_readNode hi.pooled hn, wp_liftM, hf]
  exact wp_store_page h hi h0 hidx hQ

/-- What fetching a block of the tree does besides returning its pointer. -/
structure Fetched (t t' : BTree K) (m : BTreeMetadata) (i flag : Nat) : Prop where
  later : Later t t'
  heap : Heap t' m
  page : t'.page = t.page
  pooled : t'.buffer.Pooled i
  dirty : flag ≠ 0 → t'.buffer.Dirty i

/-- Fetching a block in use keeps the heap. -/
theorem Heap.fetched {flag : Nat} {b : BufferManager K} (h : Heap t m) (hi : i < m.countOfBlock)
    (hb : t.buffer.Fetched b i flag) : Fetched t { t with buffer := b } m i flag := by
  have hpage : BTree.page { t with buffer := b } = t.page := hb.view
  constructor
  · exact ⟨rfl, hb.later⟩
  · constructor
    · exact hb.later.platform ▸ h.reliable
    · rw [hpage, h.metadata]
    · exact hb.later.dirty 0 h.pinned
    · rw [hpage]
      exact h.index
    · intro j hj
      rcases (hb.pooled j).mp hj with hj | rfl
      · exact h.pooled j hj
      · exact hi
    · exact h.count_le
    · exact h.number
  · exact hpage
  · exact (hb.pooled i).mpr (.inr rfl)
  · exact hb.dirty

/-- A block in use is fetched. -/
theorem wp_getBlock {flag : Nat} {Q : Option Nat → BTree K → Prop} (h : Heap t m)
    (hi : i < m.countOfBlock) (hQ : ∀ t', Fetched t t' m i flag → Q (some i) t') :
    wp E (onBuffer (BufferManager.getBlock i flag)) Q t := by
  rw [wp_onBuffer]
  have hmax : i < 2 ^ 19 := Nat.lt_of_lt_of_le hi h.count_le
  exact BufferManager.wp_getBlock h.reliable hmax (fun _ ↦ h.index i hi) fun b hb ↦
    hQ _ (h.fetched hi hb)

/-- `getNodeBlock` fetches a block in use. -/
theorem wp_getNodeBlock {Q : Option Nat → BTree K → Prop} (h : Heap t m)
    (hi : i < m.countOfBlock) (hQ : ∀ t', Fetched t t' m i 1 → Q (some i) t') :
    wp E (getNodeBlock i) Q t := by
  unfold getNodeBlock
  simp only [wp_bind, wp_readMeta h, if_pos hi]
  exact wp_getBlock h hi hQ

/-- What taking the next block into use does, with the page it receives. -/
structure Allocated (t t' : BTree K) (m m' : BTreeMetadata) (p : Page K) : Prop where
  later : Later t t'
  heap : Heap t' m'
  count : m'.countOfBlock = m.countOfBlock + 1
  items : m'.countOfItem = m.countOfItem
  root : m'.root = m.root
  page : t'.page =
    Function.update (Function.update t.page 0 (.metadata m')) m.countOfBlock p
  dirty : t'.buffer.Dirty m.countOfBlock

/-- What making room for another block in the file does. -/
structure Grew (t t' : BTree K) (m m' : BTreeMetadata) : Prop where
  later : Later t t'
  heap : Heap t' m'
  count : m'.countOfBlock = m.countOfBlock
  items : m'.countOfItem = m.countOfItem
  root : m'.root = m.root
  room : m'.countOfBlock < m'.numberOfBlock
  page : t'.page = Function.update t.page 0 (.metadata m')

/-- `growFile` makes room for another block. -/
theorem wp_growFile {Q : Unit → BTree K → Prop} (h : Heap t m)
    (hQ : ∀ t' m', Grew t t' m m' → Q () t') : wp E growFile Q t := by
  have hi : m.header.index = 0 := h.index_metadata
  unfold growFile
  simp only [wp_bind, wp_readMeta h]
  split
  · next hfull =>
    rw [wp_writeMeta]
    have hle := h.count_le
    have hpos := h.count_pos
    have hmod : m.numberOfBlock * 2 % 2 ^ 32 = m.numberOfBlock * 2 :=
      Nat.mod_eq_of_lt (by omega)
    have hroom : m.countOfBlock < m.numberOfBlock * 2 % 2 ^ 32 := by omega
    refine hQ _ { m with numberOfBlock := m.numberOfBlock * 2 % 2 ^ 32 } ⟨later_write h.pinned _,
      h.write h.pinned.pooled hi (fun _ ↦ rfl) (fun hz ↦ absurd rfl hz) rfl ?_,
      rfl, rfl, rfl, hroom, page_write h.pinned.pooled _⟩
    exact Nat.le_of_lt hroom
  · next hfull =>
    refine hQ t m ⟨.refl t, h, rfl, rfl, rfl, ?_, ?_⟩
    · have := h.number
      omega
    · rw [← h.metadata, Function.update_eq_self]

/-- Fetching the next block and initialising it takes it into use. -/
private theorem Grew.allocated {t₁ : BTree K} {m₁ : BTreeMetadata} {b : BufferManager K}
    {p : Page K} (hg : Grew t t₁ m m₁) (hb : t₁.buffer.Fetched b m.countOfBlock 1)
    (hmax : m.countOfBlock < 2 ^ 19) (hp : p.header.index = m.countOfBlock) :
    Allocated t
      ((BTree.write { t₁ with buffer := b } m.countOfBlock p).write 0
        (.metadata { m₁ with countOfBlock := (m.countOfBlock + 1) % 2 ^ 32 })) m
      { m₁ with countOfBlock := (m.countOfBlock + 1) % 2 ^ 32 } p := by
  obtain ⟨hl, h, hc, hit, hroot, hlt, hpage⟩ := hg
  have hmod : (m.countOfBlock + 1) % 2 ^ 32 = m.countOfBlock + 1 :=
    Nat.mod_eq_of_lt (by omega)
  have hpos : 0 < m.countOfBlock := hc ▸ h.count_pos
  have hd : b.Dirty m.countOfBlock := hb.dirty (by decide)
  have hl₁ : b.Later _ := BufferManager.later_store hd p
  have h0 : (BTree.write { t₁ with buffer := b } m.countOfBlock p).buffer.Dirty 0 :=
    hl₁.dirty 0 (hb.later.dirty 0 h.pinned)
  have hl₂ := BufferManager.later_store h0
    (.metadata { m₁ with countOfBlock := (m.countOfBlock + 1) % 2 ^ 32 })
  have hview : ((BTree.write { t₁ with buffer := b } m.countOfBlock p).write 0
      (.metadata { m₁ with countOfBlock := (m.countOfBlock + 1) % 2 ^ 32 })).page =
      Function.update (Function.update t.page 0
        (.metadata { m₁ with countOfBlock := (m.countOfBlock + 1) % 2 ^ 32 }))
        m.countOfBlock p := by
    rw [page_write h0.pooled, page_write hd.pooled]
    change Function.update (Function.update b.view _ _) _ _ = _
    rw [hb.view]
    change Function.update (Function.update t₁.page _ _) _ _ = _
    rw [hpage, Function.update_comm (by omega), Function.update_idem]
  constructor
  · exact hl.trans ⟨rfl, hb.later.trans (hl₁.trans hl₂)⟩
  · constructor
    · exact hb.later.platform ▸ h.reliable
    · rw [hview, Function.update_of_ne (by omega), Function.update_self]
    · exact hl₂.dirty 0 h0
    · intro j hj
      change j < (m.countOfBlock + 1) % 2 ^ 32 at hj
      rw [hview]
      by_cases hjc : j = m.countOfBlock
      · rw [hjc, Function.update_self, hp]
      · have hj' : (t₁.page j).header.index = j := h.index j (by omega)
        rw [Function.update_of_ne hjc]
        rw [hpage] at hj'
        by_cases hj0 : j = 0
        · subst hj0
          rw [Function.update_self] at hj' ⊢
          exact hj'
        · rwa [Function.update_of_ne hj0] at hj' ⊢
    · intro j hj
      change j < (m.countOfBlock + 1) % 2 ^ 32
      have hjb : b.Pooled j := (pooled_write _).mp ((pooled_write _).mp hj)
      rcases (hb.pooled j).mp hjb with hj | rfl
      · have := h.pooled j hj
        omega
      · omega
    · change (m.countOfBlock + 1) % 2 ^ 32 ≤ 2 ^ 19
      omega
    · change (m.countOfBlock + 1) % 2 ^ 32 ≤ m₁.numberOfBlock
      omega
  · exact hmod
  · exact hit
  · exact hroot
  · exact hview
  · exact hl₂.dirty _ (hl₁.dirty _ hd)

/-- Fetching the next block, if the file can hold it. -/
private theorem wp_getNext {n flag : Nat}
    {Q : Option Nat → BTree K → Prop} (hr : t.buffer.platform.Reliable)
    (hle : n ≤ 2 ^ 19) (hE : Covers E (n + 1)) (hn : ¬ t.buffer.Pooled n)
    (hQ : n < 2 ^ 19 → ∀ b, t.buffer.Fetched b n flag → Q (some n) { t with buffer := b }) :
    wp E (onBuffer (BufferManager.getBlock n flag)) Q t := by
  rw [wp_onBuffer]
  rcases Nat.lt_or_eq_of_le hle with hlt | rfl
  · exact BufferManager.wp_getBlock hr hlt (fun hp ↦ absurd hp hn) (hQ hlt)
  · exact BufferManager.wp_getBlock_full hr hn (hE (Nat.lt_succ_self _))

section Fresh

variable {t₁ : BTree K} {m₁ : BTreeMetadata} {b : BufferManager K}

/-- What `getFreeNodeBlock` does with the next block in the pool. -/
theorem Grew.wp_initNode {type : BlockType} {keySize valueSize : Nat}
    {Q : Option Nat → BTree K → Prop} (hg : Grew t t₁ m m₁)
    (hb : t₁.buffer.Fetched b m.countOfBlock 1) (hmax : m.countOfBlock < 2 ^ 19)
    (hQ : ∀ t' m', Allocated t t' m m'
      (.node ⟨⟨type, m.countOfBlock, 0, 0⟩, keySize, valueSize, []⟩) →
      Q (some m.countOfBlock) t') :
    wp E (do
      if (← reserved (some m.countOfBlock)) = 1 then do
        let page ← deref (some m.countOfBlock)
        store (some m.countOfBlock)
          (.node (NodeBlock.init page.header m₁.countOfBlock type keySize valueSize))
        writeMeta { m₁ with countOfBlock := (m₁.countOfBlock + 1) % 2 ^ 32 }
        return some m.countOfBlock
      else throw .assertFailed) Q { t₁ with buffer := b } := by
  have hframe := hb.fresh (hg.count ▸ hg.heap.not_pooled)
  have hpool : b.Pooled m.countOfBlock := (hb.pooled _).mpr (.inr rfl)
  unfold reserved
  simp only [wp_bind, wp_get, hframe, wp_pure, if_true, hg.count]
  rw [wp_deref (t := { t₁ with buffer := b }) hpool, wp_store, wp_writeMeta]
  exact hQ _ _ (hg.allocated hb hmax rfl)

/-- What `getFreeDataBlock` does with it. -/
theorem Grew.wp_initData {Q : Option Nat → BTree K → Prop} (hg : Grew t t₁ m m₁)
    (hb : t₁.buffer.Fetched b m.countOfBlock 1) (hmax : m.countOfBlock < 2 ^ 19)
    (hQ : ∀ t' m' bytes, Allocated t t' m m'
      (.data ⟨⟨.data, m.countOfBlock, 0, 0⟩, BLOCK_SIZE, [], bytes⟩) →
      Q (some m.countOfBlock) t') :
    wp E (do
      let page ← deref (some m.countOfBlock)
      store (some m.countOfBlock) (.data (DataBlock.init page.header page.bytes m₁.countOfBlock))
      writeMeta { m₁ with countOfBlock := (m₁.countOfBlock + 1) % 2 ^ 32 }
      return some m.countOfBlock) Q { t₁ with buffer := b } := by
  have hpool : b.Pooled m.countOfBlock := (hb.pooled _).mpr (.inr rfl)
  simp only [wp_bind, wp_pure, hg.count]
  rw [wp_deref (t := { t₁ with buffer := b }) hpool, wp_store, wp_writeMeta]
  exact hQ _ _ _ (hg.allocated hb hmax rfl)

end Fresh

/-- `getFreeNodeBlock` takes the next block into use as an empty, unlinked node. -/
theorem wp_getFreeNodeBlock {type : BlockType} {keySize valueSize : Nat}
    {Q : Option Nat → BTree K → Prop} (h : Heap t m) (hE : Covers E (m.countOfBlock + 1))
    (hQ : ∀ t' m', Allocated t t' m m'
      (.node ⟨⟨type, m.countOfBlock, 0, 0⟩, keySize, valueSize, []⟩) →
      Q (some m.countOfBlock) t') :
    wp E (getFreeNodeBlock type keySize valueSize) Q t := by
  unfold getFreeNodeBlock
  simp only [wp_bind]
  refine wp_growFile h fun t₁ m₁ hg ↦ ?_
  have h₁ := hg.heap
  rw [wp_readMeta h₁, hg.count]
  refine wp_getNext h₁.reliable (hg.count ▸ h₁.count_le) hE (hg.count ▸ h₁.not_pooled)
    fun hmax b hb ↦ ?_
  have := hg.wp_initNode (E := E) hb hmax hQ
  simpa only [wp_bind, hg.count] using this

/-- `getFreeDataBlock` takes the next block into use as an empty data block. -/
theorem wp_getFreeDataBlock {Q : Option Nat → BTree K → Prop} (h : Heap t m)
    (hE : Covers E (m.countOfBlock + 1))
    (hQ : ∀ t' m' bytes, Allocated t t' m m'
      (.data ⟨⟨.data, m.countOfBlock, 0, 0⟩, BLOCK_SIZE, [], bytes⟩) →
      Q (some m.countOfBlock) t') :
    wp E getFreeDataBlock Q t := by
  unfold getFreeDataBlock
  simp only [wp_bind]
  refine wp_growFile h fun t₁ m₁ hg ↦ ?_
  have h₁ := hg.heap
  rw [wp_readMeta h₁, hg.count]
  refine wp_getNext h₁.reliable (hg.count ▸ h₁.count_le) hE (hg.count ▸ h₁.not_pooled)
    fun hmax b hb ↦ ?_
  have := hg.wp_initData (E := E) hb hmax hQ
  simpa only [wp_bind, hg.count] using this

end Rules

end BTree

end ExampleEngine.Index
