import ExampleEngine.Storage.Save
import ExampleEngine.Index.Contents

/-!
# Saving and reopening

Library `Index`. `BTree::save` and `BTree::~BTree` of `src/lib/btree.h:232–245` change no
contents; what a later `BTree::open` finds is the file they leave.
-/

namespace ExampleEngine.Index

open ExampleEngine.Base ExampleEngine.Storage

namespace BTree

variable {K : Type} {c : Config K} {S : K → Prop} {t t' : BTree K} {m : BTreeMetadata}
  {h : Nat} {x : LTree (Slot K) h} {writable : Nat → Bool}

/-- What saving does to an open tree. -/
structure Kept (t t' : BTree K) (m : BTreeMetadata) : Prop where
  heap : Heap t' m
  root : t'.root = t.root
  page : t'.page = t.page
  pooled : ∀ i, t'.buffer.Pooled i ↔ t.buffer.Pooled i
  pinned : t'.buffer.Dirty t'.root
  synced : ∀ R : Page K → Page K → Prop, (∀ p, R p p) → t.buffer.Synced R → t'.buffer.Synced R

/-- Saving keeps the tree. -/
theorem Holds.kept (ht : Holds c S t m h x) (hk : Kept t t' m) : Holds c S t' m h x where
  heap := hk.heap
  root := hk.root.trans ht.root
  metaRoot := ht.metaRoot
  dirty := by
    have := hk.pinned
    rwa [hk.root, ht.root] at this
  tree := hk.page ▸ ht.tree
  two := ht.two
  roles := hk.page ▸ ht.roles

/-- Blocks in the pool can be written. -/
theorem Heap.lt_of_pooled (hh : Heap t m) : ∀ i, t.buffer.Pooled i → i < 2 ^ 19 := by
  intro i hi
  have h1 := hh.pooled i hi
  have h2 := hh.count_le
  omega

/-- `save` keeps the contents, whatever writes succeed, and pins the blocks whose pointers the
tree keeps. -/
theorem wp_save {E : Fault → Prop} {Q : Nat → BTree K → Prop} (ht : Holds c S t m h x)
    (hQ : ∀ n t', Kept t t' m → Q n t') : wp E (save writable) Q t := by
  have hr : t.buffer.Pooled t.root := ht.root ▸ ht.dirty.pooled
  have hs := BufferManager.saved_save writable ht.heap.lt_of_pooled
  have h0 := BufferManager.saved_mark (b := (t.buffer.save writable).2) (i := 0) (n := 1)
    (by decide)
  have h1 := BufferManager.saved_mark
    (b := (t.buffer.save writable).2.modifyFrame 0 fun f ↦ { f with reserved := 1 })
    (i := t.root) (n := 1) (by decide)
  have hall := (hs.trans h0).trans h1
  have hdirty : ∀ b : BufferManager K, ∀ i j, b.Pooled j → (j = i ∨ b.Dirty j) →
      (b.modifyFrame i fun f ↦ { f with reserved := 1 }).Dirty j := by
    intro b i j hp hd
    unfold BufferManager.Dirty
    rw [BufferManager.frame_modifyFrame]
    split
    · obtain ⟨f, hf⟩ := Option.isSome_iff_exists.mp hp
      exact ⟨{ f with reserved := 1 }, by rw [hf]; rfl, by simp⟩
    · next hne => exact hd.resolve_left hne
  have hp0 := (hs.pooled 0).mpr ht.heap.pinned.pooled
  have hp0' := ((hs.trans h0).pooled 0).mpr ht.heap.pinned.pooled
  unfold save
  simp only [wp_bind, wp_get, wp_set, wp_pure]
  refine hQ _ _ ⟨⟨?_, ?_, ?_, ?_, ?_, ht.heap.count_le, ht.heap.number⟩, rfl, hall.view,
    hall.pooled, ?_, hall.synced⟩
  · exact hall.platform ▸ ht.heap.reliable
  · exact (congrFun hall.view 0).trans ht.heap.metadata
  · exact hdirty _ _ _ hp0' (.inr (hdirty _ _ _ hp0 (.inl rfl)))
  · intro i hi
    exact (congrArg (fun p ↦ p.header.index) (congrFun hall.view i)).trans (ht.heap.index i hi)
  · exact fun i hi ↦ ht.heap.pooled i ((hall.pooled i).mp hi)
  · exact hdirty _ _ _ (((hs.trans h0).pooled t.root).mpr hr) (.inl rfl)

/-- The file left behind when every write succeeds holds the contents, up to what it held of
clean blocks. -/
theorem Heap.destroy {R : Page K → Page K → Prop} (hh : Heap t m) (hR : ∀ p, R p p)
    (hs : t.buffer.Synced R) (hw : ∀ i, writable i = true) (i : Nat) :
    R (destroy writable t i) (t.page i) :=
  BufferManager.file_save hR hh.lt_of_pooled hs hw i

end BTree

end ExampleEngine.Index
