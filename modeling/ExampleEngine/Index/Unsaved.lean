import ExampleEngine.Base.Preserves
import ExampleEngine.Index.Live
import ExampleEngine.Index.Save

/-!
# Trees before the first save

Library `Index`. `getBlock` of `src/lib/buffer.cpp:40–63` marks every block it fetches dirty,
except for the data block that `getValue` of `src/lib/btree.cpp:481–491` reads, and only `save`
clears marks. So as long as no save has come, every node, also one that a removal changes without
a mark of its own, is still marked.
-/

namespace ExampleEngine.Index

open ExampleEngine.Base ExampleEngine.Storage

namespace BTree

variable {K : Type}

/-- The file is as it was, the blocks in the pool without a dirty mark are data blocks as the file
has them, and the pointers point to marked blocks. -/
structure Unsaved (F : Nat → Page K) (ps : List (Option Nat)) (t : BTree K) : Prop where
  file : t.buffer.file = F
  clean : ∀ i f, t.buffer.frame i = some f → f.reserved = 0 →
    t.buffer.file (blockPosition i / BLOCK_SIZE) = f.page ∧ ∃ d, f.page = .data d
  marked : ∀ i, some i ∈ ps → t.buffer.Dirty i

variable {t : BTree K} {c : Config K} {i : Nat} {p : Option Nat} {ps : List (Option Nat)}
  {page : Page K} {F : Nat → Page K}

namespace Unsaved

/-- Nothing is unmarked in an empty pool. -/
theorem unopened (platform : Platform) (file : Nat → Page K) :
    Unsaved file [] (BTree.unopened platform file) where
  file := rfl
  clean _ _ hf := nomatch hf
  marked _ hi := nomatch hi

/-- Fewer pointers point to marked blocks as well. -/
theorem mono {ps' : List (Option Nat)} (h : Unsaved F ps t) (hps : ∀ p ∈ ps', p ∈ ps) :
    Unsaved F ps' t :=
  ⟨h.file, h.clean, fun i hi ↦ h.marked i (hps _ hi)⟩

/-- The root does not matter. -/
theorem withRoot (h : Unsaved F ps t) (i : Nat) : Unsaved F ps { t with root := i } :=
  ⟨h.file, h.clean, h.marked⟩

/-- Neither does more than the frames and the file. -/
theorem congr {b : BufferManager K} (h : Unsaved F ps t)
    (hframe : ∀ j, b.frame j = t.buffer.frame j) (hfile : b.file = t.buffer.file) :
    Unsaved F ps { t with buffer := b } := by
  constructor
  · exact hfile.trans h.file
  · intro j f hf hr
    change b.file _ = _ ∧ _
    rw [hfile]
    exact h.clean j f ((hframe j).symm.trans hf) hr
  · intro j hj
    obtain ⟨f, hf, hr⟩ := h.marked j hj
    exact ⟨f, (hframe j).trans hf, hr⟩

/-- A pointer that was followed may be forgotten. -/
theorem drop (h : Unsaved F (p :: ps) t) : Unsaved F ps t := h.mono fun _ ↦ List.mem_cons_of_mem p

/-- A block other than a data block is marked. -/
theorem dirty {f : Frame K} (h : Unsaved F ps t) (hf : t.buffer.frame i = some f)
    (hd : ∀ d, f.page ≠ .data d) : t.buffer.Dirty i := by
  refine ⟨f, hf, fun hr ↦ ?_⟩
  obtain ⟨-, d, hpage⟩ := h.clean i f hf hr
  exact hd d hpage

/-- A pointer to a marked block is one more. -/
theorem cons (h : Unsaved F ps t) (hp : ∀ i, p = some i → t.buffer.Dirty i) :
    Unsaved F (p :: ps) t := by
  refine ⟨h.file, h.clean, fun i hi ↦ ?_⟩
  rcases List.mem_cons.mp hi with heq | hi
  · exact hp i heq.symm
  · exact h.marked i hi

/-- A marked block may be written. -/
theorem write (h : Unsaved F ps t) (hi : t.buffer.Dirty i) : Unsaved F ps (t.write i page) := by
  constructor
  · exact h.file
  · intro j f hf hr
    have hframe : (t.write i page).buffer.frame j = _ := BufferManager.frame_modifyFrame ..
    rw [hframe] at hf
    split at hf
    · next hj =>
      subst hj
      obtain ⟨g, hg, hne⟩ := hi
      rw [hg] at hf
      cases hf
      exact absurd hr hne
    · exact h.clean j f hf hr
  · intro j hj
    exact (BufferManager.dirty_modifyFrame page).mpr (h.marked j hj)

/-- A block that was not in the pool is fetched with a mark. -/
theorem pooled {flag : Nat} (h : Unsaved F ps t) (hi : t.buffer.frame i = none) (hflag : flag ≠ 0) :
    Unsaved F (some i :: ps)
      { t with buffer := { t.buffer with pool := (i, ⟨flag, page⟩) :: t.buffer.pool } } := by
  have hframe : ∀ j, ({ t.buffer with pool := (i, ⟨flag, page⟩) :: t.buffer.pool } :
      BufferManager K).frame j = if j = i then some ⟨flag, page⟩ else t.buffer.frame j := fun j ↦
    BufferManager.frame_cons _
  have hne : ∀ j f, t.buffer.frame j = some f → j ≠ i := by
    rintro j f hf rfl
    rw [hi] at hf
    cases hf
  constructor
  · exact h.file
  · intro j f hf hr
    change BufferManager.frame _ j = _ at hf
    rw [hframe] at hf
    split at hf
    · cases hf
      exact absurd hr hflag
    · exact h.clean j f hf hr
  · intro j hj
    rcases List.mem_cons.mp hj with heq | hj
    · obtain rfl := Option.some.inj heq
      exact ⟨_, by rw [hframe, if_pos rfl], hflag⟩
    · obtain ⟨f, hf, hr⟩ := h.marked j hj
      exact ⟨f, by rw [hframe, if_neg (hne j f hf), hf], hr⟩

/-- On a file of up to 2 GiB, the file holds what is not marked. -/
theorem synced {m : BTreeMetadata} (h : Unsaved F ps t) (hh : Heap t m) : t.buffer.Synced Eq := by
  intro i f hf hr
  have hlt := hh.pooled i (by simp [BufferManager.Pooled, hf])
  have hpos := (BufferManager.position_of_lt (Nat.lt_of_lt_of_le hlt hh.count_le)).2
  obtain ⟨hfile, -⟩ := h.clean i f hf hr
  rwa [hpos] at hfile

end Unsaved

section Blocks

private theorem wp_deref_any {Q : Page K → BTree K → Prop}
    (hQ : ∀ i f, p = some i → t.buffer.frame i = some f → Q f.page t) :
    wp (fun _ ↦ True) (deref p) Q t := by
  cases p with
  | none => exact trivial
  | some i =>
    unfold deref
    simp only [wp_bind, wp_get]
    cases hf : t.buffer.frame i with
    | none => exact trivial
    | some f => exact hQ i f rfl hf

/-- A block that is read as a node is marked. -/
private theorem wp_readNode_marked (h : Unsaved F ps t) :
    wp (fun _ ↦ True) (readNode p) (fun _ t' ↦ Unsaved F (p :: ps) t') t := by
  unfold readNode
  rw [wp_bind]
  refine wp_deref_any fun i f hp hf ↦ ?_
  cases hpage : f.page with
  | node n =>
    refine h.cons fun j hj ↦ ?_
    obtain rfl : i = j := Option.some.inj (hp.symm.trans hj)
    exact h.dirty hf fun d ↦ by rw [hpage]; exact nofun
  | _ => exact trivial

/-- So is the block of the metadata. -/
private theorem wp_readMeta_marked (h : Unsaved F ps t) :
    wp (fun _ ↦ True) readMeta (fun _ t' ↦ Unsaved F (some 0 :: ps) t') t := by
  unfold readMeta
  rw [wp_bind]
  refine wp_deref_any fun i f hp hf ↦ ?_
  cases hpage : f.page with
  | metadata m =>
    refine h.cons fun j hj ↦ ?_
    obtain rfl : i = j := Option.some.inj (hp.symm.trans hj)
    exact h.dirty hf fun d ↦ by rw [hpage]; exact nofun
  | _ => exact trivial

private theorem wp_store_marked (h : Unsaved F ps t) (hp : p ∈ ps) :
    wp (fun _ ↦ True) (store p page) (fun _ t' ↦ Unsaved F ps t') t := by
  cases p with
  | none => exact trivial
  | some i => exact h.write (h.marked i hp)

/-- A block that is fetched with a mark is marked. -/
private theorem wp_getBlock_marked (h : Unsaved F ps t) :
    wp (fun _ ↦ True) (onBuffer (BufferManager.getBlock i 1))
      (fun r t' ↦ Unsaved F (r :: ps) t') t := by
  rw [wp_onBuffer]
  unfold BufferManager.getBlock
  simp only [wp_bind, wp_get]
  cases hf : t.buffer.frame i with
  | some f =>
    simp only
    split
    · simp only [wp_bind, wp_set, wp_pure]
      have hframe : ∀ j, (t.buffer.modifyFrame i fun f ↦
          if f.reserved = 0 then { f with reserved := 1 } else f).frame j = _ := fun j ↦
        BufferManager.frame_modifyFrame ..
      have hdirty : ∀ j, t.buffer.Dirty j ∨ j = i → (t.buffer.modifyFrame i fun f ↦
          if f.reserved = 0 then { f with reserved := 1 } else f).Dirty j := by
        intro j hj
        by_cases hji : j = i
        · subst hji
          refine ⟨if f.reserved = 0 then { f with reserved := 1 } else f, ?_, ?_⟩
          · rw [hframe, if_pos rfl, hf, Option.map_some]
          · split
            · exact Nat.one_ne_zero
            · next hr => exact hr
        · obtain ⟨g, hg, hr⟩ := hj.resolve_right hji
          exact ⟨g, by rw [hframe, if_neg hji, hg], hr⟩
      constructor
      · exact h.file
      · intro j g hg hr
        have hji : j ≠ i := by
          rintro rfl
          obtain ⟨g', hg', hr'⟩ := hdirty j (.inr rfl)
          obtain rfl : g' = g := Option.some.inj (hg'.symm.trans hg)
          exact hr' hr
        change (BufferManager.modifyFrame ..).frame j = _ at hg
        rw [hframe, if_neg hji] at hg
        exact h.clean j g hg hr
      · intro j hj
        rcases List.mem_cons.mp hj with heq | hj
        · exact hdirty j (.inr (Option.some.inj heq))
        · exact hdirty j (.inl (h.marked j hj))
    · exact trivial
  | none =>
    simp only
    split
    · cases hread : t.buffer.readBlock i with
      | none => exact trivial
      | some page => exact h.pooled hf Nat.one_ne_zero
    · exact h.cons fun _ hp ↦ by cases hp

/-- Following a pointer keeps what is marked. -/
private theorem preserves_readNode : Preserves (Unsaved F ps) (readNode p : TreeM K _) :=
  fun _ h ↦ wp_mono (wp_readNode_marked h) fun _ _ h' ↦ h'.drop

private theorem preserves_readMeta : Preserves (Unsaved F ps) (readMeta : TreeM K _) :=
  fun _ h ↦ wp_mono (wp_readMeta_marked h) fun _ _ h' ↦ h'.drop

private theorem preserves_deref : Preserves (Unsaved F ps) (deref p : TreeM K _) :=
  fun _ h ↦ wp_deref_any fun _ _ _ _ ↦ h

private theorem preserves_store (hp : p ∈ ps) : Preserves (Unsaved F ps) (store p page) :=
  fun _ h ↦ wp_store_marked h hp

/-- A node is marked, so it may be changed. -/
private theorem preserves_modifyNode {f : NodeBlock K → Except Fault (NodeBlock K)} :
    Preserves (Unsaved F ps) (modifyNode p f) := by
  intro t h
  unfold modifyNode
  rw [wp_bind]
  refine wp_mono (wp_readNode_marked h) fun n t₁ h₁ ↦ ?_
  have hstore : ∀ n', Preserves (Unsaved F (p :: ps)) (store p (.node n') : TreeM K _) := fun n' ↦
    preserves_store List.mem_cons_self
  exact wp_mono (Preserves.bind (.liftM (f n)) hstore t₁ h₁) fun _ _ h₂ ↦ h₂.drop

/-- So may the metadata. -/
private theorem wp_writeMeta_marked {m : BTreeMetadata} (h : Unsaved F (some 0 :: ps) t) :
    wp (fun _ ↦ True) (writeMeta m) (fun _ t' ↦ Unsaved F (some 0 :: ps) t') t :=
  wp_store_marked h List.mem_cons_self

private theorem wp_getNodeBlock_marked (h : Unsaved F ps t) :
    wp (fun _ ↦ True) (getNodeBlock i) (fun r t' ↦ Unsaved F (r :: ps) t') t := by
  unfold getNodeBlock
  rw [wp_bind]
  refine wp_mono (preserves_readMeta t h) fun m t₁ h₁ ↦ ?_
  split
  · exact wp_getBlock_marked h₁
  · exact trivial

private theorem preserves_getNodeBlock : Preserves (Unsaved F ps) (getNodeBlock i : TreeM K _) :=
  fun _ h ↦ wp_mono (wp_getNodeBlock_marked h) fun _ _ h' ↦ h'.drop

private theorem preserves_growFile : Preserves (Unsaved F ps) (growFile : TreeM K _) := by
  intro t h
  unfold growFile
  rw [wp_bind]
  refine wp_mono (wp_readMeta_marked h) fun m t₁ h₁ ↦ ?_
  split
  · exact wp_mono (wp_writeMeta_marked h₁) fun _ _ h₂ ↦ h₂.drop
  · exact h₁.drop

private theorem preserves_reserved : Preserves (Unsaved F ps) (reserved p : TreeM K _) := by
  intro t h
  cases p with
  | none => exact trivial
  | some i =>
    unfold reserved
    simp only [wp_bind, wp_get]
    cases t.buffer.frame i with
    | none => exact trivial
    | some f => exact h

/-- What getting a new block does once it is fetched. -/
private theorem wp_fresh {m : BTreeMetadata} {f : Page K → Page K}
    (h : Unsaved F (p :: some 0 :: ps) t) :
    wp (fun _ ↦ True) (do
      let page ← deref p
      store p (f page)
      writeMeta m
      return p) (fun r t' ↦ Unsaved F (r :: ps) t') t := by
  have hmeta : some 0 ∈ p :: some 0 :: ps := List.mem_cons_of_mem p List.mem_cons_self
  simp only [wp_bind, wp_pure]
  refine wp_mono (preserves_deref t h) fun page t₁ h₁ ↦ ?_
  refine wp_mono (preserves_store List.mem_cons_self t₁ h₁) fun _ t₂ h₂ ↦ ?_
  refine wp_mono (preserves_store hmeta t₂ h₂) fun _ t₃ h₃ ↦ h₃.mono fun q hq ↦ ?_
  rcases List.mem_cons.mp hq with rfl | hq
  · exact List.mem_cons_self
  · exact List.mem_cons_of_mem p (List.mem_cons_of_mem _ hq)

/-- A new node is marked. -/
private theorem wp_getFreeNodeBlock_marked {type : BlockType} {keySize valueSize : Nat}
    (h : Unsaved F ps t) : wp (fun _ ↦ True) (getFreeNodeBlock type keySize valueSize)
      (fun r t' ↦ Unsaved F (r :: ps) t') t := by
  unfold getFreeNodeBlock
  rw [wp_bind]
  refine wp_mono (preserves_growFile t h) fun _ t₁ h₁ ↦ ?_
  rw [wp_bind]
  refine wp_mono (wp_readMeta_marked h₁) fun m t₂ h₂ ↦ ?_
  rw [wp_bind]
  refine wp_mono (wp_getBlock_marked h₂) fun block t₃ h₃ ↦ ?_
  rw [wp_bind]
  refine wp_mono (preserves_reserved t₃ h₃) fun r t₄ h₄ ↦ ?_
  split
  · exact wp_fresh h₄
  · exact trivial

/-- A new data block is marked. -/
private theorem wp_getFreeDataBlock_marked (h : Unsaved F ps t) :
    wp (fun _ ↦ True) getFreeDataBlock (fun r t' ↦ Unsaved F (r :: ps) t') t := by
  unfold getFreeDataBlock
  rw [wp_bind]
  refine wp_mono (preserves_growFile t h) fun _ t₁ h₁ ↦ ?_
  rw [wp_bind]
  refine wp_mono (wp_readMeta_marked h₁) fun m t₂ h₂ ↦ ?_
  rw [wp_bind]
  refine wp_mono (wp_getBlock_marked h₂) fun block t₃ h₃ ↦ ?_
  cases block with
  | none => exact (h₃.drop.drop).cons nofun
  | some i => exact wp_fresh h₃

end Blocks

section Trees

variable {key : K} {value : List UInt8}

private theorem preserves_readData : Preserves (Unsaved F ps) (readData p : TreeM K _) := by
  refine .bind preserves_deref fun page ↦ ?_
  cases page with
  | data d => exact .pure d
  | _ => exact .throw _

/-- What storing a value does with a block, where going on to another block keeps what is marked. -/
private theorem wp_intoBlock {go : Nat → TreeM K (Option Location)}
    (hgo : ∀ i, Preserves (Unsaved F ps) (go i)) (h : Unsaved F (p :: ps) t) :
    wp (fun _ ↦ True)
      (match p with
      | none => return none
      | some _ => do
        let d ← readData p
        if d.freeSize ≤ toInt32 value.length then
          if d.header.next ≠ 0 then go d.header.next
          else do
            let m ← readMeta
            go m.countOfBlock
        else
          match d.insert value (value.length % 2 ^ 16) with
          | none => return none
          | some (d', position) => do
            store p (.data d')
            return some ⟨d'.header.index, position⟩)
      (fun _ t' ↦ Unsaved F ps t') t := by
  cases p with
  | none => exact h.drop
  | some i =>
    simp only
    rw [wp_bind]
    refine wp_mono (preserves_readData t h) fun d t₁ h₁ ↦ ?_
    split
    · split
      · exact hgo _ t₁ h₁.drop
      · exact Preserves.bind preserves_readMeta (fun _ ↦ hgo _) t₁ h₁.drop
    · split
      · exact h₁.drop
      · rw [wp_bind]
        exact wp_mono (wp_store_marked h₁ List.mem_cons_self) fun _ _ h₂ ↦ h₂.drop

/-- The chain of data blocks is followed through marked blocks only. -/
private theorem preserves_insertValue (fuel index : Nat) :
    Preserves (Unsaved F ps) (insertValue fuel index value : TreeM K _) := by
  induction fuel generalizing index with
  | zero => exact .throw _
  | succ fuel ih =>
    unfold insertValue
    refine .bind preserves_readMeta fun m ↦ .ite (.throw _) (.ite ?_ ?_)
    · intro t h
      rw [wp_bind]
      exact wp_mono (wp_getFreeDataBlock_marked h) fun _ _ h₁ ↦ wp_intoBlock ih h₁
    · intro t h
      rw [wp_bind]
      exact wp_mono (wp_getBlock_marked h) fun _ _ h₁ ↦ wp_intoBlock ih h₁

/-- A data block that is read from the file without a mark is as the file has it. -/
private theorem Unsaved.read {d : DataBlock} (h : Unsaved F ps t) (hi : t.buffer.frame i = none)
    (hread : t.buffer.readBlock i = some (.data d)) :
    Unsaved F ps
      { t with buffer := { t.buffer with pool := (i, ⟨0, .data d⟩) :: t.buffer.pool } } := by
  have hframe : ∀ j, ({ t.buffer with pool := (i, ⟨0, .data d⟩) :: t.buffer.pool } :
      BufferManager K).frame j = if j = i then some ⟨0, .data d⟩ else t.buffer.frame j := fun j ↦
    BufferManager.frame_cons _
  constructor
  · exact h.file
  · intro j f hf hr
    change BufferManager.frame _ j = _ at hf
    rw [hframe] at hf
    split at hf
    · next hj =>
      cases hf
      subst hj
      unfold BufferManager.readBlock at hread
      split at hread
      · exact ⟨Option.some.inj hread, d, rfl⟩
      · cases hread
    · exact h.clean j f hf hr
  · intro j hj
    obtain ⟨f, hf, hr⟩ := h.marked j hj
    have hne : j ≠ i := by
      rintro rfl
      rw [hi] at hf
      cases hf
    exact ⟨f, by rw [hframe, if_neg hne, hf], hr⟩

/-- The block that is read without a mark is a data block. -/
private theorem preserves_getValue (loc : Location) :
    Preserves (Unsaved F ps) (BTree.getValue loc : TreeM K _) := by
  unfold BTree.getValue
  refine .bind preserves_readMeta fun m ↦ .ite (fun t h ↦ ?_) (.throw _)
  have hafter : Preserves (Unsaved F ps) (do
      let d ← readData (some loc.index)
      return (d.get loc.position).map fun o i ↦ d.bytes (o + i) : TreeM K _) :=
    .bind preserves_readData fun _ ↦ .pure _
  rw [wp_bind, wp_onBuffer]
  unfold BufferManager.getBlock
  simp only [wp_bind, wp_get]
  cases hf : t.buffer.frame loc.index with
  | some f =>
    simp only
    split
    · rw [wp_bind, wp_set, wp_pure]
      have hsame : ∀ g : Frame K, (if g.reserved = 0 then { g with reserved := 0 } else g) = g := by
        intro g
        split
        · next hr => rw [← hr]
        · rfl
      refine hafter _ (h.congr (fun j ↦ ?_) rfl)
      rw [BufferManager.frame_modifyFrame]
      simp only [hsame, Option.map_id', ite_self]
    · exact trivial
  | none =>
    simp only
    split
    · cases hread : t.buffer.readBlock loc.index with
      | none => exact trivial
      | some page =>
        rw [wp_bind, wp_set, wp_pure]
        simp only
        unfold readData
        rw [wp_bind, wp_bind]
        refine wp_deref_any fun i f hi hframe ↦ ?_
        obtain rfl := Option.some.inj hi
        change BufferManager.frame _ _ = _ at hframe
        rw [BufferManager.frame_cons, if_pos rfl] at hframe
        cases hframe
        cases page with
        | data d => exact h.read hf hread
        | _ => exact trivial
    · exact h

private theorem preserves_neighbourBlock (n : NodeBlock K) (index : Nat) :
    Preserves (Unsaved F ps) (neighbourBlock n index : TreeM K _) := by
  unfold neighbourBlock
  exact .ite (.bind preserves_readMeta fun _ ↦ .pure _) (.bind (.liftM _) fun _ ↦ .pure _)

private theorem preserves_insertLeaf (cur : Option Nat) (index : Nat) :
    Preserves (Unsaved F ps) (insertLeaf c key value cur index) := by
  unfold insertLeaf
  refine .bind preserves_readNode fun n ↦ .bind (.liftM _) fun held ↦ .ite ?_ (.ite ?_ ?_)
  · refine .bind (.liftM _) fun gone ↦ .ite (.ite ?_ ?_) (.pure _)
    · exact .bind preserves_modifyNode fun _ ↦ .pure _
    · refine .bind (.liftM _) fun old ↦ .bind (preserves_insertValue _ _) fun r ↦ ?_
      cases r with
      | none => exact .pure _
      | some loc => exact .bind preserves_modifyNode fun _ ↦ .pure _
  · exact .bind preserves_modifyNode fun _ ↦ .pure _
  · refine .bind (preserves_neighbourBlock n index) fun block ↦
      .bind (preserves_insertValue _ _) fun r ↦ ?_
    cases r with
    | none => exact .pure _
    | some loc => exact .bind preserves_modifyNode fun _ ↦ .pure _

/-- Both halves of a son that is split are marked. -/
private theorem preserves_splitSon (cur son : Option Nat) (index : Nat) :
    Preserves (Unsaved F ps) (splitSon c cur son index) := by
  intro t h
  unfold splitSon
  rw [wp_bind]
  refine wp_mono (wp_readNode_marked h) fun n t₁ h₁ ↦ ?_
  rw [wp_bind]
  refine wp_mono (wp_getFreeNodeBlock_marked h₁) fun next t₂ h₂ ↦ ?_
  rw [wp_bind]
  refine wp_mono (preserves_readNode t₂ h₂) fun fresh t₃ h₃ ↦ ?_
  rw [wp_bind]
  refine wp_mono (preserves_store (List.mem_cons_of_mem next List.mem_cons_self) t₃ h₃)
    fun _ t₄ h₄ ↦ ?_
  rw [wp_bind]
  refine wp_mono (preserves_store List.mem_cons_self t₄ h₄) fun _ t₅ h₅ ↦ ?_
  refine Preserves.ite (.bind preserves_getNodeBlock fun _ ↦ .bind preserves_modifyNode fun _ ↦
    .bind preserves_modifyNode fun _ ↦ ?_) ?_ t₅ h₅.drop.drop
  all_goals
    exact .bind preserves_modifyNode fun _ ↦ .bind preserves_modifyNode fun _ ↦
      .bind preserves_modifyNode fun _ ↦ .bind (.liftM _) fun _ ↦ preserves_modifyNode

/-- Insertion into a subtree. -/
private theorem preserves_insert (fuel : Nat) (cur : Option Nat) :
    Preserves (Unsaved F ps) (insert c key value fuel cur) := by
  induction fuel generalizing cur with
  | zero => exact .throw _
  | succ fuel ih =>
    unfold insert
    refine .bind preserves_readNode fun n ↦ .bind (.liftM _) fun lub ↦
      .ite (preserves_insertLeaf cur lub) ?_
    refine .bind (.liftM _) fun v ↦ .bind preserves_getNodeBlock fun son ↦ .bind (ih son)
      fun res ↦ .ite (.pure _) (.ite ?_ ?_)
    · refine .bind preserves_readNode fun s ↦ .bind (.liftM _) fun k ↦
        .bind preserves_modifyNode fun _ ↦ .bind preserves_readNode fun s ↦ .bind (.liftM _)
        fun full ↦ .ite (.bind (preserves_splitSon cur son _) fun _ ↦ .pure _) (.pure _)
    · exact .bind preserves_readNode fun s ↦ .bind (.liftM _) fun full ↦
        .ite (.bind (preserves_splitSon cur son _) fun _ ↦ .pure _) (.pure _)

/-- A root that is split is marked, and so are its half and the new root. -/
private theorem preserves_splitRoot : Preserves (Unsaved F ps) (splitRoot c) := by
  unfold splitRoot
  refine .bind .get fun t ↦ fun t₀ h ↦ ?_
  rw [wp_bind]
  refine wp_mono (wp_readNode_marked h) fun r t₁ h₁ ↦ ?_
  rw [wp_bind]
  refine wp_mono (wp_getFreeNodeBlock_marked h₁) fun newRoot t₂ h₂ ↦ ?_
  rw [wp_bind]
  refine wp_mono (wp_getFreeNodeBlock_marked h₂) fun nextNode t₃ h₃ ↦ ?_
  have htop : newRoot ∈ nextNode :: newRoot :: some t.root :: ps :=
    List.mem_cons_of_mem nextNode List.mem_cons_self
  have hroot : some t.root ∈ nextNode :: newRoot :: some t.root :: ps :=
    List.mem_cons_of_mem nextNode (List.mem_cons_of_mem newRoot List.mem_cons_self)
  refine wp_mono (Preserves.bind preserves_readNode (fun top ↦ .bind preserves_readNode
    fun fresh ↦ .bind (.liftM _) fun maxKey ↦ .bind (preserves_store hroot) fun _ ↦
    .bind (preserves_store List.mem_cons_self) fun _ ↦ .bind (.liftM _) fun leftKey ↦
    .bind (preserves_store htop) fun _ ↦ fun t₄ h₄ ↦ ?_) t₃ h₃) fun _ _ h₅ ↦ h₅.drop.drop.drop
  rw [wp_bind]
  refine wp_mono (wp_readMeta_marked h₄) fun m t₅ h₅ ↦ ?_
  rw [wp_bind]
  refine wp_mono (wp_writeMeta_marked h₅) fun _ t₆ h₆ ↦ ?_
  cases newRoot with
  | none => exact trivial
  | some i => exact h₆.drop.withRoot i

/-- `put` fetches and writes marked blocks only. -/
theorem preserves_put : Preserves (Unsaved F ps) (put c key value) := by
  unfold put
  refine .bind .get fun t ↦ .bind preserves_readMeta fun m ↦ .bind (preserves_insert _ _)
    fun res ↦ .ite (.pure _) fun t₀ h ↦ ?_
  rw [wp_bind]
  refine wp_mono (wp_readMeta_marked h) fun m t₁ h₁ ↦ ?_
  rw [wp_bind]
  refine wp_mono (wp_writeMeta_marked h₁) fun _ t₂ h₂ ↦ ?_
  exact Preserves.bind preserves_readNode (fun r ↦ .bind (.liftM _) fun full ↦
    .ite (.bind preserves_splitRoot fun _ ↦ .pure _) (.pure _)) t₂ h₂.drop

theorem preserves_countOfItems : Preserves (Unsaved F ps) (countOfItems : TreeM K Nat) :=
  .bind preserves_readMeta fun _ ↦ .pure _

/-- `open` marks the metadata and the root. -/
theorem preserves_openTree : Preserves (Unsaved F ps) (openTree : TreeM K Int) := by
  intro t h
  unfold openTree
  rw [wp_bind]
  refine wp_mono (wp_getBlock_marked h) fun r t₁ h₁ ↦ ?_
  cases r with
  | none => exact h₁.drop
  | some i =>
    refine Preserves.bind preserves_readMeta (fun m ↦ .bind preserves_getNodeBlock fun root ↦ ?_)
      t₁ h₁.drop
    cases root with
    | none => exact .pure _
    | some i =>
      exact .bind preserves_readNode fun _ ↦ .bind (.modify fun s hs ↦ hs.withRoot i)
        fun _ ↦ .pure _

private theorem preserves_getLeafLoop (fuel : Nat) :
    Preserves (Unsaved F ps) (getLeafLoop c key fuel p) := by
  induction fuel generalizing p with
  | zero => exact .throw _
  | succ fuel ih =>
    unfold getLeafLoop
    exact .bind preserves_readNode fun n ↦ .ite (.pure _) (.bind (.liftM _) fun lub ↦
      .bind (.liftM _) fun v ↦ .bind preserves_getNodeBlock fun son ↦ ih)

private theorem preserves_getEndLeafLoop {slot : NodeBlock K → Nat} (fuel : Nat) :
    Preserves (Unsaved F ps) (getEndLeafLoop slot fuel p) := by
  induction fuel generalizing p with
  | zero => exact .throw _
  | succ fuel ih =>
    unfold getEndLeafLoop
    exact .bind preserves_readNode fun n ↦ .ite (.pure _) (.bind (.liftM _) fun v ↦
      .bind preserves_getNodeBlock fun son ↦ ih)

private theorem preserves_getLeaf : Preserves (Unsaved F ps) (getLeaf c key) :=
  .bind .get fun _ ↦ .bind preserves_readNode fun _ ↦ .bind (.liftM _) fun _ ↦
    .bind preserves_readMeta fun _ ↦ preserves_getLeafLoop _

private theorem preserves_getFirstLeaf : Preserves (Unsaved F ps) (getFirstLeaf : TreeM K _) :=
  .bind .get fun _ ↦ .bind preserves_readMeta fun _ ↦ preserves_getEndLeafLoop _

private theorem preserves_getLastLeaf : Preserves (Unsaved F ps) (getLastLeaf : TreeM K _) :=
  .bind .get fun _ ↦ .bind preserves_readMeta fun _ ↦ preserves_getEndLeafLoop _

end Trees


end BTree

namespace Iterator

open BTree

variable {K : Type} {c : Config K} {ps : List (Option Nat)} {it : Iterator} {key : K}
  {F : Nat → Page K}

private theorem preserves_removed : Preserves (Unsaved F ps) (it.removed : TreeM K Bool) :=
  .bind preserves_readNode fun _ ↦ .liftM _

private theorem preserves_stepNext : Preserves (Unsaved F ps) (it.stepNext : TreeM K _) :=
  .bind preserves_readNode fun _ ↦ .ite (.pure _) (.ite (.ite (.pure _)
    (.bind preserves_getNodeBlock fun _ ↦ .pure _)) (.pure _))

private theorem preserves_nextLoop (fuel : Nat) :
    Preserves (Unsaved F ps) (nextLoop fuel it : TreeM K _) := by
  induction fuel generalizing it with
  | zero => exact .throw _
  | succ fuel ih =>
    refine .bind preserves_removed fun _ ↦ .ite (.bind preserves_stepNext fun r ↦ ?_) (.pure _)
    cases r with
    | none => exact .pure _
    | some it' => exact ih

/-- Determining the fuel of a loop reads the metadata. -/
theorem preserves_fuel : Preserves (Unsaved F ps) (fuel : TreeM K Nat) :=
  .bind preserves_readMeta fun _ ↦ .pure _

/-- Moves fetch marked blocks only. -/
theorem preserves_next : Preserves (Unsaved F ps) (it.next : TreeM K _) := by
  refine .bind preserves_stepNext fun r ↦ ?_
  cases r with
  | none => exact .pure _
  | some it' => exact .bind preserves_fuel fun _ ↦ preserves_nextLoop _

private theorem preserves_stepPrev : Preserves (Unsaved F ps) (it.stepPrev : TreeM K _) :=
  .ite (.pure _) (.ite (.bind preserves_readNode fun _ ↦ .ite (.pure _)
    (.bind preserves_getNodeBlock fun _ ↦ .bind preserves_readNode fun _ ↦ .pure _)) (.pure _))

private theorem preserves_prevLoop (fuel : Nat) :
    Preserves (Unsaved F ps) (prevLoop fuel it : TreeM K _) := by
  induction fuel generalizing it with
  | zero => exact .throw _
  | succ fuel ih =>
    refine .bind preserves_stepPrev fun r ↦ ?_
    cases r with
    | none => exact .pure _
    | some it' => exact .bind preserves_removed fun _ ↦ .ite ih (.pure _)

theorem preserves_prev : Preserves (Unsaved F ps) (it.prev : TreeM K _) :=
  .bind preserves_fuel fun _ ↦ preserves_prevLoop _

theorem preserves_locate {flag : IterFlag} : Preserves (Unsaved F ps) (locate c key flag) := by
  unfold locate
  refine .bind preserves_getLeaf fun cur ↦ .bind preserves_readNode fun n ↦ .bind (.liftM _)
    fun lub ↦ .ite (.ite (.pure _) (.ite (.bind preserves_removed fun _ ↦
      .ite preserves_prev (.pure _)) (.pure _))) ?_
  refine .bind (.liftM _) fun res ↦ .bind preserves_removed fun removed ↦ ?_
  cases flag with
  | EXACT_KEY => exact .ite (.pure _) (.pure _)
  | KEY_OR_NEXT => exact .ite preserves_next (.pure _)
  | KEY_OR_PREV => exact .ite preserves_prev (.pure _)
  | AFTER_KEY => exact .ite preserves_next (.pure _)
  | BEFROE_KEY => exact preserves_prev

theorem preserves_first : Preserves (Unsaved F ps) (it.first : TreeM K _) :=
  .bind preserves_getFirstLeaf fun _ ↦ .bind preserves_readNode fun _ ↦ .ite (.pure _)
    (.bind preserves_removed fun _ ↦ .ite preserves_next (.pure _))

theorem preserves_last : Preserves (Unsaved F ps) (it.last : TreeM K _) :=
  .bind preserves_getLastLeaf fun _ ↦ .bind preserves_readNode fun _ ↦ .ite (.pure _)
    (.bind preserves_removed fun _ ↦ .ite preserves_prev (.pure _))

/-- A removal changes a node, so a marked one. -/
theorem preserves_remove : Preserves (Unsaved F ps) (it.remove : TreeM K Unit) :=
  preserves_modifyNode

theorem preserves_getKey : Preserves (Unsaved F ps) (it.getKey : TreeM K K) :=
  .bind preserves_readNode fun _ ↦ .liftM _

theorem preserves_getValue : Preserves (Unsaved F ps) (it.getValue c : TreeM K _) :=
  .bind preserves_readNode fun _ ↦ .bind (.liftM _) fun _ ↦
    .ite (.pure _) (BTree.preserves_getValue _)

end Iterator

namespace BTree

variable {K : Type} {c : Config K} {S : K → Prop} {t : BTree K} {E : Fault → Prop}
  {platform : Platform} {F : Nat → Page K}

/-- Destroying a tree before any other save, with every write succeeding, leaves its blocks in the
file, and opening the file gives the tree back. -/
theorem Valid.wp_reopen (hv : Valid c S t) (hu : Unsaved F [] t) (hp : platform.Reliable) :
    wp E openTree (fun r t' ↦ r = 1 ∧ Valid c S t' ∧ t'.page = t.page ∧ t'.root = t.root ∧
      Unsaved (t.destroy fun _ ↦ true) [] t') (unopened platform (t.destroy fun _ ↦ true)) := by
  obtain ⟨m, h, x, ht⟩ := hv.holds
  have hfile : t.destroy (fun _ ↦ true) = t.page := by
    funext i
    exact ht.heap.destroy (fun _ ↦ rfl) (hu.synced ht.heap) (fun _ ↦ rfl) i
  rw [hfile]
  have hopen : wp E openTree (fun r t' ↦ r = 1 ∧ Valid c S t' ∧ t'.page = t.page ∧
      t'.root = t.root) (unopened platform t.page) :=
    wp_openTree hp ht.image fun t' ht' hpage _ _ _ ↦
      ⟨rfl, ⟨⟨_, _, _, ht'⟩⟩, hpage, ht'.root.trans ht.root.symm⟩
  refine wp_mono (preserves_openTree.wp hopen (.unopened platform t.page)) fun r t' h ↦ ?_
  obtain ⟨⟨rfl, hv', hpage, hroot⟩, hu'⟩ := h
  exact ⟨rfl, hv', hpage, hroot, hu'⟩

end BTree

end ExampleEngine.Index
