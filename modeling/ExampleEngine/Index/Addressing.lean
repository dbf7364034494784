import ExampleEngine.Index.Session

/-!
# Addresses in a growing file

Library `Index`. Runs in which a tree takes blocks into use, on a platform that may refuse
memory and fail to read. The positions of the blocks in use never meet, since block 2^19 is
out of reach. The size of the file wraps when a block is asked for while 2^19 are in use.
-/

namespace ExampleEngine.Index

open ExampleEngine.Base ExampleEngine.Storage

namespace BTree

variable {K : Type} {c : Config K} {t t' : BTree K} {m : BTreeMetadata} {E : Fault → Prop}

/-- `countOfBlock` of the metadata block. -/
def inUse (t : BTree K) : Nat :=
  match t.page 0 with
  | .metadata m => m.countOfBlock
  | _ => 0

/-- `numberOfBlock` of the metadata block. -/
def room (t : BTree K) : Nat :=
  match t.page 0 with
  | .metadata m => m.numberOfBlock
  | _ => 0

/-- The blocks of a file do not alias: those in use take disjoint ranges of bytes, writing one
does not change what is read of another, and the size of the file covers all of them. -/
structure Addressed (t : BTree K) : Prop where
  disjoint : ∀ i < t.inUse, ∀ j < t.inUse, i ≠ j →
    blockPosition i + BLOCK_SIZE ≤ blockPosition j ∨
      blockPosition j + BLOCK_SIZE ≤ blockPosition i
  unaliased : ∀ i < t.inUse, ∀ j < t.inUse, i ≠ j →
    ∀ (writable : Nat → Bool) (page : Page K) (b b' : BufferManager K),
      b.writeBlock writable page i = some b' → b'.readBlock j = b.readBlock j
  covered : ∀ i < t.room, blockPosition i + BLOCK_SIZE ≤ resizeSize t.room

/-- The metadata are pinned, and only blocks in use are in the pool. -/
structure Counted (t : BTree K) (m : BTreeMetadata) : Prop where
  metadata : t.page 0 = .metadata m
  pinned : t.buffer.Pooled 0
  pooled : ∀ i, t.buffer.Pooled i → i < m.countOfBlock

/-- The metadata after `growFile`. -/
def grown (m : BTreeMetadata) : BTreeMetadata :=
  if m.numberOfBlock = m.countOfBlock then
    { m with numberOfBlock := m.numberOfBlock * 2 % 2 ^ 32 }
  else m

@[simp] theorem countOfBlock_grown (m : BTreeMetadata) :
    (grown m).countOfBlock = m.countOfBlock := by
  unfold grown
  split <;> rfl

namespace Counted

theorem inUse (h : Counted t m) : t.inUse = m.countOfBlock := by
  rw [BTree.inUse, h.metadata]

theorem room (h : Counted t m) : t.room = m.numberOfBlock := by
  rw [BTree.room, h.metadata]

theorem wp_readMeta (h : Counted t m) (Q : BTreeMetadata → BTree K → Prop) :
    wp E readMeta Q t ↔ Q m t := by
  unfold readMeta
  simp only [wp_bind, wp_deref h.pinned, h.metadata, wp_pure]

/-- Writing the metadata. -/
theorem write (h : Counted t m) {m' : BTreeMetadata}
    (hc : ∀ i, t.buffer.Pooled i → i < m'.countOfBlock) :
    Counted (t.write 0 (.metadata m')) m' where
  metadata := by rw [page_write h.pinned, Function.update_self]
  pinned := (pooled_write _).mpr h.pinned
  pooled i hi := hc i ((pooled_write _).mp hi)

/-- `growFile` on any platform. -/
theorem wp_growFile (h : Counted t m) {Q : Unit → BTree K → Prop}
    (hQ : ∀ t', Counted t' (grown m) → t'.buffer.platform = t.buffer.platform →
      (∀ i, t'.buffer.Pooled i ↔ t.buffer.Pooled i) → Q () t') : wp E growFile Q t := by
  unfold growFile
  simp only [wp_bind, h.wp_readMeta]
  unfold grown at hQ
  split
  · next hfull =>
    rw [if_pos hfull] at hQ
    rw [wp_writeMeta]
    exact hQ _ (h.write h.pooled) rfl fun i ↦ pooled_write _
  · next hfull =>
    rw [if_neg hfull] at hQ
    exact hQ t h rfl fun _ ↦ Iff.rfl

/-- Fetching the next block on any platform. -/
private theorem wp_getNext (h : Counted t m) (hle : m.countOfBlock ≤ 2 ^ 19) {flag : Nat}
    {Q : Option Nat → BTree K → Prop}
    (hE : t.buffer.platform.alloc m.countOfBlock = true →
      ¬ (m.countOfBlock < 2 ^ 19 ∧ t.buffer.platform.readable m.countOfBlock = true) →
      E (.unreadable m.countOfBlock))
    (hnone : t.buffer.platform.alloc m.countOfBlock = false → Q none t)
    (hQ : m.countOfBlock < 2 ^ 19 → ∀ b, t.buffer.Fetched b m.countOfBlock flag →
      Q (some m.countOfBlock) { t with buffer := b }) :
    wp E (onBuffer (BufferManager.getBlock m.countOfBlock flag)) Q t := by
  rw [wp_onBuffer]
  exact BufferManager.wp_getBlock_absent (fun hp ↦ Nat.lt_irrefl _ (h.pooled _ hp)) hle hnone hQ hE

/-- Storing the page of the next block and counting it. -/
private theorem taken (h : Counted t m) {b : BufferManager K} {flag : Nat}
    (hb : t.buffer.Fetched b m.countOfBlock flag) (hlt : m.countOfBlock < 2 ^ 19) (p : Page K) :
    Counted ((BTree.write { t with buffer := b } m.countOfBlock p).write 0
        (.metadata { m with countOfBlock := (m.countOfBlock + 1) % 2 ^ 32 }))
      { m with countOfBlock := m.countOfBlock + 1 } := by
  have hmod : (m.countOfBlock + 1) % 2 ^ 32 = m.countOfBlock + 1 := Nat.mod_eq_of_lt (by omega)
  have h0 : b.Pooled 0 := (hb.pooled 0).mpr (.inl h.pinned)
  have hw : (BTree.write { t with buffer := b } m.countOfBlock p).buffer.Pooled 0 :=
    (pooled_write _).mpr h0
  constructor
  · rw [page_write hw, Function.update_self, hmod]
  · exact (pooled_write _).mpr hw
  · intro i hi
    have hi' : b.Pooled i := (pooled_write _).mp ((pooled_write _).mp hi)
    change i < m.countOfBlock + 1
    rcases (hb.pooled i).mp hi' with hi | rfl
    · have := h.pooled i hi
      omega
    · omega

/-- `getFreeDataBlock` on any platform. -/
theorem wp_getFreeDataBlock (h : Counted t m) (hle : m.countOfBlock ≤ 2 ^ 19)
    {Q : Option Nat → BTree K → Prop}
    (hE : t.buffer.platform.alloc m.countOfBlock = true →
      ¬ (m.countOfBlock < 2 ^ 19 ∧ t.buffer.platform.readable m.countOfBlock = true) →
      E (.unreadable m.countOfBlock))
    (hnone : t.buffer.platform.alloc m.countOfBlock = false → ∀ t', Counted t' (grown m) →
      Q none t')
    (hsome : m.countOfBlock < 2 ^ 19 → ∀ t',
      Counted t' { grown m with countOfBlock := m.countOfBlock + 1 } →
      t'.buffer.platform = t.buffer.platform → Q (some m.countOfBlock) t') :
    wp E getFreeDataBlock Q t := by
  unfold getFreeDataBlock
  rw [wp_bind]
  refine h.wp_growFile fun t₁ h₁ hplat hpool ↦ ?_
  simp only [wp_bind, h₁.wp_readMeta]
  refine h₁.wp_getNext (by rwa [countOfBlock_grown]) (by rwa [countOfBlock_grown, hplat]) ?_ ?_
  · rw [countOfBlock_grown, hplat]
    intro ha
    exact hnone ha t₁ h₁
  · intro hlt b hb
    rw [countOfBlock_grown] at hlt hb
    have htaken := h₁.taken (by rwa [countOfBlock_grown]) (by rwa [countOfBlock_grown])
    simp only [countOfBlock_grown] at htaken ⊢
    have hp : b.Pooled m.countOfBlock := (hb.pooled _).mpr (.inr rfl)
    simp only [wp_bind]
    rw [wp_deref (t := { t₁ with buffer := b }) hp, wp_store, wp_writeMeta, wp_pure]
    exact hsome hlt _ (htaken _) (hb.later.platform.trans hplat)

/-- `getFreeNodeBlock` on any platform; its assertion reads a block that was refused. -/
theorem wp_getFreeNodeBlock (h : Counted t m) (hle : m.countOfBlock ≤ 2 ^ 19)
    {type : BlockType} {keySize valueSize : Nat} {Q : Option Nat → BTree K → Prop}
    (hE : ∀ e, E e)
    (hsome : m.countOfBlock < 2 ^ 19 → ∀ t',
      Counted t' { grown m with countOfBlock := m.countOfBlock + 1 } →
      Q (some m.countOfBlock) t') :
    wp E (getFreeNodeBlock type keySize valueSize) Q t := by
  unfold getFreeNodeBlock
  rw [wp_bind]
  refine h.wp_growFile fun t₁ h₁ hplat hpool ↦ ?_
  simp only [wp_bind, h₁.wp_readMeta]
  refine h₁.wp_getNext (by rwa [countOfBlock_grown]) (fun _ _ ↦ hE _) (fun _ ↦ hE _) ?_
  intro hlt b hb
  rw [countOfBlock_grown] at hlt hb
  have htaken := h₁.taken (by rwa [countOfBlock_grown]) (by rwa [countOfBlock_grown])
  have hframe := hb.fresh fun hp ↦ by
    have := h₁.pooled _ hp
    rw [countOfBlock_grown] at this
    exact Nat.lt_irrefl _ this
  simp only [countOfBlock_grown] at htaken ⊢
  have hp : b.Pooled m.countOfBlock := (hb.pooled _).mpr (.inr rfl)
  unfold reserved
  simp only [wp_bind, wp_get, hframe, wp_pure, if_true]
  rw [wp_deref (t := { t₁ with buffer := b }) hp, wp_store, wp_writeMeta]
  exact hsome hlt _ (htaken _)

end Counted

/-- Opening a file just created, on any platform. -/
theorem counted_openTree {platform : Platform} {file : Nat → Page K}
    (h : openTree.run (unopened platform (create c file)) = .ok (1, t)) :
    Counted t freshMetadata ∧ t.buffer.platform = platform := by
  have h0 : create c file 0 = .metadata freshMetadata := by
    unfold create
    rw [Function.update_self]
    rfl
  have hnot : ∀ i, ¬ BufferManager.Pooled (⟨platform, create c file, []⟩ : BufferManager K) i := by
    intro i
    simp [BufferManager.Pooled, BufferManager.frame]
  suffices hwp : wp (fun _ ↦ True) openTree
      (fun r t ↦ r = 1 → Counted t freshMetadata ∧ t.buffer.platform = platform)
      (unopened platform (create c file)) from wp_ok hwp h rfl
  unfold openTree
  rw [wp_bind, wp_onBuffer]
  refine BufferManager.wp_getBlock_absent (hnot 0) (by decide) (fun _ ↦ ?_) (fun _ b hb ↦ ?_)
    fun _ _ ↦ trivial
  · rw [wp_pure]
    intro h01
    cases h01
  · have hview : BTree.page (⟨0, b⟩ : BTree K) = create c file := hb.view
    have hh : Counted (⟨0, b⟩ : BTree K) freshMetadata := by
      constructor
      · rw [hview, h0]
      · exact (hb.pooled 0).mpr (.inr rfl)
      · intro i hi
        rcases (hb.pooled i).mp hi with hi | rfl
        · exact absurd hi (hnot i)
        · decide
    change wp _ _ _ (⟨0, b⟩ : BTree K)
    simp only [wp_bind, hh.wp_readMeta]
    unfold getNodeBlock
    simp only [wp_bind, hh.wp_readMeta]
    rw [if_pos (by decide), wp_onBuffer]
    have hn1 : ¬ b.Pooled freshMetadata.root := fun hp ↦ by
      have := (hb.pooled _).mp hp
      exact this.elim (hnot 1) (by decide)
    refine BufferManager.wp_getBlock_absent hn1 (by decide) (fun _ ↦ ?_) (fun _ b' hb' ↦ ?_)
      fun _ _ ↦ trivial
    · rw [wp_pure]
      intro h01
      cases h01
    · have h1 : create c file 1 = .node ⟨⟨.leaf, 1, 0, 0⟩, c.keySize, c.leafValueSize, []⟩ := by
        unfold create
        rw [Function.update_of_ne (by decide), Function.update_self]
        rfl
      have hview' : BTree.page (⟨0, b'⟩ : BTree K) = create c file := hb'.view.trans hview
      have hp1 : b'.Pooled freshMetadata.root := (hb'.pooled _).mpr (.inr rfl)
      change wp _ _ _ (⟨0, b'⟩ : BTree K)
      simp only [wp_bind]
      rw [wp_readNode (t := (⟨0, b'⟩ : BTree K)) hp1 (by rw [hview']; exact h1), wp_modify,
        wp_pure]
      intro _
      refine ⟨⟨?_, ?_, ?_⟩, hb'.later.platform.trans hb.later.platform⟩
      · change b'.view 0 = _
        rw [hb'.view, hb.view]
        exact h0
      · exact (hb'.pooled 0).mpr (.inl hh.pinned)
      · intro i hi
        rcases (hb'.pooled i).mp hi with hi | rfl
        · exact hh.pooled i hi
        · decide

end BTree

open BTree

/-- The trees that taking blocks into use leads to, from a created file, on a platform that may
refuse memory and fail to read, and whether a block was asked for while 2^19 were in use.
Other work in between keeps the metadata and fetches blocks in use only. -/
inductive Growing {K : Type} (c : Config K) (platform : Platform) (file : Nat → Page K) :
    Bool → BTree K → Prop
  | opened (t : BTree K)
      (h : openTree.run (BTree.unopened platform (BTree.create c file)) = .ok (1, t)) :
      Growing c platform file false t
  | node (full : Bool) (t t' : BTree K) (type : BlockType) (keySize valueSize : Nat)
      (r : Option Nat) (hg : Growing c platform file full t)
      (h : (getFreeNodeBlock type keySize valueSize).run t = .ok (r, t')) :
      Growing c platform file (full || t.inUse == 2 ^ 19) t'
  | data (full : Bool) (t t' : BTree K) (r : Option Nat) (hg : Growing c platform file full t)
      (h : getFreeDataBlock.run t = .ok (r, t')) :
      Growing c platform file (full || t.inUse == 2 ^ 19) t'
  | other (full : Bool) (t t' : BTree K) (hg : Growing c platform file full t)
      (h0 : t'.page 0 = t.page 0) (hpin : t'.buffer.Pooled 0)
      (hpool : ∀ i, t'.buffer.Pooled i → i < t.inUse) : Growing c platform file full t'

namespace Growing

variable {K : Type} {c : Config K} {platform : Platform} {file : Nat → Page K} {full : Bool}
  {t t' : BTree K}

/-- The counts of a growing tree: the room was doubled until it held the blocks in use, and it
exceeds 2^19 only after all of that were in use. -/
structure Counts (full : Bool) (m : BTreeMetadata) : Prop where
  inUse_le : m.countOfBlock ≤ 2 ^ 19
  inUse_room : m.countOfBlock ≤ m.numberOfBlock
  doubled : ∃ k, m.numberOfBlock = 32 * 2 ^ k
  low : full = false → m.numberOfBlock ≤ 2 ^ 19
  high : full = true → m.numberOfBlock = 2 ^ 20 ∧ m.countOfBlock = 2 ^ 19

/-- Making room for a block keeps the counts. -/
theorem Counts.grown {m : BTreeMetadata} (h : Counts full m) :
    Counts (full || m.countOfBlock == 2 ^ 19) (BTree.grown m) := by
  have hle := h.inUse_le
  obtain ⟨k, hk⟩ := h.doubled
  unfold BTree.grown
  by_cases hfull : m.numberOfBlock = m.countOfBlock
  · have hmod : m.numberOfBlock * 2 % 2 ^ 32 = m.numberOfBlock * 2 := Nat.mod_eq_of_lt (by omega)
    have hnot : full = false := by
      cases full with
      | false => rfl
      | true =>
        have := h.high rfl
        omega
    rw [if_pos hfull, hmod]
    refine ⟨hle, ?_, ⟨k + 1, ?_⟩, ?_, ?_⟩
    · change m.countOfBlock ≤ m.numberOfBlock * 2
      omega
    · change m.numberOfBlock * 2 = _
      rw [hk, Nat.pow_succ]
      omega
    · intro hlow
      change m.numberOfBlock * 2 ≤ 2 ^ 19
      simp only [Bool.or_eq_false_iff, beq_eq_false_iff_ne] at hlow
      have hlt : 2 ^ (5 + k) < 2 ^ 19 := by
        rw [Nat.pow_add]
        omega
      have hk' : 5 + k < 19 := (Nat.pow_lt_pow_iff_right (by decide)).mp hlt
      have hle' : 2 ^ (5 + k) ≤ 2 ^ 18 := Nat.pow_le_pow_right (by decide) (by omega)
      rw [Nat.pow_add] at hle'
      omega
    · intro hhigh
      simp only [hnot, Bool.false_or, beq_iff_eq] at hhigh
      exact ⟨by change m.numberOfBlock * 2 = _; omega, hhigh⟩
  · rw [if_neg hfull]
    refine ⟨hle, h.inUse_room, ⟨k, hk⟩, ?_, ?_⟩
    · intro hlow
      exact h.low (Bool.or_eq_false_iff.mp hlow).1
    · intro hhigh
      cases hf : full with
      | true => exact h.high hf
      | false =>
        simp only [hf, Bool.false_or, beq_iff_eq] at hhigh
        have := h.low hf
        have := h.inUse_room
        omega

/-- Taking a block into use keeps the counts. -/
theorem Counts.taken {m : BTreeMetadata} (h : Counts full m) (hlt : m.countOfBlock < 2 ^ 19) :
    Counts (full || m.countOfBlock == 2 ^ 19)
      { BTree.grown m with countOfBlock := m.countOfBlock + 1 } := by
  have hg := h.grown
  have hroom : m.countOfBlock < (BTree.grown m).numberOfBlock := by
    have := h.inUse_room
    unfold BTree.grown
    split
    · obtain ⟨k, hk⟩ := h.doubled
      have hpow := Nat.two_pow_pos k
      change m.countOfBlock < m.numberOfBlock * 2 % 2 ^ 32
      omega
    · omega
  refine ⟨hlt, hroom, hg.doubled, hg.low, ?_⟩
  intro hhigh
  have := (hg.high hhigh).2
  rw [countOfBlock_grown] at this
  omega

/-- The invariant of a growing tree. -/
theorem counted (h : Growing c platform file full t) : ∃ m, Counted t m ∧ Counts full m := by
  induction h with
  | opened t h =>
    exact ⟨_, (counted_openTree h).1, by decide, by decide, ⟨0, rfl⟩, by decide, by decide⟩
  | node full t t' type keySize valueSize r hg h ih =>
    obtain ⟨m, hm, hc⟩ := ih
    rw [hm.inUse]
    have hwp : wp (fun _ ↦ True) (getFreeNodeBlock type keySize valueSize)
        (fun _ t' ↦ ∃ m', Counted t' m' ∧ Counts (full || m.countOfBlock == 2 ^ 19) m') t :=
      hm.wp_getFreeNodeBlock hc.inUse_le (fun _ ↦ trivial)
        fun hlt t' ht' ↦ ⟨_, ht', hc.taken hlt⟩
    exact wp_ok hwp h
  | data full t t' r hg h ih =>
    obtain ⟨m, hm, hc⟩ := ih
    rw [hm.inUse]
    have hwp : wp (fun _ ↦ True) getFreeDataBlock
        (fun _ t' ↦ ∃ m', Counted t' m' ∧ Counts (full || m.countOfBlock == 2 ^ 19) m') t :=
      hm.wp_getFreeDataBlock hc.inUse_le (fun _ _ ↦ trivial)
        (fun _ t' ht' ↦ ⟨_, ht', hc.grown⟩) fun hlt t' ht' _ ↦ ⟨_, ht', hc.taken hlt⟩
    exact wp_ok hwp h
  | other full t t' hg h0 hpin hpool ih =>
    obtain ⟨m, hm, hc⟩ := ih
    rw [hm.inUse] at hpool
    exact ⟨m, ⟨h0.trans hm.metadata, hpin, hpool⟩, hc⟩

private theorem blockPosition_eq {i : Nat} (hi : i < 2 ^ 19) :
    blockPosition i = i * BLOCK_SIZE := by
  simp only [blockPosition, BLOCK_SIZE]
  omega

/-- The blocks in use are addressed without wrapping. -/
theorem blockPosition_inUse (h : Growing c platform file full t) {i : Nat} (hi : i < t.inUse) :
    blockPosition i = i * BLOCK_SIZE ∧ i < 2 ^ 19 := by
  obtain ⟨m, hm, hc⟩ := h.counted
  rw [hm.inUse] at hi
  have hlt : i < 2 ^ 19 := Nat.lt_of_lt_of_le hi hc.inUse_le
  exact ⟨blockPosition_eq hlt, hlt⟩

/-- In every run, two blocks in use take disjoint ranges of bytes. -/
theorem disjoint (h : Growing c platform file full t) {i j : Nat} (hi : i < t.inUse)
    (hj : j < t.inUse) (hij : i ≠ j) :
    blockPosition i + BLOCK_SIZE ≤ blockPosition j ∨
      blockPosition j + BLOCK_SIZE ≤ blockPosition i := by
  rw [(h.blockPosition_inUse hi).1, (h.blockPosition_inUse hj).1]
  simp only [BLOCK_SIZE]
  omega

/-- In every run, writing a block in use does not change what is read of another. -/
theorem unaliased (h : Growing c platform file full t) {i j : Nat} (hi : i < t.inUse)
    (hj : j < t.inUse) (hij : i ≠ j) {writable : Nat → Bool} {page : Page K}
    {b b' : BufferManager K} (hw : b.writeBlock writable page i = some b') :
    b'.readBlock j = b.readBlock j := by
  have hpi := (BufferManager.position_of_lt (h.blockPosition_inUse hi).2).2
  have hpj := (BufferManager.position_of_lt (h.blockPosition_inUse hj).2).2
  unfold BufferManager.writeBlock at hw
  rw [hpi] at hw
  split at hw
  · cases hw
    unfold BufferManager.readBlock
    simp only [hpj, Function.update_of_ne hij.symm]
  · cases hw

/-- The blocks of a growing file do not alias exactly when none was asked for while 2^19 were
in use; then the size of the file wraps to zero. -/
theorem addressed_iff (h : Growing c platform file full t) : t.Addressed ↔ full = false := by
  obtain ⟨m, hm, hc⟩ := h.counted
  constructor
  · intro ha
    cases hf : full with
    | false => rfl
    | true =>
      have hcov := ha.covered 0
      rw [hm.room, (hc.high hf).1] at hcov
      exact absurd (hcov (by decide)) (by decide)
  · intro hf
    refine ⟨fun i hi j hj hij ↦ h.disjoint hi hj hij,
      fun i hi j hj hij _ _ _ _ hw ↦ h.unaliased hi hj hij hw, ?_⟩
    have hlow := hc.low hf
    rw [hm.room]
    intro i hi
    rw [blockPosition_eq (by omega)]
    simp only [resizeSize, BLOCK_SIZE]
    omega

section Tight

/-- A platform that refuses memory for the first block past 2 GiB. -/
def tight : Platform := ⟨fun i ↦ i < 2 ^ 19, fun _ ↦ true, id, List.Perm.refl⟩

/-- The tree just created on it. -/
def tightTree : BTree Nat :=
  match BTree.openTree.run (BTree.unopened tight (BTree.create narrow blank)) with
  | .ok (_, t) => t
  | .error _ => BTree.unopened tight blank

private theorem growing_tightTree : Growing narrow tight blank false tightTree :=
  .opened tightTree rfl

/-- The blocks of the tree just created do not alias. -/
theorem addressed_tightTree : tightTree.Addressed :=
  (growing_tightTree.addressed_iff).mpr rfl

private theorem grows_to (n : Nat) (hn : n + 2 ≤ 2 ^ 19) :
    ∃ t, Growing narrow tight blank false t ∧ t.inUse = n + 2 ∧ t.buffer.platform = tight := by
  induction n with
  | zero => exact ⟨tightTree, growing_tightTree, rfl, rfl⟩
  | succ n ih =>
    obtain ⟨t, hg, hn', hp⟩ := ih (by omega)
    obtain ⟨m, hm, hc⟩ := hg.counted
    rw [hm.inUse] at hn'
    have halloc : t.buffer.platform.alloc m.countOfBlock = true := by
      rw [hp]
      exact decide_eq_true (by omega)
    have hwp : wp (fun _ ↦ False) getFreeDataBlock
        (fun _ t' ↦ t'.inUse = n + 1 + 2 ∧ t'.buffer.platform = tight) t := by
      refine hm.wp_getFreeDataBlock hc.inUse_le (fun _ hE ↦ ?_) (fun ha ↦ ?_) fun _ t' ht' hp' ↦ ?_
      · exact hE ⟨by omega, by rw [hp]; rfl⟩
      · rw [halloc] at ha
        cases ha
      · refine ⟨?_, hp'.trans hp⟩
        rw [ht'.inUse]
        change m.countOfBlock + 1 = _
        omega
    obtain ⟨r, t', hrun, hq⟩ := exists_run hwp
    have hg' := hg.data _ t t' r hrun
    have hne : (false || t.inUse == 2 ^ 19) = false := by
      rw [hm.inUse, Bool.false_or, beq_eq_false_iff_ne]
      omega
    rw [hne] at hg'
    exact ⟨t', hg', hq⟩

/-- When 2^19 blocks are in use and the memory for another is refused, the tree has room for
2^20 blocks in a file whose size was computed as zero. -/
theorem resize_wraps :
    ∃ full t, Growing narrow tight blank full t ∧ t.room = 2 ^ 20 ∧ resizeSize t.room = 0 ∧
      ¬ t.Addressed := by
  obtain ⟨t, hg, hn, hp⟩ := grows_to (2 ^ 19 - 2) (by decide)
  obtain ⟨m, hm, hc⟩ := hg.counted
  have hcount : m.countOfBlock = 2 ^ 19 := by
    rw [hm.inUse] at hn
    omega
  have hwp : wp (fun _ ↦ False) getFreeDataBlock (fun _ _ ↦ True) t := by
    refine hm.wp_getFreeDataBlock hc.inUse_le (fun ha ↦ ?_) (fun _ _ _ ↦ trivial)
      fun _ _ _ _ ↦ trivial
    rw [hp, hcount] at ha
    exact absurd ha (by decide)
  obtain ⟨r, t', hrun, _⟩ := exists_run hwp
  have hg' := hg.data _ t t' r hrun
  have hfull : (false || t.inUse == 2 ^ 19) = true := by
    rw [hm.inUse, hcount, Bool.false_or, beq_self_eq_true]
  rw [hfull] at hg'
  obtain ⟨m', hm', hc'⟩ := hg'.counted
  have hroom : t'.room = 2 ^ 20 := hm'.room.trans (hc'.high rfl).1
  refine ⟨true, t', hg', hroom, by rw [hroom]; rfl, fun ha ↦ ?_⟩
  have hcov := ha.covered 0
  rw [hroom] at hcov
  exact absurd (hcov (by decide)) (by decide)

end Tight

end Growing

end ExampleEngine.Index
