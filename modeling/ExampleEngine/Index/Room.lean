import ExampleEngine.Index.Refusals

/-!
# The room an insertion takes

Library `Index`. The blocks that `BTree::put` of `src/lib/btree.cpp:495–620` asks for are known
before the call, and so is whether it finds room below 2 GiB and whether it grows the file from
2^18 blocks. There `MyFile::resize` of `src/lib/file.cpp:63–66` computes a size of 2 GiB, which
`SetFilePointer` takes for a negative one and refuses with a result other than zero, so that
`SetEndOfFile` cuts the file at the block that was read or written last.
-/

namespace ExampleEngine.Index

open ExampleEngine.Base ExampleEngine.Storage

namespace BTree

variable {K : Type} {c : Config K} {S : K → Prop} {t : BTree K} {m : BTreeMetadata} {h : Nat}
  {x : LTree (Slot K) h} {key : K} {value : List UInt8}

/-- Every block that `put` asks for can be sought. -/
def Fits (c : Config K) (key : K) (value : List UInt8) (t : BTree K) : Prop :=
  ∀ f ∈ fetches c key value t, seekable f.index = true

/-- Every block that `put` asks for is one of the first 2^18, so that it does not grow the file
past them. -/
def Within (c : Config K) (key : K) (value : List UInt8) (t : BTree K) : Prop :=
  ∀ f ∈ fetches c key value t, f.index < 2 ^ 18

/-- `put` takes block 2^18 into use and grows the file from 2^18 blocks. -/
def Cuts (c : Config K) (key : K) (value : List UInt8) (t : BTree K) : Prop :=
  t.blocks ≤ 2 ^ 18 ∧ ∃ f ∈ fetches c key value t, f.index = 2 ^ 18

/-- The file is cut only while every block in use is in the pool under a dirty mark, so that
nothing is read from the file again before it is written. -/
def Spared (c : Config K) (t : BTree K) : Call K → Prop
  | .put key value => Cuts c key value t → ∀ i < t.blocks, t.buffer.Dirty i
  | _ => True

/-- Below 2^18 blocks nothing is cut. -/
theorem Within.not_cuts (hw : Within c key value t) : ¬ Cuts c key value t := by
  rintro ⟨_, f, hf, heq⟩
  have := hw f hf
  omega

/-- Nor is room missing. -/
theorem Within.fits (hw : Within c key value t) : Fits c key value t := fun f hf ↦
  (BufferManager.position_of_lt (by have := hw f hf; omega)).1

/-- A pooled block can be sought. -/
private theorem Heap.seekable_of_pooled (hh : Heap t m) {i : Nat} (hi : t.buffer.Pooled i) :
    seekable i = true :=
  (BufferManager.position_of_lt (hh.lt_of_pooled i hi)).1

/-- On a reliable platform a block is obtained exactly when it can be sought. -/
private theorem Heap.obtains_iff_seekable (hh : Heap t m) {i : Nat} :
    obtains t.buffer.platform t i = true ↔ seekable i = true := by
  rw [obtains_iff]
  constructor
  · rintro (hi | ⟨_, hi, _⟩)
    · exact hh.seekable_of_pooled hi
    · exact hi
  · exact fun hi ↦ .inr ⟨hh.reliable.alloc i, hi, hh.reliable.readable _⟩

/-- On a reliable platform no block is refused. -/
private theorem fate_ne_refused {p : Platform} (hp : p.Reliable) (l : List Fetch) :
    fate p t l ≠ .refused := by
  induction l with
  | nil => simp [fate]
  | cons f l ih =>
    rw [fate]
    split
    · exact ih
    · simp [hp.alloc]

/-- On a reliable platform `put` obtains its blocks exactly where each of them can be sought. -/
private theorem Holds.fits_iff (ht : Holds c S t m h x) : Fits c key value t ↔
    fate t.buffer.platform t (fetches c key value t) = .served := by
  rw [fate_served]
  exact forall₂_congr fun f _ ↦ ht.heap.obtains_iff_seekable.symm

/-- `put` returns exactly where every block that it asks for can be sought. -/
theorem Holds.put_returns_iff (ht : Holds c S t m h x) (hwide : c.Wide)
    (hcmp : Comparison c.cmp S) (hk : S key) :
    (∃ r t', (put c key value).run t = .ok (r, t')) ↔ Fits c key value t := by
  have hrel := ht.heap.reliable
  have hasks := ht.asks_put t.buffer.platform value hwide hcmp hk
  rw [ht.fits_iff]
  constructor
  · rintro ⟨r, t', hrun⟩
    cases hfate : fate t.buffer.platform t (fetches c key value t) with
    | served => rfl
    | refused => exact absurd hfate (fate_ne_refused hrel _)
    | failed =>
      obtain ⟨e, he⟩ := hasks.failed hrel hfate
      have he : (put c key value).run t = .error e := he
      rw [hrun] at he
      cases he
  · intro hserved
    rcases hasks.served hrel hserved with ⟨r, t', hrun, _⟩ | ⟨hs, _⟩
    · exact ⟨r, t', hrun⟩
    · exact absurd hs (ht.not_stops value hwide hcmp hk)

/-- Where the blocks can be sought, `put` does not stop. -/
theorem Holds.wp_put_fits {E : Fault → Prop} {Q : Int → BTree K → Prop}
    (ht : Holds c S t m h x) (hwide : c.Wide) (hcmp : Comparison c.cmp S) (hk : S key)
    (hfits : Fits c key value t) (hput : wp Beyond (put c key value) Q t) :
    wp E (put c key value) Q t := by
  obtain ⟨r, t', hrun⟩ := (ht.put_returns_iff hwide hcmp hk).mpr hfits
  have hq := wp_ok hput hrun
  exact wp_of_run hrun hq

/-- An insertion that cuts the file leaves more than 2^18 blocks in use. -/
private theorem Holds.lt_of_cuts {r : Int} {t' : BTree K} (ht : Holds c S t m h x)
    (hwide : c.Wide) (hcmp : Comparison c.cmp S) (hk : S key) (hcuts : Cuts c key value t)
    (hrun : (put c key value).run t = .ok (r, t')) : 2 ^ 18 < t'.blocks := by
  obtain ⟨_, f, hf, heq⟩ := hcuts
  have hserved := ht.fits_iff.mp ((ht.put_returns_iff hwide hcmp hk).mp ⟨r, t', hrun⟩)
  have hasks := ht.asks_put t.buffer.platform value hwide hcmp hk
  rcases hasks.served ht.heap.reliable hserved with ⟨r₁, t₁, hrun₁, _, htook⟩ | ⟨hs, _⟩
  · rw [hrun] at hrun₁
    cases hrun₁
    have hpooled : t'.buffer.Pooled f.index := (htook.pooled _).mpr (.inr ⟨f, hf, rfl⟩)
    have hput : wp Beyond (put c key value) (fun _ t' ↦ ∃ m', Heap t' m') t := by
      refine wp_put hwide hcmp hk ht (covers_beyond _) fun _ _ ho ↦ ?_
      cases ho with
      | duplicate _ _ _ _ _ ht' => exact ⟨m, ht'.heap⟩
      | done _ _ m' _ _ _ ht' => exact ⟨m', ht'.heap⟩
      | failed _ _ m' ht' => exact ⟨m', ht'.heap⟩
    obtain ⟨m', hh⟩ := wp_ok hput hrun
    have := hh.pooled _ hpooled
    rw [hh.blocks_eq]
    omega
  · exact absurd hs (ht.not_stops value hwide hcmp hk)

end BTree

section Sessions

variable {K : Type} {c : Config K} {S : K → Prop} {G : BTree K → Call K → Prop} {t : BTree K}

/-- Calls that change neither keys nor values cut nothing. -/
theorem Call.ReadOnly.spared {call : Call K} (hro : call.ReadOnly) : t.Spared c call := by
  cases call with
  | put => exact hro.elim
  | _ => exact trivial

/-- A call gives no block back. -/
private theorem Sound.blocks_le {call : Call K} (hwide : c.Wide) (hcmp : Comparison c.cmp S)
    (hs : Sound c S UpToFlags t) (hk : call.Keyed S) (ha : call.Admissible t) :
    wp Beyond (call.perform c) (fun _ t' ↦ t.blocks ≤ t'.blocks) t := by
  obtain ⟨m, h, x, ht⟩ := hs.holds
  by_cases hro : call.ReadOnly
  · refine wp_mono (hs.wp_readOnly .refl hcmp (fun key flag heq ↦ ?_) ha hro)
      fun _ t' hread ↦ ?_
    · subst heq
      exact hk
    · rw [BTree.blocks, BTree.blocks, hread.2.1]
  · cases call with
    | put key value =>
      simp only [Call.perform, wp_bind, wp_pure]
      refine BTree.wp_put hwide hcmp hk ht (covers_beyond _) fun r t' ho ↦ ?_
      rw [ht.heap.blocks_eq]
      cases ho with
      | duplicate _ _ _ _ _ ht' => exact ht'.heap.blocks_eq.ge
      | done _ _ m' _ _ _ ht' _ hle => exact hle.trans ht'.heap.blocks_eq.ge
      | failed _ _ m' ht' _ hle => exact hle.trans ht'.heap.blocks_eq.ge
    | remove it =>
      obtain ⟨s, hst⟩ := ha
      refine hst.wp_remove ht fun t' x' i pre post hi hf ht' _ _ ↦ ?_
      rw [ht.heap.blocks_eq, ht'.heap.blocks_eq]
    | _ => exact absurd trivial hro

/-- A tree opened again has the blocks it had. -/
private theorem Sound.blocks_reopened {platform : Platform} (hs : Sound c S UpToFlags t)
    (hp : platform.Reliable) :
    wp Beyond BTree.openTree (fun _ t' ↦ t'.blocks = t.blocks)
      (BTree.unopened platform (t.destroy fun _ ↦ true)) := by
  obtain ⟨m, h, x, ht⟩ := hs.holds
  have hfile : ∀ i, UpToFlags (t.page i) (t.destroy (fun _ ↦ true) i) := fun i ↦
    (ht.heap.destroy .refl hs.synced (fun _ ↦ rfl) i).symm
  refine BTree.wp_openTree hp (ht.image.reflag hfile) fun t' ht' _ _ _ _ ↦ ?_
  rw [ht.heap.blocks_eq, ht'.heap.blocks_eq]

/-- A session that ends with at most 2^18 blocks in use has cut no file. -/
theorem Session.spared (hwide : c.Wide) (hcmp : Comparison c.cmp S)
    (hG : ∀ t call, G t call → call.Keyed S) (hs : Session c G t) (hsize : t.blocks ≤ 2 ^ 18) :
    Session c (fun t call ↦ G t call ∧ t.Spared c call) t := by
  induction hs with
  | created platform file t hp h => exact .created platform file t hp h
  | step t t' call hs ha hg h ih =>
    have hsound := hs.sound_of hwide hcmp hG
    have hle : t.blocks ≤ t'.blocks := by
      have := wp_ok (hsound.blocks_le hwide hcmp (hG t call hg) ha) h
      exact this
    refine (ih (hle.trans hsize)).step t t' call ha ⟨hg, ?_⟩ h
    cases call with
    | put key value =>
      -- a cut would leave too many blocks
      intro hcuts
      obtain ⟨m, h', x, ht⟩ := hsound.holds
      cases hrun : (BTree.put c key value).run t with
      | error e =>
        rw [Call.perform, StateT.run_bind, hrun] at h
        cases h
      | ok p =>
        rw [Call.perform, StateT.run_bind, hrun] at h
        cases h
        have := ht.lt_of_cuts hwide hcmp (hG _ _ hg) hcuts hrun
        omega
    | _ => exact trivial
  | reopened t t' platform hs hp h ih =>
    have hopen := (hs.sound_of hwide hcmp hG).blocks_reopened hp
    have hsame := wp_ok hopen h
    exact (ih (hsame.ge.trans hsize)).reopened t t' platform hp h

end Sessions

/-- In every reachable tree `put` of a key that is not live, with a value of a length that is
served, settles exactly where every block that it asks for can be sought, as in a roomy file. It
never settles when no data block has room for the value. -/
theorem put_settles {K : Type} {c : Config K} {t : BTree K} {key : K} (hwide : c.Wide)
    (hcmp : Comparison c.cmp fun _ ↦ True) (hc : c.isConstValueSize = false)
    (ht : Reachable c t) (hne : ∀ e ∈ t.live, c.cmp e.key key ≠ 0) (value : List UInt8) :
    (BTree.Servable value.length → (BTree.Settles c key value t ↔ BTree.Fits c key value t)) ∧
      (t.Roomy → BTree.Servable value.length → BTree.Fits c key value t) ∧
      (BTree.Settles c key value t → value.length ≤ maxValueSize ∨ 2 ^ 31 ≤ value.length) := by
  obtain ⟨m, h, x, hx⟩ := (ht.sound hwide hcmp).holds
  have hreturns : (∃ r t', (BTree.put c key value).run t = .ok (r, t')) ↔
      BTree.Fits c key value t := hx.put_returns_iff hwide hcmp trivial
  refine ⟨fun hs ↦ ⟨fun ⟨r, t', hrun, _⟩ ↦ hreturns.mp ⟨r, t', hrun⟩, fun hfits ↦ ?_⟩,
    fun hroom hs ↦ hreturns.mp (hx.returns_of_roomy hwide hcmp trivial hroom hs),
    fun hs ↦ hx.served hwide hcmp trivial hc hs⟩
  obtain ⟨r, t', hrun⟩ := hreturns.mpr hfits
  exact hx.settles hwide hcmp trivial hc hne hs hrun

/-- The three insertions that fill two leaves cut nothing. -/
theorem filledTree_spared {G : BTree Nat → Call Nat → Prop}
    (hG : ∀ t key value, G t (.put key value)) :
    Session narrow (fun t call ↦ G t call ∧ t.Spared narrow call) filledTree := by
  have hblocks : filledTree.blocks = 4 := by
    unfold filledTree
    rfl
  exact (filledTree_session hG).spared narrow_wide narrow_cmp (fun _ call _ ↦ call.keyed_true)
    (by omega)

section Records

/-- A first value of one byte. -/
theorem recordTree_put : BTree.Servable 1 ∧ BTree.Fits records 1 [7] recordTree ∧
    BTree.Settles records 1 [7] recordTree := by
  have hs : BTree.Servable 1 := .inl (by decide)
  have hfits : BTree.Fits records 1 [7] recordTree := by
    unfold BTree.Fits
    decide
  exact ⟨hs, hfits, ((put_settles records_wide records_cmp rfl recordTree_reachable
    recordTree_live [7]).1 hs).mpr hfits⟩

/-- A value of the free size of a fresh block is passed on without end. -/
theorem long_value_unsettled : ¬ ∀ t, Reachable records t → ∀ key,
    (∀ e ∈ t.live, records.cmp e.key key ≠ 0) → ∀ value, BTree.Settles records key value t := by
  intro hall
  have hs := hall recordTree recordTree_reachable 1 recordTree_live (List.replicate 4066 0)
  obtain ⟨m, h, x, hx⟩ := (recordTree_reachable.sound records_wide records_cmp).holds
  have hserved := hx.served records_wide records_cmp trivial rfl hs
  rw [List.length_replicate] at hserved
  unfold maxValueSize at hserved
  omega

end Records

end ExampleEngine.Index
