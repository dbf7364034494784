import ExampleEngine.Storage.Pool

/-!
# Writing back

Library `Storage`. `BufferManager::save` of `src/lib/buffer.cpp:25–38` changes the file and
the dirty marks and leaves the contents alone, wherever it stops. When it writes every block
the file holds the contents.
-/

namespace ExampleEngine.Storage

open ExampleEngine.Base

namespace BufferManager

variable {K : Type} {b b' b'' : BufferManager K} {i : Nat} {writable : Nat → Bool}

/-- What writing back leaves alone: the pages in the pool, the other blocks of the file, and
the agreement of clean blocks with the file. -/
structure Saved (b b' : BufferManager K) : Prop where
  platform : b'.platform = b.platform
  page : ∀ i, (b'.frame i).map Frame.page = (b.frame i).map Frame.page
  file : ∀ i, ¬ b.Pooled i → b'.file i = b.file i
  synced : ∀ R : Page K → Page K → Prop, (∀ p, R p p) → b.Synced R → b'.Synced R

namespace Saved

/-- Writing nothing back. -/
theorem refl (b : BufferManager K) : b.Saved b :=
  ⟨rfl, fun _ ↦ rfl, fun _ _ ↦ rfl, fun _ _ h ↦ h⟩

/-- The same blocks are in the pool. -/
theorem pooled (h : b.Saved b') (i : Nat) : b'.Pooled i ↔ b.Pooled i := by
  have := congrArg Option.isSome (h.page i)
  rw [Option.isSome_map, Option.isSome_map] at this
  unfold Pooled
  rw [this]

/-- The contents stay. -/
theorem view (h : b.Saved b') : b'.view = b.view := by
  ext i
  have hpage := h.page i
  have hfile := h.file i
  unfold BufferManager.view
  unfold Pooled at hfile
  cases hf : b.frame i with
  | none =>
    rw [hf, Option.map_none, Option.map_eq_none_iff] at hpage
    rw [hpage]
    exact hfile (by simp [hf])
  | some f =>
    rw [hf, Option.map_some] at hpage
    obtain ⟨f', hf', hp⟩ := Option.map_eq_some_iff.mp hpage
    rw [hf']
    exact hp

/-- Writing back composes. -/
theorem trans (h : b.Saved b') (h' : b'.Saved b'') : b.Saved b'' where
  platform := h'.platform.trans h.platform
  page i := (h'.page i).trans (h.page i)
  file i hi := (h'.file i (mt (h.pooled i).mp hi)).trans (h.file i hi)
  synced R hR hb := h'.synced R hR (h.synced R hR hb)

end Saved

/-- Setting a dirty mark writes nothing. -/
theorem saved_mark {n : Nat} (hn : n ≠ 0) :
    b.Saved (b.modifyFrame i fun f ↦ { f with reserved := n }) := by
  constructor
  · rfl
  · intro j
    rw [frame_modifyFrame]
    split
    · cases b.frame j <;> rfl
    · rfl
  · intro j _
    rfl
  · intro R _ hb j f hf hr
    rw [frame_modifyFrame] at hf
    split at hf
    · obtain ⟨g, _, rfl⟩ := Option.map_eq_some_iff.mp hf
      exact absurd hr hn
    · exact hb j f hf hr

/-- The block as `save` leaves it when its write succeeds. -/
private def written (b : BufferManager K) (i : Nat) (f : Frame K) : BufferManager K :=
  { b.modifyFrame i (fun f ↦ { f with reserved := 0 }) with
    file := Function.update b.file i f.page }

private theorem frame_written (f : Frame K) (j : Nat) :
    (b.written i f).frame j =
      if j = i then (b.frame j).map (fun f ↦ { f with reserved := 0 }) else b.frame j :=
  frame_modifyFrame b i j fun f ↦ { f with reserved := 0 }

private theorem saved_written {f : Frame K} (hf : b.frame i = some f) :
    b.Saved (b.written i f) := by
  constructor
  · rfl
  · intro j
    rw [frame_written]
    split
    · cases b.frame j <;> rfl
    · rfl
  · intro j hj
    refine Function.update_of_ne ?_ _ _
    rintro rfl
    exact hj (by simp [Pooled, hf])
  · intro R hR hb j g hg hr
    change R (Function.update b.file i f.page j) g.page
    rw [frame_written] at hg
    by_cases hj : j = i
    · subst hj
      rw [if_pos rfl, hf, Option.map_some, Option.some.injEq] at hg
      rw [Function.update_self, ← hg]
      exact hR _
    · rw [if_neg hj] at hg
      rw [Function.update_of_ne hj]
      exact hb j g hg hr

/-- A write to a block that the file can hold succeeds or changes nothing. -/
private theorem writeBlock_eq (f : Frame K) (hi : i < 2 ^ 19) :
    (b.modifyFrame i fun f ↦ { f with reserved := 0 }).writeBlock writable f.page i =
      if writable i then some (b.written i f) else none := by
  obtain ⟨hs, hpos⟩ := position_of_lt hi
  unfold writeBlock
  rw [hpos]
  simp only [hs, true_and]
  rfl

/-- The blocks that the loop of `save` writes. -/
def saveWrites (writable : Nat → Bool) : List Nat → BufferManager K → List Nat
  | [], _ => []
  | i :: rest, b =>
    match b.frame i with
    | none => saveWrites writable rest b
    | some f =>
      if f.reserved ≠ 0 then
        match (b.modifyFrame i fun f ↦ { f with reserved := 0 }).writeBlock writable f.page i with
        | some b' => i :: saveWrites writable rest b'
        | none => []
      else saveWrites writable rest b

/-- What the loop of `save` does with the blocks of a list: it leaves the contents alone, keeps
the marks of the blocks that it does not write, and cleans all of them when it succeeds, as it
does if every write succeeds. -/
structure Looped (writable : Nat → Bool) (l : List Nat) (b : BufferManager K) : Prop where
  saved : b.Saved (saveLoop writable l b).2
  kept : ∀ i, b.Dirty i → i ∉ saveWrites writable l b → (saveLoop writable l b).2.Dirty i
  clean : (saveLoop writable l b).1 = 1 →
    ∀ i, i ∈ l ∨ ¬ b.Dirty i → ¬ (saveLoop writable l b).2.Dirty i
  succeeds : (∀ i, writable i = true) → (saveLoop writable l b).1 = 1

/-- A block that need not be written is passed over. -/
private theorem looped_skip {l : List Nat} (h : Looped writable l b) (hi : ¬ b.Dirty i)
    (hloop : saveLoop writable (i :: l) b = saveLoop writable l b)
    (hwrites : saveWrites writable (i :: l) b = saveWrites writable l b) :
    Looped writable (i :: l) b := by
  constructor
  · rw [hloop]
    exact h.saved
  · rw [hloop, hwrites]
    exact h.kept
  · rw [hloop]
    intro h1 j hj
    apply h.clean h1
    rcases hj with hj | hj
    · rcases List.mem_cons.mp hj with rfl | hj
      · exact .inr hi
      · exact .inl hj
    · exact .inr hj
  · rw [hloop]
    exact h.succeeds

private theorem dirty_written {f : Frame K} (j : Nat) :
    (b.written i f).Dirty j ↔ j ≠ i ∧ b.Dirty j := by
  unfold Dirty
  rw [frame_written]
  by_cases hj : j = i
  · subst hj
    rw [if_pos rfl]
    constructor
    · rintro ⟨g, hg, hgr⟩
      obtain ⟨_, _, rfl⟩ := Option.map_eq_some_iff.mp hg
      exact absurd rfl hgr
    · rintro ⟨hne, _⟩
      exact absurd rfl hne
  · rw [if_neg hj]
    exact ⟨fun h ↦ ⟨hj, h⟩, fun h ↦ h.2⟩

private theorem saveLoop_spec (l : List Nat) (hlt : ∀ i, b.Pooled i → i < 2 ^ 19) :
    Looped writable l b := by
  induction l generalizing b with
  | nil =>
    refine ⟨.refl b, fun i hi _ ↦ hi, fun _ i hi ↦ ?_, fun _ ↦ rfl⟩
    exact hi.resolve_left List.not_mem_nil
  | cons i l ih =>
    cases hf : b.frame i with
    | none =>
      refine looped_skip (ih hlt) ?_ (by simp only [saveLoop, hf]) (by simp only [saveWrites, hf])
      rintro ⟨f, hf', _⟩
      rw [hf] at hf'
      cases hf'
    | some f =>
      have hi : i < 2 ^ 19 := hlt i (by simp [Pooled, hf])
      by_cases hr : f.reserved = 0
      · refine looped_skip (ih hlt) ?_ (by simp [saveLoop, hf, hr]) (by simp [saveWrites, hf, hr])
        rintro ⟨g, hg, hgr⟩
        rw [hf, Option.some.injEq] at hg
        exact hgr (hg ▸ hr)
      · cases hwi : writable i with
        | false =>
          have hloop : saveLoop writable (i :: l) b =
              (0, b.modifyFrame i fun f ↦ { f with reserved := 1 }) := by
            simp only [saveLoop, hf, hr, ne_eq, not_false_eq_true, if_true, writeBlock_eq f hi,
              hwi, Bool.false_eq_true, if_false]
          constructor
          · rw [hloop]
            exact saved_mark (by decide)
          · rw [hloop]
            rintro j ⟨g, hg, hgr⟩ _
            unfold Dirty
            rw [frame_modifyFrame, hg]
            split
            · exact ⟨_, rfl, Nat.one_ne_zero⟩
            · exact ⟨g, rfl, hgr⟩
          · rw [hloop]
            intro h1
            cases h1
          · intro hwr
            rw [hwr i] at hwi
            cases hwi
        | true =>
          have hloop : saveLoop writable (i :: l) b = saveLoop writable l (b.written i f) := by
            simp only [saveLoop, hf, hr, ne_eq, not_false_eq_true, if_true, writeBlock_eq f hi, hwi]
          have hwrites : saveWrites writable (i :: l) b =
              i :: saveWrites writable l (b.written i f) := by
            simp only [saveWrites, hf, hr, ne_eq, not_false_eq_true, if_true, writeBlock_eq f hi,
              hwi]
          have hs := saved_written hf
          have h := ih (b := b.written i f) fun j hj ↦ hlt j ((hs.pooled j).mp hj)
          constructor
          · rw [hloop]
            exact hs.trans h.saved
          · rw [hloop, hwrites]
            intro j hj hn
            have hne : j ≠ i := fun hji ↦ hn (hji ▸ List.mem_cons_self)
            exact h.kept j ((dirty_written j).mpr ⟨hne, hj⟩) fun hmem ↦
              hn (List.mem_cons_of_mem i hmem)
          · rw [hloop]
            intro h1 j hj
            apply h.clean h1
            by_cases hji : j = i
            · exact .inr fun hd ↦ ((dirty_written j).mp hd).1 hji
            · rcases hj with hj | hj
              · exact .inl (List.mem_of_ne_of_mem hji hj)
              · exact .inr fun hd ↦ hj ((dirty_written j).mp hd).2
          · rw [hloop]
            exact h.succeeds

/-- `save` leaves the contents alone. -/
theorem saved_save (writable : Nat → Bool) (hlt : ∀ i, b.Pooled i → i < 2 ^ 19) :
    b.Saved (b.save writable).2 :=
  (saveLoop_spec _ hlt).saved

private theorem mem_pool_of_frame {f : Frame K} (hf : b.frame i = some f) :
    i ∈ b.pool.map Prod.fst := by
  obtain ⟨l₁, l₂, hpool, _⟩ := List.lookup_eq_some_iff.mp hf
  simp [hpool]

/-- The blocks that `save` writes. -/
def saveWritten (b : BufferManager K) (writable : Nat → Bool) : List Nat :=
  saveWrites writable (b.platform.order (b.pool.map Prod.fst)) b

/-- A dirty block that `save` does not write stays dirty. -/
theorem dirty_save (hlt : ∀ i, b.Pooled i → i < 2 ^ 19) (hi : b.Dirty i)
    (hn : i ∉ b.saveWritten writable) : (b.save writable).2.Dirty i :=
  (saveLoop_spec _ hlt).kept i hi hn

/-- When `save` succeeds, no block is dirty afterwards. -/
theorem save_clean (hlt : ∀ i, b.Pooled i → i < 2 ^ 19) (h : (b.save writable).1 = 1) (i : Nat) :
    ¬ (b.save writable).2.Dirty i := by
  refine (saveLoop_spec (b.platform.order (b.pool.map Prod.fst)) hlt).clean h i ?_
  by_cases hd : b.Dirty i
  · obtain ⟨f, hf, _⟩ := hd
    exact .inl ((b.platform.order_perm _).mem_iff.mpr (mem_pool_of_frame hf))
  · exact .inr hd

/-- When every write succeeds, so does `save`, and no block is dirty afterwards. -/
theorem save_all (hlt : ∀ i, b.Pooled i → i < 2 ^ 19) (hw : ∀ i, writable i = true) :
    (b.save writable).1 = 1 ∧ ∀ i, ¬ (b.save writable).2.Dirty i := by
  have h1 := (saveLoop_spec (b.platform.order (b.pool.map Prod.fst)) hlt).succeeds hw
  exact ⟨h1, save_clean hlt h1⟩

/-- When every write succeeds, the file holds the contents, up to what it held of clean
blocks. -/
theorem file_save {R : Page K → Page K → Prop} (hR : ∀ p, R p p)
    (hlt : ∀ i, b.Pooled i → i < 2 ^ 19) (hs : b.Synced R) (hw : ∀ i, writable i = true)
    (i : Nat) : R ((b.save writable).2.file i) (b.view i) := by
  have hsaved := saved_save writable hlt
  rw [← hsaved.view]
  unfold view
  cases hf : (b.save writable).2.frame i with
  | none => exact hR _
  | some f =>
    refine hsaved.synced R hR hs i f hf ?_
    by_contra hr
    exact (save_all hlt hw).2 i ⟨f, hf, hr⟩

end BufferManager

end ExampleEngine.Storage
