import ExampleEngine.Storage.Buffer

/-!
# What the buffer operations do to the contents

Library `Storage`. The blocks seen through the pool are one function of the block index.
Fetching a block leaves this function alone and changes a block only where it is stored;
saving copies it to the file.
-/

namespace ExampleEngine.Storage

open ExampleEngine.Base

namespace BufferManager

variable {K : Type} {b b' b'' : BufferManager K} {i j flag : Nat}

/-- What later operations keep: the file, the pooled blocks and their dirty marks, and the
agreement of clean blocks with the file. -/
structure Later (b b' : BufferManager K) : Prop where
  platform : b'.platform = b.platform
  file : b'.file = b.file
  pooled : ∀ i, b.Pooled i → b'.Pooled i
  dirty : ∀ i, b.Dirty i → b'.Dirty i
  synced : ∀ R : Page K → Page K → Prop, (∀ p, R p p) → b.Synced R → b'.Synced R

/-- Doing nothing keeps everything. -/
theorem Later.refl (b : BufferManager K) : b.Later b :=
  ⟨rfl, rfl, fun _ h ↦ h, fun _ h ↦ h, fun _ _ h ↦ h⟩

/-- Operations compose. -/
theorem Later.trans (h : b.Later b') (h' : b'.Later b'') : b.Later b'' where
  platform := h'.platform.trans h.platform
  file := h'.file.trans h.file
  pooled i hi := h'.pooled i (h.pooled i hi)
  dirty i hi := h'.dirty i (h.dirty i hi)
  synced R hR hb := h'.synced R hR (h.synced R hR hb)

@[simp] theorem file_modifyFrame (f : Frame K → Frame K) :
    (b.modifyFrame i f).file = b.file := rfl

@[simp] theorem platform_modifyFrame (f : Frame K → Frame K) :
    (b.modifyFrame i f).platform = b.platform := rfl

/-- Changing the page of a pooled block changes the contents there. -/
theorem view_modifyFrame (hi : b.Pooled i) (p : Page K) :
    (b.modifyFrame i fun f ↦ { f with page := p }).view = Function.update b.view i p := by
  obtain ⟨f, hf⟩ := Option.isSome_iff_exists.mp hi
  ext j
  unfold view
  rw [frame_modifyFrame]
  by_cases hj : j = i
  · subst hj
    simp [hf]
  · simp [hj]

/-- Changing a dirty mark leaves the contents alone. -/
theorem view_mark (g : Frame K → Nat) :
    (b.modifyFrame i fun f ↦ { f with reserved := g f }).view = b.view := by
  ext j
  unfold view
  rw [frame_modifyFrame]
  by_cases hj : j = i
  · subst hj
    rw [if_pos rfl]
    cases b.frame j <;> rfl
  · simp [hj]

/-- A changed frame stays in the pool. -/
theorem pooled_modifyFrame (f : Frame K → Frame K) :
    (b.modifyFrame i f).Pooled j ↔ b.Pooled j := by
  unfold Pooled
  rw [frame_modifyFrame]
  split <;> simp

/-- Changing a page leaves the dirty marks alone. -/
theorem dirty_modifyFrame (p : Page K) :
    (b.modifyFrame i fun f ↦ { f with page := p }).Dirty j ↔ b.Dirty j := by
  unfold Dirty
  rw [frame_modifyFrame]
  split
  · cases b.frame j <;> simp
  · rfl

/-- Storing through a pointer to a dirty block keeps what clean blocks promise. -/
theorem later_store (hi : b.Dirty i) (p : Page K) :
    b.Later (b.modifyFrame i fun f ↦ { f with page := p }) := by
  constructor
  · rfl
  · rfl
  · intro j hj
    exact (pooled_modifyFrame _).mpr hj
  · intro j hj
    exact (dirty_modifyFrame p).mpr hj
  · intro R _ hb j f hf hr
    rw [frame_modifyFrame] at hf
    split at hf
    · next hj =>
      subst hj
      obtain ⟨g, hg, hgr⟩ := hi
      simp only [hg, Option.map_some, Option.some.injEq] at hf
      subst hf
      exact absurd hr hgr
    · exact hb j f hf hr

/-- Storing through a pointer keeps what clean blocks promise, when the file holds them up
to a relation the change respects. -/
theorem synced_store {R : Page K → Page K → Prop} (hb : b.Synced R) {p : Page K}
    (hp : ∀ q, R q (b.view i) → R q p) :
    (b.modifyFrame i fun f ↦ { f with page := p }).Synced R := by
  intro j f hf hr
  rw [frame_modifyFrame] at hf
  split at hf
  · next hj =>
    subst hj
    obtain ⟨g, hg, rfl⟩ := Option.map_eq_some_iff.mp hf
    have hv : b.view j = g.page := by simp [view, hg]
    exact hp _ (hv ▸ hb j g hg hr)
  · exact hb j f hf hr

/-- A frame put in front of the pool is seen at its own index only. -/
theorem frame_cons (f : Frame K) :
    ({ b with pool := (i, f) :: b.pool } : BufferManager K).frame j =
      if j = i then some f else b.frame j := by
  unfold frame
  rw [List.lookup_cons]
  by_cases hj : j = i
  · simp [hj]
  · have hb : (j == i) = false := by simp [hj]
    simp [hb, hj]

/-- What fetching block `i` with a mark does besides returning its pointer. -/
structure Fetched (b b' : BufferManager K) (i flag : Nat) : Prop where
  later : b.Later b'
  view : b'.view = b.view
  pooled : ∀ j, b'.Pooled j ↔ b.Pooled j ∨ j = i
  dirty : flag ≠ 0 → b'.Dirty i
  fresh : ¬ b.Pooled i → b'.frame i = some ⟨flag, b.file i⟩

private theorem fetched_hit {f : Frame K} (hf : b.frame i = some f) :
    b.Fetched (b.modifyFrame i fun f ↦ if f.reserved = 0 then { f with reserved := flag } else f)
      i flag := by
  have hp : b.Pooled i := by simp [Pooled, hf]
  have hmark : (fun f : Frame K ↦ if f.reserved = 0 then { f with reserved := flag } else f) =
      fun f ↦ { f with reserved := if f.reserved = 0 then flag else f.reserved } := by
    ext1 g
    split <;> rfl
  rw [hmark]
  constructor
  · constructor
    · rfl
    · rfl
    · intro j hj
      exact (pooled_modifyFrame _).mpr hj
    · rintro j ⟨g, hg, hr⟩
      unfold Dirty
      rw [frame_modifyFrame]
      split
      · exact ⟨_, by rw [hg]; rfl, by simp [hr]⟩
      · exact ⟨g, hg, hr⟩
    · intro R _ hb j g hg hr
      rw [frame_modifyFrame] at hg
      split at hg
      · next hj =>
        subst hj
        simp only [hf, Option.map_some, Option.some.injEq] at hg
        subst hg
        refine hb j f hf ?_
        by_contra hne
        simp only [hne, if_false] at hr
      · exact hb j g hg hr
  · exact view_mark _
  · intro j
    rw [pooled_modifyFrame]
    constructor
    · exact .inl
    · rintro (hj | rfl)
      · exact hj
      · exact hp
  · intro hflag
    unfold Dirty
    rw [frame_modifyFrame, if_pos rfl, hf]
    refine ⟨_, rfl, ?_⟩
    simp only
    split
    · exact hflag
    · assumption
  · exact fun hn ↦ absurd hp hn

private theorem fetched_miss (hi : b.frame i = none) :
    b.Fetched { b with pool := (i, ⟨flag, b.file i⟩) :: b.pool } i flag := by
  constructor
  · constructor
    · rfl
    · rfl
    · intro j hj
      unfold Pooled
      rw [frame_cons]
      split
      · rfl
      · exact hj
    · rintro j ⟨f, hf, hr⟩
      have hne : j ≠ i := by
        rintro rfl
        simp [hi] at hf
      exact ⟨f, by rw [frame_cons, if_neg hne, hf], hr⟩
    · intro R hR hb j f hf hr
      rw [frame_cons] at hf
      split at hf
      · next hj =>
        simp only [Option.some.injEq] at hf
        subst hf hj
        exact hR _
      · exact hb j f hf hr
  · ext j
    unfold BufferManager.view
    rw [frame_cons]
    by_cases hj : j = i
    · subst hj
      simp [hi]
    · simp [hj]
  · intro j
    unfold Pooled
    rw [frame_cons]
    by_cases hj : j = i <;> simp [hj]
  · intro hflag
    exact ⟨⟨flag, b.file i⟩, by rw [frame_cons, if_pos rfl], hflag⟩
  · intro _
    rw [frame_cons, if_pos rfl]

/-- Fetching a block that is pooled, by what its header says. -/
theorem run_getBlock_pooled {f : Frame K} (hf : b.frame i = some f) (flag : Nat) :
    (getBlock i flag).run b = if f.page.header.index = i then
        .ok (some i, b.modifyFrame i fun f ↦
          if f.reserved = 0 then { f with reserved := flag } else f)
      else .error .assertFailed := by
  unfold getBlock
  simp only [StateT.run_bind, StateT.run_get, pure_bind, hf]
  split <;> rfl

private theorem seekable_of_lt (h : i < 2 ^ 20) (hs : seekable i = true) : i < 2 ^ 19 := by
  have hlt : blockPosition i < 2 ^ 31 := of_decide_eq_true hs
  simp only [blockPosition, BLOCK_SIZE] at hlt
  omega

/-- A fetch that returns, of a block whose position does not wrap, either refuses to allocate
the block or fetches it. -/
theorem fetched_of_run {r : Option Nat} (hi : i < 2 ^ 20)
    (h : (getBlock i flag).run b = .ok (r, b')) :
    (r = none ∧ b' = b) ∨ (r = some i ∧ b.Fetched b' i flag ∧ (b.Pooled i ∨ i < 2 ^ 19)) := by
  cases hf : b.frame i with
  | some f =>
    rw [run_getBlock_pooled hf] at h
    split at h
    · cases h
      exact .inr ⟨rfl, fetched_hit hf, .inl (by simp [Pooled, hf])⟩
    · cases h
  | none =>
    unfold getBlock at h
    simp only [StateT.run_bind, StateT.run_get, pure_bind, hf] at h
    cases ha : b.platform.alloc i with
    | false =>
      rw [ha] at h
      cases h
      exact .inl ⟨rfl, rfl⟩
    | true =>
      rw [ha] at h
      by_cases hs : seekable i = true
      · have hlt := seekable_of_lt hi hs
        have hpos := (position_of_lt hlt).2
        have hread : b.readBlock i = if b.platform.readable i then some (b.file i) else none := by
          unfold readBlock
          rw [hpos]
          simp only [hs, true_and]
        rw [hread] at h
        cases hr : b.platform.readable i with
        | false =>
          rw [hr] at h
          cases h
        | true =>
          rw [hr] at h
          cases h
          exact .inr ⟨rfl, fetched_miss hf, .inr hlt⟩
      · have hread : b.readBlock i = none := by
          unfold readBlock
          rw [if_neg (fun hand ↦ hs hand.1)]
        rw [hread] at h
        cases h

/-- On a reliable platform, a block the file can hold is fetched. -/
theorem wp_getBlock {E : Fault → Prop} {Q : Option Nat → BufferManager K → Prop}
    (hp : b.platform.Reliable) (hi : i < 2 ^ 19)
    (hindex : b.Pooled i → (b.view i).header.index = i)
    (hQ : ∀ b', b.Fetched b' i flag → Q (some i) b') : wp E (getBlock i flag) Q b := by
  unfold getBlock
  simp only [wp_bind, wp_get]
  cases hf : b.frame i with
  | some f =>
    have hv : b.view i = f.page := by simp [view, hf]
    have hh : f.page.header.index = i := hv ▸ hindex (by simp [Pooled, hf])
    simp only [if_pos hh, wp_bind, wp_set, wp_pure]
    exact hQ _ (fetched_hit hf)
  | none =>
    obtain ⟨hs, hpos⟩ := position_of_lt hi
    have hread : b.readBlock i = some (b.file i) := by
      unfold readBlock
      rw [hpos, if_pos ⟨hs, hp.readable i⟩]
    simp only [hp.alloc i, if_true, hread, wp_bind, wp_set, wp_pure]
    exact hQ _ (fetched_miss hf)

/-- Fetching a block that is not in the pool, on any platform: it can be refused or unreadable. -/
theorem wp_getBlock_absent {E : Fault → Prop} {Q : Option Nat → BufferManager K → Prop}
    (hn : ¬ b.Pooled i) (hi : i ≤ 2 ^ 19) (hnone : b.platform.alloc i = false → Q none b)
    (hsome : i < 2 ^ 19 → ∀ b', b.Fetched b' i flag → Q (some i) b')
    (hE : b.platform.alloc i = true → ¬ (i < 2 ^ 19 ∧ b.platform.readable i = true) →
      E (.unreadable i)) : wp E (getBlock i flag) Q b := by
  have hf : b.frame i = none := by
    rwa [Pooled, Bool.not_eq_true, Option.isSome_eq_false_iff, Option.isNone_iff_eq_none] at hn
  unfold getBlock
  simp only [wp_bind, wp_get, hf]
  cases ha : b.platform.alloc i with
  | false =>
    simp only [Bool.false_eq_true, if_false, wp_pure]
    exact hnone ha
  | true =>
    simp only [if_true]
    by_cases hr : i < 2 ^ 19 ∧ b.platform.readable i = true
    · obtain ⟨hs, hpos⟩ := position_of_lt hr.1
      have hread : b.readBlock i = some (b.file i) := by
        unfold readBlock
        rw [hpos, if_pos ⟨hs, hr.2⟩]
      simp only [hread, wp_bind, wp_set, wp_pure]
      exact hsome hr.1 _ (fetched_miss hf)
    · have hread : b.readBlock i = none := by
        unfold readBlock
        rw [if_neg]
        rintro ⟨hs, hrd⟩
        have hlt : i < 2 ^ 19 := seekable_of_lt (by omega) hs
        rw [(position_of_lt hlt).2] at hrd
        exact hr ⟨hlt, hrd⟩
      simp only [hread, wp_throw]
      exact hE ha hr

/-- The first block past 2 GiB cannot be fetched. -/
theorem wp_getBlock_full {E : Fault → Prop} {Q : Option Nat → BufferManager K → Prop}
    (hp : b.platform.Reliable) (hi : ¬ b.Pooled (2 ^ 19)) (hE : E (.unreadable (2 ^ 19))) :
    wp E (getBlock (2 ^ 19) flag) Q b := by
  refine wp_getBlock_absent hi (Nat.le_refl _) (fun ha ↦ ?_) (fun hlt ↦ ?_) fun _ _ ↦ hE
  · rw [hp.alloc] at ha
    cases ha
  · exact absurd hlt (Nat.lt_irrefl _)

end BufferManager

end ExampleEngine.Storage
