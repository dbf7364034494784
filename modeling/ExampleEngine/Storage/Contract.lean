import ExampleEngine.Storage.Save

/-!
# The contract of the buffer pool

Library `Storage`. What a user of `src/lib/buffer.cpp:25–63` may rely on when it keeps to
`src/lib/buffer.h:34–37`: runs of fetches, changes of blocks that were fetched for writing,
and saves that may fail anywhere. A block in the pool keeps what its user put there, a block
that differs from the file keeps its dirty mark, and a save that succeeds leaves no difference.
-/

namespace ExampleEngine.Storage

open ExampleEngine.Base

/-- A buffer pool and its user: the contents of the blocks fetched, as read and changed since,
and the blocks that the user may change. -/
structure Usage (K : Type) where
  pool : BufferManager K
  known : Nat → Option (Page K)
  editable : Nat → Prop

namespace Usage

variable {K : Type}

/-- A pool that was just created on a file. -/
def start (platform : Platform) (file : Nat → Page K) : Usage K :=
  ⟨⟨platform, file, []⟩, fun _ ↦ none, fun _ ↦ False⟩

/-- A fetched block is known, and may be changed if it was fetched for that. -/
def fetched (u : Usage K) (b : BufferManager K) (i flag : Nat) : Usage K where
  pool := b
  known := Function.update u.known i (some ((u.known i).getD (u.pool.file i)))
  editable j := u.editable j ∨ j = i ∧ flag = 1

/-- A block gets other contents. -/
def edited (u : Usage K) (i : Nat) (page : Page K) : Usage K where
  pool := u.pool.modifyFrame i fun f ↦ { f with page := page }
  known := Function.update u.known i (some page)
  editable := u.editable

/-- A block that was written back may not be changed before it is fetched again. -/
def saved (u : Usage K) (writable : Nat → Bool) : Usage K where
  pool := (u.pool.save writable).2
  known := u.known
  editable i := u.editable i ∧ i ∉ u.pool.saveWritten writable

end Usage

/-- What fetches, changes and saves lead to, when a block is changed only after it was fetched
for that since it was last written back, and no block number exceeds the 32 bits of a file. -/
inductive Uses {K : Type} (platform : Platform) (file : Nat → Page K) : Usage K → Prop
  | start : Uses platform file (.start platform file)
  | fetch (u : Usage K) (i flag : Nat) (b : BufferManager K) (hu : Uses platform file u)
      (hi : i < 2 ^ 20) (hflag : flag ≤ 1)
      (h : (BufferManager.getBlock i flag).run u.pool = .ok (some i, b)) :
      Uses platform file (u.fetched b i flag)
  | refuse (u : Usage K) (i flag : Nat) (b : BufferManager K) (hu : Uses platform file u)
      (hi : i < 2 ^ 20) (h : (BufferManager.getBlock i flag).run u.pool = .ok (none, b)) :
      Uses platform file { u with pool := b }
  | edit (u : Usage K) (i : Nat) (page : Page K) (hu : Uses platform file u)
      (hi : u.editable i) : Uses platform file (u.edited i page)
  | save (u : Usage K) (writable : Nat → Bool) (hu : Uses platform file u) :
      Uses platform file (u.saved writable)

namespace Uses

variable {K : Type} {platform : Platform} {file : Nat → Page K} {u : Usage K} {i flag : Nat}
  {b : BufferManager K}

/-- The invariant: the pool holds what its user knows, blocks that may be changed are dirty,
clean blocks are as in the file, and all blocks are within reach of the file. -/
structure Kept (u : Usage K) : Prop where
  known : ∀ i, (u.pool.frame i).map Frame.page = u.known i
  dirty : ∀ i, u.editable i → u.pool.Dirty i
  synced : u.pool.Synced Eq
  low : ∀ i, u.pool.Pooled i → i < 2 ^ 19

private theorem kept_start : Kept (Usage.start platform file) := by
  constructor
  · intro i
    rfl
  · intro i hi
    exact hi.elim
  · intro i f hf
    cases hf
  · intro i hi
    cases hi

private theorem map_page_eq_none {o : Option (Frame K)} : o.map Frame.page = none ↔ o = none :=
  Option.map_eq_none_iff

private theorem kept_fetched (h : Kept u) (hb : u.pool.Fetched b i flag)
    (hlow : u.pool.Pooled i ∨ i < 2 ^ 19) : Kept (u.fetched b i flag) := by
  have hsame : ∀ j, j = i ∨ u.pool.Pooled j →
      (b.frame j).map Frame.page = some (u.pool.view j) := by
    intro j hj
    have hp : b.Pooled j := (hb.pooled j).mpr hj.symm
    obtain ⟨f, hf⟩ := Option.isSome_iff_exists.mp hp
    rw [← hb.view]
    simp [BufferManager.view, hf]
  have hview : ∀ j, u.pool.view j = (u.known j).getD (u.pool.file j) := by
    intro j
    rw [← h.known j]
    unfold BufferManager.view
    cases u.pool.frame j <;> rfl
  constructor
  · intro j
    by_cases hj : j = i
    · subst hj
      change (b.frame j).map Frame.page = Function.update u.known j _ j
      rw [Function.update_self, hsame j (.inl rfl), hview]
    · change (b.frame j).map Frame.page = Function.update u.known i _ j
      rw [Function.update_of_ne hj]
      by_cases hp : u.pool.Pooled j
      · obtain ⟨f, hf⟩ := Option.isSome_iff_exists.mp hp
        rw [hsame j (.inr hp), ← h.known j]
        simp [BufferManager.view, hf]
      · have hn : ¬ b.Pooled j := fun hb' ↦ ((hb.pooled j).mp hb').elim hp hj
        rw [← h.known j, map_page_eq_none.mpr (by simpa [BufferManager.Pooled] using hn),
          map_page_eq_none.mpr (by simpa [BufferManager.Pooled] using hp)]
  · rintro j (hj | ⟨rfl, rfl⟩)
    · exact hb.later.dirty j (h.dirty j hj)
    · exact hb.dirty Nat.one_ne_zero
  · exact hb.later.synced Eq (fun _ ↦ rfl) h.synced
  · intro j hj
    rcases (hb.pooled j).mp hj with hj | rfl
    · exact h.low j hj
    · exact hlow.elim (h.low j) id

private theorem kept_edited (h : Kept u) (hi : u.editable i) (page : Page K) :
    Kept (u.edited i page) := by
  have hd := h.dirty i hi
  constructor
  · intro j
    change ((u.pool.modifyFrame i fun f ↦ { f with page := page }).frame j).map Frame.page =
      Function.update u.known i (some page) j
    rw [BufferManager.frame_modifyFrame]
    by_cases hj : j = i
    · subst hj
      obtain ⟨f, hf, _⟩ := hd
      rw [if_pos rfl, Function.update_self, hf]
      rfl
    · rw [if_neg hj, Function.update_of_ne hj, h.known j]
  · intro j hj
    exact (BufferManager.dirty_modifyFrame page).mpr (h.dirty j hj)
  · exact (BufferManager.later_store hd page).synced Eq (fun _ ↦ rfl) h.synced
  · intro j hj
    exact h.low j ((BufferManager.pooled_modifyFrame _).mp hj)

private theorem kept_saved (h : Kept u) (writable : Nat → Bool) : Kept (u.saved writable) := by
  have hs := BufferManager.saved_save writable h.low
  constructor
  · intro j
    exact (hs.page j).trans (h.known j)
  · rintro j ⟨hj, hn⟩
    exact BufferManager.dirty_save h.low (h.dirty j hj) hn
  · exact hs.synced Eq (fun _ ↦ rfl) h.synced
  · intro j hj
    exact h.low j ((hs.pooled j).mp hj)

/-- Every use of a pool keeps the invariant. -/
theorem kept (hu : Uses platform file u) : Kept u := by
  induction hu with
  | start => exact kept_start
  | fetch u i flag b hu hi hflag h ih =>
    rcases BufferManager.fetched_of_run hi h with ⟨hr, _⟩ | ⟨_, hb, hlow⟩
    · cases hr
    · exact kept_fetched ih hb hlow
  | refuse u i flag b hu hi h ih =>
    rcases BufferManager.fetched_of_run hi h with ⟨_, hb⟩ | ⟨hr, _, _⟩
    · rw [hb]
      exact ih
    · cases hr
  | edit u i page hu hi ih => exact kept_edited ih hi page
  | save u writable hu ih => exact kept_saved ih writable

end Uses

/-- A fetched block stays where it is with the contents that its user gave it, and is found
again unless its header carries another number, which stops the program. After every save a
block that differs from the file is dirty; a save that succeeds leaves none, also after saves
that failed. -/
theorem Uses.contract {K : Type} {platform : Platform} {file : Nat → Page K} {u : Usage K}
    (hu : Uses platform file u) :
    (∀ i p, u.known i = some p → (u.pool.frame i).map Frame.page = some p ∧
      ∀ flag, if p.header.index = i then
          ∃ b, (BufferManager.getBlock i flag).run u.pool = .ok (some i, b) ∧
            (b.frame i).map Frame.page = some p
        else (BufferManager.getBlock i flag).run u.pool = .error .assertFailed) ∧
    ∀ writable, (∀ i f, (u.pool.save writable).2.frame i = some f →
        (u.pool.save writable).2.file i ≠ f.page → f.reserved ≠ 0) ∧
      ((u.pool.save writable).1 = 1 → ∀ i p, u.known i = some p →
        (u.pool.save writable).2.file i = p) ∧
      ∀ writable', ((u.pool.save writable).2.save writable').1 = 1 → ∀ i p,
        u.known i = some p → ((u.pool.save writable).2.save writable').2.file i = p := by
  have hkept := hu.kept
  have hclean : ∀ (u : Usage K) writable, Uses platform file u → (u.pool.save writable).1 = 1 →
      ∀ i p, u.known i = some p → (u.pool.save writable).2.file i = p := by
    intro u writable hu hone i p hp
    have h := hu.kept
    have h' := (Uses.save u writable hu).kept
    obtain ⟨f, hf, rfl⟩ := Option.map_eq_some_iff.mp ((h'.known i).trans hp)
    refine h'.synced i f hf ?_
    by_contra hr
    exact BufferManager.save_clean h.low hone i ⟨f, hf, hr⟩
  refine ⟨?_, fun writable ↦ ⟨?_, ?_, ?_⟩⟩
  · intro i p hp
    obtain ⟨f, hf, rfl⟩ := Option.map_eq_some_iff.mp ((hkept.known i).trans hp)
    refine ⟨by rw [hf]; rfl, fun flag ↦ ?_⟩
    rw [BufferManager.run_getBlock_pooled hf]
    split
    · refine ⟨_, rfl, ?_⟩
      rw [BufferManager.frame_modifyFrame, if_pos rfl, hf, Option.map_some, Option.map_some]
      split <;> rfl
    · rfl
  · intro i f hf hne hr
    exact hne ((Uses.save u writable hu).kept.synced i f hf hr)
  · exact hclean u writable hu
  · intro writable' hone i p hp
    exact hclean _ writable' (Uses.save u writable hu) hone i p hp

namespace Uses

/-- A platform on which nothing fails. -/
def willing : Platform := ⟨fun _ ↦ true, fun _ ↦ true, id, List.Perm.refl⟩

/-- A file of zeros, in which only block 0 carries its number. -/
def zeroed : Nat → Page Nat := fun _ ↦ .raw ⟨.free, 0, 0, 0⟩ fun _ ↦ 0

/-- The pool after one block of that file was fetched. -/
def pooled (i : Nat) : BufferManager Nat := ⟨willing, zeroed, [(i, ⟨1, zeroed i⟩)]⟩

private theorem getBlock_zeroed {i : Nat} (hi : i < 2 ^ 19) :
    (BufferManager.getBlock i 1).run (Usage.start willing zeroed).pool =
      .ok (some i, pooled i) := by
  obtain ⟨hs, _⟩ := BufferManager.position_of_lt hi
  have hread : (Usage.start willing zeroed).pool.readBlock i = some (zeroed i) := by
    unfold BufferManager.readBlock
    rw [if_pos ⟨hs, rfl⟩]
    rfl
  have hframe : (Usage.start willing zeroed).pool.frame i = none := rfl
  unfold BufferManager.getBlock
  simp only [StateT.run_bind, StateT.run_get, pure_bind, hframe, hread]
  rfl

private theorem uses_zeroed {i : Nat} (hi : i < 2 ^ 19) :
    Uses willing zeroed ((Usage.start willing zeroed).fetched (pooled i) i 1) :=
  .fetch _ i 1 _ .start (by omega) (Nat.le_refl 1) (getBlock_zeroed hi)

/-- Fetching a block for writing, changing it, failing to save it and saving it again. -/
theorem contract_zeroed :
    let u := ((Usage.start willing zeroed).fetched (pooled 0) 0 1).edited 0
      (.raw ⟨.log, 0, 0, 0⟩ fun _ ↦ 1)
    ((u.pool.save fun _ ↦ false).2.save fun _ ↦ true).2.file 0 =
      .raw ⟨.log, 0, 0, 0⟩ fun _ ↦ 1 := by
  intro u
  have hu : Uses willing zeroed u := .edit _ 0 _ (uses_zeroed (by decide)) (.inr ⟨rfl, rfl⟩)
  exact (hu.contract.2 fun _ ↦ false).2.2 (fun _ ↦ true) rfl 0 _ rfl

/-- A block that does not carry its number is not found again: fetching it twice stops at an
assertion. -/
theorem fetch_twice_stops :
    ¬ ∀ u : Usage Nat, Uses willing zeroed u → ∀ i p, u.known i = some p →
      ∃ b, (BufferManager.getBlock i 1).run u.pool = .ok (some i, b) := by
  intro h
  obtain ⟨b, hb⟩ := h _ (uses_zeroed (i := 5) (by decide)) 5 (zeroed 5) rfl
  cases hb

end Uses

end ExampleEngine.Storage
