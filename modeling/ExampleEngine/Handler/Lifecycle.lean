import ExampleEngine.Handler.Consistency
import ExampleEngine.Index.Sizes
import ExampleEngine.Index.Unsaved

/-!
# Closing and opening again

Library `Handler`. The life of a table over many handlers: `create`, `open`, requests, `close` of
`src/ha_example.cc:547–555`, and `open` again. `Iterator::remove` sets no mark, but no request
saves a tree, so every block is still marked when `close` destroys the trees, and nothing is lost.
Nor does a request write to the files, so where the server stops without `close` they are still
those of the last one. All this holds as long as no file is cut under a table that was opened again,
where blocks are in the file only; `MyFile::resize` of `src/lib/file.cpp:63–66` cuts a file that
grows from 2^18 blocks.
-/

namespace ExampleEngine.Handler

open ExampleEngine.Base ExampleEngine.Storage ExampleEngine.Index

namespace HaExample

/-- The files of a table: of its rows, and of its entries where it has secondary indexes. -/
abbrev Files := (Nat → Page Key) × Option (Nat → Page Key)

/-- The files as they are. -/
def files (s : HaExample) : Files :=
  (s.pBtree.buffer.file, s.sBtree.map fun t ↦ t.buffer.file)

/-- `close`: the files that the destroyed trees leave, where `writable` tells which writes
succeed; `src/ha_example.cc:547–555`. -/
def close (writable : Nat → Bool) (s : HaExample) : Files :=
  (s.pBtree.destroy writable, s.sBtree.map (BTree.destroy writable))

/-- What a table holds: its rows with their packed bytes, the entries of all indexes and the number
of items. -/
abbrev Held := List (Key × Option (Nat → UInt8)) × List (Slot Key) × Nat

/-- What it holds now. -/
def held (share : TableShare) (s : HaExample) : Held := (s.rows share, s.entries, s.pBtree.items)

/-- Block 2^18 of neither file was taken into use. -/
def Spares (s s' : HaExample) : Prop :=
  (s'.pBtree.blocks ≤ 2 ^ 18 ∨ 2 ^ 18 < s.pBtree.blocks) ∧
    (s'.secondTree.blocks ≤ 2 ^ 18 ∨ 2 ^ 18 < s.secondTree.blocks)

/-- No save has come since the table was opened on these files. -/
structure Unsaved (F : Files) (s : HaExample) : Prop where
  primary : s.pBtree.Unsaved F.1 []
  second : Option.Rel (fun f t ↦ BTree.Unsaved f [] t) F.2 s.sBtree

section Preserving

variable {share : TableShare} {server : Server} {α : Type} {s s' : HaExample} {F : Files}

/-- The files are as they were. -/
theorem Unsaved.files_eq (hu : s.Unsaved F) : s.files = F := by
  obtain ⟨f, g⟩ := F
  obtain ⟨hp, hs⟩ := hu
  unfold files
  rw [hp.file]
  cases hg : s.sBtree with
  | none =>
    rw [hg] at hs
    cases hs
    rfl
  | some t =>
    rw [hg] at hs
    cases hs with
    | some ht => rw [Option.map_some, ht.file]

/-- The entries are in a tree that was opened on their file. -/
theorem Unsaved.exists_second {t : BTree Key} (hu : s.Unsaved F) (ht : s.sBtree = some t) :
    ∃ f, F.2 = some f ∧ BTree.Unsaved f [] t := by
  obtain ⟨f, g⟩ := F
  have hs := hu.second
  rw [ht] at hs
  cases hs with
  | some hut => exact ⟨_, rfl, hut⟩

private theorem preserves_onPrimary {m : TreeM Key α}
    (hm : ∀ {f}, Preserves (BTree.Unsaved f []) m) : Preserves (Unsaved F) (onPrimary m) :=
  .zoom hm (fun _ hs ↦ hs.primary) fun _ _ hs ht ↦ ⟨ht, hs.second⟩

private theorem preserves_onSecond {m : TreeM Key α}
    (hm : ∀ {f}, Preserves (BTree.Unsaved f []) m) : Preserves (Unsaved F) (onSecond m) := by
  intro s hu
  rw [wp_onSecond]
  cases ht : s.sBtree with
  | none => exact trivial
  | some t =>
    obtain ⟨f, hf, hut⟩ := hu.exists_second ht
    refine wp_mono (hm t hut) fun a t' hut' ↦ ⟨hu.primary, ?_⟩
    rw [hf]
    exact .some hut'

/-- Changes to anything but the trees. -/
private theorem preserves_modify {f : HaExample → HaExample}
    (hp : ∀ s, (f s).pBtree = s.pBtree) (hs : ∀ s, (f s).sBtree = s.sBtree) :
    Preserves (Unsaved F) (modify f : HandlerM Unit) :=
  .modify fun s hu ↦ ⟨(hp s).symm ▸ hu.primary, (hs s).symm ▸ hu.second⟩

private theorem Unsaved.onlyServer (hu : s.Unsaved F) (h : OnlyServer s s') : s'.Unsaved F :=
  ⟨h.pBtree.symm ▸ hu.primary, h.sBtree.symm ▸ hu.second⟩

/-- Opening the trees is no save. -/
theorem preserves_openTable : Preserves (Unsaved F) (openTable share) :=
  .bind (preserves_onPrimary BTree.preserves_openTree) fun _ ↦ .ite (.pure _)
    (.ite (.bind (preserves_onSecond BTree.preserves_openTree) fun _ ↦ .ite (.pure _) (.pure _))
      (.pure _))

private theorem preserves_movePrimary {move : Iterator → TreeM Key (Int × Iterator)}
    (hm : ∀ it {f}, Preserves (BTree.Unsaved f []) (move it)) :
    Preserves (Unsaved F) (movePrimary move) :=
  .bind .get fun _ ↦ .bind (preserves_onPrimary (hm _)) fun _ ↦
    .bind (preserves_modify (fun _ ↦ rfl) fun _ ↦ rfl) fun _ ↦ .pure _

private theorem preserves_moveSecond {move : Iterator → TreeM Key (Int × Iterator)}
    (hm : ∀ it {f}, Preserves (BTree.Unsaved f []) (move it)) :
    Preserves (Unsaved F) (moveSecond move) :=
  .bind .get fun _ ↦ .bind (preserves_onSecond (hm _)) fun _ ↦
    .bind (preserves_modify (fun _ ↦ rfl) fun _ ↦ rfl) fun _ ↦ .pure _

private theorem preserves_writeEntries {buf : Nat} (idxs : List Nat) :
    Preserves (Unsaved F) (writeEntries share buf idxs) := by
  induction idxs with
  | nil => exact .pure _
  | cons idx rest ih =>
    exact .bind (preserves_modify (fun _ ↦ rfl) fun _ ↦ rfl) fun _ ↦ .bind .get fun _ ↦
      .bind (preserves_onSecond BTree.preserves_put) fun _ ↦ .ite (.pure _) ih

private theorem preserves_writeRow {buf : Nat} :
    Preserves (Unsaved F) (writeRow share server buf) := by
  refine .bind (.modifyGet fun _ hu ↦ hu.onlyServer onlyServer_numbered) fun _ ↦ .ite (.pure _)
    (.bind (.modifyGet fun _ hu ↦ hu.onlyServer onlyServer_packRow) fun r ↦ ?_)
  cases r with
  | none => exact .pure _
  | some row =>
    exact .bind (preserves_modify (fun _ ↦ rfl) fun _ ↦ rfl) fun _ ↦ .bind .get fun _ ↦
      .bind (preserves_onPrimary BTree.preserves_put) fun _ ↦ .ite (.pure _)
        (.ite (.pure _) (preserves_writeEntries _))

private theorem preserves_deleteEntries {buf : Nat} (idxs : List Nat) :
    Preserves (Unsaved F) (deleteEntries share buf idxs) := by
  induction idxs with
  | nil => exact .pure _
  | cons idx rest ih =>
    exact .bind (preserves_modify (fun _ ↦ rfl) fun _ ↦ rfl) fun _ ↦ .bind .get fun _ ↦
      .bind (preserves_onSecond Iterator.preserves_locate) fun _ ↦ .ite (.pure _)
        (.bind (preserves_onSecond Iterator.preserves_remove) fun _ ↦ ih)

private theorem preserves_deleteRow {buf : Nat} : Preserves (Unsaved F) (deleteRow share buf) :=
  .bind (preserves_modify (fun _ ↦ rfl) fun _ ↦ rfl) fun _ ↦ .bind .get fun _ ↦
    .bind (preserves_onPrimary Iterator.preserves_locate) fun _ ↦ .ite (.pure _)
      (.bind (preserves_onPrimary Iterator.preserves_remove) fun _ ↦ preserves_deleteEntries _)

private theorem preserves_getPrimaryRow {buf : Nat} :
    Preserves (Unsaved F) (getPrimaryRow share buf) := by
  refine .bind .get fun _ ↦ .bind (preserves_onPrimary Iterator.preserves_getValue) fun r ↦ ?_
  cases r with
  | none => exact .pure _
  | some p => exact .bind (preserves_modify (fun _ ↦ rfl) fun _ ↦ rfl) fun _ ↦ .pure _

private theorem preserves_rndPos {buf : Nat} {pos : Key} :
    Preserves (Unsaved F) (rndPos share buf pos) :=
  .bind (preserves_movePrimary fun _ ↦ Iterator.preserves_locate) fun _ ↦ .ite (.pure _)
    preserves_getPrimaryRow

private theorem preserves_fetched {rc : Int} {buf : Nat} :
    Preserves (Unsaved F) (fetched share server rc buf) := by
  refine .ite (.pure _) (.bind .get fun _ ↦ .ite preserves_getPrimaryRow ?_)
  exact .bind .get fun _ ↦ .bind (preserves_onSecond Iterator.preserves_getKey) fun _ ↦
    .ite (.bind (preserves_modify (fun _ ↦ rfl) fun _ ↦ rfl) fun _ ↦ .pure _) preserves_rndPos

private theorem preserves_locateKey {flag : UInt8} {second primary : IterFlag} :
    Preserves (Unsaved F) (locateKey share flag second primary) :=
  .bind .get fun _ ↦ .ite
    (.bind (preserves_modify (fun _ ↦ rfl) fun _ ↦ rfl) fun _ ↦ .bind .get fun _ ↦
      .bind (preserves_moveSecond fun _ ↦ Iterator.preserves_locate) fun _ ↦ .pure _)
    (.bind (preserves_movePrimary fun _ ↦ Iterator.preserves_locate) fun _ ↦ .pure _)

private theorem preserves_search (findFlag : HaRkeyFunction) :
    Preserves (Unsaved F) (search share findFlag) := by
  cases findFlag with
  | HA_READ_KEY_EXACT =>
    exact .bind preserves_locateKey fun _ ↦ .bind .get fun _ ↦ .ite (.pure _)
      (.bind (preserves_onSecond Iterator.preserves_getKey) fun _ ↦ .pure _)
  | other => exact .pure _
  | _ => exact preserves_locateKey

private theorem preserves_indexRead {buf : Nat} {key : Key} {findFlag : HaRkeyFunction} :
    Preserves (Unsaved F) (indexRead share server buf key findFlag) :=
  .bind (preserves_modify (fun _ ↦ rfl) fun _ ↦ rfl) fun _ ↦ .bind (preserves_search findFlag)
    fun _ ↦ preserves_fetched

private theorem preserves_moveIndex {move : Iterator → TreeM Key (Int × Iterator)} {err : Int}
    {buf : Nat} (hm : ∀ it {f}, Preserves (BTree.Unsaved f []) (move it)) :
    Preserves (Unsaved F) (moveIndex share server move err buf) :=
  .bind .get fun _ ↦ .ite
    (.bind (preserves_moveSecond hm) fun _ ↦ preserves_fetched)
    (.bind (preserves_movePrimary hm) fun _ ↦ preserves_fetched)

/-- No request saves a tree. -/
theorem preserves_perform (req : Request) : Preserves (Unsaved F) (req.perform share server) := by
  cases req with
  | writeRow buf => exact preserves_writeRow
  | updateRow old new =>
    exact .bind (.modifyGet fun _ hu ↦ hu.onlyServer onlyServer_numbered) fun _ ↦
      .bind preserves_deleteRow fun _ ↦ .ite (.pure _) preserves_writeRow
  | deleteRow buf => exact preserves_deleteRow
  | indexRead buf key findFlag => exact preserves_indexRead
  | indexNext buf => exact preserves_moveIndex fun _ ↦ Iterator.preserves_next
  | indexPrev buf => exact preserves_moveIndex fun _ ↦ Iterator.preserves_prev
  | indexFirst buf => exact preserves_moveIndex fun _ ↦ Iterator.preserves_first
  | indexLast buf => exact preserves_moveIndex fun _ ↦ Iterator.preserves_last
  | rndNext buf =>
    exact .bind .get fun _ ↦ .ite
      (.bind (preserves_modify (fun _ ↦ rfl) fun _ ↦ rfl) fun _ ↦
        preserves_moveIndex fun _ ↦ Iterator.preserves_first)
      (preserves_moveIndex fun _ ↦ Iterator.preserves_next)
  | rndPos buf pos => exact preserves_rndPos
  | info => exact .bind (preserves_onPrimary BTree.preserves_countOfItems) fun _ ↦ .pure _
  | extra operation =>
    refine .bind (preserves_modify (fun _ ↦ ?_) fun _ ↦ ?_) fun _ ↦ .pure _ <;>
      cases operation <;> rfl
  | _ => exact .bind (preserves_modify (fun _ ↦ rfl) fun _ ↦ rfl) fun _ ↦ .pure _

end Preserving

end HaExample

/-- A handler before `open`, on the files of a table. -/
structure OnFiles (share : TableShare) (files : HaExample.Files) (s : HaExample) : Prop where
  primary : ∃ platform, platform.Reliable ∧ s.pBtree = BTree.unopened platform files.1
  second : if share.keys > 1 then
      ∃ platform, platform.Reliable ∧ s.sBtree = files.2.map (BTree.unopened platform)
    else s.sBtree = none
  keyBuffer : s.keyBuffer.length = share.primaryKeyLength + share.maxSecondKeyLength + 1
  active : s.activeIndex < share.keys

/-- The blocks of both trees are those of before. -/
structure Restores (s s' : HaExample) : Prop where
  primary : s'.pBtree.page = s.pBtree.page ∧ s'.pBtree.root = s.pBtree.root
  second : s'.secondTree.page = s.secondTree.page ∧ s'.secondTree.root = s.secondTree.root

/-- Opening these files succeeds, and gives a table of which this holds. -/
def OpensWith (share : TableShare) (F : HaExample.Files) (P : HaExample → Prop) : Prop :=
  ∀ s₀, OnFiles share F s₀ → wp (fun _ ↦ False) (HaExample.openTable share)
    (fun code s ↦ code = 0 ∧ Opened share s ∧ s.Unsaved F ∧ P s) s₀

/-- The states of a table over its whole life, with what it held when it was closed last, nothing at
first. After the requests of the first handler, each one opens the files that the one before it
closed, or left behind in a crash, and takes block 2^18 of no file into use. -/
inductive Lived (share : TableShare) (server : Server) : HaExample.Held → HaExample → Prop
  | served (s : HaExample) (hs : Served share server s) : Lived share server ([], [], 0) s
  | step (saved : HaExample.Held) (s s' : HaExample) (req : Request) (code : Int)
      (hs : Lived share server saved s) (ha : req.Admissible share s)
      (h : (req.perform share server).run s = .ok (code, s')) (hspare : s.Spares s') :
      Lived share server saved s'
  | reopened (saved : HaExample.Held) (s s₀ s' : HaExample) (hs : Lived share server saved s)
      (hf : OnFiles share (s.close fun _ ↦ true) s₀)
      (h : (HaExample.openTable share).run s₀ = .ok (0, s')) :
      Lived share server (s.held share) s'
  | crashed (saved : HaExample.Held) (s s₀ s' : HaExample) (hs : Lived share server saved s)
      (hf : OnFiles share s.files s₀) (h : (HaExample.openTable share).run s₀ = .ok (0, s')) :
      Lived share server saved s'

section Lives

variable {share : TableShare} {server : Server} {s s₀ s' : HaExample} {F : HaExample.Files}
  {P : HaExample → Prop} {saved : HaExample.Held}

/-- Less holds of the table as well. -/
private theorem OpensWith.mono {Q : HaExample → Prop} (h : OpensWith share F P)
    (hPQ : ∀ s, P s → Q s) : OpensWith share F Q := by
  intro s₀ hf
  refine wp_mono (h s₀ hf) ?_
  rintro code s ⟨hcode, ho, hu, hP⟩
  exact ⟨hcode, ho, hu, hPQ s hP⟩

private theorem Created.unsaved (hc : Created share s) : s.Unsaved s.files := by
  obtain ⟨platform, file, _, hp⟩ := hc.primary
  have hsec := hc.second
  unfold HaExample.files
  refine ⟨hp ▸ .unopened _ _, ?_⟩
  split at hsec
  · obtain ⟨platform', file', _, hs⟩ := hsec
    rw [hs]
    exact .some (.unopened _ _)
  · rw [hsec]
    exact .none

private theorem Created.onFiles (hc : Created share s) : OnFiles share s.files s := by
  obtain ⟨platform, file, hplatform, hp⟩ := hc.primary
  have hsec := hc.second
  unfold HaExample.files
  refine ⟨⟨platform, hplatform, hp ▸ rfl⟩, ?_, hc.keyBuffer, hc.active⟩
  split at hsec
  · next hkeys =>
    obtain ⟨platform', file', hplatform', hs⟩ := hsec
    rw [if_pos hkeys, hs]
    exact ⟨platform', hplatform', rfl⟩
  · next hkeys => rwa [if_neg hkeys]

/-- Another handler on the files that `create` wrote. -/
private theorem Created.of_onFiles (hc : Created share s) (hf : OnFiles share s.files s₀) :
    Created share s₀ ∧ s₀.files = s.files := by
  obtain ⟨_, file, _, hp⟩ := hc.primary
  obtain ⟨platform, hplatform, hp₀⟩ := hf.primary
  have hsec := hc.second
  have hsec₀ := hf.second
  unfold HaExample.files at hp₀ hsec₀ ⊢
  rw [hp] at hp₀
  by_cases hkeys : share.keys > 1
  · rw [if_pos hkeys] at hsec hsec₀
    obtain ⟨_, file', _, hs⟩ := hsec
    obtain ⟨platform', hplatform', hs₀⟩ := hsec₀
    rw [hs] at hs₀
    refine ⟨⟨⟨platform, file, hplatform, hp₀⟩, ?_, hf.keyBuffer, hf.active⟩, ?_⟩
    · rw [if_pos hkeys]
      exact ⟨platform', file', hplatform', hs₀⟩
    · rw [hp₀, hs₀, hp, hs]
      rfl
  · rw [if_neg hkeys] at hsec hsec₀
    refine ⟨⟨⟨platform, file, hplatform, hp₀⟩, ?_, hf.keyBuffer, hf.active⟩, ?_⟩
    · rwa [if_neg hkeys]
    · rw [hp₀, hsec₀, hp, hsec]
      rfl

/-- The files that `create` wrote hold nothing. -/
private theorem Created.opensWith (hc : Created share s) :
    OpensWith share s.files fun s' ↦ Consistent share [] s' ∧ s'.held share = ([], [], 0) := by
  intro s₀ hf
  obtain ⟨hc₀, hfiles⟩ := hc.of_onFiles hf
  have hopen := HaExample.preserves_openTable.wp (hc₀.wp_openTable (E := fun _ ↦ False))
    hc₀.unsaved
  refine wp_mono (wp_run hopen) ?_
  rintro code s' ⟨hrun, ⟨rfl, ho, hlive, hentries, hitems, _⟩, hu⟩
  refine ⟨rfl, ho, hfiles ▸ hu, (hc₀.consistent hrun).2, ?_⟩
  unfold HaExample.held HaExample.rows BTree.contents
  rw [hlive, hentries, hitems]
  rfl

/-- After the requests of the first handler the table is in order, no save has come since it was
opened, and its files still hold nothing. -/
private theorem Served.sound (ord : share.Ordered) (hs : Served share server s) :
    Opened share s ∧ ∃ F, s.Unsaved F ∧ OpensWith share F fun s' ↦
      Consistent share [] s' ∧ s'.held share = ([], [], 0) := by
  induction hs with
  | opened s₀ s hc h =>
    have hopens := hc.opensWith
    obtain ⟨_, ho, hu, _⟩ := wp_ok (hopens s₀ hc.onFiles) h
    exact ⟨ho, _, hu, hopens⟩
  | step s s' req code _ ha h ih =>
    obtain ⟨ho, F, hu, hopens⟩ := ih
    obtain ⟨ho', _⟩ := wp_ok (ho.wp_perform ord ha) h
    exact ⟨ho', F, (HaExample.preserves_perform req).run hu h, hopens⟩

/-- The files that a table is closed to before any save have all of its blocks. -/
theorem Opened.opensWith (ho : Opened share s) (hu : s.Unsaved F) :
    OpensWith share (s.close fun _ ↦ true) (Restores s) := by
  intro s₀ hf
  obtain ⟨platform, hp, hpb⟩ := hf.primary
  have hsec := hf.second
  unfold HaExample.openTable
  rw [wp_bind, wp_onPrimary, hpb]
  refine wp_mono (ho.primary.wp_reopen hu.primary hp) ?_
  rintro r t ⟨rfl, hv, hpage, hroot, hut⟩
  rw [if_neg (by decide)]
  by_cases hkeys : share.keys > 1
  · rw [if_pos hkeys] at hsec
    obtain ⟨platform', hp', hsb⟩ := hsec
    obtain ⟨t₂, ht₂⟩ : ∃ t₂, s.sBtree = some t₂ := by
      have hsome := ho.isSome
      rwa [decide_eq_true hkeys, Option.isSome_iff_exists] at hsome
    obtain ⟨_, _, hu₂⟩ := hu.exists_second ht₂
    have hfile : (s.close fun _ ↦ true).2 = some (t₂.destroy fun _ ↦ true) := by
      unfold HaExample.close
      rw [ht₂, Option.map_some]
    rw [hfile, Option.map_some] at hsb
    rw [if_pos hkeys, wp_bind, wp_onSecond]
    simp only [hsb]
    refine wp_mono ((ho.second t₂ ht₂).wp_reopen hu₂ hp') ?_
    rintro r' t' ⟨rfl, hv', hpage', hroot', hut'⟩
    rw [if_neg (by decide), wp_pure]
    have htree : s.secondTree = t₂ := by
      unfold HaExample.secondTree
      rw [ht₂, Option.getD_some]
    refine ⟨rfl, ⟨hv, (decide_eq_true hkeys).symm, fun t'' ht'' ↦ ?_,
      Nat.le_of_eq hf.keyBuffer.symm, hf.active⟩, ⟨hut, ?_⟩, ⟨hpage, hroot⟩, ?_⟩
    · cases ht''
      exact hv'
    · rw [hfile]
      exact .some hut'
    · rw [htree]
      exact ⟨hpage', hroot'⟩
  · rw [if_neg hkeys] at hsec
    have hnone : s.sBtree = none := by
      have hsome := ho.isSome
      rwa [decide_eq_false hkeys, Option.isSome_eq_false_iff, Option.isNone_iff_eq_none] at hsome
    have hfile : (s.close fun _ ↦ true).2 = none := by
      unfold HaExample.close
      rw [hnone, Option.map_none]
    rw [if_neg hkeys, wp_pure]
    refine ⟨rfl, ⟨hv, ?_, fun t'' ht'' ↦ ?_, Nat.le_of_eq hf.keyBuffer.symm, hf.active⟩,
      ⟨hut, ?_⟩, ⟨hpage, hroot⟩, ?_⟩
    · simp [hsec, hkeys]
    · change s₀.sBtree = some t'' at ht''
      rw [hsec] at ht''
      cases ht''
    · rw [hfile]
      change Option.Rel _ none s₀.sBtree
      rw [hsec]
      exact .none
    · unfold HaExample.secondTree
      rw [hnone]
      change (s₀.sBtree.getD _).page = _ ∧ (s₀.sBtree.getD _).root = _
      rw [hsec]
      exact ⟨rfl, rfl⟩

theorem Restores.rows (h : Restores s s') : s'.rows share = s.rows share :=
  BTree.contents_congr h.primary.1 h.primary.2

theorem Restores.live (h : Restores s s') : s'.pBtree.live = s.pBtree.live :=
  BTree.live_congr h.primary.1 h.primary.2

theorem Restores.entries (h : Restores s s') : s'.entries = s.entries :=
  BTree.live_congr h.second.1 h.second.2

theorem Restores.items (h : Restores s s') : s'.pBtree.items = s.pBtree.items := by
  unfold BTree.items
  rw [h.primary.1]

/-- Restored blocks hold the same. -/
private theorem Restores.held (h : Restores s s') : s'.held share = s.held share := by
  unfold HaExample.held
  rw [h.rows, h.entries, h.items]

/-- Every state in the life of a table is in order, no save has come since it was opened, and its
files hold what it held when it was closed last. -/
theorem Lived.sound (ord : share.Ordered) (hs : Lived share server saved s) :
    Opened share s ∧ ∃ F, s.Unsaved F ∧ OpensWith share F fun s' ↦ s'.held share = saved := by
  induction hs with
  | served s hs =>
    obtain ⟨ho, F, hu, hopens⟩ := hs.sound ord
    exact ⟨ho, F, hu, hopens.mono fun _ h ↦ h.2⟩
  | step saved s s' req code _ ha h _ ih =>
    obtain ⟨ho, F, hu, hopens⟩ := ih
    obtain ⟨ho', _⟩ := wp_ok (ho.wp_perform ord ha) h
    exact ⟨ho', F, (HaExample.preserves_perform req).run hu h, hopens⟩
  | reopened saved s s₀ s' _ hf h ih =>
    obtain ⟨ho, F, hu, _⟩ := ih
    have hopens := ho.opensWith hu
    obtain ⟨_, ho', hu', _⟩ := wp_ok (hopens s₀ hf) h
    exact ⟨ho', _, hu', hopens.mono fun _ hr ↦ hr.held⟩
  | crashed saved s s₀ s' _ hf h ih =>
    obtain ⟨ho, F, hu, hopens⟩ := ih
    rw [hu.files_eq] at hf
    obtain ⟨_, ho', hu', _⟩ := wp_ok (hopens s₀ hf) h
    exact ⟨ho', F, hu', hopens⟩

/-- At any time in the life of a table, closing it with every write succeeding and opening its
files with another handler succeeds, and yields the rows with their packed bytes, the entries of
all indexes and the number of items of before. -/
theorem close_open_keeps (ord : share.Ordered) (hs : Lived share server saved s)
    (hf : OnFiles share (s.close fun _ ↦ true) s₀) :
    wp (fun _ ↦ False) (HaExample.openTable share) (fun code s' ↦ code = 0 ∧
      s'.rows share = s.rows share ∧ s'.entries = s.entries ∧
      s'.pBtree.items = s.pBtree.items) s₀ := by
  obtain ⟨ho, F, hu, _⟩ := hs.sound ord
  refine wp_mono (ho.opensWith hu s₀ hf) fun code s' h ↦ ?_
  obtain ⟨rfl, -, -, hr⟩ := h
  exact ⟨rfl, hr.rows, hr.entries, hr.items⟩

/-- A crash after any request in the life of a table takes it back to where it was closed last: the
files as they are can be opened, and hold the rows of then with their packed bytes, the entries of
all indexes and the number of items, and the life goes on from there. -/
theorem crash_restores (ord : share.Ordered) (hs : Lived share server saved s)
    (hf : OnFiles share s.files s₀) :
    wp (fun _ ↦ False) (HaExample.openTable share) (fun code s' ↦ code = 0 ∧
      s'.held share = saved ∧ Lived share server saved s') s₀ := by
  obtain ⟨_, F, hu, hopens⟩ := hs.sound ord
  refine wp_mono (wp_run (hopens s₀ (hu.files_eq ▸ hf))) fun code s' h ↦ ?_
  obtain ⟨hrun, rfl, _, _, hheld⟩ := h
  exact ⟨rfl, hheld, .crashed saved s s₀ s' hs hf hrun⟩

end Lives

/-- The life of a table with the rows that it was closed with last, none at first, and those that
its requests leave: closing and opening leaves all of them, and a crash those of before. In every
opening packed rows fit a data block and old records are the rows as they were written; after the
first one no request takes block 2^18 of a file into use. -/
inductive Lifetime (share : TableShare) (server : Server) :
    List Row → List Row → HaExample → Prop
  | stored {W : HaExample → Nat → Prop} (rows : List Row) (s : HaExample)
      (hs : Stored share server W rows s) : Lifetime share server [] rows s
  | step (saved rows rows' : List Row) (s s' : HaExample) (hs : Lifetime share server saved rows s)
      (h : RowStep share server rows s rows' s') (hspare : s.Spares s') :
      Lifetime share server saved rows' s'
  | reopened (saved rows : List Row) (s s₀ s' : HaExample)
      (hs : Lifetime share server saved rows s) (hf : OnFiles share (s.close fun _ ↦ true) s₀)
      (h : (HaExample.openTable share).run s₀ = .ok (0, s')) : Lifetime share server rows rows s'
  | crashed (saved rows : List Row) (s s₀ s' : HaExample)
      (hs : Lifetime share server saved rows s) (hf : OnFiles share s.files s₀)
      (h : (HaExample.openTable share).run s₀ = .ok (0, s')) : Lifetime share server saved saved s'

section Lifetimes

variable {share : TableShare} {server : Server} {s s₀ s' : HaExample} {saved rows : List Row}

/-- The trees are those of the rows when they are restored. -/
private theorem Restores.consistent (h : Restores s s') (hc : Consistent share rows s) :
    Consistent share rows s' := by
  constructor
  · exact hc.distinct
  · rw [h.live, h.primary.1]
    exact hc.live
  · rw [h.live]
    exact hc.row
  · unfold EntryLive
    rw [h.entries]
    exact hc.entry
  · rw [h.entries]
    exact hc.owner

/-- What changes the rows is a request. -/
private theorem RowStep.exists_request {rows' : List Row}
    (h : RowStep share server rows s rows' s') : ∃ (req : Request) (code : Int),
      req.Admissible share s ∧ (req.perform share server).run s = .ok (code, s') := by
  cases h with
  | write _ buf code _ h => exact ⟨.writeRow buf, code, trivial, h⟩
  | delete _ buf code _ h => exact ⟨.deleteRow buf, code, trivial, h⟩
  | update s₁ _ old new code _ _ _ h => exact ⟨.updateRow old new, code, trivial, h⟩
  | other _ req code _ ha h => exact ⟨req, code, ha, h⟩

/-- The requests of the first handler are served. -/
private theorem Stored.served {W : HaExample → Nat → Prop} (hs : Stored share server W rows s) :
    Served share server s := by
  induction hs with
  | opened s₀ s hc h => exact .opened s₀ s hc h
  | write rows s s' buf code _ _ _ h ih => exact .step s s' (.writeRow buf) code ih trivial h
  | delete rows s s' buf code _ _ h ih => exact .step s s' (.deleteRow buf) code ih trivial h
  | update rows s s₁ s' old new code _ _ _ _ _ h ih =>
    exact .step s s' (.updateRow old new) code ih trivial h
  | other rows s s' req code _ _ ha h ih => exact .step s s' req code ih ha h

/-- Such a life is one of the requests. -/
theorem Lifetime.exists_lived (hs : Lifetime share server saved rows s) :
    ∃ held, Lived share server held s := by
  induction hs with
  | stored rows s hs => exact ⟨_, .served s hs.served⟩
  | step saved rows rows' s s' _ h hspare ih =>
    obtain ⟨held, hlived⟩ := ih
    obtain ⟨req, code, ha, hrun⟩ := h.exists_request
    exact ⟨held, .step held s s' req code hlived ha hrun hspare⟩
  | reopened saved rows s s₀ s' _ hf h ih =>
    obtain ⟨held, hlived⟩ := ih
    exact ⟨_, .reopened held s s₀ s' hlived hf h⟩
  | crashed saved rows s s₀ s' _ hf h ih =>
    obtain ⟨held, hlived⟩ := ih
    exact ⟨held, .crashed held s s₀ s' hlived hf h⟩

/-- The table is in order. -/
theorem Lifetime.opened (ord : share.Ordered) (hs : Lifetime share server saved rows s) :
    Opened share s := by
  obtain ⟨_, hlived⟩ := hs.exists_lived
  exact (hlived.sound ord).1

/-- The trees are those of the rows, and the files hold those of the last close. -/
private theorem Lifetime.sound (ord : share.Ordered) (hs : Lifetime share server saved rows s) :
    Consistent share rows s ∧ ∃ F, s.Unsaved F ∧ OpensWith share F (Consistent share saved) := by
  induction hs with
  | stored rows s hs =>
    obtain ⟨_, F, hu, hopens⟩ := hs.served.sound ord
    exact ⟨(hs.sound ord).2, F, hu, hopens.mono fun _ h ↦ h.1⟩
  | step saved rows rows' s s' hs h _ ih =>
    obtain ⟨hc, F, hu, hopens⟩ := ih
    obtain ⟨req, code, ha, hrun⟩ := h.exists_request
    have hu' := (HaExample.preserves_perform req).run hu hrun
    exact ⟨(h.sound ord (hs.opened ord) hc).2, F, hu', hopens⟩
  | reopened saved rows s s₀ s' hs hf h ih =>
    obtain ⟨hc, F, hu, _⟩ := ih
    have hopens : OpensWith share (s.close fun _ ↦ true) (Consistent share rows) :=
      ((hs.opened ord).opensWith hu).mono fun _ hr ↦ hr.consistent hc
    obtain ⟨_, _, hu', hc'⟩ := wp_ok (hopens s₀ hf) h
    exact ⟨hc', _, hu', hopens⟩
  | crashed saved rows s s₀ s' hs hf h ih =>
    -- No request wrote to the files, so they are still those that opened to the saved rows.
    obtain ⟨_, F, hu, hopens⟩ := ih
    rw [hu.files_eq] at hf
    obtain ⟨_, _, hu', hc'⟩ := wp_ok (hopens s₀ hf) h
    exact ⟨hc', F, hu', hopens⟩

theorem Lifetime.consistent (ord : share.Ordered) (hs : Lifetime share server saved rows s) :
    Consistent share rows s :=
  (hs.sound ord).1

/-- At any time in the life of a table, over any number of closings, openings and crashes, each row
has one live slot, which holds its packed bytes, and one entry in each secondary index, and there
are no others. -/
theorem lifetime_agrees (ord : share.Ordered) (hs : Lifetime share server saved rows s) :
    (∀ row ∈ rows, ∃! e, e ∈ s.pBtree.live ∧
      share.primaryKeyCompare e.key (share.primaryKey row.record) = 0) ∧
    (∀ e ∈ s.pBtree.live, ∃! row, row ∈ rows ∧
      share.primaryKeyCompare e.key (share.primaryKey row.record) = 0) ∧
    (∀ e ∈ s.pBtree.live, ∀ row ∈ rows,
      share.primaryKeyCompare e.key (share.primaryKey row.record) = 0 →
      ∃ src, valueOf share.primary s.pBtree.page e.value = some src ∧ Begins src row.bytes) ∧
    (∀ row ∈ rows, ∀ i ∈ HaExample.indexes share, ∃! e, e ∈ s.entries ∧
      share.secondKeyCompare e.key (share.packKey i row.record) = 0) ∧
    ∀ e ∈ s.entries, ∃! p : Row × Nat, p.1 ∈ rows ∧ p.2 ∈ HaExample.indexes share ∧
      share.secondKeyCompare e.key (share.packKey p.2 p.1.record) = 0 := by
  have ho := hs.opened ord
  have hc := hs.consistent ord
  obtain ⟨hrow, hlive⟩ := hc.rows_unique ord ho
  obtain ⟨hentry, howner⟩ := hc.entries_unique ord ho
  exact ⟨hrow, hlive, fun e he row hr hk ↦ hc.bytes ord ho he hr hk, hentry, howner⟩

end Lifetimes

section Digits

/-- A handler before `open`, on these files. -/
def handedTable (F : HaExample.Files) : HaExample := { newTable with
  pBtree := BTree.unopened steady F.1
  sBtree := F.2.map (BTree.unopened steady) }

theorem handedTable_files (F : HaExample.Files) : OnFiles digits F (handedTable F) :=
  ⟨⟨steady, steady_reliable, rfl⟩, ⟨steady, steady_reliable, rfl⟩, rfl, show 0 < 3 by decide⟩

private theorem filledTable_lived : Lived digits lenient ([], [], 0) filledTable :=
  .served filledTable filledTable_stored.served

/-- Two rows stored, closed and opened again. -/
theorem handedTable_keeps : wp (fun _ ↦ False) (HaExample.openTable digits) (fun code s' ↦
    code = 0 ∧ s'.rows digits = filledTable.rows digits ∧ s'.entries = filledTable.entries ∧
      s'.pBtree.items = filledTable.pBtree.items) (handedTable (filledTable.close fun _ ↦ true)) :=
  close_open_keeps digits_ordered filledTable_lived (handedTable_files _)

/-- Two rows stored, and lost in a crash. -/
theorem handedTable_loses : wp (fun _ ↦ False) (HaExample.openTable digits) (fun code s' ↦
    code = 0 ∧ s'.held digits = ([], [], 0) ∧ Lived digits lenient ([], [], 0) s')
    (handedTable filledTable.files) :=
  crash_restores digits_ordered filledTable_lived (handedTable_files _)

theorem filledTable_lifetime : Lifetime digits lenient [] filledRows filledTable :=
  .stored filledRows filledTable filledTable_stored

/-- Its rows and entries agree again. -/
theorem handedTable_agrees : ∃ s', (HaExample.openTable digits).run
    (handedTable (filledTable.close fun _ ↦ true)) = .ok (0, s') ∧
      ∀ row ∈ filledRows, ∃! e, e ∈ s'.pBtree.live ∧
        digits.primaryKeyCompare e.key (digits.primaryKey row.record) = 0 := by
  obtain ⟨ho, F, hu, -⟩ := filledTable_lived.sound digits_ordered
  obtain ⟨code, s', hrun, rfl, -⟩ := exists_run (ho.opensWith hu _ (handedTable_files _))
  exact ⟨s', hrun, (lifetime_agrees digits_ordered (.reopened [] filledRows filledTable _ s'
    filledTable_lifetime (handedTable_files _) hrun)).1⟩

end Digits

end ExampleEngine.Handler
