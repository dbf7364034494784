import ExampleEngine.Index.Save

/-!
# Sessions

Library `Index`. Runs of calls on a tree that was just created, with reopening in between,
on a platform without failures. The iterators passed to calls may come from anywhere, as
long as they stand on an entry at the time of the call. A file that grows past 2^18 blocks is
taken as in `growFile`, as if it were not cut.
-/

namespace ExampleEngine.Index

open ExampleEngine.Base ExampleEngine.Storage

/-- A call on an open tree or on one of its iterators; `src/lib/btree.h:145–180,218–237`. -/
inductive Call (K : Type) where
  | put (key : K) (value : List UInt8)
  | locate (key : K) (flag : IterFlag)
  | first (it : Iterator)
  | last (it : Iterator)
  | next (it : Iterator)
  | prev (it : Iterator)
  | getValue (it : Iterator)
  | remove (it : Iterator)
  | save (writable : Nat → Bool)

namespace Call

variable {K : Type}

/-- Make a call for its effect on the tree. -/
def perform (c : Config K) : Call K → TreeM K Unit
  | .put key value => do let _ ← BTree.put c key value
  | .locate key flag => do let _ ← Iterator.locate c key flag
  | .first it => do let _ ← it.first
  | .last it => do let _ ← it.last
  | .next it => do let _ ← it.next
  | .prev it => do let _ ← it.prev
  | .getValue it => do let _ ← it.getValue c
  | .remove it => it.remove
  | .save writable => do let _ ← BTree.save writable

/-- Iterators are moved on, read through and removed through only while they stand on an
entry. -/
def Admissible (t : BTree K) : Call K → Prop
  | .next it => ∃ s, Stands t it s
  | .prev it => ∃ s, Stands t it s
  | .getValue it => ∃ s, Stands t it s
  | .remove it => ∃ s, Stands t it s
  | _ => True

/-- Keys that are put or searched for are of a kind. -/
def Keyed (S : K → Prop) : Call K → Prop
  | .put key _ => S key
  | .locate key _ => S key
  | _ => True

/-- Any key is a key. -/
theorem keyed_true (call : Call K) : call.Keyed fun _ ↦ True := by
  cases call <;> exact trivial

/-- Calls that change neither keys nor values. -/
def ReadOnly : Call K → Prop
  | .put .. => False
  | .remove _ => False
  | _ => True

end Call

/-- The open trees that calls lead to, from a created file, when every call meets the
condition `G`. Reopening destroys the tree with every write succeeding. -/
inductive Session {K : Type} (c : Config K) (G : BTree K → Call K → Prop) : BTree K → Prop
  | created (platform : Platform) (file : Nat → Page K) (t : BTree K)
      (hp : platform.Reliable)
      (h : BTree.openTree.run (BTree.unopened platform (BTree.create c file)) = .ok (1, t)) :
      Session c G t
  | step (t t' : BTree K) (call : Call K) (hs : Session c G t) (ha : call.Admissible t)
      (hg : G t call) (h : (call.perform c).run t = .ok ((), t')) : Session c G t'
  | reopened (t t' : BTree K) (platform : Platform) (hs : Session c G t)
      (hp : platform.Reliable)
      (h : BTree.openTree.run (BTree.unopened platform (t.destroy fun _ ↦ true)) =
        .ok (1, t')) : Session c G t'

/-- The trees reachable by any admissible calls. -/
abbrev Reachable {K : Type} (c : Config K) : BTree K → Prop := Session c fun _ _ ↦ True

/-- Calls that may come at any time lead on. -/
theorem Session.calls {K : Type} {c : Config K} {G : BTree K → Call K → Prop}
    {calls : List (Call K)} {t t' : BTree K} (hs : Session c G t)
    (ha : ∀ call ∈ calls, ∀ t, call.Admissible t ∧ G t call)
    (h : (calls.forM (Call.perform c)).run t = .ok ((), t')) : Session c G t' := by
  induction calls generalizing t with
  | nil =>
    cases h
    exact hs
  | cons call calls ih =>
    change (call.perform c >>= fun _ ↦ calls.forM (Call.perform c)).run t = .ok ((), t') at h
    rw [StateT.run_bind] at h
    cases hc : (call.perform c).run t with
    | error e =>
      rw [hc] at h
      cases h
    | ok p =>
      rw [hc] at h
      obtain ⟨hadm, hg⟩ := ha call (by simp) t
      exact ih (hs.step t p.2 call hadm hg hc) (fun call' hmem ↦ ha call' (by simp [hmem])) h

section Narrow

/-- Keys so long that a node holds three of them; values have 8 bytes. -/
def narrow : Config Nat := ⟨1300, 8, fun a b ↦ (a : Int) - b⟩

/-- A platform on which nothing fails and maps are iterated in order of insertion. -/
def steady : Platform := ⟨fun _ ↦ true, fun _ ↦ true, id, List.Perm.refl⟩

/-- A file never written to. -/
def blank : Nat → Page Nat := fun _ ↦ .raw ⟨.free, 0, 0, 0⟩ fun _ ↦ 0

/-- The tree just created on such a file. -/
def narrowTree : BTree Nat :=
  match BTree.openTree.run (BTree.unopened steady (BTree.create narrow blank)) with
  | .ok (_, t) => t
  | .error _ => BTree.unopened steady blank

theorem narrow_wide : narrow.Wide := narrow.wide_iff.mpr (by decide)

theorem narrow_cmp : Comparison narrow.cmp fun _ ↦ True := by
  constructor <;> (intros; simp only [narrow] at *; omega)

theorem narrow_eq (a b : Nat) : narrow.cmp a b = 0 ↔ a = b := by
  simp only [narrow]
  omega

theorem steady_reliable : steady.Reliable := ⟨fun _ ↦ rfl, fun _ ↦ rfl⟩

theorem narrowTree_opened :
    BTree.openTree.run (BTree.unopened steady (BTree.create narrow blank)) =
      .ok (1, narrowTree) := rfl

theorem narrowTree_session {G : BTree Nat → Call Nat → Prop} : Session narrow G narrowTree :=
  .created steady blank narrowTree steady_reliable narrowTree_opened

/-- A value of the constant size. -/
def narrowValue : List UInt8 := List.replicate 8 0

/-- The tree after three insertions, in two leaves under a root. -/
def filledTree : BTree Nat :=
  match ([.put 1 narrowValue, .put 2 narrowValue, .put 3 narrowValue].forM
      (Call.perform narrow)).run narrowTree with
  | .ok (_, t) => t
  | .error _ => narrowTree

theorem filledTree_session {G : BTree Nat → Call Nat → Prop}
    (hG : ∀ t key value, G t (.put key value)) : Session narrow G filledTree := by
  have hrun : ([.put 1 narrowValue, .put 2 narrowValue, .put 3 narrowValue].forM
      (Call.perform narrow)).run narrowTree = .ok ((), filledTree) := rfl
  refine Session.calls narrowTree_session ?_ hrun
  intro call hmem t
  simp only [List.mem_cons, List.not_mem_nil, or_false] at hmem
  obtain rfl | rfl | rfl := hmem <;> exact ⟨trivial, hG _ _ _⟩

-- statements about the tree are not to be evaluated while they are elaborated
attribute [irreducible] filledTree

end Narrow

/-- The invariant of open trees: the blocks hold a search tree, and the file holds the clean
ones up to `R`. -/
structure Sound {K : Type} (c : Config K) (S : K → Prop) (R : Page K → Page K → Prop)
    (t : BTree K) : Prop where
  holds : ∃ m h, ∃ x : LTree (Slot K) h, BTree.Holds c S t m h x
  synced : t.buffer.Synced R

namespace Sound

variable {K : Type} {c : Config K} {S : K → Prop} {R : Page K → Page K → Prop}
  {t t' : BTree K} {m : BTreeMetadata} {it : Iterator} {s : Slot K} {key : K}
  {value : List UInt8}

/-- `put` keeps the invariant. -/
theorem wp_put (hs : Sound c S R t) (hR : ∀ p, R p p) (hwide : c.Wide)
    (hcmp : Comparison c.cmp S) (hk : S key) :
    wp Beyond (BTree.put c key value) (fun _ t' ↦ Sound c S R t') t := by
  obtain ⟨m, h, x, ht⟩ := hs.holds
  refine BTree.wp_put hwide hcmp hk ht (covers_beyond _) fun r t' ho ↦ ?_
  cases ho with
  | duplicate e he heq hlive t' ht' hl hp =>
    exact ⟨⟨_, _, _, ht'⟩, hl.synced R hR hs.synced⟩
  | done hdead t' m' h' x' w ht' hl hle hk hitems hent hleaves hw hst hdata =>
    exact ⟨⟨_, _, _, ht'⟩, hl.synced R hR hs.synced⟩
  | failed hdead t' m' ht' hl hle hk hitems hnode hc hv hdata =>
    exact ⟨⟨_, _, _, ht'⟩, hl.synced R hR hs.synced⟩

/-- Calls that change neither keys nor values keep the invariant, the blocks and the root. -/
theorem wp_readOnly {E : Fault → Prop} {call : Call K} (hs : Sound c S R t) (hR : ∀ p, R p p)
    (hcmp : Comparison c.cmp S) (hk : ∀ key flag, call = .locate key flag → S key)
    (ha : call.Admissible t) (hro : call.ReadOnly) :
    wp E (call.perform c) (fun _ t' ↦ Sound c S R t' ∧ t'.page = t.page ∧
      t'.root = t.root) t := by
  obtain ⟨m, h, x, ht⟩ := hs.holds
  have hread : ∀ t', BTree.Reads t t' m →
      Sound c S R t' ∧ t'.page = t.page ∧ t'.root = t.root := by
    intro t' hr
    exact ⟨⟨⟨m, h, x, ht.reads hr⟩, hr.later.buffer.synced R hR hs.synced⟩, hr.page,
      hr.later.root⟩
  cases call with
  | put key value => exact hro.elim
  | remove it => exact hro.elim
  | locate key flag =>
    simp only [Call.perform, wp_bind, wp_pure]
    have hprobe : Probe c.cmp Slot.key key t.slots := by
      rw [ht.slots_eq]
      exact ht.tree.sorted.probe hcmp ht.tree.keys (hk key flag rfl)
    exact wp_mono (ht.wp_locate hprobe) fun r t' hr ↦ hread t' hr.1
  | first it =>
    simp only [Call.perform, wp_bind, wp_pure]
    exact wp_mono ht.wp_first fun r t' hr ↦ hread t' hr.1
  | last it =>
    simp only [Call.perform, wp_bind, wp_pure]
    exact wp_mono ht.wp_last fun r t' hr ↦ hread t' hr.1
  | next it =>
    obtain ⟨s, hst⟩ := ha
    simp only [Call.perform, wp_bind, wp_pure]
    exact wp_mono (hst.wp_next ht hcmp) fun r t' hr ↦ hread t' hr.1
  | prev it =>
    obtain ⟨s, hst⟩ := ha
    simp only [Call.perform, wp_bind, wp_pure]
    exact wp_mono (hst.wp_prev ht hcmp) fun r t' hr ↦ hread t' hr.1
  | getValue it =>
    obtain ⟨s, hst⟩ := ha
    simp only [Call.perform, wp_bind, wp_pure]
    exact wp_mono (hst.wp_getValue ht) fun r t' hr ↦ hread t' hr.1
  | save writable =>
    simp only [Call.perform, wp_bind, wp_pure]
    refine BTree.wp_save ht fun n t' hkept ↦ ?_
    exact ⟨⟨⟨m, h, x, ht.kept hkept⟩, hkept.synced R hR hs.synced⟩, hkept.page, hkept.root⟩

/-- Opening the file that a created tree is written to. -/
theorem wp_created {platform : Platform} (file : Nat → Page K) (hwide : c.Wide)
    (hp : platform.Reliable) (hR : ∀ p, R p p) :
    wp Beyond BTree.openTree (fun r t ↦ r = 1 ∧ Sound c S R t ∧ t.slots = [])
      (BTree.unopened platform (BTree.create c file)) := by
  refine BTree.wp_openTree hp (BTree.image_create (S := S) hwide file) fun t ht _ _ _ hsy ↦ ?_
  refine ⟨rfl, ⟨⟨_, _, _, ht⟩, fun i f hf hr ↦ hsy i f hf hr ▸ hR _⟩, ?_⟩
  rw [ht.slots_eq]
  rfl

/-- Opening the file that a destroyed tree leaves, up to flags. -/
theorem wp_reopened {platform : Platform} (hs : Sound c S UpToFlags t)
    (hp : platform.Reliable) :
    wp Beyond BTree.openTree (fun r t' ↦ r = 1 ∧ Sound c S Eq t')
      (BTree.unopened platform (t.destroy fun _ ↦ true)) := by
  obtain ⟨m, h, x, ht⟩ := hs.holds
  have hfile : ∀ i, UpToFlags (t.page i) (t.destroy (fun _ ↦ true) i) := fun i ↦
    (ht.heap.destroy .refl hs.synced (fun _ ↦ rfl) i).symm
  refine BTree.wp_openTree hp (ht.image.reflag hfile) fun t' ht' _ _ _ hsy ↦ ?_
  exact ⟨rfl, ⟨_, _, _, ht'⟩, hsy⟩

/-- Weaker agreement with the file is implied. -/
theorem mono {R' : Page K → Page K → Prop} (hs : Sound c S R t) (h : ∀ p q, R p q → R' p q) :
    Sound c S R' t :=
  ⟨hs.holds, fun i f hf hr ↦ h _ _ (hs.synced i f hf hr)⟩

end Sound

section Runs

variable {K : Type} {c : Config K} {S : K → Prop} {G : BTree K → Call K → Prop} {t : BTree K}

/-- Every admissible call with keys in order keeps the invariant, and the only fault is a file
past 2 GiB. -/
theorem Sound.wp_perform {call : Call K} (hwide : c.Wide) (hcmp : Comparison c.cmp S)
    (hs : Sound c S UpToFlags t) (hk : call.Keyed S) (ha : call.Admissible t) :
    wp Beyond (call.perform c) (fun _ t' ↦ Sound c S UpToFlags t') t := by
  by_cases hro : call.ReadOnly
  · refine wp_mono (hs.wp_readOnly .refl hcmp (fun key flag heq ↦ ?_) ha hro) fun _ _ h ↦ h.1
    subst heq
    exact hk
  · cases call with
    | put key value =>
      simp only [Call.perform, wp_bind, wp_pure]
      exact hs.wp_put .refl hwide hcmp hk
    | remove it =>
      obtain ⟨s, hst⟩ := ha
      obtain ⟨m, h, x, ht⟩ := hs.holds
      refine hst.wp_remove ht fun t' x' i pre post hi hf ht' _ _ ↦ ?_
      exact ⟨⟨m, h, x', ht'⟩, hf.synced hs.synced⟩
    | _ => exact absurd trivial hro

/-- Every tree that a session over keys in order reaches meets the invariant. -/
theorem Session.sound_of (hwide : c.Wide) (hcmp : Comparison c.cmp S)
    (hG : ∀ t call, G t call → call.Keyed S) (h : Session c G t) : Sound c S UpToFlags t := by
  induction h with
  | created platform file t hp h => exact (wp_ok (Sound.wp_created file hwide hp .refl) h).2.1
  | step t t' call _ ha hg h ih =>
    have := wp_ok (ih.wp_perform hwide hcmp (hG t call hg) ha) h
    exact this
  | reopened t t' platform _ hp h ih =>
    exact (wp_ok (ih.wp_reopened hp) h).2.mono fun p q hpq ↦ hpq ▸ .refl p

/-- Where all keys are in order, every tree that a session reaches meets the invariant. -/
theorem Session.sound (hwide : c.Wide) (hcmp : Comparison c.cmp fun _ ↦ True)
    (h : Session c G t) : Sound c (fun _ ↦ True) UpToFlags t :=
  h.sound_of hwide hcmp fun _ call _ ↦ call.keyed_true

end Runs

end ExampleEngine.Index
