import ExampleEngine.Index.Heap

/-!
# Code that asks for blocks

Library `Index`. On a platform where allocations and reads may fail, code that asks for blocks
runs as on a reliable one up to the first block that cannot be had. Covers
`src/lib/buffer.cpp:40–63` and `src/lib/btree.cpp:407–443`.
-/

namespace ExampleEngine.Index

open ExampleEngine.Base ExampleEngine.Storage

/-- What a block is asked for. -/
inductive Role where
  | node
  | data
  deriving DecidableEq, Repr

/-- A block that code asks for. -/
structure Fetch where
  role : Role
  index : Nat
  deriving DecidableEq, Repr

/-- What becomes of code that asks for blocks. -/
inductive Fate where
  /-- It obtains all of them. -/
  | served
  /-- The first block it cannot have is a data block without memory. -/
  | refused
  /-- The first block it cannot have is another one. -/
  | failed
  deriving DecidableEq, Repr

section Offline

variable {K α β : Type}

/-- What a pure function runs into is not an unreadable block: the functions on nodes are such. -/
def Offline (x : Except Fault α) : Prop := ∀ i, x ≠ .error (.unreadable i)

namespace Offline

protected theorem ok (a : α) : Offline (.ok a : Except Fault α) := nofun

protected theorem bind {x : Except Fault α} {f : α → Except Fault β} (hx : Offline x)
    (hf : ∀ a, Offline (f a)) : Offline (x >>= f) := by
  cases x with
  | ok a => exact hf a
  | error e => exact fun i h ↦ hx i (by cases h; rfl)

variable {n : NodeBlock K} {cmp : K → K → Int} {index : Nat} {key : K} {value : List UInt8}

theorem getSlot : Offline (n.getSlot index) := by
  unfold NodeBlock.getSlot
  split <;> exact nofun

theorem getKey : Offline (n.getKey index) := .bind getSlot fun _ ↦ .ok _

theorem getValue : Offline (n.getValue index) := .bind getSlot fun _ ↦ .ok _

theorem removed : Offline (n.removed index) := .bind getSlot fun _ ↦ .ok _

theorem maxKey : Offline n.maxKey := getKey

theorem compare : Offline (n.compare cmp index key) := .bind getKey fun _ ↦ .ok _

theorem holdsKey {c : Config K} : Offline (BTree.holdsKey c n index key) := by
  unfold BTree.holdsKey
  split
  · exact .bind compare fun _ ↦ .ok _
  · exact .ok _

private theorem lubLoop (fuel lo hi : Nat) : Offline (n.lubLoop cmp key fuel lo hi) := by
  induction fuel generalizing lo hi with
  | zero =>
    unfold NodeBlock.lubLoop
    split
    · exact fun i h ↦ by cases h
    · exact .ok _
  | succ fuel ih =>
    unfold NodeBlock.lubLoop
    split
    · refine .bind compare fun res ↦ ?_
      split
      · exact ih _ _
      · exact ih _ _
    · exact .ok _

theorem lub : Offline (n.lub cmp key) := lubLoop _ _ _

theorem full : Offline n.full := by
  unfold NodeBlock.full
  split <;> exact nofun

theorem insert : Offline (n.insert key value index) := by
  unfold NodeBlock.insert
  split <;> exact nofun

theorem insertKey : Offline (n.insertKey cmp key value) := .bind lub fun _ ↦ insert

theorem set {k : Option K} {w : Option (List UInt8)} {flag : UInt8} :
    Offline (n.set index k w flag) := .bind getSlot fun _ ↦ .ok _

end Offline

end Offline

namespace BTree

variable {K : Type}

/-- The tree on another platform. -/
def on (t : BTree K) (p : Platform) : BTree K :=
  { t with buffer := { t.buffer with platform := p } }

/-- A block is in the pool, or the platform provides it. -/
def obtains (p : Platform) (t : BTree K) (i : Nat) : Bool :=
  (t.buffer.frame i).isSome ||
    (p.alloc i && seekable i && p.readable (blockPosition i / BLOCK_SIZE))

/-- What becomes of blocks asked for one after the other. -/
def fate (p : Platform) (t : BTree K) : List Fetch → Fate
  | [] => .served
  | f :: l =>
    if obtains p t f.index then fate p t l
    else if f.role = .data ∧ p.alloc f.index = false then .refused
    else .failed

/-- What obtaining blocks does to the pool. -/
structure Took (t t' : BTree K) (l : List Fetch) : Prop where
  platform : t'.buffer.platform = t.buffer.platform
  pooled : ∀ i, t'.buffer.Pooled i ↔ t.buffer.Pooled i ∨ ∃ f ∈ l, f.index = i

variable {t t' t'' : BTree K} {p : Platform} {l l' : List Fetch} {f : Fetch} {i : Nat}

@[simp] theorem frame_on : (t.on p).buffer.frame i = t.buffer.frame i := rfl

namespace Took

/-- Asking for nothing. -/
theorem refl (t : BTree K) : Took t t [] := ⟨rfl, fun i ↦ by simp⟩

/-- Asking again. -/
theorem trans (h : Took t t' l) (h' : Took t' t'' l') : Took t t'' (l ++ l') where
  platform := h'.platform.trans h.platform
  pooled i := by
    rw [h'.pooled, h.pooled, or_assoc]
    simp only [List.mem_append, or_and_right, exists_or]

end Took

/-- What it takes to obtain a block. -/
theorem obtains_iff : obtains p t i = true ↔ t.buffer.Pooled i ∨
    p.alloc i = true ∧ seekable i = true ∧ p.readable (blockPosition i / BLOCK_SIZE) = true := by
  simp [obtains, BufferManager.Pooled, and_assoc]

/-- When all blocks are obtained, each of them is. -/
theorem fate_served : fate p t l = .served ↔ ∀ f ∈ l, obtains p t f.index = true := by
  induction l with
  | nil => simp [fate]
  | cons g l ih =>
    rw [fate, List.forall_mem_cons]
    split
    · next hg => rw [ih, and_iff_right hg]
    · next hg =>
      refine ⟨fun h ↦ ?_, fun h ↦ absurd h.1 hg⟩
      split at h <;> cases h

/-- What comes later matters once all before is obtained. -/
theorem fate_append : fate p t (l ++ l') =
    match fate p t l with
    | .served => fate p t l'
    | r => r := by
  induction l with
  | nil => rfl
  | cons g l ih =>
    rw [List.cons_append, fate, fate]
    split
    · exact ih
    · split <;> rfl

/-- Blocks obtained before make no difference to those asked for later. -/
theorem Took.fate_eq (h : Took t t' l) (hl : fate p t l = .served) :
    fate p t' l' = fate p t l' := by
  have hobtains : ∀ i, obtains p t' i = obtains p t i := by
    intro i
    rw [Bool.eq_iff_iff, obtains_iff, obtains_iff, h.pooled]
    constructor
    · rintro ((hi | ⟨f, hf, rfl⟩) | hi)
      · exact .inl hi
      · exact obtains_iff.mp (fate_served.mp hl f hf)
      · exact .inr hi
    · exact Or.imp_left .inl
  induction l' with
  | nil => rfl
  | cons g l' ih => rw [fate, fate, hobtains, ih]

section Asking

variable {α β : Type}

/-- Code stops, and not for want of a block. -/
def Stops (m : TreeM K α) (t : BTree K) : Prop :=
  ∃ e, m.run t = .error e ∧ ∀ i, e ≠ .unreadable i

/-- Code that asks for the blocks `l` from `t` and where it returns does so in `Q`: on the
platform `p` it ends as on a reliable one when it obtains all of them, returns in `R` when a data
block is refused, and else stops. -/
structure Asks (p : Platform) (m : TreeM K α) (t : BTree K) (l : List Fetch)
    (Q R : α → BTree K → Prop) : Prop where
  post : ∀ a t', m.run t = .ok (a, t') → Q a t'
  served : t.buffer.platform.Reliable → fate p t l = .served →
    (∃ a t', m.run t = .ok (a, t') ∧ m.run (t.on p) = .ok (a, t'.on p) ∧ Took t t' l) ∨
    Stops m t ∧ Stops m (t.on p)
  refused : t.buffer.platform.Reliable → fate p t l = .refused →
    (∃ a t', m.run (t.on p) = .ok (a, t'.on p) ∧ R a t') ∨ Stops m t
  failed : t.buffer.platform.Reliable → fate p t l = .failed → ∃ e, m.run (t.on p) = .error e

/-- Code that asks for no block. -/
structure Plain (p : Platform) (m : TreeM K α) : Prop where
  run : ∀ t, (∃ a t', m.run t = .ok (a, t') ∧ m.run (t.on p) = .ok (a, t'.on p) ∧ Took t t' []) ∨
    Stops m t ∧ Stops m (t.on p)

variable {m : TreeM K α} {g : α → TreeM K β} {Q R R' : α → BTree K → Prop}
  {QB RB : β → BTree K → Prop} {a : α}

/-- A run whose first part returns is a run of the rest. -/
theorem run_bind_ok (h : m.run t = .ok (a, t')) : (m >>= g).run t = (g a).run t' := by
  rw [StateT.run_bind, h]
  rfl

/-- A run whose first part stops stops there. -/
theorem run_bind_error {e : Fault} (h : m.run t = .error e) : (m >>= g).run t = .error e := by
  rw [StateT.run_bind, h]
  rfl

/-- A pure function leaves the tree alone. -/
theorem run_liftM {x : Except Fault α} (h : (liftM x : TreeM K α).run t = .ok (a, t')) :
    t' = t := by
  cases x with
  | ok b =>
    cases h
    rfl
  | error e => cases h

/-- Code whose first part stops stops. -/
theorem Stops.bind (h : Stops m t) : Stops (m >>= g) t := by
  obtain ⟨e, he, hu⟩ := h
  exact ⟨e, run_bind_error he, hu⟩

/-- Code stops where its second part does. -/
theorem Stops.after (h : Stops (g a) t') (hr : m.run t = .ok (a, t')) : Stops (m >>= g) t := by
  obtain ⟨e, he, hu⟩ := h
  exact ⟨e, by rw [run_bind_ok hr, he], hu⟩

private theorem run_deref (t : BTree K) : (deref (some i)).run t =
    match t.buffer.frame i with
    | some f => .ok (f.page, t)
    | none => .error Fault.nullPointer := by
  change (match t.buffer.frame i with
    | some f => (return f.page : TreeM K (Page K))
    | none => throw Fault.nullPointer).run t = _
  cases t.buffer.frame i <;> rfl

namespace Plain

protected theorem pure (a : α) : Plain p (pure a : TreeM K α) :=
  ⟨fun t ↦ .inl ⟨a, t, rfl, rfl, .refl t⟩⟩

protected theorem throw {e : Fault} (he : ∀ i, e ≠ .unreadable i) :
    Plain p (throw e : TreeM K α) :=
  ⟨fun _ ↦ .inr ⟨⟨e, rfl, he⟩, ⟨e, rfl, he⟩⟩⟩

protected theorem liftM {x : Except Fault α} (hx : Offline x) : Plain p (liftM x : TreeM K α) := by
  cases x with
  | ok a => exact .pure a
  | error e => exact .throw fun i he ↦ hx i (he ▸ rfl)

protected theorem bind (hm : Plain p m) (hg : ∀ a, Plain p (g a)) : Plain p (m >>= g) := by
  constructor
  intro t
  rcases hm.run t with ⟨a, t', hr, hr', ht⟩ | ⟨hs, hs'⟩
  · rcases (hg a).run t' with ⟨b, t'', hb, hb', ht'⟩ | ⟨hs, hs'⟩
    · exact .inl ⟨b, t'', by rw [run_bind_ok hr, hb], by rw [run_bind_ok hr', hb'], ht.trans ht'⟩
    · exact .inr ⟨hs.after hr, hs'.after hr'⟩
  · exact .inr ⟨hs.bind, hs'.bind⟩

protected theorem ite {c : Prop} [Decidable c] {m' : TreeM K α} (hm : Plain p m)
    (hm' : Plain p m') : Plain p (if c then m else m') := by
  split
  · exact hm
  · exact hm'

theorem deref (x : Option Nat) : Plain p (BTree.deref x : TreeM K (Page K)) := by
  cases x with
  | none => exact .throw nofun
  | some i =>
    constructor
    intro t
    unfold Stops
    rw [run_deref, run_deref, frame_on]
    cases t.buffer.frame i with
    | none => exact .inr ⟨⟨_, rfl, nofun⟩, ⟨_, rfl, nofun⟩⟩
    | some f => exact .inl ⟨_, t, rfl, rfl, .refl t⟩

theorem store (x : Option Nat) (page : Page K) : Plain p (BTree.store x page) := by
  cases x with
  | none => exact .throw nofun
  | some i =>
    constructor
    intro t
    refine .inl ⟨(), t.write i page, rfl, rfl, rfl, fun j ↦ ?_⟩
    simp

theorem readNode (x : Option Nat) : Plain p (BTree.readNode x : TreeM K (NodeBlock K)) := by
  refine .bind (deref x) fun page ↦ ?_
  cases page with
  | node n => exact .pure n
  | _ => exact .throw nofun

theorem readData (x : Option Nat) : Plain p (BTree.readData x : TreeM K DataBlock) := by
  refine .bind (deref x) fun page ↦ ?_
  cases page with
  | data d => exact .pure d
  | _ => exact .throw nofun

theorem readMeta : Plain p (BTree.readMeta : TreeM K BTreeMetadata) := by
  refine .bind (deref _) fun page ↦ ?_
  cases page with
  | metadata m => exact .pure m
  | _ => exact .throw nofun

theorem modifyNode (x : Option Nat) {h : NodeBlock K → Except Fault (NodeBlock K)}
    (hh : ∀ n, Offline (h n)) : Plain p (BTree.modifyNode x h) :=
  .bind (readNode x) fun n ↦ .bind (.liftM (hh n)) fun _ ↦ store x _

theorem growFile : Plain p (BTree.growFile : TreeM K Unit) :=
  .bind readMeta fun _ ↦ .ite (store _ _) (.pure _)

theorem reserved (x : Option Nat) : Plain p (BTree.reserved x : TreeM K Nat) := by
  cases x with
  | none => exact .throw nofun
  | some i =>
    have hrun : ∀ t : BTree K, (BTree.reserved (some i)).run t =
        match t.buffer.frame i with
        | some f => .ok (f.reserved, t)
        | none => .error Fault.nullPointer := by
      intro t
      change (match t.buffer.frame i with
        | some f => (return f.reserved : TreeM K Nat)
        | none => throw Fault.nullPointer).run t = _
      cases t.buffer.frame i <;> rfl
    constructor
    intro t
    unfold Stops
    rw [hrun, hrun, frame_on]
    cases t.buffer.frame i with
    | none => exact .inr ⟨⟨_, rfl, nofun⟩, ⟨_, rfl, nofun⟩⟩
    | some f => exact .inl ⟨_, t, rfl, rfl, .refl t⟩

theorem setRoot (i : Nat) :
    Plain p (modify fun t ↦ { t with root := i } : TreeM K Unit) :=
  ⟨fun t ↦ .inl ⟨(), { t with root := i }, rfl, rfl, ⟨rfl, fun _ ↦ by simp⟩⟩⟩

end Plain

namespace Asks

/-- Asking for nothing. -/
theorem of_plain (hm : Plain p m) (hQ : ∀ a t', m.run t = .ok (a, t') → Q a t') :
    Asks p m t [] Q R where
  post := hQ
  served _ _ := hm.run t
  refused _ h := nomatch h
  failed _ h := nomatch h

/-- Returning a value asks for nothing. -/
theorem of_pure (hQ : Q a t) : Asks p (pure a) t [] Q R := by
  refine of_plain (.pure a) fun b t' h ↦ ?_
  cases h
  exact hQ

/-- Code that stops on every platform may be said to ask for anything. -/
theorem of_stops (hs : Stops m t) (hs' : Stops m (t.on p)) : Asks p m t l Q R where
  post a t' h := by
    obtain ⟨e, he, _⟩ := hs
    rw [he] at h
    cases h
  served _ _ := .inr ⟨hs, hs'⟩
  refused _ _ := .inr hs
  failed _ _ := by
    obtain ⟨e, he, _⟩ := hs'
    exact ⟨e, he⟩

/-- The conclusions may be weakened. -/
theorem mono {Q' : α → BTree K → Prop} (h : Asks p m t l Q R) (hQ : ∀ a t', Q a t' → Q' a t')
    (hR : ∀ a t', R a t' → R' a t') : Asks p m t l Q' R' where
  post a t' hr := hQ a t' (h.post a t' hr)
  served := h.served
  refused hrel hl := (h.refused hrel hl).imp_left fun ⟨a, t', hr, hq⟩ ↦ ⟨a, t', hr, hR a t' hq⟩
  failed := h.failed

/-- Code that runs alike asks alike. -/
theorem congr {m' : TreeM K α} (hr : m.run t = m'.run t)
    (hr' : m.run (t.on p) = m'.run (t.on p)) (h : Asks p m' t l Q R) : Asks p m t l Q R := by
  obtain ⟨hpost, hserved, hrefused, hfailed⟩ := h
  unfold Stops at hserved hrefused
  rw [← hr] at hpost hserved hrefused
  rw [← hr'] at hserved hrefused hfailed
  exact ⟨hpost, hserved, hrefused, hfailed⟩

/-- Code that looks at the tree object, but not at the platform. -/
theorem get {g : BTree K → TreeM K β} (hg : g (t.on p) = g t) (h : Asks p (g t) t l QB RB) :
    Asks p (get >>= g) t l QB RB := by
  have hr : (MonadState.get >>= g).run (t.on p) = (g t).run (t.on p) := by
    rw [← hg]
    rfl
  exact congr (by rfl) hr h

/-- What is asked for first decides, unless it is obtained. -/
theorem bind (h : Asks p m t l Q R)
    (hg : ∀ a t', m.run t = .ok (a, t') → Q a t' → Asks p (g a) t' l' QB RB)
    (hR : ∀ a t', R a t' → ∃ b t'', (g a).run (t'.on p) = .ok (b, t''.on p) ∧ RB b t'') :
    Asks p (m >>= g) t (l ++ l') QB RB := by
  have hfate : fate p t (l ++ l') = _ := fate_append
  have hpost : ∀ b t'', (m >>= g).run t = .ok (b, t'') → QB b t'' := by
    intro b t'' hb
    obtain ⟨a, t', hr, hb'⟩ := run_of_bind hb
    exact (hg a t' hr (h.post a t' hr)).post b t'' hb'
  cases hl : fate p t l with
  | served =>
    rw [hl] at hfate
    -- what is asked for later finds the same blocks obtainable
    have hlater : ∀ t', Took t t' l → fate p t' l' = fate p t (l ++ l') :=
      fun t' ht ↦ (ht.fate_eq hl).trans hfate.symm
    refine ⟨hpost, fun hrel hs ↦ ?_, fun hrel hs ↦ ?_, fun hrel hs ↦ ?_⟩
    · rcases h.served hrel hl with ⟨a, t', hr, hr', ht⟩ | ⟨hst, hst'⟩
      · have hg := hg a t' hr (h.post a t' hr)
        rcases hg.served (ht.platform ▸ hrel) ((hlater t' ht).trans hs) with
          ⟨b, t'', hb, hb', ht'⟩ | ⟨hst, hst'⟩
        · exact .inl ⟨b, t'', by rw [run_bind_ok hr, hb], by rw [run_bind_ok hr', hb'],
            ht.trans ht'⟩
        · exact .inr ⟨hst.after hr, hst'.after hr'⟩
      · exact .inr ⟨hst.bind, hst'.bind⟩
    · rcases h.served hrel hl with ⟨a, t', hr, hr', ht⟩ | ⟨hst, hst'⟩
      · have hg := hg a t' hr (h.post a t' hr)
        rcases hg.refused (ht.platform ▸ hrel) ((hlater t' ht).trans hs) with
          ⟨b, t'', hb, hq⟩ | hst
        · exact .inl ⟨b, t'', by rw [run_bind_ok hr', hb], hq⟩
        · exact .inr (hst.after hr)
      · exact .inr hst.bind
    · rcases h.served hrel hl with ⟨a, t', hr, hr', ht⟩ | ⟨hst, e, he, _⟩
      · have hg := hg a t' hr (h.post a t' hr)
        obtain ⟨e, he⟩ := hg.failed (ht.platform ▸ hrel) ((hlater t' ht).trans hs)
        exact ⟨e, by rw [run_bind_ok hr', he]⟩
      · exact ⟨e, run_bind_error he⟩
  | refused =>
    rw [hl] at hfate
    refine ⟨hpost, fun _ hs ↦ ?_, fun hrel _ ↦ ?_, fun _ hs ↦ ?_⟩
    · exact nomatch hfate.symm.trans hs
    · rcases h.refused hrel hl with ⟨a, t', hr, hq⟩ | hs
      · obtain ⟨b, t'', hb, hq'⟩ := hR a t' hq
        exact .inl ⟨b, t'', by rw [run_bind_ok hr, hb], hq'⟩
      · exact .inr hs.bind
    · exact nomatch hfate.symm.trans hs
  | failed =>
    rw [hl] at hfate
    refine ⟨hpost, fun _ hs ↦ ?_, fun _ hs ↦ ?_, fun hrel _ ↦ ?_⟩
    · exact nomatch hfate.symm.trans hs
    · exact nomatch hfate.symm.trans hs
    · obtain ⟨e, he⟩ := h.failed hrel hl
      exact ⟨e, run_bind_error he⟩

/-- Plain code may come first. -/
theorem step (hm : Plain p m)
    (hg : ∀ a t', m.run t = .ok (a, t') → Asks p (g a) t' l QB RB) :
    Asks p (m >>= g) t l QB RB :=
  (of_plain (Q := fun _ _ ↦ True) (R := fun _ _ ↦ False) hm fun _ _ _ ↦ trivial).bind
    (fun a t' hr _ ↦ hg a t' hr) fun _ _ hf ↦ hf.elim

/-- So may code whose result is known. -/
theorem known (hm : Plain p m) (hr : m.run t = .ok (a, t)) (hg : Asks p (g a) t l QB RB) :
    Asks p (m >>= g) t l QB RB := by
  refine step hm fun b t' hb ↦ ?_
  rw [hr] at hb
  cases hb
  exact hg

/-- Code that asks for nothing more may come last. -/
theorem ends (h : Asks p m t l Q R)
    (hg : ∀ a t', m.run t = .ok (a, t') → Q a t' → Asks p (g a) t' [] QB RB)
    (hR : ∀ a t', R a t' → ∃ b t'', (g a).run (t'.on p) = .ok (b, t''.on p) ∧ RB b t'') :
    Asks p (m >>= g) t l QB RB := by
  have hbind := h.bind hg hR
  rwa [List.append_nil] at hbind

/-- Plain code may come last. -/
theorem last (h : Asks p m t l Q R) (hg : ∀ a, Plain p (g a))
    (hQ : ∀ a t', Q a t' → ∀ b t'', (g a).run t' = .ok (b, t'') → QB b t'')
    (hR : ∀ a t', R a t' → ∃ b t'', (g a).run (t'.on p) = .ok (b, t''.on p) ∧ RB b t'') :
    Asks p (m >>= g) t l QB RB :=
  h.ends (fun a t' _ hq ↦ of_plain (hg a) (hQ a t' hq)) hR

end Asks

section Blocks

variable {flag : Nat} {role : Role} {m : BTreeMetadata}

private theorem run_onBuffer (x : Code Fault (BufferManager K) α) :
    (onBuffer x).run t = match x.run t.buffer with
      | .ok (a, b) => .ok (a, { t with buffer := b })
      | .error e => .error e := by
  change zoom BTree.buffer (fun b t ↦ { t with buffer := b }) x t = _
  unfold zoom
  cases x.run t.buffer <;> rfl

private theorem run_getBlock_absent (hi : t.buffer.frame i = none) :
    (onBuffer (BufferManager.getBlock i flag)).run t =
      if t.buffer.platform.alloc i then
        match t.buffer.readBlock i with
        | some page => .ok (some i, { t with buffer :=
            { t.buffer with pool := (i, ⟨flag, page⟩) :: t.buffer.pool } })
        | none => .error (.unreadable i)
      else .ok (none, t) := by
  rw [run_onBuffer]
  unfold BufferManager.getBlock
  simp only [StateT.run_bind, StateT.run_get, pure_bind, hi]
  cases t.buffer.platform.alloc i with
  | false => rfl
  | true => cases t.buffer.readBlock i <;> rfl

/-- The metadata is read as it stands. -/
theorem run_readMeta (h : Heap t m) : readMeta.run t = .ok (m, t) := by
  have := (wp_readMeta (E := fun _ ↦ False) h fun m' t' ↦ m' = m ∧ t' = t).mpr ⟨rfl, rfl⟩
  obtain ⟨_, _, hr, rfl, rfl⟩ := exists_run this
  exact hr

/-- A pooled node is read as it stands. -/
theorem run_readNode {n : NodeBlock K} (hi : t.buffer.Pooled i) (hn : t.page i = .node n) :
    (readNode (some i)).run t = .ok (n, t) := by
  have := (wp_readNode (E := fun _ ↦ False) hi hn fun n' t' ↦ n' = n ∧ t' = t).mpr ⟨rfl, rfl⟩
  obtain ⟨_, _, hr, rfl, rfl⟩ := exists_run this
  exact hr

/-- A pooled data block is read as it stands. -/
theorem run_readData {d : DataBlock} (hi : t.buffer.Pooled i) (hd : t.page i = .data d) :
    (readData (some i)).run t = .ok (d, t) := by
  have := (wp_readData (E := fun _ ↦ False) hi hd fun d' t' ↦ d' = d ∧ t' = t).mpr ⟨rfl, rfl⟩
  obtain ⟨_, _, hr, rfl, rfl⟩ := exists_run this
  exact hr

/-- A block that is obtained is fetched as on a reliable platform. -/
private theorem run_getBlock_obtained (hrel : t.buffer.platform.Reliable)
    (ho : obtains p t i = true) :
    (∃ t', (onBuffer (BufferManager.getBlock i flag)).run t = .ok (some i, t') ∧
      (onBuffer (BufferManager.getBlock i flag)).run (t.on p) = .ok (some i, t'.on p) ∧
      Took t t' [⟨role, i⟩]) ∨
    Stops (onBuffer (BufferManager.getBlock i flag)) t ∧
      Stops (onBuffer (BufferManager.getBlock i flag)) (t.on p) := by
  cases hf : t.buffer.frame i with
  | some f =>
    have hp : t.buffer.Pooled i := by simp [BufferManager.Pooled, hf]
    have hf' : (t.on p).buffer.frame i = some f := hf
    unfold Stops
    rw [run_onBuffer, run_onBuffer, BufferManager.run_getBlock_pooled hf,
      BufferManager.run_getBlock_pooled hf']
    by_cases hidx : f.page.header.index = i
    · rw [if_pos hidx, if_pos hidx]
      refine .inl ⟨_, rfl, rfl, rfl, fun j ↦ ?_⟩
      simp only [BufferManager.pooled_modifyFrame, List.mem_singleton, exists_eq_left]
      exact ⟨.inl, fun h ↦ h.elim id fun hj ↦ hj ▸ hp⟩
    · rw [if_neg hidx, if_neg hidx]
      exact .inr ⟨⟨_, rfl, fun i h ↦ by cases h⟩, ⟨_, rfl, fun i h ↦ by cases h⟩⟩
  | none =>
    obtain ⟨ha, hs, hr⟩ : p.alloc i = true ∧ seekable i = true ∧
        p.readable (blockPosition i / BLOCK_SIZE) = true := by
      refine (obtains_iff.mp ho).resolve_left fun hp ↦ ?_
      simp [BufferManager.Pooled, hf] at hp
    have hread : t.buffer.readBlock i = some (t.buffer.file (blockPosition i / BLOCK_SIZE)) := by
      unfold BufferManager.readBlock
      rw [if_pos ⟨hs, hrel.readable _⟩]
    have hread' : (t.on p).buffer.readBlock i =
        some (t.buffer.file (blockPosition i / BLOCK_SIZE)) := by
      unfold BufferManager.readBlock
      rw [if_pos ⟨hs, hr⟩]
      rfl
    have ha' : (t.on p).buffer.platform.alloc i = true := ha
    rw [run_getBlock_absent hf, run_getBlock_absent (t := t.on p) hf, hread, hread',
      hrel.alloc, ha']
    refine .inl ⟨_, rfl, rfl, rfl, fun j ↦ ?_⟩
    simp only [List.mem_singleton, exists_eq_left]
    unfold BufferManager.Pooled BufferManager.frame
    rw [List.lookup_cons]
    by_cases hj : j = i
    · simp [hj]
    · have hne : (j == i) = false := by simp [hj]
      rw [hne, or_iff_left (Ne.symm hj)]

/-- A block that is not obtained is refused or unreadable. -/
private theorem run_getBlock_lacking (flag : Nat) (ho : ¬ obtains p t i = true) :
    (onBuffer (BufferManager.getBlock i flag)).run (t.on p) =
      if p.alloc i then .error (.unreadable i) else .ok (none, t.on p) := by
  have hn := mt obtains_iff.mpr ho
  rw [not_or] at hn
  have hf : (t.on p).buffer.frame i = none := by
    have := hn.1
    rwa [BufferManager.Pooled, Bool.not_eq_true, Option.isSome_eq_false_iff,
      Option.isNone_iff_eq_none] at this
  rw [run_getBlock_absent hf]
  change (if p.alloc i = true then _ else _) = _
  split
  · next ha =>
    have hread : (t.on p).buffer.readBlock i = none := by
      unfold BufferManager.readBlock
      rw [if_neg]
      rintro ⟨hs, hr⟩
      exact hn.2 ⟨ha, hs, hr⟩
    rw [hread]
  · rfl

private theorem run_getBlock_ok {r : Option Nat}
    (h : (onBuffer (BufferManager.getBlock i flag)).run t = .ok (r, t')) :
    r = some i ∨ r = none := by
  cases hf : t.buffer.frame i with
  | some f =>
    rw [run_onBuffer, BufferManager.run_getBlock_pooled hf] at h
    split at h
    · next hb =>
      split at hb
      · cases hb
        cases h
        exact .inl rfl
      · cases hb
    · cases h
  | none =>
    rw [run_getBlock_absent hf] at h
    split at h
    · split at h
      · cases h
        exact .inl rfl
      · cases h
    · cases h
      exact .inr rfl

namespace Asks

/-- Fetching a data block. -/
theorem getData : Asks p (onBuffer (BufferManager.getBlock i flag)) t [⟨.data, i⟩]
    (fun r _ ↦ r = some i ∨ r = none) fun r t' ↦ r = none ∧ t' = t := by
  have hpost : ∀ r t', (onBuffer (BufferManager.getBlock i flag)).run t = .ok (r, t') →
      r = some i ∨ r = none := fun _ _ ↦ run_getBlock_ok
  by_cases ho : obtains p t i = true
  · have hfate : fate p t [⟨.data, i⟩] = .served := by simp [fate, ho]
    refine ⟨hpost, fun hrel _ ↦ ?_, fun _ h ↦ ?_, fun _ h ↦ ?_⟩
    · rcases run_getBlock_obtained hrel ho with ⟨t', h⟩ | h
      · exact .inl ⟨_, t', h⟩
      · exact .inr h
    · exact nomatch hfate.symm.trans h
    · exact nomatch hfate.symm.trans h
  · have hrun := run_getBlock_lacking flag ho
    cases ha : p.alloc i with
    | false =>
      have hfate : fate p t [⟨.data, i⟩] = .refused := by simp [fate, ho, ha]
      rw [ha] at hrun
      refine ⟨hpost, fun _ h ↦ ?_, fun _ _ ↦ .inl ⟨none, t, hrun, rfl, rfl⟩, fun _ h ↦ ?_⟩
      · exact nomatch hfate.symm.trans h
      · exact nomatch hfate.symm.trans h
    | true =>
      have hfate : fate p t [⟨.data, i⟩] = .failed := by simp [fate, ho, ha]
      rw [ha] at hrun
      refine ⟨hpost, fun _ h ↦ ?_, fun _ h ↦ ?_, fun _ _ ↦ ⟨_, hrun⟩⟩
      · exact nomatch hfate.symm.trans h
      · exact nomatch hfate.symm.trans h

/-- Fetching a node block that the code goes on to use. -/
theorem getNode {g : Option Nat → TreeM K β} (hnone : ∀ t', Stops (g none) t')
    (hg : ∀ t', (onBuffer (BufferManager.getBlock i flag)).run t = .ok (some i, t') →
      Asks p (g (some i)) t' l QB RB) :
    Asks p (onBuffer (BufferManager.getBlock i flag) >>= g) t (⟨.node, i⟩ :: l) QB RB := by
  have hafter : ∀ r t', (onBuffer (BufferManager.getBlock i flag)).run t = .ok (r, t') →
      Asks p (g r) t' l QB RB := by
    intro r t' hr
    rcases run_getBlock_ok hr with rfl | rfl
    · exact hg t' hr
    · exact .of_stops (hnone _) (hnone _)
  by_cases ho : obtains p t i = true
  · have hfate : fate p t [⟨.node, i⟩] = .served := by simp [fate, ho]
    have hone : Asks p (onBuffer (BufferManager.getBlock i flag)) t [⟨.node, i⟩]
        (fun _ _ ↦ True) (fun _ _ ↦ False) := by
      refine ⟨fun _ _ _ ↦ trivial, fun hrel _ ↦ ?_, fun _ h ↦ ?_, fun _ h ↦ ?_⟩
      · rcases run_getBlock_obtained hrel ho with ⟨t', h⟩ | h
        · exact .inl ⟨_, t', h⟩
        · exact .inr h
      · exact nomatch hfate.symm.trans h
      · exact nomatch hfate.symm.trans h
    exact hone.bind (fun r t' hr _ ↦ hafter r t' hr) fun _ _ hf ↦ hf.elim
  · have hfate : fate p t (⟨.node, i⟩ :: l) = .failed := by simp [fate, ho]
    refine ⟨fun b t'' hb ↦ ?_, fun _ h ↦ ?_, fun _ h ↦ ?_, fun _ _ ↦ ?_⟩
    · obtain ⟨r, t', hr, hb'⟩ := run_of_bind hb
      exact (hafter r t' hr).post b t'' hb'
    · exact nomatch hfate.symm.trans h
    · exact nomatch hfate.symm.trans h
    · have hrun := run_getBlock_lacking flag ho
      cases ha : p.alloc i with
      | false =>
        rw [ha] at hrun
        obtain ⟨e, he, _⟩ := hnone (t.on p)
        exact ⟨e, by rw [run_bind_ok hrun, he]⟩
      | true =>
        rw [ha] at hrun
        exact ⟨_, run_bind_error hrun⟩

/-- `getNodeBlock`, by code that goes on to use the block. -/
theorem getNodeBlock {g : Option Nat → TreeM K β} (hnone : ∀ t', Stops (g none) t')
    (hg : ∀ t', (BTree.getNodeBlock i).run t = .ok (some i, t') → Asks p (g (some i)) t' l QB RB) :
    Asks p (BTree.getNodeBlock i >>= g) t (⟨.node, i⟩ :: l) QB RB := by
  unfold BTree.getNodeBlock
  rw [bind_assoc]
  refine step .readMeta fun m t₁ hm ↦ ?_
  have hrun : (BTree.getNodeBlock i).run t = (if i < m.countOfBlock then
      onBuffer (BufferManager.getBlock i 1) else throw .assertFailed : TreeM K _).run t₁ :=
    run_bind_ok hm
  split at hrun
  · next hi =>
    rw [if_pos hi]
    exact getNode hnone fun t' ht' ↦ hg t' (by rw [hrun, ht'])
  · next hi =>
    rw [if_neg hi]
    exact .of_stops (.bind ⟨_, rfl, nofun⟩) (.bind ⟨_, rfl, nofun⟩)

/-- `getFreeNodeBlock` asks for the next block. -/
theorem getFreeNodeBlock {R : Option Nat → BTree K → Prop} (hh : Heap t m)
    (type : BlockType) (keySize valueSize : Nat) :
    Asks p (BTree.getFreeNodeBlock type keySize valueSize : TreeM K (Option Nat)) t
      [⟨.node, m.countOfBlock⟩] (fun r t' ↦ r = some m.countOfBlock ∧ ∃ m', Allocated t t' m m'
        (.node ⟨⟨type, m.countOfBlock, 0, 0⟩, keySize, valueSize, []⟩)) R := by
  have hpost : wp Beyond (BTree.getFreeNodeBlock type keySize valueSize)
      (fun r t' ↦ r = some m.countOfBlock ∧ ∃ m', Allocated t t' m m'
        (.node ⟨⟨type, m.countOfBlock, 0, 0⟩, keySize, valueSize, []⟩)) t :=
    wp_getFreeNodeBlock hh (covers_beyond _) fun t' m' ha ↦ ⟨rfl, m', ha⟩
  suffices hasks : Asks p (BTree.getFreeNodeBlock type keySize valueSize : TreeM K (Option Nat)) t
      [⟨.node, m.countOfBlock⟩] (fun _ _ ↦ True) R from
    { hasks with post := fun r t' hr ↦ (wp_ok hpost hr :) }
  unfold BTree.getFreeNodeBlock
  refine step .growFile fun _ t₁ h₁ ↦ ?_
  obtain ⟨m₁, hg⟩ := wp_ok (wp_growFile (E := Beyond) (Q := fun _ t₁ ↦ ∃ m₁, Grew t t₁ m m₁) hh
    fun _ m₁ hg ↦ ⟨m₁, hg⟩) h₁
  refine known .readMeta (run_readMeta hg.heap) ?_
  rw [hg.count]
  refine getNode (fun t' ↦ .bind ⟨_, rfl, nofun⟩) fun t₂ _ ↦ of_plain ?_ fun _ _ _ ↦ trivial
  refine .bind (.reserved _) fun r ↦ .ite ?_ (.throw nofun)
  exact .bind (.deref _) fun _ ↦ .bind (.store _ _) fun _ ↦ .bind (.store _ _) fun _ ↦ .pure _

/-- `getFreeDataBlock` asks for the next block; refused, it has only made room in the file. -/
theorem getFreeDataBlock (hh : Heap t m) :
    Asks p (BTree.getFreeDataBlock : TreeM K (Option Nat)) t [⟨.data, m.countOfBlock⟩]
      (fun r t' ↦ r = some m.countOfBlock ∧ ∃ m' bytes, Allocated t t' m m'
        (.data ⟨⟨.data, m.countOfBlock, 0, 0⟩, BLOCK_SIZE, [], bytes⟩))
      fun r t' ↦ r = none ∧ ∃ m', Grew t t' m m' := by
  have hpost : wp Beyond BTree.getFreeDataBlock
      (fun r t' ↦ r = some m.countOfBlock ∧ ∃ m' bytes, Allocated t t' m m'
        (.data ⟨⟨.data, m.countOfBlock, 0, 0⟩, BLOCK_SIZE, [], bytes⟩)) t :=
    wp_getFreeDataBlock hh (covers_beyond _) fun t' m' bytes ha ↦ ⟨rfl, m', bytes, ha⟩
  suffices hasks : Asks p (BTree.getFreeDataBlock : TreeM K (Option Nat)) t
      [⟨.data, m.countOfBlock⟩] (fun _ _ ↦ True) (fun r t' ↦ r = none ∧ ∃ m', Grew t t' m m') from
    { hasks with post := fun r t' hr ↦ (wp_ok hpost hr :) }
  unfold BTree.getFreeDataBlock
  refine step .growFile fun _ t₁ h₁ ↦ ?_
  obtain ⟨m₁, hg⟩ := wp_ok (wp_growFile (E := Beyond) (Q := fun _ t₁ ↦ ∃ m₁, Grew t t₁ m m₁) hh
    fun _ m₁ hg ↦ ⟨m₁, hg⟩) h₁
  refine known .readMeta (run_readMeta hg.heap) ?_
  rw [hg.count]
  refine last getData (fun block ↦ ?_) (fun _ _ _ _ _ _ ↦ trivial) ?_
  · cases block with
    | none => exact .pure _
    | some i =>
      exact .bind (.deref _) fun _ ↦ .bind (.store _ _) fun _ ↦ .bind (.store _ _) fun _ ↦ .pure _
  · rintro _ _ ⟨rfl, rfl⟩
    exact ⟨none, _, rfl, rfl, m₁, hg⟩

end Asks

end Blocks

end Asking

end BTree

end ExampleEngine.Index
