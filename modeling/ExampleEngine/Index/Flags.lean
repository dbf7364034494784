import ExampleEngine.Index.Open
import ExampleEngine.Index.Locate

/-!
# Removal by flag

Library `Index`. `Iterator::remove` of `src/lib/btree.cpp:287–289` clears one flag. Blocks
that differ in flags only hold trees of the same shape, with the same keys and values, and
every iterator over them stays on its key.
-/

namespace ExampleEngine.Index

open ExampleEngine.Base ExampleEngine.Storage

variable {K : Type} {c : Config K} {S : K → Prop}

/-- A slot but for its flag. -/
def Slot.entry (s : Slot K) : K × List UInt8 := (s.key, s.value)

/-- Pages that differ at most in the flags of their slots. -/
inductive UpToFlags : Page K → Page K → Prop
  | refl (p : Page K) : UpToFlags p p
  | node (n : NodeBlock K) (kv : List (Slot K)) (h : kv.map Slot.entry = n.kv.map Slot.entry) :
      UpToFlags (.node n) (.node { n with kv := kv })

/-- The slots of a page. -/
def slotsOf : Page K → List (Slot K)
  | .node n => n.kv
  | _ => []

namespace UpToFlags

variable {p q r : Page K}

/-- The relation is transitive. -/
theorem trans (h : UpToFlags p q) (h' : UpToFlags q r) : UpToFlags p r := by
  cases h with
  | refl => exact h'
  | node n kv hkv =>
    cases h' with
    | refl => exact .node n kv hkv
    | node _ kv' hkv' => exact .node n kv' (hkv'.trans hkv)

/-- The relation is symmetric. -/
theorem symm (h : UpToFlags p q) : UpToFlags q p := by
  cases h with
  | refl => exact .refl p
  | node n kv hkv => exact .node { n with kv := kv } n.kv hkv.symm

/-- Pages up to flags have the same header. -/
theorem header (h : UpToFlags p q) : q.header = p.header := by
  cases h <;> rfl

/-- Pages up to flags have the same keys and values. -/
theorem slots (h : UpToFlags p q) :
    (slotsOf q).map Slot.entry = (slotsOf p).map Slot.entry := by
  cases h with
  | refl => rfl
  | node n kv hkv => exact hkv

/-- A node up to flags is a node. -/
theorem exists_node {n : NodeBlock K} (h : UpToFlags (.node n) q) :
    ∃ kv, q = .node { n with kv := kv } ∧ kv.map Slot.entry = n.kv.map Slot.entry := by
  cases h with
  | refl => exact ⟨n.kv, rfl, rfl⟩
  | node _ kv hkv => exact ⟨kv, rfl, hkv⟩

/-- A data block has no flags. -/
theorem data {d : DataBlock} (h : UpToFlags (.data d) q) : q = .data d := by
  cases h
  rfl

/-- The metadata has no flags. -/
theorem metadata {m : BTreeMetadata} (h : UpToFlags (.metadata m) q) : q = .metadata m := by
  cases h
  rfl

end UpToFlags

section Refill

variable {v v' : Nat → Page K} {m : BTreeMetadata} {h : Nat} {x : LTree (Slot K) h}

/-- The tree that blocks hold, with the flags they have now. -/
def reflag (v : Nat → Page K) (h : Nat) (x : LTree (Slot K) h) : LTree (Slot K) h :=
  LTree.refill (fun i ↦ slotsOf (v i)) h x

private theorem leaf_entry (hx : Rep c v h x) (hv : ∀ i, UpToFlags (v i) (v' i)) :
    ∀ lf ∈ LTree.leaves h x, (slotsOf (v' lf.id)).map Slot.entry = lf.items.map Slot.entry := by
  intro lf hlf
  obtain ⟨n, hn, _, hkv⟩ := hx.leaf lf hlf
  rw [(hv lf.id).slots, hn]
  exact congrArg _ hkv

private theorem leaf_key (hx : Rep c v h x) (hv : ∀ i, UpToFlags (v i) (v' i)) :
    ∀ lf ∈ LTree.leaves h x, (slotsOf (v' lf.id)).map Slot.key = lf.items.map Slot.key := by
  intro lf hlf
  have := congrArg (List.map Prod.fst) (leaf_entry hx hv lf hlf)
  rwa [List.map_map, List.map_map] at this

private theorem leaf_length (hx : Rep c v h x) (hv : ∀ i, UpToFlags (v i) (v' i)) :
    ∀ lf ∈ LTree.leaves h x, (slotsOf (v' lf.id)).length = lf.items.length := by
  intro lf hlf
  have := congrArg List.length (leaf_entry hx hv lf hlf)
  rwa [List.length_map, List.length_map] at this

/-- The entries with other flags have the same keys and values. -/
theorem entries_reflag (hx : Rep c v h x) (hv : ∀ i, UpToFlags (v i) (v' i)) :
    (LTree.entries h (reflag v' h x)).map Slot.entry = (LTree.entries h x).map Slot.entry :=
  LTree.map_entries_refill Slot.entry x (leaf_entry hx hv)

private theorem forall₂_map_of_mem {α β γ : Type} {R : α → β → Prop} {R' : α → γ → Prop}
    {f : β → γ} {l : List α} {u : List β} (hf : List.Forall₂ R l u)
    (hR : ∀ a, ∀ b ∈ u, R a b → R' a (f b)) : List.Forall₂ R' l (u.map f) := by
  induction hf with
  | nil => exact .nil
  | cons hab _ ih =>
    exact .cons (hR _ _ (by simp) hab) (ih fun a b hb ↦ hR a b (by simp [hb]))

/-- Blocks up to flags hold a tree of the same shape. -/
theorem Rep.reflag (hx : Rep c v h x) (hv : ∀ i, UpToFlags (v i) (v' i)) :
    Rep c v' h (reflag v' h x) := by
  induction h with
  | zero =>
    obtain ⟨n, hn, hs, _⟩ := hx
    obtain ⟨kv, hkv, _⟩ := (hn ▸ hv x.id).exists_node
    refine ⟨_, hkv, ⟨hs.keySize, hs.valSize, hs.type⟩, ?_⟩
    change kv = slotsOf (v' x.id)
    rw [hkv]
    rfl
  | succ h ih =>
    obtain ⟨⟨n, hn, hs, hf⟩, hsub⟩ := hx
    obtain ⟨kv, hkv, hent⟩ := (hn ▸ hv x.id).exists_node
    refine ⟨⟨_, hkv, ⟨hs.keySize, hs.valSize, hs.type⟩, ?_⟩, ?_⟩
    · -- what a slot names does not depend on its flag
      let R (p : K × List UInt8) (y : LTree (Slot K) h) : Prop :=
        LTree.topKey Slot.key h y = some p.1 ∧ p.2 = leBytes 4 y.id
      have hold : List.Forall₂ R (n.kv.map Slot.entry) x.children :=
        List.forall₂_map_left_iff.mpr hf
      rw [← hent] at hold
      refine forall₂_map_of_mem (List.forall₂_map_left_iff.mp hold) ?_
      rintro s y hy ⟨htop, hid⟩
      refine ⟨?_, ?_⟩
      · rw [LTree.topKey_refill y (leaf_key (hsub y hy) hv)]
        exact htop
      · rw [LTree.id_refill]
        exact hid
    · intro y hy
      obtain ⟨z, hz, rfl⟩ := List.mem_map.mp hy
      exact ih (hsub z hz)

private theorem sorted_entry {cmp : K → K → Int} {es es' : List (Slot K)}
    (he : es'.map Slot.entry = es.map Slot.entry) (hs : Sorted cmp Slot.key es) :
    Sorted cmp Slot.key es' := by
  have hs' : (es.map Slot.entry).Pairwise fun a b ↦ cmp a.1 b.1 < 0 :=
    List.pairwise_map.mpr hs
  rw [← he] at hs'
  exact List.pairwise_map.mp hs'

/-- An entry with other flags was an entry before. -/
private theorem exists_entry {es es' : List (Slot K)}
    (he : es'.map Slot.entry = es.map Slot.entry) {e' : Slot K} (hmem : e' ∈ es') :
    ∃ e ∈ es, e.key = e'.key ∧ e.value = e'.value := by
  have hm : Slot.entry e' ∈ es.map Slot.entry := he ▸ List.mem_map_of_mem hmem
  obtain ⟨e, hes, heq⟩ := List.mem_map.mp hm
  exact ⟨e, hes, congrArg Prod.fst heq, congrArg Prod.snd heq⟩

/-- Data blocks have no flags to differ in. -/
theorem keepsData_of_upToFlags (hv : ∀ i, UpToFlags (v i) (v' i)) (n : Nat) :
    KeepsData v v' n :=
  .of_eq fun i _ _ hd ↦ (hd ▸ hv i).data

/-- Blocks up to flags hold the same tree with other flags. -/
theorem Image.reflag (hi : Image c S v m h x) (hv : ∀ i, UpToFlags (v i) (v' i)) :
    Image c S v' m h (reflag v' h x) := by
  have hent := entries_reflag hi.tree.rep hv
  have hlen : (Index.reflag v' h x).items.length = x.items.length :=
    LTree.length_refill x (leaf_length hi.tree.rep hv)
  constructor
  · exact (hi.metadata ▸ hv 0).metadata
  · intro i hlt
    rw [(hv i).header, hi.index i hlt]
  · exact hi.count_le
  · exact hi.number
  · rw [hi.root]
    exact (LTree.id_refill x).symm
  · constructor
    · exact hi.tree.rep.reflag hv
    · exact LTree.bounded_refill x hi.tree.bounded (leaf_length hi.tree.rep hv)
    · exact fun h0 ↦ hlen ▸ hi.tree.nonempty h0
    · exact hlen ▸ hi.tree.room
    · exact sorted_entry hent hi.tree.sorted
    · intro e he
      obtain ⟨e', he', hk, _⟩ := exists_entry hent he
      exact hk ▸ hi.tree.keys e' he'
    · intro e he hc
      obtain ⟨e', he', _, hval⟩ := exists_entry hent he
      have hkeep := keepsData_of_upToFlags hv m.countOfBlock
      exact hval ▸ hkeep.recorded (Nat.le_refl _) (hi.tree.values e' he') hc
    · have hL : (fun d ↦ [] ++ LTree.level h (Index.reflag v' h x) d ++ []) =
          fun d ↦ [] ++ LTree.level h x d ++ [] := by
        funext d
        rw [Index.reflag, LTree.level_refill]
      rw [hL]
      refine hi.tree.placed.congr (Nat.le_refl _) fun d i _ b hb ↦ ?_
      obtain ⟨kv, hkv, _⟩ := (hb ▸ hv i).exists_node
      exact ⟨_, hkv, rfl, rfl⟩
  · exact fun h0 ↦ hlen ▸ hi.two h0
  · intro i hi0 hlt
    rcases hi.roles i hi0 hlt with hd | ⟨d, hd⟩
    · exact .inl ((keepsData_of_upToFlags hv _).isData hlt hd)
    · exact .inr ⟨d, by rwa [Index.reflag, LTree.level_refill]⟩

end Refill

namespace BTree

variable {t t' : BTree K} {m : BTreeMetadata} {h : Nat} {x : LTree (Slot K) h}

/-- A heap whose blocks hold a tree with a pinned root is an open tree. -/
theorem Holds.of_image (hi : Image c S t.page m h x) (hh : Heap t m) (hr : t.root = x.id)
    (hd : t.buffer.Dirty x.id) : Holds c S t m h x :=
  ⟨hh, hr, hi.root, hd, hi.tree, hi.two, hi.roles⟩

/-- What a removal does: one flag is cleared, whatever the dirty mark of the leaf. -/
structure Flagged (t t' : BTree K) (m : BTreeMetadata) (i : Nat) : Prop where
  heap : Heap t' m
  root : t'.root = t.root
  page : ∀ j, UpToFlags (t.page j) (t'.page j)
  pooled : ∀ j, t'.buffer.Pooled j ↔ t.buffer.Pooled j
  dirty : ∀ j, t'.buffer.Dirty j ↔ t.buffer.Dirty j
  platform : t'.buffer.platform = t.buffer.platform
  synced : t.buffer.Synced UpToFlags → t'.buffer.Synced UpToFlags
  marked : t.buffer.Dirty i → t.buffer.Synced Eq → t'.buffer.Synced Eq

/-- Clearing flags keeps the tree. -/
theorem Holds.flagged {i : Nat} (ht : Holds c S t m h x) (hf : Flagged t t' m i) :
    Holds c S t' m h (reflag t'.page h x) := by
  have hid : (reflag t'.page h x).id = x.id := LTree.id_refill x
  refine .of_image (ht.image.reflag hf.page) hf.heap ?_ ?_
  · rw [hf.root, ht.root, hid]
  · rw [hid]
    exact (hf.dirty x.id).mpr ht.dirty

/-- Storing a node with other flags. -/
theorem flagged_write {i : Nat} {n : NodeBlock K} {kv : List (Slot K)} (hh : Heap t m)
    (hi : t.buffer.Pooled i) (hn : t.page i = .node n)
    (hkv : kv.map Slot.entry = n.kv.map Slot.entry) :
    Flagged t (t.write i (.node { n with kv := kv })) m i := by
  have hi0 : i ≠ 0 := hh.ne_zero_of_node hn
  have hup : UpToFlags (t.page i) (.node { n with kv := kv }) := hn ▸ .node n kv hkv
  have hidx := hh.index i (hh.pooled i hi)
  constructor
  · refine hh.write hi ?_ (fun h0 ↦ absurd h0 hi0) (fun _ ↦ rfl) rfl hh.number
    rw [hn] at hidx
    exact hidx
  · rfl
  · intro j
    rw [page_write hi]
    by_cases hj : j = i
    · subst hj
      rw [Function.update_self]
      exact hup
    · rw [Function.update_of_ne hj]
      exact .refl _
  · exact fun j ↦ pooled_write _
  · exact fun j ↦ BufferManager.dirty_modifyFrame _
  · rfl
  · exact fun hs ↦ BufferManager.synced_store hs fun q hq ↦ hq.trans hup
  · exact fun hd hs ↦ (BufferManager.later_store hd _).synced Eq (fun _ ↦ rfl) hs

end BTree

namespace At

open BTree

variable {t : BTree K} {m : BTreeMetadata} {h : Nat} {x : LTree (Slot K) h} {it : Iterator}
  {pre post : List (Slot K)} {e : Slot K}

/-- `remove` clears the flag of the entry under the iterator, which stays on it. -/
theorem wp_remove {E : Fault → Prop} {Q : Unit → BTree K → Prop}
    (ha : At t h x it pre e post) (ht : Holds c S t m h x)
    (hQ : ∀ t' i, it.cur = some i → Flagged t t' m i →
      At t' h (reflag t'.page h x) it pre { e with flag := 0 } post → Q () t') :
    wp E it.remove Q t := by
  obtain ⟨L₁, lf, L₂, a, b, hL, hlf, hit, hp, rfl, rfl⟩ := ha.pos
  have hmem : lf ∈ LTree.leaves h x := by rw [hL]; simp
  obtain ⟨n, hn, _, hkv⟩ := ht.tree.rep.leaf lf hmem
  have hidx : slotIndex it.index = a.length := by
    obtain ⟨i, n', a', b', hit', _, _, _, _, hs⟩ := ha.leaf ht
    rw [hs]
    have := hit'.symm.trans hit
    simp only [Iterator.mk.injEq] at this
    omega
  have hkv' := hkv.trans hlf
  have hf : Flagged t (t.write lf.id (.node { n with kv := a ++ { e with flag := 0 } :: b }))
      m lf.id := flagged_write ht.heap hp hn (by rw [hkv']; simp [Slot.entry])
  unfold Iterator.remove
  rw [hidx, hit]
  rw [wp_modifyNode hp hn (NodeBlock.removeByFlag_append hkv')]
  refine hQ _ lf.id (by rw [hit]) hf ?_
  -- the leaves are where they were, and only the one under the iterator was changed
  have hnodup := ht.placed.nodup 0
  rw [LTree.level_zero, hL, List.map_append, List.map_cons, List.nodup_append] at hnodup
  obtain ⟨_, hnd, hdis⟩ := hnodup
  obtain ⟨hni, _⟩ := List.nodup_cons.mp hnd
  have hpage : (t.write lf.id (.node { n with kv := a ++ { e with flag := 0 } :: b })).page =
      Function.update t.page lf.id (.node { n with kv := a ++ { e with flag := 0 } :: b }) :=
    page_write hp _
  have hother : ∀ L : List (Numbered (Slot K)),
      (∀ lf' ∈ L, lf' ∈ LTree.leaves h x ∧ lf'.id ≠ lf.id) →
      (L.map fun lf' ↦ (⟨lf'.id, slotsOf ((t.write lf.id (.node { n with
        kv := a ++ { e with flag := 0 } :: b })).page lf'.id)⟩ : Numbered (Slot K))) = L := by
    intro L hLs
    conv_rhs => rw [← List.map_id L]
    refine List.map_congr_left fun lf' hlf' ↦ ?_
    obtain ⟨hmem', hne⟩ := hLs lf' hlf'
    obtain ⟨n', hn', _, hkv''⟩ := ht.tree.rep.leaf lf' hmem'
    rw [hpage, Function.update_of_ne hne, hn']
    change (⟨lf'.id, n'.kv⟩ : Numbered (Slot K)) = lf'
    rw [hkv'']
  have hL₁ : ∀ lf' ∈ L₁, lf' ∈ LTree.leaves h x ∧ lf'.id ≠ lf.id := by
    intro lf' hlf'
    refine ⟨by rw [hL]; simp [hlf'], ?_⟩
    exact hdis _ (List.mem_map_of_mem hlf') _ (by simp)
  have hL₂ : ∀ lf' ∈ L₂, lf' ∈ LTree.leaves h x ∧ lf'.id ≠ lf.id := by
    intro lf' hlf'
    refine ⟨by rw [hL]; simp [hlf'], ?_⟩
    rintro heq
    exact hni (heq ▸ List.mem_map_of_mem hlf')
  refine ⟨L₁, ⟨lf.id, a ++ { e with flag := 0 } :: b⟩, L₂, a, b, ?_, rfl, hit ▸ rfl,
    (hf.pooled _).mpr hp, rfl, rfl⟩
  rw [reflag, LTree.leaves_refill, hL, List.map_append, List.map_cons, hother L₁ hL₁,
    hother L₂ hL₂, hpage, Function.update_self]
  rfl

end At

end ExampleEngine.Index
