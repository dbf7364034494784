import Mathlib.Data.List.Sort
import ExampleEngine.Index.Runs
import ExampleEngine.Index.Sizes

/-!
# Putting a removed key again

Library `Index`. What `put` of `src/lib/btree.cpp:495–620` changes when the key is in the tree
with its flag cleared: the slot of the key and one data block. Iterators stay where they are, and
a loop may remove and put the entry that it stands on before it moves on.
-/

namespace ExampleEngine.Index

open ExampleEngine.Base ExampleEngine.Storage

variable {K : Type} {c : Config K} {S : K → Prop}

/-- A value of variable size becomes a record of one data block; one of constant size takes no
block. -/
def Stores (c : Config K) (v v' : Nat → Page K) (n n' : Nat) : Prop :=
  if c.isConstValueSize then n' = n ∧ ∀ i, i ≠ 0 → v' i = v i
  else ∃ j, BTree.Appends v v' n n' j

/-- The blocks but the metadata after a removed entry for the key was made live again: first the
value is stored, then the slot is set. -/
structure Revives (c : Config K) (key : K) (value : List UInt8) (v v' : Nat → Page K)
    (n n' : Nat) : Prop where
  slot : ∃ u p b A e B w, Stores c v u n n' ∧ p < n ∧ v p = .node b ∧ b.leaf = true ∧
    b.kv = A ++ e :: B ∧ c.cmp e.key key = 0 ∧ e.isRemoved = true ∧
    Written c v' n' value w ∧ ∀ i, i ≠ 0 →
      v' i = Function.update u p (.node { b with kv := A ++ reviveWith w e :: B }) i

/-- Nodes with the same header and the same keys. -/
structure SameKeys (b b' : NodeBlock K) : Prop where
  header : b'.header = b.header
  keySize : b'.keySize = b.keySize
  valSize : b'.valSize = b.valSize
  keys : b'.kv.map Slot.key = b.kv.map Slot.key

/-- They have as many slots. -/
theorem SameKeys.count {b b' : NodeBlock K} (h : SameKeys b b') : b'.count = b.count := by
  have := congrArg List.length h.keys
  rwa [List.length_map, List.length_map] at this

section Stores

variable {v u : Nat → Page K} {n n' i : Nat} {b : NodeBlock K}

/-- Storing a value changes no node in use. -/
theorem Stores.node (h : Stores c v u n n') (hi0 : i ≠ 0) (hi : i < n) (hb : v i = .node b) :
    u i = .node b := by
  unfold Stores at h
  split at h
  · rw [h.2 i hi0, hb]
  · obtain ⟨j, hj⟩ := h
    obtain ⟨d, _, hd, _⟩ := hj.block
    have hij : i ≠ j := by
      rintro rfl
      rcases hd with ⟨hd, _, _⟩ | ⟨_, hn, _⟩
      · rw [hb] at hd
        cases hd
      · omega
    rw [hj.other i hi0 hij, hb]

/-- It makes no block a node, and blocks in use stay in use. -/
theorem Stores.node_of (h : Stores c v u n n') (hi0 : i ≠ 0) (hi : i < n') (hb : u i = .node b) :
    i < n ∧ v i = .node b := by
  unfold Stores at h
  split at h
  · rw [h.2 i hi0] at hb
    exact ⟨h.1 ▸ hi, hb⟩
  · obtain ⟨j, hj⟩ := h
    obtain ⟨d, d', hd, hd', _⟩ := hj.block
    have hij : i ≠ j := by
      rintro rfl
      rw [hb] at hd'
      cases hd'
    refine ⟨?_, by rw [← hj.other i hi0 hij, hb]⟩
    rcases hd with ⟨_, _, hn⟩ | ⟨_, hjn, hn⟩ <;> omega

/-- Blocks in use stay in use. -/
theorem Stores.le (h : Stores c v u n n') : n ≤ n' := by
  unfold Stores at h
  split at h
  · exact Nat.le_of_eq h.1.symm
  · obtain ⟨j, hj⟩ := h
    obtain ⟨d, d', hd, _⟩ := hj.block
    rcases hd with ⟨_, _, hn⟩ | ⟨_, _, hn⟩ <;> omega

end Stores

namespace Revives

variable {key : K} {value : List UInt8} {v v' : Nat → Page K} {n n' i : Nat} {b : NodeBlock K}

/-- The nodes in use keep their headers and keys. -/
theorem node (h : Revives c key value v v' n n') (hi0 : i ≠ 0) (hi : i < n) (hb : v i = .node b) :
    ∃ b', v' i = .node b' ∧ SameKeys b b' := by
  obtain ⟨u, p, bp, A, e, B, w, hst, _, hp, _, hkv, _, _, _, hv'⟩ := h.slot
  rw [hv' i hi0]
  by_cases hip : i = p
  · subst hip
    rw [hb] at hp
    cases hp
    refine ⟨_, Function.update_self .., rfl, rfl, rfl, ?_⟩
    rw [hkv]
    simp only [List.map_append, List.map_cons]
    rfl
  · rw [Function.update_of_ne hip]
    exact ⟨b, hst.node hi0 hi hb, rfl, rfl, rfl, rfl⟩

/-- There are no other nodes than before. -/
theorem node_of (h : Revives c key value v v' n n') (hi0 : i ≠ 0) (hi : i < n')
    (hb : v' i = .node b) : i < n ∧ ∃ b', v i = .node b' := by
  obtain ⟨u, p, bp, A, e, B, w, hst, hpn, hp, _, _, _, _, _, hv'⟩ := h.slot
  rw [hv' i hi0] at hb
  by_cases hip : i = p
  · exact hip ▸ ⟨hpn, bp, hp⟩
  · rw [Function.update_of_ne hip] at hb
    obtain ⟨hin, hvi⟩ := hst.node_of hi0 hi hb
    exact ⟨hin, b, hvi⟩

/-- Blocks in use stay in use. -/
theorem le (h : Revives c key value v v' n n') : n ≤ n' := by
  obtain ⟨u, p, bp, A, e, B, w, hst, _⟩ := h.slot
  exact hst.le

end Revives

namespace BTree

variable {t t' t'' : BTree K} {m m' : BTreeMetadata} {key : K} {value : List UInt8}
  {E : Fault → Prop} {Q : Int → BTree K → Prop}

/-- A tree after a removed entry for the key was made live again. -/
structure Revived (c : Config K) (key : K) (value : List UInt8) (t t' : BTree K)
    (m m' : BTreeMetadata) : Prop where
  later : Later t t'
  heap : Heap t' m'
  root : m'.root = m.root
  revives : Revives c key value t.page t'.page m.countOfBlock m'.countOfBlock

/-- Blocks are fetched before the entry is revived. -/
private theorem Revived.of_fetched {i flag : Nat} (h : Revived c key value t' t'' m m')
    (hf : Fetched t t' m i flag) : Revived c key value t t'' m m' :=
  ⟨hf.later.trans h.later, h.heap, h.root, hf.page ▸ h.revives⟩

/-- The leaf case revives a removed slot at the least upper bound of the key. -/
theorem wp_insertLeaf_removed {p : Nat} {n : NodeBlock K} {A B : List (Slot K)} {e : Slot K}
    (h : Heap t m) (hE : Covers E (m.countOfBlock + blocksFor value)) (hd : t.buffer.Dirty p)
    (h0 : p ≠ 0) (hn : t.page p = .node n) (hs : Shape c 0 n) (hkv : n.kv = A ++ e :: B)
    (hek : c.cmp e.key key = 0) (hdead : e.isRemoved = true)
    (hv : Recorded c t.page m.countOfBlock e.value)
    (hQ : ∀ r t', (r = 1 → ∃ m', Revived c key value t t' m m') → Q r t') :
    wp E (insertLeaf c key value (some p) A.length) Q t := by
  have hpm : p < m.countOfBlock := h.pooled p hd.pooled
  have hidx : n.header.index = p := by
    have := h.index p hpm
    rwa [hn] at this
  have hlt : A.length < n.count := by
    rw [NodeBlock.count, hkv]
    simp
  have hholds : holdsKey c n A.length key = .ok true := by
    unfold holdsKey
    rw [if_pos hlt, NodeBlock.compare_append hkv, hek]
    rfl
  have hleaf : n.leaf = true := by simp [hs.leaf]
  have hval : n.valSize = c.leafValueSize := hs.valSize
  -- the slot is set once its bytes are known
  have hset : ∀ t₁ m₁ w, Records t t₁ m m₁ →
      Stores c t.page t₁.page m.countOfBlock m₁.countOfBlock →
      Written c t₁.page m₁.countOfBlock value (w.take n.valSize) →
      wp E (do modifyNode (some p) (·.set A.length none (some w) 1); return 1) Q t₁ := by
    intro t₁ m₁ w hr hst hw
    have hn₁ := hr.node p n hpm hn
    simp only [wp_bind]
    refine wp_modify_page hr.heap (hr.later.dirty hd) h0 hn₁
      (NodeBlock.set_append hkv none (some w) 1) hidx fun t₂ hl₂ h₂ hp₂ ↦ ?_
    have hkeep : KeepsData t₁.page t₂.page m₁.countOfBlock := by
      refine .of_eq fun i d _ hdi ↦ ?_
      have hip : i ≠ p := by
        rintro rfl
        rw [hn₁] at hdi
        cases hdi
      rw [hp₂, Function.update_of_ne hip, hdi]
    refine hQ 1 t₂ fun _ ↦ ⟨m₁, hr.later.trans hl₂, h₂, hr.root, ?_⟩
    exact ⟨t₁.page, p, n, A, e, B, w.take n.valSize, hst, hpm, hn, hleaf, hkv, hek, hdead,
      hkeep.written (Nat.le_refl _) hw, fun i _ ↦ by rw [hp₂]; rfl⟩
  unfold insertLeaf
  simp only [wp_bind, wp_readNode hd.pooled hn, hholds, if_true, wp_liftM,
    NodeBlock.removed_append hkv, hdead]
  cases hc : c.isConstValueSize with
  | true =>
    simp only [if_true]
    refine hset t m value (.refl h) ?_ ?_
    · unfold Stores
      rw [if_pos hc]
      exact ⟨rfl, fun _ _ ↦ rfl⟩
    · unfold Written
      rw [if_pos hc, hval]
  | false =>
    simp only [Bool.false_eq_true, if_false, NodeBlock.getValue_append hkv, wp_liftM, wp_bind]
    obtain ⟨hlt, hdata⟩ := hv hc
    refine wp_insertValue h (Nat.le_of_lt hlt) (fun _ ↦ hdata.isData) hE
      fun r t₁ m₁ hr hin _ _ hap ↦ ?_
    cases r with
    | none => exact hQ (-1) t₁ fun hne ↦ absurd hne (by decide)
    | some loc =>
      refine hset t₁ m₁ loc.toBytes hr ?_ ?_
      · unfold Stores
        rw [hc]
        exact ⟨loc.index, hap loc rfl⟩
      · rw [hval, toBytes_take hc]
        exact hin.written hc

/-- Insertion revives the removed entry for the key in a subtree that has one. -/
theorem wp_insert_removed {h fuel : Nat} {x : LTree (Slot K) h} {A B : Nat → List Nat} {e : Slot K}
    (hwide : c.Wide) (hcmp : Comparison c.cmp S) (hk : S key) (hfuel : h < fuel) (hh : Heap t m)
    (hE : Covers E (m.countOfBlock + blocksFor value)) (hd : t.buffer.Dirty x.id)
    (hs : Subtree c S t.page m.countOfBlock A B h x) (he : e ∈ LTree.entries h x)
    (hek : c.cmp e.key key = 0) (hdead : e.isRemoved = true)
    (hQ : ∀ r t', (r = 1 → ∃ m', Revived c key value t t' m m') → Q r t') :
    wp E (insert c key value fuel (some x.id)) Q t := by
  induction h generalizing fuel t A B Q with
  | zero =>
    obtain ⟨fuel, rfl⟩ : ∃ f, fuel = f + 1 := ⟨fuel - 1, by omega⟩
    obtain ⟨n, hn, hshape, hkv⟩ := hs.rep
    have hkv' : n.kv = LTree.entries 0 x := hkv
    have hx0 : x.id ≠ 0 := by
      have := (hs.placed.range 0 x.id (by simp [LTree.level])).1
      omega
    have hsorted : Sorted c.cmp Slot.key n.kv := hkv' ▸ hs.sorted
    have hkeys : ∀ e ∈ n.kv, S e.key := hkv' ▸ hs.keys
    obtain ⟨L, R, hcut⟩ := (Sorted.downward hsorted hcmp hkeys hk).exists_cut
    -- the entry comes first among those that are not below the key
    obtain ⟨R, rfl⟩ : ∃ R', R = e :: R' := by
      have hmem : e ∈ L ++ R := by rw [← hcut.eq, hkv']; exact he
      rcases List.mem_append.mp hmem with hL | hR
      · have := hcut.below e hL
        omega
      · cases R with
        | nil => cases hR
        | cons b R =>
          rcases List.mem_cons.mp hR with rfl | hR
          · exact ⟨R, rfl⟩
          · have := hcut.pos_of_cons rfl hsorted hcmp hkeys hk e hR
            omega
    have hleaf : n.leaf = true := by simp [hshape.leaf]
    unfold insert
    simp only [wp_bind, wp_readNode hd.pooled hn, NodeBlock.lub_eq hcut, wp_liftM, hleaf, if_true]
    exact wp_insertLeaf_removed hh hE hd hx0 hn hshape hcut.eq hek hdead (hs.values e he) hQ
  | succ h ih =>
    obtain ⟨fuel, rfl⟩ : ∃ f, fuel = f + 1 := ⟨fuel - 1, by omega⟩
    obtain ⟨⟨np, hnp, hshape, hfits⟩, _⟩ := hs.rep
    have hne : x.children ≠ [] := List.length_pos_iff.mp (hs.nonempty (by omega))
    obtain ⟨X, sl, Y, l, y, r, hent⟩ := exists_entered x.children hfits hne
      (Sorted.downward hs.sorted hcmp hs.keys hk)
    have hcs : x.children = l ++ y :: r := hent.subtrees
    have hchild := hs.child hcs
    have hmem : y ∈ x.children := by rw [hcs]; simp
    obtain ⟨hy1, hyroom, hyb⟩ := hs.bounded y hmem
    have hyne : LTree.entries h y ≠ [] := LTree.entries_ne_nil y hyb hy1
    have hey : e ∈ LTree.entries h y := hent.mem hcmp hs.sorted hs.keys hk hyne he hek
    have hyid := hchild.placed.range h y.id (by rw [LTree.level_self]; simp)
    obtain ⟨L, R, hcut, _, hafter⟩ := hent.cut
    -- the key is not above the entries of the subtree that has it
    have hb : ¬ LTree.before c.cmp Slot.key key h y = true := by
      intro hb
      have hdown := Sorted.downward hchild.sorted hcmp hchild.keys hk
      have := LTree.below_of_before y hdown hb e hey
      omega
    have hL : L = X := hafter hb
    have hleaf : np.leaf = false := by simp [hshape.leaf]
    have hflag : (X.length == np.count) = false := by
      rw [beq_eq_false_iff_ne, NodeBlock.count, hent.slots]
      simp
    have hvalue : np.getValue X.length = .ok (leBytes 4 y.id) := by
      rw [NodeBlock.getValue_append hent.slots, hent.here.2]
    have hchildIndex : childIndex (leBytes 4 y.id) = y.id :=
      childIndex_leBytes (by have := hh.count_le; omega)
    unfold insert
    simp only [wp_bind, wp_readNode hd.pooled hnp, NodeBlock.lub_eq hcut, hL, wp_liftM, hleaf,
      Bool.false_eq_true, if_false, hflag, hvalue, hchildIndex]
    refine wp_getNodeBlock hh hyid.2 fun t₁ hf₁ ↦ ?_
    have hs₁ : Subtree c S t₁.page m.countOfBlock (leftOf A h x.id l) (rightOf B h r) h y :=
      hf₁.page ▸ hchild
    refine ih (by omega) hf₁.heap (hf₁.dirty (by decide)) hs₁ hey fun res t₂ ho ↦ ?_
    by_cases hres : res = 1
    · obtain ⟨m₂, hr₂⟩ := ho hres
      subst hres
      -- the son has as many slots as before and is not split
      obtain ⟨ns, hns, hshapes, hfs⟩ := hs₁.rep.root
      obtain ⟨ns', hns', hkeys⟩ := hr₂.revives.node (by omega) hyid.2 hns
      have hshape' : Shape c h ns' := ⟨hkeys.keySize.trans hshapes.keySize,
        hkeys.valSize.trans hshapes.valSize, by rw [hkeys.header]; exact hshapes.type⟩
      have hcount : ns'.count = y.items.length := hkeys.count.trans hfs.length_eq
      have hfull : ns'.full = .ok false := by
        unfold NodeBlock.full
        rw [hshape'.size hwide, hcount, if_pos (by omega), beq_eq_false_iff_ne.mpr (by omega)]
      have hpool : t₂.buffer.Pooled y.id := hr₂.later.pooled hf₁.pooled
      simp only [ne_eq, not_true_eq_false, if_false, wp_readNode hpool hns', hfull, wp_liftM,
        Bool.false_eq_true, wp_pure, wp_bind]
      exact hQ 1 t₂ fun _ ↦ ⟨m₂, hr₂.of_fetched hf₁⟩
    · simp only [ne_eq, hres, not_false_eq_true, if_true, wp_pure]
      exact hQ res t₂ fun h1 ↦ absurd h1 hres

/-- `put` revives the removed entry for a key. -/
theorem wp_put_removed {h : Nat} {x : LTree (Slot K) h} {e : Slot K} (hwide : c.Wide)
    (hcmp : Comparison c.cmp S) (hk : S key) (ht : Holds c S t m h x)
    (hE : Covers E (m.countOfBlock + blocksFor value)) (he : e ∈ LTree.entries h x)
    (hek : c.cmp e.key key = 0) (hdead : e.isRemoved = true)
    (hQ : ∀ r t', (r = 1 → ∃ m', Revived c key value t t' m m') → Q r t') :
    wp E (put c key value) Q t := by
  unfold put
  simp only [wp_bind, wp_get, wp_readMeta ht.heap, ht.root]
  refine wp_insert_removed hwide hcmp hk ht.height_lt ht.heap hE ht.dirty ht.tree he hek hdead
    fun res t₁ ho ↦ ?_
  by_cases hres : res = 1
  · obtain ⟨m₁, hr⟩ := ho hres
    subst hres
    have hm0 : m₁.header.index = 0 := hr.heap.index_metadata
    simp only [ne_eq, not_true_eq_false, if_false, wp_bind, wp_readMeta hr.heap]
    rw [wp_writeMeta]
    generalize hm₂ : ({ m₁ with countOfItem := (m₁.countOfItem + 1) % 2 ^ 32 } :
      BTreeMetadata) = m₂
    have hh₂ : Heap (t₁.write 0 (.metadata m₂)) m₂ :=
      hr.heap.write hr.heap.pinned.pooled (by rw [← hm₂]; exact hm0) (fun _ ↦ rfl)
        (fun hz ↦ absurd rfl hz) (by rw [← hm₂]) (by rw [← hm₂]; exact hr.heap.number)
    have hl₂ := later_write hr.heap.pinned (.metadata m₂)
    have hp₂ : ∀ i, i ≠ 0 → (t₁.write 0 (.metadata m₂)).page i = t₁.page i := by
      intro i hi
      rw [page_write hr.heap.pinned.pooled, Function.update_of_ne hi]
    revert hh₂ hl₂ hp₂
    generalize t₁.write 0 (.metadata m₂) = t₂
    intro hh₂ hl₂ hp₂
    have hkeep : KeepsData t₁.page t₂.page m₁.countOfBlock := by
      refine .of_eq fun i d _ hdi ↦ ?_
      rw [hp₂ i (hr.heap.ne_zero_of_data hdi), hdi]
    have hc₂ : m₂.countOfBlock = m₁.countOfBlock := by rw [← hm₂]
    have hrev : Revives c key value t.page t₂.page m.countOfBlock m₂.countOfBlock := by
      obtain ⟨u, p, b, L, f, R, w, hst, hpm, hp, hleaf, hkv, hfk, hf, hw, hv'⟩ := hr.revives.slot
      rw [hc₂]
      exact ⟨u, p, b, L, f, R, w, hst, hpm, hp, hleaf, hkv, hfk, hf,
        hkeep.written (Nat.le_refl _) hw, fun i hi ↦ (hp₂ i hi).trans (hv' i hi)⟩
    -- the root has as many slots as before and is not split
    have hxid := ht.placed.range h x.id (by rw [LTree.level_self]; simp)
    obtain ⟨n, hn, hshape, hfits⟩ := ht.tree.rep.root
    obtain ⟨n', hn', hkeys⟩ := hrev.node (by omega) hxid.2 hn
    have hshape' : Shape c h n' := ⟨hkeys.keySize.trans hshape.keySize,
      hkeys.valSize.trans hshape.valSize, by rw [hkeys.header]; exact hshape.type⟩
    have hcount : n'.count = x.items.length := hkeys.count.trans hfits.length_eq
    have hroom := ht.tree.room
    have hfull : n'.full = .ok false := by
      unfold NodeBlock.full
      rw [hshape'.size hwide, hcount, if_pos (by omega), beq_eq_false_iff_ne.mpr (by omega)]
    have hlater : Later t t₂ := hr.later.trans hl₂
    simp only [wp_readNode (hlater.pooled ht.dirty.pooled) hn', hfull, wp_liftM,
      Bool.false_eq_true, if_false, wp_pure]
    refine hQ 1 t₂ fun _ ↦ ⟨m₂, hlater, hh₂, ?_, hrev⟩
    rw [← hm₂]
    exact hr.root
  · simp only [ne_eq, hres, not_false_eq_true, if_true, wp_pure]
    exact hQ res t₁ fun h1 ↦ absurd h1 hres

/-- The blocks in use that are nodes of a tree. -/
def nodes (t : BTree K) : List Nat :=
  (List.range t.blocks).filter fun i ↦
    match t.page i with
    | .node _ => true
    | _ => false

/-- The nodes of a heap are blocks other than the metadata. -/
theorem Heap.mem_nodes (h : Heap t m) {i : Nat} :
    i ∈ t.nodes ↔ i ≠ 0 ∧ i < m.countOfBlock ∧ ∃ b, t.page i = .node b := by
  unfold nodes
  rw [List.mem_filter, List.mem_range, h.blocks_eq]
  constructor
  · rintro ⟨hi, hb⟩
    split at hb
    · next b hpage =>
      exact ⟨h.ne_zero_of_node hpage, hi, b, hpage⟩
    · cases hb
  · rintro ⟨_, hi, b, hb⟩
    exact ⟨hi, by rw [hb]⟩

/-- The nodes are listed in the order of their numbers. -/
theorem nodes_sorted (t : BTree K) : t.nodes.Pairwise (· < ·) :=
  List.Pairwise.sublist List.filter_sublist List.pairwise_lt_range

/-- What stays when a removed entry for the key is made live again, and what changes. -/
structure Undisturbed (c : Config K) (key : K) (value : List UInt8) (t t' : BTree K) : Prop where
  root : t'.root = t.root
  nodes : t'.nodes = t.nodes
  node : ∀ i ∈ t.nodes, ∀ b, t.page i = .node b → ∃ b', t'.page i = .node b' ∧ SameKeys b b'
  revives : Revives c key value t.page t'.page t.blocks t'.blocks
  stands : ∀ it s, Stands t it s → ∃ s', Stands t' it s' ∧ s'.key = s.key ∧
    (c.cmp s.key key ≠ 0 → s' = s)

/-- Iterators stay where they are. -/
theorem Revived.stands {it : Iterator} {s : Slot K} (h : Heap t m)
    (hr : Revived c key value t t' m m') (hs : Stands t it s) :
    ∃ s', Stands t' it s' ∧ s'.key = s.key ∧ (c.cmp s.key key ≠ 0 → s' = s) := by
  obtain ⟨i, n, a, b, rfl, hp, hn, hleaf, hkv⟩ := hs.slot
  have hi : i < m.countOfBlock := h.pooled i hp
  have hi0 : i ≠ 0 := h.ne_zero_of_node hn
  obtain ⟨u, p, bp, A, e, B, w, hst, _, hbp, _, hkvp, hek, _, _, hv'⟩ := hr.revives.slot
  by_cases hip : i = p
  · subst hip
    rw [hn] at hbp
    cases hbp
    have hn' := hv' i hi0
    rw [Function.update_self] at hn'
    have hset : ∀ s', (A ++ reviveWith w e :: B)[a.length]? = some s' →
        Stands t' ⟨some i, (a.length : Nat)⟩ s' := by
      intro s' hget
      obtain ⟨hlt, rfl⟩ := List.getElem?_eq_some_iff.mp hget
      have hlen : ((A ++ reviveWith w e :: B).take a.length).length = a.length := by
        rw [List.length_take]
        omega
      refine ⟨i, _, (A ++ reviveWith w e :: B).take a.length,
        (A ++ reviveWith w e :: B).drop (a.length + 1),
        by rw [hlen], hr.later.pooled hp, hn', hleaf, ?_⟩
      rw [List.getElem_cons_drop, List.take_append_drop]
    have hget : (A ++ e :: B)[a.length]? = some s := by
      rw [← hkvp, hkv, List.getElem?_append_right (Nat.le_refl _), Nat.sub_self]
      rfl
    rcases Nat.lt_trichotomy a.length A.length with hlt | heq | hgt
    · refine ⟨s, hset s ?_, rfl, fun _ ↦ rfl⟩
      rw [List.getElem?_append_left hlt] at hget ⊢
      exact hget
    · rw [heq, List.getElem?_append_right (Nat.le_refl _), Nat.sub_self] at hget
      cases hget
      refine ⟨reviveWith w s, hset _ ?_, rfl, fun hne ↦ absurd hek hne⟩
      rw [heq, List.getElem?_append_right (Nat.le_refl _), Nat.sub_self]
      rfl
    · refine ⟨s, hset s ?_, rfl, fun _ ↦ rfl⟩
      obtain ⟨k, hk⟩ : ∃ k, a.length - A.length = k + 1 := ⟨a.length - A.length - 1, by omega⟩
      rw [List.getElem?_append_right (by omega), hk, List.getElem?_cons_succ] at hget ⊢
      exact hget
  · refine ⟨s, ⟨i, n, a, b, rfl, hr.later.pooled hp, ?_, hleaf, hkv⟩, rfl, fun _ ↦ rfl⟩
    rw [hv' i hi0, Function.update_of_ne hip]
    exact hst.node hi0 hi hn

/-- Nothing else is disturbed. -/
theorem Revived.undisturbed (h : Heap t m) (hr : Revived c key value t t' m m') :
    Undisturbed c key value t t' where
  root := hr.later.root
  nodes := by
    refine (nodes_sorted t').eq_of_mem_iff (nodes_sorted t) fun i ↦ ?_
    rw [hr.heap.mem_nodes, h.mem_nodes]
    constructor
    · rintro ⟨hi0, hi, b, hb⟩
      exact ⟨hi0, hr.revives.node_of hi0 hi hb⟩
    · rintro ⟨hi0, hi, b, hb⟩
      obtain ⟨b', hb', _⟩ := hr.revives.node hi0 hi hb
      exact ⟨hi0, Nat.lt_of_lt_of_le hi hr.revives.le, b', hb'⟩
  node := by
    intro i hi b hb
    obtain ⟨hi0, hi, _⟩ := h.mem_nodes.mp hi
    exact hr.revives.node hi0 hi hb
  revives := by
    rw [h.blocks_eq, hr.heap.blocks_eq]
    exact hr.revives
  stands _ _ hs := hr.stands h hs

namespace Valid

/-- A successful `put` of a removed key disturbs nothing else. -/
theorem wp_put_removed {e : Slot K} (hv : Valid c S t) (hwide : c.Wide)
    (hcmp : Comparison c.cmp S) (hk : S key) (he : e ∈ t.slots) (hek : c.cmp e.key key = 0)
    (hdead : e.isRemoved = true) :
    wp Beyond (put c key value) (fun r t' ↦ r = 1 → Undisturbed c key value t t') t := by
  obtain ⟨m, h, x, ht⟩ := hv.holds
  rw [ht.slots_eq] at he
  refine BTree.wp_put_removed hwide hcmp hk ht (covers_beyond _) he hek hdead
    fun r t' ho hr ↦ ?_
  obtain ⟨m', hrev⟩ := ho hr
  exact hrev.undisturbed ht.heap

end Valid

end BTree

end ExampleEngine.Index
