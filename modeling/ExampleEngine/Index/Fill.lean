import ExampleEngine.Base.FilledTree
import ExampleEngine.Index.Room
import Mathlib.Data.Nat.Log

/-!
# How full the nodes are

Library `Index`. `BTree::put` of `src/lib/btree.cpp:588–619` splits full nodes in two halves and
`Iterator::remove` takes no slot away, so in every session the nodes below the root are half full,
and the tree is as low as that makes it.
-/

namespace ExampleEngine.Index

open ExampleEngine.Base ExampleEngine.Storage
open Finset (range)

variable {K : Type} {c : Config K} {S : K → Prop}

namespace Config

/-- The slots that a node in use has below the root. -/
def half (c : Config K) (h : Nat) : Nat := c.capacity h / 2

end Config

namespace BTree

/-- Every node in use below the root has slots for half of what `size` gives. -/
def HalfFull (t : BTree K) : Prop :=
  ∀ m i n, t.page 0 = .metadata m → 0 < i → i < m.countOfBlock → t.page i = .node n →
    i ≠ t.root → n.size / 2 ≤ n.count

section Nodes

variable {v : Nat → Page K} {h : Nat} {x : LTree (Slot K) h} {t t' : BTree K}
  {m : BTreeMetadata} {key : K} {value : List UInt8}

/-- A node as its block shows it. -/
private theorem Rep.count (hwide : c.Wide) (hx : Rep c v h x) {n : NodeBlock K}
    (hn : v x.id = .node n) : n.size = c.capacity h ∧ n.count = x.items.length := by
  obtain ⟨n', hn', hshape, hf⟩ := hx.root
  rw [hn, Page.node.injEq] at hn'
  subst hn'
  exact ⟨hshape.size hwide, hf.length_eq⟩

/-- Nodes are filled as their blocks are. -/
private theorem filled_of_rep (hwide : c.Wide) (hx : Rep c v h x)
    (hv : ∀ d < h, ∀ i ∈ LTree.level h x d, ∀ n, v i = .node n → n.size / 2 ≤ n.count) :
    LTree.Filled c.half h x := by
  induction h with
  | zero => trivial
  | succ h ih =>
    intro y hy
    have hlevel : ∀ d ≤ h, ∀ i ∈ LTree.level h y d, i ∈ LTree.level (h + 1) x d := by
      intro d hd i hi
      rw [LTree.level_node x (by omega)]
      exact List.mem_flatMap.mpr ⟨y, hy, hi⟩
    have hself : y.id ∈ LTree.level h y h := by
      rw [LTree.level_self]
      exact List.mem_cons_self
    obtain ⟨n, hn, -, -⟩ := (hx.2 y hy).root
    obtain ⟨hsize, hcount⟩ := Rep.count hwide (hx.2 y hy) hn
    have hhalf := hv h (Nat.lt_succ_self h) y.id (hlevel h (Nat.le_refl h) _ hself) n hn
    rw [hsize, hcount] at hhalf
    exact ⟨hhalf, ih (hx.2 y hy) fun d hd i hi ↦ hv d (by omega) i (hlevel d (by omega) i hi)⟩

/-- Blocks are as full as their nodes. -/
private theorem half_of_filled (hwide : c.Wide) (hx : Rep c v h x)
    (hf : LTree.Filled c.half h x) {d i : Nat} (hd : d < h) (hi : i ∈ LTree.level h x d)
    {n : NodeBlock K} (hn : v i = .node n) : n.size / 2 ≤ n.count := by
  induction h with
  | zero => exact absurd hd (Nat.not_lt_zero d)
  | succ h ih =>
    rw [LTree.level_node x (by omega)] at hi
    obtain ⟨y, hy, hiy⟩ := List.mem_flatMap.mp hi
    obtain ⟨hlen, hfy⟩ := hf y hy
    by_cases hdh : d = h
    · rw [hdh, LTree.level_self] at hiy
      obtain rfl := List.mem_singleton.mp hiy
      obtain ⟨hsize, hcount⟩ := Rep.count hwide (hx.2 y hy) hn
      rw [hsize, hcount]
      exact hlen
    · exact ih (hx.2 y hy) hfy (by omega) hiy

/-- The nodes of an open tree are filled as its blocks are. -/
theorem Holds.filled_iff (hwide : c.Wide) (ht : Holds c S t m h x) :
    HalfFull t ↔ LTree.Filled c.half h x := by
  constructor
  · intro hf
    refine filled_of_rep hwide ht.tree.rep fun d hd i hi n hn ↦ ?_
    obtain ⟨hi0, hilt⟩ := ht.placed.range d i hi
    refine hf m i n ht.heap.metadata hi0 hilt hn fun hroot ↦ ?_
    rw [hroot, ht.root] at hi
    have := ht.placed.disjoint d h x.id hi (by rw [LTree.level_self]; exact List.mem_cons_self)
    omega
  · intro hf m' i n hm hi0 hi hn hroot
    rw [ht.heap.metadata, Page.metadata.injEq] at hm
    subst hm
    rcases ht.roles i hi0 hi with ⟨d, hd, _⟩ | ⟨d, hd⟩
    · rw [hn] at hd
      cases hd
    · have hle : d ≤ h := by
        by_contra hgt
        rw [LTree.level_of_lt x (by omega)] at hd
        cases hd
      have hne : d ≠ h := by
        rintro rfl
        rw [LTree.level_self, List.mem_singleton, ← ht.root] at hd
        exact hroot hd
      exact half_of_filled hwide ht.tree.rep hf (by omega) hd hn

/-- Flags do not make a node less full. -/
theorem HalfFull.upToFlags (hf : HalfFull t) (hp : ∀ i, UpToFlags (t.page i) (t'.page i))
    (hr : t'.root = t.root) : HalfFull t' := by
  intro m i n hm hi0 hi hn hroot
  have h0 := (hp 0).symm
  rw [hm] at h0
  have hi' := (hp i).symm
  rw [hn] at hi'
  obtain ⟨kv, hkv, hent⟩ := hi'.exists_node
  have hhalf := hf m i _ h0.metadata hi0 hi hkv (hr ▸ hroot)
  have hlen := congrArg List.length hent
  rw [List.length_map, List.length_map] at hlen
  have hcount : kv.length = n.count := hlen
  rw [← hcount]
  exact hhalf

/-- A tree that grew by one entry is filled again. -/
private theorem Enlarged.filled {h' : Nat} {x' : LTree (Slot K) h'} (hl : Enlarged c key x h' x')
    (hf : LTree.Filled c.half h x) : LTree.Filled c.half h' x' := by
  cases hl with
  | same => exact hf
  | updated fresh revive n => exact LTree.filled_update x n (fun _ ↦ Nat.le_refl _) hf
  | raised fresh revive n n' hfull =>
    have hu : LTree.Filled c.half _
        (LTree.update c.capacity c.cmp Slot.key key fresh revive _ x n).1 :=
      LTree.filled_update x n (fun _ ↦ Nat.le_refl _) hf
    obtain ⟨hl, hr⟩ := LTree.half_le_split _ (n' + 1) hfull
    obtain ⟨hfl, hfr⟩ := LTree.filled_split _ (n' + 1) hu
    intro y hy
    simp only [grownTree, LTree.children_node, List.mem_cons, List.not_mem_nil, or_false] at hy
    rcases hy with rfl | rfl
    · exact ⟨hl, hfl⟩
    · exact ⟨hr, hfr⟩

/-- `put` leaves the nodes below the root half full. -/
theorem HalfFull.wp_put (hf : HalfFull t) (hwide : c.Wide) (hcmp : Comparison c.cmp S)
    (hk : S key) (ht : Holds c S t m h x) :
    wp Beyond (put c key value) (fun _ t' ↦ HalfFull t') t := by
  refine wp_put_enlarged hwide hcmp hk ht (covers_beyond _) fun r t' _ hl ↦ ?_
  obtain ⟨m', h', x', ht', hlarge⟩ := hl
  exact (ht'.filled_iff hwide).mpr (hlarge.filled ((ht.filled_iff hwide).mp hf))

end Nodes

/-- `Below v d i j`: block `j` is reached from block `i` by going down `d` levels, along any slots
of the inner nodes on the way. -/
inductive Below (v : Nat → Page K) : Nat → Nat → Nat → Prop
  | here (i : Nat) : Below v 0 i i
  | slot (d i j : Nat) (n : NodeBlock K) (s : Slot K) (hi : v i = .node n)
      (hleaf : n.leaf = false) (hs : s ∈ n.kv) (h : Below v d (childIndex s.value) j) :
      Below v (d + 1) i j

section Height

variable {v : Nat → Page K} {h b d i : Nat} {x : LTree (Slot K) h} {t : BTree K}
  {m : BTreeMetadata}

/-- Going down from the root leads to nodes, and to leaves at the bottom only. -/
private theorem Descent.below (hx : Descent c v b h x) (hb : b ≤ 2 ^ 32)
    (hd : Below v d x.id i) :
    d ≤ h ∧ ∃ n, v i = .node n ∧ (n.leaf = true ↔ d = h) := by
  generalize hid : x.id = r at hd
  induction hd generalizing h with
  | here r =>
    subst hid
    obtain ⟨n, hn, hshape, -⟩ := hx.rep.root
    refine ⟨Nat.zero_le h, n, hn, ?_⟩
    rw [hshape.leaf, decide_eq_true_iff]
    exact eq_comm
  | slot d r i n s hr hleaf hs _ ih =>
    subst hid
    obtain ⟨n', hn', hshape, hfits⟩ := hx.rep.root
    rw [hr, Page.node.injEq] at hn'
    subst hn'
    cases h with
    | zero =>
      rw [hshape.leaf] at hleaf
      exact absurd hleaf (by decide)
    | succ h =>
      obtain ⟨y, hy, hsy⟩ := forall₂_left_mem hfits hs
      have hlt := (hx.child hy).range h y.id (by rw [LTree.level_self]; exact List.mem_cons_self)
      have hson : y.id = childIndex s.value := by
        rw [hsy.2, childIndex_leBytes (by omega)]
      obtain ⟨hle, n', hn', hiff⟩ := ih (hx.child hy) hson
      exact ⟨by omega, n', hn', by rw [hiff]; omega⟩

end Height

section Runs

variable {G : BTree K → Call K → Prop} {t t' : BTree K}

/-- Blocks are as full in the next state of a session. -/
private theorem HalfFull.step {call : Call K} (hf : HalfFull t) (hwide : c.Wide)
    (hcmp : Comparison c.cmp S) (hs : Sound c S UpToFlags t) (hk : call.Keyed S)
    (ha : call.Admissible t) : wp Beyond (call.perform c) (fun _ t' ↦ HalfFull t') t := by
  by_cases hro : call.ReadOnly
  · refine wp_mono (hs.wp_readOnly .refl hcmp (fun key flag heq ↦ ?_) ha hro) fun _ t' h ↦ ?_
    · subst heq
      exact hk
    · exact hf.upToFlags (fun i ↦ h.2.1 ▸ .refl _) h.2.2
  · cases call with
    | put key value =>
      obtain ⟨m, h, x, ht⟩ := hs.holds
      simp only [Call.perform, wp_bind, wp_pure]
      exact hf.wp_put hwide hcmp hk ht
    | remove it =>
      obtain ⟨s, hst⟩ := ha
      obtain ⟨m, h, x, ht⟩ := hs.holds
      exact hst.wp_remove ht fun t' x' i pre post hi hflag ht' _ _ ↦
        hf.upToFlags hflag.page hflag.root
    | _ => exact absurd trivial hro

/-- Reopening reads the blocks back. -/
private theorem HalfFull.wp_reopened {platform : Platform} (hf : HalfFull t)
    (hs : Sound c S UpToFlags t) (hp : platform.Reliable) :
    wp Beyond openTree (fun _ t' ↦ HalfFull t') (unopened platform (t.destroy fun _ ↦ true)) := by
  obtain ⟨m, h, x, ht⟩ := hs.holds
  have hfile : ∀ i, UpToFlags (t.page i) (t.destroy (fun _ ↦ true) i) := fun i ↦
    (ht.heap.destroy .refl hs.synced (fun _ ↦ rfl) i).symm
  refine wp_openTree hp (ht.image.reflag hfile) fun t' ht' hpage _ _ _ ↦ ?_
  refine hf.upToFlags (fun i ↦ hpage ▸ hfile i) ?_
  rw [ht'.root, ht.root]
  exact LTree.id_refill x

end Runs

end BTree

end ExampleEngine.Index
