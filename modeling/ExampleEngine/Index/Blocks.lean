import ExampleEngine.Index.Session

/-!
# The invariant of the blocks

Library `Index`. The invariant of a search tree, spelled out for the blocks of an open tree
level by level: depth, order, separators, fill, links and roles. Every tree that calls lead
to meets it, and no assertion of `src/lib/btree.cpp:17–122,407–479` fails on the way.
-/

namespace ExampleEngine.Index

open ExampleEngine.Base ExampleEngine.Storage

variable {K : Type} {c : Config K} {S : K → Prop}

/-- The blocks of an open tree of height `h`; `L d` lists the node blocks `d` levels above
the leaves, in order. -/
structure BlockTree (c : Config K) (t : BTree K) (m : BTreeMetadata) (h : Nat)
    (L : Nat → List Nat) : Prop where
  metadata : t.page 0 = .metadata m
  root : L h = [t.root] ∧ m.root = t.root
  above : ∀ d, h < d → L d = []
  /-- The leaf blocks are on level 0, all at the same depth. -/
  node : ∀ d, ∀ i ∈ L d, ∃ n, t.page i = .node n ∧ (n.leaf = true ↔ d = 0)
  /-- A level is what the slots of the level above point to. -/
  sons : ∀ d < h, L d = (L (d + 1)).flatMap fun i ↦
    (slotsOf (t.page i)).map fun s ↦ childIndex s.value
  /-- Keys increase strictly in a node and along a level. -/
  increasing : ∀ d, ((L d).flatMap fun i ↦ slotsOf (t.page i)).Pairwise
    fun a b ↦ c.cmp a.key b.key < 0
  /-- An interior key is the greatest key of the node that its slot points to. -/
  separators : ∀ d, ∀ i ∈ L (d + 1), ∀ s ∈ slotsOf (t.page i),
    ∃ n, t.page (childIndex s.value) = .node n ∧ n.maxKey = .ok s.key
  count : ∀ d < h, ∀ i ∈ L d, ∀ n, t.page i = .node n → 1 ≤ n.count ∧ n.count < n.size
  rootCount : ∀ n, t.page t.root = .node n → (h ≠ 0 → 2 ≤ n.count) ∧ n.count < n.size
  /-- The links of a level are inverse to each other and end in 0. -/
  chain : ∀ d, Chain (nextOf t.page) (lastOf t.page) 0 (L d)
  nodup : ∀ d, (L d).Nodup
  disjoint : ∀ d d' i, i ∈ L d → i ∈ L d' → d = d'
  range : ∀ d, ∀ i ∈ L d, 0 < i ∧ i < m.countOfBlock
  /-- A block in use other than the metadata is a data block or one node. -/
  roles : ∀ i, 0 < i → i < m.countOfBlock →
    (IsData t.page i ∧ ∀ d, i ∉ L d) ∨ ∃ d, i ∈ L d
  number : m.countOfBlock ≤ m.numberOfBlock

section Levels

variable {v : Nat → Page K} {h d i n : Nat} {x : LTree (Slot K) h} {cap : Nat → Nat}

/-- Every node of the tree is the root of a subtree. -/
theorem Rep.exists_subtree (hx : Rep c v h x) (hb : LTree.Bounded cap h x)
    (hi : i ∈ LTree.level h x d) :
    ∃ y : LTree (Slot K) d, y.id = i ∧ Rep c v d y ∧ LTree.Bounded cap d y ∧
      (d < h → 1 ≤ y.items.length ∧ y.items.length < cap d) ∧
      ∀ e, ∀ j ∈ LTree.level d y e, j ∈ LTree.level h x e := by
  induction h with
  | zero =>
    simp only [LTree.level] at hi
    split at hi
    · next hd =>
      subst hd
      refine ⟨x, (List.mem_singleton.mp hi).symm, hx, hb, fun h ↦ absurd h (by omega), ?_⟩
      exact fun _ _ hj ↦ hj
    · simp at hi
  | succ h ih =>
    by_cases hd : d = h + 1
    · subst hd
      rw [LTree.level_self] at hi
      refine ⟨x, (List.mem_singleton.mp hi).symm, hx, hb, fun h ↦ absurd h (by omega), ?_⟩
      exact fun _ _ hj ↦ hj
    · rw [LTree.level_node x hd] at hi
      obtain ⟨z, hz, hiz⟩ := List.mem_flatMap.mp hi
      obtain ⟨hz1, hz2, hzb⟩ := hb z hz
      obtain ⟨y, hy, hrep, hyb, hlen, hsub⟩ := ih (hx.2 z hz) hzb hiz
      refine ⟨y, hy, hrep, hyb, ?_, ?_⟩
      · intro hlt
        by_cases hdh : d = h
        · subst hdh
          rw [LTree.level_self] at hiz
          have hzid := List.mem_singleton.mp hiz
          obtain ⟨k, hk, _, hf⟩ := hrep.root
          obtain ⟨k', hk', _, hf'⟩ := (hx.2 z hz).root
          have : k = k' := by
            rw [hy, hzid, hk'] at hk
            cases hk
            rfl
          subst this
          have := hf.length_eq
          have := hf'.length_eq
          omega
        · exact hlen (by omega)
      · intro e j hj
        have hjz := hsub e j hj
        have he : e ≠ h + 1 := by
          rintro rfl
          rw [LTree.level_of_lt z (Nat.lt_succ_self h)] at hjz
          cases hjz
        rw [LTree.level_node x he]
        exact List.mem_flatMap.mpr ⟨z, hz, hjz⟩

/-- The keys of a node's slots are keys of entries below it, in order. -/
private theorem Fits.keys {kv : List (Slot K)} (hf : Fits h kv x.items)
    (hb : LTree.Bounded cap h x) :
    (kv.map Slot.key).Sublist ((LTree.entries h x).map Slot.key) := by
  cases h with
  | zero =>
    change (kv.map Slot.key).Sublist (List.map Slot.key x.items)
    rw [show kv = x.items from hf]
  | succ h =>
    have hsub : ∀ (kv : List (Slot K)) (cs : List (LTree (Slot K) h)),
        List.Forall₂ (Separates h) kv cs →
        (kv.map Slot.key).Sublist ((cs.flatMap (LTree.entries h)).map Slot.key) := by
      intro kv cs hfits
      induction hfits with
      | nil => exact .slnil
      | cons hsy _ ih =>
        rw [List.flatMap_cons, List.map_append, List.map_cons]
        obtain ⟨e, he, hek⟩ := Option.map_eq_some_iff.mp hsy.1
        have hone : [e.key].Sublist ((LTree.entries h _).map Slot.key) :=
          List.singleton_sublist.mpr (List.mem_map_of_mem (List.mem_of_getLast? he))
        exact hek ▸ hone.append ih
    exact hsub kv x.children hf

/-- The keys along a level are keys of entries, in order. -/
private theorem level_keys (hx : Rep c v h x) (hb : LTree.Bounded cap h x) (d : Nat) :
    ((LTree.level h x d).flatMap fun i ↦ (slotsOf (v i)).map Slot.key).Sublist
      ((LTree.entries h x).map Slot.key) := by
  have hself : ((LTree.level h x h).flatMap fun i ↦ (slotsOf (v i)).map Slot.key).Sublist
      ((LTree.entries h x).map Slot.key) := by
    obtain ⟨k, hk, _, hf⟩ := hx.root
    rw [LTree.level_self, List.flatMap_singleton, hk]
    exact hf.keys hb
  induction h with
  | zero =>
    by_cases hd : d = 0
    · exact hd ▸ hself
    · rw [LTree.level_of_lt x (by omega)]
      exact List.nil_sublist _
  | succ h ih =>
    by_cases hd : d = h + 1
    · exact hd ▸ hself
    · rw [LTree.level_node x hd, List.flatMap_assoc]
      change List.Sublist _ ((x.children.flatMap (LTree.entries h)).map Slot.key)
      rw [List.map_flatMap]
      have hsub : ∀ cs : List (LTree (Slot K) h), (∀ y ∈ cs, y ∈ x.children) →
          (cs.flatMap fun y ↦ (LTree.level h y d).flatMap fun i ↦
            (slotsOf (v i)).map Slot.key).Sublist
            (cs.flatMap fun y ↦ (LTree.entries h y).map Slot.key) := by
        intro cs hcs
        induction cs with
        | nil => exact .slnil
        | cons y cs ihcs =>
          have hy := hcs y (by simp)
          have hrep := hx.2 y hy
          have hyb := (hb y hy).2.2
          rw [List.flatMap_cons, List.flatMap_cons]
          refine (ih hrep hyb ?_).append (ihcs fun z hz ↦ hcs z (by simp [hz]))
          obtain ⟨k, hk, _, hf⟩ := hrep.root
          rw [LTree.level_self, List.flatMap_singleton, hk]
          exact hf.keys hyb
      exact hsub x.children fun _ hy ↦ hy

/-- A level is what the slots of the level above name. -/
private theorem level_sons (hx : Rep c v h x) (hn : n ≤ 2 ^ 32)
    (hr : ∀ e, ∀ i ∈ LTree.level h x e, i < n) (hd : d < h) :
    LTree.level h x d = (LTree.level h x (d + 1)).flatMap fun i ↦
      (slotsOf (v i)).map fun s ↦ childIndex s.value := by
  induction h with
  | zero => omega
  | succ h ih =>
    obtain ⟨⟨k, hk, _, hf⟩, hsub⟩ := hx
    have hchild : ∀ y ∈ x.children, ∀ e, ∀ i ∈ LTree.level h y e, i < n := by
      intro y hy e i hi
      have he : e ≠ h + 1 := by
        rintro rfl
        rw [LTree.level_of_lt y (Nat.lt_succ_self h)] at hi
        cases hi
      refine hr e i ?_
      rw [LTree.level_node x he]
      exact List.mem_flatMap.mpr ⟨y, hy, hi⟩
    rw [LTree.level_node x (by omega)]
    by_cases hdh : d = h
    · subst hdh
      rw [LTree.level_self, List.flatMap_singleton, hk]
      have hids : ∀ (kv : List (Slot K)) (cs : List (LTree (Slot K) d)),
          List.Forall₂ (Separates d) kv cs → (∀ y ∈ cs, y ∈ x.children) →
          (cs.flatMap fun y ↦ LTree.level d y d) = kv.map fun s ↦ childIndex s.value := by
        intro kv cs hfits hcs
        induction hfits with
        | nil => rfl
        | cons hsy _ ihcs =>
          next s y kv cs _ =>
          have hlt := hchild y (hcs y (by simp)) d y.id (by rw [LTree.level_self]; simp)
          rw [List.flatMap_cons, List.map_cons, LTree.level_self, hsy.2,
            childIndex_leBytes (by omega), ihcs fun z hz ↦ hcs z (by simp [hz])]
          rfl
      exact hids k.kv x.children hf fun _ hy ↦ hy
    · rw [LTree.level_node x (by omega), List.flatMap_assoc]
      exact List.flatMap_congr fun y hy ↦ ih (hsub y hy) (hchild y hy) (by omega)

end Levels

namespace BTree

variable {t : BTree K} {m : BTreeMetadata} {h : Nat} {x : LTree (Slot K) h}

private theorem Holds.separators (ht : Holds c S t m h x) {d i : Nat} {s : Slot K}
    (hi : i ∈ LTree.level h x (d + 1)) (hs : s ∈ slotsOf (t.page i)) :
    ∃ n, t.page (childIndex s.value) = .node n ∧ n.maxKey = .ok s.key := by
  obtain ⟨y, rfl, hrep, hb, _, hsub⟩ := ht.tree.rep.exists_subtree ht.tree.bounded hi
  obtain ⟨⟨k, hk, _, hf⟩, hrepsub⟩ := hrep
  rw [hk] at hs
  have hseps : List.Forall₂ (Separates d) k.kv y.children := hf
  obtain ⟨z, hz, hsep⟩ := forall₂_left_mem hseps hs
  obtain ⟨hz1, _, hzb⟩ := hb z hz
  have hmem : z.id ∈ LTree.level (d + 1) y d := by
    rw [LTree.level_node y (by omega)]
    exact List.mem_flatMap.mpr ⟨z, hz, by rw [LTree.level_self]; simp⟩
  have hlt := (ht.placed.range d z.id (hsub d z.id hmem)).2
  have hle := ht.heap.count_le
  obtain ⟨n, hn, _, hfz⟩ := (hrepsub z hz).root
  obtain ⟨A, b, hAb⟩ : ∃ A b, n.kv = A ++ [b] := by
    have hlen := hfz.length_eq
    refine ⟨_, _, (List.dropLast_append_getLast (List.length_pos_iff.mp ?_)).symm⟩
    omega
  have htop := (hAb ▸ hfz).topKey hzb
  rw [hsep.1, Option.some.injEq] at htop
  refine ⟨n, ?_, ?_⟩
  · rw [hsep.2, childIndex_leBytes (by omega), hn]
  · rw [NodeBlock.maxKey_append hAb, htop]

/-- The blocks of an open tree meet the invariant. -/
theorem Holds.blocks (hwide : c.Wide) (ht : Holds c S t m h x) :
    BlockTree c t m h (LTree.level h x) := by
  have hle := ht.heap.count_le
  constructor
  · exact ht.heap.metadata
  · rw [LTree.level_self, ht.root]
    exact ⟨rfl, ht.metaRoot⟩
  · exact fun d hd ↦ LTree.level_of_lt x hd
  · intro d i hi
    obtain ⟨n, hn, hs⟩ := ht.tree.rep.level hi
    refine ⟨n, hn, ?_⟩
    rw [hs.leaf]
    simp
  · intro d hd
    exact level_sons ht.tree.rep (n := m.countOfBlock) (by omega)
      (fun e i hi ↦ (ht.placed.range e i hi).2) hd
  · intro d
    have hkeys := level_keys ht.tree.rep ht.tree.bounded d
    have hsorted : ((LTree.entries h x).map Slot.key).Pairwise fun a b ↦ c.cmp a b < 0 :=
      List.pairwise_map.mpr ht.tree.sorted
    have := hsorted.sublist hkeys
    rw [← List.map_flatMap] at this
    exact List.pairwise_map.mp this
  · exact fun d i hi s hs ↦ ht.separators hi hs
  · intro d hd i hi n hn
    obtain ⟨y, rfl, hrep, _, hlen, _⟩ := ht.tree.rep.exists_subtree ht.tree.bounded hi
    obtain ⟨k, hk, hs, hf⟩ := hrep.root
    rw [hn] at hk
    cases hk
    rw [hs.size hwide]
    have hcount : n.count = y.items.length := hf.length_eq
    rw [hcount]
    exact hlen hd
  · intro n hn
    obtain ⟨k, hk, hs, hf⟩ := ht.tree.rep.root
    rw [ht.root, hk] at hn
    cases hn
    have hcount : n.count = x.items.length := hf.length_eq
    rw [hs.size hwide, hcount]
    exact ⟨ht.two, ht.tree.room⟩
  · exact ht.placed.chain
  · exact ht.placed.nodup
  · exact ht.placed.disjoint
  · exact ht.placed.range
  · intro i hi0 hi
    rcases ht.roles i hi0 hi with hd | hd
    · refine .inl ⟨hd, fun d hmem ↦ ?_⟩
      obtain ⟨e, he, _⟩ := hd
      obtain ⟨n, hn⟩ := ht.placed.node d i hmem
      rw [he] at hn
      cases hn
    · exact .inr hd
  · exact ht.heap.number

end BTree

/-- In every reachable state the blocks meet the invariant, and whatever call comes next, no
assertion fails in it: it can only stop at a file past 2 GiB. -/
theorem reachable_blocks (hwide : c.Wide) (hcmp : Comparison c.cmp fun _ ↦ True)
    {t : BTree K} (hr : Reachable c t) :
    (∃ m h L, BlockTree c t m h L) ∧
      ∀ call : Call K, call.Admissible t → ∀ e, (call.perform c).run t = .error e →
        ∃ i, 2 ^ 19 ≤ i ∧ e = .unreadable i := by
  have hs := hr.sound hwide hcmp
  obtain ⟨m, h, x, ht⟩ := hs.holds
  refine ⟨⟨m, h, _, ht.blocks hwide⟩, fun call ha e he ↦ ?_⟩
  have hb := wp_error (hs.wp_perform hwide hcmp call.keyed_true ha) he
  cases e with
  | unreadable i => exact ⟨i, hb, rfl⟩
  | _ => exact hb.elim

/-- The blocks after three insertions meet the invariant. -/
theorem filledTree_blocks : ∃ m h L, BlockTree narrow filledTree m h L :=
  (reachable_blocks narrow_wide narrow_cmp (filledTree_session fun _ _ _ ↦ trivial)).1

end ExampleEngine.Index
