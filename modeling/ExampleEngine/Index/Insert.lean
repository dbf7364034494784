import ExampleEngine.Index.Leaf

/-!
# Insertion

Library `Index`. `BTree::insert` of `src/lib/btree.cpp:493–586` performs the update of the
search tree that the blocks hold, or reports a live entry with an equal key. The
induction is over the height of the subtree; the nodes to its left and right on each level
are carried along, since a split relinks a neighbour outside the subtree.
-/

namespace ExampleEngine.Index

open ExampleEngine.Base ExampleEngine.Storage

namespace BTree

variable {K : Type} {c : Config K} {S : K → Prop} {t t' t'' : BTree K}
  {m m' m'' : BTreeMetadata} {h : Nat} {A B : Nat → List Nat}

/-- A subtree with its neighbours: `A` and `B` list the nodes before and after its own on
each level. -/
structure Subtree (c : Config K) (S : K → Prop) (v : Nat → Page K) (n : Nat)
    (A B : Nat → List Nat) (h : Nat) (x : LTree (Slot K) h) : Prop where
  rep : Rep c v h x
  bounded : LTree.Bounded c.capacity h x
  nonempty : h ≠ 0 → 1 ≤ x.items.length
  room : x.items.length < c.capacity h
  sorted : Sorted c.cmp Slot.key (LTree.entries h x)
  keys : ∀ e ∈ LTree.entries h x, S e.key
  values : ∀ e ∈ LTree.entries h x, Recorded c v n e.value
  placed : Placed v (fun d ↦ A d ++ LTree.level h x d ++ B d) n

/-- What an insertion does outside the subtree with nodes `own`. -/
structure Grown (t t' : BTree K) (m m' : BTreeMetadata) (own : Nat → Prop) : Prop where
  later : Later t t'
  heap : Heap t' m'
  root : m'.root = m.root
  items : m'.countOfItem = m.countOfItem
  count_le : m.countOfBlock ≤ m'.countOfBlock
  node : ∀ i n, i < m.countOfBlock → ¬ own i → t.page i = .node n →
    ∃ n', t'.page i = .node n' ∧ SameSlots n n'
  data : KeepsData t.page t'.page m.countOfBlock

namespace Grown

variable {own own' : Nat → Prop}

/-- Inserting records leaves all nodes alone. -/
theorem of_records (hr : Records t t' m m') : Grown t t' m m' own where
  later := hr.later
  heap := hr.heap
  root := hr.root
  items := hr.items
  count_le := hr.count_le
  node i n hi _ hn := ⟨n, hr.node i n hi hn, .refl n⟩
  data := hr.data

/-- Insertions outside more nodes compose. -/
theorem trans (hg : Grown t t' m m' own) (hg' : Grown t' t'' m' m'' own) :
    Grown t t'' m m'' own where
  later := hg.later.trans hg'.later
  heap := hg'.heap
  root := hg'.root.trans hg.root
  items := hg'.items.trans hg.items
  count_le := Nat.le_trans hg.count_le hg'.count_le
  node i n hi ho hn := by
    obtain ⟨n₁, hn₁, hs₁⟩ := hg.node i n hi ho hn
    obtain ⟨n₂, hn₂, hs₂⟩ := hg'.node i n₁ (Nat.lt_of_lt_of_le hi hg.count_le) ho hn₁
    exact ⟨n₂, hn₂, hs₁.trans hs₂⟩
  data := hg.data.trans hg'.data hg.count_le

/-- Leaving fewer nodes aside says more. -/
theorem mono (hg : Grown t t' m m' own) (ho : ∀ i, own i → own' i) :
    Grown t t' m m' own' :=
  { hg with node := fun i n hi hn ↦ hg.node i n hi fun h ↦ hn (ho i h) }

/-- Changing a node of the subtree. -/
theorem of_update {i : Nat} {n n' : NodeBlock K} (hl : Later t t') (hh : Heap t' m)
    (hp : t'.page = Function.update t.page i (.node n')) (hn : t.page i = .node n)
    (hi : own i) : Grown t t' m m own where
  later := hl
  heap := hh
  root := rfl
  items := rfl
  count_le := Nat.le_refl _
  node j k _ ho hk := by
    have hji : j ≠ i := fun e ↦ ho (e ▸ hi)
    exact ⟨k, by rw [hp, Function.update_of_ne hji, hk], .refl k⟩
  data j d _ hd hw := by
    have hji : j ≠ i := by
      rintro rfl
      rw [hn] at hd
      cases hd
    exact ⟨d, by rw [hp, Function.update_of_ne hji, hd], .refl d, hw⟩

end Grown

/-- The divided blocks, seen from outside the son and its father. -/
theorem Divided.grown {p a : Nat} {np ns : NodeBlock K} {X Y lo hi : List (Slot K)}
    {sl z : Slot K} (own : Nat → Prop) (ht : Heap t m)
    (hs : Splitting c t m p a np ns X Y sl lo z hi)
    (hd : Divided t t' m m' p a np ns X Y sl lo z hi) (hp : own p) (ha : own a) :
    Grown t t' m m' own where
  later := hd.later
  heap := hd.heap
  root := hd.root
  items := hd.items
  count_le := by
    rw [hd.count]
    omega
  node i n hi ho hn := by
    have hip : i ≠ p := fun e ↦ ho (e ▸ hp)
    have hia : i ≠ a := fun e ↦ ho (e ▸ ha)
    have hi0 : i ≠ 0 := ht.ne_zero_of_node hn
    by_cases hb : ns.header.next ≠ 0 ∧ i = ns.header.next
    · obtain ⟨hb0, rfl⟩ := hb
      exact ⟨_, hd.next hb0 n hn, rfl, rfl, rfl, rfl⟩
    · refine ⟨n, ?_, .refl n⟩
      rw [hd.other i hi0 hip hia (Nat.ne_of_lt hi) fun hb0 hib ↦ hb ⟨hb0, hib⟩, hn]
  data i d hi hdi hw := by
    have hi0 : i ≠ 0 := ht.ne_zero_of_data hdi
    have hip : i ≠ p := by
      rintro rfl
      rw [hs.father] at hdi
      cases hdi
    have hia : i ≠ a := by
      rintro rfl
      rw [hs.son] at hdi
      cases hdi
    refine ⟨d, ?_, .refl d, hw⟩
    rw [hd.other i hi0 hip hia (Nat.ne_of_lt hi), hdi]
    rintro hb0 rfl
    obtain ⟨_, _, _, nb, hnb⟩ := hs.next hb0
    rw [hnb] at hdi
    cases hdi

/-- What an insertion into a subtree finds and does. -/
inductive Outcome (c : Config K) (key : K) (value : List UInt8) (t : BTree K)
    (m : BTreeMetadata) (A B : Nat → List Nat) (h : Nat) (x : LTree (Slot K) h) :
    Int → BTree K → Prop
  /-- A live entry has an equal key. -/
  | duplicate (e : Slot K) (he : e ∈ LTree.entries h x) (heq : c.cmp e.key key = 0)
      (hlive : e.isRemoved = false) (t' : BTree K) (hl : Later t t') (hh : Heap t' m)
      (hp : t'.page = t.page) : Outcome c key value t m A B h x 0 t'
  /-- The blocks hold the updated tree. -/
  | done (hdead : ∀ e ∈ LTree.entries h x, c.cmp e.key key = 0 → e.isRemoved = true)
      (t' : BTree K) (m' : BTreeMetadata) (w : List UInt8) (n : Nat) (u : LTree (Slot K) h × Nat)
      (hn : m.countOfBlock ≤ n) (hn' : n ≤ m.countOfBlock + blocksFor value)
      (hst : c.isConstValueSize = false → Storable value.length)
      (hu : LTree.update c.capacity c.cmp Slot.key key ⟨key, 1, w⟩ (reviveWith w) h x n = u)
      (hg : Grown t t' m m' fun i ↦ ∃ d, i ∈ LTree.level h x d)
      (hcount : u.2 = m'.countOfBlock) (hrep : Rep c t'.page h u.1)
      (hplaced : Placed t'.page (fun d ↦ A d ++ LTree.level h u.1 d ++ B d) m'.countOfBlock)
      (hfresh : ∀ i, m.countOfBlock ≤ i → i < m'.countOfBlock →
        IsData t'.page i ∨ ∃ d, i ∈ LTree.level h u.1 d)
      (hw : Written c t'.page m'.countOfBlock value w) : Outcome c key value t m A B h x 1 t'
  /-- The value does not fit any block. -/
  | failed (hdead : ∀ e ∈ LTree.entries h x, c.cmp e.key key = 0 → e.isRemoved = true)
      (t' : BTree K) (m' : BTreeMetadata) (hr : Records t t' m m')
      (hc : c.isConstValueSize = false) (hv : 2 ^ 31 ≤ value.length)
      (hn : m'.countOfBlock ≤ m.countOfBlock + blocksFor value) :
      Outcome c key value t m A B h x (-1) t'

section Context

variable {s : LTree (Slot K) (h + 1)} {l r : List (LTree (Slot K) h)} {x : LTree (Slot K) h}

/-- The nodes before a subtree of `s`, with `s` itself on its own level. -/
def leftOf (A : Nat → List Nat) (h id : Nat) (l : List (LTree (Slot K) h)) (d : Nat) : List Nat :=
  A d ++ if d = h + 1 then [id] else l.flatMap fun y ↦ LTree.level h y d

/-- The nodes after a subtree. -/
def rightOf (B : Nat → List Nat) (h : Nat) (r : List (LTree (Slot K) h)) (d : Nat) : List Nat :=
  (r.flatMap fun y ↦ LTree.level h y d) ++ B d

/-- The levels of a node are those of some of its subtrees with the levels around them. -/
theorem level_context (id d : Nat) (ys : List (LTree (Slot K) h)) :
    A d ++ LTree.level (h + 1) (LTree.node id (l ++ (ys ++ r))) d ++ B d =
      leftOf A h id l d ++ (ys.flatMap fun y ↦ LTree.level h y d) ++ rightOf B h r d := by
  unfold leftOf rightOf
  by_cases hd : d = h + 1
  · subst hd
    have hnil : ∀ cs : List (LTree (Slot K) h), (cs.flatMap fun y ↦ LTree.level h y (h + 1)) = [] :=
      fun cs ↦ List.flatMap_eq_nil_iff.mpr fun y _ ↦ LTree.level_of_lt y (Nat.lt_succ_self h)
    rw [if_pos rfl, hnil, hnil, LTree.level_self]
    simp
  · rw [LTree.level_node _ hd, if_neg hd]
    simp

private theorem mem_around {A M B : List Nat} {i : Nat} (hi : i ∈ A ∨ i ∈ B) :
    i ∈ A ++ M ++ B := by
  rcases hi with hi | hi <;> simp [hi]

/-- Nodes around a subtree are not nodes of it. -/
theorem Placed.outside {v : Nat → Page K} {M : Nat → List Nat} {n i d : Nat}
    (hp : Placed v (fun d ↦ A d ++ M d ++ B d) n) (hi : i ∈ A d ∨ i ∈ B d) (d' : Nat) :
    i ∉ M d' := by
  intro hM
  have hd : d = d' := hp.disjoint d d' i (mem_around hi) (by simp [hM])
  subst hd
  have hn := hp.nodup d
  simp only [List.nodup_append, List.mem_append] at hn
  rcases hi with hi | hi
  · exact hn.1.2.2 i hi i hM rfl
  · exact hn.2.2 i (.inr hM) i hi rfl

/-- A subtree with its own neighbours. -/
theorem Subtree.child (hs : Subtree c S t.page m.countOfBlock A B (h + 1) s)
    (hcs : s.children = l ++ x :: r) :
    Subtree c S t.page m.countOfBlock (leftOf A h s.id l) (rightOf B h r) h x := by
  have hmem : x ∈ s.children := by rw [hcs]; simp
  obtain ⟨h1, h2, hb⟩ := hs.bounded x hmem
  have hsub : (LTree.entries h x).Sublist (LTree.entries (h + 1) s) := LTree.sublist_entries hmem
  constructor
  · exact hs.rep.2 x hmem
  · exact hb
  · exact fun _ ↦ h1
  · exact h2
  · exact List.Pairwise.sublist hsub hs.sorted
  · exact fun e he ↦ hs.keys e (hsub.subset he)
  · exact fun e he ↦ hs.values e (hsub.subset he)
  · have hL : (fun d ↦ A d ++ LTree.level (h + 1) s d ++ B d) =
        fun d ↦ leftOf A h s.id l d ++ LTree.level h x d ++ rightOf B h r d := by
      funext d
      have := level_context (A := A) (B := B) (l := l) (r := r) s.id d [x]
      rw [List.flatMap_singleton, List.singleton_append, ← hcs] at this
      exact this
    exact hL ▸ hs.placed

end Context

variable {key : K} {value : List UInt8} {E : Fault → Prop} {Q : Int → BTree K → Prop}

/-- Inserting into a subtree that is a leaf. -/
private theorem wp_insert_leaf {fuel : Nat} {x : LTree (Slot K) 0} (hwide : c.Wide)
    (hcmp : Comparison c.cmp S) (hk : S key) (hh : Heap t m)
    (hE : Covers E (m.countOfBlock + blocksFor value)) (hd : t.buffer.Dirty x.id)
    (hs : Subtree c S t.page m.countOfBlock A B 0 x)
    (hQ : ∀ r t', Outcome c key value t m A B 0 x r t' → Q r t') :
    wp E (insert c key value (fuel + 1) (some x.id)) Q t := by
  obtain ⟨n, hn, hshape, hkv⟩ := hs.rep
  have hkv' : n.kv = LTree.entries 0 x := hkv
  have hx0 : x.id ≠ 0 := by
    have := (hs.placed.range 0 x.id (by simp [LTree.level])).1
    omega
  have hsorted : Sorted c.cmp Slot.key n.kv := hkv' ▸ hs.sorted
  have hkeys : ∀ e ∈ n.kv, S e.key := hkv' ▸ hs.keys
  obtain ⟨L, R, hcut⟩ := (Sorted.downward hsorted hcmp hkeys hk).exists_cut
  have huniq : ∀ e ∈ n.kv, c.cmp e.key key = 0 → e ∈ R.head? := by
    intro e he hek
    rw [hcut.eq] at he
    rcases List.mem_append.mp he with he | he
    · have := hcut.below e he
      omega
    · cases R with
      | nil => simp at he
      | cons b R =>
        rcases List.mem_cons.mp he with rfl | he
        · rfl
        · have := hcut.pos_of_cons rfl hsorted hcmp hkeys hk e he
          omega
  have hleaf : n.leaf = true := by simp [hshape.leaf]
  unfold insert
  simp only [wp_bind, wp_readNode hd.pooled hn, NodeBlock.lub_eq hcut, wp_liftM, hleaf, if_true]
  refine wp_insertLeaf hwide hh hE hd hx0 hn hshape ?_ hcut huniq
    (fun e he ↦ hs.values e (hkv' ▸ he)) fun r t' ho ↦ hQ r t' ?_
  · rw [NodeBlock.count, Fits.length_eq hkv]
    exact hs.room
  cases ho with
  | duplicate e he hek hlive =>
    exact .duplicate e (hkv' ▸ he) hek hlive t (.refl t) hh rfl
  | failed hdead t' m' hr hc hv hn' =>
    exact .failed (hkv' ▸ hdead) t' m' hr hc hv hn'
  | done hdead t₁ t' m' w hr hl hh' hp hw hst hn' =>
    have hn₁ := hr.node _ n (hh.pooled _ hd.pooled) hn
    have hg : Grown t t' m m' fun i ↦ ∃ d, i ∈ LTree.level 0 x d :=
      (Grown.of_records hr).trans
        (Grown.of_update hl hh' hp hn₁ ⟨0, by simp [LTree.level]⟩)
    have hg₁ : Grown t₁ t' m' m' fun i ↦ ∃ d, i ∈ LTree.level 0 x d :=
      Grown.of_update hl hh' hp hn₁ ⟨0, by simp [LTree.level]⟩
    have hpx : t'.page x.id = .node { n with
        kv := upsert c.cmp Slot.key key ⟨key, 1, w⟩ (reviveWith w) n.kv } := by
      rw [hp, Function.update_self]
    refine .done (hkv' ▸ hdead) t' m' w m'.countOfBlock _ hr.count_le hn' hst rfl hg rfl ?_ ?_ ?_ ?_
    · refine ⟨_, hpx, ⟨hshape.keySize, hshape.valSize, hshape.type⟩, ?_⟩
      change upsert c.cmp Slot.key key ⟨key, 1, w⟩ (reviveWith w) n.kv = _
      rw [hkv']
      rfl
    · refine Placed.congr (v := t.page) hs.placed hr.count_le fun d i hi b hb ↦ ?_
      have hb₁ := hr.node i b (hs.placed.range d i hi).2 hb
      by_cases hix : i = x.id
      · subst hix
        rw [hn] at hb
        cases hb
        exact ⟨_, hpx, rfl, rfl⟩
      · exact ⟨b, by rw [hp, Function.update_of_ne hix, hb₁], rfl, rfl⟩
    · intro i hi hi'
      exact .inl (hg₁.data.isData hi' (hr.fresh i hi hi'))
    · exact hg₁.data.written (Nat.le_refl _) hw

/-- An interior node after the insertion into the subtree it entered: the slot `sl` names
the updated subtree `u`, which may be full. -/
structure Absorbing (c : Config K) (key : K) (value : List UInt8) (t t' : BTree K)
    (m m' : BTreeMetadata) (A B : Nat → List Nat) (h : Nat) (s : LTree (Slot K) (h + 1))
    (n : NodeBlock K) (X : List (Slot K)) (sl : Slot K) (Y : List (Slot K))
    (l : List (LTree (Slot K) h)) (x : LTree (Slot K) h) (r : List (LTree (Slot K) h))
    (w : List UInt8) (k : Nat) (u : LTree (Slot K) h × Nat) : Prop where
  grown : Grown t t' m m' fun i ↦ ∃ d, i ∈ LTree.level (h + 1) s d
  around : ∀ d, ∀ i ∈ leftOf A h s.id l d ++ rightOf B h r d, i ≠ s.id → ∀ b, t.page i = .node b →
    ∃ b', t'.page i = .node b' ∧ SameSlots b b'
  le : m.countOfBlock ≤ k
  le' : k ≤ m.countOfBlock + blocksFor value
  storable : c.isConstValueSize = false → Storable value.length
  update : LTree.update c.capacity c.cmp Slot.key key ⟨key, 1, w⟩ (reviveWith w) h x k = u
  count : u.2 = m'.countOfBlock
  rep : Rep c t'.page h u.1
  placed : Placed t'.page
    (fun d ↦ leftOf A h s.id l d ++ LTree.level h u.1 d ++ rightOf B h r d) m'.countOfBlock
  fresh : ∀ i, m.countOfBlock ≤ i → i < m'.countOfBlock →
    IsData t'.page i ∨ ∃ d, i ∈ LTree.level h u.1 d
  written : Written c t'.page m'.countOfBlock value w
  page : t'.page s.id = .node n
  shape : Shape c (h + 1) n
  dirty : t'.buffer.Dirty s.id ∧ t'.buffer.Dirty x.id
  slots : n.kv = X ++ sl :: Y
  left : List.Forall₂ (Separates h) X l
  here : Separates h sl u.1
  right : List.Forall₂ (Separates h) Y r

section Absorb

variable {s : LTree (Slot K) (h + 1)} {n : NodeBlock K} {X Y : List (Slot K)} {sl : Slot K}
  {l r : List (LTree (Slot K) h)} {x : LTree (Slot K) h} {w : List UInt8} {k : Nat}
  {u : LTree (Slot K) h × Nat}

/-- A node beside the updated subtree keeps its own subtree. -/
private theorem Absorbing.sibling
    (ha : Absorbing c key value t t' m m' A B h s n X sl Y l x r w k u)
    (hs : Subtree c S t.page m.countOfBlock A B (h + 1) s) {v : Nat → Page K}
    (hv : ∀ i, i ≠ s.id → i ≠ x.id → ∀ b, t'.page i = .node b → i < m'.countOfBlock →
      ∃ b', v i = .node b' ∧ SameSlots b b')
    (hcs : s.children = l ++ x :: r) {y : LTree (Slot K) h} (hy : y ∈ l ∨ y ∈ r) :
    Rep c v h y := by
  have hmem : y ∈ s.children := by
    rw [hcs]
    rcases hy with hy | hy <;> simp [hy]
  refine (hs.rep.2 y hmem).congr fun d i hi b hb ↦ ?_
  have hd : d ≠ h + 1 := by
    rintro rfl
    rw [LTree.level_of_lt y (Nat.lt_succ_self h)] at hi
    cases hi
  have hin : i ∈ leftOf A h s.id l d ∨ i ∈ rightOf B h r d := by
    unfold leftOf rightOf
    rw [if_neg hd]
    rcases hy with hy | hy
    · exact .inl (List.mem_append_right _ (List.mem_flatMap.mpr ⟨y, hy, hi⟩))
    · exact .inr (List.mem_append_left _ (List.mem_flatMap.mpr ⟨y, hy, hi⟩))
  have hplaced := (hs.child hcs).placed
  have hsid : i ≠ s.id := by
    rintro rfl
    have hL : s.id ∈ leftOf A h s.id l (h + 1) := by simp [leftOf]
    exact hd (hplaced.disjoint d (h + 1) s.id (mem_around hin) (mem_around (.inl hL)))
  have hxid : i ≠ x.id := by
    rintro rfl
    exact Placed.outside hplaced hin h (by rw [LTree.level_self]; simp)
  have hrange : i < m.countOfBlock := (hplaced.range d i (mem_around hin)).2
  obtain ⟨b₁, hb₁, hs₁⟩ := ha.around d i (List.mem_append.mpr hin) hsid b hb
  obtain ⟨b₂, hb₂, hs₂⟩ := hv i hsid hxid b₁ hb₁ (Nat.lt_of_lt_of_le hrange ha.grown.count_le)
  exact ⟨b₂, hb₂, hs₁.trans hs₂⟩

/-- The entries around the updated subtree are still sorted with it. -/
private theorem Absorbing.sorted
    (ha : Absorbing c key value t t' m m' A B h s n X sl Y l x r w k u)
    (hs : Subtree c S t.page m.countOfBlock A B (h + 1) s) (hcmp : Comparison c.cmp S) (hk : S key)
    (hcs : s.children = l ++ x :: r)
    (hroute : LTree.route c.cmp Slot.key key h s.children = l.length) :
    Sorted c.cmp Slot.key (l.flatMap (LTree.entries h) ++
        (LTree.entries h u.1 ++ r.flatMap (LTree.entries h))) ∧
      ∀ e ∈ l.flatMap (LTree.entries h) ++ (LTree.entries h u.1 ++ r.flatMap (LTree.entries h)),
        S e.key := by
  have hrev : ∀ e : Slot K, (reviveWith w e).key = e.key := fun _ ↦ rfl
  have hent : LTree.entries (h + 1) (LTree.update c.capacity c.cmp Slot.key key ⟨key, 1, w⟩
      (reviveWith w) (h + 1) s k).1 =
      upsert c.cmp Slot.key key ⟨key, 1, w⟩ (reviveWith w) (LTree.entries (h + 1) s) :=
    LTree.entries_update s k hcmp hs.sorted hs.keys hk hs.bounded hs.nonempty
  have heq : LTree.entries (h + 1) (LTree.update c.capacity c.cmp Slot.key key ⟨key, 1, w⟩
      (reviveWith w) (h + 1) s k).1 =
      l.flatMap (LTree.entries h) ++ (LTree.entries h u.1 ++ r.flatMap (LTree.entries h)) := by
    rw [LTree.update_node s k hcs hroute, ha.update]
    dsimp only
    split
    · rw [LTree.entries_node, List.flatMap_append, List.flatMap_cons, List.flatMap_cons,
        ← List.append_assoc (LTree.entries h _), LTree.entries_split]
    · rw [LTree.entries_node, List.flatMap_append, List.flatMap_cons]
  rw [← heq, hent]
  refine ⟨sorted_upsert hcmp hs.keys hk rfl hrev hs.sorted, fun e he ↦ ?_⟩
  rcases mem_upsert he with rfl | ⟨y, hy, _, rfl⟩ | he
  · exact hk
  · exact hs.keys y hy
  · exact hs.keys e he

private theorem son_id (ha : Absorbing c key value t t' m m' A B h s n X sl Y l x r w k u) :
    u.1.id = x.id := by
  rw [← ha.update, LTree.id_update]

/-- The father is not a node of the updated subtree. -/
private theorem Absorbing.father_outside
    (ha : Absorbing c key value t t' m m' A B h s n X sl Y l x r w k u) (d : Nat) :
    s.id ∉ LTree.level h u.1 d :=
  Placed.outside (d := h + 1) ha.placed (.inl (by simp [leftOf])) d

/-- When the updated subtree is not full, the node names it in place. -/
private theorem Absorbing.whole
    (ha : Absorbing c key value t t' m m' A B h s n X sl Y l x r w k u)
    (hs : Subtree c S t.page m.countOfBlock A B (h + 1) s)
    (hcs : s.children = l ++ x :: r)
    (hroute : LTree.route c.cmp Slot.key key h s.children = l.length)
    (hdead : ∀ e ∈ LTree.entries (h + 1) s, c.cmp e.key key = 0 → e.isRemoved = true)
    (hlen : u.1.items.length ≠ c.capacity h) :
    Outcome c key value t m A B (h + 1) s 1 t' := by
  have hupdate : LTree.update c.capacity c.cmp Slot.key key ⟨key, 1, w⟩ (reviveWith w) (h + 1) s k =
      (LTree.node s.id (l ++ u.1 :: r), u.2) := by
    rw [LTree.update_node s k hcs hroute, ha.update]
    exact if_neg hlen
  have hL : (fun d ↦ A d ++ LTree.level (h + 1) (LTree.node s.id (l ++ u.1 :: r)) d ++ B d) =
      fun d ↦ leftOf A h s.id l d ++ LTree.level h u.1 d ++ rightOf B h r d := by
    funext d
    have := level_context (A := A) (B := B) (l := l) (r := r) s.id d [u.1]
    rwa [List.flatMap_singleton, List.singleton_append] at this
  refine .done hdead t' m' w k _ ha.le ha.le' ha.storable hupdate ha.grown ha.count
    ?_ ?_ ?_ ha.written
  · refine ⟨⟨n, ha.page, ha.shape, ?_⟩, fun y hy ↦ ?_⟩
    · change List.Forall₂ (Separates h) n.kv (l ++ u.1 :: r)
      rw [ha.slots]
      exact List.rel_append ha.left (.cons ha.here ha.right)
    · simp only [LTree.children_node, List.mem_append, List.mem_cons] at hy
      rcases hy with hy | rfl | hy
      · exact ha.sibling hs (fun i _ _ b hb _ ↦ ⟨b, hb, .refl b⟩) hcs (.inl hy)
      · exact ha.rep
      · exact ha.sibling hs (fun i _ _ b hb _ ↦ ⟨b, hb, .refl b⟩) hcs (.inr hy)
  · rw [hL]
    exact ha.placed
  · intro i hi hi'
    rcases ha.fresh i hi hi' with hd | ⟨d, hd⟩
    · exact .inl hd
    · refine .inr ⟨d, ?_⟩
      have hd' : d ≠ h + 1 := by
        rintro rfl
        rw [LTree.level_of_lt u.1 (Nat.lt_succ_self h)] at hd
        cases hd
      rw [LTree.level_node _ hd']
      exact List.mem_flatMap.mpr ⟨u.1, by simp, hd⟩

/-- The blocks of a full updated subtree, its father and its next node, ready to split. -/
private theorem Absorbing.splitting
    (ha : Absorbing c key value t t' m m' A B h s n X sl Y l x r w k u)
    (hwide : c.Wide) (hcmp : Comparison c.cmp S) (hk : S key)
    (hs : Subtree c S t.page m.countOfBlock A B (h + 1) s)
    (hcs : s.children = l ++ x :: r)
    (hroute : LTree.route c.cmp Slot.key key h s.children = l.length)
    (hlen : u.1.items.length = c.capacity h) {ns : NodeBlock K}
    (hns : t'.page x.id = .node ns) (hf : Fits h ns.kv u.1.items) :
    ∃ lo z hi, Splitting c t' m' s.id x.id n ns X Y sl lo z hi ∧
      LTree.topKey Slot.key h (LTree.split u.1 u.2).1 = some z.key ∧
      LTree.topKey Slot.key h (LTree.split u.1 u.2).2 = some sl.key := by
  have hid := son_id ha
  have hcap := hwide h
  have hcount : ns.count = u.1.items.length := hf.length_eq
  obtain ⟨lo, z, hlo⟩ : ∃ lo z, ns.kv.take ((ns.count + 1) / 2) = lo ++ [z] := by
    have hne : ns.kv.take ((ns.count + 1) / 2) ≠ [] := by
      apply List.length_pos_iff.mp
      rw [List.length_take]
      have : ns.kv.length = ns.count := rfl
      omega
    exact ⟨_, _, (List.dropLast_append_getLast hne).symm⟩
  have hmem : x ∈ s.children := by rw [hcs]; simp
  obtain ⟨hx1, _, hxb⟩ := hs.bounded x hmem
  have hub : LTree.Bounded c.capacity h u.1 := by
    rw [← ha.update]
    exact LTree.bounded_update x k (fun d ↦ Nat.le_of_succ_le (hwide d)) hxb fun _ ↦ hx1
  obtain ⟨hb1, hb2⟩ := LTree.bounded_split u.1 u.2 hub
  obtain ⟨_, hr1, _⟩ := LTree.length_split u.1 u.2 (Nat.le_of_succ_le hcap) hlen
  have htop1 : LTree.topKey Slot.key h (LTree.split u.1 u.2).1 = some z.key := by
    refine Fits.topKey (A := lo) ?_ hb1
    rw [← hlo, hcount]
    exact hf.take _
  have hne2 := LTree.entries_ne_nil _ hb2 hr1
  have htop2 : LTree.topKey Slot.key h (LTree.split u.1 u.2).2 = some sl.key := by
    have hu := ha.here.1
    unfold LTree.topKey at hu ⊢
    rwa [← LTree.entries_split u.1 u.2, List.getLast?_append_of_ne_nil _ hne2] at hu
  -- the greatest keys of the halves in the sorted list of all entries
  obtain ⟨hsorted, hkeys⟩ := ha.sorted hs hcmp hk hcs hroute
  obtain ⟨ez, hez, hezk⟩ := Option.map_eq_some_iff.mp htop1
  obtain ⟨es, hes, hesk⟩ := Option.map_eq_some_iff.mp htop2
  have hez := List.mem_of_getLast? hez
  have hes := List.mem_of_getLast? hes
  rw [← LTree.entries_split u.1 u.2, List.append_assoc] at hsorted hkeys
  have hlast := List.pairwise_append.mp hsorted
  have hright := List.pairwise_append.mp hlast.2.1
  have hSez : S ez.key := hkeys ez (by simp [hez])
  have habove : ∀ e ∈ LTree.entries h (LTree.split u.1 u.2).2 ++ r.flatMap (LTree.entries h),
      0 < c.cmp e.key z.key := by
    intro e he
    have hlt := hright.2.2 ez hez e he
    rw [← hezk]
    refine (hcmp.flip hSez (hkeys e ?_)).mp hlt
    exact List.mem_append_right _ (List.mem_append_right _ he)
  have hxL : x.id ∈ LTree.level h u.1 h := by
    rw [LTree.level_self, hid]
    simp
  have hrange : ∀ d, ∀ i ∈ leftOf A h s.id l d ++ LTree.level h u.1 d ++ rightOf B h r d,
      0 < i ∧ i < m'.countOfBlock := ha.placed.range
  refine ⟨lo, z, ns.kv.drop ((ns.count + 1) / 2), ?_, htop1, htop2⟩
  constructor
  · exact ha.page
  · exact hns
  · exact ha.dirty.1
  · exact ha.dirty.2
  · exact (hrange (h + 1) s.id (by simp [leftOf])).1
  · exact (hrange h x.id (by simp [hxL])).1
  · intro heq
    exact ha.father_outside h (heq ▸ hxL)
  · exact ha.slots
  · exact ha.shape.valSize
  · rw [ha.shape.size hwide]
    have h1 : n.count = l.length + r.length + 1 := by
      have hX := ha.left.length_eq
      have hY := ha.right.length_eq
      simp only [NodeBlock.count, ha.slots, List.length_append, List.length_cons]
      omega
    have h2 : s.items.length = l.length + r.length + 1 := by
      change s.children.length = _
      rw [hcs]
      simp
      omega
    have := hs.room
    omega
  · exact ⟨hlo, rfl⟩
  · intro e he
    obtain ⟨y, hy, hsep⟩ := forall₂_left_mem ha.left he
    obtain ⟨a, hay, hak⟩ := Option.map_eq_some_iff.mp hsep.1
    rw [← hak, ← hezk]
    refine hlast.2.2 a (List.mem_flatMap.mpr ⟨y, hy, List.mem_of_getLast? hay⟩) ez ?_
    exact List.mem_append_left _ hez
  · intro e he
    rcases List.mem_cons.mp he with rfl | he
    · rw [← hesk]
      exact Int.le_of_lt (habove es (List.mem_append_left _ hes))
    · obtain ⟨y, hy, hsep⟩ := forall₂_left_mem ha.right he
      obtain ⟨a, hay, hak⟩ := Option.map_eq_some_iff.mp hsep.1
      rw [← hak]
      refine Int.le_of_lt (habove a (List.mem_append_right _ ?_))
      exact List.mem_flatMap.mpr ⟨y, hy, List.mem_of_getLast? hay⟩
  · intro hb
    -- the next node follows the son on its level
    have hnext : ns.header.next = (rightOf B h r h).headD 0 := by
      have hchain := ha.placed.chain h
      simp only [LTree.level_self, hid, List.append_assoc, List.singleton_append] at hchain
      have := hchain.links.2
      unfold nextOf at this
      rwa [hns] at this
    have hin : ns.header.next ∈ rightOf B h r h := by
      rw [hnext] at hb ⊢
      cases hR : rightOf B h r h with
      | nil => simp [hR] at hb
      | cons b R => simp
    have hinL : ns.header.next ∈
        leftOf A h s.id l h ++ LTree.level h u.1 h ++ rightOf B h r h := by simp [hin]
    refine ⟨(hrange h _ hinL).2, ?_, ?_, ha.placed.node h _ hinL⟩
    · intro heq
      have := ha.placed.disjoint h (h + 1) s.id (heq ▸ hinL) (by simp [leftOf])
      omega
    · intro heq
      exact Placed.outside ha.placed (.inr (heq ▸ hin)) h hxL

/-- When the updated subtree is full, the node names its halves. -/
private theorem Absorbing.divided
    (ha : Absorbing c key value t t' m m' A B h s n X sl Y l x r w k u)
    (hs : Subtree c S t.page m.countOfBlock A B (h + 1) s) (hh : Heap t' m')
    (hcs : s.children = l ++ x :: r)
    (hroute : LTree.route c.cmp Slot.key key h s.children = l.length)
    (hdead : ∀ e ∈ LTree.entries (h + 1) s, c.cmp e.key key = 0 → e.isRemoved = true)
    (hlen : u.1.items.length = c.capacity h) {ns : NodeBlock K}
    (hns : t'.page x.id = .node ns) (hshape : Shape c h ns) (hf : Fits h ns.kv u.1.items)
    {lo hi : List (Slot K)} {z : Slot K}
    (hsp : Splitting c t' m' s.id x.id n ns X Y sl lo z hi)
    (htop1 : LTree.topKey Slot.key h (LTree.split u.1 u.2).1 = some z.key)
    (htop2 : LTree.topKey Slot.key h (LTree.split u.1 u.2).2 = some sl.key)
    (hd : Divided t' t'' m' m'' s.id x.id n ns X Y sl lo z hi) :
    Outcome c key value t m A B (h + 1) s 1 t'' := by
  have hid := son_id ha
  have hcount : ns.count = u.1.items.length := hf.length_eq
  have hupdate : LTree.update c.capacity c.cmp Slot.key key ⟨key, 1, w⟩ (reviveWith w) (h + 1) s k =
      (LTree.node s.id (l ++ (LTree.split u.1 u.2).1 :: (LTree.split u.1 u.2).2 :: r),
        u.2 + 1) := by
    rw [LTree.update_node s k hcs hroute, ha.update]
    exact if_pos hlen
  have hL : ∀ d, A d ++ LTree.level (h + 1) (LTree.node s.id
        (l ++ (LTree.split u.1 u.2).1 :: (LTree.split u.1 u.2).2 :: r)) d ++ B d =
      if d = h then leftOf A h s.id l h ++ x.id :: u.2 :: rightOf B h r h
      else leftOf A h s.id l d ++ LTree.level h u.1 d ++ rightOf B h r d := by
    intro d
    have := level_context (A := A) (B := B) (l := l) (r := r) s.id d
      [(LTree.split u.1 u.2).1, (LTree.split u.1 u.2).2]
    simp only [List.flatMap_cons, List.flatMap_nil, List.append_nil, List.cons_append,
      List.nil_append, LTree.level_split, hid] at this
    rw [this]
    by_cases hdh : d = h
    · subst hdh
      simp
    · simp [hdh]
  have hxL : x.id ∈ LTree.level h u.1 h := by
    rw [LTree.level_self, hid]
    simp
  have hown : ∀ d, ∀ i ∈ LTree.level h x d, i ∈ LTree.level (h + 1) s d := by
    intro d i hi
    have hd' : d ≠ h + 1 := by
      rintro rfl
      rw [LTree.level_of_lt x (Nat.lt_succ_self h)] at hi
      cases hi
    rw [LTree.level_node _ hd', hcs]
    exact List.mem_flatMap.mpr ⟨x, by simp, hi⟩
  have hg := hd.grown (fun i ↦ ∃ d, i ∈ LTree.level (h + 1) s d) hh hsp
    ⟨h + 1, by rw [LTree.level_self]; simp⟩ ⟨h, hown h _ (by rw [LTree.level_self]; simp)⟩
  have hg₀ := hd.grown (fun i ↦ i = s.id ∨ i = x.id) hh hsp (.inl rfl) (.inr rfl)
  have hsame : ∀ i, i ≠ s.id → i ≠ x.id → ∀ b, t'.page i = .node b → i < m'.countOfBlock →
      ∃ b', t''.page i = .node b' ∧ SameSlots b b' :=
    fun i h1 h2 b hb hlt ↦ hg₀.node i b hlt (fun h ↦ h.elim h1 h2) hb
  have hbelow : ∀ d < h, ∀ i ∈ LTree.level h u.1 d, ∀ b, t'.page i = .node b →
      ∃ b', t''.page i = .node b' ∧ SameSlots b b' := by
    intro d hdh i hi b hb
    refine hsame i ?_ ?_ b hb (ha.placed.range d i (by simp [hi])).2
    · rintro rfl
      exact ha.father_outside d hi
    · rintro rfl
      have := ha.placed.disjoint d h x.id (by simp [hi]) (by simp [hxL])
      omega
  obtain ⟨hlo, hhi⟩ := hsp.halves
  refine .done hdead t'' m'' w k _ ha.le ha.le' ha.storable hupdate (ha.grown.trans hg) ?_ ?_ ?_ ?_
    (hg.data.written hg.count_le ha.written)
  · rw [hd.count, ← ha.count]
  · refine ⟨⟨_, hd.father, ⟨ha.shape.keySize, ha.shape.valSize, ha.shape.type⟩, ?_⟩,
      fun y hy ↦ ?_⟩
    · refine List.rel_append ha.left (.cons ⟨htop1, ?_⟩ (.cons ⟨htop2, ?_⟩ ha.right))
      · rw [← hid]
        rfl
      · rw [← ha.count]
        rfl
    · simp only [LTree.children_node, List.mem_append, List.mem_cons] at hy
      rcases hy with hy | rfl | rfl | hy
      · exact ha.sibling hs hsame hcs (.inl hy)
      · have hson := hd.son
        rw [← hid] at hson
        refine ha.rep.subnode (fun y hy ↦ List.mem_of_mem_take hy) hson
          ⟨hshape.keySize, hshape.valSize, hshape.type⟩ ?_ hbelow
        change Fits h (lo ++ [z]) _
        rw [← hlo, hcount]
        exact hf.take _
      · have hfresh := hd.fresh
        rw [← ha.count] at hfresh
        refine ha.rep.subnode (fun y hy ↦ List.mem_of_mem_drop hy) hfresh
          ⟨hshape.keySize, hshape.valSize, hshape.type⟩ ?_ hbelow
        change Fits h hi _
        rw [← hhi, hcount]
        exact hf.drop _
      · exact ha.sibling hs hsame hcs (.inr hy)
  · have hLh : leftOf A h s.id l h ++ LTree.level h u.1 h ++ rightOf B h r h =
        leftOf A h s.id l h ++ x.id :: rightOf B h r h := by
      rw [LTree.level_self, hid]
      simp
    have hx' : nextOf t'.page x.id = ns.header.next := by rw [nextOf, hns]; rfl
    have hpos := hh.count_pos
    rw [hd.count]
    refine ha.placed.split (h := h) hpos hLh ?_ ?_ ⟨_, hd.fresh⟩ ?_ ?_ ?_ ?_ ?_ ?_
    · intro d
      rw [hL d, ← ha.count]
    · intro i b hb hlt
      by_cases h1 : i = s.id
      · exact ⟨_, h1 ▸ hd.father⟩
      · by_cases h2 : i = x.id
        · exact ⟨_, h2 ▸ hd.son⟩
        · obtain ⟨b', hb', _⟩ := hsame i h1 h2 b hb hlt
          exact ⟨b', hb'⟩
    · rw [nextOf, hd.son]
      rfl
    · rw [lastOf, lastOf, hd.son, hns]
      rfl
    · rw [hx', nextOf, hd.fresh]
      rfl
    · rw [lastOf, hd.fresh]
      rfl
    · rw [hx']
      intro hb
      obtain ⟨_, _, _, nb, hnb⟩ := hsp.next hb
      unfold nextOf lastOf
      rw [hd.next hb nb hnb, hnb]
      exact ⟨rfl, rfl⟩
    · rw [hx']
      intro d i hi hix hib
      have hrange := ha.placed.range d i hi
      unfold nextOf lastOf
      by_cases his : i = s.id
      · rw [his, hd.father, ha.page]
        exact ⟨rfl, rfl⟩
      · rw [hd.other i (by omega) his hix (by omega) fun _ ↦ hib]
        exact ⟨rfl, rfl⟩
  · intro i hi hi'
    rw [hd.count] at hi'
    have hmem : ∀ d, i ∈ LTree.level h (LTree.split u.1 u.2).1 d ++
        LTree.level h (LTree.split u.1 u.2).2 d → i ∈ LTree.level (h + 1) (LTree.node s.id
          (l ++ (LTree.split u.1 u.2).1 :: (LTree.split u.1 u.2).2 :: r)) d := by
      intro d hdi
      have hd' : d ≠ h + 1 := by
        rintro rfl
        rw [LTree.level_of_lt _ (Nat.lt_succ_self h),
          LTree.level_of_lt _ (Nat.lt_succ_self h)] at hdi
        cases hdi
      rw [LTree.level_node _ hd']
      simp only [LTree.children_node, List.flatMap_append, List.flatMap_cons,
        List.mem_append] at hdi ⊢
      rcases hdi with hdi | hdi <;> simp [hdi]
    by_cases hlast : i = m'.countOfBlock
    · refine .inr ⟨h, hmem h ?_⟩
      rw [LTree.level_split, if_pos rfl, hlast, ha.count]
      simp
    · rcases ha.fresh i hi (by omega) with hdata | ⟨d, hdi⟩
      · exact .inl (hg.data.isData (by omega) hdata)
      · refine .inr ⟨d, hmem d ?_⟩
        rw [LTree.level_split]
        split
        · next hdh =>
          subst hdh
          rw [LTree.level_self] at hdi
          simp only [List.mem_singleton] at hdi
          simp [hdi]
        · exact hdi

/-- The split of the updated subtree, if it became full, completes the insertion. -/
private theorem wp_splitIfFull
    (ha : Absorbing c key value t t' m m' A B h s n X sl Y l x r w k u)
    (hwide : c.Wide) (hcmp : Comparison c.cmp S) (hk : S key)
    (hE : Covers E (m.countOfBlock + blocksFor value + (h + 1)))
    (hs : Subtree c S t.page m.countOfBlock A B (h + 1) s) (hh : Heap t' m')
    (hcs : s.children = l ++ x :: r)
    (hroute : LTree.route c.cmp Slot.key key h s.children = l.length)
    (hdead : ∀ e ∈ LTree.entries (h + 1) s, c.cmp e.key key = 0 → e.isRemoved = true)
    (hQ : ∀ r t', Outcome c key value t m A B (h + 1) s r t' → Q r t') :
    wp E (do
      let son ← readNode (some x.id)
      if ← liftM son.full then do
        splitSon c (some s.id) (some x.id) X.length
        return 1
      else return 1) Q t' := by
  have hid := son_id ha
  obtain ⟨ns, hns, hshape, hf⟩ := ha.rep.root
  rw [hid] at hns
  have hmem : x ∈ s.children := by rw [hcs]; simp
  have hroom := (hs.bounded x hmem).2.1
  have hlen : u.1.items.length ≤ x.items.length + 1 := by
    rw [← ha.update]
    exact (LTree.length_update x k).2
  have hcount : ns.count = u.1.items.length := hf.length_eq
  have hfull : ns.full = .ok (u.1.items.length == c.capacity h) := by
    unfold NodeBlock.full
    rw [hshape.size hwide, hcount, if_pos (by omega)]
  simp only [wp_bind, wp_readNode ha.dirty.2.pooled hns, hfull, wp_liftM, beq_iff_eq]
  split
  · next heq =>
    obtain ⟨lo, z, hi, hsp, htop1, htop2⟩ :=
      ha.splitting hwide hcmp hk hs hcs hroute heq hns hf
    rw [wp_bind]
    have hcount : m'.countOfBlock ≤ k + h := by
      rw [← ha.count, ← ha.update]
      exact LTree.update_le x k
    have hk' := ha.le'
    refine wp_splitSon hh (hE.mono (by omega)) hsp fun t₂ m₂ hd ↦ ?_
    exact hQ 1 t₂ (ha.divided hs hh hcs hroute hdead heq hns hshape hf hsp htop1 htop2 hd)
  · next hne => exact hQ 1 t' (ha.whole hs hcs hroute hdead hne)

end Absorb

/-- The search for a key enters a subtree of any interior node, at the slot bisection finds. -/
theorem Subtree.exists_entered {s : LTree (Slot K) (h + 1)}
    (hs : Subtree c S t.page m.countOfBlock A B (h + 1) s) (hcmp : Comparison c.cmp S)
    (hk : S key) (hn : m.countOfBlock ≤ 2 ^ 32) :
    ∃ np X sl Y l x r k, t.page s.id = .node np ∧ Shape c (h + 1) np ∧
      Entered c.cmp key h np.kv s.children X sl Y l x r ∧ np.lub c.cmp key = .ok k ∧
      (k == np.count) = LTree.before c.cmp Slot.key key h x ∧
      (if (k == np.count) = true then k - 1 else k) = X.length ∧
      np.getValue X.length = .ok (leBytes 4 x.id) ∧ childIndex (leBytes 4 x.id) = x.id := by
  obtain ⟨⟨np, hnp, hshape, hfits⟩, _⟩ := hs.rep
  have hne : s.children ≠ [] := List.length_pos_iff.mp (hs.nonempty (by omega))
  obtain ⟨X, sl, Y, l, x, r, he⟩ := Index.exists_entered s.children hfits hne
    (Sorted.downward hs.sorted hcmp hs.keys hk)
  have hxid := (hs.child he.subtrees).placed.range h x.id (by rw [LTree.level_self]; simp)
  obtain ⟨L, R, hcut, hbefore, hafter⟩ := he.cut
  have hcount : np.count = X.length + Y.length + 1 := by
    simp only [NodeBlock.count, he.slots, List.length_append, List.length_cons]
    omega
  -- bisection ends at the slot of the subtree entered, or after it when it is the last
  have hflag : (L.length == np.count) = LTree.before c.cmp Slot.key key h x ∧
      (if (L.length == np.count) = true then L.length - 1 else L.length) = X.length := by
    by_cases hb : LTree.before c.cmp Slot.key key h x = true
    · have hY : Y = [] := by
        have hr := he.right
        rw [he.last hb] at hr
        cases hr
        rfl
      have hL : L.length = np.count := by rw [hbefore hb]; rfl
      rw [hY] at hcount
      simp only [List.length_nil] at hcount
      simp only [hL, hcount, hb, beq_self_eq_true, if_true, true_and]
      omega
    · have hL : L = X := hafter hb
      have hneq : (X.length == np.count) = false := by
        rw [beq_eq_false_iff_ne]
        omega
      simp only [hL, hneq, Bool.false_eq_true, if_false, and_true]
      simpa using hb
  refine ⟨np, X, sl, Y, l, x, r, L.length, hnp, hshape, he, NodeBlock.lub_eq hcut, hflag.1,
    hflag.2, ?_, childIndex_leBytes (by omega)⟩
  rw [NodeBlock.getValue_append he.slots, he.here.2]

/-- Insertion updates the subtree, unless a live entry has an equal key or the value is too
long for any block. -/
theorem wp_insert {fuel : Nat} {s : LTree (Slot K) h} (hwide : c.Wide)
    (hcmp : Comparison c.cmp S) (hk : S key) (hfuel : h < fuel) (hh : Heap t m)
    (hE : Covers E (m.countOfBlock + blocksFor value + h)) (hd : t.buffer.Dirty s.id)
    (hs : Subtree c S t.page m.countOfBlock A B h s)
    (hQ : ∀ r t', Outcome c key value t m A B h s r t' → Q r t') :
    wp E (insert c key value fuel (some s.id)) Q t := by
  induction h generalizing fuel t m A B Q with
  | zero =>
    obtain ⟨fuel, rfl⟩ : ∃ f, fuel = f + 1 := ⟨fuel - 1, by omega⟩
    exact wp_insert_leaf hwide hcmp hk hh hE hd hs hQ
  | succ h ih =>
    obtain ⟨fuel, rfl⟩ : ∃ f, fuel = f + 1 := ⟨fuel - 1, by omega⟩
    obtain ⟨np, X, sl, Y, l, x, r, k, hnp, hshape, he, hlub, hflag, hindex, hvalue, hson⟩ :=
      hs.exists_entered hcmp hk (by have := hh.count_le; omega)
    have hcs : s.children = l ++ x :: r := he.subtrees
    have hchild := hs.child hcs
    have hmem : x ∈ s.children := by rw [hcs]; simp
    obtain ⟨hx1, _, hxb⟩ := hs.bounded x hmem
    have hxid := hchild.placed.range h x.id (by rw [LTree.level_self]; simp)
    have hxne : LTree.entries h x ≠ [] := LTree.entries_ne_nil x hxb hx1
    have hleaf : np.leaf = false := by simp [hshape.leaf]
    have hdead : (∀ e ∈ LTree.entries h x, c.cmp e.key key = 0 → e.isRemoved = true) →
        ∀ e ∈ LTree.entries (h + 1) s, c.cmp e.key key = 0 → e.isRemoved = true :=
      fun hdx e hes hek ↦ hdx e (he.mem hcmp hs.sorted hs.keys hk hxne hes hek) hek
    have hsub : ∀ e ∈ LTree.entries h x, e ∈ LTree.entries (h + 1) s :=
      (LTree.sublist_entries hmem).subset
    unfold insert
    simp only [wp_bind, wp_readNode hd.pooled hnp, hlub, wp_liftM, hleaf, Bool.false_eq_true,
      if_false, hindex, hvalue, hson]
    refine wp_getNodeBlock hh hxid.2 fun t₁ hf₁ ↦ ?_
    have hs₁ : Subtree c S t₁.page m.countOfBlock (leftOf A h s.id l) (rightOf B h r) h x :=
      hf₁.page ▸ hchild
    refine ih (by omega) hf₁.heap (hE.mono (Nat.le_succ _)) (hf₁.dirty (by decide)) hs₁
      fun res t₂ ho ↦ ?_
    cases ho with
    | duplicate e hex hek hlive t₂ hl₂ hh₂ hp₂ =>
      simp only [ne_eq, Int.reduceEq, not_false_eq_true, if_true, wp_pure]
      exact hQ 0 t₂ (.duplicate e (hsub e hex) hek hlive t₂ (hf₁.later.trans hl₂) hh₂
        (hp₂.trans hf₁.page))
    | failed hdx t₂ m₂ hr hc hv hn' =>
      simp only [ne_eq, Int.reduceEq, not_false_eq_true, if_true, wp_pure]
      exact hQ (-1) t₂ (.failed (hdead hdx) t₂ m₂ ((Records.of_fetched hf₁).trans hr) hc hv
        hn')
    | done hdx t₂ m₂ w k u hk₂ hk₂' hst hu hg hcount₂ hrep hplaced hfresh hw =>
      simp only [ne_eq, not_true_eq_false, if_false]
      have hsid : ∀ d, s.id ∉ LTree.level h x d :=
        fun d ↦ Placed.outside (d := h + 1) hchild.placed (.inl (by simp [leftOf])) d
      have hs0 := (hs.placed.range (h + 1) s.id (by rw [LTree.level_self]; simp)).1
      have hown : ∀ i, (∃ d, i ∈ LTree.level h x d) → ∃ d, i ∈ LTree.level (h + 1) s d := by
        rintro i ⟨d, hi⟩
        have hd' : d ≠ h + 1 := by
          rintro rfl
          rw [LTree.level_of_lt x (Nat.lt_succ_self h)] at hi
          cases hi
        refine ⟨d, ?_⟩
        rw [LTree.level_node _ hd']
        exact List.mem_flatMap.mpr ⟨x, hmem, hi⟩
      have hg₂ : Grown t t₂ m m₂ fun i ↦ ∃ d, i ∈ LTree.level h x d :=
        (Grown.of_records (Records.of_fetched hf₁)).trans hg
      obtain ⟨n₂, hn₂, hsame₂⟩ := hg₂.node s.id np (hh.pooled _ hd.pooled)
        (not_exists.mpr hsid) hnp
      have hdx₂ := hg.later.dirty (hf₁.dirty (by decide))
      have hds₂ := hg₂.later.dirty hd
      have huid : u.1.id = x.id := by rw [← hu, LTree.id_update]
      -- what follows once the slot of the subtree carries its greatest key
      have hgo : ∀ t₃ n₃ sl₃, Later t₂ t₃ → Heap t₃ m₂ →
          t₃.page = Function.update t₂.page s.id (.node n₃) →
          n₃ = { n₂ with kv := X ++ sl₃ :: Y } → Separates h sl₃ u.1 →
          wp E (do
            let son ← readNode (some x.id)
            if ← liftM son.full then do
              splitSon c (some s.id) (some x.id) X.length
              return 1
            else return 1) Q t₃ := by
        intro t₃ n₃ sl₃ hl₃ hh₃ hp₃ hn₃ hsep
        have hg₃ : ∀ own : Nat → Prop, own s.id → Grown t₂ t₃ m₂ m₂ own :=
          fun own ho ↦ Grown.of_update hl₃ hh₃ hp₃ hn₂ ho
        have hpage₃ : ∀ i, i ≠ s.id → t₃.page i = t₂.page i := by
          intro i hi
          rw [hp₃, Function.update_of_ne hi]
        have hself : t₃.page s.id = .node n₃ := by rw [hp₃, Function.update_self]
        have hout : ∀ d, s.id ∉ LTree.level h u.1 d :=
          fun d ↦ Placed.outside (d := h + 1) hplaced (.inl (by simp [leftOf])) d
        have hself₃ := hg₃ (fun i ↦ i = s.id) rfl
        suffices ha : Absorbing c key value t t₃ m m₂ A B h s n₃ X sl₃ Y l x r w k u from
          wp_splitIfFull ha hwide hcmp hk hE hs hh₃ hcs he.route (hdead hdx) hQ
        constructor
        · exact (hg₂.mono hown).trans (hg₃ _ ⟨h + 1, by rw [LTree.level_self]; simp⟩)
        · intro d i hi his b hb
          have hi' := List.mem_append.mp hi
          have hrange : i < m.countOfBlock := (hchild.placed.range d i (mem_around hi')).2
          obtain ⟨b', hb', hsb⟩ := hg₂.node i b hrange
            (not_exists.mpr fun d' ↦ Placed.outside hchild.placed hi' d') hb
          exact ⟨b', by rw [hpage₃ i his, hb'], hsb⟩
        · exact hk₂
        · exact hk₂'
        · exact hst
        · exact hu
        · exact hcount₂
        · refine hrep.congr fun d i hi b hb ↦ ⟨b, ?_, .refl b⟩
          rw [hpage₃ i fun e ↦ hout d (e ▸ hi), hb]
        · refine Placed.congr hplaced (Nat.le_refl _) fun d i _ b hb ↦ ?_
          by_cases his : i = s.id
          · subst his
            rw [hn₂] at hb
            cases hb
            exact ⟨n₃, hself, by rw [hn₃], by rw [hn₃]⟩
          · exact ⟨b, by rw [hpage₃ i his, hb], rfl, rfl⟩
        · intro i hi hi'
          rcases hfresh i hi hi' with hdata | hlev
          · exact .inl (hself₃.data.isData hi' hdata)
          · exact .inr hlev
        · exact hself₃.data.written (Nat.le_refl _) hw
        · exact hself
        · rw [hn₃]
          exact ⟨hsame₂.keySize.trans hshape.keySize, hsame₂.valSize.trans hshape.valSize,
            hsame₂.type.trans hshape.type⟩
        · exact ⟨hl₃.dirty hds₂, hl₃.dirty hdx₂⟩
        · rw [hn₃]
        · exact he.left
        · exact hsep
        · exact he.right
      have hkv₂ : n₂.kv = X ++ sl :: Y := by rw [hsame₂.kv, he.slots]
      rw [hflag]
      split
      · next hb =>
        -- the key is above all others, and its node's greatest key has to follow
        obtain ⟨ns, hns, _, hfs⟩ := hrep.root
        rw [huid] at hns
        have hub : LTree.Bounded c.capacity h u.1 := by
          rw [← hu]
          exact LTree.bounded_update x k (fun d ↦ Nat.le_of_succ_le (hwide d)) hxb fun _ ↦ hx1
        have hu1 : 1 ≤ u.1.items.length := by
          rw [← hu]
          exact LTree.one_le_length_update x k fun _ ↦ hx1
        have hlen : 0 < ns.kv.length := by
          rw [hfs.length_eq]
          exact hu1
        obtain ⟨Z, z, hz⟩ : ∃ Z z, ns.kv = Z ++ [z] :=
          ⟨_, _, (List.dropLast_append_getLast (List.length_pos_iff.mp hlen)).symm⟩
        have hidx : n₂.header.index = s.id := by
          have := hg.heap.index s.id (hg.heap.pooled _ hds₂.pooled)
          rwa [hn₂] at this
        simp only [wp_bind, wp_readNode hdx₂.pooled hns, NodeBlock.maxKey_append hz, wp_liftM]
        refine wp_modify_page hg.heap hds₂ (by omega) hn₂
          (NodeBlock.set_append hkv₂ (some z.key) none 1) hidx fun t₃ hl₃ hh₃ hp₃ ↦ ?_
        have := hgo t₃ _ _ hl₃ hh₃ hp₃ rfl ⟨?_, ?_⟩
        · simpa only [wp_bind, wp_liftM] using this
        · rw [hz] at hfs
          exact hfs.topKey hub
        · rw [huid]
          exact he.here.2
      · next hb =>
        have hrev : ∀ e : Slot K, (reviveWith w e).key = e.key := fun _ ↦ rfl
        have hsx : Sorted c.cmp Slot.key (LTree.entries h x) := hchild.sorted
        refine hgo t₂ n₂ sl (.refl t₂) hg.heap ?_ (by rw [← hkv₂]) ⟨?_, ?_⟩
        · rw [← hn₂, Function.update_eq_self]
        · rw [← hu, LTree.topKey_update x k hcmp hsx hchild.keys hk hxb hx1 hrev hb]
          exact he.here.1
        · rw [huid]
          exact he.here.2

end BTree

end ExampleEngine.Index
