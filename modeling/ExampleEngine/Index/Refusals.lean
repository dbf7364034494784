import ExampleEngine.Index.Needs

/-!
# Insertions that are refused a block

Library `Index`. `BTree::put` of `src/lib/btree.cpp:495–620` on a platform where
`BufferManager::getBlock` of `src/lib/buffer.cpp:40–63` may be refused memory and may fail to
read: it handles a data block it is not given, and uses every other block without a check.
-/

namespace ExampleEngine.Index

open ExampleEngine.Base ExampleEngine.Storage

namespace BTree

variable {K : Type} {c : Config K} {S : K → Prop} {t t' : BTree K} {m : BTreeMetadata}
  {p : Platform} {value : List UInt8} {key : K} {i j h : Nat} {A B : Nat → List Nat}

/-- Code that only stops for want of a block is accounted for by what it needs. -/
theorem Accounted.exists_needs {code : TreeM K Int} {x : Except Fault Needs}
    (ha : Accounted p code t m i x) {Q : Int → BTree K → Prop} (hw : wp Beyond code Q t) :
    ∃ needs, x = .ok needs ∧ Asks p code t needs.fetches (fun r t' ↦ needs.after =
      if r = 1 then some (t'.blocks, (slotsOf (t'.page i)).length) else none)
      (Declined (-1) t m) := by
  cases x with
  | ok needs => exact ⟨needs, rfl, ha⟩
  | error e =>
    obtain ⟨⟨e, he, hu⟩, _⟩ := ha
    have hb := wp_error hw he
    cases e with
    | unreadable i => exact absurd rfl (hu i)
    | _ => exact hb.elim

/-- A node that does not hold too many slots tells whether it is full. -/
theorem run_full {n : NodeBlock K} {full : Bool}
    (hr : (liftM n.full : TreeM K Bool).run t = .ok (full, t')) :
    full = (n.count == n.size) ∧ t' = t := by
  unfold NodeBlock.full at hr
  split at hr
  · cases hr
    exact ⟨rfl, rfl⟩
  · cases hr

/-- A son that took the entry is split when it became full. -/
private theorem asks_splitIfFull {np ns : NodeBlock K} {index count : Nat} {v : Nat → Page K}
    {R : Int → BTree K → Prop} (hh : Heap t m) (hi : t.buffer.Dirty i) (hj : t.buffer.Dirty j)
    (hi0 : i ≠ 0) (hj0 : j ≠ 0) (hij : i ≠ j) (hnp : t.page i = .node np)
    (hns : t.page j = .node ns) (hsize : sizeAt v j = ns.size)
    (hnext : nextOf v j = ns.header.next) (hcount : count = np.count) :
    Asks p (do
      let son ← readNode (some j)
      if ← liftM son.full then do
        splitSon c (some i) (some j) index
        return 1
      else return 1) t (splitNeeds v count j (some (m.countOfBlock, ns.count))).fetches
      (fun r t' ↦ (splitNeeds v count j (some (m.countOfBlock, ns.count))).after =
        if r = 1 then some (t'.blocks, (slotsOf (t'.page i)).length) else none) R := by
  refine .known (.readNode _) (run_readNode hj.pooled hns) ?_
  refine .step (.liftM .full) fun full t₁ hr ↦ ?_
  obtain ⟨rfl, rfl⟩ := run_full hr
  unfold splitNeeds
  simp only [beq_iff_eq, hsize]
  split
  · have hfetches : splitFetches v m.countOfBlock j = splitFetches t₁.page m.countOfBlock j := by
      have : nextOf t₁.page j = ns.header.next := by
        unfold nextOf
        rw [hns]
        rfl
      unfold splitFetches
      rw [hnext, this]
    rw [hfetches]
    refine (asks_splitSon (R := fun _ _ ↦ False) hh hi hj hi0 hj0 hij hnp hns).last
      (fun _ ↦ .pure _) (fun u t₂ hq b t₃ hb ↦ ?_) fun _ _ hf ↦ hf.elim
    cases hb
    rw [if_pos rfl, hq.1, hq.2, hcount]
  · refine .of_pure ?_
    rw [if_pos rfl, hh.blocks_eq, hnp, hcount]
    rfl

/-- What follows where a son took the entry: its greatest key may go into the father's slot, and
it is split when it became full. -/
private theorem asks_absorb {np ns : NodeBlock K} {index : Nat} {above : Bool} {v : Nat → Page K}
    {R : Int → BTree K → Prop} (hh : Heap t m) (hi : t.buffer.Dirty i) (hj : t.buffer.Dirty j)
    (hi0 : i ≠ 0) (hj0 : j ≠ 0) (hij : i ≠ j) (hnp : t.page i = .node np)
    (hns : t.page j = .node ns) (hsize : sizeAt v j = ns.size)
    (hnext : nextOf v j = ns.header.next) :
    Asks p (do
      if above = true then do
        let s ← readNode (some j)
        let maxKey ← liftM s.maxKey
        modifyNode (some i) (·.set index (some maxKey) none 1)
      let s ← readNode (some j)
      if ← liftM s.full then splitSon c (some i) (some j) index
      return 1) t (splitNeeds v np.count j (some (m.countOfBlock, ns.count))).fetches
      (fun r t' ↦ (splitNeeds v np.count j (some (m.countOfBlock, ns.count))).after =
        if r = 1 then some (t'.blocks, (slotsOf (t'.page i)).length) else none) R := by
  split
  · refine .known (.readNode _) (run_readNode hj.pooled hns) ?_
    refine .step (.liftM .maxKey) fun maxKey t₁ hr ↦ ?_
    obtain rfl := run_liftM hr
    refine .step (.modifyNode _ fun _ ↦ .set) fun _ t₂ hr ↦ ?_
    obtain ⟨n, hset, rfl⟩ := run_modifyNode hi.pooled hnp hr
    have hidx : n.header.index = i := by
      have := hh.index i (hh.pooled i hi.pooled)
      rw [hnp] at this
      rwa [header_set hset]
    have hl := later_write hi (.node n)
    have hnp' : (t₁.write i (.node n)).page i = .node n := by
      rw [page_write hi.pooled, Function.update_self]
    refine asks_splitIfFull (m := m) ?_ (hl.dirty hi) (hl.dirty hj) hi0 hj0 hij hnp' ?_ hsize
      hnext ?_
    · exact hh.write hi.pooled hidx (fun h0 ↦ absurd h0 hi0) (fun _ ↦ rfl) rfl hh.number
    · rw [page_write hi.pooled, Function.update_of_ne (Ne.symm hij), hns]
    · rw [count_of_set hset]
  · exact asks_splitIfFull hh hi hj hi0 hj0 hij hnp hns hsize hnext rfl

/-- Nodes with the same neighbours on their level have the same next node. -/
private theorem nextOf_eq {v v' : Nat → Page K} {M M' : Nat → List Nat}
    {n n' : Nat} (hp : Placed v (fun d ↦ A d ++ M d ++ B d) n)
    (hp' : Placed v' (fun d ↦ A d ++ M' d ++ B d) n') (hM : M h = [i]) (hM' : M' h = [i]) :
    nextOf v i = nextOf v' i := by
  have hchain := hp.chain h
  have hchain' := hp'.chain h
  simp only [hM, List.append_assoc, List.singleton_append] at hchain
  simp only [hM', List.append_assoc, List.singleton_append] at hchain'
  rw [hchain.links.2, hchain'.links.2]

/-- Insertion asks for what it needs. -/
theorem asks_insert (p : Platform) (value : List UInt8) {fuel : Nat} {s : LTree (Slot K) h}
    (hwide : c.Wide) (hcmp : Comparison c.cmp S) (hk : S key) (hfuel : h < fuel) (hh : Heap t m)
    (hd : t.buffer.Dirty s.id) (hs : Subtree c S t.page m.countOfBlock A B h s) :
    ∃ needs, insertNeeds c key value t.page m.countOfBlock fuel s.id = .ok needs ∧
      Asks p (insert c key value fuel (some s.id)) t needs.fetches (fun r t' ↦ needs.after =
        if r = 1 then some (t'.blocks, (slotsOf (t'.page s.id)).length) else none)
        (Declined (-1) t m) := by
  induction h generalizing fuel t m A B with
  | zero =>
    obtain ⟨fuel, rfl⟩ : ∃ f, fuel = f + 1 := ⟨fuel - 1, by omega⟩
    obtain ⟨n, hn, hshape, hkv⟩ := hs.rep
    have hkv' : n.kv = LTree.entries 0 s := hkv
    have hleaf : n.leaf = true := by simp [hshape.leaf]
    have hwp : wp Beyond (insert c key value (fuel + 1) (some s.id)) (fun _ _ ↦ True) t :=
      wp_insert hwide hcmp hk hfuel hh (covers_beyond _) hd hs fun _ _ _ ↦ trivial
    refine Accounted.exists_needs ?_ hwp
    unfold insert insertNeeds
    simp only [hn, hleaf, if_true]
    refine .known (.readNode _) (run_readNode hd.pooled hn) (.lift .lub fun k _ ↦ ?_)
    rw [if_pos hleaf]
    exact asks_leaf hh hd.pooled hn fun e he ↦ hs.values e (hkv' ▸ he)
  | succ h ih =>
    obtain ⟨fuel, rfl⟩ : ∃ f, fuel = f + 1 := ⟨fuel - 1, by omega⟩
    have hle := hh.count_le
    obtain ⟨np, X, sl, Y, l, x, r, k, hnp, hshape, he, hlub, hflag, hindex, hvalue, hson⟩ :=
      hs.exists_entered hcmp hk (by omega)
    have hcs : s.children = l ++ x :: r := he.subtrees
    have hchild := hs.child hcs
    have hxid := hchild.placed.range h x.id (by rw [LTree.level_self]; simp)
    have hsid := hs.placed.range (h + 1) s.id (by rw [LTree.level_self]; simp)
    have hleaf : np.leaf = false := by simp [hshape.leaf]
    obtain ⟨_, t₁, hget, rfl, hf₁⟩ := exists_run (wp_getNodeBlock (E := fun _ ↦ False)
      (Q := fun r t₁ ↦ r = some x.id ∧ Fetched t t₁ m x.id 1) hh hxid.2 fun t₁ hf ↦ ⟨rfl, hf⟩)
    have hs₁ : Subtree c S t₁.page m.countOfBlock (leftOf A h s.id l) (rightOf B h r) h x :=
      hf₁.page ▸ hchild
    have hdx := hf₁.dirty (by decide)
    obtain ⟨below, hbelow, hasks⟩ := ih (Nat.lt_of_succ_lt_succ hfuel) hf₁.heap hdx hs₁
    rw [hf₁.page] at hbelow
    refine ⟨⟨⟨.node, x.id⟩ :: (below.fetches ++
      (splitNeeds t.page np.count x.id below.after).fetches),
      (splitNeeds t.page np.count x.id below.after).after⟩, ?_, ?_⟩
    · rw [insertNeeds, hnp]
      simp only [hlub, hleaf, hindex, hvalue, hson, hbelow, bind, Except.bind, pure, Except.pure,
        Bool.false_eq_true, if_false]
    unfold insert
    refine .known (.readNode _) (run_readNode hd.pooled hnp) ?_
    rw [hlub]
    refine .known (.pure k) rfl ?_
    simp only [hleaf, Bool.false_eq_true, if_false, hindex, hvalue]
    refine .known (.pure _) rfl ?_
    rw [hson]
    refine .getNodeBlock ?_ fun t' hr ↦ ?_
    · intro t'
      cases fuel with
      | zero => exact .bind ⟨_, rfl, fun i h ↦ by cases h⟩
      | succ fuel => exact .bind (.bind ⟨_, rfl, fun i h ↦ by cases h⟩)
    rw [hget] at hr
    cases hr
    refine hasks.bind (fun res t₂ hr hafter ↦ ?_) ?_
    · by_cases hres : res = 1
      · subst hres
        have ho := wp_ok (wp_insert (E := Beyond) (Q := Outcome c key value t₁ m
          (leftOf A h s.id l) (rightOf B h r) h x) hwide hcmp hk (by omega) hf₁.heap
          (covers_beyond _) hdx hs₁ fun _ _ ho ↦ ho) hr
        cases ho with
        | done hdead t₂ m₂ w n u hn hn' hst hu hg hcount hrep hplaced hfresh hw =>
        have huid : u.1.id = x.id := by rw [← hu, LTree.id_update]
        obtain ⟨ns, hns, hshape₂, hfits₂⟩ := hrep.root
        rw [huid] at hns
        obtain ⟨n₀, hn₀, hshape₀, _⟩ := hchild.rep.root
        obtain ⟨n₂, hn₂, hsame₂⟩ := hg.node s.id np (hf₁.heap.pooled _ (hf₁.later.dirty hd).pooled)
          (not_exists.mpr (Placed.outside (d := h + 1) hs₁.placed (.inl (by simp [leftOf]))))
          (by rw [hf₁.page, hnp])
        have hds₂ := hg.later.dirty (hf₁.later.dirty hd)
        have hdx₂ := hg.later.dirty hdx
        have hsize : sizeAt t.page x.id = ns.size := by
          unfold sizeAt
          rw [hn₀, hshape₂.size hwide]
          exact hshape₀.size hwide
        have hnext : nextOf t.page x.id = ns.header.next := by
          have := nextOf_eq (i := x.id) hchild.placed hplaced (LTree.level_self x)
            (by rw [LTree.level_self, huid])
          rw [this, nextOf, hns]
          rfl
        have hxs : s.id ≠ x.id := by
          intro heq
          refine Placed.outside (d := h + 1) (i := s.id) hchild.placed (.inl (by simp [leftOf]))
            h ?_
          rw [LTree.level_self, heq]
          simp
        have hcount₂ : n₂.count = np.count := congrArg List.length hsame₂.kv
        have hbelow₂ : below.after = some (m₂.countOfBlock, ns.count) := by
          rw [hafter, if_pos rfl, hg.heap.blocks_eq, hns]
          rfl
        rw [hbelow₂, if_neg (not_not.mpr rfl), ← hcount₂]
        exact asks_absorb hg.heap hds₂ hdx₂ (by omega) (by omega) hxs hn₂ hns hsize hnext
      · rw [hafter, if_neg hres, if_pos hres]
        exact .of_pure (by rw [if_neg hres]; rfl)
    · rintro _ t₂ ⟨rfl, m₂, hrec⟩
      exact ⟨-1, t₂, rfl, rfl, m₂, (Records.of_fetched hf₁).trans hrec⟩

/-- What the split of the root asks for, after an insertion that left it with so many slots. -/
def rootFetches (v : Nat → Page K) (root : Nat) : Option (Nat × Nat) → List Fetch
  | none => []
  | some (n, count) => if count = sizeAt v root then [⟨.node, n⟩, ⟨.node, n + 1⟩] else []

/-- The blocks that `put` asks for, one after the other. -/
def fetches (c : Config K) (key : K) (value : List UInt8) (t : BTree K) : List Fetch :=
  match insertNeeds c key value t.page t.blocks t.blocks t.root with
  | .ok needs => needs.fetches ++ rootFetches t.page t.root needs.after
  | .error _ => []

variable {x : LTree (Slot K) h}

/-- The split of the root asks for the next two blocks. -/
theorem asks_splitRoot {r : NodeBlock K} {R : Unit → BTree K → Prop} (hh : Heap t m)
    (hi : t.buffer.Pooled t.root) (hr : t.page t.root = .node r) :
    Asks p (splitRoot c) t ([⟨.node, m.countOfBlock⟩] ++ [⟨.node, m.countOfBlock + 1⟩])
      (fun _ _ ↦ True) R := by
  unfold splitRoot
  refine .get rfl (.known (.readNode _) (run_readNode hi hr) ?_)
  refine (Asks.getFreeNodeBlock (R := fun _ _ ↦ False) hh .node c.keySize
    c.nodeValueSize).bind ?_ fun _ _ hf ↦ hf.elim
  rintro _ t₁ - ⟨rfl, m₁, ha⟩
  rw [← ha.count]
  refine (Asks.getFreeNodeBlock (R := fun _ _ ↦ False) ha.heap r.header.type c.keySize
    r.valSize).last (fun next ↦ ?_) (fun _ _ _ _ _ _ ↦ trivial) fun _ _ hf ↦ hf.elim
  refine .bind (.readNode _) fun top ↦ .bind (.readNode _) fun fresh ↦ ?_
  refine .bind (.liftM .maxKey) fun maxKey ↦ .bind (.store _ _) fun _ ↦ ?_
  refine .bind (.store _ _) fun _ ↦ .bind (.liftM .maxKey) fun leftKey ↦ ?_
  exact .bind (.store _ _) fun _ ↦ .bind .readMeta fun _ ↦ .bind (.store _ _) fun _ ↦ .setRoot _

/-- A root that took the entry is split when it became full. -/
private theorem asks_splitRootIfFull {r : NodeBlock K} {i : Nat} {v : Nat → Page K}
    {R : Int → BTree K → Prop} (hh : Heap t m) (hroot : t.root = i) (hi : t.buffer.Pooled i)
    (hr : t.page i = .node r) (hsize : sizeAt v i = r.size) :
    Asks p (do
      let r ← readNode (some i)
      if ← liftM r.full then do
        splitRoot c
        return 1
      else return 1) t (rootFetches v i (some (m.countOfBlock, r.count))) (fun _ _ ↦ True) R := by
  subst hroot
  refine .known (.readNode _) (run_readNode hi hr) (.step (.liftM .full) fun full t₁ hf ↦ ?_)
  obtain ⟨rfl, rfl⟩ := run_full hf
  unfold rootFetches
  simp only [beq_iff_eq, hsize]
  split
  · exact (asks_splitRoot (R := fun _ _ ↦ False) hh hi hr).last (fun _ ↦ .pure _)
      (fun _ _ _ _ _ _ ↦ trivial) fun _ _ hf ↦ hf.elim
  · exact .of_pure trivial

/-- `put` asks for the blocks listed. -/
theorem Holds.asks_put (ht : Holds c S t m h x) (p : Platform) (value : List UInt8)
    (hwide : c.Wide) (hcmp : Comparison c.cmp S) (hk : S key) :
    Asks p (put c key value) t (fetches c key value t) (fun _ _ ↦ True) (Declined (-1) t m) := by
  obtain ⟨needs, hneeds, hasks⟩ := asks_insert p value hwide hcmp hk
    ht.height_lt ht.heap ht.dirty ht.tree
  have hfetches : fetches c key value t =
      needs.fetches ++ rootFetches t.page x.id needs.after := by
    unfold fetches
    rw [ht.heap.blocks_eq, ht.root, hneeds]
  rw [hfetches]
  unfold put
  refine .get rfl (.known .readMeta (run_readMeta ht.heap) ?_)
  rw [ht.root]
  refine hasks.bind (fun res t₁ hr hafter ↦ ?_) ?_
  · by_cases hres : res = 1
    · subst hres
      have ho := wp_ok (wp_insert (E := Beyond) (Q := Outcome c key value t m (fun _ ↦ [])
        (fun _ ↦ []) h x) hwide hcmp hk ht.height_lt ht.heap (covers_beyond _) ht.dirty ht.tree
        fun _ _ ho ↦ ho) hr
      cases ho with
      | done hdead t₁ m₁ w n u hn hn' hst hu hg hcount hrep hplaced hfresh hw =>
      have huid : u.1.id = x.id := by rw [← hu, LTree.id_update]
      obtain ⟨r, hr₁, hshape, hfits⟩ := hrep.root
      rw [huid] at hr₁
      obtain ⟨r₀, hr₀, hshape₀, _⟩ := ht.tree.rep.root
      have hx0 : x.id ≠ 0 := by
        have := (ht.placed.range h x.id (by rw [LTree.level_self]; simp)).1
        omega
      have hsize : sizeAt t.page x.id = r.size := by
        unfold sizeAt
        rw [hr₀, hshape.size hwide]
        exact hshape₀.size hwide
      have hslots : (slotsOf (.node r)).length = r.count := rfl
      rw [hafter, if_pos rfl, if_neg (not_not.mpr rfl), hg.heap.blocks_eq, hr₁, hslots]
      refine .known .readMeta (run_readMeta hg.heap) ?_
      refine .step (.store _ _) fun _ t₂ hr₂ ↦ ?_
      cases hr₂
      -- counting the item changes the metadata only
      have h0 := hg.heap.pinned
      have hh₂ : Heap (t₁.write 0 (.metadata { m₁ with
          countOfItem := (m₁.countOfItem + 1) % 2 ^ 32 }))
          { m₁ with countOfItem := (m₁.countOfItem + 1) % 2 ^ 32 } :=
        hg.heap.write h0.pooled hg.heap.index_metadata (fun _ ↦ rfl) (fun hz ↦ absurd rfl hz) rfl
          hg.heap.number
      have hi₂ := (later_write h0 (.metadata { m₁ with
        countOfItem := (m₁.countOfItem + 1) % 2 ^ 32 })).pooled (hg.later.dirty ht.dirty).pooled
      have hlast := asks_splitRootIfFull (c := c) (p := p) (R := Declined (-1) t m) hh₂
        (hg.later.root.trans ht.root) hi₂
        (by rw [page_write h0.pooled, Function.update_of_ne hx0, hr₁]) hsize
      exact hlast
    · rw [hafter, if_neg hres, if_pos hres]
      exact .of_pure trivial
  · rintro _ t₁ ⟨rfl, m₁, hrec⟩
    exact ⟨-1, t₁, rfl, rfl, m₁, hrec⟩

/-- On a reliable platform `put` does not stop for another reason than a file past 2 GiB. -/
theorem Holds.not_stops (ht : Holds c S t m h x) (value : List UInt8)
    (hwide : c.Wide) (hcmp : Comparison c.cmp S) (hk : S key) : ¬ Stops (put c key value) t := by
  rintro ⟨e, he, hu⟩
  have hb : Beyond e := wp_error (wp_put (Q := fun _ _ ↦ True) hwide hcmp hk ht
    (covers_beyond _) fun _ _ _ ↦ trivial) he
  cases e with
  | unreadable i => exact hu i rfl
  | _ => exact hb

end BTree

section Starved

end Starved

end ExampleEngine.Index
