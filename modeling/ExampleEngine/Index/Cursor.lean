import ExampleEngine.Index.Iterator
import ExampleEngine.Index.Put

/-!
# Cursors over the entries

Library `Index`. An iterator that stands on a slot of a leaf splits the entries of the tree
in those before it, its own, and those after it. Covers the moves of
`src/lib/btree.cpp:205–274` and the descents of `src/lib/btree.cpp:369–405`.
-/

namespace ExampleEngine.Index

open ExampleEngine.Base ExampleEngine.Storage

variable {K : Type} {c : Config K} {S : K → Prop}

/-- Every leaf of the tree is a leaf block with its entries. -/
theorem Rep.leaf {v : Nat → Page K} {h : Nat} {x : LTree (Slot K) h} (hx : Rep c v h x) :
    ∀ lf ∈ LTree.leaves h x, ∃ n, v lf.id = .node n ∧ Shape c 0 n ∧ n.kv = lf.items := by
  induction h with
  | zero =>
    intro lf hlf
    rw [List.mem_singleton.mp hlf]
    exact hx
  | succ h ih =>
    intro lf hlf
    obtain ⟨y, hy, hlfy⟩ := List.mem_flatMap.mp hlf
    exact ih (hx.2 y hy) lf hlfy

/-- Every node of the tree is a node block of its level. -/
theorem Rep.level {v : Nat → Page K} {h d i : Nat} {x : LTree (Slot K) h} (hx : Rep c v h x)
    (hi : i ∈ LTree.level h x d) : ∃ n, v i = .node n ∧ Shape c d n := by
  induction h with
  | zero =>
    simp only [LTree.level] at hi
    split at hi
    · next hd =>
      subst hd
      rw [List.mem_singleton.mp hi]
      obtain ⟨n, hn, hs, _⟩ := hx
      exact ⟨n, hn, hs⟩
    · simp at hi
  | succ h ih =>
    by_cases hd : d = h + 1
    · subst hd
      rw [LTree.level_self] at hi
      rw [List.mem_singleton.mp hi]
      obtain ⟨⟨n, hn, hs, _⟩, _⟩ := hx
      exact ⟨n, hn, hs⟩
    · rw [LTree.level_node x hd] at hi
      obtain ⟨y, hy, hiy⟩ := List.mem_flatMap.mp hi
      exact ih (hx.2 y hy) hiy

namespace BTree

variable {t t' t'' : BTree K} {m : BTreeMetadata} {h : Nat} {x : LTree (Slot K) h}

/-- What reading operations do: they may only fetch blocks. -/
structure Reads (t t' : BTree K) (m : BTreeMetadata) : Prop where
  later : Later t t'
  heap : Heap t' m
  page : t'.page = t.page

/-- Reading nothing. -/
theorem Reads.refl (hh : Heap t m) : Reads t t m := ⟨.refl t, hh, rfl⟩

/-- Reads compose. -/
theorem Reads.trans (hr : Reads t t' m) (hr' : Reads t' t'' m) : Reads t t'' m :=
  ⟨hr.later.trans hr'.later, hr'.heap, hr'.page.trans hr.page⟩

/-- Fetching a block is a read. -/
theorem Fetched.reads {i flag : Nat} (hf : Fetched t t' m i flag) : Reads t t' m :=
  ⟨hf.later, hf.heap, hf.page⟩

/-- Reads keep the tree. -/
theorem Holds.reads (ht : Holds c S t m h x) (hr : Reads t t' m) : Holds c S t' m h x where
  heap := hr.heap
  root := hr.later.root.trans ht.root
  metaRoot := ht.metaRoot
  dirty := hr.later.dirty ht.dirty
  tree := hr.page ▸ ht.tree
  two := ht.two
  roles := hr.page ▸ ht.roles

/-- The nodes on the lowest level are the leaves. -/
theorem Holds.chain (ht : Holds c S t m h x) :
    Chain (nextOf t.page) (lastOf t.page) 0 ((LTree.leaves h x).map Numbered.id) := by
  rw [← LTree.level_zero]
  exact ht.placed.chain 0

/-- Leaves have blocks in use. -/
theorem Holds.leaf_range (ht : Holds c S t m h x) {lf : Numbered (Slot K)}
    (hlf : lf ∈ LTree.leaves h x) : 0 < lf.id ∧ lf.id < m.countOfBlock := by
  refine ht.placed.range 0 lf.id ?_
  rw [LTree.level_zero]
  exact List.mem_map_of_mem hlf

/-- In a tree with more than one leaf no leaf is empty. -/
theorem Holds.leaf_ne_nil (ht : Holds c S t m h x) (hne : LTree.entries h x ≠ [])
    {lf : Numbered (Slot K)} (hlf : lf ∈ LTree.leaves h x) : lf.items ≠ [] := by
  have h1 : 1 ≤ x.items.length := by
    by_cases h0 : h = 0
    · subst h0
      exact List.length_pos_iff.mpr hne
    · exact ht.tree.nonempty h0
  have := (LTree.leaf_bounds x ht.tree.bounded h1 ht.tree.room lf hlf).1
  exact List.length_pos_iff.mp this

/-- An empty leaf is the only one. -/
theorem Holds.leaves_of_nil (ht : Holds c S t m h x) {lf : Numbered (Slot K)}
    (hlf : lf ∈ LTree.leaves h x) (hnil : lf.items = []) :
    LTree.leaves h x = [lf] ∧ LTree.entries h x = [] := by
  have hent : LTree.entries h x = [] := by
    by_contra hne
    exact ht.leaf_ne_nil hne hlf hnil
  refine ⟨?_, hent⟩
  cases h with
  | zero => rw [List.mem_singleton.mp hlf, LTree.leaves]
  | succ h =>
    have := (LTree.leaf_bounds x ht.tree.bounded (ht.tree.nonempty (by omega)) ht.tree.room lf
      hlf).1
    simp [hnil] at this

private theorem length_flatMap_le {n : Nat} {ls : List (Numbered (Slot K))}
    (h : ∀ lf ∈ ls, lf.items.length ≤ n) :
    (ls.flatMap Numbered.items).length ≤ ls.length * n := by
  induction ls with
  | nil => simp
  | cons lf ls ih =>
    have h1 := h lf (by simp)
    have h2 := ih fun y hy ↦ h y (by simp [hy])
    rw [List.flatMap_cons, List.length_append, List.length_cons, Nat.succ_mul]
    omega

/-- A leaf has fewer slots than a block has bytes. -/
theorem Holds.leaf_length_le (ht : Holds c S t m h x) {lf : Numbered (Slot K)}
    (hlf : lf ∈ LTree.leaves h x) : lf.items.length ≤ BLOCK_SIZE := by
  have hcap : c.capacity 0 ≤ BLOCK_SIZE := by
    unfold Config.capacity
    exact Nat.le_trans (Nat.div_le_self _ _) (Nat.sub_le _ _)
  by_cases hne : LTree.entries h x = []
  · rw [LTree.entries_eq_leaves] at hne
    rw [List.flatMap_eq_nil_iff.mp hne lf hlf]
    exact Nat.zero_le _
  · have h1 : 1 ≤ x.items.length := by
      by_cases h0 : h = 0
      · subst h0
        exact List.length_pos_iff.mpr hne
      · exact ht.tree.nonempty h0
    have := (LTree.leaf_bounds x ht.tree.bounded h1 ht.tree.room lf hlf).2
    omega

/-- The tree has fewer entries than its blocks have bytes. -/
theorem Holds.length_entries_lt (ht : Holds c S t m h x) :
    (LTree.entries h x).length ≤ m.countOfBlock * BLOCK_SIZE := by
  have hcount : (LTree.leaves h x).length ≤ m.countOfBlock := by
    have hnodup := ht.placed.nodup 0
    have hsub : (LTree.level h x 0) ⊆ List.range m.countOfBlock := fun i hi ↦
      List.mem_range.mpr (ht.placed.range 0 i hi).2
    have := (List.subperm_of_subset hnodup hsub).length_le
    rwa [LTree.level_zero, List.length_map, List.length_range] at this
  rw [LTree.entries_eq_leaves]
  exact Nat.le_trans (length_flatMap_le fun _ ↦ ht.leaf_length_le) (Nat.mul_le_mul_right _ hcount)

end BTree

/-- An iterator stands on the entry `e`, with `pre` before it and `post` after it. -/
structure At (t : BTree K) (h : Nat) (x : LTree (Slot K) h) (it : Iterator)
    (pre : List (Slot K)) (e : Slot K) (post : List (Slot K)) : Prop where
  pos : ∃ L₁ lf L₂ a b, LTree.leaves h x = L₁ ++ lf :: L₂ ∧ lf.items = a ++ e :: b ∧
    it = ⟨some lf.id, a.length⟩ ∧ t.buffer.Pooled lf.id ∧
    pre = L₁.flatMap Numbered.items ++ a ∧ post = b ++ L₂.flatMap Numbered.items

namespace At

open BTree

variable {t t' : BTree K} {m : BTreeMetadata} {h : Nat} {x : LTree (Slot K) h} {it : Iterator}
  {pre post : List (Slot K)} {e : Slot K}

/-- The three parts are the entries. -/
theorem entries (ha : At t h x it pre e post) : LTree.entries h x = pre ++ e :: post := by
  obtain ⟨L₁, lf, L₂, a, b, hL, hlf, _, _, rfl, rfl⟩ := ha.pos
  rw [LTree.entries_eq_leaves, hL, List.flatMap_append, List.flatMap_cons, hlf]
  simp

/-- Reading elsewhere leaves the iterator where it is. -/
theorem reads (ha : At t h x it pre e post) (hr : Reads t t' m) : At t' h x it pre e post := by
  obtain ⟨L₁, lf, L₂, a, b, hL, hlf, hit, hp, hpre, hpost⟩ := ha.pos
  exact ⟨L₁, lf, L₂, a, b, hL, hlf, hit, hr.later.pooled hp, hpre, hpost⟩

/-- The leaf under the iterator, with the slots around its own. -/
theorem leaf (ha : At t h x it pre e post) (ht : Holds c S t m h x) :
    ∃ i n a b, it = ⟨some i, (a : List (Slot K)).length⟩ ∧ t.buffer.Pooled i ∧
      t.page i = .node n ∧ Shape c 0 n ∧ n.kv = a ++ e :: b ∧ slotIndex it.index = a.length := by
  obtain ⟨L₁, lf, L₂, a, b, hL, hlf, rfl, hp, _, _⟩ := ha.pos
  have hmem : lf ∈ LTree.leaves h x := by rw [hL]; simp
  obtain ⟨n, hn, hs, hkv⟩ := ht.tree.rep.leaf lf hmem
  refine ⟨lf.id, n, a, b, rfl, hp, hn, hs, hkv.trans hlf, ?_⟩
  have hlen : a.length < lf.items.length := by
    rw [hlf]
    simp
  have hcap : c.capacity 0 ≤ BLOCK_SIZE - 34 := by
    unfold Config.capacity
    exact Nat.div_le_self _ _
  have h1 : 1 ≤ x.items.length := by
    by_cases h0 : h = 0
    · subst h0
      rw [List.mem_singleton.mp hmem] at hlen
      change a.length < x.items.length at hlen
      omega
    · exact ht.tree.nonempty h0
  have := (LTree.leaf_bounds x ht.tree.bounded h1 ht.tree.room lf hmem).2
  simp only [BLOCK_SIZE] at hcap
  unfold slotIndex
  simp only
  omega

/-- Reading the flag under the iterator. -/
theorem wp_removed {E : Fault → Prop} {Q : Bool → BTree K → Prop}
    (ha : At t h x it pre e post) (ht : Holds c S t m h x) :
    wp E it.removed Q t ↔ Q e.isRemoved t := by
  obtain ⟨i, n, a, b, rfl, hp, hn, _, hkv, hidx⟩ := ha.leaf ht
  unfold Iterator.removed
  simp only [wp_bind, wp_readNode hp hn, hidx, NodeBlock.removed_append hkv, wp_liftM]

/-- Reading the key under the iterator. -/
theorem wp_getKey {E : Fault → Prop} {Q : K → BTree K → Prop}
    (ha : At t h x it pre e post) (ht : Holds c S t m h x) :
    wp E it.getKey Q t ↔ Q e.key t := by
  obtain ⟨i, n, a, b, rfl, hp, hn, _, hkv, hidx⟩ := ha.leaf ht
  unfold Iterator.getKey
  simp only [wp_bind, wp_readNode hp hn, hidx, NodeBlock.getKey_append hkv, wp_liftM]

private theorem count_eq {n : NodeBlock K} {a b : List (Slot K)} (hkv : n.kv = a ++ e :: b) :
    (n.count : Int) = a.length + b.length + 1 := by
  simp only [NodeBlock.count, hkv, List.length_append, List.length_cons]
  omega

/-- A step forward reaches the next slot in the tree, if there is one. -/
theorem wp_stepNext {E : Fault → Prop} {Q : Option Iterator → BTree K → Prop}
    (ha : At t h x it pre e post) (ht : Holds c S t m h x)
    (hend : post = [] → Q none t)
    (hstep : ∀ t' it' f post', post = f :: post' → Reads t t' m →
      At t' h x it' (pre ++ [e]) f post' → Q (some it') t') :
    wp E it.stepNext Q t := by
  obtain ⟨L₁, lf, L₂, a, b, hL, hlf, rfl, hp, rfl, rfl⟩ := ha.pos
  obtain ⟨n, hn, _, hkv⟩ := ht.tree.rep.leaf lf (by rw [hL]; simp)
  have hcount := count_eq (hkv.trans hlf)
  unfold Iterator.stepNext
  simp only [wp_bind, wp_readNode hp hn, hcount]
  cases b with
  | cons f b =>
    rw [if_pos (by simp only [List.length_cons]; omega)]
    simp only [wp_pure]
    refine hstep t _ f (b ++ L₂.flatMap Numbered.items) rfl (.refl ht.heap)
      ⟨L₁, lf, L₂, a ++ [e], b, hL, by simp [hlf], by simp, hp, by simp, rfl⟩
  | nil =>
    rw [if_neg (by simp), if_pos (by simp)]
    -- the next leaf on the chain is the next leaf of the tree
    have hchain := hL ▸ ht.chain
    rw [List.map_append, List.map_cons] at hchain
    have hnext : n.header.next = (L₂.map Numbered.id).headD 0 := by
      have := hchain.links.2
      rwa [nextOf, hn] at this
    cases L₂ with
    | nil =>
      rw [if_pos (by rw [hnext]; rfl)]
      simp only [wp_pure]
      exact hend (by simp)
    | cons lf₂ L₂ =>
      have hmem : lf₂ ∈ LTree.leaves h x := by rw [hL]; simp
      obtain ⟨hpos, hlt⟩ := ht.leaf_range hmem
      have hid : n.header.next = lf₂.id := hnext
      have hent : LTree.entries h x ≠ [] := by
        rw [ha.entries]
        simp
      obtain ⟨f, b, hf⟩ := List.exists_cons_of_ne_nil (ht.leaf_ne_nil hent hmem)
      rw [if_neg (by omega), hid]
      simp only [wp_bind]
      refine wp_getNodeBlock ht.heap hlt fun t' hfe ↦ ?_
      simp only [wp_pure]
      refine hstep t' _ f (b ++ L₂.flatMap Numbered.items) (by simp [hf]) hfe.reads
        ⟨L₁ ++ [lf], lf₂, L₂, [], b, by simp [hL], by simp [hf], rfl, hfe.pooled,
          by simp [hlf], rfl⟩

/-- A step backward reaches the preceding slot in the tree, if there is one. -/
theorem wp_stepPrev {E : Fault → Prop} {Q : Option Iterator → BTree K → Prop}
    (ha : At t h x it pre e post) (ht : Holds c S t m h x)
    (hend : pre = [] → Q none t)
    (hstep : ∀ t' it' f pre', pre = pre' ++ [f] → Reads t t' m →
      At t' h x it' pre' f (e :: post) → Q (some it') t') :
    wp E it.stepPrev Q t := by
  obtain ⟨L₁, lf, L₂, a, b, hL, hlf, rfl, hp, rfl, rfl⟩ := ha.pos
  obtain ⟨n, hn, _, hkv⟩ := ht.tree.rep.leaf lf (by rw [hL]; simp)
  unfold Iterator.stepPrev
  rcases List.eq_nil_or_concat a with rfl | ⟨a, f, rfl⟩
  · rw [if_neg (by simp), if_pos (by simp)]
    simp only [wp_bind, wp_readNode hp hn]
    have hchain := hL ▸ ht.chain
    rw [List.map_append, List.map_cons] at hchain
    have hlast : n.header.last = (L₁.map Numbered.id).getLastD 0 := by
      have := hchain.links.1
      rwa [lastOf, hn] at this
    rcases List.eq_nil_or_concat L₁ with rfl | ⟨L₁, lf₁, rfl⟩
    · rw [if_pos (by rw [hlast]; rfl)]
      simp only [wp_pure]
      exact hend rfl
    · have hmem : lf₁ ∈ LTree.leaves h x := by rw [hL]; simp
      obtain ⟨hpos, hlt⟩ := ht.leaf_range hmem
      have hid : n.header.last = lf₁.id := by
        rw [hlast]
        simp
      have hent : LTree.entries h x ≠ [] := by
        rw [ha.entries]
        simp
      obtain ⟨a, f, hf⟩ : ∃ a f, lf₁.items = a ++ [f] :=
        ⟨_, _, (List.dropLast_append_getLast (ht.leaf_ne_nil hent hmem)).symm⟩
      obtain ⟨n₁, hn₁, _, hkv₁⟩ := ht.tree.rep.leaf lf₁ hmem
      rw [if_neg (by omega), hid]
      simp only [wp_bind]
      refine wp_getNodeBlock ht.heap hlt fun t' hfe ↦ ?_
      have hn₁' : t'.page lf₁.id = .node n₁ := by rw [hfe.page, hn₁]
      have hcount : (n₁.count : Int) - 1 = (a.length : Int) := by
        simp [NodeBlock.count, hkv₁, hf]
      simp only [wp_readNode hfe.pooled hn₁', wp_pure, hcount]
      refine hstep t' _ f (L₁.flatMap Numbered.items ++ a) (by simp [hf]) hfe.reads
        ⟨L₁, lf₁, lf :: L₂, a, [], by simp [hL], by simp [hf], rfl, hfe.pooled, rfl,
          by simp [hlf]⟩
  · rw [if_pos (by simp only [List.concat_eq_append, List.length_append,
      List.length_singleton]; omega)]
    simp only [wp_pure]
    refine hstep t _ f (L₁.flatMap Numbered.items ++ a) (by simp) (.refl ht.heap)
      ⟨L₁, lf, L₂, a, e :: b, hL, by simp [hlf], by simp, hp, rfl, by simp⟩

/-- The forward loop finds the first live entry from the iterator on. -/
theorem wp_nextLoop {E : Fault → Prop} {Q : Int × Iterator → BTree K → Prop} {fuel : Nat}
    (ha : At t h x it pre e post) (ht : Holds c S t m h x) (hf : post.length < fuel)
    (hend : ∀ t' it' pre' e', Reads t t' m → (∀ d ∈ e :: post, d.isRemoved = true) →
      At t' h x it' pre' e' [] → Q (0, it') t')
    (hfound : ∀ t' it' dead f post', Reads t t' m → e :: post = dead ++ f :: post' →
      (∀ d ∈ dead, d.isRemoved = true) → f.isRemoved = false →
      At t' h x it' (pre ++ dead) f post' → Q (1, it') t') :
    wp E (Iterator.nextLoop fuel it) Q t := by
  induction fuel generalizing t it pre e post with
  | zero => omega
  | succ fuel ih =>
    unfold Iterator.nextLoop
    simp only [wp_bind, ha.wp_removed ht]
    cases hdead : e.isRemoved with
    | false =>
      simp only [Bool.false_eq_true, if_false, wp_pure]
      exact hfound t it [] e post (.refl ht.heap) rfl (by simp) hdead (by simpa using ha)
    | true =>
      simp only [if_true, wp_bind]
      refine ha.wp_stepNext ht ?_ ?_
      · rintro rfl
        simp only [wp_pure]
        exact hend t it pre e (.refl ht.heap) (by simpa using hdead) ha
      · rintro t₁ it₁ f post rfl hr ha₁
        simp only [List.length_cons] at hf
        refine ih ha₁ (ht.reads hr) (by omega) ?_ ?_
        · intro t' it' pre' e' hr' hall ha'
          refine hend t' it' pre' e' (hr.trans hr') ?_ ha'
          intro d hd
          rcases List.mem_cons.mp hd with rfl | hd
          · exact hdead
          · exact hall d hd
        · intro t' it' dead g post' hr' heq hall hlive ha'
          refine hfound t' it' (e :: dead) g post' (hr.trans hr') (by rw [heq]; rfl) ?_ hlive
            (by simpa using ha')
          intro d hd
          rcases List.mem_cons.mp hd with rfl | hd
          · exact hdead
          · exact hall d hd

/-- The backward loop finds the last live entry before the iterator. -/
theorem wp_prevLoop {E : Fault → Prop} {Q : Int × Iterator → BTree K → Prop} {fuel : Nat}
    (ha : At t h x it pre e post) (ht : Holds c S t m h x) (hf : pre.length < fuel)
    (hend : ∀ t' it' e' post', Reads t t' m → (∀ d ∈ pre, d.isRemoved = true) →
      At t' h x it' [] e' post' → Q (0, it') t')
    (hfound : ∀ t' it' pre' f dead, Reads t t' m → pre = pre' ++ f :: dead →
      (∀ d ∈ dead, d.isRemoved = true) → f.isRemoved = false →
      At t' h x it' pre' f (dead ++ e :: post) → Q (1, it') t') :
    wp E (Iterator.prevLoop fuel it) Q t := by
  induction fuel generalizing t it pre e post with
  | zero => omega
  | succ fuel ih =>
    unfold Iterator.prevLoop
    simp only [wp_bind]
    refine ha.wp_stepPrev ht ?_ ?_
    · rintro rfl
      simp only [wp_pure]
      exact hend t it e post (.refl ht.heap) (by simp) ha
    · rintro t₁ it₁ f pre rfl hr ha₁
      have ht₁ := ht.reads hr
      simp only [wp_bind, ha₁.wp_removed ht₁]
      cases hdead : f.isRemoved with
      | false =>
        simp only [Bool.false_eq_true, if_false, wp_pure]
        exact hfound t₁ it₁ pre f [] hr rfl (by simp) hdead ha₁
      | true =>
        simp only [if_true]
        simp only [List.length_append, List.length_singleton] at hf
        refine ih ha₁ ht₁ (by omega) ?_ ?_
        · intro t' it' e' post' hr' hall ha'
          refine hend t' it' e' post' (hr.trans hr') ?_ ha'
          intro d hd
          rcases List.mem_append.mp hd with hd | hd
          · exact hall d hd
          · rw [List.mem_singleton.mp hd]
            exact hdead
        · intro t' it' pre' g dead hr' heq hall hlive ha'
          refine hfound t' it' pre' g (dead ++ [f]) (hr.trans hr') (by rw [heq]; simp) ?_ hlive
            (by simpa using ha')
          intro d hd
          rcases List.mem_append.mp hd with hd | hd
          · exact hall d hd
          · rw [List.mem_singleton.mp hd]
            exact hdead

/-- `next` moves to the first live entry after the iterator, and fails when there is none. -/
theorem wp_next {E : Fault → Prop} {Q : Int × Iterator → BTree K → Prop}
    (ha : At t h x it pre e post) (ht : Holds c S t m h x)
    (hend : ∀ t' it' pre' e', Reads t t' m → (∀ d ∈ post, d.isRemoved = true) →
      At t' h x it' pre' e' [] → Q (0, it') t')
    (hfound : ∀ t' it' dead f post', Reads t t' m → post = dead ++ f :: post' →
      (∀ d ∈ dead, d.isRemoved = true) → f.isRemoved = false →
      At t' h x it' (pre ++ e :: dead) f post' → Q (1, it') t') :
    wp E it.next Q t := by
  unfold Iterator.next
  simp only [wp_bind]
  refine ha.wp_stepNext ht ?_ ?_
  · rintro rfl
    simp only [wp_pure]
    exact hend t it pre e (.refl ht.heap) (by simp) ha
  · rintro t₁ it₁ f post rfl hr ha₁
    have ht₁ := ht.reads hr
    have hlen := ht.length_entries_lt
    rw [ha.entries] at hlen
    simp only [List.length_append, List.length_cons] at hlen
    unfold Iterator.fuel
    simp only [wp_bind, wp_readMeta hr.heap, wp_pure]
    refine ha₁.wp_nextLoop ht₁ (by omega) ?_ ?_
    · intro t' it' pre' e' hr' hall ha'
      exact hend t' it' pre' e' (hr.trans hr') hall ha'
    · intro t' it' dead g post' hr' heq hall hlive ha'
      exact hfound t' it' dead g post' (hr.trans hr') heq hall hlive (by simpa using ha')

/-- `prev` moves to the last live entry before the iterator, and fails when there is none. -/
theorem wp_prev {E : Fault → Prop} {Q : Int × Iterator → BTree K → Prop}
    (ha : At t h x it pre e post) (ht : Holds c S t m h x)
    (hend : ∀ t' it' e' post', Reads t t' m → (∀ d ∈ pre, d.isRemoved = true) →
      At t' h x it' [] e' post' → Q (0, it') t')
    (hfound : ∀ t' it' pre' f dead, Reads t t' m → pre = pre' ++ f :: dead →
      (∀ d ∈ dead, d.isRemoved = true) → f.isRemoved = false →
      At t' h x it' pre' f (dead ++ e :: post) → Q (1, it') t') :
    wp E it.prev Q t := by
  have hlen := ht.length_entries_lt
  rw [ha.entries] at hlen
  simp only [List.length_append, List.length_cons] at hlen
  unfold Iterator.prev Iterator.fuel
  simp only [wp_bind, wp_readMeta ht.heap, wp_pure]
  exact ha.wp_prevLoop ht (by omega) hend hfound

end At

end ExampleEngine.Index
