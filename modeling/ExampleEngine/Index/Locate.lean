import ExampleEngine.Index.Cursor

/-!
# Descents and searches

Library `Index`. `getLeaf` finds the leaf where a search key cuts the entries, and
`Iterator::locate` of `src/lib/btree.cpp:156–203` lands on the first or last live entry that
its flag asks for. The search key need not be an entry key: it is enough that the comparator
turns from below to above along the entries.
-/

namespace ExampleEngine.Index

open ExampleEngine.Base ExampleEngine.Storage

variable {K : Type} {c : Config K} {S : K → Prop}

namespace BTree

variable {t t' : BTree K} {m : BTreeMetadata} {h : Nat} {x : LTree (Slot K) h} {key : K}

/-- A subtree that a descent can enter. -/
structure Descent (c : Config K) (v : Nat → Page K) (n h : Nat) (x : LTree (Slot K) h) :
    Prop where
  rep : Rep c v h x
  bounded : LTree.Bounded c.capacity h x
  nonempty : h ≠ 0 → 1 ≤ x.items.length
  range : ∀ d, ∀ i ∈ LTree.level h x d, i < n

/-- The whole tree is one. -/
theorem Holds.descent (ht : Holds c S t m h x) : Descent c t.page m.countOfBlock h x :=
  ⟨ht.tree.rep, ht.tree.bounded, ht.tree.nonempty, fun d i hi ↦ (ht.placed.range d i hi).2⟩

/-- So are the subtrees of one. -/
theorem Descent.child {v : Nat → Page K} {n : Nat} {x : LTree (Slot K) (h + 1)}
    {y : LTree (Slot K) h} (hx : Descent c v n (h + 1) x) (hy : y ∈ x.children) :
    Descent c v n h y := by
  obtain ⟨hy1, _, hyb⟩ := hx.bounded y hy
  refine ⟨hx.rep.2 y hy, hyb, fun _ ↦ hy1, fun d i hi ↦ hx.range d i ?_⟩
  have hd : d ≠ h + 1 := by
    rintro rfl
    rw [LTree.level_of_lt y (Nat.lt_succ_self h)] at hi
    cases hi
  rw [LTree.level_node x hd]
  exact List.mem_flatMap.mpr ⟨y, hy, hi⟩

/-- Fetch the subtree that a slot names. -/
private theorem wp_getSon {E : Fault → Prop} {Q : Option Nat → BTree K → Prop} {s : Slot K}
    (hh : Heap t m) (hs : Separates h s x) (hx : Descent c t.page m.countOfBlock h x)
    (hQ : ∀ t', Fetched t t' m x.id 1 → Descent c t'.page m.countOfBlock h x →
      Q (some x.id) t') :
    wp E (getNodeBlock (childIndex s.value)) Q t := by
  have hlt := hx.range h x.id (by rw [LTree.level_self]; simp)
  have := hh.count_le
  rw [hs.2, childIndex_leBytes (by omega)]
  exact wp_getNodeBlock hh hlt fun t' hf ↦ hQ t' hf (hf.page ▸ hx)

/-- The descent from a subtree to the leaf where the search key belongs. -/
private theorem wp_getLeafLoop {E : Fault → Prop} {Q : Option Nat → BTree K → Prop}
    {fuel : Nat} (hfuel : h < fuel) (hh : Heap t m) (hp : t.buffer.Pooled x.id)
    (hx : Descent c t.page m.countOfBlock h x)
    (hd : Downward c.cmp Slot.key key (LTree.entries h x))
    (hQ : ∀ t' L₁ lf L₂, Reads t t' m → t'.buffer.Pooled lf.id →
      LTree.leaves h x = L₁ ++ lf :: L₂ →
      (∀ e ∈ L₁.flatMap Numbered.items, c.cmp e.key key < 0) →
      ((∃ e ∈ lf.items, 0 ≤ c.cmp e.key key) ∨ L₂ = []) → Q (some lf.id) t') :
    wp E (getLeafLoop c key fuel (some x.id)) Q t := by
  induction h generalizing t fuel with
  | zero =>
    obtain ⟨fuel, rfl⟩ : ∃ f, fuel = f + 1 := ⟨fuel - 1, by omega⟩
    obtain ⟨n, hn, hs, _⟩ := hx.rep
    have hleaf : n.leaf = true := by simp [hs.leaf]
    unfold getLeafLoop
    simp only [wp_bind, wp_readNode hp hn, hleaf, if_true, wp_pure]
    exact hQ t [] ⟨x.id, x.items⟩ [] (.refl hh) hp rfl (by simp) (.inr rfl)
  | succ h ih =>
    obtain ⟨fuel, rfl⟩ : ∃ f, fuel = f + 1 := ⟨fuel - 1, by omega⟩
    obtain ⟨⟨n, hn, hs, hf⟩, _⟩ := hx.rep
    have hne : x.children ≠ [] := List.length_pos_iff.mp (hx.nonempty (by omega))
    obtain ⟨X, s, Y, l, y, r, he⟩ := exists_entered x.children hf hne hd
    have hcs : x.children = l ++ y :: r := he.subtrees
    have hmem : y ∈ x.children := by rw [hcs]; simp
    obtain ⟨hy1, _, hyb⟩ := hx.bounded y hmem
    obtain ⟨L, R, hcut, hbefore, hafter⟩ := he.cut
    have hleaf : n.leaf = false := by simp [hs.leaf]
    have hcount : n.count = X.length + Y.length + 1 := by
      simp only [NodeBlock.count, he.slots, List.length_append, List.length_cons]
      omega
    have hindex : (if L.length = n.count then L.length - 1 else L.length) = X.length := by
      by_cases hbf : LTree.before c.cmp Slot.key key h y = true
      · have hY : Y.length = 0 := by
          have hr := he.right.length_eq
          rw [he.last hbf] at hr
          exact hr
        have hL : L.length = n.count := by rw [hbefore hbf]; rfl
        rw [if_pos hL]
        omega
      · rw [hafter hbf, if_neg (by omega)]
    have hdy : Downward c.cmp Slot.key key (LTree.entries h y) :=
      List.Pairwise.sublist (LTree.sublist_entries hmem) hd
    unfold getLeafLoop
    simp only [wp_bind, wp_readNode hp hn, hleaf, Bool.false_eq_true, if_false,
      NodeBlock.lub_eq hcut, wp_liftM, hindex, NodeBlock.getValue_append he.slots]
    refine wp_getSon hh he.here (hx.child hmem) fun t₁ hf₁ hy₁ ↦ ?_
    refine ih (by omega) hf₁.heap hf₁.pooled hy₁ hdy fun t' L₁ lf L₂ hr hp' hL hbelow hlast ↦ ?_
    refine hQ t' (l.flatMap (LTree.leaves h) ++ L₁) lf (L₂ ++ r.flatMap (LTree.leaves h))
      (hf₁.reads.trans hr) hp' ?_ ?_ ?_
    · change x.children.flatMap _ = _
      rw [hcs, List.flatMap_append, List.flatMap_cons, hL]
      simp
    · intro e hmem_e
      rw [List.flatMap_append, List.mem_append] at hmem_e
      rcases hmem_e with hel | hel
      · rw [List.flatMap_assoc] at hel
        obtain ⟨z, hz, hez⟩ := List.mem_flatMap.mp hel
        rw [← LTree.entries_eq_leaves] at hez
        have hzc : z ∈ x.children := by rw [hcs]; simp [hz]
        exact LTree.below_of_before z (List.Pairwise.sublist (LTree.sublist_entries hzc) hd)
          (he.before z hz) e hez
      · exact hbelow e hel
    · by_cases hbf : LTree.before c.cmp Slot.key key h y = true
      · rw [he.last hbf]
        simpa using hlast
      · -- an entry that is not below the key is in this leaf, as it is in no other
        left
        rcases hlast with hex | rfl
        · exact hex
        · obtain ⟨e, hey, hek⟩ := LTree.exists_not_below y (LTree.entries_ne_nil y hyb hy1) hbf
          rw [LTree.entries_eq_leaves, hL, List.flatMap_append, List.mem_append] at hey
          rcases hey with hey | hey
          · have := hbelow e hey
            omega
          · exact ⟨e, by simpa using hey, hek⟩

/-- `getLeaf` finds the leaf where the search key cuts the entries. -/
theorem wp_getLeaf {E : Fault → Prop} {Q : Option Nat → BTree K → Prop}
    (ht : Holds c S t m h x) (hd : Downward c.cmp Slot.key key (LTree.entries h x))
    (hQ : ∀ t' L₁ lf L₂, Reads t t' m → t'.buffer.Pooled lf.id →
      LTree.leaves h x = L₁ ++ lf :: L₂ →
      (∀ e ∈ L₁.flatMap Numbered.items, c.cmp e.key key < 0) →
      ((∃ e ∈ lf.items, 0 ≤ c.cmp e.key key) ∨ L₂ = []) → Q (some lf.id) t') :
    wp E (getLeaf c key) Q t := by
  obtain ⟨n, hn, _, hf⟩ := ht.tree.rep.root
  -- the root is searched once more than needed
  have hlub : ∃ i, n.lub c.cmp key = .ok i := by
    cases h with
    | zero =>
      have hkv : n.kv = LTree.entries 0 x := hf
      rw [← hkv] at hd
      obtain ⟨A, B, hcut⟩ := Downward.exists_cut hd
      exact ⟨_, NodeBlock.lub_eq hcut⟩
    | succ h =>
      have hne : x.children ≠ [] := List.length_pos_iff.mp (ht.tree.nonempty (by omega))
      obtain ⟨_, _, _, _, _, _, he⟩ := exists_entered x.children hf hne hd
      obtain ⟨A, B, hcut, _⟩ := he.cut
      exact ⟨_, NodeBlock.lub_eq hcut⟩
  obtain ⟨i, hi⟩ := hlub
  unfold getLeaf
  simp only [wp_bind, wp_get, ht.root, wp_readNode ht.dirty.pooled hn, hi, wp_liftM,
    wp_readMeta ht.heap]
  exact wp_getLeafLoop ht.height_lt ht.heap ht.dirty.pooled ht.descent hd hQ

/-- The slot that a descent to the first or last leaf follows. -/
private def endSlot (toFirst : Bool) (n : NodeBlock K) : Nat :=
  if toFirst then 0 else n.count - 1

/-- The descent from a subtree to its first or last leaf. -/
private theorem wp_getEndLeafLoop {E : Fault → Prop} {Q : Option Nat → BTree K → Prop}
    {fuel : Nat} (toFirst : Bool) (hfuel : h < fuel) (hh : Heap t m)
    (hp : t.buffer.Pooled x.id) (hx : Descent c t.page m.countOfBlock h x)
    (hQ : ∀ t' L₁ lf L₂, Reads t t' m → t'.buffer.Pooled lf.id →
      LTree.leaves h x = L₁ ++ lf :: L₂ → (if toFirst then L₁ = [] else L₂ = []) →
      Q (some lf.id) t') :
    wp E (getEndLeafLoop (endSlot toFirst) fuel (some x.id)) Q t := by
  induction h generalizing t fuel with
  | zero =>
    obtain ⟨fuel, rfl⟩ : ∃ f, fuel = f + 1 := ⟨fuel - 1, by omega⟩
    obtain ⟨n, hn, hs, _⟩ := hx.rep
    have hleaf : n.leaf = true := by simp [hs.leaf]
    unfold getEndLeafLoop
    simp only [wp_bind, wp_readNode hp hn, hleaf, if_true, wp_pure]
    exact hQ t [] ⟨x.id, x.items⟩ [] (.refl hh) hp rfl (by simp)
  | succ h ih =>
    obtain ⟨fuel, rfl⟩ : ∃ f, fuel = f + 1 := ⟨fuel - 1, by omega⟩
    obtain ⟨⟨n, hn, hs, hf⟩, _⟩ := hx.rep
    have hne : x.children ≠ [] := List.length_pos_iff.mp (hx.nonempty (by omega))
    obtain ⟨l, y, r, hcs, hside⟩ : ∃ l y r, x.children = l ++ y :: r ∧
        (if toFirst then l = [] else r = []) := by
      cases toFirst with
      | true =>
        obtain ⟨y, r, hcs⟩ := List.exists_cons_of_ne_nil hne
        exact ⟨[], y, r, hcs, rfl⟩
      | false => exact ⟨_, _, [], (List.dropLast_append_getLast hne).symm, rfl⟩
    have hf' : List.Forall₂ (Separates h) n.kv (l ++ y :: r) := hcs ▸ hf
    obtain ⟨X, s, Y, hkv, hX, hsy, hY⟩ := forall₂_split_right hf'
    have hslot : endSlot toFirst n = X.length := by
      have hlX := hX.length_eq
      have hlY := hY.length_eq
      cases toFirst with
      | true =>
        have hl : l = [] := hside
        rw [hlX, hl]
        rfl
      | false =>
        have hr : r = [] := hside
        rw [hr] at hlY
        change n.count - 1 = X.length
        simp only [NodeBlock.count, hkv, List.length_append, List.length_cons, hlY,
          List.length_nil]
        omega
    have hmem : y ∈ x.children := by rw [hcs]; simp
    have hleaf : n.leaf = false := by simp [hs.leaf]
    unfold getEndLeafLoop
    simp only [wp_bind, wp_readNode hp hn, hleaf, Bool.false_eq_true, if_false, hslot,
      NodeBlock.getValue_append hkv, wp_liftM]
    refine wp_getSon hh hsy (hx.child hmem) fun t₁ hf₁ hy₁ ↦ ?_
    refine ih (by omega) hf₁.heap hf₁.pooled hy₁ fun t' L₁ lf L₂ hr hp' hL hend ↦ ?_
    refine hQ t' (l.flatMap (LTree.leaves h) ++ L₁) lf (L₂ ++ r.flatMap (LTree.leaves h))
      (hf₁.reads.trans hr) hp' ?_ ?_
    · change x.children.flatMap _ = _
      rw [hcs, List.flatMap_append, List.flatMap_cons, hL]
      simp
    · cases toFirst with
      | true =>
        have hl : l = [] := hside
        have hL₁ : L₁ = [] := hend
        rw [hl, hL₁]
        rfl
      | false =>
        have hr : r = [] := hside
        have hL₂ : L₂ = [] := hend
        rw [hr, hL₂]
        rfl

/-- `getFirstLeaf` finds the first leaf. -/
theorem wp_getFirstLeaf {E : Fault → Prop} {Q : Option Nat → BTree K → Prop}
    (ht : Holds c S t m h x)
    (hQ : ∀ t' lf L₂, Reads t t' m → t'.buffer.Pooled lf.id → LTree.leaves h x = lf :: L₂ →
      Q (some lf.id) t') :
    wp E getFirstLeaf Q t := by
  unfold getFirstLeaf
  simp only [wp_bind, wp_get, ht.root, wp_readMeta ht.heap]
  refine wp_getEndLeafLoop true ht.height_lt ht.heap ht.dirty.pooled ht.descent
    fun t' L₁ lf L₂ hr hp hL hend ↦ hQ t' lf L₂ hr hp ?_
  have hL₁ : L₁ = [] := hend
  rw [hL, hL₁]
  rfl

/-- `getLastLeaf` finds the last leaf. -/
theorem wp_getLastLeaf {E : Fault → Prop} {Q : Option Nat → BTree K → Prop}
    (ht : Holds c S t m h x)
    (hQ : ∀ t' L₁ lf, Reads t t' m → t'.buffer.Pooled lf.id → LTree.leaves h x = L₁ ++ [lf] →
      Q (some lf.id) t') :
    wp E getLastLeaf Q t := by
  unfold getLastLeaf
  simp only [wp_bind, wp_get, ht.root, wp_readMeta ht.heap]
  refine wp_getEndLeafLoop false ht.height_lt ht.heap ht.dirty.pooled ht.descent
    fun t' L₁ lf L₂ hr hp hL hend ↦ hQ t' L₁ lf hr hp ?_
  have hL₂ : L₂ = [] := hend
  rw [hL, hL₂]

end BTree

namespace IterFlag

/-- Which comparisons of an entry with the search key a flag accepts. -/
def Qualifies : IterFlag → Int → Prop
  | .EXACT_KEY, d => d = 0
  | .KEY_OR_NEXT, d => 0 ≤ d
  | .KEY_OR_PREV, d => d ≤ 0
  | .AFTER_KEY, d => 0 < d
  | .BEFROE_KEY, d => d < 0

/-- Whether a flag asks for the last entry it accepts, not for the first. -/
def backward : IterFlag → Bool
  | .KEY_OR_PREV => true
  | .BEFROE_KEY => true
  | _ => false

end IterFlag

/-- Where a move that fails leaves an iterator: on a slot, behind the last slot of the last leaf,
or anywhere on the leaf of an empty tree. -/
inductive Parked (t : BTree K) (h : Nat) (x : LTree (Slot K) h) : Iterator → Prop
  | on (it : Iterator) (pre : List (Slot K)) (e : Slot K) (post : List (Slot K))
      (ha : At t h x it pre e post) : Parked t h x it
  | past (L₁ : List (Numbered (Slot K))) (lf : Numbered (Slot K)) (a : List (Slot K))
      (e : Slot K) (hL : LTree.leaves h x = L₁ ++ [lf]) (hlf : lf.items = a ++ [e])
      (hp : t.buffer.Pooled lf.id) : Parked t h x ⟨some lf.id, lf.items.length⟩
  | empty (lf : Numbered (Slot K)) (i : Int) (hL : LTree.leaves h x = [lf])
      (hnil : lf.items = []) (hp : t.buffer.Pooled lf.id) : Parked t h x ⟨some lf.id, i⟩

/-- The live entry `f` is the one that a search asks for, with `A` before it and `B` after. -/
structure Landing (cmp : K → K → Int) (key : K) (flag : IterFlag) (A : List (Slot K))
    (f : Slot K) (B : List (Slot K)) : Prop where
  live : f.isRemoved = false
  qualifies : flag.Qualifies (cmp f.key key)
  extremal : ∀ e ∈ if flag.backward then B else A, e.isRemoved = false →
    ¬ flag.Qualifies (cmp e.key key)

namespace BTree

variable {t t' : BTree K} {m : BTreeMetadata} {h : Nat} {x : LTree (Slot K) h} {key : K}

/-- `locate` lands on the entry that its flag asks for, and fails when there is none. -/
theorem wp_locate {E : Fault → Prop} {flag : IterFlag} {Q : Int × Iterator → BTree K → Prop}
    (ht : Holds c S t m h x) (hprobe : Probe c.cmp Slot.key key (LTree.entries h x))
    (hfound : ∀ t' it A f B, Reads t t' m → Landing c.cmp key flag A f B →
      At t' h x it A f B → Q (1, it) t')
    (hnone : ∀ t' it, Reads t t' m →
      (∀ e ∈ LTree.entries h x, e.isRemoved = false → ¬ flag.Qualifies (c.cmp e.key key)) →
      Parked t' h x it → (LTree.entries h x = [] → it.index = 0) → Q (0, it) t') :
    wp E (Iterator.locate c key flag) Q t := by
  unfold Iterator.locate
  rw [wp_bind]
  refine wp_getLeaf ht hprobe.downward fun t₁ L₁ lf L₂ hr₁ hp hL hbelow hlast ↦ ?_
  have ht₁ := ht.reads hr₁
  have hmem : lf ∈ LTree.leaves h x := by rw [hL]; simp
  obtain ⟨n, hn, _, hkv⟩ := ht₁.tree.rep.leaf lf hmem
  have hent : LTree.entries h x =
      L₁.flatMap Numbered.items ++ (lf.items ++ L₂.flatMap Numbered.items) := by
    rw [LTree.entries_eq_leaves, hL, List.flatMap_append, List.flatMap_cons]
  have hdl : Downward c.cmp Slot.key key n.kv := by
    have hd := hprobe.downward
    rw [hent] at hd
    rw [hkv]
    exact (List.pairwise_append.mp (List.pairwise_append.mp hd).2.1).1
  obtain ⟨A, B, hcut⟩ := hdl.exists_cut
  simp only [wp_bind, wp_readNode hp hn, NodeBlock.lub_eq hcut, wp_liftM]
  have hitems : lf.items = A ++ B := hkv.symm.trans hcut.eq
  have hcount : n.count = A.length + B.length := by simp [NodeBlock.count, hcut.eq]
  have hpre : ∀ e ∈ L₁.flatMap Numbered.items ++ A, c.cmp e.key key < 0 := by
    intro e he
    rcases List.mem_append.mp he with he | he
    · exact hbelow e he
    · exact hcut.below e he
  cases B with
  | nil =>
    -- the key is above all entries
    have hA : A.length = n.count := by rw [hcount]; rfl
    rw [List.append_nil] at hitems
    have hL₂ : L₂ = [] := by
      rcases hlast with ⟨e, he, hek⟩ | hL₂
      · have := hcut.below e (hitems ▸ he)
        omega
      · exact hL₂
    subst hL₂
    have hall : ∀ e ∈ LTree.entries h x, c.cmp e.key key < 0 := by
      intro e he
      rw [hent, hitems, List.flatMap_nil, List.append_nil] at he
      exact hpre e he
    rw [if_pos hA]
    cases hemp : n.empty with
    | true =>
      simp only [if_true, wp_pure]
      have hnil : lf.items = [] := by
        simp only [NodeBlock.empty, beq_iff_eq] at hemp
        rw [← hkv]
        exact List.length_eq_zero_iff.mp hemp
      obtain ⟨hone, hent0⟩ := ht₁.leaves_of_nil hmem hnil
      exact hnone t₁ _ hr₁ (by simp [hent0]) (.empty lf _ hone hnil hp) fun _ ↦ by
        simp [← hitems, hnil]
    | false =>
      simp only [Bool.false_eq_true, if_false]
      have hAne : A ≠ [] := by
        rintro rfl
        simp [NodeBlock.empty, hcount] at hemp
      obtain ⟨a, e, rfl⟩ : ∃ a e, A = a ++ [e] :=
        ⟨_, _, (List.dropLast_append_getLast hAne).symm⟩
      have hat : At t₁ h x ⟨some lf.id, ((a ++ [e]).length : Int) - 1⟩
          (L₁.flatMap Numbered.items ++ a) e [] :=
        ⟨L₁, lf, [], a, [], hL, hitems, by simp, hp, rfl, rfl⟩
      have hback : ∀ flag' : IterFlag, flag'.backward = true →
          (∀ d : Int, d < 0 → flag'.Qualifies d) →
          flag = flag' →
          wp E (do
            if ← Iterator.removed ⟨some lf.id, ((a ++ [e]).length : Int) - 1⟩ then
              Iterator.prev ⟨some lf.id, ((a ++ [e]).length : Int) - 1⟩
            else return (1, ⟨some lf.id, ((a ++ [e]).length : Int) - 1⟩)) Q t₁ := by
        rintro flag' hb hq rfl
        simp only [wp_bind, hat.wp_removed ht₁]
        have hentA := hat.entries
        cases hdead : e.isRemoved with
        | false =>
          simp only [Bool.false_eq_true, if_false, wp_pure]
          refine hfound t₁ _ _ e [] hr₁ ⟨hdead, hq _ (hall e ?_), ?_⟩ hat
          · rw [hentA]
            simp
          · rw [hb, if_pos rfl]
            simp
        | true =>
          simp only [if_true]
          refine hat.wp_prev ht₁ ?_ ?_
          · intro t' it' e' post' hr' hdeads ha'
            refine hnone t' it' (hr₁.trans hr') (fun y hy hlive _ ↦ ?_) (.on it' [] e' post' ha')
              fun h0 ↦ by simp [h0] at hentA
            rw [hentA] at hy
            rcases List.mem_append.mp hy with hy | hy
            · rw [hdeads y hy] at hlive
              cases hlive
            · rw [List.mem_singleton.mp hy, hdead] at hlive
              cases hlive
          · intro t' it' pre' f dead hr' heq hdeads hlive ha'
            refine hfound t' it' pre' f _ (hr₁.trans hr') ⟨hlive, hq _ (hall f ?_), ?_⟩ ha'
            · rw [hentA, heq]
              simp
            · rw [hb, if_pos rfl]
              intro y hy hly
              rcases List.mem_append.mp hy with hy | hy
              · rw [hdeads y hy] at hly
                cases hly
              · rw [List.mem_singleton.mp hy, hdead] at hly
                cases hly
      have hforth : (∀ d : Int, d < 0 → ¬ flag.Qualifies d) →
          Q (0, ⟨some lf.id, ((a ++ [e]).length : Int)⟩) t₁ := by
        intro hq
        have hentA := hat.entries
        refine hnone t₁ _ hr₁ (fun y hy _ ↦ hq _ (hall y hy)) ?_ fun h0 ↦ by simp [h0] at hentA
        exact hitems ▸ .past L₁ lf a e hL hitems hp
      cases flag with
      | EXACT_KEY =>
        simp only [reduceCtorEq, or_self, if_false, wp_pure]
        exact hforth fun d hd hq ↦ by
          simp only [IterFlag.Qualifies] at hq
          omega
      | KEY_OR_NEXT =>
        simp only [reduceCtorEq, or_self, if_false, wp_pure]
        exact hforth fun d hd hq ↦ by
          simp only [IterFlag.Qualifies] at hq
          omega
      | AFTER_KEY =>
        simp only [reduceCtorEq, or_self, if_false, wp_pure]
        exact hforth fun d hd hq ↦ by
          simp only [IterFlag.Qualifies] at hq
          omega
      | KEY_OR_PREV =>
        simp only [true_or, if_true]
        exact hback .KEY_OR_PREV rfl (fun d hd ↦ Int.le_of_lt hd) rfl
      | BEFROE_KEY =>
        simp only [or_true, if_true]
        exact hback .BEFROE_KEY rfl (fun d hd ↦ hd) rfl
  | cons f B =>
    have hne : ¬ A.length = n.count := by
      rw [hcount]
      simp
    have hat : At t₁ h x ⟨some lf.id, A.length⟩ (L₁.flatMap Numbered.items ++ A) f
        (B ++ L₂.flatMap Numbered.items) :=
      ⟨L₁, lf, L₂, A, B, hL, hitems, rfl, hp, rfl, rfl⟩
    generalize L₁.flatMap Numbered.items ++ A = pre at hat hpre
    generalize B ++ L₂.flatMap Numbered.items = post at hat
    have hentA := hat.entries
    have hf : 0 ≤ c.cmp f.key key := hcut.above f (by simp)
    have hpost : ∀ e ∈ post, 0 < c.cmp e.key key := by
      intro e he
      rw [hentA] at hprobe
      exact (List.pairwise_cons.mp (List.pairwise_append.mp hprobe).2.1).1 e he hf
    have hmemE : ∀ y, y ∈ LTree.entries h x ↔ y ∈ pre ∨ y = f ∨ y ∈ post := by
      intro y
      rw [hentA, List.mem_append, List.mem_cons]
    -- moving on from the slot found, in either direction
    have hnext : (f.isRemoved = true ∨ ¬ flag.Qualifies (c.cmp f.key key)) →
        flag.backward = false → (∀ d, d < 0 → ¬ flag.Qualifies d) →
        (∀ d, 0 < d → flag.Qualifies d) →
        wp E (Iterator.next ⟨some lf.id, A.length⟩) Q t₁ := by
      intro hfno hb hneg hpos
      have hno : ∀ y ∈ pre ++ [f], y.isRemoved = false → ¬ flag.Qualifies (c.cmp y.key key) := by
        intro y hy hly
        rcases List.mem_append.mp hy with hy | hy
        · exact hneg _ (hpre y hy)
        · rw [List.mem_singleton.mp hy] at hly ⊢
          rcases hfno with hd | hq
          · rw [hly] at hd
            cases hd
          · exact hq
      refine hat.wp_next ht₁ ?_ ?_
      · intro t' it' pre' e' hr' hdeads ha'
        refine hnone t' it' (hr₁.trans hr') (fun y hy hly ↦ ?_) (.on it' pre' e' [] ha')
          fun h0 ↦ by simp [h0] at hentA
        rcases (hmemE y).mp hy with hy | rfl | hy
        · exact hno y (by simp [hy]) hly
        · exact hno y (by simp) hly
        · rw [hdeads y hy] at hly
          cases hly
      · intro t' it' dead g post' hr' heq hdeads hlive ha'
        refine hfound t' it' _ g post' (hr₁.trans hr')
          ⟨hlive, hpos _ (hpost g (by rw [heq]; simp)), ?_⟩ ha'
        rw [hb, if_neg (by simp)]
        intro y hy hly
        rcases List.mem_append.mp hy with hy | hy
        · exact hno y (by simp [hy]) hly
        · rcases List.mem_cons.mp hy with rfl | hy
          · exact hno y (by simp) hly
          · rw [hdeads y hy] at hly
            cases hly
    have hprev : (f.isRemoved = true ∨ ¬ flag.Qualifies (c.cmp f.key key)) →
        flag.backward = true → (∀ d, 0 < d → ¬ flag.Qualifies d) → (∀ d, d < 0 → flag.Qualifies d) →
        wp E (Iterator.prev ⟨some lf.id, A.length⟩) Q t₁ := by
      intro hfno hb hpos hneg
      have hno : ∀ y ∈ f :: post, y.isRemoved = false → ¬ flag.Qualifies (c.cmp y.key key) := by
        intro y hy hly
        rcases List.mem_cons.mp hy with rfl | hy
        · rcases hfno with hd | hq
          · rw [hly] at hd
            cases hd
          · exact hq
        · exact hpos _ (hpost y hy)
      refine hat.wp_prev ht₁ ?_ ?_
      · intro t' it' e' post' hr' hdeads ha'
        refine hnone t' it' (hr₁.trans hr') (fun y hy hly ↦ ?_) (.on it' [] e' post' ha')
          fun h0 ↦ by simp [h0] at hentA
        rcases (hmemE y).mp hy with hy | hy
        · rw [hdeads y hy] at hly
          cases hly
        · exact hno y (List.mem_cons.mpr hy) hly
      · intro t' it' pre' g dead hr' heq hdeads hlive ha'
        refine hfound t' it' pre' g _ (hr₁.trans hr')
          ⟨hlive, hneg _ (hpre g (by rw [heq]; simp)), ?_⟩ ha'
        rw [hb, if_pos rfl]
        intro y hy hly
        rcases List.mem_append.mp hy with hy | hy
        · rw [hdeads y hy] at hly
          cases hly
        · exact hno y hy hly
    have hhere : f.isRemoved = false → flag.Qualifies (c.cmp f.key key) →
        (flag.backward = false → ∀ d, d < 0 → ¬ flag.Qualifies d) →
        (flag.backward = true → ∀ d, 0 < d → ¬ flag.Qualifies d) →
        Q (1, ⟨some lf.id, A.length⟩) t₁ := by
      intro hlive hq hneg hpos
      refine hfound t₁ _ pre f post hr₁ ⟨hlive, hq, ?_⟩ hat
      cases hb : flag.backward with
      | true =>
        rw [if_pos rfl]
        exact fun y hy _ ↦ hpos hb _ (hpost y hy)
      | false =>
        rw [if_neg (by simp)]
        exact fun y hy _ ↦ hneg hb _ (hpre y hy)
    rw [if_neg hne]
    simp only [wp_bind, NodeBlock.compare_append hcut.eq, wp_liftM, hat.wp_removed ht₁]
    cases flag with
    | EXACT_KEY =>
      dsimp only
      split
      · next hyes =>
        simp only [wp_pure]
        exact hhere hyes.2 hyes.1 (fun _ d hd h0 ↦ by
          simp only [IterFlag.Qualifies] at h0
          omega) (fun hb ↦ absurd hb (by decide))
      · next hno =>
        simp only [wp_pure]
        refine hnone t₁ _ hr₁ (fun y hy hly hq ↦ ?_) (.on _ pre f post hat)
          fun h0 ↦ by simp [h0] at hentA
        simp only [IterFlag.Qualifies] at hq
        rcases (hmemE y).mp hy with hy | rfl | hy
        · have := hpre y hy
          omega
        · exact hno ⟨hq, hly⟩
        · have := hpost y hy
          omega
    | KEY_OR_NEXT =>
      dsimp only
      have hneg : ∀ d : Int, d < 0 → ¬ IterFlag.KEY_OR_NEXT.Qualifies d := by
        intro d hd hq
        simp only [IterFlag.Qualifies] at hq
        omega
      split
      · next hdead => exact hnext (.inl hdead) rfl hneg fun d hd ↦ Int.le_of_lt hd
      · next hlive =>
        simp only [wp_pure]
        exact hhere (by simpa using hlive) hf (fun _ ↦ hneg) fun hb ↦ absurd hb (by decide)
    | KEY_OR_PREV =>
      dsimp only
      have hpos : ∀ d : Int, 0 < d → ¬ IterFlag.KEY_OR_PREV.Qualifies d := by
        intro d hd hq
        simp only [IterFlag.Qualifies] at hq
        omega
      split
      · next hmove =>
        refine hprev ?_ rfl hpos fun d hd ↦ Int.le_of_lt hd
        rcases hmove with hne0 | hdead
        · exact .inr (hpos _ (by omega))
        · exact .inl hdead
      · next hstay =>
        simp only [wp_pure]
        rw [not_or] at hstay
        obtain ⟨h0, hlive⟩ := hstay
        refine hhere (by simpa using hlive) ?_ (fun hb ↦ absurd hb (by decide)) fun _ ↦ hpos
        simp only [IterFlag.Qualifies]
        omega
    | AFTER_KEY =>
      dsimp only
      have hneg : ∀ d : Int, d < 0 → ¬ IterFlag.AFTER_KEY.Qualifies d := by
        intro d hd hq
        simp only [IterFlag.Qualifies] at hq
        omega
      split
      · next hmove =>
        refine hnext ?_ rfl hneg fun d hd ↦ hd
        rcases hmove with h0 | hdead
        · right
          simp only [IterFlag.Qualifies]
          omega
        · exact .inl hdead
      · next hstay =>
        simp only [wp_pure]
        rw [not_or] at hstay
        obtain ⟨h0, hlive⟩ := hstay
        refine hhere (by simpa using hlive) ?_ (fun _ ↦ hneg) fun hb ↦ absurd hb (by decide)
        simp only [IterFlag.Qualifies]
        omega
    | BEFROE_KEY =>
      dsimp only
      refine hprev (.inr ?_) rfl ?_ fun d hd ↦ hd
      · simp only [IterFlag.Qualifies]
        omega
      · intro d hd hq
        simp only [IterFlag.Qualifies] at hq
        omega

/-- `first` lands on the first live entry, and fails when there is none. -/
theorem wp_first {E : Fault → Prop} {it : Iterator} {Q : Int × Iterator → BTree K → Prop}
    (ht : Holds c S t m h x)
    (hnone : ∀ t' it', Reads t t' m → (∀ e ∈ LTree.entries h x, e.isRemoved = true) →
      Parked t' h x it' → (LTree.entries h x = [] → it'.index = it.index) → Q (0, it') t')
    (hfound : ∀ t' it' dead f post, Reads t t' m → LTree.entries h x = dead ++ f :: post →
      (∀ d ∈ dead, d.isRemoved = true) → f.isRemoved = false → At t' h x it' dead f post →
      Q (1, it') t') :
    wp E (it.first) Q t := by
  unfold Iterator.first
  rw [wp_bind]
  refine wp_getFirstLeaf ht fun t₁ lf L₂ hr₁ hp hL ↦ ?_
  have ht₁ := ht.reads hr₁
  have hmem : lf ∈ LTree.leaves h x := by rw [hL]; simp
  obtain ⟨n, hn, _, hkv⟩ := ht₁.tree.rep.leaf lf hmem
  simp only [wp_bind, wp_readNode hp hn]
  cases hitems : lf.items with
  | nil =>
    have hempty : n.empty = true := by simp [NodeBlock.empty, NodeBlock.count, hkv, hitems]
    obtain ⟨hone, hent⟩ := ht.leaves_of_nil hmem hitems
    simp only [hempty, if_true, wp_pure]
    exact hnone t₁ _ hr₁ (by simp [hent]) (.empty lf _ hone hitems hp) fun _ ↦ rfl
  | cons e b =>
    have hempty : n.empty = false := by simp [NodeBlock.empty, NodeBlock.count, hkv, hitems]
    have ha : At t₁ h x ⟨some lf.id, 0⟩ [] e (b ++ L₂.flatMap Numbered.items) :=
      ⟨[], lf, L₂, [], b, hL, hitems, rfl, hp, rfl, rfl⟩
    have hent := ha.entries
    simp only [hempty, Bool.false_eq_true, if_false, wp_bind, ha.wp_removed ht₁]
    cases hdead : e.isRemoved with
    | false =>
      simp only [Bool.false_eq_true, if_false, wp_pure]
      exact hfound t₁ _ [] e _ hr₁ ha.entries (by simp) hdead ha
    | true =>
      simp only [if_true]
      refine ha.wp_next ht₁ ?_ ?_
      · intro t' it' pre' e' hr hall ha'
        refine hnone t' it' (hr₁.trans hr) ?_ (.on it' pre' e' [] ha') fun h0 ↦ by
          simp [h0] at hent
        rw [ha.entries]
        simpa [hdead] using hall
      · intro t' it' dead f post' hr heq hall hlive ha'
        refine hfound t' it' (e :: dead) f post' (hr₁.trans hr) ?_ ?_ hlive ha'
        · rw [ha.entries, heq]
          rfl
        · simpa [hdead] using hall

/-- `last` lands on the last live entry, and fails when there is none. -/
theorem wp_last {E : Fault → Prop} {it : Iterator} {Q : Int × Iterator → BTree K → Prop}
    (ht : Holds c S t m h x)
    (hnone : ∀ t' it', Reads t t' m → (∀ e ∈ LTree.entries h x, e.isRemoved = true) →
      Parked t' h x it' → (LTree.entries h x = [] → it'.index = it.index) → Q (0, it') t')
    (hfound : ∀ t' it' pre f dead, Reads t t' m → LTree.entries h x = pre ++ f :: dead →
      (∀ d ∈ dead, d.isRemoved = true) → f.isRemoved = false → At t' h x it' pre f dead →
      Q (1, it') t') :
    wp E (it.last) Q t := by
  unfold Iterator.last
  rw [wp_bind]
  refine wp_getLastLeaf ht fun t₁ L₁ lf hr₁ hp hL ↦ ?_
  have ht₁ := ht.reads hr₁
  have hmem : lf ∈ LTree.leaves h x := by rw [hL]; simp
  obtain ⟨n, hn, _, hkv⟩ := ht₁.tree.rep.leaf lf hmem
  simp only [wp_bind, wp_readNode hp hn]
  rcases List.eq_nil_or_concat lf.items with hitems | ⟨a, e, hitems⟩
  · have hempty : n.empty = true := by simp [NodeBlock.empty, NodeBlock.count, hkv, hitems]
    obtain ⟨hone, hent⟩ := ht.leaves_of_nil hmem hitems
    simp only [hempty, if_true, wp_pure]
    exact hnone t₁ _ hr₁ (by simp [hent]) (.empty lf _ hone hitems hp) fun _ ↦ rfl
  · rw [List.concat_eq_append] at hitems
    have hempty : n.empty = false := by simp [NodeBlock.empty, NodeBlock.count, hkv, hitems]
    have hcount : (n.count : Int) - 1 = (a.length : Int) := by
      simp [NodeBlock.count, hkv, hitems]
    have ha : At t₁ h x ⟨some lf.id, a.length⟩ (L₁.flatMap Numbered.items ++ a) e [] :=
      ⟨L₁, lf, [], a, [], hL, hitems, rfl, hp, rfl, rfl⟩
    have hent := ha.entries
    simp only [hempty, Bool.false_eq_true, if_false, hcount, wp_bind, ha.wp_removed ht₁]
    cases hdead : e.isRemoved with
    | false =>
      simp only [Bool.false_eq_true, if_false, wp_pure]
      exact hfound t₁ _ _ e [] hr₁ ha.entries (by simp) hdead ha
    | true =>
      simp only [if_true]
      refine ha.wp_prev ht₁ ?_ ?_
      · intro t' it' e' post' hr hall ha'
        refine hnone t' it' (hr₁.trans hr) ?_ (.on it' [] e' post' ha') fun h0 ↦ by
          simp [h0] at hent
        rw [ha.entries]
        intro d hd
        rcases List.mem_append.mp hd with hd | hd
        · exact hall d hd
        · rw [List.mem_singleton.mp hd]
          exact hdead
      · intro t' it' pre' f dead hr heq hall hlive ha'
        refine hfound t' it' pre' f (dead ++ [e]) (hr₁.trans hr) ?_ ?_ hlive ha'
        · rw [ha.entries, heq]
          simp
        · intro d hd
          rcases List.mem_append.mp hd with hd | hd
          · exact hall d hd
          · rw [List.mem_singleton.mp hd]
            exact hdead

end BTree

end ExampleEngine.Index
