import ExampleEngine.Index.Flags

/-!
# What a tree contains

Library `Index`. The entries of an open tree, read off its blocks by a traversal, and the
reference searches over the live ones. The iterator operations of
`src/lib/btree.cpp:156–307` are stated against these.
-/

namespace ExampleEngine.Index

open ExampleEngine.Base ExampleEngine.Storage

variable {K : Type} {c : Config K} {S : K → Prop}

/-- The slots of the leaves below a block, in order. -/
def slotsBelow (v : Nat → Page K) : Nat → Nat → List (Slot K)
  | 0, _ => []
  | fuel + 1, i =>
    match v i with
    | .node n =>
      if n.leaf then n.kv else n.kv.flatMap fun s ↦ slotsBelow v fuel (childIndex s.value)
    | _ => []

/-- The bytes that slot bytes stand for: these bytes, or the record they locate. -/
def valueOf (c : Config K) (v : Nat → Page K) (w : List UInt8) : Option (Nat → UInt8) :=
  if c.isConstValueSize then some fun i ↦ (w[i]?).getD 0
  else
    match v (Location.ofBytes w).index with
    | .data d => (d.get (Location.ofBytes w).position).map fun o i ↦ d.bytes (o + i)
    | _ => none

namespace BTree

/-- The entries of a tree in order, removed ones included. -/
def slots (t : BTree K) : List (Slot K) :=
  match t.page 0 with
  | .metadata m => slotsBelow t.page m.countOfBlock t.root
  | _ => []

/-- The live entries in order. -/
def live (t : BTree K) : List (Slot K) := t.slots.filter fun s ↦ !s.isRemoved

/-- The live keys with their values, in order. -/
def contents (c : Config K) (t : BTree K) : List (K × Option (Nat → UInt8)) :=
  t.live.map fun s ↦ (s.key, valueOf c t.page s.value)

end BTree

namespace IterFlag

instance (flag : IterFlag) : DecidablePred flag.Qualifies := fun d ↦
  match flag with
  | .EXACT_KEY => inferInstanceAs (Decidable (d = 0))
  | .KEY_OR_NEXT => inferInstanceAs (Decidable (0 ≤ d))
  | .KEY_OR_PREV => inferInstanceAs (Decidable (d ≤ 0))
  | .AFTER_KEY => inferInstanceAs (Decidable (0 < d))
  | .BEFROE_KEY => inferInstanceAs (Decidable (d < 0))

/-- The reference search over sorted live entries: the first entry that a flag accepts, or
the last for the flags that look backward. -/
def search (flag : IterFlag) (cmp : K → K → Int) (key : K) (es : List (Slot K)) :
    Option (Slot K) :=
  (if flag.backward then es.reverse else es).find? fun e ↦ flag.Qualifies (cmp e.key key)

variable {flag : IterFlag} {cmp : K → K → Int} {key : K} {A B es : List (Slot K)} {f : Slot K}

/-- A landing is what the reference search finds. -/
theorem search_of_landing (hl : Landing cmp key flag A f B) :
    flag.search cmp key ((A ++ f :: B).filter fun s ↦ !s.isRemoved) = some f := by
  have hlive := hl.live
  have hq := hl.qualifies
  have hex := hl.extremal
  have hnone : ∀ l : List (Slot K), (∀ e ∈ l, e.isRemoved = false →
      ¬ flag.Qualifies (cmp e.key key)) →
      (l.filter fun s ↦ !s.isRemoved).find? (fun e ↦ flag.Qualifies (cmp e.key key)) = none := by
    intro l hl
    rw [List.find?_eq_none]
    intro e he
    obtain ⟨hmem, hlive⟩ := List.mem_filter.mp he
    simpa using hl e hmem (by simpa using hlive)
  unfold search
  rw [List.filter_append, List.filter_cons_of_pos (by simp [hlive])]
  cases hb : flag.backward with
  | false =>
    rw [hb] at hex
    simp only [Bool.false_eq_true, if_false] at hex ⊢
    rw [List.find?_append, hnone A hex, Option.none_or, List.find?_cons_of_pos (by simpa using hq)]
  | true =>
    rw [hb] at hex
    simp only [if_true] at hex ⊢
    rw [List.reverse_append, List.reverse_cons, List.find?_append, List.find?_append,
      ← List.filter_reverse, hnone B.reverse (by simpa using hex),
      List.find?_cons_of_pos (by simpa using hq)]
    rfl

/-- What the reference search finds is accepted. -/
theorem of_search (h : flag.search cmp key es = some f) :
    f ∈ es ∧ flag.Qualifies (cmp f.key key) := by
  unfold search at h
  refine ⟨?_, by simpa using List.find?_some h⟩
  have hmem := List.mem_of_find?_eq_some h
  split at hmem
  · exact List.mem_reverse.mp hmem
  · exact hmem

/-- When no live entry is accepted the reference search finds nothing. -/
theorem search_eq_none (h : ∀ e ∈ es, e.isRemoved = false → ¬ flag.Qualifies (cmp e.key key)) :
    flag.search cmp key (es.filter fun s ↦ !s.isRemoved) = none := by
  unfold search
  rw [List.find?_eq_none]
  intro e he
  have hmem : e ∈ es.filter fun s ↦ !s.isRemoved := by
    split at he
    · exact List.mem_reverse.mp he
    · exact he
  obtain ⟨hes, hlive⟩ := List.mem_filter.mp hmem
  simpa using h e hes (by simpa using hlive)

/-- The reference search finds something where some entry is accepted. -/
theorem exists_search {e : Slot K} (he : e ∈ es) (hq : flag.Qualifies (cmp e.key key)) :
    ∃ f, flag.search cmp key es = some f := by
  apply Option.ne_none_iff_exists'.mp
  intro hnone
  unfold search at hnone
  refine List.find?_eq_none.mp hnone e ?_ (by simpa using hq)
  split
  · exact List.mem_reverse.mpr he
  · exact he

/-- In a sorted list it finds the first entry that is accepted, or the last. -/
theorem search_extremal {T : K → Prop} (hs : Sorted cmp Slot.key es) (hcmp : Comparison cmp T)
    (hes : ∀ e ∈ es, T e.key) (h : flag.search cmp key es = some f) {e : Slot K} (he : e ∈ es)
    (hq : flag.Qualifies (cmp e.key key)) :
    if flag.backward then cmp e.key f.key ≤ 0 else cmp f.key e.key ≤ 0 := by
  have hself := hcmp.self (hes f (of_search h).1)
  unfold search at h
  obtain ⟨_, A, B, hAB, hA⟩ := List.find?_eq_some_iff_append.mp h
  have hne : e ∉ A := fun hmem ↦ by simpa [hq] using hA e hmem
  split at hAB
  · next hb =>
    rw [if_pos hb]
    have heq : es = B.reverse ++ f :: A.reverse := by
      rw [← List.reverse_reverse es, hAB]
      simp
    rw [heq] at hs he
    rcases List.mem_append.mp he with he | he
    · exact Int.le_of_lt ((List.pairwise_append.mp hs).2.2 e he f (by simp))
    · rcases List.mem_cons.mp he with rfl | he
      · omega
      · exact absurd (List.mem_reverse.mp he) hne
  · next hb =>
    rw [if_neg hb]
    rw [hAB] at hs he
    rcases List.mem_append.mp he with he | he
    · exact absurd he hne
    · rcases List.mem_cons.mp he with rfl | he
      · omega
      · exact Int.le_of_lt ((List.pairwise_cons.mp (List.pairwise_append.mp hs).2.1).1 e he)

end IterFlag

/-- Sorted live entries with one more for a key, whose slot holds `w`. The key of a revived
slot may differ from the one searched for, as long as the comparator finds them equal. -/
structure Joins (cmp : K → K → Int) (key : K) (w : List UInt8) (es es' : List (Slot K)) :
    Prop where
  split : ∃ A s B, es = A ++ B ∧ es' = A ++ s :: B ∧ s.value = w ∧ cmp s.key key = 0 ∧
    (∀ a ∈ A, cmp a.key key < 0) ∧ ∀ b ∈ B, 0 < cmp b.key key

section Joins

variable {cmp : K → K → Int} {key : K} {w : List UInt8} {es es' : List (Slot K)}

/-- There is one entry more. -/
theorem Joins.length (h : Joins cmp key w es es') : es'.length = es.length + 1 := by
  obtain ⟨A, s, B, rfl, rfl, _⟩ := h.split
  simp only [List.length_append, List.length_cons]
  omega

/-- It is the one for the key. -/
theorem Joins.exists_mem (h : Joins cmp key w es es') :
    ∃ s, s.value = w ∧ cmp s.key key = 0 ∧ ∀ a, a ∈ es' ↔ a = s ∨ a ∈ es := by
  obtain ⟨A, s, B, rfl, rfl, hw, hk, _⟩ := h.split
  refine ⟨s, hw, hk, fun a ↦ ?_⟩
  rw [List.mem_append, List.mem_append, List.mem_cons]
  exact or_left_comm

/-- The others are not equal to the key. -/
theorem Joins.ne (h : Joins cmp key w es es') : ∀ a ∈ es, cmp a.key key ≠ 0 := by
  obtain ⟨A, s, B, rfl, _, _, _, hA, hB⟩ := h.split
  intro a ha
  rcases List.mem_append.mp ha with ha | ha
  · have := hA a ha
    omega
  · have := hB a ha
    omega

/-- They are those that are not equal to the key. -/
theorem Joins.mem_iff (h : Joins cmp key w es es') (a : Slot K) :
    a ∈ es ↔ a ∈ es' ∧ cmp a.key key ≠ 0 := by
  obtain ⟨s, _, hk, hmem⟩ := h.exists_mem
  constructor
  · exact fun ha ↦ ⟨(hmem a).mpr (.inr ha), h.ne a ha⟩
  · rintro ⟨ha, hne⟩
    rcases (hmem a).mp ha with rfl | ha
    · exact absurd hk hne
    · exact ha

/-- A choice that leaves out the key sees no difference. -/
theorem Joins.filter_eq (h : Joins cmp key w es es') {p : Slot K → Bool}
    (hp : ∀ a ∈ es', cmp a.key key = 0 → p a = false) : es'.filter p = es.filter p := by
  obtain ⟨A, s, B, rfl, rfl, _, hk, _⟩ := h.split
  rw [List.filter_append, List.filter_append,
    List.filter_cons_of_neg (by simp [hp s (by simp) hk])]

/-- Another key on which the comparator agrees. -/
theorem Joins.congr {key' : K} (h : Joins cmp key w es es') (hk : ∀ a, cmp a key' = cmp a key) :
    Joins cmp key' w es es' := by
  obtain ⟨A, s, B, hes, hes', hw, hkey, hA, hB⟩ := h.split
  exact ⟨A, s, B, hes, hes', hw, (hk _).trans hkey, fun a ha ↦ hk a.key ▸ hA a ha,
    fun b hb ↦ hk b.key ▸ hB b hb⟩

/-- Taking an entry out of sorted ones is the converse of joining. -/
theorem joins_filter (hcmp : Comparison cmp S) (hs : Sorted cmp Slot.key es)
    (hes : ∀ e ∈ es, S e.key) (hk : S key) {e : Slot K} (he : e ∈ es) (hek : cmp e.key key = 0) :
    Joins cmp key e.value (es.filter fun a ↦ cmp a.key e.key ≠ 0) es := by
  obtain ⟨A, B, rfl⟩ := List.append_of_mem he
  obtain ⟨_, hsB, hsA⟩ := List.pairwise_append.mp hs
  have hke := hes e (by simp)
  have hA : ∀ a ∈ A, cmp a.key e.key < 0 := fun a ha ↦ hsA a ha e (by simp)
  have hB : ∀ b ∈ B, 0 < cmp b.key e.key := fun b hb ↦
    (hcmp.flip hke (hes b (by simp [hb]))).mp ((List.pairwise_cons.mp hsB).1 b hb)
  have hfA : A.filter (fun a ↦ cmp a.key e.key ≠ 0) = A := by
    rw [List.filter_eq_self]
    intro a ha
    have := hA a ha
    simp only [decide_eq_true_eq]
    omega
  have hfB : B.filter (fun a ↦ cmp a.key e.key ≠ 0) = B := by
    rw [List.filter_eq_self]
    intro b hb
    have := hB b hb
    simp only [decide_eq_true_eq]
    omega
  refine ⟨A, e, B, ?_, rfl, rfl, hek, fun a ha ↦ ?_, fun b hb ↦ ?_⟩
  · rw [List.filter_append, hfA, List.filter_cons_of_neg (by simp [hcmp.self hke]), hfB]
  · exact hcmp.lt_of_lt_of_le (hes a (by simp [ha])) hke hk (hA a ha) (by omega)
  · have hkb := hes b (by simp [hb])
    have hflip := (hcmp.flip hke hkb).mpr (hB b hb)
    have hsym := hcmp.symm hke hk hek
    exact (hcmp.flip hk hkb).mp (hcmp.lt_of_le_of_lt hk hke hkb (by omega) hflip)

end Joins

/-- An upsert where no equal entry is live adds a live entry. -/
theorem joins_upsert {cmp : K → K → Int} {key : K} {w : List UInt8} {es : List (Slot K)}
    (hcmp : Comparison cmp S) (hk : S key) (hes : ∀ e ∈ es, S e.key)
    (hs : Sorted cmp Slot.key es) (hdead : ∀ e ∈ es, cmp e.key key = 0 → e.isRemoved = true) :
    Joins cmp key w (es.filter fun s ↦ !s.isRemoved)
      ((upsert cmp Slot.key key ⟨key, 1, w⟩ (reviveWith w) es).filter fun s ↦ !s.isRemoved) := by
  obtain ⟨pre, post, hcut⟩ := (hs.downward hcmp hes hk).exists_cut
  have hpre : ∀ a ∈ pre.filter fun s ↦ !s.isRemoved, cmp a.key key < 0 := fun a ha ↦
    hcut.below a (List.mem_of_mem_filter ha)
  by_cases hhead : ∀ e ∈ post.head?, cmp e.key key ≠ 0
  · rw [hcut.upsert_ne hhead, hcut.eq, List.filter_append, List.filter_append,
      List.filter_cons_of_pos (by simp [Slot.isRemoved])]
    refine ⟨_, _, _, rfl, rfl, rfl, hcmp.self hk, hpre, fun b hb ↦ ?_⟩
    have hmem := List.mem_of_mem_filter hb
    have habove := hcut.above b hmem
    cases post with
    | nil => cases hmem
    | cons e rest =>
      rcases List.mem_cons.mp hmem with rfl | hmem
      · have := hhead b (by simp)
        omega
      · exact hcut.pos_of_cons rfl hs hcmp hes hk b hmem
  · push Not at hhead
    obtain ⟨e, he, hek⟩ := hhead
    obtain ⟨rest, rfl⟩ : ∃ rest, post = e :: rest := by
      cases post with
      | nil => cases he
      | cons e' rest =>
        rw [List.head?_cons, Option.mem_some_iff] at he
        exact ⟨rest, by rw [he]⟩
    have hrem := hdead e (by rw [hcut.eq]; simp) hek
    rw [hcut.upsert_eq hek, hcut.eq, List.filter_append, List.filter_append,
      List.filter_cons_of_neg (by simp [hrem]),
      List.filter_cons_of_pos (by simp [Slot.isRemoved, reviveWith])]
    exact ⟨_, _, _, rfl, rfl, rfl, hek, hpre, fun b hb ↦
      hcut.pos_of_cons rfl hs hcmp hes hk b (List.mem_of_mem_filter hb)⟩

/-- An iterator stands on the entry `s`: it points at the slot of a leaf that holds it. -/
structure Stands (t : BTree K) (it : Iterator) (s : Slot K) : Prop where
  slot : ∃ i n a b, it = ⟨some i, (a : List (Slot K)).length⟩ ∧ t.buffer.Pooled i ∧
    t.page i = .node n ∧ n.leaf = true ∧ n.kv = a ++ s :: b

/-- The entry that an iterator stands on, if any. -/
def Iterator.slot (it : Iterator) (t : BTree K) : Option (Slot K) :=
  match it.cur with
  | none => none
  | some i =>
    match t.buffer.frame i, t.page i with
    | some _, .node n => if n.leaf ∧ 0 ≤ it.index then n.kv[it.index.toNat]? else none
    | _, _ => none

/-- The entry read off the blocks is stood on. -/
theorem stands_of_slot {it : Iterator} {t : BTree K} {s : Slot K} (h : it.slot t = some s) :
    Stands t it s := by
  obtain ⟨cur, index⟩ := it
  cases cur with
  | none => cases h
  | some i =>
    simp only [Iterator.slot] at h
    split at h
    · next f n hf hn =>
      split at h
      · next hidx =>
        obtain ⟨hlt, hget⟩ := List.getElem?_eq_some_iff.mp h
        have hlen : ((n.kv.take index.toNat).length : Int) = index := by
          rw [List.length_take]
          omega
        refine ⟨i, n, n.kv.take index.toNat, n.kv.drop (index.toNat + 1), by rw [hlen],
          by simp [BufferManager.Pooled, hf], hn, hidx.1, ?_⟩
        rw [← hget, List.getElem_cons_drop, List.take_append_drop]
      · cases h
    · cases h

/-- The outcome of a move: on the entry searched for, or none found. -/
def Found (t : BTree K) (r : Int × Iterator) : Option (Slot K) → Prop
  | some e => r.1 = 1 ∧ Stands t r.2 e
  | none => r.1 = 0

namespace BTree

variable {t t' : BTree K} {m : BTreeMetadata} {h : Nat} {x : LTree (Slot K) h} {it : Iterator}
  {s : Slot K} {pre post : List (Slot K)}

private theorem slotsBelow_eq {fuel n : Nat} (hf : h < fuel) (hn : n ≤ 2 ^ 32)
    {v : Nat → Page K} (hx : Descent c v n h x) :
    slotsBelow v fuel x.id = LTree.entries h x := by
  induction h generalizing fuel with
  | zero =>
    obtain ⟨fuel, rfl⟩ : ∃ f, fuel = f + 1 := ⟨fuel - 1, by omega⟩
    obtain ⟨k, hk, hs, hkv⟩ := hx.rep
    have hleaf : k.leaf = true := by simp [hs.leaf]
    rw [slotsBelow, hk]
    simp only [hleaf, if_true]
    exact hkv
  | succ h ih =>
    obtain ⟨fuel, rfl⟩ : ∃ f, fuel = f + 1 := ⟨fuel - 1, by omega⟩
    obtain ⟨⟨k, hk, hs, hf⟩, _⟩ := hx.rep
    have hleaf : k.leaf = false := by simp [hs.leaf]
    rw [slotsBelow, hk]
    simp only [hleaf, Bool.false_eq_true, if_false]
    -- each slot leads to the subtree that it names
    have hsub : ∀ (kv : List (Slot K)) (cs : List (LTree (Slot K) h)),
        List.Forall₂ (Separates h) kv cs → (∀ y ∈ cs, y ∈ x.children) →
        (kv.flatMap fun s ↦ slotsBelow v fuel (childIndex s.value)) =
          cs.flatMap (LTree.entries h) := by
      intro kv cs hfits hcs
      induction hfits with
      | nil => rfl
      | cons hsy _ ihcs =>
        next s y kv cs _ =>
        have hy := hx.child (hcs y (by simp))
        have hlt := hy.range h y.id (by rw [LTree.level_self]; simp)
        rw [List.flatMap_cons, List.flatMap_cons, hsy.2, childIndex_leBytes (by omega),
          ih (by omega) hy, ihcs fun z hz ↦ hcs z (by simp [hz])]
    exact hsub k.kv x.children hf fun _ hy ↦ hy

/-- The traversal reads the entries of the tree. -/
theorem Holds.slots_eq (ht : Holds c S t m h x) : t.slots = LTree.entries h x := by
  have hle := ht.heap.count_le
  unfold slots
  rw [ht.heap.metadata, ht.root]
  exact slotsBelow_eq ht.height_lt (by omega) ht.descent

/-- The live entries of the tree. -/
theorem Holds.live_eq (ht : Holds c S t m h x) :
    t.live = (LTree.entries h x).filter fun s ↦ !s.isRemoved := by
  unfold live
  rw [ht.slots_eq]

/-- The entries depend on the blocks and the root alone. -/
theorem slots_congr (hp : t'.page = t.page) (hr : t'.root = t.root) : t'.slots = t.slots := by
  unfold BTree.slots
  rw [hp, hr]

/-- So do the live ones. -/
theorem live_congr (hp : t'.page = t.page) (hr : t'.root = t.root) : t'.live = t.live := by
  unfold BTree.live
  rw [slots_congr hp hr]

/-- So do the contents. -/
theorem contents_congr (hp : t'.page = t.page) (hr : t'.root = t.root) :
    t'.contents c = t.contents c := by
  unfold BTree.contents
  rw [live_congr hp hr, hp]

end BTree

open BTree

section Moves

variable {t t' : BTree K} {m : BTreeMetadata} {h : Nat} {x : LTree (Slot K) h} {it : Iterator}
  {s : Slot K} {pre post : List (Slot K)}

/-- An iterator between the entries stands on one. -/
theorem At.stands (ha : At t h x it pre s post) (ht : Holds c S t m h x) : Stands t it s := by
  obtain ⟨i, n, a, b, hit, hp, hn, hs, hkv, _⟩ := ha.leaf ht
  exact ⟨i, n, a, b, hit, hp, hn, by simp [hs.leaf], hkv⟩

/-- Every leaf block in the pool is a leaf of the tree. -/
theorem BTree.Holds.exists_leaf (ht : Holds c S t m h x) {i : Nat} {n : NodeBlock K}
    (hp : t.buffer.Pooled i) (hn : t.page i = .node n) (hleaf : n.leaf = true) :
    ∃ lf ∈ LTree.leaves h x, lf.id = i := by
  have hi0 : 0 < i := Nat.pos_of_ne_zero (ht.heap.ne_zero_of_node hn)
  rcases ht.roles i hi0 (ht.heap.pooled i hp) with ⟨d, hd, _⟩ | ⟨d, hd⟩
  · rw [hn] at hd
    cases hd
  · obtain ⟨n', hn', hshape⟩ := ht.tree.rep.level hd
    rw [hn] at hn'
    cases hn'
    have hd0 : d = 0 := by simpa [hleaf] using hshape.leaf
    rw [hd0, LTree.level_zero] at hd
    exact List.mem_map.mp hd

/-- An iterator that stands on a slot of a leaf block is between the entries. -/
theorem Stands.exists_at (hs : Stands t it s) (ht : Holds c S t m h x) :
    ∃ pre post, At t h x it pre s post := by
  obtain ⟨i, n, a, b, rfl, hp, hn, hleaf, hkv⟩ := hs.slot
  obtain ⟨lf, hlf, rfl⟩ := ht.exists_leaf hp hn hleaf
  obtain ⟨L₁, L₂, hL⟩ := List.append_of_mem hlf
  obtain ⟨n', hn', _, hkv'⟩ := ht.tree.rep.leaf lf hlf
  rw [hn] at hn'
  cases hn'
  exact ⟨_, _, L₁, lf, L₂, a, b, hL, hkv'.symm.trans hkv, rfl, hp, rfl, rfl⟩

/-- Reading elsewhere leaves an iterator on its entry. -/
theorem Stands.reads (hs : Stands t it s) (hr : Reads t t' m) : Stands t' it s := by
  obtain ⟨i, n, a, b, hit, hp, hn, hleaf, hkv⟩ := hs.slot
  exact ⟨i, n, a, b, hit, hr.later.pooled hp, by rw [hr.page, hn], hleaf, hkv⟩

/-- An iterator stands on one entry. -/
theorem Stands.unique {s' : Slot K} (hs : Stands t it s) (hs' : Stands t it s') : s' = s := by
  obtain ⟨i, n, a, b, rfl, _, hn, _, hkv⟩ := hs.slot
  obtain ⟨i', n', a', b', hit, _, hn', _, hkv'⟩ := hs'.slot
  obtain ⟨hi, hindex⟩ := Iterator.mk.inj hit
  obtain rfl := Option.some.inj hi
  have hlen : a.length = a'.length := by omega
  rw [hn] at hn'
  cases hn'
  rw [hkv] at hkv'
  have := List.append_inj hkv' hlen
  exact (List.cons.inj this.2).1.symm

/-- Clearing flags leaves an iterator on the same key and value. -/
theorem Stands.upToFlags (hs : Stands t it s)
    (hp : ∀ i, t.buffer.Pooled i → t'.buffer.Pooled i)
    (hv : ∀ i, UpToFlags (t.page i) (t'.page i)) :
    ∃ s', Slot.entry s' = Slot.entry s ∧ Stands t' it s' := by
  obtain ⟨i, n, a, b, hit, hpi, hn, hleaf, hkv⟩ := hs.slot
  obtain ⟨kv, hkv', hent⟩ := (hn ▸ hv i).exists_node
  rw [hkv, List.map_append, List.map_cons] at hent
  obtain ⟨a', sb', hkv'', ha', hsb'⟩ := List.map_eq_append_iff.mp hent
  obtain ⟨s', b', rfl, hs', _⟩ := List.map_eq_cons_iff.mp hsb'
  have hlen : a'.length = a.length := by
    have := congrArg List.length ha'
    simpa using this
  exact ⟨s', hs', i, _, a', b', by rw [hit, hlen], hp i hpi, hkv', hleaf, hkv''⟩

private theorem order_of_at (ht : Holds c S t m h x) (hcmp : Comparison c.cmp S)
    (ha : At t h x it pre s post) :
    (∀ e ∈ pre, c.cmp e.key s.key < 0) ∧ (∀ e ∈ post, 0 < c.cmp e.key s.key) ∧
      c.cmp s.key s.key = 0 := by
  have hsorted := ht.tree.sorted
  have hkeys := ht.tree.keys
  rw [ha.entries] at hsorted hkeys
  obtain ⟨hpre, hpost⟩ := Sorted.around hsorted hcmp hkeys
  exact ⟨hpre, hpost, hcmp.self (hkeys s (by simp))⟩

/-- `next` agrees with the reference search for the first live key after the current one. -/
theorem Stands.wp_next {E : Fault → Prop} (hs : Stands t it s) (ht : Holds c S t m h x)
    (hcmp : Comparison c.cmp S) :
    wp E it.next (fun r t' ↦ Reads t t' m ∧
      Found t' r (IterFlag.AFTER_KEY.search c.cmp s.key t.live)) t := by
  obtain ⟨pre, post, ha⟩ := hs.exists_at ht
  obtain ⟨hpre, hpost, hself⟩ := order_of_at ht hcmp ha
  rw [ht.live_eq, ha.entries]
  refine ha.wp_next ht ?_ ?_
  · intro t' it' pre' e' hr hdead _
    refine ⟨hr, ?_⟩
    rw [IterFlag.search_eq_none]
    · rfl
    · intro e he hlive hq
      change 0 < c.cmp e.key s.key at hq
      rcases List.mem_append.mp he with he | he
      · have := hpre e he
        omega
      · rcases List.mem_cons.mp he with rfl | he
        · omega
        · simp [hdead e he] at hlive
  · intro t' it' dead f post' hr heq hdead hlive ha'
    have hland : Landing c.cmp s.key .AFTER_KEY (pre ++ s :: dead) f post' := by
      refine ⟨hlive, hpost f (by simp [heq]), fun e he helive hq ↦ ?_⟩
      change 0 < c.cmp e.key s.key at hq
      rcases List.mem_append.mp he with he | he
      · have := hpre e he
        omega
      · rcases List.mem_cons.mp he with rfl | he
        · omega
        · simp [hdead e he] at helive
    have hsearch := IterFlag.search_of_landing hland
    refine ⟨hr, ?_⟩
    rw [heq]
    simp only [List.append_assoc, List.cons_append] at hsearch
    rw [hsearch]
    exact ⟨rfl, ha'.stands (ht.reads hr)⟩

/-- `prev` agrees with the reference search for the last live key before the current one. -/
theorem Stands.wp_prev {E : Fault → Prop} (hs : Stands t it s) (ht : Holds c S t m h x)
    (hcmp : Comparison c.cmp S) :
    wp E it.prev (fun r t' ↦ Reads t t' m ∧
      Found t' r (IterFlag.BEFROE_KEY.search c.cmp s.key t.live)) t := by
  obtain ⟨pre, post, ha⟩ := hs.exists_at ht
  obtain ⟨hpre, hpost, hself⟩ := order_of_at ht hcmp ha
  rw [ht.live_eq, ha.entries]
  refine ha.wp_prev ht ?_ ?_
  · intro t' it' e' post' hr hdead _
    refine ⟨hr, ?_⟩
    rw [IterFlag.search_eq_none]
    · rfl
    · intro e he hlive hq
      change c.cmp e.key s.key < 0 at hq
      rcases List.mem_append.mp he with he | he
      · simp [hdead e he] at hlive
      · rcases List.mem_cons.mp he with rfl | he
        · omega
        · have := hpost e he
          omega
  · intro t' it' pre' f dead hr heq hdead hlive ha'
    have hland : Landing c.cmp s.key .BEFROE_KEY pre' f (dead ++ s :: post) := by
      refine ⟨hlive, hpre f (by simp [heq]), fun e he helive hq ↦ ?_⟩
      change c.cmp e.key s.key < 0 at hq
      rcases List.mem_append.mp he with he | he
      · simp [hdead e he] at helive
      · rcases List.mem_cons.mp he with rfl | he
        · omega
        · have := hpost e he
          omega
    have hsearch := IterFlag.search_of_landing hland
    refine ⟨hr, ?_⟩
    rw [heq]
    simp only [List.append_assoc, List.cons_append]
    rw [hsearch]
    exact ⟨rfl, ha'.stands (ht.reads hr)⟩

/-- `locate` agrees with the reference search. -/
theorem BTree.Holds.wp_locate {E : Fault → Prop} {key : K} {flag : IterFlag}
    (ht : Holds c S t m h x) (hprobe : Probe c.cmp Slot.key key t.slots) :
    wp E (Iterator.locate c key flag) (fun r t' ↦ Reads t t' m ∧
      Found t' r (flag.search c.cmp key t.live)) t := by
  rw [ht.slots_eq] at hprobe
  rw [ht.live_eq]
  refine BTree.wp_locate ht hprobe ?_ ?_
  · intro t' it A f B hr hl ha
    refine ⟨hr, ?_⟩
    rw [ha.entries, IterFlag.search_of_landing hl]
    exact ⟨rfl, ha.stands (ht.reads hr)⟩
  · intro t' it hr hnone _ _
    refine ⟨hr, ?_⟩
    rw [IterFlag.search_eq_none hnone]
    rfl

private theorem filter_live_nil {es : List (Slot K)} (h : ∀ e ∈ es, e.isRemoved = true) :
    es.filter (fun s ↦ !s.isRemoved) = [] := by
  rw [List.filter_eq_nil_iff]
  intro e he
  simp [h e he]

/-- `first` lands on the first live entry. -/
theorem BTree.Holds.wp_first {E : Fault → Prop} (ht : Holds c S t m h x) :
    wp E (it.first) (fun r t' ↦ Reads t t' m ∧ Found t' r t.live.head?) t := by
  rw [ht.live_eq]
  refine BTree.wp_first ht ?_ ?_
  · intro t' it' hr hdead _ _
    refine ⟨hr, ?_⟩
    rw [filter_live_nil hdead]
    rfl
  · intro t' it' dead f post hr heq hdead hlive ha
    refine ⟨hr, ?_⟩
    rw [heq, List.filter_append, filter_live_nil hdead, List.nil_append,
      List.filter_cons_of_pos (by simp [hlive])]
    exact ⟨rfl, ha.stands (ht.reads hr)⟩

/-- `last` lands on the last live entry. -/
theorem BTree.Holds.wp_last {E : Fault → Prop} (ht : Holds c S t m h x) :
    wp E (it.last) (fun r t' ↦ Reads t t' m ∧ Found t' r t.live.getLast?) t := by
  rw [ht.live_eq]
  refine BTree.wp_last ht ?_ ?_
  · intro t' it' hr hdead _ _
    refine ⟨hr, ?_⟩
    rw [filter_live_nil hdead]
    rfl
  · intro t' it' pre f dead hr heq hdead hlive ha
    refine ⟨hr, ?_⟩
    rw [heq, List.filter_append, List.filter_cons_of_pos (by simp [hlive]),
      filter_live_nil hdead, List.getLast?_append_cons]
    exact ⟨rfl, ha.stands (ht.reads hr)⟩

/-- `getKey` reads the key under the iterator. -/
theorem Stands.wp_getKey {E : Fault → Prop} {Q : K → BTree K → Prop} (hs : Stands t it s)
    (ht : Holds c S t m h x) : wp E it.getKey Q t ↔ Q s.key t := by
  obtain ⟨pre, post, ha⟩ := hs.exists_at ht
  exact ha.wp_getKey ht

/-- `getValue` reads the value under the iterator. -/
theorem Stands.wp_getValue {E : Fault → Prop} (hs : Stands t it s) (ht : Holds c S t m h x) :
    wp E (it.getValue c) (fun p t' ↦ Reads t t' m ∧ p = valueOf c t.page s.value) t := by
  obtain ⟨pre, post, ha⟩ := hs.exists_at ht
  have hrec := ht.tree.values s (by rw [ha.entries]; simp)
  obtain ⟨i, n, a, b, rfl, hp, hn, _, hkv, hidx⟩ := ha.leaf ht
  unfold Iterator.getValue valueOf
  simp only [wp_bind, wp_readNode hp hn, hidx, NodeBlock.getValue_append hkv, wp_liftM]
  cases hc : c.isConstValueSize with
  | true =>
    simp only [if_true, wp_pure]
    exact ⟨.refl ht.heap, trivial⟩
  | false =>
    obtain ⟨hlt, d, _, hd, _⟩ := hrec hc
    simp only [Bool.false_eq_true, if_false, BTree.getValue, wp_bind, wp_readMeta ht.heap,
      if_pos hlt]
    refine wp_getBlock ht.heap hlt fun t₁ hf ↦ ?_
    have hd₁ : t₁.page (Location.ofBytes s.value).index = .data d := by rw [hf.page, hd]
    simp only [wp_bind, wp_readData hf.pooled hd₁, wp_pure, hd]
    exact ⟨hf.reads, trivial⟩

/-- `remove` clears the flag of the entry under the iterator and nothing else. -/
theorem Stands.wp_remove {E : Fault → Prop} {Q : Unit → BTree K → Prop} (hs : Stands t it s)
    (ht : Holds c S t m h x)
    (hQ : ∀ t' x' i pre post, it.cur = some i → Flagged t t' m i → Holds c S t' m h x' →
      t.slots = pre ++ s :: post → t'.slots = pre ++ { s with flag := 0 } :: post → Q () t') :
    wp E it.remove Q t := by
  obtain ⟨pre, post, ha⟩ := hs.exists_at ht
  refine ha.wp_remove ht fun t' i hi hf ha' ↦ ?_
  have ht' := ht.flagged hf
  refine hQ t' _ i pre post hi hf ht' ?_ ?_
  · rw [ht.slots_eq, ha.entries]
  · rw [ht'.slots_eq, ha'.entries]

end Moves

end ExampleEngine.Index
