import ExampleEngine.Index.Traversal

/-!
# The operations on live entries

Library `Index`. What the operations of `src/lib/btree.cpp:156–312,588–619` do to the live
entries and their values, for callers that see neither blocks nor removed entries.
-/

namespace ExampleEngine.Index

open ExampleEngine.Base ExampleEngine.Storage

variable {K : Type} {c : Config K} {S : K → Prop}

/-- A recorded value has an address. -/
theorem Recorded.valueOf_ne_none {v : Nat → Page K} {n : Nat} {w : List UInt8}
    (h : Recorded c v n w) : valueOf c v w ≠ none := by
  unfold valueOf
  cases hc : c.isConstValueSize with
  | true => simp
  | false =>
    obtain ⟨_, d, o, hd, _, hget, _⟩ := h hc
    simp [hd, hget]

/-- Recorded values are read back from blocks that keep the records. -/
theorem KeepsData.valueOf_eq {v v' : Nat → Page K} {n : Nat} {w : List UInt8}
    (h : KeepsData v v' n) (hr : Recorded c v n w) : valueOf c v' w = valueOf c v w := by
  unfold valueOf
  cases hc : c.isConstValueSize with
  | true => rfl
  | false =>
    obtain ⟨hlt, d, o, hd, hw, hget, _⟩ := hr hc
    obtain ⟨d', hd', hext, _⟩ := h _ d hlt hd hw
    have hfree := DataBlock.free_le_of_get hw hget
    simp only [Bool.false_eq_true, if_false, hd, hd', hget, hext.get hget, Option.map_some,
      Option.some.injEq]
    funext i
    exact hext.bytes _ (by omega)

namespace BTree

variable {t t' t'' : BTree K} {it : Iterator} {s : Slot K} {key : K} {value : List UInt8}

/-- The counter of items in the metadata. -/
def items (t : BTree K) : Nat :=
  match t.page 0 with
  | .metadata m => m.countOfItem
  | _ => 0

/-- The counter of a tree that holds. -/
theorem Holds.items_eq {m : BTreeMetadata} {h : Nat} {x : LTree (Slot K) h}
    (ht : Holds c S t m h x) : t.items = m.countOfItem := by
  unfold items
  rw [ht.heap.metadata]

/-- Where data blocks keep their records, live entries keep their values. -/
theorem Holds.valueOf_eq {m : BTreeMetadata} {h : Nat} {x : LTree (Slot K) h}
    (ht : Holds c S t m h x) (hk : KeepsData t.page t'.page m.countOfBlock) :
    ∀ e ∈ t.live, valueOf c t'.page e.value = valueOf c t.page e.value := by
  intro e he
  rw [ht.live_eq] at he
  exact hk.valueOf_eq (ht.tree.values e (List.mem_filter.mp he).1)

/-- Where the search tree stays as well, so do the contents. -/
theorem Holds.contents_eq {m m' : BTreeMetadata} {h : Nat} {x : LTree (Slot K) h}
    (ht : Holds c S t m h x) (ht' : Holds c S t' m' h x)
    (hk : KeepsData t.page t'.page m.countOfBlock) : t'.contents c = t.contents c := by
  have hlive : t'.live = t.live := by rw [ht.live_eq, ht'.live_eq]
  unfold contents
  rw [hlive]
  apply List.map_congr_left
  intro e he
  rw [ht.valueOf_eq hk e he]

/-- The tree is in order, whatever its blocks. -/
structure Valid (c : Config K) (S : K → Prop) (t : BTree K) : Prop where
  holds : ∃ m h, ∃ x : LTree (Slot K) h, Holds c S t m h x

/-- The blocks are those of before, and maybe more of them are in the pool. -/
structure Same (t t' : BTree K) : Prop where
  page : t'.page = t.page
  root : t'.root = t.root
  pooled : ∀ i, t.buffer.Pooled i → t'.buffer.Pooled i

namespace Same

/-- Nothing happened. -/
theorem refl (t : BTree K) : Same t t := ⟨rfl, rfl, fun _ h ↦ h⟩

/-- Nothing happened twice. -/
theorem trans (h : Same t t') (h' : Same t' t'') : Same t t'' :=
  ⟨h'.page.trans h.page, h'.root.trans h.root, fun i hi ↦ h'.pooled i (h.pooled i hi)⟩

/-- The live entries are those of before. -/
theorem live (h : Same t t') : t'.live = t.live := live_congr h.page h.root

/-- So are the entries. -/
theorem slots (h : Same t t') : t'.slots = t.slots := slots_congr h.page h.root

/-- So is the counter. -/
theorem items (h : Same t t') : t'.items = t.items := by
  unfold BTree.items
  rw [h.page]

/-- So are the contents. -/
theorem contents (h : Same t t') : t'.contents c = t.contents c := contents_congr h.page h.root

/-- Iterators stay where they stand. -/
theorem stands (h : Same t t') (hs : Stands t it s) : Stands t' it s := by
  obtain ⟨i, n, a, b, hit, hp, hn, hleaf, hkv⟩ := hs.slot
  exact ⟨i, n, a, b, hit, h.pooled i hp, by rw [h.page, hn], hleaf, hkv⟩

end Same

private theorem Reads.same {m : BTreeMetadata} (h : Reads t t' m) : Same t t' :=
  ⟨h.page, h.later.root, h.later.buffer.pooled⟩

namespace Valid

/-- The live entries are sorted. -/
theorem sorted (hv : Valid c S t) : Sorted c.cmp Slot.key t.live := by
  obtain ⟨m, h, x, ht⟩ := hv.holds
  exact ht.live_sorted

/-- The live keys are keys that the comparator is for. -/
theorem keys (hv : Valid c S t) : ∀ e ∈ t.live, S e.key := by
  obtain ⟨m, h, x, ht⟩ := hv.holds
  intro e he
  rw [ht.live_eq] at he
  exact ht.tree.keys e (List.mem_filter.mp he).1

/-- The values of live entries have addresses. -/
theorem valueOf_ne_none (hv : Valid c S t) : ∀ e ∈ t.live, valueOf c t.page e.value ≠ none := by
  obtain ⟨m, h, x, ht⟩ := hv.holds
  intro e he
  rw [ht.live_eq] at he
  exact (ht.tree.values e (List.mem_filter.mp he).1).valueOf_ne_none

/-- The entries are sorted and keyed, removed ones included. -/
theorem slots (hv : Valid c S t) :
    Sorted c.cmp Slot.key t.slots ∧ ∀ e ∈ t.slots, S e.key := by
  obtain ⟨m, h, x, ht⟩ := hv.holds
  rw [ht.slots_eq]
  exact ⟨ht.tree.sorted, ht.tree.keys⟩

/-- Live entries are entries. -/
theorem mem_slots {e : Slot K} (he : e ∈ t.live) : e ∈ t.slots :=
  (List.mem_filter.mp he).1

/-- An entry that is stood on is one of the tree. -/
theorem mem_slots_of_stands (hv : Valid c S t) (hs : Stands t it s) : s ∈ t.slots := by
  obtain ⟨m, h, x, ht⟩ := hv.holds
  obtain ⟨pre, post, ha⟩ := hs.exists_at ht
  rw [ht.slots_eq, ha.entries]
  simp

end Valid

/-- The leaf blocks of a tree, in order. -/
structure Leafy (c : Config K) (t : BTree K) (ls : List (Numbered (Slot K))) : Prop where
  page : ∀ lf ∈ ls, ∃ n, t.page lf.id = .node n ∧ n.leaf = true ∧ n.kv = lf.items
  complete : ∀ i n, t.buffer.Pooled i → t.page i = .node n → n.leaf = true →
    ∃ lf ∈ ls, lf.id = i
  room : ∀ lf ∈ ls, lf.items.length < c.capacity 0
  slots : t.slots = ls.flatMap Numbered.items

/-- The leaves of a tree in order. -/
theorem Holds.leafy {m : BTreeMetadata} {h : Nat} {x : LTree (Slot K) h}
    (ht : Holds c S t m h x) : Leafy c t (LTree.leaves h x) where
  page lf hlf := by
    obtain ⟨n, hn, hshape, hkv⟩ := ht.tree.rep.leaf lf hlf
    exact ⟨n, hn, by simp [hshape.leaf], hkv⟩
  complete i n hp hn hleaf := ht.exists_leaf hp hn hleaf
  room lf hlf := by
    cases h with
    | zero =>
      have heq : lf = ⟨x.id, x.items⟩ := List.mem_singleton.mp hlf
      rw [heq]
      exact ht.tree.room
    | succ h =>
      exact (LTree.leaf_bounds x ht.tree.bounded (ht.tree.nonempty (by omega)) ht.tree.room lf
        hlf).2
  slots := by rw [ht.slots_eq, LTree.entries_eq_leaves]

/-- What a successful `put` does to the slots: one of them is new or revived, in a leaf that is
split when it is full. -/
structure Upserts (c : Config K) (key : K) (w : List UInt8) (t t' : BTree K) : Prop where
  slots : t'.slots = upsert c.cmp Slot.key key ⟨key, 1, w⟩ (reviveWith w) t.slots
  leaves : ∃ ls ls', Leafy c t ls ∧ Leafy c t' ls' ∧
    LTree.LeafUpdate (c.capacity 0) c.cmp Slot.key key ⟨key, 1, w⟩ (reviveWith w) ls ls'
  pooled : ∀ i, t.buffer.Pooled i → t'.buffer.Pooled i

/-- The slots that stay on a leaf when a key is put in it: all of them, or those of the half that
stays. -/
def keptSlots (c : Config K) (key : K) (w : List UInt8) (items : List (Slot K)) :
    List (Slot K) :=
  let up := upsert c.cmp Slot.key key ⟨key, 1, w⟩ (reviveWith w) items
  if up.length < c.capacity 0 then up else up.take ((c.capacity 0 + 1) / 2)

/-- The leaf that a key is put in: its slots come after those below the key, and other slots come
after them only where one of them is not below it. -/
structure PutIn (c : Config K) (key : K) (w : List UInt8) (t t' : BTree K) (id : Nat)
    (items : List (Slot K)) : Prop where
  room : items.length < c.capacity 0
  slots : ∃ l r, t.slots = l ++ (items ++ r) ∧ (∀ e ∈ l, c.cmp e.key key < 0) ∧
    (r = [] ∨ ∃ e ∈ items, 0 ≤ c.cmp e.key key)
  pooled : t'.buffer.Pooled id
  page : ∃ n, t'.page id = .node n ∧ n.leaf = true ∧ n.kv = keptSlots c key w items

/-- Iterators on other leaves than that of the key stay where they are, and so do these leaves. -/
theorem Upserts.stands_or_putIn {w : List UInt8} (hu : Upserts c key w t t')
    (hs : Stands t it s) : ∃ i a b, it = ⟨some i, (a : List (Slot K)).length⟩ ∧
      slotsOf (t.page i) = a ++ s :: b ∧
      (Stands t' it s ∧ slotsOf (t'.page i) = a ++ s :: b ∨
        PutIn c key w t t' i (a ++ s :: b)) := by
  obtain ⟨i, n, a, b, rfl, hp, hn, hleaf, hkv⟩ := hs.slot
  refine ⟨i, a, b, rfl, by rw [hn]; exact hkv, ?_⟩
  obtain ⟨ls, ls', hls, hls', hup⟩ := hu.leaves
  obtain ⟨lf₀, hlf₀, rfl⟩ := hls.complete i n hp hn hleaf
  obtain ⟨n', hn', _, hkv'⟩ := hls.page lf₀ hlf₀
  rw [hn] at hn'
  cases hn'
  have hitems : lf₀.items = a ++ s :: b := hkv'.symm.trans hkv
  have hsame : lf₀ ∈ ls' → Stands t' ⟨some lf₀.id, a.length⟩ s ∧
      slotsOf (t'.page lf₀.id) = a ++ s :: b := by
    intro hmem
    obtain ⟨n', hn', hleaf', hkv''⟩ := hls'.page lf₀ hmem
    exact ⟨⟨_, n', a, b, rfl, hu.pooled _ hp, hn', hleaf', hkv''.trans hitems⟩,
      by rw [hn']; exact hkv''.trans hitems⟩
  obtain ⟨l, lf, r, up, rfl, hup', hbelow, hlast, hcase⟩ := hup.leaf
  rcases List.mem_append.mp hlf₀ with hl | hr
  · refine .inl (hsame ?_)
    rcases hcase with ⟨_, rfl⟩ | ⟨_, m, rfl⟩ <;> simp [hl]
  · rcases List.mem_cons.mp hr with rfl | hr
    · refine .inr ⟨hitems ▸ hls.room lf₀ hlf₀, ?_, hu.pooled _ hp, ?_⟩
      · refine ⟨l.flatMap Numbered.items, r.flatMap Numbered.items, ?_, ?_, ?_⟩
        · rw [hls.slots, List.flatMap_append, List.flatMap_cons, hitems]
        · intro e he
          obtain ⟨y, hy, hey⟩ := List.mem_flatMap.mp he
          exact hbelow y hy e hey
        · rcases hlast with rfl | h
          · exact .inl rfl
          · exact .inr (hitems ▸ h)
      · unfold keptSlots
        rw [← hitems, ← hup']
        rcases hcase with ⟨hlt, rfl⟩ | ⟨hfull, m, rfl⟩
        · rw [if_pos hlt]
          exact hls'.page ⟨lf₀.id, up⟩ (by simp)
        · rw [if_neg (by omega)]
          exact hls'.page ⟨lf₀.id, up.take _⟩ (by simp)
    · refine .inl (hsame ?_)
      rcases hcase with ⟨_, rfl⟩ | ⟨_, m, rfl⟩ <;> simp [hr]

namespace PutIn

variable {w : List UInt8} {i : Nat} {items : List (Slot K)}

/-- Where the slots that stay are. -/
theorem stands (h : PutIn c key w t t' i items) {a b : List (Slot K)}
    (hkept : keptSlots c key w items = a ++ s :: b) : Stands t' ⟨some i, a.length⟩ s := by
  obtain ⟨n, hn, hleaf, hkv⟩ := h.page
  exact ⟨i, n, a, b, rfl, h.pooled, hn, hleaf, hkv.trans hkept⟩

/-- Where the key has a slot already, the leaf has it, and it is revived in place. -/
theorem kept_of_equal (h : PutIn c key w t t' i items) (hsorted : Sorted c.cmp Slot.key t.slots)
    (hkeys : ∀ e ∈ t.slots, S e.key) (hcmp : Comparison c.cmp S) (hk : S key)
    (hex : ∃ e ∈ t.slots, c.cmp e.key key = 0) :
    (keptSlots c key w items).map Slot.key = items.map Slot.key := by
  obtain ⟨l, r, hslots, hbelow, hlast⟩ := h.slots
  rw [hslots] at hsorted hkeys hex
  obtain ⟨_, hsr, _⟩ := List.pairwise_append.mp hsorted
  obtain ⟨hslf, _, hlr⟩ := List.pairwise_append.mp hsr
  obtain ⟨e, he, hek⟩ := hex
  have hke := hkeys e he
  have hmem : e ∈ items := by
    rcases List.mem_append.mp he with he | he
    · have := hbelow e he
      omega
    · rcases List.mem_append.mp he with he | he
      · exact he
      · rcases hlast with rfl | ⟨f, hf, hfk⟩
        · cases he
        · have hkf := hkeys f (by simp [hf])
          have := hcmp.lt_of_lt_of_le hkf hke hk (hlr f hf e he) (by omega)
          omega
  have hslf : Sorted c.cmp Slot.key items := hslf
  obtain ⟨A, B, hAB, hAB'⟩ := hslf.upsert_present ⟨key, 1, w⟩ (reviveWith w) hcmp
    (fun x hx ↦ hkeys x (by simp [hx])) hk hmem hek
  have hlen : (A ++ reviveWith w e :: B).length = items.length := by
    rw [hAB]
    simp
  have hroom := h.room
  unfold keptSlots
  rw [hAB', if_pos (by omega), hAB]
  simp [reviveWith]

/-- So iterators on the leaf stay on their keys. -/
theorem stands_of_equal {a b : List (Slot K)} (h : PutIn c key w t t' i (a ++ s :: b))
    (hkept : (keptSlots c key w (a ++ s :: b)).map Slot.key = (a ++ s :: b).map Slot.key) :
    ∃ s', s'.key = s.key ∧ Stands t' ⟨some i, a.length⟩ s' := by
  rw [List.map_append, List.map_cons] at hkept
  obtain ⟨a', rest, hrest, ha', hb'⟩ := List.map_eq_append_iff.mp hkept
  obtain ⟨s', b', rfl, hs', _⟩ := List.map_eq_cons_iff.mp hb'
  have hla : a'.length = a.length := by simpa using congrArg List.length ha'
  exact ⟨s', hs', hla ▸ h.stands hrest⟩

end PutIn

/-- Where the key has a slot already, iterators stay on their keys. -/
theorem Upserts.stands {w : List UInt8} (hu : Upserts c key w t t') (hv : Valid c S t)
    (hcmp : Comparison c.cmp S) (hk : S key) (hex : ∃ e ∈ t.slots, c.cmp e.key key = 0)
    (hs : Stands t it s) : ∃ s', s'.key = s.key ∧ Stands t' it s' := by
  obtain ⟨hsorted, hkeys⟩ := hv.slots
  obtain ⟨i, a, b, rfl, _, ⟨hst, _⟩ | hput⟩ := hu.stands_or_putIn hs
  · exact ⟨s, rfl, hst⟩
  · exact hput.stands_of_equal (hput.kept_of_equal hsorted hkeys hcmp hk hex)

/-- What `put` does to live entries and their values. -/
inductive Puts (c : Config K) (key : K) (value : List UInt8) (t : BTree K) :
    Int → BTree K → Prop
  /-- The key is live. -/
  | duplicate (e : Slot K) (he : e ∈ t.live) (heq : c.cmp e.key key = 0) (t' : BTree K)
      (hs : Same t t') : Puts c key value t 0 t'
  /-- The key joins the live ones. -/
  | done (t' : BTree K) (w : List UInt8) (hj : Joins c.cmp key w t.live t'.live)
      (hw : ∃ n, Written c t'.page n value w)
      (hv : ∀ e ∈ t.live, valueOf c t'.page e.value = valueOf c t.page e.value)
      (hitems : t'.items = (t.items + 1) % 2 ^ 32) (hup : Upserts c key w t t') :
      Puts c key value t 1 t'
  /-- The value cannot be stored. -/
  | failed (t' : BTree K) (hlive : t'.live = t.live) (hc : c.isConstValueSize = false)
      (hlen : 2 ^ 31 ≤ value.length) (hne : ∀ e ∈ t.live, c.cmp e.key key ≠ 0)
      (hv : ∀ e ∈ t.live, valueOf c t'.page e.value = valueOf c t.page e.value)
      (hitems : t'.items = t.items) (hslots : t'.slots = t.slots)
      (hstands : ∀ it s, Stands t it s → Stands t' it s) : Puts c key value t (-1) t'

namespace Valid

variable {E : Fault → Prop} {flag : IterFlag}

/-- What `put` does to the blocks, seen from the live entries. -/
theorem puts_of_outcome {m : BTreeMetadata} {h : Nat} {x : LTree (Slot K) h} {r : Int}
    (ht : Holds c S t m h x) (hcmp : Comparison c.cmp S) (hk : S key)
    (ho : PutOutcome c S key value t m h x r t') : Valid c S t' ∧ Puts c key value t r t' := by
  cases ho with
  | duplicate e he heq hlive t' ht' hl hp =>
    refine ⟨⟨_, _, _, ht'⟩, .duplicate e ?_ heq t' ⟨hp, ?_, hl.pooled⟩⟩
    · rw [ht.live_eq]
      exact List.mem_filter.mpr ⟨he, by simp [hlive]⟩
    · exact ht'.root.trans ht.root.symm
  | done hdead t' m' h' x' w ht' hl hle hkeep hitems hent hleaves hw hst hdata =>
    have hj := joins_upsert (w := w) hcmp hk ht.tree.keys ht.tree.sorted hdead
    rw [← hent, ← ht.live_eq, ← ht'.live_eq] at hj
    have hcount : t'.items = (t.items + 1) % 2 ^ 32 := by rw [ht'.items_eq, hitems, ht.items_eq]
    exact ⟨⟨_, _, _, ht'⟩, .done t' w hj ⟨_, hw⟩ (ht.valueOf_eq hkeep) hcount
      ⟨by rw [ht'.slots_eq, ht.slots_eq, hent], ⟨_, _, ht.leafy, ht'.leafy, hleaves⟩, hl.pooled⟩⟩
  | failed hdead t' m' ht' hl hle hkeep hitems hnode hc hlen hdata =>
    have hcount : t'.items = t.items := by rw [ht'.items_eq, hitems, ht.items_eq]
    refine ⟨⟨_, _, _, ht'⟩, .failed t' ?_ hc hlen ?_ (ht.valueOf_eq hkeep) hcount ?_ ?_⟩
    · rw [ht.live_eq, ht'.live_eq]
    · intro e he hek
      rw [ht.live_eq] at he
      have := hdead e (List.mem_filter.mp he).1 hek
      simp [this] at he
    · rw [ht.slots_eq, ht'.slots_eq]
    · intro it s hs
      obtain ⟨i, n, a, b, hit, hp, hn, hleaf, hkv⟩ := hs.slot
      exact ⟨i, n, a, b, hit, hl.pooled i hp, hnode i n (ht.heap.pooled i hp) hn, hleaf, hkv⟩

/-- `put` adds a key that is not live. -/
theorem wp_put {Q : Int → BTree K → Prop} (hv : Valid c S t) (hwide : c.Wide)
    (hcmp : Comparison c.cmp S) (hk : S key)
    (hQ : ∀ r t', Valid c S t' → Puts c key value t r t' → Q r t') :
    wp Beyond (put c key value) Q t := by
  obtain ⟨m, h, x, ht⟩ := hv.holds
  refine BTree.wp_put hwide hcmp hk ht (covers_beyond _) fun r t' ho ↦ ?_
  obtain ⟨hv', hputs⟩ := puts_of_outcome ht hcmp hk ho
  exact hQ r t' hv' hputs

/-- `locate` agrees with the reference search. -/
theorem wp_locate (hv : Valid c S t) (hprobe : Probe c.cmp Slot.key key t.slots) :
    wp E (Iterator.locate c key flag) (fun r t' ↦ Valid c S t' ∧ Same t t' ∧
      Found t' r (flag.search c.cmp key t.live)) t := by
  obtain ⟨m, h, x, ht⟩ := hv.holds
  exact wp_mono (ht.wp_locate hprobe) fun r t' hr ↦
    ⟨⟨m, h, x, ht.reads hr.1⟩, hr.1.same, hr.2⟩

/-- `first` lands on the first live entry. -/
theorem wp_first (hv : Valid c S t) :
    wp E it.first (fun r t' ↦ Valid c S t' ∧ Same t t' ∧ Found t' r t.live.head?) t := by
  obtain ⟨m, h, x, ht⟩ := hv.holds
  exact wp_mono ht.wp_first fun r t' hr ↦ ⟨⟨m, h, x, ht.reads hr.1⟩, hr.1.same, hr.2⟩

/-- `last` lands on the last live entry. -/
theorem wp_last (hv : Valid c S t) :
    wp E it.last (fun r t' ↦ Valid c S t' ∧ Same t t' ∧ Found t' r t.live.getLast?) t := by
  obtain ⟨m, h, x, ht⟩ := hv.holds
  exact wp_mono ht.wp_last fun r t' hr ↦ ⟨⟨m, h, x, ht.reads hr.1⟩, hr.1.same, hr.2⟩

/-- `next` agrees with the search for the first live key after the current one. -/
theorem wp_next (hv : Valid c S t) (hcmp : Comparison c.cmp S) (hs : Stands t it s) :
    wp E it.next (fun r t' ↦ Valid c S t' ∧ Same t t' ∧
      Found t' r (IterFlag.AFTER_KEY.search c.cmp s.key t.live)) t := by
  obtain ⟨m, h, x, ht⟩ := hv.holds
  exact wp_mono (hs.wp_next ht hcmp) fun r t' hr ↦
    ⟨⟨m, h, x, ht.reads hr.1⟩, hr.1.same, hr.2⟩

/-- `prev` agrees with the search for the last live key before the current one. -/
theorem wp_prev (hv : Valid c S t) (hcmp : Comparison c.cmp S) (hs : Stands t it s) :
    wp E it.prev (fun r t' ↦ Valid c S t' ∧ Same t t' ∧
      Found t' r (IterFlag.BEFROE_KEY.search c.cmp s.key t.live)) t := by
  obtain ⟨m, h, x, ht⟩ := hv.holds
  exact wp_mono (hs.wp_prev ht hcmp) fun r t' hr ↦
    ⟨⟨m, h, x, ht.reads hr.1⟩, hr.1.same, hr.2⟩

/-- A start lands on the first live entry in its direction. -/
theorem wp_start {back : Bool} (hv : Valid c S t) :
    wp E (it.start back) (fun r t' ↦ Valid c S t' ∧ Same t t' ∧
      Found t' r (t.liveFrom back).head?) t := by
  cases back with
  | true =>
    unfold liveFrom
    rw [if_pos rfl, List.head?_reverse]
    exact hv.wp_last
  | false => exact hv.wp_first

/-- A move on agrees with the search in its direction. -/
theorem wp_advance {back : Bool} (hv : Valid c S t) (hcmp : Comparison c.cmp S)
    (hs : Stands t it s) :
    wp E (it.advance back) (fun r t' ↦ Valid c S t' ∧ Same t t' ∧
      Found t' r ((if back then IterFlag.BEFROE_KEY else .AFTER_KEY).search c.cmp s.key t.live))
      t := by
  cases back with
  | true => exact hv.wp_prev hcmp hs
  | false => exact hv.wp_next hcmp hs

/-- `getKey` reads the key under the iterator. -/
theorem wp_getKey {Q : K → BTree K → Prop} (hv : Valid c S t) (hs : Stands t it s) :
    wp E it.getKey Q t ↔ Q s.key t := by
  obtain ⟨m, h, x, ht⟩ := hv.holds
  exact hs.wp_getKey ht

/-- `getValue` reads the value under the iterator. -/
theorem wp_getValue (hv : Valid c S t) (hs : Stands t it s) :
    wp E (it.getValue c) (fun p t' ↦ Valid c S t' ∧ Same t t' ∧
      p = valueOf c t.page s.value) t := by
  obtain ⟨m, h, x, ht⟩ := hv.holds
  exact wp_mono (hs.wp_getValue ht) fun r t' hr ↦
    ⟨⟨m, h, x, ht.reads hr.1⟩, hr.1.same, hr.2⟩

/-- `remove` takes the entry under the iterator out of the live ones; other iterators stay on
their keys. -/
theorem wp_remove {Q : Unit → BTree K → Prop} (hv : Valid c S t) (hcmp : Comparison c.cmp S)
    (hs : Stands t it s)
    (hQ : ∀ t', Valid c S t' → t'.live = (t.live.filter fun a ↦ c.cmp a.key s.key ≠ 0) →
      (∀ w, valueOf c t'.page w = valueOf c t.page w) →
      (∀ it₂ s₂, Stands t it₂ s₂ → ∃ s', Slot.entry s' = Slot.entry s₂ ∧ Stands t' it₂ s') →
      t'.items = t.items → t'.slots.map Slot.entry = t.slots.map Slot.entry → Q () t') :
    wp E it.remove Q t := by
  obtain ⟨m, h, x, ht⟩ := hv.holds
  refine hs.wp_remove ht fun t' x' i pre post _ hf ht' hsl hsl' ↦ ?_
  refine hQ t' ⟨m, h, x', ht'⟩ (ht.live_removed hcmp hsl hsl') (fun w ↦ ?_) (fun it₂ s₂ hs₂ ↦
    hs₂.upToFlags (fun j ↦ (hf.pooled j).mpr) hf.page) (by rw [ht'.items_eq, ht.items_eq]) ?_
  · unfold valueOf
    split
    · rfl
    have hp := hf.page (Location.ofBytes w).index
    -- a data block is the same up to flags only when it is the same
    generalize t.page (Location.ofBytes w).index = p at hp ⊢
    generalize t'.page (Location.ofBytes w).index = q at hp ⊢
    cases hp <;> rfl
  · rw [hsl, hsl']
    simp only [List.map_append, List.map_cons]
    rfl

/-- There is more fuel than live entries. -/
theorem wp_fuel (hv : Valid c S t) :
    wp E Iterator.fuel (fun f t' ↦ t' = t ∧ t.live.length < f) t := by
  obtain ⟨m, h, x, ht⟩ := hv.holds
  unfold Iterator.fuel
  simp only [wp_bind, wp_readMeta ht.heap, wp_pure, true_and]
  have hle := ht.length_entries_lt
  have hlive : t.live.length ≤ (LTree.entries h x).length := by
    rw [ht.live_eq]
    exact List.length_filter_le _ _
  omega

/-- `countOfItems` reads the counter. -/
theorem wp_countOfItems (hv : Valid c S t) :
    wp E countOfItems (fun r t' ↦ t' = t ∧ r = t.items) t := by
  obtain ⟨m, h, x, ht⟩ := hv.holds
  unfold countOfItems
  simp only [wp_bind, wp_readMeta ht.heap, wp_pure, true_and]
  exact ht.items_eq.symm

end Valid

/-- A file just created and opened holds no entries. -/
theorem wp_created {platform : Platform} {E : Fault → Prop} (file : Nat → Page K) (hwide : c.Wide)
    (hp : platform.Reliable) :
    wp E openTree (fun r t ↦ r = 1 ∧ Valid c S t ∧ t.slots = [] ∧ t.items = 0)
      (unopened platform (create c file)) := by
  refine wp_openTree hp (image_create (S := S) hwide file) fun t ht _ _ _ _ ↦ ?_
  refine ⟨rfl, ⟨_, _, _, ht⟩, ?_, ht.items_eq⟩
  rw [ht.slots_eq]
  rfl

end BTree

end ExampleEngine.Index
