import ExampleEngine.Index.Session

/-!
# Safety of cursors

Library `Index`. Sequences of `locate`, `first`, `last`, `next` and `prev` of
`src/lib/btree.cpp:156–274` on one iterator, calls after a failed one included. A failed
`locate` may leave the index behind the last slot, from where `next` reads a slot that is
none; on an empty tree `first` and `last` leave it where it was, from where `prev` does.
-/

namespace ExampleEngine.Index

open ExampleEngine.Base ExampleEngine.Storage BTree

/-- A call that moves an iterator. -/
inductive Move (K : Type) where
  | locate (key : K) (flag : IterFlag)
  | first
  | last
  | next
  | prev

namespace Move

variable {K : Type}

/-- Move an iterator. -/
def perform (c : Config K) (it : Iterator) : Move K → TreeM K (Int × Iterator)
  | .locate key flag => Iterator.locate c key flag
  | .first => it.first
  | .last => it.last
  | .next => it.next
  | .prev => it.prev

/-- `next` is called with an index below the number of slots of a leaf, `prev` with one that
is not negative; the other calls may come at any time. -/
def Guarded (t : BTree K) (it : Iterator) : Move K → Prop
  | .next => ∃ i n, it.cur = some i ∧ t.page i = .node n ∧ it.index < n.count
  | .prev => 0 ≤ it.index
  | _ => True

end Move

/-- An iterator that moves over a tree, from a new one on. -/
inductive Moving {K : Type} (c : Config K) (t₀ : BTree K) : BTree K → Iterator → Prop
  | start : Moving c t₀ t₀ ⟨none, -1⟩
  | step (t t' : BTree K) (it : Iterator) (r : Int × Iterator) (move : Move K)
      (hm : Moving c t₀ t it) (h : (move.perform c it).run t = .ok (r, t')) : Moving c t₀ t' r.2

variable {K : Type} {c : Config K} {S : K → Prop} {t t' t₀ : BTree K} {m : BTreeMetadata} {h : Nat}
  {x : LTree (Slot K) h} {it : Iterator}

/-- Where an iterator is between two calls: new, or parked. -/
structure Position (t : BTree K) (h : Nat) (x : LTree (Slot K) h) (it : Iterator) : Prop where
  place : it = ⟨none, -1⟩ ∨ Parked t h x it
  index : LTree.entries h x = [] → it.index = -1 ∨ it.index = 0

/-- A call went well: it returned 0 or 1, and with 1 the iterator stands on a live slot. -/
def Lands (t₀ : BTree K) (r : Int × Iterator) (t' : BTree K) : Prop :=
  (r.1 = 0 ∨ r.1 = 1) ∧ (r.1 = 1 → ∃ e ∈ t₀.live, Stands t' r.2 e)

/-- What every call of a guarded sequence does. -/
structure Moved (t t' : BTree K) (m : BTreeMetadata) (h : Nat) (x : LTree (Slot K) h)
    (r : Int × Iterator) : Prop where
  reads : Reads t t' m
  position : Position t' h x r.2
  lands : Lands t r t'

private theorem entries_ne_nil {pre post : List (Slot K)} {e : Slot K}
    (ha : At t h x it pre e post) : LTree.entries h x ≠ [] := by
  rw [ha.entries]
  simp

private theorem Moved.on {pre post : List (Slot K)} {e : Slot K} (ht : Holds c S t m h x)
    (hr : Reads t t' m) (ha : At t' h x it pre e post) (hlive : e.isRemoved = false) :
    Moved t t' m h x (1, it) where
  reads := hr
  position := ⟨.inr (.on it pre e post ha), fun h0 ↦ absurd h0 (entries_ne_nil ha)⟩
  lands := by
    refine ⟨.inr rfl, fun _ ↦ ⟨e, ?_, ha.stands (ht.reads hr)⟩⟩
    rw [ht.live_eq, ha.entries]
    simp [hlive]

private theorem Moved.off (hr : Reads t t' m) (hp : Position t' h x it) :
    Moved t t' m h x (0, it) :=
  ⟨hr, hp, .inl rfl, fun h1 ↦ nomatch h1⟩

private theorem Position.of_at {pre post : List (Slot K)} {e : Slot K}
    (ha : At t h x it pre e post) : Position t h x it :=
  ⟨.inr (.on it pre e post ha), fun h0 ↦ absurd h0 (entries_ne_nil ha)⟩

/-- The only leaf has no neighbours. -/
private theorem BTree.Holds.lone (ht : Holds c S t m h x) {lf : Numbered (Slot K)}
    (hL : LTree.leaves h x = [lf]) : ∃ n, t.page lf.id = .node n ∧ n.kv = lf.items ∧
      n.header.next = 0 ∧ n.header.last = 0 := by
  obtain ⟨n, hn, _, hkv⟩ := ht.tree.rep.leaf lf (by rw [hL]; simp)
  have hchain : Chain (nextOf t.page) (lastOf t.page) 0 ([] ++ lf.id :: []) := by
    have := ht.chain
    rwa [hL] at this
  obtain ⟨hlast, hnext⟩ := hchain.links
  rw [lastOf, hn] at hlast
  rw [nextOf, hn] at hnext
  exact ⟨n, hn, hkv, hnext, hlast⟩

section Calls

variable {E : Fault → Prop}

/-- `next` from a slot, or from the leaf of an empty tree with the index unset. -/
private theorem Position.wp_next (hp : Position t h x it) (ht : Holds c S t m h x)
    (hg : Move.Guarded t it (.next : Move K)) :
    wp E it.next (fun r t' ↦ Moved t t' m h x r) t := by
  obtain ⟨i, n, hi, hn, hlt⟩ := hg
  rcases hp.place with rfl | hparked
  · cases hi
  cases hparked with
  | on it pre e post ha =>
    refine ha.wp_next ht ?_ ?_
    · exact fun t' it' pre' e' hr _ ha' ↦ .off hr (.of_at ha')
    · exact fun t' it' dead f post' hr _ _ hlive ha' ↦ .on ht hr ha' hlive
  | past L₁ lf a e hL hlf hpool =>
    -- the index is not below the number of slots
    cases hi
    obtain ⟨n', hn', _, hkv⟩ := ht.tree.rep.leaf lf (by rw [hL]; simp)
    rw [hn] at hn'
    cases hn'
    simp only [NodeBlock.count, hkv] at hlt
    omega
  | empty lf j hL hnil hpool =>
    cases hi
    obtain ⟨n', hn', hkv, hnext, _⟩ := ht.lone hL
    rw [hn] at hn'
    cases hn'
    have hcount : (n.count : Int) = 0 := by simp [NodeBlock.count, hkv, hnil]
    have hmem : lf ∈ LTree.leaves h x := by rw [hL]; simp
    obtain ⟨_, hent⟩ := ht.leaves_of_nil hmem hnil
    have hj : j = -1 := by
      have := hp.index hent
      simp only at this hlt
      omega
    subst hj
    unfold Iterator.next Iterator.stepNext
    simp only [wp_bind, wp_readNode hpool hn, hcount, hnext]
    rw [if_neg (by omega), if_pos (by omega), if_pos trivial]
    simp only [wp_pure]
    exact .off (.refl ht.heap) hp

/-- `prev` from a slot, from behind the last one, or from the leaf of an empty tree. -/
private theorem Position.wp_prev (hp : Position t h x it) (ht : Holds c S t m h x)
    (hg : 0 ≤ it.index) : wp E it.prev (fun r t' ↦ Moved t t' m h x r) t := by
  rcases hp.place with rfl | hparked
  · exact absurd hg (by decide)
  cases hparked with
  | on it pre e post ha =>
    refine ha.wp_prev ht ?_ ?_
    · exact fun t' it' e' post' hr _ ha' ↦ .off hr (.of_at ha')
    · exact fun t' it' pre' f dead hr _ _ hlive ha' ↦ .on ht hr ha' hlive
  | past L₁ lf a e hL hlf hpool =>
    have hat : At t h x ⟨some lf.id, a.length⟩ (L₁.flatMap Numbered.items ++ a) e [] :=
      ⟨L₁, lf, [], a, [], hL, hlf, rfl, hpool, rfl, rfl⟩
    have hlen : (lf.items.length : Int) = a.length + 1 := by simp [hlf]
    have hbound := ht.length_entries_lt
    rw [hat.entries, List.length_append, List.length_singleton] at hbound
    unfold Iterator.prev Iterator.fuel
    simp only [wp_bind, wp_readMeta ht.heap, wp_pure]
    unfold Iterator.prevLoop Iterator.stepPrev
    simp only [hlen, show (0 : Int) < a.length + 1 by omega, if_true, wp_bind, wp_pure,
      Int.add_sub_cancel, hat.wp_removed ht]
    cases hdead : e.isRemoved with
    | false =>
      simp only [Bool.false_eq_true, if_false, wp_pure]
      exact .on ht (.refl ht.heap) hat hdead
    | true =>
      simp only [if_true]
      refine hat.wp_prevLoop ht (by omega) ?_ ?_
      · exact fun t' it' e' post' hr _ ha' ↦ .off hr (.of_at ha')
      · exact fun t' it' pre' f dead hr _ _ hlive ha' ↦ .on ht hr ha' hlive
  | empty lf j hL hnil hpool =>
    obtain ⟨n, hn, hkv, _, hlast⟩ := ht.lone hL
    have hmem : lf ∈ LTree.leaves h x := by rw [hL]; simp
    obtain ⟨_, hent⟩ := ht.leaves_of_nil hmem hnil
    have hj : j = 0 := by
      have := hp.index hent
      simp only at this hg
      omega
    subst hj
    unfold Iterator.prev Iterator.fuel
    simp only [wp_bind, wp_readMeta ht.heap, wp_pure]
    unfold Iterator.prevLoop Iterator.stepPrev
    rw [if_neg (by simp), if_pos rfl]
    simp only [wp_bind, wp_readNode hpool hn, hlast, if_true, wp_pure]
    exact .off (.refl ht.heap) hp

/-- Reading the flag of a slot that is none, or through a null pointer. -/
private theorem wp_removed_none {Q : Bool → BTree K → Prop} (hcur : ∀ i, it.cur = some i →
      t.buffer.Pooled i ∧ ∃ n, t.page i = .node n ∧ n.count ≤ slotIndex it.index) :
    ¬ wp (fun _ ↦ False) it.removed Q t := by
  unfold Iterator.removed
  rw [wp_bind]
  obtain ⟨cur, index⟩ := it
  cases cur with
  | none => exact id
  | some i =>
    obtain ⟨hp, n, hn, hle⟩ := hcur i rfl
    have hslot : n.removed (slotIndex index) = .error .slotOutOfRange := by
      have hget : n.kv[slotIndex index]? = none := List.getElem?_eq_none hle
      simp only [NodeBlock.removed, NodeBlock.getSlot, hget]
      rfl
    simp only [wp_readNode hp hn, hslot, wp_liftM, not_false_eq_true]

/-- `next` from behind the last slot, or from a new iterator. -/
private theorem Position.not_wp_next {Q : Int × Iterator → BTree K → Prop}
    (hp : Position t h x it) (ht : Holds c S t m h x)
    (hg : ¬ Move.Guarded t it (.next : Move K)) : ¬ wp (fun _ ↦ False) it.next Q t := by
  rcases hp.place with rfl | hparked
  · exact id
  -- the index is the number of slots
  obtain ⟨lf, n, hlf, rfl, hpool, hn, hkv⟩ : ∃ lf n, lf ∈ LTree.leaves h x ∧
      it = ⟨some lf.id, lf.items.length⟩ ∧ t.buffer.Pooled lf.id ∧ t.page lf.id = .node n ∧
      n.kv = lf.items := by
    cases hparked with
    | on it pre e post ha =>
      obtain ⟨i, n, a, b, rfl, _, hn, _, hkv, _⟩ := ha.leaf ht
      refine absurd ⟨i, n, rfl, hn, ?_⟩ hg
      simp only [NodeBlock.count, hkv, List.length_append, List.length_cons]
      omega
    | past L₁ lf a e hL hlf hpool =>
      have hmem : lf ∈ LTree.leaves h x := by rw [hL]; simp
      obtain ⟨n, hn, _, hkv⟩ := ht.tree.rep.leaf lf hmem
      exact ⟨lf, n, hmem, rfl, hpool, hn, hkv⟩
    | empty lf j hL hnil hpool =>
      have hmem : lf ∈ LTree.leaves h x := by rw [hL]; simp
      obtain ⟨n, hn, _, hkv⟩ := ht.tree.rep.leaf lf hmem
      obtain ⟨_, hent⟩ := ht.leaves_of_nil hmem hnil
      have hj : j = 0 := by
        refine (hp.index hent).resolve_left fun hneg ↦ hg ⟨lf.id, n, rfl, hn, ?_⟩
        rw [hneg]
        omega
      exact ⟨lf, n, hmem, by rw [hj, hnil]; rfl, hpool, hn, hkv⟩
  have hcount : n.count = lf.items.length := by rw [NodeBlock.count, hkv]
  have hle := ht.leaf_length_le hlf
  unfold Iterator.next Iterator.stepNext
  simp only [wp_bind, wp_readNode hpool hn, hcount]
  rw [if_neg (by omega), if_neg (by omega)]
  unfold Iterator.fuel
  simp only [wp_bind, wp_pure, wp_readMeta ht.heap]
  unfold Iterator.nextLoop
  rw [wp_bind]
  refine wp_removed_none fun i hi ↦ ?_
  cases hi
  refine ⟨hpool, n, hn, ?_⟩
  simp only [BLOCK_SIZE] at hle
  unfold slotIndex
  simp only
  omega

/-- `prev` from a new iterator, or from the leaf of an empty tree with the index unset. -/
private theorem Position.not_wp_prev {Q : Int × Iterator → BTree K → Prop}
    (hp : Position t h x it) (ht : Holds c S t m h x) (hg : ¬ 0 ≤ it.index) :
    ¬ wp (fun _ ↦ False) it.prev Q t := by
  have hidx : it.index = -1 ∧ ∀ i, it.cur = some i →
      t.buffer.Pooled i ∧ ∃ n, t.page i = .node n ∧ n.count = 0 := by
    rcases hp.place with rfl | hparked
    · exact ⟨rfl, fun _ hi ↦ nomatch hi⟩
    cases hparked with
    | on it pre e post ha =>
      obtain ⟨L₁, lf, L₂, a, b, hL, _, rfl, hpool, _⟩ := ha.pos
      exact absurd (Int.natCast_nonneg _) hg
    | past L₁ lf a e hL hlf hpool => exact absurd (Int.natCast_nonneg _) hg
    | empty lf j hL hnil hpool =>
      have hmem : lf ∈ LTree.leaves h x := by rw [hL]; simp
      obtain ⟨n, hn, _, hkv⟩ := ht.tree.rep.leaf lf hmem
      obtain ⟨_, hent⟩ := ht.leaves_of_nil hmem hnil
      refine ⟨(hp.index hent).resolve_right fun h0 ↦ hg (by omega), fun i hi ↦ ?_⟩
      cases hi
      exact ⟨hpool, n, hn, by rw [NodeBlock.count, hkv, hnil]; rfl⟩
  obtain ⟨hindex, hcur⟩ := hidx
  unfold Iterator.prev Iterator.fuel
  simp only [wp_bind, wp_readMeta ht.heap, wp_pure]
  unfold Iterator.prevLoop Iterator.stepPrev
  rw [if_neg (by omega), if_neg (by omega)]
  simp only [wp_bind, wp_pure]
  refine wp_removed_none fun i hi ↦ ?_
  obtain ⟨hpool, n, hn, hcount⟩ := hcur i hi
  exact ⟨hpool, n, hn, by omega⟩

/-- A guarded call goes well. -/
private theorem Position.wp_perform {move : Move K} (hp : Position t h x it)
    (ht : Holds c S t m h x) (hcmp : Comparison c.cmp S) (hS : ∀ k, S k)
    (hg : move.Guarded t it) :
    wp E (move.perform c it) (fun r t' ↦ Moved t t' m h x r) t := by
  cases move with
  | locate key flag =>
    have hprobe := ht.tree.sorted.probe hcmp ht.tree.keys (hS key)
    refine wp_locate ht hprobe ?_ ?_
    · exact fun t' it' A f B hr hl ha ↦ .on ht hr ha hl.live
    · exact fun t' it' hr _ hpark h0 ↦ .off hr ⟨.inr hpark, fun hnil ↦ .inr (h0 hnil)⟩
  | first =>
    refine wp_first ht ?_ ?_
    · exact fun t' it' hr _ hpark h0 ↦ .off hr ⟨.inr hpark, fun hnil ↦ h0 hnil ▸ hp.index hnil⟩
    · exact fun t' it' dead f post hr _ _ hlive ha ↦ .on ht hr ha hlive
  | last =>
    refine wp_last ht ?_ ?_
    · exact fun t' it' hr _ hpark h0 ↦ .off hr ⟨.inr hpark, fun hnil ↦ h0 hnil ▸ hp.index hnil⟩
    · exact fun t' it' pre f dead hr _ _ hlive ha ↦ .on ht hr ha hlive
  | next => exact hp.wp_next ht hg
  | prev => exact hp.wp_prev ht hg

/-- A call that is not guarded does not return. -/
private theorem Position.guarded {move : Move K} {Q : Int × Iterator → BTree K → Prop}
    (hp : Position t h x it) (ht : Holds c S t m h x)
    (hwp : wp (fun _ ↦ False) (move.perform c it) Q t) : move.Guarded t it := by
  by_contra hg
  cases move with
  | next => exact hp.not_wp_next ht hg hwp
  | prev => exact hp.not_wp_prev ht hg hwp
  | _ => exact hg trivial

end Calls

/-- An iterator that moves over a tree is always at a position in it. -/
theorem Moving.position (hm : Moving c t₀ t it) (ht₀ : Holds c S t₀ m h x)
    (hcmp : Comparison c.cmp S) (hS : ∀ k, S k) : Reads t₀ t m ∧ Position t h x it := by
  induction hm with
  | start => exact ⟨.refl ht₀.heap, .inl rfl, fun _ ↦ .inl rfl⟩
  | step t t' it r move _ hrun ih =>
    obtain ⟨hr, hp⟩ := ih
    have ht := ht₀.reads hr
    have hg : move.Guarded t it := hp.guarded (Q := fun _ _ ↦ True) ht (wp_of_run hrun trivial)
    obtain ⟨hr', hp', _⟩ := wp_ok (hp.wp_perform (E := fun _ ↦ False) ht hcmp hS hg) hrun
    exact ⟨hr.trans hr', hp'⟩

/-- In any sequence of calls on an iterator over a reachable tree, a call terminates, reads
only slots of the tree, and where it returns 1 leaves the iterator on a live one, exactly when
it is guarded. -/
theorem moving_safe (hwide : c.Wide) (hcmp : Comparison c.cmp fun _ ↦ True)
    (ht₀ : Reachable c t₀) (hm : Moving c t₀ t it) (move : Move K) :
    wp (fun _ ↦ False) (move.perform c it) (Lands t₀) t ↔ move.Guarded t it := by
  obtain ⟨m, h, x, ht⟩ := (ht₀.sound hwide hcmp).holds
  obtain ⟨hr, hp⟩ := hm.position ht hcmp fun _ ↦ trivial
  refine ⟨hp.guarded (ht.reads hr), fun hg ↦ ?_⟩
  refine wp_mono (hp.wp_perform (ht.reads hr) hcmp (fun _ ↦ trivial) hg) fun r t' hm ↦ ?_
  have hlands := hm.lands
  unfold Lands at *
  rwa [live_congr hr.page hr.later.root] at hlands

/-- What a search for a key past the end returns, with the index that it leaves, and whether `next`
returns after it. -/
private def pastEnd : Option (Int × Int × Bool) :=
  match (Move.perform narrow ⟨none, -1⟩ (.locate 9 .KEY_OR_NEXT)).run filledTree with
  | .error _ => none
  | .ok (r, t) =>
    match (Move.perform narrow r.2 .next).run t with
    | .error _ => some (r.1, r.2.index, false)
    | .ok _ => some (r.1, r.2.index, true)

private theorem pastEnd_eq : pastEnd = some (0, 1, false) := by decide +kernel

/-- A search for a key past the end of three entries fails, and `prev` goes well after it. -/
theorem filledTree_moving : ∃ t it,
    (Move.perform narrow ⟨none, -1⟩ (.locate 9 .KEY_OR_NEXT)).run filledTree = .ok ((0, it), t) ∧
      wp (fun _ ↦ False) (Move.perform narrow it .prev) (Lands filledTree) t := by
  have hrun := pastEnd_eq
  unfold pastEnd at hrun
  split at hrun
  · cases hrun
  next r t hlocate =>
  obtain ⟨hr, hindex⟩ : r.1 = 0 ∧ r.2.index = 1 := by
    split at hrun <;> simp_all
  have hm : Moving narrow filledTree t r.2 := .step _ t _ r _ .start hlocate
  have hguarded : Move.Guarded t r.2 (.prev : Move Nat) := by
    change 0 ≤ r.2.index
    omega
  refine ⟨t, r.2, by rw [hlocate, ← hr], ?_⟩
  exact (moving_safe narrow_wide narrow_cmp (filledTree_session fun _ _ _ ↦ trivial) hm .prev).mpr
    hguarded

/-- After a search for a key past the end `next` reads a slot behind the last one. -/
theorem next_past_end : ¬ ∀ t₀ t it, Reachable narrow t₀ → Moving narrow t₀ t it →
    ∀ move, wp (fun _ ↦ False) (Move.perform narrow it move) (Lands t₀) t := by
  intro hall
  have hrun := pastEnd_eq
  unfold pastEnd at hrun
  split at hrun
  · cases hrun
  next r t hlocate =>
  have hm : Moving narrow filledTree t r.2 := .step _ t _ r _ .start hlocate
  have hwp := hall filledTree t r.2 (filledTree_session fun _ _ _ ↦ trivial) hm .next
  unfold wp at hwp
  split at hrun
  · next hnext =>
    rw [hnext] at hwp
    exact hwp
  · simp at hrun

end ExampleEngine.Index
