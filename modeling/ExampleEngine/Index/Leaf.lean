import ExampleEngine.Index.Split

/-!
# Insertion into a leaf

Library `Index`. The leaf case of `BTree::insert` in `src/lib/btree.cpp:499–538` upserts
into the slots of the leaf, or reports a live entry with an equal key.
-/

namespace ExampleEngine.Index

open ExampleEngine.Base ExampleEngine.Storage

variable {K : Type}

/-- An entry made live again, with another value. -/
def reviveWith (w : List UInt8) (s : Slot K) : Slot K := { s with flag := 1, value := w }

/-- The slot bytes of a value: the value itself, or the location of a record that holds it. -/
def Written (c : Config K) (v : Nat → Page K) (n : Nat) (value w : List UInt8) : Prop :=
  if c.isConstValueSize then w = value.take c.leafValueSize
  else ∃ loc : Location, w = loc.toBytes ∧ loc.Fits ∧ loc.index < n ∧ StoredAt v loc [] ∧
    (value.length ≤ maxValueSize → StoredAt v loc value)

/-- The slot bytes of any entry, removed ones included, locate a record. -/
def Recorded (c : Config K) (v : Nat → Page K) (n : Nat) (w : List UInt8) : Prop :=
  c.isConstValueSize = false →
    (Location.ofBytes w).index < n ∧ StoredAt v (Location.ofBytes w) []

/-- Written values are recorded. -/
theorem Written.recorded {c : Config K} {v : Nat → Page K} {n : Nat} {value w : List UInt8}
    (h : Written c v n value w) : Recorded c v n w := by
  intro hc
  unfold Written at h
  rw [hc] at h
  obtain ⟨loc, rfl, hfit, hlt, hd, _⟩ := h
  rw [Location.ofBytes_toBytes hfit]
  exact ⟨hlt, hd⟩

/-- Recorded values stay recorded. -/
theorem KeepsData.recorded {c : Config K} {v v' : Nat → Page K} {n n' : Nat} {w : List UInt8}
    (h : KeepsData v v' n) (hn : n ≤ n') (hw : Recorded c v n w) : Recorded c v' n' w := by
  intro hc
  obtain ⟨hlt, hd⟩ := hw hc
  exact ⟨Nat.lt_of_lt_of_le hlt hn, h.storedAt hlt hd⟩

/-- Written values stay written. -/
theorem KeepsData.written {c : Config K} {v v' : Nat → Page K} {n n' : Nat}
    {value w : List UInt8} (h : KeepsData v v' n) (hn : n ≤ n')
    (hw : Written c v n value w) : Written c v' n' value w := by
  unfold Written at *
  split at hw
  · next hc => rw [if_pos hc]; exact hw
  · next hc =>
    rw [if_neg hc]
    obtain ⟨loc, rfl, hfit, hlt, hd, hs⟩ := hw
    exact ⟨loc, rfl, hfit, Nat.lt_of_lt_of_le hlt hn, h.storedAt hlt hd,
      fun hv ↦ h.storedAt hlt (hs hv)⟩

namespace BTree

variable {c : Config K} {t t' : BTree K} {m m' : BTreeMetadata}

/-- Nothing recorded. -/
theorem Records.refl (h : Heap t m) : Records t t m m where
  later := .refl t
  heap := h
  root := rfl
  items := rfl
  count_le := Nat.le_refl _
  node _ _ _ hn := hn
  data := .of_eq fun _ _ _ hd ↦ hd
  fresh _ hi hi' := absurd hi' (Nat.not_lt.mpr hi)

/-- What `insertLeaf` finds and does. -/
inductive LeafOutcome (c : Config K) (key : K) (value : List UInt8) (t : BTree K)
    (m : BTreeMetadata) (p : Nat) (n : NodeBlock K) : Int → BTree K → Prop
  /-- A live entry has an equal key. -/
  | duplicate (e : Slot K) (he : e ∈ n.kv) (heq : c.cmp e.key key = 0)
      (hlive : e.isRemoved = false) : LeafOutcome c key value t m p n 0 t
  /-- The entry is inserted or revived. -/
  | done (hdead : ∀ e ∈ n.kv, c.cmp e.key key = 0 → e.isRemoved = true)
      (t₁ t' : BTree K) (m' : BTreeMetadata) (w : List UInt8) (hr : Records t t₁ m m')
      (hl : Later t₁ t') (hh : Heap t' m')
      (hp : t'.page = Function.update t₁.page p (.node { n with
        kv := upsert c.cmp Slot.key key ⟨key, 1, w⟩ (reviveWith w) n.kv }))
      (hw : Written c t₁.page m'.countOfBlock value w)
      (hst : c.isConstValueSize = false → Storable value.length)
      (hc : m'.countOfBlock ≤ m.countOfBlock + blocksFor value) :
      LeafOutcome c key value t m p n 1 t'
  /-- The value does not fit any block. -/
  | failed (hdead : ∀ e ∈ n.kv, c.cmp e.key key = 0 → e.isRemoved = true)
      (t' : BTree K) (m' : BTreeMetadata) (hr : Records t t' m m')
      (hc : c.isConstValueSize = false) (hv : 2 ^ 31 ≤ value.length)
      (hn : m'.countOfBlock ≤ m.countOfBlock + blocksFor value) :
      LeafOutcome c key value t m p n (-1) t'

/-- An inserted value is written by its location. -/
theorem Inserted.written {v : Nat → Page K} {value : List UInt8} {loc : Location}
    (hc : c.isConstValueSize = false) (h : Inserted v m value (some loc)) :
    Written c v m.countOfBlock value loc.toBytes := by
  unfold Written
  rw [hc]
  obtain ⟨hlt, hfit, hd, hs⟩ := h
  exact ⟨loc, rfl, hfit, hlt, hd, hs⟩

/-- A slot has room for a location. -/
theorem toBytes_take {loc : Location} (hc : c.isConstValueSize = false) :
    loc.toBytes.take c.leafValueSize = loc.toBytes := by
  have h256 : c.valueSize ≥ 256 := by
    unfold Config.isConstValueSize at hc
    simpa using hc
  unfold Config.leafValueSize
  rw [if_pos h256]
  exact List.take_of_length_le (by simp [Location.toBytes])

/-- `insertLeaf` upserts into the leaf, unless a live entry has an equal key or the value is
too long. -/
theorem wp_insertLeaf {key : K} {value : List UInt8} {p : Nat} {n : NodeBlock K}
    {A B : List (Slot K)} {E : Fault → Prop} {Q : Int → BTree K → Prop} (hwide : c.Wide)
    (h : Heap t m) (hE : Covers E (m.countOfBlock + blocksFor value))
    (hd : t.buffer.Dirty p) (h0 : p ≠ 0) (hn : t.page p = .node n) (hs : Shape c 0 n)
    (hroom : n.count < c.capacity 0) (hcut : Cut c.cmp Slot.key key n.kv A B)
    (huniq : ∀ e ∈ n.kv, c.cmp e.key key = 0 → e ∈ B.head?)
    (hv : ∀ e ∈ n.kv, Recorded c t.page m.countOfBlock e.value)
    (hQ : ∀ r t', LeafOutcome c key value t m p n r t' → Q r t') :
    wp E (insertLeaf c key value (some p) A.length) Q t := by
  have hval : n.valSize = c.leafValueSize := hs.valSize
  have hidx : n.header.index = p := by
    have := h.index p (h.pooled p hd.pooled)
    rwa [hn] at this
  have hlen : n.count = A.length + B.length := by simp [NodeBlock.count, hcut.eq]
  -- a new entry at the cut, once its slot bytes are known
  have hnew : ∀ t₁ m₁ w, (∀ e ∈ n.kv, c.cmp e.key key ≠ 0) → Records t t₁ m m₁ →
      Written c t₁.page m₁.countOfBlock value (w.take n.valSize) →
      (c.isConstValueSize = false → Storable value.length) →
      m₁.countOfBlock ≤ m.countOfBlock + blocksFor value →
      wp E (do modifyNode (some p) (·.insert key w A.length); return 1) Q t₁ := by
    intro t₁ m₁ w hne hr hw hst hcount
    have hn₁ := hr.node p n (h.pooled p hd.pooled) hn
    have hins := NodeBlock.insert_append hcut.eq (by rw [hs.size hwide]; exact hroom) key w
    simp only [wp_bind]
    refine wp_modify_page hr.heap (hr.later.dirty hd) h0 hn₁ hins hidx fun t₂ hl₂ h₂ hp₂ ↦ ?_
    refine hQ 1 t₂ (.done (fun e he heq ↦ absurd heq (hne e he)) t₁ t₂ m₁ _ hr hl₂ h₂
      ?_ hw hst hcount)
    rw [hp₂, hcut.upsert_ne]
    intro e he
    refine hne e ?_
    rw [hcut.eq]
    exact List.mem_append_right _ (List.mem_of_mem_head? he)
  have hfail : ∀ t₁ m₁, (∀ e ∈ n.kv, c.cmp e.key key = 0 → e.isRemoved = true) →
      c.isConstValueSize = false → Records t t₁ m m₁ → Inserted t₁.page m₁ value none →
      m₁.countOfBlock ≤ m.countOfBlock + blocksFor value → Q (-1) t₁ :=
    fun t₁ m₁ hdead hc hr hin hcount ↦ hQ _ _ (.failed hdead t₁ m₁ hr hc hin hcount)
  unfold insertLeaf
  simp only [wp_bind, wp_readNode hd.pooled hn]
  by_cases heq : ∃ e ∈ n.kv, c.cmp e.key key = 0
  · -- an entry with an equal key
    obtain ⟨e, he, hek⟩ := heq
    obtain ⟨B', rfl⟩ : ∃ B', B = e :: B' := by
      have := huniq e he hek
      cases B with
      | nil => simp at this
      | cons x B' =>
        simp only [List.head?_cons, Option.mem_def, Option.some.injEq] at this
        exact ⟨B', by rw [this]⟩
    have honly : ∀ x ∈ n.kv, c.cmp x.key key = 0 → x = e := by
      intro x hx hxk
      have := huniq x hx hxk
      simp only [List.head?_cons, Option.mem_def, Option.some.injEq] at this
      exact this.symm
    have hlt : A.length < n.count := by
      rw [hlen]
      simp
    have hholds : holdsKey c n A.length key = .ok true := by
      unfold holdsKey
      rw [if_pos hlt, NodeBlock.compare_append hcut.eq, hek]
      rfl
    have hrem := NodeBlock.removed_append hcut.eq
    have hgv := NodeBlock.getValue_append hcut.eq
    have hrev : ∀ t₁ m₁ w, e.isRemoved = true → Records t t₁ m m₁ →
        Written c t₁.page m₁.countOfBlock value (w.take n.valSize) →
        (c.isConstValueSize = false → Storable value.length) →
        m₁.countOfBlock ≤ m.countOfBlock + blocksFor value →
        wp E (do modifyNode (some p) (·.set A.length none (some w) 1); return 1) Q t₁ := by
      intro t₁ m₁ w hdead hr hw hst hcount
      have hn₁ := hr.node p n (h.pooled p hd.pooled) hn
      simp only [wp_bind]
      refine wp_modify_page hr.heap (hr.later.dirty hd) h0 hn₁
        (NodeBlock.set_append hcut.eq none (some w) 1) hidx fun t₂ hl₂ h₂ hp₂ ↦ ?_
      refine hQ 1 t₂ (.done (fun x hx hxk ↦ honly x hx hxk ▸ hdead) t₁ t₂ m₁ _ hr hl₂ h₂
        ?_ hw hst hcount)
      rw [hp₂, hcut.upsert_eq hek]
      rfl
    simp only [hholds, if_true, wp_bind, wp_liftM, hrem]
    cases hdead : e.isRemoved with
    | false =>
      simp only [Bool.false_eq_true, if_false, wp_pure]
      exact hQ 0 t (.duplicate e he hek hdead)
    | true =>
      have hall : ∀ x ∈ n.kv, c.cmp x.key key = 0 → x.isRemoved = true :=
        fun x hx hxk ↦ honly x hx hxk ▸ hdead
      cases hc : c.isConstValueSize with
      | true =>
        simp only [if_true]
        refine hrev t m value hdead (.refl h) ?_ (fun hf ↦ by simp [hc] at hf)
          (Nat.le_add_right _ _)
        unfold Written
        rw [hc, if_pos rfl, hval]
      | false =>
        simp only [if_true, Bool.false_eq_true, if_false, hgv, wp_liftM, wp_bind]
        obtain ⟨hlt, hdata⟩ := hv e he hc
        refine wp_insertValue h (Nat.le_of_lt hlt) (fun _ ↦ hdata.isData) hE
          fun r t₁ m₁ hr hin hst hcount _ ↦ ?_
        cases r with
        | none => exact hfail t₁ m₁ hall hc hr hin hcount
        | some loc =>
          refine hrev t₁ m₁ loc.toBytes hdead hr ?_ (fun _ ↦ hst (by simp)) hcount
          rw [hval, toBytes_take hc]
          exact hin.written hc
  · -- a new entry
    have hne : ∀ e ∈ n.kv, c.cmp e.key key ≠ 0 := fun e he hek ↦ heq ⟨e, he, hek⟩
    have hholds : holdsKey c n A.length key = .ok false := by
      unfold holdsKey
      split
      · next hlt =>
        cases B with
        | nil =>
          simp only [List.length_nil] at hlen
          omega
        | cons e B' =>
          have hek : (c.cmp e.key key == 0) = false := by
            simpa using hne e (by rw [hcut.eq]; simp)
          rw [NodeBlock.compare_append hcut.eq]
          change Except.ok (c.cmp e.key key == 0) = _
          rw [hek]
      · rfl
    simp only [hholds, wp_liftM, Bool.false_eq_true, if_false]
    cases hc : c.isConstValueSize with
    | true =>
      simp only [if_true]
      refine hnew t m value hne (.refl h) ?_ (fun hf ↦ by simp [hc] at hf)
        (Nat.le_add_right _ _)
      unfold Written
      rw [hc, if_pos rfl, hval]
    | false =>
      have htail : ∀ i, i ≤ m.countOfBlock → (i < m.countOfBlock → IsData t.page i) →
          ∀ next : Option Location → TreeM K Int, next none = pure (-1) →
          (∀ loc : Location, next (some loc) = do
            modifyNode (some p) (·.insert key loc.toBytes A.length)
            return 1) →
          wp E (insertValue insertValueFuel i value) (fun a s' ↦ wp E (next a) Q s') t := by
        intro i hi hdata next hnone hsome
        refine wp_insertValue h hi hdata hE fun r t₁ m₁ hr hin hst hcount _ ↦ ?_
        cases r with
        | none =>
          rw [hnone]
          exact hfail t₁ m₁ (fun e he hek ↦ absurd hek (hne e he)) hc hr hin hcount
        | some loc =>
          rw [hsome]
          refine hnew t₁ m₁ loc.toBytes hne hr ?_ (fun _ ↦ hst (by simp)) hcount
          rw [hval, toBytes_take hc]
          exact hin.written hc
      simp only [Bool.false_eq_true, if_false, wp_bind]
      unfold neighbourBlock
      cases hemp : n.empty with
      | true =>
        simp only [if_true, wp_bind, wp_readMeta h, wp_pure]
        exact htail _ (Nat.le_refl _) (fun hlt ↦ absurd hlt (Nat.lt_irrefl _)) _ rfl fun _ ↦ rfl
      | false =>
        -- the neighbour whose block the new value shares
        obtain ⟨s, hs, hsl⟩ : ∃ s, s ∈ n.kv ∧
            n.getValue (A.length - if A.length = n.count then 1 else 0) = .ok s.value := by
          have hpos : n.kv ≠ [] := by
            intro hnil
            simp [NodeBlock.empty, NodeBlock.count, hnil] at hemp
          have hlt : (A.length - if A.length = n.count then 1 else 0) < n.kv.length := by
            have hp := List.length_pos_iff.mpr hpos
            have hA : A.length ≤ n.kv.length := by
              rw [hcut.eq]
              simp
            have hcount : n.count = n.kv.length := rfl
            split <;> omega
          refine ⟨n.kv[_], List.getElem_mem hlt, ?_⟩
          simp only [NodeBlock.getValue, NodeBlock.getSlot, List.getElem?_eq_getElem hlt, bind,
            Except.bind, pure, Except.pure]
        obtain ⟨hlt, hdata⟩ := hv s hs hc
        simp only [Bool.false_eq_true, if_false, wp_bind, hsl, wp_liftM, wp_pure]
        exact htail _ (Nat.le_of_lt hlt) (fun _ ↦ hdata.isData) _ rfl fun _ ↦ rfl

end BTree

end ExampleEngine.Index
