import ExampleEngine.Index.Heap

/-!
# Values in data blocks

Library `Index`. Values of variable size are records of data blocks, found again by
location. Inserting one moves no other record and touches no node. Covers
`src/lib/btree.cpp:431–491`.
-/

namespace ExampleEngine.Index

open ExampleEngine.Base ExampleEngine.Storage

variable {K : Type}

/-- A block is a well-formed data block. -/
def IsData (v : Nat → Page K) (i : Nat) : Prop := ∃ d, v i = .data d ∧ d.WF

/-- The record at a location starts with the bytes of `value`. -/
def StoredAt (v : Nat → Page K) (loc : Location) (value : List UInt8) : Prop :=
  ∃ d o, v loc.index = .data d ∧ d.WF ∧ d.get loc.position = some o ∧
    ∀ i (hi : i < value.length), d.bytes (o + i) = value[i]

/-- A location with a record is one of a data block. -/
theorem StoredAt.isData {v : Nat → Page K} {loc : Location} {value : List UInt8}
    (h : StoredAt v loc value) : IsData v loc.index := by
  obtain ⟨d, _, hd, hw, _⟩ := h
  exact ⟨d, hd, hw⟩

/-- The blocks below `n` that hold records still hold them, at the same locations. -/
def KeepsData (v v' : Nat → Page K) (n : Nat) : Prop :=
  ∀ i d, i < n → v i = .data d → d.WF → ∃ d', v' i = .data d' ∧ d.Extends d' ∧ d'.WF

namespace KeepsData

variable {v v' v'' : Nat → Page K} {n n' : Nat}

/-- Data blocks that do not change hold their records. -/
theorem of_eq (h : ∀ i d, i < n → v i = .data d → v' i = .data d) : KeepsData v v' n :=
  fun i d hi hd hw ↦ ⟨d, h i d hi hd, .refl d, hw⟩

/-- Records are kept over several steps. -/
theorem trans (h : KeepsData v v' n) (h' : KeepsData v' v'' n') (hn : n ≤ n') :
    KeepsData v v'' n := by
  intro i d hi hd hw
  obtain ⟨d₁, hd₁, he₁, hw₁⟩ := h i d hi hd hw
  obtain ⟨d₂, hd₂, he₂, hw₂⟩ := h' i d₁ (Nat.lt_of_lt_of_le hi hn) hd₁ hw₁
  exact ⟨d₂, hd₂, he₁.trans he₂, hw₂⟩

/-- Data blocks stay data blocks. -/
theorem isData (h : KeepsData v v' n) {i : Nat} (hi : i < n) (hd : IsData v i) :
    IsData v' i := by
  obtain ⟨d, hd, hw⟩ := hd
  obtain ⟨d', hd', _, hw'⟩ := h i d hi hd hw
  exact ⟨d', hd', hw'⟩

/-- Stored values stay stored. -/
theorem storedAt (h : KeepsData v v' n) {loc : Location} {value : List UInt8}
    (hl : loc.index < n) (hs : StoredAt v loc value) : StoredAt v' loc value := by
  obtain ⟨d, o, hd, hw, hg, hb⟩ := hs
  obtain ⟨d', hd', he, hw'⟩ := h _ d hl hd hw
  refine ⟨d', o, hd', hw', he.get hg, fun i hi ↦ ?_⟩
  have hle := DataBlock.free_le_of_get hw hg
  rw [he.bytes _ (by omega), hb i hi]

end KeepsData

/-- The longest value that a fresh data block takes. -/
abbrev maxValueSize : Nat := 4065

/-- A location that six bytes hold. -/
def Location.Fits (loc : Location) : Prop := loc.index < 2 ^ 32 ∧ loc.position < 2 ^ 16

/-- A location that fits is recovered from its bytes. -/
theorem Location.ofBytes_toBytes {loc : Location} (h : loc.Fits) :
    Location.ofBytes loc.toBytes = loc := by
  unfold Location.ofBytes Location.toBytes
  rw [List.take_left' (length_leBytes 4 _), List.drop_left' (length_leBytes 4 _)]
  rw [List.take_of_length_le (Nat.le_of_eq (length_leBytes 2 _))]
  rw [leNat_leBytes_of_lt h.1, leNat_leBytes_of_lt h.2]

/-- A block index that fits four bytes is recovered from them. -/
theorem childIndex_leBytes {i : Nat} (h : i < 2 ^ 32) : childIndex (leBytes 4 i) = i := by
  unfold childIndex
  rw [List.take_of_length_le (Nat.le_of_eq (length_leBytes 4 _)), leNat_leBytes_of_lt h]

namespace BTree

variable {t t' t'' : BTree K} {m m' m'' : BTreeMetadata}

/-- What inserting a record does: nodes stay as they are, data blocks gain records, and
every block newly taken into use is a data block. -/
structure Records (t t' : BTree K) (m m' : BTreeMetadata) : Prop where
  later : Later t t'
  heap : Heap t' m'
  root : m'.root = m.root
  items : m'.countOfItem = m.countOfItem
  count_le : m.countOfBlock ≤ m'.countOfBlock
  node : ∀ i n, i < m.countOfBlock → t.page i = .node n → t'.page i = .node n
  data : KeepsData t.page t'.page m.countOfBlock
  fresh : ∀ i, m.countOfBlock ≤ i → i < m'.countOfBlock → IsData t'.page i

namespace Records

/-- Fetching a block records nothing. -/
theorem of_fetched {i flag : Nat} (h : Fetched t t' m i flag) : Records t t' m m where
  later := h.later
  heap := h.heap
  root := rfl
  items := rfl
  count_le := Nat.le_refl _
  node i n _ hn := by rw [h.page, hn]
  data := .of_eq fun i d _ hd ↦ by rw [h.page, hd]
  fresh _ hi hi' := absurd hi' (Nat.not_lt.mpr hi)

/-- A well-formed data block newly taken into use. -/
theorem of_allocated {d : DataBlock} (h : Allocated t t' m m' (.data d)) (hd : d.WF)
    (ht : Heap t m) : Records t t' m m' where
  later := h.later
  heap := h.heap
  root := h.root
  items := h.items
  count_le := by
    rw [h.count]
    omega
  node i n hi hn := by
    have hi0 : i ≠ 0 := ht.ne_zero_of_node hn
    rw [h.page, Function.update_of_ne (by omega), Function.update_of_ne hi0, hn]
  data i e hi he hw := by
    have hi0 : i ≠ 0 := ht.ne_zero_of_data he
    refine ⟨e, ?_, .refl e, hw⟩
    rw [h.page, Function.update_of_ne (by omega), Function.update_of_ne hi0, he]
  fresh i hi hi' := by
    have hic : i = m.countOfBlock := by
      rw [h.count] at hi'
      omega
    exact ⟨d, by rw [h.page, hic, Function.update_self], hd⟩

/-- Making room in the file records nothing. -/
theorem of_grew (ht : Heap t m) (h : Grew t t' m m') : Records t t' m m' where
  later := h.later
  heap := h.heap
  root := h.root
  items := h.items
  count_le := Nat.le_of_eq h.count.symm
  node i n _ hn := by rw [h.page, Function.update_of_ne (ht.ne_zero_of_node hn), hn]
  data := .of_eq fun i d _ hd ↦ by rw [h.page, Function.update_of_ne (ht.ne_zero_of_data hd), hd]
  fresh i hi hi' := absurd hi' (by rw [h.count]; omega)

/-- Storing a data block with more records. -/
theorem of_write {i : Nat} {d d' : DataBlock} (h : Heap t m) (hi : t.buffer.Dirty i)
    (hd : t.page i = .data d) (he : d.Extends d') (hw : d'.WF)
    (hidx : d'.header.index = i) : Records t (t.write i (.data d')) m m where
  later := later_write hi _
  heap := by
    have hi0 : i ≠ 0 := h.ne_zero_of_data hd
    exact h.write hi.pooled hidx (fun hz ↦ absurd hz hi0) (fun _ ↦ rfl) rfl h.number
  root := rfl
  items := rfl
  count_le := Nat.le_refl _
  node j n _ hn := by
    have hji : j ≠ i := by
      rintro rfl
      rw [hd] at hn
      cases hn
    rw [page_write hi.pooled, Function.update_of_ne hji, hn]
  data j e _ hj hwj := by
    rw [page_write hi.pooled]
    by_cases hji : j = i
    · subst hji
      rw [hd] at hj
      cases hj
      exact ⟨d', Function.update_self .., he, hw⟩
    · exact ⟨e, by rw [Function.update_of_ne hji, hj], .refl e, hwj⟩
  fresh _ hj hj' := absurd hj' (Nat.not_lt.mpr hj)

/-- Records accumulate. -/
theorem trans (h : Records t t' m m') (h' : Records t' t'' m' m'') : Records t t'' m m'' where
  later := h.later.trans h'.later
  heap := h'.heap
  root := h'.root.trans h.root
  items := h'.items.trans h.items
  count_le := Nat.le_trans h.count_le h'.count_le
  node i n hi hn := h'.node i n (Nat.lt_of_lt_of_le hi h.count_le) (h.node i n hi hn)
  data := h.data.trans h'.data h.count_le
  fresh i hi hi' := by
    by_cases hlt : i < m'.countOfBlock
    · exact h'.data.isData hlt (h.fresh i hi hlt)
    · exact h'.fresh i (by omega) hi'

end Records

/-- One record is appended to the data block `j`, which may be the next block taken into use; no
other block changes but the metadata. -/
structure Appends (v v' : Nat → Page K) (n n' j : Nat) : Prop where
  other : ∀ i, i ≠ 0 → i ≠ j → v' i = v i
  block : ∃ d d', (v j = .data d ∧ j < n ∧ n' = n ∨ d.count = 0 ∧ j = n ∧ n' = n + 1) ∧
    v' j = .data d' ∧ d.Extends d' ∧ d'.count = d.count + 1

/-- The free size of a fresh data block. -/
abbrev freshSize : Nat := 4066

/-- The number of fresh data blocks that storing a value may take; where no block has room for
it, every number is exceeded. -/
def blocksFor (value : List UInt8) : Nat :=
  if toInt32 value.length < freshSize then 1 else 2 ^ 19

/-- A length that some block takes a record of: seen as a signed one it is below the free size,
and what 16 bits keep of it does not exceed the free size either. -/
def Storable (n : Nat) : Prop := toInt32 n < freshSize ∧ n % 2 ^ 16 ≤ freshSize

/-- What `insertValue` returns: the location of a record, which holds the value unless it is
too long for any block; nothing only for a length that is negative as a signed one. -/
def Inserted (v : Nat → Page K) (m : BTreeMetadata) (value : List UInt8) :
    Option Location → Prop
  | none => 2 ^ 31 ≤ value.length
  | some loc => loc.index < m.countOfBlock ∧ loc.Fits ∧ StoredAt v loc [] ∧
      (value.length ≤ maxValueSize → StoredAt v loc value)

/-- Lengths below 2 GiB are not negative as signed ones. -/
theorem toInt32_of_lt {n : Nat} (h : n < 2 ^ 31) : toInt32 n = n := by
  have hn : n % 2 ^ 32 = n := Nat.mod_eq_of_lt (by omega)
  unfold toInt32
  rw [hn, if_pos h]

/-- No block has more room than a fresh one. -/
theorem freeSize_le {d : DataBlock} (hw : d.WF) : d.freeSize ≤ freshSize := by
  have := hw.free_le
  unfold DataBlock.freeSize freshSize
  simp only [BLOCK_SIZE] at this
  omega

/-- A fresh block has the room of an empty one. -/
theorem freeSize_init (h : BlockHeader) (bytes : Nat → UInt8) :
    DataBlock.freeSize ⟨h, BLOCK_SIZE, [], bytes⟩ = freshSize := by
  simp [DataBlock.freeSize, DataBlock.count, freshSize, BLOCK_SIZE]

private theorem insert_data {d : DataBlock} {value : List UInt8} (hw : d.WF)
    (hfree : ¬ d.freeSize ≤ toInt32 value.length)
    (hnone : d.insert value (value.length % 2 ^ 16) = none) : 2 ^ 31 ≤ value.length := by
  by_contra hlt
  rw [toInt32_of_lt (by omega)] at hfree
  -- what is below the free size of a block also fits 16 bits
  have hsize := freeSize_le hw
  unfold freshSize at hsize
  have hmod : value.length % 2 ^ 16 = value.length := Nat.mod_eq_of_lt (by omega)
  rw [hmod] at hnone
  exact DataBlock.insert_of_lt (by omega) hnone

private theorem storable_of_insert {d d' : DataBlock} {value : List UInt8} {position : Nat}
    (hw : d.WF) (hfree : ¬ d.freeSize ≤ toInt32 value.length)
    (hins : d.insert value (value.length % 2 ^ 16) = some (d', position)) :
    Storable value.length := by
  have hsize := freeSize_le hw
  unfold DataBlock.insert at hins
  split at hins
  · cases hins
  · exact ⟨by omega, by omega⟩

section Insertion

variable {E : Fault → Prop} {value : List UInt8} {Q : Option Location → BTree K → Prop}

/-- With a data block at hand, the value is stored in it, or refused, or another block is
tried. -/
private theorem wp_insertInto {fuel i : Nat} {d : DataBlock} (h : Heap t m)
    (hp : t.page i = .data d) (hw : d.WF) (hdirty : t.buffer.Dirty i) (hlt : i < m.countOfBlock)
    (hnext : d.freeSize ≤ toInt32 value.length →
      wp E (insertValue fuel m.countOfBlock value) Q t)
    (hnone : toInt32 value.length < d.freeSize → 2 ^ 31 ≤ value.length → Q none t)
    (hsome : ∀ d' loc t', toInt32 value.length < d.freeSize → Records t t' m m →
      Inserted t'.page m value (some loc) → Storable value.length →
      t'.page = Function.update t.page i (.data d') → d.Extends d' → d'.count = d.count + 1 →
      loc.index = i → Q (some loc) t') :
    wp E (do
      let d ← readData (some i)
      if d.freeSize ≤ toInt32 value.length then
        if d.header.next ≠ 0 then insertValue fuel d.header.next value
        else do
          let m ← readMeta
          insertValue fuel m.countOfBlock value
      else
        match d.insert value (value.length % 2 ^ 16) with
        | none => return none
        | some (d', position) => do
          store (some i) (.data d')
          return some ⟨d'.header.index, position⟩) Q t := by
  have hidx : d.header.index = i := by
    have := h.index i hlt
    rwa [hp] at this
  simp only [wp_bind, wp_readData hdirty.pooled hp]
  split
  · next hfree =>
    rw [if_neg (by rw [hw.next]; simp)]
    simp only [wp_bind, wp_readMeta h]
    exact hnext hfree
  · next hfree =>
    cases hins : d.insert value (value.length % 2 ^ 16) with
    | none => exact hnone (by omega) (insert_data hw hfree hins)
    | some q =>
      obtain ⟨d', position⟩ := q
      obtain ⟨hw', hext, hhead, hpos, hcount, o, hget, hbytes⟩ := DataBlock.insert_spec hw hins
      have hrw := Records.of_write h hdirty hp hext hw' (by rw [hhead, hidx])
      have hpage : (t.write i (.data d')).page i = .data d' := by
        rw [page_write hdirty.pooled, Function.update_self]
      simp only [wp_bind, wp_store, wp_pure]
      refine hsome d' _ _ (by omega) hrw ⟨?_, ⟨?_, ?_⟩, ?_, ?_⟩ (storable_of_insert hw hfree hins)
        (page_write hdirty.pooled _) hext hcount (by rw [hhead, hidx])
      · rw [hhead, hidx]
        exact hlt
      · have := h.count_le
        rw [hhead, hidx]
        change i < 2 ^ 32
        omega
      · have hdir := hw'.directory_le
        have hfr := hw'.free_le
        simp only [BLOCK_SIZE] at hfr
        change position < 2 ^ 16
        omega
      · exact ⟨d', o, by rw [hhead, hidx]; exact hpage, hw', hget, by simp⟩
      · intro hle
        unfold maxValueSize at hle
        have hmod : value.length % 2 ^ 16 = value.length := Nat.mod_eq_of_lt (by omega)
        rw [hmod, List.take_length] at hbytes
        exact ⟨d', o, by rw [hhead, hidx]; exact hpage, hw', hget, hbytes⟩

/-- A value that no block has room for is never stored: one fresh block after the other is
passed over. -/
private theorem wp_insertValue_endless {fuel index : Nat} (h : Heap t m)
    (hi : index ≤ m.countOfBlock) (hd : index < m.countOfBlock → IsData t.page index)
    (hlong : freshSize ≤ toInt32 value.length) (hE : E (.unreadable (2 ^ 19)))
    (hf : 2 ^ 19 < fuel + m.countOfBlock)
    (hf' : index < m.countOfBlock → 2 ^ 19 + 1 < fuel + m.countOfBlock) :
    wp E (insertValue fuel index value) Q t := by
  induction fuel generalizing t m index with
  | zero =>
    have := h.count_le
    omega
  | succ fuel ih =>
    have hgo : ∀ t₁ m₁ i d, Heap t₁ m₁ → t₁.page i = .data d → d.WF → t₁.buffer.Dirty i →
        i < m₁.countOfBlock → 2 ^ 19 < fuel + m₁.countOfBlock → wp E (do
          let d ← readData (some i)
          if d.freeSize ≤ toInt32 value.length then
            if d.header.next ≠ 0 then insertValue fuel d.header.next value
            else do
              let m ← readMeta
              insertValue fuel m.countOfBlock value
          else
            match d.insert value (value.length % 2 ^ 16) with
            | none => return none
            | some (d', position) => do
              store (some i) (.data d')
              return some ⟨d'.header.index, position⟩) Q t₁ := by
      intro t₁ m₁ i d h₁ hp hw hdirty hlt hfuel
      have hfull : ¬ toInt32 value.length < d.freeSize := by
        have := freeSize_le hw
        omega
      refine wp_insertInto h₁ hp hw hdirty hlt (fun _ ↦ ?_) (fun hfree ↦ absurd hfree hfull)
        (fun _ _ _ hfree ↦ absurd hfree hfull)
      exact ih h₁ (Nat.le_refl _) (fun hn ↦ absurd hn (Nat.lt_irrefl _)) hfuel
        (fun hn ↦ absurd hn (Nat.lt_irrefl _))
    unfold insertValue
    simp only [wp_bind, wp_readMeta h, if_neg (Nat.not_lt.mpr hi)]
    split
    · rw [wp_bind]
      refine wp_getFreeDataBlock h (fun _ ↦ hE) fun t₁ m₁ bytes ha ↦ ?_
      have hp : t₁.page m.countOfBlock =
          .data ⟨⟨.data, m.countOfBlock, 0, 0⟩, BLOCK_SIZE, [], bytes⟩ := by
        rw [ha.page, Function.update_self]
      refine hgo t₁ m₁ m.countOfBlock _ ha.heap hp
        (DataBlock.wf_init ⟨.data, m.countOfBlock, 0, 0⟩ bytes m.countOfBlock) ha.dirty ?_ ?_
      · rw [ha.count]
        omega
      · rw [ha.count]
        omega
    · have hlt : index < m.countOfBlock := by omega
      obtain ⟨d, hdp, hw⟩ := hd hlt
      rw [wp_bind]
      refine wp_getBlock h hlt fun t₁ hfe ↦ ?_
      refine hgo t₁ m index d hfe.heap (by rw [hfe.page, hdp]) hw (hfe.dirty (by decide)) hlt ?_
      have := hf' hlt
      omega

/-- A value that a fresh block has room for goes into one. -/
private theorem wp_insertValue_fresh {fuel : Nat} (h : Heap t m)
    (hshort : toInt32 value.length < freshSize) (hE : Covers E (m.countOfBlock + 1))
    (hQ : ∀ r t' m', Records t t' m m' → Inserted t'.page m' value r →
      (r ≠ none → Storable value.length) → m'.countOfBlock ≤ m.countOfBlock + 1 →
      (∀ loc, r = some loc →
        Appends t.page t'.page m.countOfBlock m'.countOfBlock loc.index) → Q r t') :
    wp E (insertValue (fuel + 1) m.countOfBlock value) Q t := by
  unfold insertValue
  simp only [wp_bind, wp_readMeta h, Nat.lt_irrefl, if_false, if_true]
  refine wp_getFreeDataBlock h hE fun t₁ m₁ bytes ha ↦ ?_
  have hw : DataBlock.WF ⟨⟨.data, m.countOfBlock, 0, 0⟩, BLOCK_SIZE, [], bytes⟩ :=
    DataBlock.wf_init ⟨.data, m.countOfBlock, 0, 0⟩ bytes m.countOfBlock
  have hr := Records.of_allocated ha hw h
  have hcount : m₁.countOfBlock ≤ m.countOfBlock + 1 := Nat.le_of_eq ha.count
  have hp : t₁.page m.countOfBlock =
      .data ⟨⟨.data, m.countOfBlock, 0, 0⟩, BLOCK_SIZE, [], bytes⟩ := by
    rw [ha.page, Function.update_self]
  refine wp_insertInto ha.heap hp hw ha.dirty ?_ ?_ ?_ ?_
  · rw [ha.count]
    omega
  · intro hfull
    rw [freeSize_init] at hfull
    omega
  · exact fun _ hneg ↦ hQ none t₁ m₁ hr hneg (fun hne ↦ absurd rfl hne) hcount fun _ h ↦ by cases h
  · intro d' loc t' _ hr' hin hst hpage hext hmore hloc
    refine hQ _ t' m₁ (hr.trans hr') hin (fun _ ↦ hst) hcount ?_
    rintro _ ⟨⟩
    refine ⟨fun i hi0 hij ↦ ?_, _, d', .inr ⟨rfl, hloc, ha.count⟩, ?_, hext, hmore⟩
    · rw [hloc] at hij
      rw [hpage, Function.update_of_ne hij, ha.page, Function.update_of_ne hij,
        Function.update_of_ne hi0]
    · rw [hpage, hloc, Function.update_self]

/-- `insertValue` stores the value in the given data block or in a fresh one, unless no block
has room for it. -/
theorem wp_insertValue {index : Nat} (h : Heap t m) (hi : index ≤ m.countOfBlock)
    (hd : index < m.countOfBlock → IsData t.page index)
    (hE : Covers E (m.countOfBlock + blocksFor value))
    (hQ : ∀ r t' m', Records t t' m m' → Inserted t'.page m' value r →
      (r ≠ none → Storable value.length) →
      m'.countOfBlock ≤ m.countOfBlock + blocksFor value →
      (∀ loc, r = some loc →
        Appends t.page t'.page m.countOfBlock m'.countOfBlock loc.index) → Q r t') :
    wp E (insertValue insertValueFuel index value) Q t := by
  have hpos := h.count_pos
  have hfuel : insertValueFuel = 2 ^ 19 + 2 := rfl
  revert hfuel
  generalize insertValueFuel = fuel
  intro hfuel
  by_cases hshort : toInt32 value.length < freshSize
  · have hone : blocksFor value = 1 := if_pos hshort
    rw [hone] at hE hQ
    by_cases hic : index = m.countOfBlock
    · subst hic
      obtain ⟨f, rfl⟩ : ∃ f, fuel = f + 1 := ⟨fuel - 1, by omega⟩
      exact wp_insertValue_fresh h hshort hE hQ
    obtain ⟨f, rfl⟩ : ∃ f, fuel = f + 2 := ⟨fuel - 2, by omega⟩
    have hlt : index < m.countOfBlock := by omega
    obtain ⟨d, hdp, hw⟩ := hd hlt
    unfold insertValue
    simp only [wp_bind, wp_readMeta h, if_neg (Nat.not_lt.mpr hi), if_neg hic]
    refine wp_getBlock h hlt fun t₁ hfe ↦ ?_
    have hr := Records.of_fetched hfe
    have hp : t₁.page index = .data d := by rw [hfe.page, hdp]
    refine wp_insertInto hfe.heap hp hw (hfe.dirty (by decide)) hlt ?_ ?_ ?_
    · intro _
      refine wp_insertValue_fresh hfe.heap hshort hE fun r t' m' hr' hin hst hcount hap ↦ ?_
      exact hQ r t' m' (hr.trans hr') hin hst hcount (hfe.page ▸ hap)
    · exact fun _ hneg ↦ hQ none t₁ m hr hneg (fun hne ↦ absurd rfl hne) (Nat.le_succ _)
        fun _ h ↦ by cases h
    · intro d' loc t' _ hr' hin hst hpage hext hmore hloc
      refine hQ _ t' m (hr.trans hr') hin (fun _ ↦ hst) (Nat.le_succ _) ?_
      rintro _ ⟨⟩
      refine ⟨fun i _ hij ↦ ?_, d, d', .inl ⟨by rw [hloc, hdp], hloc ▸ hlt, rfl⟩, ?_, hext, hmore⟩
      · rw [hloc] at hij
        rw [hpage, Function.update_of_ne hij, hfe.page]
      · rw [hpage, hloc, Function.update_self]
  · have hall : blocksFor value = 2 ^ 19 := if_neg hshort
    refine wp_insertValue_endless h hi hd (by omega) (hE (by omega)) (by omega) fun _ ↦ by omega

end Insertion

/-- `getValue` finds a stored value. -/
theorem wp_getValue {E : Fault → Prop} {loc : Location} {value : List UInt8}
    {Q : Option (Nat → UInt8) → BTree K → Prop} (h : Heap t m)
    (hl : loc.index < m.countOfBlock) (hs : StoredAt t.page loc value)
    (hQ : ∀ t' p, Later t t' → Heap t' m → t'.page = t.page →
      (∀ i (hi : i < value.length), p i = value[i]) → Q (some p) t') :
    wp E (getValue loc) Q t := by
  obtain ⟨d, o, hd, _, hg, hb⟩ := hs
  unfold getValue
  simp only [wp_bind, wp_readMeta h, if_pos hl]
  refine wp_getBlock h hl fun t₁ hfe ↦ ?_
  have hd₁ : t₁.page loc.index = .data d := by rw [hfe.page, hd]
  simp only [wp_bind, wp_readData hfe.pooled hd₁, wp_pure, hg, Option.map_some]
  exact hQ t₁ _ hfe.later hfe.heap hfe.page hb

end BTree

end ExampleEngine.Index
