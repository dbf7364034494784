import ExampleEngine.Base.Lexicographic
import ExampleEngine.Handler.Schema
import ExampleEngine.Index.Invariant

/-!
# Laws of keys and key comparison

Library `Handler`. When every `key_cmp` is a total preorder on the images of its column, the
comparators of `src/ha_example.cc:200–279` are total preorders on the keys they are given,
keys are as long as their buffers, and a search key with the marker 0x80 or 0x40 stands
before or after the entries with its columns.
-/

namespace ExampleEngine.Handler

open ExampleEngine.Base ExampleEngine.Index

/-- The bytes that the images of some key parts take. -/
def storeLength (ps : List KeyPartInfo) : Nat := (ps.map KeyPartInfo.storeLength).sum

theorem KeyPartInfo.storeLength_off (p : KeyPartInfo) :
    p.storeLength = p.off + p.length + p.pad := p.storeLength_eq

theorem KeyInfo.storeLength_parts (k : KeyInfo) : storeLength k.parts = k.keyLength :=
  k.keyLength_eq.symm

section Parts

variable {ps : List KeyPartInfo} {a a' b b' : Key}

theorem compareParts_cons (p : KeyPartInfo) (ps : List KeyPartInfo) :
    compareParts (p :: ps) = lexicographic (fun a b ↦ p.keyCmp (p.image a) (p.image b))
      fun a b ↦ compareParts ps (a.drop p.storeLength) (b.drop p.storeLength) := rfl

theorem storeLength_cons (p : KeyPartInfo) (ps : List KeyPartInfo) :
    storeLength (p :: ps) = p.storeLength + storeLength ps := List.sum_cons

/-- The comparison of key parts is a total preorder on keys that hold all images. -/
theorem comparison_parts
    (h : ∀ p ∈ ps, Comparison p.keyCmp fun a ↦ a.length = p.length + p.pad) :
    Comparison (compareParts ps) fun a ↦ storeLength ps ≤ a.length := by
  induction ps with
  | nil => exact .zero
  | cons p ps ih =>
    have hp := p.storeLength_off
    rw [compareParts_cons]
    refine .lexicographic ?_ fun r _ ↦ ?_
    · refine ((h p (by simp)).comap p.image).mono fun a ha ↦ ?_
      rw [storeLength_cons] at ha
      unfold KeyPartInfo.image
      rw [List.length_take, List.length_drop]
      omega
    · refine ((ih fun q hq ↦ h q (by simp [hq])).comap (List.drop p.storeLength)).mono ?_
      rintro a ⟨ha, _⟩
      rw [storeLength_cons] at ha
      rw [List.length_drop]
      omega

private theorem take_of_take {n k : Nat} (hk : k ≤ n) (h : a.take n = a'.take n) :
    a.take k = a'.take k := by
  have := congrArg (List.take k) h
  rwa [List.take_take, List.take_take, Nat.min_eq_left hk] at this

private theorem drop_of_take {n k : Nat} (h : a.take (k + n) = a'.take (k + n)) :
    (a.drop k).take n = (a'.drop k).take n := by
  have := congrArg (List.drop k) h
  rwa [List.drop_take, List.drop_take, Nat.add_sub_cancel_left] at this

/-- The comparison reads the images and nothing behind them. -/
theorem compareParts_congr (ha : a.take (storeLength ps) = a'.take (storeLength ps))
    (hb : b.take (storeLength ps) = b'.take (storeLength ps)) :
    compareParts ps a b = compareParts ps a' b' := by
  induction ps generalizing a a' b b' with
  | nil => rfl
  | cons p ps ih =>
    rw [storeLength_cons] at ha hb
    have himage : ∀ {x x' : Key}, x.take (p.storeLength + storeLength ps) =
        x'.take (p.storeLength + storeLength ps) → p.image x = p.image x' := by
      intro x x' hx
      have hp := p.storeLength_off
      refine drop_of_take (take_of_take (by omega) hx)
    rw [compareParts_cons]
    simp only [lexicographic, himage ha, himage hb, ih (drop_of_take ha) (drop_of_take hb)]

private theorem length_keyCopy_take (record : Record) (n : Nat) (hn : n ≤ ps.length) :
    (keyCopy record ps (storeLength (ps.take n))).length = storeLength (ps.take n) := by
  induction ps generalizing n with
  | nil => simp [keyCopy, storeLength]
  | cons p ps ih =>
    cases n with
    | zero => simp [keyCopy, storeLength]
    | succ n =>
      have hp := p.storeLength_off
      rw [List.take_succ_cons, storeLength_cons]
      unfold keyCopy
      split
      · next h => rw [h, List.length_nil]
      · have hnull : ∀ x : Key, (if p.nullBit ≠ 0 then [if record.bytes p.nullOffset &&&
            p.nullBit ≠ 0 then (1 : UInt8) else 0] else []).length = p.off := by
          intro _
          unfold KeyPartInfo.off
          split <;> rfl
        have hmin : min (p.storeLength + storeLength (ps.take n) - p.off - p.pad) p.length =
            p.length := by omega
        have hrest : p.storeLength + storeLength (ps.take n) - p.off - p.pad - p.length =
            storeLength (ps.take n) := by omega
        simp only [List.length_append, List.length_map, List.length_range,
          List.length_replicate, hnull [], hmin, hrest]
        rw [ih n (by simpa using hn)]
        omega

/-- The copied columns of a key are as long as the key. -/
theorem length_keyCopy (k : KeyInfo) {record : Record} :
    (keyCopy record k.keyPart k.keyLength).length = k.keyLength := by
  have h := length_keyCopy_take record k.userDefinedKeyParts k.parts_le
  have hk : storeLength (k.keyPart.take k.userDefinedKeyParts) = k.keyLength :=
    k.keyLength_eq.symm
  rwa [hk] at h

end Parts

section Numbers

/-- The number of a key after masking. -/
def indexOf (a : Key) : Nat := (a.headD 0 &&& 0x3f).toNat

theorem byte_number : ∀ i < 64, (UInt8.ofNat i &&& 0x3f).toNat = i ∧
    (UInt8.ofNat i &&& 0x7f).toNat = i ∧ UInt8.ofNat i &&& 0x80 = 0 ∧
    UInt8.ofNat i &&& 0x40 = 0 := by decide

theorem byte_first : ∀ i < 64, ((UInt8.ofNat i ||| 0x80) &&& 0x3f).toNat = i ∧
    ((UInt8.ofNat i ||| 0x80) &&& 0x7f).toNat = i ∧ (UInt8.ofNat i ||| 0x80) &&& 0x80 ≠ 0 ∧
    (UInt8.ofNat i ||| 0x80) &&& 0x40 = 0 := by decide

theorem byte_last : ∀ i < 64, ((UInt8.ofNat i ||| 0x40) &&& 0x3f).toNat = i ∧
    (UInt8.ofNat i ||| 0x40) &&& 0x40 ≠ 0 := by decide

end Numbers

namespace TableShare

variable (share : TableShare)

/-- Every `key_cmp` is a total preorder on the images of its column. -/
def Ordered : Prop :=
  ∀ i < share.keys, ∀ p ∈ (share.keyInfo i).parts,
    Comparison p.keyCmp fun a ↦ a.length = p.length + p.pad

/-- Keys of the primary tree. -/
def PrimaryKey (a : Key) : Prop := share.primaryKeyLength ≤ a.length

/-- Keys of the secondary tree: as long as the buffer, after an index number. -/
def EntryKey (a : Key) : Prop :=
  a.length = share.primaryKeyLength + share.maxSecondKeyLength + 1 ∧
    ∃ i, 1 ≤ i ∧ i < share.keys ∧ a.headD 0 = UInt8.ofNat i

/-- Search keys of the secondary tree: the columns of an index, after its number. -/
def SearchKey (a : Key) : Prop :=
  1 ≤ indexOf a ∧ indexOf a < share.keys ∧
    1 + (share.keyInfo (indexOf a)).keyLength ≤ a.length

/-- The columns of an entry against those of another of the same index. -/
def columnsCompare (a b : Key) : Int :=
  compareParts (share.keyInfo (indexOf a)).parts (a.drop 1) (b.drop 1)

/-- Index numbers, then columns. -/
def entryCompare : Key → Key → Int :=
  lexicographic (fun a b ↦ (indexOf a : Int) - indexOf b) share.columnsCompare

/-- The primary key of an entry. -/
def rowOf (a : Key) : Key := a.drop (1 + (share.keyInfo (indexOf a)).keyLength)

variable {share} {a b : Key} {i : Nat} {record : Record}

theorem keyLength_le_max (h1 : 1 ≤ i) (hi : i < share.keys) :
    (share.keyInfo i).keyLength ≤ share.maxSecondKeyLength := by
  have hmono : ∀ (l : List Nat) (m : Nat),
      m ≤ l.foldl (fun m i ↦ max m (share.keyInfo i).keyLength) m := by
    intro l
    induction l with
    | nil => exact fun m ↦ Nat.le_refl m
    | cons j l ih => exact fun m ↦ Nat.le_trans (Nat.le_max_left ..) (ih _)
  have hmem : ∀ (l : List Nat) (m : Nat), i ∈ l →
      (share.keyInfo i).keyLength ≤ l.foldl (fun m i ↦ max m (share.keyInfo i).keyLength) m := by
    intro l
    induction l with
    | nil => exact fun m h ↦ nomatch h
    | cons j l ih =>
      intro m h
      rcases List.mem_cons.mp h with rfl | h
      · exact Nat.le_trans (Nat.le_max_right ..) (hmono l _)
      · exact ih _ h
  refine hmem _ 0 (List.mem_range'_1.mpr ?_)
  omega

theorem maxSecondKeyLength_le (share : TableShare) : share.maxSecondKeyLength ≤ 560 := by
  have hle : ∀ (l : List Nat) (m : Nat), m ≤ 560 →
      l.foldl (fun m i ↦ max m (share.keyInfo i).keyLength) m ≤ 560 := by
    intro l
    induction l with
    | nil => exact fun m h ↦ h
    | cons j l ih => exact fun m h ↦ ih _ (Nat.max_le.mpr ⟨h, (share.keyInfo j).keyLength_le⟩)
  exact hle _ 0 (by omega)

/-- Nodes of the tree of rows are wide. -/
theorem primary_wide (share : TableShare) : share.primary.Wide := by
  have h := (share.keyInfo 0).keyLength_le
  rw [Config.wide_iff]
  constructor <;>
  · rw [Config.capacity, Nat.le_div_iff_mul_le (by simp [Config.valueSizeAt, primary])]
    simp [primary, primaryKeyLength, Config.valueSizeAt, Config.leafValueSize,
      Config.nodeValueSize, Storage.BLOCK_SIZE]
    omega

/-- Nodes of the tree of entries are wide. -/
theorem second_wide (share : TableShare) : share.second.Wide := by
  have h := (share.keyInfo 0).keyLength_le
  have h' := share.maxSecondKeyLength_le
  rw [Config.wide_iff]
  constructor <;>
  · rw [Config.capacity, Nat.le_div_iff_mul_le (by simp [Config.valueSizeAt, second])]
    simp [second, primaryKeyLength, Config.valueSizeAt, Config.leafValueSize,
      Config.nodeValueSize, Storage.BLOCK_SIZE]
    omega

/-- Numbers of entries are numbers of indexes. -/
theorem EntryKey.indexOf (h : share.EntryKey a) : ∃ i, indexOf a = i ∧ 1 ≤ i ∧ i < share.keys ∧
    a.headD 0 = UInt8.ofNat i := by
  obtain ⟨_, i, h1, hi, hhead⟩ := h
  have hk := share.keys_le
  refine ⟨i, ?_, h1, hi, hhead⟩
  unfold Handler.indexOf
  rw [hhead]
  exact (byte_number i (by omega)).1

/-- Entries can be searched for. -/
theorem EntryKey.searchKey (h : share.EntryKey a) : share.SearchKey a := by
  obtain ⟨i, hidx, h1, hi, _⟩ := h.indexOf
  have hle := keyLength_le_max h1 hi
  have hlen := h.1
  refine ⟨by omega, by omega, ?_⟩
  rw [hidx]
  omega

/-- Entries hold a primary key. -/
theorem EntryKey.rowOf (h : share.EntryKey a) : share.PrimaryKey (share.rowOf a) := by
  obtain ⟨i, hidx, h1, hi, _⟩ := h.indexOf
  have hle := keyLength_le_max h1 hi
  have hlen := h.1
  unfold PrimaryKey TableShare.rowOf
  rw [List.length_drop, hidx]
  omega

/-- The comparator of rows is a total preorder. -/
theorem Ordered.primary (h : share.Ordered) :
    Comparison share.primaryKeyCompare share.PrimaryKey := by
  have hparts := comparison_parts (h 0 share.keys_pos)
  rwa [KeyInfo.storeLength_parts] at hparts

/-- Comparing numbers and columns is a total preorder. -/
theorem Ordered.entry (h : share.Ordered) : Comparison share.entryCompare share.SearchKey := by
  refine .lexicographic (.sub _) fun r hr ↦ ?_
  have hparts := (comparison_parts (h (Handler.indexOf r) hr.2.1)).comap (List.drop 1)
  have hsub : ∀ x, share.SearchKey x ∧ (Handler.indexOf r : Int) - Handler.indexOf x = 0 →
      storeLength (share.keyInfo (Handler.indexOf r)).parts ≤ (x.drop 1).length := by
    rintro x ⟨hx, hrx⟩
    have hidx : Handler.indexOf x = Handler.indexOf r := by omega
    have := hx.2.2
    rw [KeyInfo.storeLength_parts, List.length_drop]
    rw [hidx] at this
    omega
  refine (hparts.mono hsub).congr ?_
  rintro x y ⟨_, hx⟩ _
  have hidx : Handler.indexOf x = Handler.indexOf r := by omega
  unfold columnsCompare
  rw [hidx]

/-- The comparator of entries, by what the search key holds after its columns. -/
theorem secondKeyCompare_eq (share : TableShare) (a b : Key) :
    share.secondKeyCompare a b = lexicographic share.entryCompare (fun a b ↦
      if b.headD 0 &&& 0x40 ≠ 0 then -1
      else if b.headD 0 &&& 0x80 ≠ 0 then 1
      else share.primaryKeyCompare (share.rowOf a) (share.rowOf b)) a b := by
  unfold secondKeyCompare lexicographic entryCompare lexicographic
  change (if Handler.indexOf a ≠ Handler.indexOf b then
    (Handler.indexOf a : Int) - Handler.indexOf b else _) = _
  by_cases hidx : Handler.indexOf a = Handler.indexOf b
  · have hlen : ((share.keyInfo (Handler.indexOf a)).parts.map
        KeyPartInfo.storeLength).sum = (share.keyInfo (Handler.indexOf a)).keyLength :=
      KeyInfo.storeLength_parts _
    have hrows : share.primaryKeyCompare
        (((a.drop 1).drop ((share.keyInfo (Handler.indexOf a)).parts.map
          KeyPartInfo.storeLength).sum))
        (((b.drop 1).drop ((share.keyInfo (Handler.indexOf a)).parts.map
          KeyPartInfo.storeLength).sum)) =
        share.primaryKeyCompare (share.rowOf a) (share.rowOf b) := by
      unfold TableShare.rowOf
      rw [hlen, List.drop_drop, List.drop_drop, ← hidx]
    have hzero : ¬ ((Handler.indexOf a : Int) - Handler.indexOf b ≠ 0) := by omega
    rw [if_neg (by simpa using hidx), if_neg hzero]
    change (if compareParts (share.keyInfo (Handler.indexOf a)).parts (a.drop 1)
      (b.drop 1) ≠ 0 then _ else _) = if compareParts (share.keyInfo (Handler.indexOf a)).parts
        (a.drop 1) (b.drop 1) ≠ 0 then _ else _
    simp only [← hrows]
    rfl
  · have hne : (Handler.indexOf a : Int) - Handler.indexOf b ≠ 0 := by omega
    rw [if_pos hidx, if_pos hne, if_pos hne]

/-- Entries are compared by numbers, columns and rows. -/
theorem EntryKey.secondKeyCompare_eq (hb : share.EntryKey b) :
    share.secondKeyCompare a b = lexicographic share.entryCompare
      (fun a b ↦ share.primaryKeyCompare (share.rowOf a) (share.rowOf b)) a b := by
  obtain ⟨j, _, _, hj, hhead⟩ := hb.indexOf
  have hbyte := byte_number j (Nat.lt_of_lt_of_le hj share.keys_le)
  rw [TableShare.secondKeyCompare_eq]
  simp only [lexicographic, hhead, hbyte.2.2.1, hbyte.2.2.2, ne_eq, not_true_eq_false, if_false]

/-- Entries are in order of index numbers. -/
theorem EntryKey.indexOf_le (hb : share.EntryKey b) (h : share.secondKeyCompare a b ≤ 0) :
    Handler.indexOf a ≤ Handler.indexOf b := by
  rw [hb.secondKeyCompare_eq] at h
  have := le_of_lexicographic (le_of_lexicographic h)
  omega

/-- The comparator of entries is a total preorder. -/
theorem Ordered.second (h : share.Ordered) : Comparison share.secondKeyCompare share.EntryKey := by
  refine Comparison.congr ?_ fun a b _ hb ↦ hb.secondKeyCompare_eq
  refine .lexicographic (h.entry.mono fun _ ha ↦ ha.searchKey) fun r _ ↦ ?_
  exact (h.primary.comap share.rowOf).mono fun a ha ↦ ha.1.rowOf

/-- Entries are equal when their numbers, columns and rows are. -/
theorem EntryKey.eq_zero_iff (hb : share.EntryKey b) : share.secondKeyCompare a b = 0 ↔
    share.entryCompare a b = 0 ∧ share.primaryKeyCompare (share.rowOf a) (share.rowOf b) = 0 := by
  rw [hb.secondKeyCompare_eq, lexicographic_eq_zero]

/-- Equal by number and columns means of the same index. -/
theorem indexOf_eq (h : share.entryCompare a b = 0) :
    Handler.indexOf a = Handler.indexOf b := by
  have := (lexicographic_eq_zero.mp h).1
  omega

/-- A search key of an index with a marker: 0x80 to stand before its entries, 0x40 to stand
after them. -/
def MarkedKey (share : TableShare) (i : Nat) (flag : UInt8) (k : Key) : Prop :=
  1 ≤ i ∧ i < share.keys ∧ k.headD 0 = UInt8.ofNat i ||| flag ∧
    1 + (share.keyInfo i).keyLength ≤ k.length

/-- A search key with 0x80 stands before the entries with its columns. -/
theorem marks_first {k : Key} (hk : share.MarkedKey i 0x80 k) :
    share.SearchKey k ∧ Handler.indexOf k = i ∧
      Marks share.secondKeyCompare share.entryCompare (fun _ ↦ True) k 1 := by
  obtain ⟨h1, hi, hhead, hlen⟩ := hk
  have hbyte := byte_first i (Nat.lt_of_lt_of_le hi share.keys_le)
  have hidx : Handler.indexOf k = i := by
    unfold Handler.indexOf
    rw [hhead]
    exact hbyte.1
  refine ⟨⟨by omega, by omega, by rwa [hidx]⟩, hidx, fun a _ ↦ ?_⟩
  rw [secondKeyCompare_eq]
  simp only [lexicographic, hhead, hbyte.2.2.2, ne_eq, not_true_eq_false, if_false]
  rw [if_pos hbyte.2.2.1]

/-- A search key with 0x40 stands after the entries with its columns. -/
theorem marks_last {k : Key} (hk : share.MarkedKey i 0x40 k) :
    share.SearchKey k ∧ Handler.indexOf k = i ∧
      Marks share.secondKeyCompare share.entryCompare (fun _ ↦ True) k (-1) := by
  obtain ⟨h1, hi, hhead, hlen⟩ := hk
  have hbyte := byte_last i (Nat.lt_of_lt_of_le hi share.keys_le)
  have hidx : Handler.indexOf k = i := by
    unfold Handler.indexOf
    rw [hhead]
    exact hbyte.1
  refine ⟨⟨by omega, by omega, by rwa [hidx]⟩, hidx, fun a _ ↦ ?_⟩
  rw [secondKeyCompare_eq]
  simp only [lexicographic, hhead]
  rw [if_pos hbyte.2]

/-- The prefix comparison tells numbers and columns of an entry and a marked search key. -/
theorem secondKeyComparePrefix_eq {k : Key} (ha : share.EntryKey a)
    (hk : share.MarkedKey i 0x80 k) :
    share.secondKeyComparePrefix a k = share.entryCompare a k := by
  obtain ⟨j, hj, _, hjk, hhead⟩ := ha.indexOf
  obtain ⟨_, hi, hheadk, _⟩ := hk
  have hkeys := share.keys_le
  have hbyte := byte_number j (by omega)
  have hbytek := byte_first i (by omega)
  have hidx : Handler.indexOf k = i := by
    unfold Handler.indexOf
    rw [hheadk]
    exact hbytek.1
  unfold secondKeyComparePrefix entryCompare lexicographic columnsCompare
  simp only [hhead, hheadk, hbyte.2.1, hbytek.2.1, hidx, hj]
  by_cases h : j = i
  · rw [if_neg (by simpa using h), if_neg (by omega)]
  · rw [if_pos h, if_pos (by omega)]

/-- A marked search key bisects the entries. -/
theorem probe_of_marks {E : Type} {key : E → Key} {es : List E} {k : Key} {sign : Int}
    (h : share.Ordered) (hs : Sorted share.secondKeyCompare key es)
    (hes : ∀ e ∈ es, share.EntryKey (key e)) (hk : share.SearchKey k) (hsign : sign ≠ 0)
    (hm : Marks share.secondKeyCompare share.entryCompare (fun _ ↦ True) k sign) :
    Probe share.secondKeyCompare key k es := by
  refine hs.probe_marker h.entry (fun a b _ hb hab ↦ ?_) (fun _ ha ↦ ha.searchKey) hes hk hsign
    fun a _ ↦ hm a trivial
  rw [EntryKey.secondKeyCompare_eq hb] at hab
  exact le_of_lexicographic (Int.le_of_lt hab)

section Packed

variable (share)

/-- The primary key of a record. -/
def primaryKey (record : Record) : Key :=
  keyCopy record (share.keyInfo 0).keyPart (share.keyInfo 0).keyLength

variable {share}

theorem length_primaryKey : (share.primaryKey record).length = share.primaryKeyLength :=
  length_keyCopy _

theorem primaryKey_primaryKey : share.PrimaryKey (share.primaryKey record) :=
  Nat.le_of_eq length_primaryKey.symm

/-- The comparator of rows reads the primary key and nothing behind it. -/
theorem primaryKeyCompare_congr {a a' b b' : Key}
    (ha : a.take share.primaryKeyLength = a'.take share.primaryKeyLength)
    (hb : b.take share.primaryKeyLength = b'.take share.primaryKeyLength) :
    share.primaryKeyCompare a b = share.primaryKeyCompare a' b' := by
  refine compareParts_congr ?_ ?_ <;> rwa [KeyInfo.storeLength_parts]

/-- The packed key of number 0 is the primary key, padded. -/
theorem packKey_zero : share.packKey 0 record = share.primaryKey record ++
    List.replicate (share.maxSecondKeyLength + 1) 0 := by
  unfold packKey memcpy primaryKey
  simp only [ne_eq, not_true_eq_false, if_false, List.drop_replicate, length_keyCopy]
  congr 2
  unfold primaryKeyLength
  omega

theorem packKey_zero_take :
    (share.packKey 0 record).take share.primaryKeyLength = share.primaryKey record := by
  rw [packKey_zero, List.take_left' length_primaryKey]

/-- The padding is not compared. -/
theorem primaryKeyCompare_packKey :
    share.primaryKeyCompare a (share.packKey 0 record) =
      share.primaryKeyCompare a (share.primaryKey record) := by
  refine primaryKeyCompare_congr rfl ?_
  rw [packKey_zero_take, List.take_of_length_le (Nat.le_of_eq length_primaryKey)]

theorem primaryKey_packKey : share.PrimaryKey (share.packKey 0 record) := by
  unfold PrimaryKey
  rw [packKey_zero, List.length_append, length_primaryKey]
  omega

/-- The packed key of another number is the number, the columns and the primary key, padded. -/
theorem packKey_pos (h1 : 1 ≤ i) : share.packKey i record = UInt8.ofNat i ::
    (keyCopy record (share.keyInfo i).keyPart (share.keyInfo i).keyLength ++
      (share.primaryKey record ++ List.replicate
        (share.maxSecondKeyLength - (share.keyInfo i).keyLength) 0)) := by
  have h0 : i ≠ 0 := by omega
  unfold packKey memcpy primaryKey
  simp only [h0, ne_eq, not_false_eq_true, if_true, List.cons_append, List.append_assoc,
    List.length_cons, List.length_append, length_keyCopy, List.drop_replicate]
  congr 4
  unfold primaryKeyLength
  omega

/-- It is an entry of that index. -/
theorem packKey_entryKey (record : Record) (h1 : 1 ≤ i) (hi : i < share.keys) :
    share.EntryKey (share.packKey i record) ∧ Handler.indexOf (share.packKey i record) = i := by
  have hle := keyLength_le_max h1 hi
  have hkeys := share.keys_le
  have hhead : (share.packKey i record).headD 0 = UInt8.ofNat i := by
    rw [packKey_pos h1]
    rfl
  refine ⟨⟨?_, i, h1, hi, hhead⟩, ?_⟩
  · rw [packKey_pos h1]
    simp only [List.length_append, List.length_cons, List.length_replicate, length_keyCopy,
      length_primaryKey]
    omega
  · unfold Handler.indexOf
    rw [hhead]
    exact (byte_number i (by omega)).1

/-- It ends with the primary key, padded. -/
theorem rowOf_packKey (h1 : 1 ≤ i) (hi : i < share.keys) :
    (share.rowOf (share.packKey i record)).take share.primaryKeyLength =
      share.primaryKey record := by
  have hidx := (packKey_entryKey record h1 hi).2
  unfold rowOf
  rw [hidx, packKey_pos h1, Nat.add_comm, List.drop_succ_cons, List.drop_left' (length_keyCopy _)]
  exact List.take_left' length_primaryKey

/-- An entry belongs to a record when it is equal to the packed key of its index. -/
theorem eq_packKey_iff (h1 : 1 ≤ i) (hi : i < share.keys) :
    share.secondKeyCompare a (share.packKey i record) = 0 ↔
      share.entryCompare a (share.packKey i record) = 0 ∧
      share.primaryKeyCompare (share.rowOf a) (share.primaryKey record) = 0 := by
  have hrow : share.primaryKeyCompare (share.rowOf a) (share.rowOf (share.packKey i record)) =
      share.primaryKeyCompare (share.rowOf a) (share.primaryKey record) := by
    refine primaryKeyCompare_congr rfl ?_
    rw [rowOf_packKey h1 hi, List.take_of_length_le (Nat.le_of_eq length_primaryKey)]
  rw [(packKey_entryKey record h1 hi).1.eq_zero_iff, hrow]

end Packed

end TableShare

end ExampleEngine.Handler
