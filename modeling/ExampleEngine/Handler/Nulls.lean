import ExampleEngine.Handler.Records
import ExampleEngine.Handler.Table

/-!
# NULL in secondary keys

Library `Handler`. `pack_key` of `src/ha_example.cc:290–335` writes a null byte before the
image of a nullable column and copies the column's bytes in any case; `second_key_compare` of
`src/ha_example.cc:247–279` skips the null byte and compares these bytes.
-/

namespace ExampleEngine.Handler

open ExampleEngine.Base ExampleEngine.Index

namespace KeyPartInfo

/-- The image that is copied for a column, whether it is NULL or not. -/
def data (p : KeyPartInfo) (record : Record) : List UInt8 :=
  ((List.range p.length).map fun i ↦ record.bytes (p.offset + i)) ++ List.replicate p.pad 0

/-- The null byte that is written for a column that has one. -/
def nullByte (p : KeyPartInfo) (record : Record) : Key :=
  if p.nullBit ≠ 0 then [if record.bytes p.nullOffset &&& p.nullBit ≠ 0 then 1 else 0] else []

/-- The column is NULL in both records, or in neither and the values are equal. -/
def Agree (p : KeyPartInfo) (r r' : Record) : Prop :=
  p.IsNull r ∧ p.IsNull r' ∨ ¬ p.IsNull r ∧ ¬ p.IsNull r' ∧ p.keyCmp (p.data r) (p.data r') = 0

end KeyPartInfo

/-- The comparison of the columns of two records, as they are copied. -/
def compareData (ps : List KeyPartInfo) (r r' : Record) : Int :=
  match ps with
  | [] => 0
  | p :: ps =>
    let cmp := p.keyCmp (p.data r) (p.data r')
    if cmp ≠ 0 then cmp else compareData ps r r'

section Images

variable {ps : List KeyPartInfo} {p : KeyPartInfo} {r r' : Record} {x y : Key}

theorem compareData_eq_zero :
    compareData ps r r' = 0 ↔ ∀ p ∈ ps, p.keyCmp (p.data r) (p.data r') = 0 := by
  induction ps with
  | nil => simp [compareData]
  | cons p ps ih =>
    unfold compareData
    simp only [List.mem_cons, forall_eq_or_imp, ← ih]
    split
    · next h => exact ⟨fun h0 ↦ absurd h0 h, fun h0 ↦ absurd h0.1 h⟩
    · next h => exact ⟨fun h0 ↦ ⟨not_not.mp h, h0⟩, fun h0 ↦ h0.2⟩

theorem KeyPartInfo.length_data : (p.data r).length = p.length + p.pad := by
  unfold KeyPartInfo.data
  simp

theorem KeyPartInfo.length_nullByte : (p.nullByte r).length = p.off := by
  unfold nullByte off
  split <;> rfl

/-- A copied key starts with the null byte of its first column, if any, and its image. -/
theorem keyCopy_cons (r : Record) (p : KeyPartInfo) (ps : List KeyPartInfo) (n : Nat) :
    keyCopy r (p :: ps) (p.storeLength + n) = p.nullByte r ++ (p.data r ++ keyCopy r ps n) := by
  have hp := p.storeLength_off
  have hnull := p.length_nullByte (r := r)
  by_cases h0 : p.storeLength + n = 0
  · have hdata : p.data r = [] := List.length_eq_zero_iff.mp (by rw [p.length_data]; omega)
    have hbyte : p.nullByte r = [] := List.length_eq_zero_iff.mp (by rw [hnull]; omega)
    have hrest : keyCopy r ps n = [] := by
      obtain rfl : n = 0 := by omega
      cases ps <;> simp [keyCopy]
    simp [keyCopy, h0, hdata, hbyte, hrest]
  · unfold KeyPartInfo.nullByte at hnull ⊢
    have hmin : min (p.storeLength + n - p.off - p.pad) p.length = p.length := by omega
    have hrest : p.storeLength + n - p.off - p.pad - p.length = n := by omega
    conv_lhs => unfold keyCopy
    unfold KeyPartInfo.data
    simp only [h0, if_false, hnull, hmin, hrest, List.append_assoc]

/-- Copied keys are compared by the images of their columns, whatever the null bytes are. -/
theorem compareParts_keyCopy (n : Nat) :
    compareParts (ps.take n) (keyCopy r ps (storeLength (ps.take n)) ++ x)
      (keyCopy r' ps (storeLength (ps.take n)) ++ y) = compareData (ps.take n) r r' := by
  induction ps generalizing n with
  | nil => simp [compareParts, compareData]
  | cons p ps ih =>
    cases n with
    | zero => simp [compareParts, compareData]
    | succ n =>
      have himage : ∀ (rest : Key) (r : Record),
          p.image (p.nullByte r ++ (p.data r ++ rest)) = p.data r ∧
          (p.nullByte r ++ (p.data r ++ rest)).drop p.storeLength = rest := by
        intro rest r
        have hp := p.storeLength_off
        have hnull := p.length_nullByte (r := r)
        have hdata := p.length_data (r := r)
        constructor
        · unfold KeyPartInfo.image
          rw [List.drop_left' hnull, List.take_left' (by omega)]
        · rw [← List.append_assoc, List.drop_left' (by rw [List.length_append]; omega)]
      rw [List.take_succ_cons, storeLength_cons]
      rw [keyCopy_cons, keyCopy_cons, List.append_assoc, List.append_assoc, List.append_assoc,
        List.append_assoc]
      unfold compareParts compareData
      obtain ⟨h1, h2⟩ := himage (keyCopy r ps (storeLength (ps.take n)) ++ x) r
      obtain ⟨h1', h2'⟩ := himage (keyCopy r' ps (storeLength (ps.take n)) ++ y) r'
      rw [h1, h2, h1', h2', ih n]

end Images

namespace TableShare

variable {share : TableShare} {i j : Nat} {r r' : Record}

private theorem columnsCompare_packKey (hi : 1 ≤ i ∧ i < share.keys) :
    share.columnsCompare (share.packKey i r) (share.packKey i r') =
      compareData (share.keyInfo i).parts r r' := by
  have hidx := (packKey_entryKey r hi.1 hi.2).2
  unfold columnsCompare
  rw [hidx, packKey_pos hi.1, packKey_pos hi.1, List.drop_one, List.drop_one, List.tail_cons,
    List.tail_cons, (share.keyInfo i).keyLength_eq]
  exact compareParts_keyCopy _

/-- Primary keys are compared by the images of their columns. -/
theorem primaryKeyCompare_primaryKey :
    share.primaryKeyCompare (share.primaryKey r) (share.primaryKey r') =
      compareData (share.keyInfo 0).parts r r' := by
  have hcopy : ∀ r : Record, share.primaryKey r = keyCopy r (share.keyInfo 0).keyPart
      (storeLength ((share.keyInfo 0).keyPart.take (share.keyInfo 0).userDefinedKeyParts))
        ++ [] := by
    intro r
    rw [List.append_nil]
    exact congrArg (keyCopy r _) (share.keyInfo 0).keyLength_eq
  rw [primaryKeyCompare, hcopy r, hcopy r']
  exact compareParts_keyCopy _

/-- Packed keys of an index are compared by the images of the columns, then by primary key. -/
theorem secondKeyCompare_packKey (hi : 1 ≤ i ∧ i < share.keys) :
    share.secondKeyCompare (share.packKey i r) (share.packKey i r') =
      if compareData (share.keyInfo i).parts r r' ≠ 0 then
        compareData (share.keyInfo i).parts r r'
      else share.primaryKeyCompare (share.primaryKey r) (share.primaryKey r') := by
  have hr := packKey_entryKey r hi.1 hi.2
  have hr' := packKey_entryKey r' hi.1 hi.2
  have hentry : share.entryCompare (share.packKey i r) (share.packKey i r') =
      compareData (share.keyInfo i).parts r r' := by
    simp only [entryCompare, lexicographic, hr.2, hr'.2, columnsCompare_packKey hi, Int.sub_self,
      ne_eq, not_true_eq_false, if_false]
  have hrows : share.primaryKeyCompare (share.rowOf (share.packKey i r))
      (share.rowOf (share.packKey i r')) =
      share.primaryKeyCompare (share.primaryKey r) (share.primaryKey r') := by
    refine primaryKeyCompare_congr ?_ ?_ <;>
      rw [rowOf_packKey hi.1 hi.2, List.take_of_length_le (Nat.le_of_eq length_primaryKey)]
  rw [hr'.1.secondKeyCompare_eq, lexicographic, hentry, hrows]

/-- Packed keys of secondary indexes are equal when their numbers, the images of their columns
and their primary keys are. -/
theorem packKey_eq_zero_iff (hi : 1 ≤ i ∧ i < share.keys) (hj : 1 ≤ j ∧ j < share.keys) :
    share.secondKeyCompare (share.packKey i r) (share.packKey j r') = 0 ↔
      i = j ∧ (∀ p ∈ (share.keyInfo i).parts, p.keyCmp (p.data r) (p.data r') = 0) ∧
        share.primaryKeyCompare (share.primaryKey r) (share.primaryKey r') = 0 := by
  by_cases hij : i = j
  · subst hij
    rw [secondKeyCompare_packKey hi, ← compareData_eq_zero]
    split
    · next h => exact ⟨fun h0 ↦ absurd h0 h, fun h0 ↦ absurd h0.2.1 h⟩
    · next h => exact ⟨fun h0 ↦ ⟨rfl, not_not.mp h, h0⟩, fun h0 ↦ h0.2.2⟩
  · refine ⟨fun h0 ↦ absurd ?_ hij, fun h0 ↦ absurd h0.1 hij⟩
    have hr := packKey_entryKey r hi.1 hi.2
    have hr' := packKey_entryKey r' hj.1 hj.2
    rw [← hr.2, ← hr'.2]
    exact indexOf_eq (hr'.1.eq_zero_iff.mp h0).1

/-- Two packed keys are equal exactly when they are of one index, every column is NULL in both
rows or has one value, and the primary keys are equal. -/
def EqualByValue (share : TableShare) (i j : Nat) (r r' : Record) : Prop :=
  share.secondKeyCompare (share.packKey i r) (share.packKey j r') = 0 ↔
    i = j ∧ (∀ p ∈ (share.keyInfo i).parts, p.Agree r r') ∧
      share.primaryKeyCompare (share.primaryKey r) (share.primaryKey r') = 0

/-- Where the columns before it agree, a column that is NULL comes before one that is not. -/
def NullsFirst (share : TableShare) (i : Nat) (r r' : Record) : Prop :=
  ∀ A p B, (share.keyInfo i).parts = A ++ p :: B → (∀ q ∈ A, q.Agree r r') → p.IsNull r →
    ¬ p.IsNull r' → share.secondKeyCompare (share.packKey i r) (share.packKey i r') < 0

/-- Null bits of key columns lie outside the bytes of key columns. -/
def NullsApart (share : TableShare) : Prop :=
  ∀ i < share.keys, ∀ p ∈ (share.keyInfo i).parts, p.nullBit ≠ 0 →
    ∀ j < share.keys, ∀ q ∈ (share.keyInfo j).parts, ∀ n < q.length, p.nullOffset ≠ q.offset + n

/-- A column that is not NULL agrees when the images are equal. -/
private theorem agree_iff {p : KeyPartInfo} (h : ¬ p.IsNull r ∧ ¬ p.IsNull r') :
    p.Agree r r' ↔ p.keyCmp (p.data r) (p.data r') = 0 := by
  simp [KeyPartInfo.Agree, h.1, h.2]

/-- Keys without NULL are equal by value. -/
theorem equalByValue (hi : 1 ≤ i ∧ i < share.keys) (hj : 1 ≤ j ∧ j < share.keys)
    (h : ∀ p ∈ (share.keyInfo i).parts, ¬ p.IsNull r ∧ ¬ p.IsNull r') :
    EqualByValue share i j r r' := by
  unfold EqualByValue
  rw [packKey_eq_zero_iff hi hj]
  simp only [forall₂_congr fun p hp ↦ agree_iff (h p hp)]

/-- Records that differ in a byte outside of a column have the same image. -/
private theorem data_update {p : KeyPartInfo} {bytes : Nat → UInt8} {blobs : Nat → List UInt8}
    {n : Nat} {b : UInt8} (h : ∀ k < p.length, n ≠ p.offset + k) :
    p.data ⟨Function.update bytes n b, blobs⟩ = p.data ⟨bytes, blobs⟩ := by
  unfold KeyPartInfo.data
  congr 1
  refine List.map_congr_left fun k hk ↦ ?_
  exact Function.update_of_ne (Ne.symm (h k (List.mem_range.mp hk))) _ _

/-- A nullable column of a secondary key has two rows that are found equal, with a NULL in one
of them only. -/
private theorem not_equalByValue (ord : share.Ordered) (hapart : NullsApart share)
    (hi : 1 ≤ i ∧ i < share.keys) {p : KeyPartInfo} (hp : p ∈ (share.keyInfo i).parts)
    (hnull : p.nullBit ≠ 0) : ∃ r r', ¬ EqualByValue share i i r r' := by
  have hdata : ∀ j < share.keys, ∀ q ∈ (share.keyInfo j).parts,
      q.data ⟨Function.update (fun _ ↦ 0) p.nullOffset p.nullBit, fun _ ↦ []⟩ =
        q.data ⟨fun _ ↦ 0, fun _ ↦ []⟩ :=
    fun j hj q hq ↦ data_update (hapart i hi.2 p hp hnull j hj q hq)
  refine ⟨⟨Function.update (fun _ ↦ 0) p.nullOffset p.nullBit, fun _ ↦ []⟩,
    ⟨fun _ ↦ 0, fun _ ↦ []⟩, fun heq ↦ ?_⟩
  have hself : ∀ q ∈ (share.keyInfo i).parts, q.keyCmp
      (q.data ⟨Function.update (fun _ ↦ 0) p.nullOffset p.nullBit, fun _ ↦ []⟩)
      (q.data ⟨fun _ ↦ 0, fun _ ↦ []⟩) = 0 := by
    intro q hq
    rw [hdata i hi.2 q hq]
    exact (ord i hi.2 q hq).self KeyPartInfo.length_data
  have hrow : share.primaryKeyCompare
      (share.primaryKey ⟨Function.update (fun _ ↦ 0) p.nullOffset p.nullBit, fun _ ↦ []⟩)
      (share.primaryKey ⟨fun _ ↦ 0, fun _ ↦ []⟩) = 0 := by
    rw [primaryKeyCompare_primaryKey, compareData_eq_zero]
    intro q hq
    rw [hdata 0 share.keys_pos q hq]
    exact (ord 0 share.keys_pos q hq).self KeyPartInfo.length_data
  have hagree := (heq.mp ((packKey_eq_zero_iff hi hi).mpr ⟨rfl, hself, hrow⟩)).2.1 p hp
  rcases hagree with ⟨_, h0⟩ | ⟨h1, _⟩
  · exact h0.2 (by simp)
  · exact h1 ⟨hnull, by simp [hnull]⟩

/-- Packed keys of secondary indexes are always in a total preorder; they are equal by value
for rows without NULL in the columns, and for all rows, with NULL before other values, exactly
when no column of a secondary key is nullable. -/
theorem secondKeyCompare_nulls (ord : share.Ordered) (hapart : NullsApart share) :
    Comparison share.secondKeyCompare
      (fun a ↦ ∃ i r, (1 ≤ i ∧ i < share.keys) ∧ a = share.packKey i r) ∧
    (∀ i j r r', 1 ≤ i ∧ i < share.keys → 1 ≤ j ∧ j < share.keys →
      (∀ p ∈ (share.keyInfo i).parts, ¬ p.IsNull r ∧ ¬ p.IsNull r') →
      EqualByValue share i j r r') ∧
    ((∀ i j r r', 1 ≤ i ∧ i < share.keys → 1 ≤ j ∧ j < share.keys →
      EqualByValue share i j r r' ∧ NullsFirst share i r r') ↔
      ∀ i, 1 ≤ i ∧ i < share.keys → ∀ p ∈ (share.keyInfo i).parts, p.nullBit = 0) := by
  refine ⟨ord.second.mono ?_, fun i j r r' hi hj h ↦ equalByValue hi hj h, fun hall i hi p hp ↦ ?_,
    fun hno i j r r' hi hj ↦ ⟨equalByValue hi hj fun p hp ↦ ?_, ?_⟩⟩
  · rintro _ ⟨i, r, hi, rfl⟩
    exact (packKey_entryKey r hi.1 hi.2).1
  · by_contra hnull
    obtain ⟨r, r', hne⟩ := not_equalByValue ord hapart hi hp hnull
    exact hne (hall i i r r' hi hi).1
  · exact ⟨fun h ↦ h.1 (hno i hi p hp), fun h ↦ h.1 (hno i hi p hp)⟩
  · intro A p B hsplit _ hnull _
    exact absurd (hno i hi p (by rw [hsplit]; simp)) hnull.1

end TableShare

section Optional

/-- A column of one byte that may be NULL, in a key. -/
def optionalPart : KeyPartInfo where
  nullBit := 1
  nullOffset := 0
  offset := 2
  length := 1
  storeLength := 2
  blobPart := false
  varLengthPart := false
  keyCmp a b := ((a.headD 0).toNat : Int) - (b.headD 0).toNat
  storeLength_eq := rfl

/-- A table of a column of one byte and one that may be NULL, each with an index. -/
def optional : TableShare where
  keys := 2
  keyInfo i := if i = 0 then digits.keyInfo 1
    else ⟨1, 2, [optionalPart], by simp, rfl, by decide⟩
  field := [digitField 1, { digitField 2 with nullBit := 1 }]
  blobField := []
  nullBytes := 1
  reclength := 3
  keys_pos := by decide
  keys_le := by decide

theorem optional_ordered : optional.Ordered := by
  intro i _ p hp
  by_cases hi : i = 0
  · obtain rfl : p = digitPart 1 := by simpa [optional, digits, hi, KeyInfo.parts] using hp
    exact .sub _
  · obtain rfl : p = optionalPart := by simpa [optional, hi, KeyInfo.parts] using hp
    exact .sub _

theorem digits_apart : digits.NullsApart := by
  intro i _ p hp hnull
  obtain rfl : p = digitPart i := by simpa [digits, KeyInfo.parts] using hp
  exact absurd rfl hnull

/-- A table without nullable columns. -/
theorem digits_nulls :
    Comparison digits.secondKeyCompare
      (fun a ↦ ∃ i r, (1 ≤ i ∧ i < digits.keys) ∧ a = digits.packKey i r) ∧
    (∀ i j r r', 1 ≤ i ∧ i < digits.keys → 1 ≤ j ∧ j < digits.keys →
      (∀ p ∈ (digits.keyInfo i).parts, ¬ p.IsNull r ∧ ¬ p.IsNull r') →
      digits.EqualByValue i j r r') ∧
    ((∀ i j r r', 1 ≤ i ∧ i < digits.keys → 1 ≤ j ∧ j < digits.keys →
      digits.EqualByValue i j r r' ∧ digits.NullsFirst i r r') ↔
      ∀ i, 1 ≤ i ∧ i < digits.keys → ∀ p ∈ (digits.keyInfo i).parts, p.nullBit = 0) :=
  TableShare.secondKeyCompare_nulls digits_ordered digits_apart

/-- A NULL and a zero are found equal. -/
theorem null_equals_zero : ¬ ∀ share : TableShare, share.Ordered → ∀ i j r r',
    1 ≤ i ∧ i < share.keys → 1 ≤ j ∧ j < share.keys → share.EqualByValue i j r r' := by
  intro hall
  have heq := hall optional optional_ordered 1 1 (digitRecord 1 5 0) (digitRecord 0 5 0)
    (by decide) (by decide)
  have hzero : optional.secondKeyCompare (optional.packKey 1 (digitRecord 1 5 0))
      (optional.packKey 1 (digitRecord 0 5 0)) = 0 := by decide
  rcases (heq.mp hzero).2.1 optionalPart (.head []) with ⟨_, hnull⟩ | ⟨hnull, _⟩
  · exact hnull.2 (by decide)
  · exact hnull ⟨by decide, by decide⟩

end Optional

end ExampleEngine.Handler
