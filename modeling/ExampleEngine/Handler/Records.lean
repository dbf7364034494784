import ExampleEngine.Handler.Schema

/-!
# Packed rows

Library `Handler`. What `unpack_row` of `src/ha_example.cc:368–379` makes of the bytes that
`pack_row` of `src/ha_example.cc:353–363` wrote. Columns that are NULL are neither packed nor
unpacked, so a record buffer keeps what it held there. What the server promises of fields is
assumed in the terms of one column.
-/

namespace ExampleEngine.Handler

/-- The column is NULL in a record; `src/ha_example.cc:297–300`. -/
def KeyPartInfo.IsNull (p : KeyPartInfo) (record : Record) : Prop :=
  p.nullBit ≠ 0 ∧ record.bytes p.nullOffset &&& p.nullBit ≠ 0

instance (p : KeyPartInfo) (record : Record) : Decidable (p.IsNull record) :=
  inferInstanceAs (Decidable (_ ∧ _))

/-- Memory that begins with some bytes. -/
def Begins (src : Nat → UInt8) (bytes : List UInt8) : Prop :=
  ∀ k (h : k < bytes.length), src k = bytes[k]

/-- What the server promises of the fields of a table: null bits are in the null bytes, and
unpacking a column consumes what was packed and touches no null byte. -/
structure TableShare.RecordFormat (share : TableShare) : Prop where
  nullOffset : ∀ f ∈ share.field, f.nullBit ≠ 0 → f.nullOffset < share.nullBytes
  nullBytes : ∀ f ∈ share.field, ∀ r src, ∀ n < share.nullBytes,
    (f.unpack r f.offset src).1.bytes n = r.bytes n
  consumed : ∀ f ∈ share.field, ∀ r r' src, Begins src (f.pack r f.offset) →
    (f.unpack r' f.offset src).2 = (f.pack r f.offset).length

/-- What the server promises of the field of a key column, as far as `read` tells of the
column: unpacking it gives what was packed, up to `Eqv`, and unpacking another field or
copying null bytes does not touch it. -/
structure TableShare.Column (share : TableShare) (p : KeyPartInfo) (read : Record → List UInt8)
    (Eqv : List UInt8 → List UInt8 → Prop) : Prop where
  field : ∃ A f B, share.field = A ++ f :: B ∧ f.nullOffset = p.nullOffset ∧
    f.nullBit = p.nullBit ∧
    (∀ r r' src, Begins src (f.pack r f.offset) →
      Eqv (read (f.unpack r' f.offset src).1) (read r)) ∧
    ∀ g ∈ A ++ B, ∀ r' src, read (g.unpack r' g.offset src).1 = read r'
  nulls : ∀ r' bytes, (∀ n ≥ share.nullBytes, bytes n = r'.bytes n) →
    read { r' with bytes := bytes } = read r'

/-- `is_null` has one answer on two records. -/
def TableShare.SameNulls (share : TableShare) (r r' : Record) : Prop :=
  ∀ f ∈ share.field, f.isNull r = f.isNull r'

/-- A record has the NULLs of another and packs its columns to the same bytes. -/
def TableShare.SameRow (share : TableShare) (r r' : Record) : Prop :=
  share.SameNulls r r' ∧
    ∀ f ∈ share.field, ¬ f.isNull r' → f.pack r f.offset = f.pack r' f.offset

/-- A record packed from such another one is packed as from itself. -/
theorem TableShare.packed_of_sameRow {share : TableShare} {r r' : Record}
    (h : share.SameRow r r') : share.packed r r' = share.packed r' r' := by
  unfold TableShare.packed
  congr 1
  refine List.flatMap_congr fun f hf ↦ ?_
  rw [h.1 f hf]
  split
  · rfl
  · next hnull => exact h.2 f hf hnull

section Fields

variable {share : TableShare} {f : Field} {fs A B : List Field} {r r' q : Record}
  {src : Nat → UInt8} {pos dst : Nat} {record : Nat → Record}

/-- Records with the same null bytes have the same NULLs. -/
theorem TableShare.RecordFormat.sameNulls (hf : share.RecordFormat)
    (h : ∀ n < share.nullBytes, r.bytes n = r'.bytes n) : share.SameNulls r r' := by
  intro f hmem
  unfold Field.isNull
  by_cases hbit : f.nullBit = 0
  · simp [hbit]
  · rw [h _ (hf.nullOffset f hmem hbit)]

/-- The state of `unpack_row` before the fields `fs`: their bytes are ahead, and the NULLs of
`table->record[0]` are those of the row. -/
structure Ahead (share : TableShare) (src : Nat → UInt8) (r : Record) (fs : List Field)
    (pos : Nat) (q : Record) : Prop where
  mem : ∀ f ∈ fs, f ∈ share.field
  bytes : Begins (fun i ↦ src (pos + i))
    (fs.flatMap fun f ↦ if f.isNull r then [] else f.pack r f.offset)
  nulls : ∀ n < share.nullBytes, q.bytes n = r.bytes n

private theorem begins_append {a b : List UInt8} (h : Begins src (a ++ b)) :
    Begins src a ∧ Begins (fun i ↦ src (a.length + i)) b := by
  constructor
  · intro k hk
    rw [h k (by rw [List.length_append]; omega), List.getElem_append_left hk]
  · intro k hk
    show src (a.length + k) = b[k]
    rw [h (a.length + k) (by rw [List.length_append]; omega), List.getElem_append_right (by omega)]
    simp

/-- One field is skipped when it is NULL, and unpacked otherwise. -/
theorem Ahead.step (ha : Ahead share src r (f :: fs) pos q) (hf : share.RecordFormat) :
    ∃ pos₁ q₁, unpackFields src (f :: fs) pos q = unpackFields src fs pos₁ q₁ ∧
      Ahead share src r fs pos₁ q₁ ∧
      if f.isNull r then q₁ = q else q₁ = (f.unpack q f.offset fun i ↦ src (pos + i)).1 ∧
        Begins (fun i ↦ src (pos + i)) (f.pack r f.offset) := by
  have hmem := ha.mem f (by simp)
  have hnull := hf.sameNulls ha.nulls f hmem
  have hbytes := ha.bytes
  rw [List.flatMap_cons] at hbytes
  by_cases h : f.isNull r = true
  · refine ⟨pos, q, ?_, ⟨fun g hg ↦ ha.mem g (by simp [hg]), ?_, ha.nulls⟩, ?_⟩
    · conv_lhs => unfold unpackFields
      rw [if_pos (hnull.trans h)]
    · rw [if_pos h, List.nil_append] at hbytes
      exact hbytes
    · rw [if_pos h]
  · rw [if_neg h] at hbytes
    obtain ⟨hhead, htail⟩ := begins_append hbytes
    have hlen := hf.consumed f hmem r q _ hhead
    refine ⟨pos + (f.pack r f.offset).length, (f.unpack q f.offset fun i ↦ src (pos + i)).1, ?_,
      ⟨fun g hg ↦ ha.mem g (by simp [hg]), ?_, ?_⟩, ?_⟩
    · conv_lhs => unfold unpackFields
      rw [if_neg (by rw [hnull]; exact h)]
      simp only [hlen]
    · intro k hk
      rw [← htail k hk]
      exact congrArg src (by omega)
    · intro n hn
      rw [hf.nullBytes f hmem _ _ n hn]
      exact ha.nulls n hn
    · rw [if_neg h]
      exact ⟨rfl, hhead⟩

/-- The null bytes stay. -/
theorem Ahead.nullBytes (ha : Ahead share src r fs pos q) (hf : share.RecordFormat) :
    ∀ n < share.nullBytes, (unpackFields src fs pos q).bytes n = r.bytes n := by
  induction fs generalizing pos q with
  | nil => exact ha.nulls
  | cons f fs ih =>
    obtain ⟨pos₁, q₁, heq, ha₁, _⟩ := ha.step hf
    rw [heq]
    exact ih ha₁

section Column

variable {p : KeyPartInfo} {V : Type} {read : Record → V} {P : V → Prop}

/-- The other fields leave a column as it is. -/
theorem Ahead.others (ha : Ahead share src r fs pos q) (hf : share.RecordFormat)
    (hread : ∀ g ∈ fs, ∀ r' src, read (g.unpack r' g.offset src).1 = read r') :
    read (unpackFields src fs pos q) = read q := by
  induction fs generalizing pos q with
  | nil => rfl
  | cons f fs ih =>
    obtain ⟨pos₁, q₁, heq, ha₁, hrec⟩ := ha.step hf
    have hsame := ih ha₁ fun g hg ↦ hread g (by simp [hg])
    rw [heq, hsame]
    split at hrec
    · rw [hrec]
    · rw [hrec.1]
      exact hread f (by simp) _ _

variable (read P) in
/-- The field of a column unpacks it over what the column held, unless it is NULL. -/
theorem Ahead.column (ha : Ahead share src r (A ++ f :: B) pos q) (hf : share.RecordFormat)
    (hown : ∀ r' src, Begins src (f.pack r f.offset) → read r' = read q →
      P (read (f.unpack r' f.offset src).1))
    (hread : ∀ g ∈ A ++ B, ∀ r' src, read (g.unpack r' g.offset src).1 = read r') :
    if f.isNull r then read (unpackFields src (A ++ f :: B) pos q) = read q
    else P (read (unpackFields src (A ++ f :: B) pos q)) := by
  induction A generalizing pos q with
  | nil =>
    obtain ⟨pos₁, q₁, heq, ha₁, hrec⟩ := ha.step hf
    have hsame := ha₁.others hf hread
    rw [List.nil_append, heq, hsame]
    by_cases h : f.isNull r = true
    · rw [if_pos h] at hrec ⊢
      rw [hrec]
    · rw [if_neg h] at hrec ⊢
      rw [hrec.1]
      exact hown q _ hrec.2 rfl
  | cons g A ih =>
    rw [List.cons_append] at ha ⊢
    obtain ⟨pos₁, q₁, heq, ha₁, hrec⟩ := ha.step hf
    have hsame : read q₁ = read q := by
      split at hrec
      · rw [hrec]
      · rw [hrec.1]
        exact hread g (by simp) _ _
    have hrest := ih ha₁ (fun r' src hb heq ↦ hown r' src hb (heq.trans hsame))
      fun g hg ↦ hread g (List.mem_cons_of_mem _ hg)
    rw [heq]
    rwa [hsame] at hrest

end Column

/-- A buffer with the null bytes of a packed row. -/
def TableShare.nulled (share : TableShare) (src : Nat → UInt8) (r : Record) : Record :=
  { r with bytes := fun i ↦ if i < share.nullBytes then src i else r.bytes i }

/-- What `unpack_row` leaves in `table->record[0]` when it is the destination. -/
theorem TableShare.unpackRow_zero :
    share.unpackRow src 0 record 0 =
      unpackFields src share.field share.nullBytes (share.nulled src (record 0)) := by
  unfold TableShare.unpackRow
  rw [Function.update_self, Function.update_self]
  rfl

/-- What it leaves in another destination: its null bytes. -/
theorem TableShare.unpackRow_of_ne (h : dst ≠ 0) :
    share.unpackRow src dst record dst = share.nulled src (record dst) := by
  unfold TableShare.unpackRow
  rw [Function.update_of_ne h, Function.update_self]
  rfl

private theorem bytes_of_begins (hsrc : Begins src (share.packed r r)) :
    (∀ n < share.nullBytes, src n = r.bytes n) ∧ Begins (fun i ↦ src (share.nullBytes + i))
      (share.field.flatMap fun f ↦ if f.isNull r then [] else f.pack r f.offset) := by
  obtain ⟨hnulls, hfields⟩ := begins_append hsrc
  rw [List.length_map, List.length_range] at hfields
  refine ⟨fun n hn ↦ ?_, hfields⟩
  rw [hnulls n (by simpa using hn), List.getElem_map, List.getElem_range]

/-- Both receive the null bytes of the row. -/
theorem TableShare.bytes_nulled (hsrc : Begins src (share.packed r r)) (q : Record) :
    ∀ n < share.nullBytes, (share.nulled src q).bytes n = r.bytes n := by
  intro n hn
  rw [← (bytes_of_begins hsrc).1 n hn]
  exact if_pos hn

/-- The fields of a packed row are ahead, wherever its NULLs are. -/
theorem TableShare.ahead (hsrc : Begins src (share.packed r r))
    (hq : ∀ n < share.nullBytes, q.bytes n = r.bytes n) :
    Ahead share src r share.field share.nullBytes q :=
  ⟨fun _ hf ↦ hf, (bytes_of_begins hsrc).2, hq⟩

variable {p : KeyPartInfo} {read : Record → List UInt8} {Eqv : List UInt8 → List UInt8 → Prop}

/-- NULL for a field is NULL for its key column. -/
theorem isNull_iff (hoff : f.nullOffset = p.nullOffset) (hbit : f.nullBit = p.nullBit) :
    f.isNull r = true ↔ p.IsNull r := by
  unfold Field.isNull KeyPartInfo.IsNull
  rw [hoff, hbit]
  by_cases h : p.nullBit = 0
  · simp [h]
  · simp [h]

variable (read) in
/-- A row is unpacked to its NULLs, and in `table->record[0]` its columns that are not NULL are
unpacked over what the buffer held; under a NULL, and in another buffer, a column keeps that. -/
theorem TableShare.unpackRow_over {P : List UInt8 → Prop} (hf : share.RecordFormat)
    (hfield : share.field = A ++ f :: B) (hoff : f.nullOffset = p.nullOffset)
    (hbit : f.nullBit = p.nullBit)
    (hread : ∀ g ∈ A ++ B, ∀ r' src, read (g.unpack r' g.offset src).1 = read r')
    (hkeep : ∀ r' bytes, (∀ n ≥ share.nullBytes, bytes n = r'.bytes n) →
      read { r' with bytes := bytes } = read r')
    (hown : ∀ r' src, Begins src (f.pack r f.offset) → read r' = read (record dst) →
      P (read (f.unpack r' f.offset src).1))
    (hsrc : Begins src (share.packed r r)) :
    (p.IsNull (share.unpackRow src dst record dst) ↔ p.IsNull r) ∧
    if dst ≠ 0 ∨ p.IsNull r then
      read (share.unpackRow src dst record dst) = read (record dst)
    else P (read (share.unpackRow src dst record dst)) := by
  have hmem : f ∈ share.field := by simp [hfield]
  have hkept : read (share.nulled src (record dst)) = read (record dst) :=
    hkeep (record dst) _ fun n hn ↦ if_neg (Nat.not_lt.mpr hn)
  have hnulls := TableShare.bytes_nulled hsrc (record dst)
  by_cases hdst : dst = 0
  · subst hdst
    have hahead := TableShare.ahead hsrc hnulls
    have hisNull := hf.sameNulls (hahead.nullBytes hf) f hmem
    rw [TableShare.unpackRow_zero]
    refine ⟨by rw [← isNull_iff hoff hbit, ← isNull_iff hoff hbit, hisNull], ?_⟩
    rw [hfield] at hahead ⊢
    have hcolumn := hahead.column read P hf (fun r' src hb heq ↦ hown r' src hb (heq.trans hkept))
      hread
    rw [hkept] at hcolumn
    simp only [isNull_iff hoff hbit] at hcolumn
    simpa using hcolumn
  · rw [TableShare.unpackRow_of_ne hdst]
    have hisNull := hf.sameNulls hnulls f hmem
    refine ⟨by rw [← isNull_iff hoff hbit, ← isNull_iff hoff hbit, hisNull], ?_⟩
    rw [if_pos (.inl hdst)]
    exact hkept

/-- Columns that are restored whatever the buffer held. -/
theorem TableShare.unpackRow_column (hf : share.RecordFormat) (hc : share.Column p read Eqv)
    (hsrc : Begins src (share.packed r r)) :
    (p.IsNull (share.unpackRow src dst record dst) ↔ p.IsNull r) ∧
    if dst ≠ 0 ∨ p.IsNull r then
      read (share.unpackRow src dst record dst) = read (record dst)
    else Eqv (read (share.unpackRow src dst record dst)) (read r) := by
  obtain ⟨A, f, B, hfield, hoff, hbit, hown, hread⟩ := hc.field
  exact TableShare.unpackRow_over read (P := fun v ↦ Eqv v (read r)) hf hfield hoff hbit hread
    hc.nulls (fun r' src hb _ ↦ hown r r' src hb) hsrc

end Fields

end ExampleEngine.Handler
