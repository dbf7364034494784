import ExampleEngine.Handler.IndexOnly

/-!
# Deleting a row just read

Library `Handler`. `unpack_row` of `src/ha_example.cc:368–379` leaves under a NULL what the
buffer held before, `key_copy` of `src/ha_example.cc:290–319` copies it all the same, and
`second_key_compare` compares it. `delete_row` of `src/ha_example.cc:683–708` on the row just
read therefore depends on the rows read before.
-/

namespace ExampleEngine.Handler

open ExampleEngine.Base ExampleEngine.Storage ExampleEngine.Index

/-- What a read of a row leaves in a key column of a buffer: what the buffer held where the column
is not unpacked into it, under a NULL of the row and in every column unless the buffer is
`table->record[0]`, and else what the field of the column unpacks over that. -/
def KeyPartInfo.left (p : KeyPartInfo) (f : Field) (row : Row) (buf : Nat) (r : Record) :
    List UInt8 :=
  if buf ≠ 0 ∨ p.IsNull row.record then p.data r
  else p.data (f.unpack r f.offset fun k ↦ (f.pack row.record f.offset).getD k 0).1

/-- Bytes read back from a list of them. -/
private theorem begins_getD (bytes : List UInt8) : Begins (fun k ↦ bytes.getD k 0) bytes :=
  fun k hk ↦ by simp [hk]

/-- What a read leaves in the key columns compares equal to what the row was written with, where
`field` gives the field of a key column. -/
def StaleEqual (share : TableShare) (field : KeyPartInfo → Field) (row : Row) (buf : Nat)
    (r : Record) : Prop :=
  ∀ i < share.keys, ∀ p ∈ (share.keyInfo i).parts,
    p.keyCmp (p.data row.record) (p.left (field p) row buf r) = 0

/-- What the server promises of the field of a key column, of fixed or of variable length: what
unpacking leaves in the column depends on the bytes packed and on what the column held, and
unpacking another field or copying null bytes does not touch it. -/
structure TableShare.Unpacks (share : TableShare) (p : KeyPartInfo) (f : Field) : Prop where
  field : ∃ A B, share.field = A ++ f :: B ∧
    ∀ g ∈ A ++ B, ∀ r src, p.data (g.unpack r g.offset src).1 = p.data r
  nullOffset : f.nullOffset = p.nullOffset
  nullBit : f.nullBit = p.nullBit
  own : ∀ r r₁ r₂ src₁ src₂, Begins src₁ (f.pack r f.offset) → Begins src₂ (f.pack r f.offset) →
    p.data r₁ = p.data r₂ →
    p.data (f.unpack r₁ f.offset src₁).1 = p.data (f.unpack r₂ f.offset src₂).1
  nulls : ∀ r bytes, (∀ n ≥ share.nullBytes, bytes n = r.bytes n) →
    p.data { r with bytes := bytes } = p.data r

/-- Where unpacking restores the columns whatever they held, as it does those of fixed length, only
what the buffer keeps matters. -/
theorem staleEqual_iff_of_restored {share : TableShare} {field : KeyPartInfo → Field} {row : Row}
    {buf : Nat} {r : Record} (ord : share.Ordered)
    (hrest : ∀ i < share.keys, ∀ p ∈ (share.keyInfo i).parts, ∀ r r' src,
      Begins src ((field p).pack r (field p).offset) →
      p.keyCmp (p.data ((field p).unpack r' (field p).offset src).1) (p.data r) = 0) :
    StaleEqual share field row buf r ↔
      ∀ i < share.keys, ∀ p ∈ (share.keyInfo i).parts, buf ≠ 0 ∨ p.IsNull row.record →
        p.keyCmp (p.data row.record) (p.data r) = 0 := by
  refine forall₂_congr fun i hi ↦ forall₂_congr fun p hp ↦ ?_
  unfold KeyPartInfo.left
  split
  · next hkept => exact ⟨fun h _ ↦ h, fun h ↦ h hkept⟩
  · next hkept =>
    refine ⟨fun _ h ↦ absurd h hkept, fun _ ↦ ?_⟩
    refine (ord i hi p hp).symm KeyPartInfo.length_data KeyPartInfo.length_data ?_
    exact hrest i hi p hp _ _ _ (begins_getD _)

/-- A row is removed with its entries, and nothing else. -/
structure Deletes (share : TableShare) (row : Row) (s s' : HaExample) : Prop where
  rows : ∀ a, a ∈ s'.pBtree.live ↔ a ∈ s.pBtree.live ∧
    share.primaryKeyCompare a.key (share.primaryKey row.record) ≠ 0
  entries : ∀ a, a ∈ s'.entries ↔ a ∈ s.entries ∧ ∀ i ∈ HaExample.indexes share,
    share.secondKeyCompare a.key (share.packKey i row.record) ≠ 0

/-- The cursor of the primary key stands on a row. -/
def StandsOnRow (share : TableShare) (s : HaExample) (row : Row) : Prop :=
  ∃ e, Stands s.pBtree s.primaryIt e ∧
    share.primaryKeyCompare e.key (share.primaryKey row.record) = 0

section Images

variable {share : TableShare} {row : Row} {b r : Record} {s s' : HaExample} {code : Int}
  {rows : List Row}

/-- The key columns of two records compare equal. -/
private def KeysEqual (share : TableShare) (r b : Record) : Prop :=
  ∀ i < share.keys, ∀ p ∈ (share.keyInfo i).parts, p.keyCmp (p.data r) (p.data b) = 0

private theorem keysEqual_iff : KeysEqual share r b ↔
    share.primaryKeyCompare (share.primaryKey r) (share.primaryKey b) = 0 ∧
      ∀ i ∈ HaExample.indexes share,
        share.secondKeyCompare (share.packKey i r) (share.packKey i b) = 0 := by
  have hrow : share.primaryKeyCompare (share.primaryKey r) (share.primaryKey b) = 0 ↔
      ∀ p ∈ (share.keyInfo 0).parts, p.keyCmp (p.data r) (p.data b) = 0 := by
    rw [TableShare.primaryKeyCompare_primaryKey, compareData_eq_zero]
  constructor
  · intro h
    refine ⟨hrow.mpr (h 0 share.keys_pos), fun i hi ↦ ?_⟩
    have hi := mem_indexes.mp hi
    exact (TableShare.packKey_eq_zero_iff hi hi).mpr
      ⟨rfl, h i hi.2, hrow.mpr (h 0 share.keys_pos)⟩
  · rintro ⟨h0, h⟩ i hi
    rcases Nat.eq_zero_or_pos i with rfl | h1
    · exact hrow.mp h0
    · exact ((TableShare.packKey_eq_zero_iff ⟨h1, hi⟩ ⟨h1, hi⟩).mp
        (h i (mem_indexes.mpr ⟨h1, hi⟩))).2.1

/-- `delete_row` removes a row and its entries exactly when the key columns of the record it is
given compare equal to those of the row. -/
theorem DeleteOutcome.deletes_iff (h : DeleteOutcome share s b code s')
    (hc : Consistent share rows s) (ord : share.Ordered) (ho : Opened share s)
    (hrow : row ∈ rows) : code = 0 ∧ Deletes share row s s' ↔ KeysEqual share row.record b := by
  have hk : ∀ r, share.PrimaryKey (share.primaryKey r) := fun _ ↦ TableShare.primaryKey_primaryKey
  have hcmp := ord.primary
  have hS := ho.primary.keys
  rw [keysEqual_iff]
  constructor
  · rintro ⟨hcode, hdel⟩
    obtain ⟨hrem, hloop⟩ := h.of_zero hcode
    obtain ⟨w, hj⟩ := hrem.joins
    refine ⟨?_, fun i hi ↦ ?_⟩
    · obtain ⟨e, he, hek, _⟩ := hc.live row hrow
      have hgone : e ∉ s'.pBtree.live := fun he' ↦ ((hdel.rows e).mp he').2 hek
      have heb : share.primaryKeyCompare e.key (share.primaryKey b) = 0 := by
        by_contra hne
        exact hgone ((hj.mem_iff e).mpr ⟨he, hne⟩)
      exact hcmp.equal_trans (hk _) (hS e he) (hk _) (hcmp.symm (hS e he) (hk _) hek) heb
    · obtain ⟨hi1, hik⟩ := mem_indexes.mp hi
      obtain ⟨_, hv⟩ := ho.exists_second (by omega)
      obtain ⟨e, he, hek⟩ := hc.entry row hrow i hi
      have hgone : e ∉ s'.entries := fun he' ↦ ((hdel.entries e).mp he').2 i hi hek
      have hex : ∃ j ∈ HaExample.indexes share,
          share.secondKeyCompare e.key (share.packKey j b) = 0 := by
        by_contra hnone
        push Not at hnone
        exact hgone ((deleteLoop_mem hloop rfl e).mpr ⟨he, hnone⟩)
      obtain ⟨j, hj, heb⟩ := hex
      obtain ⟨rfl, _⟩ := eq_of_packKeys ord (hv.keys e he) hi hj hek heb
      have hkey : ∀ r, share.EntryKey (share.packKey i r) :=
        fun r ↦ (TableShare.packKey_entryKey r hi1 hik).1
      exact ord.second.equal_trans (hkey _) (hv.keys e he) (hkey _)
        (ord.second.symm (hv.keys e he) (hkey _) hek) heb
  · rintro ⟨hprim, hsec⟩
    have hprim' := hcmp.symm (hk _) (hk _) hprim
    have hpiff : ∀ a ∈ s.pBtree.live, share.primaryKeyCompare a.key (share.primaryKey b) = 0 ↔
        share.primaryKeyCompare a.key (share.primaryKey row.record) = 0 := fun a ha ↦
      ⟨fun h ↦ hcmp.equal_trans (hS a ha) (hk _) (hk _) h hprim',
        fun h ↦ hcmp.equal_trans (hS a ha) (hk _) (hk _) h hprim⟩
    have hsiff : ∀ a ∈ s.entries, ∀ i ∈ HaExample.indexes share,
        (share.secondKeyCompare a.key (share.packKey i b) = 0 ↔
          share.secondKeyCompare a.key (share.packKey i row.record) = 0) := by
      intro a ha i hi
      obtain ⟨hi1, hik⟩ := mem_indexes.mp hi
      obtain ⟨_, hv⟩ := ho.exists_second (by omega)
      have hkey : ∀ r, share.EntryKey (share.packKey i r) :=
        fun r ↦ (TableShare.packKey_entryKey r hi1 hik).1
      have hsec' := ord.second.symm (hkey _) (hkey _) (hsec i hi)
      exact ⟨fun h ↦ ord.second.equal_trans (hv.keys a ha) (hkey _) (hkey _) h hsec',
        fun h ↦ ord.second.equal_trans (hv.keys a ha) (hkey _) (hkey _) h (hsec i hi)⟩
    cases h with
    | missing s' _ _ hne =>
      obtain ⟨e, he, hek, _⟩ := hc.live row hrow
      exact absurd ((hpiff e he).mpr hek) (hne e he)
    | removed s' b' hrem hloop =>
      obtain ⟨w, hj⟩ := hrem.joins
      have hall : ∀ i ∈ HaExample.indexes share, ∃ e ∈ s.secondTree.live,
          share.secondKeyCompare e.key (share.packKey i b) = 0 := by
        intro i hi
        obtain ⟨e, he, hek⟩ := hc.entry row hrow i hi
        exact ⟨e, he, (hsiff e he i hi).mpr hek⟩
      obtain rfl := (deleteLoop_iff hloop).mpr hall
      refine ⟨rfl, fun a ↦ ?_, fun a ↦ ?_⟩
      · rw [hj.mem_iff a]
        exact and_congr_right fun ha ↦ not_congr (hpiff a ha)
      · refine (deleteLoop_mem hloop rfl a).trans (and_congr_right fun ha ↦ ?_)
        exact forall₂_congr fun i hi ↦ not_congr (hsiff a ha i hi)

end Images

section Reads

variable {share : TableShare} {server : Server} {rows : List Row} {row : Row} {s s₁ : HaExample}
  {buf : Nat}

/-- A key column of a record that a row is unpacked to holds what the read leaves in it. -/
private theorem data_unpacked (hf : share.RecordFormat) {p : KeyPartInfo} {f : Field}
    (hcol : share.Unpacks p f) {src : Nat → UInt8} {record : Nat → Record}
    (hsrc : Begins src (share.packed row.record row.record)) :
    p.data (share.unpackRow src buf record buf) = p.left f row buf (record buf) := by
  obtain ⟨A, B, hfield, hread⟩ := hcol.field
  have hover := (TableShare.unpackRow_over p.data
    (P := fun v ↦ v = p.data (f.unpack (record buf) f.offset
      fun k ↦ (f.pack row.record f.offset).getD k 0).1)
    hf hfield hcol.nullOffset hcol.nullBit hread hcol.nulls
    (fun r' src' hb heq ↦ hcol.own _ _ _ _ _ hb (begins_getD _) heq) hsrc).2
  unfold KeyPartInfo.left
  split at hover
  · next hkept => rw [if_pos hkept, hover]
  · next hkept => rw [if_neg hkept, hover]

/-- In every state of a table, `delete_row` on a row just read returns 0 and removes that row
with its entries, and nothing else, exactly when what the read leaves in the key columns of the
buffer compares equal to what the row was written with. -/
theorem read_row_deleted_iff (ord : share.Ordered) (hf : share.RecordFormat)
    {field : KeyPartInfo → Field}
    (hcol : ∀ i < share.keys, ∀ p ∈ (share.keyInfo i).parts, share.Unpacks p (field p))
    (hs : Stored share server (FirstRecord share server) rows s) {req : Request}
    (hreq : req.Reads buf) (ha : req.Admissible share s)
    (hread : s.activeIndex = 0 ∨ s.keyRead = false) :
    wp Beyond (req.perform share server) (fun code s₁ ↦ code = 0 → ∃ row ∈ rows,
      StandsOnRow share s₁ row ∧ wp (fun _ ↦ False) (HaExample.deleteRow share buf)
        (fun code' s₂ ↦ code' = 0 ∧ Deletes share row s₁ s₂ ↔
          StaleEqual share field row buf (s.record buf)) s₁) s := by
  obtain ⟨ho, hc⟩ := hs.sound ord
  refine wp_mono (ho.wp_perform ord ha) ?_
  rintro code s₁ ⟨ho₁, hlooks, hfetch⟩ hcode
  have hro : ¬ req.ChangesRows := by
    intro hch
    cases req <;> first | exact hch | exact hreq
  have hlooks := hlooks hro
  obtain ⟨e, he, src, hval, hrecord, hst⟩ := hfetch buf hreq hcode hread
  obtain ⟨row, hrow, hek⟩ := hc.row e he
  have hc₁ := hc.congr hlooks.primary hlooks.second
  obtain ⟨src', hval', hsrc⟩ := hc.bytes ord ho he hrow hek
  obtain rfl : src = src' := Option.some.inj (hval.symm.trans hval')
  rw [hs.packed (fun _ _ h ↦ h) row hrow] at hsrc
  have hiff : KeysEqual share row.record (share.unpackRow src buf s.record buf) ↔
      StaleEqual share field row buf (s.record buf) := by
    refine forall₂_congr fun i hi ↦ forall₂_congr fun p hp ↦ ?_
    rw [data_unpacked hf (hcol i hi p hp) hsrc]
  rw [← hrecord] at hiff
  refine ⟨row, hrow, ⟨e, hst, hek⟩, ?_⟩
  apply wp_deleteRow ord ho₁
  intro code' s₂ _ _ hdel
  rw [← hiff]
  exact hdel.deletes_iff hc₁ ord ho₁ hrow

end Reads

/-- A record holds zeros under its NULLs. -/
def ZeroNulls (share : TableShare) (r : Record) : Prop :=
  ∀ i < share.keys, ∀ p ∈ (share.keyInfo i).parts, p.IsNull r →
    ∀ k < p.length, r.bytes (p.offset + k) = 0

section Optional

theorem optional_data : ∀ i < optional.keys, ∀ p ∈ (optional.keyInfo i).parts,
    optional.Column p p.data fun x y ↦ p.keyCmp x y = 0 := by
  have hdata : ∀ i < optional.keys, ∀ p ∈ (optional.keyInfo i).parts, ∀ r,
      p.data r = fixedValue p r := by
    intro i hi p hp r
    rcases optional_part hi hp with ⟨rfl, rfl⟩ | ⟨rfl, rfl⟩ <;> rfl
  intro i hi p hp
  obtain ⟨⟨A, f, B, hfield, hoff, hbit, hown, hother⟩, hnulls⟩ := optional_columns i hi p hp
  refine ⟨⟨A, f, B, hfield, hoff, hbit, fun r r' src hsrc ↦ ?_, fun g hg r' src ↦ ?_⟩,
    fun r' bytes hbytes ↦ ?_⟩
  · rw [hdata i hi p hp, hown r r' src hsrc, ← hdata i hi p hp]
    exact (optional_ordered i hi p hp).self KeyPartInfo.length_data
  · rw [hdata i hi p hp, hdata i hi p hp]
    exact hother g hg r' src
  · rw [hdata i hi p hp, hdata i hi p hp]
    exact hnulls r' bytes hbytes

/-- The field of a key column of that table. -/
private def optionalField (p : KeyPartInfo) : Field :=
  if p.nullBit = 0 then digitField 1 else { digitField 2 with nullBit := 1 }

private theorem unpacks_of_byte {p : KeyPartInfo} {f g : Field} (hsplit : ∃ A B,
    optional.field = A ++ f :: B ∧ A ++ B = [g]) (hp : 1 ≤ p.offset)
    (hoff : f.nullOffset = p.nullOffset) (hbit : f.nullBit = p.nullBit)
    (hdata : ∀ r, p.data r = [r.bytes p.offset]) (hpack : ∀ r, (f.pack r f.offset).length = 1)
    (hown : ∀ r src, (f.unpack r f.offset src).1.bytes p.offset = src 0)
    (hother : ∀ r src, (g.unpack r g.offset src).1.bytes p.offset = r.bytes p.offset) :
    optional.Unpacks p f := by
  obtain ⟨A, B, hfield, hAB⟩ := hsplit
  refine ⟨⟨A, B, hfield, fun g' hg r src ↦ ?_⟩, hoff, hbit,
    fun r r₁ r₂ src₁ src₂ h₁ h₂ _ ↦ ?_, fun r bytes hbytes ↦ ?_⟩
  · obtain rfl : g' = g := List.mem_singleton.mp (hAB ▸ hg)
    rw [hdata, hdata, hother]
  · have hzero : 0 < (f.pack r f.offset).length := by
      rw [hpack]
      exact Nat.one_pos
    rw [hdata, hdata, hown, hown, h₁ 0 hzero, h₂ 0 hzero]
  · rw [hdata, hdata]
    exact congrArg (fun b ↦ [b]) (hbytes p.offset hp)

theorem optional_unpacks : ∀ i < optional.keys, ∀ p ∈ (optional.keyInfo i).parts,
    optional.Unpacks p (optionalField p) := by
  intro i hi p hp
  rcases optional_part hi hp with ⟨rfl, rfl⟩ | ⟨rfl, rfl⟩
  · exact unpacks_of_byte ⟨[], _, rfl, rfl⟩ (Nat.le_refl 1) rfl rfl (fun _ ↦ rfl) (fun _ ↦ rfl)
      (fun _ _ ↦ rfl) fun _ _ ↦ rfl
  · exact unpacks_of_byte ⟨[digitField 1], [], rfl, rfl⟩ (Nat.le_succ 1) rfl rfl (fun _ ↦ rfl)
      (fun _ ↦ rfl) (fun _ _ ↦ rfl) fun _ _ ↦ rfl

/-- Rows written from the first buffer with zeros under their NULLs. -/
private def Zeroed (s : HaExample) (buf : Nat) : Prop :=
  FirstRecord optional recalling s buf ∧ ZeroNulls optional (s.newRow optional recalling buf).record

/-- A row without NULL, and one with a NULL that was stored after it. -/
private def nullAfter : List Request := store 0 5 7 ++ store 1 6 0

/-- The table after the first of two rows is read in a scan. -/
private def scannedOptional : HaExample := afterOptional (nullAfter ++ [.rndInit, .rndNext 0])

private theorem scannedOptional_run : (Request.performAll optional recalling
    (nullAfter ++ [.rndInit, .rndNext 0])).run openedOptional =
      .ok ([0, 0, 0, 0, 0, 0], scannedOptional) := run_of_answers (by decide +kernel)

attribute [irreducible] scannedOptional

private theorem zeroed_store {s : HaExample} {a b c : UInt8} (hn : s.nextNumberField = false)
    (hzero : ZeroNulls optional (digitRecord a b c)) :
    Zeroed { s with record := Function.update s.record 0 (digitRecord a b c) } 0 := by
  refine ⟨⟨fun _ _ ↦ rfl, fun _ _ _ ↦ rfl⟩, ?_⟩
  have hprep : (HaExample.prepared optional recalling 0
      { s with record := Function.update s.record 0 (digitRecord a b c) }).record =
      Function.update s.record 0 (digitRecord a b c) := by
    apply prepared_record
    exact hn
  unfold HaExample.newRow
  rw [hprep]
  exact hzero

private theorem scannedOptional_stored : ∃ rows,
    Stored optional recalling Zeroed rows scannedOptional := by
  have hzero : ∀ a b c, (a &&& 1 = 0 ∨ c = 0) → ZeroNulls optional (digitRecord a b c) := by
    intro a b c hor i hi p hp hnull k hk
    rcases optional_part hi hp with ⟨rfl, rfl⟩ | ⟨rfl, rfl⟩
    · exact absurd rfl hnull.1
    · obtain rfl : k = 0 := Nat.lt_one_iff.mp hk
      exact hor.resolve_left hnull.2
  obtain ⟨s₁, hs₁, hn₁, _, hrest⟩ := (openedOptional_stored Zeroed).store optional_ordered
    openedOptional_fresh.1 (by decide) (zeroed_store openedOptional_fresh.1
      (hzero 0 5 7 (.inl rfl))) scannedOptional_run
  obtain ⟨s₂, hs₂, _, _, hrest⟩ := hs₁.store optional_ordered hn₁ (by decide)
    (zeroed_store hn₁ (hzero 1 6 0 (.inr rfl))) hrest
  obtain ⟨s₃, hinit, hrest⟩ := performAll_cons hrest
  have hs₃ := hs₂.other _ s₂ s₃ .rndInit 0 id trivial hinit
  obtain ⟨s₄, hnext, hdone⟩ := performAll_cons hrest
  have hfirst : s₃.firstRow = true := by
    cases hinit
    rfl
  have hs₄ := hs₃.other _ s₃ s₄ (.rndNext 0) 0 id (.inl hfirst) hnext
  cases hdone
  exact ⟨_, hs₄⟩

private theorem scannedOptional_positioned :
    (Request.rndNext 0).Admissible optional scannedOptional := by
  have hslot : (scannedOptional.primaryIt.slot scannedOptional.pBtree).isSome = true ∧
      scannedOptional.activeIndex = 0 := by decide +kernel
  obtain ⟨e, he⟩ := Option.isSome_iff_exists.mp hslot.1
  refine .inr ?_
  unfold Request.Positioned
  rw [if_pos hslot.2]
  exact ⟨e, stands_of_slot he⟩

/-- The second row of a scan. -/
theorem scannedOptional_deletes : ∃ rows : List Row, wp Beyond
    ((Request.rndNext 0).perform optional recalling) (fun code s₁ ↦ code = 0 → ∃ row ∈ rows,
      StandsOnRow optional s₁ row ∧ wp (fun _ ↦ False) (HaExample.deleteRow optional 0)
        (fun code' s₂ ↦ code' = 0 ∧ Deletes optional row s₁ s₂ ↔
          StaleEqual optional optionalField row 0 (scannedOptional.record 0)) s₁)
      scannedOptional := by
  obtain ⟨rows, hs⟩ := scannedOptional_stored
  have hs : Stored optional recalling (FirstRecord optional recalling) rows scannedOptional :=
    hs.mono fun _ _ h ↦ h.1
  exact ⟨rows, read_row_deleted_iff optional_ordered optional_format optional_unpacks hs rfl
    scannedOptional_positioned (.inl (by decide +kernel))⟩

/-- The code of deleting the row read next. -/
private def deleteNext (s : HaExample) : Option (Int × Int) :=
  match (HaExample.rndNext optional recalling 0).run s with
  | .error _ => none
  | .ok (code, s₁) =>
    match (HaExample.deleteRow optional 0).run s₁ with
    | .error _ => none
    | .ok (code', _) => some (code, code')

/-- In a scan a row with a NULL, read after one without, is not deleted with its entry. -/
theorem read_row_not_deleted : ¬ ∀ (share : TableShare) (server : Server), share.Ordered →
    share.RecordFormat → (∀ i < share.keys, ∀ p ∈ (share.keyInfo i).parts,
      share.Column p p.data fun x y ↦ p.keyCmp x y = 0) → ∀ rows s,
    Stored share server (fun s buf ↦ FirstRecord share server s buf ∧
      ZeroNulls share (s.newRow share server buf).record) rows s →
    ∀ req : Request, req.Reads 0 → req.Admissible share s →
    s.activeIndex = 0 ∨ s.keyRead = false →
    wp Beyond (req.perform share server) (fun code s₁ ↦ code = 0 → ∃ row ∈ rows,
      StandsOnRow share s₁ row ∧ wp (fun _ ↦ False) (HaExample.deleteRow share 0)
        (fun code' s₂ ↦ code' = 0 ∧ Deletes share row s₁ s₂) s₁) s := by
  intro hall
  obtain ⟨rows, hs⟩ := scannedOptional_stored
  have hrun : deleteNext scannedOptional = some (0, HA_ERR_KEY_NOT_FOUND) := by decide +kernel
  unfold deleteNext at hrun
  split at hrun
  · cases hrun
  next code s₁ hnext =>
  split at hrun
  · cases hrun
  next code' s₂ hdeleted =>
  simp only [Option.some.injEq, Prod.mk.injEq] at hrun
  obtain ⟨rfl, rfl⟩ := hrun
  have hread := hall optional recalling optional_ordered optional_format optional_data rows
    scannedOptional hs (.rndNext 0) rfl scannedOptional_positioned (.inl (by decide +kernel))
  obtain ⟨row, _, _, hdel⟩ := wp_ok hread hnext rfl
  have := (wp_ok hdel hdeleted).1
  exact absurd this (by decide)

end Optional

end ExampleEngine.Handler
