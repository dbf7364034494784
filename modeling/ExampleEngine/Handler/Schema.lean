import ExampleEngine.Index.BTree

/-!
# Tables, keys and records

Library `Handler`. The parts of the server's `KEY_PART_INFO`, `KEY`, `Field` and
`TABLE_SHARE` that the engine reads, with key images, key comparison and row packing of
`src/ha_example.cc:195–379`. Fields pack, unpack and compare by functions of their own. What
the server promises of a table definition is carried by the structures.
-/

namespace ExampleEngine.Handler

open ExampleEngine.Base ExampleEngine.Index

/-- The bytes of a key, as far as its buffer goes. -/
abbrev Key := List UInt8

/-- A record buffer: its bytes, and the memory its blob pointers lead to. -/
structure Record where
  bytes : Nat → UInt8
  blobs : Nat → List UInt8

/-- A column of a table: `is_null`, `offset`, `pack`, `unpack` and, for blobs,
`get_length`. A column that is never null has no null bit. -/
structure Field where
  nullOffset : Nat
  nullBit : UInt8
  offset : Nat
  /-- The bytes packed from the record at an offset. -/
  pack : Record → Nat → List UInt8
  /-- The record after unpacking to an offset, with the number of bytes consumed. -/
  unpack : Record → Nat → (Nat → UInt8) → Record × Nat
  getLength : Record → Nat

/-- `is_null`, which reads the null bit in `table->record[0]`. -/
def Field.isNull (f : Field) (record0 : Record) : Bool :=
  record0.bytes f.nullOffset &&& f.nullBit != 0

/-- A column of a key. Its image holds a null byte if it has a null bit, then `length` bytes,
then two more for a blob or a column of variable length. -/
structure KeyPartInfo where
  nullBit : UInt8
  nullOffset : Nat
  offset : Nat
  length : Nat
  storeLength : Nat
  /-- `HA_BLOB_PART` is among the flags. -/
  blobPart : Bool
  /-- `HA_VAR_LENGTH_PART` is among the flags. -/
  varLengthPart : Bool
  /-- `key_cmp` of the field, on the image after the null byte. -/
  keyCmp : List UInt8 → List UInt8 → Int
  storeLength_eq : storeLength =
    (if nullBit ≠ 0 then 1 else 0) + length + if blobPart || varLengthPart then 2 else 0

namespace KeyPartInfo

/-- The number of null bytes; `src/ha_example.cc:207–210`. -/
def off (p : KeyPartInfo) : Nat := if p.nullBit ≠ 0 then 1 else 0

/-- The number of bytes skipped after the data; `HA_KEY_BLOB_LENGTH`. -/
def pad (p : KeyPartInfo) : Nat := if p.blobPart || p.varLengthPart then 2 else 0

/-- The bytes at a pointer that `key_cmp` is given. -/
def image (p : KeyPartInfo) (a : Key) : List UInt8 := (a.drop p.off).take (p.storeLength - p.off)

end KeyPartInfo

/-- A key of the table; its length is that of the images of its user-defined parts, at most
512 bytes of columns with three more for each of at most 16 parts;
`src/ha_example.h:169–191`. -/
structure KeyInfo where
  userDefinedKeyParts : Nat
  keyLength : Nat
  keyPart : List KeyPartInfo
  parts_le : userDefinedKeyParts ≤ keyPart.length
  keyLength_eq : keyLength =
    ((keyPart.take userDefinedKeyParts).map KeyPartInfo.storeLength).sum
  keyLength_le : keyLength ≤ 560

/-- The parts that comparisons loop over. -/
def KeyInfo.parts (k : KeyInfo) : List KeyPartInfo := k.keyPart.take k.userDefinedKeyParts

/-- The definition of a table with its keys, the primary one first;
`src/ha_example.h:169`. -/
structure TableShare where
  keys : Nat
  keyInfo : Nat → KeyInfo
  field : List Field
  blobField : List Field
  nullBytes : Nat
  reclength : Nat
  keys_pos : 0 < keys
  keys_le : keys ≤ 64

/-- The loop of the comparators over key parts; `src/ha_example.cc:204–216`. -/
def compareParts : List KeyPartInfo → Key → Key → Int
  | [], _, _ => 0
  | p :: ps, ap, bp =>
    let cmp := p.keyCmp (p.image ap) (p.image bp)
    if cmp ≠ 0 then cmp
    else compareParts ps (ap.drop p.storeLength) (bp.drop p.storeLength)

/-- `key_copy`, with the bytes it skips left zero; `src/ha_example.cc:290–319`. -/
def keyCopy (record : Record) : List KeyPartInfo → Nat → Key
  | [], _ => []
  | p :: ps, keyLength =>
    if keyLength = 0 then []
    else
      let null : Key :=
        if p.nullBit ≠ 0 then
          [if record.bytes p.nullOffset &&& p.nullBit ≠ 0 then 1 else 0]
        else []
      let keyLength := keyLength - null.length - p.pad
      let length := min keyLength p.length
      let data := (List.range length).map fun i ↦ record.bytes (p.offset + i)
      null ++ data ++ List.replicate p.pad 0 ++ keyCopy record ps (keyLength - length)

/-- Overwrite the start of a buffer. -/
def memcpy (dst src : List UInt8) : List UInt8 := src ++ dst.drop src.length

namespace TableShare

variable (share : TableShare)

/-- `primary_key_length`; `src/ha_example.cc:489`. -/
def primaryKeyLength : Nat := (share.keyInfo 0).keyLength

/-- `max_second_key_length`; `src/ha_example.cc:491–495`. -/
def maxSecondKeyLength : Nat :=
  (List.range' 1 (share.keys - 1)).foldl (fun m i ↦ max m (share.keyInfo i).keyLength) 0

/-- `primary_key_compare`; `src/ha_example.cc:200–217`. -/
def primaryKeyCompare (a b : Key) : Int := compareParts (share.keyInfo 0).parts a b

/-- `second_key_compare_prefix`; `src/ha_example.cc:220–244`. -/
def secondKeyComparePrefix (a b : Key) : Int :=
  let keyNum := (a.headD 0 &&& 0x7f).toNat
  let keyNumb := (b.headD 0 &&& 0x7f).toNat
  if keyNum ≠ keyNumb then (keyNum : Int) - keyNumb
  else compareParts (share.keyInfo keyNum).parts (a.drop 1) (b.drop 1)

/-- `second_key_compare`: key number, columns of that key, then the marker of the search key
or the primary key; `src/ha_example.cc:247–279`. -/
def secondKeyCompare (a b : Key) : Int :=
  let keyNum := (a.headD 0 &&& 0x3f).toNat
  let keyNumb := (b.headD 0 &&& 0x3f).toNat
  if keyNum ≠ keyNumb then (keyNum : Int) - keyNumb
  else
    let firstFlag := b.headD 0 &&& 0x80
    let lastFlag := b.headD 0 &&& 0x40
    let parts := (share.keyInfo keyNum).parts
    let cmp := compareParts parts (a.drop 1) (b.drop 1)
    if cmp ≠ 0 then cmp
    else if lastFlag ≠ 0 then -1
    else if firstFlag ≠ 0 then 1
    else
      let length := (parts.map KeyPartInfo.storeLength).sum
      share.primaryKeyCompare ((a.drop 1).drop length) ((b.drop 1).drop length)

/-- `pack_key`: the primary key, or for another key its number, its columns and the primary
key, in a zeroed buffer; `src/ha_example.cc:321–335`. -/
def packKey (keyNum : Nat) (record : Record) : Key :=
  let primary := keyCopy record (share.keyInfo 0).keyPart (share.keyInfo 0).keyLength
  memcpy (List.replicate (share.primaryKeyLength + share.maxSecondKeyLength + 1) 0)
    (if keyNum ≠ 0 then
      UInt8.ofNat keyNum ::
        keyCopy record (share.keyInfo keyNum).keyPart (share.keyInfo keyNum).keyLength ++ primary
    else primary)

/-- The tree of rows; `src/ha_example.cc:502`, with the default value size. -/
def primary : Config Key := ⟨share.primaryKeyLength, 0xffff, share.primaryKeyCompare⟩

/-- The tree of the entries of all secondary indexes; `src/ha_example.cc:513–514`. -/
def second : Config Key :=
  ⟨share.primaryKeyLength + share.maxSecondKeyLength + 1, 0, share.secondKeyCompare⟩

/-- The bytes of a packed row: the null bytes of the buffer, then the columns that are not null.
`offset(buf)` is the distance from the buffer to the column in `table->record[0]`, so the column
is packed from there, whatever the buffer; `src/ha_example.cc:353–363`. -/
def packed (record0 record : Record) : List UInt8 :=
  (List.range share.nullBytes).map record.bytes ++
    share.field.flatMap fun f ↦ if f.isNull record0 then [] else f.pack record0 f.offset

/-- The memory asked for a packed row; `src/ha_example.cc:338–342`. -/
def maxLen (record0 : Record) : Nat :=
  share.reclength + (share.blobField.map fun f ↦ f.getLength record0).sum

end TableShare

/-- The columns of a packed row from a position on, unpacked to where `to + offset(to)` leads:
into `table->record[0]`, which also tells the columns that are null;
`src/ha_example.cc:371–377`. -/
def unpackFields (src : Nat → UInt8) : List Field → Nat → Record → Record
  | [], _, record0 => record0
  | f :: fs, pos, record0 =>
    if f.isNull record0 then unpackFields src fs pos record0
    else
      let r := f.unpack record0 f.offset fun i ↦ src (pos + i)
      unpackFields src fs (pos + r.2) r.1

/-- `unpack_row` into the buffer `dst`, which receives the null bytes;
`src/ha_example.cc:368–379`. -/
def TableShare.unpackRow (share : TableShare) (src : Nat → UInt8) (dst : Nat)
    (record : Nat → Record) : Nat → Record :=
  let nulls := { record dst with
    bytes := fun i ↦ if i < share.nullBytes then src i else (record dst).bytes i }
  let record := Function.update record dst nulls
  Function.update record 0 (unpackFields src share.field share.nullBytes (record 0))

end ExampleEngine.Handler
