import Mathlib.Algebra.Group.Int.Defs
import Mathlib.Algebra.GroupWithZero.Nat
import Mathlib.Data.List.Basic

/-!
# Block headers and data blocks

Library `Storage`. Models `src/lib/block.h:14–79` and `src/lib/block.cpp:40–82`. Sizes and
offsets are natural numbers, reduced modulo the width of the field that stores them.
The magic number and the checksum field are not read by the modelled code; the dirty
mark `reserved` is kept by the buffer frame that holds the block.
-/

namespace ExampleEngine.Storage

/-- What the modelled code can run into instead of returning. -/
inductive Fault where
  /-- An `assert` does not hold. -/
  | assertFailed
  /-- A null pointer is dereferenced. -/
  | nullPointer
  /-- `getBlock` marks a block whose `readBlock` failed; `src/lib/buffer.cpp:55–59`. -/
  | unreadable (index : Nat)
  /-- A block is used as a block of another type. -/
  | wrongType
  /-- A slot at or beyond `count` is used as an entry. -/
  | slotOutOfRange
  /-- A loop or recursion does not end. -/
  | outOfFuel
  deriving DecidableEq, Repr

/-- `BLOCK_SIZE`; `src/lib/block.h:23`. -/
abbrev BLOCK_SIZE : Nat := 4096

/-- Block types; `src/lib/block.h:14–19`. -/
inductive BlockType where
  | free
  | data
  | metadata
  | leaf
  | node
  | log
  deriving DecidableEq, Repr

/-- The header of a block; `src/lib/block.h:29–50`. -/
structure BlockHeader where
  type : BlockType
  index : Nat
  next : Nat
  last : Nat
  deriving DecidableEq, Repr

/-- `BlockHeader::init`: number the block and unlink it; `src/lib/block.h:42–48`. -/
def BlockHeader.init (h : BlockHeader) (index : Nat) : BlockHeader :=
  { h with index := index, next := 0, last := 0 }

/-- A 32-bit unsigned value read as a signed one. -/
def toInt32 (n : Nat) : Int :=
  if n % 2 ^ 32 < 2 ^ 31 then (n % 2 ^ 32 : Nat) else (n % 2 ^ 32 : Nat) - 2 ^ 32

/-- A record block; `count` is the length of the directory; `src/lib/block.h:61–79`.
The directory of record offsets is kept apart from the other bytes of the block. -/
structure DataBlock where
  header : BlockHeader
  free : Nat
  directory : List Nat
  bytes : Nat → UInt8

namespace DataBlock

/-- The number of records. -/
def count (b : DataBlock) : Nat := b.directory.length

/-- `DataBlock::init`; `src/lib/block.cpp:40–45`. -/
def init (h : BlockHeader) (bytes : Nat → UInt8) (index : Nat) : DataBlock where
  header := { h.init index with type := .data }
  free := BLOCK_SIZE
  directory := []
  bytes := bytes

/-- `DataBlock::freeSize`, with a header of 24 bytes; `src/lib/block.cpp:47–50`. -/
def freeSize (b : DataBlock) : Int :=
  (b.free : Int) - (24 + 2 * (b.count + 1)) - 2 - 2

/-- Copy `data` to address `addr`. -/
def copyTo (bytes : Nat → UInt8) (addr : Nat) (data : List UInt8) : Nat → UInt8 := fun a ↦
  if addr ≤ a then (data[a - addr]?).getD (bytes a) else bytes a

/-- `DataBlock::insert`, returning the block and the record's position, or nothing when
the record is refused; `src/lib/block.cpp:52–67`. -/
def insert (b : DataBlock) (data : List UInt8) (size : Nat) : Option (DataBlock × Nat) :=
  if (size : Int) > b.freeSize then none
  else
    let free := (((b.free : Int) - (size + 2)) % 2 ^ 16).toNat
    some ({ b with
      free := free
      bytes := copyTo b.bytes free (data.take size)
      directory := b.directory ++ [free] }, b.count)

/-- `DataBlock::get`: the address of a record; `src/lib/block.cpp:69–82`. -/
def get (b : DataBlock) (position : Nat) : Option Nat :=
  match b.directory[position]? with
  | none => none
  | some offset => if offset = 0 then none else some offset

/-- The margins of a data block between operations: the directory ends below the records,
and every record offset lies in the record area. -/
structure WF (b : DataBlock) : Prop where
  next : b.header.next = 0
  directory_le : 24 + 2 * b.count ≤ b.free
  free_le : b.free ≤ BLOCK_SIZE
  offset : ∀ o ∈ b.directory, b.free ≤ o ∧ o < BLOCK_SIZE

/-- A block that holds the records of another at the same positions, and maybe more. -/
structure Extends (b b' : DataBlock) : Prop where
  directory : b.directory <+: b'.directory
  bytes : ∀ a, b.free ≤ a → b'.bytes a = b.bytes a
  free_le : b'.free ≤ b.free

/-- A freshly initialised block is well formed. -/
theorem wf_init (h : BlockHeader) (bytes : Nat → UInt8) (index : Nat) :
    (init h bytes index).WF := by
  constructor <;> simp [init, BlockHeader.init, count, BLOCK_SIZE]

/-- Every block extends itself. -/
theorem Extends.refl (b : DataBlock) : b.Extends b :=
  ⟨List.prefix_refl _, fun _ _ ↦ rfl, Nat.le_refl _⟩

/-- Extensions compose. -/
theorem Extends.trans {a b c : DataBlock} (h : a.Extends b) (h' : b.Extends c) :
    a.Extends c where
  directory := h.directory.trans h'.directory
  bytes x hx := by rw [h'.bytes x (Nat.le_trans h.free_le hx), h.bytes x hx]
  free_le := Nat.le_trans h'.free_le h.free_le

/-- A well-formed block accepts a record that leaves one free byte by `freeSize`. -/
theorem insert_of_lt {b : DataBlock} {data : List UInt8} {size : Nat}
    (h : (size : Int) ≤ b.freeSize) : b.insert data size ≠ none := by
  simp [insert, h]

/-- An accepted record keeps the block well formed and its older records in place. -/
theorem insert_spec {b b' : DataBlock} {data : List UInt8} {size position : Nat}
    (hb : b.WF) (h : b.insert data size = some (b', position)) :
    b'.WF ∧ b.Extends b' ∧ b'.header = b.header ∧ position = b.count ∧
      b'.count = b.count + 1 ∧
      ∃ o, b'.get position = some o ∧
        ∀ i (hi : i < (data.take size).length), b'.bytes (o + i) = (data.take size)[i] := by
  unfold insert at h
  split at h
  · simp at h
  · next hsize =>
    simp only [Option.some.injEq, Prod.mk.injEq] at h
    obtain ⟨rfl, rfl⟩ := h
    have hd := hb.directory_le
    have hf := hb.free_le
    simp only [freeSize, Int.not_lt, BLOCK_SIZE] at hsize hf
    have hfree : (((b.free : Int) - (size + 2)) % 2 ^ 16).toNat = b.free - (size + 2) := by
      rw [Int.emod_eq_of_lt (by omega) (by omega)]
      omega
    rw [hfree]
    refine ⟨⟨hb.next, ?_, ?_, ?_⟩, ⟨?_, ?_, ?_⟩, rfl, rfl, by simp [count], ?_⟩
    · simp only [count, List.length_append, List.length_singleton] at hd hsize ⊢
      omega
    · simp only [BLOCK_SIZE]; omega
    · intro o ho
      simp only [BLOCK_SIZE]
      rcases List.mem_append.mp ho with ho | ho
      · have := hb.offset o ho
        simp only [BLOCK_SIZE] at this
        omega
      · rw [List.mem_singleton.mp ho]
        omega
    · exact List.prefix_append _ _
    · intro a ha
      have hlen : (data.take size).length ≤ a - (b.free - (size + 2)) := by
        rw [List.length_take]
        omega
      simp only [copyTo]
      split
      · rw [List.getElem?_eq_none hlen, Option.getD_none]
      · rfl
    · change b.free - (size + 2) ≤ b.free
      omega
    · refine ⟨b.free - (size + 2), ?_, ?_⟩
      · have hne : b.free - (size + 2) ≠ 0 := by
          simp only [count] at hsize
          omega
        simp [get, count, hne]
      · intro i hi
        have hsub : b.free - (size + 2) + i - (b.free - (size + 2)) = i := by omega
        simp only [copyTo, Nat.le_add_right, if_true, hsub]
        rw [List.getElem?_eq_getElem hi, Option.getD_some]

/-- Extending a block keeps the address of every record. -/
theorem Extends.get {b b' : DataBlock} (h : b.Extends b') {position o : Nat}
    (hg : b.get position = some o) : b'.get position = some o := by
  unfold DataBlock.get at *
  cases hp : b.directory[position]? with
  | none => simp [hp] at hg
  | some offset =>
    obtain ⟨rest, hrest⟩ := h.directory
    have hp' : b'.directory[position]? = some offset := by
      rw [← hrest, List.getElem?_append_left (List.getElem?_eq_some_iff.mp hp).1, hp]
    rw [hp'] at *
    rw [hp] at hg
    exact hg

/-- A record address of a well-formed block lies in the record area. -/
theorem free_le_of_get {b : DataBlock} (hb : b.WF) {position o : Nat}
    (hg : b.get position = some o) : b.free ≤ o := by
  unfold DataBlock.get at hg
  cases hp : b.directory[position]? with
  | none => simp [hp] at hg
  | some offset =>
    simp only [hp] at hg
    split at hg
    · simp at hg
    · have ho := (hb.offset offset (List.mem_of_getElem? hp)).1
      simp only [Option.some.injEq] at hg
      omega

end DataBlock

end ExampleEngine.Storage
