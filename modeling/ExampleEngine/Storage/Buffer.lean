import ExampleEngine.Base.Wp
import ExampleEngine.Storage.Node

/-!
# Pages, the file and the buffer pool

Library `Storage`. Models `BTreeMetadata` of `src/lib/btree.h:99–115`,
`src/lib/file.cpp:37–66` and `src/lib/buffer.cpp:13–63`. A pointer into the pool is the
index of its block, since a pooled block is never moved or dropped.
-/

namespace ExampleEngine.Storage

open ExampleEngine.Base

/-- The metadata block; `src/lib/btree.h:99–115`. -/
structure BTreeMetadata where
  header : BlockHeader
  root : Nat
  countOfItem : Nat
  countOfBlock : Nat
  numberOfBlock : Nat
  deriving DecidableEq, Repr

/-- The contents of a block, by the role it was initialised for. -/
inductive Page (K : Type) where
  /-- A block that was never initialised. -/
  | raw (header : BlockHeader) (bytes : Nat → UInt8)
  | metadata (m : BTreeMetadata)
  | node (n : NodeBlock K)
  | data (d : DataBlock)

/-- Every page starts with a block header. -/
def Page.header {K : Type} : Page K → BlockHeader
  | .raw h _ => h
  | .metadata m => m.header
  | .node n => n.header
  | .data d => d.header

/-- The bytes behind the header, as far as the modelled code reads them. -/
def Page.bytes {K : Type} : Page K → Nat → UInt8
  | .raw _ bytes => bytes
  | .data d => d.bytes
  | _ => fun _ ↦ 0

@[simp] theorem Page.header_metadata {K : Type} (m : BTreeMetadata) :
    (Page.metadata m : Page K).header = m.header := rfl

@[simp] theorem Page.header_node {K : Type} (n : NodeBlock K) :
    (Page.node n).header = n.header := rfl

@[simp] theorem Page.header_data {K : Type} (d : DataBlock) :
    (Page.data d : Page K).header = d.header := rfl

/-- What the operating system and the standard library decide: which allocations and
reads succeed, and in which order an `unordered_map` with given keys is iterated. -/
structure Platform where
  alloc : Nat → Bool
  readable : Nat → Bool
  order : List Nat → List Nat
  order_perm : ∀ l, (order l).Perm l

/-- A platform on which no allocation and no read fails. -/
structure Platform.Reliable (p : Platform) : Prop where
  alloc : ∀ i, p.alloc i = true
  readable : ∀ i, p.readable i = true

/-- The byte position of a block, computed in 32 bits; `src/lib/file.cpp:39,56`. -/
def blockPosition (offset : Nat) : Nat := offset * BLOCK_SIZE % 2 ^ 32

/-- `SetFilePointer` takes a signed 32-bit distance and refuses a negative one. -/
def seekable (offset : Nat) : Bool := blockPosition offset < 2 ^ 31

/-- The size that `MyFile::resize` computes in 32 bits; `src/lib/file.cpp:63–66`. From 2^31 on it is
not the one that the file is given. -/
def resizeSize (numberOfBlock : Nat) : Nat := BLOCK_SIZE * numberOfBlock % 2 ^ 32

/-- A pooled block with its dirty mark, the `reserved` field of its header. -/
structure Frame (K : Type) where
  reserved : Nat
  page : Page K

/-- The buffer manager: its file, by block, and its pool; `src/lib/buffer.h:20–40`. -/
structure BufferManager (K : Type) where
  platform : Platform
  file : Nat → Page K
  pool : List (Nat × Frame K)

namespace BufferManager

variable {K : Type}

/-- `MyFile::readBlock`; `src/lib/file.cpp:53–61`. -/
def readBlock (b : BufferManager K) (offset : Nat) : Option (Page K) :=
  if seekable offset ∧ b.platform.readable (blockPosition offset / BLOCK_SIZE) then
    some (b.file (blockPosition offset / BLOCK_SIZE))
  else none

/-- `MyFile::writeBlock`, where `writable` tells whether `WriteFile` succeeds;
`src/lib/file.cpp:37–51`. -/
def writeBlock (b : BufferManager K) (writable : Nat → Bool) (page : Page K) (offset : Nat) :
    Option (BufferManager K) :=
  if seekable offset ∧ writable (blockPosition offset / BLOCK_SIZE) then
    some { b with file := Function.update b.file (blockPosition offset / BLOCK_SIZE) page }
  else none

/-- The frame of a pooled block. -/
def frame (b : BufferManager K) (index : Nat) : Option (Frame K) := b.pool.lookup index

/-- Change the frame of a pooled block. -/
def modifyFrame (b : BufferManager K) (index : Nat) (f : Frame K → Frame K) :
    BufferManager K :=
  { b with pool := b.pool.map fun p ↦ if p.1 = index then (p.1, f p.2) else p }

/-- The loop of `save` over the rest of the pool; `src/lib/buffer.cpp:26–35`. -/
def saveLoop (writable : Nat → Bool) : List Nat → BufferManager K → Nat × BufferManager K
  | [], b => (1, b)
  | i :: rest, b =>
    match b.frame i with
    | none => saveLoop writable rest b
    | some f =>
      if f.reserved ≠ 0 then
        -- the mark is cleared first, so the written header carries a clean one
        match (b.modifyFrame i fun f ↦ { f with reserved := 0 }).writeBlock writable f.page i with
        | some b' => saveLoop writable rest b'
        | none => (0, b.modifyFrame i fun f ↦ { f with reserved := 1 })
      else saveLoop writable rest b

/-- `BufferManager::save`: write back every dirty block; `src/lib/buffer.cpp:25–38`. -/
def save (writable : Nat → Bool) (b : BufferManager K) : Nat × BufferManager K :=
  saveLoop writable (b.platform.order (b.pool.map Prod.fst)) b

/-- `BufferManager::getBlock`; the result is a null pointer when the block cannot be
allocated; `src/lib/buffer.cpp:40–63`. -/
def getBlock (index flag : Nat) : Code Fault (BufferManager K) (Option Nat) := do
  let b ← get
  match b.frame index with
  | some f =>
    if f.page.header.index = index then do
      set (b.modifyFrame index fun f ↦
        if f.reserved = 0 then { f with reserved := flag } else f)
      return some index
    else throw .assertFailed
  | none =>
    if b.platform.alloc index then
      match b.readBlock index with
      | some page => do
        set { b with pool := (index, ⟨flag, page⟩) :: b.pool }
        return some index
      | none => throw (.unreadable index)
    else return none

/-- The logical contents of a block: in memory if pooled, in the file otherwise. -/
def view (b : BufferManager K) (index : Nat) : Page K :=
  match b.frame index with
  | some f => f.page
  | none => b.file index

/-- The block is in the pool. -/
def Pooled (b : BufferManager K) (index : Nat) : Prop := (b.frame index).isSome

/-- The block is in the pool and marked dirty. -/
def Dirty (b : BufferManager K) (index : Nat) : Prop :=
  ∃ f, b.frame index = some f ∧ f.reserved ≠ 0

/-- The file holds every pooled block without a dirty mark, up to `R`. -/
def Synced (R : Page K → Page K → Prop) (b : BufferManager K) : Prop :=
  ∀ i f, b.frame i = some f → f.reserved = 0 → R (b.file i) f.page

/-- A dirty block is pooled. -/
theorem Dirty.pooled {b : BufferManager K} {i : Nat} (h : b.Dirty i) : b.Pooled i := by
  obtain ⟨f, hf, _⟩ := h
  simp [Pooled, hf]

/-- Below 2^19 the position of a block does not wrap and can be sought. -/
theorem position_of_lt {i : Nat} (h : i < 2 ^ 19) :
    seekable i = true ∧ blockPosition i / BLOCK_SIZE = i := by
  have hp : blockPosition i = i * 4096 := by
    unfold blockPosition
    rw [Nat.mod_eq_of_lt (by simp only [BLOCK_SIZE]; omega)]
  refine ⟨?_, ?_⟩
  · simp only [seekable, hp, decide_eq_true_eq]
    omega
  · rw [hp, Nat.mul_div_cancel i (by decide)]

private theorem lookup_modify (pool : List (Nat × Frame K)) (i j : Nat)
    (f : Frame K → Frame K) :
    (pool.map fun p ↦ if p.1 = i then (p.1, f p.2) else p).lookup j =
      if j = i then (pool.lookup j).map f else pool.lookup j := by
  induction pool with
  | nil => simp
  | cons p pool ih =>
    obtain ⟨x, fr⟩ := p
    by_cases hj : j = x
    · subst hj
      by_cases hx : j = i <;> simp [hx]
    · have hjx : (j == x) = false := by simp [hj]
      by_cases hx : x = i
      · subst hx
        simp [List.lookup_cons, hjx, hj, ih]
      · simp [List.lookup_cons, hjx, hx, ih]

/-- Changing a frame is seen at its own index only. -/
theorem frame_modifyFrame (b : BufferManager K) (i j : Nat) (f : Frame K → Frame K) :
    (b.modifyFrame i f).frame j = if j = i then (b.frame j).map f else b.frame j :=
  lookup_modify b.pool i j f

end BufferManager

end ExampleEngine.Storage
