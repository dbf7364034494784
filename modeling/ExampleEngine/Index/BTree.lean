import ExampleEngine.Base.LittleEndian
import ExampleEngine.Storage.Buffer

/-!
# The B+tree

Library `Index`. Models class `BTree` of `src/lib/btree.h:117–258` and
`src/lib/btree.cpp:315–619`. The object's constant fields are a `Config`, its mutable
ones a `BTree`; member functions are code over the latter. The metadata block is block 0,
pinned in the pool by `open`.
-/

namespace ExampleEngine.Index

open ExampleEngine.Base ExampleEngine.Storage

/-- The constructor arguments; `src/lib/btree.cpp:310–315`. -/
structure Config (K : Type) where
  keySize : Nat
  valueSize : Nat
  cmp : K → K → Int

namespace Config

variable {K : Type}

/-- `isConstValueSize`. -/
def isConstValueSize (c : Config K) : Bool := c.valueSize < 256

/-- `leafValueSize`, where a location takes 6 bytes. -/
def leafValueSize (c : Config K) : Nat := if c.valueSize ≥ 256 then 6 else c.valueSize

/-- `nodeValueSize`. -/
def nodeValueSize (_ : Config K) : Nat := 4

end Config

/-- Where a value is stored; `src/lib/btree.h:122–127`. -/
structure Location where
  index : Nat
  position : Nat
  deriving DecidableEq, Repr

/-- The six packed bytes of a location. -/
def Location.toBytes (l : Location) : List UInt8 := leBytes 4 l.index ++ leBytes 2 l.position

/-- Bytes read as a location. -/
def Location.ofBytes (bytes : List UInt8) : Location :=
  ⟨leNat (bytes.take 4), leNat ((bytes.drop 4).take 2)⟩

/-- Bytes read as a block index. -/
def childIndex (bytes : List UInt8) : Nat := leNat (bytes.take 4)

/-- The mutable fields: the root pointer and the buffer. -/
structure BTree (K : Type) where
  root : Nat
  buffer : BufferManager K

/-- Member functions of the tree. -/
abbrev TreeM (K : Type) := Code Fault (BTree K)

namespace BTree

variable {K : Type}

/-- Run a buffer operation. -/
def onBuffer {α : Type} (m : Code Fault (BufferManager K) α) : TreeM K α :=
  zoom BTree.buffer (fun b t ↦ { t with buffer := b }) m

/-- Read through a pointer. -/
def deref (p : Option Nat) : TreeM K (Page K) := do
  match p with
  | none => throw .nullPointer
  | some i =>
    match (← get).buffer.frame i with
    | some f => return f.page
    | none => throw .nullPointer

/-- Write through a pointer that was read before. -/
def store (p : Option Nat) (page : Page K) : TreeM K Unit := do
  match p with
  | none => throw .nullPointer
  | some i => modify fun t ↦
      { t with buffer := t.buffer.modifyFrame i fun f ↦ { f with page := page } }

/-- Read through a node pointer. -/
def readNode (p : Option Nat) : TreeM K (NodeBlock K) := do
  match ← deref p with
  | .node n => return n
  | _ => throw .wrongType

/-- Change a node through its pointer. -/
def modifyNode (p : Option Nat) (f : NodeBlock K → Except Fault (NodeBlock K)) :
    TreeM K Unit := do
  let n ← readNode p
  let n' ← liftM (f n)
  store p (.node n')

/-- Read through a data block pointer. -/
def readData (p : Option Nat) : TreeM K DataBlock := do
  match ← deref p with
  | .data d => return d
  | _ => throw .wrongType

/-- Read through the metadata pointer. -/
def readMeta : TreeM K BTreeMetadata := do
  match ← deref (some 0) with
  | .metadata m => return m
  | _ => throw .wrongType

/-- Write through the metadata pointer. -/
def writeMeta (m : BTreeMetadata) : TreeM K Unit := store (some 0) (.metadata m)

/-- `BTree::getNodeBlock`; `src/lib/btree.cpp:407–413`. -/
def getNodeBlock (index : Nat) : TreeM K (Option Nat) := do
  let m ← readMeta
  if index < m.countOfBlock then onBuffer (BufferManager.getBlock index 1)
  else throw .assertFailed

/-- The growth of the file when all its blocks are used, without what `resize` does to the file;
`src/lib/btree.cpp:416–420`. Up to 2^18 blocks it only makes the file longer. From 2^18 blocks it
asks for 2 GiB, a negative distance: `SetFilePointer` refuses it with a result other than zero, and
`SetEndOfFile` cuts the file at the block read or written last. A block that is in the pool under a
dirty mark is not read from the file again before it is written, so that only blocks saved before
are lost; results about what a file keeps say where it may be cut. -/
def growFile : TreeM K Unit := do
  let m ← readMeta
  if m.numberOfBlock = m.countOfBlock then
    writeMeta { m with numberOfBlock := m.numberOfBlock * 2 % 2 ^ 32 }

/-- The dirty mark of a block, read through its pointer. -/
def reserved (p : Option Nat) : TreeM K Nat := do
  match p with
  | none => throw .nullPointer
  | some i =>
    match (← get).buffer.frame i with
    | some f => return f.reserved
    | none => throw .nullPointer

/-- `BTree::getFreeNodeBlock`; `src/lib/btree.cpp:415–429`. -/
def getFreeNodeBlock (type : BlockType) (keySize valueSize : Nat) : TreeM K (Option Nat) := do
  growFile
  let m ← readMeta
  let block ← onBuffer (BufferManager.getBlock m.countOfBlock 1)
  -- the assertion reads the block before it is checked for null
  if (← reserved block) = 1 then do
    let page ← deref block
    store block (.node (NodeBlock.init page.header m.countOfBlock type keySize valueSize))
    writeMeta { m with countOfBlock := (m.countOfBlock + 1) % 2 ^ 32 }
    return block
  else throw .assertFailed

/-- `BTree::getFreeDataBlock`; `src/lib/btree.cpp:431–443`. -/
def getFreeDataBlock : TreeM K (Option Nat) := do
  growFile
  let m ← readMeta
  let block ← onBuffer (BufferManager.getBlock m.countOfBlock 1)
  match block with
  | none => return none
  | some _ => do
    let page ← deref block
    store block (.data (DataBlock.init page.header page.bytes m.countOfBlock))
    writeMeta { m with countOfBlock := (m.countOfBlock + 1) % 2 ^ 32 }
    return block

/-- `BTree::insertValue`, returning the location on success; every call may go on to the
next block of a chain or to a new block; `src/lib/btree.cpp:445–479`. -/
def insertValue : Nat → Nat → List UInt8 → TreeM K (Option Location)
  | 0, _, _ => throw .outOfFuel
  | fuel + 1, index, value => do
    let m ← readMeta
    if m.countOfBlock < index then throw .assertFailed
    else do
      let block ←
        if index = m.countOfBlock then getFreeDataBlock
        else onBuffer (BufferManager.getBlock index 1)
      match block with
      | none => return none
      | some _ => do
        let d ← readData block
        if d.freeSize ≤ toInt32 value.length then
          if d.header.next ≠ 0 then insertValue fuel d.header.next value
          else do
            let m ← readMeta
            insertValue fuel m.countOfBlock value
        else
          match d.insert value (value.length % 2 ^ 16) with
          | none => return none
          | some (d', position) => do
            store block (.data d')
            return some ⟨d'.header.index, position⟩

/-- Enough calls of `insertValue` for every block a file can have. -/
def insertValueFuel : Nat := 2 ^ 19 + 2

/-- `BTree::getValue`: the bytes from the record's address on, or a null pointer;
`src/lib/btree.cpp:481–491`. -/
def getValue (loc : Location) : TreeM K (Option (Nat → UInt8)) := do
  let m ← readMeta
  if loc.index < m.countOfBlock then do
    let block ← onBuffer (BufferManager.getBlock loc.index 0)
    match block with
    | none => return none
    | some _ => do
      let d ← readData block
      return (d.get loc.position).map fun o i ↦ d.bytes (o + i)
  else throw .assertFailed

/-- Whether the slot at the least upper bound holds the key; `src/lib/btree.cpp:501`. -/
def holdsKey (c : Config K) (n : NodeBlock K) (index : Nat) (key : K) : Except Fault Bool :=
  if index < n.count then return (← n.compare c.cmp index key) == 0 else return false

/-- The block the value of a new entry goes to: that of a neighbour, or a new one;
`src/lib/btree.cpp:525–530`. -/
def neighbourBlock (n : NodeBlock K) (index : Nat) : TreeM K Nat := do
  if n.empty then return (← readMeta).countOfBlock
  else do
    let v ← liftM (n.getValue (index - if index = n.count then 1 else 0))
    return (Location.ofBytes v).index

/-- The leaf case of `BTree::insert`, with the least upper bound of the key;
`src/lib/btree.cpp:499–538`. -/
def insertLeaf (c : Config K) (key : K) (value : List UInt8) (cur : Option Nat)
    (index : Nat) : TreeM K Int := do
  let n ← readNode cur
  if ← liftM (holdsKey c n index key) then
    if ← liftM (n.removed index) then
      if c.isConstValueSize then do
        modifyNode cur (·.set index none (some value) 1)
        return 1
      else do
        let old ← liftM (n.getValue index)
        match ← insertValue insertValueFuel (Location.ofBytes old).index value with
        | none => return -1
        | some loc => do
          modifyNode cur (·.set index none (some loc.toBytes) 1)
          return 1
    else return 0
  else if c.isConstValueSize then do
    modifyNode cur (·.insert key value index)
    return 1
  else do
    let block ← neighbourBlock n index
    match ← insertValue insertValueFuel block value with
    | none => return -1
    | some loc => do
      modifyNode cur (·.insert key loc.toBytes index)
      return 1

/-- The split of a full son at `index` of `cur`; `src/lib/btree.cpp:562–582`. -/
def splitSon (c : Config K) (cur son : Option Nat) (index : Nat) : TreeM K Unit := do
  let n ← readNode son
  let next ← getFreeNodeBlock n.header.type n.keySize n.valSize
  let fresh ← readNode next
  let halves := n.split fresh
  store son (.node halves.1)
  store next (.node halves.2)
  if n.header.next ≠ 0 then do
    let oldnext ← getNodeBlock n.header.next
    modifyNode oldnext fun o ↦ .ok { o with header.last := fresh.header.index }
    modifyNode next fun x ↦ .ok { x with header.next := n.header.next }
  modifyNode son fun x ↦ .ok { x with header.next := fresh.header.index }
  modifyNode next fun x ↦ .ok { x with header.last := n.header.index }
  -- `next` takes the son's slot and its greatest key
  modifyNode cur (·.set index none (some (leBytes 4 fresh.header.index)) 1)
  let maxKey ← liftM halves.1.maxKey
  modifyNode cur (·.insertKey c.cmp maxKey (leBytes 4 n.header.index))

/-- `BTree::insert` into the subtree at `cur`: 1 when inserted, 0 for a duplicate key and
-1 for an error; `src/lib/btree.cpp:493–586`. -/
def insert (c : Config K) (key : K) (value : List UInt8) : Nat → Option Nat → TreeM K Int
  | 0, _ => throw .outOfFuel
  | fuel + 1, cur => do
    let n ← readNode cur
    let lub ← liftM (n.lub c.cmp key)
    if n.leaf then insertLeaf c key value cur lub
    else do
      let maxKeyFlag := lub == n.count
      let index := if maxKeyFlag then lub - 1 else lub
      let v ← liftM (n.getValue index)
      let son ← getNodeBlock (childIndex v)
      let res ← insert c key value fuel son
      if res ≠ 1 then return res
      else do
        if maxKeyFlag then do
          let s ← readNode son
          let maxKey ← liftM s.maxKey
          modifyNode cur (·.set index (some maxKey) none 1)
        let s ← readNode son
        if ← liftM s.full then splitSon c cur son index
        return 1

/-- The split of a full root; `src/lib/btree.cpp:594–617`. -/
def splitRoot (c : Config K) : TreeM K Unit := do
  let t ← get
  let root := some t.root
  let r ← readNode root
  let newRoot ← getFreeNodeBlock .node c.keySize c.nodeValueSize
  let nextNode ← getFreeNodeBlock r.header.type c.keySize r.valSize
  let top ← readNode newRoot
  let fresh ← readNode nextNode
  let maxKey ← liftM r.maxKey
  let halves := r.split fresh
  store root (.node { halves.1 with header.next := fresh.header.index })
  store nextNode (.node { halves.2 with header.last := r.header.index })
  let leftKey ← liftM halves.1.maxKey
  -- `set(1, ..)`, `set(0, ..)` and `count = 2` on the fresh node
  store newRoot (.node { top with kv :=
    [⟨leftKey, 1, leBytes 4 r.header.index⟩, ⟨maxKey, 1, leBytes 4 fresh.header.index⟩] })
  let m ← readMeta
  writeMeta { m with root := top.header.index }
  match newRoot with
  | none => throw .nullPointer
  | some i => modify fun t ↦ { t with root := i }

/-- `BTree::put`; `src/lib/btree.cpp:588–619`. -/
def put (c : Config K) (key : K) (value : List UInt8) : TreeM K Int := do
  let t ← get
  let m ← readMeta
  let res ← insert c key value m.countOfBlock (some t.root)
  if res ≠ 1 then return res
  else do
    let m ← readMeta
    writeMeta { m with countOfItem := (m.countOfItem + 1) % 2 ^ 32 }
    let r ← readNode (some t.root)
    if ← liftM r.full then splitRoot c
    return 1

/-- `BTree::countOfItems`; `src/lib/btree.h:247`. -/
def countOfItems : TreeM K Nat := do
  let m ← readMeta
  return m.countOfItem

/-- The file contents `BTree::create` writes; `src/lib/btree.cpp:317–348`. -/
def create (c : Config K) (file : Nat → Page K) : Nat → Page K :=
  let rootHeader := BlockHeader.init ⟨.free, 0, 0, 0⟩ 1
  let root : NodeBlock K := NodeBlock.init rootHeader 1 .leaf c.keySize c.leafValueSize
  let metadata : BTreeMetadata :=
    { header := { BlockHeader.init root.header 0 with type := .metadata }
      root := 1
      countOfItem := 0
      countOfBlock := 2
      numberOfBlock := 32 }
  Function.update (Function.update file 1 (.node root)) 0 (.metadata metadata)

/-- `BTree::open`, from a tree whose buffer has an empty pool; 0 when a block cannot be
had; `src/lib/btree.cpp:350–367`. -/
def openTree : TreeM K Int := do
  let metadata ← onBuffer (BufferManager.getBlock 0 1)
  match metadata with
  | none => return 0
  | some _ => do
    let m ← readMeta
    let root ← getNodeBlock m.root
    match root with
    | none => return 0
    | some i => do
      let _ ← readNode root
      modify fun t ↦ { t with root := i }
      return 1

/-- A tree object on a file, before `open`. -/
def unopened (platform : Platform) (file : Nat → Page K) : BTree K :=
  ⟨0, ⟨platform, file, []⟩⟩

/-- `BTree::save`: write back, then mark the metadata and the root, whose pointers the
tree keeps; `src/lib/btree.h:232–237`. -/
def save (writable : Nat → Bool) : TreeM K Nat := do
  let t ← get
  let r := t.buffer.save writable
  let mark (f : Frame K) : Frame K := { f with reserved := 1 }
  set { t with buffer := (r.2.modifyFrame 0 mark).modifyFrame t.root mark }
  return r.1

/-- The file left behind by `BTree::~BTree`; `src/lib/btree.h:239–245`. -/
def destroy (writable : Nat → Bool) (t : BTree K) : Nat → Page K :=
  (t.buffer.save writable).2.file

end BTree

end ExampleEngine.Index
