import ExampleEngine.Index.BTree

/-!
# Iterators of the B+tree

Library `Index`. Models `BTree::Iterator` of `src/lib/btree.h:137–182` and
`src/lib/btree.cpp:156–312`, with the descents `getLeaf`, `getFirstLeaf` and
`getLastLeaf` of `src/lib/btree.cpp:369–405`. An iterator is a leaf pointer with a slot
index; its member functions return the iterator they leave behind.
-/

namespace ExampleEngine.Index

open ExampleEngine.Base ExampleEngine.Storage

/-- `BTree::IterFlag`; `src/lib/btree.h:129–135`. -/
inductive IterFlag where
  | EXACT_KEY
  | KEY_OR_NEXT
  | KEY_OR_PREV
  | AFTER_KEY
  | BEFROE_KEY
  deriving DecidableEq, Repr

/-- `BTree::Iterator`; `src/lib/btree.h:137–147`. -/
structure Iterator where
  cur : Option Nat := none
  index : Int := -1
  deriving DecidableEq, Repr

namespace BTree

variable {K : Type}

/-- A slot index as the 16-bit argument of the node's member functions. -/
def slotIndex (i : Int) : Nat := (i % 2 ^ 16).toNat

/-- The descent loop of `getLeaf`; `src/lib/btree.cpp:379–385`. -/
def getLeafLoop (c : Config K) (key : K) : Nat → Option Nat → TreeM K (Option Nat)
  | 0, _ => throw .outOfFuel
  | fuel + 1, node => do
    let n ← readNode node
    if n.leaf then return node
    else do
      let lub ← liftM (n.lub c.cmp key)
      let index := if lub = n.count then lub - 1 else lub
      let v ← liftM (n.getValue index)
      let son ← getNodeBlock (childIndex v)
      getLeafLoop c key fuel son

/-- `BTree::getLeaf`; `src/lib/btree.cpp:369–387`. -/
def getLeaf (c : Config K) (key : K) : TreeM K (Option Nat) := do
  let t ← get
  let r ← readNode (some t.root)
  let _ ← liftM (r.lub c.cmp key)
  let m ← readMeta
  getLeafLoop c key m.countOfBlock (some t.root)

/-- The descent loops of `getFirstLeaf` and `getLastLeaf`, by the slot they follow. -/
def getEndLeafLoop (slot : NodeBlock K → Nat) : Nat → Option Nat → TreeM K (Option Nat)
  | 0, _ => throw .outOfFuel
  | fuel + 1, node => do
    let n ← readNode node
    if n.leaf then return node
    else do
      let v ← liftM (n.getValue (slot n))
      let son ← getNodeBlock (childIndex v)
      getEndLeafLoop slot fuel son

/-- `BTree::getFirstLeaf`; `src/lib/btree.cpp:389–397`. -/
def getFirstLeaf : TreeM K (Option Nat) := do
  let t ← get
  let m ← readMeta
  getEndLeafLoop (fun _ ↦ 0) m.countOfBlock (some t.root)

/-- `BTree::getLastLeaf`; `src/lib/btree.cpp:399–405`. -/
def getLastLeaf : TreeM K (Option Nat) := do
  let t ← get
  let m ← readMeta
  getEndLeafLoop (fun n ↦ n.count - 1) m.countOfBlock (some t.root)

end BTree

namespace Iterator

open BTree

variable {K : Type}

/-- Whether the entry under the iterator is removed. -/
def removed (it : Iterator) : TreeM K Bool := do
  let n ← readNode it.cur
  liftM (n.removed (slotIndex it.index))

/-- One step of `next` to the following slot, without looking at its flag; nothing at the
end of the chain; `src/lib/btree.cpp:228–238,243–253`. -/
def stepNext (it : Iterator) : TreeM K (Option Iterator) := do
  let n ← readNode it.cur
  if it.index < (n.count : Int) - 1 then return some { it with index := it.index + 1 }
  else if it.index = (n.count : Int) - 1 then
    if n.header.next = 0 then return none
    else do
      let cur ← getNodeBlock n.header.next
      return some ⟨cur, 0⟩
  else return some it

/-- The loop of `next` over removed entries; `src/lib/btree.cpp:240–255`. -/
def nextLoop : Nat → Iterator → TreeM K (Int × Iterator)
  | 0, _ => throw .outOfFuel
  | fuel + 1, it => do
    if ← it.removed then
      match ← it.stepNext with
      | none => return (0, it)
      | some it' => nextLoop fuel it'
    else return (1, it)

/-- More steps than the tree has slots. -/
def fuel : TreeM K Nat := do
  let m ← readMeta
  return m.countOfBlock * BLOCK_SIZE + 1

/-- `Iterator::next`; `src/lib/btree.cpp:227–256`. -/
def next (it : Iterator) : TreeM K (Int × Iterator) := do
  match ← it.stepNext with
  | none => return (0, it)
  | some it' => do
    let f ← fuel
    nextLoop f it'

/-- One step of `prev` to the preceding slot; `src/lib/btree.cpp:259–269`. -/
def stepPrev (it : Iterator) : TreeM K (Option Iterator) := do
  if it.index > 0 then return some { it with index := it.index - 1 }
  else if it.index = 0 then do
    let n ← readNode it.cur
    if n.header.last = 0 then return none
    else do
      let cur ← getNodeBlock n.header.last
      let p ← readNode cur
      return some ⟨cur, (p.count : Int) - 1⟩
  else return some it

/-- The recursion of `prev`; `src/lib/btree.cpp:258–274`. -/
def prevLoop : Nat → Iterator → TreeM K (Int × Iterator)
  | 0, _ => throw .outOfFuel
  | fuel + 1, it => do
    match ← it.stepPrev with
    | none => return (0, it)
    | some it' =>
      if ← it'.removed then prevLoop fuel it' else return (1, it')

/-- `Iterator::prev`; `src/lib/btree.cpp:258–274`. -/
def prev (it : Iterator) : TreeM K (Int × Iterator) := do
  let f ← fuel
  prevLoop f it

/-- `Iterator::locate`; `src/lib/btree.cpp:156–203`. -/
def locate (c : Config K) (key : K) (flag : IterFlag) : TreeM K (Int × Iterator) := do
  let cur ← getLeaf c key
  let n ← readNode cur
  let lub ← liftM (n.lub c.cmp key)
  let it : Iterator := ⟨cur, lub⟩
  if lub = n.count then
    -- the key is after the last key or the tree is empty
    if n.empty then return (0, it)
    else if flag = .KEY_OR_PREV ∨ flag = .BEFROE_KEY then do
      let it : Iterator := { it with index := it.index - 1 }
      if ← it.removed then it.prev else return (1, it)
    else return (0, it)
  else do
    let res ← liftM (n.compare c.cmp lub key)
    let removed ← it.removed
    match flag with
    | .EXACT_KEY => if res = 0 ∧ removed = false then return (1, it) else return (0, it)
    | .KEY_OR_NEXT => if removed then it.next else return (1, it)
    | .KEY_OR_PREV => if res ≠ 0 ∨ removed then it.prev else return (1, it)
    | .AFTER_KEY => if res = 0 ∨ removed then it.next else return (1, it)
    | .BEFROE_KEY => it.prev

/-- `Iterator::first`; the index is set only on a nonempty leaf;
`src/lib/btree.cpp:205–214`. -/
def first (it : Iterator) : TreeM K (Int × Iterator) := do
  let cur ← getFirstLeaf
  let n ← readNode cur
  if n.empty then return (0, { it with cur := cur })
  else do
    let it : Iterator := ⟨cur, 0⟩
    if ← it.removed then it.next else return (1, it)

/-- `Iterator::last`; `src/lib/btree.cpp:216–225`. -/
def last (it : Iterator) : TreeM K (Int × Iterator) := do
  let cur ← getLastLeaf
  let n ← readNode cur
  if n.empty then return (0, { it with cur := cur })
  else do
    let it : Iterator := ⟨cur, (n.count : Int) - 1⟩
    if ← it.removed then it.prev else return (1, it)

/-- `Iterator::remove`; `src/lib/btree.cpp:287–289`. -/
def remove (it : Iterator) : TreeM K Unit :=
  modifyNode it.cur (·.removeByFlag (slotIndex it.index))

/-- `Iterator::getKey`; `src/lib/btree.cpp:295–297`. -/
def getKey (it : Iterator) : TreeM K K := do
  let n ← readNode it.cur
  liftM (n.getKey (slotIndex it.index))

/-- `Iterator::getValue`: the bytes from the value's address on;
`src/lib/btree.cpp:299–307`. -/
def getValue (c : Config K) (it : Iterator) : TreeM K (Option (Nat → UInt8)) := do
  let n ← readNode it.cur
  let v ← liftM (n.getValue (slotIndex it.index))
  if c.isConstValueSize then return some fun i ↦ (v[i]?).getD 0
  else BTree.getValue (Location.ofBytes v)

end Iterator

end ExampleEngine.Index
