import ExampleEngine.Handler.Schema
import ExampleEngine.Index.Iterator

/-!
# The handler

Library `Handler`. Models class `ha_example` of `src/ha_example.h:57–86` and
`src/ha_example.cc:337–1135`. A handler is the state of an open table; its member functions
return the codes of the server. Record buffers are known by number, and `table->record[0]`
is buffer 0. What the server does in between is a parameter.
-/

namespace ExampleEngine.Handler

open ExampleEngine.Base ExampleEngine.Storage ExampleEngine.Index

abbrev HA_ERR_KEY_NOT_FOUND : Int := 120
abbrev HA_ERR_FOUND_DUPP_KEY : Int := 121
abbrev HA_ERR_INTERNAL_ERROR : Int := 122
abbrev HA_ERR_OUT_OF_MEM : Int := 128
abbrev HA_ERR_WRONG_COMMAND : Int := 131
abbrev HA_ERR_END_OF_FILE : Int := 137
abbrev HA_ERR_NO_SUCH_TABLE : Int := 155

/-- The search modes; the engine handles all but the last kind. -/
inductive HaRkeyFunction where
  | HA_READ_KEY_EXACT
  | HA_READ_KEY_OR_NEXT
  | HA_READ_KEY_OR_PREV
  | HA_READ_AFTER_KEY
  | HA_READ_BEFORE_KEY
  | HA_READ_PREFIX_LAST_OR_PREV
  /-- Any other mode of the server. -/
  | other
  deriving DecidableEq, Repr

/-- The operations of `extra` that the engine knows. -/
inductive HaExtraFunction where
  | HA_EXTRA_KEYREAD
  | HA_EXTRA_NO_KEYREAD
  | other
  deriving DecidableEq, Repr

/-- The server's side, at its `n`-th call: whether an allocation succeeds, what
`update_auto_increment` returns and makes of `table->record[0]`, and what `key_restore` makes
of a record. -/
structure Server where
  malloc : Nat → Nat → Bool
  updateAutoIncrement : Nat → Record → Int × Record
  keyRestore : Record → Key → KeyInfo → Nat → Record

/-- An open table; `src/ha_example.h:57–82`. -/
structure HaExample where
  /-- The record buffers of the server. -/
  record : Nat → Record
  /-- `table->next_number_field` is set. -/
  nextNumberField : Bool
  /-- The number of calls to the server so far. -/
  calls : Nat
  bufSize : Nat
  /-- `record_buffer` is not null. -/
  recordBuffer : Bool
  ref : Key
  keyBuffer : Key
  pBtree : BTree Key
  sBtree : Option (BTree Key)
  primaryIt : Iterator
  secIt : Iterator
  activeIndex : Nat
  firstRow : Bool
  keyRead : Bool

/-- Member functions of the handler. -/
abbrev HandlerM := Code Fault HaExample

namespace HaExample

variable (share : TableShare) (server : Server)

/-- Run an operation of the tree of rows. -/
def onPrimary {α : Type} (m : TreeM Key α) : HandlerM α :=
  zoom HaExample.pBtree (fun t s ↦ { s with pBtree := t }) m

/-- Run an operation of the tree of entries. -/
def onSecond {α : Type} (m : TreeM Key α) : HandlerM α := fun s ↦
  match s.sBtree with
  | none => .error .nullPointer
  | some t =>
    match m.run t with
    | .ok (a, t') => .ok (a, { s with sBtree := some t' })
    | .error e => .error e

/-- `open`, on trees that are on their files; `src/ha_example.cc:501–534`. -/
def openTable : HandlerM Int := do
  if (← onPrimary BTree.openTree) = 0 then return HA_ERR_NO_SUCH_TABLE
  else if share.keys > 1 then do
    if (← onSecond BTree.openTree) = 0 then return HA_ERR_NO_SUCH_TABLE
    else return 0
  else return 0

/-- Move `primary_it`. -/
def movePrimary (move : Iterator → TreeM Key (Int × Iterator)) : HandlerM Int := do
  let s ← get
  let r ← onPrimary (move s.primaryIt)
  modify fun s ↦ { s with primaryIt := r.2 }
  return r.1

/-- Move `sec_it`. -/
def moveSecond (move : Iterator → TreeM Key (Int × Iterator)) : HandlerM Int := do
  let s ← get
  let r ← onSecond (move s.secIt)
  modify fun s ↦ { s with secIt := r.2 }
  return r.1

/-- The call of `update_auto_increment` for a record; `src/ha_example.cc:593–597,652–653`. -/
def numbered (buf : Nat) (s : HaExample) : Int × HaExample :=
  if s.nextNumberField && buf == 0 then
    let r := server.updateAutoIncrement s.calls (s.record 0)
    (r.1, { s with calls := s.calls + 1, record := Function.update s.record 0 r.2 })
  else (0, s)

/-- The growth of `record_buffer`; `src/ha_example.cc:338–348`. -/
def grown (s : HaExample) : HaExample :=
  let maxLen := share.maxLen (s.record 0) % 2 ^ 32
  if s.bufSize < maxLen then
    { s with
      bufSize := maxLen
      recordBuffer := server.malloc s.calls maxLen
      calls := s.calls + 1 }
  else s

/-- `pack_row`, with nothing where it returns -1; `src/ha_example.cc:337–366`. -/
def packRow (buf : Nat) (s : HaExample) : Option (List UInt8) × HaExample :=
  let s := s.grown share server
  let row := share.packed (s.record 0) (s.record buf)
  (if s.recordBuffer ∧ toInt32 row.length ≠ -1 then some row else none, s)

/-- The loop of `write_row` over secondary indexes; `src/ha_example.cc:613–617`. -/
def writeEntries (buf : Nat) : List Nat → HandlerM Int
  | [] => return 0
  | idx :: rest => do
    modify fun s ↦ { s with keyBuffer := share.packKey idx (s.record buf) }
    let s ← get
    let res ← onSecond (BTree.put share.second s.keyBuffer [])
    if res ≠ 1 then return HA_ERR_INTERNAL_ERROR
    else writeEntries buf rest

/-- The numbers of the secondary indexes. -/
def indexes : List Nat := List.range' 1 (share.keys - 1)

/-- `write_row`; `src/ha_example.cc:588–622`. The tree copies as many bytes of `ref` as its
keys have. -/
def writeRow (buf : Nat) : HandlerM Int := do
  let error ← modifyGet (numbered server buf)
  if error ≠ 0 then return error
  else do
    match ← modifyGet (packRow share server buf) with
    | none => return HA_ERR_OUT_OF_MEM
    | some row => do
      modify fun s ↦ { s with ref := share.packKey 0 (s.record buf) }
      let s ← get
      let res ← onPrimary (BTree.put share.primary (s.ref.take share.primaryKeyLength) row)
      if res = -1 then return HA_ERR_INTERNAL_ERROR
      else if res = 0 then return HA_ERR_FOUND_DUPP_KEY
      else writeEntries share buf (indexes share)

/-- The loop of `delete_row` over secondary indexes; `src/ha_example.cc:697–704`. -/
def deleteEntries (buf : Nat) : List Nat → HandlerM Int
  | [] => return 0
  | idx :: rest => do
    modify fun s ↦ { s with keyBuffer := share.packKey idx (s.record buf) }
    let s ← get
    let r ← onSecond (Iterator.locate share.second s.keyBuffer .EXACT_KEY)
    if r.1 = 0 then return HA_ERR_KEY_NOT_FOUND
    else do
      onSecond r.2.remove
      deleteEntries buf rest

/-- `delete_row`; `src/ha_example.cc:683–708`. -/
def deleteRow (buf : Nat) : HandlerM Int := do
  modify fun s ↦ { s with ref := share.packKey 0 (s.record buf) }
  let s ← get
  let r ← onPrimary (Iterator.locate share.primary s.ref .EXACT_KEY)
  if r.1 = 0 then return HA_ERR_KEY_NOT_FOUND
  else do
    onPrimary r.2.remove
    deleteEntries share buf (indexes share)

/-- `update_row`, whose first call of `update_auto_increment` may fail unnoticed;
`src/ha_example.cc:648–660`. -/
def updateRow (old new : Nat) : HandlerM Int := do
  let _ ← modifyGet (numbered server new)
  let rc ← deleteRow share old
  if rc ≠ 0 then return rc
  else writeRow share server new

/-- `get_cur_row` on the primary key; `src/ha_example.cc:382–387`. -/
def getPrimaryRow (buf : Nat) : HandlerM Int := do
  let s ← get
  match ← onPrimary (s.primaryIt.getValue share.primary) with
  | none => return HA_ERR_INTERNAL_ERROR
  | some p => do
    modify fun s ↦ { s with record := share.unpackRow p buf s.record }
    return 0

/-- `rnd_pos`; `src/ha_example.cc:1055–1069`. -/
def rndPos (buf : Nat) (pos : Key) : HandlerM Int := do
  let res ← movePrimary fun _ ↦ Iterator.locate share.primary pos .EXACT_KEY
  if res = 0 then return HA_ERR_KEY_NOT_FOUND
  else getPrimaryRow share buf

/-- `get_cur_row`: the row under the cursor, by way of the primary key for a secondary index,
or the columns of the entry alone; `src/ha_example.cc:381–400`. -/
def getCurRow (key buf : Nat) : HandlerM Int := do
  if key = 0 then getPrimaryRow share buf
  else do
    let keyLen := (share.keyInfo key).keyLength
    let s ← get
    let secKey ← onSecond (s.secIt.getKey)
    if s.keyRead then do
      modify fun s ↦
        let r := server.keyRestore (s.record buf) (secKey.drop 1) (share.keyInfo key) keyLen
        let r := server.keyRestore r (secKey.drop (1 + keyLen)) (share.keyInfo 0)
          share.primaryKeyLength
        { s with record := Function.update s.record buf r }
      return 0
    else rndPos share buf (secKey.drop (1 + keyLen))

/-- The end of the index functions: the code of a failed move, or the row. -/
def fetched (rc : Int) (buf : Nat) : HandlerM Int := do
  if rc ≠ 0 then return rc
  else do
    let s ← get
    getCurRow share server s.activeIndex buf

/-- The first byte of a search key with a marker. -/
def marked (flag : UInt8) : Key → Key
  | [] => []
  | b :: rest => (b ||| flag) :: rest

/-- The search that most modes of `index_read` make: on a secondary index with a marker, on
the primary key with an iterator flag of its own. -/
def locateKey (flag : UInt8) (second primary : IterFlag) : HandlerM Int := do
  let s ← get
  if s.activeIndex ≠ 0 then do
    modify fun s ↦ { s with keyBuffer := marked flag s.keyBuffer }
    let s ← get
    let res ← moveSecond fun _ ↦ Iterator.locate share.second s.keyBuffer second
    return if res = 0 then HA_ERR_KEY_NOT_FOUND else 0
  else do
    let res ← movePrimary fun _ ↦ Iterator.locate share.primary s.keyBuffer primary
    return if res = 0 then HA_ERR_KEY_NOT_FOUND else 0

/-- The columns of the entry found are not the ones searched for;
`src/ha_example.cc:759–761`. -/
def checkPrefix (rc : Int) : HandlerM Int := do
  let s ← get
  if rc ≠ 0 ∨ s.activeIndex = 0 then return rc
  else do
    let secKey ← onSecond (s.secIt.getKey)
    return if share.secondKeyComparePrefix secKey s.keyBuffer ≠ 0 then HA_ERR_KEY_NOT_FOUND else 0

/-- The cases of `index_read`; `src/ha_example.cc:751–826`. -/
def search : HaRkeyFunction → HandlerM Int
  | .HA_READ_KEY_EXACT => do
    let rc ← locateKey share 0x80 .KEY_OR_NEXT .EXACT_KEY
    checkPrefix share rc
  | .HA_READ_KEY_OR_NEXT => locateKey share 0x80 .KEY_OR_NEXT .KEY_OR_NEXT
  | .HA_READ_KEY_OR_PREV => locateKey share 0x80 .KEY_OR_PREV .KEY_OR_PREV
  | .HA_READ_AFTER_KEY => locateKey share 0x80 .AFTER_KEY .AFTER_KEY
  | .HA_READ_BEFORE_KEY => locateKey share 0x80 .BEFROE_KEY .BEFROE_KEY
  | .HA_READ_PREFIX_LAST_OR_PREV => locateKey share 0x40 .KEY_OR_PREV .KEY_OR_PREV
  | .other => return HA_ERR_WRONG_COMMAND

/-- `index_read`; `src/ha_example.cc:737–837`. -/
def indexRead (buf : Nat) (key : Key) (findFlag : HaRkeyFunction) : HandlerM Int := do
  modify fun s ↦
    let src := if s.activeIndex = 0 then key else UInt8.ofNat s.activeIndex :: key
    { s with keyBuffer := memcpy s.keyBuffer src }
  let rc ← search share findFlag
  fetched share server rc buf

/-- The index functions without a search key: move a cursor, then fetch the row. -/
def moveIndex (move : Iterator → TreeM Key (Int × Iterator)) (err : Int) (buf : Nat) :
    HandlerM Int := do
  let s ← get
  let res ← if s.activeIndex ≠ 0 then moveSecond move else movePrimary move
  fetched share server (if res = 0 then err else 0) buf

/-- `index_next`; `src/ha_example.cc:839–860`. -/
def indexNext : Nat → HandlerM Int :=
  moveIndex share server Iterator.next HA_ERR_END_OF_FILE

/-- `index_prev`; `src/ha_example.cc:869–890`. -/
def indexPrev : Nat → HandlerM Int :=
  moveIndex share server Iterator.prev HA_ERR_END_OF_FILE

/-- `index_first`; `src/ha_example.cc:902–923`. -/
def indexFirst : Nat → HandlerM Int :=
  moveIndex share server Iterator.first HA_ERR_KEY_NOT_FOUND

/-- `index_last`; `src/ha_example.cc:935–957`. -/
def indexLast : Nat → HandlerM Int :=
  moveIndex share server Iterator.last HA_ERR_KEY_NOT_FOUND

/-- `rnd_init`; `src/ha_example.cc:972–977`. -/
def rndInit : HandlerM Int := do
  modify fun s ↦ { s with activeIndex := 0, firstRow := true }
  return 0

/-- `rnd_end`; `src/ha_example.cc:979–984`. -/
def rndEnd : HandlerM Int := do
  modify fun s ↦ { s with firstRow := false }
  return 0

/-- `rnd_next`; `src/ha_example.cc:1001–1010`. -/
def rndNext (buf : Nat) : HandlerM Int := do
  let s ← get
  if s.firstRow then do
    modify fun s ↦ { s with firstRow := false }
    indexFirst share server buf
  else indexNext share server buf

/-- `position`; `src/ha_example.cc:1034–1039`. -/
def position (buf : Nat) : HandlerM Unit :=
  modify fun s ↦ { s with ref := share.packKey 0 (s.record buf) }

/-- `info`, for the number of rows it reports; `src/ha_example.cc:1111–1116`. -/
def info : HandlerM Nat := onPrimary BTree.countOfItems

/-- `extra`; `src/ha_example.cc:1128–1134`. -/
def extra (operation : HaExtraFunction) : HandlerM Int := do
  modify fun s ↦ match operation with
    | .HA_EXTRA_KEYREAD => { s with keyRead := true }
    | .HA_EXTRA_NO_KEYREAD => { s with keyRead := false }
    | .other => s
  return 0

end HaExample

end ExampleEngine.Handler
