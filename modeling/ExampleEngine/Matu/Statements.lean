import ExampleEngine.Index.Live
import ExampleEngine.Matu.Rows

/-!
# Statements of the demonstration table

Library `Matu`. The statements `insert`, `query`, `del` and `update` of `src/lib/matu.h:391–677`
after their conditions and assignments are parsed. The last three switch over the flag of the
condition in the same way and differ in what they do at a row they come to.
-/

namespace ExampleEngine.Matu

open ExampleEngine.Base ExampleEngine.Storage ExampleEngine.Index

/-- `ResFlag`; `src/lib/matu.h:88–99`. -/
inductive ResFlag where
  | RES_BAD
  | RES_EQ_FIRST
  | RES_HI
  | RES_LO
  | RES_EQ_BOTH
  | RES_AND
  | RES_OR
  | RES_EQ_LO
  | RES_EQ_HI
  | RES_ALL
  deriving DecidableEq, Repr

/-- `Condition`; `src/lib/matu.h:113–116`. -/
structure Condition where
  a : Int
  b : Int
  flag : ResFlag
  deriving DecidableEq, Repr

/-- `cmp`, where the difference wraps; `src/lib/test.cpp:20–22`. -/
def cmp (a b : Int) : Int := toInt32 ((a - b) % 2 ^ 32).toNat

/-- `bTree` with ids of four bytes and values of any size; `src/lib/matu.h:349–367`. -/
def bTree : Config Int := ⟨4, 0xffff, cmp⟩

/-- `bTree->put(&id, rcd, *(u16 *)rcd)`: as many bytes as the record says it has. -/
def putRecord (id : Int) (rcd : List UInt8) : TreeM Int Int :=
  BTree.put bTree id (rcd.take (leNat (rcd.take 2)))

/-- `insert`, returning whether it reports an error; `src/lib/matu.h:391–396`. -/
def insert (data : RowData) : TreeM Int Bool := do
  let res ← putRecord data.id (encode data)
  return res == 0

/-- `decode(it.getValue())`. -/
def rowAt (it : Iterator) : TreeM Int RowData := do
  match ← it.getValue bTree with
  | none => throw .nullPointer
  | some record => liftM (decode record)

/-- The loop `do … while (it.next())` after a first move, which breaks at a row beyond its limit;
`visit` is the rest of its body and returns the rows that it adds to the result. -/
def rowLoop (visit : Iterator → RowData → TreeM Int (List RowData)) (beyond : RowData → Bool) :
    Nat → Int × Iterator → TreeM Int (List RowData)
  | 0, _ => throw .outOfFuel
  | fuel + 1, r => do
    if r.1 = 0 then return []
    else do
      let d ← rowAt r.2
      if beyond d then return []
      else do
        let res ← visit r.2 d
        let r' ← r.2.next
        let rest ← rowLoop visit beyond fuel r'
        return res ++ rest

/-- The loop from the first row on, up to the id `a`. -/
def loopTo (visit : Iterator → RowData → TreeM Int (List RowData)) (a : Int) (it : Iterator) :
    TreeM Int (List RowData) := do
  let fuel ← Iterator.fuel
  let r ← it.first
  rowLoop visit (fun d ↦ decide (d.id > a)) fuel r

/-- The loop from the id `a` or the next one on. -/
def loopFrom (visit : Iterator → RowData → TreeM Int (List RowData)) (beyond : RowData → Bool)
    (a : Int) : TreeM Int (List RowData) := do
  let fuel ← Iterator.fuel
  let r ← Iterator.locate bTree a .KEY_OR_NEXT
  rowLoop visit beyond fuel r

/-- The switch that `query`, `del` and `update` share; for the flags of the last case they only
report an error; `src/lib/matu.h:412–472,480–540,604–676`. -/
def statement (visit : Iterator → RowData → TreeM Int (List RowData)) (con : Condition) :
    TreeM Int (List RowData) := do
  match con.flag with
  | .RES_AND => loopFrom visit (fun d ↦ decide (d.id > con.b)) con.a
  | .RES_OR => do
    let low ← loopTo visit con.a {}
    let high ← loopFrom visit (fun _ ↦ false) con.b
    return low ++ high
  | .RES_EQ_FIRST => do
    let r ← Iterator.locate bTree con.a .KEY_OR_NEXT
    if r.1 = 0 then return []
    else do
      let d ← rowAt r.2
      visit r.2 d
  | .RES_HI => loopTo visit con.a {}
  | .RES_LO => loopFrom visit (fun _ ↦ false) con.a
  | .RES_BAD | .RES_EQ_BOTH | .RES_EQ_LO | .RES_EQ_HI | .RES_ALL => return []

/-- `query` with a parsed condition; `src/lib/matu.h:405–474`. -/
def query (con : Condition) : TreeM Int (List RowData) :=
  statement (fun _ d ↦ return [d]) con

/-- `del` with a parsed condition; `src/lib/matu.h:476–541`. -/
def del (con : Condition) : TreeM Int Unit := do
  let _ ← statement (fun it _ ↦ do it.remove; return []) con

/-- The values that `update` parses: -1 and empty strings stand for fields that are not assigned;
`src/lib/matu.h:561–562`. -/
structure Assignment where
  sex : Int := -1
  name : List UInt8 := []
  num : List UInt8 := []
  mail : List UInt8 := []
  deriving DecidableEq, Repr

/-- The row that `up` encodes; `src/lib/matu.h:543–556`. -/
def Assignment.assigned (s : Assignment) (t : RowData) : RowData :=
  { t with
    sex := if s.sex ≠ -1 then s.sex != 0 else t.sex
    name := if s.name ≠ [] then s.name else t.name
    number := if s.num ≠ [] then s.num else t.number
    email := if s.mail ≠ [] then s.mail else t.email }

/-- `up`; `src/lib/matu.h:543–557`. -/
def up (t : RowData) (s : Assignment) : List UInt8 := encode (s.assigned t)

/-- `update` with parsed assignment and condition; `src/lib/matu.h:559–677`. -/
def update (s : Assignment) (con : Condition) : TreeM Int Unit := do
  let _ ← statement (fun it d ↦ do
    it.remove
    let _ ← putRecord d.id (up d s)
    return []) con

end ExampleEngine.Matu
