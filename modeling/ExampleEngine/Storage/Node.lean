import ExampleEngine.Base.Comparison
import ExampleEngine.Storage.Block

/-!
# Node blocks

Library `Storage`. Models `NodeBlock` of `src/lib/btree.h:25–97` and
`src/lib/btree.cpp:17–154`. The packed array `kv` is the list of its first `count`
slots; a slot at or beyond `count` holds arbitrary bytes, and using one as an entry is a
fault. Keys are of any type, compared by the comparator the tree was opened with.
-/

namespace ExampleEngine.Storage

open ExampleEngine.Base

/-- A slot of a node: the key, the flag byte and the value bytes. -/
structure Slot (K : Type) where
  key : K
  flag : UInt8
  value : List UInt8
  deriving DecidableEq, Repr

/-- A slot whose flag byte is zero holds a removed entry. -/
def Slot.isRemoved {K : Type} (s : Slot K) : Bool := s.flag == 0

/-- A B+tree node; `count` is the length of `kv`; `src/lib/btree.h:25–35`. -/
structure NodeBlock (K : Type) where
  header : BlockHeader
  keySize : Nat
  valSize : Nat
  kv : List (Slot K)
  deriving DecidableEq, Repr

namespace NodeBlock

variable {K : Type}

/-- The number of slots in use. -/
def count (n : NodeBlock K) : Nat := n.kv.length

/-- `NodeBlock::init`; `src/lib/btree.h:35–42`. -/
def init (h : BlockHeader) (index : Nat) (type : BlockType) (keySize valSize : Nat) :
    NodeBlock K where
  header := { h.init index with type := type }
  keySize := keySize
  valSize := valSize
  kv := []

/-- `NodeBlock::sizeOfItem`, in 16 bits; `src/lib/btree.h:46–48`. -/
def sizeOfItem (n : NodeBlock K) : Nat := (n.keySize + n.valSize + 1) % 2 ^ 16

/-- `NodeBlock::size`, the capacity, with a node header of 34 bytes;
`src/lib/btree.cpp:17–23`. -/
def size (n : NodeBlock K) : Nat := (BLOCK_SIZE - 34) / n.sizeOfItem

/-- `NodeBlock::full`; `src/lib/btree.h:52–55`. -/
def full (n : NodeBlock K) : Except Fault Bool :=
  if n.count ≤ n.size then .ok (n.count == n.size) else .error .assertFailed

/-- `NodeBlock::empty`; `src/lib/btree.h:57`. -/
def empty (n : NodeBlock K) : Bool := n.count == 0

/-- `NodeBlock::leaf`; `src/lib/btree.h:59`. -/
def leaf (n : NodeBlock K) : Bool := n.header.type == .leaf

/-- The slot at an index. -/
def getSlot (n : NodeBlock K) (index : Nat) : Except Fault (Slot K) :=
  match n.kv[index]? with
  | some s => .ok s
  | none => .error .slotOutOfRange

/-- `NodeBlock::getKey`; `src/lib/btree.cpp:65–67`. -/
def getKey (n : NodeBlock K) (index : Nat) : Except Fault K :=
  return (← n.getSlot index).key

/-- `NodeBlock::getValue`; `src/lib/btree.cpp:61–63`. -/
def getValue (n : NodeBlock K) (index : Nat) : Except Fault (List UInt8) :=
  return (← n.getSlot index).value

/-- `NodeBlock::removed`; `src/lib/btree.cpp:142–145`. -/
def removed (n : NodeBlock K) (index : Nat) : Except Fault Bool :=
  return (← n.getSlot index).isRemoved

/-- `NodeBlock::maxKey`; `src/lib/btree.cpp:57–59`. -/
def maxKey (n : NodeBlock K) : Except Fault K := n.getKey (n.count - 1)

/-- `NodeBlock::compare`: the key at an index against `key`; `src/lib/btree.cpp:152–154`. -/
def compare (n : NodeBlock K) (cmp : K → K → Int) (index : Nat) (key : K) : Except Fault Int :=
  return cmp (← n.getKey index) key

/-- The bisection of `lub` between `lo` and `hi`. -/
def lubLoop (n : NodeBlock K) (cmp : K → K → Int) (key : K) :
    Nat → Nat → Nat → Except Fault Nat
  | 0, lo, hi => if lo < hi then .error .outOfFuel else .ok lo
  | fuel + 1, lo, hi =>
    if lo < hi then do
      let mid := (lo + hi) / 2
      let res ← n.compare cmp mid key
      if res < 0 then lubLoop n cmp key fuel (mid + 1) hi
      else lubLoop n cmp key fuel lo mid
    else .ok lo

/-- `NodeBlock::lub`: the least index whose key is not less than `key`;
`src/lib/btree.cpp:42–55`. -/
def lub (n : NodeBlock K) (cmp : K → K → Int) (key : K) : Except Fault Nat :=
  n.lubLoop cmp key n.count 0 n.count

/-- The bisection of `find` between `lo` and `hi`. -/
def findLoop (n : NodeBlock K) (cmp : K → K → Int) (key : K) :
    Nat → Nat → Nat → Except Fault Int
  | 0, lo, hi => if lo < hi then .error .outOfFuel else .ok (-1)
  | fuel + 1, lo, hi =>
    if lo < hi then do
      let mid := (lo + hi) / 2
      let res ← n.compare cmp mid key
      if res = 0 then .ok mid
      else if res > 0 then findLoop n cmp key fuel lo mid
      else findLoop n cmp key fuel (mid + 1) hi
    else .ok (-1)

/-- `NodeBlock::find`: an index whose key is equal to `key`, or -1;
`src/lib/btree.cpp:25–40`. -/
def find (n : NodeBlock K) (cmp : K → K → Int) (key : K) : Except Fault Int :=
  n.findLoop cmp key n.count 0 n.count

/-- `NodeBlock::insert` at an index; `src/lib/btree.cpp:69–90`. -/
def insert (n : NodeBlock K) (key : K) (value : List UInt8) (index : Nat) :
    Except Fault (NodeBlock K) :=
  if index ≤ n.count ∧ n.count < n.size then
    .ok { n with kv := n.kv.take index ++ ⟨key, 1, value.take n.valSize⟩ :: n.kv.drop index }
  else .error .assertFailed

/-- `NodeBlock::insert` at the least upper bound; `src/lib/btree.h:78–80`. -/
def insertKey (n : NodeBlock K) (cmp : K → K → Int) (key : K) (value : List UInt8) :
    Except Fault (NodeBlock K) := do
  n.insert key value (← n.lub cmp key)

/-- `NodeBlock::set`: overwrite a slot, keeping its key or value where none is given;
`src/lib/btree.cpp:92–109`. -/
def set (n : NodeBlock K) (index : Nat) (key : Option K) (value : Option (List UInt8))
    (flag : UInt8) : Except Fault (NodeBlock K) := do
  let s ← n.getSlot index
  let s' := ⟨key.getD s.key, flag, (value.map (·.take n.valSize)).getD s.value⟩
  return { n with kv := n.kv.set index s' }

/-- `NodeBlock::split`: the node keeps the first half of the slots, rounded up, and
`nextNode` receives the others; `src/lib/btree.cpp:111–122`. -/
def split (n nextNode : NodeBlock K) : NodeBlock K × NodeBlock K :=
  ({ n with kv := n.kv.take ((n.count + 1) / 2) },
    { nextNode with kv := n.kv.drop ((n.count + 1) / 2) })

/-- `NodeBlock::removeByFlag`; `src/lib/btree.cpp:147–149`. -/
def removeByFlag (n : NodeBlock K) (index : Nat) : Except Fault (NodeBlock K) :=
  n.set index none none 0

/-- A slot in use is found at its index. -/
theorem getSlot_append {n : NodeBlock K} {A B : List (Slot K)} {s : Slot K}
    (h : n.kv = A ++ s :: B) : n.getSlot A.length = .ok s := by
  simp [getSlot, h]

/-- The key of a slot in use. -/
theorem getKey_append {n : NodeBlock K} {A B : List (Slot K)} {s : Slot K}
    (h : n.kv = A ++ s :: B) : n.getKey A.length = .ok s.key := by
  unfold getKey
  rw [getSlot_append h]
  rfl

/-- The value of a slot in use. -/
theorem getValue_append {n : NodeBlock K} {A B : List (Slot K)} {s : Slot K}
    (h : n.kv = A ++ s :: B) : n.getValue A.length = .ok s.value := by
  unfold getValue
  rw [getSlot_append h]
  rfl

/-- The flag of a slot in use. -/
theorem removed_append {n : NodeBlock K} {A B : List (Slot K)} {s : Slot K}
    (h : n.kv = A ++ s :: B) : n.removed A.length = .ok s.isRemoved := by
  unfold removed
  rw [getSlot_append h]
  rfl

/-- The comparison of a slot in use. -/
theorem compare_append {n : NodeBlock K} {A B : List (Slot K)} {s : Slot K}
    (h : n.kv = A ++ s :: B) (cmp : K → K → Int) (key : K) :
    n.compare cmp A.length key = .ok (cmp s.key key) := by
  unfold compare
  rw [getKey_append h]
  rfl

/-- Overwriting a slot replaces it in place. -/
theorem set_append {n : NodeBlock K} {A B : List (Slot K)} {s : Slot K}
    (h : n.kv = A ++ s :: B) (key : Option K) (value : Option (List UInt8)) (flag : UInt8) :
    n.set A.length key value flag =
      .ok { n with kv := A ++ ⟨key.getD s.key, flag,
        (value.map (·.take n.valSize)).getD s.value⟩ :: B } := by
  unfold set
  rw [getSlot_append h]
  simp [h, bind, Except.bind, pure, Except.pure]

/-- Flagging a slot as removed keeps its key and value. -/
theorem removeByFlag_append {n : NodeBlock K} {A B : List (Slot K)} {s : Slot K}
    (h : n.kv = A ++ s :: B) :
    n.removeByFlag A.length = .ok { n with kv := A ++ { s with flag := 0 } :: B } :=
  set_append h none none 0

/-- Inserting below capacity adds a live slot. -/
theorem insert_append {n : NodeBlock K} {A B : List (Slot K)} (h : n.kv = A ++ B)
    (hsize : n.count < n.size) (key : K) (value : List UInt8) :
    n.insert key value A.length =
      .ok { n with kv := A ++ ⟨key, 1, value.take n.valSize⟩ :: B } := by
  have hle : A.length ≤ n.count := by simp [count, h]
  unfold insert
  rw [if_pos ⟨hle, hsize⟩, h]
  simp

/-- The greatest key of a node is that of its last slot. -/
theorem maxKey_append {n : NodeBlock K} {A : List (Slot K)} {s : Slot K}
    (h : n.kv = A ++ [s]) : n.maxKey = .ok s.key := by
  have hc : n.count - 1 = A.length := by simp [count, h]
  unfold maxKey
  rw [hc, getKey_append h]

/-- A slot probed by a bisection is on one side of the cut of the search key. -/
private theorem exists_compare {n : NodeBlock K} {cmp : K → K → Int} {key : K}
    {A B : List (Slot K)} (h : Cut cmp Slot.key key n.kv A B) (mid : Nat) (hmid : mid < n.count) :
    ∃ s, n.kv[mid]? = some s ∧ n.compare cmp mid key = .ok (cmp s.key key) ∧
      (mid < A.length → cmp s.key key < 0) ∧ (A.length ≤ mid → 0 ≤ cmp s.key key) := by
  have hmid : mid < n.kv.length := hmid
  refine ⟨n.kv[mid], List.getElem?_eq_getElem hmid, ?_, fun hA ↦ ?_, fun hB ↦ ?_⟩
  · simp [compare, getKey, getSlot, hmid, bind, Except.bind, pure, Except.pure]
  · have hmem : n.kv[mid] ∈ A := by
      simp only [h.eq, List.getElem_append_left hA]
      exact List.getElem_mem hA
    exact h.below _ hmem
  · have hmem : n.kv[mid] ∈ B := by
      simp only [h.eq, List.getElem_append_right hB]
      exact List.getElem_mem _
    exact h.above _ hmem

private theorem lubLoop_eq {n : NodeBlock K} {cmp : K → K → Int} {key : K}
    {A B : List (Slot K)} (h : Cut cmp Slot.key key n.kv A B) (fuel lo hi : Nat)
    (hlo : lo ≤ A.length) (hhi : A.length ≤ hi) (hn : hi ≤ n.count) (hf : hi ≤ lo + fuel) :
    n.lubLoop cmp key fuel lo hi = .ok A.length := by
  induction fuel generalizing lo hi with
  | zero =>
    have he : lo = A.length := by omega
    have hlt : ¬ lo < hi := by omega
    rw [lubLoop, if_neg hlt, he]
  | succ fuel ih =>
    unfold lubLoop
    by_cases hlt : lo < hi
    · obtain ⟨s, _, hcmp, hA, hB⟩ := exists_compare h ((lo + hi) / 2) (by omega)
      rw [if_pos hlt]
      simp only [hcmp, bind, Except.bind]
      -- the bisection keeps the side of the cut that the probed slot is not on
      by_cases hmid : (lo + hi) / 2 < A.length
      · rw [if_pos (hA hmid)]
        exact ih _ _ (by omega) hhi hn (by omega)
      · have := hB (by omega)
        rw [if_neg (by omega)]
        exact ih _ _ hlo (by omega) (by omega) (by omega)
    · have he : lo = A.length := by omega
      rw [if_neg hlt, he]

/-- The bisection finds the cut of the search key and reads no slot beyond `count`. -/
theorem lub_eq {n : NodeBlock K} {cmp : K → K → Int} {key : K} {A B : List (Slot K)}
    (h : Cut cmp Slot.key key n.kv A B) : n.lub cmp key = .ok A.length := by
  have hlen : n.count = A.length + B.length := by simp [count, h.eq]
  exact lubLoop_eq h _ _ _ (Nat.zero_le _) (by omega) (Nat.le_refl _) (by omega)

/-- The answer of `find` where a list is cut: the place of the cut when the slot there is equal,
and -1 when no slot is. -/
def Answers (n : NodeBlock K) (cmp : K → K → Int) (key : K) (i : Nat) (r : Int) : Prop :=
  (∃ s, n.kv[i]? = some s ∧ cmp s.key key = 0) ∧ r = i ∨
    (∀ s ∈ n.kv, cmp s.key key ≠ 0) ∧ r = -1

private theorem findLoop_eq {n : NodeBlock K} {cmp : K → K → Int} {key : K}
    {A B : List (Slot K)} (h : Cut cmp Slot.key key n.kv A B)
    (htail : ∀ s ∈ B.tail, 0 < cmp s.key key) {r : Int} (fuel lo hi : Nat)
    (hlo : lo ≤ A.length) (hhi : r = -1 ∨ A.length < hi) (hn : hi ≤ n.count)
    (hf : hi ≤ lo + fuel) (hr : n.Answers cmp key A.length r) :
    n.findLoop cmp key fuel lo hi = .ok r := by
  induction fuel generalizing lo hi with
  | zero =>
    have hlt : ¬ lo < hi := by omega
    rw [findLoop, if_neg hlt, hhi.resolve_right (by omega)]
  | succ fuel ih =>
    unfold findLoop
    by_cases hlt : lo < hi
    · obtain ⟨s, hs, hcmp, hA, hB⟩ := exists_compare h ((lo + hi) / 2) (by omega)
      rw [if_pos hlt]
      simp only [hcmp, bind, Except.bind]
      have hafter : A.length < (lo + hi) / 2 → 0 < cmp s.key key := by
        intro hmid
        rw [h.eq, List.getElem?_append_right (by omega)] at hs
        obtain ⟨k, hk⟩ : ∃ k, (lo + hi) / 2 - A.length = k + 1 :=
          ⟨(lo + hi) / 2 - A.length - 1, by omega⟩
        rw [hk, ← List.getElem?_tail] at hs
        exact htail s (List.mem_of_getElem? hs)
      by_cases hzero : cmp s.key key = 0
      · have hmid : (lo + hi) / 2 = A.length := by
          rcases Nat.lt_trichotomy ((lo + hi) / 2) A.length with hlt' | heq | hgt
          · have := hA hlt'
            omega
          · exact heq
          · have := hafter hgt
            omega
        rcases hr with ⟨_, rfl⟩ | ⟨hnone, _⟩
        · rw [if_pos hzero, hmid]
        · exact absurd hzero (hnone s (List.mem_of_getElem? hs))
      · rw [if_neg hzero]
        by_cases hpos : cmp s.key key > 0
        · rw [if_pos hpos]
          have hmid : A.length ≤ (lo + hi) / 2 := by
            by_contra hlt'
            have := hA (by omega)
            omega
          refine ih _ _ hlo ?_ (by omega) (by omega)
          rcases hr with ⟨⟨s', hs', heq⟩, _⟩ | ⟨_, hr⟩
          · refine .inr (Nat.lt_of_le_of_ne hmid fun hmid ↦ ?_)
            rw [← hmid, hs', Option.some.injEq] at hs
            exact hzero (hs ▸ heq)
          · exact .inl hr
        · have hmid : (lo + hi) / 2 < A.length := by
            by_contra hge
            have := hB (by omega)
            omega
          rw [if_neg hpos]
          exact ih _ _ (by omega) hhi hn (by omega)
    · rw [if_neg hlt, hhi.resolve_right (by omega)]

section Agreement

variable {n : NodeBlock K} {cmp : K → K → Int} {S : K → Prop} {key : K}

/-- The number of entries below the key of a cut. -/
private theorem countP_below {es A B : List (Slot K)} (h : Cut cmp Slot.key key es A B) :
    es.countP (fun s ↦ cmp s.key key < 0) = A.length := by
  have hA : A.countP (fun s ↦ cmp s.key key < 0) = A.length :=
    List.countP_eq_length.mpr fun s hs ↦ by simpa using h.below s hs
  have hB : B.countP (fun s ↦ cmp s.key key < 0) = 0 :=
    List.countP_eq_zero.mpr fun s hs ↦ by simpa using h.above s hs
  rw [h.eq, List.countP_append, hA, hB, Nat.add_zero]

/-- On a node in strict order, of any count, both bisections end without reading a slot at or
beyond `count`: `lub` with the number of keys below the search key, and `find` with the same
index when the key there is equal, and with -1 when no key is. -/
theorem find_agrees_lub (hcmp : Comparison cmp S) (hsorted : Sorted cmp Slot.key n.kv)
    (hkeys : ∀ s ∈ n.kv, S s.key) (hkey : S key) :
    ∃ i r, n.lub cmp key = .ok i ∧ n.find cmp key = .ok r ∧
      i = n.kv.countP (fun s ↦ cmp s.key key < 0) ∧ n.Answers cmp key i r := by
  obtain ⟨A, B, hcut⟩ := (hsorted.downward hcmp hkeys hkey).exists_cut
  have hcount : n.count = A.length + B.length := by simp [count, hcut.eq]
  have htail : ∀ s ∈ B.tail, 0 < cmp s.key key := by
    cases B with
    | nil => nofun
    | cons s B => exact hcut.pos_of_cons rfl hsorted hcmp hkeys hkey
  have hfind : ∀ r, (r = -1 ∨ A.length < n.count) → n.Answers cmp key A.length r →
      n.find cmp key = .ok r := fun r hlt hr ↦
    findLoop_eq hcut htail _ _ _ (Nat.zero_le _) hlt (Nat.le_refl _) (by omega) hr
  have hlub := lub_eq hcut
  have hbelow := (countP_below hcut).symm
  have hget : n.kv[A.length]? = B.head? := by
    rw [hcut.eq, List.getElem?_append_right (Nat.le_refl _), Nat.sub_self, List.head?_eq_getElem?]
  by_cases heq : ∃ s, n.kv[A.length]? = some s ∧ cmp s.key key = 0
  · have hr : n.Answers cmp key A.length A.length := .inl ⟨heq, rfl⟩
    obtain ⟨s, hs, _⟩ := heq
    exact ⟨_, _, hlub, hfind _ (.inr (List.getElem?_eq_some_iff.mp hs).1) hr, hbelow, hr⟩
  · have hr : n.Answers cmp key A.length (-1) := by
      refine .inr ⟨fun s hs hzero ↦ ?_, rfl⟩
      rw [hcut.eq] at hs
      rcases List.mem_append.mp hs with hs | hs
      · have := hcut.below s hs
        omega
      · cases B with
        | nil => cases hs
        | cons b B =>
          rcases List.mem_cons.mp hs with rfl | hs
          · exact heq ⟨s, hget, hzero⟩
          · have := htail s hs
            omega
    exact ⟨_, _, hlub, hfind _ (.inl rfl) hr, hbelow, hr⟩

end Agreement

/-- A leaf with three keys, one of them removed. -/
private def threeKeys : NodeBlock Int :=
  ⟨⟨.leaf, 1, 0, 0⟩, 4, 0, [⟨2, 1, []⟩, ⟨5, 0, []⟩, ⟨9, 1, []⟩]⟩

/-- Its last key, and a key behind it. -/
theorem threeKeys_find :
    (∃ i r, threeKeys.lub (· - ·) 9 = .ok i ∧ threeKeys.find (· - ·) 9 = .ok r ∧
      i = threeKeys.kv.countP (fun s ↦ s.key - 9 < 0) ∧ threeKeys.Answers (· - ·) 9 i r) ∧
    ∃ i r, threeKeys.lub (· - ·) 10 = .ok i ∧ threeKeys.find (· - ·) 10 = .ok r ∧
      i = threeKeys.kv.countP (fun s ↦ s.key - 10 < 0) ∧ threeKeys.Answers (· - ·) 10 i r := by
  have hcmp : Comparison (fun a b : Int ↦ a - b) fun _ ↦ True :=
    ⟨fun _ _ ↦ by omega, fun _ _ _ ↦ by omega⟩
  have hsorted : Sorted (fun a b : Int ↦ a - b) Slot.key threeKeys.kv := by
    unfold Sorted
    decide
  exact ⟨find_agrees_lub hcmp hsorted (fun _ _ ↦ trivial) trivial,
    find_agrees_lub hcmp hsorted (fun _ _ ↦ trivial) trivial⟩

end NodeBlock

end ExampleEngine.Storage
