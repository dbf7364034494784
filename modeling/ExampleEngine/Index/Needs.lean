import ExampleEngine.Index.Asking
import ExampleEngine.Index.Sizes

/-!
# What an insertion asks for

Library `Index`. The blocks that `BTree::insert` of `src/lib/btree.cpp:445–586` asks for, read
off the blocks of the tree before: the nodes on the way down, a data block for the value or
several of them, and for each node that becomes full the one to split it into and the one after
it.
-/

namespace ExampleEngine.Index

open ExampleEngine.Base ExampleEngine.Storage

namespace BTree

variable {K : Type}

/-- What follows once a data block with some room was asked for: the value goes on to later
blocks, or it is refused, or stored while `n` blocks are in use. -/
def tried (room : Int) (value : List UInt8) (n : Nat) (later : List Fetch × Option Nat) :
    List Fetch × Option Nat :=
  if room ≤ toInt32 value.length then later
  else ([], if room < (value.length % 2 ^ 16 : Nat) then none else some n)

/-- What storing a value asks for from the next block on, and the number of blocks in use after
it was stored. -/
def freshNeeds (value : List UInt8) : Nat → Nat → List Fetch × Option Nat
  | 0, _ => ([], none)
  | fuel + 1, n =>
    let later := tried freshSize value (n + 1) (freshNeeds value fuel (n + 1))
    (⟨.data, n⟩ :: later.1, later.2)

/-- What `insertValue` asks for, starting at the block `index` while `n` are in use. -/
def valueNeeds (v : Nat → Page K) (value : List UInt8) (n index : Nat) :
    List Fetch × Option Nat :=
  if index < n then
    match v index with
    | .data d =>
      let later := tried d.freeSize value n (freshNeeds value (insertValueFuel - 1) n)
      (⟨.data, index⟩ :: later.1, later.2)
    | _ => ([⟨.data, index⟩], none)
  else freshNeeds value insertValueFuel n

variable {c : Config K} {t t' : BTree K} {m : BTreeMetadata} {p : Platform} {value : List UInt8}

/-- A value that is refused memory has only made room for others. -/
def Declined {α : Type} (none : α) (t : BTree K) (m : BTreeMetadata) (r : α) (t' : BTree K) :
    Prop :=
  r = none ∧ ∃ m', Records t t' m m'

/-- Writing another block than the metadata leaves their number alone. -/
theorem blocks_write {i : Nat} {page : Page K} (hi : t.buffer.Pooled i) (h0 : i ≠ 0) :
    (t.write i page).blocks = t.blocks := by
  unfold BTree.blocks
  rw [page_write hi, Function.update_of_ne (Ne.symm h0)]

/-- With a data block at hand, the value goes into it, is refused, or goes on. -/
private theorem asks_insertInto {fuel i : Nat} {d : DataBlock} {later : List Fetch × Option Nat}
    {R : Option Location → BTree K → Prop} (hh : Heap t m) (hp : t.page i = .data d)
    (hw : d.WF) (hi : t.buffer.Pooled i) (hi0 : i ≠ 0)
    (hlater : Asks p (insertValue fuel m.countOfBlock value) t later.1
      (fun r t' ↦ r.map (fun _ ↦ t'.blocks) = later.2) R) :
    Asks p (do
      let d ← readData (some i)
      if d.freeSize ≤ toInt32 value.length then
        if d.header.next ≠ 0 then insertValue fuel d.header.next value
        else do
          let m ← readMeta
          insertValue fuel m.countOfBlock value
      else
        match d.insert value (value.length % 2 ^ 16) with
        | none => return none
        | some (d', position) => do
          store (some i) (.data d')
          return some ⟨d'.header.index, position⟩) t
      (tried d.freeSize value m.countOfBlock later).1
      (fun r t' ↦ r.map (fun _ ↦ t'.blocks) =
        (tried d.freeSize value m.countOfBlock later).2) R := by
  refine .known (.readData _) (run_readData hi hp) ?_
  unfold tried
  split
  · rw [if_neg (by rw [hw.next]; simp)]
    exact .known .readMeta (run_readMeta hh) hlater
  · cases hins : d.insert value (value.length % 2 ^ 16) with
    | none =>
      have hlt : d.freeSize < (value.length % 2 ^ 16 : Nat) := by
        unfold DataBlock.insert at hins
        split at hins
        · assumption
        · cases hins
      refine .of_pure ?_
      rw [if_pos hlt]
      rfl
    | some q =>
      have hle : ¬ d.freeSize < (value.length % 2 ^ 16 : Nat) := by
        unfold DataBlock.insert at hins
        split at hins
        · cases hins
        · assumption
      refine .of_plain (.bind (.store _ _) fun _ ↦ .pure _) fun r t' hr ↦ ?_
      rw [if_neg hle, ← hh.blocks_eq]
      cases hr
      exact congrArg some (blocks_write hi hi0)

/-- Storing a value from the next block on asks for what it needs. -/
theorem asks_freshValue {fuel : Nat} (hh : Heap t m) :
    Asks p (insertValue fuel m.countOfBlock value) t (freshNeeds value fuel m.countOfBlock).1
      (fun r t' ↦ r.map (fun _ ↦ t'.blocks) = (freshNeeds value fuel m.countOfBlock).2)
      (Declined none t m) := by
  induction fuel generalizing t m with
  | zero => exact .of_stops ⟨_, rfl, nofun⟩ ⟨_, rfl, nofun⟩
  | succ fuel ih =>
    have hpos := hh.count_pos
    unfold insertValue freshNeeds
    refine .known .readMeta (run_readMeta hh) ?_
    rw [if_neg (Nat.lt_irrefl _), if_pos rfl]
    refine (Asks.getFreeDataBlock hh).bind ?_ ?_
    · rintro _ t₁ - ⟨rfl, m₁, bytes, ha⟩
      have hw := DataBlock.wf_init ⟨.data, m.countOfBlock, 0, 0⟩ bytes m.countOfBlock
      have hp : t₁.page m.countOfBlock =
          .data ⟨⟨.data, m.countOfBlock, 0, 0⟩, BLOCK_SIZE, [], bytes⟩ := by
        rw [ha.page, Function.update_self]
      have hr := Records.of_allocated ha hw hh
      rw [← ha.count, ← freeSize_init ⟨.data, m.countOfBlock, 0, 0⟩ bytes]
      refine asks_insertInto ha.heap hp hw ha.dirty.pooled (by omega)
        ((ih ha.heap).mono (fun _ _ h ↦ h) ?_)
      rintro r t' ⟨rfl, m', hr'⟩
      exact ⟨rfl, m', hr.trans hr'⟩
    · rintro _ t₁ ⟨rfl, m₁, hg⟩
      exact ⟨none, t₁, rfl, rfl, m₁, .of_grew hh hg⟩

/-- Storing a value asks for what it needs. -/
theorem asks_value {index : Nat} (hh : Heap t m) (hi : index ≤ m.countOfBlock)
    (hd : index < m.countOfBlock → IsData t.page index) :
    Asks p (insertValue insertValueFuel index value) t
      (valueNeeds t.page value m.countOfBlock index).1
      (fun r t' ↦ r.map (fun _ ↦ t'.blocks) =
        (valueNeeds t.page value m.countOfBlock index).2)
      (Declined none t m) := by
  unfold valueNeeds
  by_cases hlt : index < m.countOfBlock
  · obtain ⟨d, hdp, hw⟩ := hd hlt
    have hi0 := hh.ne_zero_of_data hdp
    have hfuel : insertValueFuel = insertValueFuel - 1 + 1 := rfl
    rw [if_pos hlt, hdp, hfuel]
    unfold insertValue
    refine .known .readMeta (run_readMeta hh) ?_
    rw [if_neg (Nat.not_lt.mpr hi), if_neg (Nat.ne_of_lt hlt)]
    refine Asks.getData.bind ?_ ?_
    · intro r t₁ hr hr'
      have hf := wp_ok (wp_getBlock (E := Beyond)
        (Q := fun r t₁ ↦ r = some index ∧ Fetched t t₁ m index 1) hh hlt
        fun t₁ hf ↦ ⟨rfl, hf⟩) hr
      obtain ⟨rfl, hf⟩ := hf
      refine asks_insertInto hf.heap (by rw [hf.page, hdp]) hw hf.pooled hi0
        ((asks_freshValue hf.heap).mono (fun _ _ h ↦ h) ?_)
      rintro r t' ⟨rfl, m', hr'⟩
      exact ⟨rfl, m', (Records.of_fetched hf).trans hr'⟩
    · rintro _ _ ⟨rfl, rfl⟩
      exact ⟨none, _, rfl, rfl, m, .refl hh⟩
  · obtain rfl : index = m.countOfBlock := by omega
    rw [if_neg hlt]
    exact asks_freshValue hh

/-- What an insertion asks for, and when it inserts or revives an entry, the number of blocks in
use and of slots of its node afterwards. -/
structure Needs where
  fetches : List Fetch
  after : Option (Nat × Nat)

/-- What an entry asks for whose value is stored from the block `index` on. -/
def storing (v : Nat → Page K) (value : List UInt8) (n index slots : Nat) : Needs :=
  let needs := valueNeeds v value n index
  ⟨needs.1, needs.2.map fun n' ↦ (n', slots)⟩

/-- What `insertLeaf` asks for. -/
def leafNeeds (c : Config K) (key : K) (value : List UInt8) (v : Nat → Page K) (n : Nat)
    (b : NodeBlock K) (index : Nat) : Except Fault Needs := do
  if ← holdsKey c b index key then
    if ← b.removed index then
      if c.isConstValueSize then return ⟨[], some (n, b.count)⟩
      else do
        let old ← b.getValue index
        return storing v value n (Location.ofBytes old).index b.count
    else return ⟨[], none⟩
  else if c.isConstValueSize then return ⟨[], some (n, b.count + 1)⟩
  else if b.empty then return storing v value n n (b.count + 1)
  else do
    let w ← b.getValue (index - if index = b.count then 1 else 0)
    return storing v value n (Location.ofBytes w).index (b.count + 1)

variable {key : K} {i : Nat}

/-- An insertion below block `i` asks for what it needs. -/
def Accounted (p : Platform) (code : TreeM K Int) (t : BTree K) (m : BTreeMetadata) (i : Nat) :
    Except Fault Needs → Prop
  | .ok needs => Asks p code t needs.fetches (fun r t' ↦ needs.after =
      if r = 1 then some (t'.blocks, (slotsOf (t'.page i)).length) else none) (Declined (-1) t m)
  | .error _ => Stops code t ∧ Stops code (t.on p)

namespace Accounted

variable {α : Type} {code : TreeM K α} {g : α → TreeM K Int} {a : α} {x : Except Fault Needs}
  {y : Except Fault α} {f : α → Except Fault Needs}

/-- Plain code whose result is known may come first. -/
theorem known (hm : Plain p code) (hr : code.run t = .ok (a, t))
    (hg : Accounted p (g a) t m i x) : Accounted p (code >>= g) t m i x := by
  have hr' : code.run (t.on p) = .ok (a, t.on p) := by
    rcases hm.run t with ⟨b, t', hb, hb', _⟩ | ⟨⟨e, he, _⟩, _⟩
    · rw [hr] at hb
      cases hb
      exact hb'
    · rw [hr] at he
      cases he
  cases x with
  | ok needs => exact .known hm hr hg
  | error e => exact ⟨hg.1.after hr, hg.2.after hr'⟩

/-- A pure function decides for the code and for what it needs. -/
theorem lift (hy : Offline y) (hg : ∀ a, y = .ok a → Accounted p (g a) t m i (f a)) :
    Accounted p (liftM y >>= g) t m i (y >>= f) := by
  cases y with
  | ok a => exact known (.pure a) rfl (hg a rfl)
  | error e =>
    have he : ∀ j, e ≠ .unreadable j := fun j h ↦ hy j (h ▸ rfl)
    exact ⟨.bind ⟨e, rfl, he⟩, .bind ⟨e, rfl, he⟩⟩

/-- Code that asks for nothing. -/
theorem of_asks {code : TreeM K Int} {after : Option (Nat × Nat)}
    (h : Asks p code t [] (fun r t' ↦ after =
      if r = 1 then some (t'.blocks, (slotsOf (t'.page i)).length) else none)
      (Declined (-1) t m)) : Accounted p code t m i (.ok ⟨[], after⟩) := h

end Accounted

/-- Changing a slot keeps their number. -/
theorem count_of_set {n n' : NodeBlock K} {index : Nat} {k : Option K}
    {w : Option (List UInt8)} {flag : UInt8} (h : n.set index k w flag = .ok n') :
    n'.count = n.count := by
  unfold NodeBlock.set at h
  cases hs : n.getSlot index with
  | error e =>
    rw [hs] at h
    cases h
  | ok s =>
    rw [hs] at h
    cases h
    simp [NodeBlock.count]

/-- Inserting makes one slot more. -/
theorem count_of_insert {n n' : NodeBlock K} {index : Nat} {w : List UInt8}
    (h : n.insert key w index = .ok n') : n'.count = n.count + 1 := by
  unfold NodeBlock.insert at h
  split at h
  · next hle =>
    cases h
    simp only [NodeBlock.count, List.length_append, List.length_cons, List.length_take,
      List.length_drop] at hle ⊢
    omega
  · cases h

/-- Changing a node that returns has changed it. -/
theorem run_modifyNode {n : NodeBlock K} {f : NodeBlock K → Except Fault (NodeBlock K)}
    {u : Unit} (hi : t.buffer.Pooled i) (hn : t.page i = .node n)
    (hr : (modifyNode (some i) f).run t = .ok (u, t')) :
    ∃ n', f n = .ok n' ∧ t' = t.write i (.node n') := by
  cases hf : f n with
  | ok n' =>
    refine ⟨n', rfl, ?_⟩
    have := (wp_modifyNode (E := Beyond) hi hn hf fun _ t' ↦ t' = t.write i (.node n')).mpr rfl
    exact (wp_ok this hr :)
  | error e =>
    have : wp (fun _ ↦ True) (modifyNode (some i) f) (fun _ _ ↦ False) t := by
      unfold modifyNode
      simp only [wp_bind, wp_readNode hi hn, wp_liftM, hf]
    exact (wp_ok this hr :).elim

/-- Changing the slots of a leaf completes an insertion. -/
private theorem asks_modifyLeaf {n : NodeBlock K} {f : NodeBlock K → Except Fault (NodeBlock K)}
    {R : Int → BTree K → Prop} {k : Nat} (hi : t.buffer.Pooled i) (h0 : i ≠ 0)
    (hn : t.page i = .node n) (hf : ∀ n, Offline (f n))
    (hk : ∀ n', f n = .ok n' → n'.count = k) :
    Asks p (do modifyNode (some i) f; return 1) t []
      (fun r t' ↦ some (t.blocks, k) =
        if r = 1 then some (t'.blocks, (slotsOf (t'.page i)).length) else none) R := by
  refine .of_plain (.bind (.modifyNode _ hf) fun _ ↦ .pure _) fun r t' hr ↦ ?_
  obtain ⟨u, t₁, hr₁, hr₂⟩ := run_of_bind hr
  cases hr₂
  obtain ⟨n', hn', rfl⟩ := run_modifyNode hi hn hr₁
  rw [if_pos rfl, blocks_write hi h0, page_write hi, Function.update_self, ← hk n' hn']
  rfl

/-- Storing the value and then changing the slots of the leaf. -/
private theorem asks_storing {n : NodeBlock K}
    {g : Location → NodeBlock K → Except Fault (NodeBlock K)} {index k : Nat}
    (hh : Heap t m) (hi : t.buffer.Pooled i) (hn : t.page i = .node n)
    (hf : ∀ loc n, Offline (g loc n)) (hk : ∀ loc n', g loc n = .ok n' → n'.count = k)
    (hle : index ≤ m.countOfBlock)
    (hd : index < m.countOfBlock → IsData t.page index) :
    Accounted p (do
      match ← insertValue insertValueFuel index value with
      | none => return -1
      | some loc => do
        modifyNode (some i) (g loc)
        return 1) t m i (.ok (storing t.page value m.countOfBlock index k)) := by
  have hlt := hh.pooled i hi
  have h0 := hh.ne_zero_of_node hn
  refine Asks.ends (asks_value hh hle hd) ?_ ?_
  · intro r t₁ hr hr'
    obtain ⟨m₁, hrec⟩ := wp_ok (wp_insertValue (E := Beyond)
      (Q := fun _ t₁ ↦ ∃ m₁, Records t t₁ m m₁) hh hle hd (covers_beyond _)
      fun _ _ m₁ hrec _ _ _ _ ↦ ⟨m₁, hrec⟩) hr
    have hafter : (storing t.page value m.countOfBlock index k).after =
        r.map fun _ ↦ (t₁.blocks, k) := by
      change Option.map _ (valueNeeds t.page value m.countOfBlock index).2 = _
      rw [← hr', Option.map_map]
      rfl
    rw [hafter]
    cases r with
    | none => exact .of_pure rfl
    | some loc =>
      exact asks_modifyLeaf (hrec.later.pooled hi) h0 (hrec.node i n hlt hn) (hf loc) (hk loc)
  · rintro _ t₁ ⟨rfl, m₁, hrec⟩
    exact ⟨-1, t₁, rfl, rfl, m₁, hrec⟩

/-- Insertion into a leaf asks for what it needs. -/
theorem asks_leaf {n : NodeBlock K} {index : Nat} (hh : Heap t m) (hi : t.buffer.Pooled i)
    (hn : t.page i = .node n) (hv : ∀ e ∈ n.kv, Recorded c t.page m.countOfBlock e.value) :
    Accounted p (insertLeaf c key value (some i) index) t m i
      (leafNeeds c key value t.page m.countOfBlock n index) := by
  have h0 := hh.ne_zero_of_node hn
  -- the block of a value already stored
  have hrec : ∀ j w, c.isConstValueSize = false → n.getValue j = .ok w →
      (Location.ofBytes w).index < m.countOfBlock ∧ IsData t.page (Location.ofBytes w).index := by
    intro j w hc hw
    unfold NodeBlock.getValue NodeBlock.getSlot at hw
    cases hs : n.kv[j]? with
    | none =>
      rw [hs] at hw
      cases hw
    | some s =>
      rw [hs] at hw
      cases hw
      obtain ⟨hlt, hst⟩ := hv s (List.mem_of_getElem? hs) hc
      exact ⟨hlt, hst.isData⟩
  have hnew : ∀ w, Asks p (do modifyNode (some i) (·.insert key w index); return 1) t []
      (fun r t' ↦ some (m.countOfBlock, n.count + 1) =
        if r = 1 then some (t'.blocks, (slotsOf (t'.page i)).length) else none)
      (Declined (-1) t m) := by
    intro w
    rw [← hh.blocks_eq]
    exact asks_modifyLeaf hi h0 hn (fun _ ↦ .insert) fun _ ↦ count_of_insert
  have hrev : ∀ w, Asks p (do modifyNode (some i) (·.set index none (some w) 1); return 1) t []
      (fun r t' ↦ some (m.countOfBlock, n.count) =
        if r = 1 then some (t'.blocks, (slotsOf (t'.page i)).length) else none)
      (Declined (-1) t m) := by
    intro w
    rw [← hh.blocks_eq]
    exact asks_modifyLeaf hi h0 hn (fun _ ↦ .set) fun _ ↦ count_of_set
  unfold insertLeaf leafNeeds
  refine .known (.readNode _) (run_readNode hi hn) ?_
  refine .lift .holdsKey fun holds _ ↦ ?_
  cases holds with
  | true =>
    simp only [if_true]
    refine .lift .removed fun removed _ ↦ ?_
    cases removed with
    | true =>
      simp only [if_true]
      cases hc : c.isConstValueSize with
      | true => exact .of_asks (hrev value)
      | false =>
        refine .lift .getValue fun old hold ↦ ?_
        obtain ⟨hlt, hd⟩ := hrec _ old hc hold
        exact asks_storing hh hi hn (fun _ _ ↦ .set) (fun _ _ ↦ count_of_set)
          (Nat.le_of_lt hlt) fun _ ↦ hd
    | false => exact .of_asks (.of_pure rfl)
  | false =>
    simp only [Bool.false_eq_true, if_false]
    cases hc : c.isConstValueSize with
    | true => exact .of_asks (hnew value)
    | false =>
      simp only [Bool.false_eq_true, if_false]
      have hblock : ∀ j, j ≤ m.countOfBlock → (j < m.countOfBlock → IsData t.page j) →
          Accounted p (do
            match ← insertValue insertValueFuel j value with
            | none => return -1
            | some loc => do
              modifyNode (some i) (·.insert key loc.toBytes index)
              return 1) t m i (.ok (storing t.page value m.countOfBlock j (n.count + 1))) :=
        fun j hj hd ↦ asks_storing hh hi hn (fun _ _ ↦ .insert) (fun _ _ ↦ count_of_insert) hj hd
      unfold neighbourBlock
      cases n.empty with
      | true =>
        simp only [if_true, bind_assoc, pure_bind]
        refine .known .readMeta (run_readMeta hh) ?_
        exact hblock _ (Nat.le_refl _) fun hlt ↦ absurd hlt (Nat.lt_irrefl _)
      | false =>
        simp only [Bool.false_eq_true, if_false, bind_assoc, pure_bind]
        refine .lift .getValue fun w hw ↦ ?_
        obtain ⟨hlt, hd⟩ := hrec _ w hc hw
        exact hblock _ (Nat.le_of_lt hlt) fun _ ↦ hd

/-- The capacity of the node in a block. -/
def sizeAt (v : Nat → Page K) (i : Nat) : Nat :=
  match v i with
  | .node b => b.size
  | _ => 0

/-- What splitting a son asks for: the next block and the node after it on its level. -/
def splitFetches (v : Nat → Page K) (n son : Nat) : List Fetch :=
  ⟨.node, n⟩ :: if nextOf v son = 0 then [] else [⟨.node, nextOf v son⟩]

/-- What a node with `slots` slots asks for once a son took the entry. -/
def splitNeeds (v : Nat → Page K) (slots son : Nat) (after : Option (Nat × Nat)) : Needs :=
  match after with
  | none => ⟨[], none⟩
  | some (n, count) =>
    if count = sizeAt v son then ⟨splitFetches v n son, some (n + 1, slots + 1)⟩
    else ⟨[], some (n, slots)⟩

/-- What `insert` below block `i` asks for, with at most `fuel` levels. -/
def insertNeeds (c : Config K) (key : K) (value : List UInt8) (v : Nat → Page K) (n : Nat) :
    Nat → Nat → Except Fault Needs
  | 0, _ => .error .outOfFuel
  | fuel + 1, i =>
    match v i with
    | .node b => do
      let lub ← b.lub c.cmp key
      if b.leaf then leafNeeds c key value v n b lub
      else do
        let w ← b.getValue (if lub == b.count then lub - 1 else lub)
        let below ← insertNeeds c key value v n fuel (childIndex w)
        let later := splitNeeds v b.count (childIndex w) below.after
        return ⟨⟨.node, childIndex w⟩ :: (below.fetches ++ later.fetches), later.after⟩
    | _ => .error .wrongType

variable {j : Nat}

/-- Changing whatever node a pointer leads to, but not its number. -/
theorem wp_modify_any {f : NodeBlock K → Except Fault (NodeBlock K)} {Q : Unit → BTree K → Prop}
    (h : Heap t m) (hi : t.buffer.Dirty i) (h0 : i ≠ 0)
    (hf : ∀ n n', f n = .ok n' → n'.header.index = n.header.index)
    (hQ : ∀ t' n n', t.page i = .node n → f n = .ok n' → Later t t' → Heap t' m →
      t'.page = Function.update t.page i (.node n') → Q () t') :
    wp (fun _ ↦ True) (modifyNode (some i) f) Q t := by
  cases hp : t.page i with
  | node n =>
    cases hn : f n with
    | ok n' =>
      refine wp_modify_page h hi h0 hp hn ?_ fun t' hl hh hpage ↦ hQ t' n n' hp hn hl hh hpage
      have := h.index i (h.pooled i hi.pooled)
      rw [hp] at this
      exact (hf n n' hn).trans this
    | error e =>
      unfold modifyNode
      simp only [wp_bind, wp_readNode hi.pooled hp, wp_liftM, hn]
  | _ =>
    unfold modifyNode readNode
    simp only [wp_bind, wp_deref hi.pooled, hp, wp_throw]

/-- Changing a slot keeps the header. -/
theorem header_set {n n' : NodeBlock K} {index : Nat} {k : Option K}
    {w : Option (List UInt8)} {flag : UInt8} (h : n.set index k w flag = .ok n') :
    n'.header = n.header := by
  unfold NodeBlock.set at h
  cases hs : n.getSlot index with
  | error e =>
    rw [hs] at h
    cases h
  | ok s =>
    rw [hs] at h
    cases h
    rfl

/-- So does inserting one. -/
theorem header_insert {n n' : NodeBlock K} {index : Nat} {w : List UInt8}
    (h : n.insert key w index = .ok n') : n'.header = n.header := by
  unfold NodeBlock.insert at h
  split at h
  · cases h
    rfl
  · cases h

/-- Inserting by key inserts at some index. -/
theorem exists_insert {n n' : NodeBlock K} {cmp : K → K → Int} {w : List UInt8}
    (h : n.insertKey cmp key w = .ok n') : ∃ index, n.insert key w index = .ok n' := by
  unfold NodeBlock.insertKey at h
  cases hl : n.lub cmp key with
  | error e =>
    rw [hl] at h
    cases h
  | ok index =>
    rw [hl] at h
    exact ⟨index, h⟩

/-- A split takes one block more, and its father gains a slot. -/
theorem wp_splitSon_counts {np ns : NodeBlock K} {index : Nat} (hh : Heap t m)
    (hi : t.buffer.Dirty i) (hj : t.buffer.Dirty j) (hi0 : i ≠ 0) (hj0 : j ≠ 0) (hij : i ≠ j)
    (hnp : t.page i = .node np) (hns : t.page j = .node ns) :
    wp (fun _ ↦ True) (splitSon c (some i) (some j) index)
      (fun _ t' ↦ t'.blocks = m.countOfBlock + 1 ∧
        (slotsOf (t'.page i)).length = np.count + 1) t := by
  have hn0 : m.countOfBlock ≠ 0 := by
    have := hh.count_pos
    omega
  have hin : i ≠ m.countOfBlock := Nat.ne_of_lt (hh.pooled i hi.pooled)
  have hjn : j ≠ m.countOfBlock := Nat.ne_of_lt (hh.pooled j hj.pooled)
  have hjx : ns.header.index = j := by
    have := hh.index j (hh.pooled j hj.pooled)
    rwa [hns] at this
  unfold splitSon
  simp only [wp_bind, wp_readNode hj.pooled hns]
  refine wp_getFreeNodeBlock hh (fun _ ↦ trivial) fun t₁ m₁ ha ↦ ?_
  have hfresh : t₁.page m.countOfBlock = .node
      ⟨⟨ns.header.type, m.countOfBlock, 0, 0⟩, ns.keySize, ns.valSize, []⟩ := by
    rw [ha.page, Function.update_self]
  have hnp₁ : t₁.page i = .node np := by
    rw [ha.page, Function.update_of_ne hin, Function.update_of_ne hi0, hnp]
  simp only [wp_readNode ha.dirty.pooled hfresh]
  refine wp_store_page ha.heap (ha.later.dirty hj) hj0 hjx fun t₂ hl₂ h₂ hp₂ ↦ ?_
  refine wp_store_page h₂ (hl₂.dirty ha.dirty) hn0 rfl fun t₃ hl₃ h₃ hp₃ ↦ ?_
  have hl₁₃ := ha.later.trans (hl₂.trans hl₃)
  have hd₃ := hl₃.dirty (hl₂.dirty ha.dirty)
  have hnp₃ : ∃ n, t₃.page i = .node n ∧ n.count = np.count := by
    refine ⟨np, ?_, rfl⟩
    rw [hp₃, Function.update_of_ne hin, hp₂, Function.update_of_ne hij, hnp₁]
  -- the rest changes no number of slots but that of the father
  have hrest : ∀ t₄, Later t t₄ → Heap t₄ m₁ → t₄.buffer.Dirty m.countOfBlock →
      (∃ n, t₄.page i = .node n ∧ n.count = np.count) → wp (fun _ ↦ True) (do
        modifyNode (some j) fun x ↦ .ok { x with header.next := m.countOfBlock }
        modifyNode (some m.countOfBlock) fun x ↦ .ok { x with header.last := ns.header.index }
        modifyNode (some i) (·.set index none (some (leBytes 4 m.countOfBlock)) 1)
        let maxKey ← liftM (NodeBlock.maxKey (ns.split ⟨⟨ns.header.type, m.countOfBlock, 0, 0⟩,
          ns.keySize, ns.valSize, []⟩).1)
        modifyNode (some i) (·.insertKey c.cmp maxKey (leBytes 4 ns.header.index)))
      (fun _ t' ↦ t'.blocks = m.countOfBlock + 1 ∧
        (slotsOf (t'.page i)).length = np.count + 1) t₄ := by
    rintro t₄ hl₄ h₄ hd₄ ⟨n₄, hn₄, hc₄⟩
    simp only [wp_bind]
    refine wp_modify_any h₄ (hl₄.dirty hj) hj0 (fun _ _ h ↦ by cases h; rfl)
      fun t₅ _ _ _ _ hl₅ h₅ hp₅ ↦ ?_
    refine wp_modify_any h₅ (hl₅.dirty hd₄) hn0 (fun _ _ h ↦ by cases h; rfl)
      fun t₆ _ _ _ _ hl₆ h₆ hp₆ ↦ ?_
    have hn₆ : t₆.page i = .node n₄ := by
      rw [hp₆, Function.update_of_ne hin, hp₅, Function.update_of_ne hij, hn₄]
    have hl₆ := hl₄.trans (hl₅.trans hl₆)
    refine wp_modify_any h₆ (hl₆.dirty hi) hi0 (fun _ _ h ↦ by rw [header_set h])
      fun t₇ n n' hn hset hl₇ h₇ hp₇ ↦ ?_
    rw [wp_liftM]
    split
    · refine wp_modify_any h₇ ((hl₆.trans hl₇).dirty hi) hi0 (fun _ _ h ↦ ?_)
        fun t₈ k k' hk hins hl₈ h₈ hp₈ ↦ ?_
      · obtain ⟨_, h⟩ := exists_insert h
        rw [header_insert h]
      · obtain ⟨_, hins⟩ := exists_insert hins
        rw [hn₆] at hn
        rw [hp₇, Function.update_self] at hk
        cases hn
        cases hk
        rw [h₈.blocks_eq, ha.count, hp₈, Function.update_self]
        refine ⟨rfl, ?_⟩
        change k'.count = _
        rw [count_of_insert hins, count_of_set hset, hc₄]
    · trivial
  simp only [wp_bind] at hrest
  split
  · rw [wp_bind]
    by_cases hlt : ns.header.next < m₁.countOfBlock
    · refine wp_getNodeBlock h₃ hlt fun t₄ hf₄ ↦ ?_
      simp only [wp_bind]
      refine wp_modify_any hf₄.heap (hf₄.dirty (by decide)) (by assumption)
        (fun _ _ h ↦ by cases h; rfl) fun t₅ n n' hn hn' hl₅ h₅ hp₅ ↦ ?_
      have hd₅ := hl₅.dirty (hf₄.later.dirty hd₃)
      refine wp_modify_any h₅ hd₅ hn0 (fun _ _ h ↦ by cases h; rfl)
        fun t₆ _ _ _ _ hl₆ h₆ hp₆ ↦ ?_
      refine hrest t₆ (hl₁₃.trans (hf₄.later.trans (hl₅.trans hl₆))) h₆ (hl₆.dirty hd₅) ?_
      obtain ⟨n₃, hn₃, hc₃⟩ := hnp₃
      rw [hp₆, Function.update_of_ne hin, hp₅]
      by_cases hb : i = ns.header.next
      · subst hb
        rw [hf₄.page, hn₃] at hn
        cases hn
        cases hn'
        exact ⟨_, Function.update_self .., hc₃⟩
      · exact ⟨n₃, by rw [Function.update_of_ne hb, hf₄.page, hn₃], hc₃⟩
    · unfold getNodeBlock
      simp only [wp_bind, wp_readMeta h₃, if_neg hlt, wp_throw]
  · simp only [wp_bind]
    exact hrest t₃ hl₁₃ h₃ hd₃ hnp₃

/-- A split asks for the next block and for the next node on the level. -/
theorem asks_splitSon {np ns : NodeBlock K} {index : Nat} {R : Unit → BTree K → Prop}
    (hh : Heap t m) (hi : t.buffer.Dirty i) (hj : t.buffer.Dirty j) (hi0 : i ≠ 0) (hj0 : j ≠ 0)
    (hij : i ≠ j) (hnp : t.page i = .node np) (hns : t.page j = .node ns) :
    Asks p (splitSon c (some i) (some j) index) t (splitFetches t.page m.countOfBlock j)
      (fun _ t' ↦ t'.blocks = m.countOfBlock + 1 ∧
        (slotsOf (t'.page i)).length = np.count + 1) R := by
  suffices hasks : Asks p (splitSon c (some i) (some j) index) t
      (splitFetches t.page m.countOfBlock j) (fun _ _ ↦ True) R from
    { hasks with post := fun _ _ hr ↦
        (wp_ok (wp_splitSon_counts hh hi hj hi0 hj0 hij hnp hns) hr :) }
  have hnext : nextOf t.page j = ns.header.next := by
    unfold nextOf
    rw [hns]
    rfl
  have hfetches : splitFetches t.page m.countOfBlock j = [⟨.node, m.countOfBlock⟩] ++
      if ns.header.next = 0 then [] else [⟨.node, ns.header.next⟩] := by
    rw [← hnext]
    rfl
  unfold splitSon
  rw [hfetches]
  refine .known (.readNode _) (run_readNode hj.pooled hns) ?_
  refine (Asks.getFreeNodeBlock (R := fun _ _ ↦ False) hh ns.header.type ns.keySize
    ns.valSize).bind (fun next t₁ _ _ ↦ ?_) fun _ _ hf ↦ hf.elim
  refine .step (.readNode _) fun fresh t₂ _ ↦ ?_
  refine .step (.store _ _) fun _ t₃ _ ↦ .step (.store _ _) fun _ t₄ _ ↦ ?_
  -- the changes to the nodes ask for nothing
  have hrest : Plain p (do
      modifyNode (some j) fun x ↦ .ok { x with header.next := fresh.header.index }
      modifyNode next fun x ↦ .ok { x with header.last := ns.header.index }
      modifyNode (some i) (·.set index none (some (leBytes 4 fresh.header.index)) 1)
      let maxKey ← liftM (ns.split fresh).1.maxKey
      modifyNode (some i) (·.insertKey c.cmp maxKey (leBytes 4 ns.header.index))) :=
    .bind (.modifyNode _ fun _ ↦ .ok _) fun _ ↦ .bind (.modifyNode _ fun _ ↦ .ok _) fun _ ↦
      .bind (.modifyNode _ fun _ ↦ .set) fun _ ↦ .bind (.liftM .maxKey) fun _ ↦
        .modifyNode _ fun _ ↦ .insertKey
  by_cases hn0 : ns.header.next = 0
  · rw [if_pos hn0, if_neg (not_not.mpr hn0)]
    exact .of_plain hrest fun _ _ _ ↦ trivial
  · rw [if_neg hn0, if_pos hn0]
    refine .getNodeBlock (fun t' ↦ .bind ⟨_, rfl, nofun⟩) fun t₅ _ ↦ ?_
    refine .of_plain ?_ fun _ _ _ ↦ trivial
    exact .bind (.modifyNode _ fun _ ↦ .ok _) fun _ ↦
      .bind (.modifyNode _ fun _ ↦ .ok _) fun _ ↦ hrest

end BTree

end ExampleEngine.Index
