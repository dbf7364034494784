import ExampleEngine.Base.Memory
import ExampleEngine.Storage.Node

/-!
# Nodes in memory

Library `Storage`. Models the member functions of `NodeBlock` of `src/lib/btree.cpp:17–154` on
the bytes of the node, with its fields at their addresses. Slots of a key, a flag and a value are
packed behind the fields. While the size of a slot fits its 16 bits, the functions do with the
slots what the functions of lists do, and write to no byte behind the slots that a node has room
for.
-/

namespace ExampleEngine.Storage.Packed

open ExampleEngine.Base

/-- The address of the field `next` of the header. -/
def nextAddr : Nat := 12

/-- The address of the field `count`, behind the header. -/
def countAddr : Nat := 20

/-- The address of the field `keySize`. -/
def keySizeAddr : Nat := 22

/-- The address of the field `valSize`, before the pointer to the tree. -/
def valSizeAddr : Nat := 24

/-- The address of `kv`. -/
def kvAddr : Nat := 34

/-- The field `count`. -/
def count (m : Memory) : Nat := m.word 2 countAddr

/-- The field `keySize`. -/
def keySize (m : Memory) : Nat := m.word 2 keySizeAddr

/-- The field `valSize`. -/
def valSize (m : Memory) : Nat := m.word 2 valSizeAddr

/-- `NodeBlock::sizeOfItem`, in 16 bits; `src/lib/btree.h:46–48`. -/
def sizeOfItem (m : Memory) : Nat := (keySize m + valSize m + 1) % 2 ^ 16

/-- `NodeBlock::size`; `src/lib/btree.cpp:17–23`. -/
def size (m : Memory) : Nat := (BLOCK_SIZE - kvAddr) / sizeOfItem m

/-- The address of a slot. -/
def slotAddr (m : Memory) (index : Nat) : Nat := kvAddr + index * sizeOfItem m

/-- `NodeBlock::getKey`, with the bytes there; `src/lib/btree.cpp:65–67`. -/
def getKey (m : Memory) (index : Nat) : List UInt8 := m.read (slotAddr m index) (keySize m)

/-- `NodeBlock::getValue`, with the bytes there; `src/lib/btree.cpp:61–63`. -/
def getValue (m : Memory) (index : Nat) : List UInt8 :=
  m.read (slotAddr m index + keySize m + 1) (valSize m)

/-- The flag of a slot. -/
def flag (m : Memory) (index : Nat) : UInt8 := m (slotAddr m index + keySize m)

/-- `NodeBlock::removed`; `src/lib/btree.cpp:142–145`. -/
def removed (m : Memory) (index : Nat) : Bool := flag m index == 0

/-- `NodeBlock::insert`, where `key` and `value` are the bytes at the pointers; `memmove` reads
all bytes before it writes the first; `src/lib/btree.cpp:69–90`. -/
def insert (m key value : Memory) (index : Nat) : Except Fault Memory :=
  if index ≤ count m ∧ count m < size m then
    let p := slotAddr m index
    let moved := m.write (p + sizeOfItem m) (m.read p (sizeOfItem m * (count m - index)))
    let keyed := moved.write p (key.read 0 (keySize m))
    let flagged := keyed.write (p + keySize m) [1]
    let valued := flagged.write (p + keySize m + 1) (value.read 0 (valSize m))
    .ok (valued.setWord 2 countAddr (count m + 1))
  else .error .assertFailed

/-- `NodeBlock::set`; `src/lib/btree.cpp:92–109`. -/
def set (m : Memory) (index : Nat) (key value : Option Memory) (flag : UInt8) : Memory :=
  let p := slotAddr m index
  let keyed := match key with
    | some key => m.write p (key.read 0 (keySize m))
    | none => m
  let flagged := keyed.write (p + keySize m) [flag]
  match value with
  | some value => flagged.write (p + keySize m + 1) (value.read 0 (valSize m))
  | none => flagged

/-- `NodeBlock::removeByFlag`; `src/lib/btree.cpp:147–149`. -/
def removeByFlag (m : Memory) (index : Nat) : Memory := set m index none none 0

/-- `NodeBlock::split`; `src/lib/btree.cpp:111–122`. -/
def split (m next : Memory) : Memory × Memory :=
  let half := (count m + 1) / 2
  let next := next.write kvAddr (m.read (slotAddr m half) (count m / 2 * sizeOfItem m))
  (m.setWord 2 countAddr half, next.setWord 2 countAddr (count m / 2))

/-- `NodeBlock::merge`; `src/lib/btree.cpp:124–133`. -/
def merge (m next : Memory) : Memory :=
  let merged := m.write (slotAddr m (count m)) (next.read kvAddr (count next * sizeOfItem m))
  let counted := merged.setWord 2 countAddr (count m + count next)
  counted.setWord 4 nextAddr (next.word 4 nextAddr)

/-- `NodeBlock::remove`; `src/lib/btree.cpp:135–140`. -/
def remove (m : Memory) (index : Nat) : Except Fault Memory :=
  if index < count m then
    let moved := m.write (slotAddr m index)
      (m.read (slotAddr m (index + 1)) (sizeOfItem m * (count m - index - 1)))
    .ok (moved.setWord 2 countAddr (count m - 1))
  else .error .assertFailed

/-- The slot at an index. -/
def slotAt (m : Memory) (index : Nat) : Slot (List UInt8) :=
  ⟨getKey m index, flag m index, getValue m index⟩

/-- The slots in use. -/
def slots (m : Memory) : List (Slot (List UInt8)) := (List.range (count m)).map (slotAt m)

/-- Of the bytes outside the slots that a node has room for, only those of some fields are
written. -/
def Writes (fields : List (Nat × Nat)) (m m' : Memory) : Prop :=
  ∀ a, a < kvAddr ∨ slotAddr m (size m) ≤ a → (∀ f ∈ fields, a < f.1 ∨ f.1 + f.2 ≤ a) → m' a = m a

variable {m m' next key value : Memory} {i j index a : Nat} {fields : List (Nat × Nat)}

section Addresses

/-- Slots stand one behind the other. -/
theorem slotAddr_succ (m : Memory) (i : Nat) :
    slotAddr m (i + 1) = slotAddr m i + sizeOfItem m := by
  unfold slotAddr
  rw [Nat.succ_mul, Nat.add_assoc]

/-- The address behind some slots. -/
theorem slotAddr_add (m : Memory) (i n : Nat) :
    slotAddr m (i + n) = slotAddr m i + n * sizeOfItem m := by
  unfold slotAddr
  rw [Nat.add_mul, Nat.add_assoc]

/-- Later slots have greater addresses. -/
theorem slotAddr_le (m : Memory) (h : i ≤ j) : slotAddr m i ≤ slotAddr m j :=
  Nat.add_le_add_left (Nat.mul_le_mul_right _ h) _

/-- Slots are behind the fields. -/
theorem kvAddr_le (m : Memory) (i : Nat) : kvAddr ≤ slotAddr m i := Nat.le_add_right _ _

@[simp] theorem length_slots (m : Memory) : (slots m).length = count m := by
  simp [slots]

@[simp] theorem getElem_slots (m : Memory) (i : Nat) (h : i < (slots m).length) :
    (slots m)[i] = slotAt m i := by
  simp [slots]

theorem getElem?_slots (m : Memory) (h : i < count m) : (slots m)[i]? = some (slotAt m i) := by
  rw [List.getElem?_eq_getElem (by simpa using h), getElem_slots]

/-- Slots agree where their bytes do. -/
theorem slotAt_congr (hk : keySize m' = keySize m) (hv : valSize m' = valSize m)
    (h : ∀ d < keySize m + valSize m + 1, m' (slotAddr m' j + d) = m (slotAddr m i + d)) :
    slotAt m' j = slotAt m i := by
  unfold slotAt getKey flag getValue
  rw [hk, hv, Slot.mk.injEq]
  refine ⟨?_, ?_, ?_⟩
  · apply List.ext_getElem
    · simp
    · intro d hd _
      rw [Memory.length_read] at hd
      rw [Memory.getElem_read, Memory.getElem_read]
      exact h d (by omega)
  · exact h _ (by omega)
  · apply List.ext_getElem
    · simp
    · intro d hd _
      rw [Memory.length_read] at hd
      rw [Memory.getElem_read, Memory.getElem_read]
      simp only [Nat.add_assoc]
      exact h _ (by omega)

end Addresses

section Fields

/-- The sizes of keys, values and slots depend on their fields alone. -/
theorem sizes_congr (h : ∀ a, keySizeAddr ≤ a → a < kvAddr → m' a = m a) :
    keySize m' = keySize m ∧ valSize m' = valSize m ∧ sizeOfItem m' = sizeOfItem m := by
  have hk : keySize m' = keySize m :=
    Memory.word_congr fun d hd ↦ h _ (Nat.le_add_right _ _)
      (by simp only [keySizeAddr, kvAddr]; omega)
  have hv : valSize m' = valSize m :=
    Memory.word_congr fun d hd ↦ h _ (by simp only [keySizeAddr, valSizeAddr]; omega)
      (by simp only [valSizeAddr, kvAddr]; omega)
  refine ⟨hk, hv, ?_⟩
  unfold sizeOfItem
  rw [hk, hv]

/-- So do the addresses of slots. -/
theorem slotAddr_congr (h : ∀ a, keySizeAddr ≤ a → a < kvAddr → m' a = m a) (i : Nat) :
    slotAddr m' i = slotAddr m i := by
  unfold slotAddr
  rw [(sizes_congr h).2.2]

/-- Slots stay where their bytes and the sizes do. -/
theorem slotAt_of_kept (h : ∀ a, keySizeAddr ≤ a → a < kvAddr → m' a = m a)
    (hi : ∀ a, slotAddr m i ≤ a → a < slotAddr m i + (keySize m + valSize m + 1) → m' a = m a) :
    slotAt m' i = slotAt m i := by
  obtain ⟨hk, hv, _⟩ := sizes_congr h
  refine slotAt_congr hk hv fun d hd ↦ ?_
  rw [slotAddr_congr h]
  exact hi _ (by omega) (by omega)

/-- Storing in the fields before `keySize` leaves the slots. -/
theorem slotAt_setWord {n addr x : Nat} (haddr : addr + n ≤ keySizeAddr) (i : Nat) :
    slotAt (m.setWord n addr x) i = slotAt m i := by
  have hout : ∀ a, keySizeAddr ≤ a → m.setWord n addr x a = m a := fun a ha ↦
    Memory.write_of_outside (.inr (by rw [length_leBytes]; omega))
  refine slotAt_of_kept (fun a ha _ ↦ hout a ha) fun a ha _ ↦ hout a ?_
  exact Nat.le_trans (by decide) (Nat.le_trans (kvAddr_le m i) ha)

/-- As many slots are in use as `count` is set to. -/
theorem slots_setCount {n : Nat} (hn : n < 2 ^ 16) :
    slots (m.setWord 2 countAddr n) = (List.range n).map (slotAt m) := by
  have hcount : count (m.setWord 2 countAddr n) = n := by
    unfold count
    rw [Memory.word_setWord, Nat.mod_eq_of_lt (by omega)]
  unfold slots
  rw [hcount]
  exact List.map_congr_left fun i _ ↦ slotAt_setWord (by decide) i

/-- Storing the link leaves the slots. -/
theorem slots_setNext {x : Nat} : slots (m.setWord 4 nextAddr x) = slots m := by
  have hcount : count (m.setWord 4 nextAddr x) = count m :=
    Memory.word_setWord_of_disjoint (by decide)
  unfold slots
  rw [hcount]
  exact List.map_congr_left fun i _ ↦ slotAt_setWord (by decide) i

/-- The sizes stay where only fields before them are written. -/
theorem Writes.kept (h : Writes fields m m') (hf : ∀ f ∈ fields, f.1 + f.2 ≤ keySizeAddr) :
    ∀ a, keySizeAddr ≤ a → a < kvAddr → m' a = m a := fun a ha hkv ↦
  h a (.inl hkv) fun f hmem ↦ .inr (Nat.le_trans (hf f hmem) ha)

/-- Writing twice. -/
theorem Writes.trans {m'' : Memory} (h : Writes fields m m') (h' : Writes fields m' m'')
    (hf : ∀ f ∈ fields, f.1 + f.2 ≤ keySizeAddr) : Writes fields m m'' := by
  have hkept := h.kept hf
  intro a ha hfields
  have haddr : slotAddr m' (size m') = slotAddr m (size m) := by
    rw [slotAddr_congr hkept]
    unfold size
    rw [(sizes_congr hkept).2.2]
  rw [h' a (by rwa [haddr]) hfields, h a ha hfields]

/-- Storing in a field adds it to those that are written. -/
theorem Writes.setWord {n addr x : Nat} (h : Writes fields m m') :
    Writes ((addr, n) :: fields) m (m'.setWord n addr x) := by
  intro a ha hf
  have haddr := hf (addr, n) List.mem_cons_self
  rw [Memory.setWord, Memory.write_of_outside (by rw [length_leBytes]; exact haddr)]
  exact h a ha fun f hmem ↦ hf f (List.mem_cons_of_mem _ hmem)

end Fields

/-- The size of a slot fits the 16 bits of `sizeOfItem`. -/
def Fits (m : Memory) : Prop := keySize m + valSize m + 1 < 2 ^ 16

theorem Fits.sizeOfItem_eq (h : Fits m) : sizeOfItem m = keySize m + valSize m + 1 :=
  Nat.mod_eq_of_lt h

/-- A node has room for fewer slots than 16 bits count. -/
theorem size_lt (m : Memory) : size m < 2 ^ 16 :=
  Nat.lt_of_le_of_lt (Nat.div_le_self _ _) (by decide)

section Set

variable {key value : Option Memory} {f : UInt8}

/-- `set` writes to its slot alone. -/
theorem set_of_outside (hfit : Fits m)
    (ha : a < slotAddr m index ∨ slotAddr m (index + 1) ≤ a) :
    set m index key value f a = m a := by
  rw [slotAddr_succ, hfit.sizeOfItem_eq] at ha
  unfold set
  cases key <;> cases value <;> simp only <;>
    repeat rw [Memory.write_of_outside (by
      simp only [Memory.length_read, List.length_singleton]; omega)]

private theorem set_fields (hfit : Fits m) (a : Nat) (hkv : a < kvAddr) :
    set m index key value f a = m a :=
  set_of_outside hfit (.inl (Nat.lt_of_lt_of_le hkv (kvAddr_le m index)))

/-- What `set` leaves in its slot. -/
theorem slotAt_set (hfit : Fits m) : slotAt (set m index key value f) index =
    ⟨(key.map fun k ↦ k.read 0 (keySize m)).getD (getKey m index), f,
      (value.map fun v ↦ v.read 0 (valSize m)).getD (getValue m index)⟩ := by
  have hfields : ∀ a, keySizeAddr ≤ a → a < kvAddr → set m index key value f a = m a :=
    fun a _ ↦ set_fields hfit a
  obtain ⟨hk, hv, _⟩ := sizes_congr hfields
  unfold slotAt getKey flag getValue
  rw [hk, hv, slotAddr_congr hfields, Slot.mk.injEq]
  generalize hp : slotAddr m index = p
  unfold set
  rw [hp]
  have hcopy : ∀ (m' m'' : Memory) (addr n : Nat),
      (m'.write addr (m''.read 0 n)).read addr n = m''.read 0 n := by
    intro m' m'' addr n
    have := Memory.read_write m' addr (m''.read 0 n)
    rwa [Memory.length_read] at this
  refine ⟨?_, ?_, ?_⟩
  · cases value <;> cases key <;> simp only [Option.map, Option.getD]
    · rw [Memory.read_write_of_disjoint (.inl (Nat.le_refl _))]
    · rw [Memory.read_write_of_disjoint (.inl (Nat.le_refl _)), hcopy]
    · rw [Memory.read_write_of_disjoint (.inl (Nat.le_succ _)),
        Memory.read_write_of_disjoint (.inl (Nat.le_refl _))]
    · rw [Memory.read_write_of_disjoint (.inl (Nat.le_succ _)),
        Memory.read_write_of_disjoint (.inl (Nat.le_refl _)), hcopy]
  · have hflag : ∀ m' : Memory, m'.write (p + keySize m) [f] (p + keySize m) = f := fun m' ↦
      Memory.write_of_inside (show 0 < [f].length from Nat.zero_lt_one)
    cases value <;> simp only [hflag]
    rw [Memory.write_of_outside (.inl (by omega)), hflag]
  · cases value <;> cases key <;> simp only [Option.map, Option.getD]
    · rw [Memory.read_write_of_disjoint (.inr (by simp))]
    · rw [Memory.read_write_of_disjoint (.inr (by simp)),
        Memory.read_write_of_disjoint (.inr (by simp only [Memory.length_read]; omega))]
    · rw [hcopy]
    · rw [hcopy]

/-- `set` writes to no other slot. -/
theorem writes_set (hfit : Fits m) (hindex : index < size m) :
    Writes [] m (set m index key value f) := by
  intro a ha _
  apply set_of_outside hfit
  rcases ha with ha | ha
  · exact .inl (Nat.lt_of_lt_of_le ha (kvAddr_le m index))
  · exact .inr (Nat.le_trans (slotAddr_le m hindex) ha)

/-- `set` leaves the other slots. -/
theorem slotAt_set_other (hfit : Fits m) (hne : i ≠ index) :
    slotAt (set m index key value f) i = slotAt m i := by
  refine slotAt_of_kept (fun a _ ↦ set_fields hfit a) fun a ha hlt ↦ set_of_outside hfit ?_
  have hsucc := slotAddr_succ m i
  rw [hfit.sizeOfItem_eq] at hsucc
  rcases Nat.lt_or_gt_of_ne hne with hlt | hlt
  · have := slotAddr_le m (show i + 1 ≤ index from hlt)
    omega
  · have := slotAddr_le m (show index + 1 ≤ i from hlt)
    omega

/-- `set` updates one slot. -/
theorem slots_set (hfit : Fits m) : slots (set m index key value f) = (slots m).set index
    ⟨(key.map fun k ↦ k.read 0 (keySize m)).getD (getKey m index), f,
      (value.map fun v ↦ v.read 0 (valSize m)).getD (getValue m index)⟩ := by
  have hcount : count (set m index key value f) = count m :=
    Memory.word_congr fun d hd ↦ set_fields hfit _ (by simp only [countAddr, kvAddr]; omega)
  apply List.ext_getElem
  · simp [hcount]
  intro i hi _
  rw [getElem_slots, List.getElem_set]
  split
  · next heq => rw [← heq, slotAt_set hfit]
  · next hne => rw [getElem_slots, slotAt_set_other hfit (Ne.symm hne)]

end Set

section Copy

variable {src : Memory} {n d : Nat}

/-- A node with some slots of a node copied over its own. -/
def copySlots (m src : Memory) (j i n : Nat) : Memory :=
  m.write (slotAddr m j) (src.read (slotAddr src i) (n * sizeOfItem m))

private theorem copySlots_of_outside (ha : a < slotAddr m j ∨ slotAddr m (j + n) ≤ a) :
    copySlots m src j i n a = m a := by
  rw [slotAddr_add] at ha
  exact Memory.write_of_outside (by rw [Memory.length_read]; exact ha)

private theorem copySlots_fields (a : Nat) (ha : a < kvAddr) : copySlots m src j i n a = m a :=
  copySlots_of_outside (.inl (Nat.lt_of_lt_of_le ha (kvAddr_le m j)))

/-- Copying slots keeps the sizes. -/
private theorem copySlots_sizes :
    keySize (copySlots m src j i n) = keySize m ∧ valSize (copySlots m src j i n) = valSize m ∧
      sizeOfItem (copySlots m src j i n) = sizeOfItem m :=
  sizes_congr fun a _ ↦ copySlots_fields a

private theorem slotAddr_copySlots (x : Nat) :
    slotAddr (copySlots m src j i n) x = slotAddr m x :=
  slotAddr_congr (m := m) (fun a _ ↦ copySlots_fields a) x

/-- Copying slots writes to them alone. -/
private theorem writes_copySlots (hn : j + n ≤ size m) : Writes [] m (copySlots m src j i n) := by
  intro a ha _
  apply copySlots_of_outside
  rcases ha with ha | ha
  · exact .inl (Nat.lt_of_lt_of_le ha (kvAddr_le m j))
  · exact .inr (Nat.le_trans (slotAddr_le m hn) ha)

/-- The slots copied to, also where they overlap with those copied from. -/
private theorem slotAt_copySlots (hfit : Fits m) (hk : keySize src = keySize m)
    (hv : valSize src = valSize m) (hd : d < n) :
    slotAt (copySlots m src j i n) (j + d) = slotAt src (i + d) := by
  have hsize : sizeOfItem src = sizeOfItem m := by
    unfold sizeOfItem
    rw [hk, hv]
  refine slotAt_congr (copySlots_sizes.1.trans hk.symm) (copySlots_sizes.2.1.trans hv.symm)
    fun e he ↦ ?_
  rw [hk, hv, ← hfit.sizeOfItem_eq] at he
  have hlt : (d + 1) * sizeOfItem m ≤ n * sizeOfItem m := Nat.mul_le_mul_right _ hd
  rw [Nat.succ_mul] at hlt
  rw [slotAddr_copySlots, slotAddr_add, slotAddr_add, hsize, Nat.add_assoc, Nat.add_assoc]
  exact Memory.write_read_of_inside (by omega)

/-- The slots not copied to. -/
private theorem slotAt_copySlots_other (hfit : Fits m) {x : Nat} (hx : x < j ∨ j + n ≤ x) :
    slotAt (copySlots m src j i n) x = slotAt m x := by
  refine slotAt_of_kept (fun a _ ↦ copySlots_fields a) fun a ha hlt ↦ copySlots_of_outside ?_
  have hsucc := slotAddr_succ m x
  rw [hfit.sizeOfItem_eq] at hsucc
  rcases hx with hx | hx
  · have := slotAddr_le m (show x + 1 ≤ j from hx)
    omega
  · have := slotAddr_le m hx
    omega

end Copy

/-- `insert` sets a slot where it has moved the others. -/
private theorem insert_eq (hindex : index ≤ count m) (hroom : count m < size m) :
    insert m key value index = .ok
      ((set (copySlots m m (index + 1) index (count m - index)) index (some key) (some value)
        1).setWord 2 countAddr (count m + 1)) := by
  unfold insert set
  rw [if_pos ⟨hindex, hroom⟩, copySlots_sizes.1, copySlots_sizes.2.1, slotAddr_copySlots, copySlots,
    slotAddr_succ, Nat.mul_comm]

/-- `insert` inserts a live slot. -/
theorem insert_spec (hfit : Fits m) (hindex : index ≤ count m) (hroom : count m < size m) :
    ∃ m', insert m key value index = .ok m' ∧ Writes [(countAddr, 2)] m m' ∧
      slots m' = (slots m).insertIdx index
        ⟨key.read 0 (keySize m), 1, value.read 0 (valSize m)⟩ := by
  have hsize := size_lt m
  have hfit' : Fits (copySlots m m (index + 1) index (count m - index)) := by
    unfold Fits
    rw [copySlots_sizes.1, copySlots_sizes.2.1]
    exact hfit
  have hsize' : size (copySlots m m (index + 1) index (count m - index)) = size m := by
    unfold size
    rw [copySlots_sizes.2.2]
  have hcopy : Writes [] m (copySlots m m (index + 1) index (count m - index)) :=
    writes_copySlots (by omega)
  refine ⟨_, insert_eq hindex hroom, (hcopy.trans (writes_set hfit' ?_) (by simp)).setWord, ?_⟩
  · omega
  · rw [slots_setCount (by omega)]
    apply List.ext_getElem
    · rw [List.length_map, List.length_range,
        List.length_insertIdx_of_le_length (by simpa using hindex), length_slots]
    intro i hi _
    rw [List.length_map, List.length_range] at hi
    rw [List.getElem_map, List.getElem_range]
    rcases Nat.lt_trichotomy i index with hlt | rfl | hgt
    · rw [List.getElem_insertIdx_of_lt hlt, getElem_slots, slotAt_set_other hfit' (by omega),
        slotAt_copySlots_other hfit (.inl (by omega))]
    · rw [List.getElem_insertIdx_self, slotAt_set hfit', copySlots_sizes.1, copySlots_sizes.2.1]
      rfl
    · obtain ⟨d, rfl⟩ : ∃ d, i = index + 1 + d := ⟨i - index - 1, by omega⟩
      rw [List.getElem_insertIdx_of_gt hgt, getElem_slots, slotAt_set_other hfit' (by omega),
        slotAt_copySlots hfit rfl rfl (by omega)]
      congr 1
      omega

/-- `remove` deletes a slot. -/
theorem remove_spec (hfit : Fits m) (hindex : index < count m) (hcount : count m ≤ size m) :
    ∃ m', remove m index = .ok m' ∧ Writes [(countAddr, 2)] m m' ∧
      slots m' = (slots m).eraseIdx index := by
  have hsize := size_lt m
  have heq : remove m index = .ok
      ((copySlots m m index (index + 1) (count m - index - 1)).setWord 2 countAddr
        (count m - 1)) := by
    unfold remove
    rw [if_pos hindex, Nat.mul_comm]
    rfl
  refine ⟨_, heq, (writes_copySlots (by omega)).setWord, ?_⟩
  rw [slots_setCount (by omega)]
  apply List.ext_getElem
  · rw [List.length_map, List.length_range, List.length_eraseIdx_of_lt (by simpa using hindex),
      length_slots]
  intro i hi _
  rw [List.length_map, List.length_range] at hi
  rw [List.getElem_map, List.getElem_range, List.getElem_eraseIdx]
  split
  · next hlt => rw [getElem_slots, slotAt_copySlots_other hfit (.inl hlt)]
  · next hge =>
    obtain ⟨d, rfl⟩ : ∃ d, i = index + d := ⟨i - index, by omega⟩
    rw [getElem_slots, slotAt_copySlots hfit rfl rfl (by omega), Nat.add_right_comm]

/-- `split` leaves the first half of the slots, rounded up, and moves the others. -/
theorem split_spec (hfit : Fits m) (hk : keySize next = keySize m) (hv : valSize next = valSize m)
    (hcount : count m ≤ size m) :
    (Writes [(countAddr, 2)] m (split m next).1 ∧
      slots (split m next).1 = (slots m).take ((count m + 1) / 2)) ∧
    Writes [(countAddr, 2)] next (split m next).2 ∧
      slots (split m next).2 = (slots m).drop ((count m + 1) / 2) := by
  have hsize := size_lt m
  have hitem : sizeOfItem next = sizeOfItem m := by
    unfold sizeOfItem
    rw [hk, hv]
  have hroom : size next = size m := by
    unfold size
    rw [hitem]
  have hfit' : Fits next := by
    unfold Fits
    rwa [hk, hv]
  have hnext : (split m next).2 = (copySlots next m 0 ((count m + 1) / 2) (count m / 2)).setWord 2
      countAddr (count m / 2) := by
    unfold copySlots
    rw [hitem, slotAddr, Nat.zero_mul]
    rfl
  refine ⟨⟨Writes.setWord fun _ _ _ ↦ rfl, ?_⟩, ?_, ?_⟩
  · have hhalf : (count m + 1) / 2 ≤ count m := by omega
    change slots (m.setWord 2 countAddr ((count m + 1) / 2)) = _
    rw [slots_setCount (by omega), slots, ← List.map_take, List.take_range,
      Nat.min_eq_left hhalf]
  · rw [hnext]
    exact (writes_copySlots (by omega)).setWord
  · rw [hnext, slots_setCount (by omega)]
    apply List.ext_getElem
    · rw [List.length_map, List.length_range, List.length_drop, length_slots]
      omega
    intro i hi _
    rw [List.length_map, List.length_range] at hi
    rw [List.getElem_map, List.getElem_range, List.getElem_drop, getElem_slots]
    have := slotAt_copySlots (j := 0) (i := (count m + 1) / 2) hfit' hk.symm hv.symm hi
    rwa [Nat.zero_add] at this

/-- `merge` puts the slots of a node behind those of another. -/
theorem merge_spec (hfit : Fits m) (hk : keySize next = keySize m) (hv : valSize next = valSize m)
    (hroom : count m + count next ≤ size m) :
    Writes [(nextAddr, 4), (countAddr, 2)] m (merge m next) ∧
      slots (merge m next) = slots m ++ slots next := by
  have hsize := size_lt m
  have heq : merge m next = ((copySlots m next (count m) 0 (count next)).setWord 2 countAddr
      (count m + count next)).setWord 4 nextAddr (next.word 4 nextAddr) := by
    unfold merge copySlots
    rw [slotAddr, slotAddr, Nat.zero_mul, Nat.add_zero]
  rw [heq]
  refine ⟨(writes_copySlots (by omega)).setWord.setWord, ?_⟩
  rw [slots_setNext, slots_setCount (by omega)]
  apply List.ext_getElem
  · simp
  intro i hi _
  rw [List.length_map, List.length_range] at hi
  rw [List.getElem_map, List.getElem_range, List.getElem_append]
  split
  · next hlt => rw [getElem_slots, slotAt_copySlots_other hfit (.inl (by simpa using hlt))]
  · next hge =>
    rw [length_slots] at hge
    obtain ⟨d, rfl⟩ : ∃ d, i = count m + d := ⟨i - count m, by omega⟩
    rw [getElem_slots, slotAt_copySlots hfit hk hv (by omega)]
    simp

/-- How many slots `size` finds room for, by the sizes of keys and values. -/
def capacity (k v : UInt16) : Nat := (BLOCK_SIZE - kvAddr) / ((k.toNat + v.toNat + 1) % 2 ^ 16)

/-- A node for keys and values of some sizes, with no more slots than it has room for. -/
structure Sized (k v : UInt16) (m : Memory) : Prop where
  key : keySize m = k.toNat
  val : valSize m = v.toNat
  count_le : count m ≤ size m

/-- On nodes for keys and values of some sizes, the packed operations do with the slots what those
of lists do, and write to no other byte but the fields that they set. -/
structure Refines (k v : UInt16) : Prop where
  insert : ∀ m key value index, Sized k v m → index ≤ count m → count m < size m →
    ∃ m', Packed.insert m key value index = .ok m' ∧ Writes [(countAddr, 2)] m m' ∧
      slots m' = (slots m).insertIdx index ⟨key.read 0 k.toNat, 1, value.read 0 v.toNat⟩
  set : ∀ m index key value flag s, Sized k v m → (slots m)[index]? = some s →
    Writes [] m (Packed.set m index key value flag) ∧
      slots (Packed.set m index key value flag) = (slots m).set index
        ⟨(key.map fun key ↦ key.read 0 k.toNat).getD s.key, flag,
          (value.map fun value ↦ value.read 0 v.toNat).getD s.value⟩
  removeByFlag : ∀ m index s, Sized k v m → (slots m)[index]? = some s →
    Writes [] m (Packed.removeByFlag m index) ∧
      slots (Packed.removeByFlag m index) = (slots m).set index { s with flag := 0 }
  remove : ∀ m index, Sized k v m → index < count m →
    ∃ m', Packed.remove m index = .ok m' ∧ Writes [(countAddr, 2)] m m' ∧
      slots m' = (slots m).eraseIdx index
  split : ∀ m next, Sized k v m → keySize next = k.toNat → valSize next = v.toNat →
    (Writes [(countAddr, 2)] m (Packed.split m next).1 ∧
      slots (Packed.split m next).1 = (slots m).take ((count m + 1) / 2)) ∧
    Writes [(countAddr, 2)] next (Packed.split m next).2 ∧
      slots (Packed.split m next).2 = (slots m).drop ((count m + 1) / 2) ∧
      (slots (Packed.split m next).2).length = count m / 2
  merge : ∀ m next, Sized k v m → keySize next = k.toNat → valSize next = v.toNat →
    Writes [(nextAddr, 4), (countAddr, 2)] (Packed.split m next).1
        (Packed.merge (Packed.split m next).1 (Packed.split m next).2) ∧
      slots (Packed.merge (Packed.split m next).1 (Packed.split m next).2) = slots m

section Refinement

variable {k v : UInt16}

theorem Sized.size_eq (h : Sized k v m) : size m = capacity k v := by
  unfold size sizeOfItem capacity
  rw [h.key, h.val]

private theorem Sized.fits (h : Sized k v m) (hfit : k.toNat + v.toNat + 1 < 2 ^ 16) : Fits m := by
  unfold Fits
  rwa [h.key, h.val]

/-- A slot in use. -/
private theorem of_getElem?_slots {s : Slot (List UInt8)} (h : (slots m)[index]? = some s) :
    index < count m ∧ s = ⟨getKey m index, flag m index, getValue m index⟩ := by
  obtain ⟨hlt, rfl⟩ := List.getElem?_eq_some_iff.mp h
  exact ⟨by simpa using hlt, getElem_slots m index hlt⟩

/-- While the size of a slot fits 16 bits, the operations are those of lists. -/
private theorem refines_of_fits (hfit : k.toNat + v.toNat + 1 < 2 ^ 16) : Refines k v where
  insert m key value index hm hindex hroom := by
    rw [← hm.key, ← hm.val]
    exact insert_spec (hm.fits hfit) hindex hroom
  set m index key value flag s hm hs := by
    obtain ⟨hlt, rfl⟩ := of_getElem?_slots hs
    rw [← hm.key, ← hm.val]
    exact ⟨writes_set (hm.fits hfit) (Nat.lt_of_lt_of_le hlt hm.count_le),
      slots_set (hm.fits hfit)⟩
  removeByFlag m index s hm hs := by
    obtain ⟨hlt, rfl⟩ := of_getElem?_slots hs
    exact ⟨writes_set (hm.fits hfit) (Nat.lt_of_lt_of_le hlt hm.count_le),
      slots_set (hm.fits hfit)⟩
  remove m index hm hindex := remove_spec (hm.fits hfit) hindex hm.count_le
  split m next hm hk hv := by
    obtain ⟨hm', hnext, hslots⟩ := split_spec (hm.fits hfit) (hk.trans hm.key.symm)
      (hv.trans hm.val.symm) hm.count_le
    refine ⟨hm', hnext, hslots, ?_⟩
    rw [hslots, List.length_drop, length_slots]
    omega
  merge m next hm hk hv := by
    obtain ⟨⟨hm', hslots⟩, hnext, hslots'⟩ := split_spec (hm.fits hfit) (hk.trans hm.key.symm)
      (hv.trans hm.val.symm) hm.count_le
    obtain ⟨hk₁, hv₁, hitem₁⟩ := sizes_congr (hm'.kept (by simp [countAddr, keySizeAddr]))
    obtain ⟨hk₂, hv₂, _⟩ := sizes_congr (hnext.kept (by simp [countAddr, keySizeAddr]))
    have hfit₁ : Fits (Packed.split m next).1 := by
      unfold Fits
      rw [hk₁, hv₁]
      exact hm.fits hfit
    have hcount : count (Packed.split m next).1 + count (Packed.split m next).2 = count m := by
      rw [← length_slots, ← length_slots, hslots, hslots', ← List.length_append,
        List.take_append_drop, length_slots]
    have hsize : size (Packed.split m next).1 = size m := by
      unfold size
      rw [hitem₁]
    obtain ⟨hwrites, hmerge⟩ := merge_spec hfit₁ (by rw [hk₂, hk, hk₁, hm.key])
      (by rw [hv₂, hv, hv₁, hm.val]) (by rw [hcount, hsize]; exact hm.count_le)
    refine ⟨hwrites, ?_⟩
    rw [hmerge, hslots, hslots', List.take_append_drop]

/-- Inserting ones into an empty node writes them to as many bytes as keys and values have. -/
private theorem insert_ones (hm : count m = 0) (hroom : 0 < size m) :
    ∃ m', insert m (fun _ ↦ 1) (fun _ ↦ 1) 0 = .ok m' ∧
      ∀ a, kvAddr ≤ a → a < kvAddr + (keySize m + valSize m + 1) → m' a = 1 := by
  have hp : slotAddr m 0 = kvAddr := by
    unfold slotAddr
    rw [Nat.zero_mul, Nat.add_zero]
  unfold insert
  rw [if_pos ⟨Nat.zero_le _, by rwa [hm]⟩, hp]
  refine ⟨_, rfl, fun a ha hlt ↦ ?_⟩
  have hcount : countAddr + 2 ≤ a := Nat.le_trans (by decide) ha
  rw [Memory.setWord, Memory.write_of_outside (.inr (by rw [length_leBytes]; exact hcount))]
  rcases Nat.lt_trichotomy a (kvAddr + keySize m) with hkey | rfl | hval
  · obtain ⟨d, rfl⟩ : ∃ d, a = kvAddr + d := ⟨a - kvAddr, by omega⟩
    rw [Memory.write_of_outside (.inl (by omega)), Memory.write_of_outside (.inl hkey)]
    exact Memory.write_read_of_inside (by omega)
  · rw [Memory.write_of_outside (.inl (by omega))]
    exact Memory.write_of_inside (show 0 < [(1 : UInt8)].length from Nat.zero_lt_one)
  · obtain ⟨d, rfl⟩ : ∃ d, a = kvAddr + keySize m + 1 + d :=
      ⟨a - (kvAddr + keySize m + 1), by omega⟩
    exact Memory.write_read_of_inside (by omega)

/-- An empty node for keys and values of some sizes. -/
private def blank (k v : UInt16) : Memory :=
  (Memory.setWord (fun _ ↦ 0) 2 keySizeAddr k.toNat).setWord 2 valSizeAddr v.toNat

private theorem blank_count (k v : UInt16) : count (blank k v) = 0 := by
  unfold count blank
  rw [Memory.word_setWord_of_disjoint (by decide), Memory.word_setWord_of_disjoint (by decide)]
  decide

private theorem blank_sized (k v : UInt16) : Sized k v (blank k v) where
  key := by
    unfold keySize blank
    rw [Memory.word_setWord_of_disjoint (by decide), Memory.word_setWord]
    exact Nat.mod_eq_of_lt k.toNat_lt
  val := by
    unfold valSize blank
    rw [Memory.word_setWord]
    exact Nat.mod_eq_of_lt v.toNat_lt
  count_le := by
    rw [blank_count]
    exact Nat.zero_le _

private theorem blank_eq_zero (k v : UInt16) (ha : kvAddr ≤ a) : blank k v a = 0 := by
  have ha : 34 ≤ a := ha
  unfold blank Memory.setWord
  rw [Memory.write_of_outside (.inr (by rw [length_leBytes, valSizeAddr]; omega)),
    Memory.write_of_outside (.inr (by rw [length_leBytes, keySizeAddr]; omega))]

/-- Where that size does not fit, an insertion writes behind the slots. -/
private theorem fits_of_refines (hroom : 1 ≤ capacity k v) (h : Refines k v) :
    k.toNat + v.toNat + 1 < 2 ^ 16 := by
  by_contra hwide
  have hm := blank_sized k v
  have hsize : 0 < size (blank k v) := by rwa [hm.size_eq]
  obtain ⟨m₁, hinsert, hwrites, _⟩ := h.insert (blank k v) (fun _ ↦ 1) (fun _ ↦ 1) 0 hm
    (Nat.zero_le _) (by rwa [blank_count])
  obtain ⟨m₂, hinsert', hones⟩ := insert_ones (blank_count k v) hsize
  rw [hinsert, Except.ok.injEq] at hinsert'
  subst hinsert'
  rw [hm.key, hm.val] at hones
  -- the byte behind the slots is written
  have hle : kvAddr ≤ slotAddr (blank k v) (size (blank k v)) := kvAddr_le _ _
  have hend : slotAddr (blank k v) (size (blank k v)) ≤ BLOCK_SIZE := by
    have := Nat.div_mul_le_self (BLOCK_SIZE - kvAddr) (sizeOfItem (blank k v))
    unfold slotAddr size
    simp only [BLOCK_SIZE, kvAddr] at *
    omega
  have hone := hones _ hle (by simp only [BLOCK_SIZE, kvAddr] at *; omega)
  have hzero := hwrites _ (.inr (Nat.le_refl _)) fun f hf ↦ by
    rw [List.mem_singleton.mp hf]
    exact .inr (Nat.le_trans (by decide) hle)
  rw [blank_eq_zero k v hle, hone] at hzero
  exact absurd hzero (by decide)

/-- The packed operations of nodes with room for a slot are those of lists exactly when the size
of a slot fits the 16 bits of `sizeOfItem`. -/
theorem refines_iff (hroom : 1 ≤ capacity k v) : Refines k v ↔ k.toNat + v.toNat + 1 < 2 ^ 16 :=
  ⟨fits_of_refines hroom, refines_of_fits⟩

/-- Keys of four bytes and values of eight. -/
theorem refines_four_eight : Refines 4 8 := (refines_iff (by decide)).mpr (by decide)

/-- With keys of 65535 bytes and values of 64, `sizeOfItem` is 64, and a node has room for 63 slots
that none fits in. -/
theorem wide_not_refined : ¬ ∀ k v : UInt16, 1 ≤ capacity k v → Refines k v := by
  intro hall
  exact absurd (fits_of_refines (by decide) (hall 65535 64 (by decide))) (by decide)

end Refinement

/-- The node as which the tree reads the bytes of a block. -/
structure Reads (m : Memory) (n : NodeBlock (List UInt8)) : Prop where
  keySize : n.keySize = keySize m
  valSize : n.valSize = valSize m
  kv : n.kv = slots m

namespace Reads

variable {n : NodeBlock (List UInt8)}

/-- Both have the same number of slots. -/
theorem count_eq (h : Reads m n) : n.count = count m := by
  rw [NodeBlock.count, h.kv, length_slots]

/-- Both have room for the same number of slots. -/
theorem size_eq (h : Reads m n) : n.size = size m := by
  unfold NodeBlock.size NodeBlock.sizeOfItem size sizeOfItem kvAddr
  rw [h.keySize, h.valSize]

/-- The slot read is that at its address. -/
theorem getSlot (h : Reads m n) (hi : i < count m) : n.getSlot i = .ok (slotAt m i) := by
  unfold NodeBlock.getSlot
  rw [h.kv, getElem?_slots m hi]

/-- So is what the bisections compare. -/
theorem compare (h : Reads m n) (hi : i < count m) (cmp : List UInt8 → List UInt8 → Int)
    (k : List UInt8) : n.compare cmp i k = .ok (cmp (getKey m i) k) := by
  unfold NodeBlock.compare NodeBlock.getKey
  rw [h.getSlot hi]
  rfl

/-- Sizes that are kept are read again. -/
private theorem of_slots (h : Reads m n) (hw : Writes fields m m')
    (hf : ∀ f ∈ fields, f.1 + f.2 ≤ keySizeAddr) {kv : List (Slot (List UInt8))}
    (hkv : slots m' = kv) : Reads m' { n with kv := kv } := by
  obtain ⟨hk, hv, _⟩ := sizes_congr (hw.kept hf)
  exact ⟨h.keySize.trans hk.symm, h.valSize.trans hv.symm, hkv.symm⟩

private theorem take_read (v : Memory) (k : Nat) : (v.read 0 k).take k = v.read 0 k :=
  List.take_of_length_le (Nat.le_of_eq (Memory.length_read v 0 k))

private theorem insertIdx_eq {α : Type} {x : α} {l : List α} {i : Nat} (hi : i ≤ l.length) :
    l.insertIdx i x = l.take i ++ x :: l.drop i := by
  induction l generalizing i with
  | nil =>
    obtain rfl : i = 0 := by simpa using hi
    rfl
  | cons y l ih =>
    cases i with
    | zero => rfl
    | succ i => rw [List.insertIdx_succ_cons, ih (by simpa using hi)]; rfl

/-- Both refuse the same insertions and insert the same slot. -/
theorem insert (h : Reads m n) (hfit : Fits m) :
    match insert m key value index with
    | .ok m' => ∃ n', n.insert (key.read 0 (Packed.keySize m)) (value.read 0 (Packed.valSize m))
        index = .ok n' ∧ Reads m' n'
    | .error e => n.insert (key.read 0 (Packed.keySize m)) (value.read 0 (Packed.valSize m))
        index = .error e := by
  unfold NodeBlock.insert
  rw [h.count_eq, h.size_eq]
  by_cases hroom : index ≤ count m ∧ count m < size m
  · obtain ⟨m', hinsert, hw, hslots⟩ : ∃ m', Packed.insert m key value index = .ok m' ∧ _ ∧ _ :=
      insert_spec hfit hroom.1 hroom.2
    rw [hinsert, if_pos hroom]
    refine ⟨_, rfl, h.of_slots hw (by simp [countAddr, keySizeAddr]) ?_⟩
    rw [hslots, h.kv, h.valSize, take_read, insertIdx_eq (by simpa using hroom.1)]
  · unfold Packed.insert
    rw [if_neg hroom, if_neg hroom]

/-- Both update the same slot. -/
theorem set (h : Reads m n) (hfit : Fits m) (hindex : index < count m) (hcount : count m ≤ size m)
    (key value : Option Memory) (f : UInt8) :
    ∃ n', n.set index (key.map fun k ↦ k.read 0 (Packed.keySize m))
      (value.map fun v ↦ v.read 0 (Packed.valSize m)) f = .ok n' ∧
      Reads (set m index key value f) n' := by
  unfold NodeBlock.set
  rw [h.getSlot hindex]
  refine ⟨_, rfl, h.of_slots (writes_set hfit (Nat.lt_of_lt_of_le hindex hcount)) nofun ?_⟩
  rw [slots_set hfit, h.kv, h.valSize]
  cases value with
  | none => rfl
  | some value =>
    simp only [Option.map_some, Option.getD_some, take_read]
    rfl

/-- Both split the same slots off. -/
theorem split {next : Memory} {nextNode : NodeBlock (List UInt8)} (h : Reads m n)
    (h' : Reads next nextNode) (hfit : Fits m) (hk : Packed.keySize next = Packed.keySize m)
    (hv : Packed.valSize next = Packed.valSize m) (hcount : count m ≤ size m) :
    Reads (split m next).1 (n.split nextNode).1 ∧ Reads (split m next).2 (n.split nextNode).2 := by
  obtain ⟨⟨hw, hslots⟩, hw', hslots'⟩ := split_spec hfit hk hv hcount
  unfold NodeBlock.split
  rw [h.count_eq, h.kv]
  exact ⟨h.of_slots hw (by simp [countAddr, keySizeAddr]) hslots,
    h'.of_slots hw' (by simp [countAddr, keySizeAddr]) hslots'⟩

end Reads

end ExampleEngine.Storage.Packed
