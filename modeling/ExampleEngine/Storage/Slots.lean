import ExampleEngine.Base.Memory
import ExampleEngine.Storage.Block

/-!
# Data blocks in memory

Library `Storage`. Models `DataBlock` of `src/lib/block.h:60–79` and `src/lib/block.cpp:40–82`
on the bytes of its block, with the fields at their addresses. Records grow down from the end
of the block and the directory grows up behind the header; every run of insertions keeps
them apart, so a data block is an append-only list of records.
-/

namespace ExampleEngine.Storage

open ExampleEngine.Base

/-- Data whose size fits the 16-bit parameter of `DataBlock::insert`. -/
abbrev SizedData := { data : List UInt8 // data.length < 2 ^ 16 }

namespace Slots

/-- The address of the field `count`, behind the header. -/
def countAddr : Nat := 20

/-- The address of the field `free`. -/
def freeAddr : Nat := 22

/-- The address of an entry of `directory`. -/
def directoryAddr (i : Nat) : Nat := 24 + 2 * i

/-- The field `count`. -/
def count (m : Memory) : Nat := m.word 2 countAddr

/-- The field `free`. -/
def free (m : Memory) : Nat := m.word 2 freeAddr

/-- An entry of `directory`. -/
def directory (m : Memory) (i : Nat) : Nat := m.word 2 (directoryAddr i)

/-- `BlockHeader::init`: index, magic number and links; `src/lib/block.h:42–48`. -/
def initHeader (m : Memory) (index : Nat) : Memory :=
  (((m.setWord 4 8 index).setWord 4 0 0x1ef0c6c1).setWord 4 12 0).setWord 4 16 0

/-- `DataBlock::init`; the type takes the low three bits of its word;
`src/lib/block.cpp:40–45`. -/
def init (m : Memory) (index : Nat) : Memory :=
  let m := initHeader m index
  let m := m.setWord 2 countAddr 0
  let m := m.setWord 2 freeAddr BLOCK_SIZE
  m.setWord 2 4 (m.word 2 4 / 8 * 8 + 1)

/-- `DataBlock::freeSize`, where `sizeof` makes the difference unsigned and the result is read
as a signed number again; `src/lib/block.cpp:47–50`. -/
def freeSize (m : Memory) : Int :=
  toInt32 ((((free m : Int) - directoryAddr (count m + 1) - 2 - 2) % 2 ^ 32).toNat)

/-- `DataBlock::insert`, returning the position unless the record is refused;
`src/lib/block.cpp:52–67`. -/
def insert (m : Memory) (data : SizedData) : Option Nat × Memory :=
  let size := data.val.length
  if (size : Int) > freeSize m then (none, m)
  else
    let m := m.setWord 2 freeAddr (((free m : Int) - (size + 2)) % 2 ^ 16).toNat
    let m := m.write (free m) data.val
    let position := count m
    let m := m.setWord 2 (directoryAddr position) (free m)
    (some position, m.setWord 2 countAddr (position + 1))

/-- `DataBlock::get`: the address of a record; `src/lib/block.cpp:69–82`. -/
def get (m : Memory) (position : Nat) : Option Nat :=
  if position ≥ count m then none
  else
    let offset := directory m position
    if offset = 0 then none else some offset

/-- Insertions one after the other, with the position of each that is accepted. -/
def insertAll : List SizedData → Memory → List (Option Nat) × Memory
  | [], m => ([], m)
  | data :: rest, m =>
    let (position, m) := insert m data
    let (positions, m) := insertAll rest m
    (position :: positions, m)

/-- The bytes that records take at the end of a block, each with two more. -/
def used (records : List (List UInt8)) : Nat := (records.map fun r ↦ r.length + 2).sum

/-- The address of a record. -/
def addr (records : List (List UInt8)) (p : Nat) : Nat := BLOCK_SIZE - used (records.take (p + 1))

@[simp] theorem used_nil : used [] = 0 := rfl

@[simp] theorem used_append (rs rs' : List (List UInt8)) :
    used (rs ++ rs') = used rs + used rs' := by
  simp [used]

@[simp] theorem used_singleton (r : List UInt8) : used [r] = r.length + 2 := by
  simp [used]

@[simp] theorem used_cons (r : List UInt8) (rs : List (List UInt8)) :
    used (r :: rs) = r.length + 2 + used rs := by
  simp [used]

/-- Fewer records take fewer bytes. -/
theorem used_take_le (rs : List (List UInt8)) (n : Nat) : used (rs.take n) ≤ used rs := by
  have h := used_append (rs.take n) (rs.drop n)
  rw [List.take_append_drop] at h
  omega

/-- A record comes below those before it. -/
theorem used_take_succ {rs : List (List UInt8)} {p : Nat} (hp : p < rs.length) :
    used (rs.take (p + 1)) = used (rs.take p) + (rs[p].length + 2) := by
  rw [List.take_add_one, List.getElem?_eq_getElem hp, used_append, Option.toList_some,
    used_singleton]

/-- The block holds a list of records: the count, the margin and the directory are those of
the list, without a wrap of their 16 bits, and each record stands at its address. -/
structure Holds (m : Memory) (records : List (List UInt8)) : Prop where
  fits : directoryAddr records.length + used records ≤ BLOCK_SIZE
  count : count m = records.length
  free : free m = BLOCK_SIZE - used records
  directory : ∀ p < records.length, directory m p = addr records p
  record : ∀ p (hp : p < records.length), m.read (addr records p) records[p].length = records[p]

variable {m m' : Memory} {records : List (List UInt8)} {data : SizedData} {p : Nat}

/-- A block just initialised holds no records. -/
theorem holds_init (m : Memory) (index : Nat) : Holds (init m index) [] := by
  constructor
  · decide
  · unfold count init
    rw [Memory.word_setWord_of_disjoint (by decide), Memory.word_setWord_of_disjoint (by decide),
      Memory.word_setWord]
    rfl
  · unfold free init
    rw [Memory.word_setWord_of_disjoint (by decide), Memory.word_setWord]
    rfl
  · intro p hp
    simp at hp
  · intro p hp
    simp at hp

namespace Holds

/-- The free size is computed without wrapping. -/
theorem freeSize_eq (h : Holds m records) :
    freeSize m = (Slots.free m : Int) - (24 + 2 * (Slots.count m + 1)) - 4 := by
  have hfits := h.fits
  have hfree := h.free
  have hcount := h.count
  simp only [directoryAddr, BLOCK_SIZE] at hfits hfree
  unfold freeSize toInt32 directoryAddr
  split <;> omega

/-- A record lies between the margin and the records before it. -/
theorem addr_bounds (h : Holds m records) (hp : p < records.length) :
    Slots.free m ≤ addr records p ∧
      addr records p + (records[p].length + 2) + used (records.take p) = BLOCK_SIZE := by
  have hfits := h.fits
  have hfree := h.free
  have hle := used_take_le records (p + 1)
  have hsucc := used_take_succ hp
  unfold addr
  unfold directoryAddr at hfits
  omega

/-- A later record lies below an earlier one. -/
theorem addr_lt (h : Holds m records) {q : Nat} (hpq : p < q) (hq : q < records.length) :
    addr records q + records[q].length < addr records p := by
  have hbq := (h.addr_bounds hq).2
  have hbp := (h.addr_bounds (Nat.lt_trans hpq hq)).2
  have hle : used (records.take (p + 1)) ≤ used (records.take q) := by
    have := used_take_le (records.take q) (p + 1)
    rwa [List.take_take, Nat.min_eq_left hpq] at this
  have hsucc := used_take_succ (Nat.lt_trans hpq hq)
  omega

/-- The records are found at their positions, and nothing behind them. -/
theorem get (h : Holds m records) (p : Nat) :
    Slots.get m p = if p < records.length then some (addr records p) else none := by
  unfold Slots.get
  rw [h.count]
  by_cases hp : p < records.length
  · have hpos : addr records p ≠ 0 := by
      have hfits := h.fits
      have hb := h.addr_bounds hp
      have hfree := h.free
      simp only [directoryAddr] at hfits
      omega
    rw [if_neg (by omega), if_pos hp, h.directory p hp, if_neg hpos]
  · rw [if_pos (by omega), if_neg hp]

private theorem addr_append {r : List UInt8} (hp : p < records.length) :
    addr (records ++ [r]) p = addr records p := by
  unfold addr
  rw [List.take_append_of_le_length (by omega)]

private theorem addr_last (records : List (List UInt8)) (r : List UInt8) :
    addr (records ++ [r]) records.length = BLOCK_SIZE - (used records + (r.length + 2)) := by
  unfold addr
  rw [List.take_of_length_le (by simp), used_append, used_singleton]

/-- The block after a record was stored at a margin, as the second record list's. -/
private def stored (m : Memory) (n f : Nat) (data : List UInt8) : Memory :=
  (((m.setWord 2 freeAddr f).write f data).setWord 2 (directoryAddr n) f).setWord 2 countAddr
    (n + 1)

/-- Storing a record reaches the margin and the count, one directory entry and the record. -/
private theorem read_stored {n f a k : Nat} {data : List UInt8}
    (hcount : a + k ≤ countAddr ∨ freeAddr + 2 ≤ a)
    (hdir : a + k ≤ directoryAddr n ∨ directoryAddr n + 2 ≤ a)
    (hdata : a + k ≤ f ∨ f + data.length ≤ a) :
    (stored m n f data).read a k = m.read a k := by
  unfold countAddr freeAddr at hcount
  unfold stored Memory.setWord
  rw [Memory.read_write_of_disjoint (by simp only [length_leBytes, countAddr]; omega),
    Memory.read_write_of_disjoint (by simp only [length_leBytes]; omega),
    Memory.read_write_of_disjoint hdata,
    Memory.read_write_of_disjoint (by simp only [length_leBytes, freeAddr]; omega)]

/-- An accepted record is stored at the new margin. -/
private theorem insert_eq (h : Holds m records) (hsize : (data.val.length : Int) ≤ freeSize m) :
    directoryAddr (records.length + 1) + used records + (data.val.length + 2) ≤ BLOCK_SIZE ∧
      insert m data = (some records.length,
        stored m records.length (BLOCK_SIZE - (used records + (data.val.length + 2)))
          data.val) := by
  have hfits := h.fits
  have hfree := h.free
  have hroom := h.freeSize_eq
  rw [hroom, hfree, h.count] at hsize
  unfold directoryAddr at hfits ⊢
  have hfit : 24 + 2 * (records.length + 1) + used records + (data.val.length + 2) ≤
      BLOCK_SIZE := by
    omega
  refine ⟨hfit, ?_⟩
  have hf : (((Slots.free m : Int) - (data.val.length + 2)) % 2 ^ 16).toNat =
      BLOCK_SIZE - (used records + (data.val.length + 2)) := by
    rw [hfree]
    simp only [BLOCK_SIZE] at hfits hsize ⊢
    omega
  have hlt : BLOCK_SIZE - (used records + (data.val.length + 2)) < 256 ^ 2 := by
    simp only [BLOCK_SIZE]
    omega
  generalize hg : BLOCK_SIZE - (used records + (data.val.length + 2)) = f at hf hlt ⊢
  have hfree' : Slots.free (m.setWord 2 freeAddr f) = f := by
    unfold Slots.free
    rw [Memory.word_setWord, Nat.mod_eq_of_lt hlt]
  have hbelow : freeAddr + 2 ≤ f := by
    simp only [freeAddr, BLOCK_SIZE] at hg hfit ⊢
    omega
  have hfree'' : Slots.free ((m.setWord 2 freeAddr f).write f data.val) = f := by
    unfold Slots.free at hfree' ⊢
    rw [Memory.word_write_of_disjoint (.inl hbelow), hfree']
  have hcount' : Slots.count ((m.setWord 2 freeAddr f).write f data.val) = records.length := by
    rw [← h.count]
    unfold Slots.count
    rw [Memory.word_write_of_disjoint (.inl (by simp only [countAddr, freeAddr] at *; omega)),
      Memory.word_setWord_of_disjoint (by decide)]
  unfold insert
  rw [if_neg (by rw [hroom, hfree, h.count]; omega)]
  simp only [hf, hfree', hfree'', hcount', stored]

/-- An accepted record goes behind those that the block holds. -/
theorem insert_spec (h : Holds m records) (hsize : (data.val.length : Int) ≤ freeSize m) :
    ∃ m', insert m data = (some records.length, m') ∧ Holds m' (records ++ [data.val]) ∧
      m'.read 0 countAddr = m.read 0 countAddr := by
  obtain ⟨hroom, heq⟩ := h.insert_eq hsize
  have hfree := h.free
  unfold directoryAddr BLOCK_SIZE at hroom
  have hold : ∀ {n f a k : Nat} {d : List UInt8}, (a + k ≤ countAddr ∨ freeAddr + 2 ≤ a) →
      (a + k ≤ directoryAddr n ∨ directoryAddr n + 2 ≤ a) →
      (a + k ≤ f ∨ f + d.length ≤ a) →
      (stored m n f d).read a k = m.read a k := fun h₁ h₂ h₃ ↦ read_stored h₁ h₂ h₃
  refine ⟨_, heq, ?_, ?_⟩
  · constructor
    · simp only [List.length_append, List.length_singleton, used_append, used_singleton,
        directoryAddr, BLOCK_SIZE]
      omega
    · unfold Slots.count stored
      rw [Memory.word_setWord, List.length_append, List.length_singleton, Nat.mod_eq_of_lt]
      omega
    · unfold Slots.free stored
      rw [Memory.word_setWord_of_disjoint (by decide),
        Memory.word_setWord_of_disjoint
          (.inl (by simp only [freeAddr, directoryAddr]; omega)),
        Memory.word_write_of_disjoint (.inl (by simp only [freeAddr, BLOCK_SIZE]; omega)),
        Memory.word_setWord, used_append, used_singleton, Nat.mod_eq_of_lt]
      simp only [BLOCK_SIZE]
      omega
    · intro p hp
      rw [List.length_append, List.length_singleton] at hp
      by_cases hlast : p = records.length
      · subst hlast
        unfold Slots.directory stored
        rw [Memory.word_setWord_of_disjoint
            (.inr (by simp only [countAddr, directoryAddr]; omega)),
          Memory.word_setWord, addr_last, Nat.mod_eq_of_lt]
        simp only [BLOCK_SIZE]
        omega
      · rw [addr_append (by omega), ← h.directory p (by omega)]
        unfold Slots.directory Memory.word
        rw [hold (.inr (by simp only [freeAddr, directoryAddr]; omega))
          (.inl (by simp only [directoryAddr]; omega))
          (.inl (by simp only [directoryAddr, BLOCK_SIZE]; omega))]
    · intro p hp
      have hp' := hp
      rw [List.length_append, List.length_singleton] at hp'
      by_cases hlast : p = records.length
      · subst hlast
        rw [List.getElem_concat_length rfl, addr_last]
        unfold stored Memory.setWord
        rw [Memory.read_write_of_disjoint
            (.inr (by simp only [length_leBytes, countAddr, BLOCK_SIZE]; omega)),
          Memory.read_write_of_disjoint
            (.inr (by simp only [length_leBytes, directoryAddr, BLOCK_SIZE]; omega)),
          Memory.read_write]
      · have hp'' : p < records.length := by omega
        have hb := (h.addr_bounds hp'').1
        simp only [hfree, BLOCK_SIZE] at hb
        rw [List.getElem_append_left hp'', addr_append hp'',
          hold (.inr (by simp only [freeAddr]; omega))
            (.inr (by simp only [directoryAddr]; omega))
            (.inr (by simp only [BLOCK_SIZE]; omega)), h.record p hp'']
  · exact hold (.inl (by decide)) (.inl (by simp only [countAddr, directoryAddr]; omega))
      (.inl (by simp only [countAddr, BLOCK_SIZE]; omega))

/-- A refused record leaves the block as it is. -/
theorem insert_refused (hsize : ¬ (data.val.length : Int) ≤ freeSize m) :
    insert m data = (none, m) := by
  unfold insert
  rw [if_pos (by omega)]

end Holds

/-- The bytes that the accepted ones among some records take. -/
def taken (datas : List SizedData) (positions : List (Option Nat)) : Nat :=
  ((datas.zip positions).map fun d ↦ if d.2.isSome then d.1.val.length + 2 else 0).sum

private theorem taken_cons (d : SizedData) (ds : List SizedData) (p : Option Nat)
    (ps : List (Option Nat)) :
    taken (d :: ds) (p :: ps) = (if p.isSome then d.val.length + 2 else 0) + taken ds ps := by
  simp [taken]

/-- The positions that insertions behind some records handed out, and the records there. -/
structure Placed (records records' : List (List UInt8)) (datas : List SizedData)
    (positions : List (Option Nat)) : Prop where
  length : positions.length = datas.length
  record : ∀ (i p : Nat) (d : SizedData), positions[i]? = some (some p) → datas[i]? = some d →
    records.length ≤ p ∧ (records ++ records')[p]? = some d.val
  increasing : ∀ (i j p q : Nat), i < j → positions[i]? = some (some p) →
    positions[j]? = some (some q) → p < q
  count : records'.length = positions.countP Option.isSome
  used : used records' = taken datas positions

/-- What insertions one after the other do: they extend the records. -/
theorem insertAll_spec (h : Holds m records) (datas : List SizedData) :
    ∃ records', Placed records records' datas (insertAll datas m).1 ∧
      Holds (insertAll datas m).2 (records ++ records') ∧
      (insertAll datas m).2.read 0 countAddr = m.read 0 countAddr := by
  induction datas generalizing m records with
  | nil =>
    refine ⟨[], ⟨rfl, by simp [insertAll], by simp [insertAll], rfl, rfl⟩, ?_, rfl⟩
    rwa [List.append_nil]
  | cons data rest ih =>
    by_cases hsize : (data.val.length : Int) ≤ freeSize m
    · obtain ⟨m₁, heq, h₁, hheader⟩ := h.insert_spec hsize
      obtain ⟨rs, hrs, h', hheader'⟩ := ih h₁
      have hall : insertAll (data :: rest) m =
          (some records.length :: (insertAll rest m₁).1, (insertAll rest m₁).2) := by
        simp only [insertAll, heq]
      rw [hall]
      refine ⟨data.val :: rs, ?_, ?_, hheader'.trans hheader⟩
      · constructor
        · simp [hrs.length]
        · intro i p d hp hd
          cases i with
          | zero =>
            simp only [List.getElem?_cons_zero, Option.some.injEq] at hp hd
            subst hp hd
            exact ⟨Nat.le_refl _, by simp⟩
          | succ i =>
            have hrec := hrs.record i p d (by simpa using hp) (by simpa using hd)
            rw [List.length_append, List.length_singleton, List.append_assoc,
              List.singleton_append] at hrec
            exact ⟨by omega, hrec.2⟩
        · intro i j p q hij hp hq
          obtain ⟨j, rfl⟩ : ∃ k, j = k + 1 := ⟨j - 1, by omega⟩
          rw [List.getElem?_cons_succ] at hq
          cases i with
          | zero =>
            simp only [List.getElem?_cons_zero, Option.some.injEq] at hp
            have hlt : j < rest.length := by
              rw [← hrs.length]
              exact (List.getElem?_eq_some_iff.mp hq).1
            have hle := (hrs.record j q _ hq (List.getElem?_eq_getElem hlt)).1
            rw [List.length_append, List.length_singleton] at hle
            omega
          | succ i =>
            rw [List.getElem?_cons_succ] at hp
            exact hrs.increasing i j p q (by omega) hp hq
        · simp [hrs.count]
        · rw [used_cons, hrs.used, taken_cons, Option.isSome_some, if_pos rfl]
      · rw [List.append_assoc, List.singleton_append] at h'
        exact h'
    · obtain ⟨rs, hrs, h', hheader'⟩ := ih h
      have hall : insertAll (data :: rest) m =
          (none :: (insertAll rest m).1, (insertAll rest m).2) := by
        simp only [insertAll, Holds.insert_refused hsize]
      rw [hall]
      refine ⟨rs, ?_, h', hheader'⟩
      constructor
      · simp [hrs.length]
      · intro i p d hp hd
        cases i with
        | zero => simp at hp
        | succ i => exact hrs.record i p d (by simpa using hp) (by simpa using hd)
      · intro i j p q hij hp hq
        obtain ⟨j, rfl⟩ : ∃ k, j = k + 1 := ⟨j - 1, by omega⟩
        cases i with
        | zero => simp at hp
        | succ i =>
          rw [List.getElem?_cons_succ] at hp hq
          exact hrs.increasing i j p q (by omega) hp hq
      · simp [hrs.count]
      · rw [hrs.used, taken_cons, Option.isSome_none, if_neg Bool.false_ne_true, Nat.zero_add]

/-- What a run of insertions on an initialised block leaves: the fields are those of the
accepted records, without a wrap; the directory ends below the margin and the records lie
above it; each record is found at the position handed out for it; the records are disjoint. -/
structure Safe (m : Memory) (datas : List SizedData) (positions : List (Option Nat)) :
    Prop where
  length : positions.length = datas.length
  count : count m = positions.countP Option.isSome
  free : free m + taken datas positions = BLOCK_SIZE
  freeSize : freeSize m = (Slots.free m : Int) - directoryAddr (Slots.count m + 1) - 4
  margin : directoryAddr (Slots.count m) ≤ Slots.free m
  get : ∀ (i p : Nat) (d : SizedData), positions[i]? = some (some p) → datas[i]? = some d →
    ∃ o, Slots.get m p = some o ∧ m.read o d.val.length = d.val ∧
      Slots.free m ≤ o ∧ o + d.val.length ≤ BLOCK_SIZE
  disjoint : ∀ (i j p q o o' : Nat) (d e : SizedData), i ≠ j →
    positions[i]? = some (some p) → datas[i]? = some d →
    positions[j]? = some (some q) → datas[j]? = some e →
    Slots.get m p = some o →
    Slots.get m q = some o' → o + d.val.length ≤ o' ∨ o' + e.val.length ≤ o
  beyond : ∀ p, Slots.count m ≤ p → Slots.get m p = none
  refused : ∀ d : SizedData, (insert m d).1 = none → (insert m d).2 = m

/-- Every run of insertions on an initialised block is safe, and leaves the header as it is. -/
theorem insertAll_safe (m : Memory) (index : Nat) (datas : List SizedData) :
    Safe (insertAll datas (init m index)).2 datas (insertAll datas (init m index)).1 ∧
      (insertAll datas (init m index)).2.read 0 countAddr = (init m index).read 0 countAddr := by
  obtain ⟨rs, hplaced, h, hheader⟩ := insertAll_spec (holds_init m index) datas
  rw [List.nil_append] at h
  have hrecord : ∀ (i p : Nat) (d : SizedData),
      (insertAll datas (init m index)).1[i]? = some (some p) →
      datas[i]? = some d → rs[p]? = some d.val := by
    intro i p d hp hd
    exact (hplaced.record i p d hp hd).2
  refine ⟨?_, hheader⟩
  constructor
  · exact hplaced.length
  · rw [h.count, hplaced.count]
  · rw [h.free, ← hplaced.used]
    have := h.fits
    omega
  · rw [h.freeSize_eq]
    simp only [directoryAddr]
    omega
  · rw [h.count, h.free]
    have := h.fits
    omega
  · intro i p d hp hd
    obtain ⟨hlt, hget⟩ := List.getElem?_eq_some_iff.mp (hrecord i p d hp hd)
    have hb := h.addr_bounds hlt
    have hr := h.record p hlt
    rw [hget] at hb hr
    exact ⟨_, by rw [h.get, if_pos hlt], hr, hb.1, by omega⟩
  · intro i j p q o o' d e hij hp hd hq he ho ho'
    obtain ⟨hltp, hgetp⟩ := List.getElem?_eq_some_iff.mp (hrecord i p d hp hd)
    obtain ⟨hltq, hgetq⟩ := List.getElem?_eq_some_iff.mp (hrecord j q e hq he)
    rw [h.get, if_pos hltp, Option.some.injEq] at ho
    rw [h.get, if_pos hltq, Option.some.injEq] at ho'
    rcases Nat.lt_or_gt_of_ne hij with hlt | hlt
    · have hbelow := h.addr_lt (hplaced.increasing i j p q hlt hp hq) hltq
      rw [hgetq] at hbelow
      omega
    · have hbelow := h.addr_lt (hplaced.increasing j i q p hlt hq hp) hltp
      rw [hgetp] at hbelow
      omega
  · intro p hp
    rw [h.count] at hp
    rw [h.get, if_neg (by omega)]
  · intro d hd
    by_cases hsize : (d.val.length : Int) ≤ Slots.freeSize (insertAll datas (init m index)).2
    · obtain ⟨m', heq, _⟩ := h.insert_spec hsize
      rw [heq] at hd
      cases hd
    · rw [Holds.insert_refused hsize]

/-- The data block as which the tree reads the bytes of a block. -/
structure Reads (m : Memory) (b : DataBlock) : Prop where
  free : b.free = free m
  directory : b.directory = (List.range (count m)).map (directory m)
  bytes : ∀ a, directoryAddr (Slots.count m) ≤ a → b.bytes a = m a

namespace Reads

variable {b : DataBlock}

/-- An initialised block is read from initialised bytes. -/
theorem init (h : BlockHeader) (m : Memory) (index : Nat) :
    Reads (Slots.init m index) (DataBlock.init h m index) := by
  have h₀ := holds_init m index
  constructor
  · exact h₀.free.symm
  · rw [h₀.count]
    rfl
  · intro a ha
    rw [h₀.count] at ha
    have ha' : 24 ≤ a := ha
    unfold Slots.init initHeader Memory.setWord
    simp only [countAddr, freeAddr, DataBlock.init]
    iterate 7 rw [Memory.write_of_outside (.inr (by simp only [length_leBytes]; omega))]

/-- The block has the records that its bytes count. -/
theorem count_eq (hb : Reads m b) : b.count = Slots.count m := by
  rw [DataBlock.count, hb.directory, List.length_map, List.length_range]

/-- Records are found at the same addresses. -/
theorem get_eq (hb : Reads m b) (p : Nat) : b.get p = Slots.get m p := by
  unfold DataBlock.get Slots.get
  rw [hb.directory, List.getElem?_map]
  by_cases hp : p < Slots.count m
  · rw [List.getElem?_range hp, if_neg (by omega)]
    rfl
  · rw [List.getElem?_eq_none (by simpa using hp), if_pos (by omega)]
    rfl

/-- Both blocks have the same free size. -/
theorem freeSize_eq (h : Holds m records) (hb : Reads m b) : b.freeSize = Slots.freeSize m := by
  rw [h.freeSize_eq, DataBlock.freeSize, hb.free, hb.count_eq]
  omega

/-- The block to which a record is added and the bytes into which it is copied refuse the same
records, and hand out the same positions. -/
theorem insert (h : Holds m records) (hb : Reads m b) (data : SizedData) :
    match Slots.insert m data with
    | (none, m') => b.insert data.val data.val.length = none ∧ m' = m
    | (some p, m') => ∃ b', b.insert data.val data.val.length = some (b', p) ∧ Reads m' b' := by
  have hsize := hb.freeSize_eq h
  by_cases hle : (data.val.length : Int) ≤ Slots.freeSize m
  · obtain ⟨m', heq, h', _⟩ := h.insert_spec hle
    have hstored := (h.insert_eq hle).2
    have hfree' : (((b.free : Int) - (data.val.length + 2)) % 2 ^ 16).toNat = Slots.free m' := by
      have hroom := (h.insert_eq hle).1
      rw [hb.free, h.free, h'.free, used_append, used_singleton]
      simp only [directoryAddr, BLOCK_SIZE] at hroom ⊢
      omega
    rw [heq]
    unfold DataBlock.insert
    rw [if_neg (by rw [hsize]; omega)]
    refine ⟨_, by rw [hb.count_eq, h.count], hfree', ?_, ?_⟩
    · rw [hfree', h'.count, hb.directory, h.count, List.length_append, List.length_singleton,
        List.range_succ, List.map_append, List.map_singleton]
      have hlen : (records ++ [data.val]).length = records.length + 1 := by simp
      change List.map (Slots.directory m) _ ++ [Slots.free m'] = _ ++ [_]
      congr 1
      · apply List.map_congr_left
        intro p hp
        have hlt := List.mem_range.mp hp
        rw [h.directory p hlt, h'.directory p (by omega), Holds.addr_append hlt]
      · rw [h'.directory _ (by omega), Holds.addr_last, h'.free, used_append, used_singleton]
    · intro a ha
      have hm' : m' = Holds.stored m records.length (Slots.free m') data.val := by
        rw [heq, Prod.mk.injEq] at hstored
        rw [h'.free, used_append, used_singleton]
        exact hstored.2
      rw [h'.count, List.length_append, List.length_singleton] at ha
      unfold directoryAddr at ha
      have hbytes : b.bytes a = (m.setWord 2 freeAddr (Slots.free m')) a := by
        unfold Memory.setWord
        rw [Memory.write_of_outside (.inr (by simp only [length_leBytes, freeAddr]; omega))]
        refine hb.bytes a ?_
        rw [h.count]
        unfold directoryAddr
        omega
      change DataBlock.copyTo b.bytes _ (List.take data.val.length data.val) a = _
      rw [hm', hfree', List.take_length]
      unfold Holds.stored
      rw [Memory.setWord, Memory.write_of_outside
          (.inr (by simp only [length_leBytes, countAddr]; omega)),
        Memory.setWord, Memory.write_of_outside
          (.inr (by simp only [length_leBytes, directoryAddr]; omega))]
      unfold DataBlock.copyTo Memory.write
      rw [hbytes]
  · rw [Holds.insert_refused hle]
    refine ⟨?_, rfl⟩
    unfold DataBlock.insert
    rw [if_pos (by rw [hsize]; omega)]

end Reads

end Slots

end ExampleEngine.Storage
