import ExampleEngine.Base.LittleEndian

/-!
# Byte-addressed memory

Library `Base`. Reading and writing ranges of bytes, and little-endian words in them. A write
is read back at its own place, and not seen at a place it does not reach.
-/

namespace ExampleEngine.Base

/-- Bytes by address. -/
abbrev Memory := Nat → UInt8

namespace Memory

/-- The `n` bytes from an address on. -/
def read (m : Memory) (addr n : Nat) : List UInt8 := (List.range n).map fun i ↦ m (addr + i)

/-- Copy bytes to an address. -/
def write (m : Memory) (addr : Nat) (data : List UInt8) : Memory := fun a ↦
  if addr ≤ a then (data[a - addr]?).getD (m a) else m a

/-- The word of `n` bytes at an address. -/
def word (m : Memory) (n addr : Nat) : Nat := leNat (m.read addr n)

/-- Store a word of `n` bytes at an address, cut to its width. -/
def setWord (m : Memory) (n addr x : Nat) : Memory := m.write addr (leBytes n x)

variable {m m' : Memory} {addr addr' n n' x : Nat} {data : List UInt8}

@[simp] theorem length_read (m : Memory) (addr n : Nat) : (m.read addr n).length = n := by
  simp [read]

@[simp] theorem getElem_read (m : Memory) (addr n i : Nat) (h : i < (m.read addr n).length) :
    (m.read addr n)[i] = m (addr + i) := by
  simp [read]

/-- Reads agree where the bytes do. -/
theorem read_congr (h : ∀ i < n, m (addr + i) = m' (addr + i)) :
    m.read addr n = m'.read addr n := by
  apply List.ext_getElem
  · simp
  · intro i hi _
    simp only [getElem_read]
    exact h i (by simpa using hi)

/-- A byte outside the range written to. -/
theorem write_of_outside {a : Nat} (h : a < addr ∨ addr + data.length ≤ a) :
    m.write addr data a = m a := by
  unfold write
  split
  · rw [List.getElem?_eq_none (by omega), Option.getD_none]
  · rfl

/-- A byte inside the range written to. -/
theorem write_of_inside {i : Nat} (h : i < data.length) :
    m.write addr data (addr + i) = data[i] := by
  unfold write
  have hsub : addr + i - addr = i := by omega
  rw [if_pos (Nat.le_add_right _ _), hsub, List.getElem?_eq_getElem h, Option.getD_some]

/-- A byte that was copied, whether or not the ranges overlap. -/
theorem write_read_of_inside {i src : Nat} (h : i < n) :
    m.write addr (m'.read src n) (addr + i) = m' (src + i) := by
  rw [write_of_inside (by simpa using h), getElem_read]

/-- What was written is read back. -/
@[simp] theorem read_write (m : Memory) (addr : Nat) (data : List UInt8) :
    (m.write addr data).read addr data.length = data := by
  apply List.ext_getElem
  · simp
  · intro i _ hi
    rw [getElem_read, write_of_inside hi]

/-- A write is not seen by a read of other bytes. -/
theorem read_write_of_disjoint (h : addr' + n ≤ addr ∨ addr + data.length ≤ addr') :
    (m.write addr data).read addr' n = m.read addr' n :=
  read_congr fun _ _ ↦ write_of_outside (by omega)

/-- A word stored is read back, cut to its width. -/
@[simp] theorem word_setWord (m : Memory) (n addr x : Nat) :
    (m.setWord n addr x).word n addr = x % 256 ^ n := by
  have h := read_write m addr (leBytes n x)
  rw [length_leBytes] at h
  rw [word, setWord, h, leNat_leBytes]

/-- Storing a word is not seen by a word of other bytes. -/
theorem word_setWord_of_disjoint (h : addr' + n ≤ addr ∨ addr + n' ≤ addr') :
    (m.setWord n' addr x).word n addr' = m.word n addr' := by
  unfold word setWord
  rw [read_write_of_disjoint (by simpa using h)]

/-- A write of bytes is not seen by a word of other bytes. -/
theorem word_write_of_disjoint (h : addr' + n ≤ addr ∨ addr + data.length ≤ addr') :
    (m.write addr data).word n addr' = m.word n addr' := by
  unfold word
  rw [read_write_of_disjoint h]

/-- Words agree where their bytes do. -/
theorem word_congr (h : ∀ i < n, m (addr + i) = m' (addr + i)) :
    m.word n addr = m'.word n addr := by
  rw [word, read_congr h, word]

/-- A word fits its width. -/
theorem word_lt (m : Memory) (n addr : Nat) : m.word n addr < 256 ^ n := by
  have h := leNat_lt (m.read addr n)
  rwa [length_read] at h

/-- Storing a word twice at one place keeps the second. -/
theorem setWord_setWord (m : Memory) (n addr x y : Nat) :
    (m.setWord n addr x).setWord n addr y = m.setWord n addr y := by
  funext a
  unfold setWord write
  split
  · by_cases ha : a - addr < n
    · have hx : a - addr < (leBytes n x).length := by simpa using ha
      have hy : a - addr < (leBytes n y).length := by simpa using ha
      rw [List.getElem?_eq_getElem hx, List.getElem?_eq_getElem hy, Option.getD_some,
        Option.getD_some]
    · have hx : (leBytes n x).length ≤ a - addr := by simpa using ha
      have hy : (leBytes n y).length ≤ a - addr := by simpa using ha
      rw [List.getElem?_eq_none hx, List.getElem?_eq_none hy, Option.getD_none]
  · rfl

end Memory

end ExampleEngine.Base
