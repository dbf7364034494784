import ExampleEngine.Base.LittleEndian
import ExampleEngine.Storage.Block
import Mathlib.Data.List.TakeWhile

/-!
# Rows of the demonstration table

Library `Matu`. Rows and their records, `src/lib/matu.h:18–80`. A record holds its own size in
16 bits, the sizes of its three strings, the id, the sex and the strings with a zero after each;
decoding takes the strings up to their first zero.
-/

namespace ExampleEngine.Matu

open ExampleEngine.Base ExampleEngine.Storage

/-- `RowData`; `src/lib/matu.h:18–24`. -/
structure RowData where
  id : Int
  sex : Bool
  name : List UInt8
  number : List UInt8
  email : List UInt8
  deriving DecidableEq, Repr

/-- `encode`: the bytes written to the record; `src/lib/matu.h:26–63`. -/
def encode (data : RowData) : List UInt8 :=
  let nameLen := data.name.length % 2 ^ 16
  let numLen := data.number.length % 2 ^ 16
  let emailLen := data.email.length % 2 ^ 16
  leBytes 2 (16 + nameLen + emailLen + numLen) ++ (leBytes 2 nameLen ++ (leBytes 2 numLen ++
    (leBytes 2 emailLen ++ (leBytes 4 (data.id % 2 ^ 32).toNat ++ ((if data.sex then 1 else 0) ::
      (data.name.take nameLen ++ 0 :: (data.number.take numLen ++ 0 ::
        (data.email.take emailLen ++ [0]))))))))

/-- The `n` bytes from an offset on. -/
def bytesAt (p : Nat → UInt8) (offset n : Nat) : List UInt8 :=
  (List.range n).map fun i ↦ p (offset + i)

/-- The string at an address: the bytes before the first zero. -/
def cString : Nat → (Nat → UInt8) → Except Fault (List UInt8)
  | 0, _ => throw .outOfFuel
  | fuel + 1, p => do
    if p 0 = 0 then return []
    else do
      let rest ← cString fuel fun i ↦ p (1 + i)
      return p 0 :: rest

/-- `decode`, where every string ends within a block; `src/lib/matu.h:65–80`. -/
def decode (record : Nat → UInt8) : Except Fault RowData := do
  let p (i : Nat) := record (2 + i)
  let nameLen := leNat (bytesAt p 0 2)
  let numLen := leNat (bytesAt p 2 2)
  let id := toInt32 (leNat (bytesAt p 6 4))
  let sex := p 10 != 0
  let name ← cString BLOCK_SIZE fun i ↦ p (11 + i)
  let number ← cString BLOCK_SIZE fun i ↦ p (12 + nameLen + i)
  let email ← cString BLOCK_SIZE fun i ↦ p (13 + numLen + nameLen + i)
  return ⟨id, sex, name, number, email⟩

/-- The size of the record of a row. -/
def RowData.size (data : RowData) : Nat :=
  16 + data.name.length + data.email.length + data.number.length

/-- A string up to its first zero. -/
def untilZero (s : List UInt8) : List UInt8 := s.takeWhile (· ≠ 0)

/-- What a record keeps of a row. -/
def RowData.kept (data : RowData) : RowData :=
  { data with
    name := untilZero data.name
    number := untilZero data.number
    email := untilZero data.email }

/-- The bytes `w` stand at an offset. -/
def StandsAt (p : Nat → UInt8) (offset : Nat) (w : List UInt8) : Prop :=
  ∀ i (hi : i < w.length), p (offset + i) = w[i]

/-- Cutting a string again changes nothing. -/
@[simp] theorem untilZero_untilZero (s : List UInt8) : untilZero (untilZero s) = untilZero s :=
  List.takeWhile_idem

/-- A record that keeps a row keeps it again. -/
@[simp] theorem RowData.kept_kept (data : RowData) : data.kept.kept = data.kept := by
  simp only [RowData.kept, untilZero_untilZero]

/-- Strings read from memory have no zeros. -/
theorem cString_ok {fuel : Nat} {p : Nat → UInt8} {s : List UInt8} (h : cString fuel p = .ok s) :
    untilZero s = s := by
  induction fuel generalizing p s with
  | zero => cases h
  | succ fuel ih =>
    unfold cString at h
    split at h
    · cases h
      rfl
    · next hne =>
      cases hrest : cString fuel fun i ↦ p (1 + i) with
      | error e =>
        rw [hrest] at h
        cases h
      | ok rest =>
        rw [hrest] at h
        cases h
        unfold untilZero
        rw [List.takeWhile_cons_of_pos (by simpa using hne)]
        exact congrArg _ (ih hrest)

/-- A decoded row is one that a record keeps whole. -/
theorem decode_ok {p : Nat → UInt8} {data : RowData} (h : decode p = .ok data) :
    data.kept = data := by
  unfold decode at h
  simp only [bind, Except.bind, pure, Except.pure] at h
  split at h
  · cases h
  next name hname =>
  split at h
  · cases h
  next number hnumber =>
  split at h
  · cases h
  next email hemail =>
  cases h
  simp only [RowData.kept, cString_ok hname, cString_ok hnumber, cString_ok hemail]

section Records

variable {p : Nat → UInt8} {offset : Nat} {v w : List UInt8} {b : UInt8}

/-- Bytes stand one part after the other. -/
theorem standsAt_append :
    StandsAt p offset (v ++ w) ↔ StandsAt p offset v ∧ StandsAt p (offset + v.length) w := by
  constructor
  · intro h
    constructor
    · intro i hi
      rw [h i (by rw [List.length_append]; omega), List.getElem_append_left hi]
    · intro i hi
      rw [Nat.add_assoc, h (v.length + i) (by rw [List.length_append]; omega),
        List.getElem_append_right (by omega)]
      simp only [Nat.add_sub_cancel_left]
  · rintro ⟨hv, hw⟩ i hi
    rw [List.length_append] at hi
    by_cases hlt : i < v.length
    · rw [List.getElem_append_left hlt]
      exact hv i hlt
    · rw [List.getElem_append_right (by omega), ← hw (i - v.length) (by omega)]
      congr 1
      omega

/-- A first byte stands at the offset itself. -/
theorem standsAt_cons :
    StandsAt p offset (b :: w) ↔ p offset = b ∧ StandsAt p (offset + 1) w := by
  rw [← List.singleton_append, standsAt_append]
  refine and_congr_left fun _ ↦ ⟨fun h ↦ h 0 (by simp), fun h i hi ↦ ?_⟩
  obtain rfl : i = 0 := by
    simp only [List.length_singleton] at hi
    omega
  exact h

/-- Bytes that stand there are read there. -/
theorem StandsAt.bytesAt (h : StandsAt p offset w) : bytesAt p offset w.length = w := by
  apply List.ext_getElem
  · simp only [Matu.bytesAt, List.length_map, List.length_range]
  · intro i hi hi'
    simp only [Matu.bytesAt, List.getElem_map, List.getElem_range]
    exact h i hi'

/-- A word that stands there is read there. -/
theorem StandsAt.leNat {n x : Nat} (h : StandsAt p offset (leBytes n x)) (hx : x < 256 ^ n) :
    Base.leNat (Matu.bytesAt p offset n) = x := by
  have hb := h.bytesAt
  rw [length_leBytes] at hb
  rw [hb, leNat_leBytes_of_lt hx]

/-- A string followed by a zero is read up to its first zero. -/
theorem StandsAt.cString {fuel : Nat} (h : StandsAt p 0 (w ++ [0])) (hfuel : w.length < fuel) :
    cString fuel p = .ok (untilZero w) := by
  induction w generalizing p fuel with
  | nil =>
    obtain ⟨fuel, rfl⟩ : ∃ f, fuel = f + 1 := ⟨fuel - 1, by simp at hfuel; omega⟩
    have h0 : p 0 = 0 := (standsAt_cons.mp h).1
    unfold Matu.cString
    rw [if_pos h0]
    rfl
  | cons b w ih =>
    obtain ⟨fuel, rfl⟩ : ∃ f, fuel = f + 1 := ⟨fuel - 1, by simp at hfuel; omega⟩
    obtain ⟨hb, hrest⟩ := standsAt_cons.mp h
    unfold Matu.cString untilZero
    by_cases h0 : b = 0
    · rw [if_pos (hb.trans h0), List.takeWhile_cons_of_neg (by simpa using h0)]
      rfl
    · have htail : StandsAt (fun i ↦ p (1 + i)) 0 (w ++ [0]) := by
        intro i hi
        have := hrest i hi
        rwa [Nat.zero_add] at this ⊢
      rw [if_neg (hb ▸ h0), ih htail (by simpa using hfuel),
        List.takeWhile_cons_of_pos (by simpa using h0), hb]
      rfl

/-- Reading relative to another address. -/
theorem StandsAt.relative {base : Nat} (h : StandsAt p (base + offset) w) :
    StandsAt (fun i ↦ p (base + i)) offset w := by
  intro i hi
  change p (base + (offset + i)) = w[i]
  rw [← Nat.add_assoc]
  exact h i hi

/-- A string is read from the offset where it stands. -/
theorem StandsAt.cString_offset {fuel : Nat} (h : StandsAt p offset w)
    (hzero : p (offset + w.length) = 0) (hfuel : w.length < fuel) :
    Matu.cString fuel (fun i ↦ p (offset + i)) = .ok (untilZero w) := by
  have hend : StandsAt p (offset + w.length) [0] := by
    apply standsAt_cons.mpr
    exact ⟨hzero, fun i hi ↦ absurd hi (Nat.not_lt_zero i)⟩
  have hwhole : StandsAt (fun i ↦ p (offset + i)) 0 (w ++ [0]) :=
    StandsAt.relative (standsAt_append.mpr ⟨h, hend⟩)
  exact hwhole.cString hfuel

end Records

namespace RowData

variable {data : RowData}

/-- The record of a row whose size fits its 16 bits. -/
theorem encode_of_fits (hfits : data.size < 2 ^ 16) :
    encode data = leBytes 2 data.size ++ (leBytes 2 data.name.length ++
      (leBytes 2 data.number.length ++ (leBytes 2 data.email.length ++
        (leBytes 4 (data.id % 2 ^ 32).toNat ++ ((if data.sex then 1 else 0) ::
          (data.name ++ 0 :: (data.number ++ 0 :: (data.email ++ [0])))))))) := by
  unfold size at hfits
  have hname : data.name.length % 2 ^ 16 = data.name.length := Nat.mod_eq_of_lt (by omega)
  have hnum : data.number.length % 2 ^ 16 = data.number.length := Nat.mod_eq_of_lt (by omega)
  have hemail : data.email.length % 2 ^ 16 = data.email.length := Nat.mod_eq_of_lt (by omega)
  unfold encode size
  simp only [hname, hnum, hemail, List.take_length]

/-- The record has the size that it starts with. -/
theorem length_encode (hfits : data.size < 2 ^ 16) : (encode data).length = data.size := by
  rw [encode_of_fits hfits]
  unfold size
  simp only [List.length_append, List.length_cons, length_leBytes, List.length_nil]
  omega

/-- The size at the start of the record. -/
theorem leNat_encode (hfits : data.size < 2 ^ 16) : leNat ((encode data).take 2) = data.size := by
  rw [encode_of_fits hfits, List.take_left' (length_leBytes 2 _), leNat_leBytes_of_lt hfits]

/-- An id in range is read back from its four bytes. -/
theorem toInt32_id (hlo : -2 ^ 31 ≤ data.id) (hhi : data.id < 2 ^ 31) :
    toInt32 (data.id % 2 ^ 32).toNat = data.id := by
  unfold toInt32
  split <;> omega

/-- Where the record of a row stands, decoding reads what it keeps of the row. -/
theorem decode_encode {p : Nat → UInt8} (hfits : data.size ≤ BLOCK_SIZE)
    (hlo : -2 ^ 31 ≤ data.id) (hhi : data.id < 2 ^ 31) (h : StandsAt p 0 (encode data)) :
    decode p = .ok data.kept := by
  simp only [BLOCK_SIZE] at hfits
  have hsize : data.size < 2 ^ 16 := by omega
  rw [encode_of_fits hsize] at h
  unfold size at hfits
  simp only [standsAt_append, standsAt_cons, length_leBytes, Nat.zero_add] at h
  obtain ⟨-, hnameLen, hnumLen, -, hid, hsex, hname, hzero, hnumber, hzero', hemail, hzero'', -⟩ :=
    h
  have h1 : leNat (bytesAt (fun i ↦ p (2 + i)) 0 2) = data.name.length :=
    (StandsAt.relative hnameLen).leNat (by omega)
  have h2 : leNat (bytesAt (fun i ↦ p (2 + i)) 2 2) = data.number.length :=
    (StandsAt.relative hnumLen).leNat (by omega)
  have h3 : leNat (bytesAt (fun i ↦ p (2 + i)) 6 4) = (data.id % 2 ^ 32).toNat :=
    (StandsAt.relative hid).leNat (by omega)
  have h4 : (p (2 + 10) != 0) = data.sex := by
    rw [hsex]
    cases data.sex <;> rfl
  have h5 : cString BLOCK_SIZE _ = .ok (untilZero data.name) :=
    hname.cString_offset hzero (by simp only [BLOCK_SIZE]; omega)
  have h6 : cString BLOCK_SIZE _ = .ok (untilZero data.number) :=
    hnumber.cString_offset hzero' (by simp only [BLOCK_SIZE]; omega)
  have h7 : cString BLOCK_SIZE _ = .ok (untilZero data.email) :=
    hemail.cString_offset hzero'' (by simp only [BLOCK_SIZE]; omega)
  have e5 : ∀ i, 2 + (11 + i) = 2 + 2 + 2 + 2 + 4 + 1 + i := by omega
  have e6 : ∀ i, 2 + (12 + data.name.length + i) =
      2 + 2 + 2 + 2 + 4 + 1 + data.name.length + 1 + i := by omega
  have e7 : ∀ i, 2 + (13 + data.number.length + data.name.length + i) =
      2 + 2 + 2 + 2 + 4 + 1 + data.name.length + 1 + data.number.length + 1 + i := by omega
  unfold decode
  simp only [h1, h2, h3, h4, e5, e6, e7, h5, h6, h7, toInt32_id hlo hhi]
  rfl

end RowData

end ExampleEngine.Matu
