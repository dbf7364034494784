import ExampleEngine.Base.LittleEndian
import ExampleEngine.Handler.IndexOnly
import Mathlib.Algebra.Order.BigOperators.Group.List
import Mathlib.Algebra.Order.Group.Nat

/-!
# Key images of the server

Library `Handler`. The server writes two length bytes before the value of a column of variable
length in a key, whatever their number in the record. `key_copy` of `src/ha_example.cc:290–319`
copies from the first length byte of the record on, and skips two bytes at the end.
-/

namespace ExampleEngine.Handler

open ExampleEngine.Base ExampleEngine.Index

namespace KeyPartInfo

/-- The first `n` length bytes of a column in a record, as a number. -/
def lengthAt (n : Nat) (p : KeyPartInfo) (record : Record) : Nat :=
  leNat ((List.range n).map fun i ↦ record.bytes (p.offset + i))

/-- The bytes of its value that a key holds, for a column with `n` length bytes. -/
def valueLength (n : Nat) (p : KeyPartInfo) (record : Record) : Nat :=
  min (p.lengthAt n record) p.length

/-- The image of a column after the null byte: bytes of a fixed number, or two length bytes and
the bytes of the value, padded. -/
def serverImage (n : Nat) (p : KeyPartInfo) (record : Record) : List UInt8 :=
  if p.varLengthPart then
    leBytes 2 (p.valueLength n record) ++
      (((List.range (p.valueLength n record)).map fun i ↦ record.bytes (p.offset + n + i)) ++
        List.replicate (p.length - p.valueLength n record) 0)
  else (List.range p.length).map fun i ↦ record.bytes (p.offset + i)

/-- The length bytes that fit the part give the length. Where a byte stands after the length
bytes, it is zero, or it is among the bytes of the value just when it is copied: with two length
bytes the copy ends two bytes early, with one the bytes move. -/
def Unshifted (n : Nat) (p : KeyPartInfo) (record : Record) : Prop :=
  p.lengthAt (min n p.length) record = p.valueLength n record ∧
  ∀ j < p.length, record.bytes (p.offset + n + j) = 0 ∨
    if n = 2 then j < p.valueLength n record ↔ j + 2 < p.length
    else p.length ≤ j + 1 ∧ p.valueLength n record ≤ j

instance (n : Nat) (p : KeyPartInfo) (record : Record) : Decidable (p.Unshifted n record) :=
  inferInstanceAs (Decidable (_ ∧ _))

end KeyPartInfo

/-- The key image that the server makes of a record, for columns with some numbers of length
bytes. -/
def serverKey (lengthBytes : KeyPartInfo → Nat) (ps : List KeyPartInfo) (record : Record) : Key :=
  ps.flatMap fun p ↦ p.nullByte record ++ p.serverImage (lengthBytes p) record

/-- What the server promises of `key_restore`: it inverts its own key images. -/
def Server.InvertsImages (server : Server) (share : TableShare) (lengthBytes : KeyPartInfo → Nat)
    (value : KeyPartInfo → Record → List UInt8) : Prop :=
  ∀ i < share.keys, ∀ p ∈ (share.keyInfo i).parts, ∀ b r rest,
    SameColumn value p (server.keyRestore b
        (serverKey lengthBytes (share.keyInfo i).parts r ++ rest)
      (share.keyInfo i) (share.keyInfo i).keyLength) r

/-- The key of a record in index `i` is stored in the format of the server: it is the server's
image, `key_restore` reads the columns back from it, and the server's image finds it. -/
structure TableShare.KeyFormat (share : TableShare) (server : Server)
    (lengthBytes : KeyPartInfo → Nat) (value : KeyPartInfo → Record → List UInt8) (i : Nat)
    (r : Record) : Prop where
  image : keyCopy r (share.keyInfo i).keyPart (share.keyInfo i).keyLength =
    serverKey lengthBytes (share.keyInfo i).parts r
  restored : ∀ p ∈ (share.keyInfo i).parts, ∀ b rest,
    SameColumn value p (server.keyRestore b (keyCopy r (share.keyInfo i).keyPart
      (share.keyInfo i).keyLength ++ rest) (share.keyInfo i) (share.keyInfo i).keyLength) r
  found : if i = 0 then
      share.primaryKeyCompare (share.packKey 0 r)
        (serverKey lengthBytes (share.keyInfo 0).parts r) = 0
    else share.secondKeyComparePrefix (share.packKey i r)
      (UInt8.ofNat i :: serverKey lengthBytes (share.keyInfo i).parts r) = 0

section Parts

variable {p : KeyPartInfo} {r : Record} {n : Nat}

private theorem map_range_append_zeros (f : Nat → UInt8) (m k : Nat) :
    (List.range m).map f ++ List.replicate k 0 =
      (List.range (m + k)).map fun j ↦ if j < m then f j else 0 := by
  rw [List.range_add, List.map_append, List.map_map]
  congr 1
  · refine List.map_congr_left fun j hj ↦ ?_
    rw [if_pos (List.mem_range.mp hj)]
  · refine (List.eq_replicate_iff.mpr ⟨by simp, fun b hb ↦ ?_⟩).symm
    obtain ⟨j, -, rfl⟩ := List.mem_map.mp hb
    exact if_neg (show ¬ m + j < m by omega)

/-- The byte of a column that is copied to a place of its image, and zero behind the column. -/
private def copied (p : KeyPartInfo) (r : Record) (k : Nat) : UInt8 :=
  if k < p.length then r.bytes (p.offset + k) else 0

/-- The image of a column of variable length is copied when its length bytes and the bytes of
its value are. -/
private theorem data_eq_serverImage (hvar : p.varLengthPart = true) :
    p.data r = p.serverImage n r ↔
      (copied p r 0 = UInt8.ofNat (p.valueLength n r) ∧
        copied p r 1 = UInt8.ofNat (p.valueLength n r / 256)) ∧
      ∀ j < p.length, copied p r (j + 2) =
        if j < p.valueLength n r then r.bytes (p.offset + n + j) else 0 := by
  have hpad : p.pad = 2 := by simp [KeyPartInfo.pad, hvar]
  have hle : p.valueLength n r + (p.length - p.valueLength n r) = p.length :=
    Nat.add_sub_of_le (Nat.min_le_right _ _)
  have hdata : p.data r = copied p r 0 :: copied p r 1 ::
      (List.range p.length).map fun j ↦ copied p r (j + 2) := by
    unfold KeyPartInfo.data
    rw [hpad, map_range_append_zeros, List.range_succ_eq_map, List.range_succ_eq_map]
    simp only [List.map_cons, List.map_map]
    rfl
  rw [hdata]
  unfold KeyPartInfo.serverImage
  rw [if_pos hvar, map_range_append_zeros, hle]
  simp only [leBytes, List.cons_append, List.nil_append, List.cons.injEq, List.map_inj_left,
    List.mem_range, and_assoc]

/-- A word of two bytes is the number that they give. -/
private theorem word_eq_iff {a b : UInt8} {L : Nat} (hL : L < 65536) :
    a = UInt8.ofNat L ∧ b = UInt8.ofNat (L / 256) ↔ a.toNat + 256 * b.toNat = L := by
  have ha := a.toNat_lt
  have hb := b.toNat_lt
  rw [← UInt8.toNat_inj, ← UInt8.toNat_inj, UInt8.toNat_ofNat', UInt8.toNat_ofNat']
  omega

private theorem lengthAt_one : p.lengthAt 1 r = (r.bytes p.offset).toNat := rfl

private theorem lengthAt_two :
    p.lengthAt 2 r = (r.bytes p.offset).toNat + 256 * (r.bytes (p.offset + 1)).toNat := rfl

/-- With one length byte the value moves by one place, so all of it is zero. -/
private theorem moved_iff {v : Nat → UInt8} {len L : Nat} :
    ((if 1 < len then v 0 else 0) = 0 ∧ ∀ j < len,
      (if j + 2 < len then v (j + 1) else 0) = if j < L then v j else 0) ↔
    ∀ j < len, v j = 0 ∨ len ≤ j + 1 ∧ L ≤ j := by
  constructor
  · rintro ⟨hfirst, hrest⟩
    have hinner : ∀ j, j + 1 < len → v j = 0 := by
      intro j
      induction j with
      | zero =>
        intro hlt
        rwa [if_pos hlt] at hfirst
      | succ j ih =>
        intro hlt
        have hj := hrest j (by omega)
        rw [if_pos hlt, ih (by omega), ite_self] at hj
        exact hj
    intro j hj
    by_cases hlt : j + 1 < len
    · exact .inl (hinner j hlt)
    · by_cases hL : j < L
      · have hj := hrest j hj
        rw [if_neg (by omega), if_pos hL] at hj
        exact .inl hj.symm
      · exact .inr ⟨by omega, by omega⟩
  · intro hall
    have hzero : ∀ j < len, ∀ P : Prop, [Decidable P] → (P → j + 1 < len ∨ j < L) →
        (if P then v j else 0) = 0 := by
      intro j hj P _ hP
      by_cases h : P
      · rw [if_pos h]
        rcases hall j hj with hv | ⟨h1, h2⟩
        · exact hv
        · have := hP h
          omega
      · exact if_neg h
    constructor
    · by_cases hlen : 0 < len
      · exact hzero 0 hlen _ fun h ↦ .inl h
      · exact if_neg (by omega)
    · intro j hj
      rw [hzero j hj (j < L) fun h ↦ .inr h]
      by_cases hlt : j + 1 < len
      · exact hzero (j + 1) hlt _ fun h ↦ .inl (by omega)
      · exact if_neg (by omega)

/-- A column of variable length is copied as the server writes it exactly when it is unshifted. -/
theorem KeyPartInfo.data_eq_serverImage_iff (hvar : p.varLengthPart = true)
    (hn : n = 1 ∨ n = 2) (hlen : p.length < 65536) :
    p.data r = p.serverImage n r ↔ p.Unshifted n r := by
  have hL : p.valueLength n r ≤ p.length := Nat.min_le_right _ _
  rw [data_eq_serverImage hvar, word_eq_iff (Nat.lt_of_le_of_lt hL hlen)]
  unfold Unshifted
  rcases hn with rfl | rfl
  · have hsmall : p.valueLength 1 r ≤ p.lengthAt 1 r := Nat.min_le_left _ _
    have hbyte := (r.bytes p.offset).toNat_lt
    rw [lengthAt_one] at hsmall
    have hfirst : (copied p r 0).toNat = p.lengthAt (min 1 p.length) r := by
      unfold copied
      by_cases h : 0 < p.length
      · rw [if_pos h, Nat.min_eq_left h, lengthAt_one, Nat.add_zero]
      · rw [if_neg h, Nat.eq_zero_of_not_pos h]
        rfl
    have hhead : (copied p r 0).toNat + 256 * (copied p r 1).toNat = p.valueLength 1 r ↔
        p.lengthAt (min 1 p.length) r = p.valueLength 1 r ∧ copied p r 1 = 0 := by
      rw [← hfirst, ← UInt8.toNat_inj (b := 0)]
      have hzero : (0 : UInt8).toNat = 0 := rfl
      omega
    have hmoved := @moved_iff (fun j ↦ r.bytes (p.offset + 1 + j)) p.length (p.valueLength 1 r)
    have hone : ¬ (1 : Nat) = 2 := by decide
    simp only [if_neg hone]
    rw [hhead, and_assoc, ← hmoved]
    unfold copied
    simp only [Nat.add_assoc, Nat.add_comm 1, Nat.add_zero]
  · have hhead : (copied p r 0).toNat + 256 * (copied p r 1).toNat =
        p.lengthAt (min 2 p.length) r := by
      unfold copied
      by_cases h : 1 < p.length
      · rw [if_pos (by omega), if_pos h, Nat.min_eq_left h, lengthAt_two, Nat.add_zero]
      · by_cases h0 : p.length = 0
        · rw [if_neg (by omega), if_neg h, h0]
          rfl
        · obtain h1 : p.length = 1 := by omega
          rw [if_pos (by omega), if_neg h, h1, Nat.add_zero]
          rfl
    rw [hhead]
    refine and_congr_right fun _ ↦ forall₂_congr fun j _ ↦ ?_
    rw [if_pos rfl]
    have hplace : p.offset + (j + 2) = p.offset + 2 + j := by omega
    unfold copied
    rw [hplace]
    by_cases ha : j + 2 < p.length
    · by_cases hb : j < p.valueLength 2 r
      · simp [ha, hb]
      · simp [ha, hb]
    · by_cases hb : j < p.valueLength 2 r
      · simp [ha, hb, eq_comm]
      · simp [ha, hb]

end Parts

section Keys

variable {ps : List KeyPartInfo} {k : KeyInfo} {r : Record} {lengthBytes : KeyPartInfo → Nat}

/-- A copied key is the images of its columns, each after its null byte. -/
theorem keyCopy_take (n : Nat) : keyCopy r ps (storeLength (ps.take n)) =
    (ps.take n).flatMap fun p ↦ p.nullByte r ++ p.data r := by
  induction ps generalizing n with
  | nil => simp [keyCopy]
  | cons p ps ih =>
    cases n with
    | zero => simp [keyCopy, storeLength]
    | succ n =>
      rw [List.take_succ_cons, storeLength_cons, keyCopy_cons, List.flatMap_cons, ih n,
        List.append_assoc]

theorem KeyInfo.keyCopy_eq (k : KeyInfo) :
    keyCopy r k.keyPart k.keyLength = k.parts.flatMap fun p ↦ p.nullByte r ++ p.data r := by
  rw [← k.storeLength_parts]
  exact keyCopy_take _

/-- Images of the same lengths are the same in a row just when they are one by one. -/
private theorem flatMap_eq_iff {α : Type} {l : List α} {f g : α → List UInt8}
    (hlen : ∀ a ∈ l, (f a).length = (g a).length) :
    l.flatMap f = l.flatMap g ↔ ∀ a ∈ l, f a = g a := by
  induction l with
  | nil => simp
  | cons a l ih =>
    rw [List.flatMap_cons, List.flatMap_cons, List.forall_mem_cons,
      ← ih fun b hb ↦ hlen b (List.mem_cons_of_mem _ hb)]
    constructor
    · exact fun h ↦ List.append_inj h (hlen a List.mem_cons_self)
    · rintro ⟨ha, hl⟩
      rw [ha, hl]

private theorem length_serverImage {p : KeyPartInfo} (hblob : p.blobPart = false) (n : Nat) :
    (p.serverImage n r).length = p.length + p.pad := by
  have hle : p.valueLength n r ≤ p.length := Nat.min_le_right _ _
  unfold KeyPartInfo.serverImage KeyPartInfo.pad
  by_cases hvar : p.varLengthPart = true
  · simp only [hvar, hblob, Bool.or_true, if_true, List.length_append, length_leBytes,
      List.length_map, List.length_range, List.length_replicate]
    omega
  · simp [hvar, hblob]

private theorem length_le_keyLength {p : KeyPartInfo} (hp : p ∈ k.parts) :
    p.length ≤ k.keyLength := by
  have hsum : p.storeLength ≤ (k.parts.map KeyPartInfo.storeLength).sum :=
    List.le_sum_of_mem (List.mem_map_of_mem hp)
  have hoff := p.storeLength_off
  have hk : (k.parts.map KeyPartInfo.storeLength).sum = k.keyLength := k.keyLength_eq.symm
  omega

/-- A key is copied as the server writes it exactly when its columns of variable length are
unshifted. -/
theorem KeyInfo.keyCopy_eq_serverKey_iff (k : KeyInfo)
    (hblob : ∀ p ∈ k.parts, p.blobPart = false)
    (hbytes : ∀ p ∈ k.parts, lengthBytes p = 1 ∨ lengthBytes p = 2) :
    keyCopy r k.keyPart k.keyLength = serverKey lengthBytes k.parts r ↔
      ∀ p ∈ k.parts, p.varLengthPart = true → p.Unshifted (lengthBytes p) r := by
  rw [k.keyCopy_eq]
  unfold serverKey
  rw [flatMap_eq_iff fun p hp ↦ by
    rw [List.length_append, List.length_append, p.length_data, length_serverImage (hblob p hp)]]
  refine forall₂_congr fun p hp ↦ ?_
  rw [List.append_cancel_left_eq]
  by_cases hvar : p.varLengthPart = true
  · have hlen : p.length < 65536 := by
      have h1 := length_le_keyLength hp
      have h2 := k.keyLength_le
      omega
    rw [KeyPartInfo.data_eq_serverImage_iff hvar (hbytes p hp) hlen]
    exact ⟨fun h _ ↦ h, fun h ↦ h hvar⟩
  · refine iff_of_true ?_ fun h ↦ absurd h hvar
    simp [KeyPartInfo.data, KeyPartInfo.serverImage, KeyPartInfo.pad, hvar, hblob p hp]

end Keys

section Format

variable {share : TableShare} {server : Server} {lengthBytes : KeyPartInfo → Nat}
  {value : KeyPartInfo → Record → List UInt8} {i : Nat} {r : Record}

/-- A stored key is found by its own columns. -/
theorem found_keyCopy (ord : share.Ordered) (hi : i < share.keys) :
    if i = 0 then share.primaryKeyCompare (share.packKey 0 r) (share.primaryKey r) = 0
    else share.secondKeyComparePrefix (share.packKey i r)
      (UInt8.ofNat i :: keyCopy r (share.keyInfo i).keyPart (share.keyInfo i).keyLength) = 0 := by
  by_cases h0 : i = 0
  · rw [if_pos h0, ← TableShare.primaryKeyCompare_packKey (a := share.packKey 0 r)]
    exact ord.primary.self TableShare.primaryKey_packKey
  · rw [if_neg h0, TableShare.packKey_pos (by omega)]
    have hself := (comparison_parts (ord i hi)).self
      (a := keyCopy r (share.keyInfo i).keyPart (share.keyInfo i).keyLength)
      (by rw [length_keyCopy, KeyInfo.storeLength_parts])
    have hnumber : ∀ i < 64, (UInt8.ofNat i &&& 0x7f).toNat = i := by decide
    have hnum := hnumber i (Nat.lt_of_lt_of_le hi share.keys_le)
    unfold TableShare.secondKeyComparePrefix
    simp only [List.headD_cons, hnum, ne_eq, not_true_eq_false, if_false, List.drop_one,
      List.tail_cons]
    rw [← hself]
    refine compareParts_congr ?_ rfl
    rw [KeyInfo.storeLength_parts, List.take_left' (length_keyCopy _),
      List.take_of_length_le (Nat.le_of_eq (length_keyCopy _))]

/-- Keys are stored in the format of the server exactly when the columns of variable length are
unshifted. -/
theorem keyFormat_iff (ord : share.Ordered) (hinv : server.InvertsImages share lengthBytes value)
    (hi : i < share.keys) (hblob : ∀ p ∈ (share.keyInfo i).parts, p.blobPart = false)
    (hbytes : ∀ p ∈ (share.keyInfo i).parts, lengthBytes p = 1 ∨ lengthBytes p = 2) :
    share.KeyFormat server lengthBytes value i r ↔
      ∀ p ∈ (share.keyInfo i).parts, p.varLengthPart = true → p.Unshifted (lengthBytes p) r := by
  rw [← (share.keyInfo i).keyCopy_eq_serverKey_iff hblob hbytes]
  constructor
  · exact fun h ↦ h.image
  · intro himage
    refine ⟨himage, fun p hp b rest ↦ ?_, ?_⟩
    · rw [himage]
      exact hinv i hi p hp b r rest
    · have hfound := found_keyCopy (r := r) ord hi
      by_cases h0 : i = 0
      · subst h0
        rw [if_pos rfl] at hfound ⊢
        rw [← himage]
        exact hfound
      · rw [if_neg h0] at hfound ⊢
        rwa [← himage]

end Format

section Varying

/-- A column of at most three bytes in a key, after one length byte in the record. -/
def varyingPart : KeyPartInfo where
  nullBit := 0
  nullOffset := 0
  offset := 1
  length := 3
  storeLength := 5
  blobPart := false
  varLengthPart := true
  keyCmp a b := (leNat a : Int) - leNat b
  storeLength_eq := rfl

/-- A table with a primary key of a column of one byte and one of variable length. -/
def varying : TableShare where
  keys := 1
  keyInfo _ := ⟨2, 6, [digitPart 0, varyingPart], by simp, rfl, by decide⟩
  field := []
  blobField := []
  nullBytes := 0
  reclength := 5
  keys_pos := by decide
  keys_le := by decide

theorem varying_ordered : varying.Ordered := by
  intro i _ p hp
  obtain rfl | rfl : p = digitPart 0 ∨ p = varyingPart := by
    simpa [varying, KeyInfo.parts] using hp
  · exact .sub _
  · exact .sub _

/-- The bytes of a record of this table that are read back from a key. -/
def readBytes (r : Record) (key : Key) (n : Nat) : UInt8 :=
  if n < 2 then key.getD n 0 else if n < 5 then key.getD (n + 1) 0 else r.bytes n

/-- A server that restores the columns of this table. -/
def reading : Server := { lenient with
  keyRestore := fun r key _ _ ↦ { r with bytes := readBytes r key } }

/-- The value of a column of this table: its byte, or as many bytes as its length byte says. -/
def varyingValue (p : KeyPartInfo) (r : Record) : List UInt8 :=
  if p.varLengthPart then
    (List.range (p.valueLength 1 r)).map fun k ↦ r.bytes (p.offset + 1 + k)
  else [r.bytes p.offset]

theorem reading_inverts : reading.InvertsImages varying (fun _ ↦ 1) varyingValue := by
  intro i _ p hp b r rest
  have hkey : serverKey (fun _ ↦ 1) (varying.keyInfo i).parts r =
      r.bytes 0 :: varyingPart.serverImage 1 r := by
    simp [varying, KeyInfo.parts, serverKey, KeyPartInfo.nullByte, digitPart, varyingPart,
      KeyPartInfo.serverImage]
  have hnull : ∀ q : Record, ¬ p.IsNull q := by
    obtain rfl | rfl : p = digitPart 0 ∨ p = varyingPart := by
      simpa [varying, KeyInfo.parts] using hp
    · exact fun q h ↦ h.1 rfl
    · exact fun q h ↦ h.1 rfl
  rw [hkey]
  refine ⟨iff_of_false (hnull _) (hnull r), fun _ ↦ ?_⟩
  obtain rfl | rfl : p = digitPart 0 ∨ p = varyingPart := by
    simpa [varying, KeyInfo.parts] using hp
  · rfl
  · have hvalue : ∀ q : Record, varyingValue varyingPart q =
        (List.range (min (q.bytes 1).toNat 3)).map fun k ↦ q.bytes (2 + k) := fun _ ↦ rfl
    obtain ⟨L, hL⟩ : ∃ L, min (r.bytes 1).toNat 3 = L := ⟨_, rfl⟩
    have hle : L ≤ 3 := hL ▸ Nat.min_le_right _ _
    have himage : varyingPart.serverImage 1 r = leBytes 2 L ++
        (((List.range L).map fun k ↦ r.bytes (2 + k)) ++ List.replicate (3 - L) 0) := by
      rw [← hL]
      rfl
    rw [hvalue, hvalue, himage, hL]
    obtain rfl | rfl | rfl | rfl : L = 0 ∨ L = 1 ∨ L = 2 ∨ L = 3 := by omega
    all_goals rfl

/-- A row with a column of variable length. -/
def varyingRecord (value : List UInt8) : Record :=
  ⟨fun n ↦ (7 :: UInt8.ofNat value.length :: value).getD n 0, fun _ ↦ []⟩

theorem varying_keyFormat_empty :
    varying.KeyFormat reading (fun _ ↦ 1) varyingValue 0 (varyingRecord []) :=
  (keyFormat_iff varying_ordered reading_inverts (by decide) (by decide) (by decide)).mpr
    (by decide)

/-- The server's image of (7, "a") is not the stored key, and does not find it. -/
theorem varying_key_differs : ¬ ∀ (share : TableShare) (server : Server)
    (lengthBytes : KeyPartInfo → Nat) (value : KeyPartInfo → Record → List UInt8), share.Ordered →
    server.InvertsImages share lengthBytes value → ∀ i < share.keys,
    (∀ p ∈ (share.keyInfo i).parts, p.blobPart = false) →
    (∀ p ∈ (share.keyInfo i).parts, lengthBytes p = 1 ∨ lengthBytes p = 2) →
    ∀ r, share.KeyFormat server lengthBytes value i r := by
  intro hall
  have hformat := hall varying reading (fun _ ↦ 1) varyingValue varying_ordered reading_inverts 0
    (by decide) (by decide) (by decide) (varyingRecord [97])
  exact absurd hformat.found (by decide)

end Varying

end ExampleEngine.Handler
