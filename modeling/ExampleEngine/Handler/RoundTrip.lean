import ExampleEngine.Handler.IndexOnly
import Mathlib.Data.List.GetD

/-!
# Round trips of packed rows

Library `Handler`. Where `unpack_row` of `src/ha_example.cc:368–379` puts a row that
`pack_row` packed from `table->record[0]`. Unpacking takes the NULLs from that buffer and
finds the columns in it, so another buffer receives the null bytes only. What unpacking a
column writes is its `part` of a record; the `value` of the column depends on nothing else.
-/

namespace ExampleEngine.Handler

open ExampleEngine.Base

variable {P V : Type}

/-- What the server promises of all columns of a table: unpacking one restores the value that
was packed and writes to nothing but its part, where no other column and no null byte is. -/
structure TableShare.RowFormat (share : TableShare) (part : Field → Record → P)
    (value : Field → P → V) : Prop extends share.RecordFormat where
  restored : ∀ f ∈ share.field, ∀ r q src, Begins src (f.pack r f.offset) →
    value f (part f (f.unpack q f.offset src).1) = value f (part f r)
  apart : share.field.Pairwise fun f g ↦ ∀ q src,
    part f (g.unpack q g.offset src).1 = part f q ∧ part g (f.unpack q f.offset src).1 = part g q
  own : ∀ f ∈ share.field, ∀ q src,
    part f (f.unpack q f.offset src).1 = part f q → (f.unpack q f.offset src).1 = q
  nulls : ∀ f ∈ share.field, ∀ q bytes, (∀ n ≥ share.nullBytes, bytes n = q.bytes n) →
    part f { q with bytes := bytes } = part f q

/-- Unpacking to the buffer `dst` gives it the null bytes of a row and its columns that are not
NULL, and leaves the other buffers alone. -/
structure TableShare.RoundTrips (share : TableShare) (value : Field → Record → V)
    (src : Nat → UInt8) (r : Record) (dst : Nat) (record : Nat → Record) : Prop where
  nullBytes : ∀ n < share.nullBytes, (share.unpackRow src dst record dst).bytes n = r.bytes n
  columns : ∀ f ∈ share.field, ¬ f.isNull r →
    value f (share.unpackRow src dst record dst) = value f r
  others : ∀ d ≠ dst, share.unpackRow src dst record d = record d

/-- Every column that is not NULL in a record holds there what unpacking reads for it. -/
def AlreadyHolds (src : Nat → UInt8) : List Field → Nat → Record → Prop
  | [], _, _ => True
  | f :: fs, pos, q =>
    if f.isNull q then AlreadyHolds src fs pos q
    else (f.unpack q f.offset fun i ↦ src (pos + i)).1 = q ∧
      AlreadyHolds src fs (pos + (f.unpack q f.offset fun i ↦ src (pos + i)).2) q

section Columns

variable {share : TableShare} {part : Field → Record → P} {value : Field → P → V}
  {fs : List Field} {f : Field} {src : Nat → UInt8} {r q : Record} {pos dst : Nat}
  {record : Nat → Record}

/-- Fields that do not write to a part leave it, wherever the columns are found. -/
theorem part_unpackFields
    (happ : ∀ g ∈ fs, ∀ q src, part f (g.unpack q g.offset src).1 = part f q) :
    part f (unpackFields src fs pos q) = part f q := by
  induction fs generalizing pos q with
  | nil => rfl
  | cons g fs ih =>
    have hrest : ∀ g' ∈ fs, ∀ q src, part f (g'.unpack q g'.offset src).1 = part f q :=
      fun g' hg' ↦ happ g' (List.mem_cons_of_mem _ hg')
    unfold unpackFields
    split
    · exact ih hrest
    · rw [ih hrest]
      exact happ g List.mem_cons_self _ _

/-- Unpacking leaves a record as it is just when its columns hold what they receive: a column
that changes is not written again. -/
theorem unpackFields_eq_self_iff
    (happ : fs.Pairwise fun f g ↦ ∀ q src,
      part f (g.unpack q g.offset src).1 = part f q ∧ part g (f.unpack q f.offset src).1 = part g q)
    (hown : ∀ f ∈ fs, ∀ q src,
      part f (f.unpack q f.offset src).1 = part f q → (f.unpack q f.offset src).1 = q) :
    unpackFields src fs pos q = q ↔ AlreadyHolds src fs pos q := by
  induction fs generalizing pos with
  | nil => exact iff_of_true rfl trivial
  | cons f fs ih =>
    obtain ⟨hhead, htail⟩ := List.pairwise_cons.mp happ
    have hrest : ∀ pos, unpackFields src fs pos q = q ↔ AlreadyHolds src fs pos q :=
      fun _ ↦ ih htail fun g hg ↦ hown g (List.mem_cons_of_mem _ hg)
    unfold unpackFields AlreadyHolds
    split
    · exact hrest pos
    · show unpackFields src fs (pos + _) _ = q ↔ _
      constructor
      · intro heq
        -- the fields after `f` leave its part, so `f` itself left it
        have hleft : ∀ pos q, part f (unpackFields src fs pos q) = part f q :=
          fun _ _ ↦ part_unpackFields fun g hg q src ↦ (hhead g hg q src).1
        have hkept := hleft (pos + (f.unpack q f.offset fun i ↦ src (pos + i)).2)
          (f.unpack q f.offset fun i ↦ src (pos + i)).1
        rw [heq] at hkept
        have hself := hown f List.mem_cons_self q _ hkept.symm
        rw [hself] at heq
        exact ⟨hself, (hrest _).mp heq⟩
      · rintro ⟨hself, hholds⟩
        rw [hself]
        exact (hrest _).mpr hholds

namespace TableShare.RowFormat

/-- The other fields of a table do not write to the part of one. -/
theorem others (hf : share.RowFormat part value) {A B : List Field}
    (hfield : share.field = A ++ f :: B) :
    ∀ g ∈ A ++ B, ∀ q src, part f (g.unpack q g.offset src).1 = part f q := by
  intro g hg q src
  have happ := hf.apart
  rw [hfield, List.pairwise_append, List.pairwise_cons] at happ
  obtain ⟨-, ⟨hB, -⟩, hA⟩ := happ
  rcases List.mem_append.mp hg with hg | hg
  · exact (hA g hg f List.mem_cons_self q src).2
  · exact (hB g hg q src).1

/-- `table->record[0]` receives the columns of the row. -/
theorem value_unpackFields (hf : share.RowFormat part value)
    (ha : Ahead share src r share.field pos q) (hmem : f ∈ share.field) (hnull : ¬ f.isNull r) :
    value f (part f (unpackFields src share.field pos q)) = value f (part f r) := by
  obtain ⟨A, B, hfield⟩ := List.append_of_mem hmem
  have hothers := hf.others hfield
  rw [hfield] at ha ⊢
  have hcolumn := ha.column (fun q ↦ value f (part f q)) (fun v ↦ v = value f (part f r))
    hf.toRecordFormat (fun q src hb _ ↦ hf.restored f hmem r q src hb)
    fun g hg q src ↦ congrArg (value f) (hothers g hg q src)
  rwa [if_neg hnull] at hcolumn

/-- The null bytes are no part of a column. -/
theorem part_nulled (hf : share.RowFormat part value) (hmem : f ∈ share.field) (q : Record) :
    part f (share.nulled src q) = part f q :=
  hf.nulls f hmem q _ fun _ hn ↦ if_neg (Nat.not_lt.mpr hn)

/-- A row unpacked to `table->record[0]` is the row packed. -/
theorem roundTrips_zero (hf : share.RowFormat part value) (hsrc : Begins src (share.packed r r)) :
    share.RoundTrips (fun f q ↦ value f (part f q)) src r 0 record := by
  have ha := TableShare.ahead hsrc (TableShare.bytes_nulled hsrc (record 0))
  constructor
  · rw [TableShare.unpackRow_zero]
    exact ha.nullBytes hf.toRecordFormat
  · intro f hmem hnull
    rw [TableShare.unpackRow_zero]
    exact hf.value_unpackFields ha hmem hnull
  · intro d hd
    unfold TableShare.unpackRow
    rw [Function.update_of_ne hd, Function.update_of_ne hd]

/-- Another buffer keeps its columns, and the row goes to `table->record[0]`. -/
theorem roundTrips_of_ne (hf : share.RowFormat part value) (hsrc : Begins src (share.packed r r))
    (hdst : dst ≠ 0) :
    share.RoundTrips (fun f q ↦ value f (part f q)) src r dst record ↔
      (∀ f ∈ share.field, ¬ f.isNull r → value f (part f (record dst)) = value f (part f r)) ∧
      AlreadyHolds src share.field share.nullBytes (record 0) := by
  have hzero : share.unpackRow src dst record 0 =
      unpackFields src share.field share.nullBytes (record 0) := by
    unfold TableShare.unpackRow
    rw [Function.update_self, Function.update_of_ne (Ne.symm hdst)]
  have hcolumns : ∀ f ∈ share.field,
      part f (share.unpackRow src dst record dst) = part f (record dst) := by
    intro f hmem
    rw [TableShare.unpackRow_of_ne hdst]
    exact hf.part_nulled hmem _
  rw [← unpackFields_eq_self_iff hf.apart hf.own]
  constructor
  · intro h
    refine ⟨fun f hmem hnull ↦ ?_, ?_⟩
    · rw [← hcolumns f hmem]
      exact h.columns f hmem hnull
    · rw [← hzero]
      exact h.others 0 (Ne.symm hdst)
  · rintro ⟨hheld, hkept⟩
    constructor
    · rw [TableShare.unpackRow_of_ne hdst]
      exact TableShare.bytes_nulled hsrc _
    · intro f hmem hnull
      show value f (part f _) = _
      rw [hcolumns f hmem]
      exact hheld f hmem hnull
    · intro d hd
      by_cases hd0 : d = 0
      · rw [hd0, hzero, hkept]
      · unfold TableShare.unpackRow
        rw [Function.update_of_ne hd0, Function.update_of_ne hd]

end TableShare.RowFormat

/-- A row packed from `table->record[0]` comes back in that buffer. It comes back in another one
just when that one holds the columns before, and `table->record[0]` what it receives. -/
theorem unpackRow_roundTrips_iff (hf : share.RowFormat part value)
    (hsrc : Begins src (share.packed r r)) :
    share.RoundTrips (fun f q ↦ value f (part f q)) src r dst record ↔
      dst = 0 ∨
      (∀ f ∈ share.field, ¬ f.isNull r → value f (part f (record dst)) = value f (part f r)) ∧
      AlreadyHolds src share.field share.nullBytes (record 0) := by
  by_cases hdst : dst = 0
  · subst hdst
    exact iff_of_true (hf.roundTrips_zero hsrc) (.inl rfl)
  · rw [hf.roundTrips_of_ne hsrc hdst, or_iff_right hdst]

end Columns

section Optional

/-- The byte at the offset of a column. -/
def Field.byte (f : Field) (r : Record) : UInt8 := r.bytes f.offset

theorem optional_rowFormat : optional.RowFormat Field.byte fun _ b ↦ b := by
  have hmem : ∀ f ∈ optional.field, f = digitField 1 ∨ f = { digitField 2 with nullBit := 1 } := by
    simp [optional]
  refine { optional_format with restored := ?_, apart := ?_, own := ?_, nulls := ?_ }
  · intro f hf r q src hsrc
    rcases hmem f hf with rfl | rfl
    · show Function.update q.bytes 1 (src 0) 1 = r.bytes 1
      rw [Function.update_self]
      exact hsrc 0 Nat.one_pos
    · show Function.update q.bytes 2 (src 0) 2 = r.bytes 2
      rw [Function.update_self]
      exact hsrc 0 Nat.one_pos
  · refine List.pairwise_pair.mpr fun q src ↦ ⟨?_, ?_⟩
    · exact Function.update_of_ne (show 1 ≠ 2 by decide) (src 0) q.bytes
    · exact Function.update_of_ne (show 2 ≠ 1 by decide) (src 0) q.bytes
  · intro f hf q src hkept
    have hsame : ∀ n, (⟨Function.update q.bytes n (src 0), q.blobs⟩ : Record).bytes n = q.bytes n →
        (⟨Function.update q.bytes n (src 0), q.blobs⟩ : Record) = q := by
      intro n hn
      have hn : src 0 = q.bytes n := (Function.update_self n _ _).symm.trans hn
      rw [hn, Function.update_eq_self]
    rcases hmem f hf with rfl | rfl
    · exact hsame 1 hkept
    · exact hsame 2 hkept
  · intro f hf q bytes hbytes
    rcases hmem f hf with rfl | rfl
    · exact hbytes 1 (by decide)
    · exact hbytes 2 (by decide)

/-- The buffers before a read: a row in `table->record[0]`, and no row in the other. -/
def heldBuffers (d : Nat) : Record := if d = 0 then digitRecord 0 6 7 else digitRecord 0 0 0

/-- The bytes of the row (5, 9). -/
def packedBytes (n : Nat) : UInt8 := [0, 5, 9].getD n 0

theorem packedBytes_begins :
    Begins packedBytes (optional.packed (digitRecord 0 5 9) (digitRecord 0 5 9)) := by
  have hpacked : optional.packed (digitRecord 0 5 9) (digitRecord 0 5 9) = [0, 5, 9] := by
    simp [TableShare.packed, optional, digitField, digitRecord, Field.isNull]
  intro k hk
  rw [hpacked, List.length_cons] at hk
  simp only [hpacked]
  exact List.getD_eq_getElem _ _ (by simpa using hk)

theorem heldBuffers_roundTrip :
    optional.RoundTrips (fun f q ↦ f.byte q) packedBytes (digitRecord 0 5 9) 0 heldBuffers :=
  (unpackRow_roundTrips_iff optional_rowFormat packedBytes_begins).mpr (.inl rfl)

/-- The row (5, 9) read to `table->record[1]` overwrites the row of `table->record[0]`. -/
theorem second_buffer_overwrites_first : ¬ ∀ (share : TableShare) (part : Field → Record → UInt8),
    share.RowFormat part (fun _ b ↦ b) → ∀ src r dst record, dst < 2 →
    Begins src (share.packed r r) → share.RoundTrips (fun f q ↦ part f q) src r dst record := by
  intro hall
  have htrip := hall optional Field.byte optional_rowFormat packedBytes (digitRecord 0 5 9) 1
    heldBuffers (by decide) packedBytes_begins
  have hcolumn := htrip.columns (digitField 1) (by simp [optional]) (by decide)
  exact absurd hcolumn (by decide)

end Optional

end ExampleEngine.Handler
