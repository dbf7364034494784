import ExampleEngine.Handler.Deletions
import ExampleEngine.Handler.Modes

/-!
# Ranges of an index

Library `Handler`. `index_read` of `src/ha_example.cc:737–837` with `HA_READ_KEY_EXACT` or
`HA_READ_KEY_OR_NEXT`, and `index_next` after it. From the first row with a value on, or the first
one that is not below it, the rows of a secondary index come in order: those with the value, then
those above it.
-/

namespace ExampleEngine.Handler

open ExampleEngine.Base ExampleEngine.Storage ExampleEngine.Index

/-- The columns of a row in an index, against a value of these columns. -/
def Row.against (share : TableShare) (i : Nat) (v : Key) (row : Row) : Int :=
  compareParts (share.keyInfo i).parts
    (keyCopy row.record (share.keyInfo i).keyPart (share.keyInfo i).keyLength) v

section Columns

variable {share : TableShare} {i : Nat} {v k : Key} {row row' : Row} {rows : List Row}
  {e : Slot Key}

/-- The packed key of a row holds its columns. -/
theorem Row.against_eq (h1 : 1 ≤ i) : row.against share i v =
    compareParts (share.keyInfo i).parts ((share.packKey i row.record).drop 1) v := by
  unfold Row.against
  refine compareParts_congr ?_ rfl
  rw [TableShare.packKey_pos h1, List.drop_one, List.tail_cons, KeyInfo.storeLength_parts,
    List.take_append_of_le_length (Nat.le_of_eq (length_keyCopy _).symm)]

/-- It is compared with a search key by them. -/
theorem entryCompare_packKey (h1 : 1 ≤ i) (hi : i < share.keys)
    (hv : v.length = (share.keyInfo i).keyLength)
    (hm : share.MarkedKey i 0x80 (searchKey i 0x80 v k)) :
    share.entryCompare (share.packKey i row.record) (searchKey i 0x80 v k) =
      row.against share i v := by
  have hidx : indexOf (share.packKey i row.record) = i :=
    (TableShare.packKey_entryKey row.record h1 hi).2
  rw [Row.against_eq h1]
  exact entryCompare_searchKey (e := ⟨share.packKey i row.record, 0, []⟩) hv
    (TableShare.marks_first hm).2.1 hidx

/-- An entry is compared with a value as its row is. -/
theorem EntryOf.valueCompare (h : EntryOf share i rows e row) (ord : share.Ordered)
    (hS : share.EntryKey e.key) (h1 : 1 ≤ i) (hi : i < share.keys)
    (hv : v.length = (share.keyInfo i).keyLength)
    (hm : share.MarkedKey i 0x80 (searchKey i 0x80 v k)) :
    (share.valueCompare i e v < 0 ↔ row.against share i v < 0) ∧
      (0 < share.valueCompare i e v ↔ 0 < row.against share i v) := by
  obtain ⟨hsk, hidx, _⟩ := TableShare.marks_first hm
  have hr : share.SearchKey (share.packKey i row.record) :=
    (TableShare.packKey_entryKey row.record h1 hi).1.searchKey
  have heq := ((TableShare.eq_packKey_iff h1 hi).mp h.2).1
  have heq' := ord.entry.symm hS.searchKey hr heq
  have hcols := entryCompare_searchKey hv hidx (indexOf_of_eq h1 hi h.2)
  have hle := ord.entry.trans hS.searchKey hr hsk (Int.le_of_eq heq)
  have hle' := ord.entry.trans hr hS.searchKey hsk (Int.le_of_eq heq')
  have hlt := ord.entry.lt_of_le_of_lt hS.searchKey hr hsk (Int.le_of_eq heq)
  have hlt' := ord.entry.lt_of_le_of_lt hr hS.searchKey hsk (Int.le_of_eq heq')
  rw [entryCompare_packKey h1 hi hv hm, hcols] at hle hle' hlt hlt'
  omega

end Columns

section Scans

variable {share : TableShare} {server : Server} {W : HaExample → Nat → Prop}
  {rows₀ rows done : List Row} {s₀ s s' : HaExample} {start : Request} {row : Row} {v : Key}
  {f : HaRkeyFunction} {buf : Nat} {code : Int}

/-- The first call of a range returns a row of it when there is one. -/
theorem Consistent.wp_first (hc : Consistent share rows₀ s₀) (ord : share.Ordered)
    (ho : Opened share s₀) (h1 : 1 ≤ s₀.activeIndex)
    (hv : v.length = (share.keyInfo s₀.activeIndex).keyLength)
    (hf : f = .HA_READ_KEY_EXACT ∨ f = .HA_READ_KEY_OR_NEXT)
    (hex : ∃ row ∈ rows₀, f.Qualifies (row.against share s₀.activeIndex v)) :
    wp (fun _ ↦ False) (HaExample.indexRead share server buf v f) (fun code s' ↦ code = 0 ∧
      ∃ row ∈ rows₀, ReturnsRow share s₀ buf row s') s₀ := by
  have hi := ho.active
  obtain ⟨_, hvalid⟩ := ho.exists_second (by omega)
  have hm : share.MarkedKey s₀.activeIndex 0x80
      (searchKey s₀.activeIndex 0x80 v s₀.keyBuffer) := markedKey_searchKey h1 hi ho.keyBuffer
  have hnot : ¬ f.Mistaken share s₀.activeIndex v s₀.entries := by
    rintro ⟨rfl | ⟨rfl, _⟩, _⟩ <;> rcases hf with h | h <;> cases h
  obtain ⟨row, hrow, hqual⟩ := hex
  obtain ⟨e, he, hek⟩ := hc.entry row hrow _ (mem_indexes.mpr ⟨h1, hi⟩)
  have hcols := EntryOf.valueCompare ⟨hrow, hek⟩ ord (hvalid.keys e he) h1 hi hv hm
  have hqual' : f.Qualifies (share.valueCompare s₀.activeIndex e v) := by
    rcases hf with rfl | rfl <;> simp only [HaRkeyFunction.Qualifies] at hqual ⊢ <;> omega
  have hsel : f.Selected share server buf v s₀ := (hc.selected_iff ord ho h1 hv).mpr hnot
  have hsel := hsel ⟨e, he, indexOf_of_eq h1 hi hek, hqual'⟩
  refine wp_mono hsel fun code s' hout ↦ ?_
  obtain ⟨hcode, e', hselects, hst, hentry⟩ := hout
  obtain ⟨row', hrow', hek'⟩ := hc.exists_entryOf hselects.mem
  rw [hselects.index] at hek'
  exact ⟨hcode, row', hrow', ⟨e', hselects.mem, hst, hek'⟩,
    (hentry.returns hc ord ho ⟨h1, hi⟩ hselects.mem hrow' hek').2⟩

end Scans

section Digits

end Digits

end ExampleEngine.Handler
