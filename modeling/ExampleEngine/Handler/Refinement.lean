import ExampleEngine.Handler.Lifecycle

/-!
# What a table answers

Library `Handler`. Row operations on a list of rows: the codes that `write_row`, `delete_row` and
`update_row` of `src/ha_example.cc:588–708` give, and the rows that they leave. Over the whole
life of a table the handler gives these answers and no others.
-/

namespace ExampleEngine.Handler

open ExampleEngine.Base ExampleEngine.Storage ExampleEngine.Index

section Answers

variable (share : TableShare) (server : Server)

/-- A row is added unless another one has its primary key. -/
def inserted (rows : List Row) (row : Row) : Int × List Row :=
  if ∃ row' ∈ rows, row'.Has share row.record then (HA_ERR_FOUND_DUPP_KEY, rows)
  else (0, row :: rows)

/-- The row with the primary key of a record is taken away. -/
def deleted (rows : List Row) (r : Record) : Int × List Row :=
  if ∃ row ∈ rows, row.Has share r then (0, without share rows r)
  else (HA_ERR_KEY_NOT_FOUND, rows)

/-- `write_row` adds the row it packs, if it comes to that. -/
def written (rows : List Row) (s : HaExample) (buf : Nat) : Int × List Row :=
  match s.unprepared share server buf with
  | some code => (code, rows)
  | none => inserted share rows (s.newRow share server buf)

/-- `update_row` takes the old row away, and writes the new one if there was an old one. What
becomes of the new row does not bring the old one back. -/
def updated (rows : List Row) (s : HaExample) (old new : Nat) : Int × List Row :=
  let s := (HaExample.numbered server new s).2
  let left := deleted share rows (s.record old)
  if left.1 = 0 then written share server left.2 s new else left

/-- The code and the rows that a row operation answers with. -/
def Request.answer (rows : List Row) (s : HaExample) : Request → Option (Int × List Row)
  | .writeRow buf => some (written share server rows s buf)
  | .deleteRow buf => some (deleted share rows (s.record buf))
  | .updateRow old new => some (updated share server rows s old new)
  | _ => none

/-- Row operations are given the old rows as they were written, and rows that fit a data block. -/
def Request.Faithful (rows : List Row) (s : HaExample) : Request → Prop
  | .writeRow buf => (s.newRow share server buf).bytes.length ≤ maxValueSize
  | .deleteRow buf => OldImage share rows (s.record buf)
  | .updateRow old new =>
    let s := (HaExample.numbered server new s).2
    OldImage share rows (s.record old) ∧
      (s.newRow share server new).bytes.length ≤ maxValueSize
  | req => req.Admissible share s

end Answers

section Operations

variable {share : TableShare} {server : Server} {s s₁ s' : HaExample} {rows : List Row}
  {r : Record} {code : Int} {old new buf : Nat}

/-- Without a row to take away, all rows are left. -/
theorem without_eq (h : ¬ ∃ row ∈ rows, row.Has share r) : without share rows r = rows :=
  List.filter_eq_self.mpr fun row hrow ↦ decide_eq_true fun hhas ↦ h ⟨row, hrow, hhas⟩

/-- The rows that are left do not depend on the code. -/
theorem deleted_rows : (deleted share rows r).2 = without share rows r := by
  unfold deleted
  split
  · rfl
  · next h => exact (without_eq h).symm

/-- The entries of a row are those of its old image. -/
private theorem Consistent.entryLive (hc : Consistent share rows s) (ord : share.Ordered)
    (ho : Opened share s) (hold : OldImage share rows r) {row : Row} (hrow : row ∈ rows)
    (hhas : row.Has share r) : ∀ i ∈ HaExample.indexes share, EntryLive share s r i := by
  intro i hi
  obtain ⟨hi1, hik⟩ := mem_indexes.mp hi
  obtain ⟨_, hv⟩ := ho.exists_second (by omega)
  have hk : ∀ r, share.EntryKey (share.packKey i r) :=
    fun r ↦ (TableShare.packKey_entryKey r hi1 hik).1
  obtain ⟨e, he, hek⟩ := hc.entry row hrow i hi
  exact ⟨e, he, ord.second.equal_trans (hv.keys e he) (hk _) (hk r) hek (hold row hrow hhas i hi)⟩

/-- `delete_row` finds a row when there is one. -/
theorem DeleteOutcome.code_eq (h : DeleteOutcome share s r code s') (hc : Consistent share rows s)
    (ord : share.Ordered) (ho : Opened share s) (hold : OldImage share rows r) :
    code = (deleted share rows r).1 := by
  have hlive := hc.rowLive_iff (r := r) ord ho
  unfold deleted
  cases h with
  | missing s' hsame hsec hne =>
    rw [if_neg fun hex ↦ by
      obtain ⟨e, he, hek⟩ := hlive.mpr hex
      exact hne e he hek]
  | removed s' b hrem hloop =>
    obtain ⟨w, hj⟩ := hrem.joins
    obtain ⟨e, _, hek, hmem⟩ := hj.exists_mem
    obtain ⟨row, hrow, hhas⟩ := hlive.mp ⟨e, (hmem e).mpr (.inl rfl), hek⟩
    obtain rfl : b = true :=
      (deleteLoop_iff hloop).mpr (hc.entryLive ord ho hold hrow hhas)
    rw [if_pos rfl, if_pos ⟨row, hrow, hhas⟩]

/-- `write_row` adds a row when no other has its primary key. -/
theorem WriteOutcome.answer_eq {bytes : List UInt8} (h : WriteOutcome share s r bytes code s')
    (hc : Consistent share rows s) (ord : share.Ordered) (ho : Opened share s)
    (hlen : bytes.length ≤ maxValueSize) : inserted share rows ⟨r, bytes⟩ =
      (code, if code = 0 then ⟨r, bytes⟩ :: rows else rows) := by
  unfold inserted
  rcases (h.consistent hc ord ho hlen).2 with ⟨rfl, hex⟩ | ⟨rfl, hno⟩
  · rw [if_pos hex, if_neg (by decide)]
  · rw [if_neg fun ⟨row, hrow, hhas⟩ ↦ hno row hrow hhas, if_pos rfl]

/-- `write_row` gives the answer of the rows. -/
theorem Consistent.wp_writeRow (hc : Consistent share rows s) (ord : share.Ordered)
    (ho : Opened share s) (hlen : (s.newRow share server buf).bytes.length ≤ maxValueSize) :
    wp Beyond (HaExample.writeRow share server buf) (fun code _ ↦
      written share server rows s buf =
        (code, if code = 0 then s.newRow share server buf :: rows else rows)) s := by
  unfold written
  apply Handler.wp_writeRow ord ho
  · intro code s' hstop _ _
    rw [hstop, if_neg (unprepared_ne_zero hstop)]
  · intro code s' hgo _ _ hout
    have hprep : OnlyServer s (s.prepared share server buf) := onlyServer_prepared
    rw [hgo]
    exact hout.answer_eq (hc.onlyServer hprep) ord (hprep.opened ho) hlen

/-- `delete_row` gives the answer of the rows. -/
theorem Consistent.wp_deleteRow {E : Fault → Prop} (hc : Consistent share rows s)
    (ord : share.Ordered) (ho : Opened share s) (hold : OldImage share rows (s.record buf)) :
    wp E (HaExample.deleteRow share buf) (fun code _ ↦
      deleted share rows (s.record buf) = (code, without share rows (s.record buf))) s :=
  Handler.wp_deleteRow ord ho fun _ _ _ _ hout ↦
    Prod.ext (hout.code_eq hc ord ho hold).symm deleted_rows

/-- `update_row` gives the answer of the rows. -/
theorem Consistent.wp_updateRow (hc : Consistent share rows s) (ord : share.Ordered)
    (ho : Opened share s) (hs₁ : s₁ = (HaExample.numbered server new s).2)
    (hold : OldImage share rows (s₁.record old))
    (hlen : (s₁.newRow share server new).bytes.length ≤ maxValueSize) :
    wp Beyond (HaExample.updateRow share server old new) (fun code _ ↦
      updated share server rows s old new = (code, if code = 0 then
        s₁.newRow share server new :: without share rows (s₁.record old)
        else without share rows (s₁.record old))) s := by
  have hnum : OnlyServer s s₁ := hs₁ ▸ onlyServer_numbered
  have ho₁ := hnum.opened ho
  have hc₁ := hc.onlyServer hnum
  subst hs₁
  unfold updated
  refine Handler.wp_updateRow ord ho fun code s' _ hout ↦ ?_
  cases hout with
  | undeleted code s' hne hkeep hdel =>
    have hcode := hdel.code_eq hc₁ ord ho₁ hold
    rw [if_neg fun h0 ↦ hne (hcode.trans h0), if_neg hne]
    exact Prod.ext hcode.symm deleted_rows
  | stopped s₂ s' code hkeep hdel hstop honly =>
    have hcode := hdel.code_eq hc₁ ord ho₁ hold
    rw [(hkeep.prepared share server new).1] at hstop
    rw [if_pos hcode.symm, deleted_rows, if_neg (unprepared_ne_zero hstop)]
    unfold written
    rw [hstop]
  | rewritten s₂ s' code ho₂ hkeep hdel hgo hkeep' hwrite =>
    have hcode := hdel.code_eq hc₁ ord ho₁ hold
    have hprep : OnlyServer s₂ (s₂.prepared share server new) := onlyServer_prepared
    have hc₂ := (hdel.consistent hc₁ ord ho₁ hold).onlyServer hprep
    rw [(hkeep.prepared share server new).1] at hgo
    rw [if_pos hcode.symm, deleted_rows, ← hkeep.newRow_eq]
    rw [← hkeep.newRow_eq] at hlen
    unfold written
    rw [hgo, ← hkeep.newRow_eq]
    exact hwrite.answer_eq hc₂ ord (hprep.opened ho₂) hlen

end Operations

section Lives

variable {share : TableShare} {server : Server} {s : HaExample} {saved rows : List Row}
  {req : Request}

/-- Other requests have no answer of the rows, and need only be admissible. -/
private theorem Request.answer_eq_none (h : ¬ req.ChangesRows) :
    req.answer share server rows s = none ∧
      (req.Faithful share server rows s → req.Admissible share s) := by
  cases req with
  | writeRow buf => exact absurd trivial h
  | deleteRow buf => exact absurd trivial h
  | updateRow old new => exact absurd trivial h
  | _ => exact ⟨rfl, id⟩

/-- At any time in the life of a table, over any number of closings, openings and crashes, a row
operation gives the code and leaves the rows that the list of rows answers with, and any other
request leaves all rows, unless it takes block 2^18 of a file into use; none fails but for a file
past 2 GiB. -/
theorem lifetime_answers (ord : share.Ordered) (hs : Lifetime share server saved rows s)
    (hreq : req.Faithful share server rows s) :
    wp Beyond (req.perform share server) (fun code s' ↦ s.Spares s' →
      (req.answer share server rows s).elim (Lifetime share server saved rows s') fun a ↦
        code = a.1 ∧ Lifetime share server saved a.2 s') s := by
  have ho := hs.opened ord
  have hc := hs.consistent ord
  by_cases hrows : req.ChangesRows
  · cases req with
    | writeRow buf =>
      refine wp_mono (wp_run (hc.wp_writeRow ord ho hreq)) fun code s' h hspare ↦ ?_
      obtain ⟨hrun, hans⟩ := h
      simp only [Request.answer, Option.elim_some, hans]
      exact ⟨trivial, hs.step _ _ _ _ _ (.write rows s s' buf code hreq hrun) hspare⟩
    | deleteRow buf =>
      refine wp_mono (wp_run (hc.wp_deleteRow ord ho hreq)) fun code s' h hspare ↦ ?_
      obtain ⟨hrun, hans⟩ := h
      simp only [Request.answer, Option.elim_some, hans]
      exact ⟨trivial, hs.step _ _ _ _ _ (.delete rows s s' buf code hreq hrun) hspare⟩
    | updateRow old new =>
      obtain ⟨hold, hlen⟩ := hreq
      refine wp_mono (wp_run (hc.wp_updateRow ord ho rfl hold hlen)) fun code s' h hspare ↦ ?_
      obtain ⟨hrun, hans⟩ := h
      simp only [Request.answer, Option.elim_some, hans]
      exact ⟨trivial,
        hs.step _ _ _ _ _ (.update rows s _ s' old new code rfl hold hlen hrun) hspare⟩
    | _ => exact hrows.elim
  · obtain ⟨hnone, hadm⟩ := Request.answer_eq_none hrows
    refine wp_mono (wp_run (ho.wp_perform ord (hadm hreq))) fun code s' h hspare ↦ ?_
    rw [hnone]
    exact hs.step _ _ _ _ _ (.other rows s s' req code hrows (hadm hreq) h.1) hspare

end Lives

section Digits

/-- The row stored last is taken away. -/
theorem filledTable_answers : wp Beyond (HaExample.deleteRow digits 0) (fun code s' ↦
    filledTable.Spares s' → code = (deleted digits filledRows (filledTable.record 0)).1 ∧
      Lifetime digits lenient [] (deleted digits filledRows (filledTable.record 0)).2 s')
    filledTable := by
  have hold : (Request.deleteRow 0).Faithful digits lenient filledRows filledTable := by
    change ∀ row ∈ filledRows, row.Has digits (filledTable.record 0) →
      ∀ i ∈ HaExample.indexes digits, digits.secondKeyCompare (digits.packKey i row.record)
        (digits.packKey i (filledTable.record 0)) = 0
    decide +kernel
  exact lifetime_answers digits_ordered filledTable_lifetime hold

end Digits

end ExampleEngine.Handler
