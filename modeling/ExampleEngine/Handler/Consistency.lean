import ExampleEngine.Handler.Atomicity
import ExampleEngine.Handler.Records
import ExampleEngine.Index.Bindings
import Mathlib.Data.List.Pairwise

/-!
# Rows and their entries

Library `Handler`. The two trees of a table as one set of rows: over any run of `write_row`,
`update_row` and `delete_row` of `src/ha_example.cc:588–708`, every live row has one live entry
in each secondary index, and every live entry is that of one live row.
-/

namespace ExampleEngine.Handler

open ExampleEngine.Base ExampleEngine.Storage ExampleEngine.Index

/-- A row as it was written: the record, and what was packed of it. -/
structure Row where
  record : Record
  bytes : List UInt8

/-- A record has the primary key of a row. -/
def Row.Has (share : TableShare) (row : Row) (r : Record) : Prop :=
  share.primaryKeyCompare (share.primaryKey row.record) (share.primaryKey r) = 0

instance (share : TableShare) (r : Record) : DecidablePred fun row : Row ↦ row.Has share r :=
  fun _ ↦ inferInstanceAs (Decidable (_ = _))

/-- The rows without the one that has the primary key of a record. -/
def without (share : TableShare) (rows : List Row) (r : Record) : List Row :=
  rows.filter fun row ↦ ¬ row.Has share r

/-- What `write_row` writes. -/
def HaExample.newRow (share : TableShare) (server : Server) (buf : Nat) (s : HaExample) : Row :=
  ⟨(s.prepared share server buf).record buf, (s.prepared share server buf).packedRow share buf⟩

/-- A record is that of the row with its primary key, as far as the comparator of entries can
tell: so it is when its key columns are those that were written, byte for byte. -/
def OldImage (share : TableShare) (rows : List Row) (r : Record) : Prop :=
  ∀ row ∈ rows, row.Has share r → ∀ i ∈ HaExample.indexes share,
    share.secondKeyCompare (share.packKey i row.record) (share.packKey i r) = 0

/-- Key columns that are those that were written make such a record. -/
theorem oldImage_of_eq {share : TableShare} (ord : share.Ordered) {rows : List Row} {r : Record}
    (h : ∀ row ∈ rows, row.Has share r → ∀ i ∈ HaExample.indexes share,
      share.packKey i r = share.packKey i row.record) : OldImage share rows r := by
  intro row hrow hhas i hi
  obtain ⟨hi1, hik⟩ := mem_indexes.mp hi
  rw [h row hrow hhas i hi]
  exact ord.second.self (TableShare.packKey_entryKey _ hi1 hik).1

/-- The rows that a run of row operations leaves in a table that was just created, and its
state. Rows are written under a condition on the state and the buffer that holds them, packed
rows fit a data block, and the records given to `delete_row` and `update_row` as old ones are
the rows as they were written. -/
inductive Stored (share : TableShare) (server : Server) (W : HaExample → Nat → Prop) :
    List Row → HaExample → Prop
  | opened (s₀ s : HaExample) (hc : Created share s₀)
      (h : (HaExample.openTable share).run s₀ = .ok (0, s)) : Stored share server W [] s
  | write (rows : List Row) (s s' : HaExample) (buf : Nat) (code : Int)
      (hs : Stored share server W rows s) (hw : W s buf)
      (hlen : (s.newRow share server buf).bytes.length ≤ maxValueSize)
      (h : (HaExample.writeRow share server buf).run s = .ok (code, s')) :
      Stored share server W (if code = 0 then s.newRow share server buf :: rows else rows) s'
  | delete (rows : List Row) (s s' : HaExample) (buf : Nat) (code : Int)
      (hs : Stored share server W rows s) (hold : OldImage share rows (s.record buf))
      (h : (HaExample.deleteRow share buf).run s = .ok (code, s')) :
      Stored share server W (without share rows (s.record buf)) s'
  | update (rows : List Row) (s s₁ s' : HaExample) (old new : Nat) (code : Int)
      (hs : Stored share server W rows s) (h₁ : s₁ = (HaExample.numbered server new s).2)
      (hw : W s₁ new) (hold : OldImage share rows (s₁.record old))
      (hlen : (s₁.newRow share server new).bytes.length ≤ maxValueSize)
      (h : (HaExample.updateRow share server old new).run s = .ok (code, s')) :
      Stored share server W (if code = 0 then
        s₁.newRow share server new :: without share rows (s₁.record old)
        else without share rows (s₁.record old)) s'
  | other (rows : List Row) (s s' : HaExample) (req : Request) (code : Int)
      (hs : Stored share server W rows s) (hreq : ¬ req.ChangesRows) (ha : req.Admissible share s)
      (h : (req.perform share server).run s = .ok (code, s')) : Stored share server W rows s'

/-- The live slots of the two trees are those of some rows. -/
structure Consistent (share : TableShare) (rows : List Row) (s : HaExample) : Prop where
  distinct : rows.Pairwise fun row row' ↦ ¬ row.Has share row'.record
  live : ∀ row ∈ rows, ∃ e ∈ s.pBtree.live,
    share.primaryKeyCompare e.key (share.primaryKey row.record) = 0 ∧
    ∃ p, valueOf share.primary s.pBtree.page e.value = some p ∧
      ∀ i (hi : i < row.bytes.length), p i = row.bytes[i]
  row : ∀ e ∈ s.pBtree.live, ∃ row ∈ rows,
    share.primaryKeyCompare e.key (share.primaryKey row.record) = 0
  entry : ∀ row ∈ rows, ∀ i ∈ HaExample.indexes share, EntryLive share s row.record i
  owner : ∀ e ∈ s.entries, ∃ row ∈ rows, ∃ i ∈ HaExample.indexes share,
    share.secondKeyCompare e.key (share.packKey i row.record) = 0

/-- `table->record[0]`, from which columns are packed, is as good as the record that is written:
so it is when that is the record. -/
def FirstRecord (share : TableShare) (server : Server) (s : HaExample) (buf : Nat) : Prop :=
  share.SameRow ((s.prepared share server buf).record 0) (s.newRow share server buf).record

section Keys

variable {share : TableShare} {server : Server} {rows : List Row} {row row' : Row}
  {r r' : Record} {s s' s₁ : HaExample} {a b : Key} {i j : Nat} {code : Int} {t t' : BTree Key}

theorem Row.Has.symm (ord : share.Ordered) (h : row.Has share row'.record) :
    row'.Has share row.record :=
  ord.primary.symm TableShare.primaryKey_primaryKey TableShare.primaryKey_primaryKey h

/-- A key equal to the packed keys of two records tells that they have one index and one
primary key. -/
theorem eq_of_packKeys (ord : share.Ordered) (ha : share.EntryKey a)
    (hi : i ∈ HaExample.indexes share) (hj : j ∈ HaExample.indexes share)
    (h : share.secondKeyCompare a (share.packKey i r) = 0)
    (h' : share.secondKeyCompare a (share.packKey j r') = 0) :
    i = j ∧ share.primaryKeyCompare (share.primaryKey r) (share.primaryKey r') = 0 := by
  obtain ⟨hi1, hi⟩ := mem_indexes.mp hi
  obtain ⟨hj1, hj⟩ := mem_indexes.mp hj
  have hr : share.PrimaryKey (share.primaryKey r) := TableShare.primaryKey_primaryKey
  have hr' : share.PrimaryKey (share.primaryKey r') := TableShare.primaryKey_primaryKey
  refine ⟨by rw [← indexOf_of_eq hi1 hi h, ← indexOf_of_eq hj1 hj h'], ?_⟩
  have hrow := ((TableShare.eq_packKey_iff hi1 hi).mp h).2
  have hrow' := ((TableShare.eq_packKey_iff hj1 hj).mp h').2
  exact ord.primary.equal_trans hr ha.rowOf hr' (ord.primary.symm ha.rowOf hr hrow) hrow'

/-- A row that is not there has no entry. -/
theorem Consistent.not_entryLive (hc : Consistent share rows s) (ord : share.Ordered)
    (ho : Opened share s) (hr : ∀ row ∈ rows, ¬ row.Has share r) :
    ∀ i ∈ HaExample.indexes share, ¬ EntryLive share s r i := by
  rintro i hi ⟨e, he, hek⟩
  obtain ⟨row, hrow, j, hj, hej⟩ := hc.owner e he
  obtain ⟨_, hv⟩ := ho.exists_second (by have := mem_indexes.mp hi; omega)
  exact hr row hrow (eq_of_packKeys ord (hv.keys e he) hj hi hej hek).2

/-- A primary key is live when it is that of a row. -/
theorem Consistent.rowLive_iff (hc : Consistent share rows s) (ord : share.Ordered)
    (ho : Opened share s) : RowLive share s r ↔ ∃ row ∈ rows, row.Has share r := by
  have hr : share.PrimaryKey (share.primaryKey r) := TableShare.primaryKey_primaryKey
  constructor
  · rintro ⟨e, he, hek⟩
    obtain ⟨row, hrow, hrk⟩ := hc.row e he
    have hk : share.PrimaryKey (share.primaryKey row.record) := TableShare.primaryKey_primaryKey
    have hS := ho.primary.keys e he
    exact ⟨row, hrow, ord.primary.equal_trans hk hS hr (ord.primary.symm hS hk hrk) hek⟩
  · rintro ⟨row, hrow, hhas⟩
    obtain ⟨e, he, hek, _⟩ := hc.live row hrow
    have hk : share.PrimaryKey (share.primaryKey row.record) := TableShare.primaryKey_primaryKey
    exact ⟨e, he, ord.primary.equal_trans (ho.primary.keys e he) hk hr hek hhas⟩

/-- The state of the trees is all that counts. -/
theorem Consistent.congr (hc : Consistent share rows s) (hp : BTree.Same s.pBtree s'.pBtree)
    (hs : BTree.Same s.secondTree s'.secondTree) : Consistent share rows s' := by
  have hentries : s'.entries = s.entries := hs.live
  constructor
  · exact hc.distinct
  · rw [hp.live, hp.page]
    exact hc.live
  · rw [hp.live]
    exact hc.row
  · unfold EntryLive
    rw [hentries]
    exact hc.entry
  · rw [hentries]
    exact hc.owner

/-- The entries after the loop of `write_row`. -/
theorem writeLoop_mem {idxs : List Nat} {b : Bool}
    (h : Loop (Adds share r) (Collides share r) idxs t b t') (hb : b = true) :
    (∀ a ∈ t.live, a ∈ t'.live) ∧
    (∀ a ∈ t'.live, a ∈ t.live ∨ ∃ i ∈ idxs, share.secondKeyCompare a.key (share.packKey i r) = 0) ∧
    ∀ i ∈ idxs, ∃ e ∈ t'.live, share.secondKeyCompare e.key (share.packKey i r) = 0 := by
  induction h with
  | done t => exact ⟨fun a ha ↦ ha, fun a ha ↦ .inl ha, fun i hi ↦ nomatch hi⟩
  | stop => cases hb
  | step i rest t t₁ t' b h _ ih =>
    obtain ⟨hold, hnew, hall⟩ := ih hb
    obtain ⟨w, hj⟩ := h.joins
    obtain ⟨e, _, hek, hmem⟩ := hj.exists_mem
    refine ⟨fun a ha ↦ hold a ((hmem a).mpr (.inr ha)), fun a ha ↦ ?_, fun j hj ↦ ?_⟩
    · rcases hnew a ha with ha | ⟨j, hj, haj⟩
      · rcases (hmem a).mp ha with rfl | ha
        · exact .inr ⟨i, by simp, hek⟩
        · exact .inl ha
      · exact .inr ⟨j, by simp [hj], haj⟩
    · rcases List.mem_cons.mp hj with rfl | hj
      · exact ⟨e, hold e ((hmem e).mpr (.inl rfl)), hek⟩
      · exact hall j hj

end Keys

section Operations

variable {share : TableShare} {server : Server} {rows : List Row} {r : Record} {bytes : List UInt8}
  {s s' s₁ : HaExample} {code : Int} {old new : Nat} {W : HaExample → Nat → Prop}

private theorem bytes_read {v : Nat → Page Key} {w : List UInt8}
    (hlen : bytes.length ≤ maxValueSize) (hw : ∃ n, Written share.primary v n bytes w) :
    ∃ p, valueOf share.primary v w = some p ∧ ∀ i (hi : i < bytes.length), p i = bytes[i] := by
  obtain ⟨n, hw⟩ := hw
  refine valueOf_written ?_ hw
  unfold Config.Takes
  rw [if_neg (by simp [TableShare.primary, Config.isConstValueSize])]
  exact hlen

/-- A row that is written joins the others, unless one of them has its primary key. -/
theorem WriteOutcome.consistent (h : WriteOutcome share s r bytes code s')
    (hc : Consistent share rows s) (ord : share.Ordered) (ho : Opened share s)
    (hlen : bytes.length ≤ maxValueSize) :
    Consistent share (if code = 0 then ⟨r, bytes⟩ :: rows else rows) s' ∧
      (code = HA_ERR_FOUND_DUPP_KEY ∧ (∃ row ∈ rows, row.Has share r) ∨
        code = 0 ∧ ∀ row ∈ rows, ¬ row.Has share r) := by
  have hlive := hc.rowLive_iff (r := r) ord ho
  cases h with
  | refused s' res hne hput hsec =>
    generalize ht : s'.pBtree = t at hput
    cases hput with
    | duplicate e he heq t hs =>
      have hsecond : BTree.Same s.secondTree s'.secondTree := by
        unfold HaExample.secondTree
        rw [hsec]
        exact .refl _
      exact ⟨hc.congr (ht ▸ hs) hsecond, .inl ⟨rfl, hlive.mp ⟨e, he, heq⟩⟩⟩
    | failed t _ _ hlong =>
      unfold maxValueSize at hlen
      omega
    | done => exact absurd rfl hne
  | written s' b hput hloop =>
    generalize ht : s'.pBtree = t at hput
    cases hput with
    | done t w hj hw hv hitems =>
      subst ht
      have hnone : ∀ row ∈ rows, ¬ row.Has share r := fun row hrow hhas ↦ by
        obtain ⟨e, he, hek⟩ := hlive.mpr ⟨row, hrow, hhas⟩
        exact hj.ne e he hek
      obtain rfl : b = true := (writeLoop_iff hloop).mpr (hc.not_entryLive ord ho hnone)
      obtain ⟨hold, hnew, hall⟩ := writeLoop_mem hloop rfl
      obtain ⟨e₀, hw₀, hek₀, hmem⟩ := hj.exists_mem
      refine ⟨?_, .inr ⟨rfl, hnone⟩⟩
      rw [if_pos rfl, if_pos rfl]
      constructor
      · rw [List.pairwise_cons]
        exact ⟨fun row hrow hhas ↦ hnone row hrow (hhas.symm ord), hc.distinct⟩
      · intro row hrow
        rcases List.mem_cons.mp hrow with rfl | hrow
        · exact ⟨e₀, (hmem e₀).mpr (.inl rfl), hek₀, hw₀ ▸ bytes_read hlen hw⟩
        · obtain ⟨e, he, hek, hval⟩ := hc.live row hrow
          refine ⟨e, (hmem e).mpr (.inr he), hek, ?_⟩
          rw [hv e he]
          exact hval
      · intro e he
        rcases (hmem e).mp he with rfl | he
        · exact ⟨⟨r, bytes⟩, List.mem_cons_self, hek₀⟩
        · obtain ⟨row, hrow, hek⟩ := hc.row e he
          exact ⟨row, by simp [hrow], hek⟩
      · intro row hrow i hi
        rcases List.mem_cons.mp hrow with rfl | hrow
        · exact hall i hi
        · obtain ⟨e, he, hek⟩ := hc.entry row hrow i hi
          exact ⟨e, hold e he, hek⟩
      · intro e he
        rcases hnew e he with he | ⟨i, hi, hek⟩
        · obtain ⟨row, hrow, i, hi, hek⟩ := hc.owner e he
          exact ⟨row, by simp [hrow], i, hi, hek⟩
        · exact ⟨⟨r, bytes⟩, List.mem_cons_self, i, hi, hek⟩

/-- A row that is deleted leaves the others. -/
theorem DeleteOutcome.consistent (h : DeleteOutcome share s r code s')
    (hc : Consistent share rows s) (ord : share.Ordered) (ho : Opened share s)
    (hold : OldImage share rows r) : Consistent share (without share rows r) s' := by
  have hlive := hc.rowLive_iff (r := r) ord ho
  have hwithout : ∀ row, row ∈ without share rows r ↔ row ∈ rows ∧ ¬ row.Has share r := by
    intro row
    unfold without
    simp
  have hequal : ∀ e ∈ s.entries, ∀ row ∈ rows, row.Has share r → ∀ i ∈ HaExample.indexes share,
      share.secondKeyCompare e.key (share.packKey i row.record) = 0 →
      share.secondKeyCompare e.key (share.packKey i r) = 0 := by
    intro e he row hrow hhas i hi hek
    obtain ⟨hi1, hik⟩ := mem_indexes.mp hi
    obtain ⟨_, hv⟩ := ho.exists_second (by omega)
    exact ord.second.equal_trans (hv.keys e he) (TableShare.packKey_entryKey _ hi1 hik).1
      (TableShare.packKey_entryKey _ hi1 hik).1 hek (hold row hrow hhas i hi)
  cases h with
  | missing s' hsame hsec hne =>
    have hsecond : BTree.Same s.secondTree s'.secondTree := by
      unfold HaExample.secondTree
      rw [hsec]
      exact .refl _
    have heq : without share rows r = rows := by
      refine List.filter_eq_self.mpr fun row hrow ↦ ?_
      simp only [decide_eq_true_eq]
      intro hhas
      obtain ⟨e, he, hek⟩ := hlive.mpr ⟨row, hrow, hhas⟩
      exact hne e he hek
    rw [heq]
    exact hc.congr hsame hsecond
  | removed s' b hrem hloop =>
    obtain ⟨w, hj⟩ := hrem.joins
    obtain ⟨e₀, _, hek₀, hmem₀⟩ := hj.exists_mem
    obtain ⟨row₀, hrow₀, hhas₀⟩ := hlive.mp ⟨e₀, (hmem₀ e₀).mpr (.inl rfl), hek₀⟩
    have hentries : ∀ i ∈ HaExample.indexes share, EntryLive share s r i := by
      intro i hi
      obtain ⟨e, he, hek⟩ := hc.entry row₀ hrow₀ i hi
      exact ⟨e, he, hequal e he row₀ hrow₀ hhas₀ i hi hek⟩
    obtain rfl : b = true := (deleteLoop_iff hloop).mpr hentries
    have hleft := deleteLoop_mem hloop rfl
    constructor
    · exact hc.distinct.filter _
    · intro row hrow
      obtain ⟨hrow, hne⟩ := (hwithout row).mp hrow
      obtain ⟨e, he, hek, hval⟩ := hc.live row hrow
      refine ⟨e, (hj.mem_iff e).mpr ⟨he, fun h0 ↦ hne ?_⟩, hek, ?_⟩
      · have hS := ho.primary.keys e he
        have hk : share.PrimaryKey (share.primaryKey row.record) :=
          TableShare.primaryKey_primaryKey
        exact ord.primary.equal_trans hk hS TableShare.primaryKey_primaryKey
          (ord.primary.symm hS hk hek) h0
      · rw [hrem.values]
        exact hval
    · intro e he
      obtain ⟨he, hne⟩ := (hj.mem_iff e).mp he
      obtain ⟨row, hrow, hek⟩ := hc.row e he
      have hk : share.PrimaryKey (share.primaryKey row.record) := TableShare.primaryKey_primaryKey
      exact ⟨row, (hwithout row).mpr ⟨hrow, fun hhas ↦ hne (ord.primary.equal_trans
        (ho.primary.keys e he) hk TableShare.primaryKey_primaryKey hek hhas)⟩, hek⟩
    · intro row hrow i hi
      obtain ⟨hrow, hne⟩ := (hwithout row).mp hrow
      obtain ⟨e, he, hek⟩ := hc.entry row hrow i hi
      obtain ⟨_, hv⟩ := ho.exists_second (by have := mem_indexes.mp hi; omega)
      exact ⟨e, (hleft e).mpr ⟨he, fun j hj' h0 ↦
        hne (eq_of_packKeys ord (hv.keys e he) hi hj' hek h0).2⟩, hek⟩
    · intro e he
      obtain ⟨he, hne⟩ := (hleft e).mp he
      obtain ⟨row, hrow, i, hi, hek⟩ := hc.owner e he
      exact ⟨row, (hwithout row).mpr ⟨hrow, fun hhas ↦ hne i hi
        (hequal e he row hrow hhas i hi hek)⟩, i, hi, hek⟩

/-- Packing and numbering leave the rows. -/
theorem Consistent.onlyServer (hc : Consistent share rows s) (h : OnlyServer s s') :
    Consistent share rows s' := by
  apply hc.congr
  · rw [h.pBtree]
    exact .refl _
  · rw [h.secondTree]
    exact .refl _

/-- What is written depends on no tree. -/
theorem OnlyTrees.newRow_eq (h : OnlyTrees s s') (buf : Nat) :
    s'.newRow share server buf = s.newRow share server buf := by
  have hprep := (h.prepared share server buf).2
  unfold OnlyTrees at hprep
  unfold HaExample.newRow HaExample.packedRow
  rw [hprep]

/-- A row that is rewritten takes the place of the old one, or is lost. -/
theorem UpdateOutcome.consistent (h : UpdateOutcome share server s old new code s')
    (hc : Consistent share rows s) (ord : share.Ordered) (ho : Opened share s)
    (hold : OldImage share rows (s.record old))
    (hlen : (s.newRow share server new).bytes.length ≤ maxValueSize) :
    Consistent share (if code = 0 then
      s.newRow share server new :: without share rows (s.record old)
      else without share rows (s.record old)) s' ∧
      (s.unprepared share server new = none → code ≠ HA_ERR_INTERNAL_ERROR) := by
  cases h with
  | undeleted code s' hne hkeep hdel =>
    rw [if_neg hne]
    refine ⟨hdel.consistent hc ord ho hold, fun _ ↦ ?_⟩
    cases hdel with
    | missing => decide
    | removed _ b => cases b <;> decide
  | stopped s₂ s' code hkeep hdel hstop honly =>
    rw [if_neg (unprepared_ne_zero hstop)]
    refine ⟨(hdel.consistent hc ord ho hold).onlyServer honly, fun hgo ↦ ?_⟩
    rw [(hkeep.prepared share server new).1, hgo] at hstop
    cases hstop
  | rewritten s₂ s' code ho₂ hkeep hdel hgo hkeep' hwrite =>
    have hprep : OnlyServer s₂ (s₂.prepared share server new) := onlyServer_prepared
    have hc₂ := (hdel.consistent hc ord ho hold).onlyServer hprep
    rw [← hkeep.newRow_eq] at hlen ⊢
    obtain ⟨hc', hcode⟩ := hwrite.consistent hc₂ ord (hprep.opened ho₂) hlen
    refine ⟨hc', fun _ ↦ ?_⟩
    rcases hcode with ⟨rfl, _⟩ | ⟨rfl, _⟩ <;> decide

/-- A request that keeps to the rows as they were written, with the rows before and after it. -/
inductive RowStep (share : TableShare) (server : Server) :
    List Row → HaExample → List Row → HaExample → Prop
  | write (rows : List Row) (s s' : HaExample) (buf : Nat) (code : Int)
      (hlen : (s.newRow share server buf).bytes.length ≤ maxValueSize)
      (h : (HaExample.writeRow share server buf).run s = .ok (code, s')) :
      RowStep share server rows s
        (if code = 0 then s.newRow share server buf :: rows else rows) s'
  | delete (rows : List Row) (s s' : HaExample) (buf : Nat) (code : Int)
      (hold : OldImage share rows (s.record buf))
      (h : (HaExample.deleteRow share buf).run s = .ok (code, s')) :
      RowStep share server rows s (without share rows (s.record buf)) s'
  | update (rows : List Row) (s s₁ s' : HaExample) (old new : Nat) (code : Int)
      (h₁ : s₁ = (HaExample.numbered server new s).2)
      (hold : OldImage share rows (s₁.record old))
      (hlen : (s₁.newRow share server new).bytes.length ≤ maxValueSize)
      (h : (HaExample.updateRow share server old new).run s = .ok (code, s')) :
      RowStep share server rows s (if code = 0 then
        s₁.newRow share server new :: without share rows (s₁.record old)
        else without share rows (s₁.record old)) s'
  | other (rows : List Row) (s s' : HaExample) (req : Request) (code : Int)
      (hreq : ¬ req.ChangesRows) (ha : req.Admissible share s)
      (h : (req.perform share server).run s = .ok (code, s')) :
      RowStep share server rows s rows s'

/-- A request keeps the trees to the rows. -/
theorem RowStep.sound {rows' : List Row} (ord : share.Ordered)
    (hstep : RowStep share server rows s rows' s') (ho : Opened share s)
    (hc : Consistent share rows s) : Opened share s' ∧ Consistent share rows' s' := by
  cases hstep with
  | write _ buf code hlen h =>
    have hprep : OnlyServer s (s.prepared share server buf) := onlyServer_prepared
    have hwrite : wp Beyond (HaExample.writeRow share server buf) (fun code s' ↦
        Opened share s' ∧ Consistent share
          (if code = 0 then s.newRow share server buf :: rows else rows) s') s := by
      apply wp_writeRow ord ho
      · intro code s' hstop ho' honly
        rw [if_neg (unprepared_ne_zero hstop)]
        exact ⟨ho', hc.onlyServer honly⟩
      · intro code s' _ ho' _ hout
        exact ⟨ho', (hout.consistent (hc.onlyServer hprep) ord (hprep.opened ho) hlen).1⟩
    have := wp_ok hwrite h
    exact this
  | delete _ buf code hold h =>
    have hdelete : wp Beyond (HaExample.deleteRow share buf) (fun _ s' ↦
        Opened share s' ∧ Consistent share (without share rows (s.record buf)) s') s :=
      wp_deleteRow ord ho fun _ _ ho' _ hout ↦ ⟨ho', hout.consistent hc ord ho hold⟩
    have := wp_ok hdelete h
    exact this
  | update s₁ _ old new code h₁ hold hlen h =>
    subst h₁
    have hnum : OnlyServer s (HaExample.numbered server new s).2 := onlyServer_numbered
    have hupdate : wp Beyond (HaExample.updateRow share server old new) (fun code s' ↦
        Opened share s' ∧ Consistent share (if code = 0 then
          (HaExample.numbered server new s).2.newRow share server new ::
            without share rows ((HaExample.numbered server new s).2.record old)
          else without share rows ((HaExample.numbered server new s).2.record old)) s') s :=
      wp_updateRow ord ho fun _ _ ho' hout ↦
        ⟨ho', (hout.consistent (hc.onlyServer hnum) ord (hnum.opened ho) hold hlen).1⟩
    have := wp_ok hupdate h
    exact this
  | other _ req code hreq ha h =>
    obtain ⟨ho', hlooks, _⟩ := wp_ok (ho.wp_perform ord ha) h
    exact ⟨ho', hc.congr (hlooks hreq).primary (hlooks hreq).second⟩

/-- A table just opened keeps no rows. -/
theorem Created.consistent (hc : Created share s)
    (h : (HaExample.openTable share).run s = .ok (0, s')) :
    Opened share s' ∧ Consistent share [] s' := by
  obtain ⟨_, ho, hlive, hentries, _⟩ := wp_ok (hc.wp_openTable (E := Beyond)) h
  refine ⟨ho, ⟨.nil, by simp, fun e he ↦ ?_, by simp, fun e he ↦ ?_⟩⟩
  · rw [hlive] at he
    cases he
  · rw [hentries] at he
    cases he

/-- Every state of a table that requests lead to, with its rows, is in order. -/
theorem Stored.sound (ord : share.Ordered) (hs : Stored share server W rows s) :
    Opened share s ∧ Consistent share rows s := by
  induction hs with
  | opened s₀ s hc h => exact hc.consistent h
  | write rows s s' buf code _ _ hlen h ih =>
    exact (RowStep.write rows s s' buf code hlen h).sound ord ih.1 ih.2
  | delete rows s s' buf code _ hold h ih =>
    exact (RowStep.delete rows s s' buf code hold h : RowStep share server ..).sound ord ih.1 ih.2
  | update rows s s₁ s' old new code _ h₁ _ hold hlen h ih =>
    exact (RowStep.update rows s s₁ s' old new code h₁ hold hlen h).sound ord ih.1 ih.2
  | other rows s s' req code _ hreq ha h ih =>
    exact (RowStep.other rows s s' req code hreq ha h).sound ord ih.1 ih.2

/-- A weaker condition on writes. -/
theorem Stored.mono {W' : HaExample → Nat → Prop} (hs : Stored share server W rows s)
    (hW : ∀ s buf, W s buf → W' s buf) : Stored share server W' rows s := by
  induction hs with
  | opened s₀ s hc h => exact .opened s₀ s hc h
  | write rows s s' buf code _ hw hlen h ih =>
    exact .write rows s s' buf code ih (hW s buf hw) hlen h
  | delete rows s s' buf code _ hold h ih => exact .delete rows s s' buf code ih hold h
  | update rows s s₁ s' old new code _ h₁ hw hold hlen h ih =>
    exact .update rows s s₁ s' old new code ih h₁ (hW s₁ new hw) hold hlen h
  | other rows s s' req code _ hreq ha h ih => exact .other rows s s' req code ih hreq ha h

/-- Rows were packed from their own records when all of them were written so. -/
theorem Stored.packed (hs : Stored share server W rows s)
    (hW : ∀ s buf, W s buf → FirstRecord share server s buf) :
    ∀ row ∈ rows, row.bytes = share.packed row.record row.record := by
  have hsub : ∀ {rows : List Row} {r : Record}, ∀ row ∈ without share rows r, row ∈ rows :=
    fun row hrow ↦ (List.mem_filter.mp hrow).1
  induction hs with
  | opened => exact fun row hrow ↦ nomatch hrow
  | write rows s s' buf code _ hw _ _ ih =>
    split
    · rw [List.forall_mem_cons]
      exact ⟨TableShare.packed_of_sameRow (hW s buf hw), ih⟩
    · exact ih
  | delete rows s s' buf code _ _ _ ih => exact fun row hrow ↦ ih row (hsub row hrow)
  | update rows s s₁ s' old new code _ _ hw _ _ _ ih =>
    split
    · rw [List.forall_mem_cons]
      exact ⟨TableShare.packed_of_sameRow (hW s₁ new hw), fun row hrow ↦ ih row (hsub row hrow)⟩
    · exact fun row hrow ↦ ih row (hsub row hrow)
  | other rows s s' req code _ _ _ _ ih => exact ih

/-- What the steps of a run keep of the rows and the state. -/
structure Kept (share : TableShare) (server : Server) (W : HaExample → Nat → Prop)
    (P : List Row → HaExample → Prop) : Prop where
  opened : ∀ s, Opened share s → s.entries = [] → s.secondTree.slots = [] → P [] s
  looks : ∀ rows s s', P rows s → Looks s s' → P rows s'
  write : ∀ rows s s' buf code, Opened share s → Consistent share rows s → P rows s → W s buf →
    (s.newRow share server buf).bytes.length ≤ maxValueSize →
    WriteOutcome share (s.prepared share server buf) (s.newRow share server buf).record
      (s.newRow share server buf).bytes code s' →
    P (if code = 0 then s.newRow share server buf :: rows else rows) s'
  delete : ∀ rows s s' r code, Opened share s → Consistent share rows s → P rows s →
    OldImage share rows r → DeleteOutcome share s r code s' → P (without share rows r) s'
  /-- The condition on writes is not lost when a row is deleted first. -/
  condition : ∀ s s' r buf, W s buf → OnlyTrees s s' → DeleteOutcome share s r 0 s' → W s' buf

/-- What every step keeps holds after any run. -/
theorem Stored.kept {P : List Row → HaExample → Prop} (ord : share.Ordered)
    (hs : Stored share server W rows s) (hP : Kept share server W P) : P rows s := by
  induction hs with
  | opened s₀ s hc h =>
    obtain ⟨_, ho, _, hentries, _, hslots⟩ := wp_ok (hc.wp_openTable (E := Beyond)) h
    exact hP.opened s ho hentries hslots
  | write rows s s' buf code hs hw hlen h ih =>
    obtain ⟨ho, hc⟩ := hs.sound ord
    have hwrite : wp Beyond (HaExample.writeRow share server buf) (fun code s' ↦
        P (if code = 0 then s.newRow share server buf :: rows else rows) s') s := by
      apply wp_writeRow ord ho
      · intro code s' hstop ho' honly
        rw [if_neg (unprepared_ne_zero hstop)]
        exact hP.looks rows s s' ih honly.looks
      · intro code s' _ _ _ hout
        exact hP.write rows s s' buf code ho hc ih hw hlen hout
    have := wp_ok hwrite h
    exact this
  | delete rows s s' buf code hs hold h ih =>
    obtain ⟨ho, hc⟩ := hs.sound ord
    have hdelete : wp Beyond (HaExample.deleteRow share buf) (fun _ s' ↦
        P (without share rows (s.record buf)) s') s :=
      wp_deleteRow ord ho fun code s' _ _ hout ↦ hP.delete rows s s' _ code ho hc ih hold hout
    have := wp_ok hdelete h
    exact this
  | update rows s s₁ s' old new code hs h₁ hw hold hlen h ih =>
    obtain ⟨ho, hc⟩ := hs.sound ord
    subst h₁
    have hnum : OnlyServer s (HaExample.numbered server new s).2 := onlyServer_numbered
    have ho₁ := hnum.opened ho
    have hc₁ := hc.onlyServer hnum
    have hP₁ := hP.looks rows s _ ih hnum.looks
    have hupdate : wp Beyond (HaExample.updateRow share server old new) (fun code s' ↦
        P (if code = 0 then
          (HaExample.numbered server new s).2.newRow share server new ::
            without share rows ((HaExample.numbered server new s).2.record old)
          else without share rows ((HaExample.numbered server new s).2.record old)) s') s := by
      apply wp_updateRow ord ho
      intro code s' _ hout
      cases hout with
      | undeleted code s' hne hkeep hdel =>
        rw [if_neg hne]
        exact hP.delete rows _ s' _ code ho₁ hc₁ hP₁ hold hdel
      | stopped s₂ s' code hkeep hdel hstop honly =>
        rw [if_neg (unprepared_ne_zero hstop)]
        exact hP.looks _ s₂ s' (hP.delete rows _ s₂ _ 0 ho₁ hc₁ hP₁ hold hdel) honly.looks
      | rewritten s₂ s' code ho₂ hkeep hdel hgo hkeep' hwrite =>
        rw [← hkeep.newRow_eq] at hlen ⊢
        exact hP.write _ s₂ s' new code ho₂ (hdel.consistent hc₁ ord ho₁ hold)
          (hP.delete rows _ s₂ _ 0 ho₁ hc₁ hP₁ hold hdel)
          (hP.condition _ s₂ _ new hw hkeep hdel) hlen hwrite
    have := wp_ok hupdate h
    exact this
  | other rows s s' req code hs hreq ha h ih =>
    obtain ⟨ho, hc⟩ := hs.sound ord
    exact hP.looks rows s s' ih ((wp_ok (ho.wp_perform ord ha) h).2.1 hreq)

end Operations

section Agreement

variable {share : TableShare} {server : Server} {rows : List Row} {row row' : Row} {r : Record}
  {s : HaExample} {code : Int} {old new : Nat} {W : HaExample → Nat → Prop}

/-- Rows with one primary key are the same. -/
theorem Consistent.eq_of_has (hc : Consistent share rows s) (ord : share.Ordered)
    (hrow : row ∈ rows) (hrow' : row' ∈ rows) (h : row.Has share row'.record) : row = row' := by
  have hsym : Std.Symm fun row row' : Row ↦ ¬ row.Has share row'.record :=
    ⟨fun _ _ h h' ↦ h (h'.symm ord)⟩
  by_contra hne
  exact hc.distinct.forall hrow hrow' hne h

/-- The bytes of a live slot are those of its row. -/
theorem Consistent.bytes (hc : Consistent share rows s) (ord : share.Ordered)
    (ho : Opened share s) {a : Slot Key} (ha : a ∈ s.pBtree.live) (hrow : row ∈ rows)
    (hak : share.primaryKeyCompare a.key (share.primaryKey row.record) = 0) :
    ∃ src, valueOf share.primary s.pBtree.page a.value = some src ∧ Begins src row.bytes := by
  obtain ⟨b, hb, hbk, src, hval, hsrc⟩ := hc.live row hrow
  have hk : share.PrimaryKey (share.primaryKey row.record) := TableShare.primaryKey_primaryKey
  have hS := ho.primary.keys
  obtain rfl : a = b := ho.primary.sorted.eq_of_equal ord.primary hS ha hb
    (ord.primary.equal_trans (hS a ha) hk (hS b hb) hak (ord.primary.symm (hS b hb) hk hbk))
  exact ⟨src, hval, hsrc⟩

/-- What is fetched at the entry of a row is that row, unless only indexes are read. -/
theorem EntryOutcome.returns {s' : HaExample} {buf i : Nat} {e : Slot Key}
    (h : EntryOutcome share s i buf e code s') (hc : Consistent share rows s)
    (ord : share.Ordered) (ho : Opened share s) (hi : 1 ≤ i ∧ i < share.keys)
    (he : e ∈ s.entries) (hrow : row ∈ rows)
    (hek : share.secondKeyCompare e.key (share.packKey i row.record) = 0) :
    code = 0 ∧ (s.keyRead = false →
      ∃ src, Begins src row.bytes ∧ s'.record = share.unpackRow src buf s.record) := by
  obtain ⟨_, hv⟩ := ho.exists_second (by omega)
  have hk : share.PrimaryKey (share.primaryKey row.record) := TableShare.primaryKey_primaryKey
  have hS := (hv.keys e he).rowOf
  have hrowOf := ((TableShare.eq_packKey_iff hi.1 hi.2).mp hek).2
  -- the end of the entry is the primary key of the row
  have hdrop : e.key.drop (1 + (share.keyInfo i).keyLength) = share.rowOf e.key := by
    unfold TableShare.rowOf
    rw [indexOf_of_eq hi.1 hi.2 hek]
  cases h with
  | restored _ hread => exact ⟨rfl, fun hnot ↦ by simp [hread] at hnot⟩
  | row _ _ _ hout =>
    rw [hdrop] at hout
    cases hout with
    | missing _ hne =>
      obtain ⟨a, ha, hak, _⟩ := hc.live row hrow
      exact absurd (ord.primary.equal_trans (ho.primary.keys a ha) hk hS hak
        (ord.primary.symm hS hk hrowOf)) (hne a ha)
    | found _ a p ha hak hval hrecord =>
      obtain ⟨src, hval', hsrc⟩ := hc.bytes ord ho ha hrow
        (ord.primary.equal_trans (ho.primary.keys a ha) hS hk hak hrowOf)
      rw [hval] at hval'
      cases hval'
      exact ⟨rfl, fun _ ↦ ⟨p, hsrc, hrecord⟩⟩

/-- The row of a live entry is found. -/
theorem EntryOutcome.code_eq {s' : HaExample} {buf : Nat} {e : Slot Key}
    (h : EntryOutcome share s (indexOf e.key) buf e code s') (hc : Consistent share rows s)
    (ord : share.Ordered) (ho : Opened share s) (he : e ∈ s.entries) : code = 0 := by
  obtain ⟨row, hrow, i, hi, hek⟩ := hc.owner e he
  have hi := mem_indexes.mp hi
  rw [indexOf_of_eq hi.1 hi.2 hek] at h
  exact (h.returns hc ord ho hi he hrow hek).1

/-- Each row has one slot in the tree of rows, and each live slot one row. -/
theorem Consistent.rows_unique (hc : Consistent share rows s) (ord : share.Ordered)
    (ho : Opened share s) :
    (∀ row ∈ rows, ∃! e, e ∈ s.pBtree.live ∧
      share.primaryKeyCompare e.key (share.primaryKey row.record) = 0) ∧
    ∀ e ∈ s.pBtree.live, ∃! row, row ∈ rows ∧
      share.primaryKeyCompare e.key (share.primaryKey row.record) = 0 := by
  have hk : ∀ r, share.PrimaryKey (share.primaryKey r) := fun _ ↦ TableShare.primaryKey_primaryKey
  constructor
  · intro row hrow
    obtain ⟨e, he, hek, _⟩ := hc.live row hrow
    refine ⟨e, ⟨he, hek⟩, fun e' ⟨he', hek'⟩ ↦ ?_⟩
    have hS := ho.primary.keys e he
    apply ho.primary.sorted.eq_of_equal ord.primary ho.primary.keys he' he
    exact ord.primary.equal_trans (ho.primary.keys e' he') (hk _) hS hek'
      (ord.primary.symm hS (hk _) hek)
  · intro e he
    have hS := ho.primary.keys e he
    obtain ⟨row, hrow, hek⟩ := hc.row e he
    refine ⟨row, ⟨hrow, hek⟩, fun row' ⟨hrow', hek'⟩ ↦ ?_⟩
    apply hc.eq_of_has ord hrow' hrow
    exact ord.primary.equal_trans (hk _) hS (hk _) (ord.primary.symm hS (hk _) hek') hek

/-- Each row has one entry in each index, and each live entry one row and one index. -/
theorem Consistent.entries_unique (hc : Consistent share rows s) (ord : share.Ordered)
    (ho : Opened share s) :
    (∀ row ∈ rows, ∀ i ∈ HaExample.indexes share, ∃! e, e ∈ s.entries ∧
      share.secondKeyCompare e.key (share.packKey i row.record) = 0) ∧
    ∀ e ∈ s.entries, ∃! p : Row × Nat, p.1 ∈ rows ∧ p.2 ∈ HaExample.indexes share ∧
      share.secondKeyCompare e.key (share.packKey p.2 p.1.record) = 0 := by
  constructor
  · intro row hrow i hi
    obtain ⟨hi1, hik⟩ := mem_indexes.mp hi
    obtain ⟨_, hv⟩ := ho.exists_second (by omega)
    have hk := (TableShare.packKey_entryKey row.record hi1 hik).1
    obtain ⟨e, he, hek⟩ := hc.entry row hrow i hi
    refine ⟨e, ⟨he, hek⟩, fun e' ⟨he', hek'⟩ ↦ ?_⟩
    have hS := hv.keys e he
    apply hv.sorted.eq_of_equal ord.second hv.keys he' he
    exact ord.second.equal_trans (hv.keys e' he') hk hS hek' (ord.second.symm hS hk hek)
  · intro e he
    obtain ⟨row, hrow, i, hi, hek⟩ := hc.owner e he
    refine ⟨⟨row, i⟩, ⟨hrow, hi, hek⟩, fun ⟨row', j⟩ ⟨hrow', hj, hek'⟩ ↦ ?_⟩
    obtain ⟨_, hv⟩ := ho.exists_second (by have := mem_indexes.mp hi; omega)
    obtain ⟨hij, hhas⟩ := eq_of_packKeys ord (hv.keys e he) hj hi hek' hek
    exact Prod.ext (hc.eq_of_has ord hrow' hrow hhas) hij

/-- In every state of a table that row operations and other requests lead to, each row has one
slot in the tree of rows and one entry in each secondary index, and there are no others.
`write_row` finds a duplicate exactly when a row has the primary key, and `write_row` and
`update_row` never find one among the entries. -/
theorem rows_and_entries_agree (ord : share.Ordered) (hs : Stored share server W rows s) :
    ((∀ row ∈ rows, ∃! e, e ∈ s.pBtree.live ∧
      share.primaryKeyCompare e.key (share.primaryKey row.record) = 0) ∧
    ∀ e ∈ s.pBtree.live, ∃! row, row ∈ rows ∧
      share.primaryKeyCompare e.key (share.primaryKey row.record) = 0) ∧
    ((∀ row ∈ rows, ∀ i ∈ HaExample.indexes share, ∃! e, e ∈ s.entries ∧
      share.secondKeyCompare e.key (share.packKey i row.record) = 0) ∧
    ∀ e ∈ s.entries, ∃! p : Row × Nat, p.1 ∈ rows ∧ p.2 ∈ HaExample.indexes share ∧
      share.secondKeyCompare e.key (share.packKey p.2 p.1.record) = 0) ∧
    (∀ buf, s.unprepared share server buf = none →
      (s.newRow share server buf).bytes.length ≤ maxValueSize →
      wp Beyond (HaExample.writeRow share server buf) (fun code _ ↦
        code = HA_ERR_FOUND_DUPP_KEY ∧
          (∃ row ∈ rows, row.Has share (s.newRow share server buf).record) ∨
        code = 0 ∧ ∀ row ∈ rows, ¬ row.Has share (s.newRow share server buf).record) s) ∧
    ∀ old new, (HaExample.numbered server new s).2.unprepared share server new = none →
      ((HaExample.numbered server new s).2.newRow share server new).bytes.length ≤ maxValueSize →
      OldImage share rows ((HaExample.numbered server new s).2.record old) →
      wp Beyond (HaExample.updateRow share server old new)
        (fun code _ ↦ code ≠ HA_ERR_INTERNAL_ERROR) s := by
  obtain ⟨ho, hc⟩ := hs.sound ord
  refine ⟨hc.rows_unique ord ho, hc.entries_unique ord ho, fun buf hgo hlen ↦ ?_,
    fun old new hgo hlen hold ↦ ?_⟩
  · have hprep : OnlyServer s (s.prepared share server buf) := onlyServer_prepared
    apply wp_writeRow ord ho
    · intro code s' hstop
      rw [hgo] at hstop
      cases hstop
    · intro code s' _ _ _ hout
      exact (hout.consistent (hc.onlyServer hprep) ord (hprep.opened ho) hlen).2
  · have hnum : OnlyServer s (HaExample.numbered server new s).2 := onlyServer_numbered
    exact wp_updateRow ord ho fun code s' _ hout ↦
      (hout.consistent (hc.onlyServer hnum) ord (hnum.opened ho) hold hlen).2 hgo

end Agreement

section Stores

variable {share : TableShare} {server : Server} {rows : List Row} {s s' : HaExample} {r : Record}
  {reqs : List Request} {codes : List Int} {code : Int} {W : HaExample → Nat → Prop}

/-- Requests one after another are made one by one. -/
theorem performAll_cons {req : Request}
    (h : (Request.performAll share server (req :: reqs)).run s = .ok (code :: codes, s')) :
    ∃ s₁, (req.perform share server).run s = .ok (code, s₁) ∧
      (Request.performAll share server reqs).run s₁ = .ok (codes, s') := by
  obtain ⟨code', s₁, hreq, hrest⟩ := run_of_bind h
  obtain ⟨codes', s₂, hreqs, hpure⟩ := run_of_bind hrest
  cases hpure
  exact ⟨s₁, hreq, hreqs⟩

/-- Where no number is assigned, the record in the buffer is written. -/
theorem prepared_record (hn : s.nextNumberField = false) (buf : Nat) :
    (s.prepared share server buf).record = s.record := by
  have hnum : HaExample.numbered server buf s = (0, s) := by
    unfold HaExample.numbered
    rw [hn]
    rfl
  unfold HaExample.prepared
  rw [hnum]
  unfold HaExample.packRow HaExample.grown
  simp only
  split <;> rfl

/-- The requests that store a record do. -/
theorem Stored.store (ord : share.Ordered) (hs : Stored share server W rows s)
    (hn : s.nextNumberField = false) (hlen : (share.packed r r).length ≤ maxValueSize)
    (hw : W { s with record := Function.update s.record 0 r } 0)
    (h : (Request.performAll share server (.fill 0 r :: .writeRow 0 :: reqs)).run s =
      .ok (0 :: 0 :: codes, s')) :
    ∃ s₁, Stored share server W (⟨r, share.packed r r⟩ :: rows) s₁ ∧
      s₁.nextNumberField = false ∧ s₁.record 0 = r ∧
      (Request.performAll share server reqs).run s₁ = .ok (codes, s') := by
  obtain ⟨s₁, hfill, hrest⟩ := performAll_cons h
  have hs₁ := hs.other rows s s₁ (.fill 0 r) 0 id trivial hfill
  obtain ⟨s₂, hwrite, hreqs⟩ := performAll_cons hrest
  have hs₁eq : s₁ = { s with record := Function.update s.record 0 r } := by
    cases hfill
    rfl
  have hrecord : s₁.record 0 = r := by
    rw [hs₁eq]
    exact Function.update_self 0 r s.record
  have hnext : s₁.nextNumberField = false := by rw [hs₁eq, hn]
  have hprep : (s₁.prepared share server 0).record = s₁.record := prepared_record hnext 0
  have hrow : s₁.newRow share server 0 = ⟨r, share.packed r r⟩ := by
    unfold HaExample.newRow HaExample.packedRow
    rw [hprep, hrecord]
  have hs₂ := hs₁.write rows s₁ s₂ 0 0 (hs₁eq ▸ hw) (by rwa [hrow]) hwrite
  rw [hrow] at hs₂
  have hsame : wp Beyond (HaExample.writeRow share server 0)
      (fun code s' ↦ code = 0 → s'.nextNumberField = false ∧ s'.record 0 = r) s₁ := by
    apply wp_writeRow ord (hs₁.sound ord).1
    · exact fun code s' hstop _ _ h0 ↦ absurd h0 (unprepared_ne_zero hstop)
    · intro code s' _ _ honly _ _
      rw [honly]
      refine ⟨?_, (congrFun hprep 0).trans hrecord⟩
      rw [onlyServer_prepared (s := s₁)]
      exact hnext
  obtain ⟨hn₂, hr₂⟩ := wp_ok hsame hwrite rfl
  exact ⟨s₂, hs₂, hn₂, hr₂, hreqs⟩

end Stores

section Digits

/-- The rows of the filled table. -/
def filledRows : List Row :=
  [⟨digitRecord 2 4 8, [2, 4, 8]⟩, ⟨digitRecord 1 5 7, [1, 5, 7]⟩]

/-- Two rows stored. -/
theorem filledTable_stored :
    Stored digits lenient (fun _ _ ↦ True) filledRows filledTable := by
  have hempty : Stored digits lenient (fun _ _ ↦ True) [] openedTable :=
    .opened newTable openedTable newTable_created newTable_opened
  have hpacked : ∀ a b c, digits.packed (digitRecord a b c) (digitRecord a b c) = [a, b, c] := by
    intro a b c
    simp [TableShare.packed, digits, digitField, digitRecord, Field.isNull]
  have hlen : ∀ a b c : UInt8, [a, b, c].length ≤ maxValueSize :=
    fun _ _ _ ↦ Nat.le_of_ble_eq_true rfl
  obtain ⟨s₁, hs₁, hn₁, _, hrest⟩ := hempty.store digits_ordered openedTable_next
    (by rw [hpacked]; apply hlen) trivial filledTable_run
  obtain ⟨s₂, hs₂, _, _, hdone⟩ := hs₁.store digits_ordered hn₁
    (by rw [hpacked]; apply hlen) trivial hrest
  cases hdone
  rw [hpacked, hpacked] at hs₂
  exact hs₂

/-- Two rows, with the first secondary index active. -/
def indexedTable : HaExample := { filledTable with activeIndex := 1 }

theorem indexedTable_stored :
    ∃ rows, Stored digits lenient (fun _ _ ↦ True) rows indexedTable :=
  ⟨_, .other _ filledTable indexedTable (.indexInit 1) 0 filledTable_stored id
    (show 1 < 3 by decide) rfl⟩

/-- The entries of two rows, and the second one stored again. -/
theorem filledTable_agrees :
    (∀ row ∈ filledRows, ∀ i ∈ HaExample.indexes digits, ∃! e, e ∈ filledTable.entries ∧
      digits.secondKeyCompare e.key (digits.packKey i row.record) = 0) ∧
    wp Beyond (HaExample.writeRow digits lenient 0) (fun code _ ↦
      code = HA_ERR_FOUND_DUPP_KEY ∧
        (∃ row ∈ filledRows, row.Has digits (filledTable.newRow digits lenient 0).record) ∨
      code = 0 ∧ ∀ row ∈ filledRows,
        ¬ row.Has digits (filledTable.newRow digits lenient 0).record) filledTable :=
  ⟨(rows_and_entries_agree digits_ordered filledTable_stored).2.1.1,
    (rows_and_entries_agree digits_ordered filledTable_stored).2.2.1 0 (by decide +kernel)
      (by decide +kernel)⟩

end Digits

end ExampleEngine.Handler
