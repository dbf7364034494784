import ExampleEngine.Handler.Refinement
import ExampleEngine.Handler.Updates

/-!
# Scans of an index with deletions

Library `Handler`. `delete_row` of `src/ha_example.cc:683–708` takes no slot away, so the cursor of
a secondary index stays where it is when the row under it is deleted. A scan that deletes some of
the rows it comes to, and rewrites others, returns those of its index once and in order.
-/

namespace ExampleEngine.Handler

open ExampleEngine.Base ExampleEngine.Storage ExampleEngine.Index

/-- A scan of a secondary index: the rows of the table, those returned so far as they were
returned, and the state. In between the row returned last is deleted, or rewritten under a
condition with its primary key and the columns of this index left as they are. -/
inductive ChangingScan (share : TableShare) (server : Server) (W : HaExample → Nat → Prop)
    (rows₀ : List Row) (s₀ : HaExample) (start : Request) :
    List Row → List Row → HaExample → Prop
  | start (s : HaExample) (buf : Nat) (row : Row)
      (hstart : start = .indexFirst buf ∨ ∃ key f, start = .indexRead buf key f)
      (h : (start.perform share server).run s₀ = .ok (0, s)) (hrow : row ∈ rows₀)
      (hr : ReturnsRow share s₀ buf row s) :
      ChangingScan share server W rows₀ s₀ start rows₀ [row] s
  | next (rows done : List Row) (s s' : HaExample) (buf : Nat) (row : Row)
      (hs : ChangingScan share server W rows₀ s₀ start rows done s)
      (h : (HaExample.indexNext share server buf).run s = .ok (0, s')) (hrow : row ∈ rows)
      (hr : ReturnsRow share s buf row s') :
      ChangingScan share server W rows₀ s₀ start rows (done ++ [row]) s'
  | idle (rows done : List Row) (s s' : HaExample) (req : Request) (code : Int)
      (hs : ChangingScan share server W rows₀ s₀ start rows done s) (hreq : req.Idle)
      (h : (req.perform share server).run s = .ok (code, s')) :
      ChangingScan share server W rows₀ s₀ start rows done s'
  | delete (rows done : List Row) (s s' : HaExample) (buf : Nat) (code : Int) (row : Row)
      (hs : ChangingScan share server W rows₀ s₀ start rows done s)
      (hold : OldImage share rows (s.record buf)) (hlast : done.getLast? = some row)
      (hkey : share.secondKeyCompare (share.packKey s₀.activeIndex row.record)
        (share.packKey s₀.activeIndex (s.record buf)) = 0)
      (h : (HaExample.deleteRow share buf).run s = .ok (code, s')) :
      ChangingScan share server W rows₀ s₀ start (without share rows (s.record buf)) done s'
  | update (rows done : List Row) (s s₁ s' : HaExample) (old new : Nat) (code : Int) (row : Row)
      (hs : ChangingScan share server W rows₀ s₀ start rows done s)
      (h₁ : s₁ = (HaExample.numbered server new s).2) (hw : W s₁ new)
      (hold : OldImage share rows (s₁.record old))
      (hlen : (s₁.newRow share server new).bytes.length ≤ maxValueSize)
      (hlast : done.getLast? = some row)
      (hkey : share.secondKeyCompare (share.packKey s₀.activeIndex row.record)
        (share.packKey s₀.activeIndex (s₁.record old)) = 0)
      (hkey' : share.secondKeyCompare (share.packKey s₀.activeIndex row.record)
        (share.packKey s₀.activeIndex (s₁.newRow share server new).record) = 0)
      (hspare : SparesCursor share server s old new)
      (h : (HaExample.updateRow share server old new).run s = .ok (code, s')) :
      ChangingScan share server W rows₀ s₀ start (if code = 0 then
        s₁.newRow share server new :: without share rows (s₁.record old)
        else without share rows (s₁.record old)) done s'

section Runs

variable {share : TableShare} {server : Server} {W : HaExample → Nat → Prop}
  {rows₀ rows done : List Row} {s₀ s s' : HaExample} {start : Request} {row : Row} {code : Int}
  {buf i : Nat} {k : Key} {r : Record}

/-- Deleting the row with the key `k` in an index leaves the entries above it. -/
private theorem DeleteOutcome.entriesAbove_eq (h : DeleteOutcome share s r code s')
    (ord : share.Ordered) (ho : Opened share s) (hi : i ∈ HaExample.indexes share)
    (hk : share.EntryKey k) (hkr : share.secondKeyCompare k (share.packKey i r) = 0) :
    entriesAbove share i k s' = entriesAbove share i k s :=
  h.filter_eq fun _ ha _ hj ↦ not_above ord ho hi hk hkr ha hj

/-- Deleting the row returned last leaves a scan where it is. -/
private theorem IndexScanInv.delete
    (hinv : IndexScanInv share server W rows₀ s₀ start rows done s) (ord : share.Ordered)
    (h1 : 1 ≤ s₀.activeIndex) (hold : OldImage share rows (s.record buf))
    (hlast : done.getLast? = some row)
    (hkey : share.secondKeyCompare (share.packKey s₀.activeIndex row.record)
      (share.packKey s₀.activeIndex (s.record buf)) = 0)
    (h : (HaExample.deleteRow share buf).run s = .ok (code, s')) :
    IndexScanInv share server W rows₀ s₀ start (without share rows (s.record buf)) done s' := by
  obtain ⟨ho, hc⟩ := hinv.stored.sound ord
  have hik : s₀.activeIndex < share.keys := hinv.active ▸ ho.active
  have hi : s₀.activeIndex ∈ HaExample.indexes share := mem_indexes.mpr ⟨h1, hik⟩
  have hdelete : wp (fun _ ↦ False) (HaExample.deleteRow share buf) (fun code s' ↦
      KeepsCursor s s' ∧ DeleteOutcome share s (s.record buf) code s') s :=
    wp_deleteRow ord ho fun _ _ _ htrees hdel ↦ ⟨hdel.keepsCursor htrees, hdel⟩
  obtain ⟨hkeep, hdel⟩ := wp_ok hdelete h
  obtain ⟨before, rest, hin, hfirst, cur, e, hcur, hst, hek, hl⟩ := hinv.rest
  obtain rfl := Option.some.inj (hlast.symm.trans hcur)
  obtain ⟨e', hek', hst'⟩ := hkeep.stands e hst
  obtain ⟨_, hv⟩ := ho.exists_second (by omega)
  have hS : share.EntryKey e.key := hv.slots.2 e (hv.mem_slots_of_stands hst)
  have hSr : ∀ r, share.EntryKey (share.packKey s₀.activeIndex r) :=
    fun r ↦ (TableShare.packKey_entryKey r h1 hik).1
  have hekold := ord.second.equal_trans hS (hSr _) (hSr _) hek hkey
  refine ⟨hinv.stored.delete rows s s' buf code hold h, hkeep.active.trans hinv.active, before,
    rest, hin, hfirst, row, e', hcur, hst', hek' ▸ hek, ?_⟩
  rw [hek', hdel.entriesAbove_eq ord ho hi hS hekold]
  exact entryOf_after_update ord ho hi hS hold hekold (fun _ hrow ↦ hrow) hl

/-- A scan is where its invariant says. -/
theorem ChangingScan.inv (ord : share.Ordered) (hs₀ : Stored share server W rows₀ s₀)
    (h1 : 1 ≤ s₀.activeIndex) (hscan : ChangingScan share server W rows₀ s₀ start rows done s) :
    IndexScanInv share server W rows₀ s₀ start rows done s := by
  induction hscan with
  | start s buf row hstart h hrow hr => exact .of_start ord hs₀ h1 hstart h hrow hr
  | next rows done s s' buf row _ h hrow hr ih => exact ih.next ord h1 h hrow hr
  | idle rows done s s' req code _ hreq h ih => exact ih.idle ord hreq h
  | delete rows done s s' buf code row _ hold hlast hkey h ih =>
    exact ih.delete ord h1 hold hlast hkey h
  | update rows done s s₁ s' old new code row _ h₁ hw hold hlen hlast hkey hkey' hspare h ih =>
    subst h₁
    exact ih.update ord h1 hw hold hlen hlast hkey hkey' hspare h

end Runs

section Samples

end Samples

end ExampleEngine.Handler
