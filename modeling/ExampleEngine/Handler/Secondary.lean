import ExampleEngine.Handler.Boundaries
import ExampleEngine.Handler.Primary

/-!
# Reads by the secondary indexes

Library `Handler`. The index functions of `src/ha_example.cc:737–957` on secondary indexes, which
share one tree. The rows of a table, each once in every index, are one ordered list, with the cursor
put on it at either end or at a marked search key, and moved from place to place, also across the
end of an index, and also when rows are deleted in between, or rewritten where that spares the
cursor.
-/

namespace ExampleEngine.Handler

open ExampleEngine.Base ExampleEngine.Storage ExampleEngine.Index

/-- Where a secondary index has a row. -/
structure Place where
  index : Nat
  row : Row

namespace Place

/-- The key of the entry there. -/
def key (share : TableShare) (p : Place) : Key := share.packKey p.index p.row.record

/-- The places that some rows have. -/
def Of (share : TableShare) (rows : List Row) (p : Place) : Prop :=
  p.row ∈ rows ∧ p.index ∈ HaExample.indexes share

end Place

/-- What a mode comes to, by the comparison with an index and a value: with their marker,
`HA_READ_AFTER_KEY` and `HA_READ_KEY_OR_PREV` stand before the entries that are equal. -/
def HaRkeyFunction.Reaches : HaRkeyFunction → Int → Prop
  | .HA_READ_KEY_EXACT, d => d = 0
  | .HA_READ_KEY_OR_NEXT, d => 0 ≤ d
  | .HA_READ_KEY_OR_PREV, d => d < 0
  | .HA_READ_AFTER_KEY, d => 0 ≤ d
  | .HA_READ_BEFORE_KEY, d => d < 0
  | .HA_READ_PREFIX_LAST_OR_PREV, d => d ≤ 0
  | .other, _ => False

/-- The place that the ordered list answers with. -/
def Sought.Finds (share : TableShare) (rows : List Row) (q : Sought) : Option Place → Prop :=
  Wanted share.secondKeyCompare (Place.key share) q.accepts q.backward (Place.Of share rows)

/-- The cursor of the secondary indexes is where a place is, or was. -/
def OnPlace (share : TableShare) (s : HaExample) (cur : Option Place) : Prop :=
  ∀ p, cur = some p → p.index ∈ HaExample.indexes share ∧
    ∃ e, Stands s.secondTree s.secIt e ∧ share.secondKeyCompare e.key (p.key share) = 0

/-- What a read does with this answer. The row is returned when the place is in the active index;
the end of an entry of another one is looked for where the active one has it. -/
def Sought.Visits (share : TableShare) (s : HaExample) (q : Sought) :
    Option Place → Int → HaExample → Prop
  | none, code, _ => code = q.err
  | some p, code, s' => OnPlace share s' (some p) ∧
      (p.index = s.activeIndex → code = 0 ∧ ReturnsRow share s q.buf p.row s')

/-- What the requests ask for, with the cursor on a place or on none. -/
inductive Request.SeeksPlace (share : TableShare) (s : HaExample) (cur : Option Place) :
    Request → Sought → Prop
  | read (buf : Nat) (v : Key) (f : HaRkeyFunction)
      (hv : v.length = (share.keyInfo s.activeIndex).keyLength) :
      SeeksPlace share s cur (.indexRead buf v f)
        ⟨fun k ↦ f.Reaches (share.entryCompare k (UInt8.ofNat s.activeIndex :: v)), f.backward,
          f.err, buf⟩
  | first (buf : Nat) : SeeksPlace share s cur (.indexFirst buf)
      ⟨fun _ ↦ True, false, HA_ERR_KEY_NOT_FOUND, buf⟩
  | last (buf : Nat) : SeeksPlace share s cur (.indexLast buf)
      ⟨fun _ ↦ True, true, HA_ERR_KEY_NOT_FOUND, buf⟩
  | next (buf : Nat) (p : Place) (hcur : cur = some p) : SeeksPlace share s cur (.indexNext buf)
      ⟨fun k ↦ 0 < share.secondKeyCompare k (p.key share), false, HA_ERR_END_OF_FILE, buf⟩
  | prev (buf : Nat) (p : Place) (hcur : cur = some p) : SeeksPlace share s cur (.indexPrev buf)
      ⟨fun k ↦ share.secondKeyCompare k (p.key share) < 0, true, HA_ERR_END_OF_FILE, buf⟩

/-- Requests that leave the cursor of the secondary indexes where it is. -/
def Request.Aside (share : TableShare) : Request → Prop
  | .indexInit i => i < share.keys
  | .rndPos _ pos => share.PrimaryKey pos
  | req => req.Beside

/-- A run of reads of a table by its secondary indexes: the rows, the place that the cursor was put
on last, and the state. In between rows are deleted, and rewritten where that spares the cursor and
does not take block 2^18 of a file into use. -/
inductive Visiting (share : TableShare) (server : Server) :
    List Row → Option Place → HaExample → Prop
  | entered (saved rows : List Row) (s : HaExample) (hs : Lifetime share server saved rows s) :
      Visiting share server rows none s
  | read (rows : List Row) (cur next : Option Place) (s s' : HaExample) (req : Request)
      (q : Sought) (code : Int) (hs : Visiting share server rows cur s) (h1 : 1 ≤ s.activeIndex)
      (hq : req.SeeksPlace share s cur q) (hn : q.Finds share rows next)
      (h : (req.perform share server).run s = .ok (code, s')) : Visiting share server rows next s'
  | aside (rows : List Row) (cur : Option Place) (s s' : HaExample) (req : Request) (code : Int)
      (hs : Visiting share server rows cur s) (hreq : req.Aside share)
      (h : (req.perform share server).run s = .ok (code, s')) : Visiting share server rows cur s'
  | deleted (rows : List Row) (cur : Option Place) (s s' : HaExample) (buf : Nat) (code : Int)
      (hs : Visiting share server rows cur s) (hold : OldImage share rows (s.record buf))
      (h : (HaExample.deleteRow share buf).run s = .ok (code, s')) :
      Visiting share server (without share rows (s.record buf)) cur s'
  | updated (rows : List Row) (cur : Option Place) (s s₁ s' : HaExample) (old new : Nat)
      (code : Int) (hs : Visiting share server rows cur s)
      (h₁ : s₁ = (HaExample.numbered server new s).2) (hold : OldImage share rows (s₁.record old))
      (hlen : (s₁.newRow share server new).bytes.length ≤ maxValueSize)
      (hcur : SparesCursor share server s old new)
      (h : (HaExample.updateRow share server old new).run s = .ok (code, s'))
      (hspare : s.Spares s') :
      Visiting share server (if code = 0 then
        s₁.newRow share server new :: without share rows (s₁.record old)
        else without share rows (s₁.record old)) cur s'

section Targets

variable {share : TableShare} {i : Nat} {v k : Key} {es : List (Slot Key)} {f : HaRkeyFunction}

/-- An index and a value are compared as a search key of them is. -/
theorem entryCompare_search {flag : UInt8} (hi : i < share.keys)
    (hv : v.length = (share.keyInfo i).keyLength) (hflag : flag = 0x80 ∨ flag = 0x40) (a : Key) :
    share.entryCompare a (searchKey i flag v k) = share.entryCompare a (UInt8.ofNat i :: v) :=
  entryCompare_marked (k.drop (v.length + 1)) hi hv hflag

/-- The entry that a mode of `index_read` looks for is the one it comes to. -/
theorem HaRkeyFunction.reaches_target (ord : share.Ordered) (h1 : 1 ≤ i) (hi : i < share.keys)
    (hv : v.length = (share.keyInfo i).keyLength)
    (hk : share.primaryKeyLength + share.maxSecondKeyLength + 1 ≤ k.length)
    (hes : ∀ e ∈ es, share.EntryKey e.key) (hs : Sorted share.secondKeyCompare Slot.key es) :
    Wanted share.secondKeyCompare Slot.key
      (fun a ↦ f.Reaches (share.entryCompare a (UInt8.ofNat i :: v))) f.backward (· ∈ es)
      (f.target share i v k es) := by
  obtain ⟨hsk, _, hfirst⟩ := TableShare.marks_first (markedKey_searchKey (v := v) h1 hi hk)
  obtain ⟨_, _, hlast⟩ := TableShare.marks_last (markedKey_searchKey (v := v) h1 hi hk)
  have hwant : ∀ (flag : IterFlag) sk, Wanted share.secondKeyCompare Slot.key
      (fun a ↦ flag.Qualifies (share.secondKeyCompare a sk)) flag.backward (· ∈ es)
      (flag.search share.secondKeyCompare sk es) :=
    fun flag sk ↦ flag.wanted_search ord.second hes hs
  have hcmp : ∀ a, share.secondKeyCompare a (searchKey i 0x80 v k) =
      if share.entryCompare a (UInt8.ofNat i :: v) ≠ 0
      then share.entryCompare a (UInt8.ofNat i :: v) else 1 := by
    intro a
    rw [hfirst a trivial, entryCompare_search hi hv (.inl rfl)]
  have hcmp' : ∀ a, share.secondKeyCompare a (searchKey i 0x40 v k) =
      if share.entryCompare a (UInt8.ofNat i :: v) ≠ 0
      then share.entryCompare a (UInt8.ofNat i :: v) else -1 := by
    intro a
    rw [hlast a trivial, entryCompare_search hi hv (.inr rfl)]
  cases f with
  | HA_READ_KEY_EXACT =>
    refine (hwant .KEY_OR_NEXT _).filter (fun z hz ↦ ?_) (fun z hz hzero ↦ ?_)
      fun z w hz hw hnot hzero hleads ↦ ?_
    · rw [decide_eq_true_eq, entryCompare_search hi hv (.inl rfl)]
      rfl
    · have hzero : share.entryCompare z.key (UInt8.ofNat i :: v) = 0 := hzero
      change 0 ≤ share.secondKeyCompare z.key _
      rw [hcmp, if_neg (not_not.mpr hzero)]
      decide
    · -- the first one that is not below is not above the equal one
      have hle : share.secondKeyCompare z.key w.key ≤ 0 := hleads
      rw [(hes w hw).secondKeyCompare_eq] at hle
      have hzero : share.entryCompare w.key (UInt8.ofNat i :: v) = 0 := hzero
      have htrans := ord.entry.trans (hes z hz).searchKey (hes w hw).searchKey hsk
        (le_of_lexicographic hle)
      rw [entryCompare_search hi hv (.inl rfl), entryCompare_search hi hv (.inl rfl)] at htrans
      have hnot : 0 ≤ share.secondKeyCompare z.key _ := hnot
      rw [hcmp] at hnot
      change share.entryCompare z.key _ = 0
      split at hnot <;> omega
  | HA_READ_KEY_OR_NEXT =>
    refine (hwant .KEY_OR_NEXT _).congr fun e _ ↦ ?_
    change 0 ≤ share.secondKeyCompare e.key _ ↔ 0 ≤ share.entryCompare e.key _
    rw [hcmp]
    split <;> omega
  | HA_READ_KEY_OR_PREV =>
    refine (hwant .KEY_OR_PREV _).congr fun e _ ↦ ?_
    change share.secondKeyCompare e.key _ ≤ 0 ↔ share.entryCompare e.key _ < 0
    rw [hcmp]
    split <;> omega
  | HA_READ_AFTER_KEY =>
    refine (hwant .AFTER_KEY _).congr fun e _ ↦ ?_
    change 0 < share.secondKeyCompare e.key _ ↔ 0 ≤ share.entryCompare e.key _
    rw [hcmp]
    split <;> omega
  | HA_READ_BEFORE_KEY =>
    refine (hwant .BEFROE_KEY _).congr fun e _ ↦ ?_
    change share.secondKeyCompare e.key _ < 0 ↔ share.entryCompare e.key _ < 0
    rw [hcmp]
    split <;> omega
  | HA_READ_PREFIX_LAST_OR_PREV =>
    refine (hwant .KEY_OR_PREV _).congr fun e _ ↦ ?_
    change share.secondKeyCompare e.key _ ≤ 0 ↔ share.entryCompare e.key _ ≤ 0
    rw [hcmp']
    split <;> omega
  | other => exact fun _ _ ↦ id

/-- What it comes to does not tell equal keys apart. -/
theorem HaRkeyFunction.congruent_reaches (ord : share.Ordered) (h1 : 1 ≤ i) (hi : i < share.keys)
    (hv : v.length = (share.keyInfo i).keyLength) :
    Congruent share.secondKeyCompare share.EntryKey
      fun a ↦ f.Reaches (share.entryCompare a (UInt8.ofNat i :: v)) := by
  intro a b ha hb hab hreach
  have hidx : indexOf (UInt8.ofNat i :: v) = i :=
    (byte_number i (Nat.lt_of_lt_of_le hi share.keys_le)).1
  have hsk : share.SearchKey (UInt8.ofNat i :: v) := by
    refine ⟨by omega, by omega, ?_⟩
    rw [hidx, List.length_cons]
    omega
  have hzero := (hb.eq_zero_iff.mp hab).1
  have hzero' := ord.entry.symm ha.searchKey hb.searchKey hzero
  have hle := ord.entry.trans hb.searchKey ha.searchKey hsk (Int.le_of_eq hzero')
  have hlt := ord.entry.lt_of_le_of_lt hb.searchKey ha.searchKey hsk (Int.le_of_eq hzero')
  have hle' := ord.entry.trans ha.searchKey hb.searchKey hsk (Int.le_of_eq hzero)
  have hlt' := ord.entry.lt_of_le_of_lt ha.searchKey hb.searchKey hsk (Int.le_of_eq hzero)
  cases f <;> simp only [HaRkeyFunction.Reaches] at hreach ⊢ <;> omega

end Targets

section Reads

variable {share : TableShare} {server : Server} {s s' : HaExample} {rows : List Row}
  {cur next next' : Option Place} {req : Request} {q : Sought} {target : Option (Slot Key)}
  {code : Int} {E : Fault → Prop} {p : Place}

/-- The key of a place is the key of an entry. -/
theorem Place.entryKey (hi : p.index ∈ HaExample.indexes share) : share.EntryKey (p.key share) := by
  obtain ⟨h1, hik⟩ := mem_indexes.mp hi
  exact (TableShare.packKey_entryKey p.row.record h1 hik).1

/-- The ordered list has one answer. -/
theorem Sought.Finds.unique (h : q.Finds share rows next) (h' : q.Finds share rows next')
    (hc : Consistent share rows s) (ord : share.Ordered) : next = next' := by
  refine Wanted.unique h h' ord.second (fun p hp ↦ Place.entryKey hp.2) ?_
  rintro ⟨i, row⟩ ⟨j, row'⟩ ⟨hrow, hi⟩ ⟨hrow', hj⟩ heq
  have hkey := Place.entryKey (p := ⟨i, row⟩) hi
  obtain ⟨rfl, hhas⟩ := eq_of_packKeys ord hkey hi hj (ord.second.self hkey) heq
  obtain rfl := hc.eq_of_has ord hrow hrow' hhas
  rfl

/-- A cursor on the entry wanted is on the place that the ordered list answers with. -/
theorem MoveOutcome.visits (h : MoveOutcome share s q.buf q.err target code s')
    (hc : Consistent share rows s) (ord : share.Ordered) (ho : Opened share s)
    (h1 : 1 ≤ s.activeIndex)
    (hA : Congruent share.secondKeyCompare share.EntryKey q.accepts)
    (hw : Wanted share.secondKeyCompare Slot.key q.accepts q.backward (· ∈ s.entries) target) :
    ∃ next, q.Finds share rows next ∧ q.Visits share s next code s' ∧ OnPlace share s' next := by
  have hkeys := ho.active
  obtain ⟨_, hv⟩ := ho.exists_second (by omega)
  have hS' : ∀ p, Place.Of share rows p → share.EntryKey (p.key share) :=
    fun p hp ↦ Place.entryKey hp.2
  have hentry : ∀ p, Place.Of share rows p → ∃ e, e ∈ s.entries ∧
      share.secondKeyCompare e.key (p.key share) = 0 := fun p hp ↦ hc.entry p.row hp.1 p.index hp.2
  cases h with
  | nowhere =>
    exact ⟨none, hw.transfer_none ord.second hv.keys hS' hA hentry, rfl,
      fun _ hnone ↦ by cases hnone⟩
  | «at» e _ _ he hst hrow =>
    obtain ⟨row, hmem, i, hi, hek⟩ := hc.owner e he
    have hon : OnPlace share s' (some ⟨i, row⟩) := by
      rintro p hp
      cases hp
      exact ⟨hi, e, hst, hek⟩
    refine ⟨some ⟨i, row⟩, hw.transfer_some ord.second hv.keys hS' hA hentry ⟨hmem, hi⟩ hek,
      ⟨hon, ?_⟩, hon⟩
    rintro rfl
    obtain ⟨hcode, hbytes⟩ := hrow.returns hc ord ho ⟨h1, hkeys⟩ he hmem hek
    exact ⟨hcode, ⟨e, he, hst, hek⟩, hbytes⟩

/-- Going to an end of the tree. -/
theorem Opened.wp_startPlace (ho : Opened share s) (hc : Consistent share rows s)
    (ord : share.Ordered) (h1 : 1 ≤ s.activeIndex) (back : Bool) {buf : Nat} {err : Int}
    (herr : err ≠ 0) :
    wp E (HaExample.moveIndex share server (Iterator.start back) err buf) (fun code s' ↦
      ∃ next, (Sought.mk (fun _ ↦ True) back err buf).Finds share rows next ∧
        (Sought.mk (fun _ ↦ True) back err buf).Visits share s next code s' ∧
        OnPlace share s' next) s := by
  have hkeys := ho.active
  obtain ⟨_, hv⟩ := ho.exists_second (by omega)
  refine ho.wp_start_second ord h1 herr fun code s' _ _ _ hout ↦ ?_
  exact MoveOutcome.visits (q := ⟨fun _ ↦ True, back, err, buf⟩) hout hc ord ho h1
    (fun _ _ _ _ _ _ ↦ trivial) (hv.sorted.wanted_head ord.second hv.keys)

/-- Moving on from a place. -/
theorem Opened.wp_advancePlace (ho : Opened share s) (hc : Consistent share rows s)
    (ord : share.Ordered) (h1 : 1 ≤ s.activeIndex) (hon : OnPlace share s (some p)) (back : Bool)
    {buf : Nat} {err : Int} (herr : err ≠ 0) {accepts : Key → Prop}
    (hacc : accepts = fun k ↦ (if back then IterFlag.BEFROE_KEY else .AFTER_KEY).Qualifies
      (share.secondKeyCompare k (p.key share))) :
    wp E (HaExample.moveIndex share server (Iterator.advance back) err buf) (fun code s' ↦
      ∃ next, (Sought.mk accepts back err buf).Finds share rows next ∧
        (Sought.mk accepts back err buf).Visits share s next code s' ∧
        OnPlace share s' next) s := by
  have hkeys := ho.active
  obtain ⟨_, hv⟩ := ho.exists_second (by omega)
  obtain ⟨hi, e, hst, hek⟩ := hon p rfl
  have hSe : share.EntryKey e.key := hv.slots.2 e (hv.mem_slots_of_stands hst)
  have hk := Place.entryKey hi
  have hback : (if back then IterFlag.BEFROE_KEY else .AFTER_KEY).backward = back := by
    cases back <;> rfl
  refine ho.wp_advance_second ord h1 hst herr fun code s' _ _ _ hout ↦ ?_
  subst hacc
  refine MoveOutcome.visits (q := ⟨_, back, err, buf⟩) hout hc ord ho h1
    (IterFlag.congruent_qualifies _ ord.second hk) ?_
  have hwant := (if back then IterFlag.BEFROE_KEY else .AFTER_KEY).wanted_search (k := e.key)
    ord.second hv.keys hv.sorted
  rw [hback] at hwant
  exact hwant.congr fun a ha ↦ IterFlag.qualifies_congr ord.second hSe hk (hv.keys a ha) hek

/-- A read comes to the place that the ordered list answers with. -/
theorem Request.SeeksPlace.wp_perform (hq : req.SeeksPlace share s cur q) (ho : Opened share s)
    (hc : Consistent share rows s) (ord : share.Ordered) (h1 : 1 ≤ s.activeIndex)
    (hon : OnPlace share s cur) :
    wp E (req.perform share server) (fun code s' ↦ ∃ next, q.Finds share rows next ∧
      q.Visits share s next code s' ∧ OnPlace share s' next) s := by
  have hkeys := ho.active
  obtain ⟨_, hv⟩ := ho.exists_second (by omega)
  cases hq with
  | read buf v f hlen =>
    refine ho.wp_indexRead_second ord h1 fun code s' _ _ _ hout ↦ ?_
    exact MoveOutcome.visits (q := ⟨_, f.backward, f.err, buf⟩) hout hc ord ho h1
      (f.congruent_reaches ord h1 hkeys hlen)
      (f.reaches_target ord h1 hkeys hlen ho.keyBuffer hv.keys hv.sorted)
  | first buf => exact ho.wp_startPlace hc ord h1 false (by decide)
  | last buf => exact ho.wp_startPlace hc ord h1 true (by decide)
  | next buf p hcur => exact ho.wp_advancePlace hc ord h1 (hcur ▸ hon) false (by decide) rfl
  | prev buf p hcur => exact ho.wp_advancePlace hc ord h1 (hcur ▸ hon) true (by decide) rfl

/-- Reads may be made where the cursor is. -/
theorem Request.SeeksPlace.admissible (hq : req.SeeksPlace share s cur q)
    (h1 : 1 ≤ s.activeIndex) (hon : OnPlace share s cur) :
    ¬ req.ChangesRows ∧ req.Admissible share s := by
  have hpos : ∀ p, cur = some p → Request.Positioned s := by
    intro p hcur
    obtain ⟨_, e, hst, _⟩ := hon p hcur
    unfold Request.Positioned
    rw [if_neg (by omega)]
    exact ⟨e, hst⟩
  cases hq with
  | read buf v f hlen => exact ⟨id, trivial⟩
  | first buf => exact ⟨id, trivial⟩
  | last buf => exact ⟨id, trivial⟩
  | next buf p hcur => exact ⟨id, hpos p hcur⟩
  | prev buf p hcur => exact ⟨id, hpos p hcur⟩

/-- The requests beside them may always be made. -/
theorem Request.Aside.admissible (hreq : req.Aside share) :
    ¬ req.ChangesRows ∧ req.Admissible share s := by
  cases req with
  | indexInit i => exact ⟨id, hreq⟩
  | rndPos buf pos => exact ⟨id, hreq⟩
  | _ => exact Request.Beside.admissible share hreq

/-- They leave the cursor where it is. -/
theorem Request.Aside.wp_perform (hreq : req.Aside share) (ord : share.Ordered)
    (ho : Opened share s) : wp E (req.perform share server)
      (fun _ s' ↦ s'.secondTree = s.secondTree ∧ s'.secIt = s.secIt) s := by
  cases req with
  | indexInit i => exact ⟨rfl, rfl⟩
  | rndPos buf pos =>
    refine ho.wp_rndPos ord hreq fun code s' _ honly _ _ ↦ ?_
    unfold HaExample.secondTree
    rw [honly]
    exact ⟨rfl, rfl⟩
  | _ => exact wp_mono (Request.Beside.wp_perform hreq ho) fun _ _ h ↦ h.2.2

/-- A kept cursor is on its place. -/
theorem KeepsCursor.onPlace (h : KeepsCursor s s') (hon : OnPlace share s cur) :
    OnPlace share s' cur := by
  intro p hcur
  obtain ⟨hi, e, hst, hek⟩ := hon p hcur
  obtain ⟨e', hkey, hst'⟩ := h.stands e hst
  exact ⟨hi, e', hst', hkey ▸ hek⟩

/-- In a run of reads the trees are those of the rows, and the cursor is where the place read last
is, or was. -/
theorem Visiting.sound (hs : Visiting share server rows cur s) (ord : share.Ordered) :
    Opened share s ∧ Consistent share rows s ∧ OnPlace share s cur := by
  induction hs with
  | entered saved rows s hs =>
    exact ⟨hs.opened ord, hs.consistent ord, fun _ hnone ↦ by cases hnone⟩
  | read rows cur next s s' req q code _ h1 hq hn h ih =>
    obtain ⟨ho, hc, hon⟩ := ih
    obtain ⟨hrows, hadm⟩ := hq.admissible h1 hon
    obtain ⟨next', hn', _, hon'⟩ := wp_ok (hq.wp_perform (E := fun _ ↦ True) ho hc ord h1 hon) h
    obtain ⟨ho', hc'⟩ := (RowStep.other _ s s' req code hrows hadm h).sound ord ho hc
    exact ⟨ho', hc', hn.unique hn' hc ord ▸ hon'⟩
  | aside rows cur s s' req code _ hreq h ih =>
    obtain ⟨ho, hc, hon⟩ := ih
    obtain ⟨hrows, hadm⟩ := hreq.admissible (s := s)
    obtain ⟨htree, hit⟩ := wp_ok (hreq.wp_perform (E := fun _ ↦ True) ord ho) h
    obtain ⟨ho', hc'⟩ := (RowStep.other _ s s' req code hrows hadm h).sound ord ho hc
    refine ⟨ho', hc', fun p hcur ↦ ?_⟩
    rw [htree, hit]
    exact hon p hcur
  | deleted rows cur s s' buf code _ hold h ih =>
    obtain ⟨ho, hc, hon⟩ := ih
    have hdelete : wp (fun _ ↦ True) (HaExample.deleteRow share buf)
        (fun _ s' ↦ KeepsCursor s s') s :=
      wp_deleteRow ord ho fun _ _ _ htrees hdel ↦ hdel.keepsCursor htrees
    have hstep : RowStep share server rows s _ s' := .delete rows s s' buf code hold h
    obtain ⟨ho', hc'⟩ := hstep.sound ord ho hc
    exact ⟨ho', hc', (wp_ok hdelete h).onPlace hon⟩
  | updated rows cur s s₁ s' old new code _ h₁ hold hlen hcur h _ ih =>
    obtain ⟨ho, hc, hon⟩ := ih
    obtain ⟨ho', hc'⟩ := (RowStep.update rows s s₁ s' old new code h₁ hold hlen h).sound ord ho hc
    refine ⟨ho', hc', fun p hp ↦ ?_⟩
    have hkeys := mem_indexes.mp (hon p hp).1
    have hkeep := wp_ok (wp_updateRow_keepsCursor ord ho (by omega) hcur) h
    exact hkeep.onPlace hon p hp

end Reads

section Digits

end Digits

end ExampleEngine.Handler
