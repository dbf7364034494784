import ExampleEngine.Handler.Lifecycle
import ExampleEngine.Handler.Modes
import ExampleEngine.Handler.RoundTrip
import ExampleEngine.Handler.Scan
import ExampleEngine.Handler.Updates
import ExampleEngine.Index.Reads

/-!
# Reads by the primary key

Library `Handler`. The index functions of `src/ha_example.cc:737–957` on the primary key, and
`rnd_next` and `rnd_pos` of `src/ha_example.cc:1001–1069`. Unlike on a secondary index, each comes
to the row that it asks for in every mode: the rows of a table are an ordered list, and the cursor
is put on it at either end or at any key, and moved from row to row, also when rows are deleted in
between, or the row under the cursor is rewritten.
-/

namespace ExampleEngine.Handler

open ExampleEngine.Base ExampleEngine.Storage ExampleEngine.Index

/-- The mode asks for the last of the rows that qualify, not for the first. -/
def HaRkeyFunction.backward : HaRkeyFunction → Bool
  | .HA_READ_KEY_OR_PREV => true
  | .HA_READ_BEFORE_KEY => true
  | .HA_READ_PREFIX_LAST_OR_PREV => true
  | _ => false

/-- What a read asks for: the first row, or the last one, among those with a key that is accepted,
in a buffer, or a code when there is none. -/
structure Sought where
  accepts : Key → Prop
  backward : Bool
  err : Int
  buf : Nat

/-- The row that the ordered list of rows answers with. -/
def Sought.Picks (share : TableShare) (rows : List Row) (q : Sought) : Option Row → Prop :=
  Wanted share.primaryKeyCompare (fun row ↦ share.primaryKey row.record) q.accepts q.backward
    (· ∈ rows)

/-- What a read does with this answer. -/
def Sought.Serves (share : TableShare) (s : HaExample) (q : Sought) :
    Option Row → Int → HaExample → Prop
  | none, code, _ => code = q.err
  | some row, code, s' => code = 0 ∧
      ∃ src, Begins src row.bytes ∧ s'.record = share.unpackRow src q.buf s.record

/-- What the requests ask for, with the cursor on a row or on none. -/
inductive Request.Seeks (share : TableShare) (s : HaExample) (cur : Option Row) :
    Request → Sought → Prop
  | read (buf : Nat) (key : Key) (f : HaRkeyFunction) (hk : share.PrimaryKey key) :
      Seeks share s cur (.indexRead buf key f)
        ⟨fun k ↦ f.Qualifies (share.primaryKeyCompare k key), f.backward, f.err, buf⟩
  | pos (buf : Nat) (key : Key) (hk : share.PrimaryKey key) : Seeks share s cur (.rndPos buf key)
      ⟨fun k ↦ share.primaryKeyCompare k key = 0, false, HA_ERR_KEY_NOT_FOUND, buf⟩
  | first (buf : Nat) : Seeks share s cur (.indexFirst buf)
      ⟨fun _ ↦ True, false, HA_ERR_KEY_NOT_FOUND, buf⟩
  | last (buf : Nat) : Seeks share s cur (.indexLast buf)
      ⟨fun _ ↦ True, true, HA_ERR_KEY_NOT_FOUND, buf⟩
  | next (buf : Nat) (row : Row) (hcur : cur = some row) : Seeks share s cur (.indexNext buf)
      ⟨fun k ↦ 0 < share.primaryKeyCompare k (share.primaryKey row.record), false,
        HA_ERR_END_OF_FILE, buf⟩
  | prev (buf : Nat) (row : Row) (hcur : cur = some row) : Seeks share s cur (.indexPrev buf)
      ⟨fun k ↦ share.primaryKeyCompare k (share.primaryKey row.record) < 0, true,
        HA_ERR_END_OF_FILE, buf⟩
  | scanFirst (buf : Nat) (hfirst : s.firstRow = true) : Seeks share s cur (.rndNext buf)
      ⟨fun _ ↦ True, false, HA_ERR_KEY_NOT_FOUND, buf⟩
  | scanNext (buf : Nat) (row : Row) (hfirst : s.firstRow = false) (hcur : cur = some row) :
      Seeks share s cur (.rndNext buf)
        ⟨fun k ↦ 0 < share.primaryKeyCompare k (share.primaryKey row.record), false,
          HA_ERR_END_OF_FILE, buf⟩

/-- Requests that leave the cursor where it is. -/
def Request.Beside : Request → Prop
  | .rndInit => True
  | .rndEnd => True
  | req => req.Idle

/-- A run of reads of a table by the primary key: the rows, the one that the cursor was put on last,
and the state. In between rows are deleted, and that one is rewritten with its key left as it is,
without taking block 2^18 of a file into use. -/
inductive Browsing (share : TableShare) (server : Server) :
    List Row → Option Row → HaExample → Prop
  | entered (saved rows : List Row) (s : HaExample) (hs : Lifetime share server saved rows s)
      (h0 : s.activeIndex = 0) : Browsing share server rows none s
  | read (rows : List Row) (cur next : Option Row) (s s' : HaExample) (req : Request) (q : Sought)
      (code : Int) (hs : Browsing share server rows cur s) (hq : req.Seeks share s cur q)
      (hn : q.Picks share rows next) (h : (req.perform share server).run s = .ok (code, s')) :
      Browsing share server rows next s'
  | beside (rows : List Row) (cur : Option Row) (s s' : HaExample) (req : Request) (code : Int)
      (hs : Browsing share server rows cur s) (hreq : req.Beside)
      (h : (req.perform share server).run s = .ok (code, s')) : Browsing share server rows cur s'
  | deleted (rows : List Row) (cur : Option Row) (s s' : HaExample) (buf : Nat) (code : Int)
      (hs : Browsing share server rows cur s) (hold : OldImage share rows (s.record buf))
      (h : (HaExample.deleteRow share buf).run s = .ok (code, s')) :
      Browsing share server (without share rows (s.record buf)) cur s'
  | updated (rows : List Row) (row : Row) (s s₁ s' : HaExample) (old new : Nat) (code : Int)
      (hs : Browsing share server rows (some row) s) (h₁ : s₁ = (HaExample.numbered server new s).2)
      (hold : OldImage share rows (s₁.record old))
      (hlen : (s₁.newRow share server new).bytes.length ≤ maxValueSize)
      (hkey : row.Has share (s₁.record old))
      (hkey' : row.Has share (s₁.newRow share server new).record)
      (h : (HaExample.updateRow share server old new).run s = .ok (code, s'))
      (hspare : s.Spares s') :
      Browsing share server (if code = 0 then
        s₁.newRow share server new :: without share rows (s₁.record old)
        else without share rows (s₁.record old)) (some row) s'

/-- The cursor of the primary key is where a row is, or was. -/
def On (share : TableShare) (s : HaExample) (cur : Option Row) : Prop :=
  ∀ row, cur = some row → ∃ e, Stands s.pBtree s.primaryIt e ∧
    share.primaryKeyCompare e.key (share.primaryKey row.record) = 0

section Targets

variable {share : TableShare} {es : List (Slot Key)} {k : Key}

/-- The slot that a mode of `index_read` looks for is the one it asks for. -/
theorem HaRkeyFunction.wanted_target (ord : share.Ordered) {f : HaRkeyFunction}
    (hes : ∀ e ∈ es, share.PrimaryKey e.key) (hs : Sorted share.primaryKeyCompare Slot.key es) :
    Wanted share.primaryKeyCompare Slot.key (fun a ↦ f.Qualifies (share.primaryKeyCompare a k))
      f.backward (· ∈ es) (f.primaryTarget share k es) := by
  cases f with
  | other => exact fun _ _ ↦ id
  | _ => exact IterFlag.wanted_search _ ord.primary hes hs

/-- What a mode of `index_read` accepts does not tell equal keys apart. -/
theorem HaRkeyFunction.congruent_qualifies (ord : share.Ordered) {f : HaRkeyFunction}
    (hk : share.PrimaryKey k) : Congruent share.primaryKeyCompare share.PrimaryKey
      fun a ↦ f.Qualifies (share.primaryKeyCompare a k) := by
  cases f with
  | HA_READ_KEY_EXACT => exact IterFlag.EXACT_KEY.congruent_qualifies ord.primary hk
  | HA_READ_KEY_OR_NEXT => exact IterFlag.KEY_OR_NEXT.congruent_qualifies ord.primary hk
  | HA_READ_AFTER_KEY => exact IterFlag.AFTER_KEY.congruent_qualifies ord.primary hk
  | HA_READ_BEFORE_KEY => exact IterFlag.BEFROE_KEY.congruent_qualifies ord.primary hk
  | other => exact fun _ _ _ _ _ ↦ id
  | _ => exact IterFlag.KEY_OR_PREV.congruent_qualifies ord.primary hk

end Targets

section Reads

variable {share : TableShare} {server : Server} {s s' : HaExample} {rows : List Row}
  {cur next next' : Option Row} {req : Request} {q : Sought} {target : Option (Slot Key)}
  {code : Int} {E : Fault → Prop}

/-- Nothing that is asked for tells equal keys apart. -/
theorem Request.Seeks.congruent (hq : req.Seeks share s cur q) (ord : share.Ordered) :
    Congruent share.primaryKeyCompare share.PrimaryKey q.accepts := by
  have hk : ∀ row : Row, share.PrimaryKey (share.primaryKey row.record) :=
    fun _ ↦ TableShare.primaryKey_primaryKey
  cases hq with
  | read buf key f hkey => exact f.congruent_qualifies ord hkey
  | pos buf key hkey => exact IterFlag.EXACT_KEY.congruent_qualifies ord.primary hkey
  | first buf => exact fun _ _ _ _ _ _ ↦ trivial
  | last buf => exact fun _ _ _ _ _ _ ↦ trivial
  | next buf row hcur => exact IterFlag.AFTER_KEY.congruent_qualifies ord.primary (hk row)
  | prev buf row hcur => exact IterFlag.BEFROE_KEY.congruent_qualifies ord.primary (hk row)
  | scanFirst buf hfirst => exact fun _ _ _ _ _ _ ↦ trivial
  | scanNext buf row hfirst hcur =>
    exact IterFlag.AFTER_KEY.congruent_qualifies ord.primary (hk row)

/-- The rows have one answer. -/
theorem Sought.Picks.unique (h : q.Picks share rows next) (h' : q.Picks share rows next')
    (hc : Consistent share rows s) (ord : share.Ordered) : next = next' :=
  Wanted.unique h h' ord.primary (fun _ _ ↦ TableShare.primaryKey_primaryKey)
    fun _ _ hrow hrow' heq ↦ hc.eq_of_has ord hrow hrow' heq

/-- A cursor on the slot wanted is on the row that the rows answer with. -/
theorem FetchOutcome.serves (h : FetchOutcome share s q.buf q.err target code s')
    (hc : Consistent share rows s) (ord : share.Ordered) (ho : Opened share s)
    (hA : Congruent share.primaryKeyCompare share.PrimaryKey q.accepts)
    (hw : Wanted share.primaryKeyCompare Slot.key q.accepts q.backward (· ∈ s.pBtree.live)
      target) :
    ∃ next, q.Picks share rows next ∧ q.Serves share s next code s' ∧ On share s' next := by
  have hS := ho.primary.keys
  have hS' : ∀ row ∈ rows, share.PrimaryKey (share.primaryKey row.record) :=
    fun _ _ ↦ TableShare.primaryKey_primaryKey
  have hslot : ∀ row ∈ rows, ∃ e, e ∈ s.pBtree.live ∧
      share.primaryKeyCompare e.key (share.primaryKey row.record) = 0 := by
    intro row hrow
    obtain ⟨e, he, hek, _⟩ := hc.live row hrow
    exact ⟨e, he, hek⟩
  cases h with
  | nowhere =>
    exact ⟨none, hw.transfer_none ord.primary hS hS' hA hslot, rfl, fun _ hnone ↦ by cases hnone⟩
  | «at» e p _ he hp hrec hst =>
    obtain ⟨row, hrow, hek⟩ := hc.row e he
    obtain ⟨src, hsrc, hbytes⟩ := hc.bytes ord ho he hrow hek
    rw [hp, Option.some.injEq] at hsrc
    subst hsrc
    exact ⟨some row, hw.transfer_some ord.primary hS hS' hA hslot hrow hek, ⟨rfl, p, hbytes, hrec⟩,
      fun row' hrow' ↦ ⟨e, hst, Option.some.inj hrow' ▸ hek⟩⟩

/-- Going to an end of the rows. -/
theorem Opened.wp_startPrimary (ho : Opened share s) (hc : Consistent share rows s)
    (ord : share.Ordered) (h0 : s.activeIndex = 0) (back : Bool) {buf : Nat} {err : Int}
    (herr : err ≠ 0) :
    wp E (HaExample.moveIndex share server (Iterator.start back) err buf) (fun code s' ↦
      s'.activeIndex = 0 ∧ ∃ next, (Sought.mk (fun _ ↦ True) back err buf).Picks share rows next ∧
        (Sought.mk (fun _ ↦ True) back err buf).Serves share s next code s' ∧ On share s' next)
      s := by
  refine ho.wp_moveIndex_primary h0 herr _ (fun e he ↦ BTree.mem_live_of_head he)
    ho.primary.wp_start fun code s' _ honly _ hout ↦ ⟨by rw [honly]; exact h0, ?_⟩
  exact FetchOutcome.serves (q := ⟨fun _ ↦ True, back, err, buf⟩) hout hc ord ho
    (fun _ _ _ _ _ _ ↦ trivial) (ho.primary.sorted.wanted_head ord.primary ho.primary.keys)

/-- Moving on from a row. -/
theorem Opened.wp_advancePrimary (ho : Opened share s) (hc : Consistent share rows s)
    (ord : share.Ordered) (h0 : s.activeIndex = 0) {row : Row} (hon : On share s (some row))
    (back : Bool) {buf : Nat} {err : Int} (herr : err ≠ 0) {accepts : Key → Prop}
    (hacc : accepts = fun k ↦ (if back then IterFlag.BEFROE_KEY else .AFTER_KEY).Qualifies
      (share.primaryKeyCompare k (share.primaryKey row.record))) :
    wp E (HaExample.moveIndex share server (Iterator.advance back) err buf) (fun code s' ↦
      s'.activeIndex = 0 ∧ ∃ next, (Sought.mk accepts back err buf).Picks share rows next ∧
        (Sought.mk accepts back err buf).Serves share s next code s' ∧ On share s' next) s := by
  obtain ⟨e, hst, hek⟩ := hon row rfl
  obtain ⟨hslots, hkeys⟩ := ho.primary.slots
  have hSe : share.PrimaryKey e.key := hkeys e (ho.primary.mem_slots_of_stands hst)
  have hk : share.PrimaryKey (share.primaryKey row.record) := TableShare.primaryKey_primaryKey
  have hback : (if back then IterFlag.BEFROE_KEY else .AFTER_KEY).backward = back := by
    cases back <;> rfl
  refine ho.wp_moveIndex_primary h0 herr _ (fun e he ↦ (IterFlag.of_search he).1)
    (ho.primary.wp_advance ord.primary hst) fun code s' _ honly _ hout ↦
      ⟨by rw [honly]; exact h0, ?_⟩
  subst hacc
  refine FetchOutcome.serves (q := ⟨_, back, err, buf⟩) hout hc ord ho
    (IterFlag.congruent_qualifies _ ord.primary hk) ?_
  have hwant := (if back then IterFlag.BEFROE_KEY else .AFTER_KEY).wanted_search (k := e.key)
    ord.primary ho.primary.keys ho.primary.sorted
  rw [hback] at hwant
  exact hwant.congr fun a ha ↦
    IterFlag.qualifies_congr ord.primary hSe hk (ho.primary.keys a ha) hek

/-- A read comes to the row that the rows answer with. -/
theorem Request.Seeks.wp_perform (hq : req.Seeks share s cur q) (ho : Opened share s)
    (hc : Consistent share rows s) (ord : share.Ordered) (h0 : s.activeIndex = 0)
    (hon : On share s cur) :
    wp E (req.perform share server) (fun code s' ↦ s'.activeIndex = 0 ∧
      ∃ next, q.Picks share rows next ∧ q.Serves share s next code s' ∧ On share s' next) s := by
  have hA := hq.congruent ord
  have hkeys := ho.primary.keys
  have hsorted := ho.primary.sorted
  have hrow : ∀ row : Row, share.PrimaryKey (share.primaryKey row.record) :=
    fun _ ↦ TableShare.primaryKey_primaryKey
  cases hq with
  | read buf key f hk =>
    have htake : (memcpy s.keyBuffer key).take share.primaryKeyLength =
        key.take share.primaryKeyLength := List.take_append_of_le_length hk
    refine ho.wp_indexRead_target ord h0 fun code s' _ honly _ hout ↦ ⟨by rw [honly]; exact h0, ?_⟩
    refine FetchOutcome.serves (q := ⟨_, f.backward, f.err, buf⟩) hout hc ord ho hA
      ((f.wanted_target ord hkeys hsorted).congr fun e _ ↦ ?_)
    rw [TableShare.primaryKeyCompare_congr rfl htake]
  | pos buf key hk =>
    refine ho.wp_rndPos ord hk fun code s' _ honly _ hout ↦ ⟨by rw [honly]; exact h0, ?_⟩
    cases hout with
    | missing _ hne =>
      exact FetchOutcome.serves (q := ⟨_, false, _, buf⟩) (.nowhere _) hc ord ho hA hne
    | found _ e p he hek hp hrec hst =>
      refine FetchOutcome.serves (q := ⟨_, false, HA_ERR_KEY_NOT_FOUND, buf⟩)
        (.at e p _ he hp hrec hst) hc ord ho hA ⟨he, hek, fun e' he' hek' ↦ ?_⟩
      exact Int.le_of_eq (ord.primary.equal_trans (hkeys e he) hk (hkeys e' he') hek
        (ord.primary.symm (hkeys e' he') hk hek'))
  | first buf => exact ho.wp_startPrimary hc ord h0 false (by decide)
  | last buf => exact ho.wp_startPrimary hc ord h0 true (by decide)
  | next buf row hcur =>
    exact ho.wp_advancePrimary hc ord h0 (hcur ▸ hon) false (by decide) rfl
  | prev buf row hcur =>
    exact ho.wp_advancePrimary hc ord h0 (hcur ▸ hon) true (by decide) rfl
  | scanFirst buf hfirst =>
    have ho' : Opened share { s with firstRow := false } := { ho with }
    have hc' : Consistent share rows { s with firstRow := false } := { hc with }
    change wp E (HaExample.rndNext share server buf) _ s
    unfold HaExample.rndNext
    rw [wp_bind, wp_get, if_pos hfirst, wp_bind, wp_modify]
    exact ho'.wp_startPrimary hc' ord h0 false (by decide)
  | scanNext buf row hfirst hcur =>
    change wp E (HaExample.rndNext share server buf) _ s
    unfold HaExample.rndNext
    rw [wp_bind, wp_get, if_neg (by rw [hfirst]; exact Bool.false_ne_true)]
    exact ho.wp_advancePrimary hc ord h0 (hcur ▸ hon) false (by decide) rfl

/-- Reads may be made where the cursor is. -/
theorem Request.Seeks.admissible (hq : req.Seeks share s cur q) (h0 : s.activeIndex = 0)
    (hon : On share s cur) : ¬ req.ChangesRows ∧ req.Admissible share s := by
  have hpos : ∀ row, cur = some row → Request.Positioned s := by
    intro row hcur
    obtain ⟨e, hst, _⟩ := hon row hcur
    unfold Request.Positioned
    rw [if_pos h0]
    exact ⟨e, hst⟩
  cases hq with
  | read buf key f hk => exact ⟨id, trivial⟩
  | pos buf key hk => exact ⟨id, hk⟩
  | first buf => exact ⟨id, trivial⟩
  | last buf => exact ⟨id, trivial⟩
  | next buf row hcur => exact ⟨id, hpos row hcur⟩
  | prev buf row hcur => exact ⟨id, hpos row hcur⟩
  | scanFirst buf hfirst => exact ⟨id, .inl hfirst⟩
  | scanNext buf row hfirst hcur => exact ⟨id, .inr (hpos row hcur)⟩

/-- The requests beside them may always be made. -/
theorem Request.Beside.admissible (share : TableShare) (hreq : req.Beside) :
    ¬ req.ChangesRows ∧ req.Admissible share s := by
  cases req with
  | rndInit => exact ⟨id, trivial⟩
  | rndEnd => exact ⟨id, trivial⟩
  | _ => exact Request.Idle.harmless hreq

/-- They leave the trees and the cursors as they are, and the primary key active. -/
theorem Request.Beside.wp_perform (hreq : req.Beside) (ho : Opened share s) :
    wp E (req.perform share server) (fun _ s' ↦ (s.activeIndex = 0 → s'.activeIndex = 0) ∧
      (s'.pBtree = s.pBtree ∧ s'.primaryIt = s.primaryIt) ∧
      s'.secondTree = s.secondTree ∧ s'.secIt = s.secIt) s := by
  cases req with
  | info =>
    change wp E (HaExample.info >>= fun _ ↦ pure 0) _ s
    unfold HaExample.info
    rw [wp_bind, wp_onPrimary]
    exact wp_mono ho.primary.wp_countOfItems fun _ t ht ↦ ⟨id, ⟨ht.1, rfl⟩, rfl, rfl⟩
  | extra operation => cases operation <;> exact ⟨id, ⟨rfl, rfl⟩, rfl, rfl⟩
  | rndInit => exact ⟨fun _ ↦ rfl, ⟨rfl, rfl⟩, rfl, rfl⟩
  | rndEnd => exact ⟨id, ⟨rfl, rfl⟩, rfl, rfl⟩
  | position buf => exact ⟨id, ⟨rfl, rfl⟩, rfl, rfl⟩
  | fill buf r => exact ⟨id, ⟨rfl, rfl⟩, rfl, rfl⟩
  | number b => exact ⟨id, ⟨rfl, rfl⟩, rfl, rfl⟩
  | _ => exact hreq.elim

/-- Deleting a row leaves the cursor in its place. -/
theorem DeleteOutcome.on {r : Record} (h : DeleteOutcome share s r code s')
    (hkeep : OnlyTrees s s') (hon : On share s cur) : On share s' cur := by
  intro row hcur
  obtain ⟨e, hst, hek⟩ := hon row hcur
  rw [hkeep.cursors.2.2]
  cases h with
  | missing _ hsame _ _ => exact ⟨e, hsame.stands hst, hek⟩
  | removed _ b hrem _ =>
    obtain ⟨e', hkey, hst'⟩ := hrem.stands _ _ hst
    refine ⟨e', hst', ?_⟩
    rwa [show e'.key = e.key from congrArg Prod.fst hkey]

/-- So does rewriting the row that it is on, with its key left as it is. -/
theorem UpdateOutcome.on {row : Row} {old new : Nat}
    (h : UpdateOutcome share server s old new code s') (ord : share.Ordered) (ho : Opened share s)
    (ho' : Opened share s') (hkey : row.Has share (s.record old))
    (hkey' : row.Has share (s.newRow share server new).record) (hon : On share s (some row)) :
    On share s' (some row) := by
  have hk : ∀ r, share.PrimaryKey (share.primaryKey r) :=
    fun _ ↦ TableShare.primaryKey_primaryKey
  intro row' hcur
  obtain ⟨e, hst, hek⟩ := hon row rfl
  obtain rfl := Option.some.inj hcur
  have hSe : share.PrimaryKey e.key :=
    ho.primary.slots.2 e (ho.primary.mem_slots_of_stands hst)
  have haside : Aside share e.key s.pBtree s'.pBtree :=
    h.aside ord ho ho' hSe (ord.primary.equal_trans hSe (hk _) (hk _) hek hkey)
      (ord.primary.equal_trans hSe (hk _) (hk _) hek hkey')
  obtain ⟨e', he', hst'⟩ := haside.stands _ e rfl hst
  rw [h.cursors.2.2]
  exact ⟨e', hst', he' ▸ hek⟩

/-- In a run of reads the trees are those of the rows, and the cursor is where the row read last is,
or was. -/
theorem Browsing.sound (hs : Browsing share server rows cur s) (ord : share.Ordered) :
    Opened share s ∧ Consistent share rows s ∧ s.activeIndex = 0 ∧ On share s cur := by
  induction hs with
  | entered saved rows s hs h0 =>
    exact ⟨hs.opened ord, hs.consistent ord, h0, fun _ hnone ↦ by cases hnone⟩
  | read rows cur next s s' req q code _ hq hn h ih =>
    obtain ⟨ho, hc, h0, hon⟩ := ih
    obtain ⟨hrows, hadm⟩ := hq.admissible h0 hon
    obtain ⟨h0', next', hn', _, hon'⟩ :=
      wp_ok (hq.wp_perform (E := fun _ ↦ True) ho hc ord h0 hon) h
    obtain ⟨ho', hc'⟩ := (RowStep.other _ s s' req code hrows hadm h).sound ord ho hc
    exact ⟨ho', hc', h0', hn.unique hn' hc ord ▸ hon'⟩
  | beside rows cur s s' req code _ hreq h ih =>
    obtain ⟨ho, hc, h0, hon⟩ := ih
    obtain ⟨hrows, hadm⟩ := hreq.admissible (s := s) share
    obtain ⟨h0', ⟨hp, hit⟩, -⟩ := wp_ok (hreq.wp_perform (E := fun _ ↦ True) ho) h
    obtain ⟨ho', hc'⟩ := (RowStep.other _ s s' req code hrows hadm h).sound ord ho hc
    refine ⟨ho', hc', h0' h0, fun row hrow ↦ ?_⟩
    rw [hp, hit]
    exact hon row hrow
  | deleted rows cur s s' buf code _ hold h ih =>
    obtain ⟨ho, hc, h0, hon⟩ := ih
    have hdelete : wp (fun _ ↦ True) (HaExample.deleteRow share buf)
        (fun _ s' ↦ s'.activeIndex = 0 ∧ On share s' cur) s :=
      wp_deleteRow ord ho fun code s' _ hkeep hdel ↦ ⟨hkeep.cursors.1.trans h0, hdel.on hkeep hon⟩
    obtain ⟨h0', hon'⟩ := wp_ok hdelete h
    have hstep : RowStep share server rows s _ s' := .delete rows s s' buf code hold h
    obtain ⟨ho', hc'⟩ := hstep.sound ord ho hc
    exact ⟨ho', hc', h0', hon'⟩
  | updated rows row s s₁ s' old new code _ h₁ hold hlen hkey hkey' h _ ih =>
    obtain ⟨ho, hc, h0, hon⟩ := ih
    have hnum : OnlyServer s s₁ := h₁ ▸ onlyServer_numbered
    have hupdate : wp Beyond (HaExample.updateRow share server old new)
        (fun _ s' ↦ s'.activeIndex = 0 ∧ On share s' (some row)) s := by
      refine wp_updateRow ord ho fun code s' ho' hup ↦ ?_
      rw [← h₁] at hup
      refine ⟨hup.cursors.1.trans (hnum.cursors.1.trans h0),
        hup.on ord (hnum.opened ho) ho' hkey hkey' fun row' hrow' ↦ ?_⟩
      rw [hnum.pBtree, hnum.cursors.2.2]
      exact hon row' hrow'
    obtain ⟨h0', hon'⟩ := wp_ok hupdate h
    obtain ⟨ho', hc'⟩ := (RowStep.update rows s s₁ s' old new code h₁ hold hlen h).sound ord ho hc
    exact ⟨ho', hc', h0', hon'⟩

end Reads

section Digits

end Digits

end ExampleEngine.Handler
