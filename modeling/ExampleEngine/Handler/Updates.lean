import ExampleEngine.Handler.Counting
import ExampleEngine.Handler.Crossing
import ExampleEngine.Index.Shifts

/-!
# Scans of an index with updates

Library `Handler`. `update_row` of `src/ha_example.cc:648–660` puts entries into the tree that the
cursor of a secondary index is in. A scan that rewrites the rows it comes to returns those of its
index once and in order, as long as the new entries do not move the slot under the cursor.
-/

namespace ExampleEngine.Handler

open ExampleEngine.Base ExampleEngine.Storage ExampleEngine.Index

/-- `update_row` leaves the cursor on entries on its key: the keys of the new row that enter its
leaf come after it, and the leaf has room for them or the cursor is in the half that stays. -/
def SparesCursor (share : TableShare) (server : Server) (s : HaExample) (old new : Nat) : Prop :=
  let s₁ := (HaExample.numbered server new s).2
  RowLive share s₁ (s₁.record old) → s₁.unprepared share server new = none →
    BTree.Spares share.second ((HaExample.indexes share).map fun j ↦
      share.packKey j (s₁.newRow share server new).record) s.secIt s.secondTree

instance (share : TableShare) (server : Server) (s : HaExample) (old new : Nat) :
    Decidable (SparesCursor share server s old new) :=
  inferInstanceAs (Decidable (_ → _))

/-- What the server may do between two rows that concerns neither rows nor cursors. -/
def Request.Idle : Request → Prop
  | .position _ => True
  | .info => True
  | .extra _ => True
  | .fill _ _ => True
  | .number _ => True
  | _ => False

/-- A scan of a secondary index: the rows of the table, those returned so far as they were
returned, and the state. In between the row returned last is rewritten under a condition, with its
primary key and the columns of this index left as they are. -/
inductive IndexScan (share : TableShare) (server : Server) (W : HaExample → Nat → Prop)
    (G : HaExample → Nat → Nat → Prop) (rows₀ : List Row) (s₀ : HaExample) (start : Request) :
    List Row → List Row → HaExample → Prop
  | start (s : HaExample) (buf : Nat) (row : Row)
      (hstart : start = .indexFirst buf ∨ ∃ key f, start = .indexRead buf key f)
      (h : (start.perform share server).run s₀ = .ok (0, s)) (hrow : row ∈ rows₀)
      (hr : ReturnsRow share s₀ buf row s) :
      IndexScan share server W G rows₀ s₀ start rows₀ [row] s
  | next (rows done : List Row) (s s' : HaExample) (buf : Nat) (row : Row)
      (hs : IndexScan share server W G rows₀ s₀ start rows done s)
      (h : (HaExample.indexNext share server buf).run s = .ok (0, s')) (hrow : row ∈ rows)
      (hr : ReturnsRow share s buf row s') :
      IndexScan share server W G rows₀ s₀ start rows (done ++ [row]) s'
  | idle (rows done : List Row) (s s' : HaExample) (req : Request) (code : Int)
      (hs : IndexScan share server W G rows₀ s₀ start rows done s) (hreq : req.Idle)
      (h : (req.perform share server).run s = .ok (code, s')) :
      IndexScan share server W G rows₀ s₀ start rows done s'
  | update (rows done : List Row) (s s₁ s' : HaExample) (old new : Nat) (code : Int) (row : Row)
      (hs : IndexScan share server W G rows₀ s₀ start rows done s)
      (h₁ : s₁ = (HaExample.numbered server new s).2) (hw : W s₁ new)
      (hold : OldImage share rows (s₁.record old))
      (hlen : (s₁.newRow share server new).bytes.length ≤ maxValueSize)
      (hlast : done.getLast? = some row)
      (hkey : share.secondKeyCompare (share.packKey s₀.activeIndex row.record)
        (share.packKey s₀.activeIndex (s₁.record old)) = 0)
      (hkey' : share.secondKeyCompare (share.packKey s₀.activeIndex row.record)
        (share.packKey s₀.activeIndex (s₁.newRow share server new).record) = 0)
      (hG : G s old new)
      (h : (HaExample.updateRow share server old new).run s = .ok (code, s')) :
      IndexScan share server W G rows₀ s₀ start (if code = 0 then
        s₁.newRow share server new :: without share rows (s₁.record old)
        else without share rows (s₁.record old)) done s'

/-- The cursor on entries stays where it is, on its key if it was on one. -/
structure KeepsCursor (s s' : HaExample) : Prop where
  active : s'.activeIndex = s.activeIndex
  it : s'.secIt = s.secIt
  stands : ∀ e, Stands s.secondTree s.secIt e →
    ∃ e', e'.key = e.key ∧ Stands s'.secondTree s'.secIt e'

section Cursors

variable {share : TableShare} {server : Server} {s s₁ s' : HaExample} {buf : Nat} {code : Int}
  {r : Record}

theorem KeepsCursor.trans (h : KeepsCursor s s₁) (h' : KeepsCursor s₁ s') : KeepsCursor s s' where
  active := h'.active.trans h.active
  it := h'.it.trans h.it
  stands e hst := by
    obtain ⟨e₁, he₁, hst₁⟩ := h.stands e hst
    obtain ⟨e', he', hst'⟩ := h'.stands e₁ hst₁
    exact ⟨e', he'.trans he₁, hst'⟩

/-- Where the tree of entries is untouched, the cursor stays. -/
theorem KeepsCursor.of_eq (ha : s'.activeIndex = s.activeIndex) (hi : s'.secIt = s.secIt)
    (ht : s'.sBtree = s.sBtree) : KeepsCursor s s' where
  active := ha
  it := hi
  stands e hst := by
    unfold HaExample.secondTree at *
    exact ⟨e, rfl, by rwa [ht, hi]⟩

theorem OnlyServer.keepsCursor (h : OnlyServer s s') : KeepsCursor s s' :=
  .of_eq (by rw [h]) (by rw [h]) (by rw [h])

/-- Deleting a row leaves its entries' slots in place. -/
theorem DeleteOutcome.keepsCursor (h : DeleteOutcome share s r code s') (hkeep : OnlyTrees s s') :
    KeepsCursor s s' := by
  have hit : s'.secIt = s.secIt := by rw [hkeep]
  have hact : s'.activeIndex = s.activeIndex := by rw [hkeep]
  cases h with
  | missing _ _ hsec => exact .of_eq hact hit hsec
  | removed _ b _ hloop =>
    refine ⟨hact, hit, fun e hst ↦ ?_⟩
    have hkeeps : ∃ e', e'.key = e.key ∧ Stands s'.secondTree s.secIt e' := by
      refine hloop.rec_on_steps (P := fun t ↦ ∃ e', e'.key = e.key ∧ Stands t s.secIt e')
        ?_ ?_ ⟨e, rfl, hst⟩
      · rintro i _ t t' hrem ⟨e₁, he₁, hst₁⟩
        obtain ⟨e', he', hst'⟩ := hrem.stands _ _ hst₁
        exact ⟨e', (congrArg Prod.fst he').trans he₁, hst'⟩
      · rintro i _ t t' ⟨_, hsame⟩ ⟨e₁, he₁, hst₁⟩
        exact ⟨e₁, he₁, hsame.stands hst₁⟩
    rwa [hit]

/-- `delete_row` leaves the keys of every leaf. -/
theorem wp_deleteEntries_leaves {E : Fault → Prop} (ord : share.Ordered) {idxs : List Nat}
    (hidxs : ∀ i ∈ idxs, 1 ≤ i ∧ i < share.keys) (h : Opened share s) :
    wp E (HaExample.deleteEntries share buf idxs)
      (fun _ s' ↦ BTree.SameLeaves s.secondTree s'.secondTree) s := by
  induction idxs generalizing s with
  | nil => exact fun _ ↦ rfl
  | cons i idxs ih =>
    obtain ⟨h1, hi⟩ := hidxs i (by simp)
    have hkeys : 1 < share.keys := by omega
    obtain ⟨hsome, hv⟩ := h.exists_second hkeys
    have hkey := (TableShare.packKey_entryKey (s.record buf) h1 hi).1
    have hlen := Nat.le_of_eq (length_packKey (r := s.record buf) hi).symm
    unfold HaExample.deleteEntries
    simp only [wp_bind, wp_modify, wp_get, wp_onSecond, hsome]
    refine wp_mono (wp_locateExact hv ord.second hkey) ?_
    rintro r t₁ ⟨hv₁, hsame, ⟨hr, hne⟩ | ⟨hr, e, he, hek, hst⟩⟩
    · rw [if_pos hr, wp_pure]
      exact hsame.leaves
    · rw [if_neg (by omega), wp_bind, wp_onSecond]
      have hremove : wp E r.2.remove (fun _ t₂ ↦ BTree.Valid share.second share.EntryKey t₂) t₁ :=
        wp_removeFound hv₁ ord.second hkey hsame he hek hst fun _ hv₂ _ ↦ hv₂
      refine wp_mono (wp_and hremove (hv₁.wp_remove_leaves hst)) ?_
      rintro _ t₂ ⟨hv₂, hleaves⟩
      exact wp_mono (ih (fun j hj ↦ hidxs j (by simp [hj])) (h.withSecond hkeys hv₂ hlen))
        fun _ _ hleaves' ↦ (hsame.leaves.trans hleaves).trans hleaves'

/-- `delete_row` leaves the keys of every leaf of the tree of entries. -/
theorem wp_deleteRow_leaves {E : Fault → Prop} (ord : share.Ordered) (h : Opened share s) :
    wp E (HaExample.deleteRow share buf)
      (fun _ s' ↦ BTree.SameLeaves s.secondTree s'.secondTree) s := by
  unfold HaExample.deleteRow
  simp only [wp_bind, wp_modify, wp_get, wp_onPrimary]
  refine wp_mono (wp_locateExact h.primary ord.primary TableShare.primaryKey_packKey) ?_
  rintro res t₁ ⟨hv₁, hsame, ⟨hr, hne⟩ | ⟨hr, e, he, hek, hst⟩⟩
  · rw [if_pos hr, wp_pure]
    exact fun _ ↦ rfl
  · rw [if_neg (by omega), wp_bind, wp_onPrimary]
    refine wp_removeFound hv₁ ord.primary TableShare.primaryKey_packKey hsame he hek hst
      fun t₂ hv₂ _ ↦ ?_
    have ho : Opened share { s with pBtree := t₂, ref := share.packKey 0 (s.record buf) } :=
      { h with primary := hv₂ }
    exact wp_deleteEntries_leaves ord (fun i hi ↦ mem_indexes.mp hi) ho

/-- The keys of one record come in the order of their indexes. -/
theorem packKeys_pairwise (ord : share.Ordered) :
    (HaExample.indexes share).Pairwise fun j j' ↦
      share.second.cmp (share.packKey j r) (share.packKey j' r) < 0 := by
  refine List.Pairwise.imp_of_mem (fun {j j'} hj hj' hlt ↦ ?_) List.pairwise_lt_range'
  obtain ⟨hj1, hjk⟩ := mem_indexes.mp hj
  obtain ⟨hj1', hjk'⟩ := mem_indexes.mp hj'
  obtain ⟨hS, hidx⟩ := TableShare.packKey_entryKey r hj1 hjk
  obtain ⟨hS', hidx'⟩ := TableShare.packKey_entryKey r hj1' hjk'
  by_contra hge
  have hle : share.secondKeyCompare (share.packKey j' r) (share.packKey j r) ≤ 0 :=
    Int.not_lt.mp fun hpos ↦ hge ((ord.second.flip hS hS').mpr hpos)
  have := hS.indexOf_le hle
  omega

/-- Writing a row where its keys spare an iterator leaves that on its key. -/
theorem WriteOutcome.stands {row : List UInt8} (h : WriteOutcome share s r row code s')
    (ord : share.Ordered) (ho : Opened share s) (hkeys : 1 < share.keys) {t₀ : BTree Key}
    {it : Iterator} {e : Slot Key}
    (hsp : BTree.Spares share.second
      ((HaExample.indexes share).map fun j ↦ share.packKey j r) it t₀)
    (hv₀ : BTree.Valid share.second share.EntryKey t₀) (hs₀ : Stands t₀ it e)
    (hslots : s.secondTree.slots.map Slot.key = t₀.slots.map Slot.key)
    (hleaves : BTree.SameLeaves t₀ s.secondTree)
    (hs : ∃ e', e'.key = e.key ∧ Stands s.secondTree it e') :
    ∃ e', e'.key = e.key ∧ Stands s'.secondTree it e' := by
  cases h with
  | refused _ _ _ _ hsec =>
    unfold HaExample.secondTree at *
    rwa [hsec]
  | written _ b _ hloop =>
    refine hsp.stands hv₀ hs₀ (ho.exists_second hkeys).2 hslots hleaves hs ord.second
      (fun j hj ↦ ?_) (packKeys_pairwise ord) hloop (fun j t t' hadds ↦ ?_) fun j t t' h ↦ h.2
    · obtain ⟨hj1, hjk⟩ := mem_indexes.mp hj
      exact (TableShare.packKey_entryKey r hj1 hjk).1
    · unfold Adds at hadds
      cases hadds with
      | done _ w _ _ _ _ hup => exact ⟨w, hup⟩

/-- A deleted row leaves the keys of its entries in the slots. -/
theorem DeleteOutcome.slots (h : DeleteOutcome share s r code s') :
    s'.secondTree.slots.map Slot.key = s.secondTree.slots.map Slot.key := by
  cases h with
  | missing _ _ hsec =>
    unfold HaExample.secondTree
    rw [hsec]
  | removed _ b _ hloop =>
    refine hloop.rec_on_steps (P := fun t ↦ t.slots.map Slot.key =
      s.secondTree.slots.map Slot.key) ?_ ?_ rfl
    · intro i _ t t' hrem h
      have := congrArg (List.map Prod.fst) hrem.slots
      rw [List.map_map, List.map_map] at this
      exact Eq.trans this h
    · rintro i _ t t' ⟨_, hsame⟩ h
      rwa [hsame.slots]

/-- `update_row`, where it spares the cursor. -/
theorem wp_updateRow_keepsCursor (ord : share.Ordered) (h : Opened share s)
    (hkeys : 1 < share.keys) {old new : Nat} (hsp : SparesCursor share server s old new) :
    wp Beyond (HaExample.updateRow share server old new) (fun _ s' ↦ KeepsCursor s s') s := by
  have hnum : OnlyServer s (HaExample.numbered server new s).2 := onlyServer_numbered
  have ho₁ := hnum.opened h
  have hsecond : (HaExample.numbered server new s).2.secondTree = s.secondTree := hnum.secondTree
  unfold HaExample.updateRow
  simp only [wp_bind, wp_modifyGet]
  have hdelete : wp Beyond (HaExample.deleteRow share old) (fun code s₂ ↦ Opened share s₂ ∧
      OnlyTrees (HaExample.numbered server new s).2 s₂ ∧
      DeleteOutcome share (HaExample.numbered server new s).2
        ((HaExample.numbered server new s).2.record old) code s₂)
      (HaExample.numbered server new s).2 :=
    wp_deleteRow ord ho₁ fun _ _ ho₂ htrees hdel ↦ ⟨ho₂, htrees, hdel⟩
  refine wp_mono (wp_and hdelete (wp_deleteRow_leaves ord ho₁)) ?_
  rintro code s₂ ⟨⟨ho₂, htrees, hdel⟩, hleaves⟩
  rw [hsecond] at hleaves
  have hkeep : KeepsCursor s s₂ := hnum.keepsCursor.trans (hdel.keepsCursor htrees)
  split
  · exact hkeep
  next hcode =>
  refine wp_writeRow ord ho₂ (fun _ _ _ _ honly ↦ hkeep.trans honly.keepsCursor) ?_
  intro code' s' hgo ho' htrees' hwrite
  have hprep : OnlyServer s₂ (s₂.prepared share server new) := onlyServer_prepared
  have hkeep' : KeepsCursor s (s₂.prepared share server new) := hkeep.trans hprep.keepsCursor
  have hit : s'.secIt = s.secIt := by
    rw [← hkeep'.it, htrees']
  have hlive : RowLive share (HaExample.numbered server new s).2
      ((HaExample.numbered server new s).2.record old) := by
    obtain ⟨w, hj⟩ := (hdel.of_zero (not_not.mp hcode)).1.joins
    obtain ⟨e, _, hek, hmem⟩ := hj.exists_mem
    exact ⟨e, (hmem e).mpr (.inl rfl), hek⟩
  have hspares := hsp hlive ((htrees.prepared share server new).1.symm.trans hgo)
  rw [← htrees.newRow_eq] at hspares
  refine ⟨?_, hit, fun e hst ↦ ?_⟩
  · rw [← hkeep'.active, htrees']
  · rw [hit]
    refine hwrite.stands ord (hprep.opened ho₂) hkeys hspares (h.exists_second hkeys).2 hst ?_ ?_ ?_
    · rw [hprep.secondTree, hdel.slots, hsecond]
    · rw [hprep.secondTree]
      exact hleaves
    · have := hkeep'.stands e hst
      rwa [hkeep'.it] at this

end Cursors

/-- The entries of an index above a key. -/
def entriesAbove (share : TableShare) (i : Nat) (k : Key) (s : HaExample) : List (Slot Key) :=
  s.entries.filter fun e ↦ indexOf e.key = i ∧ 0 < share.secondKeyCompare e.key k

section Above

variable {share : TableShare} {server : Server} {s s' : HaExample} {code : Int} {r : Record}
  {row : List UInt8} {p : Slot Key → Bool} {i : Nat} {k : Key} {idxs : List Nat} {b : Bool}
  {t t' : BTree Key}

/-- Adding entries changes nothing among others. -/
private theorem filter_of_adds (h : Loop (Adds share r) (Collides share r) idxs t b t')
    (hp : ∀ a ∈ t'.live, ∀ j ∈ idxs, share.secondKeyCompare a.key (share.packKey j r) = 0 →
      p a = false) : (∀ a ∈ t.live, a ∈ t'.live) ∧ t'.live.filter p = t.live.filter p := by
  induction h with
  | done t => exact ⟨fun _ ha ↦ ha, rfl⟩
  | stop j rest t t' h =>
    rw [h.2.live]
    exact ⟨fun _ ha ↦ ha, rfl⟩
  | step j rest t t₁ t' b h _ ih =>
    obtain ⟨hsub, hrest⟩ := ih fun a ha j hj ↦ hp a ha j (by simp [hj])
    obtain ⟨w, hj⟩ := h.joins
    refine ⟨fun a ha ↦ hsub a ?_, hrest.trans (hj.filter_eq fun a ha ↦
      hp a (hsub a ha) j (by simp))⟩
    exact ((hj.mem_iff a).mp ha).1

/-- Nor does removing entries. -/
private theorem filter_of_removes
    (h : Loop (fun j ↦ Removes share.second (share.packKey j r)) (Lacks share r) idxs t b t')
    (hp : ∀ a ∈ t.live, ∀ j ∈ idxs, share.secondKeyCompare a.key (share.packKey j r) = 0 →
      p a = false) : t'.live.filter p = t.live.filter p := by
  induction h with
  | done t => rfl
  | stop j rest t t' h => rw [h.2.live]
  | step j rest t t₁ t' b h _ ih =>
    obtain ⟨w, hj⟩ := h.joins
    refine (ih fun a ha j hj' ↦ ?_).trans (hj.filter_eq fun a ha ↦ hp a ha j (by simp)).symm
    exact hp a ((hj.mem_iff a).mp ha).1 j (by simp [hj'])

/-- Deleting a row leaves the entries that are not its own. -/
theorem DeleteOutcome.filter_eq (h : DeleteOutcome share s r code s')
    (hp : ∀ a ∈ s.entries, ∀ j ∈ HaExample.indexes share,
      share.secondKeyCompare a.key (share.packKey j r) = 0 → p a = false) :
    s'.entries.filter p = s.entries.filter p := by
  cases h with
  | missing _ _ hsec =>
    unfold HaExample.entries HaExample.secondTree
    rw [hsec]
  | removed _ b _ hloop => exact filter_of_removes hloop hp

/-- Writing a row leaves the entries that are not its own. -/
theorem WriteOutcome.filter_eq (h : WriteOutcome share s r row code s')
    (hp : ∀ a ∈ s'.entries, ∀ j ∈ HaExample.indexes share,
      share.secondKeyCompare a.key (share.packKey j r) = 0 → p a = false) :
    s'.entries.filter p = s.entries.filter p := by
  cases h with
  | refused _ _ _ _ hsec =>
    unfold HaExample.entries HaExample.secondTree
    rw [hsec]
  | written _ b _ hloop => exact (filter_of_adds hloop hp).2

/-- The entries of a row with the key `k` in an index are not above it there. -/
theorem not_above (ord : share.Ordered) (ho : Opened share s)
    (hi : i ∈ HaExample.indexes share) (hk : share.EntryKey k)
    (hkr : share.secondKeyCompare k (share.packKey i r) = 0) {a : Slot Key} (ha : a ∈ s.entries)
    {j : Nat} (hj : j ∈ HaExample.indexes share)
    (haj : share.secondKeyCompare a.key (share.packKey j r) = 0) :
    (decide (indexOf a.key = i ∧ 0 < share.secondKeyCompare a.key k)) = false := by
  obtain ⟨hi1, hik⟩ := mem_indexes.mp hi
  obtain ⟨hj1, hjk⟩ := mem_indexes.mp hj
  obtain ⟨_, hv⟩ := ho.exists_second (by omega)
  have hr : share.EntryKey (share.packKey i r) := (TableShare.packKey_entryKey r hi1 hik).1
  rw [indexOf_of_eq hj1 hjk haj, decide_eq_false_iff_not]
  rintro ⟨rfl, hpos⟩
  have := ord.second.equal_trans (hv.keys a ha) hr hk haj (ord.second.symm hk hr hkr)
  omega

/-- Rewriting a row with the key `k` in an index leaves the entries above it. -/
theorem UpdateOutcome.entriesAbove_eq {old new : Nat}
    (h : UpdateOutcome share server s old new code s') (ord : share.Ordered)
    (ho : Opened share s) (ho' : Opened share s') (hi : i ∈ HaExample.indexes share)
    (hk : share.EntryKey k)
    (hold : share.secondKeyCompare k (share.packKey i (s.record old)) = 0)
    (hnew : share.secondKeyCompare k (share.packKey i (s.newRow share server new).record) = 0) :
    entriesAbove share i k s' = entriesAbove share i k s := by
  have hdelete : ∀ {code s₂}, DeleteOutcome share s (s.record old) code s₂ →
      entriesAbove share i k s₂ = entriesAbove share i k s := fun hdel ↦
    hdel.filter_eq fun a ha j hj ↦ not_above ord ho hi hk hold ha hj
  cases h with
  | undeleted _ _ _ _ hdel => exact hdelete hdel
  | stopped s₂ s' code _ hdel _ honly =>
    have hsame : s'.entries = s₂.entries := honly.looks.second.live
    unfold entriesAbove at *
    rw [hsame]
    exact hdelete hdel
  | rewritten s₂ s' code _ hkeep hdel _ _ hwrite =>
    have hprep : (s₂.prepared share server new).entries = s₂.entries :=
      onlyServer_prepared.looks.second.live
    rw [← hkeep.newRow_eq] at hnew
    refine Eq.trans ?_ (hdelete hdel)
    unfold entriesAbove
    rw [← hprep]
    exact hwrite.filter_eq fun a ha j hj ↦ not_above ord ho' hi hk hnew ha hj

end Above

/-- The next of the rows that are left; after all of them the end of the tree, or an entry of a
later index where the tree has one. -/
def ScanStep (share : TableShare) (rest : List Row) (buf : Nat) (s : HaExample) (code : Int)
    (s' : HaExample) : Prop :=
  match rest with
  | row :: _ => code = 0 ∧ ReturnsRow share s buf row s'
  | [] => code = HA_ERR_END_OF_FILE ∧ (∀ e ∈ s.entries, indexOf e.key ≤ s.activeIndex) ∨
      ∃ e ∈ s.entries, Stands s'.secondTree s'.secIt e ∧ s.activeIndex < indexOf e.key

/-- Where a scan is: the rows left are those with the entries above the one under the cursor. -/
structure IndexScanInv (share : TableShare) (server : Server) (W : HaExample → Nat → Prop)
    (rows₀ : List Row) (s₀ : HaExample) (start : Request) (rows done : List Row) (s : HaExample) :
    Prop where
  stored : Stored share server W rows s
  active : s.activeIndex = s₀.activeIndex
  rest : ∃ before rest, InOrder share s₀.activeIndex rows₀ (before ++ done ++ rest) ∧
    (∀ buf, start = .indexFirst buf → before = []) ∧
    ∃ row e, done.getLast? = some row ∧ Stands s.secondTree s.secIt e ∧
      share.secondKeyCompare e.key (share.packKey s₀.activeIndex row.record) = 0 ∧
      List.Forall₂ (EntryOf share s₀.activeIndex rows)
        (entriesAbove share s₀.activeIndex e.key s) rest

section Scans

variable {share : TableShare} {server : Server} {W : HaExample → Nat → Prop} {rows : List Row}
  {s s' : HaExample} {i buf : Nat} {e : Slot Key} {k : Key}

/-- The entries of an index above a key are among its entries. -/
private theorem entriesAbove_eq_filter : entriesAbove share i k s =
    (s.entries.filter fun e ↦ indexOf e.key = i).filter
      fun e ↦ 0 < share.secondKeyCompare e.key k := by
  unfold entriesAbove
  rw [List.filter_filter]
  refine List.filter_congr fun e _ ↦ ?_
  rw [Bool.decide_and, Bool.and_comm]

/-- The owner of an entry of an index. -/
theorem Consistent.exists_entryOf (hc : Consistent share rows s) (he : e ∈ s.entries) :
    ∃ row, EntryOf share (indexOf e.key) rows e row := by
  obtain ⟨row, hrow, j, hj, hek⟩ := hc.owner e he
  obtain ⟨hj1, hjk⟩ := mem_indexes.mp hj
  exact ⟨row, hrow, by rwa [indexOf_of_eq hj1 hjk hek]⟩

/-- The search for what comes after a key finds the first entry above it. -/
private theorem search_eq_head (es : List (Slot Key)) :
    IterFlag.AFTER_KEY.search share.secondKeyCompare k es =
      (es.filter fun e ↦ 0 < share.secondKeyCompare e.key k).head? := List.head?_filter.symm

/-- No entry above a key is of an earlier index. -/
private theorem Opened.le_indexOf (ho : Opened share s) (ord : share.Ordered)
    (hkeys : 1 < share.keys) (hk : share.EntryKey k) (he : e ∈ s.entries)
    (hek : 0 < share.secondKeyCompare e.key k) : indexOf k ≤ indexOf e.key := by
  obtain ⟨_, hv⟩ := ho.exists_second hkeys
  have hS := hv.keys e he
  exact hS.indexOf_le (Int.le_of_lt ((ord.second.flip hk hS).mpr hek))

/-- What comes after an entry, when its index has entries above it. -/
private theorem Opened.search_next (ho : Opened share s) (ord : share.Ordered)
    (hkeys : 1 < share.keys) (hk : share.EntryKey k) (hidx : indexOf k = i)
    {rest : List (Slot Key)} (h : entriesAbove share i k s = e :: rest) :
    IterFlag.AFTER_KEY.search share.secondKeyCompare k s.entries = some e ∧
      entriesAbove share i e.key s = rest := by
  obtain ⟨_, hv⟩ := ho.exists_second hkeys
  have hsorted : Sorted share.secondKeyCompare Slot.key s.entries := hv.sorted
  have hkeys' : ∀ e ∈ s.entries, share.EntryKey e.key := hv.keys
  constructor
  · have hmem : e ∈ entriesAbove share i k s := by rw [h]; exact List.mem_cons_self
    obtain ⟨he, hsel⟩ := List.mem_filter.mp hmem
    obtain ⟨hei, hek⟩ := of_decide_eq_true hsel
    have habove : entriesAbove share i k s = (s.entries.filter fun e ↦
        0 < share.secondKeyCompare e.key k).filter fun e ↦ indexOf e.key = i := by
      unfold entriesAbove
      rw [List.filter_filter]
      exact List.filter_congr fun e _ ↦ Bool.decide_and ..
    rw [search_eq_head]
    cases hall : s.entries.filter fun e ↦ 0 < share.secondKeyCompare e.key k with
    | nil =>
      have := List.filter_eq_nil_iff.mp hall e he
      exact absurd (decide_eq_true hek) this
    | cons f fs =>
      have hf : f ∈ s.entries ∧ 0 < share.secondKeyCompare f.key k := by
        have := List.mem_filter.mp (show f ∈ s.entries.filter _ by rw [hall]; simp)
        simpa using this
      -- the first entry above the key is of the index that has entries above it
      have hle : indexOf f.key ≤ indexOf e.key := by
        have hfs : Sorted share.secondKeyCompare Slot.key (f :: fs) :=
          hall ▸ hsorted.sublist List.filter_sublist
        have he' : e ∈ f :: fs := by
          rw [← hall]
          exact List.mem_filter.mpr ⟨he, decide_eq_true hek⟩
        rcases List.mem_cons.mp he' with rfl | he'
        · exact Nat.le_refl _
        · exact (hkeys' e he).indexOf_le
            (Int.le_of_lt ((List.pairwise_cons.mp hfs).1 e he'))
      have hge := ho.le_indexOf ord hkeys hk hf.1 hf.2
      rw [habove, hall, List.filter_cons_of_pos (by simp; omega)] at h
      exact congrArg some (List.cons.inj h).1
  · rw [entriesAbove_eq_filter] at h ⊢
    exact Sorted.above_cons (hsorted.sublist List.filter_sublist) ord.second
      (fun e he ↦ hkeys' e (List.mem_of_mem_filter he)) hk h

/-- What comes after an entry, when its index has none above it. -/
private theorem Opened.search_end (ho : Opened share s) (ord : share.Ordered)
    (hkeys : 1 < share.keys) (hk : share.EntryKey k) (hidx : indexOf k = i)
    (h : entriesAbove share i k s = []) : ∀ e ∈ s.entries,
      0 < share.secondKeyCompare e.key k → i < indexOf e.key := by
  intro e he hek
  have hle := ho.le_indexOf ord hkeys hk he hek
  have hne := List.filter_eq_nil_iff.mp h e he
  rw [decide_eq_true_eq] at hne
  have : indexOf e.key ≠ i := fun heq ↦ hne ⟨heq, hek⟩
  omega

/-- A table that was only looked at has the same entries above a key. -/
private theorem Looks.entriesAbove_eq (h : Looks s s') :
    entriesAbove share i k s' = entriesAbove share i k s := by
  have hentries : s'.entries = s.entries := h.second.live
  unfold entriesAbove
  rw [hentries]

/-- `index_next` from an entry of the active index. -/
theorem Opened.wp_scanStep {E : Fault → Prop} (ho : Opened share s) (ord : share.Ordered)
    (hc : Consistent share rows s) (h1 : 1 ≤ s.activeIndex)
    (hst : Stands s.secondTree s.secIt e) (hidx : indexOf e.key = s.activeIndex) {rest : List Row}
    (hl : List.Forall₂ (EntryOf share s.activeIndex rows)
      (entriesAbove share s.activeIndex e.key s) rest) {Q : Int → HaExample → Prop}
    (hQ : ∀ code s', Opened share s' → OnlyCursors s s' → Looks s s' →
      ScanStep share rest buf s code s' →
      (∀ row rest', rest = row :: rest' → ∃ e', Stands s'.secondTree s'.secIt e' ∧
        share.secondKeyCompare e'.key (share.packKey s.activeIndex row.record) = 0 ∧
        List.Forall₂ (EntryOf share s.activeIndex rows)
          (entriesAbove share s.activeIndex e'.key s') rest') → Q code s') :
    wp E (HaExample.indexNext share server buf) Q s := by
  have hkeys := ho.active
  obtain ⟨_, hv⟩ := ho.exists_second (by omega)
  have hk : share.EntryKey e.key := hv.slots.2 e (hv.mem_slots_of_stands hst)
  change wp E (HaExample.moveIndex share server (Iterator.advance false) _ buf) _ s
  apply ho.wp_advance_second ord h1 hst (by decide)
  intro code s' ho' honly hlooks hout
  rw [if_neg (by decide)] at hout
  generalize habove : entriesAbove share s.activeIndex e.key s = es at hl
  cases hl with
  | nil =>
    refine hQ code s' ho' honly hlooks ?_ fun row rest' h ↦ by cases h
    generalize htarget : IterFlag.AFTER_KEY.search share.secondKeyCompare e.key s.entries = target
      at hout
    cases hout with
    | nowhere =>
      refine .inl ⟨rfl, fun f hf ↦ ?_⟩
      rw [search_eq_head, List.head?_eq_none_iff] at htarget
      have hle := List.filter_eq_nil_iff.mp htarget f hf
      rw [decide_eq_true_eq] at hle
      exact hidx ▸ hk.indexOf_le (by omega)
    | «at» f _ _ hf hst' _ =>
      have hpos : 0 < share.secondKeyCompare f.key e.key :=
        (IterFlag.of_search htarget).2
      exact .inr ⟨f, hf, hst', ho.search_end ord (by omega) hk hidx habove f hf hpos⟩
  | @cons x row xs rest' hrow hl =>
    obtain ⟨hsearch, hnext⟩ := ho.search_next ord (by omega) hk hidx habove
    rw [hsearch] at hout
    cases hout with
    | «at» _ _ _ hx hst' hentry =>
      obtain ⟨hcode, hbytes⟩ := hentry.returns hc ord ho ⟨h1, ho.active⟩ hx hrow.1 hrow.2
      refine hQ code s' ho' honly hlooks ⟨hcode, ⟨x, hx, hst', hrow.2⟩, hbytes⟩ ?_
      intro row' rest'' heq
      cases heq
      refine ⟨x, hst', hrow.2, ?_⟩
      rw [hlooks.entriesAbove_eq, hnext]
      exact hl

end Scans

section Runs

variable {share : TableShare} {server : Server} {W : HaExample → Nat → Prop}
  {G : HaExample → Nat → Nat → Prop} {rows₀ rows done : List Row} {s₀ s s' s₁ : HaExample}
  {start req : Request} {i buf old new : Nat} {code : Int} {row : Row} {e : Slot Key} {k : Key}

/-- A call that comes to an entry of the active index returns its row. -/
theorem MoveOutcome.exists_returnsRow {err : Int} {target : Option (Slot Key)}
    (h : MoveOutcome share s buf err target code s') (herr : err ≠ 0) (hc : Consistent share rows s)
    (ord : share.Ordered) (ho : Opened share s) (h1 : 1 ≤ s.activeIndex) (hcode : code = 0)
    (hst : Stands s'.secondTree s'.secIt e) (hidx : indexOf e.key = s.activeIndex) :
    ∃ row ∈ rows, ReturnsRow share s buf row s' := by
  cases h with
  | nowhere => exact absurd hcode herr
  | «at» f _ _ hf hst' hentry =>
    obtain rfl := hst.unique hst'
    obtain ⟨row, hrow, hek⟩ := hc.exists_entryOf hf
    rw [hidx] at hek
    exact ⟨row, hrow, ⟨f, hf, hst', hek⟩,
      (hentry.returns hc ord ho ⟨h1, ho.active⟩ hf hrow hek).2⟩

/-- The first call of a scan: `index_first` comes to the first entry of the tree, and where the
entry is of the active index its row is returned. -/
theorem Opened.wp_startScan (ho : Opened share s) (hc : Consistent share rows s)
    (ord : share.Ordered) (h1 : 1 ≤ s.activeIndex)
    (hstart : start = .indexFirst buf ∨ ∃ key f, start = .indexRead buf key f) :
    wp (fun _ ↦ False) (start.perform share server) (fun code s' ↦ Opened share s' ∧
      OnlyCursors s s' ∧ Looks s s' ∧ (code = 0 → ∀ e, Stands s'.secondTree s'.secIt e →
        (∀ b, start = .indexFirst b → s.entries.head? = some e) ∧
        (indexOf e.key = s.activeIndex → ∃ row ∈ rows, ReturnsRow share s buf row s'))) s := by
  rcases hstart with rfl | ⟨key, f, rfl⟩
  · change wp _ (HaExample.moveIndex share server (Iterator.start false) _ buf) _ s
    refine ho.wp_start_second ord h1 (by decide) fun code s' ho' honly hlooks hout ↦
      ⟨ho', honly, hlooks, fun hcode e hst ↦ ⟨fun b _ ↦ ?_,
        hout.exists_returnsRow (by decide) hc ord ho h1 hcode hst⟩⟩
    change MoveOutcome share s buf _ s.entries.head? code s' at hout
    generalize s.entries.head? = target at hout ⊢
    cases hout with
    | nowhere => exact absurd hcode (by decide)
    | «at» e' _ _ _ hst' _ => rw [hst'.unique hst]
  · exact ho.wp_indexRead_second ord h1 fun code s' ho' honly hlooks hout ↦
      ⟨ho', honly, hlooks, fun hcode e hst ↦ ⟨fun b hb ↦ (by cases hb),
        hout.exists_returnsRow f.err_ne_zero hc ord ho h1 hcode hst⟩⟩

/-- A scan starts with the rows of its index before and after the one returned. -/
theorem IndexScanInv.of_start (ord : share.Ordered) (hs₀ : Stored share server W rows₀ s₀)
    (h1 : 1 ≤ s₀.activeIndex)
    (hstart : start = .indexFirst buf ∨ ∃ key f, start = .indexRead buf key f)
    (h : (start.perform share server).run s₀ = .ok (0, s)) (hrow : row ∈ rows₀)
    (hr : ReturnsRow share s₀ buf row s) :
    IndexScanInv share server W rows₀ s₀ start rows₀ [row] s := by
  obtain ⟨ho₀, hc₀⟩ := hs₀.sound ord
  have hik := ho₀.active
  obtain ⟨_, hv⟩ := ho₀.exists_second (by omega)
  obtain ⟨_, honly, hlooks, hhead⟩ := wp_ok (ho₀.wp_startScan hc₀ ord h1 hstart) h
  obtain ⟨e, he, hst, hek⟩ := hr.entry
  have hidx := indexOf_of_eq h1 hik hek
  have hstored : Stored share server W rows₀ s := by
    rcases hstart with rfl | ⟨key, f, rfl⟩
    · exact hs₀.other _ _ _ (.indexFirst buf) 0 id trivial h
    · exact hs₀.other _ _ _ (.indexRead _ key f) 0 id trivial h
  -- the entries of the index around the one under the cursor
  have hsorted : Sorted share.secondKeyCompare Slot.key
      (s₀.entries.filter fun x ↦ indexOf x.key = s₀.activeIndex) :=
    hv.sorted.sublist List.filter_sublist
  have hkeys : ∀ x ∈ s₀.entries.filter fun x ↦ indexOf x.key = s₀.activeIndex,
      share.EntryKey x.key := fun x hx ↦ hv.keys x (List.mem_of_mem_filter hx)
  have hmem : e ∈ s₀.entries.filter fun x ↦ indexOf x.key = s₀.activeIndex :=
    List.mem_filter.mpr ⟨he, decide_eq_true hidx⟩
  obtain ⟨A, B, hAB⟩ := List.append_of_mem hmem
  have hlist : ∀ l : List (Slot Key),
      (∀ x ∈ l, x ∈ s₀.entries.filter fun x ↦ indexOf x.key = s₀.activeIndex) →
      ∃ rs, List.Forall₂ (EntryOf share s₀.activeIndex rows₀) l rs := fun l hl ↦
    exists_rows fun x hx ↦ by
      obtain ⟨hx, hxi⟩ := List.mem_filter.mp (hl x hx)
      exact of_decide_eq_true hxi ▸ hc₀.exists_entryOf hx
  obtain ⟨before, hbefore⟩ := hlist A fun x hx ↦ by rw [hAB]; simp [hx]
  obtain ⟨rest, hrest⟩ := hlist B fun x hx ↦ by rw [hAB]; simp [hx]
  refine ⟨hstored, by rw [honly], before, rest, ?_, ?_, row, e, rfl, hst, hek, ?_⟩
  · have hall : List.Forall₂ (EntryOf share s₀.activeIndex rows₀) (A ++ e :: B)
        (before ++ row :: rest) := List.rel_append hbefore (.cons ⟨hrow, hek⟩ hrest)
    rw [← hAB] at hall
    rw [List.append_assoc, List.singleton_append]
    exact hc₀.inOrder ord ho₀ h1 hik hall List.filter_sublist fun x hx hxi ↦
      List.mem_filter.mpr ⟨hx, decide_eq_true hxi⟩
  · intro b hb
    -- the first entry of the tree is the first one of its index
    obtain ⟨tail, htail⟩ := List.head?_eq_some_iff.mp ((hhead rfl e hst).1 b hb)
    rw [htail, List.filter_cons_of_pos (by simpa using hidx)] at hAB
    cases hbefore with
    | nil => rfl
    | @cons a _ A _ _ _ =>
      rw [htail, List.filter_cons_of_pos (by simpa using hidx)] at hsorted hkeys
      obtain ⟨rfl, htl⟩ := List.cons.inj hAB
      have hlt := (List.pairwise_cons.mp hsorted).1 e (htl ▸ by simp)
      rw [ord.second.self (hkeys e List.mem_cons_self)] at hlt
      exact absurd hlt (by decide)
  · rw [hlooks.entriesAbove_eq, entriesAbove_eq_filter, hAB,
      Sorted.above_append (hAB ▸ hsorted) ord.second (hAB ▸ hkeys)]
    exact hrest

/-- Requests that concern neither rows nor cursors may always be made. -/
theorem Request.Idle.harmless (hreq : req.Idle) :
    ¬ req.ChangesRows ∧ req.Admissible share s := by
  cases req with
  | position buf => exact ⟨id, trivial⟩
  | info => exact ⟨id, trivial⟩
  | extra operation => exact ⟨id, trivial⟩
  | fill buf r => exact ⟨id, trivial⟩
  | number b => exact ⟨id, trivial⟩
  | _ => exact absurd hreq id

/-- They leave the cursor where it is. -/
private theorem Opened.wp_idle (ho : Opened share s) (hreq : req.Idle) :
    wp Beyond (req.perform share server) (fun _ s' ↦ KeepsCursor s s') s := by
  cases req with
  | info =>
    change wp Beyond (HaExample.info >>= fun _ ↦ pure 0) _ s
    unfold HaExample.info
    rw [wp_bind, wp_onPrimary]
    exact wp_mono ho.primary.wp_countOfItems fun _ t _ ↦ .of_eq rfl rfl rfl
  | extra operation => cases operation <;> exact .of_eq rfl rfl rfl
  | position buf => exact .of_eq rfl rfl rfl
  | fill buf r => exact .of_eq rfl rfl rfl
  | number b => exact .of_eq rfl rfl rfl
  | _ => exact absurd hreq id

/-- Rows whose entries are above a key are not the one that is rewritten at the key. -/
theorem entryOf_after_update (ord : share.Ordered) (ho : Opened share s)
    (hi : i ∈ HaExample.indexes share) (hk : share.EntryKey k) {r : Record}
    (hold : OldImage share rows r) (hkr : share.secondKeyCompare k (share.packKey i r) = 0)
    {rows' : List Row} (hrows : ∀ row ∈ without share rows r, row ∈ rows') {rest : List Row}
    (h : List.Forall₂ (EntryOf share i rows) (entriesAbove share i k s) rest) :
    List.Forall₂ (EntryOf share i rows') (entriesAbove share i k s) rest := by
  obtain ⟨hi1, hik⟩ := mem_indexes.mp hi
  obtain ⟨_, hv⟩ := ho.exists_second (by omega)
  have hS : ∀ r, share.EntryKey (share.packKey i r) :=
    fun r ↦ (TableShare.packKey_entryKey r hi1 hik).1
  have habove : ∀ e ∈ entriesAbove share i k s,
      share.EntryKey e.key ∧ 0 < share.secondKeyCompare e.key k := by
    intro e he
    obtain ⟨he, hsel⟩ := List.mem_filter.mp he
    exact ⟨hv.keys e he, (of_decide_eq_true hsel).2⟩
  refine (List.forall₂_and_left _ _ |>.mpr ⟨habove, h⟩).imp ?_
  rintro e row ⟨⟨hSe, hpos⟩, hrow, hek⟩
  refine ⟨hrows row (List.mem_filter.mpr ⟨hrow, ?_⟩), hek⟩
  rw [decide_eq_true_eq]
  intro hhas
  have her := ord.second.equal_trans hSe (hS _) (hS r) hek (hold row hrow hhas i hi)
  have := ord.second.equal_trans hSe (hS r) hk her (ord.second.symm hk (hS r) hkr)
  omega

/-- The next row of a scan is the first of those left. -/
theorem IndexScanInv.next (hinv : IndexScanInv share server W rows₀ s₀ start rows done s)
    (ord : share.Ordered) (h1 : 1 ≤ s₀.activeIndex)
    (h : (HaExample.indexNext share server buf).run s = .ok (0, s')) (hrow : row ∈ rows)
    (hr : ReturnsRow share s buf row s') :
    IndexScanInv share server W rows₀ s₀ start rows (done ++ [row]) s' := by
  obtain ⟨ho, hc⟩ := hinv.stored.sound ord
  have hact := hinv.active
  have hi : s₀.activeIndex ∈ HaExample.indexes share := mem_indexes.mpr ⟨h1, hact ▸ ho.active⟩
  obtain ⟨before, rest, hin, hfirst, cur, e, hlast, hst, hek, hl⟩ := hinv.rest
  have hidx : indexOf e.key = s.activeIndex := by
    rw [hact]
    exact indexOf_of_eq h1 (hact ▸ ho.active) hek
  have hnext : wp (fun _ ↦ False) (HaExample.indexNext share server buf) (fun code s' ↦
      s'.activeIndex = s.activeIndex ∧ ScanStep share rest buf s code s' ∧
      ∀ row rest', rest = row :: rest' → ∃ e', Stands s'.secondTree s'.secIt e' ∧
        share.secondKeyCompare e'.key (share.packKey s.activeIndex row.record) = 0 ∧
        List.Forall₂ (EntryOf share s.activeIndex rows)
          (entriesAbove share s.activeIndex e'.key s') rest') s := by
    refine ho.wp_scanStep ord hc (hact ▸ h1) hst hidx (hact ▸ hl) ?_
    exact fun _ _ _ honly _ hstep hmore ↦ ⟨by rw [honly], hstep, hmore⟩
  obtain ⟨hact', hstep, hmore⟩ := wp_ok hnext h
  obtain ⟨e', he', hst', hek'⟩ := hr.entry
  have hidx' := indexOf_of_eq (hact ▸ h1) ho.active hek'
  have hstored : Stored share server W rows s' := by
    refine hinv.stored.other _ _ _ (.indexNext buf) 0 id ?_ h
    show Request.Positioned s
    unfold Request.Positioned
    rw [if_neg (by omega)]
    exact ⟨e, hst⟩
  cases rest with
  | nil =>
    rcases hstep with ⟨h0, _⟩ | ⟨f, _, hst'', hlt⟩
    · exact absurd h0 (by decide)
    · obtain rfl := hst'.unique hst''
      omega
  | cons row' rest' =>
    obtain ⟨f, hst'', hfk, hl'⟩ := hmore row' rest' rfl
    obtain rfl := hst'.unique hst''
    obtain ⟨_, hv⟩ := ho.exists_second (by have := mem_indexes.mp hi; omega)
    -- both are rows of the entry under the cursor
    have hrow' : row' ∈ rows := by
      obtain ⟨_, _, hof⟩ := forall₂_left_mem hl.flip (List.mem_cons_self)
      exact hof.1
    have hhas := (eq_of_packKeys ord (hv.keys _ he') (hact ▸ hi) (hact ▸ hi) hek' hfk).2
    obtain rfl := hc.eq_of_has ord hrow hrow' hhas
    rw [hact] at hek' hl'
    exact ⟨hstored, hact'.trans hact, before, rest', by simpa using hin, hfirst, row, f,
      List.getLast?_concat, hst', hek', hl'⟩

/-- Requests that concern neither rows nor cursors leave a scan where it is. -/
theorem IndexScanInv.idle (hinv : IndexScanInv share server W rows₀ s₀ start rows done s)
    (ord : share.Ordered) (hreq : req.Idle)
    (h : (req.perform share server).run s = .ok (code, s')) :
    IndexScanInv share server W rows₀ s₀ start rows done s' := by
  obtain ⟨ho, hc⟩ := hinv.stored.sound ord
  obtain ⟨hnot, ha⟩ := Request.Idle.harmless hreq
  have hkeep := wp_ok (ho.wp_idle hreq) h
  have hlooks := (wp_ok (ho.wp_perform ord ha) h).2.1 hnot
  obtain ⟨before, rest, hin, hfirst, cur, e, hlast, hst, hek, hl⟩ := hinv.rest
  obtain ⟨e', hkey, hst'⟩ := hkeep.stands e hst
  refine ⟨hinv.stored.other _ _ _ req code hnot ha h, hkeep.active.trans hinv.active, before, rest,
    hin, hfirst, cur, e', hlast, hst', hkey ▸ hek, ?_⟩
  rw [hkey, hlooks.entriesAbove_eq]
  exact hl

/-- So does rewriting the row returned last, where it spares the cursor. -/
theorem IndexScanInv.update (hinv : IndexScanInv share server W rows₀ s₀ start rows done s)
    (ord : share.Ordered) (h1 : 1 ≤ s₀.activeIndex)
    (hw : W (HaExample.numbered server new s).2 new)
    (hold : OldImage share rows ((HaExample.numbered server new s).2.record old))
    (hlen : ((HaExample.numbered server new s).2.newRow share server new).bytes.length ≤
      maxValueSize) (hlast : done.getLast? = some row)
    (hkey : share.secondKeyCompare (share.packKey s₀.activeIndex row.record)
      (share.packKey s₀.activeIndex ((HaExample.numbered server new s).2.record old)) = 0)
    (hkey' : share.secondKeyCompare (share.packKey s₀.activeIndex row.record)
      (share.packKey s₀.activeIndex
        ((HaExample.numbered server new s).2.newRow share server new).record) = 0)
    (hspare : SparesCursor share server s old new)
    (h : (HaExample.updateRow share server old new).run s = .ok (code, s')) :
    IndexScanInv share server W rows₀ s₀ start (if code = 0 then
      (HaExample.numbered server new s).2.newRow share server new ::
        without share rows ((HaExample.numbered server new s).2.record old)
      else without share rows ((HaExample.numbered server new s).2.record old)) done s' := by
  obtain ⟨ho, hc⟩ := hinv.stored.sound ord
  have hstored := hinv.stored.update rows s _ s' old new code rfl hw hold hlen h
  have hik : s₀.activeIndex < share.keys := hinv.active ▸ ho.active
  have hi : s₀.activeIndex ∈ HaExample.indexes share := mem_indexes.mpr ⟨h1, hik⟩
  have hkeys : 1 < share.keys := by omega
  have hnum : OnlyServer s (HaExample.numbered server new s).2 := onlyServer_numbered
  have hkeep := wp_ok (wp_updateRow_keepsCursor ord ho hkeys hspare) h
  obtain ⟨before, rest, hin, hfirst, cur, e, hcur, hst, hek, hl⟩ := hinv.rest
  obtain rfl := Option.some.inj (hlast.symm.trans hcur)
  obtain ⟨e', hek', hst'⟩ := hkeep.stands e hst
  obtain ⟨_, hv⟩ := ho.exists_second hkeys
  have hS : share.EntryKey e.key := hv.slots.2 e (hv.mem_slots_of_stands hst)
  have hSr : ∀ r, share.EntryKey (share.packKey s₀.activeIndex r) :=
    fun r ↦ (TableShare.packKey_entryKey r h1 hik).1
  have hekold := ord.second.equal_trans hS (hSr _) (hSr _) hek hkey
  have heknew := ord.second.equal_trans hS (hSr _) (hSr _) hek hkey'
  have habove : wp Beyond (HaExample.updateRow share server old new) (fun _ s' ↦
      entriesAbove share s₀.activeIndex e.key s' =
        entriesAbove share s₀.activeIndex e.key (HaExample.numbered server new s).2) s :=
    wp_updateRow ord ho fun _ _ ho' hout ↦
      hout.entriesAbove_eq ord (hnum.opened ho) ho' hi hS hekold heknew
  refine ⟨hstored, hkeep.active.trans hinv.active, before, rest, hin, hfirst, row, e', hcur, hst',
    hek' ▸ hek, ?_⟩
  rw [hek', wp_ok habove h, hnum.looks.entriesAbove_eq]
  refine entryOf_after_update ord ho hi hS hold hekold (fun row hrow ↦ ?_) hl
  split
  · exact List.mem_cons_of_mem _ hrow
  · exact hrow

/-- A scan is where its invariant says, as long as updates spare the cursor. -/
theorem IndexScan.inv (ord : share.Ordered) (hs₀ : Stored share server W rows₀ s₀)
    (h1 : 1 ≤ s₀.activeIndex)
    (hscan : IndexScan share server W (SparesCursor share server) rows₀ s₀ start rows done s) :
    IndexScanInv share server W rows₀ s₀ start rows done s := by
  induction hscan with
  | start s buf row hstart h hrow hr => exact .of_start ord hs₀ h1 hstart h hrow hr
  | next rows done s s' buf row _ h hrow hr ih => exact ih.next ord h1 h hrow hr
  | idle rows done s s' req code _ hreq h ih => exact ih.idle ord hreq h
  | update rows done s s₁ s' old new code row _ h₁ hw hold hlen hlast hkey hkey' hspare h ih =>
    subst h₁
    exact ih.update ord h1 hw hold hlen hlast hkey hkey' hspare h

/-- The rows that an index held when a scan of it started, from the one it started with on, are
returned one after another in its order. -/
def ScansInOrder (share : TableShare) (server : Server) (rows₀ : List Row) (s₀ : HaExample)
    (start : Request) (done : List Row) (s : HaExample) : Prop :=
  ∃ before rest, InOrder share s₀.activeIndex rows₀ (before ++ done ++ rest) ∧
    (∀ buf, start = .indexFirst buf → before = []) ∧
    ∀ buf, wp (fun _ ↦ False) (HaExample.indexNext share server buf) (ScanStep share rest buf s) s

/-- Scans of any secondary index of any table, with rewritings of the row returned last in between
that spare the cursor: what was returned are rows of the start, each once and in order of the
index, and the next call always returns the next of them, or after the last one leaves the
index. -/
theorem index_scan_updates (ord : share.Ordered) (hs₀ : Stored share server W rows₀ s₀)
    (h1 : 1 ≤ s₀.activeIndex)
    (hscan : IndexScan share server W (SparesCursor share server) rows₀ s₀ start rows done s) :
    ScansInOrder share server rows₀ s₀ start done s := by
  have hinv := hscan.inv ord hs₀ h1
  obtain ⟨ho, hc⟩ := hinv.stored.sound ord
  have hact := hinv.active
  obtain ⟨before, rest, hin, hfirst, row, e, _, hst, hek, hl⟩ := hinv.rest
  have hidx : indexOf e.key = s.activeIndex := by
    rw [hact]
    exact indexOf_of_eq h1 (hact ▸ ho.active) hek
  exact ⟨before, rest, hin, hfirst, fun buf ↦
    ho.wp_scanStep ord hc (hact ▸ h1) hst hidx (hact ▸ hl) fun _ _ _ _ _ hstep _ ↦ hstep⟩

end Runs

section Samples

/-- The filled table with an index active. -/
private def activeTable (i : Nat) : HaExample := { filledTable with activeIndex := i }

/-- The first call of a scan was made. -/
private def startedTable (i : Nat) (start : Request) : HaExample :=
  outcome ((start.perform digits lenient).run (activeTable i))

/-- The row returned was copied to buffer 1 and changed in buffer 0. -/
private def changedTable (i : Nat) (start : Request) (r : Record) : HaExample :=
  let s := startedTable i start
  { s with record := Function.update (Function.update s.record 1 (s.record 0)) 0 r }

/-- The change was stored. -/
private def updatedTable (i : Nat) (start : Request) (r : Record) : HaExample :=
  outcome ((HaExample.updateRow digits lenient 1 0).run (changedTable i start r))

/-- A first call comes to the entry `k`, and its row is rewritten with the same key. -/
private def Rewrites (i : Nat) (start : Request) (r : Record) (k : Key) : Prop :=
  let s := (HaExample.numbered lenient 0 (changedTable i start r)).2
  answers ((start.perform digits lenient).run (activeTable i)) = some 0 ∧
  ((startedTable i start).secIt.slot (startedTable i start).secondTree).map Slot.key = some k ∧
  answers ((HaExample.updateRow digits lenient 1 0).run (changedTable i start r)) = some 0 ∧
  (∀ row ∈ filledRows, row.Has digits (s.record 1) → ∀ j ∈ HaExample.indexes digits,
    digits.secondKeyCompare (digits.packKey j row.record) (digits.packKey j (s.record 1)) = 0) ∧
  (s.newRow digits lenient 0).bytes.length ≤ maxValueSize ∧
  digits.secondKeyCompare k (digits.packKey i (s.record 1)) = 0 ∧
  digits.secondKeyCompare k (digits.packKey i (s.newRow digits lenient 0).record) = 0

private instance (i : Nat) (start : Request) (r : Record) (k : Key) :
    Decidable (Rewrites i start r k) :=
  inferInstanceAs (Decidable (_ ∧ _))

private theorem activeTable_stored {i : Nat} (hi : i < digits.keys) :
    Stored digits lenient (fun _ _ ↦ True) filledRows (activeTable i) :=
  .other _ filledTable _ (.indexInit i) 0 filledTable_stored id hi rfl

/-- A scan with a rewriting of its first row. -/
private theorem Rewrites.scan {i : Nat} {start : Request} {r : Record} {k : Key}
    {G : HaExample → Nat → Nat → Prop} (h : Rewrites i start r k) (h1 : 1 ≤ i)
    (hi : i < digits.keys)
    (hstart : start = .indexFirst 0 ∨ ∃ key f, start = .indexRead 0 key f)
    (hG : G (changedTable i start r) 1 0) :
    ∃ rows row, digits.EntryKey k ∧
      digits.secondKeyCompare k (digits.packKey i row.record) = 0 ∧
      IndexScan digits lenient (fun _ _ ↦ True) G filledRows (activeTable i) start rows [row]
        (updatedTable i start r) := by
  obtain ⟨hcode, hslot, hupdate, hold, hlen, hkey, hkey'⟩ := h
  obtain ⟨e, hslot', rfl⟩ := Option.map_eq_some_iff.mp hslot
  have hs₀ := activeTable_stored hi
  obtain ⟨ho₀, hc₀⟩ := hs₀.sound digits_ordered
  have hrun : (start.perform digits lenient).run (activeTable i) =
      .ok (0, startedTable i start) := run_of_answers hcode
  have hst := stands_of_slot hslot'
  obtain ⟨_, _, _, hfirst⟩ := wp_ok (ho₀.wp_startScan hc₀ digits_ordered h1 hstart) hrun
  obtain ⟨row, hrow, hr⟩ := (hfirst rfl e hst).2 (indexOf_of_eq h1 hi hkey)
  obtain ⟨e', he', hst', hek⟩ := hr.entry
  obtain rfl := hst.unique hst'
  -- keys equal to that of the entry are equal
  obtain ⟨_, hv⟩ := ho₀.exists_second (by decide)
  have hS : ∀ r, digits.EntryKey (digits.packKey i r) :=
    fun r ↦ (TableShare.packKey_entryKey r h1 hi).1
  have hSe := hv.keys e' he'
  have hequal : ∀ r', digits.secondKeyCompare e'.key (digits.packKey i r') = 0 →
      digits.secondKeyCompare (digits.packKey i row.record) (digits.packKey i r') = 0 :=
    fun r' hr' ↦ digits_ordered.second.equal_trans (hS _) hSe (hS r')
      (digits_ordered.second.symm hSe (hS _) hek) hr'
  have hscan : IndexScan digits lenient (fun _ _ ↦ True) G filledRows (activeTable i) start
      filledRows [row] (changedTable i start r) :=
    .idle _ _ _ _ (.fill 0 r) 0 (.idle _ _ _ _ (.fill 1 ((startedTable i start).record 0)) 0
      (.start _ 0 row hstart hrun hrow hr) trivial rfl) trivial rfl
  exact ⟨_, row, hSe, hek, hscan.update _ _ _ _ _ 1 0 0 row rfl trivial hold hlen rfl
    (hequal _ hkey) (hequal _ hkey') hG (run_of_answers hupdate)⟩

/-- A row is read by index 2, and its column of index 1 is changed: the new entry comes before the
cursor. -/
private theorem moved_rewrites :
    Rewrites 2 (.indexRead 0 [7] .HA_READ_KEY_EXACT) (digitRecord 1 6 7) [2, 7, 1] := by
  decide +kernel

/-- The first row by index 1, with its column of index 2 changed: the new entry comes after the
cursor, in a leaf with room. -/
private theorem kept_rewrites :
    Rewrites 1 (.indexFirst 0) (digitRecord 2 4 9) [1, 4, 2] := by
  decide +kernel

/-- A scan by the first index goes on after its first row was rewritten. -/
theorem kept_scansInOrder : ∃ row, ScansInOrder digits lenient filledRows (activeTable 1)
    (.indexFirst 0) [row] (updatedTable 1 (.indexFirst 0) (digitRecord 2 4 9)) := by
  obtain ⟨rows, row, _, _, hscan⟩ := kept_rewrites.scan (G := SparesCursor digits lenient)
    (Nat.le_refl 1) (by decide) (.inl rfl) (by decide +kernel)
  exact ⟨row, index_scan_updates digits_ordered (activeTable_stored (by decide))
    (Nat.le_refl 1) hscan⟩

/-- The code of `index_next`, and the key under the cursor after it. -/
private def nextKey (s : HaExample) : Option (Int × Option Key) :=
  match (HaExample.indexNext digits lenient 0).run s with
  | .error _ => none
  | .ok (code, s') => some (code, (s'.secIt.slot s'.secondTree).map Slot.key)

/-- After an entry came before the cursor, `index_next` returns the same row again. -/
theorem moved_not_inOrder : ¬ ∀ (share : TableShare) (server : Server)
    (W : HaExample → Nat → Prop) (rows₀ rows done : List Row) (s₀ s : HaExample)
    (start : Request), share.Ordered → Stored share server W rows₀ s₀ → 1 ≤ s₀.activeIndex →
    IndexScan share server W (fun _ _ _ ↦ True) rows₀ s₀ start rows done s →
    ScansInOrder share server rows₀ s₀ start done s := by
  intro hall
  obtain ⟨rows, row, hS, hek, hscan⟩ := moved_rewrites.scan (G := fun _ _ _ ↦ True)
    (by decide) (by decide) (.inr ⟨_, _, rfl⟩) trivial
  obtain ⟨before, rest, hin, _, hstep⟩ := hall _ _ _ _ _ _ _ _ _ digits_ordered
    (activeTable_stored (by decide)) (by decide) hscan
  have hnext : nextKey (updatedTable 2 (.indexRead 0 [7] .HA_READ_KEY_EXACT) (digitRecord 1 6 7)) =
      some (0, some [2, 7, 1]) := by decide +kernel
  unfold nextKey at hnext
  split at hnext
  · cases hnext
  next code s' hrun =>
  simp only [Option.some.injEq, Prod.mk.injEq, Option.map_eq_some_iff] at hnext
  obtain ⟨rfl, e, hslot, hkey⟩ := hnext
  have hst := stands_of_slot hslot
  have hact : (updatedTable 2 (.indexRead 0 [7] .HA_READ_KEY_EXACT)
      (digitRecord 1 6 7)).activeIndex = 2 := by decide +kernel
  have hout := wp_ok (hstep 0) hrun
  cases rest with
  | nil =>
    rcases hout with ⟨h0, _⟩ | ⟨e', _, hst', hlt⟩
    · exact absurd h0 (by decide)
    · obtain rfl := hst.unique hst'
      rw [hkey, hact] at hlt
      exact absurd hlt (by decide)
  | cons row' rest =>
    -- the next row has the key of the one before
    obtain ⟨e', _, hst', hek'⟩ := hout.2.entry
    obtain rfl := hst.unique hst'
    rw [hkey, hact] at hek'
    have hlt := (List.pairwise_append.mp hin.sorted).2.2 row (by simp) row' (by simp)
    have hSr : ∀ r, digits.EntryKey (digits.packKey 2 r) :=
      fun r ↦ (TableShare.packKey_entryKey r (by decide) (by decide)).1
    have hequal := digits_ordered.second.equal_trans (hSr row.record) hS (hSr row'.record)
      (digits_ordered.second.symm hS (hSr _) hek) hek'
    exact absurd hlt (Int.not_lt.mpr (Int.le_of_eq hequal.symm))

end Samples

end ExampleEngine.Handler
