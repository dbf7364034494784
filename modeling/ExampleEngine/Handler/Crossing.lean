import ExampleEngine.Handler.IndexOnly

/-!
# Secondary indexes in one tree

Library `Handler`. The entries of all secondary indexes are in one tree, in order of index
numbers, and the functions of `src/ha_example.cc:737–957` that move its cursor compare no
number. A cursor therefore leaves its index wherever another one has entries next to it.
-/

namespace ExampleEngine.Handler

open ExampleEngine.Base ExampleEngine.Storage ExampleEngine.Index

/-- Requests that move the cursor of the active index. -/
def Request.MovesCursor : Request → Prop
  | .indexRead _ _ _ => True
  | .indexNext _ => True
  | .indexPrev _ => True
  | .indexFirst _ => True
  | .indexLast _ => True
  | _ => False

/-- Whichever of them returns 0 leaves the cursor on an entry of the active index. -/
def Isolated (share : TableShare) (server : Server) (s : HaExample) : Prop :=
  ∀ req : Request, req.MovesCursor → req.Admissible share s →
    wp (fun _ ↦ False) (req.perform share server) (fun code s' ↦ code = 0 →
      ∃ e, Stands s'.secondTree s'.secIt e ∧ indexOf e.key = s.activeIndex) s

/-- The cursor comes to the entry of a row in the active index, and the row is unpacked unless
only indexes are read. -/
structure ReturnsRow (share : TableShare) (s : HaExample) (buf : Nat) (row : Row)
    (s' : HaExample) : Prop where
  entry : ∃ e ∈ s.entries, Stands s'.secondTree s'.secIt e ∧
    share.secondKeyCompare e.key (share.packKey s.activeIndex row.record) = 0
  bytes : s.keyRead = false →
    ∃ src, Begins src row.bytes ∧ s'.record = share.unpackRow src buf s.record

/-- `index_first`, or `index_last`. -/
def HaExample.startIndex (share : TableShare) (server : Server) (back : Bool) (buf : Nat) :
    HandlerM Int :=
  if back then indexLast share server buf else indexFirst share server buf

/-- `index_next`, or `index_prev`. -/
def HaExample.advanceIndex (share : TableShare) (server : Server) (back : Bool) (buf : Nat) :
    HandlerM Int :=
  if back then indexPrev share server buf else indexNext share server buf

/-- A call, and moves on after it, return these rows one by one and then a nonzero code. -/
def Yields (share : TableShare) (server : Server) (back : Bool) (buf : Nat) :
    HandlerM Int → List Row → HaExample → Prop
  | call, [], s => wp (fun _ ↦ False) call (fun code _ ↦ code ≠ 0) s
  | call, row :: rest, s => wp (fun _ ↦ False) call (fun code s' ↦ code = 0 ∧
      ReturnsRow share s buf row s' ∧
      Yields share server back buf (HaExample.advanceIndex share server back buf) rest s') s

/-- All live rows, in order of the columns of an index and the primary key. -/
structure InOrder (share : TableShare) (i : Nat) (rows l : List Row) : Prop where
  perm : l.Perm rows
  sorted : l.Pairwise fun a b ↦
    share.secondKeyCompare (share.packKey i a.record) (share.packKey i b.record) < 0

/-- From the first entry on the rows are returned in order, and from the last one back in
reverse. -/
def ScansRows (share : TableShare) (server : Server) (buf : Nat) (rows : List Row)
    (s : HaExample) : Prop :=
  ∃ l, InOrder share s.activeIndex rows l ∧
    Yields share server false buf (HaExample.startIndex share server false buf) l s ∧
    Yields share server true buf (HaExample.startIndex share server true buf) l.reverse s

section Entries

variable {share : TableShare} {server : Server} {rows : List Row} {s s' : HaExample} {buf i : Nat}
  {code : Int} {e : Slot Key}

/-- An entry and the row that it was made for. -/
def EntryOf (share : TableShare) (i : Nat) (rows : List Row) (e : Slot Key) (row : Row) : Prop :=
  row ∈ rows ∧ share.secondKeyCompare e.key (share.packKey i row.record) = 0

/-- With one secondary index, or without rows, all entries are of that index. -/
private theorem Consistent.index_eq (hc : Consistent share rows s)
    (hone : share.keys = 2 ∨ rows = []) (hi : 1 ≤ i) (hik : i < share.keys) :
    ∀ e ∈ s.entries, ∃ row, EntryOf share i rows e row := by
  intro e he
  obtain ⟨row, hrow, j, hj, hek⟩ := hc.owner e he
  obtain ⟨hj1, hjk⟩ := mem_indexes.mp hj
  rcases hone with hkeys | rfl
  · obtain rfl : i = j := by omega
    exact ⟨row, hrow, hek⟩
  · cases hrow

/-- Rows listed by their entries. -/
theorem exists_rows {es : List (Slot Key)}
    (h : ∀ e ∈ es, ∃ row, EntryOf share i rows e row) :
    ∃ l, List.Forall₂ (EntryOf share i rows) es l := by
  induction es with
  | nil => exact ⟨[], .nil⟩
  | cons e es ih =>
    obtain ⟨row, hrow⟩ := h e (by simp)
    obtain ⟨l, hl⟩ := ih fun e' he' ↦ h e' (by simp [he'])
    exact ⟨row :: l, .cons hrow hl⟩

/-- They are sorted as the entries are. -/
theorem rows_sorted (ord : share.Ordered) (hi : 1 ≤ i) (hik : i < share.keys)
    {es : List (Slot Key)} {l : List Row} (hl : List.Forall₂ (EntryOf share i rows) es l)
    (hes : ∀ e ∈ es, share.EntryKey e.key) (hs : Sorted share.secondKeyCompare Slot.key es) :
    l.Pairwise fun a b ↦
      share.secondKeyCompare (share.packKey i a.record) (share.packKey i b.record) < 0 := by
  have hk : ∀ r, share.EntryKey (share.packKey i r) :=
    fun r ↦ (TableShare.packKey_entryKey r hi hik).1
  induction hl with
  | nil => exact .nil
  | @cons e row es l hrow hl ih =>
    obtain ⟨hhead, htail⟩ := List.pairwise_cons.mp hs
    refine List.pairwise_cons.mpr ⟨fun row' hrow' ↦ ?_,
      ih (fun e' he' ↦ hes e' (by simp [he'])) htail⟩
    obtain ⟨e', he', hek'⟩ := forall₂_left_mem hl.flip hrow'
    have hS := hes e (by simp)
    have hS' := hes e' (by simp [he'])
    have hlt := ord.second.lt_of_le_of_lt (hk row.record) hS hS'
      (Int.le_of_eq (ord.second.symm hS (hk _) hrow.2)) (hhead e' he')
    exact ord.second.lt_of_lt_of_le (hk row.record) hS' (hk row'.record) hlt
      (Int.le_of_eq hek'.2)

/-- The rows listed by all entries of an index are all rows, each once. -/
theorem Consistent.inOrder (hc : Consistent share rows s) (ord : share.Ordered)
    (ho : Opened share s) (hi : 1 ≤ i) (hik : i < share.keys) {es : List (Slot Key)}
    {l : List Row} (hl : List.Forall₂ (EntryOf share i rows) es l)
    (hsub : es.Sublist s.entries) (hall : ∀ e ∈ s.entries, indexOf e.key = i → e ∈ es) :
    InOrder share i rows l := by
  obtain ⟨_, hv⟩ := ho.exists_second (by omega)
  have hkey : ∀ r, share.EntryKey (share.packKey i r) :=
    fun r ↦ (TableShare.packKey_entryKey r hi hik).1
  have hsorted := rows_sorted ord hi hik hl (fun e he ↦ hv.keys e (hsub.subset he))
    (hv.sorted.sublist hsub)
  have hnodup : l.Nodup := by
    refine hsorted.imp ?_
    rintro a _ hlt rfl
    rw [ord.second.self (hkey a.record)] at hlt
    exact absurd hlt (by decide)
  have hnodup' : rows.Nodup := by
    refine hc.distinct.imp ?_
    rintro a _ hne rfl
    exact hne (ord.primary.self TableShare.primaryKey_primaryKey)
  refine ⟨(List.perm_ext_iff_of_nodup hnodup hnodup').mpr fun row ↦ ⟨fun hrow ↦ ?_,
    fun hrow ↦ ?_⟩, hsorted⟩
  · obtain ⟨e, _, he⟩ := forall₂_left_mem hl.flip hrow
    exact he.1
  · have hmem := mem_indexes.mpr ⟨hi, hik⟩
    obtain ⟨e, he, hek⟩ := hc.entry row hrow i hmem
    obtain ⟨row', hrow', hek'⟩ := forall₂_left_mem hl (hall e he (indexOf_of_eq hi hik hek))
    have hhas := (eq_of_packKeys ord (hv.keys e he) hmem hmem hek hek'.2).2
    rwa [hc.eq_of_has ord hrow hek'.1 hhas]

/-- A call that comes to the first of the entries left, and moves on after it, return the rows of
these entries. -/
private theorem yields (ord : share.Ordered) (hi : 1 ≤ i) (hik : i < share.keys) {back : Bool}
    {rest : List (Slot Key)} {l : List Row} (hl : List.Forall₂ (EntryOf share i rows) rest l)
    {call : HandlerM Int} {done : List (Slot Key)} {err : Int} (herr : err ≠ 0)
    (ho : Opened share s) (hc : Consistent share rows s) (hact : s.activeIndex = i)
    (hlive : s.secondTree.liveFrom back = done ++ rest)
    (hcall : wp (fun _ ↦ False) call (fun code s' ↦ Opened share s' ∧ OnlyCursors s s' ∧
      Looks s s' ∧ MoveOutcome share s buf err rest.head? code s') s) :
    Yields share server back buf call l s := by
  induction hl generalizing s call done err with
  | nil =>
    refine wp_mono hcall ?_
    rintro code s' ⟨_, _, _, hout⟩
    cases hout
    exact herr
  | @cons e row rest l hrow hl ih =>
    refine wp_mono hcall ?_
    rintro code s' ⟨ho', honly, hlooks, hout⟩
    cases hout with
    | «at» _ _ _ he hst hentry =>
      rw [hact] at hentry
      obtain ⟨hcode, hbytes⟩ := hentry.returns hc ord ho ⟨hi, hik⟩ he hrow.1 hrow.2
      refine ⟨hcode, ⟨⟨e, he, hst, hact ▸ hrow.2⟩, hbytes⟩, ?_⟩
      have hact' : s'.activeIndex = i := by
        rw [honly]
        exact hact
      have hlive' : s'.secondTree.liveFrom back = done ++ e :: rest := by
        unfold BTree.liveFrom at hlive ⊢
        rwa [hlooks.second.live]
      obtain ⟨_, hv'⟩ := ho'.exists_second (by omega)
      have hsearch := BTree.search_after ord.second hv'.sorted hv'.keys hlive'
      refine ih (by decide : HA_ERR_END_OF_FILE ≠ 0) ho' (hc.congr hlooks.primary hlooks.second)
        hact' (by rw [hlive', List.append_cons]) ?_
      have hmove : HaExample.advanceIndex share server back buf =
          HaExample.moveIndex share server (Iterator.advance back) HA_ERR_END_OF_FILE buf := by
        cases back <;> rfl
      rw [hmove]
      apply ho'.wp_advance_second ord (by omega) hst (by decide)
      intro code s'' ho'' honly' hlooks' hout'
      rw [← hsearch]
      exact ⟨ho'', honly', hlooks', hout'⟩

/-- The start of a scan comes to the first of the entries in its direction. -/
private theorem startIndex_eq (share : TableShare) (server : Server) (back : Bool) (buf : Nat) :
    HaExample.startIndex share server back buf =
      HaExample.moveIndex share server (Iterator.start back) HA_ERR_KEY_NOT_FOUND buf := by
  cases back <;> rfl

/-- What a scan returns first is at the entry that comes first of all indexes. -/
private theorem Yields.head (ord : share.Ordered) (ho : Opened share s) {back : Bool}
    (h1 : 1 ≤ s.activeIndex) {row : Row} {rest : List Row}
    (h : Yields share server back buf (HaExample.startIndex share server back buf)
      (row :: rest) s) :
    ∃ e, (s.secondTree.liveFrom back).head? = some e ∧ indexOf e.key = s.activeIndex := by
  have hstart : wp (fun _ ↦ False) (HaExample.startIndex share server back buf) (fun code s' ↦
      MoveOutcome share s buf HA_ERR_KEY_NOT_FOUND (s.secondTree.liveFrom back).head? code s')
      s := by
    rw [startIndex_eq]
    exact ho.wp_start_second ord h1 (by decide) fun code s' _ _ _ hout ↦ hout
  obtain ⟨code, s', hrun, hout⟩ := exists_run hstart
  obtain ⟨hcode, ⟨⟨e, he, hst, hek⟩, _⟩, _⟩ := wp_ok h hrun
  generalize (s.secondTree.liveFrom back).head? = target at hout ⊢
  cases hout with
  | nowhere => exact absurd hcode (by decide)
  | «at» e' _ _ _ hst' _ =>
    obtain rfl := hst.unique hst'
    exact ⟨_, rfl, indexOf_of_eq h1 ho.active hek⟩

end Entries

section Tables

variable {share : TableShare} {server : Server} {rows : List Row} {s : HaExample} {buf : Nat}
  {W : HaExample → Nat → Prop}

/-- Where all entries are of the active index, the cursor does not leave it. -/
private theorem Consistent.isolated (hc : Consistent share rows s) (ord : share.Ordered)
    (ho : Opened share s) (h1 : 1 ≤ s.activeIndex) (hone : share.keys = 2 ∨ rows = []) :
    Isolated share server s := by
  have hactive := ho.active
  have hidx : ∀ e ∈ s.entries, indexOf e.key = s.activeIndex := by
    intro e he
    obtain ⟨row, _, hek⟩ := hc.index_eq hone h1 hactive e he
    exact indexOf_of_eq h1 hactive hek
  have hmoved : ∀ {buf : Nat} {err : Int} {target : Option (Slot Key)} {code : Int}
      {s' : HaExample}, err ≠ 0 → MoveOutcome share s buf err target code s' → code = 0 →
      ∃ e, Stands s'.secondTree s'.secIt e ∧ indexOf e.key = s.activeIndex := by
    intro buf err target code s' herr hout hcode
    cases hout with
    | nowhere => exact absurd hcode herr
    | «at» e _ _ he hst _ => exact ⟨e, hst, hidx e he⟩
  have hpos : Request.Positioned s → ∃ e, Stands s.secondTree s.secIt e := by
    intro h
    unfold Request.Positioned at h
    rwa [if_neg (by omega)] at h
  intro req hmoves ha
  cases req with
  | indexRead buf v f =>
    exact ho.wp_indexRead_second ord h1 fun code s' _ _ _ hout ↦ hmoved f.err_ne_zero hout
  | indexFirst buf =>
    show wp _ (HaExample.moveIndex share server (Iterator.start false) _ buf) _ s
    exact ho.wp_start_second ord h1 (by decide) fun code s' _ _ _ hout ↦ hmoved (by decide) hout
  | indexLast buf =>
    show wp _ (HaExample.moveIndex share server (Iterator.start true) _ buf) _ s
    exact ho.wp_start_second ord h1 (by decide) fun code s' _ _ _ hout ↦ hmoved (by decide) hout
  | indexNext buf =>
    obtain ⟨e, hst⟩ := hpos ha
    show wp _ (HaExample.moveIndex share server (Iterator.advance false) _ buf) _ s
    exact ho.wp_advance_second ord h1 hst (by decide) fun code s' _ _ _ hout ↦
      hmoved (by decide) hout
  | indexPrev buf =>
    obtain ⟨e, hst⟩ := hpos ha
    show wp _ (HaExample.moveIndex share server (Iterator.advance true) _ buf) _ s
    exact ho.wp_advance_second ord h1 hst (by decide) fun code s' _ _ _ hout ↦
      hmoved (by decide) hout
  | _ => exact hmoves.elim

/-- Where all entries are of the active index, scans return the rows. -/
private theorem Consistent.scansRows (hc : Consistent share rows s) (ord : share.Ordered)
    (ho : Opened share s) (h1 : 1 ≤ s.activeIndex) (hone : share.keys = 2 ∨ rows = []) :
    ScansRows share server buf rows s := by
  have hactive := ho.active
  obtain ⟨l, hl⟩ := exists_rows (hc.index_eq hone h1 hactive)
  have hstart : ∀ (back : Bool) (es : List (Slot Key)), s.secondTree.liveFrom back = es →
      ∀ {l}, List.Forall₂ (EntryOf share s.activeIndex rows) es l →
      Yields share server back buf (HaExample.startIndex share server back buf) l s := by
    intro back es hes l hl
    refine yields ord h1 hactive hl (by decide : HA_ERR_KEY_NOT_FOUND ≠ 0) ho hc rfl
      (show s.secondTree.liveFrom back = [] ++ es from hes) ?_
    rw [startIndex_eq, ← hes]
    exact ho.wp_start_second ord h1 (by decide) fun code s' ho' honly hlooks hout ↦
      ⟨ho', honly, hlooks, hout⟩
  exact ⟨l, hc.inOrder ord ho h1 hactive hl (.refl _) fun _ he _ ↦ he, hstart false _ rfl hl,
    hstart true s.entries.reverse rfl (List.rel_reverse hl)⟩

/-- Scans that return the rows need all entries to be of the active index. -/
private theorem ScansRows.one_index (h : ScansRows share server buf rows s)
    (hc : Consistent share rows s) (ord : share.Ordered) (ho : Opened share s)
    (h1 : 1 ≤ s.activeIndex) : share.keys = 2 ∨ rows = [] := by
  have hactive := ho.active
  obtain ⟨_, hv⟩ := ho.exists_second (by omega)
  obtain ⟨l, hin, hfirst, hlast⟩ := h
  cases l with
  | nil => exact .inr hin.perm.nil_eq.symm
  | cons row l =>
    obtain ⟨row', l', hrev⟩ : ∃ row' l', (row :: l).reverse = row' :: l' :=
      List.exists_cons_of_ne_nil (by simp)
    rw [hrev] at hlast
    obtain ⟨a, ha, hia⟩ := hfirst.head ord ho h1
    obtain ⟨b, hb, hib⟩ := hlast.head ord ho h1
    have hentry : ∀ j ∈ HaExample.indexes share, ∃ e ∈ s.entries, indexOf e.key = j := by
      intro j hj
      obtain ⟨hj1, hjk⟩ := mem_indexes.mp hj
      obtain ⟨e, he, hek⟩ := hc.entry row (hin.perm.subset (by simp)) j hj
      exact ⟨e, he, indexOf_of_eq hj1 hjk hek⟩
    have hsorted : Sorted share.secondKeyCompare Slot.key s.entries := hv.sorted
    have hlow : ∀ e ∈ s.entries, indexOf a.key ≤ indexOf e.key := by
      obtain ⟨tail, htail⟩ := List.head?_eq_some_iff.mp (show s.entries.head? = some a from ha)
      intro e he
      have hS := hv.keys e he
      rw [htail] at he hsorted
      rcases List.mem_cons.mp he with rfl | he
      · exact Nat.le_refl _
      · exact hS.indexOf_le (Int.le_of_lt ((List.pairwise_cons.mp hsorted).1 e he))
    have hhigh : ∀ e ∈ s.entries, indexOf e.key ≤ indexOf b.key := by
      have hb : s.entries.reverse.head? = some b := hb
      rw [List.head?_reverse] at hb
      obtain ⟨init, hinit⟩ := List.getLast?_eq_some_iff.mp hb
      intro e he
      have hS := hv.keys b (List.mem_of_getLast? hb)
      rw [hinit] at he hsorted
      rcases List.mem_append.mp he with he | he
      · exact hS.indexOf_le (Int.le_of_lt
          ((List.pairwise_append.mp hsorted).2.2 e he b (by simp)))
      · exact Nat.le_of_eq (congrArg _ (congrArg Slot.key (List.mem_singleton.mp he)))
    obtain ⟨e, he, hie⟩ := hentry 1 (mem_indexes.mpr ⟨Nat.le_refl 1, by omega⟩)
    obtain ⟨e', he', hie'⟩ := hentry (share.keys - 1) (mem_indexes.mpr (by omega))
    have hle := hlow e he
    have hge := hhigh e' he'
    exact .inl (by omega)

/-- In every state of a table, the cursor of the active secondary index stays in this index, and
scans return the live rows once in its order and in reverse, exactly when the table has one
secondary index or no live row. -/
theorem indexes_isolated_iff (ord : share.Ordered) (hs : Stored share server W rows s)
    (h1 : 1 ≤ s.activeIndex) :
    Isolated share server s ∧ ScansRows share server buf rows s ↔
      share.keys = 2 ∨ rows = [] := by
  obtain ⟨ho, hc⟩ := hs.sound ord
  constructor
  · rintro ⟨_, hscan⟩
    exact hscan.one_index hc ord ho h1
  · intro hone
    exact ⟨hc.isolated ord ho h1 hone, hc.scansRows ord ho h1 hone⟩

end Tables

section Samples

/-- Two rows of a table with one secondary index. -/
private def twoOptional : HaExample :=
  afterOptional (store 0 5 7 ++ store 0 4 8 ++ [.indexInit 1])

private theorem twoOptional_run : (Request.performAll optional recalling
    (store 0 5 7 ++ store 0 4 8 ++ [.indexInit 1])).run openedOptional =
      .ok ([0, 0, 0, 0, 0], twoOptional) := run_of_answers (by decide +kernel)

attribute [irreducible] twoOptional

/-- One secondary index. -/
theorem twoOptional_isolated : ∃ rows, Isolated optional recalling twoOptional ∧
    ScansRows optional recalling 0 rows twoOptional := by
  obtain ⟨s₁, hs₁, hn₁, _, hrest⟩ := (openedOptional_stored fun _ _ ↦ True).store
    optional_ordered openedOptional_fresh.1 (by decide) trivial twoOptional_run
  obtain ⟨s₂, hs₂, _, _, hrest⟩ := hs₁.store optional_ordered hn₁ (by decide) trivial hrest
  obtain ⟨s₃, hinit, hdone⟩ := performAll_cons hrest
  have hs₃ := hs₂.other _ s₂ s₃ (.indexInit 1) 0 id (show 1 < 2 by decide) hinit
  cases hdone
  exact ⟨_, (indexes_isolated_iff optional_ordered hs₃ (by decide +kernel)).mpr (.inl rfl)⟩

/-- The code of `index_last`, and the index number under the cursor after it. -/
private def lastNumber (s : HaExample) : Option (Int × Option Nat) :=
  match (HaExample.indexLast digits lenient 1).run s with
  | .error _ => none
  | .ok (code, s') => some (code, (s'.secIt.slot s'.secondTree).map fun e ↦ indexOf e.key)

/-- With two secondary indexes, `index_last` on the first comes to an entry of the second. -/
theorem last_not_isolated : ¬ ∀ (share : TableShare) (server : Server)
    (W : HaExample → Nat → Prop) (rows : List Row) (s : HaExample), share.Ordered →
    Stored share server W rows s → 1 ≤ s.activeIndex → ∀ buf,
    Isolated share server s ∧ ScansRows share server buf rows s := by
  intro hall
  obtain ⟨rows, hs⟩ := indexedTable_stored
  have hlast : lastNumber indexedTable = some (0, some 2) := by decide +kernel
  unfold lastNumber at hlast
  split at hlast
  · cases hlast
  next code s' hrun =>
  simp only [Option.some.injEq, Prod.mk.injEq, Option.map_eq_some_iff] at hlast
  obtain ⟨rfl, e, hslot, hidx⟩ := hlast
  obtain ⟨hiso, _⟩ := hall digits lenient _ rows indexedTable digits_ordered hs (by decide) 1
  obtain ⟨e', hst, hidx'⟩ := wp_ok (hiso (.indexLast 1) trivial trivial) hrun rfl
  obtain rfl := hst.unique (stands_of_slot hslot)
  exact absurd (hidx.symm.trans hidx') (by decide)

end Samples

end ExampleEngine.Handler
