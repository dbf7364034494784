import ExampleEngine.Handler.Rows

/-!
# Fetching rows

Library `Handler`. What the reading functions of `src/ha_example.cc:381–400,737–957,972–1069`
return, by the entry that a cursor moves to. They change no row and no entry.
-/

namespace ExampleEngine.Handler

open ExampleEngine.Base ExampleEngine.Storage ExampleEngine.Index

/-- Reading changes neither tree. -/
structure Looks (s s' : HaExample) : Prop where
  primary : BTree.Same s.pBtree s'.pBtree
  second : BTree.Same s.secondTree s'.secondTree

/-- Looking twice. -/
theorem Looks.trans {s s₁ s₂ : HaExample} (h : Looks s s₁) (h' : Looks s₁ s₂) : Looks s s₂ :=
  ⟨h.primary.trans h'.primary, h.second.trans h'.second⟩

theorem Looks.refl (s : HaExample) : Looks s s := ⟨.refl _, .refl _⟩

theorem OnlyServer.looks {s s' : HaExample} (h : OnlyServer s s') : Looks s s' :=
  ⟨h.pBtree ▸ .refl _, h.secondTree ▸ .refl _⟩

/-- What `rnd_pos` finds at a primary key. -/
inductive RowOutcome (share : TableShare) (s : HaExample) (buf : Nat) (pos : Key) :
    Int → HaExample → Prop
  /-- No live row has it. -/
  | missing (s' : HaExample)
      (hne : ∀ e ∈ s.pBtree.live, share.primaryKeyCompare e.key pos ≠ 0) :
      RowOutcome share s buf pos HA_ERR_KEY_NOT_FOUND s'
  /-- The row is unpacked. -/
  | found (s' : HaExample) (e : Slot Key) (p : Nat → UInt8) (he : e ∈ s.pBtree.live)
      (hek : share.primaryKeyCompare e.key pos = 0)
      (hp : valueOf share.primary s.pBtree.page e.value = some p)
      (hrecord : s'.record = share.unpackRow p buf s.record)
      (hstands : Stands s'.pBtree s'.primaryIt e) : RowOutcome share s buf pos 0 s'

/-- What `get_cur_row` returns for an entry of index `key`. -/
inductive EntryOutcome (share : TableShare) (s : HaExample) (key buf : Nat) (e : Slot Key) :
    Int → HaExample → Prop
  /-- The columns of the entry, without the row. -/
  | restored (s' : HaExample) (hk : s.keyRead = true) : EntryOutcome share s key buf e 0 s'
  /-- The row that the end of the entry leads to. -/
  | row (s' : HaExample) (code : Int) (hk : s.keyRead = false)
      (h : RowOutcome share s buf (e.key.drop (1 + (share.keyInfo key).keyLength)) code s') :
      EntryOutcome share s key buf e code s'

/-- The outcome is about the rows, the buffers and the mode. -/
theorem EntryOutcome.congr {share : TableShare} {s s₁ s' : HaExample} {key buf : Nat}
    {e : Slot Key} {code : Int} (h : EntryOutcome share s₁ key buf e code s')
    (hp : s₁.pBtree = s.pBtree) (hr : s₁.record = s.record) (hk : s₁.keyRead = s.keyRead) :
    EntryOutcome share s key buf e code s' := by
  cases h with
  | restored _ hread => exact .restored _ (hk ▸ hread)
  | row _ _ hread hrow =>
    refine .row _ _ (hk ▸ hread) ?_
    cases hrow with
    | missing _ hne => exact .missing _ (hp ▸ hne)
    | found _ e' p he hek hval hrec hst =>
      exact .found _ e' p (hp ▸ he) hek (hp ▸ hval) (hr ▸ hrec) hst

/-- Only the tree of rows changes, with its cursor and the record buffers. -/
def OnlyRow (s s' : HaExample) : Prop :=
  s' = { s with pBtree := s'.pBtree, primaryIt := s'.primaryIt, record := s'.record }

/-- A live row was unpacked into a buffer, and the cursor of the primary key stands on it. -/
def Unpacked (share : TableShare) (s : HaExample) (buf : Nat) (s' : HaExample) : Prop :=
  ∃ e ∈ s.pBtree.live, ∃ p, valueOf share.primary s.pBtree.page e.value = some p ∧
    s'.record = share.unpackRow p buf s.record ∧ Stands s'.pBtree s'.primaryIt e

/-- A read that succeeds unpacked a row, unless it was of an index only. -/
def Fetches (share : TableShare) (s : HaExample) (buf : Nat) (code : Int) (s' : HaExample) : Prop :=
  code = 0 → s.activeIndex = 0 ∨ s.keyRead = false → Unpacked share s buf s'

section Rows

variable {share : TableShare} {server : Server} {s : HaExample} {buf : Nat} {E : Fault → Prop}

/-- A move of `primary_it`. -/
theorem Opened.wp_movePrimary (h : Opened share s)
    (move : Iterator → TreeM Key (Int × Iterator)) {P : Int × Iterator → BTree Key → Prop}
    (hm : wp E (move s.primaryIt) (fun r t' ↦ BTree.Valid share.primary share.PrimaryKey t' ∧
      BTree.Same s.pBtree t' ∧ P r t') s.pBtree) {Q : Int → HaExample → Prop}
    (hQ : ∀ r t', Opened share { s with pBtree := t', primaryIt := r.2 } →
      BTree.Same s.pBtree t' → P r t' → Q r.1 { s with pBtree := t', primaryIt := r.2 }) :
    wp E (HaExample.movePrimary move) Q s := by
  unfold HaExample.movePrimary
  simp only [wp_bind, wp_get, wp_onPrimary, wp_modify, wp_pure]
  refine wp_mono hm ?_
  rintro r t' ⟨hv, hsame, hP⟩
  exact hQ r t' { h with primary := hv } hsame hP

/-- A move of `sec_it`. -/
theorem Opened.wp_moveSecond (h : Opened share s) (hkeys : 1 < share.keys)
    (move : Iterator → TreeM Key (Int × Iterator)) {P : Int × Iterator → BTree Key → Prop}
    (hm : wp E (move s.secIt) (fun r t' ↦ BTree.Valid share.second share.EntryKey t' ∧
      BTree.Same s.secondTree t' ∧ P r t') s.secondTree) {Q : Int → HaExample → Prop}
    (hQ : ∀ r t', Opened share { s with sBtree := some t', secIt := r.2 } →
      BTree.Same s.secondTree t' → P r t' → Q r.1 { s with sBtree := some t', secIt := r.2 }) :
    wp E (HaExample.moveSecond move) Q s := by
  obtain ⟨hsome, _⟩ := h.exists_second hkeys
  unfold HaExample.moveSecond
  simp only [wp_bind, wp_get, wp_onSecond, hsome, wp_modify, wp_pure]
  refine wp_mono hm ?_
  rintro r t' ⟨hv, hsame, hP⟩
  exact hQ r t' { h.withSecond hkeys hv h.keyBuffer with } hsame hP

/-- Unpacking the row under `primary_it`. -/
theorem Opened.wp_getPrimaryRow (h : Opened share s) {e : Slot Key} (he : e ∈ s.pBtree.live)
    (hst : Stands s.pBtree s.primaryIt e) {Q : Int → HaExample → Prop}
    (hQ : ∀ p s', valueOf share.primary s.pBtree.page e.value = some p → Opened share s' →
      OnlyRow s s' → Looks s s' → s'.record = share.unpackRow p buf s.record →
      Stands s'.pBtree s'.primaryIt e → Q 0 s') :
    wp E (HaExample.getPrimaryRow share buf) Q s := by
  unfold HaExample.getPrimaryRow
  simp only [wp_bind, wp_get, wp_onPrimary]
  refine wp_mono (h.primary.wp_getValue hst) ?_
  rintro _ t' ⟨hv, hsame, rfl⟩
  cases hp : valueOf share.primary s.pBtree.page e.value with
  | none => exact absurd hp (h.primary.valueOf_ne_none e he)
  | some p =>
    simp only [wp_bind, wp_modify, wp_pure]
    exact hQ p _ hp { h with primary := hv } rfl ⟨hsame, .refl _⟩ rfl (hsame.stands hst)

/-- `rnd_pos` finds the row with a primary key. -/
theorem Opened.wp_rndPos (h : Opened share s) (ord : share.Ordered) {pos : Key}
    (hpos : share.PrimaryKey pos) {Q : Int → HaExample → Prop}
    (hQ : ∀ code s', Opened share s' → OnlyRow s s' → Looks s s' →
      RowOutcome share s buf pos code s' → Q code s') :
    wp E (HaExample.rndPos share buf pos) Q s := by
  unfold HaExample.rndPos
  rw [wp_bind]
  refine h.wp_movePrimary _ (wp_locateExact h.primary ord.primary hpos) ?_
  rintro r t' ho hsame (⟨hr, hne⟩ | ⟨hr, e, he, hek, hst⟩)
  · rw [if_pos hr, wp_pure]
    exact hQ _ _ ho rfl ⟨hsame, .refl _⟩ (.missing _ hne)
  · rw [if_neg (by omega)]
    refine ho.wp_getPrimaryRow (by rwa [hsame.live]) hst fun p s' hp ho' honly hlooks hrec hst' ↦ ?_
    refine hQ 0 s' ho' ?_ ⟨hsame.trans hlooks.primary, hlooks.second⟩
      (.found s' e p he hek (hsame.page ▸ hp) hrec hst')
    unfold OnlyRow at *
    rw [honly]

/-- `get_cur_row` on the primary key. -/
theorem Opened.wp_getCurRow_zero (h : Opened share s) {e : Slot Key} (he : e ∈ s.pBtree.live)
    (hst : Stands s.pBtree s.primaryIt e) {Q : Int → HaExample → Prop}
    (hQ : ∀ p s', valueOf share.primary s.pBtree.page e.value = some p → Opened share s' →
      OnlyRow s s' → Looks s s' → s'.record = share.unpackRow p buf s.record →
      Stands s'.pBtree s'.primaryIt e → Q 0 s') :
    wp E (HaExample.getCurRow share server 0 buf) Q s := by
  unfold HaExample.getCurRow
  rw [if_pos rfl]
  exact h.wp_getPrimaryRow he hst hQ

/-- What is behind the columns of any index is long enough for a primary key. -/
theorem primaryKey_drop {i : Nat} {a : Key} (ha : share.EntryKey a) (h1 : 1 ≤ i)
    (hi : i < share.keys) : share.PrimaryKey (a.drop (1 + (share.keyInfo i).keyLength)) := by
  have hle := TableShare.keyLength_le_max h1 hi
  have hlen := ha.1
  unfold TableShare.PrimaryKey
  rw [List.length_drop]
  omega

/-- `get_cur_row` on the entry under `sec_it`. -/
theorem Opened.wp_getCurRow (h : Opened share s) (ord : share.Ordered) {key : Nat}
    (h1 : 1 ≤ key) (hkey : key < share.keys) {e : Slot Key} (he : e ∈ s.entries)
    (hst : Stands s.secondTree s.secIt e) {Q : Int → HaExample → Prop}
    (hQ : ∀ code s', Opened share s' → OnlyRow s s' → Looks s s' →
      EntryOutcome share s key buf e code s' → Q code s') :
    wp E (HaExample.getCurRow share server key buf) Q s := by
  obtain ⟨hsome, hv⟩ := h.exists_second (by omega)
  unfold HaExample.getCurRow
  simp only [show key ≠ 0 by omega, if_false, wp_bind, wp_get, wp_onSecond, hsome,
    hv.wp_getKey hst]
  have hs : ({ s with sBtree := some s.secondTree } : HaExample) = s := by rw [← hsome]
  rw [hs]
  by_cases hk : s.keyRead = true
  · rw [if_pos hk]
    simp only [wp_bind, wp_modify, wp_pure]
    exact hQ 0 _ { h with } rfl ⟨.refl _, .refl _⟩ (.restored _ hk)
  · rw [if_neg hk]
    have hk : s.keyRead = false := by simpa using hk
    exact h.wp_rndPos ord (primaryKey_drop (hv.keys e he) h1 hkey) fun code s' ho honly hl hrow ↦
      hQ code s' ho honly hl (.row s' code hk hrow)

/-- Only the trees' blocks in the pool, the cursors and the buffers change. -/
def OnlyCursors (s s' : HaExample) : Prop :=
  s' = { s with
    pBtree := s'.pBtree, sBtree := s'.sBtree, primaryIt := s'.primaryIt, secIt := s'.secIt
    record := s'.record, keyBuffer := s'.keyBuffer }

private theorem OnlyRow.onlyCursors {s' : HaExample} {o : Option (BTree Key)} {it : Iterator}
    (h : OnlyRow { s with sBtree := o, secIt := it } s') :
    OnlyCursors s s' ∧ s'.sBtree = o ∧ s'.secIt = it := by
  unfold OnlyRow at h
  unfold OnlyCursors
  rw [h]
  exact ⟨rfl, rfl, rfl⟩

private theorem OnlyRow.onlyCursors' {s' : HaExample} {t : BTree Key} {it : Iterator}
    (h : OnlyRow { s with pBtree := t, primaryIt := it } s') : OnlyCursors s s' := by
  unfold OnlyRow at h
  unfold OnlyCursors
  rw [h]

/-- Where a cursor on a secondary index comes to, and what is fetched there. -/
inductive MoveOutcome (share : TableShare) (s : HaExample) (buf : Nat) (err : Int) :
    Option (Slot Key) → Int → HaExample → Prop
  /-- The cursor finds nothing. -/
  | nowhere (s' : HaExample) : MoveOutcome share s buf err none err s'
  /-- The cursor comes to an entry. -/
  | at (e : Slot Key) (code : Int) (s' : HaExample) (he : e ∈ s.entries)
      (hst : Stands s'.secondTree s'.secIt e)
      (hrow : EntryOutcome share s s.activeIndex buf e code s') :
      MoveOutcome share s buf err (some e) code s'

/-- The key buffer is not looked at. -/
theorem MoveOutcome.withKey {k : Key} {s' : HaExample} {err code : Int}
    {target : Option (Slot Key)}
    (h : MoveOutcome share { s with keyBuffer := k } buf err target code s') :
    MoveOutcome share s buf err target code s' := by
  cases h with
  | nowhere _ => exact .nowhere _
  | «at» e code s' he hst hrow => exact .at e code s' he hst (hrow.congr rfl rfl rfl)

/-- A row that `rnd_pos` finds is unpacked. -/
theorem RowOutcome.fetches {pos : Key} {code : Int} {s' : HaExample}
    (h : RowOutcome share s buf pos code s') : Fetches share s buf code s' := by
  cases h with
  | missing => exact fun h0 ↦ absurd h0 (by decide)
  | found _ e p he _ hp hrec hst => exact fun _ _ ↦ ⟨e, he, p, hp, hrec, hst⟩

/-- So is the row of the entry that a cursor comes to. -/
theorem MoveOutcome.fetches {err code : Int} {target : Option (Slot Key)} {s' : HaExample}
    (h : MoveOutcome share s buf err target code s') (herr : err ≠ 0) (h1 : 1 ≤ s.activeIndex) :
    Fetches share s buf code s' := by
  cases h with
  | nowhere _ => exact fun h0 ↦ absurd h0 herr
  | «at» e code s' he hst hrow =>
    cases hrow with
    | restored _ hk =>
      intro _ hor
      rcases hor with h0 | h0
      · omega
      · simp [hk] at h0
    | row _ _ _ hrow => exact hrow.fetches

/-- The end of the index functions on a secondary index. -/
theorem Opened.wp_fetched_second (h : Opened share s) (ord : share.Ordered)
    (h1 : 1 ≤ s.activeIndex) {err : Int} (herr : err ≠ 0) {target : Option (Slot Key)}
    (htarget : ∀ e, target = some e → e ∈ s.entries) {r : Int × Iterator} {t' : BTree Key}
    (ho : Opened share { s with sBtree := some t', secIt := r.2 })
    (hsame : BTree.Same s.secondTree t') (hfound : Found t' r target)
    {Q : Int → HaExample → Prop}
    (hQ : ∀ code s', Opened share s' → OnlyCursors s s' → Looks s s' →
      MoveOutcome share s buf err target code s' → Q code s') :
    wp E (HaExample.fetched share server (if r.1 = 0 then err else 0) buf) Q
      { s with sBtree := some t', secIt := r.2 } := by
  unfold HaExample.fetched
  cases target with
  | none =>
    have hr : r.1 = 0 := hfound
    rw [if_pos hr, if_pos herr, wp_pure]
    exact hQ err _ ho rfl ⟨.refl _, hsame⟩ (.nowhere _)
  | some e =>
    obtain ⟨hr, hst⟩ : r.1 = 1 ∧ Stands t' r.2 e := hfound
    have he := htarget e rfl
    have hzero : ¬ (if r.1 = 0 then err else 0) ≠ 0 := by simp [hr]
    rw [if_neg hzero, wp_bind, wp_get]
    refine ho.wp_getCurRow ord h1 h.active (e := e) ?_ hst ?_
    · change e ∈ t'.live
      rwa [hsame.live]
    · intro code s' ho' honly hlooks hrow
      obtain ⟨hcur, hsec, hit⟩ := honly.onlyCursors
      refine hQ code s' ho' hcur ⟨hlooks.primary, hsame.trans hlooks.second⟩
        (.at e code s' he ?_ (hrow.congr rfl rfl rfl))
      rw [hit]
      exact hlooks.second.stands hst

/-- Where the cursor on the primary key comes to, and the row that is unpacked there. -/
inductive FetchOutcome (share : TableShare) (s : HaExample) (buf : Nat) (err : Int) :
    Option (Slot Key) → Int → HaExample → Prop
  /-- The cursor finds nothing. -/
  | nowhere (s' : HaExample) : FetchOutcome share s buf err none err s'
  /-- The cursor comes to a row. -/
  | at (e : Slot Key) (p : Nat → UInt8) (s' : HaExample) (he : e ∈ s.pBtree.live)
      (hp : valueOf share.primary s.pBtree.page e.value = some p)
      (hrecord : s'.record = share.unpackRow p buf s.record)
      (hst : Stands s'.pBtree s'.primaryIt e) : FetchOutcome share s buf err (some e) 0 s'

/-- Only the rows and the record buffers count. -/
theorem FetchOutcome.congr {err code : Int} {target : Option (Slot Key)} {s₁ s' : HaExample}
    (h : FetchOutcome share s buf err target code s') (hp : s₁.pBtree = s.pBtree)
    (hr : s₁.record = s.record) : FetchOutcome share s₁ buf err target code s' := by
  cases h with
  | nowhere => exact .nowhere _
  | «at» e p _ he hval hrec hst => exact .at e p _ (hp ▸ he) (hp ▸ hval) (hr ▸ hrec) hst

/-- The row that the cursor comes to is unpacked. -/
theorem FetchOutcome.fetches {err code : Int} {target : Option (Slot Key)} {s' : HaExample}
    (h : FetchOutcome share s buf err target code s') (herr : err ≠ 0) :
    Fetches share s buf code s' := by
  cases h with
  | nowhere _ => exact fun h0 ↦ absurd h0 herr
  | «at» e p s' he hp hrec hst => exact fun _ _ ↦ ⟨e, he, p, hp, hrec, hst⟩

/-- The end of the index functions on the primary key. -/
theorem Opened.wp_fetched_primary (h0 : s.activeIndex = 0) {err : Int}
    (herr : err ≠ 0) {target : Option (Slot Key)}
    (htarget : ∀ e, target = some e → e ∈ s.pBtree.live) {r : Int × Iterator}
    {t' : BTree Key} (ho : Opened share { s with pBtree := t', primaryIt := r.2 })
    (hsame : BTree.Same s.pBtree t') (hfound : Found t' r target)
    {Q : Int → HaExample → Prop}
    (hQ : ∀ code s', Opened share s' → OnlyCursors s s' → Looks s s' →
      FetchOutcome share s buf err target code s' → Q code s') :
    wp E (HaExample.fetched share server (if r.1 = 0 then err else 0) buf) Q
      { s with pBtree := t', primaryIt := r.2 } := by
  unfold HaExample.fetched
  cases target with
  | none =>
    have hr : r.1 = 0 := hfound
    rw [if_pos hr, if_pos herr, wp_pure]
    exact hQ err _ ho rfl ⟨hsame, .refl _⟩ (.nowhere _)
  | some e =>
    obtain ⟨hr, hst⟩ : r.1 = 1 ∧ Stands t' r.2 e := hfound
    have he := htarget e rfl
    have hzero : ¬ (if r.1 = 0 then err else 0) ≠ 0 := by simp [hr]
    rw [if_neg hzero, wp_bind, wp_get]
    have hrow : HaExample.getCurRow share server s.activeIndex buf =
        HaExample.getCurRow share server 0 buf := by rw [h0]
    change wp E (HaExample.getCurRow share server s.activeIndex buf) Q _
    rw [hrow]
    refine ho.wp_getCurRow_zero (e := e) ?_ hst ?_
    · change e ∈ t'.live
      rwa [hsame.live]
    · intro p s' hp ho' honly hlooks hrec hst'
      exact hQ 0 s' ho' honly.onlyCursors' ⟨hsame.trans hlooks.primary, hlooks.second⟩
        (.at e p s' he (hsame.page ▸ hp) hrec hst')

/-- A function that moves the cursor of a secondary index. -/
theorem Opened.wp_moveIndex_second (h : Opened share s) (ord : share.Ordered)
    (h1 : 1 ≤ s.activeIndex) {move : Iterator → TreeM Key (Int × Iterator)} {err : Int}
    (herr : err ≠ 0) (target : Option (Slot Key)) (htarget : ∀ e, target = some e → e ∈ s.entries)
    (hm : wp E (move s.secIt) (fun r t' ↦ BTree.Valid share.second share.EntryKey t' ∧
      BTree.Same s.secondTree t' ∧ Found t' r target) s.secondTree)
    {Q : Int → HaExample → Prop}
    (hQ : ∀ code s', Opened share s' → OnlyCursors s s' → Looks s s' →
      MoveOutcome share s buf err target code s' → Q code s') :
    wp E (HaExample.moveIndex share server move err buf) Q s := by
  have hkeys := h.active
  unfold HaExample.moveIndex
  simp only [wp_bind, wp_get, show s.activeIndex ≠ 0 by omega, ne_eq, not_false_eq_true, if_true]
  refine h.wp_moveSecond (by omega) move hm fun r t' ho hsame hfound ↦ ?_
  exact h.wp_fetched_second ord h1 herr htarget ho hsame hfound hQ

/-- A function that moves the cursor of the primary key. -/
theorem Opened.wp_moveIndex_primary (h : Opened share s) (h0 : s.activeIndex = 0)
    {move : Iterator → TreeM Key (Int × Iterator)} {err : Int} (herr : err ≠ 0)
    (target : Option (Slot Key)) (htarget : ∀ e, target = some e → e ∈ s.pBtree.live)
    (hm : wp E (move s.primaryIt) (fun r t' ↦ BTree.Valid share.primary share.PrimaryKey t' ∧
      BTree.Same s.pBtree t' ∧ Found t' r target) s.pBtree)
    {Q : Int → HaExample → Prop}
    (hQ : ∀ code s', Opened share s' → OnlyCursors s s' → Looks s s' →
      FetchOutcome share s buf err target code s' → Q code s') :
    wp E (HaExample.moveIndex share server move err buf) Q s := by
  unfold HaExample.moveIndex
  simp only [wp_bind, wp_get, h0, ne_eq, not_true_eq_false, if_false]
  refine h.wp_movePrimary move hm fun r t' ho hsame hfound ↦ ?_
  exact Opened.wp_fetched_primary h0 herr htarget ho hsame hfound hQ

end Rows

section Searches

variable {share : TableShare} {server : Server} {s : HaExample} {buf : Nat} {E : Fault → Prop}
  {i : Nat} {flag : UInt8} {k v : Key}

/-- The search key for the columns `v` of index `i`, with a marker, before what was in the
buffer. -/
def searchKey (i : Nat) (flag : UInt8) (v k : Key) : Key :=
  HaExample.marked flag (memcpy k (UInt8.ofNat i :: v))

theorem length_memcpy (dst src : Key) : dst.length ≤ (memcpy dst src).length := by
  unfold memcpy
  rw [List.length_append, List.length_drop]
  omega

theorem searchKey_eq : searchKey i flag v k =
    (UInt8.ofNat i ||| flag) :: (v ++ k.drop (v.length + 1)) := rfl

/-- It is as long as the buffer. -/
theorem length_searchKey : k.length ≤ (searchKey i flag v k).length := by
  rw [searchKey_eq, List.length_cons, List.length_append, List.length_drop]
  omega

/-- It is a marked key. -/
theorem markedKey_searchKey (h1 : 1 ≤ i) (hi : i < share.keys)
    (hk : share.primaryKeyLength + share.maxSecondKeyLength + 1 ≤ k.length) :
    share.MarkedKey i flag (searchKey i flag v k) := by
  have hle := TableShare.keyLength_le_max h1 hi
  have hlen : k.length ≤ (searchKey i flag v k).length := length_searchKey
  refine ⟨h1, hi, by rw [searchKey_eq]; rfl, by omega⟩

/-- What a search mode looks for among the entries of all indexes. -/
def HaRkeyFunction.target (share : TableShare) (i : Nat) (v k : Key) (es : List (Slot Key)) :
    HaRkeyFunction → Option (Slot Key)
  | .HA_READ_KEY_EXACT =>
    (IterFlag.KEY_OR_NEXT.search share.secondKeyCompare (searchKey i 0x80 v k) es).filter
      fun e ↦ share.entryCompare e.key (searchKey i 0x80 v k) = 0
  | .HA_READ_KEY_OR_NEXT =>
    IterFlag.KEY_OR_NEXT.search share.secondKeyCompare (searchKey i 0x80 v k) es
  | .HA_READ_KEY_OR_PREV =>
    IterFlag.KEY_OR_PREV.search share.secondKeyCompare (searchKey i 0x80 v k) es
  | .HA_READ_AFTER_KEY =>
    IterFlag.AFTER_KEY.search share.secondKeyCompare (searchKey i 0x80 v k) es
  | .HA_READ_BEFORE_KEY =>
    IterFlag.BEFROE_KEY.search share.secondKeyCompare (searchKey i 0x80 v k) es
  | .HA_READ_PREFIX_LAST_OR_PREV =>
    IterFlag.KEY_OR_PREV.search share.secondKeyCompare (searchKey i 0x40 v k) es
  | .other => none

/-- The code of a search that finds nothing. -/
def HaRkeyFunction.err : HaRkeyFunction → Int
  | .other => HA_ERR_WRONG_COMMAND
  | _ => HA_ERR_KEY_NOT_FOUND

theorem HaRkeyFunction.err_ne_zero (f : HaRkeyFunction) : f.err ≠ 0 := by
  cases f <;> decide

/-- What is looked for is an entry. -/
theorem HaRkeyFunction.mem_of_target {f : HaRkeyFunction} {es : List (Slot Key)} {e : Slot Key}
    (h : f.target share i v k es = some e) : e ∈ es := by
  cases f with
  | HA_READ_KEY_EXACT =>
    unfold HaRkeyFunction.target at h
    exact (IterFlag.of_search (Option.filter_eq_some_iff.mp h).1).1
  | other => cases h
  | _ => exact (IterFlag.of_search h).1

/-- The probe that a marked search key makes. -/
theorem Opened.probe (h : Opened share s) (ord : share.Ordered) (h1 : 1 ≤ i)
    (hi : i < share.keys) (hflag : flag = 0x80 ∨ flag = 0x40)
    (hk : share.primaryKeyLength + share.maxSecondKeyLength + 1 ≤ k.length) :
    Probe share.secondKeyCompare Slot.key (searchKey i flag v k) s.secondTree.slots := by
  obtain ⟨_, hv⟩ := h.exists_second (by omega)
  obtain ⟨hsorted, hkeys⟩ := hv.slots
  have hm : share.MarkedKey i flag (searchKey i flag v k) := markedKey_searchKey h1 hi hk
  rcases hflag with rfl | rfl
  · obtain ⟨hsk, _, hmark⟩ := TableShare.marks_first hm
    exact TableShare.probe_of_marks ord hsorted hkeys hsk (by decide) hmark
  · obtain ⟨hsk, _, hmark⟩ := TableShare.marks_last hm
    exact TableShare.probe_of_marks ord hsorted hkeys hsk (by decide) hmark

/-- A search with a marker on a secondary index. -/
theorem Opened.wp_locateKey_second (h : Opened share s) (ord : share.Ordered)
    (h1 : 1 ≤ s.activeIndex) (hk : s.keyBuffer = memcpy k (UInt8.ofNat s.activeIndex :: v))
    (hlen : share.primaryKeyLength + share.maxSecondKeyLength + 1 ≤ k.length)
    (hflag : flag = 0x80 ∨ flag = 0x40) {f f' : IterFlag} {Q : Int → HaExample → Prop}
    (hQ : ∀ r t', Opened share { s with
        keyBuffer := searchKey s.activeIndex flag v k, sBtree := some t', secIt := r.2 } →
      BTree.Same s.secondTree t' →
      Found t' r (f.search share.secondKeyCompare (searchKey s.activeIndex flag v k) s.entries) →
      Q (if r.1 = 0 then HA_ERR_KEY_NOT_FOUND else 0) { s with
        keyBuffer := searchKey s.activeIndex flag v k, sBtree := some t', secIt := r.2 }) :
    wp E (HaExample.locateKey share flag f f') Q s := by
  have hkeys := h.active
  obtain ⟨hsome, hv⟩ := h.exists_second (by omega)
  have hsk : HaExample.marked flag s.keyBuffer = searchKey s.activeIndex flag v k := by
    rw [hk]
    rfl
  have ho : Opened share { s with keyBuffer := searchKey s.activeIndex flag v k } :=
    { h with keyBuffer := Nat.le_trans hlen length_searchKey }
  unfold HaExample.locateKey
  simp only [wp_bind, wp_get, show s.activeIndex ≠ 0 by omega, ne_eq, not_false_eq_true, if_true,
    wp_modify, hsk, wp_pure]
  refine ho.wp_moveSecond (by omega) _ (hv.wp_locate (h.probe ord h1 h.active hflag hlen)) ?_
  exact fun r t' ho' hsame hfound ↦ hQ r t' ho' hsame hfound

/-- The check of the columns found. -/
theorem Opened.wp_checkPrefix (h : Opened share s) (h1 : 1 ≤ s.activeIndex)
    (hk : share.MarkedKey s.activeIndex 0x80 s.keyBuffer) (target : Option (Slot Key))
    (htarget : ∀ e, target = some e → e ∈ s.entries) {r : Int × Iterator}
    (hfound : Found s.secondTree r target) (hit : s.secIt = r.2) {Q : Int → HaExample → Prop}
    (hQ : ∀ r', r'.2 = r.2 → Found s.secondTree r' (target.filter fun e ↦
        share.entryCompare e.key s.keyBuffer = 0) →
      Q (if r'.1 = 0 then HA_ERR_KEY_NOT_FOUND else 0) s) :
    wp E (HaExample.checkPrefix share (if r.1 = 0 then HA_ERR_KEY_NOT_FOUND else 0)) Q s := by
  have hkeys := h.active
  obtain ⟨hsome, hv⟩ := h.exists_second (by omega)
  unfold HaExample.checkPrefix
  simp only [wp_bind, wp_get]
  cases target with
  | none =>
    have hr : r.1 = 0 := hfound
    rw [if_pos hr, if_pos (.inl (by decide)), wp_pure]
    have := hQ r rfl hr
    rwa [if_pos hr] at this
  | some e =>
    obtain ⟨hr, hst⟩ : r.1 = 1 ∧ Stands s.secondTree r.2 e := hfound
    have he := htarget e rfl
    have hne : ¬ ((if r.1 = 0 then HA_ERR_KEY_NOT_FOUND else 0) ≠ 0 ∨ s.activeIndex = 0) := by
      rw [if_neg (by omega)]
      omega
    rw [if_neg hne]
    have hs : ({ s with sBtree := some s.secondTree } : HaExample) = s := by rw [← hsome]
    have hst' : Stands s.secondTree s.secIt e := hit ▸ hst
    simp only [wp_bind, wp_onSecond, hsome, hv.wp_getKey hst', wp_pure,
      TableShare.secondKeyComparePrefix_eq (hv.keys e he) hk]
    rw [hs]
    by_cases hzero : share.entryCompare e.key s.keyBuffer = 0
    · have := hQ r rfl (by rw [Option.filter_some_pos (by simpa using hzero)]; exact ⟨hr, hst⟩)
      rw [if_neg (by omega)] at this
      rwa [if_neg (by simpa using hzero)]
    · have := hQ (0, r.2) rfl (by rw [Option.filter_some_neg (by simpa using hzero)]; rfl)
      rwa [if_pos hzero]

/-- The cases of `index_read` on a secondary index. -/
theorem Opened.wp_search_second (h : Opened share s) (ord : share.Ordered)
    (h1 : 1 ≤ s.activeIndex) (hk : s.keyBuffer = memcpy k (UInt8.ofNat s.activeIndex :: v))
    (hlen : share.primaryKeyLength + share.maxSecondKeyLength + 1 ≤ k.length)
    {f : HaRkeyFunction} {Q : Int → HaExample → Prop}
    (hother : f = .other → Q HA_ERR_WRONG_COMMAND s)
    (hQ : ∀ r t' key, Opened share { s with
        keyBuffer := key, sBtree := some t', secIt := r.2 } →
      BTree.Same s.secondTree t' → Found t' r (f.target share s.activeIndex v k s.entries) →
      Q (if r.1 = 0 then f.err else 0) { s with
        keyBuffer := key, sBtree := some t', secIt := r.2 }) :
    wp E (HaExample.search share f) Q s := by
  cases f with
  | HA_READ_KEY_EXACT =>
    unfold HaExample.search
    rw [wp_bind]
    refine h.wp_locateKey_second ord h1 hk hlen (.inl rfl) fun r t' ho hsame hfound ↦ ?_
    refine ho.wp_checkPrefix h1 (markedKey_searchKey h1 h.active hlen)
      (IterFlag.KEY_OR_NEXT.search share.secondKeyCompare (searchKey s.activeIndex 0x80 v k)
        s.entries)
      (fun e he ↦ ?_) hfound rfl fun r' hit hfound' ↦ ?_
    · change e ∈ t'.live
      rw [hsame.live]
      exact (IterFlag.of_search he).1
    · have := hQ r' t' (searchKey s.activeIndex 0x80 v k) (hit ▸ ho) hsame hfound'
      rwa [hit] at this
  | other => exact hother rfl
  | HA_READ_PREFIX_LAST_OR_PREV =>
    exact h.wp_locateKey_second ord h1 hk hlen (.inr rfl) fun r t' ho hsame hfound ↦
      hQ r t' _ ho hsame hfound
  | _ =>
    exact h.wp_locateKey_second ord h1 hk hlen (.inl rfl) fun r t' ho hsame hfound ↦
      hQ r t' _ ho hsame hfound

/-- `index_read` on a secondary index comes to what its mode looks for. -/
theorem Opened.wp_indexRead_second (h : Opened share s) (ord : share.Ordered)
    (h1 : 1 ≤ s.activeIndex) {f : HaRkeyFunction} {Q : Int → HaExample → Prop}
    (hQ : ∀ code s', Opened share s' → OnlyCursors s s' → Looks s s' →
      MoveOutcome share s buf f.err (f.target share s.activeIndex v s.keyBuffer s.entries) code s' →
      Q code s') :
    wp E (HaExample.indexRead share server buf v f) Q s := by
  have ho : Opened share { s with
      keyBuffer := memcpy s.keyBuffer (UInt8.ofNat s.activeIndex :: v) } :=
    { h with keyBuffer := Nat.le_trans h.keyBuffer (length_memcpy ..) }
  unfold HaExample.indexRead
  simp only [wp_bind, wp_modify, show s.activeIndex ≠ 0 by omega, if_false]
  refine ho.wp_search_second ord h1 rfl h.keyBuffer ?_ ?_
  · rintro rfl
    unfold HaExample.fetched
    rw [if_pos (by decide), wp_pure]
    exact hQ _ _ ho rfl ⟨.refl _, .refl _⟩ (.nowhere _)
  · intro r t' key ho' hsame hfound
    have hk : Opened share { s with keyBuffer := key } := { h with keyBuffer := ho'.keyBuffer }
    refine hk.wp_fetched_second ord h1 f.err_ne_zero
      (fun e he ↦ HaRkeyFunction.mem_of_target he) ho' hsame hfound ?_
    intro code s' ho'' honly hlooks hmove
    have hcur : OnlyCursors s s' := by
      unfold OnlyCursors at *
      rw [honly]
    exact hQ code s' ho'' hcur ⟨hlooks.primary, hlooks.second⟩ hmove.withKey

/-- The flag with which a mode searches the primary index. -/
def HaRkeyFunction.primaryFlag : HaRkeyFunction → Option IterFlag
  | .HA_READ_KEY_EXACT => some .EXACT_KEY
  | .HA_READ_KEY_OR_NEXT => some .KEY_OR_NEXT
  | .HA_READ_KEY_OR_PREV => some .KEY_OR_PREV
  | .HA_READ_AFTER_KEY => some .AFTER_KEY
  | .HA_READ_BEFORE_KEY => some .BEFROE_KEY
  | .HA_READ_PREFIX_LAST_OR_PREV => some .KEY_OR_PREV
  | .other => none

/-- The slot of the primary index that a mode looks for. -/
def HaRkeyFunction.primaryTarget (share : TableShare) (f : HaRkeyFunction) (k : Key)
    (es : List (Slot Key)) : Option (Slot Key) :=
  f.primaryFlag.bind fun flag ↦ flag.search share.primaryKeyCompare k es

/-- `index_read` on the primary key comes to the row that the mode looks for. -/
theorem Opened.wp_indexRead_target (h : Opened share s) (ord : share.Ordered)
    (h0 : s.activeIndex = 0) {f : HaRkeyFunction} {Q : Int → HaExample → Prop}
    (hQ : ∀ code s', Opened share s' → OnlyCursors s s' → Looks s s' →
      FetchOutcome share s buf f.err
        (f.primaryTarget share (memcpy s.keyBuffer v) s.pBtree.live) code s' → Q code s') :
    wp E (HaExample.indexRead share server buf v f) Q s := by
  have ho : Opened share { s with keyBuffer := memcpy s.keyBuffer v } :=
    { h with keyBuffer := Nat.le_trans h.keyBuffer (length_memcpy ..) }
  obtain ⟨hsorted, hkeys⟩ := h.primary.slots
  have hpk : share.PrimaryKey (memcpy s.keyBuffer v) := by
    have := ho.keyBuffer
    unfold TableShare.PrimaryKey
    change share.primaryKeyLength + share.maxSecondKeyLength + 1 ≤ (memcpy s.keyBuffer v).length
      at this
    omega
  have hprobe := hsorted.probe ord.primary hkeys hpk
  have hlocate : ∀ (flag : UInt8) (f₁ f₂ : IterFlag) (Q' : Int → HaExample → Prop),
      f.primaryFlag = some f₂ → f.err = HA_ERR_KEY_NOT_FOUND →
      (∀ rc s', s'.activeIndex = 0 → wp E (HaExample.fetched share server rc buf) Q s' →
        Q' rc s') → wp E (HaExample.locateKey share flag f₁ f₂) Q'
        { s with keyBuffer := memcpy s.keyBuffer v } := by
    intro flag f₁ f₂ Q' hf herr hQ'
    unfold HaRkeyFunction.primaryTarget at hQ
    rw [hf, herr] at hQ
    unfold HaExample.locateKey
    rw [wp_bind, wp_get, if_neg (by simpa using h0)]
    simp only [wp_bind, wp_pure]
    refine ho.wp_movePrimary (fun _ ↦ Iterator.locate share.primary (memcpy s.keyBuffer v) f₂)
      (h.primary.wp_locate hprobe) fun r t' ho' hsame hfound ↦ hQ' _ _ h0 ?_
    refine Opened.wp_fetched_primary (s := { s with keyBuffer := memcpy s.keyBuffer v }) h0
      (by decide) (fun e he ↦ (IterFlag.of_search he).1) ho' hsame hfound ?_
    intro code s' ho'' honly hlooks hout
    refine hQ code s' ho'' ?_ ⟨hlooks.primary, hlooks.second⟩ (hout.congr rfl rfl)
    unfold OnlyCursors at *
    rw [honly]
  unfold HaExample.indexRead
  rw [wp_bind, wp_modify, if_pos h0, wp_bind]
  cases f with
  | HA_READ_KEY_EXACT =>
    unfold HaExample.search
    rw [wp_bind]
    refine hlocate _ _ _ _ rfl rfl fun rc s' hs' hrc ↦ ?_
    unfold HaExample.checkPrefix
    rw [wp_bind, wp_get, if_pos (.inr hs'), wp_pure]
    exact hrc
  | other =>
    unfold HaExample.search HaExample.fetched
    rw [wp_pure, if_pos (by decide), wp_pure]
    exact hQ _ _ ho rfl ⟨.refl _, .refl _⟩ (.nowhere _)
  | _ => exact hlocate _ _ _ _ rfl rfl fun rc s' _ hrc ↦ hrc

/-- `index_read` on the primary key. -/
theorem Opened.wp_indexRead_primary (h : Opened share s) (ord : share.Ordered)
    (h0 : s.activeIndex = 0) {f : HaRkeyFunction} {Q : Int → HaExample → Prop}
    (hQ : ∀ code s', Opened share s' → OnlyCursors s s' → Looks s s' →
      Fetches share s buf code s' → Q code s') :
    wp E (HaExample.indexRead share server buf v f) Q s :=
  h.wp_indexRead_target ord h0 fun code s' ho honly hlooks hout ↦
    hQ code s' ho honly hlooks (hout.fetches f.err_ne_zero)

end Searches

end ExampleEngine.Handler
