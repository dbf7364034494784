import ExampleEngine.Handler.Atomicity

/-!
# Table scans

Library `Handler`. `rnd_init` and `rnd_next` of `src/ha_example.cc:972–1010`. A scan returns
the rows that were live when it started, in order, also when the server deletes or rewrites
the row just returned. It ends with the code of `index_next`, but on an empty table with that
of `index_first`.
-/

namespace ExampleEngine.Handler

open ExampleEngine.Base ExampleEngine.Storage ExampleEngine.Index

/-- A live row: its key and its packed bytes. -/
abbrev LiveRow := Key × Option (Nat → UInt8)

/-- The cursor on the primary key stands on a live row, and its bytes are unpacked into a
buffer. -/
structure Returns (share : TableShare) (s : HaExample) (buf : Nat) (row : LiveRow)
    (s' : HaExample) : Prop where
  live : row ∈ s.rows share
  stands : ∃ e, e.key = row.1 ∧ Stands s'.pBtree s'.primaryIt e
  record : ∃ p, row.2 = some p ∧ s'.record = share.unpackRow p buf s.record

/-- What the server may do between two rows: delete or rewrite the row with the key `k` that
was returned last, leaving its primary key as it is, and what concerns no row. -/
def Request.Within (share : TableShare) (server : Server) (k : Option Key) (s : HaExample) :
    Request → Prop
  | .deleteRow buf => ∃ a, k = some a ∧
      share.primaryKeyCompare a (share.primaryKey (s.record buf)) = 0
  | .updateRow old new =>
    let s := (HaExample.numbered server new s).2
    ∃ a, k = some a ∧ share.primaryKeyCompare a (share.primaryKey (s.record old)) = 0 ∧
      share.primaryKeyCompare a
        (share.primaryKey ((s.prepared share server new).record new)) = 0
  | .position _ => True
  | .info => True
  | .extra _ => True
  | .fill _ _ => True
  | .number _ => True
  | _ => False

/-- A scan of the table: the rows returned so far, and the state. -/
inductive Scanning (share : TableShare) (server : Server) (s₀ : HaExample) :
    List LiveRow → HaExample → Prop
  | start (s : HaExample) (h : HaExample.rndInit.run s₀ = .ok (0, s)) :
      Scanning share server s₀ [] s
  | fetched (rows : List LiveRow) (s s' : HaExample) (buf : Nat) (row : LiveRow)
      (hs : Scanning share server s₀ rows s)
      (h : (HaExample.rndNext share server buf).run s = .ok (0, s'))
      (hr : Returns share s buf row s') : Scanning share server s₀ (rows ++ [row]) s'
  | within (rows : List LiveRow) (s s' : HaExample) (req : Request) (code : Int)
      (hs : Scanning share server s₀ rows s)
      (hreq : req.Within share server (rows.getLast?.map Prod.fst) s)
      (h : (req.perform share server).run s = .ok (code, s')) :
      Scanning share server s₀ rows s'

/-- The rows above a key. -/
def rowsAbove (share : TableShare) (k : Key) (t : BTree Key) : List LiveRow :=
  (t.contents share.primary).filter fun r ↦ 0 < share.primaryKeyCompare r.1 k

/-- The rows above a key stay as they are, and so do iterators on it. -/
structure Aside (share : TableShare) (k : Key) (t t' : BTree Key) : Prop where
  above : rowsAbove share k t' = rowsAbove share k t
  stands : ∀ it e, e.key = k → Stands t it e → ∃ e', e'.key = k ∧ Stands t' it e'

section Aside

variable {share : TableShare} {server : Server} {k key : Key} {t t' t'' : BTree Key}
  {s s' : HaExample} {r : Record} {row : List UInt8} {code : Int} {w : List UInt8}

theorem Aside.trans (h : Aside share k t t') (h' : Aside share k t' t'') :
    Aside share k t t'' where
  above := h'.above.trans h.above
  stands it e he hs := by
    obtain ⟨e', he', hs'⟩ := h.stands it e he hs
    exact h'.stands it e' he' hs'

theorem Aside.of_same (h : BTree.Same t t') : Aside share k t t' where
  above := by
    unfold rowsAbove
    rw [h.contents]
  stands it e he hs := ⟨e, he, h.stands hs⟩

/-- The row of a slot. -/
def liveRow (share : TableShare) (t : BTree Key) (e : Slot Key) : LiveRow :=
  (e.key, valueOf share.primary t.page e.value)

private theorem rows_eq (s : HaExample) :
    s.rows share = s.pBtree.live.map (liveRow share s.pBtree) := rfl

private theorem rowsAbove_eq (t : BTree Key) : rowsAbove share k t =
    (t.live.filter fun e ↦ 0 < share.primaryKeyCompare e.key k).map (liveRow share t) := by
  unfold rowsAbove BTree.contents
  rw [List.filter_map]
  rfl

/-- A row at the key comes or goes. -/
private theorem rowsAbove_of_joins (ord : share.Ordered)
    (hj : Joins share.primaryKeyCompare key w t.live t'.live)
    (hkeys : ∀ e ∈ t'.live, share.PrimaryKey e.key) (hk : share.PrimaryKey k)
    (hkey : share.PrimaryKey key) (hkk : share.primaryKeyCompare k key = 0)
    (hv : ∀ e ∈ t.live, valueOf share.primary t'.page e.value =
      valueOf share.primary t.page e.value) : rowsAbove share k t' = rowsAbove share k t := by
  have hcmp := ord.primary
  have hequal : ∀ e ∈ t'.live, share.primaryKeyCompare e.key key = 0 →
      share.primaryKeyCompare e.key k = 0 := fun e he hek ↦
    hcmp.equal_trans (hkeys e he) hkey hk hek (hcmp.symm hk hkey hkk)
  rw [rowsAbove_eq, rowsAbove_eq, hj.filter_eq fun e he hek ↦ by simp [hequal e he hek]]
  exact List.map_congr_left fun x hx ↦ by
    unfold liveRow
    rw [hv x (List.mem_filter.mp hx).1]

/-- Removing the row at the key. -/
theorem Removes.aside (h : Removes share.primary key t t') (ord : share.Ordered)
    (hv : BTree.Valid share.primary share.PrimaryKey t) (hk : share.PrimaryKey k)
    (hkey : share.PrimaryKey key) (hkk : share.primaryKeyCompare k key = 0) :
    Aside share k t t' where
  above := by
    obtain ⟨w, hj⟩ := h.joins
    exact (rowsAbove_of_joins ord hj hv.keys hk hkey hkk fun e _ ↦ (h.values _).symm).symm
  stands it e he hs := by
    obtain ⟨e', he', hs'⟩ := h.stands it e hs
    exact ⟨e', (congrArg Prod.fst he').trans he, hs'⟩

/-- Storing a row at the key, while iterators stand on it. -/
theorem aside_of_puts {code : Int} (h : BTree.Puts share.primary key row t code t')
    (ord : share.Ordered) (hv : BTree.Valid share.primary share.PrimaryKey t)
    (hv' : BTree.Valid share.primary share.PrimaryKey t') (hk : share.PrimaryKey k)
    (hkey : share.PrimaryKey key) (hkk : share.primaryKeyCompare k key = 0) :
    Aside share k t t' := by
  cases h with
  | duplicate e he heq t' hs => exact .of_same hs
  | done t' w hj hw hvalues hitems hup =>
    refine ⟨rowsAbove_of_joins ord hj hv'.keys hk hkey hkk hvalues, fun it e he hs ↦ ?_⟩
    obtain ⟨e', he', hs'⟩ := hup.stands hv ord.primary hkey
      ⟨e, hv.mem_slots_of_stands hs, by rw [he]; exact hkk⟩ hs
    exact ⟨e', he'.trans he, hs'⟩
  | failed t' hlive hc hlen hne hvalues hitems hslots hstands =>
    refine ⟨?_, fun it e he hs ↦ ⟨e, he, hstands it e hs⟩⟩
    rw [rowsAbove_eq, rowsAbove_eq, hlive]
    exact List.map_congr_left fun x hx ↦ by
      unfold liveRow
      rw [hvalues x (List.mem_filter.mp hx).1]

/-- Deleting the row at the key. -/
theorem DeleteOutcome.aside (h : DeleteOutcome share s r code s') (ord : share.Ordered)
    (ho : Opened share s) (hk : share.PrimaryKey k)
    (hkk : share.primaryKeyCompare k (share.primaryKey r) = 0) :
    Aside share k s.pBtree s'.pBtree := by
  cases h with
  | missing _ hsame _ _ => exact .of_same hsame
  | removed _ b hrem _ =>
    exact hrem.aside ord ho.primary hk TableShare.primaryKey_primaryKey hkk

/-- Writing the row at the key. -/
theorem WriteOutcome.aside (h : WriteOutcome share s r row code s') (ord : share.Ordered)
    (ho : Opened share s) (ho' : Opened share s') (hk : share.PrimaryKey k)
    (hkk : share.primaryKeyCompare k (share.primaryKey r) = 0) :
    Aside share k s.pBtree s'.pBtree := by
  have hr : share.PrimaryKey (share.primaryKey r) := TableShare.primaryKey_primaryKey
  cases h with
  | refused _ res _ hput _ => exact aside_of_puts hput ord ho.primary ho'.primary hk hr hkk
  | written _ b hput _ => exact aside_of_puts hput ord ho.primary ho'.primary hk hr hkk

/-- Rewriting the row at the key. -/
theorem UpdateOutcome.aside {old new : Nat} (h : UpdateOutcome share server s old new code s')
    (ord : share.Ordered) (ho : Opened share s) (ho' : Opened share s')
    (hk : share.PrimaryKey k)
    (hold : share.primaryKeyCompare k (share.primaryKey (s.record old)) = 0)
    (hnew : share.primaryKeyCompare k
      (share.primaryKey ((s.prepared share server new).record new)) = 0) :
    Aside share k s.pBtree s'.pBtree := by
  cases h with
  | undeleted _ _ _ _ hdel => exact hdel.aside ord ho hk hold
  | stopped s₂ s' code _ hdel _ honly => exact honly.pBtree ▸ hdel.aside ord ho hk hold
  | rewritten s₂ s' code ho₂ hkeep hdel hgo hkeep' hwrite =>
    have hprep : OnlyServer s₂ (s₂.prepared share server new) := onlyServer_prepared
    have hrec : (s₂.prepared share server new).record = (s.prepared share server new).record := by
      rw [(hkeep.prepared share server new).2]
    have hput := hwrite.aside ord (hprep.opened ho₂) ho' hk (by rw [hrec]; exact hnew)
    rw [hprep.pBtree] at hput
    exact (hdel.aside ord ho hk hold).trans hput

end Aside

/-- What a request between two rows keeps of a scan that returned the key `k` last. -/
structure KeepsScan (share : TableShare) (k : Option Key) (s s' : HaExample) : Prop where
  opened : Opened share s'
  active : s'.activeIndex = s.activeIndex
  first : s'.firstRow = s.firstRow
  cursor : s'.primaryIt = s.primaryIt
  rows : k = none → BTree.Same s.pBtree s'.pBtree
  aside : ∀ a, k = some a → share.PrimaryKey a → Aside share a s.pBtree s'.pBtree

/-- Where a scan is: what it still has to return. -/
structure ScanInv (share : TableShare) (s₀ : HaExample) (rows : List LiveRow) (s : HaExample) :
    Prop where
  opened : Opened share s
  active : s.activeIndex = 0
  rest : ∃ rest, s₀.rows share = rows ++ rest ∧
    match rows.getLast? with
    | none => s.firstRow = true ∧ s.rows share = rest
    | some row => s.firstRow = false ∧ share.PrimaryKey row.1 ∧
      rowsAbove share row.1 s.pBtree = rest ∧
      ∃ e, e.key = row.1 ∧ Stands s.pBtree s.primaryIt e

section Scans

variable {share : TableShare} {server : Server} {k : Option Key} {s₀ s s' : HaExample}
  {rows : List LiveRow} {req : Request} {code : Int} {buf : Nat}

/-- Row operations leave the cursors. -/
theorem OnlyTrees.cursors (h : OnlyTrees s s') : s'.activeIndex = s.activeIndex ∧
    s'.firstRow = s.firstRow ∧ s'.primaryIt = s.primaryIt := by
  rw [h]
  exact ⟨rfl, rfl, rfl⟩

theorem OnlyServer.cursors (h : OnlyServer s s') : s'.activeIndex = s.activeIndex ∧
    s'.firstRow = s.firstRow ∧ s'.primaryIt = s.primaryIt := by
  rw [h]
  exact ⟨rfl, rfl, rfl⟩

/-- So does `update_row` on every path. -/
theorem UpdateOutcome.cursors {old new : Nat}
    (h : UpdateOutcome share server s old new code s') : s'.activeIndex = s.activeIndex ∧
    s'.firstRow = s.firstRow ∧ s'.primaryIt = s.primaryIt := by
  cases h with
  | undeleted _ _ _ hkeep _ => exact hkeep.cursors
  | stopped s₂ _ _ hkeep _ _ honly =>
    obtain ⟨ha, hf, hi⟩ := hkeep.cursors
    obtain ⟨ha', hf', hi'⟩ := honly.cursors
    exact ⟨ha'.trans ha, hf'.trans hf, hi'.trans hi⟩
  | rewritten s₂ _ _ _ hkeep _ _ hkeep' _ =>
    obtain ⟨ha, hf, hi⟩ := hkeep.cursors
    obtain ⟨ha', hf', hi'⟩ := hkeep'.cursors
    have hprep : OnlyServer s₂ (s₂.prepared share server new) := onlyServer_prepared
    obtain ⟨hb, hg, hj⟩ := hprep.cursors
    exact ⟨ha'.trans (hb.trans ha), hf'.trans (hg.trans hf), hi'.trans (hj.trans hi)⟩

/-- A request between two rows keeps the scan where it is. -/
theorem Opened.wp_within (ho : Opened share s) (ord : share.Ordered)
    (hreq : req.Within share server k s) :
    wp Beyond (req.perform share server) (fun _ s' ↦ KeepsScan share k s s') s := by
  have hsame : ∀ s', Opened share s' → s'.pBtree = s.pBtree → s'.activeIndex = s.activeIndex →
      s'.firstRow = s.firstRow → s'.primaryIt = s.primaryIt → KeepsScan share k s s' := by
    intro s' ho' hp ha hf hi
    exact ⟨ho', ha, hf, hi, fun _ ↦ hp ▸ .refl _, fun _ _ _ ↦ .of_same (hp ▸ .refl _)⟩
  cases req with
  | deleteRow buf =>
    obtain ⟨a, rfl, hcmp⟩ := hreq
    refine wp_deleteRow ord ho fun code s' ho' htrees hdel ↦ ?_
    obtain ⟨ha, hf, hi⟩ := htrees.cursors
    refine ⟨ho', ha, hf, hi, (nomatch ·), fun b hb hk ↦ ?_⟩
    cases hb
    exact hdel.aside ord ho hk hcmp
  | updateRow old new =>
    obtain ⟨a, rfl, hold, hnew⟩ := hreq
    have hnum : OnlyServer s (HaExample.numbered server new s).2 := onlyServer_numbered
    refine wp_updateRow ord ho fun code s' ho' hup ↦ ?_
    obtain ⟨ha, hf, hi⟩ := hnum.cursors
    obtain ⟨ha', hf', hi'⟩ := hup.cursors
    refine ⟨ho', ha'.trans ha, hf'.trans hf, hi'.trans hi, (nomatch ·), fun b hb hk ↦ ?_⟩
    cases hb
    exact hnum.pBtree ▸ hup.aside ord (hnum.opened ho) ho' hk hold hnew
  | position buf => exact hsame _ { ho with } rfl rfl rfl rfl
  | info =>
    change wp Beyond (HaExample.info >>= fun _ ↦ pure 0) _ s
    unfold HaExample.info
    rw [wp_bind, wp_onPrimary]
    refine wp_mono ho.primary.wp_countOfItems ?_
    rintro _ t ⟨rfl, _⟩
    exact hsame s ho rfl rfl rfl rfl
  | extra operation =>
    cases operation <;> exact hsame _ { ho with } rfl rfl rfl rfl
  | fill buf r => exact hsame _ { ho with } rfl rfl rfl rfl
  | number b => exact hsame _ { ho with } rfl rfl rfl rfl
  | _ => exact absurd hreq id

/-- What the next call of a scan returns. -/
inductive ScanOutcome (share : TableShare) (s₀ : HaExample) (rows : List LiveRow) (buf : Nat)
    (s : HaExample) : Int → HaExample → Prop
  /-- The row after those returned. -/
  | row (row : LiveRow) (rest : List LiveRow) (s' : HaExample)
      (hrows : s₀.rows share = rows ++ row :: rest) (hr : Returns share s buf row s')
      (hinv : ScanInv share s₀ (rows ++ [row]) s') : ScanOutcome share s₀ rows buf s 0 s'
  /-- The first call finds no row. -/
  | empty (s' : HaExample) (hrows : s₀.rows share = []) (hnil : rows = []) :
      ScanOutcome share s₀ rows buf s HA_ERR_KEY_NOT_FOUND s'
  /-- All rows were returned. -/
  | finished (s' : HaExample) (hrows : s₀.rows share = rows) (hne : rows ≠ []) :
      ScanOutcome share s₀ rows buf s HA_ERR_END_OF_FILE s'

private theorem ScanOutcome.of_at {s₁ : HaExample} {e : Slot Key} {es : List (Slot Key)}
    {p : Nat → UInt8} (ho : Opened share s) (h0 : s.activeIndex = 0) (hfirst : s₁.firstRow = false)
    (h1 : s₁ = { s with firstRow := s₁.firstRow }) (ho' : Opened share s')
    (hcur : OnlyCursors s₁ s') (hl : Looks s₁ s')
    (hrows : s₀.rows share = rows ++ (e :: es).map (liveRow share s.pBtree))
    (habove : (s.pBtree.live.filter fun x ↦ 0 < share.primaryKeyCompare x.key e.key) = es)
    (he : e ∈ s.pBtree.live) (hp : valueOf share.primary s.pBtree.page e.value = some p)
    (hrec : s'.record = share.unpackRow p buf s.record)
    (hst : Stands s'.pBtree s'.primaryIt e) : ScanOutcome share s₀ rows buf s 0 s' := by
  have hsame : BTree.Same s.pBtree s'.pBtree := by
    have := hl.primary
    rwa [h1] at this
  have hactive : s'.activeIndex = 0 ∧ s'.firstRow = false := by
    rw [hcur]
    exact ⟨by rw [h1]; exact h0, hfirst⟩
  refine .row (liveRow share s.pBtree e) (es.map (liveRow share s.pBtree)) s' hrows
    ⟨?_, ⟨e, rfl, hst⟩, p, hp, hrec⟩ ⟨ho', hactive.1, es.map (liveRow share s.pBtree), ?_, ?_⟩
  · rw [rows_eq]
    exact List.mem_map_of_mem he
  · rw [hrows, List.map_cons, List.append_assoc, List.singleton_append]
  · rw [List.getLast?_concat]
    refine ⟨hactive.2, ho.primary.keys e he, ?_, e, rfl, hst⟩
    rw [(Aside.of_same hsame).above, rowsAbove_eq]
    exact congrArg _ habove

/-- The next call of a scan. -/
theorem ScanInv.wp_rndNext {E : Fault → Prop} (h : ScanInv share s₀ rows s)
    (ord : share.Ordered) :
    wp E (HaExample.rndNext share server buf) (ScanOutcome share s₀ rows buf s) s := by
  have ho := h.opened
  have hcmp := ord.primary
  obtain ⟨rest, hrows, hrest⟩ := h.rest
  unfold HaExample.rndNext
  rw [wp_bind, wp_get]
  cases hlast : rows.getLast? with
  | none =>
    rw [hlast] at hrest
    obtain ⟨hfirst, rfl⟩ := hrest
    obtain rfl := List.getLast?_eq_none_iff.mp hlast
    rw [if_pos hfirst, wp_bind, wp_modify]
    have ho₁ : Opened share { s with firstRow := false } := { ho with }
    refine ho₁.wp_moveIndex_primary h.active (by decide) s.pBtree.live.head?
      (fun e he ↦ List.mem_of_head? he) ho₁.primary.wp_first fun code s' ho' hcur hl hf ↦ ?_
    cases hlive : s.pBtree.live with
    | nil =>
      rw [hlive] at hf
      cases hf
      exact .empty s' (by rw [hrows, rows_eq, hlive]; rfl) rfl
    | cons e es =>
      rw [hlive] at hf
      cases hf with
      | «at» _ p _ he hp hrec hst =>
        have habove : (s.pBtree.live.filter
            fun x ↦ 0 < share.primaryKeyCompare x.key e.key) = es := by
          have hsorted := ho.primary.sorted
          have hkeys := ho.primary.keys
          rw [hlive] at hsorted hkeys ⊢
          exact hsorted.above_head hcmp hkeys
        have hrows' : s₀.rows share = [] ++ (e :: es).map (liveRow share s.pBtree) := by
          rw [hrows, rows_eq, hlive]
        exact ScanOutcome.of_at ho h.active rfl rfl ho' hcur hl hrows' habove he hp hrec hst
  | some row =>
    rw [hlast] at hrest
    obtain ⟨hfirst, hk, rfl, e₀, hek, hst₀⟩ := hrest
    rw [if_neg (by simp [hfirst])]
    refine ho.wp_moveIndex_primary h.active (by decide)
      (IterFlag.AFTER_KEY.search share.primaryKeyCompare row.1 s.pBtree.live)
      (fun e he ↦ (IterFlag.of_search he).1)
      (hek ▸ ho.primary.wp_next hcmp hst₀) fun code s' ho' hcur hl hf ↦ ?_
    have hsearch : IterFlag.AFTER_KEY.search share.primaryKeyCompare row.1 s.pBtree.live =
        (s.pBtree.live.filter fun x ↦ 0 < share.primaryKeyCompare x.key row.1).head? :=
      List.head?_filter.symm
    rw [hsearch] at hf
    cases hlive : s.pBtree.live.filter fun x ↦ 0 < share.primaryKeyCompare x.key row.1 with
    | nil =>
      rw [hlive] at hf
      cases hf
      refine .finished s' ?_ fun hnil ↦ by simp [hnil] at hlast
      rw [hrows, rowsAbove_eq, hlive, List.map_nil, List.append_nil]
    | cons e es =>
      rw [hlive] at hf
      cases hf with
      | «at» _ p _ he hp hrec hst =>
        have habove := ho.primary.sorted.above_cons hcmp ho.primary.keys hk hlive
        have hrows' : s₀.rows share = rows ++ (e :: es).map (liveRow share s.pBtree) := by
          rw [hrows, rowsAbove_eq, hlive]
        exact ScanOutcome.of_at ho h.active hfirst rfl ho' hcur hl hrows' habove he hp hrec hst

/-- A live row is known by its key. -/
private theorem Opened.row_unique (ho : Opened share s) (ord : share.Ordered)
    {row row' : LiveRow} (hr : row ∈ s.rows share) (hr' : row' ∈ s.rows share)
    (hkey : row.1 = row'.1) : row = row' := by
  rw [rows_eq] at hr hr'
  obtain ⟨e, he, rfl⟩ := List.mem_map.mp hr
  obtain ⟨e', he', rfl⟩ := List.mem_map.mp hr'
  have hkeys := ho.primary.keys
  have hkey : e.key = e'.key := hkey
  rw [ho.primary.sorted.eq_of_equal ord.primary hkeys he he'
    (hkey ▸ ord.primary.self (hkeys e he))]

/-- A scan is where its invariant says. -/
theorem Scanning.inv (ord : share.Ordered) (hs₀ : Served share server s₀)
    (hscan : Scanning share server s₀ rows s) : ScanInv share s₀ rows s := by
  have ho₀ := hs₀.isOpened ord
  induction hscan with
  | start s h =>
    cases h
    exact ⟨{ ho₀ with active := share.keys_pos }, rfl, s₀.rows share, rfl, rfl, rfl⟩
  | fetched rows s s' buf row _ h hr ih =>
    have hnext : wp (fun _ ↦ False) (HaExample.rndNext share server buf)
        (ScanOutcome share s₀ rows buf s) s := ih.wp_rndNext ord
    have hout := wp_ok hnext h
    generalize hcode : (0 : Int) = code at hout
    cases hout with
    | row row' rest _ _ hr' hinv =>
      obtain ⟨e, hek, hst⟩ := hr.stands
      obtain ⟨e', hek', hst'⟩ := hr'.stands
      have hkey : row.1 = row'.1 := by rw [← hek, ← hek', hst.unique hst']
      rwa [ih.opened.row_unique ord hr.live hr'.live hkey]
    | empty => exact absurd hcode (by decide)
    | finished => exact absurd hcode (by decide)
  | within rows s s' req code _ hreq h ih =>
    have hk := wp_ok (ih.opened.wp_within ord hreq) h
    obtain ⟨rest, hrows, hrest⟩ := ih.rest
    refine ⟨hk.opened, hk.active.trans ih.active, rest, hrows, ?_⟩
    cases hlast : rows.getLast? with
    | none =>
      rw [hlast] at hrest
      refine ⟨hk.first.trans hrest.1, ?_⟩
      rw [← hrest.2]
      exact (hk.rows (by rw [hlast]; rfl)).contents
    | some row =>
      rw [hlast] at hrest
      obtain ⟨hfirst, hpk, habove, e, hek, hst⟩ := hrest
      have haside := hk.aside row.1 (by rw [hlast]; rfl) hpk
      obtain ⟨e', hek', hst'⟩ := haside.stands s.primaryIt e hek hst
      exact ⟨hk.first.trans hfirst, hpk, haside.above.trans habove, e', hek', hk.cursor ▸ hst'⟩

/-- The next row in order, or the end after all rows. -/
def ScanNext (share : TableShare) (s₀ : HaExample) (rows : List LiveRow) (buf : Nat)
    (s : HaExample) (code : Int) (s' : HaExample) : Prop :=
  (∃ row rest, s₀.rows share = rows ++ row :: rest ∧ code = 0 ∧ Returns share s buf row s') ∨
    s₀.rows share = rows ∧ code = HA_ERR_END_OF_FILE

/-- Scans of any table, with deletions and rewritings of the row returned last in between: the
rows are in order of their primary keys, and the next call always returns the next of them, and
the end after the last, exactly when there was a row when the scan started. -/
theorem scan_rows (ord : share.Ordered) (hs₀ : Served share server s₀)
    (hscan : Scanning share server s₀ rows s) :
    (s₀.rows share).Pairwise (fun a b ↦ share.primaryKeyCompare a.1 b.1 < 0) ∧
    wp (fun _ ↦ False) (HaExample.rndNext share server buf) (fun code s' ↦
      ScanNext share s₀ rows buf s code s' ↔ s₀.rows share ≠ []) s := by
  constructor
  · rw [rows_eq, List.pairwise_map]
    exact (hs₀.isOpened ord).primary.sorted
  · refine wp_mono ((hscan.inv ord hs₀).wp_rndNext ord) fun code s' hout ↦ ?_
    cases hout with
    | row row rest _ hrows hr _ =>
      exact ⟨fun _ ↦ by simp [hrows], fun _ ↦ .inl ⟨row, rest, hrows, rfl, hr⟩⟩
    | empty _ hrows hnil =>
      subst hnil
      refine ⟨?_, fun hne ↦ absurd hrows hne⟩
      rintro (⟨row, rest, hsome, _⟩ | ⟨_, hcode⟩)
      · simp [hrows] at hsome
      · exact absurd hcode (by decide)
    | finished _ hrows hne => exact ⟨fun _ ↦ hrows ▸ hne, fun _ ↦ .inr ⟨hrows, rfl⟩⟩

/-- A table at the start of a scan. -/
private def scanned (s₀ : HaExample) : HaExample := { s₀ with activeIndex := 0, firstRow := true }

/-- A table of two rows. -/
theorem filledTable_scan :
    (filledTable.rows digits).Pairwise (fun a b ↦ digits.primaryKeyCompare a.1 b.1 < 0) ∧
    wp (fun _ ↦ False) (HaExample.rndNext digits lenient 1) (fun code s' ↦
      ScanNext digits filledTable [] 1 (scanned filledTable) code s' ↔
        filledTable.rows digits ≠ []) (scanned filledTable) :=
  scan_rows digits_ordered filledTable_served (.start (scanned filledTable) rfl)

/-- The first call of a scan of a table without rows reports a missing key. -/
theorem empty_scan_not_ended : ¬ ∀ s₀ rows s, Served digits lenient s₀ →
    Scanning digits lenient s₀ rows s → ∀ buf,
    wp (fun _ ↦ False) (HaExample.rndNext digits lenient buf)
      (ScanNext digits s₀ rows buf s) s := by
  intro hall
  have hcode : answers ((HaExample.rndNext digits lenient 0).run (scanned openedTable)) =
      some HA_ERR_KEY_NOT_FOUND := by decide +kernel
  have hwp := hall openedTable [] _ openedTable_served (.start (scanned openedTable) rfl) 0
  obtain ⟨_, _, _, h0, _⟩ | ⟨_, hend⟩ := wp_ok hwp (run_of_answers hcode)
  · exact absurd h0 (by decide)
  · exact absurd hend (by decide)

end Scans

end ExampleEngine.Handler
