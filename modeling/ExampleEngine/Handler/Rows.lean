import ExampleEngine.Base.Loop
import ExampleEngine.Handler.Engine
import ExampleEngine.Handler.Keys
import ExampleEngine.Index.Live

/-!
# Row operations

Library `Handler`. What `write_row`, `delete_row` and `update_row` of
`src/ha_example.cc:588–708` do to the two trees of an open table, on every path.
-/

namespace ExampleEngine.Handler

open ExampleEngine.Base ExampleEngine.Storage ExampleEngine.Index

namespace HaExample

/-- A tree without entries, in place of a null pointer. -/
def noTree : BTree Key :=
  ⟨0, ⟨fun _ ↦ false, fun _ ↦ false, id, List.Perm.refl⟩, fun _ ↦ .raw ⟨.free, 0, 0, 0⟩ fun _ ↦ 0,
    []⟩

/-- The tree of entries, without entries when there is none. -/
def secondTree (s : HaExample) : BTree Key := s.sBtree.getD noTree

/-- The live entries of all secondary indexes. -/
def entries (s : HaExample) : List (Slot Key) := s.secondTree.live

/-- The live rows with their packed bytes. -/
def rows (share : TableShare) (s : HaExample) : List (Key × Option (Nat → UInt8)) :=
  s.pBtree.contents share.primary

end HaExample

/-- The invariant of open tables: both trees are in order. -/
structure Opened (share : TableShare) (s : HaExample) : Prop where
  primary : BTree.Valid share.primary share.PrimaryKey s.pBtree
  isSome : s.sBtree.isSome = decide (1 < share.keys)
  second : ∀ t, s.sBtree = some t → BTree.Valid share.second share.EntryKey t
  keyBuffer : share.primaryKeyLength + share.maxSecondKeyLength + 1 ≤ s.keyBuffer.length
  active : s.activeIndex < share.keys

/-- Only the tree of entries and the key buffer change. -/
def OnlyEntries (s s' : HaExample) : Prop :=
  s' = { s with sBtree := s'.sBtree, keyBuffer := s'.keyBuffer }

/-- An entry of a record is added. -/
def Adds (share : TableShare) (r : Record) (i : Nat) (t t' : BTree Key) : Prop :=
  BTree.Puts share.second (share.packKey i r) [] t 1 t'

/-- An entry of a record is live already. -/
def Collides (share : TableShare) (r : Record) (i : Nat) (t t' : BTree Key) : Prop :=
  (∃ e ∈ t.live, share.secondKeyCompare e.key (share.packKey i r) = 0) ∧ BTree.Same t t'

/-- A live entry is removed; iterators stay on their keys. -/
structure Removes (c : Config Key) (key : Key) (t t' : BTree Key) : Prop where
  joins : ∃ w, Joins c.cmp key w t'.live t.live
  values : ∀ w, valueOf c t'.page w = valueOf c t.page w
  stands : ∀ it e, Stands t it e → ∃ e', Slot.entry e' = Slot.entry e ∧ Stands t' it e'
  items : t'.items = t.items
  slots : t'.slots.map Slot.entry = t.slots.map Slot.entry

/-- An entry of a record is not live. -/
def Lacks (share : TableShare) (r : Record) (i : Nat) (t t' : BTree Key) : Prop :=
  (∀ e ∈ t.live, share.secondKeyCompare e.key (share.packKey i r) ≠ 0) ∧ BTree.Same t t'

section Steps

variable {share : TableShare} {server : Server} {s s' : HaExample} {r : Record} {i : Nat}
  {t t' : BTree Key} {buf : Nat} {E : Fault → Prop}

theorem wp_onPrimary {α : Type} (m : TreeM Key α) (Q : α → HaExample → Prop) :
    wp E (HaExample.onPrimary m) Q s ↔
      wp E m (fun a t ↦ Q a { s with pBtree := t }) s.pBtree :=
  wp_zoom ..

theorem wp_onSecond {α : Type} (m : TreeM Key α) (Q : α → HaExample → Prop) :
    wp E (HaExample.onSecond m) Q s ↔
      match s.sBtree with
      | none => E .nullPointer
      | some t => wp E m (fun a t ↦ Q a { s with sBtree := some t }) t := by
  cases hs : s.sBtree with
  | none =>
    have hrun : (HaExample.onSecond m).run s = .error .nullPointer := by
      change HaExample.onSecond m s = _
      unfold HaExample.onSecond
      rw [hs]
    unfold wp
    rw [hrun]
  | some t =>
    unfold wp
    cases hm : m.run t with
    | error e =>
      have hrun : (HaExample.onSecond m).run s = .error e := by
        change HaExample.onSecond m s = _
        unfold HaExample.onSecond
        rw [hs]
        simp only [hm]
      rw [hrun]
      simp only [hm]
    | ok p =>
      have hrun : (HaExample.onSecond m).run s = .ok (p.1, { s with sBtree := some p.2 }) := by
        change HaExample.onSecond m s = _
        unfold HaExample.onSecond
        rw [hs]
        simp only [hm]
      rw [hrun]
      simp only [hm]

theorem length_packKey (hi : i < share.keys) : (share.packKey i r).length =
    share.primaryKeyLength + share.maxSecondKeyLength + 1 := by
  rcases Nat.eq_zero_or_pos i with rfl | h1
  · rw [TableShare.packKey_zero, List.length_append, List.length_replicate,
      TableShare.length_primaryKey]
    omega
  · exact (TableShare.packKey_entryKey r h1 hi).1.1

theorem mem_indexes : i ∈ HaExample.indexes share ↔ 1 ≤ i ∧ i < share.keys := by
  have := share.keys_pos
  rw [HaExample.indexes, List.mem_range'_1]
  omega

theorem indexes_nodup : (HaExample.indexes share).Nodup := List.nodup_range'

/-- `locate` with `EXACT_KEY` finds the live entry with an equal key. -/
theorem wp_locateExact {K : Type} {c : Config K} {S : K → Prop} {t : BTree K} {key : K}
    (hv : BTree.Valid c S t) (hcmp : Comparison c.cmp S) (hk : S key) :
    wp E (Iterator.locate c key .EXACT_KEY) (fun r t' ↦ BTree.Valid c S t' ∧ BTree.Same t t' ∧
      ((r.1 = 0 ∧ ∀ e ∈ t.live, c.cmp e.key key ≠ 0) ∨
        r.1 = 1 ∧ ∃ e ∈ t.live, c.cmp e.key key = 0 ∧ Stands t' r.2 e)) t := by
  obtain ⟨hsorted, hkeys⟩ := hv.slots
  refine wp_mono (hv.wp_locate (hsorted.probe hcmp hkeys hk)) ?_
  rintro r t' ⟨hv', hsame, hfound⟩
  refine ⟨hv', hsame, ?_⟩
  cases hsearch : IterFlag.EXACT_KEY.search c.cmp key t.live with
  | none =>
    rw [hsearch] at hfound
    refine .inl ⟨hfound, fun e he hek ↦ ?_⟩
    have := List.find?_eq_none.mp hsearch e he
    simp [IterFlag.Qualifies, hek] at this
  | some e =>
    rw [hsearch] at hfound
    obtain ⟨he, hek⟩ := IterFlag.of_search hsearch
    exact .inr ⟨hfound.1, e, he, hek, hfound.2⟩

/-- Finding an entry by an exact key and removing it. -/
theorem wp_removeFound {c : Config Key} {S : Key → Prop} {key : Key} {it : Iterator}
    {e : Slot Key} {Q : Unit → BTree Key → Prop} (hv : BTree.Valid c S t')
    (hcmp : Comparison c.cmp S) (hk : S key) (hsame : BTree.Same t t') (he : e ∈ t.live)
    (hek : c.cmp e.key key = 0) (hs : Stands t' it e)
    (hQ : ∀ t'', BTree.Valid c S t'' → Removes c key t t'' → Q () t'') :
    wp E it.remove Q t' := by
  refine hv.wp_remove hcmp hs fun t'' hv'' hlive hvalues hstands hitems hslots ↦
    hQ t'' hv'' ⟨?_, ?_, ?_, hitems.trans hsame.items, hsame.slots ▸ hslots⟩
  · refine ⟨e.value, ?_⟩
    rw [hlive, hsame.live]
    have hsorted := hv.sorted
    have hkeys := hv.keys
    rw [hsame.live] at hsorted hkeys
    exact joins_filter hcmp hsorted hkeys hk he hek
  · intro w
    rw [hvalues w, hsame.page]
  · exact fun it₂ e₂ h ↦ hstands it₂ e₂ (hsame.stands h)

end Steps

section Operations

variable {share : TableShare} {server : Server} {s : HaExample} {buf : Nat}

namespace Opened

/-- The tree of entries is there when it is needed. -/
theorem exists_second (h : Opened share s) (hkeys : 1 < share.keys) :
    s.sBtree = some s.secondTree ∧
      BTree.Valid share.second share.EntryKey s.secondTree := by
  have hsome := h.isSome
  rw [decide_eq_true hkeys, Option.isSome_iff_exists] at hsome
  obtain ⟨t, ht⟩ := hsome
  have heq : s.secondTree = t := by
    unfold HaExample.secondTree
    rw [ht, Option.getD_some]
  rw [heq]
  exact ⟨ht, h.second t ht⟩

/-- Another tree of entries and another key buffer. -/
theorem withSecond (h : Opened share s) (hkeys : 1 < share.keys) {t : BTree Key} {k : Key}
    (hv : BTree.Valid share.second share.EntryKey t)
    (hk : share.primaryKeyLength + share.maxSecondKeyLength + 1 ≤ k.length) :
    Opened share { s with sBtree := some t, keyBuffer := k } where
  primary := h.primary
  isSome := (decide_eq_true hkeys).symm
  second t' ht' := by
    cases ht'
    exact hv
  keyBuffer := hk
  active := h.active

end Opened

private theorem onlyEntries_mk (s : HaExample) (o : Option (BTree Key)) (k : Key) :
    OnlyEntries s { s with sBtree := o, keyBuffer := k } := rfl

private theorem OnlyEntries.trans {s s₁ s₂ : HaExample} (h : OnlyEntries s s₁)
    (h' : OnlyEntries s₁ s₂) : OnlyEntries s s₂ := by
  unfold OnlyEntries at *
  rw [h', h]

/-- The loop of `write_row` adds entries until one collides. -/
theorem wp_writeEntries (ord : share.Ordered) {idxs : List Nat}
    (hidxs : ∀ i ∈ idxs, 1 ≤ i ∧ i < share.keys) (h : Opened share s)
    {Q : Int → HaExample → Prop}
    (hQ : ∀ b s', Opened share s' → OnlyEntries s s' →
      Loop (Adds share (s.record buf)) (Collides share (s.record buf)) idxs s.secondTree b
        s'.secondTree → Q (if b then 0 else HA_ERR_INTERNAL_ERROR) s') :
    wp Beyond (HaExample.writeEntries share buf idxs) Q s := by
  induction idxs generalizing s with
  | nil => exact hQ true s h rfl (.done _)
  | cons i idxs ih =>
    obtain ⟨h1, hi⟩ := hidxs i (by simp)
    have hkeys : 1 < share.keys := by omega
    obtain ⟨hsome, hv⟩ := h.exists_second hkeys
    have hlen := Nat.le_of_eq (length_packKey (r := s.record buf) hi).symm
    unfold HaExample.writeEntries
    simp only [wp_bind, wp_modify, wp_get, wp_onSecond, hsome]
    refine hv.wp_put share.second_wide ord.second (TableShare.packKey_entryKey _ h1 hi).1
      fun res t' hv' hput ↦ ?_
    cases hput with
    | duplicate e he heq t' hs =>
      simp only [ne_eq, Int.reduceEq, not_false_eq_true, if_true, wp_pure]
      exact hQ false _ (h.withSecond hkeys hv' hlen) rfl (.stop i idxs _ _ ⟨⟨e, he, heq⟩, hs⟩)
    | failed t' hlive hc =>
      simp [TableShare.second, Config.isConstValueSize] at hc
    | done t' w hj hw hvalues hitems hup =>
      simp only [ne_eq, not_true_eq_false, if_false]
      refine ih (fun j hj ↦ hidxs j (by simp [hj])) (h.withSecond hkeys hv' hlen) ?_
      intro b s' ho honly hloop
      exact hQ b s' ho ((onlyEntries_mk ..).trans honly)
        (.step i idxs _ t' _ b (.done t' w hj hw hvalues hitems hup) hloop)

/-- The loop of `delete_row` removes entries until one is missing. -/
theorem wp_deleteEntries {E : Fault → Prop} (ord : share.Ordered) {idxs : List Nat}
    (hidxs : ∀ i ∈ idxs, 1 ≤ i ∧ i < share.keys) (h : Opened share s)
    {Q : Int → HaExample → Prop}
    (hQ : ∀ b s', Opened share s' → OnlyEntries s s' →
      Loop (fun i ↦ Removes share.second (share.packKey i (s.record buf)))
        (Lacks share (s.record buf)) idxs s.secondTree b s'.secondTree →
      Q (if b then 0 else HA_ERR_KEY_NOT_FOUND) s') :
    wp E (HaExample.deleteEntries share buf idxs) Q s := by
  induction idxs generalizing s with
  | nil => exact hQ true s h rfl (.done _)
  | cons i idxs ih =>
    obtain ⟨h1, hi⟩ := hidxs i (by simp)
    have hkeys : 1 < share.keys := by omega
    obtain ⟨hsome, hv⟩ := h.exists_second hkeys
    have hkey := (TableShare.packKey_entryKey (s.record buf) h1 hi).1
    have hlen := Nat.le_of_eq (length_packKey (r := s.record buf) hi).symm
    unfold HaExample.deleteEntries
    simp only [wp_bind, wp_modify, wp_get, wp_onSecond, hsome]
    refine wp_mono (wp_locateExact hv ord.second hkey) ?_
    rintro r t₁ ⟨hv₁, hsame, ⟨hr, hne⟩ | ⟨hr, e, he, hek, hst⟩⟩
    · rw [if_pos hr, wp_pure]
      exact hQ false _ (h.withSecond hkeys hv₁ hlen) rfl (.stop i idxs _ _ ⟨hne, hsame⟩)
    · rw [if_neg (by omega), wp_bind, wp_onSecond]
      refine wp_removeFound hv₁ ord.second hkey hsame he hek hst fun t₂ hv₂ hrem ↦ ?_
      refine ih (fun j hj ↦ hidxs j (by simp [hj])) (h.withSecond hkeys hv₂ hlen) ?_
      intro b s' ho honly hloop
      exact hQ b s' ho ((onlyEntries_mk ..).trans honly) (.step i idxs _ t₂ _ b hrem hloop)

/-- Only the trees and the key buffers change. -/
def OnlyTrees (s s' : HaExample) : Prop :=
  s' = { s with pBtree := s'.pBtree, sBtree := s'.sBtree, ref := s'.ref, keyBuffer := s'.keyBuffer }

private theorem OnlyEntries.onlyTrees {s s' : HaExample} {t : BTree Key} {k : Key}
    (h : OnlyEntries { s with pBtree := t, ref := k } s') : OnlyTrees s s' ∧ s'.pBtree = t := by
  unfold OnlyEntries at h
  unfold OnlyTrees
  rw [h]
  exact ⟨rfl, rfl⟩

/-- What `delete_row` finds and does. -/
inductive DeleteOutcome (share : TableShare) (s : HaExample) (r : Record) :
    Int → HaExample → Prop
  /-- No live row has the primary key. -/
  | missing (s' : HaExample) (hsame : BTree.Same s.pBtree s'.pBtree) (hsec : s'.sBtree = s.sBtree)
      (hne : ∀ e ∈ s.pBtree.live, share.primaryKeyCompare e.key (share.primaryKey r) ≠ 0) :
      DeleteOutcome share s r HA_ERR_KEY_NOT_FOUND s'
  /-- The row is removed, with its entries or some of them. -/
  | removed (s' : HaExample) (b : Bool)
      (hrem : Removes share.primary (share.primaryKey r) s.pBtree s'.pBtree)
      (hloop : Loop (fun i ↦ Removes share.second (share.packKey i r)) (Lacks share r)
        (HaExample.indexes share) s.secondTree b s'.secondTree) :
      DeleteOutcome share s r (if b then 0 else HA_ERR_KEY_NOT_FOUND) s'

/-- `delete_row` on every path. -/
theorem wp_deleteRow {E : Fault → Prop} (ord : share.Ordered) (h : Opened share s)
    {Q : Int → HaExample → Prop}
    (hQ : ∀ code s', Opened share s' → OnlyTrees s s' →
      DeleteOutcome share s (s.record buf) code s' → Q code s') :
    wp E (HaExample.deleteRow share buf) Q s := by
  unfold HaExample.deleteRow
  simp only [wp_bind, wp_modify, wp_get, wp_onPrimary]
  refine wp_mono (wp_locateExact h.primary ord.primary TableShare.primaryKey_packKey) ?_
  rintro res t₁ ⟨hv₁, hsame, ⟨hr, hne⟩ | ⟨hr, e, he, hek, hst⟩⟩
  · rw [if_pos hr, wp_pure]
    refine hQ _ _ { h with primary := hv₁ } rfl (.missing _ hsame rfl fun e he ↦ ?_)
    rw [← TableShare.primaryKeyCompare_packKey]
    exact hne e he
  · rw [if_neg (by omega), wp_bind, wp_onPrimary]
    refine wp_removeFound hv₁ ord.primary TableShare.primaryKey_packKey hsame he hek hst
      fun t₂ hv₂ hrem ↦ ?_
    have ho : Opened share { s with pBtree := t₂, ref := share.packKey 0 (s.record buf) } :=
      { h with primary := hv₂ }
    refine wp_deleteEntries ord (fun i hi ↦ mem_indexes.mp hi) ho fun b s' ho' honly hloop ↦ ?_
    obtain ⟨htrees, hp⟩ := honly.onlyTrees
    obtain ⟨w, hj⟩ := hrem.joins
    refine hQ _ s' ho' htrees (.removed s' b ⟨⟨w, ?_⟩, ?_, ?_, ?_, ?_⟩ hloop) <;> rw [hp]
    · exact hj.congr fun a ↦ TableShare.primaryKeyCompare_packKey.symm
    · exact hrem.values
    · exact hrem.stands
    · exact hrem.items
    · exact hrem.slots

/-- What `write_row` finds and does, from the state `s₁` with a number assigned and a row
packed. -/
inductive WriteOutcome (share : TableShare) (s₁ : HaExample) (r : Record) (row : List UInt8) :
    Int → HaExample → Prop
  /-- The row is not stored. -/
  | refused (s' : HaExample) (res : Int) (hne : res ≠ 1)
      (hput : BTree.Puts share.primary (share.primaryKey r) row s₁.pBtree res s'.pBtree)
      (hsec : s'.sBtree = s₁.sBtree) :
      WriteOutcome share s₁ r row
        (if res = -1 then HA_ERR_INTERNAL_ERROR else HA_ERR_FOUND_DUPP_KEY) s'
  /-- The row is stored, with its entries or some of them. -/
  | written (s' : HaExample) (b : Bool)
      (hput : BTree.Puts share.primary (share.primaryKey r) row s₁.pBtree 1 s'.pBtree)
      (hloop : Loop (Adds share r) (Collides share r) (HaExample.indexes share) s₁.secondTree b
        s'.secondTree) :
      WriteOutcome share s₁ r row (if b then 0 else HA_ERR_INTERNAL_ERROR) s'

namespace HaExample

/-- The state of `write_row` when it comes to the tree of rows. -/
def prepared (share : TableShare) (server : Server) (buf : Nat) (s : HaExample) : HaExample :=
  (packRow share server buf (numbered server buf s).2).2

/-- `write_row` does not come to the tree of rows: with the code of the failure. -/
def unprepared (share : TableShare) (server : Server) (buf : Nat) (s : HaExample) : Option Int :=
  if (numbered server buf s).1 ≠ 0 then some (numbered server buf s).1
  else if (packRow share server buf (numbered server buf s).2).1 = none then
    some HA_ERR_OUT_OF_MEM
  else none

/-- The packed row. -/
def packedRow (share : TableShare) (buf : Nat) (s : HaExample) : List UInt8 :=
  share.packed (s.record 0) (s.record buf)

end HaExample

/-- Only the record buffers change, with what belongs to packing. -/
def OnlyServer (s s' : HaExample) : Prop :=
  s' = { s with
    record := s'.record, calls := s'.calls, bufSize := s'.bufSize, recordBuffer := s'.recordBuffer }

theorem OnlyServer.trans {s s₁ s₂ : HaExample} (h : OnlyServer s s₁) (h' : OnlyServer s₁ s₂) :
    OnlyServer s s₂ := by
  unfold OnlyServer at *
  rw [h', h]

/-- Numbering touches no tree. -/
theorem onlyServer_numbered : OnlyServer s (HaExample.numbered server buf s).2 := by
  unfold HaExample.numbered
  split <;> rfl

/-- Neither does packing. -/
theorem onlyServer_packRow : OnlyServer s (HaExample.packRow share server buf s).2 := by
  unfold HaExample.packRow HaExample.grown
  simp only
  split <;> rfl

/-- The two in a row. -/
theorem onlyServer_prepared : OnlyServer s (s.prepared share server buf) :=
  onlyServer_numbered.trans onlyServer_packRow

namespace OnlyServer

variable {s' : HaExample}

theorem pBtree (h : OnlyServer s s') : s'.pBtree = s.pBtree := by rw [h]

theorem sBtree (h : OnlyServer s s') : s'.sBtree = s.sBtree := by rw [h]

theorem secondTree (h : OnlyServer s s') : s'.secondTree = s.secondTree := by rw [h]; rfl

/-- The invariant is about the trees. -/
theorem opened (h : OnlyServer s s') (ho : Opened share s) : Opened share s' := by
  rw [h]
  exact { ho with }

end OnlyServer

/-- `write_row` on every path. -/
theorem wp_writeRow (ord : share.Ordered) (h : Opened share s) {Q : Int → HaExample → Prop}
    (hstop : ∀ code s', s.unprepared share server buf = some code → Opened share s' →
      OnlyServer s s' → Q code s')
    (hQ : ∀ code s', s.unprepared share server buf = none → Opened share s' →
      OnlyTrees (s.prepared share server buf) s' →
      WriteOutcome share (s.prepared share server buf) ((s.prepared share server buf).record buf)
        ((s.prepared share server buf).packedRow share buf) code s' → Q code s') :
    wp Beyond (HaExample.writeRow share server buf) Q s := by
  unfold HaExample.writeRow
  simp only [wp_bind, wp_modifyGet]
  by_cases herr : (HaExample.numbered server buf s).1 ≠ 0
  · rw [if_pos herr, wp_pure]
    exact hstop _ _ (by unfold HaExample.unprepared; rw [if_pos herr])
      (onlyServer_numbered.opened h) onlyServer_numbered
  · rw [if_neg herr]
    simp only [wp_bind, wp_modifyGet]
    have honly : OnlyServer s (s.prepared share server buf) := onlyServer_prepared
    have hprep := honly.opened h
    have hrow : (HaExample.packRow share server buf (HaExample.numbered server buf s).2).1 =
        if (s.prepared share server buf).recordBuffer ∧
          toInt32 ((s.prepared share server buf).packedRow share buf).length ≠ -1 then
          some ((s.prepared share server buf).packedRow share buf) else none := rfl
    change wp Beyond _ Q (s.prepared share server buf)
    cases hp : (HaExample.packRow share server buf (HaExample.numbered server buf s).2).1 with
    | none =>
      simp only [wp_pure]
      exact hstop _ _ (by unfold HaExample.unprepared; rw [if_neg herr, if_pos hp]) hprep
        onlyServer_prepared
    | some row =>
      have hnone : s.unprepared share server buf = none := by
        unfold HaExample.unprepared
        rw [if_neg herr, if_neg (by rw [hp]; simp)]
      obtain rfl : row = (s.prepared share server buf).packedRow share buf := by
        rw [hp] at hrow
        split at hrow
        · exact Option.some.inj hrow
        · cases hrow
      simp only [wp_bind, wp_modify, wp_get, wp_onPrimary, TableShare.packKey_zero_take]
      refine hprep.primary.wp_put share.primary_wide ord.primary
        TableShare.primaryKey_primaryKey fun res t' hv' hput ↦ ?_
      have ho : Opened share { s.prepared share server buf with
          pBtree := t', ref := share.packKey 0 ((s.prepared share server buf).record buf) } :=
        { hprep with primary := hv' }
      by_cases hres : res = 1
      · subst hres
        simp only [Int.reduceEq, if_false, Int.reduceNeg]
        refine wp_writeEntries ord (fun i hi ↦ mem_indexes.mp hi) ho fun b s' ho' honly hloop ↦ ?_
        obtain ⟨htrees, hp'⟩ := honly.onlyTrees
        exact hQ _ s' hnone ho' htrees (.written s' b (hp' ▸ hput) hloop)
      · have hcode := hQ _ _ hnone ho rfl (.refused _ res hres hput rfl)
        have hres0 : res = -1 ∨ res = 0 := by
          cases hput with
          | duplicate => exact .inr rfl
          | done => exact absurd rfl hres
          | failed => exact .inl rfl
        rcases hres0 with rfl | rfl
        · simpa using hcode
        · simpa using hcode

/-- What `update_row` finds and does, from the state `s₁` after its first numbering. -/
inductive UpdateOutcome (share : TableShare) (server : Server) (s₁ : HaExample) (old new : Nat) :
    Int → HaExample → Prop
  /-- The old row is not removed, or not all of its entries. -/
  | undeleted (code : Int) (s' : HaExample) (hne : code ≠ 0) (hkeep : OnlyTrees s₁ s')
      (hdel : DeleteOutcome share s₁ (s₁.record old) code s') :
      UpdateOutcome share server s₁ old new code s'
  /-- The old row is removed, and the new one does not come to be stored. -/
  | stopped (s₂ s' : HaExample) (code : Int) (hkeep : OnlyTrees s₁ s₂)
      (hdel : DeleteOutcome share s₁ (s₁.record old) 0 s₂)
      (hstop : s₂.unprepared share server new = some code) (honly : OnlyServer s₂ s') :
      UpdateOutcome share server s₁ old new code s'
  /-- The old row is removed, and the new one is tried to store. -/
  | rewritten (s₂ s' : HaExample) (code : Int) (ho : Opened share s₂) (hkeep : OnlyTrees s₁ s₂)
      (hdel : DeleteOutcome share s₁ (s₁.record old) 0 s₂)
      (hgo : s₂.unprepared share server new = none)
      (hkeep' : OnlyTrees (s₂.prepared share server new) s')
      (hwrite : WriteOutcome share (s₂.prepared share server new)
        ((s₂.prepared share server new).record new)
        ((s₂.prepared share server new).packedRow share new) code s') :
      UpdateOutcome share server s₁ old new code s'

/-- `update_row` on every path. -/
theorem wp_updateRow (ord : share.Ordered) {old new : Nat} (h : Opened share s)
    {Q : Int → HaExample → Prop}
    (hQ : ∀ code s', Opened share s' →
      UpdateOutcome share server (HaExample.numbered server new s).2 old new code s' → Q code s') :
    wp Beyond (HaExample.updateRow share server old new) Q s := by
  unfold HaExample.updateRow
  simp only [wp_bind, wp_modifyGet]
  refine wp_deleteRow ord (onlyServer_numbered.opened h) fun code s₂ ho₂ htrees hdel ↦ ?_
  by_cases hcode : code = 0
  · subst hcode
    simp only [ne_eq, not_true_eq_false, if_false]
    refine wp_writeRow ord ho₂ ?_ ?_
    · exact fun code s' hstop ho' honly ↦ hQ code s' ho'
        (.stopped s₂ s' code htrees hdel hstop honly)
    · exact fun code s' hgo ho' honly hwrite ↦
        hQ code s' ho' (.rewritten s₂ s' code ho₂ htrees hdel hgo honly hwrite)
  · rw [if_pos hcode, wp_pure]
    exact hQ code s₂ ho₂ (.undeleted code s₂ hcode htrees hdel)

end Operations

end ExampleEngine.Handler
