import ExampleEngine.Handler.Table

/-!
# When a failing row operation changes nothing

Library `Handler`. `write_row`, `update_row` and `delete_row` of `src/ha_example.cc:588–708`
change the tree of rows before the entries, and return at the first failure without undoing
what they did. A failing operation leaves rows and entries as they were exactly when it fails
before its first change.
-/

namespace ExampleEngine.Handler

open ExampleEngine.Base ExampleEngine.Storage ExampleEngine.Index

/-- The live rows with their contents and the live entries are those of before. -/
structure Unchanged (share : TableShare) (s s' : HaExample) : Prop where
  rows : ∀ r, r ∈ s'.rows share ↔ r ∈ s.rows share
  entries : ∀ k, k ∈ s'.entries.map Slot.key ↔ k ∈ s.entries.map Slot.key

/-- A live row has the primary key of a record. -/
def RowLive (share : TableShare) (s : HaExample) (r : Record) : Prop :=
  ∃ e ∈ s.pBtree.live, share.primaryKeyCompare e.key (share.primaryKey r) = 0

/-- A live entry of index `i` is that of a record. -/
def EntryLive (share : TableShare) (s : HaExample) (r : Record) (i : Nat) : Prop :=
  ∃ e ∈ s.entries, share.secondKeyCompare e.key (share.packKey i r) = 0

section Trees

variable {share : TableShare} {r : Record} {i j : Nat} {t t' : BTree Key}

/-- What is equal to a packed key is of its index. -/
theorem indexOf_of_eq (h1 : 1 ≤ i) (hi : i < share.keys) {a : Key}
    (h : share.secondKeyCompare a (share.packKey i r) = 0) : indexOf a = i := by
  have hidx := TableShare.indexOf_eq ((TableShare.eq_packKey_iff h1 hi).mp h).1
  rw [hidx]
  exact (TableShare.packKey_entryKey _ h1 hi).2

/-- The entry that is added. -/
theorem Adds.joins (h : Adds share r i t t') :
    ∃ w, Joins share.secondKeyCompare (share.packKey i r) w t.live t'.live := by
  unfold Adds at h
  cases h with
  | done _ w hj => exact ⟨w, hj⟩

/-- An entry of one index comes or goes without those of the others. -/
theorem live_other {w : List UInt8} (hi : i ∈ HaExample.indexes share)
    (hj : j ∈ HaExample.indexes share) (hij : i ≠ j) {es es' : List (Slot Key)}
    (h : Joins share.secondKeyCompare (share.packKey i r) w es es') {r' : Record} :
    (∃ e ∈ es', share.secondKeyCompare e.key (share.packKey j r') = 0) ↔
      ∃ e ∈ es, share.secondKeyCompare e.key (share.packKey j r') = 0 := by
  obtain ⟨hi1, hi⟩ := mem_indexes.mp hi
  obtain ⟨hj1, hj⟩ := mem_indexes.mp hj
  constructor
  · rintro ⟨e, he, hek⟩
    refine ⟨e, (h.mem_iff e).mpr ⟨he, fun h0 ↦ hij ?_⟩, hek⟩
    rw [← indexOf_of_eq hi1 hi h0, ← indexOf_of_eq hj1 hj hek]
  · rintro ⟨e, he, hek⟩
    exact ⟨e, ((h.mem_iff e).mp he).1, hek⟩

/-- The loop of `write_row` finishes when no entry of the record is live. -/
theorem writeLoop_iff {b : Bool}
    (h : Loop (Adds share r) (Collides share r) (HaExample.indexes share) t b t') :
    b = true ↔ ∀ i ∈ HaExample.indexes share,
      ¬ ∃ e ∈ t.live, share.secondKeyCompare e.key (share.packKey i r) = 0 := by
  refine h.finishes_iff (P := fun i t ↦
    ¬ ∃ e ∈ t.live, share.secondKeyCompare e.key (share.packKey i r) = 0) indexes_nodup ?_ ?_ ?_
  · rintro i _ t t' hadd ⟨e, he, hek⟩
    obtain ⟨w, hj⟩ := hadd.joins
    exact hj.ne e he hek
  · intro i hi j hj hij t t' hadd
    obtain ⟨w, hjoin⟩ := hadd.joins
    exact not_congr (live_other hi hj hij hjoin)
  · rintro i _ t t' ⟨hlive, _⟩ hnot
    exact hnot hlive

/-- The loop of `delete_row` finishes when every entry of the record is live. -/
theorem deleteLoop_iff {b : Bool}
    (h : Loop (fun i ↦ Removes share.second (share.packKey i r)) (Lacks share r)
      (HaExample.indexes share) t b t') :
    b = true ↔ ∀ i ∈ HaExample.indexes share,
      ∃ e ∈ t.live, share.secondKeyCompare e.key (share.packKey i r) = 0 := by
  refine h.finishes_iff (P := fun i t ↦
    ∃ e ∈ t.live, share.secondKeyCompare e.key (share.packKey i r) = 0) indexes_nodup ?_ ?_ ?_
  · intro i _ t t' hrem
    obtain ⟨w, hj⟩ := hrem.joins
    obtain ⟨e, _, hek, hmem⟩ := hj.exists_mem
    exact ⟨e, (hmem e).mpr (.inl rfl), hek⟩
  · intro i hi j hj hij t t' hrem
    obtain ⟨w, hjoin⟩ := hrem.joins
    exact (live_other hi hj hij hjoin).symm
  · rintro i _ t t' ⟨hne, _⟩ ⟨e, he, hek⟩
    exact hne e he hek

/-- The entries that `delete_row` leaves. -/
theorem deleteLoop_mem {idxs : List Nat} {b : Bool}
    (h : Loop (fun i ↦ Removes share.second (share.packKey i r)) (Lacks share r) idxs t b t')
    (hb : b = true) (a : Slot Key) : a ∈ t'.live ↔ a ∈ t.live ∧
      ∀ i ∈ idxs, share.secondKeyCompare a.key (share.packKey i r) ≠ 0 := by
  induction h with
  | done t => simp
  | stop i rest t t' h => cases hb
  | step i rest t t₁ t' b h _ ih =>
    obtain ⟨w, hj⟩ := h.joins
    rw [ih hb, hj.mem_iff, List.forall_mem_cons, and_assoc]
    rfl

/-- The number of entries after the loop of `write_row`. -/
theorem writeLoop_length {idxs : List Nat} {b : Bool}
    (h : Loop (Adds share r) (Collides share r) idxs t b t') :
    ∃ k, t'.live.length = t.live.length + k ∧
      if b = true then k = idxs.length else k < idxs.length := by
  obtain ⟨k, hk, hlen⟩ := h.length (f := fun t ↦ (t.live.length : Int)) (d := 1)
    (fun i _ t t' hadd ↦ by
      obtain ⟨w, hj⟩ := hadd.joins
      rw [hj.length]
      rfl)
    (fun i _ t t' hc ↦ by rw [hc.2.live])
  exact ⟨k, by omega, hlen⟩

/-- The number of entries after the loop of `delete_row`. -/
theorem deleteLoop_length {idxs : List Nat} {b : Bool}
    (h : Loop (fun i ↦ Removes share.second (share.packKey i r)) (Lacks share r) idxs t b t') :
    ∃ k, t.live.length = t'.live.length + k ∧
      if b = true then k = idxs.length else k < idxs.length := by
  obtain ⟨k, hk, hlen⟩ := h.length (f := fun t ↦ (t.live.length : Int)) (d := -1)
    (fun i _ t t' hrem ↦ by
      obtain ⟨w, hj⟩ := hrem.joins
      rw [hj.length]
      omega)
    (fun i _ t t' hl ↦ by rw [hl.2.live])
  exact ⟨k, by omega, hlen⟩

end Trees

section Unchanged

variable {share : TableShare} {s s' : HaExample}

private theorem sorted_nodup {K : Type} {cmp : K → K → Int} {S : K → Prop} {es : List (Slot K)}
    (hcmp : Comparison cmp S) (hs : Sorted cmp Slot.key es) (hes : ∀ e ∈ es, S e.key) :
    (es.map Slot.key).Nodup := by
  unfold List.Nodup
  rw [List.pairwise_map]
  refine List.Pairwise.imp_of_mem ?_ hs
  intro a b ha _ hab heq
  rw [← heq, hcmp.self (hes a ha)] at hab
  exact absurd hab (by decide)

/-- Unchanged rows are as many as before. -/
theorem Unchanged.length_rows (h : Unchanged share s s') (ord : share.Ordered)
    (ho : Opened share s) (ho' : Opened share s') :
    s'.pBtree.live.length = s.pBtree.live.length := by
  have hnodup : ∀ s₁ : HaExample, Opened share s₁ → (s₁.rows share).Nodup := by
    intro s₁ ho₁
    refine List.Nodup.of_map Prod.fst ?_
    unfold HaExample.rows BTree.contents
    rw [List.map_map]
    exact sorted_nodup ord.primary ho₁.primary.sorted ho₁.primary.keys
  have := ((List.perm_ext_iff_of_nodup (hnodup s' ho') (hnodup s ho)).mpr h.rows).length_eq
  unfold HaExample.rows BTree.contents at this
  rwa [List.length_map, List.length_map] at this

/-- So are unchanged entries. -/
theorem Unchanged.length_entries (h : Unchanged share s s') (ord : share.Ordered)
    (ho : Opened share s) (ho' : Opened share s') (hkeys : 1 < share.keys) :
    s'.entries.length = s.entries.length := by
  have hnodup : ∀ s₁ : HaExample, Opened share s₁ → (s₁.entries.map Slot.key).Nodup := by
    intro s₁ ho₁
    obtain ⟨_, hv⟩ := ho₁.exists_second hkeys
    exact sorted_nodup ord.second hv.sorted hv.keys
  have := ((List.perm_ext_iff_of_nodup (hnodup s' ho') (hnodup s ho)).mpr h.entries).length_eq
  rwa [List.length_map, List.length_map] at this

/-- Trees in the same state hold the same rows and entries. -/
theorem Unchanged.of_same (hp : BTree.Same s.pBtree s'.pBtree)
    (hs : BTree.Same s.secondTree s'.secondTree) : Unchanged share s s' := by
  have hrows : s'.rows share = s.rows share := hp.contents
  have hentries : s'.entries = s.entries := hs.live
  exact ⟨fun r ↦ by rw [hrows], fun k ↦ by rw [hentries]⟩

/-- Only the trees matter. -/
theorem Unchanged.congr {s₁ : HaExample} (h : Unchanged share s₁ s')
    (hp : s₁.pBtree = s.pBtree) (hs : s₁.sBtree = s.sBtree) : Unchanged share s s' := by
  have hrows : s₁.rows share = s.rows share := by
    unfold HaExample.rows
    rw [hp]
  have hentries : s₁.entries = s.entries := by
    unfold HaExample.entries HaExample.secondTree
    rw [hs]
  exact ⟨hrows ▸ h.rows, hentries ▸ h.entries⟩

end Unchanged

section Outcomes

variable {share : TableShare} {server : Server} {s s₁ s' : HaExample} {r : Record}
  {row : List UInt8} {code : Int} {old new : Nat}

private theorem secondTree_congr (h : s'.sBtree = s.sBtree) : s'.secondTree = s.secondTree := by
  unfold HaExample.secondTree
  rw [h]

/-- A write that is refused because the row cannot be stored touches no row. -/
private theorem unchanged_of_failed (hlive : s'.pBtree.live = s.pBtree.live)
    (hv : ∀ e ∈ s.pBtree.live, valueOf share.primary s'.pBtree.page e.value =
      valueOf share.primary s.pBtree.page e.value) (hsec : s'.sBtree = s.sBtree) :
    Unchanged share s s' := by
  have hrows : s'.rows share = s.rows share := by
    unfold HaExample.rows BTree.contents
    rw [hlive]
    exact List.map_congr_left fun e he ↦ by rw [hv e he]
  have hentries : s'.entries = s.entries := by
    unfold HaExample.entries
    rw [secondTree_congr hsec]
  exact ⟨fun r ↦ by rw [hrows], fun k ↦ by rw [hentries]⟩

/-- A failing `write_row` changes nothing when the row is a duplicate or no entry of it is
live, and not otherwise. -/
theorem WriteOutcome.unchanged (h : WriteOutcome share s r row code s') (ord : share.Ordered)
    (ho : Opened share s) (ho' : Opened share s') :
    (RowLive share s r ∨ (∀ i ∈ HaExample.indexes share, ¬ EntryLive share s r i) →
      code ≠ 0 → Unchanged share s s') ∧
    (row.length < 2 ^ 31 → (code ≠ 0 → Unchanged share s s') →
      RowLive share s r ∨ ∀ i ∈ HaExample.indexes share, ¬ EntryLive share s r i) := by
  cases h with
  | refused s' res hne hput hsec =>
    generalize ht : s'.pBtree = t at hput
    cases hput with
    | duplicate e he heq t hs =>
      refine ⟨fun _ _ ↦ .of_same (ht ▸ hs) ?_, fun _ _ ↦ .inl ⟨e, he, heq⟩⟩
      rw [secondTree_congr hsec]
      exact .refl _
    | failed t hlive hc hlen hdead hv hitems =>
      subst ht
      exact ⟨fun _ _ ↦ unchanged_of_failed hlive hv hsec, fun hlt ↦ by omega⟩
    | done => exact absurd rfl hne
  | written s' b hput hloop =>
    generalize ht : s'.pBtree = t at hput
    cases hput with
    | done t w hj hw hv hitems =>
      subst ht
      have hrow : ¬ RowLive share s r := fun ⟨e, he, hek⟩ ↦ hj.ne e he hek
      have hiff := writeLoop_iff hloop
      cases b with
      | true => exact ⟨fun _ hcode ↦ absurd rfl hcode, fun _ _ ↦ .inr (hiff.mp rfl)⟩
      | false =>
        refine ⟨fun hor _ ↦ ?_, fun _ hall ↦ ?_⟩
        · exact absurd (hiff.mpr (hor.resolve_left hrow)) (by decide)
        · have hlen := (hall (by decide)).length_rows ord ho ho'
          rw [hj.length] at hlen
          omega

/-- A failing `delete_row` changes nothing when the row is missing, and not otherwise. -/
theorem DeleteOutcome.unchanged_iff (h : DeleteOutcome share s r code s') (ord : share.Ordered)
    (ho : Opened share s) (ho' : Opened share s') : (code ≠ 0 → Unchanged share s s') ↔
      (RowLive share s r → ∀ i ∈ HaExample.indexes share, EntryLive share s r i) := by
  cases h with
  | missing s' hsame hsec hne =>
    refine ⟨fun _ ⟨e, he, hek⟩ ↦ absurd hek (hne e he), fun _ _ ↦ .of_same hsame ?_⟩
    rw [secondTree_congr hsec]
    exact .refl _
  | removed s' b hrem hloop =>
    obtain ⟨w, hj⟩ := hrem.joins
    obtain ⟨e, _, hek, hmem⟩ := hj.exists_mem
    have hrow : RowLive share s r := ⟨e, (hmem e).mpr (.inl rfl), hek⟩
    have hiff := deleteLoop_iff hloop
    cases b with
    | true => exact ⟨fun _ _ ↦ hiff.mp rfl, fun _ hcode ↦ absurd rfl hcode⟩
    | false =>
      refine ⟨fun hall ↦ ?_, fun hall ↦ ?_⟩
      · have hlen := (hall (by decide)).length_rows ord ho ho'
        rw [hj.length] at hlen
        omega
      · exact absurd (hiff.mpr (hall hrow)) (by decide)

/-- A successful `delete_row` removes the row and all entries. -/
theorem DeleteOutcome.of_zero (h : DeleteOutcome share s r code s') (hcode : code = 0) :
    Removes share.primary (share.primaryKey r) s.pBtree s'.pBtree ∧
      Loop (fun i ↦ Removes share.second (share.packKey i r)) (Lacks share r)
        (HaExample.indexes share) s.secondTree true s'.secondTree := by
  cases h with
  | missing => exact absurd hcode (by decide)
  | removed s' b hrem hloop =>
    cases b with
    | true => exact ⟨hrem, hloop⟩
    | false => exact absurd hcode (by decide)

end Outcomes

section Update

variable {share : TableShare} {server : Server} {s s₁ s' : HaExample} {code : Int}
  {old new buf : Nat}

private theorem OnlyTrees.numbered (h : OnlyTrees s s') (server : Server) (buf : Nat) :
    (HaExample.numbered server buf s').1 = (HaExample.numbered server buf s).1 ∧
      OnlyTrees (HaExample.numbered server buf s).2 (HaExample.numbered server buf s').2 := by
  unfold OnlyTrees at h
  rw [h]
  unfold HaExample.numbered OnlyTrees
  simp only
  split
  · exact ⟨rfl, rfl⟩
  · exact ⟨rfl, rfl⟩

private theorem OnlyTrees.packRow (h : OnlyTrees s s') (share : TableShare) (server : Server)
    (buf : Nat) :
    (HaExample.packRow share server buf s').1 = (HaExample.packRow share server buf s).1 ∧
      OnlyTrees (HaExample.packRow share server buf s).2
        (HaExample.packRow share server buf s').2 := by
  unfold OnlyTrees at h
  rw [h]
  unfold HaExample.packRow HaExample.grown OnlyTrees
  simp only
  split
  · exact ⟨rfl, rfl⟩
  · exact ⟨rfl, rfl⟩

/-- Packing depends on no tree. -/
theorem OnlyTrees.prepared (h : OnlyTrees s s') (share : TableShare) (server : Server)
    (buf : Nat) :
    s'.unprepared share server buf = s.unprepared share server buf ∧
      OnlyTrees (s.prepared share server buf) (s'.prepared share server buf) := by
  obtain ⟨hcode, hnum⟩ := h.numbered server buf
  obtain ⟨hrow, hpack⟩ := hnum.packRow share server buf
  refine ⟨?_, hpack⟩
  unfold HaExample.unprepared
  rw [hcode, hrow]

/-- What is left of the rows and entries after `delete_row`. -/
private theorem left_after_delete {r₀ r : Record}
    (hrem : Removes share.primary (share.primaryKey r₀) s.pBtree s'.pBtree)
    (hloop : Loop (fun i ↦ Removes share.second (share.packKey i r₀)) (Lacks share r₀)
      (HaExample.indexes share) s.secondTree true s'.secondTree) :
    (¬ RowLive share s' r ↔ ∀ e ∈ s.pBtree.live,
      share.primaryKeyCompare e.key (share.primaryKey r) = 0 →
      share.primaryKeyCompare e.key (share.primaryKey r₀) = 0) ∧
    ∀ i ∈ HaExample.indexes share, (¬ EntryLive share s' r i ↔ ∀ e ∈ s.entries,
      share.secondKeyCompare e.key (share.packKey i r) = 0 →
      share.secondKeyCompare e.key (share.packKey i r₀) = 0) := by
  obtain ⟨w, hj⟩ := hrem.joins
  refine ⟨⟨fun hnot e he hek ↦ ?_, fun hall ⟨e, he, hek⟩ ↦ ?_⟩, fun i hi ↦ ⟨fun hnot e he hek ↦ ?_,
    fun hall ⟨e, he, hek⟩ ↦ ?_⟩⟩
  · by_contra hne
    exact hnot ⟨e, (hj.mem_iff e).mpr ⟨he, hne⟩, hek⟩
  · obtain ⟨he, hne⟩ := (hj.mem_iff e).mp he
    exact hne (hall e he hek)
  · by_contra hne
    refine hnot ⟨e, (deleteLoop_mem hloop rfl e).mpr ⟨he, fun j hj hj0 ↦ hne ?_⟩, hek⟩
    -- an entry equal to a packed key of index `i` is of no other index
    obtain ⟨hi1, hi⟩ := mem_indexes.mp hi
    obtain ⟨hj1, hj⟩ := mem_indexes.mp hj
    have hij : i = j := by rw [← indexOf_of_eq hi1 hi hek, ← indexOf_of_eq hj1 hj hj0]
    exact hij ▸ hj0
  · obtain ⟨he, hne⟩ := (deleteLoop_mem hloop rfl e).mp he
    exact hne i hi (hall e he hek)

/-- The update can be made: the old row is there with all its entries, the new row can be
stored, and neither its primary key nor an entry of it belongs to another row. -/
structure Updatable (share : TableShare) (server : Server) (old new : Nat) (s₁ : HaExample) :
    Prop where
  complete : ∀ i ∈ HaExample.indexes share, EntryLive share s₁ (s₁.record old) i
  packed : s₁.unprepared share server new = none
  length : ((s₁.prepared share server new).packedRow share new).length < 2 ^ 31
  primary : ∀ e ∈ s₁.pBtree.live,
    share.primaryKeyCompare e.key
      (share.primaryKey ((s₁.prepared share server new).record new)) = 0 →
    share.primaryKeyCompare e.key (share.primaryKey (s₁.record old)) = 0
  second : ∀ i ∈ HaExample.indexes share, ∀ e ∈ s₁.entries,
    share.secondKeyCompare e.key
      (share.packKey i ((s₁.prepared share server new).record new)) = 0 →
    share.secondKeyCompare e.key (share.packKey i (s₁.record old)) = 0

private theorem one_lt_keys {i : Nat} (hi : i ∈ HaExample.indexes share) : 1 < share.keys := by
  have := mem_indexes.mp hi
  omega

/-- A code that `write_row` stops with is that of a failure. -/
theorem unprepared_ne_zero (h : s.unprepared share server buf = some code) :
    code ≠ 0 := by
  unfold HaExample.unprepared at h
  split at h
  · next hne =>
    cases h
    exact hne
  · split at h
    · cases h
      decide
    · cases h

/-- A failing `update_row` changes nothing when the old row is missing, or when the update can
be made, and not otherwise. -/
theorem UpdateOutcome.unchanged (h : UpdateOutcome share server s old new code s')
    (ord : share.Ordered) (ho : Opened share s) (ho' : Opened share s') :
    ((RowLive share s (s.record old) → Updatable share server old new s) →
      code ≠ 0 → Unchanged share s s') ∧
    (((s.prepared share server new).packedRow share new).length < 2 ^ 31 →
      (code ≠ 0 → Unchanged share s s') →
      RowLive share s (s.record old) → Updatable share server old new s) := by
  cases h with
  | undeleted code s' hne hkeep hdel =>
    have hiff := hdel.unchanged_iff ord ho ho'
    refine ⟨fun hcond ↦ hiff.mpr fun hlive ↦ (hcond hlive).complete, fun _ hall hlive ↦ ?_⟩
    have hcomplete := hiff.mp hall hlive
    cases hdel with
    | missing _ _ _ hmiss =>
      obtain ⟨e, he, hek⟩ := hlive
      exact absurd hek (hmiss e he)
    | removed _ b hrem hloop =>
      rw [(deleteLoop_iff hloop).mpr hcomplete] at hne
      exact absurd rfl hne
  | stopped s₂ s' code hkeep hdel hstop honly =>
    obtain ⟨hrem, hloop⟩ := hdel.of_zero rfl
    obtain ⟨w, hj⟩ := hrem.joins
    obtain ⟨e, _, hek, hmem⟩ := hj.exists_mem
    rw [(hkeep.prepared share server new).1] at hstop
    refine ⟨fun hcond _ ↦ ?_, fun _ hall _ ↦ ?_⟩
    · have := (hcond ⟨e, (hmem e).mpr (.inl rfl), hek⟩).packed
      rw [hstop] at this
      cases this
    · have hlen := (hall (unprepared_ne_zero hstop)).length_rows ord ho ho'
      rw [honly.pBtree, hj.length] at hlen
      omega
  | rewritten s₂ s' code _ hkeep hdel hgo hkeep' hwrite =>
    obtain ⟨hrem, hloop⟩ := hdel.of_zero rfl
    obtain ⟨w, hj⟩ := hrem.joins
    obtain ⟨e, _, hek, hmem⟩ := hj.exists_mem
    have hrow : RowLive share s (s.record old) := ⟨e, (hmem e).mpr (.inl rfl), hek⟩
    obtain ⟨hun, htrees⟩ := hkeep.prepared share server new
    have hp : (s₂.prepared share server new).pBtree = s₂.pBtree := onlyServer_prepared.pBtree
    have hs : (s₂.prepared share server new).secondTree = s₂.secondTree :=
      onlyServer_prepared.secondTree
    have hrec : (s₂.prepared share server new).record = (s.prepared share server new).record := by
      rw [htrees]
    have hleft := left_after_delete (r := (s₂.prepared share server new).record new)
      (hp.symm ▸ hrem) (hs.symm ▸ hloop)
    have hpacked : (s₂.prepared share server new).packedRow share new =
        (s.prepared share server new).packedRow share new := by
      unfold HaExample.packedRow
      rw [hrec]
    rw [hrec] at hleft
    rw [hpacked, hrec] at hwrite
    cases hwrite with
    | refused s' res hne hput hsec =>
      have hfewer : s.pBtree.live.length = s'.pBtree.live.length + 1 ∧
          ((RowLive share s (s.record old) → Updatable share server old new s) → False) := by
        generalize ht : s'.pBtree = t at hput
        cases hput with
        | duplicate e he heq t hsame =>
          refine ⟨?_, fun hcond ↦ hleft.1.mpr (hcond hrow).primary ⟨e, he, heq⟩⟩
          rw [hsame.live, hp, hj.length]
        | failed t hlive hc hlen hdead hv hitems =>
          refine ⟨by rw [hlive, hp, hj.length], fun hcond ↦ ?_⟩
          have := (hcond hrow).length
          omega
        | done => exact absurd rfl hne
      refine ⟨fun hcond ↦ absurd (hfewer.2 hcond) id, fun _ hall _ ↦ ?_⟩
      have hlen := (hall (by split <;> decide)).length_rows ord ho ho'
      omega
    | written s' b hput hloop' =>
      generalize ht : s'.pBtree = t at hput
      cases hput with
      | done t w' hj' hw hv hitems =>
        have hnorow : ¬ RowLive share (s₂.prepared share server new)
            ((s.prepared share server new).record new) := fun ⟨e, he, hek⟩ ↦ hj'.ne e he hek
        have hiff := writeLoop_iff hloop'
        cases b with
        | true =>
          refine ⟨fun _ hcode ↦ absurd rfl hcode, fun hlen _ _ ↦ ?_⟩
          exact ⟨(deleteLoop_iff hloop).mp rfl, hun.symm.trans hgo, hlen, hleft.1.mp hnorow,
            fun i hi ↦ (hleft.2 i hi).mp (hiff.mp rfl i hi)⟩
        | false =>
          refine ⟨fun hcond ↦ ?_, fun _ hall _ ↦ ?_⟩
          · have hsecond := (hcond hrow).second
            exact absurd (hiff.mpr fun i hi ↦ (hleft.2 i hi).mpr (hsecond i hi)) (by decide)
          · -- fewer entries are added than were removed
            obtain ⟨k, hk, hlt⟩ := writeLoop_length hloop'
            obtain ⟨k', hk', heq⟩ := deleteLoop_length hloop
            rw [if_neg (by decide)] at hlt
            rw [if_pos rfl] at heq
            obtain ⟨i, hi⟩ := List.exists_mem_of_length_pos (Nat.zero_lt_of_lt hlt)
            have hlen := (hall (by decide)).length_entries ord ho ho' (one_lt_keys hi)
            unfold HaExample.entries at hlen
            rw [hs] at hk
            omega

end Update

section Operations

variable {share : TableShare} {server : Server} {s s' : HaExample}

/-- `write_row` fails before its first change, or does not fail: it does not come to the tree
of rows, or the row is a duplicate, or no entry of the row is live. -/
def WriteKeeps (share : TableShare) (server : Server) (buf : Nat) (s : HaExample) : Prop :=
  s.unprepared share server buf ≠ none ∨
    RowLive share s ((s.prepared share server buf).record buf) ∨
    ∀ i ∈ HaExample.indexes share, ¬ EntryLive share s ((s.prepared share server buf).record buf) i

/-- `delete_row` does so: when the row is live, all its entries are. -/
def DeleteKeeps (share : TableShare) (buf : Nat) (s : HaExample) : Prop :=
  RowLive share s (s.record buf) →
    ∀ i ∈ HaExample.indexes share, EntryLive share s (s.record buf) i

/-- `update_row` does so: when the old row is live, the update can be made. -/
def UpdateKeeps (share : TableShare) (server : Server) (old new : Nat) (s : HaExample) : Prop :=
  RowLive share (HaExample.numbered server new s).2
    ((HaExample.numbered server new s).2.record old) →
    Updatable share server old new (HaExample.numbered server new s).2

private theorem rowLive_congr (h : s'.pBtree = s.pBtree) (r : Record) :
    RowLive share s' r ↔ RowLive share s r := by
  unfold RowLive
  rw [h]

private theorem entryLive_congr (h : s'.sBtree = s.sBtree) (r : Record) (i : Nat) :
    EntryLive share s' r i ↔ EntryLive share s r i := by
  unfold EntryLive HaExample.entries
  rw [secondTree_congr h]

/-- `write_row` in a table in order. -/
private theorem Opened.wp_writeRow_unchanged (ho : Opened share s) (ord : share.Ordered)
    (buf : Nat) :
    wp Beyond (HaExample.writeRow share server buf) (fun code s' ↦
      (WriteKeeps share server buf s → code ≠ 0 → Unchanged share s s') ∧
      (((s.prepared share server buf).packedRow share buf).length < 2 ^ 31 →
        (code ≠ 0 → Unchanged share s s') → WriteKeeps share server buf s)) s := by
  have hprep : OnlyServer s (s.prepared share server buf) := onlyServer_prepared
  refine wp_writeRow ord ho (fun code s' hun _ honly ↦ ⟨fun _ _ ↦ ?_, fun _ _ ↦ ?_⟩) ?_
  · refine .of_same ?_ ?_
    · rw [honly.pBtree]
      exact .refl _
    · rw [honly.secondTree]
      exact .refl _
  · refine .inl ?_
    rw [hun]
    simp
  · intro code s' hgo ho' _ hwrite
    obtain ⟨henough, hneeded⟩ := hwrite.unchanged ord (hprep.opened ho) ho'
    rw [rowLive_congr hprep.pBtree] at henough hneeded
    simp only [entryLive_congr hprep.sBtree] at henough hneeded
    refine ⟨fun hkeeps hcode ↦ ?_, fun hlen hall ↦ .inr (hneeded hlen fun hcode ↦ ?_)⟩
    · refine (henough ?_ hcode).congr hprep.pBtree hprep.sBtree
      exact hkeeps.resolve_left fun hne ↦ hne hgo
    · exact (hall hcode).congr hprep.pBtree.symm hprep.sBtree.symm

/-- `update_row` in a table in order. -/
private theorem Opened.wp_updateRow_unchanged (ho : Opened share s) (ord : share.Ordered)
    (old new : Nat) :
    wp Beyond (HaExample.updateRow share server old new) (fun code s' ↦
      (UpdateKeeps share server old new s → code ≠ 0 → Unchanged share s s') ∧
      ((((HaExample.numbered server new s).2.prepared share server new).packedRow
          share new).length < 2 ^ 31 →
        (code ≠ 0 → Unchanged share s s') → UpdateKeeps share server old new s)) s := by
  have hnum : OnlyServer s (HaExample.numbered server new s).2 := onlyServer_numbered
  refine wp_updateRow ord ho fun code s' ho' hout ↦ ?_
  obtain ⟨henough, hneeded⟩ := hout.unchanged ord (hnum.opened ho) ho'
  refine ⟨fun hkeeps hcode ↦ ?_, fun hlen hall ↦ hneeded hlen fun hcode ↦ ?_⟩
  · exact (henough hkeeps hcode).congr hnum.pBtree hnum.sBtree
  · exact (hall hcode).congr hnum.pBtree.symm hnum.sBtree.symm

/-- Row operations in any state of a table: one that fails leaves the live rows and entries as
they were when its condition holds, and otherwise it does not, for packed rows below 2 GiB. -/
theorem row_operations_unchanged (ord : share.Ordered) (hs : Served share server s) :
    (∀ buf, wp Beyond (HaExample.writeRow share server buf) (fun code s' ↦
      (WriteKeeps share server buf s → code ≠ 0 → Unchanged share s s') ∧
      (((s.prepared share server buf).packedRow share buf).length < 2 ^ 31 →
        (code ≠ 0 → Unchanged share s s') → WriteKeeps share server buf s)) s) ∧
    (∀ buf, wp Beyond (HaExample.deleteRow share buf) (fun code s' ↦
      (code ≠ 0 → Unchanged share s s') ↔ DeleteKeeps share buf s) s) ∧
    ∀ old new, wp Beyond (HaExample.updateRow share server old new) (fun code s' ↦
      (UpdateKeeps share server old new s → code ≠ 0 → Unchanged share s s') ∧
      ((((HaExample.numbered server new s).2.prepared share server new).packedRow
          share new).length < 2 ^ 31 →
        (code ≠ 0 → Unchanged share s s') → UpdateKeeps share server old new s)) s := by
  have ho := hs.isOpened ord
  refine ⟨ho.wp_writeRow_unchanged ord, fun buf ↦ ?_, ho.wp_updateRow_unchanged ord⟩
  exact wp_deleteRow ord ho fun code s' ho' _ hdel ↦ hdel.unchanged_iff ord ho ho'

/-- Two rows stored. -/
theorem filledTable_unchanged : wp Beyond (HaExample.deleteRow digits 0) (fun code s' ↦
    (code ≠ 0 → Unchanged digits filledTable s') ↔ DeleteKeeps digits 0 filledTable) filledTable :=
  (row_operations_unchanged digits_ordered filledTable_served).2.1 0

/-- The live keys before and after the first row is given the primary key of the second. -/
private def lostUpdate : Option (Int × List Key × List Key) :=
  match (Request.performAll digits lenient [.fill 1 (digitRecord 1 5 7),
      .fill 0 (digitRecord 2 5 7)]).run filledTable with
  | .error _ => none
  | .ok (_, s) =>
    match (HaExample.updateRow digits lenient 1 0).run s with
    | .error _ => none
    | .ok (code, s') => some (code, s.pBtree.live.map Slot.key, s'.pBtree.live.map Slot.key)

/-- An `update_row` to the primary key of another row reports the duplicate and loses the old
row. -/
theorem duplicate_update_loses_row : ¬ ∀ s, Served digits lenient s → ∀ old new,
    wp Beyond (HaExample.updateRow digits lenient old new)
      (fun code s' ↦ code ≠ 0 → Unchanged digits s s') s := by
  intro hall
  have hrun : lostUpdate = some (HA_ERR_FOUND_DUPP_KEY, [[1], [2]], [[2]]) := by decide +kernel
  unfold lostUpdate at hrun
  split at hrun
  · cases hrun
  next codes s hfilled =>
  split at hrun
  · cases hrun
  next code s' hupdated =>
  simp only [Option.some.injEq, Prod.mk.injEq] at hrun
  obtain ⟨hcode, hlive, hlive'⟩ := hrun
  have hs : Served digits lenient s := by
    refine filledTable_served.requests ?_ hfilled
    intro req hmem s
    simp only [List.mem_cons, List.not_mem_nil, or_false] at hmem
    obtain rfl | rfl := hmem <;> trivial
  have hs' := hs.step s s' (.updateRow 1 0) code trivial hupdated
  have hkeep := wp_ok (hall s hs 1 0) hupdated (by rw [hcode]; decide)
  have hlen := hkeep.length_rows digits_ordered (hs.isOpened digits_ordered)
    (hs'.isOpened digits_ordered)
  have htwo : s.pBtree.live.length = 2 := by simpa using congrArg List.length hlive
  have hone : s'.pBtree.live.length = 1 := by simpa using congrArg List.length hlive'
  omega

end Operations

end ExampleEngine.Handler
