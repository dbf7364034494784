import ExampleEngine.Index.Bindings
import ExampleEngine.Matu.Statements

/-!
# Trees of rows

Library `Matu`. A tree of rows lists its rows in the order of their ids. What moves, reads,
removals and insertions of `src/lib/btree.cpp` do to the list, as long as no difference of ids
overflows.
-/

namespace ExampleEngine.Matu

open ExampleEngine.Base ExampleEngine.Storage ExampleEngine.Index ExampleEngine.Index.BTree

/-- An `int` from `lo` on, less than 2 to the 31 away from it. -/
def InRange (lo id : Int) : Prop :=
  -2 ^ 31 ≤ id ∧ id < 2 ^ 31 ∧ lo ≤ id ∧ id < lo + 2 ^ 31

/-- Differences of ids in range do not wrap. -/
theorem cmp_eq {lo a b : Int} (ha : InRange lo a) (hb : InRange lo b) : cmp a b = a - b := by
  unfold InRange at ha hb
  unfold cmp toInt32
  split <;> omega

/-- The comparator orders the ids in range. -/
theorem cmp_comparison (lo : Int) : Comparison bTree.cmp (InRange lo) where
  flip ha hb := by
    change cmp _ _ < 0 ↔ 0 < cmp _ _
    rw [cmp_eq ha hb, cmp_eq hb ha]
    omega
  trans ha hb hc := by
    change cmp _ _ ≤ 0 → cmp _ _ ≤ 0 → cmp _ _ ≤ 0
    rw [cmp_eq ha hb, cmp_eq hb hc, cmp_eq ha hc]
    omega

/-- Nodes have room for many ids. -/
theorem bTree_wide : bTree.Wide := bTree.wide_iff.mpr (by decide)

/-- The row stored with an entry. -/
def rowOf (v : Nat → Page Int) (e : Slot Int) : Option RowData :=
  match valueOf bTree v e.value with
  | none => none
  | some record => (decode record).toOption

/-- The rows of the live entries. -/
def rows (t : BTree Int) : List RowData := t.live.filterMap (rowOf t.page)

/-- The entry holds the row under its id. -/
structure Shows (lo : Int) (v : Nat → Page Int) (e : Slot Int) (d : RowData) : Prop where
  record : ∃ p, valueOf bTree v e.value = some p ∧ decode p = .ok d
  id : d.id = e.key
  range : InRange lo d.id

/-- The tree is in order and its live entries hold the rows. -/
structure Table (lo : Int) (t : BTree Int) (R : List RowData) : Prop where
  valid : Valid bTree (InRange lo) t
  rows : List.Forall₂ (Shows lo t.page) t.live R

/-- A move lands on a row, or on none. -/
def Meets (lo : Int) (t : BTree Int) (r : Int × Iterator) : Option RowData → Prop
  | some d => r.1 = 1 ∧ ∃ s, Stands t r.2 s ∧ Shows lo t.page s d
  | none => r.1 = 0

variable {lo k : Int} {t t' : BTree Int} {it : Iterator} {s : Slot Int} {d : RowData}
  {R A B : List RowData} {E : Fault → Prop}

namespace Shows

variable {v v' : Nat → Page Int} {e : Slot Int}

/-- The same record elsewhere. -/
theorem congr (h : Shows lo v e d) (hv : valueOf bTree v' e.value = valueOf bTree v e.value) :
    Shows lo v' e d := by
  obtain ⟨p, hp, hd⟩ := h.record
  exact ⟨⟨p, hv.trans hp, hd⟩, h.id, h.range⟩

/-- The row is the one stored with the entry. -/
theorem rowOf (h : Shows lo v e d) : rowOf v e = some d := by
  obtain ⟨p, hp, hd⟩ := h.record
  simp only [Matu.rowOf, hp, hd]
  rfl

/-- Comparisons with the key of the entry are those with the id. -/
theorem cmp_key (h : Shows lo v e d) (hk : InRange lo k) : bTree.cmp e.key k = d.id - k := by
  rw [← h.id]
  exact cmp_eq h.range hk

end Shows

namespace Table

/-- Entries and their rows go by the same ids. -/
private theorem ids {v : Nat → Page Int} {es : List (Slot Int)}
    (h : List.Forall₂ (Shows lo v) es R) : R.map RowData.id = es.map Slot.key := by
  induction h with
  | nil => rfl
  | cons hd _ ih => rw [List.map_cons, List.map_cons, hd.id, ih]

/-- What holds of the keys of entries holds of the ids of their rows. -/
private theorem forall_id (P : Int → Prop) {v : Nat → Page Int} {es : List (Slot Int)}
    (h : List.Forall₂ (Shows lo v) es R) (hP : ∀ e ∈ es, P e.key) : ∀ d ∈ R, P d.id := by
  intro d hd
  have hmem : d.id ∈ es.map Slot.key := by
    rw [← ids h]
    exact List.mem_map_of_mem hd
  obtain ⟨e, he, heq⟩ := List.mem_map.mp hmem
  exact heq ▸ hP e he

/-- The rows of a list of entries in two parts. -/
private theorem split_rows {v : Nat → Page Int} {es es' : List (Slot Int)}
    (h : List.Forall₂ (Shows lo v) (es ++ es') R) : ∃ A B, R = A ++ B ∧
      List.Forall₂ (Shows lo v) es A ∧ List.Forall₂ (Shows lo v) es' B := by
  induction es generalizing R with
  | nil => exact ⟨[], R, rfl, .nil, h⟩
  | cons e es ih =>
    cases h with
    | cons hd htl =>
      obtain ⟨A, B, rfl, hA, hB⟩ := ih htl
      exact ⟨_ :: A, B, rfl, .cons hd hA, hB⟩

/-- The same records elsewhere. -/
private theorem congr_rows {v v' : Nat → Page Int} {es : List (Slot Int)}
    (h : List.Forall₂ (Shows lo v) es R)
    (hv : ∀ e ∈ es, valueOf bTree v' e.value = valueOf bTree v e.value) :
    List.Forall₂ (Shows lo v') es R := by
  induction h with
  | nil => exact .nil
  | cons hd _ ih =>
    obtain ⟨he, hes⟩ := List.forall_mem_cons.mp hv
    exact .cons (hd.congr he) (ih hes)

/-- The rows of the tree. -/
theorem rows_eq (h : Table lo t R) : Matu.rows t = R := by
  unfold Matu.rows
  obtain ⟨_, hrows⟩ := h
  generalize t.live = es at hrows
  induction hrows with
  | nil => rfl
  | cons hd _ ih => rw [List.filterMap_cons_some hd.rowOf, ih]

/-- The ids of the rows are the live keys. -/
theorem map_id (h : Table lo t R) : R.map RowData.id = t.live.map Slot.key := ids h.rows

/-- The ids of the rows are in range. -/
theorem range (h : Table lo t R) : ∀ d ∈ R, InRange lo d.id :=
  forall_id (InRange lo) h.rows h.valid.keys

/-- The ids of the rows increase. -/
theorem sorted (h : Table lo t R) : R.Pairwise fun d d' ↦ d.id < d'.id := by
  have hkeys : (t.live.map Slot.key).Pairwise fun a b ↦ bTree.cmp a b < 0 :=
    List.pairwise_map.mpr h.valid.sorted
  rw [← h.map_id, List.pairwise_map] at hkeys
  refine hkeys.imp_of_mem fun ha hb hlt ↦ ?_
  have hcmp : cmp _ _ < 0 := hlt
  rw [cmp_eq (h.range _ ha) (h.range _ hb)] at hcmp
  omega

/-- The same tree has the same rows. -/
theorem same (h : Table lo t R) (hv : Valid bTree (InRange lo) t') (hs : Same t t') :
    Table lo t' R := by
  refine ⟨hv, ?_⟩
  rw [hs.live]
  exact h.rows.imp fun _ _ he ↦ he.congr (by rw [hs.page])

/-- What a search among the entries finds is what the search among the rows finds. -/
private theorem meets_find {p : Slot Int → Bool} {q : RowData → Bool} {es : List (Slot Int)}
    {r : Int × Iterator} (hrows : List.Forall₂ (Shows lo t.page) es R)
    (hpq : ∀ e d, Shows lo t.page e d → p e = q d) (hr : Found t r (es.find? p)) :
    Meets lo t r (R.find? q) := by
  induction hrows with
  | nil => exact hr
  | @cons e d _ _ hd _ ih =>
    have heq := hpq e d hd
    by_cases hp : p e = true
    · rw [List.find?_cons_of_pos hp] at hr
      rw [List.find?_cons_of_pos (heq ▸ hp)]
      exact ⟨hr.1, e, hr.2, hd⟩
    · rw [List.find?_cons_of_neg hp] at hr
      rw [List.find?_cons_of_neg (heq ▸ hp)]
      exact ih hr

/-- `locate` lands on the first row with the id or a greater one. -/
theorem wp_locate (h : Table lo t R) (hk : InRange lo k) :
    wp E (Iterator.locate bTree k .KEY_OR_NEXT) (fun r t' ↦ Table lo t' R ∧ Same t t' ∧
      Meets lo t' r (R.find? fun d ↦ k ≤ d.id)) t := by
  obtain ⟨hsorted, hkeys⟩ := h.valid.slots
  have hprobe := hsorted.probe (cmp_comparison lo) hkeys hk
  refine wp_mono (h.valid.wp_locate hprobe) fun r t' hr ↦ ?_
  obtain ⟨hv', hsame, hfound⟩ := hr
  have h' := h.same hv' hsame
  refine ⟨h', hsame, ?_⟩
  rw [← hsame.live] at hfound
  refine meets_find h'.rows (fun e d hd ↦ ?_) hfound
  simp only [IterFlag.Qualifies, hd.cmp_key hk, Int.sub_nonneg]

/-- `first` lands on the first row. -/
theorem wp_first (h : Table lo t R) :
    wp E it.first (fun r t' ↦ Table lo t' R ∧ Same t t' ∧ Meets lo t' r R.head?) t := by
  refine wp_mono h.valid.wp_first fun r t' hr ↦ ?_
  obtain ⟨hv', hsame, hfound⟩ := hr
  have h' := h.same hv' hsame
  refine ⟨h', hsame, ?_⟩
  rw [← hsame.live] at hfound
  have hrows := h'.rows
  generalize t'.live = es at hrows hfound
  cases hrows with
  | nil => exact hfound
  | cons hd _ => exact ⟨hfound.1, _, hfound.2, hd⟩

/-- `next` lands on the first row with a greater id. -/
theorem wp_next (h : Table lo t R) (hs : Stands t it s) :
    wp E it.next (fun r t' ↦ Table lo t' R ∧ Same t t' ∧
      Meets lo t' r (R.find? fun d ↦ s.key < d.id)) t := by
  have hk : InRange lo s.key := h.valid.slots.2 s (h.valid.mem_slots_of_stands hs)
  refine wp_mono (h.valid.wp_next (cmp_comparison lo) hs) fun r t' hr ↦ ?_
  obtain ⟨hv', hsame, hfound⟩ := hr
  have h' := h.same hv' hsame
  refine ⟨h', hsame, ?_⟩
  rw [← hsame.live] at hfound
  refine meets_find h'.rows (fun e d hd ↦ ?_) hfound
  simp only [IterFlag.Qualifies, hd.cmp_key hk, Int.sub_pos]

/-- The row under an iterator is read. -/
theorem wp_rowAt (h : Table lo t R) (hs : Stands t it s) (hd : Shows lo t.page s d) :
    wp E (rowAt it) (fun d' t' ↦ d' = d ∧ Table lo t' R ∧ Same t t') t := by
  unfold rowAt
  rw [wp_bind]
  refine wp_mono (h.valid.wp_getValue hs) fun p t' hp ↦ ?_
  obtain ⟨hv', hsame, hp⟩ := hp
  obtain ⟨record, hrec, hdec⟩ := hd.record
  rw [hp, hrec]
  simp only [wp_liftM, hdec]
  exact ⟨trivial, h.same hv' hsame, hsame⟩

/-- `remove` takes the row under the iterator out. -/
theorem wp_remove (h : Table lo t R) (hs : Stands t it s) :
    wp E it.remove (fun _ t' ↦ Table lo t' (R.filter fun d ↦ d.id ≠ s.key) ∧
      ∃ s', s'.key = s.key ∧ Stands t' it s') t := by
  have hk : InRange lo s.key := h.valid.slots.2 s (h.valid.mem_slots_of_stands hs)
  refine h.valid.wp_remove (cmp_comparison lo) hs fun t' hv' hlive hval hst _ _ ↦ ?_
  obtain ⟨s', hs', hst'⟩ := hst it s hs
  refine ⟨⟨hv', ?_⟩, s', congrArg Prod.fst hs', hst'⟩
  rw [hlive]
  have hrows : List.Forall₂ (Shows lo t'.page) t.live R :=
    h.rows.imp fun _ _ he ↦ he.congr (hval _)
  refine List.rel_filter (fun e d hd ↦ ?_) hrows
  simp only [hd.cmp_key hk, decide_eq_true_eq]
  omega

/-- Storing the record of a row under an id that no row has adds what the record keeps of it. -/
theorem wp_putRecord {data : RowData} (h : Table lo t R) (hid : InRange lo data.id)
    (hfits : data.size < 2 ^ 16) (hne : ∀ d ∈ R, d.id ≠ data.id) :
    wp Beyond (putRecord data.id (encode data)) (fun _ t' ↦
      (∃ A B, R = A ++ B ∧ (∀ d ∈ A, d.id < data.id) ∧ (∀ d ∈ B, data.id < d.id) ∧
        Table lo t' (A ++ data.kept :: B)) ∧
      ∀ it s, Stands t it s → s.key = data.id → ∃ s', s'.key = s.key ∧ Stands t' it s') t := by
  have hlen := RowData.length_encode hfits
  unfold putRecord
  rw [RowData.leNat_encode hfits, ← hlen, List.take_length]
  obtain ⟨m, depth, x, ht⟩ := h.valid.holds
  refine BTree.wp_put bTree_wide (cmp_comparison lo) hid ht (covers_beyond _) fun r t' ho ↦ ?_
  obtain ⟨hv', hputs⟩ := Valid.puts_of_outcome ht (cmp_comparison lo) hid ho
  have hstorable : r = 1 → Storable (encode data).length := by
    intro hr
    cases ho with
    | duplicate => cases hr
    | done _ _ _ _ _ _ _ _ _ _ _ _ _ _ hst _ => exact hst rfl
    | failed => cases hr
  cases hputs with
  | duplicate e he heq t' hs =>
    have hnot : ∀ e ∈ t.live, e.key ≠ data.id := by
      intro e he hek
      have hmem : e.key ∈ R.map RowData.id := by
        rw [h.map_id]
        exact List.mem_map_of_mem he
      obtain ⟨d, hd, hdk⟩ := List.mem_map.mp hmem
      exact hne d hd (hdk.trans hek)
    have hcmp : cmp e.key data.id = 0 := heq
    rw [cmp_eq (h.valid.keys e he) hid] at hcmp
    exact absurd (by omega) (hnot e he)
  | failed t' _ _ hlong => omega
  | done t' w hj hw hval hitems hup =>
    have hsize : data.size ≤ maxValueSize := by
      have := (hstorable rfl).1
      rw [hlen, toInt32_of_lt (by omega)] at this
      unfold freshSize at this
      unfold maxValueSize
      omega
    have htakes : bTree.Takes (encode data) := by
      change (encode data).length ≤ maxValueSize
      rw [hlen]
      exact hsize
    obtain ⟨n, hw⟩ := hw
    obtain ⟨p, hp, hbytes⟩ := valueOf_written htakes hw
    have hdec : decode p = .ok data.kept := by
      refine RowData.decode_encode ?_ hid.1 hid.2.1 fun i hi ↦ ?_
      · unfold maxValueSize at hsize
        simp only [BLOCK_SIZE]
        omega
      · rw [Nat.zero_add]
        exact hbytes i hi
    have hst : ∀ it s, Stands t it s → s.key = data.id →
        ∃ s', s'.key = s.key ∧ Stands t' it s' := by
      intro it s hs hkey
      refine hup.stands h.valid (cmp_comparison lo) hid ⟨s, h.valid.mem_slots_of_stands hs, ?_⟩ hs
      rw [hkey]
      exact (cmp_comparison lo).self hid
    refine ⟨?_, hst⟩
    obtain ⟨es, s, es', hes, hes', hsw, hsk, hlt, hgt⟩ := hj.split
    have hrows := congr_rows h.rows hval
    rw [hes] at hrows
    obtain ⟨A, B, rfl, hA, hB⟩ := split_rows hrows
    have hkeys : ∀ e ∈ es ++ es', InRange lo e.key := fun e he ↦
      h.valid.keys e (by rw [hes]; exact he)
    have hskey : data.id = s.key := by
      have hs : InRange lo s.key := hv'.keys s (by rw [hes']; simp)
      have hcmp : cmp s.key data.id = 0 := hsk
      rw [cmp_eq hs hid] at hcmp
      omega
    have hshows : Shows lo t'.page s data.kept := by
      refine ⟨⟨p, ?_, hdec⟩, hskey, hid⟩
      rw [hsw]
      exact hp
    have hbelow : ∀ e ∈ es, e.key < data.id := by
      intro e he
      have hcmp : cmp e.key data.id < 0 := hlt e he
      rw [cmp_eq (hkeys e (by simp [he])) hid] at hcmp
      omega
    have habove : ∀ e ∈ es', data.id < e.key := by
      intro e he
      have hcmp : 0 < cmp e.key data.id := hgt e he
      rw [cmp_eq (hkeys e (by simp [he])) hid] at hcmp
      omega
    refine ⟨A, B, rfl, forall_id (· < data.id) hA hbelow,
      forall_id (data.id < ·) hB habove, hv', ?_⟩
    rw [hes']
    exact List.rel_append hA (.cons hshows hB)

/-- Storing under an id that a row has changes nothing. -/
theorem wp_putRecord_present {id : Int} {rcd : List UInt8} (h : Table lo t R) (hid : InRange lo id)
    (hex : ∃ d ∈ R, d.id = id) :
    wp Beyond (putRecord id rcd) (fun r t' ↦ r = 0 ∧ Table lo t' R) t := by
  obtain ⟨d, hd, hdk⟩ := hex
  have hmem : d.id ∈ t.live.map Slot.key := by
    rw [← h.map_id]
    exact List.mem_map_of_mem hd
  obtain ⟨e, he, hek⟩ := List.mem_map.mp hmem
  have hcmp : bTree.cmp e.key id = 0 := by
    rw [hek, hdk]
    exact (cmp_comparison lo).self hid
  refine h.valid.wp_put bTree_wide (cmp_comparison lo) hid fun r t' hv' hputs ↦ ?_
  cases hputs with
  | duplicate _ _ _ t' hs => exact ⟨rfl, h.same hv' hs⟩
  | done t' w hj _ _ _ _ => exact absurd hcmp (hj.ne e he)
  | failed t' _ _ _ hne _ _ _ _ => exact absurd hcmp (hne e he)

end Table

end ExampleEngine.Matu
