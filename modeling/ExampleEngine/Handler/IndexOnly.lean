import ExampleEngine.Handler.Consistency
import ExampleEngine.Handler.Nulls
import ExampleEngine.Handler.Records

/-!
# Index-only reads

Library `Handler`. With `key_read` set, `get_cur_row` of `src/ha_example.cc:381–400` restores
the columns of an index from the key of its entry; otherwise it fetches the row that the entry
leads to. A removed entry that is revived keeps the key it had, so the two may differ.
-/

namespace ExampleEngine.Handler

open ExampleEngine.Base ExampleEngine.Storage ExampleEngine.Index

/-- The columns that an entry of index `i` holds. -/
def TableShare.columns (share : TableShare) (i : Nat) : List KeyPartInfo :=
  (share.keyInfo i).parts ++ (share.keyInfo 0).parts

/-- A column is NULL in both records, or has the same value in both. -/
structure SameColumn (value : KeyPartInfo → Record → List UInt8) (p : KeyPartInfo)
    (r r' : Record) : Prop where
  null : p.IsNull r ↔ p.IsNull r'
  value : ¬ p.IsNull r' → value p r = value p r'

/-- What the server promises of `key_restore`: it inverts the key image, and columns that are
those of the record already stay so. -/
structure Server.Restores (server : Server) (share : TableShare)
    (value : KeyPartInfo → Record → List UInt8) : Prop where
  restored : ∀ i < share.keys, ∀ p ∈ (share.keyInfo i).parts, ∀ b r rest,
    SameColumn value p (server.keyRestore b (keyCopy r (share.keyInfo i).keyPart
      (share.keyInfo i).keyLength ++ rest) (share.keyInfo i) (share.keyInfo i).keyLength) r
  kept : ∀ i < share.keys, ∀ j < share.keys, ∀ p ∈ (share.keyInfo j).parts, ∀ b r rest,
    SameColumn value p b r →
    SameColumn value p (server.keyRestore b (keyCopy r (share.keyInfo i).keyPart
      (share.keyInfo i).keyLength ++ rest) (share.keyInfo i) (share.keyInfo i).keyLength) r

/-- Under the cursor on an entry of index `i`, an index-only read into a buffer and a read of
the row succeed and agree on the columns of the index. -/
def ReadsAgree (share : TableShare) (server : Server)
    (value : KeyPartInfo → Record → List UInt8) (s : HaExample) (i buf : Nat) : Prop :=
  wp (fun _ ↦ False) (HaExample.getCurRow share server i buf) (fun code s₁ ↦ code = 0 ∧
    wp (fun _ ↦ False) (HaExample.getCurRow share server i buf) (fun code' s₂ ↦ code' = 0 ∧
      ∀ p ∈ share.columns i, SameColumn value p (s₁.record buf) (s₂.record buf))
      { s with keyRead := false }) { s with keyRead := true }

/-- A write revives no entry that holds other columns than those of the row, and finds the row
in `table->record[0]`. -/
structure Unmixed (share : TableShare) (server : Server)
    (value : KeyPartInfo → Record → List UInt8) (s : HaExample) (buf : Nat) : Prop where
  first : FirstRecord share server s buf
  revived : ∀ i ∈ HaExample.indexes share, ∀ e ∈ s.secondTree.slots,
    share.secondKeyCompare e.key (share.packKey i (s.newRow share server buf).record) = 0 →
    ∀ r, e.key = share.packKey i r →
      ∀ p ∈ share.columns i, SameColumn value p r (s.newRow share server buf).record

/-- Slots hold packed keys, and the columns of live entries are those of their rows. -/
structure Imaged (share : TableShare) (value : KeyPartInfo → Record → List UInt8)
    (rows : List Row) (s : HaExample) : Prop where
  slots : ∀ e ∈ s.secondTree.slots, ∃ i ∈ HaExample.indexes share, ∃ r, e.key = share.packKey i r
  entries : ∀ e ∈ s.entries, ∃ row ∈ rows, ∃ i ∈ HaExample.indexes share, ∃ r,
    e.key = share.packKey i r ∧
    share.secondKeyCompare e.key (share.packKey i row.record) = 0 ∧
    ∀ p ∈ share.columns i, SameColumn value p r row.record

section Slots

variable {share : TableShare} {r : Record} {idxs : List Nat} {b : Bool} {t t' : BTree Key}

/-- The slots after the loop of `write_row`: none but those of before has another key than a
packed one of the record. -/
theorem writeLoop_slots (h : Loop (Adds share r) (Collides share r) idxs t b t') :
    ∀ e' ∈ t'.slots, (∃ e ∈ t.slots, e.key = e'.key) ∨ ∃ i ∈ idxs, e'.key = share.packKey i r := by
  induction h with
  | done t => exact fun e' he' ↦ .inl ⟨e', he', rfl⟩
  | stop i rest t t' h =>
    intro e' he'
    rw [h.2.slots] at he'
    exact .inl ⟨e', he', rfl⟩
  | step i rest t t₁ t' b h _ ih =>
    intro e' he'
    rcases ih e' he' with ⟨e₁, he₁, hkey⟩ | ⟨j, hj, hkey⟩
    · unfold Adds at h
      cases h with
      | done _ w _ _ _ _ hup =>
        rw [hup.slots] at he₁
        rcases mem_upsert he₁ with rfl | ⟨e, he, _, rfl⟩ | he₁
        · exact .inr ⟨i, by simp, hkey.symm⟩
        · exact .inl ⟨e, he, hkey⟩
        · exact .inl ⟨e₁, he₁, hkey⟩
    · exact .inr ⟨j, by simp [hj], hkey⟩

private theorem exists_key {es es' : List (Slot Key)}
    (h : es'.map Slot.entry = es.map Slot.entry) :
    ∀ e' ∈ es', ∃ e ∈ es, e.key = e'.key := by
  intro e' he'
  have hmem : Slot.entry e' ∈ es.map Slot.entry := h ▸ List.mem_map_of_mem he'
  obtain ⟨e, he, heq⟩ := List.mem_map.mp hmem
  exact ⟨e, he, congrArg Prod.fst heq⟩

/-- The slots after the loop of `delete_row` are those of before. -/
theorem deleteLoop_slots (h : Loop (fun i ↦ Removes share.second (share.packKey i r))
    (Lacks share r) idxs t b t') : ∀ e' ∈ t'.slots, ∃ e ∈ t.slots, e.key = e'.key := by
  apply h.rec_on_steps (P := fun t' ↦ ∀ e' ∈ t'.slots, ∃ e ∈ t.slots, e.key = e'.key)
  · intro i _ t₁ t₂ hrem hP e' he'
    obtain ⟨e₁, he₁, hkey⟩ := exists_key hrem.slots e' he'
    obtain ⟨e, he, hkey'⟩ := hP e₁ he₁
    exact ⟨e, he, hkey'.trans hkey⟩
  · intro i _ t₁ t₂ hlacks hP e' he'
    rw [hlacks.2.slots] at he'
    exact hP e' he'
  · exact fun e' he' ↦ ⟨e', he', rfl⟩

/-- The entries after it are among those of before. -/
theorem deleteLoop_live (h : Loop (fun i ↦ Removes share.second (share.packKey i r))
    (Lacks share r) idxs t b t') : ∀ e ∈ t'.live, e ∈ t.live := by
  apply h.rec_on_steps (P := fun t' ↦ ∀ e ∈ t'.live, e ∈ t.live)
  · intro i _ t₁ t₂ hrem hP e he
    obtain ⟨w, hj⟩ := hrem.joins
    exact hP e ((hj.mem_iff e).mp he).1
  · intro i _ t₁ t₂ hlacks hP e he
    rw [hlacks.2.live] at he
    exact hP e he
  · exact fun e he ↦ he

/-- The slots after `delete_row` are those of before, and its entries are among them. -/
theorem DeleteOutcome.keeps {s s' : HaExample} {code : Int}
    (h : DeleteOutcome share s r code s') :
    (∀ e' ∈ s'.secondTree.slots, ∃ e ∈ s.secondTree.slots, e.key = e'.key) ∧
      ∀ e ∈ s'.entries, e ∈ s.entries := by
  cases h with
  | missing _ _ hsec =>
    unfold HaExample.entries HaExample.secondTree
    rw [hsec]
    exact ⟨fun e he ↦ ⟨e, he, rfl⟩, fun e he ↦ he⟩
  | removed _ b _ hloop => exact ⟨deleteLoop_slots hloop, deleteLoop_live hloop⟩

end Slots

section Runs

variable {share : TableShare} {server : Server} {value : KeyPartInfo → Record → List UInt8}
  {rows rows' : List Row} {s s' : HaExample} {i buf : Nat} {p : KeyPartInfo} {r : Record}
  {code : Int}

theorem SameColumn.refl (r : Record) : SameColumn value p r r := ⟨.rfl, fun _ ↦ rfl⟩

/-- Columns that are those of one record are those of each other. -/
theorem SameColumn.of_eq {r₁ r₂ : Record} (h₁ : SameColumn value p r₁ r)
    (h₂ : SameColumn value p r₂ r) : SameColumn value p r₁ r₂ := by
  refine ⟨h₁.null.trans h₂.null.symm, fun hnull ↦ ?_⟩
  have hr := mt h₂.null.mpr hnull
  rw [h₁.value hr, h₂.value hr]

private theorem SameColumn.trans {r₁ r₂ : Record} (h : SameColumn value p r₁ r)
    (h' : SameColumn value p r r₂) : SameColumn value p r₁ r₂ :=
  ⟨h.null.trans h'.null, fun hnull ↦ (h.value (mt h'.null.mp hnull)).trans (h'.value hnull)⟩

/-- Fewer rows, entries and slots. -/
private theorem Imaged.of_sub (h : Imaged share value rows s) (ord : share.Ordered)
    (hc : Consistent share rows s) (ho : Opened share s) (hc' : Consistent share rows' s')
    (hrows : ∀ row ∈ rows', row ∈ rows)
    (hslots : ∀ e' ∈ s'.secondTree.slots, ∃ e ∈ s.secondTree.slots, e.key = e'.key)
    (hentries : ∀ e ∈ s'.entries, e ∈ s.entries) : Imaged share value rows' s' := by
  constructor
  · intro e' he'
    obtain ⟨e, he, hkey⟩ := hslots e' he'
    rw [← hkey]
    exact h.slots e he
  · intro e he
    obtain ⟨row', hrow', j, hj, hek'⟩ := hc'.owner e he
    obtain ⟨row, hrow, i, hi, r, hkey, hek, hsame⟩ := h.entries e (hentries e he)
    obtain ⟨_, hv⟩ := ho.exists_second (by have := mem_indexes.mp hi; omega)
    have hhas := (eq_of_packKeys ord (hv.keys e (hentries e he)) hj hi hek' hek).2
    obtain rfl := hc.eq_of_has ord (hrows row' hrow') hrow hhas
    exact ⟨row', hrow', i, hi, r, hkey, hek, hsame⟩

private theorem Imaged.congr (h : Imaged share value rows s)
    (hs : BTree.Same s.secondTree s'.secondTree) : Imaged share value rows s' := by
  have hentries : s'.entries = s.entries := hs.live
  constructor
  · rw [hs.slots]
    exact h.slots
  · rw [hentries]
    exact h.entries

/-- A row is written. -/
private theorem Imaged.write (h : Imaged share value rows s) (ord : share.Ordered)
    (ho : Opened share s) (hc : Consistent share rows s) (hw : Unmixed share server value s buf)
    (hlen : (s.newRow share server buf).bytes.length ≤ maxValueSize)
    (hout : WriteOutcome share (s.prepared share server buf) (s.newRow share server buf).record
      (s.newRow share server buf).bytes code s') :
    Imaged share value (if code = 0 then s.newRow share server buf :: rows else rows) s' := by
  have hprep : OnlyServer s (s.prepared share server buf) := onlyServer_prepared
  have hcode := (hout.consistent (hc.onlyServer hprep) ord (hprep.opened ho) hlen).2
  cases hout with
  | refused s' res hne hput hsec =>
    rw [if_neg (by split <;> decide)]
    apply h.congr
    unfold HaExample.secondTree
    rw [hsec, hprep.sBtree]
    exact .refl _
  | written s' b hput hloop =>
    obtain rfl : b = true := by
      cases b with
      | true => rfl
      | false => rcases hcode with ⟨h0, _⟩ | ⟨h0, _⟩ <;> cases h0
    rw [hprep.secondTree] at hloop
    rw [if_pos rfl, if_pos rfl]
    have hslots := writeLoop_slots hloop
    constructor
    · intro e' he'
      rcases hslots e' he' with ⟨e, he, hkey⟩ | ⟨i, hi, hkey⟩
      · rw [← hkey]
        exact h.slots e he
      · exact ⟨i, hi, _, hkey⟩
    · intro e' he'
      rcases (writeLoop_mem hloop rfl).2.1 e' he' with he | ⟨i, hi, hek⟩
      · obtain ⟨row, hrow, hrest⟩ := h.entries e' he
        exact ⟨row, by simp [hrow], hrest⟩
      · refine ⟨_, List.mem_cons_self, i, hi, ?_⟩
        obtain ⟨hi1, hik⟩ := mem_indexes.mp hi
        have hnum := indexOf_of_eq hi1 hik hek
        rcases hslots e' (BTree.Valid.mem_slots he') with ⟨e, he, hkey⟩ | ⟨j, hj, hkey⟩
        · obtain ⟨j, hj, r, hr⟩ := h.slots e he
          obtain ⟨hj1, hjk⟩ := mem_indexes.mp hj
          rw [hkey] at hr
          rw [hr, (TableShare.packKey_entryKey r hj1 hjk).2] at hnum
          subst hnum
          exact ⟨r, hr, hek, hw.revived j hi e he (by rwa [hkey]) r (hkey.trans hr)⟩
        · obtain ⟨hj1, hjk⟩ := mem_indexes.mp hj
          rw [hkey, (TableShare.packKey_entryKey _ hj1 hjk).2] at hnum
          subst hnum
          exact ⟨_, hkey, hek, fun p _ ↦ .refl _⟩

/-- The columns of live entries are those of their rows, in every state of a table whose writes
mix nothing. -/
theorem Stored.imaged (ord : share.Ordered)
    (hs : Stored share server (Unmixed share server value) rows s) :
    Imaged share value rows s := by
  apply hs.kept ord
  constructor
  · intro s _ hentries hslots
    constructor
    · rw [hslots]
      simp
    · rw [hentries]
      simp
  · exact fun rows s s' h hlooks ↦ h.congr hlooks.second
  · exact fun rows s s' buf code ho hc h hw hlen hout ↦ h.write ord ho hc hw hlen hout
  · intro rows s s' r code ho hc h hold hout
    have hc' := hout.consistent hc ord ho hold
    have hrows : ∀ row ∈ without share rows r, row ∈ rows :=
      fun row hrow ↦ (List.mem_filter.mp hrow).1
    exact h.of_sub ord hc ho hc' hrows hout.keeps.1 hout.keeps.2
  · intro s s' r buf hw hkeep hdel
    have hprep := (hkeep.prepared share server buf).2
    unfold OnlyTrees at hprep
    constructor
    · unfold FirstRecord
      rw [hprep, hkeep.newRow_eq]
      exact hw.first
    · intro i hi e' he' hek r hkey
      obtain ⟨e, he, heq⟩ := hdel.keeps.1 e' he'
      rw [hkeep.newRow_eq] at hek ⊢
      exact hw.revived i hi e he (by rwa [heq]) r (heq.trans hkey)

/-- The columns of the key that was packed are restored. -/
private theorem restored (hres : server.Restores share value) (hi : i < share.keys) (b : Record)
    {rest : List UInt8} (hp : p ∈ share.columns i) :
    SameColumn value p (server.keyRestore (server.keyRestore b
      (keyCopy r (share.keyInfo i).keyPart (share.keyInfo i).keyLength ++
        (share.primaryKey r ++ rest))
      (share.keyInfo i) (share.keyInfo i).keyLength) (share.primaryKey r ++ rest)
      (share.keyInfo 0) share.primaryKeyLength) r := by
  unfold TableShare.columns at hp
  rcases List.mem_append.mp hp with hp | hp
  · exact hres.kept 0 share.keys_pos i hi p hp _ r rest (hres.restored i hi p hp b r _)
  · exact hres.restored 0 share.keys_pos p hp _ r rest

/-- `get_cur_row` with `key_read` set restores the columns of the entry, then its primary key. -/
private theorem Opened.wp_getCurRow_restored {E : Fault → Prop} {e : Slot Key}
    (h : Opened share s) (hi : 1 ≤ i ∧ i < share.keys) (hst : Stands s.secondTree s.secIt e)
    (hread : s.keyRead = true) :
    wp E (HaExample.getCurRow share server i buf) (fun code s' ↦ code = 0 ∧ s'.record buf =
      server.keyRestore (server.keyRestore (s.record buf) (e.key.drop 1) (share.keyInfo i)
        (share.keyInfo i).keyLength) (e.key.drop (1 + (share.keyInfo i).keyLength))
        (share.keyInfo 0) share.primaryKeyLength) s := by
  obtain ⟨hsome, hv⟩ := h.exists_second (by omega)
  unfold HaExample.getCurRow
  simp only [show i ≠ 0 by omega, if_false, wp_bind, wp_get, wp_onSecond, hsome,
    hv.wp_getKey hst, hread, if_true, wp_modify, wp_pure, true_and]
  exact Function.update_self _ _ _

/-- `get_cur_row` without `key_read` unpacks the row of the entry. -/
private theorem Opened.wp_getCurRow_fetched {E : Fault → Prop} {e : Slot Key} {row : Row}
    (h : Opened share s) (hc : Consistent share rows s) (ord : share.Ordered)
    (hi : 1 ≤ i ∧ i < share.keys) (he : e ∈ s.entries) (hst : Stands s.secondTree s.secIt e)
    (hread : s.keyRead = false) (hrow : row ∈ rows)
    (hek : share.secondKeyCompare e.key (share.packKey i row.record) = 0) :
    wp E (HaExample.getCurRow share server i buf) (fun code s' ↦ code = 0 ∧
      ∃ src, Begins src row.bytes ∧ s'.record = share.unpackRow src buf s.record) s := by
  apply h.wp_getCurRow ord hi.1 hi.2 he hst
  intro code s' _ _ _ hout
  obtain ⟨hcode, hrecord⟩ := hout.returns hc ord h hi he hrow hek
  exact ⟨hcode, hrecord hread⟩

/-- In every state of a table whose writes mix nothing, index-only reads agree with reads of
rows into `table->record[0]` under a cursor on any live entry. -/
theorem index_only_reads_agree (ord : share.Ordered) (hf : share.RecordFormat)
    (hcol : ∀ i < share.keys, ∀ p ∈ (share.keyInfo i).parts, share.Column p (value p) Eq)
    (hres : server.Restores share value)
    (hs : Stored share server (Unmixed share server value) rows s) (it : Iterator)
    (e : Slot Key) (he : e ∈ s.entries) (hst : Stands s.secondTree it e) :
    ReadsAgree share server value { s with secIt := it } (indexOf e.key) 0 := by
  obtain ⟨ho, hc⟩ := hs.sound ord
  have himg := hs.imaged ord
  obtain ⟨row, hrow, i, hi, r, hkey, hek, hsame⟩ := himg.entries e he
  obtain ⟨hi1, hik⟩ := mem_indexes.mp hi
  obtain ⟨hsome, hv⟩ := ho.exists_second (by omega)
  have hidx : indexOf e.key = i := by
    rw [hkey]
    exact (TableShare.packKey_entryKey r hi1 hik).2
  rw [hidx]
  have hkeys : ∀ k, Opened share { s with secIt := it, keyRead := k } := fun _ ↦ { ho with }
  unfold ReadsAgree
  refine wp_mono ((hkeys true).wp_getCurRow_restored ⟨hi1, hik⟩ hst rfl) ?_
  rintro code s₁ ⟨rfl, hrestored⟩
  have hc₂ : Consistent share rows { s with secIt := it, keyRead := false } :=
    hc.congr (.refl _) (.refl _)
  refine ⟨rfl, wp_mono ((hkeys false).wp_getCurRow_fetched hc₂ ord ⟨hi1, hik⟩ he hst rfl hrow hek)
    ?_⟩
  rintro code' s₂ ⟨rfl, src, hsrc, hfetched⟩
  refine ⟨rfl, fun p hp ↦ ?_⟩
  have hmem : ∃ j < share.keys, p ∈ (share.keyInfo j).parts := by
    rcases List.mem_append.mp hp with hp | hp
    · exact ⟨i, hik, hp⟩
    · exact ⟨0, share.keys_pos, hp⟩
  obtain ⟨j, hj, hpj⟩ := hmem
  rw [hs.packed (fun _ _ h ↦ h.first) row hrow] at hsrc
  have hrow₂ : SameColumn value p (s₂.record 0) row.record := by
    obtain ⟨hnull, hvalue⟩ := TableShare.unpackRow_column hf (hcol j hj p hpj) hsrc
    rw [hfetched]
    refine ⟨hnull, fun hnot ↦ ?_⟩
    rwa [if_neg (not_or.mpr ⟨fun h ↦ h rfl, hnot⟩)] at hvalue
  have hrow₁ : SameColumn value p (s₁.record 0) r := by
    rw [hrestored, hkey, TableShare.packKey_pos hi1, List.drop_one, List.tail_cons, Nat.add_comm 1,
      List.drop_succ_cons, List.drop_left' (length_keyCopy _)]
    exact restored hres hik _ hp
  exact (hrow₁.trans (hsame p hp)).of_eq hrow₂

end Runs

section Optional

/-- The value of a column of fixed length: its bytes. -/
def fixedValue (p : KeyPartInfo) (r : Record) : List UInt8 :=
  (List.range p.length).map fun k ↦ r.bytes (p.offset + k)

/-- `key_restore` of one column of fixed length, with a null byte of its own. -/
def restorePart (p : KeyPartInfo) (r : Record) (key : Key) : Record :=
  let bytes := if p.nullBit = 0 then r.bytes
    else Function.update r.bytes p.nullOffset (if key.headD 0 ≠ 0 then p.nullBit else 0)
  if p.nullBit ≠ 0 ∧ key.headD 0 ≠ 0 then { r with bytes := bytes }
  else { r with bytes := fun n ↦
    if p.offset ≤ n ∧ n < p.offset + p.length then key.getD (p.off + (n - p.offset)) 0
      else bytes n }

/-- A server that restores such columns. -/
def recalling : Server := { lenient with
  keyRestore := fun r key info _ ↦ (info.parts.foldl (fun (a : Record × Key) p ↦
    (restorePart p a.1 a.2, a.2.drop p.storeLength)) (r, key)).1 }

theorem optional_part {i : Nat} (hi : i < optional.keys) {p : KeyPartInfo}
    (hp : p ∈ (optional.keyInfo i).parts) : i = 0 ∧ p = digitPart 1 ∨ i = 1 ∧ p = optionalPart := by
  have hi : i < 2 := hi
  obtain rfl | rfl : i = 0 ∨ i = 1 := by omega
  · exact .inl ⟨rfl, by simpa [optional, digits, KeyInfo.parts] using hp⟩
  · exact .inr ⟨rfl, by simpa [optional, KeyInfo.parts] using hp⟩

theorem optional_format : optional.RecordFormat := by
  have hmem : ∀ f ∈ optional.field, f = digitField 1 ∨ f = { digitField 2 with nullBit := 1 } := by
    simp [optional]
  constructor
  · intro f hf hbit
    rcases hmem f hf with rfl | rfl
    · exact absurd rfl hbit
    · decide
  · intro f hf r src n hn
    have hn : n < 1 := hn
    rcases hmem f hf with rfl | rfl
    · exact Function.update_of_ne (by show n ≠ 1; omega) _ _
    · exact Function.update_of_ne (by show n ≠ 2; omega) _ _
  · intro f hf r r' src _
    rcases hmem f hf with rfl | rfl <;> rfl

/-- What the server promises of a column of one byte. -/
private theorem optional_column {p : KeyPartInfo} {f g : Field} (hfield : optional.field = [f, g] ∨
    optional.field = [g, f]) (hlen : p.length = 1) (hp : 1 ≤ p.offset)
    (hoff : f.nullOffset = p.nullOffset) (hbit : f.nullBit = p.nullBit)
    (hpack : ∀ r, f.pack r f.offset = [r.bytes p.offset])
    (hown : ∀ r src, (f.unpack r f.offset src).1.bytes p.offset = src 0)
    (hother : ∀ r src, (g.unpack r g.offset src).1.bytes p.offset = r.bytes p.offset) :
    optional.Column p (fixedValue p) Eq := by
  have hvalue : ∀ r, fixedValue p r = [r.bytes p.offset] := by
    intro r
    unfold fixedValue
    rw [hlen]
    rfl
  have hsplit : ∃ A B, optional.field = A ++ f :: B ∧ ∀ g' ∈ A ++ B, g' = g := by
    rcases hfield with h | h
    · exact ⟨[], [g], h, by simp⟩
    · exact ⟨[g], [], h, by simp⟩
  obtain ⟨A, B, heq, hAB⟩ := hsplit
  refine ⟨⟨A, f, B, heq, hoff, hbit, ?_, ?_⟩, ?_⟩
  · intro r r' src hsrc
    rw [hpack] at hsrc
    rw [hvalue, hvalue, hown, hsrc 0 Nat.one_pos]
    rfl
  · intro g' hg' r' src
    rw [hAB g' hg', hvalue, hvalue, hother]
  · intro r' bytes hbytes
    rw [hvalue, hvalue]
    exact congrArg (fun b ↦ [b]) (hbytes p.offset hp)

theorem optional_columns : ∀ i < optional.keys, ∀ p ∈ (optional.keyInfo i).parts,
    optional.Column p (fixedValue p) Eq := by
  intro i hi p hp
  rcases optional_part hi hp with ⟨rfl, rfl⟩ | ⟨rfl, rfl⟩
  · exact optional_column (.inl rfl) rfl (Nat.le_refl 1) rfl rfl (fun _ ↦ rfl) (fun _ _ ↦ rfl)
      fun _ _ ↦ rfl
  · exact optional_column (.inr rfl) rfl (Nat.le_succ 1) rfl rfl (fun _ ↦ rfl) (fun _ _ ↦ rfl)
      fun _ _ ↦ rfl

private theorem sameColumn_digit {r r' : Record} :
    SameColumn fixedValue (digitPart 1) r r' ↔ r.bytes 1 = r'.bytes 1 := by
  have hnot : ∀ r, ¬ (digitPart 1).IsNull r := fun r h ↦ h.1 rfl
  have hvalue : ∀ r, fixedValue (digitPart 1) r = [r.bytes 1] := fun _ ↦ rfl
  constructor
  · intro h
    simpa [hvalue] using h.value (hnot r')
  · intro h
    exact ⟨by simp [hnot], fun _ ↦ by rw [hvalue, hvalue, h]⟩

private theorem sameColumn_optional {r r' : Record} :
    SameColumn fixedValue optionalPart r r' ↔ (r.bytes 0 &&& 1 = 0 ↔ r'.bytes 0 &&& 1 = 0) ∧
      (r'.bytes 0 &&& 1 = 0 → r.bytes 2 = r'.bytes 2) := by
  have hnull : ∀ r, optionalPart.IsNull r ↔ ¬ r.bytes 0 &&& 1 = 0 := by
    intro r
    exact ⟨fun h ↦ h.2, fun h ↦ ⟨by decide, h⟩⟩
  have hvalue : ∀ r, fixedValue optionalPart r = [r.bytes 2] := fun _ ↦ rfl
  constructor
  · intro h
    have h1 := h.null
    have h2 := h.value
    rw [hnull, hnull, not_iff_not] at h1
    rw [hnull, hvalue, hvalue, not_not] at h2
    exact ⟨h1, fun h0 ↦ by simpa using h2 h0⟩
  · intro ⟨h1, h2⟩
    refine ⟨by rw [hnull, hnull, h1], fun h0 ↦ ?_⟩
    rw [hnull, not_not] at h0
    rw [hvalue, hvalue, h2 h0]

/-- The image of the primary key restores one byte. -/
private theorem recalling_zero (b r : Record) (rest : List UInt8) (n : Nat) :
    (recalling.keyRestore b (keyCopy r (optional.keyInfo 0).keyPart
      (optional.keyInfo 0).keyLength ++ rest) (optional.keyInfo 0)
      (optional.keyInfo 0).keyLength).bytes n = if n = 1 then r.bytes 1 else b.bytes n := by
  change (if 1 ≤ n ∧ n < 1 + 1 then (r.bytes 1 :: rest).getD (0 + (n - 1)) 0 else b.bytes n) = _
  by_cases hn : n = 1
  · subst hn
    rfl
  · rw [if_neg (by omega), if_neg hn]

/-- The image of the other key restores the null byte, and the column when it is not NULL. -/
private theorem recalling_one (b r : Record) (rest : List UInt8) (n : Nat) :
    (recalling.keyRestore b (keyCopy r (optional.keyInfo 1).keyPart
      (optional.keyInfo 1).keyLength ++ rest) (optional.keyInfo 1)
      (optional.keyInfo 1).keyLength).bytes n =
      if r.bytes 0 &&& 1 = 0 then
        if n = 2 then r.bytes 2 else if n = 0 then 0 else b.bytes n
      else if n = 0 then 1 else b.bytes n := by
  change (restorePart optionalPart b
    ((if r.bytes 0 &&& 1 ≠ 0 then 1 else 0) :: r.bytes 2 :: rest)).bytes n = _
  by_cases hnull : r.bytes 0 &&& 1 = 0
  · rw [if_neg (not_not.mpr hnull), if_pos hnull]
    change (if 2 ≤ n ∧ n < 2 + 1 then (0 :: r.bytes 2 :: rest).getD (1 + (n - 2)) 0
      else Function.update b.bytes 0 0 n) = _
    by_cases hn : n = 2
    · subst hn
      rfl
    · rw [if_neg (by omega), if_neg hn, Function.update_apply]
  · rw [if_pos hnull, if_neg hnull]
    change Function.update b.bytes 0 1 n = _
    rw [Function.update_apply]

theorem recalling_restores : recalling.Restores optional fixedValue := by
  constructor
  · intro i hi p hp b r rest
    rcases optional_part hi hp with ⟨rfl, rfl⟩ | ⟨rfl, rfl⟩
    · rw [sameColumn_digit, recalling_zero, if_pos rfl]
    · rw [sameColumn_optional]
      simp only [recalling_one]
      by_cases hnull : r.bytes 0 &&& 1 = 0
      · simp [hnull]
      · simp [hnull]
  · intro i hi j hj p hp b r rest hsame
    have hi : i < 2 := hi
    rcases optional_part hj hp with ⟨rfl, rfl⟩ | ⟨rfl, rfl⟩
    · rw [sameColumn_digit] at hsame ⊢
      obtain rfl | rfl : i = 0 ∨ i = 1 := by omega
      · rw [recalling_zero, if_pos rfl]
      · rw [recalling_one]
        simpa using hsame
    · rw [sameColumn_optional] at hsame ⊢
      obtain rfl | rfl : i = 0 ∨ i = 1 := by omega
      · simp only [recalling_zero]
        simpa using hsame
      · simp only [recalling_one]
        by_cases hnull : r.bytes 0 &&& 1 = 0
        · simp [hnull]
        · simp [hnull]

/-- The table of a column that may be NULL, before it is opened. -/
def newOptional : HaExample := { newTable with
  keyBuffer := [0, 0, 0, 0]
  pBtree := BTree.unopened steady
    (BTree.create optional.primary fun _ ↦ .raw ⟨.free, 0, 0, 0⟩ fun _ ↦ 0)
  sBtree := some
    (BTree.unopened steady (BTree.create optional.second fun _ ↦ .raw ⟨.free, 0, 0, 0⟩ fun _ ↦ 0)) }

/-- The table after it is opened. -/
def openedOptional : HaExample := outcome ((HaExample.openTable optional).run newOptional)

/-- The table after requests. -/
def afterOptional (reqs : List Request) : HaExample :=
  outcome ((Request.performAll optional recalling reqs).run openedOptional)

theorem openedOptional_stored (W : HaExample → Nat → Prop) :
    Stored optional recalling W [] openedOptional :=
  .opened newOptional openedOptional
    ⟨⟨steady, _, steady_reliable, rfl⟩, ⟨steady, _, steady_reliable, rfl⟩, rfl, by decide⟩
    (run_of_answers (by decide +kernel))

theorem openedOptional_fresh : openedOptional.nextNumberField = false ∧
    openedOptional.secondTree.slots = [] := by
  decide +kernel

/-- A row with a NULL. -/
def filledOptional : HaExample := afterOptional (store 1 5 0)

/-- A row with a zero, after one with a NULL was deleted. -/
private def revivedOptional : HaExample :=
  afterOptional (store 1 5 0 ++ .deleteRow 0 :: store 0 5 0)

private theorem filledOptional_run : (Request.performAll optional recalling (store 1 5 0)).run
    openedOptional = .ok ([0, 0], filledOptional) := run_of_answers (by decide +kernel)

private theorem revivedOptional_run : (Request.performAll optional recalling
    (store 1 5 0 ++ .deleteRow 0 :: store 0 5 0)).run openedOptional =
      .ok ([0, 0, 0, 0, 0], revivedOptional) := run_of_answers (by decide +kernel)

-- these tables are not to be evaluated while statements about them are elaborated
attribute [irreducible] openedOptional filledOptional revivedOptional

/-- The row with a NULL. -/
theorem filledOptional_row :
    Stored optional recalling (Unmixed optional recalling fixedValue) [⟨digitRecord 1 5 0,
      optional.packed (digitRecord 1 5 0) (digitRecord 1 5 0)⟩] filledOptional := by
  obtain ⟨hn, hslots⟩ := openedOptional_fresh
  have hw : Unmixed optional recalling fixedValue { openedOptional with
      record := Function.update openedOptional.record 0 (digitRecord 1 5 0) } 0 := by
    refine ⟨⟨fun _ _ ↦ rfl, fun _ _ _ ↦ rfl⟩, fun i _ e he ↦ ?_⟩
    have he : e ∈ openedOptional.secondTree.slots := he
    rw [hslots] at he
    cases he
  obtain ⟨s₁, hs₁, _, _, hdone⟩ := (openedOptional_stored _).store optional_ordered hn
    (by decide) hw filledOptional_run
  cases hdone
  exact hs₁

private theorem filledOptional_stored : ∃ rows,
    Stored optional recalling (Unmixed optional recalling fixedValue) rows filledOptional :=
  ⟨_, filledOptional_row⟩

private theorem revivedOptional_stored :
    ∃ rows, Stored optional recalling (fun _ _ ↦ True) rows revivedOptional := by
  obtain ⟨s₁, hs₁, hn₁, hr₁, hrest⟩ := (openedOptional_stored fun _ _ ↦ True).store
    optional_ordered openedOptional_fresh.1 (by decide) trivial revivedOptional_run
  obtain ⟨s₂, hdelete, hrest⟩ := performAll_cons hrest
  have hold : OldImage optional [⟨digitRecord 1 5 0, optional.packed (digitRecord 1 5 0)
      (digitRecord 1 5 0)⟩] (s₁.record 0) := by
    apply oldImage_of_eq optional_ordered
    intro row hrow _ i _
    rw [List.mem_singleton.mp hrow, hr₁]
  have hs₂ := hs₁.delete _ s₁ s₂ 0 0 hold hdelete
  have hn₂ : wp Beyond (HaExample.deleteRow optional 0)
      (fun _ s' ↦ s'.nextNumberField = false) s₁ := by
    apply wp_deleteRow optional_ordered (hs₁.sound optional_ordered).1
    intro code s' _ honly _
    rw [honly]
    exact hn₁
  have hnext : s₂.nextNumberField = false := by
    have := wp_ok hn₂ hdelete
    exact this
  obtain ⟨s₃, hs₃, _, _, hdone⟩ := hs₂.store optional_ordered hnext (by decide) trivial hrest
  cases hdone
  exact ⟨_, hs₃⟩

/-- A cursor on the only entry. -/
private def onlyEntry : Iterator := ⟨some 1, 0⟩

/-- The slot under it, and whether a read finds a NULL: one of the index only, and one of the
row. -/
private def readNulls (s : HaExample) : Option (Option (Slot Key) × Bool × Bool) :=
  match (HaExample.getCurRow optional recalling 1 0).run
      { s with secIt := onlyEntry, keyRead := true } with
  | .error _ => none
  | .ok (_, s₁) =>
    match (HaExample.getCurRow optional recalling 1 0).run
        { s with secIt := onlyEntry, keyRead := false } with
    | .error _ => none
    | .ok (_, s₂) => some (onlyEntry.slot s.secondTree, decide (optionalPart.IsNull (s₁.record 0)),
        decide (optionalPart.IsNull (s₂.record 0)))

/-- The entry of a row with a NULL. -/
theorem filledOptional_agrees :
    ReadsAgree optional recalling fixedValue { filledOptional with secIt := onlyEntry } 1 0 := by
  obtain ⟨rows, hs⟩ := filledOptional_stored
  have hslot : onlyEntry.slot filledOptional.secondTree = some ⟨[1, 1, 0, 5], 1, []⟩ := by
    decide +kernel
  have hst := stands_of_slot hslot
  have hmem : (⟨[1, 1, 0, 5], 1, []⟩ : Slot Key) ∈ filledOptional.entries := by decide +kernel
  exact index_only_reads_agree optional_ordered optional_format optional_columns
    recalling_restores hs onlyEntry ⟨[1, 1, 0, 5], 1, []⟩ hmem hst

/-- After a row with a NULL is deleted and one with a zero is inserted, the entry of the deleted
row is revived, and index-only reads still find the NULL. -/
theorem revived_entry_disagrees : ¬ ∀ (share : TableShare) (server : Server)
    (value : KeyPartInfo → Record → List UInt8), share.Ordered → share.RecordFormat →
    (∀ i < share.keys, ∀ p ∈ (share.keyInfo i).parts, share.Column p (value p) Eq) →
    server.Restores share value → ∀ rows s, Stored share server (fun _ _ ↦ True) rows s →
    ∀ (it : Iterator) (e : Slot Key), e ∈ s.entries → Stands s.secondTree it e →
      ReadsAgree share server value { s with secIt := it } (indexOf e.key) 0 := by
  intro hall
  obtain ⟨rows, hs⟩ := revivedOptional_stored
  have hrun : readNulls revivedOptional = some (some ⟨[1, 1, 0, 5], 1, []⟩, true, false) := by
    decide +kernel
  have hmem : (⟨[1, 1, 0, 5], 1, []⟩ : Slot Key) ∈ revivedOptional.entries := by decide +kernel
  unfold readNulls at hrun
  split at hrun
  · cases hrun
  next code₁ s₁ hrestored =>
  split at hrun
  · cases hrun
  next code₂ s₂ hfetched =>
  simp only [Option.some.injEq, Prod.mk.injEq, decide_eq_true_eq, decide_eq_false_iff_not] at hrun
  obtain ⟨hslot, hnull₁, hnull₂⟩ := hrun
  have hagree := hall optional recalling fixedValue optional_ordered optional_format
    optional_columns recalling_restores rows revivedOptional hs onlyEntry _ hmem
    (stands_of_slot hslot)
  have hsame := (wp_ok (wp_ok hagree hrestored).2 hfetched).2 optionalPart
    (List.mem_append_left _ (.head []))
  exact hnull₂ (hsame.null.mp hnull₁)

end Optional

end ExampleEngine.Handler
