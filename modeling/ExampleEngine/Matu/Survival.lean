import ExampleEngine.Matu.Selection

/-!
# Rows survive storage

Library `Matu`. A row that `insert` of `src/lib/matu.h:391–396` stores is read back whole by
`locate`, `getValue` and `decode` after any further calls that leave its id alone, as long as the
differences that `cmp` of `src/lib/test.cpp:20–22` computes order the ids.
-/

namespace ExampleEngine.Matu

open ExampleEngine.Base ExampleEngine.Storage ExampleEngine.Index ExampleEngine.Index.BTree

/-- The values of an `int`. -/
def IsInt (id : Int) : Prop := -2 ^ 31 ≤ id ∧ id < 2 ^ 31

/-- Rows whose strings hold no NUL byte. -/
structure RowData.Plain (d : RowData) : Prop where
  name : 0 ∉ d.name
  number : 0 ∉ d.number
  email : 0 ∉ d.email

/-- `decode(it.getValue())` at the id that `locate` finds, if it finds it. -/
def readRow (id : Int) : TreeM Int (Option RowData) := do
  let r ← Iterator.locate bTree id .EXACT_KEY
  if r.1 = 0 then return none
  else do
    let d ← rowAt r.2
    return some d

/-- Calls that neither put a key nor remove its entry. -/
def Spares (id : Int) (t : BTree Int) : Call Int → Prop
  | .put key _ => key ≠ id
  | .remove it => ∀ s, Stands t it s → s.key ≠ id
  | _ => True

/-- Runs of calls with ids of a kind that leave one id alone: an `insert` puts, a deletion removes
the entry under an iterator, an update removes it and puts it again. -/
inductive Continues (S : Int → Prop) (id : Int) : BTree Int → BTree Int → Prop
  | refl (t : BTree Int) : Continues S id t t
  | step (t t₁ t₂ : BTree Int) (call : Call Int) (h : Continues S id t t₁)
      (ha : call.Admissible t₁) (hk : call.Keyed S) (hs : Spares id t₁ call)
      (hrun : (call.perform bTree).run t₁ = .ok ((), t₂)) : Continues S id t t₂

/-- The record of a row is stored under its id. -/
structure Stored (d : RowData) (t : BTree Int) : Prop where
  entry : ∃ s ∈ t.live, s.key = d.id ∧ ∃ p, valueOf bTree t.page s.value = some p ∧
    StandsAt p 0 (encode d)

/-- The record of a row starts with its length, `insert` stores all of it, and after any run that
leaves its id alone the row is read back. -/
structure Survives (S : Int → Prop) (t : BTree Int) (d : RowData) : Prop where
  length : leNat ((encode d).take 2) = (encode d).length
  insert : wp Beyond (Matu.insert d) (fun err t₁ ↦ err = false ∧ Stored d t₁ ∧
    ∀ t₂, Continues S d.id t₁ t₂ →
      wp (fun _ ↦ False) (readRow d.id) (fun r _ ↦ r = some d) t₂) t

/-- A string without a zero is kept whole. -/
private theorem untilZero_eq {s : List UInt8} (h : 0 ∉ s) : untilZero s = s := by
  unfold untilZero
  apply List.takeWhile_eq_self_iff.mpr
  intro b hb
  apply decide_eq_true
  rintro rfl
  exact h hb

/-- A record keeps a row without zeros whole. -/
theorem RowData.Plain.kept {d : RowData} (h : d.Plain) : d.kept = d := by
  unfold RowData.kept
  rw [untilZero_eq h.name, untilZero_eq h.number, untilZero_eq h.email]

/-- The wrapped difference of two ints is zero only when they are equal. -/
theorem cmp_eq_zero {a b : Int} (ha : IsInt a) (hb : IsInt b) : cmp a b = 0 ↔ a = b := by
  unfold IsInt at ha hb
  unfold cmp toInt32
  split <;> omega

section Calls

variable {S : Int → Prop} {t t' : BTree Int} {d : RowData}

/-- A row stays stored where its entry and its record are. -/
private theorem Stored.of_mem (h : Stored d t) (hlive : ∀ s ∈ t.live, s.key = d.id → s ∈ t'.live)
    (hval : ∀ s ∈ t.live, valueOf bTree t'.page s.value = valueOf bTree t.page s.value) :
    Stored d t' := by
  obtain ⟨s, hs, hkey, p, hp, hrec⟩ := h.entry
  exact ⟨s, hlive s hs hkey, hkey, p, (hval s hs).trans hp, hrec⟩

/-- A call that leaves the id alone leaves the row stored. -/
theorem Stored.wp_perform {call : Call Int} (h : Stored d t) (hv : Valid bTree S t)
    (hcmp : Base.Comparison bTree.cmp S) (hint : ∀ id, S id → IsInt id)
    (ha : call.Admissible t) (hk : call.Keyed S) (hs : Spares d.id t call) :
    wp Beyond (call.perform bTree) (fun _ t' ↦ Valid bTree S t' ∧ Stored d t') t := by
  have hkeys := hv.keys
  by_cases hro : call.ReadOnly
  · -- nothing is written
    have hsound : Sound bTree S (fun _ _ ↦ True) t := ⟨hv.holds, fun _ _ _ _ ↦ trivial⟩
    refine wp_mono (hsound.wp_readOnly (fun _ ↦ trivial) hcmp (fun key flag heq ↦ ?_) ha hro)
      fun _ t' hread ↦ ?_
    · subst heq
      exact hk
    · obtain ⟨hs', hpage, hroot⟩ := hread
      refine ⟨⟨hs'.holds⟩, h.of_mem (fun s hs _ ↦ ?_) fun s _ ↦ by rw [hpage]⟩
      rw [live_congr hpage hroot]
      exact hs
  · cases call with
    | put key value =>
      simp only [Call.perform, wp_bind, wp_pure]
      refine hv.wp_put bTree_wide hcmp hk fun r t' hv' hputs ↦ ⟨hv', ?_⟩
      cases hputs with
      | duplicate _ _ _ t' hsame =>
        exact h.of_mem (fun s hs _ ↦ hsame.live ▸ hs) fun s _ ↦ by rw [hsame.page]
      | done t' w hj _ hval _ _ => exact h.of_mem (fun s hs _ ↦ ((hj.mem_iff s).mp hs).1) hval
      | failed t' hlive _ _ _ hval _ _ _ => exact h.of_mem (fun s hs _ ↦ hlive ▸ hs) hval
    | remove it =>
      obtain ⟨s₀, hst⟩ := ha
      have hk₀ : S s₀.key := hv.slots.2 s₀ (hv.mem_slots_of_stands hst)
      refine hv.wp_remove hcmp hst fun t' hv' hlive hval _ _ _ ↦ ⟨hv', ?_⟩
      refine h.of_mem (fun s hs' hkey ↦ ?_) fun s _ ↦ hval _
      rw [hlive]
      refine List.mem_filter.mpr ⟨hs', decide_eq_true fun hzero ↦ hs s₀ hst ?_⟩
      exact ((cmp_eq_zero (hint _ (hkeys s hs')) (hint _ hk₀)).mp hzero).symm.trans hkey
    | _ => exact absurd trivial hro

/-- So does a run. -/
theorem Stored.continues (h : Stored d t) (hv : Valid bTree S t)
    (hcmp : Base.Comparison bTree.cmp S) (hint : ∀ id, S id → IsInt id)
    (hrun : Continues S d.id t t') : Valid bTree S t' ∧ Stored d t' := by
  induction hrun with
  | refl => exact ⟨hv, h⟩
  | step t₁ t₂ call _ ha hk hs hrun ih =>
    obtain ⟨hv₁, h₁⟩ := ih
    have := wp_ok (h₁.wp_perform hv₁ hcmp hint ha hk hs) hrun
    exact this

/-- A row under an id that is not live is stored, unless the file grows past 2 GiB. -/
theorem wp_insert_stored (hv : Valid bTree S t) (hcmp : Base.Comparison bTree.cmp S)
    (hint : ∀ id, S id → IsInt id) (hid : S d.id) (hsize : d.size ≤ maxValueSize)
    (hfresh : ∀ s ∈ t.live, s.key ≠ d.id) :
    wp Beyond (insert d) (fun err t₁ ↦ err = false ∧ Valid bTree S t₁ ∧ Stored d t₁) t := by
  unfold maxValueSize at hsize
  have hfits : d.size < 2 ^ 16 := by omega
  have hlen := RowData.length_encode hfits
  unfold insert putRecord
  rw [RowData.leNat_encode hfits, ← hlen, List.take_length, wp_bind]
  refine hv.wp_put bTree_wide hcmp hid fun r t₁ hv₁ hputs ↦ ?_
  rw [wp_pure]
  cases hputs with
  | duplicate e he heq t₁ _ =>
    exact absurd ((cmp_eq_zero (hint _ (hv.keys e he)) (hint _ hid)).mp heq) (hfresh e he)
  | failed t₁ _ _ hlong _ _ _ _ _ => omega
  | done t₁ w hj hw _ _ _ =>
    obtain ⟨n, hw⟩ := hw
    have htakes : bTree.Takes (encode d) := by
      change (encode d).length ≤ 4065
      omega
    obtain ⟨p, hp, hbytes⟩ := valueOf_written htakes hw
    obtain ⟨s, hsw, hsk, hmem⟩ := hj.exists_mem
    have hs : s ∈ t₁.live := (hmem s).mpr (.inl rfl)
    refine ⟨rfl, hv₁, s, hs, ?_, p, hsw ▸ hp, fun i hi ↦ ?_⟩
    · exact (cmp_eq_zero (hint _ (hv₁.keys s hs)) (hint _ hid)).mp hsk
    · rw [Nat.zero_add]
      exact hbytes i hi

/-- A stored row without zeros is read. -/
theorem Stored.wp_readRow {E : Fault → Prop} (h : Stored d t) (hv : Valid bTree S t)
    (hcmp : Base.Comparison bTree.cmp S) (hint : ∀ id, S id → IsInt id) (hid : S d.id)
    (hd : d.Plain) (hsize : d.size ≤ maxValueSize) :
    wp E (readRow d.id) (fun r _ ↦ r = some d) t := by
  obtain ⟨s, hs, hkey, p, hp, hrec⟩ := h.entry
  obtain ⟨hsorted, hkeys⟩ := hv.slots
  have hself : bTree.cmp s.key d.id = 0 := by
    rw [hkey]
    exact hcmp.self hid
  have hsearch : IterFlag.EXACT_KEY.search bTree.cmp d.id t.live = some s := by
    have hex : ∃ f, IterFlag.EXACT_KEY.search bTree.cmp d.id t.live = some f :=
      IterFlag.exists_search hs hself
    obtain ⟨f, hf⟩ := hex
    obtain ⟨hfmem, hfzero⟩ := IterFlag.of_search hf
    have hfs : bTree.cmp f.key s.key = 0 := by
      rw [hkey]
      exact hfzero
    rw [hf, Sorted.eq_of_equal hv.sorted hcmp hv.keys hfmem hs hfs]
  have hdec : decode p = .ok d := by
    unfold maxValueSize at hsize
    obtain ⟨hlo, hhi⟩ := hint _ hid
    have hkept := RowData.decode_encode (by simp only [BLOCK_SIZE]; omega) hlo hhi hrec
    rwa [hd.kept] at hkept
  unfold readRow
  rw [wp_bind]
  refine wp_mono (hv.wp_locate (hsorted.probe hcmp hkeys hid)) fun r t₁ hr ↦ ?_
  obtain ⟨hv₁, hsame, hfound⟩ := hr
  rw [hsearch] at hfound
  obtain ⟨hr1, hst⟩ := hfound
  rw [if_neg (by omega), wp_bind]
  unfold rowAt
  rw [wp_bind]
  refine wp_mono (hv₁.wp_getValue hst) fun q t₂ hq ↦ ?_
  obtain ⟨_, _, rfl⟩ := hq
  rw [hsame.page, hp]
  simp only [wp_liftM, hdec, wp_pure]

end Calls

/-- In every tree reached by calls with ids that `cmp` orders, a row without zeros whose record has
4065 bytes at most survives storage under an id that is not live. -/
theorem row_survives {S : Int → Prop} {t : BTree Int} {d : RowData}
    (hcmp : Base.Comparison bTree.cmp S) (hint : ∀ id, S id → IsInt id)
    (hr : Session bTree (fun _ call ↦ call.Keyed S) t) (hid : S d.id) (hd : d.Plain)
    (hsize : d.size ≤ maxValueSize) (hfresh : ∀ s ∈ t.live, s.key ≠ d.id) : Survives S t d where
  length := by
    unfold maxValueSize at hsize
    have hfits : d.size < 2 ^ 16 := by omega
    rw [RowData.leNat_encode hfits, RowData.length_encode hfits]
  insert := by
    have hv : Valid bTree S t := ⟨(hr.sound_of bTree_wide hcmp fun _ _ hk ↦ hk).holds⟩
    refine wp_mono (wp_insert_stored hv hcmp hint hid hsize hfresh) fun err t₁ h ↦ ?_
    obtain ⟨herr, hv₁, hstored⟩ := h
    refine ⟨herr, hstored, fun t₂ hrun ↦ ?_⟩
    obtain ⟨hv₂, hstored₂⟩ := hstored.continues hv₁ hcmp hint hrun
    exact hstored₂.wp_readRow hv₂ hcmp hint hid hd hsize

section Samples

private theorem emptyTable_session {G : BTree Int → Call Int → Prop} : Session bTree G emptyTable :=
  .created steady _ _ steady_reliable emptyTable_opened

private theorem emptyTable_live : emptyTable.live = [] := by decide +kernel

/-- A row with strings. -/
def namedRow : RowData := ⟨7, true, [97, 98], [], [99]⟩

/-- The row survives in the table just created, whatever happens to other ids below 2 to the 31. -/
theorem namedRow_survives : Survives (InRange 0) emptyTable namedRow := by
  have hid : InRange 0 namedRow.id := by
    change InRange 0 7
    unfold InRange
    omega
  refine row_survives (cmp_comparison 0) (fun id h ↦ ⟨h.1, h.2.1⟩) emptyTable_session hid
    ⟨by decide, by decide, by decide⟩ (by decide) fun s hs ↦ ?_
  rw [emptyTable_live] at hs
  cases hs

/-- A row under the id 0. -/
private def zeroRow : RowData := ⟨0, true, [], [], []⟩

/-- What is read of it after the least `int` was put too. -/
private def afterLeast : Option (Option RowData) :=
  match (insert zeroRow).run emptyTable with
  | .error _ => none
  | .ok (_, t₁) =>
    match (Call.perform bTree (.put (-2 ^ 31) (encode ⟨-2 ^ 31, true, [], [], []⟩))).run t₁ with
    | .error _ => none
    | .ok (_, t₂) =>
      match (readRow 0).run t₂ with
      | .error _ => none
      | .ok (r, _) => some r

/-- The row under the id 0 is not found once there is one under the least `int`. -/
theorem distant_id_hides : ¬ ∀ t d, Session bTree (fun _ call ↦ call.Keyed IsInt) t →
    IsInt d.id → d.Plain → d.size ≤ maxValueSize → (∀ s ∈ t.live, s.key ≠ d.id) →
    Survives IsInt t d := by
  intro hall
  have hsurvives : Survives IsInt emptyTable zeroRow := by
    refine hall emptyTable zeroRow emptyTable_session ⟨by decide, by decide⟩
      ⟨by decide, by decide, by decide⟩ (by decide) fun s hs ↦ ?_
    rw [emptyTable_live] at hs
    cases hs
  have hrun : afterLeast = some none := by decide +kernel
  unfold afterLeast at hrun
  split at hrun
  · cases hrun
  next err t₁ hinsert =>
  split at hrun
  · cases hrun
  next t₂ hput =>
  split at hrun
  · cases hrun
  next r t₃ hread =>
  have hint : IsInt (-2 ^ 31) := ⟨by decide, by decide⟩
  have hne : (-2 ^ 31 : Int) ≠ zeroRow.id := by decide
  have hcont : Continues IsInt zeroRow.id t₁ t₂ :=
    .step t₁ t₁ t₂ (.put _ _) (.refl t₁) trivial hint hne hput
  have hfound := wp_ok ((wp_ok hsurvives.insert hinsert).2.2 t₂ hcont) hread
  rw [hfound] at hrun
  cases hrun

end Samples

end ExampleEngine.Matu
