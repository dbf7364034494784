import ExampleEngine.Matu.Tables

/-!
# What the statements select

Library `Matu`. The rows that the loops of `src/lib/matu.h:405–677` come to, against the rows that
the flags of `src/lib/matu.h:88–99` describe. The flags for two half-lines, an interval and two
half-lines together are served; `RES_EQ_FIRST` takes the next row where the id itself is absent,
and `query` lists a row twice that lies in both half-lines; the other four flags are refused.
-/

namespace ExampleEngine.Matu

open ExampleEngine.Base ExampleEngine.Storage ExampleEngine.Index ExampleEngine.Index.BTree

namespace Condition

/-- The ids that the comments on the flags give. -/
def describes (con : Condition) (id : Int) : Bool :=
  match con.flag with
  | .RES_BAD => false
  | .RES_EQ_FIRST => id == con.a
  | .RES_HI => decide (id ≤ con.a)
  | .RES_LO => decide (con.a ≤ id)
  | .RES_EQ_BOTH => id == con.a || id == con.b
  | .RES_AND => decide (con.a ≤ id) && decide (id ≤ con.b)
  | .RES_OR => decide (id ≤ con.a) || decide (con.b ≤ id)
  | .RES_EQ_LO => id == con.a || decide (con.b ≤ id)
  | .RES_EQ_HI => id == con.a || decide (id ≤ con.b)
  | .RES_ALL => true

/-- The row is one that the statements come to. -/
def visits (con : Condition) (R : List RowData) (d : RowData) : Bool :=
  match con.flag with
  | .RES_AND => decide (con.a ≤ d.id) && decide (d.id ≤ con.b)
  | .RES_OR => decide (d.id ≤ con.a) || decide (con.b ≤ d.id)
  | .RES_EQ_FIRST => R.find? (fun d' ↦ con.a ≤ d'.id) == some d
  | .RES_HI => decide (d.id ≤ con.a)
  | .RES_LO => decide (con.a ≤ d.id)
  | _ => false

/-- The rows that `query` collects. -/
def collected (con : Condition) (R : List RowData) : List RowData :=
  match con.flag with
  | .RES_OR => R.filter (fun d ↦ decide (d.id ≤ con.a)) ++
      R.filter (fun d ↦ decide (con.b ≤ d.id))
  | _ => R.filter (con.visits R)

/-- The id that the statements locate is in range. -/
def Locates (lo : Int) (con : Condition) : Prop :=
  match con.flag with
  | .RES_AND | .RES_EQ_FIRST | .RES_LO => InRange lo con.a
  | .RES_OR => InRange lo con.b
  | _ => True

end Condition

/-- The rows where each row that `p` picks is replaced or dropped. -/
def replaced (p : RowData → Bool) (after : RowData → Option RowData) (R : List RowData) :
    List RowData :=
  R.flatMap fun d ↦ if p d then (after d).toList else [d]

section Lists

variable {p q : RowData → Bool} {after : RowData → Option RowData} {d : RowData}
  {R A B : List RowData}

@[simp] private theorem replaced_append :
    replaced p after (A ++ B) = replaced p after A ++ replaced p after B :=
  List.flatMap_append

private theorem replaced_cons :
    replaced p after (d :: R) = (if p d then (after d).toList else [d]) ++ replaced p after R :=
  List.flatMap_cons

private theorem replaced_congr (h : ∀ d ∈ R, p d = q d) :
    replaced p after R = replaced q after R := by
  unfold replaced
  refine List.flatMap_congr fun d hd ↦ ?_
  rw [h d hd]

private theorem replaced_of_none (h : ∀ d ∈ R, p d = false) : replaced p after R = R := by
  induction R with
  | nil => rfl
  | cons d R ih =>
    obtain ⟨hd, hR⟩ := List.forall_mem_cons.mp h
    rw [replaced_cons, hd, ih hR]
    rfl

private theorem filter_of_none (h : ∀ d ∈ R, p d = false) : R.filter p = [] := by
  rw [List.filter_eq_nil_iff]
  intro d hd
  rw [h d hd]
  simp

/-- Replacing rows by themselves. -/
theorem replaced_some (h : ∀ d, after d = some d) : replaced p after R = R := by
  induction R with
  | nil => rfl
  | cons d R ih =>
    rw [replaced_cons, ih, h d]
    simp

/-- Dropping rows. -/
theorem replaced_drop (h : ∀ d, after d = none) :
    replaced p after R = R.filter fun d ↦ !p d := by
  induction R with
  | nil => rfl
  | cons d R ih =>
    rw [replaced_cons, ih, h d, List.filter_cons]
    cases p d <;> rfl

/-- Replacing rows one for one. -/
theorem replaced_map {f : RowData → RowData} (h : ∀ d, after d = some (f d)) :
    replaced p after R = R.map fun d ↦ if p d then f d else d := by
  induction R with
  | nil => rfl
  | cons d R ih =>
    rw [replaced_cons, ih, h d, List.map_cons]
    cases p d <;> rfl

/-- What holds of the rows and of what replaces them. -/
private theorem forall_replaced {P : RowData → Prop} (hR : ∀ d ∈ R, P d)
    (hafter : ∀ d d', P d → after d = some d' → P d') : ∀ d ∈ replaced p after R, P d := by
  intro d' hd'
  obtain ⟨d, hd, hd'⟩ := List.mem_flatMap.mp hd'
  split at hd'
  · exact hafter d d' (hR d hd) (Option.mem_toList.mp hd')
  · exact List.mem_singleton.mp hd' ▸ hR d hd

/-- Replacing twice, where the second time sees what the first one left. -/
private theorem replaced_replaced
    (hafter : ∀ d ∈ R, ∀ d', after d = some d' → q d' = q d ∧ after d' = some d') :
    replaced q after (replaced p after R) = replaced (fun d ↦ p d || q d) after R := by
  induction R with
  | nil => rfl
  | cons d R ih =>
    obtain ⟨hhead, htail⟩ := List.forall_mem_cons.mp hafter
    rw [replaced_cons, replaced_append, ih htail, replaced_cons]
    congr 1
    cases hp : p d with
    | false =>
      simp only [Bool.false_eq_true, if_false, Bool.false_or]
      rw [replaced_cons]
      exact List.append_nil _
    | true =>
      simp only [if_true, Bool.true_or]
      cases hd : after d with
      | none => rfl
      | some d' =>
        obtain ⟨hq, hd'⟩ := hhead d' hd
        change replaced q after [d'] = [d']
        rw [replaced_cons, hd']
        split <;> rfl

private theorem not_gt (a b : Int) : (!decide (a > b)) = decide (a ≤ b) := by
  by_cases h : a ≤ b
  · simp [h]
  · simp [h, Int.not_le.mp h]

end Lists

/-- What the body of a loop does at a row it comes to: it collects `out` and leaves `after` in
place of the row. -/
structure Visits (E : Fault → Prop) (lo : Int)
    (visit : Iterator → RowData → TreeM Int (List RowData)) (out : RowData → List RowData)
    (after : RowData → Option RowData) (P : RowData → Prop) : Prop where
  spec : ∀ t it s A d B, Table lo t (A ++ d :: B) → Stands t it s → Shows lo t.page s d → P d →
    wp E (visit it d) (fun o t' ↦ o = out d ∧ Table lo t' (A ++ ((after d).toList ++ B)) ∧
      ∃ s', s'.key = d.id ∧ Stands t' it s') t
  keeps : ∀ d d', P d → after d = some d' → d'.id = d.id ∧ after d' = some d' ∧ P d'

section Loops

variable {E : Fault → Prop} {lo : Int} {visit : Iterator → RowData → TreeM Int (List RowData)}
  {out : RowData → List RowData} {after : RowData → Option RowData} {P : RowData → Prop}
  {t : BTree Int} {R A B : List RowData} {beyond : RowData → Bool}

/-- The first row after the rows up to an id. -/
private theorem find_after {k : Int} (hA : ∀ d ∈ A, d.id ≤ k) (hB : ∀ d ∈ B, k < d.id) :
    (A ++ B).find? (fun d ↦ k < d.id) = B.head? := by
  have hnone : A.find? (fun d ↦ k < d.id) = none := by
    rw [List.find?_eq_none]
    intro d hd
    simpa using hA d hd
  rw [List.find?_append, hnone, Option.none_or]
  cases B with
  | nil => rfl
  | cons d B => exact List.find?_cons_of_pos (by simpa using hB d (by simp))

/-- The loop visits the rows up to its limit. -/
theorem wp_rowLoop {fuel : Nat} {r : Int × Iterator} (hv : Visits E lo visit out after P)
    (ht : Table lo t (A ++ B)) (hr : Meets lo t r B.head?) (hP : ∀ d ∈ B, P d)
    (hfuel : B.length < fuel) (hup : B.Pairwise fun d d' ↦ beyond d = true → beyond d' = true) :
    wp E (rowLoop visit beyond fuel r) (fun o t' ↦
      o = (B.filter fun d ↦ !beyond d).flatMap out ∧
      Table lo t' (A ++ replaced (fun d ↦ !beyond d) after B)) t := by
  induction B generalizing t A r fuel with
  | nil =>
    obtain ⟨fuel, rfl⟩ : ∃ f, fuel = f + 1 := ⟨fuel - 1, by omega⟩
    have hr0 : r.1 = 0 := hr
    unfold rowLoop
    rw [if_pos hr0, wp_pure]
    exact ⟨rfl, ht⟩
  | cons d B ih =>
    obtain ⟨fuel, rfl⟩ : ∃ f, fuel = f + 1 := ⟨fuel - 1, by omega⟩
    obtain ⟨hr1, s, hs, hshows⟩ : r.1 = 1 ∧ ∃ s, Stands t r.2 s ∧ Shows lo t.page s d := hr
    obtain ⟨hPd, hPB⟩ := List.forall_mem_cons.mp hP
    obtain ⟨hd, hupB⟩ := List.pairwise_cons.mp hup
    unfold rowLoop
    rw [if_neg (by omega), wp_bind]
    refine wp_mono (ht.wp_rowAt hs hshows) fun d₁ t₁ h₁ ↦ ?_
    obtain ⟨rfl, ht₁, hsame₁⟩ := h₁
    cases hb : beyond d₁ with
    | true =>
      have hall : ∀ d ∈ d₁ :: B, (!beyond d) = false := by
        intro d hmem
        rcases List.mem_cons.mp hmem with rfl | hmem
        · rw [hb]
          rfl
        · rw [hd d hmem hb]
          rfl
      simp only [if_true, wp_pure]
      rw [replaced_of_none hall, filter_of_none hall]
      exact ⟨rfl, ht₁⟩
    | false =>
      simp only [Bool.false_eq_true, if_false, wp_bind]
      have hshows₁ : Shows lo t₁.page s d₁ := hshows.congr (by rw [hsame₁.page])
      refine wp_mono (hv.spec t₁ r.2 s A d₁ B ht₁ (hsame₁.stands hs) hshows₁ hPd) fun o t₂ h₂ ↦ ?_
      obtain ⟨rfl, ht₂, s', hkey, hs'⟩ := h₂
      refine wp_mono (ht₂.wp_next hs') fun r' t₃ h₃ ↦ ?_
      obtain ⟨ht₃, -, hmeets⟩ := h₃
      obtain ⟨_, hsd, hAd⟩ := List.pairwise_append.mp ht.sorted
      rw [hkey, ← List.append_assoc, find_after ?_ (List.pairwise_cons.mp hsd).1] at hmeets
      · rw [← List.append_assoc] at ht₃
        refine wp_mono (ih ht₃ hmeets hPB (by simpa using hfuel) hupB) fun o t₄ h₄ ↦ ?_
        obtain ⟨rfl, ht₄⟩ := h₄
        rw [wp_pure, List.filter_cons_of_pos (by simp [hb]), List.flatMap_cons, replaced_cons, hb]
        rw [List.append_assoc] at ht₄
        exact ⟨rfl, ht₄⟩
      · intro d' hd'
        rcases List.mem_append.mp hd' with hd' | hd'
        · exact Int.le_of_lt (hAd d' hd' d₁ (by simp))
        · rw [(hv.keeps d₁ d' hPd (Option.mem_toList.mp hd')).1]

/-- The rows from an id on, after those before it. -/
private theorem exists_from (k : Int) (hsorted : R.Pairwise fun d d' ↦ d.id < d'.id) :
    ∃ A B, R = A ++ B ∧ (∀ d ∈ A, d.id < k) ∧ (∀ d ∈ B, k ≤ d.id) ∧
      R.find? (fun d ↦ k ≤ d.id) = B.head? := by
  induction R with
  | nil => exact ⟨[], [], rfl, by simp, by simp, rfl⟩
  | cons d R ih =>
    obtain ⟨hd, hR⟩ := List.pairwise_cons.mp hsorted
    by_cases hk : k ≤ d.id
    · refine ⟨[], d :: R, rfl, by simp, ?_, List.find?_cons_of_pos (by simpa using hk)⟩
      exact List.forall_mem_cons.mpr ⟨hk, fun d' hd' ↦
        Int.le_of_lt (Int.lt_of_le_of_lt hk (hd d' hd'))⟩
    · obtain ⟨A, B, rfl, hA, hB, hfind⟩ := ih hR
      refine ⟨d :: A, B, rfl, List.forall_mem_cons.mpr ⟨Int.not_le.mp hk, hA⟩, hB, ?_⟩
      rw [List.find?_cons_of_neg (by simpa using hk)]
      exact hfind

/-- The loop from the first row on. -/
theorem wp_loopTo (hv : Visits E lo visit out after P) (ht : Table lo t R) (hP : ∀ d ∈ R, P d)
    (a : Int) (it : Iterator) :
    wp E (loopTo visit a it) (fun o t' ↦
      o = (R.filter fun d ↦ decide (d.id ≤ a)).flatMap out ∧
      Table lo t' (replaced (fun d ↦ decide (d.id ≤ a)) after R)) t := by
  unfold loopTo
  rw [wp_bind]
  refine wp_mono ht.valid.wp_fuel fun fuel t₁ h₁ ↦ ?_
  obtain ⟨rfl, hfuel⟩ := h₁
  rw [wp_bind]
  refine wp_mono ht.wp_first fun r t₂ h₂ ↦ ?_
  obtain ⟨ht₂, -, hmeets⟩ := h₂
  have hlen : R.length < fuel := by
    rw [ht.rows.length_eq] at hfuel
    exact hfuel
  have hup : R.Pairwise fun d d' ↦ decide (d.id > a) = true → decide (d'.id > a) = true := by
    refine ht.sorted.imp fun hlt hd ↦ ?_
    simp only [decide_eq_true_eq] at hd ⊢
    omega
  have := wp_rowLoop (A := []) hv ht₂ hmeets hP hlen hup
  simpa only [not_gt, List.nil_append] using this

/-- The loop from an id on. -/
theorem wp_loopFrom {a : Int} (beyond : RowData → Bool) (hv : Visits E lo visit out after P)
    (ht : Table lo t R) (hP : ∀ d ∈ R, P d) (ha : InRange lo a)
    (hup : ∀ d d' : RowData, d.id < d'.id → beyond d = true → beyond d' = true) :
    wp E (loopFrom visit beyond a) (fun o t' ↦
      o = (R.filter fun d ↦ decide (a ≤ d.id) && !beyond d).flatMap out ∧
      Table lo t' (replaced (fun d ↦ decide (a ≤ d.id) && !beyond d) after R)) t := by
  unfold loopFrom
  rw [wp_bind]
  refine wp_mono ht.valid.wp_fuel fun fuel t₁ h₁ ↦ ?_
  obtain ⟨rfl, hfuel⟩ := h₁
  rw [wp_bind]
  refine wp_mono (ht.wp_locate ha) fun r t₂ h₂ ↦ ?_
  obtain ⟨ht₂, -, hmeets⟩ := h₂
  have hsorted := ht.sorted
  rw [ht.rows.length_eq] at hfuel
  obtain ⟨A, B, rfl, hA, hB, hfind⟩ := exists_from a hsorted
  rw [hfind] at hmeets
  have hlen : B.length < fuel := by
    rw [List.length_append] at hfuel
    omega
  have hupB : B.Pairwise fun d d' ↦ beyond d = true → beyond d' = true :=
    (List.pairwise_append.mp hsorted).2.1.imp fun hlt ↦ hup _ _ hlt
  have hnone : ∀ d ∈ A, (decide (a ≤ d.id) && !beyond d) = false := by
    intro d hd
    simp [hA d hd]
  have hsome : ∀ d ∈ B, (decide (a ≤ d.id) && !beyond d) = !beyond d := by
    intro d hd
    simp [hB d hd]
  refine wp_mono (wp_rowLoop hv ht₂ hmeets (fun d hd ↦ hP d (by simp [hd])) hlen hupB)
    fun o t₃ h₃ ↦ ?_
  obtain ⟨rfl, ht₃⟩ := h₃
  rw [List.filter_append, filter_of_none hnone, List.nil_append, List.filter_congr hsome,
    replaced_append, replaced_of_none hnone,
    replaced_congr hsome]
  exact ⟨rfl, ht₃⟩

/-- The loop from an id on to the last row. -/
theorem wp_loopFrom_all {a : Int} (hv : Visits E lo visit out after P) (ht : Table lo t R)
    (hP : ∀ d ∈ R, P d) (ha : InRange lo a) :
    wp E (loopFrom visit (fun _ ↦ false) a) (fun o t' ↦
      o = (R.filter fun d ↦ decide (a ≤ d.id)).flatMap out ∧
      Table lo t' (replaced (fun d ↦ decide (a ≤ d.id)) after R)) t := by
  have := wp_loopFrom (fun _ ↦ false) hv ht hP ha fun _ _ _ h ↦ h
  simpa only [Bool.not_false, Bool.and_true] using this

/-- A single row, the first from an id on. -/
private theorem wp_one {a : Int} (hv : Visits E lo visit out after P) (ht : Table lo t R)
    (hP : ∀ d ∈ R, P d) (ha : InRange lo a) :
    wp E
      (do
        let r ← Iterator.locate bTree a .KEY_OR_NEXT
        if r.1 = 0 then return []
        else do
          let d ← rowAt r.2
          visit r.2 d)
      (fun o t' ↦
        o = (R.filter fun d ↦ R.find? (fun d' ↦ a ≤ d'.id) == some d).flatMap out ∧
        Table lo t' (replaced (fun d ↦ R.find? (fun d' ↦ a ≤ d'.id) == some d) after R)) t := by
  rw [wp_bind]
  refine wp_mono (ht.wp_locate ha) fun r t₂ h₂ ↦ ?_
  obtain ⟨ht₂, -, hmeets⟩ := h₂
  have hsorted := ht.sorted
  obtain ⟨A, B, rfl, hA, hB, hfind⟩ := exists_from a hsorted
  rw [hfind] at hmeets ⊢
  cases B with
  | nil =>
    have hr0 : r.1 = 0 := hmeets
    have hnone : ∀ d ∈ A ++ [], (([] : List RowData).head? == some d) = false := fun _ _ ↦ rfl
    rw [if_pos hr0, wp_pure, filter_of_none hnone,
      replaced_of_none hnone]
    exact ⟨rfl, ht₂⟩
  | cons d B =>
    obtain ⟨hr1, s, hs, hshows⟩ :
      r.1 = 1 ∧ ∃ s, Stands t₂ r.2 s ∧ Shows lo t₂.page s d := hmeets
    rw [if_neg (by omega), wp_bind]
    refine wp_mono (ht₂.wp_rowAt hs hshows) fun d₁ t₃ h₃ ↦ ?_
    obtain ⟨rfl, ht₃, hsame₃⟩ := h₃
    have hshows₃ : Shows lo t₃.page s d₁ := hshows.congr (by rw [hsame₃.page])
    refine wp_mono (hv.spec t₃ r.2 s A d₁ B ht₃ (hsame₃.stands hs) hshows₃ (hP d₁ (by simp)))
      fun o t₄ h₄ ↦ ?_
    obtain ⟨rfl, ht₄, -⟩ := h₄
    obtain ⟨_, hsd, hAd⟩ := List.pairwise_append.mp hsorted
    have hA' : ∀ d ∈ A, ((d₁ :: B).head? == some d) = false := by
      intro d hd
      have := hAd d hd d₁ (by simp)
      simp only [List.head?_cons, Option.some_beq_some, beq_eq_false_iff_ne]
      rintro rfl
      omega
    have hB' : ∀ d ∈ B, ((d₁ :: B).head? == some d) = false := by
      intro d hd
      have := (List.pairwise_cons.mp hsd).1 d hd
      simp only [List.head?_cons, Option.some_beq_some, beq_eq_false_iff_ne]
      rintro rfl
      omega
    rw [List.filter_append, filter_of_none hA', List.filter_cons_of_pos (by simp),
      filter_of_none hB',
      replaced_append, replaced_cons, replaced_of_none hA', replaced_of_none hB']
    simp only [List.head?_cons, beq_self_eq_true, if_true, List.nil_append, List.flatMap_cons,
      List.flatMap_nil, List.append_nil, true_and]
    exact ht₄

/-- The switch visits the rows of its flag, and collects from them where it changes none. -/
theorem wp_statement {con : Condition} (hv : Visits E lo visit out after P) (ht : Table lo t R)
    (hP : ∀ d ∈ R, P d) (hcon : con.Locates lo) :
    wp E (statement visit con) (fun o t' ↦
      ((∀ d, after d = some d) → o = (con.collected R).flatMap out) ∧
      Table lo t' (replaced (con.visits R) after R)) t := by
  unfold statement
  unfold Condition.Locates at hcon
  unfold Condition.collected Condition.visits
  cases hflag : con.flag with
  | RES_AND =>
    rw [hflag] at hcon
    have hup : ∀ d d' : RowData, d.id < d'.id → decide (d.id > con.b) = true →
        decide (d'.id > con.b) = true := by
      intro d d' hlt hd
      simp only [decide_eq_true_eq] at hd ⊢
      omega
    have := wp_loopFrom (fun d ↦ decide (d.id > con.b)) hv ht hP hcon hup
    simp only [not_gt] at this
    exact wp_mono this fun o t' h ↦ ⟨fun _ ↦ h.1, h.2⟩
  | RES_OR =>
    rw [hflag] at hcon
    simp only [wp_bind, wp_pure]
    refine wp_mono (wp_loopTo hv ht hP con.a {}) fun low t₁ h₁ ↦ ?_
    obtain ⟨rfl, ht₁⟩ := h₁
    have hP₁ := forall_replaced (p := fun d ↦ decide (d.id ≤ con.a)) hP fun d d' hd hafter ↦
      (hv.keeps d d' hd hafter).2.2
    refine wp_mono (wp_loopFrom_all hv ht₁ hP₁ hcon) fun high t₂ h₂ ↦ ?_
    obtain ⟨rfl, ht₂⟩ := h₂
    refine ⟨fun hsome ↦ ?_, ?_⟩
    · rw [replaced_some hsome, List.flatMap_append]
    · rw [replaced_replaced] at ht₂
      · exact ht₂
      · intro d hd d' hafter
        obtain ⟨hid, hafter', -⟩ := hv.keeps d d' (hP d hd) hafter
        exact ⟨by rw [hid], hafter'⟩
  | RES_EQ_FIRST =>
    rw [hflag] at hcon
    exact wp_mono (wp_one hv ht hP hcon) fun o t' h ↦ ⟨fun _ ↦ h.1, h.2⟩
  | RES_HI => exact wp_mono (wp_loopTo hv ht hP con.a {}) fun o t' h ↦ ⟨fun _ ↦ h.1, h.2⟩
  | RES_LO =>
    rw [hflag] at hcon
    exact wp_mono (wp_loopFrom_all hv ht hP hcon) fun o t' h ↦ ⟨fun _ ↦ h.1, h.2⟩
  | _ =>
    refine ⟨fun _ ↦ ?_, ?_⟩
    · rw [filter_of_none fun _ _ ↦ rfl]
      rfl
    · rw [replaced_of_none fun _ _ ↦ rfl]
      exact ht

end Loops

end ExampleEngine.Matu
