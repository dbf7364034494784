import ExampleEngine.Matu.Conditions

/-!
# When the statements select what their condition describes

Library `Matu`. In every tree that `insert`, `query`, `del` and `update` of
`src/lib/matu.h:391–677` lead to, each of the last three acts on exactly the rows its condition
describes, if and only if its flag and the rows around the bounds allow it.
-/

namespace ExampleEngine.Matu

open ExampleEngine.Base ExampleEngine.Storage ExampleEngine.Index ExampleEngine.Index.BTree

/-- What a string assigns to a field; the empty string assigns nothing. -/
def assign (value old : List UInt8) : List UInt8 :=
  if value = [] then old else untilZero value

/-- The row with the assigned fields, and only these, replaced. -/
def Assignment.apply (s : Assignment) (d : RowData) : RowData :=
  { d with
    sex := if s.sex = -1 then d.sex else s.sex != 0
    name := assign s.name d.name
    number := assign s.num d.number
    email := assign s.mail d.email }

/-- What a condition asks of the rows: where it is for one id, the first row from there on has it;
where its flag is refused, no row is described. Rows that may be got wrong are excused. -/
def Condition.Lands (con : Condition) (excused : RowData → Prop) (R : List RowData) : Prop :=
  match con.flag with
  | .RES_EQ_FIRST =>
    ∀ d, R.find? (fun d' ↦ con.a ≤ d'.id) = some d → d.id = con.a ∨ excused d
  | .RES_EQ_BOTH | .RES_EQ_LO | .RES_EQ_HI | .RES_ALL =>
    ∀ d ∈ R, con.describes d.id = true → excused d
  | .RES_BAD | .RES_HI | .RES_LO | .RES_AND | .RES_OR => True

/-- The two half-lines of a union share no row. -/
def Condition.Disjoint (con : Condition) (R : List RowData) : Prop :=
  con.flag = .RES_OR → ∀ d ∈ R, ¬ (con.b ≤ d.id ∧ d.id ≤ con.a)

section Lists

variable {con : Condition} {R : List RowData} {excused : RowData → Prop} {p q : RowData → Bool}

/-- The first row from an id on. -/
private theorem find_first {a : Int} {d : RowData}
    (hsorted : R.Pairwise fun d d' ↦ d.id < d'.id)
    (hd : R.find? (fun d' ↦ a ≤ d'.id) = some d) :
    d ∈ R ∧ a ≤ d.id ∧ ∀ d' ∈ R, a ≤ d'.id → d.id ≤ d'.id ∧ (d'.id = d.id → d' = d) := by
  obtain ⟨hle, A, B, rfl, hA⟩ := List.find?_eq_some_iff_append.mp hd
  obtain ⟨_, hsd, _⟩ := List.pairwise_append.mp hsorted
  refine ⟨by simp, by simpa using hle, fun d' hd' ha ↦ ?_⟩
  rcases List.mem_append.mp hd' with hmem | hmem
  · have := hA d' hmem
    simp only [Bool.not_eq_true', decide_eq_false_iff_not] at this
    exact absurd ha this
  · rcases List.mem_cons.mp hmem with rfl | hmem
    · exact ⟨Int.le_refl _, fun _ ↦ rfl⟩
    · have hlt := (List.pairwise_cons.mp hsd).1 d' hmem
      exact ⟨Int.le_of_lt hlt, fun heq ↦ by omega⟩

/-- The rows that are come to are those described, up to rows that are excused. -/
theorem Condition.visits_iff (hsorted : R.Pairwise fun d d' ↦ d.id < d'.id) :
    (∀ d ∈ R, con.visits R d = con.describes d.id ∨ excused d) ↔ con.Lands excused R := by
  unfold visits Lands
  cases hflag : con.flag with
  | RES_EQ_FIRST =>
    have hdesc : ∀ id, con.describes id = (id == con.a) := by
      intro id
      simp only [describes, hflag]
    simp only [hdesc]
    constructor
    · intro h d hd
      obtain ⟨hmem, _, _⟩ := find_first hsorted hd
      rcases h d hmem with heq | hex
      · rw [hd] at heq
        exact .inl (by simpa using heq.symm)
      · exact .inr hex
    · intro h d hd
      cases hfind : R.find? fun d' ↦ con.a ≤ d'.id with
      | none =>
        have := List.find?_eq_none.mp hfind d hd
        simp only [decide_eq_true_eq] at this
        refine .inl ?_
        have hne : d.id ≠ con.a := by omega
        simp [hne]
      | some f =>
        obtain ⟨_, hle, hfirst⟩ := find_first hsorted hfind
        by_cases hfd : f = d
        · subst hfd
          rcases h f hfind with heq | hex
          · exact .inl (by simp [heq])
          · exact .inr hex
        · refine .inl ?_
          have hne : d.id ≠ con.a := by
            intro heq
            obtain ⟨hle', hsame⟩ := hfirst d hd (by omega)
            exact hfd (hsame (by omega)).symm
          simp [hfd, hne]
  | RES_EQ_BOTH | RES_EQ_LO | RES_EQ_HI | RES_ALL =>
    refine forall₂_congr fun d _ ↦ ?_
    cases con.describes d.id <;> simp
  | RES_BAD | RES_HI | RES_LO | RES_AND | RES_OR =>
    simp only [describes, hflag, true_or, implies_true]

/-- Two filters agree when their predicates do. -/
private theorem filter_eq_iff : R.filter p = R.filter q ↔ ∀ d ∈ R, p d = q d := by
  refine ⟨fun h d hd ↦ ?_, List.filter_congr⟩
  have hmem : d ∈ R.filter p ↔ d ∈ R.filter q := by rw [h]
  simp only [List.mem_filter, hd, true_and] at hmem
  exact Bool.eq_iff_iff.mpr hmem

/-- The lower of two parts comes first. -/
private theorem filter_or (hpq : R.Pairwise fun d d' ↦ q d = true → p d' = false)
    (hdisj : ∀ d ∈ R, p d = true → q d = false) :
    R.filter (fun d ↦ p d || q d) = R.filter p ++ R.filter q := by
  induction R with
  | nil => rfl
  | cons d R ih =>
    obtain ⟨hd, hR⟩ := List.pairwise_cons.mp hpq
    obtain ⟨hdd, hdisj⟩ := List.forall_mem_cons.mp hdisj
    have ih := ih hR hdisj
    cases hp : p d with
    | true =>
      rw [List.filter_cons_of_pos (by simp [hp]), List.filter_cons_of_pos hp,
        List.filter_cons_of_neg (by simp [hdd hp]), ih]
      rfl
    | false =>
      cases hq : q d with
      | true =>
        have hnone : R.filter p = [] := by
          rw [List.filter_eq_nil_iff]
          intro d' hd'
          simp [hd d' hd' hq]
        rw [hnone, List.nil_append] at ih
        rw [List.filter_cons_of_pos (by simp [hq]), List.filter_cons_of_neg (by simp [hp]), hnone,
          List.filter_cons_of_pos hq, ih]
        rfl
      | false =>
        rw [List.filter_cons_of_neg (by simp [hp, hq]), List.filter_cons_of_neg (by simp [hp]),
          List.filter_cons_of_neg (by simp [hq]), ih]

/-- When `query` collects the rows described, in their order. -/
theorem Condition.collected_iff (hsorted : R.Pairwise fun d d' ↦ d.id < d'.id) :
    con.collected R = R.filter (fun d ↦ con.describes d.id) ↔
      con.Lands (fun _ ↦ False) R ∧ con.Disjoint R := by
  by_cases hor : con.flag = .RES_OR
  · have hlands : con.Lands (fun _ ↦ False) R := by
      unfold Lands
      rw [hor]
      trivial
    have hdesc : ∀ d : RowData, con.describes d.id =
        (decide (d.id ≤ con.a) || decide (con.b ≤ d.id)) := by
      intro d
      simp only [describes, hor]
    unfold collected Disjoint
    simp only [hor, hlands, hdesc, true_and, true_implies]
    constructor
    · rintro h d hd ⟨hb, ha⟩
      have hnodup : R.Nodup := hsorted.imp fun hlt heq ↦ by
        rw [heq] at hlt
        omega
      have := hnodup.filter fun d ↦ decide (d.id ≤ con.a) || decide (con.b ≤ d.id)
      rw [← h] at this
      have hdisj := (List.nodup_append.mp this).2.2
      exact hdisj d (by simp [hd, ha]) d (by simp [hd, hb]) rfl
    · intro h
      symm
      apply filter_or
      · refine hsorted.imp_of_mem fun {d d'} hd _ hlt hq ↦ ?_
        have := h d hd
        simp only [decide_eq_true_eq, decide_eq_false_iff_not] at hq ⊢
        omega
      · intro d hd hp
        have := h d hd
        simp only [decide_eq_true_eq, decide_eq_false_iff_not] at hp ⊢
        omega
  · have hcoll : con.collected R = R.filter (con.visits R) := by
      unfold collected
      split
      · exact absurd ‹_› hor
      · rfl
    have hdisj : con.Disjoint R := fun h ↦ absurd h hor
    rw [hcoll, filter_eq_iff, ← visits_iff hsorted]
    simp only [hdisj, or_false, and_true]

/-- When `del` leaves the rows not described. -/
theorem Condition.left_iff (hsorted : R.Pairwise fun d d' ↦ d.id < d'.id) :
    (R.filter fun d ↦ !con.visits R d) = (R.filter fun d ↦ !con.describes d.id) ↔
      con.Lands (fun _ ↦ False) R := by
  rw [filter_eq_iff, ← visits_iff hsorted]
  simp only [Bool.not_inj_iff, or_false]

/-- When `update` rewrites the rows described. -/
theorem Condition.rewritten_iff {f : RowData → RowData}
    (hsorted : R.Pairwise fun d d' ↦ d.id < d'.id) :
    (R.map fun d ↦ if con.visits R d then f d else d) =
        (R.map fun d ↦ if con.describes d.id then f d else d) ↔
      con.Lands (fun d ↦ f d = d) R := by
  rw [List.map_inj_left, ← visits_iff hsorted]
  refine forall₂_congr fun d _ ↦ ?_
  cases con.visits R d <;> cases con.describes d.id <;> simp [eq_comm]

end Lists

namespace Assignment

variable {s : Assignment} {d : RowData}

/-- What the record keeps of the row that is written is the row with the fields replaced. -/
theorem kept_assigned (hd : d.kept = d) : (s.assigned d).kept = s.apply d := by
  have hfield : ∀ value old, untilZero old = old →
      untilZero (if value ≠ [] then value else old) = assign value old := by
    intro value old hold
    unfold assign
    by_cases h : value = []
    · rw [if_neg (not_not.mpr h), if_pos h, hold]
    · rw [if_pos h, if_neg h]
  have hname : untilZero d.name = d.name := congrArg RowData.name hd
  have hnumber : untilZero d.number = d.number := congrArg RowData.number hd
  have hemail : untilZero d.email = d.email := congrArg RowData.email hd
  have hsex : (if s.sex ≠ -1 then s.sex != 0 else d.sex) =
      if s.sex = -1 then d.sex else s.sex != 0 := by
    by_cases h : s.sex = -1
    · rw [if_neg (not_not.mpr h), if_pos h]
    · rw [if_pos h, if_neg h]
  simp only [RowData.kept, assigned, apply, hfield _ _ hname, hfield _ _ hnumber,
    hfield _ _ hemail, hsex]

/-- The assigned fields do not depend on what was in them. -/
theorem assigned_apply : s.assigned (s.apply d) = s.assigned d := by
  unfold assigned apply assign
  congr 1 <;> split <;> simp_all

/-- Assigning again changes nothing. -/
theorem apply_apply : s.apply (s.apply d) = s.apply d := by
  unfold apply assign
  congr 1 <;> split <;> simp_all

end Assignment

namespace Table

variable {lo : Int} {t : BTree Int} {R : List RowData} {con : Condition} {E : Fault → Prop}

/-- The rows of a tree are kept whole. -/
theorem kept (h : Table lo t R) : ∀ d ∈ R, d.kept = d := by
  obtain ⟨_, hrows⟩ := h
  generalize t.live = es at hrows
  induction hrows with
  | nil => exact fun d hd ↦ absurd hd List.not_mem_nil
  | cons hd _ ih =>
    obtain ⟨_, _, hdec⟩ := hd.record
    exact List.forall_mem_cons.mpr ⟨decode_ok hdec, ih⟩

/-- A list is cut in one way only by a bound on the ids. -/
private theorem cut_eq {A B A' B' : List RowData} {k : Int} (h : A ++ B = A' ++ B')
    (hA : ∀ d ∈ A, d.id < k) (hB : ∀ d ∈ B, k < d.id) (hA' : ∀ d ∈ A', d.id < k)
    (hB' : ∀ d ∈ B', k < d.id) : A = A' ∧ B = B' := by
  have hleft : ∀ {A B : List RowData}, (∀ d ∈ A, d.id < k) → (∀ d ∈ B, k < d.id) →
      (A ++ B).filter (fun d ↦ d.id < k) = A := by
    intro A B hA hB
    rw [List.filter_append, List.filter_eq_self.mpr fun d hd ↦ by simpa using hA d hd,
      List.filter_eq_nil_iff.mpr fun d hd ↦ by simpa using Int.le_of_lt (hB d hd),
      List.append_nil]
  have hAA : A = A' := by rw [← hleft hA hB, h, hleft hA' hB']
  exact ⟨hAA, List.append_cancel_left (hAA ▸ h)⟩

/-- Dropping the row with an id from a sorted list. -/
private theorem filter_ne {A B : List RowData} {d : RowData}
    (hA : ∀ d' ∈ A, d'.id < d.id) (hB : ∀ d' ∈ B, d.id < d'.id) :
    (A ++ d :: B).filter (fun d' ↦ d'.id ≠ d.id) = A ++ B := by
  have hA' : ∀ d' ∈ A, d'.id ≠ d.id := fun d' hd' ↦ Int.ne_of_lt (hA d' hd')
  have hB' : ∀ d' ∈ B, d'.id ≠ d.id := fun d' hd' ↦ Int.ne_of_gt (hB d' hd')
  rw [List.filter_append, List.filter_cons_of_neg (by simp),
    List.filter_eq_self.mpr fun d' hd' ↦ by simpa using hA' d' hd',
    List.filter_eq_self.mpr fun d' hd' ↦ by simpa using hB' d' hd']

/-- The rows around one of them. -/
private theorem around {A B : List RowData} {d : RowData} (h : Table lo t (A ++ d :: B)) :
    (∀ d' ∈ A, d'.id < d.id) ∧ ∀ d' ∈ B, d.id < d'.id := by
  obtain ⟨_, hsd, hAd⟩ := List.pairwise_append.mp h.sorted
  exact ⟨fun d' hd' ↦ hAd d' hd' d (by simp), (List.pairwise_cons.mp hsd).1⟩

/-- `query` collects rows and changes none. -/
theorem wp_query (ht : Table lo t R) (hcon : con.Locates lo) :
    wp E (query con) (fun res t' ↦ res = con.collected R ∧ Table lo t' R) t := by
  have hv : Visits E lo (fun _ d ↦ return [d]) (fun d ↦ [d]) some fun _ ↦ True := by
    constructor
    · intro t it s A d B ht hs hshows _
      rw [wp_pure]
      exact ⟨rfl, ht, s, hshows.id.symm, hs⟩
    · rintro d d' _ ⟨⟩
      exact ⟨rfl, rfl, trivial⟩
  refine wp_mono (wp_statement hv ht (fun _ _ ↦ trivial) hcon) fun o t' h ↦ ?_
  obtain ⟨ho, ht'⟩ := h
  rw [replaced_some fun _ ↦ rfl] at ht'
  exact ⟨(ho fun _ ↦ rfl).trans (List.flatMap_singleton' _), ht'⟩

/-- `del` drops the rows it comes to. -/
theorem wp_del (ht : Table lo t R) (hcon : con.Locates lo) :
    wp E (del con) (fun _ t' ↦ Table lo t' (R.filter fun d ↦ !con.visits R d)) t := by
  have hv : Visits E lo (fun it _ ↦ do it.remove; return []) (fun _ ↦ []) (fun _ ↦ none)
      fun _ ↦ True := by
    constructor
    · intro t it s A d B ht hs hshows _
      rw [wp_bind]
      refine wp_mono (ht.wp_remove hs) fun _ t' h ↦ ?_
      obtain ⟨ht', s', hkey, hs'⟩ := h
      obtain ⟨hA, hB⟩ := around ht
      rw [← hshows.id, filter_ne hA hB] at ht'
      rw [wp_pure]
      exact ⟨rfl, ht', s', hkey.trans hshows.id.symm, hs'⟩
    · rintro d d' _ ⟨⟩
  unfold del
  rw [wp_bind]
  refine wp_mono (wp_statement hv ht (fun _ _ ↦ trivial) hcon) fun o t' h ↦ ?_
  rw [wp_pure, ← replaced_drop fun _ ↦ rfl]
  exact h.2

/-- `update` rewrites the rows it comes to, unless the file grows past 2 GiB. -/
theorem wp_update {s : Assignment} (ht : Table lo t R) (hcon : con.Locates lo)
    (hfits : ∀ d ∈ R, (s.assigned d).size < 2 ^ 16) :
    wp Beyond (update s con) (fun _ t' ↦
      Table lo t' (R.map fun d ↦ if con.visits R d then s.apply d else d)) t := by
  have hv : Visits Beyond lo
      (fun it d ↦ do
        it.remove
        let _ ← putRecord d.id (up d s)
        return []) (fun _ ↦ []) (fun d ↦ some (s.apply d))
      fun d ↦ d.kept = d ∧ (s.assigned d).size < 2 ^ 16 := by
    constructor
    · rintro t it e A d B ht hs hshows ⟨hkept, hsize⟩
      rw [wp_bind]
      refine wp_mono (ht.wp_remove hs) fun _ t₁ h₁ ↦ ?_
      obtain ⟨ht₁, e₁, hkey₁, hs₁⟩ := h₁
      obtain ⟨hA, hB⟩ := around ht
      rw [← hshows.id, filter_ne hA hB] at ht₁
      have hne : ∀ d' ∈ A ++ B, d'.id ≠ (s.assigned d).id := by
        intro d' hd'
        change d'.id ≠ d.id
        rcases List.mem_append.mp hd' with hmem | hmem
        · exact Int.ne_of_lt (hA d' hmem)
        · exact Int.ne_of_gt (hB d' hmem)
      rw [wp_bind]
      have hid : InRange lo (s.assigned d).id := hshows.range
      refine wp_mono (ht₁.wp_putRecord hid hsize hne) fun _ t₂ h₂ ↦ ?_
      obtain ⟨⟨A', B', heq, hA', hB', ht₂⟩, hst⟩ := h₂
      obtain ⟨rfl, rfl⟩ := cut_eq heq hA hB hA' hB'
      obtain ⟨e₂, hkey₂, hs₂⟩ := hst it e₁ hs₁ (hkey₁.trans hshows.id.symm)
      rw [Assignment.kept_assigned hkept] at ht₂
      rw [wp_pure]
      exact ⟨rfl, ht₂, e₂, hkey₂.trans (hkey₁.trans hshows.id.symm), hs₂⟩
    · rintro d d' ⟨hkept, hsize⟩ ⟨⟩
      refine ⟨rfl, by rw [Assignment.apply_apply], ?_, ?_⟩
      · rw [← Assignment.kept_assigned hkept, RowData.kept_kept]
      · rw [Assignment.assigned_apply]
        exact hsize
  unfold update
  rw [wp_bind]
  refine wp_mono (wp_statement hv ht (fun d hd ↦ ⟨ht.kept d hd, hfits d hd⟩) hcon) fun o t' h ↦ ?_
  rw [wp_pure, ← replaced_map fun _ ↦ rfl]
  exact h.2

/-- `insert` adds a row under an id that no row has, unless the file grows past 2 GiB. -/
theorem wp_insert {data : RowData} (ht : Table lo t R) (hid : InRange lo data.id)
    (hfits : data.size < 2 ^ 16) :
    wp Beyond (insert data) (fun _ t' ↦
      (∃ d ∈ R, d.id = data.id) ∧ Table lo t' R ∨
      ∃ A B, R = A ++ B ∧ Table lo t' (A ++ data.kept :: B)) t := by
  unfold insert
  rw [wp_bind]
  by_cases hex : ∃ d ∈ R, d.id = data.id
  · refine wp_mono (ht.wp_putRecord_present hid hex) fun r t' h ↦ ?_
    rw [wp_pure]
    exact .inl ⟨hex, h.2⟩
  · have hne : ∀ d ∈ R, d.id ≠ data.id := fun d hd heq ↦ hex ⟨d, hd, heq⟩
    refine wp_mono (ht.wp_putRecord hid hfits hne) fun r t' h ↦ ?_
    obtain ⟨⟨A, B, heq, _, _, ht'⟩, _⟩ := h
    rw [wp_pure]
    exact .inr ⟨A, B, heq, ht'⟩

end Table

/-- The trees that the statements lead to from a file just created, as long as no comparison of
ids overflows and no record outgrows the 16 bits of its size. -/
inductive Reachable (lo : Int) : BTree Int → Prop
  | created (platform : Platform) (file : Nat → Page Int) (t : BTree Int)
      (hp : platform.Reliable)
      (h : openTree.run (unopened platform (create bTree file)) = .ok (1, t)) : Reachable lo t
  | insert (data : RowData) (err : Bool) (t t' : BTree Int) (hr : Reachable lo t)
      (hid : InRange lo data.id) (hfits : data.size < 2 ^ 16)
      (h : (insert data).run t = .ok (err, t')) : Reachable lo t'
  | query (con : Condition) (res : List RowData) (t t' : BTree Int) (hr : Reachable lo t)
      (hcon : con.Locates lo) (h : (query con).run t = .ok (res, t')) : Reachable lo t'
  | del (con : Condition) (t t' : BTree Int) (hr : Reachable lo t) (hcon : con.Locates lo)
      (h : (del con).run t = .ok ((), t')) : Reachable lo t'
  | update (s : Assignment) (con : Condition) (t t' : BTree Int) (hr : Reachable lo t)
      (hcon : con.Locates lo) (hfits : ∀ d ∈ rows t, (s.assigned d).size < 2 ^ 16)
      (h : (update s con).run t = .ok ((), t')) : Reachable lo t'

section Statements

variable {lo : Int} {t : BTree Int} {con : Condition}

/-- The tree just created has no rows. -/
theorem Table.created {platform : Platform} {file : Nat → Page Int}
    (hp : platform.Reliable)
    (h : openTree.run (unopened platform (create bTree file)) = .ok (1, t)) : Table lo t [] := by
  obtain ⟨-, hv, hslots, -⟩ :=
    wp_ok (wp_created (S := InRange lo) (E := Beyond) file bTree_wide hp) h
  refine ⟨hv, ?_⟩
  unfold BTree.live
  rw [hslots]
  exact .nil

/-- The statements keep the table in order. -/
theorem Reachable.table (hr : Reachable lo t) : Table lo t (rows t) := by
  have hex : ∃ R, Table lo t R := by
    induction hr with
    | created platform file t hp h => exact ⟨_, Table.created hp h⟩
    | insert data err t t' _ hid hfits h ih =>
      obtain ⟨R, ht⟩ := ih
      rcases wp_ok (ht.wp_insert hid hfits) h with ⟨_, ht'⟩ | ⟨A, B, _, ht'⟩
      · exact ⟨R, ht'⟩
      · exact ⟨_, ht'⟩
    | query con res t t' _ hcon h ih =>
      obtain ⟨R, ht⟩ := ih
      have := wp_ok (ht.wp_query (E := Beyond) hcon) h
      exact ⟨R, this.2⟩
    | del con t t' _ hcon h ih =>
      obtain ⟨R, ht⟩ := ih
      have := wp_ok (ht.wp_del (E := Beyond) hcon) h
      exact ⟨_, this⟩
    | update s con t t' _ hcon hfits h ih =>
      obtain ⟨R, ht⟩ := ih
      rw [ht.rows_eq] at hfits
      have := wp_ok (ht.wp_update hcon hfits) h
      exact ⟨_, this⟩
  obtain ⟨R, ht⟩ := hex
  rw [ht.rows_eq]
  exact ht

/-- `query` returns the rows described, in the order of their ids, if and only if the condition
lands on its rows and its half-lines share none. -/
private theorem Reachable.query_exact (hr : Reachable lo t) (hcon : con.Locates lo) :
    wp (fun _ ↦ False) (Matu.query con) (fun res t' ↦ rows t' = rows t ∧
      (res = (rows t).filter (fun d ↦ con.describes d.id) ↔
        con.Lands (fun _ ↦ False) (rows t) ∧ con.Disjoint (rows t))) t := by
  have ht := hr.table
  refine wp_mono (ht.wp_query hcon) fun res t' h ↦ ?_
  obtain ⟨rfl, ht'⟩ := h
  exact ⟨ht'.rows_eq, Condition.collected_iff ht.sorted⟩

/-- In every reachable tree the rows are listed by increasing ids, `query` and `del` act on
exactly the rows described if and only if the condition lands on them, for `query` with
half-lines that share none, and `update` replaces the assigned fields of exactly these if and
only if it lands on them up to rows that the assignment leaves as they are. -/
theorem statements_select (hr : Reachable lo t) (hcon : con.Locates lo) :
    ((rows t).Pairwise fun d d' ↦ d.id < d'.id) ∧
    (rows t).map RowData.id = t.live.map Slot.key ∧
    wp (fun _ ↦ False) (query con) (fun res t' ↦ rows t' = rows t ∧
      (res = (rows t).filter (fun d ↦ con.describes d.id) ↔
        con.Lands (fun _ ↦ False) (rows t) ∧ con.Disjoint (rows t))) t ∧
    wp (fun _ ↦ False) (del con) (fun _ t' ↦
      rows t' = (rows t).filter (fun d ↦ !con.describes d.id) ↔
        con.Lands (fun _ ↦ False) (rows t)) t ∧
    ∀ s : Assignment, (∀ d ∈ rows t, (s.assigned d).size < 2 ^ 16) →
      wp Beyond (update s con) (fun _ t' ↦
        rows t' = (rows t).map (fun d ↦ if con.describes d.id then s.apply d else d) ↔
          con.Lands (fun d ↦ s.apply d = d) (rows t)) t := by
  have ht := hr.table
  refine ⟨ht.sorted, ht.map_id, hr.query_exact hcon, ?_, fun s hfits ↦ ?_⟩
  · refine wp_mono (ht.wp_del hcon) fun _ t' ht' ↦ ?_
    rw [ht'.rows_eq]
    exact Condition.left_iff ht.sorted
  · refine wp_mono (ht.wp_update hcon hfits) fun _ t' ht' ↦ ?_
    rw [ht'.rows_eq]
    exact Condition.rewritten_iff ht.sorted

end Statements

section Samples

/-- A row under the id 5. -/
def fifthRow : RowData := ⟨5, true, [], [], []⟩

/-- A file never written to. -/
def emptyFile : Nat → Page Int := fun _ ↦ .raw ⟨.free, 0, 0, 0⟩ fun _ ↦ 0

/-- The table just created. -/
def emptyTable : BTree Int :=
  match openTree.run (unopened steady (create bTree emptyFile)) with
  | .ok (_, t) => t
  | .error _ => unopened steady emptyFile

/-- The table with the one row. -/
def fifthTable : BTree Int :=
  match (insert fifthRow).run emptyTable with
  | .ok (_, t) => t
  | .error _ => emptyTable

theorem emptyTable_opened :
    openTree.run (unopened steady (create bTree emptyFile)) = .ok (1, emptyTable) := rfl

theorem fifthTable_inserted : (insert fifthRow).run emptyTable = .ok (false, fifthTable) :=
  rfl

theorem fifthRow_range : InRange 0 fifthRow.id := by
  change InRange 0 5
  unfold InRange
  omega

private theorem fifthTable_reachable : Reachable 0 fifthTable :=
  .insert fifthRow false _ _ (.created steady emptyFile _ steady_reliable emptyTable_opened)
    fifthRow_range (by decide) fifthTable_inserted

private theorem fifthTable_rows : rows fifthTable = [fifthRow] := by
  have hempty : Table 0 emptyTable [] := Table.created steady_reliable emptyTable_opened
  have := wp_ok (hempty.wp_insert fifthRow_range (by decide)) fifthTable_inserted
  rcases this with ⟨⟨d, hd, _⟩, _⟩ | ⟨A, B, heq, ht⟩
  · exact absurd hd List.not_mem_nil
  · obtain ⟨rfl, rfl⟩ := List.append_eq_nil_iff.mp heq.symm
    exact ht.rows_eq

-- statements about the tables are not to be evaluated while they are elaborated
attribute [irreducible] emptyTable fifthTable

/-- The row is selected by its id. -/
theorem fifthTable_selects :
    wp (fun _ ↦ False) (query ⟨5, 0, .RES_EQ_FIRST⟩) (fun res t' ↦ rows t' = rows fifthTable ∧
      (res = (rows fifthTable).filter (fun d ↦ d.id == 5) ↔
        Condition.Lands ⟨5, 0, .RES_EQ_FIRST⟩ (fun _ ↦ False) (rows fifthTable) ∧
          Condition.Disjoint ⟨5, 0, .RES_EQ_FIRST⟩ (rows fifthTable))) fifthTable ∧
    rows fifthTable = [fifthRow] := by
  have hcon : Condition.Locates 0 ⟨5, 0, .RES_EQ_FIRST⟩ := by
    change InRange 0 5
    unfold InRange
    omega
  exact ⟨(statements_select fifthTable_reachable hcon).2.2.1, fifthTable_rows⟩

/-- A query for the id 3 returns the row with the id 5. -/
theorem missing_id_selects : ¬ ∀ t, Reachable 0 t → ∀ con : Condition, con.Locates 0 →
    wp (fun _ ↦ False) (query con) (fun res _ ↦
      res = (rows t).filter fun d ↦ con.describes d.id) t := by
  intro hall
  have hcon : Condition.Locates 0 ⟨3, 0, .RES_EQ_FIRST⟩ := by
    change InRange 0 3
    unfold InRange
    omega
  obtain ⟨res, t', hrun, hres⟩ := exists_run (hall _ fifthTable_reachable _ hcon)
  have hiff := (wp_ok (fifthTable_reachable.query_exact hcon) hrun).2
  rw [fifthTable_rows] at hres hiff
  have hlands : fifthRow.id = 3 ∨ False := (hiff.mp hres).1 fifthRow rfl
  rcases hlands with h | h
  · exact absurd h (by decide)
  · exact h

end Samples

end ExampleEngine.Matu
