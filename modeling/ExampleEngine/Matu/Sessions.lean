import ExampleEngine.Index.Sizes
import ExampleEngine.Index.Unsaved
import ExampleEngine.Matu.Texts
import Mathlib.Data.List.Sort

/-!
# Sessions of statements

Library `Matu`. Programs that use the table: `init`, `initial` and `release` of
`src/lib/matu.h:350–367` and any statements between them, given by their texts. Against a relation
that is changed by what the statements say, nothing is lost between two statements or two programs,
as long as the file stays within 2^18 blocks; `MyFile::resize` of `src/lib/file.cpp:63–66` cuts it
where it grows past them.
-/

namespace ExampleEngine.Matu

open ExampleEngine.Base ExampleEngine.Storage ExampleEngine.Index ExampleEngine.Index.BTree

/-- `insert` of many rows; `src/lib/matu.h:398–403`. -/
def insertAll : List RowData → TreeM Int Unit
  | [] => return ()
  | r :: rows => do
    let _ ← insert r
    insertAll rows

namespace Scan

/-- `query` up to the end of its parser, with what it does to the tree then;
`src/lib/matu.h:405–474`. -/
def query (sql : List Char) (res : Condition) :
    Except ScanFault (TreeM Int (List RowData)) := do
  let con ← conditionParse sql res
  return Matu.query con

/-- `del` up to the end of its parser; `src/lib/matu.h:476–541`. -/
def del (sql : List Char) (res : Condition) : Except ScanFault (TreeM Int Unit) := do
  let con ← conditionParse sql res
  return Matu.del con

/-- `update` up to the end of its parsers; `src/lib/matu.h:559–677`. -/
def update (sql : List Char) (res : Condition) : Except ScanFault (TreeM Int Unit) := do
  let s ← assignmentParse sql
  let con ← conditionParse sql res
  return Matu.update s con

/-- The text of an update is parsed without a fault, and to the same condition whatever its fields
held before, exactly when the parts of its assignment are there and its clause is readable. It then
assigns the value up to the next blank, under the condition that the parser without checks makes
of it. -/
theorem update_safe_iff {sql : List Char} (hlen : sql.length < 2 ^ 31) :
    ((∃ f : Condition → Condition, ∀ res, conditionParse sql res = .ok (f res) ∧
      (∃ m, update sql res = .ok m) ∧ ∀ res', (f res).Agrees (f res')) ↔
    Assignable (sql ++ [nul]) ∧ Readable sql) ∧
    (Assignable (sql ++ [nul]) ∧ Readable sql →
      ∀ res con, conditionParse sql res = .ok con → Matu.conditionParse sql res = some con ∧
        update sql res = .ok (Matu.update (assignment (sql ++ [nul])) con)) := by
  have hassign : Assignable (sql ++ [nul]) →
      assignmentParse sql = .ok (assignment (sql ++ [nul])) := fun hset ↦
    (assignmentParse_ok_iff hlen).mpr ⟨hset, rfl⟩
  refine ⟨⟨fun ⟨f, hf⟩ ↦ ⟨?_, ?_⟩, fun ⟨hset, hread⟩ ↦ ?_⟩, fun ⟨hset, hread⟩ res con hok ↦ ?_⟩
  · obtain ⟨m, hm⟩ := (hf ⟨0, 0, .RES_BAD⟩).2.1
    obtain ⟨s, hs, _⟩ := bind_ok hm
    exact ((assignmentParse_ok_iff hlen).mp hs).1
  · exact readable_of_safe fun res res' ↦
      ⟨f res, f res', (hf res).1, (hf res').1, (hf res).2.2 res'⟩
  · obtain ⟨f, hf⟩ := conditionParse_of_readable hread
    refine ⟨f, fun res ↦ ?_⟩
    obtain ⟨hok, -, hagrees⟩ := hf res
    exact ⟨hok, ⟨_, (ok_bind (hassign hset)).trans (ok_bind hok)⟩, hagrees⟩
  · obtain ⟨f, hf⟩ := conditionParse_of_readable hread
    obtain ⟨hbody, htail⟩ := body_of_lt hlen
    obtain ⟨hok', hlist, -⟩ := hf res
    obtain rfl : f res = con := Except.ok.inj (hok'.symm.trans hok)
    refine ⟨hbody ▸ hlist htail, ?_⟩
    rw [update, ok_bind (hassign hset), ok_bind hok]
    rfl

end Scan

/-- Statements, with their texts in front of a where clause or an assignment. -/
inductive Statement where
  | insert (data : List RowData)
  | query (front : List Char) (clause : Clause)
  | del (front : List Char) (clause : Clause)
  | update (front : List Char) (gap : Nat) (set : Setting) (clause : Clause)

instance (s : Sign) (id n : Int) : Decidable (s.holds id n) :=
  match s with
  | .gt => inferInstanceAs (Decidable (id > n))
  | .ge => inferInstanceAs (Decidable (id ≥ n))
  | .lt => inferInstanceAs (Decidable (id < n))
  | .le => inferInstanceAs (Decidable (id ≤ n))
  | .eq => inferInstanceAs (Decidable (id = n))

instance (clause : Clause) (id : Int) : Decidable (clause.holds id) :=
  match clause with
  | .single c => inferInstanceAs (Decidable (c.sign.holds id c.number.value))
  | .both c c' => inferInstanceAs (Decidable
      (c.sign.holds id c.number.value ∧ c'.sign.holds id c'.number.value))
  | .either c c' => inferInstanceAs (Decidable
      (c.sign.holds id c.number.value ∨ c'.sign.holds id c'.number.value))

/-- A relation with a row added under an id that it does not have. -/
def added (R : List RowData) (d : RowData) : List RowData :=
  if ∃ d' ∈ R, d'.id = d.id then R else R.orderedInsert (fun d d' ↦ d.id < d'.id) d.kept

namespace Statement

/-- The statement, run with a condition that holds any values at first. -/
def perform (res : Condition) : Statement → Except Scan.ScanFault (TreeM Int (List RowData))
  | .insert data => return do insertAll data; return []
  | .query front clause => Scan.query (selection front clause) res
  | .del front clause => do
    let m ← Scan.del (selection front clause) res
    return do m; return []
  | .update front gap set clause => do
    let m ← Scan.update (selection (setting front gap set) clause) res
    return do m; return []

/-- The rows that the statement asks for. -/
def answer (R : List RowData) : Statement → List RowData
  | .query _ clause => R.filter fun d ↦ clause.holds d.id
  | _ => []

/-- The rows after the statement. -/
def after (R : List RowData) : Statement → List RowData
  | .insert data => data.foldl added R
  | .query .. => R
  | .del _ clause => R.filter fun d ↦ ¬ clause.holds d.id
  | .update _ _ set clause => R.map fun d ↦ if clause.holds d.id then set.apply d else d

end Statement

/-- The ids that a comparison locates are in range. -/
def Comparison.Located (lo : Int) (c : Comparison) : Prop :=
  c.sign.op ≠ .OP_LE → InRange lo c.bound

/-- The ids that a clause locates are in range. -/
def Clause.Located (lo : Int) : Clause → Prop
  | .single c => c.Located lo
  | .both c c' | .either c c' => c.Located lo ∧ c'.Located lo

/-- The text in front of a clause and the clause itself are such that the parser reads the clause
as what it says. -/
structure Legible (lo : Int) (front : List Char) (clause : Clause) : Prop where
  unparsed : Unparsed front
  bounded : clause.Bounded
  short : (selection front clause).length < 2 ^ 31
  exact : ¬ clause.EqualsBelow
  located : clause.Located lo

/-- A statement that the parsers read as what it says, with a condition that lands on its rows. -/
def Statement.Legal (lo : Int) (res : Condition) (R : List RowData) : Statement → Prop
  | .insert data => ∀ d ∈ data, InRange lo d.id ∧ d.size < 2 ^ 16
  | .query front clause => Legible lo front clause ∧
      (clause.parsed res).Lands (fun _ ↦ False) R ∧ (clause.parsed res).Disjoint R
  | .del front clause => Legible lo front clause ∧ (clause.parsed res).Lands (fun _ ↦ False) R
  | .update front gap set clause => Legible lo (setting front gap set) clause ∧
      ¬ "se".toList <:+: front ∧ set.Bounded ∧
      (clause.parsed res).Lands (fun d ↦ set.apply d = d) R ∧
      ∀ d ∈ R, (set.assignment.assigned d).size < 2 ^ 16

/-- The tree of a program, with the relation that it stands for: the table is created, statements
are run, and one program after the other closes the table at its end and opens it again. No
statement takes more than 2^18 blocks into use. -/
inductive Session (lo : Int) : List RowData → BTree Int → Prop
  | created (platform : Platform) (file : Nat → Page Int) (t : BTree Int)
      (hp : platform.Reliable)
      (h : openTree.run (unopened platform (create bTree file)) = .ok (1, t)) : Session lo [] t
  | statement (R : List RowData) (t t' : BTree Int) (st : Statement) (res : Condition)
      (m : TreeM Int (List RowData)) (answer : List RowData) (hs : Session lo R t)
      (hl : st.Legal lo res R) (hm : st.perform res = .ok m) (h : m.run t = .ok (answer, t'))
      (hsize : t'.blocks ≤ 2 ^ 18) : Session lo (st.after R) t'
  | restarted (R : List RowData) (platform : Platform) (t t' : BTree Int) (hs : Session lo R t)
      (hp : platform.Reliable)
      (h : openTree.run (unopened platform (t.destroy fun _ ↦ true)) = .ok (1, t')) :
      Session lo R t'

section Keeping

variable {F : Nat → Page Int} {ps : List (Option Nat)} {α : Type}

private theorem preserves_rowAt (it : Iterator) :
    Preserves (Unsaved F ps) (rowAt it : TreeM Int RowData) := by
  refine .bind Iterator.preserves_getValue fun p ↦ ?_
  cases p with
  | none => exact .throw _
  | some record => exact .liftM _

private theorem preserves_putRecord (id : Int) (rcd : List UInt8) :
    Preserves (Unsaved F ps) (putRecord id rcd) :=
  preserves_put

section Loops

variable {visit : Iterator → RowData → TreeM Int (List RowData)} {beyond : RowData → Bool}

private theorem preserves_rowLoop (hv : ∀ it d, Preserves (Unsaved F ps) (visit it d))
    (fuel : Nat) (r : Int × Iterator) :
    Preserves (Unsaved F ps) (rowLoop visit beyond fuel r) := by
  induction fuel generalizing r with
  | zero => exact .throw _
  | succ fuel ih =>
    refine .ite (.pure _) (.bind (preserves_rowAt _) fun d ↦ .ite (.pure _) ?_)
    exact .bind (hv _ d) fun _ ↦ .bind Iterator.preserves_next fun r' ↦
      .bind (ih r') fun _ ↦ .pure _

private theorem preserves_loopTo (hv : ∀ it d, Preserves (Unsaved F ps) (visit it d)) (a : Int)
    (it : Iterator) : Preserves (Unsaved F ps) (loopTo visit a it) :=
  .bind Iterator.preserves_fuel fun fuel ↦ .bind Iterator.preserves_first fun r ↦
    preserves_rowLoop hv fuel r

private theorem preserves_loopFrom (hv : ∀ it d, Preserves (Unsaved F ps) (visit it d)) (a : Int) :
    Preserves (Unsaved F ps) (loopFrom visit beyond a) :=
  .bind Iterator.preserves_fuel fun fuel ↦ .bind Iterator.preserves_locate fun r ↦
    preserves_rowLoop hv fuel r

/-- No statement saves the tree. -/
private theorem preserves_statement (hv : ∀ it d, Preserves (Unsaved F ps) (visit it d))
    (con : Condition) : Preserves (Unsaved F ps) (statement visit con) := by
  unfold statement
  cases con.flag with
  | RES_AND => exact preserves_loopFrom hv con.a
  | RES_OR =>
    exact .bind (preserves_loopTo hv con.a {}) fun _ ↦
      .bind (preserves_loopFrom hv con.b) fun _ ↦ .pure _
  | RES_EQ_FIRST =>
    exact .bind Iterator.preserves_locate fun r ↦ .ite (.pure _)
      (.bind (preserves_rowAt _) fun d ↦ hv _ d)
  | RES_HI => exact preserves_loopTo hv con.a {}
  | RES_LO => exact preserves_loopFrom hv con.a
  | _ => exact .pure _

end Loops

private theorem preserves_insertAll (data : List RowData) :
    Preserves (Unsaved F ps) (insertAll data) := by
  induction data with
  | nil => exact .pure _
  | cons d data ih => exact .bind (.bind (preserves_putRecord d.id _) fun _ ↦ .pure _) fun _ ↦ ih

private theorem preserves_query (con : Condition) : Preserves (Unsaved F ps) (query con) :=
  preserves_statement (fun _ _ ↦ .pure _) con

private theorem preserves_del (con : Condition) : Preserves (Unsaved F ps) (del con) :=
  .bind (preserves_statement (fun _ _ ↦ .bind Iterator.preserves_remove fun _ ↦ .pure _) con)
    fun _ ↦ .pure _

private theorem preserves_update (s : Assignment) (con : Condition) :
    Preserves (Unsaved F ps) (update s con) :=
  .bind (preserves_statement (fun _ d ↦ .bind Iterator.preserves_remove fun _ ↦
    .bind (preserves_putRecord d.id _) fun _ ↦ .pure _) con) fun _ ↦ .pure _

end Keeping

section Clauses

variable {lo num x : Int} {op op' : Op} {conn : Bool} {res : Condition}

private theorem first_locates (hnum : op ≠ .OP_LE → InRange lo num) :
    (first op num res).Locates lo := by
  cases op with
  | OP_EQ => exact hnum (by decide)
  | OP_GE => exact hnum (by decide)
  | OP_LE => trivial

/-- Only lower bounds and equalities are located, unless an equality follows an upper bound above
it. -/
private theorem second_locates (hnum : op ≠ .OP_LE → InRange lo num)
    (hx : op' ≠ .OP_LE → InRange lo x)
    (hslip : ¬ (op = .OP_LE ∧ conn = true ∧ op' = .OP_EQ ∧ x < num)) :
    (second op num conn op' x res).Locates lo := by
  cases op' <;> cases op <;> cases conn <;> simp only [second] <;> (try split) <;> (try split) <;>
    simp [Condition.Locates, InRange] at * <;> omega

/-- A clause locates ids in range where its lower bounds are. -/
theorem Clause.locates_parsed {clause : Clause} (hl : clause.Located lo)
    (h : ¬ clause.EqualsBelow) : (clause.parsed res).Locates lo := by
  cases clause with
  | single c => exact first_locates hl
  | both c c' =>
    rw [equalsBelow_iff] at h
    exact second_locates hl.1 hl.2 fun ⟨hop, _, hop', hlt⟩ ↦ h ⟨hop, hop', hlt⟩
  | either c c' => exact second_locates hl.1 hl.2 fun ⟨_, hconn, _⟩ ↦ Bool.false_ne_true hconn

/-- Ids from 0 on are in range of every clause. -/
theorem Clause.Bounded.located {clause : Clause} (hb : clause.Bounded) : clause.Located 0 := by
  have hone : ∀ {c : Comparison}, c.number.Bounded → c.Located 0 := by
    intro c hc hop
    have hzero : '0'.toNat = 48 := rfl
    unfold Numeral.Bounded at hc
    unfold Comparison.bound InRange
    cases hs : c.sign <;> simp [hs, Sign.op, Sign.bound] at hop ⊢ <;> omega
  cases clause with
  | single c => exact hone hb
  | both c c' => exact ⟨hone hb.1, hone hb.2⟩
  | either c c' => exact ⟨hone hb.1, hone hb.2⟩

/-- The rows that a condition describes are those that satisfy the clause it was parsed from. -/
private theorem describes_eq {front : List Char} {clause : Clause} (hl : Legible lo front clause)
    (id : Int) : (clause.parsed res).describes id = decide (clause.holds id) := by
  rw [Bool.eq_iff_iff, decide_eq_true_iff]
  exact Clause.describes_parsed hl.bounded.small hl.exact id

end Clauses

section Rows

variable {lo : Int} {t : BTree Int} {R A B : List RowData} {d : RowData} {data : List RowData}

/-- A row that is added has its place among the others. -/
private theorem added_eq (h : (A ++ d.kept :: B).Pairwise fun d d' ↦ d.id < d'.id) :
    added (A ++ B) d = A ++ d.kept :: B := by
  obtain ⟨_, hsorted, hA⟩ := List.pairwise_append.mp h
  have hbelow : ∀ d' ∈ A, d'.id < d.id := fun d' hd' ↦ hA d' hd' d.kept List.mem_cons_self
  have habove : ∀ d' ∈ B, d.id < d'.id := (List.pairwise_cons.mp hsorted).1
  have hnew : ¬ ∃ d' ∈ A ++ B, d'.id = d.id := by
    rintro ⟨d', hd', heq⟩
    rcases List.mem_append.mp hd' with hmem | hmem
    · exact absurd heq (Int.ne_of_lt (hbelow d' hmem))
    · exact absurd heq (Int.ne_of_gt (habove d' hmem))
  have hpass : ∀ d' ∈ A, decide (¬ d.kept.id < d'.id) = true := fun d' hd' ↦
    decide_eq_true (Int.not_lt.mpr (Int.le_of_lt (hbelow d' hd')))
  unfold added
  rw [if_neg hnew, List.orderedInsert_eq_take_drop, List.takeWhile_append_of_pos hpass,
    List.dropWhile_append_of_pos hpass]
  cases B with
  | nil => simp
  | cons d' B =>
    have hstop : decide (¬ d.kept.id < d'.id) ≠ true :=
      decide_eq_true_iff.not.mpr (not_not.mpr (habove d' List.mem_cons_self))
    rw [List.takeWhile_cons_of_neg (p := fun d' : RowData ↦ decide (¬ d.kept.id < d'.id)) hstop,
      List.dropWhile_cons_of_neg (p := fun d' : RowData ↦ decide (¬ d.kept.id < d'.id)) hstop,
      List.append_nil]

/-- `insert` of many rows, unless the file grows past 2 GiB. -/
theorem Table.wp_insertAll (ht : Table lo t R)
    (hdata : ∀ d ∈ data, InRange lo d.id ∧ d.size < 2 ^ 16) :
    wp Beyond (insertAll data) (fun _ t' ↦ Table lo t' (data.foldl added R)) t := by
  induction data generalizing t R with
  | nil => exact ht
  | cons d data ih =>
    obtain ⟨⟨hid, hsize⟩, hdata⟩ := List.forall_mem_cons.mp hdata
    rw [insertAll, List.foldl_cons, wp_bind]
    refine wp_mono (ht.wp_insert hid hsize) fun _ t' h ↦ ih ?_ hdata
    rcases h with ⟨hex, ht'⟩ | ⟨A, B, rfl, ht'⟩
    · rwa [added, if_pos hex]
    · rwa [added_eq ht'.sorted]

end Rows

section Sessions

variable {lo : Int} {t : BTree Int} {R : List RowData} {st : Statement} {res : Condition}

/-- A legal statement is parsed to code that does to the tree what the statement says, unless the
file grows past 2 GiB, and that saves nothing. -/
theorem Table.perform (ht : Table lo t R) (hl : st.Legal lo res R) :
    ∃ m, st.perform res = .ok m ∧ (∀ F, Preserves (Unsaved F []) m) ∧
      wp Beyond m (fun answer t' ↦ answer = st.answer R ∧ Table lo t' (st.after R)) t := by
  cases st with
  | insert data =>
    refine ⟨_, rfl, fun _ ↦ .bind (preserves_insertAll data) fun _ ↦ .pure _, ?_⟩
    rw [wp_bind]
    exact wp_mono (ht.wp_insertAll hl) fun _ t' ht' ↦ ⟨rfl, ht'⟩
  | query front clause =>
    obtain ⟨hleg, hlands, hdisj⟩ := hl
    have hparse := Scan.conditionParse_selection hleg.unparsed hleg.bounded hleg.short res
    have hexact := (Condition.collected_iff ht.sorted).mpr ⟨hlands, hdisj⟩
    simp only [describes_eq hleg] at hexact
    refine ⟨query (clause.parsed res), ?_, fun _ ↦ preserves_query _, ?_⟩
    · exact Scan.ok_bind hparse
    · refine wp_mono (ht.wp_query (Clause.locates_parsed hleg.located hleg.exact)) ?_
      rintro answer t' ⟨rfl, ht'⟩
      exact ⟨hexact, ht'⟩
  | del front clause =>
    obtain ⟨hleg, hlands⟩ := hl
    have hparse := Scan.conditionParse_selection hleg.unparsed hleg.bounded hleg.short res
    have hexact := (Condition.left_iff ht.sorted).mpr hlands
    simp only [describes_eq hleg, ← decide_not] at hexact
    refine ⟨do del (clause.parsed res); return [], ?_,
      fun _ ↦ .bind (preserves_del _) fun _ ↦ .pure _, ?_⟩
    · exact Scan.ok_bind (Scan.ok_bind hparse)
    · rw [wp_bind]
      refine wp_mono (ht.wp_del (Clause.locates_parsed hleg.located hleg.exact)) fun _ t' ht' ↦ ?_
      rw [hexact] at ht'
      exact ⟨rfl, ht'⟩
  | update front gap set clause =>
    obtain ⟨hleg, hfront, hset, hlands, hfits⟩ := hl
    have hparse := Scan.conditionParse_selection hleg.unparsed hleg.bounded hleg.short res
    have hassign := Scan.assignmentParse_setting hfront gap hset hleg.short
    have hexact := (Condition.rewritten_iff (f := set.assignment.apply) ht.sorted).mpr (by
      simpa only [Setting.apply_assignment] using hlands)
    simp only [describes_eq hleg, decide_eq_true_eq, Setting.apply_assignment] at hexact
    refine ⟨do update set.assignment (clause.parsed res); return [], ?_,
      fun _ ↦ .bind (preserves_update _ _) fun _ ↦ .pure _, ?_⟩
    · exact Scan.ok_bind ((Scan.ok_bind hassign).trans (Scan.ok_bind hparse))
    · rw [wp_bind]
      refine wp_mono (ht.wp_update (Clause.locates_parsed hleg.located hleg.exact) hfits)
        fun _ t' ht' ↦ ?_
      simp only [Setting.apply_assignment] at ht'
      rw [hexact] at ht'
      exact ⟨rfl, ht'⟩

/-- The rows are those of the tree when it is opened again. -/
theorem Table.wp_reopen {platform : Platform} {E : Fault → Prop} {F : Nat → Page Int}
    (ht : Table lo t R) (hu : Unsaved F [] t) (hp : platform.Reliable) :
    wp E openTree (fun r t' ↦ r = 1 ∧ Table lo t' R ∧ Unsaved (t.destroy fun _ ↦ true) [] t')
      (unopened platform (t.destroy fun _ ↦ true)) := by
  refine wp_mono (ht.valid.wp_reopen hu hp) fun r t' h ↦ ?_
  obtain ⟨rfl, hv', hpage, hroot, hu'⟩ := h
  refine ⟨rfl, ⟨hv', ?_⟩, hu'⟩
  rw [live_congr hpage hroot, hpage]
  exact ht.rows

/-- The tree holds the rows of the relation, and no save has come since it was opened. -/
theorem Session.table (hs : Session lo R t) : Table lo t R ∧ ∃ F, Unsaved F [] t := by
  induction hs with
  | created platform file t hp h =>
    have hopen := preserves_openTree (unopened platform (create bTree file)) (.unopened _ _)
    have hu := wp_ok hopen h
    exact ⟨Table.created hp h, _, hu⟩
  | statement R t t' st res m answer _ hl hm h _ ih =>
    obtain ⟨ht, F, hu⟩ := ih
    obtain ⟨m', hm', hkeep, hdoes⟩ := ht.perform hl
    rw [hm, Except.ok.injEq] at hm'
    subst hm'
    obtain ⟨⟨_, ht'⟩, hu'⟩ := wp_ok ((hkeep F).wp hdoes hu) h
    exact ⟨ht', F, hu'⟩
  | restarted R platform t t' _ hp h ih =>
    obtain ⟨ht, F, hu⟩ := ih
    obtain ⟨_, ht', hu'⟩ := wp_ok (ht.wp_reopen (E := Beyond) hu hp) h
    exact ⟨ht', _, hu'⟩

/-- In every session the table holds the rows of the relation by increasing ids, each legal
statement is parsed without a fault, answers and changes the rows as the relation does within 2^18
blocks, stops only where the file grows past 2 GiB, and a program that ends leaves the rows to the
next one. -/
theorem session_refines (hs : Session lo R t) :
    rows t = R ∧ (R.Pairwise fun d d' ↦ d.id < d'.id) ∧
    (∀ (st : Statement) (res : Condition), st.Legal lo res R → ∃ m, st.perform res = .ok m ∧
      wp Beyond m (fun answer t' ↦ t'.blocks ≤ 2 ^ 18 →
        answer = st.answer R ∧ rows t' = st.after R ∧ Session lo (st.after R) t') t) ∧
    ∀ platform : Platform, platform.Reliable →
      wp (fun _ ↦ False) openTree (fun r t' ↦ r = 1 ∧ rows t' = R)
        (unopened platform (t.destroy fun _ ↦ true)) := by
  obtain ⟨ht, F, hu⟩ := hs.table
  refine ⟨ht.rows_eq, ht.sorted, fun st res hl ↦ ?_, fun platform hp ↦ ?_⟩
  · obtain ⟨m, hm, -, hdoes⟩ := ht.perform hl
    refine ⟨m, hm, wp_mono (wp_run hdoes) fun answer t' h hsize ↦ ?_⟩
    obtain ⟨hrun, hans, ht'⟩ := h
    exact ⟨hans, ht'.rows_eq, .statement R t t' st res m answer hs hl hm hrun hsize⟩
  · exact wp_mono (ht.wp_reopen hu hp) fun r t' h ↦ ⟨h.1, h.2.1.rows_eq⟩

end Sessions

section Samples

/-- The assignment `number = 20190603x`. -/
def numberSetting : Setting :=
  .text .number 1 1 ⟨"20190603x".toList.map Scan.byte, by decide, by simp [Scan.byte]⟩

/-- The clause `id < 9`. -/
def belowNine : Clause := .single ⟨.lt, 1, 1, ⟨[Fin.last 9], List.cons_ne_nil _ _⟩⟩

/-- The text of both. -/
def numberUpdate : List Char :=
  selection (setting "update table ".toList 1 numberSetting) belowNine

example : numberUpdate = "update table set number = 20190603x where id < 9".toList := by
  decide

private theorem fifthTable_session : Session 0 [fifthRow] fifthTable := by
  have hl : (Statement.insert [fifthRow]).Legal 0 ⟨0, 0, .RES_BAD⟩ [] :=
    List.forall_mem_singleton.mpr ⟨fifthRow_range, by decide⟩
  have hblocks : fifthTable.blocks = 3 := by
    unfold fifthTable emptyTable
    rfl
  refine .statement [] emptyTable fifthTable (.insert [fifthRow]) _ _ []
    (.created steady emptyFile _ steady_reliable emptyTable_opened) hl rfl ?_ (by omega)
  simp only [insertAll, bind_assoc, pure_bind, StateT.run_bind, fifthTable_inserted]
  rfl

private theorem numberSetting_unparsed :
    Unparsed (setting "update table ".toList 1 numberSetting) := fun s t hst ↦
  absurd ⟨s, t, hst.symm⟩ (by decide :
    ¬ " where ".toList <:+: setting "update table ".toList 1 numberSetting)

private theorem belowNine_bounded : belowNine.Bounded := by
  change Numeral.value _ + _ < _
  decide

private theorem numberSetting_assigned :
    Scan.assignmentParse (selection (setting "update table ".toList 1 numberSetting) belowNine) =
      .ok numberSetting.assignment :=
  Scan.assignmentParse_setting (by decide) 1 (show numberSetting.Bounded from trivial) (by decide)

/-- The text of the update is parsed safely. -/
theorem numberSetting_safe : ∃ f : Condition → Condition, ∀ res,
    Scan.conditionParse numberUpdate res = .ok (f res) ∧
      conditionParse numberUpdate res = some (f res) ∧
      Scan.update numberUpdate res =
        .ok (update (Scan.assignment (numberUpdate ++ [Scan.nul])) (f res)) ∧
      ∀ res', (f res).Agrees (f res') := by
  have hread : Scan.Readable numberUpdate :=
    Scan.readable_selection numberSetting_unparsed belowNine_bounded (by decide)
  have hset : Scan.Assignable (numberUpdate ++ [Scan.nul]) :=
    ((Scan.assignmentParse_ok_iff (by decide)).mp numberSetting_assigned).1
  obtain ⟨hsafe, hvalue⟩ := Scan.update_safe_iff (by decide : numberUpdate.length < 2 ^ 31)
  obtain ⟨f, hf⟩ := hsafe.mpr ⟨hset, hread⟩
  refine ⟨f, fun res ↦ ?_⟩
  obtain ⟨hok, -, hagrees⟩ := hf res
  obtain ⟨hlist, hupdate⟩ := hvalue ⟨hset, hread⟩ res (f res) hok
  exact ⟨hok, hlist, hupdate, hagrees⟩

/-- The number of a row is assigned by a statement. -/
theorem fifthTable_updates :
    ∃ m, (Statement.update "update table ".toList 1 numberSetting belowNine).perform
        ⟨0, 0, .RES_BAD⟩ = .ok m ∧
      wp Beyond m (fun answer t' ↦ t'.blocks ≤ 2 ^ 18 → answer = [] ∧
        rows t' = [{ fifthRow with number := "20190603x".toList.map Scan.byte }]) fifthTable := by
  have hleg : Legible 0 (setting "update table ".toList 1 numberSetting) belowNine :=
    ⟨numberSetting_unparsed, belowNine_bounded, by decide, id, belowNine_bounded.located⟩
  obtain ⟨m, hm, hdoes⟩ := (session_refines fifthTable_session).2.2.1
    (.update "update table ".toList 1 numberSetting belowNine) ⟨0, 0, .RES_BAD⟩
    ⟨hleg, by decide, trivial, trivial, by decide⟩
  exact ⟨m, hm, wp_mono hdoes fun answer t' h hsize ↦ ⟨(h hsize).1, (h hsize).2.1⟩⟩

end Samples

end ExampleEngine.Matu
