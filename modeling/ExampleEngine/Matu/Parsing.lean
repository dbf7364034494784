import ExampleEngine.Matu.Conditions

/-!
# Parsing conditions

Library `Matu`. Models `conditionParse` of `src/lib/matu.h:101–345` on the characters of a
statement. A position in the statement is the rest of it from there on. A where clause of one
or two comparisons is parsed to the condition that describes its ids, except where an equality
follows an upper bound that it does not attain.
-/

namespace ExampleEngine.Matu

open ExampleEngine.Storage

/-- `Op`; `src/lib/matu.h:82–86`. -/
inductive Op where
  | OP_EQ
  | OP_GE
  | OP_LE
  deriving DecidableEq, Repr

/-- The result of an operation on `int`. -/
def int (x : Int) : Int := toInt32 (x % 2 ^ 32).toNat

/-- A decimal digit. -/
def digit (ch : Char) : Bool := decide ('0' ≤ ch) && decide (ch ≤ '9')

/-- `str2int` from a position on; nothing when no digit follows, where it reads past the end of
the string; `src/lib/matu.h:101–109`. -/
def str2int (str : List Char) : Option Int :=
  match (str.dropWhile fun ch ↦ !digit ch).takeWhile digit with
  | [] => none
  | digits => some (digits.foldl (fun res ch ↦ int (res * 10 + ch.toNat - '0'.toNat)) 0)

/-- The loop to the space behind the first `where`; `src/lib/matu.h:124–131`. -/
def findWhere : List Char → List Char
  | [] => []
  | ch :: rest =>
    if " where ".toList.isPrefixOf (ch :: rest) then rest.drop 5 else findWhere rest

/-- The loops to the first operator, with the bound that it gives and its position;
`src/lib/matu.h:132–153,170–340`. -/
def findOp : List Char → Option (Option (Op × Int × List Char))
  | [] => some none
  | ch :: rest =>
    if ch = '>' then do
      let n ← str2int (ch :: rest)
      return some (.OP_GE, int (n + if rest.head? = some '=' then 0 else 1), ch :: rest)
    else if ch = '=' then do
      let n ← str2int (ch :: rest)
      return some (.OP_EQ, n, ch :: rest)
    else if ch = '<' then do
      let n ← str2int (ch :: rest)
      return some (.OP_LE, int (n - if rest.head? = some '=' then 0 else 1), ch :: rest)
    else findOp rest

/-- The connective, `true` for `and`, and its position; `src/lib/matu.h:155–164`. -/
def findConn (sql : List Char) : Option (Bool × List Char) :=
  let rest := sql.dropWhile fun ch ↦ ch != 'a' && ch != 'o'
  if "and".toList.isPrefixOf rest then some (true, rest)
  else if "or".toList.isPrefixOf rest then some (false, rest)
  else none

/-- The condition after the first operator; `src/lib/matu.h:133–152`. -/
def first (op : Op) (num : Int) (res : Condition) : Condition :=
  match op with
  | .OP_GE => { res with a := num, flag := .RES_LO }
  | .OP_EQ => { res with a := num, flag := .RES_EQ_FIRST }
  | .OP_LE => { res with a := num, flag := .RES_HI }

/-- The condition after the second operator, in the order of the source: second operator,
first operator, connective; `src/lib/matu.h:170–340`. -/
def second (op : Op) (num : Int) (conn : Bool) (op' : Op) (x : Int) (res : Condition) :
    Condition :=
  match op', op, conn with
  | .OP_GE, .OP_GE, true => { res with a := max num x, flag := .RES_LO }
  | .OP_GE, .OP_GE, false => { res with a := min num x, flag := .RES_LO }
  | .OP_GE, .OP_EQ, true =>
    if num < x then { res with flag := .RES_BAD }
    else { res with a := num, flag := .RES_EQ_FIRST }
  | .OP_GE, .OP_EQ, false =>
    if num ≥ x then { res with a := x, flag := .RES_LO }
    else { a := num, b := x, flag := .RES_EQ_LO }
  | .OP_GE, .OP_LE, true =>
    if x > num then { res with flag := .RES_BAD }
    else if x = num then { res with a := x, flag := .RES_EQ_FIRST }
    else { a := x, b := num, flag := .RES_AND }
  | .OP_GE, .OP_LE, false =>
    if x ≤ int (num + 1) then { res with flag := .RES_ALL }
    else { a := num, b := x, flag := .RES_OR }
  | .OP_EQ, .OP_EQ, true =>
    if x = num then { res with a := x, flag := .RES_EQ_FIRST }
    else { res with flag := .RES_BAD }
  | .OP_EQ, .OP_EQ, false =>
    if x = num then { res with a := x, flag := .RES_EQ_FIRST }
    else { a := x, b := num, flag := .RES_EQ_BOTH }
  | .OP_EQ, .OP_GE, true =>
    if num > x then { res with flag := .RES_BAD }
    else { res with a := x, flag := .RES_EQ_FIRST }
  | .OP_EQ, .OP_GE, false =>
    if x ≥ num then { res with a := num, flag := .RES_LO }
    else { a := x, b := num, flag := .RES_EQ_LO }
  | .OP_EQ, .OP_LE, true =>
    if x > num then { res with flag := .RES_BAD }
    -- the id is the bound here, not the number it is compared with
    else { res with a := num, flag := .RES_EQ_FIRST }
  | .OP_EQ, .OP_LE, false =>
    if x > num then { a := x, b := num, flag := .RES_EQ_HI }
    else { res with a := num, flag := .RES_HI }
  | .OP_LE, .OP_GE, true =>
    if x < num then { res with flag := .RES_BAD }
    else if x = num then { res with a := x, flag := .RES_EQ_FIRST }
    else { a := num, b := x, flag := .RES_AND }
  | .OP_LE, .OP_GE, false =>
    if int (x + 1) ≥ num then { res with flag := .RES_ALL }
    else { a := x, b := num, flag := .RES_OR }
  | .OP_LE, .OP_EQ, true =>
    if num > x then { res with flag := .RES_BAD }
    else { res with a := num, flag := .RES_EQ_FIRST }
  | .OP_LE, .OP_EQ, false =>
    if num > x then { a := num, b := x, flag := .RES_EQ_HI }
    else { res with a := x, flag := .RES_HI }
  | .OP_LE, .OP_LE, true => { res with a := min num x, flag := .RES_HI }
  | .OP_LE, .OP_LE, false => { res with a := max num x, flag := .RES_HI }

/-- `conditionParse`, where the fields of `res` start with any values;
`src/lib/matu.h:118–345`. -/
def conditionParse (sql : List Char) (res : Condition) : Option Condition := do
  match ← findOp (findWhere sql) with
  | none => return res
  | some (op, num, rest) =>
    let res := first op num res
    match findConn rest with
    | none => return res
    | some (conn, rest) =>
      match ← findOp rest with
      | none => return res
      | some (op', x, _) => return second op num conn op' x res

example : conditionParse "select * from table where id > 500 and id <999".toList ⟨0, 0, .RES_BAD⟩ =
    some ⟨501, 998, .RES_AND⟩ := by decide +kernel

/-- The signs of a comparison. -/
inductive Sign where
  | gt
  | ge
  | lt
  | le
  | eq
  deriving DecidableEq, Repr

namespace Sign

/-- The sign as it is written. -/
def text : Sign → List Char
  | .gt => ['>']
  | .ge => ['>', '=']
  | .lt => ['<']
  | .le => ['<', '=']
  | .eq => ['=']

/-- The comparison of an id with a number. -/
def holds : Sign → Int → Int → Prop
  | .gt, id, n => id > n
  | .ge, id, n => id ≥ n
  | .lt, id, n => id < n
  | .le, id, n => id ≤ n
  | .eq, id, n => id = n

/-- The operator as which the parser reads a sign. -/
def op : Sign → Op
  | .gt | .ge => .OP_GE
  | .lt | .le => .OP_LE
  | .eq => .OP_EQ

/-- The closed bound that a strict sign gives. -/
def bound : Sign → Int → Int
  | .gt, n => n + 1
  | .lt, n => n - 1
  | _, n => n

end Sign

/-- A decimal number. -/
structure Numeral where
  digits : List (Fin 10)
  ne_nil : digits ≠ []

namespace Numeral

/-- The number that the digits denote. -/
def value (n : Numeral) : Nat := n.digits.foldl (fun v d ↦ 10 * v + d.val) 0

/-- The digits as they are written. -/
def text (n : Numeral) : List Char := n.digits.map fun d ↦ Nat.digitChar d.val

end Numeral

/-- A comparison of the id with a number, written with any blanks around its sign. -/
structure Comparison where
  sign : Sign
  before : Nat
  after : Nat
  number : Numeral

namespace Comparison

/-- The comparison as it is written. -/
def text (c : Comparison) : List Char :=
  "id".toList ++ List.replicate c.before ' ' ++ c.sign.text ++ List.replicate c.after ' ' ++
    c.number.text

/-- The ids that satisfy the comparison. -/
def holds (c : Comparison) (id : Int) : Prop := c.sign.holds id c.number.value

/-- The closed bound of the comparison. -/
def bound (c : Comparison) : Int := c.sign.bound c.number.value

/-- The number is one that `int` can hold, and so is the bound. -/
def Small (c : Comparison) : Prop := c.number.value < 2 ^ 31 - 1

end Comparison

/-- A where clause. -/
inductive Clause where
  | single (c : Comparison)
  | both (c c' : Comparison)
  | either (c c' : Comparison)

namespace Clause

/-- The clause as it is written. -/
def text : Clause → List Char
  | .single c => c.text
  | .both c c' => c.text ++ " and ".toList ++ c'.text
  | .either c c' => c.text ++ " or ".toList ++ c'.text

/-- The ids that satisfy the clause. -/
def holds : Clause → Int → Prop
  | .single c, id => c.holds id
  | .both c c', id => c.holds id ∧ c'.holds id
  | .either c c', id => c.holds id ∨ c'.holds id

/-- All numbers are ones that `int` can hold. -/
def Small : Clause → Prop
  | .single c => c.Small
  | .both c c' | .either c c' => c.Small ∧ c'.Small

/-- An upper bound and an equality with a number below it. -/
def EqualsBelow : Clause → Prop
  | .both c c' => (c.sign = .lt ∧ (c'.number.value : Int) < c.number.value - 1 ∨
      c.sign = .le ∧ c'.number.value < c.number.value) ∧ c'.sign = .eq
  | _ => False

end Clause

/-- The comparison of an id with a closed bound. -/
def Op.holds : Op → Int → Int → Prop
  | .OP_GE, num, id => num ≤ id
  | .OP_EQ, num, id => id = num
  | .OP_LE, num, id => id ≤ num

/-- The text in front of a where clause contains no operator behind a `where` of its own. -/
def Unparsed (front : List Char) : Prop :=
  ∀ s t, front = s ++ " where ".toList ++ t → ∀ ch ∈ t, ch ≠ '>' ∧ ch ≠ '=' ∧ ch ≠ '<'

section Meaning

variable {op op' : Op} {num x id : Int} {conn : Bool} {res : Condition}

theorem int_eq (h : -2 ^ 31 ≤ x) (h' : x < 2 ^ 31) : int x = x := by
  unfold int toInt32
  split <;> omega

/-- A comparison says the same as the operator and bound that the parser makes of it. -/
theorem Comparison.holds_iff (c : Comparison) (id : Int) :
    c.holds id ↔ c.sign.op.holds c.bound id := by
  unfold Comparison.holds Comparison.bound
  cases c.sign <;> simp only [Sign.holds, Sign.op, Sign.bound, Op.holds] <;> omega

/-- The condition after one operator describes its ids. -/
theorem describes_first : (first op num res).describes id ↔ op.holds num id := by
  cases op with
  | OP_EQ => exact beq_iff_eq
  | OP_GE => exact decide_eq_true_iff
  | OP_LE => exact decide_eq_true_iff

/-- The condition after two operators describes the ids of both or either comparison, unless an
equality follows an upper bound above it. -/
theorem describes_second (hnum : op = .OP_LE → int (num + 1) = num + 1)
    (hx : op' = .OP_LE → int (x + 1) = x + 1)
    (hslip : ¬ (op = .OP_LE ∧ conn = true ∧ op' = .OP_EQ ∧ x < num)) :
    (second op num conn op' x res).describes id ↔
      if conn then op.holds num id ∧ op'.holds x id else op.holds num id ∨ op'.holds x id := by
  cases op' <;> cases op <;> cases conn <;>
    simp only [second, hnum, hx] <;> (try split) <;> (try split) <;>
    simp [Condition.describes, Op.holds] at * <;> omega

/-- That equality is replaced by one with the upper bound. -/
theorem describes_slip (h : x < num) :
    (second .OP_LE num true .OP_EQ x res).describes num = true ∧
      ¬ (Op.holds .OP_LE num num ∧ Op.holds .OP_EQ x num) := by
  have hle : ¬ x > num := by omega
  refine ⟨?_, fun ⟨_, heq⟩ ↦ ?_⟩
  · simp only [second, if_neg hle, Condition.describes, beq_self_eq_true]
  · simp only [Op.holds] at heq
    omega

end Meaning

section Scanning

variable {sql tail : List Char} {ch : Char}

/-- A character that is no operator. -/
def Passive (ch : Char) : Prop := ch ≠ '>' ∧ ch ≠ '=' ∧ ch ≠ '<'

/-- The characters of a text are no operators when a run over it meets none. -/
theorem passive_of_all {l : List Char}
    (h : l.all (fun ch ↦ ch != '>' && ch != '=' && ch != '<') = true) : ∀ ch ∈ l, Passive ch := by
  intro ch hch
  have := List.all_eq_true.mp h ch hch
  simp only [Bool.and_eq_true, bne_iff_ne] at this
  exact ⟨this.1.1, this.1.2, this.2⟩

private theorem sign_text (s : Sign) :
    ∀ ch ∈ s.text, digit ch = false ∧ (ch != 'a' && ch != 'o') = true := by
  cases s <;> simp only [Sign.text, List.forall_mem_cons,
      List.not_mem_nil, false_implies, implies_true] <;> decide

private theorem digit_digitChar (d : Fin 10) : digit (Nat.digitChar d.val) = true := by
  revert d
  decide

private theorem toNat_digitChar (d : Fin 10) :
    ((Nat.digitChar d.val).toNat : Int) - '0'.toNat = d.val := by
  revert d
  decide

private theorem foldl_le (ds : List (Fin 10)) (v : Nat) :
    v ≤ ds.foldl (fun v d ↦ 10 * v + d.val) v := by
  induction ds generalizing v with
  | nil => exact Nat.le_refl v
  | cons d ds ih => exact Nat.le_trans (by omega) (ih (10 * v + d.val))

/-- Reading digits gives the number that they denote, while it fits an `int`. -/
private theorem foldl_digits (ds : List (Fin 10)) (v : Nat)
    (h : ds.foldl (fun v d ↦ 10 * v + d.val) v < 2 ^ 31) :
    (ds.map fun d ↦ Nat.digitChar d.val).foldl
        (fun res ch ↦ int (res * 10 + ch.toNat - '0'.toNat)) (v : Int) =
      (ds.foldl (fun v d ↦ 10 * v + d.val) v : Nat) := by
  induction ds generalizing v with
  | nil => rfl
  | cons d ds ih =>
    have hle := foldl_le ds (10 * v + d.val)
    rw [List.foldl_cons] at h
    have hd := toNat_digitChar d
    have hstep : int ((v : Int) * 10 + (Nat.digitChar d.val).toNat - '0'.toNat) =
        ((10 * v + d.val : Nat) : Int) := by
      have hval : (v : Int) * 10 + (Nat.digitChar d.val).toNat - '0'.toNat =
          ((10 * v + d.val : Nat) : Int) := by omega
      rw [hval]
      exact int_eq (by omega) (by omega)
    rw [List.map_cons, List.foldl_cons, List.foldl_cons, hstep]
    exact ih _ h

private theorem dropWhile_eq {p : Char → Bool} {body : List Char}
    (hbody : ∀ ch ∈ body, p ch = true) (htail : ∀ ch, tail.head? = some ch → p ch = false) :
    (body ++ tail).dropWhile p = tail := by
  rw [List.dropWhile_append_of_pos hbody]
  cases tail with
  | nil => rfl
  | cons ch tail => rw [List.dropWhile_cons_of_neg (by simp [htail ch rfl])]

private theorem takeWhile_eq {p : Char → Bool} {body : List Char}
    (hbody : ∀ ch ∈ body, p ch = true) (htail : ∀ ch, tail.head? = some ch → p ch = false) :
    (body ++ tail).takeWhile p = body := by
  rw [List.takeWhile_append_of_pos hbody]
  cases tail with
  | nil => simp
  | cons ch tail => rw [List.takeWhile_cons_of_neg (by simp [htail ch rfl]), List.append_nil]

namespace Numeral

theorem digit_text (n : Numeral) : ∀ ch ∈ n.text, digit ch = true := by
  intro ch hch
  obtain ⟨d, _, rfl⟩ := List.mem_map.mp hch
  exact digit_digitChar d

theorem text_ne_nil (n : Numeral) : n.text ≠ [] := by
  simpa [text] using n.ne_nil

private theorem head_text (n : Numeral) (tail : List Char) :
    ∃ ch, (n.text ++ tail).head? = some ch ∧ digit ch = true := by
  obtain ⟨ch, rest, hcons⟩ := List.exists_cons_of_ne_nil n.text_ne_nil
  refine ⟨ch, by rw [hcons]; rfl, n.digit_text ch ?_⟩
  rw [hcons]
  exact List.mem_cons_self

/-- The number behind characters that are no digits. -/
private theorem str2int_text (n : Numeral) {lead : List Char}
    (hlead : ∀ ch ∈ lead, digit ch = false)
    (htail : ∀ ch, tail.head? = some ch → digit ch = false) (hn : n.value < 2 ^ 31) :
    str2int (lead ++ n.text ++ tail) = some (n.value : Int) := by
  obtain ⟨ch, hhead, hdigit⟩ := n.head_text tail
  have hdrop : (lead ++ n.text ++ tail).dropWhile (fun ch ↦ !digit ch) = n.text ++ tail := by
    rw [List.append_assoc]
    refine dropWhile_eq (fun ch hch ↦ by rw [hlead ch hch]; rfl) fun ch' hch' ↦ ?_
    rw [hhead, Option.some.injEq] at hch'
    rw [← hch', hdigit]
    rfl
  have htake : (n.text ++ tail).takeWhile digit = n.text := takeWhile_eq n.digit_text htail
  unfold str2int
  rw [hdrop, htake]
  have hval := foldl_digits n.digits 0 hn
  cases htext : n.text with
  | nil => exact absurd htext n.text_ne_nil
  | cons d ds =>
    change some _ = _
    rw [← htext]
    exact congrArg some hval

end Numeral

namespace Comparison

/-- The comparison from its sign on. -/
def fromSign (c : Comparison) : List Char :=
  c.sign.text ++ List.replicate c.after ' ' ++ c.number.text

theorem text_eq (c : Comparison) :
    c.text = "id".toList ++ List.replicate c.before ' ' ++ c.fromSign := by
  unfold text fromSign
  simp only [List.append_assoc]

theorem digit_lead (c : Comparison) :
    ∀ ch ∈ c.sign.text ++ List.replicate c.after ' ', digit ch = false := by
  intro ch hch
  rcases List.mem_append.mp hch with hch | hch
  · exact (sign_text c.sign ch hch).1
  · rw [List.eq_of_mem_replicate hch]
    decide

private theorem str2int_fromSign (c : Comparison) (hc : c.Small)
    (htail : ∀ ch, tail.head? = some ch → digit ch = false) :
    str2int (c.fromSign ++ tail) = some (c.number.value : Int) :=
  c.number.str2int_text c.digit_lead htail (by unfold Small at hc; omega)

variable (tail) in
/-- No equality sign follows a strict sign. -/
private theorem head_after (c : Comparison) :
    (List.replicate c.after ' ' ++ c.number.text ++ tail).head? ≠ some '=' := by
  cases c.after with
  | zero =>
    obtain ⟨ch, hhead, hdigit⟩ := c.number.head_text tail
    rw [List.replicate_zero, List.nil_append, hhead, ne_eq, Option.some.injEq]
    rintro rfl
    exact absurd hdigit (by decide)
  | succ k =>
    rw [List.replicate_succ, List.cons_append, List.cons_append, List.head?_cons, ne_eq,
      Option.some.injEq]
    decide

/-- The loop to the operator stops at the sign of a comparison. -/
private theorem findOp_fromSign (c : Comparison) (hc : c.Small)
    (htail : ∀ ch, tail.head? = some ch → digit ch = false) :
    findOp (c.fromSign ++ tail) = some (some (c.sign.op, c.bound, c.fromSign ++ tail)) := by
  have hnum := c.str2int_fromSign hc htail
  have hafter := c.head_after tail
  have hlt : int ((c.number.value : Int) + 1) = c.number.value + 1 := by
    unfold Small at hc
    exact int_eq (by omega) (by omega)
  have hgt : int ((c.number.value : Int) - 1) = c.number.value - 1 := by
    unfold Small at hc
    exact int_eq (by omega) (by omega)
  have hsame : int (c.number.value : Int) = c.number.value := by
    unfold Small at hc
    exact int_eq (by omega) (by omega)
  unfold fromSign bound at *
  simp only [List.append_assoc] at hnum hafter ⊢
  generalize List.replicate c.after ' ' ++ (c.number.text ++ tail) = rest at hnum hafter ⊢
  cases hs : c.sign with
  | gt =>
    simp only [hs, Sign.text, List.cons_append, List.nil_append] at hnum ⊢
    simp [findOp, hnum, hafter, Sign.op, Sign.bound, hlt]
  | ge =>
    simp only [hs, Sign.text, List.cons_append, List.nil_append] at hnum ⊢
    simp [findOp, hnum, Sign.op, Sign.bound, hsame]
  | lt =>
    simp only [hs, Sign.text, List.cons_append, List.nil_append] at hnum ⊢
    simp [findOp, hnum, hafter, Sign.op, Sign.bound, hgt]
  | le =>
    simp only [hs, Sign.text, List.cons_append, List.nil_append] at hnum ⊢
    simp [findOp, hnum, Sign.op, Sign.bound, hsame]
  | eq =>
    simp only [hs, Sign.text, List.cons_append, List.nil_append] at hnum ⊢
    simp [findOp, hnum, Sign.op, Sign.bound]

end Comparison

private theorem findOp_skip {body : List Char} (hbody : ∀ ch ∈ body, Passive ch) :
    findOp (body ++ tail) = findOp tail := by
  induction body with
  | nil => rfl
  | cons ch body ih =>
    obtain ⟨h₁, h₂, h₃⟩ := hbody ch List.mem_cons_self
    rw [List.cons_append, findOp, if_neg h₁, if_neg h₂, if_neg h₃]
    exact ih fun ch' hch' ↦ hbody ch' (List.mem_cons_of_mem ch hch')

/-- In front of the sign of a comparison there is no operator. -/
theorem Comparison.passive_lead (c : Comparison) {body : List Char}
    (hbody : ∀ ch ∈ body, Passive ch) :
    ∀ ch ∈ body ++ ("id".toList ++ List.replicate c.before ' '), Passive ch := by
  have hid : ∀ ch ∈ "id".toList, Passive ch := passive_of_all (by decide)
  intro ch hch
  rcases List.mem_append.mp hch with hch | hch
  · exact hbody ch hch
  · rcases List.mem_append.mp hch with hch | hch
    · exact hid ch hch
    · rw [List.eq_of_mem_replicate hch]
      unfold Passive
      decide

/-- The loop to the operator, from the id of a comparison on. -/
private theorem findOp_text (c : Comparison) (hc : c.Small)
    (htail : ∀ ch, tail.head? = some ch → digit ch = false) {body : List Char}
    (hbody : ∀ ch ∈ body, Passive ch) :
    findOp (body ++ (c.text ++ tail)) =
      some (some (c.sign.op, c.bound, c.fromSign ++ tail)) := by
  have hlead := c.passive_lead hbody
  rw [c.text_eq, List.append_assoc, ← List.append_assoc body, findOp_skip hlead]
  exact c.findOp_fromSign hc htail

/-- No character of a comparison from its sign on starts a connective. -/
theorem Comparison.fromSign_plain (c : Comparison) :
    ∀ ch ∈ c.fromSign, (ch != 'a' && ch != 'o') = true := by
  have hdigit : ∀ d : Fin 10,
      (Nat.digitChar d.val != 'a' && Nat.digitChar d.val != 'o') = true := by
    decide
  intro ch hch
  unfold Comparison.fromSign at hch
  rcases List.mem_append.mp hch with hch | hch
  · rcases List.mem_append.mp hch with hch | hch
    · exact (sign_text c.sign ch hch).2
    · rw [List.eq_of_mem_replicate hch]
      decide
  · obtain ⟨d, _, rfl⟩ := List.mem_map.mp hch
    exact hdigit d

/-- The loop to the connective runs over a comparison. -/
private theorem findConn_fromSign (c : Comparison) (tail : List Char) :
    findConn (c.fromSign ++ tail) = findConn tail := by
  unfold findConn
  rw [List.dropWhile_append_of_pos c.fromSign_plain]

/-- The loop to the `where` ends in front of the clause, or earlier with no operator between. -/
theorem findWhere_append {front : List Char} (h : Unparsed front) (body : List Char) :
    ∃ t, findWhere (front ++ " where ".toList ++ body) = t ++ body ∧ ∀ ch ∈ t, Passive ch := by
  have hwhere : ∀ ch ∈ " where ".toList, Passive ch := passive_of_all (by decide)
  induction front with
  | nil => exact ⟨[' '], rfl, fun ch hch ↦ hwhere ch (by rw [List.mem_singleton.mp hch]; decide)⟩
  | cons ch front ih =>
    rw [List.cons_append, List.cons_append, findWhere]
    split
    · next hfound =>
      refine ⟨(front ++ " where ".toList).drop 5, ?_, ?_⟩
      · rw [List.drop_append_of_le_length]
        rw [List.length_append]
        exact Nat.le_trans (by decide) (Nat.le_add_left " where ".toList.length _)
      · intro ch' hch'
        rw [List.drop_append] at hch'
        rcases List.mem_append.mp hch' with hch' | hch'
        · by_cases hlen : " where ".toList.length ≤ (ch :: front).length
          · obtain ⟨t, ht⟩ := List.prefix_of_prefix_length_le (List.isPrefixOf_iff_prefix.mp hfound)
              ⟨" where ".toList ++ body, by simp⟩ hlen
            have hfront : front = 'w' :: 'h' :: 'e' :: 'r' :: 'e' :: ' ' :: t :=
              (List.cons.inj ht).2.symm
            rw [hfront] at hch'
            rcases List.mem_cons.mp hch' with rfl | hch'
            · exact hwhere ' ' (by decide)
            · exact h [] t (by rw [← ht]; rfl) ch' hch'
          · have hshort : front.length + 1 < 7 := Nat.not_le.mp hlen
            rw [List.drop_eq_nil_of_le (by omega)] at hch'
            cases hch'
        · exact hwhere ch' (List.mem_of_mem_drop hch')
    · refine ih fun s t hst ↦ h (ch :: s) t ?_
      rw [hst]
      rfl

end Scanning

namespace Clause

variable {res : Condition} {front : List Char}

/-- The condition that the branches of the parser make of a clause. -/
def parsed (res : Condition) : Clause → Condition
  | .single c => first c.sign.op c.bound res
  | .both c c' => second c.sign.op c.bound true c'.sign.op c'.bound (first c.sign.op c.bound res)
  | .either c c' => second c.sign.op c.bound false c'.sign.op c'.bound (first c.sign.op c.bound res)

/-- Parsing two comparisons with a connective between them. -/
private theorem parse_two (hfront : Unparsed front) {c c' : Comparison} (hc : c.Small)
    (hc' : c'.Small) {conn : Bool} {word body : List Char}
    (hword : ∀ tail, findConn (' ' :: (word ++ tail)) = some (conn, body ++ tail))
    (hbody : ∀ ch ∈ body, Passive ch) :
    conditionParse (front ++ " where ".toList ++ (c.text ++ ' ' :: (word ++ c'.text))) res =
      some (second c.sign.op c.bound conn c'.sign.op c'.bound (first c.sign.op c.bound res)) := by
  obtain ⟨t, ht, hpassive⟩ := findWhere_append hfront (c.text ++ ' ' :: (word ++ c'.text))
  have hblank : ∀ tail : List Char, ∀ ch, (' ' :: tail).head? = some ch → digit ch = false := by
    intro tail ch hch
    cases hch
    decide
  have hend : ∀ ch, ([] : List Char).head? = some ch → digit ch = false := by
    intro ch hch
    cases hch
  have hfirst := findOp_text c hc (hblank (word ++ c'.text)) hpassive
  have hsecond := findOp_text c' hc' hend hbody
  rw [List.append_nil] at hsecond
  unfold conditionParse
  rw [ht, hfirst]
  simp only [Option.bind_eq_bind, Option.bind_some, findConn_fromSign, hword, hsecond,
    Option.pure_def]

/-- Parsing reaches the branches of the clause. -/
theorem conditionParse_text (hfront : Unparsed front) (clause : Clause) (hsmall : clause.Small) :
    conditionParse (front ++ " where ".toList ++ clause.text) res = some (clause.parsed res) := by
  cases clause with
  | single c =>
    obtain ⟨t, ht, hpassive⟩ := findWhere_append hfront c.text
    have hfirst : findOp (t ++ (c.text ++ [])) = _ :=
      findOp_text c hsmall (fun ch hch ↦ by cases hch) hpassive
    rw [List.append_nil] at hfirst
    have hconn : findConn (c.fromSign ++ []) = none := findConn_fromSign c []
    unfold conditionParse text
    rw [ht, hfirst]
    simp only [Option.bind_eq_bind, Option.bind_some, hconn]
    rfl
  | both c c' =>
    have htext : (both c c').text = c.text ++ ' ' :: ("and ".toList ++ c'.text) :=
      List.append_assoc ..
    have hword : ∀ tail, findConn (' ' :: ("and ".toList ++ tail)) =
        some (true, "and ".toList ++ tail) := fun _ ↦ rfl
    have hbody : ∀ ch ∈ "and ".toList, Passive ch := passive_of_all (by decide)
    rw [htext]
    exact parse_two hfront hsmall.1 hsmall.2 hword hbody
  | either c c' =>
    have htext : (either c c').text = c.text ++ ' ' :: ("or ".toList ++ c'.text) :=
      List.append_assoc ..
    have hword : ∀ tail, findConn (' ' :: ("or ".toList ++ tail)) =
        some (false, "or ".toList ++ tail) := fun _ ↦ rfl
    have hbody : ∀ ch ∈ "or ".toList, Passive ch := passive_of_all (by decide)
    rw [htext]
    exact parse_two hfront hsmall.1 hsmall.2 hword hbody

/-- An upper bound can be increased. -/
private theorem bound_succ {c : Comparison} (hc : c.Small) (hop : c.sign.op = .OP_LE) :
    int (c.bound + 1) = c.bound + 1 := by
  obtain ⟨sign, _, _, n⟩ := c
  unfold Comparison.Small at hc
  unfold Comparison.bound
  cases sign <;> simp only [Sign.op, reduceCtorEq] at hop <;>
    exact int_eq (by simp only [Sign.bound]; omega) (by simp only [Sign.bound] at *; omega)

/-- The clauses that the parser misreads, in terms of operators and bounds. -/
theorem equalsBelow_iff (c c' : Comparison) : (both c c').EqualsBelow ↔
    c.sign.op = .OP_LE ∧ c'.sign.op = .OP_EQ ∧ c'.bound < c.bound := by
  obtain ⟨sign, _, _, n⟩ := c
  obtain ⟨sign', _, _, m⟩ := c'
  cases sign <;> cases sign' <;> simp [EqualsBelow, Comparison.bound, Sign.op, Sign.bound]

/-- A parsed clause describes the ids that satisfy it, unless it consists of an upper bound and an
equality below it. -/
theorem describes_parsed {clause : Clause} (hsmall : clause.Small) (h : ¬ clause.EqualsBelow)
    (id : Int) : (clause.parsed res).describes id ↔ clause.holds id := by
  cases clause with
  | single c => exact describes_first.trans (c.holds_iff id).symm
  | both c c' =>
    have hslip := mt (equalsBelow_iff c c').mpr h
    simp only [holds, Comparison.holds_iff]
    exact describes_second (bound_succ hsmall.1) (bound_succ hsmall.2)
      fun ⟨hop, _, hop', hlt⟩ ↦ hslip ⟨hop, hop', hlt⟩
  | either c c' =>
    simp only [holds, Comparison.holds_iff]
    exact describes_second (bound_succ hsmall.1) (bound_succ hsmall.2)
      fun ⟨_, hconn, _⟩ ↦ Bool.false_ne_true hconn

/-- What the parser makes of a where clause denotes the ids that satisfy it, exactly when the
clause does not consist of an upper bound and an equality below it. -/
theorem conditionParse_denotes_iff (hfront : Unparsed front) (clause : Clause)
    (hsmall : clause.Small) :
    (∃ con, conditionParse (front ++ " where ".toList ++ clause.text) res = some con ∧
      ∀ id, con.describes id = true ↔ clause.holds id) ↔ ¬ clause.EqualsBelow := by
  rw [conditionParse_text hfront clause hsmall]
  constructor
  · rintro ⟨con, hcon, hdescribes⟩ hslip
    rw [Option.some.injEq] at hcon
    subst hcon
    cases clause with
    | single c => exact hslip
    | either c c' => exact hslip
    | both c c' =>
      obtain ⟨hop, hop', hlt⟩ := (equalsBelow_iff c c').mp hslip
      obtain ⟨hyes, hno⟩ := @describes_slip _ _ (first c.sign.op c.bound res) hlt
      have hholds := (hdescribes c.bound).mp (by
        simp only [parsed, hop, hop'] at hyes ⊢
        exact hyes)
      simp only [holds, Comparison.holds_iff, hop, hop'] at hholds
      exact hno hholds
  · intro h
    exact ⟨_, rfl, fun id ↦ describes_parsed hsmall h id⟩

/-- The clause of `select * from table where id > 500 and id <999`. -/
def between : Clause :=
  .both ⟨.gt, 1, 1, ⟨[5, 0, 0], by decide⟩⟩ ⟨.lt, 1, 0, ⟨[9, 9, 9], by decide⟩⟩

/-- The parser makes of this statement a condition that denotes its ids. -/
theorem between_denoted :
    ∃ con, conditionParse ("select * from table".toList ++ " where ".toList ++ between.text)
        ⟨0, 0, .RES_BAD⟩ = some con ∧
      ∀ id, con.describes id = true ↔ between.holds id := by
  have hfront : Unparsed "select * from table".toList := by
    intro s t hst
    exact absurd ⟨s, t, hst.symm⟩ (by decide : ¬ " where ".toList <:+: "select * from table".toList)
  have hsmall : between.Small := by
    constructor <;> (unfold Comparison.Small; decide)
  refine (conditionParse_denotes_iff hfront between hsmall).mpr ?_
  rintro ⟨_, heq⟩
  cases heq

/-- The clause `id < 10 and id = 3`. -/
def belowAndEqual : Clause :=
  .both ⟨.lt, 1, 1, ⟨[1, 0], by decide⟩⟩ ⟨.eq, 1, 1, ⟨[3], by decide⟩⟩

/-- The parser makes `id = 9` of it. -/
theorem belowAndEqual_misread :
    conditionParse "select * from table where id < 10 and id = 3".toList ⟨0, 0, .RES_BAD⟩ =
        some ⟨9, 0, .RES_EQ_FIRST⟩ ∧
      ¬ ∃ con, conditionParse
          ("select * from table".toList ++ " where ".toList ++ belowAndEqual.text)
          ⟨0, 0, .RES_BAD⟩ = some con ∧
        ∀ id, con.describes id = true ↔ belowAndEqual.holds id := by
  have htext : "select * from table".toList ++ " where ".toList ++ belowAndEqual.text =
      "select * from table where id < 10 and id = 3".toList := by
    decide
  have hparse : conditionParse "select * from table where id < 10 and id = 3".toList
      ⟨0, 0, .RES_BAD⟩ = some ⟨9, 0, .RES_EQ_FIRST⟩ := by
    decide +kernel
  rw [htext, hparse]
  refine ⟨rfl, ?_⟩
  rintro ⟨con, hcon, hdescribes⟩
  rw [Option.some.injEq] at hcon
  subst hcon
  have hnine : belowAndEqual.holds 9 := (hdescribes 9).mp rfl
  exact absurd hnine.2 (by simp [Comparison.holds, Sign.holds, Numeral.value])

end Clause

end ExampleEngine.Matu
