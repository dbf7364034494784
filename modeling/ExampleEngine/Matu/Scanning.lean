import ExampleEngine.Matu.Parsing

/-!
# Scanning statements

Library `Matu`. Models `conditionParse` of `src/lib/matu.h:101–345` once more, by positions, with
every read and every sum that the parser of `Parsing` takes for granted. The search for a digit
has no bound of its own, digits are added up without a look at the range of `int`, and a statement
without an operator leaves the condition as it was found.
-/

namespace ExampleEngine.Matu

open ExampleEngine.Storage

/-- The flag says something about the ids from or at `a`; `src/lib/matu.h:88–99`. -/
def ResFlag.usesA : ResFlag → Bool
  | .RES_BAD | .RES_ALL => false
  | _ => true

/-- The flag says something about the ids from or at `b`; `src/lib/matu.h:88–99`. -/
def ResFlag.usesB : ResFlag → Bool
  | .RES_EQ_BOTH | .RES_AND | .RES_OR | .RES_EQ_LO | .RES_EQ_HI => true
  | _ => false

/-- The conditions have one flag and, as far as it uses them, the same numbers. -/
structure Condition.Agrees (con con' : Condition) : Prop where
  flag : con.flag = con'.flag
  a : con.flag.usesA = true → con.a = con'.a
  b : con.flag.usesB = true → con.b = con'.b

namespace Scan

/-- A step that the language does not define. -/
inductive ScanFault where
  /-- A read behind the character that terminates the string. -/
  | beyond
  /-- A result that `int` does not hold. -/
  | overflow
  deriving DecidableEq, Repr

/-- The character that terminates a string. -/
def nul : Char := Char.ofNat 0

/-- A sum or product of type `int`. -/
def checked (x : Int) : Except ScanFault Int :=
  if -2 ^ 31 ≤ x ∧ x < 2 ^ 31 then .ok x else .error .overflow

/-- `sql[i]` where `i` is computed in `int`. -/
def charAt (sql : List Char) (i : Nat) : Except ScanFault Char :=
  if 2 ^ 31 ≤ i then .error .overflow
  else if sql.length < i then .error .beyond
  else .ok (sql.getD i nul)

/-- Comparison with a text from a position on, up to the first difference. -/
def matchesAt (sql : List Char) : List Char → Nat → Except ScanFault Bool
  | [], _ => .ok true
  | ch :: rest, i => do
    let ch' ← charAt sql i
    if ch' = ch then matchesAt sql rest (i + 1) else return false

/-- The loop to the space behind the first `where`, with `n` turns to go;
`src/lib/matu.h:124–131`. -/
def whereLoop (sql : List Char) : Nat → Nat → Except ScanFault Nat
  | 0, start => return start
  | n + 1, start => do
    if ← matchesAt sql " where ".toList (start - 1) then return start + 5
    else whereLoop sql n (start + 1)

/-- The loop to the first digit. It has no bound, but every turn reads another character;
`src/lib/matu.h:103`. -/
def digitLoop (sql : List Char) : Nat → Nat → Except ScanFault Nat
  | 0, _ => .error .beyond
  | n + 1, i => do
    let ch ← charAt sql i
    if digit ch then return i else digitLoop sql n (i + 1)

/-- The loop over the digits; `src/lib/matu.h:104–107`. -/
def numberLoop (sql : List Char) : Nat → Nat → Int → Except ScanFault Int
  | 0, _, _ => .error .beyond
  | n + 1, i, res => do
    let ch ← charAt sql i
    if digit ch then
      let res ← checked (res * 10)
      let res ← checked (res + ch.toNat)
      let res ← checked (res - '0'.toNat)
      numberLoop sql n (i + 1) res
    else return res

/-- `str2int`; `src/lib/matu.h:101–109`. -/
def str2int (sql : List Char) (i : Nat) : Except ScanFault Int := do
  let i ← digitLoop sql (sql.length + 1) i
  numberLoop sql (sql.length + 1) i 0

/-- The loops to the first operator, with `n` turns to go; `src/lib/matu.h:132–153,170–340`. -/
def opLoop (sql : List Char) : Nat → Nat → Except ScanFault (Option (Op × Int × Nat))
  | 0, _ => return none
  | n + 1, start => do
    let ch ← charAt sql start
    if ch = '>' then
      let num ← str2int sql start
      let next ← charAt sql (start + 1)
      let num ← checked (num + if next = '=' then 0 else 1)
      return some (.OP_GE, num, start)
    else if ch = '=' then
      let num ← str2int sql start
      return some (.OP_EQ, num, start)
    else if ch = '<' then
      let num ← str2int sql start
      let next ← charAt sql (start + 1)
      let num ← checked (num - if next = '=' then 0 else 1)
      return some (.OP_LE, num, start)
    else opLoop sql n (start + 1)

/-- The connective, `true` for `and`, with `n` turns to go; `src/lib/matu.h:155–164`. -/
def connLoop (sql : List Char) : Nat → Nat → Except ScanFault (Option (Bool × Nat))
  | 0, _ => return none
  | n + 1, start => do
    let ch ← charAt sql start
    if ch ≠ 'a' ∧ ch ≠ 'o' then connLoop sql n (start + 1)
    else if ← matchesAt sql "and".toList start then return some (true, start)
    else if ← matchesAt sql "or".toList start then return some (false, start)
    else return none

/-- The condition after the second operator, with the two sums among its branches;
`src/lib/matu.h:170–340`. -/
def second (op : Op) (num : Int) (conn : Bool) (op' : Op) (x : Int) (res : Condition) :
    Except ScanFault Condition := do
  match op', op, conn with
  | .OP_GE, .OP_LE, false => let _ ← checked (num + 1)
  | .OP_LE, .OP_GE, false => let _ ← checked (x + 1)
  | _, _, _ => pure ()
  return Matu.second op num conn op' x res

/-- `conditionParse`, where the fields of `res` start with any values. Without a first operator
`start` has passed the end and none of the other loops runs; `src/lib/matu.h:118–345`. -/
def conditionParse (sql : List Char) (res : Condition) : Except ScanFault Condition := do
  let len := int sql.length
  let start ← whereLoop sql (len - 1).toNat 1
  match ← opLoop sql (len - start).toNat start with
  | none => return res
  | some (op, num, start) =>
    let res := first op num res
    match ← connLoop sql (len - start).toNat start with
    | none => return res
    | some (conn, start) =>
      match ← opLoop sql (len - start).toNat start with
      | none => return res
      | some (op', x, _) => second op num conn op' x res

/-- The statement is parsed without a fault, and the condition does not depend on what its fields
held before. -/
def Safe (sql : List Char) : Prop :=
  ∀ res res', ∃ con con', conditionParse sql res = .ok con ∧ conditionParse sql res' = .ok con' ∧
    con.Agrees con'

/-- The characters that the loops up to `len` run over. -/
def body (sql : List Char) : List Char := sql.take (int sql.length).toNat

/-- The characters at the positions of an `int`, the terminating one among them. -/
def window (sql : List Char) : List Char := (sql ++ [nul]).take (2 ^ 31)

/-- The characters behind those that the loops run over. -/
def tail (sql : List Char) : List Char := (window sql).drop (int sql.length).toNat

/-- The text from its first operator on. -/
def fromOp (text : List Char) : List Char :=
  text.dropWhile fun ch ↦ ch != '>' && ch != '=' && ch != '<'

/-- The text from its first `a` or `o` on. -/
def fromConn (text : List Char) : List Char := text.dropWhile fun ch ↦ ch != 'a' && ch != 'o'

/-- The text from its first digit on. -/
def fromDigit (text : List Char) : List Char := text.dropWhile fun ch ↦ !digit ch

/-- The number that digits denote, with a number in front of them. -/
def decimal (v : Nat) (digits : List Char) : Nat :=
  digits.foldl (fun v ch ↦ 10 * v + (ch.toNat - '0'.toNat)) v

/-- The first number in the text. -/
def number (text : List Char) : Nat := decimal 0 ((fromDigit text).takeWhile digit)

/-- The text contains a number that ends before the text does. The code of its last digit is added
before that of `0` is subtracted, and `int` holds the sum. -/
structure Numbered (text : List Char) : Prop where
  found : fromDigit text ≠ []
  ended : (fromDigit text).dropWhile digit ≠ []
  bounded : number text + '0'.toNat < 2 ^ 31

/-- The text starts with a connective. -/
def Connected (text : List Char) : Prop := "and".toList <+: text ∨ "or".toList <+: text

/-- A number follows the first operator behind the first `where`, and another one the second
operator, if there is one behind a connective. The third conjunct is about the last position of an
`int`, which a statement of that length may reach amid an `and`. -/
def Readable (sql : List Char) : Prop :=
  let op := fromOp (findWhere (body sql))
  let conn := fromConn op
  op ≠ [] ∧ Numbered (op ++ tail sql) ∧ ¬ (conn = ['a'] ∧ tail sql = ['n']) ∧
    (Connected (conn ++ tail sql) → fromOp conn ≠ [] → Numbered (fromOp conn ++ tail sql))

section Reads

variable {sql text rest pat : List Char} {ch : Char} {i n : Nat} {b : Bool}

theorem bind_ok {α β : Type} {x : Except ScanFault α} {f : α → Except ScanFault β} {r : β}
    (h : x >>= f = .ok r) : ∃ a, x = .ok a ∧ f a = .ok r := by
  cases x with
  | error e => cases h
  | ok a => exact ⟨a, rfl, h⟩

theorem ok_bind {α β : Type} {x : Except ScanFault α} {f : α → Except ScanFault β} {a : α}
    (h : x = .ok a) : (x >>= f) = f a := by
  rw [h]
  rfl

theorem charAt_of_cons (h : (window sql).drop i = ch :: text) : charAt sql i = .ok ch := by
  have hget : (window sql)[i]? = some ch := by rw [← List.head?_drop, h, List.head?_cons]
  unfold window at hget
  rw [List.getElem?_take] at hget
  split at hget
  · next hi =>
    obtain ⟨hlen, hch⟩ := List.getElem?_eq_some_iff.mp hget
    rw [List.length_append, List.length_singleton] at hlen
    have hwithin : ¬ 2 ^ 31 ≤ i := by omega
    have hle : ¬ sql.length < i := by omega
    rw [charAt, if_neg hwithin, if_neg hle, List.getD_eq_getElem?_getD]
    rcases Nat.lt_or_ge i sql.length with hlt | hge
    · rw [List.getElem_append_left hlt] at hch
      rw [List.getElem?_eq_getElem hlt, hch, Option.getD_some]
    · rw [List.getElem_append_right hge, List.getElem_singleton] at hch
      rw [List.getElem?_eq_none hge, Option.getD_none, hch]
  · cases hget

/-- A read finds a character of the window. -/
theorem cons_of_charAt (h : charAt sql i = .ok ch) :
    ∃ text, (window sql).drop i = ch :: text := by
  cases hdrop : (window sql).drop i with
  | nil =>
    rw [List.drop_eq_nil_iff, window, List.length_take, List.length_append,
      List.length_singleton] at hdrop
    unfold charAt at h
    split at h
    · cases h
    · split at h
      · cases h
      · omega
  | cons ch' text =>
    rw [charAt_of_cons hdrop, Except.ok.injEq] at h
    exact ⟨text, by rw [h]⟩

theorem drop_succ (h : (window sql).drop i = ch :: text) :
    (window sql).drop (i + 1) = text := by
  rw [← List.drop_drop, h, List.drop_one, List.tail_cons]

theorem length_le (h : (window sql).drop i = text) : text.length ≤ sql.length + 1 := by
  rw [← h, List.length_drop, window, List.length_take, List.length_append, List.length_singleton]
  omega

private theorem checked_eq {x : Int} (h : -2 ^ 31 ≤ x) (h' : x < 2 ^ 31) : checked x = .ok x :=
  if_pos ⟨h, h'⟩

private theorem checked_ok {x y : Int} (h : checked x = .ok y) : y = x ∧ x < 2 ^ 31 := by
  unfold checked at h
  split at h
  · next hx =>
    cases h
    exact ⟨rfl, hx.2⟩
  · cases h

/-- A comparison that is decided before the window ends. -/
theorem matchesAt_eq (h : (window sql).drop i = text)
    (hends : text <+: pat → pat.length ≤ text.length) :
    matchesAt sql pat i = .ok (pat.isPrefixOf text) := by
  induction pat generalizing i text with
  | nil => rw [matchesAt, List.isPrefixOf_nil_left]
  | cons ch pat ih =>
    cases text with
    | nil => exact absurd (hends List.nil_prefix) (Nat.not_succ_le_zero pat.length)
    | cons ch' text =>
      rw [matchesAt, ok_bind (charAt_of_cons h)]
      split
      · next heq =>
        have hends' : text <+: pat → pat.length ≤ text.length := by
          intro hstart
          rw [heq] at hends
          exact Nat.le_of_succ_le_succ (hends ((List.prefix_cons_inj ch).mpr hstart))
        rw [ih (drop_succ h) hends', heq, List.isPrefixOf_cons_cons_self]
      · next hne =>
        have hfalse : (ch :: pat).isPrefixOf (ch' :: text) = false := by
          rw [List.isPrefixOf_cons_cons, beq_false_of_ne (Ne.symm hne), Bool.false_and]
        rw [hfalse]
        rfl

/-- What a comparison says when its reads succeed. -/
theorem matchesAt_ok (h : (window sql).drop i = text) (hok : matchesAt sql pat i = .ok b) :
    pat.isPrefixOf text = b ∧ (text <+: pat → pat.length ≤ text.length) := by
  induction pat generalizing i text with
  | nil =>
    cases hok
    exact ⟨List.isPrefixOf_nil_left, fun _ ↦ Nat.zero_le text.length⟩
  | cons ch pat ih =>
    rw [matchesAt] at hok
    obtain ⟨ch', hread, hrest⟩ := bind_ok hok
    obtain ⟨text', htext⟩ := cons_of_charAt hread
    obtain rfl : text = ch' :: text' := h.symm.trans htext
    rw [List.isPrefixOf_cons_cons]
    split at hrest
    · next heq =>
      obtain ⟨hstart, hends⟩ := ih (drop_succ htext) hrest
      rw [hstart, heq, beq_self_eq_true, Bool.true_and]
      exact ⟨rfl, fun hpre ↦ Nat.succ_le_succ (hends ((List.prefix_cons_inj ch).mp hpre))⟩
    · next hne =>
      cases hrest
      rw [beq_false_of_ne (Ne.symm hne), Bool.false_and]
      exact ⟨rfl, fun hpre ↦ absurd (List.cons_prefix_cons.mp hpre).1 hne⟩

private theorem digitLoop_eq (h : (window sql).drop i = text) (hn : text.length ≤ n)
    (hfound : fromDigit text ≠ []) :
    ∃ j, digitLoop sql n i = .ok j ∧ (window sql).drop j = fromDigit text := by
  induction text generalizing i n with
  | nil => exact absurd rfl hfound
  | cons ch text ih =>
    cases n with
    | zero => simp at hn
    | succ n =>
      rw [digitLoop, ok_bind (charAt_of_cons h)]
      rw [List.length_cons] at hn
      cases hdigit : digit ch with
      | true =>
        have hhere : fromDigit (ch :: text) = ch :: text :=
          List.dropWhile_cons_of_neg (by simp [hdigit])
        exact ⟨i, rfl, by rw [hhere, h]⟩
      | false =>
        have hskip : fromDigit (ch :: text) = fromDigit text :=
          List.dropWhile_cons_of_pos (by simp [hdigit])
        rw [hskip] at hfound ⊢
        exact ih (drop_succ h) (by omega) hfound

private theorem digitLoop_ok {j : Nat} (h : (window sql).drop i = text)
    (hok : digitLoop sql n i = .ok j) :
    fromDigit text ≠ [] ∧ (window sql).drop j = fromDigit text := by
  induction n generalizing i text with
  | zero => cases hok
  | succ n ih =>
    rw [digitLoop] at hok
    obtain ⟨ch, hread, hrest⟩ := bind_ok hok
    obtain ⟨text', htext⟩ := cons_of_charAt hread
    obtain rfl : text = ch :: text' := h.symm.trans htext
    split at hrest
    · next hdigit =>
      cases hrest
      have hhere : fromDigit (ch :: text') = ch :: text' :=
        List.dropWhile_cons_of_neg (by simp [hdigit])
      rw [hhere]
      exact ⟨List.cons_ne_nil ch text', htext⟩
    · next hdigit =>
      have hskip : fromDigit (ch :: text') = fromDigit text' :=
        List.dropWhile_cons_of_pos (by simp [hdigit])
      rw [hskip]
      exact ih (drop_succ htext) hrest

private theorem le_decimal (v : Nat) (digits : List Char) : v ≤ decimal v digits := by
  induction digits generalizing v with
  | nil => exact Nat.le_refl v
  | cons ch digits ih => exact Nat.le_trans (by omega) (ih (10 * v + (ch.toNat - '0'.toNat)))

private theorem toNat_of_digit (h : digit ch = true) : '0'.toNat ≤ ch.toNat := by
  unfold digit at h
  rw [Bool.and_eq_true, decide_eq_true_iff, decide_eq_true_iff] at h
  exact h.1

/-- One turn of the loop over the digits. -/
private theorem numberLoop_cons (h : (window sql).drop i = ch :: text) (hdigit : digit ch = true)
    {v : Nat} (hv : 10 * v + (ch.toNat - '0'.toNat) + '0'.toNat < 2 ^ 31) :
    numberLoop sql (n + 1) i v =
      numberLoop sql n (i + 1) ((10 * v + (ch.toNat - '0'.toNat) : Nat) : Int) := by
  have hch := toNat_of_digit hdigit
  have hzero : '0'.toNat = 48 := rfl
  have hval : (v : Int) * 10 + ch.toNat - '0'.toNat =
      ((10 * v + (ch.toNat - '0'.toNat) : Nat) : Int) := by omega
  rw [numberLoop, ok_bind (charAt_of_cons h), if_pos hdigit,
    ok_bind (checked_eq (by omega) (by omega)), ok_bind (checked_eq (by omega) (by omega)),
    ok_bind (checked_eq (by omega) (by omega)), hval]

private theorem numberLoop_eq {v : Nat} (h : (window sql).drop i = text) (hn : text.length ≤ n)
    (hend : text.dropWhile digit ≠ [])
    (hbound : text.takeWhile digit ≠ [] →
      decimal v (text.takeWhile digit) + '0'.toNat < 2 ^ 31) :
    numberLoop sql n i v = .ok (decimal v (text.takeWhile digit) : Nat) := by
  induction text generalizing i n v with
  | nil => exact absurd rfl hend
  | cons ch text ih =>
    cases n with
    | zero => simp at hn
    | succ n =>
      rw [List.length_cons] at hn
      cases hdigit : digit ch with
      | true =>
        rw [List.takeWhile_cons_of_pos hdigit] at hbound ⊢
        rw [List.dropWhile_cons_of_pos hdigit] at hend
        have hlt := hbound (List.cons_ne_nil _ _)
        have hle := le_decimal (10 * v + (ch.toNat - '0'.toNat)) (text.takeWhile digit)
        rw [numberLoop_cons h hdigit (Nat.lt_of_le_of_lt (Nat.add_le_add_right hle _) hlt)]
        exact ih (drop_succ h) (by omega) hend fun _ ↦ hlt
      | false =>
        rw [List.takeWhile_cons_of_neg (by simp [hdigit]), numberLoop, ok_bind (charAt_of_cons h),
          if_neg (by simp [hdigit])]
        rfl

private theorem numberLoop_ok {v : Nat} {r : Int} (h : (window sql).drop i = text)
    (hok : numberLoop sql n i v = .ok r) :
    text.dropWhile digit ≠ [] ∧
      (text.takeWhile digit ≠ [] → decimal v (text.takeWhile digit) + '0'.toNat < 2 ^ 31) := by
  induction n generalizing i text v with
  | zero => cases hok
  | succ n ih =>
    have hturn := hok
    rw [numberLoop] at hok
    obtain ⟨ch, hread, hrest⟩ := bind_ok hok
    obtain ⟨text', htext⟩ := cons_of_charAt hread
    obtain rfl : text = ch :: text' := h.symm.trans htext
    split at hrest
    · next hdigit =>
      obtain ⟨x, hx, hrest⟩ := bind_ok hrest
      obtain ⟨y, hy, hrest⟩ := bind_ok hrest
      obtain ⟨rfl, _⟩ := checked_ok hx
      obtain ⟨rfl, hlt⟩ := checked_ok hy
      have hch := toNat_of_digit hdigit
      have hzero : '0'.toNat = 48 := rfl
      have hsum : 10 * v + (ch.toNat - '0'.toNat) + '0'.toNat < 2 ^ 31 := by omega
      rw [numberLoop_cons htext hdigit hsum] at hturn
      obtain ⟨hend, hbound⟩ := ih (drop_succ htext) hturn
      rw [List.takeWhile_cons_of_pos hdigit, List.dropWhile_cons_of_pos hdigit]
      refine ⟨hend, fun _ ↦ ?_⟩
      by_cases hlast : text'.takeWhile digit = []
      · rw [hlast]
        exact hsum
      · exact hbound hlast
    · next hdigit =>
      rw [List.takeWhile_cons_of_neg hdigit, List.dropWhile_cons_of_neg hdigit]
      exact ⟨List.cons_ne_nil ch text', fun hnil ↦ absurd rfl hnil⟩

private theorem takeWhile_fromDigit (h : fromDigit text ≠ []) :
    (fromDigit text).takeWhile digit ≠ [] := by
  have hhead := List.head?_dropWhile_not (fun ch ↦ !digit ch) text
  cases hrest : fromDigit text with
  | nil => exact absurd hrest h
  | cons ch rest =>
    rw [show text.dropWhile _ = ch :: rest from hrest, List.head?_cons] at hhead
    rw [List.takeWhile_cons_of_pos (by simpa using hhead)]
    exact List.cons_ne_nil _ _

/-- A number that can be read is read as what it denotes. -/
theorem str2int_eq (h : (window sql).drop i = text) (hnum : Numbered text) :
    str2int sql i = .ok (number text : Nat) := by
  obtain ⟨j, hj, hdrop⟩ := digitLoop_eq h (length_le h) hnum.found
  rw [str2int, ok_bind hj]
  exact numberLoop_eq hdrop (length_le hdrop) hnum.ended fun _ ↦ hnum.bounded

/-- No other number is read without a fault. -/
theorem numbered_of_str2int {r : Int} (h : (window sql).drop i = text)
    (hok : str2int sql i = .ok r) : Numbered text := by
  obtain ⟨j, hj, hnumber⟩ := bind_ok hok
  obtain ⟨hfound, hdrop⟩ := digitLoop_ok h hj
  obtain ⟨hend, hbound⟩ := numberLoop_ok (v := 0) hdrop hnumber
  exact ⟨hfound, hend, hbound (takeWhile_fromDigit hfound)⟩

end Reads

section Loops

variable {sql text rest : List Char} {ch : Char} {start n : Nat}

/-- A loop stands in front of `rest`, with one turn for each of its characters. -/
private structure At (sql : List Char) (start : Nat) (rest : List Char) : Prop where
  text : (window sql).drop start = rest ++ tail sql
  turns : (int sql.length - start).toNat = rest.length

private theorem len_le (sql : List Char) :
    int sql.length < 2 ^ 31 ∧ int sql.length ≤ sql.length := by
  unfold int toInt32
  split <;> omega

private theorem At.zero (sql : List Char) : At sql 0 (body sql) := by
  obtain ⟨hlt, hle⟩ := len_le sql
  constructor
  · have hbody : body sql = (window sql).take (int sql.length).toNat := by
      unfold body window
      rw [List.take_take, Nat.min_eq_left (by omega), List.take_append_of_le_length (by omega)]
    rw [hbody, tail, List.take_append_drop, List.drop_zero]
  · unfold body
    rw [List.length_take, Nat.min_eq_left (by omega)]
    simp

private theorem tail_ne_nil (sql : List Char) : tail sql ≠ [] := by
  obtain ⟨hlt, hle⟩ := len_le sql
  unfold tail window
  rw [ne_eq, List.drop_eq_nil_iff, List.length_take, List.length_append, List.length_singleton]
  omega

private theorem At.read (h : At sql start (ch :: rest)) : charAt sql start = .ok ch :=
  charAt_of_cons h.text

private theorem At.next (h : At sql start (ch :: rest)) : At sql (start + 1) rest := by
  have hturns := h.turns
  rw [List.length_cons] at hturns
  exact ⟨drop_succ h.text, by omega⟩

private theorem At.skip (h : At sql start rest) {k : Nat} (hk : k ≤ rest.length) :
    At sql (start + k) (rest.drop k) := by
  have hturns := h.turns
  constructor
  · rw [← List.drop_drop, h.text, List.drop_append_of_le_length hk]
  · rw [List.length_drop]
    omega

private theorem findWhere_short (h : text.length < 7) : findWhere text = [] := by
  induction text with
  | nil => rfl
  | cons ch text ih =>
    rw [List.length_cons] at h
    have hnot : ¬ " where ".toList.isPrefixOf (ch :: text) = true := by
      intro hstart
      have hlen : " where ".toList.length ≤ (ch :: text).length :=
        (List.isPrefixOf_iff_prefix.mp hstart).length_le
      rw [show " where ".toList.length = 7 from rfl, List.length_cons] at hlen
      omega
    rw [findWhere, if_neg hnot]
    exact ih (by omega)

/-- A comparison that is decided in front of the tail. -/
private theorem isPrefixOf_append (pat : List Char) (h : pat.length ≤ rest.length) :
    pat.isPrefixOf (rest ++ text) = pat.isPrefixOf rest := by
  rw [Bool.eq_iff_iff, List.isPrefixOf_iff_prefix, List.isPrefixOf_iff_prefix]
  exact ⟨fun hpre ↦ List.prefix_of_prefix_length_le hpre (List.prefix_append rest text) h,
    fun hpre ↦ hpre.trans (List.prefix_append rest text)⟩

/-- The loop to the `where` that the text contains. -/
private theorem whereLoop_found (h : At sql start (ch :: rest))
    (hfound : findWhere (ch :: rest) ≠ []) :
    ∃ start', whereLoop sql rest.length (start + 1) = .ok start' ∧
      At sql start' (findWhere (ch :: rest)) := by
  induction rest generalizing ch start with
  | nil => exact absurd (findWhere_short (Nat.lt_of_sub_eq_succ rfl)) hfound
  | cons ch' rest ih =>
    have hlen : 7 ≤ (ch :: ch' :: rest).length := by
      by_contra hshort
      exact hfound (findWhere_short (by omega))
    have hmatch : matchesAt sql " where ".toList (start + 1 - 1) = _ :=
      matchesAt_eq h.text (fun _ ↦ by
        rw [List.length_append]
        exact Nat.le_trans hlen (Nat.le_add_right _ _))
    rw [isPrefixOf_append " where ".toList hlen] at hmatch
    rw [List.length_cons, whereLoop, ok_bind hmatch, findWhere]
    split
    · rw [List.length_cons] at hlen
      exact ⟨_, rfl, h.next.skip (by omega)⟩
    · next hnot =>
      rw [findWhere, if_neg hnot] at hfound
      exact ih h.next hfound

/-- Behind a `where` that the text does not contain no loop runs. -/
private theorem whereLoop_lost {start' : Nat} (h : At sql start (ch :: rest))
    (hnil : findWhere (ch :: rest) = [])
    (hok : whereLoop sql rest.length (start + 1) = .ok start') :
    (int sql.length - start').toNat = 0 := by
  induction rest generalizing ch start with
  | nil =>
    cases hok
    exact h.next.turns
  | cons ch' rest ih =>
    rw [List.length_cons, whereLoop] at hok
    obtain ⟨b, hmatch, hrest⟩ := bind_ok hok
    have hstart := (matchesAt_ok h.text hmatch).1
    have hturns := h.turns
    rw [findWhere] at hnil
    split at hnil
    · next hwhere =>
      have hlen : 7 ≤ (ch :: ch' :: rest).length :=
        (List.isPrefixOf_iff_prefix.mp hwhere).length_le
      rw [List.drop_eq_nil_iff] at hnil
      rw [List.length_cons] at hlen
      omega
    · next hnot =>
      split at hrest
      · next hb =>
        have hshort : (ch :: ch' :: rest).length < 7 := by
          by_contra hlen
          rw [isPrefixOf_append _ (Nat.le_of_not_lt hlen), hb] at hstart
          exact hnot hstart
        cases hrest
        omega
      · exact ih h.next hnil hrest

/-- The loop to the first operator. -/
private theorem opLoop_skip (h : At sql start rest) :
    ∃ start', opLoop sql rest.length start = opLoop sql (fromOp rest).length start' ∧
      At sql start' (fromOp rest) := by
  induction rest generalizing start with
  | nil => exact ⟨start, rfl, h⟩
  | cons ch rest ih =>
    by_cases hpassive : (ch != '>' && ch != '=' && ch != '<') = true
    · have hskip : fromOp (ch :: rest) = fromOp rest := List.dropWhile_cons_of_pos hpassive
      simp only [Bool.and_eq_true, bne_iff_ne] at hpassive
      obtain ⟨⟨hgt, heq⟩, hlt⟩ := hpassive
      rw [hskip, List.length_cons, opLoop, ok_bind h.read, if_neg hgt, if_neg heq, if_neg hlt]
      exact ih h.next
    · have hhere : fromOp (ch :: rest) = ch :: rest := List.dropWhile_cons_of_neg hpassive
      rw [hhere]
      exact ⟨start, rfl, h⟩

private theorem opLoop_none (h : At sql start rest) (hnil : fromOp rest = []) :
    opLoop sql rest.length start = .ok none := by
  obtain ⟨start', hskip, _⟩ := opLoop_skip h
  rw [hskip, hnil]
  rfl

private theorem findOp_fromOp (text : List Char) : findOp (fromOp text) = findOp text := by
  induction text with
  | nil => rfl
  | cons ch text ih =>
    by_cases hpassive : (ch != '>' && ch != '=' && ch != '<') = true
    · have hskip : fromOp (ch :: text) = fromOp text := List.dropWhile_cons_of_pos hpassive
      simp only [Bool.and_eq_true, bne_iff_ne] at hpassive
      obtain ⟨⟨hgt, heq⟩, hlt⟩ := hpassive
      rw [hskip, ih, findOp, if_neg hgt, if_neg heq, if_neg hlt]
    · have hhere : fromOp (ch :: text) = ch :: text := List.dropWhile_cons_of_neg hpassive
      rw [hhere]

private theorem findOp_none (h : fromOp text = []) : findOp text = some none := by
  rw [← findOp_fromOp, h]
  rfl

/-- The loop stops at one of three characters. -/
private theorem operator_of_fromOp (h : fromOp text = ch :: rest) :
    ch = '>' ∨ ch = '=' ∨ ch = '<' := by
  have hhead := List.head?_dropWhile_not (fun ch ↦ ch != '>' && ch != '=' && ch != '<') text
  rw [show text.dropWhile _ = ch :: rest from h, List.head?_cons] at hhead
  by_cases hgt : ch = '>'
  · exact .inl hgt
  · by_cases heq : ch = '='
    · exact .inr (.inl heq)
    · refine .inr (.inr ?_)
      simpa [hgt, heq] using hhead

/-- The character behind one that a loop stands in front of. -/
private theorem At.ahead (h : At sql start (ch :: rest)) :
    ∃ next, charAt sql (start + 1) = .ok next ∧ (rest ++ tail sql).head? = some next := by
  have hdrop := h.next.text
  cases htext : rest ++ tail sql with
  | nil => exact absurd (List.append_eq_nil_iff.mp htext).2 (tail_ne_nil sql)
  | cons next text =>
    rw [htext] at hdrop
    exact ⟨next, charAt_of_cons hdrop, rfl⟩

/-- The digits in front of the terminating character, added up without a check. -/
private theorem foldl_digits (digits : List Char) (hdigits : ∀ ch ∈ digits, digit ch = true)
    (v : Nat) (hbound : decimal v digits + '0'.toNat < 2 ^ 31) :
    digits.foldl (fun res ch ↦ int (res * 10 + ch.toNat - '0'.toNat)) (v : Int) =
      decimal v digits := by
  induction digits generalizing v with
  | nil => rfl
  | cons ch digits ih =>
    obtain ⟨hdigit, hdigits⟩ := List.forall_mem_cons.mp hdigits
    have hle := le_decimal (10 * v + (ch.toNat - '0'.toNat)) digits
    have hch := toNat_of_digit hdigit
    have hlt : decimal (10 * v + (ch.toNat - '0'.toNat)) digits + '0'.toNat < 2 ^ 31 := hbound
    have hstep : int ((v : Int) * 10 + ch.toNat - '0'.toNat) =
        ((10 * v + (ch.toNat - '0'.toNat) : Nat) : Int) := by
      have hval : (v : Int) * 10 + ch.toNat - '0'.toNat =
          ((10 * v + (ch.toNat - '0'.toNat) : Nat) : Int) := by omega
      rw [hval]
      exact int_eq (by omega) (by omega)
    rw [List.foldl_cons, hstep]
    exact ih hdigits _ hlt

/-- The number in a text, read with the terminating character behind it or without. -/
private theorem str2int_text (hnum : Numbered (text ++ [nul])) :
    Matu.str2int text = some (number (text ++ [nul]) : Int) := by
  have hnul : digit nul = false := by decide
  have hfrom : fromDigit (text ++ [nul]) = fromDigit text ++ [nul] := by
    have hfound := hnum.found
    unfold fromDigit at hfound ⊢
    rw [List.dropWhile_append] at hfound ⊢
    split at hfound
    · rw [List.dropWhile_cons_of_pos (by rw [hnul]; rfl)] at hfound
      exact absurd rfl hfound
    · next hne => rw [if_neg hne]
  have htake : (fromDigit (text ++ [nul])).takeWhile digit = (fromDigit text).takeWhile digit := by
    rw [hfrom, List.takeWhile_append]
    split
    · next hlen =>
      rw [List.takeWhile_cons_of_neg (by rw [hnul]; decide), List.append_nil]
      exact ((List.takeWhile_prefix digit).eq_of_length hlen).symm
    · rfl
  have hbound := hnum.bounded
  have hdigits := takeWhile_fromDigit hnum.found
  unfold number at hbound ⊢
  rw [htake] at hbound hdigits ⊢
  have hfold := foldl_digits _ (fun ch hch ↦ List.mem_takeWhile_imp hch) 0 hbound
  cases hcons : (fromDigit text).takeWhile digit with
  | nil => exact absurd hcons hdigits
  | cons ch digits =>
    rw [hcons] at hfold
    unfold fromDigit at hcons
    unfold Matu.str2int
    rw [hcons]
    exact congrArg some hfold

/-- The look-ahead for `=`, with the terminating character or without. -/
private theorem head_equal_iff {next : Char} (h : (text ++ [nul]).head? = some next) :
    text.head? = some '=' ↔ next = '=' := by
  cases text with
  | nil =>
    cases h
    decide
  | cons ch text =>
    cases h
    rw [List.head?_cons, Option.some.injEq]

/-- The last turn of the loop, at an operator with a number behind it. -/
private theorem opLoop_turn (h : At sql start (ch :: rest))
    (hop : ch = '>' ∨ ch = '=' ∨ ch = '<') (hnum : Numbered (ch :: rest ++ tail sql)) :
    ∃ op num, opLoop sql (ch :: rest).length start = .ok (some (op, num, start)) ∧
      (-1 ≤ num ∧ num < 2 ^ 31 - 1) ∧
      (tail sql = [nul] → findOp (ch :: rest) = some (some (op, num, ch :: rest))) := by
  obtain ⟨next, hnext, hhead⟩ := h.ahead
  have hvalue := str2int_eq h.text hnum
  have hbound := hnum.bounded
  have hlist : tail sql = [nul] → Matu.str2int (ch :: rest) =
        some (number (ch :: rest ++ tail sql) : Int) ∧ (rest.head? = some '=' ↔ next = '=') := by
    intro htail
    rw [htail] at hnum hhead ⊢
    exact ⟨str2int_text hnum, head_equal_iff hhead⟩
  have hzero : '0'.toNat = 48 := rfl
  have hstrict : 0 ≤ (if next = '=' then 0 else 1 : Int) ∧
      (if next = '=' then 0 else 1 : Int) ≤ 1 := by
    split <;> omega
  generalize number (ch :: rest ++ tail sql) = v at hvalue hlist hbound
  rw [List.length_cons, opLoop, ok_bind h.read]
  rcases hop with rfl | rfl | rfl
  · rw [if_pos rfl, ok_bind hvalue, ok_bind hnext, ok_bind (checked_eq (by omega) (by omega))]
    refine ⟨_, _, rfl, ⟨by omega, by omega⟩, fun htail ↦ ?_⟩
    obtain ⟨hread, hequal⟩ := hlist htail
    rw [findOp, if_pos rfl, hread]
    simp only [hequal, Option.bind_eq_bind, Option.bind_some, Option.pure_def]
    rw [int_eq (by omega) (by omega)]
  · rw [if_neg (by decide), if_pos rfl, ok_bind hvalue]
    refine ⟨_, _, rfl, ⟨by omega, by omega⟩, fun htail ↦ ?_⟩
    rw [findOp, if_neg (by decide), if_pos rfl, (hlist htail).1]
    rfl
  · rw [if_neg (by decide), if_neg (by decide), if_pos rfl, ok_bind hvalue, ok_bind hnext,
      ok_bind (checked_eq (by omega) (by omega))]
    refine ⟨_, _, rfl, ⟨by omega, by omega⟩, fun htail ↦ ?_⟩
    obtain ⟨hread, hequal⟩ := hlist htail
    rw [findOp, if_neg (by decide), if_neg (by decide), if_pos rfl, hread]
    simp only [hequal, Option.bind_eq_bind, Option.bind_some, Option.pure_def]
    rw [int_eq (by omega) (by omega)]

/-- The loops to an operator with a number behind it. -/
private theorem opLoop_eq (h : At sql start rest) (hfound : fromOp rest ≠ [])
    (hnum : Numbered (fromOp rest ++ tail sql)) :
    ∃ op num start', opLoop sql rest.length start = .ok (some (op, num, start')) ∧
      At sql start' (fromOp rest) ∧ (-1 ≤ num ∧ num < 2 ^ 31 - 1) ∧
      (tail sql = [nul] → findOp rest = some (some (op, num, fromOp rest))) := by
  obtain ⟨start', hskip, hat⟩ := opLoop_skip h
  rw [hskip, ← findOp_fromOp]
  cases hop : fromOp rest with
  | nil => exact absurd hop hfound
  | cons ch text =>
    rw [hop] at hat hnum
    obtain ⟨op, num, hturn, hbound, hlist⟩ := opLoop_turn hat (operator_of_fromOp hop) hnum
    exact ⟨op, num, start', hturn, hat, hbound, hlist⟩

/-- The number behind an operator that the loops pass without a fault. -/
private theorem numbered_of_opLoop {r : Option (Op × Int × Nat)} (h : At sql start rest)
    (hfound : fromOp rest ≠ []) (hok : opLoop sql rest.length start = .ok r) :
    Numbered (fromOp rest ++ tail sql) := by
  obtain ⟨start', hskip, hat⟩ := opLoop_skip h
  rw [hskip] at hok
  cases hop : fromOp rest with
  | nil => exact absurd hop hfound
  | cons ch text =>
    rw [hop] at hat hok
    rw [List.length_cons, opLoop, ok_bind hat.read] at hok
    have hread : ∃ num, str2int sql start' = .ok num := by
      rcases operator_of_fromOp hop with rfl | rfl | rfl
      · rw [if_pos rfl] at hok
        exact (bind_ok hok).imp fun _ ↦ And.left
      · rw [if_neg (by decide), if_pos rfl] at hok
        exact (bind_ok hok).imp fun _ ↦ And.left
      · rw [if_neg (by decide), if_neg (by decide), if_pos rfl] at hok
        exact (bind_ok hok).imp fun _ ↦ And.left
    obtain ⟨num, hnum⟩ := hread
    exact numbered_of_str2int hat.text hnum

/-- The loop to a character that may start a connective. -/
private theorem connLoop_skip (h : At sql start rest) :
    ∃ start', connLoop sql rest.length start = connLoop sql (fromConn rest).length start' ∧
      At sql start' (fromConn rest) := by
  induction rest generalizing start with
  | nil => exact ⟨start, rfl, h⟩
  | cons ch rest ih =>
    by_cases hpassive : (ch != 'a' && ch != 'o') = true
    · have hskip : fromConn (ch :: rest) = fromConn rest := List.dropWhile_cons_of_pos hpassive
      simp only [Bool.and_eq_true, bne_iff_ne] at hpassive
      rw [hskip, List.length_cons, connLoop, ok_bind h.read, if_pos hpassive]
      exact ih h.next
    · have hhere : fromConn (ch :: rest) = ch :: rest := List.dropWhile_cons_of_neg hpassive
      rw [hhere]
      exact ⟨start, rfl, h⟩

private theorem connLoop_none (h : At sql start rest) (hnil : fromConn rest = []) :
    connLoop sql rest.length start = .ok none := by
  obtain ⟨start', hskip, _⟩ := connLoop_skip h
  rw [hskip, hnil]
  rfl

/-- The terminating character is in no connective. -/
private theorem isPrefixOf_nul {pat : List Char} (h : nul ∉ pat) :
    pat.isPrefixOf (text ++ [nul]) = pat.isPrefixOf text := by
  rcases Nat.lt_or_ge text.length pat.length with hlt | hge
  · have hnot : ∀ text', pat <+: text' → text'.length ≤ text.length → False := by
      intro text' hpre hle
      exact absurd (Nat.le_trans hpre.length_le hle) (Nat.not_le_of_lt hlt)
    rw [Bool.eq_iff_iff, List.isPrefixOf_iff_prefix, List.isPrefixOf_iff_prefix]
    refine ⟨fun hpre ↦ ?_, fun hpre ↦ (hnot text hpre (Nat.le_refl _)).elim⟩
    have heq : pat = text ++ [nul] := hpre.eq_of_length_le (by
      rw [List.length_append]
      exact hlt)
    exact absurd (by rw [heq]; exact List.mem_append_right text List.mem_cons_self) h
  · exact isPrefixOf_append pat hge

private theorem findConn_eq (text : List Char) : findConn text =
    if "and".toList.isPrefixOf (fromConn text) then some (true, fromConn text)
    else if "or".toList.isPrefixOf (fromConn text) then some (false, fromConn text)
    else none :=
  rfl

/-- The comparisons behind a character that may start a connective. -/
private theorem connLoop_turn (h : At sql start (ch :: rest)) (hstop : ¬ (ch ≠ 'a' ∧ ch ≠ 'o'))
    (hcut : ¬ (ch :: rest = ['a'] ∧ tail sql = ['n'])) :
    connLoop sql (ch :: rest).length start =
      if "and".toList.isPrefixOf (ch :: rest ++ tail sql) then .ok (some (true, start))
      else if "or".toList.isPrefixOf (ch :: rest ++ tail sql) then .ok (some (false, start))
      else .ok none := by
  have hand : matchesAt sql "and".toList start = _ := matchesAt_eq h.text fun hstart ↦ by
    by_contra hshort
    refine hcut ?_
    cases htail : tail sql with
    | nil => exact absurd htail (tail_ne_nil sql)
    | cons next text =>
      have hthree : "and".toList.length = 3 := rfl
      rw [htail, hthree, List.length_append, List.length_cons, List.length_cons] at hshort
      obtain rfl : rest = [] := List.length_eq_zero_iff.mp (by omega)
      obtain rfl : text = [] := List.length_eq_zero_iff.mp (by omega)
      have htext : [ch, next] <+: ['a', 'n', 'd'] := by
        rw [htail] at hstart
        exact hstart
      obtain ⟨rfl, hrest⟩ := List.cons_prefix_cons.mp htext
      obtain ⟨rfl, _⟩ := List.cons_prefix_cons.mp hrest
      exact ⟨rfl, rfl⟩
  have hor : matchesAt sql "or".toList start = _ := matchesAt_eq h.text fun _ ↦ by
    have htail := List.length_pos_iff.mpr (tail_ne_nil sql)
    have htwo : "or".toList.length = 2 := rfl
    rw [htwo, List.length_append, List.length_cons]
    omega
  rw [List.length_cons, connLoop, ok_bind h.read, if_neg hstop, ok_bind hand]
  split
  · rfl
  · rw [ok_bind hor]
    split <;> rfl

/-- The loop to the connective. -/
private theorem connLoop_eq (h : At sql start rest) (hfound : fromConn rest ≠ [])
    (hcut : ¬ (fromConn rest = ['a'] ∧ tail sql = ['n'])) :
    (Connected (fromConn rest ++ tail sql) → ∃ conn start',
      connLoop sql rest.length start = .ok (some (conn, start')) ∧ At sql start' (fromConn rest) ∧
        (tail sql = [nul] → findConn rest = some (conn, fromConn rest))) ∧
    (¬ Connected (fromConn rest ++ tail sql) → connLoop sql rest.length start = .ok none ∧
      (tail sql = [nul] → findConn rest = none)) := by
  obtain ⟨start', hskip, hat⟩ := connLoop_skip h
  have hhead := List.head?_dropWhile_not (fun ch ↦ ch != 'a' && ch != 'o') rest
  have hand : tail sql = [nul] → "and".toList.isPrefixOf (fromConn rest ++ tail sql) =
      "and".toList.isPrefixOf (fromConn rest) := by
    intro htail
    rw [htail]
    exact isPrefixOf_nul (by decide)
  have hor : tail sql = [nul] → "or".toList.isPrefixOf (fromConn rest ++ tail sql) =
      "or".toList.isPrefixOf (fromConn rest) := by
    intro htail
    rw [htail]
    exact isPrefixOf_nul (by decide)
  rw [hskip, findConn_eq]
  unfold Connected
  cases hconn : fromConn rest with
  | nil => exact absurd hconn hfound
  | cons ch conn =>
    rw [show rest.dropWhile _ = ch :: conn from hconn, List.head?_cons] at hhead
    rw [hconn] at hat hcut hand hor
    have hstop : ¬ (ch ≠ 'a' ∧ ch ≠ 'o') := by
      rintro ⟨ha, ho⟩
      simp [ha, ho] at hhead
    rw [connLoop_turn hat hstop hcut, ← List.isPrefixOf_iff_prefix, ← List.isPrefixOf_iff_prefix]
    constructor
    · intro hsome
      by_cases ha : "and".toList.isPrefixOf (ch :: conn ++ tail sql) = true
      · refine ⟨true, start', if_pos ha, hat, fun htail ↦ ?_⟩
        rw [hand htail] at ha
        exact if_pos ha
      · have ho := hsome.resolve_left ha
        refine ⟨false, start', by rw [if_neg ha, if_pos ho], hat, fun htail ↦ ?_⟩
        rw [hand htail] at ha
        rw [hor htail] at ho
        rw [if_neg ha, if_pos ho]
    · intro hnone
      obtain ⟨ha, ho⟩ := not_or.mp hnone
      refine ⟨by rw [if_neg ha, if_neg ho], fun htail ↦ ?_⟩
      rw [hand htail] at ha
      rw [hor htail] at ho
      rw [if_neg ha, if_neg ho]

/-- An `an` that ends at the last position of an `int` is not passed without a fault. -/
private theorem not_cut_of_connLoop {r : Option (Bool × Nat)} (h : At sql start rest)
    (hok : connLoop sql rest.length start = .ok r) :
    ¬ (fromConn rest = ['a'] ∧ tail sql = ['n']) := by
  rintro ⟨hconn, htail⟩
  obtain ⟨start', hskip, hat⟩ := connLoop_skip h
  rw [hconn] at hskip hat
  rw [hskip, List.length_singleton, connLoop, ok_bind hat.read,
    if_neg (fun hne ↦ hne.1 rfl)] at hok
  obtain ⟨b, hmatch, _⟩ := bind_ok hok
  have hends := (matchesAt_ok hat.text hmatch).2
  rw [htail] at hends
  exact absurd (hends (by decide)) (by decide)

end Loops

section Conditions

variable {sql text : List Char} {op op' : Op} {num x : Int} {conn : Bool} {res res' : Condition}

private theorem first_agrees : (first op num res).Agrees (first op num res') := by
  cases op <;> exact ⟨rfl, fun _ ↦ rfl, fun hb ↦ nomatch hb⟩

private theorem second_agrees : (Matu.second op num conn op' x (first op num res)).Agrees
    (Matu.second op num conn op' x (first op num res')) := by
  cases op' <;> cases op <;> cases conn <;> simp only [Matu.second] <;> (try split) <;>
    (try split) <;> constructor <;> simp [ResFlag.usesA, ResFlag.usesB]

/-- The sums of the branches do not overflow next to numbers that were read. -/
private theorem second_eq (hnum : -1 ≤ num ∧ num < 2 ^ 31 - 1) (hx : -1 ≤ x ∧ x < 2 ^ 31 - 1) :
    second op num conn op' x res = .ok (Matu.second op num conn op' x res) := by
  have hnum' : checked (num + 1) = .ok (num + 1) := checked_eq (by omega) (by omega)
  have hx' : checked (x + 1) = .ok (x + 1) := checked_eq (by omega) (by omega)
  cases op' <;> cases op <;> cases conn <;> simp only [second, hnum', hx'] <;> rfl

private theorem findConn_none (h : fromConn text = []) : findConn text = none := by
  rw [findConn_eq, h]
  rfl

/-- The loop to the `where` that a statement contains. -/
private theorem whereLoop_body (h : findWhere (body sql) ≠ []) :
    ∃ start, whereLoop sql (int sql.length - 1).toNat 1 = .ok start ∧
      At sql start (findWhere (body sql)) := by
  have hzero := At.zero sql
  cases hbody : body sql with
  | nil => exact absurd (by rw [hbody]; rfl) h
  | cons ch rest =>
    rw [hbody] at hzero h
    have hturns : (int sql.length - 1).toNat = rest.length := hzero.next.turns
    rw [hturns]
    exact whereLoop_found hzero h

/-- Behind a `where` that a statement does not contain no loop runs. -/
private theorem turns_of_lost {start : Nat} (h : findWhere (body sql) = [])
    (hok : whereLoop sql (int sql.length - 1).toNat 1 = .ok start) :
    (int sql.length - start).toNat = 0 := by
  have hzero := At.zero sql
  cases hbody : body sql with
  | nil =>
    have hlen := hzero.turns
    rw [hbody, List.length_nil] at hlen
    have hturns : (int sql.length - 1).toNat = 0 := by omega
    rw [hturns] at hok
    cases hok
    exact hturns
  | cons ch rest =>
    rw [hbody] at hzero h
    have hturns : (int sql.length - 1).toNat = rest.length := hzero.next.turns
    rw [hturns] at hok
    exact whereLoop_lost hzero h hok

/-- Without an operator behind a `where` the condition stays as it was found. -/
private theorem conditionParse_lost {con : Condition} (h : fromOp (findWhere (body sql)) = [])
    (hok : conditionParse sql res = .ok con) : con = res := by
  obtain ⟨start, hwhere, hok⟩ := bind_ok hok
  have hnone : opLoop sql (int sql.length - start).toNat start = .ok none := by
    by_cases hfound : findWhere (body sql) = []
    · rw [turns_of_lost hfound hwhere]
      rfl
    · obtain ⟨start', hwhere', hat⟩ := whereLoop_body hfound
      rw [hwhere, Except.ok.injEq] at hwhere'
      subst hwhere'
      rw [hat.turns]
      exact opLoop_none hat h
  rw [ok_bind hnone] at hok
  cases hok
  rfl

/-- The parser behind the first operator. -/
private theorem conditionParse_first {start start₁ : Nat}
    (hwhere : whereLoop sql (int sql.length - 1).toNat 1 = .ok start)
    (hfirst : opLoop sql (int sql.length - start).toNat start = .ok (some (op, num, start₁))) :
    conditionParse sql res = (do
      match ← connLoop sql (int sql.length - start₁).toNat start₁ with
      | none => return first op num res
      | some (conn, start) =>
        match ← opLoop sql (int sql.length - start).toNat start with
        | none => return first op num res
        | some (op', x, _) => second op num conn op' x (first op num res)) := by
  unfold conditionParse
  rw [ok_bind hwhere, ok_bind hfirst]

/-- A readable statement is parsed without a fault, to what the parser without checks makes of it,
and to the same condition whatever its fields held before. -/
theorem conditionParse_of_readable (h : Readable sql) :
    ∃ f : Condition → Condition, ∀ res, conditionParse sql res = .ok (f res) ∧
      (tail sql = [nul] → Matu.conditionParse (body sql) res = some (f res)) ∧
      ∀ res', (f res).Agrees (f res') := by
  obtain ⟨hop, hnum, hcut, hrest⟩ := h
  have hfound : findWhere (body sql) ≠ [] := fun hnil ↦ hop (by rw [hnil]; rfl)
  obtain ⟨start, hwhere, hat⟩ := whereLoop_body hfound
  obtain ⟨op, num, start₁, hfirst, hat₁, hbound₁, hlist₁⟩ := opLoop_eq hat hop hnum
  rw [← hat.turns] at hfirst
  simp only [conditionParse_first hwhere hfirst, hat₁.turns, Matu.conditionParse]
  generalize fromOp (findWhere (body sql)) = first₁ at hat₁ hlist₁ hcut hrest
  -- the second comparison counts only behind a connective, and only with an operator of its own
  by_cases hend : fromConn first₁ = []
  · refine ⟨first op num, fun res ↦ ⟨?_, fun htail ↦ ?_, fun _ ↦ first_agrees⟩⟩
    · rw [ok_bind (connLoop_none hat₁ hend)]
      rfl
    · rw [hlist₁ htail]
      simp only [Option.bind_eq_bind, Option.bind_some, findConn_none hend, Option.pure_def]
  obtain ⟨hconn, hnone⟩ := connLoop_eq hat₁ hend hcut
  by_cases hconnected : Connected (fromConn first₁ ++ tail sql)
  · obtain ⟨conn, start₂, hconn, hat₂, hlist₂⟩ := hconn hconnected
    by_cases hsingle : fromOp (fromConn first₁) = []
    · refine ⟨first op num, fun res ↦ ⟨?_, fun htail ↦ ?_, fun _ ↦ first_agrees⟩⟩
      · have hloop := opLoop_none hat₂ hsingle
        rw [← hat₂.turns] at hloop
        rw [ok_bind hconn]
        dsimp only
        rw [ok_bind hloop]
        rfl
      · rw [hlist₁ htail]
        simp only [Option.bind_eq_bind, Option.bind_some, hlist₂ htail, findOp_none hsingle,
          Option.pure_def]
    · obtain ⟨op', x, start₃, hloop, -, hbound₂, hlist₃⟩ :=
        opLoop_eq hat₂ hsingle (hrest hconnected hsingle)
      refine ⟨fun res ↦ Matu.second op num conn op' x (first op num res),
        fun res ↦ ⟨?_, fun htail ↦ ?_, fun _ ↦ second_agrees⟩⟩
      · rw [← hat₂.turns] at hloop
        rw [ok_bind hconn]
        dsimp only
        rw [ok_bind hloop]
        exact second_eq hbound₁ hbound₂
      · rw [hlist₁ htail]
        simp only [Option.bind_eq_bind, Option.bind_some, hlist₂ htail, hlist₃ htail,
          Option.pure_def]
  · obtain ⟨hloop, hlist₂⟩ := hnone hconnected
    refine ⟨first op num, fun res ↦ ⟨?_, fun htail ↦ ?_, fun _ ↦ first_agrees⟩⟩
    · rw [ok_bind hloop]
      rfl
    · rw [hlist₁ htail]
      simp only [Option.bind_eq_bind, Option.bind_some, hlist₂ htail, Option.pure_def]

/-- A statement with an operator is parsed with a fault unless it is readable. -/
private theorem readable_of_ok {con : Condition} (hop : fromOp (findWhere (body sql)) ≠ [])
    (hok : conditionParse sql res = .ok con) : Readable sql := by
  have hfound : findWhere (body sql) ≠ [] := fun hnil ↦ hop (by rw [hnil]; rfl)
  obtain ⟨start, hwhere, hat⟩ := whereLoop_body hfound
  have hnum : Numbered (fromOp (findWhere (body sql)) ++ tail sql) := by
    unfold conditionParse at hok
    rw [ok_bind hwhere] at hok
    obtain ⟨r, hloop, _⟩ := bind_ok hok
    rw [hat.turns] at hloop
    exact numbered_of_opLoop hat hop hloop
  obtain ⟨op, num, start₁, hfirst, hat₁, -, -⟩ := opLoop_eq hat hop hnum
  rw [← hat.turns] at hfirst
  rw [conditionParse_first hwhere hfirst] at hok
  obtain ⟨r, hloop, hok⟩ := bind_ok hok
  rw [hat₁.turns] at hloop
  have hcut := not_cut_of_connLoop hat₁ hloop
  refine ⟨hop, hnum, hcut, fun hconnected hsecond ↦ ?_⟩
  have hend : fromConn (fromOp (findWhere (body sql))) ≠ [] :=
    fun hnil ↦ hsecond (by rw [hnil]; rfl)
  obtain ⟨conn, start₂, hconn, hat₂, -⟩ := (connLoop_eq hat₁ hend hcut).1 hconnected
  rw [hconn, Except.ok.injEq] at hloop
  subst hloop
  obtain ⟨r, hloop, _⟩ := bind_ok hok
  rw [hat₂.turns] at hloop
  exact numbered_of_opLoop hat₂ hsecond hloop

/-- A statement that is parsed without a fault, from two conditions with different flags to
conditions that agree, is readable. -/
theorem readable_of_safe (h : Safe sql) : Readable sql := by
  obtain ⟨con, con', hok, hok', hagrees⟩ := h ⟨0, 0, .RES_BAD⟩ ⟨0, 0, .RES_ALL⟩
  refine readable_of_ok (fun hnil ↦ ?_) hok
  have hflag := hagrees.flag
  rw [conditionParse_lost hnil hok, conditionParse_lost hnil hok'] at hflag
  cases hflag

/-- The loops run over the whole of a statement whose length `int` holds. -/
theorem body_of_lt (h : sql.length < 2 ^ 31) : body sql = sql ∧ tail sql = [nul] := by
  have hlen : int sql.length = sql.length := int_eq (by omega) (by omega)
  have hwindow : window sql = sql ++ [nul] := by
    unfold window
    rw [List.take_of_length_le]
    rw [List.length_append, List.length_singleton]
    exact h
  unfold body tail
  rw [hlen, hwindow, Int.toNat_natCast, List.take_length, List.drop_left]
  exact ⟨rfl, rfl⟩

/-- The parser that checks every step refines the one that takes them for granted. -/
theorem conditionParse_refines {con : Condition} (h : sql.length < 2 ^ 31)
    (hok : conditionParse sql res = .ok con) : Matu.conditionParse sql res = some con := by
  obtain ⟨hbody, htail⟩ := body_of_lt h
  by_cases hop : fromOp (findWhere (body sql)) = []
  · rw [conditionParse_lost hop hok]
    rw [hbody] at hop
    unfold Matu.conditionParse
    rw [findOp_none hop]
    rfl
  · obtain ⟨f, hf⟩ := conditionParse_of_readable (readable_of_ok hop hok)
    obtain ⟨hrun, hlist, -⟩ := hf res
    rw [hrun, Except.ok.injEq] at hok
    rw [← hok, ← hlist htail, hbody]

/-- A statement is parsed safely exactly when it is readable. -/
theorem conditionParse_safe_iff (sql : List Char) : Safe sql ↔ Readable sql := by
  refine ⟨readable_of_safe, fun h res res' ↦ ?_⟩
  obtain ⟨f, hf⟩ := conditionParse_of_readable h
  exact ⟨f res, f res', (hf res).1, (hf res').1, (hf res).2.2 res'⟩

/-- An operator without a number, a number that `int` does not hold, and no operator at all. -/
theorem malformed_unsafe : ¬ Safe "select * from table where id >".toList ∧
    ¬ Safe "select * from table where id > 2147483648".toList ∧
    ¬ Safe "select * from table".toList := by
  have hbeyond : conditionParse "select * from table where id >".toList ⟨0, 0, .RES_BAD⟩ =
      .error .beyond := by
    decide +kernel
  have hoverflow : conditionParse "select * from table where id > 2147483648".toList
      ⟨0, 0, .RES_BAD⟩ = .error .overflow := by
    decide +kernel
  have hbad : conditionParse "select * from table".toList ⟨0, 0, .RES_BAD⟩ =
      .ok ⟨0, 0, .RES_BAD⟩ := by
    decide +kernel
  have hall : conditionParse "select * from table".toList ⟨0, 0, .RES_ALL⟩ =
      .ok ⟨0, 0, .RES_ALL⟩ := by
    decide +kernel
  refine ⟨fun h ↦ ?_, fun h ↦ ?_, fun h ↦ ?_⟩
  · obtain ⟨con, _, hok, _⟩ := h ⟨0, 0, .RES_BAD⟩ ⟨0, 0, .RES_BAD⟩
    rw [hbeyond] at hok
    cases hok
  · obtain ⟨con, _, hok, _⟩ := h ⟨0, 0, .RES_BAD⟩ ⟨0, 0, .RES_BAD⟩
    rw [hoverflow] at hok
    cases hok
  · obtain ⟨con, con', hok, hok', hagrees⟩ := h ⟨0, 0, .RES_BAD⟩ ⟨0, 0, .RES_ALL⟩
    rw [hbad] at hok
    rw [hall] at hok'
    cases hok
    cases hok'
    cases hagrees.flag

end Conditions

end Scan

end ExampleEngine.Matu
