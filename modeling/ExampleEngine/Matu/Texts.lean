import ExampleEngine.Matu.Assignments
import ExampleEngine.Matu.Selection

/-!
# Texts of statements

Library `Matu`. Statements with a where clause and, for `update` of `src/lib/matu.h:559–677`, the
assignment of a number or a word to a field, as they are written. Their texts are parsed without a
fault, to the conditions and assignments that they denote.
-/

namespace ExampleEngine.Matu

open ExampleEngine.Storage

namespace Numeral

/-- The number is read without a fault. -/
def Bounded (n : Numeral) : Prop := n.value + '0'.toNat < 2 ^ 31

end Numeral

namespace Clause

/-- All numbers are read without a fault. -/
def Bounded : Clause → Prop
  | .single c => c.number.Bounded
  | .both c c' | .either c c' => c.number.Bounded ∧ c'.number.Bounded

/-- Then `int` holds the bounds too. -/
theorem Bounded.small {clause : Clause} (h : clause.Bounded) : clause.Small := by
  have hone : ∀ {c : Comparison}, c.number.Bounded → c.Small := by
    intro c hc
    have hzero : '0'.toNat = 48 := rfl
    unfold Numeral.Bounded at hc
    unfold Comparison.Small
    omega
  cases clause with
  | single c => exact hone h
  | both c c' => exact ⟨hone h.1, hone h.2⟩
  | either c c' => exact ⟨hone h.1, hone h.2⟩

end Clause

/-- A nonempty string without blanks. -/
structure Word where
  bytes : List UInt8
  ne_nil : bytes ≠ []
  unbroken : ∀ b ∈ bytes, b ≠ 32

namespace Word

/-- The word as it is written. -/
def text (w : Word) : List Char := w.bytes.map fun b ↦ Char.ofNat b.toNat

end Word

/-- The fields that take a word. -/
inductive TextField where
  | name
  | number
  | email
  deriving DecidableEq, Repr

/-- The field as it is written. -/
def TextField.text : TextField → List Char
  | .name => "name".toList
  | .number => "number".toList
  | .email => "email".toList

/-- An assignment, written with any blanks around its sign. -/
inductive Setting where
  | sex (before after : Nat) (n : Numeral)
  | text (field : TextField) (before after : Nat) (w : Word)

namespace Setting

/-- The assignment as it is written. -/
def written : Setting → List Char
  | .sex before after n =>
    "sex".toList ++ (List.replicate before ' ' ++ '=' :: (List.replicate after ' ' ++ n.text))
  | .text field before after w =>
    field.text ++ (List.replicate before ' ' ++ '=' :: (List.replicate after ' ' ++ w.text))

/-- A number that is assigned is read without a fault. -/
def Bounded : Setting → Prop
  | .sex _ _ n => n.Bounded
  | .text .. => True

/-- The row with the field replaced; a record keeps strings up to their first zero. -/
def apply (d : RowData) : Setting → RowData
  | .sex _ _ n => { d with sex := n.value != 0 }
  | .text .name _ _ w => { d with name := untilZero w.bytes }
  | .text .number _ _ w => { d with number := untilZero w.bytes }
  | .text .email _ _ w => { d with email := untilZero w.bytes }

/-- The values that stand for the assignment. -/
def assignment : Setting → Assignment
  | .sex _ _ n => { sex := n.value }
  | .text .name _ _ w => { name := w.bytes }
  | .text .number _ _ w => { num := w.bytes }
  | .text .email _ _ w => { mail := w.bytes }

/-- They replace the field, and only it. -/
theorem apply_assignment (set : Setting) (d : RowData) : set.assignment.apply d = set.apply d := by
  have hword : ∀ (w : Word) old, assign w.bytes old = untilZero w.bytes := fun w _ ↦
    if_neg w.ne_nil
  cases set with
  | sex before after n =>
    have hval : ((n.value : Int) = -1) = False := by
      rw [eq_iff_iff, iff_false]
      omega
    have hne : ((n.value : Int) != 0) = (n.value != 0) := by
      rw [Bool.eq_iff_iff, bne_iff_ne, bne_iff_ne]
      omega
    simp [assignment, Assignment.apply, apply, assign, hval, hne]
  | text field before after w =>
    cases field <;> simp [assignment, Assignment.apply, apply, hword] <;> simp [assign]

end Setting

/-- `where` and a clause behind a text. -/
def selection (front : List Char) (clause : Clause) : List Char :=
  front ++ " where ".toList ++ clause.text

/-- `set` and an assignment behind a text. -/
def setting (front : List Char) (gap : Nat) (set : Setting) : List Char :=
  front ++ ("set".toList ++ (List.replicate gap ' ' ++ set.written))

namespace Scan

section Numbers

variable {lead tail : List Char} {ch : Char}

private theorem decimal_map (ds : List (Fin 10)) (v : Nat) :
    decimal v (ds.map fun d ↦ Nat.digitChar d.val) = ds.foldl (fun v d ↦ 10 * v + d.val) v := by
  have hdigit : ∀ d : Fin 10, (Nat.digitChar d.val).toNat - '0'.toNat = d.val := by decide
  induction ds generalizing v with
  | nil => rfl
  | cons d ds ih =>
    rw [List.map_cons, List.foldl_cons, ← ih]
    unfold decimal
    rw [List.foldl_cons, hdigit d]

/-- A number as it is written, behind characters that are no digits and in front of one. -/
theorem numbered_text (n : Numeral) (hn : n.Bounded) (hlead : ∀ ch ∈ lead, digit ch = false)
    (hch : digit ch = false) : Numbered (lead ++ (n.text ++ ch :: tail)) ∧
      number (lead ++ (n.text ++ ch :: tail)) = n.value := by
  have hfrom : fromDigit (lead ++ (n.text ++ ch :: tail)) = n.text ++ ch :: tail := by
    unfold fromDigit
    rw [List.dropWhile_append_of_pos fun ch hch ↦ by rw [hlead ch hch]; rfl]
    obtain ⟨d, ds, hcons⟩ := List.exists_cons_of_ne_nil n.text_ne_nil
    have hd : digit d = true := n.digit_text d (hcons ▸ List.mem_cons_self)
    rw [hcons, List.cons_append, List.dropWhile_cons_of_neg (by simp [hd])]
  have htake : (n.text ++ ch :: tail).takeWhile digit = n.text := by
    rw [List.takeWhile_append_of_pos n.digit_text, List.takeWhile_cons_of_neg (by simp [hch]),
      List.append_nil]
  have hdrop : (n.text ++ ch :: tail).dropWhile digit = ch :: tail := by
    rw [List.dropWhile_append_of_pos n.digit_text, List.dropWhile_cons_of_neg (by simp [hch])]
  have hvalue : number (lead ++ (n.text ++ ch :: tail)) = n.value := by
    unfold number
    rw [hfrom, htake]
    exact decimal_map n.digits 0
  refine ⟨⟨?_, ?_, hvalue.symm ▸ hn⟩, hvalue⟩
  · rw [hfrom]
    exact List.append_ne_nil_of_right_ne_nil _ (List.cons_ne_nil ch tail)
  · rw [hfrom, hdrop]
    exact List.cons_ne_nil ch tail

/-- A comparison from its sign on, in front of a character that is no digit. -/
theorem numbered_fromSign (c : Comparison) (hc : c.number.Bounded) (hch : digit ch = false) :
    Numbered (c.fromSign ++ ch :: tail) := by
  have : Numbered (c.sign.text ++ List.replicate c.after ' ' ++ (c.number.text ++ ch :: tail)) :=
    (numbered_text c.number hc c.digit_lead hch).1
  unfold Comparison.fromSign
  simpa only [List.append_assoc] using this

end Numbers

section Clauses

variable {front body : List Char}

/-- The first operator behind passive characters and the id of a comparison. -/
private theorem fromOp_text (c : Comparison) (tail : List Char) (hbody : ∀ ch ∈ body, Passive ch) :
    fromOp (body ++ (c.text ++ tail)) = c.fromSign ++ tail := by
  have hskip : ∀ ch ∈ body ++ ("id".toList ++ List.replicate c.before ' '),
      (ch != '>' && ch != '=' && ch != '<') = true := by
    intro ch hch
    obtain ⟨hgt, heq, hlt⟩ := c.passive_lead hbody ch hch
    simp [hgt, heq, hlt]
  unfold fromOp
  rw [c.text_eq, List.append_assoc, ← List.append_assoc body, List.dropWhile_append_of_pos hskip]
  unfold Comparison.fromSign
  cases c.sign <;> rfl

private theorem fromConn_fromSign (c : Comparison) (tail : List Char) :
    fromConn (c.fromSign ++ tail) = fromConn tail := by
  unfold fromConn
  rw [List.dropWhile_append_of_pos c.fromSign_plain]

/-- Both numbers of two comparisons can be read. -/
private theorem readable_two {c c' : Comparison} (hc : c.number.Bounded)
    (hc' : c'.number.Bounded) {word : List Char} (hbody : ∀ ch ∈ body, Passive ch)
    (hpass : ∀ ch ∈ word, Passive ch)
    (hword : ∀ tail, fromConn (' ' :: (word ++ tail)) = word ++ tail) :
    let op := fromOp (body ++ (c.text ++ ' ' :: (word ++ c'.text)))
    op ≠ [] ∧ Numbered (op ++ [nul]) ∧ ¬ (fromConn op = ['a'] ∧ [nul] = ['n']) ∧
      (Connected (fromConn op ++ [nul]) → fromOp (fromConn op) ≠ [] →
        Numbered (fromOp (fromConn op) ++ [nul])) := by
  have hblank : digit ' ' = false := by decide
  have hnul : digit nul = false := by decide
  have hcut : ¬ [nul] = ['n'] := by decide
  have hsecond := fromOp_text c' [] hpass
  rw [List.append_nil, List.append_nil] at hsecond
  intro op
  have hop : op = c.fromSign ++ ' ' :: (word ++ c'.text) := fromOp_text c _ hbody
  rw [hop, fromConn_fromSign, hword, hsecond, List.append_assoc]
  exact ⟨List.append_ne_nil_of_right_ne_nil _ (List.cons_ne_nil _ _),
    numbered_fromSign c hc hblank, fun h ↦ hcut h.2, fun _ _ ↦ numbered_fromSign c' hc' hnul⟩

/-- A clause can be read behind any text without an operator behind a `where` of its own. -/
theorem readable_selection (hfront : Unparsed front) {clause : Clause} (hb : clause.Bounded)
    (hlen : (selection front clause).length < 2 ^ 31) : Readable (selection front clause) := by
  obtain ⟨hbody, htail⟩ := body_of_lt hlen
  obtain ⟨t, ht, hpassive⟩ := findWhere_append hfront clause.text
  unfold Readable
  rw [hbody, htail]
  unfold selection
  rw [ht]
  cases clause with
  | single c =>
    have hnul : digit nul = false := by decide
    have hcut : ¬ [nul] = ['n'] := by decide
    have hop := fromOp_text c [] hpassive
    have hconn := fromConn_fromSign c []
    rw [List.append_nil] at hop hconn
    have hne : c.fromSign ≠ [] := by
      unfold Comparison.fromSign
      cases c.sign <;> exact List.cons_ne_nil _ _
    simp only [Clause.text]
    rw [hop, List.append_nil, hconn]
    exact ⟨hne, numbered_fromSign c hb hnul, fun h ↦ hcut h.2, fun _ h ↦ absurd rfl h⟩
  | both c c' =>
    have htext : (Clause.both c c').text = c.text ++ ' ' :: ("and ".toList ++ c'.text) :=
      List.append_assoc ..
    rw [htext]
    exact readable_two hb.1 hb.2 hpassive (passive_of_all (by decide)) fun _ ↦ rfl
  | either c c' =>
    have htext : (Clause.either c c').text = c.text ++ ' ' :: ("or ".toList ++ c'.text) :=
      List.append_assoc ..
    rw [htext]
    exact readable_two hb.1 hb.2 hpassive (passive_of_all (by decide)) fun _ ↦ rfl

/-- The parser makes the condition of a clause of its text. -/
theorem conditionParse_selection (hfront : Unparsed front) {clause : Clause}
    (hb : clause.Bounded) (hlen : (selection front clause).length < 2 ^ 31) (res : Condition) :
    conditionParse (selection front clause) res = .ok (clause.parsed res) := by
  obtain ⟨f, hf⟩ := conditionParse_of_readable (readable_selection hfront hb hlen)
  obtain ⟨hrun, hlist, -⟩ := hf res
  obtain ⟨hbody, htail⟩ := body_of_lt hlen
  have hparse := hlist htail
  rw [hbody, selection, Clause.conditionParse_text hfront clause hb.small,
    Option.some.injEq] at hparse
  rw [hrun, hparse]

end Clauses

section Settings

variable {front rest text : List Char}

private theorem toNat_ofByte (b : UInt8) : (Char.ofNat b.toNat).toNat = b.toNat := by
  have hlt := b.toNat_lt
  rw [Char.ofNat, dif_pos (.inl (by omega))]
  rfl

/-- The bytes of a word are those of its characters. -/
theorem map_byte_text (w : Word) : w.text.map byte = w.bytes := by
  unfold Word.text
  rw [List.map_map]
  refine List.map_id'' (fun b ↦ ?_) w.bytes
  rw [Function.comp_apply, byte, toNat_ofByte, UInt8.ofNat_toNat]

private theorem unbroken_text (w : Word) : ∀ ch ∈ w.text, (ch != ' ') = true := by
  intro ch hch
  obtain ⟨b, hb, rfl⟩ := List.mem_map.mp hch
  refine bne_iff_ne.mpr fun heq ↦ w.unbroken b hb ?_
  have hnat := congrArg Char.toNat heq
  rw [toNat_ofByte] at hnat
  exact UInt8.toNat_inj.mp hnat

private theorem text_ne_nil (w : Word) : w.text ≠ [] := by
  simpa [Word.text] using w.ne_nil

/-- The first `se` behind a text without one. -/
private theorem fromSet_append (h : ¬ "se".toList <:+: front) :
    fromSet (front ++ 's' :: 'e' :: rest) = 's' :: 'e' :: rest := by
  induction front with
  | nil => rfl
  | cons ch front ih =>
    have hno : ¬ "se".toList.isPrefixOf (ch :: (front ++ 's' :: 'e' :: rest)) = true := by
      intro hpre
      obtain ⟨rfl, hnext⟩ := List.cons_prefix_cons.mp (List.isPrefixOf_iff_prefix.mp hpre)
      cases front with
      | nil => exact absurd (List.cons_prefix_cons.mp hnext).1 (by decide)
      | cons ch' front =>
        obtain ⟨rfl, -⟩ := List.cons_prefix_cons.mp hnext
        exact h ⟨[], front, rfl⟩
    rw [List.cons_append, fromSet, if_neg hno]
    exact ih fun hin ↦ h (List.infix_cons hin)

private theorem fromWord_blanks (n : Nat) (h : ∀ ch, text.head? = some ch → (ch == ' ') = false) :
    fromWord (List.replicate n ' ' ++ text) = text := by
  unfold fromWord
  rw [List.dropWhile_append_of_pos fun ch hch ↦ by rw [List.eq_of_mem_replicate hch]; rfl]
  cases text with
  | nil => rfl
  | cons ch text => exact List.dropWhile_cons_of_neg (by simp [h ch rfl])

private theorem behindEqual_append (n : Nat) {word : List Char}
    (hword : ∀ ch ∈ word, (ch != '=') = true) :
    behindEqual (word ++ (List.replicate n ' ' ++ '=' :: rest)) = rest := by
  have hskip : ∀ ch ∈ word ++ List.replicate n ' ', (ch != '=') = true := by
    intro ch hch
    rcases List.mem_append.mp hch with hch | hch
    · exact hword ch hch
    · rw [List.eq_of_mem_replicate hch]
      rfl
  unfold behindEqual
  rw [← List.append_assoc, List.dropWhile_append_of_pos hskip]
  rfl

/-- The word that is assigned. -/
private theorem fromWord_text (n : Nat) (w : Word) :
    fromWord (List.replicate n ' ' ++ (w.text ++ rest)) = w.text ++ rest := by
  refine fromWord_blanks n fun ch hch ↦ ?_
  obtain ⟨ch', text, hcons⟩ := List.exists_cons_of_ne_nil (text_ne_nil w)
  rw [hcons] at hch
  cases hch
  have := unbroken_text w ch (hcons ▸ List.mem_cons_self)
  simpa using this

private theorem takeWhile_text (w : Word) :
    (w.text ++ ' ' :: rest).takeWhile (fun ch ↦ ch != ' ') = w.text := by
  rw [List.takeWhile_append_of_pos (unbroken_text w), List.takeWhile_cons_of_neg (by decide),
    List.append_nil]

/-- An assigned number is read in front of a blank. -/
private theorem sex_assigned (before after : Nat) {n : Numeral} (hn : n.Bounded)
    (hfield : field text = (Setting.sex before after n).written ++ ' ' :: rest)
    (hfound : (fromSet text).drop 3 ≠ []) :
    Assignable text ∧ assignment text = (Setting.sex before after n).assignment := by
  have htext : field text = "sex".toList ++ (List.replicate before ' ' ++
      '=' :: (List.replicate after ' ' ++ (n.text ++ ' ' :: rest))) := by
    rw [hfield, Setting.written]
    simp
  have hbehind : behindEqual (field text) =
      List.replicate after ' ' ++ (n.text ++ ' ' :: rest) := by
    rw [htext]
    exact behindEqual_append before (by simp)
  have hblanks : ∀ ch ∈ List.replicate after ' ', digit ch = false := by
    intro ch hch
    rw [List.eq_of_mem_replicate hch]
    rfl
  have hblank : digit ' ' = false := rfl
  obtain ⟨hnum, hvalue⟩ : Numbered (List.replicate after ' ' ++ (n.text ++ ' ' :: rest)) ∧ _ :=
    numbered_text n hn hblanks hblank
  have hs : "s".toList.isPrefixOf (field text) = true := by
    rw [htext]
    rfl
  have hnot : ¬ Worded (field text) := by
    rw [htext]
    simp [Worded]
  refine ⟨⟨hfound, fun _ ↦ hbehind ▸ hnum, fun hw ↦ absurd hw hnot⟩, ?_⟩
  rw [assignment, if_pos hs, hbehind, hvalue]
  rfl

/-- An assigned word is read in front of a blank. -/
private theorem text_assigned (f : TextField) (before after : Nat) (w : Word)
    (hfield : field text = (Setting.text f before after w).written ++ ' ' :: rest)
    (hfound : (fromSet text).drop 3 ≠ []) :
    Assignable text ∧ assignment text = (Setting.text f before after w).assignment := by
  have htext : field text = f.text ++ (List.replicate before ' ' ++
      '=' :: (List.replicate after ' ' ++ (w.text ++ ' ' :: rest))) := by
    rw [hfield, Setting.written]
    simp
  have hbehind : behindEqual (field text) =
      List.replicate after ' ' ++ (w.text ++ ' ' :: rest) := by
    rw [htext]
    exact behindEqual_append before (by cases f <;> simp [TextField.text])
  have hvalue : value (field text) = w.bytes := by
    rw [value, hbehind, fromWord_text, takeWhile_text, map_byte_text]
  have hnot : ¬ "s".toList.isPrefixOf (field text) = true := by
    rw [htext]
    cases f <;> exact Bool.false_ne_true
  refine ⟨⟨hfound, fun hs ↦ absurd (List.isPrefixOf_iff_prefix.mpr hs) hnot, fun _ ↦ ?_⟩, ?_⟩
  · rw [hbehind, fromWord_text]
    simp
  · rw [assignment, if_neg hnot, hvalue, htext]
    cases f <;> rfl

/-- The scan finds the assignment of a statement behind the first `set`. -/
theorem assignmentParse_setting (hfront : ¬ "se".toList <:+: front) (gap : Nat) {set : Setting}
    (hb : set.Bounded) {clause : Clause}
    (hlen : (selection (setting front gap set) clause).length < 2 ^ 31) :
    assignmentParse (selection (setting front gap set) clause) = .ok set.assignment := by
  have htext : selection (setting front gap set) clause ++ [nul] =
      front ++ 's' :: 'e' :: 't' :: (List.replicate gap ' ' ++ (set.written ++ ' ' ::
        ("where ".toList ++ clause.text ++ [nul]))) := by
    unfold selection setting
    simp
  have hset : fromSet (selection (setting front gap set) clause ++ [nul]) =
      's' :: 'e' :: 't' :: (List.replicate gap ' ' ++ (set.written ++ ' ' ::
        ("where ".toList ++ clause.text ++ [nul]))) := by
    rw [htext]
    exact fromSet_append hfront
  have hdrop : (fromSet (selection (setting front gap set) clause ++ [nul])).drop 3 =
      List.replicate gap ' ' ++ (set.written ++ ' ' ::
        ("where ".toList ++ clause.text ++ [nul])) := by
    rw [hset]
    rfl
  have hfield : field (selection (setting front gap set) clause ++ [nul]) = set.written ++ ' ' ::
      ("where ".toList ++ clause.text ++ [nul]) := by
    rw [field, hdrop]
    refine fromWord_blanks gap fun ch hch ↦ ?_
    obtain ⟨_, _, _⟩ | ⟨field, _, _, _⟩ := set
    · cases hch
      rfl
    · cases field <;> cases hch <;> rfl
  have hfound : (fromSet (selection (setting front gap set) clause ++ [nul])).drop 3 ≠ [] := by
    rw [hdrop]
    simp
  refine (assignmentParse_ok_iff hlen).mpr ?_
  cases set with
  | sex before after n =>
    obtain ⟨ha, heq⟩ := sex_assigned before after hb hfield hfound
    exact ⟨ha, heq.symm⟩
  | text f before after w =>
    obtain ⟨ha, heq⟩ := text_assigned f before after w hfield hfound
    exact ⟨ha, heq.symm⟩

end Settings

end Scan

end ExampleEngine.Matu
