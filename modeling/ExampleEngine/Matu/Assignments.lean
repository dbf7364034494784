import ExampleEngine.Matu.Scanning

/-!
# Scanning assignments

Library `Matu`. The part of `update` of `src/lib/matu.h:559–599` that finds the assigned field and
its value. Only the first loop has a bound; each of the others runs on until it meets its
character, so a statement without a `set`, an `=` or a blank behind the value is read past its
end. The parts of a statement are given here by the text from each position on, the terminating
character included.
-/

namespace ExampleEngine.Matu.Scan

open ExampleEngine.Storage

/-- The byte of a character. -/
def byte (ch : Char) : UInt8 := UInt8.ofNat ch.toNat

/-- The loop to the first `se`, with `n` turns to go; `src/lib/matu.h:566–567`. -/
def setLoop (sql : List Char) : Nat → Nat → Except ScanFault Nat
  | 0, i => return i
  | n + 1, i => do
    if ← matchesAt sql "se".toList i then return i else setLoop sql n (i + 1)

/-- A loop over characters. It has no bound, but every turn reads another one. -/
def skipLoop (sql : List Char) (pass : Char → Bool) : Nat → Nat → Except ScanFault Nat
  | 0, _ => .error .beyond
  | n + 1, i => do
    let ch ← charAt sql i
    if pass ch then skipLoop sql pass n (i + 1) else return i

/-- `while (sql[i] != '=') i++;` and the like; `src/lib/matu.h:569,572,577,579,581`. -/
def skip (sql : List Char) (pass : Char → Bool) (i : Nat) : Except ScanFault Nat :=
  skipLoop sql pass (sql.length + 1) i

/-- The assigned string: from the first character behind `=` and blanks up to the next blank;
`src/lib/matu.h:577–582,585–590,593–598`. -/
def valueAt (sql : List Char) (i : Nat) : Except ScanFault (List UInt8) := do
  let i ← skip sql (fun ch ↦ ch != '=') i
  let i ← skip sql (fun ch ↦ ch == ' ') (i + 1)
  let j ← skip sql (fun ch ↦ ch != ' ') (i + 1)
  return ((sql.drop i).take (j - i)).map byte

/-- The assigned field and its value; `src/lib/matu.h:561–599`. -/
def assignmentParse (sql : List Char) : Except ScanFault Assignment := do
  let i ← setLoop sql sql.length 0
  let i ← skip sql (fun ch ↦ ch == ' ') (i + 3)
  if ← matchesAt sql "s".toList i then
    let i ← skip sql (fun ch ↦ ch != '=') i
    let sex ← str2int (sql.drop (i + 1)) 0
    return { sex }
  else if ← matchesAt sql "e".toList i then
    let mail ← valueAt sql i
    return { mail }
  else if ← matchesAt sql "na".toList i then
    let name ← valueAt sql i
    return { name }
  else if ← matchesAt sql "nu".toList i then
    let num ← valueAt sql i
    return { num }
  else return {}

/-- The text from its first `se` on. -/
def fromSet : List Char → List Char
  | [] => []
  | ch :: rest => if "se".toList.isPrefixOf (ch :: rest) then ch :: rest else fromSet rest

/-- The text behind its leading blanks. -/
def fromWord (text : List Char) : List Char := text.dropWhile fun ch ↦ ch == ' '

/-- The text behind its first `=`. -/
def behindEqual (text : List Char) : List Char := (text.dropWhile fun ch ↦ ch != '=').drop 1

/-- The text from the field on that is assigned. -/
def field (text : List Char) : List Char := fromWord ((fromSet text).drop 3)

/-- The string that is assigned in a text from its field on. -/
def value (text : List Char) : List UInt8 :=
  ((fromWord (behindEqual text)).takeWhile fun ch ↦ ch != ' ').map byte

/-- A field that takes a string. -/
def Worded (text : List Char) : Prop :=
  "e".toList <+: text ∨ "na".toList <+: text ∨ "nu".toList <+: text

/-- There is a character three behind the first `se`, a number behind the `=` of an assigned sex,
and a blank behind the value of any other field. -/
structure Assignable (text : List Char) : Prop where
  found : (fromSet text).drop 3 ≠ []
  number : "s".toList <+: field text → Numbered (behindEqual (field text))
  ended : Worded (field text) → ' ' ∈ fromWord (behindEqual (field text))

/-- The assignment in a text. -/
def assignment (text : List Char) : Assignment :=
  if "s".toList.isPrefixOf (field text) then { sex := number (behindEqual (field text)) }
  else if "e".toList.isPrefixOf (field text) then { mail := value (field text) }
  else if "na".toList.isPrefixOf (field text) then { name := value (field text) }
  else if "nu".toList.isPrefixOf (field text) then { num := value (field text) }
  else {}

section Reads

variable {sql text pat : List Char} {pass : Char → Bool} {i j n : Nat}

/-- A step and what follows it. -/
theorem bind_eq_ok {α β : Type} {x : Except ScanFault α} {f : α → Except ScanFault β} {r : β} :
    x >>= f = .ok r ↔ ∃ a, x = .ok a ∧ f a = .ok r := by
  refine ⟨bind_ok, fun ⟨a, hx, hf⟩ ↦ ?_⟩
  rw [ok_bind hx, hf]

/-- No character is read where the text has ended. -/
private theorem charAt_nil (h : (window sql).drop i = []) (ch : Char) :
    charAt sql i ≠ .ok ch := by
  intro hread
  obtain ⟨text, htext⟩ := cons_of_charAt hread
  rw [h] at htext
  cases htext

/-- The text from a later position on. -/
private theorem drop_add (h : (window sql).drop i = text) (k : Nat) :
    (window sql).drop (i + k) = text.drop k := by
  rw [← List.drop_drop, h]

private theorem drop_takeWhile (p : Char → Bool) (text : List Char) :
    text.drop (text.takeWhile p).length = text.dropWhile p := by
  have hdrop : (text.takeWhile p ++ text.dropWhile p).drop (text.takeWhile p).length =
      text.dropWhile p := List.drop_left
  rwa [List.takeWhile_append_dropWhile] at hdrop

/-- A loop ends where the text has a character that it does not pass. -/
private theorem skipLoop_eq_iff (h : (window sql).drop i = text) (hn : text.length ≤ n) :
    skipLoop sql pass n i = .ok j ↔
      text.dropWhile pass ≠ [] ∧ j = i + (text.takeWhile pass).length := by
  induction text generalizing i n with
  | nil =>
    refine iff_of_false (fun hok ↦ ?_) fun hne ↦ hne.1 rfl
    cases n with
    | zero => cases hok
    | succ n =>
      obtain ⟨ch, hread, _⟩ := bind_ok hok
      exact charAt_nil h ch hread
  | cons ch text ih =>
    cases n with
    | zero => simp at hn
    | succ n =>
      rw [List.length_cons] at hn
      rw [skipLoop, ok_bind (charAt_of_cons h)]
      by_cases hpass : pass ch = true
      · rw [List.dropWhile_cons_of_pos hpass, List.takeWhile_cons_of_pos hpass, if_pos hpass,
          ih (drop_succ h) (by omega), List.length_cons, Nat.add_assoc, Nat.add_comm 1]
      · rw [List.dropWhile_cons_of_neg hpass, List.takeWhile_cons_of_neg hpass, if_neg hpass]
        constructor
        · intro hok
          cases hok
          exact ⟨List.cons_ne_nil ch text, rfl⟩
        · rintro ⟨_, rfl⟩
          rfl

/-- A loop and what follows it. -/
private theorem skip_bind {α : Type} {f : Nat → Except ScanFault α} {r : α}
    (h : (window sql).drop i = text) : (skip sql pass i >>= f) = .ok r ↔
      text.dropWhile pass ≠ [] ∧ f (i + (text.takeWhile pass).length) = .ok r := by
  rw [bind_eq_ok]
  constructor
  · rintro ⟨j, hj, hf⟩
    obtain ⟨hne, rfl⟩ := (skipLoop_eq_iff h (length_le h)).mp hj
    exact ⟨hne, hf⟩
  · rintro ⟨hne, hf⟩
    exact ⟨_, (skipLoop_eq_iff h (length_le h)).mpr ⟨hne, rfl⟩, hf⟩

/-- The text where a loop ends. -/
private theorem drop_skip (h : (window sql).drop i = text) :
    (window sql).drop (i + (text.takeWhile pass).length) = text.dropWhile pass := by
  rw [drop_add h, drop_takeWhile]

/-- Where the terminating character is still ahead, no comparison reads past it. -/
private theorem matchesAt_ended (h : (window sql).drop i = text) (hnul : nul ∈ text)
    (hpat : nul ∉ pat) : matchesAt sql pat i = .ok (pat.isPrefixOf text) :=
  matchesAt_eq h fun hpre ↦ absurd (hpre.subset hnul) hpat

private theorem window_eq (hlen : sql.length < 2 ^ 31) : window sql = sql ++ [nul] := by
  unfold window
  rw [List.take_of_length_le]
  rw [List.length_append, List.length_singleton]
  exact hlen

private theorem nul_mem (hlen : sql.length < 2 ^ 31) (h : (window sql).drop i = text)
    (hne : text ≠ []) : nul ∈ text := by
  rw [window_eq hlen] at h
  have hi : i ≤ sql.length := by
    by_contra hgt
    refine hne ?_
    rw [← h, List.drop_eq_nil_iff, List.length_append, List.length_singleton]
    omega
  rw [← h, List.drop_append_of_le_length hi]
  exact List.mem_append_right _ List.mem_cons_self

/-- The loop to the first `se`, and the three characters that are passed behind it. -/
private theorem setLoop_eq (hlen : sql.length < 2 ^ 31) (h : (window sql).drop i = text)
    (hn : text.length = n + 1) :
    ∃ j, setLoop sql n i = .ok j ∧ (window sql).drop (j + 3) = (fromSet text).drop 3 := by
  induction n generalizing i text with
  | zero =>
    obtain ⟨ch, rfl⟩ := List.length_eq_one_iff.mp hn
    have hno : ¬ "se".toList.isPrefixOf [ch] = true := fun hpre ↦
      absurd (List.isPrefixOf_iff_prefix.mp hpre).length_le (by
        rw [List.length_singleton]
        decide)
    refine ⟨i, rfl, ?_⟩
    rw [drop_add h, fromSet, if_neg hno]
    rfl
  | succ n ih =>
    cases text with
    | nil => cases hn
    | cons ch rest =>
      have hmatch : matchesAt sql "se".toList i = _ :=
        matchesAt_ended h (nul_mem hlen h (List.cons_ne_nil ch rest)) (by decide)
      rw [setLoop, ok_bind hmatch, fromSet]
      split
      · exact ⟨i, rfl, drop_add h 3⟩
      · exact ih (drop_succ h) (by simpa using hn)

/-- The characters of the string from a position on. -/
private theorem take_drop_eq (hlen : sql.length < 2 ^ 31) (h : (window sql).drop i = text)
    {k : Nat} (hk : k < text.length) : (sql.drop i).take k = text.take k := by
  rw [window_eq hlen] at h
  have hi : i ≤ sql.length := by
    rw [← h, List.length_drop, List.length_append, List.length_singleton] at hk
    omega
  rw [List.drop_append_of_le_length hi] at h
  rw [← h, List.take_append_of_le_length]
  rw [← h, List.length_append, List.length_singleton] at hk
  omega

private theorem dropWhile_ne_nil_iff {rest : List Char} :
    (rest.dropWhile fun ch ↦ ch != ' ') ≠ [] ↔ ' ' ∈ rest := by
  rw [ne_eq, List.dropWhile_eq_nil_iff]
  simp

/-- What is behind leading blanks does not start with one. -/
private theorem head_fromWord {ch : Char} {rest : List Char} (h : fromWord text = ch :: rest) :
    ch ≠ ' ' := by
  have hhead := List.head?_dropWhile_not (fun ch ↦ ch == ' ') text
  rw [show text.dropWhile _ = ch :: rest from h, List.head?_cons] at hhead
  simpa using hhead

/-- The value of a field is read exactly when a blank follows it. -/
private theorem valueAt_eq_iff {v : List UInt8} (hlen : sql.length < 2 ^ 31)
    (h : (window sql).drop i = text) :
    valueAt sql i = .ok v ↔ ' ' ∈ fromWord (behindEqual text) ∧ v = value text := by
  -- the positions behind `=` and behind the blanks there
  have hequal : (window sql).drop (i + (text.takeWhile fun ch ↦ ch != '=').length + 1) =
      behindEqual text := drop_add (drop_skip h) 1
  have hword : (window sql).drop _ = fromWord (behindEqual text) := drop_skip hequal
  rw [valueAt, skip_bind h, skip_bind hequal, skip_bind (drop_add hword 1)]
  unfold value
  change _ ∧ fromWord (behindEqual text) ≠ [] ∧ _ ↔ _
  cases hcons : fromWord (behindEqual text) with
  | nil => simp
  | cons ch rest =>
    have hne := head_fromWord hcons
    have htake : (ch :: rest).takeWhile (fun ch ↦ ch != ' ') =
        ch :: rest.takeWhile fun ch ↦ ch != ' ' := List.takeWhile_cons_of_pos (by simpa using hne)
    have hfound : (text.dropWhile fun ch ↦ ch != '=') ≠ [] := by
      intro hnil
      have hbehind : behindEqual text = [] := by rw [behindEqual, hnil, List.drop_nil]
      rw [hbehind] at hcons
      cases hcons
    rw [hcons] at hword
    rw [List.drop_one, List.tail_cons, dropWhile_ne_nil_iff, htake, List.mem_cons,
      or_iff_right hne.symm]
    simp only [hfound, ne_eq, not_false_eq_true, reduceCtorEq, true_and]
    refine and_congr_right fun hblank ↦ ?_
    have hlt : (rest.takeWhile fun ch ↦ ch != ' ').length < rest.length := by
      have hlen := congrArg List.length
        (List.takeWhile_append_dropWhile (p := fun ch ↦ ch != ' ') (l := rest))
      have hpos := List.length_pos_iff.mpr (dropWhile_ne_nil_iff.mpr hblank)
      rw [List.length_append] at hlen
      omega
    have hprefix :=
      List.prefix_iff_eq_take.mp (List.takeWhile_prefix (l := rest) fun ch ↦ ch != ' ')
    generalize i + _ + 1 + _ = k at hword
    rw [Nat.add_assoc, Nat.add_sub_cancel_left, Nat.add_comm 1, take_drop_eq hlen hword (by
      rw [List.length_cons]
      omega), List.take_succ_cons, ← hprefix]
    exact ⟨fun hok ↦ (Except.ok.inj hok).symm, fun hv ↦ congrArg Except.ok hv.symm⟩

/-- An assigned string and what is made of it. -/
private theorem valueAt_bind {s : Assignment} (hlen : sql.length < 2 ^ 31)
    (h : (window sql).drop i = text) (make : List UInt8 → Assignment) :
    (do let v ← valueAt sql i; return make v) = Except.ok s ↔
      ' ' ∈ fromWord (behindEqual text) ∧ s = make (value text) := by
  rw [bind_eq_ok]
  constructor
  · rintro ⟨v, hv, hs⟩
    obtain ⟨hblank, rfl⟩ := (valueAt_eq_iff hlen h).mp hv
    exact ⟨hblank, (Except.ok.inj hs).symm⟩
  · rintro ⟨hblank, rfl⟩
    exact ⟨_, (valueAt_eq_iff hlen h).mpr ⟨hblank, rfl⟩, rfl⟩

/-- The terminating character is behind every `=`. -/
private theorem behindEqual_ne_nil (hlen : sql.length < 2 ^ 31) (h : (window sql).drop i = text)
    (hne : (text.dropWhile fun ch ↦ ch != '=') ≠ []) : behindEqual text ≠ [] := by
  have hnul := nul_mem hlen (drop_skip h) hne
  have hhead := List.head?_dropWhile_not (fun ch ↦ ch != '=') text
  unfold behindEqual
  cases hcons : text.dropWhile fun ch ↦ ch != '=' with
  | nil => exact absurd hcons hne
  | cons ch rest =>
    rw [hcons, List.head?_cons] at hhead
    obtain rfl : ch = '=' := by simpa using hhead
    rw [hcons] at hnul
    exact List.ne_nil_of_mem ((List.mem_cons.mp hnul).resolve_left (by decide))

/-- The number of an assigned sex is read in the text behind the `=`. -/
private theorem sex_bind {s : Assignment} (hlen : sql.length < 2 ^ 31)
    (h : (window sql).drop i = text) :
    (do
      let i ← skip sql (fun ch ↦ ch != '=') i
      let sex ← str2int (sql.drop (i + 1)) 0
      return ({ sex } : Assignment)) = Except.ok s ↔
      Numbered (behindEqual text) ∧ s = { sex := number (behindEqual text) } := by
  have hequal : (window sql).drop (i + (text.takeWhile fun ch ↦ ch != '=').length + 1) =
      behindEqual text := drop_add (drop_skip h) 1
  rw [skip_bind h]
  generalize i + _ + 1 = k at hequal
  have hrest : behindEqual text ≠ [] → (window (sql.drop k)).drop 0 = behindEqual text := by
    intro hne
    rw [window_eq hlen] at hequal
    have hk : k ≤ sql.length := by
      by_contra hgt
      refine hne ?_
      rw [← hequal, List.drop_eq_nil_iff, List.length_append, List.length_singleton]
      omega
    rw [List.drop_append_of_le_length hk] at hequal
    rw [window_eq (by rw [List.length_drop]; omega), hequal, List.drop_zero]
  have hfound : behindEqual text ≠ [] → (text.dropWhile fun ch ↦ ch != '=') ≠ [] := by
    intro hne hnil
    refine hne ?_
    rw [behindEqual, hnil, List.drop_nil]
  rw [bind_eq_ok]
  constructor
  · rintro ⟨hne, x, hx, hs⟩
    have hbehind := behindEqual_ne_nil hlen h hne
    have hnum := numbered_of_str2int (hrest hbehind) hx
    rw [str2int_eq (hrest hbehind) hnum, Except.ok.injEq] at hx
    rw [← hx] at hs
    exact ⟨hnum, (Except.ok.inj hs).symm⟩
  · rintro ⟨hnum, rfl⟩
    have hne : behindEqual text ≠ [] := fun hnil ↦ hnum.found (by rw [hnil]; rfl)
    exact ⟨hfound hne, _, str2int_eq (hrest hne) hnum, rfl⟩

/-- The assignment of a statement is parsed without a fault exactly when its parts are there, and
then the field is the one behind the first `se`, with the value up to the next blank. -/
theorem assignmentParse_ok_iff {s : Assignment} (hlen : sql.length < 2 ^ 31) :
    assignmentParse sql = .ok s ↔
      Assignable (sql ++ [nul]) ∧ s = assignment (sql ++ [nul]) := by
  have hzero : (window sql).drop 0 = sql ++ [nul] := window_eq hlen
  obtain ⟨j, hset, hdrop⟩ := setLoop_eq hlen hzero List.length_append
  generalize sql ++ [nul] = text at hdrop ⊢
  have hfield : (window sql).drop _ = field text := drop_skip hdrop
  rw [assignmentParse, ok_bind hset, skip_bind hdrop]
  generalize j + 3 + _ = k at hfield ⊢
  change field text ≠ [] ∧ _ ↔ _
  have hfound : (fromSet text).drop 3 ≠ [] ↔ field text ≠ [] := by
    refine ⟨fun hne ↦ ?_, fun hne hnil ↦ hne (by rw [field, hnil]; rfl)⟩
    have hnul := nul_mem hlen hdrop hne
    unfold field fromWord
    rw [ne_eq, List.dropWhile_eq_nil_iff]
    exact fun hall ↦ absurd (hall nul hnul) (by decide)
  by_cases hnil : field text = []
  · exact iff_of_false (fun h ↦ h.1 hnil) fun h ↦ hfound.mp h.1.found hnil
  have hnul := nul_mem hlen hfield hnil
  rw [ok_bind (matchesAt_ended hfield hnul (by decide)),
    ok_bind (matchesAt_ended hfield hnul (by decide)),
    ok_bind (matchesAt_ended hfield hnul (by decide)),
    ok_bind (matchesAt_ended hfield hnul (by decide)), and_iff_right hnil]
  unfold assignment
  by_cases hs : "s".toList.isPrefixOf (field text) = true
  · have hsex := List.isPrefixOf_iff_prefix.mp hs
    have hnot : ¬ Worded (field text) := by
      obtain ⟨rest, hrest⟩ := hsex
      rw [← hrest]
      simp [Worded]
    rw [if_pos hs, if_pos hs, sex_bind hlen hfield]
    refine and_congr_left' ⟨fun hnum ↦ ?_, fun ha ↦ ha.number hsex⟩
    exact ⟨hfound.mpr hnil, fun _ ↦ hnum, fun hw ↦ absurd hw hnot⟩
  rw [if_neg hs, if_neg hs]
  have hnot : ¬ "s".toList <+: field text := mt List.isPrefixOf_iff_prefix.mpr hs
  have hassignable : Worded (field text) →
      (' ' ∈ fromWord (behindEqual (field text)) ↔ Assignable text) := fun hw ↦
    ⟨fun hb ↦ ⟨hfound.mpr hnil, fun h ↦ absurd h hnot, fun _ ↦ hb⟩, fun ha ↦ ha.ended hw⟩
  by_cases he : "e".toList.isPrefixOf (field text) = true
  · rw [if_pos he, if_pos he, valueAt_bind hlen hfield fun v ↦ { mail := v },
      hassignable (.inl (List.isPrefixOf_iff_prefix.mp he))]
  rw [if_neg he, if_neg he]
  by_cases ha : "na".toList.isPrefixOf (field text) = true
  · rw [if_pos ha, if_pos ha, valueAt_bind hlen hfield fun v ↦ { name := v },
      hassignable (.inr (.inl (List.isPrefixOf_iff_prefix.mp ha)))]
  rw [if_neg ha, if_neg ha]
  by_cases hu : "nu".toList.isPrefixOf (field text) = true
  · rw [if_pos hu, if_pos hu, valueAt_bind hlen hfield fun v ↦ { num := v },
      hassignable (.inr (.inr (List.isPrefixOf_iff_prefix.mp hu)))]
  rw [if_neg hu, if_neg hu]
  have hw : ¬ Worded (field text) := by
    unfold Worded
    rw [← List.isPrefixOf_iff_prefix, ← List.isPrefixOf_iff_prefix, ← List.isPrefixOf_iff_prefix]
    tauto
  exact ⟨fun h ↦ ⟨⟨hfound.mpr hnil, fun h ↦ absurd h hnot, fun h ↦ absurd h hw⟩,
    (Except.ok.inj h).symm⟩, fun h ↦ congrArg Except.ok h.2.symm⟩

example : assignmentParse "update table set number = 20190603x where id<50".toList =
    .ok { num := "20190603x".toList.map byte } := by
  decide +kernel

/-- The `se` of another word is found first, and the number of the clause becomes the sex. -/
example : assignmentParse "update users set name = x where id<50".toList =
    .ok { sex := 50 } := by
  decide +kernel

end Reads

end ExampleEngine.Matu.Scan
