import ExampleEngine.Handler.Consistency

/-!
# Search modes on secondary indexes

Library `Handler`. `index_read` of `src/ha_example.cc:737–837` on a secondary index, with a
value for all columns. Each mode is a marker in the search key and a flag of the iterator; all
but two of these pairs come to the entry that the mode asks for.
-/

namespace ExampleEngine.Handler

open ExampleEngine.Base ExampleEngine.Storage ExampleEngine.Index

/-- The columns of an entry of index `i` against a value of these columns. -/
def TableShare.valueCompare (share : TableShare) (i : Nat) (e : Slot Key) (v : Key) : Int :=
  compareParts (share.keyInfo i).parts (e.key.drop 1) v

namespace HaRkeyFunction

/-- The entries that a mode asks for, by the comparison of their columns with the value. -/
def Qualifies : HaRkeyFunction → Int → Prop
  | .HA_READ_KEY_EXACT, d => d = 0
  | .HA_READ_KEY_OR_NEXT, d => 0 ≤ d
  | .HA_READ_KEY_OR_PREV, d => d ≤ 0
  | .HA_READ_AFTER_KEY, d => 0 < d
  | .HA_READ_BEFORE_KEY, d => d < 0
  | .HA_READ_PREFIX_LAST_OR_PREV, d => d ≤ 0
  | .other, _ => False

/-- The mode asks for the entry `e` rather than for `e'`: the first ones, the last ones, or any
with the columns searched for before the last ones. -/
def Prefers (share : TableShare) (i : Nat) (v : Key) (e e' : Slot Key) : HaRkeyFunction → Prop
  | .HA_READ_BEFORE_KEY => share.secondKeyCompare e'.key e.key ≤ 0
  | .HA_READ_PREFIX_LAST_OR_PREV => share.secondKeyCompare e'.key e.key ≤ 0
  | .HA_READ_KEY_OR_PREV => share.valueCompare i e v = 0 ∨
      share.valueCompare i e' v ≠ 0 ∧ share.secondKeyCompare e'.key e.key ≤ 0
  | _ => share.secondKeyCompare e.key e'.key ≤ 0

/-- The live entry of index `i` that the mode asks for. -/
structure Selects (share : TableShare) (i : Nat) (v : Key) (f : HaRkeyFunction)
    (es : List (Slot Key)) (e : Slot Key) : Prop where
  mem : e ∈ es
  index : indexOf e.key = i
  qualifies : f.Qualifies (share.valueCompare i e v)
  best : ∀ e' ∈ es, indexOf e'.key = i → f.Qualifies (share.valueCompare i e' v) →
    f.Prefers share i v e e'

/-- If an entry of the active index qualifies, `index_read` returns 0 with the cursor on the one
that the mode asks for, and what is fetched is that entry or its row. -/
def Selected (share : TableShare) (server : Server) (buf : Nat) (v : Key) (f : HaRkeyFunction)
    (s : HaExample) : Prop :=
  (∃ e ∈ s.entries, indexOf e.key = s.activeIndex ∧
    f.Qualifies (share.valueCompare s.activeIndex e v)) →
  wp (fun _ ↦ False) (HaExample.indexRead share server buf v f) (fun code s' ↦ code = 0 ∧
    ∃ e, f.Selects share s.activeIndex v s.entries e ∧ Stands s'.secondTree s'.secIt e ∧
      EntryOutcome share s s.activeIndex buf e code s') s

end HaRkeyFunction

section Landings

variable {share : TableShare} {i : Nat} {v k : Key} {flag : UInt8} {sign : Int}
  {es : List (Slot Key)} {e₀ : Slot Key} {f : IterFlag}

/-- The entries of an index are compared with a search key by its value. -/
theorem entryCompare_searchKey (hv : v.length = (share.keyInfo i).keyLength)
    (hk : indexOf (searchKey i flag v k) = i) {e : Slot Key} (he : indexOf e.key = i) :
    share.entryCompare e.key (searchKey i flag v k) = share.valueCompare i e v := by
  have hzero : (indexOf e.key : Int) - indexOf (searchKey i flag v k) = 0 := by omega
  have hcols : share.columnsCompare e.key (searchKey i flag v k) = share.valueCompare i e v := by
    unfold TableShare.columnsCompare TableShare.valueCompare
    rw [he]
    refine compareParts_congr rfl ?_
    rw [KeyInfo.storeLength_parts, searchKey_eq, List.drop_one, List.tail_cons,
      List.take_left' hv, List.take_of_length_le (Nat.le_of_eq hv)]
  unfold TableShare.entryCompare lexicographic
  rw [if_neg (not_not.mpr hzero), hcols]

/-- Entries that are not below another are of no lower index. -/
private theorem indexOf_le_of_entry {a b : Key} (h : 0 ≤ share.entryCompare a b) :
    indexOf b ≤ indexOf a := by
  by_contra hlt
  have hneg : (indexOf a : Int) - indexOf b < 0 := by omega
  have : share.entryCompare a b < 0 := lexicographic_neg hneg
  omega

/-- A search with a marker finds the first, or last, entry of the index among those that it
accepts by the value, if there is one. -/
private theorem search_marked {A : Int → Prop} (ord : share.Ordered)
    (hes : ∀ e ∈ es, share.EntryKey e.key) (hs : Sorted share.secondKeyCompare Slot.key es)
    (hv : v.length = (share.keyInfo i).keyLength) (hk : indexOf (searchKey i flag v k) = i)
    (hm : Marks share.secondKeyCompare share.entryCompare (fun _ ↦ True)
      (searchKey i flag v k) sign)
    (hA : ∀ d : Int, f.Qualifies (if d ≠ 0 then d else sign) ↔ A d)
    (hdir : ∀ d, A d → if f.backward then d ≤ 0 else 0 ≤ d)
    (he₀ : e₀ ∈ es) (hi : indexOf e₀.key = i) (hA₀ : A (share.valueCompare i e₀ v)) :
    ∃ e, f.search share.secondKeyCompare (searchKey i flag v k) es = some e ∧
      indexOf e.key = i ∧ A (share.valueCompare i e v) ∧
      ∀ e' ∈ es, indexOf e'.key = i → A (share.valueCompare i e' v) →
        if f.backward then share.secondKeyCompare e'.key e.key ≤ 0
        else share.secondKeyCompare e.key e'.key ≤ 0 := by
  have haccept : ∀ e, indexOf e.key = i → A (share.valueCompare i e v) →
      f.Qualifies (share.secondKeyCompare e.key (searchKey i flag v k)) := by
    intro e he hAe
    rw [hm _ trivial, hA, entryCompare_searchKey hv hk he]
    exact hAe
  have hq₀ := haccept e₀ hi hA₀
  obtain ⟨e, hsearch⟩ := IterFlag.exists_search he₀ hq₀
  obtain ⟨he, hq⟩ := IterFlag.of_search hsearch
  rw [hm _ trivial, hA] at hq
  have hbest : ∀ e' ∈ es, indexOf e'.key = i → A (share.valueCompare i e' v) →
      if f.backward then share.secondKeyCompare e'.key e.key ≤ 0
      else share.secondKeyCompare e.key e'.key ≤ 0 := fun e' he' hi' hA' ↦
    IterFlag.search_extremal hs ord.second hes hsearch he' (haccept e' hi' hA')
  have hside := hdir _ hq
  have hnear := hbest e₀ he₀ hi hA₀
  have hidx : indexOf e.key = i := by
    cases hb : f.backward with
    | true =>
      rw [hb, if_pos rfl] at hside hnear
      have hle := le_of_lexicographic hside
      have hge := (hes e he).indexOf_le hnear
      omega
    | false =>
      rw [hb, if_neg (by decide)] at hside hnear
      have hge := indexOf_le_of_entry hside
      have hle := (hes e₀ he₀).indexOf_le hnear
      omega
  rw [entryCompare_searchKey hv hk hidx] at hq
  exact ⟨e, hsearch, hidx, hq, hbest⟩

/-- The first entry of the index that is not below the value. -/
private theorem search_first (ord : share.Ordered) (hes : ∀ e ∈ es, share.EntryKey e.key)
    (hs : Sorted share.secondKeyCompare Slot.key es)
    (hv : v.length = (share.keyInfo i).keyLength)
    (hm : share.MarkedKey i 0x80 (searchKey i 0x80 v k))
    (hf : f = .KEY_OR_NEXT ∨ f = .AFTER_KEY) (he₀ : e₀ ∈ es) (hi : indexOf e₀.key = i)
    (h₀ : 0 ≤ share.valueCompare i e₀ v) :
    ∃ e, f.search share.secondKeyCompare (searchKey i 0x80 v k) es = some e ∧
      indexOf e.key = i ∧ 0 ≤ share.valueCompare i e v ∧
      ∀ e' ∈ es, indexOf e'.key = i → 0 ≤ share.valueCompare i e' v →
        share.secondKeyCompare e.key e'.key ≤ 0 := by
  obtain ⟨_, hk, hmark⟩ := TableShare.marks_first hm
  have hA : ∀ d : Int, f.Qualifies (if d ≠ 0 then d else 1) ↔ 0 ≤ d := by
    intro d
    by_cases h0 : d = 0
    · subst h0
      rcases hf with rfl | rfl <;> simp [IterFlag.Qualifies]
    · rw [if_pos h0]
      rcases hf with rfl | rfl
      · rfl
      · show 0 < d ↔ 0 ≤ d
        omega
  have hforward : f.backward = false := by rcases hf with rfl | rfl <;> rfl
  have h := search_marked ord hes hs hv hk hmark hA (fun d hd ↦ by simpa [hforward] using hd)
    he₀ hi h₀
  simpa only [hforward, Bool.false_eq_true, if_false] using h

/-- The last entry of the index that is below the value. -/
private theorem search_below (ord : share.Ordered) (hes : ∀ e ∈ es, share.EntryKey e.key)
    (hs : Sorted share.secondKeyCompare Slot.key es)
    (hv : v.length = (share.keyInfo i).keyLength)
    (hm : share.MarkedKey i 0x80 (searchKey i 0x80 v k))
    (hf : f = .KEY_OR_PREV ∨ f = .BEFROE_KEY) (he₀ : e₀ ∈ es) (hi : indexOf e₀.key = i)
    (h₀ : share.valueCompare i e₀ v < 0) :
    ∃ e, f.search share.secondKeyCompare (searchKey i 0x80 v k) es = some e ∧
      indexOf e.key = i ∧ share.valueCompare i e v < 0 ∧
      ∀ e' ∈ es, indexOf e'.key = i → share.valueCompare i e' v < 0 →
        share.secondKeyCompare e'.key e.key ≤ 0 := by
  obtain ⟨_, hk, hmark⟩ := TableShare.marks_first hm
  have hA : ∀ d : Int, f.Qualifies (if d ≠ 0 then d else 1) ↔ d < 0 := by
    intro d
    by_cases h0 : d = 0
    · subst h0
      rcases hf with rfl | rfl <;> simp [IterFlag.Qualifies]
    · rw [if_pos h0]
      rcases hf with rfl | rfl
      · show d ≤ 0 ↔ d < 0
        omega
      · rfl
  have hback : f.backward = true := by rcases hf with rfl | rfl <;> rfl
  have h := search_marked ord hes hs hv hk hmark hA
    (fun d hd ↦ by simpa [hback] using Int.le_of_lt hd) he₀ hi h₀
  simpa only [hback, if_true] using h

/-- The last entry of the index that is not above the value. -/
private theorem search_last (ord : share.Ordered) (hes : ∀ e ∈ es, share.EntryKey e.key)
    (hs : Sorted share.secondKeyCompare Slot.key es)
    (hv : v.length = (share.keyInfo i).keyLength)
    (hm : share.MarkedKey i 0x40 (searchKey i 0x40 v k))
    (he₀ : e₀ ∈ es) (hi : indexOf e₀.key = i) (h₀ : share.valueCompare i e₀ v ≤ 0) :
    ∃ e, IterFlag.KEY_OR_PREV.search share.secondKeyCompare (searchKey i 0x40 v k) es = some e ∧
      indexOf e.key = i ∧ share.valueCompare i e v ≤ 0 ∧
      ∀ e' ∈ es, indexOf e'.key = i → share.valueCompare i e' v ≤ 0 →
        share.secondKeyCompare e'.key e.key ≤ 0 := by
  obtain ⟨_, hk, hmark⟩ := TableShare.marks_last hm
  have hA : ∀ d : Int, IterFlag.KEY_OR_PREV.Qualifies (if d ≠ 0 then d else -1) ↔ d ≤ 0 := by
    intro d
    by_cases h0 : d = 0
    · subst h0
      simp [IterFlag.Qualifies]
    · rw [if_pos h0]
      rfl
  exact search_marked ord hes hs hv hk hmark hA (fun d hd ↦ hd) he₀ hi h₀

/-- The two modes whose marker puts equal entries on the wrong side. -/
def HaRkeyFunction.Mistaken (share : TableShare) (i : Nat) (v : Key) (es : List (Slot Key))
    (f : HaRkeyFunction) : Prop :=
  (f = .HA_READ_KEY_OR_PREV ∨ f = .HA_READ_AFTER_KEY ∧
    ∃ e ∈ es, indexOf e.key = i ∧ 0 < share.valueCompare i e v) ∧
  ∃ e ∈ es, indexOf e.key = i ∧ share.valueCompare i e v = 0

/-- Any other search comes to the entry that its mode asks for. -/
private theorem target_selects (ord : share.Ordered) (hes : ∀ e ∈ es, share.EntryKey e.key)
    (hs : Sorted share.secondKeyCompare Slot.key es)
    (hv : v.length = (share.keyInfo i).keyLength)
    (hm : ∀ flag, share.MarkedKey i flag (searchKey i flag v k)) {f : HaRkeyFunction}
    (hnot : ¬ f.Mistaken share i v es) (he₀ : e₀ ∈ es) (hi : indexOf e₀.key = i)
    (h₀ : f.Qualifies (share.valueCompare i e₀ v)) :
    ∃ e, f.target share i v k es = some e ∧ f.Selects share i v es e := by
  cases f with
  | HA_READ_KEY_EXACT =>
    have h₀ : share.valueCompare i e₀ v = 0 := h₀
    obtain ⟨e, hsearch, hidx, hle, hbest⟩ :=
      search_first ord hes hs hv (hm 0x80) (.inl rfl) he₀ hi (by omega)
    obtain ⟨hsk, hk, _⟩ := TableShare.marks_first (hm 0x80)
    obtain ⟨he, _⟩ := IterFlag.of_search hsearch
    -- the first entry is not above the equal one
    have hzero : share.valueCompare i e v = 0 := by
      have hnear := hbest e₀ he₀ hi (by omega)
      rw [(hes e₀ he₀).secondKeyCompare_eq] at hnear
      have htrans := ord.entry.trans (hes e he).searchKey (hes e₀ he₀).searchKey hsk
        (le_of_lexicographic hnear) (by rw [entryCompare_searchKey hv hk hi]; omega)
      rw [entryCompare_searchKey hv hk hidx] at htrans
      omega
    refine ⟨e, ?_, he, hidx, hzero, fun e' he' hi' h' ↦ ?_⟩
    · unfold HaRkeyFunction.target
      rw [hsearch, Option.filter_some_pos]
      simpa [entryCompare_searchKey hv hk hidx] using hzero
    · have h' : share.valueCompare i e' v = 0 := h'
      exact hbest e' he' hi' (by omega)
  | HA_READ_KEY_OR_NEXT =>
    obtain ⟨e, hsearch, hidx, hle, hbest⟩ :=
      search_first ord hes hs hv (hm 0x80) (.inl rfl) he₀ hi h₀
    exact ⟨e, hsearch, (IterFlag.of_search hsearch).1, hidx, hle, hbest⟩
  | HA_READ_KEY_OR_PREV =>
    have hne : ∀ e ∈ es, indexOf e.key = i → share.valueCompare i e v ≠ 0 :=
      fun e he hi' h0 ↦ hnot ⟨.inl rfl, e, he, hi', h0⟩
    have h₀ : share.valueCompare i e₀ v ≤ 0 := h₀
    have h₀' := hne e₀ he₀ hi
    obtain ⟨e, hsearch, hidx, hlt, hbest⟩ :=
      search_below ord hes hs hv (hm 0x80) (.inl rfl) he₀ hi (by omega)
    refine ⟨e, hsearch, (IterFlag.of_search hsearch).1, hidx, Int.le_of_lt hlt,
      fun e' he' hi' h' ↦ ?_⟩
    have h' : share.valueCompare i e' v ≤ 0 := h'
    have hne' := hne e' he' hi'
    exact .inr ⟨hne', hbest e' he' hi' (by omega)⟩
  | HA_READ_AFTER_KEY =>
    have h₀ : 0 < share.valueCompare i e₀ v := h₀
    have hne : ∀ e ∈ es, indexOf e.key = i → share.valueCompare i e v ≠ 0 :=
      fun e he hi' h0 ↦ hnot ⟨.inr ⟨rfl, e₀, he₀, hi, h₀⟩, e, he, hi', h0⟩
    obtain ⟨e, hsearch, hidx, hle, hbest⟩ :=
      search_first ord hes hs hv (hm 0x80) (.inr rfl) he₀ hi (by omega)
    have he := (IterFlag.of_search hsearch).1
    have hne' := hne e he hidx
    refine ⟨e, hsearch, he, hidx, ?_, fun e' he' hi' h' ↦ ?_⟩
    · show 0 < share.valueCompare i e v
      omega
    · have h' : 0 < share.valueCompare i e' v := h'
      exact hbest e' he' hi' (by omega)
  | HA_READ_BEFORE_KEY =>
    obtain ⟨e, hsearch, hidx, hlt, hbest⟩ :=
      search_below ord hes hs hv (hm 0x80) (.inr rfl) he₀ hi h₀
    exact ⟨e, hsearch, (IterFlag.of_search hsearch).1, hidx, hlt, hbest⟩
  | HA_READ_PREFIX_LAST_OR_PREV =>
    obtain ⟨e, hsearch, hidx, hle, hbest⟩ := search_last ord hes hs hv (hm 0x40) he₀ hi h₀
    exact ⟨e, hsearch, (IterFlag.of_search hsearch).1, hidx, hle, hbest⟩
  | other => exact h₀.elim

/-- A mistaken search does not. -/
private theorem not_selects_target (ord : share.Ordered) (hes : ∀ e ∈ es, share.EntryKey e.key)
    (hs : Sorted share.secondKeyCompare Slot.key es)
    (hv : v.length = (share.keyInfo i).keyLength)
    (hm : ∀ flag, share.MarkedKey i flag (searchKey i flag v k)) {f : HaRkeyFunction}
    (hbad : f.Mistaken share i v es) {e : Slot Key} (ht : f.target share i v k es = some e) :
    ¬ f.Selects share i v es e := by
  intro hsel
  obtain ⟨hsk, hk, hmark⟩ := TableShare.marks_first (hm 0x80)
  have hcmp := hmark e.key trivial
  rw [entryCompare_searchKey hv hk hsel.index] at hcmp
  obtain ⟨rfl | ⟨rfl, _⟩, e₀, he₀, hi, h₀⟩ := hbad
  · have hq : share.secondKeyCompare e.key (searchKey i 0x80 v k) ≤ 0 :=
      (IterFlag.of_search ht).2
    rcases hsel.best e₀ he₀ hi (Int.le_of_eq h₀) with h | ⟨h, _⟩
    · rw [if_neg (not_not.mpr h)] at hcmp
      omega
    · exact h h₀
  · have hq : 0 < share.valueCompare i e v := hsel.qualifies
    obtain ⟨e₁, hsearch, _, _, hbest⟩ :=
      search_first ord hes hs hv (hm 0x80) (.inr rfl) he₀ hi (Int.le_of_eq h₀.symm)
    obtain rfl : e₁ = e := Option.some.inj (hsearch.symm.trans ht)
    -- the first entry is not above the equal one
    have hnear := hbest e₀ he₀ hi (by omega)
    rw [(hes e₀ he₀).secondKeyCompare_eq] at hnear
    have htrans := ord.entry.trans (hes e₁ hsel.mem).searchKey (hes e₀ he₀).searchKey hsk
      (le_of_lexicographic hnear) (by rw [entryCompare_searchKey hv hk hi]; omega)
    rw [entryCompare_searchKey hv hk hsel.index] at htrans
    omega

end Landings

section Tables

variable {share : TableShare} {server : Server} {rows : List Row} {s : HaExample} {v : Key}
  {W : HaExample → Nat → Prop} {f : HaRkeyFunction} {buf : Nat}

/-- A search selects exactly when it is not mistaken. -/
theorem Consistent.selected_iff (hc : Consistent share rows s) (ord : share.Ordered)
    (ho : Opened share s) (h1 : 1 ≤ s.activeIndex)
    (hv : v.length = (share.keyInfo s.activeIndex).keyLength) :
    f.Selected share server buf v s ↔ ¬ f.Mistaken share s.activeIndex v s.entries := by
  have hactive := ho.active
  obtain ⟨_, hvalid⟩ := ho.exists_second (by omega)
  have hes : ∀ e ∈ s.entries, share.EntryKey e.key := hvalid.keys
  have hsorted : Sorted share.secondKeyCompare Slot.key s.entries := hvalid.sorted
  have hm : ∀ flag, share.MarkedKey s.activeIndex flag
      (searchKey s.activeIndex flag v s.keyBuffer) :=
    fun flag ↦ markedKey_searchKey h1 hactive ho.keyBuffer
  have hread : wp (fun _ ↦ False) (HaExample.indexRead share server buf v f)
      (fun code s' ↦ MoveOutcome share s buf f.err
        (f.target share s.activeIndex v s.keyBuffer s.entries) code s') s :=
    ho.wp_indexRead_second ord h1 fun code s' _ _ _ hout ↦ hout
  constructor
  · intro hsel hbad
    have hex : ∃ e ∈ s.entries, indexOf e.key = s.activeIndex ∧
        f.Qualifies (share.valueCompare s.activeIndex e v) := by
      obtain ⟨rfl | ⟨rfl, hgreater⟩, e, he, hi, h0⟩ := hbad
      · exact ⟨e, he, hi, Int.le_of_eq h0⟩
      · exact hgreater
    obtain ⟨code, s', hrun, hout⟩ := exists_run hread
    obtain ⟨rfl, e, hselects, hst, _⟩ := wp_ok (hsel hex) hrun
    generalize ht : f.target share s.activeIndex v s.keyBuffer s.entries = target at hout
    generalize hcode : (0 : Int) = code at hout
    cases hout with
    | nowhere => exact f.err_ne_zero hcode.symm
    | «at» e' _ _ _ hst' _ =>
      obtain rfl := hst.unique hst'
      exact not_selects_target ord hes hsorted hv hm hbad ht hselects
  · rintro hnot ⟨e₀, he₀, hi, hq⟩
    obtain ⟨e, ht, hselects⟩ := target_selects ord hes hsorted hv hm hnot he₀ hi hq
    rw [ht] at hread
    refine wp_mono hread fun code s' hout ↦ ?_
    cases hout with
    | «at» _ _ _ he hst hrow =>
      have hrow' := hrow
      rw [← hselects.index] at hrow'
      exact ⟨hrow'.code_eq hc ord ho he, e, hselects, hst, hrow⟩

/-- In every state of a table, for every secondary index, every value of all its columns and every
mode, `index_read` comes to the entry that the mode asks for, exactly
when it is not that `HA_READ_KEY_OR_PREV` meets an equal entry, or `HA_READ_AFTER_KEY` an equal
entry before a greater one. -/
theorem index_read_selects (ord : share.Ordered) (hs : Stored share server W rows s)
    (h1 : 1 ≤ s.activeIndex) (hv : v.length = (share.keyInfo s.activeIndex).keyLength) :
    f.Selected share server buf v s ↔ ¬ f.Mistaken share s.activeIndex v s.entries := by
  obtain ⟨ho, hc⟩ := hs.sound ord
  exact hc.selected_iff ord ho h1 hv

end Tables

section Digits

/-- The last entry below a value. -/
theorem indexedTable_selects :
    HaRkeyFunction.HA_READ_BEFORE_KEY.Selected digits lenient 1 [5] indexedTable := by
  obtain ⟨rows, hs⟩ := indexedTable_stored
  refine (index_read_selects digits_ordered hs (by decide) (by decide)).mpr ?_
  rintro ⟨h | ⟨h, _⟩, _⟩ <;> cases h

/-- `HA_READ_AFTER_KEY` does not pass over the entry that is equal. -/
theorem after_key_not_selected : ¬ ∀ (share : TableShare) (server : Server)
    (W : HaExample → Nat → Prop) (rows : List Row) (s : HaExample), share.Ordered →
    Stored share server W rows s → 1 ≤ s.activeIndex → ∀ (buf : Nat) (v : Key),
    v.length = (share.keyInfo s.activeIndex).keyLength → ∀ f : HaRkeyFunction, f ≠ .other →
    f.Selected share server buf v s := by
  intro hall
  obtain ⟨rows, hs⟩ := indexedTable_stored
  obtain ⟨ho, hc⟩ := hs.sound digits_ordered
  have hsel := hall digits lenient _ rows indexedTable digits_ordered hs (by decide) 1 [4]
    (by decide) .HA_READ_AFTER_KEY (by decide)
  refine (hc.selected_iff digits_ordered ho (by decide) (by decide)).mp hsel
    ⟨.inr ⟨rfl, ?_⟩, ?_⟩ <;> decide +kernel

end Digits

end ExampleEngine.Handler
