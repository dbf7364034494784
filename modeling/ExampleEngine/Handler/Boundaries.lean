import ExampleEngine.Handler.Table
import ExampleEngine.Index.Runs

/-!
# Search keys as boundaries

Library `Handler`. A search key with the marker 0x80 or 0x40 leads to the first or behind the
last entry with its columns, whatever follows the columns in it. From the first on `next` comes
by all of them, as when `index_read` of `src/ha_example.cc:751–766` and moves on from it are
checked with `second_key_compare_prefix`.
-/

namespace ExampleEngine.Handler

open ExampleEngine.Base ExampleEngine.Storage ExampleEngine.Index

/-- A search key of index `i` with a marker: the columns, and anything behind them. -/
def markedKey (i : Nat) (flag : UInt8) (v tail : Key) : Key :=
  (UInt8.ofNat i ||| flag) :: (v ++ tail)

/-- The entries from the first that is not before a search key, while their columns are those of
the search key. -/
def equalRun (share : TableShare) (key : Key) : TreeM Key (List Key) := do
  let r ← Iterator.locate share.second key .KEY_OR_NEXT
  let fuel ← Iterator.fuel
  Iterator.collectWhile (fun k ↦ share.secondKeyComparePrefix k key = 0) fuel r

/-- In a tree of entries, the columns `v` of index `i` with a marker are the boundaries of the
run of entries with these columns: the marker 0x80 cuts off the entries below `(i, v)`, the marker
0x40 also those equal to it, and the run is collected in the order of primary keys. -/
structure Bounds (share : TableShare) (t : BTree Key) (i : Nat) (v : Key) : Prop where
  first : ∀ tail, wp (fun _ ↦ False) (BTree.position share.second (markedKey i 0x80 v tail))
    (fun p t' ↦ BTree.Same t t' ∧ CutsAt share.second t' p
      (t.slots.filter fun e ↦ share.entryCompare e.key (UInt8.ofNat i :: v) < 0)
      (t.slots.filter fun e ↦ ¬ share.entryCompare e.key (UInt8.ofNat i :: v) < 0)) t
  last : ∀ tail, wp (fun _ ↦ False) (BTree.position share.second (markedKey i 0x40 v tail))
    (fun p t' ↦ BTree.Same t t' ∧ CutsAt share.second t' p
      (t.slots.filter fun e ↦ share.entryCompare e.key (UInt8.ofNat i :: v) ≤ 0)
      (t.slots.filter fun e ↦ ¬ share.entryCompare e.key (UInt8.ofNat i :: v) ≤ 0)) t
  run : ∀ tail, wp (fun _ ↦ False) (equalRun share (markedKey i 0x80 v tail))
    (fun keys t' ↦ BTree.Same t t' ∧
      keys = (t.live.filter fun e ↦
        share.entryCompare e.key (UInt8.ofNat i :: v) = 0).map Slot.key ∧
      keys.Pairwise fun a b ↦ share.primaryKeyCompare (share.rowOf a) (share.rowOf b) < 0) t

section Marked

variable {share : TableShare} {i : Nat} {v tail a : Key} {t : BTree Key}

private theorem entryCompare_eq (a b : Key) : share.entryCompare a b =
    if indexOf a = indexOf b then share.columnsCompare a b
    else (indexOf a : Int) - indexOf b := by
  unfold TableShare.entryCompare lexicographic
  by_cases h : indexOf a = indexOf b
  · rw [if_neg (by simpa using Int.sub_eq_zero.mpr (congrArg _ h)), if_pos h]
  · rw [if_pos (by show ((indexOf a : Int) - indexOf b) ≠ 0; omega), if_neg h]

private theorem indexOf_marked (hi : i < share.keys) {flag : UInt8}
    (hflag : flag = 0x80 ∨ flag = 0x40) : indexOf (markedKey i flag v tail) = i := by
  have hk := Nat.lt_of_lt_of_le hi share.keys_le
  rcases hflag with rfl | rfl
  · exact (byte_first i hk).1
  · exact (byte_last i hk).1

variable (tail) in
/-- Numbers and columns are compared, and neither the marker nor what follows the columns. -/
theorem entryCompare_marked (hi : i < share.keys)
    (hv : v.length = (share.keyInfo i).keyLength) {flag : UInt8}
    (hflag : flag = 0x80 ∨ flag = 0x40) :
    share.entryCompare a (markedKey i flag v tail) = share.entryCompare a (UInt8.ofNat i :: v) := by
  have hidx : indexOf (UInt8.ofNat i :: v) = i :=
    (byte_number i (Nat.lt_of_lt_of_le hi share.keys_le)).1
  rw [entryCompare_eq, entryCompare_eq, indexOf_marked hi hflag, hidx]
  by_cases h : indexOf a = i
  · rw [if_pos h, if_pos h]
    unfold TableShare.columnsCompare
    refine compareParts_congr rfl ?_
    rw [h, KeyInfo.storeLength_parts]
    exact (List.take_left' hv).trans (List.take_of_length_le (Nat.le_of_eq hv)).symm
  · rw [if_neg h, if_neg h]

/-- The marker 0x80 is before the entries with its columns. -/
private theorem secondKeyCompare_first (hi : i < share.keys)
    (hv : v.length = (share.keyInfo i).keyLength) :
    share.secondKeyCompare a (markedKey i 0x80 v tail) < 0 ↔
      share.entryCompare a (UInt8.ofNat i :: v) < 0 := by
  obtain ⟨-, -, hset, hclear⟩ := byte_first i (Nat.lt_of_lt_of_le hi share.keys_le)
  have hhead : (markedKey i 0x80 v tail).headD 0 = UInt8.ofNat i ||| 0x80 := rfl
  rw [← entryCompare_marked tail hi hv (.inl rfl), TableShare.secondKeyCompare_eq]
  unfold lexicographic
  dsimp only
  rw [hhead, hclear, if_neg (not_not.mpr rfl), if_pos hset]
  split <;> omega

/-- The marker 0x40 is behind them. -/
private theorem secondKeyCompare_last (hi : i < share.keys)
    (hv : v.length = (share.keyInfo i).keyLength) :
    share.secondKeyCompare a (markedKey i 0x40 v tail) < 0 ↔
      share.entryCompare a (UInt8.ofNat i :: v) ≤ 0 := by
  obtain ⟨-, hset⟩ := byte_last i (Nat.lt_of_lt_of_le hi share.keys_le)
  have hhead : (markedKey i 0x40 v tail).headD 0 = UInt8.ofNat i ||| 0x40 := rfl
  rw [← entryCompare_marked tail hi hv (.inr rfl), TableShare.secondKeyCompare_eq]
  unfold lexicographic
  dsimp only
  rw [hhead, if_pos hset]
  split <;> omega

/-- The prefix comparison tells numbers and columns. -/
private theorem secondKeyComparePrefix_marked (ha : share.EntryKey a) (hi : i < share.keys)
    (hv : v.length = (share.keyInfo i).keyLength) :
    share.secondKeyComparePrefix a (markedKey i 0x80 v tail) =
      share.entryCompare a (UInt8.ofNat i :: v) := by
  obtain ⟨j, hj, _, hjk, hheada⟩ := ha.indexOf
  obtain ⟨-, hnum, -⟩ := byte_first i (Nat.lt_of_lt_of_le hi share.keys_le)
  obtain ⟨-, hnuma, -⟩ := byte_number j (Nat.lt_of_lt_of_le hjk share.keys_le)
  have hhead : (markedKey i 0x80 v tail).headD 0 = UInt8.ofNat i ||| 0x80 := rfl
  rw [← entryCompare_marked tail hi hv (.inl rfl), entryCompare_eq,
    indexOf_marked hi (.inl rfl), hj]
  unfold TableShare.secondKeyComparePrefix TableShare.columnsCompare
  simp only [hhead, hheada, hnum, hnuma, hj]
  by_cases h : j = i
  · rw [if_neg (not_not.mpr h), if_pos h]
  · rw [if_pos h, if_neg h]

/-- No entry has the number of the primary key. -/
private theorem entryCompare_zero (ha : share.EntryKey a) :
    0 < share.entryCompare a (UInt8.ofNat 0 :: v) := by
  obtain ⟨j, hj, h1, _, _⟩ := ha.indexOf
  have hidx : indexOf (UInt8.ofNat 0 :: v) = 0 := (byte_number 0 (by decide)).1
  rw [entryCompare_eq, hidx, hj, if_neg (by omega)]
  omega

/-- A marked key finds its place among the entries. -/
private theorem probe_marked (ord : share.Ordered)
    (hv : BTree.Valid share.second share.EntryKey t) (hi : i < share.keys)
    (hlen : v.length = (share.keyInfo i).keyLength) {flag : UInt8}
    (hflag : flag = 0x80 ∨ flag = 0x40) :
    Probe share.secondKeyCompare Slot.key (markedKey i flag v tail) t.slots := by
  obtain ⟨hsorted, hkeys⟩ := hv.slots
  by_cases h0 : i = 0
  · subst h0
    refine List.Pairwise.imp_of_mem (fun {a b} _ hb _ _ ↦ ?_) hsorted
    have hpos := entryCompare_zero (v := v) (hkeys b hb)
    rw [← entryCompare_marked tail hi hlen hflag] at hpos
    rw [TableShare.secondKeyCompare_eq]
    unfold lexicographic
    rw [if_pos (by omega)]
    exact hpos
  · have hmarked : share.MarkedKey i flag (markedKey i flag v tail) := by
      refine ⟨by omega, hi, rfl, ?_⟩
      unfold markedKey
      rw [List.length_cons, List.length_append, hlen]
      omega
    rcases hflag with rfl | rfl
    · obtain ⟨hsk, _, hmark⟩ := TableShare.marks_first hmarked
      exact TableShare.probe_of_marks ord hsorted hkeys hsk (by decide) hmark
    · obtain ⟨hsk, _, hmark⟩ := TableShare.marks_last hmarked
      exact TableShare.probe_of_marks ord hsorted hkeys hsk (by decide) hmark

/-- Entries with the same columns of one index are in the order of their primary keys. -/
private theorem equal_pairwise (ord : share.Ordered)
    (hv : BTree.Valid share.second share.EntryKey t) (hi : i < share.keys)
    (hlen : v.length = (share.keyInfo i).keyLength) :
    ((t.live.filter fun e ↦ share.entryCompare e.key (UInt8.ofNat i :: v) = 0).map
      Slot.key).Pairwise fun a b ↦ share.primaryKeyCompare (share.rowOf a) (share.rowOf b) < 0 := by
  rw [List.pairwise_map]
  refine List.Pairwise.imp_of_mem (fun {a b} ha hb hab ↦ ?_)
    (List.Pairwise.sublist List.filter_sublist hv.sorted)
  obtain ⟨hmema, hea⟩ := List.mem_filter.mp ha
  obtain ⟨hmemb, heb⟩ := List.mem_filter.mp hb
  have hka := hv.keys a hmema
  have hkb := hv.keys b hmemb
  have hea : share.entryCompare a.key (UInt8.ofNat i :: v) = 0 := of_decide_eq_true hea
  have heb : share.entryCompare b.key (UInt8.ofNat i :: v) = 0 := of_decide_eq_true heb
  have hidx : indexOf (UInt8.ofNat i :: v) = i :=
    (byte_number i (Nat.lt_of_lt_of_le hi share.keys_le)).1
  have hi0 : i ≠ 0 := by
    rintro rfl
    have := entryCompare_zero (v := v) hka
    omega
  have hw : share.SearchKey (UInt8.ofNat i :: v) := by
    refine ⟨by omega, by omega, ?_⟩
    rw [hidx, List.length_cons, hlen]
    omega
  have heq : share.entryCompare a.key b.key = 0 :=
    ord.entry.equal_trans hka.searchKey hw hkb.searchKey hea
      (ord.entry.symm hkb.searchKey hw heb)
  change share.secondKeyCompare a.key b.key < 0 at hab
  rw [hkb.secondKeyCompare_eq] at hab
  unfold lexicographic at hab
  rwa [if_neg (not_not.mpr heq)] at hab

/-- The run of entries with the columns of a search key starts where the key leads to, and ends
where the prefix differs. -/
private theorem run_eq (ord : share.Ordered)
    (hv : BTree.Valid share.second share.EntryKey t) (hi : i < share.keys)
    (hlen : v.length = (share.keyInfo i).keyLength) {done rest : List (Slot Key)}
    (hcut : Cut share.secondKeyCompare Slot.key (markedKey i 0x80 v tail) t.live done rest) :
    ((rest.map Slot.key).takeWhile fun k ↦
      share.secondKeyComparePrefix k (markedKey i 0x80 v tail) = 0) =
    (t.live.filter fun e ↦ share.entryCompare e.key (UInt8.ofNat i :: v) = 0).map Slot.key := by
  have hdown : Downward share.secondKeyCompare Slot.key (markedKey i 0x40 v tail) t.live :=
    List.Pairwise.sublist List.filter_sublist (probe_marked ord hv hi hlen (.inr rfl)).downward
  have hkeys := hv.keys
  rw [hcut.eq] at hdown hkeys ⊢
  -- behind the run stand the entries that the marker 0x40 is before
  have hdown : Downward share.secondKeyCompare Slot.key (markedKey i 0x40 v tail) rest :=
    (List.pairwise_append.mp hdown).2.1
  obtain ⟨run, post, hrun⟩ := hdown.exists_cut
  obtain rfl : rest = run ++ post := hrun.eq
  have hdone : ∀ e ∈ done, share.entryCompare e.key (UInt8.ofNat i :: v) ≠ 0 := by
    intro e he
    have := (secondKeyCompare_first hi hlen).mp (hcut.below e he)
    omega
  have hzero : ∀ e ∈ run, share.entryCompare e.key (UInt8.ofNat i :: v) = 0 := by
    intro e he
    have hle := (secondKeyCompare_last hi hlen).mp (hrun.below e he)
    have hge := mt (secondKeyCompare_first hi hlen).mpr
      (Int.not_lt.mpr (hcut.above e (List.mem_append_left _ he)))
    omega
  have hpost : ∀ e ∈ post, share.entryCompare e.key (UInt8.ofNat i :: v) ≠ 0 := by
    intro e he
    have := mt (secondKeyCompare_last hi hlen).mpr
      (Int.not_lt.mpr (hrun.above e he))
    omega
  have hprefix : ∀ e ∈ done ++ (run ++ post),
      share.secondKeyComparePrefix e.key (markedKey i 0x80 v tail) =
        share.entryCompare e.key (UInt8.ofNat i :: v) := fun e he ↦
    secondKeyComparePrefix_marked (hkeys e he) hi hlen
  have hfilter : (done ++ (run ++ post)).filter
      (fun e ↦ share.entryCompare e.key (UInt8.ofNat i :: v) = 0) = run := by
    have hnone : ∀ l : List (Slot Key), (∀ e ∈ l,
        share.entryCompare e.key (UInt8.ofNat i :: v) ≠ 0) → l.filter
        (fun e ↦ share.entryCompare e.key (UInt8.ofNat i :: v) = 0) = [] := fun l hl ↦
      List.filter_eq_nil_iff.mpr fun e he ↦ by simpa using hl e he
    rw [List.filter_append, List.filter_append, hnone done hdone, hnone post hpost,
      List.filter_eq_self.mpr fun e he ↦ by simpa using hzero e he]
    simp
  rw [hfilter, List.map_append, List.takeWhile_append_of_pos]
  · cases post with
    | nil => exact List.append_nil _
    | cons e post =>
      have hne := hpost e List.mem_cons_self
      rw [← hprefix e (by simp)] at hne
      rw [List.map_cons, List.takeWhile_cons_of_neg (by simpa using hne), List.append_nil]
  · intro k hk
    obtain ⟨e, he, rfl⟩ := List.mem_map.mp hk
    rw [decide_eq_true_eq, hprefix e (by simp [he])]
    exact hzero e he

/-- Markers are the boundaries of the runs in every tree of entries. -/
theorem bounds_of_valid (ord : share.Ordered)
    (hv : BTree.Valid share.second share.EntryKey t) (hi : i < share.keys)
    (hlen : v.length = (share.keyInfo i).keyLength) : Bounds share t i v := by
  constructor
  · intro tail
    refine wp_mono (hv.wp_position (probe_marked ord hv hi hlen (.inl rfl))) ?_
    rintro p t' ⟨hsame, hcuts⟩
    refine ⟨hsame, ?_⟩
    change CutsAt share.second t' p
      (t.slots.filter fun e ↦ share.secondKeyCompare e.key (markedKey i 0x80 v tail) < 0)
      (t.slots.filter fun e ↦ ¬ share.secondKeyCompare e.key (markedKey i 0x80 v tail) < 0) at hcuts
    simpa only [secondKeyCompare_first hi hlen] using hcuts
  · intro tail
    refine wp_mono (hv.wp_position (probe_marked ord hv hi hlen (.inr rfl))) ?_
    rintro p t' ⟨hsame, hcuts⟩
    refine ⟨hsame, ?_⟩
    change CutsAt share.second t' p
      (t.slots.filter fun e ↦ share.secondKeyCompare e.key (markedKey i 0x40 v tail) < 0)
      (t.slots.filter fun e ↦ ¬ share.secondKeyCompare e.key (markedKey i 0x40 v tail) < 0) at hcuts
    simpa only [secondKeyCompare_last hi hlen] using hcuts
  · intro tail
    unfold equalRun
    rw [wp_bind]
    refine wp_mono (hv.wp_locate_next (probe_marked ord hv hi hlen (.inl rfl))) ?_
    rintro r t₁ ⟨hv₁, hsame, done, rest, hcut, hfound⟩
    rw [wp_bind]
    refine wp_mono hv₁.wp_fuel ?_
    rintro fuel t₂ ⟨rfl, hfuel⟩
    have hlive : t₂.live = done ++ rest := by rw [hsame.live, hcut.eq]
    have hrest : rest.length < fuel := by
      rw [hlive, List.length_append] at hfuel
      omega
    refine wp_mono (hv₁.wp_collectWhile ord.second hrest hfound hlive) ?_
    rintro keys t' ⟨hsame', rfl⟩
    rw [run_eq ord hv hi hlen hcut]
    exact ⟨hsame.trans hsame', rfl, equal_pairwise ord hv hi hlen⟩

/-- In every state of a table with secondary indexes, markers are the boundaries of the runs. -/
theorem marked_keys_bound {server : Server} {s : HaExample} (ord : share.Ordered)
    (hs : Served share server s) (hsecond : 1 < share.keys) (hi : i < share.keys)
    (hlen : v.length = (share.keyInfo i).keyLength) : Bounds share s.secondTree i v :=
  bounds_of_valid ord ((hs.isOpened ord).exists_second hsecond).2 hi hlen

end Marked

theorem filledTable_bounds : Bounds digits filledTable.secondTree 1 [5] :=
  marked_keys_bound digits_ordered filledTable_served (by decide) (by decide) rfl

end ExampleEngine.Handler
