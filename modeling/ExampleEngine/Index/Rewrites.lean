import ExampleEngine.Index.Revive

/-!
# Rewriting a range

Library `Index`. A loop over the live keys of a range that removes the entry it stands on and
puts the same key again before it moves on, as the updates of `src/ha_example.cc:544–580` and
`src/lib/matu.h:604–672` do.
-/

namespace ExampleEngine.Index

open ExampleEngine.Base ExampleEngine.Storage

variable {K : Type} {c : Config K} {S : K → Prop}

namespace Iterator

/-- Remove the entry under the iterator and put its key again with another value, which may
depend on the old one. -/
def rewrite (c : Config K) (value : K → Option (Nat → UInt8) → List UInt8) (it : Iterator) :
    TreeM K Int := do
  let key ← it.getKey
  let old ← it.getValue c
  it.remove
  BTree.put c key (value key old)

/-- Rewrite the entries from the outcome of a move on and collect their keys, until a move
returns 0 or a key does not satisfy the condition; the outcome of `put` is ignored. -/
def rewriteWhile (c : Config K) (within : K → Bool)
    (value : K → Option (Nat → UInt8) → List UInt8) : Nat → Int × Iterator → TreeM K (List K)
  | 0, _ => throw .outOfFuel
  | fuel + 1, r =>
    if r.1 = 0 then return []
    else do
      let key ← r.2.getKey
      if within key then do
        let _ ← r.2.rewrite c value
        let r' ← r.2.next
        let keys ← rewriteWhile c within value fuel r'
        return key :: keys
      else return []

/-- A lower bound, if there is one. -/
def atLeast (c : Config K) (lo : Option K) (key : K) : Bool := lo.all fun b ↦ 0 ≤ c.cmp key b

/-- An upper bound, if there is one. -/
def atMost (c : Config K) (hi : Option K) (key : K) : Bool := hi.all fun b ↦ c.cmp key b ≤ 0

/-- The keys between two bounds. -/
def inRange (c : Config K) (lo hi : Option K) (key : K) : Bool :=
  atLeast c lo key && atMost c hi key

/-- The first live entry, or the first one from a key on. -/
def startFrom (c : Config K) : Option K → TreeM K (Int × Iterator)
  | none => ({} : Iterator).first
  | some key => locate c key .KEY_OR_NEXT

/-- Rewrite the entries of a range. -/
def rewriteRange (c : Config K) (lo hi : Option K)
    (value : K → Option (Nat → UInt8) → List UInt8) : TreeM K (List K) := do
  let fuel ← Iterator.fuel
  let r ← startFrom c lo
  rewriteWhile c (atMost c hi) value fuel r

end Iterator

/-- Where what satisfies a condition comes first, it is all taken. -/
private theorem takeWhile_eq_filter {α : Type} {p : α → Bool} {l : List α}
    (h : l.Pairwise fun a b ↦ p b = true → p a = true) : l.takeWhile p = l.filter p := by
  induction l with
  | nil => rfl
  | cons a l ih =>
    obtain ⟨ha, hl⟩ := List.pairwise_cons.mp h
    by_cases hp : p a = true
    · rw [List.takeWhile_cons_of_pos hp, List.filter_cons_of_pos hp, ih hl]
    · rw [List.takeWhile_cons_of_neg hp, List.filter_cons_of_neg hp]
      exact (List.filter_eq_nil_iff.mpr fun b hb hpb ↦ hp (ha b hb hpb)).symm

section Search

variable {cmp : K → K → Int} {key : K} {pre post : List (Slot K)}

/-- The search after a key finds the head of the entries above it. -/
theorem IterFlag.search_above (hpre : ∀ e ∈ pre, cmp e.key key ≤ 0)
    (hpost : ∀ e ∈ post, 0 < cmp e.key key) :
    IterFlag.AFTER_KEY.search cmp key (pre ++ post) = post.head? := by
  have hnone : (pre.find? fun e ↦ IterFlag.AFTER_KEY.Qualifies (cmp e.key key)) = none := by
    rw [List.find?_eq_none]
    intro e he hq
    have hneg := hpre e he
    have hpos : 0 < cmp e.key key := of_decide_eq_true hq
    omega
  unfold IterFlag.search
  rw [if_neg (by decide), List.find?_append, hnone, Option.none_or]
  cases post with
  | nil => rfl
  | cons e post => exact List.find?_cons_of_pos (decide_eq_true (hpost e List.mem_cons_self))

end Search

namespace BTree

variable {t t' : BTree K} {it : Iterator} {s : Slot K} {done rest : List (Slot K)}
  {value : K → Option (Nat → UInt8) → List UInt8}

/-- After an entry was rewritten: the iterator stands on its key, which is live unless the value
was too long, and the other entries are what they were. -/
structure Rewritten (c : Config K) (it : Iterator) (s : Slot K) (done rest : List (Slot K))
    (len : Nat) (t t' : BTree K) : Prop where
  stands : ∃ s', Stands t' it s' ∧ s'.key = s.key ∧
    (t'.live = done ++ s' :: rest ∨ t'.live = done ++ rest ∧ 2 ^ 31 ≤ len)
  values : ∀ e ∈ done ++ rest, valueOf c t'.page e.value = valueOf c t.page e.value

/-- Nothing changes but what the key has. -/
theorem Rewritten.contents {P : K → Bool} {len : Nat}
    (hr : Rewritten c it s done rest len t t') (hlive : t.live = done ++ s :: rest)
    (hs : P s.key = true) : (t'.contents c).filter (fun p ↦ !P p.1) =
      (t.contents c).filter fun p ↦ !P p.1 := by
  have hval := hr.values
  have hdone : done.map (fun e ↦ (e.key, valueOf c t'.page e.value)) =
      done.map fun e ↦ (e.key, valueOf c t.page e.value) :=
    List.map_congr_left fun e he ↦ by rw [hval e (List.mem_append_left _ he)]
  have hrest : rest.map (fun e ↦ (e.key, valueOf c t'.page e.value)) =
      rest.map fun e ↦ (e.key, valueOf c t.page e.value) :=
    List.map_congr_left fun e he ↦ by rw [hval e (List.mem_append_right _ he)]
  obtain ⟨s', _, hkey, hcase⟩ := hr.stands
  unfold BTree.contents
  rw [hlive, List.map_append, List.map_cons, List.filter_append,
    List.filter_cons_of_neg (by simp [hs])]
  rcases hcase with hlive' | ⟨hlive', _⟩
  · rw [hlive', List.map_append, List.map_cons, List.filter_append,
      List.filter_cons_of_neg (by simp [hkey, hs]), hdone, hrest]
  · rw [hlive', List.map_append, List.filter_append, hdone, hrest]

/-- The keys stay live when the value can be stored. -/
theorem Rewritten.keys {len : Nat} (hr : Rewritten c it s done rest len t t')
    (hlive : t.live = done ++ s :: rest) (hlen : len < 2 ^ 31) :
    t'.live.map Slot.key = t.live.map Slot.key := by
  obtain ⟨s', _, hkey, hcase⟩ := hr.stands
  rcases hcase with hlive' | ⟨_, hlong⟩
  · rw [hlive', hlive, List.map_append, List.map_append, List.map_cons, List.map_cons, hkey]
  · omega

namespace Valid

/-- Rewriting the entry under an iterator. -/
theorem wp_rewrite (hv : Valid c S t) (hwide : c.Wide) (hcmp : Comparison c.cmp S)
    (hs : Stands t it s) (hlive : t.live = done ++ s :: rest) :
    wp Beyond (it.rewrite c value) (fun _ t' ↦ Valid c S t' ∧
      Rewritten c it s done rest (value s.key (valueOf c t.page s.value)).length t t') t := by
  have hk : S s.key := hv.keys s (by rw [hlive]; simp)
  have hsorted := hv.sorted
  have hkeys := hv.keys
  rw [hlive] at hsorted hkeys
  obtain ⟨hbelow, habove⟩ := Sorted.around hsorted hcmp hkeys
  unfold Iterator.rewrite
  rw [wp_bind, hv.wp_getKey hs, wp_bind]
  refine wp_mono (hv.wp_getValue hs) fun old t₀ ho ↦ ?_
  obtain ⟨hv₀, hsame₀, rfl⟩ := ho
  have hs₀ := hsame₀.stands hs
  rw [wp_bind]
  refine hv₀.wp_remove hcmp hs₀ fun t₁ hv₁ hlive₁ hval₁ hst₁ _ _ ↦ ?_
  obtain ⟨s₁, hent₁, hs₁⟩ := hst₁ it s hs₀
  have hkey₁ : s₁.key = s.key := congrArg Prod.fst hent₁
  have hrest : t₁.live = done ++ rest := by
    rw [hlive₁, hsame₀.live, hlive, List.filter_append,
      List.filter_cons_of_neg (by simp [hcmp.self hk])]
    congr 1
    · refine List.filter_eq_self.mpr fun e he ↦ ?_
      have := hbelow e he
      simp only [decide_eq_true_eq]
      omega
    · refine List.filter_eq_self.mpr fun e he ↦ ?_
      have := habove e he
      simp only [decide_eq_true_eq]
      omega
  have hval : ∀ w, valueOf c t₁.page w = valueOf c t.page w := by
    intro w
    rw [hval₁, hsame₀.page]
  refine hv₁.wp_put hwide hcmp hk fun r t' hv' hputs ↦ ⟨hv', ?_⟩
  cases hputs with
  | duplicate e he heq t' hs' =>
    rw [hrest] at he
    rcases List.mem_append.mp he with he | he
    · have := hbelow e he
      omega
    · have := habove e he
      omega
  | failed t' hlive' hc hlen hne hv₂ _ _ hstands =>
    refine ⟨⟨s₁, hstands it s₁ hs₁, hkey₁, .inr ⟨hlive'.trans hrest, hlen⟩⟩, fun e he ↦ ?_⟩
    rw [hv₂ e (hrest ▸ he), hval]
  | done t' w hj hw hv₂ _ hup =>
    refine ⟨?_, fun e he ↦ by rw [hv₂ e (hrest ▸ he), hval]⟩
    have hself : c.cmp s₁.key s.key = 0 := by
      rw [hkey₁]
      exact hcmp.self hk
    obtain ⟨s', hkey', hs'⟩ := hup.stands hv₁ hcmp hk
      ⟨s₁, hv₁.mem_slots_of_stands hs₁, hself⟩ hs₁
    refine ⟨s', hs', hkey'.trans hkey₁, .inl ?_⟩
    obtain ⟨A, f, B, hAB, hAB', _, hfk, hA, hB⟩ := hj.split
    -- the entry that joined is the one stood on
    have hf : f = s' := by
      obtain ⟨hsl, hsk⟩ := hv'.slots
      refine hsl.eq_of_equal hcmp hsk ?_ (hv'.mem_slots_of_stands hs') ?_
      · exact mem_slots (by rw [hAB']; simp)
      · rw [hkey', hkey₁]
        exact hfk
    have hcut : Cut c.cmp Slot.key s.key (A ++ B) A B :=
      ⟨rfl, hA, fun e he ↦ by have := hB e he; omega⟩
    have hcut' : Cut c.cmp Slot.key s.key (A ++ B) done rest :=
      ⟨hAB.symm.trans hrest, hbelow, fun e he ↦ by have := habove e he; omega⟩
    obtain ⟨hA', hB'⟩ := Cut.filter hcut
    obtain ⟨hdone, hrest'⟩ := Cut.filter hcut'
    rw [hAB', hf, hdone, hrest', ← hA', ← hB']

/-- From an entry on the entries are rewritten while their keys satisfy the condition. -/
theorem wp_rewriteWhile {within P : K → Bool} {fuel : Nat} {r : Int × Iterator}
    (hv : Valid c S t) (hwide : c.Wide) (hcmp : Comparison c.cmp S)
    (hP : ∀ e ∈ rest, within e.key = true → P e.key = true) (hfuel : rest.length < fuel)
    (hr : Found t r rest.head?) (hlive : t.live = done ++ rest) :
    wp Beyond (Iterator.rewriteWhile c within value fuel r) (fun keys t' ↦
      keys = (rest.map Slot.key).takeWhile within ∧
      (t'.contents c).filter (fun p ↦ !P p.1) = (t.contents c).filter (fun p ↦ !P p.1) ∧
      ((∀ key old, (value key old).length < 2 ^ 31) →
        t'.live.map Slot.key = t.live.map Slot.key)) t := by
  induction rest generalizing t fuel r done with
  | nil =>
    obtain ⟨fuel, rfl⟩ : ∃ f, fuel = f + 1 := ⟨fuel - 1, by omega⟩
    have hr0 : r.1 = 0 := hr
    unfold Iterator.rewriteWhile
    rw [if_pos hr0, wp_pure]
    exact ⟨rfl, rfl, fun _ ↦ rfl⟩
  | cons s rest ih =>
    obtain ⟨fuel, rfl⟩ : ∃ f, fuel = f + 1 := ⟨fuel - 1, by omega⟩
    obtain ⟨hr1, hs⟩ : r.1 = 1 ∧ Stands t r.2 s := hr
    unfold Iterator.rewriteWhile
    rw [if_neg (by omega), wp_bind, hv.wp_getKey hs, List.map_cons]
    by_cases hw : within s.key = true
    · rw [if_pos hw, wp_bind, List.takeWhile_cons_of_pos hw]
      refine wp_mono (hv.wp_rewrite hwide hcmp hs hlive) fun _ t₁ hr₁ ↦ ?_
      obtain ⟨hv₁, hre⟩ := hr₁
      obtain ⟨s', hs', hkey, hcase⟩ := hre.stands
      -- the entry is passed over, whether it is live again or not
      obtain ⟨done₁, hlive₁, hdone₁⟩ : ∃ done₁, t₁.live = done₁ ++ rest ∧
          ∀ e ∈ done₁, e ∈ done ∨ e = s' := by
        rcases hcase with hlive₁ | ⟨hlive₁, _⟩
        · refine ⟨done ++ [s'], by rw [hlive₁]; simp, fun e he ↦ ?_⟩
          simpa using he
        · exact ⟨done, hlive₁, fun e he ↦ .inl he⟩
      have hsorted := hv.sorted
      have hkeys := hv.keys
      rw [hlive] at hsorted hkeys
      obtain ⟨hbelow, habove⟩ := Sorted.around hsorted hcmp hkeys
      have hself := hcmp.self (hkeys s (by simp))
      have hsearch : IterFlag.AFTER_KEY.search c.cmp s'.key t₁.live = rest.head? := by
        rw [hlive₁, hkey]
        refine IterFlag.search_above (fun e he ↦ ?_) habove
        rcases hdone₁ e he with he | rfl
        · exact Int.le_of_lt (hbelow e he)
        · rw [hkey]
          exact Int.le_of_eq hself
      rw [wp_bind]
      refine wp_mono (hv₁.wp_next hcmp hs') fun r' t₂ hr' ↦ ?_
      obtain ⟨hv₂, hsame, hfound⟩ := hr'
      rw [hsearch] at hfound
      rw [wp_bind]
      refine wp_mono (ih hv₂ (fun e he ↦ hP e (List.mem_cons_of_mem _ he)) (by simpa using hfuel)
        hfound (hsame.live.trans hlive₁)) fun keys t' hk ↦ ?_
      obtain ⟨hkeys', hcont, hall⟩ := hk
      refine ⟨by rw [hkeys'], ?_, fun hlen ↦ ?_⟩
      · rw [hcont, hsame.contents]
        exact hre.contents hlive (hP s List.mem_cons_self hw)
      · rw [hall hlen, hsame.live]
        exact hre.keys hlive (hlen _ _)
    · rw [if_neg hw, wp_pure, List.takeWhile_cons_of_neg hw]
      exact ⟨rfl, rfl, fun _ ↦ rfl⟩

/-- A start comes to the first live entry that is not below the bound. -/
theorem wp_startFrom {E : Fault → Prop} {lo : Option K} (hv : Valid c S t)
    (hcmp : Comparison c.cmp S) (hlo : ∀ b, lo = some b → S b) :
    wp E (Iterator.startFrom c lo) (fun r t' ↦ Valid c S t' ∧ Same t t' ∧
      ∃ done rest, t.live = done ++ rest ∧ Found t' r rest.head? ∧
        (∀ e ∈ done, Iterator.atLeast c lo e.key = false) ∧
        ∀ e ∈ rest, Iterator.atLeast c lo e.key = true) t := by
  cases lo with
  | none =>
    refine wp_mono hv.wp_first fun r t' hr ↦ ⟨hr.1, hr.2.1, [], t.live, rfl, hr.2.2, ?_, ?_⟩
    · exact fun _ h ↦ nomatch h
    · exact fun _ _ ↦ rfl
  | some b =>
    obtain ⟨hsorted, hkeys⟩ := hv.slots
    have hprobe := hsorted.probe hcmp hkeys (hlo b rfl)
    refine wp_mono (hv.wp_locate_next hprobe) fun r t' hr ↦ ?_
    obtain ⟨hv', hsame, done, rest, hcut, hfound⟩ := hr
    refine ⟨hv', hsame, done, rest, hcut.eq, hfound, fun e he ↦ ?_, fun e he ↦ ?_⟩
    · have := hcut.below e he
      exact decide_eq_false (by omega)
    · have := hcut.above e he
      exact decide_eq_true (by omega)

private theorem atMost_of_le {hi : Option K} {a b : K} (hcmp : Comparison c.cmp S)
    (hhi : ∀ k, hi = some k → S k) (ha : S a) (hb : S b) (hab : c.cmp a b ≤ 0)
    (h : Iterator.atMost c hi b = true) : Iterator.atMost c hi a = true := by
  cases hi with
  | none => rfl
  | some k =>
    have hbk : c.cmp b k ≤ 0 := of_decide_eq_true h
    exact decide_eq_true (hcmp.trans ha hb (hhi k rfl) hab hbk)

/-- Rewriting a range visits the live keys of the range in order and leaves other values alone. -/
theorem wp_rewriteRange {lo hi : Option K} (hv : Valid c S t) (hwide : c.Wide)
    (hcmp : Comparison c.cmp S) (hlo : ∀ b, lo = some b → S b) (hhi : ∀ b, hi = some b → S b) :
    wp Beyond (Iterator.rewriteRange c lo hi value) (fun keys t' ↦
      keys = (t.live.map Slot.key).filter (Iterator.inRange c lo hi) ∧
      (t'.contents c).filter (fun p ↦ !Iterator.inRange c lo hi p.1) =
        (t.contents c).filter (fun p ↦ !Iterator.inRange c lo hi p.1) ∧
      ((∀ key old, (value key old).length < 2 ^ 31) →
        t'.live.map Slot.key = t.live.map Slot.key)) t := by
  unfold Iterator.rewriteRange
  rw [wp_bind]
  refine wp_mono hv.wp_fuel fun fuel t₀ hf ↦ ?_
  obtain ⟨rfl, hfuel⟩ := hf
  rw [wp_bind]
  refine wp_mono (hv.wp_startFrom hcmp hlo) fun r t₁ hr ↦ ?_
  obtain ⟨hv₁, hsame, done, rest, hlive, hfound, hdone, hrest⟩ := hr
  have hlen : rest.length < fuel := by
    rw [hlive, List.length_append] at hfuel
    omega
  have hP : ∀ e ∈ rest, Iterator.atMost c hi e.key = true →
      Iterator.inRange c lo hi e.key = true := by
    intro e he hw
    unfold Iterator.inRange
    rw [hrest e he, hw]
    rfl
  refine wp_mono (hv₁.wp_rewriteWhile hwide hcmp hP hlen hfound (hsame.live.trans hlive))
    fun keys t' hk ↦ ?_
  obtain ⟨rfl, hcont, hall⟩ := hk
  refine ⟨?_, hcont.trans (by rw [hsame.contents]), fun h ↦ (hall h).trans (by rw [hsame.live])⟩
  have hsorted := hv.sorted
  have hkeys := hv.keys
  rw [hlive] at hsorted hkeys ⊢
  have hdown : (rest.map Slot.key).Pairwise fun a b ↦
      Iterator.atMost c hi b = true → Iterator.atMost c hi a = true := by
    refine List.pairwise_map.mpr ((List.pairwise_append.mp hsorted).2.1.imp_of_mem ?_)
    intro a b ha hb hab
    exact atMost_of_le hcmp hhi (hkeys a (by simp [ha])) (hkeys b (by simp [hb]))
      (Int.le_of_lt hab)
  have hnone : (done.map Slot.key).filter (Iterator.inRange c lo hi) = [] := by
    refine List.filter_eq_nil_iff.mpr fun k hk ↦ ?_
    obtain ⟨e, he, rfl⟩ := List.mem_map.mp hk
    unfold Iterator.inRange
    rw [hdone e he]
    exact Bool.false_ne_true
  have hsome : (rest.map Slot.key).filter (Iterator.inRange c lo hi) =
      (rest.map Slot.key).filter (Iterator.atMost c hi) := by
    refine List.filter_congr fun k hk ↦ ?_
    obtain ⟨e, he, rfl⟩ := List.mem_map.mp hk
    unfold Iterator.inRange
    rw [hrest e he, Bool.true_and]
  rw [takeWhile_eq_filter hdown, List.map_append, List.filter_append, hnone, hsome,
    List.nil_append]

end Valid

end BTree

section Reachable

variable {t : BTree K}

/-- In every reachable tree a successful `put` of a removed key disturbs nothing else, and a loop
that rewrites the entries of a range visits each of its live keys once and leaves the others. -/
theorem put_removed_frame (hwide : c.Wide) (hcmp : Comparison c.cmp fun _ ↦ True)
    (hr : Reachable c t) :
    (∀ key value, ∀ e ∈ t.slots, c.cmp e.key key = 0 → e.isRemoved = true →
      wp Beyond (BTree.put c key value) (fun r t' ↦ r = 1 →
        BTree.Undisturbed c key value t t') t) ∧
    ∀ lo hi value, wp Beyond (Iterator.rewriteRange c lo hi value) (fun keys t' ↦
      keys = (t.live.map Slot.key).filter (Iterator.inRange c lo hi) ∧
      keys.Pairwise (fun a b ↦ c.cmp a b < 0) ∧
      (t'.contents c).filter (fun p ↦ !Iterator.inRange c lo hi p.1) =
        (t.contents c).filter (fun p ↦ !Iterator.inRange c lo hi p.1) ∧
      ((∀ key old, (value key old).length < 2 ^ 31) →
        t'.live.map Slot.key = t.live.map Slot.key)) t := by
  have hv : BTree.Valid c (fun _ ↦ True) t := ⟨(hr.sound hwide hcmp).holds⟩
  refine ⟨fun key value e he hek hdead ↦ hv.wp_put_removed hwide hcmp trivial he hek hdead, ?_⟩
  intro lo hi value
  refine wp_mono (hv.wp_rewriteRange hwide hcmp (fun _ _ ↦ trivial) fun _ _ ↦ trivial)
    fun keys t' hk ↦ ?_
  obtain ⟨rfl, hcont, hall⟩ := hk
  exact ⟨rfl, List.Pairwise.sublist List.filter_sublist (List.pairwise_map.mpr hv.sorted), hcont,
    hall⟩

/-- The entry of key 2 in the tree of three entries. -/
def secondEntry : Iterator :=
  match (Iterator.locate narrow 2 .EXACT_KEY).run filledTree with
  | .ok (r, _) => r.2
  | .error _ => {}

/-- The tree of three entries after key 2 is removed. -/
def clearedTree : BTree Nat :=
  match secondEntry.remove.run filledTree with
  | .ok (_, t) => t
  | .error _ => filledTree

theorem clearedTree_reachable : Reachable narrow clearedTree := by
  have hs : Stands filledTree secondEntry ⟨2, 1, narrowValue⟩ :=
    stands_of_slot (by decide +kernel)
  have hfilled : Reachable narrow filledTree := filledTree_session fun _ _ _ ↦ trivial
  have hv : BTree.Valid narrow (fun _ ↦ True) filledTree :=
    ⟨(hfilled.sound narrow_wide narrow_cmp).holds⟩
  obtain ⟨_, t, hrun, _⟩ := exists_run (hv.wp_remove (Q := fun _ _ ↦ True) narrow_cmp hs
    fun _ _ _ _ _ _ _ ↦ trivial)
  have heq : clearedTree = t := by
    unfold clearedTree
    rw [hrun]
  rw [heq]
  exact hfilled.step _ _ (.remove secondEntry) ⟨_, hs⟩ trivial hrun

/-- Key 2 is put again after it was removed. -/
theorem clearedTree_put :
    clearedTree.slots[1]? = some ⟨2, 0, narrowValue⟩ ∧
      wp Beyond (BTree.put narrow 2 narrowValue) (fun r t' ↦ r = 1 →
        BTree.Undisturbed narrow 2 narrowValue clearedTree t') clearedTree := by
  have hget : clearedTree.slots[1]? = some ⟨2, 0, narrowValue⟩ := by decide +kernel
  exact ⟨hget, (put_removed_frame narrow_wide narrow_cmp clearedTree_reachable).1 2 narrowValue
    ⟨2, 0, narrowValue⟩ (List.mem_of_getElem? hget) (by decide) (by decide)⟩

end Reachable

end ExampleEngine.Index
