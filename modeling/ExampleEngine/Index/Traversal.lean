import ExampleEngine.Index.Session

/-!
# Searches and traversals

Library `Index`. In every reachable tree `locate`, `next` and `prev` of
`src/lib/btree.cpp:156–274` agree with searches in the sorted list of live entries, and a
traversal visits this list, whatever it removes on its way.
-/

namespace ExampleEngine.Index

open ExampleEngine.Base ExampleEngine.Storage BTree

variable {K : Type} {c : Config K} {S : K → Prop}

namespace Iterator

/-- Move on in one direction. -/
def advance (backward : Bool) (it : Iterator) : TreeM K (Int × Iterator) :=
  if backward then it.prev else it.next

/-- Start at one end. -/
def start (backward : Bool) (it : Iterator) : TreeM K (Int × Iterator) :=
  if backward then it.last else it.first

/-- Remove the entry under the iterator, or leave it. -/
def removeIf (b : Bool) (it : Iterator) : TreeM K Unit :=
  if b then it.remove else pure ()

/-- Collect the keys from the outcome of a move on, until a move returns 0, and remove the
entries with keys that `drop` picks. -/
def traverse (backward : Bool) (drop : K → Bool) : Nat → Int × Iterator → TreeM K (List K)
  | 0, _ => throw .outOfFuel
  | fuel + 1, r =>
    if r.1 = 0 then return []
    else do
      let key ← r.2.getKey
      r.2.removeIf (drop key)
      let r' ← r.2.advance backward
      let keys ← traverse backward drop fuel r'
      return key :: keys

end Iterator

/-- The live entries in the order of a direction. -/
def BTree.liveFrom (t : BTree K) (backward : Bool) : List (Slot K) :=
  if backward then t.live.reverse else t.live

/-- The first entry of a direction is live. -/
theorem BTree.mem_live_of_head {t : BTree K} {backward : Bool} {e : Slot K}
    (h : (t.liveFrom backward).head? = some e) : e ∈ t.live := by
  have hmem := List.mem_of_head? h
  cases backward with
  | true => exact List.mem_reverse.mp hmem
  | false => exact hmem

section Moves

variable {t t' : BTree K} {m : BTreeMetadata} {h : Nat} {x : LTree (Slot K) h} {it : Iterator}
  {s : Slot K} {backward : Bool}

/-- The flag of the search that a move in one direction performs. -/
private def flagOf (backward : Bool) : IterFlag := if backward then .BEFROE_KEY else .AFTER_KEY

private theorem Stands.wp_advance {E : Fault → Prop} (hs : Stands t it s)
    (ht : BTree.Holds c S t m h x) (hcmp : Comparison c.cmp S) :
    wp E (it.advance backward) (fun r t' ↦ BTree.Reads t t' m ∧
      Found t' r ((flagOf backward).search c.cmp s.key t.live)) t := by
  cases backward with
  | true => exact hs.wp_prev ht hcmp
  | false => exact hs.wp_next ht hcmp

private theorem wp_start {E : Fault → Prop} (ht : BTree.Holds c S t m h x) :
    wp E (it.start backward) (fun r t' ↦ BTree.Reads t t' m ∧
      Found t' r (t.liveFrom backward).head?) t := by
  cases backward with
  | true =>
    have hlast : wp E it.last (fun r t' ↦ BTree.Reads t t' m ∧
        Found t' r t.live.getLast?) t := ht.wp_last
    simpa only [Iterator.start, BTree.liveFrom, if_true, List.head?_reverse] using hlast
  | false => exact ht.wp_first

/-- In a direction, an entry comes before another. -/
private def Ahead (cmp : K → K → Int) (backward : Bool) (a b : Slot K) : Prop :=
  if backward then cmp b.key a.key < 0 else cmp a.key b.key < 0

/-- The live entries are sorted. -/
theorem BTree.Holds.live_sorted (ht : BTree.Holds c S t m h x) :
    Sorted c.cmp Slot.key t.live := by
  rw [ht.live_eq]
  exact List.Pairwise.sublist List.filter_sublist ht.tree.sorted

private theorem liveFrom_sorted (ht : BTree.Holds c S t m h x) (backward : Bool) :
    (t.liveFrom backward).Pairwise (Ahead c.cmp backward) := by
  cases backward with
  | true => exact List.pairwise_reverse.mpr ht.live_sorted
  | false => exact ht.live_sorted

private theorem live_key (ht : BTree.Holds c S t m h x) (hs : s ∈ t.liveFrom backward) :
    S s.key := by
  have hmem : s ∈ t.live := by
    cases backward with
    | true => exact List.mem_reverse.mp hs
    | false => exact hs
  rw [ht.live_eq] at hmem
  exact ht.tree.keys s (List.mem_filter.mp hmem).1

/-- What the search from an entry finds is what follows it in the direction. -/
private theorem search_liveFrom (hcmp : Comparison c.cmp S) {key : K} (hk : S key)
    {done rest : List (Slot K)} (hlive : t.liveFrom backward = done ++ rest)
    (hkeys : ∀ a ∈ t.liveFrom backward, S a.key)
    (hdone : ∀ a ∈ done, Ahead c.cmp backward a ⟨key, 0, []⟩ ∨ c.cmp a.key key = 0)
    (hrest : ∀ a ∈ rest, Ahead c.cmp backward ⟨key, 0, []⟩ a) :
    (flagOf backward).search c.cmp key t.live = rest.head? := by
  have hsearch : (flagOf backward).search c.cmp key t.live =
      (t.liveFrom backward).find? fun e ↦ (flagOf backward).Qualifies (c.cmp e.key key) := by
    cases backward <;> rfl
  rw [hlive] at hkeys
  rw [hsearch, hlive, List.find?_append]
  have hnone : (done.find? fun e ↦ (flagOf backward).Qualifies (c.cmp e.key key)) = none := by
    rw [List.find?_eq_none]
    intro a ha hq
    have hflip := hcmp.flip hk (hkeys a (by simp [ha]))
    have hflip' := hcmp.flip (hkeys a (by simp [ha])) hk
    have hd := hdone a ha
    unfold Ahead at hd
    cases backward <;>
      simp only [flagOf, if_true, Bool.false_eq_true, if_false, IterFlag.Qualifies,
        decide_eq_true_eq] at hq hd <;> omega
  rw [hnone, Option.none_or]
  cases rest with
  | nil => rfl
  | cons a rest =>
    have hflip := hcmp.flip hk (hkeys a (by simp))
    have ha := hrest a (by simp)
    unfold Ahead at ha
    refine List.find?_cons_of_pos ?_
    cases backward <;>
      simp only [flagOf, if_true, Bool.false_eq_true, if_false, IterFlag.Qualifies,
        decide_eq_true_eq] at ha ⊢ <;> omega

/-- The search from a live entry finds the one that follows it in the direction. -/
theorem BTree.search_after (hcmp : Comparison c.cmp S) (hs : Sorted c.cmp Slot.key t.live)
    (hkeys : ∀ e ∈ t.live, S e.key) {done rest : List (Slot K)}
    (hlive : t.liveFrom backward = done ++ s :: rest) :
    (if backward then IterFlag.BEFROE_KEY else .AFTER_KEY).search c.cmp s.key t.live =
      rest.head? := by
  have hmem : ∀ a, a ∈ t.liveFrom backward → a ∈ t.live := by
    intro a ha
    cases backward with
    | true => exact List.mem_reverse.mp ha
    | false => exact ha
  have hkeys' : ∀ a ∈ t.liveFrom backward, S a.key := fun a ha ↦ hkeys a (hmem a ha)
  have hsorted : (t.liveFrom backward).Pairwise (Ahead c.cmp backward) := by
    cases backward with
    | true => exact List.pairwise_reverse.mpr hs
    | false => exact hs
  have hk : S s.key := hkeys' s (by simp [hlive])
  rw [hlive] at hsorted
  obtain ⟨_, hrest, hdone⟩ := List.pairwise_append.mp hsorted
  have hsplit : t.liveFrom backward = (done ++ [s]) ++ rest := by rw [hlive, List.append_cons]
  refine search_liveFrom hcmp hk hsplit hkeys' (fun a ha ↦ ?_) (List.pairwise_cons.mp hrest).1
  rcases List.mem_append.mp ha with ha | ha
  · exact .inl (hdone a ha s (by simp))
  · rw [List.mem_singleton.mp ha]
    exact .inr (hcmp.self hk)

/-- Removing takes the entry under the iterator out of the live ones. -/
theorem BTree.Holds.live_removed (ht : BTree.Holds c S t m h x) (hcmp : Comparison c.cmp S)
    {pre post : List (Slot K)} (hsl : t.slots = pre ++ s :: post)
    (hsl' : t'.slots = pre ++ { s with flag := 0 } :: post) :
    t'.live = t.live.filter fun a ↦ c.cmp a.key s.key ≠ 0 := by
  have hsorted := ht.tree.sorted
  have hkeys := ht.tree.keys
  rw [← ht.slots_eq, hsl] at hsorted hkeys
  obtain ⟨hbelow, habove⟩ := Sorted.around hsorted hcmp hkeys
  have hks : S s.key := hkeys s (by simp)
  have hpre : ∀ a ∈ pre, c.cmp a.key s.key ≠ 0 := by
    intro a ha
    have := hbelow a ha
    omega
  have hpost : ∀ a ∈ post, c.cmp a.key s.key ≠ 0 := by
    intro a ha
    have := habove a ha
    omega
  have hkeep : ∀ l : List (Slot K), (∀ a ∈ l, c.cmp a.key s.key ≠ 0) →
      (l.filter fun a ↦ !a.isRemoved).filter (fun a ↦ c.cmp a.key s.key ≠ 0) =
        l.filter fun a ↦ !a.isRemoved := by
    intro l hl
    rw [List.filter_eq_self]
    intro a ha
    simpa using hl a (List.mem_of_mem_filter ha)
  unfold BTree.live
  rw [hsl, hsl', List.filter_append, List.filter_append, List.filter_append,
    hkeep pre hpre]
  congr 1
  rw [List.filter_cons_of_neg (by simp [Slot.isRemoved])]
  by_cases hlive : s.isRemoved = true
  · rw [List.filter_cons_of_neg (by simp [hlive]), hkeep post hpost]
  · rw [List.filter_cons_of_pos (by simpa using hlive),
      List.filter_cons_of_neg (by simp [hcmp.self hks]), hkeep post hpost]

private theorem liveFrom_removed {key : K}
    (h : t'.live = t.live.filter fun a ↦ c.cmp a.key key ≠ 0) :
    t'.liveFrom backward = (t.liveFrom backward).filter fun a ↦ c.cmp a.key key ≠ 0 := by
  cases backward with
  | true =>
    change t'.live.reverse = t.live.reverse.filter _
    rw [h, List.filter_reverse]
  | false => exact h

/-- Removing the entry under the iterator or leaving it, during a traversal. -/
private theorem Stands.wp_removeIf {E : Fault → Prop} {b : Bool} {done rest : List (Slot K)}
    (hs : Stands t it s) (ht : BTree.Holds c S t m h x) (hcmp : Comparison c.cmp S)
    (hlive : t.liveFrom backward = done ++ s :: rest) {Q : Unit → BTree K → Prop}
    (hQ : ∀ t' s', ∀ x' : LTree (Slot K) h, BTree.Holds c S t' m h x' → Stands t' it s' →
      s'.key = s.key → t'.liveFrom backward = (done ++ if b then [] else [s]) ++ rest →
      Q () t') :
    wp E (it.removeIf b) Q t := by
  unfold Iterator.removeIf
  cases b with
  | false =>
    simp only [Bool.false_eq_true, if_false, wp_pure] at hQ ⊢
    exact hQ t s x ht hs rfl (by rw [hlive]; simp)
  | true =>
    simp only [if_true, List.append_nil] at hQ ⊢
    refine hs.wp_remove ht fun t' x' i pre post _ hf ht' hsl hsl' ↦ ?_
    obtain ⟨s', hs', hst'⟩ := hs.upToFlags (fun j ↦ (hf.pooled j).mpr) hf.page
    refine hQ t' s' x' ht' hst' (congrArg Prod.fst hs') ?_
    rw [liveFrom_removed (ht.live_removed hcmp hsl hsl'), hlive, List.filter_append]
    -- no other entry is equal to the one removed
    have hsorted := liveFrom_sorted ht backward
    rw [hlive] at hsorted
    obtain ⟨_, hsr, hds⟩ := List.pairwise_append.mp hsorted
    have hkeys : ∀ a ∈ t.liveFrom backward, S a.key := fun a ha ↦ live_key ht ha
    rw [hlive] at hkeys
    have hks : S s.key := hkeys s (by simp)
    have hne : ∀ a, S a.key → Ahead c.cmp backward a s ∨ Ahead c.cmp backward s a →
        c.cmp a.key s.key ≠ 0 := by
      intro a hka ha
      have h1 := hcmp.flip hks hka
      have h2 := hcmp.flip hka hks
      unfold Ahead at ha
      cases backward <;> simp only [if_true, Bool.false_eq_true, if_false] at ha <;> omega
    have hdone : done.filter (fun a ↦ c.cmp a.key s.key ≠ 0) = done := by
      rw [List.filter_eq_self]
      intro a ha
      simpa using hne a (hkeys a (by simp [ha])) (.inl (hds a ha s (by simp)))
    have hrest : rest.filter (fun a ↦ c.cmp a.key s.key ≠ 0) = rest := by
      rw [List.filter_eq_self]
      intro a ha
      simpa using hne a (hkeys a (by simp [ha])) (.inr ((List.pairwise_cons.mp hsr).1 a ha))
    rw [hdone, List.filter_cons_of_neg (by simp [hcmp.self hks]), hrest]

/-- A traversal from an entry on visits the rest of the live entries. -/
private theorem wp_traverse {E : Fault → Prop} {drop : K → Bool} {fuel : Nat}
    {r : Int × Iterator} {done rest : List (Slot K)} (ht : BTree.Holds c S t m h x)
    (hcmp : Comparison c.cmp S) (hfuel : rest.length < fuel) (hr : Found t r rest.head?)
    (hlive : t.liveFrom backward = done ++ rest) :
    wp E (Iterator.traverse backward drop fuel r) (fun keys t' ↦ keys = rest.map Slot.key ∧
      t'.liveFrom backward = done ++ rest.filter fun s ↦ !drop s.key) t := by
  induction rest generalizing t x fuel r done with
  | nil =>
    obtain ⟨fuel, rfl⟩ : ∃ f, fuel = f + 1 := ⟨fuel - 1, by omega⟩
    have hr0 : r.1 = 0 := hr
    unfold Iterator.traverse
    simp only [hr0, if_true, wp_pure]
    exact ⟨rfl, hlive⟩
  | cons s rest ih =>
    obtain ⟨fuel, rfl⟩ : ∃ f, fuel = f + 1 := ⟨fuel - 1, by omega⟩
    obtain ⟨hr1, hs⟩ : r.1 = 1 ∧ Stands t r.2 s := hr
    have hsorted := liveFrom_sorted ht backward
    have hkeys : ∀ a ∈ t.liveFrom backward, S a.key := fun a ha ↦ live_key ht ha
    rw [hlive] at hsorted hkeys
    obtain ⟨_, hsr, hds⟩ := List.pairwise_append.mp hsorted
    have hks : S s.key := hkeys s (by simp)
    unfold Iterator.traverse
    rw [if_neg (by omega), wp_bind, hs.wp_getKey ht, wp_bind]
    refine hs.wp_removeIf ht hcmp hlive fun t₁ s₁ x₁ ht₁ hs₁ hkey hlive₁ ↦ ?_
    rw [wp_bind]
    refine wp_mono (hs₁.wp_advance ht₁ hcmp) fun r' t₂ hr' ↦ ?_
    obtain ⟨hread, hfound⟩ := hr'
    have hkeys₁ : ∀ a ∈ t₁.liveFrom backward, S a.key := fun a ha ↦ live_key ht₁ ha
    rw [hkey, search_liveFrom hcmp hks hlive₁ hkeys₁] at hfound
    · have hlive₂ : t₂.liveFrom backward =
          (done ++ if drop s.key then [] else [s]) ++ rest := by
        rw [← hlive₁]
        unfold BTree.liveFrom
        rw [live_congr hread.page hread.later.root]
      rw [wp_bind]
      have := ih (ht₁.reads hread) (by simpa using hfuel) hfound hlive₂
      refine wp_mono this fun keys t' hk ↦ ?_
      obtain ⟨hkeys', hlive'⟩ := hk
      refine ⟨by rw [hkeys']; rfl, ?_⟩
      rw [hlive']
      cases hd : drop s.key <;> simp [hd]
    · intro a ha
      rcases List.mem_append.mp ha with ha | ha
      · exact .inl (hds a ha s (by simp))
      · split at ha
        · simp at ha
        · rw [List.mem_singleton.mp ha]
          exact .inr (hcmp.self hks)
    · intro a ha
      exact (List.pairwise_cons.mp hsr).1 a ha

end Moves

section Reachable

variable {t : BTree K}

/-- In every reachable tree `locate` agrees with the reference search over the sorted list of
live entries, for each key and flag. -/
theorem reachable_locate (hwide : c.Wide) (hcmp : Comparison c.cmp fun _ ↦ True)
    (hr : Reachable c t) (key : K) (flag : IterFlag) :
    Sorted c.cmp Slot.key t.live ∧
      wp (fun _ ↦ False) (Iterator.locate c key flag)
        (fun r t' ↦ Found t' r (flag.search c.cmp key t.live) ∧ t'.slots = t.slots) t := by
  obtain ⟨m, h, x, ht⟩ := (hr.sound hwide hcmp).holds
  refine ⟨ht.live_sorted, ?_⟩
  have hprobe : Probe c.cmp Slot.key key t.slots := by
    rw [ht.slots_eq]
    exact ht.tree.sorted.probe hcmp ht.tree.keys trivial
  exact wp_mono (ht.wp_locate hprobe) fun r t' hr ↦ ⟨hr.2, slots_congr hr.1.page hr.1.later.root⟩

/-- After three insertions the key after 2 is 3. -/
theorem filledTree_locate :
    wp (fun _ ↦ False) (Iterator.locate narrow 2 .AFTER_KEY)
      (fun r t' ↦ Found t' r (IterFlag.AFTER_KEY.search narrow.cmp 2 filledTree.live) ∧
        t'.slots = filledTree.slots) filledTree ∧
      IterFlag.AFTER_KEY.search narrow.cmp 2 filledTree.live = some ⟨3, 1, narrowValue⟩ :=
  ⟨(reachable_locate narrow_wide narrow_cmp (filledTree_session fun _ _ _ ↦ trivial) 2
    .AFTER_KEY).2, by decide +kernel⟩

/-- In every reachable tree an iterator on an entry moves to the nearest live entry on either
side, removals through any iterator leave it on its key, and a traversal visits the live
entries in order, whatever it removes on its way. -/
theorem reachable_traverse (hwide : c.Wide) (hcmp : Comparison c.cmp fun _ ↦ True)
    (hr : Reachable c t) :
    Sorted c.cmp Slot.key t.live ∧
    (∀ it s, Stands t it s →
      wp (fun _ ↦ False) it.next (fun r t' ↦ t'.slots = t.slots ∧
        Found t' r (IterFlag.AFTER_KEY.search c.cmp s.key t.live)) t ∧
      wp (fun _ ↦ False) it.prev (fun r t' ↦ t'.slots = t.slots ∧
        Found t' r (IterFlag.BEFROE_KEY.search c.cmp s.key t.live)) t ∧
      ∀ it₂ s₂, Stands t it₂ s₂ →
        wp (fun _ ↦ False) it₂.remove (fun _ t' ↦
          (∃ s', Slot.entry s' = Slot.entry s ∧ Stands t' it s') ∧
          t'.live = t.live.filter fun a ↦ c.cmp a.key s₂.key ≠ 0) t) ∧
    ∀ (backward : Bool) (drop : K → Bool) (it : Iterator) (fuel : Nat),
      t.live.length < fuel →
      wp (fun _ ↦ False)
        (do
          let r ← it.start backward
          Iterator.traverse backward drop fuel r)
        (fun keys t' ↦
          keys = (if backward then (t.live.map Slot.key).reverse else t.live.map Slot.key) ∧
          t'.live = t.live.filter fun s ↦ !drop s.key) t := by
  obtain ⟨m, h, x, ht⟩ := (hr.sound hwide hcmp).holds
  refine ⟨ht.live_sorted, fun it s hs ↦ ⟨?_, ?_, fun it₂ s₂ hs₂ ↦ ?_⟩,
    fun backward drop it fuel hfuel ↦ ?_⟩
  · exact wp_mono (hs.wp_next ht hcmp) fun r t' h ↦ ⟨slots_congr h.1.page h.1.later.root, h.2⟩
  · exact wp_mono (hs.wp_prev ht hcmp) fun r t' h ↦ ⟨slots_congr h.1.page h.1.later.root, h.2⟩
  · refine hs₂.wp_remove ht fun t' x' i pre post _ hf ht' hsl hsl' ↦ ?_
    exact ⟨hs.upToFlags (fun j ↦ (hf.pooled j).mpr) hf.page, ht.live_removed hcmp hsl hsl'⟩
  · rw [wp_bind]
    refine wp_mono (wp_start ht) fun r t₁ h ↦ ?_
    obtain ⟨hread, hfound⟩ := h
    have hlive₁ : t₁.liveFrom backward = [] ++ t.liveFrom backward := by
      unfold BTree.liveFrom
      rw [live_congr hread.page hread.later.root]
      rfl
    have hlen : (t.liveFrom backward).length < fuel := by
      cases backward with
      | true =>
        change t.live.reverse.length < fuel
        rwa [List.length_reverse]
      | false => exact hfuel
    refine wp_mono (wp_traverse (ht.reads hread) hcmp hlen hfound hlive₁) fun keys t' h ↦ ?_
    obtain ⟨hkeys, hlive'⟩ := h
    rw [List.nil_append] at hlive'
    cases backward with
    | true =>
      refine ⟨by rw [hkeys]; exact List.map_reverse .., ?_⟩
      have hrev := congrArg List.reverse hlive'
      change t'.live.reverse.reverse = (t.live.reverse.filter _).reverse at hrev
      rwa [List.reverse_reverse, List.filter_reverse, List.reverse_reverse] at hrev
    | false => exact ⟨hkeys, hlive'⟩

/-- After three insertions a traversal that removes key 2 visits all three. -/
theorem filledTree_traverse :
    wp (fun _ ↦ False)
      (do
        let r ← Iterator.start false {}
        Iterator.traverse false (· == 2) 4 r)
      (fun keys t' ↦ keys = filledTree.live.map Slot.key ∧
        t'.live = filledTree.live.filter fun s ↦ !(s.key == 2)) filledTree ∧
      filledTree.live.map Slot.key = [1, 2, 3] := by
  have h := (reachable_traverse narrow_wide narrow_cmp
    (filledTree_session fun _ _ _ ↦ trivial)).2.2 false (· == 2) {} 4 (by decide +kernel)
  simp only [Bool.false_eq_true, if_false] at h
  exact ⟨h, by decide +kernel⟩

end Reachable

end ExampleEngine.Index
