import ExampleEngine.Index.Live

/-!
# Positions and runs of entries

Library `Index`. The position that `getLeaf` and `lub` of `src/lib/btree.cpp:42–55,370–387` find
for a search key, among all entries of the tree, and the keys that `next` comes by from an entry
on while they satisfy a condition.
-/

namespace ExampleEngine.Index

open ExampleEngine.Base ExampleEngine.Storage

variable {K : Type} {c : Config K} {S : K → Prop}

/-- The leaf that `getLeaf` finds for a key, and the slot that `lub` finds on it. -/
def BTree.position (c : Config K) (key : K) : TreeM K (Option Nat × Nat) := do
  let cur ← getLeaf c key
  let n ← readNode cur
  let lub ← liftM (n.lub c.cmp key)
  return (cur, lub)

/-- A slot number on a leaf has some entries of the tree before it, and the others from it on. -/
structure CutsAt (c : Config K) (t : BTree K) (p : Option Nat × Nat) (pre post : List (Slot K)) :
    Prop where
  leaves : ∃ l lf r a b, BTree.Leafy c t (l ++ lf :: r) ∧ lf.items = a ++ b ∧
    p = (some lf.id, a.length) ∧ pre = l.flatMap Numbered.items ++ a ∧
    post = b ++ r.flatMap Numbered.items

/-- Collect the keys from the outcome of a move on, until a move returns 0 or a key does not
satisfy the condition. -/
def Iterator.collectWhile (p : K → Bool) : Nat → Int × Iterator → TreeM K (List K)
  | 0, _ => throw .outOfFuel
  | fuel + 1, r =>
    if r.1 = 0 then return []
    else do
      let key ← r.2.getKey
      if p key then do
        let r' ← r.2.next
        let keys ← collectWhile p fuel r'
        return key :: keys
      else return []

section Cuts

variable {E : Type} {cmp : K → K → Int} {keyOf : E → K} {k : K} {es pre post : List E}

/-- The parts of a cut are the entries below the search key and the others. -/
theorem Cut.filter (h : Cut cmp keyOf k es pre post) :
    pre = es.filter (fun e ↦ cmp (keyOf e) k < 0) ∧
      post = es.filter fun e ↦ ¬ cmp (keyOf e) k < 0 := by
  have hpre : pre.filter (fun e ↦ cmp (keyOf e) k < 0) = pre :=
    List.filter_eq_self.mpr fun e he ↦ by simpa using h.below e he
  have hpost : post.filter (fun e ↦ ¬ cmp (keyOf e) k < 0) = post :=
    List.filter_eq_self.mpr fun e he ↦ by simpa using h.above e he
  have hnot : post.filter (fun e ↦ cmp (keyOf e) k < 0) = [] :=
    List.filter_eq_nil_iff.mpr fun e he ↦ by simpa using h.above e he
  have hnot' : pre.filter (fun e ↦ ¬ cmp (keyOf e) k < 0) = [] :=
    List.filter_eq_nil_iff.mpr fun e he ↦ by simpa using h.below e he
  rw [h.eq, List.filter_append, List.filter_append, hpre, hpost, hnot, hnot', List.append_nil,
    List.nil_append]
  exact ⟨rfl, rfl⟩

end Cuts

namespace BTree.Valid

variable {t : BTree K} {key : K} {E : Fault → Prop}

/-- `getLeaf` and `lub` find the position before which the entries below the key stand. -/
theorem wp_position (hv : Valid c S t) (hprobe : Probe c.cmp Slot.key key t.slots) :
    wp E (position c key) (fun p t' ↦ Same t t' ∧
      CutsAt c t' p (t.slots.filter fun e ↦ c.cmp e.key key < 0)
        (t.slots.filter fun e ↦ ¬ c.cmp e.key key < 0)) t := by
  obtain ⟨m, h, x, ht⟩ := hv.holds
  rw [ht.slots_eq] at hprobe
  unfold position
  rw [wp_bind]
  refine wp_getLeaf ht hprobe.downward fun t₁ L₁ lf L₂ hr hp hL hbelow hlast ↦ ?_
  have ht₁ := ht.reads hr
  have hmem : lf ∈ LTree.leaves h x := by rw [hL]; simp
  obtain ⟨n, hn, _, hkv⟩ := ht₁.tree.rep.leaf lf hmem
  have hent : LTree.entries h x =
      L₁.flatMap Numbered.items ++ (lf.items ++ L₂.flatMap Numbered.items) := by
    rw [LTree.entries_eq_leaves, hL, List.flatMap_append, List.flatMap_cons]
  have hd := hprobe.downward
  rw [hent] at hd
  obtain ⟨-, hdr, -⟩ := List.pairwise_append.mp hd
  obtain ⟨hdl, -, hdlr⟩ := List.pairwise_append.mp hdr
  have hdl : Downward c.cmp Slot.key key n.kv := hkv ▸ hdl
  obtain ⟨A, B, hcut⟩ := hdl.exists_cut
  have hitems : lf.items = A ++ B := hkv.symm.trans hcut.eq
  simp only [wp_bind, wp_readNode hp hn, NodeBlock.lub_eq hcut, wp_liftM, wp_pure]
  refine ⟨⟨hr.page, hr.later.root, hr.later.buffer.pooled⟩, ?_⟩
  have hall : Cut c.cmp Slot.key key t.slots (L₁.flatMap Numbered.items ++ A)
      (B ++ L₂.flatMap Numbered.items) := by
    constructor
    · rw [ht.slots_eq, hent, hitems]
      simp
    · intro e he
      rcases List.mem_append.mp he with he | he
      · exact hbelow e he
      · exact hcut.below e he
    · intro e he
      rcases List.mem_append.mp he with he | he
      · exact hcut.above e he
      · -- leaves follow only a leaf with an entry that is not below the key
        rcases hlast with ⟨f, hf, hfk⟩ | rfl
        · by_contra hneg
          have := hdlr f hf e he (by omega)
          omega
        · cases he
  obtain ⟨hpre, hpost⟩ := Cut.filter hall
  rw [← hpre, ← hpost]
  exact ⟨L₁, lf, L₂, A, B, hL ▸ ht₁.leafy, hitems, rfl, rfl, rfl⟩

/-- `locate` with `KEY_OR_NEXT` comes to the first live entry that is not below the key. -/
theorem wp_locate_next (hv : Valid c S t) (hprobe : Probe c.cmp Slot.key key t.slots) :
    wp E (Iterator.locate c key .KEY_OR_NEXT) (fun r t' ↦ Valid c S t' ∧ Same t t' ∧
      ∃ done rest, Cut c.cmp Slot.key key t.live done rest ∧ Found t' r rest.head?) t := by
  have hdown : Downward c.cmp Slot.key key t.live :=
    List.Pairwise.sublist List.filter_sublist hprobe.downward
  obtain ⟨done, rest, hcut⟩ := hdown.exists_cut
  refine wp_mono (hv.wp_locate hprobe) fun r t' hr ↦ ?_
  obtain ⟨hv', hsame, hfound⟩ := hr
  refine ⟨hv', hsame, done, rest, hcut, ?_⟩
  have hnone : (done.find? fun e ↦ IterFlag.KEY_OR_NEXT.Qualifies (c.cmp e.key key)) = none := by
    rw [List.find?_eq_none]
    intro e he hq
    have hneg := hcut.below e he
    have hpos : 0 ≤ c.cmp e.key key := of_decide_eq_true hq
    omega
  have hsearch : IterFlag.KEY_OR_NEXT.search c.cmp key t.live = rest.head? := by
    unfold IterFlag.search
    rw [if_neg (by decide), hcut.eq, List.find?_append, hnone, Option.none_or]
    cases rest with
    | nil => rfl
    | cons e rest =>
      have habove := hcut.above e List.mem_cons_self
      exact List.find?_cons_of_pos (decide_eq_true habove)
  rwa [← hsearch]

/-- From an entry on the keys of the live entries are collected while they satisfy the
condition. -/
theorem wp_collectWhile {p : K → Bool} {fuel : Nat} {r : Int × Iterator}
    {done rest : List (Slot K)} (hv : Valid c S t) (hcmp : Comparison c.cmp S)
    (hfuel : rest.length < fuel) (hr : Found t r rest.head?) (hlive : t.live = done ++ rest) :
    wp E (Iterator.collectWhile p fuel r) (fun keys t' ↦ Same t t' ∧
      keys = (rest.map Slot.key).takeWhile p) t := by
  induction rest generalizing t fuel r done with
  | nil =>
    obtain ⟨fuel, rfl⟩ : ∃ f, fuel = f + 1 := ⟨fuel - 1, by omega⟩
    have hr0 : r.1 = 0 := hr
    unfold Iterator.collectWhile
    rw [if_pos hr0, wp_pure]
    exact ⟨.refl t, rfl⟩
  | cons s rest ih =>
    obtain ⟨fuel, rfl⟩ : ∃ f, fuel = f + 1 := ⟨fuel - 1, by omega⟩
    obtain ⟨hr1, hs⟩ : r.1 = 1 ∧ Stands t r.2 s := hr
    unfold Iterator.collectWhile
    rw [if_neg (by omega), wp_bind, hv.wp_getKey hs, List.map_cons]
    by_cases hp : p s.key = true
    · rw [if_pos hp, wp_bind, List.takeWhile_cons_of_pos hp]
      refine wp_mono (hv.wp_next hcmp hs) fun r' t₁ hr' ↦ ?_
      obtain ⟨hv₁, hsame, hfound⟩ := hr'
      have hnext : IterFlag.AFTER_KEY.search c.cmp s.key t.live = rest.head? :=
        search_after hcmp hv.sorted hv.keys (show t.liveFrom false = done ++ s :: rest from hlive)
      rw [hnext] at hfound
      have hlive₁ : t₁.live = (done ++ [s]) ++ rest := by
        rw [hsame.live, hlive]
        simp
      rw [wp_bind]
      refine wp_mono (ih hv₁ (by simpa using hfuel) hfound hlive₁) fun keys t' hk ↦ ?_
      obtain ⟨hsame', rfl⟩ := hk
      exact ⟨hsame.trans hsame', rfl⟩
    · rw [if_neg hp, wp_pure, List.takeWhile_cons_of_neg hp]
      exact ⟨.refl t, rfl⟩

end BTree.Valid

end ExampleEngine.Index
