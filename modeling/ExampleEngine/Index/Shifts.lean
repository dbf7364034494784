import ExampleEngine.Base.Loop
import ExampleEngine.Index.Counting

/-!
# Iterators while entries are put

Library `Index`. An iterator is a leaf and a slot number, and `NodeBlock::insert` and `split` of
`src/lib/btree.cpp:69–122` move slots under it. Which keys get a slot in its leaf, which of them
move its own slot, and when it stays on its key while keys are put one after another.
-/

namespace ExampleEngine.Index

open ExampleEngine.Base ExampleEngine.Storage

variable {K : Type} {c : Config K} {S : K → Prop}

/-- The slots of the leaf under an iterator. -/
def Iterator.leaf (it : Iterator) (t : BTree K) : List (Slot K) :=
  match it.cur with
  | none => []
  | some i => slotsOf (t.page i)

namespace BTree

/-- The slot that tells which leaf a key without a slot belongs to: the first one above it, or the
last one when all are below it. -/
def Guides (c : Config K) (key : K) (es : List (Slot K)) (a : Slot K) : Prop :=
  0 < c.cmp a.key key ∧ (∀ e ∈ es, c.cmp e.key key < 0 ∨ c.cmp a.key e.key ≤ 0) ∨
    ∀ e ∈ es, c.cmp e.key key < 0 ∧ c.cmp e.key a.key ≤ 0

/-- A key has no slot, and gets one in the leaf under an iterator when it is put. -/
def Enters (c : Config K) (it : Iterator) (t : BTree K) (key : K) : Prop :=
  (∀ e ∈ t.slots, c.cmp e.key key ≠ 0) ∧ ∃ a ∈ it.leaf t, Guides c key t.slots a

instance (c : Config K) (key : K) (es : List (Slot K)) (a : Slot K) :
    Decidable (Guides c key es a) := inferInstanceAs (Decidable (_ ∨ _))

instance (c : Config K) (it : Iterator) (t : BTree K) (key : K) : Decidable (Enters c it t key) :=
  inferInstanceAs (Decidable (_ ∧ _))

/-- Keys put one after another leave an iterator on its key: those that get a slot in its leaf come
after it, and the leaf has room for them, or the iterator is in the half that stays. -/
def Spares (c : Config K) (ks : List K) (it : Iterator) (t : BTree K) : Prop :=
  (∀ key ∈ ks, Enters c it t key → ∀ s ∈ it.slot t, c.cmp s.key key < 0) ∧
    ((it.leaf t).length + (ks.filter (Enters c it t)).length < c.capacity 0 ∨
      it.index < ((c.capacity 0 + 1) / 2 : Nat))

instance (c : Config K) (ks : List K) (it : Iterator) (t : BTree K) :
    Decidable (Spares c ks it t) := inferInstanceAs (Decidable (_ ∧ _))

variable {t t' : BTree K} {it : Iterator} {s : Slot K} {key : K} {w : List UInt8}

namespace PutIn

variable {i : Nat} {items a b : List (Slot K)}

/-- The leaf that a key without a slot is put in has the slot that tells so. -/
theorem exists_guide (h : PutIn c key w t t' i items) (hne : items ≠ [])
    (hsorted : Sorted c.cmp Slot.key t.slots) (hkeys : ∀ e ∈ t.slots, S e.key)
    (hcmp : Comparison c.cmp S) (hnew : ∀ e ∈ t.slots, c.cmp e.key key ≠ 0) :
    ∃ a ∈ items, Guides c key t.slots a := by
  obtain ⟨l, r, hslots, hbelow, hlast⟩ := h.slots
  have hle : ∀ {A B : List (Slot K)} {a : Slot K}, t.slots = A ++ a :: B →
      c.cmp a.key a.key = 0 ∧ (∀ e ∈ A, c.cmp e.key a.key < 0) ∧
        ∀ e ∈ B, c.cmp a.key e.key < 0 := by
    intro A B a heq
    rw [heq] at hsorted hkeys
    obtain ⟨_, hsB, hAB⟩ := List.pairwise_append.mp hsorted
    exact ⟨hcmp.self (hkeys a (by simp)), fun e he ↦ hAB e he a (by simp),
      (List.pairwise_cons.mp hsB).1⟩
  cases hfind : items.find? (fun e ↦ 0 ≤ c.cmp e.key key) with
  | some a =>
    obtain ⟨ha, A, B, hAB, hA⟩ := List.find?_eq_some_iff_append.mp hfind
    have ha : 0 ≤ c.cmp a.key key := by simpa using ha
    have heq : t.slots = (l ++ A) ++ a :: (B ++ r) := by
      rw [hslots, hAB]
      simp
    have hne := hnew a (by rw [heq]; simp)
    obtain ⟨hself, _, hB⟩ := hle heq
    refine ⟨a, by rw [hAB]; simp, .inl ⟨by omega, fun e he ↦ ?_⟩⟩
    rw [heq] at he
    rcases List.mem_append.mp he with he | he
    · refine .inl ?_
      rcases List.mem_append.mp he with he | he
      · exact hbelow e he
      · simpa using hA e he
    · rcases List.mem_cons.mp he with rfl | he
      · exact .inr (Int.le_of_eq hself)
      · exact .inr (Int.le_of_lt (hB e he))
  | none =>
    -- all slots are below the key, so its leaf is the last one
    have hall := List.find?_eq_none.mp hfind
    obtain rfl : r = [] := by
      rcases hlast with hr | ⟨e, he, hek⟩
      · exact hr
      · exact absurd (decide_eq_true hek) (hall e he)
    obtain ⟨A, a, rfl⟩ : ∃ A a, items = A ++ [a] :=
      ⟨_, _, (List.dropLast_concat_getLast hne).symm⟩
    have heq : t.slots = (l ++ A) ++ [a] := by
      rw [hslots]
      simp
    obtain ⟨hself, hA, _⟩ := hle heq
    refine ⟨a, by simp, .inr fun e he ↦ ⟨?_, ?_⟩⟩
    · rw [hslots, List.append_nil] at he
      rcases List.mem_append.mp he with he | he
      · exact hbelow e he
      · simpa using hall e he
    · rw [heq] at he
      rcases List.mem_append.mp he with he | he
      · exact Int.le_of_lt (hA e he)
      · rw [List.mem_singleton.mp he]
        exact Int.le_of_eq hself

/-- Slots put after the one under an iterator leave it there. -/
theorem stands_of_room (h : PutIn c key w t t' i (a ++ s :: b))
    (hbelow : ∀ e ∈ a ++ [s], c.cmp e.key key < 0)
    (hroom : (a ++ s :: b).length + 1 < c.capacity 0 ∨ a.length < (c.capacity 0 + 1) / 2) :
    Stands t' ⟨some i, a.length⟩ s := by
  have hup : upsert c.cmp Slot.key key ⟨key, 1, w⟩ (reviveWith w) (a ++ s :: b) =
      a ++ s :: upsert c.cmp Slot.key key ⟨key, 1, w⟩ (reviveWith w) b := by
    rw [List.append_cons, upsert_append_left _ hbelow, ← List.append_cons]
  have hle : (upsert c.cmp Slot.key key ⟨key, 1, w⟩ (reviveWith w) (a ++ s :: b)).length ≤
      (a ++ s :: b).length + 1 := length_upsert_le _
  by_cases hlt : (upsert c.cmp Slot.key key ⟨key, 1, w⟩ (reviveWith w)
      (a ++ s :: b)).length < c.capacity 0
  · refine h.stands (b := upsert c.cmp Slot.key key ⟨key, 1, w⟩ (reviveWith w) b) ?_
    unfold keptSlots
    rw [if_pos hlt, hup]
  · -- the half that stays has the slot
    have ha : a.length < (c.capacity 0 + 1) / 2 := by omega
    obtain ⟨d, hd⟩ := Nat.exists_eq_add_of_lt ha
    refine h.stands (b := (upsert c.cmp Slot.key key ⟨key, 1, w⟩ (reviveWith w) b).take d) ?_
    unfold keptSlots
    rw [if_neg hlt, hup, hd, Nat.add_assoc, List.take_length_add_append, List.take_succ_cons]

end PutIn

/-- A leaf gets at most one slot more, that of the key. -/
private theorem keptSlots_subset (c : Config K) (key : K) (w : List UInt8)
    (items : List (Slot K)) :
    (keptSlots c key w items).length ≤ items.length + 1 ∧
      ∀ x ∈ keptSlots c key w items, x.key = key ∨ ∃ y ∈ items, y.key = x.key := by
  have hle : (upsert c.cmp Slot.key key ⟨key, 1, w⟩ (reviveWith w) items).length ≤
      items.length + 1 := length_upsert_le _
  have hsub : (keptSlots c key w items).Sublist
      (upsert c.cmp Slot.key key ⟨key, 1, w⟩ (reviveWith w) items) := by
    unfold keptSlots
    dsimp only
    split
    · exact .refl _
    · exact List.take_sublist _ _
  refine ⟨Nat.le_trans hsub.length_le hle, fun x hx ↦ ?_⟩
  rcases mem_upsert (hsub.subset hx) with rfl | ⟨y, hy, _, rfl⟩ | hx
  · exact .inl rfl
  · exact .inr ⟨y, hy, rfl⟩
  · exact .inr ⟨x, hx, rfl⟩

/-- The keys of every leaf are those of before. -/
def SameLeaves (t t' : BTree K) : Prop :=
  ∀ it : Iterator, (it.leaf t').map Slot.key = (it.leaf t).map Slot.key

theorem SameLeaves.trans {t₁ : BTree K} (h : SameLeaves t t₁) (h' : SameLeaves t₁ t') :
    SameLeaves t t' :=
  fun it ↦ (h' it).trans (h it)

/-- A tree that was only looked at has the same leaves. -/
theorem Same.leaves (h : Same t t') : SameLeaves t t' := by
  intro it
  unfold Iterator.leaf
  rw [h.page]

/-- A tree that comes of `t₀` by putting keys: none is lost, those in the leaf under the iterator
were there or are among those that entered it, and the iterator is on the key `k₀`. -/
structure Follows (c : Config K) (S : K → Prop) (it : Iterator) (k₀ : K) (t₀ : BTree K)
    (entered : List K) (t : BTree K) : Prop where
  sorted : Sorted c.cmp Slot.key t.slots
  keys : ∀ e ∈ t.slots, S e.key
  slots : ∀ e ∈ t₀.slots, ∃ e' ∈ t.slots, e'.key = e.key
  length : (it.leaf t).length ≤ (it.leaf t₀).length + entered.length
  leaf : ∀ a ∈ it.leaf t, (∃ a₀ ∈ it.leaf t₀, a₀.key = a.key) ∨ a.key ∈ entered
  stands : ∃ s, s.key = k₀ ∧ Stands t it s

section Runs

variable {t₀ : BTree K} {k₀ : K} {entered : List K}

/-- A greater key than those put before enters the leaf only where it did so at the start. -/
private theorem Follows.enters (h : Follows c S it k₀ t₀ entered t)
    (hleaf : ∀ a ∈ it.leaf t₀, a ∈ t₀.slots)
    (hent : ∀ k ∈ entered, c.cmp k key < 0 ∧ Enters c it t₀ k)
    (henters : Enters c it t key) : Enters c it t₀ key := by
  obtain ⟨hnew, a, ha, hguides⟩ := henters
  have hslots : ∀ {P : K → Prop}, (∀ e ∈ t.slots, P e.key) → ∀ e ∈ t₀.slots, P e.key := by
    intro P hall e he
    obtain ⟨e', he', hek⟩ := h.slots e he
    exact hek ▸ hall e' he'
  refine ⟨hslots (P := fun k ↦ c.cmp k key ≠ 0) hnew, ?_⟩
  rcases hguides with ⟨hpos, hfirst⟩ | hlast
  · rcases h.leaf a ha with ⟨a₀, ha₀, hkey⟩ | hmem
    · exact ⟨a₀, ha₀, .inl ⟨hkey ▸ hpos, hslots (P := fun k ↦ c.cmp k key < 0 ∨ c.cmp a₀.key k ≤ 0)
        (hkey ▸ hfirst)⟩⟩
    · have := (hent a.key hmem).1
      omega
  · rcases h.leaf a ha with ⟨a₀, ha₀, hkey⟩ | hmem
    · exact ⟨a₀, ha₀, .inr (hslots (P := fun k ↦ c.cmp k key < 0 ∧ c.cmp k a₀.key ≤ 0)
        (hkey ▸ hlast))⟩
    · -- the last slot was put before, and it entered the leaf behind all others
      obtain ⟨_, _, a₀, ha₀, hguides₀⟩ := hent a.key hmem
      have hle := (hslots (P := fun k ↦ c.cmp k key < 0 ∧ c.cmp k a.key ≤ 0) hlast a₀
        (hleaf a₀ ha₀)).2
      rcases hguides₀ with ⟨hpos, _⟩ | hlast₀
      · omega
      · exact ⟨a₀, ha₀, .inr fun e he ↦
          ⟨(hslots (P := fun k ↦ c.cmp k key < 0 ∧ c.cmp k a.key ≤ 0) hlast e he).1,
            (hlast₀ e he).2⟩⟩

/-- Putting a key keeps the slots in order and loses none. -/
private theorem Follows.slots_put (h : Follows c S it k₀ t₀ entered t) (hcmp : Comparison c.cmp S)
    (hk : S key) (hu : Upserts c key w t t') :
    Sorted c.cmp Slot.key t'.slots ∧ (∀ e ∈ t'.slots, S e.key) ∧
      ∀ e ∈ t₀.slots, ∃ e' ∈ t'.slots, e'.key = e.key := by
  rw [hu.slots]
  refine ⟨sorted_upsert hcmp h.keys hk rfl (fun _ ↦ rfl) h.sorted, fun e he ↦ ?_, fun e he ↦ ?_⟩
  · rcases mem_upsert he with rfl | ⟨e', he', _, rfl⟩ | he
    · exact hk
    · exact h.keys e' he'
    · exact h.keys e he
  · obtain ⟨e₁, he₁, hk₁⟩ := h.slots e he
    have hrevive : ∀ a : Slot K, (reviveWith w a).key = a.key := fun _ ↦ rfl
    obtain ⟨e', he', hk'⟩ := exists_mem_upsert hrevive he₁
    exact ⟨e', he', hk'.trans hk₁⟩

section Leaves

variable {i : Nat} {a b : List (Slot K)}

/-- The leaf that a key is put in has the slots that are kept. -/
private theorem PutIn.leaf_eq {items : List (Slot K)} (h : PutIn c key w t t' i items)
    (hcur : it.cur = some i) : it.leaf t' = keptSlots c key w items := by
  obtain ⟨n, hn, _, hkv⟩ := h.page
  unfold Iterator.leaf
  rw [hcur]
  change slotsOf (t'.page i) = _
  rw [hn]
  exact hkv

/-- A key with a slot leaves the leaf its keys. -/
private theorem Follows.put_present (h : Follows c S ⟨some i, a.length⟩ s.key t₀ entered t)
    (hcmp : Comparison c.cmp S) (hk : S key) (hu : Upserts c key w t t')
    (heq : Iterator.leaf ⟨some i, a.length⟩ t = a ++ s :: b)
    (hput : PutIn c key w t t' i (a ++ s :: b)) (hex : ∃ e ∈ t.slots, c.cmp e.key key = 0) :
    Follows c S ⟨some i, a.length⟩ s.key t₀ entered t' := by
  obtain ⟨hsorted, hkeys, hslots⟩ := h.slots_put hcmp hk hu
  have hlen := h.length
  have hsub := h.leaf
  rw [heq] at hlen hsub
  have heq' : Iterator.leaf ⟨some i, a.length⟩ t' = _ := hput.leaf_eq rfl
  have hkept := hput.kept_of_equal h.sorted h.keys hcmp hk hex
  refine ⟨hsorted, hkeys, hslots, ?_, fun x hx ↦ ?_, hput.stands_of_equal hkept⟩
  · have := congrArg List.length hkept
    rw [List.length_map, List.length_map] at this
    rw [heq']
    omega
  · have hx : x.key ∈ (keptSlots c key w (a ++ s :: b)).map Slot.key :=
      List.mem_map_of_mem (heq' ▸ hx)
    rw [hkept] at hx
    obtain ⟨y, hy, hyk⟩ := List.mem_map.mp hx
    exact hyk ▸ hsub y hy

/-- A key without a slot comes into the leaf; the iterator stays where there is room behind it. -/
private theorem Follows.put_absent (h : Follows c S ⟨some i, a.length⟩ s.key t₀ entered t)
    (hcmp : Comparison c.cmp S) (hk : S key) (hu : Upserts c key w t t')
    (heq : Iterator.leaf ⟨some i, a.length⟩ t = a ++ s :: b)
    (hput : PutIn c key w t t' i (a ++ s :: b)) (hsk : c.cmp s.key key < 0)
    (hroom : (a ++ s :: b).length + 1 < c.capacity 0 ∨ a.length < (c.capacity 0 + 1) / 2) :
    Follows c S ⟨some i, a.length⟩ s.key t₀ (key :: entered) t' := by
  obtain ⟨hsorted, hkeys, hslots⟩ := h.slots_put hcmp hk hu
  have hlen := h.length
  have hsub := h.leaf
  rw [heq] at hlen hsub
  have heq' : Iterator.leaf ⟨some i, a.length⟩ t' = _ := hput.leaf_eq rfl
  obtain ⟨hle, hkept⟩ := keptSlots_subset c key w (a ++ s :: b)
  refine ⟨hsorted, hkeys, hslots, ?_, fun x hx ↦ ?_, s, rfl,
    hput.stands_of_room (fun e he ↦ ?_) hroom⟩
  · rw [heq', List.length_cons]
    omega
  · rcases hkept x (heq' ▸ hx) with hx | ⟨y, hy, hyk⟩
    · exact .inr (hx ▸ List.mem_cons_self)
    · exact (hyk ▸ hsub y hy).imp_right (List.mem_cons_of_mem _)
  · -- the slots up to the one under the iterator are below the key
    obtain ⟨l, r, hall, _⟩ := hput.slots
    have hs := h.sorted
    have hks := h.keys
    rw [hall] at hs hks
    have hSs : S s.key := hks s (by simp)
    rcases List.mem_append.mp he with he | he
    · have hlt : c.cmp e.key s.key < 0 :=
        (List.pairwise_append.mp (List.pairwise_append.mp
          (List.pairwise_append.mp hs).2.1).1).2.2 e he s (by simp)
      exact hcmp.lt_trans (hks e (by simp [he])) hSs hk hlt hsk
    · rwa [List.mem_singleton.mp he]

end Leaves

/-- One more key is put: it enters the leaf, or the leaf keeps its keys. -/
private theorem Follows.put (h : Follows c S it k₀ t₀ entered t) (hcmp : Comparison c.cmp S)
    (hk : S key) (hleaf : ∀ a ∈ it.leaf t₀, a ∈ t₀.slots)
    (hent : ∀ k ∈ entered, c.cmp k key < 0 ∧ Enters c it t₀ k)
    (hspare : Enters c it t₀ key → c.cmp k₀ key < 0 ∧
      ((it.leaf t₀).length + entered.length + 1 < c.capacity 0 ∨
        it.index < ((c.capacity 0 + 1) / 2 : Nat)))
    (hu : Upserts c key w t t') :
    Follows c S it k₀ t₀ entered t' ∨
      Enters c it t₀ key ∧ Follows c S it k₀ t₀ (key :: entered) t' := by
  obtain ⟨s, rfl, hst⟩ := h.stands
  obtain ⟨i, a, b, rfl, hitems, hcase⟩ := hu.stands_or_putIn hst
  have heq : Iterator.leaf ⟨some i, a.length⟩ t = a ++ s :: b := hitems
  rcases hcase with ⟨hst', hitems'⟩ | hput
  · obtain ⟨hsorted, hkeys, hslots⟩ := h.slots_put hcmp hk hu
    have heq' : Iterator.leaf ⟨some i, a.length⟩ t' = _ := hitems'.trans heq.symm
    exact .inl ⟨hsorted, hkeys, hslots, heq' ▸ h.length, heq' ▸ h.leaf, s, rfl, hst'⟩
  by_cases hex : ∃ e ∈ t.slots, c.cmp e.key key = 0
  · exact .inl (h.put_present hcmp hk hu heq hput hex)
  · have hnew : ∀ e ∈ t.slots, c.cmp e.key key ≠ 0 := fun e he hek ↦ hex ⟨e, he, hek⟩
    obtain ⟨g, hg, hguides⟩ := hput.exists_guide (by simp) h.sorted h.keys hcmp hnew
    have henters := h.enters hleaf hent ⟨hnew, g, heq ▸ hg, hguides⟩
    obtain ⟨hsk, hroom⟩ := hspare henters
    have hlen := h.length
    rw [heq] at hlen
    refine .inr ⟨henters, h.put_absent hcmp hk hu heq hput hsk ?_⟩
    rcases hroom with hroom | hroom
    · exact .inl (by omega)
    · exact .inr (Int.ofNat_lt.mp hroom)

/-- Keys put one after another in their order leave the iterator on its key when they spare it. -/
theorem Follows.loop {f : Nat → K} {Step Stop : Nat → BTree K → BTree K → Prop} {idxs : List Nat}
    {b : Bool} (hloop : Loop Step Stop idxs t b t')
    (hstep : ∀ j t t', Step j t t' → ∃ w, Upserts c (f j) w t t')
    (hstop : ∀ j t t', Stop j t t' → Same t t') (hcmp : Comparison c.cmp S)
    (hS : ∀ j ∈ idxs, S (f j)) (hlt : idxs.Pairwise fun j j' ↦ c.cmp (f j) (f j') < 0)
    (hleaf : ∀ a ∈ it.leaf t₀, a ∈ t₀.slots) (h : Follows c S it k₀ t₀ entered t)
    (hent : ∀ k ∈ entered, Enters c it t₀ k ∧ ∀ j ∈ idxs, c.cmp k (f j) < 0)
    (hbelow : ∀ j ∈ idxs, Enters c it t₀ (f j) → c.cmp k₀ (f j) < 0)
    (hroom : (it.leaf t₀).length + entered.length +
        ((idxs.map f).filter (Enters c it t₀)).length < c.capacity 0 ∨
      it.index < ((c.capacity 0 + 1) / 2 : Nat)) : ∃ s, s.key = k₀ ∧ Stands t' it s := by
  induction hloop generalizing entered with
  | done t => exact h.stands
  | stop j rest t t' hj =>
    obtain ⟨s, hs, hst⟩ := h.stands
    exact ⟨s, hs, (hstop j t t' hj).stands hst⟩
  | step j rest t t₁ t' b hj _ ih =>
    obtain ⟨w, hu⟩ := hstep j t t₁ hj
    obtain ⟨hlt, hrest⟩ := List.pairwise_cons.mp hlt
    have hcons : Enters c it t₀ (f j) → (((j :: rest).map f).filter (Enters c it t₀)).length =
        ((rest.map f).filter (Enters c it t₀)).length + 1 := by
      intro henters
      rw [List.map_cons, List.filter_cons_of_pos (by simpa using henters), List.length_cons]
    have hput := h.put hcmp (hS j (by simp)) hleaf
      (fun k hk ↦ ⟨(hent k hk).2 j (by simp), (hent k hk).1⟩)
      (fun henters ↦ ⟨hbelow j (by simp) henters, hroom.imp_left fun hroom ↦ by
        rw [hcons henters] at hroom
        omega⟩) hu
    rcases hput with hput | ⟨henters, hput⟩
    · refine ih (fun i hi ↦ hS i (by simp [hi])) hrest hput (fun k hk ↦ ⟨(hent k hk).1,
        fun i hi ↦ (hent k hk).2 i (by simp [hi])⟩) (fun i hi ↦ hbelow i (by simp [hi]))
        (hroom.imp_left fun hroom ↦ Nat.lt_of_le_of_lt (Nat.add_le_add_left ?_ _) hroom)
      exact (List.Sublist.filter _ (List.sublist_cons_self _ _)).length_le
    · refine ih (fun i hi ↦ hS i (by simp [hi])) hrest hput (fun k hk ↦ ?_)
        (fun i hi ↦ hbelow i (by simp [hi])) (hroom.imp_left fun hroom ↦ ?_)
      · rcases List.mem_cons.mp hk with rfl | hk
        · exact ⟨henters, hlt⟩
        · exact ⟨(hent k hk).1, fun i hi ↦ (hent k hk).2 i (by simp [hi])⟩
      · rw [hcons henters] at hroom
        rw [List.length_cons]
        omega

/-- The slots of a leaf that is stood on are slots of the tree. -/
theorem Valid.mem_slots_of_leaf (hv : Valid c S t) (hs : Stands t it s) :
    ∀ a ∈ it.leaf t, a ∈ t.slots := by
  obtain ⟨i, n, a, b, rfl, hp, hn, hleaf, _⟩ := hs.slot
  intro x hx
  have hx : x ∈ n.kv := by
    change x ∈ slotsOf (t.page i) at hx
    rwa [hn] at hx
  obtain ⟨A, B, hAB⟩ := List.append_of_mem hx
  have hst : Stands t ⟨some i, A.length⟩ x := ⟨i, n, A, B, rfl, hp, hn, hleaf, hAB⟩
  exact hv.mem_slots_of_stands hst

/-- An iterator is spared by a run of puts that starts where the tree differs from that of the
condition in nothing but flags and values. -/
theorem Spares.stands {f : Nat → K} {Step Stop : Nat → BTree K → BTree K → Prop} {idxs : List Nat}
    {b : Bool} (hsp : Spares c (idxs.map f) it t₀) (hv₀ : Valid c S t₀) (hs₀ : Stands t₀ it s)
    (hv : Valid c S t) (hslots : t.slots.map Slot.key = t₀.slots.map Slot.key)
    (hleaves : SameLeaves t₀ t) (hs : ∃ s', s'.key = s.key ∧ Stands t it s')
    (hcmp : Comparison c.cmp S) (hS : ∀ j ∈ idxs, S (f j))
    (hlt : idxs.Pairwise fun j j' ↦ c.cmp (f j) (f j') < 0) (hloop : Loop Step Stop idxs t b t')
    (hstep : ∀ j t t', Step j t t' → ∃ w, Upserts c (f j) w t t')
    (hstop : ∀ j t t', Stop j t t' → Same t t') : ∃ s', s'.key = s.key ∧ Stands t' it s' := by
  obtain ⟨hbelow, hroom⟩ := hsp
  have hstart : Follows c S it s.key t₀ [] t := by
    refine ⟨hv.slots.1, hv.slots.2, fun e he ↦ ?_, ?_, fun a ha ↦ .inl ?_, hs⟩
    · have := List.mem_map_of_mem (f := Slot.key) he
      rw [← hslots] at this
      obtain ⟨e', he', hk⟩ := List.mem_map.mp this
      exact ⟨e', he', hk⟩
    · have := congrArg List.length (hleaves it)
      simp only [List.length_map] at this
      exact Nat.le_of_eq this
    · have := List.mem_map_of_mem (f := Slot.key) ha
      rw [hleaves it] at this
      obtain ⟨a₀, ha₀, hk⟩ := List.mem_map.mp this
      exact ⟨a₀, ha₀, hk⟩
  refine hstart.loop hloop hstep hstop hcmp hS hlt (hv₀.mem_slots_of_leaf hs₀) (by simp)
    (fun j hj henters ↦ ?_) (by simpa using hroom)
  exact hbelow (f j) (List.mem_map_of_mem hj) henters s hs₀.slot_eq

/-- `remove` leaves the keys of every leaf. -/
theorem Valid.wp_remove_leaves {E : Fault → Prop} (hv : Valid c S t) (hs : Stands t it s) :
    wp E it.remove (fun _ t' ↦ SameLeaves t t') t := by
  obtain ⟨m, h, x, ht⟩ := hv.holds
  refine hs.wp_remove ht fun t' _ _ _ _ _ hf _ _ _ it₂ ↦ ?_
  have hkeys : ∀ i, (slotsOf (t'.page i)).map Slot.key = (slotsOf (t.page i)).map Slot.key := by
    intro i
    have := congrArg (List.map Prod.fst) (hf.page i).slots
    rwa [List.map_map, List.map_map] at this
  unfold Iterator.leaf
  cases it₂.cur with
  | none => rfl
  | some i => exact hkeys i

end Runs

end BTree

end ExampleEngine.Index
