import ExampleEngine.Index.Invariant

/-!
# Splitting a son

Library `Index`. What the split of a full node in `src/lib/btree.cpp:562–582` does to the
blocks: the greater half of its slots moves to a fresh node, which takes the node's slot in
the father and its place before the next node on the level.
-/

namespace ExampleEngine.Index

open ExampleEngine.Base ExampleEngine.Storage

namespace BTree

variable {K : Type} {c : Config K} {t t' : BTree K} {m m' : BTreeMetadata} {p a : Nat}

/-- A full node `a` with its father `p` and the next node on its level. -/
structure Splitting (c : Config K) (t : BTree K) (m : BTreeMetadata) (p a : Nat)
    (np ns : NodeBlock K) (X Y : List (Slot K)) (sl : Slot K) (lo : List (Slot K))
    (z : Slot K) (hi : List (Slot K)) : Prop where
  father : t.page p = .node np
  son : t.page a = .node ns
  father_dirty : t.buffer.Dirty p
  son_dirty : t.buffer.Dirty a
  father_pos : 0 < p
  son_pos : 0 < a
  ne : p ≠ a
  slots : np.kv = X ++ sl :: Y
  valSize : np.valSize = 4
  room : np.count < np.size
  halves : ns.kv.take ((ns.count + 1) / 2) = lo ++ [z] ∧ ns.kv.drop ((ns.count + 1) / 2) = hi
  below : ∀ e ∈ X, c.cmp e.key z.key < 0
  above : ∀ e ∈ sl :: Y, 0 ≤ c.cmp e.key z.key
  next : ns.header.next ≠ 0 → ns.header.next < m.countOfBlock ∧ ns.header.next ≠ p ∧
    ns.header.next ≠ a ∧ ∃ nb, t.page ns.header.next = .node nb

/-- The blocks after the split: the new node is numbered by the count of blocks before. -/
structure Divided (t t' : BTree K) (m m' : BTreeMetadata) (p a : Nat) (np ns : NodeBlock K)
    (X Y : List (Slot K)) (sl : Slot K) (lo : List (Slot K)) (z : Slot K)
    (hi : List (Slot K)) : Prop where
  later : Later t t'
  heap : Heap t' m'
  count : m'.countOfBlock = m.countOfBlock + 1
  items : m'.countOfItem = m.countOfItem
  root : m'.root = m.root
  father : t'.page p = .node { np with
    kv := X ++ ⟨z.key, 1, leBytes 4 a⟩ :: ⟨sl.key, 1, leBytes 4 m.countOfBlock⟩ :: Y }
  son : t'.page a = .node { ns with
    header := { ns.header with next := m.countOfBlock }, kv := lo ++ [z] }
  fresh : t'.page m.countOfBlock = .node
    ⟨⟨ns.header.type, m.countOfBlock, ns.header.next, a⟩, ns.keySize, ns.valSize, hi⟩
  next : ns.header.next ≠ 0 → ∀ nb, t.page ns.header.next = .node nb →
    t'.page ns.header.next = .node { nb with header := { nb.header with last := m.countOfBlock } }
  other : ∀ i, i ≠ 0 → i ≠ p → i ≠ a → i ≠ m.countOfBlock →
    (ns.header.next ≠ 0 → i ≠ ns.header.next) → t'.page i = t.page i

private theorem leBytes_take (i : Nat) : (leBytes 4 i).take 4 = leBytes 4 i :=
  List.take_of_length_le (Nat.le_of_eq (length_leBytes 4 i))

/-- `splitSon` divides a full son. -/
theorem wp_splitSon {np ns : NodeBlock K} {X Y lo hi : List (Slot K)} {sl z : Slot K}
    {E : Fault → Prop} {Q : Unit → BTree K → Prop} (h : Heap t m)
    (hE : Covers E (m.countOfBlock + 1)) (hs : Splitting c t m p a np ns X Y sl lo z hi)
    (hQ : ∀ t' m', Divided t t' m m' p a np ns X Y sl lo z hi → Q () t') :
    wp E (splitSon c (some p) (some a) X.length) Q t := by
  have hn : m.countOfBlock ≠ 0 := by
    have := h.count_pos
    omega
  have hp0 : p ≠ 0 := by have := hs.father_pos; omega
  have ha0 : a ≠ 0 := by have := hs.son_pos; omega
  have hpn : p ≠ m.countOfBlock := by have := h.pooled p hs.father_dirty.pooled; omega
  have han : a ≠ m.countOfBlock := by have := h.pooled a hs.son_dirty.pooled; omega
  have hpi : np.header.index = p := by
    have := h.index p (h.pooled p hs.father_dirty.pooled)
    rwa [hs.father] at this
  have hai : ns.header.index = a := by
    have := h.index a (h.pooled a hs.son_dirty.pooled)
    rwa [hs.son] at this
  obtain ⟨hlo, hhi⟩ := hs.halves
  unfold splitSon
  simp only [wp_bind, wp_readNode hs.son_dirty.pooled hs.son]
  refine wp_getFreeNodeBlock h hE fun t₁ m₁ ha₁ ↦ ?_
  have hfresh : t₁.page m.countOfBlock = .node
      ⟨⟨ns.header.type, m.countOfBlock, 0, 0⟩, ns.keySize, ns.valSize, []⟩ := by
    rw [ha₁.page, Function.update_self]
  have hsplit : ns.split ⟨⟨ns.header.type, m.countOfBlock, 0, 0⟩, ns.keySize, ns.valSize, []⟩ =
      ({ ns with kv := lo ++ [z] },
        ⟨⟨ns.header.type, m.countOfBlock, 0, 0⟩, ns.keySize, ns.valSize, hi⟩) := by
    simp only [NodeBlock.split, hlo, hhi]
  simp only [wp_readNode ha₁.dirty.pooled hfresh, hsplit]
  -- the halves
  refine wp_store_page ha₁.heap (ha₁.later.dirty hs.son_dirty) ha0 hai fun t₂ hl₂ h₂ hp₂ ↦ ?_
  refine wp_store_page h₂ (hl₂.dirty ha₁.dirty) hn rfl fun t₃ hl₃ h₃ hp₃ ↦ ?_
  have hl₁₃ := ha₁.later.trans (hl₂.trans hl₃)
  have hd₃ := hl₃.dirty (hl₂.dirty ha₁.dirty)
  -- the rest, after the new node has taken the place before the next node
  have hrest : ∀ t₄, Later t t₄ → Heap t₄ m₁ → t₄.buffer.Dirty m.countOfBlock →
      t₄.page p = .node np → t₄.page a = .node { ns with kv := lo ++ [z] } →
      t₄.page m.countOfBlock = .node
        ⟨⟨ns.header.type, m.countOfBlock, ns.header.next, 0⟩, ns.keySize, ns.valSize, hi⟩ →
      (ns.header.next ≠ 0 → ∀ nb, t.page ns.header.next = .node nb →
        t₄.page ns.header.next =
          .node { nb with header := { nb.header with last := m.countOfBlock } }) →
      (∀ i, i ≠ 0 → i ≠ p → i ≠ a → i ≠ m.countOfBlock →
        (ns.header.next ≠ 0 → i ≠ ns.header.next) → t₄.page i = t.page i) →
      wp E (do
        modifyNode (some a) fun x ↦ .ok { x with header.next := m.countOfBlock }
        modifyNode (some m.countOfBlock) fun x ↦ .ok { x with header.last := ns.header.index }
        modifyNode (some p) (·.set X.length none (some (leBytes 4 m.countOfBlock)) 1)
        let maxKey ← liftM (NodeBlock.maxKey { ns with kv := lo ++ [z] })
        modifyNode (some p) (·.insertKey c.cmp maxKey (leBytes 4 ns.header.index))) Q t₄ := by
    intro t₄ hl₄ h₄ hd₄ hp₄ ha₄ hn₄ hb₄ ho₄
    simp only [wp_bind]
    refine wp_modify_page h₄ (hl₄.dirty hs.son_dirty) ha0 ha₄ rfl hai fun t₅ hl₅ h₅ hp₅ ↦ ?_
    have hn₅ : t₅.page m.countOfBlock = .node
        ⟨⟨ns.header.type, m.countOfBlock, ns.header.next, 0⟩, ns.keySize, ns.valSize, hi⟩ := by
      rw [hp₅, Function.update_of_ne (Ne.symm han), hn₄]
    refine wp_modify_page h₅ (hl₅.dirty hd₄) hn hn₅ rfl rfl fun t₆ hl₆ h₆ hp₆ ↦ ?_
    have hl₄₆ := hl₄.trans (hl₅.trans hl₆)
    have hp₆' : t₆.page p = .node np := by
      rw [hp₆, Function.update_of_ne hpn, hp₅, Function.update_of_ne hs.ne, hp₄]
    refine wp_modify_page h₆ (hl₄₆.dirty hs.father_dirty) hp0 hp₆'
      (NodeBlock.set_append hs.slots _ _ _) hpi fun t₇ hl₇ h₇ hp₇ ↦ ?_
    have hmax : NodeBlock.maxKey { ns with kv := lo ++ [z] } = .ok z.key :=
      NodeBlock.maxKey_append rfl
    simp only [hmax, wp_liftM]
    have hcut : Cut c.cmp Slot.key z.key
        (X ++ ⟨sl.key, 1, (leBytes 4 m.countOfBlock).take np.valSize⟩ :: Y) X
        (⟨sl.key, 1, (leBytes 4 m.countOfBlock).take np.valSize⟩ :: Y) := by
      refine ⟨rfl, hs.below, fun e he ↦ ?_⟩
      rcases List.mem_cons.mp he with rfl | he
      · exact hs.above sl (by simp)
      · exact hs.above e (by simp [he])
    have hroom : NodeBlock.count { np with
        kv := X ++ ⟨sl.key, 1, (leBytes 4 m.countOfBlock).take np.valSize⟩ :: Y } < np.size := by
      have := hs.room
      simp only [NodeBlock.count, hs.slots, List.length_append, List.length_cons] at this ⊢
      exact this
    have hins : NodeBlock.insertKey { np with
        kv := X ++ ⟨sl.key, 1, (leBytes 4 m.countOfBlock).take np.valSize⟩ :: Y } c.cmp z.key
        (leBytes 4 ns.header.index) = .ok { np with
          kv := X ++ ⟨z.key, 1, leBytes 4 a⟩ ::
            ⟨sl.key, 1, leBytes 4 m.countOfBlock⟩ :: Y } := by
      unfold NodeBlock.insertKey
      rw [NodeBlock.lub_eq hcut]
      refine (NodeBlock.insert_append rfl hroom _ _).trans ?_
      simp only [hs.valSize, leBytes_take, hai]
    have hp₇' : t₇.page p = .node { np with
        kv := X ++ ⟨sl.key, 1, (leBytes 4 m.countOfBlock).take np.valSize⟩ :: Y } := by
      rw [hp₇, Function.update_self]
      rfl
    refine wp_modify_page h₇ ((hl₄₆.trans hl₇).dirty hs.father_dirty) hp0 hp₇' hins hpi
      fun t₈ hl₈ h₈ hp₈ ↦ ?_
    refine hQ t₈ m₁ ⟨hl₄₆.trans (hl₇.trans hl₈), h₈, ha₁.count, ha₁.items, ha₁.root,
      ?_, ?_, ?_, ?_, ?_⟩
    · rw [hp₈, Function.update_self]
    · rw [hp₈, Function.update_of_ne hs.ne.symm, hp₇, Function.update_of_ne hs.ne.symm, hp₆,
        Function.update_of_ne han, hp₅, Function.update_self]
    · rw [hp₈, Function.update_of_ne hpn.symm, hp₇, Function.update_of_ne hpn.symm, hp₆,
        Function.update_self, hai]
    · intro hb nb hnb
      obtain ⟨hlt, hbp, hba, _⟩ := hs.next hb
      rw [hp₈, Function.update_of_ne hbp, hp₇, Function.update_of_ne hbp, hp₆,
        Function.update_of_ne (by omega), hp₅, Function.update_of_ne hba, hb₄ hb nb hnb]
    · intro i hi0 hip hia hin hib
      rw [hp₈, Function.update_of_ne hip, hp₇, Function.update_of_ne hip, hp₆,
        Function.update_of_ne hin, hp₅, Function.update_of_ne hia, ho₄ i hi0 hip hia hin hib]
  simp only [wp_bind] at hrest
  have hpage₃ : ∀ i, i ≠ 0 → i ≠ a → i ≠ m.countOfBlock → t₃.page i = t.page i := by
    intro i hi0 hia hin
    rw [hp₃, Function.update_of_ne hin, hp₂, Function.update_of_ne hia, ha₁.page,
      Function.update_of_ne hin, Function.update_of_ne hi0]
  have hpa₃ : t₃.page a = .node { ns with kv := lo ++ [z] } := by
    rw [hp₃, Function.update_of_ne han, hp₂, Function.update_self]
  have hpn₃ : t₃.page m.countOfBlock = .node
      ⟨⟨ns.header.type, m.countOfBlock, 0, 0⟩, ns.keySize, ns.valSize, hi⟩ := by
    rw [hp₃, Function.update_self]
  by_cases hb : ns.header.next = 0
  · simp only [hb, ne_eq, not_true_eq_false, if_false, wp_bind]
    refine hrest t₃ hl₁₃ h₃ hd₃ ?_ hpa₃ ?_ ?_ ?_
    · rw [hpage₃ p hp0 hs.ne hpn, hs.father]
    · rw [hpn₃, hb]
    · exact fun hne ↦ absurd hb hne
    · exact fun i hi0 _ hia hin _ ↦ hpage₃ i hi0 hia hin
  · obtain ⟨hlt, hbp, hba, nb, hnb⟩ := hs.next hb
    have hbn : ns.header.next ≠ m.countOfBlock := by omega
    have hlt₁ : ns.header.next < m₁.countOfBlock := by
      rw [ha₁.count]
      omega
    simp only [hb, ne_eq, not_false_eq_true, if_true, wp_bind]
    refine wp_getNodeBlock h₃ hlt₁ fun t₄ hf₄ ↦ ?_
    have hnb₄ : t₄.page ns.header.next = .node nb := by
      rw [hf₄.page, hpage₃ _ hb hba hbn, hnb]
    have hnbi : nb.header.index = ns.header.next := by
      have := h.index _ hlt
      rwa [hnb] at this
    refine wp_modify_page hf₄.heap (hf₄.dirty (by decide)) hb hnb₄ rfl hnbi
      fun t₅ hl₅ h₅ hp₅ ↦ ?_
    have hn₅ : t₅.page m.countOfBlock = .node
        ⟨⟨ns.header.type, m.countOfBlock, 0, 0⟩, ns.keySize, ns.valSize, hi⟩ := by
      rw [hp₅, Function.update_of_ne hbn.symm, hf₄.page, hpn₃]
    have hd₅ := hl₅.dirty (hf₄.later.dirty hd₃)
    refine wp_modify_page h₅ hd₅ hn hn₅ rfl rfl fun t₆ hl₆ h₆ hp₆ ↦ ?_
    have hother : ∀ i, i ≠ m.countOfBlock → i ≠ ns.header.next → t₆.page i = t₃.page i := by
      intro i hin hib
      rw [hp₆, Function.update_of_ne hin, hp₅, Function.update_of_ne hib, hf₄.page]
    refine hrest t₆ (hl₁₃.trans (hf₄.later.trans (hl₅.trans hl₆))) h₆ (hl₆.dirty hd₅)
      ?_ ?_ ?_ ?_ ?_
    · rw [hother p hpn (Ne.symm hbp), hpage₃ p hp0 hs.ne hpn, hs.father]
    · rw [hother a han (Ne.symm hba), hpa₃]
    · rw [hp₆, Function.update_self]
    · intro _ nb' hnb'
      rw [hnb] at hnb'
      cases hnb'
      rw [hp₆, Function.update_of_ne hbn, hp₅, Function.update_self]
    · intro i hi0 _ hia hin hib
      rw [hother i hin (hib hb), hpage₃ i hi0 hia hin]

end BTree

end ExampleEngine.Index
