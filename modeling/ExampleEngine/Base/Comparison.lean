import Mathlib.Algebra.Group.Int.Defs
import Mathlib.Algebra.GroupWithZero.Nat
import Mathlib.Data.List.Basic
import Mathlib.Data.List.Forall2

/-!
# Three-way comparators, cuts of sorted lists and insertion

Library `Base`. A comparator returns a negative, zero or positive integer, as `memcmp`
does. Its laws are asked only of the keys a caller may pass, and equality under the
comparator may be coarser than equality of keys. A `Cut` is the place a search key
takes in a list; `upsert` inserts there, or revives the entry already equal to it.
-/

namespace ExampleEngine.Base

variable {K E : Type}

/-- A comparator is a total preorder on the keys in `S`. -/
structure Comparison (cmp : K → K → Int) (S : K → Prop) : Prop where
  flip : ∀ {a b : K}, S a → S b → (cmp a b < 0 ↔ 0 < cmp b a)
  trans : ∀ {a b c : K}, S a → S b → S c → cmp a b ≤ 0 → cmp b c ≤ 0 → cmp a c ≤ 0

namespace Comparison

variable {cmp : K → K → Int} {S : K → Prop} {a b c : K}

/-- A key is equal to itself. -/
theorem self (h : Comparison cmp S) (ha : S a) : cmp a a = 0 := by
  have := h.flip ha ha
  omega

/-- Equality under the comparator is symmetric. -/
theorem symm (h : Comparison cmp S) (ha : S a) (hb : S b) (hab : cmp a b = 0) :
    cmp b a = 0 := by
  have h1 := h.flip ha hb
  have h2 := h.flip hb ha
  omega

/-- Below followed by at most is below. -/
theorem lt_of_lt_of_le (h : Comparison cmp S) (ha : S a) (hb : S b) (hc : S c)
    (hab : cmp a b < 0) (hbc : cmp b c ≤ 0) : cmp a c < 0 := by
  by_contra hn
  have hca : cmp c a ≤ 0 := by
    have h1 := h.flip ha hc
    have h2 := h.flip hc ha
    omega
  have hba := h.trans hb hc ha hbc hca
  have := h.flip ha hb
  omega

/-- At most followed by below is below. -/
theorem lt_of_le_of_lt (h : Comparison cmp S) (ha : S a) (hb : S b) (hc : S c)
    (hab : cmp a b ≤ 0) (hbc : cmp b c < 0) : cmp a c < 0 := by
  by_contra hn
  have hca : cmp c a ≤ 0 := by
    have h1 := h.flip ha hc
    have h2 := h.flip hc ha
    omega
  have hcb := h.trans hc ha hb hca hab
  have := h.flip hb hc
  omega

/-- Below is transitive. -/
theorem lt_trans (h : Comparison cmp S) (ha : S a) (hb : S b) (hc : S c)
    (hab : cmp a b < 0) (hbc : cmp b c < 0) : cmp a c < 0 :=
  h.lt_of_lt_of_le ha hb hc hab (by omega)

/-- A key above another is not below anything the other is not below. -/
theorem pos_of_le_of_pos (h : Comparison cmp S) (ha : S a) (hb : S b) (hc : S c)
    (hab : cmp a b < 0) (hac : 0 ≤ cmp a c) : 0 < cmp b c := by
  have hca : cmp c a ≤ 0 := by
    have h1 := h.flip ha hc
    have h2 := h.flip hc ha
    omega
  have hcb := h.lt_of_le_of_lt hc ha hb hca hab
  exact (h.flip hc hb).mp hcb

end Comparison

section Lists

variable (cmp : K → K → Int) (key : E → K)

/-- Strictly increasing keys. -/
def Sorted (es : List E) : Prop := es.Pairwise fun a b ↦ cmp (key a) (key b) < 0

/-- The entries below `k` form a prefix. -/
def Downward (k : K) (es : List E) : Prop :=
  es.Pairwise fun a b ↦ cmp (key b) k < 0 → cmp (key a) k < 0

/-- After an entry that is not below `k`, all entries are above it. -/
def Probe (k : K) (es : List E) : Prop :=
  es.Pairwise fun a b ↦ 0 ≤ cmp (key a) k → 0 < cmp (key b) k

/-- A search key `k` cuts a list into the entries below it and the others. -/
structure Cut (k : K) (es pre post : List E) : Prop where
  eq : es = pre ++ post
  below : ∀ e ∈ pre, cmp (key e) k < 0
  above : ∀ e ∈ post, 0 ≤ cmp (key e) k

/-- Insert `fresh` at the cut of `k`, or revive the entry equal to `k`. -/
def upsert (k : K) (fresh : E) (revive : E → E) : List E → List E
  | [] => [fresh]
  | e :: es =>
    if cmp (key e) k < 0 then e :: upsert k fresh revive es
    else if cmp (key e) k = 0 then revive e :: es
    else fresh :: e :: es

end Lists

section Cuts

variable {cmp : K → K → Int} {key : E → K} {S : K → Prop} {k : K} {es pre post : List E}

/-- A cut exists as soon as the entries below `k` form a prefix. -/
theorem Downward.exists_cut (h : Downward cmp key k es) :
    ∃ pre post, Cut cmp key k es pre post := by
  induction es with
  | nil => exact ⟨[], [], rfl, by simp, by simp⟩
  | cons e es ih =>
    obtain ⟨hhead, htail⟩ := List.pairwise_cons.mp h
    by_cases he : cmp (key e) k < 0
    · obtain ⟨pre, post, hc⟩ := ih htail
      refine ⟨e :: pre, post, by rw [hc.eq]; rfl, ?_, hc.above⟩
      intro x hx
      rcases List.mem_cons.mp hx with rfl | hx
      · exact he
      · exact hc.below x hx
    · refine ⟨[], e :: es, rfl, by simp, ?_⟩
      intro x hx
      rcases List.mem_cons.mp hx with rfl | hx
      · omega
      · have := mt (hhead x hx) he
        omega

/-- In a sorted list the entries below a key the comparator is lawful on form a prefix. -/
theorem Sorted.downward (hs : Sorted cmp key es) (hcmp : Comparison cmp S)
    (hes : ∀ e ∈ es, S (key e)) (hk : S k) : Downward cmp key k es := by
  apply hs.imp_of_mem
  intro a b ha hb hab hbk
  exact hcmp.lt_trans (hes a ha) (hes b hb) hk hab hbk

/-- A probe finds the entries below it in a prefix. -/
theorem Probe.downward (h : Probe cmp key k es) : Downward cmp key k es := by
  refine List.Pairwise.imp ?_ h
  intro a b hab hbk
  by_contra hak
  have := hab (by omega)
  omega

/-- A key the comparator is lawful on is a probe of every sorted list. -/
theorem Sorted.probe (hs : Sorted cmp key es) (hcmp : Comparison cmp S)
    (hes : ∀ e ∈ es, S (key e)) (hk : S k) : Probe cmp key k es := by
  apply hs.imp_of_mem
  intro a b ha hb hab hak
  exact hcmp.pos_of_le_of_pos (hes a ha) (hes b hb) hk hab hak

/-- Entries of a sorted list that the comparator finds equal are the same. -/
theorem Sorted.eq_of_equal (hs : Sorted cmp key es) (hcmp : Comparison cmp S)
    (hes : ∀ e ∈ es, S (key e)) {a b : E} (ha : a ∈ es) (hb : b ∈ es)
    (hab : cmp (key a) (key b) = 0) : a = b := by
  obtain ⟨A, B, rfl⟩ := List.append_of_mem ha
  obtain ⟨_, haB, hA⟩ := List.pairwise_append.mp hs
  rcases List.mem_append.mp hb with hb' | hb'
  · have := hcmp.symm (hes a ha) (hes b hb) hab
    have := hA b hb' a (by simp)
    omega
  · rcases List.mem_cons.mp hb' with rfl | hb'
    · rfl
    · have := (List.pairwise_cons.mp haB).1 b hb'
      omega

/-- Around an entry of a sorted list the smaller ones come before it and the greater ones after. -/
theorem Sorted.around {pre post : List E} {e : E} (hs : Sorted cmp key (pre ++ e :: post))
    (hcmp : Comparison cmp S) (hes : ∀ a ∈ pre ++ e :: post, S (key a)) :
    (∀ a ∈ pre, cmp (key a) (key e) < 0) ∧ ∀ a ∈ post, 0 < cmp (key a) (key e) := by
  obtain ⟨_, hsp, hps⟩ := List.pairwise_append.mp hs
  refine ⟨fun a ha ↦ hps a ha e List.mem_cons_self, fun a ha ↦ ?_⟩
  exact (hcmp.flip (hes e (by simp)) (hes a (by simp [ha]))).mp
    ((List.pairwise_cons.mp hsp).1 a ha)

/-- The entries above one of them are those after it. -/
theorem Sorted.above_append {pre post : List E} {e : E}
    (hs : Sorted cmp key (pre ++ e :: post)) (hcmp : Comparison cmp S)
    (hes : ∀ a ∈ pre ++ e :: post, S (key a)) :
    ((pre ++ e :: post).filter fun x ↦ 0 < cmp (key x) (key e)) = post := by
  obtain ⟨hpre, hpost⟩ := hs.around hcmp hes
  have hbelow : ∀ x ∈ pre ++ [e], ¬ 0 < cmp (key x) (key e) := by
    intro x hx
    rcases List.mem_append.mp hx with hx | hx
    · have := hpre x hx
      omega
    · rw [List.mem_singleton.mp hx, hcmp.self (hes e (by simp))]
      decide
  rw [List.append_cons, List.filter_append,
    List.filter_eq_nil_iff.mpr fun x hx ↦ by simpa using hbelow x hx, List.nil_append]
  exact List.filter_eq_self.mpr fun x hx ↦ by simpa using hpost x hx

/-- The entries above the first of those above a key are the others. -/
theorem Sorted.above_cons (hs : Sorted cmp key es) (hcmp : Comparison cmp S)
    (hes : ∀ e ∈ es, S (key e)) (hk : S k) {e : E} {rest : List E}
    (h : (es.filter fun x ↦ 0 < cmp (key x) k) = e :: rest) :
    (es.filter fun x ↦ 0 < cmp (key x) (key e)) = rest := by
  obtain ⟨A, B, rfl, _, he, hrest⟩ := List.filter_eq_cons_iff.mp h
  have hek : 0 < cmp (key e) k := by simpa using he
  have hB := (hs.around hcmp hes).2
  have hSe := hes e (by simp)
  have hall : (B.filter fun x ↦ 0 < cmp (key x) k) = B := by
    refine List.filter_eq_self.mpr fun x hx ↦ ?_
    have hx' := hes x (by simp [hx])
    have hlt := (hcmp.flip hSe hx').mpr (hB x hx)
    simpa using hcmp.pos_of_le_of_pos hSe hx' hk hlt (by omega)
  rw [← hrest, hall]
  exact hs.above_append hcmp hes

/-- The entries above the first one are the others. -/
theorem Sorted.above_head {e : E} {rest : List E} (hs : Sorted cmp key (e :: rest))
    (hcmp : Comparison cmp S) (hes : ∀ x ∈ e :: rest, S (key x)) :
    ((e :: rest).filter fun x ↦ 0 < cmp (key x) (key e)) = rest :=
  Sorted.above_append (show Sorted cmp key ([] ++ e :: rest) from hs) hcmp hes

/-- Every entry after one that is not below the key is above it. -/
theorem Cut.pos_of_cons (hc : Cut cmp key k es pre post) {e : E} {rest : List E}
    (hpost : post = e :: rest) (hs : Sorted cmp key es) (hcmp : Comparison cmp S)
    (hes : ∀ e ∈ es, S (key e)) (hk : S k) : ∀ x ∈ rest, 0 < cmp (key x) k := by
  intro x hx
  subst hpost
  have hlt : cmp (key e) (key x) < 0 := by
    have h2 := (List.pairwise_append.mp (hc.eq ▸ hs)).2.1
    exact (List.pairwise_cons.mp h2).1 x hx
  have he : e ∈ es := by rw [hc.eq]; simp
  have hxe : x ∈ es := by rw [hc.eq]; simp [hx]
  exact hcmp.pos_of_le_of_pos (hes e he) (hes x hxe) hk hlt (hc.above e (by simp))

end Cuts

section Upsert

variable {cmp : K → K → Int} {key : E → K} {S : K → Prop} {k : K} {fresh : E} {revive : E → E}

/-- Entries below the key stay in front. -/
theorem upsert_append_left {pre : List E} (es : List E) (h : ∀ e ∈ pre, cmp (key e) k < 0) :
    upsert cmp key k fresh revive (pre ++ es) = pre ++ upsert cmp key k fresh revive es := by
  induction pre with
  | nil => rfl
  | cons e pre ih =>
    have he : cmp (key e) k < 0 := h e (by simp)
    simp only [List.cons_append, upsert, he, if_true]
    rw [ih fun x hx ↦ h x (by simp [hx])]

/-- Entries after one that is not below the key are untouched. -/
theorem upsert_append_right {es : List E} (post : List E)
    (h : ∃ e ∈ es, 0 ≤ cmp (key e) k) :
    upsert cmp key k fresh revive (es ++ post) = upsert cmp key k fresh revive es ++ post := by
  induction es with
  | nil => simp at h
  | cons e es ih =>
    simp only [List.cons_append, upsert]
    split
    · next he =>
      have ht : ∃ e ∈ es, 0 ≤ cmp (key e) k := by
        obtain ⟨x, hx, hxk⟩ := h
        rcases List.mem_cons.mp hx with rfl | hx
        · omega
        · exact ⟨x, hx, hxk⟩
      rw [ih ht, List.cons_append]
    · split <;> rfl

/-- At a cut with an equal entry, that entry is revived in place. -/
theorem Cut.upsert_eq {es pre post : List E} {e : E} (hc : Cut cmp key k es pre (e :: post))
    (he : cmp (key e) k = 0) :
    upsert cmp key k fresh revive es = pre ++ revive e :: post := by
  rw [hc.eq, upsert_append_left _ hc.below]
  simp [upsert, he]

/-- At a cut with no equal entry, the fresh entry is inserted. -/
theorem Cut.upsert_ne {es pre post : List E} (hc : Cut cmp key k es pre post)
    (he : ∀ e ∈ post.head?, cmp (key e) k ≠ 0) :
    upsert cmp key k fresh revive es = pre ++ fresh :: post := by
  rw [hc.eq, upsert_append_left _ hc.below]
  cases post with
  | nil => rfl
  | cons e post =>
    have h0 : 0 ≤ cmp (key e) k := hc.above e (by simp)
    have h1 : cmp (key e) k ≠ 0 := he e (by simp)
    have h2 : ¬ cmp (key e) k < 0 := by omega
    simp only [upsert, h2, h1, if_false]

variable (fresh revive) in
/-- Where an equal entry is present, it is revived in place. -/
theorem Sorted.upsert_present {es : List E} (hs : Sorted cmp key es) (hcmp : Comparison cmp S)
    (hes : ∀ e ∈ es, S (key e)) (hk : S k) {e : E} (he : e ∈ es) (hek : cmp (key e) k = 0) :
    ∃ A B, es = A ++ e :: B ∧ upsert cmp key k fresh revive es = A ++ revive e :: B := by
  obtain ⟨pre, post, hcut⟩ := (hs.downward hcmp hes hk).exists_cut
  have hmem := hcut.eq ▸ he
  rcases List.mem_append.mp hmem with hpre | hpost
  · have := hcut.below e hpre
    omega
  · cases post with
    | nil => cases hpost
    | cons x rest =>
      rcases List.mem_cons.mp hpost with rfl | hrest
      · exact ⟨pre, rest, hcut.eq, hcut.upsert_eq hek⟩
      · have := hcut.pos_of_cons rfl hs hcmp hes hk e hrest
        omega

/-- Every entry after an upsert is fresh, revived, or an old one. -/
theorem mem_upsert {es : List E} {x : E} (h : x ∈ upsert cmp key k fresh revive es) :
    x = fresh ∨ (∃ e ∈ es, cmp (key e) k = 0 ∧ x = revive e) ∨ x ∈ es := by
  induction es with
  | nil => simpa [upsert] using h
  | cons e es ih =>
    simp only [upsert] at h
    split at h
    · rcases List.mem_cons.mp h with rfl | h
      · simp
      · rcases ih h with h | ⟨y, hy, hyk, h⟩ | h
        · exact .inl h
        · exact .inr (.inl ⟨y, by simp [hy], hyk, h⟩)
        · exact .inr (.inr (by simp [h]))
    · split at h
      · next hk =>
        rcases List.mem_cons.mp h with rfl | h
        · exact .inr (.inl ⟨e, by simp, hk, rfl⟩)
        · exact .inr (.inr (by simp [h]))
      · rcases List.mem_cons.mp h with rfl | h
        · exact .inl rfl
        · exact .inr (.inr h)

/-- An upsert keeps the keys that are there. -/
theorem exists_mem_upsert {es : List E} (hr : ∀ e, key (revive e) = key e) {e : E} (he : e ∈ es) :
    ∃ e' ∈ upsert cmp key k fresh revive es, key e' = key e := by
  induction es with
  | nil => cases he
  | cons x es ih =>
    simp only [upsert]
    split
    · rcases List.mem_cons.mp he with rfl | he
      · exact ⟨e, by simp, rfl⟩
      · obtain ⟨e', he', hk⟩ := ih he
        exact ⟨e', by simp [he'], hk⟩
    · split
      · rcases List.mem_cons.mp he with rfl | he
        · exact ⟨_, List.mem_cons_self, hr e⟩
        · exact ⟨e, by simp [he], rfl⟩
      · exact ⟨e, List.mem_cons_of_mem _ he, rfl⟩

/-- An upsert adds at most one entry. -/
theorem length_upsert_le (es : List E) :
    (upsert cmp key k fresh revive es).length ≤ es.length + 1 := by
  induction es with
  | nil => simp [upsert]
  | cons e es ih =>
    simp only [upsert]
    split
    · simpa using ih
    · split <;> simp

/-- An upsert removes no entry. -/
theorem le_length_upsert (es : List E) :
    es.length ≤ (upsert cmp key k fresh revive es).length := by
  induction es with
  | nil => simp
  | cons e es ih =>
    simp only [upsert]
    split
    · simpa using ih
    · split <;> simp

/-- An upsert never leaves the list empty. -/
theorem upsert_ne_nil (es : List E) : upsert cmp key k fresh revive es ≠ [] := by
  cases es with
  | nil => simp [upsert]
  | cons e es =>
    simp only [upsert]
    split
    · simp
    · split <;> simp

/-- Reviving keeps the greatest key when the search key is not above it. -/
theorem getLast?_upsert {es : List E} (hr : ∀ e, key (revive e) = key e)
    (h : ∃ e ∈ es, 0 ≤ cmp (key e) k) :
    (upsert cmp key k fresh revive es).getLast?.map key = es.getLast?.map key := by
  induction es with
  | nil => simp at h
  | cons e es ih =>
    simp only [upsert]
    split
    · next he =>
      have ht : ∃ e ∈ es, 0 ≤ cmp (key e) k := by
        obtain ⟨x, hx, hxk⟩ := h
        rcases List.mem_cons.mp hx with rfl | hx
        · omega
        · exact ⟨x, hx, hxk⟩
      have hne : es ≠ [] := by rintro rfl; simp at ht
      rw [List.getLast?_cons_of_ne_nil (upsert_ne_nil es), List.getLast?_cons_of_ne_nil hne, ih ht]
    · split
      · cases es with
        | nil => simp [hr]
        | cons x es => simp [List.getLast?_cons_cons]
      · simp [List.getLast?_cons_cons]

/-- An upsert keeps keys strictly increasing. -/
theorem sorted_upsert {es : List E} (hcmp : Comparison cmp S) (hes : ∀ e ∈ es, S (key e))
    (hk : S k) (hf : key fresh = k) (hr : ∀ e, key (revive e) = key e)
    (hs : Sorted cmp key es) : Sorted cmp key (upsert cmp key k fresh revive es) := by
  induction es with
  | nil => simp [upsert, Sorted]
  | cons e es ih =>
    obtain ⟨hhead, htail⟩ := List.pairwise_cons.mp hs
    have hSe : S (key e) := hes e (by simp)
    have hSes : ∀ x ∈ es, S (key x) := fun x hx ↦ hes x (by simp [hx])
    simp only [upsert]
    split
    · next he =>
      refine List.pairwise_cons.mpr ⟨?_, ih hSes htail⟩
      intro x hx
      rcases mem_upsert hx with rfl | ⟨y, hy, _, rfl⟩ | hx
      · rw [hf]; exact he
      · rw [hr]; exact hhead y hy
      · exact hhead x hx
    · next he =>
      split
      · refine List.pairwise_cons.mpr ⟨?_, htail⟩
        intro x hx
        rw [hr]
        exact hhead x hx
      · next hne =>
        have hke : cmp k (key e) < 0 := (hcmp.flip hk hSe).mpr (by omega)
        refine List.pairwise_cons.mpr ⟨?_, hs⟩
        intro x hx
        rw [hf]
        rcases List.mem_cons.mp hx with rfl | hx
        · exact hke
        · exact hcmp.lt_trans hk hSe (hSes x hx) hke (hhead x hx)

end Upsert

section Related

variable {α β : Type} {R : α → β → Prop}

/-- Related lists split together at an element of the left one. -/
theorem forall₂_split_left {A B : List α} {a : α} {l : List β}
    (h : List.Forall₂ R (A ++ a :: B) l) :
    ∃ C b D, l = C ++ b :: D ∧ List.Forall₂ R A C ∧ R a b ∧ List.Forall₂ R B D := by
  induction A generalizing l with
  | nil =>
    cases h with
    | cons hab hB => exact ⟨[], _, _, rfl, .nil, hab, hB⟩
  | cons x A ih =>
    cases h with
    | cons hx hrest =>
      obtain ⟨C, b, D, rfl, hA, hab, hB⟩ := ih hrest
      exact ⟨_ :: C, b, D, rfl, .cons hx hA, hab, hB⟩

/-- Every element of the left list is related to one of the right list. -/
theorem forall₂_left_mem {l : List α} {l' : List β} (h : List.Forall₂ R l l') {a : α}
    (ha : a ∈ l) : ∃ b ∈ l', R a b := by
  obtain ⟨A, B, rfl⟩ := List.append_of_mem ha
  obtain ⟨C, b, D, rfl, _, hab, _⟩ := forall₂_split_left h
  exact ⟨b, by simp, hab⟩

/-- Related lists split together at an element of the right one. -/
theorem forall₂_split_right {C D : List β} {b : β} {l : List α}
    (h : List.Forall₂ R l (C ++ b :: D)) :
    ∃ A a B, l = A ++ a :: B ∧ List.Forall₂ R A C ∧ R a b ∧ List.Forall₂ R B D := by
  obtain ⟨A, a, B, hl, hA, hab, hB⟩ := forall₂_split_left h.flip
  exact ⟨A, a, B, hl, hA.flip, hab, hB.flip⟩

end Related

end ExampleEngine.Base
