import ExampleEngine.Index.Traversal

/-!
# The tree as a finite map

Library `Index`. A run of `put` and `Iterator::remove` realises the finite map from live
keys to byte strings that the calls describe. Covers `src/lib/btree.cpp:156–312,447–619`.
-/

namespace ExampleEngine.Index

open ExampleEngine.Base ExampleEngine.Storage BTree

variable {K : Type} {c : Config K}

/-- A finite map from keys to byte strings: what a tree is for. -/
abbrev Bindings (K : Type) := K → Option (List UInt8)

namespace Bindings

/-- Bind a key that is not bound, under a comparator that tells keys apart. -/
def put (cmp : K → K → Int) (M : Bindings K) (key : K) (value : List UInt8) : Bindings K :=
  match M key with
  | some _ => M
  | none => fun k ↦ if cmp k key = 0 then some value else M k

/-- Unbind a key. -/
def erase (cmp : K → K → Int) (M : Bindings K) (key : K) : Bindings K := fun k ↦
  if cmp k key = 0 then none else M k

end Bindings

/-- The values a caller may pass: of the constant size, or short enough for a data block. -/
def Config.Takes (c : Config K) (value : List UInt8) : Prop :=
  if c.isConstValueSize then value.length = c.valueSize else value.length ≤ maxValueSize

/-- `locate` with `EXACT_KEY`, then `getValue` when it succeeds. -/
def lookup (c : Config K) (key : K) : TreeM K (Int × Option (Nat → UInt8)) := do
  let r ← Iterator.locate c key .EXACT_KEY
  if r.1 = 1 then do
    let p ← r.2.getValue c
    return (r.1, p)
  else return (r.1, none)

/-- A lookup has the outcome that a binding asks for. -/
def Finds : Option (List UInt8) → Int × Option (Nat → UInt8) → Prop
  | none, r => r.1 = 0
  | some value, r => r.1 = 1 ∧ ∃ p, r.2 = some p ∧ ∀ i (hi : i < value.length), p i = value[i]

/-- A tree realises a map: every lookup finds what the map holds. -/
def Realises (c : Config K) (M : Bindings K) (t : BTree K) : Prop :=
  ∀ key, wp (fun _ ↦ False) (lookup c key) (fun r _ ↦ Finds (M key) r) t

/-- Runs of `put` and `remove` from a created tree, with other calls in between, and the map
they describe. -/
inductive Run (c : Config K) : Bindings K → BTree K → Prop
  | created (platform : Platform) (file : Nat → Page K) (t : BTree K)
      (hp : platform.Reliable)
      (h : openTree.run (unopened platform (create c file)) = .ok (1, t)) :
      Run c (fun _ ↦ none) t
  | put (M : Bindings K) (t t' : BTree K) (key : K) (value : List UInt8) (r : Int)
      (hr : Run c M t) (hv : c.Takes value)
      (h : (BTree.put c key value).run t = .ok (r, t')) : Run c (M.put c.cmp key value) t'
  | remove (M : Bindings K) (t t' : BTree K) (it : Iterator) (s : Slot K) (hr : Run c M t)
      (hs : Stands t it s) (h : it.remove.run t = .ok ((), t')) :
      Run c (M.erase c.cmp s.key) t'
  | other (M : Bindings K) (t t' : BTree K) (call : Call K) (hr : Run c M t)
      (ha : call.Admissible t) (hro : call.ReadOnly)
      (h : (call.perform c).run t = .ok ((), t')) : Run c M t'

/-- Written values are read back. -/
theorem valueOf_written {v : Nat → Page K} {n : Nat} {value w : List UInt8}
    (hv : c.Takes value) (hw : Written c v n value w) :
    ∃ p, valueOf c v w = some p ∧ ∀ i (hi : i < value.length), p i = value[i] := by
  unfold Written at hw
  unfold Config.Takes at hv
  unfold valueOf
  cases hc : c.isConstValueSize with
  | true =>
    rw [hc] at hw hv
    simp only [if_true] at hw hv ⊢
    have hsize : c.leafValueSize = c.valueSize := by
      unfold Config.isConstValueSize at hc
      unfold Config.leafValueSize
      rw [if_neg (by simpa using hc)]
    rw [hsize, ← hv, List.take_length] at hw
    refine ⟨_, rfl, fun i hi ↦ ?_⟩
    rw [hw, List.getElem?_eq_getElem hi, Option.getD_some]
  | false =>
    rw [hc] at hw hv
    simp only [Bool.false_eq_true, if_false] at hw hv ⊢
    obtain ⟨loc, rfl, hfit, _, _, hst⟩ := hw
    obtain ⟨d, o, hd, _, hget, hbytes⟩ := hst hv
    rw [Location.ofBytes_toBytes hfit, hd]
    exact ⟨_, by simp only [hget, Option.map_some], hbytes⟩

/-- The live entries hold the bindings. -/
structure Bound (c : Config K) (M : Bindings K) (t : BTree K) (m : BTreeMetadata)
    (h : Nat) (x : LTree (Slot K) h) : Prop where
  holds : Holds c (fun _ ↦ True) t m h x
  unbound : ∀ s ∈ t.live, M s.key ≠ none
  bound : ∀ key value, M key = some value → c.Takes value ∧
    ∃ s ∈ t.live, s.key = key ∧ Written c t.page m.countOfBlock value s.value

section Bound

variable {M : Bindings K} {t t' : BTree K} {m m' : BTreeMetadata} {h h' : Nat}
  {x : LTree (Slot K) h} {x' : LTree (Slot K) h'} {key : K} {value : List UInt8}

/-- Lookups in a tree whose live entries hold the bindings. -/
theorem Bound.realises (hb : Bound c M t m h x)
    (hcmp : Comparison c.cmp fun _ ↦ True) (heq : ∀ a b, c.cmp a b = 0 ↔ a = b) :
    Realises c M t := by
  intro key
  have ht := hb.holds
  have hprobe : Probe c.cmp Slot.key key t.slots := by
    rw [ht.slots_eq]
    exact ht.tree.sorted.probe hcmp ht.tree.keys trivial
  unfold lookup
  rw [wp_bind]
  refine wp_mono (ht.wp_locate hprobe) fun r t₁ hr ↦ ?_
  obtain ⟨hread, hfound⟩ := hr
  cases hs : IterFlag.EXACT_KEY.search c.cmp key t.live with
  | none =>
    rw [hs] at hfound
    have hr0 : r.1 = 0 := hfound
    have hnone : M key = none := by
      cases hM : M key with
      | none => rfl
      | some value =>
        obtain ⟨_, s, hmem, hkey, _⟩ := hb.bound key value hM
        have := List.find?_eq_none.mp hs s hmem
        simp [IterFlag.Qualifies, heq, hkey] at this
    rw [if_neg (by omega), wp_pure, hnone]
    exact hr0
  | some s =>
    rw [hs] at hfound
    obtain ⟨hr1, hst⟩ := hfound
    obtain ⟨hmem, hq⟩ := IterFlag.of_search hs
    have hkey : s.key = key := (heq _ _).mp hq
    rw [if_pos hr1, wp_bind]
    refine wp_mono (hst.wp_getValue (ht.reads hread)) fun p t₂ hp ↦ ?_
    rw [wp_pure]
    cases hM : M key with
    | none => exact absurd hM (hkey ▸ hb.unbound s hmem)
    | some value =>
      obtain ⟨htake, s', hmem', hkey', hw⟩ := hb.bound key value hM
      -- live keys are distinct, so this is the entry that was found
      have hss : s' = s :=
        ht.live_sorted.eq_of_equal hcmp (fun _ _ ↦ trivial) hmem' hmem
          ((heq _ _).mpr (hkey'.trans hkey.symm))
      subst hss
      obtain ⟨p', hp', hbytes⟩ := valueOf_written htake hw
      refine ⟨hr1, p', ?_, hbytes⟩
      rw [hp.2, hread.page, hp']

/-- Without live entries nothing is bound. -/
theorem bound_created (ht : Holds c (fun _ ↦ True) t m h x) (hs : t.slots = []) :
    Bound c (fun _ ↦ none) t m h x := by
  refine ⟨ht, fun s hmem ↦ ?_, fun key value hM ↦ by cases hM⟩
  unfold BTree.live at hmem
  rw [hs] at hmem
  cases hmem

/-- Calls that leave blocks and root alone leave the bindings alone. -/
theorem Bound.congr (hb : Bound c M t m h x)
    (ht : Holds c (fun _ ↦ True) t' m' h' x') (hp : t'.page = t.page) (hr : t'.root = t.root) :
    Bound c M t' m' h' x' := by
  have hm : m' = m := by
    have := ht.heap.metadata
    rw [hp, hb.holds.heap.metadata, Page.metadata.injEq] at this
    exact this.symm
  subst hm
  refine ⟨ht, ?_, ?_⟩
  · rw [live_congr hp hr]
    exact hb.unbound
  · rw [live_congr hp hr, hp]
    exact hb.bound

/-- `put` binds a key that is not bound. -/
private theorem Bound.put (hb : Bound c M t m h x)
    (heq : ∀ a b, c.cmp a b = 0 ↔ a = b) (hv : c.Takes value)
    (ht' : Holds c (fun _ ↦ True) t' m' h' x') (hle : m.countOfBlock ≤ m'.countOfBlock)
    (hk : KeepsData t.page t'.page m.countOfBlock) {w : List UInt8}
    (hj : Joins c.cmp key w t.live t'.live) (hw : Written c t'.page m'.countOfBlock value w) :
    M key = none ∧ Bound c (M.put c.cmp key value) t' m' h' x' := by
  obtain ⟨A, s, B, hlive, hlive', hsw, hsk, hA, hB⟩ := hj.split
  have hskey : s.key = key := (heq _ _).mp hsk
  have hne : ∀ a ∈ t.live, a.key ≠ key := by
    intro a ha hak
    have hzero := (heq a.key key).mpr hak
    rw [hlive] at ha
    rcases List.mem_append.mp ha with ha | ha
    · have := hA a ha
      omega
    · have := hB a ha
      omega
  have hnone : M key = none := by
    cases hM : M key with
    | none => rfl
    | some value' =>
      obtain ⟨_, a, ha, hak, _⟩ := hb.bound key value' hM
      exact absurd hak (hne a ha)
  have hput : M.put c.cmp key value = fun k ↦ if c.cmp k key = 0 then some value else M k := by
    unfold Bindings.put
    rw [hnone]
  have hmem : ∀ a, a ∈ t'.live ↔ a = s ∨ a ∈ t.live := by
    intro a
    rw [hlive, hlive', List.mem_append, List.mem_append, List.mem_cons]
    exact or_left_comm
  refine ⟨hnone, ht', ?_, ?_⟩
  · intro a ha
    rw [hput]
    rcases (hmem a).mp ha with rfl | ha
    · simp [hsk]
    · have := hne a ha
      simp only [heq, this, if_false]
      exact hb.unbound a ha
  · intro k value' hM
    rw [hput] at hM
    simp only at hM
    split at hM
    · next hkk =>
      cases hM
      have hkey : k = key := (heq _ _).mp hkk
      exact ⟨hv, s, (hmem s).mpr (.inl rfl), hskey.trans hkey.symm, hsw ▸ hw⟩
    · obtain ⟨htake, a, ha, hak, hwa⟩ := hb.bound k value' hM
      exact ⟨htake, a, (hmem a).mpr (.inr ha), hak, hk.written hle hwa⟩

/-- A duplicate leaves the bindings alone. -/
private theorem Bound.duplicate (hb : Bound c M t m h x)
    (heq : ∀ a b, c.cmp a b = 0 ↔ a = b) (value : List UInt8) {e : Slot K} (he : e ∈ t.live)
    (hek : c.cmp e.key key = 0) : M key ≠ none ∧ M.put c.cmp key value = M := by
  have hkey : e.key = key := (heq _ _).mp hek
  have hM := hkey ▸ hb.unbound e he
  refine ⟨hM, ?_⟩
  unfold Bindings.put
  cases hMk : M key with
  | none => exact absurd hMk hM
  | some _ => rfl

/-- `put` realises the binding of a key. -/
theorem Bound.wp_put (hb : Bound c M t m h x) (hwide : c.Wide)
    (hcmp : Comparison c.cmp fun _ ↦ True) (heq : ∀ a b, c.cmp a b = 0 ↔ a = b)
    (hv : c.Takes value) :
    wp Beyond (BTree.put c key value) (fun r t' ↦
      (r = 1 ∧ M key = none ∨ r = 0 ∧ M key ≠ none) ∧
      ∃ m' h', ∃ x' : LTree (Slot K) h', Bound c (M.put c.cmp key value) t' m' h' x') t := by
  have ht := hb.holds
  refine BTree.wp_put hwide hcmp trivial ht (covers_beyond _) fun r t' ho ↦ ?_
  cases ho with
  | duplicate e he hek hlive t' ht' hl hp =>
    have hmem : e ∈ t.live := by
      rw [ht.live_eq]
      exact List.mem_filter.mpr ⟨he, by simp [hlive]⟩
    obtain ⟨hM, hput⟩ := hb.duplicate heq value hmem hek
    rw [hput]
    exact ⟨.inr ⟨rfl, hM⟩, m, h, x, hb.congr ht' hp (ht'.root.trans ht.root.symm)⟩
  | done hdead t' m' h' x' w ht' hl hle hk hitems hent hleaves hw hst hdata =>
    have hj := joins_upsert (w := w) hcmp trivial ht.tree.keys ht.tree.sorted hdead
    rw [← hent, ← ht.live_eq, ← ht'.live_eq] at hj
    obtain ⟨hM, hb'⟩ := hb.put heq hv ht' hle hk hj hw
    exact ⟨.inl ⟨rfl, hM⟩, m', h', x', hb'⟩
  | failed hdead t' m' ht' hl hle hk hitems hnode hc hlen hdata =>
    unfold Config.Takes at hv
    rw [hc] at hv
    simp only [Bool.false_eq_true, if_false, maxValueSize] at hv
    omega

/-- `remove` unbinds the key under the iterator. -/
theorem Bound.wp_remove {E : Fault → Prop} {it : Iterator} {s : Slot K}
    (hb : Bound c M t m h x) (hcmp : Comparison c.cmp fun _ ↦ True) (hs : Stands t it s) :
    wp E it.remove (fun _ t' ↦
      ∃ x' : LTree (Slot K) h, Bound c (M.erase c.cmp s.key) t' m h x') t := by
  have ht := hb.holds
  refine hs.wp_remove ht fun t' x' i pre post _ hf ht' hsl hsl' ↦ ?_
  have hlive := ht.live_removed hcmp hsl hsl'
  have hdata : KeepsData t.page t'.page m.countOfBlock :=
    .of_eq fun i d _ hd ↦ (hd ▸ hf.page i).data
  refine ⟨x', ht', ?_, ?_⟩
  · intro a ha
    rw [hlive] at ha
    obtain ⟨hmem, hne⟩ := List.mem_filter.mp ha
    unfold Bindings.erase
    rw [if_neg (by simpa using hne)]
    exact hb.unbound a hmem
  · intro k value' hM
    unfold Bindings.erase at hM
    split at hM
    · cases hM
    · next hne =>
      obtain ⟨htake, a, ha, hak, hwa⟩ := hb.bound k value' hM
      refine ⟨htake, a, ?_, hak, hdata.written (Nat.le_refl _) hwa⟩
      rw [hlive]
      exact List.mem_filter.mpr ⟨ha, by simpa [hak] using hne⟩

end Bound

section Runs

variable {M : Bindings K} {t : BTree K}

/-- In every run the live entries hold the bindings. -/
private theorem Run.bound (hwide : c.Wide) (hcmp : Comparison c.cmp fun _ ↦ True)
    (heq : ∀ a b, c.cmp a b = 0 ↔ a = b) (hr : Run c M t) :
    ∃ m h, ∃ x : LTree (Slot K) h, Bound c M t m h x := by
  induction hr with
  | created platform file t hp h =>
    obtain ⟨_, hs, hnil⟩ := wp_ok (Sound.wp_created (S := fun _ ↦ True) (R := Eq) file hwide hp
      fun _ ↦ rfl) h
    obtain ⟨m, h, x, ht⟩ := hs.holds
    exact ⟨m, h, x, bound_created ht hnil⟩
  | put M t t' key value r _ hv h ih =>
    obtain ⟨m, h', x, hb⟩ := ih
    exact (wp_ok (hb.wp_put hwide hcmp heq hv) h).2
  | remove M t t' it s _ hs h ih =>
    obtain ⟨m, h', x, hb⟩ := ih
    obtain ⟨x', hb'⟩ := wp_ok (hb.wp_remove (E := Beyond) hcmp hs) h
    exact ⟨m, h', x', hb'⟩
  | other M t t' call _ ha hro h ih =>
    obtain ⟨m, h', x, hb⟩ := ih
    have hs : Sound c (fun _ ↦ True) (fun _ _ ↦ True) t :=
      ⟨⟨m, h', x, hb.holds⟩, fun _ _ _ _ ↦ trivial⟩
    obtain ⟨hs', hp, hroot⟩ := wp_ok (hs.wp_readOnly (E := Beyond) (fun _ ↦ trivial) hcmp
      (fun _ _ _ ↦ trivial) ha hro) h
    obtain ⟨m', h', x', ht'⟩ := hs'.holds
    exact ⟨m', h', x', hb.congr ht' hp hroot⟩

/-- In every run the tree realises the map of its calls: lookups find the bindings, `put`
returns 1 exactly for a key that is not bound and binds it, and `remove` unbinds the key under
the iterator. -/
theorem run_realises (hwide : c.Wide) (hcmp : Comparison c.cmp fun _ ↦ True)
    (heq : ∀ a b, c.cmp a b = 0 ↔ a = b) (hr : Run c M t) :
    Realises c M t ∧
    (∀ key value, c.Takes value → wp Beyond (BTree.put c key value) (fun r t' ↦
      (r = 1 ∧ M key = none ∨ r = 0 ∧ M key ≠ none) ∧
      Realises c (M.put c.cmp key value) t') t) ∧
    ∀ it s, Stands t it s → wp (fun _ ↦ False) it.remove (fun _ t' ↦
      Realises c (M.erase c.cmp s.key) t') t := by
  obtain ⟨m, h, x, hb⟩ := hr.bound hwide hcmp heq
  refine ⟨hb.realises hcmp heq, fun key value hv ↦ ?_, fun it s hs ↦ ?_⟩
  · refine wp_mono (hb.wp_put hwide hcmp heq hv) fun r t' hput ↦ ?_
    obtain ⟨hres, m', h', x', hb'⟩ := hput
    exact ⟨hres, hb'.realises hcmp heq⟩
  · refine wp_mono (hb.wp_remove hcmp hs) fun _ t' hrem ↦ ?_
    obtain ⟨x', hb'⟩ := hrem
    exact hb'.realises hcmp heq

/-- Key 1 is bound after its insertion. -/
theorem narrowTree_put_realises :
    ∃ M t, Run narrow M t ∧ M 1 = some narrowValue ∧ Realises narrow M t := by
  have hv : narrow.Takes narrowValue := by
    unfold Config.Takes
    rw [if_pos (by decide)]
    decide
  have hr : ∃ t, Run narrow (Bindings.put narrow.cmp (fun _ ↦ none) 1 narrowValue) t :=
    ⟨_, .put _ _ _ 1 narrowValue 1
      (.created steady blank narrowTree steady_reliable narrowTree_opened) hv rfl⟩
  obtain ⟨t, hr⟩ := hr
  exact ⟨_, t, hr, rfl, (run_realises narrow_wide narrow_cmp narrow_eq hr).1⟩

end Runs

end ExampleEngine.Index
