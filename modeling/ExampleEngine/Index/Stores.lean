import ExampleEngine.Index.Bindings
import ExampleEngine.Index.Fill
import ExampleEngine.Index.Room
import ExampleEngine.Index.Unsaved

/-!
# Stores

Library `Index`. The life of a tree over many openings of its file, without a call of `save` while
it is open, as long as it stays within 2^18 blocks. The file holds the finite map that the calls
describe whenever it is closed; removed keys keep their slots, so the size of the tree is that of
all keys ever put.
-/

namespace ExampleEngine.Index

open ExampleEngine.Base ExampleEngine.Storage BTree

variable {K : Type} {c : Config K}

namespace Call

/-- A call of `save`. -/
def Saves : Call K → Prop
  | .save _ => True
  | _ => False

end Call

/-- The life of a tree, with the map and the keys that it was closed with last, the map that its
calls describe, and the keys that were put: closing destroys the tree with every write succeeding,
and its file is opened again; after a crash the file is opened as it is. No insertion grows the
file past 2^18 blocks, where it would be cut. -/
inductive Store (c : Config K) : Bindings K × List K → Bindings K → List K → BTree K → Prop
  | created (platform : Platform) (file : Nat → Page K) (t : BTree K)
      (hp : platform.Reliable)
      (h : openTree.run (unopened platform (create c file)) = .ok (1, t)) :
      Store c (fun _ ↦ none, []) (fun _ ↦ none) [] t
  | put (saved : Bindings K × List K) (M : Bindings K) (keys : List K) (t t' : BTree K) (key : K)
      (value : List UInt8) (r : Int) (hs : Store c saved M keys t) (hv : c.Takes value)
      (hw : Within c key value t) (h : (BTree.put c key value).run t = .ok (r, t')) :
      Store c saved (M.put c.cmp key value) (key :: keys) t'
  | remove (saved : Bindings K × List K) (M : Bindings K) (keys : List K) (t t' : BTree K)
      (it : Iterator) (s : Slot K) (hs : Store c saved M keys t) (hst : Stands t it s)
      (h : it.remove.run t = .ok ((), t')) : Store c saved (M.erase c.cmp s.key) keys t'
  | other (saved : Bindings K × List K) (M : Bindings K) (keys : List K) (t t' : BTree K)
      (call : Call K) (hs : Store c saved M keys t) (ha : call.Admissible t) (hro : call.ReadOnly)
      (hsave : ¬ call.Saves) (h : (call.perform c).run t = .ok ((), t')) : Store c saved M keys t'
  | reopened (saved : Bindings K × List K) (M : Bindings K) (keys : List K) (platform : Platform)
      (t t' : BTree K) (hs : Store c saved M keys t) (hp : platform.Reliable)
      (h : openTree.run (unopened platform (t.destroy fun _ ↦ true)) = .ok (1, t')) :
      Store c (M, keys) M keys t'
  | crashed (saved : Bindings K × List K) (M : Bindings K) (keys : List K) (platform : Platform)
      (t t' : BTree K) (hs : Store c saved M keys t) (hp : platform.Reliable)
      (h : openTree.run (unopened platform t.buffer.file) = .ok (1, t')) :
      Store c saved saved.1 saved.2 t'

section Steps

variable {M : Bindings K} {keys : List K} {t t' : BTree K} {m : BTreeMetadata} {h : Nat}
  {x : LTree (Slot K) h} {F : Nat → Page K}

/-- No other call marks blocks as clean, or writes the file. -/
private theorem preserves_call {call : Call K} (hsave : ¬ call.Saves) :
    Preserves (Unsaved F []) (call.perform c) := by
  cases call with
  | put key value => exact .bind preserves_put fun _ ↦ .pure _
  | locate key flag => exact .bind Iterator.preserves_locate fun _ ↦ .pure _
  | first it => exact .bind Iterator.preserves_first fun _ ↦ .pure _
  | last it => exact .bind Iterator.preserves_last fun _ ↦ .pure _
  | next it => exact .bind Iterator.preserves_next fun _ ↦ .pure _
  | prev it => exact .bind Iterator.preserves_prev fun _ ↦ .pure _
  | getValue it => exact .bind Iterator.preserves_getValue fun _ ↦ .pure _
  | remove it => exact Iterator.preserves_remove
  | save writable => exact absurd trivial hsave

/-- The keys of the slots after an upsert are those before and the one put. -/
private theorem mem_keys_upsert {cmp : K → K → Int} (heq : ∀ a b, cmp a b = 0 ↔ a = b)
    {key k : K} (w : List UInt8) (es : List (Slot K)) :
    k ∈ (upsert cmp Slot.key key ⟨key, 1, w⟩ (reviveWith w) es).map Slot.key ↔
      k = key ∨ k ∈ es.map Slot.key := by
  induction es with
  | nil => simp [upsert]
  | cons e es ih =>
    rw [upsert]
    split
    · rw [List.map_cons, List.mem_cons, ih, List.map_cons, List.mem_cons]
      exact or_left_comm
    · split
      · next hek =>
        have hkey : e.key = key := (heq _ _).mp hek
        simp [reviveWith, hkey]
      · simp

/-- `put` adds the key to those that have slots, if it stores the value. -/
private theorem Bound.wp_put_keys {key : K} {value : List UInt8} (hb : Bound c M t m h x)
    (hwide : c.Wide) (hcmp : Comparison c.cmp fun _ ↦ True) (heq : ∀ a b, c.cmp a b = 0 ↔ a = b)
    (hv : c.Takes value) : wp Beyond (BTree.put c key value) (fun _ t' ↦
      ∀ k, k ∈ t'.slots.map Slot.key ↔ k = key ∨ k ∈ t.slots.map Slot.key) t := by
  have hvalid : Valid c (fun _ ↦ True) t := ⟨m, h, x, hb.holds⟩
  refine hvalid.wp_put hwide hcmp trivial fun r t' _ hputs k ↦ ?_
  cases hputs with
  | duplicate e he hek t' hsame =>
    have hkey : key ∈ t.slots.map Slot.key :=
      (heq _ _).mp hek ▸ List.mem_map_of_mem (List.mem_of_mem_filter he)
    rw [hsame.slots]
    exact ⟨.inr, fun hk ↦ hk.elim (fun hk ↦ hk ▸ hkey) id⟩
  | done t' w hj hw hvalues hitems hup =>
    rw [hup.slots]
    exact mem_keys_upsert heq w t.slots
  | failed t' hlive hc hlen hne hvalues hitems hslots hstands =>
    unfold Config.Takes at hv
    rw [hc] at hv
    simp only [Bool.false_eq_true, if_false, maxValueSize] at hv
    omega

end Steps

section Stores

variable {saved : Bindings K × List K} {M : Bindings K} {keys : List K} {t : BTree K}

/-- What holds in the life of a store that was opened on a file. -/
private structure StoreInv (c : Config K) (M : Bindings K) (keys : List K) (F : Nat → Page K)
    (t : BTree K) : Prop where
  bound : ∃ m h, ∃ x : LTree (Slot K) h, Bound c M t m h x
  unsaved : Unsaved F [] t
  keys : ∀ k, k ∈ t.slots.map Slot.key ↔ k ∈ keys
  session : Session c (fun t call ↦ t.Spared c call) t

/-- Opening a file gives a store with this map and these keys. -/
private def Opens (c : Config K) (saved : Bindings K × List K) (F : Nat → Page K) : Prop :=
  ∀ platform : Platform, platform.Reliable → wp (fun _ ↦ False) openTree
    (fun r t ↦ r = 1 ∧ StoreInv c saved.1 saved.2 F t) (unopened platform F)

/-- The file of a tree that was created has no keys. -/
private theorem opens_created (hwide : c.Wide) (file : Nat → Page K) :
    Opens c (fun _ ↦ none, []) (create c file) := by
  intro platform hp
  have hopen : wp (fun _ ↦ False) openTree (fun r t ↦ r = 1 ∧ t.slots = [] ∧
      ∃ m h, ∃ x : LTree (Slot K) h, Bound c (fun _ ↦ none) t m h x)
      (unopened platform (create c file)) := by
    refine wp_openTree hp (image_create (S := fun _ ↦ True) hwide file) fun t ht _ _ _ _ ↦ ?_
    have hnil : t.slots = [] := ht.slots_eq
    exact ⟨rfl, hnil, _, _, _, bound_created ht hnil⟩
  refine wp_mono (wp_run (preserves_openTree.wp hopen (.unopened platform _))) fun r t h ↦ ?_
  obtain ⟨hrun, ⟨rfl, hnil, hbound⟩, hu⟩ := h
  exact ⟨rfl, hbound, hu, fun k ↦ by simp [hnil], .created platform file t hp hrun⟩

/-- The file that a store is closed to has all of it. -/
private theorem StoreInv.opens {F : Nat → Page K} (hs : StoreInv c M keys F t) :
    Opens c (M, keys) (t.destroy fun _ ↦ true) := by
  intro platform hp
  obtain ⟨m, h, x, hb⟩ := hs.bound
  have hv : Valid c (fun _ ↦ True) t := ⟨m, h, x, hb.holds⟩
  refine wp_mono (wp_run (hv.wp_reopen hs.unsaved hp)) fun r t' hopen ↦ ?_
  obtain ⟨hrun, rfl, ⟨m', h', x', ht'⟩, hpage, hroot, hu⟩ := hopen
  exact ⟨rfl, ⟨m', h', x', hb.congr ht' hpage hroot⟩, hu,
    fun k ↦ by rw [slots_congr hpage hroot, hs.keys], .reopened t t' platform hs.session hp hrun⟩

/-- The live entries hold the bindings, all keys ever put have slots, and the file has what the
store was closed with last. -/
private theorem Store.inv (hwide : c.Wide) (hcmp : Comparison c.cmp fun _ ↦ True)
    (heq : ∀ a b, c.cmp a b = 0 ↔ a = b) (hs : Store c saved M keys t) :
    StoreInv c M keys t.buffer.file t ∧ Opens c saved t.buffer.file := by
  suffices h : ∃ F, StoreInv c M keys F t ∧ Opens c saved F by
    obtain ⟨F, hinv, hopens⟩ := h
    rw [hinv.unsaved.file]
    exact ⟨hinv, hopens⟩
  induction hs with
  | created platform file t hp h =>
    have hopens := opens_created hwide file
    exact ⟨_, (wp_ok (hopens platform hp) h).2, hopens⟩
  | put saved M keys t t' key value r _ hv hw h ih =>
    obtain ⟨F, hinv, hopens⟩ := ih
    obtain ⟨m, h', x, hb⟩ := hinv.bound
    refine ⟨F, ⟨(wp_ok (hb.wp_put hwide hcmp heq hv) h).2, preserves_put.run hinv.unsaved h,
      fun k ↦ ?_, .step t t' (.put key value) hinv.session trivial
        (fun hcuts ↦ absurd hcuts hw.not_cuts) ?_⟩, hopens⟩
    · rw [wp_ok (hb.wp_put_keys hwide hcmp heq hv) h k, hinv.keys, List.mem_cons]
    · change (BTree.put c key value >>= fun _ ↦ pure ()).run t = _
      rw [StateT.run_bind, h]
      rfl
  | remove saved M keys t t' it s _ hst h ih =>
    obtain ⟨F, hinv, hopens⟩ := ih
    obtain ⟨m, h', x, hb⟩ := hinv.bound
    obtain ⟨x', hb'⟩ := wp_ok (hb.wp_remove (E := Beyond) hcmp hst) h
    refine ⟨F, ⟨⟨m, h', x', hb'⟩, Iterator.preserves_remove.run hinv.unsaved h, fun k ↦ ?_,
      .step t t' (.remove it) hinv.session ⟨s, hst⟩ trivial h⟩, hopens⟩
    have hkeys : wp Beyond it.remove (fun _ t' ↦
        t'.slots.map Slot.key = t.slots.map Slot.key) t := by
      refine hst.wp_remove hb.holds fun t' x' i pre post _ _ _ hsl hsl' ↦ ?_
      rw [hsl, hsl']
      simp
    rw [wp_ok hkeys h, hinv.keys]
  | other saved M keys t t' call _ ha hro hsave h ih =>
    obtain ⟨F, hinv, hopens⟩ := ih
    obtain ⟨m, h', x, hb⟩ := hinv.bound
    have hsound : Sound c (fun _ ↦ True) (fun _ _ ↦ True) t :=
      ⟨⟨m, h', x, hb.holds⟩, fun _ _ _ _ ↦ trivial⟩
    obtain ⟨hs', hp, hroot⟩ := wp_ok (hsound.wp_readOnly (E := Beyond) (fun _ ↦ trivial) hcmp
      (fun _ _ _ ↦ trivial) ha hro) h
    obtain ⟨m', h', x', ht'⟩ := hs'.holds
    refine ⟨F, ⟨⟨m', h', x', hb.congr ht' hp hroot⟩, (preserves_call hsave).run hinv.unsaved h,
      fun k ↦ ?_, .step t t' call hinv.session ha hro.spared h⟩, hopens⟩
    rw [slots_congr hp hroot, hinv.keys]
  | reopened saved M keys platform t t' _ hp h ih =>
    obtain ⟨F, hinv, -⟩ := ih
    exact ⟨_, (wp_ok (hinv.opens platform hp) h).2, hinv.opens⟩
  | crashed saved M keys platform t t' _ hp h ih =>
    -- No call wrote to the file, so it is still the one that opened to the saved map.
    obtain ⟨F, hinv, hopens⟩ := ih
    rw [hinv.unsaved.file] at h
    exact ⟨F, (wp_ok (hopens platform hp) h).2, hopens⟩

/-- At any time in the life of a store, over any number of openings and crashes, the tree realises
the map that its calls describe, `put` within 2^18 blocks returns 1 exactly for a key that is not
bound, closing and opening the file leaves the map as it is, and a crash takes it back to where it
was closed last. -/
theorem store_realises (hwide : c.Wide) (hcmp : Comparison c.cmp fun _ ↦ True)
    (heq : ∀ a b, c.cmp a b = 0 ↔ a = b) (hs : Store c saved M keys t) :
    Realises c M t ∧
    (∀ key value, c.Takes value → Within c key value t →
      wp (fun _ ↦ False) (BTree.put c key value) (fun r t' ↦
        (r = 1 ∧ M key = none ∨ r = 0 ∧ M key ≠ none) ∧
        Realises c (M.put c.cmp key value) t') t) ∧
    (∀ it s, Stands t it s → wp (fun _ ↦ False) it.remove (fun _ t' ↦
      Realises c (M.erase c.cmp s.key) t') t) ∧
    ∀ platform : Platform, platform.Reliable →
      wp (fun _ ↦ False) openTree (fun r t' ↦ r = 1 ∧ Realises c M t')
        (unopened platform (t.destroy fun _ ↦ true)) ∧
      wp (fun _ ↦ False) openTree (fun r t' ↦ r = 1 ∧ Realises c saved.1 t')
        (unopened platform t.buffer.file) := by
  obtain ⟨hinv, hopens⟩ := hs.inv hwide hcmp heq
  obtain ⟨m, h, x, hb⟩ := hinv.bound
  have hopen : ∀ {saved F} {platform : Platform}, platform.Reliable → Opens c saved F →
      wp (fun _ ↦ False) openTree (fun r t' ↦ r = 1 ∧ Realises c saved.1 t')
        (unopened platform F) := by
    intro saved F platform hp hopens
    refine wp_mono (hopens platform hp) fun r t' h ↦ ?_
    obtain ⟨rfl, ⟨m', h', x', hb'⟩, -⟩ := h
    exact ⟨rfl, hb'.realises hcmp heq⟩
  refine ⟨hb.realises hcmp heq, fun key value hv hw ↦ ?_, fun it s hst ↦ ?_,
    fun platform hp ↦ ⟨hopen hp hinv.opens, hopen hp hopens⟩⟩
  · refine hb.holds.wp_put_fits hwide hcmp trivial hw.fits ?_
    refine wp_mono (hb.wp_put hwide hcmp heq hv) fun r t' hput ↦ ?_
    obtain ⟨hres, m', h', x', hb'⟩ := hput
    exact ⟨hres, hb'.realises hcmp heq⟩
  · refine wp_mono (hb.wp_remove hcmp hst) fun _ t' hrem ↦ ?_
    obtain ⟨x', hb'⟩ := hrem
    exact hb'.realises hcmp heq

private theorem narrowTree_store : ∃ t, Store narrow (fun _ ↦ none, [])
    (Bindings.put narrow.cmp (fun _ ↦ none) 1 narrowValue) [1] t := by
  have hv : narrow.Takes narrowValue := by
    unfold Config.Takes
    rw [if_pos (by decide)]
    decide
  have hw : Within narrow 1 narrowValue narrowTree := by
    unfold Within
    decide
  exact ⟨_, .put _ _ _ _ _ 1 narrowValue 1
    (.created steady blank narrowTree steady_reliable narrowTree_opened) hv hw rfl⟩

/-- A key that was put is bound when the tree was closed, and not after a crash. -/
theorem narrowTree_reopened : ∃ (M : Bindings Nat) (t : BTree Nat), M 1 = some narrowValue ∧
    wp (fun _ ↦ False) openTree (fun r t' ↦ r = 1 ∧ Realises narrow M t')
      (unopened steady (t.destroy fun _ ↦ true)) ∧
    wp (fun _ ↦ False) openTree (fun r t' ↦ r = 1 ∧ Realises narrow (fun _ ↦ none) t')
      (unopened steady t.buffer.file) := by
  obtain ⟨t, hs⟩ := narrowTree_store
  exact ⟨_, t, rfl,
    (store_realises narrow_wide narrow_cmp narrow_eq hs).2.2.2 steady steady_reliable⟩

end Stores

end ExampleEngine.Index
