import ExampleEngine.Index.Live
import ExampleEngine.Index.Session

/-!
# The counter of items

Library `Index`. `put` of `src/lib/btree.cpp:588–592` counts every entry it adds or revives,
and `Iterator::remove` of `src/lib/btree.cpp:287–289` does not count down. After any run the
counter stands above the number of live keys by the number of live entries removed.
-/

namespace ExampleEngine.Index

open ExampleEngine.Base ExampleEngine.Storage

variable {K : Type} {c : Config K} {S : K → Prop} {t t' : BTree K} {it : Iterator} {s : Slot K}

/-- The entry that is stood on is read off the blocks. -/
theorem Stands.slot_eq (hs : Stands t it s) : it.slot t = some s := by
  obtain ⟨i, n, a, b, rfl, hp, hn, hleaf, hkv⟩ := hs.slot
  obtain ⟨f, hf⟩ := Option.isSome_iff_exists.mp hp
  unfold Iterator.slot
  simp [hf, hn, hleaf, hkv]

/-- Live entries can be counted in 32 bits. -/
theorem BTree.Valid.length_lt (hv : BTree.Valid c S t) : t.live.length < 2 ^ 32 := by
  obtain ⟨m, h, x, ht⟩ := hv.holds
  have hentries := ht.length_entries_lt
  have hcount := ht.heap.count_le
  have hlive : t.live.length ≤ (LTree.entries h x).length := by
    rw [ht.live_eq]
    exact List.length_filter_le _ _
  simp only [BLOCK_SIZE] at hentries
  omega

/-- The number of live entries that a call removes: one when the iterator stands on one. -/
def Call.removals (t : BTree K) : Call K → Nat
  | .remove it =>
    match it.slot t with
    | some s => if s.isRemoved then 0 else 1
    | none => 0
  | _ => 0

/-- The open trees that calls lead to, with the number of live entries removed so far. -/
inductive Counted (c : Config K) : Nat → BTree K → Prop
  | created (platform : Platform) (file : Nat → Page K) (t : BTree K) (hp : platform.Reliable)
      (h : BTree.openTree.run (BTree.unopened platform (BTree.create c file)) = .ok (1, t)) :
      Counted c 0 t
  | step (n : Nat) (t t' : BTree K) (call : Call K) (hs : Counted c n t) (ha : call.Admissible t)
      (h : (call.perform c).run t = .ok ((), t')) : Counted c (n + call.removals t) t'

/-- Such a run is a session. -/
theorem Counted.session {n : Nat} (h : Counted c n t) : Reachable c t := by
  induction h with
  | created platform file t hp h => exact .created platform file t hp h
  | step n t t' call _ ha h ih => exact ih.step t t' call ha trivial h

/-- The counter stands above the number of live entries by the number of those removed. -/
def Above (n : Nat) (t : BTree K) : Prop := t.items = (t.live.length + n) % 2 ^ 32

/-- What `put` adds is counted. -/
theorem BTree.Puts.above {key : K} {value : List UInt8} {r : Int} {n : Nat}
    (h : BTree.Puts c key value t r t') (hn : Above n t) : Above n t' := by
  unfold Above at *
  cases h with
  | duplicate e he heq t' hs => rw [hs.items, hs.live, hn]
  | done t' w hj hw hv hitems =>
    rw [hitems, hn, hj.length]
    omega
  | failed t' hlive hc hlen hne hv hitems => rw [hitems, hlive, hn]

/-- A live entry removed is not counted down. -/
theorem Above.of_filter {n : Nat} (hv : BTree.Valid c S t) (hcmp : Comparison c.cmp S)
    (hs : Stands t it s) (hn : Above n t)
    (hlive : t'.live = t.live.filter fun a ↦ c.cmp a.key s.key ≠ 0) (hitems : t'.items = t.items) :
    Above (n + Call.removals t (.remove it)) t' := by
  have hslot : s ∈ t.slots := hv.mem_slots_of_stands hs
  obtain ⟨hsorted, hkeys⟩ := hv.slots
  unfold Above at *
  have hrem : Call.removals t (.remove it) = if s.isRemoved then 0 else 1 := by
    unfold Call.removals
    simp only [hs.slot_eq]
  rw [hitems, hn, hlive, hrem]
  cases hdead : s.isRemoved with
  | true =>
    have hall : (t.live.filter fun a ↦ c.cmp a.key s.key ≠ 0) = t.live := by
      rw [List.filter_eq_self]
      intro a ha
      obtain ⟨ha, halive⟩ := List.mem_filter.mp ha
      simp only [decide_eq_true_eq]
      intro h0
      obtain rfl := hsorted.eq_of_equal hcmp hkeys ha hslot h0
      simp [hdead] at halive
    rw [hall]
    rfl
  | false =>
    have hmem : s ∈ t.live := List.mem_filter.mpr ⟨hslot, by simp [hdead]⟩
    have hj := joins_filter hcmp hv.sorted hv.keys (hv.keys s hmem) hmem
      (hcmp.self (hv.keys s hmem))
    rw [hj.length]
    simp only [Bool.false_eq_true, if_false]
    omega

/-- After any run of calls the counter stands above the number of live keys by the number of
live entries removed. -/
theorem Counted.above (hwide : c.Wide) (hcmp : Comparison c.cmp fun _ ↦ True) {n : Nat}
    (hs : Counted c n t) : Above n t := by
  induction hs with
  | created platform file t hp h =>
    obtain ⟨_, _, hnil, hitems⟩ :=
      wp_ok (BTree.wp_created (S := fun _ ↦ True) (E := Beyond) file hwide hp) h
    unfold Above BTree.live
    rw [hitems, hnil]
    rfl
  | step n t t' call hs ha h ih =>
    have hsound := hs.session.sound hwide hcmp
    have hv : BTree.Valid c (fun _ ↦ True) t := ⟨hsound.holds⟩
    by_cases hro : call.ReadOnly
    · obtain ⟨_, hpage, hroot⟩ := wp_ok (hsound.wp_readOnly (E := Beyond) .refl hcmp
        (fun _ _ _ ↦ trivial) ha hro) h
      have hzero : call.removals t = 0 := by
        cases call with
        | remove it => exact absurd hro id
        | _ => rfl
      unfold Above BTree.items at *
      rw [hzero, hpage, BTree.live_congr hpage hroot, ih, Nat.add_zero]
    · cases call with
      | put key value =>
        have hput : wp Beyond (Call.perform c (.put key value)) (fun _ t' ↦ Above n t') t := by
          simp only [Call.perform, wp_bind, wp_pure]
          exact hv.wp_put hwide hcmp trivial fun r t' _ hput ↦ hput.above ih
        have := wp_ok hput h
        exact this
      | remove it =>
        obtain ⟨s, hst⟩ := ha
        have hrem : wp Beyond it.remove
            (fun _ t' ↦ Above (n + Call.removals t (.remove it)) t') t :=
          hv.wp_remove hcmp hst fun t' _ hlive _ _ hitems _ ↦ ih.of_filter hv hcmp hst hlive hitems
        have := wp_ok hrem h
        exact this
      | _ => exact absurd trivial hro

end ExampleEngine.Index
