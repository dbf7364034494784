import ExampleEngine.Index.Room

/-!
# What survives reopening

Library `Index`. `getBlock` marks a block dirty and `save` of `src/lib/buffer.cpp:25–63` clears
the mark, but iterators keep their leaf pointers across a save, and `Iterator::remove` of
`src/lib/btree.cpp:287–289` sets no mark. Sessions that remove under a mark only, and cut the
file only while it is not needed, lose nothing.
-/

namespace ExampleEngine.Index

open ExampleEngine.Base ExampleEngine.Storage BTree

variable {K : Type} {c : Config K} {G : BTree K → Call K → Prop} {t : BTree K}

/-- Removals happen only while the leaf under the iterator carries a dirty mark. -/
def Marked (t : BTree K) : Call K → Prop
  | .remove it => ∀ i, it.cur = some i → t.buffer.Dirty i
  | _ => True

/-- Under marked removals the file holds every clean block. -/
private theorem Session.marked (hwide : c.Wide) (hcmp : Comparison c.cmp fun _ ↦ True)
    (hG : ∀ t call, G t call → Marked t call) (hs : Session c G t) :
    Sound c (fun _ ↦ True) Eq t := by
  induction hs with
  | created platform file t hp h =>
    exact (wp_ok (Sound.wp_created file hwide hp fun _ ↦ rfl) h).2.1
  | step t t' call _ ha hg h ih =>
    by_cases hro : call.ReadOnly
    · exact (wp_ok (ih.wp_readOnly (E := Beyond) (fun _ ↦ rfl) hcmp (fun _ _ _ ↦ trivial) ha
        hro) h).1
    · cases call with
      | put key value =>
        have hput : wp Beyond (Call.perform c (.put key value))
            (fun _ t' ↦ Sound c (fun _ ↦ True) Eq t') t := by
          simp only [Call.perform, wp_bind, wp_pure]
          exact ih.wp_put (fun _ ↦ rfl) hwide hcmp trivial
        have := wp_ok hput h
        exact this
      | remove it =>
        obtain ⟨s, hst⟩ := ha
        obtain ⟨m, height, x, ht⟩ := ih.holds
        have hrem : wp Beyond it.remove (fun _ t' ↦ Sound c (fun _ ↦ True) Eq t') t := by
          refine hst.wp_remove ht fun t' x' i pre post hi hf ht' _ _ ↦ ?_
          exact ⟨⟨m, height, x', ht'⟩, hf.marked (hG t _ hg i hi) ih.synced⟩
        have := wp_ok hrem h
        exact this
      | _ => exact absurd trivial hro
  | reopened t t' platform _ hp h ih =>
    exact (wp_ok ((ih.mono fun p q hpq ↦ hpq ▸ .refl p).wp_reopened hp) h).2

/-- In a session that removes only under a dirty mark, and grows the file from 2^18 blocks only
while all blocks in use carry one, destroying the tree with every write succeeding and opening the
file again yields the same contents, wherever the session stands. -/
theorem marked_session_durable (hwide : c.Wide) (hcmp : Comparison c.cmp fun _ ↦ True)
    (hs : Session c (fun t call ↦ Marked t call ∧ t.Spared c call) t) {platform : Platform}
    (hp : platform.Reliable) :
    wp Beyond openTree (fun r t' ↦ r = 1 ∧ t'.contents c = t.contents c)
      (unopened platform (t.destroy fun _ ↦ true)) := by
  have hsound := hs.marked hwide hcmp fun _ _ hg ↦ hg.1
  obtain ⟨m, h, x, ht⟩ := hsound.holds
  have hfile : t.destroy (fun _ ↦ true) = t.page := by
    funext i
    exact ht.heap.destroy (fun _ ↦ rfl) hsound.synced (fun _ ↦ rfl) i
  rw [hfile]
  refine wp_openTree hp ht.image fun t' ht' hpage _ _ _ ↦ ⟨rfl, contents_congr hpage ?_⟩
  rw [ht'.root, ht.root]

/-- Three keys survive. -/
theorem filledTree_durable :
    wp Beyond openTree (fun r t' ↦ r = 1 ∧ t'.contents narrow = filledTree.contents narrow)
      (unopened steady (filledTree.destroy fun _ ↦ true)) :=
  marked_session_durable narrow_wide narrow_cmp (filledTree_spared fun _ _ _ ↦ trivial)
    steady_reliable

section Lost

/-- The first of three keys in two leaves located, then a save. -/
private def savedUnderIterator : Except Fault (Unit × BTree Nat) :=
  ([.locate 1 .EXACT_KEY, .save fun _ ↦ true].forM (Call.perform narrow)).run filledTree

/-- The entry the iterator stands on after the save, the live keys after a removal through it,
and those after reopening. -/
private def lostRemoval : Option (Option (Slot Nat) × List Nat × List Nat) :=
  match savedUnderIterator with
  | .error _ => none
  | .ok (_, t) =>
    match (Iterator.mk (some 1) 0).remove.run t with
    | .error _ => none
    | .ok (_, t') =>
      match openTree.run (unopened steady (t'.destroy fun _ ↦ true)) with
      | .error _ => none
      | .ok (_, t'') => some ((Iterator.mk (some 1) 0).slot t, t'.live.map Slot.key,
          t''.live.map Slot.key)

/-- A removal through an iterator that was positioned before a save is lost: with the keys 1,
2 and 3 in two leaves, key 1 comes back. -/
theorem unmarked_removal_lost :
    ¬ ∀ t, Session narrow (fun _ _ ↦ True) t →
      wp Beyond openTree (fun r t' ↦ r = 1 ∧ t'.contents narrow = t.contents narrow)
        (unopened steady (t.destroy fun _ ↦ true)) := by
  intro hall
  have hrun : lostRemoval = some (some ⟨1, 1, narrowValue⟩, [2, 3], [1, 2, 3]) := by decide +kernel
  unfold lostRemoval at hrun
  split at hrun
  · cases hrun
  next t hsaved =>
  split at hrun
  · cases hrun
  next t' hremoved =>
  split at hrun
  · cases hrun
  next t'' hopened =>
  simp only [Option.some.injEq, Prod.mk.injEq] at hrun
  obtain ⟨hslot, hlive, hlive''⟩ := hrun
  have hs : Session narrow (fun _ _ ↦ True) t := by
    refine Session.calls (filledTree_session fun _ _ _ ↦ trivial) ?_ hsaved
    simp [Call.Admissible]
  have hs' := hs.step t t' (.remove ⟨some 1, 0⟩) ⟨_, stands_of_slot hslot⟩ trivial hremoved
  have hkeep := (wp_ok (hall t' hs') hopened).2
  have hkeys := congrArg (List.map Prod.fst) hkeep
  simp only [contents, List.map_map, Function.comp_def] at hkeys
  have hkeys' : t''.live.map Slot.key = t'.live.map Slot.key := hkeys
  rw [hlive, hlive''] at hkeys'
  exact absurd hkeys' (by decide)

end Lost

end ExampleEngine.Index
