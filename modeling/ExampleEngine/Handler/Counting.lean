import ExampleEngine.Handler.Atomicity
import ExampleEngine.Index.Counting

/-!
# The number of records

Library `Handler`. `info` of `src/ha_example.cc:1111–1116` reports the counter of the tree of
rows, which rows removed by `delete_row` and `update_row` leave too high.
-/

namespace ExampleEngine.Handler

open ExampleEngine.Base ExampleEngine.Storage ExampleEngine.Index

instance (share : TableShare) (s : HaExample) (r : Record) : Decidable (RowLive share s r) :=
  inferInstanceAs (Decidable (∃ e ∈ s.pBtree.live, _))

/-- The number of live rows that a request removes: the row that `delete_row` finds, or that
`update_row` finds to replace. -/
def Request.removals (share : TableShare) (server : Server) (s : HaExample) : Request → Nat
  | .deleteRow buf => if RowLive share s (s.record buf) then 1 else 0
  | .updateRow old new =>
    let s := (HaExample.numbered server new s).2
    if RowLive share s (s.record old) then 1 else 0
  | _ => 0

/-- The states of a table that requests lead to, with the number of live rows removed so far. -/
inductive Tallied (share : TableShare) (server : Server) : Nat → HaExample → Prop
  | opened (s₀ s : HaExample) (hc : Created share s₀)
      (h : (HaExample.openTable share).run s₀ = .ok (0, s)) : Tallied share server 0 s
  | step (n : Nat) (s s' : HaExample) (req : Request) (code : Int)
      (hs : Tallied share server n s) (ha : req.Admissible share s)
      (h : (req.perform share server).run s = .ok (code, s')) :
      Tallied share server (n + req.removals share server s) s'

section Counting

variable {share : TableShare} {server : Server} {s s' : HaExample} {r : Record}
  {row : List UInt8} {code : Int} {n : Nat}

/-- These are the states of the table. -/
theorem Tallied.served (h : Tallied share server n s) : Served share server s := by
  induction h with
  | opened s₀ s hc h => exact .opened s₀ s hc h
  | step n s s' req code _ ha h ih => exact ih.step s s' req code ha h

/-- Deleting a row is not counted down. -/
theorem DeleteOutcome.above (h : DeleteOutcome share s r code s') (hn : Above n s.pBtree) :
    Above (n + if RowLive share s r then 1 else 0) s'.pBtree := by
  unfold Above at *
  cases h with
  | missing s' hsame hsec hne =>
    rw [if_neg fun ⟨e, he, hek⟩ ↦ hne e he hek, hsame.items, hsame.live, hn]
    rfl
  | removed s' b hrem hloop =>
    obtain ⟨w, hj⟩ := hrem.joins
    obtain ⟨e, _, hek, hmem⟩ := hj.exists_mem
    rw [if_pos ⟨e, (hmem e).mpr (.inl rfl), hek⟩, hrem.items, hn, hj.length]
    omega

/-- Writing a row is counted. -/
theorem WriteOutcome.above (h : WriteOutcome share s r row code s') (hn : Above n s.pBtree) :
    Above n s'.pBtree := by
  cases h with
  | refused _ res _ hput _ => exact hput.above hn
  | written _ b hput _ => exact hput.above hn

/-- So is rewriting one, after it was deleted. -/
theorem UpdateOutcome.above {old new : Nat} (h : UpdateOutcome share server s old new code s')
    (hn : Above n s.pBtree) :
    Above (n + if RowLive share s (s.record old) then 1 else 0) s'.pBtree := by
  cases h with
  | undeleted _ _ _ _ hdel => exact hdel.above hn
  | stopped s₂ s' code _ hdel _ honly => exact honly.pBtree ▸ hdel.above hn
  | rewritten s₂ s' code _ _ hdel _ _ hwrite =>
    refine hwrite.above ?_
    rw [(onlyServer_prepared (s := s₂)).pBtree]
    exact hdel.above hn

/-- After any run of requests the counter stands above the number of live rows by the number
of those removed. -/
theorem Tallied.above (ord : share.Ordered) (hs : Tallied share server n s) :
    Above n s.pBtree := by
  induction hs with
  | opened s₀ s hc h =>
    obtain ⟨_, _, hnil, _, hitems, _⟩ := wp_ok (hc.wp_openTable (E := Beyond)) h
    unfold Above
    rw [hitems, hnil]
    rfl
  | step n s s' req code hs ha h ih =>
    have ho := hs.served.isOpened ord
    by_cases hro : req.ChangesRows
    · cases req with
      | writeRow buf =>
        have hprep : OnlyServer s (s.prepared share server buf) := onlyServer_prepared
        have hwrite : wp Beyond (HaExample.writeRow share server buf)
            (fun _ s' ↦ Above n s'.pBtree) s := by
          refine wp_writeRow ord ho (fun _ _ _ _ honly ↦ honly.pBtree ▸ ih) ?_
          exact fun _ _ _ _ _ hout ↦ hout.above (hprep.pBtree ▸ ih)
        have := wp_ok hwrite h
        exact this
      | deleteRow buf =>
        have hdelete : wp Beyond (HaExample.deleteRow share buf)
            (fun _ s' ↦ Above (n + if RowLive share s (s.record buf) then 1 else 0) s'.pBtree) s :=
          wp_deleteRow ord ho fun _ _ _ _ hout ↦ hout.above ih
        have := wp_ok hdelete h
        exact this
      | updateRow old new =>
        have hnum : OnlyServer s (HaExample.numbered server new s).2 := onlyServer_numbered
        have hupdate : wp Beyond (HaExample.updateRow share server old new)
            (fun _ s' ↦ Above (n + Request.removals share server s (.updateRow old new))
              s'.pBtree) s :=
          wp_updateRow ord ho fun _ _ _ hout ↦ hout.above (hnum.pBtree ▸ ih)
        have := wp_ok hupdate h
        exact this
      | _ => exact absurd hro id
    · have hlooks := (wp_ok (ho.wp_perform ord ha) h).2.1 hro
      have hzero : req.removals share server s = 0 := by
        cases req with
        | updateRow old new => exact absurd trivial hro
        | deleteRow buf => exact absurd trivial hro
        | _ => rfl
      unfold Above at *
      rw [hzero, hlooks.primary.items, hlooks.primary.live, ih, Nat.add_zero]

private theorem above_iff {K : Type} {c : Config K} {S : K → Prop} {t : BTree K}
    (hv : BTree.Valid c S t) (hn : Above n t) : t.items = t.live.length ↔ n % 2 ^ 32 = 0 := by
  have := hv.length_lt
  unfold Above at hn
  omega

/-- After any run of calls on a tree, and after any run of requests on a table, the number of
items that is reported is the number of live keys exactly when no live entry was removed, or as
many as fit no counter. -/
theorem countOfItems_live {K : Type} {c : Config K} {t : BTree K} {k : Nat} (hwide : c.Wide)
    (hcmp : Comparison c.cmp fun _ ↦ True) (ht : Counted c k t) (ord : share.Ordered)
    (hs : Tallied share server n s) :
    wp (fun _ ↦ False) BTree.countOfItems
      (fun r _ ↦ r = t.live.length ↔ k % 2 ^ 32 = 0) t ∧
    wp (fun _ ↦ False) HaExample.info
      (fun r _ ↦ r = s.pBtree.live.length ↔ n % 2 ^ 32 = 0) s := by
  have hv : BTree.Valid c (fun _ ↦ True) t := ⟨(ht.session.sound hwide hcmp).holds⟩
  have hp := (hs.served.isOpened ord).primary
  constructor
  · refine wp_mono hv.wp_countOfItems ?_
    rintro r t' ⟨_, rfl⟩
    exact above_iff hv (ht.above hwide hcmp)
  · unfold HaExample.info
    rw [wp_onPrimary]
    refine wp_mono hp.wp_countOfItems ?_
    rintro r t' ⟨_, rfl⟩
    exact above_iff hp (hs.above ord)

private theorem openedTable_tallied : Tallied digits lenient 0 openedTable :=
  .opened newTable openedTable newTable_created newTable_opened

/-- A tree and a table just created. -/
theorem openedTable_items :
    wp (fun _ ↦ False) BTree.countOfItems
      (fun r _ ↦ r = narrowTree.live.length ↔ 0 % 2 ^ 32 = 0) narrowTree ∧
    wp (fun _ ↦ False) HaExample.info
      (fun r _ ↦ r = openedTable.pBtree.live.length ↔ 0 % 2 ^ 32 = 0) openedTable :=
  countOfItems_live narrow_wide narrow_cmp
    (.created steady blank narrowTree steady_reliable narrowTree_opened) digits_ordered
    openedTable_tallied

/-- The entry removed from a tree of three, with the counter and the live keys after that. -/
private def uncountedRemoval : Option (Option (Slot Nat) × Nat × List Nat) :=
  match (Iterator.mk (some 1) 0).remove.run filledTree with
  | .error _ => none
  | .ok (_, t) =>
    match BTree.countOfItems.run t with
    | .error _ => none
    | .ok (r, _) => some ((Iterator.mk (some 1) 0).slot filledTree, r, t.live.map Slot.key)

/-- After three insertions and a removal three items are reported, and two keys are live. -/
theorem removal_not_counted : ¬ ∀ t, Reachable narrow t →
    wp (fun _ ↦ False) BTree.countOfItems (fun r _ ↦ r = t.live.length) t := by
  intro hall
  have hrun : uncountedRemoval = some (some ⟨1, 1, narrowValue⟩, 3, [2, 3]) := by decide +kernel
  unfold uncountedRemoval at hrun
  split at hrun
  · cases hrun
  next t hremoved =>
  split at hrun
  · cases hrun
  next r t' hcounted =>
  simp only [Option.some.injEq, Prod.mk.injEq] at hrun
  obtain ⟨hslot, rfl, hlive⟩ := hrun
  have hs : Reachable narrow t := (filledTree_session fun _ _ _ ↦ trivial).step filledTree t
    (.remove ⟨some 1, 0⟩) ⟨_, stands_of_slot hslot⟩ trivial hremoved
  have heq := wp_ok (hall t hs) hcounted
  have htwo : t.live.length = 2 := by simpa using congrArg List.length hlive
  omega

end Counting

end ExampleEngine.Handler
