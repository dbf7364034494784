import ExampleEngine.Handler.Table

/-!
# Positions of rows

Library `Handler`. `position` and `rnd_pos` of `src/ha_example.cc:1034–1069`. The reference of
a row is its whole primary key, but the server saves as many bytes of it as `ref_length`
says, which the engine leaves at 8. What follows these bytes in memory takes the place of the
rest of the key.
-/

namespace ExampleEngine.Handler

open ExampleEngine.Base ExampleEngine.Storage ExampleEngine.Index

/-- The value that the server's class gives `ref_length`. -/
abbrev refLength : Nat := 8

/-- What the server has of a position when it passes it on: the bytes saved, and those that
follow them in memory. -/
def HaExample.savedRef (s : HaExample) (tail : List UInt8) : Key := s.ref.take refLength ++ tail

/-- A call fetched the live row with the primary key of `r` into a buffer. -/
def Delivers (share : TableShare) (s : HaExample) (r : Record) (buf : Nat) (code : Int)
    (s' : HaExample) : Prop :=
  code = 0 ∧ ∃ e ∈ s.pBtree.live, share.primaryKeyCompare e.key (share.primaryKey r) = 0 ∧
    Stands s'.pBtree s'.primaryIt e ∧ ∃ p, valueOf share.primary s.pBtree.page e.value = some p ∧
      s'.record = share.unpackRow p buf s.record

section Positions

variable {share : TableShare} {server : Server} {s₀ s₁ s : HaExample} {r : Record} {src buf : Nat}
  {tail : List UInt8}

/-- `rnd_pos` delivers a live row when the position compares equal to its primary key. -/
theorem Opened.wp_rndPos_iff {E : Fault → Prop} (ho : Opened share s) (ord : share.Ordered)
    {pos : Key} (hpos : share.PrimaryKey pos) (hlive : ∃ e ∈ s.pBtree.live,
      share.primaryKeyCompare e.key (share.primaryKey r) = 0) :
    wp E (HaExample.rndPos share buf pos) (fun code s' ↦ Delivers share s r buf code s' ↔
      share.primaryKeyCompare (share.primaryKey r) pos = 0) s := by
  have hcmp := ord.primary
  have hr : share.PrimaryKey (share.primaryKey r) := TableShare.primaryKey_primaryKey
  refine ho.wp_rndPos ord hpos fun code s' _ _ _ hrow ↦ ?_
  cases hrow with
  | missing _ hne =>
    obtain ⟨e, he, hek⟩ := hlive
    refine ⟨fun ⟨h0, _⟩ ↦ absurd h0 (by decide), fun h0 ↦ ?_⟩
    exact absurd (hcmp.equal_trans (ho.primary.keys e he) hr hpos hek h0) (hne e he)
  | found _ e p he hek hp hrec hst =>
    have hke := ho.primary.keys e he
    constructor
    · rintro ⟨_, e', he', hek', hst', _⟩
      obtain rfl := hst.unique hst'
      exact hcmp.equal_trans hr hke hpos (hcmp.symm hke hr hek') hek
    · intro h0
      refine ⟨rfl, e, he, ?_, hst, p, hp, hrec⟩
      exact hcmp.equal_trans hke hpos hr hek (hcmp.symm hr hpos h0)

/-- A primary key of at most `ref_length` bytes is saved as a whole. -/
theorem primaryKeyCompare_savedRef (ord : share.Ordered)
    (hlen : share.primaryKeyLength ≤ refLength) (href : s₁.ref = share.packKey 0 r) :
    share.primaryKeyCompare (share.primaryKey r) (s₁.savedRef tail) = 0 := by
  have hpk : (share.primaryKey r).length = share.primaryKeyLength := TableShare.length_primaryKey
  have hsaved : (share.packKey 0 r).take refLength = share.primaryKey r ++
      (List.replicate (share.maxSecondKeyLength + 1) 0).take
        (refLength - (share.primaryKey r).length) := by
    rw [TableShare.packKey_zero, List.take_append, List.take_of_length_le (by omega)]
  rw [← ord.primary.self (a := share.primaryKey r) TableShare.primaryKey_primaryKey]
  refine TableShare.primaryKeyCompare_congr rfl ?_
  unfold HaExample.savedRef
  rw [href, hsaved, List.append_assoc, ← hpk, List.take_left', List.take_length]
  rfl

/-- The position of a row, as the server saves it, leads back to that row as long as it is
live exactly when it compares equal to the whole primary key, whatever follows in memory; for
primary keys of at most 8 bytes it does. -/
theorem position_rndPos (ord : share.Ordered)
    (hpos : (HaExample.position share src).run s₀ = .ok ((), s₁)) (hs : Served share server s)
    (hlive : ∃ e ∈ s.pBtree.live,
      share.primaryKeyCompare e.key (share.primaryKey (s₀.record src)) = 0)
    (hmem : share.PrimaryKey (s₁.savedRef tail)) :
    wp (fun _ ↦ False) (HaExample.rndPos share buf (s₁.savedRef tail)) (fun code s' ↦
      (Delivers share s (s₀.record src) buf code s' ↔
        share.primaryKeyCompare (share.primaryKey (s₀.record src)) (s₁.savedRef tail) = 0) ∧
      (share.primaryKeyLength ≤ refLength →
        Delivers share s (s₀.record src) buf code s')) s := by
  have href : s₁.ref = share.packKey 0 (s₀.record src) := by
    cases hpos
    rfl
  refine wp_mono ((hs.isOpened ord).wp_rndPos_iff ord hmem hlive) fun code s' hiff ↦ ?_
  exact ⟨hiff, fun hlen ↦ hiff.mpr (primaryKeyCompare_savedRef ord hlen href)⟩

private theorem exists_live_of_map {s : HaExample} {r : Record}
    (h : (0 : Int) ∈ s.pBtree.live.map fun e ↦
      share.primaryKeyCompare e.key (share.primaryKey r)) :
    ∃ e ∈ s.pBtree.live, share.primaryKeyCompare e.key (share.primaryKey r) = 0 := by
  obtain ⟨e, he, hek⟩ := List.mem_map.mp h
  exact ⟨e, he, hek⟩

/-- The table after the position of its second row was asked for. -/
private def positionedTable : HaExample :=
  { filledTable with ref := digits.packKey 0 (filledTable.record 0) }

/-- A row with a primary key of one byte is found. -/
theorem filledTable_position : wp (fun _ ↦ False)
    (HaExample.rndPos digits 1 (positionedTable.savedRef []))
    (Delivers digits filledTable (filledTable.record 0) 1) filledTable := by
  have hpos : (HaExample.position digits 0).run filledTable = .ok ((), positionedTable) := rfl
  have hlive : (0 : Int) ∈ filledTable.pBtree.live.map fun e ↦
      digits.primaryKeyCompare e.key (digits.primaryKey (filledTable.record 0)) := by
    decide +kernel
  have hmem : digits.PrimaryKey (positionedTable.savedRef []) := by
    unfold TableShare.PrimaryKey
    decide +kernel
  exact wp_mono (position_rndPos digits_ordered hpos filledTable_served
    (exists_live_of_map hlive) hmem) fun code s' hboth ↦ hboth.2 (by decide)

end Positions

section LongKey

/-- The number that bytes spell. -/
def spelled (l : List UInt8) : Int := l.foldl (fun n b ↦ n * 256 + b.toNat) 0

private theorem one_le_keys : 1 ≤ 64 := by decide

/-- A table of one column of nine bytes. -/
def longKey : TableShare where
  keys := 1
  keyInfo _ := ⟨1, 9, [⟨0, 0, 0, 9, 9, false, false, fun a b ↦ spelled a - spelled b, rfl⟩],
    by simp, rfl, by decide⟩
  field := [⟨0, 0, 0, fun r _ ↦ (List.range 9).map r.bytes, fun r _ p ↦
    ({ r with bytes := fun i ↦ if i < 9 then p i else r.bytes i }, 9), fun _ ↦ 0⟩]
  blobField := []
  nullBytes := 0
  reclength := 9
  keys_pos := Nat.one_pos
  keys_le := one_le_keys

theorem longKey_ordered : longKey.Ordered := by
  intro i _ p hp
  obtain rfl : p = ⟨0, 0, 0, 9, 9, false, false, fun a b ↦ spelled a - spelled b, rfl⟩ := by
    simpa [longKey, KeyInfo.parts] using hp
  exact .sub _

/-- The record that holds the number 1. -/
private def one : Record := ⟨fun i ↦ if i = 8 then 1 else 0, fun _ ↦ []⟩

private def newLongKey : HaExample := { newTable with
  record := fun _ ↦ one
  keyBuffer := List.replicate 10 0
  pBtree := BTree.unopened steady
    (BTree.create longKey.primary fun _ ↦ .raw ⟨.free, 0, 0, 0⟩ fun _ ↦ 0)
  sBtree := none }

/-- The table with one row, opened and filled. -/
private def longKeyRow : HaExample :=
  outcome ((HaExample.writeRow longKey lenient 0).run
    (outcome ((HaExample.openTable longKey).run newLongKey)))

private theorem longKeyRow_served : Served longKey lenient longKeyRow := by
  have hopened : answers ((HaExample.openTable longKey).run newLongKey) = some 0 := by
    decide +kernel
  have hwritten : answers ((HaExample.writeRow longKey lenient 0).run
      (outcome ((HaExample.openTable longKey).run newLongKey))) = some 0 := by decide +kernel
  refine .step _ _ (.writeRow 0) 0 (.opened newLongKey _ ?_ (run_of_answers hopened)) trivial
    (run_of_answers hwritten)
  exact ⟨⟨steady, _, steady_reliable, rfl⟩, rfl, rfl, by decide⟩

/-- The position of a row with a primary key of nine bytes does not lead back to it when a
zero follows the eight bytes that are saved. -/
theorem long_position_lost : ¬ ∀ (share : TableShare) (server : Server) (s₀ s₁ s : HaExample)
    (src buf : Nat) (tail : List UInt8), share.Ordered →
    (HaExample.position share src).run s₀ = .ok ((), s₁) → Served share server s →
    (∃ e ∈ s.pBtree.live,
      share.primaryKeyCompare e.key (share.primaryKey (s₀.record src)) = 0) →
    share.PrimaryKey (s₁.savedRef tail) →
    wp (fun _ ↦ False) (HaExample.rndPos share buf (s₁.savedRef tail))
      (fun code s' ↦ Delivers share s (s₀.record src) buf code s') s := by
  intro hall
  have hlive : (0 : Int) ∈ longKeyRow.pBtree.live.map fun e ↦
      longKey.primaryKeyCompare e.key (longKey.primaryKey (longKeyRow.record 0)) := by
    decide +kernel
  have hcode : answers ((HaExample.rndPos longKey 0
      ((longKey.packKey 0 (longKeyRow.record 0)).take refLength ++ [0])).run longKeyRow) =
      some HA_ERR_KEY_NOT_FOUND := by decide +kernel
  have hmem : longKey.PrimaryKey
      ((longKey.packKey 0 (longKeyRow.record 0)).take refLength ++ [0]) := by
    unfold TableShare.PrimaryKey
    decide +kernel
  have hwp := hall longKey lenient longKeyRow _ longKeyRow 0 0 [0] longKey_ordered rfl
    longKeyRow_served (exists_live_of_map hlive) hmem
  obtain ⟨h0, _⟩ := wp_ok hwp (run_of_answers hcode)
  exact absurd h0 (by decide)

end LongKey

end ExampleEngine.Handler
