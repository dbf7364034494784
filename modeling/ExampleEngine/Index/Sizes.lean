import ExampleEngine.Index.Bindings
import ExampleEngine.Index.Live

/-!
# Values of every size

Library `Index`. What `BTree::put` of `src/lib/btree.cpp:445–619` does with a value of any
length in a tree with values of variable size. A fresh data block has room for 4066 bytes, of
which the guard of `insertValue` leaves one unused; a longer value is passed from one fresh
block to the next without end, unless its length is negative as a signed one.
-/

namespace ExampleEngine.Index

open ExampleEngine.Base ExampleEngine.Storage BTree

variable {K : Type}

/-- The height of the tree below a block, along first slots. -/
def heightBelow (v : Nat → Page K) : Nat → Nat → Nat
  | 0, _ => 0
  | fuel + 1, i =>
    match v i with
    | .node n =>
      if n.leaf then 0
      else
        match n.kv with
        | [] => 0
        | s :: _ => heightBelow v fuel (childIndex s.value) + 1
    | _ => 0

namespace BTree

/-- The number of blocks in use. -/
def blocks (t : BTree K) : Nat :=
  match t.page 0 with
  | .metadata m => m.countOfBlock
  | _ => 0

/-- The number of levels above the leaves. -/
def height (t : BTree K) : Nat := heightBelow t.page t.blocks t.root

/-- The data blocks in use. -/
def dataBlocks (t : BTree K) : List Nat :=
  (List.range t.blocks).filter fun i ↦ match t.page i with
    | .data _ => true
    | _ => false

/-- The file can take one block for a value, one for each level above the leaves that a split
may reach, and two for the split of the root. -/
def Roomy (t : BTree K) : Prop := t.blocks + t.height + 3 ≤ 2 ^ 19

/-- All of the value is found under the key. -/
def Retrieved (c : Config K) (key : K) (value : List UInt8) (t : BTree K) : Prop :=
  wp (fun _ ↦ False) (lookup c key) (fun r _ ↦ Finds (some value) r) t

/-- `put` returns with at most one data block more, and has either stored the value or left the
live contents alone. -/
def Settles (c : Config K) (key : K) (value : List UInt8) (t : BTree K) : Prop :=
  ∃ r t', (put c key value).run t = .ok (r, t') ∧
    t'.dataBlocks.length ≤ t.dataBlocks.length + 1 ∧
    (r = 1 ∧ Retrieved c key value t' ∨ r = -1 ∧ t'.contents c = t.contents c)

/-- The lengths that `put` copes with whatever the data blocks hold: those a fresh block has
room for, and those refused because they are negative as signed ones while their low 16 bits
exceed what any block has room for. -/
def Servable (n : Nat) : Prop :=
  n ≤ maxValueSize ∨ 2 ^ 31 ≤ n ∧ n < 2 ^ 32 ∧ freshSize < n % 2 ^ 16

variable {c : Config K} {S : K → Prop} {t t' : BTree K} {m m' : BTreeMetadata} {h : Nat}
  {x : LTree (Slot K) h} {key : K} {value : List UInt8} {w : List UInt8}

/-- The number of blocks in use, by the metadata. -/
theorem Heap.blocks_eq (hh : Heap t m) : t.blocks = m.countOfBlock := by
  unfold BTree.blocks
  rw [hh.metadata]

private theorem heightBelow_eq {fuel n : Nat} (hf : h < fuel) (hn : n ≤ 2 ^ 32)
    {v : Nat → Page K} (hx : Descent c v n h x) : heightBelow v fuel x.id = h := by
  induction h generalizing fuel with
  | zero =>
    obtain ⟨fuel, rfl⟩ : ∃ f, fuel = f + 1 := ⟨fuel - 1, by omega⟩
    obtain ⟨k, hk, hs, _⟩ := hx.rep
    have hleaf : k.leaf = true := by simp [hs.leaf]
    simp only [heightBelow, hk, hleaf, if_true]
  | succ h ih =>
    obtain ⟨fuel, rfl⟩ : ∃ f, fuel = f + 1 := ⟨fuel - 1, by omega⟩
    obtain ⟨⟨k, hk, hs, hfits⟩, _⟩ := hx.rep
    have hleaf : k.leaf = false := by simp [hs.leaf]
    have hne := hx.nonempty (by omega)
    rw [heightBelow, hk]
    simp only [hleaf, Bool.false_eq_true, if_false]
    have hfits : List.Forall₂ (Separates h) k.kv x.children := hfits
    have hlen : 0 < x.children.length := hne
    cases hkv : k.kv with
    | nil =>
      have := hfits.length_eq
      rw [hkv] at this
      simp only [List.length_nil] at this
      omega
    | cons s kv =>
      rw [hkv] at hfits
      cases hcs : x.children with
      | nil => simp [hcs] at hlen
      | cons y cs =>
        rw [hcs] at hfits
        obtain ⟨hsy, _⟩ := List.forall₂_cons.mp hfits
        have hy := hx.child (y := y) (by rw [hcs]; simp)
        have hlt := hy.range h y.id (by rw [LTree.level_self]; simp)
        simp only
        rw [hsy.2, childIndex_leBytes (by omega), ih (by omega) hy]

/-- The height of a tree that holds. -/
theorem Holds.height_eq (ht : Holds c S t m h x) : t.height = h := by
  have hle := ht.heap.count_le
  unfold height
  rw [ht.heap.blocks_eq, ht.root]
  exact heightBelow_eq ht.height_lt (by omega) ht.descent

/-- The data blocks of a tree that holds. -/
theorem Holds.mem_dataBlocks (ht : Holds c S t m h x) {i : Nat} :
    i ∈ t.dataBlocks ↔ i < m.countOfBlock ∧ IsData t.page i := by
  unfold dataBlocks
  rw [List.mem_filter, List.mem_range, ht.heap.blocks_eq]
  refine and_congr_right fun hi ↦ ⟨fun hd ↦ ?_, fun ⟨d, hd, _⟩ ↦ by simp only [hd]⟩
  have hi0 : 0 < i := by
    apply Nat.pos_of_ne_zero
    rintro rfl
    simp [ht.heap.metadata] at hd
  rcases ht.roles i hi0 hi with hdata | ⟨d, hlev⟩
  · exact hdata
  · obtain ⟨b, hb⟩ := ht.placed.node d i hlev
    simp [hb] at hd

/-- A call that takes `k` data blocks at most. -/
theorem DataWithin.length_le {h' k : Nat} {x' : LTree (Slot K) h'} (ht : Holds c S t m h x)
    (ht' : Holds c S t' m' h' x') (hd : DataWithin t t' m m' k) :
    t'.dataBlocks.length ≤ t.dataBlocks.length + k := by
  have hnodup : t'.dataBlocks.Nodup := List.nodup_range.filter _
  have hsub : t'.dataBlocks ⊆ t.dataBlocks ++ List.range' m.countOfBlock k := by
    intro i hi
    obtain ⟨hlt, hdata⟩ := ht'.mem_dataBlocks.mp hi
    rw [List.mem_append, List.mem_range'_1, ht.mem_dataBlocks]
    exact hd i hlt hdata
  have hle := (List.subperm_of_subset hnodup hsub).length_le
  rwa [List.length_append, List.length_range'] at hle

/-- The value of the only entry for a key is found under it. -/
private theorem Valid.retrieved (hv : Valid c S t) (hcmp : Comparison c.cmp S) (hk : S key)
    (hex : ∃ e ∈ t.live, c.cmp e.key key = 0)
    (hval : ∀ e ∈ t.live, c.cmp e.key key = 0 → ∃ bytes, valueOf c t.page e.value = some bytes ∧
      ∀ i (hi : i < value.length), bytes i = value[i]) : Retrieved c key value t := by
  obtain ⟨hsorted, hkeys⟩ := hv.slots
  have hprobe := hsorted.probe hcmp hkeys hk
  unfold Retrieved lookup
  rw [wp_bind]
  refine wp_mono (hv.wp_locate hprobe) fun r t₁ hr ↦ ?_
  obtain ⟨hv₁, hsame, hfound⟩ := hr
  obtain ⟨e₀, he₀, hek₀⟩ := hex
  obtain ⟨e, hs⟩ : ∃ e, IterFlag.EXACT_KEY.search c.cmp key t.live = some e :=
    IterFlag.exists_search he₀ hek₀
  obtain ⟨he, hek⟩ := IterFlag.of_search hs
  rw [hs] at hfound
  obtain ⟨hr1, hst⟩ := hfound
  obtain ⟨bytes, hb, hbytes⟩ := hval e he hek
  rw [if_pos hr1, wp_bind]
  refine wp_mono (hv₁.wp_getValue hst) fun p t₂ hp ↦ ?_
  rw [wp_pure]
  exact ⟨hr1, bytes, by rw [hp.2.2, hsame.page, hb], hbytes⟩

/-- A length that is not one of those served is not storable, or negative as a signed one. -/
private theorem Storable.served {n : Nat} (hst : Storable n) : n ≤ maxValueSize ∨ 2 ^ 31 ≤ n := by
  by_contra hno
  unfold maxValueSize at hno
  have := hst.1
  rw [toInt32_of_lt (by omega)] at this
  unfold freshSize at this
  omega

private theorem Servable.blocksFor (hs : Servable value.length) :
    BTree.blocksFor value = 1 := by
  apply if_pos
  unfold Servable maxValueSize freshSize at *
  unfold toInt32
  split <;> omega

private theorem not_storable {n : Nat} (hs : Servable n) (hst : Storable n) :
    n ≤ maxValueSize := by
  have := hst.2
  unfold Servable at hs
  omega

/-- A value of a length that is served settles where `put` returns. -/
theorem Holds.settles {r : Int} {t' : BTree K} (ht : Holds c S t m h x) (hwide : c.Wide)
    (hcmp : Comparison c.cmp S) (hk : S key) (hc : c.isConstValueSize = false)
    (hne : ∀ e ∈ t.live, c.cmp e.key key ≠ 0) (hs : Servable value.length)
    (hrun : (put c key value).run t = .ok (r, t')) : Settles c key value t := by
  have hone := hs.blocksFor
  suffices hput : wp Beyond (put c key value) (fun r t' ↦
      t'.dataBlocks.length ≤ t.dataBlocks.length + 1 ∧
        (r = 1 ∧ Retrieved c key value t' ∨ r = -1 ∧ t'.contents c = t.contents c)) t by
    have hsettled := wp_ok hput hrun
    exact ⟨r, t', hrun, hsettled⟩
  refine wp_put hwide hcmp hk ht (covers_beyond _) fun r t' ho ↦ ?_
  obtain ⟨hv', hputs⟩ := Valid.puts_of_outcome ht hcmp hk ho
  cases ho with
  | duplicate e he heq hlive t' ht' hl hp =>
    refine absurd heq (hne e ?_)
    rw [ht.live_eq]
    exact List.mem_filter.mpr ⟨he, by simp [hlive]⟩
  | done hdead t' m' h' x' w ht' hl hle hkeep hitems hent hleaves hw hst hdata =>
    refine ⟨hone ▸ hdata.length_le ht ht', .inl ⟨rfl, ?_⟩⟩
    have htakes : c.Takes value := by
      unfold Config.Takes
      rw [hc]
      exact not_storable hs (hst hc)
    have hj := joins_upsert (w := w) hcmp hk ht.tree.keys ht.tree.sorted hdead
    rw [← hent, ← ht.live_eq, ← ht'.live_eq] at hj
    obtain ⟨s, hsw, hsk, hmem⟩ := hj.exists_mem
    refine hv'.retrieved hcmp hk ⟨s, (hmem s).mpr (.inl rfl), hsk⟩ fun e he hek ↦ ?_
    rcases (hmem e).mp he with rfl | hold
    · rw [hsw]
      exact valueOf_written htakes hw
    · exact absurd hek (hj.ne e hold)
  | failed hdead t' m' ht' hl hle hkeep hitems hnode _ hlen hdata =>
    refine ⟨hone ▸ hdata.length_le ht ht', .inr ⟨rfl, ?_⟩⟩
    exact ht.contents_eq ht' hkeep

/-- In a roomy file `put` of such a value returns. -/
theorem Holds.returns_of_roomy (ht : Holds c S t m h x) (hwide : c.Wide)
    (hcmp : Comparison c.cmp S) (hk : S key) (hroom : t.Roomy) (hs : Servable value.length) :
    ∃ r t', (put c key value).run t = .ok (r, t') := by
  have hone := hs.blocksFor
  have hE : Covers (fun _ ↦ False) (m.countOfBlock + BTree.blocksFor value + h + 2) := by
    intro hlt
    unfold Roomy at hroom
    rw [ht.heap.blocks_eq, ht.height_eq] at hroom
    omega
  obtain ⟨r, t', hrun, _⟩ := exists_run (wp_put (Q := fun _ _ ↦ True) hwide hcmp hk ht hE
    fun _ _ _ ↦ trivial)
  exact ⟨r, t', hrun⟩

/-- A value that settles has a length that some block takes, or one that is negative. -/
theorem Holds.served (ht : Holds c S t m h x) (hwide : c.Wide)
    (hcmp : Comparison c.cmp S) (hk : S key) (hc : c.isConstValueSize = false)
    (hs : Settles c key value t) : value.length ≤ maxValueSize ∨ 2 ^ 31 ≤ value.length := by
  obtain ⟨r, t', hrun, _, hr⟩ := hs
  have hput : wp Beyond (put c key value) (fun r _ ↦
      r = 0 ∨ value.length ≤ maxValueSize ∨ 2 ^ 31 ≤ value.length) t := by
    refine wp_put hwide hcmp hk ht (covers_beyond _) fun r t' ho ↦ ?_
    cases ho with
    | duplicate => exact .inl rfl
    | done hdead t' m' h' x' w ht' hl hle hkeep hitems hent hleaves hw hst hdata =>
      exact .inr (hst hc).served
    | failed hdead t' m' ht' hl hle hkeep hitems hnode _ hlen hdata => exact .inr (.inr hlen)
  have := wp_ok hput hrun
  omega

end BTree

section Records

/-- Keys of 8 bytes and values of any size. -/
def records : Config Nat := ⟨8, 4096, fun a b ↦ (a : Int) - b⟩

/-- The tree just created with them. -/
def recordTree : BTree Nat :=
  match openTree.run (unopened steady (create records blank)) with
  | .ok (_, t) => t
  | .error _ => unopened steady blank

theorem records_wide : records.Wide := records.wide_iff.mpr (by decide)

theorem records_cmp : Comparison records.cmp fun _ ↦ True := by
  constructor <;> (intros; simp only [records] at *; omega)

private theorem recordTree_opened :
    openTree.run (unopened steady (create records blank)) = .ok (1, recordTree) := rfl

theorem recordTree_reachable : Reachable records recordTree :=
  .created steady blank recordTree steady_reliable recordTree_opened

theorem recordTree_live : ∀ e ∈ recordTree.live, records.cmp e.key 1 ≠ 0 := by
  have hslots := (wp_ok (wp_created (S := fun _ ↦ True) (E := Beyond) blank records_wide
    steady_reliable) recordTree_opened).2.2.1
  unfold BTree.live
  rw [hslots]
  exact fun e he ↦ absurd he List.not_mem_nil

end Records

end ExampleEngine.Index
