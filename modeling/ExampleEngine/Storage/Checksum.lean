import ExampleEngine.Base.Memory
import ExampleEngine.Storage.Block

/-!
# The checksum of a block

Library `Storage`. Models `BlockHeader::compute` and `BlockHeader::check` of
`src/lib/block.cpp:14–38` on the bytes of a block. The words of a block are added up and
folded to 16 bits, which computes their sum modulo 65535; the checksum field completes the
sum to the representation `0xffff` of zero.
-/

namespace ExampleEngine.Storage

open ExampleEngine.Base

namespace BlockHeader

/-- The address of the field `checksum`, behind the magic number and the type. -/
def checksumAddr : Nat := 6

/-- The sum of the first words of a block, as the loop adds them up in 32 bits;
`src/lib/block.cpp:18–20,31–33`. -/
def addUp (m : Memory) : Nat → Nat
  | 0 => 0
  | i + 1 => (addUp m i + m.word 2 (2 * i)) % 2 ^ 32

/-- The folding loop, with a bound on its rounds; `src/lib/block.cpp:23–25,34–36`. -/
def fold : Nat → Nat → Option Nat
  | 0, _ => none
  | fuel + 1, sum =>
    if sum / 2 ^ 16 ≠ 0 then fold fuel ((sum % 2 ^ 16 + sum / 2 ^ 16) % 2 ^ 32)
    else some sum

/-- `BlockHeader::compute`: the checksum and the block that carries it;
`src/lib/block.cpp:14–27`. -/
def compute (fuel : Nat) (m : Memory) : Option (Nat × Memory) := do
  let sum := addUp m (BLOCK_SIZE / 2)
  let sum := (sum + 2 ^ 32 - m.word 2 checksumAddr) % 2 ^ 32
  let sum ← fold fuel sum
  let checksum := (2 ^ 32 - 1 - sum) % 2 ^ 16
  return (checksum, m.setWord 2 checksumAddr checksum)

/-- `BlockHeader::check`; `src/lib/block.cpp:29–38`. -/
def check (fuel : Nat) (m : Memory) : Option Bool := do
  let sum ← fold fuel (addUp m (BLOCK_SIZE / 2))
  return sum == 0xffff

/-- The sum of the first words of a block. -/
def wordSum (m : Memory) (n : Nat) : Nat := ((List.range n).map fun i ↦ m.word 2 (2 * i)).sum

variable {m m' : Memory} {n i x fuel sum : Nat}

private theorem wordSum_succ (m : Memory) (n : Nat) :
    wordSum m (n + 1) = wordSum m n + m.word 2 (2 * n) := by
  simp [wordSum, List.range_succ]

private theorem wordSum_le (m : Memory) (n : Nat) : wordSum m n ≤ n * (2 ^ 16 - 1) := by
  induction n with
  | zero => simp [wordSum]
  | succ n ih =>
    have hw := m.word_lt 2 (2 * n)
    rw [wordSum_succ]
    omega

/-- No partial sum of the words of a block leaves 32 bits. -/
theorem addUp_eq (hn : n ≤ BLOCK_SIZE / 2) : addUp m n = wordSum m n ∧ addUp m n < 2 ^ 32 := by
  have hlt : ∀ k ≤ BLOCK_SIZE / 2, wordSum m k < 2 ^ 32 := by
    intro k hk
    have hle := wordSum_le m k
    simp only [BLOCK_SIZE] at hk
    omega
  induction n with
  | zero => exact ⟨rfl, Nat.two_pow_pos 32⟩
  | succ n ih =>
    have hsum := hlt (n + 1) hn
    rw [wordSum_succ] at hsum ⊢
    rw [addUp, (ih (by omega)).1, Nat.mod_eq_of_lt hsum]
    exact ⟨rfl, hsum⟩

/-- The words other than a given one add up to the rest of the sum. -/
private theorem wordSum_setWord (hi : i < n) :
    wordSum (m.setWord 2 (2 * i) x) n + m.word 2 (2 * i) = wordSum m n + x % 2 ^ 16 := by
  have hsame : ∀ k ≤ i, wordSum (m.setWord 2 (2 * i) x) k = wordSum m k := by
    intro k hk
    unfold wordSum
    congr 1
    apply List.map_congr_left
    intro j hj
    have hjk := List.mem_range.mp hj
    exact Memory.word_setWord_of_disjoint (.inl (by omega))
  induction n with
  | zero => exact absurd hi (Nat.not_lt_zero i)
  | succ n ih =>
    rw [wordSum_succ, wordSum_succ]
    by_cases hin : i = n
    · subst hin
      rw [hsame i (Nat.le_refl i), Memory.word_setWord]
      omega
    · rw [Memory.word_setWord_of_disjoint (.inr (by omega))]
      have := ih (by omega)
      omega

/-- The sum of the words of a block contains each of them. -/
theorem word_le_wordSum (hi : i < n) : m.word 2 (2 * i) ≤ wordSum m n := by
  have hset := wordSum_setWord (m := m) (x := 0) hi
  omega

private theorem fold_done (h : sum < 2 ^ 16) : fold (fuel + 1) sum = some sum := by
  unfold fold
  rw [if_neg (by omega)]

private theorem fold_step (h : 2 ^ 16 ≤ sum) (hlt : sum < 2 ^ 32) :
    fold (fuel + 1) sum = fold fuel (sum % 2 ^ 16 + sum / 2 ^ 16) := by
  rw [fold, if_pos (by omega), Nat.mod_eq_of_lt (by omega)]

/-- What a round of the folding loop keeps: the sum modulo 65535, and whether it is zero. -/
private theorem mod_step (sum : Nat) :
    (sum % 2 ^ 16 + sum / 2 ^ 16) % 65535 = sum % 65535 := by
  omega

/-- The folding loop ends within three rounds, with the sum modulo 65535 in 16 bits; it gives
zero for zero only. -/
theorem fold_spec (hlt : sum < 2 ^ 32) (hfuel : 3 ≤ fuel) :
    ∃ r, fold fuel sum = some r ∧ r < 2 ^ 16 ∧ r % 65535 = sum % 65535 ∧ (r = 0 ↔ sum = 0) := by
  obtain ⟨k, rfl⟩ : ∃ k, fuel = k + 3 := ⟨fuel - 3, by omega⟩
  by_cases h₁ : sum < 2 ^ 16
  · exact ⟨sum, fold_done h₁, h₁, rfl, Iff.rfl⟩
  · rw [fold_step (by omega) hlt]
    have hmod := mod_step sum
    by_cases h₂ : sum % 2 ^ 16 + sum / 2 ^ 16 < 2 ^ 16
    · exact ⟨_, fold_done h₂, h₂, hmod, by omega⟩
    · rw [fold_step (by omega) (by omega), fold_done (by omega)]
      exact ⟨_, rfl, by omega, (mod_step _).trans hmod, by omega⟩

/-- A block checks exactly when its words add up to a positive multiple of 65535. -/
theorem check_eq (m : Memory) (hfuel : 3 ≤ fuel) :
    check fuel m = some (decide (wordSum m (BLOCK_SIZE / 2) ≠ 0 ∧
      wordSum m (BLOCK_SIZE / 2) % 65535 = 0)) := by
  obtain ⟨hsum, hlt⟩ := addUp_eq (m := m) (Nat.le_refl (BLOCK_SIZE / 2))
  obtain ⟨r, hr, hrlt, hmod, hzero⟩ := fold_spec hlt hfuel
  rw [hsum] at hmod hzero
  simp only [check, hr, Option.bind_eq_bind, Option.bind_some, Option.pure_def,
    Option.some.injEq]
  rw [Bool.eq_iff_iff, beq_iff_eq, decide_eq_true_iff]
  omega

private theorem subtract {a b : Nat} (hle : b ≤ a) (hlt : a < 2 ^ 32) :
    (a + 2 ^ 32 - b) % 2 ^ 32 = a - b := by
  omega

/-- The complement of a folded sum completes the sum to a positive multiple of 65535. -/
private theorem complement {r : Nat} (hlt : r < 2 ^ 16) (hmod : r % 65535 = sum % 65535)
    (hzero : r = 0 ↔ sum = 0) :
    (2 ^ 32 - 1 - r) % 2 ^ 16 < 2 ^ 16 ∧ (sum + (2 ^ 32 - 1 - r) % 2 ^ 16) % 65535 = 0 ∧
      sum + (2 ^ 32 - 1 - r) % 2 ^ 16 ≠ 0 := by
  have hc : (2 ^ 32 - 1 - r) % 2 ^ 16 = 65535 - r := by omega
  rw [hc]
  exact ⟨by omega, by omega, by omega⟩

/-- The block with the checksum that completes the sum of its other words. -/
theorem compute_eq (m : Memory) (hfuel : 3 ≤ fuel) :
    ∃ c, compute fuel m = some (c, m.setWord 2 checksumAddr c) ∧ c < 2 ^ 16 ∧
      (wordSum m (BLOCK_SIZE / 2) - m.word 2 checksumAddr + c) % 65535 = 0 ∧
      wordSum m (BLOCK_SIZE / 2) - m.word 2 checksumAddr + c ≠ 0 := by
  obtain ⟨hsum, hlt⟩ := addUp_eq (m := m) (Nat.le_refl (BLOCK_SIZE / 2))
  have hle : m.word 2 checksumAddr ≤ wordSum m (BLOCK_SIZE / 2) :=
    word_le_wordSum (show 3 < BLOCK_SIZE / 2 by decide)
  rw [hsum] at hlt
  have hsub := subtract hle hlt
  obtain ⟨r, hr, hrlt, hmod, hzero⟩ :=
    fold_spec (Nat.lt_of_le_of_lt (Nat.sub_le _ (m.word 2 checksumAddr)) hlt) hfuel
  refine ⟨(2 ^ 32 - 1 - r) % 2 ^ 16, ?_, complement hrlt hmod hzero⟩
  simp only [compute, hsum, hsub, hr, Option.bind_eq_bind, Option.bind_some, Option.pure_def]

private theorem wordSum_setWord_checksum (m : Memory) (x : Nat) :
    wordSum (m.setWord 2 checksumAddr x) (BLOCK_SIZE / 2) -
        (m.setWord 2 checksumAddr x).word 2 checksumAddr =
      wordSum m (BLOCK_SIZE / 2) - m.word 2 checksumAddr := by
  have hset := wordSum_setWord (m := m) (x := x) (show 3 < BLOCK_SIZE / 2 by decide)
  change wordSum (m.setWord 2 checksumAddr x) (BLOCK_SIZE / 2) + m.word 2 checksumAddr = _ at hset
  have hle : m.word 2 checksumAddr ≤ wordSum m (BLOCK_SIZE / 2) :=
    word_le_wordSum (show 3 < BLOCK_SIZE / 2 by decide)
  rw [Memory.word_setWord]
  omega

/-- The checksum that a block gets does not depend on the one it has. -/
theorem compute_setWord (m : Memory) (x : Nat) :
    compute fuel (m.setWord 2 checksumAddr x) = compute fuel m := by
  have hsum := wordSum_setWord_checksum m x
  have hle : ∀ m : Memory, m.word 2 checksumAddr ≤ wordSum m (BLOCK_SIZE / 2) := fun m ↦
    word_le_wordSum (show 3 < BLOCK_SIZE / 2 by decide)
  have hrest : ∀ m : Memory, (addUp m (BLOCK_SIZE / 2) + 2 ^ 32 - m.word 2 checksumAddr) % 2 ^ 32 =
      wordSum m (BLOCK_SIZE / 2) - m.word 2 checksumAddr := by
    intro m
    obtain ⟨hadd, hlt⟩ := addUp_eq (m := m) (Nat.le_refl (BLOCK_SIZE / 2))
    rw [hadd] at hlt ⊢
    exact subtract (hle m) hlt
  simp only [compute, hrest, hsum, Memory.setWord_setWord]

/-- A block checks after its checksum was computed, and no longer after one of its words was
changed modulo 65535. -/
theorem check_compute (m : Memory) (hfuel : 3 ≤ fuel) :
    ∃ c, compute fuel m = some (c, m.setWord 2 checksumAddr c) ∧ c < 2 ^ 16 ∧
      check fuel (m.setWord 2 checksumAddr c) = some true ∧
      ∀ i < BLOCK_SIZE / 2, ∀ x < 2 ^ 16,
        x % 65535 ≠ (m.setWord 2 checksumAddr c).word 2 (2 * i) % 65535 →
        check fuel ((m.setWord 2 checksumAddr c).setWord 2 (2 * i) x) = some false := by
  obtain ⟨c, hc, hlt, hmod, hpos⟩ := compute_eq m hfuel
  have hsum : wordSum (m.setWord 2 checksumAddr c) (BLOCK_SIZE / 2) =
      wordSum m (BLOCK_SIZE / 2) - m.word 2 checksumAddr + c := by
    have hrest := wordSum_setWord_checksum m c
    have hle : (m.setWord 2 checksumAddr c).word 2 checksumAddr ≤
        wordSum (m.setWord 2 checksumAddr c) (BLOCK_SIZE / 2) :=
      word_le_wordSum (show 3 < BLOCK_SIZE / 2 by decide)
    rw [Memory.word_setWord, Nat.mod_eq_of_lt (show c < 256 ^ 2 from hlt)] at hrest hle
    omega
  refine ⟨c, hc, hlt, ?_, ?_⟩
  · rw [check_eq _ hfuel, hsum, decide_eq_true ⟨hpos, hmod⟩]
  · intro i hi x hx hne
    have hset := wordSum_setWord (m := m.setWord 2 checksumAddr c) (x := x) hi
    rw [hsum, Nat.mod_eq_of_lt hx] at hset
    rw [check_eq _ hfuel, decide_eq_false]
    omega

/-- Adding up the words of a block stays within 32 bits, the folding loops end, the checksum
does not depend on the previous one, and it detects every change of one word modulo 65535. -/
theorem checksum_correct (m : Memory) :
    (∀ n ≤ BLOCK_SIZE / 2, addUp m n = wordSum m n ∧ addUp m n < 2 ^ 32) ∧
    m.word 2 checksumAddr ≤ addUp m (BLOCK_SIZE / 2) ∧
    ∀ fuel ≥ 3, (check fuel m).isSome ∧
      ∃ c m', compute fuel m = some (c, m') ∧ m' = m.setWord 2 checksumAddr c ∧ c < 2 ^ 16 ∧
        (∀ x, compute fuel (m.setWord 2 checksumAddr x) = some (c, m')) ∧
        check fuel m' = some true ∧
        ∀ i < BLOCK_SIZE / 2, ∀ x < 2 ^ 16, x % 65535 ≠ m'.word 2 (2 * i) % 65535 →
          check fuel (m'.setWord 2 (2 * i) x) = some false := by
  refine ⟨fun n hn ↦ addUp_eq hn, ?_, ?_⟩
  · rw [(addUp_eq (Nat.le_refl _)).1]
    exact word_le_wordSum (show 3 < BLOCK_SIZE / 2 by decide)
  · intro fuel hfuel
    obtain ⟨c, hc, hlt, hcheck, hchange⟩ := check_compute m hfuel
    refine ⟨?_, c, _, hc, rfl, hlt, ?_, hcheck, hchange⟩
    · rw [check_eq m hfuel, Option.isSome_some]
    · intro x
      rw [compute_setWord, hc]

end BlockHeader

end ExampleEngine.Storage
