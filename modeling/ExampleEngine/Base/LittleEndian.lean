import Mathlib.Algebra.Group.Int.Defs
import Mathlib.Algebra.GroupWithZero.Nat
import Mathlib.Data.List.Basic

/-!
# Little-endian words in byte lists

Library `Base`. Unsigned words of any width as lists of bytes, low byte first.
-/

namespace ExampleEngine.Base

/-- The `n` low bytes of `x`, lowest first. -/
def leBytes : Nat → Nat → List UInt8
  | 0, _ => []
  | n + 1, x => UInt8.ofNat x :: leBytes n (x / 256)

/-- The number whose bytes are given, lowest first. -/
def leNat : List UInt8 → Nat
  | [] => 0
  | b :: bs => b.toNat + 256 * leNat bs

/-- Writing produces the requested width. -/
@[simp] theorem length_leBytes (n x : Nat) : (leBytes n x).length = n := by
  induction n generalizing x with
  | zero => rfl
  | succ n ih => simp [leBytes, ih]

/-- Reading back a written word keeps what fits the width. -/
theorem leNat_leBytes (n x : Nat) : leNat (leBytes n x) = x % 256 ^ n := by
  induction n generalizing x with
  | zero => simp [leNat, leBytes, Nat.mod_one]
  | succ n ih =>
    have h : (UInt8.ofNat x).toNat = x % 256 := rfl
    rw [leBytes, leNat, ih, h, Nat.pow_succ', Nat.mod_mul]

/-- Words that fit the width are recovered. -/
theorem leNat_leBytes_of_lt {n x : Nat} (h : x < 256 ^ n) : leNat (leBytes n x) = x := by
  rw [leNat_leBytes, Nat.mod_eq_of_lt h]

/-- Bytes read as a word fit their width. -/
theorem leNat_lt (bs : List UInt8) : leNat bs < 256 ^ bs.length := by
  induction bs with
  | nil => decide
  | cons b bs ih =>
    have hb : b.toNat < 256 := b.toNat_lt
    rw [leNat, List.length_cons, Nat.pow_succ]
    omega

end ExampleEngine.Base
