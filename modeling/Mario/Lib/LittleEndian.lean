import Mathlib.Algebra.Order.Group.Nat
import Mathlib.Data.BitVec

/-!
# Little-endian numbers

A number is kept in a fixed number of bytes, the lowest byte first.
-/

namespace Mario.Lib

variable {n v : ℕ} {l : List (BitVec 8)}

/-- The lowest bytes of a number. -/
def toLe : ℕ → ℕ → List (BitVec 8)
  | 0, _ => []
  | n + 1, v => BitVec.ofNat 8 v :: toLe n (v / 256)

/-- The number that bytes stand for. -/
def ofLe : List (BitVec 8) → ℕ
  | [] => 0
  | b :: l => b.toNat + 256 * ofLe l

@[simp] theorem toLe_length (n v : ℕ) : (toLe n v).length = n := by
  induction n generalizing v with
  | zero => rfl
  | succ n ih => rw [toLe, List.length_cons, ih]

theorem ofLe_toLe (n v : ℕ) : ofLe (toLe n v) = v % 256 ^ n := by
  induction n generalizing v with
  | zero => rw [toLe, ofLe, Nat.pow_zero, Nat.mod_one]
  | succ n ih =>
    have hbyte : (BitVec.ofNat 8 v).toNat = v % 256 := BitVec.toNat_ofNat v 8
    rw [toLe, ofLe, ih, hbyte, Nat.pow_succ', Nat.mod_mul]

theorem ofLe_toLe_of_lt (h : v < 256 ^ n) : ofLe (toLe n v) = v := by
  rw [ofLe_toLe, Nat.mod_eq_of_lt h]

end Mario.Lib
