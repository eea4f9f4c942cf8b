import Mathlib.Order.Interval.Set.Basic

/-!
# Page-size arithmetic

The constants and macros of `include/misc.h` on 32-bit addresses. Addresses are
natural numbers; an operation that can wrap in the source reduces its result
modulo `wordSize` here.
-/

namespace Mario

/-- The number of values of an `unsigned long`. -/
def wordSize : ℕ := 4294967296

def pageSize : ℕ := 4096

/-- `KERNEL_BASE`: user addresses lie below it. -/
def kernelBase : ℕ := 0x80000000

/-- `PAGE_ALIGN(x)`: round up to a page boundary, in 32-bit arithmetic. -/
def pageAlign (x : ℕ) : ℕ := (x + (pageSize - 1)) % wordSize / pageSize * pageSize

/-- `x & PAGE_MASK`: round down to a page boundary. -/
def pageMask (x : ℕ) : ℕ := x / pageSize * pageSize

/-- `PAGE_ALIGNED(x)`. -/
def PageAligned (x : ℕ) : Prop := pageAlign x = x

instance (x : ℕ) : Decidable (PageAligned x) := inferInstanceAs (Decidable (_ = _))

theorem pageAlign_lt (x : ℕ) : pageAlign x < wordSize := by
  unfold pageAlign pageSize wordSize
  omega

/-- Subtraction of numbers of 32 bits. -/
def sub32 (a b : ℕ) : ℕ := (a + wordSize - b) % wordSize

theorem sub32_eq {a b : ℕ} (hb : b ≤ a) (ha : a < wordSize) : sub32 a b = a - b := by
  have hsum : a + wordSize - b = a - b + wordSize := by omega
  rw [sub32, hsum, Nat.add_mod_right]
  exact Nat.mod_eq_of_lt (by omega)

end Mario
