import Mario.Lib.Totals
import Mathlib.Data.BitVec

/-!
# Bitmaps

A bitmap is a row of bytes, and its bit `n` is bit `n % 8` of byte `n / 8`. Setting and clearing a
bit changes no other one, taking a change back restores every byte, and the number of zero bits
below a bound changes by one.
-/

namespace Mario.Lib.Bitmap

open Function

variable {b : ℕ → BitVec 8} {n k size : ℕ} {v w : Bool}

def bit (b : ℕ → BitVec 8) (n : ℕ) : Bool := (b (n / 8)).getLsbD (n % 8)

/-- A byte with one of its bits set or cleared. -/
def putBit (x : BitVec 8) (i : ℕ) (v : Bool) : BitVec 8 :=
  if v then x ||| 1#8 <<< i else x &&& ~~~(1#8 <<< i)

/-- A bitmap with one of its bits set or cleared. -/
def put (b : ℕ → BitVec 8) (n : ℕ) (v : Bool) : ℕ → BitVec 8 :=
  update b (n / 8) (putBit (b (n / 8)) (n % 8) v)

/-- The number of zero bits below a bound. -/
def zeros (b : ℕ → BitVec 8) (size : ℕ) : ℕ := cells size fun k => !bit b k

/-- The first zero bit below a bound: the words are scanned first, and a bit that is found in the
last word may be beyond the bound. -/
def findFirstZeroBit (b : ℕ → BitVec 8) (size : ℕ) : Option ℕ :=
  ((List.range (32 * ((size + 31) / 32))).find? fun k => !bit b k).filter fun k => k < size

theorem getLsbD_one_shiftLeft {i j : ℕ} (hj : j < 8) : (1#8 <<< i).getLsbD j = decide (j = i) := by
  rw [BitVec.getLsbD_shiftLeft]
  by_cases hlt : j < i
  · have hne : j ≠ i := by omega
    simp [hlt, hne]
  · by_cases heq : j = i
    · subst heq
      simp [hj]
    · have hpos : 1 ≤ j - i := by omega
      simp [heq]
      omega

theorem getLsbD_putBit (x : BitVec 8) (i : ℕ) (v : Bool) {j : ℕ} (hj : j < 8) :
    (putBit x i v).getLsbD j = if j = i then v else x.getLsbD j := by
  unfold putBit
  cases v
  · rw [if_neg Bool.false_ne_true, BitVec.getLsbD_and, BitVec.getLsbD_not, getLsbD_one_shiftLeft hj]
    split_ifs with h <;> simp [h, hj]
  · rw [if_pos rfl, BitVec.getLsbD_or, getLsbD_one_shiftLeft hj]
    split_ifs with h <;> simp [h]

theorem bit_put (b : ℕ → BitVec 8) (n : ℕ) (v : Bool) (k : ℕ) : bit (put b n v) k = if k = n then v else bit b k := by
  unfold bit put
  by_cases hbyte : k / 8 = n / 8
  · rw [hbyte, update_self, getLsbD_putBit _ _ _ (Nat.mod_lt _ (by decide))]
    by_cases h : k % 8 = n % 8
    · rw [if_pos h, if_pos (by omega)]
    · rw [if_neg h, if_neg (by omega)]
  · rw [update_of_ne hbyte, if_neg]
    rintro rfl
    exact hbyte rfl

theorem bit_put_self (b : ℕ → BitVec 8) (n : ℕ) (v : Bool) : bit (put b n v) n = v := by
  rw [bit_put, if_pos rfl]

theorem bit_put_other (b : ℕ → BitVec 8) (v : Bool) (h : k ≠ n) : bit (put b n v) k = bit b k := by
  rw [bit_put, if_neg h]

theorem ext_bit {c : ℕ → BitVec 8} (h : ∀ k, bit b k = bit c k) : b = c := by
  funext i
  apply BitVec.eq_of_getLsbD_eq
  intro j hj
  have hbit := h (8 * i + j)
  unfold bit at hbit
  rwa [show (8 * i + j) / 8 = i by omega, show (8 * i + j) % 8 = j by omega] at hbit

theorem put_put (w : Bool) (h : bit b n = v) : put (put b n w) n v = b := by
  refine ext_bit fun k => ?_
  rw [bit_put]
  split_ifs with hk
  · rw [hk, h]
  · exact bit_put_other b w hk

theorem put_apply_ne (b : ℕ → BitVec 8) (v : Bool) {i : ℕ} (h : i ≠ n / 8) : put b n v i = b i :=
  update_of_ne h _ _

theorem zeros_put_true (hn : n < size) (hbit : bit b n = false) : zeros (put b n true) size + 1 = zeros b size := by
  have hchange := cells_change (p := fun k => !bit b k) (q := fun k => !bit (put b n true) k) hn
    fun m hm => by rw [bit_put_other b true hm]
  unfold zeros
  simpa [bit_put_self, hbit] using hchange

theorem zeros_put_false (hn : n < size) (hbit : bit b n = true) : zeros (put b n false) size = zeros b size + 1 := by
  have hchange := cells_change (p := fun k => !bit b k) (q := fun k => !bit (put b n false) k) hn
    fun m hm => by rw [bit_put_other b false hm]
  unfold zeros
  simpa [bit_put_self, hbit] using hchange

theorem zeros_le (b : ℕ → BitVec 8) (size : ℕ) : zeros b size ≤ size := by
  unfold zeros cells
  exact le_of_le_of_eq List.countP_le_length List.length_range

theorem zeros_pos : 0 < zeros b size ↔ ∃ k < size, bit b k = false := by
  unfold zeros
  rw [cells_pos]
  simp only [Bool.not_eq_true']

/-- The bit that is found is the first zero bit below the bound. -/
theorem findFirstZeroBit_eq_some (h : findFirstZeroBit b size = some n) :
    n < size ∧ bit b n = false ∧ ∀ k < n, bit b k = true := by
  obtain ⟨hfind, hlt⟩ := Option.filter_eq_some_iff.mp h
  have hzero := List.find?_some hfind
  refine ⟨by simpa using hlt, by simpa using hzero, fun k hk => ?_⟩
  have hbefore := (List.find?_range_eq_some.mp hfind).2.2 k hk
  simpa using hbefore

end Mario.Lib.Bitmap
