import Mathlib.Data.BitVec

/-!
# Memory of bytes

A memory with 32-bit addresses and little-endian words. Addresses wrap, so what is written near
an address is described by offsets from it.
-/

namespace Mario.Lib

abbrev Bytes := BitVec 32 → BitVec 8

namespace Bytes

/-- The address at an offset. -/
def off (a : BitVec 32) (d : ℕ) : BitVec 32 := a + BitVec.ofNat 32 d

/-- A byte of a word. -/
def byteOf (v : BitVec 32) (i : ℕ) : BitVec 8 := v.extractLsb' (8 * i) 8

/-- Read a word. -/
def get32 (m : Bytes) (a : BitVec 32) : BitVec 32 :=
  m (off a 3) ++ m (off a 2) ++ m (off a 1) ++ m (off a 0)

/-- Read half of a word. -/
def get16 (m : Bytes) (a : BitVec 32) : BitVec 16 := m (off a 1) ++ m (off a 0)

/-- Write a word. -/
def put32 (m : Bytes) (a v : BitVec 32) : Bytes := fun x =>
  if (x - a).toNat < 4 then byteOf v (x - a).toNat else m x

/-- Write words one after the other. -/
def putWords (m : Bytes) (a : BitVec 32) : List (BitVec 32) → Bytes
  | [] => m
  | v :: vs => putWords (put32 m a v) (off a 4) vs

variable {m m' : Bytes} {a v : BitVec 32} {d e : ℕ}

theorem off_off (a : BitVec 32) (d e : ℕ) : off (off a d) e = off a (d + e) := by
  unfold off
  rw [BitVec.add_assoc, BitVec.ofNat_add]

theorem off_zero (a : BitVec 32) : off a 0 = a := by
  unfold off
  exact BitVec.add_zero a

theorem off_sub_off (a : BitVec 32) (hd : d < 2 ^ 32) (he : e < 2 ^ 32) :
    (off a d - off a e).toNat = if e ≤ d then d - e else 2 ^ 32 - (e - d) := by
  have hsub : off a d - off a e = BitVec.ofNat 32 d - BitVec.ofNat 32 e := by
    unfold off
    exact add_sub_add_left_eq_sub ..
  rw [hsub, BitVec.toNat_sub, BitVec.toNat_ofNat, BitVec.toNat_ofNat, Nat.mod_eq_of_lt hd, Nat.mod_eq_of_lt he]
  split_ifs
  · omega
  · omega

/-- What a write does to the bytes around an address. -/
theorem put32_off (m : Bytes) (a v : BitVec 32) (hd : d < 2 ^ 32) (he : e + 4 ≤ 2 ^ 32) :
    put32 m (off a e) v (off a d) =
      if e ≤ d ∧ d < e + 4 then byteOf v (d - e) else m (off a d) := by
  unfold put32
  rw [off_sub_off a hd (by omega)]
  by_cases hle : e ≤ d
  · rw [if_pos hle]
    by_cases hlt : d - e < 4
    · rw [if_pos hlt, if_pos (by omega)]
    · rw [if_neg hlt, if_neg (by omega)]
  · rw [if_neg hle, if_neg (by omega), if_neg (by omega)]

theorem put32_other (m : Bytes) (a v : BitVec 32) (hd : d < 2 ^ 32) (he : e + 4 ≤ 2 ^ 32)
    (hout : d < e ∨ e + 4 ≤ d) : put32 m (off a e) v (off a d) = m (off a d) := by
  rw [put32_off m a v hd he, if_neg (by omega)]

/-- A word that is in the memory byte by byte is read. -/
theorem get32_eq (h : ∀ i < 4, m (off a i) = byteOf v i) : get32 m a = v := by
  unfold get32
  rw [h 3 (by decide), h 2 (by decide), h 1 (by decide), h 0 (by decide)]
  unfold byteOf
  apply BitVec.eq_of_getLsbD_eq
  intro i hi
  simp only [BitVec.getLsbD_append, BitVec.getLsbD_extractLsb']
  split_ifs with h0 h1 h2
  · simp only [h0, decide_true, Bool.true_and]
    congr 1
    omega
  · have hlt : i - 8 < 8 := by omega
    simp only [hlt, decide_true, Bool.true_and]
    congr 1
    omega
  · have hlt : i - 8 - 8 < 8 := by omega
    simp only [hlt, decide_true, Bool.true_and]
    congr 1
    omega
  · have hlt : i - 8 - 8 - 8 < 8 := by omega
    simp only [hlt, decide_true, Bool.true_and]
    congr 1
    omega

theorem get16_eq (m : Bytes) (a : BitVec 32) : get16 m a = (get32 m a).setWidth 16 := by
  unfold get16 get32
  apply BitVec.eq_of_getLsbD_eq
  intro i hi
  simp only [BitVec.getLsbD_append, BitVec.getLsbD_setWidth, hi, decide_true, Bool.true_and]
  have hlt : i - 8 < 8 := by omega
  rw [if_pos hlt]

theorem get32_congr (h : ∀ i < 4, m' (off a (d + i)) = m (off a (d + i))) : get32 m' (off a d) = get32 m (off a d) := by
  unfold get32
  simp only [off_off]
  rw [h 3 (by decide), h 2 (by decide), h 1 (by decide), h 0 (by decide)]

theorem putWords_append (m : Bytes) (a : BitVec 32) (vs ws : List (BitVec 32)) :
    putWords m a (vs ++ ws) = putWords (putWords m a vs) (off a (4 * vs.length)) ws := by
  induction vs generalizing m a with
  | nil => rw [List.nil_append, putWords, List.length_nil, Nat.mul_zero, off_zero]
  | cons v vs ih =>
    rw [List.cons_append, putWords, ih, putWords, off_off, List.length_cons]
    congr 2
    omega

/-- Words are written from an offset on; the bytes before and behind them stay. -/
theorem putWords_other (m : Bytes) (a : BitVec 32) (vs : List (BitVec 32)) (hd : d < 2 ^ 32)
    (he : e + 4 * vs.length ≤ 2 ^ 32) (hout : d < e ∨ e + 4 * vs.length ≤ d) :
    putWords m (off a e) vs (off a d) = m (off a d) := by
  induction vs generalizing m e with
  | nil => rfl
  | cons v vs ih =>
    rw [List.length_cons] at he hout
    rw [putWords, off_off, ih _ (by omega) (by omega), put32_other m a v hd (by omega) (by omega)]

theorem get32_putWords {vs : List (BitVec 32)} (m : Bytes) (he : e + 4 * vs.length ≤ 2 ^ 32) {i : ℕ}
    (hi : i < vs.length) : get32 (putWords m (off a e) vs) (off a (e + 4 * i)) = vs[i] := by
  induction vs generalizing m e i with
  | nil => exact absurd hi (Nat.not_lt_zero i)
  | cons v vs ih =>
    rw [List.length_cons] at he hi
    rw [putWords, off_off]
    cases i with
    | zero =>
      apply get32_eq
      intro j hj
      rw [off_off, putWords_other _ a vs (by omega) (by omega) (by omega), put32_off m a v (by omega)
        (by omega), if_pos (by omega)]
      congr 1
      omega
    | succ i =>
      rw [show e + 4 * (i + 1) = e + 4 + 4 * i by omega]
      exact ih (put32 m (off a e) v) (by omega) (Nat.lt_of_succ_lt_succ hi)

end Bytes

end Mario.Lib
