import Mathlib.Data.List.Basic

/-!
# Circular storage

A list is kept in a store of `size` cells from a start on, and after the last cell it goes on at
the first one. The lemmas say what a list that is written there, and the front of a list that is
read, do to the lists in the store.
-/

namespace Mario.Lib

variable {α : Type*} {size start offset m n p i : ℕ} {d d' : ℕ → α} {l : List α}

/-- The cells from a start on. -/
def segment (size : ℕ) (d : ℕ → α) (start n : ℕ) : List α :=
  (List.range n).map fun i => d ((start + i) % size)

theorem segment_length : (segment size d start n).length = n := by
  rw [segment, List.length_map, List.length_range]

theorem segment_congr (h : ∀ i, i < n → d' ((start + i) % size) = d ((start + i) % size)) :
    segment size d' start n = segment size d start n := by
  refine List.map_congr_left fun i hi => ?_
  exact h i (List.mem_range.mp hi)

theorem segment_mod : segment size d (start % size) n = segment size d start n := by
  refine List.map_congr_left fun i _ => ?_
  rw [Nat.mod_add_mod]

theorem segment_add : segment size d start (m + n) =
    segment size d start m ++ segment size d ((start + m) % size) n := by
  rw [segment, List.range_add, List.map_append, List.map_map]
  refine congrArg _ (List.map_congr_left fun i _ => ?_)
  simp only [Function.comp_apply, Nat.mod_add_mod, Nat.add_assoc]

theorem segment_take (h : m ≤ n) : (segment size d start n).take m = segment size d start m := by
  obtain ⟨k, rfl⟩ := Nat.exists_eq_add_of_le h
  rw [segment_add]
  exact List.take_left' segment_length

theorem segment_drop (h : m ≤ n) : (segment size d start n).drop m = segment size d ((start + m) % size) (n - m) := by
  obtain ⟨k, rfl⟩ := Nat.exists_eq_add_of_le h
  rw [segment_add, Nat.add_sub_cancel_left]
  exact List.drop_left' segment_length

theorem mod_of_lt_two_mul (hp : p < 2 * size) : p % size = if p < size then p else p - size := by
  split_ifs with hlt
  · exact Nat.mod_eq_of_lt hlt
  · rw [Nat.mod_eq_sub_mod (by omega), Nat.mod_eq_of_lt (by omega)]

/-- Copy a list to the cells from an offset on. -/
def copy (d : ℕ → α) (offset : ℕ) (l : List α) (p : ℕ) : α :=
  if offset ≤ p then (l[p - offset]?).getD (d p) else d p

theorem copy_inside (hp : offset ≤ p) (hlt : p - offset < l.length) : copy d offset l p = l[p - offset] := by
  rw [copy, if_pos hp, List.getElem?_eq_getElem hlt, Option.getD_some]

theorem copy_outside (hp : p < offset ∨ offset + l.length ≤ p) : copy d offset l p = d p := by
  unfold copy
  split_ifs with hle
  · rw [List.getElem?_eq_none (by omega), Option.getD_none]
  · rfl

/-- A list is copied in two pieces, the second one to the first cells. -/
def store (size : ℕ) (d : ℕ → α) (start : ℕ) (l : List α) : ℕ → α :=
  copy (copy d start (l.take (size - start))) 0 (l.drop (size - start))

theorem segment_store (hstart : start < size) (hl : l.length ≤ size) :
    segment size (store size d start l) start l.length = l := by
  refine List.ext_getElem segment_length fun i hi _ => ?_
  rw [segment_length] at hi
  simp only [segment, List.getElem_map, List.getElem_range]
  rw [mod_of_lt_two_mul (by omega)]
  unfold store
  split_ifs with hlt
  · rw [copy_outside (by right; rw [List.length_drop]; omega), copy_inside (by omega) (by rw [List.length_take]; omega)]
    simp
  · rw [copy_inside (by omega) (by rw [List.length_drop]; omega)]
    simp only [List.getElem_drop]
    congr 1
    omega

theorem store_outside (hstart : start < size) (hn : n + l.length ≤ size) (hi : i < n)
    (hp : p < size) (hbefore : (p + n) % size = start) :
    store size d start l ((p + i) % size) = d ((p + i) % size) := by
  rw [mod_of_lt_two_mul (by omega)] at hbefore ⊢
  unfold store
  rw [copy_outside, copy_outside]
  all_goals
    simp only [List.length_take, List.length_drop]
    split_ifs at hbefore ⊢ <;> omega

/-- `n` cells from an offset on, without going on at the first one. -/
def slice (data : ℕ → α) (offset n : ℕ) : List α := (List.range n).map fun i => data (offset + i)

theorem slice_eq_segment {data : ℕ → α} {size offset n : ℕ} (h : offset + n ≤ size) :
    slice data offset n = segment size data offset n := by
  refine List.map_congr_left fun i hi => ?_
  rw [Nat.mod_eq_of_lt]
  have := List.mem_range.mp hi
  omega

/-- The two pieces that are copied out are one segment. -/
theorem slices_eq_segment {data : ℕ → α} {size tail n chunk1 : ℕ} (htail : tail < size)
    (hn : n ≤ size) (hchunk : chunk1 = if tail + n ≤ size then n else size - tail) :
    slice data tail chunk1 ++ (if chunk1 < n then slice data 0 (n - chunk1) else []) =
      segment size data tail n := by
  split_ifs at hchunk with hfit
  · rw [hchunk, if_neg (by omega), List.append_nil, slice_eq_segment hfit]
  · have hfirst : slice data tail chunk1 = segment size data tail chunk1 :=
      slice_eq_segment (by omega)
    have hsecond : slice data 0 (n - chunk1) = segment size data 0 (n - chunk1) :=
      slice_eq_segment (by omega)
    rw [if_pos (by omega), hfirst, hsecond]
    have hsum : n = chunk1 + (n - chunk1) := by omega
    conv_rhs => rw [hsum]
    rw [segment_add]
    have hwrap : (tail + chunk1) % size = 0 := by
      rw [hchunk, Nat.add_sub_cancel' (Nat.le_of_lt htail), Nat.mod_self]
    rw [hwrap]

theorem copies_eq_store {src : List α} {data : ℕ → α} {size head n chunk1 : ℕ} (hhead : head < size)
    (hn : n ≤ src.length) (hchunk : chunk1 = if head + n ≤ size then n else size - head) :
    (if chunk1 < n then copy (copy data head (src.take chunk1)) 0 ((src.drop chunk1).take (n - chunk1))
      else copy data head (src.take chunk1)) = store size data head (src.take n) := by
  unfold store
  split_ifs at hchunk with hfit
  · rw [hchunk, if_neg (by omega), List.take_of_length_le (i := size - head)]
    · rw [List.drop_of_length_le]
      · funext p
        refine (copy_outside ?_).symm
        simp
      · rw [List.length_take]
        omega
    · rw [List.length_take]
      omega
  · rw [if_pos (by omega), List.take_take, List.drop_take, hchunk, Nat.min_eq_left (by omega)]

theorem segment_append_store (hp : p < size) (hn : n + l.length ≤ size) :
    segment size (store size d ((p + n) % size) l) p (n + l.length) = segment size d p n ++ l := by
  have hstart : (p + n) % size < size := Nat.mod_lt _ (by omega)
  have hbefore : segment size (store size d ((p + n) % size) l) p n = segment size d p n := by
    refine segment_congr fun i hi => ?_
    exact store_outside hstart hn hi hp rfl
  rw [segment_add, hbefore, segment_store hstart (by omega)]

end Mario.Lib
