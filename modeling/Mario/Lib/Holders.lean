import Mathlib.Data.Finset.Card

/-!
# Counts of holders

Any number of processes, each of which holds at most one of a family of resources, and a count for
each resource. The counts are right when each is the number of the processes that hold the
resource.
-/

namespace Mario.Lib

open Function

variable {ι κ : Type*}
variable {ref ref' : ι → Option κ} {count count' : κ → ℕ} {i j : ι} {k : κ}

/-- Each count is the number of holders. -/
def Holders (ref : ι → Option κ) (count : κ → ℕ) : Prop :=
  ∃ users : κ → Finset ι, (∀ k i, i ∈ users k ↔ ref i = some k) ∧ ∀ k, count k = (users k).card

theorem holders_none (href : ∀ i, ref i = none) (hcount : ∀ k, count k = 0) : Holders ref count := by
  refine ⟨fun _ => ∅, fun k i => ?_, fun k => ?_⟩
  · simp [href]
  · simp [hcount]

theorem Holders.congr (h : Holders ref count) (href : ∀ i, ref' i = ref i)
    (hcount : ∀ k, count' k = count k) : Holders ref' count' := by
  obtain rfl : ref' = ref := funext href
  obtain rfl : count' = count := funext hcount
  exact h

theorem Holders.pos (h : Holders ref count) (hi : ref i = some k) : 0 < count k := by
  obtain ⟨users, hmem, hcard⟩ := h
  rw [hcard]
  exact Finset.card_pos.mpr ⟨i, (hmem k i).mpr hi⟩

theorem Holders.exists_of_pos (h : Holders ref count) (hk : count k ≠ 0) : ∃ i, ref i = some k := by
  obtain ⟨users, hmem, hcard⟩ := h
  rw [hcard] at hk
  obtain ⟨i, hi⟩ := Finset.card_pos.mp (Nat.pos_of_ne_zero hk)
  exact ⟨i, (hmem k i).mp hi⟩

variable [DecidableEq ι] [DecidableEq κ]

theorem Holders.take (h : Holders ref count) (hi : ref i = none) (hi' : ref' i = some k)
    (href : ∀ j, j ≠ i → ref' j = ref j) (hk : count' k = count k + 1)
    (hcount : ∀ m, m ≠ k → count' m = count m) : Holders ref' count' := by
  obtain ⟨users, hmem, hcard⟩ := h
  have hnot : i ∉ users k := by
    simp [hmem, hi]
  refine ⟨update users k (insert i (users k)), fun m j => ?_, fun m => ?_⟩
  · rw [update_apply]
    by_cases hj : j = i
    · rw [hj, hi', Option.some.injEq]
      split_ifs with hm
      · simp [hm]
      · simp [hmem, hi, Ne.symm hm]
    · rw [href j hj]
      split_ifs with hm
      · rw [hm, Finset.mem_insert, or_iff_right hj, hmem]
      · rw [hmem]
  · rw [update_apply]
    split_ifs with hm
    · rw [hm, hk, hcard, Finset.card_insert_of_notMem hnot]
    · rw [hcount m hm, hcard]

theorem Holders.drop (h : Holders ref count) (hi : ref i = some k) (hi' : ref' i = none)
    (href : ∀ j, j ≠ i → ref' j = ref j) (hk : count' k = count k - 1)
    (hcount : ∀ m, m ≠ k → count' m = count m) : Holders ref' count' := by
  obtain ⟨users, hmem, hcard⟩ := h
  have hin : i ∈ users k := (hmem k i).mpr hi
  refine ⟨update users k ((users k).erase i), fun m j => ?_, fun m => ?_⟩
  · rw [update_apply]
    by_cases hj : j = i
    · rw [hj, hi']
      split_ifs with hm
      · simp
      · simp [hmem, hi, Ne.symm hm]
    · rw [href j hj]
      split_ifs with hm
      · rw [hm, Finset.mem_erase, and_iff_right hj, hmem]
      · rw [hmem]
  · rw [update_apply]
    split_ifs with hm
    · rw [hm, hk, hcard, Finset.card_erase_of_mem hin]
    · rw [hcount m hm, hcard]

end Mario.Lib
