import Mathlib.Algebra.BigOperators.Group.List.Basic
import Mathlib.Algebra.GroupWithZero.Nat
import Mathlib.Data.List.Count

/-!
# Totals

References to a resource are held in several places: the entries of tables, of which there are any
number, and the cells of an array. What is held in all of them is a sum over a list, or the number
of the cells with a property; the lemmas say how it changes when one entry or one cell does.
-/

namespace Mario.Lib

variable {α : Type*} {g : α → ℕ} {l : List α} {x y : α} {k n : ℕ}

/-- The sum of a measure over a list. -/
def total (g : α → ℕ) (l : List α) : ℕ := (l.map g).sum

@[simp] theorem total_nil (g : α → ℕ) : total g [] = 0 := rfl

@[simp] theorem total_cons (g : α → ℕ) (x : α) (l : List α) : total g (x :: l) = g x + total g l := by
  rw [total, List.map_cons, List.sum_cons, total]

@[simp] theorem total_append (g : α → ℕ) (l l' : List α) : total g (l ++ l') = total g l + total g l' := by
  rw [total, List.map_append, List.sum_append, total, total]

theorem total_set (h : l[k]? = some x) : total g (l.set k y) + g x = total g l + g y := by
  induction l generalizing k with
  | nil => simp at h
  | cons z l ih =>
    cases k with
    | zero =>
      obtain rfl : z = x := by simpa using h
      simp only [List.set_cons_zero, total_cons]
      omega
    | succ k =>
      have hrest := ih (k := k) (by simpa using h)
      simp only [List.set_cons_succ, total_cons]
      omega

theorem total_modify {F : α → α} (h : l[k]? = some x) : total g (l.modify k F) + g x = total g l + g (F x) := by
  rw [List.modify_eq_set_getElem?, h]
  exact total_set h

theorem le_total (h : l[k]? = some x) : g x ≤ total g l := by
  obtain ⟨before, after, rfl⟩ := List.append_of_mem (List.mem_of_getElem? h)
  rw [total_append, total_cons]
  omega

theorem total_eq_zero (h : ∀ x ∈ l, g x = 0) : total g l = 0 := by
  induction l with
  | nil => rfl
  | cons x l ih =>
    rw [total_cons, h x List.mem_cons_self, ih fun y hy => h y (List.mem_cons_of_mem x hy)]

theorem total_mono {f : α → ℕ} (h : ∀ x ∈ l, f x ≤ g x) : total f l ≤ total g l := by
  induction l with
  | nil => exact Nat.le_refl _
  | cons x l ih =>
    rw [total_cons, total_cons]
    have hx := h x List.mem_cons_self
    have hl := ih fun y hy => h y (List.mem_cons_of_mem x hy)
    omega

theorem total_congr {f : α → ℕ} (h : ∀ x ∈ l, f x = g x) : total f l = total g l := by
  rw [total, total, List.map_congr_left h]

theorem total_range_succ (f : ℕ → ℕ) (n : ℕ) : total f (List.range (n + 1)) = total f (List.range n) + f n := by
  rw [List.range_succ, total_append, total_cons, total_nil, Nat.add_zero]

/-- The measure of one of the first `n` numbers changes. -/
theorem total_range_change {e f : ℕ → ℕ} (hk : k < n) (h : ∀ m, m ≠ k → e m = f m) :
    total e (List.range n) + f k = total f (List.range n) + e k := by
  induction n with
  | zero => omega
  | succ n ih =>
    rw [total_range_succ, total_range_succ]
    by_cases hkn : k = n
    · subst hkn
      have hsame : total e (List.range k) = total f (List.range k) :=
        total_congr fun m hm => h m (Nat.ne_of_lt (List.mem_range.mp hm))
      omega
    · have hrest := ih (by omega)
      rw [h n (Ne.symm hkn)]
      omega

/-- The number of the first `n` cells with a property. -/
def cells (n : ℕ) (p : ℕ → Bool) : ℕ := (List.range n).countP p

theorem cells_congr {p q : ℕ → Bool} (h : ∀ k < n, p k = q k) : cells n p = cells n q := by
  refine List.countP_congr fun k hk => ?_
  rw [h k (List.mem_range.mp hk)]

theorem cells_change {p q : ℕ → Bool} (hk : k < n) (h : ∀ m, m ≠ k → q m = p m) :
    cells n q + (p k).toNat = cells n p + (q k).toNat := by
  induction n with
  | zero => omega
  | succ n ih =>
    unfold cells
    rw [List.range_succ, List.countP_append, List.countP_append, List.countP_singleton, List.countP_singleton]
    by_cases hkn : k = n
    · subst hkn
      have hsame : cells k q = cells k p := cells_congr fun m hm => h m (by omega)
      unfold cells at hsame
      cases p k <;> cases q k <;> simp <;> omega
    · have hrest := ih (by omega)
      rw [h n (Ne.symm hkn)]
      unfold cells at hrest
      omega

theorem cells_pos {p : ℕ → Bool} : 0 < cells n p ↔ ∃ k < n, p k = true := by
  rw [cells, List.countP_pos_iff]
  simp only [List.mem_range]

theorem cells_eq_zero {p : ℕ → Bool} : cells n p = 0 ↔ ∀ k < n, p k = false := by
  rw [cells, List.countP_eq_zero]
  simp only [List.mem_range, Bool.not_eq_true]

end Mario.Lib
