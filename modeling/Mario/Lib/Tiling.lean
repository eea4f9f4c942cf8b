import Mathlib.Algebra.BigOperators.Group.List.Basic
import Mathlib.Data.List.Pairwise
import Mathlib.Tactic.Ring

/-!
# Tilings by dyadic blocks

A block `(p, k)` stands for the `2 ^ k` consecutive numbers from `p` on. How
often a list of blocks covers a number is invariant under reordering the list
and under splitting a block into its halves, and a list that covers nothing
twice has pairwise disjoint blocks.
-/

namespace Mario.Lib

/-- The number `x` lies in the block. -/
def InBlock (b : ℕ × ℕ) (x : ℕ) : Prop := b.1 ≤ x ∧ x < b.1 + 2 ^ b.2

instance (b : ℕ × ℕ) (x : ℕ) : Decidable (InBlock b x) := inferInstanceAs (Decidable (_ ∧ _))

/-- Two blocks have no number in common. -/
def BlockDisjoint (a b : ℕ × ℕ) : Prop := a.1 + 2 ^ a.2 ≤ b.1 ∨ b.1 + 2 ^ b.2 ≤ a.1

/-- How many blocks of the list cover `x`. -/
def covering (l : List (ℕ × ℕ)) (x : ℕ) : ℕ := l.countP (fun b => decide (InBlock b x))

theorem covering_perm {l l' : List (ℕ × ℕ)} (h : l.Perm l') (x : ℕ) : covering l x = covering l' x := h.countP_eq _

theorem covering_cons (b : ℕ × ℕ) (l : List (ℕ × ℕ)) (x : ℕ) :
    covering (b :: l) x = covering l x + if InBlock b x then 1 else 0 := by
  simp only [covering, List.countP_cons, decide_eq_true_eq]

/-- Splitting a block into its halves changes no cover count. -/
theorem covering_split (p k : ℕ) (l : List (ℕ × ℕ)) (x : ℕ) :
    covering ((p, k + 1) :: l) x = covering ((p, k) :: (p + 2 ^ k, k) :: l) x := by
  have hpow : 2 ^ (k + 1) = 2 ^ k + 2 ^ k := by ring
  have hpos := Nat.two_pow_pos k
  simp only [covering_cons, InBlock, hpow]
  by_cases hlow : p ≤ x
  · by_cases hmid : p + 2 ^ k ≤ x
    · have hright : p + 2 ^ k + 2 ^ k = p + (2 ^ k + 2 ^ k) := by omega
      simp only [hlow, hmid, hright, true_and, not_lt.mpr hmid, if_false, add_zero]
    · have hleft : x < p + (2 ^ k + 2 ^ k) := by omega
      simp only [hlow, hmid, hleft, not_le.mp hmid, true_and, false_and, if_true, if_false, add_zero]
  · have hmid : ¬ p + 2 ^ k ≤ x := by omega
    simp only [hlow, hmid, false_and, if_false, add_zero]

theorem inBlock_self (b : ℕ × ℕ) : InBlock b b.1 :=
  ⟨le_rfl, by have := Nat.two_pow_pos b.2; omega⟩

theorem covering_pos_iff {l : List (ℕ × ℕ)} {x : ℕ} : 0 < covering l x ↔ ∃ b ∈ l, InBlock b x := by
  simp only [covering, List.countP_pos_iff, decide_eq_true_eq]

/-- Blocks of a list that covers nothing twice are pairwise disjoint. -/
theorem pairwise_disjoint_of_covering {l : List (ℕ × ℕ)} (h : ∀ x, covering l x ≤ 1) : l.Pairwise BlockDisjoint := by
  induction l with
  | nil => exact List.Pairwise.nil
  | cons b l ih =>
    have hcons : ∀ x, covering l x + (if InBlock b x then 1 else 0) ≤ 1 := fun x => by
      rw [← covering_cons]
      exact h x
    refine List.pairwise_cons.mpr ⟨fun c hc => ?_, ih (fun x => by have := hcons x; omega)⟩
    by_contra hdis
    simp only [BlockDisjoint, not_or, not_le] at hdis
    have hbpos := Nat.two_pow_pos b.2
    have hcpos := Nat.two_pow_pos c.2
    have hb : InBlock b (max b.1 c.1) := ⟨le_max_left .., by omega⟩
    have hcx : InBlock c (max b.1 c.1) := ⟨le_max_right .., by omega⟩
    have hpos : 0 < covering l (max b.1 c.1) := covering_pos_iff.mpr ⟨c, hc, hcx⟩
    have hbound := hcons (max b.1 c.1)
    rw [if_pos hb] at hbound
    omega

/-- A block that is covered once, by itself, is disjoint from the other blocks. -/
theorem not_inBlock_of_covering {b c : ℕ × ℕ} {l : List (ℕ × ℕ)} {x : ℕ}
    (h : covering (b :: l) x ≤ 1) (hb : InBlock b x) (hc : c ∈ l) : ¬ InBlock c x := by
  intro hcx
  have hpos : 0 < covering l x := covering_pos_iff.mpr ⟨c, hc, hcx⟩
  rw [covering_cons, if_pos hb] at h
  omega

/-- An aligned block is the numbers that have its quotient. -/
theorem inBlock_iff_div {p k : ℕ} (hp : 2 ^ k ∣ p) {x : ℕ} : InBlock (p, k) x ↔ x / 2 ^ k = p / 2 ^ k := by
  obtain ⟨a, rfl⟩ := hp
  rw [Nat.mul_div_cancel_left a (Nat.two_pow_pos k), Nat.div_eq_iff (Nat.two_pow_pos k), Nat.mul_comm a]
  change _ ∧ x < 2 ^ k * a + 2 ^ k ↔ _
  have hpos := Nat.two_pow_pos k
  omega

/-- Of two aligned blocks with a number in common, the larger one has all of the smaller one. -/
theorem inBlock_nested {p k q j x y : ℕ} (hle : k ≤ j) (hp : 2 ^ k ∣ p) (hq : 2 ^ j ∣ q) (hxp : InBlock (p, k) x)
    (hxq : InBlock (q, j) x) (hy : InBlock (p, k) y) : InBlock (q, j) y := by
  rw [inBlock_iff_div hp] at hxp hy
  rw [inBlock_iff_div hq] at hxq ⊢
  rw [← hxq, ← Nat.add_sub_cancel' hle, pow_add, ← Nat.div_div_eq_div_mul, ← Nat.div_div_eq_div_mul, hy, hxp]

end Mario.Lib
