import Mathlib.Algebra.Order.Group.Unbundled.Int
import Mathlib.Data.List.Perm.Basic

/-!
# Reference counts

A pool of resources with a count for each and a set of free ones. The holders of
references are a list in which a resource stands once for every reference to it.
The pool is balanced when the counts are the multiplicities in that list and no
free resource is in it; taking and dropping a reference keeps it balanced, and a
resource goes back to the free ones only when nobody refers to it.
-/

namespace Mario.Lib

open Function

variable {α : Type*} [DecidableEq α]

/-- Counts and free resources. -/
structure Pool (α : Type*) where
  count : α → ℤ
  free : α → Bool

namespace Pool

/-- Take a reference. -/
def ref (a : α) (s : Pool α) : Pool α :=
  { s with count := update s.count a (s.count a + 1) }

/-- Drop a reference; the resource is free when the count reaches zero. -/
def put (a : α) (s : Pool α) : Pool α :=
  { count := update s.count a (s.count a - 1)
    free := if s.count a - 1 = 0 then update s.free a true else s.free }

/-- Allocate a resource, with a count of one. -/
def take (a : α) (s : Pool α) : Pool α :=
  { count := update s.count a 1, free := update s.free a false }

/-- The counts are the numbers of references, and nobody refers to a free resource. -/
structure Balanced (s : Pool α) (owners : List α) : Prop where
  count_eq : ∀ a, s.count a = owners.count a
  unused : ∀ a, s.free a = true → a ∉ owners

variable {s : Pool α} {owners owners' : List α} {a : α}

theorem Balanced.perm (h : s.Balanced owners) (hperm : owners.Perm owners') : s.Balanced owners' := by
  constructor
  · intro b
    rw [h.count_eq b, hperm.count_eq b]
  · intro b hb hmem
    exact h.unused b hb (hperm.mem_iff.mpr hmem)

theorem Balanced.ref (h : s.Balanced owners) (hfree : s.free a = false) : (s.ref a).Balanced (a :: owners) := by
  constructor
  · intro b
    have hb := h.count_eq b
    by_cases hba : b = a
    · subst hba
      simp only [Pool.ref, update_self, List.count_cons_self, hb]
      push_cast
      omega
    · simp only [Pool.ref, update_of_ne hba, hb, List.count_cons_of_ne (Ne.symm hba)]
  · intro b hb hmem
    rcases List.mem_cons.mp hmem with rfl | hmem
    · rw [Pool.ref] at hb
      rw [hb] at hfree
      cases hfree
    · exact h.unused b hb hmem

theorem Balanced.not_free (h : s.Balanced owners) (hmem : a ∈ owners) : s.free a = false := by
  by_contra hfree
  exact h.unused a (by simpa using hfree) hmem

theorem Balanced.put (h : s.Balanced (a :: owners)) : (s.put a).Balanced owners := by
  have hcount : ∀ b, (s.put a).count b = owners.count b := by
    intro b
    have hb := h.count_eq b
    by_cases hba : b = a
    · subst hba
      rw [List.count_cons_self] at hb
      simp only [Pool.put, update_self, hb]
      push_cast
      omega
    · rw [List.count_cons_of_ne (Ne.symm hba)] at hb
      simp only [Pool.put, update_of_ne hba, hb]
  constructor
  · exact hcount
  · intro b hb hmem
    have hpos := List.count_pos_iff.mpr hmem
    by_cases hba : b = a
    · subst hba
      have hzero := hcount b
      simp only [Pool.put, update_self] at hzero hb
      rw [if_neg (by omega)] at hb
      exact h.unused b hb List.mem_cons_self
    · have hold : s.free b = true := by
        simp only [Pool.put] at hb
        split_ifs at hb
        · rwa [update_of_ne hba] at hb
        · exact hb
      exact h.unused b hold (List.mem_cons_of_mem a hmem)

theorem Balanced.take (h : s.Balanced owners) (hfree : s.free a = true) : (s.take a).Balanced (a :: owners) := by
  have hzero : owners.count a = 0 := List.count_eq_zero.mpr (h.unused a hfree)
  constructor
  · intro b
    by_cases hba : b = a
    · subst hba
      simp only [Pool.take, update_self, List.count_cons_self, hzero]
      rfl
    · simp only [Pool.take, update_of_ne hba, h.count_eq b, List.count_cons_of_ne (Ne.symm hba)]
  · intro b hb hmem
    by_cases hba : b = a
    · subst hba
      simp only [Pool.take, update_self] at hb
      cases hb
    · simp only [Pool.take, update_of_ne hba] at hb
      rcases List.mem_cons.mp hmem with rfl | hmem
      · exact hba rfl
      · exact h.unused b hb hmem

/-! ## Moving references

What an operation does to the references that it works on, whoever holds the other
ones: the statements leave the rest of the holders open, so they can be used inside
any system and one after the other. -/

/-- The references `o` become the references `o'`, and no resource comes from
elsewhere. -/
structure Moves (s s' : Pool α) (o o' : List α) : Prop where
  balanced : ∀ rest, s.Balanced (o ++ rest) → s'.Balanced (o' ++ rest)
  source : ∀ a, s'.free a = true ∨ a ∈ o' → s.free a = true ∨ a ∈ o

variable {s' s'' : Pool α} {o o' o'' : List α}

theorem Moves.refl (s : Pool α) (o : List α) : Moves s s o o := ⟨fun _ h => h, fun _ h => h⟩

theorem Moves.trans (h : Moves s s' o o') (h' : Moves s' s'' o' o'') : Moves s s'' o o'' :=
  ⟨fun rest hbal => h'.balanced rest (h.balanced rest hbal), fun a ha => h.source a (h'.source a ha)⟩

theorem Moves.perm {p p' : List α} (h : Moves s s' o o') (hp : o.Perm p) (hp' : o'.Perm p') : Moves s s' p p' := by
  constructor
  · intro rest hbal
    exact (h.balanced rest (hbal.perm (hp.append_right rest).symm)).perm (hp'.append_right rest)
  · intro a ha
    rw [← hp.mem_iff]
    rw [← hp'.mem_iff] at ha
    exact h.source a ha

/-- The references that an operation does not touch stay. -/
theorem Moves.frame (h : Moves s s' o o') (r : List α) : Moves s s' (o ++ r) (o' ++ r) := by
  constructor
  · intro rest hbal
    rw [List.append_assoc] at hbal ⊢
    exact h.balanced _ hbal
  · intro a ha
    rw [List.mem_append] at ha ⊢
    have := h.source a
    tauto

theorem moves_ref (hmem : a ∈ o) : Moves s (s.ref a) o (a :: o) := by
  constructor
  · intro rest hbal
    exact hbal.ref (hbal.not_free (List.mem_append_left rest hmem))
  · intro b hb
    rcases hb with hb | hb
    · exact Or.inl hb
    · rcases List.mem_cons.mp hb with rfl | hb
      · exact Or.inr hmem
      · exact Or.inr hb

theorem moves_put : Moves s (s.put a) (a :: o) o := by
  constructor
  · intro rest hbal
    exact Balanced.put hbal
  · intro b hb
    rcases hb with hb | hb
    · by_cases hba : b = a
      · subst hba
        exact Or.inr List.mem_cons_self
      · left
        simp only [Pool.put] at hb
        split_ifs at hb
        · rwa [update_of_ne hba] at hb
        · exact hb
    · exact Or.inr (List.mem_cons_of_mem a hb)

theorem moves_take (hfree : s.free a = true) : Moves s (s.take a) o (a :: o) := by
  constructor
  · intro rest hbal
    exact hbal.take hfree
  · intro b hb
    by_cases hba : b = a
    · subst hba
      exact Or.inl hfree
    · rcases hb with hb | hb
      · simp only [Pool.take, update_of_ne hba] at hb
        exact Or.inl hb
      · rcases List.mem_cons.mp hb with rfl | hb
        · exact absurd rfl hba
        · exact Or.inr hb

/-- Take several references, to resources that are referred to already. -/
theorem moves_refAll {l : List α} (hmem : ∀ a ∈ l, a ∈ o) : Moves s (l.foldl (fun s a => s.ref a) s) o (l ++ o) := by
  induction l generalizing s o with
  | nil => exact Moves.refl s o
  | cons a l ih =>
    have hfirst : Moves s (s.ref a) o (a :: o) := moves_ref (hmem a List.mem_cons_self)
    have hrest := ih (s := s.ref a) (o := a :: o) fun b hb =>
      List.mem_cons_of_mem a (hmem b (List.mem_cons_of_mem a hb))
    exact (hfirst.trans hrest).perm (List.Perm.refl _) List.perm_middle

theorem moves_putAll {l : List α} : Moves s (l.foldl (fun s a => s.put a) s) (l ++ o) o := by
  induction l generalizing s with
  | nil => exact Moves.refl s o
  | cons a l ih => exact moves_put.trans ih

/-- A resource with one reference, held elsewhere, keeps its count. -/
theorem Moves.keeps_one {rest : List α} (h : Moves s s' o o') (hbal : s.Balanced (o ++ rest))
    (hmem : a ∈ rest) (hone : s.count a = 1) : s'.count a = 1 := by
  have hpos := List.count_pos_iff.mpr hmem
  have hcount := hbal.count_eq a
  rw [List.count_append] at hcount
  have hnot : a ∉ o := by
    intro ha
    have := List.count_pos_iff.mpr ha
    omega
  have hnot' : a ∉ o' := by
    intro ha
    rcases h.source a (Or.inr ha) with hfree | ho
    · exact hbal.unused a hfree (List.mem_append_right o hmem)
    · exact hnot ho
  rw [(h.balanced rest hbal).count_eq a, List.count_append, List.count_eq_zero.mpr hnot']
  rw [List.count_eq_zero.mpr hnot] at hcount
  omega

end Pool

end Mario.Lib
