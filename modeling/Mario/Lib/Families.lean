import Mathlib.Data.List.Nodup
import Mathlib.Data.List.Perm.Basic

/-!
# Families of lists

A family of lists over a list of indices is one long list. When one member of
the family changes, the long list changes in that member only, up to order.
-/

namespace Mario.Lib

variable {ι α : Type*}

/-- Up to order, one member of a family stands before all the others, and the
others do not depend on it. -/
theorem flatMap_perm_member {l : List ι} (hnodup : l.Nodup) {k : ι} (hk : k ∈ l) (f : ι → List α) :
    ∃ rest, ∀ g : ι → List α, (∀ j, j ≠ k → g j = f j) → (l.flatMap g).Perm (g k ++ rest) := by
  obtain ⟨l₁, l₂, rfl⟩ := List.append_of_mem hk
  have hnot : k ∉ l₁ ++ l₂ := (List.nodup_middle.mp hnodup).notMem
  have hpart : ∀ (g : ι → List α) (m : List ι), k ∉ m → (∀ j, j ≠ k → g j = f j) →
      m.flatMap g = m.flatMap f := by
    intro g m hkm hg
    exact List.flatMap_congr fun j hj => hg j fun h => hkm (h ▸ hj)
  refine ⟨l₁.flatMap f ++ l₂.flatMap f, fun g hg => ?_⟩
  have h₁ := hpart g l₁ (fun h => hnot (List.mem_append_left _ h)) hg
  have h₂ := hpart g l₂ (fun h => hnot (List.mem_append_right _ h)) hg
  rw [List.flatMap_append, List.flatMap_cons, h₁, h₂]
  exact List.perm_append_comm_assoc ..

end Mario.Lib
