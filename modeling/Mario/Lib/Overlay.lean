import Mathlib.Data.List.Induction
import Mathlib.Data.List.Pairwise

/-!
# Layers that cover each other

Layers are put one over the other, and at each point the last one that covers it is seen. When the
layers come in groups of rising rank, a group is seen at a point exactly when a layer of it covers
the point and no layer of a higher rank does.
-/

namespace Mario.Lib

variable {β α : Type*} (covers : β → α → Prop) [∀ b a, Decidable (covers b a)]

/-- The layer that is seen at a point. -/
def overlay (layers : List β) (a : α) : Option β := layers.reverse.find? fun b => covers b a

variable {covers} {layers : List β} {a : α} {b : β}

theorem overlay_snoc (layers : List β) (b : β) (a : α) :
    overlay covers (layers ++ [b]) a = if covers b a then some b else overlay covers layers a := by
  unfold overlay
  rw [List.reverse_append, List.reverse_singleton, List.singleton_append, List.find?_cons]
  split_ifs with h
  · rw [decide_eq_true h]
  · rw [decide_eq_false h]

theorem mem_of_overlay (h : overlay covers layers a = some b) : b ∈ layers :=
  List.mem_reverse.mp (List.mem_of_find?_eq_some h)

theorem covers_of_overlay (h : overlay covers layers a = some b) : covers b a := by
  simpa using List.find?_some h

theorem overlay_isSome (hb : b ∈ layers) (h : covers b a) : ∃ c, overlay covers layers a = some c := by
  rw [← Option.isSome_iff_exists, overlay, List.find?_isSome]
  exact ⟨b, List.mem_reverse.mpr hb, decide_eq_true h⟩

section

variable {rank : β → ℕ} (hsorted : layers.Pairwise fun b c => rank b ≤ rank c)

include hsorted

/-- No layer of a higher rank than the one that is seen covers the point. -/
theorem not_covers_of_overlay (h : overlay covers layers a = some b) {c : β} (hc : c ∈ layers)
    (hrank : rank b < rank c) : ¬ covers c a := by
  induction layers using List.reverseRecOn with
  | nil => cases hc
  | append_singleton layers d ih =>
    rw [overlay_snoc] at h
    obtain ⟨hinit, -, hlast⟩ := List.pairwise_append.mp hsorted
    split_ifs at h with hd
    · obtain rfl := Option.some.inj h
      rcases List.mem_append.mp hc with hc | hc
      · exact absurd (hlast c hc d List.mem_cons_self) (Nat.not_le.mpr hrank)
      · obtain rfl := List.mem_singleton.mp hc
        exact absurd hrank (Nat.lt_irrefl _)
    · rcases List.mem_append.mp hc with hc | hc
      · exact ih hinit h hc
      · obtain rfl := List.mem_singleton.mp hc
        exact hd

/-- A group of layers is seen where one of them covers and no higher one does. -/
theorem overlay_rank_iff (i : ℕ) :
    (∃ b, overlay covers layers a = some b ∧ rank b = i) ↔
      (∃ b ∈ layers, rank b = i ∧ covers b a) ∧ ∀ c ∈ layers, i < rank c → ¬ covers c a := by
  constructor
  · rintro ⟨b, hb, rfl⟩
    refine ⟨⟨b, mem_of_overlay hb, rfl, covers_of_overlay hb⟩, fun c hc hrank => ?_⟩
    exact not_covers_of_overlay hsorted hb hc hrank
  · rintro ⟨⟨b, hb, rfl, hcovers⟩, hhigher⟩
    obtain ⟨c, hc⟩ := overlay_isSome hb hcovers
    refine ⟨c, hc, ?_⟩
    rcases Nat.lt_trichotomy (rank c) (rank b) with hlt | heq | hlt
    · exact absurd hcovers (not_covers_of_overlay hsorted hc hb hlt)
    · exact heq
    · exact absurd (covers_of_overlay hc) (hhigher c (mem_of_overlay hc) hlt)

end

end Mario.Lib
