import Mathlib.Data.List.Perm.Basic
import Mathlib.Data.List.TakeWhile

/-!
# Recency lists with a free prefix

A cache keeps its slots in a list, the free ones first. A slot that gets busy moves to the end; a
slot that gets free moves to the end of the free ones. So the first slot is busy only when all of
them are.
-/

namespace Mario.Lib

variable {α : Type*} {busy busy' : α → Bool} {l : List α} {x : α}

/-- Nothing free comes after something busy. -/
def FreePrefix (busy : α → Bool) (l : List α) : Prop :=
  l.Pairwise fun a b => busy a = true → busy b = true

theorem FreePrefix.congr (h : FreePrefix busy l) (hbusy : ∀ a ∈ l, busy' a = busy a) : FreePrefix busy' l := by
  refine List.Pairwise.imp_of_mem ?_ h
  intro a b ha hb hab
  rw [hbusy a ha, hbusy b hb]
  exact hab

theorem FreePrefix.all_busy (h : FreePrefix busy (x :: l)) (hx : busy x = true) : ∀ a ∈ x :: l, busy a = true := by
  intro a ha
  rcases List.mem_cons.mp ha with rfl | ha
  · exact hx
  · exact (List.pairwise_cons.mp h).1 a ha hx

variable [DecidableEq α]

/-- Move an element to the end. -/
def toTail (x : α) (l : List α) : List α := l.erase x ++ [x]

/-- Move an element before the first busy one. -/
def toPrefix (busy : α → Bool) (x : α) (l : List α) : List α :=
  (l.erase x).takeWhile (fun a => !busy a) ++ x :: (l.erase x).dropWhile (fun a => !busy a)

theorem toTail_perm (hx : x ∈ l) : (toTail x l).Perm l :=
  (List.perm_append_singleton x (l.erase x)).trans (List.perm_cons_erase hx).symm

theorem toPrefix_perm (hx : x ∈ l) : (toPrefix busy x l).Perm l := by
  have hmiddle : (toPrefix busy x l).Perm (x :: l.erase x) := by
    unfold toPrefix
    conv_rhs => rw [← List.takeWhile_append_dropWhile (p := fun a => !busy a) (l := l.erase x)]
    exact List.perm_middle
  exact hmiddle.trans (List.perm_cons_erase hx).symm

theorem FreePrefix.erase (h : FreePrefix busy l) (x : α) : FreePrefix busy (l.erase x) :=
  h.sublist List.erase_sublist

theorem FreePrefix.toTail (h : FreePrefix busy l) (hnodup : l.Nodup) (hx : busy' x = true)
    (hbusy : ∀ a, a ≠ x → busy' a = busy a) : FreePrefix busy' (toTail x l) := by
  have hrest : FreePrefix busy' (l.erase x) :=
    (h.erase x).congr fun a ha => hbusy a (hnodup.mem_erase_iff.mp ha).1
  refine List.pairwise_append.mpr ⟨hrest, List.pairwise_singleton _ _, ?_⟩
  intro a _ b hb _
  rw [List.mem_singleton.mp hb]
  exact hx

/-- An element that gets free moves to the end of the free ones. -/
theorem FreePrefix.toPrefix (h : FreePrefix busy l) (hnodup : l.Nodup) (hx : busy' x = false)
    (hbusy : ∀ a, a ≠ x → busy' a = busy a) : FreePrefix busy' (toPrefix busy' x l) := by
  have hrest : FreePrefix busy' (l.erase x) :=
    (h.erase x).congr fun a ha => hbusy a (hnodup.mem_erase_iff.mp ha).1
  have hfree : ∀ a ∈ (l.erase x).takeWhile (fun a => !busy' a), busy' a = false := by
    intro a ha
    simpa using List.mem_takeWhile_imp ha
  rw [Mario.Lib.toPrefix]
  refine List.pairwise_append.mpr ⟨hrest.sublist (List.takeWhile_sublist _),
    List.pairwise_cons.mpr ⟨?_, hrest.sublist (List.dropWhile_sublist _)⟩, ?_⟩
  · intro b _ hxb
    rw [hx] at hxb
    cases hxb
  · intro a ha b _ hab
    rw [hfree a ha] at hab
    cases hab

end Mario.Lib
