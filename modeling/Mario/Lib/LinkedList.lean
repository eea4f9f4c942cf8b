import Mathlib.Data.List.Nodup

/-!
# Null-terminated linked lists in a heap

A heap gives every node a successor. `Linked next null p l` says that following
`next` from `p` visits exactly the nodes of `l`, in that order, and then meets
the null pointer. The lemmas are the ones that pushing, popping and writing to a
node outside the list need.
-/

namespace Mario.Lib

variable {α : Type*}

/-- Following `next` from `p` visits the nodes of `l` and then meets `null`. -/
def Linked (next : α → α) (null : α) : α → List α → Prop
  | p, [] => p = null
  | p, a :: l => p = a ∧ a ≠ null ∧ Linked next null (next a) l

theorem Linked.congr {next next' : α → α} {null p : α} {l : List α}
    (h : Linked next null p l) (hnext : ∀ a ∈ l, next' a = next a) : Linked next' null p l := by
  induction l generalizing p with
  | nil => exact h
  | cons a l ih =>
    obtain ⟨hp, ha, hrest⟩ := h
    refine ⟨hp, ha, ?_⟩
    rw [hnext a List.mem_cons_self]
    exact ih hrest (fun b hb => hnext b (List.mem_cons_of_mem a hb))

/-- A non-null head pointer is the first node of the list. -/
theorem Linked.exists_cons {next : α → α} {null p : α} {l : List α} (h : Linked next null p l) (hp : p ≠ null) :
    ∃ l', l = p :: l' ∧ Linked next null (next p) l' := by
  cases l with
  | nil => exact absurd h hp
  | cons a l' =>
    obtain ⟨rfl, _, hrest⟩ := h
    exact ⟨l', rfl, hrest⟩

theorem Linked.eq_nil {next : α → α} {null : α} {l : List α} (h : Linked next null null l) : l = [] := by
  cases l with
  | nil => rfl
  | cons a l =>
    obtain ⟨rfl, ha, _⟩ := h
    exact absurd rfl ha

end Mario.Lib
