import Mario.Lib.LinkedList
import Mathlib.Data.List.Perm.Subperm

/-!
# Chains

Cells linked by a successor function. `Leads next p l q` says that following `next` from `p` visits
the cells of `l` and is then at `q`; a linked list is a chain that leads to the null pointer. A chain
is lengthened, cut and spliced by writing the successor of one cell.
-/

namespace Mario.Lib

open Function

variable {α : Type*}

/-- Following `next` from `p` visits the cells of `l` and is then at `q`. -/
def Leads (next : α → α) : α → List α → α → Prop
  | p, [], q => p = q
  | p, a :: l, q => p = a ∧ Leads next (next a) l q

variable {next next' : α → α} {null p q r a : α} {l l' : List α}

theorem Leads.congr (h : Leads next p l q) (hnext : ∀ a ∈ l, next' a = next a) : Leads next' p l q := by
  induction l generalizing p with
  | nil => exact h
  | cons a l ih =>
    refine ⟨h.1, ?_⟩
    rw [hnext a List.mem_cons_self]
    exact ih h.2 fun b hb => hnext b (List.mem_cons_of_mem a hb)

theorem Leads.append (h : Leads next p l q) (h' : Leads next q l' r) : Leads next p (l ++ l') r := by
  induction l generalizing p with
  | nil =>
    obtain rfl : p = q := h
    exact h'
  | cons a l ih => exact ⟨h.1, ih h.2⟩

/-- A chain passes through the cell between its two parts. -/
theorem Leads.split (h : Leads next p (l ++ l') r) : ∃ q, Leads next p l q ∧ Leads next q l' r := by
  induction l generalizing p with
  | nil => exact ⟨p, rfl, h⟩
  | cons a l ih =>
    obtain ⟨q, hq, hrest⟩ := ih h.2
    exact ⟨q, ⟨h.1, hq⟩, hrest⟩

/-- A chain with its last cell written leads to what was written. -/
theorem Leads.redirect [DecidableEq α] (h : Leads next p (l ++ [a]) q) (ha : a ∉ l) (r : α) :
    Leads (update next a r) p (l ++ [a]) r := by
  obtain ⟨b, hb, rfl, -⟩ := h.split
  have hlast : Leads (update next b r) b [b] r :=
    ⟨rfl, show update next b r b = r from update_self b r next⟩
  refine Leads.append (hb.congr fun c hc => update_of_ne ?_ r next) hlast
  rintro rfl
  exact ha hc

theorem linked_iff_leads : Linked next null p l ↔ Leads next p l null ∧ null ∉ l := by
  induction l generalizing p with
  | nil => simp [Linked, Leads]
  | cons a l ih =>
    simp only [Linked, Leads, ih, List.mem_cons, not_or]
    constructor
    · rintro ⟨rfl, hne, hrest, hnull⟩
      exact ⟨⟨rfl, hrest⟩, Ne.symm hne, hnull⟩
    · rintro ⟨⟨rfl, hrest⟩, hne, hnull⟩
      exact ⟨rfl, Ne.symm hne, hrest, hnull⟩

theorem Linked.leads (h : Linked next null p l) : Leads next p l null := (linked_iff_leads.mp h).1

theorem Linked.null_not_mem (h : Linked next null p l) : null ∉ l := (linked_iff_leads.mp h).2

/-- The cells of a linked list are determined by its head. -/
theorem Linked.unique (h : Linked next null p l) (h' : Linked next null p l') : l = l' := by
  induction l generalizing p l' with
  | nil =>
    obtain rfl : p = null := h
    exact h'.eq_nil.symm
  | cons a l ih =>
    obtain ⟨rfl, hne, hrest⟩ := h
    obtain ⟨l'', rfl, hrest'⟩ := h'.exists_cons hne
    rw [ih hrest hrest']

theorem Linked.suffix (h : Linked next null p (l ++ l')) : ∃ q, Leads next p l q ∧ Linked next null q l' := by
  obtain ⟨q, hq, hrest⟩ := h.leads.split
  refine ⟨q, hq, linked_iff_leads.mpr ⟨hrest, fun hmem => ?_⟩⟩
  exact h.null_not_mem (List.mem_append_right l hmem)

/-- A linked list has no cell twice: the list from there would be two. -/
theorem Linked.nodup (h : Linked next null p l) : l.Nodup := by
  induction l generalizing p with
  | nil => exact List.nodup_nil
  | cons a l ih =>
    refine List.nodup_cons.mpr ⟨fun hmem => ?_, ih h.2.2⟩
    obtain ⟨l₁, l₂, rfl⟩ := List.append_of_mem hmem
    obtain ⟨q, -, hq⟩ := h.2.2.suffix
    have hhead : p = q := h.1.trans hq.1.symm
    subst hhead
    have hlength := congrArg List.length (hq.unique h)
    simp only [List.length_cons, List.length_append] at hlength
    omega

theorem Leads.linked (h : Leads next p l q) (hnull : null ∉ l) (h' : Linked next null q l') :
    Linked next null p (l ++ l') := by
  refine linked_iff_leads.mpr ⟨h.append h'.leads, fun hmem => ?_⟩
  rcases List.mem_append.mp hmem with hl | hl
  · exact hnull hl
  · exact h'.null_not_mem hl

/-- A linked list is not empty when its head is not null. -/
theorem Linked.ne_nil (h : Linked next null p l) (hp : p ≠ null) : l ≠ [] := by
  obtain ⟨l', rfl, -⟩ := h.exists_cons hp
  exact List.cons_ne_nil p l'

theorem Linked.head_mem (h : Linked next null p l) (hp : p ≠ null) : p ∈ l := by
  obtain ⟨l', rfl, -⟩ := h.exists_cons hp
  exact List.mem_cons_self

/-- The successor of a cell of a linked list is one of its cells, or the cell is the last. -/
theorem Linked.next_mem (h : Linked next null p l) (ha : a ∈ l) (hne : next a ≠ null) : next a ∈ l := by
  obtain ⟨l₁, l₂, rfl⟩ := List.append_of_mem ha
  obtain ⟨q, -, hq⟩ := h.suffix
  exact List.mem_append_right l₁ (List.mem_cons_of_mem a (hq.2.2.head_mem hne))

theorem Linked.eq_append_of_null (h : Linked next null p l) (ha : a ∈ l) (hnull : next a = null) :
    ∃ l₁, l = l₁ ++ [a] := by
  obtain ⟨l₁, l₂, rfl⟩ := List.append_of_mem ha
  obtain ⟨q, -, hq⟩ := h.suffix
  have hrest := hq.2.2
  rw [hnull] at hrest
  rw [hrest.eq_nil]
  exact ⟨l₁, rfl⟩

theorem length_le_of_nodup {n : ℕ} {l : List ℕ} (h : l.Nodup) (hlt : ∀ b ∈ l, b < n) : l.length ≤ n := by
  have hsub : l ⊆ List.range n := fun b hb => List.mem_range.mpr (hlt b hb)
  simpa using (h.subperm hsub).length_le

end Mario.Lib
