import Mathlib.Data.List.Nodup

/-!
# Circular doubly linked lists in a heap

Nodes have a `next` and a `prev` pointer, either of which may be null. `Ring L head l` says that
following `next` from `head` visits the nodes of `l` and comes back to `head`, and that `prev` goes
the same way in the other direction. The operations are the usual pointer assignments, and the
lemmas say what they do to a ring.
-/

namespace Mario.Lib

open Function

/-- The pointers of all nodes. -/
structure Links (α : Type*) where
  next : α → Option α
  prev : α → Option α

namespace Links

variable {α : Type*} {L L' : Links α} {a b x pr nx head : α} {l l₁ l₂ : List α}

/-- `a` and `b` follow each other. -/
def Adjacent (L : Links α) (a b : α) : Prop := L.next a = some b ∧ L.prev b = some a

/-- From `a` through the nodes of a list to `b`. -/
def Path (L : Links α) : α → List α → α → Prop
  | a, [], b => L.Adjacent a b
  | a, x :: l, b => L.Adjacent a x ∧ Path L x l b

/-- A list with a head. -/
def Ring (L : Links α) (head : α) (l : List α) : Prop := (head :: l).Nodup ∧ L.Path head l head

theorem Path.congr (h : L.Path a l b) (hnext : ∀ c ∈ a :: l, L'.next c = L.next c)
    (hprev : ∀ c ∈ l ++ [b], L'.prev c = L.prev c) : L'.Path a l b := by
  induction l generalizing a with
  | nil =>
    constructor
    · rw [hnext a List.mem_cons_self]
      exact h.1
    · rw [hprev b List.mem_cons_self]
      exact h.2
  | cons y l ih =>
    obtain ⟨hay, hrest⟩ := h
    constructor
    · constructor
      · rw [hnext a List.mem_cons_self]
        exact hay.1
      · rw [hprev y List.mem_cons_self]
        exact hay.2
    · exact ih hrest (fun c hc => hnext c (List.mem_cons_of_mem a hc)) (fun c hc => hprev c (List.mem_cons_of_mem y hc))

theorem path_append : L.Path a (l₁ ++ x :: l₂) b ↔ L.Path a l₁ x ∧ L.Path x l₂ b := by
  induction l₁ generalizing a with
  | nil => exact Iff.rfl
  | cons y l₁ ih => rw [List.cons_append, Path, Path, ih, and_assoc]

theorem Path.exists_prev (h : L.Path a l b) : ∃ pr ∈ a :: l, L.prev b = some pr := by
  induction l generalizing a with
  | nil => exact ⟨a, List.mem_cons_self, h.2⟩
  | cons y l ih =>
    obtain ⟨pr, hmem, hpr⟩ := ih h.2
    exact ⟨pr, List.mem_cons_of_mem a hmem, hpr⟩

theorem Path.mem_prev (h : L.Path a l b) (hpr : L.prev b = some pr) : pr ∈ a :: l := by
  obtain ⟨pr', hmem, hpr'⟩ := h.exists_prev
  obtain rfl := Option.some.inj (hpr'.symm.trans hpr)
  exact hmem

theorem Path.next_eq (h : L.Path a l b) : L.next a = some (l.headD b) := by
  cases l with
  | nil => exact h.1
  | cons y l => exact h.1.1

section

variable [DecidableEq α]

/-- Put `x` between `pr` and `nx`. -/
def listAdd (x pr nx : α) (L : Links α) : Links α :=
  { next := update (update L.next x (some nx)) pr (some x)
    prev := update (update L.prev nx (some x)) x (some pr) }

/-- Take out what is between `pr` and `nx`. -/
def listDel (pr nx : α) (L : Links α) : Links α :=
  { next := update L.next pr (some nx), prev := update L.prev nx (some pr) }

/-- A null pointer behind a node. -/
def unlink (x : α) (L : Links α) : Links α := { L with next := update L.next x none }

theorem listAdd_next (x pr nx : α) (L : Links α) (c : α) :
    (listAdd x pr nx L).next c = if c = pr then some x else if c = x then some nx else L.next c := by
  unfold listAdd
  dsimp only
  rw [update_apply, update_apply]

theorem listAdd_prev (x pr nx : α) (L : Links α) (c : α) :
    (listAdd x pr nx L).prev c = if c = x then some pr else if c = nx then some x else L.prev c := by
  unfold listAdd
  dsimp only
  rw [update_apply, update_apply]

theorem listDel_next (pr nx : α) (L : Links α) (c : α) :
    (listDel pr nx L).next c = if c = pr then some nx else L.next c := update_apply ..

theorem listDel_prev (pr nx : α) (L : Links α) (c : α) :
    (listDel pr nx L).prev c = if c = nx then some pr else L.prev c := update_apply ..

theorem unlink_next (x : α) (L : Links α) (c : α) :
    (unlink x L).next c = if c = x then none else L.next c := update_apply ..

theorem Path.add (h : L.Path a l b) (hnodup : (a :: l).Nodup) (hb : b ∉ l) (hx : x ∉ a :: l)
    (hxb : x ≠ b) (hpr : L.prev b = some pr) : (listAdd x pr b L).Path a (l ++ [x]) b := by
  induction l generalizing a with
  | nil =>
    obtain rfl := Option.some.inj (h.2.symm.trans hpr)
    have hxa : x ≠ a := List.ne_of_not_mem_cons hx
    refine ⟨⟨?_, ?_⟩, ?_, ?_⟩
    · rw [listAdd_next, if_pos rfl]
    · rw [listAdd_prev, if_pos rfl]
    · rw [listAdd_next, if_neg hxa, if_pos rfl]
    · rw [listAdd_prev, if_neg hxb.symm, if_pos rfl]
  | cons y l ih =>
    rw [List.nodup_cons] at hnodup
    rw [List.mem_cons, not_or] at hb hx
    obtain ⟨hay, hrest⟩ := h
    have hapr : a ≠ pr := fun heq => hnodup.1 (heq ▸ hrest.mem_prev hpr)
    have hyx : y ≠ x := fun heq => hx.2 (heq ▸ List.mem_cons_self)
    refine ⟨⟨?_, ?_⟩, ih hrest hnodup.2 hb.2 hx.2⟩
    · rw [listAdd_next, if_neg hapr, if_neg (Ne.symm hx.1)]
      exact hay.1
    · rw [listAdd_prev, if_neg hyx, if_neg (Ne.symm hb.1)]
      exact hay.2

/-- A node is put into a ring, in front of the node that follows a part of it. -/
theorem Ring.add (h : L.Ring head (l₁ ++ l₂)) (hx : x ∉ head :: (l₁ ++ l₂))
    (hnx : nx = l₂.headD head) (hpr : L.prev nx = some pr) : (listAdd x pr nx L).Ring head (l₁ ++ x :: l₂) := by
  obtain ⟨hnodup, hpath⟩ := h
  refine ⟨?_, ?_⟩
  · rw [← List.cons_append, List.nodup_middle, List.cons_append, List.nodup_cons]
    exact ⟨hx, hnodup⟩
  rw [List.nodup_cons, List.nodup_append] at hnodup
  simp only [List.mem_cons, List.mem_append, not_or] at hx hnodup
  obtain ⟨⟨hhead₁, hhead₂⟩, hnodup₁, hnodup₂, hdisjoint⟩ := hnodup
  have hfirst : (head :: l₁).Nodup := List.nodup_cons.mpr ⟨hhead₁, hnodup₁⟩
  have hxfirst : x ∉ head :: l₁ := by
    rw [List.mem_cons, not_or]
    exact ⟨hx.1, hx.2.1⟩
  cases l₂ with
  | nil =>
    obtain rfl : nx = head := hnx
    rw [List.append_nil] at hpath
    exact hpath.add hfirst hhead₁ hxfirst hx.1 hpr
  | cons y l₂ =>
    obtain rfl : nx = y := hnx
    obtain ⟨hleft, hright⟩ := path_append.mp hpath
    have hy₁ : nx ∉ l₁ := fun hmem => hdisjoint nx hmem nx List.mem_cons_self rfl
    have hxy : x ≠ nx := fun heq => hx.2.2 (heq ▸ List.mem_cons_self)
    have hleft' := hleft.add hfirst hy₁ hxfirst hxy hpr
    rw [List.append_cons, path_append]
    refine ⟨hleft', hright.congr (fun c hc => ?_) fun c hc => ?_⟩
    · have hcx : c ≠ x := fun heq => hx.2.2 (heq ▸ hc)
      have hcpr : c ≠ pr := by
        rintro rfl
        rcases List.mem_cons.mp (hleft.mem_prev hpr) with rfl | hmem
        · exact hhead₂ hc
        · exact hdisjoint c hmem c hc rfl
      rw [listAdd_next, if_neg hcpr, if_neg hcx]
    · rw [List.nodup_cons] at hnodup₂
      rw [List.mem_cons, not_or] at hhead₂
      have hcx : c ≠ x := by
        rintro rfl
        rcases List.mem_append.mp hc with hc | hc
        · exact hx.2.2 (List.mem_cons_of_mem nx hc)
        · exact hx.1 (List.mem_singleton.mp hc)
      have hcnx : c ≠ nx := by
        rintro rfl
        rcases List.mem_append.mp hc with hc | hc
        · exact hnodup₂.1 hc
        · exact hhead₂.1 (List.mem_singleton.mp hc).symm
      rw [listAdd_prev, if_neg hcx, if_neg hcnx]

theorem Path.del (hleft : L.Path a l₁ x) (hright : L.Path x l₂ b) (hnodup : (a :: (l₁ ++ l₂)).Nodup)
    (hb : b ∉ l₁ ++ l₂) (hpr : L.prev x = some pr) (hnx : L.next x = some nx) :
    (listDel pr nx L).Path a (l₁ ++ l₂) b := by
  induction l₁ generalizing a with
  | nil =>
    obtain rfl := Option.some.inj (hleft.2.symm.trans hpr)
    rw [List.nil_append] at hnodup hb ⊢
    rw [List.nodup_cons] at hnodup
    cases l₂ with
    | nil =>
      obtain rfl := Option.some.inj (hright.1.symm.trans hnx)
      constructor
      · rw [listDel_next, if_pos rfl]
      · rw [listDel_prev, if_pos rfl]
    | cons y l₂ =>
      obtain rfl := Option.some.inj (hright.1.1.symm.trans hnx)
      rw [List.nodup_cons] at hnodup
      rw [List.mem_cons, not_or] at hb
      refine ⟨⟨?_, ?_⟩, hright.2.congr (fun c hc => ?_) fun c hc => ?_⟩
      · rw [listDel_next, if_pos rfl]
      · rw [listDel_prev, if_pos rfl]
      · have hca : c ≠ a := fun heq => hnodup.1 (heq ▸ hc)
        rw [listDel_next, if_neg hca]
      · have hcy : c ≠ y := by
          rintro rfl
          rcases List.mem_append.mp hc with hc | hc
          · exact hnodup.2.1 hc
          · exact hb.1 (List.mem_singleton.mp hc).symm
        rw [listDel_prev, if_neg hcy]
  | cons y l₁ ih =>
    rw [List.cons_append, List.nodup_cons] at hnodup
    rw [List.cons_append, List.mem_cons, not_or] at hb
    obtain ⟨hay, hrest⟩ := hleft
    have hapr : a ≠ pr := by
      rintro rfl
      exact hnodup.1 (List.mem_append_left l₂ (hrest.mem_prev hpr))
    have hynx : y ≠ nx := by
      rintro rfl
      have hmem : y ∈ l₂ ++ [b] := by
        cases l₂ with
        | nil =>
          obtain rfl := Option.some.inj (hright.1.symm.trans hnx)
          exact List.mem_cons_self
        | cons z l₂ =>
          obtain rfl := Option.some.inj (hright.1.1.symm.trans hnx)
          exact List.mem_cons_self
      rcases List.mem_append.mp hmem with hmem | hmem
      · exact (List.nodup_cons.mp hnodup.2).1 (List.mem_append_right l₁ hmem)
      · exact hb.1 (List.mem_singleton.mp hmem).symm
    refine ⟨⟨?_, ?_⟩, ih hrest hnodup.2 hb.2⟩
    · rw [listDel_next, if_neg hapr]
      exact hay.1
    · rw [listDel_prev, if_neg hynx]
      exact hay.2

/-- A node of a ring is taken out, and its pointer to the next node is cleared. -/
theorem Ring.del (h : L.Ring head (l₁ ++ x :: l₂)) :
    ∃ pr nx, L.prev x = some pr ∧ L.next x = some nx ∧ (unlink x (listDel pr nx L)).Ring head (l₁ ++ l₂) := by
  obtain ⟨hnodup, hpath⟩ := h
  obtain ⟨hleft, hright⟩ := path_append.mp hpath
  obtain ⟨pr, -, hpr⟩ := hleft.exists_prev
  have hnx := hright.next_eq
  rw [← List.cons_append, List.nodup_middle, List.cons_append, List.nodup_cons] at hnodup
  obtain ⟨hx, hrest⟩ := hnodup
  have hdel := hleft.del hright hrest (List.nodup_cons.mp hrest).1 hpr hnx
  refine ⟨pr, l₂.headD head, hpr, hnx, hrest, hdel.congr (fun c hc => ?_) fun c _ => rfl⟩
  have hcx : c ≠ x := fun heq => hx (heq ▸ hc)
  rw [unlink_next, if_neg hcx]

end

/-- Pointers of nodes outside of a ring do not matter. -/
theorem Ring.congr (h : L.Ring head l) (hnext : ∀ c ∈ head :: l, L'.next c = L.next c)
    (hprev : ∀ c ∈ head :: l, L'.prev c = L.prev c) : L'.Ring head l := by
  refine ⟨h.1, h.2.congr hnext fun c hc => hprev c ?_⟩
  rcases List.mem_append.mp hc with hc | hc
  · exact List.mem_cons_of_mem head hc
  · rw [List.mem_singleton.mp hc]
    exact List.mem_cons_self

theorem Ring.next_ne_none (h : L.Ring head l) (hx : x ∈ head :: l) : L.next x ≠ none := by
  have hnext : ∃ nx, L.next x = some nx := by
    rcases List.mem_cons.mp hx with rfl | hx
    · exact ⟨_, h.2.next_eq⟩
    · obtain ⟨l₁, l₂, rfl⟩ := List.append_of_mem hx
      exact ⟨_, (path_append.mp h.2).2.next_eq⟩
  obtain ⟨nx, hnx⟩ := hnext
  rw [hnx]
  exact Option.some_ne_none nx

theorem Ring.exists_prev (h : L.Ring head l) (hx : x ∈ head :: l) : ∃ pr, L.prev x = some pr := by
  rcases List.mem_cons.mp hx with rfl | hx
  · obtain ⟨pr, -, hpr⟩ := h.2.exists_prev
    exact ⟨pr, hpr⟩
  · obtain ⟨l₁, l₂, rfl⟩ := List.append_of_mem hx
    obtain ⟨pr, -, hpr⟩ := (path_append.mp h.2).1.exists_prev
    exact ⟨pr, hpr⟩

theorem Ring.mem_prev (h : L.Ring head l) (hx : x ∈ head :: l) (hpr : L.prev x = some pr) : pr ∈ head :: l := by
  rcases List.mem_cons.mp hx with rfl | hx
  · exact h.2.mem_prev hpr
  · obtain ⟨l₁, l₂, rfl⟩ := List.append_of_mem hx
    have hmem := (path_append.mp h.2).1.mem_prev hpr
    rw [← List.cons_append]
    exact List.mem_append_left _ hmem

end Links

end Mario.Lib
