import Mathlib.Algebra.Group.Nat.Defs
import Mathlib.Data.List.Flatten
import Mathlib.Data.List.Nodup
import Mathlib.Data.List.Perm.Basic

/-!
# Trees of pointers

Data that is reached over levels of nodes with a fixed number of pointers each. The tree is read off the function
that gives the pointers of a node, and the null pointer is zero. The last part is the cutting of such a tree at a
bound, by a walk that leaves a subtree alone which ends below the bound.
-/

namespace Mario.Lib.PointerTree

/-- What a pointer leads to: a datum at height zero and else a node, with the index of the first datum below it. -/
structure Item (α : Type*) where
  height : ℕ
  start : ℕ
  block : α
  deriving DecidableEq

variable {α : Type*} [Zero α] [DecidableEq α] (child : α → ℕ → α) (width bound : ℕ)

/-- What is reached from a pointer, a node after what is below it. -/
def items : ℕ → ℕ → α → List (Item α)
  | 0, start, v => if v = 0 then [] else [⟨0, start, v⟩]
  | h + 1, start, v =>
      if v = 0 then []
      else
        ((List.range width).flatMap fun i => items h (start + i * width ^ h) (child v i)) ++
          [⟨h + 1, start, v⟩]

/-- A datum below the bound is reached. -/
def mapped (h start : ℕ) (v : α) : Bool :=
  (items child width h start v).any fun p => p.height == 0 && decide (p.start < bound)

/-- A datum below the bound, or a node that leads to one. -/
def lives (p : Item α) : Bool := mapped child width bound p.height p.start p.block

/-- The nodes that are reached. -/
def nodes (h start : ℕ) (v : α) : List α :=
  ((items child width h start v).filter fun p => p.height ≠ 0).map Item.block

/-- The datum at the end of a path. -/
def reach : α → List ℕ → α
  | v, [] => v
  | v, i :: path => if v = 0 then 0 else reach (child v i) path

/-- The path to the datum with a number among those below a pointer. -/
def digits : ℕ → ℕ → List ℕ
  | 0, _ => []
  | h + 1, n => n / width ^ h :: digits h (n % width ^ h)

/-- A pointer is null afterwards where nothing below the bound was reached, and unchanged elsewhere. -/
def Pruned (child' : α → ℕ → α) : ℕ → ℕ → α → α → Prop
  | 0, start, v, v' => v' = if mapped child width bound 0 start v then v else 0
  | h + 1, start, v, v' =>
      v' = (if mapped child width bound (h + 1) start v then v else 0) ∧
        (v' ≠ 0 → ∀ i < width,
          Pruned child' h (start + i * width ^ h) (child v i) (child' v i))

/-! ## Items -/

variable {child width bound} {h start : ℕ} {v : α} {p : Item α}

@[simp] theorem items_null : items child width h start 0 = [] := by
  cases h <;> simp [items]

theorem items_succ (hv : v ≠ 0) :
    items child width (h + 1) start v =
      ((List.range width).flatMap fun i => items child width h (start + i * width ^ h) (child v i)) ++
        [⟨h + 1, start, v⟩] := by
  rw [items, if_neg hv]

@[simp] theorem mapped_null : mapped child width bound h start 0 = false := by
  simp [mapped]

theorem ne_null_of_mapped (hm : mapped child width bound h start v = true) : v ≠ 0 := by
  rintro rfl
  simp at hm

theorem mapped_zero (hv : v ≠ 0) : mapped child width bound 0 start v = decide (start < bound) := by
  simp [mapped, items, hv]

theorem mapped_succ (hv : v ≠ 0) :
    mapped child width bound (h + 1) start v =
      (List.range width).any fun i => mapped child width bound h (start + i * width ^ h) (child v i) := by
  simp only [mapped, items_succ hv, List.any_append, List.any_flatMap, List.any_cons, List.any_nil]
  simp

theorem height_le (hp : p ∈ items child width h start v) : p.height ≤ h := by
  induction h generalizing start v with
  | zero =>
    unfold items at hp
    split_ifs at hp with hv
    · cases hp
    · obtain rfl := List.mem_singleton.mp hp
      exact Nat.le_refl _
  | succ h ih =>
    unfold items at hp
    split_ifs at hp with hv
    · cases hp
    · rcases List.mem_append.mp hp with hbelow | htop
      · obtain ⟨i, -, hi⟩ := List.mem_flatMap.mp hbelow
        exact Nat.le_trans (ih hi) (Nat.le_succ h)
      · obtain rfl := List.mem_singleton.mp htop
        exact Nat.le_refl _

theorem child_end_le {i : ℕ} (hi : i < width) : start + i * width ^ h + width ^ h ≤ start + width ^ (h + 1) := by
  have hmul : (i + 1) * width ^ h ≤ width * width ^ h := Nat.mul_le_mul_right _ hi
  rw [Nat.pow_succ, Nat.mul_comm (width ^ h)]
  rw [Nat.succ_mul] at hmul
  omega

theorem end_le (hp : p ∈ items child width h start v) : p.start + width ^ p.height ≤ start + width ^ h := by
  induction h generalizing start v with
  | zero =>
    unfold items at hp
    split_ifs at hp with hv
    · cases hp
    · obtain rfl := List.mem_singleton.mp hp
      exact Nat.le_refl _
  | succ h ih =>
    unfold items at hp
    split_ifs at hp with hv
    · cases hp
    · rcases List.mem_append.mp hp with hbelow | htop
      · obtain ⟨i, hi, hmem⟩ := List.mem_flatMap.mp hbelow
        exact Nat.le_trans (ih hmem) (child_end_le (List.mem_range.mp hi))
      · obtain rfl := List.mem_singleton.mp htop
        exact Nat.le_refl _

theorem top_mem (hv : v ≠ 0) : ⟨h, start, v⟩ ∈ items child width h start v := by
  cases h with
  | zero => simp [items, hv]
  | succ h => simp [items_succ hv]

theorem mem_of_child {i : ℕ} (hv : v ≠ 0) (hi : i < width)
    (hp : p ∈ items child width h (start + i * width ^ h) (child v i)) : p ∈ items child width (h + 1) start v := by
  rw [items_succ hv]
  exact List.mem_append_left _ (List.mem_flatMap.mpr ⟨i, List.mem_range.mpr hi, hp⟩)

theorem eq_top (hp : p ∈ items child width h start v) (hheight : p.height = h) : p = ⟨h, start, v⟩ := by
  cases h with
  | zero =>
    unfold items at hp
    split_ifs at hp with hv
    · cases hp
    · exact List.mem_singleton.mp hp
  | succ h =>
    unfold items at hp
    split_ifs at hp with hv
    · cases hp
    · rcases List.mem_append.mp hp with hbelow | htop
      · obtain ⟨i, -, hi⟩ := List.mem_flatMap.mp hbelow
        have := height_le hi
        omega
      · exact List.mem_singleton.mp htop

theorem mem_nodes {b : α} :
    b ∈ nodes child width h start v ↔ ∃ p ∈ items child width h start v, p.height ≠ 0 ∧ p.block = b := by
  simp [nodes, and_assoc]

theorem nodes_succ (hv : v ≠ 0) :
    nodes child width (h + 1) start v =
      ((List.range width).flatMap fun i => nodes child width h (start + i * width ^ h) (child v i)) ++ [v] := by
  simp [nodes, items_succ hv, List.filter_flatMap, List.map_flatMap]

theorem top_mem_nodes (hv : v ≠ 0) : v ∈ nodes child width (h + 1) start v := by
  rw [nodes_succ hv]
  exact List.mem_append_right _ List.mem_cons_self

theorem nodes_of_child {i : ℕ} {b : α} (hv : v ≠ 0) (hi : i < width)
    (hb : b ∈ nodes child width h (start + i * width ^ h) (child v i)) : b ∈ nodes child width (h + 1) start v := by
  rw [nodes_succ hv]
  exact List.mem_append_left _ (List.mem_flatMap.mpr ⟨i, List.mem_range.mpr hi, hb⟩)

theorem nodup_child {i : ℕ} (hv : v ≠ 0) (hi : i < width) (hn : (nodes child width (h + 1) start v).Nodup) :
    (nodes child width h (start + i * width ^ h) (child v i)).Nodup := by
  rw [nodes_succ hv] at hn
  exact (List.nodup_flatMap.mp (List.nodup_append.mp hn).1).1 i (List.mem_range.mpr hi)

theorem not_mem_child {i : ℕ} (hv : v ≠ 0) (hi : i < width) (hn : (nodes child width (h + 1) start v).Nodup) :
    v ∉ nodes child width h (start + i * width ^ h) (child v i) := by
  intro hmem
  rw [nodes_succ hv] at hn
  have hbelow : v ∈ (List.range width).flatMap fun i => nodes child width h (start + i * width ^ h) (child v i) :=
    List.mem_flatMap.mpr ⟨i, List.mem_range.mpr hi, hmem⟩
  exact (List.nodup_append.mp hn).2.2 v hbelow v List.mem_cons_self rfl

theorem disjoint_children {i j : ℕ} {b : α} (hv : v ≠ 0) (hi : i < width) (hj : j < width) (hij : i ≠ j)
    (hn : (nodes child width (h + 1) start v).Nodup)
    (hb : b ∈ nodes child width h (start + i * width ^ h) (child v i)) :
    b ∉ nodes child width h (start + j * width ^ h) (child v j) := by
  intro hb'
  rw [nodes_succ hv] at hn
  have hpair := (List.nodup_flatMap.mp (List.nodup_append.mp hn).1).2
  have hrange : (List.range width).length = width := List.length_range
  rcases Nat.lt_or_gt_of_ne hij with hlt | hlt
  · have hdisjoint := List.pairwise_iff_getElem.mp hpair i j (by omega) (by omega) hlt
    simp only [List.getElem_range] at hdisjoint
    exact hdisjoint hb hb'
  · have hdisjoint := List.pairwise_iff_getElem.mp hpair j i (by omega) (by omega) hlt
    simp only [List.getElem_range] at hdisjoint
    exact hdisjoint hb' hb

/-! ## The walk that cuts -/

variable (child width bound)

/-- Whether the walk leaves a pointer as it is. -/
def stays : ℕ → ℕ → α → Bool
  | 0, start, v => decide (v ≠ 0) && decide (start < bound)
  | h + 1, start, v =>
      decide (v ≠ 0) && (List.range width).any fun i =>
        if start + i * width ^ h + width ^ h ≤ bound then decide (child v i ≠ 0)
        else stays h (start + i * width ^ h) (child v i)

/-- What the walk takes out, in its order. -/
def cut : ℕ → ℕ → α → List (Item α)
  | 0, start, v => if v ≠ 0 ∧ bound ≤ start then [⟨0, start, v⟩] else []
  | h + 1, start, v =>
      if v = 0 then []
      else
        ((List.range width).flatMap fun i =>
          if start + i * width ^ h + width ^ h ≤ bound then []
          else cut h (start + i * width ^ h) (child v i)) ++
        if stays child width bound (h + 1) start v then [] else [⟨h + 1, start, v⟩]

/-- The part of it below a node. -/
def cutBelow : ℕ → ℕ → α → List (Item α)
  | 0, _, _ => []
  | h + 1, start, v =>
      (List.range width).flatMap fun i =>
        if start + i * width ^ h + width ^ h ≤ bound then []
        else cut child width bound h (start + i * width ^ h) (child v i)

/-- The two for a child of a node. -/
def staysChild (h start : ℕ) (v : α) (i : ℕ) : Bool :=
  if start + i * width ^ h + width ^ h ≤ bound then decide (child v i ≠ 0)
  else stays child width bound h (start + i * width ^ h) (child v i)

def cutChild (h start : ℕ) (v : α) (i : ℕ) : List (Item α) :=
  if start + i * width ^ h + width ^ h ≤ bound then []
  else cut child width bound h (start + i * width ^ h) (child v i)

/-- What leads to no datum below the bound. -/
def dead (h start : ℕ) (v : α) : List (Item α) :=
  (items child width h start v).filter fun p => !lives child width bound p

/-- Nothing dead is in a subtree that the walk leaves alone. -/
def Clean (h start : ℕ) (v : α) : Prop :=
  ∀ p ∈ items child width h start v,
    lives child width bound p = true ∨ p.height = h ∨ bound < p.start + width ^ p.height

variable {child width bound}

@[simp] theorem cut_null : cut child width bound h start 0 = [] := by
  cases h <;> simp [cut]

theorem cut_eq (hv : v ≠ 0) :
    cut child width bound h start v =
      cutBelow child width bound h start v ++
        if stays child width bound h start v then [] else [⟨h, start, v⟩] := by
  cases h with
  | zero =>
    by_cases hb : start < bound
    · simp [cut, cutBelow, stays, hv, hb]
    · simp [cut, cutBelow, stays, hv, hb, Nat.not_lt.mp hb]
  | succ h => rw [cut, if_neg hv, cutBelow]

theorem stays_succ (hv : v ≠ 0) :
    stays child width bound (h + 1) start v = (List.range width).any (staysChild child width bound h start v) := by
  rw [stays, decide_eq_true hv, Bool.true_and]
  rfl

theorem staysChild_null {i : ℕ} (hw : child v i = 0) : staysChild child width bound h start v i = false := by
  unfold staysChild
  rw [hw]
  cases h <;> simp [stays]

theorem cutChild_null {i : ℕ} (hw : child v i = 0) : cutChild child width bound h start v i = [] := by
  simp [cutChild, hw]

theorem dead_succ (hv : v ≠ 0) :
    dead child width bound (h + 1) start v =
      ((List.range width).flatMap fun i => dead child width bound h (start + i * width ^ h) (child v i)) ++
        if mapped child width bound (h + 1) start v then [] else [⟨h + 1, start, v⟩] := by
  unfold dead
  rw [items_succ hv, List.filter_append, List.filter_flatMap]
  congr 1
  rw [List.filter_singleton, lives]
  cases mapped child width bound (h + 1) start v <;> rfl

theorem stays_of_mapped (hm : mapped child width bound h start v = true) :
    stays child width bound h start v = true := by
  induction h generalizing start v with
  | zero =>
    have hv := ne_null_of_mapped hm
    rw [mapped_zero hv] at hm
    simp [stays, hv, of_decide_eq_true hm]
  | succ h ih =>
    have hv := ne_null_of_mapped hm
    rw [mapped_succ hv] at hm
    obtain ⟨i, hi, hchild⟩ := List.any_eq_true.mp hm
    rw [stays, Bool.and_eq_true]
    refine ⟨decide_eq_true hv, List.any_eq_true.mpr ⟨i, hi, ?_⟩⟩
    split_ifs
    · exact decide_eq_true (ne_null_of_mapped hchild)
    · exact ih hchild

theorem clean_child {i : ℕ} (hv : v ≠ 0) (hi : i < width) (hc : Clean child width bound (h + 1) start v) :
    Clean child width bound h (start + i * width ^ h) (child v i) := by
  intro p hp
  rcases hc p (mem_of_child hv hi hp) with hlives | htop | hend
  · exact Or.inl hlives
  · have := height_le hp
    omega
  · exact Or.inr (Or.inr hend)

/-- In a clean tree everything lives in a subtree that ends below the bound. -/
theorem lives_below {i : ℕ} (hv : v ≠ 0) (hi : i < width) (hc : Clean child width bound (h + 1) start v)
    (hend : start + i * width ^ h + width ^ h ≤ bound)
    (hp : p ∈ items child width h (start + i * width ^ h) (child v i)) : lives child width bound p = true := by
  rcases hc p (mem_of_child hv hi hp) with hlives | htop | hpast
  · exact hlives
  · have := height_le hp
    omega
  · have := end_le hp
    omega

theorem mapped_of_stays (hc : Clean child width bound h start v)
    (hs : stays child width bound h start v = true) : mapped child width bound h start v = true := by
  induction h generalizing start v with
  | zero =>
    rw [stays, Bool.and_eq_true] at hs
    rw [mapped_zero (of_decide_eq_true hs.1)]
    exact hs.2
  | succ h ih =>
    rw [stays, Bool.and_eq_true] at hs
    have hv := of_decide_eq_true hs.1
    obtain ⟨i, hi, hchild⟩ := List.any_eq_true.mp hs.2
    have hlt := List.mem_range.mp hi
    rw [mapped_succ hv]
    refine List.any_eq_true.mpr ⟨i, hi, ?_⟩
    split_ifs at hchild with hend
    · exact lives_below hv hlt hc hend (top_mem (of_decide_eq_true hchild))
    · exact ih (clean_child hv hlt hc) hchild

theorem stays_eq_mapped (hc : Clean child width bound h start v) :
    stays child width bound h start v = mapped child width bound h start v :=
  Bool.eq_iff_iff.mpr ⟨mapped_of_stays hc, stays_of_mapped⟩

theorem staysChild_eq_mapped {i : ℕ} (hv : v ≠ 0) (hi : i < width) (hc : Clean child width bound (h + 1) start v) :
    staysChild child width bound h start v i = mapped child width bound h (start + i * width ^ h) (child v i) := by
  unfold staysChild
  split_ifs with hend
  · by_cases hw : child v i = 0
    · simp [hw]
    · rw [decide_eq_true hw]
      exact (lives_below hv hi hc hend (top_mem hw)).symm
  · exact stays_eq_mapped (clean_child hv hi hc)

/-- The walk takes out nothing that leads to a datum below the bound. -/
theorem cut_sublist : (cut child width bound h start v).Sublist (dead child width bound h start v) := by
  induction h generalizing start v with
  | zero =>
    by_cases hv : v = 0
    · rw [hv, cut_null]
      exact List.nil_sublist _
    · by_cases hb : bound ≤ start
      · simp [cut, dead, items, lives, hv, hb, mapped_zero hv]
      · simp [cut, hb]
  | succ h ih =>
    by_cases hv : v = 0
    · rw [hv, cut_null]
      exact List.nil_sublist _
    · rw [cut, if_neg hv, dead_succ hv]
      refine List.Sublist.append (List.Sublist.flatMap_right _ fun i _ => ?_) ?_
      · split_ifs
        · exact List.nil_sublist _
        · exact ih
      · cases hm : mapped child width bound (h + 1) start v with
        | true => rw [stays_of_mapped hm]
        | false =>
          rw [if_neg Bool.false_ne_true]
          split_ifs
          · exact List.nil_sublist _
          · exact List.Sublist.refl _

/-- The walk comes to what it takes out: to the pointer it begins with, or past the bound. -/
theorem mem_cut (hp : p ∈ cut child width bound h start v) : p.height = h ∨ bound < p.start + width ^ p.height := by
  induction h generalizing start v with
  | zero =>
    have := height_le (List.mem_of_mem_filter (cut_sublist.subset hp))
    exact Or.inl (by omega)
  | succ h ih =>
    by_cases hv : v = 0
    · rw [hv, cut_null] at hp
      cases hp
    · rw [cut, if_neg hv] at hp
      rcases List.mem_append.mp hp with hbelow | htop
      · obtain ⟨i, -, hi⟩ := List.mem_flatMap.mp hbelow
        split_ifs at hi with hend
        · cases hi
        · rcases ih hi with hheight | hpast
          · have hitem := List.mem_of_mem_filter (cut_sublist.subset hi)
            refine Or.inr ?_
            rw [eq_top hitem hheight]
            exact Nat.not_le.mp hend
          · exact Or.inr hpast
      · split_ifs at htop
        · cases htop
        · obtain rfl := List.mem_singleton.mp htop
          exact Or.inl rfl

theorem cut_eq_dead (hc : Clean child width bound h start v) :
    cut child width bound h start v = dead child width bound h start v := by
  induction h generalizing start v with
  | zero =>
    by_cases hv : v = 0
    · simp [hv, dead]
    · by_cases hb : bound ≤ start
      · simp [cut, dead, items, lives, hv, hb, mapped_zero hv]
      · simp [cut, dead, items, lives, hv, hb, mapped_zero hv, Nat.not_le.mp hb]
  | succ h ih =>
    by_cases hv : v = 0
    · simp [hv, dead]
    · rw [cut, if_neg hv, dead_succ hv, stays_eq_mapped hc]
      congr 1
      refine List.flatMap_congr fun i hi => ?_
      have hlt := List.mem_range.mp hi
      split_ifs with hend
      · refine (List.filter_eq_nil_iff.mpr fun p hp => ?_).symm
        simp [lives_below hv hlt hc hend hp]
      · exact ih (clean_child hv hlt hc)

/-- Lists taken from longer ones, of the same length together, are those. -/
theorem eq_of_flatMap_length {β γ : Type*} {l : List β} {f f' : β → List γ} (hsub : ∀ x ∈ l, (f x).Sublist (f' x))
    (hlen : (l.flatMap f').length ≤ (l.flatMap f).length) : ∀ x ∈ l, f x = f' x := by
  induction l with
  | nil =>
    intro x hx
    cases hx
  | cons y l ih =>
    rw [List.flatMap_cons, List.flatMap_cons, List.length_append, List.length_append] at hlen
    have hfirst := (hsub y List.mem_cons_self).length_le
    have hrest := (List.Sublist.flatMap_right l fun x hx => hsub x (List.mem_cons_of_mem _ hx)).length_le
    intro x hx
    rcases List.mem_cons.mp hx with rfl | hx
    · exact (hsub x List.mem_cons_self).eq_of_length_le (by omega)
    · exact ih (fun x hx => hsub x (List.mem_cons_of_mem _ hx)) (by omega) x hx

theorem dead_eq_nil (hl : ∀ p ∈ items child width h start v, lives child width bound p = true) :
    dead child width bound h start v = [] := by
  refine List.filter_eq_nil_iff.mpr fun p hp => ?_
  rw [hl p hp]
  decide

/-! ## The pointers afterwards -/

variable {child' child'' : α → ℕ → α} {v' : α}

/-- The pointers of the nodes that were there say whether a tree was pruned. -/
theorem Pruned.congr (hp : Pruned child width bound child' h start v v')
    (hagree : ∀ b ∈ nodes child width h start v, ∀ i, child'' b i = child' b i) :
    Pruned child width bound child'' h start v v' := by
  induction h generalizing start v v' with
  | zero => exact hp
  | succ h ih =>
    obtain ⟨htop, hbelow⟩ := hp
    refine ⟨htop, fun hv' i hi => ?_⟩
    have hsame : v' = v := by
      rw [htop] at hv' ⊢
      split_ifs at hv' ⊢
      · rfl
      · exact absurd rfl hv'
    have hv : v ≠ 0 := hsame ▸ hv'
    rw [hagree v (top_mem_nodes hv) i]
    exact ih (hbelow hv' i hi) fun b hb => hagree b (nodes_of_child hv hi hb)

theorem pruned_of_lives (hl : ∀ p ∈ items child width h start v, lives child width bound p = true) :
    Pruned child width bound child h start v v := by
  induction h generalizing start v with
  | zero =>
    by_cases hv : v = 0
    · simp [Pruned, hv]
    · have htop := hl _ (top_mem hv)
      rw [lives] at htop
      rw [Pruned, if_pos htop]
  | succ h ih =>
    by_cases hv : v = 0
    · simp [Pruned, hv]
    · have htop := hl _ (top_mem hv)
      rw [lives] at htop
      refine ⟨by rw [if_pos htop], fun _ i hi => ?_⟩
      exact ih fun p hp => hl p (mem_of_child hv hi hp)

theorem pruned_null (hm : mapped child width bound h start v = false) :
    Pruned child width bound child' h start v 0 := by
  cases h with
  | zero => simp [Pruned, hm]
  | succ h => simp [Pruned, hm]

theorem reach_null (path : List ℕ) : reach child 0 path = 0 := by
  cases path with
  | nil => rfl
  | cons i path => rw [reach, if_pos rfl]

theorem mem_of_reach {n : ℕ} (hn : n < width ^ h) (hr : reach child v (digits width h n) ≠ 0) :
    ⟨0, start + n, reach child v (digits width h n)⟩ ∈ items child width h start v := by
  induction h generalizing start v n with
  | zero =>
    have hzero : n = 0 := by
      rw [Nat.pow_zero] at hn
      omega
    subst hzero
    exact top_mem hr
  | succ h ih =>
    have hv : v ≠ 0 := by
      rintro rfl
      exact hr (reach_null _)
    have hpos : 0 < width ^ h := by
      rcases Nat.eq_zero_or_pos (width ^ h) with hzero | hpos
      · rw [Nat.pow_succ, hzero] at hn
        omega
      · exact hpos
    rw [digits, reach, if_neg hv] at hr ⊢
    have hi : n / width ^ h < width := by
      rw [Nat.pow_succ] at hn
      exact Nat.div_lt_of_lt_mul hn
    have hitem := @ih (start + n / width ^ h * width ^ h) _ (n % width ^ h) (Nat.mod_lt n hpos) hr
    have hindex : start + n / width ^ h * width ^ h + n % width ^ h = start + n := by
      have := Nat.div_add_mod' n (width ^ h)
      omega
    rw [hindex] at hitem
    exact mem_of_child hv hi hitem

/-- In a pruned tree the data below the bound are the old ones, and there are no others. -/
theorem Pruned.reach_eq {n : ℕ} (hp : Pruned child width bound child' h start v v') (hn : n < width ^ h) :
    reach child' v' (digits width h n) =
      if start + n < bound then reach child v (digits width h n) else 0 := by
  induction h generalizing start v v' n with
  | zero =>
    have hzero : n = 0 := by
      rw [Nat.pow_zero] at hn
      omega
    subst hzero
    rw [Pruned] at hp
    rw [digits, reach, reach, hp]
    by_cases hv : v = 0
    · simp [hv]
    · rw [mapped_zero hv]
      simp
  | succ h ih =>
    obtain ⟨htop, hbelow⟩ := hp
    have hpos : 0 < width ^ h := by
      rcases Nat.eq_zero_or_pos (width ^ h) with hzero | hpos
      · rw [Nat.pow_succ, hzero] at hn
        omega
      · exact hpos
    have hi : n / width ^ h < width := by
      rw [Nat.pow_succ] at hn
      exact Nat.div_lt_of_lt_mul hn
    by_cases hm : mapped child width bound (h + 1) start v = true
    · rw [if_pos hm] at htop
      have hv := ne_null_of_mapped hm
      have hchild := ih (hbelow (htop ▸ hv) _ hi) (Nat.mod_lt n hpos)
      have hindex : start + n / width ^ h * width ^ h + n % width ^ h = start + n := by
        have := Nat.div_add_mod' n (width ^ h)
        omega
      rw [hindex] at hchild
      rw [htop, digits, reach, reach, if_neg hv, if_neg hv, hchild]
    · rw [if_neg hm] at htop
      rw [htop, reach_null]
      split_ifs with hlt
      · by_contra hne
        refine hm (List.any_eq_true.mpr ⟨_, @mem_of_reach _ _ _ _ _ _ start _ _ hn (Ne.symm hne), ?_⟩)
        simpa using hlt
      · rfl

end Mario.Lib.PointerTree
