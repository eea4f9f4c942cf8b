import Mathlib.Data.List.Induction
import Mathlib.Data.List.Pairwise

/-!
# Searching a sorted index

An index is a list of entries in the order of their lower bounds, and a key belongs to the last
entry whose bound is not above it. That entry is found by bisection, and in an index of several
levels by searching one level after the other.
-/

namespace Mario.Lib

variable {β γ : Type*} {bound : β → ℕ} {h : ℕ} {l l' : List β} {b : β}

/-- The last entry whose bound is not above a key. -/
def lastLe (bound : β → ℕ) (h : ℕ) (l : List β) : Option β := l.reverse.find? fun b => bound b ≤ h

theorem lastLe_append (bound : β → ℕ) (h : ℕ) (l l' : List β) :
    lastLe bound h (l ++ l') = (lastLe bound h l').or (lastLe bound h l) := by
  unfold lastLe
  rw [List.reverse_append, List.find?_append]

theorem lastLe_singleton (bound : β → ℕ) (h : ℕ) (b : β) :
    lastLe bound h [b] = if bound b ≤ h then some b else none := by
  unfold lastLe
  rw [List.reverse_singleton, List.find?_singleton]
  simp only [decide_eq_true_eq]

theorem lastLe_eq_none (hl : ∀ b ∈ l, h < bound b) : lastLe bound h l = none := by
  refine List.find?_eq_none.mpr fun b hb => ?_
  have hlt := hl b (List.mem_reverse.mp hb)
  simp [hlt]

theorem mem_of_lastLe (hb : lastLe bound h l = some b) : b ∈ l :=
  List.mem_reverse.mp (List.mem_of_find?_eq_some hb)

theorem le_of_lastLe (hb : lastLe bound h l = some b) : bound b ≤ h := by
  simpa using List.find?_some hb

theorem lastLe_isSome (hb : b ∈ l) (hle : bound b ≤ h) : ∃ c, lastLe bound h l = some c := by
  rw [← Option.isSome_iff_exists, lastLe, List.find?_isSome]
  exact ⟨b, List.mem_reverse.mpr hb, decide_eq_true hle⟩

theorem lastLe_split (hle : bound b ≤ h) (hl' : ∀ c ∈ l', h < bound c) : lastLe bound h (l ++ b :: l') = some b := by
  have hsplit : l ++ b :: l' = (l ++ [b]) ++ l' := by simp
  rw [hsplit, lastLe_append, lastLe_eq_none hl', Option.none_or, lastLe_append, lastLe_singleton,
    if_pos hle, Option.some_or]

theorem lastLe_getElem {i : ℕ} (hi : i < l.length) (hle : bound l[i] ≤ h)
    (hrest : ∀ j (hj : j < l.length), i < j → h < bound l[j]) : lastLe bound h l = some l[i] := by
  have hsplit : l.take i ++ l[i] :: l.drop (i + 1) = l := by
    rw [List.getElem_cons_drop, List.take_append_drop]
  conv_lhs => rw [← hsplit]
  refine lastLe_split hle fun c hc => ?_
  obtain ⟨j, hj, rfl⟩ := List.mem_iff_getElem.mp hc
  rw [List.getElem_drop]
  rw [List.length_drop] at hj
  exact hrest _ (by omega) (by omega)

/-- An index of two levels is searched level by level, when the bound of an entry is the first
bound of what is below it. -/
theorem lastLe_flatMap (bound : β → ℕ) {f : β → List γ} {bound' : γ → ℕ}
    (hhead : ∀ b ∈ l, ∃ c ∈ f b, bound' c = bound b) (hbelow : ∀ b ∈ l, ∀ c ∈ f b, bound b ≤ bound' c) :
    lastLe bound' h (l.flatMap f) = (lastLe bound h l).bind fun b => lastLe bound' h (f b) := by
  induction l using List.reverseRecOn with
  | nil => rfl
  | append_singleton l b ih =>
    have hrest := ih (fun c hc => hhead c (List.mem_append_left _ hc)) fun c hc => hbelow c (List.mem_append_left _ hc)
    have hb : b ∈ l ++ [b] := List.mem_append_right _ List.mem_cons_self
    rw [List.flatMap_append, List.flatMap_cons, List.flatMap_nil, List.append_nil, lastLe_append,
      hrest, lastLe_append, lastLe_singleton]
    by_cases hle : bound b ≤ h
    · obtain ⟨c, hc, hbound⟩ := hhead b hb
      have hle' : bound' c ≤ h := by omega
      obtain ⟨d, hd⟩ := lastLe_isSome hc hle'
      rw [if_pos hle, Option.some_or, Option.bind_some, hd, Option.some_or]
    · rw [if_neg hle, Option.none_or]
      have hnone : lastLe bound' h (f b) = none := by
        refine lastLe_eq_none fun c hc => ?_
        have hc := hbelow b hb c hc
        omega
      rw [hnone, Option.none_or]

/-- Bisection between two positions: the position behind the last one whose bound is not above the
key. -/
def bisect (bound : ℕ → ℕ) (h first last : ℕ) : ℕ :=
  if _h : first ≤ last then
    let mid := first + (last - first) / 2
    if h < bound mid then
      if _hmid : mid = 0 then first else bisect bound h first (mid - 1)
    else bisect bound h (mid + 1) last
  else first
  termination_by last + 1 - first
  decreasing_by all_goals omega

/-- On a sorted row bisection separates the bounds that are above the key from the others. -/
theorem bisect_spec {bound : ℕ → ℕ} {first last : ℕ} (hpos : 0 < first) (hle : first ≤ last + 1)
    (hsorted : ∀ i j, first ≤ i → i ≤ j → j ≤ last → bound i ≤ bound j) :
    first ≤ bisect bound h first last ∧ bisect bound h first last ≤ last + 1 ∧
      (∀ i, first ≤ i → i < bisect bound h first last → bound i ≤ h) ∧
      ∀ i, bisect bound h first last ≤ i → i ≤ last → h < bound i := by
  induction hsize : last + 1 - first using Nat.strongRecOn generalizing first last with
  | _ size ih =>
    rw [bisect]
    by_cases hmore : first ≤ last
    · rw [dif_pos hmore]
      dsimp only
      have hmid : first ≤ first + (last - first) / 2 ∧ first + (last - first) / 2 ≤ last := by omega
      generalize first + (last - first) / 2 = mid at hmid
      by_cases habove : h < bound mid
      · rw [if_pos habove, dif_neg (by omega)]
        obtain ⟨hge, hub, hbelow, hrest⟩ := ih (mid - 1 + 1 - first) (by omega)
          hpos (by omega) (fun i j hi hij (hj : j ≤ mid - 1) => hsorted i j hi hij (by omega)) rfl
        refine ⟨hge, by omega, hbelow, fun i hi hlast => ?_⟩
        by_cases him : i < mid
        · exact hrest i hi (by omega)
        · exact Nat.lt_of_lt_of_le habove (hsorted mid i (by omega) (by omega) hlast)
      · rw [if_neg habove]
        obtain ⟨hge, hub, hbelow, hrest⟩ := ih (last + 1 - (mid + 1)) (by omega)
          (show 0 < mid + 1 by omega) (by omega)
          (fun i j hi hij hj => hsorted i j (by omega) hij hj) rfl
        refine ⟨by omega, hub, fun i hi hlt => ?_, hrest⟩
        by_cases him : mid < i
        · exact hbelow i (by omega) hlt
        · have hle := hsorted i mid hi (by omega) hmid.2
          omega
    · rw [dif_neg hmore]
      exact ⟨Nat.le_refl _, hle, fun i hi hlt => by omega, fun i hi hlast => by omega⟩

end Mario.Lib
