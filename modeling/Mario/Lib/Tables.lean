import Mathlib.Data.List.AList
import Mathlib.Data.List.Perm.Basic

/-!
# Finite tables

Association lists without repeated keys, with restriction to some of the keys and
with a map over the values. The values of a table, each as often as it stands in
it, are a list, and the lemmas say up to order how that list changes.
-/

namespace Mario.Lib

abbrev Table (α β : Type*) := AList (fun _ : α => β)

namespace Table

variable {α β γ : Type*}

/-- The entries whose key satisfies `p`. -/
def restrict (p : α → Bool) (s : Table α β) : Table α β :=
  ⟨s.entries.filter fun e => p e.1, s.nodupKeys.sublist List.filter_sublist⟩

/-- Change every value. -/
def mapVal (f : α → β → γ) (s : Table α β) : Table α γ :=
  ⟨s.entries.map fun e => ⟨e.1, f e.1 e.2⟩, List.NodupKeys.map₂ f s.entries s.nodupKeys⟩

def values (s : Table α β) : List β := s.entries.map fun e => e.2

theorem values_restrict_perm (p : α → Bool) (s : Table α β) :
    (values (restrict p s) ++ values (restrict (fun a => !p a) s)).Perm (values s) := by
  rw [values, values, values, ← List.map_append]
  exact (List.filter_append_perm (fun e : (_ : α) × β => p e.1) s.entries).map _

theorem values_mapVal_map {δ : Type*} {s : Table α β} {f : α → β → γ} {g : γ → δ} {g' : β → δ}
    (h : ∀ a b, g (f a b) = g' b) : (values (mapVal f s)).map g = (values s).map g' := by
  simp only [values, mapVal, List.map_map]
  exact List.map_congr_left fun e _ => h e.1 e.2

theorem values_mapVal_filterMap {δ : Type*} {s : Table α β} {f : α → β → γ} {g : γ → Option δ}
    {g' : β → Option δ} (h : ∀ a b, g (f a b) = g' b) :
    (values (mapVal f s)).filterMap g = (values s).filterMap g' := by
  simp only [values, mapVal, List.filterMap_map]
  exact congrArg (fun k => List.filterMap k s.entries) (funext fun e => h e.1 e.2)

variable [DecidableEq α] {a : α} {b : β} {s : Table α β}

theorem lookup_restrict (p : α → Bool) (s : Table α β) (a : α) :
    (restrict p s).lookup a = if p a then s.lookup a else none := by
  refine Option.ext fun b => ?_
  have hmem : b ∈ (restrict p s).lookup a ↔ b ∈ s.lookup a ∧ p a = true := by
    rw [AList.mem_lookup_iff, AList.mem_lookup_iff, restrict, List.mem_filter]
  rw [← Option.mem_def, hmem]
  split_ifs with hp
  · simp only [hp, and_true, Option.mem_def]
  · simp only [hp, Bool.false_eq_true, and_false]

theorem lookup_mapVal (f : α → β → γ) (s : Table α β) (a : α) :
    (mapVal f s).lookup a = (s.lookup a).map (f a) :=
  List.dlookup_map₂ a

theorem mem_values : b ∈ values s ↔ ∃ a, s.lookup a = some b := by
  rw [values, List.mem_map]
  constructor
  · rintro ⟨⟨a, b'⟩, hmem, rfl⟩
    exact ⟨a, AList.mem_lookup_iff.mpr hmem⟩
  · rintro ⟨a, ha⟩
    exact ⟨⟨a, b⟩, AList.mem_lookup_iff.mp ha, rfl⟩

theorem values_insert (a : α) (b : β) (s : Table α β) : values (s.insert a b) = b :: values (s.erase a) := rfl

theorem values_perm_erase (h : s.lookup a = some b) : (values s).Perm (b :: values (s.erase a)) := by
  have hmem : a ∈ s.entries.keys := AList.lookup_isSome.mp (h ▸ rfl)
  obtain ⟨b', l₁, l₂, -, hl, herase⟩ := List.exists_of_kerase hmem
  have hb' : s.lookup a = some b' := by
    refine AList.mem_lookup_iff.mpr ?_
    rw [hl]
    exact List.mem_append_right l₁ List.mem_cons_self
  obtain rfl : b = b' := Option.some.inj (h.symm.trans hb')
  have hvalues : values (s.erase a) = (l₁ ++ l₂).map fun e => e.2 := by
    rw [← herase]
    rfl
  rw [hvalues, values, hl, List.map_append, List.map_cons, List.map_append]
  exact List.perm_middle

theorem erase_insert (a : α) (b : β) (s : Table α β) : (s.insert a b).erase a = s.erase a :=
  AList.ext (List.kerase_cons_eq rfl)

theorem erase_of_lookup_none (h : s.lookup a = none) : s.erase a = s :=
  AList.ext (List.kerase_of_notMem_keys (AList.lookup_eq_none.mp h))

/-- Tables with the same entries have the same values. -/
theorem values_perm {s t : Table α β} (h : ∀ a, s.lookup a = t.lookup a) : (values s).Perm (values t) := by
  refine List.Perm.map _ (List.lookup_ext s.nodupKeys t.nodupKeys fun a b => ?_)
  exact iff_of_eq (congrArg (b ∈ ·) (h a))

/-- A table whose entries are those of another one, up to what `g` forgets. -/
theorem values_map_subperm {δ : Type*} {s t : Table α β} (g : β → δ)
    (h : ∀ a b, s.lookup a = some b → ∃ b', t.lookup a = some b' ∧ g b = g b') :
    ((values s).map g).Subperm ((values t).map g) := by
  have hpairs : ∀ u : Table α β, (values u).map g =
      (u.entries.map fun e => (e.1, g e.2)).map Prod.snd := by
    intro u
    simp only [values, List.map_map]
    rfl
  have hnodup : (s.entries.map fun e => (e.1, g e.2)).Nodup := by
    refine List.Nodup.of_map Prod.fst ?_
    rw [List.map_map]
    exact s.nodupKeys
  have hsub : (s.entries.map fun e => (e.1, g e.2)) ⊆ t.entries.map fun e => (e.1, g e.2) := by
    intro pair hpair
    obtain ⟨⟨a, b⟩, hmem, rfl⟩ := List.mem_map.mp hpair
    obtain ⟨b', hb', hg⟩ := h a b (AList.mem_lookup_iff.mpr hmem)
    exact List.mem_map.mpr ⟨⟨a, b'⟩, AList.mem_lookup_iff.mp hb', by rw [hg]⟩
  obtain ⟨l, hperm, hl⟩ := List.subperm_of_subset hnodup hsub
  rw [hpairs s, hpairs t]
  exact ⟨l.map Prod.snd, hperm.map _, hl.map _⟩

end Table

end Mario.Lib
