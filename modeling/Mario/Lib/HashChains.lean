import Mathlib.Data.List.Nodup

/-!
# Hash chains

Some objects have a key, no two of them the same, and every object with a key is on the chain that
the hash of its key selects and on no other. A search along one chain finds the object of a key.
-/

namespace Mario.Lib

open Function

variable {α κ η : Type*}

/-- The objects with a key are on the chains of their keys. -/
structure Chained (hash : κ → η) (key : α → Option κ) (chains : η → List α) : Prop where
  mem : ∀ a h, a ∈ chains h ↔ ∃ k, key a = some k ∧ hash k = h
  nodup : ∀ h, (chains h).Nodup
  inj : ∀ a b k, key a = some k → key b = some k → a = b

variable {hash : κ → η} {key key' : α → Option κ} {chains chains' : η → List α} {a : α} {k : κ}
  {p : α → Bool}

theorem Chained.congr (h : Chained hash key chains) (hkey : ∀ a, key' a = key a) : Chained hash key' chains := by
  obtain rfl : key' = key := funext hkey
  exact h

theorem chained_empty (hkey : ∀ a, key a = none) (hchains : ∀ h, chains h = []) : Chained hash key chains := by
  constructor
  · simp [hkey, hchains]
  · simp [hchains]
  · simp [hkey]

theorem Chained.find_some (h : Chained hash key chains) (hp : ∀ a k', key a = some k' → p a = true → k' = k)
    (hfind : (chains (hash k)).find? p = some a) : key a = some k := by
  obtain ⟨k', hk', -⟩ := (h.mem a (hash k)).mp (List.mem_of_find?_eq_some hfind)
  rw [hk', hp a k' hk' (List.find?_some hfind)]

theorem Chained.find_none (h : Chained hash key chains) (hp : ∀ a, key a = some k → p a = true)
    (hfind : (chains (hash k)).find? p = none) (a : α) : key a ≠ some k := by
  intro hka
  have hmem : a ∈ chains (hash k) := (h.mem a (hash k)).mpr ⟨k, hka, rfl⟩
  exact List.find?_eq_none.mp hfind a hmem (hp a hka)

variable [DecidableEq α]

theorem Chained.erase (h : Chained hash key chains) (hkey : key' a = none)
    (hothers : ∀ b, b ≠ a → key' b = key b) (hchains : ∀ m, chains' m = (chains m).erase a) :
    Chained hash key' chains' := by
  have hof : ∀ b k, key' b = some k → key b = some k := by
    intro b k hb
    by_cases hba : b = a
    · rw [hba, hkey] at hb
      cases hb
    · rw [← hothers b hba]
      exact hb
  constructor
  · intro b m
    rw [hchains, (h.nodup m).mem_erase_iff, h.mem]
    constructor
    · rintro ⟨hba, k, hk, hm⟩
      exact ⟨k, (hothers b hba).trans hk, hm⟩
    · rintro ⟨k, hk, hm⟩
      refine ⟨?_, k, hof b k hk, hm⟩
      rintro rfl
      rw [hkey] at hk
      cases hk
  · intro m
    rw [hchains]
    exact (h.nodup m).erase a
  · exact fun b c k hb hc => h.inj b c k (hof b k hb) (hof c k hc)

variable [DecidableEq η]

theorem Chained.insert (h : Chained hash key chains) (hfree : key a = none)
    (hnew : ∀ b, key b ≠ some k) (hkey : key' a = some k) (hothers : ∀ b, b ≠ a → key' b = key b)
    (hchains : chains' = update chains (hash k) (a :: chains (hash k))) : Chained hash key' chains' := by
  have hnot : ∀ m, a ∉ chains m := by
    intro m hm
    obtain ⟨k', hk', -⟩ := (h.mem a m).mp hm
    rw [hfree] at hk'
    cases hk'
  have hmem : ∀ b m, b ∈ chains' m ↔ b ∈ chains m ∨ b = a ∧ m = hash k := by
    intro b m
    rw [hchains, update_apply]
    split_ifs with hm
    · rw [hm, List.mem_cons]
      tauto
    · simp [hm]
  constructor
  · intro b m
    rw [hmem, h.mem]
    by_cases hba : b = a
    · rw [hba, hkey, hfree]
      simp [eq_comm]
    · simp [hothers b hba, hba]
  · intro m
    rw [hchains, update_apply]
    split_ifs with hm
    · exact List.nodup_cons.mpr ⟨hnot (hash k), h.nodup (hash k)⟩
    · exact h.nodup m
  · intro b c k' hb hc
    by_cases hba : b = a
    · rw [hba] at hb ⊢
      rw [hkey, Option.some.injEq] at hb
      by_contra hca
      rw [hothers c (Ne.symm hca), ← hb] at hc
      exact hnew c hc
    · by_cases hca : c = a
      · rw [hca, hkey, Option.some.injEq] at hc
        rw [hothers b hba, ← hc] at hb
        exact absurd hb (hnew b)
      · rw [hothers b hba] at hb
        rw [hothers c hca] at hc
        exact h.inj b c k' hb hc

end Mario.Lib
