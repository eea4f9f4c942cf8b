import Mario.Mm.Filemap

/-!
# The lists of the page cache

There is one structure for each cached page, and the list `filemap_pages`, the hash
chains and the counter describe the same structures. Every change of the lists is one of
a few operations; each keeps this.
-/

namespace Mario.Filemap

open Mario.Lib Function

variable {s s' : State} {r : Request} {ptr : ℕ} {e e' : Entry}

/-- The lists and the counter describe the same structures, one for each page. -/
structure Listed (s : State) : Prop where
  lru : s.lru.Nodup
  chain : ∀ h, (s.hash h).Nodup
  alloc : ∀ ptr ∈ s.lru, ∃ e, s.mem.lookup ptr = some e
  mem_chain : ∀ h ptr, ptr ∈ s.hash h ↔
    ptr ∈ s.lru ∧ ∃ e, s.mem.lookup ptr = some e ∧ hashIndex e.inode e.index = h
  unique : ∀ ptr ∈ s.lru, ∀ ptr' ∈ s.lru, ∀ e e', s.mem.lookup ptr = some e →
    s.mem.lookup ptr' = some e' → e.inode = e'.inode → e.index = e'.index → ptr = ptr'
  count : s.count = s.lru.length
  bound : s.count ≤ maxPages
  page : ∀ ptr ∈ s.lru, ∀ e, s.mem.lookup ptr = some e → (e.page.isSome ↔ e.state = .uptodate)

theorem Listed.lookup_some (h : Listed s) (hlook : lookup r s = some ptr) :
    ptr ∈ s.lru ∧ ∃ e, s.mem.lookup ptr = some e ∧ e.inode = r.inode ∧ e.index = r.index := by
  obtain ⟨hlru, -⟩ := (h.mem_chain _ _).mp (List.mem_of_find?_eq_some hlook)
  have hfound := List.find?_some hlook
  obtain ⟨e, he⟩ := h.alloc ptr hlru
  rw [he] at hfound
  simp only [Option.any_some, decide_eq_true_eq] at hfound
  exact ⟨hlru, e, he, hfound⟩

theorem Listed.lookup_none (h : Listed s) (hlook : lookup r s = none) (hptr : ptr ∈ s.lru)
    (he : s.mem.lookup ptr = some e) : ¬ (e.inode = r.inode ∧ e.index = r.index) := by
  rintro ⟨hinode, hindex⟩
  have hchain : ptr ∈ s.hash (hashIndex r.inode r.index) :=
    (h.mem_chain _ _).mpr ⟨hptr, e, he, by rw [hinode, hindex]⟩
  have hnot := List.find?_eq_none.mp hlook ptr hchain
  simp [he, hinode, hindex] at hnot

theorem Listed.lookup_eq (h : Listed s) (hptr : ptr ∈ s.lru) (he : s.mem.lookup ptr = some e)
    (hinode : e.inode = r.inode) (hindex : e.index = r.index) : lookup r s = some ptr := by
  cases hlook : lookup r s with
  | none => exact absurd ⟨hinode, hindex⟩ (h.lookup_none hlook hptr he)
  | some ptr' =>
    obtain ⟨hptr', e', he', hinode', hindex'⟩ := h.lookup_some hlook
    rw [h.unique ptr' hptr' ptr hptr e' e he' he (hinode'.trans hinode.symm) (hindex'.trans hindex.symm)]

theorem Listed.congr (h : Listed s) (hmem : s'.mem = s.mem) (hlru : s'.lru = s.lru)
    (hhash : s'.hash = s.hash) (hcount : s'.count = s.count) : Listed s' := by
  refine ⟨?_, ?_, ?_, ?_, ?_, ?_, ?_, ?_⟩
  · rw [hlru]
    exact h.lru
  · rw [hhash]
    exact h.chain
  · rw [hlru, hmem]
    exact h.alloc
  · rw [hhash, hlru, hmem]
    exact h.mem_chain
  · rw [hlru, hmem]
    exact h.unique
  · rw [hcount, hlru]
    exact h.count
  · rw [hcount]
    exact h.bound
  · rw [hlru, hmem]
    exact h.page

theorem Listed.touch (h : Listed s) (hptr : ptr ∈ s.lru) : Listed (touchLocked ptr s) := by
  have hperm : (ptr :: s.lru.erase ptr).Perm s.lru := (List.perm_cons_erase hptr).symm
  have hmem : ∀ x, x ∈ (touchLocked ptr s).lru ↔ x ∈ s.lru := fun x => hperm.mem_iff
  refine ⟨hperm.nodup_iff.mpr h.lru, h.chain, fun x hx => h.alloc x ((hmem x).mp hx),
    fun i x => ?_, fun x hx y hy => h.unique x ((hmem x).mp hx) y ((hmem y).mp hy), ?_, h.bound,
    fun x hx => h.page x ((hmem x).mp hx)⟩
  · rw [hmem]
    exact h.mem_chain i x
  · rw [touchLocked, hperm.length_eq]
    exact h.count

theorem Listed.set (h : Listed s) (he : s.mem.lookup ptr = some e) (hinode : e'.inode = e.inode)
    (hindex : e'.index = e.index) (hpage : e'.page.isSome ↔ e'.state = .uptodate) : Listed (setEntry ptr e' s) := by
  -- every structure has the inode and index that it had
  have hold : ∀ x y, (setEntry ptr e' s).mem.lookup x = some y →
      ∃ z, s.mem.lookup x = some z ∧ y.inode = z.inode ∧ y.index = z.index := by
    intro x y hy
    by_cases hx : x = ptr
    · subst hx
      rw [setEntry, AList.lookup_insert] at hy
      cases hy
      exact ⟨e, he, hinode, hindex⟩
    · rw [setEntry, AList.lookup_insert_ne hx] at hy
      exact ⟨y, hy, rfl, rfl⟩
  have hnew : ∀ x z, s.mem.lookup x = some z → ∃ y, (setEntry ptr e' s).mem.lookup x = some y ∧
      y.inode = z.inode ∧ y.index = z.index := by
    intro x z hz
    by_cases hx : x = ptr
    · subst hx
      obtain rfl := Option.some.inj (he.symm.trans hz)
      exact ⟨e', AList.lookup_insert _, hinode, hindex⟩
    · exact ⟨z, by rw [setEntry, AList.lookup_insert_ne hx, hz], rfl, rfl⟩
  refine ⟨h.lru, h.chain, fun x hx => ?_, fun i x => ?_, ?_, h.count, h.bound, fun x hx y hy => ?_⟩
  · obtain ⟨z, hz⟩ := h.alloc x hx
    obtain ⟨y, hy, -⟩ := hnew x z hz
    exact ⟨y, hy⟩
  · have hchain := h.mem_chain i x
    constructor
    · intro hx
      obtain ⟨hlru, z, hz, hi⟩ := hchain.mp hx
      obtain ⟨y, hy, hyi, hyx⟩ := hnew x z hz
      exact ⟨hlru, y, hy, by rw [hyi, hyx, hi]⟩
    · rintro ⟨hlru, y, hy, hi⟩
      obtain ⟨z, hz, hyi, hyx⟩ := hold x y hy
      exact hchain.mpr ⟨hlru, z, hz, by rw [← hyi, ← hyx, hi]⟩
  · intro x hx x' hx' y y' hy hy' hi hi'
    obtain ⟨z, hz, hyi, hyx⟩ := hold x y hy
    obtain ⟨z', hz', hyi', hyx'⟩ := hold x' y' hy'
    exact h.unique x hx x' hx' z z' hz hz' (by rw [← hyi, hi, hyi']) (by rw [← hyx, hi', hyx'])
  · by_cases hxp : x = ptr
    · subst hxp
      rw [setEntry, AList.lookup_insert] at hy
      cases hy
      exact hpage
    · rw [setEntry, AList.lookup_insert_ne hxp] at hy
      exact h.page x hx y hy

theorem Listed.unlinked (h : Listed s) (hptr : ptr ∉ s.lru) (hlru : s'.lru = s.lru)
    (hhash : s'.hash = s.hash) (hcount : s'.count = s.count)
    (hmem : ∀ x, x ≠ ptr → s'.mem.lookup x = s.mem.lookup x) : Listed s' := by
  have hsame : ∀ x ∈ s.lru, s'.mem.lookup x = s.mem.lookup x := by
    intro x hx
    refine hmem x ?_
    rintro rfl
    exact hptr hx
  refine ⟨hlru ▸ h.lru, hhash ▸ h.chain, fun x hx => ?_, fun i x => ?_, ?_, ?_, ?_, fun x hx => ?_⟩
  · rw [hlru] at hx
    rw [hsame x hx]
    exact h.alloc x hx
  · rw [hhash, hlru, h.mem_chain]
    constructor
    · rintro ⟨hx, he⟩
      exact ⟨hx, by rwa [hsame x hx]⟩
    · rintro ⟨hx, he⟩
      exact ⟨hx, by rwa [hsame x hx] at he⟩
  · intro x hx y hy
    rw [hlru] at hx hy
    rw [hsame x hx, hsame y hy]
    exact h.unique x hx y hy
  · rw [hcount, hlru]
    exact h.count
  · rw [hcount]
    exact h.bound
  · rw [hlru] at hx
    rw [hsame x hx]
    exact h.page x hx

theorem Listed.link (h : Listed s) (hptr : ptr ∉ s.lru) (he : s.mem.lookup ptr = some (newEntry r))
    (hnone : lookup r s = none) (hcount : s.count < maxPages) : Listed (link ptr r s) := by
  refine ⟨List.nodup_cons.mpr ⟨hptr, h.lru⟩, fun i => ?_, fun x hx => ?_, fun i x => ?_, ?_, ?_,
    hcount, fun x hx y hy => ?_⟩
  · by_cases hi : i = hashIndex r.inode r.index
    · subst hi
      simp only [Filemap.link, update_self, List.nodup_cons]
      exact ⟨fun hx => hptr ((h.mem_chain _ _).mp hx).1, h.chain _⟩
    · simp only [Filemap.link, update_of_ne hi]
      exact h.chain i
  · rcases List.mem_cons.mp hx with rfl | hx
    · exact ⟨_, he⟩
    · exact h.alloc x hx
  · have hold := h.mem_chain i x
    by_cases hxp : x = ptr
    · subst hxp
      by_cases hi : i = hashIndex r.inode r.index
      · subst hi
        simp only [Filemap.link, update_self, List.mem_cons, true_or, true_iff]
        exact ⟨trivial, newEntry r, he, rfl⟩
      · simp only [Filemap.link, update_of_ne hi]
        constructor
        · intro hx
          exact absurd (hold.mp hx).1 hptr
        · rintro ⟨-, y, hy, hyi⟩
          obtain rfl := Option.some.inj (he.symm.trans hy)
          exact absurd hyi.symm hi
    · have hchain : x ∈ (Filemap.link ptr r s).hash i ↔ x ∈ s.hash i := by
        by_cases hi : i = hashIndex r.inode r.index
        · subst hi
          simp only [Filemap.link, update_self, List.mem_cons, hxp, false_or]
        · simp only [Filemap.link, update_of_ne hi]
      rw [hchain, hold]
      simp only [Filemap.link, List.mem_cons, hxp, false_or]
  · -- no structure that was linked is one for the same page
    have hfresh : ∀ x ∈ s.lru, ∀ y, s.mem.lookup x = some y →
        ¬ (y.inode = (newEntry r).inode ∧ y.index = (newEntry r).index) :=
      fun x hx y hy => h.lookup_none hnone hx hy
    intro x hx x' hx' y y' hy hy' hi hi'
    have hy₀ : s.mem.lookup x = some y := hy
    have hy₁ : s.mem.lookup x' = some y' := hy'
    rcases List.mem_cons.mp hx with rfl | hold
    · obtain rfl := Option.some.inj (he.symm.trans hy₀)
      rcases List.mem_cons.mp hx' with rfl | hold'
      · rfl
      · exact absurd ⟨hi.symm, hi'.symm⟩ (hfresh x' hold' y' hy₁)
    · rcases List.mem_cons.mp hx' with rfl | hold'
      · obtain rfl := Option.some.inj (he.symm.trans hy₁)
        exact absurd ⟨hi, hi'⟩ (hfresh x hold y hy₀)
      · exact h.unique x hold x' hold' y y' hy₀ hy₁ hi hi'
  · simp only [Filemap.link, List.length_cons, h.count]
  · have hy₀ : s.mem.lookup x = some y := hy
    rcases List.mem_cons.mp hx with rfl | hx
    · obtain rfl := Option.some.inj (he.symm.trans hy₀)
      simp [newEntry]
    · exact h.page x hx y hy₀

theorem Listed.remove (h : Listed s) (hptr : ptr ∈ s.lru) (he : s.mem.lookup ptr = some e) :
    Listed (removeLocked ptr e s) ∧ ptr ∉ (removeLocked ptr e s).lru := by
  have hmem : ∀ x, x ∈ (removeLocked ptr e s).lru ↔ x ≠ ptr ∧ x ∈ s.lru :=
    fun x => h.lru.mem_erase_iff
  have hsub : ∀ x, x ∈ (removeLocked ptr e s).lru → x ∈ s.lru := fun x hx => ((hmem x).mp hx).2
  refine ⟨⟨h.lru.erase _, fun i => ?_, fun x hx => h.alloc x (hsub x hx), fun i x => ?_,
    fun x hx y hy => h.unique x (hsub x hx) y (hsub y hy), ?_, ?_,
    fun x hx => h.page x (hsub x hx)⟩, fun hx => ((hmem ptr).mp hx).1 rfl⟩
  · simp only [removeLocked, putPage]
    by_cases hi : i = hashIndex e.inode e.index
    · subst hi
      rw [update_self]
      exact (h.chain _).erase _
    · rw [update_of_ne hi]
      exact h.chain i
  · rw [hmem]
    simp only [removeLocked, putPage]
    by_cases hi : i = hashIndex e.inode e.index
    · subst hi
      rw [update_self, (h.chain _).mem_erase_iff, h.mem_chain]
      tauto
    · rw [update_of_ne hi, h.mem_chain]
      constructor
      · rintro ⟨hx, y, hy, hyi⟩
        refine ⟨⟨?_, hx⟩, y, hy, hyi⟩
        rintro rfl
        obtain rfl := Option.some.inj (he.symm.trans hy)
        exact hi hyi.symm
      · rintro ⟨⟨-, hx⟩, hy⟩
        exact ⟨hx, hy⟩
  · simp only [removeLocked, putPage, List.length_erase_of_mem hptr, h.count]
  · simp only [removeLocked, putPage]
    exact (Nat.sub_le ..).trans h.bound

end Mario.Filemap
