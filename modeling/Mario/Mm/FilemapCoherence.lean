import Mario.Mm.FilemapContent

/-!
# Files and their cached pages over whole runs

The cut of a file drops the pages beyond the new size and clears the rest of the last
one, but it leaves a page alone that is being loaded, and the rest of the last block of
the disk. With this the bytes of the page cache are followed through every run.
-/

namespace Mario.Filemap

open Mario.Lib Function

variable {c : Config} {s s' s'' : State} {t : ℕ} {pc pc' : Pc} {r : Request} {ptr : ℕ} {e e' : Entry}
variable {f i x : ℕ}

/-! ## Offsets are words -/

/-- The offsets that a task works with. -/
def Pc.Bounded : Pc → Prop
  | .retry r | .missed r | .fresh r _ | .discard r _ _ | .fill r _ | .load r _ _ | .finish r _ _ _
  | .reap r _ _ | .asleep r _ | .woken r _ => r.index * pageSize < wordSize
  | .truncating _ size => size < wordSize / 2
  | _ => True

/-- The offsets of pages are words, and sizes are not negative. -/
structure Bounded (s : State) : Prop where
  mem : ∀ p e, s.mem.lookup p = some e → e.index * pageSize < wordSize
  tasks : ∀ t pc, s.tasks.lookup t = some pc → pc.Bounded

/-- Structures are freed, or change and keep their page. -/
def KeepsIndex (s s' : State) : Prop :=
  ∀ p e', s'.mem.lookup p = some e' → ∃ e, s.mem.lookup p = some e ∧ e.index = e'.index

theorem keepsIndex_refl (hmem : s'.mem = s.mem) : KeepsIndex s s' :=
  fun _ e' he' => ⟨e', hmem ▸ he', rfl⟩

theorem keepsIndex_kfree (ptr : ℕ) (s : State) : KeepsIndex s (kfree ptr s) :=
  fun _ e' he' => ⟨e', lookup_kfree he', rfl⟩

theorem keepsIndex_setEntry (he : s.mem.lookup ptr = some e) (hindex : e'.index = e.index) :
    KeepsIndex s (setEntry ptr e' s) := by
  intro p e₁ he₁
  by_cases hpp : p = ptr
  · subst hpp
    rw [setEntry, AList.lookup_insert] at he₁
    cases he₁
    exact ⟨e, he, hindex.symm⟩
  · rw [setEntry, AList.lookup_insert_ne hpp] at he₁
    exact ⟨e₁, he₁, rfl⟩

theorem KeepsIndex.trans (h : KeepsIndex s s') (h' : KeepsIndex s' s'') : KeepsIndex s s'' := by
  intro p e'' he''
  obtain ⟨e', he', hindex'⟩ := h' p e'' he''
  obtain ⟨e, he, hindex⟩ := h p e' he'
  exact ⟨e, he, hindex.trans hindex'⟩

theorem keepsIndex_foldl {body : State → ℕ → State} (hbody : ∀ s p, KeepsIndex s (body s p)) :
    ∀ (l : List ℕ) (s : State), KeepsIndex s (l.foldl body s) := by
  intro l
  induction l with
  | nil => exact fun s => keepsIndex_refl rfl
  | cons p l ih => exact fun s => (hbody s p).trans (ih (body s p))

theorem keepsIndex_dropEntry (he : s.mem.lookup ptr = some e) : KeepsIndex s (dropEntry ptr e s) := by
  unfold dropEntry
  split_ifs
  · exact keepsIndex_setEntry he rfl
  · exact keepsIndex_kfree ptr (removeLocked ptr e s)

theorem keepsIndex_invalidateEntry (inode start : ℕ) (s : State) (ptr : ℕ) :
    KeepsIndex s (invalidateEntry inode start s ptr) := by
  unfold invalidateEntry
  split
  · exact keepsIndex_refl rfl
  · next e he =>
    dsimp only
    split_ifs
    · exact keepsIndex_refl rfl
    · exact keepsIndex_dropEntry he
    · cases e.page with
      | none => exact keepsIndex_refl rfl
      | some f => exact keepsIndex_refl rfl
    · exact keepsIndex_refl rfl

theorem Bounded.same (h : Bounded s) (hmem : KeepsIndex s s') (htasks : s'.tasks = s.tasks) : Bounded s' := by
  constructor
  · intro p e' he'
    obtain ⟨e, he, hindex⟩ := hmem p e' he'
    rw [← hindex]
    exact h.mem p e he
  · rw [htasks]
    exact h.tasks

theorem Bounded.move (h : Bounded s) (hmem : KeepsIndex s s')
    (htasks : s'.tasks = s.tasks.insert t pc') (hpc' : pc'.Bounded) : Bounded s' := by
  constructor
  · intro p e' he'
    obtain ⟨e, he, hindex⟩ := hmem p e' he'
    rw [← hindex]
    exact h.mem p e he
  · intro u pu hu
    rw [htasks] at hu
    by_cases hut : u = t
    · subst hut
      rw [AList.lookup_insert] at hu
      exact Option.some.inj hu ▸ hpc'
    · rw [AList.lookup_insert_ne hut] at hu
      exact h.tasks u pu hu

theorem Bounded.wake (h : Bounded s) (ptr : ℕ) : Bounded (wakeUpAll ptr s) := by
  refine ⟨h.mem, fun u pu hu => ?_⟩
  rw [wakeUpAll, Table.lookup_mapVal] at hu
  obtain ⟨pc, hpc, rfl⟩ := Option.map_eq_some_iff.mp hu
  have hold := h.tasks u pc hpc
  cases pc with
  | asleep r p =>
    simp only [Pc.wake]
    split_ifs
    · exact hold
    · exact hold
  | _ => exact hold

theorem Bounded.finish {page : Option ℕ} {ret : ℤ} (h : Bounded s)
    (hpc : s.tasks.lookup t = some (.finish r ptr page ret))
    (hs' : finish t r ptr page ret s = some s') : Bounded s' := by
  have hr : r.index * pageSize < wordSize := h.tasks t _ hpc
  unfold Filemap.finish at hs'
  obtain ⟨e, he, hs'⟩ := Option.bind_eq_some_iff.mp hs'
  split_ifs at hs'
  · cases hs'
    have hremoved : Bounded (removeLocked ptr e s) := h.same (keepsIndex_refl rfl) rfl
    exact (hremoved.wake ptr).move (keepsIndex_refl rfl) rfl hr
  · cases hs'
    have hset : Bounded (setEntry ptr { e with state := .error, error := ret } s) :=
      h.same (keepsIndex_setEntry he rfl) rfl
    exact (hset.wake ptr).move (keepsIndex_refl rfl) rfl trivial
  · obtain ⟨f, -, rfl⟩ := Option.map_eq_some_iff.mp hs'
    have hset : Bounded (touchLocked ptr
        { setEntry ptr { e with page := some f, state := .uptodate } s with
          pool := s.pool.ref f, held := f :: s.held }) :=
      h.same (keepsIndex_setEntry he rfl) rfl
    exact (hset.wake ptr).move (keepsIndex_refl rfl) rfl trivial

theorem Bounded.look (h : Bounded s) (hpc : s.tasks.lookup t = some (.retry r))
    (hs' : look t r s = some s') : Bounded s' := by
  have hr : r.index * pageSize < wordSize := h.tasks t _ hpc
  unfold Filemap.look at hs'
  split at hs'
  · cases hs'
    exact h.move (keepsIndex_refl rfl) rfl hr
  · obtain ⟨e, -, hs'⟩ := Option.bind_eq_some_iff.mp hs'
    split at hs'
    · obtain ⟨f, -, rfl⟩ := Option.map_eq_some_iff.mp hs'
      exact h.move (keepsIndex_refl rfl) rfl trivial
    · cases hs'
      exact h.move (keepsIndex_refl rfl) rfl trivial
    · cases hs'
      exact h.move (keepsIndex_refl rfl) rfl hr

theorem Bounded.kmalloc (h : Bounded s) (hpc : s.tasks.lookup t = some (.missed r)) :
    Bounded (setPc t (.fresh r ptr) (setEntry ptr (newEntry r) s)) := by
  have hr : r.index * pageSize < wordSize := h.tasks t _ hpc
  have hset : Bounded (setEntry ptr (newEntry r) s) := by
    refine ⟨fun p e he => ?_, h.tasks⟩
    by_cases hpp : p = ptr
    · subst hpp
      rw [setEntry, AList.lookup_insert] at he
      cases he
      exact hr
    · rw [setEntry, AList.lookup_insert_ne hpp] at he
      exact h.mem p e he
  exact hset.move (keepsIndex_refl rfl) rfl hr

theorem Bounded.publish (h : Bounded s) (hpc : s.tasks.lookup t = some (.fresh r ptr)) :
    Bounded (publish t r ptr s) := by
  have hr : r.index * pageSize < wordSize := h.tasks t _ hpc
  unfold Filemap.publish
  split_ifs
  · exact h.move (keepsIndex_refl rfl) rfl hr
  · unfold evictOne
    cases victim s with
    | none => exact h.move (keepsIndex_refl rfl) rfl hr
    | some v =>
      rw [Option.bind_some]
      cases s.mem.lookup v with
      | none => exact h.move (keepsIndex_refl rfl) rfl hr
      | some e =>
        rw [Option.map_some]
        exact h.move (keepsIndex_kfree v (removeLocked v e s)) rfl hr
  · exact h.move (keepsIndex_refl rfl) rfl hr

theorem Bounded.step {lab : Label} (h : Bounded s) (hstep : Step c s lab s') : Bounded s' := by
  unfold Step at hstep
  cases lab with
  | getPage u inode offset =>
    simp only [exec] at hstep
    split_ifs at hstep with hready hoffset
    · cases hstep
      exact h.move (keepsIndex_refl rfl) rfl trivial
    · cases hstep
      refine h.move (keepsIndex_refl rfl) rfl ?_
      exact (Nat.div_mul_le_self _ _).trans_lt (Nat.mod_lt _ (by decide))
  | look u =>
    simp only [exec] at hstep
    split at hstep
    · next r hpc => exact h.look hpc hstep
    · cases hstep
  | kmalloc u answer =>
    simp only [exec] at hstep
    split at hstep
    · next r hpc =>
      cases answer with
      | none =>
        cases hstep
        exact h.move (keepsIndex_refl rfl) rfl trivial
      | some p =>
        simp only at hstep
        split_ifs at hstep with hp
        cases hstep
        exact h.kmalloc hpc
    · cases hstep
  | publish u =>
    simp only [exec] at hstep
    split at hstep
    · next r ptr hpc =>
      cases hstep
      exact h.publish hpc
    · cases hstep
  | discard u =>
    simp only [exec] at hstep
    split at hstep
    · next r ptr full hpc =>
      cases hstep
      have hr := h.tasks u _ hpc
      cases full with
      | false => exact h.move (keepsIndex_kfree ptr s) rfl hr
      | true => exact h.move (keepsIndex_kfree ptr s) rfl trivial
    · cases hstep
  | getZeroPage u answer =>
    simp only [exec] at hstep
    split at hstep
    · next r ptr hpc =>
      have hr := h.tasks u _ hpc
      cases answer with
      | none =>
        cases hstep
        exact h.move (keepsIndex_refl rfl) rfl hr
      | some g =>
        simp only at hstep
        split_ifs at hstep with hfree
        cases hstep
        exact h.move (keepsIndex_refl rfl) rfl hr
    · cases hstep
  | read u ret =>
    simp only [exec] at hstep
    split at hstep
    · next r ptr g hpc =>
      have hr := h.tasks u _ hpc
      split_ifs at hstep
      cases hstep
      exact h.move (keepsIndex_refl rfl) rfl hr
    · cases hstep
  | finish u =>
    simp only [exec] at hstep
    split at hstep
    · next r ptr page ret hpc => exact h.finish hpc hstep
    · cases hstep
  | reap u =>
    simp only [exec] at hstep
    split at hstep
    · next r ptr page hpc =>
      have hr := h.tasks u _ hpc
      cases hstep
      exact h.move (keepsIndex_kfree ptr (putPage page s)) rfl hr
    · cases hstep
  | failed u =>
    simp only [exec] at hstep
    split at hstep
    · cases hstep
      exact h.move (keepsIndex_refl rfl) rfl trivial
    · cases hstep
  | expired u =>
    simp only [exec] at hstep
    split at hstep
    · next ptr err hpc =>
      cases hstep
      exact h.move (keepsIndex_kfree ptr s) rfl trivial
    · cases hstep
  | leave u =>
    simp only [exec] at hstep
    split at hstep
    · next r ptr hpc =>
      have hr := h.tasks u _ hpc
      split_ifs at hstep
      cases hstep
      exact h.move (keepsIndex_refl rfl) rfl hr
    · cases hstep
  | invalidateInode inode =>
    simp only [exec] at hstep
    cases hstep
    refine h.same (keepsIndex_foldl (fun s p => ?_) s.lru s) (invalidate_tasks (fun s p => ?_) s.lru s)
    · split
      · exact keepsIndex_refl rfl
      · next e he =>
        split_ifs
        · exact keepsIndex_refl rfl
        · exact keepsIndex_dropEntry he
    · split
      · rfl
      · next e he =>
        split_ifs
        · rfl
        · exact dropEntry_tasks p e s
  | writeStart u inode pos append count =>
    simp only [exec] at hstep
    by_cases hready : ready u s = false ∨ s.sem inode ≠ none
    · rw [if_pos hready] at hstep
      cases hstep
    rw [if_neg hready] at hstep
    cases hstep
    exact h.move (keepsIndex_refl rfl) rfl trivial
  | writeChunk u bytes =>
    simp only [exec] at hstep
    split at hstep
    · next inode start left hpc =>
      split_ifs at hstep
      cases hstep
      unfold Filemap.writeChunk
      generalize hv : ({ s with
        disk := update s.disk inode fun o =>
          if start ≤ o ∧ o < start + chunkLength c start left then bytes o else s.disk inode o } :
          State) = v
      have hbytes := updateCachedRange_onlyBytes inode start (chunkLength c start left) bytes v
      have hbound : Bounded v := by
        subst hv
        exact h.same (keepsIndex_refl rfl) rfl
      exact (hbound.same (keepsIndex_refl hbytes.mem) hbytes.tasks).move (keepsIndex_refl rfl) rfl trivial
    · cases hstep
  | writeEnd u =>
    simp only [exec] at hstep
    split at hstep
    · cases hstep
      exact h.move (keepsIndex_refl rfl) rfl trivial
    · cases hstep
  | truncateStart u inode size =>
    simp only [exec] at hstep
    split_ifs at hstep with hready
    cases hstep
    refine h.move (keepsIndex_refl rfl) rfl ?_
    change size < wordSize / 2
    omega
  | truncateBody u =>
    simp only [exec] at hstep
    split at hstep
    · next inode size hpc =>
      cases hstep
      unfold Filemap.truncateBody
      split_ifs
      · exact h.move (keepsIndex_refl rfl) rfl trivial
      · have hfreed : Bounded (freeBlocks c inode (fun b => decide (blocksOf c size ≤ b)) s) :=
          h.same (keepsIndex_refl rfl) rfl
        refine Bounded.move (hfreed.same ?_ (invalidatePages_tasks inode size _)) (keepsIndex_refl rfl) rfl trivial
        exact keepsIndex_foldl (keepsIndex_invalidateEntry inode size) _ _
    · cases hstep
  | truncateEnd u =>
    simp only [exec] at hstep
    split at hstep
    · cases hstep
      exact h.move (keepsIndex_refl rfl) rfl trivial
    · cases hstep
  | truncateFail u freed =>
    simp only [exec] at hstep
    split at hstep
    · split_ifs at hstep
      cases hstep
      exact h.move (keepsIndex_refl rfl) rfl trivial
    · cases hstep
  | hold f | retain f | release f | store f o byte =>
    simp only [exec] at hstep
    split_ifs at hstep
    cases hstep
    exact h.same (keepsIndex_refl rfl) rfl

/-! ## The cut of a file -/

/-- The rule for a loop over the linked structures that turns `A` into `B` for each, where
a pass of the loop leaves the other structures alone. -/
theorem foldl_turn {I : State → Prop} {A B : State → ℕ → Prop} {body : State → ℕ → State}
    (hinv : ∀ u p, I u → p ∈ u.lru → A u p → I (body u p))
    (hlru : ∀ u p q, I u → p ∈ u.lru → A u p → q ≠ p → (q ∈ (body u p).lru ↔ q ∈ u.lru))
    (hturn : ∀ u p, I u → p ∈ u.lru → A u p → p ∈ (body u p).lru → B (body u p) p)
    (hleft : ∀ u p q, I u → p ∈ u.lru → A u p → q ≠ p → q ∈ u.lru → A u q → A (body u p) q)
    (hdone : ∀ u p q, I u → p ∈ u.lru → A u p → q ≠ p → q ∈ u.lru → B u q → B (body u p) q) :
    ∀ (l : List ℕ) (u : State), l.Nodup → I u → (∀ p ∈ l, p ∈ u.lru ∧ A u p) →
      (∀ p ∈ u.lru, p ∉ l → B u p) → I (l.foldl body u) ∧ ∀ p ∈ (l.foldl body u).lru, B (l.foldl body u) p := by
  intro l
  induction l with
  | nil => exact fun u _ h _ hb => ⟨h, fun p hp => hb p hp List.not_mem_nil⟩
  | cons p l ih =>
    intro u hnodup h hall hb
    obtain ⟨hpl, hnodup⟩ := List.nodup_cons.mp hnodup
    obtain ⟨hp, hA⟩ := hall p List.mem_cons_self
    refine ih (body u p) hnodup (hinv u p h hp hA) (fun q hq => ?_) fun q hq hql => ?_
    · have hne : q ≠ p := fun hqp => hpl (hqp ▸ hq)
      obtain ⟨hqu, hAq⟩ := hall q (List.mem_cons_of_mem p hq)
      exact ⟨(hlru u p q h hp hA hne).mpr hqu, hleft u p q h hp hA hne hqu hAq⟩
    · by_cases hqp : q = p
      · subst hqp
        exact hturn u q h hp hA hq
      · have hqu := (hlru u p q h hp hA hqp).mp hq
        have hnot : q ∉ p :: l := fun hm => (List.mem_cons.mp hm).elim hqp hql
        exact hdone u p q h hp hA hqp hqu (hb q hqu hnot)

section

variable {inode start : ℕ}

/-- A structure that the loop has not seen has the bytes that it had. -/
def Uncut (inode start : ℕ) (s u : State) (p : ℕ) : Prop :=
  DropOk (reaches inode start) u p ∧ ∀ f, pageOf u p = some f →
    u.data f = s.data f ∧ u.dirty f = s.dirty f

/-- A structure that the loop has seen is below the cut, and its bytes beyond are zero. -/
def Cut (inode start : ℕ) (s u : State) (p : ℕ) : Prop :=
  ∀ e, u.mem.lookup p = some e →
    (e.inode = inode → e.state = .loading ∨ e.page ≠ none → e.index * pageSize < start) ∧
    ∀ f, e.page = some f → ∀ o < pageSize,
      (u.data f o = if e.inode = inode ∧ start ≤ e.index * pageSize + o then 0 else s.data f o) ∧
      (u.dirty f o =
        if e.inode = inode ∧ start ≤ e.index * pageSize + o then false else s.dirty f o)

/-- What holds all through the loop. -/
structure Cutting (s u : State) : Prop where
  inv : Inv u
  bounded : Bounded u
  disk : u.disk = s.disk
  size : u.size = s.size
  shrinks : Shrinks s u
  tasks : u.tasks = s.tasks
  others : ∀ f, f ∉ cachePages s → u.data f = s.data f ∧ u.dirty f = s.dirty f

theorem invalidateEntry_cases (inode : ℕ) {u : State} {p : ℕ} (hinv : Inv u) (hp : p ∈ u.lru)
    (he : u.mem.lookup p = some e) (hindex : e.index * pageSize < wordSize) (hstart : start < wordSize / 2) :
    (invalidateEntry inode start u p = u ∧ (e.inode = inode → e.index * pageSize < start ∧
      (e.page ≠ none → e.index * pageSize + pageSize ≤ start))) ∨
    (e.inode = inode ∧ start ≤ e.index * pageSize ∧
      invalidateEntry inode start u p = dropEntry p e u) ∨
    (e.inode = inode ∧ e.index * pageSize < start ∧ ∃ f, e.page = some f ∧
      invalidateEntry inode start u p = overwrite f
        (fun o => decide (start - e.index * pageSize ≤ o ∧ o < pageSize)) (fun _ => 0) u) := by
  have hwrap : e.index * pageSize % wordSize = e.index * pageSize := Nat.mod_eq_of_lt hindex
  unfold invalidateEntry
  rw [he]
  dsimp only
  rw [hwrap]
  split_ifs with hinode hreach hcut
  · exact Or.inl ⟨rfl, fun hi => absurd hi hinode⟩
  · exact Or.inr (Or.inl ⟨not_not.mp hinode, hreach, rfl⟩)
  · have hsome := (hinv.listed.page p hp e he).mpr hcut.2
    obtain ⟨f, hf⟩ := Option.isSome_iff_exists.mp hsome
    refine Or.inr (Or.inr ⟨not_not.mp hinode, by omega, f, hf, ?_⟩)
    rw [hf]
    rfl
  · refine Or.inl ⟨rfl, fun _ => ⟨by omega, fun hpage => ?_⟩⟩
    have hstate := (hinv.listed.page p hp e he).mp (Option.isSome_iff_ne_none.mpr hpage)
    have hend : ¬ start < (e.index * pageSize + pageSize) % wordSize := fun hlt => hcut ⟨hlt, hstate⟩
    have hlow : e.index * pageSize < start := by omega
    have hsmall : e.index * pageSize + pageSize < wordSize := by
      have hroom : wordSize / 2 + pageSize < wordSize := by decide
      omega
    rw [Nat.mod_eq_of_lt hsmall] at hend
    omega

variable {u : State} {p q : ℕ}

theorem Cutting.pass (h : Cutting s u) (hstart : start < wordSize / 2) (hp : p ∈ u.lru)
    (hA : Uncut inode start s u p) : Cutting s (invalidateEntry inode start u p) := by
  obtain ⟨hinv, hframe⟩ := h.inv.invalidateEntry hp hA.1
  obtain ⟨e, he⟩ := h.inv.listed.alloc p hp
  have hbounded : Bounded (invalidateEntry inode start u p) :=
    h.bounded.same (keepsIndex_invalidateEntry inode start u p) hframe.tasks
  rcases invalidateEntry_cases inode h.inv hp he (h.bounded.mem p e he) hstart with
    ⟨heq, -⟩ | ⟨-, -, heq⟩ | ⟨-, -, f, hf, heq⟩
  · rwa [heq]
  · rw [heq] at hinv hframe hbounded ⊢
    have hbytes := sameBytes_dropEntry p e u
    exact ⟨hinv, hbounded, hbytes.disk.trans h.disk, hbytes.size.trans h.size,
      h.shrinks.trans (shrinks_dropEntry he), hframe.tasks.trans h.tasks,
      fun g hg => by rw [hbytes.data, hbytes.dirty]; exact h.others g hg⟩
  · rw [heq] at hinv hframe hbounded ⊢
    refine ⟨hinv, hbounded, h.disk, h.size, h.shrinks.trans (shrinks_congr rfl rfl rfl), h.tasks, fun g hg => ?_⟩
    have hne : g ≠ f := by
      rintro rfl
      have hpub : g ∈ published u e.inode e.index :=
        mem_published.mpr ⟨p, hp, e, he, rfl, rfl, hf⟩
      exact hg (published_cachePages (h.shrinks.published hpub))
    obtain ⟨hdata, hdirty⟩ := h.others g hg
    exact ⟨(update_of_ne hne ..).trans hdata, (update_of_ne hne ..).trans hdirty⟩

/-- A pass of the loop leaves the frames of the other structures alone. -/
theorem Cutting.pass_other (inode : ℕ) (h : Cutting s u) (hstart : start < wordSize / 2) (hp : p ∈ u.lru)
    (hne : q ≠ p) (hq : q ∈ u.lru) (hf : pageOf u q = some f) :
    (invalidateEntry inode start u p).data f = u.data f ∧ (invalidateEntry inode start u p).dirty f = u.dirty f := by
  obtain ⟨e, he⟩ := h.inv.listed.alloc p hp
  rcases invalidateEntry_cases inode h.inv hp he (h.bounded.mem p e he) hstart with
    ⟨heq, -⟩ | ⟨-, -, heq⟩ | ⟨-, -, g, hg, heq⟩
  · rw [heq]
    exact ⟨rfl, rfl⟩
  · have hbytes := sameBytes_dropEntry p e u
    rw [heq, hbytes.data, hbytes.dirty]
    exact ⟨rfl, rfl⟩
  · have hfg : f ≠ g := by
      rintro rfl
      exact hne (h.inv.page_unique hq hp hf (by rw [pageOf, he, Option.bind_some, hg]))
    rw [heq]
    exact ⟨update_of_ne hfg .., update_of_ne hfg ..⟩

theorem Cutting.pass_turn (h : Cutting s u) (hstart : start < wordSize / 2) (hp : p ∈ u.lru)
    (hA : Uncut inode start s u p) (hp' : p ∈ (invalidateEntry inode start u p).lru) :
    Cut inode start s (invalidateEntry inode start u p) p := by
  obtain ⟨e, he⟩ := h.inv.listed.alloc p hp
  have hpage := h.inv.listed.page p hp e he
  have hold : ∀ f, e.page = some f → u.data f = s.data f ∧ u.dirty f = s.dirty f := fun f hf =>
    hA.2 f (by rw [pageOf, he, Option.bind_some, hf])
  intro e' he'
  rcases invalidateEntry_cases inode h.inv hp he (h.bounded.mem p e he) hstart with
    ⟨heq, hbelow⟩ | ⟨-, hreach, heq⟩ | ⟨hinode, hlow, f, hf, heq⟩
  · rw [heq] at he' ⊢
    obtain rfl := Option.some.inj (he.symm.trans he')
    refine ⟨fun hi _ => (hbelow hi).1, fun f hf o ho => ?_⟩
    have hnot : ¬ (e.inode = inode ∧ start ≤ e.index * pageSize + o) := by
      rintro ⟨hi, hle⟩
      have := (hbelow hi).2 (by rw [hf]; exact Option.some_ne_none f)
      omega
    obtain ⟨hdata, hdirty⟩ := hold f hf
    rw [if_neg hnot, if_neg hnot, hdata, hdirty]
    exact ⟨rfl, rfl⟩
  · -- the structure is gone, or it has no page and is not loading any more
    rw [heq] at he' hp'
    unfold dropEntry at he' hp'
    split_ifs at he' hp' with hstate
    · rw [setEntry, AList.lookup_insert] at he'
      cases he'
      have hnone : e.page = none := by
        rw [hstate] at hpage
        simpa using hpage
      refine ⟨fun _ hor => ?_, fun f hf => ?_⟩
      · rcases hor with hor | hor
        · cases hor
        · exact absurd hnone hor
      · rw [hnone] at hf
        cases hf
    · exact absurd hp' (h.inv.listed.remove hp he).2
  · rw [heq] at he' ⊢
    obtain rfl := Option.some.inj (he.symm.trans he')
    refine ⟨fun _ _ => hlow, fun g hg o ho => ?_⟩
    obtain rfl : f = g := Option.some.inj (hf.symm.trans hg)
    obtain ⟨hdata, hdirty⟩ := hold f hf
    simp only [overwrite, update_self, ho, and_true, decide_eq_true_eq, hinode, true_and]
    have hiff : start - e.index * pageSize ≤ o ↔ start ≤ e.index * pageSize + o := by omega
    rw [hdata, hdirty]
    simp only [hiff, and_self]

theorem invalidatePages_cut (hinv : Inv s) (hbounded : Bounded s) (hstart : start < wordSize / 2)
    (hok : ∀ p ∈ s.lru, DropOk (reaches inode start) s p) :
    Cutting s (invalidatePages inode start s) ∧ ∀ p ∈ (invalidatePages inode start s).lru,
      Cut inode start s (invalidatePages inode start s) p := by
  refine foldl_turn (I := Cutting s) (A := Uncut inode start s) (B := Cut inode start s)
    (fun u p hu hp hA => hu.pass hstart hp hA) (fun u p q hu hp hA hne => ?_)
    (fun u p hu hp hA hp' => hu.pass_turn hstart hp hA hp') (fun u p q hu hp hA hne hq hAq => ?_)
    (fun u p q hu hp hA hne hq hBq => ?_) s.lru s hinv.listed.lru ?_ (fun p hp => ?_) ?_
  · exact (hu.inv.invalidateEntry hp hA.1).2.lru q hne
  · have hframe := (hu.inv.invalidateEntry hp hA.1).2
    refine ⟨hAq.1.frame hne hframe, fun f hf => ?_⟩
    rw [pageOf, hframe.mem q hne] at hf
    obtain ⟨hdata, hdirty⟩ := hu.pass_other inode hstart hp hne hq hf
    rw [hdata, hdirty]
    exact hAq.2 f hf
  · have hframe := (hu.inv.invalidateEntry hp hA.1).2
    intro e he
    rw [hframe.mem q hne] at he
    obtain ⟨hbelow, hbytes⟩ := hBq e he
    refine ⟨hbelow, fun f hf o ho => ?_⟩
    obtain ⟨hdata, hdirty⟩ := hu.pass_other inode hstart hp hne hq
      (by rw [pageOf, he, Option.bind_some, hf])
    rw [hdata, hdirty]
    exact hbytes f hf o ho
  · exact ⟨hinv, hbounded, rfl, rfl, shrinks_congr rfl rfl rfl, rfl, fun _ _ => ⟨rfl, rfl⟩⟩
  · exact ⟨hp, hok p hp, fun _ _ => ⟨rfl, rfl⟩⟩
  · exact fun p hp hnot => absurd hp hnot

end

theorem lt_blocksOf {off size : ℕ} (h : off < size) : off / c.blockSize < blocksOf c size := by
  have hpos := c.pos
  have hnext : off / c.blockSize + 1 ≤ (size + c.blockSize - 1) / c.blockSize := by
    rw [← Nat.add_div_right off hpos]
    exact Nat.div_le_div_right (by omega)
  exact hnext

/-- A cut that frees blocks. The last page is cleared, and what stays of its last block on
the disk has to be zero; a page that was read and is not published has to be zero where
blocks are freed. -/
theorem Content.cut {inode size : ℕ} (h : Content s) (hinv : Inv s) (hbounded : Bounded s)
    (hsize : size < wordSize / 2) (hok : ∀ p ∈ s.lru, DropOk (reaches inode size) s p)
    (htail : ∀ off, size ≤ off → off < s.size inode → off / pageSize * pageSize < size →
      off / c.blockSize < blocksOf c size → published s inode (off / pageSize) ≠ [] →
      s.disk inode off = 0)
    (hloaded : ∀ off, size ≤ off → off < s.size inode → off / pageSize * pageSize < size →
      blocksOf c size ≤ off / c.blockSize → loaded s inode (off / pageSize) ≠ [] →
      s.disk inode off = 0) :
    Content (setPc t (.shrunk inode size) (invalidatePages inode size
      (freeBlocks c inode (fun b => decide (blocksOf c size ≤ b)) s))) := by
  generalize hs₁ : freeBlocks c inode (fun b => decide (blocksOf c size ≤ b)) s = s₁
  have hinv₁ : Inv s₁ := by
    subst hs₁
    exact hinv.congr rfl rfl rfl rfl rfl rfl rfl
  have hbounded₁ : Bounded s₁ := by
    subst hs₁
    exact hbounded.same (keepsIndex_refl rfl) rfl
  have hshrinks₁ : Shrinks s s₁ := by
    subst hs₁
    exact shrinks_congr rfl rfl rfl
  have hbytes₁ : s₁.data = s.data ∧ s₁.dirty = s.dirty ∧ s₁.size = s.size := by
    subst hs₁
    exact ⟨rfl, rfl, rfl⟩
  have hdisk₁ : ∀ off, s₁.disk inode off =
      if blocksOf c size ≤ off / c.blockSize then 0 else s.disk inode off := by
    subst hs₁
    intro off
    simp only [freeBlocks, update_self, decide_eq_true_eq]
  have hdisk_other : ∀ j, j ≠ inode → s₁.disk j = s.disk j := by
    subst hs₁
    intro j hj
    simp only [freeBlocks, update_of_ne hj]
  have hok₁ : ∀ p ∈ s₁.lru, DropOk (reaches inode size) s₁ p := by
    subst hs₁
    exact hok
  obtain ⟨hcutting, hcut⟩ := invalidatePages_cut hinv₁ hbounded₁ hsize hok₁
  generalize invalidatePages inode size s₁ = u at hcutting hcut
  have hfile : ∀ j off, fileByte u j off = if off < s.size j then s₁.disk j off else 0 := by
    intro j off
    unfold fileByte
    rw [hcutting.size, hcutting.disk, hbytes₁.2.2]
  -- below the cut nothing changes
  have hbelow : ∀ off, off < size → fileByte u inode off = fileByte s inode off := by
    intro off hoff
    have hkept : ¬ blocksOf c size ≤ off / c.blockSize := Nat.not_le.mpr (lt_blocksOf hoff)
    rw [hfile, hdisk₁, if_neg hkept]
    rfl
  have hother : ∀ j off, j ≠ inode → fileByte u j off = fileByte s j off := by
    intro j off hj
    rw [hfile, hdisk_other j hj]
    rfl
  intro g j y hg o ho
  have hmoved : Shrinks u (setPc t (.shrunk inode size) u) :=
    shrinks_setPc t u fun _ _ _ hpc => by cases hpc
  have hgu : g ∈ live u j y := hmoved.live hg
  have hold := h g j y (hshrinks₁.live (hcutting.shrinks.live hgu)) o ho
  change u.dirty g o = true ∨ u.data g o = fileByte u j (y * pageSize + o)
  unfold RightByte at hold
  rcases List.mem_append.mp hgu with hpub | hload
  · have hpub₀ := hshrinks₁.published (hcutting.shrinks.published hpub)
    obtain ⟨p, hp, e, he, rfl, rfl, hpage⟩ := mem_published.mp hpub
    obtain ⟨hlow, hbytes⟩ := hcut p hp e he
    obtain ⟨hdata, hdirty⟩ := hbytes g hpage o ho
    rw [hbytes₁.1] at hdata
    rw [hbytes₁.2.1] at hdirty
    rw [hdata, hdirty]
    by_cases hin : e.inode = inode ∧ size ≤ e.index * pageSize + o
    · rw [if_pos hin, if_pos hin]
      obtain ⟨rfl, hle⟩ := hin
      right
      rw [hfile, hdisk₁]
      split_ifs with hold_size hfreed
      · rfl
      · refine (htail _ hle hold_size ?_ (by omega) ?_).symm
        · rw [page_div ho]
          exact hlow rfl (Or.inr (by rw [hpage]; exact Option.some_ne_none g))
        · rw [page_div ho]
          exact List.ne_nil_of_mem hpub₀
      · rfl
    · rw [if_neg hin, if_neg hin]
      by_cases hi : e.inode = inode
      · have hoff : e.index * pageSize + o < size := by
          by_contra hge
          exact hin ⟨hi, by omega⟩
        rw [hi] at hold ⊢
        rwa [hbelow _ hoff]
      · rwa [hother _ _ hi]
  · have hload₀ := hshrinks₁.loaded (hcutting.shrinks.loaded hload)
    have hnot : g ∉ cachePages s₁ := by
      intro hcache
      refine hinv₁.not_loaded hcache ?_
      rw [← hcutting.tasks]
      exact loaded_taskPages hload
    obtain ⟨hdata, hdirty⟩ := hcutting.others g hnot
    rw [hdata, hdirty, hbytes₁.1, hbytes₁.2.1]
    by_cases hj : j = inode
    · subst hj
      obtain ⟨v, p, e, hv, he, hstate⟩ := mem_loaded.mp hload
      obtain ⟨⟨hp, -⟩, hpos⟩ := hcutting.inv.tasked.ok v _ hv
      obtain ⟨hi, hx⟩ := hpos e he
      have hlow := (hcut p hp e he).1 hi (Or.inl hstate)
      rw [hx] at hlow
      by_cases hoff : y * pageSize + o < size
      · rwa [hbelow _ hoff]
      · refine hold.imp id fun hbyte => hbyte.trans ?_
        rw [hfile, hdisk₁]
        unfold fileByte
        split_ifs with hold_size hfreed
        · refine hloaded _ (by omega) hold_size ?_ hfreed ?_
          · rw [page_div ho]
            exact hlow
          · rw [page_div ho]
            exact List.ne_nil_of_mem hload₀
        · rfl
        · rfl
    · rwa [hother _ _ hj]

theorem Content.freeBlocks {inode : ℕ} {freed : ℕ → Bool} (h : Content s)
    (hzero : ∀ off, off < s.size inode → freed (off / c.blockSize) = true →
      ∀ f ∈ live s inode (off / pageSize),
        s.disk inode off = 0 ∨ s.dirty f (off % pageSize) = true) : Content (freeBlocks c inode freed s) := by
  intro f i x hf o ho
  have hlive : f ∈ live s i x := hf
  have hold := h f i x hlive o ho
  unfold RightByte at hold ⊢
  by_cases hi : i = inode
  · subst hi
    simp only [fileByte, Filemap.freeBlocks, update_self] at hold ⊢
    split_ifs with hsize hfreed
    · have hcase := hzero (x * pageSize + o) hsize hfreed f
      rw [page_div ho, page_mod ho] at hcase
      rw [if_pos hsize] at hold
      rcases hcase hlive with hdisk | hdirty
      · rwa [hdisk] at hold
      · exact Or.inl hdirty
    · rwa [if_pos hsize] at hold
    · rwa [if_neg hsize] at hold
  · simp only [fileByte, Filemap.freeBlocks, update_of_ne hi] at hold ⊢
    exact hold

/-! ## Runs -/

/-- The byte of the disk is zero, where a live frame shows it. -/
def zeroAt (s : State) (inode off : ℕ) : Bool :=
  (live s inode (off / pageSize)).all fun f =>
    decide (s.disk inode off = 0) || s.dirty f (off % pageSize)

/-- The bytes of the disk in a range are zero, where a live frame shows them. -/
def zeroBetween (s : State) (inode low high : ℕ) : Bool :=
  (List.range' low (high - low)).all (zeroAt s inode)

/-- Writes and cuts reach no page that was read and is not published, unless they leave
its bytes as they are; bytes beyond `i_size` are not shown by a cached page, except
zeros; and `i_size` moves, or blocks are freed, only over bytes that are zero where the
cache is not cleared. Sizes that are read or that move are not negative. -/
def bytesSafe (c : Config) (s : State) : Label → Bool
  | .read t _ =>
      match s.tasks.lookup t with
      | some (.load r _ _) => decide (s.size r.inode < wordSize / 2)
      | _ => true
  | .writeChunk t bytes =>
      match s.tasks.lookup t with
      | some (.writing inode start left) =>
          (List.range' start (chunkLength c start left)).all fun off =>
            (decide (off < s.size inode) || (published s inode (off / pageSize)).isEmpty ||
              decide (bytes off = 0)) &&
            (decide (s.size inode ≤ off) || (loaded s inode (off / pageSize)).isEmpty ||
              decide (bytes off = s.disk inode off))
      | _ => true
  | .writeEnd t =>
      match s.tasks.lookup t with
      | some (.writing inode start _) =>
          decide (max (s.size inode) start < wordSize / 2) && zeroBetween s inode (s.size inode) start
      | _ => true
  | .truncateBody t =>
      match s.tasks.lookup t with
      | some (.truncating inode size) =>
          decide (s.size inode < wordSize / 2) &&
            if blocksOf c (s.size inode) ≤ blocksOf c size then
              zeroBetween s inode (s.size inode) size && zeroBetween s inode size (s.size inode)
            else
              (List.range' size (s.size inode - size)).all fun off =>
                decide (size ≤ off / pageSize * pageSize) || decide (s.disk inode off = 0) ||
                (if blocksOf c size ≤ off / c.blockSize then (loaded s inode (off / pageSize)).isEmpty
                else (published s inode (off / pageSize)).isEmpty)
      | _ => true
  | .truncateEnd t =>
      match s.tasks.lookup t with
      | some (.shrunk inode size) =>
          zeroBetween s inode (s.size inode) size && zeroBetween s inode size (s.size inode)
      | _ => true
  | .truncateFail t freed =>
      match s.tasks.lookup t with
      | some (.truncating inode size) =>
          decide (s.size inode < wordSize / 2) && (List.range (s.size inode)).all fun off =>
            !(decide (blocksOf c size ≤ off / c.blockSize) && freed (off / c.blockSize)) ||
              zeroAt s inode off
      | _ => true
  | _ => true

def BytesGood (c : Config) (s : State) (lab : Label) : Prop :=
  Good c s lab ∧ bytesSafe c s lab = true

instance (c : Config) (s : State) (lab : Label) : Decidable (BytesGood c s lab) :=
  inferInstanceAs (Decidable (_ ∧ _))

theorem zeroAt_spec {inode off : ℕ} (h : zeroAt s inode off = true) :
    ∀ f ∈ live s inode (off / pageSize), s.disk inode off = 0 ∨ s.dirty f (off % pageSize) = true := by
  intro f hf
  have hbyte := List.all_eq_true.mp h f hf
  rwa [Bool.or_eq_true, decide_eq_true_eq] at hbyte

theorem zeroBetween_spec {inode low high off : ℕ} (h : zeroBetween s inode low high = true)
    (hlow : low ≤ off) (hhigh : off < high) :
    ∀ f ∈ live s inode (off / pageSize),
      s.disk inode off = 0 ∨ s.dirty f (off % pageSize) = true :=
  zeroAt_spec (List.all_eq_true.mp h off (List.mem_range'_1.mpr (by omega)))

theorem Content.resize {inode size : ℕ} (h : Content s) (hup : zeroBetween s inode (s.size inode) size = true)
    (hdown : zeroBetween s inode size (s.size inode) = true) : Content (Filemap.setSize inode size s) := by
  refine h.setSize fun off hoff => ?_
  rcases hoff with ⟨hlow, hhigh⟩ | ⟨hlow, hhigh⟩
  · exact zeroBetween_spec hup hlow hhigh
  · exact zeroBetween_spec hdown hlow hhigh

theorem Content.outside (h : Content s) (t : ℕ) (hpc : ∀ r p f, pc' ≠ .finish r p (some f) 0) :
    Content (setPc t pc' s) :=
  h.quiet (shrinks_setPc t s hpc) ⟨rfl, rfl, rfl, rfl⟩

theorem Content.store {g o byte : ℕ} (h : Content s) :
    Content { s with
      data := update s.data g (update (s.data g) o byte)
      dirty := update s.dirty g (update (s.dirty g) o true) } := by
  intro f i x hf o' ho'
  have hold : RightByte s f i x o' := h f i x hf o' ho'
  unfold RightByte at hold ⊢
  by_cases hfg : f = g
  · subst hfg
    by_cases hoo : o' = o
    · subst hoo
      left
      simp only [update_self]
    · simp only [update_self, update_of_ne hoo]
      exact hold
  · simp only [update_of_ne hfg]
    exact hold

theorem Content.truncateBody {inode size : ℕ} (h : Content s) (hinv : Inv s) (hbounded : Bounded s)
    (hpc : s.tasks.lookup t = some (.truncating inode size))
    (hgood : BytesGood c s (.truncateBody t)) : Content (truncateBody c t inode size s) := by
  obtain ⟨hfrees, hbytes⟩ := hgood
  simp only [bytesSafe, hpc] at hbytes
  rw [Bool.and_eq_true] at hbytes
  obtain ⟨-, hbytes⟩ := hbytes
  unfold Filemap.truncateBody
  by_cases hblocks : blocksOf c (s.size inode) ≤ blocksOf c size
  · rw [if_pos hblocks, Bool.and_eq_true] at hbytes
    rw [if_pos hblocks]
    exact (h.resize hbytes.1 hbytes.2).outside t fun _ _ _ hpc => by cases hpc
  · rw [if_neg hblocks] at hbytes
    rw [if_neg hblocks]
    have hall := List.all_eq_true.mp hbytes
    refine h.cut hinv hbounded (hbounded.tasks t _ hpc) (fun p hp e he hreached => ?_)
      (fun off hlow hhigh hpage hkept hpub => ?_) fun off hlow hhigh hpage hfreed hload => ?_
    · have hdrop : freesSafely c s (.truncateBody t) = true := hfrees
      simp only [freesSafely, hpc, Bool.or_eq_true, decide_eq_true_eq, List.all_eq_true] at hdrop
      have hentry := hdrop.resolve_left hblocks p hp
      rw [he, Option.all_some, hreached] at hentry
      exact hentry
    · have hoff := hall off (List.mem_range'_1.mpr (by omega))
      rw [if_neg (by omega)] at hoff
      simp only [Bool.or_eq_true, decide_eq_true_eq, List.isEmpty_iff] at hoff
      rcases hoff with (hge | hzero) | hnone
      · omega
      · exact hzero
      · exact absurd hnone hpub
    · have hoff := hall off (List.mem_range'_1.mpr (by omega))
      rw [if_pos hfreed] at hoff
      simp only [Bool.or_eq_true, decide_eq_true_eq, List.isEmpty_iff] at hoff
      rcases hoff with (hge | hzero) | hnone
      · omega
      · exact hzero
      · exact absurd hnone hload

/-- What holds in every state of a run with good steps. -/
structure Kept (s : State) : Prop where
  inv : Inv s
  bounded : Bounded s
  content : Content s

theorem Kept.content_step {lab : Label} (h : Kept s) (hgood : BytesGood c s lab)
    (hstep : Step c s lab s') : Content s' := by
  obtain ⟨hinv, hbounded, h⟩ := h
  unfold Step at hstep
  cases lab with
  | getPage u inode offset =>
    simp only [exec] at hstep
    split_ifs at hstep
    all_goals
      cases hstep
      exact h.outside u fun _ _ _ hpc => by cases hpc
  | look u =>
    simp only [exec] at hstep
    split at hstep
    · exact h.look hinv hstep
    · cases hstep
  | kmalloc u answer =>
    simp only [exec] at hstep
    split at hstep
    · cases answer with
      | none =>
        cases hstep
        exact h.outside u fun _ _ _ hpc => by cases hpc
      | some p =>
        simp only at hstep
        split_ifs at hstep with hp
        cases hstep
        exact h.kmalloc hinv hp
    · cases hstep
  | publish u =>
    simp only [exec] at hstep
    split at hstep
    · next r ptr hpc =>
      cases hstep
      exact h.publish hinv hpc
    · cases hstep
  | discard u =>
    simp only [exec] at hstep
    split at hstep
    · next r ptr full hpc =>
      cases hstep
      have hfreed : Content (kfree ptr s) := h.quiet (shrinks_kfree ptr s) ⟨rfl, rfl, rfl, rfl⟩
      refine hfreed.outside u fun _ _ _ hpc => ?_
      split_ifs at hpc
    · cases hstep
  | getZeroPage u answer =>
    simp only [exec] at hstep
    split at hstep
    · next r ptr hpc =>
      cases answer with
      | none =>
        cases hstep
        exact h.outside u fun _ _ _ hpc => by cases hpc
      | some g =>
        simp only at hstep
        split_ifs at hstep with hfree
        cases hstep
        have hunused : ∀ i x, g ∉ live s i x := fun i x hg =>
          hinv.balanced.unused g hfree (List.mem_append_left _ (live_refs hg))
        have htaken : Content { s with
            pool := s.pool.take g
            data := update s.data g fun _ => 0
            dirty := update s.dirty g fun _ => false } :=
          h.dead (shrinks_congr rfl rfl rfl) (fun _ hne => update_of_ne hne ..)
            (fun _ hne => update_of_ne hne ..) rfl rfl hunused
        exact htaken.outside u fun _ _ _ hpc => by cases hpc
    · cases hstep
  | read u ret =>
    simp only [exec] at hstep
    split at hstep
    · next r ptr g hpc =>
      split_ifs at hstep
      cases hstep
      have hsafe := hgood.2
      simp only [bytesSafe, hpc, decide_eq_true_eq] at hsafe
      exact h.read hinv hpc hsafe
    · cases hstep
  | finish u =>
    simp only [exec] at hstep
    split at hstep
    · next r ptr page ret hpc => exact h.finish hinv hpc hstep
    · cases hstep
  | reap u =>
    simp only [exec] at hstep
    split at hstep
    · next r ptr page hpc =>
      cases hstep
      have hput : Shrinks s (putPage page s) := shrinks_congr rfl rfl rfl
      have hfreed : Content (kfree ptr (putPage page s)) :=
        h.quiet (hput.trans (shrinks_kfree ptr _)) ⟨rfl, rfl, rfl, rfl⟩
      exact hfreed.outside u fun _ _ _ hpc => by cases hpc
    · cases hstep
  | failed u =>
    simp only [exec] at hstep
    split at hstep
    · next page ret hpc =>
      cases hstep
      have hput : Content (putPage page s) :=
        h.quiet (shrinks_congr rfl rfl rfl) ⟨rfl, rfl, rfl, rfl⟩
      exact hput.outside u fun _ _ _ hpc => by cases hpc
    · cases hstep
  | expired u =>
    simp only [exec] at hstep
    split at hstep
    · next ptr err hpc =>
      cases hstep
      have hfreed : Content (kfree ptr s) := h.quiet (shrinks_kfree ptr s) ⟨rfl, rfl, rfl, rfl⟩
      exact hfreed.outside u fun _ _ _ hpc => by cases hpc
    · cases hstep
  | leave u =>
    simp only [exec] at hstep
    split at hstep
    · split_ifs at hstep
      cases hstep
      exact h.outside u fun _ _ _ hpc => by cases hpc
    · cases hstep
  | invalidateInode inode =>
    simp only [exec] at hstep
    cases hstep
    exact h.invalidateInode inode
  | writeStart u inode pos append count =>
    simp only [exec] at hstep
    by_cases hready : ready u s = false ∨ s.sem inode ≠ none
    · rw [if_pos hready] at hstep
      cases hstep
    rw [if_neg hready] at hstep
    cases hstep
    have hsem : Content { s with sem := update s.sem inode (some u) } :=
      h.quiet (shrinks_congr rfl rfl rfl) ⟨rfl, rfl, rfl, rfl⟩
    exact hsem.outside u fun _ _ _ hpc => by cases hpc
  | writeChunk u bytes =>
    simp only [exec] at hstep
    split at hstep
    · next inode start left hpc =>
      split_ifs at hstep
      cases hstep
      have hsafe := hgood.2
      simp only [bytesSafe, hpc, List.all_eq_true, Bool.and_eq_true, Bool.or_eq_true,
        decide_eq_true_eq, List.isEmpty_iff] at hsafe
      refine h.writeChunk hinv (fun off hlow hhigh hsize hpub => ?_) fun off hlow hhigh hsize hload => ?_
      · obtain ⟨(hlt | hnone) | hzero, -⟩ := hsafe off (List.mem_range'_1.mpr ⟨hlow, hhigh⟩)
        · omega
        · exact absurd hnone hpub
        · exact hzero
      · obtain ⟨-, (hge | hnone) | hsame⟩ := hsafe off (List.mem_range'_1.mpr ⟨hlow, hhigh⟩)
        · omega
        · exact absurd hnone hload
        · exact hsame
    · cases hstep
  | writeEnd u =>
    simp only [exec] at hstep
    split at hstep
    · next inode start left hpc =>
      cases hstep
      have hsafe := hgood.2
      simp only [bytesSafe, hpc] at hsafe
      rw [Bool.and_eq_true] at hsafe
      have hsized : Content (setSize inode (max (s.size inode) start) s) := by
        refine h.setSize fun off hoff => zeroBetween_spec hsafe.2 ?_ ?_
        · omega
        · omega
      exact hsized.outside u fun _ _ _ hpc => by cases hpc
    · cases hstep
  | truncateStart u inode size =>
    simp only [exec] at hstep
    split_ifs at hstep
    cases hstep
    have hsem : Content { s with sem := update s.sem inode (some u) } :=
      h.quiet (shrinks_congr rfl rfl rfl) ⟨rfl, rfl, rfl, rfl⟩
    exact hsem.outside u fun _ _ _ hpc => by cases hpc
  | truncateBody u =>
    simp only [exec] at hstep
    split at hstep
    · next inode size hpc =>
      cases hstep
      exact h.truncateBody hinv hbounded hpc hgood
    · cases hstep
  | truncateEnd u =>
    simp only [exec] at hstep
    split at hstep
    · next inode size hpc =>
      cases hstep
      have hsafe := hgood.2
      simp only [bytesSafe, hpc, Bool.and_eq_true] at hsafe
      exact (h.resize hsafe.1 hsafe.2).outside u fun _ _ _ hpc => by cases hpc
    · cases hstep
  | truncateFail u freed =>
    simp only [exec] at hstep
    split at hstep
    · next inode size hpc =>
      split_ifs at hstep
      cases hstep
      have hsafe := hgood.2
      simp only [bytesSafe, hpc, List.all_eq_true, Bool.and_eq_true, Bool.or_eq_true] at hsafe
      have hcut : Content (freeBlocks c inode
          (fun b => decide (blocksOf c size ≤ b) && freed b) s) := by
        refine h.freeBlocks fun off hsize hfreed => ?_
        have hoff := hsafe.2 off (List.mem_range.mpr hsize)
        rw [Bool.and_eq_true] at hfreed
        simp only [hfreed, Bool.not_eq_true', Bool.and_eq_false_imp] at hoff
        exact zeroAt_spec (hoff.resolve_left (by decide))
      have hkept : Content (setSize inode (s.size inode) (freeBlocks c inode
          (fun b => decide (blocksOf c size ≤ b) && freed b) s)) := by
        refine hcut.quiet (shrinks_congr rfl rfl rfl) ⟨rfl, rfl, rfl, ?_⟩
        exact update_eq_self inode s.size
      exact hkept.outside u fun _ _ _ hpc => by cases hpc
    · cases hstep
  | hold f | retain f | release f =>
    simp only [exec] at hstep
    split_ifs at hstep
    cases hstep
    exact h.quiet (shrinks_congr rfl rfl rfl) ⟨rfl, rfl, rfl, rfl⟩
  | store f o byte =>
    simp only [exec] at hstep
    split_ifs at hstep
    cases hstep
    exact h.store

theorem Kept.step {lab : Label} (h : Kept s) (hgood : BytesGood c s lab) (hstep : Step c s lab s') :
    Kept s' :=
  ⟨h.inv.step hgood.1 hstep, h.bounded.step hstep, h.content_step hgood hstep⟩

theorem Initial.kept (h : Initial s) : Kept s := by
  have hnone : ∀ {u pu}, s.tasks.lookup u ≠ some pu := by
    intro u pu hpu
    rw [h.tasks] at hpu
    cases hpu
  refine ⟨h.inv, ⟨fun p e he => ?_, fun u pu hpu => absurd hpu hnone⟩, fun f i x hf => ?_⟩
  · rw [h.mem] at he
    cases he
  · rcases List.mem_append.mp hf with hf | hf
    · obtain ⟨p, hp, -⟩ := mem_published.mp hf
      rw [h.lru] at hp
      cases hp
    · obtain ⟨u, p, e, hu, -⟩ := mem_loaded.mp hf
      exact absurd hu hnone

/-- A structure that is up to date has a page with the bytes of the file below `i_size` and
zeros from there on, except for what was stored through a mapping. -/
def Coherent (s : State) : Prop :=
  ∀ ptr ∈ s.lru, ∀ e, s.mem.lookup ptr = some e → e.state = .uptodate → ∃ f, e.page = some f ∧
    ∀ o < pageSize, s.dirty f o = true ∨
      if e.index * pageSize + o < s.size e.inode
      then s.data f o = s.disk e.inode (e.index * pageSize + o) else s.data f o = 0

theorem Kept.coherent (h : Kept s) : Coherent s := by
  intro ptr hptr e he hstate
  obtain ⟨f, hf⟩ := Option.isSome_iff_exists.mp ((h.inv.listed.page ptr hptr e he).mpr hstate)
  refine ⟨f, hf, fun o ho => ?_⟩
  have hpub : f ∈ published s e.inode e.index :=
    mem_published.mpr ⟨ptr, hptr, e, he, rfl, rfl, hf⟩
  have hbyte := h.content f _ _ (List.mem_append_left _ hpub) o ho
  unfold RightByte fileByte at hbyte
  split_ifs at hbyte ⊢
  · exact hbyte
  · exact hbyte

end Mario.Filemap
