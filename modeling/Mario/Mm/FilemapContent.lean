import Mario.Mm.FilemapRuns

/-!
# The bytes in the page cache

A page that is up to date has the bytes of the file. This fails when a write or a cut
reaches the file after a loader has read it and before it publishes its page, while a
write goes beyond `i_size`, and when `i_size` moves over bytes of the disk that are not
zero. The result is about the runs without such steps.
-/

namespace Mario.Filemap

open Mario.Lib Function

variable {c : Config} {s s' s'' : State} {t : ℕ} {pc pc' : Pc} {r : Request} {ptr : ℕ} {e e' : Entry}
variable {f i x : ℕ}

/-! ## Pages with the bytes of a file -/

/-- The frames of linked structures for a page of a file. -/
def published (s : State) (inode index : ℕ) : List ℕ :=
  s.lru.filterMap fun ptr => (s.mem.lookup ptr).bind fun e =>
    if e.inode = inode ∧ e.index = index then e.page else none

/-- The frame that a task has read, when it is going to publish it. -/
def Pc.loaded (mem : Table ℕ Entry) (inode index : ℕ) : Pc → Option ℕ
  | .finish r ptr page ret =>
      if ret = 0 ∧ r.inode = inode ∧ r.index = index ∧
          (mem.lookup ptr).any fun e => decide (e.state = .loading) then page
      else none
  | _ => none

/-- The frames for a page of a file that tasks have read and not published. -/
def loaded (s : State) (inode index : ℕ) : List ℕ :=
  (Table.values s.tasks).filterMap (Pc.loaded s.mem inode index)

/-- The frames that have or will have the bytes of a page of a file. -/
def live (s : State) (inode index : ℕ) : List ℕ := published s inode index ++ loaded s inode index

theorem mem_published : f ∈ published s i x ↔ ∃ p ∈ s.lru, ∃ e, s.mem.lookup p = some e ∧
    e.inode = i ∧ e.index = x ∧ e.page = some f := by
  unfold published
  rw [List.mem_filterMap]
  constructor
  · rintro ⟨p, hp, hf⟩
    obtain ⟨e, he, hpage⟩ := Option.bind_eq_some_iff.mp hf
    split_ifs at hpage with hpos
    exact ⟨p, hp, e, he, hpos.1, hpos.2, hpage⟩
  · rintro ⟨p, hp, e, he, hi, hx, hpage⟩
    exact ⟨p, hp, by rw [he, Option.bind_some, if_pos ⟨hi, hx⟩, hpage]⟩

theorem mem_loaded : f ∈ loaded s i x ↔ ∃ t p e, s.tasks.lookup t =
    some (.finish ⟨i, x⟩ p (some f) 0) ∧ s.mem.lookup p = some e ∧ e.state = .loading := by
  unfold loaded
  rw [List.mem_filterMap]
  constructor
  · rintro ⟨pc, hpc, hf⟩
    obtain ⟨t, ht⟩ := Table.mem_values.mp hpc
    cases pc with
    | finish r p page ret =>
      simp only [Pc.loaded] at hf
      split_ifs at hf with hcond
      obtain ⟨rfl, rfl, rfl, hstate⟩ := hcond
      cases he : s.mem.lookup p with
      | none =>
        rw [he] at hstate
        cases hstate
      | some e =>
        rw [he, Option.any_some, decide_eq_true_eq] at hstate
        exact ⟨t, p, e, hf ▸ ht, he, hstate⟩
    | _ => cases hf
  · rintro ⟨t, p, e, ht, he, hstate⟩
    refine ⟨_, Table.mem_values.mpr ⟨t, ht⟩, ?_⟩
    have hloading : (s.mem.lookup p).any (fun e => decide (e.state = .loading)) = true := by
      rw [he, Option.any_some, decide_eq_true hstate]
    simp only [Pc.loaded, hloading, and_self, if_true]

/-- The byte of the frame is the byte of the file, or was stored through a mapping. -/
def RightByte (s : State) (f inode index o : ℕ) : Prop :=
  s.dirty f o = true ∨ s.data f o = fileByte s inode (index * pageSize + o)

/-- Every live frame has the bytes of the file. -/
def Content (s : State) : Prop :=
  ∀ f i x, f ∈ live s i x → ∀ o < pageSize, RightByte s f i x o

/-! ## Frames are not shared -/

theorem published_cachePages (h : f ∈ published s i x) : f ∈ cachePages s := by
  obtain ⟨p, hp, e, he, -, -, hpage⟩ := mem_published.mp h
  exact List.mem_filterMap.mpr ⟨p, hp, by rw [pageOf, he, Option.bind_some, hpage]⟩

theorem loaded_taskPages (h : f ∈ loaded s i x) : f ∈ taskPages s.tasks := by
  obtain ⟨t, p, -, ht, -⟩ := mem_loaded.mp h
  exact List.mem_filterMap.mpr ⟨_, Table.mem_values.mpr ⟨t, ht⟩, rfl⟩

theorem live_refs (h : f ∈ live s i x) : f ∈ refs s := by
  rcases List.mem_append.mp h with h | h
  · exact List.mem_append_left _ (published_cachePages h)
  · exact List.mem_append_right _ (loaded_taskPages h)

theorem Inv.page_unique {p q : ℕ} (h : Inv s) (hp : p ∈ s.lru) (hq : q ∈ s.lru)
    (hpf : pageOf s p = some f) (hqf : pageOf s q = some f) : p = q := by
  by_contra hne
  have hnodup : (cachePages s).Nodup := (List.nodup_append.mp h.distinct).1
  have hpair := (List.pairwise_filterMap.mp hnodup)
  have hsymm : Std.Symm fun a b => ∀ g, pageOf s a = some g → ∀ g', pageOf s b = some g' → g ≠ g' :=
    ⟨fun a b hab g hg g' hg' => (hab g' hg' g hg).symm⟩
  exact hpair.forall hp hq hne f hpf f hqf rfl

theorem Inv.not_loaded (h : Inv s) (hf : f ∈ cachePages s) : f ∉ taskPages s.tasks :=
  fun ht => (List.nodup_append.mp h.distinct).2.2 f hf f ht rfl

/-! ## Steps that only drop frames -/

/-- The live frames after a step were live before. -/
structure Shrinks (s s' : State) : Prop where
  linked : ∀ p ∈ s'.lru, ∀ e' f, s'.mem.lookup p = some e' → e'.page = some f →
    p ∈ s.lru ∧ ∃ e, s.mem.lookup p = some e ∧ e.page = some f ∧ e.inode = e'.inode ∧
      e.index = e'.index
  tasks : ∀ t r p f, s'.tasks.lookup t = some (.finish r p (some f) 0) →
    s.tasks.lookup t = some (.finish r p (some f) 0)
  loading : ∀ p e', s'.mem.lookup p = some e' → e'.state = .loading →
    ∃ e, s.mem.lookup p = some e ∧ e.state = .loading

theorem Shrinks.trans (h : Shrinks s s') (h' : Shrinks s' s'') : Shrinks s s'' := by
  refine ⟨fun p hp e'' f he'' hpage => ?_, fun t r p f ht => h.tasks t r p f (h'.tasks t r p f ht),
    fun p e'' he'' hstate => ?_⟩
  · obtain ⟨hp', e', he', hpage', hi', hx'⟩ := h'.linked p hp e'' f he'' hpage
    obtain ⟨hp, e, he, hpage, hi, hx⟩ := h.linked p hp' e' f he' hpage'
    exact ⟨hp, e, he, hpage, hi.trans hi', hx.trans hx'⟩
  · obtain ⟨e', he', hstate'⟩ := h'.loading p e'' he'' hstate
    exact h.loading p e' he' hstate'

theorem Shrinks.published (h : Shrinks s s') (hf : f ∈ published s' i x) : f ∈ published s i x := by
  obtain ⟨p, hp, e', he', rfl, rfl, hpage⟩ := mem_published.mp hf
  obtain ⟨hp, e, he, hpage, hi, hx⟩ := h.linked p hp e' f he' hpage
  exact mem_published.mpr ⟨p, hp, e, he, hi, hx, hpage⟩

theorem Shrinks.loaded (h : Shrinks s s') (hf : f ∈ loaded s' i x) : f ∈ loaded s i x := by
  obtain ⟨t, p, e', ht, he', hstate⟩ := mem_loaded.mp hf
  obtain ⟨e, he, hstate⟩ := h.loading p e' he' hstate
  exact mem_loaded.mpr ⟨t, p, e, h.tasks t _ p f ht, he, hstate⟩

theorem Shrinks.live (h : Shrinks s s') (hf : f ∈ live s' i x) : f ∈ live s i x := by
  rcases List.mem_append.mp hf with hf | hf
  · exact List.mem_append_left _ (h.published hf)
  · exact List.mem_append_right _ (h.loaded hf)

theorem shrinks_congr (hmem : s'.mem = s.mem) (hlru : s'.lru = s.lru) (htasks : s'.tasks = s.tasks) : Shrinks s s' := by
  refine ⟨fun p hp e f he hpage => ?_, fun t r p f ht => htasks ▸ ht, fun p e he hstate => ?_⟩
  · exact ⟨hlru ▸ hp, e, hmem ▸ he, hpage, rfl, rfl⟩
  · exact ⟨e, hmem ▸ he, hstate⟩

theorem shrinks_setPc (t : ℕ) (s : State) (h : ∀ r p f, pc' ≠ .finish r p (some f) 0) : Shrinks s (setPc t pc' s) := by
  refine ⟨fun p hp e f he hpage => ⟨hp, e, he, hpage, rfl, rfl⟩, fun u r p f hu => ?_,
    fun p e he hstate => ⟨e, he, hstate⟩⟩
  by_cases hut : u = t
  · subst hut
    rw [setPc, AList.lookup_insert] at hu
    exact absurd (Option.some.inj hu) (h r p f)
  · rwa [setPc, AList.lookup_insert_ne hut] at hu

theorem shrinks_removeLocked (ptr : ℕ) (e : Entry) (s : State) :
    Shrinks s (removeLocked ptr e s) :=
  ⟨fun _ hp e' _ he' hpage => ⟨List.mem_of_mem_erase hp, e', he', hpage, rfl, rfl⟩,
    fun _ _ _ _ ht => ht, fun _ e' he' hstate => ⟨e', he', hstate⟩⟩

theorem lookup_kfree {p : ℕ} (h : (kfree ptr s).mem.lookup p = some e) : s.mem.lookup p = some e := by
  by_cases hp : p = ptr
  · subst hp
    rw [kfree, AList.lookup_erase] at h
    cases h
  · rwa [kfree, AList.lookup_erase_ne hp] at h

theorem shrinks_kfree (ptr : ℕ) (s : State) : Shrinks s (kfree ptr s) :=
  ⟨fun _ hp e' _ he' hpage => ⟨hp, e', lookup_kfree he', hpage, rfl, rfl⟩,
    fun _ _ _ _ ht => ht, fun _ e' he' hstate => ⟨e', lookup_kfree he', hstate⟩⟩

theorem shrinks_touch (hptr : ptr ∈ s.lru) : Shrinks s (touchLocked ptr s) := by
  refine ⟨fun p hp e' f he' hpage => ⟨?_, e', he', hpage, rfl, rfl⟩, fun _ _ _ _ ht => ht,
    fun _ e' he' hstate => ⟨e', he', hstate⟩⟩
  exact (List.perm_cons_erase hptr).symm.mem_iff.mp hp

theorem shrinks_setEntry (he : s.mem.lookup ptr = some e) (hpage : e'.page = e.page)
    (hinode : e'.inode = e.inode) (hindex : e'.index = e.index)
    (hstate : e'.state = .loading → e.state = .loading) : Shrinks s (setEntry ptr e' s) := by
  refine ⟨fun p hp e₁ f he₁ hf => ?_, fun _ _ _ _ ht => ht, fun p e₁ he₁ hloading => ?_⟩
  · by_cases hpp : p = ptr
    · subst hpp
      rw [setEntry, AList.lookup_insert] at he₁
      cases he₁
      exact ⟨hp, e, he, hpage ▸ hf, hinode.symm, hindex.symm⟩
    · rw [setEntry, AList.lookup_insert_ne hpp] at he₁
      exact ⟨hp, e₁, he₁, hf, rfl, rfl⟩
  · by_cases hpp : p = ptr
    · subst hpp
      rw [setEntry, AList.lookup_insert] at he₁
      cases he₁
      exact ⟨e, he, hstate hloading⟩
    · rw [setEntry, AList.lookup_insert_ne hpp] at he₁
      exact ⟨e₁, he₁, hloading⟩

theorem shrinks_wake (ptr : ℕ) (s : State) : Shrinks s (wakeUpAll ptr s) := by
  refine ⟨fun p hp e' f he' hpage => ⟨hp, e', he', hpage, rfl, rfl⟩, fun t r p f ht => ?_,
    fun _ e' he' hstate => ⟨e', he', hstate⟩⟩
  rw [wakeUpAll, Table.lookup_mapVal] at ht
  obtain ⟨pc, hpc, hwake⟩ := Option.map_eq_some_iff.mp ht
  cases pc with
  | asleep r' p' =>
    simp only [Pc.wake] at hwake
    split_ifs at hwake
  | finish r' p' page' ret' =>
    rw [hpc, ← hwake]
    rfl
  | _ => cases hwake

theorem shrinks_link (he : s.mem.lookup ptr = some (newEntry r)) : Shrinks s (link ptr r s) := by
  refine ⟨fun p hp e' f he' hpage => ?_, fun _ _ _ _ ht => ht, fun _ e' he' hstate => ⟨e', he', hstate⟩⟩
  rcases List.mem_cons.mp hp with rfl | hp
  · obtain rfl := Option.some.inj (he.symm.trans he')
    cases hpage
  · exact ⟨hp, e', he', hpage, rfl, rfl⟩

theorem shrinks_dropEntry (he : s.mem.lookup ptr = some e) : Shrinks s (dropEntry ptr e s) := by
  unfold dropEntry
  split_ifs with hstate
  · exact shrinks_setEntry he rfl rfl rfl fun _ => hstate
  · exact (shrinks_removeLocked ptr e s).trans (shrinks_kfree ptr _)

/-- The bytes of frames and files are the same. -/
structure SameBytes (s s' : State) : Prop where
  data : s'.data = s.data
  dirty : s'.dirty = s.dirty
  disk : s'.disk = s.disk
  size : s'.size = s.size

theorem sameBytes_refl (s : State) : SameBytes s s := ⟨rfl, rfl, rfl, rfl⟩

theorem SameBytes.trans (h : SameBytes s s') (h' : SameBytes s' s'') : SameBytes s s'' :=
  ⟨h'.data.trans h.data, h'.dirty.trans h.dirty, h'.disk.trans h.disk, h'.size.trans h.size⟩

theorem sameBytes_dropEntry (ptr : ℕ) (e : Entry) (s : State) : SameBytes s (dropEntry ptr e s) := by
  unfold dropEntry
  split_ifs
  · exact ⟨rfl, rfl, rfl, rfl⟩
  · exact ⟨rfl, rfl, rfl, rfl⟩

theorem RightByte.same {o : ℕ} (h : RightByte s f i x o) (hb : SameBytes s s') : RightByte s' f i x o := by
  unfold RightByte fileByte at h ⊢
  rw [hb.data, hb.dirty, hb.disk, hb.size]
  exact h

theorem Content.quiet (h : Content s) (hs : Shrinks s s') (hb : SameBytes s s') : Content s' :=
  fun f i x hf o ho => (h f i x (hs.live hf) o ho).same hb

theorem Content.dead (h : Content s) (hs : Shrinks s s')
    (hdata : ∀ g, g ≠ f → s'.data g = s.data g) (hdirty : ∀ g, g ≠ f → s'.dirty g = s.dirty g)
    (hdisk : s'.disk = s.disk) (hsize : s'.size = s.size) (hf : ∀ i x, f ∉ live s i x) : Content s' := by
  intro g i x hg o ho
  have hne : g ≠ f := by
    rintro rfl
    exact hf i x (hs.live hg)
  have hold := h g i x (hs.live hg) o ho
  unfold RightByte fileByte at hold ⊢
  rw [hdata g hne, hdirty g hne, hdisk, hsize]
  exact hold

/-! ## The steps of `filemap_get_page` and `filemap_fill_page` -/

theorem Content.look (h : Content s) (hinv : Inv s) (hs' : look t r s = some s') : Content s' := by
  unfold Filemap.look at hs'
  split at hs'
  · cases hs'
    exact h.quiet (shrinks_setPc t s fun _ _ _ hpc => by cases hpc) ⟨rfl, rfl, rfl, rfl⟩
  · next ptr hlook =>
    obtain ⟨hptr, e, he, -⟩ := hinv.listed.lookup_some hlook
    rw [he, Option.bind_some] at hs'
    split at hs'
    · obtain ⟨f, -, rfl⟩ := Option.map_eq_some_iff.mp hs'
      have href : Shrinks s { s with pool := s.pool.ref f, held := f :: s.held } :=
        shrinks_congr rfl rfl rfl
      refine h.quiet ((href.trans (shrinks_touch hptr)).trans ?_) ⟨rfl, rfl, rfl, rfl⟩
      exact shrinks_setPc t _ fun _ _ _ hpc => by cases hpc
    · cases hs'
      refine h.quiet ((shrinks_removeLocked ptr e s).trans ?_) ⟨rfl, rfl, rfl, rfl⟩
      exact shrinks_setPc t _ fun _ _ _ hpc => by cases hpc
    · cases hs'
      exact h.quiet (shrinks_setPc t s fun _ _ _ hpc => by cases hpc) ⟨rfl, rfl, rfl, rfl⟩

/-- A new structure has no page, and no task has read a page for it. -/
theorem Content.kmalloc (h : Content s) (hinv : Inv s) (hptr : ptr ∉ s.mem) :
    Content (setPc t (.fresh r ptr) (setEntry ptr (newEntry r) s)) := by
  have hold : ∀ p e, s.mem.lookup p = some e →
      (setEntry ptr (newEntry r) s).mem.lookup p = s.mem.lookup p := by
    intro p e he
    refine AList.lookup_insert_ne ?_
    rintro rfl
    exact hptr (AList.lookup_isSome.mp (by rw [he]; rfl))
  have hpc : Shrinks (setEntry ptr (newEntry r) s) (setPc t (.fresh r ptr) (setEntry ptr (newEntry r) s)) :=
    shrinks_setPc t _ fun _ _ _ hpc => by cases hpc
  intro f i x hf o ho
  have hlive : f ∈ live s i x := by
    rcases List.mem_append.mp (hpc.live hf) with hf | hf
    · obtain ⟨p, hp, e, he, hi, hx, hpage⟩ := mem_published.mp hf
      obtain ⟨e₀, he₀⟩ := hinv.listed.alloc p hp
      rw [hold p e₀ he₀] at he
      exact List.mem_append_left _ (mem_published.mpr ⟨p, hp, e, he, hi, hx, hpage⟩)
    · obtain ⟨u, p, e, hu, he, hstate⟩ := mem_loaded.mp hf
      obtain ⟨e₀, he₀⟩ := (hinv.tasked.ok u _ hu).allocated rfl
      rw [hold p e₀ he₀] at he
      exact List.mem_append_right _ (mem_loaded.mpr ⟨u, p, e, hu, he, hstate⟩)
  exact h f i x hlive o ho

theorem Content.publish (h : Content s) (hinv : Inv s)
    (hpc : s.tasks.lookup t = some (.fresh r ptr)) : Content (publish t r ptr s) := by
  obtain ⟨hnot, he⟩ := hinv.tasked.ok t _ hpc
  have hdiscard : ∀ full, Content (setPc t (.discard r ptr full) s) := fun full =>
    h.quiet (shrinks_setPc t s fun _ _ _ hpc => by cases hpc) ⟨rfl, rfl, rfl, rfl⟩
  unfold Filemap.publish
  split_ifs with hfound hfull
  · exact hdiscard false
  · cases hv : victim s with
    | none =>
      rw [evictOne, hv, Option.bind_none]
      exact hdiscard true
    | some v =>
      obtain ⟨hvmem, e, hev, -⟩ := victim_some hv
      rw [evictOne, hv, Option.bind_some, hev, Option.map_some]
      have hne : ptr ≠ v := fun hpv => hnot (hpv ▸ hvmem)
      have hkept : (kfree v (removeLocked v e s)).mem.lookup ptr = some (newEntry r) := by
        rw [← he]
        exact AList.lookup_erase_ne hne
      refine h.quiet ((((shrinks_removeLocked v e s).trans (shrinks_kfree v _)).trans
        (shrinks_link hkept)).trans ?_) ⟨rfl, rfl, rfl, rfl⟩
      exact shrinks_setPc t _ fun _ _ _ hpc => by cases hpc
  · refine h.quiet ((shrinks_link he).trans ?_) ⟨rfl, rfl, rfl, rfl⟩
    exact shrinks_setPc t _ fun _ _ _ hpc => by cases hpc

/-- The frame of a task that has not read it yet is not live. -/
theorem Inv.load_dead {g : ℕ} (h : Inv s) (hpc : s.tasks.lookup t = some (.load r ptr g)) : ∀ i x, g ∉ live s i x := by
  have htasks := taskPages_perm s.tasks t
  rw [hpc] at htasks
  have hnodup : (taskPages s.tasks).Nodup := (List.nodup_append.mp h.distinct).2.1
  have hothers : g ∉ taskPages (s.tasks.erase t) := (List.nodup_cons.mp (htasks.nodup_iff.mp hnodup)).1
  have hmem : g ∈ taskPages s.tasks := htasks.mem_iff.mpr List.mem_cons_self
  intro i x hg
  rcases List.mem_append.mp hg with hg | hg
  · exact h.not_loaded (published_cachePages hg) hmem
  · obtain ⟨u, p, e, hu, -⟩ := mem_loaded.mp hg
    have hut : u ≠ t := by
      rintro rfl
      rw [hpc] at hu
      cases hu
    have hu' : (s.tasks.erase t).lookup u = some (.finish ⟨i, x⟩ p (some g) 0) := by
      rw [AList.lookup_erase_ne hut, hu]
    exact hothers (List.mem_filterMap.mpr ⟨_, Table.mem_values.mpr ⟨u, hu'⟩, rfl⟩)

theorem Content.read {g : ℕ} {ret : ℤ} (h : Content s) (hinv : Inv s) (hpc : s.tasks.lookup t = some (.load r ptr g))
    (hsize : s.size r.inode < wordSize / 2) : Content (setPc t (.finish r ptr (some g) ret) (readPage r g s)) := by
  have hdead := hinv.load_dead hpc
  intro f i x hf o ho
  by_cases hfg : f = g
  · subst hfg
    -- the frame is live for the page that was read
    have hpage : r = ⟨i, x⟩ := by
      rcases List.mem_append.mp hf with hf | hf
      · exact absurd (List.mem_append_left _ hf) (hdead i x)
      · obtain ⟨u, p, e, hu, he, hstate⟩ := mem_loaded.mp hf
        by_cases hut : u = t
        · subst hut
          rw [setPc, AList.lookup_insert] at hu
          injection Option.some.inj hu
        · rw [setPc, AList.lookup_insert_ne hut] at hu
          exact absurd (List.mem_append_right _ (mem_loaded.mpr ⟨u, p, e, hu, he, hstate⟩)) (hdead i x)
    subst hpage
    right
    simp only [setPc, readPage, update_self, fileByte, size64, if_pos hsize]
  · have hlive : f ∈ live s i x := by
      rcases List.mem_append.mp hf with hf | hf
      · exact List.mem_append_left _ hf
      · obtain ⟨u, p, e, hu, he, hstate⟩ := mem_loaded.mp hf
        by_cases hut : u = t
        · subst hut
          rw [setPc, AList.lookup_insert] at hu
          injection Option.some.inj hu with _ _ hpage
          exact absurd (Option.some.inj hpage).symm hfg
        · rw [setPc, AList.lookup_insert_ne hut] at hu
          exact List.mem_append_right _ (mem_loaded.mpr ⟨u, p, e, hu, he, hstate⟩)
    have hold := h f i x hlive o ho
    unfold RightByte at hold ⊢
    simp only [setPc, readPage, update_of_ne hfg]
    exact hold

theorem Content.finish_uptodate (h : Content s)
    (hpc : s.tasks.lookup t = some (.finish r ptr (some f) 0)) (he : s.mem.lookup ptr = some e)
    (hptr : ptr ∈ s.lru) (hstate : e.state = .loading) (hinode : e.inode = r.inode) (hindex : e.index = r.index) :
    Content (setPc t (.returned (.ok f)) (wakeUpAll ptr (touchLocked ptr
      { setEntry ptr { e with page := some f, state := .uptodate } s with
        pool := s.pool.ref f, held := f :: s.held }))) := by
  intro g i x hg o ho
  have hquiet : Shrinks (setEntry ptr { e with page := some f, state := .uptodate } s)
      (setPc t (.returned (.ok f)) (wakeUpAll ptr (touchLocked ptr
        { setEntry ptr { e with page := some f, state := .uptodate } s with
          pool := s.pool.ref f, held := f :: s.held }))) := by
    have href : Shrinks (setEntry ptr { e with page := some f, state := .uptodate } s)
        { setEntry ptr { e with page := some f, state := .uptodate } s with
          pool := s.pool.ref f, held := f :: s.held } := shrinks_congr rfl rfl rfl
    refine ((href.trans (shrinks_touch hptr)).trans (shrinks_wake ptr _)).trans ?_
    exact shrinks_setPc t _ fun _ _ _ hpc => by cases hpc
  -- what is live with the new page was live, as a published or as a loaded page
  have hlive : g ∈ live s i x := by
    rcases List.mem_append.mp (hquiet.live hg) with hg | hg
    · obtain ⟨p, hp, e', he', hi, hx, hpage⟩ := mem_published.mp hg
      by_cases hpp : p = ptr
      · subst hpp
        rw [setEntry, AList.lookup_insert] at he'
        cases he'
        obtain rfl : f = g := Option.some.inj hpage
        have hr : r = ⟨i, x⟩ := by
          cases r
          simp only at hi hx hinode hindex
          rw [← hinode, hi, ← hindex, hx]
        subst hr
        exact List.mem_append_right _ (mem_loaded.mpr ⟨t, p, e, hpc, he, hstate⟩)
      · rw [setEntry, AList.lookup_insert_ne hpp] at he'
        exact List.mem_append_left _ (mem_published.mpr ⟨p, hp, e', he', hi, hx, hpage⟩)
    · obtain ⟨u, p, e', hu, he', hstate'⟩ := mem_loaded.mp hg
      by_cases hpp : p = ptr
      · subst hpp
        rw [setEntry, AList.lookup_insert] at he'
        cases he'
        cases hstate'
      · rw [setEntry, AList.lookup_insert_ne hpp] at he'
        exact List.mem_append_right _ (mem_loaded.mpr ⟨u, p, e', hu, he', hstate'⟩)
  exact (h g i x hlive o ho).same ⟨rfl, rfl, rfl, rfl⟩

theorem Content.finish {page : Option ℕ} {ret : ℤ} (h : Content s) (hinv : Inv s)
    (hpc : s.tasks.lookup t = some (.finish r ptr page ret))
    (hs' : finish t r ptr page ret s = some s') : Content s' := by
  obtain ⟨⟨hptr, e, he, hfill⟩, hpos⟩ := hinv.tasked.ok t _ hpc
  obtain ⟨hinode, hindex⟩ := hpos e he
  unfold Filemap.finish at hs'
  rw [he, Option.bind_some] at hs'
  split_ifs at hs' with hstate hret
  · cases hs'
    refine h.quiet (((shrinks_removeLocked ptr e s).trans (shrinks_wake ptr _)).trans ?_) ⟨rfl, rfl, rfl, rfl⟩
    exact shrinks_setPc t _ fun _ _ _ hpc => by cases hpc
  · cases hs'
    have hset : Shrinks s (setEntry ptr { e with state := .error, error := ret } s) :=
      shrinks_setEntry he rfl rfl rfl fun hloading => by cases hloading
    refine h.quiet ((hset.trans (shrinks_wake ptr _)).trans ?_) ⟨rfl, rfl, rfl, rfl⟩
    exact shrinks_setPc t _ fun _ _ _ hpc => by cases hpc
  · obtain ⟨f, rfl, rfl⟩ := Option.map_eq_some_iff.mp hs'
    obtain rfl : ret = 0 := not_not.mp hret
    exact h.finish_uptodate hpc he hptr (hfill.resolve_right hstate) hinode hindex

theorem quiet_foldl {body : State → ℕ → State} (hbody : ∀ s p, Shrinks s (body s p) ∧ SameBytes s (body s p)) :
    ∀ (l : List ℕ) (s : State), Shrinks s (l.foldl body s) ∧ SameBytes s (l.foldl body s) := by
  intro l
  induction l with
  | nil => exact fun s => ⟨shrinks_congr rfl rfl rfl, sameBytes_refl s⟩
  | cons p l ih =>
    intro s
    obtain ⟨hs, hb⟩ := hbody s p
    obtain ⟨hs', hb'⟩ := ih (body s p)
    exact ⟨hs.trans hs', hb.trans hb'⟩

theorem Content.invalidateInode (h : Content s) (inode : ℕ) : Content (invalidateInode inode s) := by
  have hquiet : Shrinks s (Filemap.invalidateInode inode s) ∧
      SameBytes s (Filemap.invalidateInode inode s) := by
    refine quiet_foldl (fun u p => ?_) s.lru s
    split
    · exact ⟨shrinks_congr rfl rfl rfl, sameBytes_refl u⟩
    · next e he =>
      split_ifs
      · exact ⟨shrinks_congr rfl rfl rfl, sameBytes_refl u⟩
      · exact ⟨shrinks_dropEntry he, sameBytes_dropEntry p e u⟩
  exact h.quiet hquiet.1 hquiet.2

/-! ## Writes -/

/-- The frame that `filemap_update_cached_range` finds for a page. -/
def cachedFrame (s : State) (inode index : ℕ) : Option ℕ :=
  ((lookup ⟨inode, index⟩ s).bind fun ptr => s.mem.lookup ptr).bind fun e =>
    if e.state = .uptodate then e.page else none

theorem cachedFrame_congr (hmem : s'.mem = s.mem) (hhash : s'.hash = s.hash) (inode index : ℕ) :
    cachedFrame s' inode index = cachedFrame s inode index := by
  unfold cachedFrame lookup
  rw [hmem, hhash]

theorem Inv.cachedFrame_iff (h : Inv s) : cachedFrame s i x = some f ↔ f ∈ published s i x := by
  unfold cachedFrame
  rw [mem_published]
  constructor
  · intro hf
    obtain ⟨e, he, hpage⟩ := Option.bind_eq_some_iff.mp hf
    obtain ⟨p, hlook, he⟩ := Option.bind_eq_some_iff.mp he
    obtain ⟨hp, e', he', hi, hx⟩ := h.listed.lookup_some hlook
    obtain rfl := Option.some.inj (he.symm.trans he')
    split_ifs at hpage
    exact ⟨p, hp, e, he, hi, hx, hpage⟩
  · rintro ⟨p, hp, e, he, rfl, rfl, hpage⟩
    have hstate := (h.listed.page p hp e he).mp (by rw [hpage]; rfl)
    rw [h.listed.lookup_eq (r := ⟨e.inode, e.index⟩) hp he rfl rfl, Option.bind_some, he,
      Option.bind_some, if_pos hstate, hpage]

section

variable {inode off count : ℕ} {bytes : ℕ → ℕ}

theorem updatePage_none (h : cachedFrame s inode x = none) : updatePage inode off count bytes s x = s := by
  unfold cachedFrame at h
  unfold updatePage
  split
  · rfl
  · next e he =>
    rw [he, Option.bind_some] at h
    split_ifs at h with hstate
    · rw [if_pos hstate, h]
      rfl
    · rw [if_neg hstate]

theorem updatePage_some (h : cachedFrame s inode x = some f) : updatePage inode off count bytes s x = overwrite f
      (fun o => decide (o < pageSize ∧ off ≤ x * pageSize + o ∧ x * pageSize + o < off + count))
      (fun o => bytes (x * pageSize + o)) s := by
  unfold cachedFrame at h
  unfold updatePage
  split
  · next hnone =>
    rw [hnone] at h
    cases h
  · next e he =>
    rw [he, Option.bind_some] at h
    split_ifs at h with hstate
    rw [if_pos hstate, h]
    rfl

/-- A frame that is not cached for the file does not change. -/
theorem foldl_updatePage_other (off count : ℕ) (bytes : ℕ → ℕ) (l : List ℕ) (s : State)
    (h : ∀ y, cachedFrame s inode y ≠ some f) :
    (l.foldl (updatePage inode off count bytes) s).data f = s.data f ∧
      (l.foldl (updatePage inode off count bytes) s).dirty f = s.dirty f := by
  induction l generalizing s with
  | nil => exact ⟨rfl, rfl⟩
  | cons y l ih =>
    have hbytes := updatePage_onlyBytes inode off count bytes s y
    obtain ⟨hdata, hdirty⟩ := ih (updatePage inode off count bytes s y) fun z => by
      rw [cachedFrame_congr hbytes.mem hbytes.hash]
      exact h z
    rw [List.foldl_cons, hdata, hdirty]
    cases hy : cachedFrame s inode y with
    | none =>
      rw [updatePage_none hy]
      exact ⟨rfl, rfl⟩
    | some g =>
      have hne : f ≠ g := fun hfg => h y (hfg ▸ hy)
      rw [updatePage_some hy]
      exact ⟨update_of_ne hne .., update_of_ne hne ..⟩

theorem foldl_updatePage_self (off count : ℕ) (bytes : ℕ → ℕ) (l : List ℕ) (s : State)
    (hx : cachedFrame s inode x = some f)
    (hinj : ∀ y, cachedFrame s inode y = some f → y = x) {o : ℕ} (ho : o < pageSize) :
    ((l.foldl (updatePage inode off count bytes) s).data f o =
      if x ∈ l ∧ off ≤ x * pageSize + o ∧ x * pageSize + o < off + count
      then bytes (x * pageSize + o) else s.data f o) ∧
    ((l.foldl (updatePage inode off count bytes) s).dirty f o =
      if x ∈ l ∧ off ≤ x * pageSize + o ∧ x * pageSize + o < off + count
      then false else s.dirty f o) := by
  induction l generalizing s with
  | nil => simp
  | cons y l ih =>
    have hbytes := updatePage_onlyBytes inode off count bytes s y
    have hsame := cachedFrame_congr hbytes.mem hbytes.hash
    obtain ⟨hdata, hdirty⟩ := ih (updatePage inode off count bytes s y) (by rw [hsame, hx])
      fun z hz => hinj z (by rw [← hsame, hz])
    rw [List.foldl_cons, hdata, hdirty]
    by_cases hyx : y = x
    · subst hyx
      rw [updatePage_some hx]
      simp only [overwrite, update_self, ho, true_and, decide_eq_true_eq, List.mem_cons, true_or]
      by_cases hin : off ≤ y * pageSize + o ∧ y * pageSize + o < off + count
      · simp [hin]
      · simp [hin]
    · have hunchanged : (updatePage inode off count bytes s y).data f = s.data f ∧
          (updatePage inode off count bytes s y).dirty f = s.dirty f := by
        cases hy : cachedFrame s inode y with
        | none =>
          rw [updatePage_none hy]
          exact ⟨rfl, rfl⟩
        | some g =>
          have hne : f ≠ g := by
            rintro rfl
            exact hyx (hinj y hy)
          rw [updatePage_some hy]
          exact ⟨update_of_ne hne .., update_of_ne hne ..⟩
      rw [hunchanged.1, hunchanged.2]
      have hmem : x ∈ y :: l ↔ x ∈ l := by
        rw [List.mem_cons]
        exact ⟨fun hm => hm.resolve_left fun hxy => hyx hxy.symm, Or.inr⟩
      simp only [hmem, and_self]

theorem mem_pagesOf {o : ℕ} (ho : o < pageSize) (hlow : off ≤ x * pageSize + o)
    (hhigh : x * pageSize + o < off + count) : x ∈ pagesOf off count := by
  have hpos : 0 < pageSize := Nat.lt_of_le_of_lt (Nat.zero_le o) ho
  have hx : (x * pageSize + o) / pageSize = x := by
    rw [Nat.mul_comm, Nat.mul_add_div hpos, Nat.div_eq_of_lt ho, Nat.add_zero]
  have hlower : off / pageSize ≤ x := by
    rw [← hx]
    exact Nat.div_le_div_right hlow
  have hupper : x ≤ (off + count - 1) / pageSize := by
    rw [← hx]
    exact Nat.div_le_div_right (by omega)
  unfold pagesOf
  rw [if_neg (by omega), List.mem_range'_1]
  omega

end

/-- Frames of one file are not frames of another one, and each is that of one page. -/
theorem Inv.published_unique {i' x' : ℕ} (h : Inv s) (hf : f ∈ published s i x)
    (hf' : f ∈ published s i' x') : i = i' ∧ x = x' := by
  obtain ⟨p, hp, e, he, rfl, rfl, hpage⟩ := mem_published.mp hf
  obtain ⟨p', hp', e', he', rfl, rfl, hpage'⟩ := mem_published.mp hf'
  obtain rfl : p = p' := h.page_unique hp hp' (by rw [pageOf, he, Option.bind_some, hpage])
    (by rw [pageOf, he', Option.bind_some, hpage'])
  obtain rfl := Option.some.inj (he.symm.trans he')
  exact ⟨rfl, rfl⟩

theorem page_div {o : ℕ} (ho : o < pageSize) : (x * pageSize + o) / pageSize = x := by
  have hpos : 0 < pageSize := Nat.lt_of_le_of_lt (Nat.zero_le o) ho
  rw [Nat.mul_comm, Nat.mul_add_div hpos, Nat.div_eq_of_lt ho, Nat.add_zero]

theorem page_mod {o : ℕ} (ho : o < pageSize) : (x * pageSize + o) % pageSize = o := by
  rw [Nat.mul_comm, Nat.mul_add_mod, Nat.mod_eq_of_lt ho]

/-- A chunk is written that shows no byte beyond `i_size` and changes no page that was
read and is not published. -/
theorem Content.writeChunk {inode start left n : ℕ} {bytes : ℕ → ℕ} (h : Content s) (hinv : Inv s)
    (hend : ∀ off, start ≤ off → off < start + n → s.size inode ≤ off →
      published s inode (off / pageSize) ≠ [] → bytes off = 0)
    (hloaded : ∀ off, start ≤ off → off < start + n → off < s.size inode →
      loaded s inode (off / pageSize) ≠ [] → bytes off = s.disk inode off) :
    Content (writeChunk t inode start left n bytes s) := by
  unfold Filemap.writeChunk
  generalize hu : ({ s with
    disk := update s.disk inode fun o =>
      if start ≤ o ∧ o < start + n then bytes o else s.disk inode o } : State) = u
  have hcached : ∀ y, cachedFrame u inode y = cachedFrame s inode y := by
    subst hu
    exact fun y => cachedFrame_congr rfl rfl inode y
  have hbytes := updateCachedRange_onlyBytes inode start n bytes u
  have hus : Shrinks s u := by
    subst hu
    exact shrinks_congr rfl rfl rfl
  have hshrinks : Shrinks s (setPc t (.writing inode ((start + n) % wordSize) (left - n))
      (updateCachedRange inode start n bytes u)) := by
    refine (hus.trans (shrinks_congr hbytes.mem hbytes.lru hbytes.tasks)).trans ?_
    exact shrinks_setPc t _ fun _ _ _ hpc => by cases hpc
  -- the bytes of the file after the chunk
  have hfile : ∀ off, fileByte (updateCachedRange inode start n bytes u) inode off =
      if off < s.size inode then
        if start ≤ off ∧ off < start + n then bytes off else s.disk inode off else 0 := by
    intro off
    unfold fileByte
    rw [hbytes.size, hbytes.disk]
    subst hu
    simp only [update_self]
  have hother : ∀ j off, j ≠ inode →
      fileByte (updateCachedRange inode start n bytes u) j off = fileByte s j off := by
    intro j off hj
    unfold fileByte
    rw [hbytes.size, hbytes.disk]
    subst hu
    simp only [update_of_ne hj]
  -- a frame that is not published for the file keeps its bytes
  have hkept : ∀ g, (∀ y, g ∉ published s inode y) →
      (updateCachedRange inode start n bytes u).data g = s.data g ∧
        (updateCachedRange inode start n bytes u).dirty g = s.dirty g := by
    intro g hg
    have hsame := foldl_updatePage_other start n bytes (pagesOf start n) u fun y hy => hg y (hinv.cachedFrame_iff.mp (hcached y ▸ hy))
    subst hu
    exact hsame
  intro g j y hg o ho
  have hlive := hshrinks.live hg
  have hold := h g j y hlive o ho
  unfold RightByte at hold ⊢
  change (updateCachedRange inode start n bytes u).dirty g o = true ∨
    (updateCachedRange inode start n bytes u).data g o =
      fileByte (updateCachedRange inode start n bytes u) j (y * pageSize + o)
  by_cases hj : j = inode
  · subst hj
    rcases List.mem_append.mp hlive with hpub | hload
    · have hself := foldl_updatePage_self start n bytes (pagesOf start n) u (by rw [hcached]; exact hinv.cachedFrame_iff.mpr hpub)
        (fun z hz => by
          rw [hcached] at hz
          exact (hinv.published_unique (hinv.cachedFrame_iff.mp hz) hpub).2) ho
      obtain ⟨hdata, hdirty⟩ := hself
      rw [hfile]
      unfold updateCachedRange
      rw [hdata, hdirty]
      by_cases hin : start ≤ y * pageSize + o ∧ y * pageSize + o < start + n
      · rw [if_pos ⟨mem_pagesOf ho hin.1 hin.2, hin⟩, if_pos ⟨mem_pagesOf ho hin.1 hin.2, hin⟩, if_pos hin]
        right
        split_ifs with hsize
        · rfl
        · refine hend _ hin.1 hin.2 (by omega) ?_
          rw [page_div ho]
          exact List.ne_nil_of_mem hpub
      · rw [if_neg fun hm => hin hm.2, if_neg fun hm => hin hm.2, if_neg hin]
        subst hu
        exact hold
    · have hnot : ∀ z, g ∉ published s j z := fun z hz =>
        hinv.not_loaded (published_cachePages hz) (loaded_taskPages hload)
      obtain ⟨hdata, hdirty⟩ := hkept g hnot
      rw [hdata, hdirty, hfile]
      refine hold.imp id fun hbyte => hbyte.trans ?_
      unfold fileByte
      split_ifs with hsize hin
      · refine (hloaded _ hin.1 hin.2 hsize ?_).symm
        rw [page_div ho]
        exact List.ne_nil_of_mem hload
      · rfl
      · rfl
  · have hnot : ∀ z, g ∉ published s inode z := by
      intro z hz
      rcases List.mem_append.mp hlive with hpub | hload
      · exact hj (hinv.published_unique hpub hz).1
      · exact hinv.not_loaded (published_cachePages hz) (loaded_taskPages hload)
    obtain ⟨hdata, hdirty⟩ := hkept g hnot
    rw [hdata, hdirty, hother j _ hj]
    exact hold

theorem Content.setSize {inode size : ℕ} (h : Content s)
    (hzero : ∀ off, (s.size inode ≤ off ∧ off < size) ∨ (size ≤ off ∧ off < s.size inode) →
      ∀ f ∈ live s inode (off / pageSize),
        s.disk inode off = 0 ∨ s.dirty f (off % pageSize) = true) : Content (setSize inode size s) := by
  intro f i x hf o ho
  have hlive : f ∈ live s i x := hf
  have hold := h f i x hlive o ho
  unfold RightByte at hold ⊢
  by_cases hi : i = inode
  · subst hi
    have hbetween := hzero (x * pageSize + o)
    rw [page_div ho, page_mod ho] at hbetween
    simp only [fileByte, Filemap.setSize, update_self] at hold ⊢
    by_cases hlow : x * pageSize + o < s.size i
    · by_cases hhigh : x * pageSize + o < size
      · rw [if_pos hlow] at hold
        rwa [if_pos hhigh]
      · rw [if_pos hlow] at hold
        rw [if_neg hhigh]
        rcases hbetween (Or.inr ⟨by omega, hlow⟩) f hlive with hdisk | hdirty
        · rwa [hdisk] at hold
        · exact Or.inl hdirty
    · by_cases hhigh : x * pageSize + o < size
      · rw [if_neg hlow] at hold
        rw [if_pos hhigh]
        rcases hbetween (Or.inl ⟨by omega, hhigh⟩) f hlive with hdisk | hdirty
        · rwa [hdisk]
        · exact Or.inl hdirty
      · rw [if_neg hlow] at hold
        rwa [if_neg hhigh]
  · simp only [fileByte, Filemap.setSize, update_of_ne hi] at hold ⊢
    exact hold

end Mario.Filemap
