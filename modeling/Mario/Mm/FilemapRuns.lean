import Mario.Mm.FilemapSafety

/-!
# Runs of the page cache

Each step keeps the invariant, under a condition on the state before it: it frees no
structure while a task that was woken is still in its wait queue, and it invalidates no
structure a second time.
-/

namespace Mario.Filemap

open Mario.Lib

variable {c : Config} {s s' : State} {t : ℕ} {pc pc' : Pc} {r : Request} {ptr : ℕ} {e : Entry}

/-! ## The steps of `filemap_get_page` -/

theorem TaskOk.allocated (h : TaskOk s pc) (hentry : pc.entry = some ptr) : ∃ e, s.mem.lookup ptr = some e := by
  cases pc with
  | fresh r p | discard r p _ =>
    cases hentry
    exact ⟨_, h.2⟩
  | fill r p | load r p _ | finish r p _ _ =>
    cases hentry
    obtain ⟨⟨-, e, he, -⟩, -⟩ := h
    exact ⟨e, he⟩
  | reap _ p _ | expired p _ =>
    cases hentry
    exact h.2
  | asleep r p =>
    cases hentry
    obtain ⟨-, e, he, -⟩ := h
    exact ⟨e, he⟩
  | woken r p =>
    cases hentry
    exact h
  | _ => cases hentry

/-- A new task on a structure that has no owner, and that is not its owner. -/
theorem apart_waits (hentry : pc'.entry = some ptr) (howned : pc'.owned = none)
    (hsole : pc.sole ≠ some ptr) : Apart pc' pc ∧ Apart pc pc' := by
  constructor
  · intro p hp
    rw [howned] at hp
    cases hp
  · intro p _
    refine ⟨fun hp => ?_, fun hs hp => ?_⟩
    · rw [howned] at hp
      cases hp
    · obtain rfl : ptr = p := Option.some.inj (hentry.symm.trans hp)
      exact hsole hs

/-- The owner of a structure, and a task that does not own it. -/
theorem apart_owner (hentry : pc'.entry = some ptr) (howned : pc.owned ≠ some ptr)
    (hsole : pc'.sole = some ptr → pc.entry ≠ some ptr) : Apart pc' pc ∧ Apart pc pc' := by
  constructor
  · intro p hp
    obtain rfl : ptr = p := Option.some.inj (hentry.symm.trans (Pc.entry_of_owned hp))
    exact ⟨howned, hsole⟩
  · intro p hp
    have hne : ptr ≠ p := fun hpp => howned (hpp ▸ hp)
    refine ⟨fun ho => hne ?_, fun _ he => hne ?_⟩
    · exact Option.some.inj (hentry.symm.trans (Pc.entry_of_owned ho))
    · exact Option.some.inj (hentry.symm.trans he)

theorem TaskOk.sole_unlinked (h : TaskOk s pc) (hsole : pc.sole = some ptr) : ptr ∉ s.lru := by
  cases pc with
  | fresh r p | discard r p _ =>
    cases hsole
    exact h.1
  | _ => cases hsole

theorem Inv.look_hit {f : ℕ} (h : Inv s) (hpc : s.tasks.lookup t = some (.retry r))
    (hptr : ptr ∈ s.lru) (he : s.mem.lookup ptr = some e) (hpage : e.page = some f) :
    Inv (setPc t (.returned (.ok f)) (touchLocked ptr
      { s with pool := s.pool.ref f, held := f :: s.held })) := by
  have hperm : (ptr :: s.lru.erase ptr).Perm s.lru := (List.perm_cons_erase hptr).symm
  have hof : pageOf s ptr = some f := by rw [pageOf, he, Option.bind_some, hpage]
  refine h.of_refs_ref ((h.listed.touch hptr).congr rfl rfl rfl rfl) ?_ ?_ ?_ rfl rfl
  · refine h.tasked.step keeps_id (fun u hu => ?_) (AList.lookup_insert _) trivial
      fun u pu hu hpu => ⟨?_, apart_none rfl⟩
    · rw [setPc, AList.lookup_insert_ne hu, Option.map_id_fun, id_eq]
      rfl
    · exact (h.tasked.ok u pu hpu).frame fun p _ => ⟨rfl, hperm.mem_iff⟩
  · refine (hperm.filterMap _).append (taskPages_same ?_)
    rw [touchLocked, hpc]
    rfl
  · exact List.mem_append_left _ (List.mem_filterMap.mpr ⟨ptr, hptr, hof⟩)

theorem Inv.look_error {err : ℤ} (h : Inv s) (hpc : s.tasks.lookup t = some (.retry r))
    (hptr : ptr ∈ s.lru) (he : s.mem.lookup ptr = some e) (hstate : e.state = .error) :
    Inv (setPc t (.expired ptr err) (removeLocked ptr e s)) := by
  obtain ⟨hlisted, hnot⟩ := h.listed.remove hptr he
  have hlru : ∀ p, p ≠ ptr → (p ∈ (removeLocked ptr e s).lru ↔ p ∈ s.lru) := by
    intro p hp
    exact (h.listed.lru.mem_erase_iff).trans ⟨fun hx => hx.2, fun hx => ⟨hp, hx⟩⟩
  have hwoken : ∀ u pu, s.tasks.lookup u = some pu → pu.entry = some ptr →
      ∃ r, pu = .woken r ptr := by
    intro u pu hpu hentry
    exact (h.tasked.ok u pu hpu).settled hptr he (by rw [hstate]; decide)
      (by rw [hstate]; decide) hentry
  refine h.of_refs_put (hlisted.congr rfl rfl rfl rfl) ?_ ?_ rfl rfl
  · refine h.tasked_at keeps_id (fun _ _ => rfl) (fun u hu => ?_) (AList.lookup_insert _)
      (fun p _ => rfl) hlru ⟨hnot, e, he⟩ (fun u pu hu hpu => ?_) fun u pu hu hpu hentry => ?_
    · rw [setPc, AList.lookup_insert_ne hu, Option.map_id_fun, id_eq]
      rfl
    · -- nobody else frees it, since only tasks that were woken use it
      refine apart_owner rfl (fun ho => ?_) fun hs => by cases hs
      obtain ⟨r', rfl⟩ := hwoken u pu hpu (Pc.entry_of_owned ho)
      cases ho
    · obtain ⟨r', rfl⟩ := hwoken u pu hpu hentry
      exact ⟨e, he⟩
  · have hcache : (cachePages s).Perm (e.page.toList ++ cachePages (removeLocked ptr e s)) :=
      cachePages_remove h.listed hptr he rfl fun p _ => rfl
    unfold refs
    rw [← List.append_assoc]
    refine hcache.append (taskPages_same ?_).symm
    rw [hpc]
    rfl

theorem Inv.look_wait (h : Inv s) (hpc : s.tasks.lookup t = some (.retry r)) (hptr : ptr ∈ s.lru)
    (he : s.mem.lookup ptr = some e) (hstate : e.state = .loading ∨ e.state = .invalidated) :
    Inv (setPc t (.asleep r ptr) s) := by
  refine h.move rfl rfl rfl rfl rfl rfl rfl (by rw [hpc]; rfl) ⟨hptr, e, he, hstate⟩
    fun u pu _ hpu => apart_waits rfl rfl fun hsole => ?_
  exact (h.tasked.ok u pu hpu).sole_unlinked hsole hptr

theorem Inv.look (h : Inv s) (hpc : s.tasks.lookup t = some (.retry r)) (hs' : look t r s = some s') : Inv s' := by
  unfold Filemap.look at hs'
  split at hs'
  · cases hs'
    exact h.idle rfl rfl rfl rfl rfl rfl rfl (by rw [hpc]; rfl) rfl rfl trivial
  · next ptr hlook =>
    obtain ⟨hptr, e, he, -⟩ := h.listed.lookup_some hlook
    rw [he, Option.bind_some] at hs'
    split at hs'
    · obtain ⟨f, hf, rfl⟩ := Option.map_eq_some_iff.mp hs'
      exact h.look_hit hpc hptr he hf
    · next hstate =>
      cases hs'
      exact h.look_error hpc hptr he hstate
    · next huptodate herror =>
      cases hs'
      refine h.look_wait hpc hptr he ?_
      cases hstate : e.state with
      | loading => exact Or.inl rfl
      | invalidated => exact Or.inr rfl
      | uptodate => exact absurd hstate huptodate
      | error => exact absurd hstate herror

theorem Inv.kmalloc (h : Inv s) (hpc : s.tasks.lookup t = some (.missed r)) (hptr : ptr ∉ s.mem) :
    Inv (setPc t (.fresh r ptr) (setEntry ptr (newEntry r) s)) := by
  have hnone : s.mem.lookup ptr = none := AList.lookup_eq_none.mpr hptr
  have hunused : ∀ u pu, s.tasks.lookup u = some pu → pu.entry ≠ some ptr := by
    intro u pu hpu hentry
    obtain ⟨e, he⟩ := (h.tasked.ok u pu hpu).allocated hentry
    rw [hnone] at he
    cases he
  have hnot : ptr ∉ s.lru := by
    intro hx
    obtain ⟨e, he⟩ := h.listed.alloc ptr hx
    rw [hnone] at he
    cases he
  have hmem : ∀ p, p ≠ ptr → (setEntry ptr (newEntry r) s).mem.lookup p = s.mem.lookup p :=
    fun p hp => AList.lookup_insert_ne hp
  refine h.of_refs (h.listed.unlinked hnot rfl rfl rfl hmem) ?_ ?_ rfl rfl
  · refine h.tasked_at keeps_id (fun _ _ => rfl) (fun u hu => ?_) (AList.lookup_insert _) hmem
      (fun _ _ => Iff.rfl) ⟨hnot, AList.lookup_insert _⟩ (fun u pu hu hpu => ?_)
      fun u pu _ hpu hentry => absurd hentry (hunused u pu hpu)
    · rw [setPc, AList.lookup_insert_ne hu, Option.map_id_fun, id_eq]
      rfl
    · refine apart_owner rfl (fun ho => ?_) fun _ => hunused u pu hpu
      exact hunused u pu hpu (Pc.entry_of_owned ho)
  · have hcache : cachePages (setEntry ptr (newEntry r) s) = cachePages s := by
      refine cachePages_congr rfl fun p hp => ?_
      rw [pageOf, pageOf, hmem p fun hpp => hnot (hpp ▸ hp)]
    unfold refs
    refine (List.Perm.of_eq hcache).append (taskPages_same ?_)
    rw [setEntry, hpc]
    rfl

theorem Inv.link (h : Inv s) (hpc : s.tasks.lookup t = some (.fresh r ptr))
    (hnone : lookup r s = none) (hcount : s.count < maxPages) : Inv (setPc t (.fill r ptr) (link ptr r s)) := by
  obtain ⟨hnot, he⟩ := h.tasked.ok t _ hpc
  have hunused : ∀ u pu, u ≠ t → s.tasks.lookup u = some pu → pu.entry ≠ some ptr :=
    fun u pu hu hpu => (h.tasked.apart t u _ pu (Ne.symm hu) hpc hpu ptr rfl).2 rfl
  refine h.of_refs ((h.listed.link hnot he hnone hcount).congr rfl rfl rfl rfl) ?_ ?_ rfl rfl
  · refine h.tasked_at keeps_id (fun _ _ => rfl) (fun u hu => ?_) (AList.lookup_insert _)
      (fun _ _ => rfl) (fun p hp => ?_) ⟨⟨List.mem_cons_self, _, he, Or.inl rfl⟩, ?_⟩
      (h.tasked.apart_same hpc (fun _ hp => hp) (fun _ hp => hp) fun _ hp => by cases hp)
      fun u pu hu hpu hentry => absurd hentry (hunused u pu hu hpu)
    · rw [setPc, AList.lookup_insert_ne hu, Option.map_id_fun, id_eq]
      rfl
    · simp only [setPc, Filemap.link, List.mem_cons, hp, false_or]
    · intro e' he'
      obtain rfl := Option.some.inj (he.symm.trans he')
      exact ⟨rfl, rfl⟩
  · have hcache : cachePages (Filemap.link ptr r s) = cachePages s := by
      have hof : pageOf (Filemap.link ptr r s) ptr = none := by
        rw [pageOf, Filemap.link, he]
        rfl
      unfold cachePages
      rw [show (Filemap.link ptr r s).lru = ptr :: s.lru from rfl, List.filterMap_cons, hof]
      rfl
    unfold refs
    refine (List.Perm.of_eq hcache).append (taskPages_same ?_)
    rw [Filemap.link, hpc]
    rfl

theorem victim_some (hv : victim s = some ptr) :
    ptr ∈ s.lru ∧ ∃ e, s.mem.lookup ptr = some e ∧ e.state = .uptodate := by
  have hmem := List.mem_of_find?_eq_some hv
  have hfound := List.find?_some hv
  refine ⟨List.mem_reverse.mp hmem, ?_⟩
  unfold evictable at hfound
  cases he : s.mem.lookup ptr with
  | none =>
    rw [he] at hfound
    cases hfound
  | some e =>
    rw [he, Option.any_some, Bool.and_eq_true, decide_eq_true_eq] at hfound
    exact ⟨e, rfl, hfound.1⟩

/-- A page that was not cached is not cached after a structure is gone. -/
theorem lookup_removed (h : Listed s) (hptr : ptr ∈ s.lru) (he : s.mem.lookup ptr = some e)
    (hnone : lookup r s = none) : lookup r (kfree ptr (removeLocked ptr e s)) = none := by
  obtain ⟨hlisted, hnot⟩ := h.remove hptr he
  have hfreed : Listed (kfree ptr (removeLocked ptr e s)) :=
    hlisted.unlinked hnot rfl rfl rfl fun p hp => AList.lookup_erase_ne hp
  cases hlook : lookup r (kfree ptr (removeLocked ptr e s)) with
  | none => rfl
  | some q =>
    obtain ⟨hq, e', he', hpage⟩ := hfreed.lookup_some hlook
    obtain ⟨hne, hold⟩ := h.lru.mem_erase_iff.mp hq
    have heq : s.mem.lookup q = some e' := by
      rw [← he']
      exact (AList.lookup_erase_ne hne).symm
    exact absurd hpage (h.lookup_none hnone hold heq)

theorem Inv.publish (h : Inv s) (hpc : s.tasks.lookup t = some (.fresh r ptr))
    (hwoken : maxPages ≤ s.count → ∀ v, victim s = some v →
      ∀ u r, s.tasks.lookup u ≠ some (.woken r v)) : Inv (publish t r ptr s) := by
  have hok : TaskOk s (.fresh r ptr) := h.tasked.ok t _ hpc
  have hdiscard : ∀ full, Inv (setPc t (.discard r ptr full) s) := fun full =>
    h.move rfl rfl rfl rfl rfl rfl rfl (by rw [hpc]; rfl) hok
      (h.tasked.apart_same hpc (fun _ hp => hp) (fun _ hp => hp) fun _ hp => hp)
  unfold Filemap.publish
  split_ifs with hfound hfull
  · exact hdiscard false
  · have hnone : lookup r s = none := by simpa using hfound
    cases hv : victim s with
    | none =>
      rw [evictOne, hv, Option.bind_none]
      exact hdiscard true
    | some v =>
      obtain ⟨hvmem, e, he, hstate⟩ := victim_some hv
      rw [evictOne, hv, Option.bind_some, he, Option.map_some]
      have hfree : Inv (kfree v (removeLocked v e s)) :=
        h.free_linked hvmem he (by rw [hstate]; decide) (by rw [hstate]; decide) (hwoken hfull v hv)
      refine hfree.link hpc (lookup_removed h.listed hvmem he hnone) ?_
      have hpos : 0 < s.lru.length := List.length_pos_of_mem hvmem
      have hcount := h.listed.count
      have hbound := h.listed.bound
      change s.count - 1 < maxPages
      omega
  · have hnone : lookup r s = none := by simpa using hfound
    exact h.link hpc hnone (by omega)

theorem Inv.free_unlinked {f : Option ℕ} (h : Inv s) (hpc : s.tasks.lookup t = some pc)
    (hnot : ptr ∉ s.lru) (hpage : pc.page = f) (hpage' : pc'.page = none)
    (hentry : pc'.entry = none) (hok : TaskOk s pc')
    (hunused : ∀ u pu, u ≠ t → s.tasks.lookup u = some pu → pu.entry ≠ some ptr) :
    Inv (setPc t pc' (kfree ptr (putPage f s))) := by
  have hmem : ∀ p, p ≠ ptr → (kfree ptr (putPage f s)).mem.lookup p = s.mem.lookup p :=
    fun p hp => AList.lookup_erase_ne hp
  refine h.of_refs_put (h.listed.unlinked hnot rfl rfl rfl hmem) ?_ ?_ rfl rfl
  · refine h.tasked_at keeps_id (fun _ _ => rfl) (fun u hu => ?_) (AList.lookup_insert _) hmem
      (fun _ _ => Iff.rfl) (hok.frame fun p hp => ?_) (fun _ _ _ _ => apart_none hentry)
      fun u pu hu hpu hp => absurd hp (hunused u pu hu hpu)
    · rw [setPc, AList.lookup_insert_ne hu, Option.map_id_fun, id_eq]
      rfl
    · rw [hentry] at hp
      cases hp
  · have hcache : cachePages (kfree ptr (putPage f s)) = cachePages s := by
      refine cachePages_congr rfl fun p hp => ?_
      rw [pageOf, pageOf, hmem p fun hpp => hnot (hpp ▸ hp)]
    have htasks := taskPages_move s.tasks t pc'
    rw [hpc, Option.bind_some, hpage, hpage'] at htasks
    have hsum : (refs s).Perm (f.toList ++ (cachePages s ++ taskPages (s.tasks.insert t pc'))) :=
      (htasks.symm.append_left _).trans (List.perm_append_comm_assoc ..)
    rw [← hcache] at hsum
    exact hsum

/-- A structure that its owner has unlinked is used only by tasks that were woken. -/
theorem Inv.unused_unlinked (h : Inv s) (hpc : s.tasks.lookup t = some pc)
    (howned : pc.owned = some ptr) (hnot : ptr ∉ s.lru) (hwoken : ∀ u r, s.tasks.lookup u ≠ some (.woken r ptr)) :
    ∀ u pu, u ≠ t → s.tasks.lookup u = some pu → pu.entry ≠ some ptr := by
  intro u pu hu hpu hentry
  have hne := (h.tasked.apart t u pc pu (Ne.symm hu) hpc hpu ptr howned).1
  obtain ⟨r, rfl | rfl⟩ := TaskOk.waits hentry hne
  · exact hnot (h.tasked.ok u _ hpu).1
  · exact hwoken u r hpu

/-! ## The steps of `filemap_fill_page` -/

theorem wake_of_entry_ne (hentry : pc.entry ≠ some ptr) : pc.wake ptr = pc := by
  cases pc with
  | asleep r p =>
    have hne : p ≠ ptr := fun hp => hentry (congrArg some hp)
    rw [Pc.wake, if_neg hne]
  | _ => rfl

theorem wake_of_waits (hentry : pc.entry = some ptr) (howned : pc.owned ≠ some ptr) :
    ∃ r, pc.wake ptr = .woken r ptr := by
  obtain ⟨r, rfl | rfl⟩ := TaskOk.waits hentry howned
  · exact ⟨r, by rw [Pc.wake, if_pos rfl]⟩
  · exact ⟨r, rfl⟩

/-- The frames of tasks when one task goes on and others are woken. -/
theorem taskPages_wake_move (ptr : ℕ) (pc' : Pc) (hpc : s.tasks.lookup t = some pc) (hwake : pc.wake ptr = pc) :
    (pc.page.toList ++ taskPages ((wakeUpAll ptr s).tasks.insert t pc')).Perm
      (pc'.page.toList ++ taskPages s.tasks) := by
  have hmove := taskPages_move (wakeUpAll ptr s).tasks t pc'
  have hlook : (wakeUpAll ptr s).tasks.lookup t = some pc := by
    rw [wakeUpAll, Table.lookup_mapVal, hpc, Option.map_some, hwake]
  rw [hlook, Option.bind_some] at hmove
  refine hmove.trans (List.Perm.of_eq ?_)
  rw [wakeUpAll, taskPages_wake]

/-- The owner of a structure finishes it, and wakes the tasks that wait for it. -/
theorem Inv.tasked_wake (h : Inv s) (hpc : s.tasks.lookup t = some pc) (howned : pc.owned = some ptr)
    (htasks : s'.tasks = (wakeUpAll ptr s).tasks.insert t pc') (hmem : ∀ p, p ≠ ptr → s'.mem.lookup p = s.mem.lookup p)
    (hlru : ∀ p, p ≠ ptr → (p ∈ s'.lru ↔ p ∈ s.lru)) (hok : TaskOk s' pc')
    (hown : ∀ p, pc'.entry = some p → pc'.owned = some p ∧ p = ptr) (hsole : pc'.sole = none)
    (he : ∃ e, s'.mem.lookup ptr = some e) : Tasked s' := by
  have hentry := Pc.entry_of_owned howned
  refine h.tasked_at (keeps_wake ptr) (fun _ => wake_of_entry_ne) (fun u hu => ?_)
    (by rw [htasks, AList.lookup_insert]) hmem hlru hok ?_ fun u pu hu hpu hp => ?_
  · rw [htasks, AList.lookup_insert_ne hu, wakeUpAll, Table.lookup_mapVal]
  · refine h.tasked.apart_same hpc (fun p hp => ?_) (fun p hp => ?_) fun p hp => ?_
    · rw [howned, (hown p (Pc.entry_of_owned hp)).2]
    · rw [hentry, (hown p hp).2]
    · rw [hsole] at hp
      cases hp
  · have hne := (h.tasked.apart t u pc pu (Ne.symm hu) hpc hpu ptr howned).1
    obtain ⟨r, hr⟩ := wake_of_waits hp hne
    rw [hr]
    exact he

section

variable {page : Option ℕ} {ret : ℤ}

/-- The structure was invalidated while its page was loaded. -/
theorem Inv.finish_invalidated (h : Inv s)
    (hpc : s.tasks.lookup t = some (.finish r ptr page ret)) (he : s.mem.lookup ptr = some e)
    (hptr : ptr ∈ s.lru) : Inv (setPc t (.reap r ptr page) (wakeUpAll ptr (removeLocked ptr e s))) := by
  obtain ⟨hlisted, hnot⟩ := h.listed.remove hptr he
  have hlru : ∀ p, p ≠ ptr → (p ∈ (removeLocked ptr e s).lru ↔ p ∈ s.lru) := by
    intro p hp
    exact (h.listed.lru.mem_erase_iff).trans ⟨fun hx => hx.2, fun hx => ⟨hp, hx⟩⟩
  refine h.of_refs_put (hlisted.congr rfl rfl rfl rfl) ?_ ?_ rfl rfl
  · refine h.tasked_wake hpc rfl rfl (fun _ _ => rfl) hlru ⟨hnot, e, he⟩ ?_ rfl ⟨e, he⟩
    intro p hp
    exact ⟨hp, (Option.some.inj hp).symm⟩
  · have hcache : (cachePages s).Perm (e.page.toList ++ cachePages (removeLocked ptr e s)) :=
      cachePages_remove h.listed hptr he rfl fun p _ => rfl
    have htasks := taskPages_wake_move ptr (.reap r ptr page) hpc rfl
    unfold refs
    rw [← List.append_assoc]
    refine hcache.append ?_
    exact ((List.perm_append_left_iff _).mp htasks).symm

theorem Inv.finish_error (h : Inv s) (hpc : s.tasks.lookup t = some (.finish r ptr page ret))
    (he : s.mem.lookup ptr = some e) (hptr : ptr ∈ s.lru) (hstate : e.state = .loading) :
    Inv (setPc t (.failed page ret) (wakeUpAll ptr (setEntry ptr { e with state := .error, error := ret } s))) := by
  have hpage : e.page = none := by
    have := h.listed.page ptr hptr e he
    rw [hstate] at this
    simpa using this
  have hmem : ∀ p, p ≠ ptr → (setEntry ptr { e with state := .error, error := ret } s).mem.lookup p =
      s.mem.lookup p := fun p hp => AList.lookup_insert_ne hp
  have hlisted : Listed (setEntry ptr { e with state := .error, error := ret } s) :=
    h.listed.set he rfl rfl (by simp [hpage])
  refine h.of_refs (hlisted.congr rfl rfl rfl rfl) ?_ ?_ rfl rfl
  · refine h.tasked_wake hpc rfl rfl hmem (fun _ _ => Iff.rfl) trivial (fun p hp => by cases hp) rfl ?_
    exact ⟨_, AList.lookup_insert _⟩
  · have hcache : cachePages (setEntry ptr { e with state := .error, error := ret } s) =
        cachePages s := by
      refine cachePages_congr rfl fun p hp => ?_
      by_cases hpp : p = ptr
      · subst hpp
        rw [pageOf, pageOf, he, setEntry, AList.lookup_insert]
        rfl
      · rw [pageOf, pageOf, hmem p hpp]
    have htasks := taskPages_wake_move ptr (.failed page ret) hpc rfl
    refine (List.Perm.of_eq hcache).append ?_
    exact (List.perm_append_left_iff _).mp htasks

theorem Inv.finish_uptodate {f : ℕ} (h : Inv s)
    (hpc : s.tasks.lookup t = some (.finish r ptr (some f) ret)) (he : s.mem.lookup ptr = some e)
    (hptr : ptr ∈ s.lru) (hstate : e.state = .loading) :
    Inv (setPc t (.returned (.ok f)) (wakeUpAll ptr (touchLocked ptr
      { setEntry ptr { e with page := some f, state := .uptodate } s with
        pool := s.pool.ref f, held := f :: s.held }))) := by
  have hpage : e.page = none := by
    have := h.listed.page ptr hptr e he
    rw [hstate] at this
    simpa using this
  have hmem : ∀ p, p ≠ ptr →
      (setEntry ptr { e with page := some f, state := .uptodate } s).mem.lookup p =
        s.mem.lookup p := fun p hp => AList.lookup_insert_ne hp
  have hset : Listed (setEntry ptr { e with page := some f, state := .uptodate } s) :=
    h.listed.set he rfl rfl (by simp)
  have hlisted := hset.touch hptr
  have hperm : (ptr :: s.lru.erase ptr).Perm s.lru := (List.perm_cons_erase hptr).symm
  have hof : pageOf s ptr = none := by rw [pageOf, he, Option.bind_some, hpage]
  refine h.of_refs_ref (hlisted.congr rfl rfl rfl rfl) ?_ ?_ ?_ rfl rfl
  · refine h.tasked_wake hpc rfl rfl hmem (fun p _ => hperm.mem_iff) trivial
      (fun p hp => by cases hp) rfl ⟨_, AList.lookup_insert _⟩
  · -- the frame goes from the task to the structure
    have hcache : cachePages (touchLocked ptr
        (setEntry ptr { e with page := some f, state := .uptodate } s)) =
        f :: (s.lru.erase ptr).filterMap (pageOf s) := by
      unfold cachePages
      have hnew : pageOf (touchLocked ptr
          (setEntry ptr { e with page := some f, state := .uptodate } s)) ptr = some f := by
        rw [pageOf, touchLocked, setEntry, AList.lookup_insert]
        rfl
      rw [show (touchLocked ptr (setEntry ptr { e with page := some f, state := .uptodate } s)).lru =
        ptr :: s.lru.erase ptr from rfl, List.filterMap_cons, hnew]
      refine congrArg (f :: ·) (List.filterMap_congr fun p hp => ?_)
      have hne : p ≠ ptr := (h.listed.lru.mem_erase_iff.mp hp).1
      rw [pageOf, pageOf, touchLocked, hmem p hne]
    have hold := cachePages_perm hptr
    rw [hof] at hold
    have htasks := taskPages_wake_move ptr (.returned (.ok f)) hpc rfl
    have hsum := (hold.symm.append htasks).trans (List.Perm.refl _)
    refine List.Perm.trans ?_ hsum
    exact (List.Perm.of_eq (congrArg (· ++ _) hcache)).trans List.perm_middle.symm
  · refine List.mem_append_right _ (List.mem_filterMap.mpr ⟨_, Table.mem_values.mpr ⟨t, hpc⟩, rfl⟩)

theorem Inv.finish (h : Inv s) (hpc : s.tasks.lookup t = some (.finish r ptr page ret))
    (hs' : finish t r ptr page ret s = some s') : Inv s' := by
  obtain ⟨⟨hptr, e, he, hfill⟩, -⟩ := h.tasked.ok t _ hpc
  unfold Filemap.finish at hs'
  rw [he, Option.bind_some] at hs'
  split_ifs at hs' with hstate hret
  · cases hs'
    exact h.finish_invalidated hpc he hptr
  · cases hs'
    exact h.finish_error hpc he hptr (hfill.resolve_right hstate)
  · obtain ⟨f, rfl, rfl⟩ := Option.map_eq_some_iff.mp hs'
    exact h.finish_uptodate hpc he hptr (hfill.resolve_right hstate)

end

/-! ## Invalidation -/

/-- A task was woken, and is still in the wait queue of the structure. -/
def leaving (s : State) (ptr : ℕ) : Bool :=
  (Table.values s.tasks).any fun
    | .woken _ p => decide (p = ptr)
    | _ => false

theorem not_leaving (h : leaving s ptr = false) : ∀ u r, s.tasks.lookup u ≠ some (.woken r ptr) := by
  intro u r hu
  have hall := List.any_eq_false.mp h _ (Table.mem_values.mpr ⟨u, hu⟩)
  simp at hall

/-- An invalidation may reach the structure. -/
def droppable (s : State) (ptr : ℕ) (e : Entry) : Bool :=
  decide (e.state ≠ .invalidated) && (decide (e.state = .loading) || !leaving s ptr)

/-- The invariant is about the structures, the lists, the tasks and the references. -/
theorem Inv.congr (h : Inv s) (hmem : s'.mem = s.mem) (hlru : s'.lru = s.lru)
    (hhash : s'.hash = s.hash) (hcount : s'.count = s.count) (htasks : s'.tasks = s.tasks)
    (hpool : s'.pool = s.pool) (hheld : s'.held = s.held) : Inv s' := by
  refine h.of_refs (h.listed.congr hmem hlru hhash hcount) ?_ ?_ hpool hheld
  · constructor
    · intro u pu hpu
      rw [htasks] at hpu
      exact (h.tasked.ok u pu hpu).frame fun p _ => ⟨by rw [hmem], by rw [hlru]⟩
    · rw [htasks]
      exact h.tasked.apart
  · have hcache : cachePages s' = cachePages s :=
      cachePages_congr hlru fun p _ => by rw [pageOf, pageOf, hmem]
    rw [refs, refs, hcache, htasks]

/-- What dropping a structure leaves alone. -/
structure DropFrame (s s' : State) (ptr : ℕ) : Prop where
  tasks : s'.tasks = s.tasks
  mem : ∀ p, p ≠ ptr → s'.mem.lookup p = s.mem.lookup p
  lru : ∀ p, p ≠ ptr → (p ∈ s'.lru ↔ p ∈ s.lru)

theorem Inv.invalidate_loading (h : Inv s) (hptr : ptr ∈ s.lru) (he : s.mem.lookup ptr = some e)
    (hstate : e.state = .loading) : Inv (setEntry ptr { e with state := .invalidated } s) := by
  have hpage : e.page = none := by
    have := h.listed.page ptr hptr e he
    rw [hstate] at this
    simpa using this
  have hmem : ∀ p, p ≠ ptr → (setEntry ptr { e with state := .invalidated } s).mem.lookup p =
      s.mem.lookup p := fun p hp => AList.lookup_insert_ne hp
  have hnew : (setEntry ptr { e with state := .invalidated } s).mem.lookup ptr =
      some { e with state := .invalidated } := AList.lookup_insert _
  have hfill : Filling (setEntry ptr { e with state := .invalidated } s) ptr :=
    ⟨hptr, _, hnew, Or.inr rfl⟩
  refine h.of_refs (h.listed.set he rfl rfl (by simp [hpage])) ?_ ?_ rfl rfl
  · refine h.tasked_frame rfl hmem (fun _ _ => Iff.rfl) fun u pu hpu hentry => ?_
    have hold := h.tasked.ok u pu hpu
    -- the loader and the tasks that wait for it stay
    cases pu with
    | fresh r p | discard r p _ =>
      cases hentry
      exact absurd hptr hold.1
    | fill r p | load r p _ | finish r p _ _ =>
      cases hentry
      refine ⟨hfill, fun e' he' => ?_⟩
      obtain rfl := Option.some.inj (hnew.symm.trans he')
      exact hold.2 e he
    | reap _ p _ | expired p _ =>
      cases hentry
      exact absurd hptr hold.1
    | asleep r p =>
      cases hentry
      exact hfill
    | woken r p =>
      cases hentry
      exact ⟨_, hnew⟩
    | _ => cases hentry
  · have hcache : cachePages (setEntry ptr { e with state := .invalidated } s) = cachePages s := by
      refine cachePages_congr rfl fun p hp => ?_
      by_cases hpp : p = ptr
      · subst hpp
        rw [pageOf, pageOf, he, hnew]
        rfl
      · rw [pageOf, pageOf, hmem p hpp]
    rw [refs, refs, hcache]
    rfl

theorem Inv.dropEntry (h : Inv s) (hptr : ptr ∈ s.lru) (he : s.mem.lookup ptr = some e)
    (hok : droppable s ptr e = true) : Inv (dropEntry ptr e s) ∧ DropFrame s (dropEntry ptr e s) ptr := by
  simp only [droppable, Bool.and_eq_true, decide_eq_true_eq, Bool.or_eq_true, Bool.not_eq_true'] at hok
  unfold Filemap.dropEntry
  split_ifs with hstate
  · exact ⟨h.invalidate_loading hptr he hstate, rfl, fun p hp => AList.lookup_insert_ne hp, fun _ _ => Iff.rfl⟩
  · refine ⟨h.free_linked hptr he hstate hok.1 (not_leaving (hok.2.resolve_left hstate)), rfl,
      fun p hp => AList.lookup_erase_ne hp, fun p hp => ?_⟩
    exact (h.listed.lru.mem_erase_iff).trans ⟨fun hx => hx.2, fun hx => ⟨hp, hx⟩⟩

/-- The structures that an invalidation reaches, given by their inode and index, can be
dropped. -/
def DropOk (reached : Entry → Bool) (s : State) (ptr : ℕ) : Prop :=
  ∀ e, s.mem.lookup ptr = some e → reached e = true → droppable s ptr e = true

theorem DropOk.frame {reached : Entry → Bool} {q : ℕ} (hq : DropOk reached s q) (hne : q ≠ ptr)
    (h : DropFrame s s' ptr) : DropOk reached s' q := by
  intro e he hreached
  rw [h.mem q hne] at he
  have hok := hq e he hreached
  unfold droppable leaving at hok ⊢
  rw [h.tasks]
  exact hok

/-- The rule for a loop over the linked structures, whose body changes only the one that
it looks at. -/
theorem foldl_lru {P : State → Prop} {reached : Entry → Bool} {body : State → ℕ → State}
    (hbody : ∀ s p, P s → p ∈ s.lru → DropOk reached s p → P (body s p) ∧ DropFrame s (body s p) p) :
    ∀ (l : List ℕ) (s : State), l.Nodup → P s → (∀ p ∈ l, p ∈ s.lru ∧ DropOk reached s p) → P (l.foldl body s) := by
  intro l
  induction l with
  | nil => exact fun s _ h _ => h
  | cons p l ih =>
    intro s hnodup h hall
    obtain ⟨hp, hnodup⟩ := List.nodup_cons.mp hnodup
    obtain ⟨hlru, hok⟩ := hall p List.mem_cons_self
    obtain ⟨hnext, hframe⟩ := hbody s p h hlru hok
    refine ih (body s p) hnodup hnext fun q hq => ?_
    have hne : q ≠ p := fun hqp => hp (hqp ▸ hq)
    obtain ⟨hqlru, hqok⟩ := hall q (List.mem_cons_of_mem p hq)
    exact ⟨(hframe.lru q hne).mpr hqlru, hqok.frame hne hframe⟩

/-- What `filemap_invalidate_pages` drops. -/
def reaches (inode start : ℕ) (e : Entry) : Bool :=
  decide (e.inode = inode ∧ start ≤ e.index * pageSize % wordSize)

theorem dropFrame_refl (s : State) (ptr : ℕ) : DropFrame s s ptr :=
  ⟨rfl, fun _ _ => rfl, fun _ _ => Iff.rfl⟩

theorem Inv.invalidateEntry {inode start : ℕ} (h : Inv s) (hptr : ptr ∈ s.lru)
    (hok : DropOk (reaches inode start) s ptr) :
    Inv (invalidateEntry inode start s ptr) ∧ DropFrame s (invalidateEntry inode start s ptr) ptr := by
  obtain ⟨e, he⟩ := h.listed.alloc ptr hptr
  unfold Filemap.invalidateEntry
  rw [he]
  dsimp only
  split_ifs with hinode hstart hcut
  · exact ⟨h, dropFrame_refl s ptr⟩
  · refine h.dropEntry hptr he (hok e he ?_)
    exact decide_eq_true ⟨not_not.mp hinode, hstart⟩
  · cases e.page with
    | none => exact ⟨h, dropFrame_refl s ptr⟩
    | some f =>
      exact ⟨h.congr rfl rfl rfl rfl rfl rfl rfl, rfl, fun _ _ => rfl, fun _ _ => Iff.rfl⟩
  · exact ⟨h, dropFrame_refl s ptr⟩

theorem invalidate_tasks {body : State → ℕ → State} (hbody : ∀ s p, (body s p).tasks = s.tasks) :
    ∀ (l : List ℕ) (s : State), (l.foldl body s).tasks = s.tasks := by
  intro l
  induction l with
  | nil => exact fun s => rfl
  | cons p l ih => exact fun s => (ih (body s p)).trans (hbody s p)

theorem dropEntry_tasks (ptr : ℕ) (e : Entry) (s : State) : (dropEntry ptr e s).tasks = s.tasks := by
  unfold dropEntry
  split_ifs
  · rfl
  · rfl

theorem invalidatePages_tasks (inode start : ℕ) (s : State) : (invalidatePages inode start s).tasks = s.tasks := by
  refine invalidate_tasks (fun s p => ?_) s.lru s
  unfold invalidateEntry
  split
  · rfl
  · next e _ =>
    dsimp only
    split_ifs
    · rfl
    · exact dropEntry_tasks p e s
    · cases e.page with
      | none => rfl
      | some f => rfl
    · rfl

theorem Inv.invalidatePages {inode start : ℕ} (h : Inv s)
    (hok : ∀ p ∈ s.lru, DropOk (reaches inode start) s p) : Inv (invalidatePages inode start s) :=
  foldl_lru (P := Inv) (fun _ _ hu hp hd => hu.invalidateEntry hp hd) s.lru s h.listed.lru h fun p hp => ⟨hp, hok p hp⟩

theorem Inv.invalidateInode {inode : ℕ} (h : Inv s)
    (hok : ∀ p ∈ s.lru, DropOk (fun e => decide (e.inode = inode)) s p) : Inv (invalidateInode inode s) := by
  refine foldl_lru (P := Inv) (fun s p hs hp hd => ?_) s.lru s h.listed.lru h fun p hp => ⟨hp, hok p hp⟩
  obtain ⟨e, he⟩ := hs.listed.alloc p hp
  rw [he]
  dsimp only
  split_ifs with hinode
  · exact ⟨hs, dropFrame_refl s p⟩
  · exact hs.dropEntry hp he (hd e he (decide_eq_true (not_not.mp hinode)))

/-! ## Runs -/

/-- The structures that are freed have an empty wait queue, and each is invalidated
once. -/
def freesSafely (c : Config) (s : State) : Label → Bool
  | .publish _ => decide (s.count < maxPages) || (victim s).all fun v => !leaving s v
  | .reap t =>
      match s.tasks.lookup t with
      | some (.reap _ ptr _) => !leaving s ptr
      | _ => true
  | .expired t =>
      match s.tasks.lookup t with
      | some (.expired ptr _) => !leaving s ptr
      | _ => true
  | .invalidateInode inode =>
      s.lru.all fun ptr => (s.mem.lookup ptr).all fun e =>
        decide (e.inode ≠ inode) || droppable s ptr e
  | .truncateBody t =>
      match s.tasks.lookup t with
      | some (.truncating inode size) =>
          decide (blocksOf c (s.size inode) ≤ blocksOf c size) ||
            s.lru.all fun ptr => (s.mem.lookup ptr).all fun e =>
              !reaches inode size e || droppable s ptr e
      | _ => true
  | _ => true

def Good (c : Config) (s : State) (lab : Label) : Prop := freesSafely c s lab = true

instance (c : Config) (s : State) (lab : Label) : Decidable (Good c s lab) :=
  inferInstanceAs (Decidable (_ = true))

/-- The update of the cached bytes changes only bytes. -/
structure OnlyBytes (s s' : State) : Prop where
  mem : s'.mem = s.mem
  lru : s'.lru = s.lru
  hash : s'.hash = s.hash
  count : s'.count = s.count
  tasks : s'.tasks = s.tasks
  pool : s'.pool = s.pool
  held : s'.held = s.held
  disk : s'.disk = s.disk
  size : s'.size = s.size
  sem : s'.sem = s.sem

theorem updatePage_onlyBytes (inode off count : ℕ) (bytes : ℕ → ℕ) (s : State) (index : ℕ) :
    OnlyBytes s (updatePage inode off count bytes s index) := by
  unfold updatePage
  split
  · exact ⟨rfl, rfl, rfl, rfl, rfl, rfl, rfl, rfl, rfl, rfl⟩
  · next e _ =>
    split_ifs
    · cases e.page with
      | none => exact ⟨rfl, rfl, rfl, rfl, rfl, rfl, rfl, rfl, rfl, rfl⟩
      | some f => exact ⟨rfl, rfl, rfl, rfl, rfl, rfl, rfl, rfl, rfl, rfl⟩
    · exact ⟨rfl, rfl, rfl, rfl, rfl, rfl, rfl, rfl, rfl, rfl⟩

theorem OnlyBytes.trans {s'' : State} (h : OnlyBytes s s') (h' : OnlyBytes s' s'') :
    OnlyBytes s s'' :=
  ⟨h'.mem.trans h.mem, h'.lru.trans h.lru, h'.hash.trans h.hash, h'.count.trans h.count,
    h'.tasks.trans h.tasks, h'.pool.trans h.pool, h'.held.trans h.held, h'.disk.trans h.disk,
    h'.size.trans h.size, h'.sem.trans h.sem⟩

theorem updateCachedRange_onlyBytes (inode off count : ℕ) (bytes : ℕ → ℕ) (s : State) :
    OnlyBytes s (updateCachedRange inode off count bytes s) := by
  unfold updateCachedRange
  generalize pagesOf off count = l
  induction l generalizing s with
  | nil => exact ⟨rfl, rfl, rfl, rfl, rfl, rfl, rfl, rfl, rfl, rfl⟩
  | cons i l ih => exact (updatePage_onlyBytes inode off count bytes s i).trans (ih _)

theorem ready_page (h : ready t s = true) : (s.tasks.lookup t).bind Pc.page = none := by
  unfold ready at h
  split at h
  · next hpc =>
    rw [hpc]
    rfl
  · next hpc =>
    rw [hpc]
    rfl
  · cases h

theorem Inv.truncateBody {inode size : ℕ} (h : Inv s) (hpc : s.tasks.lookup t = some (.truncating inode size))
    (hok : blocksOf c size < blocksOf c (s.size inode) →
      ∀ p ∈ s.lru, DropOk (reaches inode size) s p) : Inv (truncateBody c t inode size s) := by
  unfold Filemap.truncateBody
  split_ifs with hblocks
  · exact h.idle rfl rfl rfl rfl rfl rfl rfl (by rw [hpc]; rfl) rfl rfl trivial
  · have hfreed : Inv (freeBlocks c inode (fun b => decide (blocksOf c size ≤ b)) s) :=
      h.congr rfl rfl rfl rfl rfl rfl rfl
    have hcut := hfreed.invalidatePages (hok (by omega))
    refine hcut.idle rfl rfl rfl rfl rfl rfl rfl ?_ rfl rfl trivial
    rw [invalidatePages_tasks]
    change (s.tasks.lookup t).bind Pc.page = none
    rw [hpc]
    rfl

theorem Inv.writeChunk {inode start left n : ℕ} {bytes : ℕ → ℕ} (h : Inv s)
    (hpc : s.tasks.lookup t = some (.writing inode start left)) : Inv (writeChunk t inode start left n bytes s) := by
  unfold Filemap.writeChunk
  generalize hu : ({ s with
    disk := Function.update s.disk inode fun o =>
      if start ≤ o ∧ o < start + n then bytes o else s.disk inode o } : State) = u
  have hinv : Inv u := by
    subst hu
    exact h.congr rfl rfl rfl rfl rfl rfl rfl
  have hpu : u.tasks.lookup t = some (.writing inode start left) := by
    subst hu
    exact hpc
  have hbytes := updateCachedRange_onlyBytes inode start n bytes u
  have hupdated := hinv.congr hbytes.mem hbytes.lru hbytes.hash hbytes.count hbytes.tasks hbytes.pool hbytes.held
  refine hupdated.idle rfl rfl rfl rfl rfl rfl rfl ?_ rfl rfl trivial
  rw [hbytes.tasks, hpu]
  rfl

/-- A step of the rest of the kernel, which changes its own references. -/
theorem Inv.rest {pool : Pool ℕ} {held : List ℕ} (h : Inv s) (hbal : pool.Balanced (refs s ++ held)) :
    Inv { s with pool := pool, held := held } :=
  ⟨h.listed.congr rfl rfl rfl rfl,
    ⟨fun u pu hpu => (h.tasked.ok u pu hpu).frame fun _ _ => ⟨rfl, Iff.rfl⟩, h.tasked.apart⟩,
    hbal, h.distinct⟩

theorem Inv.failed {page : Option ℕ} {ret : ℤ} (h : Inv s) (hpc : s.tasks.lookup t = some (.failed page ret)) :
    Inv (setPc t (.returned (.error ret)) (putPage page s)) := by
  refine h.of_refs_put (h.listed.congr rfl rfl rfl rfl)
    (h.tasked_move rfl rfl rfl trivial fun _ _ _ _ => apart_none rfl) ?_ rfl rfl
  have htasks := taskPages_move s.tasks t (.returned (.error ret))
  rw [hpc] at htasks
  exact (htasks.symm.append_left _).trans (List.perm_append_comm_assoc ..)

theorem Inv.step {lab : Label} (h : Inv s) (hgood : Good c s lab) (hstep : Step c s lab s') : Inv s' := by
  unfold Step at hstep
  unfold Good at hgood
  cases lab with
  | getPage u inode offset =>
    simp only [exec] at hstep
    split_ifs at hstep with hready hoffset
    all_goals
      cases hstep
      exact h.idle rfl rfl rfl rfl rfl rfl rfl (ready_page (by simpa using hready)) rfl rfl trivial
  | look u =>
    simp only [exec] at hstep
    split at hstep
    · next r hpc => exact h.look hpc hstep
    · cases hstep
  | kmalloc u answer =>
    simp only [exec] at hstep
    split at hstep
    · next r hpc =>
      cases answer with
      | none =>
        cases hstep
        exact h.idle rfl rfl rfl rfl rfl rfl rfl (by rw [hpc]; rfl) rfl rfl trivial
      | some p =>
        simp only at hstep
        split_ifs at hstep with hp
        cases hstep
        exact h.kmalloc hpc hp
    · cases hstep
  | publish u =>
    simp only [exec] at hstep
    split at hstep
    · next r ptr hpc =>
      cases hstep
      refine h.publish hpc fun hfull v hv => not_leaving ?_
      simp only [freesSafely, hv, Option.all_some, Bool.or_eq_true, decide_eq_true_eq, Bool.not_eq_true'] at hgood
      exact hgood.resolve_left (by omega)
    · cases hstep
  | discard u =>
    simp only [exec] at hstep
    split at hstep
    · next r ptr full hpc =>
      cases hstep
      obtain ⟨hnot, -⟩ := h.tasked.ok u _ hpc
      have hunused : ∀ v pv, v ≠ u → s.tasks.lookup v = some pv → pv.entry ≠ some ptr :=
        fun v pv hv hpv => (h.tasked.apart u v _ pv (Ne.symm hv) hpc hpv ptr rfl).2 rfl
      cases full with
      | false => exact h.free_unlinked (f := none) hpc hnot rfl rfl rfl trivial hunused
      | true => exact h.free_unlinked (f := none) hpc hnot rfl rfl rfl trivial hunused
    · cases hstep
  | getZeroPage u answer =>
    simp only [exec] at hstep
    split at hstep
    · next r ptr hpc =>
      have hok := h.tasked.ok u _ hpc
      have hapart : ∀ pc' : Pc, (pc'.owned = some ptr) → (pc'.sole = none) →
          ∀ v pv, v ≠ u → s.tasks.lookup v = some pv → Apart pc' pv ∧ Apart pv pc' := by
        intro pc' ho hs
        refine h.tasked.apart_same hpc (fun p hp => ?_) (fun p hp => ?_) fun p hp => ?_
        · exact ho.symm.trans hp
        · exact (Pc.entry_of_owned ho).symm.trans hp
        · rw [hs] at hp
          cases hp
      cases answer with
      | none =>
        cases hstep
        exact h.move rfl rfl rfl rfl rfl rfl rfl (by rw [hpc]; rfl) hok (hapart _ rfl rfl)
      | some g =>
        simp only at hstep
        split_ifs at hstep with hfree
        cases hstep
        refine h.of_refs_take (h.listed.congr rfl rfl rfl rfl)
          (h.tasked_move rfl rfl rfl hok (hapart _ rfl rfl)) ?_ hfree rfl rfl
        have htasks := taskPages_move s.tasks u (.load r ptr g)
        rw [hpc] at htasks
        exact (htasks.append_left _).trans List.perm_middle
    · cases hstep
  | read u ret =>
    simp only [exec] at hstep
    split at hstep
    · next r ptr g hpc =>
      split_ifs at hstep
      cases hstep
      have hok : TaskOk s (.load r ptr g) := h.tasked.ok u _ hpc
      exact h.move rfl rfl rfl rfl rfl rfl rfl (by rw [hpc]; rfl) hok
        (h.tasked.apart_same hpc (fun _ hp => hp) (fun _ hp => hp) fun _ hp => by cases hp)
    · cases hstep
  | finish u =>
    simp only [exec] at hstep
    split at hstep
    · next r ptr page ret hpc => exact h.finish hpc hstep
    · cases hstep
  | reap u =>
    simp only [exec] at hstep
    split at hstep
    · next r ptr page hpc =>
      cases hstep
      obtain ⟨hnot, -⟩ := h.tasked.ok u _ hpc
      simp only [freesSafely, hpc, Bool.not_eq_true'] at hgood
      exact h.free_unlinked hpc hnot rfl rfl rfl trivial (h.unused_unlinked hpc rfl hnot (not_leaving hgood))
    · cases hstep
  | failed u =>
    simp only [exec] at hstep
    split at hstep
    · next page ret hpc =>
      cases hstep
      exact h.failed hpc
    · cases hstep
  | expired u =>
    simp only [exec] at hstep
    split at hstep
    · next ptr err hpc =>
      cases hstep
      obtain ⟨hnot, -⟩ := h.tasked.ok u _ hpc
      simp only [freesSafely, hpc, Bool.not_eq_true'] at hgood
      exact h.free_unlinked (f := none) hpc hnot rfl rfl rfl trivial
        (h.unused_unlinked hpc rfl hnot (not_leaving hgood))
    · cases hstep
  | leave u =>
    simp only [exec] at hstep
    split at hstep
    · next r ptr hpc =>
      split_ifs at hstep
      cases hstep
      exact h.idle rfl rfl rfl rfl rfl rfl rfl (by rw [hpc]; rfl) rfl rfl trivial
    · cases hstep
  | invalidateInode inode =>
    simp only [exec] at hstep
    cases hstep
    refine h.invalidateInode fun p hp e he hreached => ?_
    simp only [freesSafely, List.all_eq_true] at hgood
    have hentry := hgood p hp
    rw [he, Option.all_some, decide_eq_false (not_not.mpr (of_decide_eq_true hreached)), Bool.false_or] at hentry
    exact hentry
  | writeStart u inode pos append count =>
    simp only [exec] at hstep
    by_cases hready : ready u s = false ∨ s.sem inode ≠ none
    · rw [if_pos hready] at hstep
      cases hstep
    rw [if_neg hready] at hstep
    cases hstep
    refine h.idle rfl rfl rfl rfl rfl rfl rfl (ready_page ?_) rfl rfl trivial
    simpa using (not_or.mp hready).1
  | writeChunk u bytes =>
    simp only [exec] at hstep
    split at hstep
    · next inode start left hpc =>
      split_ifs at hstep
      cases hstep
      exact h.writeChunk hpc
    · cases hstep
  | writeEnd u =>
    simp only [exec] at hstep
    split at hstep
    · next inode start left hpc =>
      cases hstep
      exact h.idle rfl rfl rfl rfl rfl rfl rfl (by rw [hpc]; rfl) rfl rfl trivial
    · cases hstep
  | truncateStart u inode size =>
    simp only [exec] at hstep
    split_ifs at hstep with hready
    cases hstep
    refine h.idle rfl rfl rfl rfl rfl rfl rfl (ready_page ?_) rfl rfl trivial
    simpa using (not_or.mp hready).1
  | truncateBody u =>
    simp only [exec] at hstep
    split at hstep
    · next inode size hpc =>
      cases hstep
      refine h.truncateBody hpc fun hblocks p hp e he hreached => ?_
      simp only [freesSafely, hpc, Bool.or_eq_true, decide_eq_true_eq, List.all_eq_true] at hgood
      have hentry := hgood.resolve_left (by omega) p hp
      rw [he, Option.all_some, hreached] at hentry
      exact hentry
    · cases hstep
  | truncateEnd u =>
    simp only [exec] at hstep
    split at hstep
    · next inode size hpc =>
      cases hstep
      exact h.idle rfl rfl rfl rfl rfl rfl rfl (by rw [hpc]; rfl) rfl rfl trivial
    · cases hstep
  | truncateFail u freed =>
    simp only [exec] at hstep
    split at hstep
    · next inode size hpc =>
      split_ifs at hstep
      cases hstep
      exact h.idle rfl rfl rfl rfl rfl rfl rfl (by rw [hpc]; rfl) rfl rfl trivial
    · cases hstep
  | hold f =>
    simp only [exec] at hstep
    split_ifs at hstep with hfree
    cases hstep
    exact h.rest ((h.balanced.take hfree).perm List.perm_middle.symm)
  | retain f =>
    simp only [exec] at hstep
    split_ifs at hstep with hheld
    cases hstep
    have hfree := h.balanced.not_free (List.mem_append_right _ hheld)
    exact h.rest ((h.balanced.ref hfree).perm List.perm_middle.symm)
  | release f =>
    simp only [exec] at hstep
    split_ifs at hstep with hheld
    cases hstep
    refine h.rest (Pool.Balanced.put (h.balanced.perm ?_))
    exact ((List.perm_cons_erase hheld).append_left _).trans List.perm_middle
  | store f o byte =>
    simp only [exec] at hstep
    split_ifs at hstep
    cases hstep
    exact h.congr rfl rfl rfl rfl rfl rfl rfl

theorem Initial.inv (h : Initial s) : Inv s := by
  have hlru : ∀ {p}, p ∉ s.lru := by
    intro p hp
    rw [h.lru] at hp
    cases hp
  have htasks : ∀ {u pu}, s.tasks.lookup u ≠ some pu := by
    intro u pu hpu
    rw [h.tasks] at hpu
    cases hpu
  have hrefs : refs s = [] := by
    rw [refs, cachePages, taskPages, h.lru, h.tasks]
    rfl
  refine ⟨⟨?_, fun i => ?_, fun p hp => absurd hp hlru, fun i p => ?_,
    fun p hp => absurd hp hlru, ?_, ?_, fun p hp => absurd hp hlru⟩,
    ⟨fun u pu hpu => absurd hpu htasks, fun u _ pu _ _ hpu => absurd hpu htasks⟩, ?_, ?_⟩
  · rw [h.lru]
    exact List.nodup_nil
  · rw [h.hash]
    exact List.nodup_nil
  · rw [h.hash]
    exact ⟨fun hp => absurd hp List.not_mem_nil, fun hp => absurd hp.1 hlru⟩
  · rw [h.count, h.lru]
    rfl
  · rw [h.count]
    exact Nat.zero_le _
  · rw [owners, hrefs]
    exact h.balanced
  · rw [hrefs]
    exact List.nodup_nil

/-- The task is in the wait queue of a structure. -/
def Queued (s : State) (t ptr : ℕ) : Prop :=
  ∃ r, s.tasks.lookup t = some (.asleep r ptr) ∨ s.tasks.lookup t = some (.woken r ptr)

/-- What is promised about the structures: there is one for a page, the list, the chains
and the counter agree, a frame has one reference for the structure that is linked with
it, beside those of tasks and of the rest of the kernel, and a structure is allocated as
long as a task is in its wait queue. -/
structure Consistent (s : State) : Prop where
  unique : ∀ ptr ∈ s.lru, ∀ ptr' ∈ s.lru, ∀ e e', s.mem.lookup ptr = some e →
    s.mem.lookup ptr' = some e' → e.inode = e'.inode → e.index = e'.index → ptr = ptr'
  lru : s.lru.Nodup ∧ ∀ ptr ∈ s.lru, ptr ∈ s.mem
  chains : ∀ h, (s.hash h).Nodup ∧ ∀ ptr, ptr ∈ s.hash h ↔
    ptr ∈ s.lru ∧ ∃ e, s.mem.lookup ptr = some e ∧ hashIndex e.inode e.index = h
  count : s.count = s.lru.length ∧ s.count ≤ maxPages
  page : ∀ ptr ∈ s.lru, ∀ e, s.mem.lookup ptr = some e → (e.page.isSome ↔ e.state = .uptodate)
  references : ∀ f, s.pool.count f = s.lru.countP (fun ptr => decide (pageOf s ptr = some f)) +
    (taskPages s.tasks).count f + s.held.count f
  queued : ∀ t ptr, Queued s t ptr → ptr ∈ s.mem

theorem Inv.consistent (h : Inv s) : Consistent s := by
  refine ⟨h.listed.unique, ⟨h.listed.lru, fun p hp => ?_⟩,
    fun i => ⟨h.listed.chain i, h.listed.mem_chain i⟩, ⟨h.listed.count, h.listed.bound⟩,
    h.listed.page, fun f => ?_, ?_⟩
  · obtain ⟨e, he⟩ := h.listed.alloc p hp
    exact AList.lookup_isSome.mp (by rw [he]; rfl)
  · have hcache : (cachePages s).count f =
        s.lru.countP fun ptr => decide (pageOf s ptr = some f) := by
      rw [cachePages, List.count_filterMap]
      exact List.countP_congr fun p _ => by rw [beq_iff_eq, decide_eq_true_eq]
    rw [h.balanced.count_eq f, owners, refs, List.count_append, List.count_append, hcache]
    push_cast
    rfl
  · rintro t ptr ⟨r, hpc | hpc⟩
    · obtain ⟨e, he⟩ := (h.tasked.ok t _ hpc).allocated rfl
      exact AList.lookup_isSome.mp (by rw [he]; rfl)
    · obtain ⟨e, he⟩ := (h.tasked.ok t _ hpc).allocated rfl
      exact AList.lookup_isSome.mp (by rw [he]; rfl)

theorem Initial.inv_run {s₀ : State} {labs : List Label} (hinit : Initial s₀)
    (hrun : Run (Guarded (Good c) (Step c)) s₀ labs s) : Inv s :=
  hrun.invariant hinit.inv fun hinv hstep => hinv.step hstep.1 hstep.2

/-- In every run that frees only structures with an empty wait queue, and invalidates a
structure once, the cache is consistent in every state. -/
theorem cache_consistent (c : Config) (s₀ : State) (hinit : Initial s₀) (labs : List Label)
    (s : State) (hrun : Run (Guarded (Good c) (Step c)) s₀ labs s) : Consistent s :=
  (hinit.inv_run hrun).consistent

/-! ## Two runs -/

/-- Blocks of 1024 bytes. -/
def exampleConfig : Config := ⟨1024, by decide⟩

/-- A file with one block of ones, and free frames. -/
def startState : State :=
  { mem := ∅, lru := [], hash := fun _ => [], count := 0, tasks := ∅
    pool := ⟨fun _ => 0, fun _ => true⟩, held := [], data := fun _ _ => 0, dirty := fun _ _ => false
    disk := fun _ _ => 1, size := fun _ => 1024, sem := fun _ => none }

theorem startState_initial : Initial startState :=
  ⟨rfl, rfl, fun _ => rfl, rfl, rfl, ⟨fun _ => rfl, fun _ _ => List.not_mem_nil⟩, fun _ => rfl⟩

/-- One task loads a page, a second one waits for it, and the file is invalidated. -/
def waitRun : List Label :=
  [.getPage 1 16 0, .look 1, .kmalloc 1 (some 1), .publish 1, .getPage 2 16 0, .look 2,
    .invalidateInode 16, .getZeroPage 1 (some 7), .read 1 0, .finish 1]

/-- The second task leaves the wait queue before the structure is freed. -/
def lateFree : List Label := waitRun ++ [.leave 2, .reap 1]

theorem lateFree_replays : (replay (Good exampleConfig) (exec exampleConfig) startState lateFree).isSome := by
  decide +kernel

theorem cache_consistent_lateFree :
    Initial startState ∧ ∃ s,
      Run (Guarded (Good exampleConfig) (Step exampleConfig)) startState lateFree s ∧
        Consistent s := by
  have hrun : Run (Guarded (Good exampleConfig) (Step exampleConfig)) startState lateFree
      ((replay (Good exampleConfig) (exec exampleConfig) startState lateFree).get
        lateFree_replays) := run_of_replay (Option.some_get lateFree_replays).symm
  exact ⟨startState_initial, _, hrun,
    cache_consistent exampleConfig startState startState_initial _ _ hrun⟩

/-- The loader frees the structure before the second task has left its wait queue. -/
def earlyFree : List Label := waitRun ++ [.reap 1]

theorem earlyFree_replays : (replay (fun _ _ => True) (exec exampleConfig) startState earlyFree).isSome := by
  decide +kernel

/-- A task is then linked in the wait queue of an entry that is freed. -/
theorem cache_inconsistent :
    ¬ ∀ (c : Config) (s₀ : State), Initial s₀ → ∀ labs s, Run (Step c) s₀ labs s →
      Consistent s := by
  intro h
  have hrun : Run (Partial (fun _ _ => True) (exec exampleConfig)) startState earlyFree
      ((replay (fun _ _ => True) (exec exampleConfig) startState earlyFree).get
        earlyFree_replays) := run_of_replay (Option.some_get earlyFree_replays).symm
  have hcons := h exampleConfig startState startState_initial _ _
    (hrun.mono fun _ _ _ hstep => hstep.2)
  have hqueued := hcons.queued 2 1 ⟨⟨16, 0⟩, Or.inr rfl⟩
  exact absurd hqueued (by decide +kernel)

end Mario.Filemap
