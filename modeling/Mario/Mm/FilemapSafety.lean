import Mario.Mm.FilemapLists

/-!
# The structures of the page cache

Structures are freed in four places. The tasks that sleep on one are woken before, but
nothing makes the code wait until they have left its wait queue, and a second
invalidation frees a structure whose page is still being loaded. The results are
therefore about runs in which no structure is freed while a task that was woken is on
its way out of its wait queue, and in which a structure is invalidated once. In these
runs the lists and the counter agree, each structure has one reference to its page, and
no structure is freed while a task is in its wait queue.
-/

namespace Mario.Filemap

open Mario.Lib

variable {c : Config} {s s' : State} {t : ℕ} {pc pc' : Pc} {r : Request} {ptr : ℕ} {e e' : Entry}

/-! ## Tasks and structures -/

/-- The structure that a task uses. -/
def Pc.entry : Pc → Option ℕ
  | .fresh _ ptr | .discard _ ptr _ | .fill _ ptr | .load _ ptr _ | .finish _ ptr _ _
  | .reap _ ptr _ | .expired ptr _ | .asleep _ ptr | .woken _ ptr => some ptr
  | _ => none

/-- The structure that the task makes, fills or frees. -/
def Pc.owned : Pc → Option ℕ
  | .fresh _ ptr | .discard _ ptr _ | .fill _ ptr | .load _ ptr _ | .finish _ ptr _ _
  | .reap _ ptr _ | .expired ptr _ => some ptr
  | _ => none

/-- The structure that no other task knows. -/
def Pc.sole : Pc → Option ℕ
  | .fresh _ ptr | .discard _ ptr _ => some ptr
  | _ => none

/-- The reference to a frame that the task has. -/
def Pc.page : Pc → Option ℕ
  | .load _ _ g => some g
  | .finish _ _ page _ | .reap _ _ page | .failed page _ => page
  | _ => none

/-- The structure is being filled. -/
def Filling (s : State) (ptr : ℕ) : Prop :=
  ptr ∈ s.lru ∧ ∃ e, s.mem.lookup ptr = some e ∧ (e.state = .loading ∨ e.state = .invalidated)

/-- What a task knows about its structure. -/
def TaskOk (s : State) : Pc → Prop
  | .fresh r ptr | .discard r ptr _ => ptr ∉ s.lru ∧ s.mem.lookup ptr = some (newEntry r)
  | .fill r ptr | .load r ptr _ | .finish r ptr _ _ =>
      Filling s ptr ∧ ∀ e, s.mem.lookup ptr = some e → e.inode = r.inode ∧ e.index = r.index
  | .reap _ ptr _ | .expired ptr _ => ptr ∉ s.lru ∧ ∃ e, s.mem.lookup ptr = some e
  | .asleep _ ptr => Filling s ptr
  | .woken _ ptr => ∃ e, s.mem.lookup ptr = some e
  | _ => True

/-- A structure has one owner, and a new one is known to no other task. -/
def Apart (pc pc' : Pc) : Prop :=
  ∀ ptr, pc.owned = some ptr →
    pc'.owned ≠ some ptr ∧ (pc.sole = some ptr → pc'.entry ≠ some ptr)

/-- What holds of the tasks. -/
structure Tasked (s : State) : Prop where
  ok : ∀ t pc, s.tasks.lookup t = some pc → TaskOk s pc
  apart : ∀ t t' pc pc', t ≠ t' → s.tasks.lookup t = some pc → s.tasks.lookup t' = some pc' →
    Apart pc pc'

theorem Filling.congr (h : Filling s ptr) (hmem : s'.mem.lookup ptr = s.mem.lookup ptr)
    (hlru : ptr ∈ s'.lru ↔ ptr ∈ s.lru) : Filling s' ptr := by
  obtain ⟨hptr, e, he, hstate⟩ := h
  exact ⟨hlru.mpr hptr, e, hmem.trans he, hstate⟩

theorem TaskOk.frame (h : TaskOk s pc)
    (hsame : ∀ p, pc.entry = some p → s'.mem.lookup p = s.mem.lookup p ∧ (p ∈ s'.lru ↔ p ∈ s.lru)) : TaskOk s' pc := by
  cases pc with
  | fresh r p | discard r p _ =>
    obtain ⟨hmem, hlru⟩ := hsame p rfl
    exact ⟨fun hp => h.1 (hlru.mp hp), hmem.trans h.2⟩
  | fill r p | load r p _ | finish r p _ _ =>
    obtain ⟨hmem, hlru⟩ := hsame p rfl
    exact ⟨h.1.congr hmem hlru, fun e he => h.2 e (hmem ▸ he)⟩
  | reap _ p _ | expired p _ =>
    obtain ⟨hmem, hlru⟩ := hsame p rfl
    exact ⟨fun hp => h.1 (hlru.mp hp), hmem ▸ h.2⟩
  | asleep r p =>
    obtain ⟨hmem, hlru⟩ := hsame p rfl
    exact Filling.congr h hmem hlru
  | woken r p =>
    obtain ⟨hmem, -⟩ := hsame p rfl
    obtain ⟨e, he⟩ := h
    exact ⟨e, hmem.trans he⟩
  | _ => trivial

/-- On a linked structure that is not being filled there are only tasks that were woken. -/
theorem TaskOk.settled (h : TaskOk s pc) (hptr : ptr ∈ s.lru) (he : s.mem.lookup ptr = some e)
    (hloading : e.state ≠ .loading) (hinvalid : e.state ≠ .invalidated)
    (hentry : pc.entry = some ptr) : ∃ r, pc = .woken r ptr := by
  have hnot : ¬ Filling s ptr := by
    rintro ⟨-, e', he', hstate⟩
    obtain rfl := Option.some.inj (he.symm.trans he')
    exact hstate.elim hloading hinvalid
  cases pc with
  | fresh r p | discard r p _ =>
    cases hentry
    exact absurd hptr h.1
  | fill r p | load r p _ | finish r p _ _ =>
    cases hentry
    exact absurd h.1 hnot
  | reap _ p _ | expired p _ =>
    cases hentry
    exact absurd hptr h.1
  | asleep r p =>
    cases hentry
    exact absurd h hnot
  | woken r p =>
    cases hentry
    exact ⟨r, rfl⟩
  | _ => cases hentry

/-- The other tasks on a structure that has an owner sleep or were woken. -/
theorem TaskOk.waits (hentry : pc.entry = some ptr) (howned : pc.owned ≠ some ptr) :
    ∃ r, pc = .asleep r ptr ∨ pc = .woken r ptr := by
  cases pc with
  | asleep r p =>
    cases hentry
    exact ⟨r, Or.inl rfl⟩
  | woken r p =>
    cases hentry
    exact ⟨r, Or.inr rfl⟩
  | retry | missed | failed | returned | writing | truncating | shrunk => cases hentry
  | _ => exact absurd hentry howned

/-- A change of the tasks that leaves their structures alone. -/
def Keeps (w : Pc → Pc) : Prop :=
  ∀ pc, (w pc).owned = pc.owned ∧ (w pc).entry = pc.entry ∧ (w pc).sole = pc.sole

theorem keeps_id : Keeps id := fun _ => ⟨rfl, rfl, rfl⟩

theorem keeps_wake (ptr : ℕ) : Keeps (Pc.wake ptr) := by
  intro pc
  cases pc with
  | asleep r p =>
    simp only [Pc.wake]
    split_ifs
    · exact ⟨rfl, rfl, rfl⟩
    · exact ⟨rfl, rfl, rfl⟩
  | _ => exact ⟨rfl, rfl, rfl⟩

theorem Apart.keeps {w : Pc → Pc} (hw : Keeps w) (h : Apart pc pc') : Apart (w pc) (w pc') := by
  obtain ⟨ho, he, hs⟩ := hw pc
  obtain ⟨ho', he', hs'⟩ := hw pc'
  intro ptr hptr
  rw [ho] at hptr
  rw [ho', hs, he']
  exact h ptr hptr

theorem Tasked.step {w : Pc → Pc} (h : Tasked s) (hw : Keeps w)
    (htasks : ∀ u, u ≠ t → s'.tasks.lookup u = (s.tasks.lookup u).map w)
    (hself : s'.tasks.lookup t = some pc') (hok : TaskOk s' pc')
    (hothers : ∀ u pu, u ≠ t → s.tasks.lookup u = some pu →
      TaskOk s' (w pu) ∧ Apart pc' pu ∧ Apart pu pc') : Tasked s' := by
  have hold : ∀ u pu, u ≠ t → s'.tasks.lookup u = some pu →
      ∃ pu₀, s.tasks.lookup u = some pu₀ ∧ pu = w pu₀ := by
    intro u pu hu hpu
    rw [htasks u hu] at hpu
    obtain ⟨pu₀, hpu₀, rfl⟩ := Option.map_eq_some_iff.mp hpu
    exact ⟨pu₀, hpu₀, rfl⟩
  constructor
  · intro u pu hpu
    by_cases hu : u = t
    · subst hu
      exact Option.some.inj (hself.symm.trans hpu) ▸ hok
    · obtain ⟨pu₀, hpu₀, rfl⟩ := hold u pu hu hpu
      exact (hothers u pu₀ hu hpu₀).1
  · intro u v pu pv huv hpu hpv
    by_cases hu : u = t
    · subst hu
      obtain rfl := Option.some.inj (hself.symm.trans hpu)
      obtain ⟨pv₀, hpv₀, rfl⟩ := hold v pv (Ne.symm huv) hpv
      obtain ⟨-, hap, -⟩ := hothers v pv₀ (Ne.symm huv) hpv₀
      obtain ⟨ho, he, -⟩ := hw pv₀
      intro p hp
      rw [ho, he]
      exact hap p hp
    · obtain ⟨pu₀, hpu₀, rfl⟩ := hold u pu hu hpu
      by_cases hv : v = t
      · subst hv
        obtain rfl := Option.some.inj (hself.symm.trans hpv)
        obtain ⟨-, -, hap⟩ := hothers u pu₀ hu hpu₀
        obtain ⟨ho, -, hs⟩ := hw pu₀
        intro p hp
        rw [ho] at hp
        rw [hs]
        exact hap p hp
      · obtain ⟨pv₀, hpv₀, rfl⟩ := hold v pv hv hpv
        exact (h.apart u v pu₀ pv₀ huv hpu₀ hpv₀).keeps hw

/-! ## References to frames -/

/-- The frame of a structure. -/
def pageOf (s : State) (ptr : ℕ) : Option ℕ := (s.mem.lookup ptr).bind Entry.page

/-- The frames of the linked structures, once for each. -/
def cachePages (s : State) : List ℕ := s.lru.filterMap (pageOf s)

/-- The frames that tasks refer to. -/
def taskPages (tasks : Table ℕ Pc) : List ℕ := (Table.values tasks).filterMap Pc.page

/-- The frames of structures and tasks. -/
def refs (s : State) : List ℕ := cachePages s ++ taskPages s.tasks

/-- All references to frames. -/
def owners (s : State) : List ℕ := refs s ++ s.held

theorem taskPages_insert (tasks : Table ℕ Pc) (t : ℕ) (pc : Pc) :
    taskPages (tasks.insert t pc) = pc.page.toList ++ taskPages (tasks.erase t) := by
  unfold taskPages
  rw [Table.values_insert, List.filterMap_cons]
  cases pc.page with
  | none => rfl
  | some f => rfl

theorem taskPages_perm (tasks : Table ℕ Pc) (t : ℕ) :
    (taskPages tasks).Perm (((tasks.lookup t).bind Pc.page).toList ++ taskPages (tasks.erase t)) := by
  cases hpc : tasks.lookup t with
  | none => rw [Table.erase_of_lookup_none hpc]; rfl
  | some pc =>
    refine ((Table.values_perm_erase hpc).filterMap Pc.page).trans ?_
    rw [List.filterMap_cons, Option.bind_some]
    unfold taskPages
    cases pc.page with
    | none => rfl
    | some f => rfl

theorem taskPages_wake (tasks : Table ℕ Pc) (ptr : ℕ) :
    taskPages (Table.mapVal (fun _ pc => pc.wake ptr) tasks) = taskPages tasks := by
  refine Table.values_mapVal_filterMap fun _ pc => ?_
  cases pc with
  | asleep r p =>
    simp only [Pc.wake]
    split_ifs
    · rfl
    · rfl
  | _ => rfl

/-- The frames of the linked structures, when these do not change. -/
theorem cachePages_congr (hlru : s'.lru = s.lru)
    (hmem : ∀ ptr ∈ s.lru, pageOf s' ptr = pageOf s ptr) : cachePages s' = cachePages s := by
  unfold cachePages
  rw [hlru]
  exact List.filterMap_congr hmem

theorem cachePages_perm (hptr : ptr ∈ s.lru) :
    (cachePages s).Perm ((pageOf s ptr).toList ++ (s.lru.erase ptr).filterMap (pageOf s)) := by
  refine ((List.perm_cons_erase hptr).filterMap (pageOf s)).trans ?_
  rw [List.filterMap_cons]
  cases pageOf s ptr with
  | none => rfl
  | some f => rfl

/-! ## The invariant -/

/-- What holds in every run that frees no structure too early. -/
structure Inv (s : State) : Prop where
  listed : Listed s
  tasked : Tasked s
  balanced : s.pool.Balanced (owners s)
  distinct : (refs s).Nodup

theorem Pc.entry_of_owned {p : ℕ} (h : pc.owned = some p) : pc.entry = some p := by
  cases pc <;> first | exact h | cases h

theorem apart_none (h : pc'.entry = none) : Apart pc' pc ∧ Apart pc pc' := by
  constructor
  · intro p hp
    rw [Pc.entry_of_owned hp] at h
    cases h
  · intro p _
    refine ⟨fun hp => ?_, fun _ hp => ?_⟩
    · rw [Pc.entry_of_owned hp] at h
      cases h
    · rw [h] at hp
      cases hp

theorem Tasked.apart_same (h : Tasked s) (hpc : s.tasks.lookup t = some pc)
    (howned : ∀ p, pc'.owned = some p → pc.owned = some p) (hentry : ∀ p, pc'.entry = some p → pc.entry = some p)
    (hsole : ∀ p, pc'.sole = some p → pc.sole = some p) :
    ∀ u pu, u ≠ t → s.tasks.lookup u = some pu → Apart pc' pu ∧ Apart pu pc' := by
  intro u pu hu hpu
  constructor
  · intro p hp
    obtain ⟨hne, hs⟩ := h.apart t u pc pu (Ne.symm hu) hpc hpu p (howned p hp)
    exact ⟨hne, fun hp' => hs (hsole p hp')⟩
  · intro p hp
    obtain ⟨hne, hs⟩ := h.apart u t pu pc hu hpu hpc p hp
    exact ⟨fun hp' => hne (howned p hp'), fun hp' he => hs hp' (hentry p he)⟩

theorem taskPages_same {tasks : Table ℕ Pc} (hpage : pc'.page = (tasks.lookup t).bind Pc.page) :
    (taskPages (tasks.insert t pc')).Perm (taskPages tasks) := by
  rw [taskPages_insert, hpage]
  exact (taskPages_perm tasks t).symm

theorem Inv.of_refs (h : Inv s) (hlisted : Listed s') (htasked : Tasked s')
    (hrefs : (refs s').Perm (refs s)) (hpool : s'.pool = s.pool) (hheld : s'.held = s.held) : Inv s' := by
  refine ⟨hlisted, htasked, ?_, hrefs.nodup_iff.mpr h.distinct⟩
  rw [hpool]
  refine h.balanced.perm ?_
  rw [owners, owners, hheld]
  exact hrefs.symm.append_right _

/-- The lists and the tasks after a step that changes neither the structures nor the
lists. -/
theorem Inv.tasked_move (h : Inv s) (hmem : s'.mem = s.mem) (hlru : s'.lru = s.lru)
    (htasks : s'.tasks = s.tasks.insert t pc') (hok : TaskOk s pc')
    (hapart : ∀ u pu, u ≠ t → s.tasks.lookup u = some pu → Apart pc' pu ∧ Apart pu pc') : Tasked s' := by
  have hframe : ∀ pu, TaskOk s pu → TaskOk s' pu := fun pu hpu =>
    hpu.frame fun p _ => ⟨by rw [hmem], by rw [hlru]⟩
  refine h.tasked.step keeps_id (fun u hu => ?_) (by rw [htasks, AList.lookup_insert])
    (hframe pc' hok) fun u pu hu hpu => ⟨hframe pu (h.tasked.ok u pu hpu), hapart u pu hu hpu⟩
  rw [htasks, AList.lookup_insert_ne hu, Option.map_id_fun, id_eq]

theorem Inv.move (h : Inv s) (hmem : s'.mem = s.mem) (hlru : s'.lru = s.lru)
    (hhash : s'.hash = s.hash) (hcount : s'.count = s.count)
    (htasks : s'.tasks = s.tasks.insert t pc') (hpool : s'.pool = s.pool)
    (hheld : s'.held = s.held) (hpage : pc'.page = (s.tasks.lookup t).bind Pc.page) (hok : TaskOk s pc')
    (hapart : ∀ u pu, u ≠ t → s.tasks.lookup u = some pu → Apart pc' pu ∧ Apart pu pc') : Inv s' := by
  refine h.of_refs (h.listed.congr hmem hlru hhash hcount) (h.tasked_move hmem hlru htasks hok hapart) ?_ hpool hheld
  have hcache : cachePages s' = cachePages s :=
    cachePages_congr hlru fun p _ => by rw [pageOf, pageOf, hmem]
  rw [refs, refs, hcache, htasks]
  exact (taskPages_same hpage).append_left _

theorem Inv.idle (h : Inv s) (hmem : s'.mem = s.mem) (hlru : s'.lru = s.lru)
    (hhash : s'.hash = s.hash) (hcount : s'.count = s.count)
    (htasks : s'.tasks = s.tasks.insert t pc') (hpool : s'.pool = s.pool)
    (hheld : s'.held = s.held) (hpage : (s.tasks.lookup t).bind Pc.page = none)
    (hpage' : pc'.page = none) (hentry : pc'.entry = none) (hok : TaskOk s pc') : Inv s' :=
  h.move hmem hlru hhash hcount htasks hpool hheld (hpage'.trans hpage.symm) hok fun _ _ _ _ => apart_none hentry

theorem Inv.of_refs_ref {f : ℕ} (h : Inv s) (hlisted : Listed s') (htasked : Tasked s')
    (hrefs : (refs s').Perm (refs s)) (hf : f ∈ refs s) (hpool : s'.pool = s.pool.ref f)
    (hheld : s'.held = f :: s.held) : Inv s' := by
  refine ⟨hlisted, htasked, ?_, hrefs.nodup_iff.mpr h.distinct⟩
  have hmem : f ∈ owners s := List.mem_append_left _ hf
  rw [hpool]
  refine (h.balanced.ref (h.balanced.not_free hmem)).perm ?_
  rw [owners, owners, hheld]
  exact List.perm_middle.symm.trans (hrefs.symm.append_right _)

theorem Inv.of_refs_put {f : Option ℕ} (h : Inv s) (hlisted : Listed s') (htasked : Tasked s')
    (hrefs : (refs s).Perm (f.toList ++ refs s'))
    (hpool : s'.pool = f.elim s.pool fun g => s.pool.put g) (hheld : s'.held = s.held) : Inv s' := by
  refine ⟨hlisted, htasked, ?_, (List.nodup_append.mp (hrefs.nodup_iff.mp h.distinct)).2.1⟩
  have hbal : s.pool.Balanced (f.toList ++ owners s') := by
    rw [owners, hheld, ← List.append_assoc]
    exact h.balanced.perm (hrefs.append_right _)
  rw [hpool]
  cases f with
  | none => exact hbal
  | some g => exact Pool.Balanced.put hbal

theorem Inv.of_refs_take {g : ℕ} (h : Inv s) (hlisted : Listed s') (htasked : Tasked s')
    (hrefs : (refs s').Perm (g :: refs s)) (hfree : s.pool.free g = true)
    (hpool : s'.pool = s.pool.take g) (hheld : s'.held = s.held) : Inv s' := by
  have hnew : g ∉ owners s := h.balanced.unused g hfree
  refine ⟨hlisted, htasked, ?_, ?_⟩
  · rw [hpool]
    refine (h.balanced.take hfree).perm ?_
    rw [owners, owners, hheld]
    exact (hrefs.symm.append_right _)
  · refine hrefs.nodup_iff.mpr (List.nodup_cons.mpr ⟨fun hg => hnew ?_, h.distinct⟩)
    exact List.mem_append_left _ hg

/-- What a step that moves one task does to the frames of tasks. -/
theorem taskPages_move (tasks : Table ℕ Pc) (t : ℕ) (pc' : Pc) :
    (((tasks.lookup t).bind Pc.page).toList ++ taskPages (tasks.insert t pc')).Perm
      (pc'.page.toList ++ taskPages tasks) := by
  rw [taskPages_insert]
  refine (List.perm_append_comm_assoc ..).trans ?_
  exact (taskPages_perm tasks t).symm.append_left _

/-- One task goes on, others wake up, and one structure changes. -/
theorem Inv.tasked_at {w : Pc → Pc} (h : Inv s) (hw : Keeps w) (hrest : ∀ pc, pc.entry ≠ some ptr → w pc = pc)
    (htasks : ∀ u, u ≠ t → s'.tasks.lookup u = (s.tasks.lookup u).map w) (hself : s'.tasks.lookup t = some pc')
    (hmem : ∀ p, p ≠ ptr → s'.mem.lookup p = s.mem.lookup p)
    (hlru : ∀ p, p ≠ ptr → (p ∈ s'.lru ↔ p ∈ s.lru)) (hok : TaskOk s' pc')
    (hapart : ∀ u pu, u ≠ t → s.tasks.lookup u = some pu → Apart pc' pu ∧ Apart pu pc')
    (hat : ∀ u pu, u ≠ t → s.tasks.lookup u = some pu → pu.entry = some ptr → TaskOk s' (w pu)) : Tasked s' := by
  refine h.tasked.step hw htasks hself hok fun u pu hu hpu => ⟨?_, hapart u pu hu hpu⟩
  by_cases hentry : pu.entry = some ptr
  · exact hat u pu hu hpu hentry
  · rw [hrest pu hentry]
    refine (h.tasked.ok u pu hpu).frame fun p hp => ?_
    have hne : p ≠ ptr := fun hpp => hentry (hpp ▸ hp)
    exact ⟨hmem p hne, hlru p hne⟩

/-- The tasks do not change, and a structure that no task uses does. -/
theorem Inv.tasked_frame (h : Inv s) (htasks : s'.tasks = s.tasks)
    (hmem : ∀ p, p ≠ ptr → s'.mem.lookup p = s.mem.lookup p) (hlru : ∀ p, p ≠ ptr → (p ∈ s'.lru ↔ p ∈ s.lru))
    (hat : ∀ u pu, s.tasks.lookup u = some pu → pu.entry = some ptr → TaskOk s' pu) : Tasked s' := by
  constructor
  · intro u pu hpu
    rw [htasks] at hpu
    by_cases hentry : pu.entry = some ptr
    · exact hat u pu hpu hentry
    · refine (h.tasked.ok u pu hpu).frame fun p hp => ?_
      have hne : p ≠ ptr := fun hpp => hentry (hpp ▸ hp)
      exact ⟨hmem p hne, hlru p hne⟩
  · rw [htasks]
    exact h.tasked.apart

/-! ## Freeing a structure -/

theorem cachePages_remove (h : Listed s) (hptr : ptr ∈ s.lru) (he : s.mem.lookup ptr = some e)
    (hlru : s'.lru = s.lru.erase ptr) (hmem : ∀ p, p ≠ ptr → s'.mem.lookup p = s.mem.lookup p) :
    (cachePages s).Perm (e.page.toList ++ cachePages s') := by
  have hof : pageOf s ptr = e.page := by rw [pageOf, he, Option.bind_some]
  have hcache : cachePages s' = (s.lru.erase ptr).filterMap (pageOf s) := by
    unfold cachePages
    rw [hlru]
    refine List.filterMap_congr fun p hp => ?_
    have hne : p ≠ ptr := (h.lru.mem_erase_iff.mp hp).1
    rw [pageOf, pageOf, hmem p hne]
  rw [hcache, ← hof]
  exact cachePages_perm hptr

theorem Inv.free_linked (h : Inv s) (hptr : ptr ∈ s.lru)
    (he : s.mem.lookup ptr = some e) (hloading : e.state ≠ .loading) (hinvalid : e.state ≠ .invalidated)
    (hwoken : ∀ u r, s.tasks.lookup u ≠ some (.woken r ptr)) : Inv (kfree ptr (removeLocked ptr e s)) := by
  obtain ⟨hlisted, hnot⟩ := h.listed.remove hptr he
  have hmem : ∀ p, p ≠ ptr → (kfree ptr (removeLocked ptr e s)).mem.lookup p = s.mem.lookup p :=
    fun p hp => AList.lookup_erase_ne hp
  have hlru : ∀ p, p ≠ ptr → (p ∈ (kfree ptr (removeLocked ptr e s)).lru ↔ p ∈ s.lru) := by
    intro p hp
    exact (h.listed.lru.mem_erase_iff).trans ⟨fun hx => hx.2, fun hx => ⟨hp, hx⟩⟩
  have htasked : Tasked (kfree ptr (removeLocked ptr e s)) := by
    refine h.tasked_frame rfl hmem hlru fun u pu hpu hentry => ?_
    obtain ⟨r, rfl⟩ := (h.tasked.ok u pu hpu).settled hptr he hloading hinvalid hentry
    exact absurd hpu (hwoken u r)
  refine h.of_refs_put (hlisted.unlinked hnot rfl rfl rfl hmem) htasked ?_ rfl rfl
  unfold refs
  rw [← List.append_assoc]
  exact (cachePages_remove h.listed hptr he rfl hmem).append_right _

end Mario.Filemap
