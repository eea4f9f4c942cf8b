import Mario.Mm.WriteBack

/-!
# Page table entries and the areas that cover them

Every present entry lies in an area, and an entry of a shared area of a file maps the
frame that the page cache has for that page of the file. This holds in every run whose
page faults find their pages, and is what both the isolation of private mappings and
the agreement of shared ones rest on.
-/

namespace Mario.Paging

open Mario.Mm Mario.Lib Function

/-- An entry of a shared area of a file maps the cached page of the file. -/
def Backed (k : Kernel) (m : Memory) (i : Info) (pg f : ℕ) : Prop :=
  i.flags.shared = true → ∀ file base, i.file = some (file, base) →
    ∃ ino, inodeOf k file = some ino ∧
      m.cache.lookup (ino, (base + pg * pageSize) % wordSize / pageSize) = some f

/-- The areas of a process are well formed and cover its entries. -/
structure ProcOk (k : Kernel) (m : Memory) (P : Proc) : Prop where
  wf : WellFormed P.mmap
  offsets : ∀ a i, infoAt P.mmap a = some i → ∀ f b, i.file = some (f, b) → pageSize ∣ b
  covered : ∀ pg pte, P.pt.lookup pg = some pte →
    ∃ i, infoAt P.mmap (pg * pageSize) = some i ∧ Backed k m i pg pte.frame

/-- What holds in every run whose page faults find their pages. -/
structure PageInv (k : Kernel) (s : Machine) : Prop where
  counted : Counted k s
  procs : ∀ p P, s.procs.lookup p = some P → ProcOk k s.mem P

/-- The two say the same about the file, the origin and whether the area is shared. -/
structure SameBacking (i i' : Info) : Prop where
  shared : i'.flags.shared = i.flags.shared
  file : i'.file = i.file
  origin : i'.origin = i.origin

theorem SameBacking.refl (i : Info) : SameBacking i i := ⟨rfl, rfl, rfl⟩

/-- What an area has that a call makes: whole pages of its file, and an origin that no
other area has. -/
structure NewInfo (s t : Machine) (i : Info) : Prop where
  offset : ∀ f b, i.file = some (f, b) → pageSize ∣ b
  origin : ∀ o, i.origin = some o → o = s.fresh ∧ s.fresh < t.fresh

/-- The call replaces its process, leaves the page cache alone and adds no entry: every
entry was there before, for the same frame and the same page of an area. -/
structure Narrows (p : ℕ) (P : Proc) (s t : Machine) (P' : Proc) : Prop where
  self : t.procs.lookup p = some P'
  others : ∀ q, q ≠ p → t.procs.lookup q = s.procs.lookup q
  wf : WellFormed P'.mmap
  fresh : s.fresh ≤ t.fresh
  cache : t.mem.cache = s.mem.cache
  held : t.mem.held = s.mem.held
  entry : ∀ pg pte', P'.pt.lookup pg = some pte' →
    ∃ pte, P.pt.lookup pg = some pte ∧ pte'.frame = pte.frame
  info : ∀ pg pte', P'.pt.lookup pg = some pte' →
    ∀ i, infoAt P.mmap (pg * pageSize) = some i →
      ∃ i', infoAt P'.mmap (pg * pageSize) = some i' ∧ SameBacking i i'
  infos : ∃ new : Option Info, (∀ i ∈ new, NewInfo s t i) ∧ ∀ a i, infoAt P'.mmap a = some i →
    (∃ b j, infoAt P.mmap b = some j ∧ SameBacking j i) ∨ i ∈ new

/-- Every entry that allows stores did so before. -/
def NoNewRw (P P' : Proc) : Prop :=
  ∀ pg pte', P'.pt.lookup pg = some pte' → pte'.rw = true →
    ∃ pte, P.pt.lookup pg = some pte ∧ pte'.frame = pte.frame ∧ pte.rw = true

variable {k : Kernel} {s t : Machine} {p : ℕ} {P P' : Proc} {m m' : Memory}

theorem Backed.congr {i i' : Info} {pg f : ℕ} (h : Backed k m i pg f) (hsame : SameBacking i i') :
    Backed k m i' pg f := by
  intro hshared file base hfile
  exact h (hsame.shared ▸ hshared) file base (hsame.file ▸ hfile)

theorem Backed.cache {i : Info} {pg f : ℕ} (h : Backed k m i pg f)
    (hcache : ∀ key, m.cache.lookup key = some f → m'.cache.lookup key = some f) : Backed k m' i pg f := by
  intro hshared file base hfile
  obtain ⟨ino, hino, hlook⟩ := h hshared file base hfile
  exact ⟨ino, hino, hcache _ hlook⟩

/-- A process that does not change, while the cache keeps the pages that it maps. -/
theorem ProcOk.cache (h : ProcOk k m P)
    (hcache : ∀ key, ∀ f ∈ frames P.pt, m.cache.lookup key = some f →
      m'.cache.lookup key = some f) : ProcOk k m' P := by
  refine ⟨h.wf, h.offsets, fun pg pte hpte => ?_⟩
  obtain ⟨i, hi, hback⟩ := h.covered pg pte hpte
  refine ⟨i, hi, hback.cache fun key hkey => ?_⟩
  exact hcache key pte.frame (mem_frames.mpr ⟨pg, pte, hpte, rfl⟩) hkey

theorem ProcOk.narrows (h : ProcOk k s.mem P) (hn : Narrows p P s t P') : ProcOk k t.mem P' := by
  refine ⟨hn.wf, fun a i hi => ?_, fun pg pte' hpte' => ?_⟩
  · obtain ⟨new, hnew, hinfos⟩ := hn.infos
    rcases hinfos a i hi with ⟨b, j, hj, hsame⟩ | hmem
    · rw [hsame.file]
      exact h.offsets b j hj
    · exact (hnew i hmem).offset
  · obtain ⟨pte, hpte, hframe⟩ := hn.entry pg pte' hpte'
    obtain ⟨i, hi, hback⟩ := h.covered pg pte hpte
    obtain ⟨i', hi', hsame⟩ := hn.info pg pte' hpte' i hi
    rw [hframe]
    exact ⟨i', hi', (hback.congr hsame).cache fun key hkey => by rwa [hn.cache]⟩

/-! ## Entries after each call -/

theorem Synced.entry {x y : PageTable × Memory} (h : Synced x y) {pg : ℕ} {pte' : Pte}
    (hpte' : y.1.lookup pg = some pte') :
    ∃ pte, x.1.lookup pg = some pte ∧ pte'.frame = pte.frame ∧ pte'.rw = pte.rw := by
  have hmap := h.entries pg
  rw [hpte', Option.map_some] at hmap
  obtain ⟨pte, hpte, hclean⟩ := Option.map_eq_some_iff.mp hmap.symm
  refine ⟨pte, hpte, ?_, ?_⟩
  · exact (congrArg Pte.frame hclean).symm
  · exact (congrArg Pte.rw hclean).symm

theorem infoAt_none_of_unlinked {addr fin a : ℕ} {l : List Vma} (hwf : WellFormed l)
    (h : (unlinkRange addr fin [] l).2 = []) (ha : addr ≤ a ∧ a < fin) : infoAt l a = none := by
  cases hi : infoAt l a with
  | none => rfl
  | some i =>
    obtain ⟨v, hv, hcovers, -⟩ := (infoAt_eq_some_iff hwf.apart).mp hi
    have hperm := unlinkRange_perm addr fin [] l
    rw [h, List.append_nil, List.append_nil] at hperm
    have hkept := unlinkRange_kept hwf (hperm.mem_iff.mpr hv)
    obtain ⟨hc₁, hc₂⟩ := hcovers
    omega

/-- The entries that `do_munmap` leaves lie outside its range. -/
theorem munmapPages_entry {addr len : ℕ} {io : ℕ → ℕ → ℕ} {l : List Vma}
    {x : PageTable × Memory} {pg : ℕ} {pte' : Pte} (hwf : WellFormed l)
    (hcovered : ∀ pte, x.1.lookup pg = some pte → infoAt l (pg * pageSize) ≠ none)
    (h : (munmapPages k addr len io l x).1.lookup pg = some pte') :
    (∃ pte, x.1.lookup pg = some pte ∧ pte'.frame = pte.frame ∧ pte'.rw = pte.rw) ∧
      (¬ MunmapInvalid addr len → ¬ (addr ≤ pg * pageSize ∧ pg * pageSize < addr + pageAlign len)) := by
  rw [munmapPages_eq] at h
  split_ifs at h with hidle
  · refine ⟨⟨pte', h, rfl, rfl⟩, fun hvalid hin => ?_⟩
    rcases hidle with hinvalid | hzero | hfree
    · exact hvalid hinvalid
    · omega
    · exact hcovered pte' h (infoAt_none_of_unlinked hwf hfree hin)
  · simp only [unmapPageRange, Table.lookup_restrict] at h
    split_ifs at h with hout
    refine ⟨(unmapAreas_synced k addr (addr + pageAlign len) io
      (unlinkRange addr (addr + pageAlign len) [] l).2 x).entry h, fun _ hin => ?_⟩
    simp [hin] at hout

theorem ProcOk.not_none (h : ProcOk k m P) (pg : ℕ) :
    ∀ pte, P.pt.lookup pg = some pte → infoAt P.mmap (pg * pageSize) ≠ none := by
  intro pte hpte hnone
  obtain ⟨i, hi, -⟩ := h.covered pg pte hpte
  rw [hnone] at hi
  cases hi

theorem ProcOk.unmapped_entry {addr len : ℕ} {io : ℕ → ℕ → ℕ} (hok : ProcOk k m P)
    (hpages : (P'.pt, m') = munmapPages k addr len io P.mmap (P.pt, m)) {pg : ℕ} {pte' : Pte}
    (hpte' : P'.pt.lookup pg = some pte') :
    (∃ pte, P.pt.lookup pg = some pte ∧ pte'.frame = pte.frame ∧ pte'.rw = pte.rw) ∧
      (¬ MunmapInvalid addr len → ¬ (addr ≤ pg * pageSize ∧ pg * pageSize < addr + pageAlign len)) := by
  have hlook : (munmapPages k addr len io P.mmap (P.pt, m)).1.lookup pg = some pte' := by
    rw [← hpages]
    exact hpte'
  exact munmapPages_entry hok.wf (hok.not_none pg) hlook

theorem infos_of_old (h : ∀ a i, infoAt P'.mmap a = some i → ∃ b j, infoAt P.mmap b = some j ∧ SameBacking j i) :
    ∃ new : Option Info, (∀ i ∈ new, NewInfo s t i) ∧ ∀ a i, infoAt P'.mmap a = some i →
      (∃ b j, infoAt P.mmap b = some j ∧ SameBacking j i) ∨ i ∈ new := by
  refine ⟨none, fun i hi => ?_, fun a i hi => Or.inl (h a i hi)⟩
  cases hi

theorem lookup_insert_self (h : t.procs = s.procs.insert p P') : t.procs.lookup p = some P' := by
  rw [h, AList.lookup_insert]

theorem lookup_insert_others (h : t.procs = s.procs.insert p P') (q : ℕ) (hq : q ≠ p) :
    t.procs.lookup q = s.procs.lookup q := by
  rw [h, AList.lookup_insert_ne hq]

theorem munmapPages_synced (k : Kernel) (addr len : ℕ) (io : ℕ → ℕ → ℕ) (l : List Vma) (x : PageTable × Memory) :
    (munmapPages k addr len io l x).2.cache = x.2.cache ∧ (munmapPages k addr len io l x).2.held = x.2.held := by
  rw [munmapPages_eq]
  split_ifs
  · exact ⟨rfl, rfl⟩
  · have hsync := unmapAreas_synced k addr (addr + pageAlign len) io (unlinkRange addr (addr + pageAlign len) [] l).2 x
    exact ⟨hsync.cache, hsync.held⟩

theorem sysMunmap_narrows {addr len : ℕ} {io : ℕ → ℕ → ℕ} (hok : ProcOk k s.mem P)
    (h : sysMunmap k p P addr len io s = some t) : ∃ P', Narrows p P s t P' ∧ NoNewRw P P' := by
  obtain ⟨P', hprocs, -, hfresh, hpages, hwf, hinfo⟩ := sysMunmap_areas hok.wf h
  have hmem : t.mem = (munmapPages k addr len io P.mmap (P.pt, s.mem)).2 := by rw [← hpages]
  obtain ⟨hcache, hheld⟩ := munmapPages_synced k addr len io P.mmap (P.pt, s.mem)
  refine ⟨P', ⟨lookup_insert_self hprocs, lookup_insert_others hprocs, hwf, hfresh, hmem ▸ hcache, hmem ▸ hheld, ?_, ?_, ?_⟩, ?_⟩
  · intro pg pte' hpte'
    obtain ⟨⟨pte, hpte, hframe, -⟩, -⟩ := hok.unmapped_entry hpages hpte'
    exact ⟨pte, hpte, hframe⟩
  · intro pg pte' hpte' i hi
    refine ⟨i, ?_, SameBacking.refl i⟩
    rw [hinfo, unmappedMap]
    split_ifs with hinvalid
    · exact hi
    · rw [removeRange, if_neg ((hok.unmapped_entry hpages hpte').2 hinvalid)]
      exact hi
  · refine infos_of_old fun a i hi => ⟨a, i, ?_, SameBacking.refl i⟩
    rw [hinfo, unmappedMap] at hi
    split_ifs at hi
    · exact hi
    · rw [removeRange] at hi
      split_ifs at hi
      exact hi
  · intro pg pte' hpte' hrw
    obtain ⟨⟨pte, hpte, hframe, hsame⟩, -⟩ := hok.unmapped_entry hpages hpte'
    exact ⟨pte, hpte, hframe, hsame ▸ hrw⟩

/-- A call of `do_mmap` that unmaps its range first passes the checks of `do_munmap`. -/
theorem unmapsFirst_range {a : MmapArgs} {kzalloc : Bool} {files : ℕ → File} {fds : ℕ → Option ℕ}
    (h : unmapsFirst files fds a kzalloc = true) :
    ¬ MunmapInvalid a.addr (pageAlign a.len) ∧ pageAlign (pageAlign a.len) = pageAlign a.len := by
  simp only [unmapsFirst, Bool.and_eq_true] at h
  obtain ⟨⟨hok, hfixed⟩, -⟩ := h
  cases hcheck : checkMmap files fds a with
  | error e =>
    rw [hcheck] at hok
    cases hok
  | ok file =>
    have hacc := checkMmap_ok hcheck
    have hfits := hacc.fits
    have haligned := hacc.fixed hfixed
    refine ⟨?_, pageAlign_of_dvd (pageSize_dvd_pageAlign _) (by omega)⟩
    simp only [MunmapInvalid, not_or, not_not, not_lt]
    exact ⟨haligned, by omega, by omega⟩

/-- The area that `do_mmap` makes maps whole pages of its file. -/
theorem mappedInfo_new {a : MmapArgs} {x : ℕ} {file : Option ℕ} {fds : ℕ → Option ℕ}
    (hcheck : checkMmap k.files fds a = .ok file) (hx : pageSize ∣ x) (hlt : s.fresh < t.fresh) :
    NewInfo s t (mappedInfo a x file s.fresh) := by
  have hacc := checkMmap_ok hcheck
  constructor
  · intro f b hfile
    cases file with
    | none => cases hfile
    | some g =>
      obtain ⟨-, rfl⟩ := Prod.mk.inj (Option.some.inj hfile)
      have hoff := (hacc.offset rfl).1
      obtain ⟨c, rfl⟩ := hx
      simp only [Vma.base, mapped, allocVma, Option.isSome_some, if_true]
      simp only [pageSize, wordSize] at hoff ⊢
      omega
  · intro o ho
    simp only [mappedInfo, Vma.info] at ho
    split_ifs at ho
    exact ⟨(Option.some.inj ho).symm, hlt⟩

theorem sysMmap_narrows {a : MmapArgs} {kzalloc : Bool} {io : ℕ → ℕ → ℕ} (hok : ProcOk k s.mem P)
    (h : sysMmap k p P a kzalloc io s = some t) : ∃ P', Narrows p P s t P' ∧ NoNewRw P P' := by
  obtain ⟨P', hprocs, -, hfresh, hpages, hwf, hmap⟩ := sysMmap_areas hok.wf h
  -- an entry that is left is one of before, and its page is mapped when the area is inserted
  have hentry : ∀ pg pte', P'.pt.lookup pg = some pte' →
      (∃ pte, P.pt.lookup pg = some pte ∧ pte'.frame = pte.frame ∧ pte'.rw = pte.rw) ∧
        clearedMap k.files P.fds a kzalloc P.mmap (pg * pageSize) = infoAt P.mmap (pg * pageSize) := by
    intro pg pte' hpte'
    by_cases hunmaps : unmapsFirst k.files P.fds a kzalloc = true
    · rw [if_pos hunmaps] at hpages
      obtain ⟨hvalid, hidem⟩ := unmapsFirst_range hunmaps
      obtain ⟨hold, hout⟩ := hok.unmapped_entry hpages hpte'
      refine ⟨hold, ?_⟩
      have houtside := hout hvalid
      rw [hidem] at houtside
      rw [clearedMap, if_pos hunmaps, removeRange, if_neg houtside]
    · rw [if_neg hunmaps] at hpages
      obtain ⟨hpt, -⟩ := Prod.mk.inj hpages
      rw [hpt] at hpte'
      exact ⟨⟨pte', hpte', rfl, rfl⟩, by rw [clearedMap, if_neg hunmaps]⟩
  have husers : t.mem.cache = s.mem.cache ∧ t.mem.held = s.mem.held := by
    have hmem : t.mem = (P'.pt, t.mem).2 := rfl
    rw [hmem, hpages]
    split_ifs
    · exact munmapPages_synced ..
    · exact ⟨rfl, rfl⟩
  refine ⟨P', ⟨lookup_insert_self hprocs, lookup_insert_others hprocs, hwf, hfresh, husers.1, husers.2, ?_, ?_, ?_⟩, ?_⟩
  · intro pg pte' hpte'
    obtain ⟨⟨pte, hpte, hframe, -⟩, -⟩ := hentry pg pte' hpte'
    exact ⟨pte, hpte, hframe⟩
  · intro pg pte' hpte' i hi
    obtain ⟨-, hcleared⟩ := hentry pg pte' hpte'
    refine ⟨i, ?_, SameBacking.refl i⟩
    rcases hmap with hinfo | ⟨x, file, -, -, -, hnone, hinfo⟩
    · rw [hinfo, hcleared]
      exact hi
    · rw [hinfo, defineRange]
      split_ifs with hin
      · have hclear := hnone _ hin
        rw [hcleared, hi] at hclear
        cases hclear
      · rw [hcleared]
        exact hi
  · rcases hmap with hinfo | ⟨x, file, hcheck, hlt, hdvd, hnone, hinfo⟩
    · refine infos_of_old fun b i hi => ⟨b, i, ?_, SameBacking.refl i⟩
      rw [hinfo] at hi
      exact clearedMap_some hi
    · refine ⟨some (mappedInfo a x file s.fresh), fun i hi => ?_, fun b i hi => ?_⟩
      · cases hi
        exact mappedInfo_new hcheck hdvd hlt
      · rw [hinfo, defineRange] at hi
        split_ifs at hi
        · exact Or.inr hi
        · exact Or.inl ⟨b, i, clearedMap_some hi, SameBacking.refl i⟩
  · intro pg pte' hpte' hrw
    obtain ⟨⟨pte, hpte, hframe, hsame⟩, -⟩ := hentry pg pte' hpte'
    exact ⟨pte, hpte, hframe, hsame ▸ hrw⟩

/-- The calls that leave the areas alone and replace entries by entries for the same
frame. -/
theorem narrows_entries (hok : ProcOk k m P) (hmmap : P'.mmap = P.mmap) (hself : t.procs.lookup p = some P')
    (hothers : ∀ q, q ≠ p → t.procs.lookup q = s.procs.lookup q) (hfresh : s.fresh ≤ t.fresh)
    (hcache : t.mem.cache = s.mem.cache) (hheld : t.mem.held = s.mem.held)
    (hentry : ∀ pg pte', P'.pt.lookup pg = some pte' → ∃ pte, P.pt.lookup pg = some pte ∧
      pte'.frame = pte.frame ∧ (pte'.rw = true → pte.rw = true)) : Narrows p P s t P' ∧ NoNewRw P P' := by
  refine ⟨⟨hself, hothers, hmmap ▸ hok.wf, hfresh, hcache, hheld, ?_, ?_, ?_⟩, ?_⟩
  · intro pg pte' hpte'
    obtain ⟨pte, hpte, hframe, -⟩ := hentry pg pte' hpte'
    exact ⟨pte, hpte, hframe⟩
  · intro pg pte' hpte' i hi
    rw [hmmap]
    exact ⟨i, hi, SameBacking.refl i⟩
  · refine infos_of_old fun a i hi => ⟨a, i, ?_, SameBacking.refl i⟩
    rwa [hmmap] at hi
  · intro pg pte' hpte' hrw
    obtain ⟨pte, hpte, hframe, hkeep⟩ := hentry pg pte' hpte'
    exact ⟨pte, hpte, hframe, hkeep hrw⟩

theorem writeProtect_entry {pde : Option ℕ} {pt : PageTable} {pg : ℕ} {pte' : Pte}
    (h : (writeProtect pde pt).lookup pg = some pte') :
    ∃ pte, pt.lookup pg = some pte ∧ pte'.frame = pte.frame ∧ (pte'.rw = true → pte.rw = true) ∧
      (pde = none → pte'.rw = false) := by
  unfold writeProtect at h
  rw [Table.lookup_mapVal] at h
  obtain ⟨pte, hpte, rfl⟩ := Option.map_eq_some_iff.mp h
  refine ⟨pte, hpte, ?_⟩
  split_ifs with hreached
  · exact ⟨rfl, fun hrw => hrw.elim, fun _ => rfl⟩
  · refine ⟨rfl, id, fun hnone => ?_⟩
    rw [hnone] at hreached
    exact absurd rfl hreached

theorem copyEntries_entry {pde : Option ℕ} {pt : PageTable} {pg : ℕ} {pte' : Pte}
    (h : (copyEntries pde pt).lookup pg = some pte') :
    ∃ pte, pt.lookup pg = some pte ∧ pte'.frame = pte.frame ∧ pte'.rw = false := by
  unfold copyEntries at h
  rw [Table.lookup_mapVal] at h
  obtain ⟨pte, hpte, rfl⟩ := Option.map_eq_some_iff.mp h
  rw [Table.lookup_restrict] at hpte
  split_ifs at hpte
  exact ⟨pte, hpte, rfl, rfl⟩

theorem store_narrows {addr byte : ℕ} (hok : ProcOk k s.mem P)
    (h : store p P addr byte s = some t) : ∃ P', Narrows p P s t P' ∧ NoNewRw P P' := by
  obtain ⟨pte, hpte, -, -, rfl⟩ := store_spec h
  refine ⟨{ P with pt := P.pt.insert (addr / pageSize) { pte with dirty := true } },
    narrows_entries hok rfl (lookup_insert_self rfl) (lookup_insert_others rfl) le_rfl rfl rfl fun pg pte' hpte' => ?_⟩
  by_cases hpg : pg = addr / pageSize
  · subst hpg
    simp only [AList.lookup_insert, Option.some.injEq] at hpte'
    subst hpte'
    exact ⟨pte, hpte, rfl, id⟩
  · simp only [AList.lookup_insert_ne hpg] at hpte'
    exact ⟨pte', hpte', rfl, id⟩

theorem narrows_refl (hok : ProcOk k s.mem P) (hP : s.procs.lookup p = some P) :
    Narrows p P s s P ∧ NoNewRw P P :=
  narrows_entries hok rfl hP (fun _ _ => rfl) le_rfl rfl rfl fun _ pte hpte => ⟨pte, hpte, rfl, id⟩

theorem sysMsync_narrows {addr len : ℕ} {flags : Bool} {io : ℕ → ℕ} (hok : ProcOk k s.mem P)
    (hP : s.procs.lookup p = some P) :
    ∃ P', Narrows p P s (sysMsync k p P addr len flags io s).1 P' ∧ NoNewRw P P' := by
  unfold sysMsync
  split_ifs
  · exact ⟨P, narrows_refl hok hP⟩
  · exact ⟨P, narrows_refl hok hP⟩
  · have hsync := msyncAreas_synced k (addr + pageAlign len) io addr
      (P.mmap.dropWhile fun v => decide (v.vmEnd ≤ addr)) (P.pt, s.mem)
    refine ⟨{ P with pt := (msyncAreas k (addr + pageAlign len) io addr
      (P.mmap.dropWhile fun v => decide (v.vmEnd ≤ addr)) (P.pt, s.mem)).1.1 },
      narrows_entries hok rfl (lookup_insert_self rfl) (lookup_insert_others rfl) le_rfl
        hsync.cache hsync.held fun pg pte' hpte' => ?_⟩
    obtain ⟨pte, hpte, hframe, hrw⟩ := hsync.entry hpte'
    exact ⟨pte, hpte, hframe, fun hnew => hrw ▸ hnew⟩

theorem doFork_narrows {child : ℕ} {ans : ForkAnswer} (hok : ProcOk k s.mem P) (hans : ans ≠ .ok) :
    ∃ P', Narrows p P s (doFork p P child k ans s) P' ∧ NoNewRw P P' := by
  have hentry : ∀ pde pg pte', (writeProtect pde P.pt).lookup pg = some pte' →
      ∃ pte, P.pt.lookup pg = some pte ∧ pte'.frame = pte.frame ∧ (pte'.rw = true → pte.rw = true) := by
    intro pde pg pte' hpte'
    obtain ⟨pte, hpte, hframe, hrw, -⟩ := writeProtect_entry hpte'
    exact ⟨pte, hpte, hframe, hrw⟩
  cases ans with
  | ok => exact absurd rfl hans
  | noTable pde =>
    exact ⟨{ P with pt := writeProtect (some pde) P.pt }, narrows_entries hok rfl
      (lookup_insert_self rfl) (lookup_insert_others rfl) le_rfl rfl rfl (hentry (some pde))⟩
  | noArea n io =>
    have hsync := closeAreas_synced k io (dupMmap s.frefs s.ring s.fresh (P.mmap.take n)).1
      (copyEntries none P.pt, refPages (frames (copyEntries none P.pt)) s.mem)
    exact ⟨{ P with pt := writeProtect none P.pt }, narrows_entries hok rfl
      (lookup_insert_self rfl) (lookup_insert_others rfl) (Nat.le_add_right ..) hsync.cache
      hsync.held (hentry none)⟩

theorem protectPageRange_entry {start fin : ℕ} {prot : VmFlags} {pt : PageTable} {pg : ℕ}
    {pte' : Pte} (h : (protectPageRange k start fin prot pt).lookup pg = some pte') :
    ∃ pte, pt.lookup pg = some pte ∧ pte'.frame = pte.frame ∧
      (pte'.rw = true → pte.rw = true ∨ (start ≤ pg * pageSize ∧ pg * pageSize < fin ∧ prot.write = true)) := by
  unfold protectPageRange at h
  rw [Table.lookup_mapVal] at h
  obtain ⟨pte, hpte, rfl⟩ := Option.map_eq_some_iff.mp h
  refine ⟨pte, hpte, ?_⟩
  split_ifs with hin
  · refine ⟨rfl, fun hrw => Or.inr ⟨hin.1.1, hin.1.2, ?_⟩⟩
    simp only [getPageProt] at hrw
    split_ifs at hrw with hwrite
    exact hwrite
  · exact ⟨rfl, Or.inl⟩

private theorem protectArea_backing (start fin : ℕ) (prot : VmFlags) (v : Vma) :
    SameBacking v.info (protectArea start fin prot v).info := by
  rw [protectArea_info]
  split_ifs
  · exact ⟨rfl, rfl, rfl⟩
  · exact SameBacking.refl _

theorem protectAreas_of_mem (start fin : ℕ) (prot : VmFlags) {l : List Vma} (hwf : WellFormed l)
    {v : Vma} (hv : v ∈ l) {a : ℕ} (hcovers : v.Covers a) :
    ∃ w ∈ protectAreas start fin prot l, w.Covers a ∧ SameBacking v.info w.info := by
  obtain ⟨-, hstart, hend, -⟩ := protectArea_keeps start fin prot v
  refine ⟨protectArea start fin prot v, ?_, ?_, protectArea_backing start fin prot v⟩
  · rw [protectAreas_eq_map hwf]
    exact List.mem_map.mpr ⟨v, hv, rfl⟩
  · rwa [Vma.Covers, hstart, hend]

/-- `sys_mprotect` changes no more than the flags of areas and the rights of entries. -/
theorem sysMprotect_narrows (start len : ℕ) (prot : VmFlags) (hok : ProcOk k s.mem P) (hP : s.procs.lookup p = some P) :
    ∃ P', Narrows p P s (sysMprotect k p P start len prot s) P' ∧
      (MprotectIdle start len → P' = P) ∧
      (¬ MprotectIdle start len →
        P'.pt = protectPageRange k (pageMask start) (pageMask start + pageAlign len) prot P.pt) := by
  unfold sysMprotect
  split_ifs with hidle
  · exact ⟨P, (narrows_refl hok hP).1, fun _ => rfl, fun h => absurd hidle h⟩
  · have hwf := protectAreas_wellFormed (pageMask start) (pageMask start + pageAlign len) prot hok.wf
    have hinfo : ∀ a i, infoAt (protectAreas (pageMask start) (pageMask start + pageAlign len) prot
        P.mmap) a = some i → ∃ j, infoAt P.mmap a = some j ∧ SameBacking j i := by
      intro a i hi
      obtain ⟨v, hv, hcovers, rfl⟩ :=
        maps_protectAreas hok.wf ((infoAt_eq_some_iff hwf.apart).mp hi)
      exact ⟨v.info, infoAt_of_mem hok.wf.apart hv hcovers, protectArea_backing ..⟩
    refine ⟨_, ⟨lookup_insert_self rfl, lookup_insert_others rfl, hwf, le_rfl, rfl, rfl, ?_, ?_, ?_⟩,
      fun h => absurd h hidle, fun _ => rfl⟩
    · intro pg pte' hpte'
      obtain ⟨pte, hpte, hframe, -⟩ := protectPageRange_entry hpte'
      exact ⟨pte, hpte, hframe⟩
    · intro pg pte' _ i hi
      obtain ⟨v, hv, hcovers, rfl⟩ := (infoAt_eq_some_iff hok.wf.apart).mp hi
      obtain ⟨w, hw, hwc, hback⟩ := protectAreas_of_mem (pageMask start)
        (pageMask start + pageAlign len) prot hok.wf hv hcovers
      exact ⟨w.info, infoAt_of_mem hwf.apart hw hwc, hback⟩
    · exact infos_of_old fun a i hi => ⟨a, hinfo a i hi⟩

theorem faultArea_infos {addr : ℕ} {v : Vma} {l : List Vma} (hok : ProcOk k m P)
    (harea : faultArea k addr P.mmap = some (v, l)) :
    ∀ a i, infoAt l a = some i → ∃ b j, infoAt P.mmap b = some j ∧ SameBacking j i := by
  obtain ⟨-, -, -, -, ⟨w, hw, hinfo⟩, -, hnew⟩ := faultArea_spec hok.wf harea
  intro a i hi
  rcases hnew a i hi with hold | rfl
  · exact ⟨a, i, hold, SameBacking.refl i⟩
  · have hcovers : w.Covers w.vmStart := ⟨le_rfl, (hok.wf.valid w hw).nonempty⟩
    exact ⟨_, w.info, infoAt_of_mem hok.wf.apart hw hcovers, hinfo ▸ SameBacking.refl _⟩

theorem faultArea_narrows {addr : ℕ} {v : Vma} {l : List Vma} (hok : ProcOk k s.mem P)
    (harea : faultArea k addr P.mmap = some (v, l)) :
    Narrows p P s (s.setProc p { P with mmap := l } s.mem) { P with mmap := l } ∧ NoNewRw P { P with mmap := l } := by
  obtain ⟨hwf, -, -, -, -, hkeep, -⟩ := faultArea_spec hok.wf harea
  refine ⟨⟨lookup_insert_self rfl, lookup_insert_others rfl, hwf, le_rfl, rfl, rfl, ?_, ?_, ?_⟩, ?_⟩
  · exact fun pg pte hpte => ⟨pte, hpte, rfl⟩
  · exact fun pg pte _ i hi => ⟨i, hkeep _ i hi, SameBacking.refl i⟩
  · exact infos_of_old (faultArea_infos hok harea)
  · exact fun pg pte hpte hrw => ⟨pte, hpte, rfl, hrw⟩

/-! ## What a call can do -/

/-- A call narrows its process, or it is a page fault that maps a page, a fork or an
exit. Only `sys_mprotect` gives an entry rights that it did not have. -/
theorem execCall_cases {c : Call} (hok : ProcOk k s.mem P) (hP : s.procs.lookup p = some P)
    (hgood : CountGood k s (.plain (.call p c))) (h : execCall k p P s c = some t) :
    (∃ P', Narrows p P s t P' ∧ (NoNewRw P P' ∨ ∃ start len prot, c = .mprotect start len prot ∧
      ¬ MprotectIdle start len ∧ P'.pt =
        protectPageRange k (pageMask start) (pageMask start + pageAlign len) prot P.pt)) ∨
    (∃ addr write ans v l y, c = .fault addr write ans ∧ faultArea k addr P.mmap = some (v, l) ∧
      faultDenied v (P.pt.lookup (addr / pageSize)).isSome write = false ∧
      pageFound k P v addr ans s = true ∧ faultPage k P v addr ans s = some y ∧
      t = s.setProc p { P with mmap := l, pt := y.1 } y.2) ∨
    (∃ child, c = .fork child .ok ∧ child ∉ s.procs ∧ t = doFork p P child k .ok s) ∨
    ∃ io, c = .exit io ∧ t = doExit k p P io s := by
  cases c with
  | fault addr write ans =>
    simp only [execCall] at h
    split_ifs at h
    simp only [CountGood, hP, Option.all_some] at hgood
    rcases doPageFault_spec h with ⟨rfl, -⟩ | ⟨v, l, harea, ⟨-, rfl⟩ | ⟨hdenied, y, hy, rfl⟩⟩
    · obtain ⟨hn, hrw⟩ := narrows_refl hok hP
      exact Or.inl ⟨P, hn, Or.inl hrw⟩
    · obtain ⟨hn, hrw⟩ := faultArea_narrows hok harea
      exact Or.inl ⟨_, hn, Or.inl hrw⟩
    · rw [faultFound, harea, Option.all_some] at hgood
      simp only [hdenied, Bool.false_or] at hgood
      exact Or.inr (Or.inl ⟨addr, write, ans, v, l, y, rfl, harea, hdenied, hgood, hy, rfl⟩)
  | store addr byte =>
    obtain ⟨P', hn, hrw⟩ := store_narrows hok h
    exact Or.inl ⟨P', hn, Or.inl hrw⟩
  | mmap a kzalloc io =>
    obtain ⟨P', hn, hrw⟩ := sysMmap_narrows hok h
    exact Or.inl ⟨P', hn, Or.inl hrw⟩
  | munmap addr len io =>
    obtain ⟨P', hn, hrw⟩ := sysMunmap_narrows hok h
    exact Or.inl ⟨P', hn, Or.inl hrw⟩
  | mprotect start len prot =>
    cases h
    obtain ⟨P', hn, hidle, hpt⟩ := sysMprotect_narrows start len prot hok hP
    refine Or.inl ⟨P', hn, ?_⟩
    by_cases hi : MprotectIdle start len
    · rw [hidle hi]
      exact Or.inl (narrows_refl hok hP).2
    · exact Or.inr ⟨start, len, prot, rfl, hi, hpt hi⟩
  | msync addr len flags io =>
    cases h
    obtain ⟨P', hn, hrw⟩ := sysMsync_narrows hok hP
    exact Or.inl ⟨P', hn, Or.inl hrw⟩
  | fork child ans =>
    simp only [execCall] at h
    split_ifs at h with hchild
    cases h
    by_cases hans : ans = .ok
    · subst hans
      exact Or.inr (Or.inr (Or.inl ⟨child, rfl, hchild, rfl⟩))
    · obtain ⟨P', hn, hrw⟩ := doFork_narrows hok hans
      exact Or.inl ⟨P', hn, Or.inl hrw⟩
  | exit io =>
    cases h
    exact Or.inr (Or.inr (Or.inr ⟨io, rfl, rfl⟩))
  | setFd fd file =>
    cases h
    have hentries : Narrows p P s
        (s.setProc p { P with fds := update P.fds fd file } s.mem)
        { P with fds := update P.fds fd file } ∧
        NoNewRw P { P with fds := update P.fds fd file } :=
      narrows_entries hok rfl (lookup_insert_self rfl) (lookup_insert_others rfl) le_rfl rfl rfl
        fun _ pte hpte => ⟨pte, hpte, rfl, id⟩
    exact Or.inl ⟨_, hentries.1, Or.inl hentries.2⟩

/-! ## Page faults -/

/-- The page cache keeps its pages. -/
def CacheGrows (m m' : Memory) : Prop :=
  ∀ key f, m.cache.lookup key = some f → m'.cache.lookup key = some f

theorem filemapGetPage_cache {ino index f : ℕ} {page : Option ℕ}
    (h : filemapGetPage ino index page m = some (m', some f)) :
    CacheGrows m m' ∧ m'.cache.lookup (ino, index) = some f := by
  rcases filemapGetPage_spec h with ⟨hr, -⟩ | ⟨f', hr, hlook, rfl⟩ | ⟨g, hr, hlook, -, rfl⟩
  · cases hr
  · cases hr
    exact ⟨fun _ _ hkey => hkey, hlook⟩
  · cases hr
    refine ⟨fun key f' hkey => ?_, AList.lookup_insert _⟩
    have hne : key ≠ (ino, index) := by
      rintro rfl
      rw [hlook] at hkey
      cases hkey
    simp only [AList.lookup_insert_ne hne]
    exact hkey

theorem covers_page {v : Vma} {addr : ℕ} (hv : v.Valid) (h : v.Covers addr) :
    v.Covers (addr / pageSize * pageSize) :=
  ⟨le_pageMask hv.startAligned h.1, (pageMask_le addr).trans_lt h.2⟩

theorem covers_of_page {v : Vma} {addr : ℕ} (hv : v.Valid)
    (h : v.Covers (addr / pageSize * pageSize)) : v.Covers addr := by
  obtain ⟨c, hc⟩ := hv.endAligned
  refine ⟨h.1.trans (pageMask_le addr), ?_⟩
  have hlt := h.2
  rw [hc, Nat.mul_comm pageSize c] at hlt ⊢
  exact (Nat.div_lt_iff_lt_mul (by decide)).mp (Nat.lt_of_mul_lt_mul_right hlt)

theorem filePage_eq {v : Vma} {pg ino index : ℕ} (h : filePage k v pg = some (ino, index)) :
    ∃ f, v.vmFile = some f ∧ inodeOf k f = some ino ∧ v.pos (pg * pageSize) % pageSize = 0 ∧
      index = v.pos (pg * pageSize) / pageSize := by
  obtain ⟨f, hf, h⟩ := Option.bind_eq_some_iff.mp h
  obtain ⟨ino', hino, h⟩ := Option.bind_eq_some_iff.mp h
  split_ifs at h with hbad
  rw [not_or, not_not] at hbad
  cases h
  exact ⟨f, hf, hino, hbad.2, rfl⟩

theorem faultPage_backed {addr : ℕ} {ans : Answer} {v : Vma} {l : List Vma}
    {y : PageTable × Memory} (hok : ProcOk k s.mem P)
    (harea : faultArea k addr P.mmap = some (v, l)) (hfound : pageFound k P v addr ans s = true)
    (h : faultPage k P v addr ans s = some y) :
    CacheGrows s.mem y.2 ∧ (y.1 = P.pt ∨ ∃ pte', y.1 = P.pt.insert (addr / pageSize) pte' ∧
      Backed k y.2 v.info (addr / pageSize) pte'.frame) := by
  obtain ⟨hwf, hmem, hvalid, hcovers, -, hkeep, -⟩ := faultArea_spec hok.wf harea
  have hpage := covers_page hvalid hcovers
  rcases faultPage_cases h hfound with ⟨pte, hpte, hwp, hneed⟩ | ⟨-, hno, hneed⟩
  · rcases doWpPage_spec hwp hneed with ⟨-, rfl⟩ | ⟨hprivate, -, g, -, hpt, hmem⟩
    · refine ⟨fun _ _ hkey => hkey, Or.inr ⟨_, rfl, ?_⟩⟩
      obtain ⟨i, hi, hback⟩ := hok.covered _ _ hpte
      have hsame : i = v.info := Option.some.inj ((hkeep _ _ hi).symm.trans (infoAt_of_mem hwf.apart hmem hpage))
      exact hsame ▸ hback
    · refine ⟨fun key f hkey => by rwa [hmem], Or.inr ⟨_, hpt, fun hshared => ?_⟩⟩
      rw [Vma.info, hprivate] at hshared
      cases hshared
  · rcases doNoPage_spec hno hneed with rfl | ⟨hops, g, m, hm, rfl⟩ | ⟨-, ino, index, f, m, hkey, hm, rfl⟩
    · exact ⟨fun _ _ hkey => hkey, Or.inl rfl⟩
    · obtain ⟨-, rfl⟩ := getZeroPage_spec hm
      refine ⟨fun _ _ hkey => hkey, Or.inr ⟨_, rfl, fun _ file base hfile => ?_⟩⟩
      rw [hvalid.ops, Option.map_eq_none_iff] at hops
      rw [Vma.info, hops] at hfile
      cases hfile
    · obtain ⟨hgrows, hlook⟩ := filemapGetPage_cache hm
      refine ⟨hgrows, Or.inr ⟨_, rfl, fun _ file base hfile => ⟨ino, ?_⟩⟩⟩
      obtain ⟨f', hf', hino, -, rfl⟩ := filePage_eq hkey
      rw [Vma.info, hf'] at hfile
      cases hfile
      rw [← Vma.pos_eq hpage]
      exact ⟨hino, hlook⟩

theorem faultPage_lookup {addr pg : ℕ} {ans : Answer} {v : Vma} {l : List Vma}
    {y : PageTable × Memory} (hok : ProcOk k s.mem P)
    (harea : faultArea k addr P.mmap = some (v, l)) (hfound : pageFound k P v addr ans s = true)
    (h : faultPage k P v addr ans s = some y) (hpg : pg ≠ addr / pageSize) : y.1.lookup pg = P.pt.lookup pg := by
  rcases (faultPage_backed hok harea hfound h).2 with hsame | ⟨pte', hinsert, -⟩
  · rw [hsame]
  · rw [hinsert, AList.lookup_insert_ne hpg]

theorem ProcOk.fault {addr : ℕ} {ans : Answer} {v : Vma} {l : List Vma}
    {y : PageTable × Memory} (hok : ProcOk k s.mem P)
    (harea : faultArea k addr P.mmap = some (v, l)) (hfound : pageFound k P v addr ans s = true)
    (h : faultPage k P v addr ans s = some y) : ProcOk k y.2 { P with mmap := l, pt := y.1 } := by
  obtain ⟨hgrows, hcases⟩ := faultPage_backed hok harea hfound h
  have hgrown : ProcOk k s.mem { P with mmap := l } :=
    hok.narrows (t := s.setProc 0 { P with mmap := l } s.mem) (faultArea_narrows hok harea).1
  obtain ⟨hwf, hmem, hvalid, hcovers, -⟩ := faultArea_spec hok.wf harea
  refine ⟨hwf, hgrown.offsets, fun pg pte hpte => ?_⟩
  have hold : P.pt.lookup pg = some pte → ∃ i, infoAt l (pg * pageSize) = some i ∧
      Backed k y.2 i pg pte.frame := by
    intro hpte
    obtain ⟨i, hi, hback⟩ := hgrown.covered pg pte hpte
    exact ⟨i, hi, hback.cache fun key hkey => hgrows key _ hkey⟩
  rcases hcases with hsame | ⟨pte', hinsert, hback⟩
  · exact hold (hsame ▸ hpte)
  · simp only [hinsert] at hpte
    by_cases hpg : pg = addr / pageSize
    · subst hpg
      rw [AList.lookup_insert] at hpte
      cases hpte
      exact ⟨v.info, infoAt_of_mem hwf.apart hmem (covers_page hvalid hcovers), hback⟩
    · rw [AList.lookup_insert_ne hpg] at hpte
      exact hold hpte

/-! ## The invariant -/

theorem ProcOk.of_entries (h : ProcOk k m P) (hcache : CacheGrows m m') (hwf : WellFormed P'.mmap)
    (hinfo : infoAt P'.mmap = infoAt P.mmap)
    (hentry : ∀ pg pte', P'.pt.lookup pg = some pte' →
      ∃ pte, P.pt.lookup pg = some pte ∧ pte'.frame = pte.frame) : ProcOk k m' P' := by
  refine ⟨hwf, fun a i hi => h.offsets a i (hinfo ▸ hi), fun pg pte' hpte' => ?_⟩
  obtain ⟨pte, hpte, hframe⟩ := hentry pg pte' hpte'
  obtain ⟨i, hi, hback⟩ := h.covered pg pte hpte
  rw [hinfo, hframe]
  exact ⟨i, hi, hback.cache fun key hkey => hcache key _ hkey⟩

/-- A step that replaces a process and keeps what is cached. -/
theorem PageInv.replace (h : PageInv k s) (hcount : Counted k t)
    (hself : t.procs.lookup p = some P') (hothers : ∀ q, q ≠ p → t.procs.lookup q = s.procs.lookup q)
    (hcache : CacheGrows s.mem t.mem) (hP' : ProcOk k t.mem P') : PageInv k t := by
  refine ⟨hcount, fun q Q hQ => ?_⟩
  by_cases hqp : q = p
  · subst hqp
    rw [hself] at hQ
    exact Option.some.inj hQ ▸ hP'
  · rw [hothers q hqp] at hQ
    exact (h.procs q Q hQ).cache fun key f _ hkey => hcache key f hkey

theorem fork_lookup {child : ℕ} (hP : s.procs.lookup p = some P) (hchild : child ∉ s.procs) :
    child ≠ p ∧
    (doFork p P child k .ok s).procs.lookup p = some { P with pt := writeProtect none P.pt } ∧
    (doFork p P child k .ok s).procs.lookup child =
      some ⟨(dupMmap s.frefs s.ring s.fresh P.mmap).1, copyEntries none P.pt, P.fds⟩ ∧
    ∀ q, q ≠ p → q ≠ child → (doFork p P child k .ok s).procs.lookup q = s.procs.lookup q := by
  have hne : child ≠ p := by
    rintro rfl
    exact hchild (AList.lookup_isSome.mp (hP ▸ rfl))
  simp only [doFork, Machine.setProc]
  refine ⟨hne, ?_, AList.lookup_insert _, fun q hqp hqc => ?_⟩
  · rw [AList.lookup_insert_ne hne.symm, AList.lookup_insert]
  · rw [AList.lookup_insert_ne hqc, AList.lookup_insert_ne hqp]

theorem exit_lookup {io : ℕ → ℕ} {q : ℕ} {Q : Proc}
    (h : (doExit k p P io s).procs.lookup q = some Q) : q ≠ p ∧ s.procs.lookup q = some Q := by
  have herase : (s.procs.erase p).lookup q = some Q := h
  by_cases hqp : q = p
  · rw [hqp, AList.lookup_erase] at herase
    cases herase
  · exact ⟨hqp, by rwa [AList.lookup_erase_ne hqp] at herase⟩

theorem PageInv.call {c : Call} (h : PageInv k s) (hP : s.procs.lookup p = some P)
    (hgood : CountGood k s (.plain (.call p c))) (hstep : execCall k p P s c = some t) : PageInv k t := by
  have hok := h.procs p P hP
  have hcount := h.counted.call hP hgood hstep
  rcases execCall_cases hok hP hgood hstep with ⟨P', hn, -⟩ |
    ⟨addr, write, ans, v, l, y, rfl, harea, -, hfound, hy, rfl⟩ | ⟨child, rfl, hchild, rfl⟩ |
    ⟨io, rfl, rfl⟩
  · exact h.replace hcount hn.self hn.others (fun key f hkey => by rwa [hn.cache]) (hok.narrows hn)
  · exact h.replace hcount (lookup_insert_self rfl) (lookup_insert_others rfl)
      (faultPage_backed hok harea hfound hy).1 (hok.fault harea hfound hy)
  · obtain ⟨-, hself, hnew, hothers⟩ := fork_lookup (k := k) hP hchild
    have hcache : CacheGrows s.mem (doFork p P child k .ok s).mem := fun _ _ hkey => hkey
    have hcopy := dupMmap_copies s.frefs s.ring s.fresh P.mmap
    refine ⟨hcount, fun q Q hQ => ?_⟩
    by_cases hqc : q = child
    · subst hqc
      obtain rfl := Option.some.inj (hnew.symm.trans hQ)
      refine hok.of_entries hcache (hcopy.wellFormed hok.wf) hcopy.infoAt_eq fun pg pte' hpte' => ?_
      obtain ⟨pte, hpte, hframe, -⟩ := copyEntries_entry hpte'
      exact ⟨pte, hpte, hframe⟩
    · by_cases hqp : q = p
      · subst hqp
        obtain rfl := Option.some.inj (hself.symm.trans hQ)
        refine hok.of_entries hcache hok.wf rfl fun pg pte' hpte' => ?_
        obtain ⟨pte, hpte, hframe, -⟩ := writeProtect_entry hpte'
        exact ⟨pte, hpte, hframe⟩
      · rw [hothers q hqp hqc] at hQ
        exact (h.procs q Q hQ).cache fun key f _ hkey => hcache key f hkey
  · refine ⟨hcount, fun q Q hQ => ?_⟩
    have hsync := closeAreas_synced k io P.mmap (P.pt, s.mem)
    refine (h.procs q Q (exit_lookup hQ).2).cache fun key f _ hkey => ?_
    exact hsync.cache ▸ hkey

theorem Counted.not_mapped {key : ℕ × ℕ} {f q : ℕ} {Q : Proc} (h : Counted k s)
    (hcache : s.mem.cache.lookup key = some f) (hone : s.mem.pool.count f = 1)
    (hQ : s.procs.lookup q = some Q) : f ∉ frames Q.pt := by
  intro hmem
  have hcount := h.balanced.count_eq f
  rw [(owners_perm hQ).count_eq f, refs, Memory.users] at hcount
  simp only [List.count_append] at hcount
  have hpt := List.count_pos_iff.mpr hmem
  have hcached := List.count_pos_iff.mpr (Table.mem_values.mpr ⟨key, hcache⟩)
  omega

theorem PageInv.event {e : Event} (h : PageInv k s) (hstep : execEvent s.mem e = some m) :
    PageInv k { s with mem := m } := by
  have hcount := h.counted.event hstep
  refine ⟨hcount, fun q Q hQ => (h.procs q Q hQ).cache fun key f hf hkey => ?_⟩
  cases e with
  | hold g =>
    obtain ⟨m₁, hm₁, rfl⟩ := Option.map_eq_some_iff.mp hstep
    obtain ⟨-, rfl⟩ := getZeroPage_spec hm₁
    exact hkey
  | release g =>
    simp only [execEvent] at hstep
    split_ifs at hstep
    cases hstep
    exact hkey
  | acquire ino index page =>
    obtain ⟨⟨m₁, r⟩, hm₁, rfl⟩ := Option.map_eq_some_iff.mp hstep
    cases r with
    | some g => exact (filemapGetPage_cache hm₁).1 key f hkey
    | none =>
      rcases filemapGetPage_spec hm₁ with ⟨-, rfl, -⟩ | ⟨g, hr, -⟩ | ⟨g, hr, -⟩
      · exact hkey
      · cases hr
      · cases hr
  | evict ino index =>
    obtain ⟨g, hg, hone, rfl⟩ := evict_spec hstep
    have hne : key ≠ (ino, index) := by
      rintro rfl
      obtain rfl := Option.some.inj (hg.symm.trans hkey)
      exact h.counted.not_mapped hg hone hQ hf
    simp only [AList.lookup_erase_ne hne]
    exact hkey

theorem PageInv.step {lab : Label} (h : PageInv k s) (hgood : CountGood k s (.plain lab))
    (hstep : Step k s lab t) : PageInv k t := by
  cases lab with
  | call p c =>
    obtain ⟨P, hP, hcall⟩ := Option.bind_eq_some_iff.mp hstep
    exact h.call hP hgood hcall
  | event e =>
    obtain ⟨m, hm, rfl⟩ := Option.map_eq_some_iff.mp hstep
    exact h.event hm

theorem Initial.pageInv (h : Initial k s) : PageInv k s := by
  refine ⟨h.counted, fun p P hP => ?_⟩
  obtain ⟨hmmap, hpt⟩ := h.unmapped p P hP
  refine ⟨hmmap ▸ ⟨List.Pairwise.nil, fun v hv => ?_⟩, fun a i hi => ?_, fun pg pte hpte => ?_⟩
  · cases hv
  · rw [hmmap] at hi
    cases hi
  · rw [hpt] at hpte
    cases hpte

end Mario.Paging
