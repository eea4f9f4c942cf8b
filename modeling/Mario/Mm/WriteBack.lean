import Mario.Mm.ProcessAreas

/-!
# Write-back of shared mappings

`filemap_write_page` writes a dirty page through a copy of `struct file` that it makes
writable, so the only thing that keeps a file opened for reading from being written is
that no shared area of it has `VM_WRITE`. `do_mmap` sees to that and `sys_mprotect` does
not: a file changes only when it was mapped through a descriptor opened for writing, as
long as `sys_mprotect` adds `VM_WRITE` to no shared area of another descriptor.
-/

namespace Mario.Paging

open Mario.Mm Mario.Lib

/-- `file->f_mode & 2`. -/
def writable (k : Kernel) (f : ℕ) : Bool := (k.files f).fMode.testBit 1

/-- The file has the same bytes and the same size. -/
def KeepsFile (i : ℕ) (m m' : Memory) : Prop := m'.disk i = m.disk i ∧ m'.size i = m.size i

theorem KeepsFile.refl (i : ℕ) (m : Memory) : KeepsFile i m m := ⟨rfl, rfl⟩

theorem KeepsFile.trans {i : ℕ} {m m' m'' : Memory} (h : KeepsFile i m m')
    (h' : KeepsFile i m' m'') : KeepsFile i m m'' :=
  ⟨h'.1.trans h.1, h'.2.trans h.2⟩

/-- Writing the area back does not write to the inode. -/
def NotBackedBy (k : Kernel) (i : ℕ) (v : Vma) : Prop :=
  v.vmFlags.shared = true → v.vmFlags.write = true → ∀ f, v.vmFile = some f → inodeOf k f ≠ some i

variable {k : Kernel} {i : ℕ}

/-! ## What writing back changes -/

theorem keepsFile_foldl {α : Type*} {step : PageTable × Memory → α → PageTable × Memory}
    {l : List α} (hstep : ∀ x, ∀ a ∈ l, KeepsFile i x.2 (step x a).2) (x : PageTable × Memory) :
    KeepsFile i x.2 (l.foldl step x).2 := by
  induction l generalizing x with
  | nil => exact KeepsFile.refl i x.2
  | cons a l ih =>
    have hrest := ih (fun y b hb => hstep y b (List.mem_cons_of_mem a hb)) (step x a)
    exact (hstep x a List.mem_cons_self).trans hrest

theorem filemapSyncPte_keepsFile {f : ℕ} (hf : inodeOf k f ≠ some i) (v : Vma) (pg n : ℕ)
    (x : PageTable × Memory) : KeepsFile i x.2 (filemapSyncPte k f v pg n x).2 := by
  rcases filemapSyncPte_cases k f v pg n x with hx | ⟨pte, ino, c, -, hino, -, hx⟩
  · rw [hx]
    exact KeepsFile.refl i x.2
  · have hne : i ≠ ino := fun hi => hf (hi ▸ hino)
    rw [hx]
    unfold fileWrite
    split_ifs
    all_goals first
      | exact KeepsFile.refl i x.2
      | exact ⟨Function.update_of_ne hne .., Function.update_of_ne hne ..⟩

theorem syncArea_keepsFile {v : Vma} (hv : NotBackedBy k i v) (start fin : ℕ) (io : ℕ → ℕ)
    (x : PageTable × Memory) : KeepsFile i x.2 (syncArea k v start fin io x).2 := by
  rcases syncArea_cases k v start fin io x with hx | ⟨f, hf, hshared, hwrite, hx⟩
  · rw [hx]
    exact KeepsFile.refl i x.2
  · rw [hx]
    exact keepsFile_foldl (fun y pg _ => filemapSyncPte_keepsFile (hv hshared hwrite f hf) v pg (io pg) y) x

theorem closeAreas_keepsFile {l : List Vma} (hl : ∀ v ∈ l, NotBackedBy k i v) (io : ℕ → ℕ)
    (x : PageTable × Memory) : KeepsFile i x.2 (closeAreas k io l x).2 :=
  keepsFile_foldl (fun y v hv => syncArea_keepsFile (hl v hv) v.vmStart v.vmEnd io y) x

theorem munmapPages_keepsFile {l : List Vma} (hl : ∀ v ∈ l, NotBackedBy k i v) (addr len : ℕ)
    (io : ℕ → ℕ → ℕ) (x : PageTable × Memory) : KeepsFile i x.2 (munmapPages k addr len io l x).2 := by
  rw [munmapPages_eq]
  split_ifs
  · exact KeepsFile.refl i x.2
  · have hmem : ∀ v ∈ (unlinkRange addr (addr + pageAlign len) [] l).2, v ∈ l := by
      intro v hv
      have hperm := unlinkRange_perm addr (addr + pageAlign len) [] l
      rw [List.append_nil] at hperm
      exact hperm.mem_iff.mp (List.mem_append_right _ hv)
    have hareas : KeepsFile i x.2 (unmapAreas k addr (addr + pageAlign len) io
        (unlinkRange addr (addr + pageAlign len) [] l).2 x).2 := by
      refine keepsFile_foldl (fun y v hv => ?_) x
      have hfirst := syncArea_keepsFile (hl v (hmem v hv)) (max addr v.vmStart)
        (min (addr + pageAlign len) v.vmEnd) (io 0) y
      simp only
      split_ifs
      · exact hfirst.trans (syncArea_keepsFile (hl v (hmem v hv)) ..)
      · exact hfirst
    exact hareas

theorem msyncAreas_keepsFile {l : List Vma} (hl : ∀ v ∈ l, NotBackedBy k i v) (fin : ℕ)
    (io : ℕ → ℕ) (cursor : ℕ) (x : PageTable × Memory) : KeepsFile i x.2 (msyncAreas k fin io cursor l x).1.2 := by
  induction l generalizing cursor x with
  | nil => exact KeepsFile.refl i x.2
  | cons v l ih =>
    have hrest := ih fun w hw => hl w (List.mem_cons_of_mem v hw)
    unfold msyncAreas
    split_ifs
    · exact KeepsFile.refl i x.2
    · exact (syncArea_keepsFile (hl v List.mem_cons_self) ..).trans (hrest _ _)
    · exact hrest _ _

/-! ## The invariant -/

/-- A shared area that is mapped for writing is one of a descriptor opened for writing,
and no such descriptor of the inode is mapped. -/
def InfoSafe (k : Kernel) (i : ℕ) (x : Info) : Prop :=
  x.flags.shared = true → ∀ f b, x.file = some (f, b) →
    (x.flags.write = true → writable k f = true) ∧ (writable k f = true → inodeOf k f ≠ some i)

/-- The areas of the process are such. -/
structure ProcSafe (k : Kernel) (i : ℕ) (P : Proc) : Prop where
  wf : WellFormed P.mmap
  safe : ∀ a x, infoAt P.mmap a = some x → InfoSafe k i x

/-- The areas of all processes are such, and the file is as it was in `m`. -/
structure FileSafe (k : Kernel) (i : ℕ) (m : Memory) (s : Machine) : Prop where
  procs : ∀ p P, s.procs.lookup p = some P → ProcSafe k i P
  keeps : KeepsFile i m s.mem

theorem ProcSafe.notBacked {P : Proc} (h : ProcSafe k i P) : ∀ v ∈ P.mmap, NotBackedBy k i v := by
  intro v hv hshared hwrite f hf
  have hcovers : v.Covers v.vmStart := ⟨le_rfl, (h.wf.valid v hv).nonempty⟩
  have hsafe := h.safe _ _ (infoAt_of_mem h.wf.apart hv hcovers)
  have hfile : v.info.file = some (f, v.base) := by
    rw [Vma.info, hf]
    rfl
  obtain ⟨hmode, hinode⟩ := hsafe hshared f v.base hfile
  exact hinode (hmode hwrite)

variable {m : Memory} {s t : Machine} {p : ℕ} {P P' : Proc}

theorem FileSafe.insert (h : FileSafe k i m s) (hprocs : t.procs = s.procs.insert p P')
    (hP' : ProcSafe k i P') (hkeeps : KeepsFile i s.mem t.mem) : FileSafe k i m t := by
  constructor
  · intro q Q hQ
    rw [hprocs] at hQ
    by_cases hqp : q = p
    · subst hqp
      rw [AList.lookup_insert] at hQ
      exact Option.some.inj hQ ▸ hP'
    · rw [AList.lookup_insert_ne hqp] at hQ
      exact h.procs q Q hQ
  · exact h.keeps.trans hkeeps

/-- `sys_mprotect` makes no shared area of a descriptor opened for reading writable. -/
def ProtectGood (k : Kernel) (s : Machine) : Label → Prop
  | .call p (.mprotect start len prot) =>
      ∀ P, s.procs.lookup p = some P → ¬ MprotectIdle start len → prot.write = true →
        ∀ v ∈ P.mmap, v.vmStart < pageMask start + pageAlign len → pageMask start < v.vmEnd →
          v.vmFlags.shared = true → ∀ f, v.vmFile = some f → writable k f = true
  | _ => True

/-- The call maps the inode through a descriptor opened for writing. -/
def MapsWritable (k : Kernel) (i : ℕ) (s : Machine) : Label → Prop
  | .call p (.mmap a _ _) =>
      ∃ P f, s.procs.lookup p = some P ∧ mmapFile P.fds a = .ok (some f) ∧
        writable k f = true ∧ inodeOf k f = some i
  | _ => False

theorem ProcSafe.mmap {a : MmapArgs} {kzalloc : Bool} {fresh fresh' : ℕ} (h : ProcSafe k i P)
    (hmap : MmapMap k P.fds a kzalloc fresh fresh' P.mmap (infoAt P'.mmap)) (hwf : WellFormed P'.mmap)
    (hmaps : ∀ f, mmapFile P.fds a = .ok (some f) → writable k f = true → inodeOf k f ≠ some i) : ProcSafe k i P' := by
  refine ⟨hwf, fun b x hx => ?_⟩
  rcases hmap.cases hx with hold | ⟨y, file, hcheck, -, rfl⟩
  · exact h.safe b x hold
  · have hacc := checkMmap_ok hcheck
    intro hshared f c hfile
    cases file with
    | none => cases hfile
    | some g =>
      obtain rfl : g = f := (Prod.mk.inj (Option.some.inj hfile)).1
      exact ⟨fun hwrite => hacc.writable hshared hwrite g rfl, hmaps g hacc.file_eq⟩

theorem ProcSafe.mprotect {start fin : ℕ} {prot : VmFlags} (h : ProcSafe k i P)
    (hgood : prot.write = true → ∀ v ∈ P.mmap, v.vmStart < fin → start < v.vmEnd →
      v.vmFlags.shared = true → ∀ f, v.vmFile = some f → writable k f = true)
    (pt : PageTable) : ProcSafe k i { P with mmap := protectAreas start fin prot P.mmap, pt := pt } := by
  have hwf := protectAreas_wellFormed start fin prot h.wf
  refine ⟨hwf, fun a x hx => ?_⟩
  obtain ⟨v, hv, hcovers, rfl⟩ := maps_protectAreas h.wf ((infoAt_eq_some_iff hwf.apart).mp hx)
  have hsafe := h.safe a _ (infoAt_of_mem h.wf.apart hv hcovers)
  rw [protectArea_info]
  split_ifs with hin
  · intro hshared f b hfile
    obtain ⟨-, hinode⟩ := hsafe hshared f b hfile
    refine ⟨fun hwrite => ?_, hinode⟩
    obtain ⟨g, hg, hgf⟩ := Option.map_eq_some_iff.mp hfile
    obtain rfl : g = f := (Prod.mk.inj hgf).1
    exact hgood hwrite v hv hin.1 hin.2 hshared g hg
  · exact hsafe

theorem ProcSafe.fault {addr : ℕ} {v : Vma} {l : List Vma} (h : ProcSafe k i P)
    (harea : faultArea k addr P.mmap = some (v, l)) (pt : PageTable) : ProcSafe k i { P with mmap := l, pt := pt } := by
  obtain ⟨hwf, -, -, -, ⟨w, hw, hinfo⟩, -, hnew⟩ := faultArea_spec h.wf harea
  refine ⟨hwf, fun a x hx => ?_⟩
  rcases hnew a x hx with hold | rfl
  · exact h.safe a x hold
  · have hcovers : w.Covers w.vmStart := ⟨le_rfl, (h.wf.valid w hw).nonempty⟩
    exact hinfo ▸ h.safe _ _ (infoAt_of_mem h.wf.apart hw hcovers)

/-! ## Page faults do not write to files -/

theorem getZeroPage_keepsFile {g : ℕ} {m' : Memory} (h : getZeroPage g m = some m') : KeepsFile i m m' := by
  obtain ⟨-, rfl⟩ := getZeroPage_spec h
  exact KeepsFile.refl i m

theorem filemapGetPage_keepsFile {ino index : ℕ} {page r : Option ℕ} {m' : Memory}
    (h : filemapGetPage ino index page m = some (m', r)) : KeepsFile i m m' := by
  rcases filemapGetPage_spec h with ⟨-, rfl, -⟩ | ⟨f, -, -, rfl⟩ | ⟨g, -, -, -, rfl⟩
  all_goals exact KeepsFile.refl i _

theorem doWpPage_keepsFile {v : Vma} {pg : ℕ} {pte : Pte} {ans : Answer}
    {x y : PageTable × Memory} (h : doWpPage k v pg pte ans x = some y) : KeepsFile i x.2 y.2 := by
  unfold doWpPage at h
  split_ifs at h
  · cases h
    exact KeepsFile.refl i x.2
  · cases hpage : ans.page with
    | none =>
      rw [hpage] at h
      cases h
      exact KeepsFile.refl i x.2
    | some g =>
      rw [hpage] at h
      obtain ⟨m', hm', rfl⟩ := Option.map_eq_some_iff.mp h
      have hzero : KeepsFile i x.2 m' := getZeroPage_keepsFile hm'
      exact hzero

theorem doNoPage_keepsFile {v : Vma} {pg : ℕ} {shared : Option ℕ} {ans : Answer}
    {x y : PageTable × Memory} (h : doNoPage k v pg shared ans x = some y) : KeepsFile i x.2 y.2 := by
  unfold doNoPage at h
  split_ifs at h
  · cases h
    exact KeepsFile.refl i x.2
  · cases hops : v.vmOps with
    | none =>
      cases hpage : ans.page with
      | none =>
        simp only [hops, hpage, Option.some.injEq] at h
        subst h
        exact KeepsFile.refl i x.2
      | some g =>
        simp only [hops, hpage] at h
        obtain ⟨m', hm', rfl⟩ := Option.map_eq_some_iff.mp h
        exact getZeroPage_keepsFile hm'
    | some ops =>
      cases shared with
      | some f =>
        simp only [hops, Option.some.injEq] at h
        subst h
        exact KeepsFile.refl i x.2
      | none =>
        simp only [hops] at h
        obtain ⟨⟨m', r⟩, hm', rfl⟩ := Option.map_eq_some_iff.mp h
        have hload : KeepsFile i x.2 m' := by
          unfold filemapNopage at hm'
          split at hm'
          · obtain ⟨rfl, -⟩ := Prod.mk.inj (Option.some.inj hm')
            exact KeepsFile.refl i x.2
          · exact filemapGetPage_keepsFile hm'
        cases r with
        | some f => exact hload
        | none => exact hload

theorem faultPage_keepsFile {v : Vma} {addr : ℕ} {ans : Answer} {x : PageTable × Memory}
    (h : faultPage k P v addr ans s = some x) : KeepsFile i s.mem x.2 := by
  unfold faultPage at h
  split at h
  · exact doWpPage_keepsFile (x := (P.pt, s.mem)) h
  · exact doNoPage_keepsFile (x := (P.pt, s.mem)) h

/-! ## Steps and runs -/

theorem FileSafe.fork {child : ℕ} {ans : ForkAnswer} (h : FileSafe k i m s)
    (hP : s.procs.lookup p = some P) : FileSafe k i m (doFork p P child k ans s) := by
  have hsafe := h.procs p P hP
  have hparent : ∀ pt, ProcSafe k i { P with pt := pt } := fun pt => ⟨hsafe.wf, hsafe.safe⟩
  cases ans with
  | noTable pde => exact h.insert rfl (hparent _) (KeepsFile.refl i s.mem)
  | noArea n io =>
    refine h.insert rfl (hparent _) ?_
    refine closeAreas_keepsFile (fun v hv => ?_) io
      (copyEntries none P.pt, refPages (frames (copyEntries none P.pt)) s.mem)
    obtain ⟨w, hw, heq⟩ := (dupMmap_copies s.frefs s.ring s.fresh (P.mmap.take n)).exists hv
    rw [heq]
    exact hsafe.notBacked w (List.mem_of_mem_take hw)
  | ok =>
    have hcopy := dupMmap_copies s.frefs s.ring s.fresh P.mmap
    have hfirst : FileSafe k i m (s.setProc p { P with pt := writeProtect none P.pt }
        (refPages (frames (copyEntries none P.pt)) s.mem)) :=
      h.insert rfl (hparent _) (KeepsFile.refl i s.mem)
    refine hfirst.insert rfl ⟨hcopy.wellFormed hsafe.wf, fun a x hx => ?_⟩ (KeepsFile.refl i _)
    rw [hcopy.infoAt_eq] at hx
    exact hsafe.safe a x hx

theorem FileSafe.exit {io : ℕ → ℕ} (h : FileSafe k i m s) (hP : s.procs.lookup p = some P) :
    FileSafe k i m (doExit k p P io s) := by
  constructor
  · intro q Q hQ
    have hold : s.procs.lookup q = some Q := by
      have herase : (s.procs.erase p).lookup q = some Q := hQ
      by_cases hqp : q = p
      · rw [hqp, AList.lookup_erase] at herase
        cases herase
      · rwa [AList.lookup_erase_ne hqp] at herase
    exact h.procs q Q hold
  · exact h.keeps.trans (closeAreas_keepsFile (h.procs p P hP).notBacked io (P.pt, s.mem))

theorem FileSafe.call {c : Call} (h : FileSafe k i m s) (hP : s.procs.lookup p = some P)
    (hgood : ProtectGood k s (.call p c)) (hmaps : ¬ MapsWritable k i s (.call p c))
    (hstep : execCall k p P s c = some t) : FileSafe k i m t := by
  have hsafe := h.procs p P hP
  cases c with
  | fault addr write ans =>
    simp only [execCall] at hstep
    split_ifs at hstep
    rcases doPageFault_spec hstep with ⟨rfl, -⟩ | ⟨v, l, harea, ⟨-, rfl⟩ | ⟨-, x, hx, rfl⟩⟩
    · exact h
    · exact h.insert rfl (hsafe.fault harea P.pt) (KeepsFile.refl i s.mem)
    · exact h.insert rfl (hsafe.fault harea x.1) (faultPage_keepsFile hx)
  | store addr byte =>
    obtain ⟨pte, -, -, -, rfl⟩ := store_spec hstep
    exact h.insert rfl ⟨hsafe.wf, hsafe.safe⟩ (KeepsFile.refl i s.mem)
  | mmap a kzalloc io =>
    obtain ⟨P', hprocs, -, -, hpages, hwf, hmap⟩ := sysMmap_areas hsafe.wf hstep
    refine h.insert hprocs (hsafe.mmap hmap hwf fun f hf hw hi => hmaps ⟨P, f, hP, hf, hw, hi⟩) ?_
    have hmem : t.mem = (P'.pt, t.mem).2 := rfl
    rw [hmem, hpages]
    split_ifs
    · exact munmapPages_keepsFile hsafe.notBacked ..
    · exact KeepsFile.refl i s.mem
  | munmap addr len io =>
    obtain ⟨P', hprocs, -, -, hpages, hwf, hinfo⟩ := sysMunmap_areas hsafe.wf hstep
    refine h.insert hprocs ⟨hwf, fun a x hx => ?_⟩ ?_
    · refine hsafe.safe a x ?_
      rw [hinfo, unmappedMap] at hx
      split_ifs at hx
      · exact hx
      · rw [removeRange] at hx
        split_ifs at hx
        exact hx
    · have hmem : t.mem = (P'.pt, t.mem).2 := rfl
      rw [hmem, hpages]
      exact munmapPages_keepsFile hsafe.notBacked ..
  | mprotect start len prot =>
    cases hstep
    unfold sysMprotect
    split_ifs with hidle
    · exact h
    · exact h.insert rfl (hsafe.mprotect (hgood P hP hidle) _) (KeepsFile.refl i s.mem)
  | msync addr len flags io =>
    cases hstep
    unfold sysMsync
    split_ifs
    · exact h
    · exact h
    · refine h.insert rfl ⟨hsafe.wf, hsafe.safe⟩ ?_
      exact msyncAreas_keepsFile (fun v hv =>
        hsafe.notBacked v ((List.dropWhile_sublist _).subset hv)) _ _ _ (P.pt, s.mem)
  | fork child ans =>
    simp only [execCall] at hstep
    split_ifs at hstep
    cases hstep
    exact h.fork hP
  | exit io =>
    cases hstep
    exact h.exit hP
  | setFd fd file =>
    cases hstep
    exact h.insert rfl ⟨hsafe.wf, hsafe.safe⟩ (KeepsFile.refl i s.mem)

theorem execEvent_keepsFile {e : Event} {m' : Memory} (h : execEvent m e = some m') : KeepsFile i m m' := by
  cases e with
  | hold f =>
    obtain ⟨m₁, hm₁, rfl⟩ := Option.map_eq_some_iff.mp h
    have hzero : KeepsFile i m m₁ := getZeroPage_keepsFile hm₁
    exact hzero
  | release f =>
    simp only [execEvent] at h
    split_ifs at h
    cases h
    exact KeepsFile.refl i m
  | acquire ino index page =>
    obtain ⟨⟨m₁, r⟩, hm₁, rfl⟩ := Option.map_eq_some_iff.mp h
    have hload : KeepsFile i m m₁ := filemapGetPage_keepsFile hm₁
    exact hload
  | evict ino index =>
    obtain ⟨f, -, -, rfl⟩ := evict_spec h
    exact KeepsFile.refl i m

theorem FileSafe.step {lab : Label} (h : FileSafe k i m s) (hgood : ProtectGood k s lab)
    (hmaps : ¬ MapsWritable k i s lab) (hstep : Step k s lab t) : FileSafe k i m t := by
  cases lab with
  | call p c =>
    obtain ⟨P, hP, hcall⟩ := Option.bind_eq_some_iff.mp hstep
    exact h.call hP hgood hmaps hcall
  | event e =>
    obtain ⟨m', hm', rfl⟩ := Option.map_eq_some_iff.mp hstep
    exact ⟨h.procs, h.keeps.trans (execEvent_keepsFile hm')⟩

/-- In every run in which `sys_mprotect` makes no shared area of a descriptor opened for
reading writable: when the bytes or the size of a file have changed, a call of the run
has mapped the file through a descriptor opened for writing. -/
theorem write_back_needs_writable (k : Kernel) (s₀ : Machine) (hinit : Initial k s₀)
    (labs : List Label) (s : Machine) (hrun : Run (Guarded (ProtectGood k) (Step k)) s₀ labs s)
    (i : ℕ) (hchanged : s.mem.disk i ≠ s₀.mem.disk i ∨ s.mem.size i ≠ s₀.mem.size i) :
    ∃ before lab after u, labs = before ++ lab :: after ∧
      Run (Guarded (ProtectGood k) (Step k)) s₀ before u ∧ MapsWritable k i u lab := by
  rcases hrun.guarded_or_exists (MapsWritable k i) with hnone | hsome
  · have hstart : FileSafe k i s₀.mem s₀ := by
      refine ⟨fun p P hP => ?_, KeepsFile.refl i s₀.mem⟩
      obtain ⟨hempty, -⟩ := hinit.unmapped p P hP
      refine ⟨hempty ▸ ⟨List.Pairwise.nil, fun v hv => by cases hv⟩, fun a x hx => ?_⟩
      rw [hempty] at hx
      cases hx
    have hsafe : FileSafe k i s₀.mem s := hnone.invariant hstart fun hu hstep =>
      hu.step hstep.2.1 hstep.1 hstep.2.2
    rcases hchanged with hdisk | hsize
    · exact absurd hsafe.keeps.1 hdisk
    · exact absurd hsafe.keeps.2 hsize
  · exact hsome

/-- A `MAP_FIXED` shared mapping of the first page of the open file at `0x1000`. -/
def mapFilePage (prot : ℕ) : Call :=
  .mmap { addr := 0x1000, len := 0x1000, prot := prot, flags := 0x11, fd := 3, off := 0 } true
    fun _ _ => 0

/-- A byte is stored through a shared mapping of a file and written back. -/
def writeBackRun : List Label :=
  [.call 0 (mapFilePage 3), .call 0 (touchPage (some 16)), .call 0 (.store 0x1000 9),
    .call 0 (.msync 0x1000 0x1000 true fun _ => 0x1000)]

theorem writeBackRun_replays : (replay (fun _ _ => True) (exec bootKernel) bootMachine writeBackRun).isSome := by
  decide +kernel

theorem write_back_needs_writable_writeBackRun :
    Initial bootKernel bootMachine ∧ ∃ s,
      Run (Guarded (ProtectGood bootKernel) (Step bootKernel)) bootMachine writeBackRun s ∧
      s.mem.disk 1 ≠ bootMachine.mem.disk 1 ∧
      ∃ before lab after u, writeBackRun = before ++ lab :: after ∧
        Run (Guarded (ProtectGood bootKernel) (Step bootKernel)) bootMachine before u ∧
        MapsWritable bootKernel 1 u lab := by
  have hplain : Run (Step bootKernel) bootMachine writeBackRun
      ((replay (fun _ _ => True) (exec bootKernel) bootMachine writeBackRun).get
        writeBackRun_replays) :=
    (run_of_replay (Option.some_get writeBackRun_replays).symm).mono fun _ _ _ hstep => hstep.2
  have hrun : Run (Guarded (ProtectGood bootKernel) (Step bootKernel)) bootMachine writeBackRun
      ((replay (fun _ _ => True) (exec bootKernel) bootMachine writeBackRun).get
        writeBackRun_replays) := by
    refine hplain.guarded fun lab hlab u => ?_
    simp only [writeBackRun, List.mem_cons, List.not_mem_nil, or_false] at hlab
    rcases hlab with rfl | rfl | rfl | rfl <;> trivial
  have hchanged : ((replay (fun _ _ => True) (exec bootKernel) bootMachine writeBackRun).get
      writeBackRun_replays).mem.disk 1 ≠ bootMachine.mem.disk 1 := by
    intro heq
    exact absurd (congrFun heq 0) (by decide +kernel)
  exact ⟨bootMachine_initial, _, hrun, hchanged,
    write_back_needs_writable bootKernel bootMachine bootMachine_initial _ _ hrun 1
      (Or.inl hchanged)⟩

/-- A kernel in which the open file was opened for reading only. -/
def readonlyKernel : Kernel :=
  { bootKernel with files := fun _ => ⟨1, some ⟨1, some false, true⟩, some ⟨true, true, true⟩⟩ }

/-- The mapping is made for reading, and `sys_mprotect` makes it writable. -/
def mprotectRun : List Label :=
  [.call 0 (mapFilePage 1),
    .call 0 (.mprotect 0x1000 0x1000 ⟨true, true, false, false, false⟩),
    .call 0 (touchPage (some 16)), .call 0 (.store 0x1000 9),
    .call 0 (.munmap 0x1000 0x1000 fun _ _ => 0x1000)]

theorem mprotectRun_replays : (replay (fun _ _ => True) (exec readonlyKernel) bootMachine mprotectRun).isSome := by
  decide +kernel

/-- A file opened for reading only is then written. -/
theorem readonly_file_written :
    ¬ ∀ (k : Kernel) (s₀ : Machine), Initial k s₀ → ∀ labs s, Run (Step k) s₀ labs s →
      ∀ i, s.mem.disk i ≠ s₀.mem.disk i ∨ s.mem.size i ≠ s₀.mem.size i →
        ∃ before lab after u, labs = before ++ lab :: after ∧ Run (Step k) s₀ before u ∧
          MapsWritable k i u lab := by
  intro h
  have hplain : Run (Step readonlyKernel) bootMachine mprotectRun
      ((replay (fun _ _ => True) (exec readonlyKernel) bootMachine mprotectRun).get
        mprotectRun_replays) :=
    (run_of_replay (Option.some_get mprotectRun_replays).symm).mono fun _ _ _ hstep => hstep.2
  have hinit : Initial readonlyKernel bootMachine :=
    ⟨bootMachine_initial.unmapped, rfl, rfl, fun _ => rfl, bootMachine_initial.free⟩
  have hchanged : ((replay (fun _ _ => True) (exec readonlyKernel) bootMachine mprotectRun).get
      mprotectRun_replays).mem.disk 1 ≠ bootMachine.mem.disk 1 := by
    intro heq
    exact absurd (congrFun heq 0) (by decide +kernel)
  obtain ⟨before, lab, after, u, -, -, hmaps⟩ := h readonlyKernel bootMachine hinit _ _ hplain 1
    (Or.inl hchanged)
  cases lab with
  | event e => exact hmaps
  | call p c =>
    cases c with
    | mmap a kzalloc io =>
      obtain ⟨P, f, -, -, hwritable, -⟩ := hmaps
      have hmode : Nat.testBit 1 1 = true := hwritable
      exact absurd hmode (by decide)
    | _ => exact hmaps

end Mario.Paging
