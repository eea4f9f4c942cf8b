import Mario.Mm.FrameCounts
import Mathlib.Tactic.Ring

/-!
# The counts of the whole system

The owners of frames are the page tables of all processes, the page cache and kernel
code. As long as no page fault falls back to `BAD_PAGE` or takes a frame from the share
ring, and no `exec` fails in its first `set_page`, the count of every frame is the
number of its owners, and the allocator never gets a frame that is mapped or the frame
of `empty_bad_page`.
-/

namespace Mario.Paging

open Mario.Mm Mario.Lib

/-- All references to frames, each frame once for every reference. -/
def owners (s : Machine) : List ℕ :=
  ((Table.values s.procs).flatMap fun P => frames P.pt) ++ s.mem.users

/-- The references of the page tables of the other processes. -/
def othersOf (p : ℕ) (s : Machine) : List ℕ :=
  (Table.values (s.procs.erase p)).flatMap fun P => frames P.pt

/-- The frames in circulation are page frames below `KERNEL_BASE`, and not the one of
`empty_bad_page`. -/
def Real (k : Kernel) (pool : Pool ℕ) (o : List ℕ) : Prop :=
  ∀ f, pool.free f = true ∨ f ∈ o → f < kernelFrames ∧ f ≠ k.bad

/-- The counts are right and the frames in circulation are page frames. -/
structure Counted (k : Kernel) (s : Machine) : Prop where
  balanced : s.mem.pool.Balanced (owners s)
  real : Real k s.mem.pool (owners s)

variable {k : Kernel} {s t u : Machine} {p : ℕ} {P P' : Proc}

theorem Real.moves {pool pool' : Pool ℕ} {o o' : List ℕ} (h : Real k pool o)
    (hmoves : Pool.Moves pool pool' o o') : Real k pool' o' :=
  fun f hf => h f (hmoves.source f hf)

theorem Real.ne_crossed {pool : Pool ℕ} {o : List ℕ} (h : Real k pool o) {f : ℕ} (hf : f ∈ o) : f ≠ crossed k.bad := by
  have hlt := (h f (Or.inr hf)).1
  have hbad := k.bad_lt
  simp only [crossed, kernelFrames] at *
  omega

theorem owners_perm (h : s.procs.lookup p = some P) : (owners s).Perm (refs (P.pt, s.mem) ++ othersOf p s) := by
  have hvalues := (Table.values_perm_erase h).flatMap_right fun P => frames P.pt
  rw [List.flatMap_cons] at hvalues
  refine (hvalues.append_right s.mem.users).trans ?_
  simp only [refs, othersOf, List.append_assoc]
  exact List.Perm.append_left _ List.perm_append_comm

/-- A step that moves references and leaves the rest of the owners alone. -/
theorem Counted.moves {o o' rest : List ℕ} (h : Counted k s) (hold : (owners s).Perm (o ++ rest))
    (hnew : (owners t).Perm (o' ++ rest)) (hmoves : Pool.Moves s.mem.pool t.mem.pool o o') : Counted k t := by
  constructor
  · exact (hmoves.balanced rest (h.balanced.perm hold)).perm hnew.symm
  · have hreal : Real k s.mem.pool (o ++ rest) := fun f hf => h.real f (by rwa [hold.mem_iff])
    intro f hf
    refine hreal.moves (hmoves.frame rest) f ?_
    rwa [← hnew.mem_iff]

theorem Counted.refs_real (h : Counted k s) (hP : s.procs.lookup p = some P) :
    Real k s.mem.pool (refs (P.pt, s.mem)) := by
  intro f hf
  refine h.real f (hf.imp_right fun hmem => ?_)
  exact (owners_perm hP).mem_iff.mpr (List.mem_append_left _ hmem)

/-! ## Steps of one process -/

/-- The process has the references `e` beside those of its page table, and only its own
page table and memory change. -/
structure ProcMoves (p : ℕ) (e e' : List ℕ) (s t : Machine) : Prop where
  others : t.procs.erase p = s.procs.erase p
  moves : ∃ P P', s.procs.lookup p = some P ∧ t.procs.lookup p = some P' ∧
    Pool.Moves s.mem.pool t.mem.pool (e ++ refs (P.pt, s.mem)) (e' ++ refs (P'.pt, t.mem))

theorem ProcMoves.trans {e e' e'' : List ℕ} (h : ProcMoves p e e' s t)
    (h' : ProcMoves p e' e'' t u) : ProcMoves p e e'' s u := by
  obtain ⟨P₁, P₂, hP₁, hP₂, hmoves⟩ := h.moves
  obtain ⟨Q₂, P₃, hQ₂, hP₃, hmoves'⟩ := h'.moves
  obtain rfl : P₂ = Q₂ := Option.some.inj (hP₂.symm.trans hQ₂)
  exact ⟨h'.others.trans h.others, P₁, P₃, hP₁, hP₃, hmoves.trans hmoves'⟩

theorem ProcMoves.refl (e : List ℕ) (hP : s.procs.lookup p = some P) : ProcMoves p e e s s :=
  ⟨rfl, P, P, hP, hP, Pool.Moves.refl _ _⟩

theorem procMoves_insert {e e' : List ℕ} (hP : s.procs.lookup p = some P) (hprocs : t.procs = s.procs.insert p P')
    (hmoves : Pool.Moves s.mem.pool t.mem.pool (e ++ refs (P.pt, s.mem))
      (e' ++ refs (P'.pt, t.mem))) : ProcMoves p e e' s t := by
  constructor
  · rw [hprocs, Table.erase_insert]
  · exact ⟨P, P', hP, by rw [hprocs, AList.lookup_insert], hmoves⟩

theorem PageMoves.proc (e : List ℕ) (hP : s.procs.lookup p = some P)
    (hprocs : t.procs = s.procs.insert p P') (hmoves : PageMoves (P.pt, s.mem) (P'.pt, t.mem)) :
    ProcMoves p e e s t := by
  refine procMoves_insert hP hprocs ?_
  exact (hmoves.frame e).perm List.perm_append_comm List.perm_append_comm

/-- The owners that a step of a process turns its references into. -/
theorem ProcMoves.owners (h : ProcMoves p [] [] s t) (hP : s.procs.lookup p = some P) :
    ∃ o, Pool.Moves s.mem.pool t.mem.pool (refs (P.pt, s.mem)) o ∧ (Paging.owners t).Perm (o ++ othersOf p s) := by
  obtain ⟨hothers, Q, P', hQ, hP', hmoves⟩ := h
  obtain rfl : P = Q := Option.some.inj (hP.symm.trans hQ)
  refine ⟨_, hmoves, ?_⟩
  have hnew := owners_perm hP'
  rwa [othersOf, hothers, ← othersOf] at hnew

theorem Counted.proc (h : Counted k s) (hP : s.procs.lookup p = some P)
    (hmoves : ProcMoves p [] [] s t) : Counted k t := by
  obtain ⟨o, hpool, howners⟩ := hmoves.owners hP
  exact h.moves (owners_perm hP) howners hpool

theorem ProcMoves.real {e e' : List ℕ} (h : ProcMoves p e e' s t) (hP : s.procs.lookup p = some P)
    (hP' : t.procs.lookup p = some P') (hreal : Real k s.mem.pool (e ++ refs (P.pt, s.mem))) :
    Real k t.mem.pool (e' ++ refs (P'.pt, t.mem)) := by
  obtain ⟨Q, Q', hQ, hQ', hmoves⟩ := h.moves
  obtain rfl : P = Q := Option.some.inj (hP.symm.trans hQ)
  obtain rfl : P' = Q' := Option.some.inj (hP'.symm.trans hQ')
  exact hreal.moves hmoves

theorem refs_frames {e : List ℕ} {pool : Pool ℕ} {x : PageTable × Memory}
    (h : Real k pool (e ++ refs x)) : ∀ f ∈ frames x.1, f ≠ crossed k.bad :=
  fun _ hf => h.ne_crossed (List.mem_append_right _ (List.mem_append_left _ hf))

/-! ## The calls -/

theorem sysMmap_spec {a : MmapArgs} {kzalloc : Bool} {io : ℕ → ℕ → ℕ} (h : sysMmap k p P a kzalloc io s = some t) :
    ∃ sp r, doMmap k.files P.fds a kzalloc (s.space P) = some (sp, r) ∧
      ∃ x, x = (if unmapsFirst k.files P.fds a kzalloc then
          munmapPages k a.addr (pageAlign a.len) io P.mmap (P.pt, s.mem) else (P.pt, s.mem)) ∧
        t.procs = s.procs.insert p { P with mmap := sp.mmap, pt := x.1 } ∧ t.mem = x.2 ∧
        t.fresh = sp.fresh := by
  obtain ⟨⟨sp, r⟩, hr, rfl⟩ := Option.map_eq_some_iff.mp h
  exact ⟨sp, r, hr, _, rfl, rfl, rfl, rfl⟩

theorem sysMunmap_spec {addr len : ℕ} {io : ℕ → ℕ → ℕ} (h : sysMunmap k p P addr len io s = some t) :
    ∃ sp r, doMunmap addr len (s.space P) = some (sp, r) ∧
      ∃ x, x = munmapPages k addr len io P.mmap (P.pt, s.mem) ∧
        t.procs = s.procs.insert p { P with mmap := sp.mmap, pt := x.1 } ∧ t.mem = x.2 ∧
        t.fresh = sp.fresh := by
  obtain ⟨⟨sp, r⟩, hr, rfl⟩ := Option.map_eq_some_iff.mp h
  exact ⟨sp, r, hr, _, rfl, rfl, rfl, rfl⟩

theorem sysMmap_moves {e : List ℕ} {a : MmapArgs} {kzalloc : Bool} {io : ℕ → ℕ → ℕ}
    (h : sysMmap k p P a kzalloc io s = some t) (hP : s.procs.lookup p = some P)
    (hreal : Real k s.mem.pool (e ++ refs (P.pt, s.mem))) : ProcMoves p e e s t := by
  obtain ⟨sp, r, -, x, hx, hprocs, hmem, -⟩ := sysMmap_spec h
  refine PageMoves.proc e hP hprocs ?_
  rw [hmem]
  simp only [Prod.mk.eta]
  rw [hx]
  split_ifs
  · exact munmapPages_moves (refs_frames hreal)
  · exact Pool.Moves.refl _ _

theorem doPageFault_spec {addr : ℕ} {write : Bool} {ans : Answer} (h : doPageFault k p P addr write ans s = some t) :
    (t = s ∧ faultArea k addr P.mmap = none) ∨
    ∃ v l, faultArea k addr P.mmap = some (v, l) ∧
      ((faultDenied v (P.pt.lookup (addr / pageSize)).isSome write = true ∧
        t = s.setProc p { P with mmap := l } s.mem) ∨
      (faultDenied v (P.pt.lookup (addr / pageSize)).isSome write = false ∧
        ∃ x, faultPage k P v addr ans s = some x ∧
          t = s.setProc p { P with mmap := l, pt := x.1 } x.2)) := by
  unfold doPageFault at h
  cases harea : faultArea k addr P.mmap with
  | none =>
    rw [harea] at h
    exact Or.inl ⟨(Option.some.inj h).symm, rfl⟩
  | some vl =>
    obtain ⟨v, l⟩ := vl
    simp only [harea] at h
    refine Or.inr ⟨v, l, rfl, ?_⟩
    split_ifs at h with hdenied
    · exact Or.inl ⟨hdenied, (Option.some.inj h).symm⟩
    · obtain ⟨x, hx, rfl⟩ := Option.map_eq_some_iff.mp h
      exact Or.inr ⟨by simpa using hdenied, x, hx, rfl⟩

/-- A page fault of the process finds the page it needs. -/
def faultFound (k : Kernel) (P : Proc) (addr : ℕ) (write : Bool) (ans : Answer) (s : Machine) :
    Bool :=
  (faultArea k addr P.mmap).all fun vl =>
    faultDenied vl.1 (P.pt.lookup (addr / pageSize)).isSome write ||
      pageFound k P vl.1 addr ans s

theorem doPageFault_moves {addr : ℕ} {write : Bool} {ans : Answer}
    (h : doPageFault k p P addr write ans s = some t) (hP : s.procs.lookup p = some P)
    (hfound : faultFound k P addr write ans s = true) : ProcMoves p [] [] s t := by
  rcases doPageFault_spec h with ⟨rfl, -⟩ | ⟨v, l, harea, ⟨-, rfl⟩ | ⟨hdenied, x, hx, rfl⟩⟩
  · exact ProcMoves.refl [] hP
  · exact PageMoves.proc [] hP rfl (Pool.Moves.refl _ _)
  · rw [faultFound, harea, Option.all_some] at hfound
    simp only [hdenied, Bool.false_or] at hfound
    exact PageMoves.proc [] hP rfl (faultPage_moves hx hfound)

theorem store_spec {addr byte : ℕ} (h : store p P addr byte s = some t) :
    ∃ pte, P.pt.lookup (addr / pageSize) = some pte ∧ pte.user = true ∧ pte.rw = true ∧
      t = s.setProc p { P with pt := P.pt.insert (addr / pageSize) { pte with dirty := true } }
        (storeByte pte.frame (addr % pageSize) byte s.mem) := by
  obtain ⟨pte, hpte, h⟩ := Option.bind_eq_some_iff.mp h
  split_ifs at h with hallow
  rw [Bool.and_eq_true] at hallow
  exact ⟨pte, hpte, hallow.1, hallow.2, (Option.some.inj h).symm⟩

theorem store_moves {addr byte : ℕ} (h : store p P addr byte s = some t)
    (hP : s.procs.lookup p = some P) : ProcMoves p [] [] s t := by
  obtain ⟨pte, hpte, -, -, rfl⟩ := store_spec h
  refine PageMoves.proc [] hP rfl ?_
  refine (Pool.Moves.refl _ _).perm (List.Perm.refl _) ?_
  exact (frames_insert_same hpte rfl).symm.append_right _

theorem sysMprotect_moves {start len : ℕ} {prot : VmFlags} (hP : s.procs.lookup p = some P) :
    ProcMoves p [] [] s (sysMprotect k p P start len prot s) := by
  unfold sysMprotect
  split_ifs
  · exact ProcMoves.refl [] hP
  · refine PageMoves.proc [] hP rfl ?_
    unfold PageMoves refs
    simp only [frames_protectPageRange]
    exact Pool.Moves.refl _ _

theorem sysMsync_moves {addr len : ℕ} {flags : Bool} {io : ℕ → ℕ} (hP : s.procs.lookup p = some P) :
    ProcMoves p [] [] s (sysMsync k p P addr len flags io s).1 := by
  unfold sysMsync
  split_ifs
  · exact ProcMoves.refl [] hP
  · exact ProcMoves.refl [] hP
  · exact PageMoves.proc [] hP rfl (msyncAreas_synced ..).moves

theorem copyEntries_moves (pde : Option ℕ) (x : PageTable × Memory) :
    Pool.Moves x.2.pool (refPages (frames (copyEntries pde x.1)) x.2).pool (refs x)
      (frames (copyEntries pde x.1) ++ refs x) := by
  refine Pool.moves_refAll fun f hf => ?_
  rw [frames_copyEntries] at hf
  obtain ⟨pg, pte, hpg, rfl⟩ := mem_frames.mp hf
  rw [Table.lookup_restrict] at hpg
  split_ifs at hpg
  exact List.mem_append_left _ (mem_frames.mpr ⟨pg, pte, hpg, rfl⟩)

/-- A fork that fails gives the references of the child back. -/
theorem doFork_moves {child : ℕ} {ans : ForkAnswer} (hP : s.procs.lookup p = some P)
    (hans : ans ≠ .ok) : ProcMoves p [] [] s (doFork p P child k ans s) := by
  cases ans with
  | ok => exact absurd rfl hans
  | noTable pde =>
    refine PageMoves.proc [] hP rfl ?_
    unfold PageMoves refs
    simp only [frames_writeProtect]
    exact (copyEntries_moves (some pde) (P.pt, s.mem)).trans Pool.moves_putAll
  | noArea n io =>
    have hcopy := copyEntries_moves none (P.pt, s.mem)
    have hclose := closeAreas_synced k io (dupMmap s.frefs s.ring s.fresh (P.mmap.take n)).1
      (copyEntries none P.pt, refPages (frames (copyEntries none P.pt)) s.mem)
    have hfree : PageMoves (copyEntries none P.pt, refPages (frames (copyEntries none P.pt)) s.mem)
        (freePageTables (closeAreas k io (dupMmap s.frefs s.ring s.fresh (P.mmap.take n)).1
          (copyEntries none P.pt, refPages (frames (copyEntries none P.pt)) s.mem))) :=
      Pool.Moves.trans hclose.moves (freePageTables_moves _)
    refine PageMoves.proc [] hP rfl ?_
    have husers : (freePageTables (closeAreas k io
        (dupMmap s.frefs s.ring s.fresh (P.mmap.take n)).1
        (copyEntries none P.pt, refPages (frames (copyEntries none P.pt)) s.mem))).2.users =
        s.mem.users := hclose.users
    unfold PageMoves refs at hfree ⊢
    simp only [frames_writeProtect]
    refine hcopy.trans ((hfree.frame (frames P.pt)).perm ?_ ?_)
    · simp only [refs, List.append_assoc]
      exact List.Perm.append_left _ List.perm_append_comm
    · exact List.perm_append_comm

/-- A fork that succeeds leaves the references of the child in its page table. -/
theorem doFork_ok_owners {child : ℕ} (hP : s.procs.lookup p = some P) (hchild : child ∉ s.procs) :
    (owners (doFork p P child k .ok s)).Perm
      (frames (copyEntries none P.pt) ++ refs (P.pt, s.mem) ++ othersOf p s) := by
  have hne : child ≠ p := by
    rintro rfl
    exact hchild (AList.lookup_isSome.mp (hP ▸ rfl))
  have hnone : (s.procs.insert p { P with pt := writeProtect none P.pt }).lookup child = none := by
    rw [AList.lookup_insert_ne hne]
    exact AList.lookup_eq_none.mpr hchild
  have herase := Table.erase_of_lookup_none hnone
  unfold owners
  simp only [doFork, Machine.setProc]
  rw [Table.values_insert, herase, Table.values_insert, List.flatMap_cons, List.flatMap_cons, frames_writeProtect]
  simp only [refs, othersOf, List.append_assoc]
  refine List.Perm.append_left _ (List.Perm.append_left _ ?_)
  exact List.perm_append_comm

theorem doExit_moves (io : ℕ → ℕ) :
    ∃ o, Pool.Moves s.mem.pool (doExit k p P io s).mem.pool (refs (P.pt, s.mem)) o ∧
      (owners (doExit k p P io s)).Perm (o ++ othersOf p s) := by
  refine ⟨_, Pool.Moves.trans (closeAreas_synced k io P.mmap (P.pt, s.mem)).moves
    (freePageTables_moves (closeAreas k io P.mmap (P.pt, s.mem))), ?_⟩
  unfold owners
  simp only [doExit, dropAreas, refs, othersOf]
  exact List.perm_append_comm

theorem evict_spec {ino index : ℕ} {m m' : Memory} (h : evict ino index m = some m') :
    ∃ f, m.cache.lookup (ino, index) = some f ∧ m.pool.count f = 1 ∧
      m' = { m with pool := m.pool.put f, cache := m.cache.erase (ino, index) } := by
  obtain ⟨f, hf, h⟩ := Option.bind_eq_some_iff.mp h
  split_ifs at h with hone
  exact ⟨f, hf, hone, (Option.some.inj h).symm⟩

theorem execEvent_moves {e : Event} {m m' : Memory} (h : execEvent m e = some m') :
    Pool.Moves m.pool m'.pool m.users m'.users := by
  cases e with
  | hold f =>
    obtain ⟨m₁, hm₁, rfl⟩ := Option.map_eq_some_iff.mp h
    obtain ⟨hfree, rfl⟩ := getZeroPage_spec hm₁
    exact (Pool.moves_take hfree).perm (List.Perm.refl _) List.perm_middle.symm
  | release f =>
    simp only [execEvent] at h
    split_ifs at h with hmem
    cases h
    refine Pool.moves_put.perm ?_ (List.Perm.refl _)
    exact List.perm_middle.symm.trans ((List.perm_cons_erase hmem).symm.append_left _)
  | acquire ino index page =>
    obtain ⟨⟨m₁, r⟩, hm₁, rfl⟩ := Option.map_eq_some_iff.mp h
    cases r with
    | some f =>
      exact (filemapGetPage_moves hm₁).perm (List.Perm.refl _) List.perm_middle.symm
    | none =>
      rcases filemapGetPage_spec hm₁ with ⟨-, rfl, -⟩ | ⟨f, hr, -⟩ | ⟨g, hr, -⟩
      · exact Pool.Moves.refl _ _
      · cases hr
      · cases hr
  | evict ino index =>
    obtain ⟨f, hf, -, rfl⟩ := evict_spec h
    refine Pool.moves_put.perm ?_ (List.Perm.refl _)
    exact ((Table.values_perm_erase hf).append_right m.held).symm

/-! ## Exec -/

theorem takePages_moves {l : List (ℕ × (ℕ → ℕ))} {m m' : Memory} {o : List ℕ} (h : takePages l m = some m') :
    Pool.Moves m.pool m'.pool o (l.map Prod.fst ++ o) ∧ m'.users = m.users := by
  induction l generalizing m o with
  | nil =>
    cases h
    exact ⟨Pool.Moves.refl _ _, rfl⟩
  | cons gb l ih =>
    obtain ⟨g, bytes⟩ := gb
    obtain ⟨m₁, hm₁, hrest⟩ := Option.bind_eq_some_iff.mp h
    obtain ⟨hfree, rfl⟩ := getZeroPage_spec hm₁
    have hfirst : Pool.Moves m.pool (m.pool.take g) o (g :: o) := Pool.moves_take hfree
    obtain ⟨hmoves, husers⟩ := ih (o := g :: o) hrest
    refine ⟨?_, husers⟩
    exact (hfirst.trans hmoves).perm (List.Perm.refl _) List.perm_middle

private theorem setPages_lookup_ne {l : List (ℕ × ℕ)} {pg : ℕ} {pt : PageTable} {q : ℕ} (h : ∀ e ∈ l, q ≠ pg + e.2) :
    (l.foldl (fun pt e => pt.insert (pg + e.2) (⟨e.1, true, true, false⟩ : Pte)) pt).lookup q = pt.lookup q := by
  induction l generalizing pt with
  | nil => rfl
  | cons e l ih =>
    rw [List.foldl_cons, ih fun e' he' => h e' (List.mem_cons_of_mem e he'),
      AList.lookup_insert_ne (h e List.mem_cons_self)]

private theorem setPages_frames_from {l : List ℕ} {pg n : ℕ} {pt : PageTable}
    (h : ∀ i, n ≤ i → i < n + l.length → pt.lookup (pg + i) = none) :
    (frames ((l.zipIdx n).foldl (fun pt e => pt.insert (pg + e.2) (⟨e.1, true, true, false⟩ : Pte)) pt)).Perm
      (l ++ frames pt) := by
  induction l generalizing n pt with
  | nil => exact List.Perm.refl _
  | cons f l ih =>
    rw [List.zipIdx_cons, List.foldl_cons]
    rw [List.length_cons] at h
    refine (ih fun i hi hlt => ?_).trans ?_
    · rw [AList.lookup_insert_ne (by omega)]
      exact h i (by omega) (by omega)
    · rw [frames_insert_new _ (h n le_rfl (by omega))]
      exact List.perm_middle

theorem setPages_frames {l : List ℕ} {pg : ℕ} {pt : PageTable} (h : ∀ i < l.length, pt.lookup (pg + i) = none) :
    (frames (setPages l pg pt)).Perm (l ++ frames pt) :=
  setPages_frames_from fun i _ hi => h i (by omega)

theorem setPages_lookup {l : List ℕ} {pg q : ℕ} {pt : PageTable} (h : q < pg) :
    (setPages l pg pt).lookup q = pt.lookup q :=
  setPages_lookup_ne fun _ _ => by omega

theorem lookup_of_frames_nil {pt : PageTable} (h : frames pt = []) (pg : ℕ) : pt.lookup pg = none := by
  cases hpg : pt.lookup pg with
  | none => rfl
  | some pte =>
    have hmem := mem_frames.mpr ⟨pg, pte, hpg, rfl⟩
    rw [h] at hmem
    cases hmem

theorem munmapPages_frames_subset (k : Kernel) (addr len : ℕ) (io : ℕ → ℕ → ℕ) (l : List Vma)
    (x : PageTable × Memory) : frames (munmapPages k addr len io l x).1 ⊆ frames x.1 := by
  rw [munmapPages_eq]
  split_ifs
  · exact List.Subset.refl _
  · intro f hf
    obtain ⟨pg, pte, hpg, rfl⟩ := mem_frames.mp hf
    have hsync := unmapAreas_synced k addr (addr + pageAlign len) io (unlinkRange addr (addr + pageAlign len) [] l).2 x
    simp only [unmapPageRange, Table.lookup_restrict] at hpg
    split_ifs at hpg
    exact hsync.perm.mem_iff.mp (mem_frames.mpr ⟨pg, pte, hpg, rfl⟩)

theorem mmapAll_moves {e : List ℕ} {calls : List (MmapArgs × Bool × (ℕ → ℕ → ℕ))}
    (h : mmapAll k p calls s = some t) (hP : s.procs.lookup p = some P)
    (hreal : Real k s.mem.pool (e ++ refs (P.pt, s.mem))) :
    ProcMoves p e e s t ∧ ∃ P', t.procs.lookup p = some P' ∧ (frames P.pt = [] → frames P'.pt = []) := by
  induction calls generalizing s P with
  | nil =>
    cases h
    exact ⟨ProcMoves.refl e hP, P, hP, id⟩
  | cons c calls ih =>
    rw [mmapAll, List.foldlM_cons] at h
    obtain ⟨s₁, hs₁, hrest⟩ := Option.bind_eq_some_iff.mp h
    rw [hP, Option.bind_some] at hs₁
    have hfirst := sysMmap_moves hs₁ hP hreal
    obtain ⟨sp, r, -, x, hx, hprocs, hmem, -⟩ := sysMmap_spec hs₁
    have hP₁ : s₁.procs.lookup p = some { P with mmap := sp.mmap, pt := x.1 } := by
      rw [hprocs, AList.lookup_insert]
    obtain ⟨hmoves, P', hP', hnil⟩ := ih hrest hP₁ (hfirst.real hP hP₁ hreal)
    refine ⟨hfirst.trans hmoves, P', hP', fun hempty => hnil ?_⟩
    have hsub : frames x.1 ⊆ frames P.pt := by
      rw [hx]
      split_ifs
      · exact munmapPages_frames_subset ..
      · exact List.Subset.refl _
    rw [hempty] at hsub
    exact List.subset_nil.mp hsub

theorem installPages_moves {e l : List ℕ} {pg : ℕ} (h : installPages p l pg s = some t)
    (hP : s.procs.lookup p = some P) (hnone : ∀ i < l.length, P.pt.lookup (pg + i) = none) :
    ProcMoves p (l ++ e) e s t ∧ t.procs.lookup p = some { P with pt := setPages l pg P.pt } := by
  unfold installPages at h
  rw [hP] at h
  cases h
  refine ⟨procMoves_insert hP rfl ?_, AList.lookup_insert _⟩
  refine (Pool.Moves.refl _ _).perm (List.Perm.refl _) ?_
  have hframes := setPages_frames (l := l) hnone
  simp only [refs, Machine.setProc]
  rw [List.append_assoc]
  refine (List.perm_append_comm_assoc ..).trans (List.Perm.append_left e ?_)
  rw [← List.append_assoc]
  exact (hframes.symm).append_right s.mem.users

theorem putPages_moves {e l : List ℕ} (hP : s.procs.lookup p = some P) :
    ProcMoves p (l ++ e) e s { s with mem := putPages l s.mem } := by
  refine ⟨rfl, P, P, hP, hP, ?_⟩
  rw [List.append_assoc]
  exact Pool.moves_putAll

theorem takePages_procMoves {e : List ℕ} {l : List (ℕ × (ℕ → ℕ))} {m : Memory}
    (h : takePages l s.mem = some m) (hP : s.procs.lookup p = some P) :
    ProcMoves p e (l.map Prod.fst ++ e) s { s with mem := m } := by
  obtain ⟨hmoves, husers⟩ := takePages_moves (o := e ++ refs (P.pt, s.mem)) h
  refine ⟨rfl, P, P, hP, hP, ?_⟩
  simp only [refs, husers] at hmoves ⊢
  rwa [List.append_assoc]

theorem setupArgPages_moves {e : ExecArgs} (h : setupArgPages k p e s = some t)
    (hP : s.procs.lookup p = some P) (hempty : frames P.pt = []) (hset : e.setPage ≠ some 0)
    (hreal : Real k s.mem.pool (e.args.map Prod.fst ++ refs (P.pt, s.mem))) :
    ProcMoves p (e.args.map Prod.fst) [] s t := by
  unfold setupArgPages at h
  have hnone := lookup_of_frames_nil hempty
  cases hpage : e.setPage with
  | some i =>
    have hi : i ≠ 0 := fun hi => hset (hi ▸ hpage)
    simp only [hpage] at h
    obtain ⟨s₁, hs₁, rfl⟩ := Option.map_eq_some_iff.mp h
    obtain ⟨hinstall, hP₁⟩ := installPages_moves (e := (e.args.map Prod.fst).drop i) hs₁ hP fun j _ => hnone _
    rw [List.take_append_drop] at hinstall
    rw [if_neg hi]
    have hput := putPages_moves (e := []) (l := (e.args.map Prod.fst).drop i) hP₁
    rw [List.append_nil] at hput
    exact hinstall.trans hput
  | none =>
    simp only [hpage] at h
    obtain ⟨s₁, hs₁, hrest⟩ := Option.bind_eq_some_iff.mp h
    obtain ⟨hinstall, hP₁⟩ := installPages_moves (e := []) hs₁ hP fun j _ => hnone _
    rw [List.append_nil] at hinstall
    refine hinstall.trans ?_
    cases hstack : e.stack with
    | none =>
      simp only [hstack, Option.some.injEq] at hrest
      subst hrest
      exact ProcMoves.refl [] hP₁
    | some gb =>
      obtain ⟨g, bytes⟩ := gb
      simp only [hstack] at hrest
      obtain ⟨m, hm, hrest⟩ := Option.bind_eq_some_iff.mp hrest
      have htake := takePages_procMoves (e := []) hm hP₁
      refine htake.trans ?_
      split_ifs at hrest
      · obtain ⟨s₂, hs₂, hlast⟩ := Option.bind_eq_some_iff.mp hrest
        have hbelow : 0 < (kernelBase - (e.args.map Prod.fst).length * pageSize) / pageSize := by
          have hle := e.args_le
          rw [List.length_map]
          simp only [kernelBase, pageSize, maxArgPages] at *
          omega
        obtain ⟨hset, hP₂⟩ := installPages_moves (s := { s₁ with mem := m }) (e := []) hs₂ hP₁
          fun j hj => by
            rw [List.length_singleton] at hj
            simp only
            rw [setPages_lookup (by omega)]
            exact hnone _
        have hready := hinstall.trans (htake.trans hset)
        exact hset.trans (mmapAll_moves hlast hP₂ (hready.real hP hP₂ hreal)).1
      · cases hrest
        exact putPages_moves (s := { s₁ with mem := m }) hP₁

theorem flushOldExec_moves {e : List ℕ} (args : ExecArgs) (hP : s.procs.lookup p = some P) :
    ProcMoves p e e s (flushOldExec k p P args s) :=
  PageMoves.proc e hP rfl (Pool.Moves.trans
    (closeAreas_synced k args.io P.mmap (P.pt, s.mem)).moves (freePageTables_moves _))

/-- An `exec` keeps the counts, unless its first `set_page` fails. -/
theorem doExec_moves {e : ExecArgs} (h : doExec k p P e s = some t)
    (hP : s.procs.lookup p = some P) (hset : e.refused = false → e.setPage ≠ some 0)
    (hreal : Real k s.mem.pool (refs (P.pt, s.mem))) : ProcMoves p [] [] s t := by
  obtain ⟨m, hm, hrest⟩ := Option.bind_eq_some_iff.mp h
  have htake := takePages_procMoves (e := []) hm hP
  refine htake.trans ?_
  split_ifs at hrest with hrefused
  · cases hrest
    exact putPages_moves (s := { s with mem := m }) hP
  · obtain ⟨s₁, hs₁, hsetup⟩ := Option.bind_eq_some_iff.mp hrest
    have hflush := flushOldExec_moves (k := k) (e := e.args.map Prod.fst) (s := { s with mem := m }) e hP
    rw [List.append_nil] at htake ⊢
    have hP₁ : (flushOldExec k p P e { s with mem := m }).procs.lookup p = some ⟨[], ∅, e.fds⟩ := AList.lookup_insert _
    have hreal₁ := (htake.trans hflush).real hP hP₁ hreal
    obtain ⟨hmap, P₂, hP₂, hnil⟩ := mmapAll_moves hs₁ hP₁ hreal₁
    refine hflush.trans (hmap.trans ?_)
    exact setupArgPages_moves hsetup hP₂ (hnil rfl) (hset (by simpa using hrefused)) (hmap.real hP₁ hP₂ hreal₁)

/-! ## Runs -/

/-- The steps that keep the counts: a page fault finds the page it needs, and `exec` does
not fail in its first `set_page`. -/
def CountGood (k : Kernel) (s : Machine) : ExecLabel → Prop
  | .plain (.call p (.fault addr write ans)) =>
      ((s.procs.lookup p).all fun P => faultFound k P addr write ans s) = true
  | .exec _ e => e.refused = false → e.setPage ≠ some 0
  | _ => True

/-- A call turns the references of its process into others, and leaves the page tables
of the other processes alone. -/
theorem execCall_moves {c : Call} (hreal : Real k s.mem.pool (refs (P.pt, s.mem)))
    (hP : s.procs.lookup p = some P) (hgood : CountGood k s (.plain (.call p c)))
    (hstep : execCall k p P s c = some t) :
    ∃ o, Pool.Moves s.mem.pool t.mem.pool (refs (P.pt, s.mem)) o ∧ (owners t).Perm (o ++ othersOf p s) := by
  cases c with
  | fault addr write ans =>
    simp only [execCall] at hstep
    split_ifs at hstep
    simp only [CountGood, hP, Option.all_some] at hgood
    exact (doPageFault_moves hstep hP hgood).owners hP
  | store addr byte => exact (store_moves hstep hP).owners hP
  | mmap a kzalloc io => exact (sysMmap_moves (e := []) hstep hP hreal).owners hP
  | munmap addr len io =>
    obtain ⟨sp, r, -, x, rfl, hprocs, hmem, -⟩ := sysMunmap_spec hstep
    refine (PageMoves.proc [] hP hprocs ?_).owners hP
    rw [hmem]
    exact munmapPages_moves fun f hf => hreal.ne_crossed (List.mem_append_left _ hf)
  | mprotect start len prot =>
    cases hstep
    exact (sysMprotect_moves hP).owners hP
  | msync addr len flags io =>
    cases hstep
    exact (sysMsync_moves hP).owners hP
  | fork child ans =>
    simp only [execCall] at hstep
    split_ifs at hstep with hchild
    cases hstep
    by_cases hans : ans = .ok
    · subst hans
      exact ⟨_, copyEntries_moves none (P.pt, s.mem), doFork_ok_owners hP hchild⟩
    · exact (doFork_moves hP hans).owners hP
  | exit io =>
    cases hstep
    exact doExit_moves io
  | setFd fd file =>
    cases hstep
    have hmoves : ProcMoves p [] [] s (s.setProc p { P with fds := Function.update P.fds fd file } s.mem) :=
      PageMoves.proc [] hP rfl (Pool.Moves.refl _ _)
    exact hmoves.owners hP

theorem Counted.call {c : Call} (h : Counted k s) (hP : s.procs.lookup p = some P)
    (hgood : CountGood k s (.plain (.call p c))) (hstep : execCall k p P s c = some t) : Counted k t := by
  obtain ⟨o, hmoves, howners⟩ := execCall_moves (h.refs_real hP) hP hgood hstep
  exact h.moves (owners_perm hP) howners hmoves

theorem Counted.event {e : Event} {m : Memory} (h : Counted k s)
    (hstep : execEvent s.mem e = some m) : Counted k { s with mem := m } :=
  h.moves List.perm_append_comm List.perm_append_comm (execEvent_moves hstep)

theorem Counted.step {lab : ExecLabel} (h : Counted k s) (hgood : CountGood k s lab)
    (hstep : ExecStep k s lab t) : Counted k t := by
  cases lab with
  | plain lab =>
    cases lab with
    | call p c =>
      obtain ⟨P, hP, hcall⟩ := Option.bind_eq_some_iff.mp hstep
      exact h.call hP hgood hcall
    | event e =>
      obtain ⟨m, hm, rfl⟩ := Option.map_eq_some_iff.mp hstep
      exact h.event hm
  | exec p e =>
    obtain ⟨P, hP, hexec⟩ := Option.bind_eq_some_iff.mp hstep
    exact h.proc hP (doExec_moves hexec hP hgood (h.refs_real hP))

/-- Before the first call nothing is mapped, cached or held, and the allocator has page
frames below `KERNEL_BASE`, without the one of `empty_bad_page`. -/
structure Initial (k : Kernel) (s : Machine) : Prop where
  unmapped : ∀ p P, s.procs.lookup p = some P → P.mmap = [] ∧ P.pt = ∅
  cache : s.mem.cache = ∅
  held : s.mem.held = []
  count : ∀ f, s.mem.pool.count f = 0
  free : ∀ f, s.mem.pool.free f = true → f < kernelFrames ∧ f ≠ k.bad

theorem Initial.owners_nil (h : Initial k s) : owners s = [] := by
  unfold owners Memory.users
  rw [h.cache, h.held, List.append_eq_nil_iff]
  refine ⟨List.flatMap_eq_nil_iff.mpr fun P hP => ?_, rfl⟩
  obtain ⟨p, hp⟩ := Table.mem_values.mp hP
  rw [(h.unmapped p P hp).2]
  rfl

theorem Initial.counted (h : Initial k s) : Counted k s := by
  constructor
  · rw [h.owners_nil]
    exact ⟨fun f => by rw [h.count f]; rfl, fun f _ hf => absurd hf List.not_mem_nil⟩
  · intro f hf
    rw [h.owners_nil] at hf
    rcases hf with hf | hf
    · exact h.free f hf
    · cases hf

/-- The present entries, in all page tables, that map a frame. -/
def pteCount (s : Machine) (f : ℕ) : ℕ :=
  ((Table.values s.procs).map fun P => (frames P.pt).count f).sum

theorem owners_count (s : Machine) (f : ℕ) :
    (owners s).count f = pteCount s f + (Table.values s.mem.cache).count f + s.mem.held.count f := by
  unfold owners Memory.users pteCount
  rw [List.count_append, List.count_append, List.count_flatMap]
  simp only [Function.comp_def]
  omega

instance (k : Kernel) (s : Machine) : ∀ lab, Decidable (CountGood k s lab)
  | .plain (.call _ (.fault ..)) => inferInstanceAs (Decidable (_ = _))
  | .plain (.call _ (.store ..)) => isTrue trivial
  | .plain (.call _ (.mmap ..)) => isTrue trivial
  | .plain (.call _ (.munmap ..)) => isTrue trivial
  | .plain (.call _ (.mprotect ..)) => isTrue trivial
  | .plain (.call _ (.msync ..)) => isTrue trivial
  | .plain (.call _ (.fork ..)) => isTrue trivial
  | .plain (.call _ (.exit ..)) => isTrue trivial
  | .plain (.call _ (.setFd ..)) => isTrue trivial
  | .plain (.event _) => isTrue trivial
  | .exec _ _ => inferInstanceAs (Decidable (_ → _))

/-- A kernel in which every open file is one regular file, opened for reading and
writing. -/
def bootKernel : Kernel :=
  { files := fun _ => ⟨3, some ⟨1, some false, true⟩, some ⟨true, true, true⟩⟩
    bad := 5
    bad_lt := Nat.le_of_ble_eq_true rfl
    rlimStack := 0 }

/-- One process with one open file, and sixteen free frames. -/
def bootMachine : Machine :=
  { procs := AList.singleton 0 ⟨[], ∅, fun fd => if fd = 3 then some 7 else none⟩
    mem :=
      { pool := ⟨fun _ => 0, fun f => decide (16 ≤ f ∧ f < 32)⟩
        data := fun _ _ => 0
        cache := ∅
        held := []
        disk := fun _ _ => 0
        size := fun _ => 4096 }
    fresh := 1
    frefs := fun _ => 1
    ring := ⟨id, id⟩ }

theorem bootMachine_initial : Initial bootKernel bootMachine := by
  refine ⟨fun p P hP => ?_, rfl, rfl, fun _ => rfl, fun f hf => ?_⟩
  · have hmem := Table.mem_values.mpr ⟨p, hP⟩
    rw [bootMachine, Table.values, AList.singleton_entries, List.map_singleton, List.mem_singleton] at hmem
    subst hmem
    exact ⟨rfl, rfl⟩
  · have hrange : 16 ≤ f ∧ f < 32 := of_decide_eq_true hf
    simp only [kernelFrames, bootKernel]
    omega

/-- The state that a list of labels leads to. -/
def reachedBy (labs : List Label) : Machine :=
  (replay (fun _ _ => True) (exec bootKernel) bootMachine labs).getD bootMachine

theorem run_reachedBy {labs : List Label} (h : (replay (fun _ _ => True) (exec bootKernel) bootMachine labs).isSome) :
    Run (Step bootKernel) bootMachine labs (reachedBy labs) := by
  obtain ⟨s, hs⟩ := Option.isSome_iff_exists.mp h
  rw [reachedBy, hs]
  exact (run_of_replay hs).mono fun _ _ _ hstep => hstep.2

/-- A process of a state. -/
def procOf (s : Machine) (p : ℕ) : Proc := (s.procs.lookup p).getD ⟨[], ∅, fun _ => none⟩

theorem lookup_procOf (h : (s.procs.lookup p).isSome) : s.procs.lookup p = some (procOf s p) := by
  obtain ⟨P, hP⟩ := Option.isSome_iff_exists.mp h
  rw [procOf, hP]
  rfl

/-- An anonymous `MAP_FIXED` mapping of the page at `0x1000`, for reading and writing. -/
def mapPage (type : ℕ) : Call :=
  .mmap { addr := 0x1000, len := 0x1000, prot := 3, flags := 0x30 + type, fd := wordSize - 1
          off := 0 } true fun _ _ => 0

/-- A write to the page at `0x1000`, when the allocator answers with `page`. -/
def touchPage (page : Option ℕ) : Call := .fault 0x1000 true ⟨true, page⟩

end Mario.Paging
