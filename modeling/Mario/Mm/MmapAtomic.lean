import Mario.Mm.MmapView

/-!
# Failed calls that map memory

`do_mmap` and `sys_brk` when `kmalloc` can fail at every structure. A call that returns an error
should leave the address space as it was. `unmap_fixup` asserts that it gets its structures, a fixed
mapping removes what it replaces before it asks the file, and `sys_brk` asserts what its caller has
to promise.
-/

namespace Mario.Mm.Scarce

variable {others : ℕ → ℤ}

/-! ## The model -/

/-- `unmap_fixup`, with the answer of `kmalloc` for the structure at each address. -/
def unmapFixup (kmalloc : ℕ → Bool) (v : Vma) (addr fin : ℕ) (s : Space) : Option Space :=
  if (unmapPieces v addr fin s.fresh).all fun w => kmalloc w.ptr then Mm.unmapFixup v addr fin s
  else none

def doMunmap (kmalloc : ℕ → Bool) (addr len : ℕ) (s : Space) :
    Option (Space × Except Errno Unit) :=
  if MunmapInvalid addr len then some (s, .error .EINVAL)
  else
    let fin := addr + pageAlign len
    let walk := unlinkRange addr fin [] s.mmap
    if pageAlign len = 0 then some (s, .ok ())
    else
      (walk.2.foldlM (fun s v => unmapFixup kmalloc v (max addr v.vmStart) (min fin v.vmEnd) s)
        { s with mmap := walk.1 }).map fun s => (s, .ok ())

section

variable (files : ℕ → File) (fds : ℕ → Option ℕ) (kmalloc : ℕ → Bool)

def doMmap (a : MmapArgs) (s : Space) : Option (Space × Except Errno ℕ) :=
  match checkMmap files fds a with
  | .error e => some (s, .error e)
  | .ok file =>
      if a.fixed then
        if kmalloc s.fresh then
          (doMunmap kmalloc a.addr (pageAlign a.len) { s with fresh := s.fresh + 1 }).bind fun r =>
            finishMmap files file (allocVma a a.addr file s.fresh) r.1
        else some (s, .error .ENOMEM)
      else
        let addr := getUnmappedArea a.addr (pageAlign a.len) s.mmap
        if addr = 0 then some (s, .error .ENOMEM)
        else if kmalloc s.fresh then
          finishMmap files file (allocVma a addr file s.fresh) { s with fresh := s.fresh + 1 }
        else some (s, .error .ENOMEM)

end

/-- What `struct mm_struct` and the resource limits hold for these calls. -/
structure MmStruct where
  space : Space
  startBrk : ℕ
  brk : ℕ
  endCode : ℕ
  /-- `rlim[RLIMIT_DATA].rlim_cur`. -/
  rlimData : ℕ

/-- The call of `do_mmap` in `sys_brk`. -/
def brkArgs (oldbrk len : ℕ) : MmapArgs := ⟨oldbrk, len, 7, 0x32, wordSize - 1, 0⟩

/-- `sys_brk`; nothing when an assertion fails. -/
def sysBrk (kmalloc : ℕ → Bool) (brk : ℕ) (m : MmStruct) : Option (MmStruct × Except Errno ℕ) :=
  let newbrk := pageAlign brk
  let oldbrk := pageAlign m.brk
  if brk = 0 then some (m, .ok m.brk)
  else if brk < m.startBrk then none
  else if oldbrk = newbrk then some ({ m with brk := brk }, .ok brk)
  else if brk < m.brk then
    (doMunmap kmalloc newbrk (sub32 oldbrk newbrk) m.space).map fun r =>
      match r.2 with
      | .error e => ({ m with space := r.1 }, .error e)
      | .ok _ => ({ m with space := r.1, brk := brk }, .ok brk)
  else if m.rlimData < sub32 brk m.endCode then some (m, .error .ENOMEM)
  else if (findVmaIntersection oldbrk ((newbrk + pageSize) % wordSize) m.space.mmap).isSome then
    some (m, .error .ENOMEM)
  else
    (doMmap (fun _ => ⟨0, none, none⟩) (fun _ => none) kmalloc (brkArgs oldbrk (sub32 newbrk oldbrk))
      m.space).map fun r =>
        match r.2 with
        | .error e => ({ m with space := r.1 }, .error e)
        | .ok _ => ({ m with space := r.1, brk := brk }, .ok brk)

/-- `do_mmap` on the whole structure. -/
def MmStruct.doMmap (files : ℕ → File) (fds : ℕ → Option ℕ) (kmalloc : ℕ → Bool) (a : MmapArgs)
    (m : MmStruct) : Option (MmStruct × Except Errno ℕ) :=
  (Scarce.doMmap files fds kmalloc a m.space).map fun r => ({ m with space := r.1 }, r.2)

/-! ## Failed calls -/

/-- A result that the caller takes for an error: an error code, or a number that reads as one. -/
def IsError (r : Except Errno ℕ) : Prop :=
  match r with
  | .error _ => True
  | .ok x => wordSize - pageSize < x

/-- The ranges of the areas. -/
def ranges (l : List Vma) : Set (ℕ × ℕ) := {r | ∃ v ∈ l, r = (v.vmStart, v.vmEnd)}

/-- No assertion fails, and after an error the map, the ranges and the break are as before. -/
def Atomic (m : MmStruct) (r : Option (MmStruct × Except Errno ℕ)) : Prop :=
  ∃ m' x, r = some (m', x) ∧ (IsError x →
    view m'.space.mmap = view m.space.mmap ∧ ranges m'.space.mmap = ranges m.space.mmap ∧
      m'.brk = m.brk)

/-- How many areas have the address inside, not at their start. -/
def cutsAt (x : ℕ) (l : List Vma) : ℕ := l.countP fun v => v.vmStart < x ∧ x < v.vmEnd

/-- There is memory for the pieces of the areas that the ends of a range cut. -/
def PiecesServed (kmalloc : ℕ → Bool) (addr fin fresh : ℕ) (l : List Vma) : Prop :=
  ∀ k < cutsAt addr l + cutsAt fin l, kmalloc (fresh + k) = true

/-- The file's `mmap` operation refuses the area. -/
def Refused (files : ℕ → File) (fds : ℕ → Option ℕ) (a : MmapArgs) : Prop :=
  ∃ file e, mmapFile fds a = .ok file ∧ mmapArea files file (allocVma a a.addr file 0) = .error e

/-- A call of `do_mmap` that does not come to unmapping its range, or one with memory for the
pieces, and when the file refuses the area nothing was mapped in the range. -/
def MmapFine (files : ℕ → File) (fds : ℕ → Option ℕ) (kmalloc : ℕ → Bool) (a : MmapArgs)
    (s : Space) : Prop :=
  unmapsFirst files fds a (kmalloc s.fresh) = true →
    PiecesServed kmalloc a.addr (a.addr + pageAlign a.len) (s.fresh + 1) s.mmap ∧
      (Refused files fds a → ∀ v ∈ s.mmap,
        v.vmEnd ≤ a.addr ∨ a.addr + pageAlign a.len ≤ v.vmStart)

/-- A call of `sys_brk` with a break that is not below the first one, with memory for the pieces
when it gives pages back, and that does not set a break that reads as an error. -/
def BrkFine (kmalloc : ℕ → Bool) (brk : ℕ) (m : MmStruct) : Prop :=
  brk ≠ 0 → m.startBrk ≤ brk ∧
    (brk < m.brk → pageAlign brk < pageAlign m.brk → pageAlign m.brk ≤ kernelBase →
      PiecesServed kmalloc (pageAlign brk) (pageAlign m.brk) m.space.fresh m.space.mmap) ∧
    (wordSize - pageSize < brk → pageAlign m.brk = 0 → m.brk = brk)

/-! ## Unmapping -/

theorem unmapPieces_served {kmalloc : ℕ → Bool} {v : Vma} {addr fin fresh : ℕ} :
    ((unmapPieces v addr fin fresh).all fun w => kmalloc w.ptr) = true ↔
      ∀ k < (unmapPieces v addr fin fresh).length, kmalloc (fresh + k) = true := by
  unfold unmapPieces
  split_ifs
  · simp
  · simp
  · simp
  · simp only [List.all_cons, List.all_nil, Bool.and_true, Bool.and_eq_true, List.length_cons, List.length_nil]
    constructor
    · rintro ⟨hhigh, hlow⟩ k hk
      obtain rfl | rfl : k = 0 ∨ k = 1 := by omega
      · exact hhigh
      · exact hlow
    · intro h
      exact ⟨h 0 (by omega), h 1 (by omega)⟩

/-- How many pieces `do_munmap` leaves of an area. -/
def pieceCount (addr fin : ℕ) (v : Vma) : ℕ :=
  (if v.vmStart < addr then 1 else 0) + if fin < v.vmEnd then 1 else 0

theorem length_unmapPieces (v : Vma) (addr fin fresh : ℕ) :
    (unmapPieces v (max addr v.vmStart) (min fin v.vmEnd) fresh).length = pieceCount addr fin v := by
  rw [unmapPieces_eq_remains, remains, pieceCount, List.length_append]
  split_ifs
  · rfl
  · rfl
  · rfl
  · rfl

/-- The loop over the unlinked areas needs memory for all pieces, and does then what it does when
there is always memory. -/
theorem unmapLoop_eq (kmalloc : ℕ → Bool) (addr fin : ℕ) (free : List Vma) (s : Space) :
    free.foldlM (fun s v => unmapFixup kmalloc v (max addr v.vmStart) (min fin v.vmEnd) s) s =
      if ∀ k < (free.map (pieceCount addr fin)).sum, kmalloc (s.fresh + k) = true then
        free.foldlM (fun s v => Mm.unmapFixup v (max addr v.vmStart) (min fin v.vmEnd) s) s
      else none := by
  induction free generalizing s with
  | nil => simp
  | cons v free ih =>
    have hpieces : ((unmapPieces v (max addr v.vmStart) (min fin v.vmEnd) s.fresh).all
        fun w => kmalloc w.ptr) = true ↔ ∀ k < pieceCount addr fin v, kmalloc (s.fresh + k) = true := by
      rw [unmapPieces_served, length_unmapPieces]
    rw [List.foldlM_cons, List.foldlM_cons, List.map_cons, List.sum_cons, unmapFixup]
    by_cases hserved : ∀ k < pieceCount addr fin v, kmalloc (s.fresh + k) = true
    · rw [if_pos (hpieces.mpr hserved)]
      cases hfix : Mm.unmapFixup v (max addr v.vmStart) (min fin v.vmEnd) s with
      | none => simp
      | some s₁ =>
        have hfresh : s₁.fresh = s.fresh + pieceCount addr fin v := by
          obtain ⟨l, -, rfl⟩ := Option.map_eq_some_iff.mp hfix
          rw [length_unmapPieces]
        have hsplit : (∀ k < pieceCount addr fin v + (free.map (pieceCount addr fin)).sum,
            kmalloc (s.fresh + k) = true) ↔
            ∀ k < (free.map (pieceCount addr fin)).sum, kmalloc (s₁.fresh + k) = true := by
          rw [hfresh]
          constructor
          · intro h k hk
            rw [Nat.add_assoc]
            exact h _ (by omega)
          · intro h k hk
            by_cases hfirst : k < pieceCount addr fin v
            · exact hserved k hfirst
            · have hrest := h (k - pieceCount addr fin v) (by omega)
              rwa [show s.fresh + pieceCount addr fin v + (k - pieceCount addr fin v) =
                s.fresh + k by omega] at hrest
        simp only [hsplit]
        exact ih s₁
    · rw [if_neg (hpieces.not.mpr hserved), if_neg]
      · rfl
      · intro h
        exact hserved fun k hk => h k (by omega)

theorem sum_pieceCount {addr fin : ℕ} {free : List Vma} (h : ∀ v ∈ free, v.vmStart < fin ∧ addr < v.vmEnd) :
    (free.map (pieceCount addr fin)).sum = cutsAt addr free + cutsAt fin free := by
  induction free with
  | nil => rfl
  | cons v free ih =>
    obtain ⟨hstart, hend⟩ := h v List.mem_cons_self
    have hrest := ih fun w hw => h w (List.mem_cons_of_mem v hw)
    simp only [cutsAt] at hrest
    rw [List.map_cons, List.sum_cons, hrest, pieceCount, cutsAt, cutsAt, List.countP_cons, List.countP_cons]
    simp only [hstart, hend, and_true, true_and, decide_eq_true_eq]
    omega

theorem cutsAt_append (x : ℕ) (l l' : List Vma) : cutsAt x (l ++ l') = cutsAt x l + cutsAt x l' :=
  List.countP_append

/-- The pieces of the unlinked areas are those of the areas that an end of the range cuts. -/
theorem sum_pieceCount_unlinked {addr fin : ℕ} {l : List Vma} (h : WellFormed l) (hlt : addr < fin) :
    ((unlinkRange addr fin [] l).2.map (pieceCount addr fin)).sum = cutsAt addr l + cutsAt fin l := by
  have hperm := unlinkRange_perm addr fin [] l
  rw [List.append_nil] at hperm
  have hcuts : ∀ x, (x = addr ∨ x = fin) → cutsAt x l = cutsAt x (unlinkRange addr fin [] l).2 := by
    intro x hx
    have hkept : cutsAt x (unlinkRange addr fin [] l).1 = 0 := by
      refine List.countP_eq_zero.mpr fun v hv => ?_
      have hout := unlinkRange_kept h hv
      simp only [decide_eq_true_eq]
      omega
    rw [cutsAt, ← hperm.countP_eq, ← cutsAt, cutsAt_append, hkept, Nat.zero_add]
  rw [sum_pieceCount, hcuts addr (Or.inl rfl), hcuts fin (Or.inr rfl)]
  intro v hv
  exact (unlinkRange_free hv).resolve_left List.not_mem_nil

theorem doMunmap_eq (kmalloc : ℕ → Bool) {addr len : ℕ} {s : Space} (h : WellFormed s.mmap)
    (hvalid : ¬ MunmapInvalid addr len) (hlen : pageAlign len ≠ 0) :
    (PiecesServed kmalloc addr (addr + pageAlign len) s.fresh s.mmap →
      doMunmap kmalloc addr len s = Mm.doMunmap addr len s) ∧
    (¬ PiecesServed kmalloc addr (addr + pageAlign len) s.fresh s.mmap → doMunmap kmalloc addr len s = none) := by
  have hloop := unmapLoop_eq kmalloc addr (addr + pageAlign len)
    (unlinkRange addr (addr + pageAlign len) [] s.mmap).2
    { s with mmap := (unlinkRange addr (addr + pageAlign len) [] s.mmap).1 }
  rw [sum_pieceCount_unlinked h (by omega)] at hloop
  simp only [doMunmap, Mm.doMunmap, if_neg hvalid, if_neg hlen]
  constructor
  · intro hserved
    rw [hloop, if_pos]
    exact hserved
  · intro hserved
    rw [hloop, if_neg]
    · rfl
    · exact hserved

theorem unlinkRange_outside {addr fin : ℕ} {l : List Vma}
    (h : ∀ v ∈ l, v.vmEnd ≤ addr ∨ fin ≤ v.vmStart) : unlinkRange addr fin [] l = (l, []) := by
  induction l with
  | nil => rfl
  | cons v l ih =>
    rw [unlinkRange]
    split_ifs with hfin haddr
    · rfl
    · rw [ih fun w hw => h w (List.mem_cons_of_mem v hw)]
      rfl
    · have hout := h v List.mem_cons_self
      omega

theorem doMunmap_outside {addr len : ℕ} {s : Space} (hvalid : ¬ MunmapInvalid addr len)
    (h : ∀ v ∈ s.mmap, v.vmEnd ≤ addr ∨ addr + pageAlign len ≤ v.vmStart) :
    Mm.doMunmap addr len s = some (s, .ok ()) := by
  simp only [Mm.doMunmap, if_neg hvalid, unlinkRange_outside h]
  split_ifs
  · rfl
  · rfl

/-- Every space is one whose areas own their files, beside some others. -/
theorem exists_ownsFiles (s : Space) : ∃ others, OwnsFiles others s :=
  ⟨fun f => s.frefs f - fileUses s.mmap f, fun f => by ring⟩

/-! ## Mapping -/

section

variable {files : ℕ → File} {fds : ℕ → Option ℕ} {kmalloc : ℕ → Bool} {a : MmapArgs} {s : Space}

/-- Whether the file refuses an area depends on the flags alone. -/
theorem mmapArea_error {file : Option ℕ} {v w : Vma} (hflags : v.vmFlags = w.vmFlags) {e : Errno}
    (h : mmapArea files file v = .error e) : mmapArea files file w = .error e := by
  cases file with
  | none => cases h
  | some f =>
    simp only [mmapArea, genericFileMmap, hflags] at h ⊢
    cases hinode : (files f).fInode with
    | none => simpa [hinode] using h
    | some inode =>
      simp only [hinode] at h ⊢
      cases hsb : inode.iSb with
      | none => simpa [hsb] using h
      | some rdonly =>
        simp only [hsb] at h ⊢
        split_ifs at h ⊢
        · exact h
        · exact h
        · exact h
        · exact h

theorem mmapArea_allocVma {file : Option ℕ} {addr fresh : ℕ} (fresh' : ℕ) {e : Errno}
    (h : mmapArea files file (allocVma a addr file fresh) = .error e) :
    mmapArea files file (allocVma a addr file fresh') = .error e := by
  have hflags : (allocVma a addr file fresh).vmFlags = (allocVma a addr file fresh').vmFlags := rfl
  exact mmapArea_error hflags h

/-- Without unmapping, `do_mmap` needs memory for its own structure alone. -/
theorem doMmap_eq (h : unmapsFirst files fds a (kmalloc s.fresh) = false) :
    doMmap files fds kmalloc a s = Mm.doMmap files fds a (kmalloc s.fresh) s := by
  unfold doMmap Mm.doMmap
  cases hcheck : checkMmap files fds a with
  | error e => rfl
  | ok file =>
    cases hfixed : a.fixed with
    | false => rfl
    | true =>
      have hfull : kmalloc s.fresh = false := by
        simpa [unmapsFirst, hcheck, hfixed, Except.isOk, Except.toBool] using h
      simp [hfull]

theorem doMmap_error_kept {kzalloc : Bool} (h : unmapsFirst files fds a kzalloc = false) {s' : Space}
    {e : Errno} (hdo : Mm.doMmap files fds a kzalloc s = some (s', .error e)) : s'.mmap = s.mmap := by
  unfold Mm.doMmap at hdo
  cases hcheck : checkMmap files fds a with
  | error e' =>
    rw [hcheck] at hdo
    cases hdo
    rfl
  | ok file =>
    simp only [hcheck] at hdo
    cases hfixed : a.fixed with
    | true =>
      have hfull : kzalloc = false := by
        simpa [unmapsFirst, hcheck, hfixed, Except.isOk, Except.toBool] using h
      rw [hfixed, if_pos rfl, hfull, if_neg Bool.false_ne_true] at hdo
      cases hdo
      rfl
    | false =>
      rw [hfixed, if_neg Bool.false_ne_true] at hdo
      split_ifs at hdo
      · cases hdo
        rfl
      · unfold finishMmap at hdo
        split at hdo
        · cases hdo
          rfl
        · obtain ⟨l, -, hl⟩ := Option.map_eq_some_iff.mp hdo
          cases hl
      · cases hdo
        rfl

/-- A mapping below `KERNEL_BASE` has an address that does not read as an error. -/
theorem not_isError_of_le {x : ℕ} (h : x ≤ kernelBase) : ¬ IsError (.ok x) := by
  simp only [IsError, wordSize, pageSize, kernelBase] at h ⊢
  omega

theorem atomic_of_kept {m : MmStruct} {s' : Space} {r : Except Errno ℕ}
    (hdo : doMmap files fds kmalloc a m.space = some (s', r))
    (hkept : IsError r → s'.mmap = m.space.mmap) : Atomic m (m.doMmap files fds kmalloc a) := by
  refine ⟨{ m with space := s' }, r, by rw [MmStruct.doMmap, hdo]; rfl, fun herr => ?_⟩
  rw [show (MmStruct.space { m with space := s' }).mmap = m.space.mmap from hkept herr]
  exact ⟨rfl, rfl, rfl⟩

theorem atomic_of_not_unmaps {m : MmStruct} (hwf : WellFormed m.space.mmap)
    (h : unmapsFirst files fds a (kmalloc m.space.fresh) = false) : Atomic m (m.doMmap files fds kmalloc a) := by
  obtain ⟨others, howns⟩ := exists_ownsFiles m.space
  obtain ⟨s', r, hdo, -, -, -, hcases⟩ :=
    doMmap_spec files fds a (kmalloc m.space.fresh) hwf howns
  refine atomic_of_kept ((doMmap_eq h).trans hdo) fun herr => ?_
  rcases hcases with ⟨e, rfl, -⟩ | ⟨x, file, rfl, -, -, -, -, hfits, -⟩
  · exact doMmap_error_kept h hdo
  · exact absurd herr (not_isError_of_le (by omega))

/-- What it means that the call comes to unmapping its range. -/
theorem unmapsFirst_iff {kzalloc : Bool} : unmapsFirst files fds a kzalloc = true ↔
    (∃ file, checkMmap files fds a = .ok file) ∧ a.fixed = true ∧ kzalloc = true := by
  unfold unmapsFirst
  cases hcheck : checkMmap files fds a with
  | error e => simp [Except.isOk, Except.toBool]
  | ok file => simp [Except.isOk, Except.toBool]

theorem Accepted.unmaps {file : Option ℕ} (h : Accepted files fds a file) (hfixed : a.fixed = true) :
    ¬ MunmapInvalid a.addr (pageAlign a.len) ∧ pageAlign (pageAlign a.len) = pageAlign a.len := by
  have hfits := h.fits
  refine ⟨?_, pageAlign_of_dvd (pageSize_dvd_pageAlign _) (by omega)⟩
  simp only [MunmapInvalid, not_or, not_not, not_lt]
  exact ⟨h.fixed hfixed, by omega, by omega⟩

/-- A call that comes to unmapping its range needs memory for the pieces, and does then what it does
when there is always memory. -/
theorem doMmap_unmaps (kmalloc : ℕ → Bool) (hwf : WellFormed s.mmap) (h : unmapsFirst files fds a (kmalloc s.fresh) = true) :
    (PiecesServed kmalloc a.addr (a.addr + pageAlign a.len) (s.fresh + 1) s.mmap →
      doMmap files fds kmalloc a s = Mm.doMmap files fds a (kmalloc s.fresh) s) ∧
    (¬ PiecesServed kmalloc a.addr (a.addr + pageAlign a.len) (s.fresh + 1) s.mmap →
      doMmap files fds kmalloc a s = none) := by
  obtain ⟨⟨file, hcheck⟩, hfixed, hstruct⟩ := unmapsFirst_iff.mp h
  have hacc := checkMmap_ok hcheck
  obtain ⟨hvalid, hidem⟩ := Accepted.unmaps hacc hfixed
  obtain ⟨hserved, hunserved⟩ := @doMunmap_eq kmalloc a.addr (pageAlign a.len)
    { s with fresh := s.fresh + 1 } hwf hvalid (by rw [hidem]; exact hacc.nonempty)
  rw [hidem] at hserved hunserved
  simp only [doMmap, Mm.doMmap, hcheck, hfixed, hstruct, if_true]
  constructor
  · intro hpieces
    rw [hserved hpieces]
  · intro hpieces
    rw [hunserved hpieces]
    rfl

/-- A call that comes to its end has done what it does when there is always memory. -/
theorem doMmap_some (hwf : WellFormed s.mmap) {r : Space × Except Errno ℕ}
    (h : doMmap files fds kmalloc a s = some r) : Mm.doMmap files fds a (kmalloc s.fresh) s = some r := by
  cases hfirst : unmapsFirst files fds a (kmalloc s.fresh) with
  | false => rw [← doMmap_eq hfirst, h]
  | true =>
    obtain ⟨hserved, hunserved⟩ := doMmap_unmaps kmalloc hwf hfirst
    by_cases hpieces : PiecesServed kmalloc a.addr (a.addr + pageAlign a.len) (s.fresh + 1) s.mmap
    · rw [← hserved hpieces, h]
    · rw [hunserved hpieces] at h
      cases h

/-- `do_mmap` fails without a trace, or succeeds, exactly when the call is fine. -/
theorem mmap_atomic_iff {m : MmStruct} (hwf : WellFormed m.space.mmap) :
    Atomic m (m.doMmap files fds kmalloc a) ↔ MmapFine files fds kmalloc a m.space := by
  by_cases hunmaps : unmapsFirst files fds a (kmalloc m.space.fresh) = true
  · obtain ⟨⟨file, hcheck⟩, hfixed, hstruct⟩ := unmapsFirst_iff.mp hunmaps
    have hacc := checkMmap_ok hcheck
    obtain ⟨hvalid, hidem⟩ := Accepted.unmaps hacc hfixed
    have hbody : Mm.doMmap files fds a (kmalloc m.space.fresh) m.space =
        (Mm.doMunmap a.addr (pageAlign a.len)
          { m.space with fresh := m.space.fresh + 1 }).bind fun r =>
            finishMmap files file (allocVma a a.addr file m.space.fresh) r.1 := by
      simp only [Mm.doMmap, hcheck, hfixed, hstruct, if_true]
    obtain ⟨hserved, hunserved⟩ := doMmap_unmaps kmalloc hwf hunmaps
    obtain ⟨others, howns⟩ := exists_ownsFiles m.space
    constructor
    · rintro ⟨m', x, hdo, hsame⟩ -
      have hpieces : PiecesServed kmalloc a.addr (a.addr + pageAlign a.len) (m.space.fresh + 1)
          m.space.mmap := by
        by_contra hno
        rw [MmStruct.doMmap, hunserved hno] at hdo
        cases hdo
      refine ⟨hpieces, ?_⟩
      rintro ⟨file', e, hfile, hrefuses⟩ v hv
      obtain rfl : file' = file := Except.ok.inj (hfile.symm.trans hacc.file_eq)
      have harea : mmapArea files file' (allocVma a a.addr file' m.space.fresh) = .error e :=
        mmapArea_allocVma _ hrefuses
      obtain ⟨s', hs', -, -, -, hinfo⟩ := @doMunmap_spec others
        { m.space with fresh := m.space.fresh + 1 } a.addr (pageAlign a.len) hwf howns hvalid
      rw [MmStruct.doMmap, hserved hpieces, hbody, hs', Option.bind_some, finishMmap, harea] at hdo
      cases hdo
      -- the range was unmapped, and the map is the same
      have hview := (hsame trivial).1
      rw [hidem] at hinfo
      by_contra hover
      have hne := (hwf.valid v hv).nonempty
      have hlen := hacc.nonempty
      have hcovers : v.Covers (max a.addr v.vmStart) := by
        constructor
        · omega
        · omega
      have hbefore : view m.space.mmap (max a.addr v.vmStart) = none := by
        rw [← hview, view_eq_map, hinfo, removeRange, if_pos (by omega), Option.map_none]
      rw [view_eq_map, infoAt_of_mem hwf.apart hv hcovers] at hbefore
      cases hbefore
    · intro hfine
      obtain ⟨hpieces, hrefused⟩ := hfine hunmaps
      cases harea : mmapArea files file (allocVma a a.addr file m.space.fresh) with
      | error e =>
        have houtside := hrefused ⟨file, e, hacc.file_eq, mmapArea_allocVma _ harea⟩
        rw [doMunmap_outside hvalid (by rw [hidem]; exact houtside),
          Option.bind_some, finishMmap, harea] at hbody
        exact atomic_of_kept ((hserved hpieces).trans hbody) fun _ => rfl
      | ok w =>
        obtain ⟨s', r, hdo, -, -, -, hcases⟩ := doMmap_spec files fds a (kmalloc m.space.fresh) hwf howns
        refine atomic_of_kept ((hserved hpieces).trans hdo) fun herr => ?_
        rcases hcases with ⟨e, rfl, -⟩ | ⟨x, file, rfl, -, -, -, -, hfits, -⟩
        · rw [hbody] at hdo
          obtain ⟨r₁, -, hfinish⟩ := Option.bind_eq_some_iff.mp hdo
          rw [finishMmap, harea] at hfinish
          obtain ⟨l, -, hl⟩ := Option.map_eq_some_iff.mp hfinish
          cases hl
        · exact absurd herr (not_isError_of_le (by omega))
  · have hnot := Bool.not_eq_true _ ▸ hunmaps
    exact ⟨fun _ h => absurd h hunmaps, fun _ => atomic_of_not_unmaps hwf hnot⟩

end

/-! ## The break -/

/-- Without an intersection, the areas that end behind the start of the range begin behind its
end. -/
theorem not_findVmaIntersection {x y : ℕ} {l : List Vma} (h : WellFormed l)
    (hfind : (findVmaIntersection x y l).isSome = false) {v : Vma} (hv : v ∈ l) (hx : x < v.vmEnd) : y ≤ v.vmStart := by
  induction l with
  | nil => cases hv
  | cons w l ih =>
    have hrest := h.sublist (List.sublist_cons_self w l)
    simp only [findVmaIntersection, findVma, List.find?_cons] at hfind ih
    by_cases hw : x < w.vmEnd
    · have hstart : y ≤ w.vmStart := by
        by_contra hlt
        simp [hw, Option.filter, not_le.mp hlt] at hfind
      rcases List.mem_cons.mp hv with rfl | hv
      · exact hstart
      · have hbefore : w.vmEnd ≤ v.vmStart := (List.pairwise_cons.mp h.sorted).1 v hv
        have hne := (h.valid w List.mem_cons_self).nonempty
        omega
    · rcases List.mem_cons.mp hv with rfl | hv
      · exact absurd hx hw
      · simp only [hw, decide_false] at hfind
        exact ih hrest hfind hv

theorem pageAlign_cases {x : ℕ} (hx : x < wordSize) :
    (x ≤ wordSize - pageSize ∧ x ≤ pageAlign x ∧ pageAlign x < x + pageSize) ∨
      (wordSize - pageSize < x ∧ pageAlign x = 0) := by
  unfold pageAlign pageSize wordSize at *
  omega

theorem grow_fine {kmalloc : ℕ → Bool} {oldbrk newbrk : ℕ} {s : Space} (h : WellFormed s.mmap)
    (hold : pageSize ∣ oldbrk) (hnew : pageSize ∣ newbrk) (holdlt : oldbrk < wordSize)
    (hnewlt : newbrk < wordSize) (hne : oldbrk ≠ newbrk)
    (hfree : (findVmaIntersection oldbrk ((newbrk + pageSize) % wordSize) s.mmap).isSome = false)
    {files : ℕ → File} {fds : ℕ → Option ℕ} {file : Option ℕ}
    (hcheck : checkMmap files fds (brkArgs oldbrk (sub32 newbrk oldbrk)) = .ok file) :
    oldbrk < newbrk ∧ newbrk ≤ kernelBase ∧ MmapFine files fds kmalloc (brkArgs oldbrk (sub32 newbrk oldbrk)) s := by
  have hacc := checkMmap_ok hcheck
  have hfits : oldbrk + pageAlign (sub32 newbrk oldbrk) ≤ kernelBase := hacc.fits
  have hnonempty : pageAlign (sub32 newbrk oldbrk) ≠ 0 := hacc.nonempty
  have hlen : pageAlign (sub32 newbrk oldbrk) = sub32 newbrk oldbrk := by
    obtain ⟨i, rfl⟩ := hold
    obtain ⟨j, rfl⟩ := hnew
    unfold sub32 pageAlign pageSize wordSize at *
    omega
  have horder : oldbrk < newbrk ∧ newbrk ≤ kernelBase ∧ oldbrk + sub32 newbrk oldbrk = newbrk := by
    rw [hlen] at hfits
    unfold sub32 wordSize kernelBase at *
    omega
  obtain ⟨hlt, hle, hend⟩ := horder
  refine ⟨hlt, hle, fun _ => ⟨?_, ?_⟩⟩
  · -- no area has an end of the range inside
    have hnocut : ∀ x, oldbrk ≤ x → x ≤ newbrk → cutsAt x s.mmap = 0 := by
      intro x hlow hhigh
      refine List.countP_eq_zero.mpr fun v hv hcut => ?_
      simp only [decide_eq_true_eq] at hcut
      have hstart := not_findVmaIntersection h hfree hv (by omega)
      unfold pageSize wordSize kernelBase at *
      omega
    intro k hk
    dsimp only [brkArgs] at hk
    rw [hlen, hend, hnocut oldbrk le_rfl hlt.le, hnocut newbrk hlt.le le_rfl] at hk
    omega
  · rintro ⟨file, e, hfile, harea⟩
    have hanon : (brkArgs oldbrk (sub32 newbrk oldbrk)).anonymous = true :=
      (by decide : Nat.testBit 0x32 5 = true)
    have hnone : mmapFile fds (brkArgs oldbrk (sub32 newbrk oldbrk)) = .ok none := by
      rw [mmapFile, if_pos hanon]
      exact if_pos rfl
    obtain rfl := Except.ok.inj (hnone.symm.trans hfile)
    cases harea

/-- The call of `do_mmap` in `sys_brk` succeeds or leaves everything, and it succeeds only for a
break below `KERNEL_BASE`. -/
theorem grow_atomic {kmalloc : ℕ → Bool} {oldbrk newbrk : ℕ} {m : MmStruct}
    (h : WellFormed m.space.mmap) (hold : pageSize ∣ oldbrk) (hnew : pageSize ∣ newbrk)
    (holdlt : oldbrk < wordSize) (hnewlt : newbrk < wordSize) (hne : oldbrk ≠ newbrk)
    (hfree : (findVmaIntersection oldbrk ((newbrk + pageSize) % wordSize) m.space.mmap).isSome =
      false) (files : ℕ → File) (fds : ℕ → Option ℕ) :
    ∃ s' r, doMmap files fds kmalloc (brkArgs oldbrk (sub32 newbrk oldbrk)) m.space = some (s', r) ∧
      ((∃ e, r = .error e ∧ view s'.mmap = view m.space.mmap ∧
          ranges s'.mmap = ranges m.space.mmap) ∨
        ((∃ x, r = .ok x) ∧ oldbrk < newbrk ∧ newbrk ≤ kernelBase)) := by
  cases hcheck : checkMmap files fds (brkArgs oldbrk (sub32 newbrk oldbrk)) with
  | error e => exact ⟨m.space, .error e, by rw [doMmap, hcheck], Or.inl ⟨e, rfl, rfl, rfl⟩⟩
  | ok file =>
    obtain ⟨hlt, hle, hfine⟩ := @grow_fine kmalloc oldbrk newbrk m.space h hold hnew holdlt hnewlt
      hne hfree files fds file hcheck
    obtain ⟨m', r, hdo, hsame⟩ := (mmap_atomic_iff h).mpr hfine
    rw [MmStruct.doMmap] at hdo
    obtain ⟨⟨s', r'⟩, hs', hpair⟩ := Option.map_eq_some_iff.mp hdo
    cases hpair
    refine ⟨s', r', hs', ?_⟩
    cases r' with
    | error e =>
      have herr : IsError (.error e) := trivial
      obtain ⟨hview, hranges, -⟩ := hsame herr
      exact Or.inl ⟨e, rfl, hview, hranges⟩
    | ok x => exact Or.inr ⟨⟨x, rfl⟩, hlt, hle⟩

/-- `sys_brk` fails without a trace, or succeeds, exactly when the call is fine. -/
theorem brk_atomic_iff {kmalloc : ℕ → Bool} {brk : ℕ} {m : MmStruct}
    (h : WellFormed m.space.mmap) (hbrk : brk < wordSize) (hm : m.brk < wordSize) :
    Atomic m (sysBrk kmalloc brk m) ↔ BrkFine kmalloc brk m := by
  have hcases := pageAlign_cases hbrk
  have hcases' := pageAlign_cases hm
  by_cases hzero : brk = 0
  · rw [sysBrk, if_pos hzero]
    exact ⟨fun _ hne => absurd hzero hne, fun _ => ⟨m, _, rfl, fun _ => ⟨rfl, rfl, rfl⟩⟩⟩
  by_cases hbelow : brk < m.startBrk
  · rw [sysBrk, if_neg hzero, if_pos hbelow]
    constructor
    · rintro ⟨m', x, hnone, -⟩
      cases hnone
    · intro hfine
      have hstart := (hfine hzero).1
      omega
  by_cases hsame : pageAlign m.brk = pageAlign brk
  · rw [sysBrk, if_neg hzero, if_neg hbelow, if_pos hsame]
    constructor
    · rintro ⟨m', x, hdo, herr⟩ -
      cases hdo
      refine ⟨by omega, by omega, fun hhigh _ => ?_⟩
      exact (herr hhigh).2.2.symm
    · intro hfine
      refine ⟨_, _, rfl, fun herr => ⟨rfl, rfl, ?_⟩⟩
      have hhigh : wordSize - pageSize < brk := herr
      exact ((hfine hzero).2.2 hhigh (by omega)).symm
  by_cases hshrink : brk < m.brk
  · rw [sysBrk, if_neg hzero, if_neg hbelow, if_neg hsame, if_pos hshrink]
    by_cases hinvalid : MunmapInvalid (pageAlign brk) (sub32 (pageAlign m.brk) (pageAlign brk))
    · rw [doMunmap, if_pos hinvalid]
      refine ⟨fun _ _ => ⟨by omega, fun _ hlt hle => ?_, by omega⟩, fun _ => ⟨_, _, rfl, fun _ => ⟨rfl, rfl, rfl⟩⟩⟩
      exfalso
      have hdvd := pageSize_dvd_pageAlign brk
      unfold MunmapInvalid sub32 pageSize wordSize kernelBase at *
      omega
    · obtain ⟨hlt, hle, hlen⟩ : pageAlign brk < pageAlign m.brk ∧ pageAlign m.brk ≤ kernelBase ∧
          pageAlign (sub32 (pageAlign m.brk) (pageAlign brk)) = pageAlign m.brk - pageAlign brk := by
        have hlt' := pageAlign_lt m.brk
        have hdvd := pageSize_dvd_pageAlign brk
        have hdvd' := pageSize_dvd_pageAlign m.brk
        have horder : pageAlign brk < pageAlign m.brk ∧ pageAlign m.brk ≤ kernelBase := by
          unfold MunmapInvalid sub32 at hinvalid
          unfold wordSize kernelBase at *
          omega
        refine ⟨horder.1, horder.2, ?_⟩
        rw [sub32_eq horder.1.le hlt']
        exact pageAlign_of_dvd (Nat.dvd_sub hdvd' hdvd) ((Nat.sub_le ..).trans horder.2)
      obtain ⟨hserved, hunserved⟩ := @doMunmap_eq kmalloc (pageAlign brk)
        (sub32 (pageAlign m.brk) (pageAlign brk)) m.space h hinvalid (by omega)
      rw [hlen, Nat.add_sub_cancel' hlt.le] at hserved hunserved
      by_cases hpieces : PiecesServed kmalloc (pageAlign brk) (pageAlign m.brk) m.space.fresh m.space.mmap
      · obtain ⟨others, howns⟩ := exists_ownsFiles m.space
        obtain ⟨s', hs', -⟩ := doMunmap_spec h howns hinvalid
        rw [hserved hpieces, hs']
        refine ⟨fun _ _ => ⟨by omega, fun _ _ _ => hpieces, by omega⟩, fun _ => ?_⟩
        refine ⟨_, _, rfl, fun herr => absurd herr (not_isError_of_le ?_)⟩
        omega
      · rw [hunserved hpieces]
        constructor
        · rintro ⟨m', x, hnone, -⟩
          cases hnone
        · intro hfine
          exact absurd ((hfine hzero).2.1 hshrink hlt hle) hpieces
  · have hfine : BrkFine kmalloc brk m := fun _ =>
      ⟨by omega, fun hlt => absurd hlt hshrink, by omega⟩
    refine ⟨fun _ => hfine, fun _ => ?_⟩
    rw [sysBrk, if_neg hzero, if_neg hbelow, if_neg hsame, if_neg hshrink]
    split_ifs with hlimit hfound
    · exact ⟨_, _, rfl, fun _ => ⟨rfl, rfl, rfl⟩⟩
    · exact ⟨_, _, rfl, fun _ => ⟨rfl, rfl, rfl⟩⟩
    · obtain ⟨s', r, hdo, hresult⟩ := @grow_atomic kmalloc (pageAlign m.brk) (pageAlign brk) m h
        (pageSize_dvd_pageAlign _) (pageSize_dvd_pageAlign _) (pageAlign_lt _) (pageAlign_lt _) hsame
        (Bool.not_eq_true _ ▸ hfound) (fun _ => ⟨0, none, none⟩) (fun _ => none)
      rw [hdo]
      rcases hresult with ⟨e, rfl, hview, hranges⟩ | ⟨⟨x, rfl⟩, hlt, hle⟩
      · exact ⟨_, _, rfl, fun _ => ⟨hview, hranges, rfl⟩⟩
      · refine ⟨_, _, rfl, fun herr => absurd herr (not_isError_of_le ?_)⟩
        omega

/-- For every well-formed address space, whichever structures get memory: `do_mmap` triggers no
assertion and leaves the address space when it fails, exactly when it does not come to unmapping, or
gets its memory and does not unmap something before the file refuses; `sys_brk` exactly when the break
is not below the first one, the pieces of a cut area get memory, and no break that reads as an error
is set. -/
theorem atomic_iff {m : MmStruct} (h : WellFormed m.space.mmap) (hm : m.brk < wordSize)
    (files : ℕ → File) (fds : ℕ → Option ℕ) (kmalloc : ℕ → Bool) (a : MmapArgs) {brk : ℕ}
    (hbrk : brk < wordSize) :
    (Atomic m (m.doMmap files fds kmalloc a) ↔ MmapFine files fds kmalloc a m.space) ∧
      (Atomic m (sysBrk kmalloc brk m) ↔ BrkFine kmalloc brk m) :=
  ⟨mmap_atomic_iff h, brk_atomic_iff h hbrk hm⟩

/-- A process with one file area, and a heap at `0x8000`. -/
def heapMm : MmStruct where
  space := fileSpace
  startBrk := 0x8000
  brk := 0x8000
  endCode := 0x1000
  rlimData := 0x100000

/-- Growing the heap by a page, with memory for all. -/
theorem atomic_iff_heapMm : Atomic heapMm (sysBrk (fun _ => true) 0x9000 heapMm) :=
  (atomic_iff fileSpace_wellFormed (by decide) (fun _ => ⟨3, none, none⟩) (fun _ => none)
    (fun _ => true) (brkArgs 0 0) (by decide)).2.mpr
      fun _ => ⟨by decide, fun hlt => absurd hlt (by decide), by decide⟩

/-- A shared writable mapping of a file on a file system that is mounted read-only. -/
def refusedArgs : MmapArgs := ⟨0x2000, 0x1000, 3, 0x11, 0, 0⟩

/-- A file that is open for writing. -/
def refusingFile : File := ⟨3, some ⟨5, some true, true⟩, some ⟨true, true, true⟩⟩

/-- `brk(1)` fails an assertion, and a mapping that the file refuses has removed a page. -/
theorem heapMm_not_atomic :
    ¬ Atomic heapMm (sysBrk (fun _ => true) 1 heapMm) ∧
      ¬ Atomic heapMm (heapMm.doMmap (fun _ => refusingFile) (fun _ => some 8) (fun _ => true)
        refusedArgs) := by
  constructor
  · intro hatomic
    have hfine := (brk_atomic_iff fileSpace_wellFormed (by decide) (by decide)).mp hatomic
    exact absurd (hfine (by decide)).1 (by decide)
  · intro hatomic
    have hfine := (mmap_atomic_iff fileSpace_wellFormed).mp hatomic
    have hunmaps : unmapsFirst (fun _ => refusingFile) (fun _ => some 8) refusedArgs true = true := by
      decide
    have hrefused : Refused (fun _ => refusingFile) (fun _ => some 8) refusedArgs :=
      ⟨some 8, .EROFS, by decide, by decide⟩
    have hout := (hfine hunmaps).2 hrefused
    revert hout
    decide

end Mario.Mm.Scarce
