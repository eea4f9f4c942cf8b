import Mario.Lib.Runs
import Mario.Mm.Mmap
import Mario.Mm.VmaList

/-!
# Threads that share an address space

The calls of `mm/mm.c` and `do_page_fault` as they interleave in threads made
with `CLONE_VM`. A thread takes at most one critical section of `mm_lock` in a
step, so every point at which another thread can run is the end of a step. What
a call keeps in its local variables between two critical sections is its `Pc`.

`do_munmap` takes areas out in one critical section and puts what is left of
them back in later ones; `do_mmap` with `MAP_FIXED` does the same before it
inserts its own area; a page fault looks its area up in one critical section and
moves `vm_start` afterwards without the lock.
-/

namespace Mario.Threads

open Mario.Mm

/-- What the caller of `do_munmap` does next. -/
inductive After
  | ret
  | setBrk (brk : ℕ)
  /-- `do_mmap` inserts its area; `sys_brk` sets the break afterwards. -/
  | insert (area : Vma) (brk : Option ℕ)

/-- Where a thread is between two critical sections. -/
inductive Pc
  | idle
  /-- In the second loop of `do_munmap`: the unlinked areas, and the area that
  `unmap_fixup` has truncated and still has to put back. -/
  | unmap (addr fin : ℕ) (free : List Vma) (cut : Option Vma) (after : After)
  | insert (area : Vma) (brk : Option ℕ)
  | merge (brk : Option ℕ)
  /-- In `sys_brk`, after it found no area in the way. -/
  | brkMap (oldbrk len brk : ℕ)
  /-- In `do_page_fault`, after `find_vma`. -/
  | fault (ptr addr : ℕ)

/-- The address space and where its threads are. -/
structure State where
  mmap : List Vma
  fresh : ℕ
  brk : ℕ
  pcs : ℕ → Pc

/-- What the calls read and never write. -/
structure Env where
  startBrk : ℕ
  endCode : ℕ
  /-- `rlim[RLIMIT_DATA].rlim_cur`. -/
  rlimData : ℕ
  /-- `rlim[RLIMIT_STACK].rlim_cur`. -/
  rlimStack : ℕ

/-- The calls. A mapping call is given the files and descriptors it finds. -/
inductive Call
  | mmap (files : ℕ → File) (fds : ℕ → Option ℕ) (a : MmapArgs)
  | munmap (addr len : ℕ)
  | brk (brk : ℕ)
  | mprotect (start len : ℕ) (prot : VmFlags)
  | merge
  | fault (addr : ℕ)

/-- A thread starts a call, or goes on with the one it is in. -/
abbrev Label := ℕ × Option Call

/-- Subtraction of two words. -/
def wordSub (x y : ℕ) : ℕ := (x + wordSize - y) % wordSize

def setPc (t : ℕ) (pc : Pc) (s : State) : State := { s with pcs := Function.update s.pcs t pc }

/-- The first critical section of `do_munmap`. -/
def beginUnmap (t addr len : ℕ) (after : After) (s : State) : State :=
  let walk := unlinkRange addr (addr + len) [] s.mmap
  setPc t (.unmap addr (addr + len) walk.2 none after) { s with mmap := walk.1 }

/-- `insert_vm_struct`, and the thread goes to another place. A structure is given
its address when it is linked; nobody else sees it before. -/
def insertArea (t : ℕ) (w : Vma) (pc : Pc) (s : State) : Option State :=
  (insertVmStruct { w with ptr := s.fresh } s.mmap).map fun l =>
    setPc t pc { s with mmap := l, fresh := s.fresh + 1 }

/-- `do_mmap` up to the end of its first critical section. -/
def startMmap (t : ℕ) (files : ℕ → File) (fds : ℕ → Option ℕ) (a : MmapArgs) (brk : Option ℕ)
    (s : State) : Option State :=
  match checkMmap files fds a with
  | .error _ => some (setPc t .idle s)
  | .ok file =>
      if a.fixed then
        match mmapArea files file (allocVma a a.addr file s.fresh) with
        | .error _ => some (beginUnmap t a.addr (pageAlign a.len) .ret s)
        | .ok w => some (beginUnmap t a.addr (pageAlign a.len) (.insert w brk) s)
      else
        let addr := getUnmappedArea a.addr (pageAlign a.len) s.mmap
        if addr = 0 then some (setPc t .idle s)
        else
          match mmapArea files file (allocVma a addr file s.fresh) with
          | .error _ => some (setPc t .idle s)
          | .ok w => insertArea t w (.merge brk) s

/-- `do_munmap` up to the end of its first critical section. -/
def startMunmap (t addr len : ℕ) (after : After) (s : State) : State :=
  if MunmapInvalid addr len then s
  else if pageAlign len = 0 then s
  else beginUnmap t addr (pageAlign len) after s

/-- The arguments of the `do_mmap` that `sys_brk` calls. -/
def brkArgs (oldbrk len : ℕ) : MmapArgs :=
  { addr := oldbrk, len := len, prot := 7, flags := 0x32, fd := wordSize - 1, off := 0 }

/-- `sys_brk` up to the end of its first critical section. -/
def startBrk (env : Env) (t brk : ℕ) (s : State) : State :=
  let newbrk := pageAlign brk
  let oldbrk := pageAlign s.brk
  if brk = 0 then s
  else if oldbrk = newbrk then { s with brk := brk }
  else if brk < s.brk then startMunmap t newbrk (wordSub oldbrk newbrk) (.setBrk brk) s
  else if env.rlimData < wordSub brk env.endCode then s
  else if (findVmaIntersection oldbrk ((newbrk + pageSize) % wordSize) s.mmap).isSome then s
  else setPc t (.brkMap oldbrk (wordSub newbrk oldbrk) brk) s

/-- `sys_mprotect`. -/
def mprotect (start len : ℕ) (prot : VmFlags) (s : State) : State :=
  if kernelBase < start ∨ kernelBase - start < len then s
  else if pageAlign len = 0 then s
  else
    { s with mmap := protectAreas (pageMask start) (pageMask start + pageAlign len) prot s.mmap }

/-- What `do_page_fault` does to the area it has found. -/
def faultArea (env : Env) (addr : ℕ) (v : Vma) : Vma :=
  if v.vmStart ≤ addr then v
  else if !v.vmFlags.growsdown then v
  else if env.rlimStack < wordSub v.vmEnd addr then v
  else growDown addr v

/-- A write to the structure at `ptr`. -/
def onPtr (ptr : ℕ) (f : Vma → Vma) (v : Vma) : Vma := if v.ptr = ptr then f v else v

/-- A write to structures that a thread has unlinked. -/
def Pc.mapFree (f : Vma → Vma) : Pc → Pc
  | .unmap addr fin free cut after => .unmap addr fin (free.map f) (cut.map f) after
  | pc => pc

/-- A thread goes on after `do_munmap`. -/
def finishUnmap (t : ℕ) (after : After) (s : State) : State :=
  match after with
  | .ret => setPc t .idle s
  | .setBrk brk => setPc t .idle { s with brk := brk }
  | .insert area brk => setPc t (.insert area brk) s

/-- One more step of a call. -/
def resume (env : Env) (t : ℕ) (s : State) : Option State :=
  match s.pcs t with
  | .idle => some s
  | .unmap addr fin free (some v) after =>
      insertArea t v (.unmap addr fin free none after) s
  | .unmap addr fin (v :: free) none after =>
      match unmapPieces v (max addr v.vmStart) (min fin v.vmEnd) s.fresh with
      | [] => some (setPc t (.unmap addr fin free none after) s)
      | w :: ws =>
          -- the second piece is built from the truncated area, which keeps its address
          let cut := ws.head?.map fun u => { u with ptr := v.ptr }
          insertArea t w (.unmap addr fin free cut after) s
  | .unmap _ _ [] none after => some (finishUnmap t after s)
  | .insert area brk => insertArea t area (.merge brk) s
  | .merge brk =>
      some (setPc t .idle { s with mmap := mergeMmap s.mmap, brk := brk.getD s.brk })
  | .brkMap oldbrk len brk =>
      startMmap t (fun _ => ⟨0, none, none⟩) (fun _ => none) (brkArgs oldbrk len) (some brk) s
  | .fault ptr addr =>
      let write := onPtr ptr (faultArea env addr)
      some (setPc t .idle
        { s with mmap := s.mmap.map write, pcs := fun u => (s.pcs u).mapFree write })

/-- The state after a step; `none` when an assertion fails. -/
def exec (env : Env) (s : State) : Label → Option State
  | (t, none) => resume env t s
  | (t, some (.mmap files fds a)) => startMmap t files fds a none s
  | (t, some (.munmap addr len)) => some (startMunmap t addr len .ret s)
  | (t, some (.brk brk)) => some (startBrk env t brk s)
  | (_, some (.mprotect start len prot)) => some (mprotect start len prot s)
  | (_, some .merge) => some { s with mmap := mergeMmap s.mmap }
  | (t, some (.fault addr)) =>
      match findVma addr s.mmap with
      | none => some s
      | some v => some (setPc t (.fault v.ptr addr) s)

/-- A thread is in no call. -/
def Pc.isIdle : Pc → Bool
  | .idle => true
  | _ => false

/-- A thread is in at most one call, and `sys_brk` does not stop in its own
assertion. -/
def Legal (env : Env) (s : State) : Label → Prop
  | (t, none) => (s.pcs t).isIdle = false
  | (t, some (.brk brk)) => (s.pcs t).isIdle = true ∧ (brk = 0 ∨ env.startBrk ≤ brk)
  | (t, some _) => (s.pcs t).isIdle = true

instance (env : Env) (s : State) : ∀ lab, Decidable (Legal env s lab)
  | (_, none) => inferInstanceAs (Decidable (_ = _))
  | (_, some (.brk _)) => inferInstanceAs (Decidable (_ ∧ _))
  | (_, some (.mmap ..)) => inferInstanceAs (Decidable (_ = _))
  | (_, some (.munmap ..)) => inferInstanceAs (Decidable (_ = _))
  | (_, some (.mprotect ..)) => inferInstanceAs (Decidable (_ = _))
  | (_, some .merge) => inferInstanceAs (Decidable (_ = _))
  | (_, some (.fault _)) => inferInstanceAs (Decidable (_ = _))

def Step (env : Env) : State → Label → State → Prop := Lib.Partial (Legal env) (exec env)

/-! ## What a thread still has to map -/

/-- Two ranges of addresses have none in common. -/
def RangeApart (r q : ℕ × ℕ) : Prop := r.2 ≤ q.1 ∨ q.2 ≤ r.1

/-- The addresses of an area. -/
def range (v : Vma) : ℕ × ℕ := (v.vmStart, v.vmEnd)

/-- The range that the caller of `do_munmap` still has to map. -/
def After.pending : After → List (ℕ × ℕ)
  | .insert area _ => [range area]
  | _ => []

/-- The ranges that a thread has unlinked or announced and still has to map. -/
def Pc.pending : Pc → List (ℕ × ℕ)
  | .unmap addr fin free cut after =>
      (free.flatMap fun v => (remains v addr fin 0).map range) ++
        (cut.toList.map range ++ after.pending)
  | .insert area _ => [range area]
  | _ => []

/-- No other thread is about to map a part of the range. -/
def NonePending (s : State) (t : ℕ) (r : ℕ × ℕ) : Prop :=
  ∀ u, u ≠ t → ∀ q ∈ (s.pcs u).pending, RangeApart r q

/-- No fault of another thread is about to grow its area into the range. -/
def NoneGrowing (s : State) (t : ℕ) (r : ℕ × ℕ) : Prop :=
  ∀ u, u ≠ t → ∀ ptr addr, s.pcs u = .fault ptr addr →
    ∀ v ∈ s.mmap, v.ptr = ptr → v.vmFlags.growsdown = true →
      RangeApart r (pageMask addr, v.vmStart)

/-- The areas that the faults of other threads have found are among `l`. -/
def FaultsKept (s : State) (t : ℕ) (l : List Vma) : Prop :=
  ∀ u, u ≠ t → ∀ ptr addr, s.pcs u = .fault ptr addr → ∃ v ∈ l, v.ptr = ptr

/-- The condition on an unmapping: no area that a fault has found is unlinked. -/
def GoodUnmap (s : State) (t addr len : ℕ) : Prop :=
  ¬ MunmapInvalid addr len → pageAlign len ≠ 0 →
    FaultsKept s t (unlinkRange addr (addr + pageAlign len) [] s.mmap).1

/-- The condition on a mapping: no other thread is about to map a part of it. -/
def GoodMmap (s : State) (t : ℕ) (files : ℕ → File) (fds : ℕ → Option ℕ) (a : MmapArgs) : Prop :=
  ∀ file, checkMmap files fds a = .ok file →
    if a.fixed then
      (∀ w, mmapArea files file (allocVma a a.addr file s.fresh) = .ok w →
        NonePending s t (range w) ∧ NoneGrowing s t (range w)) ∧
      GoodUnmap s t a.addr (pageAlign a.len)
    else
      let addr := getUnmappedArea a.addr (pageAlign a.len) s.mmap
      ∀ w, addr ≠ 0 → mmapArea files file (allocVma a addr file s.fresh) = .ok w →
        NonePending s t (range w) ∧ NoneGrowing s t (range w)

/-- No step maps pages that another thread has unlinked or announced and still has
to map, and no step unlinks an area that another thread's fault has found. -/
def Good (s : State) : Label → Prop
  | (t, some (.mmap files fds a)) => GoodMmap s t files fds a
  | (t, some (.munmap addr len)) => GoodUnmap s t addr len
  | (t, some (.brk brk)) =>
      brk < s.brk → GoodUnmap s t (pageAlign brk) (wordSub (pageAlign s.brk) (pageAlign brk))
  | (_, some (.mprotect ..)) => True
  | (t, some .merge) => FaultsKept s t (mergeMmap s.mmap)
  | (t, some (.fault addr)) =>
      ∀ v, findVma addr s.mmap = some v → v.vmFlags.growsdown = true →
        NonePending s t (pageMask addr, v.vmStart)
  | (t, none) =>
      match s.pcs t with
      | .brkMap oldbrk len _ =>
          GoodMmap s t (fun _ => ⟨0, none, none⟩) (fun _ => none) (brkArgs oldbrk len)
      | .merge _ => FaultsKept s t (mergeMmap s.mmap)
      | _ => True

end Mario.Threads
