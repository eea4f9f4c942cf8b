import Mario.Lib.Runs
import Mario.Mm.Memory

/-!
# Processes

The calls of `mm/fault.c`, `mm/paging.c`, `mm/mm.c` and `kernel/fork.c` that change
address spaces, for any number of processes. A call runs to its end before the next
one starts. User programs read and write memory: an access that the page table
does not allow is a page fault, and a store that it allows changes a frame.

Page tables are allocated with `get_zero_page` as user pages are; which of these
allocations fail is part of the answers, and the pages themselves are among the
frames that the kernel takes with `hold`.
-/

namespace Mario.Paging

open Mario.Mm Mario.Lib Function

/-- An address space with the descriptors of its process. -/
structure Proc where
  mmap : List Vma
  pt : PageTable
  fds : ℕ → Option ℕ

/-- `vm_next_share` and `vm_prev_share`, by the addresses of the structures. -/
structure Ring where
  next : ℕ → ℕ
  prev : ℕ → ℕ

structure Machine where
  procs : Table ℕ Proc
  mem : Memory
  /-- The address of the next area structure. -/
  fresh : ℕ
  /-- The references of the open files. -/
  frefs : ℕ → ℤ
  ring : Ring

/-- `remove_shared_vm_struct`. -/
def Ring.remove (r : Ring) (v : Vma) : Ring :=
  let prev := update r.prev (r.next v.ptr) (r.prev v.ptr)
  { next := update (update r.next (r.prev v.ptr) (r.next v.ptr)) v.ptr v.ptr
    prev := update prev v.ptr v.ptr }

/-- An area that is alone in its ring. -/
def Ring.alone (r : Ring) (ptr : ℕ) : Ring :=
  { next := update r.next ptr ptr, prev := update r.prev ptr ptr }

/-- The structures that a call makes, each alone in its ring. -/
def Ring.made (r : Ring) (fresh fresh' : ℕ) : Ring :=
  (List.range' fresh (fresh' - fresh)).foldl Ring.alone r

/-- The links that `dup_mmap` sets for the copy at `tmp` of a shared area. -/
def Ring.insertAfter (r : Ring) (v : Vma) (tmp : ℕ) : Ring :=
  { next := update (update r.next tmp (r.next v.ptr)) v.ptr tmp
    prev := update (update r.prev (r.next v.ptr) tmp) tmp v.ptr }

/-- The address space of a process, with what the mapping calls use of the rest. -/
def Machine.space (s : Machine) (P : Proc) : Space := ⟨P.mmap, s.fresh, s.frefs⟩

/-! ## Page faults -/

/-- The process and area at an address that a share ring holds. -/
def findPtr (s : Machine) (ptr : ℕ) : Option (Proc × Vma) :=
  (Table.values s.procs).findSome? fun P => (P.mmap.find? fun v => v.ptr == ptr).map fun v => (P, v)

/-- `get_one`: the frame at an address; a zero result is no result. -/
def getOne (k : Kernel) (P : Proc) (addr : ℕ) : Option ℕ :=
  (P.pt.lookup (addr / pageSize)).bind fun pte =>
    if pteBad k pte = false ∧ pte.frame ≠ 0 then some pte.frame else none

/-- The loop of `get_shared_page` from `mpnt` on. -/
def walkRing (k : Kernel) (s : Machine) (v : Vma) (addr : ℕ) : ℕ → ℕ → Option ℕ
  | 0, _ => none
  | fuel + 1, mpnt =>
      if mpnt = v.ptr then none
      else
        (findPtr s mpnt).bind fun (P, w) =>
          match getOne k P (addr - v.vmStart + w.vmStart) with
          | some f => some f
          | none => walkRing k s v addr fuel (s.ring.next mpnt)

/-- `get_shared_page`, up to its reference: the frame that it finds. There are fewer
structures than `fresh`, so a walk that long would not end. -/
def getSharedPage (k : Kernel) (s : Machine) (v : Vma) (addr : ℕ) : Option ℕ :=
  if v.vmFlags.shared then walkRing k s v addr s.fresh (s.ring.next v.ptr) else none

/-- The page of an inode that `filemap_nopage` asks the page cache for; none when it or
`filemap_get_page` refuses the request. -/
def filePage (k : Kernel) (v : Vma) (pg : ℕ) : Option (ℕ × ℕ) :=
  v.vmFile.bind fun f => (inodeOf k f).bind fun ino =>
    if (k.files f).fOp.isNone ∨ v.pos (pg * pageSize) % pageSize ≠ 0 then none
    else some (ino, v.pos (pg * pageSize) / pageSize)

def filemapNopage (k : Kernel) (v : Vma) (pg : ℕ) (page : Option ℕ) (m : Memory) :
    Option (Memory × Option ℕ) :=
  match filePage k v pg with
  | none => some (m, none)
  | some (ino, index) => filemapGetPage ino index page m

/-- The attributes that `do_no_page` gives a page of a file. -/
def nopageProt (v : Vma) : PageProt :=
  if v.vmFile.isSome && v.vmFlags.write && !v.vmFlags.shared then
    { v.vmPageProt with rw := false }
  else v.vmPageProt

def mkPte (f : ℕ) (prot : PageProt) : Pte := ⟨f, prot.user, prot.rw, false⟩

/-- What a page fault is told: whether there is a page table or `alloc_pt` finds one, and
the frame that `get_zero_page` finds. -/
structure Answer where
  pt : Bool
  page : Option ℕ

/-- `do_no_page`, given the frame that `get_shared_page` finds. It gives that frame's
physical address to `ref_page(VIR_TO_PAGE(..))` and to `mk_pte`, which expect a virtual
one. -/
def doNoPage (k : Kernel) (v : Vma) (pg : ℕ) (shared : Option ℕ) (ans : Answer)
    (x : PageTable × Memory) : Option (PageTable × Memory) :=
  if ans.pt = false then some x
  else
    match v.vmOps with
    | none =>
        match ans.page with
        | none => some (installBad k pg x)
        | some g => (getZeroPage g x.2).map fun m => (x.1.insert pg (mkPte g v.vmPageProt), m)
    | some _ =>
        match shared with
        | some f =>
            some (x.1.insert pg (mkPte (crossed f) (nopageProt v)), refPages [crossed f] x.2)
        | none =>
            (filemapNopage k v pg ans.page x.2).map fun
              | (m, some f) => (x.1.insert pg (mkPte f (nopageProt v)), m)
              | (m, none) => installBad k pg (x.1, m)

def doWpPage (k : Kernel) (v : Vma) (pg : ℕ) (pte : Pte) (ans : Answer) (x : PageTable × Memory) :
    Option (PageTable × Memory) :=
  if v.vmFlags.shared = true ∨ x.2.pool.count pte.frame = 1 then
    some (x.1.insert pg { pte with rw := true }, x.2)
  else
    match ans.page with
    | none => some (installBad k pg x)
    | some g =>
        (getZeroPage g x.2).map fun m =>
          (x.1.insert pg (mkPte g v.vmPageProt),
            putPages [pte.frame] { m with data := update m.data g (m.data pte.frame) })

/-- The checks at `good_area` fail. -/
def faultDenied (v : Vma) (present write : Bool) : Bool :=
  if write then !v.vmFlags.write else present || !(v.vmFlags.read || v.vmFlags.exec)

/-- The area of a page fault and the areas after it, with the stack growth. -/
def faultArea (k : Kernel) (addr : ℕ) (l : List Vma) : Option (Vma × List Vma) :=
  (findVma addr l).bind fun v =>
    if v.vmStart ≤ addr then some (v, l)
    else if v.vmFlags.growsdown = false ∨ k.rlimStack < v.vmEnd - addr then none
    else some (growDown addr v, growFirst addr l)

def Machine.setProc (s : Machine) (p : ℕ) (P : Proc) (m : Memory) : Machine :=
  { s with procs := s.procs.insert p P, mem := m }

/-- The page that `do_page_fault` maps or copies for an access to an area. -/
def faultPage (k : Kernel) (P : Proc) (v : Vma) (addr : ℕ) (ans : Answer) (s : Machine) :
    Option (PageTable × Memory) :=
  match P.pt.lookup (addr / pageSize) with
  | some pte => doWpPage k v (addr / pageSize) pte ans (P.pt, s.mem)
  | none => doNoPage k v (addr / pageSize) (getSharedPage k s v addr) ans (P.pt, s.mem)

/-- `do_page_fault` for an access of a process. -/
def doPageFault (k : Kernel) (p : ℕ) (P : Proc) (addr : ℕ) (write : Bool) (ans : Answer)
    (s : Machine) : Option Machine :=
  match faultArea k addr P.mmap with
  | none => some s
  | some (v, l) =>
      if faultDenied v (P.pt.lookup (addr / pageSize)).isSome write then
        some (s.setProc p { P with mmap := l } s.mem)
      else
        (faultPage k P v addr ans s).map fun x =>
          s.setProc p { P with mmap := l, pt := x.1 } x.2

/-- The page table allows the access. -/
def allows (pt : PageTable) (addr : ℕ) (write : Bool) : Bool :=
  (pt.lookup (addr / pageSize)).any fun pte => pte.user && (!write || pte.rw)

/-- Change a byte of a frame. -/
def storeByte (f o byte : ℕ) (m : Memory) : Memory :=
  { m with data := update m.data f (update (m.data f) o byte) }

/-- A store that the page table allows. -/
def store (p : ℕ) (P : Proc) (addr byte : ℕ) (s : Machine) : Option Machine :=
  (P.pt.lookup (addr / pageSize)).bind fun pte =>
    if pte.user && pte.rw then
      some (s.setProc p { P with pt := P.pt.insert (addr / pageSize) { pte with dirty := true } }
        (storeByte pte.frame (addr % pageSize) byte s.mem))
    else none

/-! ## Mapping calls -/

/-- `do_munmap`. -/
def sysMunmap (k : Kernel) (p : ℕ) (P : Proc) (addr len : ℕ) (io : ℕ → ℕ → ℕ) (s : Machine) :
    Option Machine :=
  (doMunmap addr len (s.space P)).map fun r =>
    let x := munmapPages k addr len io P.mmap (P.pt, s.mem)
    let gone := if MunmapInvalid addr len ∨ pageAlign len = 0 then []
      else (unlinkRange addr (addr + pageAlign len) [] P.mmap).2
    { s.setProc p { P with mmap := r.1.mmap, pt := x.1 } x.2 with
      fresh := r.1.fresh, frefs := r.1.frefs
      ring := (gone.foldl Ring.remove s.ring).made s.fresh r.1.fresh }

/-- `do_mmap`. -/
def sysMmap (k : Kernel) (p : ℕ) (P : Proc) (a : MmapArgs) (kzalloc : Bool) (io : ℕ → ℕ → ℕ)
    (s : Machine) : Option Machine :=
  (doMmap k.files P.fds a kzalloc (s.space P)).map fun r =>
    let unmaps := unmapsFirst k.files P.fds a kzalloc
    let x := if unmaps then munmapPages k a.addr (pageAlign a.len) io P.mmap (P.pt, s.mem)
      else (P.pt, s.mem)
    let gone := if unmaps then (unlinkRange a.addr (a.addr + pageAlign a.len) [] P.mmap).2 else []
    { s.setProc p { P with mmap := r.1.mmap, pt := x.1 } x.2 with
      fresh := r.1.fresh, frefs := r.1.frefs
      ring := (gone.foldl Ring.remove s.ring).made s.fresh r.1.fresh }

/-- The arguments that `sys_mprotect` refuses, or for which it does nothing. -/
def MprotectIdle (start len : ℕ) : Prop :=
  kernelBase < start ∨ kernelBase - start < len ∨ pageAlign len = 0

instance (start len : ℕ) : Decidable (MprotectIdle start len) :=
  inferInstanceAs (Decidable (_ ∨ _))

def sysMprotect (k : Kernel) (p : ℕ) (P : Proc) (start len : ℕ) (prot : VmFlags) (s : Machine) :
    Machine :=
  if MprotectIdle start len then s
  else
    s.setProc p
      { P with
        mmap := protectAreas (pageMask start) (pageMask start + pageAlign len) prot P.mmap
        pt := protectPageRange k (pageMask start) (pageMask start + pageAlign len) prot P.pt }
      s.mem

/-- The loop of `sys_msync`: what it writes back, and how far it gets. -/
def msyncAreas (k : Kernel) (fin : ℕ) (io : ℕ → ℕ) :
    ℕ → List Vma → PageTable × Memory → (PageTable × Memory) × ℕ
  | cursor, [], x => (x, cursor)
  | cursor, v :: l, x =>
      if fin ≤ v.vmStart ∨ cursor < v.vmStart then (x, cursor)
      else
        msyncAreas k fin io (max cursor v.vmEnd) l
          (if v.vmFlags.shared && v.vmFlags.write then
            syncArea k v (max cursor v.vmStart) (min fin v.vmEnd) io x else x)

/-- `sys_msync`; the flags are given by whether they are valid. -/
def sysMsync (k : Kernel) (p : ℕ) (P : Proc) (addr len : ℕ) (flags : Bool) (io : ℕ → ℕ)
    (s : Machine) : Machine × Except Errno Unit :=
  if addr % pageSize ≠ 0 ∨ kernelBase < addr ∨ kernelBase - addr < len ∨ flags = false then
    (s, .error .EINVAL)
  else if len = 0 then (s, .ok ())
  else
    let r := msyncAreas k (addr + pageAlign len) io addr
      (P.mmap.dropWhile fun v => decide (v.vmEnd ≤ addr)) (P.pt, s.mem)
    (s.setProc p { P with pt := r.1.1 } r.1.2,
      if r.2 < addr + pageAlign len then .error .ENOMEM else .ok ())

/-! ## Fork and exit -/

/-- `dup_mmap`: the copies of the areas, and the links between them and their originals. -/
def dupMmap (frefs : ℕ → ℤ) (ring : Ring) (fresh : ℕ) :
    List Vma → List Vma × (ℕ → ℤ) × Ring
  | [] => ([], frefs, ring)
  | v :: l =>
      let ring' := if v.vmFlags.shared then ring.insertAfter v fresh else ring.alone fresh
      let r := dupMmap (refFile v.vmFile 1 frefs) ring' (fresh + 1) l
      ({ v with ptr := fresh } :: r.1, r.2)

/-- What `exit_mmap` does beside the `close` operations. -/
def dropAreas (l : List Vma) (s : Machine) : Machine :=
  { s with
    frefs := l.foldl (fun frefs v => refFile v.vmFile (-1) frefs) s.frefs
    ring := l.foldl Ring.remove s.ring }

/-- How `copy_mm` ends. -/
inductive ForkAnswer
  | ok
  /-- `alloc_pt` fails at this page directory entry. -/
  | noTable (pde : ℕ)
  /-- `kmalloc` fails after this many areas; the pages that `exit_mmap` writes back. -/
  | noArea (areas : ℕ) (io : ℕ → ℕ)

/-- `do_fork`, of a child with a new process number. -/
def doFork (p : ℕ) (P : Proc) (child : ℕ) (k : Kernel) (ans : ForkAnswer) (s : Machine) :
    Machine :=
  match ans with
  | .noTable pde =>
      let pt := copyEntries (some pde) P.pt
      s.setProc p { P with pt := writeProtect (some pde) P.pt }
        (putPages (frames pt) (refPages (frames pt) s.mem))
  | .noArea n io =>
      let pt := copyEntries none P.pt
      let r := dupMmap s.frefs s.ring s.fresh (P.mmap.take n)
      let x := freePageTables (closeAreas k io r.1 (pt, refPages (frames pt) s.mem))
      let t := s.setProc p { P with pt := writeProtect none P.pt } x.2
      dropAreas r.1 { t with frefs := r.2.1, ring := r.2.2, fresh := s.fresh + r.1.length }
  | .ok =>
      let pt := copyEntries none P.pt
      let r := dupMmap s.frefs s.ring s.fresh P.mmap
      let t := s.setProc p { P with pt := writeProtect none P.pt } (refPages (frames pt) s.mem)
      { t with
        procs := t.procs.insert child ⟨r.1, pt, P.fds⟩
        frefs := r.2.1, ring := r.2.2, fresh := s.fresh + r.1.length }

/-- The part of `do_exit` that gives the address space back. -/
def doExit (k : Kernel) (p : ℕ) (P : Proc) (io : ℕ → ℕ) (s : Machine) : Machine :=
  let x := freePageTables (closeAreas k io P.mmap (P.pt, s.mem))
  dropAreas P.mmap { s with procs := s.procs.erase p, mem := x.2 }

/-! ## Steps -/

/-- The calls of a process, with the answers they get. -/
inductive Call
  | fault (addr : ℕ) (write : Bool) (ans : Answer)
  | store (addr byte : ℕ)
  | mmap (a : MmapArgs) (kzalloc : Bool) (io : ℕ → ℕ → ℕ)
  | munmap (addr len : ℕ) (io : ℕ → ℕ → ℕ)
  | mprotect (start len : ℕ) (prot : VmFlags)
  | msync (addr len : ℕ) (flags : Bool) (io : ℕ → ℕ)
  | fork (child : ℕ) (ans : ForkAnswer)
  | exit (io : ℕ → ℕ)
  /-- A descriptor is opened, or closed. -/
  | setFd (fd : ℕ) (file : Option ℕ)

/-- What happens in the kernel beside the calls. -/
inductive Event
  /-- Kernel code takes a frame, and drops a reference that it has. -/
  | hold (f : ℕ)
  | release (f : ℕ)
  /-- `filemap_get_page` by a read of the file. -/
  | acquire (ino index : ℕ) (page : Option ℕ)
  | evict (ino index : ℕ)

/-- A step is a call of a process, or an event. -/
inductive Label
  | call (p : ℕ) (c : Call)
  | event (e : Event)

/-- The state after a call of a process that is there. -/
def execCall (k : Kernel) (p : ℕ) (P : Proc) (s : Machine) : Call → Option Machine
  | .fault addr write ans =>
      if allows P.pt addr write then none else doPageFault k p P addr write ans s
  | .store addr byte => store p P addr byte s
  | .mmap a kzalloc io => sysMmap k p P a kzalloc io s
  | .munmap addr len io => sysMunmap k p P addr len io s
  | .mprotect start len prot => some (sysMprotect k p P start len prot s)
  | .msync addr len flags io => some (sysMsync k p P addr len flags io s).1
  | .fork child ans => if child ∈ s.procs then none else some (doFork p P child k ans s)
  | .exit io => some (doExit k p P io s)
  | .setFd fd file => some (s.setProc p { P with fds := update P.fds fd file } s.mem)

def execEvent (m : Memory) : Event → Option Memory
  | .hold f => (getZeroPage f m).map fun m => { m with held := f :: m.held }
  | .release f => if f ∈ m.held then some (putPages [f] { m with held := m.held.erase f }) else none
  | .acquire ino index page =>
      (filemapGetPage ino index page m).map fun r =>
        { r.1 with held := r.2.toList ++ r.1.held }
  | .evict ino index => evict ino index m

/-- The state after a step. There is none when the process does not exist, the allocator
cannot give the answer, or an assertion fails. -/
def exec (k : Kernel) (s : Machine) : Label → Option Machine
  | .call p c => (s.procs.lookup p).bind fun P => execCall k p P s c
  | .event e => (execEvent s.mem e).map fun m => { s with mem := m }

def Step (k : Kernel) (s : Machine) (lab : Label) (t : Machine) : Prop := exec k s lab = some t

end Mario.Paging
