import Mario.Lib.RefCount
import Mario.Lib.Tables
import Mario.Mm.Mmap

/-!
# Page tables, page frames and the page cache

The user half of a page table is a table from page numbers to entries. Memory is the
frames with their reference counts and bytes, the page cache of `mm/filemap.c` and
the files below it. The page cache is the one of a kernel in which no two calls
overlap: between two calls an entry is up to date or absent. (An entry in the
error state owns no page and makes the next lookup fail, which an answer covers.)

What the environment decides (the frame that the allocator hands out, whether it has
one, how much of a write succeeds) is an argument; an answer that the allocator cannot
give makes the result `none`.
-/

namespace Mario.Paging

open Mario.Mm Mario.Lib Function

/-- A present page table entry; `frame` is the physical page frame number. -/
structure Pte where
  frame : ℕ
  user : Bool
  rw : Bool
  dirty : Bool
  deriving DecidableEq

/-- The present entries of the user part of a page directory, by page number. -/
abbrev PageTable := Table ℕ Pte

/-- The frames that the entries map, each once for every entry. -/
def frames (pt : PageTable) : List ℕ := (Table.values pt).map Pte.frame

/-- Frames, page cache and files. -/
structure Memory where
  /-- `mem_map[].count`, and which frames the buddy allocator has. -/
  pool : Pool ℕ
  /-- The bytes of the frames. -/
  data : ℕ → ℕ → ℕ
  /-- The page cache: the frame of a page of an inode. -/
  cache : Table (ℕ × ℕ) ℕ
  /-- Frames that kernel code refers to between two calls, once for each reference. -/
  held : List ℕ
  /-- The bytes of the files, and their `i_size`. -/
  disk : ℕ → ℕ → ℕ
  size : ℕ → ℕ

/-- The frames that the page cache and kernel code refer to. -/
def Memory.users (m : Memory) : List ℕ := Table.values m.cache ++ m.held

/-- The number of frames below `KERNEL_BASE`: `__vir` and `__phy` of a frame differ by it. -/
def kernelFrames : ℕ := 0x80000

/-- What the calls read and never write. -/
structure Kernel where
  files : ℕ → File
  /-- The frame of `empty_bad_page`. -/
  bad : ℕ
  bad_lt : bad < kernelFrames
  /-- `rlim[RLIMIT_STACK].rlim_cur`. -/
  rlimStack : ℕ

/-- The frame number that results when `__phy` is applied to a physical address, or when
a virtual address of the frame is taken for a physical one. -/
def crossed (f : ℕ) : ℕ := (f + kernelFrames) % 0x100000

/-- `__pte_bad`: it compares the physical address in the entry with the virtual address
of `empty_bad_page`. -/
def pteBad (k : Kernel) (pte : Pte) : Bool := pte.frame == crossed k.bad

/-- `file->f_inode`. -/
def inodeOf (k : Kernel) (f : ℕ) : Option ℕ := (k.files f).fInode.map Inode.ino

/-! ## Frames -/

/-- `get_zero_page`, when the allocator hands out `g`. -/
def getZeroPage (g : ℕ) (m : Memory) : Option Memory :=
  if m.pool.free g then
    some { m with pool := m.pool.take g, data := update m.data g fun _ => 0 }
  else none

/-- `ref_page` on several frames. -/
def refPages (l : List ℕ) (m : Memory) : Memory :=
  { m with pool := l.foldl (fun s f => s.ref f) m.pool }

/-- `__put_page` on several frames. -/
def putPages (l : List ℕ) (m : Memory) : Memory :=
  { m with pool := l.foldl (fun s f => s.put f) m.pool }

/-- `*pt = BAD_PAGE`: the frame is zeroed, and mapped without a reference. -/
def installBad (k : Kernel) (pg : ℕ) (x : PageTable × Memory) : PageTable × Memory :=
  (x.1.insert pg ⟨k.bad, true, true, false⟩,
    { x.2 with data := update x.2.data k.bad fun _ => 0 })

/-! ## The page cache -/

/-- A byte of a file, zero from `i_size` on. -/
def fileByte (m : Memory) (ino off : ℕ) : ℕ := if off < m.size ino then m.disk ino off else 0

/-- `filemap_get_page`. The page is found, or loaded into the frame that the allocator
hands out; there is no answer when there is no memory, no room in the cache, or an
error in the file. -/
def filemapGetPage (ino index : ℕ) (page : Option ℕ) (m : Memory) :
    Option (Memory × Option ℕ) :=
  match m.cache.lookup (ino, index) with
  | some f => some ({ m with pool := m.pool.ref f }, some f)
  | none =>
      match page with
      | none => some (m, none)
      | some g =>
          if m.pool.free g then
            some ({ m with
              pool := (m.pool.take g).ref g
              data := update m.data g fun o => fileByte m ino (index * pageSize + o)
              cache := m.cache.insert (ino, index) g }, some g)
          else none

/-- `filemap_evict_one_locked` on an entry that only the cache refers to. -/
def evict (ino index : ℕ) (m : Memory) : Option Memory :=
  (m.cache.lookup (ino, index)).bind fun f =>
    if m.pool.count f = 1 then
      some { m with pool := m.pool.put f, cache := m.cache.erase (ino, index) }
    else none

/-- The file system's `write` of `n` bytes at a page boundary of a cached page, with the
`filemap_update_cached_range` that it ends with. A gap behind the old end reads as zero. -/
def fileWrite (ino pos : ℕ) (bytes : ℕ → ℕ) (n c : ℕ) (m : Memory) : Memory :=
  if n = 0 then m
  else
    { m with
      disk := update m.disk ino fun o =>
        if pos ≤ o ∧ o < pos + n then bytes (o - pos)
        else if o < m.size ino then m.disk ino o else 0
      size := update m.size ino (max (m.size ino) (pos + n))
      data := update m.data c fun o => if o < n then bytes o else m.data c o }

/-- `filemap_sync_pte` for a whole page: a dirty page of the cache is written to its file,
through a copy of `file` that may write. `n` is what the file system's `write` returns. -/
def filemapSyncPte (k : Kernel) (f : ℕ) (v : Vma) (pg n : ℕ) (x : PageTable × Memory) :
    PageTable × Memory :=
  match x.1.lookup pg, inodeOf k f with
  | some pte, some ino =>
      if pteBad k pte || !pte.dirty then x
      else
        match x.2.cache.lookup (ino, v.pos (pg * pageSize) / pageSize) with
        | none => x
        | some c =>
            if !((k.files f).fOp.any FileOps.write) then x
            else
              (if n < pageSize then x.1 else x.1.insert pg { pte with dirty := false },
                fileWrite ino (v.pos (pg * pageSize)) (x.2.data pte.frame) (min n pageSize) c x.2)
  | _, _ => x

/-- The page numbers of a range of whole pages. -/
def pagesIn (start fin : ℕ) : List ℕ := List.range' (start / pageSize) ((fin - start) / pageSize)

def filemapSync (k : Kernel) (v : Vma) (start fin : ℕ) (io : ℕ → ℕ) (x : PageTable × Memory) :
    PageTable × Memory :=
  match v.vmFile with
  | none => x
  | some f =>
      if v.vmFlags.shared && v.vmFlags.write then
        (pagesIn start fin).foldl (fun x pg => filemapSyncPte k f v pg (io pg) x) x
      else x

/-- `vm_ops->sync`, `vm_ops->unmap` and `vm_ops->close`, when there are any. -/
def syncArea (k : Kernel) (v : Vma) (start fin : ℕ) (io : ℕ → ℕ) (x : PageTable × Memory) :
    PageTable × Memory :=
  if v.vmOps = some .fileShared then filemapSync k v start fin io x else x

/-! ## Clearing page table entries -/

def unmapPageRange (k : Kernel) (addr fin : ℕ) (x : PageTable × Memory) : PageTable × Memory :=
  let inside := fun pg => decide (addr ≤ pg * pageSize ∧ pg * pageSize < fin)
  let gone := Table.values (Table.restrict inside x.1)
  (Table.restrict (fun pg => !inside pg) x.1,
    putPages ((gone.filter fun pte => !pteBad k pte).map Pte.frame) x.2)

/-- `clear_page_tables` and `free_page_tables`. -/
def freePageTables (x : PageTable × Memory) : PageTable × Memory := (∅, putPages (frames x.1) x.2)

/-- What `do_munmap` does to the pages: each area that overlaps the range is written
back, and again as a whole when all of it goes, and then the entries are cleared. -/
def munmapPages (k : Kernel) (addr len : ℕ) (io : ℕ → ℕ → ℕ) (l : List Vma)
    (x : PageTable × Memory) : PageTable × Memory :=
  let fin := addr + pageAlign len
  let free := (unlinkRange addr fin [] l).2
  if MunmapInvalid addr len ∨ pageAlign len = 0 ∨ free = [] then x
  else
    unmapPageRange k addr fin (free.foldl (fun x v =>
      let y := syncArea k v (max addr v.vmStart) (min fin v.vmEnd) (io 0) x
      if addr ≤ v.vmStart ∧ v.vmEnd ≤ fin then syncArea k v v.vmStart v.vmEnd (io 1) y else y) x)

/-- The `close` operations of `exit_mmap`. -/
def closeAreas (k : Kernel) (io : ℕ → ℕ) (l : List Vma) (x : PageTable × Memory) :
    PageTable × Memory :=
  l.foldl (fun x v => syncArea k v v.vmStart v.vmEnd io x) x

/-! ## Changing and copying entries -/

def protectPageRange (k : Kernel) (start fin : ℕ) (prot : VmFlags) (pt : PageTable) : PageTable :=
  Table.mapVal (fun pg pte =>
    if (start ≤ pg * pageSize ∧ pg * pageSize < fin) ∧ pteBad k pte = false then
      { pte with user := (getPageProt prot).user, rw := (getPageProt prot).rw }
    else pte) pt

/-- The entries that `copy_page_tables` reaches: all of them, or those of the page
directory entries before the one at which `alloc_pt` fails. -/
def reached (pde : Option ℕ) (pg : ℕ) : Bool := pde.all fun i => decide (pg / 1024 < i)

/-- `copy_one_pte` on the parent's side. -/
def writeProtect (pde : Option ℕ) (pt : PageTable) : PageTable :=
  Table.mapVal (fun pg pte => if reached pde pg then { pte with rw := false } else pte) pt

/-- `copy_one_pte` on the child's side. -/
def copyEntries (pde : Option ℕ) (pt : PageTable) : PageTable :=
  Table.mapVal (fun _ pte => { pte with rw := false }) (Table.restrict (reached pde) pt)

end Mario.Paging
