import Mario.Mm.Vma

/-!
# Mapping and unmapping

`do_mmap`, `do_munmap` and `unmap_fixup` of `mm/mm.c` as they run when no other
thread shares the address space. `frefs` counts the references of each open
file, and `fresh` is the address the next structure is put at. The checks follow
the source's order, so that the error of a call that fails several of them is
the source's. Allocations of split areas succeed; the source panics otherwise.
-/

namespace Mario.Mm

inductive Errno
  | EINVAL
  | EBADF
  | ENODEV
  | EACCES
  | ENOMEM
  | EROFS
  deriving DecidableEq

def nrOpen : ℕ := 256

/-- What the checks of `generic_file_mmap` read of an inode. -/
structure Inode where
  /-- The inode's own address. -/
  ino : ℕ
  /-- The superblock's `MS_RDONLY`, when there is a superblock. -/
  iSb : Option Bool
  /-- `S_ISREG(i_mode)`. -/
  isReg : Bool
  deriving DecidableEq

/-- Which of the operations of a `file_operations` are set. -/
structure FileOps where
  mmap : Bool
  readPage : Bool
  write : Bool
  deriving DecidableEq

structure File where
  fMode : ℕ
  fInode : Option Inode
  fOp : Option FileOps
  deriving DecidableEq

/-- An address space, with the file references it shares with the system. -/
structure Space where
  mmap : List Vma
  fresh : ℕ
  frefs : ℕ → ℤ

/-- The arguments of `do_mmap`, all below `2 ^ 32`. -/
structure MmapArgs where
  addr : ℕ
  len : ℕ
  prot : ℕ
  flags : ℕ
  fd : ℕ
  off : ℕ
  deriving DecidableEq

/-- `flags & MAP_FIXED`. -/
def MmapArgs.fixed (a : MmapArgs) : Bool := a.flags.testBit 4

/-- `flags & MAP_ANONYMOUS`. -/
def MmapArgs.anonymous (a : MmapArgs) : Bool := a.flags.testBit 5

/-- `flags & MAP_TYPE`; one is `MAP_SHARED` and two is `MAP_PRIVATE`. -/
def MmapArgs.type (a : MmapArgs) : ℕ := a.flags % 16

/-- The `vm_flags` that `alloc_vma` computes. -/
def MmapArgs.vmFlags (a : MmapArgs) : VmFlags :=
  ⟨a.prot.testBit 0, a.prot.testBit 1, a.prot.testBit 2, a.type == 1, a.flags.testBit 8⟩

/-- `fref` or `put_file` on the file of an area, `n` times. -/
def refFile (file : Option ℕ) (n : ℤ) (frefs : ℕ → ℤ) : ℕ → ℤ :=
  fun f => if some f = file then frefs f + n else frefs f

/-- `unmap_fixup`: the pieces take a reference each, then the old area drops its own. -/
def unmapFixup (v : Vma) (addr fin : ℕ) (s : Space) : Option Space :=
  let pieces := unmapPieces v addr fin s.fresh
  (pieces.foldlM (fun l w => insertVmStruct w l) s.mmap).map fun l =>
    ⟨l, s.fresh + pieces.length, refFile v.vmFile (pieces.length - 1) s.frefs⟩

/-- The arguments that `do_munmap` refuses. -/
def MunmapInvalid (addr len : ℕ) : Prop :=
  addr % pageSize ≠ 0 ∨ kernelBase < addr ∨ kernelBase - addr < len

instance (addr len : ℕ) : Decidable (MunmapInvalid addr len) :=
  inferInstanceAs (Decidable (_ ∨ _))

/-- `do_munmap(addr, len)`, without its work on the page table. -/
def doMunmap (addr len : ℕ) (s : Space) : Option (Space × Except Errno Unit) :=
  if MunmapInvalid addr len then some (s, .error .EINVAL)
  else
    let fin := addr + pageAlign len
    let walk := unlinkRange addr fin [] s.mmap
    if pageAlign len = 0 then some (s, .ok ())
    else
      (walk.2.foldlM (fun s v => unmapFixup v (max addr v.vmStart) (min fin v.vmEnd) s)
        { s with mmap := walk.1 }).map fun s => (s, .ok ())

section

variable (files : ℕ → File) (fds : ℕ → Option ℕ)

/-- The file that `do_mmap` maps, if it is not an anonymous mapping. -/
def mmapFile (a : MmapArgs) : Except Errno (Option ℕ) :=
  if a.anonymous then
    if a.fd = wordSize - 1 then .ok none else .error .EINVAL
  else if a.fd < nrOpen then
    match fds a.fd with
    | some f => .ok (some f)
    | none => .error .EBADF
  else .error .EBADF

/-- The checks that `do_mmap` makes only for a file. -/
def checkFile (a : MmapArgs) (file : Option ℕ) : Except Errno Unit :=
  match file with
  | none => .ok ()
  | some f =>
      if !((files f).fOp.any FileOps.mmap) then .error .ENODEV
      else if a.off % pageSize ≠ 0 then .error .EINVAL
      else if (a.off + pageAlign a.len) % wordSize < a.off then .error .EINVAL
      else .ok ()

/-- The `switch` of `do_mmap` on the kind of mapping. -/
def checkType (a : MmapArgs) (file : Option ℕ) : Except Errno Unit :=
  let readable := file.all fun f => (files f).fMode.testBit 0
  let writable := file.all fun f => (files f).fMode.testBit 1
  if a.type = 1 then
    if a.prot.testBit 1 && !writable then .error .EACCES
    else if readable then .ok () else .error .EACCES
  else if a.type = 2 then
    if readable then .ok () else .error .EACCES
  else .error .EINVAL

/-- The checks of `do_mmap`, up to the choice of the address. -/
def checkMmap (a : MmapArgs) : Except Errno (Option ℕ) :=
  (mmapFile fds a).bind fun file =>
    if pageAlign a.len = 0 then .error .EINVAL
    else if kernelBase < a.addr ∨ kernelBase < pageAlign a.len ∨
        kernelBase - pageAlign a.len < a.addr then .error .EINVAL
    else if a.fixed ∧ a.addr % pageSize ≠ 0 then .error .EINVAL
    else
      (checkFile files a file).bind fun _ =>
        (checkType files a file).bind fun _ => .ok file

/-- `alloc_vma`, for a mapping that starts at `addr`. -/
def allocVma (a : MmapArgs) (addr : ℕ) (file : Option ℕ) (fresh : ℕ) : Vma :=
  { ptr := fresh
    vmStart := addr
    vmEnd := addr + pageAlign a.len
    vmFlags := a.vmFlags
    vmPageProt := getPageProt a.vmFlags
    vmFile := none
    vmInode := none
    vmOffset := if file.isSome then a.off else 0
    vmOps := none
    area := fresh }

/-- `generic_file_mmap`, the `mmap` operation of every file system that has one. -/
def genericFileMmap (f : ℕ) (v : Vma) : Except Errno Vma :=
  match (files f).fInode with
  | none => .error .EACCES
  | some inode =>
      match inode.iSb with
      | none => .error .EACCES
      | some rdonly =>
          if !inode.isReg then .error .EACCES
          else if !((files f).fOp.any FileOps.readPage) then .error .EACCES
          else if v.vmFlags.shared && v.vmFlags.write && !((files f).fOp.any FileOps.write) then
            .error .EACCES
          else if v.vmFlags.shared && v.vmFlags.write && rdonly then .error .EROFS
          else
            let ops := fileMmapOps v.vmFlags
            .ok { v with vmFile := some f, vmInode := some inode.ino, vmOps := some ops }

/-- The area that `do_mmap` inserts: the file's `mmap` operation is called on it
before, when there is a file. -/
def mmapArea (file : Option ℕ) (v : Vma) : Except Errno Vma :=
  match file with
  | none => .ok v
  | some f => genericFileMmap files f v

/-- The end of `do_mmap`: insert the area, or give up when the file refuses it. -/
def finishMmap (file : Option ℕ) (v : Vma) (s : Space) : Option (Space × Except Errno ℕ) :=
  match mmapArea files file v with
  | .error e => some (s, .error e)
  | .ok w =>
      (insertVmStruct w s.mmap).map fun l =>
        (⟨mergeMmap l, s.fresh, refFile w.vmFile 1 s.frefs⟩, .ok w.vmStart)

/-- `do_mmap`. The flag is the answer of `kzalloc`. -/
def doMmap (a : MmapArgs) (kzalloc : Bool) (s : Space) : Option (Space × Except Errno ℕ) :=
  match checkMmap files fds a with
  | .error e => some (s, .error e)
  | .ok file =>
      if a.fixed then
        if kzalloc then
          (doMunmap a.addr (pageAlign a.len) { s with fresh := s.fresh + 1 }).bind fun r =>
            finishMmap files file (allocVma a a.addr file s.fresh) r.1
        else some (s, .error .ENOMEM)
      else
        let addr := getUnmappedArea a.addr (pageAlign a.len) s.mmap
        if addr = 0 then some (s, .error .ENOMEM)
        else if kzalloc then
          finishMmap files file (allocVma a addr file s.fresh) { s with fresh := s.fresh + 1 }
        else some (s, .error .ENOMEM)

/-- `do_mmap` gets as far as unmapping its range. -/
def unmapsFirst (a : MmapArgs) (kzalloc : Bool) : Bool :=
  (checkMmap files fds a).isOk && a.fixed && kzalloc

end

end Mario.Mm
